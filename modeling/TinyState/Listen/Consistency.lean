import TinyState.Listen.Graph
import Mathlib.Data.List.Nodup

/-!
# The two ends of a handle

Apart from a new handle, which is put on both lists, the operations only take
handles off lists. Most take a handle off both its lists or leave it on both;
the few that work at one end are `remove_handle` of a handle, which leaves the
other end to its caller, `remove_listener` at an object that is not the source,
and `invoke_listen` with `clearFlag`, which clears the list of the source.
-/

namespace TinyState

open Transition

variable {ω : Type}

namespace Graph

variable {g g' g'' : Graph ω} {x h : Nat} {o : ω} {type : Int}

/-- A handle that is on a list has both its ends. -/
def Joins (g : Graph ω) (h : Nat) (o l : ω) (type : Int) : Prop :=
  g.eh h = some ⟨some o, some l, type, o, l⟩

/-- No list holds a handle twice, or one that does not belong there. -/
structure Ordered (g : Graph ω) : Prop where
  lists : ∀ o type, (g.lists o type).Nodup
  handles : ∀ o, (g.handles o).Nodup
  listed : ∀ o type, ∀ h ∈ g.lists o type, ∃ l, g.Joins h o l type
  handled : ∀ l, ∀ h ∈ g.handles l, ∃ o type, g.Joins h o l type
  ends : ∀ h e, g.eh h = some e → e.source = some e.ofSource ∧ e.listener = some e.ofListener ∨
    e.source = none ∧ e.listener = none
  fresh : ∀ h, g.next ≤ h → g.eh h = none

/-- The handle is on no list. -/
def Off (g : Graph ω) (x : Nat) : Prop :=
  (∀ o type, x ∉ g.lists o type) ∧ ∀ l, x ∉ g.handles l

/-- The handle is on the list of its source and on that of its listener, or on neither. -/
def Even (g : Graph ω) (x : Nat) : Prop :=
  ∀ e, g.eh x = some e → (x ∈ g.lists e.ofSource e.type ↔ x ∈ g.handles e.ofListener)

instance (g : Graph ω) (x : Nat) [DecidableEq ω] : Decidable (g.Even x) :=
  inferInstanceAs (Decidable (∀ e ∈ g.eh x,
    (x ∈ g.lists e.ofSource e.type ↔ x ∈ g.handles e.ofListener)))

/-- Nothing is put on a list, and a handle whose ends are cleared is on none. -/
structure Shrinks (g g' : Graph ω) : Prop where
  lists : ∀ o type, (g'.lists o type).Sublist (g.lists o type)
  handles : ∀ l, (g'.handles l).Sublist (g.handles l)
  eh : ∀ h, g'.eh h = g.eh h ∨ g'.Off h ∧
    g'.eh h = (g.eh h).map fun e => { e with source := none, listener := none }
  next : g'.next = g.next

/-- The handle is where it was. -/
def Stays (g g' : Graph ω) (x : Nat) : Prop :=
  (∀ o type, x ∈ g'.lists o type ↔ x ∈ g.lists o type) ∧ ∀ l, x ∈ g'.handles l ↔ x ∈ g.handles l

/-- The handle is where it was, or on no list any more. -/
def Whole (g g' : Graph ω) (x : Nat) : Prop := g.Stays g' x ∨ g'.Off x

theorem Stays.refl : g.Stays g x := ⟨fun _ _ => Iff.rfl, fun _ => Iff.rfl⟩

theorem Stays.trans (h : g.Stays g' x) (h' : g'.Stays g'' x) : g.Stays g'' x :=
  ⟨fun o t => (h'.1 o t).trans (h.1 o t), fun l => (h'.2 l).trans (h.2 l)⟩

theorem Shrinks.refl : g.Shrinks g :=
  ⟨fun _ _ => List.Sublist.refl _, fun _ => List.Sublist.refl _, fun _ => .inl rfl, rfl⟩

theorem Shrinks.off (h : g.Shrinks g') (hx : g.Off x) : g'.Off x :=
  ⟨fun o t hm => hx.1 o t ((h.lists o t).subset hm), fun l hm => hx.2 l ((h.handles l).subset hm)⟩

theorem Shrinks.trans (h : g.Shrinks g') (h' : g'.Shrinks g'') : g.Shrinks g'' := by
  refine ⟨fun o t => (h'.lists o t).trans (h.lists o t),
    fun l => (h'.handles l).trans (h.handles l), fun x => ?_, h'.next.trans h.next⟩
  rcases h'.eh x with e' | ⟨ho', e'⟩
  · rcases h.eh x with e | ⟨ho, e⟩
    · exact .inl (e'.trans e)
    · exact .inr ⟨h'.off ho, e'.trans e⟩
  · refine .inr ⟨ho', e'.trans ?_⟩
    rcases h.eh x with e | ⟨-, e⟩
    · rw [e]
    · rw [e, Option.map_map]
      rfl

theorem Whole.trans (h : g.Whole g' x) (h' : g'.Whole g'' x) (hs : g'.Shrinks g'') :
    g.Whole g'' x := by
  rcases h with h | h
  · rcases h' with h' | h'
    · exact .inl (h.trans h')
    · exact .inr h'
  · exact .inr (hs.off h)

theorem Shrinks.isSome (h : g.Shrinks g') : (g'.eh x).isSome = (g.eh x).isSome := by
  rcases h.eh x with e | ⟨-, e⟩ <;> simp [e]

theorem Ordered.shrinks (hg : g.Ordered) (h : g.Shrinks g') : g'.Ordered where
  lists o t := (hg.lists o t).sublist (h.lists o t)
  handles l := (hg.handles l).sublist (h.handles l)
  listed o t x hm := by
    obtain ⟨l, hl⟩ := hg.listed o t x ((h.lists o t).subset hm)
    rcases h.eh x with e | ⟨ho, -⟩
    · exact ⟨l, e.trans hl⟩
    · exact absurd hm (ho.1 o t)
  handled l x hm := by
    obtain ⟨o, t, hl⟩ := hg.handled l x ((h.handles l).subset hm)
    rcases h.eh x with e | ⟨ho, -⟩
    · exact ⟨o, t, e.trans hl⟩
    · exact absurd hm (ho.2 l)
  ends x e hx := by
    rcases h.eh x with he | ⟨-, he⟩
    · exact hg.ends x e (he ▸ hx)
    · obtain ⟨e', -, rfl⟩ := Option.map_eq_some_iff.mp (he.symm.trans hx)
      exact .inr ⟨rfl, rfl⟩
  fresh x hx := by
    have hn := hg.fresh x (h.next ▸ hx)
    rcases h.eh x with e | ⟨-, e⟩ <;> simp [e, hn]

theorem Even.whole (hx : g.Even x) (h : g.Shrinks g') (hw : g.Whole g' x) : g'.Even x := by
  intro e he
  rcases hw with hs | ho
  · rw [hs.1, hs.2]
    rcases h.eh x with h' | ⟨-, h'⟩
    · exact hx e (h' ▸ he)
    · obtain ⟨e', he', rfl⟩ := Option.map_eq_some_iff.mp (h'.symm.trans he)
      exact hx e' he'
  · exact ⟨fun hm => absurd hm (ho.1 _ _), fun hm => absurd hm (ho.2 _)⟩

-- ---------------------------------------------------------------------------
-- The operations
-- ---------------------------------------------------------------------------

/-- The handle is taken off its lists, and its ends are cleared. -/
def strike (g : Graph ω) (h : Nat) : Graph ω :=
  { g with
    lists := fun o type => (g.lists o type).erase h
    handles := fun l => (g.handles l).erase h
    eh := fun k => if k = h then (g.eh h).map fun e => { e with source := none, listener := none }
      else g.eh k }

theorem Ordered.strike_off (hg : g.Ordered) : (g.strike h).Off h :=
  ⟨fun o t => (hg.lists o t).not_mem_erase, fun l => (hg.handles l).not_mem_erase⟩

theorem Ordered.strike_shrinks (hg : g.Ordered) : g.Shrinks (g.strike h) := by
  refine ⟨fun _ _ => List.erase_sublist, fun _ => List.erase_sublist, fun k => ?_, rfl⟩
  by_cases hk : k = h
  · subst hk
    exact .inr ⟨hg.strike_off, by simp [strike]⟩
  · exact .inl (by simp [strike, hk])

theorem strike_stays (hx : x ≠ h) : g.Stays (g.strike h) x :=
  ⟨fun _ _ => List.mem_erase_of_ne hx, fun _ => List.mem_erase_of_ne hx⟩

theorem Ordered.strike_whole (hg : g.Ordered) : g.Whole (g.strike h) x := by
  by_cases hx : x = h
  · subst hx
    exact .inr hg.strike_off
  · exact .inl (strike_stays hx)

/-- A handle is on the list of its own source and type only. -/
theorem Ordered.erase_list (hg : g.Ordered) {e : Eh ω} (he : g.eh h = some e) {o : ω} {t : Int}
    (hne : e.source = some o → e.type ≠ t) : (g.lists o t).erase h = g.lists o t := by
  refine List.erase_of_not_mem fun hm => ?_
  obtain ⟨l, hl⟩ := hg.listed o t h hm
  obtain rfl := Option.some.inj (he.symm.trans hl)
  exact hne rfl rfl

theorem Ordered.erase_handles (hg : g.Ordered) {e : Eh ω} (he : g.eh h = some e) {l : ω}
    (hne : e.listener ≠ some l) : (g.handles l).erase h = g.handles l := by
  refine List.erase_of_not_mem fun hm => ?_
  obtain ⟨o, t, hj⟩ := hg.handled l h hm
  obtain rfl := Option.some.inj (he.symm.trans hj)
  exact hne rfl

theorem Ordered.erase_none (hg : g.Ordered) (he : g.eh h = none) : g.strike h = g := by
  have hl : ∀ o t, (g.lists o t).erase h = g.lists o t := fun o t =>
    List.erase_of_not_mem fun hm => by
      obtain ⟨l, hl⟩ := hg.listed o t h hm
      exact nomatch he.symm.trans hl
  have hh : ∀ l, (g.handles l).erase h = g.handles l := fun l =>
    List.erase_of_not_mem fun hm => by
      obtain ⟨o, t, hl⟩ := hg.handled l h hm
      exact nomatch he.symm.trans hl
  have hk : (fun k => if k = h then (g.eh h).map fun e => { e with source := none, listener := none }
      else g.eh k) = g.eh := by
    funext k
    split
    · rename_i hk
      rw [hk, he]
      rfl
    · rfl
  simp only [strike, hl, hh, hk]

section

variable [DecidableEq ω]

theorem delHandle_handles (hg : g.Ordered) {e : Eh ω} (he : g.eh h = some e) {l : ω}
    (hl : e.listener = some l) :
    (g.delHandle l h).handles = fun l => (g.handles l).erase h := by
  funext m
  by_cases hm : m = l
  · subst hm
    simp [delHandle]
  · simp [delHandle, Function.update_of_ne hm,
      hg.erase_handles he (by simpa [hl] using Ne.symm hm)]

theorem delListener_lists (hg : g.Ordered) {e : Eh ω} (he : g.eh h = some e) {o : ω}
    (ho : e.source = some o) :
    (g.delListener o e.type h).lists = fun o t => (g.lists o t).erase h := by
  funext m t
  by_cases hm : m = o
  · subst hm
    by_cases ht : t = e.type
    · subst ht
      simp [delListener]
    · simp [delListener, Function.update_of_ne ht, hg.erase_list he fun _ => Ne.symm ht]
  · simp [delListener, Function.update_of_ne hm,
      hg.erase_list he fun h => absurd (Option.some.inj (ho.symm.trans h)).symm hm]

theorem Ordered.remove_eq (hg : g.Ordered) (h : Nat) : g.remove h = g.strike h := by
  cases he : g.eh h with
  | none => simp only [remove, he, hg.erase_none he]
  | some e =>
    have heh : Function.update g.eh h (some { e with source := none, listener := none }) =
        (g.strike h).eh := by
      funext k
      by_cases hk : k = h
      · subst hk
        simp [strike, he]
      · simp [strike, hk]
    rcases hg.ends h e he with ⟨hs, hl⟩ | ⟨hs, hl⟩
    · have h1 := delListener_lists hg he hs
      have h2 := delHandle_handles hg he hl
      simp only [delListener, delHandle] at h1 h2
      simp only [remove, he, hs, hl, removeListener, delListener, delHandle, Function.update_self,
        h1, h2, heh, strike]
    · have h1 : (fun o t => (g.lists o t).erase h) = g.lists := by
        funext o t
        exact hg.erase_list he (by simp [hs])
      have h2 : (fun l => (g.handles l).erase h) = g.handles := by
        funext l
        exact hg.erase_handles he (by simp [hl])
      simp only [remove, he, hs, hl, heh, strike, h1, h2]

theorem Ordered.remove_shrinks (hg : g.Ordered) : g.Shrinks (g.remove h) :=
  hg.remove_eq h ▸ hg.strike_shrinks

theorem Ordered.remove_whole (hg : g.Ordered) : g.Whole (g.remove h) x :=
  hg.remove_eq h ▸ hg.strike_whole

theorem update_sublist {l : ω} {m : List Nat} (hm : m.Sublist (g.handles l)) (k : ω) :
    (Function.update g.handles l m k).Sublist (g.handles k) := by
  by_cases hk : k = l
  · subst hk
    simpa using hm
  · simp [Function.update_of_ne hk]

theorem update_list_sublist {o : ω} {t : Int} {m : List Nat} (hm : m.Sublist (g.lists o t))
    (p : ω) (u : Int) :
    (Function.update g.lists o (Function.update (g.lists o) t m) p u).Sublist (g.lists p u) := by
  by_cases hp : p = o
  · subst hp
    by_cases hu : u = t
    · subst hu
      simpa using hm
    · simp [Function.update_of_ne hu]
  · simp [Function.update_of_ne hp]

theorem delHandle_shrinks (l : ω) : g.Shrinks (g.delHandle l h) :=
  ⟨fun _ _ => .refl _, update_sublist List.erase_sublist, fun _ => .inl rfl, rfl⟩

theorem delListener_shrinks (o : ω) (t : Int) : g.Shrinks (g.delListener o t h) :=
  ⟨update_list_sublist List.erase_sublist, fun _ => .refl _, fun _ => .inl rfl, rfl⟩

theorem delHandle_stays (l : ω) (hx : x ≠ h) : g.Stays (g.delHandle l h) x := by
  refine ⟨fun _ _ => Iff.rfl, fun k => ?_⟩
  by_cases hk : k = l
  · subst hk
    simp [delHandle, List.mem_erase_of_ne hx]
  · simp [delHandle, Function.update_of_ne hk]

theorem delListener_stays (o : ω) (t : Int) (hx : x ≠ h) : g.Stays (g.delListener o t h) x := by
  refine ⟨fun p u => ?_, fun _ => Iff.rfl⟩
  by_cases hp : p = o
  · subst hp
    by_cases hu : u = t
    · subst hu
      simp [delListener, List.mem_erase_of_ne hx]
    · simp [delListener, Function.update_of_ne hu]
  · simp [delListener, Function.update_of_ne hp]

theorem Ordered.drop_stays (hg : g.Ordered) (hs : g.Shrinks g') (hst : g.Stays g' x)
    (hx : x ≠ h) : g.Stays (g'.remove h) x := by
  rw [(hg.shrinks hs).remove_eq h]
  exact hst.trans (strike_stays hx)

/-- Taking a handle off one list and then off both is taking it off both. -/
theorem Ordered.drop_whole (hg : g.Ordered) (hs : g.Shrinks g') (hx : x ≠ h → g.Stays g' x) :
    g.Shrinks (g'.remove h) ∧ g.Whole (g'.remove h) x := by
  have hg' := hg.shrinks hs
  refine ⟨hs.trans hg'.remove_shrinks, ?_⟩
  by_cases hxh : x = h
  · subst hxh
    exact .inr (hg'.remove_eq x ▸ hg'.strike_off)
  · exact .inl (hg.drop_stays hs (hx hxh) hxh)

omit [DecidableEq ω] in
theorem foldl_whole {α : Type} {f : Graph ω → α → Graph ω} (l : List α)
    (hf : ∀ (g : Graph ω) a, g.Ordered → g.Shrinks (f g a) ∧ g.Whole (f g a) x) (hg : g.Ordered) :
    g.Shrinks (l.foldl f g) ∧ g.Whole (l.foldl f g) x := by
  induction l generalizing g with
  | nil => exact ⟨Shrinks.refl, .inl Stays.refl⟩
  | cons a l ih =>
    obtain ⟨h1, w1⟩ := hf g a hg
    obtain ⟨h2, w2⟩ := ih (hg.shrinks h1)
    exact ⟨h1.trans h2, w1.trans w2 h2⟩

theorem Ordered.removeAll_whole (hg : g.Ordered) (l : List Nat) :
    g.Shrinks (l.foldl remove g) ∧ g.Whole (l.foldl remove g) x :=
  foldl_whole l (fun _ _ hk => ⟨hk.remove_shrinks, hk.remove_whole⟩) hg

theorem Ordered.removeAll_off (hg : g.Ordered) {l : List Nat} (hx : x ∈ l) :
    (l.foldl remove g).Off x := by
  induction l generalizing g with
  | nil => cases hx
  | cons h l ih =>
    have hg' := hg.shrinks (hg.remove_shrinks (h := h))
    rcases List.mem_cons.mp hx with rfl | hx
    · exact (hg'.removeAll_whole (x := x) l).1.off (hg.remove_eq x ▸ hg.strike_off)
    · exact ih hg' hx

theorem removeListener_shrinks (o : ω) : g.Shrinks (g.removeListener o h) := by
  unfold removeListener
  split
  · exact Shrinks.refl
  · rename_i e he
    have h1 := delListener_shrinks (g := g) (h := h) o e.type
    dsimp only
    split
    · exact h1.trans (delHandle_shrinks _)
    · exact h1

/-- `remove_listener` at the source takes the handle off both lists. -/
theorem Ordered.removeListener_whole (hg : g.Ordered) {o : ω}
    (ho : h = x → ∀ e, g.eh h = some e → e.ofSource = o) : g.Whole (g.removeListener o h) x := by
  unfold removeListener
  cases he : g.eh h with
  | none => exact .inl Stays.refl
  | some e =>
    dsimp only
    by_cases hx : h = x
    · subst hx
      right
      obtain rfl := ho rfl e he
      rcases hg.ends h e he with ⟨hs, hl⟩ | ⟨hs, hl⟩
      · have h1 := delListener_lists hg he hs
        have h2 := delHandle_handles hg he hl
        simp only [delListener, delHandle] at h1 h2
        simp only [hl, delListener, delHandle]
        refine ⟨fun p u => ?_, fun k => ?_⟩
        · dsimp only
          rw [h1]
          exact (hg.lists p u).not_mem_erase
        · dsimp only
          rw [h2]
          exact (hg.handles k).not_mem_erase
      · simp only [hl]
        refine (delListener_shrinks _ _).off ⟨fun p u hm => ?_, fun k hm => ?_⟩
        · obtain ⟨l, hj⟩ := hg.listed p u h hm
          obtain rfl := Option.some.inj (he.symm.trans hj)
          cases hs
        · obtain ⟨p, u, hj⟩ := hg.handled k h hm
          obtain rfl := Option.some.inj (he.symm.trans hj)
          cases hs
    · have h1 := delListener_stays (g := g) o e.type (Ne.symm hx)
      split
      · exact .inl (h1.trans (delHandle_stays _ (Ne.symm hx)))
      · exact .inl h1

theorem Ordered.removeHandle_none (hg : g.Ordered) (o : ω) :
    g.Shrinks (g.removeHandle o none) ∧ g.Whole (g.removeHandle o none) x := by
  have hs : g.Shrinks { g with handles := Function.update g.handles o [] } :=
    ⟨fun _ _ => .refl _, update_sublist (List.nil_sublist _), fun _ => .inl rfl, rfl⟩
  have hg' := hg.shrinks hs
  obtain ⟨h1, w1⟩ := hg'.removeAll_whole (x := x) (g.handles o)
  refine ⟨hs.trans h1, ?_⟩
  by_cases hx : x ∈ g.handles o
  · exact .inr (hg'.removeAll_off hx)
  · have hst : g.Stays { g with handles := Function.update g.handles o [] } x := by
      refine ⟨fun _ _ => Iff.rfl, fun k => ?_⟩
      by_cases hk : k = o
      · subst hk
        simpa using hx
      · simp [Function.update_of_ne hk]
    exact Whole.trans (.inl hst) w1 h1

theorem Ordered.last2_whole (hg : g.Ordered) (o : ω) :
    g.Shrinks (g.last2 o) ∧ g.Whole (g.last2 o) x := by
  obtain ⟨h1, w1⟩ := foldl_whole (x := x) (g.handles o)
    (fun _ _ hk => hk.drop_whole (delHandle_shrinks o) (delHandle_stays o)) hg
  obtain ⟨h2, w2⟩ := foldl_whole (x := x) ((List.range EventType.max).map Int.ofNat)
    (fun g t hg => foldl_whole (g.lists o t)
      (fun _ _ hg => hg.drop_whole (delListener_shrinks o t) (delListener_stays o t)) hg)
    (hg.shrinks h1)
  exact ⟨h1.trans h2, w1.trans w2 h2⟩

omit [DecidableEq ω] in
theorem Ordered.not_listed (hg : g.Ordered) (hx : g.eh x = none) : g.Off x := by
  refine ⟨fun o t hm => ?_, fun l hm => ?_⟩
  · obtain ⟨l, hj⟩ := hg.listed o t x hm
    cases hx.symm.trans hj
  · obtain ⟨o, t, hj⟩ := hg.handled l x hm
    cases hx.symm.trans hj

/-- A new handle is put on both its lists. -/
def added (g : Graph ω) (o l : ω) (t : Int) : Graph ω :=
  { g with
    eh := Function.update g.eh g.next (some ⟨some o, some l, t, o, l⟩)
    lists := Function.update g.lists o (Function.update (g.lists o) t (g.lists o t ++ [g.next]))
    handles := Function.update g.handles l (g.next :: g.handles l)
    next := g.next + 1 }

theorem addListener_cases (g : Graph ω) (o l : ω) (t : Int) :
    g.addListener o l t = (none, g) ∨ g.life o ≠ .zom ∧ g.life l ≠ .zom ∧
      g.addListener o l t = (some g.next, g.added o l t) := by
  unfold addListener
  split
  · exact .inl rfl
  · rename_i hn
    simp only [not_or] at hn
    exact .inr ⟨hn.2.2.1, hn.2.2.2, rfl⟩

theorem mem_added_lists {o l p : ω} {t u : Int} :
    x ∈ (g.added o l t).lists p u ↔ x ∈ g.lists p u ∨ x = g.next ∧ p = o ∧ u = t := by
  by_cases hp : p = o
  · subst hp
    by_cases hu : u = t
    · subst hu
      simp [added]
    · simp [added, hu]
  · simp [added, hp]

theorem mem_added_handles {o l k : ω} {t : Int} :
    x ∈ (g.added o l t).handles k ↔ x ∈ g.handles k ∨ x = g.next ∧ k = l := by
  by_cases hk : k = l
  · subst hk
    simp [added, or_comm]
  · simp [added, hk]

theorem added_eh {o l : ω} {t : Int} (hx : x ≠ g.next) : (g.added o l t).eh x = g.eh x :=
  Function.update_of_ne hx ..

theorem added_joins {o l : ω} {t : Int} : (g.added o l t).Joins g.next o l t :=
  Function.update_self ..

theorem Ordered.added (hg : g.Ordered) (o l : ω) (t : Int) : (g.added o l t).Ordered := by
  have hoff := hg.not_listed (hg.fresh g.next (Nat.le_refl _))
  have old : ∀ {y p k u}, g.Joins y p k u → (g.added o l t).Joins y p k u := by
    intro y p k u hj
    refine (added_eh fun hy => ?_).trans hj
    subst hy
    cases (hg.fresh _ (Nat.le_refl _)).symm.trans hj
  refine ⟨fun p u => ?_, fun k => ?_, fun p u y hy => ?_, fun k y hy => ?_, fun y e hy => ?_, ?_⟩
  · by_cases hp : p = o
    · subst hp
      by_cases hu : u = t
      · subst hu
        simpa [Graph.added] using (hg.lists p u).concat (hoff.1 p u)
      · simpa [Graph.added, Function.update_of_ne hu] using hg.lists p u
    · simpa [Graph.added, Function.update_of_ne hp] using hg.lists p u
  · by_cases hk : k = l
    · subst hk
      simpa [Graph.added] using ⟨hoff.2 k, hg.handles k⟩
    · simpa [Graph.added, Function.update_of_ne hk] using hg.handles k
  · rcases mem_added_lists.mp hy with hy | ⟨rfl, rfl, rfl⟩
    · obtain ⟨k, hj⟩ := hg.listed p u y hy
      exact ⟨k, old hj⟩
    · exact ⟨l, added_joins⟩
  · rcases mem_added_handles.mp hy with hy | ⟨rfl, rfl⟩
    · obtain ⟨p, u, hj⟩ := hg.handled k y hy
      exact ⟨p, u, old hj⟩
    · exact ⟨o, t, added_joins⟩
  · by_cases hn : y = g.next
    · subst hn
      obtain rfl := Option.some.inj (added_joins.symm.trans hy)
      exact .inl ⟨rfl, rfl⟩
    · exact hg.ends y e (added_eh hn ▸ hy)
  · intro y hy
    have hlt : g.next + 1 ≤ y := hy
    rw [added_eh (by omega)]
    exact hg.fresh y (by omega)

theorem Even.added (hx : g.Even x) (o l : ω) (t : Int) : (g.added o l t).Even x := by
  intro e he
  rw [mem_added_lists, mem_added_handles]
  by_cases hn : x = g.next
  · subst hn
    obtain rfl := Option.some.inj (added_joins.symm.trans he)
    simp
  · simpa [hn] using hx e (added_eh hn ▸ he)

theorem setLife_shrinks (o : ω) (f : Life) : g.Shrinks (g.setLife o f) :=
  ⟨fun _ _ => .refl _, fun _ => .refl _, fun _ => .inl rfl, rfl⟩

theorem setLife_stays (o : ω) (f : Life) : g.Stays (g.setLife o f) x :=
  ⟨fun _ _ => Iff.rfl, fun _ => Iff.rfl⟩

/-- The operation takes the handle off one of its lists and leaves it on the other. -/
def Tears (g : Graph ω) (x : Nat) : GraphOp ω → Prop
  | .removeHandle l (some h) => h = x ∧ x ∈ g.handles l
  | .removeListener o h => h = x ∧ ∃ e ∈ g.eh h, e.ofSource ≠ o
  | .invokeListen o type true => x ∈ g.lists o type
  | _ => False

instance (g : Graph ω) (x : Nat) (op : GraphOp ω) : Decidable (g.Tears x op) := by
  unfold Tears
  split <;> infer_instance

/-- An operation adds a handle, or takes handles off their lists; one that does
not tear the handle leaves it on both or on none. -/
theorem Ordered.step_cases (hg : g.Ordered) {op : GraphOp ω} (hs : g.step op = some g') :
    (∃ o l t, (op = .listen o l t ∧ g.searchListen o l t = none ∨ op = .addListener o l t) ∧
      g.life o ≠ .zom ∧ g' = g.added o l t) ∨
      g.Shrinks g' ∧ ∀ x, ¬ g.Tears x op → g.Whole g' x := by
  have same : g.Shrinks g ∧ ∀ x, ¬ g.Tears x op → g.Whole g x :=
    ⟨Shrinks.refl, fun _ _ => .inl Stays.refl⟩
  have add : ∀ o l t, g.life o ≠ .zom ∧ (g.addListener o l t).2 = g.added o l t ∨
      (g.addListener o l t).2 = g := by
    intro o l t
    rcases addListener_cases g o l t with h | ⟨hz, -, h⟩ <;> rw [h]
    · exact .inr rfl
    · exact .inl ⟨hz, rfl⟩
  cases op with
  | listen o l t =>
    cases hs
    unfold listen
    split
    · exact .inr same
    · rename_i hn
      rcases add o l t with ⟨hz, h⟩ | h
      · exact .inl ⟨o, l, t, .inl ⟨rfl, hn⟩, hz, h⟩
      · rw [h]
        exact .inr same
  | addListener o l t =>
    cases hs
    rcases add o l t with ⟨hz, h⟩ | h
    · exact .inl ⟨o, l, t, .inr rfl, hz, h⟩
    · rw [h]
      exact .inr same
  | removeListener o h =>
    simp only [step, Option.ite_none_right_eq_some] at hs
    obtain ⟨-, hs⟩ := hs
    cases hs
    refine .inr ⟨removeListener_shrinks o, fun x hx => hg.removeListener_whole ?_⟩
    intro hh e he
    by_contra hne
    exact hx ⟨hh, e, he, hne⟩
  | removeHandle l h =>
    cases h with
    | none =>
      cases hs
      exact .inr ⟨(hg.removeHandle_none (x := 0) l).1, fun x _ => (hg.removeHandle_none l).2⟩
    | some h =>
      simp only [step, Option.ite_none_right_eq_some] at hs
      obtain ⟨-, hs⟩ := hs
      cases hs
      refine .inr ⟨delHandle_shrinks l, fun x hx => .inl ?_⟩
      by_cases hxh : x = h
      · subst hxh
        have hn : x ∉ g.handles l := fun hm => hx ⟨rfl, hm⟩
        refine ⟨fun _ _ => Iff.rfl, fun k => ?_⟩
        by_cases hk : k = l
        · subst hk
          simp [removeHandle, delHandle, List.erase_of_not_mem hn]
        · simp [removeHandle, delHandle, Function.update_of_ne hk]
      · exact delHandle_stays l hxh
  | clean o t =>
    cases hs
    exact .inr ⟨(hg.removeAll_whole (x := 0) _).1, fun x _ => (hg.removeAll_whole _).2⟩
  | remove h =>
    simp only [step, Option.ite_none_right_eq_some] at hs
    obtain ⟨-, hs⟩ := hs
    cases hs
    exact .inr ⟨hg.remove_shrinks, fun x _ => hg.remove_whole⟩
  | invokeListen o t clear =>
    cases hs
    unfold invokeListen
    split
    · exact .inr same
    · cases clear with
      | false => exact .inr same
      | true =>
        refine .inr ⟨⟨update_list_sublist (List.nil_sublist _), fun _ => .refl _, fun _ => .inl rfl,
          rfl⟩, fun x hx => .inl ⟨fun p u => ?_, fun _ => Iff.rfl⟩⟩
        have hn : x ∉ g.lists o t := hx
        by_cases hp : p = o
        · subst hp
          by_cases hu : u = t
          · subst hu
            simpa using hn
          · simp [Function.update_of_ne hu]
        · simp [Function.update_of_ne hp]
  | enterZom o | zom o =>
    simp only [step, Option.ite_none_right_eq_some] at hs
    obtain ⟨-, hs⟩ := hs
    cases hs
    exact .inr ⟨setLife_shrinks .., fun x _ => .inl (setLife_stays ..)⟩
  | last2 o =>
    simp only [step, Option.ite_none_right_eq_some] at hs
    obtain ⟨-, hs⟩ := hs
    cases hs
    refine .inr ⟨(hg.last2_whole (x := 0) o).1.trans (setLife_shrinks ..), fun x _ => ?_⟩
    exact (hg.last2_whole o).2.trans (.inl (setLife_stays ..)) (setLife_shrinks ..)

omit [DecidableEq ω] in
theorem ordered_empty : (empty : Graph ω).Ordered := by
  constructor <;> simp [empty]

end

end Graph

section

variable [DecidableEq ω] {g : Graph ω} {tr : List Empty}

theorem ordered (h : (Listening ω).Run tr g) : g.Ordered := by
  refine h.stateInvariant (fun g hi => hi ▸ Graph.ordered_empty) ?_
  intro g op g' os hg _ hs
  obtain ⟨g', hstep, he⟩ := Option.map_eq_some_iff.mp hs
  cases he
  rcases hg.step_cases hstep with ⟨o, l, t, -, -, rfl⟩ | ⟨hsh, -⟩
  · exact hg.added o l t
  · exact hg.shrinks hsh

/-- No list ever holds a handle twice, and a handle that no operation has torn
is on the list of its source exactly when it is on that of its listener. -/
theorem ends_agree (h : (Listening ω).Run tr g) :
    (∀ o type, (g.lists o type).Nodup) ∧ (∀ l, (g.handles l).Nodup) ∧
      ∀ x, (Listening ω).RunIf (fun g op => ¬ g.Tears x op) tr g → g.Even x := by
  refine ⟨(ordered h).lists, (ordered h).handles, fun x hx => ?_⟩
  refine hx.invariant (I := fun _ g => g.Even x) ?_ ?_
  · rintro g rfl e he
    cases he
  intro tr g op g' os hr ih ht hs
  have hg := ordered hr.run
  obtain ⟨g', hstep, he⟩ := Option.map_eq_some_iff.mp hs
  cases he
  rcases hg.step_cases hstep with ⟨o, l, t, -, -, rfl⟩ | ⟨hsh, hw⟩
  · exact ih.added o l t
  · exact ih.whole hsh (hw x ht)

end

-- ---------------------------------------------------------------------------
-- Handles that are torn
-- ---------------------------------------------------------------------------

/-- `TSE_UPDATED`. -/
def tseUpdated : Int := EventType.updated.code

/-- The object `true` listens to `false`. -/
def listenOp : GraphOp Bool := .listen false true tseUpdated

/-- The listener ends: its `ZOM_TINYSTATE_LAST2` takes the handle off both lists. -/
theorem listener_ends : ∃ g : Graph Bool, (g.eh 0).isSome = true ∧ g.lists false tseUpdated = [] ∧
    (∀ o type, (g.lists o type).Nodup) ∧ g.Even 0 := by
  obtain ⟨tr, g, h, he, hl⟩ := Machine.exists_run (M := Listening Bool)
    (C := fun g op => ¬ g.Tears 0 op)
    (P := fun _ g => (g.eh 0).isSome = true ∧ g.lists false tseUpdated = [])
    [listenOp, .enterZom true, .last2 true, .zom true] rfl (by decide)
  exact ⟨g, he, hl, (ends_agree h.run).1, (ends_agree h.run).2.2 0 h⟩

/-- The listener gives the handle up alone; the source clears its list; an
object that is not the source is told to remove it. -/
theorem torn_handle :
    (∃ tr g, (Listening Bool).Run tr g ∧ 0 ∈ g.lists false tseUpdated ∧ 0 ∉ g.handles true) ∧
    (∃ tr g, (Listening Bool).Run tr g ∧ 0 ∉ g.lists false tseUpdated ∧ 0 ∈ g.handles true) ∧
    ∃ tr g, (Listening Bool).Run tr g ∧ ¬ g.Even 0 := by
  refine ⟨?_, ?_, ?_⟩
  · refine Machine.exists_run [listenOp, .removeHandle true (some 0)] rfl ?_
    decide
  · refine Machine.exists_run [listenOp, .invokeListen false tseUpdated true] rfl ?_
    decide
  · refine Machine.exists_run [listenOp, .removeListener true 0] rfl ?_
    decide

end TinyState
