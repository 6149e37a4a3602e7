import TinyState.Listen.Ending
import Mathlib.Data.List.Perm.Basic

/-!
# Who is told that a source has ended

The list of the listeners for `TSE_DESTROY` is copied and called when
`ZOM_TINYSTATE_LAST2` begins, then drained, and what has been put on it since is
copied and called once more after the object has come to rest. A handle made
between the first copy and the drain is forgotten; a list that is copied at
another moment is called twice.
-/

namespace TinyState

open Transition

variable {ω : Type}

namespace EndSys

/-- The list of the listeners will still be copied as it is now. -/
def Open (s : EndSys ω) : Prop :=
  match s.pc with
  | .before | .last2 | .notifying .flagged => True
  | .notifying (.telling _) | .dropping => False
  | .draining i => tseDestroy < i
  | .over => s.copied = false

instance (s : EndSys ω) : Decidable s.Open := by
  unfold Open
  split <;> infer_instance

end EndSys

/-- No handle is made after the list has been copied and before it is drained,
nor for a listener that was told already; no other `invoke_state` takes the flag
that `ZOM_TINYSTATE_LAST2` has set for its own, or copies the list but for the
one after the object has come to rest. -/
def Timely [DecidableEq ω] (this : ω) (s : EndSys ω) : EndAct ω → Prop
  | .graph (.listen o l type) =>
    o = this ∧ type = tseDestroy → s.graph.searchListen o l type = none →
      (s.graph.addListener o l type).1 ≠ none → s.Open ∧ l ∉ s.told
  | .begin => s.pc ≠ .last2
  | .note i =>
    s.notes[i]? = some .flagged → s.enterZom = true →
      s.subscribed this = [] ∨ s.graph.life this = .zom ∧ s.copied = false
  | _ => True

instance [DecidableEq ω] (this : ω) (s : EndSys ω) (a : EndAct ω) : Decidable (Timely this s a) := by
  unfold Timely
  split <;> infer_instance

-- ---------------------------------------------------------------------------
-- Handles and their listeners
-- ---------------------------------------------------------------------------

namespace Graph

variable {g g' : Graph ω} {h : Nat}

/-- The listener that the handle was made for. -/
def lsn (g : Graph ω) (h : Nat) : Option ω := (g.eh h).map (·.ofListener)

theorem Joins.lsn {o l : ω} {type : Int} (hj : g.Joins h o l type) : g.lsn h = some l := by
  simp [Graph.lsn, show g.eh h = _ from hj]

theorem Shrinks.lsn (hs : g.Shrinks g') (h : Nat) : g'.lsn h = g.lsn h := by
  unfold Graph.lsn
  rcases hs.eh h with e | ⟨-, e⟩ <;> rw [e]
  rw [Option.map_map]
  rfl

theorem Shrinks.made (hs : g.Shrinks g') {e' : Eh ω} (he : g'.eh h = some e') :
    ∃ e, g.eh h = some e ∧ e.ofSource = e'.ofSource ∧ e.type = e'.type ∧
      e.ofListener = e'.ofListener := by
  rcases hs.eh h with e | ⟨-, e⟩
  · exact ⟨e', e ▸ he, rfl, rfl, rfl⟩
  · obtain ⟨e₀, he₀, rfl⟩ := Option.map_eq_some_iff.mp (e.symm.trans he)
    exact ⟨e₀, he₀, rfl, rfl, rfl⟩

theorem Shrinks.kept (hs : g.Shrinks g') {e : Eh ω} (he : g.eh h = some e) :
    ∃ e', g'.eh h = some e' ∧ e'.ofSource = e.ofSource ∧ e'.type = e.type ∧
      e'.ofListener = e.ofListener := by
  rcases hs.eh h with h' | ⟨-, h'⟩
  · exact ⟨e, h' ▸ he, rfl, rfl, rfl⟩
  · exact ⟨{ e with source := none, listener := none }, by rw [h', he]; rfl, rfl, rfl, rfl⟩

variable [DecidableEq ω]

theorem added_lsn {o l : ω} {type : Int} (hh : h ≠ g.next) : (g.added o l type).lsn h = g.lsn h := by
  simp [Graph.lsn, added_eh hh]

-- The operations of others leave the object in the state it is in.

theorem remove_life (g : Graph ω) (h : Nat) : (g.remove h).life = g.life := by
  unfold remove removeListener
  split
  · rfl
  · dsimp only
    split <;> split <;> first | rfl | (split <;> (try split) <;> rfl)

omit [DecidableEq ω] in
theorem foldl_life {α : Type} {f : Graph ω → α → Graph ω} (hf : ∀ g a, (f g a).life = g.life)
    (l : List α) : (l.foldl f g).life = g.life := by
  induction l generalizing g with
  | nil => rfl
  | cons a l ih => exact ih.trans (hf g a)

theorem dropHandle_life (o : ω) (g : Graph ω) (h : Nat) : (dropHandle o g h).life = g.life :=
  remove_life _ _

theorem dropListener_life (o : ω) (t : Int) (g : Graph ω) (h : Nat) :
    (dropListener o t g h).life = g.life :=
  remove_life _ _

theorem last2_life (g : Graph ω) (o : ω) : (g.last2 o).life = g.life :=
  (foldl_life (fun _ _ => foldl_life (dropListener_life o _) _) _).trans
    (foldl_life (dropHandle_life o) _)

end Graph

-- ---------------------------------------------------------------------------
-- The invariant
-- ---------------------------------------------------------------------------

def Note.queue : Note → List Nat
  | .flagged => []
  | .telling q => q

def EndPc.queue : EndPc → List Nat
  | .notifying n => n.queue
  | _ => []

/-- The handles that are still to be called. -/
def EndSys.pending (s : EndSys ω) : List Nat := s.pc.queue ++ s.notes.flatMap Note.queue

variable {this : ω} {s : EndSys ω} {tr : List (EndObs ω)}

/-- A handle of the source for `TSE_DESTROY`. -/
def Graph.Subscribes (g : Graph ω) (this : ω) (h : Nat) (l : ω) : Prop :=
  ∃ e, g.eh h = some e ∧ e.ofSource = this ∧ e.type = tseDestroy ∧ e.ofListener = l

/-- The invariant on listeners. Which of them has been told, which is on a
copied list, and which is on a list that will be copied. -/
structure Told (this : ω) (tr : List (EndObs ω)) (s : EndSys ω) : Prop where
  ordered : s.graph.Ordered
  single : ∀ h ∈ s.subscribed this, ∀ k ∈ s.subscribed this,
    s.graph.lsn h = s.graph.lsn k → h = k
  once : s.told.Nodup
  apart : (s.pending.map s.graph.lsn).Nodup
  pending : ∀ h ∈ s.pending, ∃ l, s.graph.lsn h = some l ∧ l ∉ s.told
  fresh : s.Open → ∀ h ∈ s.subscribed this, ∀ l, s.graph.lsn h = some l → l ∉ s.told
  listed : ∀ h ∈ s.subscribed this, ∀ l, s.graph.lsn h = some l →
    l ∈ s.told ∨ h ∈ s.pending ∨ s.Open
  gone : ∀ h l, s.graph.Subscribes this h l → h ∉ s.subscribed this →
    l ∈ s.told ∨ .removed h ∈ tr
  heard : ∀ l h, .listened l h ∈ tr → s.graph.Subscribes this h l

/-- The invariant on where the object stands. -/
structure Standing (this : ω) (s : EndSys ω) : Prop where
  quiet : s.copied = false → s.notes.flatMap Note.queue = []
  life : s.pc = .over ↔ s.graph.life this = .zom
  began : s.pc ≠ .before → s.graph.life this ≠ .live
  entered : s.graph.life this ≠ .live → s.enterZom = true
  flag : s.pc = .last2 → s.flag = true
  copied : s.copied = true → s.pc = .over
  last : s.pc = .over → s.copied = true ∨ s.flag = true ∨ .flagged ∈ s.notes

namespace Told

variable {s' : EndSys ω} {g' : Graph ω} {os : List (EndObs ω)}

theorem subscribes (h : Told this tr s) {k : Nat} (hk : k ∈ s.subscribed this) :
    ∃ l, s.graph.Joins k this l tseDestroy :=
  h.ordered.listed this tseDestroy k hk

/-- Handles are taken off lists: each of the source's was told, or is seen to go. -/
theorem shrinks (h : Told this tr s) (hs : s.graph.Shrinks g')
    (hgone : ∀ k ∈ s.subscribed this, k ∉ g'.lists this tseDestroy →
      ∀ l, s.graph.lsn k = some l → l ∈ s.told ∨ .removed k ∈ os)
    (hheard : ∀ l k, .listened l k ∈ os → s.graph.Subscribes this k l) :
    Told this (tr ++ os) { s with graph := g' } := by
  have sub : ∀ k ∈ g'.lists this tseDestroy, k ∈ s.subscribed this :=
    fun k hk => (hs.lists this tseDestroy).subset hk
  refine ⟨h.ordered.shrinks hs, ?_, h.once, ?_, ?_, ?_, ?_, ?_, ?_⟩
  · intro a ha b hb hab
    exact h.single a (sub a ha) b (sub b hb) (by simpa [hs.lsn] using hab)
  · simpa [EndSys.pending, funext hs.lsn] using h.apart
  · intro k hk
    simpa [hs.lsn] using h.pending k hk
  · intro ho k hk l hl
    exact h.fresh ho k (sub k hk) l (by simpa [hs.lsn] using hl)
  · intro k hk l hl
    exact h.listed k (sub k hk) l (by simpa [hs.lsn] using hl)
  · rintro k l ⟨e', he', ho, ht, rfl⟩ hk
    obtain ⟨e, he, h1, h2, h3⟩ := hs.made he'
    by_cases hold : k ∈ s.subscribed this
    · rcases hgone k hold hk e'.ofListener (by simp [Graph.lsn, he, h3]) with ht | hr
      · exact .inl ht
      · exact .inr (List.mem_append_right _ hr)
    · rcases h.gone k e'.ofListener ⟨e, he, h1.trans ho, h2.trans ht, h3⟩ hold with ht | hr
      · exact .inl ht
      · exact .inr (List.mem_append_left _ hr)
  · intro l k hm
    have hk : s.graph.Subscribes this k l := by
      rcases List.mem_append.mp hm with hm | hm
      · exact h.heard l k hm
      · exact hheard l k hm
    obtain ⟨e, he, ho, ht, rfl⟩ := hk
    obtain ⟨e', he', h1, h2, h3⟩ := hs.kept he
    exact ⟨e', he', h1.trans ho, h2.trans ht, h3⟩

variable [DecidableEq ω] in
/-- A new handle. One of the source's is made while its list will still be copied. -/
theorem added (h : Told this tr s) {o l : ω} {t : Int}
    (hnew : o = this ∧ t = tseDestroy → s.Open ∧ l ∉ s.told ∧
      ∀ k ∈ s.subscribed this, s.graph.lsn k ≠ some l)
    (hheard : ∀ m k, .listened m k ∈ os → (s.graph.added o l t).Subscribes this k m) :
    Told this (tr ++ os) { s with graph := s.graph.added o l t } := by
  have hnone := h.ordered.fresh s.graph.next (Nat.le_refl _)
  have old : ∀ {k m}, s.graph.lsn k = some m → (s.graph.added o l t).lsn k = some m := by
    intro k m hk
    refine (Graph.added_lsn ?_).trans hk
    rintro rfl
    simp [Graph.lsn, hnone] at hk
  have olds : ∀ {k m}, s.graph.Subscribes this k m → (s.graph.added o l t).Subscribes this k m := by
    rintro k m ⟨e, he, hr⟩
    refine ⟨e, (Graph.added_eh ?_).trans he, hr⟩
    rintro rfl
    simp [hnone] at he
  have hlsn : ∀ k ∈ s.subscribed this, ∃ m, s.graph.lsn k = some m := fun k hk => by
    obtain ⟨m, hj⟩ := h.subscribes hk
    exact ⟨m, hj.lsn⟩
  have new : (s.graph.added o l t).lsn s.graph.next = some l := Graph.added_joins.lsn
  refine ⟨h.ordered.added o l t, ?_, h.once, ?_, ?_, ?_, ?_, ?_, ?_⟩
  · intro a ha b hb hab
    rcases Graph.mem_added_lists.mp ha with ha | ⟨rfl, hto⟩
    · obtain ⟨m, hm⟩ := hlsn a ha
      rw [show (s.graph.added o l t).lsn a = _ from old hm] at hab
      rcases Graph.mem_added_lists.mp hb with hb | ⟨rfl, hto⟩
      · obtain ⟨n, hn⟩ := hlsn b hb
        rw [show (s.graph.added o l t).lsn b = _ from old hn] at hab
        exact h.single a ha b hb (by rw [hm, hn, hab])
      · rw [show (s.graph.added o l t).lsn s.graph.next = _ from new] at hab
        exact absurd (hm.trans hab) ((hnew ⟨hto.1.symm, hto.2.symm⟩).2.2 a ha)
    · rcases Graph.mem_added_lists.mp hb with hb | ⟨rfl, -⟩
      · obtain ⟨n, hn⟩ := hlsn b hb
        rw [show (s.graph.added o l t).lsn b = _ from old hn,
          show (s.graph.added o l t).lsn s.graph.next = _ from new] at hab
        exact absurd (hn.trans hab.symm) ((hnew ⟨hto.1.symm, hto.2.symm⟩).2.2 b hb)
      · rfl
  · have hmap : s.pending.map (s.graph.added o l t).lsn = s.pending.map s.graph.lsn := by
      refine List.map_congr_left fun k hk => ?_
      obtain ⟨m, hm, -⟩ := h.pending k hk
      rw [hm, old hm]
    exact (congrArg List.Nodup hmap).mpr h.apart
  · intro k hk
    obtain ⟨m, hm, ht⟩ := h.pending k hk
    exact ⟨m, old hm, ht⟩
  · intro ho k hk m hm
    rcases Graph.mem_added_lists.mp hk with hk | ⟨rfl, hto⟩
    · obtain ⟨n, hn⟩ := hlsn k hk
      obtain rfl := Option.some.inj ((old hn).symm.trans hm)
      exact h.fresh ho k hk n hn
    · obtain rfl := Option.some.inj (new.symm.trans hm)
      exact (hnew ⟨hto.1.symm, hto.2.symm⟩).2.1
  · intro k hk m hm
    rcases Graph.mem_added_lists.mp hk with hk | ⟨rfl, hto⟩
    · obtain ⟨n, hn⟩ := hlsn k hk
      obtain rfl := Option.some.inj ((old hn).symm.trans hm)
      exact h.listed k hk n hn
    · exact .inr (.inr (hnew ⟨hto.1.symm, hto.2.symm⟩).1)
  · rintro k m ⟨e, he, ho, ht, rfl⟩ hk
    have hk' : k ∉ s.subscribed this := fun hm => hk (Graph.mem_added_lists.mpr (.inl hm))
    have hne : k ≠ s.graph.next := by
      rintro rfl
      obtain rfl := Option.some.inj (Graph.added_joins.symm.trans he)
      exact hk (Graph.mem_added_lists.mpr (.inr ⟨rfl, ho.symm, ht.symm⟩))
    rcases h.gone k e.ofListener ⟨e, (Graph.added_eh hne).symm.trans he, ho, ht, rfl⟩ hk' with ht | hr
    · exact .inl ht
    · exact .inr (List.mem_append_left _ hr)
  · intro m k hm
    rcases List.mem_append.mp hm with hm | hm
    · exact olds (h.heard m k hm)
    · exact hheard m k hm

/-- Nothing happens to the listeners. -/
theorem same (h : Told this tr s) (hg : s'.graph = s.graph) (ht : s'.told = s.told)
    (hp : s'.pending = s.pending) (ho' : s'.Open → s.Open ∨ s.subscribed this = [])
    (ho : s.Open → s'.Open ∨ s.subscribed this = []) : Told this tr s' := by
  have hd : s'.subscribed this = s.subscribed this := by simp only [EndSys.subscribed, hg]
  refine ⟨hg ▸ h.ordered, ?_, ht ▸ h.once, ?_, ?_, fun h1 k hk => ?_, fun k hk l hl => ?_, ?_, ?_⟩
  · rw [hd, hg]
    exact h.single
  · rw [hp, hg]
    exact h.apart
  · rw [hp, hg, ht]
    exact h.pending
  · rw [hd] at hk
    rw [hg, ht]
    rcases ho' h1 with h1 | h1
    · exact h.fresh h1 k hk
    · rw [h1] at hk
      cases hk
  · rw [hd] at hk
    rw [hg] at hl
    rw [ht, hp]
    rcases h.listed k hk l hl with h1 | h1 | h1
    · exact .inl h1
    · exact .inr (.inl h1)
    · rcases ho h1 with h1 | h1
      · exact .inr (.inr h1)
      · rw [h1] at hk
        cases hk
  · rw [hg, hd, ht]
    exact h.gone
  · rw [hg]
    exact h.heard

/-- The list is copied while nothing is left to be called. -/
theorem copy (h : Told this tr s) (hg : s'.graph = s.graph) (ht : s'.told = s.told)
    (hp : s'.pending = s.subscribed this) (ho : s.Open) (ho' : ¬ s'.Open) : Told this tr s' := by
  have hd : s'.subscribed this = s.subscribed this := by simp only [EndSys.subscribed, hg]
  refine ⟨hg ▸ h.ordered, ?_, ht ▸ h.once, ?_, ?_, fun h1 => absurd h1 ho', fun k hk l hl => ?_,
    ?_, ?_⟩
  · rw [hd, hg]
    exact h.single
  · rw [hp, hg]
    exact (h.ordered.lists this tseDestroy).map_on fun a ha b hb => h.single a ha b hb
  · rw [hp, hg, ht]
    intro k hk
    obtain ⟨l, hj⟩ := h.subscribes hk
    exact ⟨l, hj.lsn, h.fresh ho k hk l hj.lsn⟩
  · rw [hd] at hk
    exact .inr (.inl (hp ▸ hk))
  · rw [hg, hd, ht]
    exact h.gone
  · rw [hg]
    exact h.heard

/-- One handle of a copied list is called, if it still has its listener. -/
theorem tell (h : Told this tr s) {k : Nat} (hg : s'.graph = s.graph)
    (ht : s'.told = s.told ++ ((s.graph.eh k).bind (·.listener)).toList)
    (hp : s.pending.Perm (k :: s'.pending)) (ho : ¬ s.Open) (ho' : ¬ s'.Open) : Told this tr s' := by
  have hd : s'.subscribed this = s.subscribed this := by simp only [EndSys.subscribed, hg]
  have hmem : ∀ x, x ∈ s.pending ↔ x = k ∨ x ∈ s'.pending := fun x => by simp [hp.mem_iff]
  have hap : (s.graph.lsn k :: s'.pending.map s.graph.lsn).Nodup :=
    (hp.map s.graph.lsn).nodup_iff.mp h.apart
  obtain ⟨hk, hrest⟩ := List.nodup_cons.mp hap
  -- who is called is the listener that the handle was made for
  have hls : ∀ l, (s.graph.eh k).bind (·.listener) = some l → s.graph.lsn k = some l := by
    intro l hl
    obtain ⟨e, he, hel⟩ := Option.bind_eq_some_iff.mp hl
    rcases h.ordered.ends k e he with ⟨-, h1⟩ | ⟨-, h1⟩
    · rw [h1] at hel
      simpa [Graph.lsn, he] using hel
    · rw [h1] at hel
      cases hel
  have hin : ∀ l, l ∈ s'.told ↔ l ∈ s.told ∨ (s.graph.eh k).bind (·.listener) = some l := by
    intro l
    rw [ht, List.mem_append, Option.mem_toList]
  refine ⟨hg ▸ h.ordered, ?_, ?_, ?_, ?_, fun h1 => absurd h1 ho', fun x hx l hl => ?_, ?_, ?_⟩
  · rw [hd, hg]
    exact h.single
  · rw [ht]
    cases hl : (s.graph.eh k).bind (·.listener) with
    | none => simpa using h.once
    | some l =>
      obtain ⟨m, hm, hnt⟩ := h.pending k ((hmem k).mpr (.inl rfl))
      obtain rfl := Option.some.inj ((hls l hl).symm.trans hm)
      simpa using h.once.concat hnt
  · rw [hg]
    exact hrest
  · rw [hg]
    intro x hx
    obtain ⟨m, hm, hnt⟩ := h.pending x ((hmem x).mpr (.inr hx))
    refine ⟨m, hm, fun hc => ?_⟩
    rcases (hin m).mp hc with hc | hc
    · exact hnt hc
    · exact hk (List.mem_map.mpr ⟨x, hx, hm.trans (hls m hc).symm⟩)
  · rw [hd] at hx
    rw [hg] at hl
    rcases h.listed x hx l hl with h1 | h1 | h1
    · exact .inl ((hin l).mpr (.inl h1))
    · rcases (hmem x).mp h1 with rfl | h1
      · obtain ⟨m, hj⟩ := h.subscribes hx
        obtain rfl := Option.some.inj (hj.lsn.symm.trans hl)
        exact .inl ((hin m).mpr (.inr (by rw [show s.graph.eh x = _ from hj]; rfl)))
      · exact .inr (.inl h1)
    · exact absurd h1 ho
  · rw [hg, hd]
    intro x l hx hn
    rcases h.gone x l hx hn with h1 | h1
    · exact .inl ((hin l).mpr (.inl h1))
    · exact .inr h1
  · rw [hg]
    exact h.heard

end Told

section

variable [DecidableEq ω] {s' : EndSys ω} {os : List (EndObs ω)}

theorem EndSys.removed_seen {g g' : Graph ω} {op : GraphOp ω} {k : Nat}
    (hk : k ∈ g.lists this tseDestroy) (hn : k ∉ g'.lists this tseDestroy) :
    .removed k ∈ EndSys.seen this g g' op := by
  refine List.mem_append_right _ (List.mem_map_of_mem ?_)
  simpa [hk] using hn

theorem EndSys.listened_seen {g g' : Graph ω} {op : GraphOp ω} {l : ω} {k : Nat}
    (h : .listened l k ∈ EndSys.seen this g g' op) :
    op = .listen this l tseDestroy ∧ (g.listen this l tseDestroy).1 = some k := by
  unfold EndSys.seen at h
  rcases List.mem_append.mp h with h | h
  · split at h
    · rename_i o m t
      split at h
      · rename_i hto
        obtain ⟨rfl, rfl⟩ := hto
        split at h
        · rename_i k' hk
          obtain ⟨rfl, rfl⟩ : l = _ ∧ k = k' := by simpa using h
          exact ⟨rfl, hk⟩
        · simp at h
      · cases h
    · cases h
  · simp at h

theorem Graph.searchListen_some {g : Graph ω} (hg : g.Ordered) {l : ω} {k : Nat}
    (h : g.searchListen this l tseDestroy = some k) :
    k ∈ g.lists this tseDestroy ∧ g.Joins k this l tseDestroy := by
  simp only [searchListen, if_neg (show ¬ (tseDestroy ≤ 0 ∨ tseMax ≤ tseDestroy) by decide)] at h
  have hm := List.mem_of_find?_eq_some h
  have hp := List.find?_some h
  obtain ⟨m, hj⟩ := hg.listed this tseDestroy k hm
  rw [show g.eh k = _ from hj] at hp
  obtain rfl : m = l := by simpa using hp
  exact ⟨hm, hj⟩

theorem Graph.searchListen_none {g : Graph ω} (hg : g.Ordered) {l : ω}
    (h : g.searchListen this l tseDestroy = none) :
    ∀ k ∈ g.lists this tseDestroy, g.lsn k ≠ some l := by
  simp only [searchListen, if_neg (show ¬ (tseDestroy ≤ 0 ∨ tseMax ≤ tseDestroy) by decide)] at h
  intro k hk hl
  obtain ⟨m, hj⟩ := hg.listed this tseDestroy k hk
  obtain rfl := Option.some.inj (hj.lsn.symm.trans hl)
  have := List.find?_eq_none.mp h k hk
  rw [show g.eh k = _ from hj] at this
  simp at this

omit [DecidableEq ω] in
theorem Graph.Joins.subscribes {g : Graph ω} {k : Nat} {l : ω} (h : g.Joins k this l tseDestroy) :
    g.Subscribes this k l := ⟨_, h, rfl, rfl, rfl⟩

theorem Told.graphStep {op : GraphOp ω} {g' : Graph ω} (h : Told this tr s)
    (ht : Timely this s (.graph op)) (ho : EndSys.Others this op = true)
    (hs : s.graph.step op = some g') :
    Told this (tr ++ EndSys.seen this s.graph g' op) { s with graph := g' } := by
  -- a handle that `listen` returns is on the list, or new
  have found : ∀ l k, (s.graph.listen this l tseDestroy).1 = some k →
      s.graph.Subscribes this k l ∨ s.graph.searchListen this l tseDestroy = none ∧
        k = s.graph.next ∧ (s.graph.listen this l tseDestroy).2 = s.graph.added this l tseDestroy := by
    intro l k hk
    unfold Graph.listen at hk ⊢
    split at hk
    · rename_i k' hf
      obtain rfl : k' = k := by simpa using hk
      exact .inl (Graph.searchListen_some h.ordered hf).2.subscribes
    · rename_i hn
      rcases Graph.addListener_cases s.graph this l tseDestroy with ha | ⟨-, -, ha⟩
      · simp [ha] at hk
      · obtain rfl : s.graph.next = k := by simpa [ha] using hk
        exact .inr ⟨hn, rfl, by simp [ha]⟩
  rcases h.ordered.step_cases hs with ⟨o, l, t, hop, hz, rfl⟩ | ⟨hsh, -⟩
  · refine h.added ?_ ?_
    · rintro ⟨rfl, rfl⟩
      rcases hop with ⟨rfl, hn⟩ | rfl
      · have hadd : (s.graph.addListener o l tseDestroy).1 ≠ none := by
          cases hs' : s.graph.listen o l tseDestroy with
          | mk r g =>
            simp only [Graph.listen, hn] at hs'
            intro hc
            rcases Graph.addListener_cases s.graph o l tseDestroy with ha | ⟨-, -, ha⟩
            · have := congrArg Graph.next (Option.some.inj hs)
              simp [Graph.listen, hn, ha, Graph.added] at this
            · simp [ha] at hc
        obtain ⟨h1, h2⟩ := ht ⟨rfl, rfl⟩ hn hadd
        exact ⟨h1, h2, Graph.searchListen_none h.ordered hn⟩
      · simp [EndSys.Others] at ho
    · intro m k hm
      obtain ⟨hop', hl⟩ := EndSys.listened_seen hm
      rcases found m k hl with ⟨e, he, hr⟩ | ⟨hn, rfl, ha⟩
      · refine ⟨e, (Graph.added_eh ?_).trans he, hr⟩
        rintro rfl
        rw [h.ordered.fresh _ (Nat.le_refl _)] at he
        cases he
      · rcases hop with ⟨rfl, -⟩ | rfl
        · cases hop'
          exact Graph.added_joins.subscribes
        · cases hop'
  · refine h.shrinks hsh (fun k hk hn l _ => .inr (EndSys.removed_seen hk hn)) ?_
    intro l k hm
    obtain ⟨rfl, hl⟩ := EndSys.listened_seen hm
    rcases found l k hl with hk | ⟨hn, rfl, ha⟩
    · exact hk
    · have hg : g' = s.graph.added this l tseDestroy := (Option.some.inj hs).symm.trans ha
      have := hsh.next
      simp [hg, Graph.added] at this

/-- The others leave the source in the state it is in. -/
theorem Graph.step_life {g g' : Graph ω} {op : GraphOp ω} (ho : EndSys.Others this op = true)
    (hs : g.step op = some g') : g'.life this = g.life this := by
  have add : ∀ o l t, (g.addListener o l t).2.life = g.life := fun o l t => by
    rcases Graph.addListener_cases g o l t with h | ⟨-, -, h⟩ <;> rw [h]
    rfl
  have other : ∀ (k : Graph ω) o f, o ≠ this → (k.setLife o f).life this = k.life this :=
    fun k o f hne => Function.update_of_ne (Ne.symm hne) ..
  cases op with
  | listen o l t =>
    cases hs
    unfold Graph.listen
    split
    · rfl
    · exact congrFun (add o l t) this
  | addListener o l t =>
    cases hs
    exact congrFun (add o l t) this
  | removeListener o h =>
    simp only [step, Option.ite_none_right_eq_some] at hs
    obtain ⟨-, hs⟩ := hs
    cases hs
    unfold removeListener
    split
    · rfl
    · dsimp only
      split <;> rfl
  | removeHandle l h =>
    cases h with
    | none =>
      cases hs
      exact congrFun (Graph.foldl_life Graph.remove_life _) this
    | some h =>
      simp only [step, Option.ite_none_right_eq_some] at hs
      obtain ⟨-, hs⟩ := hs
      cases hs
      rfl
  | clean o t =>
    cases hs
    exact congrFun (Graph.foldl_life Graph.remove_life _) this
  | remove h =>
    simp only [step, Option.ite_none_right_eq_some] at hs
    obtain ⟨-, hs⟩ := hs
    cases hs
    exact congrFun (Graph.remove_life g h) this
  | invokeListen o t clear =>
    cases hs
    unfold invokeListen
    split
    · rfl
    · dsimp only
      split <;> rfl
  | enterZom o | zom o =>
    simp only [step, Option.ite_none_right_eq_some] at hs
    obtain ⟨-, hs⟩ := hs
    cases hs
    exact other _ _ _ (by simpa [EndSys.Others] using ho)
  | last2 o =>
    simp only [step, Option.ite_none_right_eq_some] at hs
    obtain ⟨-, hs⟩ := hs
    cases hs
    exact (other _ _ _ (by simpa [EndSys.Others] using ho)).trans (congrFun (g.last2_life o) this)

end

-- ---------------------------------------------------------------------------
-- The steps of the source
-- ---------------------------------------------------------------------------

section

variable {s' : EndSys ω}

/-- Before the object rests, the only copied list is that of `ZOM_TINYSTATE_LAST2`. -/
theorem Standing.pending_eq (hp : Standing this s) (hc : s.copied = false) :
    s.pending = s.pc.queue := by
  simp [EndSys.pending, hp.quiet hc]

theorem Standing.not_copied (hp : Standing this s) (h : s.pc ≠ .over) : s.copied = false := by
  by_contra hc
  exact h (hp.copied (by simpa using hc))

/-- A handle that the source takes off its own lists has been told. -/
theorem Told.drop (h : Told this tr s) {g' : Graph ω} (hs : s.graph.Shrinks g') {k : Nat}
    (hst : ∀ x, x ≠ k → s.graph.Stays g' x) (hnil : s.pending = [])
    (ho : k ∈ s.subscribed this → ¬ s.Open) : Told this tr { s with graph := g' } := by
  have hd : Told this (tr ++ []) { s with graph := g' } := by
    refine h.shrinks hs (fun x hx hn l hl => ?_) fun _ _ hm => nomatch hm
    by_cases hxk : x = k
    · subst hxk
      rcases h.listed x hx l hl with h1 | h1 | h1
      · exact .inl h1
      · rw [hnil] at h1
        cases h1
      · exact absurd h1 (ho hx)
    · exact absurd (((hst x hxk).1 this tseDestroy).mpr hx) hn
  simpa using hd

variable [DecidableEq ω]

theorem Told.setLife (h : Told this tr s) (f : Life) :
    Told this tr { s with graph := s.graph.setLife this f } := by
  have hd : Told this (tr ++ []) { s with graph := s.graph.setLife this f } :=
    h.shrinks (Graph.setLife_shrinks this f) (fun k hk hn => absurd hk hn) fun _ _ hm => nomatch hm
  simpa using hd

theorem Told.endStep (h : Told this tr s) (hp : Standing this s)
    (hs : s.endStep this = some s') : Told this tr s' := by
  unfold EndSys.endStep at hs
  split at hs
  · cases hs
  · cases hs
  · rename_i hpc
    rw [if_pos (hp.flag hpc)] at hs
    cases hs
    exact h.same rfl rfl (by simp [EndSys.pending, hpc, EndPc.queue, Note.queue])
      (fun _ => .inl (by simp [EndSys.Open, hpc])) fun _ => .inl (by simp [EndSys.Open])
  · rename_i n hpc
    have hc := hp.not_copied (by simp [hpc])
    have hpend := hp.pending_eq hc
    cases n with
    | flagged =>
      have hz : s.enterZom = true := hp.entered (hp.began (by simp [hpc]))
      simp only [EndSys.noteStep, hz, if_true] at hs
      cases hs
      refine h.copy rfl (by simp) ?_ (by simp [EndSys.Open, hpc]) (by simp [EndSys.Open])
      simp [EndSys.pending, hp.quiet hc, EndPc.queue, Note.queue, Graph.invokeListen,
        if_neg (show ¬ (tseDestroy ≤ 0 ∨ tseMax ≤ tseDestroy) by decide), EndSys.subscribed]
    | telling q =>
      have hno : ¬ s.Open := by simp [EndSys.Open, hpc]
      cases q with
      | nil =>
        cases hs
        exact h.same rfl (by simp) (by simp [EndSys.pending, hpc, EndPc.queue, Note.queue])
          (fun ho => absurd ho (by simp [EndSys.Open])) fun ho => absurd ho hno
      | cons k q =>
        cases hs
        exact h.tell (k := k) rfl rfl
          (by simp [EndSys.pending, hpc, EndPc.queue, Note.queue]) hno (by simp [EndSys.Open])
  · rename_i hpc
    have hno : ¬ s.Open := by simp [EndSys.Open, hpc]
    have hnil : s.pending = [] := by
      rw [hp.pending_eq (hp.not_copied (by simp [hpc])), hpc]
      rfl
    split at hs
    · cases hs
      exact h.same rfl rfl (by simp [EndSys.pending, hpc, EndPc.queue])
        (fun ho => absurd ho (by simp [EndSys.Open, tseDestroy, EventType.code]))
        fun ho => absurd ho hno
    · rename_i k _ _
      cases hs
      have hsh := (h.ordered.drop_whole (h := k) (x := 0) (Graph.delHandle_shrinks this)
        (Graph.delHandle_stays this)).1
      exact h.drop (k := k) hsh (fun x hx => h.ordered.drop_stays (Graph.delHandle_shrinks this)
        (Graph.delHandle_stays this hx) hx) hnil fun _ => hno
  · rename_i i hpc
    have hnil : s.pending = [] := by
      rw [hp.pending_eq (hp.not_copied (by simp [hpc])), hpc]
      rfl
    split at hs
    · split at hs
      · rename_i hl
        cases hs
        have hd : tseDestroy = i → s.subscribed this = [] := by
          intro hd
          rw [EndSys.subscribed, hd, hl]
        refine h.same rfl rfl (by simp [EndSys.pending, hpc, EndPc.queue]) (fun ho => ?_) fun ho => ?_
        · simp only [EndSys.Open] at ho
          by_cases hi : tseDestroy = i
          · exact .inr (hd hi)
          · exact .inl (by simp only [EndSys.Open, hpc]; omega)
        · simp only [EndSys.Open, hpc] at ho
          exact .inl (by simp only [EndSys.Open]; omega)
      · rename_i k _ hl
        cases hs
        have hk : k ∈ s.graph.lists this i := by simp [hl]
        have hsh := (h.ordered.drop_whole (h := k) (x := 0) (Graph.delListener_shrinks this i)
          (Graph.delListener_stays this i)).1
        refine h.drop (k := k) hsh (fun x hx => h.ordered.drop_stays
          (Graph.delListener_shrinks this i) (Graph.delListener_stays this i hx) hx) hnil
          fun hd ho => ?_
        -- a handle for another type is not one for `TSE_DESTROY`
        obtain ⟨l, hj⟩ := h.ordered.listed this i k hk
        obtain ⟨m, hj'⟩ := h.subscribes hd
        have he := congrArg Eh.type (Option.some.inj (hj.symm.trans hj'))
        simp only [EndSys.Open, hpc] at ho
        simp only at he
        omega
    · rename_i hi
      cases hs
      have hc := hp.not_copied (by simp [hpc])
      have hlast : s.Open := by
        have hmax : EventType.max = 21 := rfl
        simp only [EndSys.Open, hpc, tseDestroy, EventType.code]
        omega
      refine (h.setLife .zom).same rfl rfl (by simp [EndSys.pending, hpc, EndPc.queue]) (fun _ => .inl hlast)
        fun _ => .inl hc

theorem Standing.endStep (hp : Standing this s) (hs : s.endStep this = some s') :
    Standing this s' := by
  unfold EndSys.endStep at hs
  split at hs
  · cases hs
  · cases hs
  all_goals
    rename_i hpc
    have hz : s.graph.life this ≠ .zom := fun h => by simp [hp.life.mpr h] at hpc
    have hb := hp.began (by simp [hpc])
    have hc := hp.not_copied (by simp [hpc])
  · rw [if_pos (hp.flag hpc)] at hs
    cases hs
    exact ⟨hp.quiet, by simpa using hz, fun _ => hb, hp.entered, by simp, by simp [hc], by simp⟩
  · split at hs <;> cases hs <;>
      exact ⟨hp.quiet, by simpa using hz, fun _ => hb, hp.entered, by simp, by simp [hc], by simp⟩
  · split at hs <;> cases hs
    · exact ⟨hp.quiet, by simpa using hz, fun _ => hb, hp.entered, by simp, by simp [hc], by simp⟩
    · have hl := Graph.dropHandle_life this s.graph
      exact ⟨hp.quiet, by simpa [hpc, hl] using hz, fun _ => by simpa [hl] using hb,
        by simpa [hl] using hp.entered, by simp [hpc], by simp [hc], by simp [hpc]⟩
  · split at hs
    · split at hs <;> cases hs
      · exact ⟨hp.quiet, by simpa using hz, fun _ => hb, hp.entered, by simp, by simp [hc], by simp⟩
      · have hl := Graph.dropListener_life this
        exact ⟨hp.quiet, by simpa [hpc, hl] using hz, fun _ => by simpa [hl] using hb,
          by simpa [hl] using hp.entered, by simp [hpc], by simp [hc], by simp [hpc]⟩
    · cases hs
      exact ⟨hp.quiet, by simp [Graph.setLife], by simp [Graph.setLife],
        fun _ => hp.entered hb, by simp, fun _ => rfl, fun _ => .inr (.inl rfl)⟩

omit [DecidableEq ω] in
/-- One of the runs of `invoke_state`, among the others. -/
theorem EndSys.note_split {i : Nat} {n : Note} (h : s.notes[i]? = some n) (n' : Note) :
    ∃ a b, s.notes = a ++ n :: b ∧ s.notes.set i n' = a ++ n' :: b ∧
      s.notes.eraseIdx i = a ++ b := by
  obtain ⟨hi, rfl⟩ := List.getElem?_eq_some_iff.mp h
  refine ⟨s.notes.take i, s.notes.drop (i + 1), ?_, ?_, List.eraseIdx_eq_take_drop_succ ..⟩
  · simp
  · rw [List.set_eq_take_append_cons_drop, if_pos hi]

theorem note_step {i : Nat} {os : List (EndObs ω)} (h : Told this tr s) (hp : Standing this s)
    (ht : Timely this s (.note i)) (hs : s.step this (.note i) = some (s', os)) :
    Told this (tr ++ os) s' ∧ Standing this s' := by
  simp only [EndSys.step] at hs
  split at hs
  · cases hs
  rename_i n hn
  -- a copied list that is not empty is one copied after the object has come to rest
  have htelling : ∀ k q, n = .telling (k :: q) → s.copied = true := by
    rintro k q rfl
    by_contra hc
    have hq := hp.quiet (by simpa using hc)
    obtain ⟨a, b, hab, -⟩ := EndSys.note_split hn .flagged
    simp [hab, Note.queue] at hq
  cases n with
  | flagged =>
    obtain ⟨a, b, hab, hset, -⟩ := EndSys.note_split hn (.telling (s.subscribed this))
    by_cases hz : s.enterZom = true
    · have hcopy : (s.graph.invokeListen this tseDestroy false).1 = s.subscribed this := by
        simp [Graph.invokeListen, EndSys.subscribed,
          if_neg (show ¬ (tseDestroy ≤ 0 ∨ tseMax ≤ tseDestroy) by decide)]
      simp only [EndSys.noteStep, hz, if_true, hcopy, hset, List.append_nil] at hs
      cases hs
      rw [List.append_nil]
      have hcopies : s.copies this .flagged = decide (s.graph.life this = .zom) := by
        simp [EndSys.copies]
      have hover : ∀ c, s.graph.life this = .zom → ¬ (EndSys.Open
          { s with notes := a ++ Note.telling (s.subscribed this) :: b,
                   copied := c || s.copies this .flagged }) := by
        intro c hl
        simp [EndSys.Open, hp.life.mpr hl, hcopies, hl]
      refine ⟨?_, ?_⟩
      · by_cases hnil : s.subscribed this = []
        · refine h.same rfl rfl (by simp [EndSys.pending, hab, Note.queue, hnil])
            (fun _ => .inr hnil) fun _ => .inr hnil
        · obtain ⟨hl, hc⟩ := (ht hn hz).resolve_left hnil
          have hpc := hp.life.mpr hl
          have hq := hp.quiet hc
          simp only [hab, List.flatMap_append, List.flatMap_cons, List.append_eq_nil_iff] at hq
          refine h.copy rfl rfl ?_ (by simp [EndSys.Open, hpc, hc]) (hover _ hl)
          simp [EndSys.pending, hpc, EndPc.queue, Note.queue, hq.1, hq.2.2]
      · refine ⟨fun hc => ?_, hp.life, hp.began, fun _ => rfl, hp.flag, fun hc => ?_, fun ho => ?_⟩
        · obtain ⟨hc, hl⟩ : s.copied = false ∧ s.graph.life this ≠ .zom := by
            simpa [hcopies] using hc
          have hnil : s.subscribed this = [] :=
            (ht hn hz).resolve_right fun hr => hl hr.1
          have hq := hp.quiet hc
          simpa [hab, Note.queue, hnil] using hq
        · rcases Bool.or_eq_true_iff.mp hc with hc | hc
          · exact hp.copied hc
          · exact hp.life.mpr (by simpa [hcopies] using hc)
        · exact .inl (by simp [hcopies, hp.life.mp ho])
    · obtain ⟨a, b, hab, -, herase⟩ := EndSys.note_split hn .flagged
      simp only [EndSys.noteStep, if_neg hz, List.append_nil, herase] at hs
      cases hs
      rw [List.append_nil]
      have hl : s.graph.life this = .live := by
        by_contra hl
        exact hz (hp.entered hl)
      refine ⟨h.same rfl rfl ?_ (fun ho => .inl ho) fun ho => .inl ho, ?_⟩
      · simp [EndSys.pending, hab, Note.queue]
      · refine ⟨fun hc => ?_, hp.life, hp.began, hp.entered, hp.flag, hp.copied, fun ho => ?_⟩
        · have hq := hp.quiet hc
          simpa [hab, Note.queue] using hq
        · rw [hp.life.mp ho] at hl
          cases hl
  | telling q =>
    cases q with
    | nil =>
      obtain ⟨a, b, hab, -, herase⟩ := EndSys.note_split hn .flagged
      simp only [EndSys.noteStep, List.append_nil, herase] at hs
      cases hs
      rw [List.append_nil]
      refine ⟨h.same rfl rfl ?_ (fun ho => .inl ho) fun ho => .inl ho, ?_⟩
      · simp [EndSys.pending, hab, Note.queue]
      · refine ⟨fun hc => ?_, hp.life, hp.began, hp.entered, hp.flag, hp.copied, fun ho => ?_⟩
        · have hq := hp.quiet hc
          simpa [hab, Note.queue] using hq
        · simpa [hab] using hp.last ho
    | cons k q =>
      have hc := htelling k q rfl
      have hpc := hp.copied hc
      obtain ⟨a, b, hab, hset, -⟩ := EndSys.note_split hn (.telling q)
      simp only [EndSys.noteStep, hset] at hs
      cases hs
      rw [List.append_nil]
      have hno : ¬ s.Open := by simp [EndSys.Open, hpc, hc]
      refine ⟨h.tell (k := k) rfl rfl ?_ hno (by simp [EndSys.Open, hpc, hc]), ?_⟩
      · simp only [EndSys.pending, hpc, EndPc.queue, List.nil_append, hab, List.flatMap_append,
          List.flatMap_cons, Note.queue, List.cons_append]
        exact List.perm_middle
      · refine ⟨fun h => by simp [hc] at h, hp.life, hp.began, hp.entered, hp.flag,
          fun _ => hpc, fun _ => .inl (by simp [hc])⟩

theorem end_step {a : EndAct ω} {os : List (EndObs ω)} (h : Told this tr s) (hp : Standing this s)
    (ht : Timely this s a) (hs : s.step this a = some (s', os)) :
    Told this (tr ++ os) s' ∧ Standing this s' := by
  cases a with
  | graph op =>
    simp only [EndSys.step, Option.ite_none_right_eq_some, Option.map_eq_some_iff] at hs
    obtain ⟨ho, g', hg, hs⟩ := hs
    cases hs
    have hl := Graph.step_life ho hg
    exact ⟨h.graphStep ht ho hg, hp.quiet, by simpa [hl] using hp.life,
      by simpa [hl] using hp.began, by simpa [hl] using hp.entered, hp.flag, hp.copied, hp.last⟩
  | setState =>
    simp only [EndSys.step, Option.ite_none_right_eq_some] at hs
    obtain ⟨hl, hs⟩ := hs
    cases hs
    rw [List.append_nil]
    exact ⟨h.same rfl rfl rfl .inl .inl, hp.quiet, hp.life, hp.began, hp.entered, fun _ => rfl,
      hp.copied, fun _ => .inr (.inl rfl)⟩
  | enterZom =>
    simp only [EndSys.step, Option.ite_none_right_eq_some] at hs
    obtain ⟨hl, hs⟩ := hs
    cases hs
    have hb : s.pc = .before := by
      by_contra hb
      exact hp.began hb hl
    rw [List.append_nil]
    refine ⟨(h.setLife .ending).same rfl rfl rfl .inl .inl, hp.quiet, ?_, ?_, fun _ => rfl, fun _ => rfl, hp.copied,
      fun _ => .inr (.inl rfl)⟩
    · simp [hb, Graph.setLife]
    · simp [Graph.setLife]
  | zomState =>
    simp only [EndSys.step, Option.ite_none_right_eq_some] at hs
    obtain ⟨hl, hs⟩ := hs
    cases hs
    rw [List.append_nil]
    exact ⟨h.same rfl rfl rfl .inl .inl, hp.quiet, hp.life, hp.began, hp.entered, fun _ => rfl,
      hp.copied, fun _ => .inr (.inl rfl)⟩
  | last2 =>
    simp only [EndSys.step, Option.ite_none_right_eq_some] at hs
    obtain ⟨⟨hl, hb⟩, hs⟩ := hs
    cases hs
    rw [List.append_nil]
    have hc := hp.not_copied (by simp [hb])
    refine ⟨h.same rfl rfl (by simp [EndSys.pending, hb, EndPc.queue])
      (fun _ => .inl (by simp [EndSys.Open, hb])) (fun _ => .inl (by simp [EndSys.Open])),
      hp.quiet, by simp [hl], by simp [hl], hp.entered, fun _ => rfl, by simp [hc], by simp⟩
  | go =>
    simp only [EndSys.step, Option.map_eq_some_iff] at hs
    obtain ⟨s'', hs, he⟩ := hs
    cases he
    rw [List.append_nil]
    exact ⟨h.endStep hp hs, hp.endStep hs⟩
  | begin =>
    cases hs
    rw [List.append_nil]
    split
    · refine ⟨h.same rfl rfl (by simp [EndSys.pending, Note.queue]) .inl .inl, ?_, hp.life, hp.began,
        hp.entered, fun hl => absurd hl ht, hp.copied, fun _ => .inr (.inr (by simp))⟩
      intro hc
      simpa [Note.queue] using hp.quiet hc
    · exact ⟨h, hp⟩
  | note i => exact note_step h hp ht hs

theorem ending (h : (Ending this).RunIf (Timely this) tr s) :
    Told this tr s ∧ Standing this s := by
  refine h.invariant (I := fun tr s => Told this tr s ∧ Standing this s) ?_ ?_
  · rintro s ⟨flag, rfl⟩
    refine ⟨⟨Graph.ordered_empty, ?_, ?_, ?_, ?_, ?_, ?_, ?_, ?_⟩, ?_, ?_, ?_, ?_, ?_, ?_, ?_⟩ <;>
      simp [EndSys.subscribed, EndSys.pending, Graph.empty, Graph.Subscribes, EndPc.queue]
  · exact fun tr s a t os _ ih ht hs => end_step ih.1 ih.2 ht hs

/-- What listeners may rely on when the source has ended: whoever got a handle
that nobody has removed was told exactly once, nobody was told twice, and who
comes now is refused, or was told. -/
structure DestroyLaw (this : ω) (tr : List (EndObs ω)) (s : EndSys ω) : Prop where
  told : ∀ l h, .listened l h ∈ tr → .removed h ∉ tr → s.told.count l = 1
  once : s.told.Nodup
  late : ∀ l, (s.graph.listen this l tseDestroy).1 = none ∨ l ∈ s.told

/-- With timely listeners the law holds. -/
theorem destroy_law (h : (Ending this).RunIf (Timely this) tr s) (he : s.Ended) :
    DestroyLaw this tr s := by
  obtain ⟨ht, hp⟩ := ending h
  obtain ⟨hover, hflag, hnotes⟩ := he
  have hc : s.copied = true := by
    rcases hp.last hover with hc | hf | hm
    · exact hc
    · rw [hflag] at hf
      cases hf
    · rw [hnotes] at hm
      cases hm
  -- nothing is left to be called or copied
  have told : ∀ k ∈ s.subscribed this, ∀ l, s.graph.lsn k = some l → l ∈ s.told := by
    intro k hk l hl
    rcases ht.listed k hk l hl with h1 | h1 | h1
    · exact h1
    · simp [EndSys.pending, hover, EndPc.queue, hnotes] at h1
    · simp [EndSys.Open, hover, hc] at h1
  refine ⟨fun l k hk hr => ?_, ht.once, fun l => ?_⟩
  · have hsub := ht.heard l k hk
    refine List.count_eq_one_of_mem ht.once ?_
    by_cases hin : k ∈ s.subscribed this
    · obtain ⟨e, he, -, -, rfl⟩ := hsub
      exact told k hin _ (by simp [Graph.lsn, he])
    · exact (ht.gone k l hsub hin).resolve_right hr
  · unfold Graph.listen
    split
    · rename_i k hf
      obtain ⟨hk, hj⟩ := Graph.searchListen_some ht.ordered hf
      exact .inr (told k hk l hj.lsn)
    · rcases Graph.addListener_cases s.graph this l tseDestroy with ha | ⟨hz, -⟩
      · exact .inl (by rw [ha])
      · exact absurd (hp.life.mp hover) hz

end

-- ---------------------------------------------------------------------------
-- Listeners that are forgotten, or told twice
-- ---------------------------------------------------------------------------

/-- `ZOM_TINYSTATE_LAST2` with one listener; `others` is what its handler does,
and `n` the number of handles that are drained. -/
def lastRun (others : List (EndAct Nat)) (n : Nat) : List (EndAct Nat) :=
  List.flatten [
    [.graph (.listen 0 1 tseDestroy), .enterZom, .last2, .go, .go, .go],
    others,
    List.replicate (24 + n) .go,
    [.begin, .note 0, .note 0]]

theorem listener_told : ∃ tr s, .listened 1 0 ∈ tr ∧ .removed 0 ∉ tr ∧
    DestroyLaw (ω := Nat) 0 tr s := by
  obtain ⟨tr, s, h, ⟨hl, hr⟩, he⟩ := Machine.exists_run (M := Ending 0) (C := Timely 0)
    (P := fun tr s => (.listened 1 0 ∈ tr ∧ .removed 0 ∉ tr) ∧ s.Ended)
    (lastRun [] 1) ⟨false, rfl⟩ (by decide)
  exact ⟨tr, s, hl, hr, destroy_law h he⟩

/-- The handler of the notification makes another object listen, which is given
a handle and never told; an `invoke_state` that began before the end copies the
list as well, and the listener is told twice. -/
theorem listener_forgotten :
    (∃ tr s, (Ending 0).Run tr s ∧ s.Ended ∧ .listened 2 1 ∈ tr ∧ .removed 1 ∉ tr ∧
      s.told.count 2 = 0) ∧
    ∃ tr s, (Ending 0).Run tr s ∧ s.Ended ∧ .listened 1 0 ∈ tr ∧ .removed 0 ∉ tr ∧
      s.told.count 1 = 2 := by
  refine ⟨?_, ?_⟩
  · refine Machine.exists_run (lastRun [.graph (.listen 0 2 tseDestroy)] 2) ⟨false, rfl⟩ ?_
    decide
  · refine Machine.exists_run (.setState :: .begin :: lastRun [.note 0, .note 0, .note 0] 1)
      ⟨false, rfl⟩ ?_
    decide

end TinyState
