import Mathlib.Data.List.Perm.Subperm
import TinyState.Parallel.Model

/-!
# The join of ts2Parallel

What the list of the root holds, whose function the siblings run, and when the
creator is told. A sibling that has been made but not yet put into the list
keeps the body that has made it waiting, so that the root cannot be through.
-/

namespace TinyState

open Transition LinkedList

namespace Parallel

variable {φ : Type} {fn : Option φ} {s t : Parallel φ} {tr : List (ParallelObs φ)} {x y : Nat}
  {w : Worker φ}

/-- From whom the creator has got `TSE_RETURN`. -/
def returns (tr : List (ParallelObs φ)) : List Nat :=
  tr.filterMap fun | .ret x => some x | .body .. => none

/-- Every sibling that has been made has finished. -/
def AllEnded (s : Parallel φ) : Prop :=
  ∀ x, x ≠ 0 → x < s.made → (s.obj x).state.ended = true

/-- The group, apart from what has been observed of it. -/
structure Joined (fn : Option φ) (s : Parallel φ) : Prop where
  made : 0 < s.made
  fresh : ∀ x, s.made ≤ x → (s.obj x).state = .iniStart ∧ (s.obj x).inBody = false ∧
    (s.obj x).spawning = none
  root : ∀ x, (s.obj x).root = 0
  creator : (s.obj 0).parent = none
  parent : ∀ x, x ≠ 0 → x < s.made → (s.obj x).parent = some 0
  list : Holds s.next (s.next 0) s.Listed
  unlinked : ∀ x, x ≠ 0 → ¬s.Listed x → s.next x = none
  first : (s.obj 0).state = .iniStart → s.made = 1 ∧ (s.obj 0).fn = fn ∧ s.next 0 = none
  org : (s.obj 0).state ≠ .iniStart → (s.obj 0).state.ended = false → (s.obj 0).org = fn
  body : ∀ x, (s.obj x).state.act = true → (s.obj x).fn_ = fn
  inBody : ∀ x, (s.obj x).inBody = true → (s.obj x).state.act = true
  spawning : ∀ x, x ≠ 0 → x < s.made → (s.obj x).state = .iniStart →
    ∃ w, (s.obj w).spawning = some x ∧ (s.obj w).inBody = true
  ended : (s.obj 0).state.ended = true → s.AllEnded
  due : (s.obj 0).state = .finStart → s.next 0 = none → (s.obj 0).due = true

-- ---------------------------------------------------------------------------
-- Writing one object
-- ---------------------------------------------------------------------------

@[simp] theorem set_made : (s.set x w).made = s.made := rfl

@[simp] theorem set_lost : (s.set x w).lost = s.lost := rfl

@[simp] theorem set_self : (s.set x w).obj x = w := Function.update_self ..

theorem set_ne (h : y ≠ x) : (s.set x w).obj y = s.obj y := Function.update_of_ne h ..

theorem set_obj : (s.set x w).obj y = if y = x then w else s.obj y := Function.update_apply ..

theorem set_next : (s.set x w).next = Function.update s.next x w.next := by
  funext y
  simp only [next, set_obj, Function.update_apply]
  split <;> rfl

theorem set_next_same (h : w.next = s.next x) : (s.set x w).next = s.next := by
  rw [set_next, h, Function.update_eq_self]

theorem Joined.act_made (h : Joined fn s) (hx : (s.obj x).state.act = true) : x < s.made := by
  rcases Nat.lt_or_ge x s.made with hlt | hge
  · exact hlt
  · rw [(h.fresh x hge).1] at hx
    cases hx

/-- What an object does by itself, without touching the list. -/
structure Private (s : Parallel φ) (x : Nat) (w : Worker φ) : Prop where
  parent : w.parent = (s.obj x).parent
  next : w.next = (s.obj x).next
  root : w.root = (s.obj x).root
  org : w.org = (s.obj x).org
  made : x < s.made
  old : (s.obj x).state ≠ .iniStart
  new : w.state ≠ .iniStart
  ended : w.state.ended = (s.obj x).state.ended
  act : w.state.act = true → (s.obj x).state.act = true ∧ w.fn_ = (s.obj x).fn_
  inBody : w.inBody = true → w.state.act = true
  spawning : ∀ c, (s.obj x).spawning = some c → (s.obj c).state = .iniStart →
    (s.obj x).inBody = true → w.spawning = some c ∧ w.inBody = true
  due : x = 0 → w.state = .finStart → s.next 0 = none → w.due = true

theorem Private.listed (h : Private s x w) : (s.set x w).Listed y ↔ s.Listed y := by
  simp only [Listed, set_made, set_obj]
  by_cases he : y = x
  · subst he
    simp [h.old, h.new, h.ended]
  · simp [he]

theorem Joined.set (h : Joined fn s) (hp : Private s x w) : Joined fn (s.set x w) := by
  have hn := set_next_same hp.next
  refine ⟨h.made, ?_, ?_, ?_, ?_, ?_, ?_, ?_, ?_, ?_, ?_, ?_, ?_, ?_⟩
  · intro y hy
    rw [set_ne (Nat.ne_of_gt (Nat.lt_of_lt_of_le hp.made hy))]
    exact h.fresh y hy
  · intro y
    rw [set_obj]
    split
    · rw [hp.root, h.root]
    · exact h.root y
  · rw [set_obj]
    split
    · rename_i he
      rw [hp.parent, ← he, h.creator]
    · exact h.creator
  · intro y hy hm
    rw [set_obj]
    split
    · rename_i he
      rw [hp.parent, ← he, h.parent y hy hm]
    · exact h.parent y hy hm
  · rw [hn]
    exact h.list.congr fun y => hp.listed.symm
  · intro y hy hl
    rw [hn]
    exact h.unlinked y hy (fun hl' => hl (hp.listed.mpr hl'))
  · intro hs
    rw [set_obj] at hs ⊢
    split at hs
    · exact absurd hs hp.new
    · rename_i he
      rw [if_neg he, hn]
      exact h.first hs
  · intro hs hd
    rw [set_obj] at hs hd ⊢
    split at hs
    · rename_i he
      rw [if_pos he] at hd ⊢
      rw [hp.org, ← he]
      rw [hp.ended, ← he] at hd
      exact h.org (by rw [he]; exact hp.old) hd
    · rename_i he
      rw [if_neg he] at hd ⊢
      exact h.org hs hd
  · intro y ha
    rw [set_obj] at ha ⊢
    split at ha
    · rename_i he
      rw [if_pos he, (hp.act ha).2]
      exact h.body x (hp.act ha).1
    · rename_i he
      rw [if_neg he]
      exact h.body y ha
  · intro y hb
    rw [set_obj] at hb ⊢
    split at hb
    · rename_i he
      rw [if_pos he]
      exact hp.inBody hb
    · rename_i he
      rw [if_neg he]
      exact h.inBody y hb
  · intro y hy hm hs
    rw [set_obj] at hs
    split at hs
    · exact absurd hs hp.new
    · rename_i he
      obtain ⟨v, hv, hb⟩ := h.spawning y hy hm hs
      refine ⟨v, ?_⟩
      rw [set_obj]
      split
      · rename_i hvx
        subst hvx
        exact hp.spawning y hv hs hb
      · exact ⟨hv, hb⟩
  · intro hd y hy hm
    rw [set_obj] at hd ⊢
    have hd' : (s.obj 0).state.ended = true := by
      split at hd
      · rename_i he
        rw [he, ← hp.ended]
        exact hd
      · exact hd
    split
    · rename_i he
      rw [hp.ended, ← he]
      exact h.ended hd' y hy hm
    · exact h.ended hd' y hy hm
  · rw [hn]
    intro hs hz
    rw [set_obj] at hs ⊢
    split at hs
    · rename_i he
      rw [if_pos he]
      exact hp.due he.symm hs hz
    · rename_i he
      rw [if_neg he]
      exact h.due hs hz

/-- Objects that differ in what the join has nothing to do with. -/
structure Agree (v w : Worker φ) : Prop where
  parent : w.parent = v.parent
  fn : w.fn = v.fn
  next : w.next = v.next
  root : w.root = v.root
  org : w.org = v.org
  fn_ : w.fn_ = v.fn_
  state : w.state = v.state
  inBody : w.inBody = v.inBody
  spawning : w.spawning = v.spawning
  due : v.due = true → w.due = true

theorem Agree.refl (w : Worker φ) : Agree w w := ⟨rfl, rfl, rfl, rfl, rfl, rfl, rfl, rfl, rfl, id⟩

theorem Joined.agree (h : Joined fn s) (hm : t.made = s.made)
    (ha : ∀ y, Agree (s.obj y) (t.obj y)) : Joined fn t := by
  have hn : t.next = s.next := funext fun y => (ha y).next
  have hl (y : Nat) : t.Listed y ↔ s.Listed y := by simp only [Listed, hm, (ha y).state]
  refine ⟨?_, ?_, ?_, ?_, ?_, ?_, ?_, ?_, ?_, ?_, ?_, ?_, ?_, ?_⟩
  · rw [hm]
    exact h.made
  · intro y hy
    rw [(ha y).state, (ha y).inBody, (ha y).spawning]
    exact h.fresh y (hm ▸ hy)
  · intro y
    rw [(ha y).root]
    exact h.root y
  · rw [(ha 0).parent]
    exact h.creator
  · intro y hy hlt
    rw [(ha y).parent]
    exact h.parent y hy (hm ▸ hlt)
  · rw [hn]
    exact h.list.congr fun y => (hl y).symm
  · intro y hy hnl
    rw [hn]
    exact h.unlinked y hy fun hl' => hnl ((hl y).mpr hl')
  · rw [(ha 0).state, (ha 0).fn, hm, hn]
    exact h.first
  · rw [(ha 0).state, (ha 0).org]
    exact h.org
  · intro y hya
    rw [(ha y).fn_]
    exact h.body y ((ha y).state ▸ hya)
  · intro y hyb
    rw [(ha y).state]
    exact h.inBody y ((ha y).inBody ▸ hyb)
  · intro y hy hlt hi
    obtain ⟨v, hv, hvb⟩ := h.spawning y hy (hm ▸ hlt) ((ha y).state ▸ hi)
    exact ⟨v, (ha v).spawning.trans hv, (ha v).inBody.trans hvb⟩
  · rw [(ha 0).state]
    intro hd y hy hlt
    rw [(ha y).state]
    exact h.ended hd y hy (hm ▸ hlt)
  · rw [(ha 0).state, hn]
    exact fun hs hz => (ha 0).due (h.due hs hz)

theorem set_agree (h : Agree (s.obj x) w) (y : Nat) : Agree (s.obj y) ((s.set x w).obj y) := by
  rw [set_obj]
  split
  · rename_i hy
    rw [hy]
    exact h
  · exact .refl _

-- ---------------------------------------------------------------------------
-- What becomes of the list
-- ---------------------------------------------------------------------------

/-- The list is left alone, and nobody goes back. -/
structure Same (s t : Parallel φ) : Prop where
  next : t.next = s.next
  listed : ∀ y, t.Listed y ↔ s.Listed y
  ended : ∀ y, (s.obj y).state.ended = true → (t.obj y).state.ended = true
  started : ∀ y, (s.obj y).state ≠ .iniStart → (t.obj y).state ≠ .iniStart

theorem Same.refl (s : Parallel φ) : Same s s := ⟨rfl, fun _ => .rfl, fun _ => id, fun _ => id⟩

theorem Same.trans {u : Parallel φ} (h : Same s t) (h' : Same t u) : Same s u where
  next := h'.next.trans h.next
  listed y := (h'.listed y).trans (h.listed y)
  ended y he := h'.ended y (h.ended y he)
  started y hs := h'.started y (h.started y hs)

/-- What a step may do to the list: nothing, put a new sibling in front, take one out. -/
inductive Relinked (s t : Parallel φ) : Prop
  | same : t.next = s.next → (∀ y, t.Listed y ↔ s.Listed y) → Relinked s t
  | push {x : Nat} : x ≠ 0 → (s.obj x).state = .iniStart →
      t.next = Function.update (Function.update s.next x (s.next 0)) 0 (some x) →
      (∀ y, t.Listed y ↔ s.Listed y ∨ y = x) → Relinked s t
  | take {x np : Nat} : s.Listed x → (t.obj x).state.ended = true → s.next np = some x → (∀ z, s.next z = some x → z = np) →
      t.next = Function.update (Function.update s.next np (s.next x)) x none →
      (∀ y, t.Listed y ↔ s.Listed y ∧ y ≠ x) → Relinked s t

/-- The same, where nobody goes back. -/
structure Links (s t : Parallel φ) : Prop where
  relinked : Relinked s t
  ended : ∀ y, (s.obj y).state.ended = true → (t.obj y).state.ended = true
  started : ∀ y, (s.obj y).state ≠ .iniStart → (t.obj y).state ≠ .iniStart

theorem Same.links (h : Same s t) : Links s t := ⟨.same h.next h.listed, h.ended, h.started⟩

theorem Links.after {u : Parallel φ} (h : Links s t) (hu : Same u s) : Links u t where
  relinked := by
    cases h.relinked with
    | same hn hl => exact .same (hn.trans hu.next) fun y => (hl y).trans (hu.listed y)
    | @push x hx hi hn hl =>
      refine .push hx ?_ (by rw [hn, hu.next]) fun y => (hl y).trans (or_congr_left (hu.listed y))
      exact Classical.not_not.mp fun hne => hu.started x hne hi
    | take hx he hp hq hn hl =>
      exact .take ((hu.listed _).mp hx) he (by rw [← hu.next]; exact hp)
        (fun z hz => hq z (by rw [hu.next]; exact hz)) (by rw [hn, hu.next])
        fun y => (hl y).trans (and_congr_left fun _ => hu.listed y)
  ended y he := h.ended y (hu.ended y he)
  started y hs := h.started y (hu.started y hs)

theorem Private.same (hp : Private s x w) : Same s (s.set x w) where
  next := set_next_same hp.next
  listed _ := hp.listed
  ended y := by
    rw [set_obj]
    split
    · rename_i hy
      rw [hp.ended, hy]
      exact id
    · exact id
  started y := by
    rw [set_obj]
    split
    · exact fun _ => hp.new
    · exact id

theorem same_of_agree (hm : t.made = s.made) (ha : ∀ y, Agree (s.obj y) (t.obj y)) : Same s t where
  next := funext fun y => (ha y).next
  listed y := by simp only [Listed, hm, (ha y).state]
  ended y := by rw [(ha y).state]; exact id
  started y := by rw [(ha y).state]; exact id

-- ---------------------------------------------------------------------------
-- The body
-- ---------------------------------------------------------------------------

theorem act_open {st : ParallelState} (h : st.act = true) : st ≠ .iniStart ∧ st.ended = false := by
  cases st with
  | actStart | actStartThr => exact ⟨nofun, rfl⟩
  | _ => cases h

theorem Joined.call (h : Joined fn s) (ha : (s.obj x).state.act = true)
    (hb : (s.obj x).inBody = false) : Joined fn (s.call x).1 ∧ Same s (s.call x).1 := by
  have set {w : Worker φ} (hp : Private s x w) := And.intro (h.set hp) hp.same
  obtain ⟨hi, he⟩ := act_open ha
  have hx := h.act_made ha
  have hn : (s.obj x).inBody ≠ true := by rw [hb]; nofun
  unfold Parallel.call
  split
  · exact set ⟨rfl, rfl, rfl, rfl, hx, hi, nofun, he.symm, nofun, fun hb' => absurd hb' hn,
      fun _ _ _ hb' => absurd hb' hn, fun _ _ _ => rfl⟩
  · exact set ⟨rfl, rfl, rfl, rfl, hx, hi, hi, rfl, fun _ => ⟨ha, rfl⟩, fun _ => ha,
      fun _ _ _ hb' => absurd hb' hn, fun _ hf => by rw [hf] at ha; cases ha⟩

theorem Free.spawned (hf : s.Free x) {c : Nat} (hc : (s.obj x).spawning = some c) :
    (s.obj c).state ≠ .iniStart := by
  simpa [hc] using hf.2

theorem Joined.leave (h : Joined fn s) (hf : s.Free x) (r : BodyEnd) :
    Joined fn (s.leave x r) ∧ Same s (s.leave x r) := by
  have set {w : Worker φ} (hp : Private s x w) := And.intro (h.set hp) hp.same
  have ha := h.inBody x hf.1
  obtain ⟨hi, he⟩ := act_open ha
  have hx := h.act_made ha
  cases r with
  | stay =>
    exact set ⟨rfl, rfl, rfl, rfl, hx, hi, hi, rfl, fun _ => ⟨ha, rfl⟩, nofun,
      fun _ hc hs => absurd hs (hf.spawned hc), fun _ hf => by rw [hf] at ha; cases ha⟩
  | done =>
    exact set ⟨rfl, rfl, rfl, rfl, hx, hi, nofun, he.symm, nofun, nofun,
      fun _ hc hs => absurd hs (hf.spawned hc), fun _ _ _ => rfl⟩
  | error =>
    exact set ⟨rfl, rfl, rfl, rfl, hx, hi, nofun, he.symm, nofun, nofun,
      fun _ hc hs => absurd hs (hf.spawned hc), fun _ => nofun⟩

/-- A new sibling, for which somebody is waiting. -/
theorem Joined.alloc (h : Joined fn s) (hx : (s.obj x).spawning = some s.made)
    (hb : (s.obj x).inBody = true) (type : Int) :
    let t := { s.set s.made (new (some 0) type none) with made := s.made + 1 }
    Joined fn t ∧ Same s t := by
  intro t
  have ha := h.inBody x hb
  obtain ⟨hi, he⟩ := act_open ha
  have hm := h.act_made ha
  have hm0 : s.made ≠ 0 := Nat.ne_of_gt h.made
  have hold {y : Nat} (hy : y ≠ s.made) : t.obj y = s.obj y := set_ne hy
  have hnew : t.obj s.made = new (some 0) type none := set_self
  have hn : t.next = s.next := by
    refine set_next_same (w := new (some 0) type none) ?_
    exact (h.unlinked _ hm0 fun hl => absurd hl.2.1 (Nat.lt_irrefl _)).symm
  have hl (y : Nat) : t.Listed y ↔ s.Listed y := by
    by_cases hy : y = s.made
    · simp [Listed, hy, hnew, new]
    · have : y < s.made + 1 ↔ y < s.made := by omega
      simp only [Listed, hold hy, show t.made = s.made + 1 from rfl, this]
  have h0 : t.obj 0 = s.obj 0 := hold (Ne.symm hm0)
  have hfresh := h.fresh s.made (Nat.le_refl _)
  have hsame : Same s t := by
    refine ⟨hn, hl, fun y he => ?_, fun y hs => ?_⟩
    · by_cases hy : y = s.made
      · rw [hy, hfresh.1] at he
        cases he
      · rwa [hold hy]
    · by_cases hy : y = s.made
      · exact absurd (hy ▸ hfresh.1) hs
      · rwa [hold hy]
  refine ⟨?_, hsame⟩
  refine ⟨Nat.succ_pos _, ?_, ?_, ?_, ?_, ?_, ?_, ?_, ?_, ?_, ?_, ?_, ?_, ?_⟩
  · intro y hy
    have hy' : s.made + 1 ≤ y := hy
    rw [hold (by omega)]
    exact h.fresh y (by omega)
  · intro y
    by_cases hy : y = s.made
    · rw [hy, hnew]
      rfl
    · rw [hold hy]
      exact h.root y
  · rw [h0]
    exact h.creator
  · intro y hy hlt
    have hlt' : y < s.made + 1 := hlt
    by_cases hym : y = s.made
    · rw [hym, hnew]
      rfl
    · rw [hold hym]
      exact h.parent y hy (by omega)
  · rw [hn]
    exact h.list.congr fun y => (hl y).symm
  · intro y hy hnl
    rw [hn]
    exact h.unlinked y hy fun hl' => hnl ((hl y).mpr hl')
  · rw [h0]
    intro hs
    have hone := (h.first hs).1
    obtain rfl : x = 0 := by omega
    exact absurd hs hi
  · rw [h0]
    exact h.org
  · intro y hya
    by_cases hy : y = s.made
    · rw [hy, hnew] at hya
      cases hya
    · rw [hold hy] at hya ⊢
      exact h.body y hya
  · intro y hyb
    by_cases hy : y = s.made
    · rw [hy, hnew] at hyb
      cases hyb
    · rw [hold hy] at hyb ⊢
      exact h.inBody y hyb
  · intro y hy hlt hs
    have hlt' : y < s.made + 1 := hlt
    by_cases hym : y = s.made
    · exact ⟨x, by rw [hold (Nat.ne_of_lt hm), hym]; exact ⟨hx, hb⟩⟩
    · rw [hold hym] at hs
      obtain ⟨v, hv, hvb⟩ := h.spawning y hy (by omega) hs
      have hvm : v < s.made := h.act_made (h.inBody v hvb)
      exact ⟨v, by rw [hold (Nat.ne_of_lt hvm)]; exact ⟨hv, hvb⟩⟩
  · rw [h0]
    intro hd
    -- whoever spawns keeps the root going
    rcases Nat.eq_zero_or_pos x with rfl | hp
    · cases he.symm.trans hd
    · cases he.symm.trans (h.ended hd x (Nat.ne_of_gt hp) hm)
  · rw [hn, h0]
    exact h.due

theorem Joined.spawn (h : Joined fn s) (hf : s.Free x) (type : Int) :
    Joined fn (s.spawn x type) ∧ Same s (s.spawn x type) := by
  have ha := h.inBody x hf.1
  obtain ⟨hi, -⟩ := act_open ha
  have hx := h.act_made ha
  have hp : Private s x { s.obj x with spawning := some s.made } :=
    ⟨rfl, rfl, rfl, rfl, hx, hi, hi, rfl, fun _ => ⟨ha, rfl⟩, fun _ => ha,
      fun _ hc hs => absurd hs (hf.spawned hc), fun _ hs => by rw [hs] at ha; cases ha⟩
  obtain ⟨hj, hsame⟩ :=
    (h.set hp).alloc (x := x) (by rw [set_self, set_made]) (by rw [set_self]; exact hf.1) type
  unfold Parallel.spawn
  rw [h.root]
  exact ⟨hj, hp.same.trans hsame⟩

-- ---------------------------------------------------------------------------
-- INI_START
-- ---------------------------------------------------------------------------

theorem inherit_made : (s.inherit x).made = s.made := rfl

theorem iniStart_made : (s.iniStart x).made = s.made := by
  simp only [iniStart]
  split <;> rfl

theorem iniStart_lost : (s.iniStart x).lost = s.lost := by
  simp only [iniStart]
  split <;> rfl

theorem start_act (type : Int) :
    (if type = 0 then ParallelState.actStart else .actStartThr).act = true := by
  split <;> rfl

theorem Joined.iniRoot (h : Joined fn s) (hs : (s.obj 0).state = .iniStart) :
    Joined fn (s.iniStart 0) ∧ Same s (s.iniStart 0) ∧
      ((s.iniStart 0).obj 0).state.ended = false := by
  obtain ⟨hm, hfn, hn0⟩ := h.first hs
  have hob (y : Nat) : (s.iniStart 0).obj y =
      if y = 0 then { s.obj 0 with
        root := 0
        next := none
        org := fn
        orgType := (s.obj 0).type
        fn_ := fn
        fn := none
        state := if (s.obj 0).type = 0 then .actStart else .actStartThr }
      else s.obj y := by
    simp only [iniStart, h.creator, Option.filter_none, inherit, set_obj]
    by_cases hy0 : y = 0
    · simp [hy0, hfn]
    · simp [hy0]
  have h0 := hob 0
  rw [if_pos rfl] at h0
  have hother {y : Nat} (hy : y ≠ 0) : (s.iniStart 0).obj y = s.obj y := by rw [hob, if_neg hy]
  have hact : ((s.iniStart 0).obj 0).state.act = true := by
    rw [h0]
    exact start_act _
  have hnl (y : Nat) : ¬(s.iniStart 0).Listed y := by
    rintro ⟨hy, hlt, -⟩
    rw [iniStart_made] at hlt
    omega
  have hn : (s.iniStart 0).next 0 = none := by rw [next, h0]
  have hsame : Same s (s.iniStart 0) := by
    refine ⟨funext fun y => ?_, fun y => ?_, fun y he => ?_, fun y hy => ?_⟩
    · by_cases hy : y = 0
      · rw [hy, hn, hn0]
      · rw [next, hother hy, next]
    · refine iff_of_false (hnl y) ?_
      rintro ⟨hy, hlt, -⟩
      omega
    · by_cases hy0 : y = 0
      · rw [hy0, hs] at he
        cases he
      · rwa [hother hy0]
    · by_cases hy0 : y = 0
      · exact absurd (hy0 ▸ hs) hy
      · rwa [hother hy0]
  refine ⟨?_, hsame, (act_open hact).2⟩
  refine ⟨?_, ?_, ?_, ?_, ?_, ?_, ?_, ?_, ?_, ?_, ?_, ?_, ?_, ?_⟩
  · rw [iniStart_made]
    exact h.made
  · rw [iniStart_made]
    intro y hy
    rw [hother (by omega)]
    exact h.fresh y hy
  · intro y
    by_cases hy : y = 0
    · rw [hy, h0]
    · rw [hother hy]
      exact h.root y
  · rw [h0]
    exact h.creator
  · rw [iniStart_made]
    intro y hy hlt
    omega
  · rw [hn]
    exact holds_none.mpr hnl
  · intro y hy _
    rw [next, hother hy]
    exact h.unlinked y hy fun hl => by
      have := hl.2.1
      omega
  · exact fun hs0 => absurd hs0 (act_open hact).1
  · intro _ _
    rw [h0]
  · intro y hya
    by_cases hy : y = 0
    · rw [hy, h0]
    · rw [hother hy] at hya ⊢
      exact h.body y hya
  · intro y hyb
    by_cases hy : y = 0
    · rw [hy]
      exact hact
    · rw [hother hy] at hyb ⊢
      exact h.inBody y hyb
  · rw [iniStart_made]
    intro y hy hlt
    omega
  · intro hd
    cases (act_open hact).2.symm.trans hd
  · intro hs0
    rw [hs0] at hact
    cases hact

/-- A sibling is put in front of the list. -/
theorem Joined.iniSibling (h : Joined fn s) (hx : x ≠ 0) (hm : x < s.made)
    (hs : (s.obj x).state = .iniStart) : Joined fn (s.iniStart x) ∧ Links s (s.iniStart x) ∧
      ((s.iniStart x).obj 0).state.ended = (s.obj 0).state.ended := by
  obtain ⟨v, hv, hvb⟩ := h.spawning x hx hm hs
  have hva := h.inBody v hvb
  obtain ⟨hvi, hve⟩ := act_open hva
  have hstart : (s.obj 0).state ≠ .iniStart := by
    intro h0
    have := (h.first h0).1
    omega
  have hlive : (s.obj 0).state.ended = false := by
    cases hd : (s.obj 0).state.ended with
    | false => rfl
    | true =>
      have := h.ended hd x hx hm
      rw [hs] at this
      cases this
  have hz : (s.obj 0).state ≠ .zom := fun h0 => by rw [h0] at hlive; cases hlive
  have hl : ¬s.Listed x := fun hl => hl.2.2.1 hs
  have hob (y : Nat) : (s.iniStart x).obj y =
      if y = x then { s.obj x with
        root := 0
        next := s.next 0
        fn_ := (s.obj 0).org
        fn := none
        type := if (s.obj x).type < 0 then (s.obj 0).orgType else (s.obj x).type
        state := if (if (s.obj x).type < 0 then (s.obj 0).orgType else (s.obj x).type) = 0
          then .actStart else .actStartThr }
      else if y = 0 then { s.obj 0 with next := some x } else s.obj y := by
    have hp : (s.obj x).parent.filter (fun p => (s.obj p).state ≠ .zom) = some 0 := by
      rw [h.parent x hx hm]
      simp [hz]
    simp only [iniStart, hp, h.root, inherit, link, set_obj]
    by_cases hyx : y = x
    · simp [hyx, hx, Ne.symm hx]
    · by_cases hy0 : y = 0
      · simp [hy0, Ne.symm hx, h.root 0]
      · simp [hyx, hy0]
  have h0 := hob 0
  rw [if_neg (Ne.symm hx), if_pos rfl] at h0
  have hself := hob x
  rw [if_pos rfl] at hself
  have hother {y : Nat} (hy : y ≠ x) (hy0 : y ≠ 0) : (s.iniStart x).obj y = s.obj y := by
    rw [hob, if_neg hy, if_neg hy0]
  have hst0 : ((s.iniStart x).obj 0).state = (s.obj 0).state := by rw [h0]
  have hact : ((s.iniStart x).obj x).state.act = true := by
    rw [hself]
    exact start_act _
  have hlx : (s.iniStart x).Listed x := by
    obtain ⟨h₁, h₂⟩ := act_open hact
    exact ⟨hx, by rw [iniStart_made]; exact hm, h₁, h₂⟩
  have hlist (y : Nat) : (s.iniStart x).Listed y ↔ s.Listed y ∨ y = x := by
    by_cases hyx : y = x
    · exact ⟨fun _ => .inr hyx, fun _ => hyx ▸ hlx⟩
    · by_cases hy0 : y = 0
      · simp [Listed, hy0, Ne.symm hx]
      · simp only [Listed, hother hyx hy0, iniStart_made, hyx, or_false]
  have hn : (s.iniStart x).next = Function.update (Function.update s.next x (s.next 0)) 0 (some x) := by
    funext y
    by_cases hy0 : y = 0
    · rw [hy0, Function.update_self, next, h0]
    · rw [Function.update_of_ne hy0]
      by_cases hyx : y = x
      · rw [hyx, Function.update_self, next, hself]
      · rw [Function.update_of_ne hyx, next, hother hyx hy0, next]
  have hstate (y : Nat) (hy : y ≠ x) : ((s.iniStart x).obj y).state = (s.obj y).state := by
    by_cases hy0 : y = 0
    · rw [hy0, hst0]
    · rw [hother hy hy0]
  refine ⟨?_, ⟨.push hx hs hn hlist, fun y he => ?_, fun y hy => ?_⟩, by rw [hst0]⟩
  case refine_2 =>
    have hyx : y ≠ x := fun hyx => by rw [hyx, hs] at he; cases he
    rwa [hstate y hyx]
  case refine_3 =>
    have hyx : y ≠ x := fun hyx => hy (hyx ▸ hs)
    rwa [hstate y hyx]
  refine ⟨?_, ?_, ?_, ?_, ?_, ?_, ?_, ?_, ?_, ?_, ?_, ?_, ?_, ?_⟩
  · rw [iniStart_made]
    exact h.made
  · rw [iniStart_made]
    intro y hy
    rw [hother (by omega) (by have := h.made; omega)]
    exact h.fresh y hy
  · intro y
    by_cases hyx : y = x
    · rw [hyx, hself]
    · by_cases hy0 : y = 0
      · rw [hy0, h0]
        exact h.root 0
      · rw [hother hyx hy0]
        exact h.root y
  · rw [h0]
    exact h.creator
  · rw [iniStart_made]
    intro y hy hlt
    by_cases hyx : y = x
    · rw [hyx, hself]
      exact h.parent x hx hm
    · rw [hother hyx hy]
      exact h.parent y hy hlt
  · have hp := (h.list.push hl).update (x := 0) (fun hc => by
      rcases hc with hc | hc
      · exact hc.1 rfl
      · exact hx hc.symm) (some x)
    rw [hn, Function.update_self]
    exact hp.congr fun y => (hlist y).symm
  · intro y hy hnl
    have hyx : y ≠ x := fun he => hnl (he ▸ hlx)
    rw [next, hother hyx hy]
    exact h.unlinked y hy fun hl' => hnl ((hlist y).mpr (.inl hl'))
  · rw [hst0]
    exact fun hs0 => absurd hs0 hstart
  · rw [hst0, h0]
    exact h.org
  · intro y hya
    by_cases hyx : y = x
    · rw [hyx, hself]
      exact h.org hstart hlive
    · by_cases hy0 : y = 0
      · rw [hy0, h0] at hya ⊢
        exact h.body 0 hya
      · rw [hother hyx hy0] at hya ⊢
        exact h.body y hya
  · intro y hyb
    by_cases hyx : y = x
    · rw [hyx]
      exact hact
    · by_cases hy0 : y = 0
      · rw [hy0, h0] at hyb ⊢
        exact h.inBody 0 hyb
      · rw [hother hyx hy0] at hyb ⊢
        exact h.inBody y hyb
  · rw [iniStart_made]
    intro y hy hlt hys
    have hyx : y ≠ x := fun he => by rw [he] at hys; exact absurd hys (act_open hact).1
    rw [hother hyx hy] at hys
    obtain ⟨u, hu, hub⟩ := h.spawning y hy hlt hys
    have hux : u ≠ x := fun he => absurd hs (act_open (h.inBody x (he ▸ hub))).1
    refine ⟨u, ?_⟩
    by_cases hu0 : u = 0
    · rw [hu0] at hu hub ⊢
      rw [h0]
      exact ⟨hu, hub⟩
    · rw [hother hux hu0]
      exact ⟨hu, hub⟩
  · rw [hst0]
    intro hd
    cases hlive.symm.trans hd
  · intro _ hz'
    rw [hn, Function.update_self] at hz'
    cases hz'

-- ---------------------------------------------------------------------------
-- FIN_START
-- ---------------------------------------------------------------------------

/-- Nobody is being made, and nobody is left, when the list of a root that is
through with its body is empty. -/
theorem Joined.allEnded (h : Joined fn s) (hs : (s.obj 0).state = .finStart)
    (hn : s.next 0 = none) : s.AllEnded := by
  have hl := h.list
  rw [hn, holds_none] at hl
  intro x hx hm
  by_cases hi : (s.obj x).state = .iniStart
  · obtain ⟨v, -, hvb⟩ := h.spawning x hx hm hi
    have hva := h.inBody v hvb
    obtain ⟨hvi, hve⟩ := act_open hva
    by_cases hv0 : v = 0
    · rw [hv0, hs] at hva
      cases hva
    · exact absurd ⟨hv0, h.act_made hva, hvi, hve⟩ (hl v)
  · cases he : (s.obj x).state.ended with
    | true => rfl
    | false => exact absurd ⟨hx, hm, hi, he⟩ (hl x)

/-- The root goes on waiting for its siblings. -/
theorem Joined.finWait (h : Joined fn s) (hs : (s.obj 0).state = .finStart)
    (hn : s.next 0 ≠ none) : Joined fn (s.dropFn 0) ∧ Same s (s.dropFn 0) := by
  have set {w : Worker φ} (hp : Private s 0 w) := And.intro (h.set hp) hp.same
  refine set ⟨rfl, rfl, rfl, rfl, h.made, by rw [hs]; nofun, by rw [hs]; nofun, rfl, ?_, ?_, ?_, ?_⟩
  · intro ha
    rw [hs] at ha
    cases ha
  · exact h.inBody 0
  · exact fun _ hc _ hb => ⟨hc, hb⟩
  · exact fun _ _ hn' => absurd hn' hn

/-- The root is through. -/
theorem Joined.finRoot (h : Joined fn s) (hs : (s.obj 0).state = .finStart)
    (hn : s.next 0 = none) :
    let w : Worker φ := { s.obj 0 with
      fn_ := none
      due := false
      org := none
      state := .finTinyStateStart }
    Joined fn (s.set 0 w) ∧ Same s (s.set 0 w) := by
  intro w
  have hall := h.allEnded hs hn
  have hnext : (s.set 0 w).next = s.next := set_next_same rfl
  have hnb : w.inBody ≠ true := fun hb => by
    have := h.inBody 0 hb
    rw [hs] at this
    cases this
  have hl (y : Nat) : ¬(s.set 0 w).Listed y := by
    rintro ⟨hy, hm, -, he⟩
    rw [set_ne hy, hall y hy hm] at he
    cases he
  have hsame : Same s (s.set 0 w) := by
    refine ⟨hnext, fun y => iff_of_false (hl y) ?_, fun y => ?_, fun y => ?_⟩
    · rintro ⟨hy, hm, -, he⟩
      cases (hall y hy hm).symm.trans he
    · rw [set_obj]
      split
      · exact fun _ => rfl
      · exact id
    · rw [set_obj]
      split
      · exact fun _ => nofun
      · exact id
  refine ⟨?_, hsame⟩
  refine ⟨h.made, ?_, ?_, ?_, ?_, ?_, ?_, ?_, ?_, ?_, ?_, ?_, ?_, ?_⟩
  · intro y hy
    rw [set_ne (Nat.ne_of_gt (Nat.lt_of_lt_of_le h.made hy))]
    exact h.fresh y hy
  · intro y
    rw [set_obj]
    split
    · exact h.root 0
    · exact h.root y
  · rw [set_self]
    exact h.creator
  · intro y hy hm
    rw [set_ne hy]
    exact h.parent y hy hm
  · rw [hnext, hn]
    exact holds_none.mpr hl
  · intro y hy _
    rw [hnext]
    refine h.unlinked y hy fun hl' => ?_
    cases (hall y hy hl'.2.1).symm.trans hl'.2.2.2
  · rw [set_self]
    nofun
  · rw [set_self]
    nofun
  · intro y hya
    rw [set_obj] at hya ⊢
    split at hya
    · cases hya
    · rename_i hy
      rw [if_neg hy]
      exact h.body y hya
  · intro y hyb
    rw [set_obj] at hyb ⊢
    split at hyb
    · exact absurd hyb hnb
    · rename_i hy
      rw [if_neg hy]
      exact h.inBody y hyb
  · intro y hy hm hi
    rw [set_ne hy] at hi
    have := hall y hy hm
    rw [hi] at this
    cases this
  · intro _ y hy hm
    rw [set_ne hy]
    exact hall y hy hm
  · rw [set_self]
    nofun

theorem link_obj {p : Option Nat} : (s.link x p).obj y =
    { s.obj y with next := if y = x then p else (s.obj y).next } := by
  rw [link, set_obj]
  split
  · rename_i hy
    rw [hy]
  · rfl

theorem link_next {p : Option Nat} : (s.link x p).next = Function.update s.next x p := set_next

/-- A sibling takes itself out of the list. -/
theorem unlink_obj {np : Nat} (hp : pred s.next x s.made 0 = some np) :
    let t := s.unlink x 0
    t.made = s.made ∧ t.lost = s.lost ∧
      t.next = Function.update (Function.update s.next np (s.next x)) x none ∧
      ∀ y, t.obj y = { s.obj y with
        next := t.next y
        state := if y = x then .finTinyStateStart else (s.obj y).state
        due := if y = 0 ∧ t.next 0 = none then true else (s.obj y).due } := by
  intro t
  let s₁ := (s.link np (s.next x)).link x none
  let s₂ := if s₁.next 0 = none then s₁.wakeup 0 else s₁
  have ht : t = s₂.set x { s₂.obj x with state := .finTinyStateStart } := by
    simp only [t, unlink, hp, s₂, s₁]
  have hn₁ : s₁.next = Function.update (Function.update s.next np (s.next x)) x none := by
    rw [link_next, link_next]
  have hn₂ : s₂.next = s₁.next := by
    simp only [s₂]
    split
    · exact set_next_same rfl
    · rfl
  have hn : t.next = s₁.next := by
    rw [ht, ← hn₂]
    exact set_next_same rfl
  have hob₁ (y : Nat) : s₁.obj y = { s.obj y with next := s₁.next y } := by
    simp only [s₁, link_obj, next]
  have hob₂ (y : Nat) : s₂.obj y = { s₁.obj y with
      due := if y = 0 ∧ s₁.next 0 = none then true else (s₁.obj y).due } := by
    simp only [s₂]
    split
    · rename_i hz
      rw [wakeup, set_obj]
      split
      · rename_i hy
        simp [hy, hz]
      · rename_i hy
        simp [hy]
    · rename_i hz
      simp [hz]
  have hm : s₂.made = s.made ∧ s₂.lost = s.lost := by
    simp only [s₂]
    split <;> exact ⟨rfl, rfl⟩
  refine ⟨?_, ?_, hn.trans hn₁, fun y => ?_⟩
  · rw [ht]
    exact hm.1
  · rw [ht]
    exact hm.2
  · rw [hn, ht, set_obj]
    split
    · rename_i hy
      rw [hy, hob₂, hob₁]
    · rw [hob₂, hob₁]

/-- The loop finds a sibling that is in the list, and takes just that one out. -/
theorem Joined.unlink_list (h : Joined fn s) (hx : s.Listed x) :
    ∃ np l, pred s.next x s.made 0 = some np ∧ Linked s.next (s.next 0) l ∧
      (∀ y, y ∈ l ↔ s.Listed y) ∧
      np ∈ 0 :: l ∧ s.next np = some x ∧ (∀ z, s.next z = some x → z = np) ∧ Linked (Function.update (Function.update s.next np (s.next x)) x none) (some 0)
        (0 :: l.erase x) := by
  obtain ⟨l, hl, hm⟩ := h.list
  have hlen : l.length ≤ s.made := by
    have hsub : l ⊆ List.range s.made := fun y hy => List.mem_range.mpr ((hm y).mp hy).2.1
    simpa using (hl.nodup.subperm hsub).length_le
  obtain ⟨np, hp, hnp, hmem⟩ := hl.pred_found ((hm x).mpr hx) hlen
  have hl0 : Linked s.next (some 0) (0 :: l) := ⟨rfl, hl⟩
  have hne : (0 : Nat) ≠ x := fun he => hx.1 he.symm
  have hu := hl0.unlink (x := x) (w := np) (fun he => hne (Option.some.inj he))
    (fun z hz hnz => hl0.pred_unique hz hmem hnz hnp) hnp
  rw [List.erase_cons_tail (by simpa using hne)] at hu
  refine ⟨np, l, hp, hl, hm, hmem, hnp, fun z hnz => ?_, hu⟩
  have hz : z ∈ 0 :: l := by
    rw [List.mem_cons, hm]
    by_cases hz0 : z = 0
    · exact .inl hz0
    · by_cases hzl : s.Listed z
      · exact .inr hzl
      · cases hnz.symm.trans (h.unlinked z hz0 hzl)
  exact hl0.pred_unique hz hmem hnz hnp

theorem Joined.unlink (h : Joined fn s) (hx : x ≠ 0) (hs : (s.obj x).state = .finStart) :
    Joined fn (s.unlink x 0) ∧ (s.unlink x 0).lost = s.lost ∧ Links s (s.unlink x 0) := by
  have hm : x < s.made := by
    rcases Nat.lt_or_ge x s.made with hlt | hge
    · exact hlt
    · cases hs.symm.trans (h.fresh x hge).1
  have hlx : s.Listed x := ⟨hx, hm, by rw [hs]; nofun, by rw [hs]; rfl⟩
  obtain ⟨np, l, hp, hl, hmem, hnp, hnx, huniq, hu⟩ := h.unlink_list hlx
  obtain ⟨htm, htl, htn, hob⟩ := unlink_obj hp
  set t := s.unlink x 0
  rw [← htn] at hu
  have hx0 : (0 : Nat) ≠ x := Ne.symm hx
  have hst {y : Nat} (hy : y ≠ x) : (t.obj y).state = (s.obj y).state := by
    rw [hob]
    exact if_neg hy
  have hstx : (t.obj x).state = .finTinyStateStart := by
    rw [hob]
    exact if_pos rfl
  have hlist (y : Nat) : t.Listed y ↔ s.Listed y ∧ y ≠ x := by
    by_cases hy : y = x
    · simp [Listed, hy, hstx, ParallelState.ended]
    · simp [Listed, htm, hst hy, hy]
  have hended (y : Nat) (he : (s.obj y).state.ended = true) : (t.obj y).state.ended = true := by
    by_cases hy : y = x
    · rw [hy, hstx]
      rfl
    · rwa [hst hy]
  have hstarted (y : Nat) (hys : (s.obj y).state ≠ .iniStart) : (t.obj y).state ≠ .iniStart := by
    by_cases hy : y = x
    · rw [hy, hstx]
      nofun
    · rwa [hst hy]
  refine ⟨?_, htl, .take hlx (by rw [hstx]; rfl) hnx huniq htn hlist, hended, hstarted⟩
  refine ⟨?_, ?_, ?_, ?_, ?_, ?_, ?_, ?_, ?_, ?_, ?_, ?_, ?_, ?_⟩
  · rw [htm]
    exact h.made
  · rw [htm]
    intro y hy
    rw [hst (by omega), hob]
    exact h.fresh y hy
  · intro y
    rw [hob]
    exact h.root y
  · rw [hob]
    exact h.creator
  · rw [htm]
    intro y hy hlt
    rw [hob]
    exact h.parent y hy hlt
  · refine ⟨l.erase x, hu.2, fun y => ?_⟩
    rw [hl.nodup.mem_erase_iff, hmem, hlist, and_comm]
  · intro y hy hnl
    rw [htn, Function.update_apply]
    split
    · rfl
    · rename_i hyx
      have hnl' : ¬s.Listed y := fun hl' => hnl ((hlist y).mpr ⟨hl', hyx⟩)
      have hynp : y ≠ np := by
        rintro rfl
        exact (List.mem_cons.mp hnp).elim hy fun hyl => hnl' ((hmem y).mp hyl)
      rw [Function.update_of_ne hynp]
      exact h.unlinked y hy hnl'
  · rw [hst hx0]
    intro h0
    have := (h.first h0).1
    omega
  · rw [hst hx0, hob]
    exact h.org
  · intro y hya
    have hy : y ≠ x := fun he => by rw [he, hstx] at hya; cases hya
    rw [hst hy] at hya
    rw [hob]
    exact h.body y hya
  · intro y hyb
    rw [hob] at hyb
    have hya := h.inBody y hyb
    have hy : y ≠ x := fun he => by rw [he, hs] at hya; cases hya
    rw [hst hy]
    exact hya
  · rw [htm]
    intro y hy hlt hi
    have hyx : y ≠ x := fun he => by rw [he, hstx] at hi; cases hi
    rw [hst hyx] at hi
    obtain ⟨v, hv, hvb⟩ := h.spawning y hy hlt hi
    exact ⟨v, by rw [hob]; exact ⟨hv, hvb⟩⟩
  · rw [hst hx0]
    intro hd
    cases (h.ended hd x hx hm).symm.trans (hlx.2.2.2)
  · rw [hst hx0]
    intro h0 hz
    rw [hob]
    exact if_pos ⟨rfl, hz⟩

-- ---------------------------------------------------------------------------
-- Steps
-- ---------------------------------------------------------------------------

theorem Joined.destroyBase (h : Joined fn s) (x : Nat) : Joined fn (s.destroyBase x) := by
  unfold Parallel.destroyBase
  split
  · exact h
  · exact h.agree rfl (set_agree ⟨rfl, rfl, rfl, rfl, rfl, rfl, rfl, rfl, rfl, fun _ => rfl⟩)

theorem Joined.started (h : Joined fn s) (hs : (s.obj x).state ≠ .iniStart) : x < s.made := by
  rcases Nat.lt_or_ge x s.made with hlt | hge
  · exact hlt
  · exact absurd (h.fresh x hge).1 hs

/-- What an observed step says. -/
def Told (fn : Option φ) (s t : Parallel φ) (os : List (ParallelObs φ)) : Prop :=
  (∀ x f, .body x f ∈ os → fn = some f) ∧
    ((returns os = [] ∧ ((t.obj 0).state.ended = true ↔ (s.obj 0).state.ended = true)) ∨
      (returns os = [0] ∧ (s.obj 0).state.ended = false ∧ (t.obj 0).state.ended = true))

theorem Told.silent (h : (t.obj 0).state.ended = (s.obj 0).state.ended) : Told fn s t [] :=
  ⟨nofun, .inl ⟨rfl, by rw [h]⟩⟩

/-- What a step does to the group. -/
structure Kept (fn : Option φ) (s t : Parallel φ) (os : List (ParallelObs φ)) : Prop where
  joined : Joined fn t
  links : Links s t
  lost : t.lost = s.lost
  told : Told fn s t os

@[simp] theorem dropFn_next : (s.dropFn x).next = s.next := set_next_same rfl

@[simp] theorem dropFn_root : ((s.dropFn x).obj x).root = (s.obj x).root := by rw [dropFn, set_self]

theorem dropFn_state : ((s.dropFn x).obj y).state = (s.obj y).state := by
  rw [dropFn, set_obj]
  split
  · rename_i hy
    rw [hy]
  · rfl

theorem unlink_state (hx : x ≠ 0) : ((s.unlink x 0).obj 0).state = (s.obj 0).state := by
  cases hp : pred s.next x s.made 0 with
  | none => simp only [unlink, hp]
  | some np =>
    rw [(unlink_obj hp).2.2.2 0]
    exact if_neg (Ne.symm hx)

theorem finStart_root (hr : (s.obj x).root = x) : s.finStart x =
    if s.next x ≠ none then (s.dropFn x, [])
    else (s.set x { s.obj x with
      fn_ := none
      due := false
      org := none
      state := .finTinyStateStart }, [.ret x]) := by
  unfold Parallel.finStart
  dsimp only
  rw [if_pos (dropFn_root.trans hr), dropFn_next]
  simp only [dropFn, Parallel.set, Function.update_self, Function.update_idem]

theorem finStart_sibling (hr : (s.obj x).root ≠ x) :
    s.finStart x = ((s.dropFn x).unlink x (s.obj x).root, []) := by
  unfold Parallel.finStart
  dsimp only
  rw [dropFn_root, if_neg hr]

theorem Joined.finStart (h : Joined fn s) (hs : (s.obj x).state = .finStart) :
    Kept fn s (s.finStart x).1 (s.finStart x).2 := by
  have hm : x < s.made := h.started (by rw [hs]; nofun)
  by_cases hx : x = 0
  · subst hx
    rw [finStart_root (h.root 0)]
    split
    · rename_i hz
      obtain ⟨hj, hsame⟩ := h.finWait hs hz
      exact ⟨hj, hsame.links, rfl, .silent (by rw [dropFn_state])⟩
    · rename_i hz
      obtain ⟨hj, hsame⟩ := h.finRoot hs (not_not.mp hz)
      refine ⟨hj, hsame.links, rfl, by simp, .inr ⟨rfl, by rw [hs]; rfl, ?_⟩⟩
      rw [set_self]
      rfl
  · rw [finStart_sibling (by rw [h.root]; exact Ne.symm hx), h.root]
    have hp : Private s x { s.obj x with
        fn_ := none
        due := false } := ⟨rfl, rfl, rfl, rfl, hm, by rw [hs]; nofun,
      by rw [hs]; nofun, rfl, fun ha => (by rw [hs] at ha; cases ha), h.inBody x,
      fun _ hc _ hb => ⟨hc, hb⟩, fun h0 => absurd h0 hx⟩
    have h' : Joined fn (s.dropFn x) := h.set hp
    obtain ⟨hj, hl, hk⟩ := h'.unlink hx (dropFn_state.trans hs)
    exact ⟨hj, hk.after hp.same, hl, .silent (by rw [unlink_state hx, dropFn_state])⟩

theorem set_ended (he : w.state.ended = (s.obj x).state.ended) :
    ((s.set x w).obj 0).state.ended = (s.obj 0).state.ended := by
  rw [set_obj]
  split
  · rename_i h0
    rw [he, h0]
  · rfl

theorem Joined.callKept (h : Joined fn s) (ha : (s.obj x).state.act = true)
    (hb : (s.obj x).inBody = false) : Kept fn s (s.call x).1 (s.call x).2 := by
  obtain ⟨hj, hsame⟩ := h.call ha hb
  refine ⟨hj, hsame.links, ?_, ?_⟩
  · unfold Parallel.call
    split <;> rfl
  · unfold Parallel.call
    split
    · exact .silent (set_ended (act_open ha).2.symm)
    · rename_i f hf
      refine ⟨fun y g hg => ?_, .inl ⟨rfl, Bool.eq_iff_iff.mp (set_ended rfl)⟩⟩
      obtain ⟨rfl, rfl⟩ : y = x ∧ g = f := by simpa using hg
      rw [← hf, h.body y ha]

theorem Joined.spawnKept (h : Joined fn s) (hf : s.Free x) (type : Int) :
    Kept fn s (s.spawn x type) [] := by
  obtain ⟨hj, hsame⟩ := h.spawn hf type
  have ht : (s.spawn x type).obj 0 = (s.set x { s.obj x with spawning := some s.made }).obj 0 :=
    set_ne (Nat.ne_of_lt h.made)
  refine ⟨hj, hsame.links, rfl, .silent ?_⟩
  rw [ht]
  exact set_ended rfl

theorem Joined.leaveKept (h : Joined fn s) (hf : s.Free x) (r : BodyEnd) :
    Kept fn s (s.leave x r) [] := by
  obtain ⟨hj, hsame⟩ := h.leave hf r
  have he := (act_open (h.inBody x hf.1)).2
  cases r with
  | stay => exact ⟨hj, hsame.links, rfl, .silent (set_ended rfl)⟩
  | done => exact ⟨hj, hsame.links, rfl, .silent (set_ended he.symm)⟩
  | error => exact ⟨hj, hsame.links, rfl, .silent (set_ended he.symm)⟩

theorem Joined.zom (h : Joined fn s) (hs : (s.obj x).state = .finTinyStateStart) :
    Kept fn s (s.set x { s.obj x with state := .zom }) [] := by
  have hi : (s.obj x).state ≠ .iniStart := by rw [hs]; nofun
  have hp : Private s x { s.obj x with state := .zom } := by
    refine ⟨rfl, rfl, rfl, rfl, h.started hi, hi, nofun, by rw [hs]; rfl, nofun, ?_,
      fun _ hc _ hb => ⟨hc, hb⟩, fun _ => nofun⟩
    intro hb
    have := h.inBody x hb
    rw [hs] at this
    cases this
  exact ⟨h.set hp, hp.same.links, rfl, .silent (set_ended (by rw [hs]; rfl))⟩

/-- A step that writes nothing but flags. -/
theorem Joined.flags (h : Joined fn s) (hm : t.made = s.made)
    (ha : ∀ y, Agree (s.obj y) (t.obj y)) (hl : t.lost = s.lost) : Kept fn s t [] :=
  ⟨h.agree hm ha, (same_of_agree hm ha).links, hl, .silent (by rw [(ha 0).state])⟩

theorem destroyBase_agree (s : Parallel φ) (x y : Nat) :
    Agree (s.obj y) ((s.destroyBase x).obj y) := by
  unfold destroyBase
  split
  · exact .refl _
  · exact set_agree (w := { s.obj x with
      destroyFlag := true
      due := true }) ⟨rfl, rfl, rfl, rfl, rfl, rfl, rfl, rfl, rfl, fun _ => rfl⟩ y

theorem destroyBase_frame : (s.destroyBase x).made = s.made ∧ (s.destroyBase x).lost = s.lost := by
  unfold destroyBase
  split <;> exact ⟨rfl, rfl⟩

theorem Joined.cascade {f : Cascade} {i : Nat} (h : Joined fn s) (ht : s.cascade i f = some t) :
    Kept fn s t [] := by
  unfold Parallel.cascade at ht
  dsimp only at ht
  split at ht
  · cases ht
  · rename_i p nxt hp
    cases ht
    let u := (s.setCascade i (s.advance f)).note p
    have hd := destroyBase_frame (s := u) (x := p)
    exact h.flags hd.1 (destroyBase_agree u p) hd.2
  · cases ht
    split
    · have hd := destroyBase_frame (s := s) (x := 0)
      exact h.flags hd.1 (destroyBase_agree s 0) hd.2
    · exact h.flags rfl (fun _ => .refl _) rfl

theorem Joined.cancel (h : Joined fn s) : Kept fn s s.cancel [] := by
  unfold Parallel.cancel
  split
  · exact h.flags rfl (fun _ => .refl _) rfl
  · exact h.flags rfl (set_agree ⟨rfl, rfl, rfl, rfl, rfl, rfl, rfl, rfl, rfl, id⟩) rfl

theorem Joined.destroy (h : Joined fn s) (x : Nat) : Kept fn s (s.destroy x) [] := by
  unfold Parallel.destroy
  split
  · split <;> exact h.flags rfl (fun _ => .refl _) rfl
  · have hd := destroyBase_frame (s := s) (x := x)
    exact h.flags hd.1 (destroyBase_agree s x) hd.2

/-- Everything the group does keeps it together. -/
theorem Joined.step {a : ParallelAct} {os : List (ParallelObs φ)} (h : Joined fn s)
    (hs : s.step a = some (t, os)) : Kept fn s t os := by
  cases a with
  | iniStart x =>
    obtain ⟨⟨hm, hi⟩, he⟩ := Option.ite_none_right_eq_some.mp hs
    cases he
    by_cases hx : x = 0
    · subst hx
      obtain ⟨hj, hsame, he⟩ := h.iniRoot hi
      exact ⟨hj, hsame.links, iniStart_lost, .silent (by rw [he, hi]; rfl)⟩
    · obtain ⟨hj, hk⟩ := h.iniSibling hx hm hi
      exact ⟨hj, hk.1, iniStart_lost, .silent hk.2⟩
  | call x =>
    obtain ⟨⟨ha, hb⟩, he⟩ := Option.ite_none_right_eq_some.mp hs
    obtain ⟨rfl, rfl⟩ := Prod.ext_iff.mp (Option.some.inj he)
    exact h.callKept ha hb
  | spawn x type =>
    obtain ⟨hf, he⟩ := Option.ite_none_right_eq_some.mp hs
    cases he
    exact h.spawnKept hf type
  | leave x r =>
    obtain ⟨hf, he⟩ := Option.ite_none_right_eq_some.mp hs
    cases he
    exact h.leaveKept hf r
  | finStart x =>
    obtain ⟨hf, he⟩ := Option.ite_none_right_eq_some.mp hs
    obtain ⟨rfl, rfl⟩ := Prod.ext_iff.mp (Option.some.inj he)
    exact h.finStart hf
  | zom x =>
    obtain ⟨hf, he⟩ := Option.ite_none_right_eq_some.mp hs
    cases he
    exact h.zom hf
  | cancel x =>
    obtain ⟨-, he⟩ := Option.ite_none_right_eq_some.mp hs
    cases he
    exact h.cancel
  | destroy x =>
    obtain ⟨-, he⟩ := Option.ite_none_right_eq_some.mp hs
    cases he
    exact h.destroy x
  | cascade i =>
    obtain ⟨f, -, he⟩ := Option.bind_eq_some_iff.mp hs
    obtain ⟨u, hu, he⟩ := Option.map_eq_some_iff.mp he
    cases he
    exact h.cascade hu

-- ---------------------------------------------------------------------------
-- Runs
-- ---------------------------------------------------------------------------

theorem returns_append (tr os : List (ParallelObs φ)) :
    returns (tr ++ os) = returns tr ++ returns os := List.filterMap_append

theorem Joined.initial (type : Int) (fn : Option φ) : Joined fn (initial type fn) := by
  have hl (x : Nat) : ¬(Parallel.initial type fn).Listed x := fun h => h.2.2.1 rfl
  exact ⟨Nat.one_pos, fun _ _ => ⟨rfl, rfl, rfl⟩, fun _ => rfl, rfl,
    fun x hx hm => absurd (Nat.lt_one_iff.mp hm) hx, holds_none.mpr hl, fun _ _ _ => rfl,
    fun _ => ⟨rfl, rfl, rfl⟩, fun hs => absurd rfl hs, fun _ => nofun, fun _ => nofun,
    fun x hx hm => absurd (Nat.lt_one_iff.mp hm) hx, nofun, nofun⟩

theorem run_joined {type : Int} (h : (machine type fn).Run tr s) :
    Joined fn s ∧ s.lost = false ∧ (∀ x f, .body x f ∈ tr → fn = some f) ∧
      returns tr = if (s.obj 0).state.ended then [0] else [] := by
  refine h.invariant (I := fun tr s => Joined fn s ∧ s.lost = false ∧
    (∀ x f, .body x f ∈ tr → fn = some f) ∧
      returns tr = if (s.obj 0).state.ended then [0] else []) ?_ ?_
  · rintro _ rfl
    exact ⟨.initial type fn, rfl, nofun, rfl⟩
  · rintro tr s a t os - ⟨hj, hl, hb, hr⟩ - hs
    obtain ⟨hj', -, hl', hb', ht⟩ := hj.step hs
    refine ⟨hj', hl'.trans hl, fun x f hf => ?_, ?_⟩
    · exact (List.mem_append.mp hf).elim (hb x f) (hb' x f)
    · rw [returns_append, hr]
      rcases ht with ⟨ho, he⟩ | ⟨ho, hs', ht'⟩
      · rw [ho, List.append_nil, Bool.eq_iff_iff.mpr he]
      · rw [ho, hs', ht']
        rfl

/-- **The join.** Whatever is spawned and in whichever order it finishes: the list
of the root holds the siblings that have been put into it and have not finished,
nobody runs off it, every body is the root's, and the creator is told once, when
the root and all siblings are through, and not before. A root that waits with no
sibling left is going to look again. -/
theorem parallel_law {type : Int} (h : (machine type fn).Run tr s) :
    s.lost = false ∧ Holds s.next (s.next 0) s.Listed ∧
      (∀ x, (s.obj x).state.act = true → (s.obj x).fn_ = fn) ∧
      (∀ x f, .body x f ∈ tr → fn = some f) ∧
      returns tr = (if (s.obj 0).state.ended then [0] else []) ∧
      ((s.obj 0).state.ended = true → s.AllEnded) ∧
      ((s.obj 0).state = .finStart → s.AllEnded → (s.obj 0).due = true) := by
  obtain ⟨hj, hl, hb, hr⟩ := run_joined h
  refine ⟨hl, hj.list, hj.body, hb, hr, hj.ended, fun hs hall => hj.due hs ?_⟩
  -- nobody is in the list any more
  cases hn : s.next 0 with
  | none => rfl
  | some y =>
    have hy : s.Listed y := by
      have hlist := hj.list
      rw [hn] at hlist
      exact hlist.head
    cases (hall y hy.1 hy.2.1).symm.trans hy.2.2.2

/-- The root spawns two siblings and is through; one of them spawns a third; they
finish in the order they came. -/
theorem parallel_law_three : ∃ tr s, (machine 0 (some 7)).Run tr s ∧
    ((s.obj 0).state = .finTinyStateStart ∧ s.made = 4) ∧
    s.lost = false ∧ Holds s.next (s.next 0) s.Listed ∧
      (∀ x, (s.obj x).state.act = true → (s.obj x).fn_ = some 7) ∧
      (∀ x f, .body x f ∈ tr → some 7 = some f) ∧
      returns tr = (if (s.obj 0).state.ended then [0] else []) ∧
      ((s.obj 0).state.ended = true → s.AllEnded) ∧
      ((s.obj 0).state = .finStart → s.AllEnded → (s.obj 0).due = true) := by
  obtain ⟨tr, s, h, hp⟩ := Machine.exists_run (M := machine 0 (some 7)) (C := fun _ _ => True)
    (P := fun _ s => (s.obj 0).state = .finTinyStateStart ∧ s.made = 4)
    [.iniStart 0, .call 0, .spawn 0 (-1), .iniStart 1, .call 1, .spawn 0 1, .iniStart 2,
      .leave 0 .done, .finStart 0, .call 2, .spawn 2 (-1), .iniStart 3, .call 3, .leave 1 .done,
      .finStart 1, .leave 2 .done, .leave 3 .done, .finStart 2, .finStart 3, .finStart 0] rfl
    (by decide +kernel)
  exact ⟨tr, s, h, hp, parallel_law h⟩

end Parallel

end TinyState
