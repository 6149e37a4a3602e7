import TinyState.Lib.Machine
import TinyState.Lib.ImplicitHeap

/-!
# sHalfArray

A heap in an array that belongs to the caller. An element that is put into the place of a
deleted one goes down where it is greater than a child, and never up: in a place other than
the top it may be less than what is above it.
-/

namespace TinyState

open Transition ImplicitHeap

/-- `sHalfArray`; `ary` is what lies from the pointer on, `len` slots of which are the array. -/
structure HalfArray (α : Type) where
  ary : Nat → α
  len : Nat
  effectiveLength : Nat

namespace HalfArray

/-- The comparison is a total preorder. -/
structure TotalPreorder {α : Type} (cmp : α → α → Int) : Prop where
  total : ∀ a b, cmp a b ≤ 0 ∨ cmp b a ≤ 0
  trans : ∀ {a b c}, cmp a b ≤ 0 → cmp b c ≤ 0 → cmp a c ≤ 0

/-- `a` is not greater than `b`. -/
def Le {α : Type} (cmp : α → α → Int) (a b : α) : Prop := cmp a b ≤ 0

namespace TotalPreorder

variable {α : Type} {cmp : α → α → Int} {a b c : α}

theorem le_of_not (hp : TotalPreorder cmp) (h : ¬ cmp a b ≤ 0) : Le cmp b a :=
  (hp.total a b).resolve_left h

theorem refl (hp : TotalPreorder cmp) (a : α) : Le cmp a a := (hp.total a a).elim id id

theorem le_trans (hp : TotalPreorder cmp) (hab : Le cmp a b) (hbc : Le cmp b c) : Le cmp a c :=
  hp.trans hab hbc

end TotalPreorder

variable {α : Type}

section

variable (cmp : α → α → Int)

/-- The loop of `ins`. -/
def upLoop (ary : Nat → α) (i : Nat) : Nat → α :=
  if 1 ≤ i then
    let j := (i - 1) / 2
    if cmp (ary j) (ary i) ≤ 0 then ary else upLoop (swap ary j i) j
  else ary
termination_by i

def ins (s : HalfArray α) : Int × HalfArray α :=
  let s := { s with effectiveLength := s.effectiveLength + 1 }
  if s.effectiveLength = 1 then (0, s)
  else if s.len < s.effectiveLength then (-1, { s with effectiveLength := s.len })
  else (0, { s with ary := upLoop cmp s.ary (s.effectiveLength - 1) })

/-- The loop of `del`. -/
def downLoop (effectiveLength : Nat) (ary : Nat → α) (ptr : Nat) : Nat → α :=
  let up1 := ptr * 2 + 1
  let up2 := ptr * 2 + 2
  if effectiveLength ≤ up1 then ary
  else if effectiveLength ≤ up2 then
    if 0 < cmp (ary ptr) (ary up1) then downLoop effectiveLength (swap ary ptr up1) up1 else ary
  else if cmp (ary ptr) (ary up1) ≤ 0 then
    if 0 < cmp (ary ptr) (ary up2) then downLoop effectiveLength (swap ary ptr up2) up2 else ary
  else if 0 < cmp (ary up1) (ary up2) then downLoop effectiveLength (swap ary ptr up2) up2
  else downLoop effectiveLength (swap ary ptr up1) up1
termination_by effectiveLength - ptr

def del (s : HalfArray α) (ptr : Int) : Int × HalfArray α :=
  if ptr < 0 then (-1, s)
  else if s.effectiveLength ≤ ptr then (-1, s)
  else if ptr = s.effectiveLength - 1 then
    (0, { s with effectiveLength := s.effectiveLength - 1 })
  else
    let ary := Function.update s.ary ptr.toNat (s.ary (s.effectiveLength - 1))
    let effectiveLength := s.effectiveLength - 1
    (0, { s with ary := downLoop cmp effectiveLength ary ptr.toNat, effectiveLength })

end

def length (s : HalfArray α) : Nat := s.effectiveLength

/-- The first `length()` slots. -/
def slots (s : HalfArray α) : List α := contents s.length s.ary

/-- The top is taken and deleted, `n` times. -/
def drain (cmp : α → α → Int) : Nat → HalfArray α → List α
  | 0, _ => []
  | n + 1, s => s.ary 0 :: drain cmp n (s.del cmp 0).2

-- ---------------------------------------------------------------------------
-- The loops
-- ---------------------------------------------------------------------------

variable {cmp : α → α → Int} {s t : HalfArray α} {n i ptr : Nat} {a : Nat → α}

theorem upLoop_perm (hi : i < n) : (contents n (upLoop cmp a i)).Perm (contents n a) := by
  induction a, i using upLoop.induct cmp with
  | case1 a i h1 j hle =>
    rw [upLoop, if_pos h1, if_pos hle]
  | case2 a i h1 j hgt ih =>
    have hj : j < n := Nat.lt_trans (parent_lt h1) hi
    rw [upLoop, if_pos h1, if_neg hgt]
    exact (ih hj).trans (contents_swap hj hi)
  | case3 a i h1 => rw [upLoop, if_neg h1]

theorem upLoop_ordered (hp : TotalPreorder cmp) (hi : i < n) (h : UpReady (Le cmp) n a i) :
    Ordered (Le cmp) n (upLoop cmp a i) := by
  induction a, i using upLoop.induct cmp with
  | case1 a i h1 j hle =>
    rw [upLoop, if_pos h1, if_pos hle]
    exact h.ordered fun _ => hle
  | case2 a i h1 j hgt ih =>
    rw [upLoop, if_pos h1, if_neg hgt]
    exact ih (Nat.lt_trans (parent_lt h1) hi) (h.swap hp.le_trans h1 hi (hp.le_of_not hgt))
  | case3 a i h1 =>
    rw [upLoop, if_neg h1]
    exact h.ordered fun h0 => absurd h0 h1

theorem downLoop_perm (hi : ptr < n) : (contents n (downLoop cmp n a ptr)).Perm (contents n a) := by
  induction a, ptr using downLoop.induct cmp n with
  | case1 a ptr up1 h1 => rw [downLoop, if_pos h1]
  | case2 a ptr up1 up2 h1 h2 hgt ih =>
    have hu : up1 < n := Nat.lt_of_not_le h1
    rw [downLoop, if_neg h1, if_pos h2, if_pos hgt]
    exact (ih hu).trans (contents_swap hi hu)
  | case3 a ptr up1 up2 h1 h2 hle => rw [downLoop, if_neg h1, if_pos h2, if_neg hle]
  | case4 a ptr up1 up2 h1 h2 hle hgt ih =>
    have hu : up2 < n := Nat.lt_of_not_le h2
    rw [downLoop, if_neg h1, if_neg h2, if_pos hle, if_pos hgt]
    exact (ih hu).trans (contents_swap hi hu)
  | case5 a ptr up1 up2 h1 h2 hle hle' =>
    rw [downLoop, if_neg h1, if_neg h2, if_pos hle, if_neg hle']
  | case6 a ptr up1 up2 h1 h2 hgt hgt' ih =>
    have hu : up2 < n := Nat.lt_of_not_le h2
    rw [downLoop, if_neg h1, if_neg h2, if_neg hgt, if_pos hgt']
    exact (ih hu).trans (contents_swap hi hu)
  | case7 a ptr up1 up2 h1 h2 hgt hle ih =>
    have hu : up1 < n := Nat.lt_of_not_le h1
    rw [downLoop, if_neg h1, if_neg h2, if_neg hgt, if_neg hle]
    exact (ih hu).trans (contents_swap hi hu)

/-- The children of a slot, where there are any. -/
theorem forall_children {P : Nat → Prop} (h1 : ptr * 2 + 1 < n → P (ptr * 2 + 1))
    (h2 : ptr * 2 + 2 < n → P (ptr * 2 + 2)) :
    ∀ j, 0 < j → j < n → parent j = ptr → P j := by
  intro j hj hjn he
  rcases (parent_eq hj).mp he with rfl | rfl
  · exact Nat.mul_comm 2 ptr ▸ h1 (by omega)
  · exact Nat.mul_comm 2 ptr ▸ h2 (by omega)

theorem parent_up1 (ptr : Nat) : parent (ptr * 2 + 1) = ptr := by
  unfold parent
  omega

theorem parent_up2 (ptr : Nat) : parent (ptr * 2 + 2) = ptr := by
  unfold parent
  omega

theorem downLoop_ordered (hp : TotalPreorder cmp) (h : DownReady (Le cmp) n a ptr) :
    Ordered (Le cmp) n (downLoop cmp n a ptr) := by
  induction a, ptr using downLoop.induct cmp n with
  | case1 a ptr up1 h1 =>
    rw [downLoop, if_pos h1]
    exact h.ordered (forall_children (fun hu => absurd hu (Nat.not_lt.mpr h1))
      fun hu => absurd h1 (by omega))
  | case2 a ptr up1 up2 h1 h2 hgt ih =>
    rw [downLoop, if_neg h1, if_pos h2, if_pos hgt]
    refine ih (h.swap (Nat.succ_pos _) (Nat.lt_of_not_le h1) (parent_up1 ptr)
      (hp.le_of_not (Int.not_le.mpr hgt)) ?_)
    exact forall_children (fun _ => hp.refl _) fun hu => absurd hu (Nat.not_lt.mpr h2)
  | case3 a ptr up1 up2 h1 h2 hle =>
    rw [downLoop, if_neg h1, if_pos h2, if_neg hle]
    exact h.ordered (forall_children (fun _ => Int.not_lt.mp hle)
      fun hu => absurd hu (Nat.not_lt.mpr h2))
  | case4 a ptr up1 up2 h1 h2 hle hgt ih =>
    rw [downLoop, if_neg h1, if_neg h2, if_pos hle, if_pos hgt]
    have hu2 : Le cmp (a up2) (a ptr) := hp.le_of_not (Int.not_le.mpr hgt)
    refine ih (h.swap (Nat.succ_pos _) (Nat.lt_of_not_le h2) (parent_up2 ptr) hu2 ?_)
    exact forall_children (fun _ => hp.le_trans hu2 hle) fun _ => hp.refl _
  | case5 a ptr up1 up2 h1 h2 hle hle' =>
    rw [downLoop, if_neg h1, if_neg h2, if_pos hle, if_neg hle']
    exact h.ordered (forall_children (fun _ => hle) fun _ => Int.not_lt.mp hle')
  | case6 a ptr up1 up2 h1 h2 hgt hgt' ih =>
    rw [downLoop, if_neg h1, if_neg h2, if_neg hgt, if_pos hgt']
    have hu1 : Le cmp (a up1) (a ptr) := hp.le_of_not hgt
    have hu2 : Le cmp (a up2) (a up1) := hp.le_of_not (Int.not_le.mpr hgt')
    refine ih (h.swap (Nat.succ_pos _) (Nat.lt_of_not_le h2) (parent_up2 ptr)
      (hp.le_trans hu2 hu1) ?_)
    exact forall_children (fun _ => hu2) fun _ => hp.refl _
  | case7 a ptr up1 up2 h1 h2 hgt hle ih =>
    rw [downLoop, if_neg h1, if_neg h2, if_neg hgt, if_neg hle]
    refine ih (h.swap (Nat.succ_pos _) (Nat.lt_of_not_le h1) (parent_up1 ptr)
      (hp.le_of_not hgt) ?_)
    exact forall_children (fun _ => hp.refl _) fun _ => Int.not_lt.mp hle

/-- An element that is not greater than what is below it stays where it is. -/
theorem downLoop_stays (h : ∀ j, 0 < j → j < n → parent j = ptr → Le cmp (a ptr) (a j)) :
    downLoop cmp n a ptr = a := by
  rw [downLoop]
  split_ifs with h1 h2 hgt hle hgt hgt
  · rfl
  · exact absurd (h _ (Nat.succ_pos _) (Nat.lt_of_not_le h1) (parent_up1 ptr)) (Int.not_le.mpr hgt)
  · rfl
  · exact absurd (h _ (Nat.succ_pos _) (Nat.lt_of_not_le h2) (parent_up2 ptr)) (Int.not_le.mpr hgt)
  · rfl
  all_goals exact absurd (h _ (Nat.succ_pos _) (Nat.lt_of_not_le h1) (parent_up1 ptr)) hle

-- ---------------------------------------------------------------------------
-- The calls
-- ---------------------------------------------------------------------------

/-- The state is a heap, in the array. -/
structure Heap (cmp : α → α → Int) (s : HalfArray α) : Prop where
  fits : s.length ≤ s.len
  ordered : Ordered (Le cmp) s.length s.ary

/-- The last element is not less than what is above the place that it comes to. -/
def Covered (cmp : α → α → Int) (s : HalfArray α) (ptr : Int) : Prop :=
  0 < ptr → ptr < (s.effectiveLength : Int) - 1 →
    cmp (s.ary ((ptr.toNat - 1) / 2)) (s.ary (s.effectiveLength - 1)) ≤ 0

/-- What one `ins` does: the array is full, or its next slot is taken in. -/
theorem ins_cases (cmp : α → α → Int) (hlen : 0 < s.len) (hf : s.length ≤ s.len) :
    (s.length = s.len ∧ s.ins cmp = (-1, s)) ∨
      (s.length < s.len ∧ (s.ins cmp).1 = 0 ∧ (s.ins cmp).2.len = s.len ∧
        (s.ins cmp).2.length = s.length + 1 ∧
        (s.ins cmp).2.ary = upLoop cmp s.ary s.length) := by
  unfold length at *
  by_cases hfull : s.effectiveLength = s.len
  · refine .inl ⟨hfull, ?_⟩
    simp only [ins]
    rw [if_neg (by omega), if_pos (by omega)]
    obtain ⟨ary, len, n⟩ := s
    obtain rfl : n = len := hfull
    rfl
  · refine .inr ⟨by omega, ?_⟩
    simp only [ins]
    split_ifs with h0 hgt
    · obtain h0 : s.effectiveLength = 0 := Nat.succ.inj h0
      refine ⟨rfl, rfl, rfl, ?_⟩
      rw [h0, upLoop, if_neg (by omega)]
    · omega
    · exact ⟨rfl, rfl, rfl, rfl⟩

theorem Heap.ins (hp : TotalPreorder cmp) (h : Heap cmp s) (hlen : 0 < s.len) :
    Heap cmp (s.ins cmp).2 := by
  rcases ins_cases cmp hlen h.fits with ⟨-, he⟩ | ⟨hlt, -, hl, hn, ha⟩
  · rw [he]
    exact h
  · refine ⟨by rw [hn, hl]; exact hlt, ?_⟩
    rw [hn, ha]
    exact upLoop_ordered hp (Nat.lt_succ_self _) h.ordered.upReady

theorem slots_ins (hlen : 0 < s.len) (hf : s.length ≤ s.len) (h : (s.ins cmp).1 = 0) :
    (s.ins cmp).2.slots.Perm (s.ary s.length :: s.slots) := by
  rcases ins_cases cmp hlen hf with ⟨-, he⟩ | ⟨hlt, -, hl, hn, ha⟩
  · rw [he] at h
    cases h
  · rw [slots, hn, ha]
    refine (upLoop_perm (Nat.lt_succ_self _)).trans ?_
    rw [contents_succ]
    exact List.perm_append_comm

/-- What one `del` does: nothing, or an element is taken out. -/
theorem del_cases (cmp : α → α → Int) (s : HalfArray α) (ptr : Int) :
    ((ptr < 0 ∨ s.length ≤ ptr) ∧ s.del cmp ptr = (-1, s)) ∨
      ∃ i n : Nat, ptr = i ∧ s.length = n + 1 ∧ i ≤ n ∧ (s.del cmp ptr).1 = 0 ∧
        (s.del cmp ptr).2.len = s.len ∧ (s.del cmp ptr).2.length = n ∧
        (s.del cmp ptr).2.ary =
          if i = n then s.ary else downLoop cmp n (Function.update s.ary i (s.ary n)) i := by
  unfold length
  by_cases hneg : ptr < 0
  · exact .inl ⟨.inl hneg, if_pos hneg⟩
  by_cases hge : s.effectiveLength ≤ ptr
  · exact .inl ⟨.inr hge, by rw [del, if_neg hneg, if_pos hge]⟩
  · obtain ⟨i, rfl⟩ := Int.eq_ofNat_of_zero_le (Int.not_lt.mp hneg)
    obtain ⟨n, hn⟩ : ∃ n, s.effectiveLength = n + 1 :=
      Nat.exists_eq_add_one_of_ne_zero (by omega)
    have hin : i ≤ n := by omega
    refine .inr ⟨i, n, rfl, hn, hin, ?_⟩
    rw [del, if_neg hneg, if_neg hge]
    by_cases hi : i = n
    · rw [if_pos (by omega), if_pos hi]
      exact ⟨rfl, rfl, by simp [hn], rfl⟩
    · rw [if_neg (by omega), if_neg hi]
      simp [hn]

/-- A `del` keeps the heap if and only if the last element is not less than what is above it
in its new place. -/
theorem heap_del (hp : TotalPreorder cmp) (h : Heap cmp s) (ptr : Int) :
    Heap cmp (s.del cmp ptr).2 ↔ Covered cmp s ptr := by
  rcases del_cases cmp s ptr with ⟨hout, he⟩ | ⟨i, n, rfl, hl, hin, -, hlen, hn, ha⟩
  · rw [he]
    refine iff_of_true h fun h0 hlt => ?_
    unfold length at hout
    omega
  · have hfit := h.fits
    have hord := h.ordered
    rw [hl] at hfit hord
    have hmono : Ordered (Le cmp) n s.ary := hord.mono (Nat.le_succ n)
    have hcov : Covered cmp s i ↔ (0 < i → i < n → Le cmp (s.ary (parent i)) (s.ary n)) := by
      unfold length at hl
      unfold Covered
      rw [hl]
      refine ⟨fun hc h0 hlt => hc (by omega) (by omega), fun hc h0 hlt => hc (by omega) (by omega)⟩
    rw [hcov]
    constructor
    · intro hd h0 hlt
      by_contra hnot
      have hord' := hd.ordered
      rw [hn, ha, if_neg (Nat.ne_of_lt hlt)] at hord'
      -- the element is less than its parent, and so than all below it
      have hle : Le cmp (s.ary n) (s.ary (parent i)) := hp.le_of_not hnot
      have hstay : downLoop cmp n (Function.update s.ary i (s.ary n)) i =
          Function.update s.ary i (s.ary n) := by
        refine downLoop_stays fun j hj hjn he => ?_
        have hij : i < j := he ▸ parent_lt hj
        rw [Function.update_self, Function.update_of_ne (Nat.ne_of_gt hij)]
        exact hp.le_trans hle (hp.le_trans (hmono i h0 hlt) (he ▸ hmono j hj hjn))
      rw [hstay] at hord'
      have hedge := hord' i h0 hlt
      rw [Function.update_self, Function.update_of_ne (Nat.ne_of_lt (parent_lt h0))] at hedge
      exact hnot hedge
    · intro hc
      refine ⟨by rw [hn, hlen]; omega, ?_⟩
      rw [hn, ha]
      split
      · exact hmono
      · next hne =>
        have hlt : i < n := Nat.lt_of_le_of_ne hin hne
        exact downLoop_ordered hp (hmono.downReady hp.le_trans hlt fun h0 => hc h0 hlt)

theorem slots_del (h : (s.del cmp (i : Int)).1 = 0) :
    s.slots.Perm (s.ary i :: (s.del cmp (i : Int)).2.slots) := by
  rcases del_cases cmp s i with ⟨-, he⟩ | ⟨j, n, hj, hl, hin, -, -, hn, ha⟩
  · rw [he] at h
    cases h
  · obtain rfl : i = j := Int.ofNat.inj hj
    rw [slots, slots, hn, ha, hl]
    split
    · next he =>
      subst he
      rw [contents_succ]
      exact List.perm_append_comm
    · next hne =>
      have hlt : i < n := Nat.lt_of_le_of_ne hin hne
      exact (contents_move hlt).trans ((downLoop_perm hlt).symm.cons _)

/-- Taking the top again and again gives what is in the heap, in ascending order. -/
theorem drain_spec (hp : TotalPreorder cmp) (h : Heap cmp s) (hn : s.length = n) :
    (drain cmp n s).Perm s.slots ∧ (drain cmp n s).Pairwise (Le cmp) := by
  induction n generalizing s with
  | zero =>
    rw [slots, hn]
    exact ⟨.refl _, .nil⟩
  | succ n ih =>
    have hd : (s.del cmp ((0 : Nat) : Int)).1 = 0 ∧ (s.del cmp ((0 : Nat) : Int)).2.length = n := by
      rcases del_cases cmp s ((0 : Nat) : Int) with ⟨hout, -⟩ | ⟨i, m, -, hl, -, hr, -, hm, -⟩
      · omega
      · exact ⟨hr, by omega⟩
    have hh : Heap cmp (s.del cmp ((0 : Nat) : Int)).2 :=
      (heap_del hp h _).mpr fun h0 => absurd h0 (Int.lt_irrefl 0)
    obtain ⟨hperm, hasc⟩ := ih hh hd.2
    have hall : s.slots.Perm (s.ary 0 :: (s.del cmp ((0 : Nat) : Int)).2.slots) := slots_del hd.1
    refine ⟨(hperm.cons _).trans hall.symm, .cons (fun x hx => ?_) hasc⟩
    have hx : x ∈ s.slots := hall.mem_iff.mpr (List.mem_cons_of_mem _ (hperm.mem_iff.mp hx))
    obtain ⟨i, hi, rfl⟩ := mem_contents.mp hx
    exact h.ordered.top_le hp.refl hp.le_trans hi

-- ---------------------------------------------------------------------------
-- Runs
-- ---------------------------------------------------------------------------

/-- `put` is the caller's: it fills a slot that has not been taken in. -/
inductive HalfArrayAct (α : Type)
  | put (i : Nat) (x : α)
  | ins
  | del (ptr : Int)

inductive HalfArrayObs (α : Type)
  | inserted (x : α)
  | deleted (x : α)
  | refused

def step (cmp : α → α → Int) (s : HalfArray α) :
    HalfArrayAct α → Option (HalfArray α × List (HalfArrayObs α))
  | .put i x =>
    if s.effectiveLength ≤ i ∧ i < s.len then some ({ s with ary := Function.update s.ary i x }, [])
    else none
  | .ins =>
    some ((s.ins cmp).2, [if (s.ins cmp).1 = 0 then .inserted (s.ary s.length) else .refused])
  | .del ptr =>
    some ((s.del cmp ptr).2,
      [if (s.del cmp ptr).1 = 0 then .deleted (s.ary ptr.toNat) else .refused])

def machine (cmp : α → α → Int) : Machine (HalfArray α) (HalfArrayAct α) (HalfArrayObs α) where
  init s := s.effectiveLength = 0
  step := step cmp

def inserted (tr : List (HalfArrayObs α)) : List α :=
  tr.filterMap fun | .inserted x => some x | _ => none

def deleted (tr : List (HalfArrayObs α)) : List α :=
  tr.filterMap fun | .deleted x => some x | _ => none

/-- There is a slot to take in, and what fills a hole is not less than what is above it. -/
def Kept (cmp : α → α → Int) (s : HalfArray α) : HalfArrayAct α → Prop
  | .put .. => True
  | .ins => 0 < s.len
  | .del ptr => Covered cmp s ptr

instance (cmp : α → α → Int) (s : HalfArray α) (a : HalfArrayAct α) : Decidable (Kept cmp s a) := by
  unfold Kept Covered
  split <;> infer_instance

/-- The array holds what has been inserted and not deleted, as a heap. -/
structure HalfArrayLaw (cmp : α → α → Int) (tr : List (HalfArrayObs α)) (s : HalfArray α) :
    Prop where
  fits : s.length ≤ s.len
  holds : (inserted tr).Perm (deleted tr ++ s.slots)
  children : ∀ i j, j = 2 * i + 1 ∨ j = 2 * i + 2 → j < s.length → cmp (s.ary i) (s.ary j) ≤ 0
  top : ∀ x ∈ s.slots, cmp (s.ary 0) x ≤ 0
  drained : (drain cmp s.length s).Perm s.slots
  ascending : (drain cmp s.length s).Pairwise fun x y => cmp x y ≤ 0

variable {tr os : List (HalfArrayObs α)} {act : HalfArrayAct α}

theorem inserted_append : inserted (tr ++ os) = inserted tr ++ inserted os := List.filterMap_append

theorem deleted_append : deleted (tr ++ os) = deleted tr ++ deleted os := List.filterMap_append

/-- What has been inserted is what has been deleted and what is there. -/
def Holds (tr : List (HalfArrayObs α)) (s : HalfArray α) : Prop :=
  (inserted tr).Perm (deleted tr ++ s.slots)

theorem Holds.refused (h : Holds tr s) : Holds (tr ++ [HalfArrayObs.refused]) s := by
  unfold Holds
  rw [inserted_append, deleted_append]
  change (inserted tr ++ []).Perm (deleted tr ++ [] ++ s.slots)
  rwa [List.append_nil, List.append_nil]

theorem Holds.inserted {x : α} (h : Holds tr s) (hs : t.slots.Perm (x :: s.slots)) :
    Holds (tr ++ [HalfArrayObs.inserted x]) t := by
  unfold Holds at *
  rw [inserted_append, deleted_append]
  change (HalfArray.inserted tr ++ [x]).Perm (deleted tr ++ [] ++ t.slots)
  rw [List.append_nil]
  calc List.Perm _ (x :: HalfArray.inserted tr) := List.perm_append_comm
    List.Perm _ (x :: (deleted tr ++ s.slots)) := h.cons x
    List.Perm _ (deleted tr ++ x :: s.slots) := List.perm_middle.symm
    List.Perm _ _ := hs.symm.append_left _

theorem Holds.deleted {x : α} (h : Holds tr s) (hs : s.slots.Perm (x :: t.slots)) :
    Holds (tr ++ [HalfArrayObs.deleted x]) t := by
  unfold Holds at *
  rw [inserted_append, deleted_append]
  change (HalfArray.inserted tr ++ []).Perm (HalfArray.deleted tr ++ [x] ++ t.slots)
  rw [List.append_nil, List.append_assoc]
  exact h.trans (hs.append_left _)

theorem Holds.step (h : Holds tr s) (hf : s.length ≤ s.len) (hlen : act = .ins → 0 < s.len)
    (hs : s.step cmp act = some (t, os)) : Holds (tr ++ os) t := by
  cases act with
  | put i x =>
    obtain ⟨hi, he⟩ := Option.ite_none_right_eq_some.mp hs
    obtain ⟨rfl, rfl⟩ := Prod.ext_iff.mp (Option.some.inj he)
    have hsl : slots { s with ary := Function.update s.ary i x } = s.slots :=
      contents_congr fun j hj =>
        Function.update_of_ne (Nat.ne_of_lt (Nat.lt_of_lt_of_le hj hi.1)) ..
    rw [List.append_nil]
    unfold Holds
    rwa [hsl]
  | ins =>
    obtain ⟨rfl, rfl⟩ := Prod.ext_iff.mp (Option.some.inj hs)
    split
    · next h0 => exact h.inserted (slots_ins (hlen rfl) hf h0)
    · next h0 =>
      rcases ins_cases cmp (hlen rfl) hf with ⟨-, he⟩ | ⟨-, hr, -⟩
      · rw [he]
        exact h.refused
      · exact absurd hr h0
  | del ptr =>
    obtain ⟨rfl, rfl⟩ := Prod.ext_iff.mp (Option.some.inj hs)
    rcases del_cases cmp s ptr with ⟨-, he⟩ | ⟨i, n, rfl, -, -, hr, -⟩
    · rw [he]
      exact h.refused
    · rw [if_pos hr]
      exact h.deleted (slots_del hr)

theorem Heap.law (hp : TotalPreorder cmp) (h : Heap cmp s) (hh : Holds tr s) :
    HalfArrayLaw cmp tr s := by
  obtain ⟨hperm, hasc⟩ := drain_spec hp h rfl
  refine ⟨h.fits, hh, fun i j hj hlt => ?_, fun x hx => ?_, hperm, hasc⟩
  · have h0 : 0 < j := by omega
    have he : parent j = i := (parent_eq h0).mpr hj
    exact he ▸ h.ordered j h0 hlt
  · obtain ⟨i, hi, rfl⟩ := mem_contents.mp hx
    exact h.ordered.top_le hp.refl hp.le_trans hi

theorem HalfArrayLaw.heap (h : HalfArrayLaw cmp tr s) : Heap cmp s :=
  ⟨h.fits, fun j hj hlt => h.children (parent j) j ((parent_eq hj).mp rfl) hlt⟩

/-- A step from a heap leads to a heap if and only if it is one of those that should. -/
theorem heap_step (hp : TotalPreorder cmp) (h : Heap cmp s)
    (hs : s.step cmp act = some (t, os)) : Heap cmp t ↔ Kept cmp s act := by
  cases act with
  | put i x =>
    obtain ⟨hi, he⟩ := Option.ite_none_right_eq_some.mp hs
    obtain ⟨rfl, rfl⟩ := Prod.ext_iff.mp (Option.some.inj he)
    refine iff_of_true ⟨h.fits, h.ordered.congr fun j hj => ?_⟩ trivial
    exact Function.update_of_ne (Nat.ne_of_lt (Nat.lt_of_lt_of_le hj hi.1)) ..
  | ins =>
    obtain ⟨rfl, rfl⟩ := Prod.ext_iff.mp (Option.some.inj hs)
    refine ⟨fun ht => ?_, h.ins hp⟩
    -- without a slot the first `ins` is counted all the same
    have hf := ht.fits
    have hl := h.fits
    change 0 < s.len
    by_contra h0
    have h0 : s.len = 0 := by omega
    have he : s.effectiveLength = 0 := by
      unfold length at hl
      omega
    simp [ins, length, he, h0] at hf
  | del ptr =>
    obtain ⟨rfl, rfl⟩ := Prod.ext_iff.mp (Option.some.inj hs)
    exact heap_del hp h ptr

theorem run_heap (hp : TotalPreorder cmp) (hr : (machine cmp).RunIf (Kept cmp) tr s) :
    Heap cmp s ∧ Holds tr s := by
  refine hr.invariant (I := fun tr s => Heap cmp s ∧ Holds tr s) (fun s hi => ?_) ?_
  · change s.effectiveLength = 0 at hi
    have hl : s.length = 0 := hi
    refine ⟨⟨by omega, fun j hj hlt => by omega⟩, ?_⟩
    unfold Holds slots
    rw [hl]
    exact .refl _
  · rintro tr s a t os - ⟨hh, ho⟩ hk hs
    refine ⟨(heap_step hp hh hs).mpr hk, ho.step hh.fits (fun ha => ?_) hs⟩
    subst ha
    exact hk

/-- As long as every step is one that should keep the heap, the array is the heap of what has
been inserted and not deleted; the first other step makes it something else. -/
theorem halfArray_law (hp : TotalPreorder cmp) (hr : (machine cmp).RunIf (Kept cmp) tr s) :
    HalfArrayLaw cmp tr s ∧ ∀ act t os, s.step cmp act = some (t, os) →
      (HalfArrayLaw cmp (tr ++ os) t ↔ Kept cmp s act) := by
  obtain ⟨hh, ho⟩ := run_heap hp hr
  refine ⟨hh.law hp ho, fun act t os hs =>
    ⟨fun hl => (heap_step hp hh hs).mp hl.heap, fun hk => ?_⟩⟩
  refine ((heap_step hp hh hs).mpr hk).law hp (ho.step hh.fits (fun ha => ?_) hs)
  subst ha
  exact hk

/-- Numbers, by their difference. -/
def diff (a b : Nat) : Int := a - b

theorem diff_preorder : TotalPreorder diff := by
  refine ⟨fun a b => ?_, fun {a b c} hab hbc => ?_⟩
  all_goals
    unfold diff at *
    omega

/-- 3, 1 and 2 are put in, and the greatest of them is deleted from the middle. -/
theorem halfArray_law_middle : ∃ tr s, (machine diff).RunIf (Kept diff) tr s ∧
    (HalfArrayLaw diff tr s ∧ ∀ act t os, s.step diff act = some (t, os) →
      (HalfArrayLaw diff (tr ++ os) t ↔ Kept diff s act)) ∧ s.slots = [1, 2] := by
  obtain ⟨tr, s, hr, h⟩ := Machine.exists_run (M := machine diff) (C := Kept diff)
    (P := fun _ s => s.slots = [1, 2])
    [.put 0 3, .ins, .put 1 1, .ins, .put 2 2, .ins, .del 1]
    (s := ⟨fun _ => 0, 3, 0⟩) rfl (by decide +kernel)
  exact ⟨tr, s, hr, halfArray_law diff_preorder hr, h⟩

/-- 5 is deleted from under 4; 3, which was last, stays under 4 in its place. -/
theorem heap_broken : ∃ tr s, (machine diff).Run tr s ∧ s.slots = [1, 4, 2, 3, 6, 7] ∧
    ¬ HalfArrayLaw diff tr s := by
  obtain ⟨tr, s, hr, h⟩ := Machine.exists_run (M := machine diff) (C := fun _ _ => True)
    (P := fun _ s => s.slots = [1, 4, 2, 3, 6, 7] ∧ s.ary 1 = 4 ∧ s.ary 3 = 3 ∧ 3 < s.length)
    [.put 0 1, .ins, .put 1 4, .ins, .put 2 2, .ins, .put 3 5, .ins, .put 4 6, .ins, .put 5 7,
      .ins, .put 6 3, .ins, .del 3] (s := ⟨fun _ => 0, 7, 0⟩) rfl (by decide +kernel)
  obtain ⟨hs, h1, h3, hlt⟩ := h
  refine ⟨tr, s, hr, hs, fun hl => ?_⟩
  have hc := hl.children 1 3 (.inl rfl) hlt
  rw [h1, h3] at hc
  exact absurd hc (by decide)

end HalfArray

end TinyState
