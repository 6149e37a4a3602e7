import TinyState.Lib.CircularList
import Mathlib.Data.List.Perm.Basic

/-!
# stdDualQueue

The nodes are linked in both directions around each queue, and know the pointer, `_root`, through
which it is reached. A node is taken from the queue that it is on when it is put into another one.
-/

namespace TinyState

open CircularList

-- ---------------------------------------------------------------------------
-- Model
-- ---------------------------------------------------------------------------

/-- The fields of the nodes `α`, and what the root pointers `ρ` point to. -/
structure DualQueues (α ρ : Type) where
  next : α → Option α
  prev : α → Option α
  root : α → Option ρ
  head : ρ → Option α

namespace DualQueues

variable {α ρ : Type}

def new : DualQueues α ρ := ⟨fun _ => none, fun _ => none, fun _ => none, fun _ => none⟩

variable [DecidableEq α] [DecidableEq ρ]

/-- `del()`; nothing where a null pointer is followed. -/
def del (h : DualQueues α ρ) (this : α) : Option (DualQueues α ρ) :=
  match h.root this with
  | none => some h
  | some r =>
    let head := if h.head r = some this then
        Function.update h.head r (if h.next this = some this then none else h.next this)
      else h.head
    match h.prev this, h.next this with
    | some p, some n => some {
        next := Function.update (Function.update h.next p (some n)) this none
        prev := Function.update (Function.update h.prev n (some p)) this none
        root := Function.update h.root this none
        head }
    | _, _ => none

/-- `if ( _root ) del()` is `del()`. Between `z` and `y`, and on the queue of `r`. -/
def link (h : DualQueues α ρ) (this : α) (r : Option ρ) (z y : α) : DualQueues α ρ :=
  { h with
    next := Function.update (Function.update h.next this (some y)) z (some this)
    prev := Function.update (Function.update h.prev this (some z)) y (some this)
    root := Function.update h.root this r }

/-- `ins(root)` -/
def ins (h : DualQueues α ρ) (this : α) (r : ρ) : Option (DualQueues α ρ) := do
  let h ← h.del this
  match h.head r with
  | some y => do
    let z ← h.prev y
    pure (h.link this r z y)
  | none =>
    pure {
      next := Function.update h.next this (some this)
      prev := Function.update h.prev this (some this)
      root := Function.update h.root this (some r)
      head := Function.update h.head r (some this) }

/-- `ins(node,NODE_AFTER)` or `ins(node,NODE_BEFORE)`, with what it returns. -/
def insNode (h : DualQueues α ρ) (this : α) (node : Option α) (after : Bool) :
    Option (DualQueues α ρ × Int) :=
  match node with
  | none => some (h, -1)
  | some node =>
    if h.root node = none then some (h, -1)
    else do
      let h ← h.del this
      if after then do
        let y ← h.next node
        pure (h.link this (h.root node) node y, 0)
      else do
        let z ← h.prev node
        let r ← h.root node
        let head := if h.head r = some node then Function.update h.head r (some this) else h.head
        pure ({ h.link this r z node with head }, 0)

/-- `close()`, with as many rounds of the loop as `fuel`. -/
def close : Nat → DualQueues α ρ → α → Option (DualQueues α ρ)
  | fuel, h, this =>
    match h.next this with
    | none => none
    | some n =>
      if n = this then h.del this
      else
        match fuel with
        | 0 => none
        | fuel + 1 => h.del n >>= fun h => close fuel h this

/-- The loop of `count()`. -/
def countFrom (h : DualQueues α ρ) (this : α) : Nat → α → Nat → Option Nat
  | 0, _, _ => none
  | fuel + 1, q, ret =>
    if q = this then some ret
    else
      match h.next q with
      | none => none
      | some q => h.countFrom this fuel q (ret + 1)

def count (h : DualQueues α ρ) (this : α) (fuel : Nat) : Option Nat :=
  match h.next this with
  | none => some 1
  | some q => h.countFrom this fuel q 1

def isHead (h : DualQueues α ρ) (this : α) : Int :=
  match h.root this with
  | none => -1
  | some r => if h.head r = some this then 1 else 0

def isTail (h : DualQueues α ρ) (this : α) : Int :=
  match h.root this with
  | none => -1
  | some r => if h.next this = h.head r then 1 else 0

/-- `tail()` of a node of the queue of `r`. -/
def tail (h : DualQueues α ρ) (r : ρ) : Option α :=
  (h.head r).bind h.prev

end DualQueues

-- ---------------------------------------------------------------------------
-- What the queues are
-- ---------------------------------------------------------------------------

/-- The queue of each root is a list, and each node is on one of them at most. -/
structure DualQueues.Rep {α ρ : Type} (h : DualQueues α ρ) (L : ρ → List α) : Prop where
  head : ∀ r, h.head r = (L r).head?
  circular : ∀ r, Circular h.next h.prev (L r)
  nodup : ∀ r, (L r).Nodup
  root : ∀ x r, h.root x = some r ↔ x ∈ L r
  off : ∀ x, h.root x = none → h.next x = none
  offPrev : ∀ x, h.root x = none → h.prev x = none

namespace DualQueues

variable {α ρ : Type} {h h' : DualQueues α ρ} {L : ρ → List α} {x y node : α} {r r' : ρ}

theorem rep_new : Rep (new : DualQueues α ρ) fun _ => [] where
  head _ := rfl
  circular _ := trivial
  nodup _ := List.nodup_nil
  root x r := by simp [new]
  off _ _ := rfl
  offPrev _ _ := rfl

/-- A node is on one queue at most. -/
theorem Rep.unique (hr : h.Rep L) (hx : x ∈ L r) (hx' : x ∈ L r') : r = r' :=
  Option.some.inj (((hr.root x r).mpr hx).symm.trans ((hr.root x r').mpr hx'))

theorem Rep.split (hr : h.Rep L) (hx : x ∈ L r) :
    ∃ a b, L r = a ++ x :: b ∧ Seg h.next h.prev x (b ++ a) x ∧ (x :: (b ++ a)).Nodup := by
  obtain ⟨a, b, he⟩ := List.append_of_mem hx
  have hc := hr.circular r
  have hd := hr.nodup r
  rw [he] at hc hd
  refine ⟨a, b, he, circular_focus.mp hc, ?_⟩
  have hround : (a ++ x :: b).Perm (x :: (b ++ a)) := List.perm_append_comm
  exact hround.nodup_iff.mp hd

theorem Rep.not_mem (hr : h.Rep L) (hx : h.root x = none) (r : ρ) : x ∉ L r := fun hm => by
  have hsome := (hr.root x r).mpr hm
  rw [hx] at hsome
  cases hsome

theorem Rep.head_mem (hr : h.Rep L) (hy : h.head r = some y) : y ∈ L r := by
  rw [hr.head r] at hy
  exact List.mem_of_mem_head? hy

-- ---------------------------------------------------------------------------
-- What is asked of a node
-- ---------------------------------------------------------------------------

variable [DecidableEq α]

theorem countFrom_seg {l : List α} {u q : α} {fuel n : Nat} (hseg : Seg h.next h.prev u l x)
    (hx : x ∉ l) (hq : h.next u = some q) (hf : l.length < fuel) :
    h.countFrom x fuel q n = some (n + l.length) := by
  induction l generalizing u q fuel n with
  | nil =>
    obtain rfl : x = q := Option.some.inj (hseg.1.symm.trans hq)
    obtain ⟨fuel, rfl⟩ : ∃ k, fuel = k + 1 := ⟨fuel - 1, (Nat.succ_pred_eq_of_pos hf).symm⟩
    simp only [countFrom, if_true, List.length_nil, Nat.add_zero]
  | cons c l ih =>
    obtain rfl : c = q := Option.some.inj (hseg.1.1.symm.trans hq)
    obtain ⟨fuel, rfl⟩ : ∃ k, fuel = k + 1 := ⟨fuel - 1, by omega⟩
    have hcx : c ≠ x := fun he => hx (he ▸ List.mem_cons_self)
    obtain ⟨q', hq'⟩ : ∃ q', h.next c = some q' := by
      cases l with
      | nil => exact ⟨x, hseg.2.1⟩
      | cons d l => exact ⟨d, hseg.2.1.1⟩
    simp only [countFrom, if_neg hcx, hq']
    rw [ih hseg.2 (fun hm => hx (List.mem_cons_of_mem c hm)) hq' (Nat.lt_of_succ_lt_succ hf),
      List.length_cons, Nat.add_assoc, Nat.add_comm 1]

theorem Rep.count (hr : h.Rep L) (hx : x ∈ L r) {fuel : Nat} (hf : (L r).length ≤ fuel) :
    h.count x fuel = some (L r).length := by
  obtain ⟨a, b, hL, hseg, hd⟩ := hr.split hx
  have hlen : (L r).length = (b ++ a).length + 1 := by
    rw [hL]
    simp only [List.length_append, List.length_cons]
    omega
  obtain ⟨q, hq⟩ : ∃ q, h.next x = some q := by
    cases hba : b ++ a with
    | nil => exact ⟨x, (hba ▸ hseg).1⟩
    | cons d l => exact ⟨d, (hba ▸ hseg : Seg h.next h.prev x (d :: l) x).1.1⟩
  rw [DualQueues.count, hq]
  change h.countFrom x fuel q 1 = _
  rw [countFrom_seg hseg (List.nodup_cons.mp hd).1 hq (by omega), hlen, Nat.add_comm]

theorem Rep.isHead (hr : h.Rep L) (hx : x ∈ L r) :
    h.isHead x = if (L r).head? = some x then 1 else 0 := by
  simp only [DualQueues.isHead, (hr.root x r).mpr hx, hr.head r]

theorem Rep.isTail (hr : h.Rep L) (hx : x ∈ L r) :
    h.isTail x = if (L r).getLast? = some x then 1 else 0 := by
  obtain ⟨a, b, hL, hseg, hd⟩ := hr.split hx
  have htail : h.next x = h.head r ↔ (L r).getLast? = some x := by
    rw [hr.head r, hL]
    cases b with
    | nil =>
      refine iff_of_true ?_ (List.getLast?_concat ..)
      obtain ⟨y, hy⟩ : ∃ y, (a ++ [x]).head? = some y :=
        ⟨_, List.head?_eq_some_head (List.append_ne_nil_of_right_ne_nil _ (List.cons_ne_nil x []))⟩
      rw [hy]
      exact (hseg.first hy).1
    | cons y b =>
      have hyb : y ∉ a := fun hm => by
        have hd' := (List.nodup_cons.mp (List.nodup_cons.mp hd).2).1
        exact hd' (List.mem_append_right b hm)
      have hyx : y ≠ x := fun he => (List.nodup_cons.mp hd).1 (he ▸ List.mem_cons_self)
      refine iff_of_false (fun he => ?_) fun he => ?_
      · rw [(hseg.first (y := y) rfl).1] at he
        cases a with
        | nil => exact hyx (Option.some.inj he)
        | cons c a => exact hyb (Option.some.inj he ▸ List.mem_cons_self)
      · rw [List.getLast?_append_of_ne_nil _ (List.cons_ne_nil x (y :: b)),
          List.getLast?_cons_cons] at he
        exact (List.nodup_cons.mp hd).1 (List.mem_append_left a (List.mem_of_getLast? he))
  simp only [DualQueues.isTail, (hr.root x r).mpr hx, htail]

omit [DecidableEq α] in
theorem Rep.tail (hr : h.Rep L) (r : ρ) : h.tail r = (L r).getLast? := by
  rw [DualQueues.tail, hr.head r]
  cases hL : L r with
  | nil => rfl
  | cons y l =>
    have hc := hr.circular r
    rw [hL] at hc
    have hseg : Seg h.next h.prev y l y := hc
    exact hseg.last.2.trans (List.getLast?_eq_some_getLast _).symm

-- ---------------------------------------------------------------------------
-- Taking a node out, and putting it in
-- ---------------------------------------------------------------------------

variable [DecidableEq ρ]

/-- The queue of one root changes. -/
theorem Rep.replace (hr : h.Rep L) {l : List α}
    (hnext : ∀ u, u ∉ L r → u ∉ l → h'.next u = h.next u)
    (hprev : ∀ u, u ∉ L r → u ∉ l → h'.prev u = h.prev u)
    (hhead : h'.head = Function.update h.head r l.head?) (hcirc : Circular h'.next h'.prev l)
    (hnodup : l.Nodup)
    (hroot : ∀ u, h'.root u = if u ∈ l then some r else if u ∈ L r then none else h.root u)
    (hfresh : ∀ u ∈ l, u ∉ L r → h.root u = none)
    (hoff : ∀ u ∈ L r, u ∉ l → h'.next u = none ∧ h'.prev u = none) :
    h'.Rep (Function.update L r l) := by
  have hapart : ∀ r', r' ≠ r → ∀ u ∈ L r', u ∉ L r ∧ u ∉ l := fun r' hne u hu => by
    have hur : u ∉ L r := fun hur => hne (hr.unique hu hur)
    refine ⟨hur, fun hul => ?_⟩
    have hsome := (hr.root u r').mpr hu
    rw [hfresh u hul hur] at hsome
    cases hsome
  constructor
  · intro r'
    rw [hhead]
    by_cases he : r' = r
    · rw [he, Function.update_self, Function.update_self]
    · rw [Function.update_of_ne he, Function.update_of_ne he]
      exact hr.head r'
  · intro r'
    by_cases he : r' = r
    · rw [he, Function.update_self]
      exact hcirc
    · rw [Function.update_of_ne he]
      refine (hr.circular r').frame (fun u hu => ?_) fun u hu => ?_
      · exact hnext u (hapart r' he u hu).1 (hapart r' he u hu).2
      · exact hprev u (hapart r' he u hu).1 (hapart r' he u hu).2
  · intro r'
    by_cases he : r' = r
    · rw [he, Function.update_self]
      exact hnodup
    · rw [Function.update_of_ne he]
      exact hr.nodup r'
  · intro u r'
    rw [hroot]
    by_cases he : r' = r
    · subst he
      rw [Function.update_self]
      split_ifs with hul hur
      · exact iff_of_true rfl hul
      · exact iff_of_false (fun h => by cases h) hul
      · exact iff_of_false (fun hu => hur ((hr.root u r').mp hu)) hul
    · rw [Function.update_of_ne he]
      split_ifs with hul hur
      · refine iff_of_false (fun hu => he (Option.some.inj hu).symm) fun hu => ?_
        exact (hapart r' he u hu).2 hul
      · exact iff_of_false (fun h => by cases h) fun hu => (hapart r' he u hu).1 hur
      · exact hr.root u r'
  · intro u hu
    rw [hroot] at hu
    split_ifs at hu with hul hur
    · exact (hoff u hur hul).1
    · rw [hnext u hur hul]
      exact hr.off u hu
  · intro u hu
    rw [hroot] at hu
    split_ifs at hu with hul hur
    · exact (hoff u hur hul).2
    · rw [hprev u hur hul]
      exact hr.offPrev u hu

theorem Rep.erased (hr : h.Rep L) (hx : x ∈ L r) :
    (fun r => (L r).erase x) = Function.update L r ((L r).erase x) := by
  funext r'
  by_cases he : r' = r
  · rw [he, Function.update_self]
  · rw [Function.update_of_ne he]
    exact List.erase_of_not_mem fun hm => he (hr.unique hm hx)

theorem Rep.del (hr : h.Rep L) (x : α) :
    ∃ h', h.del x = some h' ∧ h'.Rep (fun r => (L r).erase x) ∧ h'.root x = none := by
  cases hroot : h.root x with
  | none =>
    refine ⟨h, by simp [DualQueues.del, hroot], ?_, hroot⟩
    have hsame : (fun r => (L r).erase x) = L :=
      funext fun r => List.erase_of_not_mem (hr.not_mem hroot r)
    rw [hsame]
    exact hr
  | some r =>
    have hx := (hr.root x r).mp hroot
    obtain ⟨a, b, hL, hseg, hd⟩ := hr.split hx
    have hxa : x ∉ a := fun hm => (List.nodup_cons.mp hd).1 (List.mem_append_right b hm)
    have herase : (L r).erase x = a ++ b := by
      rw [hL, List.erase_append_right _ hxa, List.erase_cons_head]
    rw [hr.erased hx, herase]
    have hxb : x ∉ b := fun hm => (List.nodup_cons.mp hd).1 (List.mem_append_left a hm)
    have hxab : x ∉ a ++ b := fun hm => (List.mem_append.mp hm).elim hxa hxb
    have hmem : ∀ u, u ∈ L r ↔ u = x ∨ u ∈ a ++ b := fun u => by
      rw [hL]
      simp only [List.mem_append, List.mem_cons]
      tauto
    have hnodup : (a ++ b).Nodup := List.perm_append_comm.nodup_iff.mp (List.nodup_cons.mp hd).2
    have hroots : ∀ u, Function.update h.root x none u =
        if u ∈ a ++ b then some r else if u ∈ L r then none else h.root u := fun u => by
      by_cases hu : u = x
      · rw [hu, Function.update_self, if_neg hxab, if_pos hx]
      · rw [Function.update_of_ne hu]
        by_cases hm : u ∈ a ++ b
        · rw [if_pos hm]
          exact (hr.root u r).mpr ((hmem u).mpr (.inr hm))
        · rw [if_neg hm, if_neg fun hur => ((hmem u).mp hur).elim hu hm]
    have hfresh : ∀ u ∈ a ++ b, u ∉ L r → h.root u = none :=
      fun u hm hu => absurd ((hmem u).mpr (.inr hm)) hu
    cases hba : b ++ a with
    | nil =>
      obtain ⟨rfl, rfl⟩ := List.append_eq_nil_iff.mp hba
      obtain ⟨hnext, hprev⟩ : h.next x = some x ∧ h.prev x = some x := hseg
      have hhead : h.head r = some x := by rw [hr.head r, hL]; rfl
      refine ⟨_, by simp only [DualQueues.del, hroot, hnext, hprev, hhead, if_true]; rfl, ?_, ?_⟩
      case refine_2 => exact Function.update_self ..
      refine hr.replace ?_ ?_ rfl trivial hnodup hroots hfresh ?_
      · intro u hu _
        have hux : u ≠ x := fun he => hu (he ▸ hx)
        exact (Function.update_of_ne hux ..).trans (Function.update_of_ne hux ..)
      · intro u hu _
        have hux : u ≠ x := fun he => hu (he ▸ hx)
        exact (Function.update_of_ne hux ..).trans (Function.update_of_ne hux ..)
      · intro u hu hm
        obtain rfl := ((hmem u).mp hu).resolve_right hm
        exact ⟨Function.update_self .., Function.update_self ..⟩
    | cons y l =>
      rw [hba] at hseg hd
      have hnext : h.next x = some y := hseg.1.1
      obtain ⟨hlast, hprev⟩ := hseg.last
      generalize hz : (x :: y :: l).getLast (List.cons_ne_nil x (y :: l)) = z at hlast hprev
      have hyx : y ≠ x := fun he => (List.nodup_cons.mp hd).1 (he ▸ List.mem_cons_self)
      have hzl : z ∈ y :: l := by
        rw [← hz, List.getLast_cons (List.cons_ne_nil y l)]
        exact List.getLast_mem _
      have hin : ∀ u ∈ y :: l, u ∈ L r := fun u hu => by
        rw [← hba, List.mem_append, or_comm, ← List.mem_append] at hu
        exact (hmem u).mpr (.inr hu)
      refine ⟨_, by simp only [DualQueues.del, hroot, hnext, hprev]; rfl, ?_, ?_⟩
      case refine_2 => exact Function.update_self ..
      refine hr.replace ?_ ?_ ?_ ?_ hnodup hroots hfresh ?_
      · intro u hu _
        have hux : u ≠ x := fun he => hu (he ▸ hx)
        have huz : u ≠ z := fun he => hu (he ▸ hin z hzl)
        exact (Function.update_of_ne hux ..).trans (Function.update_of_ne huz ..)
      · intro u hu _
        have hux : u ≠ x := fun he => hu (he ▸ hx)
        have huy : u ≠ y := fun he => hu (he ▸ hin y List.mem_cons_self)
        exact (Function.update_of_ne hux ..).trans (Function.update_of_ne huy ..)
      · have hhead := hr.head r
        rw [hL] at hhead
        cases a with
        | nil =>
          obtain rfl : b = y :: l := by simpa using hba
          have hfirst : h.head r = some x := hhead
          simp [hfirst, hyx]
        | cons c a =>
          have hfirst : h.head r = some c := hhead
          have hcx : c ≠ x := fun he => hxa (he ▸ List.mem_cons_self)
          simp [hfirst, hcx]
      · refine circular_comm.mp ?_
        rw [hba]
        exact hseg.erase hd hprev
      · intro u hu hm
        obtain rfl := ((hmem u).mp hu).resolve_right hm
        exact ⟨Function.update_self .., Function.update_self ..⟩

/-- A node that is on no queue is linked between two neighbours. -/
theorem Rep.link (hr : h.Rep L) (hx : h.root x = none) {a b l : List α} {z : α}
    (hL : L r = a ++ y :: b) (hz : h.prev y = some z)
    (hround : ∀ next prev : α → Option α, Seg next prev y (b ++ a ++ [x]) y → Circular next prev l)
    (hperm : l.Perm (x :: L r)) {head : ρ → Option α}
    (hhead : head = Function.update h.head r l.head?) :
    Rep { h.link x (some r) z y with head } (Function.update L r l) := by
  have hy : y ∈ L r := by rw [hL]; exact List.mem_append_right a List.mem_cons_self
  have hxL : x ∉ L r := hr.not_mem hx r
  have hyx : y ≠ x := fun he => hxL (he ▸ hy)
  have hseg : Seg h.next h.prev y (b ++ a) y := by
    have hc := hr.circular r
    rw [hL] at hc
    exact circular_focus.mp hc
  have hround' : (y :: (b ++ a)).Perm (L r) := by
    rw [hL, ← List.cons_append]
    exact List.perm_append_comm
  have hd : (y :: (b ++ a)).Nodup := hround'.nodup_iff.mpr (hr.nodup r)
  have hxs : x ∉ y :: (b ++ a) := fun hm => hxL (hround'.mem_iff.mp hm)
  have hzL : z ∈ L r := by
    have hlast := Option.some.inj (hseg.last.2.symm.trans hz)
    exact hround'.mem_iff.mp (hlast ▸ List.getLast_mem _)
  have hmem : ∀ u, u ∈ l ↔ u = x ∨ u ∈ L r := fun u => by
    rw [hperm.mem_iff, List.mem_cons]
  refine hr.replace ?_ ?_ hhead ?_ ?_ ?_ ?_ ?_
  · intro u hu hul
    have hux : u ≠ x := fun he => hul ((hmem u).mpr (.inl he))
    have huz : u ≠ z := fun he => hu (he ▸ hzL)
    exact (Function.update_of_ne huz ..).trans (Function.update_of_ne hux ..)
  · intro u hu hul
    have hux : u ≠ x := fun he => hul ((hmem u).mpr (.inl he))
    have huy : u ≠ y := fun he => hu (he ▸ hy)
    exact (Function.update_of_ne huy ..).trans (Function.update_of_ne hux ..)
  · exact hround _ _ (hseg.insert hd hxs hz)
  · exact hperm.nodup_iff.mpr (List.nodup_cons.mpr ⟨hxL, hr.nodup r⟩)
  · intro u
    change Function.update h.root x (some r) u = _
    by_cases hux : u = x
    · rw [hux, Function.update_self, if_pos ((hmem x).mpr (.inl rfl))]
    · rw [Function.update_of_ne hux]
      by_cases hu : u ∈ L r
      · rw [if_pos ((hmem u).mpr (.inr hu))]
        exact (hr.root u r).mpr hu
      · rw [if_neg fun hul => ((hmem u).mp hul).elim hux hu, if_neg hu]
  · intro u hul hu
    rw [((hmem u).mp hul).resolve_right hu]
    exact hx
  · exact fun u hu hul => absurd ((hmem u).mpr (.inr hu)) hul

/-- The first node of a queue is its own neighbour. -/
theorem Rep.alone (hr : h.Rep L) (hx : h.root x = none) (hL : L r = []) :
    Rep {
      next := Function.update h.next x (some x)
      prev := Function.update h.prev x (some x)
      root := Function.update h.root x (some r)
      head := Function.update h.head r (some x) } (Function.update L r [x]) := by
  refine hr.replace ?_ ?_ rfl ?_ (List.nodup_singleton x) ?_ ?_ ?_
  · exact fun u _ hu => Function.update_of_ne (fun he => hu (List.mem_singleton.mpr he)) ..
  · exact fun u _ hu => Function.update_of_ne (fun he => hu (List.mem_singleton.mpr he)) ..
  · exact ⟨Function.update_self .., Function.update_self ..⟩
  · intro u
    simp only [hL, List.mem_singleton, List.not_mem_nil, if_false]
    split_ifs with hu
    · rw [hu, Function.update_self]
    · exact Function.update_of_ne hu ..
  · exact fun u hu _ => List.mem_singleton.mp hu ▸ hx
  · exact fun u hu => absurd (hL ▸ hu) List.not_mem_nil

-- ---------------------------------------------------------------------------
-- The lists that are asked for
-- ---------------------------------------------------------------------------

/-- At the end of the queue of `r`. -/
def appended (L : ρ → List α) (x : α) (r : ρ) : ρ → List α :=
  Function.update (fun r => (L r).erase x) r ((L r).erase x ++ [x])

/-- Next to `node`, wherever it is. -/
def beside (L : ρ → List α) (x node : α) (after : Bool) (r : ρ) : List α :=
  ((L r).erase x).flatMap fun u =>
    if u = node then if after then [u, x] else [x, u] else [u]

theorem Rep.ins (hr : h.Rep L) (x : α) (r : ρ) :
    ∃ h', h.ins x r = some h' ∧ h'.Rep (appended L x r) := by
  obtain ⟨h1, hdel, hr1, hx⟩ := hr.del x
  have hhead := hr1.head r
  cases hL : (L r).erase x with
  | nil =>
    rw [hL] at hhead
    refine ⟨_, by simp only [DualQueues.ins, hdel, Option.bind_eq_bind, Option.bind_some, hhead,
      List.head?_nil]; rfl, ?_⟩
    rw [appended, hL]
    exact hr1.alone hx hL
  | cons y b =>
    rw [hL] at hhead
    have hseg : Seg h1.next h1.prev y b y := by
      have hc := hr1.circular r
      simp only [hL] at hc
      exact hc
    refine ⟨_, by simp only [DualQueues.ins, hdel, Option.bind_eq_bind, Option.bind_some, hhead,
      List.head?_cons, hseg.last.2]; rfl, ?_⟩
    rw [appended, hL]
    refine hr1.link hx (a := []) (b := b) hL hseg.last.2 ?_ ?_ ?_
    · intro next prev hround
      rw [List.append_nil] at hround
      exact hround
    · rw [hL]
      exact List.perm_append_comm
    · have hsame : h1.head r = some y := hhead
      rw [List.cons_append, List.head?_cons, ← hsame]
      exact (Function.update_eq_self ..).symm

theorem flatMap_apart {a : List α} {node : α} (ha : node ∉ a) (f : α → List α) :
    a.flatMap (fun u => if u = node then f u else [u]) = a := by
  induction a with
  | nil => rfl
  | cons c a ih =>
    have hc : c ≠ node := fun he => ha (he ▸ List.mem_cons_self)
    rw [List.flatMap_cons, if_neg hc, ih fun hm => ha (List.mem_cons_of_mem c hm)]
    rfl

/-- Where the node is on the queue of `r`, one list changes. -/
theorem Rep.beside_eq (hr : h.Rep fun r => (L r).erase x) {a b : List α} {after : Bool}
    (hL : (L r).erase x = a ++ node :: b) : beside L x node after =
      Function.update (fun r => (L r).erase x) r
        (a ++ (if after then [node, x] else [x, node]) ++ b) := by
  have hnode : node ∈ (L r).erase x := by
    rw [hL]
    exact List.mem_append_right a List.mem_cons_self
  have hd : (a ++ node :: b).Nodup := hL ▸ hr.nodup r
  have hnode' : node ∉ a ++ b :=
    (List.nodup_cons.mp (List.perm_middle.nodup_iff.mp hd)).1
  funext r'
  by_cases he : r' = r
  · rw [he, Function.update_self, beside, hL, List.flatMap_append, List.flatMap_cons,
      flatMap_apart fun hm => hnode' (List.mem_append_left b hm),
      flatMap_apart fun hm => hnode' (List.mem_append_right a hm), if_pos rfl, List.append_assoc]
  · rw [Function.update_of_ne he, beside]
    exact flatMap_apart (fun hm => he (hr.unique hm hnode)) _

theorem Rep.insAfter (hr : h.Rep L) (hx : h.root x = none) {a b : List α}
    (hL : L r = a ++ node :: b) : ∃ y, h.next node = some y ∧
      (h.link x (some r) node y).Rep (Function.update L r (a ++ [node, x] ++ b)) := by
  have hseg : Seg h.next h.prev node (b ++ a) node := by
    have hc := hr.circular r
    rw [hL] at hc
    exact circular_focus.mp hc
  have hperm : (a ++ [node, x] ++ b).Perm (x :: L r) := by
    have hmid : a ++ node :: b = (a ++ [node]) ++ b := (List.append_assoc a [node] b).symm
    have hmid' : a ++ [node, x] ++ b = (a ++ [node]) ++ x :: b := by simp
    rw [hL, hmid, hmid']
    exact List.perm_middle
  have hfirst : (a ++ [node, x] ++ b).head? = (L r).head? := by
    rw [hL]
    cases a <;> rfl
  have hhead : h.head = Function.update h.head r (a ++ [node, x] ++ b).head? := by
    rw [hfirst, ← hr.head r, Function.update_eq_self]
  cases b with
  | nil =>
    obtain ⟨y, t, hyt⟩ := List.exists_cons_of_ne_nil (List.append_ne_nil_of_right_ne_nil a
      (List.cons_ne_nil node []))
    obtain ⟨hnext, hprev⟩ := hseg.first (y := y) (by rw [List.nil_append, hyt]; rfl)
    refine ⟨y, hnext, hr.link hx (a := []) (b := t) (hL.trans hyt) hprev ?_ hperm hhead⟩
    intro next prev hround
    have he : a ++ [node, x] ++ [] = y :: (t ++ [x]) := by
      rw [List.append_nil, ← List.cons_append, ← hyt, List.append_assoc]
      rfl
    rw [he]
    rw [List.append_nil] at hround
    exact hround
  | cons y b =>
    obtain ⟨hnext, hprev⟩ := hseg.first (y := y) rfl
    refine ⟨y, hnext, hr.link hx (a := a ++ [node]) (b := b) ?_ hprev ?_ hperm hhead⟩
    · rw [hL, List.append_assoc]
      rfl
    · intro next prev hround
      refine circular_focus.mpr ?_
      simpa using hround

theorem Rep.insBefore (hr : h.Rep L) (hx : h.root x = none) {a b : List α}
    (hL : L r = a ++ node :: b) : ∃ z, h.prev node = some z ∧
      Rep { h.link x (some r) z node with
        head := if h.head r = some node then Function.update h.head r (some x) else h.head }
        (Function.update L r (a ++ [x, node] ++ b)) := by
  have hseg : Seg h.next h.prev node (b ++ a) node := by
    have hc := hr.circular r
    rw [hL] at hc
    exact circular_focus.mp hc
  refine ⟨_, hseg.last.2, hr.link hx hL hseg.last.2 ?_ ?_ ?_⟩
  · intro next prev hround
    have hmid : a ++ [x, node] ++ b = (a ++ [x]) ++ node :: b := by simp
    rw [hmid]
    refine circular_focus.mpr ?_
    rw [← List.append_assoc]
    exact hround
  · rw [hL, List.append_assoc]
    exact List.perm_middle
  · have hfirst := hr.head r
    rw [hL] at hfirst
    cases a with
    | nil =>
      have hfirst : h.head r = some node := hfirst
      rw [if_pos hfirst]
      rfl
    | cons c a =>
      have hne : c ≠ node := fun he => by
        have hd := hr.nodup r
        rw [hL, he] at hd
        exact (List.nodup_cons.mp hd).1 (List.mem_append_right a List.mem_cons_self)
      have hfirst : h.head r = some c := hfirst
      rw [if_neg fun he => hne (Option.some.inj (hfirst.symm.trans he))]
      change h.head = Function.update h.head r (some c)
      rw [← hfirst, Function.update_eq_self]

theorem Rep.insNode (hr : h.Rep L) (hnode : node ∈ L r) (hne : node ≠ x) (after : Bool) :
    ∃ h', h.insNode x (some node) after = some (h', 0) ∧ h'.Rep (beside L x node after) := by
  have hroot : h.root node ≠ none := fun he => hr.not_mem he r hnode
  obtain ⟨h1, hdel, hr1, hx⟩ := hr.del x
  have hnode1 : node ∈ (L r).erase x := (List.mem_erase_of_ne hne).mpr hnode
  have hroot1 : h1.root node = some r := (hr1.root node r).mpr hnode1
  obtain ⟨a, b, hL⟩ := List.append_of_mem hnode1
  rw [hr1.beside_eq hL]
  cases after with
  | false =>
    obtain ⟨z, hz, hrep⟩ := hr1.insBefore hx hL
    exact ⟨_, by simp only [DualQueues.insNode, hroot, if_false, hdel, Option.bind_eq_bind,
      Option.bind_some, hz, hroot1, Bool.false_eq_true]; rfl, hrep⟩
  | true =>
    obtain ⟨y, hy, hrep⟩ := hr1.insAfter hx hL
    exact ⟨_, by simp only [DualQueues.insNode, hroot, if_false, hdel, Option.bind_eq_bind,
      Option.bind_some, hy, hroot1, if_true]; rfl, hrep⟩

/-- A node cannot be put beside itself. -/
theorem Rep.insNode_self (hr : h.Rep L) (hx : x ∈ L r) (after : Bool) :
    h.insNode x (some x) after = none := by
  have hroot : h.root x ≠ none := fun he => hr.not_mem he r hx
  obtain ⟨h1, hdel, hr1, hx1⟩ := hr.del x
  cases after with
  | false =>
    have hprev : h1.prev x = none := hr1.offPrev x hx1
    simp only [DualQueues.insNode, hroot, if_false, hdel, Option.bind_eq_bind, Option.bind_some,
      hprev, Bool.false_eq_true, Option.bind_none]
  | true =>
    have hnext : h1.next x = none := hr1.off x hx1
    simp only [DualQueues.insNode, hroot, if_false, hdel, Option.bind_eq_bind, Option.bind_some,
      hnext, if_true, Option.bind_none]

/-- `close` takes the neighbours away, and then the node itself. -/
theorem Rep.close (hr : h.Rep L) (hx : x ∈ L r) {fuel : Nat} (hf : (L r).length ≤ fuel + 1) :
    ∃ h', close fuel h x = some h' ∧ h'.Rep (Function.update L r []) := by
  induction fuel generalizing h L with
  | zero =>
    obtain ⟨y, hL⟩ : ∃ y, L r = [y] :=
      List.length_eq_one_iff.mp (Nat.le_antisymm hf (List.length_pos_of_mem hx))
    obtain rfl : x = y := List.mem_singleton.mp (hL ▸ hx)
    have hnext : h.next x = some x := by
      have hc := hr.circular r
      rw [hL] at hc
      exact hc.1
    obtain ⟨h', hdel, hr', -⟩ := hr.del x
    refine ⟨h', by unfold DualQueues.close; simp only [hnext, if_true, hdel], ?_⟩
    rw [hr.erased hx, hL, List.erase_cons_head] at hr'
    exact hr'
  | succ fuel ih =>
    obtain ⟨a, b, hL, hseg, hd⟩ := hr.split hx
    obtain ⟨n, hn⟩ : ∃ n, (b ++ a ++ [x]).head? = some n :=
      ⟨_, List.head?_eq_some_head (List.append_ne_nil_of_right_ne_nil _ (List.cons_ne_nil x []))⟩
    obtain ⟨hnext, -⟩ := hseg.first hn
    by_cases hnx : n = x
    · have hba : b ++ a = [] := by
        cases hba : b ++ a with
        | nil => rfl
        | cons c l =>
          rw [hba] at hn hd
          obtain rfl : c = n := Option.some.inj hn
          exact absurd (hnx ▸ List.mem_cons_self) (List.nodup_cons.mp hd).1
      obtain ⟨rfl, rfl⟩ := List.append_eq_nil_iff.mp hba
      obtain ⟨h', hdel, hr', -⟩ := hr.del x
      refine ⟨h', by unfold DualQueues.close; simp only [hnext, hnx, if_true, hdel], ?_⟩
      rw [hr.erased hx, hL, List.nil_append, List.erase_cons_head] at hr'
      exact hr'
    · have hnL : n ∈ L r := by
        have hm := List.mem_of_mem_head? hn
        rw [hL]
        simp only [List.mem_append, List.mem_cons] at hm ⊢
        tauto
      obtain ⟨h1, hdel, hr1, -⟩ := hr.del n
      rw [hr.erased hnL] at hr1
      obtain ⟨h', hclose, hr'⟩ := ih hr1
        (by rw [Function.update_self]; exact (List.mem_erase_of_ne (Ne.symm hnx)).mpr hx)
        (by rw [Function.update_self, List.length_erase_of_mem hnL]; omega)
      refine ⟨h', ?_, by rwa [Function.update_idem] at hr'⟩
      unfold DualQueues.close
      simp only [hnext, hnx, if_false, hdel]
      exact hclose

-- ---------------------------------------------------------------------------
-- Runs
-- ---------------------------------------------------------------------------

inductive Op (α ρ : Type) where
  | ins (x : α) (r : ρ)
  | insNode (x : α) (node : Option α) (after : Bool)
  | del (x : α)
  | close (x : α)

/-- A call, and what it returns. -/
def step (fuel : Nat) (h : DualQueues α ρ) : Op α ρ → Option (DualQueues α ρ × Int)
  | .ins x r => (h.ins x r).map (·, 0)
  | .insNode x node after => h.insNode x node after
  | .del x => (h.del x).map (·, 0)
  | .close x => (close fuel h x).map (·, 0)

def run (fuel : Nat) : DualQueues α ρ → List (Op α ρ) → Option (DualQueues α ρ × List Int)
  | h, [] => some (h, [])
  | h, op :: ops => do
    let (h, result) ← step fuel h op
    let (h, results) ← run fuel h ops
    pure (h, result :: results)

/-- What a call does to the lists. A node that is put beside itself, and one closed that is on no
queue, have no move. -/
inductive Moves (L : ρ → List α) : Op α ρ → (ρ → List α) → Int → Prop where
  | ins (x : α) (r : ρ) : Moves L (.ins x r) (appended L x r) 0
  | null (x : α) (after : Bool) : Moves L (.insNode x none after) L (-1)
  | off (x : α) {node : α} (after : Bool) (hoff : ∀ r, node ∉ L r) :
      Moves L (.insNode x (some node) after) L (-1)
  | insNode {x node : α} {r : ρ} (after : Bool) (hnode : node ∈ L r) (hne : node ≠ x) :
      Moves L (.insNode x (some node) after) (beside L x node after) 0
  | del (x : α) : Moves L (.del x) (fun r => (L r).erase x) 0
  | close {x : α} {r : ρ} (hx : x ∈ L r) : Moves L (.close x) (Function.update L r []) 0

inductive MovesAll : (ρ → List α) → List (Op α ρ) → (ρ → List α) → List Int → Prop where
  | nil (L : ρ → List α) : MovesAll L [] L []
  | cons {L L' L'' : ρ → List α} {op : Op α ρ} {ops : List (Op α ρ)} {result : Int}
      {results : List Int} (h : Moves L op L' result) (hs : MovesAll L' ops L'' results) :
      MovesAll L (op :: ops) L'' (result :: results)

/-- The nodes show the lists. -/
structure Shows (h : DualQueues α ρ) (L : ρ → List α) : Prop where
  rep : h.Rep L
  tail : ∀ r, h.tail r = (L r).getLast?
  isHead : ∀ x r, x ∈ L r → h.isHead x = if (L r).head? = some x then 1 else 0
  isTail : ∀ x r, x ∈ L r → h.isTail x = if (L r).getLast? = some x then 1 else 0
  count : ∀ x r, x ∈ L r → h.count x (L r).length = some (L r).length
  off : ∀ x, (∀ r, x ∉ L r) → h.isHead x = -1 ∧ h.isTail x = -1 ∧ h.count x 0 = some 1

omit [DecidableEq α] [DecidableEq ρ] in
theorem Rep.root_none (hr : h.Rep L) (hx : ∀ r, x ∉ L r) : h.root x = none := by
  cases hroot : h.root x with
  | none => rfl
  | some r => exact absurd ((hr.root x r).mp hroot) (hx r)

omit [DecidableEq ρ] in
theorem Rep.shows (hr : h.Rep L) : h.Shows L where
  rep := hr
  tail := hr.tail
  isHead _ _ hx := hr.isHead hx
  isTail _ _ hx := hr.isTail hx
  count _ _ hx := hr.count hx (Nat.le_refl _)
  off x hx := by
    have hroot := hr.root_none hx
    refine ⟨?_, ?_, ?_⟩
    · rw [DualQueues.isHead, hroot]
    · rw [DualQueues.isTail, hroot]
    · rw [DualQueues.count, hr.off x hroot]

theorem Moves.unique (hr : h.Rep L) {op : Op α ρ} {L₁ L₂ : ρ → List α} {i j : Int}
    (h₁ : Moves L op L₁ i) (h₂ : Moves L op L₂ j) : L₁ = L₂ ∧ i = j := by
  cases h₁ with
  | ins x r => cases h₂; exact ⟨rfl, rfl⟩
  | null x after => cases h₂; exact ⟨rfl, rfl⟩
  | off x after hoff =>
    cases h₂ with
    | off => exact ⟨rfl, rfl⟩
    | insNode after hnode hne => exact absurd hnode (hoff _)
  | insNode after hnode hne =>
    cases h₂ with
    | off x after hoff => exact absurd hnode (hoff _)
    | insNode => exact ⟨rfl, rfl⟩
  | del x => cases h₂; exact ⟨rfl, rfl⟩
  | close hx =>
    cases h₂ with
    | close hx' => rw [hr.unique hx hx']; exact ⟨rfl, rfl⟩

/-- A call has a move, and makes it, or fails. -/
theorem Rep.step (hr : h.Rep L) {n fuel : Nat} (hlen : ∀ r, (L r).length ≤ n) (hf : n ≤ fuel + 1)
    (op : Op α ρ) :
    (∃ L' i h', Moves L op L' i ∧ step fuel h op = some (h', i) ∧ h'.Rep L' ∧
      ∀ r, (L' r).length ≤ n + 1) ∨
    ((∀ L' i, ¬Moves L op L' i) ∧ step fuel h op = none) := by
  have herase : ∀ x r, ((L r).erase x).length ≤ n := fun x r =>
    Nat.le_trans (List.erase_sublist ..).length_le (hlen r)
  cases op with
  | ins x r =>
    obtain ⟨h', hins, hr'⟩ := hr.ins x r
    refine .inl ⟨_, 0, h', .ins x r, by rw [DualQueues.step, hins]; rfl, hr', fun r' => ?_⟩
    rw [appended]
    by_cases he : r' = r
    · rw [he, Function.update_self, List.length_append]
      exact Nat.succ_le_succ (herase x r)
    · rw [Function.update_of_ne he]
      exact Nat.le_succ_of_le (herase x r')
  | insNode x node after =>
    cases node with
    | none =>
      exact .inl ⟨L, -1, h, .null x after, rfl, hr, fun r => Nat.le_succ_of_le (hlen r)⟩
    | some node =>
      cases hroot : h.root node with
      | none =>
        refine .inl ⟨L, -1, h, .off x after (hr.not_mem hroot), ?_, hr,
          fun r => Nat.le_succ_of_le (hlen r)⟩
        simp only [DualQueues.step, DualQueues.insNode, hroot, if_true]
      | some r =>
        have hnode := (hr.root node r).mp hroot
        by_cases hne : node = x
        · refine .inr ⟨fun L' i hm => ?_, ?_⟩
          · cases hm with
            | off _ _ hoff => exact hoff r hnode
            | insNode _ _ hne' => exact hne' hne
          · subst hne
            exact hr.insNode_self hnode after
        · obtain ⟨h', hins, hr'⟩ := hr.insNode hnode hne after
          refine .inl ⟨_, 0, h', .insNode after hnode hne, hins, hr', fun r' => ?_⟩
          obtain ⟨h1, -, hr1, -⟩ := hr.del x
          obtain ⟨a, b, hL⟩ := List.append_of_mem ((List.mem_erase_of_ne hne).mpr hnode)
          rw [hr1.beside_eq hL]
          by_cases he : r' = r
          · have hlen' := herase x r
            rw [hL] at hlen'
            rw [he, Function.update_self]
            simp only [List.length_append, List.length_cons] at hlen' ⊢
            cases after <;> simp only [if_true, if_false, Bool.false_eq_true, List.length_cons,
              List.length_nil] <;> omega
          · rw [Function.update_of_ne he]
            exact Nat.le_succ_of_le (herase x r')
  | del x =>
    obtain ⟨h', hdel, hr', -⟩ := hr.del x
    refine .inl ⟨_, 0, h', .del x, by rw [DualQueues.step, hdel]; rfl, hr', fun r => ?_⟩
    exact Nat.le_succ_of_le (herase x r)
  | close x =>
    cases hroot : h.root x with
    | none =>
      refine .inr ⟨fun L' i hm => ?_, ?_⟩
      · cases hm with
        | close hx => exact hr.not_mem hroot _ hx
      · rw [DualQueues.step]
        unfold DualQueues.close
        rw [hr.off x hroot]
        rfl
    | some r =>
      have hx := (hr.root x r).mp hroot
      obtain ⟨h', hclose, hr'⟩ := hr.close hx (Nat.le_trans (hlen r) hf)
      refine .inl ⟨_, 0, h', .close hx, by rw [DualQueues.step, hclose]; rfl, hr', fun r' => ?_⟩
      by_cases he : r' = r
      · rw [he, Function.update_self]
        exact Nat.zero_le _
      · rw [Function.update_of_ne he]
        exact Nat.le_succ_of_le (hlen r')

theorem Rep.run (hr : h.Rep L) {n fuel : Nat} (hlen : ∀ r, (L r).length ≤ n)
    {ops : List (Op α ρ)} (hf : n + ops.length ≤ fuel + 1) :
    (∀ L' results, MovesAll L ops L' results →
      ∃ h', run fuel h ops = some (h', results) ∧ h'.Rep L') ∧
    ((∀ L' results, ¬MovesAll L ops L' results) → run fuel h ops = none) := by
  induction ops generalizing h L n with
  | nil =>
    refine ⟨fun L' results hm => ?_, fun hn => absurd (.nil L) (hn L [])⟩
    cases hm
    exact ⟨h, rfl, hr⟩
  | cons op ops ih =>
    rw [List.length_cons] at hf
    have hn : n ≤ fuel + 1 := by omega
    rcases hr.step hlen hn op with ⟨L₁, i, h₁, hm, hstep, hr₁, hlen₁⟩ | ⟨hno, hstep⟩
    · obtain ⟨hsome, hnone⟩ := ih hr₁ hlen₁ (by omega)
      refine ⟨fun L' results hall => ?_, fun hn => ?_⟩
      · cases hall with
        | cons hm' hall =>
          obtain ⟨rfl, rfl⟩ := hm'.unique hr hm
          obtain ⟨h', hrun, hr'⟩ := hsome _ _ hall
          refine ⟨h', ?_, hr'⟩
          simp only [DualQueues.run, hstep, hrun, Option.bind_eq_bind, Option.bind_some]
          rfl
      · have hrun := hnone fun L' results hall => hn L' (i :: results) (.cons hm hall)
        simp only [DualQueues.run, hstep, hrun, Option.bind_eq_bind, Option.bind_some,
          Option.bind_none]
    · refine ⟨fun L' results hall => ?_, fun _ => ?_⟩
      · cases hall with
        | cons hm' _ => exact absurd hm' (hno _ _)
      · simp only [DualQueues.run, hstep, Option.bind_eq_bind, Option.bind_none]

example : ((run 4 (new : DualQueues Nat Unit)
    [.ins 1 (), .ins 2 (), .insNode 3 (some 1) false, .del 2]).map fun p =>
      (p.1.head (), p.1.tail (), p.1.count 1 2)) = some (some 3, some 1, some 2) := by
  decide

end DualQueues

end TinyState
