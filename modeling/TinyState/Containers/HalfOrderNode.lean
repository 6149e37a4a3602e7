import Mathlib.Data.List.Perm.Basic

/-!
# stdHalfOrderQueue

A binary tree of keys and data with the least key on top, in which each node counts
the nodes under it. What is put in comes out, and nothing else does.
-/

namespace TinyState

/-- `stdHalfOrderNode`: a node without children, with `n[0]` alone, and with both. -/
inductive HalfOrderNode (β : Type)
  | leaf (key : Int) (data : β) (count : Nat)
  | one (key : Int) (data : β) (count : Nat) (n₀ : HalfOrderNode β)
  | two (key : Int) (data : β) (count : Nat) (n₀ n₁ : HalfOrderNode β)
  deriving DecidableEq, Repr

namespace HalfOrderNode

variable {β : Type}

def key : HalfOrderNode β → Int
  | leaf k .. | one k .. | two k .. => k

def data : HalfOrderNode β → β
  | leaf _ d _ | one _ d .. | two _ d .. => d

def count : HalfOrderNode β → Nat
  | leaf _ _ c | one _ _ c _ | two _ _ c .. => c

/-- The node with another key and other data. -/
def put (k : Int) (d : β) : HalfOrderNode β → HalfOrderNode β
  | leaf _ _ c => leaf k d c
  | one _ _ c l => one k d c l
  | two _ _ c l r => two k d c l r

/-- The end of `_ins`: the node changes places with a child that has a lesser key. -/
def settle (k : Int) (d : β) (c : Nat) (l r : HalfOrderNode β) : HalfOrderNode β :=
  if k ≤ l.key ∧ k ≤ r.key then two k d c l r
  else if l.key < k ∧ l.key < r.key then
    if k ≤ l.key then two k d c l r else two l.key l.data c (l.put k d) r
  else
    if k ≤ r.key then two k d c l r else two r.key r.data c l (r.put k d)

/-- `_ins`. -/
def ins (key : Int) (data : β) : HalfOrderNode β → HalfOrderNode β
  | leaf k d c =>
    if k ≤ key then one k d (c + 1) (leaf key data 1) else one key data (c + 1) (leaf k d 1)
  | one k d c l => settle k d (c + 1) l (leaf key data 1)
  | two k d c l r =>
    if l.count ≤ r.count then settle k d (c + 1) (ins key data l) r
    else settle k d (c + 1) l (ins key data r)

/-- The first loop of `del`: the last node, and the tree without it. -/
def dropLast : HalfOrderNode β → (Int × β) × Option (HalfOrderNode β)
  | leaf k d _ => ((k, d), none)
  | one k d c l =>
    (l.dropLast.1, match l.dropLast.2 with
      | none => some (leaf k d (c - 1))
      | some l => some (one k d (c - 1) l))
  | two k d c l r =>
    if r.count ≤ l.count then
      (l.dropLast.1, match l.dropLast.2 with
        | none => some (one k d (c - 1) r)
        | some l => some (two k d (c - 1) l r))
    else
      (r.dropLast.1, match r.dropLast.2 with
        | none => some (one k d (c - 1) l)
        | some r => some (two k d (c - 1) l r))

/-- The second loop of `del`: the key and the data go down from the top. -/
def sift (k : Int) (d : β) : HalfOrderNode β → HalfOrderNode β
  | leaf _ _ c => leaf k d c
  | one _ _ c l => if k ≤ l.key then one k d c l else one l.key l.data c (sift k d l)
  | two _ _ c l r =>
    if k ≤ l.key ∧ k ≤ r.key then two k d c l r
    else if l.key ≤ k ∧ l.key ≤ r.key then two l.key l.data c (sift k d l) r
    else two r.key r.data c l (sift k d r)

/-- A lesser key comes to the top, and goes down again. -/
example : ((leaf 2 'b' 1).ins 1 'a').sift 3 'c' = one 2 'b' 2 (leaf 3 'c' 1) := by
  unfold ins sift
  simp [key, data]
  unfold sift
  rfl

example : (one 1 'a' 2 (leaf 2 'b' 1)).dropLast = ((2, 'b'), some (leaf 1 'a' 1)) := by
  simp [dropLast]

-- ---------------------------------------------------------------------------
-- What is in it
-- ---------------------------------------------------------------------------

def toList : HalfOrderNode β → List β
  | leaf _ d _ => [d]
  | one _ d _ l => d :: l.toList
  | two _ d _ l r => d :: (l.toList ++ r.toList)

/-- The data with their keys. -/
def pairs : HalfOrderNode β → List (Int × β)
  | leaf k d _ => [(k, d)]
  | one k d _ l => (k, d) :: l.pairs
  | two k d _ l r => (k, d) :: (l.pairs ++ r.pairs)

variable {t u l r : HalfOrderNode β} {k : Int} {d : β} {c : Nat}

theorem map_pairs : t.pairs.map Prod.snd = t.toList := by
  induction t with
  | leaf k d c => rfl
  | one k d c l ih => simp [pairs, toList, ih]
  | two k d c l r ihl ihr => simp [pairs, toList, ihl, ihr]

theorem length_pairs : t.pairs.length = t.toList.length := by
  rw [← map_pairs, List.length_map]

theorem toList_eq : t.toList = t.data :: t.toList.tail := by cases t <;> rfl

theorem pairs_eq : t.pairs = (t.key, t.data) :: t.pairs.tail := by cases t <;> rfl

@[simp] theorem pairs_put : (t.put k d).pairs = (k, d) :: t.pairs.tail := by cases t <;> rfl

/-- Two data change places. -/
theorem exchange_perm {α : Type} {a b : α} (xs ys : List α) :
    (a :: (xs ++ b :: ys)).Perm (b :: (xs ++ a :: ys)) :=
  calc a :: (xs ++ b :: ys)
    List.Perm _ (a :: b :: (xs ++ ys)) := List.perm_middle.cons a
    List.Perm _ (b :: a :: (xs ++ ys)) := .swap ..
    List.Perm _ (b :: (xs ++ a :: ys)) := (List.perm_middle.cons b).symm

theorem settle_perm : (settle k d c l r).pairs.Perm ((k, d) :: (l.pairs ++ r.pairs)) := by
  unfold settle
  split
  · exact .refl _
  · split
    · split
      · exact .refl _
      · rw [pairs, pairs_put, pairs_eq (t := l)]
        exact .swap ..
    · split
      · exact .refl _
      · rw [pairs, pairs_put, pairs_eq (t := r)]
        exact exchange_perm ..

theorem count_settle : (settle k d c l r).count = c := by
  unfold settle
  split_ifs <;> rfl

/-- What is put in is in it. -/
theorem ins_perm (key : Int) (data : β) :
    (ins key data t).pairs.Perm ((key, data) :: t.pairs) := by
  induction t with
  | leaf k d c =>
    unfold ins
    split
    · exact .swap ..
    · exact .refl _
  | one k d c l ih =>
    calc (settle k d (c + 1) l (leaf key data 1)).pairs
      List.Perm _ ((k, d) :: (l.pairs ++ [(key, data)])) := settle_perm
      List.Perm _ ((k, d) :: (key, data) :: l.pairs) := List.perm_append_comm.cons (k, d)
      List.Perm _ ((key, data) :: (k, d) :: l.pairs) := .swap ..
  | two k d c l r ihl ihr =>
    unfold ins
    split
    · calc (settle k d (c + 1) (ins key data l) r).pairs
        List.Perm _ ((k, d) :: ((ins key data l).pairs ++ r.pairs)) := settle_perm
        List.Perm _ ((k, d) :: (key, data) :: (l.pairs ++ r.pairs)) :=
          (ihl.append_right r.pairs).cons (k, d)
        List.Perm _ ((key, data) :: (k, d) :: (l.pairs ++ r.pairs)) := .swap ..
    · calc (settle k d (c + 1) l (ins key data r)).pairs
        List.Perm _ ((k, d) :: (l.pairs ++ (ins key data r).pairs)) := settle_perm
        List.Perm _ ((k, d) :: (l.pairs ++ (key, data) :: r.pairs)) :=
          (ihr.append_left l.pairs).cons (k, d)
        List.Perm _ ((key, data) :: (l.pairs ++ (k, d) :: r.pairs)) := exchange_perm ..
        List.Perm _ ((key, data) :: (k, d) :: (l.pairs ++ r.pairs)) :=
          List.perm_middle.cons (key, data)

theorem count_ins (key : Int) (data : β) : (ins key data t).count = t.count + 1 := by
  cases t with
  | leaf k d c =>
    unfold ins
    split <;> rfl
  | one k d c l => exact count_settle
  | two k d c l r =>
    unfold ins
    split <;> exact count_settle

/-- What is in what is left, if anything is. -/
def left (o : Option (HalfOrderNode β)) : List β := (o.map toList).getD []

/-- The same, with the keys. -/
def leftPairs (o : Option (HalfOrderNode β)) : List (Int × β) := (o.map pairs).getD []

/-- The last node is taken off. -/
theorem dropLast_perm : t.pairs.Perm (t.dropLast.1 :: leftPairs t.dropLast.2) := by
  induction t with
  | leaf k d c => exact .refl _
  | one k d c l ih =>
    have hl : leftPairs (one k d c l).dropLast.2 = (k, d) :: leftPairs l.dropLast.2 := by
      rw [dropLast]
      cases l.dropLast.2 <;> rfl
    rw [hl]
    calc (k, d) :: l.pairs
      List.Perm _ ((k, d) :: l.dropLast.1 :: leftPairs l.dropLast.2) := ih.cons (k, d)
      List.Perm _ (l.dropLast.1 :: (k, d) :: leftPairs l.dropLast.2) := .swap ..
  | two k d c l r ihl ihr =>
    by_cases hc : r.count ≤ l.count
    · have hl : leftPairs (two k d c l r).dropLast.2 =
          (k, d) :: (leftPairs l.dropLast.2 ++ r.pairs) := by
        rw [dropLast, if_pos hc]
        cases l.dropLast.2 <;> rfl
      rw [hl, dropLast, if_pos hc]
      calc (k, d) :: (l.pairs ++ r.pairs)
        List.Perm _ ((k, d) :: l.dropLast.1 :: (leftPairs l.dropLast.2 ++ r.pairs)) :=
          (ihl.append_right r.pairs).cons (k, d)
        List.Perm _ (l.dropLast.1 :: (k, d) :: (leftPairs l.dropLast.2 ++ r.pairs)) := .swap ..
    · have hr : leftPairs (two k d c l r).dropLast.2 =
          (k, d) :: (l.pairs ++ leftPairs r.dropLast.2) := by
        rw [dropLast, if_neg hc]
        cases r.dropLast.2 with
        | none => exact (congrArg ((k, d) :: ·) (List.append_nil l.pairs)).symm
        | some u => rfl
      rw [hr, dropLast, if_neg hc]
      calc (k, d) :: (l.pairs ++ r.pairs)
        List.Perm _ ((k, d) :: (l.pairs ++ r.dropLast.1 :: leftPairs r.dropLast.2)) :=
          (ihr.append_left l.pairs).cons (k, d)
        List.Perm _ (r.dropLast.1 :: (l.pairs ++ (k, d) :: leftPairs r.dropLast.2)) :=
          exchange_perm ..
        List.Perm _ (r.dropLast.1 :: (k, d) :: (l.pairs ++ leftPairs r.dropLast.2)) :=
          List.perm_middle.cons _

/-- The top stays, and counts one less. -/
theorem dropLast_top (h : t.dropLast.2 = some u) :
    u.key = t.key ∧ u.data = t.data ∧ u.count = t.count - 1 := by
  cases t with
  | leaf k d c => cases h
  | one k d c l =>
    unfold dropLast at h
    cases hl : l.dropLast.2 with
    | none | some _ =>
      rw [hl] at h
      cases h
      exact ⟨rfl, rfl, rfl⟩
  | two k d c l r =>
    unfold dropLast at h
    split at h
    · cases hl : l.dropLast.2 with
      | none | some _ =>
        rw [hl] at h
        cases h
        exact ⟨rfl, rfl, rfl⟩
    · cases hr : r.dropLast.2 with
      | none | some _ =>
        rw [hr] at h
        cases h
        exact ⟨rfl, rfl, rfl⟩

/-- The top goes down; where it was comes one of those under it. -/
theorem sift_perm : (t.sift k d).pairs.Perm ((k, d) :: t.pairs.tail) := by
  induction t with
  | leaf k' d' c => exact .refl _
  | one k' d' c l ih =>
    unfold sift
    split
    · exact .refl _
    · calc (l.key, l.data) :: (l.sift k d).pairs
        List.Perm _ ((l.key, l.data) :: (k, d) :: l.pairs.tail) := ih.cons _
        List.Perm _ ((k, d) :: (l.key, l.data) :: l.pairs.tail) := .swap ..
        List.Perm _ ((k, d) :: l.pairs) := by rw [← pairs_eq]
  | two k' d' c l r ihl ihr =>
    unfold sift
    split
    · exact .refl _
    · split
      · calc (l.key, l.data) :: ((l.sift k d).pairs ++ r.pairs)
          List.Perm _ ((l.key, l.data) :: (k, d) :: (l.pairs.tail ++ r.pairs)) :=
            (ihl.append_right r.pairs).cons _
          List.Perm _ ((k, d) :: (l.key, l.data) :: (l.pairs.tail ++ r.pairs)) := .swap ..
          List.Perm _ ((k, d) :: (l.pairs ++ r.pairs)) := by
            rw [pairs_eq (t := l)]
            exact .refl _
      · calc (r.key, r.data) :: (l.pairs ++ (r.sift k d).pairs)
          List.Perm _ ((r.key, r.data) :: (l.pairs ++ (k, d) :: r.pairs.tail)) :=
            (ihr.append_left l.pairs).cons _
          List.Perm _ ((k, d) :: (l.pairs ++ (r.key, r.data) :: r.pairs.tail)) := exchange_perm ..
          List.Perm _ ((k, d) :: (l.pairs ++ r.pairs)) := by rw [← pairs_eq]

theorem count_sift : (t.sift k d).count = t.count := by
  cases t with
  | leaf k' d' c => rfl
  | one k' d' c l =>
    unfold sift
    split <;> rfl
  | two k' d' c l r =>
    unfold sift
    split_ifs <;> rfl

/-- `del` takes the key and the data of the top, and nothing else. -/
theorem removed_perm (hu : t.dropLast.2 = some u) :
    t.pairs.Perm ((t.key, t.data) :: (u.sift t.dropLast.1.1 t.dropLast.1.2).pairs) := by
  have hp := dropLast_perm (t := t)
  rw [hu] at hp
  calc t.pairs
    List.Perm _ (t.dropLast.1 :: u.pairs) := hp
    List.Perm _ ((t.key, t.data) :: t.dropLast.1 :: u.pairs.tail) := by
      rw [pairs_eq (t := u), (dropLast_top hu).1, (dropLast_top hu).2.1]
      exact .swap ..
    List.Perm _ ((t.key, t.data) :: (u.sift t.dropLast.1.1 t.dropLast.1.2).pairs) :=
      sift_perm.symm.cons _

/-- The last node is the top only if it is alone. -/
theorem leaf_of_dropLast_none (hu : t.dropLast.2 = none) : t = leaf t.key t.data t.count := by
  cases t with
  | leaf k d c => rfl
  | one k d c l =>
    unfold dropLast at hu
    cases hl : l.dropLast.2 <;> rw [hl] at hu <;> cases hu
  | two k d c l r =>
    unfold dropLast at hu
    split at hu
    · cases hl : l.dropLast.2 <;> rw [hl] at hu <;> cases hu
    · cases hr : r.dropLast.2 <;> rw [hr] at hu <;> cases hu

theorem pairs_of_dropLast_none (hu : t.dropLast.2 = none) : t.pairs = [(t.key, t.data)] := by
  rw [leaf_of_dropLast_none hu]
  rfl

end HalfOrderNode

/-- `stdHalfOrderQueue`; the top counts all that is in it. -/
structure HalfOrderQueue (β : Type) where
  top : Option (HalfOrderNode β)
  counted : ∀ t ∈ top, t.count = t.toList.length

namespace HalfOrderQueue

open HalfOrderNode

variable {β : Type}

def empty : HalfOrderQueue β := ⟨none, nofun⟩

/-- `count()`. -/
def count (q : HalfOrderQueue β) : Nat :=
  match q.top with
  | none => 0
  | some t => t.count

def ins (q : HalfOrderQueue β) (key : Int) (data : β) : HalfOrderQueue β where
  top := some (match q.top with
    | none => .leaf key data 1
    | some t => t.ins key data)
  counted := by
    rintro t ht
    cases ht
    cases hq : q.top with
    | none => rfl
    | some t =>
      change (t.ins key data).count = (t.ins key data).toList.length
      rw [count_ins, q.counted t hq, ← length_pairs, ← length_pairs,
        (ins_perm key data).length_eq]
      rfl

theorem counted_del {t u : HalfOrderNode β} (hc : t.count = t.toList.length)
    (hu : t.dropLast.2 = some u) :
    (u.sift t.dropLast.1.1 t.dropLast.1.2).count =
      (u.sift t.dropLast.1.1 t.dropLast.1.2).toList.length := by
  have hp := (removed_perm hu).length_eq
  rw [List.length_cons, length_pairs, length_pairs, ← hc] at hp
  rw [count_sift, (dropLast_top hu).2.2, hp]
  rfl

/-- `del()`. -/
def del (q : HalfOrderQueue β) : Option (β × HalfOrderQueue β) :=
  match hq : q.top with
  | none => none
  | some t =>
    match hu : t.dropLast.2 with
    | none => some (t.data, empty)
    | some u => some (t.data, {
        top := some (u.sift t.dropLast.1.1 t.dropLast.1.2)
        counted := by
          rintro v hv
          cases hv
          exact counted_del (q.counted t hq) hu })

def toList (q : HalfOrderQueue β) : List β := left q.top

def pairs (q : HalfOrderQueue β) : List (Int × β) := leftPairs q.top

variable {q q' : HalfOrderQueue β} {x : β}

theorem map_pairs : q.pairs.map Prod.snd = q.toList := by
  unfold pairs toList
  cases q.top with
  | none => rfl
  | some t => exact HalfOrderNode.map_pairs

theorem pairs_ins (q : HalfOrderQueue β) (key : Int) (x : β) :
    (q.ins key x).pairs.Perm ((key, x) :: q.pairs) := by
  obtain ⟨top, hc⟩ := q
  cases top with
  | none => exact .refl _
  | some t => exact ins_perm key x

theorem pairs_del (h : q.del = some (x, q')) :
    ∃ t, q.top = some t ∧ x = t.data ∧ q.pairs.Perm ((t.key, x) :: q'.pairs) := by
  unfold del at h
  split at h
  · cases h
  · rename_i t hq
    have hp : q.pairs = t.pairs := by
      rw [pairs, hq]
      rfl
    rw [hp]
    split at h
    · rename_i hu
      cases h
      refine ⟨t, hq, rfl, ?_⟩
      rw [pairs_of_dropLast_none hu]
      exact .refl _
    · rename_i u hu
      cases h
      exact ⟨t, hq, rfl, removed_perm hu⟩

theorem toList_ins (q : HalfOrderQueue β) (key : Int) (x : β) :
    (q.ins key x).toList.Perm (x :: q.toList) := by
  have hp := (pairs_ins q key x).map Prod.snd
  rwa [map_pairs, List.map_cons, map_pairs] at hp

theorem toList_del (h : q.del = some (x, q')) : q.toList.Perm (x :: q'.toList) := by
  obtain ⟨t, -, -, hp⟩ := pairs_del h
  have hp := hp.map Prod.snd
  rwa [map_pairs, List.map_cons, map_pairs] at hp

theorem count_eq_zero : q.count = 0 ↔ q.toList = [] := by
  unfold count toList
  cases hq : q.top with
  | none => simp [left]
  | some t =>
    have hc := q.counted t hq
    change t.count = 0 ↔ t.toList = []
    rw [hc]
    exact List.length_eq_zero_iff

end HalfOrderQueue

end TinyState
