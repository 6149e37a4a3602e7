import Mathlib.Data.List.Perm.Basic
import Mathlib.Logic.Equiv.Basic
import Mathlib.Data.List.Nodup
import Mathlib.Data.List.Range

/-!
# Heaps in an array

The children of the slot `i` are the slots `2 * i + 1` and `2 * i + 2`. While an element is on
its way up or down, only the edges above or below its slot may be out of order.
-/

namespace ImplicitHeap

variable {α : Type*}

def parent (i : Nat) : Nat := (i - 1) / 2

theorem parent_lt {i : Nat} (h : 0 < i) : parent i < i := by
  unfold parent
  omega

theorem parent_eq {i j : Nat} (hj : 0 < j) : parent j = i ↔ j = 2 * i + 1 ∨ j = 2 * i + 2 := by
  unfold parent
  omega

/-- What the slots `i` and `j` hold is exchanged. -/
def swap (a : Nat → α) (i j : Nat) : Nat → α :=
  Function.update (Function.update a i (a j)) j (a i)

/-- The first `n` slots. -/
def contents (n : Nat) (a : Nat → α) : List α := (List.range n).map a

section

variable (le : α → α → Prop) (n : Nat) (a : Nat → α)

def Ordered : Prop := ∀ i, 0 < i → i < n → le (a (parent i)) (a i)

/-- All but the edge above `i` is in order, and would be without `i` as well. -/
structure UpReady (i : Nat) : Prop where
  others : ∀ j, 0 < j → j < n → j ≠ i → le (a (parent j)) (a j)
  skip : 0 < i → ∀ j, 0 < j → j < n → parent j = i → le (a (parent i)) (a j)

/-- All but the edges below `i` is in order, and would be without `i` as well. -/
structure DownReady (i : Nat) : Prop where
  others : ∀ j, 0 < j → j < n → parent j ≠ i → le (a (parent j)) (a j)
  skip : 0 < i → ∀ j, 0 < j → j < n → parent j = i → le (a (parent i)) (a j)

end

variable {le : α → α → Prop} {n i j c : Nat} {a : Nat → α}

theorem swap_left (h : i ≠ j) : swap a i j i = a j := by simp [swap, h]

@[simp] theorem swap_right : swap a i j j = a i := Function.update_self ..

theorem swap_of_ne {k : Nat} (hi : k ≠ i) (hj : k ≠ j) : swap a i j k = a k := by
  simp [swap, hi, hj]

-- ---------------------------------------------------------------------------
-- Order
-- ---------------------------------------------------------------------------

/-- The element in `i` changes places with a parent that is not less. -/
theorem UpReady.swap (h : UpReady le n a i) (ht : ∀ {x y z}, le x y → le y z → le x z)
    (hi : 0 < i) (hn : i < n) (hle : le (a i) (a (parent i))) :
    UpReady le n (swap a (parent i) i) (parent i) := by
  have hp : parent i ≠ i := Nat.ne_of_lt (parent_lt hi)
  have hup : 0 < parent i → le (a (parent (parent i))) (a (parent i)) := fun h0 =>
    h.others _ h0 (Nat.lt_trans (parent_lt hi) hn) hp
  refine ⟨fun j hj hjn hne => ?_, fun h0 j hj hjn he => ?_⟩
  · by_cases hji : j = i
    · subst hji
      rw [swap_left hp, swap_right]
      exact hle
    · rw [swap_of_ne hne hji]
      by_cases hpi : parent j = i
      · rw [hpi, swap_right]
        exact h.skip hi j hj hjn hpi
      · by_cases hpp : parent j = parent i
        · rw [hpp, swap_left hp]
          exact ht hle (hpp ▸ h.others j hj hjn hji)
        · rw [swap_of_ne hpp hpi]
          exact h.others j hj hjn hji
  · have hlt := parent_lt h0
    rw [swap_of_ne (Nat.ne_of_lt hlt) (Nat.ne_of_lt (Nat.lt_trans hlt (parent_lt hi)))]
    by_cases hji : j = i
    · subst hji
      rw [swap_right]
      exact hup h0
    · rw [swap_of_ne (he ▸ (Nat.ne_of_lt (parent_lt hj)).symm) hji]
      exact ht (hup h0) (he ▸ h.others j hj hjn hji)

theorem UpReady.ordered (h : UpReady le n a i)
    (hi : 0 < i → le (a (parent i)) (a i)) : Ordered le n a := fun j hj hjn =>
  if hji : j = i then hji ▸ hi (hji ▸ hj) else h.others j hj hjn hji

/-- The element in `i` changes places with its least child. -/
theorem DownReady.swap (h : DownReady le n a i) (hc : 0 < c) (hcn : c < n)
    (hp : parent c = i) (hle : le (a c) (a i))
    (hleast : ∀ j, 0 < j → j < n → parent j = i → le (a c) (a j)) :
    DownReady le n (swap a i c) c := by
  have hic : i < c := hp ▸ parent_lt hc
  refine ⟨fun j hj hjn hne => ?_, fun _ j hj hjn he => ?_⟩
  · by_cases hji : j = i
    · subst hji
      rw [swap_left (Nat.ne_of_lt hic),
        swap_of_ne (Nat.ne_of_lt (parent_lt hj)) hne]
      exact h.skip hj c hc hcn hp
    · by_cases hpi : parent j = i
      · rw [hpi, swap_left (Nat.ne_of_lt hic)]
        by_cases hjc : j = c
        · subst hjc
          rw [swap_right]
          exact hle
        · rw [swap_of_ne hji hjc]
          exact hleast j hj hjn hpi
      · have hjc : j ≠ c := fun he => hpi (he ▸ hp)
        rw [swap_of_ne hpi hne, swap_of_ne hji hjc]
        exact h.others j hj hjn hpi
  · have hcj : c < j := he ▸ parent_lt hj
    rw [hp, swap_left (Nat.ne_of_lt hic),
      swap_of_ne (Nat.ne_of_gt (Nat.lt_trans hic hcj)) (Nat.ne_of_gt hcj), ← he]
    exact h.others j hj hjn (he ▸ Nat.ne_of_gt hic)

theorem DownReady.ordered (h : DownReady le n a i)
    (hi : ∀ j, 0 < j → j < n → parent j = i → le (a i) (a j)) : Ordered le n a :=
  fun j hj hjn => if hji : parent j = i then hji ▸ hi j hj hjn hji else h.others j hj hjn hji

/-- The top of a heap is its least element. -/
theorem Ordered.top_le (h : Ordered le n a) (hr : ∀ x, le x x)
    (ht : ∀ {x y z}, le x y → le y z → le x z) (hi : i < n) : le (a 0) (a i) := by
  induction i using Nat.strong_induction_on with
  | _ i ih =>
    rcases Nat.eq_zero_or_pos i with rfl | h0
    · exact hr _
    · exact ht (ih _ (parent_lt h0) (Nat.lt_trans (parent_lt h0) hi)) (h i h0 hi)

/-- A new last element may have to go up. -/
theorem Ordered.upReady (h : Ordered le n a) : UpReady le (n + 1) a n := by
  refine ⟨fun j hj hjn hne => h j hj (by omega), fun _ j hj hjn he => ?_⟩
  have hlt := parent_lt hj
  omega

/-- Another element in `i` that is not less than what is above it may have to go down. -/
theorem Ordered.downReady (h : Ordered le n a) {x : α}
    (ht : ∀ {x y z}, le x y → le y z → le x z) (hin : i < n)
    (hx : 0 < i → le (a (parent i)) x) : DownReady le n (Function.update a i x) i := by
  refine ⟨fun j hj hjn hne => ?_, fun h0 j hj hjn he => ?_⟩
  · rw [Function.update_of_ne hne]
    by_cases hji : j = i
    · subst hji
      rw [Function.update_self]
      exact hx hj
    · rw [Function.update_of_ne hji]
      exact h j hj hjn
  · have hij : i < j := he ▸ parent_lt hj
    rw [Function.update_of_ne (Nat.ne_of_lt (parent_lt h0)), Function.update_of_ne (Nat.ne_of_gt hij)]
    exact ht (h i h0 hin) (he ▸ h j hj hjn)

theorem Ordered.mono {m : Nat} (h : Ordered le n a) (hm : m ≤ n) : Ordered le m a :=
  fun i hi hin => h i hi (Nat.lt_of_lt_of_le hin hm)

theorem Ordered.congr {b : Nat → α} (h : Ordered le n a) (hb : ∀ i < n, b i = a i) :
    Ordered le n b := fun i hi hin => by
  rw [hb i hin, hb _ (Nat.lt_trans (parent_lt hi) hin)]
  exact h i hi hin

-- ---------------------------------------------------------------------------
-- Contents
-- ---------------------------------------------------------------------------

theorem contents_succ : contents (n + 1) a = contents n a ++ [a n] := by
  rw [contents, List.range_succ, List.map_append]
  rfl

theorem contents_congr {b : Nat → α} (hb : ∀ i < n, b i = a i) : contents n b = contents n a :=
  List.map_congr_left fun i hi => hb i (List.mem_range.mp hi)

theorem mem_contents {x : α} : x ∈ contents n a ↔ ∃ i < n, a i = x := by
  simp [contents]

/-- An exchange in the array does not change what is in it. -/
theorem contents_swap (hi : i < n) (hj : j < n) : (contents n (swap a i j)).Perm (contents n a) := by
  have hs : swap a i j = a ∘ Equiv.swap i j := by
    funext k
    rw [Function.comp_apply, Equiv.swap_apply_def]
    split_ifs with h₁ h₂
    · subst h₁
      by_cases hk : k = j
      · rw [hk, swap_right]
      · exact swap_left hk
    · rw [h₂, swap_right]
    · exact swap_of_ne h₁ h₂
  have hp : ((List.range n).map (Equiv.swap i j)).Perm (List.range n) := by
    refine (List.perm_ext_iff_of_nodup ?_ List.nodup_range).mpr fun k => ?_
    · exact List.nodup_range.map (Equiv.injective _)
    · rw [List.mem_map]
      constructor
      · rintro ⟨m, hm, rfl⟩
        rw [List.mem_range] at hm ⊢
        rw [Equiv.swap_apply_def]
        split_ifs <;> assumption
      · intro hk
        refine ⟨Equiv.swap i j k, ?_, Equiv.swap_apply_self ..⟩
        rw [List.mem_range] at hk ⊢
        rw [Equiv.swap_apply_def]
        split_ifs <;> assumption
  rw [contents, hs, ← List.map_map]
  exact hp.map a

/-- The last element is put into the place of another. -/
theorem contents_move (hi : i < n) :
    (contents (n + 1) a).Perm (a i :: contents n (Function.update a i (a n))) := by
  have hs : contents n (Function.update a i (a n)) = contents n (swap a i n) :=
    contents_congr fun k hk => by rw [swap, Function.update_of_ne (Nat.ne_of_lt hk)]
  have hp := contents_swap (a := a) (i := i) (j := n) (Nat.lt_succ_of_lt hi) (Nat.lt_succ_self n)
  rw [contents_succ (a := swap a i n), swap_right] at hp
  rw [hs]
  exact hp.symm.trans List.perm_append_comm

end ImplicitHeap
