import Mathlib.Order.Lattice
import Mathlib.Data.List.Pairwise
import Mathlib.Order.Defs.LinearOrder

/-!
# Merging ascending lists

The union and the difference of two lists whose keys ascend strictly, in one walk over both.
-/

namespace OrderedMerge

variable {ω κ : Type*} [LinearOrder κ] (key : ω → κ)

def Ascending (l : List ω) : Prop := l.Pairwise fun x y => key x < key y

/-- Of two elements with one key that of the first list is taken. -/
def union : List ω → List ω → List ω
  | [], b => b
  | x :: a, [] => x :: a
  | x :: a, y :: b =>
    if key x < key y then x :: union a (y :: b)
    else if key y < key x then y :: union (x :: a) b
    else x :: union a b
termination_by a b => a.length + b.length

def difference : List ω → List ω → List ω
  | [], _ => []
  | x :: a, [] => x :: a
  | x :: a, y :: b =>
    if key x < key y then x :: difference a (y :: b)
    else if key y < key x then difference (x :: a) b
    else difference a b
termination_by a b => a.length + b.length

variable {key} {x : ω} {a b : List ω} {k : κ}

theorem Ascending.le_head (h : Ascending key (x :: a)) (hk : k ∈ (x :: a).map key) : key x ≤ k := by
  rcases List.mem_cons.mp hk with rfl | hk
  · exact le_refl _
  · obtain ⟨y, hy, rfl⟩ := List.mem_map.mp hk
    exact le_of_lt ((List.pairwise_cons.mp h).1 y hy)

/-- What is less than the head is not in the list. -/
theorem Ascending.not_mem (h : Ascending key (x :: a)) (hk : k < key x) : k ∉ (x :: a).map key :=
  fun hm => absurd (h.le_head hm) (not_le_of_gt hk)

theorem Ascending.tail (h : Ascending key (x :: a)) : Ascending key a := List.Pairwise.of_cons h

theorem Ascending.head_not_mem (h : Ascending key (x :: a)) : key x ∉ a.map key := by
  intro hm
  obtain ⟨y, hy, he⟩ := List.mem_map.mp hm
  exact lt_irrefl (key x) (he ▸ (List.pairwise_cons.mp h).1 y hy)

theorem Ascending.cons (h : Ascending key a) (hx : ∀ k ∈ a.map key, key x < k) :
    Ascending key (x :: a) :=
  List.pairwise_cons.mpr ⟨fun _ hy => hx _ (List.mem_map_of_mem hy), h⟩

-- ---------------------------------------------------------------------------
-- Union
-- ---------------------------------------------------------------------------

theorem mem_union_keys : k ∈ (union key a b).map key ↔ k ∈ a.map key ∨ k ∈ b.map key := by
  induction a, b using union.induct key with
  | case1 b => simp [union]
  | case2 x a => simp [union]
  | case3 x a y b hlt ih =>
    rw [union, if_pos hlt, List.map_cons, List.mem_cons, ih]
    simp only [List.map_cons, List.mem_cons, or_assoc]
  | case4 x a y b hlt hgt ih =>
    rw [union, if_neg hlt, if_pos hgt, List.map_cons, List.mem_cons, ih]
    simp only [List.map_cons, List.mem_cons]
    exact or_left_comm
  | case5 x a y b hlt hgt ih =>
    have he : key x = key y := le_antisymm (not_lt.mp hgt) (not_lt.mp hlt)
    rw [union, if_neg hlt, if_neg hgt, List.map_cons, List.mem_cons, ih]
    simp only [List.map_cons, List.mem_cons, ← he]
    exact or_or_distrib_left

theorem mem_union (h : x ∈ union key a b) : x ∈ a ∨ x ∈ b := by
  induction a, b using union.induct key with
  | case1 b =>
    rw [union] at h
    exact .inr h
  | case2 y a =>
    rw [union] at h
    exact .inl h
  | case3 y a z b hlt ih =>
    rw [union, if_pos hlt] at h
    rcases List.mem_cons.mp h with rfl | h
    · exact .inl List.mem_cons_self
    · exact (ih h).imp_left (List.mem_cons_of_mem y)
  | case4 y a z b hlt hgt ih =>
    rw [union, if_neg hlt, if_pos hgt] at h
    rcases List.mem_cons.mp h with rfl | h
    · exact .inr List.mem_cons_self
    · exact (ih h).imp_right (List.mem_cons_of_mem z)
  | case5 y a z b hlt hgt ih =>
    rw [union, if_neg hlt, if_neg hgt] at h
    rcases List.mem_cons.mp h with rfl | h
    · exact .inl List.mem_cons_self
    · exact (ih h).imp (List.mem_cons_of_mem y) (List.mem_cons_of_mem z)

theorem Ascending.union (ha : Ascending key a) (hb : Ascending key b) :
    Ascending key (union key a b) := by
  induction a, b using union.induct key with
  | case1 b =>
    rw [OrderedMerge.union]
    exact hb
  | case2 x a =>
    rw [OrderedMerge.union]
    exact ha
  | case3 x a y b hlt ih =>
    rw [OrderedMerge.union, if_pos hlt]
    refine (ih ha.tail hb).cons fun k hk => ?_
    rcases mem_union_keys.mp hk with hk | hk
    · exact lt_of_le_of_ne (ha.le_head (List.mem_cons_of_mem _ hk)) fun he =>
        ha.head_not_mem (he ▸ hk)
    · exact lt_of_lt_of_le hlt (hb.le_head hk)
  | case4 x a y b hlt hgt ih =>
    rw [OrderedMerge.union, if_neg hlt, if_pos hgt]
    refine (ih ha hb.tail).cons fun k hk => ?_
    rcases mem_union_keys.mp hk with hk | hk
    · exact lt_of_lt_of_le hgt (ha.le_head hk)
    · exact lt_of_le_of_ne (hb.le_head (List.mem_cons_of_mem _ hk)) fun he =>
        hb.head_not_mem (he ▸ hk)
  | case5 x a y b hlt hgt ih =>
    have he : key x = key y := le_antisymm (not_lt.mp hgt) (not_lt.mp hlt)
    rw [OrderedMerge.union, if_neg hlt, if_neg hgt]
    refine (ih ha.tail hb.tail).cons fun k hk => ?_
    rcases mem_union_keys.mp hk with hk | hk
    · exact lt_of_le_of_ne (ha.le_head (List.mem_cons_of_mem _ hk)) fun hx =>
        ha.head_not_mem (hx ▸ hk)
    · exact lt_of_le_of_ne (he ▸ hb.le_head (List.mem_cons_of_mem _ hk)) fun hx =>
        hb.head_not_mem (he ▸ hx ▸ hk)

-- ---------------------------------------------------------------------------
-- Difference
-- ---------------------------------------------------------------------------

theorem difference_sublist (a b : List ω) : (difference key a b).Sublist a := by
  induction a, b using difference.induct key with
  | case1 b => simp [difference]
  | case2 x a => simp [difference]
  | case3 x a y b hlt ih =>
    rw [difference, if_pos hlt]
    exact ih.cons_cons x
  | case4 x a y b hlt hgt ih =>
    rw [difference, if_neg hlt, if_pos hgt]
    exact ih
  | case5 x a y b hlt hgt ih =>
    rw [difference, if_neg hlt, if_neg hgt]
    exact ih.cons x

theorem Ascending.difference (ha : Ascending key a) (b : List ω) :
    Ascending key (difference key a b) :=
  List.Pairwise.sublist (difference_sublist a b) ha

theorem mem_difference_keys (ha : Ascending key a) (hb : Ascending key b) :
    k ∈ (difference key a b).map key ↔ k ∈ a.map key ∧ k ∉ b.map key := by
  induction a, b using difference.induct key with
  | case1 b => simp [difference]
  | case2 x a => simp [difference]
  | case3 x a y b hlt ih =>
    have hx : key x ∉ (y :: b).map key := hb.not_mem hlt
    rw [difference, if_pos hlt, List.map_cons, List.mem_cons, ih ha.tail hb]
    constructor
    · rintro (rfl | ⟨hk, hn⟩)
      · exact ⟨List.mem_cons_self, hx⟩
      · exact ⟨List.mem_cons_of_mem _ hk, hn⟩
    · rintro ⟨hk, hn⟩
      exact (List.mem_cons.mp hk).imp_right fun hk => ⟨hk, hn⟩
  | case4 x a y b hlt hgt ih =>
    have hy : key y ∉ (x :: a).map key := ha.not_mem hgt
    rw [difference, if_neg hlt, if_pos hgt, ih ha hb.tail]
    constructor
    · rintro ⟨hk, hn⟩
      refine ⟨hk, fun hb => ?_⟩
      rcases List.mem_cons.mp hb with rfl | hb
      · exact hy hk
      · exact hn hb
    · rintro ⟨hk, hn⟩
      exact ⟨hk, fun h => hn (List.mem_cons_of_mem _ h)⟩
  | case5 x a y b hlt hgt ih =>
    have he : key x = key y := le_antisymm (not_lt.mp hgt) (not_lt.mp hlt)
    rw [difference, if_neg hlt, if_neg hgt, ih ha.tail hb.tail, List.map_cons, List.map_cons,
      List.mem_cons, List.mem_cons, ← he]
    constructor
    · rintro ⟨hk, hn⟩
      refine ⟨.inr hk, ?_⟩
      rintro (rfl | hb)
      · exact ha.head_not_mem hk
      · exact hn hb
    · rintro ⟨hk, hn⟩
      exact ⟨hk.resolve_left fun h => hn (.inl h), fun h => hn (.inr h)⟩

end OrderedMerge
