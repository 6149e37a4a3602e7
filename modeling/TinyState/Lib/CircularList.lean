import Mathlib.Data.List.Nodup
import Mathlib.Logic.Function.Basic

/-!
# Circular lists through two links of their elements

The elements of a list are linked in both directions by fields of their own, and the last one is
linked with the first. What an operation writes lies between two neighbours, and the list may be
begun anywhere: a circular list is looked at from the element that matters.
-/

namespace CircularList

variable {α : Type*}

/-- From `a` the links lead through the elements of `l` to `b`, and back. -/
def Seg (next prev : α → Option α) : α → List α → α → Prop
  | a, [], b => next a = some b ∧ prev b = some a
  | a, x :: l, b => (next a = some x ∧ prev x = some a) ∧ Seg next prev x l b

/-- The links lead around the elements of the list, in its order. -/
def Circular (next prev : α → Option α) : List α → Prop
  | [] => True
  | x :: l => Seg next prev x l x

variable {next prev next' prev' : α → Option α} {a b x y z : α} {l l' : List α}

-- ---------------------------------------------------------------------------
-- Segments
-- ---------------------------------------------------------------------------

theorem seg_append :
    Seg next prev a (l ++ x :: l') b ↔ Seg next prev a l x ∧ Seg next prev x l' b := by
  induction l generalizing a with
  | nil => exact Iff.rfl
  | cons y l ih =>
    simp only [List.cons_append, Seg, ih]
    exact and_assoc.symm

theorem Seg.frame (h : Seg next prev a l b) (hn : ∀ u ∈ a :: l, next' u = next u)
    (hp : ∀ u ∈ l ++ [b], prev' u = prev u) : Seg next' prev' a l b := by
  induction l generalizing a with
  | nil =>
    refine ⟨?_, ?_⟩
    · rw [hn a List.mem_cons_self]
      exact h.1
    · rw [hp b List.mem_cons_self]
      exact h.2
  | cons x l ih =>
    refine ⟨⟨?_, ?_⟩, ih h.2 ?_ ?_⟩
    · rw [hn a List.mem_cons_self]
      exact h.1.1
    · rw [hp x List.mem_cons_self]
      exact h.1.2
    · exact fun u hu => hn u (List.mem_cons_of_mem a hu)
    · exact fun u hu => hp u (List.mem_cons_of_mem x hu)

/-- The last link of a segment is led elsewhere. -/
theorem Seg.toward (h : Seg next prev a l b) (hd : (a :: l).Nodup)
    (hn : ∀ u ∈ a :: l, u ≠ (a :: l).getLast (List.cons_ne_nil a l) → next' u = next u)
    (hp : ∀ u ∈ l, prev' u = prev u)
    (hz : next' ((a :: l).getLast (List.cons_ne_nil a l)) = some x)
    (hx : prev' x = some ((a :: l).getLast (List.cons_ne_nil a l))) : Seg next' prev' a l x := by
  induction l generalizing a with
  | nil => exact ⟨hz, hx⟩
  | cons y l ih =>
    have hlast : (a :: y :: l).getLast (List.cons_ne_nil a (y :: l)) =
        (y :: l).getLast (List.cons_ne_nil y l) := List.getLast_cons (List.cons_ne_nil y l)
    rw [hlast] at hz hx hn
    have ha : a ≠ (y :: l).getLast (List.cons_ne_nil y l) := fun he =>
      (List.nodup_cons.mp hd).1 (he ▸ List.getLast_mem _)
    refine ⟨⟨?_, ?_⟩, ih h.2 (List.nodup_cons.mp hd).2 ?_ ?_ hz hx⟩
    · rw [hn a List.mem_cons_self ha]
      exact h.1.1
    · rw [hp y List.mem_cons_self]
      exact h.1.2
    · exact fun u hu => hn u (List.mem_cons_of_mem a hu)
    · exact fun u hu => hp u (List.mem_cons_of_mem y hu)

theorem Seg.first (h : Seg next prev a l b) (hy : (l ++ [b]).head? = some y) :
    next a = some y ∧ prev y = some a := by
  cases l with
  | nil =>
    obtain rfl : b = y := Option.some.inj hy
    exact h
  | cons x l =>
    obtain rfl : x = y := Option.some.inj hy
    exact h.1

theorem Seg.last (h : Seg next prev a l b) :
    next ((a :: l).getLast (List.cons_ne_nil a l)) = some b ∧
      prev b = some ((a :: l).getLast (List.cons_ne_nil a l)) := by
  induction l generalizing a with
  | nil => exact h
  | cons y l ih =>
    rw [List.getLast_cons (List.cons_ne_nil y l)]
    exact ih h.2

-- ---------------------------------------------------------------------------
-- Around
-- ---------------------------------------------------------------------------

/-- A circular list may be begun at any of its elements. -/
theorem circular_focus : Circular next prev (l ++ x :: l') ↔ Seg next prev x (l' ++ l) x := by
  cases l with
  | nil => rw [List.append_nil]; exact Iff.rfl
  | cons y l =>
    rw [seg_append]
    change Seg next prev y (l ++ x :: l') y ↔ _
    rw [seg_append]
    exact and_comm

theorem circular_comm : Circular next prev (l ++ l') ↔ Circular next prev (l' ++ l) := by
  cases l' with
  | nil => rw [List.append_nil, List.nil_append]
  | cons x l' => exact circular_focus

/-- A new element between the last one and the first one. -/
theorem Seg.insert [DecidableEq α] (h : Seg next prev y l y) (hd : (y :: l).Nodup)
    (hx : x ∉ y :: l) (hz : prev y = some z) :
    Seg (Function.update (Function.update next x (some y)) z (some x))
      (Function.update (Function.update prev x (some z)) y (some x)) y (l ++ [x]) y := by
  have hlast : (y :: l).getLast (List.cons_ne_nil y l) = z :=
    Option.some.inj (h.last.2.symm.trans hz)
  have hzmem : z ∈ y :: l := hlast ▸ List.getLast_mem _
  have hxl {u : α} (hu : u ∈ y :: l) : u ≠ x := fun he => hx (he ▸ hu)
  refine seg_append.mpr ⟨h.toward hd ?_ ?_ ?_ ?_, ?_⟩
  · intro u hu hne
    rw [hlast] at hne
    rw [Function.update_of_ne hne, Function.update_of_ne (hxl hu)]
  · intro u hu
    have huy : u ≠ y := fun he => (List.nodup_cons.mp hd).1 (he ▸ hu)
    rw [Function.update_of_ne huy, Function.update_of_ne (hxl (List.mem_cons_of_mem y hu))]
  · rw [hlast, Function.update_self]
  · rw [hlast, Function.update_of_ne (hxl List.mem_cons_self).symm, Function.update_self]
  · refine ⟨?_, Function.update_self ..⟩
    rw [Function.update_of_ne (hxl hzmem).symm, Function.update_self]

/-- The element that the list is looked at from goes, and leaves others. -/
theorem Seg.erase [DecidableEq α] {y : α} (h : Seg next prev x (y :: l) x)
    (hd : (x :: y :: l).Nodup) (hz : prev x = some z) :
    Seg (Function.update (Function.update next z (some y)) x none)
      (Function.update (Function.update prev y (some z)) x none) y l y := by
  have hlast : (y :: l).getLast (List.cons_ne_nil y l) = z :=
    Option.some.inj (h.2.last.2.symm.trans hz)
  have hzmem : z ∈ y :: l := hlast ▸ List.getLast_mem _
  have hxl {u : α} (hu : u ∈ y :: l) : u ≠ x := fun he => (List.nodup_cons.mp hd).1 (he ▸ hu)
  have hyl {u : α} (hu : u ∈ l) : u ≠ y := fun he =>
    (List.nodup_cons.mp (List.nodup_cons.mp hd).2).1 (he ▸ hu)
  refine h.2.toward (List.nodup_cons.mp hd).2 ?_ ?_ ?_ ?_
  · intro u hu hne
    rw [hlast] at hne
    rw [Function.update_of_ne (hxl hu), Function.update_of_ne hne]
  · intro u hu
    rw [Function.update_of_ne (hxl (List.mem_cons_of_mem y hu)),
      Function.update_of_ne (hyl hu)]
  · rw [hlast, Function.update_of_ne (hxl hzmem), Function.update_self]
  · rw [hlast, Function.update_of_ne (hxl List.mem_cons_self), Function.update_self]

/-- What is written elsewhere does not matter. -/
theorem Circular.frame (h : Circular next prev l) (hn : ∀ u ∈ l, next' u = next u)
    (hp : ∀ u ∈ l, prev' u = prev u) : Circular next' prev' l := by
  cases l with
  | nil => trivial
  | cons x l =>
    refine Seg.frame h hn fun u hu => ?_
    rcases List.mem_append.mp hu with hu | hu
    · exact hp u (List.mem_cons_of_mem x hu)
    · exact hp u (List.mem_singleton.mp hu ▸ List.mem_cons_self)

end CircularList
