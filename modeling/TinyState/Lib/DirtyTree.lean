import Mathlib.Logic.Basic

/-!
# Marks that rise in a tree

A node holds something, or one of its children is marked; a mark on a node says
that whoever comes to the parent has to go on to it. Marks are set from a node
upwards, one at a time, and a collector takes them from the root downwards.

A busy node is *attended* when the marks above it lead to somebody: to one who
is still raising marks there, to a visit that is due, or to a collector that is
awake at the root.
-/

namespace DirtyTree

/-- What can be said of the nodes at one moment. -/
structure Tree (α : Type*) where
  root : α
  parent : α → α
  loaded : α → Prop
  marked : α → Prop
  rising : α → Prop
  due : α → Prop
  awake : Prop

namespace Tree

variable {α : Type*} (t : Tree α)

def Busy (i : α) : Prop := t.loaded i ∨ ∃ c, c ≠ t.root ∧ t.parent c = i ∧ t.marked c

/-- A node that somebody will come to, if the one above it is handled too. -/
def Handled (i : α) : Prop :=
  (i = t.root → t.awake) ∧ (i ≠ t.root → t.marked i ∨ t.rising i ∨ t.due i)

def Covered : Prop := ∀ i, t.Busy i → t.Handled i

inductive Attended : α → Prop
  | awake : t.awake → Attended t.root
  | rising {i} : t.rising i → Attended i
  | due {i} : t.due i → Attended i
  | marked {i} : i ≠ t.root → t.marked i → Attended (t.parent i) → Attended i

/-- The node is `i` or lies below it. -/
inductive Under (i : α) : α → Prop
  | refl : Under i i
  | child {j} : j ≠ t.root → Under i (t.parent j) → Under i j

variable {t} {t' : Tree α} {i j : α}

theorem Handled.root (h : t.awake) : t.Handled t.root := ⟨fun _ => h, fun hn => absurd rfl hn⟩

theorem Handled.node (hi : i ≠ t.root) (h : t.marked i ∨ t.rising i ∨ t.due i) : t.Handled i :=
  ⟨fun he => absurd he hi, fun _ => h⟩

/-- What becomes busy has to be handled, and what was handled to stay so. -/
theorem Covered.change (h : t.Covered) (busy : ∀ i, t'.Busy i → t.Busy i ∨ t'.Handled i)
    (handled : ∀ i, t'.Busy i → t.Handled i → t'.Handled i) : t'.Covered := by
  intro i hi
  rcases busy i hi with hb | hd
  · exact handled i hi (h i hb)
  · exact hd

/-- In a tree, whose parents lead to the root, every busy node is attended. -/
theorem Covered.attended (h : t.Covered) (rank : α → Nat)
    (hr : ∀ i, i ≠ t.root → rank (t.parent i) < rank i) (hi : t.Busy i) : t.Attended i := by
  induction hn : rank i using Nat.strongRecOn generalizing i with
  | _ n ih =>
    by_cases he : i = t.root
    · subst he
      exact .awake ((h _ hi).1 rfl)
    · rcases (h i hi).2 he with hm | hs | hd
      · exact .marked he hm (ih _ (hn ▸ hr i he) (.inr ⟨i, he, rfl, hm⟩) rfl)
      · exact .rising hs
      · exact .due hd

/-- Where nobody attends, nothing is busy. -/
theorem Attended.somebody (h : t.Attended i) : t.awake ∨ (∃ j, t.rising j) ∨ ∃ j, t.due j := by
  induction h with
  | awake h => exact .inl h
  | rising h => exact .inr (.inl ⟨_, h⟩)
  | due h => exact .inr (.inr ⟨_, h⟩)
  | marked _ _ _ ih => exact ih

/-- The marks of an attended node lead to the root, which is then busy, or to
somebody on the way. -/
theorem Attended.onTheWay (h : t.Attended i) (hi : t.Busy i) :
    t.Busy t.root ∨ ∃ j, t.Under j i ∧ (t.rising j ∨ t.due j) := by
  induction h with
  | awake _ => exact .inl hi
  | rising h => exact .inr ⟨_, .refl, .inl h⟩
  | due h => exact .inr ⟨_, .refl, .inr h⟩
  | marked hn hm _ ih =>
    rcases ih (.inr ⟨_, hn, rfl, hm⟩) with hr | ⟨j, hj, hs⟩
    · exact .inl hr
    · exact .inr ⟨j, .child hn hj, hs⟩

end Tree

end DirtyTree
