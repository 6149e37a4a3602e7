import Mathlib.Data.Finset.Card

/-!
# Permits and those who wait for them

Somebody who finds no permit waits in a room; a permit that comes free has one
of those who wait woken, and whoever is woken asks again. Anybody may ask again
at any time, so that the permit may be gone by then.

The room is *fair* when nobody waits who has a permit or has just been woken,
and when there are as many awake, or about to be woken, as there are permits
that could be taken by those who wait.
-/

namespace Permits

/-- `due` are the wakenings that are still to be made. -/
structure Room (α : Type*) where
  free : Int
  holding : Finset α
  waiting : Finset α
  woken : Finset α
  due : Nat

namespace Room

variable {α : Type*}

structure Fair (r : Room α) : Prop where
  apart : ∀ x ∈ r.holding, x ∉ r.waiting
  left : ∀ x ∈ r.woken, x ∉ r.waiting
  served : r.waiting.Nonempty → r.free ≤ r.woken.card + r.due

/-- The permits there are. -/
def total (r : Room α) : Int := r.free + r.holding.card

/-- There are more permits from here on. -/
def widen (r : Room α) (n : Nat) : Room α :=
  { r with
    free := r.free + n
    due := r.due + n }

def narrow (r : Room α) (n : Nat) : Room α := { r with free := r.free - n }

variable {r : Room α} {x : α} {n : Nat}

/-- Where nobody waits, no wakening is due. -/
theorem Fair.idle (h : r.Fair) (hw : r.waiting = ∅) (n : Nat) :
    ({ r with due := n } : Room α).Fair where
  apart := h.apart
  left := h.left
  served hn := absurd hw hn.ne_empty

theorem Fair.widen (h : r.Fair) (n : Nat) : (r.widen n).Fair where
  apart := h.apart
  left := h.left
  served hw := by
    have hs := h.served hw
    simp only [Room.widen]
    omega

theorem Fair.narrow (h : r.Fair) (n : Nat) : (r.narrow n).Fair where
  apart := h.apart
  left := h.left
  served hw := by
    have hs := h.served hw
    simp only [Room.narrow]
    omega

/-- Nobody is stranded: where a permit is free and somebody waits, one who has
been woken is on the way, or one is about to be woken. -/
theorem Fair.someone (h : r.Fair) (hf : 0 < r.free) (hw : r.waiting.Nonempty) :
    r.woken.Nonempty ∨ 0 < r.due := by
  have hs := h.served hw
  rcases Finset.eq_empty_or_nonempty r.woken with he | he
  · right
    rw [he, Finset.card_empty] at hs
    omega
  · exact .inl he

variable [DecidableEq α]

def take (r : Room α) (x : α) : Room α :=
  { r with
    free := r.free - 1
    holding := insert x r.holding
    woken := r.woken.erase x }

def refuse (r : Room α) (x : α) : Room α :=
  { r with
    waiting := insert x r.waiting
    woken := r.woken.erase x }

/-- `n` wakenings are to follow. -/
def give (r : Room α) (x : α) (n : Nat) : Room α :=
  { r with
    free := r.free + 1
    holding := r.holding.erase x
    due := r.due + n }

def wake (r : Room α) (x : α) : Room α :=
  { r with
    waiting := r.waiting.erase x
    woken := insert x r.woken
    due := r.due - 1 }

/-- `x` is not there any more. -/
def leave (r : Room α) (x : α) : Room α :=
  { r with
    waiting := r.waiting.erase x
    woken := r.woken.erase x }

/-- Who takes a permit does not wait any more. -/
theorem Fair.take (h : r.Fair) (hx : x ∉ r.waiting) : (r.take x).Fair where
  apart y hy := by
    rcases Finset.mem_insert.mp hy with rfl | hy
    · exact hx
    · exact h.apart y hy
  left y hy := h.left y (Finset.mem_of_mem_erase hy)
  served hw := by
    have hs := h.served hw
    have hc := Finset.pred_card_le_card_erase (s := r.woken) (a := x)
    simp only [Room.take]
    omega

theorem Fair.refuse (h : r.Fair) (hf : r.free ≤ 0) (hx : x ∉ r.holding) : (r.refuse x).Fair where
  apart y hy hw := by
    rcases Finset.mem_insert.mp hw with rfl | hw
    · exact hx hy
    · exact h.apart y hy hw
  left y hy hw := by
    obtain ⟨hne, hy⟩ := Finset.mem_erase.mp hy
    rcases Finset.mem_insert.mp hw with rfl | hw
    · exact hne rfl
    · exact h.left y hy hw
  served _ := by
    simp only [Room.refuse]
    omega

/-- A permit is given back, and unless none is free yet somebody is to be woken. -/
theorem Fair.give (h : r.Fair) (hn : 0 < n ∨ r.free + 1 ≤ 0) : (r.give x n).Fair where
  apart y hy := h.apart y (Finset.mem_of_mem_erase hy)
  left := h.left
  served hw := by
    have hs := h.served hw
    simp only [Room.give]
    omega

theorem Fair.wake (h : r.Fair) (hx : x ∈ r.waiting) : (r.wake x).Fair where
  apart y hy hw := h.apart y hy (Finset.mem_of_mem_erase hw)
  left y hy hw := by
    rcases Finset.mem_insert.mp hy with rfl | hy
    · exact Finset.notMem_erase _ _ hw
    · exact h.left y hy (Finset.mem_of_mem_erase hw)
  served hw := by
    have hs := h.served (hw.mono (Finset.erase_subset x r.waiting))
    have hc : (insert x r.woken).card = r.woken.card + 1 :=
      Finset.card_insert_of_notMem fun hm => h.left x hm hx
    simp only [Room.wake, hc]
    omega

/-- Who has been woken may leave when the others who are awake are enough. -/
theorem Fair.leave (h : r.Fair)
    (hx : x ∈ r.woken → r.free < r.woken.card + r.due ∨ r.waiting = ∅) : (r.leave x).Fair where
  apart y hy hw := h.apart y hy (Finset.mem_of_mem_erase hw)
  left y hy hw := h.left y (Finset.mem_of_mem_erase hy) (Finset.mem_of_mem_erase hw)
  served hw := by
    have hne := hw.mono (Finset.erase_subset x r.waiting)
    have hs := h.served hne
    simp only [Room.leave]
    by_cases hm : x ∈ r.woken
    · have hc := Finset.card_erase_add_one hm
      rcases hx hm with hlt | hempty
      · omega
      · exact absurd hempty hne.ne_empty
    · rw [Finset.erase_eq_of_notMem hm]
      exact hs

-- ---------------------------------------------------------------------------
-- Permits are neither lost nor made
-- ---------------------------------------------------------------------------

theorem total_take (hx : x ∉ r.holding) : (r.take x).total = r.total := by
  simp only [total, take, Finset.card_insert_of_notMem hx]
  omega

theorem total_give (hx : x ∈ r.holding) : (r.give x n).total = r.total := by
  have hc := Finset.card_erase_add_one hx
  simp only [total, give]
  omega

end Room

end Permits
