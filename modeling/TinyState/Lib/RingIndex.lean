import Mathlib.Data.BitVec
import Mathlib.Data.Nat.ModEq
import Mathlib.Logic.Function.Basic
import Mathlib.Tactic.Ring

/-!
# Ring buffers with free running positions

The positions of a ring buffer that are never reset: they are numbers of `w` bits, and the slots
of a buffer whose length divides `2 ^ w` follow one another also where the positions wrap around.
-/

namespace RingIndex

variable {w L n : Nat} {ν : Type*} {head tail p q : BitVec w} {a : Nat → ν} {v : ν}

/-- How far a position is behind the tail. -/
def offset (tail p : BitVec w) : Nat := (p - tail).toNat

def slot (L : Nat) (p : BitVec w) : Nat := p.toNat % L

/-- The position is from the tail on, and before the head. -/
def Inside (head tail p : BitVec w) : Prop := offset tail p < offset tail head

/-- What is in the slots from the tail to the head. -/
def items (L : Nat) (a : Nat → ν) (head tail : BitVec w) : List ν :=
  (List.range (offset tail head)).map fun i => a (slot L (tail + BitVec.ofNat w i))

-- ---------------------------------------------------------------------------
-- Offsets
-- ---------------------------------------------------------------------------

@[simp] theorem offset_self (p : BitVec w) : offset p p = 0 := by simp [offset]

theorem offset_lt (tail p : BitVec w) : offset tail p < 2 ^ w := BitVec.isLt _

theorem offset_inj (h : offset tail p = offset tail q) : p = q :=
  sub_left_injective (BitVec.eq_of_toNat_eq h)

theorem add_offset (tail p : BitVec w) : tail + BitVec.ofNat w (offset tail p) = p := by
  rw [offset, BitVec.ofNat_toNat, BitVec.setWidth_eq]
  ring

theorem offset_eq_zero : offset tail p = 0 ↔ p = tail :=
  ⟨fun h => offset_inj (h.trans (offset_self tail).symm), fun h => h ▸ offset_self p⟩

theorem toNat_one_of_ne {x : BitVec w} (h : x.toNat ≠ 0) : (1 : BitVec w).toNat = 1 := by
  have hlt := x.isLt
  refine BitVec.toNat_one (Nat.pos_of_ne_zero fun hw => ?_)
  subst hw
  exact h (by omega)

theorem toNat_pred {x : BitVec w} (h : x.toNat ≠ 0) : (x - 1).toNat = x.toNat - 1 := by
  have hone := toNat_one_of_ne h
  have hle : (1 : BitVec w) ≤ x := by
    rw [BitVec.le_def, hone]
    exact Nat.one_le_iff_ne_zero.mpr h
  rw [BitVec.toNat_sub_of_le hle, hone]

theorem offset_succ (h : offset tail p + 1 < 2 ^ w) : offset tail (p + 1) = offset tail p + 1 := by
  have hone : (1 : BitVec w).toNat = 1 := by
    refine BitVec.toNat_one (Nat.pos_of_ne_zero fun hw => ?_)
    subst hw
    omega
  have hsum : p + 1 - tail = p - tail + 1 := by ring
  have hlt : (p - tail).toNat + (1 : BitVec w).toNat < 2 ^ w := by rwa [hone]
  rw [offset, hsum, BitVec.toNat_add_of_lt hlt, hone, offset]

theorem offset_pred (h : offset tail p ≠ 0) : offset tail (p - 1) = offset tail p - 1 := by
  have hsum : p - 1 - tail = p - tail - 1 := by ring
  rw [offset, hsum, toNat_pred h, offset]

theorem offset_next (h : offset tail p ≠ 0) : offset (tail + 1) p = offset tail p - 1 := by
  have hsum : p - (tail + 1) = p - tail - 1 := by ring
  rw [offset, hsum, toNat_pred h, offset]

theorem inside_next (h : head ≠ tail) :
    Inside head (tail + 1) p ↔ Inside head tail p ∧ p ≠ tail := by
  have hhead := offset_next (mt offset_eq_zero.mp h)
  unfold Inside
  by_cases hp : p = tail
  · subst hp
    have hback : offset (p + 1) p = 2 ^ w - 1 := by
      have hneg : p - (p + 1) = -1 := by ring
      rw [offset, hneg]
      exact BitVec.toNat_allOnes ▸ congrArg BitVec.toNat BitVec.neg_one_eq_allOnes
    have hlt := offset_lt p head
    rw [hback, hhead]
    simp only [ne_eq, not_true_eq_false, and_false, iff_false]
    omega
  · have hback := offset_next (mt offset_eq_zero.mp hp)
    have hne := mt offset_eq_zero.mp hp
    simp only [hback, hhead, hp, ne_eq, not_false_eq_true, and_true]
    omega

theorem inside_pred (h : head ≠ tail) :
    Inside (head - 1) tail p ↔ Inside head tail p ∧ p ≠ head - 1 := by
  have hne := mt offset_eq_zero.mp h
  have hhead := offset_pred hne
  unfold Inside
  constructor
  · intro hp
    refine ⟨by omega, fun he => ?_⟩
    rw [he] at hp
    exact Nat.lt_irrefl _ hp
  · rintro ⟨hp, hpe⟩
    have hoffset : offset tail p ≠ offset tail (head - 1) := fun he => hpe (offset_inj he)
    omega

theorem inside_succ (h : offset tail head + 1 < 2 ^ w) :
    Inside (head + 1) tail p ↔ p = head ∨ Inside head tail p := by
  have hhead := offset_succ h
  unfold Inside
  rw [hhead, Nat.lt_succ_iff_lt_or_eq, or_comm]
  exact or_congr ⟨offset_inj, fun he => he ▸ rfl⟩ Iff.rfl

-- ---------------------------------------------------------------------------
-- Slots
-- ---------------------------------------------------------------------------

theorem slot_eq (hL : L ∣ 2 ^ w) (tail p : BitVec w) :
    slot L p = (tail.toNat + offset tail p) % L := by
  have hp : p.toNat = (tail.toNat + offset tail p) % 2 ^ w := by
    rw [offset, ← BitVec.toNat_add]
    congr 1
    ring
  rw [slot, hp, Nat.mod_mod_of_dvd _ hL]

/-- No two positions within the length of the buffer have one slot. -/
theorem slot_inj (hL : L ∣ 2 ^ w) (hp : offset tail p < L) (hq : offset tail q < L)
    (h : slot L p = slot L q) : p = q := by
  rw [slot_eq hL tail p, slot_eq hL tail q] at h
  have hmod : offset tail p ≡ offset tail q [MOD L] := Nat.ModEq.add_left_cancel' _ h
  exact offset_inj (hmod.eq_of_lt_of_lt hp hq)

-- ---------------------------------------------------------------------------
-- Items
-- ---------------------------------------------------------------------------

theorem length_items : (items L a head tail).length = offset tail head := by simp [items]

/-- The tail goes on: the first item is left. -/
theorem items_tail (h : head ≠ tail) :
    items L a head tail = a (slot L tail) :: items L a head (tail + 1) := by
  have hne : offset tail head ≠ 0 := mt offset_eq_zero.mp h
  obtain ⟨n, hn⟩ := Nat.exists_eq_succ_of_ne_zero hne
  have hnext (i : Nat) : tail + BitVec.ofNat w (i + 1) = tail + 1 + BitVec.ofNat w i := by
    rw [BitVec.ofNat_add]
    change tail + (BitVec.ofNat w i + 1) = _
    ring
  rw [items, items, offset_next hne, hn, List.range_succ_eq_map, List.map_cons, List.map_map]
  congr 1
  · simp
  · exact List.map_congr_left fun i _ => congrArg (fun p => a (slot L p)) (hnext i)

/-- The head goes back: the last item is left. -/
theorem items_head (h : head ≠ tail) :
    items L a head tail = items L a (head - 1) tail ++ [a (slot L (head - 1))] := by
  have hne : offset tail head ≠ 0 := mt offset_eq_zero.mp h
  have hlast : tail + BitVec.ofNat w (offset tail head - 1) = head - 1 := by
    rw [← offset_pred hne, add_offset]
  obtain ⟨n, hn⟩ := Nat.exists_eq_succ_of_ne_zero hne
  rw [hn] at hlast
  rw [items, items, offset_pred hne, hn, List.range_succ]
  simpa using congrArg (fun p => a (slot L p)) hlast

/-- The head goes on: an item is added, and the others are as they were. -/
theorem items_push (hL : L ∣ 2 ^ w) (h : offset tail head < L) (hw : offset tail head + 1 < 2 ^ w) :
    items L (Function.update a (slot L head) v) (head + 1) tail = items L a head tail ++ [v] := by
  rw [items, items, offset_succ hw, List.range_succ, List.map_append, List.map_singleton,
    add_offset, Function.update_self]
  congr 1
  refine List.map_congr_left fun i hi => ?_
  have hi : i < offset tail head := List.mem_range.mp hi
  have hoffset : offset tail (tail + BitVec.ofNat w i) = i := by
    have hiw : i < 2 ^ w := Nat.lt_trans hi (offset_lt tail head)
    simp [offset, Nat.mod_eq_of_lt hiw]
  refine Function.update_of_ne (fun hs => ?_) ..
  have heq := slot_inj hL (hoffset.trans_lt (hi.trans h)) h hs
  rw [← heq, hoffset] at hi
  exact Nat.lt_irrefl _ hi

end RingIndex
