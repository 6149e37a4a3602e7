import Mathlib.Data.List.Basic

/-!
# Lists that go on with a default value

A list is followed by default values for as long as one likes: `extend l n` shows at least
`n` of them all, `resize l n` exactly `n`. An array that holds `l` and keeps its spare slots
at the default value is an extension of `l`.
-/

namespace DefaultExtension

variable {α : Type*} [Inhabited α] {l : List α} {m n i : Nat}

def extend (l : List α) (n : Nat) : List α := l ++ .replicate (n - l.length) default

def resize (l : List α) (n : Nat) : List α := (extend l n).take n

theorem extend_of_le (h : n ≤ l.length) : extend l n = l := by
  simp [extend, Nat.sub_eq_zero_of_le h]

theorem length_extend (l : List α) (n : Nat) : (extend l n).length = max l.length n := by
  simp only [extend, List.length_append, List.length_replicate]
  omega

theorem extend_extend (h : m ≤ n) : extend (extend l m) n = extend l n := by
  rw [extend, length_extend, extend, extend, List.append_assoc, List.replicate_append_replicate]
  congr 2
  omega

theorem resize_of_le (h : n ≤ l.length) : resize l n = l.take n := by
  rw [resize, extend_of_le h]

theorem resize_of_ge (h : l.length ≤ n) : resize l n = extend l n := by
  rw [resize, List.take_of_length_le]
  exact Nat.le_of_eq ((length_extend l n).trans (Nat.max_eq_right h))

theorem length_resize (l : List α) (n : Nat) : (resize l n).length = n := by
  rw [resize, List.length_take, length_extend]
  omega

theorem take_extend (l : List α) (n : Nat) : (extend l n).take l.length = l := by
  simp [extend]

/-- What is read of an extension does not depend on how far it was extended. -/
theorem getElem?_extend (h : i < n) : (extend l n)[i]? = some (l.getD i default) := by
  rw [extend, List.getD_eq_getElem?_getD]
  rcases Nat.lt_or_ge i l.length with hi | hi
  · rw [List.getElem?_append_left hi, List.getElem?_eq_getElem hi]
    rfl
  · rw [List.getElem?_append_right hi, List.getElem?_replicate_of_lt (by omega),
      List.getElem?_eq_none hi]
    rfl

theorem set_extend (x : α) (h : i < l.length) : (extend l n).set i x = extend (l.set i x) n := by
  rw [extend, extend, List.length_set, List.set_append_left _ _ h]

end DefaultExtension
