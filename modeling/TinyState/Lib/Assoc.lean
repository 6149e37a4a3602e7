import Mathlib.Data.List.Basic

/-!
# Lists of named values

What is looked up in a list of pairs, after a value has been put in its place or pairs have been
taken out.
-/

namespace Assoc

variable {κ ν : Type*} [DecidableEq κ] {k j : κ} {x y : ν} {p : κ × ν} {ps : List (κ × ν)}

theorem lookup_cons (k j : κ) (y : ν) (ps : List (κ × ν)) :
    ((j, y) :: ps).lookup k = if k = j then some y else ps.lookup k := by
  by_cases h : k = j
  · simp [h]
  · simp [List.lookup_cons, h, beq_false_of_ne h]

theorem lookup_filter (f : κ → Bool) (k : κ) (ps : List (κ × ν)) :
    (ps.filter fun p => f p.1).lookup k = if f k then ps.lookup k else none := by
  induction ps with
  | nil => simp
  | cons p ps ih =>
    obtain ⟨j, y⟩ := p
    by_cases hj : f j
    · by_cases hk : k = j
      · subst hk
        simp [hj]
      · simp [hj, lookup_cons, hk, ih]
    · by_cases hk : k = j
      · subst hk
        simp [hj, ih]
      · simp [hj, lookup_cons, hk, ih]

theorem mem_of_lookup (h : ps.lookup k = some x) : (k, x) ∈ ps := by
  induction ps with
  | nil => cases h
  | cons p ps ih =>
    obtain ⟨j, y⟩ := p
    rw [lookup_cons] at h
    split at h
    · rename_i hk
      cases h
      subst hk
      exact List.mem_cons_self
    · exact List.mem_cons_of_mem _ (ih h)

/-- The value named `k` becomes `x`. -/
def put (k : κ) (x : ν) : List (κ × ν) → List (κ × ν)
  | [] => [(k, x)]
  | (j, y) :: ps => if j = k then (k, x) :: ps else (j, y) :: put k x ps

example (k : κ) (x : ν) : put k x [] = [(k, x)] := by simp [put]

theorem lookup_put (k j : κ) (x : ν) (ps : List (κ × ν)) :
    (put k x ps).lookup j = if j = k then some x else ps.lookup j := by
  induction ps with
  | nil => simp [put, lookup_cons]
  | cons p ps ih =>
    obtain ⟨i, y⟩ := p
    simp only [put]
    split
    · rename_i hi
      subst hi
      by_cases h : j = i
      · simp [h]
      · simp [lookup_cons, h]
    · rename_i hi
      by_cases h : j = i
      · subst h
        simp [hi]
      · simp [lookup_cons, h, ih]

theorem mem_put (h : p ∈ put k x ps) : p = (k, x) ∨ p ∈ ps := by
  induction ps with
  | nil => simpa [put] using h
  | cons q ps ih =>
    obtain ⟨j, y⟩ := q
    simp only [put] at h
    split at h
    · rcases List.mem_cons.mp h with h | h
      · exact .inl h
      · exact .inr (List.mem_cons_of_mem _ h)
    · rcases List.mem_cons.mp h with h | h
      · exact .inr (h ▸ List.mem_cons_self)
      · exact (ih h).imp_right (List.mem_cons_of_mem _)

end Assoc
