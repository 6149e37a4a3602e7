import Mathlib.Data.List.Basic
import Mathlib.Data.List.TakeWhile

/-!
# Regular expressions with preferences

Regular expressions as backtracking matchers read them: an alternative is preferred to those
behind it, and one more round of a repetition to none. The ways in which a text can begin with a
match are listed by what they leave, the preferred one first.
-/

namespace Backtracking

variable {α : Type*}

inductive Regex (α : Type*)
  | char (p : α → Bool)
  | seq (r s : Regex α)
  | alt (r s : Regex α)
  | star (r : Regex α)

/-- Rounds that consume something, `n` at most. -/
def rounds (f : List α → List (List α)) : Nat → List α → List (List α)
  | 0, l => [l]
  | n + 1, l => ((f l).filter fun l' => l'.length < l.length).flatMap (rounds f n) ++ [l]

namespace Regex

/-- What the matches at the beginning of a text leave. -/
def ends : Regex α → List α → List (List α)
  | char _, [] => []
  | char p, a :: l => if p a then [l] else []
  | seq r s, l => (r.ends l).flatMap s.ends
  | alt r s, l => r.ends l ++ s.ends l
  | star r, l => rounds r.ends l.length l

/-- The first match: what is before it, the match, and what is behind it. -/
def exec (r : Regex α) : List α → Option (List α × List α × List α)
  | [] => (r.ends []).head?.map fun rest => ([], [], rest)
  | a :: l =>
    match (r.ends (a :: l)).head? with
    | some rest => some ([], (a :: l).take (l.length + 1 - rest.length), rest)
    | none => (r.exec l).map fun m => (a :: m.1, m.2)

/-- Can it match nothing? -/
def nullable : Regex α → Bool
  | char _ => false
  | seq r s => r.nullable && s.nullable
  | alt r s => r.nullable || s.nullable
  | star _ => true

-- ---------------------------------------------------------------------------
-- Lengths
-- ---------------------------------------------------------------------------

theorem rounds_suffix {f : List α → List (List α)} (hf : ∀ l, ∀ l' ∈ f l, l' <:+ l) (n : Nat)
    (l : List α) : ∀ l' ∈ rounds f n l, l' <:+ l := by
  induction n generalizing l with
  | zero => simp [rounds]
  | succ n ih =>
    intro l' h
    rcases List.mem_append.mp h with h | h
    · obtain ⟨m, hm, h⟩ := List.mem_flatMap.mp h
      exact (ih m l' h).trans (hf l m (List.mem_filter.mp hm).1)
    · simp only [List.mem_singleton] at h
      exact h ▸ List.suffix_refl l

theorem ends_suffix (r : Regex α) (l : List α) : ∀ l' ∈ r.ends l, l' <:+ l := by
  induction r generalizing l with
  | char p =>
    cases l with
    | nil => exact List.forall_mem_nil _
    | cons a l =>
      intro l' h
      simp only [ends] at h
      split at h
      · cases List.mem_singleton.mp h
        exact List.suffix_cons a l
      · cases h
  | seq r s ihr ihs =>
    intro l' h
    obtain ⟨m, hm, h⟩ := List.mem_flatMap.mp h
    exact (ihs m l' h).trans (ihr l m hm)
  | alt r s ihr ihs =>
    intro l' h
    rcases List.mem_append.mp h with h | h
    · exact ihr l l' h
    · exact ihs l l' h
  | star r ih => exact rounds_suffix ih l.length l

theorem ends_length (r : Regex α) {l l' : List α} (h : l' ∈ r.ends l) : l'.length ≤ l.length :=
  (r.ends_suffix l l' h).length_le

theorem ends_lt {r : Regex α} (hr : r.nullable = false) {l l' : List α} (h : l' ∈ r.ends l) :
    l'.length < l.length := by
  induction r generalizing l l' with
  | char p =>
    cases l with
    | nil => cases h
    | cons a l =>
      simp only [ends] at h
      split at h
      · cases List.mem_singleton.mp h
        exact Nat.lt_succ_self _
      · cases h
  | seq r s ihr ihs =>
    obtain ⟨m, hm, h⟩ := List.mem_flatMap.mp h
    rcases Bool.and_eq_false_iff.mp hr with hr | hs
    · exact Nat.lt_of_le_of_lt (s.ends_length h) (ihr hr hm)
    · exact Nat.lt_of_lt_of_le (ihs hs h) (r.ends_length hm)
  | alt r s ihr ihs =>
    obtain ⟨hr, hs⟩ := Bool.or_eq_false_iff.mp hr
    rcases List.mem_append.mp h with h | h
    · exact ihr hr h
    · exact ihs hs h
  | star r _ => cases hr

/-- What is behind a match is shorter than the text. -/
theorem exec_lt {r : Regex α} (hr : r.nullable = false) {l : List α} {m : List α × List α × List α}
    (h : r.exec l = some m) : m.2.2.length < l.length := by
  induction l generalizing m with
  | nil =>
    obtain ⟨rest, hrest, rfl⟩ := Option.map_eq_some_iff.mp h
    exact ends_lt hr (List.mem_of_mem_head? hrest)
  | cons a l ih =>
    simp only [exec] at h
    split at h
    · next rest hrest =>
      cases h
      exact ends_lt hr (List.mem_of_mem_head? hrest)
    · obtain ⟨m', hm', rfl⟩ := Option.map_eq_some_iff.mp h
      have hlt := ih hm'
      exact Nat.lt_succ_of_lt hlt

-- ---------------------------------------------------------------------------
-- Repetitions
-- ---------------------------------------------------------------------------

theorem rounds_enough {f : List α → List (List α)} {n m : Nat} {l : List α} (hn : l.length ≤ n)
    (hm : l.length ≤ m) : rounds f n l = rounds f m l := by
  induction n generalizing m l with
  | zero =>
    obtain rfl : l = [] := List.eq_nil_of_length_eq_zero (Nat.le_zero.mp hn)
    cases m with
    | zero => rfl
    | succ m => simp [rounds]
  | succ n ih =>
    cases m with
    | zero =>
      obtain rfl : l = [] := List.eq_nil_of_length_eq_zero (Nat.le_zero.mp hm)
      simp [rounds]
    | succ m =>
      simp only [rounds]
      congr 1
      refine List.flatMap_congr fun l' hl' => ?_
      have hlt : l'.length < l.length := by simpa using (List.mem_filter.mp hl').2
      exact ih (Nat.le_of_lt_succ (Nat.lt_of_lt_of_le hlt hn))
        (Nat.le_of_lt_succ (Nat.lt_of_lt_of_le hlt hm))

/-- A repetition is a round and a repetition, or nothing. -/
theorem ends_star (r : Regex α) (l : List α) : r.star.ends l =
    ((r.ends l).filter fun l' => l'.length < l.length).flatMap r.star.ends ++ [l] := by
  have h : r.star.ends l = rounds r.ends (l.length + 1) l :=
    rounds_enough (Nat.le_refl _) (Nat.le_succ _)
  rw [h, rounds]
  congr 1
  refine List.flatMap_congr fun l' hl' => ?_
  have hlt : l'.length < l.length := by simpa using (List.mem_filter.mp hl').2
  exact rounds_enough (Nat.le_of_lt hlt) (Nat.le_refl _)

theorem ends_seq (r s : Regex α) (l : List α) :
    (seq r s).ends l = (r.ends l).flatMap s.ends := rfl

theorem ends_alt (r s : Regex α) (l : List α) : (alt r s).ends l = r.ends l ++ s.ends l := rfl

theorem ends_char_cons (p : α → Bool) (a : α) (l : List α) :
    (char p).ends (a :: l) = if p a then [l] else [] := rfl

/-- A repetition and something behind it: a round first, or what is behind it at once. -/
theorem ends_star_seq (r s : Regex α) (l : List α) : (seq (star r) s).ends l =
    ((r.ends l).filter fun l' => l'.length < l.length).flatMap (seq (star r) s).ends ++
      s.ends l := by
  rw [ends_seq, ends_star, List.flatMap_append, List.flatMap_assoc, List.flatMap_singleton]
  rfl

theorem ends_star_char (p : α → Bool) (a : α) (l : List α) : (star (char p)).ends (a :: l) =
    (if p a then (star (char p)).ends l else []) ++ [a :: l] := by
  rw [ends_star]
  by_cases ha : p a <;> simp [ends_char_cons, ha]

theorem ends_star_char_nil (p : α → Bool) : (star (char p)).ends [] = [[]] := rfl

theorem ends_run_cons (p : α → Bool) (s : Regex α) (a : α) (l : List α) :
    (seq (star (char p)) s).ends (a :: l) =
      (if p a then (seq (star (char p)) s).ends l else []) ++ s.ends (a :: l) := by
  rw [ends_star_seq]
  by_cases ha : p a <;> simp [ends_char_cons, ha]

theorem ends_run_nil (p : α → Bool) (s : Regex α) :
    (seq (star (char p)) s).ends [] = s.ends [] := by
  simp [ends_seq, ends_star_char_nil]

/-- The longest run of a class is preferred. -/
theorem head_star_char (p : α → Bool) (l : List α) :
    ((star (char p)).ends l).head? = some (l.dropWhile p) := by
  induction l with
  | nil => rfl
  | cons a l ih =>
    rw [ends_star_char]
    by_cases ha : p a
    · simp [ha, ih]
    · simp [ha]

/-- Behind a run of a class something that does not begin in the class is behind all of it. -/
theorem ends_run {p : α → Bool} {s : Regex α} (hs : ∀ a l, p a → s.ends (a :: l) = [])
    (l : List α) : (seq (star (char p)) s).ends l = s.ends (l.dropWhile p) := by
  induction l with
  | nil => exact ends_run_nil p s
  | cons a l ih =>
    rw [ends_run_cons]
    by_cases ha : p a
    · simp [ha, hs, ih]
    · simp [ha]

/-- Only the ways to match one round matter. -/
theorem ends_star_congr {r s : Regex α} (h : ∀ l, r.ends l = s.ends l) (l : List α) :
    r.star.ends l = s.star.ends l := by
  simp only [ends, funext h]

-- ---------------------------------------------------------------------------
-- The first match
-- ---------------------------------------------------------------------------

theorem exec_match {r : Regex α} {a : α} {l rest : List α}
    (h : (r.ends (a :: l)).head? = some rest) :
    r.exec (a :: l) = some ([], (a :: l).take (l.length + 1 - rest.length), rest) := by
  simp [exec, h]

theorem exec_skip {r : Regex α} {a : α} {l : List α} (h : r.ends (a :: l) = []) :
    r.exec (a :: l) = (r.exec l).map fun m => (a :: m.1, m.2) := by
  simp [exec, h]

end Regex

end Backtracking
