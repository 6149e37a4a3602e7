import Mathlib.Data.List.Basic

/-!
# A recursive mutex

The mutex is free, or some thread holds it a number of times. Only the holder
can unlock it; a lock by another thread waits.
-/

namespace Transition

universe u

/-- `held t n`: thread `t` holds the mutex `n + 1` times. -/
inductive RecMutex (τ : Type u)
  | free
  | held (t : τ) (n : Nat)
  deriving DecidableEq

namespace RecMutex

variable {τ : Type u} [DecidableEq τ]

/-- `none`: the thread has to wait. -/
def lock (t : τ) : RecMutex τ → Option (RecMutex τ)
  | free => some (held t 0)
  | held u n => if u = t then some (held u (n + 1)) else none

/-- `none`: the thread is not the holder. -/
def unlock (t : τ) : RecMutex τ → Option (RecMutex τ)
  | free => none
  | held u 0 => if u = t then some free else none
  | held u (n + 1) => if u = t then some (held u n) else none

/-- How often the thread holds the mutex. -/
def level (t : τ) : RecMutex τ → Nat
  | free => 0
  | held u n => if u = t then n + 1 else 0

variable {m m' : RecMutex τ} {t u : τ}

theorem level_lock (h : m.lock t = some m') : m'.level t = m.level t + 1 := by
  cases m with
  | free => cases h; simp [level]
  | held v n =>
    obtain ⟨rfl, rfl⟩ : v = t ∧ held v (n + 1) = m' := by simpa [lock] using h
    simp [level]

theorem level_lock_other (h : m.lock t = some m') (hu : u ≠ t) : m'.level u = m.level u := by
  cases m with
  | free => cases h; simp [level, hu.symm]
  | held v n =>
    obtain ⟨rfl, rfl⟩ : v = t ∧ held v (n + 1) = m' := by simpa [lock] using h
    simp [level, hu.symm]

theorem level_unlock (h : m.unlock t = some m') : m.level t = m'.level t + 1 := by
  cases m with
  | free => cases h
  | held v n =>
    cases n with
    | zero =>
      obtain ⟨rfl, rfl⟩ : v = t ∧ free = m' := by simpa [unlock] using h
      simp [level]
    | succ n =>
      obtain ⟨rfl, rfl⟩ : v = t ∧ held v n = m' := by simpa [unlock] using h
      simp [level]

theorem level_unlock_other (h : m.unlock t = some m') (hu : u ≠ t) :
    m'.level u = m.level u := by
  cases m with
  | free => cases h
  | held v n =>
    cases n with
    | zero =>
      obtain ⟨rfl, rfl⟩ : v = t ∧ free = m' := by simpa [unlock] using h
      simp [level, hu.symm]
    | succ n =>
      obtain ⟨rfl, rfl⟩ : v = t ∧ held v n = m' := by simpa [unlock] using h
      simp [level, hu.symm]

/-- A thread that holds the mutex can unlock it. -/
theorem exists_unlock (h : 0 < m.level t) : ∃ m', m.unlock t = some m' := by
  cases m with
  | free => simp [level] at h
  | held v n =>
    have hv : v = t := by
      by_contra hv
      simp [level, hv] at h
    cases n <;> simp [unlock, hv]

end RecMutex

end Transition
