import Mathlib.Logic.Function.Basic
import TinyState.Lib.Machine
import TinyState.Lib.RecursiveMutex

/-!
# Runs of a recursive mutex

What threads see of a recursive mutex when their calls return. An implementation takes several
steps for a call; it is right if what its threads see is a run of the mutex.
-/

namespace Transition

universe u v

variable {τ : Type u}

inductive LockObs (τ : Type u)
  | locked (t : τ)
  | unlocked (t : τ)
  /-- A trial has failed. -/
  | busy (t : τ)
  /-- The thread has asked if the mutex is held. -/
  | asked (t : τ) (held : Bool)
  /-- The thread has asked how often it is held. -/
  | counted (t : τ) (n : Int)
  /-- An unlock has failed. -/
  | refused (t : τ)
  | panic
  deriving DecidableEq

namespace RecMutex

/-- The mutex that the thread holds so many times. -/
def times (t : τ) : Nat → RecMutex τ
  | 0 => free
  | n + 1 => held t n

section Runs

variable [DecidableEq τ]

/-- No other thread holds the mutex. -/
def Mine (t : τ) : RecMutex τ → Prop
  | free => True
  | held u _ => u = t

instance (t : τ) (m : RecMutex τ) : Decidable (m.Mine t) :=
  match m with
  | free => .isTrue trivial
  | held u _ => inferInstanceAs (Decidable (u = t))

/-- A thread can be told that the mutex is held while nobody has it, for another thread may be on
its way; but never that it is free where it is not. -/
def after (m : RecMutex τ) : LockObs τ → Option (RecMutex τ)
  | .locked t => m.lock t
  | .unlocked t => m.unlock t
  | .busy t => if m.level t = 0 then some m else none
  | .asked _ b => if b ∨ m = free then some m else none
  | .counted t n => if m.Mine t ∧ n = m.level t then some m else none
  | .refused _ | .panic => none

variable (τ) in
def machine : Machine (RecMutex τ) (LockObs τ) (LockObs τ) where
  init m := m = free
  step m o := (m.after o).map (·, [o])

variable {tr : List (LockObs τ)} {m m' : RecMutex τ} {o : LockObs τ} {t u : τ}

theorem step_obs {p : LockObs τ} {os : List (LockObs τ)}
    (h : (machine τ).step m p = some (m', os)) : os = [p] ∧ m.after p = some m' := by
  obtain ⟨n, hn, he⟩ := Option.map_eq_some_iff.mp h
  obtain ⟨rfl, rfl⟩ := Prod.mk.inj he
  exact ⟨rfl, hn⟩

/-- A thread holds the mutex as often as it has locked it and not unlocked it. -/
theorem balance (h : (machine τ).Run tr m) (t : τ) :
    m.level t + tr.count (.unlocked t) = tr.count (.locked t) := by
  refine h.invariant
    (I := fun tr m => m.level t + tr.count (.unlocked t) = tr.count (.locked t)) ?_ ?_
  · rintro m rfl
    rfl
  · intro tr m o m' os _ ih _ hs
    obtain ⟨rfl, ha⟩ := step_obs hs
    simp only [List.count_append, List.count_singleton, beq_iff_eq]
    cases o with
    | locked u =>
      by_cases hu : u = t
      · subst hu
        simp [level_lock ha]
        omega
      · simp [hu, level_lock_other ha (Ne.symm hu), ih]
    | unlocked u =>
      by_cases hu : u = t
      · subst hu
        have := level_unlock ha
        simp
        omega
      · simp [hu, level_unlock_other ha (Ne.symm hu), ih]
    | busy | asked | counted =>
      simp only [after, Option.ite_none_right_eq_some, Option.some.injEq] at ha
      obtain ⟨-, rfl⟩ := ha
      simpa using ih
    | refused | panic => cases ha

theorem level_pos (h : 0 < m.level t) : ∃ n, m = held t n := by
  cases m with
  | free => exact absurd h (Nat.lt_irrefl 0)
  | held u n =>
    by_cases hu : u = t
    · exact ⟨n, by rw [hu]⟩
    · rw [level, if_neg hu] at h
      exact absurd h (Nat.lt_irrefl 0)

/-- Two threads do not have the mutex at a time. -/
theorem exclusive (h : (machine τ).Run tr m) (ht : tr.count (.unlocked t) < tr.count (.locked t))
    (hu : tr.count (.unlocked u) < tr.count (.locked u)) : t = u := by
  have hbt := balance h t
  have hbu := balance h u
  obtain ⟨n, rfl⟩ := level_pos (t := t) (m := m) (by omega)
  obtain ⟨k, he⟩ := level_pos (t := u) (m := held t n) (by omega)
  cases he
  rfl

/-- No call of a run is refused and none panics. -/
theorem no_panic (h : (machine τ).Run tr m) : .panic ∉ tr ∧ ∀ t, .refused t ∉ tr := by
  refine h.invariant (I := fun tr _ => .panic ∉ tr ∧ ∀ t, .refused t ∉ tr) ?_ ?_
  · intro m _
    exact ⟨List.not_mem_nil, fun _ => List.not_mem_nil⟩
  · rintro tr m o m' os _ ⟨hp, hr⟩ _ hs
    obtain ⟨rfl, ha⟩ := step_obs hs
    simp only [List.mem_append, List.mem_singleton, not_or]
    refine ⟨⟨hp, ?_⟩, fun t => ⟨hr t, ?_⟩⟩
    · rintro rfl
      cases ha
    · rintro rfl
      cases ha

theorem lock_times (t : τ) (n : Nat) : (times t n).lock t = some (times t (n + 1)) := by
  cases n with
  | zero => rfl
  | succ n => simp [times, lock]

theorem unlock_times (t : τ) (n : Nat) : (times t (n + 1)).unlock t = some (times t n) := by
  cases n <;> simp [times, unlock]

@[simp] theorem level_times (t : τ) (n : Nat) : (times t n).level t = n := by
  cases n <;> simp [times, level]

theorem level_times_other (h : u ≠ t) (n : Nat) : (times t n).level u = 0 := by
  cases n <;> simp [times, level, h.symm]

omit [DecidableEq τ] in
theorem mine_times (t : τ) (n : Nat) : (times t n).Mine t := by
  cases n <;> trivial

/-- A step of an implementation that no caller sees, or that is one of the mutex. -/
def Shown (m m' : RecMutex τ) (os : List (LockObs τ)) : Prop :=
  (m' = m ∧ os = []) ∨ ∃ o, os = [o] ∧ m.after o = some m'

/-- An implementation all of whose steps are such has only runs of the mutex. -/
theorem run_of_shown {σ α : Type*} {M : Machine σ α (LockObs τ)} {C : σ → α → Prop} {s : σ}
    (f : σ → RecMutex τ) (h : M.RunIf C tr s) (start : ∀ s, M.init s → f s = free)
    (step : ∀ tr s a t os, M.RunIf C tr s → C s a → M.step s a = some (t, os) →
      Shown (f s) (f t) os) : (machine τ).Run tr (f s) := by
  have hr : (machine τ).Run (tr.filterMap some) (f s) := by
    refine h.simulate f some start fun tr s a t os hr _ hc hs => ?_
    rcases step tr s a t os hr hc hs with ⟨he, rfl⟩ | ⟨o, rfl, ha⟩
    · exact .inl ⟨he, rfl⟩
    · exact .inr ⟨o, by simp [machine, ha]⟩
  rwa [List.filterMap_some] at hr

end Runs

end RecMutex

-- ---------------------------------------------------------------------------
-- Who is inside
-- ---------------------------------------------------------------------------

variable {κ : Type v}

/-- One thread at most is past the mutex, and it is where `Fits` says that it may be; all others
are at places that satisfy `Out`. `Bare`: how things are while nobody is. -/
def Entered (Out : κ → Prop) (Bare : Prop) (Fits : τ → κ → Prop) (pc : τ → κ) :
    Option τ → Prop
  | none => Bare ∧ ∀ u, Out (pc u)
  | some o => Fits o (pc o) ∧ ∀ u, u ≠ o → Out (pc u)

namespace Entered

variable [DecidableEq τ] {Out : κ → Prop} {Bare Bare' : Prop} {Fits Fits' : τ → κ → Prop}
  {pc : τ → κ} {w : Option τ} {t : τ} {k : κ}

omit [DecidableEq τ] in
/-- The one who is inside is where it may be. -/
theorem fits (h : Entered Out Bare Fits pc w) (hw : w = some t) (hpc : pc t = k) : Fits t k := by
  subst hw hpc
  exact h.1

theorem owner (h : Entered Out Bare Fits pc w) (hpc : pc t = k) (ht : ¬ Out k) :
    w = some t ∧ Fits t k := by
  subst hpc
  cases w with
  | none => exact absurd (h.2 t) ht
  | some o =>
    by_cases ho : t = o
    · exact ⟨by rw [ho], ho ▸ h.1⟩
    · exact absurd (h.2 t ho) ht

/-- A thread that is not inside stays outside. -/
theorem stay (h : Entered Out Bare Fits pc w) (ht : w ≠ some t) (hk : Out k) :
    Entered Out Bare Fits (Function.update pc t k) w := by
  have hout : ∀ u, Out (pc u) → Out (Function.update pc t k u) := by
    intro u hu
    by_cases he : u = t
    · rw [he, Function.update_self]
      exact hk
    · rwa [Function.update_of_ne he]
  cases w with
  | none => exact ⟨h.1, fun u => hout u (h.2 u)⟩
  | some o =>
    have ho : o ≠ t := fun he => ht (by rw [he])
    exact ⟨by rw [Function.update_of_ne ho]; exact h.1, fun u hu => hout u (h.2 u hu)⟩

/-- The one who is inside goes on. -/
theorem move (h : Entered Out Bare Fits pc (some t)) (hk : Fits' t k) :
    Entered Out Bare' Fits' (Function.update pc t k) (some t) :=
  ⟨by rw [Function.update_self]; exact hk,
    fun u hu => by rw [Function.update_of_ne hu]; exact h.2 u hu⟩

theorem enter (h : Entered Out Bare Fits pc none) (hk : Fits' t k) :
    Entered Out Bare' Fits' (Function.update pc t k) (some t) :=
  ⟨by rw [Function.update_self]; exact hk,
    fun u hu => by rw [Function.update_of_ne hu]; exact h.2 u⟩

theorem leave (h : Entered Out Bare Fits pc (some t)) (hk : Out k) (hb : Bare') :
    Entered Out Bare' Fits' (Function.update pc t k) none := by
  refine ⟨hb, fun u => ?_⟩
  by_cases he : u = t
  · rw [he, Function.update_self]
    exact hk
  · rw [Function.update_of_ne he]
    exact h.2 u he

end Entered

end Transition
