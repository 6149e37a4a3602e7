import Mathlib.Logic.Function.Basic

/-!
# Who holds a lock

A lock is known by its holder, and each process knows from where it stands
whether it holds the lock. `HeldBy` says that the two agree. The rules below
are the ways in which one process can move and keep them in agreement.
-/

namespace Transition

universe u v

variable {ι : Type u} {κ : Type v}

/-- The holder is the one process that stands at a place satisfying `p`. -/
def HeldBy (p : κ → Bool) (procs : ι → Option κ) (holder : Option ι) : Prop :=
  ∀ c, holder = some c ↔ ∃ k, procs c = some k ∧ p k = true

namespace HeldBy

variable {p : κ → Bool} {procs : ι → Option κ} {w : Option ι} {c d : ι} {k l : κ}

theorem unique (h : HeldBy p procs w) (hc : procs c = some k) (hk : p k = true)
    (hd : procs d = some l) (hl : p l = true) : c = d := by
  have hwc := (h c).mpr ⟨k, hc, hk⟩
  have hwd := (h d).mpr ⟨l, hd, hl⟩
  rw [hwc] at hwd
  exact Option.some.inj hwd

theorem none (h : ∀ c, procs c = .none) : HeldBy p procs .none := by
  intro c
  simp [h c]

/-- Nobody is where the lock would be held. -/
theorem not_of_none (h : HeldBy p procs .none) (hc : procs c = some k) : p k = false := by
  by_contra hp
  exact absurd ((h c).mpr ⟨k, hc, by simpa using hp⟩) (by simp)

variable [DecidableEq ι]

/-- The moving process holds the lock after the step as it did before. -/
theorem keep (h : HeldBy p procs w) {k' : Option κ} (he : k'.any p = (procs c).any p) :
    HeldBy p (Function.update procs c k') w := by
  intro d
  rw [h d]
  by_cases hd : d = c
  · subst hd
    cases hk : procs d <;> cases hk' : k' <;> simp_all
  · simp [Function.update_of_ne hd]

theorem take (h : HeldBy p procs .none) (hk : p k = true) :
    HeldBy p (Function.update procs c (some k)) (some c) := by
  intro d
  by_cases hd : d = c
  · subst hd
    simp [hk]
  · have hn := h d
    simp only [reduceCtorEq, false_iff] at hn
    simp only [Option.some.injEq, Function.update_of_ne hd]
    exact ⟨fun e => absurd e.symm hd, fun e => absurd e hn⟩

theorem release (h : HeldBy p procs w) (hc : procs c = some k) (hk : p k = true)
    {k' : Option κ} (hk' : k'.any p = false) :
    HeldBy p (Function.update procs c k') .none := by
  intro d
  simp only [reduceCtorEq, false_iff]
  rintro ⟨l, hl, hp⟩
  by_cases hd : d = c
  · subst hd
    rw [Function.update_self] at hl
    simp [hl, hp] at hk'
  · rw [Function.update_of_ne hd] at hl
    exact hd (h.unique hl hp hc hk)

end HeldBy

/-- What one step of the process `c` may do to a lock. `held` and `held'` say
whether `c` stands at a holding place before and after the step. -/
inductive LockMove (c : ι) (held held' : Bool) : Option ι → Option ι → Prop
  | keep {w} : held' = held → LockMove c held held' w w
  | take : held = false → held' = true → LockMove c held held' none (some c)
  | give {w} : held = true → held' = false → LockMove c held held' w none

theorem HeldBy.move [DecidableEq ι] {p : κ → Bool} {procs : ι → Option κ} {w w' : Option ι}
    {c : ι} {k : κ} {k' : Option κ} (h : HeldBy p procs w) (hc : procs c = some k)
    (hm : LockMove c (p k) (k'.any p) w w') : HeldBy p (Function.update procs c k') w' := by
  cases hm with
  | keep he => exact h.keep (by simpa [hc] using he)
  | take _ hk =>
    cases k' with
    | none => simp at hk
    | some k' => exact h.take (by simpa using hk)
  | give hk hk' => exact h.release hc hk hk'

end Transition
