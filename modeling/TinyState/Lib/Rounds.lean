import Mathlib.Logic.Basic

/-!
# Rounds

A loop with a bound on its rounds either gets to its result once the bound is large enough, or
never does.
-/

namespace Rounds

variable {α β : Type*} {f g : Nat → Option α} {a b : α}

/-- With more than some number of rounds the loop returns `a`, and with fewer it does not. -/
def Returns (f : Nat → Option α) (a : α) : Prop :=
  ∃ n, ∀ fuel, f fuel = if n < fuel then some a else none

theorem Returns.done (h0 : f 0 = none) (h : ∀ fuel, f (fuel + 1) = some a) : Returns f a := by
  refine ⟨0, fun fuel => ?_⟩
  cases fuel with
  | zero => exact h0
  | succ fuel => exact h fuel

theorem Returns.step (hg : Returns g a) (h0 : f 0 = none) (h : ∀ fuel, f (fuel + 1) = g fuel) :
    Returns f a := by
  obtain ⟨n, hn⟩ := hg
  refine ⟨n + 1, fun fuel => ?_⟩
  cases fuel with
  | zero => exact h0
  | succ fuel =>
    rw [h, hn]
    simp only [Nat.succ_lt_succ_iff]

theorem Returns.unique (h : Returns f a) {fuel : Nat} (hb : f fuel = some b) : b = a := by
  obtain ⟨n, hn⟩ := h
  rw [hn] at hb
  split at hb
  · exact (Option.some.inj hb).symm
  · cases hb

theorem Returns.exists (h : Returns f a) : ∃ fuel, f fuel = some a := by
  obtain ⟨n, hn⟩ := h
  exact ⟨n + 1, (hn _).trans (if_pos (Nat.lt_succ_self n))⟩

theorem Returns.map (h : Returns f a) (k : α → β) :
    Returns (fun fuel => (f fuel).map k) (k a) := by
  obtain ⟨n, hn⟩ := h
  refine ⟨n, fun fuel => ?_⟩
  simp only [hn]
  split
  · rfl
  · rfl

/-- Two loops one after the other, each with the same bound. -/
theorem Returns.bind {k : α → Nat → Option β} {c : β} (h : Returns f a) (hk : Returns (k a) c) :
    Returns (fun fuel => (f fuel).bind fun x => k x fuel) c := by
  obtain ⟨n, hn⟩ := h
  obtain ⟨n', hn'⟩ := hk
  refine ⟨max n n', fun fuel => ?_⟩
  simp only [hn, Nat.max_lt]
  by_cases h1 : n < fuel
  · rw [if_pos h1, Option.bind_some, hn']
    simp only [h1, true_and]
  · rw [if_neg h1, if_neg fun h => h1 h.1]
    rfl

end Rounds
