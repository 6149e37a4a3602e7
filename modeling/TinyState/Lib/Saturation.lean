import TinyState.Lib.Rounds
import Mathlib.Data.List.Basic

/-!
# Loops until nothing changes

Rounds that say whether they have changed anything, one after the other until one has not. Such
a loop ends when each round that changes something leaves less to be done.
-/

namespace Saturation

open Rounds (Returns)

variable {α σ : Type*}

/-- Fewer are left when those that were not left before are not left now, nor is `a`. -/
theorem filter_length_lt {p q : α → Bool} {l : List α} {a : α} (hsub : ∀ x, q x → p x)
    (ha : a ∈ l) (hp : p a = true) (hq : q a = false) :
    (l.filter q).length < (l.filter p).length := by
  have hs : (l.filter q).Sublist (l.filter p) := List.monotone_filter_right l hsub
  refine Nat.lt_of_le_of_ne hs.length_le fun he => ?_
  have hmem : a ∈ l.filter p := List.mem_filter.mpr ⟨ha, hp⟩
  rw [← hs.eq_of_length he] at hmem
  exact Bool.false_ne_true (hq.symm.trans (List.mem_filter.mp hmem).2)

def loop (round : σ → σ × Bool) : Nat → σ → Option σ
  | 0, _ => none
  | fuel + 1, s => if (round s).2 then loop round fuel (round s).1 else some (round s).1

/-- The rule of the loop: it ends with a round that has changed nothing. -/
theorem loop_returns {round : σ → σ × Bool} (I : σ → Prop) (μ : σ → Nat)
    (keep : ∀ s, I s → I (round s).1)
    (less : ∀ s, I s → (round s).2 = true → μ (round s).1 < μ s) (s : σ) (hs : I s) :
    ∃ u, I u ∧ (round u).2 = false ∧ Returns (fun fuel => loop round fuel s) (round u).1 := by
  induction hn : μ s using Nat.strongRecOn generalizing s with
  | ind n ih =>
    cases hr : (round s).2 with
    | false =>
      refine ⟨s, hs, hr, .done rfl fun fuel => ?_⟩
      rw [loop, hr]
      rfl
    | true =>
      obtain ⟨u, hu, hq, hret⟩ := ih _ (hn ▸ less s hs hr) (round s).1 (keep s hs) rfl
      refine ⟨u, hu, hq, hret.step rfl fun fuel => ?_⟩
      rw [loop, hr]
      rfl

end Saturation
