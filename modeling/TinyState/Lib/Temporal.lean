import Mathlib.Data.Nat.Init

/-!
# Progress along an infinite run

Rules for predicates of the position in an infinite run: what holds unless
something else happens first, and what must happen since a rank falls.
-/

namespace Transition

variable {P Q : Nat → Prop} {m n : Nat}

/-- What each step keeps unless `Q` happens is kept until `Q` has happened. -/
theorem unless_until (step : ∀ n, P n → Q n ∨ P (n + 1)) (h : P n) (hm : n ≤ m) :
    (∃ j, n ≤ j ∧ Q j) ∨ P m := by
  induction m, hm using Nat.le_induction with
  | base => exact .inr h
  | succ m hm ih =>
    rcases ih with hq | hp
    · exact .inl hq
    · exact (step m hp).imp_left fun hq => ⟨m, hm, hq⟩

/-- If from each rank either `Q` happens or a lower rank is reached, then `Q`
happens. -/
theorem eventually_of_wf {α : Type*} [w : WellFoundedRelation α] {R : α → Nat → Prop}
    (fall : ∀ r n, R r n → ∃ m, n ≤ m ∧ (Q m ∨ ∃ r', w.rel r' r ∧ R r' m)) :
    ∀ r n, R r n → ∃ m, n ≤ m ∧ Q m := by
  intro r
  induction r using w.wf.induction with
  | _ r ih =>
    intro n h
    obtain ⟨m, hm, hq | ⟨r', hr, hp⟩⟩ := fall r n h
    · exact ⟨m, hm, hq⟩
    · obtain ⟨j, hj, hq⟩ := ih r' hr m hp
      exact ⟨j, Nat.le_trans hm hj, hq⟩

theorem eventually_of_rank {R : Nat → Nat → Prop}
    (fall : ∀ r n, R r n → ∃ m, n ≤ m ∧ (Q m ∨ ∃ r' < r, R r' m)) :
    ∀ r n, R r n → ∃ m, n ≤ m ∧ Q m :=
  eventually_of_wf fall

end Transition
