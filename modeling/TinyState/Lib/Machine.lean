import Mathlib.Data.List.Basic
import Mathlib.Data.Nat.Init
import Mathlib.Logic.Function.Iterate
import Mathlib.Tactic.Choose

/-!
# Labelled machines

A machine offers, in each state, the actions that are enabled there; a step
gives the next state and the observations it lets an onlooker make. A run
carries the whole list of observations, so that a property of a run may speak
of its history. Nothing here knows what is being modelled.
-/

namespace Transition

universe u v w

/-- `step s a = none` says that the action `a` is not enabled in `s`. -/
structure Machine (σ : Type u) (α : Type v) (ω : Type w) where
  init : σ → Prop
  step : σ → α → Option (σ × List ω)

namespace Machine

variable {σ : Type u} {α : Type v} {ω : Type w}

/-- Finite runs all of whose steps are taken in a state and by an action that
satisfy `C`, with the observations made on the way. -/
inductive RunIf (M : Machine σ α ω) (C : σ → α → Prop) : List ω → σ → Prop
  | start {s} : M.init s → RunIf M C [] s
  | step {tr s a t os} : RunIf M C tr s → C s a → M.step s a = some (t, os) →
      RunIf M C (tr ++ os) t

/-- An observation of a run that goes on is an old one, or one of the last step. -/
theorem append_eq_cons {α : Type*} {tr os before after : List α} {x : α}
    (h : tr ++ os = before ++ x :: after) :
    (∃ mid, tr = before ++ x :: mid ∧ after = mid ++ os) ∨
      ∃ mid, os = mid ++ x :: after ∧ before = tr ++ mid := by
  rcases List.append_eq_append_iff.mp h with ⟨mid, rfl, ho⟩ | ⟨mid, rfl, ho⟩
  · exact .inr ⟨mid, ho, rfl⟩
  · cases mid with
    | nil => exact .inr ⟨[], ho.symm, by simp⟩
    | cons y mid =>
      obtain ⟨rfl, rfl⟩ : x = y ∧ after = mid ++ os := by simpa using ho
      exact .inl ⟨mid, rfl, rfl⟩

/-- Each observation is right, given those that came before it. -/
def Justified (P : List ω → ω → Prop) (tr : List ω) : Prop :=
  ∀ before o after, tr = before ++ o :: after → P before o

theorem Justified.nil {P : List ω → ω → Prop} : Justified P [] :=
  fun _ _ _ h => absurd h.symm (List.append_ne_nil_of_right_ne_nil _ (List.cons_ne_nil _ _))

theorem Justified.snoc {P : List ω → ω → Prop} {tr : List ω} {o : ω} (h : Justified P tr)
    (ho : P tr o) : Justified P (tr ++ [o]) := by
  intro before x after ht
  rcases append_eq_cons ht with ⟨mid, htr, -⟩ | ⟨mid, hos, rfl⟩
  · exact h before x mid htr
  · cases mid with
    | nil =>
      obtain rfl : o = x := (List.cons.inj hos).1
      rwa [List.append_nil]
    | cons y mid =>
      exact absurd (List.cons.inj hos).2.symm
        (List.append_ne_nil_of_right_ne_nil _ (List.cons_ne_nil _ _))

/-- All finite runs. -/
abbrev Run (M : Machine σ α ω) : List ω → σ → Prop := M.RunIf fun _ _ => True

variable {M : Machine σ α ω} {C : σ → α → Prop} {tr : List ω} {s t : σ}

theorem Run.next {a : α} {os : List ω} (h : M.Run tr s) (hs : M.step s a = some (t, os)) :
    M.Run (tr ++ os) t := .step h trivial hs

theorem RunIf.run (h : M.RunIf C tr s) : M.Run tr s := by
  induction h with
  | start hi => exact .start hi
  | step _ _ hs ih => exact ih.next hs

theorem RunIf.mono {D : σ → α → Prop} (h : M.RunIf C tr s)
    (hd : ∀ tr s a, M.RunIf C tr s → C s a → D s a) : M.RunIf D tr s := by
  induction h with
  | start hi => exact .start hi
  | step hr hc hs ih => exact ih.step (hd _ _ _ hr hc) hs

/-- The invariant rule: what holds at the start and is kept by every step of a
run holds wherever the run goes. The step case may use that the state before
it was reached. -/
theorem RunIf.invariant {I : List ω → σ → Prop} (h : M.RunIf C tr s)
    (start : ∀ s, M.init s → I [] s)
    (step : ∀ tr s a t os, M.RunIf C tr s → I tr s → C s a → M.step s a = some (t, os) →
      I (tr ++ os) t) : I tr s := by
  induction h with
  | start hi => exact start _ hi
  | step hr hc hs ih => exact step _ _ _ _ _ hr ih hc hs

/-- The invariant rule for a property of states alone. -/
theorem RunIf.stateInvariant {I : σ → Prop} (h : M.RunIf C tr s)
    (start : ∀ s, M.init s → I s)
    (step : ∀ s a t os, I s → C s a → M.step s a = some (t, os) → I t) : I s :=
  h.invariant (I := fun _ s => I s) start fun _ s a t os _ => step s a t os

/-- What holds at the end of a run and cannot come about in a step held all along. -/
theorem RunIf.backward {P : σ → Prop} (h : M.RunIf C tr s) (hp : P s)
    (back : ∀ s a t os, M.step s a = some (t, os) → P t → P s) :
    M.RunIf (fun s a => C s a ∧ P s) tr s := by
  induction h with
  | start hi => exact .start hi
  | step _ hc hs ih =>
    have hps := back _ _ _ _ hs hp
    exact (ih hps).step ⟨hc, hps⟩ hs

/-- Runs a list of actions, one after the other, as long as `C` holds. -/
def exec (M : Machine σ α ω) (C : σ → α → Prop) [∀ s a, Decidable (C s a)] (s : σ) :
    List α → Option (σ × List ω)
  | [] => some (s, [])
  | a :: as =>
    if C s a then do
      let (t, os) ← M.step s a
      let (u, more) ← M.exec C t as
      pure (u, os ++ more)
    else none

theorem RunIf.exec [∀ s a, Decidable (C s a)] {as : List α} {os : List ω} (h : M.RunIf C tr s)
    (he : M.exec C s as = some (t, os)) : M.RunIf C (tr ++ os) t := by
  induction as generalizing tr s os with
  | nil =>
    obtain ⟨rfl, rfl⟩ : s = t ∧ [] = os := by simpa [Machine.exec] using he
    simpa using h
  | cons a as ih =>
    simp only [Machine.exec, Option.ite_none_right_eq_some, Option.bind_eq_bind,
      Option.bind_eq_some_iff] at he
    obtain ⟨hc, ⟨m, o⟩, hs, ⟨u, more⟩, hm, he⟩ := he
    obtain ⟨rfl, rfl⟩ : u = t ∧ o ++ more = os := by simpa using he
    simpa using ih (h.step hc hs) hm

/-- A list of actions that the machine accepts from an initial state is a run. -/
theorem exists_run [∀ s a, Decidable (C s a)] {P : List ω → σ → Prop}
    [∀ tr s, Decidable (P tr s)] (as : List α) (hi : M.init s)
    (he : (M.exec C s as).any (fun r => decide (P r.2 r.1)) = true) :
    ∃ tr t, M.RunIf C tr t ∧ P tr t := by
  obtain ⟨⟨t, tr⟩, hr, hp⟩ := (Option.any_eq_true _ _).mp he
  have h : M.RunIf C [] s := .start hi
  exact ⟨tr, t, by simpa using h.exec hr, by simpa using hp⟩

/-- An infinite run. -/
structure Behavior (M : Machine σ α ω) where
  state : Nat → σ
  act : Nat → α
  obs : Nat → List ω
  start : M.init (state 0)
  next : ∀ n, M.step (state n) (act n) = some (state (n + 1), obs n)

namespace Behavior

/-- What is observed before the `n`-th step. -/
def trace (b : M.Behavior) : Nat → List ω
  | 0 => []
  | n + 1 => b.trace n ++ b.obs n

theorem mem_trace (b : M.Behavior) {n m : Nat} {o : ω} (h : o ∈ b.obs n) (hm : n < m) :
    o ∈ b.trace m := by
  induction m, hm using Nat.le_induction with
  | base => exact List.mem_append_right _ h
  | succ m _ ih => exact List.mem_append_left _ ih

theorem exists_obs (b : M.Behavior) {n : Nat} {o : ω} (h : o ∈ b.trace n) :
    ∃ m < n, o ∈ b.obs m := by
  induction n with
  | zero => cases h
  | succ n ih =>
    rcases List.mem_append.mp h with h | h
    · obtain ⟨m, hm, ho⟩ := ih h
      exact ⟨m, Nat.lt_succ_of_lt hm, ho⟩
    · exact ⟨n, Nat.lt_succ_self n, h⟩

/-- What is observed from the `n`-th step on. -/
theorem trace_split (b : M.Behavior) {n m : Nat} (hm : n ≤ m) :
    ∃ rest, b.trace m = b.trace n ++ rest ∧ ∀ o ∈ rest, ∃ j, n ≤ j ∧ o ∈ b.obs j := by
  induction m, hm using Nat.le_induction with
  | base => exact ⟨[], (List.append_nil _).symm, nofun⟩
  | succ m hm ih =>
    obtain ⟨rest, he, hrest⟩ := ih
    refine ⟨rest ++ b.obs m, by rw [trace, he, List.append_assoc], fun o ho => ?_⟩
    rcases List.mem_append.mp ho with ho | ho
    · exact hrest o ho
    · exact ⟨m, hm, ho⟩

theorem run (b : M.Behavior) (n : Nat) : M.Run (b.trace n) (b.state n) := by
  induction n with
  | zero => exact .start b.start
  | succ n ih => exact Run.next ih (b.next n)

theorem runIf (b : M.Behavior) (hc : ∀ n, C (b.state n) (b.act n)) (n : Nat) :
    M.RunIf C (b.trace n) (b.state n) := by
  induction n with
  | zero => exact .start b.start
  | succ n ih => exact ih.step (hc n) (b.next n)

end Behavior

/-- A machine that can always take the action that `next` chooses has an infinite run of such
steps. -/
theorem exists_behavior {I : σ → Prop} {P : List ω → Prop} (next : σ → α) (hi : M.init s)
    (hs : I s) (keep : ∀ s, I s → ∃ t os, M.step s (next s) = some (t, os) ∧ I t ∧ P os) :
    ∃ b : M.Behavior, ∀ n, I (b.state n) ∧ b.act n = next (b.state n) ∧ P (b.obs n) := by
  choose! f g hstep hkeep hobs using keep
  have hI : ∀ n, I (f^[n] s) := fun n => by
    induction n with
    | zero => exact hs
    | succ n ih =>
      rw [Function.iterate_succ_apply']
      exact hkeep _ ih
  refine ⟨⟨fun n => f^[n] s, fun n => next (f^[n] s), fun n => g (f^[n] s), hi, fun n => ?_⟩,
    fun n => ⟨hI n, rfl, hobs _ (hI n)⟩⟩
  rw [Function.iterate_succ_apply']
  exact hstep _ (hI n)

/-- A map of states under which each step of a run is matched by a step of `N`
or leaves the image alone carries runs of `M` to runs of `N`. -/
theorem RunIf.simulate {τ β υ : Type*} {N : Machine τ β υ} (f : σ → τ) (g : ω → Option υ)
    (h : M.RunIf C tr s) (start : ∀ s, M.init s → N.init (f s))
    (step : ∀ tr s a t os, M.RunIf C tr s → N.Run (tr.filterMap g) (f s) → C s a →
      M.step s a = some (t, os) →
      (f t = f s ∧ os.filterMap g = []) ∨ ∃ b, N.step (f s) b = some (f t, os.filterMap g)) :
    N.Run (tr.filterMap g) (f s) := by
  refine h.invariant (I := fun tr s => N.Run (tr.filterMap g) (f s))
    (fun s hi => .start (start s hi)) ?_
  intro tr s a t os hr hn hc hs
  rw [List.filterMap_append]
  rcases step tr s a t os hr hn hc hs with ⟨he, ho⟩ | ⟨b, hb⟩
  · rw [he, ho, List.append_nil]
    exact hn
  · exact hn.next hb

end Machine

end Transition
