import TinyState.Lib.Machine

/-!
# A queue that merges

A first-in first-out queue of messages, each of a kind. Of some kinds one
message in the queue is enough: while one is there, another of the kind is
merged into it. That is what a wakeup needs, provided the message that is
there is still to be taken; `pending` is that proviso.
-/

namespace Transition.Coalescing

universe u v

variable {α : Type u} {τ : Type v}

inductive Op (α : Type u)
  | offer (a : α)
  | take

inductive Seen (α : Type u)
  | accepted (a : α)
  | merged (a : α)
  | taken (a : α)
  deriving DecidableEq

namespace Seen

@[simp] def accepted? : Seen α → Option α
  | accepted a => some a
  | merged _ | taken _ => none

@[simp] def taken? : Seen α → Option α
  | taken a => some a
  | accepted _ | merged _ => none

/-- The message that was offered, whether it went in or not. -/
@[simp] def offered? : Seen α → Option α
  | accepted a | merged a => some a
  | taken _ => none

end Seen

variable (kind : α → τ) (once : τ → Prop)

/-- One of the kind of `a` is in the queue, and one is enough. -/
def Merges (q : List α) (a : α) : Prop := once (kind a) ∧ ∃ b ∈ q, kind b = kind a

variable [DecidableEq τ] [DecidablePred once]

instance (q : List α) (a : α) : Decidable (Merges kind once q a) := by
  unfold Merges
  infer_instance

def step (q : List α) : Op α → Option (List α × List (Seen α))
  | .offer a =>
    if Merges kind once q a then some (q, [.merged a]) else some (q ++ [a], [.accepted a])
  | .take =>
    match q with
    | [] => none
    | a :: q => some (q, [.taken a])

def machine : Machine (List α) (Op α) (Seen α) where
  init q := q = []
  step := step kind once

variable {kind once} {q r : List α} {op : Op α} {tr : List (Seen α)} {os : List (Seen α)}

theorem step_cases (h : step kind once q op = some (r, os)) :
    (∃ a, op = .offer a ∧ Merges kind once q a ∧ r = q ∧ os = [.merged a]) ∨
    (∃ a, op = .offer a ∧ ¬ Merges kind once q a ∧ r = q ++ [a] ∧ os = [.accepted a]) ∨
    ∃ a, op = .take ∧ q = a :: r ∧ os = [.taken a] := by
  cases op with
  | offer a =>
    simp only [step] at h
    split at h <;> rename_i hm
    · cases h
      exact .inl ⟨a, rfl, hm, rfl, rfl⟩
    · cases h
      exact .inr (.inl ⟨a, rfl, hm, rfl, rfl⟩)
  | take =>
    cases q with
    | nil => simp [step] at h
    | cons a q =>
      cases h
      exact .inr (.inr ⟨a, rfl, rfl, rfl⟩)

/-- What went in is what came out and then what is still there: first in,
first out, and each once. -/
theorem fifo (h : (machine kind once).Run tr q) :
    tr.filterMap Seen.accepted? = tr.filterMap Seen.taken? ++ q := by
  refine h.invariant (I := fun tr q => tr.filterMap Seen.accepted? = tr.filterMap Seen.taken? ++ q)
    (fun q hi => by simp [show q = [] from hi]) ?_
  intro tr q op r os _ ih _ hs
  rw [List.filterMap_append, List.filterMap_append, ih]
  obtain ⟨a, -, -, rfl, rfl⟩ | ⟨a, -, -, rfl, rfl⟩ | ⟨a, -, rfl, rfl⟩ := step_cases hs
  · simp [List.filterMap_cons]
  · simp
  · simp

/-- Of a kind that merges there is at most one message in the queue. -/
theorem at_most_one (h : (machine kind once).Run tr q) {t : τ} (ht : once t) :
    q.countP (kind · = t) ≤ 1 := by
  refine h.stateInvariant (I := fun q => q.countP (kind · = t) ≤ 1)
    (fun q hi => by simp [show q = [] from hi]) ?_
  intro q op r os ih _ hs
  obtain ⟨a, -, -, rfl, -⟩ | ⟨a, -, hm, rfl, -⟩ | ⟨a, -, rfl, -⟩ := step_cases hs
  · exact ih
  · rw [List.countP_append]
    by_cases ha : kind a = t
    · have hz : q.countP (kind · = t) = 0 := by
        rw [List.countP_eq_zero]
        intro b hb hk
        exact hm ⟨ha ▸ ht, b, hb, by simpa [ha] using hk⟩
      simp [hz, ha]
    · simpa [ha] using ih
  · rw [List.countP_cons] at ih
    omega

theorem eq_append_singleton {l before after : List α} {x y : α}
    (h : l ++ [x] = before ++ y :: after) :
    (after = [] ∧ y = x) ∨ ∃ mid, after = mid ++ [x] ∧ l = before ++ y :: mid := by
  obtain ⟨mid, hl, ha⟩ | ⟨mid, ho, -⟩ := Machine.append_eq_cons h
  · exact .inr ⟨mid, ha, hl⟩
  · obtain ⟨-, hx, ha⟩ : mid = [] ∧ x = y ∧ after = [] := by
      cases mid <;> simp_all
    exact .inl ⟨ha, hx.symm⟩

/-- Wherever a message was offered, one of its kind has been taken since or is
still in the queue. -/
theorem pending (h : (machine kind once).Run tr q) :
    ∀ {before after : List (Seen α)} {s : Seen α} {a : α}, tr = before ++ s :: after →
      s.offered? = some a →
      (∃ b, .taken b ∈ after ∧ kind b = kind a) ∨ ∃ b ∈ q, kind b = kind a := by
  refine h.invariant (I := fun tr q => ∀ {before after : List (Seen α)} {s : Seen α} {a : α},
    tr = before ++ s :: after → s.offered? = some a →
      (∃ b, .taken b ∈ after ∧ kind b = kind a) ∨ ∃ b ∈ q, kind b = kind a) ?_ ?_
  · intro q _ before after s a he
    simp at he
  intro tr q op r os _ ih _ hst before after s a he hs
  obtain ⟨x, -, ⟨-, b, hb, hk⟩, rfl, rfl⟩ | ⟨x, -, -, rfl, rfl⟩ | ⟨x, -, rfl, rfl⟩ := step_cases hst
  · obtain ⟨rfl, rfl⟩ | ⟨mid, rfl, rfl⟩ := eq_append_singleton he
    · obtain rfl : x = a := by simpa using hs
      exact .inr ⟨b, hb, hk⟩
    · refine (ih rfl hs).imp_left ?_
      rintro ⟨b, hb, hk⟩
      exact ⟨b, by simp [hb], hk⟩
  · obtain ⟨rfl, rfl⟩ | ⟨mid, rfl, rfl⟩ := eq_append_singleton he
    · obtain rfl : x = a := by simpa using hs
      exact .inr ⟨x, by simp, rfl⟩
    · refine (ih rfl hs).imp ?_ ?_
      · rintro ⟨b, hb, hk⟩
        exact ⟨b, by simp [hb], hk⟩
      · rintro ⟨b, hb, hk⟩
        exact ⟨b, by simp [hb], hk⟩
  · obtain ⟨rfl, rfl⟩ | ⟨mid, rfl, rfl⟩ := eq_append_singleton he
    · simp at hs
    -- the message that was still there may be the one that is taken now
    · obtain ⟨b, hb, hk⟩ | ⟨b, hb, hk⟩ := ih rfl hs
      · exact .inl ⟨b, by simp [hb], hk⟩
      · rcases List.mem_cons.mp hb with rfl | hb
        · exact .inl ⟨b, by simp, hk⟩
        · exact .inr ⟨b, hb, hk⟩

end Transition.Coalescing
