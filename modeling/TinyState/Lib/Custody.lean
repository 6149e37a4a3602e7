import Mathlib.Data.List.Perm.Basic
import TinyState.Lib.Machine

/-!
# Custody

A machine takes things in, holds them and hands them out again. If every step
balances, what has been taken in is what is held and what has been handed out,
after every run; and if no two of the things are the same, each is in one place
and has been handed out at most once.
-/

namespace Transition

universe u v w x

variable {σ : Type u} {α : Type v} {ω : Type w} {β : Type x}

/-- `taken s` is all that has been taken in, `held s` what is held, and `handed`
tells what is handed out by an observation. -/
structure Custody (M : Machine σ α ω) (C : σ → α → Prop) (taken held : σ → List β)
    (handed : ω → Option β) : Prop where
  start : ∀ s, M.init s → (taken s).Perm (held s)
  step : ∀ tr s a t os, M.RunIf C tr s → C s a → M.step s a = some (t, os) →
    ∃ new, taken t = taken s ++ new ∧ (held s ++ new).Perm (held t ++ os.filterMap handed)

namespace Custody

variable {M : Machine σ α ω} {C : σ → α → Prop} {taken held : σ → List β}
  {handed : ω → Option β} {tr : List ω} {s : σ}

/-- The balance of a run. -/
theorem balance (hc : Custody M C taken held handed) (h : M.RunIf C tr s) :
    (taken s).Perm (held s ++ tr.filterMap handed) := by
  refine h.invariant (I := fun tr s => (taken s).Perm (held s ++ tr.filterMap handed)) ?_ ?_
  · intro s hi
    simpa using hc.start s hi
  · intro tr s a t os hr ih hca hs
    obtain ⟨new, hn, hb⟩ := hc.step tr s a t os hr hca hs
    rw [hn, List.filterMap_append]
    calc taken s ++ new
      List.Perm _ (held s ++ tr.filterMap handed ++ new) := ih.append_right new
      List.Perm _ (held s ++ new ++ tr.filterMap handed) := by
        rw [List.append_assoc, List.append_assoc]
        exact List.perm_append_comm.append_left (held s)
      List.Perm _ (held t ++ os.filterMap handed ++ tr.filterMap handed) := hb.append_right _
      List.Perm _ (held t ++ (tr.filterMap handed ++ os.filterMap handed)) := by
        rw [List.append_assoc]
        exact List.perm_append_comm.append_left (held t)

/-- Each thing is in one place, is handed out at most once, and is either held or
has been handed out. -/
theorem once (hc : Custody M C taken held handed) (h : M.RunIf C tr s)
    (hn : (taken s).Nodup) :
    (held s).Nodup ∧ (tr.filterMap handed).Nodup ∧
      ∀ b ∈ taken s, b ∈ held s ↔ b ∉ tr.filterMap handed := by
  have hb := hc.balance h
  obtain ⟨hh, ht, hd⟩ := List.nodup_append.mp (hb.nodup_iff.mp hn)
  refine ⟨hh, ht, fun b hm => ⟨fun hbh hbt => hd b hbh b hbt rfl, fun hbt => ?_⟩⟩
  exact (List.mem_append.mp (hb.mem_iff.mp hm)).resolve_right hbt

-- ---------------------------------------------------------------------------
-- Calls under way, each of which holds something
-- ---------------------------------------------------------------------------

variable {γ : Type*} {calls : List γ} {f : γ → List β} {c : γ} {i : Nat}

/-- One of the calls goes on. -/
theorem flatMap_set (h : calls[i]? = some c) (d : γ) :
    (f c ++ (calls.set i d).flatMap f).Perm (f d ++ calls.flatMap f) := by
  induction calls generalizing i with
  | nil => simp at h
  | cons b rest ih =>
    cases i with
    | zero =>
      obtain rfl : b = c := by simpa using h
      simpa using List.perm_append_comm_assoc (f b) (f d) (rest.flatMap f)
    | succ i =>
      have hp := (ih (i := i) (by simpa using h)).append_left (f b)
      simp only [List.set_cons_succ, List.flatMap_cons]
      exact (List.perm_append_comm_assoc ..).trans (hp.trans (List.perm_append_comm_assoc ..))

/-- One of the calls returns. -/
theorem flatMap_eraseIdx (h : calls[i]? = some c) :
    (calls.flatMap f).Perm (f c ++ (calls.eraseIdx i).flatMap f) := by
  induction calls generalizing i with
  | nil => simp at h
  | cons b rest ih =>
    cases i with
    | zero =>
      obtain rfl : b = c := by simpa using h
      simp
    | succ i =>
      have hp := (ih (i := i) (by simpa using h)).append_left (f b)
      simp only [List.eraseIdx_cons_succ, List.flatMap_cons]
      exact hp.trans (List.perm_append_comm_assoc ..)

end Custody

end Transition
