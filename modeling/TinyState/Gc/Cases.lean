import TinyState.Gc.Model
import Mathlib.Logic.Basic

/-!
# What a step of deferred destruction can do

One classification for each function of the model; the invariants are derived
from these, and no proof about a run unfolds the functions again.
-/

namespace TinyState

open Transition

namespace GcSys

variable {s t : GcSys} {x : Address} {id : Nat} {o : Option Nat} {os : List GcObs} {a : GcAct}

/-- Whoever has loaded the bucket `id` goes on raising flags above it, or, at
the root, has woken the collector. -/
inductive Up (s : GcSys) (id : Nat) : GcSys → Option Nat → Prop
  | root : id = 0 → s.collector ≠ .asleep → Up s id s none
  | wake : id = 0 → s.collector = .asleep → Up s id { s with collector := .head } none
  | raise : id ≠ 0 → Up s id s (some id)

theorem up_up : Up s id (s.up id).1 (s.up id).2 := by
  unfold up broadcast
  split
  · split
    · exact .wake ‹_› ‹_›
    · exact .root ‹_› ‹_›
  · exact .raise ‹_›

/-- What `relref` comes to. -/
inductive Dropped (s : GcSys) (x : Address) : GcSys → Option Nat → List GcObs → Prop
  | gone : s.ref x = -1 → Dropped s x s none []
  | panic : s.ref x ≠ -1 → s.ref x ≤ 0 → Dropped s x { s with panicked := true } none []
  | watched {t : GcSys} {o : Option Nat} : 0 < s.ref x → s.ref x ≤ s.refEventNum x + 1 →
      Up (pushEvent { s with
        refEventNum := Function.update s.refEventNum x (-1)
        waiting := Function.update s.waiting x true } x) (bucket x) t o →
      Dropped s x t o [.reached x]
  | counted : 1 < s.ref x → s.refEventNum x + 1 < s.ref x →
      Dropped s x { s with ref := Function.update s.ref x (s.ref x - 1) } none []
  | last {t : GcSys} {o : Option Nat} : s.ref x = 1 → s.refEventNum x < 0 →
      Up (pushDelete { s with ref := Function.update s.ref x 0 } x) (bucket x) t o →
      Dropped s x t o [.queued x]

theorem relref_dropped (h : s.relref x = (t, o, os)) : Dropped s x t o os := by
  unfold relref at h
  split at h
  · obtain ⟨rfl, rfl, rfl⟩ : s = t ∧ none = o ∧ [] = os := by simpa using h
    exact .gone ‹_›
  split at h
  · obtain ⟨rfl, rfl, rfl⟩ : _ = t ∧ none = o ∧ [] = os := by simpa using h
    exact .panic ‹_› ‹_›
  split at h
  · obtain ⟨rfl, rfl, rfl⟩ : _ = t ∧ _ = o ∧ [_] = os := by simpa using h
    exact .watched (by omega) ‹_› up_up
  simp only [Function.update_self] at h
  split at h
  · obtain ⟨rfl, rfl, rfl⟩ : _ = t ∧ none = o ∧ [] = os := by simpa using h
    exact .counted (by omega) (by omega)
  · obtain ⟨rfl, rfl, rfl⟩ : _ = t ∧ _ = o ∧ [_] = os := by simpa using h
    have h0 : s.ref x - 1 = 0 := by omega
    rw [h0]
    exact .last (by omega) (by omega) up_up

/-- One turn of the loop that raises flags. -/
inductive Raised (s : GcSys) (id : Nat) : GcSys → Option Nat → Prop
  | stop : (s.refFlags (parent id)).get id = true → Raised s id s none
  | set {t : GcSys} {o : Option Nat} : (s.refFlags (parent id)).get id = false →
      Up { s with refFlags :=
        Function.update s.refFlags (parent id) ((s.refFlags (parent id)).set id) } (parent id) t o →
      Raised s id t o

theorem raise_raised (h : s.raise id = (t, o)) : Raised s id t o := by
  cases hg : (s.refFlags (parent id)).get id with
  | true =>
    obtain ⟨rfl, rfl⟩ : s = t ∧ none = o := by simpa [raise, hg] using h
    exact .stop hg
  | false =>
    obtain ⟨rfl, rfl⟩ : _ = t ∧ _ = o := by simpa [raise, hg, Prod.ext_iff] using h
    exact .set hg up_up

theorem Up.collector (h : Up s id t o) (hc : s.collector ≠ .asleep) :
    t.collector = s.collector := by
  cases h with
  | root _ _ => rfl
  | wake _ ha => exact absurd ha hc
  | raise _ => rfl

/-- Only the queue of the bucket and a link are written. -/
theorem pushEvent_frame : s.pushEvent x = { s with
    next := (s.pushEvent x).next
    refEventHead := (s.pushEvent x).refEventHead
    refEventTail := (s.pushEvent x).refEventTail } := by
  unfold pushEvent
  split <;> rfl

theorem pushEvent_collector : (s.pushEvent x).collector = s.collector := by
  rw [pushEvent_frame]

theorem Dropped.collector (h : Dropped s x t o os) (hc : s.collector ≠ .asleep) :
    t.collector = s.collector := by
  cases h with
  | gone _ => rfl
  | panic _ _ => rfl
  | counted _ _ => rfl
  | watched _ _ hu =>
    rw [hu.collector (by rw [pushEvent_collector]; exact hc), pushEvent_collector]
  | last _ _ hu => exact hu.collector hc

theorem Raised.collector (h : Raised s id t o) (hc : s.collector ≠ .asleep) :
    t.collector = s.collector := by
  cases h with
  | stop _ => rfl
  | set _ hu => exact hu.collector hc

/-- A step of the collector. -/
inductive Collected (s : GcSys) : GcSys → List GcObs → Prop
  | head : s.collector = .head → Collected s s.testRoot []
  | round : s.collector = .calling [] → Collected s { s with collector := .head } []
  | take {id rest} : s.collector = .calling (id :: rest) → Collected s (s.take id rest) []
  | bad {w x} : s.collector = .sweeping w → w.target = some x → s.ref x ≠ 0 →
      Collected s { s with panicked := true } []
  | delete {w x} : s.collector = .sweeping w → w.target = some x → s.ref x = 0 →
      Collected s { s with
        ref := Function.update s.ref x (-1)
        collector := .sweeping { w with target := s.next x } } [.deleted x]
  | refEvent {w x} : s.collector = .sweeping w → w.target = none → w.ev = some x →
      Collected s { s with
        waiting := Function.update s.waiting x false
        collector := .callback x { w with ev := s.next x } } [.refEvent x]
  | children {w} : s.collector = .sweeping w → w.target = none → w.ev = none →
      Collected s { s with collector := .calling (w.flags.children w.id ++ w.rest) } []
  | relref {x w s' o os} : s.collector = .callback x w →
      Dropped { s with collector := .sweeping w } x s' o os →
      Collected s { s' with collector := w.resume o } os
  | raise {id w s' o} : s.collector = .raising id w →
      Raised { s with collector := .sweeping w } id s' o →
      Collected s { s' with collector := w.resume o } []

theorem gc_collected (h : s.gc = some (t, os)) : Collected s t os := by
  unfold gc at h
  split at h
  · cases h
  · cases h
  · obtain ⟨rfl, rfl⟩ := by simpa using h
    exact .head ‹_›
  · obtain ⟨rfl, rfl⟩ := by simpa using h
    exact .round ‹_›
  · obtain ⟨rfl, rfl⟩ := by simpa using h
    exact .take ‹_›
  · rename_i w hc
    split at h
    · split at h
      · obtain ⟨rfl, rfl⟩ := by simpa using h
        exact .bad hc ‹_› ‹_›
      · obtain ⟨rfl, rfl⟩ := by simpa using h
        exact .delete hc ‹_› (not_not.mp ‹_›)
    · obtain ⟨rfl, rfl⟩ := by simpa using h
      exact .refEvent hc ‹_› ‹_›
    · obtain ⟨rfl, rfl⟩ := by simpa using h
      exact .children hc ‹_› ‹_›
  · obtain ⟨rfl, rfl⟩ := by simpa using h
    exact .relref ‹_› (relref_dropped rfl)
  · obtain ⟨rfl, rfl⟩ := by simpa using h
    exact .raise ‹_› (raise_raised rfl)

/-- A step of anybody. -/
inductive Moved (s : GcSys) : GcAct → GcSys → List GcObs → Prop
  | addref_gone {x : Address} : s.ref x = -1 → Moved s (.addref x) s []
  | addref {x : Address} : s.ref x ≠ -1 → Moved s (.addref x) { s with
      ref := Function.update s.ref x (s.ref x + 1)
      held := Function.update s.held x (s.held x + 1) } []
  | relref {x s' o os} :
      Dropped { s with held := Function.update s.held x (s.held x - 1) } x s' o os →
      Moved s (.relref x) { s' with raising := o.toList ++ s'.raising } os
  | nRefEvent {x n} :
      Moved s (.nRefEvent x n) { s with refEventNum := Function.update s.refEventNum x n } []
  | raise {i id s' o} : s.raising[i]? = some id →
      Raised { s with raising := s.raising.eraseIdx i } id s' o →
      Moved s (.raise i) { s' with raising := o.toList ++ s'.raising } []
  | gc {t : GcSys} {os : List GcObs} : Collected s t os → Moved s .gc t os
  | wake : s.collector = .asleep → Moved s .wake { s with collector := .head } []
  | finish : Moved s .finish { s with finishFlag := true }.broadcast []

theorem step_moved (h : s.step a = some (t, os)) : Moved s a t os := by
  unfold step at h
  split at h
  · cases h
  cases a with
  | addref x =>
    simp only at h
    split at h
    · obtain ⟨rfl, rfl⟩ := by simpa using h
      exact .addref_gone ‹_›
    · obtain ⟨rfl, rfl⟩ := by simpa using h
      exact .addref ‹_›
  | relref x =>
    obtain ⟨rfl, rfl⟩ := by simpa using h
    exact .relref (relref_dropped rfl)
  | nRefEvent x n =>
    obtain ⟨rfl, rfl⟩ := by simpa using h
    exact .nRefEvent
  | raise i =>
    simp only at h
    split at h
    · cases h
    · obtain ⟨rfl, rfl⟩ := by simpa using h
      exact .raise ‹_› (raise_raised rfl)
  | gc => exact .gc (gc_collected h)
  | wake =>
    simp only at h
    split at h
    · obtain ⟨rfl, rfl⟩ := by simpa using h
      exact .wake ‹_›
    · cases h
  | finish =>
    obtain ⟨rfl, rfl⟩ := by simpa using h
    exact .finish

theorem step_not_panicked (h : s.step a = some (t, os)) : s.panicked = false := by
  cases hp : s.panicked with
  | false => rfl
  | true => simp [step, hp] at h

end GcSys

end TinyState
