import TinyState.Gc.Accounting

/-!
# When stability can be believed

`is_stable` reads the root bucket alone. What it says of the whole is right
where the collector has nothing in its hands and no mark is on its way, up or
down, over a bucket that holds an object.
-/

namespace TinyState

open Transition LinkedList

namespace GcSys

/-- No object waits for its destruction or for its callback, and none is being called. -/
structure Quiet (s : GcSys) : Prop where
  zero : ∀ x, s.ref x ≠ 0
  waits : ∀ x, s.waiting x = false
  running : s.collector.running = none

/-- The collector has nothing of what it has taken left, and where it has still
to go, or a `relref` to come from, there is nothing, nor below. -/
structure Clear (s : GcSys) : Prop where
  target : s.collector.target = none
  calls : s.collector.calls = none
  running : s.collector.running = none
  ways : ∀ i, s.Rising i ∨ i ∈ s.collector.due → ∀ j, s.tree.Under i j → ¬s.Loaded j

variable {s : GcSys} {i : Nat} {place : Address → Place} {tr : List GcObs}

theorem Clear.idle (hc : s.collector = .asleep) (hr : s.raising = []) : Clear s := by
  refine ⟨by rw [hc]; rfl, by rw [hc]; rfl, by rw [hc]; rfl, fun i hi => ?_⟩
  rcases hi with (hi | hi) | hi
  · simp [hr] at hi
  · simp [hc, Collector.risen] at hi
  · simp [hc, Collector.due] at hi

theorem not_busy_root (hs : s.isStable = true) : ¬s.tree.Busy 0 := by
  simp only [isStable, Bool.and_eq_true, beq_iff_eq] at hs
  obtain ⟨⟨hl, hf⟩, he⟩ := hs
  intro hb
  rcases busy_iff.mp hb with (h | h) | h
  · exact h hl
  · exact h he
  · exact h hf

/-- Below an empty root, a bucket that holds an object lies on somebody's way. -/
theorem Climbing.onTheWay (h : Climbing s none) (hs : s.isStable = true) (hi : s.Loaded i) :
    ∃ j, s.tree.Under j i ∧ (s.Rising j ∨ j ∈ s.collector.due) := by
  have hb : s.tree.Busy i := .inl hi
  have ha := h.covered.attended id (fun _ hn => parent_lt hn) hb
  rcases ha.onTheWay hb with hr | ⟨j, hu, (hj | hj) | hj⟩
  · exact absurd hr (not_busy_root hs)
  · exact ⟨j, hu, .inl hj⟩
  · cases hj
  · exact ⟨j, hu, .inr hj⟩

/-- Every bucket is empty where the root is, if nobody is on the way. -/
theorem Clear.empty (hc : Clear s) (h : Climbing s none) (hs : s.isStable = true) (i : Nat) :
    s.refList i = none ∧ s.refEventHead i = none := by
  have hn : ¬s.Loaded i := fun hi => by
    obtain ⟨j, hu, hj⟩ := h.onTheWay hs hi
    exact hc.ways j hj i hu hi
  simpa [Loaded] using hn

theorem Clear.quiet (hc : Clear s) (h : Climbing s none) (hb : Books s place none)
    (hs : s.isStable = true) : Quiet s := by
  refine ⟨fun x h0 => ?_, fun x => ?_, hc.running⟩
  · rcases (hb.zero x).mp h0 with hp | hp
    · have hd := hb.lists.deletes (bucket x)
      rw [(hc.empty h hs _).1] at hd
      exact holds_none.mp hd x ⟨hp, rfl⟩
    · have ht := hb.lists.target
      rw [hc.target] at ht
      exact holds_none.mp ht x hp
  · by_contra hw
    rcases (hb.waits x).mp (by simpa using hw) with hp | hp
    · have hq := (hb.lists.events (bucket x)).holds
      rw [(hc.empty h hs _).2] at hq
      exact holds_none.mp hq x ⟨hp, rfl⟩
    · have hv := hb.lists.calls
      rw [hc.calls] at hv
      exact holds_none.mp hv x hp

/-- Whoever is on a list waits. -/
theorem Quiet.clear (hq : Quiet s) (hb : Books s place none) : Clear s := by
  have hout : ∀ x, place x = .out := fun x => hb.out (hq.waits x) (hq.zero x)
  have hnone : ∀ {p : Option Address} {P : Address → Prop}, Holds s.next p P →
      (∀ x, P x → place x ≠ .out) → p = none := by
    intro p P hp hn
    cases p with
    | none => rfl
    | some x => exact absurd (hout x) (hn x hp.head)
  refine ⟨hnone hb.lists.target (by simp +contextual), hnone hb.lists.calls (by simp +contextual),
    hq.running, fun i _ j _ hl => ?_⟩
  rcases hl with hl | hl
  · exact hl (hnone (hb.lists.deletes j) (by simp +contextual))
  · exact hl (hnone (hb.lists.events j).holds (by simp +contextual))

end GcSys

open GcSys

/-- Where `is_stable` is true, and so where `wait_stable` returns, nothing is
left to be done if and only if nobody is at work on it. -/
theorem stable_iff (h : Gc.RunIf Careful tr s) (hs : s.isStable = true) :
    (Quiet s ↔ Clear s) ∧ (s.collector = .asleep → s.raising = [] → Quiet s) := by
  obtain ⟨place, hb⟩ := Books.run h
  have hcl := Climbing.run h
  refine ⟨⟨fun hq => hq.clear hb, fun hc => hc.quiet hcl hb hs⟩, fun hc hr => ?_⟩
  exact (Clear.idle hc hr).quiet hcl hb hs

/-- The collector sleeps again after an object has been destroyed. -/
theorem stable_at_rest : ∃ (tr : List GcObs) (s : GcSys), .deleted 101 ∈ tr ∧
    s.isStable = true ∧ Quiet s ∧
    (Quiet s ↔ Clear s) := by
  obtain ⟨tr, s, h, hd, hc, hr, hs⟩ := Machine.exists_run (M := Gc) (C := Careful)
    (P := fun tr s => .deleted 101 ∈ tr ∧ s.collector = .asleep ∧ s.raising = [] ∧
      s.isStable = true) callAndDelete rfl (by decide)
  exact ⟨tr, s, hd, hs, (stable_iff h hs).2 hc hr, (stable_iff h hs).1⟩

/-- An object has been queued and its flags are not raised yet; and a callback
is pending in the hands of the collector. -/
theorem stable_too_early :
    (∃ tr s, Gc.RunIf Holding tr s ∧ s.isStable = true ∧ s.ref 5 = 0) ∧
    ∃ tr s, Gc.RunIf Holding tr s ∧ s.isStable = true ∧ s.waiting 101 = true ∧
      s.raising = [] := by
  constructor
  · refine Machine.exists_run [.gc, .relref 5] rfl ?_
    decide
  · refine Machine.exists_run [.nRefEvent 101 0, .relref 101, .gc, .gc] rfl ?_
    decide

end TinyState
