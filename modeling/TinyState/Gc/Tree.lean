import TinyState.Gc.Cases
import TinyState.Lib.DirtyTree
import Mathlib.Data.List.Basic
import Mathlib.Tactic.SplitIfs
import Mathlib.Tactic.Tauto

/-!
# The tree of the buckets

Whenever a bucket holds an object or a flag, the flags above it lead to
somebody: to a `relref` that is on its way up, to a sweep that is on its way
down, or to a collector that does not sleep.
-/

namespace TinyState

open Transition

-- ---------------------------------------------------------------------------
-- Flags
-- ---------------------------------------------------------------------------

theorem parent_lt {i : Nat} (hi : i ≠ 0) : parent i < i := by
  unfold parent
  omega

/-- A bucket is known by its parent and its bit there. -/
theorem eq_of_parent {i j : Nat} (hi : i ≠ 0) (hj : j ≠ 0) (hp : parent i = parent j)
    (hb : (i - 1) % 2 = (j - 1) % 2) : i = j := by
  unfold parent at hp
  omega

theorem RefFlags.get_set {f : RefFlags} {i j : Nat} (hi : i ≠ 0) (hj : j ≠ 0)
    (hp : parent i = parent j) : (f.set j).get i = true ↔ f.get i = true ∨ i = j := by
  have he : i = j ↔ (i - 1) % 2 = (j - 1) % 2 :=
    ⟨fun he => he ▸ rfl, eq_of_parent hi hj hp⟩
  unfold RefFlags.set RefFlags.get
  split <;> split <;> simp [he] <;> omega

theorem RefFlags.mem_children {f : RefFlags} {i c : Nat} :
    c ∈ f.children i ↔ c ≠ 0 ∧ parent c = i ∧ f.get c = true := by
  have hl : c = i * 2 + 1 ↔ c ≠ 0 ∧ parent c = i ∧ (c - 1) % 2 = 0 := by
    unfold parent
    omega
  have hr : c = i * 2 + 2 ↔ c ≠ 0 ∧ parent c = i ∧ ¬(c - 1) % 2 = 0 := by
    unfold parent
    omega
  unfold RefFlags.children RefFlags.get
  by_cases hb : (c - 1) % 2 = 0 <;> cases hfl : f.left <;> cases hfr : f.right <;>
    simp [hl, hr, hb]

theorem RefFlags.ne_none {f : RefFlags} (i : Nat) (hf : f ≠ .none) :
    ∃ c, c ≠ 0 ∧ parent c = i ∧ f.get c = true := by
  obtain ⟨left, right⟩ := f
  cases left with
  | true => exact ⟨i * 2 + 1, mem_children.mp (by simp [children])⟩
  | false =>
    cases right with
    | true => exact ⟨i * 2 + 2, mem_children.mp (by simp [children])⟩
    | false => exact absurd rfl hf

@[simp] theorem RefFlags.get_none (i : Nat) : RefFlags.none.get i = false := by
  simp [RefFlags.get, RefFlags.none]

-- ---------------------------------------------------------------------------
-- The operations
-- ---------------------------------------------------------------------------

namespace Collector

/-- The buckets that a sweep has still to come to. -/
def due : Collector → List Nat
  | .asleep | .over | .head => []
  | .calling ids => ids
  | .sweeping w | .callback _ w | .raising _ w => w.flags.children w.id ++ w.rest

/-- The bucket above which a `relref` of the collector raises flags. -/
def risen : Collector → Option Nat
  | .raising id _ => some id
  | _ => none

end Collector

namespace GcSys

variable {s t t' : GcSys} {x : Address} {i id : Nat} {o o' : Option Nat} {os : List GcObs}

def Loaded (s : GcSys) (i : Nat) : Prop := s.refList i ≠ none ∨ s.refEventHead i ≠ none

def Rising (s : GcSys) (i : Nat) : Prop := i ∈ s.raising ∨ s.collector.risen = some i

/-- The buckets as the nodes of a tree; `o` is the bucket that a call under way
has reached. -/
def treeWith (s : GcSys) (o : Option Nat) : DirtyTree.Tree Nat where
  root := 0
  parent := parent
  loaded := s.Loaded
  marked i := (s.refFlags (parent i)).get i = true
  rising i := s.Rising i ∨ o = some i
  due i := i ∈ s.collector.due
  awake := s.collector ≠ .asleep

abbrev tree (s : GcSys) : DirtyTree.Tree Nat := s.treeWith none

theorem busy_iff : (s.treeWith o).Busy i ↔ s.Loaded i ∨ s.refFlags i ≠ .none := by
  refine or_congr_right ⟨?_, fun hf => ?_⟩
  · rintro ⟨c, -, rfl, hc⟩ hf
    have hg : (s.refFlags ((s.treeWith o).parent c)).get c = true := hc
    rw [hf] at hg
    simp at hg
  · obtain ⟨c, hc, hp, hg⟩ := RefFlags.ne_none i hf
    exact ⟨c, hc, hp, show (s.refFlags (parent c)).get c = true from hp ▸ hg⟩

theorem Up.tree (h : Up s id t o) :
    t.refFlags = s.refFlags ∧ t.raising = s.raising ∧ t.Loaded = s.Loaded ∧
    t.collector.due = s.collector.due ∧ t.collector.risen = s.collector.risen ∧
    (s.collector ≠ .asleep → t.collector = s.collector) ∧
    (id = 0 → t.collector ≠ .asleep) ∧ (id ≠ 0 → o = some id) := by
  cases h with
  | root hi hc => exact ⟨rfl, rfl, rfl, rfl, rfl, fun _ => rfl, fun _ => hc, fun hn => absurd hi hn⟩
  | wake hi hc =>
    exact ⟨rfl, rfl, rfl, by rw [hc]; rfl, by rw [hc]; rfl, fun hn => absurd hc hn,
      fun _ => nofun, fun hn => absurd hi hn⟩
  | raise hi => exact ⟨rfl, rfl, rfl, rfl, rfl, fun _ => rfl, fun h0 => absurd h0 hi, fun _ => rfl⟩

theorem pushEvent_loaded (h : (s.pushEvent x).Loaded i) : s.Loaded i ∨ i = bucket x := by
  unfold pushEvent at h
  split at h
  · exact .inl h
  · by_cases hi : i = bucket x
    · exact .inr hi
    · left
      simpa [Loaded, Function.update_of_ne hi] using h

theorem pushEvent_tree : (s.pushEvent x).refFlags = s.refFlags ∧
    (s.pushEvent x).raising = s.raising ∧ (s.pushEvent x).collector = s.collector := by
  rw [pushEvent_frame]
  exact ⟨rfl, rfl, rfl⟩

theorem pushDelete_loaded (h : (s.pushDelete x).Loaded i) : s.Loaded i ∨ i = bucket x := by
  by_cases hi : i = bucket x
  · exact .inr hi
  · left
    simpa [Loaded, pushDelete, Function.update_of_ne hi] using h

-- ---------------------------------------------------------------------------
-- Every busy bucket is handled
-- ---------------------------------------------------------------------------

theorem covered_keep (hc : (s.treeWith o).Covered) (hf : t.refFlags = s.refFlags)
    (hl : ∀ i, t.Loaded i → s.Loaded i ∨ (t.treeWith o').Handled i)
    (hr : ∀ i, s.Rising i ∨ o = some i → t.Rising i ∨ o' = some i)
    (hd : ∀ i ∈ s.collector.due, i ∈ t.collector.due)
    (ha : s.collector ≠ .asleep → t.collector ≠ .asleep) : (t.treeWith o').Covered := by
  refine hc.change (fun i hi => ?_) fun i _ hi => ⟨fun h0 => ha (hi.1 h0), fun hn => ?_⟩
  · rcases busy_iff.mp hi with hl' | hf'
    · rcases hl i hl' with hl' | hh
      · exact .inl (busy_iff.mpr (.inl hl'))
      · exact .inr hh
    · exact .inl (busy_iff.mpr (.inr (hf ▸ hf')))
  · rcases hi.2 hn with hm | hs | hs
    · exact .inl (show (t.refFlags (parent i)).get i = true from hf ▸ hm)
    · exact .inr (.inl (hr i hs))
    · exact .inr (.inr (hd i hs))

/-- The bucket that has been loaded is handled where `Up` leaves the state. -/
theorem Up.handled (h : Up s id t o) : (t.treeWith o).Handled id := by
  obtain ⟨-, -, -, -, -, -, h0, hn⟩ := h.tree
  exact ⟨h0, fun hi => .inr (.inl (.inr (hn hi)))⟩

theorem Up.covered (h : Up t id t' o)
    (hc : (s.treeWith none).Covered) (hf : t.refFlags = s.refFlags) (hr : t.raising = s.raising)
    (hcol : t.collector = s.collector) (hl : ∀ i, t.Loaded i → s.Loaded i ∨ i = id) :
    (t'.treeWith o).Covered := by
  obtain ⟨hf', hr', hl', hd', hs', ha', -, -⟩ := h.tree
  refine covered_keep hc (hf'.trans hf) (fun i hi => ?_) (fun i hi => ?_) ?_ fun ha => ?_
  · rw [hl'] at hi
    rcases hl i hi with hi | rfl
    · exact .inl hi
    · exact .inr h.handled
  · left
    simpa [Rising, hr', hr, hs', hcol] using hi
  · simp [hd', hcol]
  · rw [← hcol] at ha
    rw [ha' ha]
    exact ha

theorem Dropped.covered (h : Dropped s x t o os) (hc : (s.treeWith none).Covered) :
    (t.treeWith o).Covered := by
  cases h with
  | gone _ => exact hc
  | panic _ _ => exact hc
  | counted _ _ => exact hc
  | watched _ _ hu =>
    obtain ⟨hf, hr, hcol⟩ := pushEvent_tree (x := x) (s := { s with
      refEventNum := Function.update s.refEventNum x (-1)
      waiting := Function.update s.waiting x true })
    refine hu.covered hc hf hr hcol fun i hi => ?_
    have hl := pushEvent_loaded hi
    exact hl
  | last _ _ hu => exact hu.covered hc rfl rfl rfl fun i hi => pushDelete_loaded hi

theorem Raised.covered (h : Raised s id t o) (hid : id ≠ 0)
    (hc : (s.treeWith (some id)).Covered) : (t.treeWith o).Covered := by
  cases h with
  | stop hm =>
    -- the flag is set already, and whoever set it goes on, or has been here
    refine hc.change (fun i hi => .inl (busy_iff.mpr (busy_iff.mp hi)))
      fun i _ hi => ⟨hi.1, fun hn => ?_⟩
    rcases hi.2 hn with hm' | (hs | hs) | hd
    · exact .inl hm'
    · exact .inr (.inl (.inl hs))
    · obtain rfl : id = i := by simpa using hs
      exact .inl hm
    · exact .inr (.inr hd)
  | set _ hu =>
    obtain ⟨hf, hr, hl, hd, hs, ha, -, -⟩ := hu.tree
    have hmark : ∀ i, i ≠ 0 → ((t.refFlags (parent i)).get i = true ↔
        (s.refFlags (parent i)).get i = true ∨ i = id) := by
      intro i hi
      rw [hf]
      by_cases hp : parent i = parent id
      · simp only [hp, Function.update_self]
        exact RefFlags.get_set hi hid hp
      · simp only [Function.update_of_ne hp]
        exact ⟨.inl, fun h => h.resolve_right fun he => hp (he ▸ rfl)⟩
    refine hc.change (fun i hi => ?_) fun i _ hi => ⟨fun h0 => ?_, fun hn => ?_⟩
    · rcases hi with hi | ⟨c, hc0, rfl, hm⟩
      · exact .inl (.inl ((congrFun hl i).mp hi))
      · rcases (hmark c hc0).mp hm with hm | rfl
        · exact .inl (.inr ⟨c, hc0, rfl, hm⟩)
        · exact .inr hu.handled
    · have hs : s.collector ≠ .asleep := hi.1 h0
      exact (ha hs).trans_ne hs
    · rcases hi.2 hn with hm | (hs' | hs') | hd'
      · exact .inl ((hmark i hn).mpr (.inl hm))
      · refine .inr (.inl (.inl ?_))
        simpa [Rising, hr, hs] using hs'
      · obtain rfl : id = i := by simpa using hs'
        exact .inl ((hmark id hn).mpr (.inr rfl))
      · refine .inr (.inr ?_)
        simpa [treeWith, hd] using hd'

/-- A call that has come to an end leaves its bucket with those of its caller. -/
theorem covered_raising (hc : (s.treeWith o).Covered) :
    ({ s with raising := o.toList ++ s.raising } : GcSys).tree.Covered := by
  refine covered_keep hc rfl (fun _ hl => .inl hl) ?_ (fun _ hd => hd) fun ha => ha
  rintro i ((hr | hr) | rfl)
  · exact .inl (.inl (List.mem_append_right _ hr))
  · exact .inl (.inr hr)
  · exact .inl (.inl (List.mem_append_left _ (by simp)))

@[simp] theorem resume_due (w : Sweep) (o : Option Nat) :
    (w.resume o).due = w.flags.children w.id ++ w.rest := by
  cases o <;> rfl

@[simp] theorem resume_risen (w : Sweep) (o : Option Nat) : (w.resume o).risen = o := by
  cases o <;> rfl

theorem resume_ne_asleep (w : Sweep) (o : Option Nat) : w.resume o ≠ .asleep := by
  cases o <;> nofun

theorem covered_resume {w : Sweep} (hc : (s.treeWith o).Covered)
    (hs : s.collector = .sweeping w) :
    ({ s with collector := w.resume o } : GcSys).tree.Covered := by
  refine covered_keep hc rfl (fun _ hl => .inl hl) ?_ ?_ fun _ => resume_ne_asleep w o
  · rintro i ((hr | hr) | rfl)
    · exact .inl (.inl hr)
    · simp [hs, Collector.risen] at hr
    · exact .inl (.inr (resume_risen w (some i)))
  · intro i hd
    rw [hs] at hd
    exact (resume_due w o).symm ▸ hd

/-- A collector that goes on and drops nothing it was to come to. -/
theorem covered_collector {c : Collector} (hc : (s.treeWith o).Covered)
    (hr : ∀ i, s.collector.risen = some i → o' = some i) (ho : ∀ i, o = some i → o' = some i)
    (hd : ∀ i ∈ s.collector.due, i ∈ c.due) (ha : c ≠ .asleep) :
    (({ s with collector := c } : GcSys).treeWith o').Covered := by
  refine covered_keep hc rfl (fun _ hl => .inl hl) ?_ hd fun _ => ha
  rintro i ((h | h) | h)
  · exact .inl (.inl h)
  · exact .inr (hr i h)
  · exact .inr (ho i h)

theorem covered_take {rest : List Nat} (hc : s.tree.Covered)
    (hs : s.collector = .calling (id :: rest)) : (s.take id rest).tree.Covered := by
  have hdue : ∀ {i}, i ∈ (s.take id rest).collector.due ↔
      i ∈ (s.refFlags id).children id ∨ i ∈ rest := by
    simp [take, Collector.due]
  -- the children whose flags are taken are due from here on
  refine hc.change (fun i hi => ?_) fun i hi hh => ⟨fun _ => nofun, fun hn => ?_⟩
  · rcases busy_iff.mp hi with hl | hf
    · by_cases he : i = id
      · simp [he, take, Loaded] at hl
      · exact .inl (busy_iff.mpr (.inl (by simpa [take, Loaded, Function.update_of_ne he] using hl)))
    · by_cases he : i = id
      · simp [he, take] at hf
      · exact .inl (busy_iff.mpr (.inr (by simpa [take, Function.update_of_ne he] using hf)))
  · rcases hh.2 hn with hm | (hr | hr) | hd
    · by_cases hp : parent i = id
      · exact .inr (.inr (hdue.mpr (.inl (RefFlags.mem_children.mpr ⟨hn, hp, hp ▸ hm⟩))))
      · refine .inl ?_
        simpa [treeWith, take, Function.update_of_ne hp] using hm
    · rcases hr with hr | hr
      · exact .inr (.inl (.inl (.inl hr)))
      · simp [hs, Collector.risen] at hr
    · cases hr
    · have hd : i ∈ id :: rest := by simpa [treeWith, hs, Collector.due] using hd
      rcases List.mem_cons.mp hd with rfl | hd
      · -- the bucket itself is empty now
        rcases busy_iff.mp hi with hl | hf
        · simp [take, Loaded] at hl
        · simp [take] at hf
      · exact .inr (.inr (hdue.mpr (.inr hd)))

theorem covered_testRoot (hc : s.tree.Covered) (hs : s.collector = .head) :
    s.testRoot.tree.Covered := by
  unfold testRoot
  split
  · rename_i he
    obtain ⟨hl, hf, hv⟩ := he
    refine hc.change (fun i hi => .inl hi) fun i hi hh =>
      ⟨fun h0 => ?_, fun hn => ?_⟩
    · obtain rfl : i = 0 := h0
      rcases busy_iff.mp hi with hb | hb
      · simp [Loaded, hl, hv] at hb
      · exact absurd hf hb
    · rcases hh.2 hn with hm | (hr | hr) | hd
      · exact .inl hm
      · rcases hr with hr | hr
        · exact .inr (.inl (.inl (.inl hr)))
        · simp [hs, Collector.risen] at hr
      · cases hr
      · simp [treeWith, hs, Collector.due] at hd
  · exact covered_collector hc (by simp [hs, Collector.risen]) (fun _ h => h)
      (by simp [hs, Collector.due]) nofun

-- ---------------------------------------------------------------------------
-- Runs
-- ---------------------------------------------------------------------------

theorem Up.inner (h : Up s id t o) : ∀ i, o = some i → i ≠ 0 := by
  cases h with
  | root _ _ => nofun
  | wake _ _ => nofun
  | raise hi =>
    rintro i ⟨⟩
    exact hi

/-- Flags are raised above the buckets other than the root. -/
structure Climbing (s : GcSys) (o : Option Nat) : Prop where
  covered : (s.treeWith o).Covered
  inner : ∀ i, s.Rising i ∨ o = some i → i ≠ 0

theorem Up.climbing (h : Up s id t o) (hi : ∀ i, s.Rising i → i ≠ 0)
    (hc : (t.treeWith o).Covered) : Climbing t o := by
  obtain ⟨-, hr, -, -, hs, -, -, -⟩ := h.tree
  refine ⟨hc, ?_⟩
  rintro i (ht | ho)
  · exact hi i (by simpa [Rising, hr, hs] using ht)
  · exact h.inner i ho

theorem Climbing.relref (h : Climbing s none) (hd : Dropped s x t o os) : Climbing t o := by
  have hc := hd.covered h.covered
  have hi : ∀ i, s.Rising i → i ≠ 0 := fun i hi => h.inner i (.inl hi)
  cases hd with
  | gone _ => exact ⟨hc, h.inner⟩
  | panic _ _ => exact ⟨hc, h.inner⟩
  | counted _ _ => exact ⟨hc, h.inner⟩
  | watched _ _ hu =>
    refine hu.climbing (fun i hr => hi i ?_) hc
    obtain ⟨-, hr', hc'⟩ := pushEvent_tree (x := x) (s := { s with
      refEventNum := Function.update s.refEventNum x (-1)
      waiting := Function.update s.waiting x true })
    simpa [Rising, hr', hc'] using hr
  | last _ _ hu => exact hu.climbing hi hc

theorem Climbing.raise (h : Climbing s (some id)) (hr : Raised s id t o) : Climbing t o := by
  have hc := hr.covered (h.inner id (.inr rfl)) h.covered
  have hi : ∀ i, s.Rising i → i ≠ 0 := fun i hi => h.inner i (.inl hi)
  cases hr with
  | stop _ => exact ⟨hc, fun i hr => hi i (hr.resolve_right nofun)⟩
  | set _ hu => exact hu.climbing hi hc

theorem Climbing.raising (h : Climbing s o) :
    Climbing { s with raising := o.toList ++ s.raising } none := by
  refine ⟨covered_raising h.covered, ?_⟩
  rintro i ((hr | hr) | hr)
  · rcases List.mem_append.mp hr with hr | hr
    · exact h.inner i (.inr (by simpa using hr))
    · exact h.inner i (.inl (.inl hr))
  · exact h.inner i (.inl (.inr hr))
  · cases hr

theorem Climbing.resume {w : Sweep} (h : Climbing s o) (hs : s.collector = .sweeping w) :
    Climbing { s with collector := w.resume o } none := by
  refine ⟨covered_resume h.covered hs, ?_⟩
  rintro i ((hr | hr) | hr)
  · exact h.inner i (.inl (.inl hr))
  · exact h.inner i (.inr ((resume_risen w o).symm.trans hr))
  · cases hr

theorem Climbing.collector {c : Collector} (h : Climbing s none)
    (hr : s.collector.risen = o) (hc : c.risen = none)
    (hd : ∀ i ∈ s.collector.due, i ∈ c.due) (ha : c ≠ .asleep) :
    Climbing { s with collector := c } o := by
  refine ⟨covered_collector h.covered (fun i hi => hr.symm.trans hi) nofun hd ha, ?_⟩
  rintro i ((hi | hi) | hi)
  · exact h.inner i (.inl (.inl hi))
  · simp [hc] at hi
  · exact h.inner i (.inl (.inr (hr.trans hi)))

/-- A step of the collector that leaves the lists and the flags alone. -/
theorem Climbing.on {c : Collector} (h : Climbing s none) (hs : s.collector.risen = none)
    (hc : c.risen = none) (hd : ∀ i ∈ s.collector.due, i ∈ c.due) (ha : c ≠ .asleep) :
    Climbing { s with collector := c } none :=
  h.collector hs hc hd ha

theorem Climbing.take {rest : List Nat} (h : Climbing s none)
    (hs : s.collector = .calling (id :: rest)) : Climbing (s.take id rest) none := by
  refine ⟨covered_take h.covered hs, ?_⟩
  rintro i ((hr | hr) | hr)
  · exact h.inner i (.inl (.inl hr))
  · cases hr
  · cases hr

theorem Climbing.testRoot (h : Climbing s none) (hs : s.collector = .head) :
    Climbing s.testRoot none := by
  refine ⟨covered_testRoot h.covered hs, ?_⟩
  have hr : ∀ i, s.testRoot.Rising i → s.Rising i := by
    unfold GcSys.testRoot
    rintro i hi
    split at hi <;> rcases hi with hi | hi
    · exact .inl hi
    · dsimp only at hi
      split at hi <;> cases hi
    · exact .inl hi
    · cases hi
  rintro i (hi | hi)
  · exact h.inner i (.inl (hr i hi))
  · cases hi

theorem Climbing.collected (h : Climbing s none) (hs : Collected s t os) : Climbing t none := by
  cases hs with
  | head hc => exact h.testRoot hc
  | round hc => exact h.on (by rw [hc]; rfl) rfl (by simp [hc, Collector.due]) nofun
  | take hc => exact h.take hc
  | bad _ _ _ => exact ⟨h.covered, h.inner⟩
  | @delete w x hc _ _ =>
    have h' := h.on (c := .sweeping { w with target := s.next x }) (by rw [hc]; rfl) rfl
      (by rw [hc]; exact fun _ hd => hd) nofun
    exact ⟨h'.covered, h'.inner⟩
  | @refEvent w x hc _ _ =>
    have h' := h.on (c := .callback x { w with ev := s.next x }) (by rw [hc]; rfl) rfl
      (by rw [hc]; exact fun _ hd => hd) nofun
    exact ⟨h'.covered, h'.inner⟩
  | children hc =>
    exact h.on (by rw [hc]; rfl) rfl (by rw [hc]; exact fun _ hd => hd) nofun
  | @relref x w _ _ _ hc hd =>
    have h' : Climbing { s with collector := .sweeping w } none :=
      h.on (by rw [hc]; rfl) rfl (by rw [hc]; exact fun _ hd => hd) nofun
    exact (h'.relref hd).resume (hd.collector nofun)
  | @raise id w _ _ hc hr =>
    have h' : Climbing { s with collector := .sweeping w } (some id) :=
      h.collector (by rw [hc]; rfl) rfl (by rw [hc]; exact fun _ hd => hd) nofun
    exact (h'.raise hr).resume (hr.collector nofun)

theorem Climbing.wake (h : Climbing s none) (hc : s.collector = .asleep) :
    Climbing { s with collector := .head } none :=
  h.on (by rw [hc]; rfl) rfl (by simp [hc, Collector.due]) nofun

/-- One of those who raise flags is at work. -/
theorem Climbing.pick (h : Climbing s none) {i : Nat} (hi : s.raising[i]? = some id) :
    Climbing { s with raising := s.raising.eraseIdx i } (some id) := by
  refine ⟨covered_keep h.covered rfl (fun _ hl => .inl hl) ?_ (fun _ hd => hd) fun ha => ha, ?_⟩
  · rintro j ((hj | hj) | hj)
    · rcases List.mem_iff_getElem?.mp hj with ⟨k, hk⟩
      by_cases he : k = i
      · exact .inr (hi.symm.trans (he ▸ hk))
      · exact .inl (.inl (List.mem_eraseIdx_iff_getElem?.mpr ⟨k, he, hk⟩))
    · exact .inl (.inr hj)
    · cases hj
  · rintro j ((hj | hj) | hj)
    · exact h.inner j (.inl (.inl (List.mem_of_mem_eraseIdx hj)))
    · exact h.inner j (.inl (.inr hj))
    · exact h.inner j (.inl (.inl (Option.some.inj hj ▸ List.mem_of_getElem? hi)))

theorem Climbing.moved (h : Climbing s none) (hs : Moved s a t os) : Climbing t none := by
  cases hs with
  | addref_gone _ => exact h
  | addref _ => exact ⟨h.covered, h.inner⟩
  | @relref x s' o os hd =>
    have h' : Climbing { s with held := Function.update s.held x (s.held x - 1) } none :=
      ⟨h.covered, h.inner⟩
    exact (h'.relref hd).raising
  | nRefEvent => exact ⟨h.covered, h.inner⟩
  | raise hi hr => exact ((h.pick hi).raise hr).raising
  | gc hc => exact h.collected hc
  | wake hc => exact h.wake hc
  | finish =>
    have h' : Climbing { s with finishFlag := true } none := ⟨h.covered, h.inner⟩
    unfold broadcast
    split
    · exact h'.wake ‹_›
    · exact h'

theorem Climbing.initial : Climbing .initial none := by
  constructor
  · intro i hi
    rcases busy_iff.mp hi with (hl | hl) | hf
    · exact absurd rfl hl
    · exact absurd rfl hl
    · exact absurd rfl hf
  · rintro i ((hr | hr) | hr) <;> cases hr

theorem Climbing.run (h : Gc.RunIf C tr s) : Climbing s none := by
  refine h.stateInvariant (I := fun s => Climbing s none) ?_ fun _ _ _ _ hi _ hs =>
    hi.moved (step_moved hs)
  rintro s rfl
  exact Climbing.initial

theorem Climbing.attended (h : Climbing s none) {i : Nat} (hi : s.tree.Busy i) :
    s.tree.Attended i :=
  h.covered.attended id (fun _ hn => parent_lt hn) hi

/-- Where the collector sleeps and no `relref` is on its way up, everything is empty. -/
theorem Climbing.idle (h : Climbing s none) (hc : s.collector = .asleep) (hr : s.raising = [])
    (i : Nat) : s.refList i = none ∧ s.refEventHead i = none ∧ s.refFlags i = .none := by
  by_contra hn
  have hi : s.tree.Busy i := by
    rw [busy_iff, Loaded]
    tauto
  rcases (h.attended hi).somebody with ha | ⟨j, (hj | hj) | hj⟩ | ⟨j, hj⟩
  · exact ha hc
  · simp [hr] at hj
  · simp [hc, Collector.risen] at hj
  · cases hj
  · simp [treeWith, hc, Collector.due] at hj

end GcSys

-- ---------------------------------------------------------------------------
-- No bucket is left behind
-- ---------------------------------------------------------------------------

/-- What is busy is attended while there is a collector, and where the collector
sleeps and no `relref` is on its way up, everything is empty. -/
theorem buckets_attended (h : Gc.Run tr s) :
    (s.collector ≠ .over → ∀ i,
      s.refList i ≠ none ∨ s.refEventHead i ≠ none ∨ s.refFlags i ≠ .none → s.tree.Attended i) ∧
    (s.collector = .asleep → s.raising = [] → ∀ i,
      s.refList i = none ∧ s.refEventHead i = none ∧ s.refFlags i = .none) := by
  have hclimb := GcSys.Climbing.run h
  constructor
  · intro _ i hi
    exact hclimb.attended (GcSys.busy_iff.mpr (or_assoc.mpr hi))
  · intro hc hr i
    exact hclimb.idle hc hr i

/-- An object of the fifth bucket is dropped and its flags are raised. -/
def dropFive : List GcAct := [.gc, .relref 5, .raise 0, .raise 0]

/-- The collector finds it, and sleeps again. -/
def sweepFive : List GcAct := List.replicate 10 .gc

theorem five_attended :
    (∃ tr s, s.refList 5 = some 5 ∧ s.tree.Attended 5 ∧ Gc.Run tr s) ∧
    ∃ tr s, .deleted 5 ∈ tr ∧ Gc.Run tr s ∧
      ∀ i, s.refList i = none ∧ s.refEventHead i = none ∧ s.refFlags i = .none := by
  constructor
  · obtain ⟨tr, s, h, hc, hl⟩ := Machine.exists_run (M := Gc) (C := fun _ _ => True)
      (P := fun _ s => s.collector ≠ .over ∧ s.refList 5 = some 5) dropFive rfl (by decide)
    exact ⟨tr, s, hl, (buckets_attended h).1 hc 5 (.inl (by simp [hl])), h⟩
  · obtain ⟨tr, s, h, hd, hc, hr⟩ := Machine.exists_run (M := Gc) (C := fun _ _ => True)
      (P := fun tr s => .deleted 5 ∈ tr ∧ s.collector = .asleep ∧ s.raising = [])
      (dropFive ++ sweepFive) rfl (by decide)
    exact ⟨tr, s, hd, h, (buckets_attended h).2 hc hr⟩

end TinyState
