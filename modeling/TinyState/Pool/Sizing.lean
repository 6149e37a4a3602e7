import TinyState.Pool.Threads

/-!
# The number of workers

The target never passes the limit, and the workers that are counted are those
that have been made, as long as making them succeeds. The floor under the
target is guarded by the number of idle workers alone: `ACT_DOWN_WAIT` takes it
for granted that with more than two of them the target is more than two, which
a limit lowered in between, or dismissed workers that have not gone yet, make
false.
-/

namespace TinyState

open Transition

namespace ThreadPool

variable {ω : Type} {s t : ThreadPool ω} {tr os : List FwCall} {i fails : Nat}

/-- The threads that the step makes can be made, and where the controller is about
to lower the target there is something to lower. -/
def Roomy (s : ThreadPool ω) : ThreadPoolAct ω → Prop
  | .control _ _ fails => fails = 0 ∧ (s.state = .lower → threadMaxIdleThreads < s.targetRunThreads)
  | .setLimit _ fails => fails = 0
  | _ => True

instance (s : ThreadPool ω) : (a : ThreadPoolAct ω) → Decidable (s.Roomy a)
  | .control _ _ _ => inferInstanceAs (Decidable (_ ∧ (_ → _)))
  | .setLimit _ _ => inferInstanceAs (Decidable (_ = _))
  | .ins _ | .work _ _ | .finish _ | .destroy => isTrue trivial

-- ---------------------------------------------------------------------------
-- The target and the limit
-- ---------------------------------------------------------------------------

/-- The comment on `_runThreads_nolock`: the target is never above the limit. -/
structure Limited (s : ThreadPool ω) : Prop where
  limit : threadMaxIdleThreads ≤ s.limitThreadsNumber
  target : s.targetRunThreads ≤ s.limitThreadsNumber

theorem Limited.keep (h : Limited s) (hc : SameControl s t) : Limited t where
  limit := by rw [hc.limit]; exact h.limit
  target := by rw [hc.limit, hc.target]; exact h.target

theorem Limited.runThreads {num : Int} (h : threadMaxIdleThreads ≤ s.limitThreadsNumber) :
    Limited (s.runThreadsNolock num fails) := by
  obtain ⟨-, -, -, -, hl, -⟩ := runThreads_frame s num fails
  have ht := (runThreads_staff s num fails).1
  exact ⟨by rw [hl]; exact h, by rw [hl]; omega⟩

theorem Limited.setLimit (lim : Int) : Limited (s.setLimit lim fails) := by
  refine Limited.runThreads (s := { s with limitThreadsNumber := _ }) ?_
  dsimp only
  split <;> omega

theorem Limited.goto (h : Limited s) (pc : PoolState) : Limited (s.goto pc) := ⟨h.limit, h.target⟩

theorem Limited.control (h : Limited s) (hs : Controlled s fails t os) : Limited t := by
  cases hs with
  | begin | raise | lower | drain => exact (Limited.runThreads h.limit).goto _
  | fold =>
    have := h.keep resRefio_control
    exact ⟨this.limit, this.target⟩
  | _ => exact ⟨h.limit, h.target⟩

theorem finish_control (s : ThreadPool ω) (stable : Bool) :
    let t := s.finish stable
    t.targetRunThreads = s.targetRunThreads ∧ t.limitThreadsNumber = s.limitThreadsNumber ∧
      t.state = s.state ∧ t.workers = s.workers ∧ t.currentRunThreads = s.currentRunThreads := by
  intro t
  simp only [t, finish]
  split
  · split
    · split
      · exact ⟨rfl, rfl, rfl, rfl, rfl⟩
      · split <;> exact ⟨rfl, rfl, rfl, rfl, rfl⟩
    · exact ⟨rfl, rfl, rfl, rfl, rfl⟩
  · split <;> exact ⟨rfl, rfl, rfl, rfl, rfl⟩
  · exact ⟨rfl, rfl, rfl, rfl, rfl⟩

-- ---------------------------------------------------------------------------
-- The floor
-- ---------------------------------------------------------------------------

/-- Once it has been set, and until the workers are dismissed, the target is not
below the floor, nor will it be set below. -/
structure Floored (s : ThreadPool ω) : Prop where
  floor : s.state.ini = false → s.state.drained = false → threadMaxIdleThreads ≤ s.targetRunThreads
  raising : ∀ n, s.state = .raiseSet n → threadMaxIdleThreads ≤ n
  lowering : ∀ n, s.state = .lowerSet n → threadMaxIdleThreads < n

theorem Floored.keep (h : Floored s) (ht : t.targetRunThreads = s.targetRunThreads)
    (hs : t.state = s.state) : Floored t where
  floor := by rw [ht, hs]; exact h.floor
  raising := by rw [hs]; exact h.raising
  lowering := by rw [hs]; exact h.lowering

theorem Floored.setLimit (h : Floored s) (lim : Int) : Floored (s.setLimit lim fails) := by
  let u : ThreadPool ω := { s with
    limitThreadsNumber := if lim < threadMaxIdleThreads then threadMaxIdleThreads else lim }
  change Floored (u.runThreadsNolock s.targetRunThreads fails)
  obtain ⟨-, -, -, -, -, -, -, hs⟩ :=
    runThreads_frame u s.targetRunThreads fails
  have ht := (runThreads_staff u s.targetRunThreads fails).1
  have hl : threadMaxIdleThreads ≤ u.limitThreadsNumber := by
    dsimp only [u]
    split <;> omega
  refine ⟨?_, ?_, ?_⟩
  · rw [hs, ht]
    intro hi hd
    have := h.floor hi hd
    omega
  · rw [hs]
    exact h.raising
  · rw [hs]
    exact h.lowering

/-- The controller sets a target that is high enough. -/
theorem Floored.runThreads {pc : PoolState} {num : Int} (hl : Limited s)
    (hn : threadMaxIdleThreads ≤ num) (hr : ∀ n, pc ≠ .raiseSet n) (hw : ∀ n, pc ≠ .lowerSet n) :
    Floored ((s.runThreadsNolock num fails).goto pc) := by
  have ht := (runThreads_staff s num fails).1
  have := hl.limit
  refine ⟨fun _ _ => ?_, fun n h => absurd h (hr n), fun n h => absurd h (hw n)⟩
  simp only [goto]
  omega

theorem Floored.goto {pc : PoolState} (h : Floored s) (hi : s.state.ini = false)
    (hd : s.state.drained = false) (hr : ∀ n, pc = .raiseSet n → n = s.targetRunThreads)
    (hw : ∀ n, pc = .lowerSet n → threadMaxIdleThreads < n) : Floored (s.goto pc) where
  floor _ _ := h.floor hi hd
  raising n hn := by
    rw [hr n hn]
    exact h.floor hi hd
  lowering := hw

theorem Floored.control (h : Floored s) (hl : Limited s)
    (hlow : s.state = .lower → threadMaxIdleThreads < s.targetRunThreads)
    (hs : Controlled s fails t os) : Floored t := by
  cases hs with
  | newReady | newRun => exact ⟨nofun, nofun, nofun⟩
  | begin => exact Floored.runThreads hl (Int.le_refl _) nofun nofun
  | go ha hp hr hw =>
    have hi : s.state.ini = false ∧ s.state.drained = false := by
      revert ha
      cases s.state <;> first | exact fun _ => ⟨rfl, rfl⟩ | nofun
    refine h.goto hi.1 hi.2 hr fun n hn => ?_
    rw [(hw n hn).2]
    exact hlow (hw n hn).1
  | null => exact h.keep rfl rfl
  | raise he =>
    have := h.raising _ he
    exact Floored.runThreads hl (by omega) nofun nofun
  | lower he =>
    have := h.lowering _ he
    exact Floored.runThreads hl (by omega) nofun nofun
  | stay he =>
    exact h.goto (by rcases he with he | he <;> rw [he] <;> rfl)
      (by rcases he with he | he <;> rw [he] <;> rfl) nofun nofun
  | latched he => exact h.goto (by rw [he]; rfl) (by rw [he]; rfl) nofun nofun
  | drain | wait | empty => exact ⟨fun _ hd => absurd hd nofun, nofun, nofun⟩
  | fold => exact ⟨fun _ hd => absurd hd nofun, nofun, nofun⟩

-- ---------------------------------------------------------------------------
-- The count of the workers
-- ---------------------------------------------------------------------------

/-- `currentRunThreads` counts the workers. -/
def Counted (s : ThreadPool ω) : Prop := s.currentRunThreads = s.workers.length

theorem Counted.keep (h : Counted s) (hs : SameStaff s t) : Counted t := by
  unfold Counted at h ⊢
  rcases hs with ⟨h₁, h₂⟩ | ⟨h₁, h₂⟩ <;> omega

theorem Counted.runThreads {num : Int} (h : Counted s) : Counted (s.runThreadsNolock num 0) := by
  have hs := runThreads_staff s num 0
  unfold Counted at h ⊢
  obtain ⟨-, ⟨-, hw, hc⟩ | ⟨hlt, hc, hw⟩⟩ := hs
  · rw [hw, hc, h]
  · omega

theorem Counted.control (h : Counted s) (hs : Controlled s 0 t os) : Counted t := by
  cases hs with
  | begin | raise | lower | drain => exact Counted.runThreads h
  | fold => exact h.keep resRefio_staff
  | _ => exact h

-- ---------------------------------------------------------------------------
-- Runs
-- ---------------------------------------------------------------------------

variable [DecidableEq ω]

/-- Where every thread can be made and nothing is lowered that is not above the
floor, the target stays between the floor and the limit and the workers are
counted right. -/
theorem sizing_law (h : (machine ω).RunIf Roomy tr s) :
    s.targetRunThreads ≤ s.limitThreadsNumber ∧ s.currentRunThreads = s.workers.length ∧
      (s.state.ini = false → s.state.drained = false →
        threadMaxIdleThreads ≤ s.targetRunThreads) := by
  have hi : Limited s ∧ Counted s ∧ Floored s := by
    refine h.stateInvariant (I := fun s => Limited s ∧ Counted s ∧ Floored s) ?_ ?_
    · rintro _ rfl
      have hm : threadMaxIdleThreads ≤ maxInteger ∧ 0 ≤ maxInteger := by decide
      exact ⟨⟨hm.1, hm.2⟩, rfl, ⟨nofun, nofun, nofun⟩⟩
    · rintro s a t os ⟨hl, hc, hf⟩ hr hs
      cases step_cases hs with
      | @ins target =>
        have hk := ins_control (s := s) target
        exact ⟨hl.keep hk, hc.keep (ins_staff target), hf.keep hk.target hk.state⟩
      | @work i timeout w hw =>
        have hk := work_control (s := s) (i := i) timeout w
        have hi := (List.getElem?_eq_some_iff.mp hw).1
        exact ⟨hl.keep hk, hc.keep (work_staff timeout w hi), hf.keep hk.target hk.state⟩
      | control hs =>
        obtain ⟨rfl, hlow⟩ := hr
        exact ⟨hl.control hs, hc.control hs, hf.control hl hlow hs⟩
      | @setLimit lim fails =>
        cases (show fails = 0 from hr)
        exact ⟨.setLimit lim, Counted.runThreads (s := { s with limitThreadsNumber := _ }) hc,
          hf.setLimit lim⟩
      | @finish stable =>
        obtain ⟨ht, hlim, hst, hw, hcur⟩ := finish_control s stable
        refine ⟨⟨by rw [hlim]; exact hl.limit, by rw [hlim, ht]; exact hl.target⟩, ?_,
          hf.keep ht hst⟩
        unfold Counted
        rw [hw, hcur]
        exact hc
      | destroy => exact ⟨⟨hl.limit, hl.target⟩, hc, hf.keep rfl rfl⟩
  exact ⟨hi.1.target, hi.2.1, hi.2.2.floor⟩

/-- Two jobs wait long enough for two more workers to be made. -/
def grow : List (ThreadPoolAct Nat) :=
  List.flatten [
    List.replicate 3 (.control false false 0),
    [.ins 1, .ins 2, .ins 3, .ins 4, .work 0 false, .work 1 false],
    List.replicate 5 (.control false true 0),
    [.work 2 false, .control true false 0],
    List.replicate 5 (.control false true 0),
    [.work 3 false]]

/-- The pool grows to four workers and shrinks again. -/
theorem sizing_law_grown : ∃ tr s, (machine Nat).RunIf Roomy tr s ∧
    (s.workers.length = 4 ∧ s.targetRunThreads = 3) ∧
    s.targetRunThreads ≤ s.limitThreadsNumber ∧ s.currentRunThreads = s.workers.length ∧
      (s.state.ini = false → s.state.drained = false →
        threadMaxIdleThreads ≤ s.targetRunThreads) := by
  obtain ⟨tr, s, h, hp⟩ := Machine.exists_run (M := machine Nat) (C := Roomy)
    (P := fun _ s => s.workers.length = 4 ∧ s.targetRunThreads = 3)
    (List.flatten [
      grow,
      [.work 1 false, .work 2 false, .work 3 false],
      List.replicate 9 (.control true false 0)]) rfl (by decide)
  exact ⟨tr, s, h, hp, sizing_law h⟩

/-- Three of four workers are idle while the limit is lowered to two. The
controller, which looks at the idle workers, lowers the target once more. -/
theorem lowered_below_floor : ∃ tr s, (machine Nat).Run tr s ∧
    s.state = .actDown ∧ s.limitThreadsNumber = 2 ∧ s.targetRunThreads = 1 := by
  exact Machine.exists_run (M := machine Nat) (C := fun _ _ => True)
    (P := fun _ s => s.state = .actDown ∧ s.limitThreadsNumber = 2 ∧ s.targetRunThreads = 1)
    (List.flatten [
      grow,
      [.work 1 false, .work 2 false, .work 3 false],
      List.replicate 6 (.control true false 0),
      [.setLimit 2 0],
      List.replicate 3 (.control true false 0)]) rfl (by decide)

end ThreadPool

end TinyState
