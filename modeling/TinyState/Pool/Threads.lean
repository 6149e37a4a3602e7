import Mathlib.Algebra.Order.Ring.Int
import TinyState.Pool.Model

/-!
# The workers of the pool and their number

`tsThread` with its queues `ready` and `run`, its workers, the reference to the
reactor that it takes while it has something to do, and the states that adapt
the number of workers. What a thread does while it holds `mtx` is one step, and
so is each read of a counter that the controller makes without it.

What `eventHandler` does for a job is the business of the object. Wakenings of
idle workers are left open: `cond.timedwait` may return at any time, with or
without a timeout.
-/

namespace TinyState

open Transition

/-- `THREAD_MAX_IDLE_THREADS`. -/
def threadMaxIdleThreads : Int := 2

/-- `MAX_INTEGER`. -/
def maxInteger : Int := 2 ^ 31 - 1

/-- Where a worker is in `__tsThread_body`. -/
inductive WorkerPc (ω : Type)
  /-- About to take `mtx` and to go round the loop. -/
  | loop
  /-- In `cond.timedwait`. -/
  | idle
  /-- In `eventHandler`, with `mtx` released. -/
  | running (job : Job ω)
  deriving DecidableEq, Repr

/-- The states of `tsThread`, cut where another thread may come between. -/
inductive PoolState
  | iniStart
  | iniRun
  | iniThreads
  | actStart
  | actTinyStateStart
  | oldest
  | raise
  | raiseSet (num : Int)
  | actWait2
  | actDown
  | actDownWait
  | downQueues
  | downIdle
  | lower
  | lowerSet (num : Int)
  | finStart
  | finStableWait
  | finDrained
  | finWait
  | finFold
  | finTinyStateStart
  deriving DecidableEq, Repr

/-- How far `finish` has got with its three conditions. -/
inductive FinishPc
  | out
  | run
  | stable
  deriving DecidableEq, Repr

inductive FwCall
  | addRefio
  | delRefio
  deriving DecidableEq, Repr

/-- `workers` are those that have been created and have not left their loop.
`nullRef` records that a queue was used that is not there. -/
structure ThreadPool (ω : Type) where
  ready : Option (List (Job ω))
  run : Option (List (Job ω))
  targetRunThreads : Int
  limitThreadsNumber : Int
  currentIdleThreads : Int
  currentRunThreads : Int
  refio : Bool
  finishFlag : Bool
  destroyed : Bool
  state : PoolState
  finishing : FinishPc
  workers : List (WorkerPc ω)
  nextId : ThrId
  nullRef : Bool

inductive ThreadPoolAct (ω : Type)
  | ins (target : ω)
  /-- The worker in the given place goes on, from `timedwait` with or without a timeout. -/
  | work (i : Nat) (timeout : Bool)
  /-- The controller goes on, finding its timer expired or not and the oldest job
  too old or not; as many calls of `pthread_create` fail. -/
  | control (expired old : Bool) (fails : Nat)
  | setLimit (lim : Int) (fails : Nat)
  | finish (stable : Bool)
  | destroy
  deriving DecidableEq, Repr

namespace PoolState

def fin : PoolState → Bool
  | .finStart | .finStableWait | .finDrained | .finWait | .finFold | .finTinyStateStart => true
  | _ => false

def ini : PoolState → Bool
  | .iniStart | .iniRun | .iniThreads => true
  | _ => false

def act (pc : PoolState) : Bool := !pc.ini && !pc.fin

/-- From `FIN_DRAINED` on. -/
def draining : PoolState → Bool
  | .finDrained | .finWait | .finFold | .finTinyStateStart => true
  | _ => false

/-- `FIN_DRAINED` has dismissed the workers. -/
def drained : PoolState → Bool
  | .finWait | .finFold | .finTinyStateStart => true
  | _ => false

end PoolState

namespace ThreadPool

variable {ω : Type}

def setRefio (s : ThreadPool ω) : ThreadPool ω × List FwCall :=
  if s.refio then (s, []) else ({ s with refio := true }, [.addRefio])

def resRefio (s : ThreadPool ω) : ThreadPool ω × List FwCall :=
  if s.refio then ({ s with refio := false }, [.delRefio]) else (s, [])

def ins (s : ThreadPool ω) (target : ω) : ThreadPool ω × List FwCall :=
  match s.ready with
  | none => (s, [])
  | some q => setRefio { s with
      ready := some (q ++ [⟨s.nextId, target⟩])
      nextId := s.nextId + 1 }

/-- The result of `pthread_create` is not looked at. -/
def create (s : ThreadPool ω) (num : Int) (fails : Nat) : ThreadPool ω :=
  { s with
    workers := s.workers ++ List.replicate (num.toNat - fails) .loop
    currentRunThreads := s.currentRunThreads + num }

def runThreadsNolock (s : ThreadPool ω) (num : Int) (fails : Nat) : ThreadPool ω :=
  let num := if num > s.limitThreadsNumber then s.limitThreadsNumber else num
  let s := { s with targetRunThreads := num }
  if s.currentRunThreads < s.targetRunThreads then
    s.create (s.targetRunThreads - s.currentRunThreads) fails
  else s

def setLimit (s : ThreadPool ω) (lim : Int) (fails : Nat) : ThreadPool ω :=
  let lim := if lim < threadMaxIdleThreads then threadMaxIdleThreads else lim
  { s with limitThreadsNumber := lim }.runThreadsNolock s.targetRunThreads fails

def moveTo (s : ThreadPool ω) (i : Nat) (pc : WorkerPc ω) : ThreadPool ω :=
  { s with workers := s.workers.set i pc }

/-- The worker leaves its loop. -/
def exit (s : ThreadPool ω) (i : Nat) : ThreadPool ω :=
  { s with
    workers := s.workers.eraseIdx i
    currentRunThreads := s.currentRunThreads - 1 }

def null (s : ThreadPool ω) : ThreadPool ω := { s with nullRef := true }

/-- `run->ins` and what follows, with the job that has been taken from `ready`. -/
def start (s : ThreadPool ω) (i : Nat) (job : Job ω) (q : List (Job ω)) : ThreadPool ω :=
  match s.run with
  | none => s.null
  | some r => { s with
      ready := some q
      run := some (r ++ [job]) }.moveTo i (.running job)

/-- The top of the loop of `__tsThread_body`. -/
def turn (s : ThreadPool ω) (i : Nat) : ThreadPool ω :=
  if s.targetRunThreads < s.currentRunThreads then s.exit i
  else
    match s.ready with
    | none => s.null
    | some [] => { s with currentIdleThreads := s.currentIdleThreads + 1 }.moveTo i .idle
    | some (job :: q) => s.start i job q

/-- What follows `timedwait` when it has timed out. -/
def expire (s : ThreadPool ω) (i : Nat) : ThreadPool ω :=
  match s.ready with
  | none => s.null
  | some [] => s.exit i
  | some (job :: q) => s.start i job q

/-- What follows the return of `eventHandler`. With nothing left to do the worker
releases `mtx` for the time of `wakeup`. -/
def done [DecidableEq ω] (s : ThreadPool ω) (i : Nat) (job : Job ω) :
    ThreadPool ω × List FwCall :=
  match s.run, s.ready with
  | some r, some q =>
    let s := { s with run := some (r.erase job) }
    if r.erase job = [] ∧ q = [] then
      let (s, os) := s.resRefio
      (s.moveTo i .loop, os)
    else (s.turn i, [])
  | _, _ => (s.null, [])

/-- A worker takes `mtx` and goes on to where it releases it. -/
def work [DecidableEq ω] (s : ThreadPool ω) (i : Nat) (timeout : Bool) :
    WorkerPc ω → ThreadPool ω × List FwCall
  | .loop => (s.turn i, [])
  | .idle =>
    let s := { s with currentIdleThreads := s.currentIdleThreads - 1 }
    (if timeout then s.expire i else s.turn i, [])
  | .running job => s.done i job

def goto (s : ThreadPool ω) (pc : PoolState) : ThreadPool ω := { s with state := pc }

/-- `FIN_WAIT`, once no worker is left. -/
def fold (s : ThreadPool ω) : ThreadPool ω × List FwCall :=
  let (s, os) := s.resRefio
  ({ s with
      ready := none
      run := none
      state := .finTinyStateStart }, os)

/-- The states of the controller. -/
def control (s : ThreadPool ω) (expired old : Bool) (fails : Nat) :
    Option (ThreadPool ω × List FwCall) :=
  match s.state with
  | .iniStart => some ({ s with ready := some [] }.goto .iniRun, [])
  | .iniRun => some ({ s with run := some [] }.goto .iniThreads, [])
  | .iniThreads => some ((s.runThreadsNolock threadMaxIdleThreads fails).goto .actStart, [])
  | .actStart => some (s.goto (if s.destroyed then .finStart else .actTinyStateStart), [])
  | .actTinyStateStart =>
    some (s.goto (if s.currentIdleThreads > threadMaxIdleThreads then .actDown else .oldest), [])
  | .oldest =>
    match s.ready with
    | none => some (s.null, [])
    | some [] => some (s.goto .actStart, [])
    | some (_ :: _) => some (s.goto (if old then .raise else .actWait2), [])
  | .raise => some (s.goto (.raiseSet s.targetRunThreads), [])
  | .raiseSet num => some ((s.runThreadsNolock (num + 1) fails).goto .actWait2, [])
  | .actWait2 =>
    if s.destroyed then some (s.goto .finStart, [])
    else some (s.goto (if expired then .actStart else .actWait2), [])
  | .actDown => some (s.goto .actDownWait, [])
  | .actDownWait =>
    if s.destroyed then some (s.goto .finStart, [])
    else some (s.goto (if s.currentIdleThreads = 0 then .actStart else .downQueues), [])
  | .downQueues =>
    match s.ready, s.run with
    | some q, some r =>
      if q.length + r.length = 0 then some (s.goto .actStart, [])
      else some (s.goto (if expired then .downIdle else .actDownWait), [])
    | _, _ => some (s.null, [])
  | .downIdle =>
    some (s.goto (if s.currentIdleThreads > threadMaxIdleThreads then .lower else .actStart), [])
  | .lower => some (s.goto (.lowerSet s.targetRunThreads), [])
  | .lowerSet num => some ((s.runThreadsNolock (num - 1) fails).goto .actDown, [])
  | .finStart => some (s.goto .finStableWait, [])
  | .finStableWait => some (s.goto (if s.finishFlag then .finDrained else .finStableWait), [])
  | .finDrained => some ((s.runThreadsNolock 0 fails).goto .finWait, [])
  | .finWait => some (s.goto (if s.currentRunThreads ≠ 0 then .finWait else .finFold), [])
  | .finFold => some s.fold
  | .finTinyStateStart => none

/-- `finish`, which reads the two queues and the collector one after the other. -/
def finish (s : ThreadPool ω) (stable : Bool) : ThreadPool ω :=
  match s.finishing with
  | .out =>
    if s.state.fin ∧ s.finishFlag = false then
      match s.ready with
      | none => s.null
      | some q => if q.length = 0 then { s with finishing := .run } else s
    else s
  | .run =>
    match s.run with
    | none => s.null
    | some r => { s with finishing := if r.length = 0 then .stable else .out }
  | .stable => { s with
      finishing := .out
      finishFlag := stable }

def step [DecidableEq ω] (s : ThreadPool ω) :
    ThreadPoolAct ω → Option (ThreadPool ω × List FwCall)
  | .ins target => some (s.ins target)
  | .work i timeout => s.workers[i]?.map (s.work i timeout)
  | .control expired old fails => s.control expired old fails
  | .setLimit lim fails => some (s.setLimit lim fails, [])
  | .finish stable => some (s.finish stable, [])
  | .destroy => some ({ s with destroyed := true }, [])

/-- A new `tsThread`. -/
def initial (ω : Type) : ThreadPool ω where
  ready := none
  run := none
  targetRunThreads := 0
  limitThreadsNumber := maxInteger
  currentIdleThreads := 0
  currentRunThreads := 0
  refio := false
  finishFlag := false
  destroyed := false
  state := .iniStart
  finishing := .out
  workers := []
  nextId := 0
  nullRef := false

def machine (ω : Type) [DecidableEq ω] :
    Machine (ThreadPool ω) (ThreadPoolAct ω) FwCall where
  init s := s = initial ω
  step := step

-- ---------------------------------------------------------------------------
-- What the operations leave alone
-- ---------------------------------------------------------------------------

variable {s : ThreadPool ω} {i fails : Nat} {num : Int}

/-- Nothing but queues, workers and their counters differs. -/
structure SameControl (s t : ThreadPool ω) : Prop where
  target : t.targetRunThreads = s.targetRunThreads
  limit : t.limitThreadsNumber = s.limitThreadsNumber
  finishFlag : t.finishFlag = s.finishFlag
  state : t.state = s.state
  finishing : t.finishing = s.finishing

namespace SameControl

variable {t u : ThreadPool ω}

theorem refl (s : ThreadPool ω) : SameControl s s := ⟨rfl, rfl, rfl, rfl, rfl⟩

theorem trans (h : SameControl s t) (h' : SameControl t u) : SameControl s u where
  target := h'.target.trans h.target
  limit := h'.limit.trans h.limit
  finishFlag := h'.finishFlag.trans h.finishFlag
  state := h'.state.trans h.state
  finishing := h'.finishing.trans h.finishing

end SameControl

theorem start_control (job : Job ω) (q : List (Job ω)) : SameControl s (s.start i job q) := by
  unfold start
  split <;> exact ⟨rfl, rfl, rfl, rfl, rfl⟩

theorem turn_control : SameControl s (s.turn i) := by
  unfold turn
  split
  · exact ⟨rfl, rfl, rfl, rfl, rfl⟩
  · split
    · exact ⟨rfl, rfl, rfl, rfl, rfl⟩
    · exact ⟨rfl, rfl, rfl, rfl, rfl⟩
    · exact start_control _ _

theorem expire_control : SameControl s (s.expire i) := by
  unfold expire
  split
  · exact ⟨rfl, rfl, rfl, rfl, rfl⟩
  · exact ⟨rfl, rfl, rfl, rfl, rfl⟩
  · exact start_control _ _

theorem resRefio_control : SameControl s s.resRefio.1 := by
  unfold resRefio
  split <;> exact ⟨rfl, rfl, rfl, rfl, rfl⟩

theorem setRefio_control : SameControl s s.setRefio.1 := by
  unfold setRefio
  split <;> exact ⟨rfl, rfl, rfl, rfl, rfl⟩

theorem ins_control (target : ω) : SameControl s (s.ins target).1 := by
  unfold ins
  split
  · exact .refl s
  · refine .trans ?_ setRefio_control
    exact ⟨rfl, rfl, rfl, rfl, rfl⟩

theorem work_control [DecidableEq ω] (timeout : Bool) (w : WorkerPc ω) :
    SameControl s (s.work i timeout w).1 := by
  cases w with
  | loop => exact turn_control
  | idle =>
    refine .trans (t := { s with currentIdleThreads := s.currentIdleThreads - 1 })
      ⟨rfl, rfl, rfl, rfl, rfl⟩ ?_
    cases timeout
    · exact turn_control
    · exact expire_control
  | running job =>
    simp only [work, done]
    split
    · rename_i r q _ _
      refine .trans (t := { s with run := some (r.erase job) }) ⟨rfl, rfl, rfl, rfl, rfl⟩ ?_
      split
      · exact resRefio_control.trans ⟨rfl, rfl, rfl, rfl, rfl⟩
      · exact turn_control
    · exact ⟨rfl, rfl, rfl, rfl, rfl⟩

-- ---------------------------------------------------------------------------
-- How many workers there are
-- ---------------------------------------------------------------------------

/-- Nobody has come, and who has gone has been counted out. -/
def SameStaff (s t : ThreadPool ω) : Prop :=
  (t.workers.length = s.workers.length ∧ t.currentRunThreads = s.currentRunThreads) ∨
    (t.workers.length + 1 = s.workers.length ∧ t.currentRunThreads = s.currentRunThreads - 1)

theorem SameStaff.refl (s : ThreadPool ω) : SameStaff s s := .inl ⟨rfl, rfl⟩

theorem exit_staff (h : i < s.workers.length) : SameStaff s (s.exit i) := by
  refine .inr ⟨?_, rfl⟩
  have := List.length_eraseIdx_add_one h
  simpa [exit] using this

theorem start_staff (job : Job ω) (q : List (Job ω)) : SameStaff s (s.start i job q) := by
  unfold start
  split
  · exact .refl s
  · exact .inl ⟨by simp [moveTo], rfl⟩

theorem turn_staff (h : i < s.workers.length) : SameStaff s (s.turn i) := by
  unfold turn
  split
  · exact exit_staff h
  · split
    · exact .refl s
    · exact .inl ⟨by simp [moveTo], rfl⟩
    · exact start_staff _ _

theorem expire_staff (h : i < s.workers.length) : SameStaff s (s.expire i) := by
  unfold expire
  split
  · exact .refl s
  · exact exit_staff h
  · exact start_staff _ _

theorem resRefio_staff : SameStaff s s.resRefio.1 := by
  unfold resRefio
  split <;> exact .inl ⟨rfl, rfl⟩

theorem ins_staff (target : ω) : SameStaff s (s.ins target).1 := by
  unfold ins setRefio
  split
  · exact .refl s
  · split <;> exact .inl ⟨rfl, rfl⟩

theorem work_staff [DecidableEq ω] (timeout : Bool) (w : WorkerPc ω) (h : i < s.workers.length) :
    SameStaff s (s.work i timeout w).1 := by
  cases w with
  | loop => exact turn_staff h
  | idle =>
    cases timeout
    · exact turn_staff (s := { s with currentIdleThreads := s.currentIdleThreads - 1 }) h
    · exact expire_staff (s := { s with currentIdleThreads := s.currentIdleThreads - 1 }) h
  | running job =>
    simp only [work, done]
    split
    · rename_i r q _ _
      split
      · have hr := resRefio_staff (s := { s with run := some (r.erase job) })
        simpa [SameStaff, moveTo] using hr
      · exact turn_staff (s := { s with run := some (r.erase job) }) h
    · exact .refl s

/-- `_runThreads_nolock`: the target, and whether workers are made for it. -/
theorem runThreads_staff (s : ThreadPool ω) (num : Int) (fails : Nat) :
    let t := s.runThreadsNolock num fails
    t.targetRunThreads = min num s.limitThreadsNumber ∧
      ((t.targetRunThreads ≤ s.currentRunThreads ∧ t.workers = s.workers ∧
          t.currentRunThreads = s.currentRunThreads) ∨
        (s.currentRunThreads < t.targetRunThreads ∧ t.currentRunThreads = t.targetRunThreads ∧
          t.workers.length = s.workers.length +
            ((t.targetRunThreads - s.currentRunThreads).toNat - fails))) := by
  intro t
  have ht : (if num > s.limitThreadsNumber then s.limitThreadsNumber else num) =
      min num s.limitThreadsNumber := by
    split <;> omega
  simp only [t, runThreadsNolock, ht]
  split
  · rename_i hc
    exact ⟨rfl, .inr ⟨hc, by simp only [create]; omega, by simp [create]⟩⟩
  · rename_i hc
    exact ⟨rfl, .inl ⟨Int.not_lt.mp hc, rfl, rfl⟩⟩

/-- What `_runThreads_nolock` has nothing to do with. -/
theorem runThreads_frame (s : ThreadPool ω) (num : Int) (fails : Nat) :
    let t := s.runThreadsNolock num fails
    t.ready = s.ready ∧ t.run = s.run ∧ t.refio = s.refio ∧ t.nullRef = s.nullRef ∧
      t.limitThreadsNumber = s.limitThreadsNumber ∧ t.finishFlag = s.finishFlag ∧
      t.finishing = s.finishing ∧ t.state = s.state := by
  intro t
  simp only [t, runThreadsNolock]
  generalize (if num > s.limitThreadsNumber then s.limitThreadsNumber else num) = n
  split <;> exact ⟨rfl, rfl, rfl, rfl, rfl, rfl, rfl, rfl⟩

-- ---------------------------------------------------------------------------
-- The controller
-- ---------------------------------------------------------------------------

/-- The branches of `control`. -/
inductive Controlled (s : ThreadPool ω) (fails : Nat) : ThreadPool ω → List FwCall → Prop
  | newReady : s.state = .iniStart →
      Controlled s fails ({ s with ready := some [] }.goto .iniRun) []
  | newRun : s.state = .iniRun → Controlled s fails ({ s with run := some [] }.goto .iniThreads) []
  | begin : s.state = .iniThreads →
      Controlled s fails ((s.runThreadsNolock threadMaxIdleThreads fails).goto .actStart) []
  | go {pc} : s.state.act = true → pc.act = true ∨ pc = .finStart →
      (∀ n, pc = .raiseSet n → n = s.targetRunThreads) →
      (∀ n, pc = .lowerSet n → s.state = .lower ∧ n = s.targetRunThreads) →
      Controlled s fails (s.goto pc) []
  | null : s.state.act = true → s.ready = none ∨ s.run = none → Controlled s fails s.null []
  | raise {n} : s.state = .raiseSet n →
      Controlled s fails ((s.runThreadsNolock (n + 1) fails).goto .actWait2) []
  | lower {n} : s.state = .lowerSet n →
      Controlled s fails ((s.runThreadsNolock (n - 1) fails).goto .actDown) []
  | stay : s.state = .finStart ∨ s.state = .finStableWait →
      Controlled s fails (s.goto .finStableWait) []
  | latched : s.state = .finStableWait → s.finishFlag = true →
      Controlled s fails (s.goto .finDrained) []
  | drain : s.state = .finDrained →
      Controlled s fails ((s.runThreadsNolock 0 fails).goto .finWait) []
  | wait : s.state = .finWait → Controlled s fails (s.goto .finWait) []
  | empty : s.state = .finWait → s.currentRunThreads = 0 → Controlled s fails (s.goto .finFold) []
  | fold : s.state = .finFold → Controlled s fails s.fold.1 s.fold.2

/-- A move from one of the `ACT` states to another that changes nothing. -/
theorem Controlled.move {pc : PoolState} (ha : s.state.act = true) (hp : pc.act = true)
    (hr : ∀ n, pc ≠ .raiseSet n) (hl : ∀ n, pc ≠ .lowerSet n) :
    Controlled s fails (s.goto pc) [] :=
  .go ha (.inl hp) (fun n h => absurd h (hr n)) fun n h => absurd h (hl n)

theorem control_cases {t : ThreadPool ω} {expired old : Bool} {os : List FwCall}
    (h : s.control expired old fails = some (t, os)) : Controlled s fails t os := by
  have act {pc} (hs : s.state = pc) (hp : pc.act = true) : s.state.act = true := by rw [hs, hp]
  unfold control at h
  split at h <;> rename_i hs
  case h_1 => cases h; exact .newReady hs
  case h_2 => cases h; exact .newRun hs
  case h_3 => cases h; exact .begin hs
  case h_4 =>
    cases h
    split
    · exact .go (act hs rfl) (.inr rfl) nofun nofun
    · exact .move (act hs rfl) rfl nofun nofun
  case h_5 => cases h; split <;> exact .move (act hs rfl) rfl nofun nofun
  case h_6 =>
    split at h <;> cases h
    · exact .null (act hs rfl) (.inl ‹_›)
    · exact .move (act hs rfl) rfl nofun nofun
    · split <;> exact .move (act hs rfl) rfl nofun nofun
  case h_7 =>
    cases h
    exact .go (act hs rfl) (.inl rfl) (fun n h => by cases h; rfl) nofun
  case h_8 => cases h; exact .raise hs
  case h_9 =>
    split at h <;> cases h
    · exact .go (act hs rfl) (.inr rfl) nofun nofun
    · split <;> exact .move (act hs rfl) rfl nofun nofun
  case h_10 => cases h; exact .move (act hs rfl) rfl nofun nofun
  case h_11 =>
    split at h <;> cases h
    · exact .go (act hs rfl) (.inr rfl) nofun nofun
    · split <;> exact .move (act hs rfl) rfl nofun nofun
  case h_12 =>
    split at h
    · split at h <;> cases h
      · exact .move (act hs rfl) rfl nofun nofun
      · split <;> exact .move (act hs rfl) rfl nofun nofun
    · rename_i hn
      cases h
      refine .null (act hs rfl) ?_
      cases hq : s.ready with
      | none => exact .inl rfl
      | some q =>
        cases hr : s.run with
        | none => exact .inr rfl
        | some r => exact absurd hr (hn q r hq)
  case h_13 => cases h; split <;> exact .move (act hs rfl) rfl nofun nofun
  case h_14 =>
    cases h
    exact .go (act hs rfl) (.inl rfl) nofun fun n h => by cases h; exact ⟨hs, rfl⟩
  case h_15 => cases h; exact .lower hs
  case h_16 => cases h; exact .stay (.inl hs)
  case h_17 =>
    cases h
    split
    · exact .latched hs ‹_›
    · exact .stay (.inr hs)
  case h_18 => cases h; exact .drain hs
  case h_19 =>
    cases h
    split
    · exact .wait hs
    · exact .empty hs (by omega)
  case h_20 => cases h; exact .fold hs
  case h_21 => cases h

/-- The branches of `step`. -/
inductive Step [DecidableEq ω] (s : ThreadPool ω) :
    ThreadPoolAct ω → ThreadPool ω → List FwCall → Prop
  | ins {target} : Step s (.ins target) (s.ins target).1 (s.ins target).2
  | work {i timeout w} : s.workers[i]? = some w →
      Step s (.work i timeout) (s.work i timeout w).1 (s.work i timeout w).2
  | control {expired old fails t os} : Controlled s fails t os →
      Step s (.control expired old fails) t os
  | setLimit {lim fails} : Step s (.setLimit lim fails) (s.setLimit lim fails) []
  | finish {stable} : Step s (.finish stable) (s.finish stable) []
  | destroy : Step s .destroy { s with destroyed := true } []

theorem step_cases [DecidableEq ω] {t : ThreadPool ω} {a : ThreadPoolAct ω} {os : List FwCall}
    (h : s.step a = some (t, os)) : Step s a t os := by
  cases a with
  | ins target =>
    obtain ⟨rfl, rfl⟩ : (s.ins target).1 = t ∧ (s.ins target).2 = os := by
      simpa [step, Prod.ext_iff] using h
    exact .ins
  | work i timeout =>
    obtain ⟨w, hw, he⟩ := Option.map_eq_some_iff.mp h
    obtain ⟨rfl, rfl⟩ := Prod.ext_iff.mp he
    exact .work hw
  | control expired old fails => exact .control (control_cases h)
  | setLimit lim fails => cases h; exact .setLimit
  | finish stable => cases h; exact .finish
  | destroy => cases h; exact .destroy

end ThreadPool

end TinyState
