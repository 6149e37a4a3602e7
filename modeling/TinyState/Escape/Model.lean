import TinyState.Containers.HalfOrderNode
import TinyState.Event
import TinyState.Lib.Coalescing
import TinyState.Lib.Machine

/-!
# Nested calls of `eventHandler`, and tsGC

Threads with their stacks of calls, the innermost first. A call that comes at too
great a depth leaves its event to tsGC, which calls the object again from a
shallower place. Of the objects other than tsGC only what the test of the depth
and the lock look at is here; what their state functions do is left open.
-/

namespace TinyState.Escape

open Transition

/-- The application's tsGC, or another tinyState. -/
inductive Who (ω : Type)
  | gc
  | obj (x : ω)
  deriving DecidableEq, Repr

/-- What kind of state an object is in; `dead` is the state `ZOM` itself. -/
inductive Stage
  | ini
  | run
  | zom
  | dead
  deriving DecidableEq, Repr

/-- A tinyState; `application` is not `thNULL`. -/
structure Agent where
  stage : Stage
  stateLock : Bool
  que : List StdEvent
  application : Bool
  deriving DecidableEq, Repr

/-- `tsGCJob`. -/
structure GcJob (ω : Type) where
  ts : Who ω
  ev : StdEvent
  seq : Nat
  deriving DecidableEq, Repr

/-- What is in the queue of tsGC: a tinyState, or a job. -/
inductive GcEntry (ω : Type)
  | ts (x : Who ω)
  | job (j : GcJob ω)
  deriving DecidableEq, Repr

/-- `actCheck` is `ACT_TINYSTATE_CHECK1` and `ACT_TINYSTATE_CHECK2`. -/
inductive GcState
  | actStart
  | actCheck
  | actRet
  | actExe
  | finStart
  deriving DecidableEq, Repr

/-- `tsGC`; `events` is its event queue. -/
structure TsGc (ω : Type) where
  state : GcState
  stateLock : Bool
  events : List StdEvent
  que : HalfOrderQueue (GcEntry ω)
  budgetUs : Int
  enterTime : Int
  destroyFlag : Bool

/-- Where a call of `eventHandler` is. -/
inductive HandlerPc
  /-- Before the test of the depth. -/
  | enter
  /-- In `gc->exe(ifThis,ev)`. -/
  | escaping
  /-- Before the lock. -/
  | lock
  /-- Before the next event is taken off the queue. -/
  | next
  | eval (ev : StdEvent)
  /-- In a state function. -/
  | func (ev : StdEvent)
  /-- In `ACT_EXE`, which has called an object. -/
  | delivering (ev : StdEvent)
  /-- After the lock. -/
  | notify
  deriving DecidableEq, Repr

/-- A call of `eventHandler`; `worker` says that there is a `_thrInfo`. The last two
are history: the limit that was found, and if the state was an INI state. -/
structure Handler (ω : Type) where
  who : Who ω
  ev : StdEvent
  worker : Bool
  pc : HandlerPc
  limit : Int
  ini : Bool
  deriving DecidableEq, Repr

def Handler.call {ω : Type} (who : Who ω) (ev : StdEvent) (worker : Bool) : Handler ω :=
  ⟨who, ev, worker, .enter, 0, false⟩

/-- Where a call of `exe` is: before `que->ins`, before `wakeup`, after it. -/
inductive ExePc
  | ins
  | wake
  | done
  deriving DecidableEq, Repr

inductive Frame (ω : Type)
  | handler (h : Handler ω)
  | exe (e : GcEntry ω) (pc : ExePc)
  deriving DecidableEq, Repr

/-- All but the threads. `timers` counts the timers of tsGC that have not run out and
`seq` the events that have been left to it. The last two are history: which events these
are, and what was still in the queue when `FIN_START` let go of it. -/
structure Shared (ω : Type) where
  obj : ω → Agent
  gc : TsGc ω
  evhDepth : Int
  timers : Nat
  seq : Nat
  deferred : List (GcJob ω)
  dropped : List (GcEntry ω)

structure App (ω : Type) where
  shared : Shared ω
  threads : List (List (Frame ω))

inductive Obs (ω : Type)
  | escape (j : GcJob ω)
  | deliver (j : GcJob ω)
  /-- A state function of an object is called with the event, at this depth, in a call
  that has found this limit, an INI state or not, and a worker or not; `ini` tells what
  the state is now. -/
  | dispatch (x : ω) (ev : StdEvent) (depth : Nat) (limit : Int) (entry worker ini : Bool)
  deriving DecidableEq, Repr

/-- What the innermost call of a thread does. -/
inductive TopAct
  | enter
  | lock (now : Int)
  | next
  | eval (id : Nat)
  /-- The state function returns. -/
  | ret (stage : Stage) (rDO : Bool)
  /-- `ACT_EXE` looks at the clock. -/
  | budget (now : Int)
  | ins (key : Int)
  | wake (id : Nat)
  | leave
  deriving DecidableEq, Repr

/-- What code that is running calls. -/
inductive PushAct (ω : Type)
  | call (who : Who ω) (ev : StdEvent) (worker : Bool)
  /-- A timer of tsGC runs out. -/
  | timer (id : Nat)
  | exe (x : Who ω)
  deriving DecidableEq, Repr

inductive EnvAct
  | evhDepth (v : Int)
  | interval (v : Int)
  | destroy
  deriving DecidableEq, Repr

inductive Act (ω : Type)
  | top (i : Nat) (a : TopAct)
  | push (i : Nat) (a : PushAct ω)
  | env (a : EnvAct)
  | spawn
  deriving DecidableEq, Repr

/-- `sCallSection::depthLimit`, for a stack of this size. -/
def depthLimit (sz : Int) : Int :=
  let n := if sz ≤ 0 then 1500 else sz / 4096
  let n := if n > 1500 then 1500 else n
  if n < 1 then 1 else n

theorem depthLimit_pos (sz : Int) : 1 ≤ depthLimit sz := by
  unfold depthLimit
  dsimp only
  split <;> omega

def Frame.isHandler {ω : Type} : Frame ω → Bool
  | handler _ => true
  | exe .. => false

/-- `sCallSectionDepth`. -/
def depth {ω : Type} (stack : List (Frame ω)) : Nat := stack.countP Frame.isHandler

/-- The innermost call is in code that may call anything. -/
def running {ω : Type} : List (Frame ω) → Bool
  | [] => true
  | .handler ⟨_, _, _, .func _, _, _⟩ :: _ => true
  | .handler ⟨_, _, _, .notify, _, _⟩ :: _ => true
  | _ => false

/-- `_insEvent`. -/
def insEvent (q : List StdEvent) (ev : StdEvent) : List StdEvent :=
  if Coalescing.Merges StdEvent.type EventType.Coalesced q ev then q else q ++ [ev]

namespace Shared

variable {ω : Type} [DecidableEq ω]

def set (s : Shared ω) (x : ω) (o : Agent) : Shared ω :=
  { s with obj := fun y => if y = x then o else s.obj y }

def application (s : Shared ω) : Who ω → Bool
  | .gc => true
  | .obj x => (s.obj x).application

def isIni (s : Shared ω) : Who ω → Bool
  | .gc => false
  | .obj x => (s.obj x).stage = .ini

/-- The limit for a call on `who` on a stack of this size. -/
def limit (s : Shared ω) (sz : Int) (who : Who ω) : Int :=
  if s.application who = true ∧ 0 < s.evhDepth then s.evhDepth else depthLimit sz

/-- The test of the depth. -/
def enter (s : Shared ω) (sz : Int) (d : Nat) (h : Handler ω) :
    Shared ω × List (Frame ω) × List (Obs ω) :=
  let limit := s.limit sz h.who
  let h := { h with
    limit := limit
    ini := s.isIni h.who }
  if h.worker = false ∧ 1 < d ∧ limit < d ∧ h.ini = false ∧ s.application h.who = true ∧
      h.who ≠ .gc then
    let j := ⟨h.who, h.ev, s.seq⟩
    ({ s with
        seq := s.seq + 1
        deferred := s.deferred ++ [j] },
      [.exe (.job j) .ins, .handler { h with pc := .escaping }], [.escape j])
  else (s, [.handler { h with pc := .lock }], [])

/-- A dead object turns the event away, a busy one only keeps it. -/
def lock (s : Shared ω) (now : Int) (h : Handler ω) : Shared ω × List (Frame ω) :=
  match h.who with
  | .gc =>
    if s.gc.state = .finStart then (s, [])
    else if s.gc.stateLock then
      ({ s with gc := { s.gc with events := insEvent s.gc.events h.ev } }, [])
    else
      ({ s with gc := { s.gc with
          events := insEvent s.gc.events h.ev
          stateLock := true
          enterTime := now } }, [.handler { h with pc := .next }])
  | .obj x =>
    let o := s.obj x
    if o.stage = .zom ∨ o.stage = .dead then (s, [])
    else if o.stateLock then (s.set x { o with que := insEvent o.que h.ev }, [])
    else
      (s.set x { o with
        que := insEvent o.que h.ev
        stateLock := true }, [.handler { h with pc := .next }])

/-- The next event, or the end of the lock. -/
def next (s : Shared ω) (h : Handler ω) : Shared ω × List (Frame ω) :=
  match h.who with
  | .gc =>
    match s.gc.events with
    | [] => ({ s with gc := { s.gc with stateLock := false } }, [.handler { h with pc := .notify }])
    | ev :: q => ({ s with gc := { s.gc with events := q } }, [.handler { h with pc := .eval ev }])
  | .obj x =>
    let o := s.obj x
    match o.que with
    | [] =>
      (s.set x { o with
        stateLock := false
        application := o.application && o.stage ≠ .dead }, [.handler { h with pc := .notify }])
    | ev :: q => (s.set x { o with que := q }, [.handler { h with pc := .eval ev }])

/-- A state function of tsGC. `ACT_EXE` panics where it cannot deliver. -/
def evalGc (s : Shared ω) (sz : Int) (d : Nat) (id : Nat) (h : Handler ω) (ev : StdEvent) :
    Option (Shared ω × List (Frame ω) × List (Obs ω)) :=
  let idle := .handler { h with pc := .next }
  let again := .handler { h with pc := .eval ev }
  match s.gc.state with
  | .actStart =>
    if s.gc.que.count = 0 then some ({ s with gc := { s.gc with state := .actCheck } }, [again], [])
    else
      some ({ s with
        timers := s.timers + 1
        gc := { s.gc with state := .actRet } }, [idle], [])
  | .actCheck =>
    if s.gc.destroyFlag then
      some ({ s with
        dropped := s.dropped ++ s.gc.que.toList
        gc := { s.gc with
          state := .finStart
          que := .empty } }, [idle], [])
    else some ({ s with gc := { s.gc with state := .actStart } }, [idle], [])
  | .actRet =>
    if ev.type = .ret then some ({ s with gc := { s.gc with state := .actExe } }, [again], [])
    else some (s, [idle], [])
  | .actExe =>
    if s.limit sz .gc ≤ d then none
    else
      match s.gc.que.del with
      | none => some ({ s with gc := { s.gc with state := .actStart } }, [again], [])
      | some (it, que) =>
        let s := { s with gc := { s.gc with que := que } }
        let here := .handler { h with pc := .delivering ev }
        match it with
        | .ts x => some (s, [.handler (.call x ⟨.ret, id⟩ false), here], [])
        | .job j => some (s, [.handler (.call j.ts j.ev false), here], [.deliver j])
  | .finStart => some (s, [idle], [])

/-- The state function returns. -/
def ret (s : Shared ω) (stage : Stage) (rDO : Bool) (h : Handler ω) (x : ω) (ev : StdEvent) :
    Shared ω × List (Frame ω) :=
  let o := s.obj x
  if stage = .dead then
    (s.set x { o with
      stage := stage
      que := [] }, [.handler { h with pc := .next }])
  else (s.set x { o with stage := stage },
    [.handler { h with pc := if rDO then .eval ev else .next }])

/-- One step of the innermost call: what becomes of it, and what it calls. -/
def top (s : Shared ω) (sz : Int) (d : Nat) :
    Frame ω → TopAct → Option (Shared ω × List (Frame ω) × List (Obs ω))
  | .handler h, a =>
    match h.pc, a with
    | .enter, .enter => some (s.enter sz d h)
    | .lock, .lock now => some ((s.lock now h).1, (s.lock now h).2, [])
    | .next, .next => some ((s.next h).1, (s.next h).2, [])
    | .eval ev, .eval id =>
      match h.who with
      | .gc => s.evalGc sz d id h ev
      | .obj x =>
        some (s, [.handler { h with pc := .func ev }],
          [.dispatch x ev d h.limit h.ini h.worker ((s.obj x).stage = .ini)])
    | .func ev, .ret stage rDO =>
      match h.who with
      | .gc => none
      | .obj x => some ((s.ret stage rDO h x ev).1, (s.ret stage rDO h x ev).2, [])
    | .delivering ev, .budget now =>
      match h.who with
      | .gc =>
        some (if now - s.gc.enterTime > s.gc.budgetUs then
            { s with gc := { s.gc with state := .actStart } } else s,
          [.handler { h with pc := .eval ev }], [])
      | .obj _ => none
    | .escaping, .leave | .notify, .leave => some (s, [], [])
    | _, _ => none
  | .exe e .ins, .ins key =>
    if s.gc.state = .finStart then none
    else some ({ s with gc := { s.gc with que := s.gc.que.ins key e } }, [.exe e .wake], [])
  | .exe e .wake, .wake id =>
    some (s, [.handler (.call .gc ⟨.wakeup, id⟩ false), .exe e .done], [])
  | .exe _ .done, .leave => some (s, [], [])
  | .exe .., _ => none

/-- What running code calls. -/
def push (s : Shared ω) : PushAct ω → Option (Shared ω × Frame ω)
  | .call who ev worker => some (s, .handler (.call who ev worker))
  | .timer id =>
    if 0 < s.timers then
      some ({ s with timers := s.timers - 1 }, .handler (.call .gc ⟨.ret, id⟩ false))
    else none
  | .exe x => some (s, .exe (.ts x) .ins)

def env (s : Shared ω) : EnvAct → Shared ω
  | .evhDepth v => { s with evhDepth := v }
  | .interval v => { s with gc := { s.gc with budgetUs := v } }
  | .destroy => { s with gc := { s.gc with destroyFlag := true } }

end Shared

namespace App

variable {ω : Type} [DecidableEq ω]

/-- `sz` gives the size of each thread's stack. -/
def step (sz : Nat → Int) (s : App ω) : Act ω → Option (App ω × List (Obs ω))
  | .top i a =>
    match s.threads[i]? with
    | some (f :: rest) =>
      (s.shared.top (sz i) (depth (f :: rest)) f a).map fun r =>
        (⟨r.1, s.threads.set i (r.2.1 ++ rest)⟩, r.2.2)
    | _ => none
  | .push i a =>
    match s.threads[i]? with
    | some stack =>
      if running stack then
        (s.shared.push a).map fun r => (⟨r.1, s.threads.set i (r.2 :: stack)⟩, [])
      else none
    | none => none
  | .env a => some ({ s with shared := s.shared.env a }, [])
  | .spawn => some ({ s with threads := s.threads ++ [[]] }, [])

/-- tsGC waits in `ACT_START`, and nothing has been sent yet. -/
def initial (ω : Type) (evhDepth : Int) : App ω where
  shared := {
    obj := fun _ => ⟨.ini, false, [], true⟩
    gc := ⟨.actStart, false, [], .empty, 100000, 0, false⟩
    evhDepth := evhDepth
    timers := 0
    seq := 0
    deferred := []
    dropped := [] }
  threads := []

def machine (ω : Type) [DecidableEq ω] (sz : Nat → Int) : Machine (App ω) (Act ω) (Obs ω) where
  init s := ∃ evhDepth, s = initial ω evhDepth
  step := step sz

end App

end TinyState.Escape
