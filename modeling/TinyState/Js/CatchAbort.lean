import TinyState.Lib.Machine
import TinyState.Js.PigData
import Mathlib.Data.List.Count

/-!
# catchAbort

`catchAbort` evaluates its body, and beside it, by a `sync` of its own, its condition again and
again. An abort reaches the body only when the condition is false. With the result of the body
it evaluates the handler; then it aborts the condition, waits until that has ended, and sends
the result. The condition that changes while it is being evaluated is evaluated a second time
beside the first, and the loop that aborts the condition and the body counts in a variable that
is shared with all other loops that do not declare theirs.
-/

namespace TinyState.Js

open Transition

-- ---------------------------------------------------------------------------
-- Model
-- ---------------------------------------------------------------------------

/-- What is evaluated in `callFunc[1]`. -/
inductive CatchFunc
  | body
  | handler
  deriving DecidableEq

/-- `source` of a return event; `callFunc[0]` is the condition. -/
inductive CatchSource
  | condition
  | func (f : CatchFunc)
  | self
  deriving DecidableEq

inductive CatchEvent
  | abort
  | wakeup
  | state
  | ret (source : CatchSource) (msg : PigData)
  deriving DecidableEq

inductive ConditionEvent
  | abort
  | wakeup
  | ret (msg : PigData)
  deriving DecidableEq

inductive PigCatchAbort.State
  | INI_TINYSTATE_START
  | ACT_START
  | ACT_RECV_ABORT
  | ACT_SEND_ABORT
  | ACT_ABORT_RET
  | FIN_START_WAIT
  | ZOM
  deriving DecidableEq

/-- In `ACT_START` the event is the one that `ACT_START_WAIT` is to be called with. -/
inductive CoPigCatchAbort.State
  | ACT_START (msg : PigData)
  | ACT_START_WAIT
  | ACT_EVENT_WAIT
  | ZOM
  deriving DecidableEq

/-- The object that evaluates the condition. `running` counts the evaluations that have not
returned. -/
structure CoPigCatchAbort where
  i_state : CoPigCatchAbort.State
  i_eventQueue : List ConditionEvent
  i_abort : Bool
  i_wakeup_flag : Bool
  running : Nat
  deriving DecidableEq

inductive Evaluation
  | none
  | running
  | returned
  | zom
  deriving DecidableEq

/-- `withHandler` says that there is a handler. `hears0` and `hears1` say that the object listens
to the states of the condition and of `callFunc[1]`. `decided`, `result` and `answer` are
history: what the condition came to at last, and what the body and the handler have returned. -/
structure PigCatchAbort where
  withHandler : Bool
  i_state : PigCatchAbort.State
  i_eventQueue : List CatchEvent
  i_condition : Bool
  i_abort : Bool
  i_coRet : Option PigData
  callFunc0 : Bool
  callFunc1 : Option CatchFunc
  i_sendEvent : Option (CatchSource × PigData)
  hears0 : Bool
  hears1 : Bool
  co : CoPigCatchAbort
  body : Evaluation
  handler : Evaluation
  decided : Bool
  result : Option PigData
  answer : Option PigData
  deriving DecidableEq

/-- `change` is a change of a terminal that the condition has read. `take i` is the next event
of the object; `i` is what the variable `i` is when the condition has been aborted. `go` goes on
with what the object has been doing. -/
inductive CatchAct
  | go
  | abort
  | change
  | condition (msg : PigData)
  | ret (f : CatchFunc) (msg : PigData)
  | zom (f : CatchFunc)
  | coTake
  | coGo
  | take (i : Nat)
  deriving DecidableEq

/-- The handler is started with `v.return` bound to `msg`, the body having returned `result`; an
abort reaches the body; the result is sent while so many evaluations are running, the handler
having returned `answer`. -/
inductive CatchObs
  | handling (msg result : Option PigData)
  | aborted (decided ending : Bool)
  | sent (msg : Option PigData) (running : Nat) (answer : Option PigData)
  deriving DecidableEq

/-- What is said of a thing that happens: the handler gets what the body has returned, an abort
reaches the body while the condition is false or the object ends, and when the result is sent
nothing is running, and it is that of the handler if this has returned. -/
def CatchObs.Right : CatchObs → Prop
  | .handling msg result => msg.isSome = true ∧ result = msg
  | .aborted decided ending => decided = false ∨ ending = true
  | .sent msg running answer =>
    msg.isSome = true ∧ running = 0 ∧ (answer.isSome = true → answer = msg)

def CatchObs.isSent : CatchObs → Bool
  | .sent .. => true
  | _ => false

def CatchObs.isHandling : CatchObs → Bool
  | .handling .. => true
  | _ => false

namespace PigCatchAbort

def push (s : PigCatchAbort) (ev : CatchEvent) : PigCatchAbort :=
  if s.i_state = .ZOM then s else { s with i_eventQueue := s.i_eventQueue ++ [ev] }

def coPush (s : PigCatchAbort) (ev : ConditionEvent) : PigCatchAbort :=
  if s.co.i_state = .ZOM then s
  else { s with co := { s.co with i_eventQueue := s.co.i_eventQueue ++ [ev] } }

def evaluation (s : PigCatchAbort) : CatchFunc → Evaluation
  | .body => s.body
  | .handler => s.handler

def setEvaluation (s : PigCatchAbort) (e : Evaluation) : CatchFunc → PigCatchAbort
  | .body => { s with body := e }
  | .handler => { s with handler := e }

/-- All evaluations that have been started and have not returned. -/
def running (s : PigCatchAbort) : Nat :=
  s.co.running + (if s.body = .running then 1 else 0) + if s.handler = .running then 1 else 0

-- The condition

/-- `FIN_START`, to the end. -/
def coFIN_START (s : PigCatchAbort) : PigCatchAbort :=
  let s := { s with co := { s.co with i_state := .ZOM, i_eventQueue := [] } }
  if s.hears0 then s.push .state else s

def coACT_EVENT_WAIT (s : PigCatchAbort) : ConditionEvent → PigCatchAbort
  | .abort => (s.push (.ret .condition (.errorOf "aborted"))).coFIN_START
  | .wakeup =>
    if s.co.i_wakeup_flag then
      { s with co := { s.co with
        i_wakeup_flag := false, i_state := .ACT_START_WAIT, running := s.co.running + 1 } }
    else { s with co := { s.co with i_state := .ACT_EVENT_WAIT } }
  | .ret msg =>
    if s.co.i_wakeup_flag then
      { s with co := { s.co with
        i_wakeup_flag := false, i_state := .ACT_START msg, running := s.co.running + 1 } }
    else { s with co := { s.co with i_state := .ACT_EVENT_WAIT } }

/-- The condition has a value. -/
def concluded (s : PigCatchAbort) (msg : PigData) : PigCatchAbort :=
  if msg.holds then { s with i_condition := true }
  else { s with i_condition := false }.push .wakeup

def coACT_START_WAIT (s : PigCatchAbort) : ConditionEvent → PigCatchAbort
  | .abort => { s with co := { s.co with i_abort := true } }
  | .wakeup => s
  | .ret msg =>
    if msg.isError then { s with i_coRet := some msg }.coFIN_START
    else
      let s := s.concluded msg
      if s.co.i_abort then (s.push (.ret .condition (.errorOf "aborted"))).coFIN_START
      else s.coACT_EVENT_WAIT (.ret msg)

/-- A value that the condition returns is what it comes to. -/
def noteCondition (s : PigCatchAbort) : ConditionEvent → PigCatchAbort
  | .ret msg => if msg.isError then s else { s with decided := msg.holds }
  | _ => s

def coHandle (s : PigCatchAbort) (ev : ConditionEvent) : PigCatchAbort :=
  match s.co.i_state with
  | .ACT_START_WAIT => s.coACT_START_WAIT ev
  | .ACT_EVENT_WAIT => s.coACT_EVENT_WAIT ev
  | _ => s

-- The object

def FIN_START_WAIT (s : PigCatchAbort) : PigCatchAbort × List CatchObs :=
  if (s.callFunc0 → s.co.i_state = .ZOM) ∧ ∀ f, s.callFunc1 = some f → s.evaluation f = .zom then
    ({ s with i_state := .ZOM, i_eventQueue := [] },
      [.sent (s.i_sendEvent.map Prod.snd) s.running s.answer])
  else ({ s with i_state := .FIN_START_WAIT }, [])

/-- The loop: `callFunc[0]` is aborted first, and then `callFunc[1]` if `i` is still 0. -/
def FIN_START (s : PigCatchAbort) (i : Nat) : PigCatchAbort × List CatchObs :=
  let i := if s.callFunc0 then i else 0
  let s :=
    if s.callFunc0 then
      { s with hears0 := s.co.i_state != CoPigCatchAbort.State.ZOM }.coPush .abort
    else s
  match s.callFunc1 with
  | none => s.FIN_START_WAIT
  | some f =>
    if i = 0 then
      let s := { s with hears1 := s.evaluation f != Evaluation.zom }
      (s.FIN_START_WAIT.1, .aborted s.decided true :: s.FIN_START_WAIT.2)
    else s.FIN_START_WAIT

def ACT_ABORT_DO (s : PigCatchAbort) (i : Nat) : PigCatchAbort × List CatchObs :=
  if s.withHandler then
    ({ s with callFunc1 := some .handler, handler := .running, i_state := .ACT_ABORT_RET },
      [.handling (s.i_sendEvent.map Prod.snd) s.result])
  else s.FIN_START i

/-- A return event in `ACT_START` and in `ACT_RECV_ABORT`. -/
def returned (s : PigCatchAbort) (i : Nat) (source : CatchSource) (msg : PigData) :
    PigCatchAbort × List CatchObs :=
  if source = .condition ∧ s.callFunc0 then
    { s with callFunc0 := false, i_sendEvent := s.i_coRet.map (.condition, ·) }.FIN_START i
  else
    let s := { s with callFunc1 := none, i_sendEvent := some (.self, msg) }
    if msg.isError then s.FIN_START i else s.ACT_ABORT_DO i

def sendAbort (s : PigCatchAbort) : PigCatchAbort × List CatchObs :=
  ({ s with i_state := .ACT_SEND_ABORT }, [.aborted s.decided false])

def ACT_START (s : PigCatchAbort) (i : Nat) : CatchEvent → PigCatchAbort × List CatchObs
  | .abort =>
    let s := { s with i_abort := true }
    if s.i_condition then ({ s with i_state := .ACT_RECV_ABORT }, []) else s.sendAbort
  | .ret source msg => s.returned i source msg
  | _ => (s, [])

def ACT_RECV_ABORT (s : PigCatchAbort) (i : Nat) : CatchEvent → PigCatchAbort × List CatchObs
  | .ret source msg => s.returned i source msg
  | _ => if s.i_condition then (s, []) else s.sendAbort

def ACT_SEND_ABORT (s : PigCatchAbort) (i : Nat) : CatchEvent → PigCatchAbort × List CatchObs
  | .ret source msg => { s with i_sendEvent := some (source, msg) }.ACT_ABORT_DO i
  | _ => (s, [])

def ACT_ABORT_RET (s : PigCatchAbort) (i : Nat) : CatchEvent → PigCatchAbort × List CatchObs
  | .ret _ msg => { s with i_sendEvent := some (.self, msg), callFunc1 := none }.FIN_START i
  | _ => (s, [])

def handle (s : PigCatchAbort) (i : Nat) (ev : CatchEvent) : PigCatchAbort × List CatchObs :=
  match s.i_state with
  | .INI_TINYSTATE_START => (s, [])
  | .ACT_START => s.ACT_START i ev
  | .ACT_RECV_ABORT => s.ACT_RECV_ABORT i ev
  | .ACT_SEND_ABORT => s.ACT_SEND_ABORT i ev
  | .ACT_ABORT_RET => s.ACT_ABORT_RET i ev
  | .FIN_START_WAIT => s.FIN_START_WAIT
  | .ZOM => (s, [])

def returns (s : PigCatchAbort) (f : CatchFunc) (msg : PigData) : PigCatchAbort :=
  let s := match f with
    | .body => { s with result := some msg }
    | .handler => { s with answer := some msg }
  (s.setEvaluation .returned f).push (.ret (.func f) msg)

def ends (s : PigCatchAbort) (f : CatchFunc) : PigCatchAbort :=
  let s := s.setEvaluation .zom f
  if s.hears1 ∧ s.callFunc1 = some f then s.push .state else s

def step (s : PigCatchAbort) : CatchAct → Option (PigCatchAbort × List CatchObs)
  | .go =>
    if s.i_state = .INI_TINYSTATE_START then
      some ({ s with callFunc1 := some .body, body := .running, i_state := .ACT_START }, [])
    else none
  | .abort =>
    if s.i_state = .INI_TINYSTATE_START then none else some (s.push .abort, [])
  | .change =>
    if s.co.i_state = .ZOM ∨ s.co.i_wakeup_flag = true then some (s, [])
    else some ({ s with co := { s.co with i_wakeup_flag := true } }.coPush .wakeup, [])
  | .condition msg =>
    if 0 < s.co.running then
      some ({ s with co := { s.co with running := s.co.running - 1 } }.coPush (.ret msg), [])
    else none
  | .ret f msg => if s.evaluation f = .running then some (s.returns f msg, []) else none
  | .zom f => if s.evaluation f = .returned then some (s.ends f, []) else none
  | .coTake =>
    match s.co.i_state, s.co.i_eventQueue with
    | .ACT_START _, _ => none
    | _, [] => none
    | _, ev :: evs =>
      some (({ s with co := { s.co with i_eventQueue := evs } }.noteCondition ev).coHandle ev, [])
  | .coGo =>
    match s.co.i_state with
    | .ACT_START msg =>
      some ({ s with co := { s.co with i_state := .ACT_START_WAIT } }.coACT_START_WAIT (.ret msg),
        [])
    | _ => none
  | .take i =>
    match s.i_state, s.i_eventQueue with
    | .INI_TINYSTATE_START, _ => none
    | _, [] => none
    | _, ev :: evs => some ({ s with i_eventQueue := evs }.handle i ev)

/-- The condition is being evaluated, and the body is about to be. -/
def start (withHandler : Bool) : PigCatchAbort where
  withHandler := withHandler
  i_state := .INI_TINYSTATE_START
  i_eventQueue := []
  i_condition := true
  i_abort := false
  i_coRet := none
  callFunc0 := true
  callFunc1 := none
  i_sendEvent := none
  hears0 := false
  hears1 := false
  co := ⟨.ACT_START_WAIT, [], false, false, 1⟩
  body := .none
  handler := .none
  decided := true
  result := none
  answer := none

def machine : Machine PigCatchAbort CatchAct CatchObs where
  init s := ∃ withHandler, s = start withHandler
  step := step

-- ---------------------------------------------------------------------------
-- The claim
-- ---------------------------------------------------------------------------

def conditionValue : ConditionEvent → Bool
  | .ret msg => !msg.isError
  | _ => false

/-- No terminal that the condition has read has changed when a value of it is taken, and nothing
else uses the variable `i` while the object aborts the condition, unless it has nothing to abort
after that. -/
def Steady (s : PigCatchAbort) : CatchAct → Prop
  | .coTake =>
    s.co.i_state = .ACT_START_WAIT → (s.co.i_eventQueue.head?.any conditionValue) = true →
      s.co.i_abort = true ∨ s.co.i_wakeup_flag = false
  | .take i => i = 0 ∨ s.i_state ≠ .ACT_SEND_ABORT ∨ s.withHandler = true ∨ s.body = .zom
  | _ => True

instance (s : PigCatchAbort) (a : CatchAct) : Decidable (Steady s a) := by
  cases a <;> unfold Steady <;> infer_instance

/-- Nothing is running and no event is to be handled. -/
structure Quiet (s : PigCatchAbort) : Prop where
  made : s.i_state ≠ .INI_TINYSTATE_START
  queue : s.i_eventQueue = []
  coQueue : s.co.i_eventQueue = []
  running : s.running = 0
  body : s.body ≠ .returned
  handler : s.handler ≠ .returned
  co : ∀ msg, s.co.i_state ≠ .ACT_START msg

structure Caught (s : PigCatchAbort) (tr : List CatchObs) : Prop where
  right : ∀ o ∈ tr, o.Right
  once : tr.countP CatchObs.isSent ≤ 1
  handled : tr.countP CatchObs.isHandling ≤ 1
  idle : 0 < tr.countP CatchObs.isSent → s.running = 0
  answers : s.Quiet → tr.countP CatchObs.isSent = 1

-- ---------------------------------------------------------------------------
-- The invariant
-- ---------------------------------------------------------------------------

def conditionRet : ConditionEvent → Bool
  | .ret _ => true
  | _ => false

/-- At most one evaluation of the condition is running, and its return is the only one that is
on its way. -/
structure CoInv (co : CoPigCatchAbort) : Prop where
  wait : co.i_state = .ACT_START_WAIT → co.running + co.i_eventQueue.countP conditionRet = 1
  idle : co.i_state = .ACT_EVENT_WAIT →
    co.running = 0 ∧ co.i_eventQueue.countP conditionRet = 0 ∧ co.i_abort = false
  zom : co.i_state = .ZOM → co.running = 0 ∧ co.i_eventQueue = []
  plain : ∀ msg, co.i_state ≠ .ACT_START msg

/-- The condition has been aborted. -/
def Ending (s : PigCatchAbort) : Prop := s.i_state = .FIN_START_WAIT ∨ s.i_state = .ZOM

def Aborting (co : CoPigCatchAbort) : Prop := co.i_abort = true ∨ .abort ∈ co.i_eventQueue

def funcRet : CatchEvent → Option (CatchFunc × PigData)
  | .ret (.func f) msg => some (f, msg)
  | _ => none

def outcome (s : PigCatchAbort) : CatchFunc → Option PigData
  | .body => s.result
  | .handler => s.answer

def Done (e : Evaluation) : Prop := e = .returned ∨ e = .zom

/-- An evaluation is running, or its return is the only one in the queue. -/
def Waits (s : PigCatchAbort) (f : CatchFunc) : Prop :=
  (s.evaluation f = .running ∧ s.i_eventQueue.filterMap funcRet = [] ∧ s.outcome f = none) ∨
    Done (s.evaluation f) ∧ ∃ msg, s.outcome f = some msg ∧
      s.i_eventQueue.filterMap funcRet = [(f, msg)]

/-- All that has been aborted has ended. -/
def Ready (s : PigCatchAbort) : Prop :=
  s.co.i_state = .ZOM ∧ ∀ f, s.callFunc1 = some f → s.evaluation f = .zom

structure Working (s : PigCatchAbort) : Prop where
  callFunc1 : s.callFunc1 = some .body
  waits : s.Waits .body
  handler : s.handler = .none
  answer : s.answer = none

structure Handling (s : PigCatchAbort) : Prop where
  callFunc1 : s.callFunc1 = some .handler
  body : Done s.body
  waits : s.Waits .handler

/-- The result is there. -/
structure Fetched (s : PigCatchAbort) : Prop where
  body : Done s.body
  handler : s.handler = .none ∧ s.answer = none ∨ Done s.handler
  rets : s.i_eventQueue.filterMap funcRet = []
  sends : ∃ source msg, s.i_sendEvent = some (source, msg) ∧ ∀ m, s.answer = some m → m = msg
  func : ∀ f, s.callFunc1 = some f → f = .body

/-- What has not ended has been aborted, and is listened to. -/
structure Closing (s : PigCatchAbort) : Prop extends Fetched s where
  condition : s.co.i_state ≠ .ZOM → s.hears0 = true ∧ Aborting s.co
  heard : s.callFunc1 = some .body → s.body = .zom ∨ s.hears1 = true

structure Finishing (s : PigCatchAbort) : Prop extends Closing s where
  woken : s.Ready → s.i_eventQueue ≠ []

structure Over (s : PigCatchAbort) : Prop where
  condition : s.co.i_state = .ZOM
  body : Done s.body
  handler : s.handler ≠ .running

def Phase (s : PigCatchAbort) : Prop :=
  match s.i_state with
  | .INI_TINYSTATE_START => s.i_eventQueue.filterMap funcRet = [] ∧ s.result = none ∧
      s.body = .none ∧ s.handler = .none ∧ s.answer = none
  | .ACT_START | .ACT_RECV_ABORT | .ACT_SEND_ABORT => s.Working
  | .ACT_ABORT_RET => s.Handling
  | .FIN_START_WAIT => s.Finishing
  | .ZOM => s.Over

/-- What holds in the runs that are spoken of. -/
structure Inv (s : PigCatchAbort) : Prop where
  co : CoInv s.co
  known : s.i_condition = s.decided
  aborted : Aborting s.co → s.Ending
  kept : s.callFunc0 = true
  rets : ∀ source msg, .ret source msg ∈ s.i_eventQueue →
    source ≠ .self ∧ (source = .condition → s.Ending)
  phase : s.Phase

variable {s t u : PigCatchAbort} {tr os : List CatchObs} {f : CatchFunc} {msg : PigData}
  {source : CatchSource}
  {ev : CatchEvent} {i : Nat}

theorem not_ending (hf : s.i_state ≠ .FIN_START_WAIT) (hz : s.i_state ≠ .ZOM) : ¬ s.Ending := by
  rintro (h | h)
  · exact hf h
  · exact hz h

theorem phase_working
    (hs : s.i_state = .ACT_START ∨ s.i_state = .ACT_RECV_ABORT ∨ s.i_state = .ACT_SEND_ABORT) :
    s.Phase ↔ s.Working := by
  unfold Phase
  rcases hs with hs | hs | hs <;> rw [hs]

theorem phase_handling (hs : s.i_state = .ACT_ABORT_RET) : s.Phase ↔ s.Handling := by
  rw [Phase, hs]

theorem phase_finishing (hs : s.i_state = .FIN_START_WAIT) : s.Phase ↔ s.Finishing := by
  rw [Phase, hs]

theorem phase_over (hs : s.i_state = .ZOM) : s.Phase ↔ s.Over := by
  rw [Phase, hs]

-- ---------------------------------------------------------------------------
-- Events from others
-- ---------------------------------------------------------------------------

/-- An event that does not come from the body or the handler. -/
def Posted (s : PigCatchAbort) (ev : CatchEvent) : Prop :=
  ∀ source msg, ev = .ret source msg → source = .condition ∧ s.Ending

/-- The object itself is not moved; it may get events, and the condition may go on. -/
structure Moved (s t : PigCatchAbort) : Prop where
  i_state : t.i_state = s.i_state
  callFunc0 : t.callFunc0 = s.callFunc0
  callFunc1 : t.callFunc1 = s.callFunc1
  i_sendEvent : t.i_sendEvent = s.i_sendEvent
  hears0 : t.hears0 = s.hears0
  hears1 : t.hears1 = s.hears1
  body : t.body = s.body
  handler : t.handler = s.handler
  result : t.result = s.result
  answer : t.answer = s.answer
  queue : ∃ evs, t.i_eventQueue = s.i_eventQueue ++ evs ∧ ∀ ev ∈ evs, s.Posted ev

theorem Moved.refl (s : PigCatchAbort) : Moved s s :=
  ⟨rfl, rfl, rfl, rfl, rfl, rfl, rfl, rfl, rfl, rfl, [], (List.append_nil _).symm,
    List.forall_mem_nil _⟩

theorem Moved.ending (h : Moved s t) : t.Ending ↔ s.Ending := by
  rw [Ending, Ending, h.i_state]

theorem Moved.trans (h : Moved s t) (h' : Moved t u) : Moved s u := by
  obtain ⟨evs, hq, hp⟩ := h.queue
  obtain ⟨evs', hq', hp'⟩ := h'.queue
  refine ⟨h'.i_state.trans h.i_state, h'.callFunc0.trans h.callFunc0,
    h'.callFunc1.trans h.callFunc1, h'.i_sendEvent.trans h.i_sendEvent, h'.hears0.trans h.hears0,
    h'.hears1.trans h.hears1, h'.body.trans h.body, h'.handler.trans h.handler,
    h'.result.trans h.result, h'.answer.trans h.answer, evs ++ evs', ?_, fun ev hev => ?_⟩
  · rw [hq', hq, List.append_assoc]
  · rcases List.mem_append.mp hev with hev | hev
    · exact hp ev hev
    · exact fun source msg he => (hp' ev hev source msg he).imp_right h.ending.mp

/-- Something else than the object is changed. -/
theorem moved_with (s : PigCatchAbort) (co : CoPigCatchAbort) (condition decided : Bool)
    (coRet : Option PigData) : Moved s { s with
      co := co
      i_condition := condition
      decided := decided
      i_coRet := coRet } :=
  ⟨rfl, rfl, rfl, rfl, rfl, rfl, rfl, rfl, rfl, rfl, [], (List.append_nil _).symm,
    List.forall_mem_nil _⟩

theorem moved_push (h : s.Posted ev) : Moved s (s.push ev) := by
  unfold push
  split
  · exact .refl s
  · exact ⟨rfl, rfl, rfl, rfl, rfl, rfl, rfl, rfl, rfl, rfl, [ev], rfl,
      List.forall_mem_singleton.mpr h⟩

theorem funcRets_append {q evs : List CatchEvent} (h : ∀ ev ∈ evs, s.Posted ev) :
    (q ++ evs).filterMap funcRet = q.filterMap funcRet := by
  have hnil : evs.filterMap funcRet = [] := by
    refine List.filterMap_eq_nil_iff.mpr fun ev hev => ?_
    cases ev with
    | ret source msg =>
      rw [(h _ hev source msg rfl).1]
      rfl
    | abort => rfl
    | wakeup => rfl
    | state => rfl
  rw [List.filterMap_append, hnil, List.append_nil]

theorem Moved.evaluation (h : Moved s t) (f : CatchFunc) : t.evaluation f = s.evaluation f := by
  cases f with
  | body => exact h.body
  | handler => exact h.handler

theorem Moved.waits (h : Moved s t) : t.Waits f ↔ s.Waits f := by
  obtain ⟨evs, hq, hp⟩ := h.queue
  have he := h.evaluation f
  have ho : t.outcome f = s.outcome f := by cases f; exacts [h.result, h.answer]
  rw [Waits, Waits, he, ho, hq, funcRets_append hp]

/-- The phase, when the object is not moved: it has been told if the condition has ended. -/
theorem Moved.phase (h : Moved s t) (hs : s.Phase)
    (hc : t.co.i_state ≠ .ZOM → s.co.i_state ≠ .ZOM ∧ (Aborting s.co → Aborting t.co))
    (hz : t.co.i_state = .ZOM → s.co.i_state = .ZOM ∨ s.hears0 = false ∨ t.i_eventQueue ≠ [])
    (hover : s.i_state = .ZOM → s.co.i_state = .ZOM → t.co.i_state = .ZOM) : t.Phase := by
  obtain ⟨evs, hq, hp⟩ := h.queue
  unfold Phase at hs ⊢
  rw [h.i_state]
  cases hst : s.i_state with
  | INI_TINYSTATE_START =>
    rw [hst] at hs
    rw [hq, funcRets_append hp, h.result, h.body, h.handler, h.answer]
    exact hs
  | ACT_START | ACT_RECV_ABORT | ACT_SEND_ABORT =>
    rw [hst] at hs
    exact ⟨h.callFunc1.trans hs.callFunc1, h.waits.mpr hs.waits, h.handler.trans hs.handler,
      h.answer.trans hs.answer⟩
  | ACT_ABORT_RET =>
    rw [hst] at hs
    exact ⟨h.callFunc1.trans hs.callFunc1, h.body ▸ hs.body, h.waits.mpr hs.waits⟩
  | FIN_START_WAIT =>
    rw [hst] at hs
    refine ⟨⟨⟨h.body ▸ hs.body, ?_, ?_, ?_, ?_⟩, fun hn => ?_, ?_⟩, fun hr => ?_⟩
    · rw [h.handler, h.answer]
      exact hs.handler
    · rw [hq, funcRets_append hp]
      exact hs.rets
    · rw [h.i_sendEvent, h.answer]
      exact hs.sends
    · rw [h.callFunc1]
      exact hs.func
    · obtain ⟨hn, ha⟩ := hc hn
      rw [h.hears0]
      exact (hs.condition hn).imp_right ha
    · rw [h.callFunc1, h.body, h.hears1]
      exact hs.heard
    · have hready : s.co.i_state = .ZOM → t.i_eventQueue ≠ [] := fun hz hnil => by
        rw [hq, List.append_eq_nil_iff] at hnil
        refine hs.woken ⟨hz, fun f hf => ?_⟩ hnil.1
        rw [← h.evaluation f]
        exact hr.2 f (h.callFunc1.trans hf)
      rcases hz hr.1 with hz | hz | hz
      · exact hready hz
      · by_cases hn : s.co.i_state = .ZOM
        · exact hready hn
        · rw [(hs.condition hn).1] at hz
          cases hz
      · exact hz
  | ZOM =>
    rw [hst] at hs
    exact ⟨hover hst hs.condition, h.body ▸ hs.body, h.handler ▸ hs.handler⟩

theorem Inv.moved (h : s.Inv) (hm : Moved s t) (hco : CoInv t.co) (hk : t.i_condition = t.decided)
    (ha : Aborting t.co → s.Ending)
    (hc : t.co.i_state ≠ .ZOM → s.co.i_state ≠ .ZOM ∧ (Aborting s.co → Aborting t.co))
    (hz : t.co.i_state = .ZOM → s.co.i_state = .ZOM ∨ s.hears0 = false ∨ t.i_eventQueue ≠ []) :
    t.Inv := by
  refine ⟨hco, hk, fun hab => hm.ending.mpr (ha hab), hm.callFunc0.trans h.kept,
    fun source msg hmem => ?_, hm.phase h.phase hc hz fun _ hs => ?_⟩
  · obtain ⟨evs, hq, hp⟩ := hm.queue
    rw [hm.ending]
    rw [hq] at hmem
    rcases List.mem_append.mp hmem with hmem | hmem
    · exact h.rets source msg hmem
    · obtain ⟨rfl, he⟩ := hp _ hmem source msg rfl
      exact ⟨nofun, fun _ => he⟩
  · by_contra hn
    exact (hc hn).1 hs

-- ---------------------------------------------------------------------------
-- The condition
-- ---------------------------------------------------------------------------

@[simp] theorem push_co (s : PigCatchAbort) (ev : CatchEvent) : (s.push ev).co = s.co := by
  unfold push
  split <;> rfl

@[simp] theorem push_i_condition (s : PigCatchAbort) (ev : CatchEvent) :
    (s.push ev).i_condition = s.i_condition := by
  unfold push
  split <;> rfl

@[simp] theorem push_decided (s : PigCatchAbort) (ev : CatchEvent) :
    (s.push ev).decided = s.decided := by
  unfold push
  split <;> rfl

theorem push_ne_nil (hs : s.i_state ≠ .ZOM) (ev : CatchEvent) : (s.push ev).i_eventQueue ≠ [] := by
  unfold push
  rw [if_neg hs]
  exact List.append_ne_nil_of_right_ne_nil _ (List.cons_ne_nil _ _)

@[simp] theorem coFIN_START_co (s : PigCatchAbort) :
    s.coFIN_START.co = { s.co with i_state := .ZOM, i_eventQueue := [] } := by
  unfold coFIN_START
  dsimp only
  split
  · rw [push_co]
  · rfl

theorem coFIN_START_known (s : PigCatchAbort) :
    s.coFIN_START.i_condition = s.i_condition ∧ s.coFIN_START.decided = s.decided := by
  unfold coFIN_START
  dsimp only
  split
  · exact ⟨push_i_condition _ _, push_decided _ _⟩
  · exact ⟨rfl, rfl⟩

theorem moved_coFIN_START (s : PigCatchAbort) : Moved s s.coFIN_START := by
  have hm := moved_with s { s.co with i_state := .ZOM, i_eventQueue := [] } s.i_condition s.decided
    s.i_coRet
  unfold coFIN_START
  dsimp only
  split
  · exact hm.trans (moved_push nofun)
  · exact hm

theorem coFIN_START_told (hs : s.i_state ≠ .ZOM) :
    s.hears0 = false ∨ s.coFIN_START.i_eventQueue ≠ [] := by
  unfold coFIN_START
  dsimp only
  split
  · exact .inr (push_ne_nil (by exact hs) _)
  · rename_i hh
    exact .inl (Bool.eq_false_iff.mpr hh)

/-- The condition ends, and the object is told if it listens. -/
theorem Inv.coEnds (h : s.Inv) (hm : Moved s u) (hk : u.i_condition = u.decided)
    (hrun : u.co.running = 0) (hab : u.co.i_abort = true → s.Ending) : u.coFIN_START.Inv := by
  have hk' := coFIN_START_known u
  refine h.moved (hm.trans (moved_coFIN_START u)) ?_ ?_ ?_ ?_ ?_
  · rw [coFIN_START_co]
    exact ⟨nofun, nofun, fun _ => ⟨hrun, rfl⟩, nofun⟩
  · rw [hk'.1, hk'.2, hk]
  · rw [coFIN_START_co]
    rintro (ha | ha)
    · exact hab ha
    · cases ha
  · rw [coFIN_START_co]
    exact fun hn => absurd rfl hn
  · intro _
    by_cases hz : s.i_state = .ZOM
    · have hp := h.phase
      rw [Phase, hz] at hp
      exact .inl hp.condition
    · have ht := coFIN_START_told (s := u) (by rw [hm.i_state]; exact hz)
      rw [hm.hears0] at ht
      exact .inr ht

theorem moved_concluded (s : PigCatchAbort) (msg : PigData) : Moved s (s.concluded msg) := by
  unfold concluded
  split
  · exact moved_with s s.co true s.decided s.i_coRet
  · exact (moved_with s s.co false s.decided s.i_coRet).trans (moved_push nofun)

@[simp] theorem concluded_co (s : PigCatchAbort) (msg : PigData) :
    (s.concluded msg).co = s.co := by
  unfold concluded
  split
  · rfl
  · rw [push_co]

theorem concluded_known (s : PigCatchAbort) (msg : PigData) :
    (s.concluded msg).i_condition = msg.holds ∧ (s.concluded msg).decided = s.decided := by
  unfold concluded
  split
  · rename_i hh
    exact ⟨hh.symm, rfl⟩
  · rename_i hh
    exact ⟨(push_i_condition _ _).trans (Bool.eq_false_iff.mpr hh).symm, push_decided _ _⟩

/-- What is left to do for the condition is not changed by taking an event that is no return. -/
theorem CoInv.pop {co co' : CoPigCatchAbort} {ev : ConditionEvent} {evs : List ConditionEvent}
    (h : CoInv co) (hq : co.i_eventQueue = ev :: evs) (hr : conditionRet ev = false)
    (he : co' = { co with i_eventQueue := evs }) (hz : co.i_state ≠ .ZOM) : CoInv co' := by
  subst he
  have hc : (ev :: evs).countP conditionRet = evs.countP conditionRet :=
    List.countP_cons_of_neg (by rw [hr]; exact Bool.false_ne_true)
  refine ⟨fun hs => ?_, fun hs => ?_, fun hs => absurd hs hz, h.plain⟩
  · have hw := h.wait hs
    rwa [hq, hc] at hw
  · have hi := h.idle hs
    rwa [hq, hc] at hi

/-- The next event of the condition has been taken from its queue. -/
structure Popped (s p : PigCatchAbort) (ev : ConditionEvent) (evs : List ConditionEvent) :
    Prop where
  queue : s.co.i_eventQueue = ev :: evs
  eq : p = { s with co := { s.co with i_eventQueue := evs } }

section Popped

variable {p : PigCatchAbort} {ev : ConditionEvent} {evs : List ConditionEvent}

theorem Popped.moved (h : Popped s p ev evs) : Moved s p := h.eq ▸ moved_with s _ _ _ _

theorem Popped.known (h : Popped s p ev evs) (hi : s.Inv) : p.i_condition = p.decided := by
  rw [h.eq]
  exact hi.known

theorem Popped.alive (h : Popped s p ev evs) (hi : s.Inv) : s.co.i_state ≠ .ZOM := fun hz => by
  have hq := h.queue
  rw [(hi.co.zom hz).2] at hq
  cases hq

theorem Popped.aborting (h : Popped s p ev evs) (hne : ev ≠ .abort) (ha : Aborting s.co) :
    Aborting p.co := by
  rw [h.eq]
  rcases ha with ha | ha
  · exact .inl ha
  · rw [h.queue] at ha
    exact .inr ((List.mem_cons.mp ha).resolve_left hne.symm)

theorem Popped.ending (h : Popped s p ev evs) (hi : s.Inv) (ha : Aborting p.co) : s.Ending := by
  rw [h.eq] at ha
  refine hi.aborted (ha.imp_right fun ha => ?_)
  rw [h.queue]
  exact List.mem_cons_of_mem _ ha

theorem Popped.co (h : Popped s p ev evs) (hi : s.Inv) (hr : conditionRet ev = false) :
    CoInv p.co :=
  hi.co.pop h.queue hr (by rw [h.eq]) (h.alive hi)

theorem Popped.abort (h : Popped s p .abort evs) (hi : s.Inv)
    (hs : s.co.i_state = .ACT_START_WAIT) :
    (p.coACT_START_WAIT .abort).Inv := by
  have hco := h.co hi rfl
  have hst : p.co.i_state = .ACT_START_WAIT := by
    rw [h.eq]
    exact hs
  refine hi.moved (h.moved.trans (moved_with p _ p.i_condition p.decided p.i_coRet)) ?_ (h.known hi)
    ?_ ?_ ?_
  · exact ⟨hco.wait, fun hs => absurd (hst.symm.trans hs) nofun,
      fun hs => absurd (hst.symm.trans hs) nofun, hco.plain⟩
  · exact fun _ => hi.aborted (.inr (h.queue ▸ List.mem_cons_self))
  · exact fun _ => ⟨h.alive hi, fun _ => .inl rfl⟩
  · exact fun hs => absurd (hst.symm.trans hs) nofun

theorem Popped.wakeup (h : Popped s p .wakeup evs) (hi : s.Inv)
    (hs : s.co.i_state = .ACT_START_WAIT) : (p.coACT_START_WAIT .wakeup).Inv := by
  have hst : p.co.i_state = .ACT_START_WAIT := by
    rw [h.eq]
    exact hs
  exact hi.moved h.moved (h.co hi rfl) (h.known hi) (h.ending hi)
    (fun _ => ⟨h.alive hi, h.aborting nofun⟩) fun hz => absurd (hst.symm.trans hz) nofun

/-- The condition answers the abort, and ends. -/
theorem Inv.coAborted (h : s.Inv) (hm : Moved s u) (hk : u.i_condition = u.decided)
    (hrun : u.co.running = 0) (hend : s.Ending) :
    (u.push (.ret .condition (.errorOf "aborted"))).coFIN_START.Inv := by
  have hpost : u.Posted (.ret .condition (.errorOf "aborted")) := fun source msg he => by
    cases he
    exact ⟨rfl, hm.ending.mpr hend⟩
  refine h.coEnds (hm.trans (moved_push hpost)) ?_ ?_ fun _ => hend
  · rw [push_i_condition, push_decided, hk]
  · rw [push_co]
    exact hrun

/-- The evaluation that is running has returned, and no other one is. -/
theorem Popped.returned (h : Popped s p (.ret msg) evs) (hi : s.Inv)
    (hs : s.co.i_state = .ACT_START_WAIT) :
    p.co.running = 0 ∧ p.co.i_eventQueue.countP conditionRet = 0 := by
  have hw := hi.co.wait hs
  rw [h.queue, List.countP_cons_of_pos (show conditionRet (.ret msg) = true from rfl)] at hw
  rw [h.eq]
  dsimp only
  omega

theorem Popped.error (h : Popped s p (.ret msg) evs) (hi : s.Inv)
    (hs : s.co.i_state = .ACT_START_WAIT) (herr : msg.isError = true) :
    ((p.noteCondition (.ret msg)).coACT_START_WAIT (.ret msg)).Inv := by
  unfold coACT_START_WAIT noteCondition
  dsimp only
  rw [if_pos herr, if_pos herr]
  refine hi.coEnds (h.moved.trans (moved_with p p.co p.i_condition p.decided (some msg)))
    (h.known hi) (h.returned hi hs).1 fun ha => h.ending hi (.inl ha)

theorem Popped.value (h : Popped s p (.ret msg) evs) (hi : s.Inv)
    (hs : s.co.i_state = .ACT_START_WAIT) (herr : msg.isError = false)
    (hc : s.co.i_abort = true ∨ s.co.i_wakeup_flag = false) :
    ((p.noteCondition (.ret msg)).coACT_START_WAIT (.ret msg)).Inv := by
  obtain ⟨hrun, hnone⟩ := h.returned hi hs
  have herr' : ¬ msg.isError = true := Bool.eq_false_iff.mp herr
  unfold coACT_START_WAIT noteCondition
  dsimp only
  rw [if_neg herr', if_neg herr']
  have hv : Moved p { p with decided := msg.holds } :=
    moved_with p p.co p.i_condition msg.holds p.i_coRet
  have hm := (h.moved.trans hv).trans (moved_concluded _ msg)
  obtain ⟨hcond, hd⟩ := concluded_known { p with decided := msg.holds } msg
  have hco := concluded_co { p with decided := msg.holds } msg
  generalize concluded { p with decided := msg.holds } msg = c at hm hcond hd hco
  have hk : c.i_condition = c.decided := hcond.trans hd.symm
  have hcp : c.co = p.co := hco
  split
  · rename_i ha
    refine hi.coAborted hm hk (hcp ▸ hrun) (h.ending hi (.inl ?_))
    rwa [hcp] at ha
  · rename_i ha
    have hflag : c.co.i_wakeup_flag = false := by
      rw [hcp, h.eq] at ha ⊢
      exact hc.resolve_left ha
    have hab : c.co.i_abort = false := Bool.eq_false_iff.mpr ha
    rw [coACT_EVENT_WAIT, hflag, if_neg Bool.false_ne_true]
    refine hi.moved (hm.trans (moved_with c _ c.i_condition c.decided c.i_coRet)) ?_ hk ?_ ?_ nofun
    · exact ⟨nofun, fun _ => ⟨hcp ▸ hrun, hcp ▸ hnone, hab⟩, nofun, nofun⟩
    · intro ha
      refine h.ending hi ?_
      rw [← hcp]
      exact ha
    · refine fun _ => ⟨h.alive hi, fun ha => ?_⟩
      have ha := h.aborting nofun ha
      rw [← hcp] at ha
      exact ha

theorem Popped.idle (h : Popped s p ev evs) (hi : s.Inv) (hs : s.co.i_state = .ACT_EVENT_WAIT) :
    (p.coACT_EVENT_WAIT ev).Inv := by
  obtain ⟨hrun, hnone, hni⟩ := hi.co.idle hs
  have hrun : p.co.running = 0 := by
    rw [h.eq]
    exact hrun
  rw [h.queue] at hnone
  cases ev with
  | ret msg =>
    rw [List.countP_cons_of_pos (show conditionRet (.ret msg) = true from rfl)] at hnone
    cases hnone
  | abort =>
    exact hi.coAborted h.moved (h.known hi) hrun (hi.aborted (.inr (h.queue ▸ List.mem_cons_self)))
  | wakeup =>
    have hcount : p.co.i_eventQueue.countP conditionRet = 0 := by
      rw [List.countP_cons_of_neg (by exact Bool.false_ne_true)] at hnone
      rw [h.eq]
      exact hnone
    have hm := fun co => h.moved.trans (moved_with p co p.i_condition p.decided p.i_coRet)
    have hab : p.co.i_abort = false := by
      rw [h.eq]
      exact hni
    rw [coACT_EVENT_WAIT]
    split
    · refine hi.moved (hm _) ?_ (h.known hi) (h.ending hi)
        (fun _ => ⟨h.alive hi, h.aborting nofun⟩) nofun
      refine ⟨fun _ => ?_, nofun, nofun, nofun⟩
      dsimp only
      omega
    · exact hi.moved (hm _) ⟨nofun, fun _ => ⟨hrun, hcount, hab⟩, nofun, nofun⟩ (h.known hi)
        (h.ending hi) (fun _ => ⟨h.alive hi, h.aborting nofun⟩) nofun

theorem noteCondition_state : (p.noteCondition ev).co = p.co := by
  unfold noteCondition
  split
  · split <;> rfl
  · rfl

theorem Inv.coTake (hi : s.Inv) (hc : Steady s .coTake) (h : Popped s p ev evs) :
    ((p.noteCondition ev).coHandle ev).Inv := by
  unfold coHandle
  have hst : (p.noteCondition ev).co.i_state = s.co.i_state := by
    rw [noteCondition_state, h.eq]
  rw [hst]
  cases hs : s.co.i_state with
  | ACT_START msg => exact absurd hs (hi.co.plain msg)
  | ZOM => exact absurd hs (h.alive hi)
  | ACT_START_WAIT =>
    cases ev with
    | abort => exact h.abort hi hs
    | wakeup => exact h.wakeup hi hs
    | ret msg =>
      cases herr : msg.isError with
      | true => exact h.error hi hs herr
      | false =>
        refine h.value hi hs herr (hc hs ?_)
        rw [h.queue]
        simp [conditionValue, herr]
  | ACT_EVENT_WAIT =>
    cases ev with
    | abort => exact h.idle hi hs
    | wakeup => exact h.idle hi hs
    | ret msg =>
      have hnone := (hi.co.idle hs).2.1
      rw [h.queue, List.countP_cons_of_pos (show conditionRet (.ret msg) = true from rfl)] at hnone
      cases hnone

end Popped

-- ---------------------------------------------------------------------------
-- The evaluations
-- ---------------------------------------------------------------------------

/-- What a step adds to what has been seen. -/
structure Seen (s t : PigCatchAbort) (os : List CatchObs) : Prop where
  right : ∀ o ∈ os, o.Right
  sent : os.countP CatchObs.isSent + (if s.i_state = .ZOM then 1 else 0) =
    if t.i_state = .ZOM then 1 else 0
  handling : os.countP CatchObs.isHandling + (if s.handler = .none then 0 else 1) =
    if t.handler = .none then 0 else 1

/-- A step of the object, and what it adds to what has been seen. -/
def Lawful (s : PigCatchAbort) (r : PigCatchAbort × List CatchObs) : Prop :=
  r.1.Inv ∧ Seen s r.1 r.2

theorem seen_nil (hs : t.i_state = s.i_state) (hh : t.handler = .none ↔ s.handler = .none) :
    Seen s t [] := by
  refine ⟨List.forall_mem_nil _, ?_, ?_⟩
  · rw [hs, List.countP_nil, Nat.zero_add]
  · simp only [hh, List.countP_nil, Nat.zero_add]

theorem Inv.pushed (h : s.Inv) (hp : s.Posted ev) : (s.push ev).Inv := by
  refine h.moved (moved_push hp) ?_ ?_ ?_ ?_ ?_
  · rw [push_co]
    exact h.co
  · rw [push_i_condition, push_decided, h.known]
  · rw [push_co]
    exact h.aborted
  · rw [push_co]
    exact fun hn => ⟨hn, id⟩
  · rw [push_co]
    exact .inl

theorem coPush_eq (hs : s.co.i_state ≠ .ZOM) (ev : ConditionEvent) :
    s.coPush ev = { s with co := { s.co with i_eventQueue := s.co.i_eventQueue ++ [ev] } } := by
  rw [coPush, if_neg hs]

theorem Inv.change (h : s.Inv) (hs : s.co.i_state ≠ .ZOM) :
    ({ s with co := { s.co with i_wakeup_flag := true } }.coPush .wakeup).Inv := by
  rw [coPush_eq (by exact hs)]
  have hc : (s.co.i_eventQueue ++ [ConditionEvent.wakeup]).countP conditionRet =
      s.co.i_eventQueue.countP conditionRet := by
    rw [List.countP_append]
    rfl
  refine h.moved (moved_with s _ s.i_condition s.decided s.i_coRet) ?_ h.known ?_ ?_
    fun hz => absurd hz hs
  · refine ⟨fun hst => ?_, fun hst => ?_, fun hz => absurd hz hs, h.co.plain⟩
    · dsimp only
      rw [hc]
      exact h.co.wait hst
    · dsimp only
      rw [hc]
      exact h.co.idle hst
  · refine fun ha => h.aborted (ha.imp_right fun ha => ?_)
    exact (List.mem_append.mp ha).resolve_right (by simp)
  · exact fun _ => ⟨hs, fun ha => ha.imp_right fun ha => List.mem_append_left _ ha⟩

theorem Inv.condition (h : s.Inv) (hr : 0 < s.co.running) :
    ({ s with co := { s.co with running := s.co.running - 1 } }.coPush (.ret msg)).Inv := by
  have hs : s.co.i_state ≠ .ZOM := fun hz => by
    rw [(h.co.zom hz).1] at hr
    exact absurd hr (Nat.lt_irrefl 0)
  rw [coPush_eq (by exact hs)]
  refine h.moved (moved_with s _ s.i_condition s.decided s.i_coRet) ?_ h.known ?_ ?_
    fun hz => absurd hz hs
  · refine ⟨fun hst => ?_, fun hst => ?_, fun hz => absurd hz hs, h.co.plain⟩
    · have hw := h.co.wait hst
      have hc : (s.co.i_eventQueue ++ [ConditionEvent.ret msg]).countP conditionRet =
          s.co.i_eventQueue.countP conditionRet + 1 := by
        rw [List.countP_append]
        rfl
      dsimp only
      rw [hc]
      omega
    · rw [(h.co.idle hst).1] at hr
      exact absurd hr (Nat.lt_irrefl 0)
  · refine fun ha => h.aborted (ha.imp_right fun ha => ?_)
    exact (List.mem_append.mp ha).resolve_right (by simp)
  · exact fun _ => ⟨hs, fun ha => ha.imp_right fun ha => List.mem_append_left _ ha⟩

/-- Which evaluation may be running. -/
theorem Inv.runs (h : s.Inv) (hr : s.evaluation f = .running) :
    (s.Working ∧ f = .body ∧
      (s.i_state = .ACT_START ∨ s.i_state = .ACT_RECV_ABORT ∨ s.i_state = .ACT_SEND_ABORT)) ∨
      s.Handling ∧ f = .handler ∧ s.i_state = .ACT_ABORT_RET := by
  have hp := h.phase
  unfold Phase at hp
  have hdone : ∀ {e : Evaluation}, Done e → e ≠ .running := by
    rintro e (rfl | rfl) he <;> cases he
  cases hst : s.i_state with
  | INI_TINYSTATE_START =>
    rw [hst] at hp
    obtain ⟨-, -, hb, hh, -⟩ := hp
    cases f with
    | body => exact absurd (hb.symm.trans hr) nofun
    | handler => exact absurd (hh.symm.trans hr) nofun
  | ACT_START | ACT_RECV_ABORT | ACT_SEND_ABORT =>
    rw [hst] at hp
    refine .inl ⟨hp, ?_, by simp⟩
    cases f with
    | body => rfl
    | handler => exact absurd (hp.handler.symm.trans hr) nofun
  | ACT_ABORT_RET =>
    rw [hst] at hp
    refine .inr ⟨hp, ?_, rfl⟩
    cases f with
    | body => exact absurd hr (hdone hp.body)
    | handler => rfl
  | FIN_START_WAIT =>
    rw [hst] at hp
    cases f with
    | body => exact absurd hr (hdone hp.body)
    | handler =>
      rcases hp.handler with ⟨hn, -⟩ | hd
      · exact absurd (hn.symm.trans hr) nofun
      · exact absurd hr (hdone hd)
  | ZOM =>
    rw [hst] at hp
    cases f with
    | body => exact absurd hr (hdone hp.body)
    | handler => exact absurd hr hp.handler

theorem Waits.returned (h : s.Waits f) (hr : s.evaluation f = .running) :
    s.i_eventQueue.filterMap funcRet = [] := by
  rcases h with ⟨-, hq, -⟩ | ⟨hd, -⟩
  · exact hq
  · rcases hd with hd | hd <;> rw [hd] at hr <;> cases hr

theorem Inv.returns (h : s.Inv) (hr : s.evaluation f = .running) (msg : PigData) :
    (s.returns f msg).Inv ∧ Seen s (s.returns f msg) [] := by
  have hrets : ∀ {e : PigCatchAbort},
      e.i_eventQueue = s.i_eventQueue ++ [CatchEvent.ret (.func f) msg] →
      ∀ source m, .ret source m ∈ e.i_eventQueue →
        source ≠ .self ∧ (source = .condition → s.Ending) := by
    intro e he source m hm
    rw [he] at hm
    rcases List.mem_append.mp hm with hm | hm
    · exact h.rets source m hm
    · cases List.mem_singleton.mp hm
      exact ⟨nofun, nofun⟩
  have hq : s.i_eventQueue.filterMap funcRet = [] →
      (s.i_eventQueue ++ [CatchEvent.ret (.func f) msg]).filterMap funcRet = [(f, msg)] := by
    intro hnil
    rw [List.filterMap_append, hnil]
    rfl
  rcases h.runs hr with ⟨hw, rfl, hst⟩ | ⟨hw, rfl, hst⟩
  · have hz : s.i_state ≠ .ZOM := by
      rcases hst with hst | hst | hst <;> rw [hst] <;> nofun
    have he : s.returns .body msg = { s with
        result := some msg
        body := .returned
        i_eventQueue := s.i_eventQueue ++ [CatchEvent.ret (.func .body) msg] } := by
      unfold PigCatchAbort.returns push setEvaluation
      exact if_neg hz
    rw [he]
    refine ⟨⟨h.co, h.known, h.aborted, h.kept, hrets rfl, ?_⟩, seen_nil rfl Iff.rfl⟩
    have hph : ({ s with
        result := some msg
        body := .returned
        i_eventQueue := s.i_eventQueue ++ [CatchEvent.ret (.func .body) msg] } : PigCatchAbort).Working :=
      ⟨hw.callFunc1, .inr ⟨.inl rfl, msg, rfl, hq (hw.waits.returned hr)⟩, hw.handler, hw.answer⟩
    exact (phase_working (by exact hst)).mpr hph
  · have hz : s.i_state ≠ .ZOM := by
      rw [hst]
      nofun
    have he : s.returns .handler msg = { s with
        answer := some msg
        handler := .returned
        i_eventQueue := s.i_eventQueue ++ [CatchEvent.ret (.func .handler) msg] } := by
      unfold PigCatchAbort.returns push setEvaluation
      exact if_neg hz
    have hnone : s.handler ≠ .none := fun hn => by
      have hr : s.handler = .running := hr
      rw [hn] at hr
      cases hr
    rw [he]
    refine ⟨⟨h.co, h.known, h.aborted, h.kept, hrets rfl, ?_⟩, seen_nil rfl ?_⟩
    · exact (phase_handling (by exact hst)).mpr
        ⟨hw.callFunc1, hw.body, .inr ⟨.inl rfl, msg, rfl, hq (hw.waits.returned hr)⟩⟩
    · exact iff_of_false nofun hnone

/-- `f` ends, which is told where it is listened to. -/
structure Ended (s t : PigCatchAbort) (f : CatchFunc) : Prop where
  co : t.co = s.co
  known : t.i_condition = s.i_condition ∧ t.decided = s.decided
  i_state : t.i_state = s.i_state
  callFunc0 : t.callFunc0 = s.callFunc0
  callFunc1 : t.callFunc1 = s.callFunc1
  i_sendEvent : t.i_sendEvent = s.i_sendEvent
  hears0 : t.hears0 = s.hears0
  hears1 : t.hears1 = s.hears1
  outcome : ∀ g, t.outcome g = s.outcome g
  ended : t.evaluation f = .zom
  others : ∀ g, g ≠ f → t.evaluation g = s.evaluation g
  queue : ∃ evs, t.i_eventQueue = s.i_eventQueue ++ evs ∧ (∀ ev ∈ evs, ev = .state) ∧
    (s.i_state ≠ .ZOM → s.hears1 = true → s.callFunc1 = some f → evs ≠ [])

theorem ended_with {evs : List CatchEvent} (hevs : ∀ ev ∈ evs, ev = .state)
    (hq : s.i_state ≠ .ZOM → s.hears1 = true → s.callFunc1 = some f → evs ≠ []) :
    Ended s { s.setEvaluation .zom f with i_eventQueue := s.i_eventQueue ++ evs } f := by
  cases f with
  | body => exact ⟨rfl, ⟨rfl, rfl⟩, rfl, rfl, rfl, rfl, rfl, rfl, fun g => by cases g <;> rfl, rfl,
      fun g hg => by cases g; exacts [absurd rfl hg, rfl], evs, rfl, hevs, hq⟩
  | handler => exact ⟨rfl, ⟨rfl, rfl⟩, rfl, rfl, rfl, rfl, rfl, rfl, fun g => by cases g <;> rfl,
      rfl, fun g hg => by cases g; exacts [rfl, absurd rfl hg], evs, rfl, hevs, hq⟩

theorem ended_ends (s : PigCatchAbort) (f : CatchFunc) : Ended s (s.ends f) f := by
  have hnone (hn : s.i_state ≠ .ZOM → s.hears1 = true → ¬ s.callFunc1 = some f) :
      Ended s (s.setEvaluation .zom f) f := by
    have he := ended_with (s := s) (f := f) (List.forall_mem_nil _)
      fun hz h1 h2 => absurd h2 (hn hz h1)
    rw [List.append_nil] at he
    cases f <;> exact he
  have hset : (s.setEvaluation .zom f).i_state = s.i_state ∧
      (s.setEvaluation .zom f).hears1 = s.hears1 ∧
      (s.setEvaluation .zom f).callFunc1 = s.callFunc1 ∧
      (s.setEvaluation .zom f).i_eventQueue = s.i_eventQueue := by
    cases f <;> exact ⟨rfl, rfl, rfl, rfl⟩
  unfold ends push
  dsimp only
  rw [hset.1, hset.2.1, hset.2.2.1, hset.2.2.2]
  split
  · split
    · rename_i hz
      exact hnone fun hn => absurd hz hn
    · have hstate : ∀ ev ∈ [CatchEvent.state], ev = .state := List.forall_mem_singleton.mpr rfl
      have he := ended_with (s := s) (f := f) hstate fun _ _ _ => List.cons_ne_nil _ _
      cases f <;> exact he
  · rename_i hh
    exact hnone fun _ h1 h2 => hh ⟨h1, h2⟩

theorem Ended.done (h : Ended s t f) {g : CatchFunc} (hd : Done (s.evaluation g)) :
    Done (t.evaluation g) := by
  by_cases hg : g = f
  · exact hg ▸ .inr h.ended
  · rwa [h.others g hg]

theorem Ended.funcRets (h : Ended s t f) :
    t.i_eventQueue.filterMap funcRet = s.i_eventQueue.filterMap funcRet := by
  obtain ⟨evs, hq, he, -⟩ := h.queue
  rw [hq]
  exact funcRets_append (s := s) fun ev hev source msg hret => by
    rw [he ev hev] at hret
    cases hret

theorem Ended.waits (h : Ended s t f) (hr : s.evaluation f = .returned) {g : CatchFunc}
    (hw : s.Waits g) : t.Waits g := by
  rw [Waits, h.outcome, h.funcRets]
  refine hw.imp (fun hw => ⟨?_, hw.2⟩) fun hw => ⟨h.done hw.1, hw.2⟩
  rw [h.others g fun hg => ?_, hw.1]
  rw [hg, hr] at hw
  exact absurd hw.1 nofun

theorem Inv.ends (h : s.Inv) (hr : s.evaluation f = .returned) :
    (s.ends f).Inv ∧ Seen s (s.ends f) [] := by
  have he := ended_ends s f
  generalize s.ends f = t at he
  have hnone {g : CatchFunc} (hg : s.evaluation g = .none) : t.evaluation g = .none := by
    rw [he.others g fun hgf => ?_, hg]
    rw [hgf, hr] at hg
    exact absurd hg nofun
  have hending : t.Ending ↔ s.Ending := by rw [Ending, Ending, he.i_state]
  refine ⟨⟨he.co ▸ h.co, ?_, ?_, he.callFunc0.trans h.kept, fun source msg hm => ?_, ?_⟩,
    seen_nil he.i_state ⟨fun hn => ?_, hnone (g := .handler)⟩⟩
  · rw [he.known.1, he.known.2, h.known]
  · rw [he.co]
    exact fun ha => hending.mpr (h.aborted ha)
  · obtain ⟨evs, hq, hevs, -⟩ := he.queue
    rw [hq] at hm
    rw [hending]
    refine h.rets source msg ((List.mem_append.mp hm).resolve_right fun hm => ?_)
    cases hevs _ hm
  · have hp := h.phase
    unfold Phase at hp ⊢
    rw [he.i_state]
    cases hst : s.i_state with
    | INI_TINYSTATE_START =>
      rw [hst] at hp
      obtain ⟨-, -, hb, hh, -⟩ := hp
      cases f with
      | body => exact absurd (hb.symm.trans hr) nofun
      | handler => exact absurd (hh.symm.trans hr) nofun
    | ACT_START | ACT_RECV_ABORT | ACT_SEND_ABORT =>
      rw [hst] at hp
      exact ⟨he.callFunc1.trans hp.callFunc1, he.waits hr hp.waits,
        hnone (g := .handler) hp.handler, (he.outcome .handler).trans hp.answer⟩
    | ACT_ABORT_RET =>
      rw [hst] at hp
      exact ⟨he.callFunc1.trans hp.callFunc1, he.done (g := .body) hp.body, he.waits hr hp.waits⟩
    | FIN_START_WAIT =>
      rw [hst] at hp
      refine ⟨⟨⟨he.done (g := .body) hp.body, ?_, ?_, ?_, ?_⟩, ?_, ?_⟩, ?_⟩
      · rw [show t.answer = s.answer from he.outcome .handler]
        exact hp.handler.imp (fun hh => ⟨hnone (g := .handler) hh.1, hh.2⟩)
          (he.done (g := .handler))
      · rw [he.funcRets]
        exact hp.rets
      · rw [he.i_sendEvent, show t.answer = s.answer from he.outcome .handler]
        exact hp.sends
      · rw [he.callFunc1]
        exact hp.func
      · rw [he.co, he.hears0]
        exact hp.condition
      · rw [he.callFunc1, he.hears1]
        refine fun hg => (hp.heard hg).imp_left fun hb => ?_
        by_cases hf : CatchFunc.body = f
        · subst hf
          exact he.ended
        · exact (he.others .body hf).trans hb
      · obtain ⟨evs, hq, hevs, hto⟩ := he.queue
        rw [hq]
        by_cases hc : s.callFunc1 = some f
        · have hh : s.hears1 = true := by
            obtain rfl := hp.func f hc
            refine (hp.heard hc).resolve_left fun hz => ?_
            exact absurd (hz.symm.trans hr) nofun
          exact fun _ => List.append_ne_nil_of_right_ne_nil _ (hto (by rw [hst]; nofun) hh hc)
        · refine fun hready => List.append_ne_nil_of_left_ne_nil (hp.woken ⟨?_, fun g hg => ?_⟩) _
          · rw [← he.co]
            exact hready.1
          · rw [← he.others g fun hgf => hc (hgf ▸ hg)]
            exact hready.2 g (he.callFunc1.trans hg)
    | ZOM =>
      rw [hst] at hp
      refine ⟨he.co ▸ hp.condition, he.done (g := .body) hp.body, fun hrun => ?_⟩
      by_cases hf : CatchFunc.handler = f
      · exact absurd ((hf ▸ he.ended : t.evaluation .handler = .zom).symm.trans hrun) nofun
      · exact hp.handler ((he.others .handler hf).symm.trans hrun)
  · by_contra hs
    by_cases hf : CatchFunc.handler = f
    · exact absurd ((hf ▸ he.ended : t.evaluation .handler = .zom).symm.trans hn) nofun
    · exact hs ((he.others .handler hf).symm.trans hn)

theorem Inv.go (h : s.Inv) (hs : s.i_state = .INI_TINYSTATE_START) :
    s.Lawful ({ s with callFunc1 := some .body, body := .running, i_state := .ACT_START }, []) := by
  have hp := h.phase
  rw [Phase, hs] at hp
  obtain ⟨hq, hr, -, hh, ha⟩ := hp
  have hnot : ¬ s.Ending := not_ending (by rw [hs]; nofun) (by rw [hs]; nofun)
  refine ⟨⟨h.co, h.known, fun ha => absurd (h.aborted ha) hnot, h.kept, fun source msg hm => ?_,
    ⟨rfl, .inl ⟨rfl, hq, hr⟩, hh, ha⟩⟩, List.forall_mem_nil _, ?_, ?_⟩
  · exact (h.rets source msg hm).imp_right fun hc he => absurd (hc he) hnot
  · rw [hs]
    rfl
  · exact Nat.zero_add _

-- ---------------------------------------------------------------------------
-- The object
-- ---------------------------------------------------------------------------

/-- What holds whatever the object is doing. -/
structure Held (s : PigCatchAbort) : Prop where
  co : CoInv s.co
  known : s.i_condition = s.decided
  kept : s.callFunc0 = true
  sources : ∀ source msg, .ret source msg ∈ s.i_eventQueue → source ≠ .self

theorem Lawful.of_eq {r : PigCatchAbort × List CatchObs} (h : t.Lawful r)
    (hs : t.i_state = s.i_state) (hh : t.handler = s.handler) : s.Lawful r :=
  ⟨h.1, h.2.right, hs ▸ h.2.sent, hh ▸ h.2.handling⟩

theorem Done.ne {e : Evaluation} (h : Done e) : e ≠ .running := by
  rcases h with rfl | rfl <;> nofun

theorem Closing.running (h : s.Held) (hc : s.Closing) (hr : s.Ready) : s.running = 0 := by
  have hh : s.handler ≠ .running := by
    rcases hc.handler with ⟨hh, -⟩ | hh
    · rw [hh]
      nofun
    · exact hh.ne
  rw [PigCatchAbort.running, (h.co.zom hr.1).1, if_neg hc.body.ne, if_neg hh]

theorem lawful_FIN_START_WAIT (h : s.Held) (hc : s.Closing) (hz : s.i_state ≠ .ZOM) :
    s.Lawful s.FIN_START_WAIT := by
  have hready : ((s.callFunc0 → s.co.i_state = .ZOM) ∧
      ∀ f, s.callFunc1 = some f → s.evaluation f = .zom) ↔ s.Ready := by
    rw [Ready, h.kept]
    simp only [forall_const]
  unfold PigCatchAbort.FIN_START_WAIT
  split
  · rename_i hr
    have hr := hready.mp hr
    obtain ⟨source, msg, hsend, hans⟩ := hc.sends
    refine ⟨⟨h.co, h.known, fun _ => .inr rfl, h.kept, nofun, hr.1, hc.body, ?_⟩,
      List.forall_mem_singleton.mpr ?_, ?_, Nat.zero_add _⟩
    · rcases hc.handler with ⟨hh, -⟩ | hh
      · dsimp only
        rw [hh]
        nofun
      · exact hh.ne
    · rw [hsend]
      refine ⟨rfl, hc.running h hr, fun ha => ?_⟩
      obtain ⟨m, hm⟩ := Option.isSome_iff_exists.mp ha
      rw [hm, hans m hm]
      rfl
    · rw [if_neg hz]
      rfl
  · rename_i hr
    refine ⟨⟨h.co, h.known, fun _ => .inl rfl, h.kept, fun source msg hm => ?_, ?_⟩,
      List.forall_mem_nil _, ?_, Nat.zero_add _⟩
    · exact ⟨h.sources source msg hm, fun _ => .inl rfl⟩
    · refine (phase_finishing (by rfl)).mpr ⟨⟨⟨hc.body, hc.handler, hc.rets, hc.sends, hc.func⟩,
        hc.condition, hc.heard⟩, fun hr' => ?_⟩
      exact absurd (hready.mpr hr') hr
    · rw [if_neg hz]
      rfl

theorem CoInv.aborted {co : CoPigCatchAbort} (h : CoInv co) (hz : co.i_state ≠ .ZOM) :
    CoInv { co with i_eventQueue := co.i_eventQueue ++ [ConditionEvent.abort] } := by
  have hc : (co.i_eventQueue ++ [ConditionEvent.abort]).countP conditionRet =
      co.i_eventQueue.countP conditionRet := by
    rw [List.countP_append]
    rfl
  refine ⟨fun hs => ?_, fun hs => ?_, fun hs => absurd hs hz, h.plain⟩
  · dsimp only
    rw [hc]
    exact h.wait hs
  · dsimp only
    rw [hc]
    exact h.idle hs

/-- The condition is aborted, and listened to. -/
theorem abort_condition (h : CoInv s.co) : ∃ hears co,
    ({ s with hears0 := s.co.i_state != CoPigCatchAbort.State.ZOM } : PigCatchAbort).coPush .abort =
      { s with hears0 := hears, co := co } ∧
    CoInv co ∧ (co.i_state ≠ .ZOM → hears = true ∧ Aborting co) := by
  by_cases hz : s.co.i_state = .ZOM
  · refine ⟨false, s.co, ?_, h, fun hn => absurd hz hn⟩
    rw [coPush, if_pos (by exact hz), hz]
    rfl
  · refine ⟨true, { s.co with i_eventQueue := s.co.i_eventQueue ++ [ConditionEvent.abort] }, ?_,
      h.aborted hz,
      fun _ => ⟨rfl, .inr (List.mem_append_right _ List.mem_cons_self)⟩⟩
    rw [coPush, if_neg (by exact hz), bne_iff_ne.mpr hz]

theorem lawful_FIN_START (h : s.Held) (hf : s.Fetched) (hz : s.i_state ≠ .ZOM)
    (hi : i = 0 ∨ s.callFunc1 = none ∨ s.body = .zom) : s.Lawful (s.FIN_START i) := by
  obtain ⟨hears, co, he, hco, hc⟩ := abort_condition h.co
  have hheld (x : Bool) :
      ({ s with hears0 := hears, hears1 := x, co := co } : PigCatchAbort).Held :=
    ⟨hco, h.known, h.kept, h.sources⟩
  have hclosing (x : Bool) (hx : s.callFunc1 = some .body → s.body = .zom ∨ x = true) :
      ({ s with hears0 := hears, hears1 := x, co := co } : PigCatchAbort).Closing :=
    ⟨⟨hf.body, hf.handler, hf.rets, hf.sends, hf.func⟩, hc, hx⟩
  unfold PigCatchAbort.FIN_START
  rw [if_pos h.kept, if_pos h.kept, he]
  dsimp only
  split
  · rename_i hfunc
    refine (lawful_FIN_START_WAIT (hheld s.hears1) (hclosing _ fun hb => ?_) hz).of_eq rfl rfl
    rw [hfunc] at hb
    cases hb
  · rename_i f hfunc
    obtain rfl := hf.func f hfunc
    split
    · have hl := (lawful_FIN_START_WAIT (hheld (s.body != .zom)) (hclosing _ fun _ => ?_) hz).of_eq
        (s := s) rfl rfl
      · refine ⟨hl.1, List.forall_mem_cons.mpr ⟨.inr rfl, hl.2.right⟩, ?_, ?_⟩
        · exact hl.2.sent
        · exact hl.2.handling
      · by_cases hb : s.body = .zom
        · exact .inl hb
        · exact .inr (bne_iff_ne.mpr hb)
    · rename_i hi'
      refine (lawful_FIN_START_WAIT (hheld s.hears1) (hclosing _ fun hb => .inl ?_) hz).of_eq
        rfl rfl
      refine (hi.resolve_left hi').resolve_left fun hn => ?_
      rw [hfunc] at hn
      cases hn

/-- The body has returned what is to be sent; nothing has been aborted yet. -/
structure Brought (s : PigCatchAbort) : Prop extends Held s, Fetched s where
  fresh : s.handler = .none
  unanswered : s.answer = none
  calm : ¬ Aborting s.co
  plain : ∀ source msg, .ret source msg ∈ s.i_eventQueue → source ≠ .condition
  result : (s.i_sendEvent.map Prod.snd).isSome = true ∧ s.result = s.i_sendEvent.map Prod.snd
  alive : s.i_state ≠ .ZOM

theorem lawful_ACT_ABORT_DO (h : s.Brought)
    (hi : s.withHandler = true ∨ i = 0 ∨ s.callFunc1 = none ∨ s.body = .zom) :
    s.Lawful (s.ACT_ABORT_DO i) := by
  unfold PigCatchAbort.ACT_ABORT_DO
  split
  · refine ⟨⟨h.co, h.known, fun ha => absurd ha h.calm, h.kept, fun source msg hm => ?_, rfl,
      h.body, .inl ⟨rfl, h.rets, h.unanswered⟩⟩, List.forall_mem_singleton.mpr h.result, ?_, ?_⟩
    · exact ⟨h.sources source msg hm, fun hc => absurd hc (h.plain source msg hm)⟩
    · rw [if_neg h.alive]
      rfl
    · rw [if_pos h.fresh]
      rfl
  · rename_i hn
    exact lawful_FIN_START h.toHeld h.toFetched h.alive (hi.resolve_left hn)

/-- The next event of the object has been taken from its queue. -/
def popped (s : PigCatchAbort) (evs : List CatchEvent) : PigCatchAbort :=
  { s with i_eventQueue := evs }

theorem Inv.live (h : s.Inv) (hn : ¬ s.Ending) (hm : .ret source msg ∈ s.i_eventQueue) :
    ∃ f, source = .func f := by
  obtain ⟨hself, hcond⟩ := h.rets source msg hm
  cases source with
  | condition => exact absurd (hcond rfl) hn
  | self => exact absurd rfl hself
  | func f => exact ⟨f, rfl⟩

theorem Waits.fetched (h : s.Waits f) {g : CatchFunc} {evs : List CatchEvent}
    (hq : s.i_eventQueue = .ret (.func g) msg :: evs) :
    f = g ∧ Done (s.evaluation f) ∧ s.outcome f = some msg ∧ evs.filterMap funcRet = [] := by
  rcases h with ⟨-, hnil, -⟩ | ⟨hd, m, ho, hone⟩
  · rw [hq] at hnil
    cases hnil
  · rw [hq] at hone
    obtain ⟨hp, hnil⟩ := List.cons.inj hone
    cases hp
    exact ⟨rfl, hd, ho, hnil⟩

theorem Inv.brought (h : s.Inv) (hn : ¬ s.Ending) (hw : s.Working) {evs : List CatchEvent}
    (hq : s.i_eventQueue = .ret source msg :: evs) :
    source = .func .body ∧ ∀ callFunc src, callFunc = none ∨ callFunc = some .body →
      Brought { s.popped evs with callFunc1 := callFunc, i_sendEvent := some (src, msg) } := by
  have hmem {source msg} (hm : CatchEvent.ret source msg ∈ evs) :
      .ret source msg ∈ s.i_eventQueue :=
    hq ▸ List.mem_cons_of_mem _ hm
  obtain ⟨g, rfl⟩ := h.live hn (hq ▸ List.mem_cons_self)
  obtain ⟨rfl, hd, ho, hnil⟩ := hw.waits.fetched hq
  refine ⟨rfl, fun callFunc src hc => ⟨⟨h.co, h.known, h.kept, fun source msg hm => ?_⟩,
    ⟨hd, .inl ⟨hw.handler, hw.answer⟩, hnil, ⟨src, msg, rfl, fun m hm => ?_⟩, fun f hf => ?_⟩,
    hw.handler, hw.answer, fun ha => hn (h.aborted ha), fun source msg hm he => ?_, ⟨rfl, ho⟩,
    fun hz => hn (.inr hz)⟩⟩
  · exact (h.rets source msg (hmem hm)).1
  · have ha : s.answer = some m := hm
    rw [hw.answer] at ha
    cases ha
  · have hf : callFunc = some f := hf
    rcases hc with rfl | rfl
    · cases hf
    · exact (Option.some.inj hf).symm
  · obtain ⟨f, rfl⟩ := h.live hn (hmem hm)
    cases he

theorem Inv.returned (h : s.Inv) (hn : ¬ s.Ending) (hw : s.Working) {evs : List CatchEvent}
    (hq : s.i_eventQueue = .ret source msg :: evs) :
    s.Lawful ((s.popped evs).returned i source msg) := by
  obtain ⟨rfl, hb⟩ := h.brought hn hw hq
  have hb := hb none .self (.inl rfl)
  unfold PigCatchAbort.returned
  rw [if_neg fun hc => absurd hc.1 nofun]
  dsimp only
  split
  · exact (lawful_FIN_START hb.toHeld hb.toFetched hb.alive (.inr (.inl rfl))).of_eq rfl rfl
  · exact (lawful_ACT_ABORT_DO hb (.inr (.inr (.inl rfl)))).of_eq rfl rfl

theorem Waits.popped (h : s.Waits f) {evs : List CatchEvent} (hq : s.i_eventQueue = ev :: evs)
    (hev : funcRet ev = none) : (s.popped evs).Waits f := by
  have hsame : evs.filterMap funcRet = s.i_eventQueue.filterMap funcRet := by
    rw [hq, List.filterMap_cons_none hev]
  have he : (s.popped evs).evaluation f = s.evaluation f ∧
      (s.popped evs).outcome f = s.outcome f := by
    cases f <;> exact ⟨rfl, rfl⟩
  rw [Waits, he.1, he.2, show (s.popped evs).i_eventQueue = evs from rfl, hsame]
  exact h

/-- The object takes an event other than a return, while the body is running. -/
theorem Inv.stays (h : s.Inv) (hn : ¬ s.Ending) (hw : s.Working) {evs : List CatchEvent}
    (hq : s.i_eventQueue = ev :: evs) (hev : funcRet ev = none) {state : State} (abort : Bool)
    (hs : state = .ACT_START ∨ state = .ACT_RECV_ABORT ∨ state = .ACT_SEND_ABORT)
    (hos : os = [] ∨ os = [.aborted false false]) :
    s.Lawful ({ s.popped evs with i_state := state, i_abort := abort }, os) := by
  have hwait := hw.waits.popped hq hev
  refine ⟨⟨h.co, h.known, fun ha => absurd (h.aborted ha) hn, h.kept, fun source msg hm => ?_,
    (phase_working (by exact hs)).mpr ⟨hw.callFunc1, hwait, hw.handler, hw.answer⟩⟩, ?_, ?_, ?_⟩
  · obtain ⟨f, rfl⟩ := h.live hn (hq ▸ List.mem_cons_of_mem _ hm)
    exact ⟨nofun, nofun⟩
  · rcases hos with rfl | rfl
    · exact List.forall_mem_nil _
    · exact List.forall_mem_singleton.mpr (.inl rfl)
  · have hz : s.i_state ≠ .ZOM := fun hz => hn (.inr hz)
    have hz' : state ≠ .ZOM := by rcases hs with rfl | rfl | rfl <;> nofun
    rw [if_neg hz, if_neg (by exact hz')]
    rcases hos with rfl | rfl <;> rfl
  · rcases hos with rfl | rfl <;> exact Nat.zero_add _

theorem Inv.sendsAbort (h : s.Inv) (hn : ¬ s.Ending) (hw : s.Working) {evs : List CatchEvent}
    (hq : s.i_eventQueue = ev :: evs) (hev : funcRet ev = none) (hc : ¬ s.i_condition = true)
    (abort : Bool) : s.Lawful ({ s.popped evs with i_abort := abort }.sendAbort) := by
  refine h.stays hn hw hq hev abort (.inr (.inr rfl)) (.inr ?_)
  have hd : s.decided = false := h.known.symm.trans (Bool.eq_false_iff.mpr hc)
  exact congrArg (fun d => [CatchObs.aborted d false]) hd

theorem Inv.onACT_START (h : s.Inv) (hs : s.i_state = .ACT_START) {evs : List CatchEvent}
    (hq : s.i_eventQueue = ev :: evs) : s.Lawful ((s.popped evs).ACT_START i ev) := by
  have hn : ¬ s.Ending := not_ending (by rw [hs]; nofun) (by rw [hs]; nofun)
  have hw := (phase_working (.inl hs)).mp h.phase
  cases ev with
  | ret source msg => exact h.returned hn hw hq
  | wakeup => exact h.stays hn hw hq rfl s.i_abort (.inl hs) (.inl rfl)
  | state => exact h.stays hn hw hq rfl s.i_abort (.inl hs) (.inl rfl)
  | abort =>
    unfold PigCatchAbort.ACT_START
    dsimp only
    split
    · exact h.stays hn hw hq rfl true (.inr (.inl rfl)) (.inl rfl)
    · rename_i hc
      exact h.sendsAbort hn hw hq rfl hc true

theorem Inv.onACT_RECV_ABORT (h : s.Inv) (hs : s.i_state = .ACT_RECV_ABORT) {evs : List CatchEvent}
    (hq : s.i_eventQueue = ev :: evs) : s.Lawful ((s.popped evs).ACT_RECV_ABORT i ev) := by
  have hn : ¬ s.Ending := not_ending (by rw [hs]; nofun) (by rw [hs]; nofun)
  have hw := (phase_working (.inr (.inl hs))).mp h.phase
  have hother (hev : funcRet ev = none) : s.Lawful (if (s.popped evs).i_condition then
      (s.popped evs, []) else (s.popped evs).sendAbort) := by
    split
    · exact h.stays hn hw hq hev s.i_abort (.inr (.inl hs)) (.inl rfl)
    · rename_i hc
      exact h.sendsAbort hn hw hq hev hc s.i_abort
  cases ev with
  | ret source msg => exact h.returned hn hw hq
  | wakeup => exact hother rfl
  | state => exact hother rfl
  | abort => exact hother rfl

theorem Inv.onACT_SEND_ABORT (h : s.Inv) (hs : s.i_state = .ACT_SEND_ABORT)
    (hc : i = 0 ∨ s.withHandler = true ∨ s.body = .zom) {evs : List CatchEvent}
    (hq : s.i_eventQueue = ev :: evs) : s.Lawful ((s.popped evs).ACT_SEND_ABORT i ev) := by
  have hn : ¬ s.Ending := not_ending (by rw [hs]; nofun) (by rw [hs]; nofun)
  have hw := (phase_working (.inr (.inr hs))).mp h.phase
  have hother (hev : funcRet ev = none) : s.Lawful (s.popped evs, []) :=
    h.stays hn hw hq hev s.i_abort (.inr (.inr hs)) (.inl rfl)
  cases ev with
  | wakeup => exact hother rfl
  | state => exact hother rfl
  | abort => exact hother rfl
  | ret source msg =>
    obtain ⟨rfl, hb⟩ := h.brought hn hw hq
    have hb := hb (some .body) (.func .body) (.inr rfl)
    have hl := lawful_ACT_ABORT_DO (i := i) hb ?_
    · rw [show (some CatchFunc.body) = s.callFunc1 from hw.callFunc1.symm] at hl
      exact hl.of_eq rfl rfl
    · rcases hc with hc | hc | hc
      · exact .inr (.inl hc)
      · exact .inl hc
      · exact .inr (.inr (.inr hc))

theorem Inv.onACT_ABORT_RET (h : s.Inv) (hs : s.i_state = .ACT_ABORT_RET) {evs : List CatchEvent}
    (hq : s.i_eventQueue = ev :: evs) : s.Lawful ((s.popped evs).ACT_ABORT_RET i ev) := by
  have hn : ¬ s.Ending := not_ending (by rw [hs]; nofun) (by rw [hs]; nofun)
  have hw := (phase_handling hs).mp h.phase
  have hother (hev : funcRet ev = none) : s.Lawful (s.popped evs, []) := by
    refine ⟨⟨h.co, h.known, fun ha => absurd (h.aborted ha) hn, h.kept, fun source msg hm => ?_,
      (phase_handling (by exact hs)).mpr ⟨hw.callFunc1, hw.body, hw.waits.popped hq hev⟩⟩,
      seen_nil rfl Iff.rfl⟩
    obtain ⟨f, rfl⟩ := h.live hn (hq ▸ List.mem_cons_of_mem _ hm)
    exact ⟨nofun, nofun⟩
  cases ev with
  | wakeup => exact hother rfl
  | state => exact hother rfl
  | abort => exact hother rfl
  | ret source msg =>
    obtain ⟨g, rfl⟩ := h.live hn (hq ▸ List.mem_cons_self)
    obtain ⟨rfl, hd, ho, hnil⟩ := hw.waits.fetched hq
    refine (lawful_FIN_START
      (s := { s.popped evs with i_sendEvent := some (.self, msg), callFunc1 := none })
      ⟨h.co, h.known, h.kept, fun source msg hm => ?_⟩
      ⟨hw.body, .inr hd, hnil, ⟨.self, msg, rfl, fun m hm => ?_⟩, nofun⟩ (fun hz => hn (.inr hz))
      (.inr (.inl rfl))).of_eq rfl rfl
    · exact (h.rets source msg (hq ▸ List.mem_cons_of_mem _ hm)).1
    · exact Option.some.inj (hm.symm.trans ho)

theorem Inv.onFIN_START_WAIT (h : s.Inv) (hs : s.i_state = .FIN_START_WAIT) {evs : List CatchEvent}
    (hq : s.i_eventQueue = ev :: evs) : s.Lawful (s.popped evs).FIN_START_WAIT := by
  have hf := (phase_finishing hs).mp h.phase
  have hnil : evs.filterMap funcRet = [] := by
    have hr := hf.rets
    rw [hq, List.filterMap_eq_nil_iff] at hr
    exact List.filterMap_eq_nil_iff.mpr fun ev hev => hr ev (List.mem_cons_of_mem _ hev)
  refine (lawful_FIN_START_WAIT (s := s.popped evs) ⟨h.co, h.known, h.kept, fun source msg hm => ?_⟩
    ⟨⟨hf.body, hf.handler, hnil, hf.sends, hf.func⟩, hf.condition, hf.heard⟩ ?_).of_eq rfl rfl
  · exact (h.rets source msg (hq ▸ List.mem_cons_of_mem _ hm)).1
  · rw [show (s.popped evs).i_state = s.i_state from rfl, hs]
    nofun

theorem Inv.onZOM (h : s.Inv) (hs : s.i_state = .ZOM) {evs : List CatchEvent}
    (hq : s.i_eventQueue = ev :: evs) : s.Lawful (s.popped evs, []) := by
  have ho := (phase_over hs).mp h.phase
  refine ⟨⟨h.co, h.known, h.aborted, h.kept, fun source msg hm => ?_,
    (phase_over (by exact hs)).mpr ⟨ho.condition, ho.body, ho.handler⟩⟩, seen_nil rfl Iff.rfl⟩
  exact h.rets source msg (hq ▸ List.mem_cons_of_mem _ hm)

theorem Inv.take (h : s.Inv) (hc : Steady s (.take i)) {evs : List CatchEvent}
    (hq : s.i_eventQueue = ev :: evs) (hi : s.i_state ≠ .INI_TINYSTATE_START) :
    s.Lawful ((s.popped evs).handle i ev) := by
  unfold PigCatchAbort.handle
  rw [show (s.popped evs).i_state = s.i_state from rfl]
  cases hs : s.i_state with
  | INI_TINYSTATE_START => exact absurd hs hi
  | ACT_START => exact h.onACT_START hs hq
  | ACT_RECV_ABORT => exact h.onACT_RECV_ABORT hs hq
  | ACT_SEND_ABORT =>
    exact h.onACT_SEND_ABORT hs (hc.imp_right fun hc => hc.resolve_left (absurd hs)) hq
  | ACT_ABORT_RET => exact h.onACT_ABORT_RET hs hq
  | FIN_START_WAIT => exact h.onFIN_START_WAIT hs hq
  | ZOM => exact h.onZOM hs hq

-- ---------------------------------------------------------------------------
-- Runs
-- ---------------------------------------------------------------------------

theorem push_kept (s : PigCatchAbort) (ev : CatchEvent) :
    (s.push ev).i_state = s.i_state ∧ (s.push ev).handler = s.handler := by
  unfold push
  split <;> exact ⟨rfl, rfl⟩

theorem coPush_kept (s : PigCatchAbort) (ev : ConditionEvent) :
    (s.coPush ev).i_state = s.i_state ∧ (s.coPush ev).handler = s.handler := by
  unfold coPush
  split <;> exact ⟨rfl, rfl⟩

theorem coFIN_START_kept (s : PigCatchAbort) :
    s.coFIN_START.i_state = s.i_state ∧ s.coFIN_START.handler = s.handler :=
  ⟨(moved_coFIN_START s).i_state, (moved_coFIN_START s).handler⟩

theorem coACT_EVENT_WAIT_kept (s : PigCatchAbort) (ev : ConditionEvent) :
    (s.coACT_EVENT_WAIT ev).i_state = s.i_state ∧ (s.coACT_EVENT_WAIT ev).handler = s.handler := by
  cases ev with
  | abort =>
    obtain ⟨h1, h2⟩ := coFIN_START_kept (s.push (.ret .condition (.errorOf "aborted")))
    obtain ⟨h3, h4⟩ := push_kept s (.ret .condition (.errorOf "aborted"))
    exact ⟨h1.trans h3, h2.trans h4⟩
  | wakeup =>
    unfold coACT_EVENT_WAIT
    dsimp only
    split <;> exact ⟨rfl, rfl⟩
  | ret msg =>
    unfold coACT_EVENT_WAIT
    dsimp only
    split <;> exact ⟨rfl, rfl⟩

theorem coACT_START_WAIT_kept (s : PigCatchAbort) (ev : ConditionEvent) :
    (s.coACT_START_WAIT ev).i_state = s.i_state ∧ (s.coACT_START_WAIT ev).handler = s.handler := by
  cases ev with
  | abort => exact ⟨rfl, rfl⟩
  | wakeup => exact ⟨rfl, rfl⟩
  | ret msg =>
    have hm := moved_concluded s msg
    unfold coACT_START_WAIT
    dsimp only
    split
    · exact coFIN_START_kept { s with i_coRet := some msg }
    · split
      · obtain ⟨h1, h2⟩ := coFIN_START_kept
          ((s.concluded msg).push (.ret .condition (.errorOf "aborted")))
        obtain ⟨h3, h4⟩ := push_kept (s.concluded msg) (.ret .condition (.errorOf "aborted"))
        exact ⟨h1.trans (h3.trans hm.i_state), h2.trans (h4.trans hm.handler)⟩
      · obtain ⟨h1, h2⟩ := coACT_EVENT_WAIT_kept (s.concluded msg) (.ret msg)
        exact ⟨h1.trans hm.i_state, h2.trans hm.handler⟩

theorem coHandle_kept (s : PigCatchAbort) (ev : ConditionEvent) :
    (s.coHandle ev).i_state = s.i_state ∧ (s.coHandle ev).handler = s.handler := by
  unfold coHandle
  split
  · exact coACT_START_WAIT_kept s ev
  · exact coACT_EVENT_WAIT_kept s ev
  · exact ⟨rfl, rfl⟩

theorem noteCondition_kept (s : PigCatchAbort) (ev : ConditionEvent) :
    (s.noteCondition ev).i_state = s.i_state ∧ (s.noteCondition ev).handler = s.handler := by
  unfold noteCondition
  split
  · split <;> exact ⟨rfl, rfl⟩
  · exact ⟨rfl, rfl⟩

theorem lawful_kept (h : t.Inv) (hk : t.i_state = s.i_state ∧ t.handler = s.handler) :
    s.Lawful (t, []) :=
  ⟨h, seen_nil hk.1 (by rw [hk.2])⟩

theorem Inv.step {a : CatchAct} {r : PigCatchAbort × List CatchObs} (h : s.Inv) (hc : Steady s a)
    (hs : s.step a = some r) : s.Lawful r := by
  cases a with
  | go =>
    simp only [PigCatchAbort.step, Option.ite_none_right_eq_some] at hs
    obtain ⟨hi, hs⟩ := hs
    cases hs
    exact h.go hi
  | abort =>
    simp only [PigCatchAbort.step, Option.ite_none_left_eq_some] at hs
    cases hs.2
    exact lawful_kept (h.pushed nofun) (push_kept s .abort)
  | change =>
    simp only [PigCatchAbort.step] at hs
    split at hs
    · cases hs
      exact lawful_kept h ⟨rfl, rfl⟩
    · rename_i hz
      cases hs
      exact lawful_kept (h.change fun hz' => hz (.inl hz')) (coPush_kept _ _)
  | condition msg =>
    simp only [PigCatchAbort.step, Option.ite_none_right_eq_some] at hs
    obtain ⟨hr, hs⟩ := hs
    cases hs
    exact lawful_kept (h.condition hr) (coPush_kept _ _)
  | ret f msg =>
    simp only [PigCatchAbort.step, Option.ite_none_right_eq_some] at hs
    obtain ⟨hr, hs⟩ := hs
    cases hs
    exact h.returns hr msg
  | zom f =>
    simp only [PigCatchAbort.step, Option.ite_none_right_eq_some] at hs
    obtain ⟨hr, hs⟩ := hs
    cases hs
    exact h.ends hr
  | coTake =>
    simp only [PigCatchAbort.step] at hs
    split at hs
    · cases hs
    · cases hs
    · rename_i ev evs hq _
      cases hs
      obtain ⟨h1, h2⟩ := coHandle_kept
        (({ s with co := { s.co with i_eventQueue := evs } } : PigCatchAbort).noteCondition ev) ev
      obtain ⟨h3, h4⟩ := noteCondition_kept
        { s with co := { s.co with i_eventQueue := evs } } ev
      exact lawful_kept (h.coTake hc ⟨hq, rfl⟩) ⟨h1.trans h3, h2.trans h4⟩
  | coGo =>
    simp only [PigCatchAbort.step] at hs
    split at hs
    · rename_i msg hst
      exact absurd hst (h.co.plain msg)
    · cases hs
  | take i =>
    simp only [PigCatchAbort.step] at hs
    split at hs
    · cases hs
    · cases hs
    · rename_i ev evs hq hi
      cases hs
      exact h.take hc hq hi

theorem inv_start (withHandler : Bool) : (start withHandler).Inv := by
  refine ⟨⟨fun _ => rfl, nofun, nofun, nofun⟩, rfl, ?_, rfl, nofun, rfl, rfl, rfl, rfl, rfl⟩
  rintro (ha | ha) <;> cases ha

/-- What the history of a run has to do with the state it has come to. -/
structure Recorded (s : PigCatchAbort) (tr : List CatchObs) : Prop where
  right : ∀ o ∈ tr, o.Right
  sent : tr.countP CatchObs.isSent = if s.i_state = .ZOM then 1 else 0
  handling : tr.countP CatchObs.isHandling = if s.handler = .none then 0 else 1

theorem Recorded.step (h : s.Recorded tr) (hs : Seen s t os) : t.Recorded (tr ++ os) := by
  refine ⟨List.forall_mem_append.mpr ⟨h.right, hs.right⟩, ?_, ?_⟩
  · rw [List.countP_append, h.sent, Nat.add_comm, hs.sent]
  · rw [List.countP_append, h.handling, Nat.add_comm, hs.handling]

theorem run_recorded (h : machine.RunIf Steady tr s) : s.Inv ∧ s.Recorded tr := by
  refine h.invariant (I := fun tr s => s.Inv ∧ s.Recorded tr) ?_ ?_
  · rintro s ⟨withHandler, rfl⟩
    exact ⟨inv_start withHandler, List.forall_mem_nil _, rfl, rfl⟩
  · intro tr s a t os _ ⟨hi, hr⟩ hc hs
    obtain ⟨hi', hs⟩ := hi.step hc hs
    exact ⟨hi', hr.step hs⟩

theorem Inv.idle (h : s.Inv) (hz : s.i_state = .ZOM) : s.running = 0 := by
  have ho := (phase_over hz).mp h.phase
  rw [running, (h.co.zom ho.condition).1, if_neg ho.body.ne, if_neg ho.handler]

theorem Inv.quiet (h : s.Inv) (hq : s.Quiet) : s.i_state = .ZOM := by
  have hrun := hq.running
  rw [running, Nat.add_eq_zero_iff, Nat.add_eq_zero_iff] at hrun
  obtain ⟨⟨hco, hb⟩, hh⟩ := hrun
  have hb : s.body ≠ .running := fun he => by
    rw [if_pos he] at hb
    cases hb
  have hh : s.handler ≠ .running := fun he => by
    rw [if_pos he] at hh
    cases hh
  have hwait {f : CatchFunc} (hw : s.Waits f) (hf : s.evaluation f ≠ .running) : False := by
    rcases hw with hw | ⟨-, msg, -, hone⟩
    · exact hf hw.1
    · rw [hq.queue] at hone
      cases hone
  have hp := h.phase
  cases hs : s.i_state with
  | INI_TINYSTATE_START => exact absurd hs hq.made
  | ACT_START => exact (hwait ((phase_working (.inl hs)).mp hp).waits hb).elim
  | ACT_RECV_ABORT => exact (hwait ((phase_working (.inr (.inl hs))).mp hp).waits hb).elim
  | ACT_SEND_ABORT => exact (hwait ((phase_working (.inr (.inr hs))).mp hp).waits hb).elim
  | ACT_ABORT_RET => exact (hwait ((phase_handling hs).mp hp).waits hh).elim
  | FIN_START_WAIT =>
    have hf := (phase_finishing hs).mp hp
    have hz : s.co.i_state = .ZOM := by
      by_contra hz
      have ha := (hf.condition hz).2
      rw [Aborting, hq.coQueue] at ha
      cases hst : s.co.i_state with
      | ACT_START msg => exact h.co.plain msg hst
      | ZOM => exact hz hst
      | ACT_START_WAIT =>
        have hw := h.co.wait hst
        rw [hco, hq.coQueue] at hw
        cases hw
      | ACT_EVENT_WAIT =>
        rw [(h.co.idle hst).2.2] at ha
        rcases ha with ha | ha <;> cases ha
    refine absurd hq.queue (hf.woken ⟨hz, fun f hf' => ?_⟩)
    obtain rfl := hf.func f hf'
    rcases hf.body with hr | hz
    · exact absurd hr hq.body
    · exact hz
  | ZOM => rfl

-- ---------------------------------------------------------------------------
-- What the parent gets
-- ---------------------------------------------------------------------------

/-- In every run in which the condition is steady the parent gets one return event, when nothing
that has been evaluated is still running, and whatever else is asked of `catchAbort` is kept. -/
theorem catchAbort_law (h : machine.RunIf Steady tr s) : s.Caught tr := by
  obtain ⟨hi, hr⟩ := run_recorded h
  refine ⟨hr.right, ?_, ?_, fun hs => ?_, fun hq => ?_⟩
  · rw [hr.sent]
    split <;> decide
  · rw [hr.handling]
    split <;> decide
  · rw [hr.sent] at hs
    refine hi.idle (by_contra fun hz => ?_)
    rw [if_neg hz] at hs
    exact absurd hs (Nat.lt_irrefl 0)
  · rw [hr.sent, if_pos (hi.quiet hq)]

theorem quiet_of_zom (hq : s.i_eventQueue = []) (hc : s.co.i_eventQueue = []) (hr : s.running = 0)
    (hb : s.body = .zom) (hh : s.handler ≠ .returned) (hco : s.co.i_state = .ZOM)
    (hs : s.i_state ≠ .INI_TINYSTATE_START) : s.Quiet := by
  refine ⟨hs, hq, hc, hr, ?_, hh, ?_⟩
  · rw [hb]
    nofun
  · rw [hco]
    nofun

/-- The condition becomes false while the body is running; an abort reaches the body, the handler
gets its result, and what the handler returns is sent. -/
theorem catchAbort_law_handled : ∃ tr s, machine.RunIf Steady tr s ∧
    (s.Quiet ∧ tr.countP CatchObs.isSent = 1 ∧ .aborted false false ∈ tr) ∧ s.Caught tr := by
  obtain ⟨tr, s, h, hp⟩ := Machine.exists_run (M := machine) (C := Steady)
    (P := fun tr s => (s.i_eventQueue = [] ∧ s.co.i_eventQueue = [] ∧ s.running = 0 ∧
      s.body = .zom ∧ s.handler = .zom ∧ s.co.i_state = .ZOM ∧ s.i_state = .ZOM) ∧
      tr.countP CatchObs.isSent = 1 ∧ .aborted false false ∈ tr)
    [.go, .condition (.value false), .coTake, .abort, .take 0, .take 0, .ret .body .null,
      .zom .body, .take 0, .ret .handler (.value true), .zom .handler, .take 0, .coTake, .take 0]
    (s := start true) ⟨true, rfl⟩ (by decide +kernel)
  obtain ⟨⟨hq, hcq, hrun, hb, hh, hco, hz⟩, hsent, hab⟩ := hp
  have hquiet := quiet_of_zom hq hcq hrun hb (by rw [hh]; nofun) hco (by rw [hz]; nofun)
  exact ⟨tr, s, h, ⟨hquiet, hsent, hab⟩, catchAbort_law h⟩

/-- A terminal of the condition changes while it is being evaluated: the second evaluation is
still running when the result is sent. The object loses count while it aborts the condition, and
the body has not ended yet: nothing is sent. -/
theorem evaluation_left :
    (∃ tr s, machine.Run tr s ∧ .sent (some .null) 1 none ∈ tr ∧ ¬ s.Caught tr) ∧
      ∃ tr s, machine.Run tr s ∧ (s.Quiet ∧ tr.countP CatchObs.isSent = 0) ∧ ¬ s.Caught tr := by
  refine ⟨?_, ?_⟩
  · obtain ⟨tr, s, h, hp⟩ := Machine.exists_run (M := machine) (C := fun _ _ => True)
      (P := fun tr s => .sent (some .null) 1 none ∈ tr)
      [.go, .change, .condition (.value true), .coTake, .coTake, .coGo, .ret .body .null, .take 0,
        .coTake, .take 0]
      (s := start false) ⟨false, rfl⟩ (by decide +kernel)
    refine ⟨tr, s, h, hp, fun hc => ?_⟩
    exact absurd (hc.right _ hp).2.1 (by decide)
  · obtain ⟨tr, s, h, hp⟩ := Machine.exists_run (M := machine) (C := fun _ _ => True)
      (P := fun tr s => (s.i_eventQueue = [] ∧ s.co.i_eventQueue = [] ∧ s.running = 0 ∧
        s.body = .zom ∧ s.handler = .none ∧ s.co.i_state = .ZOM ∧ s.i_state = .FIN_START_WAIT) ∧
        tr.countP CatchObs.isSent = 0)
      [.go, .condition (.value false), .coTake, .abort, .take 0, .take 0, .ret .body .null, .take 2,
        .coTake, .take 0, .take 0, .zom .body]
      (s := start false) ⟨false, rfl⟩ (by decide +kernel)
    obtain ⟨⟨hq, hcq, hrun, hb, hh, hco, hz⟩, hsent⟩ := hp
    have hquiet := quiet_of_zom hq hcq hrun hb (by rw [hh]; nofun) hco (by rw [hz]; nofun)
    refine ⟨tr, s, h, ⟨hquiet, hsent⟩, fun hc => ?_⟩
    rw [hc.answers hquiet] at hsent
    cases hsent

end PigCatchAbort

end TinyState.Js
