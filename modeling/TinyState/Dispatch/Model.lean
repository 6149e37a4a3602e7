import TinyState.Event
import TinyState.StateWord

/-!
# One call of `eventHandler`

`tinyState_::eventHandler` as the steps of one call on its object. A step is a
stretch of the function between two points at which another thread can be
seen: taking or giving back the object's lock `lm`, and every call that leaves
the object (the filter, a state function, the listeners, the pool).

Inside the lock the function is cut at the heads of its loops as well; since
`lm` is held there, no other call can come between.

The filter answers an event with an event or with `thNULL`. An exception is
its answer only to the `thNULL` by which `inherit` asks whether the class has
a filter; `eventHandler` never passes that, and has no `catch` around it.
-/

namespace TinyState

/-- Stands for the address of a `stdThreadInfo`. -/
abbrev ThrId := Nat

/-- The fields of `tinyState_` that the dispatcher reads or writes. `lm` names
the call that holds the lock, out of the calls `ι`. -/
structure Obj (ι : Type) where
  lm : Option ι
  state : TsTrans
  stateLock : Bool
  invokeStateFlag : Bool
  enterZom : Bool
  mtxLockFlag : Bool
  thrQueueingFlag : Bool
  onlyOneEventOccur : BitVec 64
  que : Option (List StdEvent)
  thrInfo : Option ThrId
  filterLock : Bool
  /-- `application` is not `thNULL`. -/
  application : Bool

namespace Obj

variable {ι : Type}

/-- The object as `inherit` leaves it, before it sends `TSE_INIT`. -/
def inherit (T : StateTable) (filterLock : Bool) : Obj ι where
  lm := none
  state := T.INI_START
  stateLock := false
  invokeStateFlag := false
  enterZom := false
  mtxLockFlag := false
  thrQueueingFlag := false
  onlyOneEventOccur := 0#64
  que := some []
  thrInfo := none
  filterLock := filterLock
  application := true

/-- `que->ins(MAX_INTEGER64,ev)`. -/
def queIns (o : Obj ι) (ev : StdEvent) : Obj ι := { o with que := o.que.map (· ++ [ev]) }

/-- `_insEvent` puts the event into the queue: its type may occur there more
than once, or does not occur yet. -/
def Inserts (o : Obj ι) (ev : StdEvent) : Prop :=
  tseEvm ev.type &&& onlyOneEventMask = 0#64 ∨ o.onlyOneEventOccur &&& tseEvm ev.type = 0#64

instance (o : Obj ι) (ev : StdEvent) : Decidable (o.Inserts ev) := by
  unfold Inserts
  infer_instance

def insEvent (o : Obj ι) (ev : StdEvent) : Obj ι :=
  if tseEvm ev.type &&& onlyOneEventMask = 0#64 then o.queIns ev
  else if o.onlyOneEventOccur &&& tseEvm ev.type = 0#64 then
    { o with onlyOneEventOccur := o.onlyOneEventOccur ||| tseEvm ev.type }.queIns ev
  else o

def delEvent (o : Obj ι) : Option StdEvent × Obj ι :=
  match o.que with
  | some (ev :: q) => (some ev,
      { o with que := some q, onlyOneEventOccur := o.onlyOneEventOccur &&& ~~~ tseEvm ev.type })
  | _ => (none, o)

def invokeCheck (o : Obj ι) : Option TsTrans → Obj ι
  | none => o
  | some s =>
    if o.state = s then o
    else { o with
      enterZom := o.enterZom || (!o.state.isZom && s.isZom)
      state := s
      invokeStateFlag := true }

end Obj

/-- Where a call of `eventHandler` stands. -/
inductive Pc
  /-- Before the test of the depth and the lock. -/
  | enter
  /-- In `gc->exe(ifThis,ev)`. -/
  | escaping
  /-- Head of the loop that takes events off the queue. -/
  | next
  /-- `lm` is released, `application->mtx` not yet taken for the filter. -/
  | filterLock (ev : StdEvent)
  | filtering (ev : StdEvent)
  /-- The filter has answered; `lm` not yet taken back. -/
  | filtered (r : Option StdEvent)
  /-- Head of the loop over `rDO`. -/
  | eval (ev : StdEvent)
  /-- Before `appMtxLock` of a `TS_STATE`. -/
  | callState (ev : StdEvent)
  | inState (ev : StdEvent)
  /-- Before `appMtxUnlock` of a `TS_THREAD`. -/
  | callThread (ev : StdEvent)
  | inThread (ev : StdEvent)
  /-- The state function is over; `lm` not yet taken back. -/
  | back (ev : StdEvent) (w : StateWord)
  | result (ev : StdEvent) (w : StateWord)
  /-- The inner loop is over: is the queue empty? -/
  | drain
  | leave
  /-- `invoke_state`, after the lock. -/
  | notify
  /-- `th->ins(ifThis)`, when `do_ins` is set. -/
  | handoff
  | returned
  deriving DecidableEq, Repr

/-- `lm` is held. -/
def Pc.critical : Pc → Bool
  | .next | .eval _ | .result .. | .drain | .leave => true
  | _ => false

/-- The call is the one that has set `state_lock`. -/
def Pc.owns : Pc → Bool
  | .next | .filterLock _ | .filtering _ | .filtered _ | .eval _ | .callState _ | .inState _
  | .callThread _ | .inThread _ | .back .. | .result .. | .drain | .leave => true
  | _ => false

/-- A state function of the object is running. -/
def Pc.inFunc : Pc → Bool
  | .inState _ | .inThread _ => true
  | _ => false

/-- What an evaluation of the state finds: a `TS_STATE`, a `TS_THREAD` and its
worker, or a `TS_THREAD` and no worker. -/
inductive Found
  | state | thread | noWorker
  deriving DecidableEq, Repr

/-- The parameters and locals of a call. The last two fields are history: the
event at hand has been passed to a state function; what the call's last
evaluation found. -/
structure Call where
  pc : Pc
  ev : StdEvent
  thrInfo : Option ThrId
  doIns : Bool
  seen : Bool
  last : Option Found

def Call.enter (ev : StdEvent) (thrInfo : Option ThrId) : Call :=
  ⟨.enter, ev, thrInfo, false, false, none⟩

/-- What a call does outside its own steps. -/
inductive CallAct
  /-- The next step of the function itself. -/
  | go
  /-- The depth is found to be over the limit. -/
  | escape
  | filterRet (r : Option StdEvent)
  | funcRet (r : Outcome)
  /-- The state function calls `delEvent`. -/
  | delEvent
  /-- The state function is `ZOM_TINYSTATE_LAST2` and drops the queue. -/
  | dropQueue
  deriving DecidableEq, Repr

/-- What a step does to things other than the object: the application mutex
and the pool. -/
inductive Effect
  | none | mtxLock | mtxUnlock | poolIns
  deriving DecidableEq, Repr

/-- What is seen of a call. -/
inductive Obs (ι : Type)
  /-- The event is put into the queue. -/
  | accept (c : ι) (ev : StdEvent)
  /-- One of its type is there already. -/
  | coalesce (c : ι) (ev : StdEvent)
  | dequeue (c : ι) (ev : StdEvent)
  /-- The dequeued event has passed the filter. -/
  | fetch (c : ι) (ev : StdEvent)
  /-- A state function is called with the event. -/
  | invoke (c : ι) (ev : StdEvent)
  /-- The loop over `rDO` is over and the event is let go. -/
  | discard (c : ι) (ev : StdEvent)
  deriving DecidableEq, Repr

/-- The outcome of one step of a call. -/
structure Stepped (ι : Type) where
  obj : Obj ι
  call : Call
  eff : Effect := .none
  obs : List (Obs ι) := []

namespace Call

variable {ι : Type} (T : StateTable) (c : ι) (o : Obj ι) (k : Call)

/-- The critical section that admits an event: the test for a dead object,
`_insEvent`, and the test of `state_lock`. -/
def admission : Stepped ι :=
  if o.state.isZom then ⟨o, { k with pc := .returned }, .none, []⟩
  else
    let ins := o.insEvent k.ev
    let seen := [if o.Inserts k.ev then .accept c k.ev else .coalesce c k.ev]
    if o.stateLock then
      -- a worker that finds the object busy gives its claim back
      ⟨if k.thrInfo.isSome then { ins with thrQueueingFlag := false } else ins,
        { k with pc := .returned }, .none, seen⟩
    else
      ⟨{ ins with lm := some c, stateLock := true, thrInfo := k.thrInfo },
        { k with pc := .next }, .none, seen⟩

/-- One turn of the loop over the queue. -/
def fetchNext : Stepped ι :=
  match o.delEvent with
  | (none, o) => ⟨o, { k with pc := .drain }, .none, []⟩
  | (some ev, o) =>
    if o.filterLock then
      ⟨{ o with lm := none }, { k with pc := .filterLock ev }, .none, [.dequeue c ev]⟩
    else ⟨o, { k with pc := .eval ev, seen := false }, .none, [.dequeue c ev, .fetch c ev]⟩

/-- The choice of what to run, at the head of the loop over `rDO`. -/
def evalState (ev : StdEvent) : Stepped ι :=
  if !o.state.func then ⟨o, { k with pc := .result ev (.go T.ERR_START) }, .none, []⟩
  else if !o.state.thr then
    ⟨{ o with thrQueueingFlag := false, lm := none },
      { k with pc := .callState ev, last := some .state }, .none, []⟩
  else if o.thrInfo.isNone then
    ⟨{ o with thrQueueingFlag := true },
      { k with pc := .result ev .stay, doIns := k.doIns || !o.thrQueueingFlag,
               last := some .noWorker }, .none, []⟩
  else
    ⟨{ o with thrQueueingFlag := false, lm := none },
      { k with pc := .callThread ev, last := some .thread }, .none, []⟩

/-- `appMtxLock`, and the call of a `TS_STATE` function. -/
def enterState (ev : StdEvent) : Stepped ι :=
  ⟨{ o with mtxLockFlag := true }, { k with pc := .inState ev, seen := true },
    if o.mtxLockFlag then .none else .mtxLock, [.invoke c ev]⟩

/-- `appMtxUnlock`, and the call of a `TS_THREAD` function. -/
def enterThread (ev : StdEvent) : Stepped ι :=
  ⟨{ o with mtxLockFlag := false }, { k with pc := .inThread ev, seen := true },
    if o.mtxLockFlag then .mtxUnlock else .none, [.invoke c ev]⟩

/-- What becomes of the value of a state function. -/
def takeResult (ev : StdEvent) (w : StateWord) : Stepped ι :=
  if w = .rest T.ZOM then
    ⟨o.invokeCheck w.state, { k with pc := .drain }, .none, [.discard c ev]⟩
  else if w.rDO then ⟨o.invokeCheck w.state, { k with pc := .eval ev }, .none, []⟩
  else ⟨o.invokeCheck w.state, { k with pc := .next }, .none, [.discard c ev]⟩

/-- The end of the critical section. -/
def leaveSection : Stepped ι :=
  ⟨{ o with mtxLockFlag := false, thrInfo := none, stateLock := false, lm := none,
            application := o.application && !decide (o.state = T.ZOM) },
    { k with pc := .notify }, if o.mtxLockFlag then .mtxUnlock else .none, []⟩

/-- One step of a call. `none`: the step is not possible there, because the
call waits for `lm` or stands elsewhere. -/
def step : CallAct → Option (Stepped ι)
  | .go =>
    match k.pc with
    | .enter => if o.lm.isNone then some (admission c o k) else none
    | .escaping => some ⟨o, { k with pc := .returned }, .none, []⟩
    | .next => some (fetchNext c o k)
    | .filterLock ev => some ⟨o, { k with pc := .filtering ev }, .mtxLock, []⟩
    | .filtered none =>
      if o.lm.isNone then some ⟨{ o with lm := some c }, { k with pc := .drain }, .none, []⟩
      else none
    | .filtered (some ev) =>
      if o.lm.isNone then
        some ⟨{ o with lm := some c }, { k with pc := .eval ev, seen := false }, .none, [.fetch c ev]⟩
      else none
    | .eval ev => some (evalState T o k ev)
    | .callState ev => some (enterState c o k ev)
    | .callThread ev => some (enterThread c o k ev)
    | .back ev w =>
      if o.lm.isNone then some ⟨{ o with lm := some c }, { k with pc := .result ev w }, .none, []⟩
      else none
    | .result ev w => some (takeResult T c o k ev w)
    | .drain =>
      if o.que.getD [] = [] then some ⟨o, { k with pc := .leave }, .none, []⟩
      else some ⟨o, { k with pc := .next }, .none, []⟩
    | .leave => some (leaveSection T o k)
    | .notify =>
      some ⟨{ o with invokeStateFlag := false },
        { k with pc := if k.doIns then .handoff else .returned }, .none, []⟩
    | .handoff =>
      some ⟨o, { k with pc := .returned, doIns := false },
        if o.application then .poolIns else .none, []⟩
    | .filtering _ | .inState _ | .inThread _ | .returned => none
  | .escape =>
    if k.pc = .enter ∧ k.thrInfo = none then some ⟨o, { k with pc := .escaping }, .none, []⟩
    else none
  | .filterRet r =>
    match k.pc with
    | .filtering _ => some ⟨o, { k with pc := .filtered r }, .mtxUnlock, []⟩
    | _ => none
  | .funcRet r =>
    match k.pc with
    | .inState ev | .inThread ev => some ⟨o, { k with pc := .back ev (r.word T) }, .none, []⟩
    | _ => none
  | .delEvent =>
    if k.pc.inFunc ∧ o.lm.isNone then
      match o.delEvent with
      | (some ev, o) => some ⟨o, k, .none, [.dequeue c ev]⟩
      | (none, o) => some ⟨o, k, .none, []⟩
    else none
  | .dropQueue =>
    if k.pc.inFunc ∧ o.state = T.ZOM_TINYSTATE_LAST2 then
      some ⟨{ o with que := none, invokeStateFlag := false }, k, .none, []⟩
    else none

end Call

end TinyState
