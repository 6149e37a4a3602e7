import Mathlib.Algebra.Order.Ring.Int
import TinyState.Event
import TinyState.Lib.Machine
import TinyState.Sync.WaitQueue

/-!
# fwIO

The registrations of `fwIO.cpp` and the `select` loop of `arch/posix`. `mu` makes
each critical section one step. Between two of them the loop may be anywhere, and
whoever has a reference to `fwIO` registers, detaches and aborts: other threads,
and the objects to which the loop delivers.
-/

namespace TinyState

open Transition

/-- `fwIOdata`; `id` stands for the address of the object. -/
structure IoData (ω : Type) where
  id : Nat
  type : EventType
  seq : Int
  data : Int
  opt : Int
  obj : ω
  deriving DecidableEq, Repr

/-- `stdEvent`, as `fwIO` makes it. -/
structure IoEvent (ω : Type) where
  type : EventType
  source : ω
  seq : Int
  msg : Int
  deriving DecidableEq, Repr

def IoData.event {ω : Type} (dd : IoData ω) (msg : Int) : IoEvent ω :=
  ⟨dd.type, dd.obj, dd.seq, msg⟩

/-- What becomes of a registration: its object's `eventHandler` is called, or it is
taken away by `detach`, or because its object is in a ZOM state. -/
inductive IoOutcome (ω : Type)
  | event (dd : IoData ω) (ev : IoEvent ω)
  | detached (dd : IoData ω)
  | zom (dd : IoData ω)
  deriving DecidableEq, Repr

def IoOutcome.data {ω : Type} : IoOutcome ω → IoData ω
  | event dd _ | detached dd | zom dd => dd

/-- Where `loop` is. -/
inductive LoopPhase (ω : Type)
  | idle
  | top
  /-- In `select`, with what it has been given; the last tells if there is a time limit. -/
  | select (fdread fdwrite fdexp : List Int) (intr : Bool)
  /-- `select` has returned these. -/
  | selected (fdread fdwrite fdexp : List Int)
  | dispatch (result : List (IoData ω))
  deriving DecidableEq, Repr

/-- A call of `abort`: which of its two loops it is in, and what it has taken out and
not delivered yet. -/
structure AbortCall (ω : Type) where
  fd : Int
  writing : Bool
  ret : Option (IoData ω)
  deriving DecidableEq, Repr

/-- `fwIO`, with what is under way in it. `pipe` is the number of bytes in the pipe,
`zom` tells who is in a ZOM state, and `made` is history: all registrations. -/
structure FwIo (ω : Type) where
  readObjs : StdQueue (IoData ω)
  writeObjs : StdQueue (IoData ω)
  intervalObjs : StdQueue (IoData ω)
  waitFlag : Bool
  pipe : Nat
  refio : Int
  announceMaxfd : Int
  realMaxfd : Int
  seqNo : BitVec 32
  zom : List ω
  loop : LoopPhase ω
  aborts : List (AbortCall ω)
  made : List (IoData ω)

/-- `errno` after `select`. -/
inductive SelectErrno
  | eintr
  | zero
  | eagain
  /-- `fstat` fails for these descriptors. -/
  | ebadf (bad : List Int)
  | other
  deriving DecidableEq, Repr

inductive FwIoAct (ω : Type)
  | read (obj : ω) (fd opt : Int)
  | write (obj : ω) (fd opt : Int)
  | wait (obj : ω) (tm now : Int) (type : EventType)
  | detach (obj : ω) (read write interval : Bool)
  | abort (fd : Int)
  /-- The call `i` of `abort` goes on. -/
  | aborting (i : Nat)
  | addRefio
  | delRefio
  | announce (msg : Int)
  /-- Somebody else draws a number. -/
  | getSeq
  /-- An object goes into a ZOM state. -/
  | becomeZom (obj : ω)
  /-- `loop` is called. -/
  | loop
  /-- The critical section before `select`; `stable` is what `is_stable` says. -/
  | prepare (stable : Bool)
  | select (fdread fdwrite fdexp : List Int)
  | selectFail (errno : SelectErrno)
  /-- The critical section after `select`. -/
  | take (now : Int)
  | dispatch
  deriving DecidableEq, Repr

/-- `FD_SETSIZE`. -/
def fdSetsize : Int := 1024

/-- `FWIO_OPT_ONLY_EXP`. -/
def fwioOptOnlyExp : Int := 1

/-- What is left of a sum in an `INTEGER64`. -/
def int64 (n : Int) : Int := n.bmod (2 ^ 64)

/-- `tinyState_::getSeq`: the number, and what `seqNo` becomes. -/
def getSeq (seqNo : BitVec 32) : Int × BitVec 32 :=
  if seqNo.toInt ≤ 0 then (1, 2) else (seqNo.toInt, seqNo + 1)

namespace FwIo

variable {ω : Type} [DecidableEq ω]

def writePipe (s : FwIo ω) : FwIo ω :=
  if s.waitFlag then s else { s with
    waitFlag := true
    pipe := s.pipe + 1 }

-- ---------------------------------------------------------------------------
-- fwIO.cpp
-- ---------------------------------------------------------------------------

/-- A new `fwIOdata`. -/
def newData (s : FwIo ω) (type : EventType) (obj : ω) (data opt : Int) : IoData ω :=
  ⟨s.made.length, type, (TinyState.getSeq s.seqNo).1, data, opt, obj⟩

/-- The number is drawn, and the registration is remembered. -/
def record (s : FwIo ω) (dd : IoData ω) : FwIo ω :=
  { s with
    seqNo := (TinyState.getSeq s.seqNo).2
    made := s.made ++ [dd] }

/-- A descriptor that does not fit into an `fd_set` makes `read` and `write` panic. -/
def read (s : FwIo ω) (obj : ω) (fd opt : Int) : Option (FwIo ω) :=
  if fd < 0 ∨ fdSetsize ≤ fd then none
  else
    let dd := s.newData .ret obj fd opt
    some { s.record dd with readObjs := s.readObjs.ins fd dd }.writePipe

def write (s : FwIo ω) (obj : ω) (fd opt : Int) : Option (FwIo ω) :=
  if fd < 0 ∨ fdSetsize ≤ fd then none
  else
    let dd := s.newData .ret obj fd opt
    some { s.record dd with writeObjs := s.writeObjs.ins fd dd }.writePipe

def wait (s : FwIo ω) (obj : ω) (tm now : Int) (type : EventType) : FwIo ω :=
  let dd := s.newData type obj (int64 (now + tm)) 0
  { s.record dd with intervalObjs := s.intervalObjs.ins dd.data dd }.writePipe

/-- One of the three loops of `detach`, with what it takes out. -/
def detachFrom (q : StdQueue (IoData ω)) (obj : ω) (flag : Bool) :
    StdQueue (IoData ω) × List (IoData ω) :=
  if flag then (q.delAll fun dd => dd.obj = obj, q.members.filter fun dd => dd.obj = obj)
  else (q, [])

def detach (s : FwIo ω) (obj : ω) (read write interval : Bool) : FwIo ω × List (IoOutcome ω) :=
  let r := detachFrom s.readObjs obj read
  let w := detachFrom s.writeObjs obj write
  let i := detachFrom s.intervalObjs obj interval
  ({ s with
      readObjs := r.1
      writeObjs := w.1
      intervalObjs := i.1 }.writePipe, (r.2 ++ w.2 ++ i.2).map .detached)

/-- The call `i` of `abort` delivers what it has taken out, or takes the next one out,
or goes on to its second loop, or returns. -/
def aborting (s : FwIo ω) (i : Nat) (c : AbortCall ω) : FwIo ω × List (IoOutcome ω) :=
  match c.ret with
  | some dd => ({ s with aborts := s.aborts.set i { c with ret := none } },
      [.event dd (dd.event (-1))])
  | none =>
    match (if c.writing then s.writeObjs else s.readObjs).delIf fun dd => dd.data = c.fd with
    | some (dd, q) =>
      if c.writing then ({ s with
        writeObjs := q
        aborts := s.aborts.set i { c with ret := some dd } }, [])
      else ({ s with
        readObjs := q
        aborts := s.aborts.set i { c with ret := some dd } }, [])
    | none =>
      if c.writing then ({ s with aborts := s.aborts.eraseIdx i }, [])
      else ({ s with aborts := s.aborts.set i { c with writing := true } }, [])

-- ---------------------------------------------------------------------------
-- fwIOarch.cpp
-- ---------------------------------------------------------------------------

def filterZom (zom : List ω) (dd : IoData ω) : Int := if dd.obj ∈ zom then 1 else 0

def filterZom2 (zom : List ω) (dd : IoData ω) : Int := if dd.obj ∈ zom then 1 else -1

/-- Who is in a ZOM state loses what it has registered. -/
def filterZoms (s : FwIo ω) : FwIo ω × List (IoOutcome ω) :=
  let r := s.readObjs.move (filterZom s.zom)
  let w := s.writeObjs.move (filterZom s.zom)
  let i := s.intervalObjs.move (filterZom2 s.zom)
  ({ s with
      readObjs := r.1
      writeObjs := w.1
      intervalObjs := i.1 }, (r.2 ++ w.2 ++ i.2).map .zom)

/-- `ts_io_get_maxfd`, what it puts into `fsp` and into `fexp`. -/
def fsp (q : StdQueue (IoData ω)) : List Int :=
  (q.members.filter fun dd => dd.opt ≠ fwioOptOnlyExp).map IoData.data

def fexp (q : StdQueue (IoData ω)) : List Int := q.members.map IoData.data

def maxfd (m : Int) (q : StdQueue (IoData ω)) : Int :=
  q.members.foldl (fun m dd => if m ≤ dd.data then dd.data + 1 else m) m

/-- `ts_io_get_interval_minimal`, over the queue. -/
def getIntervalMinimal : Option (IoData ω) → List (IoData ω) → Option (IoData ω)
  | ptr, [] => ptr
  | none, dd :: rest => getIntervalMinimal (some dd) rest
  | some ptr, dd :: rest =>
    if dd.data < ptr.data then getIntervalMinimal (some dd) rest
    else if ptr.data < dd.data then some ptr
    else getIntervalMinimal (some ptr) rest

/-- The loop looks what there is to wait for: it tells the application, returns, waits
for the collector, or goes into `select`. -/
def await (s : FwIo ω) (pfd : Int) (stable : Bool) : FwIo ω :=
  let ptr := getIntervalMinimal none s.intervalObjs.members
  let count : Int := s.readObjs.members.length + s.writeObjs.members.length
  let s := { s with realMaxfd := if ptr.isSome then count + s.announceMaxfd + 1 else count }
  if s.realMaxfd = s.announceMaxfd ∧ ptr = none then { s with loop := .top }
  else if maxfd (maxfd 0 s.readObjs) s.writeObjs = 0 ∧ ptr = none ∧ s.refio = 0 then
    if stable then { s with loop := .idle }
    else { s with
      waitFlag := false
      loop := .top }
  else { s with
    waitFlag := false
    loop := .select (pfd :: fsp s.readObjs) (fsp s.writeObjs)
      (pfd :: (fexp s.readObjs ++ fexp s.writeObjs)) ptr.isSome }

/-- `EBADF` makes the loop panic where a bad descriptor is registered. -/
def badRegistered (s : FwIo ω) (fdread fdwrite fdexp bad : List Int) : Bool :=
  bad.any fun fd =>
    (fd ∈ fdread && fd ∈ fexp s.readObjs) || (fd ∈ fdwrite && fd ∈ fexp s.writeObjs) ||
      (fd ∈ fdexp && (fd ∈ fexp s.readObjs || fd ∈ fexp s.writeObjs))

/-- `select` has returned -1. -/
def selectFail (s : FwIo ω) (fdread fdwrite fdexp : List Int) : SelectErrno → Option (FwIo ω)
  | .eintr | .zero | .eagain => some { s with loop := .top }
  | .ebadf bad =>
    if s.badRegistered fdread fdwrite fdexp bad then none else some { s with loop := .top }
  | .other => some { s with loop := .idle }

/-- Is a descriptor reported? -/
def isset (fds fdexp : List Int) (dd : IoData ω) : Bool := dd.data ∈ fds || dd.data ∈ fdexp

/-- The loop over `read_objs`, and that over `write_objs`: what goes into `q`, and what
goes into `result`. -/
def pick (fds fdexp : List Int) :
    List (IoData ω) → List Int → List (IoData ω) × List (IoData ω)
  | [], _ => ([], [])
  | dd :: rest, target =>
    if isset fds fdexp dd = false then
      (dd :: (pick fds fdexp rest target).1, (pick fds fdexp rest target).2)
    else if dd.data ∈ target then pick fds fdexp rest target
    else ((pick fds fdexp rest (dd.data :: target)).1,
      dd :: (pick fds fdexp rest (dd.data :: target)).2)

/-- A new queue into which these have been put with `MAX_INTEGER64`. -/
def queueOf (l : List (IoData ω)) : StdQueue (IoData ω) := ⟨l.map fun dd => (maxInteger64, dd), false⟩

/-- What `select` has reported is taken out. -/
def takeReady (s : FwIo ω) (fdread fdwrite fdexp : List Int) : FwIo ω × List (IoData ω) :=
  if 0 < (fdread ++ fdwrite ++ fdexp).length then
    let r := pick fdread fdexp s.readObjs.members []
    let w := pick fdwrite fdexp s.writeObjs.members []
    ({ s with
        readObjs := queueOf r.1
        writeObjs := queueOf w.1 }, r.2 ++ w.2)
  else (s, [])

/-- What is due is taken out. -/
def takeDue (s : FwIo ω) (now : Int) : FwIo ω × List (IoData ω) :=
  ({ s with intervalObjs := { s.intervalObjs with
      list := s.intervalObjs.list.dropWhile fun el => el.2.data ≤ now } },
    s.intervalObjs.members.takeWhile fun dd => dd.data ≤ now)

def take (s : FwIo ω) (fdread fdwrite fdexp : List Int) (now : Int) : FwIo ω :=
  let r := { s with
    waitFlag := true
    pipe := 0 }.takeReady fdread fdwrite fdexp
  let i := r.1.takeDue now
  { i.1 with loop := .dispatch (r.2 ++ i.2) }

def step (pfd : Int) (s : FwIo ω) : FwIoAct ω → Option (FwIo ω × List (IoOutcome ω))
  | .read obj fd opt => (s.read obj fd opt).map fun s => (s, [])
  | .write obj fd opt => (s.write obj fd opt).map fun s => (s, [])
  | .wait obj tm now type => some (s.wait obj tm now type, [])
  | .detach obj read write interval => some (s.detach obj read write interval)
  | .abort fd => some ({ s with aborts := s.aborts ++ [⟨fd, false, none⟩] }, [])
  | .aborting i => s.aborts[i]?.map (s.aborting i)
  | .addRefio => some ({ s with refio := s.refio + 1 }, [])
  | .delRefio =>
    some ({ s with refio := if s.refio - 1 < 0 then 0 else s.refio - 1 }.writePipe, [])
  | .announce msg => some ({ s with announceMaxfd := msg }, [])
  | .getSeq => some ({ s with seqNo := (TinyState.getSeq s.seqNo).2 }, [])
  | .becomeZom obj => some ({ s with zom := obj :: s.zom }, [])
  | .loop =>
    if s.loop = .idle then some ({ s with
      waitFlag := true
      loop := .top }, [])
    else none
  | .prepare stable =>
    if s.loop = .top then some ((s.filterZoms.1.await pfd stable), s.filterZoms.2) else none
  | .select fdread fdwrite fdexp =>
    match s.loop with
    | .select r w e intr =>
      if (∀ fd ∈ fdread, fd ∈ r) ∧ (∀ fd ∈ fdwrite, fd ∈ w) ∧ (∀ fd ∈ fdexp, fd ∈ e) ∧
          (fdread ++ fdwrite ++ fdexp = [] → intr = true) then
        some ({ s with loop := .selected fdread fdwrite fdexp }, [])
      else none
    | _ => none
  | .selectFail errno =>
    match s.loop with
    | .select r w e _ => (s.selectFail r w e errno).map fun s => (s, [])
    | _ => none
  | .take now =>
    match s.loop with
    | .selected r w e => some (s.take r w e now, [])
    | _ => none
  | .dispatch =>
    match s.loop with
    | .dispatch [] => some ({ s with loop := .top }, [])
    | .dispatch (ok :: result) =>
      some ({ s with loop := .dispatch result }, [.event ok (ok.event ok.data)])
    | _ => none

/-- After the constructor. -/
def initial (ω : Type) : FwIo ω where
  readObjs := ⟨[], false⟩
  writeObjs := ⟨[], false⟩
  intervalObjs := ⟨[], false⟩
  waitFlag := false
  pipe := 0
  refio := 0
  announceMaxfd := -1
  realMaxfd := 0
  seqNo := 0
  zom := []
  loop := .idle
  aborts := []
  made := []

def machine (ω : Type) [DecidableEq ω] (pfd : Int) :
    Machine (FwIo ω) (FwIoAct ω) (IoOutcome ω) where
  init s := s = initial ω
  step := step pfd

end FwIo

end TinyState
