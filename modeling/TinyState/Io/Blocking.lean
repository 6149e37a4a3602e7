import TinyState.Io.Registration

/-!
# Blocking operations

`THR_CATCH` around the operations of `ts2IOdescriptor` and `ts2IOsocket`, on Linux. An operation
that would block registers at `fwIO` and throws. Its thread waits for an event of the
`tinyState`, and then a predicate that the exception carries tells if it tries again.
-/

namespace TinyState

open Transition

-- ---------------------------------------------------------------------------
-- Operations
-- ---------------------------------------------------------------------------

/-- `read_objs` or `write_objs`. -/
inductive IoDirection
  | read
  | write
  deriving DecidableEq, Repr

/-- What a system call answers. -/
inductive SysAnswer
  | done (er : Nat)
  | eintr
  | eagain
  | error (errno : Nat)
  deriving DecidableEq, Repr

/-- How an operation ends: `err` is set where it fails. Where it throws, it has registered, and
the predicate says no as long as the caller has a registration that it asks for. -/
inductive IoAttempt
  | ret (er : Int) (err : Option Nat)
  | throw (registers asks : IoDirection)
  deriving DecidableEq, Repr

def EBADF : Nat := 9

def EINTR : Nat := 4

/-- The loop of an operation over the answers: nothing while it goes on. -/
def attempt (registers asks : IoDirection) : List SysAnswer → Option IoAttempt
  | [] => none
  | .done er :: _ => some (.ret er none)
  | .eintr :: answers => attempt registers asks answers
  | .eagain :: _ => some (.throw registers asks)
  | .error errno :: _ => some (.ret (-1) (some errno))

/-- An operation of an object, which may be in a ZOM or FIN state. -/
def operation (registers asks : IoDirection) (closed : Bool) (answers : List SysAnswer) :
    Option IoAttempt :=
  if closed then some (.ret (-1) (some EBADF)) else attempt registers asks answers

namespace Ts2IOdescriptor

def read := operation .read .read

def write := operation .write .write

end Ts2IOdescriptor

namespace Ts2IOsocket

-- `io->write` and `!io->is_read`
def sendto := operation .write .read

def recvfrom := operation .read .read

-- `io->write` and `!io->is_read`
def sendmmsg := operation .write .read

def recvmmsg := operation .read .read

end Ts2IOsocket

inductive IoOperation
  | read
  | write
  | sendto
  | recvfrom
  | sendmmsg
  | recvmmsg
  deriving DecidableEq, Repr

def IoOperation.run : IoOperation → Bool → List SysAnswer → Option IoAttempt
  | read => Ts2IOdescriptor.read
  | write => Ts2IOdescriptor.write
  | sendto => Ts2IOsocket.sendto
  | recvfrom => Ts2IOsocket.recvfrom
  | sendmmsg => Ts2IOsocket.sendmmsg
  | recvmmsg => Ts2IOsocket.recvmmsg

-- ---------------------------------------------------------------------------
-- Threads
-- ---------------------------------------------------------------------------

/-- The thread of a `tinyState`, and where it is in `THR_CATCH`. `dd` is what its own attempt has
registered, `err` what is returned when it is interrupted. -/
inductive IoThread (ω : Type)
  /-- It is in no `TS_THREAD` state. -/
  | idle
  | running
  | trying (op : IoOperation) (fd err : Int)
  /-- In `thrInfo->wait()`. -/
  | waiting (op : IoOperation) (fd err : Int) (dd : IoData ω) (asks : IoDirection)
  | woken (op : IoOperation) (fd err : Int) (dd : IoData ω) (asks : IoDirection)
  deriving DecidableEq, Repr

/-- What the thread has registered and not decided about. -/
def IoThread.own {ω : Type} : IoThread ω → Option (IoData ω)
  | idle | running | trying .. => none
  | waiting _ _ _ dd _ | woken _ _ _ dd _ => some dd

structure BlockingIo (ω : Type) where
  io : FwIo ω
  thread : ω → IoThread ω
  signal_flag : ω → Bool

inductive BlockingAct (ω : Type)
  /-- Whoever uses `fwIO` goes on, or its loop. -/
  | io (a : FwIoAct ω)
  /-- The `tinyState` gets an event of another kind. -/
  | event (obj : ω)
  | start (obj : ω)
  | finish (obj : ω)
  | call (obj : ω) (op : IoOperation) (fd err : Int)
  | attempt (obj : ω) (closed : Bool) (answers : List SysAnswer)
  /-- `wait` returns. -/
  | wake (obj : ω)
  /-- `is_ready` is asked. -/
  | decide (obj : ω)
  deriving DecidableEq, Repr

inductive BlockingObs (ω : Type)
  | io (o : IoOutcome ω)
  | ret (obj : ω) (er : Int) (err : Option Nat)
  /-- The operation is tried again. -/
  | retry (obj : ω) (dd : IoData ω)
  /-- The operation has returned `er`, with an `errno`. -/
  | interrupt (obj : ω) (dd : IoData ω) (er : Int) (errno : Nat)
  deriving DecidableEq, Repr

namespace FwIo

variable {ω : Type} [DecidableEq ω]

def queue (s : FwIo ω) : IoDirection → StdQueue (IoData ω)
  | .read => s.readObjs
  | .write => s.writeObjs

/-- `is_read` and `is_write` -/
def isRegistered (s : FwIo ω) (d : IoDirection) (obj : ω) : Bool :=
  (s.queue d).members.any fun dd => dd.obj = obj

def register (s : FwIo ω) : IoDirection → ω → Int → Option (FwIo ω)
  | .read, obj, fd => s.read obj fd 0
  | .write, obj, fd => s.write obj fd 0

end FwIo

namespace BlockingIo

variable {ω : Type} [DecidableEq ω]

/-- `_insEvent` signals the thread. -/
def signal (s : BlockingIo ω) (obj : ω) : BlockingIo ω :=
  if s.thread obj = .idle then s
  else { s with signal_flag := Function.update s.signal_flag obj true }

/-- What happened at `fwIO` signals whoever gets an event. -/
def signals (s : BlockingIo ω) : List (IoOutcome ω) → BlockingIo ω
  | [] => s
  | .event dd _ :: os => (s.signal dd.obj).signals os
  | _ :: os => s.signals os

def setThread (s : BlockingIo ω) (obj : ω) (th : IoThread ω) : BlockingIo ω :=
  { s with thread := Function.update s.thread obj th }

/-- A `TS_THREAD` state is no ZOM state. -/
def allows (s : BlockingIo ω) : FwIoAct ω → Prop
  | .becomeZom obj => s.thread obj = .idle
  | _ => True

instance (s : BlockingIo ω) (a : FwIoAct ω) : Decidable (s.allows a) := by
  cases a <;> unfold allows <;> infer_instance

def step (pfd : Int) (s : BlockingIo ω) :
    BlockingAct ω → Option (BlockingIo ω × List (BlockingObs ω))
  | .io a =>
    if s.allows a then
      (s.io.step pfd a).map fun (io, os) => ({ s with io := io }.signals os, os.map .io)
    else none
  | .event obj => some (s.signal obj, [])
  | .start obj =>
    if s.thread obj = .idle ∧ obj ∉ s.io.zom then some (s.setThread obj .running, []) else none
  | .finish obj =>
    if s.thread obj = .running then some (s.setThread obj .idle, []) else none
  | .call obj op fd err =>
    if s.thread obj = .running then some (s.setThread obj (.trying op fd err), []) else none
  | .attempt obj closed answers =>
    match s.thread obj with
    | .trying op fd err =>
      match op.run closed answers with
      | some (.ret er errno) => some (s.setThread obj .running, [.ret obj er errno])
      | some (.throw registers asks) =>
        (s.io.register registers obj fd).map fun io =>
          ({ s with io := io }.setThread obj
            (.waiting op fd err (s.io.newData .ret obj fd 0) asks), [])
      | none => none
    | _ => none
  | .wake obj =>
    match s.thread obj with
    | .waiting op fd err dd asks =>
      if s.signal_flag obj then
        some ({ s with signal_flag := Function.update s.signal_flag obj false }.setThread obj
          (.woken op fd err dd asks), [])
      else none
    | _ => none
  | .decide obj =>
    match s.thread obj with
    | .woken op fd err dd asks =>
      if s.io.isRegistered asks obj then
        some (s.setThread obj .running, [.interrupt obj dd err EINTR])
      else some (s.setThread obj (.trying op fd err), [.retry obj dd])
    | _ => none

def machine (ω : Type) [DecidableEq ω] (pfd : Int) :
    Machine (BlockingIo ω) (BlockingAct ω) (BlockingObs ω) where
  init s := s = ⟨FwIo.initial ω, fun _ => .idle, fun _ => false⟩
  step := step pfd

end BlockingIo

-- ---------------------------------------------------------------------------
-- Steps of fwIO
-- ---------------------------------------------------------------------------

namespace FwIo

variable {ω : Type} [DecidableEq ω] {s t : FwIo ω} {os : List (IoOutcome ω)} {pfd : Int}

/-- Nobody goes into a ZOM state or loses a registration unasked. -/
structure Tame (s t : FwIo ω) (a : FwIoAct ω) (os : List (IoOutcome ω)) : Prop where
  zom : ∀ obj ∈ t.zom, obj ∈ s.zom ∨ a = .becomeZom obj
  detached : ∀ dd, .detached dd ∈ os → ∃ r w i, a = .detach dd.obj r w i

omit [DecidableEq ω] in
theorem Tame.same {a : FwIoAct ω} (hz : t.zom = s.zom) (hos : ∀ dd, .detached dd ∉ os) :
    Tame s t a os where
  zom _ h := .inl (hz ▸ h)
  detached dd h := absurd h (hos dd)

omit [DecidableEq ω] in
@[simp]
theorem writePipe_zom (s : FwIo ω) : s.writePipe.zom = s.zom := by
  obtain ⟨waitFlag, pipe, he⟩ := s.writePipe_frame
  rw [he]

omit [DecidableEq ω] in
@[simp]
theorem writePipe_made (s : FwIo ω) : s.writePipe.made = s.made := by
  obtain ⟨waitFlag, pipe, he⟩ := s.writePipe_frame
  rw [he]

theorem step_tame {a : FwIoAct ω} (hs : s.step pfd a = some (t, os)) : Tame s t a os := by
  cases a with
  | read obj fd opt | write obj fd opt =>
    obtain ⟨u, hu, he⟩ := Option.map_eq_some_iff.mp hs
    cases he
    obtain ⟨-, he⟩ := Option.ite_none_left_eq_some.mp hu
    cases he
    exact .same (writePipe_zom _) (by simp)
  | wait obj tm now type =>
    cases hs
    exact .same (writePipe_zom _) (by simp)
  | detach obj read write interval =>
    cases hs
    refine ⟨fun o ho => .inl (by simpa [detach] using ho), fun dd h => ?_⟩
    have hobj : ∀ (q : StdQueue (IoData ω)) flag, ∀ x ∈ (detachFrom q obj flag).2, x.obj = obj := by
      intro q flag x hx
      cases flag with
      | false => cases hx
      | true => simpa using (List.mem_filter.mp hx).2
    obtain ⟨x, hx, he⟩ := List.mem_map.mp h
    cases he
    refine ⟨read, write, interval, ?_⟩
    simp only [List.mem_append] at hx
    rcases hx with (hx | hx) | hx <;> rw [hobj _ _ _ hx]
  | aborting i =>
    obtain ⟨c, hc, he⟩ := Option.map_eq_some_iff.mp hs
    rw [← show (s.aborting i c).1 = t from congrArg Prod.fst he,
      ← show (s.aborting i c).2 = os from congrArg Prod.snd he]
    unfold aborting
    split
    · exact .same rfl (by simp)
    · split <;> split <;> exact .same rfl (by simp)
  | becomeZom obj =>
    cases hs
    refine ⟨fun o ho => ?_, by simp⟩
    rcases List.mem_cons.mp ho with rfl | ho
    · exact .inr rfl
    · exact .inl ho
  | abort _ | addRefio | announce _ | getSeq =>
    cases hs
    exact .same rfl (by simp)
  | delRefio =>
    cases hs
    exact .same (writePipe_zom _) (by simp)
  | loop =>
    obtain ⟨hl, he⟩ := Option.ite_none_right_eq_some.mp hs
    cases he
    exact .same rfl (by simp)
  | prepare stable =>
    obtain ⟨hl, he⟩ := Option.ite_none_right_eq_some.mp hs
    cases he
    obtain ⟨waitFlag, realMaxfd, loop, -, he⟩ := await_frame s.filterZoms.1 pfd stable
    rw [he]
    exact .same rfl (by simp [filterZoms])
  | select fdread fdwrite fdexp =>
    simp only [step] at hs
    split at hs
    · obtain ⟨-, he⟩ := Option.ite_none_right_eq_some.mp hs
      cases he
      exact .same rfl (by simp)
    · cases hs
  | selectFail errno =>
    simp only [step] at hs
    split at hs
    · obtain ⟨u, hu, he⟩ := Option.map_eq_some_iff.mp hs
      cases he
      obtain ⟨loop, rfl, -⟩ := selectFail_frame hu
      exact .same rfl (by simp)
    · cases hs
  | take now =>
    simp only [step] at hs
    split at hs
    · cases hs
      refine .same ?_ (by simp)
      unfold take takeReady
      dsimp only
      split <;> rfl
    · cases hs
  | dispatch =>
    simp only [step] at hs
    split at hs
    · cases hs
      exact .same rfl (by simp)
    · cases hs
      exact .same rfl (by simp)
    · cases hs

end FwIo

namespace BlockingIo

variable {ω : Type} [DecidableEq ω]

-- ---------------------------------------------------------------------------
-- What a decision should say
-- ---------------------------------------------------------------------------

def BlockingObs.outcome : BlockingObs ω → Option (IoOutcome ω)
  | .io o => some o
  | .ret .. | .retry .. | .interrupt .. => none

/-- What has become of registrations. -/
def outcomes (tr : List (BlockingObs ω)) : List (IoOutcome ω) :=
  tr.filterMap BlockingObs.outcome

def Delivered (tr : List (BlockingObs ω)) (dd : IoData ω) : Prop :=
  ∃ ev, .event dd ev ∈ outcomes tr

/-- An operation is tried again exactly if what it registered has been delivered. -/
def Right (tr : List (BlockingObs ω)) : BlockingObs ω → Prop
  | .retry _ dd => Delivered tr dd
  | .interrupt _ dd _ errno => ¬Delivered tr dd ∧ errno = EINTR
  | .io _ | .ret .. => True

/-- No descriptor on which two wait is reported, and nothing is detached that a thread waits
for. -/
def Kept (s : BlockingIo ω) : BlockingAct ω → Prop
  | .io (.detach obj _ _ _) => (s.thread obj).own = none
  | .io a => s.io.Unshared a
  | _ => True

/-- What a thread has registered is in the queue that it asks, or it is held exactly if another
registration of its `tinyState` is there. -/
def Mirrored (s : BlockingIo ω) (obj : ω) : Prop :=
  match s.thread obj with
  | .woken _ _ _ dd asks => dd ∈ (s.io.queue asks).members ∨
      (dd ∈ s.io.held ↔ ∃ r ∈ (s.io.queue asks).members, r.obj = obj)
  | _ => True

instance (s : BlockingIo ω) (obj : ω) : Decidable (s.Mirrored obj) := by
  unfold Mirrored
  split <;> infer_instance

instance (s : BlockingIo ω) (a : BlockingAct ω) : Decidable (s.Kept a) := by
  unfold Kept
  split <;> infer_instance

/-- And before each decision that is so. -/
def Answered (s : BlockingIo ω) (a : BlockingAct ω) : Prop :=
  s.Kept a ∧ match a with
    | .decide obj => s.Mirrored obj
    | _ => True

instance (s : BlockingIo ω) (a : BlockingAct ω) : Decidable (s.Answered a) := by
  unfold Answered
  split <;> infer_instance

-- ---------------------------------------------------------------------------
-- What fwIO does meanwhile
-- ---------------------------------------------------------------------------

variable {s t : BlockingIo ω} {tr : List (BlockingObs ω)} {os : List (BlockingObs ω)} {pfd : Int}
  {a : BlockingAct ω}

theorem signals_frame (s : BlockingIo ω) (os : List (IoOutcome ω)) :
    (s.signals os).io = s.io ∧ (s.signals os).thread = s.thread := by
  induction os generalizing s with
  | nil => exact ⟨rfl, rfl⟩
  | cons o os ih =>
    cases o with
    | event dd ev =>
      have h : (s.signal dd.obj).io = s.io ∧ (s.signal dd.obj).thread = s.thread := by
        unfold signal
        split <;> exact ⟨rfl, rfl⟩
      exact ⟨(ih _).1.trans h.1, (ih _).2.trans h.2⟩
    | detached dd => exact ih s
    | zom dd => exact ih s

omit [DecidableEq ω] in
theorem outcomes_io (os : List (IoOutcome ω)) : outcomes (os.map .io) = os := by
  induction os with
  | nil => rfl
  | cons o os ih => exact congrArg (o :: ·) ih

/-- What the registration of a thread is. -/
def registering : IoDirection → ω → Int → FwIoAct ω
  | .read, obj, fd => .read obj fd 0
  | .write, obj, fd => .write obj fd 0

theorem register_step {io io' : FwIo ω} {d : IoDirection} {obj : ω} {fd : Int}
    (h : io.register d obj fd = some io') :
    io.step pfd (registering d obj fd) = some (io', []) := by
  cases d with
  | read =>
    simp only [FwIo.register] at h
    simp [registering, FwIo.step, h]
  | write =>
    simp only [FwIo.register] at h
    simp [registering, FwIo.step, h]

/-- A thread goes on and leaves `fwIO` alone. -/
structure Quiet (s t : BlockingIo ω) (os : List (BlockingObs ω)) : Prop where
  io : t.io = s.io
  silent : outcomes os = []
  own : ∀ obj dd, (t.thread obj).own = some dd → (s.thread obj).own = some dd
  zom : ∀ obj, t.thread obj ≠ .idle → s.thread obj ≠ .idle ∨ obj ∉ s.io.zom

theorem Quiet.setThread {obj : ω} {th : IoThread ω} {flag : ω → Bool}
    (ho : outcomes os = []) (hown : th.own = none ∨ th.own = (s.thread obj).own)
    (hz : s.thread obj ≠ .idle ∨ obj ∉ s.io.zom) :
    Quiet s ({ s with signal_flag := flag }.setThread obj th) os where
  io := rfl
  silent := ho
  own o dd h := by
    by_cases he : o = obj
    · subst he
      simp only [BlockingIo.setThread, Function.update_self] at h
      rcases hown with hown | hown
      · simp [hown] at h
      · rwa [hown] at h
    · simpa [BlockingIo.setThread, he] using h
  zom o h := by
    by_cases he : o = obj
    · exact he ▸ hz
    · exact .inl (by simpa [BlockingIo.setThread, he] using h)

/-- What a step does: `fwIO` makes a step, a thread registers and waits, or a thread goes on. -/
theorem step_cases (hs : s.step pfd a = some (t, os)) :
    (∃ b os', a = .io b ∧ s.allows b ∧ s.io.step pfd b = some (t.io, os') ∧ t.thread = s.thread ∧
      os = os'.map .io) ∨
    (∃ obj d fd th, s.io.step pfd (registering d obj fd) = some (t.io, []) ∧
      s.thread obj ≠ .idle ∧ t.thread = Function.update s.thread obj th ∧
      th.own = some (s.io.newData .ret obj fd 0) ∧ os = []) ∨
    Quiet s t os := by
  cases a with
  | io b =>
    simp only [step] at hs
    split at hs
    · next hb =>
      obtain ⟨⟨io, os'⟩, hio, he⟩ := Option.map_eq_some_iff.mp hs
      obtain ⟨rfl, rfl⟩ := Prod.mk.inj he
      have hf := signals_frame { s with io := io } os'
      exact .inl ⟨b, os', rfl, hb, by rw [hf.1, hio], hf.2, rfl⟩
    · cases hs
  | event obj =>
    cases hs
    refine .inr (.inr ?_)
    unfold signal
    split
    · exact ⟨rfl, rfl, fun _ _ => id, fun _ => .inl⟩
    · exact ⟨rfl, rfl, fun _ _ => id, fun _ => .inl⟩
  | start obj =>
    obtain ⟨h, he⟩ := Option.ite_none_right_eq_some.mp hs
    cases he
    exact .inr (.inr (.setThread rfl (.inl rfl) (.inr h.2)))
  | finish obj =>
    obtain ⟨h, he⟩ := Option.ite_none_right_eq_some.mp hs
    cases he
    exact .inr (.inr (.setThread rfl (.inl rfl) (.inl (by simp [h]))))
  | call obj op fd err =>
    obtain ⟨h, he⟩ := Option.ite_none_right_eq_some.mp hs
    cases he
    exact .inr (.inr (.setThread rfl (.inl rfl) (.inl (by simp [h]))))
  | attempt obj closed answers =>
    simp only [step] at hs
    split at hs
    · next op fd err hth =>
      split at hs
      · cases hs
        exact .inr (.inr (.setThread rfl (.inl rfl) (.inl (by simp [hth]))))
      · next registers asks _ =>
        obtain ⟨io, hio, he⟩ := Option.map_eq_some_iff.mp hs
        cases he
        exact .inr (.inl ⟨obj, registers, fd, _, register_step hio, by simp [hth], rfl, rfl, rfl⟩)
      · cases hs
    · cases hs
  | wake obj =>
    simp only [step] at hs
    split at hs
    · next op fd err dd asks hth =>
      obtain ⟨-, he⟩ := Option.ite_none_right_eq_some.mp hs
      cases he
      exact .inr (.inr (.setThread rfl (.inr (by simp [hth, IoThread.own]))
        (.inl (by simp [hth]))))
    · cases hs
  | decide obj =>
    simp only [step] at hs
    split at hs
    · next op fd err dd asks hth =>
      split at hs <;> cases hs <;>
        exact .inr (.inr (.setThread rfl (.inl rfl) (.inl (by simp [hth]))))
    · cases hs

/-- Seen from `fwIO`, a run is one of its own. -/
theorem io_run (h : (machine ω pfd).RunIf Kept tr s) :
    (FwIo.machine ω pfd).RunIf FwIo.Unshared (outcomes tr) s.io := by
  refine h.invariant (I := fun tr s =>
    (FwIo.machine ω pfd).RunIf FwIo.Unshared (outcomes tr) s.io) ?_ ?_
  · rintro _ rfl
    exact .start rfl
  intro tr s a t os _ hr hc hs
  simp only [outcomes, List.filterMap_append] at hr ⊢
  rcases step_cases hs with ⟨b, os', rfl, -, hb, -, rfl⟩ | ⟨obj, d, fd, th, hb, -, -, -, rfl⟩ | hq
  · have hos : (os'.map BlockingObs.io).filterMap BlockingObs.outcome = os' := outcomes_io os'
    rw [hos]
    refine hr.step ?_ hb
    cases b <;> first | exact hc | trivial
  · refine hr.step ?_ hb
    cases d <;> trivial
  · have := hq.silent
    rw [outcomes] at this
    rwa [hq.io, this, List.append_nil]

/-- What a thread waits for is its own, in the queue of its direction if in one, and neither
detached nor lost with its object. -/
structure Owned (tr : List (BlockingObs ω)) (s : BlockingIo ω) : Prop where
  awake : ∀ obj, s.thread obj ≠ .idle → obj ∉ s.io.zom
  own : ∀ obj dd, (s.thread obj).own = some dd →
    dd ∈ s.io.made ∧ dd.obj = obj ∧ .detached dd ∉ outcomes tr ∧ .zom dd ∉ outcomes tr

omit [DecidableEq ω] in
theorem IoThread.own_ne_idle {th : IoThread ω} {dd : IoData ω} (h : th.own = some dd) :
    th ≠ .idle := by
  rintro rfl
  cases h

omit [DecidableEq ω] in
theorem outcomes_append (tr os : List (BlockingObs ω)) :
    outcomes (tr ++ os) = outcomes tr ++ outcomes os :=
  List.filterMap_append

omit [DecidableEq ω] in
theorem unshared_of_kept {b : FwIoAct ω} (h : Kept s (.io b)) : s.io.Unshared b := by
  cases b <;> first | exact h | trivial

/-- What a thread registers is new. -/
theorem newData_fresh (h : (machine ω pfd).RunIf Kept tr s) (obj : ω) (fd : Int)
    (o : IoOutcome ω) (ho : o ∈ outcomes tr) : o.data ≠ s.io.newData .ret obj fd 0 := by
  intro he
  have hb := FwIo.custody.balance (io_run h)
  have hm : o.data ∈ s.io.made := hb.mem_iff.mpr (List.mem_append_right _
    (List.mem_filterMap.mpr ⟨o, ho, rfl⟩))
  have hid : o.data.id ∈ List.range s.io.made.length :=
    FwIo.made_id (io_run h) ▸ List.mem_map_of_mem hm
  rw [he, List.mem_range] at hid
  exact Nat.lt_irrefl _ hid

theorem registering_made {d : IoDirection} {obj : ω} {fd : Int} {io : FwIo ω}
    (h : s.io.step pfd (registering d obj fd) = some (io, [])) :
    io.made = s.io.made ++ [s.io.newData .ret obj fd 0] := by
  cases d <;>
  · obtain ⟨u, hu, he⟩ := Option.map_eq_some_iff.mp h
    cases he
    obtain ⟨-, he⟩ := Option.ite_none_left_eq_some.mp hu
    cases he
    exact FwIo.writePipe_made _

theorem owned (h : (machine ω pfd).RunIf Kept tr s) : Owned tr s := by
  refine h.invariant (I := Owned) ?_ ?_
  · rintro _ rfl
    exact ⟨fun obj h => absurd rfl h, fun obj dd h => by cases h⟩
  intro tr s a t os hr hi hc hs
  rcases step_cases hs with ⟨b, os', rfl, hallow, hb, hth, rfl⟩ |
    ⟨obj, d, fd, th, hb, hawake, hth, hown, rfl⟩ | hq
  · have htame := FwIo.step_tame hb
    obtain ⟨new, hmade, -⟩ := (FwIo.step_balanced (unshared_of_kept hc) hb).balance
    refine ⟨fun o ho => ?_, fun o dd ho => ?_⟩
    · rw [hth] at ho
      intro hz
      rcases htame.zom o hz with hz | rfl
      · exact hi.awake o ho hz
      · exact ho hallow
    · rw [hth] at ho
      obtain ⟨hm, hobj, hdet, hzom⟩ := hi.own o dd ho
      rw [outcomes_append, outcomes_io]
      refine ⟨by simp [hmade, hm], hobj, ?_, ?_⟩
      · intro h
        rcases List.mem_append.mp h with h | h
        · exact hdet h
        · obtain ⟨r, w, i, rfl⟩ := htame.detached dd h
          have hc : (s.thread dd.obj).own = none := hc
          rw [hobj, ho] at hc
          cases hc
      · intro h
        rcases List.mem_append.mp h with h | h
        · exact hzom h
        · have hz : dd.obj ∈ s.io.zom := (FwIo.step_sound hb).1 _ h
          exact hi.awake o (IoThread.own_ne_idle ho) (hobj ▸ hz)
  · have hz : ∀ o ∈ t.io.zom, o ∈ s.io.zom := fun o ho =>
      ((FwIo.step_tame hb).zom o ho).resolve_right (by cases d <;> simp [registering])
    have hmade := registering_made hb
    rw [List.append_nil]
    refine ⟨fun o ho => ?_, fun o dd ho => ?_⟩
    · by_cases he : o = obj
      · exact he ▸ fun h => hi.awake obj hawake (hz obj h)
      · rw [hth, Function.update_of_ne he] at ho
        exact fun h => hi.awake o ho (hz o h)
    · by_cases he : o = obj
      · subst he
        rw [hth, Function.update_self, hown] at ho
        cases ho
        refine ⟨by simp [hmade], rfl, fun h => ?_, fun h => ?_⟩
        · exact newData_fresh hr o fd _ h rfl
        · exact newData_fresh hr o fd _ h rfl
      · rw [hth, Function.update_of_ne he] at ho
        obtain ⟨hm, h⟩ := hi.own o dd ho
        exact ⟨by simp [hmade, hm], h⟩
  · have hout : outcomes (tr ++ os) = outcomes tr := by simp [outcomes_append, hq.silent]
    refine ⟨fun o ho => ?_, fun o dd ho => ?_⟩
    swap
    · rw [hq.io, hout]
      exact hi.own o dd (hq.own o dd ho)
    rw [hq.io]
    rcases hq.zom o ho with h | h
    · exact hi.awake o h
    · exact h

/-- What a thread waits for has been delivered as soon as it is not held any more. -/
theorem delivered_iff (h : (machine ω pfd).RunIf Kept tr s) {obj : ω} {dd : IoData ω}
    (ho : (s.thread obj).own = some dd) : Delivered tr dd ↔ dd ∉ s.io.held := by
  obtain ⟨hm, -, hdet, hzom⟩ := (owned h).own obj dd ho
  obtain ⟨-, -, honce⟩ := FwIo.custody.once (io_run h) (FwIo.made_nodup (io_run h))
  rw [honce dd hm, not_not, List.mem_filterMap]
  constructor
  · rintro ⟨ev, he⟩
    exact ⟨_, he, rfl⟩
  · rintro ⟨o, hmem, he⟩
    obtain rfl : o.data = dd := Option.some.inj he
    cases o with
    | event dd ev => exact ⟨ev, hmem⟩
    | detached dd => exact absurd hmem hdet
    | zom dd => exact absurd hmem hzom

omit [DecidableEq ω] in
/-- A registration in a queue is held. -/
theorem held_of_queue {d : IoDirection} {dd : IoData ω} (h : dd ∈ (s.io.queue d).members) :
    dd ∈ s.io.held := by
  cases d with
  | read => exact List.mem_append_left _ (by simp_all [FwIo.registered, FwIo.queue])
  | write => exact List.mem_append_left _ (by simp_all [FwIo.registered, FwIo.queue])

theorem isRegistered_iff {d : IoDirection} {obj : ω} :
    s.io.isRegistered d obj ↔ ∃ r ∈ (s.io.queue d).members, r.obj = obj := by
  simp [FwIo.isRegistered]

/-- A decision is right exactly if what the thread has registered is mirrored. -/
theorem right_iff (h : (machine ω pfd).RunIf Kept tr s) {obj : ω}
    (hs : s.step pfd (.decide obj) = some (t, os)) :
    (∀ o ∈ os, Right tr o) ↔ s.Mirrored obj := by
  simp only [step] at hs
  split at hs
  · next op fd err dd asks hth =>
    have hown : (s.thread obj).own = some dd := by rw [hth]; rfl
    obtain ⟨-, hobj, -⟩ := (owned h).own obj dd hown
    have hd := delivered_iff h hown
    have hm : s.Mirrored obj ↔ (dd ∈ s.io.held ↔ s.io.isRegistered asks obj) := by
      simp only [Mirrored, hth, isRegistered_iff]
      constructor
      · rintro (hq | hm)
        · exact ⟨fun _ => ⟨dd, hq, hobj⟩, fun _ => held_of_queue hq⟩
        · exact hm
      · exact .inr
    rw [hm]
    split at hs
    · next hreg =>
      cases hs
      simp [Right, hd, hreg]
    · next hreg =>
      cases hs
      simp [Right, hd, hreg]
  · cases hs

/-- Only a decision can be wrong. -/
theorem right_of_not_decide (hs : s.step pfd a = some (t, os)) (ha : ∀ obj, a ≠ .decide obj) :
    ∀ o ∈ os, ∀ before, Right before o := by
  cases a with
  | io b =>
    simp only [step] at hs
    split at hs
    · obtain ⟨⟨io, os'⟩, -, he⟩ := Option.map_eq_some_iff.mp hs
      cases he
      intro o ho before
      obtain ⟨o', -, rfl⟩ := List.mem_map.mp ho
      trivial
    · cases hs
  | event obj =>
    cases hs
    exact List.forall_mem_nil _
  | start obj | finish obj | call obj op fd err =>
    obtain ⟨-, he⟩ := Option.ite_none_right_eq_some.mp hs
    cases he
    exact List.forall_mem_nil _
  | attempt obj closed answers =>
    simp only [step] at hs
    split at hs
    · split at hs
      · cases hs
        intro o ho before
        cases List.mem_singleton.mp ho
        trivial
      · obtain ⟨io, -, he⟩ := Option.map_eq_some_iff.mp hs
        cases he
        exact List.forall_mem_nil _
      · cases hs
    · cases hs
  | wake obj =>
    simp only [step] at hs
    split at hs
    · obtain ⟨-, he⟩ := Option.ite_none_right_eq_some.mp hs
      cases he
      exact List.forall_mem_nil _
    · cases hs
  | decide obj => exact absurd rfl (ha obj)

omit [DecidableEq ω] in
theorem justified_append (h : Machine.Justified Right tr)
    (hos : ∀ o ∈ os, ∀ before : List (BlockingObs ω), Right before o) :
    Machine.Justified Right (tr ++ os) := by
  induction os generalizing tr with
  | nil => simpa using h
  | cons o os ih =>
    have h' := h.snoc (hos o List.mem_cons_self tr)
    simpa using ih h' fun o ho => hos o (List.mem_cons_of_mem _ ho)

/-- If before each decision what the thread has registered is mirrored, all are right. -/
theorem justified (h : (machine ω pfd).RunIf Answered tr s) : Machine.Justified Right tr := by
  refine h.invariant (I := fun tr _ => Machine.Justified Right tr) (fun _ _ => .nil) ?_
  intro tr s a t os hr hi hc hs
  have hr : (machine ω pfd).RunIf Kept tr s := hr.mono fun _ _ _ _ h => h.1
  by_cases ha : ∃ obj, a = .decide obj
  · obtain ⟨obj, rfl⟩ := ha
    have hright := (right_iff hr hs).mpr hc.2
    obtain ⟨o, rfl⟩ : ∃ o, os = [o] := by
      simp only [machine, step] at hs
      split at hs
      · split at hs <;> cases hs <;> exact ⟨_, rfl⟩
      · cases hs
    exact hi.snoc (hright o List.mem_cons_self)
  · exact justified_append hi (right_of_not_decide hs fun obj he => ha ⟨obj, he⟩)

/-- An operation that asks for what it registers is mirrored, unless it is just being delivered,
or something else of the direction is registered. -/
theorem mirrored_own {obj : ω} {op : IoOperation} {fd err : Int} {dd : IoData ω} {d : IoDirection}
    (hth : s.thread obj = .woken op fd err dd d)
    (hheld : dd ∈ s.io.held → dd ∈ (s.io.queue d).members)
    (hothers : ∀ r ∈ (s.io.queue d).members, r.obj = obj → r = dd) : s.Mirrored obj := by
  simp only [Mirrored, hth]
  by_cases hq : dd ∈ (s.io.queue d).members
  · exact .inl hq
  · refine .inr ⟨fun h => absurd (hheld h) hq, ?_⟩
    rintro ⟨r, hr, hobj⟩
    exact absurd (hothers r hr hobj ▸ hr) hq

end BlockingIo

end TinyState
