import Mathlib.Data.List.Basic
import TinyState.Lib.Machine
import TinyState.Lib.Temporal

/-!
# The event loop of a JavaScript object

`eventHandler` queues an event and, unless it is already at work, handles the
queue until it is empty. In between it calls code of others: event filters,
state functions and listeners. These may call `eventHandler` of the same object
again, and they may throw.
-/

namespace TinyState.Js

-- ---------------------------------------------------------------------------
-- Model
-- ---------------------------------------------------------------------------

/-- The states that the event loop knows by name, and those of a class. -/
inductive StateName (ν : Type)
  | zom | zomStart | errStart
  | other (name : ν)
deriving DecidableEq

/-- `i_state.indexOf("ZOM",0) == 0` -/
def StateName.isZom {ν : Type} : StateName ν → Bool
  | zom | zomStart => true
  | errStart | other _ => false

def StateName.isError {ν : Type} : StateName ν → Bool
  | errStart => true
  | zom | zomStart | other _ => false

/-- A value given to `throw`. -/
inductive Thrown
  | undefined | null | falsy | truthy
deriving DecidableEq

/-- `if (msg) this.msg = msg` -/
def Thrown.msg : Thrown → Option Thrown
  | truthy => some truthy
  | undefined | null | falsy => none

/-- What a state function returns: nothing, or a state, perhaps after `do`. -/
inductive Reply (ν : Type)
  | stay
  | goto (doFlag : Bool) (newState : StateName ν)
deriving DecidableEq

/-- The `evCurrent` of the loop. -/
inductive Current (ε : Type)
  | given (ev : ε)
  | error (err : Thrown)
deriving DecidableEq

inductive HandlerType
  | state | destroyed
deriving DecidableEq

/-- Where one call of `eventHandler` is. The first entry of a list of filters or
listeners is the one that is running. -/
inductive DispatchPc (ε φ ι : Type)
  | next
  | filter (rest : List φ) (ev : ε)
  | enter (ev : Current ε)
  | inFunc (ev : Current ε)
  | zomState (rest : List ι)
  | zomDestroyed (rest : List ι)
  | zomClean
  | notify (rest : List ι)
deriving DecidableEq

/-- `stack` holds the calls of `eventHandler` that have not returned. -/
structure Dispatcher (ε ν φ ι : Type) where
  i_state : StateName ν
  i_prevState : Option (StateName ν)
  i_processed : Bool
  i_eventQueue : Option (List ε)
  i_stateChange : Bool
  i_errPrevState : Option (StateName ν)
  i_errMessage : Option Thrown
  i_eventFilter : List φ
  i_eventHandleSource : Option (List (HandlerType × ι))
  stack : List (DispatchPc ε φ ι)
deriving DecidableEq

inductive DispatchAct (ε ν φ ι : Type)
  | call (ev : ε)
  | go
  | answer (r : Reply ν)
  | filtered (ev : Option ε)
  | returned
  | throw (err : Thrown)
  | add_listener (type : HandlerType) (evHandle : ι)
  | remove_listener (type : HandlerType) (evHandle : ι)
  | setEventFilter (func : φ)
deriving DecidableEq

inductive DispatchObs (ε : Type)
  | accepted (ev : ε)
  | taken (ev : ε)
  | discarded (evs : List ε)
  | escaped (err : Thrown)
deriving DecidableEq

variable {ε ν φ ι : Type}

namespace DispatchObs

def accepted? : DispatchObs ε → Option ε
  | accepted ev => some ev
  | _ => none

def taken? : DispatchObs ε → Option ε
  | taken ev => some ev
  | _ => none

def dropped : DispatchObs ε → List ε
  | discarded evs => evs
  | _ => []

end DispatchObs

/-- Code of another object or of the class is running. -/
def DispatchPc.calling : DispatchPc ε φ ι → Bool
  | inFunc _ | filter (_ :: _) _ | zomState (_ :: _) | zomDestroyed (_ :: _) | notify (_ :: _) => true
  | _ => false

/-- The loop over `loop_flag`, from one event taken to the next. -/
def DispatchPc.inChain : DispatchPc ε φ ι → Bool
  | enter _ | inFunc _ | zomState _ | zomDestroyed _ | zomClean => true
  | next | filter .. | notify _ => false

namespace Dispatcher

def initial (ini : ν) : Dispatcher ε ν φ ι :=
  { i_state := .other ini, i_prevState := none, i_processed := false, i_eventQueue := some [],
    i_stateChange := false, i_errPrevState := none, i_errMessage := none, i_eventFilter := [],
    i_eventHandleSource := some [], stack := [] }

/-- The listeners that `i_invoke(type)` goes through. -/
def listeners (s : Dispatcher ε ν φ ι) (type : HandlerType) : List ι :=
  (s.i_eventHandleSource.getD []).filterMap fun h => if h.1 = type then some h.2 else none

def queue (s : Dispatcher ε ν φ ι) : List ε := s.i_eventQueue.getD []

/-- Others may call: nothing of this object is on the stack, or its own call-outs. -/
def callable (s : Dispatcher ε ν φ ι) : Bool := s.stack.head?.all DispatchPc.calling

def moveTo (s : Dispatcher ε ν φ ι) (pc : DispatchPc ε φ ι) : Dispatcher ε ν φ ι :=
  { s with stack := pc :: s.stack.tail }

/-- The exception leaves the call of `eventHandler`. -/
def escape (s : Dispatcher ε ν φ ι) (err : Thrown) :
    Option (Dispatcher ε ν φ ι × List (DispatchObs ε)) :=
  some ({ s with stack := s.stack.tail }, [.escaped err])

section

variable [DecidableEq ν]

def i_setState (s : Dispatcher ε ν φ ι) (newState : StateName ν) : Dispatcher ε ν φ ι :=
  { s with
    i_stateChange := s.i_stateChange || decide (s.i_state ≠ newState)
    i_prevState := some s.i_state
    i_state := newState }

/-- After a break of the inner loop: `i_invokeState` begins. -/
def i_invokeState (s : Dispatcher ε ν φ ι) : Dispatcher ε ν φ ι :=
  s.moveTo (.notify (if s.i_stateChange then s.listeners .state else []))

/-- The end of the loop over `loop_flag`. -/
def leave (s : Dispatcher ε ν φ ι) : Dispatcher ε ν φ ι :=
  if s.i_state = .zom then s.i_invokeState else s.moveTo .next

/-- What the loop does with the answer of a state function. -/
def answered (s : Dispatcher ε ν φ ι) (ev : Current ε) : Reply ν → Dispatcher ε ν φ ι
  | .stay => (s.i_setState s.i_state).leave
  | .goto true newState => (s.i_setState newState).moveTo (.enter ev)
  | .goto false newState => (s.i_setState newState).leave

/-- The `catch` of the call of a state function. -/
def caught (s : Dispatcher ε ν φ ι) (err : Thrown) : Dispatcher ε ν φ ι :=
  s.answered (.error err) (.goto true .errStart)

def Current.msg : Current ε → Option Thrown
  | .given _ => none
  | .error err => err.msg

/-- `this.i_errMessage.fileName` throws when there is no message. -/
def ERR_START (s : Dispatcher ε ν φ ι) (ev : Current ε) : Dispatcher ε ν φ ι :=
  let s :=
    if s.i_errPrevState = none then
      { s with i_errPrevState := s.i_prevState, i_errMessage := Current.msg ev }
    else s
  if s.i_errMessage = none then s.caught .truthy else s.answered ev .stay

/-- The call `this[func](evCurrent)`. -/
def invoke (s : Dispatcher ε ν φ ι) (ev : Current ε) : Dispatcher ε ν φ ι :=
  match s.i_state with
  | .other _ => s.moveTo (.inFunc ev)
  | .errStart => s.ERR_START ev
  | .zomStart => s.moveTo (.zomState (s.listeners .state))
  | .zom => s.answered ev .stay

/-- The rest of `ZOM_START`, once the listeners have been told. -/
def cleared (s : Dispatcher ε ν φ ι) : Dispatcher ε ν φ ι :=
  ({ s with i_eventQueue := none, i_eventHandleSource := none }.i_setState .zom).leave

/-- The end of `i_invokeState`, and whether the outer loop goes on. -/
def again (s : Dispatcher ε ν φ ι) : Dispatcher ε ν φ ι :=
  if s.queue = [] then
    { s with i_stateChange := false, i_processed := false, stack := s.stack.tail }
  else { s with i_stateChange := false }.moveTo .next

/-- The parts of `eventHandler` that call no one. -/
def go (s : Dispatcher ε ν φ ι) : Option (Dispatcher ε ν φ ι × List (DispatchObs ε)) :=
  match s.stack.head? with
  | some .next =>
    match s.i_eventQueue with
    | none => s.escape .truthy
    | some [] => some (s.i_invokeState, [])
    | some (ev :: more) =>
      some ({ s with i_eventQueue := some more }.moveTo (.filter s.i_eventFilter ev), [.taken ev])
  | some (.filter [] ev) => some (s.moveTo (.enter (.given ev)), [])
  | some (.enter ev) => some (s.invoke ev, [])
  | some (.zomState []) => some (s.moveTo (.zomDestroyed (s.listeners .destroyed)), [])
  | some (.zomDestroyed []) => some (s.moveTo .zomClean, [])
  | some .zomClean => some (s.cleared, [.discarded s.queue])
  | some (.notify []) => some (s.again, [])
  | _ => none

def eventHandler (s : Dispatcher ε ν φ ι) (ev : ε) :
    Dispatcher ε ν φ ι × List (DispatchObs ε) :=
  if s.i_state.isZom then (s, [])
  else
    match s.i_eventQueue with
    | none => (s, [.escaped .truthy])
    | some evs =>
      let s := { s with i_eventQueue := some (evs ++ [ev]) }
      if s.i_processed then (s, [.accepted ev])
      else ({ s with i_processed := true, stack := .next :: s.stack }, [.accepted ev])

/-- A state function of the class names no state of the event loop but `ZOM_START`. -/
def Reply.named : Reply ν → Bool
  | .goto _ .zom | .goto _ .errStart => false
  | _ => true

def step [DecidableEq ι] (s : Dispatcher ε ν φ ι) :
    DispatchAct ε ν φ ι → Option (Dispatcher ε ν φ ι × List (DispatchObs ε))
  | .call ev => if s.callable then some (s.eventHandler ev) else none
  | .go => s.go
  | .answer r =>
    match s.stack.head? with
    | some (.inFunc ev) => if Reply.named r then some (s.answered ev r, []) else none
    | _ => none
  | .filtered r =>
    match s.stack.head?, r with
    | some (.filter (_ :: rest) _), some ev => some (s.moveTo (.filter rest ev), [])
    | some (.filter (_ :: _) _), none => some (s.i_invokeState, [])
    | _, _ => none
  | .returned =>
    match s.stack.head? with
    | some (.zomState (_ :: rest)) => some (s.moveTo (.zomState rest), [])
    | some (.zomDestroyed (_ :: rest)) => some (s.moveTo (.zomDestroyed rest), [])
    | some (.notify (_ :: rest)) => some (s.moveTo (.notify rest), [])
    | _ => none
  | .throw err =>
    match s.stack.head? with
    | some (.inFunc _) | some (.zomState (_ :: _)) | some (.zomDestroyed (_ :: _))
    | some .zomClean => some (s.caught err, [])
    | some (.filter (_ :: _) _) | some (.notify (_ :: _)) => s.escape err
    | _ => none
  | .add_listener type evHandle =>
    if s.callable then
      some ({ s with
        i_eventHandleSource := s.i_eventHandleSource.map (· ++ [(type, evHandle)]) }, [])
    else none
  | .remove_listener type evHandle =>
    if s.callable then
      some ({ s with
        i_eventHandleSource := s.i_eventHandleSource.map (·.erase (type, evHandle)) }, [])
    else none
  | .setEventFilter func =>
    if s.callable then some ({ s with i_eventFilter := func :: s.i_eventFilter }, []) else none

end

end Dispatcher

def dispatcher [DecidableEq ν] [DecidableEq ι] :
    Transition.Machine (Dispatcher ε ν φ ι) (DispatchAct ε ν φ ι) (DispatchObs ε) where
  init s := ∃ ini, s = .initial ini
  step := Dispatcher.step

-- ---------------------------------------------------------------------------
-- One call at a time
-- ---------------------------------------------------------------------------

namespace Dispatcher

/-- Filters and the listeners of `i_invokeState` throw nothing, and what is
thrown elsewhere is a truthy value. -/
def Orderly (s : Dispatcher ε ν φ ι) : DispatchAct ε ν φ ι → Prop
  | .throw err => err.msg ≠ none ∧ s.stack.head?.all DispatchPc.inChain
  | _ => True

instance (s : Dispatcher ε ν φ ι) (a : DispatchAct ε ν φ ι) : Decidable (s.Orderly a) := by
  cases a <;> unfold Orderly <;> infer_instance

/-- The call of `eventHandler` that is active is at `pc`. The last condition is
why `ERR_START` finds a message. -/
structure Running (s : Dispatcher ε ν φ ι) (pc : DispatchPc ε φ ι) : Prop where
  stack : s.stack = [pc]
  processed : s.i_processed = true
  ended : s.i_eventQueue = none ↔ s.i_state = .zom
  telling : s.i_state = .zom → ∃ rest, pc = .notify rest
  message : s.i_errPrevState ≠ none → s.i_errMessage ≠ none
  broken : s.i_state = .errStart → s.i_errPrevState ≠ none ∨
    s.i_prevState ≠ none ∧ ∃ err : Thrown, err.msg ≠ none ∧ pc = .enter (.error err)

/-- No call of `eventHandler` is active. -/
structure Idle (s : Dispatcher ε ν φ ι) : Prop where
  stack : s.stack = []
  processed : s.i_processed = false
  queue : s.queue = []
  ended : s.i_eventQueue = none ↔ s.i_state = .zom
  message : s.i_errPrevState ≠ none → s.i_errMessage ≠ none
  broken : s.i_state = .errStart → s.i_errPrevState ≠ none

def Steady (s : Dispatcher ε ν φ ι) : Prop := s.Idle ∨ ∃ pc, s.Running pc

variable {s t : Dispatcher ε ν φ ι} {pc pc' : DispatchPc ε φ ι} {os tr : List (DispatchObs ε)}
  {a : DispatchAct ε ν φ ι} {ev : Current ε} {r : Reply ν} {err : Thrown}

theorem Steady.running (h : s.Steady) (hs : s.stack.head? = some pc) : s.Running pc := by
  rcases h with h | ⟨p, h⟩
  · rw [h.stack] at hs
    cases hs
  · rw [h.stack] at hs
    cases hs
    exact h

theorem Running.active (h : s.Running pc) : s.stack ≠ [] := by
  rw [h.stack]
  nofun

/-- The call goes on with the object as it is. -/
theorem Running.moveTo (h : s.Running pc) (hz : s.i_state = .zom → ∃ rest, pc' = .notify rest)
    (he : s.i_state = .errStart → s.i_errPrevState ≠ none) : (s.moveTo pc').Running pc' where
  stack := by rw [Dispatcher.moveTo, h.stack, List.tail_cons]
  processed := h.processed
  ended := h.ended
  telling := hz
  message := h.message
  broken hb := .inl (he hb)

/-- Away from `eventHandler`'s own call of a state function, a broken object has a message. -/
theorem Running.known (h : s.Running pc) (he : ∀ ev, pc ≠ .enter ev) :
    s.i_state = .errStart → s.i_errPrevState ≠ none := by
  intro hb
  rcases h.broken hb with hm | ⟨-, err, -, hpc⟩
  · exact hm
  · exact absurd hpc (he _)

theorem Running.open (h : s.Running pc) (hn : ∀ rest, pc ≠ .notify rest) : s.i_state ≠ .zom := by
  intro hz
  obtain ⟨rest, hpc⟩ := h.telling hz
  exact hn rest hpc

section

variable [DecidableEq ν]

/-- A transition keeps the rest of the object. -/
theorem Running.i_setState (h : s.Running pc) (hn : ∀ rest, pc ≠ .notify rest)
    {newState : StateName ν} (hz : newState ≠ .zom)
    (he : newState = .errStart → s.i_errPrevState ≠ none) : (s.i_setState newState).Running pc where
  stack := h.stack
  processed := h.processed
  ended := by
    have hq := mt h.ended.mp (h.open hn)
    exact ⟨fun hnone => absurd hnone hq, fun hzom => absurd hzom hz⟩
  telling hzom := absurd hzom hz
  message := h.message
  broken hb := .inl (he hb)

omit [DecidableEq ν] in
theorem Running.i_invokeState (h : s.Running pc) (he : ∀ ev, pc ≠ .enter ev) :
    ∃ pc', s.i_invokeState.Running pc' :=
  ⟨_, h.moveTo (fun _ => ⟨_, rfl⟩) (h.known he)⟩

theorem Running.leave (h : s.Running pc) (he : s.i_state = .errStart → s.i_errPrevState ≠ none) :
    ∃ pc', s.leave.Running pc' := by
  unfold Dispatcher.leave
  split
  · exact ⟨_, h.moveTo (fun _ => ⟨_, rfl⟩) he⟩
  · next hz => exact ⟨_, h.moveTo (fun hzom => absurd hzom hz) he⟩

/-- An answer that names no state of the event loop keeps the call going. -/
theorem Running.answered (h : s.Running pc) (hn : ∀ rest, pc ≠ .notify rest)
    (he : s.i_state = .errStart → s.i_errPrevState ≠ none) (hr : Reply.named r) :
    ∃ pc', (s.answered ev r).Running pc' := by
  cases r with
  | stay => exact (h.i_setState hn (h.open hn) he).leave he
  | goto doFlag newState =>
    have hz : newState ≠ .zom := by rintro rfl; cases hr
    have hb : newState ≠ .errStart := by rintro rfl; cases hr
    have hset := h.i_setState hn hz fun hb' => absurd hb' hb
    cases doFlag with
    | false => exact hset.leave fun hb' => absurd hb' hb
    | true => exact ⟨_, hset.moveTo (fun hz' => absurd hz' hz) fun hb' => absurd hb' hb⟩

/-- What a state function throws is kept for `ERR_START`. -/
theorem Running.caught (h : s.Running pc) (hn : ∀ rest, pc ≠ .notify rest) (herr : err.msg ≠ none) :
    ∃ pc', (s.caught err).Running pc' := by
  refine ⟨.enter (.error err), ?_, h.processed, ?_, nofun, h.message, fun _ => ?_⟩
  · simp [Dispatcher.caught, Dispatcher.answered, Dispatcher.moveTo, Dispatcher.i_setState, h.stack]
  · have hq := mt h.ended.mp (h.open hn)
    exact ⟨fun hnone => absurd hnone hq, nofun⟩
  · exact .inr ⟨nofun, err, herr, rfl⟩

theorem Running.ERR_START (h : s.Running (.enter ev)) (hs : s.i_state = .errStart) :
    ∃ pc', (s.ERR_START ev).Running pc' := by
  have hz := h.open nofun
  unfold Dispatcher.ERR_START
  by_cases hp : s.i_errPrevState = none
  · rcases h.broken hs with hm | ⟨hprev, err, herr, hpc⟩
    · exact absurd hp hm
    · cases hpc
      have hmsg : Current.msg (.error err : Current ε) ≠ none := herr
      rw [if_pos hp, if_neg hmsg]
      have hin : Running { s with i_errPrevState := s.i_prevState, i_errMessage := err.msg }
          (.enter (.error err)) :=
        ⟨h.stack, h.processed, h.ended, h.telling, fun _ => hmsg, fun _ => .inl hprev⟩
      exact hin.answered nofun (fun _ => hprev) rfl
  · rw [if_neg hp, if_neg (h.message hp)]
    exact h.answered nofun (fun _ => hp) rfl

theorem Running.invoke (h : s.Running (.enter ev)) : ∃ pc', (s.invoke ev).Running pc' := by
  have hz := h.open nofun
  unfold Dispatcher.invoke
  split
  · next hs => exact ⟨_, h.moveTo (fun hzom => absurd hzom hz) (by rw [hs]; nofun)⟩
  · next hs => exact h.ERR_START hs
  · next hs => exact ⟨_, h.moveTo (fun hzom => absurd hzom hz) (by rw [hs]; nofun)⟩
  · next hs => exact absurd hs hz

theorem Running.cleared (h : s.Running pc) : ∃ pc', s.cleared.Running pc' := by
  refine ⟨.notify [], ?_, h.processed, ?_, fun _ => ⟨[], rfl⟩, h.message, nofun⟩
  · simp [Dispatcher.cleared, Dispatcher.leave, Dispatcher.i_invokeState, Dispatcher.moveTo,
      Dispatcher.i_setState, Dispatcher.listeners, h.stack]
  · simp [Dispatcher.cleared, Dispatcher.leave, Dispatcher.i_invokeState, Dispatcher.moveTo,
      Dispatcher.i_setState]

/-- What calls no one keeps the call going or ends it with the queue empty. -/
theorem Steady.go (h : s.Steady) (hg : s.go = some (t, os)) : t.Steady := by
  unfold Dispatcher.go at hg
  split at hg
  · next hpc =>
    have hr := h.running hpc
    split at hg
    · next hq => exact absurd (hr.ended.mp hq) (hr.open nofun)
    · cases hg
      exact .inr (hr.i_invokeState nofun)
    · next ev more hq =>
      cases hg
      have hrest : Running { s with i_eventQueue := some more } .next :=
        { hr with ended := ⟨nofun, fun hz => absurd hz (hr.open nofun)⟩ }
      exact .inr ⟨_, hrest.moveTo (fun hz => absurd hz (hr.open nofun)) (hr.known nofun)⟩
  · next hpc =>
    cases hg
    have hr := h.running hpc
    exact .inr ⟨_, hr.moveTo (fun hz => absurd hz (hr.open nofun)) (hr.known nofun)⟩
  · next hpc =>
    cases hg
    exact .inr (h.running hpc).invoke
  · next hpc =>
    cases hg
    have hr := h.running hpc
    exact .inr ⟨_, hr.moveTo (fun hz => absurd hz (hr.open nofun)) (hr.known nofun)⟩
  · next hpc =>
    cases hg
    have hr := h.running hpc
    exact .inr ⟨_, hr.moveTo (fun hz => absurd hz (hr.open nofun)) (hr.known nofun)⟩
  · next hpc =>
    cases hg
    exact .inr (h.running hpc).cleared
  · next hpc =>
    cases hg
    have hr := h.running hpc
    unfold Dispatcher.again
    by_cases hq : s.queue = []
    · rw [if_pos hq]
      exact .inl ⟨by rw [hr.stack, List.tail_cons], rfl, hq, hr.ended, hr.message, hr.known nofun⟩
    · rw [if_neg hq]
      have hmore : Running { s with i_stateChange := false } (.notify []) := { hr with }
      refine .inr ⟨_, hmore.moveTo (fun hz => ?_) (hr.known nofun)⟩
      rw [Dispatcher.queue, hr.ended.mpr hz] at hq
      exact absurd rfl hq
  · cases hg

omit [DecidableEq ν] in
theorem Steady.eventHandler (h : s.Steady) (e : ε) : (s.eventHandler e).1.Steady := by
  unfold Dispatcher.eventHandler
  split
  · exact h
  · next hz =>
    have hz : s.i_state ≠ .zom := by
      intro hzom
      rw [hzom] at hz
      exact hz rfl
    split
    · exact h
    · rcases h with h | ⟨pc, h⟩
      · rw [if_neg (by simp [h.processed])]
        exact .inr ⟨.next, by rw [h.stack], rfl, ⟨nofun, fun hzom => absurd hzom hz⟩,
          fun hzom => absurd hzom hz, h.message, fun hb => .inl (h.broken hb)⟩
      · rw [if_pos h.processed]
        exact .inr ⟨pc, { h with ended := ⟨nofun, fun hzom => absurd hzom hz⟩ }⟩

omit [DecidableEq ν] in
/-- Listeners and filters come and go. -/
theorem Steady.install (h : s.Steady) (src : Option (List (HandlerType × ι))) (fs : List φ) :
    Steady { s with i_eventHandleSource := src, i_eventFilter := fs } := by
  rcases h with h | ⟨pc, h⟩
  · exact .inl { h with }
  · exact .inr ⟨pc, { h with }⟩

/-- Every step of an orderly run keeps the object steady. -/
theorem Steady.step [DecidableEq ι] (h : s.Steady) (hc : s.Orderly a)
    (hs : s.step a = some (t, os)) : t.Steady := by
  cases a with
  | call ev =>
    obtain ⟨-, he⟩ := Option.ite_none_right_eq_some.mp hs
    obtain rfl : (s.eventHandler ev).1 = t := congrArg Prod.fst (Option.some.inj he)
    exact h.eventHandler ev
  | go => exact h.go hs
  | answer r =>
    simp only [Dispatcher.step] at hs
    split at hs
    · next hpc =>
      obtain ⟨hr, he⟩ := Option.ite_none_right_eq_some.mp hs
      cases he
      have hrun := h.running hpc
      exact .inr (hrun.answered nofun (hrun.known nofun) hr)
    · cases hs
  | filtered r =>
    simp only [Dispatcher.step] at hs
    split at hs
    · next hpc =>
      cases hs
      have hr := h.running hpc
      exact .inr ⟨_, hr.moveTo (fun hz => absurd hz (hr.open nofun)) (hr.known nofun)⟩
    · next hpc =>
      cases hs
      exact .inr ((h.running hpc).i_invokeState nofun)
    · cases hs
  | returned =>
    simp only [Dispatcher.step] at hs
    split at hs
    · next hpc =>
      cases hs
      have hr := h.running hpc
      exact .inr ⟨_, hr.moveTo (fun hz => absurd hz (hr.open nofun)) (hr.known nofun)⟩
    · next hpc =>
      cases hs
      have hr := h.running hpc
      exact .inr ⟨_, hr.moveTo (fun hz => absurd hz (hr.open nofun)) (hr.known nofun)⟩
    · next hpc =>
      cases hs
      exact .inr ⟨_, (h.running hpc).moveTo (fun _ => ⟨_, rfl⟩) ((h.running hpc).known nofun)⟩
    · cases hs
  | throw err =>
    obtain ⟨herr, hchain⟩ := hc
    simp only [Dispatcher.step] at hs
    split at hs
    · next hpc =>
      cases hs
      exact .inr ((h.running hpc).caught nofun herr)
    · next hpc =>
      cases hs
      exact .inr ((h.running hpc).caught nofun herr)
    · next hpc =>
      cases hs
      exact .inr ((h.running hpc).caught nofun herr)
    · next hpc =>
      cases hs
      exact .inr ((h.running hpc).caught nofun herr)
    · next hpc =>
      rw [hpc] at hchain
      cases hchain
    · next hpc =>
      rw [hpc] at hchain
      cases hchain
    · cases hs
  | add_listener type evHandle =>
    obtain ⟨-, he⟩ := Option.ite_none_right_eq_some.mp hs
    cases he
    exact h.install _ _
  | remove_listener type evHandle =>
    obtain ⟨-, he⟩ := Option.ite_none_right_eq_some.mp hs
    cases he
    exact h.install _ _
  | setEventFilter func =>
    obtain ⟨-, he⟩ := Option.ite_none_right_eq_some.mp hs
    cases he
    exact h.install _ _

end

-- ---------------------------------------------------------------------------
-- First in, first out
-- ---------------------------------------------------------------------------

/-- A step accounts for the events it accepts, takes and discards. -/
structure Accounted (s : Dispatcher ε ν φ ι) (os : List (DispatchObs ε))
    (t : Dispatcher ε ν φ ι) : Prop where
  queue : s.queue ++ os.filterMap DispatchObs.accepted? =
    os.filterMap DispatchObs.taken? ++ os.flatMap DispatchObs.dropped ++ t.queue
  gone : s.i_eventQueue = none → t.i_eventQueue = none ∧ os.filterMap DispatchObs.accepted? = []
  dropped : os.flatMap DispatchObs.dropped ≠ [] → t.i_eventQueue = none

theorem Accounted.silent (h : t.i_eventQueue = s.i_eventQueue) : s.Accounted [] t where
  queue := by simp [Dispatcher.queue, h]
  gone hn := ⟨h.trans hn, rfl⟩
  dropped hd := absurd rfl hd

theorem Accounted.escape (h : t.i_eventQueue = s.i_eventQueue) :
    s.Accounted [.escaped err] t where
  queue := by
    rw [Dispatcher.queue, Dispatcher.queue, h]
    exact List.append_nil _
  gone hn := ⟨h.trans hn, rfl⟩
  dropped hd := absurd rfl hd

section

variable [DecidableEq ν]

@[simp] theorem leave_queue : s.leave.i_eventQueue = s.i_eventQueue := by
  unfold leave
  split <;> rfl

@[simp] theorem answered_queue : (s.answered ev r).i_eventQueue = s.i_eventQueue := by
  unfold answered
  split
  · rw [leave_queue]
    rfl
  · rfl
  · rw [leave_queue]
    rfl

@[simp] theorem invoke_queue : (s.invoke ev).i_eventQueue = s.i_eventQueue := by
  unfold invoke ERR_START caught
  split
  · rfl
  · dsimp only
    split <;> split <;> simp
  · rfl
  · exact answered_queue

theorem go_accounted (hg : s.go = some (t, os)) : s.Accounted os t := by
  unfold go at hg
  split at hg
  · split at hg
    · cases hg
      exact .escape rfl
    · cases hg
      exact .silent rfl
    · next ev more hq =>
      cases hg
      refine ⟨?_, fun hn => ?_, fun hd => absurd rfl hd⟩
      · rw [queue, hq]
        exact List.append_nil _
      · rw [hq] at hn
        cases hn
  · cases hg
    exact .silent rfl
  · cases hg
    exact .silent invoke_queue
  · cases hg
    exact .silent rfl
  · cases hg
    exact .silent rfl
  · cases hg
    have hgone : s.cleared.i_eventQueue = none := leave_queue
    refine ⟨?_, fun _ => ⟨hgone, rfl⟩, fun _ => hgone⟩
    change s.queue ++ [] = s.queue ++ [] ++ s.cleared.i_eventQueue.getD []
    rw [hgone, List.append_nil, Option.getD_none, List.append_nil]
  · cases hg
    refine .silent ?_
    unfold again
    split <;> rfl
  · cases hg

omit [DecidableEq ν] in
theorem eventHandler_accounted (e : ε) :
    s.Accounted (s.eventHandler e).2 (s.eventHandler e).1 := by
  unfold Dispatcher.eventHandler
  split
  · exact .silent rfl
  · split
    · exact .escape rfl
    · next evs hq =>
      have hn : ∀ {P : Prop}, s.i_eventQueue = none → P := by
        intro P hn
        rw [hq] at hn
        cases hn
      dsimp only
      split
      · exact ⟨by rw [queue, hq]; rfl, hn, fun hd => absurd rfl hd⟩
      · exact ⟨by rw [queue, hq]; rfl, hn, fun hd => absurd rfl hd⟩

theorem step_accounted [DecidableEq ι] (hs : s.step a = some (t, os)) : s.Accounted os t := by
  cases a with
  | call ev =>
    obtain ⟨-, he⟩ := Option.ite_none_right_eq_some.mp hs
    obtain ⟨rfl, rfl⟩ : (s.eventHandler ev).1 = t ∧ (s.eventHandler ev).2 = os :=
      Prod.ext_iff.mp (Option.some.inj he)
    exact eventHandler_accounted ev
  | go => exact go_accounted hs
  | answer r =>
    simp only [step] at hs
    split at hs
    · obtain ⟨-, he⟩ := Option.ite_none_right_eq_some.mp hs
      cases he
      exact .silent answered_queue
    · cases hs
  | filtered r =>
    simp only [step] at hs
    split at hs
    · cases hs
      exact .silent rfl
    · cases hs
      exact .silent rfl
    · cases hs
  | returned =>
    simp only [step] at hs
    split at hs
    all_goals cases hs
    all_goals exact .silent rfl
  | throw err =>
    simp only [step] at hs
    split at hs
    all_goals cases hs
    all_goals first
      | exact .silent answered_queue
      | exact .escape rfl
  | add_listener type evHandle =>
    obtain ⟨-, he⟩ := Option.ite_none_right_eq_some.mp hs
    cases he
    exact .silent rfl
  | remove_listener type evHandle =>
    obtain ⟨-, he⟩ := Option.ite_none_right_eq_some.mp hs
    cases he
    exact .silent rfl
  | setEventFilter func =>
    obtain ⟨-, he⟩ := Option.ite_none_right_eq_some.mp hs
    cases he
    exact .silent rfl

end

-- ---------------------------------------------------------------------------
-- The law
-- ---------------------------------------------------------------------------

/-- At most one call is active and so no state function runs inside another one;
at rest the object is ready for the next event; and what was accepted was taken
in the same order, but for what is queued and what is in `lost`. -/
structure Dispatched (lost : List ε) (tr : List (DispatchObs ε)) (s : Dispatcher ε ν φ ι) :
    Prop where
  single : s.stack.length ≤ 1
  idle : s.stack = [] → s.i_processed = false ∧ s.queue = []
  fifo : tr.filterMap DispatchObs.accepted? =
    tr.filterMap DispatchObs.taken? ++ lost ++ s.queue

theorem Steady.dispatched {lost : List ε} (h : s.Steady)
    (hf : tr.filterMap DispatchObs.accepted? =
      tr.filterMap DispatchObs.taken? ++ lost ++ s.queue) : s.Dispatched lost tr := by
  rcases h with h | ⟨pc, h⟩
  · exact ⟨by rw [h.stack]; exact Nat.zero_le _, fun _ => ⟨h.processed, h.queue⟩, hf⟩
  · refine ⟨by rw [h.stack]; exact Nat.le_refl _, fun hn => ?_, hf⟩
    rw [h.stack] at hn
    cases hn

/-- What holds of every orderly run. Only the end of the object discards events. -/
structure Recorded (tr : List (DispatchObs ε)) (s : Dispatcher ε ν φ ι) : Prop where
  steady : s.Steady
  kept : tr.flatMap DispatchObs.dropped ≠ [] → s.i_eventQueue = none
  fifo : tr.filterMap DispatchObs.accepted? =
    tr.filterMap DispatchObs.taken? ++ tr.flatMap DispatchObs.dropped ++ s.queue

theorem Recorded.step (h : s.Recorded tr) (ht : t.Steady) (ha : s.Accounted os t) :
    t.Recorded (tr ++ os) := by
  refine ⟨ht, fun hd => ?_, ?_⟩
  · rw [List.flatMap_append] at hd
    by_cases htr : tr.flatMap DispatchObs.dropped = []
    · exact ha.dropped (by rwa [htr, List.nil_append] at hd)
    · exact (ha.gone (h.kept htr)).1
  · rw [List.filterMap_append, List.filterMap_append, List.flatMap_append, h.fifo]
    have hq := ha.queue
    by_cases htr : tr.flatMap DispatchObs.dropped = []
    · rw [htr, List.append_nil, List.nil_append, List.append_assoc, hq, List.append_assoc,
        List.append_assoc, List.append_assoc]
    · -- nothing is left to be taken once the queue is gone
      have hnone := h.kept htr
      have hs : s.queue = [] := by rw [queue, hnone, Option.getD_none]
      rw [hs, (ha.gone hnone).2, List.append_nil] at hq
      obtain ⟨hleft, hend⟩ := List.append_eq_nil_iff.mp hq.symm
      obtain ⟨htaken, hdropped⟩ := List.append_eq_nil_iff.mp hleft
      rw [hs, (ha.gone hnone).2, htaken, hdropped, hend]
      simp only [List.append_nil]

theorem run_recorded [DecidableEq ν] [DecidableEq ι]
    (h : (dispatcher (ε := ε) (ν := ν) (φ := φ) (ι := ι)).RunIf Orderly tr s) :
    s.Recorded tr := by
  refine h.invariant (I := fun tr s => s.Recorded tr) ?start ?step
  case start =>
    rintro s ⟨ini, rfl⟩
    exact ⟨.inl ⟨rfl, rfl, rfl, ⟨nofun, nofun⟩, nofun, nofun⟩, fun hd => absurd rfl hd, rfl⟩
  case step =>
    rintro tr s a t os - h hc hs
    exact h.step (h.steady.step hc hs) (step_accounted hs)

-- ---------------------------------------------------------------------------
-- Termination
-- ---------------------------------------------------------------------------

/-- Code that `eventHandler` has called calls back, or installs something. -/
def Reenters (s : Dispatcher ε ν φ ι) : DispatchAct ε ν φ ι → Prop
  | .call _ | .add_listener .. | .remove_listener .. | .setEventFilter _ => s.stack ≠ []
  | _ => False

/-- A state function asks for a further transition. -/
def Asks : DispatchAct ε ν φ ι → Prop
  | .answer (.goto true _) => True
  | _ => False

def InChain (s : Dispatcher ε ν φ ι) : Prop := ∃ pc, s.stack = [pc] ∧ pc.inChain

/-- How far the handling of one event is from the next state function's end. -/
def chainRank (s : Dispatcher ε ν φ ι) : Nat × Nat :=
  match s.stack.head? with
  | some (.enter _) => (if s.i_state.isError then 0 else 5, 0)
  | some (.inFunc _) => (4, 0)
  | some (.zomState rest) => (3, rest.length)
  | some (.zomDestroyed rest) => (2, rest.length)
  | some .zomClean => (1, 0)
  | _ => (0, 0)

/-- Where the loops of `eventHandler` are, between two events. -/
def phase (s : Dispatcher ε ν φ ι) : Nat × Nat :=
  match s.stack.head? with
  | some (.filter rest _) => (5, rest.length)
  | some .next => (if s.queue = [] then 3 else 1, 0)
  | some (.notify rest) => (2, rest.length)
  | some _ => (4, 0)
  | none => (0, 0)

def rank (s : Dispatcher ε ν φ ι) : Nat × Nat × Nat := (s.queue.length, s.phase)

/-- The order in which ranks fall. -/
abbrev Falls : Nat × Nat × Nat → Nat × Nat × Nat → Prop := WellFoundedRelation.rel

theorem rank_phase (hq : t.i_eventQueue = s.i_eventQueue)
    (hp : Prod.Lex (· < ·) (· < ·) t.phase s.phase) : Falls t.rank s.rank := by
  have hlen : t.queue.length = s.queue.length := by rw [queue, queue, hq]
  rw [rank, rank, hlen]
  exact .right _ hp

/-- The event is done with: the loop looks for the next one, or tells the listeners. -/
def Settled (s : Dispatcher ε ν φ ι) : Prop :=
  ∃ pc, s.stack.head? = some pc ∧ (pc = .next ∨ ∃ rest, pc = .notify rest)

theorem Settled.phase_lt (h : s.Settled) : s.phase.1 < 4 := by
  obtain ⟨pc, hs, rfl | ⟨rest, rfl⟩⟩ := h
  · rw [phase, hs]
    dsimp only
    split <;> decide
  · rw [phase, hs]
    exact (by decide : 2 < 4)

theorem Running.inChain_moveTo (h : s.Running pc) (hin : pc'.inChain) : (s.moveTo pc').InChain :=
  ⟨pc', by rw [Dispatcher.moveTo, h.stack, List.tail_cons], hin⟩

/-- What one step can do to the handling of an event. -/
inductive ChainStep (s : Dispatcher ε ν φ ι) (a : DispatchAct ε ν φ ι)
    (t : Dispatcher ε ν φ ι) : Prop
  | settled : t.Settled → t.queue.length ≤ s.queue.length → ChainStep s a t
  | asked : t.InChain → Asks a → t.i_eventQueue = s.i_eventQueue → ChainStep s a t
  | fell : t.InChain → Prod.Lex (· < ·) (· < ·) t.chainRank s.chainRank →
      t.i_eventQueue = s.i_eventQueue → ChainStep s a t

section

variable [DecidableEq ν]

theorem leave_settled : s.leave.Settled := by
  unfold leave
  split
  · exact ⟨_, rfl, .inr ⟨_, rfl⟩⟩
  · exact ⟨_, rfl, .inl rfl⟩

theorem answered_stay : (s.answered ev .stay).Settled := leave_settled

theorem caught_rank : (s.caught err).chainRank = (0, 0) := rfl

theorem Running.ERR_START_settled (h : s.Running (.enter ev)) (hs : s.i_state = .errStart) :
    (s.ERR_START ev).Settled := by
  unfold Dispatcher.ERR_START
  by_cases hp : s.i_errPrevState = none
  · rcases h.broken hs with hm | ⟨-, err, herr, hpc⟩
    · exact absurd hp hm
    · cases hpc
      have hmsg : Current.msg (.error err : Current ε) ≠ none := herr
      rw [if_pos hp, if_neg hmsg]
      exact answered_stay
  · rw [if_neg hp, if_neg (h.message hp)]
    exact answered_stay

theorem Running.invoke_step (h : s.Running (.enter ev)) : ChainStep s .go (s.invoke ev) := by
  have hlen : (s.invoke ev).queue.length ≤ s.queue.length :=
    Nat.le_of_eq (by rw [queue, queue, invoke_queue])
  cases hs : s.i_state with
  | other name =>
    refine .fell ?_ ?_ invoke_queue
    · rw [Dispatcher.invoke, hs]
      exact h.inChain_moveTo rfl
    rw [Dispatcher.invoke, hs, chainRank, chainRank, h.stack]
    simp only [List.head?_cons, hs]
    exact .left _ _ (by decide : 4 < 5)
  | errStart =>
    rw [Dispatcher.invoke, hs] at hlen ⊢
    exact .settled (h.ERR_START_settled hs) hlen
  | zomStart =>
    refine .fell ?_ ?_ invoke_queue
    · rw [Dispatcher.invoke, hs]
      exact h.inChain_moveTo rfl
    rw [Dispatcher.invoke, hs, chainRank, chainRank, h.stack]
    simp only [List.head?_cons, hs]
    exact .left _ _ (by decide : 3 < 5)
  | zom => exact absurd hs (h.open nofun)

/-- While one event is handled, each step that calls no one back comes nearer to its end. -/
theorem Running.chainStep [DecidableEq ι] (h : s.Running pc) (hin : pc.inChain) (hr : ¬ s.Reenters a)
    (hs : s.step a = some (t, os)) : ChainStep s a t := by
  have hhead : s.stack.head? = some pc := by rw [h.stack]; rfl
  cases a with
  | call | add_listener | remove_listener | setEventFilter => exact absurd h.active hr
  | go =>
    change s.go = _ at hs
    rw [go, hhead] at hs
    split at hs
    · cases ‹some pc = _›
      cases hin
    · cases ‹some pc = _›
      cases hin
    · cases ‹some pc = _›
      cases hs
      exact h.invoke_step
    · cases ‹some pc = _›
      cases hs
      refine .fell (h.inChain_moveTo rfl) ?_ rfl
      rw [chainRank, chainRank, hhead]
      exact .left _ _ (by decide)
    · cases ‹some pc = _›
      cases hs
      refine .fell (h.inChain_moveTo rfl) ?_ rfl
      rw [chainRank, chainRank, hhead]
      exact .left _ _ (by decide)
    · cases hs
      refine .settled leave_settled ?_
      have hgone : s.cleared.i_eventQueue = none := leave_queue
      rw [queue, hgone]
      exact Nat.zero_le _
    · cases ‹some pc = _›
      cases hin
    · cases hs
  | answer r =>
    rw [step, hhead] at hs
    split at hs
    · cases ‹some pc = _›
      obtain ⟨-, he⟩ := Option.ite_none_right_eq_some.mp hs
      cases he
      have hlen : (s.answered ‹_› r).queue.length ≤ s.queue.length :=
        Nat.le_of_eq (by rw [queue, queue, answered_queue])
      match r with
      | .stay => exact .settled leave_settled hlen
      | .goto false _ => exact .settled leave_settled hlen
      | .goto true _ => exact .asked (h.inChain_moveTo rfl) trivial answered_queue
    · cases hs
  | filtered r =>
    simp only [step] at hs
    split at hs
    · cases hhead.symm.trans ‹_›
      cases hin
    · cases hhead.symm.trans ‹_›
      cases hin
    · cases hs
  | returned =>
    rw [step, hhead] at hs
    split at hs
    · cases ‹some pc = _›
      cases hs
      refine .fell (h.inChain_moveTo rfl) ?_ rfl
      rw [chainRank, chainRank, hhead]
      exact .right _ (Nat.lt_succ_self _)
    · cases ‹some pc = _›
      cases hs
      refine .fell (h.inChain_moveTo rfl) ?_ rfl
      rw [chainRank, chainRank, hhead]
      exact .right _ (Nat.lt_succ_self _)
    · cases ‹some pc = _›
      cases hin
    · cases hs
  | throw err =>
    rw [step, hhead] at hs
    split at hs
    all_goals try
      cases ‹some pc = _›
      cases hs
      refine .fell (h.inChain_moveTo rfl) ?_ answered_queue
      rw [caught_rank, chainRank, hhead]
      exact .left _ _ (by decide)
    · cases ‹some pc = _›
      cases hin
    · cases ‹some pc = _›
      cases hin
    · cases hs

/-- Between two state functions each such step comes nearer to the end of the call. -/
theorem Running.rank_falls [DecidableEq ι] (h : s.Running pc) (hin : pc.inChain = false)
    (hc : Orderly s a) (hr : ¬ s.Reenters a) (hs : s.step a = some (t, os)) :
    t.stack = [] ∨ Falls t.rank s.rank := by
  have hhead : s.stack.head? = some pc := by rw [h.stack]; rfl
  cases a with
  | call | add_listener | remove_listener | setEventFilter => exact absurd h.active hr
  | go =>
    change s.go = _ at hs
    rw [go, hhead] at hs
    split at hs
    · cases ‹some pc = _›
      split at hs
      · cases hs
        exact .inl (by rw [h.stack]; rfl)
      · next hq =>
        cases hs
        refine .inr (rank_phase rfl ?_)
        have hempty : s.queue = [] := by rw [queue, hq, Option.getD_some]
        rw [phase, phase, hhead]
        simp only [hempty]
        exact .left _ _ (by decide : 2 < 3)
      · next ev more hq =>
        cases hs
        refine .inr (.left _ _ ?_)
        rw [queue, queue, hq]
        exact Nat.lt_succ_self _
    · cases ‹some pc = _›
      cases hs
      refine .inr (rank_phase rfl ?_)
      rw [phase, phase, hhead]
      exact .left _ _ (by decide)
    · cases ‹some pc = _›
      cases hin
    · cases ‹some pc = _›
      cases hin
    · cases ‹some pc = _›
      cases hin
    · cases ‹some pc = _›
      cases hin
    · cases ‹some pc = _›
      cases hs
      unfold again
      by_cases hq : s.queue = []
      · rw [if_pos hq]
        exact .inl (by rw [h.stack]; rfl)
      · rw [if_neg hq]
        refine .inr (rank_phase rfl ?_)
        have hq' : ({ s with i_stateChange := false }.moveTo .next).queue ≠ [] := hq
        rw [phase, phase, hhead]
        rw [if_neg hq']
        exact .left _ _ (by decide)
    · cases hs
  | answer r =>
    rw [step, hhead] at hs
    split at hs
    · cases ‹some pc = _›
      cases hin
    · cases hs
  | filtered r =>
    simp only [step] at hs
    split at hs
    · cases hhead.symm.trans ‹_›
      cases hs
      refine .inr (rank_phase rfl ?_)
      rw [phase, phase, hhead]
      exact .right _ (Nat.lt_succ_self _)
    · cases hhead.symm.trans ‹_›
      cases hs
      refine .inr (rank_phase rfl ?_)
      rw [phase, phase, hhead]
      exact .left _ _ (by decide)
    · cases hs
  | returned =>
    rw [step, hhead] at hs
    split at hs
    · cases ‹some pc = _›
      cases hin
    · cases ‹some pc = _›
      cases hin
    · cases ‹some pc = _›
      cases hs
      refine .inr (rank_phase rfl ?_)
      rw [phase, phase, hhead]
      exact .right _ (Nat.lt_succ_self _)
    · cases hs
  | throw err =>
    obtain ⟨-, hchain⟩ := hc
    rw [hhead, Option.all_some, hin] at hchain
    cases hchain

end

end Dispatcher

section

variable [DecidableEq ν] [DecidableEq ι]

open Dispatcher

/-- From here on the call of `eventHandler` returns, or the code it calls calls
back for ever, or the state functions never stop asking for a transition. -/
def Returns (b : (dispatcher (ε := ε) (ν := ν) (φ := φ) (ι := ι)).Behavior) (n : Nat) : Prop :=
  (∃ m, n ≤ m ∧ (b.state m).stack = []) ∨
  (∀ k, ∃ m, k ≤ m ∧ (b.state m).Reenters (b.act m)) ∨
  ∃ k, (∀ m, k ≤ m → (b.state m).InChain) ∧ ∀ j, ∃ m, j ≤ m ∧ Asks (b.act m)

variable {b : (dispatcher (ε := ε) (ν := ν) (φ := φ) (ι := ι)).Behavior} {n k : Nat}

theorem steady_at (hc : ∀ n, (b.state n).Orderly (b.act n)) (n : Nat) : (b.state n).Steady :=
  (run_recorded (b.runIf hc n)).steady

/-- The state functions called for one event come to an end. -/
theorem chain_settles (hc : ∀ n, (b.state n).Orderly (b.act n))
    (hr : ∀ m, k ≤ m → ¬ (b.state m).Reenters (b.act m))
    (hstop : ∀ i, (∀ m, i ≤ m → (b.state m).InChain) → ∃ j, ∀ m, j ≤ m → ¬ Asks (b.act m))
    (hk : k ≤ n) (hin : (b.state n).InChain) :
    ∃ m, n ≤ m ∧ (b.state (m + 1)).Settled ∧
      (b.state (m + 1)).queue.length ≤ (b.state n).queue.length := by
  have hstep : ∀ m, n ≤ m → (b.state m).InChain →
      ChainStep (b.state m) (b.act m) (b.state (m + 1)) := by
    rintro m hm ⟨pc, hs, hin⟩
    exact ((steady_at hc m).running (by rw [hs]; rfl)).chainStep hin (hr m (Nat.le_trans hk hm))
      (b.next m)
  by_contra hnone
  have hchain : ∀ m, n ≤ m → (b.state m).InChain ∧ (b.state m).queue = (b.state n).queue := by
    intro m hm
    induction m, hm using Nat.le_induction with
    | base => exact ⟨hin, rfl⟩
    | succ m hm ih =>
      obtain ⟨hin, hq⟩ := ih
      cases hstep m hm hin with
      | settled hset hlen => exact absurd ⟨m, hm, hset, hq ▸ hlen⟩ hnone
      | asked hin' _ hq' => exact ⟨hin', by rw [Dispatcher.queue, hq']; exact hq⟩
      | fell hin' _ hq' => exact ⟨hin', by rw [Dispatcher.queue, hq']; exact hq⟩
  obtain ⟨j, hj⟩ := hstop n fun m hm => (hchain m hm).1
  -- from here on no state function asks, and the rank would fall for ever
  have hnever := Transition.eventually_of_wf (Q := fun _ => False)
    (R := fun r m => n ≤ m ∧ j ≤ m ∧ (b.state m).chainRank = r) ?fall _ (max n j)
    ⟨Nat.le_max_left n j, Nat.le_max_right n j, rfl⟩
  case fall =>
    rintro r m ⟨hn, hjm, rfl⟩
    refine ⟨m + 1, Nat.le_succ m, .inr ⟨_, ?_, Nat.le_succ_of_le hn, Nat.le_succ_of_le hjm, rfl⟩⟩
    cases hstep m hn (hchain m hn).1 with
    | settled hset hlen => exact absurd ⟨m, hn, hset, (hchain m hn).2 ▸ hlen⟩ hnone
    | asked _ hask _ => exact absurd hask (hj m hjm)
    | fell _ hfall _ => exact hfall
  obtain ⟨m, -, hfalse⟩ := hnever
  exact hfalse

omit [DecidableEq ν] [DecidableEq ι] in
theorem chain_phase {s : Dispatcher ε ν φ ι} (hin : s.InChain) : s.phase = (4, 0) := by
  obtain ⟨pc, hs, hin⟩ := hin
  rw [phase, hs]
  cases pc with
  | enter | inFunc | zomState | zomDestroyed | zomClean => rfl
  | next | filter | notify => cases hin

/-- A call of `eventHandler` returns, if the code it calls does its part. -/
theorem returns (hc : ∀ n, (b.state n).Orderly (b.act n)) (n : Nat) : Returns b n := by
  by_contra hnot
  obtain ⟨hnever, hnot⟩ := not_or.mp hnot
  obtain ⟨hre, hask⟩ := not_or.mp hnot
  obtain ⟨k, hk⟩ := not_forall.mp hre
  have hr : ∀ m, k ≤ m → ¬ (b.state m).Reenters (b.act m) := fun m hm h => hk ⟨m, hm, h⟩
  have hstop : ∀ i, (∀ m, i ≤ m → (b.state m).InChain) → ∃ j, ∀ m, j ≤ m → ¬ Asks (b.act m) := by
    intro i hi
    obtain ⟨j, hj⟩ := not_forall.mp fun hall => hask ⟨i, hi, hall⟩
    exact ⟨j, fun m hm h => hj ⟨m, hm, h⟩⟩
  have hreturn := Transition.eventually_of_wf
    (Q := fun m => (b.state m).stack = []) (R := fun r m => n ≤ m ∧ k ≤ m ∧ (b.state m).rank = r)
    ?fall _ (max n k) ⟨Nat.le_max_left n k, Nat.le_max_right n k, rfl⟩
  case fall =>
    rintro r m ⟨hn, hkm, rfl⟩
    rcases steady_at hc m with h | ⟨pc, h⟩
    · exact ⟨m, Nat.le_refl m, .inl h.stack⟩
    · cases hin : pc.inChain with
      | false =>
        refine ⟨m + 1, Nat.le_succ m, ?_⟩
        rcases h.rank_falls hin (hc m) (hr m hkm) (b.next m) with hend | hfall
        · exact .inl hend
        · exact .inr ⟨_, hfall, Nat.le_succ_of_le hn, Nat.le_succ_of_le hkm, rfl⟩
      | true =>
        have hchain : (b.state m).InChain := ⟨pc, h.stack, hin⟩
        obtain ⟨j, hj, hset, hlen⟩ := chain_settles hc hr hstop hkm hchain
        have hmj := Nat.le_succ_of_le hj
        refine ⟨j + 1, hmj, .inr ⟨_, ?_, Nat.le_trans hn hmj, Nat.le_trans hkm hmj, rfl⟩⟩
        rw [rank, rank, chain_phase hchain]
        rcases Nat.lt_or_eq_of_le hlen with hlt | heq
        · exact .left _ _ hlt
        · rw [heq]
          exact .right _ (.left _ _ hset.phase_lt)
  obtain ⟨m, hm, hend⟩ := hreturn
  exact hnever ⟨m, Nat.le_trans (Nat.le_max_left n k) hm, hend⟩

/-- There is always a way for an active call to go on. -/
theorem enabled {s : Dispatcher ε ν φ ι} (h : s.Steady) (ha : s.stack ≠ []) :
    ∃ a, ¬ s.Reenters a ∧ (s.step a).isSome := by
  rcases h with h | ⟨pc, h⟩
  · exact absurd h.stack ha
  · have hhead : s.stack.head? = some pc := by rw [h.stack]; rfl
    cases pc with
    | next =>
      refine ⟨.go, nofun, ?_⟩
      rw [step, go, hhead]
      dsimp only
      split <;> rfl
    | filter rest ev =>
      cases rest with
      | nil => exact ⟨.go, nofun, by rw [step, go, hhead]; rfl⟩
      | cons f rest => exact ⟨.filtered none, nofun, by simp [step, hhead]⟩
    | enter ev => exact ⟨.go, nofun, by rw [step, go, hhead]; rfl⟩
    | inFunc ev => exact ⟨.answer .stay, nofun, by rw [step, hhead]; rfl⟩
    | zomState rest =>
      cases rest with
      | nil => exact ⟨.go, nofun, by rw [step, go, hhead]; rfl⟩
      | cons l rest => exact ⟨.returned, nofun, by rw [step, hhead]; rfl⟩
    | zomDestroyed rest =>
      cases rest with
      | nil => exact ⟨.go, nofun, by rw [step, go, hhead]; rfl⟩
      | cons l rest => exact ⟨.returned, nofun, by rw [step, hhead]; rfl⟩
    | zomClean => exact ⟨.go, nofun, by rw [step, go, hhead]; rfl⟩
    | notify rest =>
      cases rest with
      | nil => exact ⟨.go, nofun, by rw [step, go, hhead]; rfl⟩
      | cons l rest => exact ⟨.returned, nofun, by rw [step, hhead]; rfl⟩

/-- When filters and listeners do not throw and state functions throw truthy
values only, the events of an object are handled one at a time in the order they
came, but for those that its end discards; at rest nothing is left over; and a
call of `eventHandler` can always go on, and returns. -/
theorem eventHandler_law :
    (∀ tr s, (dispatcher (ε := ε) (ν := ν) (φ := φ) (ι := ι)).RunIf Orderly tr s →
      s.Dispatched (tr.flatMap DispatchObs.dropped) tr ∧
      (tr.flatMap DispatchObs.dropped ≠ [] → s.i_state = .zom) ∧
      (s.stack ≠ [] → ∃ a, ¬ s.Reenters a ∧ (s.step a).isSome)) ∧
    ∀ b : (dispatcher (ε := ε) (ν := ν) (φ := φ) (ι := ι)).Behavior,
      (∀ n, (b.state n).Orderly (b.act n)) → ∀ n, Returns b n := by
  refine ⟨fun tr s h => ?_, fun b hc n => returns hc n⟩
  have hrec := run_recorded h
  refine ⟨hrec.steady.dispatched hrec.fifo, fun hd => ?_, enabled hrec.steady⟩
  rcases hrec.steady with hs | ⟨pc, hs⟩
  · exact hs.ended.mp (hrec.kept hd)
  · exact hs.ended.mp (hrec.kept hd)

end

open Dispatcher

/-- A run in which an event comes to a broken object, and one is queued behind the
event that ends another. -/
theorem eventHandler_law_ended :
    ∃ tr s, (dispatcher (ε := Nat) (ν := Bool) (φ := Unit) (ι := Unit)).RunIf Orderly tr s ∧
      [.taken 1, .discarded [2]] ⊆ tr ∧ s.Dispatched [2] tr ∧ s.i_state = .zom := by
  obtain ⟨tr, s, h, ht, hd, hz⟩ := Transition.Machine.exists_run
    (M := dispatcher (ε := Nat) (ν := Bool) (φ := Unit) (ι := Unit)) (C := Orderly)
    (P := fun tr s => [.taken 1, .discarded [2]] ⊆ tr ∧ tr.flatMap DispatchObs.dropped = [2] ∧
      s.i_state = .zom)
    [.setEventFilter (), .add_listener .state (), .call 0, .go, .filtered (some 0), .go, .go,
      .call 1, .answer (.goto false (.other true)), .go, .filtered (some 1), .go, .go, .call 2,
      .answer (.goto true .zomStart), .go, .returned, .go, .go, .go, .go]
    (s := .initial false) ⟨false, rfl⟩ (by decide +kernel)
  exact ⟨tr, s, h, ht, hd ▸ (eventHandler_law.1 tr s h).1, hz⟩

/-- The end of an object discards what is queued. A listener that throws leaves it
marked as busy for good, and `throw null` keeps `ERR_START` failing for ever. -/
theorem dispatcher_freezes :
    (∃ tr s, (dispatcher (ε := Nat) (ν := Bool) (φ := Unit) (ι := Unit)).RunIf Orderly tr s ∧
      ¬ s.Dispatched [] tr) ∧
    (∃ tr s, (dispatcher (ε := Nat) (ν := Bool) (φ := Unit) (ι := Unit)).Run tr s ∧
      ¬ s.Dispatched [] tr ∧ s.stack = [] ∧ s.i_processed = true) ∧
    ∃ tr s, (dispatcher (ε := Nat) (ν := Bool) (φ := Unit) (ι := Unit)).Run tr s ∧
      s.stack ≠ [] ∧ s.step .go = some (s, []) := by
  refine ⟨?_, ?_, ?_⟩
  · obtain ⟨tr, s, h, ht⟩ := Transition.Machine.exists_run
      (M := dispatcher (ε := Nat) (ν := Bool) (φ := Unit) (ι := Unit)) (C := Orderly)
      (P := fun tr s => tr.filterMap DispatchObs.accepted? ≠
        tr.filterMap DispatchObs.taken? ++ [] ++ s.queue)
      [.call 0, .go, .go, .go, .call 1, .answer (.goto true .zomStart), .go, .go, .go, .go]
      (s := .initial false) ⟨false, rfl⟩ (by decide +kernel)
    exact ⟨tr, s, h, fun hd => ht hd.fifo⟩
  · obtain ⟨tr, s, h, hs, hp⟩ := Transition.Machine.exists_run
      (M := dispatcher (ε := Nat) (ν := Bool) (φ := Unit) (ι := Unit)) (C := fun _ _ => True)
      (P := fun _ s => s.stack = [] ∧ s.i_processed = true)
      [.add_listener .state (), .call 0, .go, .go, .go, .answer (.goto false (.other true)), .go,
        .throw .truthy]
      (s := .initial false) ⟨false, rfl⟩ (by decide +kernel)
    exact ⟨tr, s, h, fun hd => absurd ((hd.idle hs).1.symm.trans hp) (by decide), hs, hp⟩
  · exact Transition.Machine.exists_run
      (M := dispatcher (ε := Nat) (ν := Bool) (φ := Unit) (ι := Unit)) (C := fun _ _ => True)
      (P := fun _ s => s.stack ≠ [] ∧ s.step .go = some (s, []))
      [.call 0, .go, .go, .go, .throw .null, .go]
      (s := .initial false) ⟨false, rfl⟩ (by decide +kernel)

end TinyState.Js
