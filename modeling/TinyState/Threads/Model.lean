import TinyState.Dispatch.Locks
import TinyState.Lib.RecursiveMutex

/-!
# Threads that dispatch

Any number of threads and objects. A thread has a stack of frames: calls of
`eventHandler`, each made by the filter, a state function, a listener or the
pool on behalf of the call under it, and the sections of an application mutex
that such code opens and closes around further calls (`sThreadMutexHandle`,
`sThreadMutexHandleRelease`). Only the top frame moves.

A frame remembers the levels of the mutexes that its thread had when it was
pushed. An unlock by a thread that is not the holder is a panic.
-/

namespace TinyState

open Transition

/-- `ω` are the objects and `α` the applications. -/
inductive Frame (ω α : Type)
  | dispatch (o : ω) (k : Call) (entry : α → Nat)
  | lock (a : α) (entry : α → Nat)
  | release (a : α) (entry : α → Nat)

/-- What does not change: the state table and the application of each object,
and which threads are workers of a pool. -/
structure World (τ ω α : Type) where
  table : ω → StateTable
  app : ω → α
  worker : τ → Bool

structure Threads (τ ω α : Type) where
  objs : ω → Obj (τ × Nat)
  stack : τ → List (Frame ω α)
  mtx : α → RecMutex τ
  panicked : Bool

inductive ThreadAct (ω α : Type)
  | call (o : ω) (ev : StdEvent)
  /-- A worker dispatches an object (`__tsThread_body`). -/
  | body (o : ω) (ev : StdEvent) (thrInfo : ThrId)
  | act (a : CallAct)
  | ret
  | lock (a : α)
  | release (a : α)
  /-- The innermost section ends. -/
  | close

/-- Code that may call other objects is running. -/
def Pc.outside : Pc → Bool
  | .escaping | .filtering _ | .inState _ | .inThread _ | .notify | .handoff => true
  | _ => false

/-- The top of the stack may call `eventHandler` or open a section. -/
def mayCall {ω α : Type} : List (Frame ω α) → Bool
  | .dispatch _ k _ :: _ => k.pc.outside
  | _ => true

namespace Threads

variable {τ ω α : Type} [DecidableEq τ] [DecidableEq ω] [DecidableEq α] (w : World τ ω α)
  (s : Threads τ ω α) (t : τ)

/-- The levels that the thread holds. -/
def levels (a : α) : Nat := (s.mtx a).level t

def push (f : Frame ω α) : Threads τ ω α :=
  { s with stack := Function.update s.stack t (f :: s.stack t) }

def pop : Threads τ ω α :=
  { s with stack := Function.update s.stack t (s.stack t).tail }

/-- `mtx.lock()`; not possible while another thread holds it. -/
def lock (a : α) : Option (Threads τ ω α) := do
  let m ← (s.mtx a).lock t
  some { s with mtx := Function.update s.mtx a m }

def unlock (a : α) : Threads τ ω α :=
  match (s.mtx a).unlock t with
  | some m => { s with mtx := Function.update s.mtx a m }
  | none => { s with panicked := true }

/-- What a step of a call does to the application mutex. -/
def effect (a : α) : Effect → Option (Threads τ ω α)
  | .mtxLock => s.lock t a
  | .mtxUnlock => some (s.unlock t a)
  | .none | .poolIns => some s

/-- The top frame of the thread takes a step of its own. -/
def stepCall (o : ω) (k : Call) (entry : α → Nat) (fs : List (Frame ω α)) (x : CallAct) :
    Option (Threads τ ω α) := do
  let r ← k.step (w.table o) (t, fs.length) (s.objs o) x
  { s with
    objs := Function.update s.objs o r.obj
    stack := Function.update s.stack t (.dispatch o r.call entry :: fs) }.effect t (w.app o) r.eff

def step : ThreadAct ω α → Option (Threads τ ω α)
  | .call o ev =>
    if mayCall (s.stack t) then some (s.push t (.dispatch o (.enter ev none) (s.levels t)))
    else none
  | .body o ev thrInfo =>
    if w.worker t ∧ (s.stack t).length = 0 then
      some (s.push t (.dispatch o (.enter ev (some thrInfo)) (s.levels t)))
    else none
  | .act x =>
    match s.stack t with
    | .dispatch o k entry :: fs => s.stepCall w t o k entry fs x
    | _ => none
  | .ret =>
    match s.stack t with
    | .dispatch _ k _ :: _ => if k.pc = .returned then some (s.pop t) else none
    | _ => none
  | .lock a => if mayCall (s.stack t) then (s.push t (.lock a (s.levels t))).lock t a else none
  | .release a =>
    if mayCall (s.stack t) ∧ 0 < s.levels t a then
      some ((s.push t (.release a (s.levels t))).unlock t a)
    else none
  | .close =>
    match s.stack t with
    | .lock a _ :: _ => some ((s.pop t).unlock t a)
    | .release a _ :: _ => (s.pop t).lock t a
    | _ => none

end Threads

/-- Every object as `inherit` leaves it, every mutex free and every stack empty. -/
def Threading {τ ω α : Type} [DecidableEq τ] [DecidableEq ω] [DecidableEq α] (w : World τ ω α) :
    Machine (Threads τ ω α) (τ × ThreadAct ω α) Empty where
  init s := ∃ filterLock : ω → Bool,
    s = ⟨fun o => Obj.inherit (w.table o) (filterLock o), fun _ => [], fun _ => .free, false⟩
  step s x := (s.step w x.1 x.2).map (·, [])

end TinyState
