import TinyState.Lib.Machine
import Mathlib.Logic.Function.Basic

/-!
# Deferred destruction

`stdObject`: an object whose count has come down to zero is put on the delete
list of its bucket, and one that comes down to the count it watches on the
`refEvent` list, both through the one link `next`. The buckets are the nodes of
a binary tree, each under a lock of its own; `relref` raises flags from its
bucket to the root, one lock at a time, and stops where a flag is set already.
The collector takes lists and flags from the root downwards.

Objects are known by their addresses, and an address is not used again. The
references of the callers are counted in `held`; that a caller has the one it
drops is left to the properties that need it. A destructor is a stretch of the
collector's run in which calls on other objects come like those of any thread.
-/

namespace TinyState

open Transition

abbrev Address := Nat

/-- `stdObject_REF_MUTEX_NUM`. -/
def refMutexNum : Nat := 101

/-- `doID`. -/
def bucket (x : Address) : Nat := x % refMutexNum

/-- `refFlags` of a bucket: the bits for its two children. -/
structure RefFlags where
  left : Bool
  right : Bool
  deriving DecidableEq, Repr

def RefFlags.none : RefFlags := ⟨false, false⟩

/-- `(id-1)>>1`. -/
def parent (id : Nat) : Nat := (id - 1) / 2

/-- `refFlags & mask`, for the child `id`. -/
def RefFlags.get (f : RefFlags) (id : Nat) : Bool := if (id - 1) % 2 = 0 then f.left else f.right

def RefFlags.set (f : RefFlags) (id : Nat) : RefFlags :=
  if (id - 1) % 2 = 0 then { f with left := true } else { f with right := true }

/-- The children that the collector goes on to. -/
def RefFlags.children (f : RefFlags) (id : Nat) : List Nat :=
  (if f.left then [id * 2 + 1] else []) ++ if f.right then [id * 2 + 2] else []

/-- A call of `gc` that has emptied its bucket: what it has taken and not come
to yet, and the calls that are to follow. -/
structure Sweep where
  id : Nat
  target : Option Address
  ev : Option Address
  flags : RefFlags
  rest : List Nat
  deriving DecidableEq, Repr

/-- Where the collector stands. -/
inductive Collector
  | asleep
  /-- Before the test of the root bucket. -/
  | head
  /-- The calls of `gc` to make. -/
  | calling (ids : List Nat)
  | sweeping (w : Sweep)
  /-- `refEvent` of the object is running, and its `relref` to follow. -/
  | callback (x : Address) (w : Sweep)
  /-- That `relref` has reached this bucket. -/
  | raising (id : Nat) (w : Sweep)
  | over
  deriving DecidableEq, Repr

/-- Where a `relref` of the collector leaves it. -/
def Sweep.resume (w : Sweep) : Option Nat → Collector
  | none => .sweeping w
  | some id => .raising id w

/-- `raising` are the buckets that the callers' `relref` have reached, above
which the flags are still to be set. The last two fields are history: the
references of the callers, and the objects that are waiting for `refEvent`. -/
structure GcSys where
  ref : Address → Int
  refEventNum : Address → Int
  next : Address → Option Address
  refFlags : Nat → RefFlags
  refList : Nat → Option Address
  refEventHead : Nat → Option Address
  refEventTail : Nat → Option Address
  finishFlag : Bool
  raising : List Nat
  collector : Collector
  panicked : Bool
  held : Address → Nat
  waiting : Address → Bool

inductive GcAct
  | addref (x : Address)
  | relref (x : Address)
  | nRefEvent (x : Address) (n : Int)
  /-- One of the `relref` that raise flags goes on. -/
  | raise (i : Nat)
  /-- The collector goes on. -/
  | gc
  /-- The collector wakes up for no reason. -/
  | wake
  | finish
  deriving DecidableEq, Repr

inductive GcObs
  /-- The count that `nRefEvent` watches is reached. -/
  | reached (x : Address)
  | refEvent (x : Address)
  /-- The count is zero and the object is on the delete list. -/
  | queued (x : Address)
  | deleted (x : Address)
  deriving DecidableEq, Repr

namespace GcSys

/-- `refCond->broadcast()`. -/
def broadcast (s : GcSys) : GcSys :=
  if s.collector = .asleep then { s with collector := .head } else s

/-- The end of the list of the bucket. -/
def pushEvent (s : GcSys) (x : Address) : GcSys :=
  match s.refEventHead (bucket x), s.refEventTail (bucket x) with
  | some _, some t => { s with
      next := Function.update s.next t (some x)
      refEventTail := Function.update s.refEventTail (bucket x) (some x) }
  | _, _ => { s with
      refEventHead := Function.update s.refEventHead (bucket x) (some x)
      refEventTail := Function.update s.refEventTail (bucket x) (some x) }

def pushDelete (s : GcSys) (x : Address) : GcSys :=
  { s with
    next := Function.update s.next x (s.refList (bucket x))
    refList := Function.update s.refList (bucket x) (some x) }

/-- From the root bucket the collector is woken; from any other one the flags
above it are to be raised. -/
def up (s : GcSys) (id : Nat) : GcSys × Option Nat :=
  if id = 0 then (s.broadcast, none) else (s, some id)

/-- The part of `relref` under the lock of the object's bucket; `some id` when
flags are to be raised from there. -/
def relref (s : GcSys) (x : Address) : GcSys × Option Nat × List GcObs :=
  if s.ref x = -1 then (s, none, [])
  else if s.ref x ≤ 0 then ({ s with panicked := true }, none, [])
  else if s.ref x ≤ s.refEventNum x + 1 then
    let r := (pushEvent { s with
      refEventNum := Function.update s.refEventNum x (-1)
      waiting := Function.update s.waiting x true } x).up (bucket x)
    (r.1, r.2, [.reached x])
  else
    let s := { s with ref := Function.update s.ref x (s.ref x - 1) }
    if s.ref x ≠ 0 then (s, none, [])
    else
      let r := (s.pushDelete x).up (bucket x)
      (r.1, r.2, [.queued x])

/-- One turn of the loop that raises flags, above the bucket `id`. -/
def raise (s : GcSys) (id : Nat) : GcSys × Option Nat :=
  let nxt := parent id
  if (s.refFlags nxt).get id then (s, none)
  else up { s with
    refFlags := Function.update s.refFlags nxt ((s.refFlags nxt).set id) } nxt

/-- The loop head of `gc_thread`. -/
def testRoot (s : GcSys) : GcSys :=
  if s.refList 0 = none ∧ s.refFlags 0 = .none ∧ s.refEventHead 0 = none then
    { s with collector := if s.finishFlag then .over else .asleep }
  else { s with collector := .calling [0] }

/-- `gc(id)` empties its bucket. -/
def take (s : GcSys) (id : Nat) (rest : List Nat) : GcSys :=
  { s with
    refList := Function.update s.refList id none
    refFlags := Function.update s.refFlags id .none
    refEventHead := Function.update s.refEventHead id none
    refEventTail := Function.update s.refEventTail id none
    collector := .sweeping ⟨id, s.refList id, s.refEventHead id, s.refFlags id, rest⟩ }

/-- A step of the collector. -/
def gc (s : GcSys) : Option (GcSys × List GcObs) :=
  match s.collector with
  | .asleep | .over => none
  | .head => some (s.testRoot, [])
  | .calling [] => some ({ s with collector := .head }, [])
  | .calling (id :: rest) => some (s.take id rest, [])
  | .sweeping w =>
    match w.target, w.ev with
    | some x, _ =>
      if s.ref x ≠ 0 then some ({ s with panicked := true }, [])
      else some ({ s with
        ref := Function.update s.ref x (-1)
        collector := .sweeping { w with target := s.next x } }, [.deleted x])
    | none, some x => some ({ s with
        waiting := Function.update s.waiting x false
        collector := .callback x { w with ev := s.next x } }, [.refEvent x])
    | none, none => some ({ s with
        collector := .calling (w.flags.children w.id ++ w.rest) }, [])
  | .callback x w =>
    let (s, o, os) := ({ s with collector := .sweeping w } : GcSys).relref x
    some ({ s with collector := w.resume o }, os)
  | .raising id w =>
    let (s, o) := ({ s with collector := .sweeping w } : GcSys).raise id
    some ({ s with collector := w.resume o }, [])

def step (s : GcSys) (a : GcAct) : Option (GcSys × List GcObs) :=
  if s.panicked then none
  else match a with
    | .addref x =>
      if s.ref x = -1 then some (s, [])
      else some ({ s with
        ref := Function.update s.ref x (s.ref x + 1)
        held := Function.update s.held x (s.held x + 1) }, [])
    | .relref x =>
      let (s, o, os) := ({ s with
        held := Function.update s.held x (s.held x - 1) } : GcSys).relref x
      some ({ s with raising := o.toList ++ s.raising }, os)
    | .nRefEvent x n => some ({ s with refEventNum := Function.update s.refEventNum x n }, [])
    | .raise i =>
      match s.raising[i]? with
      | none => none
      | some id =>
        let (s, o) := ({ s with raising := s.raising.eraseIdx i } : GcSys).raise id
        some ({ s with raising := o.toList ++ s.raising }, [])
    | .gc => s.gc
    | .wake => if s.collector = .asleep then some ({ s with collector := .head }, []) else none
    | .finish => some ({ s with finishFlag := true }.broadcast, [])

/-- `is_stable()`; `wait_stable()` returns where it holds. -/
def isStable (s : GcSys) : Bool :=
  s.refList 0 == none && s.refFlags 0 == .none && s.refEventHead 0 == none

/-- Every object as its constructor leaves it, and the collector at its start. -/
def initial : GcSys where
  ref _ := 1
  refEventNum _ := -1
  next _ := none
  refFlags _ := .none
  refList _ := none
  refEventHead _ := none
  refEventTail _ := none
  finishFlag := false
  raising := []
  collector := .head
  panicked := false
  held _ := 1
  waiting _ := false

end GcSys

def Gc : Machine GcSys GcAct GcObs where
  init s := s = .initial
  step := GcSys.step

end TinyState
