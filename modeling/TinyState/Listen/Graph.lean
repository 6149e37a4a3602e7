import TinyState.Event
import TinyState.Lib.Machine
import Mathlib.Logic.Function.Basic

/-!
# Listeners

An event handle joins a source and a listener: it is in the `event_listener`
list of the source for its type and in the `handle_list` of the listener. Every
operation takes the locks of the objects it works on, one after the other, and
is one step here.

A list that has not been made yet (`thNULL`) is an empty one.
-/

namespace TinyState

/-- `stdEventHandle`. The last two fields are history: what the constructor was given. -/
structure Eh (ω : Type) where
  source : Option ω
  listener : Option ω
  type : Int
  ofSource : ω
  ofListener : ω
  deriving DecidableEq, Repr

/-- How far an object has come: `C_ZOM` is its category from `ending` on, and
its state is `ZOM` in the last. -/
inductive Life
  | live | ending | drained | zom
  deriving DecidableEq, Repr

/-- Handles are known by their number; `next` is the number of the next one. -/
structure Graph (ω : Type) where
  life : ω → Life
  lists : ω → Int → List Nat
  handles : ω → List Nat
  eh : Nat → Option (Eh ω)
  next : Nat

/-- `TSE_MAX`. -/
def tseMax : Int := EventType.max

namespace Graph

variable {ω : Type} [DecidableEq ω]

/-- `event_listener[type]->del(eh,0)`. -/
def delListener (g : Graph ω) (this : ω) (type : Int) (h : Nat) : Graph ω :=
  { g with
    lists := Function.update g.lists this
      (Function.update (g.lists this) type ((g.lists this type).erase h)) }

/-- `remove_handle` of one handle. -/
def delHandle (g : Graph ω) (this : ω) (h : Nat) : Graph ω :=
  { g with handles := Function.update g.handles this ((g.handles this).erase h) }

def removeListener (g : Graph ω) (this : ω) (h : Nat) : Graph ω :=
  match g.eh h with
  | none => g
  | some e =>
    let g := g.delListener this e.type h
    match e.listener with
    | some lsn => g.delHandle lsn h
    | none => g

/-- `stdEventHandle::remove`, which the destructor calls too. -/
def remove (g : Graph ω) (h : Nat) : Graph ω :=
  match g.eh h with
  | none => g
  | some e =>
    let g := { g with
      eh := Function.update g.eh h (some { e with source := none, listener := none }) }
    let g := match e.source with
      | some src => g.removeListener src h
      | none => g
    match e.listener with
    | some lsn => g.delHandle lsn h
    | none => g

def removeHandle (g : Graph ω) (this : ω) : Option Nat → Graph ω
  | some h => g.delHandle this h
  | none =>
    (g.handles this).foldl remove { g with handles := Function.update g.handles this [] }

def addListener (g : Graph ω) (this listener : ω) (type : Int) : Option Nat × Graph ω :=
  if type < 0 ∨ tseMax ≤ type ∨ g.life this = .zom ∨ g.life listener = .zom then (none, g)
  else (some g.next, { g with
    eh := Function.update g.eh g.next (some ⟨some this, some listener, type, this, listener⟩)
    lists := Function.update g.lists this
      (Function.update (g.lists this) type (g.lists this type ++ [g.next]))
    handles := Function.update g.handles listener (g.next :: g.handles listener)
    next := g.next + 1 })

def searchListen (g : Graph ω) (this listener : ω) (type : Int) : Option Nat :=
  if type ≤ 0 ∨ tseMax ≤ type then none
  else (g.lists this type).find? fun h => (g.eh h).any (·.listener = some listener)

def listen (g : Graph ω) (this listener : ω) (type : Int) : Option Nat × Graph ω :=
  match g.searchListen this listener type with
  | some h => (some h, g)
  | none => g.addListener this listener type

/-- `get_handle_list`. -/
def getHandleList (g : Graph ω) (this : ω) (type : Int) : List Nat :=
  if g.life this ≠ .live then []
  else if type = 0 then g.handles this
  else (g.handles this).filter fun h => (g.eh h).any (·.type = type)

def cleanStdEventHandle (g : Graph ω) (this : ω) (type : Int) : Graph ω :=
  (g.getHandleList this type).foldl remove g

/-- The handles to which `invoke_listen` delivers, and the lists it leaves. -/
def invokeListen (g : Graph ω) (this : ω) (type : Int) (clearFlag : Bool) : List Nat × Graph ω :=
  if type ≤ 0 ∨ tseMax ≤ type then ([], g)
  else (g.lists this type,
    if clearFlag then
      { g with lists := Function.update g.lists this (Function.update (g.lists this) type []) }
    else g)

/-- `ZOM_TINYSTATE_LAST2` takes a handle off its own `handle_list`. -/
def dropHandle (this : ω) (g : Graph ω) (h : Nat) : Graph ω := (g.delHandle this h).remove h

/-- `ZOM_TINYSTATE_LAST2` takes a handle off one of its lists of listeners. -/
def dropListener (this : ω) (type : Int) (g : Graph ω) (h : Nat) : Graph ω :=
  (g.delListener this type h).remove h

def drainList (this : ω) (g : Graph ω) (type : Int) : Graph ω :=
  (g.lists this type).foldl (dropListener this type) g

/-- What `ZOM_TINYSTATE_LAST2` does to the handles, after its `invoke_state`. -/
def last2 (g : Graph ω) (this : ω) : Graph ω :=
  ((List.range EventType.max).map Int.ofNat).foldl (drainList this)
    ((g.handles this).foldl (dropHandle this) g)

def setLife (g : Graph ω) (this : ω) (l : Life) : Graph ω :=
  { g with life := Function.update g.life this l }

end Graph

inductive GraphOp (ω : Type)
  | listen (this listener : ω) (type : Int)
  | addListener (this listener : ω) (type : Int)
  | removeListener (this : ω) (h : Nat)
  | removeHandle (this : ω) (h : Option Nat)
  | clean (this : ω) (type : Int)
  | remove (h : Nat)
  | invokeListen (this : ω) (type : Int) (clearFlag : Bool)
  /-- `invoke_check` with a state of the category `C_ZOM`. -/
  | enterZom (this : ω)
  | last2 (this : ω)
  /-- `invoke_check` with `ZOM`. -/
  | zom (this : ω)
  deriving DecidableEq, Repr

namespace Graph

variable {ω : Type} [DecidableEq ω]

def step (g : Graph ω) : GraphOp ω → Option (Graph ω)
  | .listen this listener type => some (g.listen this listener type).2
  | .addListener this listener type => some (g.addListener this listener type).2
  | .removeListener this h => if h < g.next then some (g.removeListener this h) else none
  | .removeHandle this (some h) => if h < g.next then some (g.removeHandle this (some h)) else none
  | .removeHandle this none => some (g.removeHandle this none)
  | .clean this type => some (g.cleanStdEventHandle this type)
  | .remove h => if h < g.next then some (g.remove h) else none
  | .invokeListen this type clearFlag => some (g.invokeListen this type clearFlag).2
  | .enterZom this => if g.life this = .live then some (g.setLife this .ending) else none
  | .last2 this => if g.life this = .ending then some ((g.last2 this).setLife this .drained) else none
  | .zom this => if g.life this = .drained then some (g.setLife this .zom) else none

/-- No handle has been made yet. -/
def empty : Graph ω := ⟨fun _ => .live, fun _ _ => [], fun _ => [], fun _ => none, 0⟩

end Graph

/-- Any number of objects, and every sequence of operations on them. -/
def Listening (ω : Type) [DecidableEq ω] :
    Transition.Machine (Graph ω) (GraphOp ω) Empty where
  init g := g = .empty
  step g op := (g.step op).map (·, [])

end TinyState
