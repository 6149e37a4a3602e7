import TinyState.Lib.LinkedList
import TinyState.Lib.Machine

/-!
# ts2Parallel

A root and the siblings that `spawn` makes for it. The states `INI_START` and
`FIN_START` run under the application's mutex and are one step each; the body
runs from its call to its return, and whatever the others do may come between.
A body may spawn, cancel and end when it likes, and may be called again for any
event. `spawn` returns when the `INI_START` of the new sibling has run.

`cancel` and `destroy` of the root walk the list of the siblings. A body in a
thread calls them without the mutex, so a walk is cut wherever it reads a link.
-/

namespace TinyState

open Transition LinkedList

/-- The states of `ts2Parallel`. -/
inductive ParallelState
  | iniStart
  | actStart
  | actStartThr
  | finStart
  | finTinyStateStart
  | zom
  /-- The body has thrown `EX_ERROR`. -/
  | errStart
  deriving DecidableEq, Repr

/-- A `ts2Parallel`. `parent = none` stands for a creator that is no `ts2Parallel`.
`inBody` and `spawning` say where a body is; `due` that `FIN_START` is going to be
run, for its own sake or for a wakeup. -/
structure Worker (φ : Type) where
  parent : Option Nat
  type : Int
  fn : Option φ
  next : Option Nat
  root : Nat
  org : Option φ
  orgType : Int
  fn_ : Option φ
  cancelling : Bool
  destroyFlag : Bool
  state : ParallelState
  inBody : Bool
  spawning : Option Nat
  due : Bool

/-- A walk along the list: about to look at a sibling, with the link of a sibling
read, inside the `destroy` of one, at the end. -/
inductive Walk
  | at (p : Option Nat)
  | holding (p : Nat) (nxt : Option Nat)
  | inside (nxt : Option Nat)
  | finished
  deriving DecidableEq, Repr

/-- A call of `cancel` or `destroy` on the root. `first` says that it is still the
walk of `cancel`, which calls `destroy` when it is done. The last two fields are
history: who was in the list at the call, and on whom `destroy` has been called
since. -/
structure Cascade where
  first : Bool
  walk : Walk
  listed : List Nat
  called : List Nat
  deriving DecidableEq, Repr

/-- The objects by their addresses, which are given out in order; the root is the
first. `lost` records that a loop has run off the list. -/
structure Parallel (φ : Type) where
  obj : Nat → Worker φ
  made : Nat
  cascades : List Cascade
  lost : Bool

inductive BodyEnd
  | stay
  | done
  | error
  deriving DecidableEq, Repr

inductive ParallelAct
  | iniStart (x : Nat)
  /-- An event of `x` is evaluated in one of the `ACT` states. -/
  | call (x : Nat)
  | spawn (x : Nat) (type : Int)
  | leave (x : Nat) (r : BodyEnd)
  | finStart (x : Nat)
  | zom (x : Nat)
  | cancel (x : Nat)
  | destroy (x : Nat)
  /-- The walk with the given number goes on. -/
  | cascade (i : Nat)
  deriving DecidableEq, Repr

inductive ParallelObs (φ : Type)
  | body (x : Nat) (fn : φ)
  /-- The creator gets `TSE_RETURN` from `x`. -/
  | ret (x : Nat)
  deriving DecidableEq, Repr

namespace ParallelState

def act : ParallelState → Bool
  | .actStart | .actStartThr => true
  | _ => false

/-- `FIN_START` is behind it. -/
def ended : ParallelState → Bool
  | .finTinyStateStart | .zom => true
  | _ => false

end ParallelState

namespace Parallel

variable {φ : Type}

def next (s : Parallel φ) (x : Nat) : Option Nat := (s.obj x).next

/-- A sibling that has been put into the list and has not finished. -/
def Listed (s : Parallel φ) (x : Nat) : Prop :=
  x ≠ 0 ∧ x < s.made ∧ (s.obj x).state ≠ .iniStart ∧ (s.obj x).state.ended = false

instance (s : Parallel φ) (x : Nat) : Decidable (s.Listed x) :=
  inferInstanceAs (Decidable (_ ∧ _ ∧ _ ∧ _))

def set (s : Parallel φ) (x : Nat) (w : Worker φ) : Parallel φ :=
  { s with obj := Function.update s.obj x w }

def link (s : Parallel φ) (x : Nat) (p : Option Nat) : Parallel φ :=
  s.set x { s.obj x with next := p }

/-- `thNEW(ts2Parallel,(parent,type,fn))`, up to `INI_START`. -/
def new (parent : Option Nat) (type : Int) (fn : Option φ) : Worker φ where
  parent := parent
  type := type
  fn := fn
  next := none
  root := 0
  org := none
  orgType := 0
  fn_ := none
  cancelling := false
  destroyFlag := false
  state := .iniStart
  inBody := false
  spawning := none
  due := false

/-- `INI_START`, after the links have been set. -/
def inherit (s : Parallel φ) (x : Nat) : Parallel φ :=
  let w := s.obj x
  let r := s.obj w.root
  let type := if w.type < 0 then r.orgType else w.type
  s.set x { w with
    fn_ := r.org
    fn := none
    type := type
    state := if type = 0 then .actStart else .actStartThr }

def iniStart (s : Parallel φ) (x : Nat) : Parallel φ :=
  let w := s.obj x
  match w.parent.filter fun p => (s.obj p).state ≠ .zom with
  | none => (s.set x { w with
      root := x
      next := none
      org := w.fn
      orgType := w.type }).inherit x
  | some p =>
    let root := (s.obj p).root
    let s := s.set x { w with
      root := root
      next := s.next root }
    (s.link root (some x)).inherit x

/-- `wakeup`. -/
def wakeup (s : Parallel φ) (x : Nat) : Parallel φ :=
  s.set x { s.obj x with due := true }

/-- The end of a sibling: the loop over the list, from the root on. -/
def unlink (s : Parallel φ) (x root : Nat) : Parallel φ :=
  match pred s.next x s.made root with
  | none => { s with lost := true }
  | some np =>
    let s := (s.link np (s.next x)).link x none
    let s := if s.next root = none then s.wakeup root else s
    s.set x { s.obj x with state := .finTinyStateStart }

/-- The body is not called any more. -/
def dropFn (s : Parallel φ) (x : Nat) : Parallel φ :=
  s.set x { s.obj x with
    fn_ := none
    due := false }

def finStart (s : Parallel φ) (x : Nat) : Parallel φ × List (ParallelObs φ) :=
  let s := s.dropFn x
  if (s.obj x).root = x then
    if s.next x ≠ none then (s, [])
    else (s.set x { s.obj x with
      org := none
      state := .finTinyStateStart }, [.ret x])
  else (s.unlink x (s.obj x).root, [])

def isDestroyed (s : Parallel φ) (x : Nat) : Bool :=
  (s.obj x).state == .zom || (s.obj x).destroyFlag

/-- `tinyState_::destroy`. -/
def destroyBase (s : Parallel φ) (x : Nat) : Parallel φ :=
  if s.isDestroyed x then s
  else s.set x { s.obj x with
    destroyFlag := true
    due := true }

def members (s : Parallel φ) : List Nat := (List.range s.made).filter (s.Listed ·)

/-- A call on the root: one that its guard turns away is over at once. -/
def begin (s : Parallel φ) (first turnedAway : Bool) : Parallel φ :=
  { s with cascades := s.cascades ++ [{
      first := first
      walk := if turnedAway then .finished else .at (s.next 0)
      listed := s.members
      called := [] }] }

/-- `cancel`, which the siblings hand on to the root. -/
def cancel (s : Parallel φ) : Parallel φ :=
  if (s.obj 0).state = .zom ∨ (s.obj 0).cancelling then s.begin true true
  else (s.set 0 { s.obj 0 with cancelling := true }).begin true false

def destroy (s : Parallel φ) (x : Nat) : Parallel φ :=
  if x = 0 then
    if s.isDestroyed 0 then s.begin false true else s.begin false false
  else s.destroyBase x

def setCascade (s : Parallel φ) (i : Nat) (f : Cascade) : Parallel φ :=
  { s with cascades := s.cascades.set i f }

/-- `destroy` is called on a sibling: every call of a cascade that is under way
takes note. -/
def note (s : Parallel φ) (x : Nat) : Parallel φ :=
  { s with cascades := s.cascades.map fun f => { f with called := x :: f.called } }

/-- Where a walk goes on to. -/
def advance (s : Parallel φ) (f : Cascade) : Cascade :=
  match f.walk with
  | .at (some p) => { f with walk := .holding p (s.next p) }
  | .at none =>
    -- `cancel` goes on with `destroy`, which walks again unless it has been called before
    if f.first = true ∧ s.isDestroyed 0 = false then { f with
      first := false
      walk := .at (s.next 0) }
    else { f with walk := .finished }
  | .holding _ nxt => { f with walk := .inside nxt }
  | .inside nxt => { f with walk := .at nxt }
  | .finished => f

/-- The next step of a walk, which ends with the `destroy` of the base class. -/
def cascade (s : Parallel φ) (i : Nat) (f : Cascade) : Option (Parallel φ) :=
  let g := s.advance f
  match f.walk with
  | .finished => none
  | .holding p _ => some (((s.setCascade i g).note p).destroyBase p)
  | _ => some ((if g.walk = .finished then s.destroyBase 0 else s).setCascade i g)

/-- A body that spawns waits for the `INI_START` of the new sibling. -/
def Free (s : Parallel φ) (x : Nat) : Prop :=
  (s.obj x).inBody = true ∧ (s.obj x).spawning.all (fun c => (s.obj c).state != .iniStart) = true

instance (s : Parallel φ) (x : Nat) : Decidable (s.Free x) := inferInstanceAs (Decidable (_ ∧ _))

/-- `body(ev)`: an empty function has nothing to do. -/
def call (s : Parallel φ) (x : Nat) : Parallel φ × List (ParallelObs φ) :=
  match (s.obj x).fn_ with
  | none => (s.set x { s.obj x with
      state := .finStart
      due := true }, [])
  | some f => (s.set x { s.obj x with
      inBody := true
      due := false }, [.body x f])

def spawn (s : Parallel φ) (x : Nat) (type : Int) : Parallel φ :=
  let s' := s.set x { s.obj x with spawning := some s.made }
  { s'.set s.made (new (some (s.obj x).root) type none) with made := s.made + 1 }

def leave (s : Parallel φ) (x : Nat) : BodyEnd → Parallel φ
  | .stay => s.set x { s.obj x with inBody := false }
  | .done => s.set x { s.obj x with
      inBody := false
      state := .finStart
      due := true }
  | .error => s.set x { s.obj x with
      inBody := false
      state := .errStart }

def step (s : Parallel φ) : ParallelAct → Option (Parallel φ × List (ParallelObs φ))
  | .iniStart x =>
    if x < s.made ∧ (s.obj x).state = .iniStart then some (s.iniStart x, []) else none
  | .call x =>
    if (s.obj x).state.act = true ∧ (s.obj x).inBody = false then some (s.call x) else none
  | .spawn x type => if s.Free x then some (s.spawn x type, []) else none
  | .leave x r => if s.Free x then some (s.leave x r, []) else none
  | .finStart x => if (s.obj x).state = .finStart then some (s.finStart x) else none
  | .zom x =>
    if (s.obj x).state = .finTinyStateStart then
      some (s.set x { s.obj x with state := .zom }, [])
    else none
  | .cancel x => if (s.obj x).state ≠ .iniStart then some (s.cancel, []) else none
  | .destroy x => if (s.obj x).state ≠ .iniStart then some (s.destroy x, []) else none
  | .cascade i => (s.cascades[i]?).bind fun f => (s.cascade i f).map (·, [])

/-- The creator makes the root. -/
def initial (type : Int) (fn : Option φ) : Parallel φ where
  obj _ := new none type fn
  made := 1
  cascades := []
  lost := false

def machine (type : Int) (fn : Option φ) :
    Machine (Parallel φ) ParallelAct (ParallelObs φ) where
  init s := s = initial type fn
  step := step

end Parallel

end TinyState
