import TinyState.Listen.Consistency

/-!
# The end of a source

One object `this` on its way to `ZOM`, among the listeners of all objects. The
owner of its dispatch changes its state and at last runs `ZOM_TINYSTATE_LAST2`,
which calls `invoke_state`, takes every handle off and returns `ZOM`; each call
that has given the object back runs an `invoke_state` of its own, at its own
pace. Listeners come and go at any point, also from the handlers that are being
called.

`invoke_state_flag` and `enter_zom` are read there without the lock.
-/

namespace TinyState

open Transition

/-- `TSE_DESTROY`. -/
def tseDestroy : Int := EventType.destroy.code

/-- A run of `invoke_state`. -/
inductive Note
  /-- The flag was set and has been cleared; `TSE_STATE` is being delivered. -/
  | flagged
  /-- The handles of the copied list that have not been called with `TSE_DESTROY` yet. -/
  | telling (q : List Nat)
  deriving DecidableEq, Repr

/-- Where `ZOM_TINYSTATE_LAST2` stands. -/
inductive EndPc
  | before
  /-- `invoke_state_flag` has been set. -/
  | last2
  | notifying (n : Note)
  /-- In the loop over `handle_list`. -/
  | dropping
  /-- In the loop over `event_listener[i]`; at its end, `ZOM` is about to be returned. -/
  | draining (i : Nat)
  /-- The dispatcher has made `ZOM` the state. -/
  | over
  deriving DecidableEq, Repr

/-- `notes` are the runs of `invoke_state` by calls that have given the object
back. The last two fields are history: the listeners that were called with
`TSE_DESTROY`, and that the list was copied after the object had come to rest. -/
structure EndSys (ω : Type) where
  graph : Graph ω
  flag : Bool
  enterZom : Bool
  pc : EndPc
  notes : List Note
  told : List ω
  copied : Bool

inductive EndAct (ω : Type)
  /-- An operation on the listeners, by anybody. -/
  | graph (op : GraphOp ω)
  /-- `invoke_check` with a state that is not of the category `C_ZOM`. -/
  | setState
  /-- `invoke_check` with the first state that is. -/
  | enterZom
  /-- `invoke_check` with a further one. -/
  | zomState
  /-- `ZOM_TINYSTATE_LAST2` is called. -/
  | last2
  /-- Its next step, and the store of `ZOM`. -/
  | go
  /-- A call that has given the object back comes to `invoke_state`. -/
  | begin
  /-- A step of such an `invoke_state`. -/
  | note (i : Nat)
  deriving DecidableEq, Repr

/-- What is seen of the listeners for `TSE_DESTROY`. -/
inductive EndObs (ω : Type)
  | listened (l : ω) (h : Nat)
  | refused (l : ω)
  /-- Somebody takes the handle off the list of the source. -/
  | removed (h : Nat)
  deriving DecidableEq, Repr

namespace EndSys

variable {ω : Type} [DecidableEq ω] (this : ω)

/-- The listeners for `TSE_DESTROY`. -/
def subscribed (s : EndSys ω) : List Nat := s.graph.lists this tseDestroy

/-- The operations that others may do: the object's own end is left to its
owner, and `TSE_DESTROY` of the object is listened to by `listen`. -/
def Others : GraphOp ω → Bool
  | .addListener o _ type | .invokeListen o type true => decide (o ≠ this ∨ type ≠ tseDestroy)
  | .enterZom o | .last2 o | .zom o => decide (o ≠ this)
  | _ => true

def seen (g g' : Graph ω) (op : GraphOp ω) : List (EndObs ω) :=
  (match op with
    | .listen o l type =>
      if o = this ∧ type = tseDestroy then
        match (g.listen o l type).1 with
        | some h => [.listened l h]
        | none => [.refused l]
      else []
    | _ => []) ++
  ((g.lists this tseDestroy).filter (· ∉ g'.lists this tseDestroy)).map .removed

/-- A step of `invoke_state`; `none` when it is done. A handle that has lost
its listener is passed over (`eh->listener == except`, which is `thNULL`). -/
def noteStep (s : EndSys ω) : Note → Option Note × List ω
  | .flagged =>
    if s.enterZom then (some (.telling (s.graph.invokeListen this tseDestroy false).1), [])
    else (none, [])
  | .telling [] => (none, [])
  | .telling (h :: q) => (some (.telling q), ((s.graph.eh h).bind (·.listener)).toList)

/-- The list is copied after the object has come to rest. -/
def copies (s : EndSys ω) (n : Note) : Bool :=
  decide (n = .flagged ∧ s.graph.life this = .zom)

/-- A step of `ZOM_TINYSTATE_LAST2`, or of the dispatcher after it. -/
def endStep (s : EndSys ω) : Option (EndSys ω) :=
  match s.pc with
  | .before | .over => none
  | .last2 =>
    if s.flag then some { s with pc := .notifying .flagged, flag := false }
    else some { s with pc := .dropping }
  | .notifying n =>
    match s.noteStep this n with
    | (some n, ls) => some { s with pc := .notifying n, told := s.told ++ ls }
    | (none, ls) => some { s with pc := .dropping, told := s.told ++ ls }
  | .dropping =>
    match s.graph.handles this with
    | [] => some { s with pc := .draining 0 }
    | h :: _ => some { s with graph := s.graph.dropHandle this h }
  | .draining i =>
    if i < EventType.max then
      match s.graph.lists this i with
      | [] => some { s with pc := .draining (i + 1) }
      | h :: _ => some { s with graph := s.graph.dropListener this i h }
    else some { s with graph := s.graph.setLife this .zom, pc := .over, flag := true }

def step (s : EndSys ω) : EndAct ω → Option (EndSys ω × List (EndObs ω))
  | .graph op =>
    if Others this op then
      (s.graph.step op).map fun g => ({ s with graph := g }, seen this s.graph g op)
    else none
  | .setState => if s.graph.life this = .live then some ({ s with flag := true }, []) else none
  | .enterZom =>
    if s.graph.life this = .live then
      some ({ s with graph := s.graph.setLife this .ending, enterZom := true, flag := true }, [])
    else none
  | .zomState =>
    if s.graph.life this = .ending ∧ s.pc = .before then some ({ s with flag := true }, [])
    else none
  | .last2 =>
    if s.graph.life this = .ending ∧ s.pc = .before then
      some ({ s with pc := .last2, flag := true }, [])
    else none
  | .go => (s.endStep this).map (·, [])
  | .begin =>
    some (if s.flag then { s with flag := false, notes := .flagged :: s.notes } else s, [])
  | .note i =>
    match s.notes[i]? with
    | none => none
    | some n =>
      match s.noteStep this n with
      | (some n', ls) => some ({ s with
          notes := s.notes.set i n', told := s.told ++ ls, copied := s.copied || s.copies this n }, [])
      | (none, ls) => some ({ s with notes := s.notes.eraseIdx i, told := s.told ++ ls }, [])

/-- The source has ended: it rests in `ZOM`, and no `invoke_state` is going on
or left to do. -/
def Ended (s : EndSys ω) : Prop := s.pc = .over ∧ s.flag = false ∧ s.notes = []

instance (s : EndSys ω) : Decidable s.Ended := by
  unfold Ended
  infer_instance

end EndSys

/-- No handles, and the object in a state outside `C_ZOM`. -/
def Ending {ω : Type} [DecidableEq ω] (this : ω) :
    Machine (EndSys ω) (EndAct ω) (EndObs ω) where
  init s := ∃ flag, s = ⟨.empty, flag, false, .before, [], [], false⟩
  step := EndSys.step this

end TinyState
