import TinyState.Js.Number
import TinyState.Lib.Caller

/-!
# pigParaForeach

`p-foreach` is to evaluate its body once for each element of a list, and to return the results
as a list. Its environment takes the place of what `pigActivate` is to select, so that no
argument is evaluated, and the first look at one is an error. With the arguments evaluated it
would wait for ever, as `delete` leaves the length of an array as it is.
-/

namespace TinyState.Js

open Transition Caller

namespace ParaForeach

-- ---------------------------------------------------------------------------
-- Data
-- ---------------------------------------------------------------------------

/-- Scripts, arguments and results. The holes of an array are `undefined`. -/
inductive Value
  | undefined
  | null
  | bool (b : Bool)
  | number (x : JsNumber)
  | string (s : String)
  | array (items : List Value)
  | object (props : List (String × Value))
  | pigData (type : String) (d : Value)

/-- A `pigData`. -/
structure PigValue where
  type : String
  d : Value

namespace Value

/-- What is taken for true in a condition. -/
def truthy : Value → Bool
  | undefined | null => false
  | bool b => b
  | number x => x ≠ .nan ∧ x ≠ .zero
  | string s => s ≠ ""
  | _ => true

/-- `v[i]` -/
def item : Value → Nat → Value
  | array items, i => items[i]?.getD undefined
  | _, _ => undefined

def isArray : Value → Bool
  | array _ => true
  | _ => false

def length : Value → Nat
  | array items => items.length
  | _ => 0

/-- `items[i] = x` -/
def setItem (items : List Value) (i : Nat) (x : Value) : List Value :=
  (items ++ List.replicate (i + 1 - items.length) undefined).set i x

/-- `pigActivate.i_set` -/
def i_set (args : Value) (ix : List Nat) (data : Value) : Value :=
  match args, ix with
  | array items, [i] => array (setItem items i data)
  | array items, i :: ix => array (setItem items i (i_set (args.item i) ix data))
  | _, [i] => array (setItem [] i data)
  | _, i :: ix => array (setItem [] i (i_set undefined ix data))
  | args, [] => args

end Value

namespace PigValue

def getType (p : PigValue) : String :=
  if p.type = "pure" then
    match p.d with
    | .undefined | .null => "null"
    | .array _ => "array"
    | .bool _ => "boolean"
    | .number _ => "number"
    | .string _ => "string"
    | .object _ | .pigData .. => "object"
  else p.type

/-- `pigData.make` -/
def make : Value → PigValue
  | .pigData type d => ⟨type, d⟩
  | d => ⟨"pure", d⟩

/-- What `p-foreach` keeps of a result: what can be called is kept as it is. -/
def result (p : PigValue) : Value :=
  if p.getType.startsWith "pn:" then .pigData p.type p.d else p.d

end PigValue

/-- An array whose items can be deleted. -/
structure Sparse (α : Type) where
  length : Nat
  items : List (Nat × α)

namespace Sparse

variable {α : Type}

def empty : Sparse α := ⟨0, []⟩

def get (a : Sparse α) (i : Nat) : Option α := a.items.lookup i

def set (a : Sparse α) (i : Nat) (x : α) : Sparse α := ⟨max a.length (i + 1), (i, x) :: a.items⟩

/-- `delete a[i]`, which leaves the length as it is. -/
def delete (a : Sparse α) (i : Nat) : Sparse α := { a with items := a.items.filter (·.1 ≠ i) }

end Sparse

-- ---------------------------------------------------------------------------
-- pigActivate
-- ---------------------------------------------------------------------------

inductive Sel
  | all
  | at (i : Nat)

/-- What is given for the parameter `ix`. An object that is no array has no length, and nothing
at a number. -/
inductive Ix
  | array (sels : List Sel)
  | object

/-- `ix.length <= ptr` -/
def Ix.within : Ix → Nat → Bool
  | array sels, ptr => sels.length ≤ ptr
  | object, _ => false

/-- `ix[ptr]` -/
def Ix.sel : Ix → Nat → Option Sel
  | array sels, ptr => sels[ptr]?
  | object, _ => none

/-- The part of `args` that goes along with `param[i]`. -/
def argsAt (args : Value) (i : Option Nat) : Value :=
  if args.truthy then
    if args.isArray then (i.map args.item).getD .undefined else .string "*"
  else .null

theorem sizeOf_undefined (items : List Value) :
    sizeOf Value.undefined < sizeOf (Value.array items) := by
  cases items <;> simp

theorem sizeOf_item (items : List Value) (i : Nat) :
    sizeOf ((Value.array items).item i) < sizeOf (Value.array items) := by
  simp only [Value.item]
  cases h : items[i]? with
  | none => exact sizeOf_undefined items
  | some v =>
    have := List.sizeOf_lt_of_mem (List.mem_of_getElem? h)
    simp only [Option.getD_some, Value.array.sizeOf_spec]
    omega

/-- What is evaluated, and where its result goes. -/
def i_call (ix : Ix) (param args : Value) (ptr : Nat) (ix_path : List Nat) :
    List (Value × List Nat) :=
  if ix.within ptr then if args.truthy then [] else [(param, ix_path)]
  else
    match param with
    | .array items =>
      match ix.sel ptr with
      | some .all => (List.range items.length).flatMap fun i =>
          i_call ix ((Value.array items).item i) (argsAt args i) (ptr + 1) (ix_path ++ [i])
      | some (.at i) =>
        i_call ix ((Value.array items).item i) (argsAt args i) (ptr + 1) (ix_path ++ [i])
      -- `param[undefined]`, where nothing is found that could be evaluated
      | none => i_call ix .undefined (argsAt args none) (ptr + 1) ix_path
    | _ => []
termination_by sizeOf param
decreasing_by
  · exact sizeOf_item ..
  · exact sizeOf_item ..
  · exact sizeOf_undefined _

inductive PigActivate.State
  | ACT_START
  | FIN_ABORT_WAIT
  | ZOM
  deriving DecidableEq

/-- `waitCall` has the calls that have not returned. -/
structure PigActivate where
  i_state : PigActivate.State
  waitCall : List (Nat × List Nat)

-- ---------------------------------------------------------------------------
-- pigParaForeach
-- ---------------------------------------------------------------------------

inductive State
  | INI_TINYSTATE_START
  | ACT_START
  | ACT_WAIT
  | ERR_START
  | ZOM
  deriving DecidableEq

/-- An evaluation of an argument, or of the body in an environment of its own. -/
inductive Eval (ε : Type)
  | argument (path : List Nat) (env : ε) (param : Value)
  | body (env : ε) (param : Value)

end ParaForeach

open ParaForeach

structure PigParaForeach (ε : Type) where
  i_state : ParaForeach.State
  env : ε
  param : List Value
  args : Value
  callFunc : PigActivate
  nenv : Sparse ε
  callBody : Sparse Nat
  callBodyHash : List (Nat × Nat)
  ret : List Value

namespace PigParaForeach

variable {ε : Type} (child : ε → ε) (bind : ε → Value → Value → Value → Option ε)

abbrev Result (ε : Type) := PigParaForeach ε × List (Effect (Eval ε) PigValue)

def new (env : ε) (param : List Value) : PigParaForeach ε where
  i_state := .INI_TINYSTATE_START
  env := env
  param := param
  args := .array []
  callFunc := ⟨.ZOM, []⟩
  nenv := .empty
  callBody := .empty
  callBodyHash := []
  ret := []

/-- A handler has thrown. -/
def thrown (s : PigParaForeach ε) : Result ε := ({ s with i_state := .ERR_START }, [])

/-- `parent.eventHandler(...)`, and `doFIN_START` -/
def finish (s : PigParaForeach ε) (m : PigValue) : Result ε :=
  ({ s with i_state := .ZOM }, [.send m])

/-- The rest of the loop of `ACT_START`, from the element `i` on; the next call is `n`. An
environment is made by `child`, and `bind` is nothing where it throws. -/
def makeBodies (n : Nat) (tag : Value) : List Value → Nat → PigParaForeach ε → Result ε
  | [], _, s => ({ s with ret := [], i_state := .ACT_WAIT }, [])
  | x :: list, i, s =>
    match bind (child s.env) tag x .undefined with
    | none => thrown { s with nenv := s.nenv.set i (child s.env) }
    | some env =>
      let r := makeBodies (n + 1) tag list (i + 1)
        { s with
          nenv := s.nenv.set i env
          callBody := s.callBody.set i n
          callBodyHash := (n, i) :: s.callBodyHash }
      (r.1, .launch (.body env ((Value.array s.param).item 3)) :: r.2)

/-- `ACT_START`, when `pigActivate` returns. -/
def activated (n : Nat) (s : PigParaForeach ε) (msg : PigValue) : Result ε :=
  if msg.getType = "error" then s.finish msg
  else
    match s.args.item 1 with
    | .pigData type tag =>
      if (PigValue.mk type tag).getType ≠ "string" then
        s.finish ⟨"error", .string "type missmatch string is required (args:1)"⟩
      else
        match s.args.item 2 with
        | .pigData type list =>
          if (PigValue.mk type list).getType ≠ "array" then
            s.finish ⟨"error", .string "type missmatch array is required  (args:1)"⟩
          else
            makeBodies child bind n tag ((List.range list.length).map list.item) 0
              { s with nenv := .empty, callBody := .empty, callBodyHash := [] }
        | _ => s.thrown
    | _ => s.thrown

/-- `pigActivate` begins to evaluate the arguments that `ix` selects. -/
def INI_TINYSTATE_START (ix : Ix) (n : Nat) (s : PigParaForeach ε) : Result ε :=
  let s := { s with args := s.args.i_set [3] (.string "*"), i_state := .ACT_START }
  let calls := i_call ix (.array s.param) s.args 0 []
  if calls = [] then activated child bind n s ⟨"ok", .null⟩
  else
    ({ s with
        callFunc := ⟨.ACT_START, calls.mapIdx fun i call => (n + i, call.2)⟩ },
      calls.map fun call => .launch (.argument call.2 s.env call.1))

/-- The return of an argument, which is an event for `pigActivate`. -/
def argumentReturned (n : Nat) (s : PigParaForeach ε) (k : Nat) (msg : PigValue) : Result ε :=
  let waitCall := s.callFunc.waitCall.filter (·.1 ≠ k)
  let done : PigActivate := ⟨.ZOM, []⟩
  match s.callFunc.i_state with
  | .ACT_START =>
    let path := (s.callFunc.waitCall.lookup k).getD []
    let s := { s with args := s.args.i_set path (.pigData msg.type msg.d) }
    if waitCall = [] then activated child bind n { s with callFunc := done } ⟨"ok", .null⟩
    else ({ s with callFunc := ⟨.ACT_START, waitCall⟩ }, [])
  | .FIN_ABORT_WAIT =>
    if waitCall = [] then
      activated child bind n { s with callFunc := done } ⟨"error", .string "aborted"⟩
    else ({ s with callFunc := ⟨.FIN_ABORT_WAIT, waitCall⟩ }, [])
  | .ZOM => (s, [])

/-- An abort for `pigActivate`. -/
def abortArguments (s : PigParaForeach ε) : Result ε :=
  match s.callFunc.i_state with
  | .ACT_START =>
    ({ s with callFunc := ⟨.FIN_ABORT_WAIT, s.callFunc.waitCall⟩ },
      s.callFunc.waitCall.map fun c => .forward c.1)
  | _ => (s, [])

/-- The loop of an abort in `ACT_WAIT` over the next `len` items from `i` on. -/
def abortBodies (s : PigParaForeach ε) : (len i : Nat) → Result ε
  | 0, _ => (s, [])
  | len + 1, i =>
    match s.callBody.get i with
    -- the evaluation has returned and has been deleted
    | none => s.thrown
    | some k => let r := abortBodies s len (i + 1); (r.1, .forward k :: r.2)

/-- The return of an evaluation of the body. -/
def bodyReturned (s : PigParaForeach ε) (k : Nat) (msg : PigValue) : Result ε :=
  match s.callBodyHash.lookup k with
  | none => s.thrown
  | some ix =>
    let s := { s with
      callBodyHash := s.callBodyHash.filter (·.1 ≠ k)
      callBody := s.callBody.delete ix
      ret := Value.setItem s.ret ix msg.result }
    if s.callBody.length ≠ 0 then (s, [])
    else s.finish (PigValue.make (.array s.ret))

def handle (ix : Ix) (n : Nat) (s : PigParaForeach ε) (ev : Input PigValue Empty) : Result ε :=
  match s.i_state, ev with
  | .INI_TINYSTATE_START, .initial => INI_TINYSTATE_START child bind ix n s
  | .ACT_START, .abort => s.abortArguments
  | .ACT_START, .ret k msg => argumentReturned child bind n s k msg
  | .ACT_WAIT, .abort => s.abortBodies s.callBody.length 0
  | .ACT_WAIT, .ret k msg => s.bodyReturned k msg
  | _, _ => (s, [])

/-- `p-foreach` with what it gives to `pigActivate` as `ix`. -/
def codeOf (ix : Ix) (env : ε) (param : List Value) :
    Code (PigParaForeach ε) (Eval ε) PigValue Empty Empty where
  start := new env param
  ended s := s.i_state = .ZOM
  handle := handle child bind ix

/-- `new pigActivate(this,this.env,["all"])`: the second argument is `ix`. -/
def code (env : ε) (param : List Value) : Code (PigParaForeach ε) (Eval ε) PigValue Empty Empty :=
  codeOf child bind .object env param

-- ---------------------------------------------------------------------------
-- What it is for
-- ---------------------------------------------------------------------------

abbrev Seen (ε : Type) := Obs (Eval ε) PigValue Empty Empty

/-- The evaluations of the body, with their environments. -/
def bodies (tr : List (Seen ε)) : List (Nat × ε × Value) :=
  tr.filterMap fun
    | .launched k (.body env param) => some (k, env, param)
    | _ => none

def sents (tr : List (Seen ε)) : List PigValue :=
  tr.filterMap fun
    | .sent m => some m
    | _ => none

/-- The argument `i` is `v` wherever it is evaluated. -/
def Evaluates (tr : List (Seen ε)) (i : Nat) (v : Value) : Prop :=
  ∀ k env param m, .launched k (.argument [i] env param) ∈ tr → .returned k m ∈ tr →
    m = ⟨"pure", v⟩

/-- The body has been evaluated once for each element, where `tag` is bound to it, and all that
was sent is the list of the results. -/
def Completed (env : ε) (param : List Value) (tag : String) (list : List Value)
    (tr : List (Seen ε)) : Prop :=
  List.Forall₂ (fun b x => (∃ caller, bind (child env) caller (.string tag) x = some b.2.1) ∧
      b.2.2 = (Value.array param).item 3) (bodies tr) list ∧
    ∃ results : List PigValue, sents tr = [⟨"pure", .array (results.map PigValue.result)⟩] ∧
      List.Forall₂ (fun b m => .returned b.1 m ∈ tr) (bodies tr) results

/-- When the arguments are the tag and the list, each evaluation has returned and each event has
been taken, `p-foreach` has done what it is for. -/
def ForeachLaw (env : ε) (param : List Value) (tag : String) (list : List Value) : Prop :=
  ∀ tr s, (code child bind env param).machine.Run tr s →
    Evaluates tr 1 (.string tag) → Evaluates tr 2 (.array list) →
    s.queue = [] → s.running = [] → Completed child bind env param tag list tr

-- ---------------------------------------------------------------------------
-- Only errors are sent
-- ---------------------------------------------------------------------------

/-- Where evaluations of the body are expected, their array has a length. -/
def Inv (s : PigParaForeach ε) : Prop := s.callBodyHash ≠ [] → s.callBody.length ≠ 0

structure Fine (r : Result ε) : Prop where
  inv : Inv r.1
  sends : ∀ m, .send m ∈ r.2 → m.getType = "error"

variable {child bind} {s : PigParaForeach ε} {n k : Nat} {msg : PigValue} {ix : Ix} {env : ε}
  {param : List Value}

theorem Fine.quiet (h : Inv s) : Fine (s, []) := ⟨h, nofun⟩

theorem Fine.thrown (h : Inv s) : Fine s.thrown := ⟨h, nofun⟩

theorem Fine.finish (h : Inv s) (hm : msg.getType = "error") : Fine (s.finish msg) where
  inv := h
  sends m hs := by
    simp only [PigParaForeach.finish, List.mem_singleton, Effect.send.injEq] at hs
    rw [hs, hm]

theorem Fine.makeBodies (h : Inv s) (n : Nat) (tag : Value) (list : List Value) (i : Nat) :
    Fine (makeBodies child bind n tag list i s) := by
  induction list generalizing s n i with
  | nil => exact ⟨h, nofun⟩
  | cons x list ih =>
    simp only [PigParaForeach.makeBodies]
    split
    · exact .thrown h
    · rename_i env _
      obtain ⟨hi, hs⟩ := ih (s := { s with
        nenv := s.nenv.set i env
        callBody := s.callBody.set i n
        callBodyHash := (n, i) :: s.callBodyHash }) (fun _ => by simp [Sparse.set]) (n + 1) (i + 1)
      refine ⟨hi, fun m hm => hs m ?_⟩
      simpa using hm

theorem Fine.activated (h : Inv s) : Fine (activated child bind n s msg) := by
  unfold PigParaForeach.activated
  split
  · rename_i hm
    exact .finish h hm
  · split
    · split
      · exact .finish h rfl
      · split
        · split
          · exact .finish h rfl
          · exact .makeBodies (fun hne => absurd rfl hne) ..
        · exact .thrown h
    · exact .thrown h

theorem Fine.argumentReturned (h : Inv s) : Fine (argumentReturned child bind n s k msg) := by
  unfold PigParaForeach.argumentReturned
  cases s.callFunc.i_state with
  | ACT_START =>
    dsimp only
    split
    · exact .activated h
    · exact .quiet h
  | FIN_ABORT_WAIT =>
    dsimp only
    split
    · exact .activated h
    · exact .quiet h
  | ZOM => exact .quiet h

theorem Fine.abortBodies (h : Inv s) (len i : Nat) : Fine (abortBodies s len i) := by
  induction len generalizing i with
  | zero => exact .quiet h
  | succ len ih =>
    unfold PigParaForeach.abortBodies
    split
    · exact .thrown h
    · obtain ⟨hi, hs⟩ := ih (i + 1)
      refine ⟨hi, fun m hm => hs m ?_⟩
      simpa using hm

/-- A return of the body does not bring the length to 0. -/
theorem Fine.bodyReturned (h : Inv s) : Fine (bodyReturned s k msg) := by
  unfold PigParaForeach.bodyReturned
  split
  · exact .thrown h
  · rename_i ix hix
    have hlen : s.callBody.length ≠ 0 := h fun hnil => by simp [hnil] at hix
    dsimp only
    split
    · exact .quiet fun _ => hlen
    · rename_i hzero
      exact absurd hlen hzero

theorem Fine.handle (h : Inv s) (ev : Input PigValue Empty) :
    Fine (handle child bind ix n s ev) := by
  unfold PigParaForeach.handle
  split
  · unfold PigParaForeach.INI_TINYSTATE_START
    dsimp only
    split
    · exact .activated h
    · exact ⟨h, fun m hm => by simp at hm⟩
  · unfold abortArguments
    split
    · exact ⟨h, fun m hm => by simp at hm⟩
    · exact .quiet h
  · exact .argumentReturned h
  · exact .abortBodies h ..
  · exact .bodyReturned h
  · exact .quiet h

theorem observe_sent {es : List (Effect (Eval ε) PigValue)} {m : PigValue}
    (h : Obs.sent m ∈ (observe n es : List (Seen ε))) : .send m ∈ es := by
  induction es generalizing n with
  | nil => cases h
  | cons e es ih => cases e <;> simp_all [observe] <;> grind

/-- Whatever is given to `pigActivate`, nothing but an error is ever sent. -/
theorem sent_error {tr : List (Seen ε)} {s : Sys (PigParaForeach ε) PigValue Empty}
    (h : (codeOf child bind ix env param).machine.Run tr s) :
    Inv s.obj ∧ ∀ m, .sent m ∈ tr → m.getType = "error" := by
  refine h.invariant (I := fun tr s => Inv s.obj ∧ ∀ m, .sent m ∈ tr → m.getType = "error") ?_ ?_
  · rintro s rfl
    exact ⟨fun hne => absurd rfl hne, nofun⟩
  · rintro tr s a t os - ⟨hi, hsent⟩ - hs
    cases step_cases hs with
    | told _ ht =>
      have hobj : t.obj = s.obj := by
        rcases ht.how with ⟨ho, -⟩ | ⟨p, -⟩
        · exact ho
        · cases p
      refine ⟨hobj ▸ hi, fun m hm => ?_⟩
      rcases List.mem_append.mp hm with hm | hm
      · exact hsent m hm
      · rcases ht.obs _ hm with ⟨_, _, h⟩ | ⟨_, h⟩ <;> cases h
    | @took i q _ hq =>
      have hf : Fine (handle child bind ix s.started s.obj i) := .handle hi i
      refine ⟨hf.inv, fun m hm => ?_⟩
      rcases List.mem_append.mp hm with hm | hm
      · exact hsent m hm
      · rcases List.mem_cons.mp hm with hm | hm
        · cases hm
        · exact hf.sends m (observe_sent hm)
    | worked hw => cases hw

-- ---------------------------------------------------------------------------
-- What is given is no selection
-- ---------------------------------------------------------------------------

theorem i_call_object (param args : Value) (ptr : Nat) (path : List Nat) :
    i_call .object param args ptr path = [] := by
  unfold i_call
  simp only [Ix.within, Ix.sel, Bool.false_eq_true, if_false]
  split
  · unfold i_call
    rfl
  · rfl

/-- The first event ends in an error: no argument has been evaluated. -/
theorem handle_initial (child : ε → ε) (bind : ε → Value → Value → Value → Option ε) (n : Nat)
    (env : ε) (param : List Value) : ∃ s, s.i_state = .ERR_START ∧
    handle child bind .object n (new env param) .initial = (s, []) := by
  refine ⟨{ new env param with
    args := (Value.array []).i_set [3] (.string "*"), i_state := .ERR_START }, rfl, ?_⟩
  simp only [PigParaForeach.handle, new, INI_TINYSTATE_START, i_call_object, if_true,
    PigParaForeach.activated]
  rfl

theorem handle_error (h : s.i_state = .ERR_START) (ev : Input PigValue Empty) :
    handle child bind ix n s ev = (s, []) := by
  simp [PigParaForeach.handle, h]

theorem handle_start (ev : Input PigValue Empty) (hev : ev ≠ .initial) :
    handle child bind ix n (new env param) ev = (new env param, []) := by
  cases ev with
  | initial => exact absurd rfl hev
  | _ => rfl

/-- Nothing is evaluated, and nothing is sent. -/
theorem silent {tr : List (Seen ε)} {s : Sys (PigParaForeach ε) PigValue Empty}
    (h : (code child bind env param).machine.Run tr s) :
    (s.obj = new env param ∨ s.obj.i_state = .ERR_START) ∧
      ∀ o ∈ tr, (∃ ev, o = .took ev) ∨ ∃ k m, o = .returned k m := by
  refine h.invariant (I := fun tr s => (s.obj = new env param ∨ s.obj.i_state = .ERR_START) ∧
    ∀ o ∈ tr, (∃ ev, o = .took ev) ∨ ∃ k m, o = .returned k m) ?_ ?_
  · rintro s rfl
    exact ⟨.inl rfl, nofun⟩
  · rintro tr s a t os - ⟨hobj, hseen⟩ - hs
    suffices h : (t.obj = new env param ∨ t.obj.i_state = .ERR_START) ∧
        ∀ o ∈ os, (∃ ev, o = .took ev) ∨ ∃ k m, o = .returned k m from
      ⟨h.1, fun o ho => (List.mem_append.mp ho).elim (hseen o) (h.2 o)⟩
    cases step_cases hs with
    | told _ ht =>
      rcases ht.how with ⟨ho, hos⟩ | ⟨p, -⟩
      · exact ⟨ho ▸ hobj, fun o ho => .inr (hos o ho)⟩
      · cases p
    | @took ev q _ hq =>
      have hquiet : ∃ s', (s' = new env param ∨ s'.i_state = .ERR_START) ∧
          handle child bind .object s.started s.obj ev = (s', []) := by
        rcases hobj with hobj | hobj
        · rw [hobj]
          cases ev with
          | initial =>
            obtain ⟨s', he, hh⟩ := handle_initial child bind s.started env param
            exact ⟨s', .inr he, hh⟩
          | _ => exact ⟨_, .inl rfl, handle_start _ nofun⟩
        · exact ⟨_, .inr hobj, handle_error hobj ev⟩
      obtain ⟨s', hs', hh⟩ := hquiet
      have hr : (code child bind env param).handle s.started s.obj ev = (s', []) := hh
      rw [hr]
      exact ⟨hs', fun o ho => .inl ⟨ev, by simpa [observe] using ho⟩⟩
    | worked hw => cases hw

/-- The first event is taken, and nothing is left to be done. -/
theorem exists_quiet (child : ε → ε) (bind : ε → Value → Value → Value → Option ε) (env : ε)
    (param : List Value) : ∃ s, (code child bind env param).machine.Run [.took .initial] s ∧
      s.queue = [] ∧ s.running = [] := by
  obtain ⟨s', he, hh⟩ := handle_initial child bind 0 env param
  have hstep : (code child bind env param).machine.step (code child bind env param).initial .take =
      some (⟨s', [], [], 0, false⟩, [.took .initial]) := by
    have hr : (code child bind env param).handle 0 (new env param) .initial = (s', []) := hh
    simp only [Code.machine, Code.step, Code.initial, code, codeOf] at hr ⊢
    rw [hr]
    simp [Code.perform, launches, observe, Input.isAbort]
  exact ⟨_, Machine.Run.next (.start rfl) hstep, rfl, rfl⟩

/-- In no run has `p-foreach` done what it is for. -/
theorem not_completed {tag : String} {list : List Value} {tr : List (Seen ε)}
    {s : Sys (PigParaForeach ε) PigValue Empty}
    (h : (code child bind env param).machine.Run tr s) :
    ¬ Completed child bind env param tag list tr := by
  rintro ⟨-, results, hsents, -⟩
  have hmem : ∀ m, m ∈ sents tr → .sent m ∈ tr := fun m hm => by
    obtain ⟨o, ho, hm⟩ := List.mem_filterMap.mp hm
    cases o <;> simp_all
  have herr := (sent_error h).2 _ (hmem _ (by rw [hsents]; exact List.mem_singleton_self _))
  simp [PigValue.getType] at herr

/-- For no list is the law kept. -/
theorem foreach_never (child : ε → ε) (bind : ε → Value → Value → Value → Option ε) (env : ε)
    (param : List Value) (tag : String) (list : List Value) :
    ¬ ForeachLaw child bind env param tag list := by
  intro h
  obtain ⟨s, hr, hq, hrun⟩ := exists_quiet child bind env param
  refine not_completed hr (h _ s hr ?_ ?_ hq hrun) <;> rintro k env param m hl - <;> simp at hl

/-- `["p-foreach","x",["a","b"],"$x"]`, with environments as what is bound in them. -/
theorem foreach_fails : ¬ ForeachLaw (ε := List (Value × Value × Value)) id
    (fun env caller symbol data => some ((caller, symbol, data) :: env)) []
    [.pigData "pn:primitive" .undefined, .string "x", .array [.string "a", .string "b"],
      .string "$x"]
    "x" [.string "a", .string "b"] := by
  intro h
  obtain ⟨s, hr, hq, hrun⟩ := exists_quiet _ _ _ _
  refine not_completed hr (h _ s hr ?_ ?_ hq hrun) <;> rintro k env param m hl - <;> simp at hl

end PigParaForeach
end TinyState.Js
