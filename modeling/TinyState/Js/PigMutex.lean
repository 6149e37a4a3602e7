import TinyState.Js.Number
import TinyState.Js.PigData
import TinyState.Lib.Machine
import Mathlib.Logic.Function.Basic

/-!
# pigMutex

A lock variable is 0 while nobody holds it, the number of readers while there are readers, and
-1 or the `wstate` of the writer while there is one. A writer takes it if it is equal to 0 in
the loose sense of the language, and so are some strings.
-/

namespace TinyState.Js

open Transition

-- ---------------------------------------------------------------------------
-- Model
-- ---------------------------------------------------------------------------

/-- A terminal: the environment it is in, and its symbol there. -/
abbrev Variable := Nat × String

/-- The data of a terminal. `other` are data of another type, with the number that the language
converts them to. -/
inductive LockValue
  | null
  | number (n : JsNumber)
  | string (d : String)
  | other (type : String) (n : JsNumber)
  deriving DecidableEq, Repr

namespace LockValue

def getType : LockValue → String
  | null => "null"
  | number _ => "number"
  | string _ => "string"
  | other type _ => type

def toNumber : LockValue → JsNumber
  | null => .zero
  | number n => n
  | string d => .ofString d
  | other _ n => n

/-- `d == 0` -/
def equalsZero : LockValue → Bool
  | null => false
  | x => x.toNumber = .zero

end LockValue

/-- An element of the option list. The arguments are `none` where they are no strings. -/
inductive MutexCmd
  | mystate (name : Option String) (pre : Option (Option String))
  | wstate (value : Option String)
  | other
  deriving DecidableEq, Repr

/-- The events of a pigMutex. `args3` is what pigActivate leaves in `args[3]`. -/
inductive MutexEvent
  | ret (msg : PigData) (args3 : List MutexCmd)
  | abort
  | other
  deriving DecidableEq, Repr

/-- The states; the argument of `FIN_START` counts the locks that are still to be released. -/
inductive MutexState
  | INI_TINYSTATE_START
  | INI_RET_1
  | INI_RET_2
  | INI_RET_3
  | INI_MYSTATE
  | ACT_START
  | ACT_LOCK
  | ACT_LOCK_WAIT
  | ACT_EXEC
  | ACT_EXEC_RET
  | FIN_START (i : Nat)
  | ZOM
  deriving DecidableEq, Repr

/-- `pigMutex`; `env` are the environments from its own outwards, and `options` is `args[2]`. -/
structure PigMutex where
  state : MutexState
  env : List Nat
  paramLength : Nat
  i_abort : Bool
  name : String
  options : String
  i_lockTerminal : List Variable
  i_locked_ptr : Nat
  i_wstate : String
  i_mystateVariable : String
  i_mystatePrefix : String
  i_mystateTerminal : Option Variable
  i_mystateStack : Option LockValue
  i_ptr : Nat
  deriving DecidableEq, Repr

/-- All variables, and all pigMutexes in the order in which they have been made. -/
structure MutexSystem where
  value : Variable → Option LockValue
  mutexes : List PigMutex

inductive MutexAct
  | make (env : List Nat) (paramLength : Nat)
  | event (i : Nat) (ev : MutexEvent)
  /-- A pigMutex that does not wait goes on. -/
  | run (i : Nat)
  /-- The rest of the program writes a variable, or removes it. -/
  | change (v : Variable) (x : Option LockValue)
  deriving DecidableEq, Repr

inductive MutexObs
  | locked (i : Nat) (v : Variable)
  | unlocked (i : Nat) (v : Variable)
  deriving DecidableEq, Repr

namespace MutexSystem

/-- `term.get("")` -/
def get (s : MutexSystem) (v : Variable) : LockValue := (s.value v).getD (.other "error" .nan)

/-- `term.set(caller,"",data)` -/
def set (s : MutexSystem) (v : Variable) (x : LockValue) : MutexSystem :=
  if (s.value v).isNone ∨ x.getType = "null" then s
  else { s with value := Function.update s.value v (some x) }

/-- `refer`: the terminal, and the environments outside of it. -/
def refer (s : MutexSystem) (name : String) : List Nat → Option (Variable × List Nat)
  | [] => none
  | e :: env =>
    match s.value (e, name) with
    | none => s.refer name env
    | some x => if x.getType = "error" then none else some ((e, name), env)

/-- The same name in all environments outside. -/
def referAll (s : MutexSystem) (name : String) : Nat → List Nat → List Variable
  | 0, _ => []
  | n + 1, env =>
    match s.refer name env with
    | none => []
    | some (v, outer) => v :: s.referAll name n outer

end MutexSystem

namespace PigMutex

def has (x : PigMutex) (c : Char) : Bool := x.options.toList.contains c

def reads (x : PigMutex) : Bool := x.has 'r'

/-- `pigMutex(parent,env,param)` -/
def new (env : List Nat) (paramLength : Nat) : PigMutex where
  state := .INI_TINYSTATE_START
  env := env
  paramLength := paramLength
  i_abort := false
  name := ""
  options := ""
  i_lockTerminal := []
  i_locked_ptr := 0
  i_wstate := ""
  i_mystateVariable := ""
  i_mystatePrefix := ""
  i_mystateTerminal := none
  i_mystateStack := none
  i_ptr := 0

def goto (x : PigMutex) (state : MutexState) : PigMutex := { x with state := state }

/-- `doFIN_START` -/
def finish (x : PigMutex) : PigMutex := x.goto (.FIN_START x.i_locked_ptr)

/-- One command of the option list. -/
def command (x : PigMutex) : MutexCmd → Option PigMutex
  | .mystate none _ => none
  | .mystate (some name) none => some { x with i_mystateVariable := name }
  | .mystate (some _) (some none) => none
  | .mystate (some name) (some (some pre)) =>
    some { x with i_mystateVariable := name, i_mystatePrefix := pre }
  | .wstate none => none
  | .wstate (some value) => some { x with i_wstate := value }
  | .other => none

/-- The option list, up to the first command that is refused. -/
def commands (x : PigMutex) : List MutexCmd → PigMutex × Bool
  | [] => (x, true)
  | c :: cs =>
    match x.command c with
    | none => (x, false)
    | some y => y.commands cs

/-- `INI_RET_3`, once the arguments are there. -/
def lockTerminals (s : MutexSystem) (x : PigMutex) : PigMutex :=
  match s.refer x.name x.env with
  | none => if x.has 'e' then x.goto .INI_MYSTATE else x.finish
  | some (v, outer) =>
    { x with
      state := .INI_MYSTATE
      i_lockTerminal :=
        if x.has '*' then v :: s.referAll x.name outer.length outer else [v] }

/-- What the states do that wait for an event. -/
def handle (s : MutexSystem) (x : PigMutex) (ev : MutexEvent) : Option PigMutex :=
  match x.state, ev with
  | .INI_TINYSTATE_START, _ => some (x.goto .INI_RET_1)
  | .INI_RET_1, .ret msg _ =>
    some (if x.i_abort then x.finish
      else match msg with
        | .string d => { x with state := .INI_RET_2, name := d }
        | _ => x.finish)
  | .INI_RET_2, .ret msg _ =>
    some (if x.i_abort then x.finish
      else match msg with
        | .string d => { x with state := .INI_RET_3, options := d }
        | _ => x.finish)
  | .INI_RET_3, .ret msg args3 =>
    some (if x.i_abort ∨ msg.isError then x.finish
      else match x.commands args3 with
        | (x, true) => x.lockTerminals s
        | (x, false) => x.finish)
  | .ACT_START, _ => some (if x.i_abort then x.finish else x.goto .ACT_LOCK)
  | .ACT_EXEC_RET, .ret msg _ =>
    some (if msg.isError ∨ x.i_abort then x.finish
      else { x with state := .ACT_EXEC, i_ptr := x.i_ptr + 1 })
  | .INI_RET_1, _ | .INI_RET_2, _ | .INI_RET_3, _ | .ACT_EXEC_RET, _ => some x
  | _, _ => none

/-- An event comes through `i_catchAbort` first. -/
def event (s : MutexSystem) (x : PigMutex) (ev : MutexEvent) : Option PigMutex :=
  handle s (if ev = .abort then { x with i_abort := true } else x) ev

/-- What `i_mystateTerminal` is set to. The prefix is looked up under a misspelt name. -/
def label (x : PigMutex) (d : String) : LockValue :=
  .string (if x.i_mystatePrefix = "" then d else "undefined:" ++ d)

def setMystate (s : MutexSystem) (x : PigMutex) (d : String) : MutexSystem × PigMutex :=
  match x.i_mystateTerminal with
  | none => (s, x)
  | some t =>
    (s.set t (x.label d), { x with i_mystateStack := some (x.i_mystateStack.getD (s.get t)) })

/-- What is written to a variable that is taken for writing. -/
def mark (x : PigMutex) : LockValue :=
  if x.i_wstate ≠ "" then .string x.i_wstate else .number (.real (-1))

/-- The value that a lock gets that is taken, if it can be. -/
def take (x : PigMutex) (lvalue : LockValue) : Option LockValue :=
  if x.reads then
    match lvalue with
    | .number n => if n.isNegative then none else some (.number (n.add 1))
    | _ => none
  else if lvalue.equalsZero then some x.mark else none

/-- The value that a lock gets that is released. -/
def give (x : PigMutex) (lvalue : LockValue) : LockValue :=
  if x.reads then .number (lvalue.toNumber.add (-1)) else .number .zero

/-- `i_locked_ptr ++` -/
def next (x : PigMutex) : PigMutex := { x with i_locked_ptr := x.i_locked_ptr + 1 }

/-- One round of the loop of `ACT_START`, and what comes after it. -/
def lockRound (s : MutexSystem) (i : Nat) (x : PigMutex) :
    MutexSystem × PigMutex × List MutexObs :=
  match x.i_lockTerminal[x.i_locked_ptr]? with
  | some term =>
    if (s.get term).getType = "error" then (s, x.finish, [])
    else
      match x.take (s.get term) with
      | none => (s, x.goto .ACT_LOCK_WAIT, [])
      | some y => (s.set term y, x.next, [.locked i term])
  | none =>
    let (s, x) := x.setMystate s "ACT"
    (s, { x with state := .ACT_EXEC, i_ptr := 4 }, [])

/-- The end of `FIN_START`. -/
def restore (s : MutexSystem) (x : PigMutex) : MutexSystem × PigMutex :=
  (match x.i_mystateTerminal with
    | none => s
    | some t => s.set t (x.i_mystateStack.getD (.string "")),
   { x with state := .ZOM, i_mystateTerminal := none, i_lockTerminal := [] })

/-- What a pigMutex does that does not wait. -/
def run (s : MutexSystem) (i : Nat) (x : PigMutex) :
    Option (MutexSystem × PigMutex × List MutexObs) :=
  match x.state with
  | .INI_MYSTATE =>
    if x.i_mystateVariable = "" then
      some (s, if x.i_abort then x.finish else x.goto .ACT_LOCK, [])
    else
      match s.refer x.i_mystateVariable x.env with
      | none => some (s, x.finish, [])
      | some (t, _) =>
        let x := { x with i_mystateTerminal := some t }
        some (s, if x.i_abort then x.finish else x.goto .ACT_LOCK, [])
  | .ACT_LOCK => some (x.lockRound s i)
  | .ACT_LOCK_WAIT =>
    let (s, x) := x.setMystate s "WAIT"
    some (s, x.goto .ACT_START, [])
  | .ACT_EXEC =>
    some (s, if x.paramLength ≤ x.i_ptr then x.finish else x.goto .ACT_EXEC_RET, [])
  | .FIN_START (k + 1) =>
    match x.i_lockTerminal[k]? with
    | none => none
    | some term =>
      some (s.set term (x.give (s.get term)), x.goto (.FIN_START k), [.unlocked i term])
  | .FIN_START 0 =>
    let (s, x) := x.restore s
    some (s, x, [])
  | _ => none

/-- The locks that are taken and not yet released. -/
def held (x : PigMutex) : List Variable :=
  match x.state with
  | .FIN_START k => x.i_lockTerminal.take k
  | _ => x.i_lockTerminal.take x.i_locked_ptr

end PigMutex

namespace MutexSystem

def put (s : MutexSystem) (i : Nat) (x : PigMutex) : MutexSystem :=
  { s with mutexes := s.mutexes.set i x }

/-- A step, where the rest of the program leaves the variables in `locks` alone. -/
def step (locks : Variable → Bool) (s : MutexSystem) :
    MutexAct → Option (MutexSystem × List MutexObs)
  | .make env paramLength =>
    some ({ s with mutexes := s.mutexes ++ [.new env paramLength] }, [])
  | .event i ev => do
    let x ← s.mutexes[i]?
    let y ← x.event s ev
    some (s.put i y, [])
  | .run i => do
    let x ← s.mutexes[i]?
    let (s, y, os) ← x.run s i
    some (s.put i y, os)
  | .change v x =>
    if locks v then none else some ({ s with value := Function.update s.value v x }, [])

/-- The lock variables are 0 at first. -/
def machine (locks : Variable → Bool) : Machine MutexSystem MutexAct MutexObs where
  init s := s.mutexes = [] ∧ ∀ v, locks v → s.value v = some (.number .zero)
  step := step locks

end MutexSystem

-- ---------------------------------------------------------------------------
-- What a lock variable says
-- ---------------------------------------------------------------------------

/-- The value of a lock variable that so many readers and writers hold. -/
inductive Encodes : Nat → Nat → LockValue → Prop
  | shared (r : Nat) : Encodes r 0 (.number (.real r))
  | exclusive (x : LockValue) : x.equalsZero = false → (∀ n, x = .number n → n.isNegative) →
      Encodes 0 1 x

/-- What a writer leaves is not taken for 0. -/
def PigMutex.Marked (x : PigMutex) : Prop := x.reads ∨ x.mark.equalsZero = false

namespace Encodes

variable {r w : Nat} {b y : LockValue} {x : PigMutex}

theorem read (h : Encodes r w b) (hr : x.reads) (ht : x.take b = some y) : Encodes (r + 1) w y := by
  unfold PigMutex.take at ht
  rw [if_pos hr] at ht
  cases h with
  | shared r =>
    have hn : (JsNumber.real (r : ℚ)).isNegative = false := by simp [JsNumber.isNegative]
    simp only [hn, Bool.false_eq_true, if_false, Option.some.injEq] at ht
    subst ht
    have h := Encodes.shared (r + 1)
    simpa [JsNumber.add] using h
  | exclusive b _ hneg =>
    cases b with
    | number n =>
      simp only [hneg n rfl, if_true] at ht
      cases ht
    | _ => cases ht

theorem write (h : Encodes r w b) (hr : ¬ x.reads) (hm : x.Marked) (ht : x.take b = some y) :
    r = 0 ∧ w = 0 ∧ Encodes 0 1 y := by
  unfold PigMutex.take at ht
  rw [if_neg hr] at ht
  split at ht
  · next hz =>
    cases ht
    cases h with
    | shared r =>
      have h0 : (r : ℚ) = 0 := by
        simpa [LockValue.equalsZero, LockValue.toNumber, JsNumber.zero] using hz
      refine ⟨by exact_mod_cast h0, rfl, .exclusive _ (hm.resolve_left hr) fun n hn => ?_⟩
      unfold PigMutex.mark at hn
      split at hn
      · cases hn
      · cases hn
        rfl
    | exclusive b hb _ =>
      rw [hb] at hz
      cases hz
  · cases ht

theorem giveRead (h : Encodes (r + 1) w b) (hr : x.reads) : Encodes r w (x.give b) := by
  rw [PigMutex.give, if_pos hr]
  cases h with
  | shared =>
    have h := Encodes.shared r
    simpa [LockValue.toNumber, JsNumber.add] using h

theorem giveWrite (h : Encodes r (w + 1) b) (hr : ¬ x.reads) : Encodes r w (x.give b) := by
  rw [PigMutex.give, if_neg hr]
  cases h with
  | exclusive =>
    have h := Encodes.shared 0
    simpa [JsNumber.zero] using h

end Encodes

-- ---------------------------------------------------------------------------
-- Sums over the pigMutexes
-- ---------------------------------------------------------------------------

def total {α : Type} (f : α → Nat) (l : List α) : Nat := (l.map f).sum

section

variable {α : Type} {f : α → Nat} {l : List α} {i j : Nat} {x y : α}

theorem total_append (l' : List α) : total f (l ++ l') = total f l + total f l' := by
  simp [total]

theorem total_set (h : l[i]? = some x) : total f (l.set i y) + f x = total f l + f y := by
  induction l generalizing i with
  | nil => cases h
  | cons z l ih =>
    cases i with
    | zero =>
      obtain rfl : z = x := Option.some.inj h
      simp only [total, List.set_cons_zero, List.map_cons, List.sum_cons]
      omega
    | succ i =>
      have hi := ih (i := i) h
      simp only [total, List.set_cons_succ, List.map_cons, List.sum_cons] at hi ⊢
      omega

theorem le_total (h : l[i]? = some x) : f x ≤ total f l := by
  have hs := total_set (f := f) (y := x) h
  induction l generalizing i with
  | nil => cases h
  | cons z l ih =>
    simp only [total, List.map_cons, List.sum_cons]
    cases i with
    | zero =>
      obtain rfl : z = x := Option.some.inj h
      exact Nat.le_add_right _ _
    | succ i => exact Nat.le_add_left_of_le (ih (i := i) h (total_set h))

theorem add_le_total (hij : i ≠ j) (h : l[i]? = some x) (hj : l[j]? = some y) :
    f x + f y ≤ total f l := by
  induction l generalizing i j with
  | nil => cases h
  | cons z l ih =>
    simp only [total, List.map_cons, List.sum_cons]
    cases i with
    | zero =>
      cases j with
      | zero => exact absurd rfl hij
      | succ j =>
        obtain rfl : z = x := Option.some.inj h
        exact Nat.add_le_add_left (le_total (i := j) hj) _
    | succ i =>
      cases j with
      | zero =>
        obtain rfl : z = y := Option.some.inj hj
        rw [Nat.add_comm]
        exact Nat.add_le_add_left (le_total (i := i) h) _
      | succ j =>
        exact Nat.le_add_left_of_le (ih (fun he => hij (congrArg (· + 1) he)) h hj)

end

-- ---------------------------------------------------------------------------
-- One pigMutex
-- ---------------------------------------------------------------------------

namespace PigMutex

/-- The options are not known yet. -/
def early (x : PigMutex) : Bool :=
  match x.state with
  | .INI_TINYSTATE_START | .INI_RET_1 | .INI_RET_2 | .INI_RET_3 => true
  | _ => false

/-- The locks are being released, or have been. -/
def leaving (x : PigMutex) : Bool :=
  match x.state with
  | .FIN_START _ | .ZOM => true
  | _ => false

structure Wf (locks : Variable → Bool) (x : PigMutex) : Prop where
  early : x.early → x.i_lockTerminal = []
  ptr : x.state ≠ .ZOM → x.i_locked_ptr ≤ x.i_lockTerminal.length
  zero : x.state = .INI_MYSTATE → x.i_locked_ptr = 0
  marked : x.early = false → x.leaving = false → x.Marked
  fin : ∀ k, x.state = .FIN_START k → k ≤ x.i_lockTerminal.length
  ended : x.state = .ZOM → x.i_lockTerminal = []
  mystate : ∀ t ∈ x.i_mystateTerminal, locks t = false

variable {locks : Variable → Bool} {s s' : MutexSystem} {x y : PigMutex} {i : Nat} {v t : Variable}
  {os : List MutexObs}

theorem wf_new (env : List Nat) (n : Nat) : Wf locks (new env n) where
  early _ := rfl
  ptr _ := Nat.le_refl 0
  zero := nofun
  marked := nofun
  fin := nofun
  ended := nofun
  mystate := nofun

/-- The options are known, and locks are taken or have been. -/
theorem Wf.held_early (h : Wf locks x) (he : x.early) : x.held = [] := by
  unfold held
  rw [h.early he]
  split <;> exact List.take_nil

/-- A step that neither takes nor releases a lock. -/
structure Quiet (locks : Variable → Bool) (x y : PigMutex) : Prop where
  wf : Wf locks y
  held : y.held = x.held
  reads : y.reads = x.reads ∨ x.held = []
  leaving : x.leaving → y.leaving

theorem held_of_not_leaving (h : x.leaving = false) :
    x.held = x.i_lockTerminal.take x.i_locked_ptr := by
  unfold held
  cases hs : x.state with
  | FIN_START k => simp [PigMutex.leaving, hs] at h
  | _ => rfl

theorem Wf.quiet_finish (h : Wf locks x) (hl : x.leaving = false) : Quiet locks x x.finish where
  wf := {
    early := nofun
    ptr := fun _ => h.ptr fun hz => by simp [PigMutex.leaving, hz] at hl
    zero := nofun
    marked := nofun
    fin := fun k hk => by
      cases hk
      exact h.ptr fun hz => by simp [PigMutex.leaving, hz] at hl
    ended := nofun
    mystate := h.mystate }
  held := (held_of_not_leaving hl).symm
  reads := .inl rfl
  leaving _ := rfl

theorem Wf.quiet (h : Wf locks x) (hx : x.leaving = false) (hy : y.leaving = false)
    (hlock : y.i_lockTerminal = x.i_lockTerminal) (hptr : y.i_locked_ptr = x.i_locked_ptr)
    (hearly : y.early → x.early) (hzero : y.state = .INI_MYSTATE → x.i_locked_ptr = 0)
    (hmark : y.early = false → y.Marked) (hreads : y.reads = x.reads ∨ x.early)
    (hmy : ∀ t ∈ y.i_mystateTerminal, locks t = false) : Quiet locks x y where
  wf := {
    early := fun he => hlock.trans (h.early (hearly he))
    ptr := fun _ => by
      rw [hlock, hptr]
      exact h.ptr fun hz => by simp [PigMutex.leaving, hz] at hx
    zero := fun hz => hptr.trans (hzero hz)
    marked := fun he _ => hmark he
    fin := fun k hk => by simp [PigMutex.leaving, hk] at hy
    ended := fun hz => by simp [PigMutex.leaving, hz] at hy
    mystate := hmy }
  held := by rw [held_of_not_leaving hy, held_of_not_leaving hx, hlock, hptr]
  reads := hreads.imp id h.held_early
  leaving hl := by
    rw [hx] at hl
    cases hl

/-- The commands change the options alone. -/
theorem commands_eq {cs : List MutexCmd} {ok : Bool} (h : x.commands cs = (y, ok)) :
    ∃ name pre value, y = { x with
      i_mystateVariable := name, i_mystatePrefix := pre, i_wstate := value } := by
  induction cs generalizing x with
  | nil =>
    cases h
    exact ⟨_, _, _, rfl⟩
  | cons c cs ih =>
    unfold commands at h
    split at h
    · cases h
      exact ⟨_, _, _, rfl⟩
    · next z hz =>
      obtain ⟨a, b, d, rfl⟩ := ih h
      unfold command at hz
      split at hz <;> cases hz <;> exact ⟨_, _, _, rfl⟩

/-- The locks are known now, and none of them has been taken. -/
theorem Wf.quiet_locks (h : Wf locks x) (hs : x.state = .INI_RET_3)
    (hmark : x.Marked) (l : List Variable) :
    Quiet locks x { x with state := .INI_MYSTATE, i_lockTerminal := l } where
  wf := {
    early := nofun
    ptr := fun _ => by
      have hp := h.ptr (by rw [hs]; nofun)
      rw [h.early (by rw [PigMutex.early, hs])] at hp
      exact Nat.le_trans hp (Nat.zero_le _)
    zero := fun _ => by
      have hp := h.ptr (by rw [hs]; nofun)
      rw [h.early (by rw [PigMutex.early, hs])] at hp
      exact Nat.le_zero.mp hp
    marked := fun _ _ => hmark
    fin := nofun
    ended := nofun
    mystate := h.mystate }
  held := by
    have hp := h.ptr (by rw [hs]; nofun)
    rw [h.early (by rw [PigMutex.early, hs])] at hp
    rw [h.held_early (by rw [PigMutex.early, hs]), held, Nat.le_zero.mp hp, List.take_zero]
  reads := .inl rfl
  leaving hl := by rw [PigMutex.leaving, hs] at hl; cases hl

theorem Wf.quiet_lockTerminals (h : Wf locks x) (hs : x.state = .INI_RET_3)
    (hmark : x.Marked) : Quiet locks x (x.lockTerminals s) := by
  unfold lockTerminals
  split
  · split
    · exact h.quiet_locks hs hmark x.i_lockTerminal
    · exact h.quiet_finish (by rw [PigMutex.leaving, hs])
  · exact h.quiet_locks hs hmark _

theorem Wf.quiet_refl (h : Wf locks x) : Quiet locks x x := ⟨h, rfl, .inl rfl, id⟩

variable {ev : MutexEvent}

/-- A mark that would be taken for 0 is not among the options that come in. -/
def Sensible (x : PigMutex) (ev : MutexEvent) : Prop :=
  match ev with
  | .ret _ args3 => x.state = .INI_RET_3 → (x.commands args3).1.Marked
  | _ => True

/-- The options may have changed, but not the state. -/
theorem Wf.options (h : Wf locks x) (he : x.early) (a b d : String) :
    Wf locks { x with i_mystateVariable := a, i_mystatePrefix := b, i_wstate := d } where
  early := h.early
  ptr := h.ptr
  zero := h.zero
  marked hn := by
    change x.early = false at hn
    rw [he] at hn
    cases hn
  fin := h.fin
  ended := h.ended
  mystate := h.mystate

/-- A result comes before the options are known. -/
theorem Wf.quiet_early (h : Wf locks x) (he : x.early) (hl : x.leaving = false)
    (hy : y.leaving = false) (hey : y.early) (hlock : y.i_lockTerminal = x.i_lockTerminal)
    (hptr : y.i_locked_ptr = x.i_locked_ptr) (hmy : y.i_mystateTerminal = x.i_mystateTerminal) :
    Quiet locks x y :=
  h.quiet hl hy hlock hptr (fun _ => he) (fun hs => by rw [PigMutex.early, hs] at hey; cases hey)
    (fun hn => by rw [hey] at hn; cases hn) (.inr he) (hmy ▸ h.mystate)

theorem Wf.quiet_handle (h : Wf locks x) (hc : x.Sensible ev) (he : x.handle s ev = some y) :
    x.leaving = false ∧ Quiet locks x y := by
  unfold handle at he
  split at he
  · next hs =>
    cases he
    have hl : x.leaving = false := by rw [PigMutex.leaving, hs]
    have hx : x.early := by rw [PigMutex.early, hs]
    exact ⟨hl, h.quiet_early hx hl rfl rfl rfl rfl rfl⟩
  · next hs =>
    cases he
    have hl : x.leaving = false := by rw [PigMutex.leaving, hs]
    have hx : x.early := by rw [PigMutex.early, hs]
    refine ⟨hl, ?_⟩
    split
    · exact h.quiet_finish hl
    · split
      · exact h.quiet_early hx hl rfl rfl rfl rfl rfl
      · exact h.quiet_finish hl
  · next hs =>
    cases he
    have hl : x.leaving = false := by rw [PigMutex.leaving, hs]
    have hx : x.early := by rw [PigMutex.early, hs]
    refine ⟨hl, ?_⟩
    split
    · exact h.quiet_finish hl
    · split
      · exact h.quiet_early hx hl rfl rfl rfl rfl rfl
      · exact h.quiet_finish hl
  · next hs =>
    cases he
    have hl : x.leaving = false := by rw [PigMutex.leaving, hs]
    have hx : x.early := by rw [PigMutex.early, hs]
    refine ⟨hl, ?_⟩
    have hmark := hc hs
    split
    · exact h.quiet_finish hl
    · split
      · next z hz =>
        rw [hz] at hmark
        obtain ⟨a, b, d, rfl⟩ := commands_eq hz
        have q := (h.options hx a b d).quiet_lockTerminals (s := s) hs hmark
        exact ⟨q.wf, q.held, q.reads, q.leaving⟩
      · next z hz =>
        obtain ⟨a, b, d, rfl⟩ := commands_eq hz
        have q := (h.options hx a b d).quiet_finish hl
        exact ⟨q.wf, q.held, q.reads, q.leaving⟩
  · next hs =>
    cases he
    have hl : x.leaving = false := by rw [PigMutex.leaving, hs]
    have hmark := h.marked (by rw [PigMutex.early, hs]) hl
    refine ⟨hl, ?_⟩
    split
    · exact h.quiet_finish hl
    · exact h.quiet hl rfl rfl rfl nofun nofun (fun _ => hmark) (.inl rfl) h.mystate
  · next hs =>
    cases he
    have hl : x.leaving = false := by rw [PigMutex.leaving, hs]
    have hmark := h.marked (by rw [PigMutex.early, hs]) hl
    refine ⟨hl, ?_⟩
    split
    · exact h.quiet_finish hl
    · exact h.quiet hl rfl rfl rfl nofun nofun (fun _ => hmark) (.inl rfl) h.mystate
  -- what is no result is left alone by the states that wait for one
  · next hs _ =>
    cases he
    exact ⟨by rw [PigMutex.leaving, hs], h.quiet_refl⟩
  · next hs _ =>
    cases he
    exact ⟨by rw [PigMutex.leaving, hs], h.quiet_refl⟩
  · next hs _ =>
    cases he
    exact ⟨by rw [PigMutex.leaving, hs], h.quiet_refl⟩
  · next hs _ =>
    cases he
    exact ⟨by rw [PigMutex.leaving, hs], h.quiet_refl⟩
  · cases he

theorem Wf.quiet_event (h : Wf locks x) (hc : x.Sensible ev) (he : x.event s ev = some y) :
    x.leaving = false ∧ Quiet locks x y := by
  unfold event at he
  split at he
  · next ha =>
    subst ha
    have hw : Wf locks { x with i_abort := true } :=
      ⟨h.early, h.ptr, h.zero, h.marked, h.fin, h.ended, h.mystate⟩
    have hc' : PigMutex.Sensible { x with i_abort := true } .abort := trivial
    obtain ⟨hl, q⟩ := hw.quiet_handle hc' he
    exact ⟨hl, q.wf, q.held, q.reads, q.leaving⟩
  · exact h.quiet_handle hc he

theorem set_value (s : MutexSystem) (t v : Variable) (x : LockValue) :
    (s.set t x).value v =
      if v = t ∧ (s.value t).isSome ∧ x.getType ≠ "null" then some x else s.value v := by
  unfold MutexSystem.set
  by_cases hn : (s.value t).isNone ∨ x.getType = "null"
  · rw [if_pos hn, if_neg]
    rintro ⟨-, hs, ht⟩
    rcases hn with hn | hn
    · rw [Option.isNone_iff_eq_none.mp hn] at hs
      cases hs
    · exact ht hn
  · rw [if_neg hn]
    rw [not_or, Bool.not_eq_true, Option.isNone_eq_false_iff] at hn
    by_cases hv : v = t
    · subst hv
      rw [if_pos ⟨rfl, hn⟩]
      exact Function.update_self ..
    · rw [if_neg fun h => hv h.1]
      exact Function.update_of_ne hv ..

theorem set_mutexes (s : MutexSystem) (t : Variable) (x : LockValue) :
    (s.set t x).mutexes = s.mutexes := by
  unfold MutexSystem.set
  split <;> rfl

/-- A variable that is no lock is written. -/
structure Apart (locks : Variable → Bool) (s s' : MutexSystem) : Prop where
  mutexes : s'.mutexes = s.mutexes
  value : ∀ v, locks v → s'.value v = s.value v

theorem Apart.refl (s : MutexSystem) : Apart locks s s := ⟨rfl, fun _ _ => rfl⟩

theorem apart_set (s : MutexSystem) (ht : locks t = false) (d : LockValue) :
    Apart locks s (s.set t d) where
  mutexes := set_mutexes s t d
  value v hv := by
    rw [set_value, if_neg]
    rintro ⟨rfl, -⟩
    rw [ht] at hv
    cases hv

/-- Telling the state to the outside writes no lock. -/
theorem Wf.setMystate (h : Wf locks x) (s : MutexSystem) (d : String) :
    ∃ stack, (x.setMystate s d).2 = { x with i_mystateStack := stack } ∧
      Apart locks s (x.setMystate s d).1 := by
  unfold PigMutex.setMystate
  split
  · exact ⟨x.i_mystateStack, rfl, .refl s⟩
  · next t ht => exact ⟨_, rfl, apart_set s (h.mystate t ht) _⟩

/-- The ways in which a pigMutex goes on. -/
inductive Goes (locks : Variable → Bool) (s : MutexSystem) (i : Nat) (x : PigMutex) :
    MutexSystem → PigMutex → List MutexObs → Prop
  | quiet {s' : MutexSystem} {y : PigMutex} : Apart locks s s' → Quiet locks x y →
      Goes locks s i x s' y []
  | lock {term : Variable} {z : LockValue} : x.state = .ACT_LOCK →
      x.i_lockTerminal[x.i_locked_ptr]? = some term → x.take (s.get term) = some z →
      Goes locks s i x (s.set term z) x.next [.locked i term]
  | unlock {k : Nat} {term : Variable} : x.state = .FIN_START (k + 1) →
      x.i_lockTerminal[k]? = some term →
      Goes locks s i x (s.set term (x.give (s.get term))) (x.goto (.FIN_START k))
        [.unlocked i term]

theorem Wf.goes_lockRound (h : Wf locks x) (hs : x.state = .ACT_LOCK) (s : MutexSystem) (i : Nat) :
    Goes locks s i x (x.lockRound s i).1 (x.lockRound s i).2.1 (x.lockRound s i).2.2 := by
  have hl : x.leaving = false := by rw [PigMutex.leaving, hs]
  have hmark := h.marked (by rw [PigMutex.early, hs]) hl
  unfold lockRound
  split
  · next term hterm =>
    split
    · exact .quiet (.refl s) (h.quiet_finish hl)
    · split
      · exact .quiet (.refl s) (h.quiet hl rfl rfl rfl nofun nofun (fun _ => hmark) (.inl rfl)
          h.mystate)
      · next z hz => exact .lock hs hterm hz
  · obtain ⟨stack, hy, ha⟩ := h.setMystate s "ACT"
    generalize x.setMystate s "ACT" = r at hy ha ⊢
    obtain ⟨s', y⟩ := r
    subst hy
    exact .quiet ha (h.quiet hl rfl rfl rfl nofun nofun (fun _ => hmark) (.inl rfl) h.mystate)

theorem Wf.goes (h : Wf locks x)
    (hc : x.state = .INI_MYSTATE → ∀ r ∈ s.refer x.i_mystateVariable x.env, locks r.1 = false)
    (hr : x.run s i = some (s', y, os)) : Goes locks s i x s' y os := by
  unfold run at hr
  split at hr
  · next hs =>
    have hl : x.leaving = false := by rw [PigMutex.leaving, hs]
    have hmark := h.marked (by rw [PigMutex.early, hs]) hl
    split at hr
    · cases hr
      refine .quiet (.refl s) ?_
      split
      · exact h.quiet_finish hl
      · exact h.quiet hl rfl rfl rfl nofun nofun (fun _ => hmark) (.inl rfl) h.mystate
    · split at hr
      · cases hr
        exact .quiet (.refl s) (h.quiet_finish hl)
      · next t outer ht =>
        cases hr
        refine .quiet (.refl s) ?_
        have hmy : ∀ u ∈ some t, locks u = false := fun u hu => by
          cases hu
          exact hc hs _ ht
        split
        · have q := Wf.quiet_finish (x := { x with i_mystateTerminal := some t })
            ⟨h.early, h.ptr, h.zero, h.marked, h.fin, h.ended, hmy⟩ hl
          exact ⟨q.wf, q.held, q.reads, q.leaving⟩
        · exact h.quiet hl rfl rfl rfl nofun nofun (fun _ => hmark) (.inl rfl) hmy
  · next hs =>
    have hg := h.goes_lockRound hs s i
    rw [Option.some.inj hr] at hg
    exact hg
  · next hs =>
    have hl : x.leaving = false := by rw [PigMutex.leaving, hs]
    have hmark := h.marked (by rw [PigMutex.early, hs]) hl
    obtain ⟨stack, hy, ha⟩ := h.setMystate s "WAIT"
    generalize x.setMystate s "WAIT" = r at hr hy ha
    obtain ⟨u, z⟩ := r
    cases hr
    subst hy
    exact .quiet ha (h.quiet hl rfl rfl rfl nofun nofun (fun _ => hmark) (.inl rfl) h.mystate)
  · next hs =>
    cases hr
    have hl : x.leaving = false := by rw [PigMutex.leaving, hs]
    have hmark := h.marked (by rw [PigMutex.early, hs]) hl
    refine .quiet (.refl s) ?_
    split
    · exact h.quiet_finish hl
    · exact h.quiet hl rfl rfl rfl nofun nofun (fun _ => hmark) (.inl rfl) h.mystate
  · next k hs =>
    split at hr
    · cases hr
    · next term hterm =>
      cases hr
      exact .unlock hs hterm
  · next hs =>
    cases hr
    refine .quiet ?_ ⟨⟨nofun, nofun, nofun, nofun, nofun, fun _ => rfl, nofun⟩,
      ?_, .inl rfl, fun _ => rfl⟩
    · split
      · exact .refl s
      · next t ht => exact apart_set s (h.mystate t ht) _
    · rw [held, held, hs]
      exact List.take_nil
  · cases hr

-- ---------------------------------------------------------------------------
-- Holders
-- ---------------------------------------------------------------------------

def reading (v : Variable) (x : PigMutex) : Nat := if x.reads then x.held.count v else 0

def writing (v : Variable) (x : PigMutex) : Nat := if x.reads then 0 else x.held.count v

theorem reading_pos (hr : x.reads) (hv : v ∈ x.held) : 0 < reading v x := by
  rw [reading, if_pos hr]
  exact List.count_pos_iff.mpr hv

theorem writing_pos (hr : ¬ x.reads) (hv : v ∈ x.held) : 0 < writing v x := by
  rw [writing, if_neg hr]
  exact List.count_pos_iff.mpr hv

theorem Quiet.counts (h : Quiet locks x y) (v : Variable) :
    reading v y = reading v x ∧ writing v y = writing v x := by
  unfold reading writing
  rw [h.held]
  rcases h.reads with hr | hn
  · rw [hr]
    exact ⟨rfl, rfl⟩
  · rw [hn, List.count_nil, ite_self, ite_self]
    exact ⟨rfl, rfl⟩

/-- `y` holds `term` on top of what `x` holds. -/
structure Adds (term : Variable) (x y : PigMutex) : Prop where
  held : y.held = x.held ++ [term]
  reads : y.reads = x.reads

variable {term : Variable}

theorem Adds.other (h : Adds term x y) (hv : v ≠ term) :
    reading v y = reading v x ∧ writing v y = writing v x := by
  have hc : y.held.count v = x.held.count v := by
    rw [h.held, List.count_append, List.count_singleton, if_neg, Nat.add_zero]
    rw [beq_iff_eq]
    exact fun he => hv he.symm
  unfold reading writing
  rw [h.reads, hc]
  exact ⟨rfl, rfl⟩

theorem Adds.reader (h : Adds term x y) (hr : x.reads) :
    reading term y = reading term x + 1 ∧ writing term y = writing term x := by
  unfold reading writing
  rw [h.reads, h.held, if_pos hr, if_pos hr, if_pos hr, if_pos hr, List.count_append,
    List.count_singleton_self]
  exact ⟨rfl, rfl⟩

theorem Adds.writer (h : Adds term x y) (hr : ¬ x.reads) :
    reading term y = reading term x ∧ writing term y = writing term x + 1 := by
  unfold reading writing
  rw [h.reads, h.held, if_neg hr, if_neg hr, if_neg hr, if_neg hr, List.count_append,
    List.count_singleton_self]
  exact ⟨rfl, rfl⟩

theorem adds_lock (hs : x.state = .ACT_LOCK) (ht : x.i_lockTerminal[x.i_locked_ptr]? = some term) :
    Adds term x x.next where
  held := by
    unfold held next
    rw [hs]
    change List.take (x.i_locked_ptr + 1) _ = List.take x.i_locked_ptr _ ++ [term]
    rw [List.take_add_one, ht]
    rfl
  reads := rfl

theorem adds_unlock {k : Nat} (hs : x.state = .FIN_START (k + 1))
    (ht : x.i_lockTerminal[k]? = some term) : Adds term (x.goto (.FIN_START k)) x where
  held := by
    unfold held goto
    rw [hs]
    change List.take (k + 1) _ = List.take k _ ++ [term]
    rw [List.take_add_one, ht]
    rfl
  reads := rfl

theorem Wf.lock (h : Wf locks x) (hs : x.state = .ACT_LOCK)
    (ht : x.i_lockTerminal[x.i_locked_ptr]? = some term) : Wf locks x.next where
  early := h.early
  ptr _ := (List.getElem?_eq_some_iff.mp ht).1
  zero hz := by
    rw [next, hs] at hz
    cases hz
  marked := h.marked
  fin := h.fin
  ended := h.ended
  mystate := h.mystate

theorem Wf.unlock {k : Nat} (h : Wf locks x) (hs : x.state = .FIN_START (k + 1)) :
    Wf locks (x.goto (.FIN_START k)) where
  early := nofun
  ptr _ := h.ptr (by rw [hs]; nofun)
  zero := nofun
  marked := nofun
  fin n hn := by
    cases hn
    exact Nat.le_of_succ_le (h.fin _ hs)
  ended := nofun
  mystate := h.mystate

end PigMutex

-- ---------------------------------------------------------------------------
-- All pigMutexes
-- ---------------------------------------------------------------------------

def lockedBy (i : Nat) (tr : List MutexObs) : List Variable :=
  tr.filterMap fun | .locked j v => if j = i then some v else none | .unlocked .. => none

def unlockedBy (i : Nat) (tr : List MutexObs) : List Variable :=
  tr.filterMap fun | .unlocked j v => if j = i then some v else none | .locked .. => none

namespace MutexSystem

def readersOf (s : MutexSystem) (v : Variable) : Nat := total (PigMutex.reading v) s.mutexes

def writersOf (s : MutexSystem) (v : Variable) : Nat := total (PigMutex.writing v) s.mutexes

/-- No `wstate` of a writer that comes in is taken for 0, and no lock variable is told the state
of a pigMutex. -/
def Sensible (locks : Variable → Bool) (s : MutexSystem) : MutexAct → Prop
  | .event i ev => ∀ x ∈ s.mutexes[i]?, x.Sensible ev
  | .run i => ∀ x ∈ s.mutexes[i]?, x.state = .INI_MYSTATE →
      ∀ r ∈ s.refer x.i_mystateVariable x.env, locks r.1 = false
  | _ => True

/-- What has been locked is held still, or has been released in the opposite order. -/
def Traced (tr : List MutexObs) (i : Nat) : Option PigMutex → Prop
  | none => lockedBy i tr = [] ∧ unlockedBy i tr = []
  | some x => lockedBy i tr = x.held ++ (unlockedBy i tr).reverse ∧
      (x.leaving = false → unlockedBy i tr = [])

structure Good (locks : Variable → Bool) (tr : List MutexObs) (s : MutexSystem) : Prop where
  wf : ∀ x ∈ s.mutexes, x.Wf locks
  encodes : ∀ v, locks v → ∃ b, s.value v = some b ∧ Encodes (s.readersOf v) (s.writersOf v) b
  traced : ∀ i, Traced tr i s.mutexes[i]?

/-- The locks are what they are meant to be. -/
structure Kept (locks : Variable → Bool) (tr : List MutexObs) (s : MutexSystem) : Prop where
  /-- Who holds a lock for writing holds it once, and is the only one that holds it. -/
  exclusive : ∀ (i : Nat) x v, s.mutexes[i]? = some x → x.reads = false → v ∈ x.held → locks v →
    x.held.count v = 1 ∧ ∀ (j : Nat) y, s.mutexes[j]? = some y → v ∈ y.held → j = i
  /-- Who leaves can go on until it has ended. -/
  ends : ∀ (i : Nat) x, s.mutexes[i]? = some x → x.leaving → x.state ≠ .ZOM →
    (step locks s (.run i)).isSome
  /-- Each lock that has been taken is held, or has been released once. -/
  released : ∀ (i : Nat) x, s.mutexes[i]? = some x →
    lockedBy i tr = x.held ++ (unlockedBy i tr).reverse ∧ (x.state = .ZOM → x.held = [])
  restored : (∀ x ∈ s.mutexes, x.state = .ZOM) →
    ∀ v, locks v → s.value v = some (.number .zero)

variable {locks : Variable → Bool} {s s' : MutexSystem} {tr os : List MutexObs} {x y : PigMutex}
  {i j : Nat} {v term : Variable} {z : LockValue}

theorem Traced.silent {o : Option PigMutex} (h : Traced tr j o)
    (hl : lockedBy j os = []) (hu : unlockedBy j os = []) : Traced (tr ++ os) j o := by
  unfold Traced lockedBy unlockedBy at *
  simp only [List.filterMap_append, hl, hu, List.append_nil]
  exact h

/-- A pigMutex has changed, and no other. -/
theorem Good.put (h : Good locks tr s) (hx : s.mutexes[i]? = some x) (hm : s'.mutexes = s.mutexes)
    (hw : y.Wf locks)
    (hothers : ∀ j, j ≠ i → lockedBy j os = [] ∧ unlockedBy j os = [])
    (ht : Traced (tr ++ os) i (some y))
    (hv : ∀ v, locks v → ∃ b, s'.value v = some b ∧
      Encodes ((s'.put i y).readersOf v) ((s'.put i y).writersOf v) b) :
    Good locks (tr ++ os) (s'.put i y) where
  wf z hz := by
    rw [MutexSystem.put, hm] at hz
    rcases List.mem_or_eq_of_mem_set hz with hz | rfl
    · exact h.wf z hz
    · exact hw
  encodes := hv
  traced j := by
    rw [MutexSystem.put, hm, List.getElem?_set]
    by_cases hij : i = j
    · subst hij
      rw [if_pos rfl, if_pos (List.getElem?_eq_some_iff.mp hx).1]
      exact ht
    · rw [if_neg hij]
      have ho := hothers j (Ne.symm hij)
      exact (h.traced j).silent ho.1 ho.2

theorem put_readers (hx : s.mutexes[i]? = some x) (hm : s'.mutexes = s.mutexes) (v : Variable) :
    (s'.put i y).readersOf v + PigMutex.reading v x = s.readersOf v + PigMutex.reading v y := by
  unfold readersOf MutexSystem.put
  rw [hm]
  exact total_set hx

theorem put_writers (hx : s.mutexes[i]? = some x) (hm : s'.mutexes = s.mutexes) (v : Variable) :
    (s'.put i y).writersOf v + PigMutex.writing v x = s.writersOf v + PigMutex.writing v y := by
  unfold writersOf MutexSystem.put
  rw [hm]
  exact total_set hx

theorem put_same (hx : s.mutexes[i]? = some x) (hm : s'.mutexes = s.mutexes)
    (hc : PigMutex.reading v y = PigMutex.reading v x ∧
      PigMutex.writing v y = PigMutex.writing v x) :
    (s'.put i y).readersOf v = s.readersOf v ∧ (s'.put i y).writersOf v = s.writersOf v := by
  have hr := put_readers (y := y) hx hm v
  have hw := put_writers (y := y) hx hm v
  rw [hc.1] at hr
  rw [hc.2] at hw
  exact ⟨Nat.add_right_cancel hr, Nat.add_right_cancel hw⟩

theorem Good.quiet (h : Good locks tr s) (hx : s.mutexes[i]? = some x)
    (ha : PigMutex.Apart locks s s') (q : PigMutex.Quiet locks x y) :
    Good locks (tr ++ []) (s'.put i y) := by
  refine h.put hx ha.mutexes q.wf (fun _ _ => ⟨rfl, rfl⟩) ?_ fun v hv => ?_
  · have ht := h.traced i
    rw [hx] at ht
    rw [List.append_nil]
    refine ⟨by rw [q.held]; exact ht.1, fun hn => ht.2 ?_⟩
    refine Bool.eq_false_iff.mpr fun hl => ?_
    rw [q.leaving hl] at hn
    cases hn
  · obtain ⟨b, hb, he⟩ := h.encodes v hv
    have hs := put_same hx ha.mutexes (q.counts v)
    rw [ha.value v hv, hs.1, hs.2]
    exact ⟨b, hb, he⟩

theorem get_of_value {b : LockValue} (hb : s.value v = some b) : s.get v = b := by
  rw [MutexSystem.get, hb]
  rfl

theorem set_self {b : LockValue} (hb : s.value v = some b) (hz : z.getType ≠ "null") :
    (s.set v z).value v = some z := by
  rw [PigMutex.set_value, if_pos ⟨rfl, by rw [hb]; rfl, hz⟩]

theorem set_other (hv : v ≠ term) : (s.set term z).value v = s.value v := by
  rw [PigMutex.set_value, if_neg fun h => hv h.1]

theorem take_type (h : x.take (s.get v) = some z) : z.getType ≠ "null" := by
  unfold PigMutex.take at h
  split at h
  · split at h
    · split at h
      · cases h
      · cases h
        exact of_decide_eq_true rfl
    · cases h
  · split at h
    · cases h
      unfold PigMutex.mark
      split <;> exact of_decide_eq_true rfl
    · cases h

theorem give_type (x : PigMutex) (b : LockValue) : (x.give b).getType ≠ "null" := by
  unfold PigMutex.give
  split <;> exact of_decide_eq_true rfl

theorem Good.lock (h : Good locks tr s) (hx : s.mutexes[i]? = some x) (hs : x.state = .ACT_LOCK)
    (ht : x.i_lockTerminal[x.i_locked_ptr]? = some term) (hz : x.take (s.get term) = some z) :
    Good locks (tr ++ [MutexObs.locked i term]) ((s.set term z).put i x.next) := by
  have hm := PigMutex.set_mutexes s term z
  have ha := PigMutex.adds_lock hs ht
  have hw := h.wf x (List.mem_of_getElem? hx)
  have hl : x.leaving = false := by rw [PigMutex.leaving, hs]
  refine h.put hx hm (hw.lock hs ht) (fun j hj => ?_) ?_ fun v hv => ?_
  · exact ⟨by simp [lockedBy, Ne.symm hj], rfl⟩
  · have htr := h.traced i
    rw [hx] at htr
    have hu := htr.2 hl
    have h1 := htr.1
    rw [hu, List.reverse_nil, List.append_nil] at h1
    have hu' : unlockedBy i (tr ++ [MutexObs.locked i term]) = [] := by
      unfold unlockedBy at *
      rw [List.filterMap_append, hu]
      rfl
    refine ⟨?_, fun _ => hu'⟩
    rw [hu', List.reverse_nil, List.append_nil, ha.held, ← h1]
    simp [lockedBy]
  · obtain ⟨b, hb, hen⟩ := h.encodes v hv
    by_cases hvt : v = term
    · subst hvt
      have hmark := hw.marked (by rw [PigMutex.early, hs]) hl
      have htype := take_type hz
      rw [get_of_value hb] at hz
      refine ⟨z, set_self hb htype, ?_⟩
      have hr := put_readers (y := x.next) hx hm v
      have hwr := put_writers (y := x.next) hx hm v
      by_cases hread : x.reads
      · have hc := ha.reader hread
        have hr1 : ((s.set v z).put i x.next).readersOf v = s.readersOf v + 1 := by omega
        have hw1 : ((s.set v z).put i x.next).writersOf v = s.writersOf v := by omega
        rw [hr1, hw1]
        exact hen.read hread hz
      · have hc := ha.writer hread
        obtain ⟨hr0, hw0, hen'⟩ := hen.write hread hmark hz
        have hr1 : ((s.set v z).put i x.next).readersOf v = 0 := by omega
        have hw1 : ((s.set v z).put i x.next).writersOf v = 1 := by omega
        rw [hr1, hw1]
        exact hen'
    · have hsame := put_same hx hm (ha.other hvt)
      rw [hsame.1, hsame.2]
      exact ⟨b, (set_other hvt).trans hb, hen⟩

theorem Good.unlock {k : Nat} (h : Good locks tr s) (hx : s.mutexes[i]? = some x)
    (hs : x.state = .FIN_START (k + 1)) (ht : x.i_lockTerminal[k]? = some term) :
    Good locks (tr ++ [MutexObs.unlocked i term])
      ((s.set term (x.give (s.get term))).put i (x.goto (.FIN_START k))) := by
  have hm := PigMutex.set_mutexes s term (x.give (s.get term))
  have ha := PigMutex.adds_unlock hs ht
  have hw := h.wf x (List.mem_of_getElem? hx)
  refine h.put hx hm (hw.unlock hs) (fun j hj => ?_) ?_ fun v hv => ?_
  · exact ⟨rfl, by simp [unlockedBy, Ne.symm hj]⟩
  · have htr := h.traced i
    rw [hx] at htr
    refine ⟨?_, nofun⟩
    have h1 := htr.1
    rw [ha.held] at h1
    have hl : lockedBy i (tr ++ [MutexObs.unlocked i term]) = lockedBy i tr := by
      unfold lockedBy
      rw [List.filterMap_append]
      exact List.append_nil _
    have hu : unlockedBy i (tr ++ [MutexObs.unlocked i term]) = unlockedBy i tr ++ [term] := by
      simp [unlockedBy]
    rw [hl, h1, hu, List.reverse_append, List.append_assoc]
    rfl
  · obtain ⟨b, hb, hen⟩ := h.encodes v hv
    by_cases hvt : v = term
    · subst hvt
      have htype := give_type x (s.get v)
      refine ⟨_, set_self hb htype, ?_⟩
      rw [get_of_value hb] at hm ⊢
      have hr := put_readers (y := x.goto (.FIN_START k)) hx hm v
      have hwr := put_writers (y := x.goto (.FIN_START k)) hx hm v
      by_cases hread : x.reads
      · have hc := ha.reader hread
        have hr1 : s.readersOf v =
          ((s.set v (x.give b)).put i (x.goto (.FIN_START k))).readersOf v + 1 := by omega
        have hw1 : s.writersOf v =
          ((s.set v (x.give b)).put i (x.goto (.FIN_START k))).writersOf v := by omega
        rw [hr1, hw1] at hen
        exact hen.giveRead hread
      · have hc := ha.writer hread
        have hr1 : s.readersOf v =
          ((s.set v (x.give b)).put i (x.goto (.FIN_START k))).readersOf v := by omega
        have hw1 : s.writersOf v =
          ((s.set v (x.give b)).put i (x.goto (.FIN_START k))).writersOf v + 1 := by omega
        rw [hr1, hw1] at hen
        exact hen.giveWrite hread
    · have hoth := ha.other hvt
      have hsame := put_same (y := x.goto (.FIN_START k)) hx hm ⟨hoth.1.symm, hoth.2.symm⟩
      rw [hsame.1, hsame.2]
      exact ⟨b, (set_other hvt).trans hb, hen⟩

theorem Good.make (h : Good locks tr s) (env : List Nat) (n : Nat) :
    Good locks (tr ++ []) { s with mutexes := s.mutexes ++ [PigMutex.new env n] } where
  wf x hx := by
    rcases List.mem_append.mp hx with hx | hx
    · exact h.wf x hx
    · rw [List.mem_singleton.mp hx]
      exact PigMutex.wf_new env n
  encodes v hv := by
    obtain ⟨b, hb, he⟩ := h.encodes v hv
    refine ⟨b, hb, ?_⟩
    unfold readersOf writersOf at *
    rw [total_append, total_append]
    exact he
  traced i := by
    rw [List.append_nil]
    have ht := h.traced i
    rcases Nat.lt_trichotomy i s.mutexes.length with hi | rfl | hi
    · rw [List.getElem?_append_left hi]
      exact ht
    · rw [List.getElem?_eq_none (Nat.le_refl _)] at ht
      rw [List.getElem?_append_right (Nat.le_refl _), Nat.sub_self]
      unfold Traced at *
      exact ⟨by rw [ht.1, ht.2]; rfl, fun _ => ht.2⟩
    · rw [List.getElem?_eq_none (Nat.le_of_lt hi)] at ht
      rw [List.getElem?_eq_none]
      · exact ht
      · rw [List.length_append]
        exact hi

variable {a : MutexAct}

theorem Good.step (h : Good locks tr s) (hc : s.Sensible locks a)
    (hs : step locks s a = some (s', os)) : Good locks (tr ++ os) s' := by
  cases a with
  | make env n =>
    cases hs
    exact h.make env n
  | event i ev =>
    obtain ⟨x, hx, hs⟩ := Option.bind_eq_some_iff.mp hs
    obtain ⟨y, hy, hs⟩ := Option.bind_eq_some_iff.mp hs
    cases hs
    have hw := h.wf x (List.mem_of_getElem? hx)
    exact h.quiet hx (.refl s) (hw.quiet_event (hc x hx) hy).2
  | run i =>
    obtain ⟨x, hx, hs⟩ := Option.bind_eq_some_iff.mp hs
    obtain ⟨⟨u, y, o⟩, hy, hs⟩ := Option.bind_eq_some_iff.mp hs
    cases hs
    have hw := h.wf x (List.mem_of_getElem? hx)
    cases hw.goes (hc x hx) hy with
    | quiet ha q => exact h.quiet hx ha q
    | lock hst ht hz => exact h.lock hx hst ht hz
    | unlock hst ht => exact h.unlock hx hst ht
  | change v z =>
    change (if locks v then none
      else some ({ s with value := Function.update s.value v z }, [])) = _ at hs
    split at hs
    · cases hs
    · next hv =>
      cases hs
      rw [List.append_nil]
      refine ⟨h.wf, fun u hu => ?_, h.traced⟩
      obtain ⟨b, hb, he⟩ := h.encodes u hu
      refine ⟨b, ?_, he⟩
      rw [← hb]
      exact Function.update_of_ne (fun huv : u = v => hv (huv ▸ hu)) ..

theorem good (hr : (machine locks).RunIf (Sensible locks) tr s) : Good locks tr s := by
  induction hr with
  | @start s hi =>
    obtain ⟨hm, hv⟩ := hi
    refine ⟨fun x hx => ?_, fun v hlv => ⟨_, hv v hlv, ?_⟩, fun i => ?_⟩
    · rw [hm] at hx
      cases hx
    · rw [readersOf, writersOf, hm]
      have he := Encodes.shared 0
      rwa [Nat.cast_zero] at he
    · rw [hm]
      exact ⟨rfl, rfl⟩
  | step _ hc hs ih => exact ih.step hc hs

theorem Good.exclusive (h : Good locks tr s) (hv : locks v) (hx : s.mutexes[i]? = some x)
    (hr : x.reads = false) (hh : v ∈ x.held) :
    x.held.count v = 1 ∧ ∀ (j : Nat) y, s.mutexes[j]? = some y → v ∈ y.held → j = i := by
  have hr' : ¬ x.reads := by rw [hr]; exact Bool.false_ne_true
  obtain ⟨b, -, he⟩ := h.encodes v hv
  have hpos := PigMutex.writing_pos hr' hh
  have hle := le_total (f := PigMutex.writing v) hx
  have hw : PigMutex.writing v x = x.held.count v := by rw [PigMutex.writing, if_neg hr']
  unfold readersOf writersOf at he
  generalize hR : total (PigMutex.reading v) s.mutexes = R at he
  generalize hW : total (PigMutex.writing v) s.mutexes = W at he hle
  cases he with
  | shared => omega
  | exclusive =>
    refine ⟨by omega, fun j y hy hyv => ?_⟩
    by_contra hij
    by_cases hyr : y.reads
    · have hp := PigMutex.reading_pos hyr hyv
      have hl := le_total (f := PigMutex.reading v) hy
      omega
    · have hp := PigMutex.writing_pos hyr hyv
      have hl := add_le_total (f := PigMutex.writing v) (Ne.symm hij) hx hy
      omega

theorem Good.restored (h : Good locks tr s) (hz : ∀ x ∈ s.mutexes, x.state = .ZOM)
    (hv : locks v) : s.value v = some (.number .zero) := by
  obtain ⟨b, hb, he⟩ := h.encodes v hv
  have hheld : ∀ x ∈ s.mutexes, x.held = [] := fun x hx => by
    rw [PigMutex.held, hz x hx, (h.wf x hx).ended (hz x hx)]
    exact List.take_nil
  have hr : s.readersOf v = 0 := List.sum_eq_zero fun n hn => by
    obtain ⟨x, hx, rfl⟩ := List.mem_map.mp hn
    rw [PigMutex.reading, hheld x hx, List.count_nil, ite_self]
  have hw : s.writersOf v = 0 := List.sum_eq_zero fun n hn => by
    obtain ⟨x, hx, rfl⟩ := List.mem_map.mp hn
    rw [PigMutex.writing, hheld x hx, List.count_nil, ite_self]
  rw [hr, hw] at he
  rw [hb]
  cases he with
  | shared => rfl

theorem Good.ends (h : Good locks tr s) (hx : s.mutexes[i]? = some x) (hl : x.leaving)
    (hz : x.state ≠ .ZOM) : (MutexSystem.step locks s (.run i)).isSome := by
  have hw := h.wf x (List.mem_of_getElem? hx)
  have hr : (x.run s i).isSome := by
    unfold PigMutex.leaving at hl
    unfold PigMutex.run
    split at hl
    · next k hs =>
      cases k with
      | zero =>
        rw [hs]
        rfl
      | succ k =>
        have hk := List.getElem?_eq_getElem (Nat.lt_of_succ_le (hw.fin _ hs))
        simp only [hs, hk]
        rfl
    · next hs => exact absurd hs hz
    · cases hl
  obtain ⟨r, hr⟩ := Option.isSome_iff_exists.mp hr
  change (s.mutexes[i]?.bind fun x => _).isSome = true
  rw [hx]
  change ((x.run s i).bind fun r => _).isSome = true
  rw [hr]
  rfl

/-- The locks are what they are meant to be as long as no writer marks a variable with what is
taken for 0, and no pigMutex tells its state in a lock variable. -/
theorem pigMutex_law (locks : Variable → Bool)
    (hr : (machine locks).RunIf (Sensible locks) tr s) : Kept locks tr s := by
  have h := good hr
  refine ⟨fun i x v hx hread hh hv => h.exclusive hv hx hread hh,
    fun i x hx hl hz => h.ends hx hl hz, fun i x hx => ?_, fun hz v hv => h.restored hz hv⟩
  have ht := h.traced i
  rw [hx] at ht
  refine ⟨ht.1, fun hz => ?_⟩
  rw [PigMutex.held, hz, (h.wf x (List.mem_of_getElem? hx)).ended hz]
  exact List.take_nil

-- ---------------------------------------------------------------------------
-- Runs of two pigMutexes
-- ---------------------------------------------------------------------------

instance (x : PigMutex) : Decidable x.Marked := by unfold PigMutex.Marked; infer_instance

instance (x : PigMutex) (ev : MutexEvent) : Decidable (x.Sensible ev) := by
  unfold PigMutex.Sensible
  cases ev <;> infer_instance

instance (locks : Variable → Bool) (s : MutexSystem) (a : MutexAct) :
    Decidable (s.Sensible locks a) := by
  unfold Sensible
  cases a <;> infer_instance

/-- A lock variable in the environment 0, and another variable in the environment 1. -/
def pair : MutexSystem where
  value v := if v = (0, "lock") then some (.number .zero)
    else if v = (1, "shown") then some (.string "") else none
  mutexes := []

def isLock (v : Variable) : Bool := v = (0, "lock")

theorem pair_init : (machine isLock).init pair := by
  refine ⟨rfl, fun v hv => ?_⟩
  rw [of_decide_eq_true hv]
  rfl

/-- A pigMutex is made, and has its options. -/
def opening (i : Nat) (env : List Nat) (options : String) (cmds : List MutexCmd) : List MutexAct :=
  [.make env 5, .event i .other, .event i (.ret (.string "lock") []),
    .event i (.ret (.string options) []), .event i (.ret .null cmds), .run i]

/-- The body is begun and returns, and the pigMutex ends. -/
def body (i : Nat) (msg : PigData) : List MutexAct :=
  [.run i, .run i, .event i (.ret msg []), .run i, .run i]

/-- A writer waits for a reader, and ends with an error. -/
theorem pigMutex_law_waits : ∃ tr s, Kept isLock tr s ∧ (∀ x ∈ s.mutexes, x.state = .ZOM) ∧
    tr = [.locked 0 (0, "lock"), .unlocked 0 (0, "lock"), .locked 1 (0, "lock"),
      .unlocked 1 (0, "lock")] ∧ s.value (0, "lock") = some (.number .zero) := by
  obtain ⟨tr, s, hr, hz, ht⟩ := Machine.exists_run (M := machine isLock) (C := Sensible isLock)
    (P := fun tr s => (∀ x ∈ s.mutexes, x.state = .ZOM) ∧
      tr = [.locked 0 (0, "lock"), .unlocked 0 (0, "lock"), .locked 1 (0, "lock"),
        .unlocked 1 (0, "lock")])
    (opening 0 [1, 0] "r" [.mystate (some "shown") none] ++ [MutexAct.run 0] ++
      opening 1 [0] "w" [.wstate (some "busy")] ++ [MutexAct.run 1, .run 1] ++
      body 0 .null ++ [MutexAct.run 0] ++ [MutexAct.event 1 .other, .run 1] ++
      body 1 (.errorOf "failed"))
    (s := pair) pair_init (by decide +kernel)
  have hk := pigMutex_law isLock hr
  exact ⟨tr, s, hk, hz, ht, hk.restored hz (0, "lock") rfl⟩

/-- Two writers with the `wstate` "0" hold one variable at a time. And a reader that comes between
two writers leaves -1 where everybody has ended. -/
theorem pigMutex_fails :
    (∃ tr s, (machine isLock).Run tr s ∧
      (∀ x ∈ s.mutexes, x.reads = false ∧ (0, "lock") ∈ x.held) ∧ s.mutexes.length = 2) ∧
    ∃ tr s, (machine isLock).Run tr s ∧ (∀ x ∈ s.mutexes, x.state = .ZOM) ∧
      s.value (0, "lock") = some (.number (.real (-1))) := by
  constructor
  · exact Machine.exists_run
      (opening 0 [0] "w" [.wstate (some "0")] ++ [MutexAct.run 0] ++
        opening 1 [0] "w" [.wstate (some "0")] ++ [MutexAct.run 1])
      (s := pair) pair_init (by decide +kernel)
  · exact Machine.exists_run
      (opening 0 [0] "w" [.wstate (some "0")] ++ [MutexAct.run 0] ++
        opening 1 [0] "w" [.wstate (some "0")] ++ [MutexAct.run 1] ++ body 0 .null ++
        [MutexAct.run 0] ++ opening 2 [0] "r" [] ++ [MutexAct.run 2] ++ body 1 .null ++
        [MutexAct.run 1] ++ body 2 .null ++ [MutexAct.run 2])
      (s := pair) pair_init (by decide +kernel)

end MutexSystem

end TinyState.Js
