import TinyState.Lib.CallerAborts
import TinyState.Js.PigData

/-!
# The control primitives

`sq`, `if`, `for` and `state` evaluate one expression after another. An abort is passed
on to the evaluation that is running, which is to return an error then. Where the return
is in the queue already, only the primitive itself can remember the abort.
-/

namespace TinyState.Js

open Transition Caller

-- ---------------------------------------------------------------------------
-- sq
-- ---------------------------------------------------------------------------

inductive PigSq.State
  | INI_TINYSTATE_START
  | ACT_START_RET
  | ZOM
deriving DecidableEq

structure PigSq where
  i_state : PigSq.State
  ptr : Nat
  callFunc : Option Nat
deriving DecidableEq

namespace PigSq

variable (length : Nat)

/-- `n` is the evaluation of `param[ptr]`. -/
def ACT_START (n : Nat) (s : PigSq) : PigSq × List (Effect Nat PigData) :=
  ({ s with callFunc := some n, i_state := .ACT_START_RET }, [.launch s.ptr])

def FIN_START (s : PigSq) (ret : PigData) : PigSq × List (Effect Nat PigData) :=
  ({ s with callFunc := none, i_state := .ZOM }, [.send ret])

def INI_TINYSTATE_START (n : Nat) (s : PigSq) : PigSq × List (Effect Nat PigData) :=
  ACT_START n { s with ptr := 1 }

def ACT_START_RET (n : Nat) (s : PigSq) :
    Input PigData Unit → PigSq × List (Effect Nat PigData)
  | .abort => (s, s.callFunc.toList.map .forward)
  | .ret _ msg =>
    if msg.isError then s.FIN_START msg
    else if length ≤ s.ptr + 1 then s.FIN_START msg
    else ACT_START n { s with ptr := s.ptr + 1 }
  | _ => (s, [])

def handle (n : Nat) (s : PigSq) (ev : Input PigData Unit) : PigSq × List (Effect Nat PigData) :=
  match s.i_state with
  | .INI_TINYSTATE_START => s.INI_TINYSTATE_START n
  | .ACT_START_RET => s.ACT_START_RET length n ev
  | .ZOM => (s, [])

/-- `length` is that of `param`. -/
def code : Code PigSq Nat PigData Unit Empty where
  start := { i_state := .INI_TINYSTATE_START, ptr := 0, callFunc := none }
  ended s := s.i_state = .ZOM
  handle := handle length

end PigSq

-- ---------------------------------------------------------------------------
-- if
-- ---------------------------------------------------------------------------

inductive PigIf.State
  | INI_TINYSTATE_START
  | ACT_START_RET
  | ACT_START_RET_2
  | ZOM
deriving DecidableEq

structure PigIf where
  i_state : PigIf.State
  callFunc : Option Nat
deriving DecidableEq

namespace PigIf

def ACT_START (n : Nat) : PigIf × List (Effect Nat PigData) :=
  ({ callFunc := some n, i_state := .ACT_START_RET }, [.launch 1])

def finish (ret : PigData) : PigIf × List (Effect Nat PigData) :=
  ({ callFunc := none, i_state := .ZOM }, [.send ret])

def ACT_START_RET (n : Nat) (s : PigIf) :
    Input PigData Unit → PigIf × List (Effect Nat PigData)
  | .abort => (s, s.callFunc.toList.map .forward)
  | .ret _ msg =>
    if msg.isError then finish msg
    else
      ({ callFunc := some n, i_state := .ACT_START_RET_2 }, [.launch (if msg.holds then 2 else 3)])
  | _ => (s, [])

def ACT_START_RET_2 (s : PigIf) : Input PigData Unit → PigIf × List (Effect Nat PigData)
  | .abort => (s, s.callFunc.toList.map .forward)
  | .ret _ msg => finish msg
  | _ => (s, [])

def handle (n : Nat) (s : PigIf) (ev : Input PigData Unit) : PigIf × List (Effect Nat PigData) :=
  match s.i_state with
  | .INI_TINYSTATE_START => ACT_START n
  | .ACT_START_RET => s.ACT_START_RET n ev
  | .ACT_START_RET_2 => s.ACT_START_RET_2 ev
  | .ZOM => (s, [])

def code : Code PigIf Nat PigData Unit Empty where
  start := { i_state := .INI_TINYSTATE_START, callFunc := none }
  ended s := s.i_state = .ZOM
  handle := handle

end PigIf

-- ---------------------------------------------------------------------------
-- for
-- ---------------------------------------------------------------------------

inductive PigFor.State
  | INI_TINYSTATE_START
  | ACT_START_RET
  | ACT_LOOP_RET
  | ZOM
deriving DecidableEq

structure PigFor where
  i_state : PigFor.State
  i_abort : Bool
  ret : PigData
  ptr : Nat
  callFunc : Option Nat
deriving DecidableEq

namespace PigFor

variable (length : Nat)

def ACT_START (n : Nat) (s : PigFor) : PigFor × List (Effect Nat PigData) :=
  ({ s with callFunc := some n, i_state := .ACT_START_RET }, [.launch 1])

def FIN_ABORT (s : PigFor) : PigFor × List (Effect Nat PigData) :=
  ({ s with callFunc := none, i_state := .ZOM }, [.send (.errorOf "aborted")])

def FIN_START (s : PigFor) : PigFor × List (Effect Nat PigData) :=
  ({ s with callFunc := none, i_state := .ZOM }, [.send s.ret])

def ACT_LOOP (n : Nat) (s : PigFor) : PigFor × List (Effect Nat PigData) :=
  if length ≤ s.ptr then s.ACT_START n
  else ({ s with callFunc := some n, i_state := .ACT_LOOP_RET }, [.launch s.ptr])

def INI_TINYSTATE_START (n : Nat) (s : PigFor) : PigFor × List (Effect Nat PigData) :=
  ACT_START n { s with i_abort := false, ret := .null }

def ACT_START_RET (n : Nat) (s : PigFor) :
    Input PigData Unit → PigFor × List (Effect Nat PigData)
  | .abort => ({ s with i_abort := true }, s.callFunc.toList.map .forward)
  | .ret _ msg =>
    if msg.isError then FIN_START { s with ret := msg }
    else if s.i_abort then s.FIN_ABORT
    else if msg.holds then ACT_LOOP length n { s with ptr := 2 }
    else FIN_START { s with ptr := 2 }
  | _ => (s, [])

def ACT_LOOP_RET (n : Nat) (s : PigFor) :
    Input PigData Unit → PigFor × List (Effect Nat PigData)
  | .abort => ({ s with i_abort := true }, s.callFunc.toList.map .forward)
  | .ret _ (.error d sub) =>
    if d = some "control:continue" then s.ACT_START n
    else if d = some "control:break" then s.FIN_START
    else FIN_START { s with ret := .error d sub }
  | .ret _ msg =>
    if s.i_abort then s.FIN_ABORT
    else ACT_LOOP length n { s with ret := msg, ptr := s.ptr + 1 }
  | _ => (s, [])

def handle (n : Nat) (s : PigFor) (ev : Input PigData Unit) :
    PigFor × List (Effect Nat PigData) :=
  match s.i_state with
  | .INI_TINYSTATE_START => s.INI_TINYSTATE_START n
  | .ACT_START_RET => s.ACT_START_RET length n ev
  | .ACT_LOOP_RET => s.ACT_LOOP_RET length n ev
  | .ZOM => (s, [])

/-- `length` is that of `param`. -/
def code : Code PigFor Nat PigData Unit Empty where
  start :=
    { i_state := .INI_TINYSTATE_START, i_abort := false, ret := .null, ptr := 0, callFunc := none }
  ended s := s.i_state = .ZOM
  handle := handle length

end PigFor

-- ---------------------------------------------------------------------------
-- state
-- ---------------------------------------------------------------------------

inductive PigState.State
  | INI_TINYSTATE_START
  | INI_RET
  | ACT_START_RET
  | ERR_START
  | ZOM
deriving DecidableEq

structure PigState where
  i_state : PigState.State
  i_abort : Bool
  i_sm_state : String
  callFunc : Option Nat
deriving DecidableEq

namespace PigState

/-- What `state` evaluates: its first argument, or the body of a state. -/
inductive Expr
  | initial
  | body (name : String)
deriving DecidableEq

/-- `param[2]`: the names of the states that have a body, or nothing at all. -/
abbrev Table := Option (String → Bool)

/-- The state that `d` is the name of, which may begin with `*`. -/
def stateName (d : String) : String := (after "*" d).getD d

/-- The state that `control:goto:` followed by `state` leads to. -/
def goal (s : PigState) (state : String) : String := if state = "" then s.i_sm_state else state

variable (i_machine : Table)

def finish (s : PigState) (ret : PigData) : PigState × List (Effect Expr PigData) :=
  ({ s with callFunc := none, i_state := .ZOM }, [.send ret])

def INI_TINYSTATE_START (n : Nat) (s : PigState) : PigState × List (Effect Expr PigData) :=
  ({ s with callFunc := some n, i_sm_state := "", i_state := .INI_RET }, [.launch .initial])

/-- `i_machine[i_sm_state]` throws when there is no table. -/
def ACT_START (n : Nat) (s : PigState) : PigState × List (Effect Expr PigData) :=
  match i_machine with
  | none => ({ s with i_state := .ERR_START }, [])
  | some defined =>
    if defined s.i_sm_state then
      ({ s with callFunc := some n, i_state := .ACT_START_RET }, [.launch (.body s.i_sm_state)])
    else s.finish (.errorOf ("pigState: " ++ s.i_sm_state ++ " is not defined!!"))

def INI_RET (n : Nat) (s : PigState) :
    Input PigData Unit → PigState × List (Effect Expr PigData)
  | .ret _ (.error d sub) => s.finish (.error d sub)
  | .ret _ (.string d) => ACT_START i_machine n { s with i_sm_state := stateName d }
  | .ret _ _ => s.finish (.errorOf "pigState: type mismatch arg 1 (string is required)")
  | _ => (s, [])

/-- `indexOf` throws when the datum of the error is no string. -/
def ACT_START_RET (n : Nat) (s : PigState) :
    Input PigData Unit → PigState × List (Effect Expr PigData)
  | .ret _ (.error none _) => ({ s with i_state := .ERR_START }, [])
  | .ret _ (.error (some d) sub) =>
    match after "control:goto:" d with
    | none => s.finish (.error (some d) sub)
    | some state =>
      if state = "sink" then s.finish sub
      else ACT_START i_machine n { s with i_sm_state := s.goal state }
  | .ret _ msg => s.finish msg
  | _ => (s, [])

/-- The filter that `enableCatchAbort` sets. -/
def i_catchAbort (s : PigState) : Input PigData Unit → PigState × List (Effect Expr PigData)
  | .abort => ({ s with i_abort := true }, s.callFunc.toList.map .forward)
  | _ => (s, [])

def dispatch (n : Nat) (s : PigState) (ev : Input PigData Unit) :
    PigState × List (Effect Expr PigData) :=
  match s.i_state with
  | .INI_TINYSTATE_START => s.INI_TINYSTATE_START n
  | .INI_RET => s.INI_RET i_machine n ev
  | .ACT_START_RET => s.ACT_START_RET i_machine n ev
  | .ERR_START => (s, [])
  | .ZOM => (s, [])

def handle (n : Nat) (s : PigState) (ev : Input PigData Unit) :
    PigState × List (Effect Expr PigData) :=
  ((dispatch i_machine n (s.i_catchAbort ev).1 ev).1,
    (s.i_catchAbort ev).2 ++ (dispatch i_machine n (s.i_catchAbort ev).1 ev).2)

def code : Code PigState Expr PigData Unit Empty where
  start := { i_state := .INI_TINYSTATE_START, i_abort := false, i_sm_state := "", callFunc := none }
  ended s := s.i_state = .ZOM
  handle := handle i_machine

end PigState

-- ---------------------------------------------------------------------------
-- Returns after an abort
-- ---------------------------------------------------------------------------

/-- A condition on each return that is taken, given whether an abort has been. -/
def WhenTaken {σ : Type} (P : Bool → σ → PigData → Prop) (s : Sys σ PigData Unit) :
    Act PigData Unit Empty → Prop
  | .take =>
    match s.queue with
    | .ret _ msg :: _ => P s.aborted s.obj msg
    | _ => True
  | _ => True

instance {σ : Type} (P : Bool → σ → PigData → Prop) [∀ b s msg, Decidable (P b s msg)]
    (s : Sys σ PigData Unit) (a : Act PigData Unit Empty) : Decidable (WhenTaken P s a) := by
  unfold WhenTaken
  split
  · split <;> infer_instance
  · infer_instance

theorem WhenTaken.ret {σ : Type} {P : Bool → σ → PigData → Prop} {s : Sys σ PigData Unit}
    {k : Nat} {msg : PigData} {q : List (Input PigData Unit)} (h : WhenTaken P s .take)
    (hq : s.queue = .ret k msg :: q) : P s.aborted s.obj msg := by
  unfold WhenTaken at h
  rw [hq] at h
  exact h

namespace PigSq

variable {length n : Nat} {s : PigSq} {msg : PigData}

def waits (s : PigSq) : List Nat :=
  match s.i_state with
  | .ACT_START_RET => [s.callFunc.getD 0]
  | _ => []

/-- After an abort the evaluation returns an error, or it was the last one. -/
def Ends (length : Nat) (aborted : Bool) (s : PigSq) (msg : PigData) : Prop :=
  aborted = true → msg.isError = true ∨ length ≤ s.ptr + 1

instance (length : Nat) (aborted : Bool) (s : PigSq) (msg : PigData) :
    Decidable (s.Ends length aborted msg) :=
  inferInstanceAs (Decidable (_ → _))

theorem ACT_START_turn : Turn (code length) waits n (s.ACT_START n) := .calls rfl rfl rfl rfl

theorem FIN_START_turn : Turn (code length) waits n (s.FIN_START msg) := .ends rfl rfl rfl rfl

theorem serial : Serial (code length) (WhenTaken (Ends length)) (fun _ _ => True) waits where
  start := ⟨rfl, rfl⟩
  atOnce _ _ := rfl
  unpoked _ _ p := p.elim
  ended s ho := by
    have hz : s.i_state = .ZOM := of_decide_eq_true ho
    rw [waits, hz]
  first := ⟨trivial, ACT_START_turn⟩
  ret := by
    intro s k m q hw _ hq ha
    have hends := ha.ret hq
    have hact : s.obj.i_state = .ACT_START_RET := by
      unfold waits at hw
      split at hw
      · assumption
      · cases hw
    have he : (code length).handle s.started s.obj (.ret k m) =
        s.obj.ACT_START_RET length s.started (.ret k m) := by
      simp only [code, handle, hact]
    rw [he]
    simp only [ACT_START_RET]
    split
    · exact ⟨trivial, FIN_START_turn, fun _ => rfl⟩
    · next herr =>
      split
      · exact ⟨trivial, FIN_START_turn, fun _ => rfl⟩
      · next hlen =>
        exact ⟨trivial, ACT_START_turn, fun hab => absurd (hends hab) (not_or.mpr ⟨herr, hlen⟩)⟩
  other := by
    intro _ n s i hw _ hr
    have hact : s.i_state = .ACT_START_RET := by
      unfold waits at hw
      split at hw
      · assumption
      · exact absurd rfl hw
    have he : (code length).handle n s i = s.ACT_START_RET length n i := by
      simp only [code, handle, hact]
    have hover : (code length).ended s = false := by simp [code, hact]
    rw [he]
    cases i with
    | ret k m => cases hr
    | abort => exact ⟨trivial, rfl, hover, launches_forward, sends_forward⟩
    | initial => exact ⟨trivial, rfl, hover, rfl, rfl⟩
    | note n => exact ⟨trivial, rfl, hover, rfl, rfl⟩

end PigSq

namespace PigIf

variable {n : Nat} {s : PigIf} {msg : PigData}

def waits (s : PigIf) : List Nat :=
  match s.i_state with
  | .ACT_START_RET | .ACT_START_RET_2 => [s.callFunc.getD 0]
  | _ => []

/-- After an abort the condition returns an error; a branch may return what it likes. -/
def Ends (aborted : Bool) (s : PigIf) (msg : PigData) : Prop :=
  aborted = true → msg.isError = true ∨ s.i_state = .ACT_START_RET_2

instance (aborted : Bool) (s : PigIf) (msg : PigData) : Decidable (s.Ends aborted msg) :=
  inferInstanceAs (Decidable (_ → _))

theorem finish_turn : Turn code waits n (finish msg) := .ends rfl rfl rfl rfl

theorem waiting (hw : s.waits ≠ []) : s.i_state = .ACT_START_RET ∨ s.i_state = .ACT_START_RET_2 := by
  unfold waits at hw
  split at hw
  · exact .inl ‹_›
  · exact .inr ‹_›
  · exact absurd rfl hw

theorem serial : Serial code (WhenTaken Ends) (fun _ _ => True) waits where
  start := ⟨rfl, rfl⟩
  atOnce _ _ := rfl
  unpoked _ _ p := p.elim
  ended s ho := by
    have hz : s.i_state = .ZOM := of_decide_eq_true ho
    rw [waits, hz]
  first := ⟨trivial, .calls rfl rfl rfl rfl⟩
  ret := by
    intro s k m q hw _ hq ha
    have hends := ha.ret hq
    rcases waiting (by rw [hw]; nofun) with hact | hact
    · have he : code.handle s.started s.obj (.ret k m) =
          s.obj.ACT_START_RET s.started (.ret k m) := by
        simp only [code, handle, hact]
      rw [he]
      simp only [ACT_START_RET]
      split
      · exact ⟨trivial, finish_turn, fun _ => rfl⟩
      · next herr =>
        refine ⟨trivial, .calls rfl rfl rfl rfl, fun hab => ?_⟩
        rcases hends hab with hm | hact2
        · exact absurd hm herr
        · rw [hact] at hact2
          cases hact2
    · have he : code.handle s.started s.obj (.ret k m) = finish m := by
        simp only [code, handle, hact, ACT_START_RET_2]
      rw [he]
      exact ⟨trivial, finish_turn, fun _ => rfl⟩
  other := by
    intro _ n s i hw _ hr
    have hover : code.ended s = false := by
      rcases waiting hw with hact | hact <;> simp [code, hact]
    have he : code.handle n s i = s.ACT_START_RET_2 i := by
      rcases waiting hw with hact | hact
      · cases i with
        | ret k m => cases hr
        | _ => simp only [code, handle, hact, ACT_START_RET, ACT_START_RET_2]
      · simp only [code, handle, hact]
    rw [he]
    cases i with
    | ret k m => cases hr
    | abort => exact ⟨trivial, rfl, hover, launches_forward, sends_forward⟩
    | initial => exact ⟨trivial, rfl, hover, rfl, rfl⟩
    | note n => exact ⟨trivial, rfl, hover, rfl, rfl⟩

end PigIf

namespace PigFor

variable {length n : Nat} {s : PigFor} {msg : PigData}

def waits (s : PigFor) : List Nat :=
  match s.i_state with
  | .ACT_START_RET | .ACT_LOOP_RET => [s.callFunc.getD 0]
  | _ => []

/-- After an abort no statement of the body returns `continue`. -/
def Ends (aborted : Bool) (s : PigFor) (msg : PigData) : Prop :=
  aborted = true → s.i_state = .ACT_LOOP_RET → msg.errorText ≠ some "control:continue"

instance (aborted : Bool) (s : PigFor) (msg : PigData) : Decidable (s.Ends aborted msg) :=
  inferInstanceAs (Decidable (_ → _))

theorem ACT_START_turn : Turn (code length) waits n (s.ACT_START n) := .calls rfl rfl rfl rfl

theorem FIN_START_turn : Turn (code length) waits n s.FIN_START := .ends rfl rfl rfl rfl

theorem FIN_ABORT_turn : Turn (code length) waits n s.FIN_ABORT := .ends rfl rfl rfl rfl

theorem ACT_LOOP_turn : Turn (code length) waits n (s.ACT_LOOP length n) := by
  unfold ACT_LOOP
  split
  · exact ACT_START_turn
  · exact .calls rfl rfl rfl rfl

theorem waiting (hw : s.waits ≠ []) : s.i_state = .ACT_START_RET ∨ s.i_state = .ACT_LOOP_RET := by
  unfold waits at hw
  split at hw
  · exact .inl ‹_›
  · exact .inr ‹_›
  · exact absurd rfl hw

/-- What the object makes of a return, having remembered an abort. -/
def Heeded (length n : Nat) (ab : Bool) (r : PigFor × List (Effect Nat PigData)) : Prop :=
  (ab = true → r.1.i_abort = true) ∧ Turn (code length) waits n r ∧
    (ab = true → launches r.2 = 0)

theorem ACT_LOOP_heeded {ab : Bool} {s' : PigFor} (hrem : ab = true → s.i_abort = true)
    (hnot : ¬ s.i_abort = true) : Heeded length n ab (ACT_LOOP length n s') :=
  ⟨fun hab => absurd (hrem hab) hnot, ACT_LOOP_turn, fun hab => absurd (hrem hab) hnot⟩

theorem value_heeded {ab : Bool} {s' : PigFor} (hrem : ab = true → s.i_abort = true) :
    Heeded length n ab (if s.i_abort then s.FIN_ABORT else ACT_LOOP length n s') := by
  split
  · exact ⟨hrem, FIN_ABORT_turn, fun _ => rfl⟩
  · next hnot => exact ACT_LOOP_heeded hrem hnot

theorem serial :
    Serial (code length) (WhenTaken Ends) (fun ab s => ab = true → s.i_abort = true) waits where
  start := ⟨rfl, rfl⟩
  atOnce _ _ := rfl
  unpoked _ _ p := p.elim
  ended s ho := by
    have hz : s.i_state = .ZOM := of_decide_eq_true ho
    rw [waits, hz]
  first := ⟨nofun, ACT_START_turn⟩
  ret := by
    intro s k m q hw hrem hq ha
    have hends := ha.ret hq
    rcases waiting (by rw [hw]; nofun) with hact | hact
    · have he : (code length).handle s.started s.obj (.ret k m) =
          s.obj.ACT_START_RET length s.started (.ret k m) := by
        simp only [code, handle, hact]
      rw [he]
      simp only [ACT_START_RET]
      split
      · exact ⟨hrem, FIN_START_turn, fun _ => rfl⟩
      · split
        · exact ⟨hrem, FIN_ABORT_turn, fun _ => rfl⟩
        · next hnot =>
          split
          · exact ACT_LOOP_heeded hrem hnot
          · exact ⟨hrem, FIN_START_turn, fun _ => rfl⟩
    · have he : (code length).handle s.started s.obj (.ret k m) =
          s.obj.ACT_LOOP_RET length s.started (.ret k m) := by
        simp only [code, handle, hact]
      rw [he]
      cases m with
      | error d sub =>
        simp only [ACT_LOOP_RET]
        split
        · next hd =>
          subst hd
          exact ⟨hrem, ACT_START_turn, fun hab => absurd rfl (hends hab hact)⟩
        · split
          · exact ⟨hrem, FIN_START_turn, fun _ => rfl⟩
          · exact ⟨hrem, FIN_START_turn, fun _ => rfl⟩
      | pn => exact value_heeded hrem
      | string d => exact value_heeded hrem
      | value b => exact value_heeded hrem
  other := by
    intro ab n s i hw hrem hr
    have hover : ∀ b, (code length).ended { s with i_abort := b } = false := by
      intro b
      rcases waiting hw with hact | hact <;> simp [code, hact]
    have he : (code length).handle n s i =
        if i.isAbort then ({ s with i_abort := true }, s.callFunc.toList.map .forward)
        else (s, []) := by
      rcases waiting hw with hact | hact
      · cases i with
        | ret k m => cases hr
        | _ => simp only [code, handle, hact, ACT_START_RET]; rfl
      · cases i with
        | ret k m => cases hr
        | _ => simp only [code, handle, hact, ACT_LOOP_RET]; rfl
    rw [he]
    split
    · exact ⟨fun _ => rfl, rfl, hover true, launches_forward, sends_forward⟩
    · next hno =>
      rw [Bool.eq_false_iff.mpr hno, Bool.or_false]
      exact ⟨hrem, rfl, hover s.i_abort, rfl, rfl⟩

end PigFor

namespace PigState

variable {i_machine : Table} {n : Nat} {s : PigState} {msg : PigData}

def waits (s : PigState) : List Nat :=
  match s.i_state with
  | .INI_RET | .ACT_START_RET => [s.callFunc.getD 0]
  | _ => []

/-- An error that a body returns has a text, and there is a table where a string is returned
first. After an abort neither a string nor a `goto` names a state that has a body. -/
def Ends (i_machine : Table) (aborted : Bool) (s : PigState) (msg : PigData) : Prop :=
  match s.i_state, msg with
  | .INI_RET, .string d =>
    ∃ defined ∈ i_machine, aborted = true → defined (stateName d) = false
  | .ACT_START_RET, .error none _ => False
  | .ACT_START_RET, .error (some d) _ =>
    aborted = true → ∀ state ∈ after "control:goto:" d,
      state = "sink" ∨ ∀ defined ∈ i_machine, defined (s.goal state) = false
  | _, _ => True

instance (i_machine : Table) (aborted : Bool) (s : PigState) (msg : PigData) :
    Decidable (s.Ends i_machine aborted msg) := by
  unfold Ends
  split <;> infer_instance

theorem finish_turn : Turn (code i_machine) waits n (s.finish msg) := .ends rfl rfl rfl rfl

/-- What the object makes of a return. -/
def Heeded (i_machine : Table) (n : Nat) (ab : Bool) (r : PigState × List (Effect Expr PigData)) :
    Prop :=
  (r.1.i_state = .ACT_START_RET → i_machine.isSome = true) ∧ Turn (code i_machine) waits n r ∧
    (ab = true → launches r.2 = 0)

theorem finish_heeded {ab : Bool} : Heeded i_machine n ab (s.finish msg) :=
  ⟨nofun, finish_turn, fun _ => rfl⟩

theorem ACT_START_heeded {ab : Bool} {defined : String → Bool}
    (h : ab = true → defined s.i_sm_state = false) :
    Heeded (some defined) n ab (s.ACT_START (some defined) n) := by
  simp only [ACT_START]
  split
  · next hd => exact ⟨fun _ => rfl, .calls rfl rfl rfl rfl, fun hab => by rw [h hab] at hd; cases hd⟩
  · exact finish_heeded

theorem waiting (hw : s.waits ≠ []) : s.i_state = .INI_RET ∨ s.i_state = .ACT_START_RET := by
  unfold waits at hw
  split at hw
  · exact .inl ‹_›
  · exact .inr ‹_›
  · exact absurd rfl hw

theorem INI_RET_heeded {ab : Bool} {k : Nat} (hact : s.i_state = .INI_RET)
    (h : s.Ends i_machine ab msg) : Heeded i_machine n ab (s.INI_RET i_machine n (.ret k msg)) := by
  cases msg with
  | string d =>
    simp only [Ends, hact] at h
    obtain ⟨defined, rfl, hnone⟩ := h
    exact ACT_START_heeded hnone
  | error d sub => exact finish_heeded
  | pn => exact finish_heeded
  | value b => exact finish_heeded

theorem ACT_START_RET_heeded {ab : Bool} {k : Nat} (hact : s.i_state = .ACT_START_RET)
    (htable : i_machine.isSome = true) (h : s.Ends i_machine ab msg) :
    Heeded i_machine n ab (s.ACT_START_RET i_machine n (.ret k msg)) := by
  obtain ⟨defined, rfl⟩ := Option.isSome_iff_exists.mp htable
  cases msg with
  | error d sub =>
    cases d with
    | none =>
      simp only [Ends, hact] at h
    | some d =>
      simp only [Ends, hact] at h
      simp only [ACT_START_RET]
      split
      · exact finish_heeded
      · next state hstate =>
        split
        · exact finish_heeded
        · next hsink =>
          refine ACT_START_heeded fun hab => ?_
          exact (h hab state hstate).resolve_left hsink defined rfl
  | string d => exact finish_heeded
  | pn => exact finish_heeded
  | value b => exact finish_heeded

theorem serial : Serial (code i_machine) (WhenTaken (Ends i_machine))
    (fun _ s => s.i_state = .ACT_START_RET → i_machine.isSome = true) waits where
  start := ⟨rfl, rfl⟩
  atOnce _ _ := rfl
  unpoked _ _ p := p.elim
  ended s ho := by
    have hz : s.i_state = .ZOM := of_decide_eq_true ho
    rw [waits, hz]
  first := ⟨nofun, .calls rfl rfl rfl rfl⟩
  ret := by
    intro s k m q hw htable hq ha
    have hends := ha.ret hq
    have he : (code i_machine).handle s.started s.obj (.ret k m) =
        s.obj.dispatch i_machine s.started (.ret k m) := rfl
    rw [he]
    rcases waiting (by rw [hw]; nofun) with hact | hact
    · simp only [dispatch, hact]
      exact INI_RET_heeded hact hends
    · simp only [dispatch, hact]
      exact ACT_START_RET_heeded hact (htable hact) hends
  other := by
    intro ab n s i hw htable hr
    have hover : ∀ b, (code i_machine).ended { s with i_abort := b } = false := by
      intro b
      rcases waiting hw with hact | hact <;> simp [code, hact]
    have he : (code i_machine).handle n s i =
        if i.isAbort then ({ s with i_abort := true }, s.callFunc.toList.map .forward)
        else (s, []) := by
      rcases waiting hw with hact | hact
      · cases i with
        | ret k m => cases hr
        | _ => simp [code, handle, i_catchAbort, dispatch, hact, INI_RET, Input.isAbort]
      · cases i with
        | ret k m => cases hr
        | _ => simp [code, handle, i_catchAbort, dispatch, hact, ACT_START_RET, Input.isAbort]
    rw [he]
    split
    · exact ⟨htable, rfl, hover true, launches_forward, sends_forward⟩
    · exact ⟨htable, rfl, hover s.i_abort, rfl, rfl⟩

end PigState

/-- In each of the four primitives nothing is evaluated after an abort, and one result is
sent, as long as no evaluation answers the abort with a result that the primitive goes on after. -/
theorem control_law (length : Nat) (i_machine : PigState.Table) :
    KeepsAborts (PigSq.code length) (WhenTaken (PigSq.Ends length)) ∧
    KeepsAborts PigIf.code (WhenTaken PigIf.Ends) ∧
    KeepsAborts (PigFor.code length) (WhenTaken PigFor.Ends) ∧
    KeepsAborts (PigState.code i_machine) (WhenTaken (PigState.Ends i_machine)) :=
  ⟨PigSq.serial.keepsAborts, PigIf.serial.keepsAborts, PigFor.serial.keepsAborts,
    PigState.serial.keepsAborts⟩

/-- A statement of a sequence is aborted, and says so. -/
def PigSq.abortedOnce : (PigSq.code 3).machine.Behavior where
  state
    | 0 => (PigSq.code 3).initial
    | 1 => ⟨⟨.ACT_START_RET, 1, some 0⟩, [], [0], 1, false⟩
    | 2 => ⟨⟨.ACT_START_RET, 1, some 0⟩, [.abort], [0], 1, false⟩
    | 3 => ⟨⟨.ACT_START_RET, 1, some 0⟩, [], [0], 1, true⟩
    | 4 => ⟨⟨.ACT_START_RET, 1, some 0⟩, [.ret 0 (.errorOf "aborted")], [], 1, true⟩
    | _ + 5 => ⟨⟨.ZOM, 1, none⟩, [], [], 1, true⟩
  act
    | 0 | 2 | 4 => .take
    | 3 => .ret 0 (.errorOf "aborted")
    | _ => .abort
  obs
    | 0 => [.took .initial, .launched 0 1]
    | 2 => [.took .abort, .forwarded 0]
    | 3 => [.returned 0 (.errorOf "aborted")]
    | 4 => [.took (.ret 0 (.errorOf "aborted")), .sent (.errorOf "aborted")]
    | _ => []
  start := rfl
  next
    | 0 | 1 | 2 | 3 | 4 => by decide
    | _ + 5 => rfl

theorem PigSq.abortedOnce_fair : Fair PigSq.abortedOnce where
  returns n k hk := by
    match n with
    | 0 | 4 | _ + 5 => cases hk
    | 1 | 2 | 3 =>
      obtain rfl := List.mem_singleton.mp hk
      exact ⟨3, by decide, _, rfl⟩
  takes n hq := by
    match n with
    | 0 => exact ⟨0, by decide, rfl⟩
    | 1 | 2 => exact ⟨2, by decide, rfl⟩
    | 3 | 4 => exact ⟨4, by decide, rfl⟩
    | _ + 5 => exact absurd rfl hq

/-- A sequence is aborted in a fair run; a condition, a body and a state return errors
that were in the queue behind the abort. -/
theorem control_law_aborted :
    (∃ j m, .sent m ∈ PigSq.abortedOnce.obs j) ∧
    (∃ tr s, PigIf.code.machine.RunIf (WhenTaken PigIf.Ends) tr s ∧ .took .abort ∈ tr ∧
      AbortLaw tr s) ∧
    (∃ tr s, (PigFor.code 3).machine.RunIf (WhenTaken PigFor.Ends) tr s ∧ .took .abort ∈ tr ∧
      AbortLaw tr s) ∧
    ∃ tr s, (PigState.code (some fun _ => true)).machine.RunIf
      (WhenTaken (PigState.Ends (some fun _ => true))) tr s ∧ .took .abort ∈ tr ∧ AbortLaw tr s := by
  refine ⟨?_, ?_, ?_, ?_⟩
  · refine (control_law 3 none).1.2 PigSq.abortedOnce PigSq.abortedOnce_fair (fun n => ?_) 2
      List.mem_cons_self
    match n with
    | 0 | 1 | 2 | 3 | 4 => decide
    | _ + 5 => trivial
  · obtain ⟨tr, s, h, ha⟩ := Machine.exists_run (M := PigIf.code.machine) (C := WhenTaken PigIf.Ends)
      (P := fun tr _ => .took .abort ∈ tr)
      [.take, .abort, .ret 0 (.errorOf "EOF"), .take, .take] rfl (by decide)
    exact ⟨tr, s, h, ha, (control_law 3 none).2.1.1 tr s h⟩
  · obtain ⟨tr, s, h, ha⟩ := Machine.exists_run (M := (PigFor.code 3).machine)
      (C := WhenTaken PigFor.Ends) (P := fun tr _ => .took .abort ∈ tr)
      [.take, .ret 0 (.value true), .take, .abort, .ret 1 (.value true), .take, .take] rfl
      (by decide)
    exact ⟨tr, s, h, ha, (control_law 3 none).2.2.1.1 tr s h⟩
  · obtain ⟨tr, s, h, ha⟩ := Machine.exists_run
      (M := (PigState.code (some fun _ => true)).machine)
      (C := WhenTaken (PigState.Ends (some fun _ => true))) (P := fun tr _ => .took .abort ∈ tr)
      [.take, .ret 0 (.string "*start"), .take, .abort,
        .ret 1 (.error (some "control:goto:sink") (.value true)), .take, .take] rfl
      (by decide +kernel)
    exact ⟨tr, s, h, ha, (control_law 3 (some fun _ => true)).2.2.2.1 tr s h⟩

/-- Each time the return is in the queue when the abort comes to the evaluation. -/
theorem control_forgets :
    (∃ tr s, (PigSq.code 3).machine.Run tr s ∧
      tr = [.took .initial, .launched 0 1, .returned 0 (.value true), .took .abort, .forwarded 0,
        .took (.ret 0 (.value true)), .launched 1 2]) ∧
    (∃ tr s, PigIf.code.machine.Run tr s ∧
      tr = [.took .initial, .launched 0 1, .returned 0 (.value true), .took .abort, .forwarded 0,
        .took (.ret 0 (.value true)), .launched 1 2]) ∧
    (∃ tr s, (PigFor.code 3).machine.Run tr s ∧
      tr = [.took .initial, .launched 0 1, .returned 0 (.value true), .took (.ret 0 (.value true)),
        .launched 1 2, .returned 1 (.errorOf "control:continue"), .took .abort, .forwarded 1,
        .took (.ret 1 (.errorOf "control:continue")), .launched 2 1]) ∧
    ∃ tr s, (PigState.code (some fun _ => true)).machine.Run tr s ∧
      tr = [.took .initial, .launched 0 .initial, .returned 0 (.string "s"), .took .abort,
        .forwarded 0, .took (.ret 0 (.string "s")), .launched 1 (.body "s")] := by
  refine ⟨?_, ?_, ?_, ?_⟩
  · exact Machine.exists_run [.take, .abort, .ret 0 (.value true), .take, .take] rfl (by decide)
  · exact Machine.exists_run [.take, .abort, .ret 0 (.value true), .take, .take] rfl (by decide)
  · exact Machine.exists_run [.take, .ret 0 (.value true), .take, .abort,
      .ret 1 (.errorOf "control:continue"), .take, .take] rfl (by decide)
  · exact Machine.exists_run [.take, .abort, .ret 0 (.string "s"), .take, .take] rfl
      (by decide +kernel)

end TinyState.Js
