import TinyState.Js.Arithmetic
import TinyState.Lib.Machine
import TinyState.Lib.Temporal

/-!
# Fades

`pigFade` binds a variable again and again until it has a target value: each time its
`pigFadeInvoker`, which waits for a timer, tells it so. The number of times is computed at the
start, and the end is where a counter is equal to it. That number may be 0, or one that the
counter does not come to. Fades of integers do not start at all: no state is called
`INI_INTEGER`, the handler's name is another.
-/

namespace TinyState.Js

open Transition JsNumber

-- ---------------------------------------------------------------------------
-- The arguments
-- ---------------------------------------------------------------------------

/-- A value among the arguments, or that of the variable. -/
inductive FadeDatum
  | number (x : JsNumber)
  | string (s : String)
  | error
  | other
  deriving DecidableEq, Repr

/-- `["fade",variable,[options],duration,targetData]`, with what the variable refers to. -/
structure FadeArgs where
  options : List (String × FadeDatum)
  i_value : FadeDatum
  duration : FadeDatum
  targetData : FadeDatum
  deriving DecidableEq, Repr

inductive FadeType
  | floating
  | integer
  deriving DecidableEq, Repr

inductive FadeError
  | invalidType (value : FadeDatum)
  | cycleMismatch (value : FadeDatum)
  | undefined
  | variableMismatch
  | durationMismatch
  | targetMismatch
  | aborted
  deriving DecidableEq, Repr

/-- What `INI_ARGS_3` keeps. -/
structure FadeSetting where
  i_type : FadeType
  i_cycle : JsNumber
  i_valueStart : JsNumber
  i_duration : JsNumber
  i_targetData : JsNumber
  deriving DecidableEq, Repr

/-- The loop over the options. -/
def fadeOptions (i_type : FadeType) (i_cycle : JsNumber) :
    List (String × FadeDatum) → Except FadeError (FadeType × JsNumber)
  | [] => .ok (i_type, i_cycle)
  | (sym, value) :: options =>
    if sym = "type" then
      if value = .string "floating" then fadeOptions .floating i_cycle options
      else if value = .string "integer" then fadeOptions .integer i_cycle options
      else .error (.invalidType value)
    else if sym = "cycle" then
      match value with
      | .number x => fadeOptions i_type x options
      | _ => .error (.cycleMismatch value)
    else fadeOptions i_type i_cycle options

/-- The checks of `INI_ARGS_3`. -/
def FadeArgs.check (a : FadeArgs) : Except FadeError FadeSetting := do
  let (i_type, i_cycle) ← fadeOptions .floating (real 20000) a.options
  let i_valueStart ← match a.i_value with
    | .error => .error .undefined
    | .string s => .ok (minus (ofString s) zero)
    | .number x => .ok x
    | .other => .error .variableMismatch
  let .number i_duration := a.duration | .error .durationMismatch
  let .number i_targetData := a.targetData | .error .targetMismatch
  .ok ⟨i_type, i_cycle, i_valueStart, i_duration, i_targetData⟩

-- ---------------------------------------------------------------------------
-- The states
-- ---------------------------------------------------------------------------

inductive FadeState
  | INI_ARGS_2
  | INI_ARGS_3
  | ACT_FLOATING
  | ACT_WAIT_DURATION_RET
  | ZOM
  | ERR_START
  deriving DecidableEq, Repr

/-- `pigFadeInvoker`: waiting for its timer, or for none, in the middle of `i_invoke`, or
gone. -/
inductive FadeInvoker
  | ACT_START_RET
  | untimed
  | invoking
  | ZOM
  deriving DecidableEq, Repr

/-- A fade with its invoker and its timer. `binding` says that it is in the middle of `bind`,
and `queued` that an abort has come meanwhile. -/
structure PigFade where
  state : FadeState
  i_abort : Bool
  i_counter : JsNumber
  i_countTotal : JsNumber
  i_pitch : JsNumber
  binding : Bool
  queued : Bool
  timer : Bool
  invoker : FadeInvoker
  deriving DecidableEq, Repr

inductive FadeResult
  | error (e : FadeError)
  /-- The value that the variable had. -/
  | kept (value : FadeDatum)
  | value (x : JsNumber)
  deriving DecidableEq, Repr

inductive FadeObs
  | abort
  | bind (x : JsNumber)
  | returned (r : FadeResult)
  deriving DecidableEq, Repr

inductive FadeAct
  /-- The evaluation of arguments returns. -/
  | ret
  | abort
  /-- Any other event. -/
  | other
  | durationTimer
  | invokerTimer
  /-- `bind` returns. -/
  | bound
  deriving DecidableEq, Repr

namespace PigFade

def start : PigFade where
  state := .INI_ARGS_2
  i_abort := false
  i_counter := zero
  i_countTotal := zero
  i_pitch := zero
  binding := false
  queued := false
  timer := false
  invoker := .ZOM

/-- The result is sent, and the fade ends. -/
def finish (s : PigFade) (r : FadeResult) : PigFade × List FadeObs :=
  ({ s with state := .ZOM }, [.returned r])

/-- `i_sendResult("aborted","error")` -/
def aborted (s : PigFade) : PigFade × List FadeObs :=
  finish { s with i_abort := true } (.error .aborted)

/-- `ACT_START` of the invoker; `stdInterval.wait` asks for no timer where the interval is
negative. -/
def invokerWait (i_cycle : JsNumber) : FadeInvoker :=
  if i_cycle.isNegative then .untimed else .ACT_START_RET

/-- `INI_FLOATING` -/
def iniFloating (f : FadeSetting) (s : PigFade) : PigFade :=
  let div := minus f.i_targetData f.i_valueStart
  if equal div zero then
    { s with state := .ACT_WAIT_DURATION_RET, timer := !f.i_duration.isNegative }
  else
    let i_countTotal := ceil (dividedBy f.i_duration f.i_cycle)
    { s with
      state := .ACT_FLOATING
      i_countTotal := i_countTotal
      i_pitch := dividedBy div i_countTotal
      i_counter := zero
      invoker := invokerWait f.i_cycle }

/-- The end of `INI_ARGS_3`. The name `INI_INTEGER` stands for no handler, and the call of what
is not a function is an error. -/
def ini (f : FadeSetting) (s : PigFade) : PigFade :=
  match f.i_type with
  | .floating => iniFloating f s
  | .integer => { s with state := .ERR_START }

/-- The value that `ACT_FLOATING` binds. -/
def nextValue (f : FadeSetting) (s : PigFade) : JsNumber :=
  if equal s.i_counter s.i_countTotal then f.i_targetData
  else plus (times s.i_pitch s.i_counter) f.i_valueStart

/-- `ACT_FLOATING` up to the call of `bind`. -/
def updated (f : FadeSetting) (s : PigFade) : PigFade × List FadeObs :=
  let s := { s with i_counter := plus s.i_counter one, invoker := .invoking, binding := true }
  (s, [.bind (nextValue f s)])

/-- The rest of `ACT_FLOATING`, and the events that have come meanwhile; after them `i_invoke`
returns to the invoker, which waits again. -/
def bound (f : FadeSetting) (s : PigFade) : PigFade × List FadeObs :=
  let s := { s with binding := false, invoker := invokerWait f.i_cycle }
  if equal s.i_counter s.i_countTotal then finish s (.value f.i_targetData)
  else if s.queued then aborted s
  else (s, [])

/-- An abort is sent to the fade. -/
def abort (s : PigFade) : PigFade × List FadeObs :=
  match s.state with
  | .ZOM => (s, [])
  | .INI_ARGS_2 | .INI_ARGS_3 | .ERR_START => ({ s with i_abort := true }, [.abort])
  | .ACT_FLOATING =>
    if s.binding then ({ s with queued := true }, [.abort])
    else ((aborted s).1, .abort :: (aborted s).2)
  | .ACT_WAIT_DURATION_RET => ((aborted s).1, .abort :: (aborted s).2)

/-- `INI_ARGS_2` and `INI_ARGS_3` -/
def returned (a : FadeArgs) (s : PigFade) : Option (PigFade × List FadeObs) :=
  match s.state with
  | .INI_ARGS_2 => if s.i_abort then aborted s else some ({ s with state := .INI_ARGS_3 }, [])
  | .INI_ARGS_3 =>
    if s.i_abort then aborted s
    else
      match a.check with
      | .error e => finish s (.error e)
      | .ok f => some (ini f s, [])
  | _ => none

def step (a : FadeArgs) (s : PigFade) : FadeAct → Option (PigFade × List FadeObs)
  | .ret => returned a s
  | .abort => abort s
  | .other => some (s, [])
  | .durationTimer =>
    if s.timer then
      if s.state = .ACT_WAIT_DURATION_RET then
        finish { s with timer := false } (.kept a.i_value)
      else some ({ s with timer := false }, [])
    else none
  | .invokerTimer =>
    if s.invoker = .ACT_START_RET then
      if s.state = .ACT_FLOATING then a.check.toOption.map fun f => updated f s
      -- nobody listens any more, and `i_invoke` returns 0
      else some ({ s with invoker := .ZOM }, [])
    else none
  | .bound => if s.binding then a.check.toOption.map fun f => bound f s else none

def machine (a : FadeArgs) : Machine PigFade FadeAct FadeObs where
  init s := s = start
  step := step a

-- ---------------------------------------------------------------------------
-- What is asked for
-- ---------------------------------------------------------------------------

/-- What the fade is waiting for: the evaluation of its arguments, a timer, the end of a
`bind`. -/
def Due (s : PigFade) : FadeAct → Prop
  | .ret => s.state = .INI_ARGS_2 ∨ s.state = .INI_ARGS_3
  | .durationTimer => s.timer = true
  | .invokerTimer => s.invoker = .ACT_START_RET
  | .bound => s.binding = true
  | .abort | .other => False

/-- Each timer that is asked for fires, and each call returns. -/
def Fires {a : FadeArgs} (b : (machine a).Behavior) : Prop :=
  ∀ n x, Due (b.state n) x → ∃ m ≥ n, b.act m = x

/-- No abort comes while the last value is bound. -/
def Spared (s : PigFade) (x : FadeAct) : Prop :=
  x = .abort → s.binding = true → equal s.i_counter s.i_countTotal = false

/-- The values bound. -/
def values (tr : List FadeObs) : List JsNumber :=
  tr.filterMap fun | .bind x => some x | _ => none

def returns (tr : List FadeObs) : List FadeResult :=
  tr.filterMap fun | .returned r => some r | _ => none

/-- The variable has the target value: it is the last one bound, or there was no difference. -/
def Reached (f : FadeSetting) (before : List FadeObs) (r : FadeResult) : Prop :=
  (∀ e, r ≠ .error e) ∧
    if values before = [] then equal (minus f.i_targetData f.i_valueStart) zero = true
    else (values before).getLast? = some f.i_targetData

/-- There is one return. After an abort nothing is bound and the return is an error; without
one the variable has the target value. -/
def Right (f : FadeSetting) (before : List FadeObs) : FadeObs → Prop
  | .abort => True
  | .bind _ => .abort ∉ before ∧ returns before = []
  | .returned r => returns before = [] ∧
      if .abort ∈ before then r = .error .aborted else Reached f before r

/-- The fade ends, and as it should. -/
structure Ends (f : FadeSetting) {a : FadeArgs} (b : (machine a).Behavior) : Prop where
  right : ∀ n, Machine.Justified (Right f) (b.trace n)
  returns : ∃ n, returns (b.trace n) ≠ []

/-- The fade is of floating numbers, and the start is the target or the number of steps is
from 1 to 2^53. -/
def Counts (f : FadeSetting) : Prop :=
  f.i_type = .floating ∧
    (equal (minus f.i_targetData f.i_valueStart) zero = true ∨
      ∃ q, dividedBy f.i_duration f.i_cycle = real q ∧ 0 < q ∧ q ≤ 2 ^ 53)

-- ---------------------------------------------------------------------------
-- The phases of a fade
-- ---------------------------------------------------------------------------

/-- Where the fade is when it has `n` steps to make, with what has been observed. The rank falls
with each thing that it waits for. -/
inductive Phase (f : FadeSetting) (n : Nat) : Nat → List FadeObs → PigFade → Prop
  | args2 {tr : List FadeObs} (aborted : Bool) (heard : .abort ∈ tr ↔ aborted = true)
      (values : values tr = []) (returns : returns tr = []) :
      Phase f n (2 * n + 4) tr { start with i_abort := aborted }
  | args3 {tr : List FadeObs} (aborted : Bool) (heard : .abort ∈ tr ↔ aborted = true)
      (values : values tr = []) (returns : returns tr = []) :
      Phase f n (2 * n + 3) tr { start with state := .INI_ARGS_3, i_abort := aborted }
  | floating {tr : List FadeObs} {k : Nat} {p : JsNumber} (hk : k < n) (heard : .abort ∉ tr)
      (returns : returns tr = []) :
      Phase f n (2 * (n - k) + 1) tr
        ⟨.ACT_FLOATING, false, real k, real n, p, false, false, false, .ACT_START_RET⟩
  | binding {tr : List FadeObs} {k : Nat} {p : JsNumber} (queued : Bool) (hk : k ≤ n)
      (heard : .abort ∈ tr ↔ queued = true) (returns : returns tr = [])
      (last : k = n → queued = false ∧ values tr ≠ [] ∧
        (values tr).getLast? = some f.i_targetData) :
      Phase f n (2 * (n - k) + 2) tr
        ⟨.ACT_FLOATING, false, real k, real n, p, true, queued, false, .invoking⟩
  | waiting {tr : List FadeObs} (heard : .abort ∉ tr) (values : values tr = [])
      (returns : returns tr = [])
      (same : equal (minus f.i_targetData f.i_valueStart) zero = true) :
      Phase f n 1 tr { start with state := .ACT_WAIT_DURATION_RET, timer := true }
  | ended {tr : List FadeObs} (s : PigFade) (state : s.state = .ZOM) (idle : s.binding = false)
      (returns : returns tr ≠ []) : Phase f n 0 tr s

variable {a : FadeArgs} {f : FadeSetting} {n r : Nat} {tr os : List FadeObs} {s t : PigFade}
  {x : FadeAct}

@[simp] theorem values_append (tr os : List FadeObs) : values (tr ++ os) = values tr ++ values os :=
  List.filterMap_append

@[simp] theorem returns_append (tr os : List FadeObs) :
    returns (tr ++ os) = returns tr ++ returns os := List.filterMap_append

@[simp] theorem values_abort : values [.abort] = [] := rfl
@[simp] theorem returns_abort : returns [.abort] = [] := rfl
@[simp] theorem values_bind (v : JsNumber) : values [.bind v] = [v] := rfl
@[simp] theorem returns_bind (v : JsNumber) : returns [.bind v] = [] := rfl
@[simp] theorem returns_returned (v : FadeResult) : returns [.returned v] = [v] := rfl

/-- What a step comes to: the rank is less, or the fade still waits for what it waited for. -/
def Falls (f : FadeSetting) (n r : Nat) (tr : List FadeObs) (s : PigFade) (x : FadeAct)
    (t : PigFade) (os : List FadeObs) : Prop :=
  (Machine.Justified (Right f) tr → Machine.Justified (Right f) (tr ++ os)) ∧
    ∃ r', Phase f n r' (tr ++ os) t ∧
      (r' < r ∨ (r' = r ∧ (0 < r → ¬ Due s x ∧ ∀ y, Due s y → Due t y)))

/-- A return at the end. -/
theorem Falls.finish {v : FadeResult} (hr : 0 < r) (hn : returns tr = [])
    (hv : if .abort ∈ tr then v = .error .aborted else Reached f tr v)
    (hs : s.binding = false) :
    Falls f n r tr t x (s.finish v).1 (s.finish v).2 := by
  refine ⟨fun hj => hj.snoc ⟨hn, hv⟩, 0, .ended _ rfl hs ?_, .inl hr⟩
  simp [PigFade.finish]

/-- The return of a fade that has been told to stop. -/
theorem Falls.heard (hr : 0 < r) (hn : returns tr = []) (hm : .abort ∈ tr)
    (hs : s.binding = false) : Falls f n r tr t x s.aborted.1 s.aborted.2 := by
  refine Falls.finish hr hn ?_ hs
  rw [if_pos hm]

/-- An abort that ends the fade. -/
theorem Falls.aborted (hr : 0 < r) (hn : returns tr = []) (hs : s.binding = false) :
    Falls f n r tr t x s.aborted.1 (.abort :: s.aborted.2) := by
  have h : Falls f n r (tr ++ [FadeObs.abort]) t x s.aborted.1 s.aborted.2 :=
    Falls.heard hr (by simpa using hn) (by simp) hs
  have happ : (tr ++ [FadeObs.abort]) ++ s.aborted.2 = tr ++ FadeObs.abort :: s.aborted.2 := by simp
  rw [Falls, ← happ]
  exact ⟨fun hj => h.1 (hj.snoc trivial), h.2⟩

theorem Falls.stutter (h : Phase f n r tr s) (hx : ¬ Due s x) : Falls f n r tr s x s [] := by
  rw [Falls, List.append_nil]
  exact ⟨id, r, h, .inr ⟨rfl, fun _ => ⟨hx, fun _ => id⟩⟩⟩

/-- A fade of floating numbers with `n` steps, or with none where there is no difference. -/
structure Plan (a : FadeArgs) (f : FadeSetting) (n : Nat) : Prop where
  check : a.check = .ok f
  duration : f.i_duration.isNegative = false
  cycle : f.i_cycle.isNegative = false
  floating : f.i_type = .floating
  bounded : n ≤ 2 ^ 53
  steps : equal (minus f.i_targetData f.i_valueStart) zero = true ∨
    (ceil (dividedBy f.i_duration f.i_cycle) = real n ∧ 1 ≤ n)

theorem Phase.ret (hp : Plan a f n) (h : Phase f n r tr s)
    (hs : returned a s = some (t, os)) : Falls f n r tr s .ret t os := by
  cases h with
  | args2 aborted heard values returns =>
    cases aborted with
    | true =>
      cases hs
      exact Falls.heard (Nat.succ_pos _) returns (heard.mpr rfl) rfl
    | false =>
      cases hs
      have hnext := Phase.args3 (f := f) (n := n) false heard values returns
      rw [Falls, List.append_nil]
      exact ⟨id, _, hnext, .inl (Nat.lt_succ_self _)⟩
  | args3 aborted heard values returns =>
    cases aborted with
    | true =>
      cases hs
      exact Falls.heard (Nat.succ_pos _) returns (heard.mpr rfl) rfl
    | false =>
      have hab : .abort ∉ tr := fun hm => nomatch heard.mp hm
      simp only [returned, start, Bool.false_eq_true, if_false, hp.check, ini, hp.floating,
        iniFloating] at hs
      rw [Falls]
      split at hs
      · rename_i hsame
        cases hs
        rw [List.append_nil, hp.duration]
        exact ⟨id, 1, .waiting hab values returns hsame, .inl (by omega)⟩
      · rename_i hne
        obtain ⟨htotal, hpos⟩ := hp.steps.resolve_left hne
        cases hs
        rw [List.append_nil, invokerWait, hp.cycle, htotal]
        exact ⟨id, _, .floating (k := 0) hpos hab returns, .inl (by omega)⟩
  | floating | binding | waiting => cases hs
  | ended s state idle returns =>
    rw [returned, state] at hs
    cases hs

theorem Phase.abort (h : Phase f n r tr s) (hx : Spared s .abort)
    (hs : step a s .abort = some (t, os)) : Falls f n r tr s .abort t os := by
  cases h with
  | args2 aborted heard values returns =>
    cases hs
    refine ⟨fun hj => hj.snoc trivial, _, .args2 true ?_ ?_ ?_, .inr ⟨rfl, ?_⟩⟩
    · simp
    · simpa using values
    · simpa using returns
    · exact fun _ => ⟨id, fun y => by cases y <;> exact id⟩
  | args3 aborted heard values returns =>
    cases hs
    refine ⟨fun hj => hj.snoc trivial, _, .args3 true ?_ ?_ ?_, .inr ⟨rfl, ?_⟩⟩
    · simp
    · simpa using values
    · simpa using returns
    · exact fun _ => ⟨id, fun y => by cases y <;> exact id⟩
  | floating hk heard returns =>
    cases hs
    exact Falls.aborted (Nat.succ_pos _) returns rfl
  | binding queued hk heard returns last =>
    cases hs
    refine ⟨fun hj => hj.snoc trivial, _, .binding true hk ?_ ?_ ?_, .inr ⟨rfl, ?_⟩⟩
    · simp
    · simpa using returns
    · rintro rfl
      have hlast := hx rfl rfl
      simp [equal] at hlast
    · exact fun _ => ⟨id, fun y => by cases y <;> exact id⟩
  | waiting heard values returns same =>
    cases hs
    exact Falls.aborted Nat.one_pos returns rfl
  | ended s state idle returns =>
    simp only [step, PigFade.abort, state] at hs
    cases hs
    exact Falls.stutter (.ended s state idle returns) id

theorem Phase.durationTimer (h : Phase f n r tr s)
    (hs : step a s .durationTimer = some (t, os)) : Falls f n r tr s .durationTimer t os := by
  cases h with
  | args2 | args3 | floating | binding => cases hs
  | waiting heard values returns same =>
    cases hs
    refine Falls.finish Nat.one_pos returns ?_ rfl
    rw [if_neg heard]
    exact ⟨nofun, by rw [if_pos values]; exact same⟩
  | ended s state idle returns =>
    simp only [step, state] at hs
    split at hs
    · cases hs
      rw [Falls, List.append_nil]
      exact ⟨id, 0, .ended _ rfl idle returns, .inr ⟨rfl, nofun⟩⟩
    · cases hs

theorem Phase.invokerTimer (hp : Plan a f n) (h : Phase f n r tr s)
    (hs : step a s .invokerTimer = some (t, os)) : Falls f n r tr s .invokerTimer t os := by
  cases h with
  | args2 | args3 | binding | waiting => cases hs
  | floating hk heard returns =>
    rename_i k p
    simp only [step, if_true, hp.check, Except.toOption, Option.map_some, updated,
      plus_one (le_trans (Nat.le_of_lt hk) hp.bounded),
      Nat.min_eq_left (le_trans hk hp.bounded)] at hs
    cases hs
    refine ⟨fun hj => hj.snoc ⟨heard, returns⟩, _,
      .binding (k := k + 1) false hk ?_ ?_ ?_, .inl (by omega)⟩
    · simpa using heard
    · simpa using returns
    · rintro rfl
      refine ⟨rfl, by simp, ?_⟩
      simp [nextValue, equal]
  | ended s state idle returns =>
    simp only [step, state] at hs
    split at hs
    · cases hs
      rw [Falls, List.append_nil]
      exact ⟨id, 0, .ended _ rfl idle returns, .inr ⟨rfl, fun h => by cases h⟩⟩
    · cases hs

theorem Phase.bound (hp : Plan a f n) (h : Phase f n r tr s)
    (hs : step a s .bound = some (t, os)) : Falls f n r tr s .bound t os := by
  cases h with
  | args2 | args3 | floating | waiting => cases hs
  | binding queued hk heard returns last =>
    rename_i k p
    simp only [step, if_true, hp.check, Except.toOption, Option.map_some, PigFade.bound,
      invokerWait, hp.cycle, Bool.false_eq_true, if_false] at hs
    split at hs
    · rename_i heq
      obtain rfl : k = n := by simpa [equal] using heq
      obtain ⟨rfl, hne, hlast⟩ := last rfl
      cases hs
      refine Falls.finish (Nat.succ_pos _) returns ?_ rfl
      rw [if_neg fun hm => by cases heard.mp hm]
      exact ⟨(fun _ h => by cases h), by rw [if_neg hne]; exact hlast⟩
    · rename_i hne
      have hlt : k < n := lt_of_le_of_ne hk fun h => hne (by simp [equal, h])
      cases queued with
      | true =>
        cases hs
        exact Falls.heard (Nat.succ_pos _) returns (heard.mpr rfl) rfl
      | false =>
        cases hs
        rw [Falls, List.append_nil]
        exact ⟨id, _, .floating hlt (fun hm => by cases heard.mp hm) returns, .inl (by omega)⟩
  | ended s state idle returns =>
    simp only [step, idle] at hs
    cases hs

theorem Phase.step (hp : Plan a f n) (h : Phase f n r tr s) (hx : Spared s x)
    (hs : step a s x = some (t, os)) : Falls f n r tr s x t os := by
  cases x with
  | ret => exact h.ret hp hs
  | abort => exact h.abort hx hs
  | other =>
    cases hs
    exact Falls.stutter h id
  | durationTimer => exact h.durationTimer hs
  | invokerTimer => exact h.invokerTimer hp hs
  | bound => exact h.bound hp hs

-- ---------------------------------------------------------------------------
-- Fades that end
-- ---------------------------------------------------------------------------

variable {b : (machine a).Behavior}

theorem phase_at (hp : Plan a f n) (hx : ∀ j, Spared (b.state j) (b.act j)) (j : Nat) :
    Machine.Justified (Right f) (b.trace j) ∧ ∃ r, Phase f n r (b.trace j) (b.state j) := by
  induction j with
  | zero =>
    rw [show b.state 0 = start from b.start]
    exact ⟨.nil, _, .args2 false (by simp [Machine.Behavior.trace]) rfl rfl⟩
  | succ j ih =>
    obtain ⟨hj, r, hph⟩ := ih
    obtain ⟨hkeep, r', hph', -⟩ := hph.step hp (hx j) (b.next j)
    exact ⟨hkeep hj, r', hph'⟩

/-- A fade that has not ended waits for something. -/
theorem Phase.due (h : Phase f n r tr s) (hr : 0 < r) : ∃ x, Due s x := by
  cases h with
  | args2 => exact ⟨.ret, .inl rfl⟩
  | args3 => exact ⟨.ret, .inr rfl⟩
  | floating => exact ⟨.invokerTimer, rfl⟩
  | binding => exact ⟨.bound, rfl⟩
  | waiting => exact ⟨.durationTimer, rfl⟩
  | ended => cases hr

theorem Phase.over_of_zero (h : Phase f n 0 tr s) : PigFade.returns tr ≠ [] := by
  generalize hr : 0 = r at h
  cases h with
  | ended s state idle returns => exact returns
  | args2 | args3 | floating | binding | waiting => cases hr

/-- What the fade waits for comes, and then the rank is less. -/
theorem rank_falls (hp : Plan a f n) (hb : Fires b)
    (hx : ∀ j, Spared (b.state j) (b.act j)) (j : Nat)
    (h : Phase f n r (b.trace j) (b.state j)) (hr : 0 < r) :
    ∃ m, j ≤ m ∧ ∃ r' < r, Phase f n r' (b.trace m) (b.state m) := by
  obtain ⟨x, hdue⟩ := h.due hr
  obtain ⟨m, hm, hact⟩ := hb j x hdue
  have hstays := unless_until (P := fun i => Phase f n r (b.trace i) (b.state i) ∧
      Due (b.state i) x)
    (Q := fun i => ∃ r' < r, Phase f n r' (b.trace (i + 1)) (b.state (i + 1))) ?_ ⟨h, hdue⟩ hm
  · rcases hstays with ⟨i, hi, hlow⟩ | ⟨hph, hdue⟩
    · exact ⟨i + 1, Nat.le_succ_of_le hi, hlow⟩
    · obtain ⟨-, r', hph', hlt | ⟨-, hkeep⟩⟩ := hph.step hp (hx m) (b.next m)
      · exact ⟨m + 1, Nat.le_succ_of_le hm, r', hlt, hph'⟩
      · rw [hact] at hkeep
        exact absurd hdue (hkeep hr).1
  · rintro i ⟨hph, hdue⟩
    obtain ⟨-, r', hph', hlt | ⟨rfl, hkeep⟩⟩ := hph.step hp (hx i) (b.next i)
    · exact .inl ⟨r', hlt, hph'⟩
    · exact .inr ⟨hph', (hkeep hr).2 x hdue⟩

theorem ends (hp : Plan a f n) (hb : Fires b) (hx : ∀ j, Spared (b.state j) (b.act j)) :
    Ends f b := by
  have hfall : ∀ r j, Phase f n r (b.trace j) (b.state j) → ∃ m, j ≤ m ∧
      (PigFade.returns (b.trace m) ≠ [] ∨
        ∃ r' < r, Phase f n r' (b.trace m) (b.state m)) := by
    intro r j hph
    rcases Nat.eq_zero_or_pos r with rfl | hr
    · exact ⟨j, Nat.le_refl j, .inl hph.over_of_zero⟩
    · obtain ⟨m, hm, hlow⟩ := rank_falls hp hb hx j hph hr
      exact ⟨m, hm, .inr hlow⟩
  obtain ⟨-, r, hph⟩ := phase_at hp hx 0
  obtain ⟨m, -, hm⟩ := eventually_of_rank hfall r 0 hph
  exact ⟨fun j => (phase_at hp hx j).1, m, hm⟩

/-- The number of steps. -/
theorem Counts.plan (hc : Counts f) (ha : a.check = .ok f)
    (hd : f.i_duration.isNegative = false) (hcy : f.i_cycle.isNegative = false) :
    ∃ n, Plan a f n := by
  obtain ⟨htype, hsame | ⟨q, hq, hpos, hle⟩⟩ := hc
  · exact ⟨0, ha, hd, hcy, htype, Nat.zero_le _, .inl hsame⟩
  · have hceil : 0 < ⌈q⌉ := Int.ceil_pos.mpr hpos
    have hnat : ((⌈q⌉.toNat : Nat) : Int) = ⌈q⌉ := Int.toNat_of_nonneg (le_of_lt hceil)
    have hbound : ⌈q⌉ ≤ 2 ^ 53 := Int.ceil_le.mpr (by exact_mod_cast hle)
    refine ⟨⌈q⌉.toNat, ha, hd, hcy, htype, by omega, .inr ⟨?_, by omega⟩⟩
    rw [hq, ceil]
    exact congrArg real (by exact_mod_cast hnat.symm)

-- ---------------------------------------------------------------------------
-- Fades that do not
-- ---------------------------------------------------------------------------

/-- The states of a fade that nobody stops and that does not end. -/
inductive Hung (f : FadeSetting) : PigFade → Prop
  | args2 : Hung f start
  | args3 : Hung f { start with state := .INI_ARGS_3 }
  | error : Hung f { start with state := .ERR_START }
  | floating {k : Nat} {p c : JsNumber} (hk : k ≤ 2 ^ 53)
      (never : ∀ m : Nat, 1 ≤ m → m ≤ 2 ^ 53 → real m ≠ c) :
      Hung f ⟨.ACT_FLOATING, false, real k, c, p, false, false, false, .ACT_START_RET⟩
  | binding {k : Nat} {p c : JsNumber} (hpos : 1 ≤ k) (hk : k ≤ 2 ^ 53)
      (never : ∀ m : Nat, 1 ≤ m → m ≤ 2 ^ 53 → real m ≠ c) :
      Hung f ⟨.ACT_FLOATING, false, real k, c, p, true, false, false, .invoking⟩

/-- What comes next. -/
def next (s : PigFade) : FadeAct :=
  if s.binding then .bound
  else if s.state = .ACT_FLOATING then .invokerTimer
  else if s.state = .ERR_START then .other
  else .ret

theorem not_counts (hc : ¬ Counts f) : f.i_type = .integer ∨
    (f.i_type = .floating ∧ equal (minus f.i_targetData f.i_valueStart) zero = false ∧
      ∀ m : Nat, 1 ≤ m → m ≤ 2 ^ 53 → real m ≠ ceil (dividedBy f.i_duration f.i_cycle)) := by
  cases htype : f.i_type with
  | integer => exact .inl rfl
  | floating =>
    refine .inr ⟨rfl, ?_, fun m hm hle heq => hc ⟨htype, .inr ?_⟩⟩
    · cases hs : equal (minus f.i_targetData f.i_valueStart) zero with
      | false => rfl
      | true => exact absurd ⟨htype, .inl hs⟩ hc
    · cases hq : dividedBy f.i_duration f.i_cycle with
      | nan | infinity =>
        rw [hq] at heq
        cases heq
      | real q =>
        rw [hq] at heq
        have hceil : ⌈q⌉ = m := by exact_mod_cast (JsNumber.real.inj heq).symm
        refine ⟨q, rfl, Int.ceil_pos.mp (by omega), ?_⟩
        calc q ≤ ⌈q⌉ := Int.le_ceil q
          _ = (m : ℚ) := by exact_mod_cast hceil
          _ ≤ 2 ^ 53 := by exact_mod_cast hle

theorem Hung.step (ha : a.check = .ok f) (hcy : f.i_cycle.isNegative = false)
    (hc : ¬ Counts f) (h : Hung f s) :
    ∃ t os, PigFade.step a s s.next = some (t, os) ∧ Hung f t ∧ returns os = [] := by
  cases h with
  | args2 => exact ⟨_, _, rfl, .args3, rfl⟩
  | args3 =>
    have hini : PigFade.step a { start with state := .INI_ARGS_3 } .ret =
        some (ini f { start with state := .INI_ARGS_3 }, []) := by
      simp [PigFade.step, returned, start, ha]
    refine ⟨_, _, hini, ?_, rfl⟩
    rcases not_counts hc with htype | ⟨htype, hne, hnever⟩
    · rw [ini, htype]
      exact .error
    · rw [ini, htype]
      simp only [iniFloating, hne, Bool.false_eq_true, if_false, invokerWait, hcy]
      exact .floating (k := 0) (Nat.zero_le _) hnever
  | error => exact ⟨_, _, rfl, .error, rfl⟩
  | floating hk never =>
    rename_i k p c
    let s : PigFade :=
      ⟨.ACT_FLOATING, false, real k, c, p, false, false, false, .ACT_START_RET⟩
    have hstep : PigFade.step a s s.next = some (updated f s) := by
      simp [s, next, PigFade.step, ha, Except.toOption]
    have hnext : (updated f s).1 = ⟨.ACT_FLOATING, false, real (min (k + 1) (2 ^ 53) : Nat), c, p,
        true, false, false, .invoking⟩ := by
      simp only [s, updated, plus_one hk]
    refine ⟨(updated f s).1, (updated f s).2, hstep, ?_, rfl⟩
    rw [hnext]
    exact .binding (Nat.le_min.mpr ⟨Nat.le_add_left 1 k, Nat.one_le_two_pow⟩)
      (Nat.min_le_right _ _) never
  | binding hpos hk never =>
    rename_i k p c
    let s : PigFade := ⟨.ACT_FLOATING, false, real k, c, p, true, false, false, .invoking⟩
    have hstep : PigFade.step a s s.next = some (PigFade.bound f s) := by
      simp [s, next, PigFade.step, ha, Except.toOption]
    have hnext : PigFade.bound f s = (⟨.ACT_FLOATING, false, real k, c, p, false, false, false,
        .ACT_START_RET⟩, []) := by
      simp [s, PigFade.bound, invokerWait, hcy, equal, never k hpos hk]
    rw [hnext] at hstep
    exact ⟨_, _, hstep, .floating hk never, rfl⟩

theorem Hung.waits (h : Hung f s) (hd : Due s x) : x = s.next := by
  cases h with
  | args2 | args3 | error => cases x <;> simp_all [Due, next, start]
  | floating | binding => cases x <;> simp_all [Due, next]

theorem next_ne_abort (s : PigFade) : s.next ≠ .abort := by
  unfold next
  split
  · exact nofun
  · split
    · exact nofun
    · split <;> exact nofun

/-- A fade that does not come to its end, where everything comes that it waits for. -/
theorem hangs (ha : a.check = .ok f) (hcy : f.i_cycle.isNegative = false) (hc : ¬ Counts f) :
    ∃ b : (machine a).Behavior, Fires b ∧ (∀ j, Spared (b.state j) (b.act j)) ∧
      ∀ j, returns (b.trace j) = [] := by
  obtain ⟨b, hb⟩ := Machine.exists_behavior (M := machine a) (I := Hung f)
    (P := fun os => returns os = []) (s := start) next rfl .args2
    (fun s hs => hs.step ha hcy hc)
  refine ⟨b, fun j x hd => ⟨j, Nat.le_refl j, ?_⟩, fun j h => ?_, fun j => ?_⟩
  · rw [(hb j).2.1]
    exact ((hb j).1.waits hd).symm
  · rw [(hb j).2.1] at h
    exact absurd h (next_ne_abort _)
  · induction j with
    | zero => rfl
    | succ j ih =>
      rw [Machine.Behavior.trace, returns_append, ih, (hb j).2.2]
      rfl

/-- Where the duration and the cycle are not negative, a fade ends as it should in each run
without an abort in the middle of the last `bind`, if and only if it is one of floating
numbers without a difference to the target, or with a number of steps that a counter comes to. -/
theorem fade_ends_iff (ha : a.check = .ok f) (hd : f.i_duration.isNegative = false)
    (hcy : f.i_cycle.isNegative = false) :
    (∀ b : (machine a).Behavior, Fires b → (∀ j, Spared (b.state j) (b.act j)) → Ends f b) ↔
      Counts f := by
  constructor
  · intro h
    by_contra hc
    obtain ⟨b, hb, hx, hr⟩ := hangs ha hcy hc
    obtain ⟨j, hj⟩ := (h b hb hx).returns
    exact hj (hr j)
  · intro hc b hb hx
    obtain ⟨n, hp⟩ := hc.plan ha hd hcy
    exact ends hp hb hx

/-- From 0 to 100 in 50 milliseconds, by steps of 20. -/
def toHundred (duration : Int) (options : List (String × FadeDatum)) : FadeArgs where
  options := options
  i_value := .string "0"
  duration := .number (real duration)
  targetData := .number (real 100)

theorem fade_ends_iff_toHundred :
    (toHundred 50000 []).check = .ok ⟨.floating, real 20000, zero, real 50000, real 100⟩ ∧
    ∀ b : (machine (toHundred 50000 [])).Behavior, Fires b →
      (∀ j, Spared (b.state j) (b.act j)) →
        Ends ⟨.floating, real 20000, zero, real 50000, real 100⟩ b := by
  have hcheck : (toHundred 50000 []).check =
      .ok ⟨.floating, real 20000, zero, real 50000, real 100⟩ := by decide +kernel
  refine ⟨hcheck, (fade_ends_iff hcheck (by decide +kernel) (by decide +kernel)).mpr ?_⟩
  exact ⟨rfl, .inr ⟨5 / 2, by decide +kernel, by norm_num, by norm_num⟩⟩

/-- A fade of integers, and one of no duration: all that they wait for comes, nobody stops them
and there is no return. -/
theorem fade_hangs :
    (∃ b : (machine (toHundred 50000 [("type", .string "integer")])).Behavior, Fires b ∧
      (∀ j, Spared (b.state j) (b.act j)) ∧ ∀ j, returns (b.trace j) = []) ∧
    ∃ b : (machine (toHundred 0 [])).Behavior, Fires b ∧
      (∀ j, Spared (b.state j) (b.act j)) ∧ ∀ j, returns (b.trace j) = [] := by
  refine ⟨hangs (f := ⟨.integer, real 20000, zero, real 50000, real 100⟩) (by decide +kernel)
    (by decide +kernel) ?_, hangs (f := ⟨.floating, real 20000, zero, real 0, real 100⟩)
    (by decide +kernel) (by decide +kernel) ?_⟩
  · rintro ⟨htype, -⟩
    cases htype
  · rintro ⟨-, hsame | ⟨q, hq, hpos, -⟩⟩
    · revert hsame
      decide +kernel
    · have hzero : dividedBy (real 0) (real 20000) = real 0 := by decide +kernel
      cases hzero.symm.trans hq
      exact lt_irrefl _ hpos

end PigFade

end TinyState.Js
