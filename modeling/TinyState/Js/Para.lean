import TinyState.Lib.CallerReturns

/-!
# pigPara

`para` evaluates its branches at once and returns when all of them have returned. A branch
may take the gate (`->`), or fail; the others are then aborted, and the result is that of
the branch which has taken the gate, or the error.
-/

namespace TinyState.Js

open Transition Caller

-- ---------------------------------------------------------------------------
-- Model
-- ---------------------------------------------------------------------------

/-- What data can be for `para`; `eqAborted` is the comparison `== "aborted"`. -/
class Datum (δ : Type) where
  undefined : δ
  aborted : δ
  array : List δ → δ
  eqAborted : δ → Bool

structure Returned (δ : Type) where
  isError : Bool
  d : δ
deriving DecidableEq

inductive PigPara.State
  | INI_TINYSTATE_START
  | ACT_START
  | ZOM
deriving DecidableEq

/-- How far the event that has been taken is dealt with: the `i`-th branch is being made,
which is the call `k`; an abort has still to be passed on to `targets`; or
`ACT_SEND_ABORT` has still to look at the first `i` branches. Other events may come and the
gate may be taken meanwhile. -/
inductive PigPara.Doing
  | nothing
  | making (i k : Nat)
  | catching (targets : List Nat)
  | sending (i : Nat)
deriving DecidableEq

/-- `callFunc` begins with the first branch, which is `callFunc[1]` in the source. -/
structure PigPara (δ : Type) where
  i_state : PigPara.State
  i_abort : Bool
  i_paraGate : Int
  i_paraGateFinish : Int
  i_paraGateRecv : Bool
  i_sendAbort : Bool
  callFunc : List Nat
  i_return_count : Nat
  i_returnEvent : List (Nat × Returned δ)
  doing : PigPara.Doing
deriving DecidableEq

/-- The branch that is the call `branch` takes the gate; `late` says that the broadcast of
aborts is finished by then. -/
structure TakeGate where
  branch : Nat
  late : Bool
deriving DecidableEq

namespace PigPara

variable {δ : Type} [Datum δ] (length : Nat)

abbrev Result (δ : Type) := PigPara δ × List (Effect Nat (Returned δ))

/-- The last `i` with `callFunc[i] === target`, among the first ones. -/
def indexOf (s : PigPara δ) (target : Nat) : Nat → Option Nat
  | 0 => none
  | i + 1 => if s.callFunc[i]? = some target then some (i + 1) else s.indexOf target i

def i_doParaGate (s : PigPara δ) (target : Nat) : PigPara δ × List Unit :=
  if s.i_paraGateRecv then (s, [])
  else
    match s.indexOf target s.callFunc.length with
    | some i => ({ s with i_paraGateRecv := true, i_paraGate := i }, [()])
    | none => ({ s with i_paraGateRecv := true, i_paraGate := -1 }, [()])

def poke (running : List Nat) (s : PigPara δ) (p : TakeGate) : Option (PigPara δ × List Unit) :=
  if p.branch ∈ running ∧ p.late = s.i_sendAbort then some (s.i_doParaGate p.branch) else none

/-- The rest of the loop of `INI_TINYSTATE_START`, from the branch `i` on. -/
def make (n : Nat) (s : PigPara δ) (i : Nat) : Result δ :=
  if i < length then ({ s with doing := .making i n }, [.launch i])
  else ({ s with i_state := .ACT_START, doing := .nothing }, [])

def INI_TINYSTATE_START (n : Nat) (s : PigPara δ) : Result δ :=
  make length n { s with callFunc := [], i_return_count := 1, i_returnEvent := [] } 1

/-- The branch `i` has been made. -/
def made (n : Nat) (s : PigPara δ) (i k : Nat) : Result δ :=
  make length n
    { s with
      callFunc := s.callFunc ++ [k]
      i_paraGate := if s.i_paraGate < 0 then i else s.i_paraGate } (i + 1)

def ACT_SEND_ABORT (s : PigPara δ) : Result δ :=
  if s.i_sendAbort then ({ s with doing := .nothing }, [])
  else ({ s with doing := .sending (length - 1) }, [])

/-- The end of `ACT_SEND_ABORT`. -/
def abortSent (s : PigPara δ) : PigPara δ :=
  if s.i_paraGate ≠ 0 then
    { s with
      i_sendAbort := true, i_paraGateFinish := s.i_paraGate, i_paraGate := 0, doing := .nothing }
  else { s with i_sendAbort := true, doing := .nothing }

/-- One round of the loop of `ACT_SEND_ABORT`. -/
def sendAbort (s : PigPara δ) (i : Nat) : Result δ :=
  ({ s with doing := .sending (i - 1) },
    if (s.i_returnEvent.lookup i).isSome then []
    else if s.i_paraGate = i then []
    else (s.callFunc[i - 1]?).toList.map .forward)

/-- `i_returnEvent[i]`, which is there for each branch when all have returned. -/
def returnEvent (s : PigPara δ) (i : Nat) : Returned δ :=
  (s.i_returnEvent.lookup i).getD ⟨false, Datum.undefined⟩

/-- The results of the branches in their order. -/
def results (s : PigPara δ) : List (Returned δ) :=
  (List.range' 1 s.callFunc.length).map s.returnEvent

def failed (v : Returned δ) : Bool := v.isError && !Datum.eqAborted v.d

def outcome (s : PigPara δ) : Returned δ :=
  if s.i_paraGateFinish ≠ 0 then s.returnEvent s.i_paraGateFinish.toNat
  else
    match s.results.find? failed with
    | some v => ⟨true, v.d⟩
    | none =>
      if s.i_abort then ⟨true, Datum.aborted⟩
      else ⟨false, Datum.array (s.results.map (·.d))⟩

def FIN_START (s : PigPara δ) : Result δ :=
  ({ s with i_state := .ZOM }, [.send s.outcome])

def ACT_START (s : PigPara δ) : Input (Returned δ) Unit → Result δ
  | .ret k msg =>
    let s :=
      match s.indexOf k (length - 1) with
      | some i =>
        { s with
          i_returnEvent := (i, msg) :: s.i_returnEvent, i_return_count := s.i_return_count + 1 }
      | none => s
    if s.i_return_count = length then s.FIN_START
    else if msg.isError then s.ACT_SEND_ABORT length
    else (s, [])
  | _ => if s.i_paraGate ≠ 0 then s.ACT_SEND_ABORT length else ({ s with doing := .nothing }, [])

/-- The filter that `enableCatchAbort` sets. -/
def i_catchAbort (s : PigPara δ) : Result δ :=
  ({ s with i_abort := true, doing := .catching s.callFunc }, [])

def handle (n : Nat) (s : PigPara δ) (ev : Input (Returned δ) Unit) : Result δ :=
  match s.i_state with
  | .INI_TINYSTATE_START => s.INI_TINYSTATE_START length n
  | .ACT_START =>
    match ev with
    | .abort => s.i_catchAbort
    | ev => s.ACT_START length ev
  | .ZOM => (s, [])

def work (n : Nat) (s : PigPara δ) : Option (Result δ) :=
  match s.doing with
  | .nothing => none
  | .making i k => some (s.made length n i k)
  | .catching (k :: targets) => some ({ s with doing := .catching targets }, [.forward k])
  | .catching [] => some (s.ACT_START length .abort)
  | .sending (i + 1) => some (s.sendAbort (i + 1))
  | .sending 0 => some (s.abortSent, [])

/-- `length` is that of `param`, the branches being its elements from 1 on. -/
def code : Code (PigPara δ) Nat (Returned δ) Unit TakeGate where
  start :=
    { i_state := .INI_TINYSTATE_START, i_abort := false, i_paraGate := 0, i_paraGateFinish := 0
      i_paraGateRecv := false, i_sendAbort := false, callFunc := [], i_return_count := 0
      i_returnEvent := [], doing := .nothing }
  ended s := s.i_state = .ZOM
  handle := handle length
  work := work length
  poke := poke

end PigPara

namespace PigPara

-- ---------------------------------------------------------------------------
-- The phases of the object
-- ---------------------------------------------------------------------------

variable {δ : Type} {length n i j k b : Nat} {s t : PigPara δ} {r : Result δ} {ab : Bool}
  {m : Returned δ} {ev : Input (Returned δ) Unit} {doing : Doing}

abbrev ParaSys (δ : Type) := Sys (PigPara δ) (Returned δ) Unit
abbrev ParaAct (δ : Type) := Act (Returned δ) Unit TakeGate
abbrev ParaObs (δ : Type) := Obs Nat (Returned δ) Unit TakeGate

/-- The calls whose return has not been recorded. -/
def left (length : Nat) (s : PigPara δ) : List Nat :=
  (List.range (length - 1)).filter fun k => (s.i_returnEvent.lookup (k + 1)).isNone

def waits (length : Nat) (s : PigPara δ) : List Nat :=
  match s.i_state, s.doing with
  | .ZOM, _ => []
  | .INI_TINYSTATE_START, .making _ k => List.range (k + 1)
  | .INI_TINYSTATE_START, _ => []
  | .ACT_START, _ => s.left length

/-- The call `k` is being made; those before it have been. -/
structure Making (length : Nat) (s : PigPara δ) (k : Nat) : Prop where
  i_state : s.i_state = .INI_TINYSTATE_START
  doing : s.doing = .making (k + 1) k
  callFunc : s.callFunc = List.range k
  lt : k + 1 < length
  i_returnEvent : s.i_returnEvent = []
  i_return_count : s.i_return_count = 1
  unsent : s.i_sendAbort = false

/-- All branches have been made, and some have not returned. -/
structure Acting (length : Nat) (s : PigPara δ) : Prop where
  i_state : s.i_state = .ACT_START
  callFunc : s.callFunc = List.range (length - 1)
  count : s.i_return_count + (s.left length).length = length
  open_ : s.left length ≠ []
  unsent : ∀ i, s.doing = .sending i → s.i_sendAbort = false
  made : ∀ i k, s.doing ≠ .making i k

structure Inv (length : Nat) (ab : Bool) (s : PigPara δ) : Prop where
  i_abort : s.i_abort = ab
  phase : (∃ k, Making length s k) ∨ Acting length s ∨ s.i_state = .ZOM ∧ s.doing = .nothing

theorem Making.waits_eq (h : Making length s k) : s.waits length = List.range (k + 1) := by
  rw [waits, h.i_state, h.doing]

theorem Acting.waits_eq (h : Acting length s) : s.waits length = s.left length := by
  rw [waits, h.i_state]

theorem mem_left : k ∈ s.left length ↔
    k < length - 1 ∧ s.i_returnEvent.lookup (k + 1) = none := by
  rw [left, List.mem_filter, List.mem_range, Option.isNone_iff_eq_none]

/-- What is done with an event in `ACT_START`, when it is not the last return. -/
inductive Goes (s : PigPara δ) : Doing → Prop
  | nothing : Goes s .nothing
  | catching {targets : List Nat} : Goes s (.catching targets)
  | sending {i : Nat} : s.i_sendAbort = false → Goes s (.sending i)

theorem Goes.not_making (h : Goes s doing) : doing ≠ .making i k := by cases h <;> nofun

theorem Acting.goes (h : Acting length s) (hd : Goes s doing) :
    Acting length { s with doing } where
  i_state := h.i_state
  callFunc := h.callFunc
  count := h.count
  open_ := h.open_
  unsent i hi := by
    obtain rfl : doing = .sending i := hi
    cases hd with
    | sending hs => exact hs
  made i k hm := by
    obtain rfl : doing = .making i k := hm
    cases hd

theorem ACT_SEND_ABORT_goes (length : Nat) (s : PigPara δ) : ∃ doing, Goes s doing ∧
    (s.i_sendAbort = false → ∃ i, doing = .sending i) ∧
    s.ACT_SEND_ABORT length = ({ s with doing }, []) := by
  unfold ACT_SEND_ABORT
  split
  · next h => exact ⟨_, .nothing, fun hf => absurd (hf.symm.trans h) nofun, rfl⟩
  · next h => exact ⟨_, .sending (Bool.eq_false_iff.mpr h), fun _ => ⟨_, rfl⟩, rfl⟩

theorem abortSent_acting (h : Acting length s) : Acting length s.abortSent := by
  unfold abortSent
  split
  · exact ⟨h.i_state, h.callFunc, h.count, h.open_, nofun, nofun⟩
  · exact ⟨h.i_state, h.callFunc, h.count, h.open_, nofun, nofun⟩

theorem indexOf_range (hb : s.callFunc = List.range b) (hk : k < b) (hj : k < j) :
    s.indexOf k j = some (k + 1) := by
  induction j with
  | zero => cases hj
  | succ j ih =>
    unfold indexOf
    split
    · next hi =>
      rw [hb] at hi
      obtain ⟨hlt, hi⟩ := List.getElem?_eq_some_iff.mp hi
      rw [List.getElem_range] at hi
      rw [hi]
    · next hi =>
      refine ih (Nat.lt_of_le_of_ne (Nat.le_of_lt_succ hj) ?_)
      rintro rfl
      exact hi (by rw [hb, List.getElem?_eq_getElem (by simpa using hk), List.getElem_range])

theorem indexOf_callFunc (hb : s.callFunc = List.range b) (hk : k < b) :
    s.indexOf k s.callFunc.length = some (k + 1) := by
  refine indexOf_range hb hk ?_
  rw [hb, List.length_range]
  exact hk

theorem indexOf_none (hb : s.callFunc = List.range b) (hk : b ≤ k) : s.indexOf k j = none := by
  induction j with
  | zero => rfl
  | succ j ih =>
    unfold indexOf
    rw [if_neg, ih]
    intro hi
    rw [hb] at hi
    obtain ⟨hlt, hi⟩ := List.getElem?_eq_some_iff.mp hi
    rw [List.getElem_range] at hi
    rw [List.length_range] at hlt
    omega

/-- The return of the call `k` is recorded. -/
def record (s : PigPara δ) (k : Nat) (m : Returned δ) : PigPara δ :=
  { s with
    i_returnEvent := (k + 1, m) :: s.i_returnEvent, i_return_count := s.i_return_count + 1 }

theorem left_record : (s.record k m).left length = (s.left length).erase k := by
  have hnd : (s.left length).Nodup := List.nodup_range.filter _
  rw [hnd.erase_eq_filter, left, left, List.filter_filter]
  refine List.filter_congr fun j _ => ?_
  rw [record, List.lookup_cons]
  by_cases hj : j = k
  · subst hj
    simp
  · have hne : (j + 1 == k + 1) = false := by simpa using hj
    rw [hne]
    simp [hj]

theorem Acting.left_length (h : Acting length s) (hk : k ∈ s.left length) :
    (s.record k m).i_return_count + ((s.record k m).left length).length = length := by
  have hl := List.length_erase_of_mem hk
  have hpos := List.length_pos_of_mem hk
  have hc := h.count
  rw [left_record]
  simp only [PigPara.record]
  omega

theorem Acting.record (h : Acting length s) (hk : k ∈ s.left length) (hd : s.doing = .nothing)
    (hc : s.i_return_count + 1 ≠ length) : Acting length (s.record k m) where
  i_state := h.i_state
  callFunc := h.callFunc
  count := h.left_length hk
  open_ hnil := by
    have hl := h.left_length (m := m) hk
    rw [hnil] at hl
    exact hc hl
  unsent i hi := absurd (hd.symm.trans hi) nofun
  made i k hm := absurd (hd.symm.trans hm) nofun

/-- The call of a branch changes the gate alone. -/
structure Frame (s t : PigPara δ) : Prop where
  i_state : t.i_state = s.i_state
  i_abort : t.i_abort = s.i_abort
  callFunc : t.callFunc = s.callFunc
  i_sendAbort : t.i_sendAbort = s.i_sendAbort
  i_return_count : t.i_return_count = s.i_return_count
  i_returnEvent : t.i_returnEvent = s.i_returnEvent
  doing : t.doing = s.doing

theorem i_doParaGate_frame : Frame s (s.i_doParaGate k).1 := by
  unfold i_doParaGate
  split
  · exact ⟨rfl, rfl, rfl, rfl, rfl, rfl, rfl⟩
  · split <;> exact ⟨rfl, rfl, rfl, rfl, rfl, rfl, rfl⟩

theorem Frame.left (h : Frame s t) : t.left length = s.left length := by
  rw [PigPara.left, PigPara.left, h.i_returnEvent]

theorem Frame.inv (h : Frame s t) (hi : Inv length ab s) : Inv length ab t where
  i_abort := h.i_abort.trans hi.i_abort
  phase := by
    rcases hi.phase with ⟨k, hm⟩ | ha | ⟨hz, hd⟩
    · exact .inl ⟨k, h.i_state.trans hm.i_state, h.doing.trans hm.doing,
        h.callFunc.trans hm.callFunc, hm.lt, h.i_returnEvent.trans hm.i_returnEvent,
        h.i_return_count.trans hm.i_return_count, h.i_sendAbort.trans hm.unsent⟩
    · refine .inr (.inl ⟨h.i_state.trans ha.i_state, h.callFunc.trans ha.callFunc, ?_, ?_, ?_, ?_⟩)
      · rw [h.left, h.i_return_count]
        exact ha.count
      · rw [h.left]
        exact ha.open_
      · rw [h.doing, h.i_sendAbort]
        exact ha.unsent
      · rw [h.doing]
        exact ha.made
    · exact .inr (.inr ⟨h.i_state.trans hz, h.doing.trans hd⟩)

theorem poke_eq {l : List Nat} {p : TakeGate} {ns : List Unit} (h : s.poke l p = some (t, ns)) :
    p.branch ∈ l ∧ p.late = s.i_sendAbort ∧ s.i_doParaGate p.branch = (t, ns) := by
  obtain ⟨⟨hm, hl⟩, he⟩ := Option.ite_none_right_eq_some.mp h
  exact ⟨hm, hl, Option.some.inj he⟩

-- ---------------------------------------------------------------------------
-- The account of the calls
-- ---------------------------------------------------------------------------

variable [Datum δ]

@[simp] theorem ended_iff : (code length).ended s = true ↔ s.i_state = .ZOM := decide_eq_true_iff

theorem not_ended (length : Nat) (h : s.i_state ≠ .ZOM) : (code length).ended s = false :=
  decide_eq_false h

theorem Making.ended (h : Making length s k) : (code length).ended s = false :=
  decide_eq_false (by rw [h.i_state]; nofun)

theorem Acting.ended (h : Acting length s) : (code length).ended s = false :=
  decide_eq_false (by rw [h.i_state]; nofun)

/-- A step of an object that goes on with its calls and launches none. -/
theorem Acting.fits {es : List (Effect Nat (Returned δ))} {l : List Nat}
    (h : Acting length t) (ha : t.i_abort = ab) (hl : (t.left length).Perm l)
    (he : launches es = 0) (hs : es.countP Effect.isSend = 0) :
    Fits (code length) (Inv length) (waits length) ab n l (t, es) where
  inv := ⟨ha, .inr (.inl h)⟩
  waits := by
    rw [he, h.waits_eq]
    exact hl.trans (.of_eq (List.append_nil _).symm)
  sends := by
    rw [hs, h.ended]
    rfl

theorem other_goes (length : Nat) (s : PigPara δ) (hr : ev.returned = none) :
    ∃ doing, Goes s doing ∧
    (s.i_paraGate ≠ 0 → s.i_sendAbort = false → ∃ i, doing = .sending i) ∧
    s.ACT_START length ev = ({ s with doing }, []) := by
  have he : s.ACT_START length ev = if s.i_paraGate ≠ 0 then s.ACT_SEND_ABORT length
      else ({ s with doing := .nothing }, []) := by
    cases ev with
    | ret k m => cases hr
    | initial => rfl
    | abort => rfl
    | note u => rfl
  rw [he]
  split
  · obtain ⟨doing, hg, hs, he⟩ := s.ACT_SEND_ABORT_goes length
    exact ⟨doing, hg, fun _ => hs, he⟩
  · next hn => exact ⟨_, .nothing, fun h => absurd h hn, rfl⟩

theorem ret_eq (h : Acting length s) (hk : k ∈ s.left length) :
    s.ACT_START length (.ret k m) =
      if s.i_return_count + 1 = length then (s.record k m).FIN_START
      else if m.isError then (s.record k m).ACT_SEND_ABORT length
      else (s.record k m, []) := by
  have hi : s.indexOf k (length - 1) = some (k + 1) :=
    indexOf_range h.callFunc (mem_left.mp hk).1 (mem_left.mp hk).1
  simp only [ACT_START, hi]
  rfl

/-- The return of a call is either the last, or is recorded and the object goes on. -/
theorem ret_cases (h : Acting length s) (hk : k ∈ s.left length) (hd : s.doing = .nothing) :
    ((s.left length).erase k = [] ∧
      s.ACT_START length (.ret k m) = (s.record k m).FIN_START) ∨
    ∃ doing, Acting length { s.record k m with doing } ∧ Goes s doing ∧
      (m.isError = false → doing = .nothing) ∧
      s.ACT_START length (.ret k m) = ({ s.record k m with doing }, []) := by
  rw [ret_eq h hk]
  by_cases hc : s.i_return_count + 1 = length
  · left
    have hl := h.left_length (m := m) hk
    rw [left_record] at hl
    refine ⟨List.eq_nil_of_length_eq_zero ?_, if_pos hc⟩
    simp only [record] at hl
    omega
  · right
    have hrec : Acting length (s.record k m) := h.record hk hd hc
    rw [if_neg hc]
    split
    · next he =>
      obtain ⟨doing, hg, -, heq⟩ := (s.record k m).ACT_SEND_ABORT_goes length
      refine ⟨doing, hrec.goes hg, ?_, fun h => ?_, heq⟩
      · cases hg with
        | nothing => exact .nothing
        | catching => exact .catching
        | sending hs => exact .sending hs
      · rw [h] at he
        cases he
    · exact ⟨.nothing, hrec.goes .nothing, .nothing, fun _ => rfl, by rw [← hd]; rfl⟩

/-- A branch has been made, and the next is being made, or they all have been. -/
theorem make_fits (h : s.i_state = .INI_TINYSTATE_START) (hc : s.callFunc = List.range k)
    (hl : k + 1 ≤ length) (h1 : 1 < length) (he : s.i_returnEvent = []) (hn : s.i_return_count = 1)
    (hu : s.i_sendAbort = false) (ha : s.i_abort = ab) :
    Fits (code length) (Inv length) (waits length) ab k (List.range k)
      (s.make length k (k + 1)) := by
  unfold make
  split
  · next hlt =>
    have hm : Making length { s with doing := .making (k + 1) k } k := ⟨h, rfl, hc, hlt, he, hn, hu⟩
    refine ⟨⟨ha, .inl ⟨k, hm⟩⟩, ?_, ?_⟩
    · rw [hm.waits_eq, List.range_succ]
      exact .refl _
    · rw [hm.ended]
      rfl
  · next hge =>
    have hk : k = length - 1 := by omega
    have hleft : left length { s with i_state := .ACT_START, doing := .nothing } =
        List.range k := by
      simp [left, he, hk]
    have hact : Acting length { s with i_state := .ACT_START, doing := .nothing } := by
      refine ⟨rfl, by rw [hc, hk], ?_, ?_, (fun i hi => nomatch hi), fun i k hi => nomatch hi⟩
      · rw [hleft, List.length_range]
        simp only [hn]
        omega
      · rw [hleft]
        simp only [ne_eq, List.range_eq_nil]
        omega
    exact hact.fits ha (.of_eq hleft) rfl rfl

theorem work_eq_none : s.work length n = none ↔ s.doing = .nothing := by
  unfold work
  split <;> simp_all

/-- What the object does of the event that it has taken, when all branches have been made. -/
theorem work_goes (h : Acting length s) (hr : s.work length n = some r) :
    (∃ es doing, Goes s doing ∧ r = ({ s with doing }, es) ∧ launches es = 0 ∧
      es.countP Effect.isSend = 0 ∧ ((∃ i, s.doing = .sending i) → ∃ i, doing = .sending i)) ∨
    s.doing = .sending 0 ∧ r = (s.abortSent, []) := by
  unfold work at hr
  split at hr
  · cases hr
  · next hd => exact absurd hd (h.made _ _)
  · next hd =>
    cases hr
    refine .inl ⟨_, _, .catching, rfl, rfl, rfl, ?_⟩
    rintro ⟨i, hi⟩
    cases hd.symm.trans hi
  · next hd =>
    cases hr
    have hr : (.abort : Input (Returned δ) Unit).returned = none := rfl
    obtain ⟨doing, hg, -, he⟩ := s.other_goes length hr
    refine .inl ⟨_, doing, hg, he, rfl, rfl, ?_⟩
    rintro ⟨i, hi⟩
    cases hd.symm.trans hi
  · next i hd =>
    cases hr
    refine .inl ⟨_, _, .sending (h.unsent _ hd), rfl, ?_, ?_, fun _ => ⟨_, rfl⟩⟩
    · split
      · rfl
      · split
        · rfl
        · exact launches_forward
    · split
      · rfl
      · split
        · rfl
        · exact sends_forward
  · next hd =>
    cases hr
    exact .inr ⟨hd, rfl⟩

/-- The branch that is being made is the last call that has been launched. -/
def Numbered (s : ParaSys δ) : Prop := ∀ i k, s.obj.doing = .making i k → s.started = k + 1

/-- What an event that is not the last return makes of the object. -/
inductive Taken (length : Nat) (s : PigPara δ) : Input (Returned δ) Unit → Result δ → Prop
  | abort : Taken length s .abort ({ s with i_abort := true, doing := .catching s.callFunc }, [])
  | note {u : Unit} {doing : Doing} : Goes s doing →
      (s.i_paraGate ≠ 0 → s.i_sendAbort = false → ∃ i, doing = .sending i) →
      Taken length s (.note u) ({ s with doing }, [])
  | ret {k : Nat} {m : Returned δ} {doing : Doing} : Goes s doing →
      Acting length { s.record k m with doing } →
      Taken length s (.ret k m) ({ s.record k m with doing }, [])
  | last {k : Nat} {m : Returned δ} : (s.left length).erase k = [] →
      Taken length s (.ret k m) (s.record k m).FIN_START

theorem handle_taken (ha : Acting length s) (hd : s.doing = .nothing) (hni : ev ≠ .initial)
    (hk : ∀ k m, ev = .ret k m → k ∈ s.left length) :
    Taken length s ev ((code length).handle n s ev) := by
  cases ev with
  | initial => exact absurd rfl hni
  | abort =>
    have he : (code length).handle n s .abort = s.i_catchAbort := by
      simp only [code, handle, ha.i_state]
    rw [he]
    exact .abort
  | note u =>
    have he : (code length).handle n s (.note u) = s.ACT_START length (.note u) := by
      simp only [code, handle, ha.i_state]
    have hr : (.note u : Input (Returned δ) Unit).returned = none := rfl
    obtain ⟨doing, hg, hgate, heq⟩ := s.other_goes length hr
    rw [he, heq]
    exact .note hg hgate
  | ret k m =>
    have he : (code length).handle n s (.ret k m) = s.ACT_START length (.ret k m) := by
      simp only [code, handle, ha.i_state]
    rw [he]
    rcases ret_cases (m := m) ha (hk k m rfl) hd with ⟨hnil, heq⟩ | ⟨doing, hrec, hg, -, heq⟩
    · rw [heq]
      exact .last hnil
    · rw [heq]
      exact .ret hg hrec

theorem Taken.fits (h : Taken length s ev r) (ha : Acting length s) (hab : s.i_abort = ab)
    (hd : s.doing = .nothing) :
    Fits (code length) (Inv length) (waits length) (ab || ev.isAbort) n
      (ev.settle (s.waits length)) r := by
  rw [ha.waits_eq]
  cases h with
  | abort =>
    have hact : Acting length { s with i_abort := true } :=
      ⟨ha.i_state, ha.callFunc, ha.count, ha.open_, ha.unsent, ha.made⟩
    exact (hact.goes .catching).fits (Bool.or_true _).symm (.refl _) rfl rfl
  | note hg _ => exact (ha.goes hg).fits (hab.trans (Bool.or_false _).symm) (.refl _) rfl rfl
  | ret _ hrec =>
    exact hrec.fits (hab.trans (Bool.or_false _).symm) (.of_eq left_record) rfl rfl
  | @last k m hnil =>
    rw [show (.ret k m : Input (Returned δ) Unit).settle (s.left length) = [] from hnil]
    exact ⟨⟨hab.trans (Bool.or_false _).symm, .inr (.inr ⟨rfl, hd⟩)⟩, .refl _, rfl⟩

theorem work_making (h : Making length s k) :
    (code length).work n s = some (s.made length n (k + 1) k) := by
  simp only [code, work, h.doing]

theorem lawful (h1 : 1 < length) :
    Lawful (code length) (fun s : ParaSys δ => fun _ => Numbered s) (Inv length)
      (waits length) where
  start := ⟨rfl, rfl, rfl⟩
  ended s ho := by
    have hz := ended_iff.mp ho
    rw [waits, hz]
  first _ := make_fits rfl rfl (by omega) h1 rfl rfl rfl rfl
  handle := by
    intro s i q h hi hend hni hq _ hwork
    have hd := work_eq_none.mp hwork
    rcases hi.phase with ⟨k, hm⟩ | ha | ⟨hz, -⟩
    · exact absurd (hd.symm.trans hm.doing) nofun
    · exact (handle_taken ha hd hni fun k m he => ha.waits_eq ▸ h.mem (he ▸ hq)).fits ha
        hi.i_abort hd
    · exact absurd (ended_iff.mpr hz) (Bool.eq_false_iff.mp hend)
  work := by
    intro s r h hi hnum hr
    rcases hi.phase with ⟨k, hm⟩ | ha | ⟨-, hd⟩
    · obtain rfl := Option.some.inj ((work_making hm).symm.trans hr)
      rw [hm.waits_eq, hnum _ _ hm.doing]
      refine ⟨hm.ended, make_fits hm.i_state ?_ hm.lt h1 hm.i_returnEvent hm.i_return_count
        hm.unsent hi.i_abort⟩
      rw [hm.callFunc, List.range_succ]
    · refine ⟨ha.ended, ?_⟩
      have hw : s.obj.waits length = s.obj.left length := ha.waits_eq
      rcases work_goes ha hr with ⟨es, doing, hg, rfl, hl, hs, -⟩ | ⟨-, rfl⟩
      · exact (ha.goes hg).fits hi.i_abort (.of_eq hw.symm) hl hs
      · have hsent : s.obj.abortSent.i_abort = s.obj.i_abort ∧
            s.obj.abortSent.left length = s.obj.left length := by
          unfold abortSent
          split <;> exact ⟨rfl, rfl⟩
        exact (abortSent_acting ha).fits (hsent.1.trans hi.i_abort)
          (.of_eq (hsent.2.trans hw.symm)) rfl rfl
    · have hnone : (code length).work s.started s.obj = none := work_eq_none.mpr hd
      rw [hnone] at hr
      cases hr
  poke := by
    intro ab l obj p obj' ns hi hp
    obtain ⟨-, -, he⟩ := poke_eq hp
    have hf : Frame obj obj' := by
      have hf : Frame obj (obj.i_doParaGate p.branch).1 := i_doParaGate_frame
      rwa [he] at hf
    refine ⟨hf.inv hi, ?_, ?_⟩
    · rw [waits, waits, hf.i_state, hf.doing, hf.left]
    · exact congrArg (fun x => decide (x = State.ZOM)) hf.i_state

-- ---------------------------------------------------------------------------
-- Runs
-- ---------------------------------------------------------------------------

theorem Taken.not_making (h : Taken length s ev r) (hd : s.doing = .nothing) :
    r.1.doing ≠ .making i k := by
  cases h with
  | abort => nofun
  | note hg _ => exact hg.not_making
  | ret hg _ => exact hg.not_making
  | last _ =>
    rintro hm
    exact absurd (hd.symm.trans hm) nofun

/-- The account of the object, and the number of the branch that is being made. -/
structure Known (length : Nat) (s : ParaSys δ) : Prop where
  sound : Sound (code length) (Inv length) (waits length) s
  numbered : Numbered s

theorem make_numbered (s : ParaSys δ) (obj : PigPara δ) (i : Nat) :
    Numbered ((code length).perform s (obj.make length s.started i)) := by
  unfold make
  split
  · rintro j k hd
    cases hd
    rfl
  · intro j k hd
    cases hd

/-- What a step that takes something is: the object is made, or all branches have been. -/
theorem Known.took {s : ParaSys δ} {i : Input (Returned δ) Unit}
    {q : List (Input (Returned δ) Unit)} (h : Known length s) (hq : s.queue = i :: q)
    (hwork : (code length).work s.started s.obj = none) :
    (s = (code length).initial ∧ i = .initial ∧ q = []) ∨
      Acting length s.obj ∧ Inv length s.aborted s.obj ∧ s.obj.doing = .nothing ∧
        Taken length s.obj i ((code length).handle s.started s.obj i) := by
  rcases h.sound.begun with rfl | ⟨hni, hi⟩
  · obtain ⟨rfl, rfl⟩ := List.cons.inj hq
    exact .inl ⟨rfl, rfl, rfl⟩
  · have hd := work_eq_none.mp hwork
    rcases hi.phase with ⟨k, hm⟩ | ha | ⟨hz, -⟩
    · exact absurd (hd.symm.trans hm.doing) nofun
    · refine .inr ⟨ha, hi, hd, handle_taken ha hd ?_ fun k m he => ?_⟩
      · rintro rfl
        exact hni (hq ▸ List.mem_cons_self)
      · exact ha.waits_eq ▸ h.sound.mem (he ▸ hq)
    · exact absurd (ended_iff.mpr hz) (Bool.eq_false_iff.mp (h.sound.not_over hq))

theorem Known.worked {s : ParaSys δ} (h : Known length s)
    (hr : (code length).work s.started s.obj = some r) :
    (∃ k, Making length s.obj k ∧ r = s.obj.made length s.started (k + 1) k) ∨
      Acting length s.obj := by
  have hi : Inv length s.aborted s.obj := by
    refine (h.sound.begun.resolve_left ?_).2
    rintro rfl
    cases hr
  rcases hi.phase with ⟨k, hm⟩ | ha | ⟨-, hz⟩
  · exact .inl ⟨k, hm, (Option.some.inj ((work_making hm).symm.trans hr)).symm⟩
  · exact .inr ha
  · have hnone : (code length).work s.started s.obj = none := work_eq_none.mpr hz
    rw [hnone] at hr
    cases hr

theorem Known.step {s t : ParaSys δ} {a : ParaAct δ} {os : List (ParaObs δ)} (h1 : 1 < length)
    (h : Known length s) (hs : (code length).step s a = some (t, os)) : Known length t := by
  refine ⟨(lawful h1).step h.sound h.numbered hs, ?_⟩
  cases step_cases hs with
  | told _ ht =>
    intro i k hd
    rw [ht.started]
    rcases ht.how with ⟨ho, -⟩ | ⟨p, ns, hp, -⟩
    · exact h.numbered i k (ho ▸ hd)
    · obtain ⟨-, -, he⟩ := poke_eq hp
      have hf : Frame s.obj (s.obj.i_doParaGate p.branch).1 := i_doParaGate_frame
      rw [he] at hf
      exact h.numbered i k (hf.doing ▸ hd)
  | @took i q hwork hq =>
    rcases h.took hq hwork with ⟨rfl, rfl, rfl⟩ | ⟨-, -, hd, ht⟩
    · exact make_numbered _ _ _
    · exact fun j k hd' => absurd hd' (ht.not_making hd)
  | @worked r hr =>
    rcases h.worked hr with ⟨k, -, rfl⟩ | ha
    · exact make_numbered _ _ _
    · rcases work_goes ha hr with ⟨es, doing, hg, rfl, -⟩ | ⟨-, rfl⟩
      · exact fun j k hd => absurd hd hg.not_making
      · exact fun j k hd => absurd hd ((abortSent_acting ha).made j k)

theorem Known.initial (h1 : 1 < length) : Known length (code (δ := δ) length).initial :=
  ⟨.initial (lawful h1), nofun⟩

theorem known_run {s : ParaSys δ} {tr : List (ParaObs δ)} (h1 : 1 < length)
    (h : (code length).machine.Run tr s) : Known length s := by
  refine h.stateInvariant (I := Known length) ?start ?step
  case start =>
    rintro s rfl
    exact .initial h1
  case step =>
    intro s a t os h _ hs
    exact h.step h1 hs

/-- The account of the calls is kept in all runs. -/
theorem numbered_run {s : ParaSys δ} {tr : List (ParaObs δ)} (h1 : 1 < length)
    (h : (code length).machine.Run tr s) :
    (code length).machine.RunIf (fun s _ => Numbered s) tr s :=
  h.mono fun _ _ _ hr _ => (known_run h1 hr).numbered

-- ---------------------------------------------------------------------------
-- The gate
-- ---------------------------------------------------------------------------

def gate? : ParaObs δ → Option TakeGate
  | .poked p => some p
  | _ => none

/-- The gate that has been taken. -/
def gateOf (tr : List (ParaObs δ)) : Option TakeGate := tr.findSome? gate?

/-- The aborts are being sent, or they are going to be: before the branch `b` has returned. -/
def Pending (b : Nat) (s : ParaSys δ) : Prop :=
  (∃ i, s.obj.doing = .sending i) ∨
    ∃ q₁ q₂, s.queue = q₁ ++ .note () :: q₂ ∧ (b ∈ s.running ∨ ∃ m, .ret b m ∈ q₂)

/-- `i_paraGate` says that the branch `b` has taken the gate. -/
def Kept (b : Nat) (s : PigPara δ) : Prop :=
  (s.i_paraGate = b + 1 ∧ b < s.callFunc.length) ∨
    s.i_paraGate = -1 ∧ b = s.callFunc.length ∧ s.i_state = .INI_TINYSTATE_START

/-- What is known of the gate. -/
def Gate (length : Nat) (s : ParaSys δ) : Option TakeGate → Prop
  | none => s.obj.i_paraGateRecv = false ∧ s.obj.i_paraGate = 0 ∧ s.obj.i_paraGateFinish = 0
  | some ⟨_, true⟩ =>
    s.obj.i_paraGateRecv = true ∧ s.obj.i_paraGateFinish = 0 ∧ s.obj.i_sendAbort = true
  | some ⟨b, false⟩ =>
    s.obj.i_paraGateRecv = true ∧ b < length - 1 ∧
      (s.obj.i_sendAbort = true ∧ s.obj.i_paraGateFinish = b + 1 ∨
        s.obj.i_sendAbort = false ∧ s.obj.i_paraGateFinish = 0 ∧ Kept b s.obj ∧ Pending b s)

/-- The gate is as it was. -/
structure SameGate (s t : PigPara δ) : Prop where
  i_paraGate : t.i_paraGate = s.i_paraGate
  i_paraGateFinish : t.i_paraGateFinish = s.i_paraGateFinish
  i_paraGateRecv : t.i_paraGateRecv = s.i_paraGateRecv
  i_sendAbort : t.i_sendAbort = s.i_sendAbort
  callFunc : t.callFunc = s.callFunc
  i_state : t.i_state = s.i_state

omit [Datum δ] in
theorem SameGate.kept (h : SameGate s t) : Kept b t ↔ Kept b s := by
  rw [Kept, Kept, h.i_paraGate, h.callFunc, h.i_state]

omit [Datum δ] in
theorem Gate.same {s t : ParaSys δ} {g : Option TakeGate} (h : Gate length s g)
    (hs : SameGate s.obj t.obj) (hp : ∀ b, Kept b s.obj → Pending b s → Pending b t) :
    Gate length t g := by
  match g with
  | none =>
    rw [Gate, hs.i_paraGate, hs.i_paraGateFinish, hs.i_paraGateRecv]
    exact h
  | some ⟨_, true⟩ =>
    rw [Gate, hs.i_paraGateFinish, hs.i_paraGateRecv, hs.i_sendAbort]
    exact h
  | some ⟨b, false⟩ =>
    rw [Gate, hs.i_paraGateFinish, hs.i_paraGateRecv, hs.i_sendAbort, hs.kept]
    obtain ⟨hr, hlt, hf⟩ := h
    refine ⟨hr, hlt, hf.imp_right fun ⟨hn, hz, hk, hpend⟩ => ⟨hn, hz, hk, hp b hk hpend⟩⟩

/-- What is pending goes on to be, when the object takes nothing. -/
theorem Pending.told {s t : ParaSys δ} {os : List (ParaObs δ)} (h : Pending b s)
    (ht : Told (code length) s t os) (hd : t.obj.doing = s.obj.doing)
    (hn : s.opened.Nodup) (ho : (code (δ := δ) length).ended t.obj = false)
    (hperm : t.opened.Perm s.opened) : Pending b t := by
  refine h.imp (fun hs => hd ▸ hs) fun ⟨q₁, q₂, hq, hb⟩ => ?_
  obtain ⟨more, hmore⟩ := ht.queue ho
  refine ⟨q₁, q₂ ++ more, ?_, ?_⟩
  · rw [← hmore, hq, List.append_assoc, List.cons_append]
  · rcases hb with hb | ⟨m, hm⟩
    · refine (running_or_returned hn hperm hmore.symm hb).imp_right ?_
      rintro ⟨m, hm⟩
      exact ⟨m, List.mem_append_right _ hm⟩
    · exact .inr ⟨m, List.mem_append_left _ hm⟩

/-- A branch takes the gate. -/
theorem gate_taken {s t : ParaSys δ} {p : TakeGate} {ns : List Unit} (h : Known length s)
    (hg : Gate length s none) (hp : (code length).poke s.running s.obj p = some (t.obj, ns))
    (hz : s.obj.i_state ≠ .ZOM) (hinv : Inv length s.aborted s.obj)
    (hq : t.queue = s.queue ++ ns.map .note) (hrun : p.branch ∈ t.running) :
    Gate length t (some p) := by
  obtain ⟨obj, queue, running, started, aborted⟩ := t
  obtain ⟨hrecv, hgate, hfin⟩ := hg
  obtain ⟨hb, hl, he⟩ := poke_eq hp
  obtain ⟨b, late⟩ := p
  have hmem : b ∈ s.obj.waits length := h.sound.open_.mem_iff.mp (List.mem_append_left _ hb)
  unfold i_doParaGate at he
  rw [hrecv, if_neg Bool.false_ne_true] at he
  have hpend (hns : ns = [()]) : Pending b ⟨obj, queue, running, started, aborted⟩ := by
    rw [hns] at hq
    exact .inr ⟨s.queue, [], hq, .inl hrun⟩
  dsimp only at he
  cases late with
  | true =>
    split at he
    · cases he
      exact ⟨rfl, hfin, hl.symm⟩
    · cases he
      exact ⟨rfl, hfin, hl.symm⟩
  | false =>
    rcases hinv.phase with ⟨k, hm⟩ | ha | ⟨hz', -⟩
    · rw [hm.waits_eq, List.mem_range] at hmem
      have hlt := hm.lt
      rcases Nat.lt_succ_iff_lt_or_eq.mp hmem with hbk | rfl
      · rw [indexOf_callFunc hm.callFunc hbk] at he
        cases he
        refine ⟨rfl, by omega, .inr ⟨hl.symm, hfin, .inl ⟨rfl, ?_⟩, hpend rfl⟩⟩
        rw [hm.callFunc, List.length_range]
        exact hbk
      · rw [indexOf_none hm.callFunc (Nat.le_refl _)] at he
        cases he
        refine ⟨rfl, by omega, .inr ⟨hl.symm, hfin, .inr ⟨rfl, ?_, hm.i_state⟩, hpend rfl⟩⟩
        rw [hm.callFunc, List.length_range]
    · rw [ha.waits_eq] at hmem
      have hlt := (mem_left.mp hmem).1
      rw [indexOf_callFunc ha.callFunc hlt] at he
      cases he
      refine ⟨rfl, hlt, .inr ⟨hl.symm, hfin, .inl ⟨rfl, ?_⟩, hpend rfl⟩⟩
      rw [ha.callFunc, List.length_range]
      exact hlt
    · exact absurd hz' hz

omit [Datum δ] in
theorem gateOf_append (tr os : List (ParaObs δ)) :
    gateOf (tr ++ os) = (gateOf tr).or (gateOf os) := List.findSome?_append

omit [Datum δ] in
theorem gateOf_observe {es : List (Effect Nat (Returned δ))} :
    ∀ {n}, gateOf (observe n es : List (ParaObs δ)) = none := by
  induction es with
  | nil => exact rfl
  | cons e es ih =>
    intro n
    cases e with
    | launch x => exact ih
    | forward k => exact ih
    | send m => exact ih

/-- The object takes an event, and the one that is pending is still in the queue. -/
theorem Pending.take {s : ParaSys δ} {i : Input (Returned δ) Unit}
    {q : List (Input (Returned δ) Unit)} (h : Pending b s) (hd : s.obj.doing = .nothing)
    (hq : s.queue = i :: q) (hni : i ≠ .note ()) (hz : r.1.i_state ≠ .ZOM) :
    Pending b
      ((code length).perform { s with queue := q, aborted := s.aborted || i.isAbort } r) := by
  rcases h with ⟨j, hj⟩ | ⟨q₁, q₂, hs, hb⟩
  · exact absurd (hd.symm.trans hj) nofun
  · right
    have ho := not_ended length hz
    cases q₁ with
    | nil =>
      rw [hq] at hs
      exact absurd (List.cons.inj hs).1 hni
    | cons j q₁ =>
      rw [hq] at hs
      refine ⟨q₁, q₂, ?_, hb.imp_left fun hb => List.mem_append_left _ hb⟩
      rw [perform_queue ho]
      exact (List.cons.inj hs).2

theorem Gate.take {s : ParaSys δ} {i : Input (Returned δ) Unit}
    {q : List (Input (Returned δ) Unit)} {g : Option TakeGate} (h : Gate length s g)
    (ht : Taken length s.obj i r) (hd : s.obj.doing = .nothing) (hq : s.queue = i :: q)
    (hz : r.1.i_state ≠ .ZOM) : Gate length
      ((code length).perform { s with queue := q, aborted := s.aborted || i.isAbort } r) g := by
  cases ht with
  | abort => exact h.same ⟨rfl, rfl, rfl, rfl, rfl, rfl⟩ fun b _ hp => hp.take hd hq nofun hz
  | ret _ _ => exact h.same ⟨rfl, rfl, rfl, rfl, rfl, rfl⟩ fun b _ hp => hp.take hd hq nofun hz
  | last _ => exact absurd rfl hz
  | @note u doing hg hsend =>
    -- the aborts are sent now, unless they have been
    by_cases hs : s.obj.i_sendAbort = false
    · refine h.same ⟨rfl, rfl, rfl, rfl, rfl, rfl⟩ fun b hk _ => .inl (hsend ?_ hs)
      rcases hk with ⟨hk, -⟩ | ⟨hk, -⟩
      · rw [hk]
        omega
      · rw [hk]
        nofun
    · match g with
      | none => exact h
      | some ⟨_, true⟩ => exact h
      | some ⟨b, false⟩ =>
        obtain ⟨hr, hlt, hf⟩ := h
        exact ⟨hr, hlt, .inl (hf.resolve_right fun hf => hs hf.1)⟩

omit [Datum δ] in
theorem make_same (length n : Nat) (s : PigPara δ) (i : Nat) :
    (s.make length n i).1.i_paraGate = s.i_paraGate ∧
      (s.make length n i).1.i_paraGateFinish = s.i_paraGateFinish ∧
      (s.make length n i).1.i_paraGateRecv = s.i_paraGateRecv ∧
      (s.make length n i).1.i_sendAbort = s.i_sendAbort ∧
      (s.make length n i).1.callFunc = s.callFunc ∧
      (s.make length n i).1.i_returnEvent = s.i_returnEvent := by
  unfold make
  split <;> exact ⟨rfl, rfl, rfl, rfl, rfl, rfl⟩

/-- The branch that is being made is recorded, and with it the gate that it has taken. -/
theorem Gate.made {s : ParaSys δ} {g : Option TakeGate} (h : Gate length s g)
    (hm : Making length s.obj k) (hz : (s.obj.made length s.started (k + 1) k).1.i_state ≠ .ZOM) :
    Gate length ((code length).perform s (s.obj.made length s.started (k + 1) k)) g := by
  obtain ⟨hg, hf, hr, hs, hc, -⟩ := make_same length s.started
    { s.obj with
      callFunc := s.obj.callFunc ++ [k]
      i_paraGate := if s.obj.i_paraGate < 0 then (k + 1 : Nat) else s.obj.i_paraGate } (k + 2)
  match g with
  | none =>
    obtain ⟨hr', hg', hf'⟩ := h
    refine ⟨hr.trans hr', hg.trans ?_, hf.trans hf'⟩
    dsimp only
    rw [hg']
    rfl
  | some ⟨_, true⟩ =>
    obtain ⟨hr', hf', hs'⟩ := h
    exact ⟨hr.trans hr', hf.trans hf', hs.trans hs'⟩
  | some ⟨b, false⟩ =>
    obtain ⟨hr', hlt, hf'⟩ := h
    refine ⟨hr.trans hr', hlt, hf'.imp (fun ⟨hs', hf'⟩ => ⟨hs.trans hs', hf.trans hf'⟩)
      fun ⟨hs', hf', hk, hp⟩ => ⟨hs.trans hs', hf.trans hf', .inl ⟨hg.trans ?_, ?_⟩, .inr ?_⟩⟩
    · dsimp only
      rcases hk with ⟨hk, -⟩ | ⟨hk, hb, -⟩
      · rw [hk, if_neg (by omega)]
      · rw [hk, if_pos (by decide), hb, hm.callFunc, List.length_range]
        rfl
    · refine Nat.lt_of_lt_of_eq ?_ (congrArg List.length hc).symm
      rw [List.length_append]
      rcases hk with ⟨-, hb⟩ | ⟨-, hb, -⟩
      · exact Nat.lt_succ_of_lt hb
      · exact Nat.lt_succ_of_le hb.le
    · rcases hp with ⟨j, hj⟩ | ⟨q₁, q₂, hq, hb⟩
      · exact absurd (hm.doing.symm.trans hj) nofun
      · refine ⟨q₁, q₂, ?_, hb.imp_left fun hb => List.mem_append_left _ hb⟩
        rw [perform_queue (not_ended _ (by exact hz))]
        exact hq

theorem Gate.goes {s : ParaSys δ} {g : Option TakeGate} {es : List (Effect Nat (Returned δ))}
    (h : Gate length s g) (hz : s.obj.i_state ≠ .ZOM)
    (hs : (∃ i, s.obj.doing = .sending i) → ∃ i, doing = .sending i) :
    Gate length ((code length).perform s ({ s.obj with doing }, es)) g := by
  refine h.same ⟨rfl, rfl, rfl, rfl, rfl, rfl⟩ fun b _ hp => hp.imp hs ?_
  rintro ⟨q₁, q₂, hq, hb⟩
  refine ⟨q₁, q₂, ?_, hb.imp_left fun hb => List.mem_append_left _ hb⟩
  rw [perform_queue (not_ended _ (by exact hz))]
  exact hq

theorem Gate.abortSent {s : ParaSys δ} {g : Option TakeGate} (h : Gate length s g)
    (hs : s.obj.i_sendAbort = false) (hst : s.obj.i_state = .ACT_START) :
    Gate length ((code length).perform s (s.obj.abortSent, [])) g := by
  have hobj : ((code length).perform s (s.obj.abortSent, [])).obj = s.obj.abortSent := rfl
  match g with
  | none =>
    obtain ⟨hr, hg, hf⟩ := h
    have he : s.obj.abortSent = { s.obj with i_sendAbort := true, doing := .nothing } :=
      if_neg fun hn => hn hg
    rw [Gate, hobj, he]
    exact ⟨hr, hg, hf⟩
  | some ⟨_, true⟩ => exact absurd (hs.symm.trans h.2.2) nofun
  | some ⟨b, false⟩ =>
    obtain ⟨hr, hlt, hf⟩ := h
    rcases hf with ⟨hs', -⟩ | ⟨-, -, hk, -⟩
    · exact absurd (hs.symm.trans hs') nofun
    · rcases hk with ⟨hk, -⟩ | ⟨-, -, hi⟩
      · have he : s.obj.abortSent = { s.obj with
            i_sendAbort := true, i_paraGateFinish := s.obj.i_paraGate, i_paraGate := 0
            doing := .nothing } := if_pos (by rw [hk]; omega)
        rw [Gate, hobj, he]
        exact ⟨hr, hlt, .inl ⟨rfl, hk⟩⟩
      · exact absurd (hst.symm.trans hi) nofun

-- ---------------------------------------------------------------------------
-- The claim
-- ---------------------------------------------------------------------------

/-- `rs` is what the branches have returned, in their order, and all have. -/
def AllReturned (length : Nat) (tr : List (ParaObs δ)) (rs : List (Returned δ)) : Prop :=
  (List.range (length - 1)).map (returnOf tr) = rs.map some

/-- No branch has taken the gate in time. -/
def Ungated (tr : List (ParaObs δ)) : Prop := ∀ b, gateOf tr ≠ some ⟨b, false⟩

/-- What is to be sent: the result of the branch that has taken the gate before the aborts have
been sent; or the first error other than an abort; or an error if there has been an abort from
outside; or else all results. -/
structure Decides (tr : List (ParaObs δ)) (rs : List (Returned δ)) (v : Returned δ) : Prop where
  gate : ∀ b, gateOf tr = some ⟨b, false⟩ → rs[b]? = some v
  error : Ungated tr → ∀ r, rs.find? failed = some r → v = ⟨true, r.d⟩
  aborted : Ungated tr → rs.find? failed = none → .took .abort ∈ tr → v = ⟨true, Datum.aborted⟩
  values : Ungated tr → rs.find? failed = none → .took .abort ∉ tr →
    v = ⟨false, Datum.array (rs.map (·.d))⟩

def Verdict (length : Nat) (tr : List (ParaObs δ)) (v : Returned δ) : Prop :=
  ∃ rs, AllReturned length tr rs ∧ Decides tr rs v

structure ParaLaw (length : Nat) (tr : List (ParaObs δ)) (s : ParaSys δ) : Prop where
  once : (tr.filterMap Obs.sent?).length ≤ 1
  value : ∀ before v after, tr = before ++ .sent v :: after → Verdict length before v
  answers : s.running = [] → s.queue = [] → s.obj.doing = .nothing →
    (tr.filterMap Obs.sent?).length = 1

-- ---------------------------------------------------------------------------
-- What is recorded
-- ---------------------------------------------------------------------------

structure Recorded (length : Nat) (tr : List (ParaObs δ)) (s : ParaSys δ) : Prop where
  known : Known length s
  returns : Caller.Returns tr s
  heard : .took .abort ∈ tr ↔ s.aborted = true
  events : ∀ k m, s.obj.i_returnEvent.lookup (k + 1) = some m → returnOf tr k = some m
  gate : s.obj.i_state ≠ .ZOM → Gate length s (gateOf tr)

omit [Datum δ] in
theorem gateOf_returned {os : List (ParaObs δ)} (hos : ∀ o ∈ os, ∃ k m, o = .returned k m) :
    gateOf os = none := by
  refine List.findSome?_eq_none_iff.mpr fun o ho => ?_
  obtain ⟨k, m, rfl⟩ := hos o ho
  rfl

omit [Datum δ] in
theorem Gate.recv {s : ParaSys δ} {p : TakeGate} (h : Gate length s (some p)) :
    s.obj.i_paraGateRecv = true := by
  obtain ⟨b, late⟩ := p
  cases late with
  | true => exact h.1
  | false => exact h.1

theorem Recorded.told {s t : ParaSys δ} {tr os : List (ParaObs δ)} (h : Recorded length tr s)
    (ht : Told (code length) s t os) (hz : t.obj.i_state ≠ .ZOM) :
    Gate length t (gateOf (tr ++ os)) := by
  have hsound := h.known.sound
  obtain ⟨hni, hinv⟩ := ht.made hsound
  have hend := not_ended length hz
  have hperm : t.opened.Perm s.opened := ht.opened fun ho => absurd (ho.symm.trans hend) nofun
  have hsame (hobj : t.obj = s.obj) (hos : (gateOf tr).or (gateOf os) = gateOf tr) :
      Gate length t (gateOf (tr ++ os)) := by
    rw [gateOf_append, hos]
    refine (h.gate (hobj ▸ hz)).same (by rw [hobj]; exact ⟨rfl, rfl, rfl, rfl, rfl, rfl⟩) ?_
    exact fun b _ hp => hp.told ht (by rw [hobj]) hsound.nodup hend hperm
  rcases ht.how with ⟨hobj, hos⟩ | ⟨p, ns, hp, rfl, hq⟩
  · exact hsame hobj (by rw [gateOf_returned hos, Option.or_none])
  · obtain ⟨-, -, he⟩ := poke_eq hp
    have hf : Frame s.obj (s.obj.i_doParaGate p.branch).1 := i_doParaGate_frame
    rw [he] at hf
    have hzs : s.obj.i_state ≠ .ZOM := fun hs => hz (hf.i_state.trans hs)
    have hg := h.gate hzs
    cases hgate : gateOf tr with
    | some g =>
      rw [hgate] at hg
      unfold i_doParaGate at he
      rw [hg.recv, if_pos rfl] at he
      obtain ⟨hobj, -⟩ := Prod.mk.inj he
      exact hsame hobj.symm (by rw [hgate]; rfl)
    | none =>
      rw [hgate] at hg
      rw [if_neg (Bool.eq_false_iff.mp hend)] at hq
      have hrun : p.branch ∈ t.running := by
        refine (running_or_returned hsound.nodup hperm hq (poke_eq hp).1).resolve_right ?_
        rintro ⟨m, hm⟩
        simp at hm
      have hnew := gate_taken h.known hg hp hzs hinv hq hrun
      rw [gateOf_append, hgate]
      exact hnew

/-- The branch `b` has not returned when the last return is taken: so the aborts have been sent. -/
theorem Pending.not_last {s : ParaSys δ} {q : List (Input (Returned δ) Unit)} (h : Pending b s)
    (hs : Sound (code length) (Inv length) (waits length) s) (ha : Acting length s.obj)
    (hd : s.obj.doing = .nothing) (hq : s.queue = .ret k m :: q)
    (hl : (s.obj.left length).erase k = []) : False := by
  rcases h with ⟨i, hi⟩ | ⟨q₁, q₂, hsplit, hb⟩
  · exact absurd (hd.symm.trans hi) nofun
  · rw [hq] at hsplit
    have hmem : b ∈ s.running ++ q.filterMap Input.returned := by
      cases q₁ with
      | nil => cases (List.cons.inj hsplit).1
      | cons i q₁ =>
        rcases hb with hb | ⟨m', hm'⟩
        · exact List.mem_append_left _ hb
        · refine List.mem_append_right _ (List.mem_filterMap.mpr ⟨.ret b m', ?_, rfl⟩)
          rw [(List.cons.inj hsplit).2]
          exact List.mem_append_right _ (List.mem_cons_of_mem _ hm')
    have hopen : (s.running ++ q.filterMap Input.returned).Perm ((s.obj.left length).erase k) := by
      refine (opened_take hq).trans ?_
      rw [← ha.waits_eq]
      exact hs.open_.erase k
    rw [hl] at hopen
    rw [hopen.eq_nil] at hmem
    cases hmem

/-- The branches' results that are recorded are those that have been returned. -/
theorem Recorded.record {s : ParaSys δ} {tr : List (ParaObs δ)}
    {q : List (Input (Returned δ) Unit)} (h : Recorded length tr s)
    (hq : s.queue = .ret k m :: q) {x : Returned δ}
    (hx : (s.obj.record k m).i_returnEvent.lookup (j + 1) = some x) : returnOf tr j = some x := by
  rw [PigPara.record, List.lookup_cons] at hx
  by_cases hj : j = k
  · subst hj
    rw [beq_self_eq_true] at hx
    rw [← Option.some.inj hx]
    exact h.returns.taken hq
  · have hne : (j + 1 == k + 1) = false := by simpa using hj
    rw [hne] at hx
    exact h.events j x hx

omit [Datum δ] in
/-- When no branch is left each has its result recorded. -/
theorem exists_event (h : s.left length = []) (hj : j < length - 1) :
    ∃ x, s.i_returnEvent.lookup (j + 1) = some x := by
  rw [← Option.isSome_iff_exists, Option.isSome_iff_ne_none]
  intro hn
  have hmem : j ∈ s.left length := mem_left.mpr ⟨hj, hn⟩
  rw [h] at hmem
  cases hmem

theorem results_eq (h : s.callFunc = List.range (length - 1)) :
    s.results = (List.range (length - 1)).map fun j => s.returnEvent (j + 1) := by
  rw [results, h, List.length_range, List.range'_eq_map_range, List.map_map]
  refine List.map_congr_left fun j _ => ?_
  rw [Function.comp_apply, Nat.add_comm]

theorem allReturned {tr : List (ParaObs δ)} (hc : s.callFunc = List.range (length - 1))
    (hl : s.left length = [])
    (hr : ∀ j x, s.i_returnEvent.lookup (j + 1) = some x → returnOf tr j = some x) :
    AllReturned length tr s.results := by
  rw [AllReturned, results_eq hc, List.map_map]
  refine List.map_congr_left fun j hj => ?_
  obtain ⟨x, hx⟩ := exists_event hl (List.mem_range.mp hj)
  rw [hr j x hx, Function.comp_apply, returnEvent, hx]
  rfl

theorem decides_ungated {tr : List (ParaObs δ)} (hf : s.i_paraGateFinish = 0) (hu : Ungated tr)
    (ha : .took .abort ∈ tr ↔ s.i_abort = true) : Decides tr s.results s.outcome := by
  have he : s.outcome = match s.results.find? failed with
      | some v => ⟨true, v.d⟩
      | none =>
        if s.i_abort then ⟨true, Datum.aborted⟩
        else ⟨false, Datum.array (s.results.map (·.d))⟩ := if_neg fun hn => hn hf
  rw [he]
  refine ⟨fun b hb => absurd hb (hu b), fun _ r hr => ?_, fun _ hn h => ?_, fun _ hn h => ?_⟩
  · rw [hr]
  · rw [hn]
    exact if_pos (ha.mp h)
  · rw [hn]
    exact if_neg fun h' => h (ha.mpr h')

theorem decides_gated {tr : List (ParaObs δ)} (hf : s.i_paraGateFinish = b + 1)
    (hg : gateOf tr = some ⟨b, false⟩) (hb : b < length - 1)
    (hc : s.callFunc = List.range (length - 1)) : Decides tr s.results s.outcome := by
  have he : s.outcome = s.returnEvent (b + 1) := by
    rw [outcome, if_pos (by rw [hf]; omega), hf]
    rfl
  refine ⟨fun b' hb' => ?_, fun hu => absurd hg (hu b), fun hu => absurd hg (hu b),
    fun hu => absurd hg (hu b)⟩
  obtain rfl : b = b' := (TakeGate.mk.inj (Option.some.inj (hg.symm.trans hb'))).1
  rw [results_eq hc, List.getElem?_map, List.getElem?_range hb, he]
  rfl

/-- The last return has been taken: what is sent is what all branches have returned. -/
theorem Recorded.last {s : ParaSys δ} {tr : List (ParaObs δ)} {q : List (Input (Returned δ) Unit)}
    (h : Recorded length tr s) (hinv : Inv length s.aborted s.obj) (ha : Acting length s.obj)
    (hd : s.obj.doing = .nothing)
    (hq : s.queue = .ret k m :: q) (hl : (s.obj.left length).erase k = []) :
    Verdict length (tr ++ [Obs.took (.ret k m)]) (s.obj.record k m).outcome := by
  have hleft : (s.obj.record k m).left length = [] := left_record.trans hl
  have hgate : gateOf (tr ++ [Obs.took (.ret k m)]) = gateOf tr := by
    rw [gateOf_append, show gateOf [(.took (.ret k m) : ParaObs δ)] = none from rfl, Option.or_none]
  have habort : .took .abort ∈ tr ++ [Obs.took (.ret k m)] ↔ (s.obj.record k m).i_abort = true := by
    rw [List.mem_append, or_iff_left (by simp), h.heard, ← hinv.i_abort]
    rfl
  refine ⟨(s.obj.record k m).results, allReturned ha.callFunc hleft fun j x hx => ?_, ?_⟩
  · rw [returnOf_append, h.record hq hx]
    rfl
  · have hg := h.gate (by rw [ha.i_state]; nofun)
    have hnone (hu : ∀ b, gateOf tr ≠ some ⟨b, false⟩)
        (hf : (s.obj.record k m).i_paraGateFinish = 0) :
        Decides (tr ++ [Obs.took (.ret k m)]) (s.obj.record k m).results (s.obj.record k m).outcome :=
      decides_ungated hf (fun b => hgate ▸ hu b) habort
    match hgo : gateOf tr with
    | none =>
      rw [hgo] at hg
      exact hnone (fun b hb => absurd (hgo.symm.trans hb) nofun) hg.2.2
    | some ⟨b, true⟩ =>
      rw [hgo] at hg
      refine hnone (fun b hb => ?_) hg.2.1
      cases hgo.symm.trans hb
    | some ⟨b, false⟩ =>
      rw [hgo] at hg
      obtain ⟨-, hlt, hf⟩ := hg
      refine decides_gated ?_ (hgate.trans hgo) hlt ha.callFunc
      refine (hf.resolve_right fun ⟨_, _, _, hp⟩ => ?_).2
      exact hp.not_last h.known.sound ha hd hq hl

theorem first_made (length n : Nat) :
    ((code (δ := δ) length).handle n (code length).start .initial).1.i_paraGateRecv = false ∧
    ((code (δ := δ) length).handle n (code length).start .initial).1.i_paraGate = 0 ∧
    ((code (δ := δ) length).handle n (code length).start .initial).1.i_paraGateFinish = 0 ∧
    ((code (δ := δ) length).handle n (code length).start .initial).1.i_returnEvent = [] := by
  simp only [code, handle, INI_TINYSTATE_START]
  unfold make
  split <;> exact ⟨rfl, rfl, rfl, rfl⟩

theorem Recorded.took {s : ParaSys δ} {tr : List (ParaObs δ)} {i : Input (Returned δ) Unit}
    {q : List (Input (Returned δ) Unit)} (h : Recorded length tr s) (hq : s.queue = i :: q)
    (hwork : (code length).work s.started s.obj = none)
    (hz : ((code length).handle s.started s.obj i).1.i_state ≠ .ZOM) : Gate length
      ((code length).perform { s with queue := q, aborted := s.aborted || i.isAbort }
        ((code length).handle s.started s.obj i)) (gateOf tr) := by
  rcases h.known.took hq hwork with ⟨rfl, rfl, rfl⟩ | ⟨ha, -, hd, ht⟩
  · have hg := h.gate nofun
    match hgo : gateOf tr with
    | none =>
      obtain ⟨hr, hp, hf, -⟩ := first_made (δ := δ) length 0
      exact ⟨hr, hp, hf⟩
    | some g =>
      rw [hgo] at hg
      exact absurd hg.recv nofun
  · exact (h.gate (by rw [ha.i_state]; nofun)).take ht hd hq hz

theorem Recorded.took_events {s : ParaSys δ} {tr : List (ParaObs δ)} {i : Input (Returned δ) Unit}
    {q : List (Input (Returned δ) Unit)} (h : Recorded length tr s) (hq : s.queue = i :: q)
    (hwork : (code length).work s.started s.obj = none) {x : Returned δ}
    (hx : ((code length).handle s.started s.obj i).1.i_returnEvent.lookup (j + 1) = some x) :
    returnOf tr j = some x := by
  rcases h.known.took hq hwork with ⟨rfl, rfl, rfl⟩ | ⟨ha, -, hd, ht⟩
  · have hnil := (first_made (δ := δ) length 0).2.2.2
    rw [show (code (δ := δ) length).initial.started = 0 from rfl,
      show (code (δ := δ) length).initial.obj = (code length).start from rfl, hnil] at hx
    cases hx
  · generalize (code length).handle s.started s.obj i = r at ht hx
    cases ht with
    | abort => exact h.events j x hx
    | note _ _ => exact h.events j x hx
    | ret _ _ => exact h.record hq hx
    | last _ => exact h.record hq hx

theorem Known.worked_events {s : ParaSys δ} (h : Known length s)
    (hr : (code length).work s.started s.obj = some r) :
    r.1.i_returnEvent = s.obj.i_returnEvent := by
  rcases h.worked hr with ⟨k, hm, rfl⟩ | ha
  · exact (make_same _ _ _ _).2.2.2.2.2
  · rcases work_goes ha hr with ⟨es, doing, -, rfl, -⟩ | ⟨-, rfl⟩
    · rfl
    · unfold PigPara.abortSent
      split <;> rfl

theorem Recorded.worked {s : ParaSys δ} {tr : List (ParaObs δ)} (h : Recorded length tr s)
    (hr : (code length).work s.started s.obj = some r) (hz : r.1.i_state ≠ .ZOM) :
    Gate length ((code length).perform s r) (gateOf tr) := by
  rcases h.known.worked hr with ⟨k, hm, rfl⟩ | ha
  · exact (h.gate (by rw [hm.i_state]; nofun)).made hm hz
  · have hst : s.obj.i_state ≠ .ZOM := by
      rw [ha.i_state]
      nofun
    rcases work_goes ha hr with ⟨es, doing, -, rfl, -, -, hs⟩ | ⟨hd, rfl⟩
    · exact (h.gate hst).goes hst hs
    · exact (h.gate hst).abortSent (ha.unsent 0 hd) ha.i_state

theorem Recorded.step {s t : ParaSys δ} {a : ParaAct δ} {tr os : List (ParaObs δ)} (h1 : 1 < length)
    (h : Recorded length tr s) (hs : (code length).step s a = some (t, os)) :
    Recorded length (tr ++ os) t := by
  have hold {k : Nat} {m : Returned δ} (hm : returnOf tr k = some m) :
      returnOf (tr ++ os) k = some m := returnOf_append_of_some hm
  refine ⟨h.known.step h1 hs, h.known.sound.returns_step h.returns hs, heard_step h.heard hs,
    ?events, ?gate⟩
  case events =>
    intro k m hm
    refine hold ?_
    cases step_cases hs with
    | told _ ht =>
      rcases ht.how with ⟨hobj, -⟩ | ⟨p, ns, hp, -⟩
      · exact h.events k m (hobj ▸ hm)
      · obtain ⟨-, -, he⟩ := poke_eq hp
        have hf : Frame s.obj (s.obj.i_doParaGate p.branch).1 := i_doParaGate_frame
        rw [he] at hf
        exact h.events k m (hf.i_returnEvent ▸ hm)
    | took hwork hq => exact h.took_events hq hwork hm
    | @worked r hr =>
      have hx : r.1.i_returnEvent.lookup (k + 1) = some m := hm
      rw [h.known.worked_events hr] at hx
      exact h.events k m hx
  case gate =>
    intro hz
    cases step_cases hs with
    | told _ ht => exact h.told ht hz
    | took hwork hq =>
      have hos {n : Nat} {i : Input (Returned δ) Unit} {es : List (Effect Nat (Returned δ))} :
          gateOf (.took i :: observe n es : List (ParaObs δ)) = none := gateOf_observe
      rw [gateOf_append, hos, Option.or_none]
      exact h.took hq hwork hz
    | worked hr =>
      rw [gateOf_append, gateOf_observe, Option.or_none]
      exact h.worked hr hz

theorem run_recorded {s : ParaSys δ} {tr : List (ParaObs δ)} (h1 : 1 < length)
    (h : (code length).machine.Run tr s) : Recorded length tr s := by
  refine h.invariant (I := Recorded length) ?start ?step
  case start =>
    rintro s rfl
    exact ⟨.initial h1, ⟨nofun, fun _ _ => rfl, nofun⟩, ⟨nofun, nofun⟩, nofun,
      fun _ => ⟨rfl, rfl, rfl⟩⟩
  case step =>
    intro tr s a t os _ h _ hs
    exact h.step h1 hs

omit [Datum δ] in
theorem make_sends (s : PigPara δ) (i : Nat) : (s.make length n i).2.countP Effect.isSend = 0 := by
  unfold make
  split <;> rfl

/-- The result is sent with the last return. -/
theorem Recorded.sent {s t : ParaSys δ} {a : ParaAct δ} {tr os before after : List (ParaObs δ)}
    {v : Returned δ} (h : Recorded length tr s) (hs : (code length).step s a = some (t, os))
    (he : os = before ++ Obs.sent v :: after) : Verdict length (tr ++ before) v := by
  cases step_cases hs with
  | told _ ht =>
    have hmem : .sent v ∈ os := he ▸ List.mem_append_right _ List.mem_cons_self
    exact absurd hmem (ht.not_mem nofun nofun)
  | @took i q hwork hq =>
    obtain ⟨mid, rfl, hmid⟩ : ∃ mid, before = .took i :: mid ∧
        observe s.started ((code length).handle s.started s.obj i).2 = mid ++ Obs.sent v :: after := by
      cases before with
      | nil => cases he
      | cons o mid =>
        obtain ⟨rfl, hmid⟩ := List.cons.inj he
        exact ⟨mid, rfl, hmid⟩
    have hsend := sent_mem_observe (hmid ▸ List.mem_append_right _ List.mem_cons_self)
    rcases h.known.took hq hwork with ⟨rfl, rfl, rfl⟩ | ⟨ha, hi, hd, ht⟩
    · exact absurd (make_sends _ _) hsend
    · generalize (code length).handle s.started s.obj i = r at ht hmid hsend
      cases ht with
      | abort => exact absurd rfl hsend
      | note _ _ => exact absurd rfl hsend
      | ret _ _ => exact absurd rfl hsend
      | @last k m hl =>
        cases mid with
        | nil =>
          obtain rfl : (s.obj.record k m).outcome = v := Obs.sent.inj (List.cons.inj hmid).1
          exact h.last hi ha hd hq hl
        | cons o mid =>
          exact absurd (List.cons.inj hmid).2.symm
            (List.append_ne_nil_of_right_ne_nil _ (List.cons_ne_nil _ _))
  | @worked r hr =>
    have hsend := sent_mem_observe (he ▸ List.mem_append_right _ List.mem_cons_self)
    rcases h.known.worked hr with ⟨k, hm, rfl⟩ | ha
    · exact absurd (make_sends _ _) hsend
    · rcases work_goes ha hr with ⟨es, doing, -, rfl, -, hnone, -⟩ | ⟨-, rfl⟩
      · exact absurd hnone hsend
      · exact absurd rfl hsend

theorem run_value {s : ParaSys δ} {tr : List (ParaObs δ)} (h1 : 1 < length)
    (h : (code length).machine.Run tr s) {before after : List (ParaObs δ)} {v : Returned δ}
    (he : tr = before ++ Obs.sent v :: after) : Verdict length before v := by
  have hall : ∀ before after, tr = before ++ Obs.sent v :: after → Verdict length before v := by
    refine h.invariant (I := fun tr _ => ∀ before after, tr = before ++ Obs.sent v :: after →
      Verdict length before v) ?start ?step
    case start =>
      intro s _ before after he
      exact absurd he.symm (List.append_ne_nil_of_right_ne_nil _ (List.cons_ne_nil _ _))
    case step =>
      intro tr s a t os hr ih _ hs before after he
      rcases Machine.append_eq_cons he with ⟨mid, htr, -⟩ | ⟨mid, hos, rfl⟩
      · exact ih before mid htr
      · exact (run_recorded h1 hr).sent hs hos
  exact hall before after he

theorem Recorded.quiet {s : ParaSys δ} {tr : List (ParaObs δ)} (h : Recorded length tr s)
    (hrun : s.running = []) (hq : s.queue = []) (hd : s.obj.doing = .nothing) :
    s.obj.i_state = .ZOM := by
  have hnil : s.opened = [] := by
    rw [Sys.opened, hrun, hq]
    rfl
  have hwaits := (hnil ▸ h.known.sound.open_).symm.eq_nil
  rcases h.known.sound.begun with rfl | ⟨-, hi⟩
  · cases hq
  · rcases hi.phase with ⟨k, hm⟩ | ha | ⟨hz, -⟩
    · exact absurd (hd.symm.trans hm.doing) (fun h => by cases h)
    · rw [ha.waits_eq] at hwaits
      exact absurd hwaits ha.open_
    · exact hz

theorem run_law {s : ParaSys δ} {tr : List (ParaObs δ)} (h1 : 1 < length)
    (h : (code length).machine.Run tr s) : ParaLaw length tr s := by
  have hsent := (lawful h1).sent (numbered_run h1 h)
  refine ⟨?_, fun before v after he => run_value h1 h he, fun hrun hq hd => ?_⟩
  · rw [hsent]
    exact Bool.toNat_le _
  · rw [hsent, ended_iff.mpr ((run_recorded h1 h).quiet hrun hq hd)]
    rfl

-- ---------------------------------------------------------------------------
-- Fair runs
-- ---------------------------------------------------------------------------

/-- When all branches have been made none is made again. -/
theorem Known.later {s t : ParaSys δ} {a : ParaAct δ} {os : List (ParaObs δ)}
    (h : Known length s) (hs : (code length).step s a = some (t, os))
    (hm : s.obj.i_state ≠ .INI_TINYSTATE_START) :
    t.obj.i_state ≠ .INI_TINYSTATE_START ∧ t.started = s.started := by
  cases step_cases hs with
  | told _ ht =>
    refine ⟨?_, ht.started⟩
    rcases ht.how with ⟨hobj, -⟩ | ⟨p, ns, hp, -⟩
    · rw [hobj]
      exact hm
    · obtain ⟨-, -, he⟩ := poke_eq hp
      have hf : Frame s.obj (s.obj.i_doParaGate p.branch).1 := i_doParaGate_frame
      rw [he] at hf
      rw [hf.i_state]
      exact hm
  | @took i q hwork hq =>
    rcases h.took hq hwork with ⟨rfl, -⟩ | ⟨-, -, -, ht⟩
    · exact absurd rfl hm
    · generalize (code length).handle s.started s.obj i = r at ht ⊢
      cases ht with
      | abort => exact ⟨hm, rfl⟩
      | note _ _ => exact ⟨hm, rfl⟩
      | ret _ _ => exact ⟨hm, rfl⟩
      | last _ => exact ⟨nofun, rfl⟩
  | @worked r hr =>
    rcases h.worked hr with ⟨k, hk, rfl⟩ | ha
    · exact absurd hk.i_state hm
    · rcases work_goes ha hr with ⟨es, doing, -, rfl, hl, -⟩ | ⟨-, rfl⟩
      · exact ⟨hm, congrArg (s.started + ·) hl⟩
      · refine ⟨?_, rfl⟩
        have hst : s.obj.abortSent.i_state = s.obj.i_state := by
          unfold PigPara.abortSent
          split <;> rfl
        exact fun h => hm (hst.symm.trans h)

section Behaviors

variable {bh : (code (δ := δ) length).machine.Behavior}

theorem known_at (h1 : 1 < length) (j : Nat) : Known length (bh.state j) :=
  known_run h1 (bh.runIf (fun _ => trivial) j)

theorem Known.took_ret {s t : ParaSys δ} {a : ParaAct δ} {os : List (ParaObs δ)}
    (h : Known length s) (hs : (code length).step s a = some (t, os))
    (hm : .took (.ret k m) ∈ os) : s.obj.i_state = .ACT_START := by
  cases step_cases hs with
  | told _ ht => exact absurd hm (ht.not_mem nofun nofun)
  | @took i q hwork hq =>
    obtain rfl : .ret k m = i := Obs.took.inj ((List.mem_cons.mp hm).resolve_right took_observe)
    rcases h.took hq hwork with ⟨-, he, -⟩ | ⟨ha, -⟩
    · cases he
    · exact ha.i_state
  | worked hr => exact absurd hm took_observe

/-- The first event has been taken: a branch is being made, or all have been. -/
theorem Known.first {s t : ParaSys δ} {os : List (ParaObs δ)} (h : Known length s)
    (ht : Known length t) (hs : (code length).step s .take = some (t, os)) :
    t.opened ≠ [] ∨ t.obj.i_state ≠ .INI_TINYSTATE_START := by
  have hq : .initial ∉ t.queue := by
    cases step_cases hs with
    | told hne _ => exact absurd rfl hne
    | @took i q hwork hq =>
      intro hmem
      simp only [Code.perform] at hmem
      split at hmem
      · cases hmem
      · rcases h.sound.begun with rfl | ⟨hni, -⟩
        · obtain ⟨rfl, rfl⟩ := List.cons.inj hq
          cases hmem
        · exact hni (hq ▸ List.mem_cons_of_mem _ hmem)
  obtain ⟨-, hi⟩ := ht.sound.begun.resolve_left fun he => hq (he ▸ List.mem_singleton_self _)
  rcases hi.phase with ⟨k, hm⟩ | ha | ⟨hz, -⟩
  · refine .inl fun hnil => ?_
    have hw := ht.sound.open_
    rw [hm.waits_eq, hnil] at hw
    exact absurd hw.symm.eq_nil (by simp)
  · exact .inr (by rw [ha.i_state]; rintro ⟨⟩)
  · exact .inr (by rw [hz]; rintro ⟨⟩)

/-- There comes a time when all branches have been made. -/
theorem made_at (h1 : 1 < length) (hb : Fair bh) :
    ∃ j, (bh.state j).obj.i_state ≠ .INI_TINYSTATE_START := by
  obtain ⟨l, -, hact⟩ := hb.takes 0 (by rw [bh.start]; exact List.cons_ne_nil _ _)
  have hnext := bh.next l
  rw [hact] at hnext
  rcases (known_at h1 l).first (known_at h1 (l + 1)) hnext with hopen | hm
  · obtain ⟨k, hk⟩ := List.exists_mem_of_ne_nil _ hopen
    obtain ⟨j, -, m, htook⟩ := hb.taken (lawful h1) (fun j => (known_at h1 j).numbered) hk
    refine ⟨j, ?_⟩
    rw [(known_at h1 j).took_ret (bh.next j) htook]
    nofun
  · exact ⟨l + 1, hm⟩

theorem sent_at (h1 : 1 < length) (hb : Fair bh) : ∃ j v, .sent v ∈ bh.obs j := by
  obtain ⟨n, hn⟩ := made_at h1 hb
  have hmade : ∀ j, n ≤ j → (bh.state j).obj.i_state ≠ .INI_TINYSTATE_START := by
    intro j hj
    induction j, hj using Nat.le_induction with
    | base => exact hn
    | succ j _ ih => exact ((known_at h1 j).later (bh.next j) ih).1
  obtain ⟨j, hj, hw⟩ := hb.closes (n := n) (lawful h1) (fun j => (known_at h1 j).numbered)
    fun j hj => ((known_at h1 j).later (bh.next j) (hmade j hj)).2
  have hz : (bh.state j).obj.i_state = .ZOM := by
    have hk : Known length (bh.state j) := known_at h1 j
    rcases hk.sound.begun with he | ⟨-, hi⟩
    · refine absurd ?_ (hmade j hj)
      rw [he]
      rfl
    · rcases hi.phase with ⟨k, hm⟩ | ha | ⟨hz, -⟩
      · exact absurd hm.i_state (hmade j hj)
      · rw [ha.waits_eq] at hw
        exact absurd hw ha.open_
      · exact hz
  have hsent := (lawful h1).sent (numbered_run h1 (bh.run j))
  rw [ended_iff.mpr hz] at hsent
  refine exists_sent (n := j) fun hnil => ?_
  rw [hnil] at hsent
  cases hsent

end Behaviors

end PigPara

open PigPara

/-- With one branch or more `para` sends its result once, when all branches have returned, and it
is what is to be sent; and in a fair run it is sent. -/
theorem para_law {δ : Type} [Datum δ] {length : Nat} (h : 1 < length) :
    (∀ tr s, (code (δ := δ) length).machine.Run tr s → ParaLaw length tr s) ∧
      ∀ b : (code (δ := δ) length).machine.Behavior, Fair b → ∃ j v, .sent v ∈ b.obs j :=
  ⟨fun _ _ hr => run_law h hr, fun _ hb => sent_at h hb⟩

/-- Data as the text that it is shown as. -/
structure Shown where
  text : String
deriving DecidableEq

instance : Datum Shown where
  undefined := ⟨"undefined"⟩
  aborted := ⟨"aborted"⟩
  array ds := ⟨",".intercalate (ds.map Shown.text)⟩
  eqAborted d := d.text == "aborted"

/-- The second of two branches fails while the first is running. -/
theorem para_law_failed : ∃ tr s, (code (δ := Shown) 3).machine.Run tr s ∧
    (.forwarded 0 ∈ tr ∧ .sent ⟨true, ⟨"e"⟩⟩ ∈ tr) ∧ ParaLaw 3 tr s := by
  obtain ⟨tr, s, h, hp⟩ := Machine.exists_run (M := (code (δ := Shown) 3).machine)
    (C := fun _ _ => True) (P := fun tr _ => .forwarded 0 ∈ tr ∧ .sent ⟨true, ⟨"e"⟩⟩ ∈ tr)
    [.take, .go, .go, .ret 1 ⟨true, ⟨"e"⟩⟩, .take, .go, .go, .go, .ret 0 ⟨true, ⟨"aborted"⟩⟩, .take]
    rfl (by decide +kernel)
  exact ⟨tr, s, h, hp, (para_law (by decide)).1 tr s h⟩

/-- `para` is aborted from outside, and so is its one branch: no branch has failed for another
reason, and it is not the list of results that is sent. -/
theorem para_aborted : ∃ before after s,
    (code (δ := Shown) 2).machine.Run (before ++ .sent ⟨true, ⟨"aborted"⟩⟩ :: after) s ∧
    gateOf before = none ∧ AllReturned 2 before [⟨true, ⟨"aborted"⟩⟩] ∧
    [(⟨true, ⟨"aborted"⟩⟩ : Returned Shown)].find? failed = none ∧
    (⟨true, ⟨"aborted"⟩⟩ : Returned Shown) ≠ ⟨false, Datum.array [⟨"aborted"⟩]⟩ := by
  obtain ⟨tr, s, h, rfl⟩ := Machine.exists_run (M := (code (δ := Shown) 2).machine)
    (C := fun _ _ => True)
    (P := fun tr _ => tr = [.took .initial, .launched 0 1, .took .abort, .forwarded 0,
      .returned 0 ⟨true, ⟨"aborted"⟩⟩, .took (.ret 0 ⟨true, ⟨"aborted"⟩⟩)] ++
        .sent ⟨true, ⟨"aborted"⟩⟩ :: [])
    [.take, .go, .abort, .take, .go, .go, .ret 0 ⟨true, ⟨"aborted"⟩⟩, .take]
    rfl (by decide +kernel)
  exact ⟨_, _, s, h, rfl, rfl, rfl, by decide⟩

end TinyState.Js
