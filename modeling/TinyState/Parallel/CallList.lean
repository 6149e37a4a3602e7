import TinyState.Event
import TinyState.Lib.Coalescing

/-!
# tsCallList

The list keeps the `TSE_RETURN` events that come before `finish`, sorts them into
the result array when it learns of `finish`, and from then on looks whether all
callees have returned whenever another `TSE_RETURN` comes. It does not look when
it learns of `finish`, so it needs one that comes late.
-/

namespace TinyState

open Transition

/-- `stdEvent` with its `source` and what it carries. -/
structure CallEvent (ω ν : Type) where
  type : EventType
  source : ω
  msg : ν
  deriving DecidableEq, Repr

inductive CallListState
  | iniWait
  | actStart
  | finTinyStateStart
  deriving DecidableEq, Repr

/-- `tsCallList` and its event queue. `finishing` says that `finish` has set the
flag and has not called `wakeup` yet. The last three fields are history: the
callees in the order of the calls, the `TSE_RETURN` events that have been sent,
and whether one has been evaluated with `finish_flag` set. -/
structure CallList (ω ν : Type) where
  list : List (Option ω)
  ret : List (Option (CallEvent ω ν))
  eq : List (CallEvent ω ν)
  finishFlag : Bool
  state : CallListState
  queue : List (CallEvent ω ν)
  finishing : Bool
  callees : List ω
  returned : List (CallEvent ω ν)
  late : Bool

inductive CallListAct (ω ν : Type)
  | call (caller : ω)
  /-- `TSE_RETURN` of the source. -/
  | ret (source : ω) (msg : ν)
  /-- Any other event. -/
  | event (ev : CallEvent ω ν)
  | finish
  /-- The `wakeup` of `finish`. -/
  | wakeup (self : ω) (msg : ν)
  /-- `eventHandler` evaluates the next event. -/
  | eval
  deriving DecidableEq, Repr

namespace CallList

variable {ω ν : Type} [DecidableEq ω]

def isRet (ev : CallEvent ω ν) : Bool := ev.type == .ret

/-- `_insEvent`. -/
def insEvent (s : CallList ω ν) (ev : CallEvent ω ν) : CallList ω ν :=
  if Coalescing.Merges CallEvent.type EventType.Coalesced s.queue ev then s
  else { s with queue := s.queue ++ [ev] }

/-- The body of the loop of `INI_WAIT` over the events that have been kept. -/
def collect (s : CallList ω ν) (ev : CallEvent ω ν) : CallList ω ν :=
  match s.list.findIdx? (· == some ev.source) with
  | none => s
  | some i => { s with
      ret := s.ret.set i (some ev)
      list := s.list.set i none }

/-- `ACT_START`, with `FIN_START` after it: the array goes to the parent. -/
def actStart (s : CallList ω ν) (ev : CallEvent ω ν) :
    CallList ω ν × List (List (Option (CallEvent ω ν))) :=
  if isRet ev then
    let s := { s with
      ret := List.zipWith (fun c r => if c = some ev.source then some ev else r) s.list s.ret
      list := s.list.map fun c => if c = some ev.source then none else c }
    if s.list.any Option.isSome then ({ s with state := .actStart }, [])
    else ({ s with state := .finTinyStateStart }, [s.ret])
  else ({ s with state := .actStart }, [])

def iniWait (s : CallList ω ν) (ev : CallEvent ω ν) :
    CallList ω ν × List (List (Option (CallEvent ω ν))) :=
  let s := if isRet ev then { s with eq := s.eq ++ [ev] } else s
  if s.finishFlag = false then (s, [])
  else { s.eq.foldl collect s with eq := [] }.actStart ev

def eval (s : CallList ω ν) (ev : CallEvent ω ν) :
    CallList ω ν × List (List (Option (CallEvent ω ν))) :=
  let s := { s with late := s.late || (isRet ev && s.finishFlag) }
  match s.state with
  | .iniWait => s.iniWait ev
  | .actStart => s.actStart ev
  | .finTinyStateStart => (s, [])

/-- Callees are distinct, are called before `finish`, and return once. -/
def step (s : CallList ω ν) :
    CallListAct ω ν → Option (CallList ω ν × List (List (Option (CallEvent ω ν))))
  | .call caller =>
    if s.finishFlag = false ∧ caller ∉ s.callees then
      some ({ s with
        list := s.list ++ [some caller]
        ret := s.ret ++ [none]
        callees := s.callees ++ [caller] }, [])
    else none
  | .ret source msg =>
    if source ∈ s.returned.map CallEvent.source then none
    else
      let ev := ⟨.ret, source, msg⟩
      some ({ s with returned := s.returned ++ [ev] }.insEvent ev, [])
  | .event ev => if isRet ev then none else some (s.insEvent ev, [])
  | .finish => if s.finishFlag then none else some ({ s with
      finishFlag := true
      finishing := true }, [])
  | .wakeup self msg =>
    if s.finishing then some ({ s with finishing := false }.insEvent ⟨.wakeup, self, msg⟩, [])
    else none
  | .eval =>
    match s.queue with
    | [] => none
    | ev :: q => some ({ s with queue := q }.eval ev)

/-- After `INI_START`. -/
def initial (ω ν : Type) : CallList ω ν where
  list := []
  ret := []
  eq := []
  finishFlag := false
  state := .iniWait
  queue := []
  finishing := false
  callees := []
  returned := []
  late := false

/-- What is observed is the result array that the parent gets. -/
def machine (ω ν : Type) [DecidableEq ω] :
    Machine (CallList ω ν) (CallListAct ω ν) (List (Option (CallEvent ω ν))) where
  init s := s = initial ω ν
  step := step

-- ---------------------------------------------------------------------------
-- The array
-- ---------------------------------------------------------------------------

variable {s t : CallList ω ν} {callees : List ω} {taken : List (CallEvent ω ν)}
  {ev : CallEvent ω ν}

/-- What the callees have returned, among the events that have been taken. -/
def results (callees : List ω) (taken : List (CallEvent ω ν)) : List (Option (CallEvent ω ν)) :=
  callees.map fun c => taken.find? fun ev => ev.source == c

/-- Who has not returned yet. -/
def missing (callees : List ω) (taken : List (CallEvent ω ν)) : List (Option ω) :=
  callees.map fun c => if taken.any fun ev => ev.source == c then none else some c

theorem missing_append : (missing callees taken).map
    (fun c => if c = some ev.source then none else c) = missing callees (taken ++ [ev]) := by
  simp only [missing, List.map_map]
  refine List.map_congr_left fun c _ => ?_
  simp only [Function.comp_apply, List.any_append]
  cases taken.any fun ev => ev.source == c with
  | true => rfl
  | false =>
    by_cases hc : ev.source = c
    · simp [hc]
    · simp [hc, Ne.symm hc]

theorem results_append : List.zipWith (fun c r => if c = some ev.source then some ev else r)
    (missing callees taken) (results callees taken) = results callees (taken ++ [ev]) := by
  simp only [missing, results, List.zipWith_map, List.zipWith_self]
  refine List.map_congr_left fun c _ => ?_
  rw [List.find?_append]
  by_cases ht : (taken.any fun ev => ev.source == c) = true
  · obtain ⟨e, he⟩ := List.find?_isSome.mpr (List.any_eq_true.mp ht) |> Option.isSome_iff_exists.mp
    simp [ht, he]
  · have hn : (taken.find? fun ev => ev.source == c) = none := by
      rw [List.find?_eq_none]
      simpa using ht
    by_cases hc : ev.source = c
    · simp [ht, hn, hc]
    · simp [ht, hn, hc, Ne.symm hc]

theorem missing_none : (missing callees taken).any Option.isSome = false ↔
    ∀ c ∈ callees, ∃ ev ∈ taken, ev.source = c := by
  simp [missing, List.any_map]

theorem missing_get {i : Nat} {x : ω} (h : (missing callees taken)[i]? = some (some x)) :
    callees[i]? = some x := by
  obtain ⟨c, hc, he⟩ := List.getElem?_map .. ▸ h |> Option.map_eq_some_iff.mp
  split at he
  · cases he
  · rw [hc]
    exact he

/-- Writing at the one place of `x` is writing at every place of `x`. -/
theorem set_eq_map {L : List (Option ω)} {x : ω} {i : Nat} (hi : L[i]? = some (some x))
    (hu : ∀ j, L[j]? = some (some x) → j = i) :
    L.set i none = L.map fun c => if c = some x then none else c := by
  refine List.ext_getElem? fun j => ?_
  rw [List.getElem?_set, List.getElem?_map]
  split
  · rename_i hj
    subst hj
    obtain ⟨hlt, hv⟩ := List.getElem?_eq_some_iff.mp hi
    simp [hlt, hv]
  · rename_i hj
    cases hL : L[j]? with
    | none => rfl
    | some c =>
      have hc : c ≠ some x := fun hc => hj (hu j (hc ▸ hL)).symm
      simp [hc]

theorem set_eq_zipWith {L : List (Option ω)} {R : List (Option (CallEvent ω ν))} {i : Nat}
    (hl : R.length = L.length) (hi : L[i]? = some (some ev.source))
    (hu : ∀ j, L[j]? = some (some ev.source) → j = i) :
    R.set i (some ev) = List.zipWith (fun c r => if c = some ev.source then some ev else r) L R := by
  refine List.ext_getElem? fun j => ?_
  rw [List.getElem?_set, List.getElem?_zipWith]
  obtain ⟨hlt, hv⟩ := List.getElem?_eq_some_iff.mp hi
  split
  · rename_i hj
    subst hj
    simp [hl, hlt, hv]
  · rename_i hj
    cases hL : L[j]? with
    | none =>
      have : R[j]? = none := by
        rw [List.getElem?_eq_none_iff] at hL ⊢
        omega
      simp [this]
    | some c =>
      have hc : c ≠ some ev.source := fun hc => hj (hu j (hc ▸ hL)).symm
      cases hR : R[j]? with
      | none => rfl
      | some r => simp [hc]

theorem map_unmatched {L : List (Option ω)} {x : ω} (h : ∀ c ∈ L, c ≠ some x) :
    L.map (fun c => if c = some x then none else c) = L := by
  conv_rhs => rw [← List.map_id L]
  exact List.map_congr_left fun c hc => if_neg (h c hc)

theorem zipWith_unmatched {L : List (Option ω)} {R : List (Option (CallEvent ω ν))}
    (hl : R.length = L.length) (h : ∀ c ∈ L, c ≠ some ev.source) :
    List.zipWith (fun c r => if c = some ev.source then some ev else r) L R = R := by
  refine List.ext_getElem? fun j => ?_
  rw [List.getElem?_zipWith]
  cases hL : L[j]? with
  | none =>
    symm
    rw [List.getElem?_eq_none_iff] at hL ⊢
    omega
  | some c =>
    have hc := h c (List.mem_of_getElem? hL)
    cases hR : R[j]? with
    | none => rfl
    | some r => simp [hc]

/-- The list and the array, when these events have been sorted in. -/
structure Sorted (s : CallList ω ν) (taken : List (CallEvent ω ν)) : Prop where
  list : s.list = missing s.callees taken
  ret : s.ret = results s.callees taken

theorem Sorted.collect (h : Sorted s taken) (hn : s.callees.Nodup) (ev : CallEvent ω ν) :
    Sorted (s.collect ev) (taken ++ [ev]) := by
  have hlen : s.ret.length = s.list.length := by
    rw [h.ret, h.list]
    simp [results, missing]
  unfold CallList.collect
  split
  · rename_i hf
    have hne : ∀ c ∈ s.list, c ≠ some ev.source := by
      intro c hc he
      have := List.findIdx?_eq_none_iff.mp hf c hc
      simp [he] at this
    constructor
    · rw [← missing_append, ← h.list, map_unmatched hne]
    · rw [← results_append, ← h.list, ← h.ret, zipWith_unmatched hlen hne]
  · rename_i i hf
    obtain ⟨hi, hx, -⟩ := List.findIdx?_eq_some_iff_getElem.mp hf
    have hx' : s.list[i]? = some (some ev.source) := by
      rw [List.getElem?_eq_getElem hi]
      simpa using hx
    have hu : ∀ j, s.list[j]? = some (some ev.source) → j = i := by
      intro j hj
      rw [h.list] at hj hx'
      have h₁ := missing_get hj
      have h₂ := missing_get hx'
      exact (List.getElem?_inj (List.getElem?_eq_some_iff.mp h₁).1 hn).mp (h₁.trans h₂.symm)
    constructor
    · change s.list.set i none = missing s.callees (taken ++ [ev])
      rw [set_eq_map hx' hu, h.list, missing_append]
    · change s.ret.set i (some ev) = results s.callees (taken ++ [ev])
      rw [set_eq_zipWith hlen hx' hu, h.ret, h.list, results_append]

-- ---------------------------------------------------------------------------
-- How far the list has got
-- ---------------------------------------------------------------------------

/-- Each callee has returned, as far as these events tell. -/
def AllReturned (callees : List ω) (taken : List (CallEvent ω ν)) : Prop :=
  ∀ c ∈ callees, ∃ ev ∈ taken, ev.source = c

omit [DecidableEq ω] in
theorem AllReturned.append (h : AllReturned callees taken) (more : List (CallEvent ω ν)) :
    AllReturned callees (taken ++ more) := by
  intro c hc
  obtain ⟨ev, he, hs⟩ := h c hc
  exact ⟨ev, List.mem_append_left more he, hs⟩

theorem AllReturned.results (h : AllReturned callees taken) (more : List (CallEvent ω ν)) :
    results callees (taken ++ more) = CallList.results callees taken := by
  refine List.map_congr_left fun c hc => ?_
  obtain ⟨ev, he, hs⟩ := h c hc
  obtain ⟨e, hf⟩ := Option.isSome_iff_exists.mp
    (List.find?_isSome (p := fun e => e.source == c).mpr ⟨ev, he, by simpa using hs⟩)
  rw [List.find?_append, hf]
  rfl

/-- Sorting an event in again changes nothing. -/
theorem again (callees : List ω) (h : ev ∈ taken) :
    missing callees (taken ++ [ev]) = missing callees taken ∧
      results callees (taken ++ [ev]) = results callees taken := by
  constructor
  · refine List.map_congr_left fun c _ => ?_
    rw [List.any_append]
    by_cases hc : ev.source = c
    · have : (taken.any fun e => e.source == c) = true :=
        List.any_eq_true.mpr ⟨ev, h, by simpa using hc⟩
      rw [this]
      rfl
    · simp [hc]
  · refine List.map_congr_left fun c _ => ?_
    rw [List.find?_append]
    by_cases hc : ev.source = c
    · obtain ⟨e, hf⟩ := Option.isSome_iff_exists.mp
        (List.find?_isSome (p := fun e => e.source == c).mpr ⟨ev, h, by simpa using hc⟩)
      rw [hf]
      rfl
    · simp [hc]

inductive Phase (tr : List (List (Option (CallEvent ω ν)))) (s : CallList ω ν)
    (taken : List (CallEvent ω ν)) : Prop
  | waiting : s.state = .iniWait → tr = [] → s.late = false → s.eq = taken → Sorted s [] →
      (s.finishFlag = true → s.finishing = true ∨ s.queue ≠ []) → Phase tr s taken
  | collecting : s.state = .actStart → tr = [] → s.finishFlag = true → Sorted s taken →
      (s.late = true → ¬AllReturned s.callees taken) → Phase tr s taken
  | ended : s.state = .finTinyStateStart → s.finishFlag = true → s.late = true →
      AllReturned s.callees taken → tr = [results s.callees taken] → Phase tr s taken

/-- The events that have been taken from the queue, and what has been made of them. -/
structure Collecting (tr : List (List (Option (CallEvent ω ν)))) (s : CallList ω ν) : Prop where
  callees : s.callees.Nodup
  phase : ∃ taken, s.returned = taken ++ s.queue.filter isRet ∧ Phase tr s taken

variable {tr os : List (List (Option (CallEvent ω ν)))}

theorem collect_frame (s : CallList ω ν) (ev : CallEvent ω ν) :
    ∃ list ret, s.collect ev = { s with
      list := list
      ret := ret } := by
  unfold CallList.collect
  split <;> exact ⟨_, _, rfl⟩

theorem foldl_collect_frame (es : List (CallEvent ω ν)) (s : CallList ω ν) :
    ∃ list ret, es.foldl collect s = { s with
      list := list
      ret := ret } := by
  induction es generalizing s with
  | nil => exact ⟨s.list, s.ret, rfl⟩
  | cons ev es ih =>
    obtain ⟨list, ret, he⟩ := collect_frame s ev
    obtain ⟨list', ret', h⟩ := ih (s.collect ev)
    refine ⟨list', ret', ?_⟩
    rw [List.foldl_cons, h, he]

theorem Sorted.foldl (es : List (CallEvent ω ν)) (hn : s.callees.Nodup) (h : Sorted s taken) :
    Sorted (es.foldl CallList.collect s) (taken ++ es) := by
  induction es generalizing s taken with
  | nil => simpa using h
  | cons ev es ih =>
    obtain ⟨list, ret, he⟩ := collect_frame s ev
    have hn' : (s.collect ev).callees.Nodup := by rw [he]; exact hn
    simpa using ih hn' (h.collect hn ev)

-- ---------------------------------------------------------------------------
-- Steps
-- ---------------------------------------------------------------------------

omit [DecidableEq ω] in
theorem insEvent_frame (s : CallList ω ν) (ev : CallEvent ω ν) :
    ∃ q, s.insEvent ev = { s with queue := q } ∧ q ≠ [] ∧
      q.filter isRet = s.queue.filter isRet ++ if isRet ev then [ev] else [] := by
  unfold insEvent
  split
  · rename_i hm
    obtain ⟨hc, b, hb, -⟩ := hm
    refine ⟨s.queue, rfl, List.ne_nil_of_mem hb, ?_⟩
    have hr : isRet ev = false := by
      rcases (coalesced_iff _).mp hc with h | h | h | h <;> simp [isRet, h]
    simp [hr]
  · refine ⟨s.queue ++ [ev], rfl, by simp, ?_⟩
    rw [List.filter_append]
    congr 1
    cases h : isRet ev <;> simp [h]

/-- An event is put into the queue; `finish` may have been waiting for it. -/
theorem Phase.insEvent (h : Phase tr s taken) (ev : CallEvent ω ν) (finishing : Bool) :
    Phase tr ({ s with finishing := finishing }.insEvent ev) taken := by
  obtain ⟨q, he, hq, -⟩ := insEvent_frame { s with finishing := finishing } ev
  rw [he]
  cases h with
  | waiting h₁ h₂ h₃ h₄ h₅ h₆ => exact .waiting h₁ h₂ h₃ h₄ ⟨h₅.list, h₅.ret⟩ fun _ => .inr hq
  | collecting h₁ h₂ h₃ h₄ h₅ => exact .collecting h₁ h₂ h₃ ⟨h₄.list, h₄.ret⟩ h₅
  | ended h₁ h₂ h₃ h₄ h₅ => exact .ended h₁ h₂ h₃ h₄ h₅

theorem Sorted.missing (h : Sorted s taken) :
    s.list.any Option.isSome = false ↔ AllReturned s.callees taken := by
  rw [h.list]
  exact missing_none

/-- `ACT_START` looks at a `TSE_RETURN`, which completes what has been taken. -/
theorem Phase.actStart {all : List (CallEvent ω ν)} (taken : List (CallEvent ω ν))
    (hf : s.finishFlag = true) (hl : s.late = true) (hr : isRet ev = true) (h : Sorted s taken)
    (hm : CallList.missing s.callees (taken ++ [ev]) = CallList.missing s.callees all)
    (hz : results s.callees (taken ++ [ev]) = results s.callees all) :
    Phase (s.actStart ev).2 (s.actStart ev).1 all := by
  have hlist : s.list.map (fun c => if c = some ev.source then none else c) =
      CallList.missing s.callees all := by rw [h.list, missing_append, hm]
  have hret : List.zipWith (fun c r => if c = some ev.source then some ev else r) s.list s.ret =
      results s.callees all := by rw [h.list, h.ret, results_append, hz]
  unfold CallList.actStart
  rw [if_pos hr]
  dsimp only
  rw [hlist, hret]
  split
  · rename_i ha
    refine .collecting rfl rfl hf ⟨rfl, rfl⟩ fun _ hall => ?_
    rw [missing_none.mpr hall] at ha
    cases ha
  · rename_i ha
    exact .ended rfl hf hl (missing_none.mp (by simpa using ha)) rfl

/-- `ACT_START` is left with any other event. -/
theorem actStart_other (hr : isRet ev = false) :
    s.actStart ev = ({ s with state := .actStart }, []) := by
  unfold CallList.actStart
  rw [hr]
  rfl

/-- `INI_WAIT` learns of `finish`: what has been kept is sorted in, and then
`ACT_START` looks at the event, which may be one of those. -/
theorem Phase.drain {kept : List (CallEvent ω ν)} (hn : s.callees.Nodup) (h : Sorted s [])
    (hf : s.finishFlag = true) (hl : s.late = isRet ev) (hk : isRet ev = true → ev ∈ kept) :
    Phase ({ kept.foldl collect s with eq := [] }.actStart ev).2
      ({ kept.foldl collect s with eq := [] }.actStart ev).1 kept := by
  obtain ⟨list, ret, he⟩ := foldl_collect_frame kept s
  have hs : Sorted (kept.foldl collect s) kept := h.foldl kept hn
  rw [he] at hs ⊢
  cases hr : isRet ev with
  | false =>
    rw [actStart_other hr]
    refine .collecting rfl rfl hf ⟨hs.list, hs.ret⟩ fun hl' => ?_
    rw [hr] at hl
    exact Bool.noConfusion (hl.symm.trans hl')
  | true =>
    obtain ⟨hm, hz⟩ := again s.callees (hk hr)
    exact Phase.actStart kept hf (hl.trans hr) hr ⟨hs.list, hs.ret⟩ hm hz

theorem Phase.iniWait (hn : s.callees.Nodup) (heq : s.eq = taken) (h : Sorted s [])
    (hst : s.state = .iniWait) (hl : s.late = (isRet ev && s.finishFlag)) :
    Phase (s.iniWait ev).2 (s.iniWait ev).1 (taken ++ if isRet ev then [ev] else []) := by
  have hkept : (if isRet ev then { s with eq := s.eq ++ [ev] } else s) =
      { s with eq := taken ++ if isRet ev then [ev] else [] } := by
    cases isRet ev <;> simp [← heq]
  unfold CallList.iniWait
  rw [hkept]
  by_cases hf : s.finishFlag = false
  · rw [if_pos hf]
    exact .waiting hst rfl (by simpa [hf] using hl) rfl ⟨h.list, h.ret⟩ fun ht => by
      rw [hf] at ht
      cases ht
  · rw [if_neg hf]
    have hf : s.finishFlag = true := by simpa using hf
    refine Phase.drain (s := { s with eq := taken ++ if isRet ev then [ev] else [] }) hn
      ⟨h.list, h.ret⟩ hf (by simpa [hf] using hl) fun hr => ?_
    rw [if_pos hr]
    exact List.mem_append_right taken (List.mem_singleton.mpr rfl)

/-- `eventHandler` evaluates the first event of the queue. -/
theorem Phase.eval (h : Phase tr s taken) (hn : s.callees.Nodup) (ev : CallEvent ω ν)
    (q : List (CallEvent ω ν)) :
    Phase (tr ++ ({ s with queue := q }.eval ev).2) ({ s with queue := q }.eval ev).1
      (taken ++ if isRet ev then [ev] else []) := by
  cases h with
  | waiting h₁ h₂ h₃ h₄ h₅ h₆ =>
    have he : { s with queue := q }.eval ev = { s with
        queue := q
        late := s.late || (isRet ev && s.finishFlag) }.iniWait ev := by
      unfold CallList.eval
      cases s
      cases h₁
      rfl
    rw [he, h₂]
    exact Phase.iniWait hn h₄ ⟨h₅.list, h₅.ret⟩ h₁ (by simp [h₃])
  | collecting h₁ h₂ h₃ h₄ h₅ =>
    have he : { s with queue := q }.eval ev = { s with
        queue := q
        late := s.late || (isRet ev && s.finishFlag) }.actStart ev := by
      unfold CallList.eval
      cases s
      cases h₁
      rfl
    rw [he, h₂]
    cases hr : isRet ev with
    | true => exact Phase.actStart taken h₃ (by simp [h₃]) hr ⟨h₄.list, h₄.ret⟩ rfl rfl
    | false =>
      rw [actStart_other hr]
      exact .collecting rfl rfl h₃ ⟨by simpa using h₄.list, by simpa using h₄.ret⟩
        (by simpa using h₅)
  | ended h₁ h₂ h₃ h₄ h₅ =>
    have he : { s with queue := q }.eval ev = ({ s with
        queue := q
        late := s.late || (isRet ev && s.finishFlag) }, []) := by
      unfold CallList.eval
      cases s
      cases h₁
      rfl
    rw [he, List.append_nil]
    refine .ended h₁ h₂ (by simp [h₃]) (h₄.append _) ?_
    rw [h₄.results]
    exact h₅

theorem Collecting.initial : Collecting [] (initial ω ν) where
  callees := List.nodup_nil
  phase := ⟨[], rfl, .waiting rfl rfl rfl rfl ⟨rfl, rfl⟩ nofun⟩

/-- An event that is no `TSE_RETURN` is put into the queue. -/
theorem Collecting.insEvent (h : Collecting tr s) (hr : isRet ev = false) (finishing : Bool) :
    Collecting tr ({ s with finishing := finishing }.insEvent ev) := by
  obtain ⟨taken, ht, hp⟩ := h.phase
  have hp := hp.insEvent ev finishing
  obtain ⟨q, he, -, hq⟩ := insEvent_frame { s with finishing := finishing } ev
  rw [he] at hp ⊢
  refine ⟨h.callees, taken, ?_, hp⟩
  simpa [hq, hr] using ht

theorem actStart_frame (s : CallList ω ν) (ev : CallEvent ω ν) :
    (s.actStart ev).1.callees = s.callees ∧ (s.actStart ev).1.returned = s.returned ∧
      (s.actStart ev).1.queue = s.queue := by
  unfold CallList.actStart
  split
  · dsimp only
    split <;> exact ⟨rfl, rfl, rfl⟩
  · exact ⟨rfl, rfl, rfl⟩

theorem iniWait_frame (s : CallList ω ν) (ev : CallEvent ω ν) :
    (s.iniWait ev).1.callees = s.callees ∧ (s.iniWait ev).1.returned = s.returned ∧
      (s.iniWait ev).1.queue = s.queue := by
  have hkept : ∃ eq, (if isRet ev then { s with eq := s.eq ++ [ev] } else s) =
      { s with eq := eq } := by
    split <;> exact ⟨_, rfl⟩
  obtain ⟨eq, hkept⟩ := hkept
  unfold CallList.iniWait
  rw [hkept]
  dsimp only
  split
  · exact ⟨rfl, rfl, rfl⟩
  · obtain ⟨list, ret, he⟩ := foldl_collect_frame eq { s with eq := eq }
    rw [he]
    exact actStart_frame _ ev

theorem eval_frame (s : CallList ω ν) (ev : CallEvent ω ν) :
    (s.eval ev).1.callees = s.callees ∧ (s.eval ev).1.returned = s.returned ∧
      (s.eval ev).1.queue = s.queue := by
  unfold CallList.eval
  dsimp only
  split
  · exact iniWait_frame _ ev
  · exact actStart_frame _ ev
  · exact ⟨rfl, rfl, rfl⟩

/-- A callee returns. -/
theorem Collecting.ret (h : Collecting tr s) (hr : isRet ev = true) :
    Collecting tr ({ s with returned := s.returned ++ [ev] }.insEvent ev) := by
  obtain ⟨taken, ht, hp⟩ := h.phase
  have hp : Phase tr { s with returned := s.returned ++ [ev] } taken := by
    cases hp with
    | waiting h₁ h₂ h₃ h₄ h₅ h₆ => exact .waiting h₁ h₂ h₃ h₄ ⟨h₅.list, h₅.ret⟩ h₆
    | collecting h₁ h₂ h₃ h₄ h₅ => exact .collecting h₁ h₂ h₃ ⟨h₄.list, h₄.ret⟩ h₅
    | ended h₁ h₂ h₃ h₄ h₅ => exact .ended h₁ h₂ h₃ h₄ h₅
  have hp := hp.insEvent ev s.finishing
  obtain ⟨q, he, -, hq⟩ := insEvent_frame { s with returned := s.returned ++ [ev] } ev
  rw [he] at hp ⊢
  refine ⟨h.callees, taken, ?_, hp⟩
  simp [hq, hr, ht]

theorem Collecting.step {a : CallListAct ω ν} (h : Collecting tr s)
    (hs : s.step a = some (t, os)) : Collecting (tr ++ os) t := by
  obtain ⟨taken, ht, hp⟩ := h.phase
  cases a with
  | call caller =>
    obtain ⟨⟨hf, hc⟩, he⟩ := Option.ite_none_right_eq_some.mp hs
    cases he
    rw [List.append_nil]
    refine ⟨?_, taken, ht, ?_⟩
    · refine List.nodup_append.mpr ⟨h.callees, List.pairwise_singleton _ caller, ?_⟩
      rintro x hx y hy rfl
      exact hc (List.mem_singleton.mp hy ▸ hx)
    · cases hp with
      | waiting h₁ h₂ h₃ h₄ h₅ h₆ =>
        refine .waiting h₁ h₂ h₃ h₄ ⟨?_, ?_⟩ h₆
        · simp [h₅.list, missing]
        · simp [h₅.ret, results]
      | collecting h₁ h₂ h₃ h₄ h₅ => exact absurd h₃ (by simp [hf])
      | ended h₁ h₂ h₃ h₄ h₅ => exact absurd h₂ (by simp [hf])
  | ret source msg =>
    obtain ⟨hn, he⟩ := Option.ite_none_left_eq_some.mp hs
    cases he
    rw [List.append_nil]
    exact h.ret rfl
  | event ev =>
    obtain ⟨hr, he⟩ := Option.ite_none_left_eq_some.mp hs
    cases he
    rw [List.append_nil]
    exact h.insEvent (by simpa using hr) s.finishing
  | finish =>
    obtain ⟨hf, he⟩ := Option.ite_none_left_eq_some.mp hs
    cases he
    rw [List.append_nil]
    refine ⟨h.callees, taken, ht, ?_⟩
    cases hp with
    | waiting h₁ h₂ h₃ h₄ h₅ h₆ => exact .waiting h₁ h₂ h₃ h₄ ⟨h₅.list, h₅.ret⟩ fun _ => .inl rfl
    | collecting h₁ h₂ h₃ h₄ h₅ => exact absurd h₃ hf
    | ended h₁ h₂ h₃ h₄ h₅ => exact absurd h₂ hf
  | wakeup self msg =>
    obtain ⟨-, he⟩ := Option.ite_none_right_eq_some.mp hs
    cases he
    rw [List.append_nil]
    exact h.insEvent rfl false
  | eval =>
    unfold CallList.step at hs
    dsimp only at hs
    split at hs
    · cases hs
    · rename_i ev q hq
      have hp := hp.eval h.callees ev q
      obtain ⟨h₁, h₂, h₃⟩ := eval_frame { s with queue := q } ev
      rw [Option.some.inj hs] at hp h₁ h₂ h₃
      refine ⟨by rw [h₁]; exact h.callees, _, ?_, hp⟩
      rw [h₂, h₃]
      change s.returned = _
      rw [ht, hq, List.append_assoc]
      congr 1
      cases hr : isRet ev <;> simp [hr]

theorem run_collecting (h : (machine ω ν).Run tr s) : Collecting tr s := by
  refine h.invariant (I := Collecting) ?_ ?_
  · rintro _ rfl
    exact .initial
  · intro tr s a t os _ hc _ hs
    exact hc.step hs

/-- **The join.** When `finish` has been called, all callees have returned and the
list is idle, the parent has got the results in the order of the calls, once, or
nothing at all: it has got them where a `TSE_RETURN` came late. -/
theorem join_law (h : (machine ω ν).Run tr s) (hf : s.finishFlag = true)
    (hw : s.finishing = false) (hq : s.queue = [])
    (hr : ∀ c ∈ s.callees, c ∈ s.returned.map CallEvent.source) :
    tr = [results s.callees s.returned] ↔ s.late = true := by
  obtain ⟨hn, taken, ht, hp⟩ := run_collecting h
  have ht : s.returned = taken := by simpa [hq] using ht
  have hall : AllReturned s.callees taken := fun c hc => by
    simpa [ht] using hr c hc
  rw [ht]
  cases hp with
  | waiting h₁ h₂ h₃ h₄ h₅ h₆ =>
    rcases h₆ hf with hf | hne
    · exact absurd hf (by simp [hw])
    · exact absurd hq hne
  | collecting h₁ h₂ h₃ h₄ h₅ =>
    rw [h₂]
    constructor
    · exact fun he => absurd he.symm (List.cons_ne_nil _ _)
    · exact fun hl => absurd hall (h₅ hl)
  | ended h₁ h₂ h₃ h₄ h₅ => exact ⟨fun _ => h₃, fun _ => h₅⟩

/-- Two callees return in the other order, one before `finish` and one after it. -/
theorem join_law_two : ∃ tr s, (machine Nat Nat).Run tr s ∧
    tr = [[some ⟨.ret, 1, 10⟩, some ⟨.ret, 2, 20⟩]] ∧
    (tr = [results s.callees s.returned] ↔ s.late = true) := by
  obtain ⟨tr, s, h, hp, hf, hw, hq, hr⟩ := Machine.exists_run (M := machine Nat Nat)
    (C := fun _ _ => True) (P := fun tr s => tr = [[some ⟨.ret, 1, 10⟩, some ⟨.ret, 2, 20⟩]] ∧
      s.finishFlag = true ∧ s.finishing = false ∧ s.queue = [] ∧
      ∀ c ∈ s.callees, c ∈ s.returned.map CallEvent.source)
    [.call 1, .ret 2 20, .eval, .call 2, .finish, .wakeup 0 0, .eval, .ret 1 10, .eval] rfl
    (by decide)
  exact ⟨tr, s, h, hp, join_law h hf hw hq hr⟩

/-- Both have returned before `finish`: the list has sorted in what they returned,
and the parent hears nothing. -/
theorem early_returns : ∃ tr s, (machine Nat Nat).Run tr s ∧ s.finishFlag = true ∧
    s.finishing = false ∧ s.queue = [] ∧
    (∀ c ∈ s.callees, c ∈ s.returned.map CallEvent.source) ∧
    s.ret = [some ⟨.ret, 1, 10⟩, some ⟨.ret, 2, 20⟩] ∧ s.state = .actStart ∧ tr = [] :=
  Machine.exists_run (M := machine Nat Nat) (C := fun _ _ => True)
    (P := fun tr s => s.finishFlag = true ∧ s.finishing = false ∧ s.queue = [] ∧
      (∀ c ∈ s.callees, c ∈ s.returned.map CallEvent.source) ∧
      s.ret = [some ⟨.ret, 1, 10⟩, some ⟨.ret, 2, 20⟩] ∧ s.state = .actStart ∧ tr = [])
    [.call 1, .ret 1 10, .eval, .call 2, .ret 2 20, .eval, .finish, .wakeup 0 0, .eval] rfl
    (by decide)

end CallList

end TinyState
