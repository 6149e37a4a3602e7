import TinyState.Dispatch.System

/-!
# What a step of a call can do

`Call.step_cases` says once, branch by branch, what the step function does. In
each case the new object is the old one with the changed fields named, so that
every other field reduces to its old value; the invariants are proved from
these cases alone.
-/

namespace TinyState

namespace Obj

variable {ι : Type} (o : Obj ι)

theorem insEvent_frame (ev : StdEvent) :
    o.insEvent ev = { o with
      que := (o.insEvent ev).que, onlyOneEventOccur := (o.insEvent ev).onlyOneEventOccur } := by
  unfold insEvent queIns
  split
  · rfl
  · split <;> rfl

theorem invokeCheck_frame (w : Option TsTrans) :
    o.invokeCheck w = { o with
      state := (o.invokeCheck w).state, enterZom := (o.invokeCheck w).enterZom
      invokeStateFlag := (o.invokeCheck w).invokeStateFlag } := by
  cases w with
  | none => rfl
  | some s =>
    unfold invokeCheck
    dsimp only
    split <;> rfl

theorem delEvent_nil (h : o.que.getD [] = []) : o.delEvent = (none, o) := by
  unfold delEvent
  split
  · rename_i hq; simp [hq] at h
  · rfl

theorem delEvent_cons (h : o.que = some (ev :: q)) :
    o.delEvent = (some ev, { o with
      que := some q, onlyOneEventOccur := o.onlyOneEventOccur &&& ~~~ tseEvm ev.type }) := by
  simp [delEvent, h]

theorem que_cases : o.que.getD [] = [] ∨ ∃ ev q, o.que = some (ev :: q) := by
  cases hq : o.que with
  | none => simp
  | some l => cases l <;> simp

end Obj

/-- What is seen when an event is offered to the queue. -/
def Obj.offered {ι : Type} (o : Obj ι) (c : ι) (ev : StdEvent) : Obs ι :=
  if o.Inserts ev then .accept c ev else .coalesce c ev

/-- The branches of `Call.step`. -/
inductive Call.Step {ι : Type} (T : StateTable) (c : ι) (o : Obj ι) (k : Call) :
    CallAct → Stepped ι → Prop
  | dead : k.pc = .enter → o.lm = none → o.state.isZom = true →
      Step T c o k .go ⟨o, { k with pc := .returned }, .none, []⟩
  | busy : k.pc = .enter → o.lm = none → o.state.isZom = false → o.stateLock = true →
      Step T c o k .go ⟨{ o with
          que := (o.insEvent k.ev).que, onlyOneEventOccur := (o.insEvent k.ev).onlyOneEventOccur
          thrQueueingFlag := if k.thrInfo.isSome then false else o.thrQueueingFlag },
        { k with pc := .returned }, .none, [o.offered c k.ev]⟩
  | admission : k.pc = .enter → o.lm = none → o.state.isZom = false → o.stateLock = false →
      Step T c o k .go ⟨{ o with
          que := (o.insEvent k.ev).que, onlyOneEventOccur := (o.insEvent k.ev).onlyOneEventOccur
          lm := some c, stateLock := true, thrInfo := k.thrInfo },
        { k with pc := .next }, .none, [o.offered c k.ev]⟩
  | escape : k.pc = .enter → k.thrInfo = none →
      Step T c o k .escape ⟨o, { k with pc := .escaping }, .none, []⟩
  | escaped : k.pc = .escaping → Step T c o k .go ⟨o, { k with pc := .returned }, .none, []⟩
  | empty : k.pc = .next → o.que.getD [] = [] →
      Step T c o k .go ⟨o, { k with pc := .drain }, .none, []⟩
  | fetch {ev q} : k.pc = .next → o.que = some (ev :: q) → o.filterLock = false →
      Step T c o k .go ⟨{ o with
          que := some q, onlyOneEventOccur := o.onlyOneEventOccur &&& ~~~ tseEvm ev.type },
        { k with pc := .eval ev, seen := false }, .none, [.dequeue c ev, .fetch c ev]⟩
  | toFilter {ev q} : k.pc = .next → o.que = some (ev :: q) → o.filterLock = true →
      Step T c o k .go ⟨{ o with
          que := some q, onlyOneEventOccur := o.onlyOneEventOccur &&& ~~~ tseEvm ev.type
          lm := none },
        { k with pc := .filterLock ev }, .none, [.dequeue c ev]⟩
  | filter {ev} : k.pc = .filterLock ev →
      Step T c o k .go ⟨o, { k with pc := .filtering ev }, .mtxLock, []⟩
  | filterRet {ev r} : k.pc = .filtering ev →
      Step T c o k (.filterRet r) ⟨o, { k with pc := .filtered r }, .mtxUnlock, []⟩
  | swallowed : k.pc = .filtered none → o.lm = none →
      Step T c o k .go ⟨{ o with lm := some c }, { k with pc := .drain }, .none, []⟩
  | passed {ev} : k.pc = .filtered (some ev) → o.lm = none →
      Step T c o k .go ⟨{ o with lm := some c }, { k with pc := .eval ev, seen := false }, .none,
        [.fetch c ev]⟩
  | noFunc {ev} : k.pc = .eval ev → o.state.func = false →
      Step T c o k .go ⟨o, { k with pc := .result ev (.go T.ERR_START) }, .none, []⟩
  | toState {ev} : k.pc = .eval ev → o.state.func = true → o.state.thr = false →
      Step T c o k .go ⟨{ o with thrQueueingFlag := false, lm := none },
        { k with pc := .callState ev, last := some .state }, .none, []⟩
  | park {ev} : k.pc = .eval ev → o.state.func = true → o.state.thr = true → o.thrInfo = none →
      Step T c o k .go ⟨{ o with thrQueueingFlag := true },
        { k with pc := .result ev .stay, doIns := k.doIns || !o.thrQueueingFlag,
                 last := some .noWorker }, .none, []⟩
  | toThread {ev thr} : k.pc = .eval ev → o.state.func = true → o.state.thr = true →
      o.thrInfo = some thr →
      Step T c o k .go ⟨{ o with thrQueueingFlag := false, lm := none },
        { k with pc := .callThread ev, last := some .thread }, .none, []⟩
  | callState {ev} : k.pc = .callState ev →
      Step T c o k .go ⟨{ o with mtxLockFlag := true }, { k with pc := .inState ev, seen := true },
        if o.mtxLockFlag then .none else .mtxLock, [.invoke c ev]⟩
  | callThread {ev} : k.pc = .callThread ev →
      Step T c o k .go ⟨{ o with mtxLockFlag := false }, { k with pc := .inThread ev, seen := true },
        if o.mtxLockFlag then .mtxUnlock else .none, [.invoke c ev]⟩
  | funcRet {ev r} : k.pc = .inState ev ∨ k.pc = .inThread ev →
      Step T c o k (.funcRet r) ⟨o, { k with pc := .back ev (r.word T) }, .none, []⟩
  | delNone : k.pc.inFunc = true → o.lm = none → o.que.getD [] = [] →
      Step T c o k .delEvent ⟨o, k, .none, []⟩
  | delSome {ev q} : k.pc.inFunc = true → o.lm = none → o.que = some (ev :: q) →
      Step T c o k .delEvent ⟨{ o with
          que := some q, onlyOneEventOccur := o.onlyOneEventOccur &&& ~~~ tseEvm ev.type },
        k, .none, [.dequeue c ev]⟩
  | dropQueue : k.pc.inFunc = true → o.state = T.ZOM_TINYSTATE_LAST2 →
      Step T c o k .dropQueue ⟨{ o with que := none, invokeStateFlag := false }, k, .none, []⟩
  | back {ev w} : k.pc = .back ev w → o.lm = none →
      Step T c o k .go ⟨{ o with lm := some c }, { k with pc := .result ev w }, .none, []⟩
  | zom {ev} : k.pc = .result ev (.rest T.ZOM) →
      Step T c o k .go ⟨{ o with
          state := (o.invokeCheck T.ZOM).state, enterZom := (o.invokeCheck T.ZOM).enterZom
          invokeStateFlag := (o.invokeCheck T.ZOM).invokeStateFlag },
        { k with pc := .drain }, .none, [.discard c ev]⟩
  | again {ev w} : k.pc = .result ev w → w.rDO = true →
      Step T c o k .go ⟨{ o with
          state := (o.invokeCheck w.state).state, enterZom := (o.invokeCheck w.state).enterZom
          invokeStateFlag := (o.invokeCheck w.state).invokeStateFlag },
        { k with pc := .eval ev }, .none, []⟩
  | done {ev w} : k.pc = .result ev w → w.rDO = false → w ≠ .rest T.ZOM →
      Step T c o k .go ⟨{ o with
          state := (o.invokeCheck w.state).state, enterZom := (o.invokeCheck w.state).enterZom
          invokeStateFlag := (o.invokeCheck w.state).invokeStateFlag },
        { k with pc := .next }, .none, [.discard c ev]⟩
  | drained : k.pc = .drain → o.que.getD [] = [] →
      Step T c o k .go ⟨o, { k with pc := .leave }, .none, []⟩
  | more : k.pc = .drain → o.que.getD [] ≠ [] →
      Step T c o k .go ⟨o, { k with pc := .next }, .none, []⟩
  | leave : k.pc = .leave →
      Step T c o k .go ⟨{ o with
          mtxLockFlag := false, thrInfo := none, stateLock := false, lm := none
          application := o.application && !decide (o.state = T.ZOM) },
        { k with pc := .notify }, if o.mtxLockFlag then .mtxUnlock else .none, []⟩
  | notify : k.pc = .notify →
      Step T c o k .go ⟨{ o with invokeStateFlag := false },
        { k with pc := if k.doIns then .handoff else .returned }, .none, []⟩
  | handoff : k.pc = .handoff →
      Step T c o k .go ⟨o, { k with pc := .returned, doIns := false },
        if o.application then .poolIns else .none, []⟩

namespace Call

variable {ι : Type} {T : StateTable} {c : ι} {o : Obj ι} {k : Call} {r : Stepped ι}

theorem admission_cases (hp : k.pc = .enter) (hl : o.lm = none) : Step T c o k .go (admission c o k) := by
  unfold admission
  split
  · rename_i hz
    exact .dead hp hl hz
  · rename_i hz
    have hz : o.state.isZom = false := by simpa using hz
    have hf := o.insEvent_frame k.ev
    dsimp only
    split
    · rename_i hs
      convert Step.busy hp hl hz hs using 2
      · split <;> rw [hf]
      · rfl
    · rename_i hs
      convert Step.admission hp hl hz (by simpa using hs) using 2
      · rw [hf]
      · rfl

theorem fetchNext_cases (hp : k.pc = .next) : Step T c o k .go (fetchNext c o k) := by
  unfold fetchNext
  rcases o.que_cases with hq | ⟨ev, q, hq⟩
  · rw [o.delEvent_nil hq]
    exact .empty hp hq
  · rw [o.delEvent_cons hq]
    dsimp only
    split <;> rename_i hf
    · exact .toFilter hp hq hf
    · exact .fetch hp hq (by simpa using hf)

theorem evalState_cases {ev : StdEvent} (hp : k.pc = .eval ev) :
    Step T c o k .go (evalState T o k ev) := by
  unfold evalState
  split <;> rename_i hf
  · exact .noFunc hp (by simpa using hf)
  replace hf : o.state.func = true := by simpa using hf
  split <;> rename_i ht
  · exact .toState hp hf (by simpa using ht)
  replace ht : o.state.thr = true := by simpa using ht
  split <;> rename_i hi
  · exact .park hp hf ht (by simpa using hi)
  · obtain ⟨thr, hi⟩ := Option.ne_none_iff_exists'.mp (by simpa using hi)
    exact .toThread hp hf ht hi

theorem takeResult_cases {ev : StdEvent} {w : StateWord} (hp : k.pc = .result ev w) :
    Step T c o k .go (takeResult T c o k ev w) := by
  unfold takeResult
  split
  · subst w
    rw [o.invokeCheck_frame]
    exact .zom hp
  · rename_i hw
    rw [o.invokeCheck_frame]
    split <;> rename_i hd
    · exact .again hp hd
    · exact .done hp (by simpa using hd) hw

/-- Every step of a call is one of the listed branches. -/
theorem step_cases {a : CallAct} (h : k.step T c o a = some r) : Step T c o k a r := by
  cases a with
  | go =>
    simp only [step] at h
    split at h <;> rename_i hp
    case h_1 | h_5 | h_6 | h_10 =>
      simp only [Option.ite_none_right_eq_some, Option.isNone_iff_eq_none, Option.some.injEq] at h
      obtain ⟨hl, rfl⟩ := h
      first
      | exact admission_cases hp hl
      | exact .swallowed hp hl
      | exact .passed hp hl
      | exact .back hp hl
    case h_12 =>
      split at h
      · exact Option.some.inj h ▸ .drained hp ‹_›
      · exact Option.some.inj h ▸ .more hp ‹_›
    all_goals simp only [Option.some.injEq, reduceCtorEq] at h
    case h_2 => exact h ▸ .escaped hp
    case h_3 => exact h ▸ fetchNext_cases hp
    case h_4 => exact h ▸ .filter hp
    case h_7 => exact h ▸ evalState_cases hp
    case h_8 => exact h ▸ .callState hp
    case h_9 => exact h ▸ .callThread hp
    case h_11 => exact h ▸ takeResult_cases hp
    case h_13 => exact h ▸ .leave hp
    case h_14 => exact h ▸ .notify hp
    case h_15 => exact h ▸ .handoff hp
  | escape =>
    simp only [step, Option.ite_none_right_eq_some, Option.some.injEq] at h
    obtain ⟨⟨hp, ht⟩, rfl⟩ := h
    exact .escape hp ht
  | filterRet r =>
    simp only [step] at h
    split at h
    · exact Option.some.inj h ▸ .filterRet ‹_›
    · cases h
  | funcRet r =>
    simp only [step] at h
    split at h
    · exact Option.some.inj h ▸ .funcRet (.inl ‹_›)
    · exact Option.some.inj h ▸ .funcRet (.inr ‹_›)
    · cases h
  | delEvent =>
    simp only [step, Option.ite_none_right_eq_some, Option.isNone_iff_eq_none] at h
    obtain ⟨⟨hp, hl⟩, h⟩ := h
    rcases o.que_cases with hq | ⟨ev, q, hq⟩
    · rw [o.delEvent_nil hq] at h
      exact Option.some.inj h ▸ .delNone hp hl hq
    · rw [o.delEvent_cons hq] at h
      exact Option.some.inj h ▸ .delSome hp hl hq
  | dropQueue =>
    simp only [step, Option.ite_none_right_eq_some, Option.some.injEq] at h
    obtain ⟨⟨hp, hs⟩, rfl⟩ := h
    exact .dropQueue hp hs

end Call

-- ---------------------------------------------------------------------------
-- The object with all its calls
-- ---------------------------------------------------------------------------

/-- The branches of `Sys.step`. -/
inductive Sys.Step {ι : Type} [DecidableEq ι] (T : StateTable) (s : Sys ι) :
    Act ι → Sys ι → List (Obs ι) → Prop
  | call {c ev thrInfo} : s.calls c = none →
      Step T s (.call c ev thrInfo) (s.set c s.obj (some (.enter ev thrInfo))) []
  | act {c k a r} : s.calls c = some k → Call.Step T c s.obj k a r →
      Step T s (.act c a) (s.set c r.obj (some r.call)) r.obs
  | ret {c k} : s.calls c = some k → k.pc = .returned →
      Step T s (.ret c) (s.set c s.obj none) []

theorem Sys.step_cases {ι : Type} [DecidableEq ι] {T : StateTable} {s t : Sys ι} {a : Act ι}
    {os : List (Obs ι)} (h : s.step T a = some (t, os)) : Sys.Step T s a t os := by
  cases a with
  | call c ev thrInfo =>
    simp only [Sys.step] at h
    split at h
    · rename_i hc
      cases h
      exact .call hc
    · cases h
  | act c a =>
    simp only [Sys.step, Option.bind_eq_bind, Option.bind_eq_some_iff] at h
    obtain ⟨k, hk, r, hr, h⟩ := h
    cases h
    exact .act hk (Call.step_cases hr)
  | ret c =>
    simp only [Sys.step] at h
    split at h
    · rename_i k hk
      split at h
      · cases h
        exact .ret hk ‹_›
      · cases h
    · cases h

end TinyState
