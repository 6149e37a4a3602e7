import TinyState.Pool.Model
import TinyState.Dispatch.EventQueue
import TinyState.Dispatch.Delivery

/-!
# Handing a `TS_THREAD` state to a worker

`thrQueueing_flag` says that a request for a worker is under way: about to be
put into the pool, in its queue, or taken by a worker whose dispatch has not
evaluated the state yet. A worker that finds the object busy gives the request
up, but leaves its `TSE_THREAD` in the queue, and the owner of the object comes
upon that event before it is done.
-/

namespace TinyState

open Transition

variable {ι : Type} {T : StateTable}

/-- A state function runs, or is about to, or has just run. -/
def Pc.inside : Pc → Bool
  | .callState _ | .inState _ | .callThread _ | .inThread _ | .back .. => true
  | _ => false

/-- On the way from here, without the queue, the call comes to an evaluation. -/
def Pc.coming : Pc → Prop
  | .filterLock ev | .filtering ev => ev.type = .thread
  | .filtered r => r.isSome = true
  | .eval _ => True
  | .result _ w => w.rDO = true
  | _ => False

theorem Pc.inside_of_inFunc {p : Pc} (h : p.inFunc = true) : p.inside = true := by
  cases p <;> first | rfl | cases h

/-- The event that the filter is asked about. -/
def Pc.asked : Pc → Option StdEvent
  | .filtering ev => some ev
  | _ => none

/-- The owner comes to an evaluation before it gives the object back: a
`TSE_THREAD` is in the queue, or it is on the way to one. -/
def Coming (o : Obj ι) (k : Call) : Prop :=
  (∃ q, o.que = some q ∧ ∃ ev ∈ q, ev.type = .thread) ∨ k.pc.coming

/-- What is true of every call with the pool. -/
structure Call.Ok (k : Call) : Prop where
  fresh : k.pc = .enter → k.last = none
  plain : k.pc = .enter ∨ k.pc = .escaping ∨ k.pc = .returned → k.doIns = false
  event : k.thrInfo.isSome = true → k.ev.type = .thread
  worker : k.thrInfo.isSome = true → k.last ≠ some .noWorker ∧ k.doIns = false
  handoff : k.pc = .handoff → k.doIns = true

/-- What is true of the owner of an object whose last evaluation was `found`. -/
structure Call.Owning (o : Obj ι) (found : Option Found) (k : Call) : Prop where
  last : ∀ x, k.last = some x → found = some x
  inside : k.pc.inside = true → found ≠ some .noWorker ∧ k.last ≠ none
  result : ∀ ev w, k.pc = .result ev w →
    found ≠ some .noWorker ∨ w = .stay ∧ o.thrQueueingFlag = true
  coming : k.thrInfo.isSome = true → k.last = none → Coming o k

/-- What the flag and the state have to do with the last evaluation. -/
structure Obj.Parked (o : Obj ι) (found : Option Found) : Prop where
  flag : o.thrQueueingFlag = true → found = some .noWorker
  state : found = some .noWorker → o.state.func = true ∧ o.state.thr = true

theorem Call.Owning.foundAfter {o : Obj ι} {found : Option Found} {k k' : Call}
    (h : k.Owning o found) (hl : k'.last = k.last) : k'.foundAfter found = found := by
  unfold Call.foundAfter
  split
  · rw [hl]
    cases hk : k.last with
    | none => rfl
    | some x => rw [h.last x hk]; rfl
  · rfl

/-- Of an owner that is not on the way to an evaluation, one is coming from the queue. -/
theorem Coming.fromQueue {o : Obj ι} {k : Call} (h : Coming o k) (hp : ¬ k.pc.coming) :
    ∃ q, o.que = some q ∧ ∃ ev ∈ q, ev.type = .thread :=
  h.resolve_right hp

theorem Coming.not_empty {o : Obj ι} {k : Call} (h : Coming o k) (hp : ¬ k.pc.coming) :
    o.que.getD [] ≠ [] := by
  obtain ⟨q, hq, ev, hev, -⟩ := h.fromQueue hp
  rw [hq]
  exact List.ne_nil_of_mem hev

/-- `TSE_THREAD` is not a type that merges. -/
theorem Obj.insEvent_thread {o : Obj ι} {q : List StdEvent} {ev : StdEvent} (hq : o.que = some q)
    (ht : ev.type = .thread) : (o.insEvent ev).que = some (q ++ [ev]) := by
  have hm : tseEvm ev.type &&& onlyOneEventMask = 0#64 := by rw [ht]; decide
  simp [Obj.insEvent, hm, Obj.queIns, hq]

namespace Call.Step

variable {c : ι} {o : Obj ι} {k : Call} {a : CallAct} {r : Stepped ι} {found : Option Found}

theorem ok (h : Step T c o k a r) (ht : k.pc.owns = true → o.thrInfo = k.thrInfo) (hk : k.Ok) :
    r.call.Ok := by
  obtain ⟨h1, h2, h3, h4, h5⟩ := hk
  cases h with
  | dead hp | busy hp | escape hp | escaped hp =>
    exact ⟨by simp, fun _ => h2 (by simp [hp]), h3, h4, by simp⟩
  | toState hp | callState hp => exact ⟨by simp, by simp, h3, fun hw => by simp [h4 hw], by simp⟩
  | toThread hp => exact ⟨by simp, by simp, h3, fun hw => by simp [h4 hw], by simp⟩
  | park hp _ _ hn =>
    have hthr : k.thrInfo = none := by rw [← ht (by rw [hp]; rfl), hn]
    exact ⟨by simp, by simp, h3, fun hw => by simp [hthr] at hw, by simp⟩
  | delNone | delSome | dropQueue => exact ⟨h1, h2, h3, h4, h5⟩
  | notify hp =>
    by_cases hd : k.doIns = true
    · exact ⟨by simp [hd], by simp [hd], h3, h4, fun _ => hd⟩
    · exact ⟨by simp [hd], fun _ => by simpa using hd, h3, h4, by simp [hd]⟩
  | handoff => exact ⟨by simp, by simp, h3, fun hw => ⟨(h4 hw).1, rfl⟩, by simp⟩
  | _ => exact ⟨by simp, by simp, h3, h4, by simp⟩

theorem admitted (h : Step T c o k a r) (hk : k.pc.owns = false) (hr : r.call.pc.owns = true) :
    k.pc = .enter ∧ o.stateLock = false ∧ r = ⟨{ o with
      que := (o.insEvent k.ev).que, onlyOneEventOccur := (o.insEvent k.ev).onlyOneEventOccur
      lm := some c, stateLock := true, thrInfo := k.thrInfo }, { k with pc := .next }, .none,
      [o.offered c k.ev]⟩ := by
  cases h with
  | admission hp _ _ hs => exact ⟨hp, hs, rfl⟩
  | dead | busy | escape | escaped | leave | handoff => cases hr
  | notify =>
    dsimp only at hr
    split at hr <;> cases hr
  | funcRet hp => rcases hp with hp | hp <;> rw [hp] at hk <;> cases hk
  | delNone hp | delSome hp | dropQueue hp =>
    rw [Pc.owns_of_inFunc hp] at hk
    cases hk
  | empty hp | fetch hp | toFilter hp | filter hp | filterRet hp | swallowed hp | passed hp
  | noFunc hp | toState hp | park hp | toThread hp | callState hp | callThread hp | back hp | zom hp
  | again hp | done hp | drained hp | more hp =>
    rw [hp] at hk
    cases hk

/-- The flag and the state stay in step with what the last evaluation found. -/
theorem parked (h : Step T c o k a r) (hw : k.pc.owns = true → k.Owning o found) (hk : k.Ok)
    (hp : o.Parked found) : r.obj.Parked (r.call.foundAfter found) := by
  have same : k.pc.owns = true → r.call.last = k.last → r.call.foundAfter found = found :=
    fun ho => (hw ho).foundAfter
  cases h with
  | toState he hf ht =>
    exact ⟨by simp, by simp [Call.foundAfter, Pc.owns]⟩
  | toThread he hf ht =>
    exact ⟨by simp, by simp [Call.foundAfter, Pc.owns]⟩
  | park he hf ht =>
    exact ⟨by simp [Call.foundAfter, Pc.owns], fun _ => ⟨hf, ht⟩⟩
  | zom he =>
    rw [same (by rw [he]; rfl) rfl]
    refine ⟨hp.flag, fun hn => ?_⟩
    rcases (hw (by rw [he]; rfl)).result _ _ he with hne | ⟨hst, -⟩
    · exact absurd hn hne
    · cases hst
  | again he hd =>
    rw [same (by rw [he]; rfl) rfl]
    refine ⟨hp.flag, fun hn => ?_⟩
    rcases (hw (by rw [he]; rfl)).result _ _ he with hne | ⟨rfl, -⟩
    · exact absurd hn hne
    · cases hd
  | done he hd =>
    rw [same (by rw [he]; rfl) rfl]
    refine ⟨hp.flag, fun hn => ?_⟩
    rcases (hw (by rw [he]; rfl)).result _ _ he with hne | ⟨rfl, -⟩
    · exact absurd hn hne
    · exact hp.state hn
  | busy he =>
    refine ⟨fun hf => hp.flag ?_, hp.state⟩
    dsimp only at hf
    split at hf
    · cases hf
    · exact hf
  | admission he =>
    rw [show ({ k with pc := .next } : Call).foundAfter found = found by
      simp [Call.foundAfter, Pc.owns, hk.fresh he]]
    exact ⟨hp.flag, hp.state⟩
  | dead | escape | escaped | leave | handoff => exact ⟨hp.flag, hp.state⟩
  | notify he =>
    rw [show ({ k with pc := if k.doIns then .handoff else .returned } : Call).foundAfter found =
      found by unfold Call.foundAfter; dsimp only; split <;> simp [Pc.owns]]
    exact ⟨hp.flag, hp.state⟩
  | empty he | fetch he | toFilter he | filter he | filterRet he | swallowed he | passed he
  | noFunc he | callState he | callThread he | back he | drained he | more he =>
    rw [same (by rw [he]; rfl) rfl]
    exact ⟨hp.flag, hp.state⟩
  | funcRet he =>
    rw [same (by rcases he with he | he <;> rw [he] <;> rfl) rfl]
    exact ⟨hp.flag, hp.state⟩
  | delNone he | delSome he | dropQueue he =>
    rw [same (Pc.owns_of_inFunc he) rfl]
    exact ⟨hp.flag, hp.state⟩

/-- The owner goes on: a state function is concerned, or the state is evaluated,
or an evaluation that was coming is still coming, as the filter does not
swallow a `TSE_THREAD`. -/
theorem coming_next (h : Step T c o k a r)
    (hf : a = .filterRet none → ∀ ev, k.pc = .filtering ev → ev.type ≠ .thread)
    (hk : k.pc.owns = true) (hr : r.call.pc.owns = true) :
    (k.pc.inside = true ∧ r.call.last = k.last) ∨
    (∃ x, r.call.last = some x ∧ (x = .noWorker → r.obj.thrQueueingFlag = true)) ∨
    (r.call.last = k.last ∧ r.obj.thrQueueingFlag = o.thrQueueingFlag ∧
      (Coming o k → Coming r.obj r.call)) := by
  cases h with
  | dead hp | busy hp | admission hp | escape hp | escaped hp | notify hp | handoff hp =>
    rw [hp] at hk
    cases hk
  | leave => cases hr
  | toState | toThread => exact .inr (.inl ⟨_, rfl, by simp⟩)
  | park => exact .inr (.inl ⟨_, rfl, fun _ => rfl⟩)
  | callState hp | callThread hp | back hp => exact .inl ⟨by rw [hp]; rfl, rfl⟩
  | funcRet hp => exact .inl ⟨by rcases hp with hp | hp <;> rw [hp] <;> rfl, rfl⟩
  | delNone hp | delSome hp | dropQueue hp => exact .inl ⟨Pc.inside_of_inFunc hp, rfl⟩
  | fetch | passed | again => exact .inr (.inr ⟨rfl, rfl, fun _ => .inr trivial⟩)
  | noFunc => exact .inr (.inr ⟨rfl, rfl, fun _ => .inr rfl⟩)
  | empty hp hn | drained hp hn =>
    refine .inr (.inr ⟨rfl, rfl, fun hc => ?_⟩)
    exact absurd hn (hc.not_empty (by simp [hp, Pc.coming]))
  | toFilter hp hq =>
    refine .inr (.inr ⟨rfl, rfl, fun hc => ?_⟩)
    obtain ⟨q', hq', e, hem, het⟩ := hc.fromQueue (by simp [hp, Pc.coming])
    obtain rfl : _ = q' := by simpa [hq] using hq'
    rcases List.mem_cons.mp hem with rfl | hem
    · exact .inr het
    · exact .inl ⟨_, rfl, e, hem, het⟩
  | filter hp =>
    refine .inr (.inr ⟨rfl, rfl, fun hc => ?_⟩)
    rwa [Coming, hp] at hc
  | @filterRet ev r hp =>
    refine .inr (.inr ⟨rfl, rfl, fun hc => ?_⟩)
    cases r with
    | none => exact .inl (hc.fromQueue (by simpa [hp, Pc.coming] using hf rfl ev hp))
    | some e => exact .inr rfl
  | swallowed hp | more hp =>
    refine .inr (.inr ⟨rfl, rfl, fun hc => ?_⟩)
    exact .inl (hc.fromQueue (by simp [hp, Pc.coming]))
  | zom hp =>
    refine .inr (.inr ⟨rfl, rfl, fun hc => ?_⟩)
    exact .inl (hc.fromQueue (by simp [hp, Pc.coming, StateWord.rest]))
  | done hp hd =>
    refine .inr (.inr ⟨rfl, rfl, fun hc => ?_⟩)
    exact .inl (hc.fromQueue (by simp [hp, Pc.coming, hd]))

/-- Where the owner stands in a state function or before its result. -/
theorem inside_next (h : Step T c o k a r) (hk : k.pc.owns = true) :
    (r.call.pc.inside = true →
      k.pc.inside = true ∧ r.call.last = k.last ∨ r.call.last = some .state ∨
        r.call.last = some .thread) ∧
    (∀ ev w, r.call.pc = .result ev w →
      k.pc.inside = true ∧ r.call.last = k.last ∨ o.state.func = false ∧ r.call.last = k.last ∨
        w = .stay ∧ r.obj.thrQueueingFlag = true) := by
  cases h with
  | dead hp | busy hp | admission hp | escape hp | escaped hp | notify hp | handoff hp =>
    rw [hp] at hk
    cases hk
  | toState => exact ⟨fun _ => .inr (.inl rfl), by simp⟩
  | toThread => exact ⟨fun _ => .inr (.inr rfl), by simp⟩
  | callState hp | callThread hp => exact ⟨fun _ => .inl ⟨by rw [hp]; rfl, rfl⟩, by simp⟩
  | funcRet hp =>
    exact ⟨fun _ => .inl ⟨by rcases hp with hp | hp <;> rw [hp] <;> rfl, rfl⟩, by simp⟩
  | delNone hp | delSome hp | dropQueue hp =>
    have hi := Pc.inside_of_inFunc hp
    exact ⟨fun _ => .inl ⟨hi, rfl⟩, fun _ _ _ => .inl ⟨hi, rfl⟩⟩
  | back hp => exact ⟨by simp [Pc.inside], fun _ _ _ => .inl ⟨by rw [hp]; rfl, rfl⟩⟩
  | noFunc _ hn => exact ⟨by simp [Pc.inside], fun _ _ _ => .inr (.inl ⟨hn, rfl⟩)⟩
  | park =>
    refine ⟨by simp [Pc.inside], ?_⟩
    rintro ev w ⟨⟩
    exact .inr (.inr ⟨rfl, rfl⟩)
  | _ => exact ⟨by simp [Pc.inside], by simp⟩

/-- What is true of the owner stays true as it goes on. -/
theorem owning (h : Step T c o k a r) (hq : ∃ q, o.que = some q)
    (hf : a = .filterRet none → ∀ ev, k.pc = .filtering ev → ev.type ≠ .thread)
    (hw : k.pc.owns = true → k.Owning o found) (hk : k.Ok) (hp : o.Parked found)
    (hr : r.call.pc.owns = true) : r.call.Owning r.obj (r.call.foundAfter found) := by
  have hlast : ∀ x, r.call.last = some x → r.call.foundAfter found = some x := by
    intro x hx
    rw [Call.foundAfter, if_pos hr, hx]
    rfl
  by_cases ho : k.pc.owns = true
  · have hw := hw ho
    obtain ⟨hin, hres⟩ := h.inside_next ho
    refine ⟨hlast, fun hi => ?_, fun ev w hpc => ?_, fun ht hn => ?_⟩
    · rcases hin hi with ⟨hk, he⟩ | he | he
      · rw [hw.foundAfter he, he]
        exact hw.inside hk
      · simp [hlast _ he, he]
      · simp [hlast _ he, he]
    · rcases hres ev w hpc with ⟨hk, he⟩ | ⟨hn, he⟩ | hs
      · rw [hw.foundAfter he]
        exact .inl (hw.inside hk).1
      · rw [hw.foundAfter he]
        refine .inl fun h => ?_
        rw [(hp.state h).1] at hn
        cases hn
      · exact .inr hs
    · rcases h.coming_next hf ho hr with ⟨hi, he⟩ | ⟨x, he, -⟩ | ⟨he, -, hc⟩
      · exact absurd (he ▸ hn) (hw.inside hi).2
      · rw [he] at hn
        cases hn
      · exact hc (hw.coming (h.args.2 ▸ ht) (he ▸ hn))
  · -- the call has just been admitted
    obtain ⟨he, -, hr'⟩ := h.admitted (by simpa using ho) hr
    have hl := hk.fresh he
    obtain ⟨q, hq⟩ := hq
    rw [hr'] at hlast ⊢
    refine ⟨hlast, by simp [Pc.inside], by simp, fun ht _ => .inl ⟨q ++ [k.ev], ?_⟩⟩
    exact ⟨Obj.insEvent_thread hq (hk.event ht), k.ev, by simp, hk.event ht⟩

/-- A call that does not own the object reaches the queue and the flag only
when it is turned away. -/
theorem outsider (h : Step T c o k a r) (hk : k.pc.owns = false) (hr : r.call.pc.owns = false) :
    r.obj.state = o.state ∧ r.obj.thrInfo = o.thrInfo ∧ r.obj.lm = o.lm ∧
      (r.obj.que = o.que ∧ r.obj.thrQueueingFlag = o.thrQueueingFlag ∨
        k.pc = .enter ∧ o.lm = none ∧ o.stateLock = true ∧ r.obj.que = (o.insEvent k.ev).que ∧
          r.obj.thrQueueingFlag = if k.thrInfo.isSome then false else o.thrQueueingFlag) := by
  cases h with
  | dead | escape | escaped | notify | handoff => exact ⟨rfl, rfl, rfl, .inl ⟨rfl, rfl⟩⟩
  | busy hp hl _ hs => exact ⟨rfl, rfl, rfl, .inr ⟨hp, hl, hs, rfl, rfl⟩⟩
  | admission => cases hr
  | funcRet hp => rcases hp with hp | hp <;> rw [hp] at hk <;> cases hk
  | delNone hp | delSome hp | dropQueue hp =>
    rw [Pc.owns_of_inFunc hp] at hk
    cases hk
  | empty hp | fetch hp | toFilter hp | filter hp | filterRet hp | swallowed hp | passed hp
  | noFunc hp | toState hp | park hp | toThread hp | callState hp | callThread hp | back hp | zom hp
  | again hp | done hp | drained hp | more hp | leave hp =>
    rw [hp] at hk
    cases hk

theorem released (h : Step T c o k a r) (hk : k.pc.owns = true) (hr : r.call.pc.owns = false) :
    k.pc = .leave ∧ r.obj.thrQueueingFlag = o.thrQueueingFlag := by
  cases h with
  | leave hp => exact ⟨hp, rfl⟩
  | dead hp | busy hp | escape hp | escaped hp | notify hp | handoff hp =>
    rw [hp] at hk
    cases hk
  | delNone | delSome | dropQueue =>
    rw [show k.pc.owns = false from hr] at hk
    cases hk
  | _ => cases hr

end Call.Step

-- ---------------------------------------------------------------------------
-- Requests
-- ---------------------------------------------------------------------------

/-- The event of the call is on its way to an evaluation. -/
def Call.Waiting (k : Call) : Prop :=
  k.thrInfo.isSome = true ∧ k.last = none ∧ (k.pc = .enter ∨ k.pc.owns = true)

/-- Where a request for a worker may be. -/
inductive Request (ι : Type)
  /-- A call has `do_ins` set and is yet to call `ins`. -/
  | pending (c : ι)
  /-- In `ready`. -/
  | ready
  /-- A worker has taken it. -/
  | taken (c : ι)

section

variable {ω : Type}

/-- The requests for the object that are outstanding. -/
def PoolSys.Outstanding (this : ω) (s : PoolSys ι ω) : Request ι → Prop
  | .pending c => ∃ k, s.sys.calls c = some k ∧ k.doIns = true
  | .ready => ∃ q, s.ready = some q ∧ ∃ job ∈ q, job.target = this
  | .taken c => ∃ k, s.sys.calls c = some k ∧ k.Waiting

end

/-- What a step does to the requests that are with its call: nothing; or it
makes one; or it meets one, or finds that there is none to meet. -/
theorem Call.Step.requests {c : ι} {o : Obj ι} {k : Call} {a : CallAct} {r : Stepped ι}
    {found : Option Found} (h : Step T c o k a r) (hz : o.state.isZom = false)
    (ha : o.application = true) (he : r.eff ≠ .poolIns)
    (ht : k.pc.owns = true → o.thrInfo = k.thrInfo) (hd : k.pc = .leave → o.que = some [])
    (hw : k.pc.owns = true → k.Owning o found) (hk : k.Ok) (hp : o.Parked found) :
    (r.call.doIns = k.doIns ∧ (r.call.Waiting ↔ k.Waiting) ∧
      r.obj.thrQueueingFlag = o.thrQueueingFlag) ∨
    (o.thrQueueingFlag = false ∧ r.obj.thrQueueingFlag = true ∧ r.call.doIns = true ∧
      ¬ r.call.Waiting) ∨
    (r.obj.thrQueueingFlag = false ∧ r.call.doIns = k.doIns ∧ ¬ r.call.Waiting ∧
      (o.thrQueueingFlag = true → k.Waiting)) := by
  have waiting : ∀ {p : Pc}, (k.pc = .enter ∨ k.pc.owns = true) → p.owns = true →
      (({ k with pc := p } : Call).Waiting ↔ k.Waiting) := by
    intro p h1 h2
    simp [Call.Waiting, h1, h2]
  cases h with
  | dead _ _ hdead =>
    rw [hz] at hdead
    cases hdead
  | busy hp' =>
    by_cases hth : k.thrInfo.isSome = true
    · refine .inr (.inr ⟨by simp [hth], rfl, by simp [Call.Waiting, Pc.owns], fun _ => ?_⟩)
      exact ⟨hth, hk.fresh hp', .inl hp'⟩
    · exact .inl ⟨rfl, by simp [Call.Waiting, hth], by simp [hth]⟩
  | admission hp' => exact .inl ⟨rfl, waiting (.inl hp') rfl, rfl⟩
  | escape hp' ht' => exact .inl ⟨rfl, by simp [Call.Waiting, ht'], rfl⟩
  | escaped hp' => exact .inl ⟨rfl, by simp [Call.Waiting, hp', Pc.owns], rfl⟩
  | toState hp' _ hthr =>
    refine .inr (.inr ⟨rfl, rfl, by simp [Call.Waiting], fun hf => ?_⟩)
    rw [(hp.state (hp.flag hf)).2] at hthr
    cases hthr
  | toThread hp' _ _ hi =>
    have ho : k.pc.owns = true := by rw [hp']; rfl
    have hth : k.thrInfo.isSome = true := by simp [← ht ho, hi]
    refine .inr (.inr ⟨rfl, rfl, by simp [Call.Waiting], fun hf => ⟨hth, ?_, .inr ho⟩⟩)
    cases hl : k.last with
    | none => rfl
    | some x =>
      have := (hw ho).last x hl
      rw [hp.flag hf] at this
      exact absurd (hl.trans this.symm) (hk.worker hth).1
  | park hp' _ _ hi =>
    have hth : k.thrInfo = none := by rw [← ht (by rw [hp']; rfl), hi]
    cases hf : o.thrQueueingFlag with
    | true => exact .inl ⟨by simp, by simp [Call.Waiting, hth], rfl⟩
    | false => exact .inr (.inl ⟨rfl, rfl, by simp, by simp [Call.Waiting]⟩)
  | leave hp' =>
    -- a worker does not leave before it has evaluated the state
    have hn : ¬ k.Waiting := by
      rintro ⟨hth, hl, -⟩
      have hc := (hw (by rw [hp']; rfl)).coming hth hl
      exact hc.not_empty (by simp [hp', Pc.coming]) (by rw [hd hp']; rfl)
    exact .inl ⟨rfl, ⟨fun h => absurd h (by simp [Call.Waiting, Pc.owns]), fun h => absurd h hn⟩, rfl⟩
  | notify hp' =>
    refine .inl ⟨rfl, ?_, rfl⟩
    dsimp only
    split <;> simp [Call.Waiting, hp', Pc.owns]
  | handoff hp' => simp [ha] at he
  | delNone | delSome | dropQueue => exact .inl ⟨rfl, Iff.rfl, rfl⟩
  | funcRet hp' =>
    exact .inl ⟨rfl, waiting (.inr (by rcases hp' with hp' | hp' <;> rw [hp'] <;> rfl)) rfl, rfl⟩
  | callState hp' | callThread hp' =>
    exact .inl ⟨rfl, by simp [Call.Waiting, hp', Pc.owns], rfl⟩
  | empty hp' | fetch hp' | toFilter hp' | filter hp' | filterRet hp' | swallowed hp' | passed hp'
  | noFunc hp' | back hp' | zom hp' | again hp' | done hp' | drained hp' | more hp' =>
    exact .inl ⟨rfl, by simp [Call.Waiting, hp', Pc.owns], rfl⟩

section

variable {ω : Type} [DecidableEq ι] [DecidableEq ω] {this : ω} {s t : PoolSys ι ω} {tr : List (Obs ι)}

/-- The pool goes on, and the filter lets every `TSE_THREAD` pass, as the
application has no business with that event. -/
def Serves (s : PoolSys ι ω) : PoolAct ι ω → Prop
  | .fold => False
  | .act c (.filterRet none) => ∀ k ∈ s.sys.calls c, ∀ ev ∈ k.pc.asked, ev.type ≠ .thread
  | _ => True

instance (s : PoolSys ι ω) (a : PoolAct ι ω) : Decidable (Serves s a) := by
  unfold Serves
  split <;> infer_instance

/-- The invariant of the hand-off. -/
structure HandOff (this : ω) (s : PoolSys ι ω) : Prop where
  ok : ∀ c k, s.sys.calls c = some k → k.Ok
  parked : s.sys.obj.Parked s.found
  owning : ∀ c k, s.sys.calls c = some k → k.pc.owns = true → k.Owning s.sys.obj s.found
  given_up : s.found = some .noWorker → s.sys.obj.thrQueueingFlag = false →
    ∃ c k, s.sys.calls c = some k ∧ k.pc.owns = true ∧ Coming s.sys.obj k
  idle : s.sys.obj.thrQueueingFlag = false → ∀ x, ¬ s.Outstanding this x
  one : s.sys.obj.thrQueueingFlag = true → ∃ x, ∀ y, s.Outstanding this y ↔ y = x
  once : ∃ q, s.ready = some q ∧ q.countP (·.target = this) ≤ 1

/-- What is known of the object and its callers at each step of a run in which
the object is alive. -/
structure Backed (s : Sys ι) : Prop where
  locks : Locks s
  alive : s.obj.state.isZom = false
  bits : s.obj.BitsAgree
  drained : Drained s
  application : s.obj.application = true

theorem backed (h : (Pool ι T this).Run tr s) (hz : s.sys.obj.enterZom = false) : Backed s.sys := by
  have hd := Pool.dispatch h
  have ha := Run.alive hd hz
  have hzom := not_isZom hd hz
  refine ⟨TinyState.locks hd, hzom, (queue_refines ha).1, TinyState.drained ha, ?_⟩
  by_contra hn
  have := (application_held hd (by simpa using hn)).1
  rw [hzom] at this
  cases this

namespace HandOff

theorem init (hi : (Pool ι T this).init s) : HandOff this s := by
  obtain ⟨f, rfl⟩ := hi
  refine ⟨fun c k hk => (nomatch hk), ⟨fun h => (nomatch h), fun h => (nomatch h)⟩,
    fun c k hk => (nomatch hk), fun h => (nomatch h), ?_, fun h => (nomatch h), ⟨[], rfl, by simp⟩⟩
  rintro - (c | - | c) ho
  · obtain ⟨k, hk, -⟩ := ho
    cases hk
  · obtain ⟨q, hq, job, hj, -⟩ := ho
    cases hq
    cases hj
  · obtain ⟨k, hk, -⟩ := ho
    cases hk

omit [DecidableEq ω] in
/-- The call `c` changes, and with it none of the requests. -/
theorem outstanding_congr {c : ι} {o : Obj ι} {k' : Option Call} (hs : t.sys = s.sys.set c o k')
    (hr : (∃ q, t.ready = some q ∧ ∃ job ∈ q, job.target = this) ↔
      ∃ q, s.ready = some q ∧ ∃ job ∈ q, job.target = this)
    (hd : (∃ l, k' = some l ∧ l.doIns = true) ↔ ∃ l, s.sys.calls c = some l ∧ l.doIns = true)
    (hw : (∃ l, k' = some l ∧ l.Waiting) ↔ ∃ l, s.sys.calls c = some l ∧ l.Waiting)
    (x : Request ι) : t.Outstanding this x ↔ s.Outstanding this x := by
  cases x with
  | pending d =>
    simp only [PoolSys.Outstanding, hs]
    exact Sys.exists_set hd d
  | ready => exact hr
  | taken d =>
    simp only [PoolSys.Outstanding, hs]
    exact Sys.exists_set hw d

omit [DecidableEq ι] in
/-- Where the requests are the same and so is the flag, the flag still tells of them. -/
theorem flag_congr (h : HandOff this s) (ho : ∀ x, t.Outstanding this x ↔ s.Outstanding this x)
    (hf : t.sys.obj.thrQueueingFlag = s.sys.obj.thrQueueingFlag) :
    (t.sys.obj.thrQueueingFlag = false → ∀ x, ¬ t.Outstanding this x) ∧
      (t.sys.obj.thrQueueingFlag = true → ∃ x, ∀ y, t.Outstanding this y ↔ y = x) := by
  simp only [ho, hf]
  exact ⟨h.idle, h.one⟩

/-- The requests after a step of the call `c`, by what it does to its own. -/
theorem requests_next (h : HandOff this s) {c : ι} {k : Call} {r : Stepped ι}
    (found : Option Found) (hc : s.sys.calls c = some k)
    (hr : (r.call.doIns = k.doIns ∧ (r.call.Waiting ↔ k.Waiting) ∧
        r.obj.thrQueueingFlag = s.sys.obj.thrQueueingFlag) ∨
      (s.sys.obj.thrQueueingFlag = false ∧ r.obj.thrQueueingFlag = true ∧ r.call.doIns = true ∧
        ¬ r.call.Waiting) ∨
      (r.obj.thrQueueingFlag = false ∧ r.call.doIns = k.doIns ∧ ¬ r.call.Waiting ∧
        (s.sys.obj.thrQueueingFlag = true → k.Waiting))) :
    let t : PoolSys ι ω := { s with sys := s.sys.set c r.obj (some r.call), found := found }
    (t.sys.obj.thrQueueingFlag = false → ∀ x, ¬ t.Outstanding this x) ∧
      (t.sys.obj.thrQueueingFlag = true → ∃ x, ∀ y, t.Outstanding this y ↔ y = x) := by
  intro t
  have here : t.sys.calls c = some r.call := Sys.set_calls_self
  have there : ∀ d, d ≠ c → t.sys.calls d = s.sys.calls d := fun d e => Sys.set_calls_of_ne e
  -- a request that is there after the step and not with `c` was there before
  have old : ∀ y, t.Outstanding this y → y ≠ .pending c → y ≠ .taken c → s.Outstanding this y := by
    rintro (d | - | d) hy hp ht
    · have e : d ≠ c := fun e => hp (by rw [e])
      rwa [PoolSys.Outstanding, there d e] at hy
    · exact hy
    · have e : d ≠ c := fun e => ht (by rw [e])
      rwa [PoolSys.Outstanding, there d e] at hy
  rcases hr with ⟨hd, hw, hf⟩ | ⟨hf, hf', hd, hw⟩ | ⟨hf', hd, hw, hk⟩
  · refine h.flag_congr (t := t) (outstanding_congr (t := t) (s := s) (c := c) rfl Iff.rfl ?_ ?_) hf
    · simp [hc, hd]
    · simp [hc, hw]
  · refine ⟨fun hn => ?_, fun _ => ⟨.pending c, fun y => ⟨fun hy => ?_, ?_⟩⟩⟩
    · rw [show t.sys.obj.thrQueueingFlag = true from hf'] at hn
      cases hn
    · by_contra hne
      by_cases ht : y = .taken c
      · obtain ⟨l, hl, hwl⟩ := ht ▸ hy
        obtain rfl : r.call = l := by simpa [here] using hl
        exact hw hwl
      · exact h.idle hf y (old y hy hne ht)
    · rintro rfl
      exact ⟨r.call, here, hd⟩
  · have none : ∀ y, y ≠ .taken c → ¬ s.Outstanding this y := by
      intro y hy ho
      cases hfs : s.sys.obj.thrQueueingFlag with
      | false => exact h.idle hfs y ho
      | true =>
        obtain ⟨x, hx⟩ := h.one hfs
        have hcx := (hx (.taken c)).mp ⟨k, hc, hk hfs⟩
        exact hy ((hx y).mp ho |>.trans hcx.symm)
    refine ⟨fun _ y hy => ?_, fun hn => ?_⟩
    · by_cases hp : y = .pending c
      · subst hp
        obtain ⟨l, hl, hdl⟩ := hy
        obtain rfl : r.call = l := by simpa [here] using hl
        exact none (.pending c) (by simp) ⟨k, hc, hd ▸ hdl⟩
      · by_cases ht : y = .taken c
        · subst ht
          obtain ⟨l, hl, hwl⟩ := hy
          obtain rfl : r.call = l := by simpa [here] using hl
          exact hw hwl
        · exact none y ht (old y hy hp ht)
    · rw [show t.sys.obj.thrQueueingFlag = false from hf'] at hn
      cases hn

/-- A step of a call of the object, other than `ins`. -/
theorem act (h : HandOff this s) (hb : Backed s.sys) {c : ι} {k : Call} {a : CallAct} {r : Stepped ι}
    (hc : s.sys.calls c = some k) (hk : Call.Step T c s.sys.obj k a r) (he : r.eff ≠ .poolIns)
    (hf : a = .filterRet none → ∀ ev, k.pc = .filtering ev → ev.type ≠ .thread) :
    HandOff this { s with
      sys := s.sys.set c r.obj (some r.call), found := r.call.foundAfter s.found } := by
  obtain ⟨q, hq, -⟩ := id hb.bits
  have hok := h.ok c k hc
  have howns := h.owning c k hc
  have hthr := hb.locks.thrInfo c k hc
  have hcall : r.call.Ok := hk.ok hthr hok
  have hlocks : Locks (s.sys.set c r.obj (some r.call)) := hb.locks.step (.act hc hk)
  -- where another call owns the object, this one does not
  have other : ∀ d l, d ≠ c → s.sys.calls d = some l → l.pc.owns = true →
      k.pc.owns = false ∧ r.call.pc.owns = false := by
    intro d l e hd hl
    refine ⟨?_, ?_⟩
    · by_contra hk'
      exact e (hb.locks.owner_unique hd hl hc (by simpa using hk'))
    · by_contra hr'
      have hd' : (s.sys.set c r.obj (some r.call)).calls d = some l := by
        rwa [Sys.set_calls_of_ne e]
      exact e (hlocks.owner_unique hd' hl Sys.set_calls_self (by simpa using hr'))
  have frame : ∀ d l, d ≠ c → s.sys.calls d = some l → l.pc.owns = true →
      l.Owning r.obj (r.call.foundAfter s.found) ∧ (Coming s.sys.obj l → Coming r.obj l) := by
    intro d l e hd hl
    obtain ⟨hk', hr'⟩ := other d l e hd hl
    have hw := h.owning d l hd hl
    obtain ⟨-, -, -, ⟨hque, hflag⟩ | ⟨-, hlm, -, hque, -⟩⟩ := hk.outsider hk' hr'
    · have hc : Coming s.sys.obj l → Coming r.obj l := fun hc => by rwa [Coming, hque]
      rw [Call.foundAfter, if_neg (by simp [hr'])]
      exact ⟨⟨hw.last, hw.inside, by rw [hflag]; exact hw.result, fun ht hn => hc (hw.coming ht hn)⟩, hc⟩
    · have hc : Coming s.sys.obj l → Coming r.obj l := by
        refine fun hc => hc.imp_left ?_
        rintro ⟨q', hq', ev, hev, ht⟩
        obtain ⟨more, hm⟩ := Obj.insEvent_que _ hq' k.ev
        exact ⟨q' ++ more, hque.trans hm, ev, by simp [hev], ht⟩
      have hcrit := hb.locks.not_critical hlm hd
      rw [Call.foundAfter, if_neg (by simp [hr'])]
      refine ⟨⟨hw.last, hw.inside, fun ev w hp => ?_, fun ht hn => hc (hw.coming ht hn)⟩, hc⟩
      rw [hp] at hcrit
      cases hcrit
  have requests := hk.requests hb.alive hb.application he hthr (hb.drained.leave c k hc) howns hok
    h.parked
  obtain ⟨hidle, hone⟩ := h.requests_next (r.call.foundAfter s.found) hc requests
  refine ⟨?_, hk.parked howns hok h.parked, ?_, ?_, hidle, hone, h.once⟩
  · exact Sys.forall_set (fun l hl => Option.some.inj hl ▸ hcall) fun d l _ => h.ok d l
  · refine Sys.forall_set ?_ fun d l e hd hl => (frame d l e hd hl).1
    rintro l ⟨rfl⟩ hr'
    exact hk.owning ⟨q, hq⟩ hf howns hok h.parked hr'
  · intro hfound hflag
    change r.call.foundAfter s.found = some .noWorker at hfound
    change r.obj.thrQueueingFlag = false at hflag
    by_cases hr' : r.call.pc.owns = true
    · by_cases ho : k.pc.owns = true
      · rcases hk.coming_next hf ho hr' with ⟨hi, he⟩ | ⟨x, hx, hfl⟩ | ⟨he, hfl, hcm⟩
        · rw [(howns ho).foundAfter he] at hfound
          exact absurd hfound ((howns ho).inside hi).1
        · rw [Call.foundAfter, if_pos hr', hx] at hfound
          have := hfl (Option.some.inj hfound)
          rw [this] at hflag
          cases hflag
        · rw [(howns ho).foundAfter he] at hfound
          obtain ⟨d, l, hd, hl, hcom⟩ := h.given_up hfound (hfl ▸ hflag)
          obtain rfl := hb.locks.owner_unique hd hl hc ho
          obtain rfl : k = l := by simpa [hc] using hd
          exact ⟨d, r.call, Sys.set_calls_self, hr', hcm hcom⟩
      · -- a rest with the request given up has an owner
        obtain ⟨hp, hs, rfl⟩ := hk.admitted (by simpa using ho) hr'
        have hfound' : s.found = some .noWorker := by
          simpa [Call.foundAfter, Pc.owns, hok.fresh hp] using hfound
        obtain ⟨d, l, hd, hl, -⟩ := h.given_up hfound' hflag
        rw [hb.locks.not_owner hs hd] at hl
        cases hl
    · rw [Call.foundAfter, if_neg hr'] at hfound
      replace hr' : r.call.pc.owns = false := by simpa using hr'
      by_cases ho : k.pc.owns = true
      · obtain ⟨hp, hfl⟩ := hk.released ho hr'
        obtain ⟨d, l, hd, hl, hcom⟩ := h.given_up hfound (hfl ▸ hflag)
        obtain rfl := hb.locks.owner_unique hd hl hc ho
        obtain rfl : k = l := by simpa [hc] using hd
        refine absurd ?_ (hcom.not_empty (by simp [hp, Pc.coming]))
        rw [hb.drained.leave d k hd hp]
        rfl
      · have keep : s.sys.obj.thrQueueingFlag = false → ∃ d l,
            (s.sys.set c r.obj (some r.call)).calls d = some l ∧ l.pc.owns = true ∧ Coming r.obj l := by
          intro hfl
          obtain ⟨d, l, hd, hl, hcom⟩ := h.given_up hfound hfl
          have e : d ≠ c := by
            rintro rfl
            obtain rfl : k = l := by simpa [hc] using hd
            exact ho hl
          exact ⟨d, l, by rw [Sys.set_calls_of_ne e, hd], hl, (frame d l e hd hl).2 hcom⟩
        obtain ⟨-, -, -, ⟨-, hfl⟩ | ⟨hp, -, hs, hque, hfl⟩⟩ := hk.outsider (by simpa using ho) hr'
        · exact keep (hfl ▸ hflag)
        by_cases hth : k.thrInfo.isSome = true
        · -- the worker that is turned away leaves its event with the owner
          obtain ⟨d, l, hd, hl⟩ := hb.locks.exists_owner hs
          have e : d ≠ c := by
            rintro rfl
            obtain rfl : k = l := by simpa [hc] using hd
            exact ho hl
          refine ⟨d, l, by rw [Sys.set_calls_of_ne e, hd], hl, .inl ⟨q ++ [k.ev], ?_, k.ev, by simp, hok.event hth⟩⟩
          exact hque.trans (Obj.insEvent_thread hq (hok.event hth))
        · rw [if_neg hth] at hfl
          exact keep (hfl ▸ hflag)

/-- Every step of the pool and of the calls keeps the invariant. -/
theorem step {a : PoolAct ι ω} {os : List (Obs ι)} (h : HandOff this s) (hb : Backed s.sys)
    (hs : Serves s a) (hstep : PoolSys.Step T this s a t os) : HandOff this t := by
  obtain ⟨q, hq, hcount⟩ := id h.once
  cases hstep with
  | @call c ev hc =>
    have hflag := h.flag_congr (t := { s with sys := s.sys.set c s.sys.obj (some (.enter ev none)) })
      (outstanding_congr (c := c) rfl Iff.rfl (by simp [hc, Call.enter])
        (by simp [hc, Call.Waiting, Call.enter])) rfl
    refine ⟨Sys.forall_set ?_ fun d l _ => h.ok d l, h.parked,
      Sys.forall_set ?_ fun d l _ => h.owning d l, ?_, hflag.1, hflag.2, h.once⟩
    · rintro l ⟨rfl⟩
      exact ⟨fun _ => rfl, fun _ => rfl, by simp [Call.enter], by simp [Call.enter], by simp [Call.enter]⟩
    · rintro l ⟨rfl⟩ ho
      cases ho
    · intro hf hn
      obtain ⟨d, l, hd, hl⟩ := h.given_up hf hn
      have e : d ≠ c := fun e => by simp [← e, hd] at hc
      exact ⟨d, l, by rw [Sys.set_calls_of_ne e, hd], hl⟩
  | act hc hk he =>
    refine h.act hb hc hk he ?_
    rintro rfl ev hp
    exact hs _ hc ev (by rw [hp]; rfl)
  | @handoff c k hc hp ha =>
    have hok := h.ok c k hc
    -- the request with the call is the only one, so that none is in the queue
    have hpend : s.Outstanding this (.pending c) := ⟨k, hc, hok.handoff hp⟩
    have hflag : s.sys.obj.thrQueueingFlag = true := by
      by_contra hn
      exact h.idle (by simpa using hn) _ hpend
    obtain ⟨x, hx⟩ := h.one hflag
    obtain rfl := (hx (.pending c)).mp hpend
    have hnone : ∀ job ∈ q, job.target ≠ this := fun job hm hj =>
      absurd ((hx .ready).mp ⟨q, hq, job, hm, hj⟩) (by simp)
    have hz : q.countP (·.target = this) = 0 := by simpa [List.countP_eq_zero] using hnone
    refine ⟨Sys.forall_set ?_ fun d l _ => h.ok d l, h.parked,
      Sys.forall_set ?_ fun d l _ => h.owning d l, ?_, ?_, fun _ => ⟨.ready, ?_⟩,
      q ++ [⟨s.nextId, this⟩], by simp [PoolSys.ins, hq], by simp [List.countP_append, hz]⟩
    · rintro l ⟨rfl⟩
      exact ⟨by simp, by simp, hok.event, fun hw => ⟨(hok.worker hw).1, rfl⟩, by simp⟩
    · rintro l ⟨rfl⟩ ho
      cases ho
    · intro _ hn
      rw [show s.sys.obj.thrQueueingFlag = false from hn] at hflag
      cases hflag
    · intro hn
      rw [show s.sys.obj.thrQueueingFlag = false from hn] at hflag
      cases hflag
    · rintro (d | - | d)
      · refine ⟨?_, by simp⟩
        rintro ⟨l, hl, hd⟩
        by_cases e : d = c
        · subst e
          obtain rfl : _ = l := by simpa [PoolSys.ins] using hl
          cases hd
        · have := (hx (.pending d)).mp ⟨l, by simpa [PoolSys.ins, Sys.set_calls_of_ne e] using hl, hd⟩
          exact absurd (Request.pending.inj this) e
      · exact ⟨fun _ => rfl, fun _ => ⟨_, by simp [PoolSys.ins, hq]; rfl, ⟨s.nextId, this⟩, by simp, rfl⟩⟩
      · refine ⟨?_, by simp⟩
        rintro ⟨l, hl, hw⟩
        by_cases e : d = c
        · subst e
          obtain rfl : _ = l := by simpa [PoolSys.ins] using hl
          simp [Call.Waiting, Pc.owns] at hw
        · have := (hx (.taken d)).mp ⟨l, by simpa [PoolSys.ins, Sys.set_calls_of_ne e] using hl, hw⟩
          cases this
  | @ret c k hc hp =>
    have hd := (h.ok c k hc).plain (.inr (.inr hp))
    have hflag := h.flag_congr (t := { s with sys := s.sys.set c s.sys.obj none })
      (outstanding_congr (c := c) rfl Iff.rfl (by simp [hc, hd])
        (by simp [hc, Call.Waiting, hp, Pc.owns])) rfl
    refine ⟨Sys.forall_set (fun l hl => by cases hl) fun d l _ => h.ok d l, h.parked,
      Sys.forall_set (fun l hl => by cases hl) fun d l _ => h.owning d l, ?_, hflag.1, hflag.2, h.once⟩
    intro hf hn
    obtain ⟨d, l, hd, hl, hcom⟩ := h.given_up hf hn
    have e : d ≠ c := by
      rintro rfl
      obtain rfl : k = l := by simpa [hc] using hd
      rw [hp] at hl
      cases hl
    exact ⟨d, l, by rw [Sys.set_calls_of_ne e, hd], hl, hcom⟩
  | @take c job q' hr hj hc =>
    obtain rfl : q = job :: q' := by simpa [hq] using hr
    rw [List.countP_cons, if_pos (by simpa using hj)] at hcount
    have hnone : ∀ j ∈ q', j.target ≠ this := by
      have hz : q'.countP (·.target = this) = 0 := by omega
      simpa [List.countP_eq_zero] using hz
    -- the request in the queue is the only one
    have hready : s.Outstanding this .ready := ⟨_, hr, job, by simp, hj⟩
    have hflag : s.sys.obj.thrQueueingFlag = true := by
      by_contra hn
      exact h.idle (by simpa using hn) _ hready
    obtain ⟨x, hx⟩ := h.one hflag
    obtain rfl := (hx .ready).mp hready
    refine ⟨Sys.forall_set ?_ fun d l _ => h.ok d l, h.parked,
      Sys.forall_set ?_ fun d l _ => h.owning d l, ?_, ?_, fun _ => ⟨.taken c, ?_⟩, q', rfl, ?_⟩
    · rintro l ⟨rfl⟩
      exact ⟨fun _ => rfl, fun _ => rfl, fun _ => rfl, by simp [Call.enter], by simp [Call.enter]⟩
    · rintro l ⟨rfl⟩ ho
      cases ho
    · intro _ hn
      rw [show s.sys.obj.thrQueueingFlag = false from hn] at hflag
      cases hflag
    · intro hn
      rw [show s.sys.obj.thrQueueingFlag = false from hn] at hflag
      cases hflag
    · rintro (d | - | d)
      · refine ⟨?_, by simp⟩
        rintro ⟨l, hl, hd⟩
        by_cases e : d = c
        · subst e
          obtain rfl : _ = l := by simpa using hl
          cases hd
        · have := (hx (.pending d)).mp ⟨l, by simpa [Sys.set_calls_of_ne e] using hl, hd⟩
          cases this
      · refine ⟨?_, by simp⟩
        rintro ⟨q'', hq'', j, hm, hj'⟩
        obtain rfl : q' = q'' := by simpa using hq''
        exact absurd hj' (hnone j hm)
      · constructor
        · rintro ⟨l, hl, hw⟩
          by_cases e : d = c
          · rw [e]
          · have := (hx (.taken d)).mp ⟨l, by simpa [Sys.set_calls_of_ne e] using hl, hw⟩
            cases this
        · rintro ⟨rfl⟩
          exact ⟨_, Sys.set_calls_self, rfl, rfl, .inl rfl⟩
    · omega
  | @takeOther c job q' hr hj =>
    obtain rfl : q = job :: q' := by simpa [hq] using hr
    rw [List.countP_cons, if_neg (by simpa using hj)] at hcount
    have hflag := h.flag_congr (t := { s with ready := some q' }) (fun x => by
      cases x with
      | ready => simp [PoolSys.Outstanding, hr, hj]
      | _ => exact Iff.rfl) rfl
    exact ⟨h.ok, h.parked, h.owning, h.given_up, hflag.1, hflag.2, q', rfl, by omega⟩
  | @insOther target ht =>
    have hflag := h.flag_congr (t := s.ins target) (fun x => by
      cases x with
      | ready =>
        simp only [PoolSys.Outstanding, PoolSys.ins, hq, Option.map_some, Option.some.injEq,
          exists_eq_left', List.mem_append, List.mem_singleton]
        constructor
        · rintro ⟨job, hm | rfl, hj⟩
          · exact ⟨job, hm, hj⟩
          · exact absurd hj ht
        · rintro ⟨job, hm, hj⟩
          exact ⟨job, .inl hm, hj⟩
      | _ => exact Iff.rfl) rfl
    refine ⟨h.ok, h.parked, h.owning, h.given_up, hflag.1, hflag.2, q ++ [⟨s.nextId, target⟩],
      by simp [PoolSys.ins, hq], ?_⟩
    rw [List.countP_append]
    simpa [ht] using hcount
  | fold => exact absurd hs id

end HandOff

/-- The law of the hand-off: the flag is set exactly while a request is
outstanding; there is never more than one; and an object that rests, after an
evaluation that found a `TS_THREAD` state and no worker, has one. -/
structure HandOffLaw (this : ω) (s : PoolSys ι ω) : Prop where
  flag : s.sys.obj.thrQueueingFlag = true ↔ ∃ x, s.Outstanding this x
  unique : ∀ x y, s.Outstanding this x → s.Outstanding this y → x = y
  once : ∀ q, s.ready = some q → q.countP (·.target = this) ≤ 1
  rest : s.sys.obj.stateLock = false → s.found = some .noWorker →
    s.sys.obj.state.thr = true ∧ ∃ x, s.Outstanding this x

omit [DecidableEq ι] in
theorem HandOff.law (h : HandOff this s) (hl : Locks s.sys) : HandOffLaw this s := by
  have hflag : s.sys.obj.thrQueueingFlag = true ↔ ∃ x, s.Outstanding this x := by
    constructor
    · intro hf
      obtain ⟨x, hx⟩ := h.one hf
      exact ⟨x, (hx x).mpr rfl⟩
    · rintro ⟨x, hx⟩
      by_contra hn
      exact h.idle (by simpa using hn) x hx
  refine ⟨hflag, fun x y hx hy => ?_, fun q hq => ?_, fun hs hf => ⟨(h.parked.state hf).2, ?_⟩⟩
  · obtain ⟨z, hz⟩ := h.one (hflag.mpr ⟨x, hx⟩)
    exact ((hz x).mp hx).trans ((hz y).mp hy).symm
  · obtain ⟨q', hq', hc⟩ := h.once
    obtain rfl : q = q' := by simpa [hq] using hq'
    exact hc
  · rw [← hflag]
    by_contra hn
    obtain ⟨c, k, hk, ho, -⟩ := h.given_up hf (by simpa using hn)
    rw [hl.not_owner hs hk] at ho
    cases ho

theorem handOff (h : (Pool ι T this).RunIf Serves tr s) (hz : s.sys.obj.enterZom = false) :
    HandOff this s := by
  have hlive := h.backward (P := fun s => s.sys.obj.enterZom = false) hz fun s a t os hs ht => by
    rcases PoolSys.step_sys hs with ⟨he, -⟩ | ⟨b, hb⟩
    · rwa [he] at ht
    · exact enterZom_back hb ht
  exact hlive.invariant (I := fun _ s => HandOff this s) (fun s hi => HandOff.init hi)
    fun tr s a t os hr ih hc hs =>
      ih.step (backed hr.run hc.2) hc.1 (PoolSys.step_cases hs)

/-- The hand-off law holds of an object that has not entered `C_ZOM`, in every
run in which the pool is not folded and the filter swallows no `TSE_THREAD`. -/
theorem handOff_law (h : (Pool ι T this).RunIf Serves tr s) (hz : s.sys.obj.enterZom = false) :
    HandOffLaw this s :=
  (handOff h hz).law (locks (Pool.dispatch h))

end

-- ---------------------------------------------------------------------------
-- Where no request is left
-- ---------------------------------------------------------------------------

/-- `TSE_INIT` brings an object without a filter into a `TS_THREAD` state. -/
def parkRun : List (PoolAct Bool Unit) :=
  [.call true initEvent, .act true .go, .act true .go, .act true .go, .act true .go,
    .act true (.funcRet (.ret (.go actThread))), .act true .go, .act true .go, .act true .go,
    .act true .go, .act true .go, .act true .go, .act true .go, .act true .go, .act true .go,
    .ret true]

theorem parked_request : ∃ tr s, (Pool Bool .tinyState ()).Run tr s ∧
    s.sys.obj.thrQueueingFlag = true ∧ HandOffLaw () s := by
  obtain ⟨tr, s, h, hz, hf⟩ := Machine.exists_run (M := Pool Bool .tinyState ()) (C := Serves)
    (P := fun _ s => s.sys.obj.enterZom = false ∧ s.sys.obj.thrQueueingFlag = true)
    parkRun ⟨false, rfl⟩ (by decide)
  exact ⟨tr, s, h.run, hf, handOff_law h hz⟩

/-- The same with a filter, which then swallows the `TSE_THREAD` of the worker. -/
def swallowRun : List (PoolAct Bool Unit) :=
  [.call true initEvent, .act true .go, .act true .go, .act true .go,
    .act true (.filterRet (some initEvent)), .act true .go, .act true .go, .act true .go,
    .act true (.funcRet (.ret (.go actThread))), .act true .go, .act true .go, .act true .go,
    .act true .go, .act true .go, .act true .go, .act true .go, .act true .go, .act true .go,
    .ret true,
    .take false, .act false .go, .act false .go, .act false .go, .act false (.filterRet none),
    .act false .go, .act false .go, .act false .go, .act false .go, .ret false]

/-- A request in the narrower sense in which a worker's request is over once it
has been admitted. -/
def PoolSys.Requested {ω : Type} (this : ω) (s : PoolSys ι ω) : Request ι → Prop
  | .pending c => ∃ k, s.sys.calls c = some k ∧ k.doIns = true
  | .ready => ∃ q, s.ready = some q ∧ ∃ job ∈ q, job.target = this
  | .taken c => ∃ k, s.sys.calls c = some k ∧ k.thrInfo.isSome = true ∧ k.pc = .enter

/-- Nothing is requested where the queue is empty or gone, no call has `do_ins`
set, and no worker stands before admission. -/
def PoolSys.Bare {ω : Type} (s : PoolSys ι ω) : Prop :=
  s.ready.getD [] = [] ∧
    ∀ c, ∀ k ∈ s.sys.calls c, k.doIns = false ∧ ¬ (k.thrInfo.isSome = true ∧ k.pc = .enter)

instance {ω : Type} [DecidableEq ω] (s : PoolSys Bool ω) : Decidable s.Bare := by
  unfold PoolSys.Bare
  infer_instance

theorem PoolSys.Bare.not_requested {ω : Type} {this : ω} {s : PoolSys ι ω} (h : s.Bare) :
    ∀ x, ¬ s.Requested this x := by
  rintro (c | - | c) hx
  · obtain ⟨k, hk, hd⟩ := hx
    rw [(h.2 c k hk).1] at hd
    cases hd
  · obtain ⟨q, hq, job, hm, -⟩ := hx
    rw [List.eq_nil_of_length_eq_zero (l := q) (by simpa [hq] using h.1)] at hm
    cases hm
  · obtain ⟨k, hk, hw⟩ := hx
    exact (h.2 c k hk).2 hw

/-- The flag is set and no request is left: the pool was folded before the
request came; the filter swallowed the event of the worker; the worker has been
admitted and has not evaluated the state yet. -/
theorem request_lost :
    (∃ tr s, (Pool Bool .tinyState ()).Run tr s ∧ (s.sys.obj.enterZom = false ∧
      s.sys.obj.thrQueueingFlag = true ∧ s.sys.obj.stateLock = false ∧ s.ready = none) ∧
      ∀ x, ¬ s.Requested () x) ∧
    (∃ tr s, (Pool Bool .tinyState ()).Run tr s ∧ (s.sys.obj.enterZom = false ∧
      s.sys.obj.thrQueueingFlag = true ∧ s.sys.obj.stateLock = false ∧ s.ready = some []) ∧
      ∀ x, ¬ s.Requested () x) ∧
    (∃ tr s, (Pool Bool .tinyState ()).Run tr s ∧ (s.sys.obj.enterZom = false ∧
      s.sys.obj.thrQueueingFlag = true ∧ s.sys.obj.stateLock = true ∧ s.ready = some []) ∧
      ∀ x, ¬ s.Requested () x) := by
  refine ⟨?_, ?_, ?_⟩
  · obtain ⟨tr, s, h, hs, hb⟩ := Machine.exists_run (M := Pool Bool .tinyState ())
      (C := fun _ _ => True)
      (P := fun _ s => (s.sys.obj.enterZom = false ∧ s.sys.obj.thrQueueingFlag = true ∧
        s.sys.obj.stateLock = false ∧ s.ready = none) ∧ s.Bare)
      (.fold :: parkRun) ⟨false, rfl⟩ (by decide)
    exact ⟨tr, s, h, hs, hb.not_requested⟩
  · obtain ⟨tr, s, h, hs, hb⟩ := Machine.exists_run (M := Pool Bool .tinyState ())
      (C := fun _ _ => True)
      (P := fun _ s => (s.sys.obj.enterZom = false ∧ s.sys.obj.thrQueueingFlag = true ∧
        s.sys.obj.stateLock = false ∧ s.ready = some []) ∧ s.Bare)
      swallowRun ⟨true, rfl⟩ (by decide)
    exact ⟨tr, s, h, hs, hb.not_requested⟩
  · obtain ⟨tr, s, h, hs, hb⟩ := Machine.exists_run (M := Pool Bool .tinyState ())
      (C := fun _ _ => True)
      (P := fun _ s => (s.sys.obj.enterZom = false ∧ s.sys.obj.thrQueueingFlag = true ∧
        s.sys.obj.stateLock = true ∧ s.ready = some []) ∧ s.Bare)
      (parkRun.append [.take false, .act false .go]) ⟨false, rfl⟩ (by decide)
    exact ⟨tr, s, h, hs, hb.not_requested⟩

end TinyState
