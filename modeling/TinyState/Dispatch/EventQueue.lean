import TinyState.Dispatch.Locks
import TinyState.Lib.Coalescing

/-!
# The event queue

While the object is alive, `que` with its bit set `onlyOneEvent_occur` is a
queue that merges, in the sense of `Lib.Coalescing`: the bits say which of the
merging types are in the queue. The dispatcher gives the object back with the
queue drained, so that nothing waits in it unattended.
-/

namespace TinyState

open Transition

variable {ι : Type} {T : StateTable}

/-- What an observation means for the queue. -/
@[simp] def Obs.queue? : Obs ι → Option (Coalescing.Seen StdEvent)
  | .accept _ ev => some (.accepted ev)
  | .coalesce _ ev => some (.merged ev)
  | .dequeue _ ev => some (.taken ev)
  | .fetch .. | .invoke .. | .discard .. => none

/-- The events put into the queue, in the order in which they came. -/
def accepted (tr : List (Obs ι)) : List StdEvent :=
  tr.filterMap fun | .accept _ ev => some ev | _ => none

/-- The events taken out of the queue, in order. -/
def dequeued (tr : List (Obs ι)) : List StdEvent :=
  tr.filterMap fun | .dequeue _ ev => some ev | _ => none

/-- An event of the type was offered, and put into the queue or merged. -/
def Obs.Offers (ob : Obs ι) (t : EventType) : Prop :=
  ∃ c ev, (ob = .accept c ev ∨ ob = .coalesce c ev) ∧ ev.type = t

/-- An event of the type was taken out of the queue. -/
def Obs.Takes (ob : Obs ι) (t : EventType) : Prop := ∃ c ev, ob = .dequeue c ev ∧ ev.type = t

/-- The bit set tells which of the merging types are in the queue. -/
def Obj.BitsAgree (o : Obj ι) : Prop :=
  ∃ q, o.que = some q ∧ ∀ t, HasType o.onlyOneEventOccur t ↔ t.Coalesced ∧ ∃ ev ∈ q, ev.type = t

-- ---------------------------------------------------------------------------
-- One step
-- ---------------------------------------------------------------------------

namespace Call.Step

variable {c : ι} {o : Obj ι} {k : Call} {a : CallAct} {r : Stepped ι}

theorem zom_entered (h : Step T c o k a r) (hz : o.state.isZom = true → o.enterZom = true) :
    r.obj.state.isZom = true → r.obj.enterZom = true := by
  have check : ∀ w, (o.invokeCheck w).state.isZom = true → (o.invokeCheck w).enterZom = true := by
    intro w
    cases w with
    | none => exact hz
    | some s =>
      unfold Obj.invokeCheck
      dsimp only
      split
      · exact hz
      · intro hs
        by_cases ho : o.state.isZom = true
        · simp [hz ho]
        · simp [ho, show s.isZom = true from hs]
  cases h with
  | zom | again | done => exact check _
  | _ => exact hz

theorem enterZom_mono (h : Step T c o k a r) (hr : r.obj.enterZom = false) : o.enterZom = false := by
  have check : ∀ w, (o.invokeCheck w).enterZom = false → o.enterZom = false := by
    intro w
    cases w with
    | none => exact id
    | some s =>
      unfold Obj.invokeCheck
      dsimp only
      split
      · exact id
      · intro hs
        exact (Bool.or_eq_false_iff.mp hs).1
  cases h with
  | zom | again | done => exact check _ hr
  | _ => exact hr

/-- What a step does to the queue of an object that is alive: nothing, or it
offers the event of the call, or it takes the first event. -/
theorem queue (h : Step T c o k a r) (hz : o.state.isZom = false) :
    (r.obj.que = o.que ∧ r.obj.onlyOneEventOccur = o.onlyOneEventOccur ∧
      r.obs.filterMap Obs.queue? = []) ∨
    (k.pc = .enter ∧ o.lm = none ∧ r.obj.que = (o.insEvent k.ev).que ∧
      r.obj.onlyOneEventOccur = (o.insEvent k.ev).onlyOneEventOccur ∧
      r.obs = [o.offered c k.ev]) ∨
    ∃ ev q, (k.pc.critical = true ∨ o.lm = none) ∧ k.pc.owns = true ∧ o.que = some (ev :: q) ∧
      r.obj.que = some q ∧
      r.obj.onlyOneEventOccur = o.onlyOneEventOccur &&& ~~~ tseEvm ev.type ∧
      r.obs.filterMap Obs.queue? = [.taken ev] := by
  cases h with
  | busy hp hl | admission hp hl => exact .inr (.inl ⟨hp, hl, rfl, rfl, rfl⟩)
  | fetch hp hq | toFilter hp hq =>
    exact .inr (.inr ⟨_, _, .inl (by rw [hp]; rfl), by rw [hp]; rfl, hq, rfl, rfl, rfl⟩)
  | delSome hp hl hq =>
    refine .inr (.inr ⟨_, _, .inr hl, ?_, hq, rfl, rfl, rfl⟩)
    cases hk : k.pc <;> simp_all [Pc.inFunc, Pc.owns]
  | dropQueue _ hs =>
    have := T.last2_category
    simp [TsTrans.isZom, hs, this] at hz
  | _ => exact .inl ⟨rfl, rfl, rfl⟩

theorem to_leave (h : Step T c o k a r) (hr : r.call.pc = .leave) :
    r.obj = o ∧ o.que.getD [] = [] := by
  cases h with
  | drained _ hq => exact ⟨rfl, hq⟩
  | notify => dsimp only at hr; split at hr <;> cases hr
  | delNone hp | delSome hp | dropQueue hp =>
    rw [show k.pc = .leave from hr] at hp
    cases hp
  | _ => cases hr

theorem unlocked (h : Step T c o k a r) (hr : r.obj.stateLock = false) :
    (k.pc = .leave ∧ r.obj.que = o.que) ∨
      o.stateLock = false ∧ (k.pc ≠ .enter ∨ r.obj.que = o.que) := by
  cases h with
  | leave hp => exact .inl ⟨hp, rfl⟩
  | busy _ _ _ hs => exact absurd (hs.symm.trans hr) (by simp)
  | admission => cases hr
  | delNone hp | delSome hp | dropQueue hp =>
    refine .inr ⟨hr, .inl ?_⟩
    intro he
    rw [he] at hp
    cases hp
  | dead | escape => exact .inr ⟨hr, .inr rfl⟩
  | funcRet hp => exact .inr ⟨hr, .inr rfl⟩
  | _ hp => exact .inr ⟨hr, .inl (by simp [hp])⟩

end Call.Step

/-- `_insEvent` merges exactly as the abstract queue does. -/
theorem Obj.BitsAgree.inserts_iff {o : Obj ι} (h : o.BitsAgree) {q : List StdEvent}
    (hq : o.que = some q) (ev : StdEvent) :
    o.Inserts ev ↔ ¬ Coalescing.Merges StdEvent.type EventType.Coalesced q ev := by
  obtain ⟨q', hq', hb⟩ := h
  obtain rfl : q = q' := by simpa [hq] using hq'
  unfold Obj.Inserts Coalescing.Merges
  rw [and_tseEvm_eq_zero, hb]
  constructor
  · rintro (hm | hm)
    · exact fun h => h.1 hm
    · exact hm
  · exact .inr

theorem Obj.BitsAgree.insEvent {o : Obj ι} (h : o.BitsAgree) {q : List StdEvent}
    (hq : o.que = some q) (ev : StdEvent) :
    (o.insEvent ev).que = some (if o.Inserts ev then q ++ [ev] else q) ∧
      (o.insEvent ev).BitsAgree := by
  obtain ⟨q', hq', hb⟩ := h
  obtain rfl : q = q' := by simpa [hq] using hq'
  unfold Obj.insEvent Obj.Inserts
  by_cases hm : tseEvm ev.type &&& onlyOneEventMask = 0#64
  · have hc : ¬ ev.type.Coalesced := fun h => h hm
    simp only [hm, if_true, true_or, Obj.queIns, hq, Option.map_some]
    refine ⟨trivial, q ++ [ev], rfl, fun t => (hb t).trans ?_⟩
    constructor
    · rintro ⟨ht, e, he, hk⟩
      exact ⟨ht, e, by simp [he], hk⟩
    · rintro ⟨ht, e, he, hk⟩
      rcases List.mem_append.mp he with he | he
      · exact ⟨ht, e, he, hk⟩
      · obtain rfl : e = ev := by simpa using he
        exact absurd (hk ▸ ht) hc
  · have hc : ev.type.Coalesced := hm
    by_cases ho : o.onlyOneEventOccur &&& tseEvm ev.type = 0#64
    · simp only [hm, ho, if_true, if_false, or_true, Obj.queIns, hq, Option.map_some]
      refine ⟨trivial, q ++ [ev], rfl, fun t => ?_⟩
      rw [hasType_insert, hb]
      constructor
      · rintro (⟨ht, e, he, hk⟩ | rfl)
        · exact ⟨ht, e, by simp [he], hk⟩
        · exact ⟨hc, ev, by simp, rfl⟩
      · rintro ⟨ht, e, he, hk⟩
        rcases List.mem_append.mp he with he | he
        · exact .inl ⟨ht, e, he, hk⟩
        · obtain rfl : e = ev := by simpa using he
          exact .inr hk.symm
    · simp only [hm, ho, if_false, or_self, hq]
      exact ⟨trivial, q, hq, hb⟩

theorem Obj.insEvent_que (o : Obj ι) {q : List StdEvent} (hq : o.que = some q) (ev : StdEvent) :
    ∃ more, (o.insEvent ev).que = some (q ++ more) := by
  unfold insEvent queIns
  split
  · exact ⟨[ev], by simp [hq]⟩
  · split
    · exact ⟨[ev], by simp [hq]⟩
    · exact ⟨[], by simp [hq]⟩

/-- Taking the first event of a merging type clears its bit, since no other of
that type is left. -/
theorem Obj.BitsAgree.erase {o : Obj ι} (h : o.BitsAgree) {ev : StdEvent} {q : List StdEvent}
    (hq : o.que = some (ev :: q))
    (hone : ev.type.Coalesced → (ev :: q).countP (·.type = ev.type) ≤ 1) {t : EventType} :
    HasType (o.onlyOneEventOccur &&& ~~~ tseEvm ev.type) t ↔
      t.Coalesced ∧ ∃ e ∈ q, e.type = t := by
  obtain ⟨q', hq', hb⟩ := h
  obtain rfl : ev :: q = q' := by simpa [hq] using hq'
  rw [hasType_erase, hb]
  constructor
  · rintro ⟨⟨ht, e, he, hk⟩, hne⟩
    rcases List.mem_cons.mp he with rfl | he
    · exact absurd hk.symm hne
    · exact ⟨ht, e, he, hk⟩
  · rintro ⟨ht, e, he, hk⟩
    refine ⟨⟨ht, e, by simp [he], hk⟩, ?_⟩
    rintro rfl
    have := hone ht
    rw [List.countP_cons, if_pos (by simp)] at this
    have hz : q.countP (·.type = ev.type) = 0 := by omega
    exact List.countP_eq_zero.mp hz e he (by simpa using hk)

theorem accepted_eq (tr : List (Obs ι)) :
    (tr.filterMap Obs.queue?).filterMap Coalescing.Seen.accepted? = accepted tr := by
  rw [List.filterMap_filterMap]
  congr 1
  funext ob
  cases ob <;> rfl

theorem dequeued_eq (tr : List (Obs ι)) :
    (tr.filterMap Obs.queue?).filterMap Coalescing.Seen.taken? = dequeued tr := by
  rw [List.filterMap_filterMap]
  congr 1
  funext ob
  cases ob <;> rfl

theorem Pc.owns_of_inFunc {p : Pc} (h : p.inFunc = true) : p.owns = true := by
  cases p <;> first | rfl | cases h

-- ---------------------------------------------------------------------------
-- Runs
-- ---------------------------------------------------------------------------

section

variable [DecidableEq ι] {s t : Sys ι} {a : Act ι} {tr os : List (Obs ι)}

/-- An object whose state is of class `C_ZOM` has entered it by `invoke_check`. -/
theorem zom_entered (h : (Dispatch ι T).Run tr s) :
    s.obj.state.isZom = true → s.obj.enterZom = true := by
  refine h.stateInvariant (I := fun s => s.obj.state.isZom = true → s.obj.enterZom = true) ?_ ?_
  · rintro s ⟨f, rfl⟩ hz
    have hi := T.ini_category
    simp [Sys.inherit, Obj.inherit, TsTrans.isZom, hi] at hz
  · intro s a t os ih _ hs
    cases Sys.step_cases hs with
    | call | ret => exact ih
    | act _ hk => exact hk.zom_entered ih

theorem enterZom_back {a : Act ι} (h : s.step T a = some (t, os)) (hz : t.obj.enterZom = false) :
    s.obj.enterZom = false := by
  cases Sys.step_cases h with
  | call | ret => exact hz
  | act _ hk => exact hk.enterZom_mono hz

theorem not_isZom (h : (Dispatch ι T).Run tr s) (hz : s.obj.enterZom = false) :
    s.obj.state.isZom = false := by
  by_contra hne
  simp [zom_entered h (by simpa using hne)] at hz

/-- An object that has not entered `C_ZOM` was alive in all of the run. -/
theorem Run.alive (h : (Dispatch ι T).Run tr s) (hz : s.obj.enterZom = false) :
    (Dispatch ι T).RunIf (fun s _ => s.obj.state.isZom = false) tr s := by
  refine (h.backward (P := fun s => s.obj.enterZom = false) hz ?_).mono ?_
  · intro s a t os hs ht
    exact enterZom_back hs ht
  · intro tr s a hr hc
    exact not_isZom hr.run hc.2

/-- While the object is alive its queue does what the abstract queue does. -/
abbrev EventQueue : Machine (List StdEvent) (Coalescing.Op StdEvent) (Coalescing.Seen StdEvent) :=
  Coalescing.machine StdEvent.type EventType.Coalesced

theorem queue_refines (h : (Dispatch ι T).RunIf (fun s _ => s.obj.state.isZom = false) tr s) :
    s.obj.BitsAgree ∧ EventQueue.Run (tr.filterMap Obs.queue?) (s.obj.que.getD []) := by
  refine h.invariant (I := fun tr s => s.obj.BitsAgree ∧
    EventQueue.Run (tr.filterMap Obs.queue?) (s.obj.que.getD [])) ?_ ?_
  · rintro s ⟨f, rfl⟩
    exact ⟨⟨[], rfl, fun t => by simp [Sys.inherit, Obj.inherit]⟩, .start rfl⟩
  intro tr s a t os _ ⟨hb, hq⟩ hz hs
  rw [List.filterMap_append]
  cases Sys.step_cases hs with
  | call | ret => simpa using ⟨hb, hq⟩
  | @act c k a r _ hk =>
    obtain ⟨q, hsq, hbits⟩ := hb
    rw [hsq] at hq
    obtain ⟨he, ho, hn⟩ | ⟨-, -, he, ho, hn⟩ | ⟨ev, q', -, -, he, hr, ho, hn⟩ := hk.queue hz
    · rw [hn, List.append_nil, Sys.set_obj, he, hsq]
      exact ⟨⟨q, by rw [he, hsq], by rwa [ho]⟩, hq⟩
    · have hb : s.obj.BitsAgree := ⟨q, hsq, hbits⟩
      obtain ⟨hins, q', hq', hb'⟩ := hb.insEvent hsq k.ev
      refine ⟨⟨q', by rw [Sys.set_obj, he, hq'], by rwa [Sys.set_obj, ho]⟩, hq.next (a := .offer k.ev) ?_⟩
      rw [hn, Sys.set_obj, he, hins]
      show Coalescing.step StdEvent.type EventType.Coalesced q (.offer k.ev) = _
      unfold Coalescing.step Obj.offered
      by_cases hm : s.obj.Inserts k.ev
      · have := (hb.inserts_iff hsq k.ev).mp hm
        simp [hm, this]
      · have : Coalescing.Merges StdEvent.type EventType.Coalesced q k.ev :=
          not_not.mp fun h => hm ((hb.inserts_iff hsq k.ev).mpr h)
        simp [hm, this]
    · obtain rfl : q = ev :: q' := by simpa [hsq] using he
      have hb : s.obj.BitsAgree := ⟨_, hsq, hbits⟩
      refine ⟨⟨q', hr, fun u => ?_⟩, hq.next (a := .take) ?_⟩
      · rw [Sys.set_obj, ho]
        exact hb.erase hsq (Coalescing.at_most_one hq)
      · rw [Sys.set_obj, hr, hn]
        rfl

/-- The owner drains the queue before it gives `state_lock` back. -/
structure Drained (s : Sys ι) : Prop where
  leave : ∀ c k, s.calls c = some k → k.pc = .leave → s.obj.que = some []
  rest : s.obj.stateLock = false → s.obj.que = some []

theorem drained (h : (Dispatch ι T).RunIf (fun s _ => s.obj.state.isZom = false) tr s) :
    Drained s := by
  refine h.invariant (I := fun _ s => Drained s) ?_ ?_
  · rintro s ⟨f, rfl⟩
    exact ⟨fun c k hk => (nomatch hk), fun _ => rfl⟩
  intro tr s a t os hr hd hz hs
  have hl := locks hr.run
  cases Sys.step_cases hs with
  | @call c ev thrInfo hc =>
    refine ⟨Sys.forall_set ?_ fun d l _ => hd.leave d l, hd.rest⟩
    rintro l ⟨rfl⟩ hp
    cases hp
  | ret _ _ => exact ⟨Sys.forall_set (fun l hk => nomatch hk) fun d l _ => hd.leave d l, hd.rest⟩
  | @act c k a r hc hk =>
    obtain ⟨⟨q, hq, -⟩, -⟩ := queue_refines hr
    refine ⟨Sys.forall_set ?_ ?_, ?_⟩
    · rintro l ⟨rfl⟩ hp
      obtain ⟨he, hn⟩ := hk.to_leave hp
      rw [Sys.set_obj, he, hq]
      simpa [hq] using hn
    · -- another call in its critical section keeps this one from the queue
      intro d l e hdl hp
      have hlm := hl.lm_of_critical hdl (by rw [hp]; rfl)
      obtain ⟨he, -⟩ | ⟨-, hn, -⟩ | ⟨_, _, hn | hn, -⟩ := hk.queue hz
      · rw [Sys.set_obj, he]
        exact hd.leave d l hdl hp
      · simp [hlm] at hn
      · rw [hl.lm_of_critical hc hn] at hlm
        exact absurd (Option.some.inj hlm).symm e
      · simp [hlm] at hn
    · intro hf
      obtain ⟨hp, he⟩ | ⟨hsf, hp⟩ := hk.unlocked hf
      · rw [Sys.set_obj, he]
        exact hd.leave c k hc hp
      · obtain ⟨he, -⟩ | ⟨he, -⟩ | ⟨_, _, -, ho, -⟩ := hk.queue hz
        · rw [Sys.set_obj, he]
          exact hd.rest hsf
        · rw [Sys.set_obj, hp.resolve_left (not_not.mpr he)]
          exact hd.rest hsf
        · rw [hl.not_owner hsf hc] at ho
          cases ho

/-- What holds of the event queue `q` of an object that has not entered
`C_ZOM`, after the run that is seen as `tr`. -/
structure QueueLaw (tr : List (Obs ι)) (s : Sys ι) (q : List StdEvent) : Prop where
  que : s.obj.que = some q
  rest : s.obj.stateLock = false → (∀ c k, s.calls c = some k → k.pc.critical = false) → q = []
  fifo : accepted tr = dequeued tr ++ q
  once : ∀ t, t.Coalesced → q.countP (·.type = t) ≤ 1 ∧
    (HasType s.obj.onlyOneEventOccur t ↔ ∃ ev ∈ q, ev.type = t)
  kept : ∀ before ob after t, tr = before ++ ob :: after → ob.Offers t → t.Coalesced →
    (∃ ob' ∈ after, ob'.Takes t) ∨ ∃ ev ∈ q, ev.type = t
  alone : ∀ c d k l, s.calls c = some k → k.pc.inFunc = true → s.calls d = some l →
    l.pc.inFunc = true → c = d

theorem queueLaw (h : (Dispatch ι T).Run tr s) (hz : s.obj.enterZom = false) :
    ∃ q, QueueLaw tr s q := by
  have ha := Run.alive h hz
  have hl := locks h
  obtain ⟨⟨q, hq, hbits⟩, hr⟩ := queue_refines ha
  simp only [hq, Option.getD_some] at hr
  refine ⟨q, hq, ?_, ?_, ?_, ?_, ?_⟩
  · intro hs _
    simpa [hq] using (drained ha).rest hs
  · rw [← accepted_eq, ← dequeued_eq]
    exact Coalescing.fifo hr
  · intro t ht
    exact ⟨Coalescing.at_most_one hr ht, by simp [hbits, ht]⟩
  · rintro before ob after t rfl ⟨c, ev, hob, rfl⟩ ht
    obtain ⟨x, hx, hev⟩ : ∃ x, Obs.queue? ob = some x ∧ x.offered? = some ev := by
      rcases hob with rfl | rfl <;> exact ⟨_, rfl, rfl⟩
    rw [List.filterMap_append, List.filterMap_cons_some hx] at hr
    refine (Coalescing.pending hr rfl hev).imp_left ?_
    rintro ⟨ev', hm, hk⟩
    obtain ⟨ob', hm', hob'⟩ := List.mem_filterMap.mp hm
    cases ob' with
    | dequeue d e =>
      cases hob'
      exact ⟨_, hm', d, _, rfl, hk⟩
    | _ => cases hob'
  · intro c d k l hc hk hd hl'
    exact hl.owner_unique hc (Pc.owns_of_inFunc hk) hd (Pc.owns_of_inFunc hl')

end

end TinyState
