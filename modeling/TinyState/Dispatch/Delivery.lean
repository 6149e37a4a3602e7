import TinyState.Dispatch.Locks

/-!
# What becomes of a fetched event

An event that has been dequeued and has passed the filter is in the hands of
the owner until the loop over `rDO` is over, and is then let go. It reaches a
state function on the way, unless its first evaluation finds a `TS_THREAD`
state and no worker: that branch ends the loop with the event unseen.
-/

namespace TinyState

open Transition

variable {ι : Type} {T : StateTable}

/-- The event in the hands of the owner. -/
def Pc.hand : Pc → Option StdEvent
  | .eval ev | .callState ev | .inState ev | .callThread ev | .inThread ev | .back ev _
  | .result ev _ => some ev
  | _ => none

/-- The value at hand is that of a state function, or the loop goes on. -/
def Pc.seenAt (seen : Bool) : Pc → Prop
  | .inState _ | .inThread _ | .back .. => seen = true
  | .result _ w => seen = true ∨ w.rDO = true
  | _ => True

def Pc.isEval : Pc → Bool
  | .eval _ => true
  | _ => false

/-- The next step of the call evaluates a `TS_THREAD` state without a worker. -/
def Call.Parks (o : Obj ι) (k : Call) : Prop :=
  k.pc.isEval = true ∧ o.state.func = true ∧ o.state.thr = true ∧ o.thrInfo = none

instance (o : Obj ι) (k : Call) : Decidable (k.Parks o) := by
  unfold Call.Parks
  infer_instance

/-- The call neither fetches nor lets go in this stretch of the run. -/
def Holds (c : ι) (tr : List (Obs ι)) : Prop :=
  ∀ ev, .fetch c ev ∉ tr ∧ .discard c ev ∉ tr

theorem Holds.nil (c : ι) : Holds c [] := fun _ => by simp

theorem Holds.append {c : ι} {tr os : List (Obs ι)} (h : Holds c tr) (ho : Holds c os) :
    Holds c (tr ++ os) := fun ev => by
  simp [h ev, ho ev]

namespace Call.Step

variable {c : ι} {o : Obj ι} {k : Call} {a : CallAct} {r : Stepped ι}

/-- A step fetches an event, or lets one go, or keeps what is at hand. -/
theorem hand (h : Step T c o k a r) :
    (∃ ev, r.call.pc.hand = some ev ∧ r.call.seen = false ∧ k.pc.hand = none ∧
      (r.obs = [.dequeue c ev, .fetch c ev] ∨ r.obs = [.fetch c ev])) ∨
    (∃ ev w, k.pc = .result ev w ∧ w.rDO = false ∧ r.call.pc.hand = none ∧
      r.obs = [.discard c ev]) ∨
    (r.call.pc.hand = k.pc.hand ∧ (∀ d ev, .fetch d ev ∉ r.obs ∧ .discard d ev ∉ r.obs) ∧
      (r.call.seen = k.seen ∨ ∃ ev, k.pc.hand = some ev ∧ r.obs = [.invoke c ev])) := by
  cases h with
  | fetch hp => exact .inl ⟨_, rfl, rfl, by rw [hp]; rfl, .inl rfl⟩
  | passed hp => exact .inl ⟨_, rfl, rfl, by rw [hp]; rfl, .inr rfl⟩
  | zom hp => exact .inr (.inl ⟨_, _, hp, rfl, rfl, rfl⟩)
  | done hp hd => exact .inr (.inl ⟨_, _, hp, hd, rfl, rfl⟩)
  | callState hp | callThread hp =>
    exact .inr (.inr ⟨by rw [hp]; rfl, by simp, .inr ⟨_, by rw [hp]; rfl, rfl⟩⟩)
  | busy hp | admission hp =>
    refine .inr (.inr ⟨by rw [hp]; rfl, fun d ev => ?_, .inl rfl⟩)
    by_cases hi : o.Inserts k.ev <;> simp [Obj.offered, hi]
  | delNone | delSome | dropQueue => exact .inr (.inr ⟨rfl, by simp, .inl rfl⟩)
  | funcRet hp =>
    rcases hp with hp | hp <;> exact .inr (.inr ⟨by rw [hp]; rfl, by simp, .inl rfl⟩)
  | notify hp => exact .inr (.inr ⟨by rw [hp]; dsimp only; split <;> rfl, by simp, .inl rfl⟩)
  | dead hp | escape hp | escaped hp | empty hp | toFilter hp | filter hp | filterRet hp
  | swallowed hp | noFunc hp | toState hp | park hp | toThread hp | back hp | again hp
  | drained hp | more hp | leave hp | handoff hp =>
    exact .inr (.inr ⟨by rw [hp]; rfl, by simp, .inl rfl⟩)

theorem seenAt (h : Step T c o k a r) (he : a = .go → k.Parks o → k.seen = true)
    (hs : k.pc.seenAt k.seen) :
    r.call.pc.seenAt r.call.seen := by
  cases h with
  | park hp hf ht hi => exact .inl (he rfl ⟨by rw [hp]; rfl, hf, ht, hi⟩)
  | noFunc => exact .inr rfl
  | callState | callThread => rfl
  | delNone | delSome | dropQueue => exact hs
  | funcRet hp => rcases hp with hp | hp <;> rw [hp] at hs <;> exact hs
  | back hp =>
    rw [hp] at hs
    exact .inl hs
  | notify => dsimp only; split <;> trivial
  | _ => trivial

end Call.Step

section

variable [DecidableEq ι] {s t : Sys ι} {a : Act ι} {tr os : List (Obs ι)}

/-- The owner holds an event that it fetched last and has not let go; if it is
marked as seen, a state function was called with it since. -/
theorem hand_fetched (h : (Dispatch ι T).Run tr s) :
    ∀ c k, s.calls c = some k → ∀ ev, k.pc.hand = some ev →
      ∃ before after, tr = before ++ Obs.fetch c ev :: after ∧ Holds c after ∧
        (k.seen = true → .invoke c ev ∈ after) := by
  refine h.invariant (I := fun tr s => ∀ c k, s.calls c = some k → ∀ ev, k.pc.hand = some ev →
      ∃ before after, tr = before ++ Obs.fetch c ev :: after ∧ Holds c after ∧
        (k.seen = true → .invoke c ev ∈ after)) ?_ ?_
  · rintro s ⟨f, rfl⟩ c k hk
    cases hk
  intro tr s a t os hr ih _ hs
  cases Sys.step_cases hs with
  | call hc =>
    rw [List.append_nil]
    refine Sys.forall_set ?_ fun d l _ => ih d l
    rintro l ⟨rfl⟩ ev he
    cases he
  | ret _ _ =>
    rw [List.append_nil]
    exact Sys.forall_set (fun l hk => nomatch hk) fun d l _ => ih d l
  | @act c k a r hc hk =>
    refine Sys.forall_set ?_ ?_
    · rintro l ⟨rfl⟩ ev he
      obtain ⟨e, hre, hse, -, ho⟩ | ⟨_, _, -, -, hre, -⟩ | ⟨hre, hq, hse⟩ := hk.hand
      · obtain rfl : e = ev := by simpa [hre] using he
        rcases ho with ho | ho
        · exact ⟨tr ++ [Obs.dequeue c e], [], by simp [ho], Holds.nil c, by simp [hse]⟩
        · exact ⟨tr, [], by simp [ho], Holds.nil c, by simp [hse]⟩
      · simp [hre] at he
      · rw [hre] at he
        obtain ⟨before, after, rfl, hh, hsn⟩ := ih c k hc ev he
        refine ⟨before, after ++ r.obs, by simp, hh.append (hq c), fun hs => ?_⟩
        rcases hse with hse | ⟨e, hke, ho⟩
        · simp [hsn (hse ▸ hs)]
        · obtain rfl : e = ev := by simpa [hke] using he
          simp [ho]
    · -- what another call does is neither a fetch nor a discard of this one
      intro d l e hdl ev he
      obtain ⟨before, after, rfl, hh, hsn⟩ := ih d l hdl ev he
      refine ⟨before, after ++ r.obs, by simp, hh.append fun ev => ?_, fun hs => by simp [hsn hs]⟩
      obtain ⟨_, -, -, -, ho | ho⟩ | ⟨_, _, -, -, -, ho⟩ | ⟨-, hq, -⟩ := hk.hand
      · simp [ho, e]
      · simp [ho, e]
      · simp [ho, e]
      · exact hq d ev

/-- A fetched event that has not been let go is still at hand. -/
theorem fetched_held (h : (Dispatch ι T).Run tr s) :
    ∀ before c ev after, tr = before ++ Obs.fetch c ev :: after → .discard c ev ∉ after →
      ∃ k, s.calls c = some k ∧ k.pc.hand = some ev := by
  refine h.invariant (I := fun tr s => ∀ before c ev after, tr = before ++ Obs.fetch c ev :: after →
      .discard c ev ∉ after → ∃ k, s.calls c = some k ∧ k.pc.hand = some ev) ?_ ?_
  · rintro s - before c ev after he
    simp at he
  intro tr s a t os hr ih _ hs before c ev after he hd
  obtain ⟨after', rfl, rfl⟩ | ⟨mid, ho, -⟩ := Machine.append_eq_cons he
  · obtain ⟨k, hk, hke⟩ := ih before c ev after' rfl fun hm => hd (by simp [hm])
    cases Sys.step_cases hs with
    | @call d _ _ hdn =>
      have hne : c ≠ d := fun h => by simp [h, hdn] at hk
      exact ⟨k, by rw [Sys.set_calls_of_ne hne, hk], hke⟩
    | @ret d k' hk' hp =>
      have hne : c ≠ d := by
        rintro rfl
        obtain rfl : k = k' := by simpa [hk] using hk'
        simp [hp, Pc.hand] at hke
      exact ⟨k, by rw [Sys.set_calls_of_ne hne, hk], hke⟩
    | @act d k' _ r hk' hstep =>
      by_cases hne : c = d
      · subst hne
        obtain rfl : k = k' := by simpa [hk] using hk'
        obtain ⟨_, -, -, hn, -⟩ | ⟨e, _, hp, -, -, ho⟩ | ⟨hre, -⟩ := hstep.hand
        · simp [hn] at hke
        · obtain rfl : e = ev := by simpa [hp, Pc.hand] using hke
          exact absurd (by simp [ho]) hd
        · exact ⟨r.call, Sys.set_calls_self, hre.trans hke⟩
      · exact ⟨k, by rw [Sys.set_calls_of_ne hne, hk], hke⟩
  · have hn : .fetch c ev ∈ os := by simp [ho]
    cases Sys.step_cases hs with
    | call | ret => simp at hn
    | @act d k _ r hk hstep =>
      obtain ⟨e, hre, -, -, ho⟩ | ⟨_, _, -, -, -, ho⟩ | ⟨-, hq, -⟩ := hstep.hand
      · obtain ⟨rfl, rfl⟩ : c = d ∧ ev = e := by
          rcases ho with ho | ho <;> simpa [ho] using hn
        exact ⟨r.call, Sys.set_calls_self, hre⟩
      · simp [ho] at hn
      · exact absurd hn (hq c ev).1

/-- The step does not evaluate an event that no state function has seen while
the object rests in a `TS_THREAD` state and the dispatch has no worker. -/
def WorkerAtHand (s : Sys ι) : Act ι → Prop
  | .act c .go => ∀ k ∈ s.calls c, k.Parks s.obj → k.seen = true
  | _ => True

instance (s : Sys ι) (a : Act ι) : Decidable (WorkerAtHand s a) := by
  unfold WorkerAtHand
  split <;> infer_instance

theorem seen_at (h : (Dispatch ι T).RunIf WorkerAtHand tr s) :
    ∀ c k, s.calls c = some k → k.pc.seenAt k.seen := by
  refine h.stateInvariant (I := fun s => ∀ c k, s.calls c = some k → k.pc.seenAt k.seen) ?_ ?_
  · rintro s ⟨f, rfl⟩ c k hk
    cases hk
  intro s a t os ih hw hs
  cases Sys.step_cases hs with
  | call =>
    refine Sys.forall_set ?_ fun d l _ => ih d l
    rintro l ⟨rfl⟩
    trivial
  | ret => exact Sys.forall_set (fun l hk => nomatch hk) fun d l _ => ih d l
  | @act c k a r hk hstep =>
    refine Sys.forall_set ?_ fun d l _ => ih d l
    rintro l ⟨rfl⟩
    refine hstep.seenAt ?_ (ih c k hk)
    rintro rfl hp
    exact hw k hk hp

/-- The delivery of fetched events in the run that is seen as `tr`: what was
fetched is let go only after it was passed to a state function, and until then
it is at hand. -/
structure Delivery (tr : List (Obs ι)) (s : Sys ι) : Prop where
  discarded : ∀ before c ev after, tr = before ++ .discard c ev :: after →
    ∃ old mid, before = old ++ .fetch c ev :: mid ∧ Holds c mid ∧ .invoke c ev ∈ mid
  held : ∀ before c ev after, tr = before ++ .fetch c ev :: after → .discard c ev ∉ after →
    ∃ k, s.calls c = some k ∧ k.pc.hand = some ev

/-- Where no unseen event is evaluated in a `TS_THREAD` state without a worker,
no event is lost in dispatch. -/
theorem no_event_lost (h : (Dispatch ι T).RunIf WorkerAtHand tr s) : Delivery tr s := by
  refine ⟨?_, fetched_held h.run⟩
  refine h.invariant (I := fun tr _ => ∀ before c ev after,
    tr = before ++ Obs.discard c ev :: after →
    ∃ old mid, before = old ++ Obs.fetch c ev :: mid ∧ Holds c mid ∧ .invoke c ev ∈ mid) ?_ ?_
  · intro s _ before c ev after he
    simp at he
  intro tr s a t os hr ih hw hs before c ev after he
  obtain ⟨after', rfl, rfl⟩ | ⟨mid, ho, rfl⟩ := Machine.append_eq_cons he
  · exact ih before c ev after' rfl
  cases Sys.step_cases hs with
  | call | ret => simp at ho
  | @act d k _ r hk hstep =>
    have hm : .discard c ev ∈ r.obs := by simp [ho]
    obtain ⟨_, -, -, -, ho' | ho'⟩ | ⟨e, w, hp, hd, -, ho'⟩ | ⟨-, hq, -⟩ := hstep.hand
    · simp [ho'] at hm
    · simp [ho'] at hm
    · obtain ⟨rfl, rfl⟩ : c = d ∧ ev = e := by simpa [ho'] using hm
      obtain rfl : mid = [] := by
        rw [ho'] at ho
        cases mid <;> simp_all
      have hseen : k.seen = true := by
        have := seen_at hr c k hk
        rw [hp] at this
        exact this.resolve_right (by simp [hd])
      obtain ⟨old, mid, rfl, hh, hi⟩ := hand_fetched hr.run c k hk ev (by rw [hp]; rfl)
      exact ⟨old, mid, by simp, hh, hi hseen⟩
    · exact absurd hm (hq c ev).2

end

-- ---------------------------------------------------------------------------
-- The event that is lost
-- ---------------------------------------------------------------------------

/-- A `TS_THREAD(ACT_…)` entry of a derived class. -/
def actThread : TsTrans := ⟨10, .act, true, true⟩

def initEvent : StdEvent := ⟨.init, 0⟩

def invokeEvent : StdEvent := ⟨.invoke, 1⟩

/-- `TSE_INIT` brings the object from `INI_START` to rest in a `TS_THREAD` state. -/
def restInThread : List (Act Bool) :=
  [.call true initEvent none, .act true .go, .act true .go, .act true .go, .act true .go,
    .act true (.funcRet (.ret (.rest actThread))), .act true .go, .act true .go, .act true .go,
    .act true .go, .act true .go, .act true .go, .ret true]

theorem init_event_delivered : ∃ tr s, .discard true initEvent ∈ tr ∧
    Delivery (ι := Bool) tr s := by
  obtain ⟨tr, s, h, hd⟩ := Machine.exists_run (M := Dispatch Bool .tinyState) (C := WorkerAtHand)
    (P := fun tr _ => .discard true initEvent ∈ tr) restInThread ⟨false, rfl⟩ (by decide)
  exact ⟨tr, s, hd, no_event_lost h⟩

/-- `TSE_INVOKE` comes before any worker does. -/
def lostEventRun : List (Act Bool) :=
  restInThread.append [.call false invokeEvent none, .act false .go, .act false .go,
    .act false .go, .act false .go]

theorem event_lost : ∃ tr s, (Dispatch Bool .tinyState).Run tr s ∧ s.obj.enterZom = false ∧
    .fetch false invokeEvent ∈ tr ∧ .discard false invokeEvent ∈ tr ∧
    ∀ c, .invoke c invokeEvent ∉ tr := by
  refine Machine.exists_run lostEventRun ⟨false, rfl⟩ ?_
  decide

end TinyState
