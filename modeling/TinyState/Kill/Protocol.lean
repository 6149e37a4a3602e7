import TinyState.Dispatch.AppMutex
import TinyState.Pool.HandOff
import TinyState.Kill.Model

/-!
# What kills can do to a worker

A run that returns leaves its `stdThreadInfo` idle. A run that throws leaves it
as it is, for the next run of the same dispatch: the protocol is in order as
long as that state is the one of a run without requests, and no kill comes
before the next run has started.
-/

namespace TinyState

open Transition

/-- While a run is going on it is recorded as one; between runs there is
neither a request nor an open section. -/
structure ThrInfo.Sound (i : ThrInfo) : Prop where
  busy : i.running = true → i.state ≠ .idle
  rest : i.running = false → i.state = .idle ∨ i.state = .thr

namespace ThrInfo.Sound

variable {i : ThrInfo}

theorem start (h : i.Sound) (hr : i.running = false) : i.state.start = some .thr := by
  rcases h.rest hr with hs | hs <;> rw [hs] <;> rfl

theorem finish (h : i.Sound) (hr : i.running = true) (hs : i.state.inSection = false) :
    i.state.finish = some .idle := by
  have hb := h.busy hr
  cases hi : i.state <;> simp_all [KfState.inSection, KfState.finish]

theorem killBegin (h : i.Sound) (hr : i.running = true) (hs : i.state.inSection = false) :
    ∃ f, i.state.killBegin = some f ∧ (⟨f, i.running⟩ : ThrInfo).Sound := by
  have hb := h.busy hr
  cases hi : i.state <;> simp_all [KfState.inSection, KfState.killBegin] <;>
    exact ⟨by simp, by simp⟩

theorem killFinish (hr : i.running = true) (hs : i.state.inSection = true) :
    ∃ f, i.state.killFinish = some f ∧ (⟨f, i.running⟩ : ThrInfo).Sound := by
  cases hi : i.state <;> simp_all [KfState.inSection, KfState.killFinish] <;>
    exact ⟨by simp, by simp⟩

theorem kill (h : i.Sound) (hr : i.state = .thr → i.running = true) :
    (⟨i.state.kill, i.running⟩ : ThrInfo).Sound := by
  refine ⟨fun hb => ?_, fun hb => ?_⟩
  · have := h.busy hb
    cases hi : i.state <;> simp_all [KfState.kill]
  · rcases h.rest hb with hs | hs
    · exact .inl (by rw [hs]; rfl)
    · rw [show i.running = false from hb] at hr
      cases hr hs

end ThrInfo.Sound

/-- What a step of a call is for the protocol. -/
inductive Call.KillMove (k : Call) (x : CallAct) (l : Call) : Prop
  | start {ev} : x = .go → k.pc = .callThread ev → l.pc.isThread = true → KillMove k x l
  | stop {r} : x = .funcRet r → k.pc.isThread = true → l.pc.isThread = false → KillMove k x l
  | keep : l.pc.isThread = k.pc.isThread → (∀ i, k.onInfo i x = some i) → KillMove k x l

theorem Call.Step.killMove {ι : Type} {T : StateTable} {c : ι} {o : Obj ι} {k : Call} {x : CallAct}
    {r : Stepped ι} (h : Call.Step T c o k x r) : Call.KillMove k x r.call := by
  cases h with
  | callThread hp => exact .start rfl hp rfl
  | @funcRet ev r hp =>
    rcases hp with hp | hp
    · refine .keep (by rw [hp]; rfl) fun i => ?_
      cases r <;> simp [Call.onInfo, hp, Pc.isThread]
    · exact .stop rfl (by rw [hp]; rfl) rfl
  | delNone | delSome | dropQueue => exact .keep rfl fun _ => rfl
  | escape hp | filterRet hp => exact .keep (by rw [hp]; rfl) fun _ => rfl
  | notify hp => exact .keep (by rw [hp]; dsimp only; split <;> rfl) fun i => by simp [Call.onInfo, hp]
  | dead hp | busy hp | admission hp | escaped hp | empty hp | fetch hp | toFilter hp | filter hp
  | swallowed hp | passed hp | noFunc hp | toState hp | park hp | toThread hp | callState hp
  | back hp | zom hp | again hp | done hp | drained hp | more hp | leave hp | handoff hp =>
    exact .keep (by rw [hp]; rfl) fun i => by simp [Call.onInfo, hp]

section

variable {ι ω : Type} {s t : KillSys ι ω}

/-- The `stdThreadInfo` of the object's owner, if it has one. -/
def KillSys.OnInfo (s : KillSys ι ω) (P : ThrInfo → Prop) : Prop :=
  ∀ id ∈ s.pool.sys.obj.thrInfo, P (s.info id)

instance (s : KillSys ι ω) (P : ThrInfo → Prop) [DecidablePred P] : Decidable (s.OnInfo P) := by
  unfold KillSys.OnInfo
  infer_instance

/-- The sections of a `TS_THREAD` function: one is closed before the next is
opened, and before the function returns. -/
def Bracketed (s : KillSys ι ω) : KillAct ι ω → Prop
  | .killBegin _ => s.OnInfo (·.state.inSection = false)
  | .killFinish _ => s.OnInfo (·.state.inSection = true)
  | .pool (.act c (.funcRet (.ret _))) =>
    (∃ k ∈ s.pool.sys.calls c, k.pc.isThread = true) → s.OnInfo (·.state.inSection = false)
  | _ => True

instance (s : KillSys ι ω) (a : KillAct ι ω) : Decidable (Bracketed s a) := by
  unfold Bracketed
  split <;> infer_instance

/-- A `TS_THREAD` function does not throw while a request is recorded or a
section is open, and no kill comes after it has thrown and before the next run
of the dispatch has started. -/
def ThrowsClean (s : KillSys ι ω) : KillAct ι ω → Prop
  | .pool (.act c (.funcRet (.throw _))) =>
    (∃ k ∈ s.pool.sys.calls c, k.pc.isThread = true) → s.OnInfo (·.state = .thr)
  | .thrKill => s.OnInfo fun i => i.state = .thr → i.running = true
  | _ => True

instance (s : KillSys ι ω) (a : KillAct ι ω) : Decidable (ThrowsClean s a) := by
  unfold ThrowsClean
  split <;> infer_instance

/-- The call runs a `TS_THREAD` function for the job. -/
def Call.RunsFor (id : ThrId) (k : Call) : Prop := k.pc.isThread = true ∧ k.thrInfo = some id

/-- The invariant of the protocol. -/
structure KillInv (s : KillSys ι ω) : Prop where
  quiet : s.panicked = false
  sound : ∀ id, (s.info id).Sound
  running : ∀ id, (s.info id).running = true ↔ ∃ c k, s.pool.sys.calls c = some k ∧ k.RunsFor id

/-- The state of the job changes, and its runs do not. -/
theorem KillInv.update {f : ThrInfo → Option ThrInfo} (h : KillInv s)
    (hf : s.OnInfo fun i => ∃ g, f i = some ⟨g, i.running⟩ ∧ (⟨g, i.running⟩ : ThrInfo).Sound) :
    KillInv (s.update f) := by
  have hu := s.update_cases (f := f)
  generalize s.update f = t at hu
  cases hu with
  | none => exact h
  | panic hi hn =>
    obtain ⟨g, hg, -⟩ := hf _ hi
    simp [hg] at hn
  | @some id i hi hn =>
    obtain ⟨g, hg, hs⟩ := hf _ hi
    obtain rfl := Option.some.inj (hn.symm.trans hg)
    refine ⟨h.quiet, fun d => ?_, fun d => ?_⟩
    · by_cases hd : d = id
      · subst hd
        simpa using hs
      · simpa [Function.update_of_ne hd] using h.sound d
    · rw [← h.running d]
      by_cases hd : d = id
      · subst hd
        simp
      · simp [Function.update_of_ne hd]

end

section

variable {ι ω : Type} [DecidableEq ι] [DecidableEq ω] {T : StateTable} {this : ω}
  {s t : KillSys ι ω} {p : PoolSys ι ω} {os : List (Obs ι)}

theorem PoolSys.act_cases {s t : PoolSys ι ω} {c : ι} {x : CallAct}
    (h : s.step T this (.act c x) = some (t, os)) :
    ∃ k r, s.sys.calls c = some k ∧ Call.Step T c s.sys.obj k x r ∧
      t.sys = s.sys.set c r.obj (some r.call) := by
  simp only [PoolSys.step, Option.bind_eq_bind, Option.bind_eq_some_iff] at h
  obtain ⟨k, hk, r, hr, h⟩ := h
  refine ⟨k, r, hk, Call.step_cases hr, ?_⟩
  split at h <;> cases h <;> rfl

/-- Calls that come and go do not run a function yet, or any more. -/
theorem PoolSys.runsFor_kept {s t : PoolSys ι ω} {a : PoolAct ι ω} (ha : ∀ c x, a ≠ .act c x)
    (h : s.step T this a = some (t, os)) (id : ThrId) :
    (∃ c k, t.sys.calls c = some k ∧ k.RunsFor id) ↔
      ∃ c k, s.sys.calls c = some k ∧ k.RunsFor id := by
  cases PoolSys.step_cases h with
  | act | handoff => exact absurd rfl (ha _ _)
  | call hc | take _ _ hc =>
    exact exists_congr (Sys.exists_set (by simp [hc, Call.enter, Call.RunsFor, Pc.isThread]))
  | ret hc hp => exact exists_congr (Sys.exists_set (by simp [hc, hp, Call.RunsFor, Pc.isThread]))
  | takeOther | insOther | fold => exact Iff.rfl

end

section

variable {ι ω : Type} [DecidableEq ι] {T : StateTable} {s t : KillSys ι ω} {p : PoolSys ι ω}

/-- A run for the job begins or ends with a step of the call that owns the object. -/
theorem KillInv.switch {c : ι} {k l : Call} {o : Obj ι} {id : ThrId} {g : KfState} {b : Bool}
    (h : KillInv s) (hc : s.pool.sys.calls c = some k) (hk : k.thrInfo = some id)
    (hl : l.thrInfo = some id) (hb : l.pc.isThread = b) (hg : (⟨g, b⟩ : ThrInfo).Sound)
    (ho : ∀ d m, s.pool.sys.calls d = some m → m.RunsFor id → d = c)
    (hp : p.sys = s.pool.sys.set c o (some l)) :
    KillInv { s with pool := p, info := Function.update s.info id ⟨g, b⟩ } := by
  refine ⟨h.quiet, fun d => ?_, fun d => ?_⟩
  · by_cases hd : d = id
    · subst hd
      simpa using hg
    · simpa [Function.update_of_ne hd] using h.sound d
  · dsimp only
    rw [hp]
    by_cases hd : d = id
    · subst hd
      rw [Function.update_self]
      refine ⟨fun hr => ⟨c, l, Sys.set_calls_self, hb.trans hr, hl⟩, ?_⟩
      rintro ⟨e, m, hm, hr⟩
      by_cases hce : e = c
      · subst hce
        obtain rfl : l = m := by simpa using hm
        exact hb.symm.trans hr.1
      · rw [Sys.set_calls_of_ne hce] at hm
        exact absurd (ho e m hm hr) hce
    · rw [Function.update_of_ne hd, h.running d]
      refine (exists_congr (Sys.exists_set ?_)).symm
      have hne : id ≠ d := Ne.symm hd
      simp [hc, Call.RunsFor, hk, hl, hne]

theorem Pc.owns_of_isThread {p : Pc} (h : p.isThread = true) : p.owns = true := by
  cases p <;> first | rfl | cases h

omit [DecidableEq ι] in
/-- Before the next run of a dispatch starts, none is recorded for the job. -/
theorem KillInv.not_running {c : ι} {k : Call} {ev : StdEvent} {id : ThrId} (h : KillInv s)
    (hl : Locks s.pool.sys) (hc : s.pool.sys.calls c = some k) (hp : k.pc = .callThread ev) :
    (s.info id).running = false := by
  by_contra hn
  obtain ⟨d, m, hd, hm⟩ := (h.running id).mp (by simpa using hn)
  obtain rfl := hl.owner_unique hd (Pc.owns_of_isThread hm.1) hc (by rw [hp]; rfl)
  obtain rfl : k = m := by simpa [hc] using hd
  simp [hp, Call.RunsFor, Pc.isThread] at hm

theorem KillInv.act {c : ι} {x : CallAct} {k : Call} {r : Stepped ι} (h : KillInv s)
    (hl : Locks s.pool.sys) (hf : k.FlagOk s.pool.sys.obj)
    (hc : s.pool.sys.calls c = some k) (hs : Call.Step T c s.pool.sys.obj k x r)
    (hp : p.sys = s.pool.sys.set c r.obj (some r.call))
    (hb : Bracketed s (.pool (.act c x))) (ht : ThrowsClean s (.pool (.act c x))) :
    KillInv { s.update (k.onInfo · x) with pool := p } := by
  have only : ∀ id, k.pc.owns = true → ∀ d m, s.pool.sys.calls d = some m → m.RunsFor id → d = c :=
    fun id hk d m hd hm => hl.owner_unique hd (Pc.owns_of_isThread hm.1) hc hk
  have hi : k.pc.owns = true → s.pool.sys.obj.thrInfo = k.thrInfo := hl.thrInfo c k hc
  cases hs.killMove with
  | @start ev hx hk hrt =>
    subst hx
    have howns : k.pc.owns = true := by rw [hk]; rfl
    obtain ⟨id, hid⟩ := Option.isSome_iff_exists.mp (hf.worker ev (.inl hk))
    have hnot : (s.info id).running = false := h.not_running hl hc hk
    have hu : s.update (k.onInfo · .go) =
        { s with info := Function.update s.info id ⟨.thr, true⟩ } := by
      simp [KillSys.update, hi howns, hid, Call.onInfo, hk, (h.sound id).start hnot]
    rw [hu]
    exact h.switch hc hid (hs.args.2.trans hid) hrt ⟨by simp, by simp⟩ (only id howns) hp
  | @stop res hx hk hrt =>
    subst hx
    have howns := Pc.owns_of_isThread hk
    obtain ⟨id, hid⟩ : ∃ id, k.thrInfo = some id := by
      obtain ⟨ev, hev⟩ : ∃ ev, k.pc = .inThread ev := by
        cases hpc : k.pc <;> simp [hpc, Pc.isThread] at hk
        exact ⟨_, rfl⟩
      exact Option.isSome_iff_exists.mp (hf.worker ev (.inr hev))
    have hrun : (s.info id).running = true := (h.running id).mpr ⟨c, k, hc, hk, hid⟩
    have hobj : id ∈ s.pool.sys.obj.thrInfo := by rw [hi howns, hid]; rfl
    cases res with
    | ret w =>
      have hsec := hb ⟨k, hc, hk⟩ id hobj
      have hu : s.update (k.onInfo · (.funcRet (.ret w))) =
          { s with info := Function.update s.info id ⟨.idle, false⟩ } := by
        simp [KillSys.update, hi howns, hid, Call.onInfo, hk, (h.sound id).finish hrun hsec]
      rw [hu]
      exact h.switch hc hid (hs.args.2.trans hid) hrt ⟨by simp, by simp⟩ (only id howns) hp
    | throw ex =>
      have hthr := ht ⟨k, hc, hk⟩ id hobj
      have hu : s.update (k.onInfo · (.funcRet (.throw ex))) =
          { s with info := Function.update s.info id ⟨.thr, false⟩ } := by
        simp [KillSys.update, hi howns, hid, Call.onInfo, hk, hthr]
      rw [hu]
      exact h.switch hc hid (hs.args.2.trans hid) hrt ⟨by simp, by simp⟩ (only id howns) hp
  | keep hk hx =>
    have hu := h.update (f := (k.onInfo · x)) fun id _ => ⟨_, hx _, h.sound id⟩
    refine ⟨hu.quiet, hu.sound, fun id => (hu.running id).trans ?_⟩
    rw [KillSys.update_pool, hp]
    refine (exists_congr (Sys.exists_set ?_)).symm
    simp [hc, Call.RunsFor, hk, hs.args.2]

end

section

variable {ι ω : Type} [DecidableEq ι] [DecidableEq ω] {T : StateTable} {this : ω}
  {s t : KillSys ι ω} {os : List (Obs ι)}

theorem KillInv.step {a : KillAct ι ω} (h : KillInv s) (hl : Locks s.pool.sys)
    (hf : ∀ c k, s.pool.sys.calls c = some k → k.FlagOk s.pool.sys.obj)
    (hb : Bracketed s a) (ht : ThrowsClean s a) (hs : KillSys.Step T this s a t os) :
    KillInv t := by
  have running : ∀ c k, s.pool.sys.calls c = some k → k.pc.isThread = true →
      s.OnInfo fun i => i.running = true := by
    intro c k hc hk id hid
    have hi := hl.thrInfo c k hc (Pc.owns_of_isThread hk)
    exact (h.running id).mpr ⟨c, k, hc, hk, hi.symm.trans hid⟩
  cases hs with
  | act hc hp =>
    obtain ⟨k, r, hk, hr, hp⟩ := PoolSys.act_cases hp
    obtain rfl := Option.some.inj (hc.symm.trans hk)
    exact h.act hl (hf _ _ hc) hc hr hp hb ht
  | pool ha hp =>
    exact ⟨h.quiet, h.sound, fun id => (h.running id).trans (PoolSys.runsFor_kept ha hp id).symm⟩
  | killBegin hc hk =>
    refine h.update fun id hid => ?_
    obtain ⟨g, hg, hs⟩ := (h.sound id).killBegin (running _ _ hc hk id hid) (hb id hid)
    exact ⟨g, by simp [hg], hs⟩
  | killFinish hc hk =>
    refine h.update fun id hid => ?_
    obtain ⟨g, hg, hs⟩ := ThrInfo.Sound.killFinish (running _ _ hc hk id hid) (hb id hid)
    exact ⟨g, by simp [hg], hs⟩
  | thrKill => exact h.update fun id hid => ⟨_, rfl, (h.sound id).kill (ht id hid)⟩

theorem killInv {tr : List (Obs ι)}
    (h : (Kill ι T this).RunIf (fun s a => Bracketed s a ∧ ThrowsClean s a) tr s) :
    KillInv s := by
  refine h.invariant (I := fun _ s => KillInv s) ?_ ?_
  · rintro s ⟨_, ⟨f, rfl⟩, rfl⟩
    exact ⟨rfl, fun _ => ⟨by simp [ThrInfo.fresh], by simp [ThrInfo.fresh]⟩,
      by simp [ThrInfo.fresh, Sys.inherit]⟩
  · intro tr s a t os hr ih hc hs
    have hd := Pool.dispatch (Kill.pool hr)
    exact ih.step (locks hd) (flag_ok hd) hc.1 hc.2 (KillSys.step_cases hs)

/-- What the protocol promises: nobody panics, and where the next run of a
dispatch is about to start no kill of an earlier one is pending. -/
structure KillLaw (s : KillSys ι ω) : Prop where
  quiet : s.panicked = false
  clear : ∀ c k ev, s.pool.sys.calls c = some k → k.pc = .callThread ev →
    s.OnInfo (·.state.requested = false)

/-- The protocol keeps its promise as long as runs that throw leave no trace. -/
theorem kill_law {tr : List (Obs ι)}
    (h : (Kill ι T this).RunIf (fun s a => Bracketed s a ∧ ThrowsClean s a) tr s) :
    KillLaw s := by
  have hk := killInv h
  have hl := locks (Pool.dispatch (Kill.pool h))
  refine ⟨hk.quiet, fun c k ev hc hp id _ => ?_⟩
  rcases (hk.sound id).rest (hk.not_running hl hc hp) with hs | hs <;> simp [hs, KfState.requested]

end

-- ---------------------------------------------------------------------------
-- A kill before a run that throws
-- ---------------------------------------------------------------------------

/-- A worker runs the `TS_THREAD` function; meanwhile `destroy` puts in its
`TSE_INVOKE` and kills the run, which then ends with `r`. -/
def killedRun (r : Outcome) : List (KillAct Bool Unit) :=
  List.append (parkRun.map .pool)
    [.pool (.take false), .pool (.act false .go), .pool (.act false .go), .pool (.act false .go),
      .pool (.act false .go),
      .pool (.call true invokeEvent), .pool (.act true .go), .pool (.ret true), .thrKill,
      .pool (.act false (.funcRet r)),
      .pool (.act false .go), .pool (.act false .go), .pool (.act false .go), .pool (.act false .go)]

/-- A run that returns is cleaned up, and the next one starts. -/
theorem next_run_starts : ∃ (tr : List (Obs Bool)) (s : _),
    .invoke false invokeEvent ∈ tr ∧ KillLaw (ι := Bool) (ω := Unit) s := by
  obtain ⟨tr, s, h, hi⟩ := Machine.exists_run (M := Kill Bool .tinyState ())
    (C := fun s a => Bracketed s a ∧ ThrowsClean s a)
    (P := fun tr _ => .invoke false invokeEvent ∈ tr)
    ((killedRun (.ret .stay)).append [.pool (.act false .go)])
    ⟨_, ⟨false, rfl⟩, rfl⟩ (by decide)
  exact ⟨tr, s, hi, kill_law h⟩

/-- A run that throws with the kill recorded leaves it to the next run, whose
`start` panics. -/
theorem killed_run_panics :
    (∃ tr s, (Kill Bool .tinyState ()).RunIf Bracketed tr s ∧
      (∃ k ∈ s.pool.sys.calls false, k.pc = .callThread invokeEvent) ∧
      s.pool.sys.obj.thrInfo = some 0 ∧ (s.info 0).state.requested = true) ∧
    ∃ tr s, (Kill Bool .tinyState ()).RunIf Bracketed tr s ∧ s.panicked = true := by
  refine ⟨?_, ?_⟩
  · refine Machine.exists_run (killedRun (.throw .stay)) ⟨_, ⟨false, rfl⟩, rfl⟩ ?_
    decide
  · refine Machine.exists_run ((killedRun (.throw .stay)).append [.pool (.act false .go)])
      ⟨_, ⟨false, rfl⟩, rfl⟩ ?_
    decide

end TinyState
