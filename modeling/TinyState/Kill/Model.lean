import TinyState.Pool.Model

/-!
# Interrupting a worker

`stdThreadInfo` keeps, for one job of a worker, whether a `TS_THREAD` function
of it is running and whether somebody has asked to kill it. The worker calls
`start` and `finish` around the function and `kill_begin` and `kill_finish`
inside; `thrKill` comes from any thread, in `destroy` after the `TSE_INVOKE`.

What a kill does besides, the signal and the `co_tsThreadKill` that repeats the
call, is another `thrKill` at some later moment at most.
-/

namespace TinyState

open Transition

/-- `stdThreadInfo::state`. -/
inductive KfState
  | idle | thr | thrRequest | thrCatch | thrCatchRequest
  deriving DecidableEq, Repr

/-! `none` is a panic. -/

namespace KfState

def start : KfState → Option KfState
  | .idle | .thr => some .thr
  | _ => none

def finish : KfState → Option KfState
  | .idle | .thr | .thrRequest => some .idle
  | _ => none

def killBegin : KfState → Option KfState
  | .idle | .thr => some .thrCatch
  | .thrRequest => some .thrCatchRequest
  | _ => none

def killFinish : KfState → Option KfState
  | .thrCatch => some .thr
  | .thrCatchRequest => some .thrRequest
  | _ => none

def kill : KfState → KfState
  | .thr => .thrRequest
  | .thrCatch => .thrCatchRequest
  | s => s

/-- A kill has been asked for. -/
def requested : KfState → Bool
  | .thrRequest | .thrCatchRequest => true
  | _ => false

/-- Between `kill_begin` and `kill_finish`. -/
def inSection : KfState → Bool
  | .thrCatch | .thrCatchRequest => true
  | _ => false

end KfState

/-- `running` is history: a `TS_THREAD` function is between its `start` and its end. -/
structure ThrInfo where
  state : KfState
  running : Bool

/-- A `stdThreadInfo` as its constructor leaves it. -/
def ThrInfo.fresh : ThrInfo := ⟨.idle, false⟩

structure KillSys (ι ω : Type) where
  pool : PoolSys ι ω
  info : ThrId → ThrInfo
  panicked : Bool

inductive KillAct (ι ω : Type)
  | pool (a : PoolAct ι ω)
  | killBegin (c : ι)
  | killFinish (c : ι)
  | thrKill
  deriving DecidableEq, Repr

def Pc.isThread : Pc → Bool
  | .inThread _ => true
  | _ => false

/-- What a step of a call does to the `stdThreadInfo` it works with. A function
that throws skips `finish`. -/
def Call.onInfo (k : Call) (i : ThrInfo) : CallAct → Option ThrInfo
  | .go =>
    match k.pc with
    | .callThread _ => i.state.start.map (⟨·, true⟩)
    | _ => some i
  | .funcRet (.ret _) => if k.pc.isThread then i.state.finish.map (⟨·, false⟩) else some i
  | .funcRet (.throw _) => if k.pc.isThread then some ⟨i.state, false⟩ else some i
  | _ => some i

namespace KillSys

variable {ι ω : Type}

/-- Acts on the object's `thrInfo`, if there is one. -/
def update (s : KillSys ι ω) (f : ThrInfo → Option ThrInfo) : KillSys ι ω :=
  match s.pool.sys.obj.thrInfo with
  | none => s
  | some id =>
    match f (s.info id) with
    | some i => { s with info := Function.update s.info id i }
    | none => { s with panicked := true }

/-- A section of the function that the call runs. -/
def inThread (s : KillSys ι ω) (c : ι) (f : KfState → Option KfState) : Option (KillSys ι ω) :=
  if (s.pool.sys.calls c).any (·.pc.isThread) then
    some (s.update fun i => (f i.state).map (⟨·, i.running⟩))
  else none

def step [DecidableEq ι] [DecidableEq ω] (T : StateTable) (this : ω) (s : KillSys ι ω) (a : KillAct ι ω) :
    Option (KillSys ι ω × List (Obs ι)) :=
  if s.panicked then none
  else match a with
    | .pool (.act c x) => do
      let k ← s.pool.sys.calls c
      let (pool, os) ← s.pool.step T this (.act c x)
      some ({ s.update (k.onInfo · x) with pool := pool }, os)
    | .pool a => do
      let (pool, os) ← s.pool.step T this a
      some ({ s with pool := pool }, os)
    | .killBegin c => (s.inThread c KfState.killBegin).map (·, [])
    | .killFinish c => (s.inThread c KfState.killFinish).map (·, [])
    | .thrKill =>
      if s.pool.sys.obj.lm.isNone then
        some (s.update fun i => some ⟨i.state.kill, i.running⟩, [])
      else none

end KillSys

def Kill (ι : Type) {ω : Type} [DecidableEq ι] [DecidableEq ω] (T : StateTable) (this : ω) :
    Machine (KillSys ι ω) (KillAct ι ω) (Obs ι) where
  init s := ∃ pool, (Pool ι T this).init pool ∧ s = ⟨pool, fun _ => .fresh, false⟩
  step := KillSys.step T this

-- ---------------------------------------------------------------------------
-- The steps
-- ---------------------------------------------------------------------------

section

variable {ι ω : Type} {s : KillSys ι ω} {f : ThrInfo → Option ThrInfo}

/-- What becomes of the object's `thrInfo`. -/
inductive KillSys.Update (s : KillSys ι ω) (f : ThrInfo → Option ThrInfo) : KillSys ι ω → Prop
  | none : s.pool.sys.obj.thrInfo = none → Update s f s
  | some {id i} : s.pool.sys.obj.thrInfo = some id → f (s.info id) = some i →
      Update s f { s with info := Function.update s.info id i }
  | panic {id} : s.pool.sys.obj.thrInfo = some id → f (s.info id) = Option.none →
      Update s f { s with panicked := true }

theorem KillSys.update_cases : s.Update f (s.update f) := by
  unfold update
  split
  · exact .none ‹_›
  · split
    · exact .some ‹_› ‹_›
    · exact .panic ‹_› ‹_›

@[simp] theorem KillSys.update_pool : (s.update f).pool = s.pool := by
  unfold update
  split
  · rfl
  · split <;> rfl

end

section

variable {ι ω : Type} [DecidableEq ι] [DecidableEq ω] {T : StateTable} {this : ω}

/-- The branches of `KillSys.step`. -/
inductive KillSys.Step (T : StateTable) (this : ω) (s : KillSys ι ω) :
    KillAct ι ω → KillSys ι ω → List (Obs ι) → Prop
  | act {c x k pool os} : s.pool.sys.calls c = some k →
      s.pool.step T this (.act c x) = some (pool, os) →
      Step T this s (.pool (.act c x)) { s.update (k.onInfo · x) with pool := pool } os
  | pool {a pool os} : (∀ c x, a ≠ .act c x) → s.pool.step T this a = some (pool, os) →
      Step T this s (.pool a) { s with pool := pool } os
  | killBegin {c k} : s.pool.sys.calls c = some k → k.pc.isThread = true →
      Step T this s (.killBegin c) (s.update fun i => i.state.killBegin.map (⟨·, i.running⟩)) []
  | killFinish {c k} : s.pool.sys.calls c = some k → k.pc.isThread = true →
      Step T this s (.killFinish c) (s.update fun i => i.state.killFinish.map (⟨·, i.running⟩)) []
  | thrKill : s.pool.sys.obj.lm = none →
      Step T this s .thrKill (s.update fun i => some ⟨i.state.kill, i.running⟩) []

theorem KillSys.step_cases {s t : KillSys ι ω} {a : KillAct ι ω} {os : List (Obs ι)}
    (h : s.step T this a = some (t, os)) : KillSys.Step T this s a t os := by
  have section_cases : ∀ c f, (s.inThread c f).map (·, ([] : List (Obs ι))) = some (t, os) →
      os = [] ∧ (t = s.update fun i => (f i.state).map (⟨·, i.running⟩)) ∧
        ∃ k, s.pool.sys.calls c = some k ∧ k.pc.isThread = true := by
    intro c f h
    obtain ⟨u, hu, h⟩ := Option.map_eq_some_iff.mp h
    cases h
    simp only [inThread, Option.ite_none_right_eq_some] at hu
    obtain ⟨hk, hu⟩ := hu
    exact ⟨rfl, (Option.some.inj hu).symm, (Option.any_eq_true _ _).mp hk⟩
  unfold step at h
  split at h
  · cases h
  cases a with
  | pool a =>
    cases a with
    | act c x =>
      simp only [Option.bind_eq_bind, Option.bind_eq_some_iff] at h
      obtain ⟨k, hk, ⟨pool, os⟩, hs, h⟩ := h
      cases h
      exact .act hk hs
    | call | ret | take | insOther | fold =>
      simp only [Option.bind_eq_bind, Option.bind_eq_some_iff] at h
      obtain ⟨⟨pool, os⟩, hs, h⟩ := h
      cases h
      exact .pool (by simp) hs
  | killBegin c =>
    obtain ⟨rfl, rfl, k, hk, hp⟩ := section_cases c _ h
    exact .killBegin hk hp
  | killFinish c =>
    obtain ⟨rfl, rfl, k, hk, hp⟩ := section_cases c _ h
    exact .killFinish hk hp
  | thrKill =>
    simp only [Option.ite_none_right_eq_some, Option.isNone_iff_eq_none] at h
    obtain ⟨hl, h⟩ := h
    cases h
    exact .thrKill hl

/-- A run with kills is a run of the pool. -/
theorem Kill.pool {C : KillSys ι ω → KillAct ι ω → Prop} {tr : List (Obs ι)} {s : KillSys ι ω}
    (h : (Kill ι T this).RunIf C tr s) : (Pool ι T this).Run tr s.pool := by
  refine h.invariant (I := fun tr s => (Pool ι T this).Run tr s.pool) ?_ ?_
  · rintro s ⟨pool, hi, rfl⟩
    exact .start hi
  · intro tr s a t os _ ih _ hs
    cases KillSys.step_cases hs with
    | @act c x k pool os _ hp =>
      exact Machine.Run.next (M := Pool ι T this) (a := .act c x) ih hp
    | pool _ hp => exact Machine.Run.next (M := Pool ι T this) ih hp
    | killBegin | killFinish | thrKill => simpa using ih

end

end TinyState
