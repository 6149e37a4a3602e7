import TinyState.Dispatch.Locks

/-!
# The thread pool

`tsThread`, as far as it hands objects to workers: `ready`, `ins`, the turn of
`__tsThread_body` that takes a job, and `FIN_WAIT`, which folds the pool. One
object is looked at with all its calls; jobs for other objects come and go in
the queue between its own.

Workers are told apart only by the calls they make, so that there may be any
number of them. A `stdThreadInfo` is made by `ins` for one job, and the worker
that takes the job passes it to `eventHandler`.
-/

namespace TinyState

open Transition

/-- `stdThreadInfo` in the queue: its address and its `target`. -/
structure Job (ω : Type) where
  id : ThrId
  target : ω
  deriving DecidableEq, Repr

/-- The object with its calls, and the pool. `ready = none` once the pool has
been folded. `found` is history: what the last evaluation of the object's state
found. -/
structure PoolSys (ι ω : Type) where
  sys : Sys ι
  ready : Option (List (Job ω))
  nextId : ThrId
  found : Option Found

inductive PoolAct (ι ω : Type)
  /-- A caller other than a worker enters `eventHandler`. -/
  | call (c : ι) (ev : StdEvent)
  | act (c : ι) (a : CallAct)
  | ret (c : ι)
  /-- A worker takes the first job and, if it is for the object, makes the call `c`. -/
  | take (c : ι)
  /-- Another object is put in. -/
  | insOther (target : ω)
  | fold
  deriving DecidableEq, Repr

/-- The event with which a worker calls `eventHandler`. -/
def threadEvent (id : ThrId) : StdEvent := ⟨.thread, id⟩

/-- What the last evaluation found, after a step that leaves the call as `k`. -/
def Call.foundAfter (k : Call) (found : Option Found) : Option Found :=
  if k.pc.owns then k.last <|> found else found

namespace PoolSys

variable {ι ω : Type} [DecidableEq ι] [DecidableEq ω]

/-- `ins`: a folded pool drops the job. -/
def ins (s : PoolSys ι ω) (target : ω) : PoolSys ι ω :=
  { s with ready := s.ready.map (· ++ [⟨s.nextId, target⟩]), nextId := s.nextId + 1 }

def step (T : StateTable) (this : ω) (s : PoolSys ι ω) :
    PoolAct ι ω → Option (PoolSys ι ω × List (Obs ι))
  | .call c ev => do
    let (sys, os) ← s.sys.step T (.call c ev none)
    some ({ s with sys := sys }, os)
  | .act c a => do
    let k ← s.sys.calls c
    let r ← k.step T c s.sys.obj a
    let s' := { s with
      sys := s.sys.set c r.obj (some r.call)
      found := r.call.foundAfter s.found }
    some (if r.eff = .poolIns then s'.ins this else s', r.obs)
  | .ret c => do
    let (sys, os) ← s.sys.step T (.ret c)
    some ({ s with sys := sys }, os)
  | .take c =>
    match s.ready with
    | some (job :: q) =>
      if job.target = this then do
        let (sys, os) ← s.sys.step T (.call c (threadEvent job.id) (some job.id))
        some ({ s with sys := sys, ready := some q }, os)
      else some ({ s with ready := some q }, [])
    | _ => none
  | .insOther target => if target = this then none else some (s.ins target, [])
  | .fold => some ({ s with ready := none }, [])

end PoolSys

/-- The object after `inherit`, and an empty pool. -/
def Pool (ι : Type) {ω : Type} [DecidableEq ι] [DecidableEq ω] (T : StateTable) (this : ω) :
    Machine (PoolSys ι ω) (PoolAct ι ω) (Obs ι) where
  init s := ∃ filterLock, s = ⟨Sys.inherit T filterLock, some [], 0, none⟩
  step := PoolSys.step T this

-- ---------------------------------------------------------------------------
-- The steps
-- ---------------------------------------------------------------------------

theorem Call.Step.poolIns {ι : Type} {T : StateTable} {c : ι} {o : Obj ι} {k : Call} {a : CallAct} {r : Stepped ι}
    (h : Call.Step T c o k a r) (he : r.eff = .poolIns) :
    a = .go ∧ k.pc = .handoff ∧ o.application = true ∧
      r = ⟨o, { k with pc := .returned, doIns := false }, .poolIns, []⟩ := by
  cases h with
  | handoff hp =>
    by_cases ho : o.application = true
    · exact ⟨rfl, hp, ho, by simp [ho]⟩
    · simp [ho] at he
  | callState | callThread | leave =>
    dsimp only at he
    split at he <;> cases he
  | _ => cases he

section

variable {ι ω : Type} [DecidableEq ι] [DecidableEq ω] {T : StateTable} {this : ω}

/-- The branches of `PoolSys.step`. -/
inductive PoolSys.Step (T : StateTable) (this : ω) (s : PoolSys ι ω) :
    PoolAct ι ω → PoolSys ι ω → List (Obs ι) → Prop
  | call {c ev} : s.sys.calls c = none →
      Step T this s (.call c ev) { s with sys := s.sys.set c s.sys.obj (some (.enter ev none)) } []
  | act {c k a r} : s.sys.calls c = some k → Call.Step T c s.sys.obj k a r → r.eff ≠ .poolIns →
      Step T this s (.act c a) { s with
        sys := s.sys.set c r.obj (some r.call)
        found := r.call.foundAfter s.found } r.obs
  | handoff {c k} : s.sys.calls c = some k → k.pc = .handoff → s.sys.obj.application = true →
      Step T this s (.act c .go) ({ s with
        sys := s.sys.set c s.sys.obj (some { k with pc := .returned, doIns := false }) }.ins this) []
  | ret {c k} : s.sys.calls c = some k → k.pc = .returned →
      Step T this s (.ret c) { s with sys := s.sys.set c s.sys.obj none } []
  | take {c job q} : s.ready = some (job :: q) → job.target = this → s.sys.calls c = none →
      Step T this s (.take c) { s with
        sys := s.sys.set c s.sys.obj (some (.enter (threadEvent job.id) (some job.id)))
        ready := some q } []
  | takeOther {c job q} : s.ready = some (job :: q) → job.target ≠ this →
      Step T this s (.take c) { s with ready := some q } []
  | insOther {target} : target ≠ this → Step T this s (.insOther target) (s.ins target) []
  | fold : Step T this s .fold { s with ready := none } []

theorem PoolSys.step_cases {s t : PoolSys ι ω} {a : PoolAct ι ω} {os : List (Obs ι)}
    (h : s.step T this a = some (t, os)) : PoolSys.Step T this s a t os := by
  cases a with
  | call c ev =>
    simp only [PoolSys.step, Option.bind_eq_bind, Option.bind_eq_some_iff] at h
    obtain ⟨⟨sys, os⟩, hs, h⟩ := h
    cases h
    cases Sys.step_cases hs with
    | call hc => exact .call hc
  | act c a =>
    simp only [PoolSys.step, Option.bind_eq_bind, Option.bind_eq_some_iff] at h
    obtain ⟨k, hk, r, hr, h⟩ := h
    have hs := Call.step_cases hr
    split at h
    · rename_i he
      obtain ⟨rfl, hp, ho, rfl⟩ := hs.poolIns he
      cases h
      exact .handoff hk hp ho
    · cases h
      exact .act hk hs ‹_›
  | ret c =>
    simp only [PoolSys.step, Option.bind_eq_bind, Option.bind_eq_some_iff] at h
    obtain ⟨⟨sys, os⟩, hs, h⟩ := h
    cases h
    cases Sys.step_cases hs with
    | ret hc hp => exact .ret hc hp
  | take c =>
    simp only [PoolSys.step] at h
    split at h
    · rename_i job q hq
      split at h
      · simp only [Option.bind_eq_bind, Option.bind_eq_some_iff] at h
        obtain ⟨⟨sys, os⟩, hs, h⟩ := h
        cases h
        cases Sys.step_cases hs with
        | call hc => exact .take hq ‹_› hc
      · cases h
        exact .takeOther hq ‹_›
    · cases h
  | insOther target =>
    simp only [PoolSys.step] at h
    split at h
    · cases h
    · cases h
      exact .insOther ‹_›
  | fold =>
    cases h
    exact .fold

/-- The pool only restricts who calls `eventHandler` with a `stdThreadInfo`. -/
theorem PoolSys.step_sys {s t : PoolSys ι ω} {a : PoolAct ι ω} {os : List (Obs ι)}
    (h : s.step T this a = some (t, os)) :
    (t.sys = s.sys ∧ os = []) ∨ ∃ b, s.sys.step T b = some (t.sys, os) := by
  cases a with
  | call c ev =>
    simp only [PoolSys.step, Option.bind_eq_bind, Option.bind_eq_some_iff] at h
    obtain ⟨⟨sys, os⟩, hs, h⟩ := h
    cases h
    exact .inr ⟨_, hs⟩
  | act c a =>
    simp only [PoolSys.step, Option.bind_eq_bind, Option.bind_eq_some_iff] at h
    obtain ⟨k, hk, r, hr, h⟩ := h
    refine .inr ⟨.act c a, ?_⟩
    split at h <;> cases h <;> simp [Sys.step, hk, hr, PoolSys.ins]
  | ret c =>
    simp only [PoolSys.step, Option.bind_eq_bind, Option.bind_eq_some_iff] at h
    obtain ⟨⟨sys, os⟩, hs, h⟩ := h
    cases h
    exact .inr ⟨_, hs⟩
  | take c =>
    simp only [PoolSys.step] at h
    split at h
    · split at h
      · simp only [Option.bind_eq_bind, Option.bind_eq_some_iff] at h
        obtain ⟨⟨sys, os⟩, hs, h⟩ := h
        cases h
        exact .inr ⟨_, hs⟩
      · cases h
        exact .inl ⟨rfl, rfl⟩
    · cases h
  | insOther target =>
    simp only [PoolSys.step] at h
    split at h <;> cases h
    exact .inl ⟨rfl, rfl⟩
  | fold =>
    cases h
    exact .inl ⟨rfl, rfl⟩

/-- A run with the pool is a run of the object and its callers. -/
theorem Pool.dispatch {C : PoolSys ι ω → PoolAct ι ω → Prop} {tr : List (Obs ι)} {s : PoolSys ι ω}
    (h : (Pool ι T this).RunIf C tr s) : (Dispatch ι T).Run tr s.sys := by
  refine h.invariant (I := fun tr s => (Dispatch ι T).Run tr s.sys) ?_ ?_
  · rintro s ⟨f, rfl⟩
    exact .start ⟨f, rfl⟩
  · intro tr s a t os _ ih _ hs
    rcases PoolSys.step_sys hs with ⟨he, rfl⟩ | ⟨b, hb⟩
    · rw [he, List.append_nil]
      exact ih
    · exact ih.next hb

end

end TinyState
