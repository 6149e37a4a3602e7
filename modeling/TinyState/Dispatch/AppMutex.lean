import TinyState.Dispatch.Locks

/-!
# What a call does to the application mutex

`mtxLock_flag` belongs to the owner: it says whether the owner has taken a
level of the mutex for a `TS_STATE`. The filter runs under one level more.
-/

namespace TinyState

open Transition

variable {ι : Type} {T : StateTable}

/-- The level taken for the filter. -/
def Pc.filterLevel : Pc → Nat
  | .filtering _ => 1
  | _ => 0

/-- The levels of the application mutex that a call has taken and not returned. -/
def Call.taken (o : Obj ι) (k : Call) : Nat :=
  if k.pc.owns then (if o.mtxLockFlag then 1 else 0) + k.pc.filterLevel else 0

/-- `mtxLock_flag` by where the call stands. -/
structure Call.FlagOk (o : Obj ι) (k : Call) : Prop where
  state : ∀ ev, k.pc = .inState ev → o.mtxLockFlag = true
  thread : ∀ ev, k.pc = .inThread ev → o.mtxLockFlag = false
  worker : ∀ ev, k.pc = .callThread ev ∨ k.pc = .inThread ev → k.thrInfo.isSome = true

namespace Call.Step

variable {c : ι} {o : Obj ι} {k : Call} {a : CallAct} {r : Stepped ι}

/-- The levels a call has taken change by what it does to the mutex. -/
theorem taken (h : Step T c o k a r) (hf : o.stateLock = false → o.mtxLockFlag = false) :
    (r.eff = .mtxLock ∧ r.call.taken r.obj = k.taken o + 1) ∨
    (r.eff = .mtxUnlock ∧ r.call.taken r.obj + 1 = k.taken o) ∨
    ((r.eff = .none ∨ r.eff = .poolIns) ∧ r.call.taken r.obj = k.taken o) := by
  cases h with
  | filter hp => exact .inl ⟨rfl, by simp [Call.taken, hp, Pc.owns, Pc.filterLevel]⟩
  | filterRet hp =>
    exact .inr (.inl ⟨rfl, by simp [Call.taken, hp, Pc.owns, Pc.filterLevel]⟩)
  | callState hp =>
    cases hm : o.mtxLockFlag with
    | true => exact .inr (.inr ⟨.inl (by simp), by simp [Call.taken, hp, Pc.owns, Pc.filterLevel, hm]⟩)
    | false => exact .inl ⟨by simp, by simp [Call.taken, hp, Pc.owns, Pc.filterLevel, hm]⟩
  | callThread hp =>
    cases hm : o.mtxLockFlag with
    | true => exact .inr (.inl ⟨by simp, by simp [Call.taken, hp, Pc.owns, Pc.filterLevel, hm]⟩)
    | false => exact .inr (.inr ⟨.inl (by simp), by simp [Call.taken, hp, Pc.owns, Pc.filterLevel, hm]⟩)
  | leave hp =>
    cases hm : o.mtxLockFlag with
    | true => exact .inr (.inl ⟨by simp, by simp [Call.taken, hp, Pc.owns, Pc.filterLevel, hm]⟩)
    | false => exact .inr (.inr ⟨.inl (by simp), by simp [Call.taken, hp, Pc.owns, Pc.filterLevel, hm]⟩)
  | admission hp _ _ hs =>
    exact .inr (.inr ⟨.inl rfl, by simp [Call.taken, hp, Pc.owns, Pc.filterLevel, hf hs]⟩)
  | notify hp =>
    refine .inr (.inr ⟨.inl rfl, ?_⟩)
    dsimp only
    split <;> simp [Call.taken, hp, Pc.owns]
  | handoff hp =>
    refine .inr (.inr ⟨?_, by simp [Call.taken, hp, Pc.owns]⟩)
    dsimp only
    split <;> simp
  | funcRet hp =>
    refine .inr (.inr ⟨.inl rfl, ?_⟩)
    rcases hp with hp | hp <;> simp [Call.taken, hp, Pc.owns, Pc.filterLevel]
  | delNone | delSome | dropQueue => exact .inr (.inr ⟨.inl rfl, rfl⟩)
  | dead hp | busy hp | escape hp | escaped hp | empty hp | fetch hp | toFilter hp | swallowed hp
  | passed hp | noFunc hp | toState hp | park hp | toThread hp | back hp | zom hp | again hp
  | done hp | drained hp | more hp =>
    exact .inr (.inr ⟨.inl rfl, by simp [Call.taken, hp, Pc.owns, Pc.filterLevel]⟩)

/-- Only the owner reaches the flag. -/
theorem flag_kept (h : Step T c o k a r) (hk : k.pc.owns = false) :
    r.obj.mtxLockFlag = o.mtxLockFlag := by
  cases h with
  | callState hp | callThread hp | leave hp =>
    rw [hp] at hk
    cases hk
  | _ => rfl

theorem flagOk (h : Step T c o k a r) (ht : k.pc.owns = true → o.thrInfo = k.thrInfo)
    (hk : k.FlagOk o) : r.call.FlagOk r.obj := by
  cases h with
  | callState => exact ⟨fun _ _ => rfl, by simp, by simp⟩
  | callThread hp => exact ⟨by simp, fun _ _ => rfl, fun _ _ => hk.worker _ (.inl hp)⟩
  | toThread hp _ _ hi => exact ⟨by simp, by simp, fun _ _ => by simp [← ht (by rw [hp]; rfl), hi]⟩
  | delNone | delSome | dropQueue => exact ⟨hk.state, hk.thread, hk.worker⟩
  | notify => refine ⟨?_, ?_, ?_⟩ <;> dsimp only <;> split <;> simp
  | _ => exact ⟨by simp, by simp, by simp⟩

/-- The object is given back with the flag clear. -/
theorem flag_rest (h : Step T c o k a r) (hk : k.pc.owns = true → o.stateLock = true)
    (hf : o.stateLock = false → o.mtxLockFlag = false) :
    r.obj.stateLock = false → r.obj.mtxLockFlag = false := by
  cases h with
  | callState hp =>
    intro hs
    rw [hk (by rw [hp]; rfl)] at hs
    cases hs
  | admission => exact fun hs => nomatch hs
  | callThread | leave => exact fun _ => rfl
  | _ => exact hf

end Call.Step

section

variable [DecidableEq ι] {s : Sys ι} {tr : List (Obs ι)}

theorem flag_rest (h : (Dispatch ι T).Run tr s) :
    s.obj.stateLock = false → s.obj.mtxLockFlag = false := by
  refine h.invariant (I := fun _ s => s.obj.stateLock = false → s.obj.mtxLockFlag = false) ?_ ?_
  · rintro s ⟨f, rfl⟩ -
    rfl
  · intro tr s a t os hr ih _ hs
    cases Sys.step_cases hs with
    | call | ret => exact ih
    | act hc hk => exact hk.flag_rest ((locks hr).locked_of_owner hc) ih

theorem flag_ok (h : (Dispatch ι T).Run tr s) : ∀ c k, s.calls c = some k → k.FlagOk s.obj := by
  refine h.invariant (I := fun _ s => ∀ c k, s.calls c = some k → k.FlagOk s.obj) ?_ ?_
  · rintro s ⟨f, rfl⟩ c k hk
    cases hk
  intro tr s a t os hr ih _ hs
  have hl := locks hr
  cases Sys.step_cases hs with
  | call =>
    refine Sys.forall_set ?_ fun d l _ => ih d l
    rintro l ⟨rfl⟩
    exact ⟨by simp [Call.enter], by simp [Call.enter], by simp [Call.enter]⟩
  | ret => exact Sys.forall_set (fun l hk => by cases hk) fun d l _ => ih d l
  | @act c k a r hc hk =>
    refine Sys.forall_set ?_ fun d l e hd => ?_
    · rintro l ⟨rfl⟩
      exact hk.flagOk (hl.thrInfo c k hc) (ih c k hc)
    · -- only an owner stands in a state function, and then this call is not one
      have hflag : l.pc.owns = true → r.obj.mtxLockFlag = s.obj.mtxLockFlag := by
        intro ho
        refine hk.flag_kept ?_
        by_contra hn
        exact e (hl.owner_unique hd ho hc (by simpa using hn))
      have hld := ih d l hd
      exact ⟨fun ev hp => (hflag (by rw [hp]; rfl)).trans (hld.state ev hp),
        fun ev hp => (hflag (by rw [hp]; rfl)).trans (hld.thread ev hp), hld.worker⟩

end

end TinyState
