import TinyState.Dispatch.Cases
import TinyState.Lib.Lock

/-!
# The two locks of an object

`lm` is held exactly by the call that stands in the critical section, and
`state_lock` is set exactly while one call, its owner, is between the admission
of its event and the end of the section. The owner's `_thrInfo` is the
object's `thrInfo` for that time.
-/

namespace TinyState

open Transition

variable {ι : Type} {T : StateTable}

namespace Call.Step

variable {c : ι} {o : Obj ι} {k : Call} {a : CallAct} {r : Stepped ι}

theorem lm_move (h : Step T c o k a r) (hl : k.pc.critical = true → o.lm = some c) :
    LockMove c k.pc.critical r.call.pc.critical o.lm r.obj.lm := by
  have hk : ∀ p, k.pc = p → p.critical = true → o.lm = some c := fun p e hp => hl (e ▸ hp)
  cases h with
  | admission hp hn | swallowed hp hn | passed hp hn | back hp hn =>
    rw [hn]
    exact .take (by rw [hp]; rfl) rfl
  | toFilter hp | toState hp | toThread hp | leave hp => exact .give (by rw [hp]; rfl) rfl
  | delNone | delSome | dropQueue => exact .keep rfl
  | funcRet hp => rcases hp with hp | hp <;> exact .keep (by rw [hp]; rfl)
  | notify hp => exact .keep (by rw [hp]; dsimp only; split <;> rfl)
  | dead hp | busy hp | escape hp | escaped hp | empty hp | fetch hp | filter hp | filterRet hp
  | noFunc hp | park hp | callState hp | callThread hp | zom hp | again hp | done hp | drained hp
  | more hp | handoff hp => exact .keep (by rw [hp]; rfl)

/-- `state_lock` moves as if its owner were recorded. -/
theorem owner_move (h : Step T c o k a r) {w : Option ι} (hw : o.stateLock = w.isSome) :
    ∃ w', r.obj.stateLock = w'.isSome ∧ LockMove c k.pc.owns r.call.pc.owns w w' := by
  cases h with
  | admission hp _ _ hs =>
    rw [hs] at hw
    obtain rfl : w = none := by simpa using hw.symm
    exact ⟨some c, rfl, .take (by rw [hp]; rfl) rfl⟩
  | leave hp => exact ⟨none, rfl, .give (by rw [hp]; rfl) rfl⟩
  | delNone | delSome | dropQueue => exact ⟨w, hw, .keep rfl⟩
  | funcRet hp => rcases hp with hp | hp <;> exact ⟨w, hw, .keep (by rw [hp]; rfl)⟩
  | notify hp => exact ⟨w, hw, .keep (by rw [hp]; dsimp only; split <;> rfl)⟩
  | swallowed hp | passed hp | back hp | toFilter hp | toState hp | toThread hp
  | dead hp | busy hp | escape hp | escaped hp | empty hp | fetch hp | filter hp | filterRet hp
  | noFunc hp | park hp | callState hp | callThread hp | zom hp | again hp | done hp | drained hp
  | more hp | handoff hp => exact ⟨w, hw, .keep (by rw [hp]; rfl)⟩

/-- A call keeps its arguments. -/
theorem args (h : Step T c o k a r) : r.call.ev = k.ev ∧ r.call.thrInfo = k.thrInfo := by
  cases h <;> exact ⟨rfl, rfl⟩

/-- Only admission and the end of the section write `thrInfo`. -/
theorem thrInfo (h : Step T c o k a r) :
    r.obj.thrInfo = if k.pc.owns = r.call.pc.owns then o.thrInfo
      else if r.call.pc.owns then k.thrInfo else none := by
  cases h with
  | admission hp | leave hp => rw [hp]; rfl
  | delNone | delSome | dropQueue => simp
  | funcRet hp => rcases hp with hp | hp <;> rw [hp] <;> rfl
  | notify hp => rw [hp]; dsimp only; split <;> rfl
  | swallowed hp | passed hp | back hp | toFilter hp | toState hp | toThread hp
  | dead hp | busy hp | escape hp | escaped hp | empty hp | fetch hp | filter hp | filterRet hp
  | noFunc hp | park hp | callState hp | callThread hp | zom hp | again hp | done hp | drained hp
  | more hp | handoff hp => rw [hp]; rfl

end Call.Step

/-- The two locks and their holders. -/
structure Locks (s : Sys ι) : Prop where
  lm : HeldBy (·.pc.critical) s.calls s.obj.lm
  stateLock : ∃ w, s.obj.stateLock = w.isSome ∧ HeldBy (·.pc.owns) s.calls w
  thrInfo : ∀ c k, s.calls c = some k → k.pc.owns = true → s.obj.thrInfo = k.thrInfo

namespace Locks

variable {s : Sys ι} {c d : ι} {k l : Call}

theorem lm_of_critical (h : Locks s) (hc : s.calls c = some k) (hp : k.pc.critical = true) :
    s.obj.lm = some c :=
  (h.lm c).mpr ⟨k, hc, hp⟩

theorem not_critical (h : Locks s) (hl : s.obj.lm = none) (hc : s.calls c = some k) :
    k.pc.critical = false :=
  HeldBy.not_of_none (p := (·.pc.critical)) (hl ▸ h.lm) hc

/-- At most one call owns the object. -/
theorem owner_unique (h : Locks s) (hc : s.calls c = some k) (hk : k.pc.owns = true)
    (hd : s.calls d = some l) (hl : l.pc.owns = true) : c = d := by
  obtain ⟨w, -, hw⟩ := h.stateLock
  exact hw.unique hc hk hd hl

theorem locked_of_owner (h : Locks s) (hc : s.calls c = some k) (hk : k.pc.owns = true) :
    s.obj.stateLock = true := by
  obtain ⟨w, hs, hw⟩ := h.stateLock
  rw [hs, (hw c).mpr ⟨k, hc, hk⟩]
  rfl

theorem not_owner (h : Locks s) (hs : s.obj.stateLock = false) (hc : s.calls c = some k) :
    k.pc.owns = false := by
  by_contra hk
  rw [h.locked_of_owner hc (by simpa using hk)] at hs
  cases hs

theorem exists_owner (h : Locks s) (hs : s.obj.stateLock = true) :
    ∃ c k, s.calls c = some k ∧ k.pc.owns = true := by
  obtain ⟨w, he, hw⟩ := h.stateLock
  rw [hs] at he
  obtain ⟨c, rfl⟩ := Option.isSome_iff_exists.mp he.symm
  exact ⟨c, (hw c).mp rfl⟩

end Locks

section

variable [DecidableEq ι] {s t : Sys ι} {a : Act ι} {os : List (Obs ι)}

theorem Locks.init (hi : (Dispatch ι T).init s) : Locks s := by
  obtain ⟨f, rfl⟩ := hi
  exact ⟨HeldBy.none fun _ => rfl, ⟨none, rfl, HeldBy.none fun _ => rfl⟩, fun c k hk => nomatch hk⟩

theorem Locks.step (hl : Locks s) (h : Sys.Step T s a t os) : Locks t := by
  obtain ⟨w, hw, ho⟩ := hl.stateLock
  cases h with
  | @call c ev thrInfo hc =>
    refine ⟨hl.lm.keep ?_, ⟨w, hw, ho.keep ?_⟩, ?_⟩
    · simp [hc, Call.enter, Pc.critical]
    · simp [hc, Call.enter, Pc.owns]
    · refine Sys.forall_set ?_ fun d l _ hd hp => hl.thrInfo d l hd hp
      rintro l ⟨rfl⟩ hp
      simp [Call.enter, Pc.owns] at hp
  | @act c k a r hc hs =>
    have hlm := hs.lm_move (hl.lm_of_critical hc)
    obtain ⟨w', hw', hmove⟩ := hs.owner_move hw
    have ho' : HeldBy (·.pc.owns) (s.set c r.obj (some r.call)).calls w' :=
      HeldBy.move ho hc hmove
    refine ⟨hl.lm.move hc hlm, ⟨w', hw', ho'⟩, ?_⟩
    have hthr := hs.thrInfo
    refine Sys.forall_set ?_ ?_
    · rintro l ⟨rfl⟩ hp
      rw [Sys.set_obj, hthr, hs.args.2, hp]
      split
      · rename_i hk
        exact hl.thrInfo c k hc hk
      · rfl
    · intro d l e hd hp
      have hk : k.pc.owns = false := by
        by_contra hk
        exact e (hl.owner_unique hd hp hc (by simpa using hk))
      have hr : r.call.pc.owns = false := by
        by_contra hr
        have hd' : (s.set c r.obj (some r.call)).calls d = some l := by
          rwa [Sys.set_calls_of_ne e]
        exact e (ho'.unique hd' hp Sys.set_calls_self (by simpa using hr))
      rw [Sys.set_obj, hthr, hk, hr, if_pos rfl]
      exact hl.thrInfo d l hd hp
  | @ret c k hc hp =>
    refine ⟨hl.lm.keep ?_, ⟨w, hw, ho.keep ?_⟩, ?_⟩
    · simp [hc, hp, Pc.critical]
    · simp [hc, hp, Pc.owns]
    · exact Sys.forall_set (fun l hk => nomatch hk) fun d l _ hd hp => hl.thrInfo d l hd hp

/-- The locks are in order wherever a run goes. -/
theorem locks {tr : List (Obs ι)} (h : (Dispatch ι T).Run tr s) : Locks s :=
  h.stateInvariant (fun _ => Locks.init) fun _ _ _ _ hl _ hs => hl.step (Sys.step_cases hs)

/-- `application` is let go only when the object has come to rest in `ZOM`. -/
theorem application_held {tr : List (Obs ι)} (h : (Dispatch ι T).Run tr s) :
    s.obj.application = false → s.obj.state.isZom = true ∧ s.obj.stateLock = false := by
  refine h.invariant (I := fun _ s => s.obj.application = false →
    s.obj.state.isZom = true ∧ s.obj.stateLock = false) ?_ ?_
  · rintro s ⟨f, rfl⟩ ha
    cases ha
  intro tr s a t os hr ih _ hs
  have hl := locks hr
  cases Sys.step_cases hs with
  | call | ret => exact ih
  | @act c k a r hc hk =>
    cases hk with
    | admission _ _ hz =>
      intro ha
      rw [(ih ha).1] at hz
      cases hz
    | zom hp | again hp | done hp =>
      intro ha
      have := hl.locked_of_owner hc (by rw [hp]; rfl)
      rw [(ih ha).2] at this
      cases this
    | leave hp =>
      intro ha
      refine ⟨?_, rfl⟩
      rw [Sys.set_obj, Bool.and_eq_false_iff] at ha
      rcases ha with ha | ha
      · exact (ih ha).1
      · have hs : s.obj.state = T.ZOM := by simpa using ha
        simp [TsTrans.isZom, hs, T.zom_category]
    | _ => exact ih

end

end TinyState
