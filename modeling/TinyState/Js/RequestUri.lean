import TinyState.Lib.Machine
import Mathlib.Data.List.Nodup
import Mathlib.Logic.Function.Basic

/-!
# Requests for one URI, one after the other

A `gtRequest` registers with the application under its URI, and one that finds another there
listens to the state of that one. All who listen are told when it ends. The first of them takes
its place; the others find the URI taken again, but do not listen to the one that has taken it.
-/

namespace TinyState.Js

open Transition

-- ---------------------------------------------------------------------------
-- Model
-- ---------------------------------------------------------------------------

/-- The states of `gtRequest` as far as they say something about its URI. `actRequest` stands
for all from `ACT_REQUEST` to `FIN_ERROR_LOCK_RET`, and `zom` for `ZOM_START`, with the
listeners that are still to be told, and `ZOM`. -/
inductive GtRequestState
  | iniStart
  | iniWaitOldReq
  | iniPolDestroyWait
  | actRequest
  | zom (telling : List Nat)
  deriving DecidableEq, Repr

/-- From its registration on, until it is removed. -/
def GtRequestState.Holds (st : GtRequestState) : Prop := st = .actRequest ∨ st = .iniPolDestroyWait

/-- What `state("ZOM")` says. -/
def GtRequestState.Ended : GtRequestState → Prop
  | .zom _ => True
  | _ => False

/-- What `getGtPolling` finds for a URI. -/
inductive PollingFound
  | nothing
  | live
  | ending
  deriving DecidableEq, Repr

/-- All requests, in the order in which they have been made, and `i_gtRequestURI` of the
application. -/
structure GtRequests where
  uri : Nat → String
  state : Nat → GtRequestState
  listener : Nat → List Nat
  gtRequestURI : String → Option Nat
  fresh : Nat

/-- `event` is any event that a request gets from outside, `destroy()` too, and `told` the next
one that an ended request sends to those who listen to its state. Events of requests that go on
are `event`s. -/
inductive GtRequestAct
  | make (uri : String) (pol : PollingFound)
  | event (req : Nat) (polEnded : Bool) (pol : PollingFound)
  | send (req : Nat)
  | removeApp (req : Nat) (pol : PollingFound)
  | told (req : Nat) (pol : PollingFound)
  deriving DecidableEq, Repr

/-- A request sends while this one is registered. -/
structure RequestSent where
  req : Nat
  registered : Option Nat
  deriving DecidableEq, Repr

namespace GtRequests

def setState (s : GtRequests) (req : Nat) (st : GtRequestState) : GtRequests :=
  { s with state := Function.update s.state req st }

def iniCallSetting (s : GtRequests) (req : Nat) (pol : PollingFound) : GtRequests :=
  let s := { s with gtRequestURI := Function.update s.gtRequestURI (s.uri req) (some req) }
  match pol with
  | .nothing | .live => s.setState req .actRequest
  | .ending => s.setState req .iniPolDestroyWait

def iniTinyStateStart (s : GtRequests) (req : Nat) (pol : PollingFound) : GtRequests :=
  match s.gtRequestURI (s.uri req) with
  | none => s.iniCallSetting req pol
  | some old =>
    { s.setState req .iniWaitOldReq with
      listener := Function.update s.listener old (s.listener old ++ [req]) }

def iniWaitOldReq (s : GtRequests) (req : Nat) (pol : PollingFound) : GtRequests :=
  if (s.gtRequestURI (s.uri req)).isSome then s else s.iniCallSetting req pol

def iniPolDestroyWait (s : GtRequests) (req : Nat) (polEnded : Bool) (pol : PollingFound) :
    GtRequests :=
  if polEnded then s.iniCallSetting req pol else s

def event (s : GtRequests) (req : Nat) (polEnded : Bool) (pol : PollingFound) : GtRequests :=
  match s.state req with
  | .iniWaitOldReq => s.iniWaitOldReq req pol
  | .iniPolDestroyWait => s.iniPolDestroyWait req polEnded pol
  | _ => s

/-- One turn of the loop in `ZOM_START` that tells the listeners. -/
def tell (s : GtRequests) (req : Nat) (pol : PollingFound) : List Nat → GtRequests
  | [] => s.setState req (.zom [])
  | dest :: rest => (s.setState req (.zom rest)).event dest false pol

/-- From `FIN_REQUEST_REMOVE_APP` to the first listener: nothing else runs in between. -/
def finRequestRemoveApp (s : GtRequests) (req : Nat) (pol : PollingFound) : GtRequests :=
  let s' := { s with
    gtRequestURI := Function.update s.gtRequestURI (s.uri req) none
    listener := Function.update s.listener req [] }
  s'.tell req pol (s.listener req)

def step (s : GtRequests) : GtRequestAct → Option (GtRequests × List RequestSent)
  | .make uri pol =>
    let s' := { s with uri := Function.update s.uri s.fresh uri, fresh := s.fresh + 1 }
    some (s'.iniTinyStateStart s.fresh pol, [])
  | .event req polEnded pol => some (s.event req polEnded pol, [])
  | .send req =>
    if s.state req = .actRequest then some (s, [⟨req, s.gtRequestURI (s.uri req)⟩]) else none
  | .removeApp req pol =>
    if s.state req = .actRequest then some (s.finRequestRemoveApp req pol, []) else none
  | .told req pol =>
    match s.state req with
    | .zom (dest :: rest) => some (s.tell req pol (dest :: rest), [])
    | _ => none

def start : GtRequests := ⟨fun _ => "", fun _ => .iniStart, fun _ => [], fun _ => none, 0⟩

def machine : Machine GtRequests GtRequestAct RequestSent where
  init s := s = start
  step := step

/-- No request ends with two others waiting for it. -/
def Alone (s : GtRequests) : GtRequestAct → Prop
  | .removeApp req _ => (s.listener req).length ≤ 1
  | _ => True

instance (s : GtRequests) (a : GtRequestAct) : Decidable (Alone s a) :=
  match a with
  | .removeApp .. => inferInstanceAs (Decidable (_ ≤ _))
  | .make .. | .event .. | .send _ | .told .. => .isTrue trivial

-- ---------------------------------------------------------------------------
-- The registered requests
-- ---------------------------------------------------------------------------

/-- What holds in every state. -/
structure Inv (s : GtRequests) : Prop where
  named : ∀ u q, s.gtRequestURI u = some q → s.uri q = u ∧ (s.state q).Holds
  held : ∀ q, (s.state q).Holds → s.gtRequestURI (s.uri q) = some q
  waits : ∀ q, ∀ w ∈ s.listener q,
    s.state w = .iniWaitOldReq ∧ s.uri w = s.uri q ∧ (s.state q).Holds
  nodup : ∀ q, (s.listener q).Nodup
  made : ∀ q, s.fresh ≤ q → s.state q = .iniStart

variable {s t : GtRequests} {me q w : Nat} {pol : PollingFound} {rest : List Nat}
  {os tr : List RequestSent}

theorem not_holds_start : ¬ GtRequestState.iniStart.Holds := by
  rintro (h | h) <;> cases h

theorem not_holds_zom : ¬ (GtRequestState.zom rest).Holds := by
  rintro (h | h) <;> cases h

theorem not_holds_wait : ¬ GtRequestState.iniWaitOldReq.Holds := by
  rintro (h | h) <;> cases h

/-- The requests that others listen to are all registered, so that nobody listens to two. -/
theorem Inv.listens (h : s.Inv) (hw : w ∈ s.listener q) : s.gtRequestURI (s.uri w) = some q := by
  obtain ⟨-, hu, hq⟩ := h.waits q w hw
  rw [hu]
  exact h.held q hq

theorem iniCallSetting_eq (s : GtRequests) (me : Nat) (pol : PollingFound) :
    ∃ st, st.Holds ∧ s.iniCallSetting me pol = { s with
      gtRequestURI := Function.update s.gtRequestURI (s.uri me) (some me)
      state := Function.update s.state me st } := by
  cases pol with
  | nothing => exact ⟨.actRequest, .inl rfl, rfl⟩
  | live => exact ⟨.actRequest, .inl rfl, rfl⟩
  | ending => exact ⟨.iniPolDestroyWait, .inr rfl, rfl⟩

/-- A request that nobody stands in the way of is registered. -/
theorem Inv.callSetting (h : s.Inv) (hfree : ∀ q, s.gtRequestURI (s.uri me) = some q → q = me)
    (hl : ∀ q, me ∉ s.listener q) (hlt : me < s.fresh) : (s.iniCallSetting me pol).Inv := by
  obtain ⟨st, hst, he⟩ := iniCallSetting_eq s me pol
  rw [he]
  have hne : ∀ q, q ≠ me → Function.update s.state me st q = s.state q :=
    fun q hq => Function.update_of_ne hq ..
  have hself : Function.update s.state me st me = st := Function.update_self ..
  refine ⟨fun u q hq => ?_, fun q hq => ?_, fun q w hw => ?_, h.nodup, fun q hq => ?_⟩
  · dsimp only at hq ⊢
    by_cases hu : u = s.uri me
    · rw [hu, Function.update_self, Option.some.injEq] at hq
      rw [← hq, hself, hu]
      exact ⟨rfl, hst⟩
    · rw [Function.update_of_ne hu] at hq
      obtain ⟨hn, hh⟩ := h.named u q hq
      rw [hne q (fun hm => hu (hm ▸ hn.symm))]
      exact ⟨hn, hh⟩
  · dsimp only at hq ⊢
    by_cases hm : q = me
    · rw [hm, Function.update_self]
    · rw [hne q hm] at hq
      have hr := h.held q hq
      have hu : s.uri q ≠ s.uri me := fun hu => hm (hfree q (by rw [← hu]; exact hr))
      rw [Function.update_of_ne hu, hr]
  · dsimp only at hw ⊢
    obtain ⟨hs, hu, hh⟩ := h.waits q w hw
    rw [hne w (fun hm => hl q (hm ▸ hw))]
    refine ⟨hs, hu, ?_⟩
    by_cases hm : q = me
    · rw [hm, hself]
      exact hst
    · rw [hne q hm]
      exact hh
  · dsimp only at hq ⊢
    rw [hne q (by omega)]
    exact h.made q hq

theorem Inv.lt_fresh (h : s.Inv) (hs : s.state me ≠ .iniStart) : me < s.fresh :=
  Nat.lt_of_not_le fun hle => hs (h.made me hle)

theorem Inv.event (h : s.Inv) (polEnded : Bool) : (s.event me polEnded pol).Inv := by
  unfold GtRequests.event
  split
  · rename_i hs
    unfold iniWaitOldReq
    split
    · exact h
    · rename_i hn
      have hn := Option.not_isSome_iff_eq_none.mp hn
      refine h.callSetting (fun q hq => ?_) (fun q hq => ?_) (h.lt_fresh (by rw [hs]; nofun))
      · rw [hn] at hq
        cases hq
      · rw [h.listens hq] at hn
        cases hn
  · rename_i hs
    unfold iniPolDestroyWait
    split
    · refine h.callSetting (fun q hq => ?_) (fun q hq => ?_) (h.lt_fresh (by rw [hs]; nofun))
      · have hr := h.held me (by rw [hs]; exact .inr rfl)
        rw [hr] at hq
        exact (Option.some.inj hq).symm
      · have hw := (h.waits q me hq).1
        rw [hs] at hw
        cases hw
    · exact h
  · exact h

/-- Room is made for a request. -/
theorem Inv.room (h : s.Inv) (uri : String) :
    ({ s with uri := Function.update s.uri s.fresh uri, fresh := s.fresh + 1 } : GtRequests).Inv ∧
      (∀ q, s.fresh ∉ s.listener q) ∧ s.listener s.fresh = [] := by
  have hnew := h.made s.fresh (Nat.le_refl _)
  have hl : ∀ q, s.fresh ∉ s.listener q := fun q hq => by
    have hw := (h.waits q _ hq).1
    rw [hnew] at hw
    cases hw
  have hown : s.listener s.fresh = [] := List.eq_nil_iff_forall_not_mem.mpr fun w hw => by
    have hq := (h.waits _ w hw).2.2
    rw [hnew] at hq
    exact not_holds_start hq
  have hne : ∀ q, q ≠ s.fresh → Function.update s.uri s.fresh uri q = s.uri q :=
    fun q hq => Function.update_of_ne hq ..
  have hholds : ∀ q, (s.state q).Holds → q ≠ s.fresh := by
    rintro q hq rfl
    rw [hnew] at hq
    exact not_holds_start hq
  refine ⟨⟨fun u q hq => ?_, fun q hq => ?_, fun q w hw => ?_, h.nodup, fun q hq => ?_⟩, hl, hown⟩
  · obtain ⟨hu, hh⟩ := h.named u q hq
    exact ⟨(hne q (hholds q hh)).trans hu, hh⟩
  · exact (congrArg s.gtRequestURI (hne q (hholds q hq))).trans (h.held q hq)
  · obtain ⟨hs, hu, hh⟩ := h.waits q w hw
    refine ⟨hs, ?_, hh⟩
    change Function.update s.uri s.fresh uri w = Function.update s.uri s.fresh uri q
    rw [hne w (fun hm => hl q (hm ▸ hw)), hne q (hholds q hh), hu]
  · exact h.made q (by change s.fresh + 1 ≤ q at hq; omega)

/-- A request that finds an older one listens to it. -/
theorem Inv.listen (h : s.Inv) (hl : ∀ q, me ∉ s.listener q) (hown : s.listener me = [])
    (hs : s.state me = .iniStart) (hlt : me < s.fresh)
    (hq : s.gtRequestURI (s.uri me) = some q) :
    ({ s.setState me .iniWaitOldReq with
      listener := Function.update s.listener q (s.listener q ++ [me]) } : GtRequests).Inv := by
  obtain ⟨hu, hh⟩ := h.named _ q hq
  have hholds : ∀ r, (s.state r).Holds → r ≠ me := by
    rintro r hr rfl
    rw [hs] at hr
    exact not_holds_start hr
  have hne : ∀ q, q ≠ me → Function.update s.state me .iniWaitOldReq q = s.state q :=
    fun q hq => Function.update_of_ne hq ..
  have hback : ∀ q, (Function.update s.state me .iniWaitOldReq q).Holds → (s.state q).Holds := by
    intro q hq
    by_cases hm : q = me
    · rw [hm, Function.update_self] at hq
      exact absurd hq not_holds_wait
    · rwa [hne q hm] at hq
  refine ⟨fun u r hr => ?_, fun r hr => h.held r (hback r hr), fun r w hw => ?_, fun r => ?_,
    fun r hr => ?_⟩
  · obtain ⟨hu, hh⟩ := h.named u r hr
    refine ⟨hu, ?_⟩
    change (Function.update s.state me .iniWaitOldReq r).Holds
    rwa [hne r (hholds r hh)]
  · change Function.update s.state me .iniWaitOldReq w = _ ∧ _ ∧
      (Function.update s.state me .iniWaitOldReq r).Holds
    have hold : ∀ w ∈ s.listener r, Function.update s.state me .iniWaitOldReq w = .iniWaitOldReq ∧
        s.uri w = s.uri r ∧ (Function.update s.state me .iniWaitOldReq r).Holds := by
      intro w hw
      obtain ⟨hs, hu, hh⟩ := h.waits r w hw
      rw [hne w (fun hm => hl r (hm ▸ hw)), hne r (hholds r hh)]
      exact ⟨hs, hu, hh⟩
    change w ∈ Function.update s.listener q (s.listener q ++ [me]) r at hw
    by_cases hr : r = q
    · subst hr
      rw [Function.update_self] at hw
      rcases List.mem_append.mp hw with hw | hw
      · exact hold w hw
      · obtain rfl := List.mem_singleton.mp hw
        rw [Function.update_self, hne r (hholds r hh)]
        exact ⟨rfl, hu.symm, hh⟩
    · rw [Function.update_of_ne hr] at hw
      exact hold w hw
  · change (Function.update s.listener q (s.listener q ++ [me]) r).Nodup
    by_cases hr : r = q
    · subst hr
      rw [Function.update_self]
      exact List.nodup_append_comm.mp (List.nodup_cons.mpr ⟨hl r, h.nodup r⟩)
    · rw [Function.update_of_ne hr]
      exact h.nodup r
  · change Function.update s.state me .iniWaitOldReq r = _
    have hle : s.fresh ≤ r := hr
    rw [hne r (by omega)]
    exact h.made r hle

/-- A request is no longer registered, and these listeners are still to be told. -/
def gone (s : GtRequests) (me : Nat) (rest : List Nat) : GtRequests :=
  { s with
    gtRequestURI := Function.update s.gtRequestURI (s.uri me) none
    listener := Function.update s.listener me []
    state := Function.update s.state me (.zom rest) }

theorem Inv.gone (h : s.Inv) (hs : s.state me = .actRequest) (rest : List Nat) :
    (s.gone me rest).Inv := by
  have hme : s.gtRequestURI (s.uri me) = some me := h.held me (.inl hs)
  have hne : ∀ q, q ≠ me → Function.update s.state me (.zom rest) q = s.state q :=
    fun q hq => Function.update_of_ne hq ..
  unfold GtRequests.gone
  refine ⟨fun u q hq => ?_, fun q hq => ?_, fun q w hw => ?_, fun q => ?_, fun q hq => ?_⟩
  · dsimp only at hq ⊢
    by_cases hu : u = s.uri me
    · rw [hu, Function.update_self] at hq
      cases hq
    · rw [Function.update_of_ne hu] at hq
      obtain ⟨hn, hh⟩ := h.named u q hq
      rw [hne q (fun hm => hu (hm ▸ hn.symm))]
      exact ⟨hn, hh⟩
  · dsimp only at hq ⊢
    by_cases hm : q = me
    · rw [hm, Function.update_self] at hq
      exact absurd hq not_holds_zom
    · rw [hne q hm] at hq
      have hr := h.held q hq
      rw [Function.update_of_ne fun hu => hm ?_, hr]
      rw [hu, hme] at hr
      exact (Option.some.inj hr).symm
  · dsimp only at hw ⊢
    by_cases hm : q = me
    · rw [hm, Function.update_self] at hw
      cases hw
    · rw [Function.update_of_ne hm] at hw
      obtain ⟨hws, hu, hh⟩ := h.waits q w hw
      rw [hne q hm, hne w ?_]
      · exact ⟨hws, hu, hh⟩
      · rintro rfl
        rw [hs] at hws
        cases hws
  · dsimp only
    by_cases hm : q = me
    · rw [hm, Function.update_self]
      exact List.nodup_nil
    · rw [Function.update_of_ne hm]
      exact h.nodup q
  · dsimp only at hq ⊢
    rw [hne q ?_]
    · exact h.made q hq
    · rintro rfl
      rw [h.made q hq] at hs
      cases hs

/-- An ended request has told one more. -/
theorem Inv.telling (h : s.Inv) {old : List Nat} (hs : s.state me = .zom old) (rest : List Nat) :
    (s.setState me (.zom rest)).Inv := by
  have hholds : ∀ q, (s.state q).Holds → q ≠ me := by
    rintro q hq rfl
    rw [hs] at hq
    exact not_holds_zom hq
  have hne : ∀ q, q ≠ me → Function.update s.state me (.zom rest) q = s.state q :=
    fun q hq => Function.update_of_ne hq ..
  refine ⟨fun u q hq => ?_, fun q hq => ?_, fun q w hw => ?_, h.nodup, fun q hq => ?_⟩
  · obtain ⟨hu, hh⟩ := h.named u q hq
    refine ⟨hu, ?_⟩
    change (Function.update s.state me (.zom rest) q).Holds
    rwa [hne q (hholds q hh)]
  · change (Function.update s.state me (.zom rest) q).Holds at hq
    by_cases hm : q = me
    · rw [hm, Function.update_self] at hq
      exact absurd hq not_holds_zom
    · rw [hne q hm] at hq
      exact h.held q hq
  · obtain ⟨hws, hu, hh⟩ := h.waits q w hw
    change Function.update s.state me (.zom rest) w = _ ∧ _ ∧
      (Function.update s.state me (.zom rest) q).Holds
    rw [hne q (hholds q hh), hne w ?_]
    · exact ⟨hws, hu, hh⟩
    · rintro rfl
      rw [hs] at hws
      cases hws
  · change Function.update s.state me (.zom rest) q = _
    rw [hne q ?_]
    · exact h.made q hq
    · rintro rfl
      rw [h.made q hq] at hs
      cases hs

theorem Inv.finRequestRemoveApp (h : s.Inv) (hs : s.state me = .actRequest) :
    (s.finRequestRemoveApp me pol).Inv := by
  unfold GtRequests.finRequestRemoveApp
  cases s.listener me with
  | nil => exact h.gone hs []
  | cons dest rest => exact (h.gone hs rest).event false

theorem Inv.step {a : GtRequestAct} (h : s.Inv) (hs : s.step a = some (t, os)) :
    t.Inv ∧ ∀ o ∈ os, o.registered = some o.req := by
  cases a with
  | make uri pol =>
    cases hs
    obtain ⟨hr, hl, hown⟩ := h.room uri
    refine ⟨?_, List.forall_mem_nil _⟩
    unfold iniTinyStateStart
    split
    · rename_i hn
      exact hr.callSetting (fun q hq => by rw [hn] at hq; cases hq) hl (Nat.lt_succ_self _)
    · rename_i hq
      exact hr.listen hl hown (h.made _ (Nat.le_refl _)) (Nat.lt_succ_self _) hq
  | event req polEnded pol =>
    cases hs
    exact ⟨h.event polEnded, List.forall_mem_nil _⟩
  | send req =>
    obtain ⟨hst, he⟩ := Option.ite_none_right_eq_some.mp hs
    cases he
    exact ⟨h, List.forall_mem_singleton.mpr (h.held req (.inl hst))⟩
  | removeApp req pol =>
    obtain ⟨hst, he⟩ := Option.ite_none_right_eq_some.mp hs
    cases he
    exact ⟨h.finRequestRemoveApp hst, List.forall_mem_nil _⟩
  | told req pol =>
    dsimp only [GtRequests.step] at hs
    split at hs
    · rename_i dest rest hst
      cases hs
      exact ⟨(h.telling hst rest).event false, List.forall_mem_nil _⟩
    · cases hs

-- ---------------------------------------------------------------------------
-- The waiting requests
-- ---------------------------------------------------------------------------

/-- It listens to a request that has not ended yet, or its URI is free and it is going to be
told. -/
def Served (s : GtRequests) (w : Nat) : Prop :=
  (∃ q, ¬ (s.state q).Ended ∧ w ∈ s.listener q) ∨
    s.gtRequestURI (s.uri w) = none ∧ ∃ q rest, s.state q = .zom rest ∧ w ∈ rest

def AllServed (s : GtRequests) : Prop := ∀ w, s.state w = .iniWaitOldReq → s.Served w

/-- What holds as long as no request ends with two others waiting for it: each one that waits
listens to another, and nobody is still to be told. -/
structure Heard (s : GtRequests) : Prop where
  listens : ∀ w, s.state w = .iniWaitOldReq → ∃ q, w ∈ s.listener q
  told : ∀ q rest, s.state q = .zom rest → rest = []

theorem Heard.allServed (h : s.Heard) (hi : s.Inv) : s.AllServed := by
  intro w hw
  obtain ⟨q, hq⟩ := h.listens w hw
  refine .inl ⟨q, fun he => ?_, hq⟩
  rcases (hi.waits q w hq).2.2 with hs | hs <;> rw [hs] at he <;> exact he

theorem Heard.callSetting (h : s.Heard) : (s.iniCallSetting me pol).Heard := by
  obtain ⟨st, hst, he⟩ := iniCallSetting_eq s me pol
  rw [he]
  refine ⟨fun w hw => ?_, fun q rest hq => ?_⟩
  · dsimp only at hw ⊢
    by_cases hm : w = me
    · rw [hm, Function.update_self] at hw
      rw [hw] at hst
      exact absurd hst not_holds_wait
    · rw [Function.update_of_ne hm] at hw
      exact h.listens w hw
  · dsimp only at hq
    by_cases hm : q = me
    · rw [hm, Function.update_self] at hq
      rw [hq] at hst
      exact absurd hst not_holds_zom
    · rw [Function.update_of_ne hm] at hq
      exact h.told q rest hq

theorem Heard.event (h : s.Heard) (polEnded : Bool) : (s.event me polEnded pol).Heard := by
  unfold GtRequests.event
  split
  · unfold iniWaitOldReq
    split
    · exact h
    · exact h.callSetting
  · unfold iniPolDestroyWait
    split
    · exact h.callSetting
    · exact h
  · exact h

theorem Heard.make (h : s.Heard) (uri : String) :
    (({ s with uri := Function.update s.uri s.fresh uri, fresh := s.fresh + 1 } :
      GtRequests).iniTinyStateStart s.fresh pol).Heard := by
  have hr : ({ s with uri := Function.update s.uri s.fresh uri, fresh := s.fresh + 1 } :
      GtRequests).Heard := ⟨h.listens, h.told⟩
  unfold iniTinyStateStart
  split
  · exact hr.callSetting
  · rename_i old _
    refine ⟨fun w hw => ?_, fun q rest hq => ?_⟩
    · change Function.update s.state s.fresh .iniWaitOldReq w = _ at hw
      change ∃ q, w ∈ Function.update s.listener old (s.listener old ++ [s.fresh]) q
      by_cases hm : w = s.fresh
      · refine ⟨old, ?_⟩
        rw [hm, Function.update_self]
        exact List.mem_append_right _ (List.mem_singleton.mpr rfl)
      · rw [Function.update_of_ne hm] at hw
        obtain ⟨q, hq⟩ := h.listens w hw
        refine ⟨q, ?_⟩
        by_cases ho : q = old
        · rw [ho, Function.update_self]
          exact List.mem_append_left _ (ho ▸ hq)
        · rwa [Function.update_of_ne ho]
    · change Function.update s.state s.fresh .iniWaitOldReq q = _ at hq
      by_cases hm : q = s.fresh
      · rw [hm, Function.update_self] at hq
        cases hq
      · rw [Function.update_of_ne hm] at hq
        exact h.told q rest hq

theorem Heard.gone (h : s.Heard) (hw : (s.gone me []).state w = .iniWaitOldReq)
    (hn : w ∉ s.listener me) : ∃ q, w ∈ (s.gone me []).listener q := by
  change Function.update s.state me (.zom []) w = _ at hw
  change ∃ q, w ∈ Function.update s.listener me [] q
  have hm : w ≠ me := by
    rintro rfl
    rw [Function.update_self] at hw
    cases hw
  rw [Function.update_of_ne hm] at hw
  obtain ⟨q, hq⟩ := h.listens w hw
  refine ⟨q, ?_⟩
  rwa [Function.update_of_ne]
  rintro rfl
  exact hn hq

theorem Heard.told_gone (h : s.Heard) (hq : (s.gone me []).state q = .zom rest) : rest = [] := by
  change Function.update s.state me (.zom []) q = _ at hq
  by_cases hm : q = me
  · rw [hm, Function.update_self] at hq
    cases hq
    rfl
  · rw [Function.update_of_ne hm] at hq
    exact h.told q rest hq

theorem Inv.waits_gone (h : s.Inv) (hs : s.state me = .actRequest) (hw : w ∈ s.listener q)
    (rest : List Nat) : (s.gone me rest).state w = .iniWaitOldReq := by
  obtain ⟨hws, -, -⟩ := h.waits q w hw
  change Function.update s.state me (.zom rest) w = _
  rw [Function.update_of_ne, hws]
  rintro rfl
  rw [hs] at hws
  cases hws

/-- The first listener takes the place of the request that has ended. -/
theorem Inv.takes (h : s.Inv) (hs : s.state me = .actRequest) (hw : w ∈ s.listener me)
    (rest : List Nat) :
    (s.gone me rest).event w false pol = (s.gone me rest).iniCallSetting w pol := by
  obtain ⟨-, hu, -⟩ := h.waits me w hw
  have hfree : (s.gone me rest).gtRequestURI ((s.gone me rest).uri w) = none := by
    change Function.update s.gtRequestURI (s.uri me) none (s.uri w) = none
    rw [hu, Function.update_self]
  unfold GtRequests.event
  rw [h.waits_gone hs hw rest]
  dsimp only
  rw [iniWaitOldReq, hfree]
  rfl

/-- Those behind the first listener find their URI taken, and listen to nobody. -/
theorem Inv.not_served (h : s.Inv) (hs : s.state me = .actRequest) {first : Nat}
    (hl : s.listener me = first :: w :: rest) :
    ¬ (s.finRequestRemoveApp me pol).AllServed := by
  have hfirst : first ∈ s.listener me := hl ▸ List.mem_cons_self
  have hw : w ∈ s.listener me := hl ▸ List.mem_cons_of_mem _ List.mem_cons_self
  have hne : w ≠ first := by
    have hn := h.nodup me
    rw [hl] at hn
    rintro rfl
    exact (List.nodup_cons.mp hn).1 List.mem_cons_self
  have he : s.finRequestRemoveApp me pol = (s.gone me (w :: rest)).iniCallSetting first pol := by
    rw [← h.takes hs hfirst]
    unfold GtRequests.finRequestRemoveApp
    rw [hl]
    rfl
  obtain ⟨st, hst, hc⟩ := iniCallSetting_eq (s.gone me (w :: rest)) first pol
  rw [he, hc]
  intro ha
  have hwait : Function.update (s.gone me (w :: rest)).state first st w = .iniWaitOldReq := by
    rw [Function.update_of_ne hne]
    exact h.waits_gone hs hw _
  rcases ha w hwait with ⟨q, -, hq⟩ | ⟨hfree, -⟩
  · change w ∈ Function.update s.listener me [] q at hq
    have hm : q ≠ me := by
      rintro rfl
      rw [Function.update_self] at hq
      cases hq
    rw [Function.update_of_ne hm] at hq
    have h₁ := h.listens hq
    rw [h.listens hw] at h₁
    exact hm (Option.some.inj h₁).symm
  · change Function.update (s.gone me (w :: rest)).gtRequestURI (s.uri first) (some first)
      (s.uri w) = none at hfree
    rw [(h.waits me w hw).2.1, (h.waits me first hfirst).2.1, Function.update_self] at hfree
    cases hfree

theorem Heard.finRequestRemoveApp (h : s.Heard) (hi : s.Inv) (hs : s.state me = .actRequest)
    (hl : (s.listener me).length ≤ 1) : (s.finRequestRemoveApp me pol).Heard := by
  unfold GtRequests.finRequestRemoveApp
  cases hc : s.listener me with
  | nil =>
    refine ⟨fun w hw => h.gone hw (by rw [hc]; exact List.not_mem_nil), fun q rest hq =>
      h.told_gone hq⟩
  | cons first rest =>
    obtain rfl : rest = [] := by
      rw [hc] at hl
      exact List.eq_nil_of_length_eq_zero (by simpa using hl)
    have hfirst : first ∈ s.listener me := hc ▸ List.mem_cons_self
    change ((s.gone me []).event first false pol).Heard
    rw [hi.takes hs hfirst]
    obtain ⟨st, hst, he⟩ := iniCallSetting_eq (s.gone me []) first pol
    rw [he]
    refine ⟨fun w hw => ?_, fun q rest hq => ?_⟩
    · change Function.update (s.gone me []).state first st w = _ at hw
      by_cases hm : w = first
      · rw [hm, Function.update_self] at hw
        rw [hw] at hst
        exact absurd hst not_holds_wait
      · rw [Function.update_of_ne hm] at hw
        refine h.gone hw ?_
        rw [hc]
        exact mt List.mem_singleton.mp hm
    · change Function.update (s.gone me []).state first st q = _ at hq
      by_cases hm : q = first
      · rw [hm, Function.update_self] at hq
        rw [hq] at hst
        exact absurd hst not_holds_zom
      · rw [Function.update_of_ne hm] at hq
        exact h.told_gone hq

/-- A step keeps all who wait served if and only if it ends no request that two wait for. -/
theorem Heard.step {a : GtRequestAct} (h : s.Heard) (hi : s.Inv) (hs : s.step a = some (t, os)) :
    (Alone s a → t.Heard) ∧ (t.AllServed → Alone s a) := by
  cases a with
  | make uri pol =>
    cases hs
    exact ⟨fun _ => h.make uri, fun _ => trivial⟩
  | event req polEnded pol =>
    cases hs
    exact ⟨fun _ => h.event polEnded, fun _ => trivial⟩
  | send req =>
    obtain ⟨-, he⟩ := Option.ite_none_right_eq_some.mp hs
    cases he
    exact ⟨fun _ => h, fun _ => trivial⟩
  | removeApp req pol =>
    obtain ⟨hst, he⟩ := Option.ite_none_right_eq_some.mp hs
    cases he
    refine ⟨fun hc => h.finRequestRemoveApp hi hst hc, fun ha => ?_⟩
    change (s.listener req).length ≤ 1
    by_contra hlen
    match hl : s.listener req with
    | [] => simp [hl] at hlen
    | [_] => simp [hl] at hlen
    | first :: w :: rest => exact hi.not_served hst hl ha
  | told req pol =>
    dsimp only [GtRequests.step] at hs
    split at hs
    · rename_i dest rest hst
      cases h.told req _ hst
    · cases hs

-- ---------------------------------------------------------------------------
-- Runs
-- ---------------------------------------------------------------------------

theorem inv_of_run (h : machine.Run tr s) : s.Inv ∧ ∀ o ∈ tr, o.registered = some o.req := by
  refine h.invariant (I := fun tr s => s.Inv ∧ ∀ o ∈ tr, o.registered = some o.req) (fun s hi => ?_)
    fun tr s a t os _ ⟨hv, ho⟩ _ hs => ?_
  · obtain rfl : s = start := hi
    refine ⟨⟨nofun, fun q hq => absurd hq not_holds_start, fun q w hw => ?_, fun q => ?_,
      fun q _ => rfl⟩, List.forall_mem_nil _⟩
    · cases hw
    · exact List.nodup_nil
  · obtain ⟨ht, hn⟩ := hv.step hs
    exact ⟨ht, List.forall_mem_append.mpr ⟨ho, hn⟩⟩

theorem heard_of_run (h : machine.RunIf Alone tr s) : s.Heard := by
  refine h.invariant (I := fun _ s => s.Heard) (fun s hi => ?_) fun tr s a t os hr hh hc hs => ?_
  · obtain rfl : s = start := hi
    exact ⟨nofun, nofun⟩
  · exact (hh.step (inv_of_run hr.run).1 hs).1 hc

/-- What is said of the requests for one URI. Two that have taken it and not given it back are
the same one. -/
structure Serial (tr : List RequestSent) (s : GtRequests) : Prop where
  one : ∀ q r, (s.state q).Holds → (s.state r).Holds → s.uri q = s.uri r → q = r
  registered : ∀ u q, s.gtRequestURI u = some q ↔ s.uri q = u ∧ (s.state q).Holds
  sent : ∀ o ∈ tr, o.registered = some o.req
  served : s.AllServed

theorem serial (h : machine.Run tr s) (ha : s.AllServed) : s.Serial tr := by
  obtain ⟨hv, ho⟩ := inv_of_run h
  refine ⟨fun q r hq hr hu => ?_, fun u q => ⟨hv.named u q, ?_⟩, ho, ha⟩
  · have h₁ := hv.held q hq
    rw [hu, hv.held r hr] at h₁
    exact (Option.some.inj h₁).symm
  · rintro ⟨rfl, hq⟩
    exact hv.held q hq

/-- As long as no request ends with two others waiting for it, requests for one URI come one
after the other, and none waits for nothing; the first that does leaves one that does. -/
theorem requestUri_law (h : machine.RunIf Alone tr s) :
    s.Serial tr ∧ ∀ a t os, s.step a = some (t, os) → (t.Serial (tr ++ os) ↔ Alone s a) := by
  have hi := (inv_of_run h.run).1
  have hh := heard_of_run h
  refine ⟨serial h.run (hh.allServed hi), fun a t os hs => ⟨fun ht => ?_, fun hc => ?_⟩⟩
  · exact (hh.step hi hs).2 ht.served
  · have hr := h.step hc hs
    exact serial hr.run ((heard_of_run hr).allServed (inv_of_run hr.run).1)

/-- One request waits for another; a third one has a URI of its own. -/
theorem requestUri_law_handed : ∃ tr s, machine.RunIf Alone tr s ∧
    (tr = [⟨0, some 0⟩, ⟨2, some 2⟩, ⟨1, some 1⟩] ∧ s.state 0 = .zom []) ∧
    s.Serial tr ∧ ∀ a t os, s.step a = some (t, os) → (t.Serial (tr ++ os) ↔ Alone s a) := by
  obtain ⟨tr, s, h, hc⟩ : ∃ tr s, machine.RunIf Alone tr s ∧
      (tr = [⟨0, some 0⟩, ⟨2, some 2⟩, ⟨1, some 1⟩] ∧ s.state 0 = .zom []) :=
    Machine.exists_run (M := machine) (C := Alone)
      (P := fun tr s => tr = [⟨0, some 0⟩, ⟨2, some 2⟩, ⟨1, some 1⟩] ∧ s.state 0 = .zom [])
      [.make "/a" .nothing, .make "/a" .nothing, .make "/b" .live, .send 0, .event 1 false .nothing,
        .send 2, .removeApp 0 .live, .send 1]
      (s := start) rfl (by decide)
  exact ⟨tr, s, h, hc, requestUri_law h⟩

/-- Two requests wait for a third one. It ends, and so does the first of the two; the other one
waits for good. -/
theorem request_stranded : ∃ tr s, machine.Run tr s ∧ s.state 2 = .iniWaitOldReq ∧
    s.gtRequestURI (s.uri 2) = none ∧ ¬ s.Serial tr := by
  obtain ⟨tr, s, h, hw, hf, hn, h₀, h₁⟩ : ∃ tr s, machine.Run tr s ∧
      s.state 2 = .iniWaitOldReq ∧ s.gtRequestURI (s.uri 2) = none ∧ s.fresh = 3 ∧
        s.state 0 = .zom [] ∧ s.state 1 = .zom [] :=
    Machine.exists_run (M := machine) (C := fun _ _ => True)
      (P := fun _ s => s.state 2 = .iniWaitOldReq ∧ s.gtRequestURI (s.uri 2) = none ∧
        s.fresh = 3 ∧ s.state 0 = .zom [] ∧ s.state 1 = .zom [])
      [.make "/a" .nothing, .make "/a" .nothing, .make "/a" .nothing, .send 0,
        .removeApp 0 .nothing, .told 0 .nothing, .send 1, .removeApp 1 .nothing]
      (s := start) rfl (by decide)
  refine ⟨tr, s, h, hw, hf, fun hs => ?_⟩
  have hv := (inv_of_run h).1
  rcases hs.served 2 hw with ⟨q, -, hq⟩ | ⟨-, q, rest, hq, hm⟩
  · rw [hv.listens hq] at hf
    cases hf
  · have hlt : q < s.fresh := hv.lt_fresh (by rw [hq]; nofun)
    rw [hn] at hlt
    match q with
    | 0 =>
      rw [h₀] at hq
      cases hq
      cases hm
    | 1 =>
      rw [h₁] at hq
      cases hq
      cases hm
    | 2 =>
      rw [hw] at hq
      cases hq

end GtRequests

end TinyState.Js
