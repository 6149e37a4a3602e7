import TinyState.Lib.Machine
import TinyState.Js.RequestUri
import Mathlib.Data.List.Count

/-!
# The life of a request

A `gtRequest` takes a permit of the shared semaphore, sends by an `ifAjax`, again after each
timeout, gives the permit back when it has a reply, and answers its parent. A `destroy()` before
that drops the reply, a reply of another shape ends the request with an error, and either way
the parent gets no answer.
-/

namespace TinyState.Js

open Transition

-- ---------------------------------------------------------------------------
-- Replies
-- ---------------------------------------------------------------------------

/-- What `JSON.parse` makes of a text. -/
inductive Json
  | null
  | bool (b : Bool)
  | num (n : Int)
  | str (s : String)
  | arr (l : List Json)
  | obj (l : List (String × Json))

namespace Json

/-- `v[name]`, where no value stands for `undefined`; it throws on `undefined` and `null`. -/
def prop : Option Json → String → Option (Option Json)
  | none, _ => none
  | some .null, _ => none
  | some (.obj l), name => some (l.lookup name)
  | some _, _ => some none

def agent : String := "GLOBALBASE TOOLKIT"

/-- Whether `v.indexOf(gtPolling.agent,0)` is 0. -/
def startsWithAgent : Option Json → Option Bool
  | some (.str s) => some (agent.toList.isPrefixOf s.toList)
  | some (.arr (.str s :: _)) => some (s == agent)
  | some (.arr _) => some false
  | _ => none

/-- Whether `v` has a `slice`. -/
def sliceable : Option Json → Bool
  | some (.str _) | some (.arr _) => true
  | _ => false

/-- The test of `ACT_START` on `message.polling.agent`. -/
def fromAgent (message : Json) : Option Bool := do
  let polling ← prop (some message) "polling"
  let agent ← prop polling "agent"
  startsWithAgent agent

/-- Whether `requestResult` gets through the message. -/
def polled (message : Json) : Bool :=
  match prop (some message) "polling" with
  | none => false
  | some polling =>
    match prop polling "uri", prop polling "base" with
    | some uri, some base => sliceable uri && sliceable base
    | _, _ => false

end Json

/-- The reply to a request: whether its status is `"OK"`, and the message, if it is JSON. -/
structure AjaxReply where
  ok : Bool
  message : Option Json

/-- What `ifAjax` reports when `send` throws. -/
def AjaxReply.failed : AjaxReply := ⟨false, none⟩

-- ---------------------------------------------------------------------------
-- Model
-- ---------------------------------------------------------------------------

/-- What comes of sending: it has to wait for the semaphore of `ifAjax`, there is no
`XMLHttpRequest`, `send` throws, or the reply is on its way. -/
inductive AjaxLaunch
  | waits
  | unsupported
  | threw
  | sent
  deriving DecidableEq

/-- The states of `ifAjax`. `stale` is set where it is still in the queue of its semaphore. -/
inductive IfAjax
  | iniSemGet
  | actStart (stale : Bool)
  | errStart
  | zom
  deriving DecidableEq

inductive RequestEvent
  | state
  | wakeup
  | destroy
  | timeout
  | ret (reply : AjaxReply)
  | lockEnd

/-- The states that `gtRequest` comes to rest in. `ini` is `INI_START` and `INI_WAIT_OLD_REQ`. -/
inductive RequestState
  | ini
  | iniPolDestroyWait
  | actRequest
  | actStart
  | finErrorLockRet
  | errStart
  | zom
  deriving DecidableEq

/-- `gtRequest` with all transfers that it has made, its places in the queue of the semaphore and
its timers. -/
structure GtRequest where
  post : Bool
  state : RequestState
  i_eventQueue : List RequestEvent
  i_destroyFlag : Bool
  i_ifC : Option Nat
  transfer : List IfAjax
  queued : Nat
  timeouts : Nat
  errorLock : Bool

inductive RequestObs
  | acquired
  | released
  | answered (ok : Bool)
  deriving DecidableEq

/-- What a request finds while it handles an event: whether an older request is registered,
whether its polling has ended, what polling there is, whether a permit is free, what comes of
sending and of a transfer that is destroyed before it has sent, and whether the polling that the
result goes to has ended or knows of another polling. -/
structure RequestEnv where
  free : Bool
  polEnded : Bool
  pol : PollingFound
  permit : Bool
  ajax : AjaxLaunch
  old : AjaxLaunch
  polGone : Bool
  idDiffers : Bool

inductive RequestAct
  | state
  | wakeup
  | destroy
  | timer
  | lockTimer
  | reply (ajax : Nat) (reply : AjaxReply)
  | ajaxGo (ajax : Nat) (launch : AjaxLaunch)
  | ajaxWake (ajax : Nat)
  | handle (env : RequestEnv)

namespace GtRequest

def start (post : Bool) : GtRequest := ⟨post, .ini, [.state], false, none, [], 0, 0, false⟩

/-- `eventHandler` of an object that is running or will run at once. -/
def push (r : GtRequest) (ev : RequestEvent) : GtRequest :=
  if r.state = .zom then r else { r with i_eventQueue := r.i_eventQueue ++ [ev] }

/-- A transfer goes on; what fails at once is reported at once. -/
def launched (r : GtRequest) (ajax : Nat) (stale : Bool) : AjaxLaunch → GtRequest
  | .waits => r
  | .unsupported => { r with transfer := r.transfer.set ajax .errStart }
  | .threw => { r with transfer := r.transfer.set ajax .zom }.push (.ret .failed)
  | .sent => { r with transfer := r.transfer.set ajax (.actStart stale) }

/-- `this.i_ifC.destroy()`. A transfer that has sent passes the event on and ends; one that waits
for its semaphore asks again. -/
def destroyAjax (r : GtRequest) (old : AjaxLaunch) : GtRequest :=
  match r.i_ifC with
  | none => r
  | some ajax =>
    match r.transfer[ajax]? with
    | some (.actStart _) => { r with transfer := r.transfer.set ajax .zom }.push .destroy
    | some .iniSemGet => r.launched ajax true old
    | _ => r

def actRequestBody (r : GtRequest) (ajax : AjaxLaunch) : GtRequest :=
  let r' := { r with
    timeouts := if r.post then r.timeouts else r.timeouts + 1
    transfer := r.transfer ++ [IfAjax.iniSemGet]
    i_ifC := some r.transfer.length
    state := RequestState.actStart }
  r'.launched r.transfer.length false ajax

def actRequest (r : GtRequest) (env : RequestEnv) : GtRequest × List RequestObs :=
  if env.permit then (r.actRequestBody env.ajax, [.acquired])
  else ({ r with state := .actRequest, queued := r.queued + 1 }, [])

def iniCallSetting (r : GtRequest) (env : RequestEnv) : GtRequest × List RequestObs :=
  match env.pol with
  | .nothing | .live => r.actRequest env
  | .ending => ({ r with state := .iniPolDestroyWait }, [])

def finRequestRemoveApp (r : GtRequest) : GtRequest := { r with state := .zom, i_eventQueue := [] }

def finRequestStart (r : GtRequest) (ok : Bool) : GtRequest × List RequestObs :=
  if ok then (r.finRequestRemoveApp, [.answered true])
  else ({ r with state := .finErrorLockRet, errorLock := true }, [.answered false])

def errStart (r : GtRequest) : GtRequest := { r with state := .errStart }

/-- `ACT_START` from the release of the permit on. -/
def returned (r : GtRequest) (env : RequestEnv) (reply : AjaxReply) :
    GtRequest × List RequestObs :=
  let r := { r with i_ifC := none }
  if reply.ok then
    match reply.message with
    | none => r.finRequestStart false
    | some message =>
      match message.fromAgent with
      | none => (r.errStart, [])
      | some false => r.finRequestStart true
      | some true =>
        if env.polGone || !(env.idDiffers || message.polled) then (r.errStart, [])
        else r.finRequestStart true
  else r.finRequestStart false

def actStart (r : GtRequest) (env : RequestEnv) (ev : RequestEvent) :
    GtRequest × List RequestObs :=
  if r.i_destroyFlag && r.i_ifC.isSome then ({ r.destroyAjax env.old with i_ifC := none }, [])
  else
    match ev with
    | .timeout =>
      if r.i_ifC.isSome then ((r.destroyAjax env.old).actRequestBody env.ajax, [])
      else (r.errStart, [])
    | .ret reply => ((r.returned env reply).1, .released :: (r.returned env reply).2)
    | .lockEnd => (r.errStart, [.released])
    | _ => (r, [])

def finErrorLockRet (r : GtRequest) : RequestEvent → GtRequest
  | .ret _ | .lockEnd => r.finRequestRemoveApp
  | _ => r

def handle (r : GtRequest) (env : RequestEnv) (ev : RequestEvent) :
    GtRequest × List RequestObs :=
  match r.state with
  | .ini => if env.free then r.iniCallSetting env else (r, [])
  | .iniPolDestroyWait => if env.polEnded then r.iniCallSetting env else (r, [])
  | .actRequest => r.actRequest env
  | .actStart => r.actStart env ev
  | .finErrorLockRet => (r.finErrorLockRet ev, [])
  | .errStart | .zom => (r, [])

def step (r : GtRequest) : RequestAct → Option (GtRequest × List RequestObs)
  | .state => if r.state = .ini then some (r.push .state, []) else none
  | .wakeup =>
    if 0 < r.queued then some ({ r with queued := r.queued - 1 }.push .wakeup, []) else none
  | .destroy => some ({ r with i_destroyFlag := true }.push .destroy, [])
  | .timer =>
    if 0 < r.timeouts then some ({ r with timeouts := r.timeouts - 1 }.push .timeout, []) else none
  | .lockTimer =>
    if r.errorLock then some ({ r with errorLock := false }.push .lockEnd, []) else none
  | .reply ajax reply =>
    match r.transfer[ajax]? with
    | some (.actStart _) =>
      some ({ r with transfer := r.transfer.set ajax .zom }.push (.ret reply), [])
    | _ => none
  | .ajaxGo ajax launch =>
    if r.transfer[ajax]? = some .iniSemGet then some (r.launched ajax false launch, []) else none
  | .ajaxWake ajax =>
    if r.transfer[ajax]? = some (.actStart true) then
      some ({ r with transfer := r.transfer.set ajax .zom }.push .wakeup, [])
    else none
  | .handle env =>
    match r.i_eventQueue with
    | [] => none
    | ev :: rest => some ({ r with i_eventQueue := rest }.handle env ev)

def machine : Machine GtRequest RequestAct RequestObs where
  init r := ∃ post, r = start post
  step := step

/-- The reply lets the request answer its parent. -/
def Answers (env : RequestEnv) (reply : AjaxReply) : Bool :=
  !reply.ok ||
    match reply.message with
    | none => true
    | some message =>
      match message.fromAgent with
      | none => false
      | some false => true
      | some true => !env.polGone && (env.idDiffers || message.polled)

/-- An event is handled without an exception and without waiting for the polling to end. -/
def Smooth (env : RequestEnv) (ev : RequestEvent) : RequestState → Bool
  | .ini => !env.free || env.pol != .ending && !(env.permit && env.ajax == .unsupported)
  | .iniPolDestroyWait =>
    !env.polEnded || env.pol != .ending && !(env.permit && env.ajax == .unsupported)
  | .actRequest => !(env.permit && env.ajax == .unsupported)
  | .actStart =>
    match ev with
    | .timeout => env.ajax != .unsupported
    | .ret reply => Answers env reply
    | _ => true
  | _ => true

/-- No request is destroyed before it has its reply, and nothing goes wrong with what it finds
when it sends and when it takes the reply. -/
def Proper (r : GtRequest) : RequestAct → Bool
  | .destroy => r.state == .finErrorLockRet || r.state == .zom
  | .ajaxGo _ launch => launch != .unsupported
  | .handle env =>
    match r.i_eventQueue with
    | [] => true
    | ev :: _ => Smooth env ev r.state
  | _ => true

-- ---------------------------------------------------------------------------
-- The claim
-- ---------------------------------------------------------------------------

def isAnswer : RequestObs → Bool
  | .answered _ => true
  | _ => false

/-- A request that has come to rest waits for something that is on its way: for an older one with
its URI, for the semaphore, for its transfer, or for its timer. -/
def Awaits (r : GtRequest) : Prop :=
  match r.state with
  | .ini | .zom => True
  | .actRequest => 0 < r.queued
  | .actStart => ∃ ajax, r.i_ifC = some ajax ∧
      (r.transfer[ajax]? = some .iniSemGet ∨ r.transfer[ajax]? = some (.actStart false))
  | .finErrorLockRet => r.errorLock = true
  | .iniPolDestroyWait | .errStart => False

/-- What is said of the life of a request. -/
structure Kept (r : GtRequest) (tr : List RequestObs) : Prop where
  permits : tr.count .acquired =
    tr.count .released + if r.state = .actStart then 1 else 0
  once : tr.count .acquired ≤ 1
  answered : tr.countP isAnswer =
    if r.state = .finErrorLockRet ∨ r.state = .zom then 1 else 0
  awaits : r.i_eventQueue = [] → r.Awaits

-- ---------------------------------------------------------------------------
-- Steps
-- ---------------------------------------------------------------------------

variable {r t : GtRequest} {tr os : List RequestObs} {ajax : Nat} {launch : AjaxLaunch}
  {env : RequestEnv} {ev : RequestEvent} {evs : List RequestEvent}

/-- So many permits acquired and released, and answers given. -/
structure Account (tr : List RequestObs) (acquired released answered : Nat) : Prop where
  acquired : tr.count .acquired = acquired
  released : tr.count .released = released
  answered : tr.countP isAnswer = answered

theorem Account.append {a b c d e f : Nat} (h : Account tr a b c) (ho : Account os d e f) :
    Account (tr ++ os) (a + d) (b + e) (c + f) := by
  refine ⟨?_, ?_, ?_⟩
  · rw [List.count_append, h.acquired, ho.acquired]
  · rw [List.count_append, h.released, ho.released]
  · rw [List.countP_append, h.answered, ho.answered]

theorem Account.same {a b c : Nat} (h : Account tr a b c) : Account (tr ++ []) a b c :=
  (List.append_nil tr).symm ▸ h

/-- The reply to the last sending is on its way, or it has arrived. -/
def Replying (r : GtRequest) : Prop :=
  ∃ ajax, r.i_ifC = some ajax ∧
    (r.transfer[ajax]? = some .iniSemGet ∨ r.transfer[ajax]? = some (.actStart false) ∨
      ∃ reply, .ret reply ∈ r.i_eventQueue)

def Phase (r : GtRequest) (tr : List RequestObs) : Prop :=
  match r.state with
  | .ini => Account tr 0 0 0
  | .actRequest => Account tr 0 0 0 ∧ (0 < r.queued ∨ r.i_eventQueue ≠ [])
  | .actStart => Account tr 1 0 0 ∧ r.Replying
  | .finErrorLockRet => Account tr 1 1 1 ∧ (r.errorLock = true ∨ .lockEnd ∈ r.i_eventQueue)
  | .zom => Account tr 1 1 1
  | .iniPolDestroyWait | .errStart => False

/-- It has its reply. -/
def Answered (r : GtRequest) : Prop := r.state = .finErrorLockRet ∨ r.state = .zom

structure Inv (r : GtRequest) (tr : List RequestObs) : Prop where
  flag : r.i_destroyFlag = true → r.Answered
  lock : r.errorLock = true ∨ .lockEnd ∈ r.i_eventQueue → r.Answered
  phase : r.Phase tr

/-- A step of somebody else: at most it sends events to the request. -/
structure Told (r t : GtRequest) : Prop where
  state : t.state = r.state
  flag : t.i_destroyFlag = r.i_destroyFlag
  lock : t.errorLock = r.errorLock
  ifC : t.i_ifC = r.i_ifC
  queue : ∃ evs, t.i_eventQueue = r.i_eventQueue ++ evs ∧ .lockEnd ∉ evs
  queued : t.queued = r.queued ∨ r.state = .zom ∨ t.i_eventQueue ≠ []

theorem Inv.told (h : r.Inv tr) (ht : Told r t) (hr : r.state = .actStart → t.Replying) :
    t.Inv tr := by
  obtain ⟨evs, hq, hn⟩ := ht.queue
  have hlock : .lockEnd ∈ t.i_eventQueue → .lockEnd ∈ r.i_eventQueue := fun hm => by
    rw [hq] at hm
    exact (List.mem_append.mp hm).resolve_right hn
  refine ⟨fun hf => ?_, fun hl => ?_, ?_⟩
  · rw [Answered, ht.state]
    exact h.flag (ht.flag ▸ hf)
  · rw [Answered, ht.state]
    exact h.lock (hl.imp (fun hl => ht.lock ▸ hl) hlock)
  · have hp := h.phase
    unfold Phase at hp ⊢
    rw [ht.state]
    cases hs : r.state with
    | actRequest =>
      rw [hs] at hp
      refine ⟨hp.1, ?_⟩
      rcases ht.queued with he | he | he
      · rw [he]
        refine hp.2.imp_right fun hne hnil => hne ?_
        rw [hq] at hnil
        exact (List.append_eq_nil_iff.mp hnil).1
      · rw [hs] at he
        cases he
      · exact .inr he
    | actStart =>
      rw [hs] at hp
      exact ⟨hp.1, hr hs⟩
    | finErrorLockRet =>
      rw [hs] at hp
      refine ⟨hp.1, hp.2.imp (fun hl => ht.lock ▸ hl) fun hm => ?_⟩
      rw [hq]
      exact List.mem_append_left _ hm
    | ini | iniPolDestroyWait | errStart | zom =>
      rw [hs] at hp
      exact hp

theorem told_push (r : GtRequest) (hev : ev ≠ .lockEnd) : Told r (r.push ev) := by
  unfold push
  split
  · rename_i hz
    exact ⟨rfl, rfl, rfl, rfl, ⟨[], (List.append_nil _).symm, List.not_mem_nil⟩, .inl rfl⟩
  · exact ⟨rfl, rfl, rfl, rfl, ⟨[ev], rfl, fun hm => hev (List.mem_singleton.mp hm).symm⟩, .inl rfl⟩

theorem Replying.push (h : r.Replying) (ev : RequestEvent) : (r.push ev).Replying := by
  unfold GtRequest.push
  split
  · exact h
  · obtain ⟨ajax, hc, ht⟩ := h
    refine ⟨ajax, hc, ht.imp_right fun ht => ht.imp_right fun ⟨reply, hm⟩ => ⟨reply, ?_⟩⟩
    exact List.mem_append_left _ hm

theorem replying_push_ret (hc : r.i_ifC.isSome) (hz : r.state ≠ .zom) (reply : AjaxReply) :
    (r.push (.ret reply)).Replying := by
  unfold push
  rw [if_neg hz]
  obtain ⟨ajax, hc⟩ := Option.isSome_iff_exists.mp hc
  exact ⟨ajax, hc, .inr (.inr ⟨reply, List.mem_append_right _ (List.mem_singleton.mpr rfl)⟩)⟩

theorem Told.trans {u : GtRequest} (h : Told r t) (h' : Told t u) : Told r u := by
  obtain ⟨evs, hq, hn⟩ := h.queue
  obtain ⟨evs', hq', hn'⟩ := h'.queue
  refine ⟨h'.state.trans h.state, h'.flag.trans h.flag, h'.lock.trans h.lock, h'.ifC.trans h.ifC,
    ⟨evs ++ evs', by rw [hq', hq, List.append_assoc], fun hm => ?_⟩, ?_⟩
  · exact (List.mem_append.mp hm).elim hn hn'
  · rcases h'.queued with he' | he' | he'
    · rcases h.queued with he | he | he
      · exact .inl (he'.trans he)
      · exact .inr (.inl he)
      · refine .inr (.inr fun hnil => he ?_)
        rw [hq'] at hnil
        exact (List.append_eq_nil_iff.mp hnil).1
    · exact .inr (.inl (h.state ▸ he'))
    · exact .inr (.inr he')

theorem told_transfer (r : GtRequest) (transfer : List IfAjax) :
    Told r { r with transfer := transfer } :=
  ⟨rfl, rfl, rfl, rfl, ⟨[], (List.append_nil _).symm, List.not_mem_nil⟩, .inl rfl⟩

theorem told_launched (r : GtRequest) (ajax : Nat) (stale : Bool) (launch : AjaxLaunch) :
    Told r (r.launched ajax stale launch) := by
  cases launch with
  | waits => exact told_transfer r r.transfer
  | unsupported => exact told_transfer r _
  | threw => exact (told_transfer r _).trans (told_push _ nofun)
  | sent => exact told_transfer r _

/-- The reply to the last sending is not lost when a transfer that waits goes on. -/
theorem Replying.launched (h : r.Replying) (hz : r.state ≠ .zom)
    (hw : r.transfer[ajax]? = some .iniSemGet) (hl : launch ≠ .unsupported) :
    (r.launched ajax false launch).Replying := by
  obtain ⟨cur, hc, ht⟩ := h
  have hlt := (List.getElem?_eq_some_iff.mp hw).1
  cases launch with
  | waits => exact ⟨cur, hc, ht⟩
  | unsupported => exact absurd rfl hl
  | threw =>
    exact replying_push_ret (r := { r with transfer := r.transfer.set ajax .zom })
      (Option.isSome_iff_exists.mpr ⟨cur, hc⟩) hz _
  | sent =>
    refine ⟨cur, hc, ?_⟩
    by_cases he : ajax = cur
    · subst he
      exact .inr (.inl (List.getElem?_set_self hlt))
    · have hne : (r.transfer.set ajax (.actStart false))[cur]? = r.transfer[cur]? :=
        List.getElem?_set_ne he
      change (r.transfer.set ajax (.actStart false))[cur]? = _ ∨
        (r.transfer.set ajax (.actStart false))[cur]? = _ ∨ _
      rw [hne]
      exact ht

/-- A transfer that is not the last one, or reports, ends. -/
theorem Replying.ended (h : r.Replying)
    (hne : r.i_ifC ≠ some ajax ∨ ∃ reply, .ret reply ∈ r.i_eventQueue) :
    ({ r with transfer := r.transfer.set ajax .zom } : GtRequest).Replying := by
  obtain ⟨cur, hc, ht⟩ := h
  refine ⟨cur, hc, ?_⟩
  rcases hne with hne | hm
  · have hset : (r.transfer.set ajax .zom)[cur]? = r.transfer[cur]? :=
      List.getElem?_set_ne fun he => hne (by rw [he]; exact hc)
    dsimp only
    rw [hset]
    exact ht
  · exact .inr (.inr hm)

/-- The request has a permit and sends. -/
theorem replying_actRequestBody (r : GtRequest) (hl : launch ≠ .unsupported) :
    (r.actRequestBody launch).Replying := by
  have hw : (r.transfer ++ [IfAjax.iniSemGet])[r.transfer.length]? = some .iniSemGet := by
    rw [List.getElem?_append_right (Nat.le_refl _), Nat.sub_self]
    rfl
  exact Replying.launched ⟨_, rfl, .inl hw⟩ nofun hw hl

theorem actRequestBody_told (r : GtRequest) (launch : AjaxLaunch) :
    (r.actRequestBody launch).state = .actStart ∧
      (r.actRequestBody launch).i_destroyFlag = r.i_destroyFlag ∧
      (r.actRequestBody launch).errorLock = r.errorLock ∧
      (.lockEnd ∈ (r.actRequestBody launch).i_eventQueue → .lockEnd ∈ r.i_eventQueue) := by
  have ht := told_launched { r with
    timeouts := if r.post then r.timeouts else r.timeouts + 1
    transfer := r.transfer ++ [IfAjax.iniSemGet]
    i_ifC := some r.transfer.length
    state := RequestState.actStart } r.transfer.length false launch
  obtain ⟨evs, hq, hn⟩ := ht.queue
  refine ⟨ht.state, ht.flag, ht.lock, fun hm => ?_⟩
  unfold actRequestBody at hm
  rw [hq] at hm
  exact (List.mem_append.mp hm).resolve_right hn

/-- Before it has its reply it has not been destroyed, and its timer does not run. -/
structure Young (r : GtRequest) : Prop where
  flag : r.i_destroyFlag = false
  lock : r.errorLock = false
  lockEnd : .lockEnd ∉ r.i_eventQueue

theorem Inv.young (h : r.Inv tr) (hn : ¬ r.Answered) : r.Young :=
  ⟨Bool.eq_false_iff.mpr fun hf => hn (h.flag hf),
    Bool.eq_false_iff.mpr fun hl => hn (h.lock (.inl hl)), fun hm => hn (h.lock (.inr hm))⟩

theorem Young.inv (h : r.Young) (hp : r.Phase tr) : r.Inv tr := by
  refine ⟨fun hf => ?_, fun hl => ?_, hp⟩
  · rw [h.flag] at hf
    cases hf
  · rcases hl with hl | hl
    · rw [h.lock] at hl
      cases hl
    · exact absurd hl h.lockEnd

theorem Young.next (h : r.Young) (hq : r.i_eventQueue = ev :: evs) :
    ({ r with i_eventQueue := evs } : GtRequest).Young :=
  ⟨h.flag, h.lock, fun hm => h.lockEnd (hq ▸ List.mem_cons_of_mem _ hm)⟩

theorem Young.actRequestBody (h : r.Young) (ha : Account tr 1 0 0) (hl : launch ≠ .unsupported) :
    (r.actRequestBody launch).Inv tr := by
  obtain ⟨hs, hf, hlock, hq⟩ := actRequestBody_told r launch
  refine Young.inv ⟨hf.trans h.flag, hlock.trans h.lock, fun hm => h.lockEnd (hq hm)⟩ ?_
  unfold Phase
  rw [hs]
  exact ⟨ha, replying_actRequestBody r hl⟩

theorem account_nil : Account [] 0 0 0 := ⟨rfl, rfl, rfl⟩

theorem account_acquired : Account [.acquired] 1 0 0 := ⟨rfl, rfl, rfl⟩

theorem Young.actRequest (h : r.Young) (ha : Account tr 0 0 0)
    (hc : (!(env.permit && env.ajax == .unsupported)) = true) :
    (r.actRequest env).1.Inv (tr ++ (r.actRequest env).2) := by
  unfold GtRequest.actRequest
  cases hp : env.permit with
  | true =>
    rw [hp, Bool.true_and, Bool.not_eq_true', beq_eq_false_iff_ne] at hc
    exact h.actRequestBody (ha.append account_acquired) hc
  | false => exact Young.inv ⟨h.flag, h.lock, h.lockEnd⟩ ⟨ha.same, .inl (Nat.succ_pos _)⟩

theorem Young.iniCallSetting (h : r.Young) (ha : Account tr 0 0 0)
    (hc : (env.pol != .ending && !(env.permit && env.ajax == .unsupported)) = true) :
    (r.iniCallSetting env).1.Inv (tr ++ (r.iniCallSetting env).2) := by
  obtain ⟨hpol, hc⟩ := (Bool.and_eq_true _ _).mp hc
  unfold GtRequest.iniCallSetting
  cases hp : env.pol with
  | nothing => exact h.actRequest ha hc
  | live => exact h.actRequest ha hc
  | ending =>
    rw [hp] at hpol
    cases hpol

/-- With a reply that lets it do so, it answers its parent. -/
theorem returned_inv {reply : AjaxReply} (hf : r.i_destroyFlag = false) (ha : Account tr 1 0 0)
    (hc : Answers env reply = true) :
    (r.returned env reply).1.Inv (tr ++ RequestObs.released :: (r.returned env reply).2) := by
  have hend : ∀ q : GtRequest, ∀ ok, (q.finRequestStart ok).1.Inv
      (tr ++ RequestObs.released :: (q.finRequestStart ok).2) := by
    intro q ok
    have hacc : ∀ b, Account (tr ++ [RequestObs.released, .answered b]) 1 1 1 := fun b =>
      ha.append ⟨rfl, rfl, rfl⟩
    unfold finRequestStart
    cases ok with
    | true => exact ⟨fun _ => .inr rfl, fun _ => .inr rfl, hacc true⟩
    | false => exact ⟨fun _ => .inl rfl, fun _ => .inl rfl, hacc false, .inl rfl⟩
  unfold Answers at hc
  unfold returned
  dsimp only
  split
  · rename_i hok
    rw [hok] at hc
    split
    · exact hend _ false
    · rename_i message hm
      rw [hm] at hc
      dsimp only at hc
      split
      · rename_i hn
        rw [hn] at hc
        cases hc
      · exact hend _ true
      · rename_i hn
        rw [hn] at hc
        split
        · rename_i hbad
          simp_all
        · exact hend _ true
  · exact hend _ false

/-- The old transfer is destroyed after a timeout, and a new one made. -/
theorem Young.destroyAjax (h : r.Young) (old : AjaxLaunch) : (r.destroyAjax old).Young := by
  have hold : ∀ {t}, Told r t → t.Young := by
    intro t ht
    obtain ⟨evs, hq, hn⟩ := ht.queue
    refine ⟨ht.flag.trans h.flag, ht.lock.trans h.lock, fun hm => ?_⟩
    rw [hq] at hm
    exact (List.mem_append.mp hm).elim h.lockEnd hn
  unfold GtRequest.destroyAjax
  split
  · exact h
  · split
    · exact hold ((told_transfer r _).trans (told_push _ (fun h => by cases h)))
    · exact hold (told_launched r _ true old)
    · exact h

theorem Young.actStart (h : r.Young) (ha : Account tr 1 0 0) (hifC : r.i_ifC.isSome = true)
    (hlock : ev ≠ .lockEnd) (hc : Smooth env ev .actStart = true)
    (hother : (∀ reply, ev ≠ .ret reply) → r.Inv (tr ++ [])) :
    (r.actStart env ev).1.Inv (tr ++ (r.actStart env ev).2) := by
  have hf : ¬ (r.i_destroyFlag && r.i_ifC.isSome) = true := by
    rw [h.flag]
    exact Bool.false_ne_true
  unfold GtRequest.actStart
  rw [if_neg hf]
  cases ev with
  | state => exact hother nofun
  | wakeup => exact hother nofun
  | destroy => exact hother nofun
  | lockEnd => exact absurd rfl hlock
  | timeout =>
    dsimp only
    rw [if_pos hifC]
    exact (h.destroyAjax env.old).actRequestBody ha.same (bne_iff_ne.mp hc)
  | ret reply => exact returned_inv h.flag ha hc

theorem phase_ini (hs : r.state = .ini) : r.Phase tr ↔ Account tr 0 0 0 := by rw [Phase, hs]

theorem phase_actRequest (hs : r.state = .actRequest) :
    r.Phase tr ↔ Account tr 0 0 0 ∧ (0 < r.queued ∨ r.i_eventQueue ≠ []) := by rw [Phase, hs]

theorem phase_actStart (hs : r.state = .actStart) :
    r.Phase tr ↔ Account tr 1 0 0 ∧ r.Replying := by rw [Phase, hs]

theorem phase_finErrorLockRet (hs : r.state = .finErrorLockRet) :
    r.Phase tr ↔ Account tr 1 1 1 ∧ (r.errorLock = true ∨ .lockEnd ∈ r.i_eventQueue) := by
  rw [Phase, hs]

theorem phase_zom (hs : r.state = .zom) : r.Phase tr ↔ Account tr 1 1 1 := by rw [Phase, hs]

theorem not_answered (h₁ : r.state ≠ .finErrorLockRet) (h₂ : r.state ≠ .zom) : ¬ r.Answered :=
  fun h => h.elim h₁ h₂

/-- The next event is handled, where `n` is the request without it. -/
theorem Inv.handle {n : GtRequest} (h : r.Inv tr) (hq : r.i_eventQueue = ev :: evs)
    (hn : n = { r with i_eventQueue := evs }) (hc : Smooth env ev r.state = true) :
    (n.handle env ev).1.Inv (tr ++ (n.handle env ev).2) := by
  have hst : n.state = r.state := by rw [hn]
  have hqueue : n.i_eventQueue = evs := by rw [hn]
  have hyoung : r.state ≠ .finErrorLockRet → r.state ≠ .zom → r.Young ∧ n.Young := fun h₁ h₂ => by
    have hy := h.young (not_answered h₁ h₂)
    exact ⟨hy, hn ▸ hy.next hq⟩
  have hp := h.phase
  cases hs : r.state with
  | ini =>
    rw [hs] at hc hst
    rw [phase_ini hs] at hp
    have hy := (hyoung (by rw [hs]; nofun) (by rw [hs]; nofun)).2
    have he : n.handle env ev = if env.free then n.iniCallSetting env else (n, []) := by
      rw [GtRequest.handle, hst]
    rw [he]
    split
    · rename_i hfree
      unfold Smooth at hc
      rw [hfree, Bool.not_true, Bool.false_or] at hc
      exact hy.iniCallSetting hp hc
    · exact hy.inv ((phase_ini hst).mpr hp.same)
  | actRequest =>
    rw [hs] at hc hst
    rw [phase_actRequest hs] at hp
    have hy := (hyoung (by rw [hs]; nofun) (by rw [hs]; nofun)).2
    rw [GtRequest.handle, hst]
    exact hy.actRequest hp.1 hc
  | actStart =>
    rw [hs] at hc hst
    obtain ⟨ha, ajax, hifC, hr⟩ := (phase_actStart hs).mp hp
    obtain ⟨hyr, hy⟩ := hyoung (by rw [hs]; nofun) (by rw [hs]; nofun)
    have hlock : ev ≠ .lockEnd := by
      rintro rfl
      exact hyr.lockEnd (hq ▸ List.mem_cons_self)
    have hifC : n.i_ifC = some ajax := by rw [hn]; exact hifC
    rw [GtRequest.handle, hst]
    refine hy.actStart ha (Option.isSome_iff_exists.mpr ⟨ajax, hifC⟩) hlock hc fun hne =>
      hy.inv ((phase_actStart hst).mpr ⟨ha.same, ajax, hifC, ?_⟩)
    rw [hqueue, hn]
    refine hr.imp_right fun hr => hr.imp_right fun ⟨reply, hm⟩ => ⟨reply, ?_⟩
    rw [hq] at hm
    exact (List.mem_cons.mp hm).resolve_left (hne reply).symm
  | finErrorLockRet =>
    rw [hs] at hst
    obtain ⟨ha, hl⟩ := (phase_finErrorLockRet hs).mp hp
    have hend : n.finRequestRemoveApp.Inv (tr ++ []) :=
      ⟨fun _ => .inr rfl, fun _ => .inr rfl, (phase_zom rfl).mpr ha.same⟩
    have hother : ev ≠ .lockEnd → n.Inv (tr ++ []) := fun hne => by
      refine ⟨fun _ => .inl hst, fun _ => .inl hst,
        (phase_finErrorLockRet hst).mpr ⟨ha.same, ?_⟩⟩
      rw [hqueue, hn]
      refine hl.imp_right fun hm => ?_
      rw [hq] at hm
      exact (List.mem_cons.mp hm).resolve_left hne.symm
    rw [GtRequest.handle, hst]
    cases ev with
    | ret reply => exact hend
    | lockEnd => exact hend
    | state => exact hother nofun
    | wakeup => exact hother nofun
    | destroy => exact hother nofun
    | timeout => exact hother nofun
  | zom =>
    rw [hs] at hst
    rw [phase_zom hs] at hp
    rw [GtRequest.handle, hst]
    exact ⟨fun _ => .inr hst, fun _ => .inr hst, (phase_zom hst).mpr hp.same⟩
  | iniPolDestroyWait | errStart =>
    rw [Phase, hs] at hp
    exact hp.elim

theorem Inv.replying (h : r.Inv tr) (hs : r.state = .actStart) : r.Replying :=
  ((phase_actStart hs).mp h.phase).2

theorem Inv.step {a : RequestAct} (h : r.Inv tr) (hc : r.Proper a = true)
    (hs : r.step a = some (t, os)) : t.Inv (tr ++ os) := by
  cases a with
  | state =>
    obtain ⟨-, he⟩ := Option.ite_none_right_eq_some.mp hs
    cases he
    rw [List.append_nil]
    exact h.told (told_push r nofun) fun hst => (h.replying hst).push _
  | wakeup =>
    obtain ⟨-, he⟩ := Option.ite_none_right_eq_some.mp hs
    cases he
    rw [List.append_nil]
    have hp : Told { r with queued := r.queued - 1 }
        ({ r with queued := r.queued - 1 }.push .wakeup) := told_push _ nofun
    have hz : r.state = .zom ∨
        ({ r with queued := r.queued - 1 }.push .wakeup).i_eventQueue ≠ [] := by
      unfold push
      split
      · rename_i hz
        exact .inl hz
      · exact .inr (List.append_ne_nil_of_right_ne_nil _ (List.cons_ne_nil _ _))
    refine h.told ⟨hp.state, hp.flag, hp.lock, hp.ifC, hp.queue, .inr hz⟩ fun hst => ?_
    have hr : ({ r with queued := r.queued - 1 } : GtRequest).Replying := h.replying hst
    exact hr.push _
  | destroy =>
    cases hs
    rw [List.append_nil]
    have ha : r.Answered := by
      rcases (Bool.or_eq_true _ _).mp hc with hs | hs
      · exact .inl (eq_of_beq hs)
      · exact .inr (eq_of_beq hs)
    have hd : ({ r with i_destroyFlag := true } : GtRequest).Inv tr :=
      ⟨fun _ => ha, h.lock, h.phase⟩
    exact hd.told (told_push _ nofun) fun hst => (hd.replying hst).push _
  | timer =>
    obtain ⟨-, he⟩ := Option.ite_none_right_eq_some.mp hs
    cases he
    rw [List.append_nil]
    have hd : ({ r with timeouts := r.timeouts - 1 } : GtRequest).Inv tr :=
      ⟨h.flag, h.lock, h.phase⟩
    exact hd.told (told_push _ nofun) fun hst => (hd.replying hst).push _
  | lockTimer =>
    obtain ⟨hl, he⟩ := Option.ite_none_right_eq_some.mp hs
    cases he
    rw [List.append_nil]
    have hp := h.phase
    unfold push
    dsimp only
    rcases h.lock (.inl hl) with hst | hst
    · rw [if_neg (by rw [hst]; nofun)]
      refine ⟨fun _ => .inl hst, fun _ => .inl hst, ?_⟩
      rw [phase_finErrorLockRet (by exact hst)]
      exact ⟨((phase_finErrorLockRet hst).mp hp).1,
        .inr (List.mem_append_right _ (List.mem_singleton.mpr rfl))⟩
    · rw [if_pos hst]
      refine ⟨fun _ => .inr hst, fun _ => .inr hst, ?_⟩
      rw [phase_zom (by exact hst)]
      exact (phase_zom hst).mp hp
  | reply ajax reply =>
    dsimp only [GtRequest.step] at hs
    split at hs
    · cases hs
      rw [List.append_nil]
      refine h.told ((told_transfer r _).trans (told_push _ nofun)) fun hst => ?_
      obtain ⟨cur, hifC, -⟩ := h.replying hst
      exact replying_push_ret (r := { r with transfer := r.transfer.set ajax .zom })
        (Option.isSome_iff_exists.mpr ⟨cur, hifC⟩) (by change r.state ≠ _; rw [hst]; nofun) reply
    · cases hs
  | ajaxGo ajax launch =>
    obtain ⟨hw, he⟩ := Option.ite_none_right_eq_some.mp hs
    cases he
    rw [List.append_nil]
    refine h.told (told_launched r ajax false launch) fun hst => ?_
    exact (h.replying hst).launched (by rw [hst]; nofun) hw (bne_iff_ne.mp hc)
  | ajaxWake ajax =>
    obtain ⟨hw, he⟩ := Option.ite_none_right_eq_some.mp hs
    cases he
    rw [List.append_nil]
    refine h.told ((told_transfer r _).trans (told_push _ nofun)) fun hst => ?_
    refine Replying.push (Replying.ended (h.replying hst) ?_) _
    obtain ⟨cur, hifC, ht⟩ := h.replying hst
    rcases ht with ht | ht | ht
    · refine .inl fun hcur => ?_
      obtain rfl : cur = ajax := Option.some.inj (hifC.symm.trans hcur)
      rw [hw] at ht
      cases ht
    · refine .inl fun hcur => ?_
      obtain rfl : cur = ajax := Option.some.inj (hifC.symm.trans hcur)
      rw [hw] at ht
      cases ht
    · exact .inr ht
  | handle env =>
    unfold GtRequest.step at hs
    cases hq : r.i_eventQueue with
    | nil =>
      rw [hq] at hs
      cases hs
    | cons ev evs =>
      unfold Proper at hc
      rw [hq] at hs hc
      have ht := h.handle hq rfl hc
      injection hs with he
      rwa [he] at ht

-- ---------------------------------------------------------------------------
-- Runs
-- ---------------------------------------------------------------------------

theorem Inv.kept (h : r.Inv tr) : r.Kept tr := by
  have hp := h.phase
  have hawaits : ∀ {x : RequestEvent}, r.i_eventQueue = [] → x ∉ r.i_eventQueue := fun hq hm => by
    rw [hq] at hm
    cases hm
  cases hs : r.state with
  | ini =>
    obtain ⟨ha, hr, hn⟩ := (phase_ini hs).mp hp
    refine ⟨?_, ?_, ?_, fun _ => ?_⟩ <;> simp only [ha, hr, hn, hs, Awaits] <;> decide
  | actRequest =>
    obtain ⟨⟨ha, hr, hn⟩, hw⟩ := (phase_actRequest hs).mp hp
    refine ⟨?_, ?_, ?_, fun hq => ?_⟩
    iterate 3 simp only [ha, hr, hn, hs]; decide
    rw [Awaits, hs]
    exact hw.resolve_right (not_not.mpr hq)
  | actStart =>
    obtain ⟨⟨ha, hr, hn⟩, ajax, hifC, ht⟩ := (phase_actStart hs).mp hp
    refine ⟨?_, ?_, ?_, fun hq => ?_⟩
    iterate 3 simp only [ha, hr, hn, hs]; decide
    rw [Awaits, hs]
    exact ⟨ajax, hifC, ht.imp_right fun ht => ht.resolve_right fun ⟨_, hm⟩ => hawaits hq hm⟩
  | finErrorLockRet =>
    obtain ⟨⟨ha, hr, hn⟩, hl⟩ := (phase_finErrorLockRet hs).mp hp
    refine ⟨?_, ?_, ?_, fun hq => ?_⟩
    iterate 3 simp only [ha, hr, hn, hs]; decide
    rw [Awaits, hs]
    exact hl.resolve_right (hawaits hq)
  | zom =>
    obtain ⟨ha, hr, hn⟩ := (phase_zom hs).mp hp
    refine ⟨?_, ?_, ?_, fun _ => ?_⟩ <;> simp only [ha, hr, hn, hs, Awaits] <;> decide
  | iniPolDestroyWait | errStart =>
    rw [Phase, hs] at hp
    exact hp.elim

/-- As long as nobody destroys the request before it has its reply, and the reply and what it
finds on its way are such that nothing is thrown, it gives back the permit it takes, answers its
parent once, and waits for nothing that does not come. -/
theorem requestLife_law (h : machine.RunIf (fun r a => r.Proper a = true) tr r) : r.Kept tr := by
  refine Inv.kept (h.invariant (I := fun tr r => r.Inv tr) (fun r hi => ?_)
    fun tr r a t os _ hv hc hs => hv.step hc hs)
  obtain ⟨post, rfl⟩ := hi
  refine ⟨nofun, fun hl => ?_, account_nil⟩
  rcases hl with hl | hl
  · cases hl
  · cases List.mem_singleton.mp hl

/-- What a request finds when all goes well. -/
def usual : RequestEnv := ⟨true, false, .nothing, true, .sent, .waits, false, false⟩

/-- A reply that the polling takes. -/
def polledReply : AjaxReply :=
  ⟨true, some (.obj [("polling", .obj [("agent", .str Json.agent), ("uri", .str "/p"),
    ("base", .str "/")])])⟩

/-- A request waits for a permit, sends again after a timeout, and has a reply. -/
theorem requestLife_law_timeout : ∃ tr r, machine.RunIf (fun r a => r.Proper a = true) tr r ∧
    (tr = [.acquired, .released, .answered true] ∧ r.transfer = [.zom, .zom]) ∧ r.Kept tr := by
  obtain ⟨tr, r, h, hc⟩ : ∃ tr r, machine.RunIf (fun r a => r.Proper a = true) tr r ∧
      (tr = [.acquired, .released, .answered true] ∧ r.transfer = [.zom, .zom]) :=
    Machine.exists_run (M := machine) (C := fun r a => r.Proper a = true)
      (P := fun tr r => tr = [.acquired, .released, .answered true] ∧ r.transfer = [.zom, .zom])
      [.handle { usual with permit := false }, .wakeup, .handle usual, .timer, .handle usual,
        .handle usual, .reply 1 polledReply, .handle usual]
      (s := start false) ⟨false, rfl⟩ (by decide)
  exact ⟨tr, r, h, hc, requestLife_law h⟩

/-- It has come to rest, lives, and nothing is on its way to it. -/
structure Idle (r : GtRequest) : Prop where
  rest : r.i_eventQueue = []
  lives : r.state ≠ .ini ∧ r.state ≠ .zom
  transfer : ∀ st ∈ r.transfer, st = .zom ∨ st = .errStart
  queued : r.queued = 0
  timeouts : r.timeouts = 0
  errorLock : r.errorLock = false

theorem Idle.not_kept (h : r.Idle) : ¬ r.Kept tr := by
  intro hk
  have hw := hk.awaits h.rest
  unfold Awaits at hw
  split at hw
  · rename_i hs
    exact h.lives.1 hs
  · rename_i hs
    exact h.lives.2 hs
  · rw [h.queued] at hw
    exact Nat.lt_irrefl 0 hw
  · obtain ⟨ajax, -, ht | ht⟩ := hw
    all_goals
      have hz := h.transfer _ (List.mem_of_getElem? ht)
      rcases hz with hz | hz <;> cases hz
  · rw [h.errorLock] at hw
    cases hw
  · exact hw
  · exact hw

theorem idle_iff : r.Idle ↔ (r.i_eventQueue.isEmpty = true ∧ (r.state ≠ .ini ∧ r.state ≠ .zom) ∧
    (∀ st ∈ r.transfer, st = .zom ∨ st = .errStart) ∧ r.queued = 0 ∧ r.timeouts = 0 ∧
      r.errorLock = false) :=
  ⟨fun ⟨h₁, h₂, h₃, h₄, h₅, h₆⟩ => ⟨List.isEmpty_iff.mpr h₁, h₂, h₃, h₄, h₅, h₆⟩,
    fun ⟨h₁, h₂, h₃, h₄, h₅, h₆⟩ => ⟨List.isEmpty_iff.mp h₁, h₂, h₃, h₄, h₅, h₆⟩⟩

instance (r : GtRequest) : Decidable r.Idle := decidable_of_iff' _ idle_iff

theorem exists_idle (os : List RequestObs) (as : List RequestAct)
    (h : (machine.exec (fun _ _ => True) (start true) as).any
      (fun x => decide (x.1.Idle ∧ x.2 = os)) = true) :
    ∃ r, machine.Run os r ∧ r.Idle ∧ ¬ r.Kept os := by
  obtain ⟨tr, r, hr, hi, rfl⟩ := Machine.exists_run (M := machine) (C := fun _ _ => True)
    (P := fun tr r => r.Idle ∧ tr = os) as (s := start true) ⟨true, rfl⟩ h
  exact ⟨r, hr, hi, hi.not_kept⟩

/-- A POST request is destroyed while its transfer is out; the reply to one is the JSON text
`null`; the polling for its URI is ending; there is no `XMLHttpRequest`. -/
theorem request_unsent :
    (∃ r, machine.Run [.acquired] r ∧ r.Idle ∧ ¬ r.Kept [.acquired]) ∧
    (∃ r, machine.Run [.acquired, .released] r ∧ r.Idle ∧ ¬ r.Kept [.acquired, .released]) ∧
    (∃ r, machine.Run [] r ∧ r.Idle ∧ ¬ r.Kept []) ∧
    ∃ r, machine.Run [.acquired] r ∧ r.transfer = [.errStart] ∧ r.Idle ∧ ¬ r.Kept [.acquired] := by
  refine ⟨?destroyed, ?null, ?ending, ?unsupported⟩
  case destroyed =>
    exact exists_idle _ [.handle usual, .destroy, .handle usual, .handle usual] (by decide)
  case null =>
    exact exists_idle _ [.handle usual, .reply 0 ⟨true, some .null⟩, .handle usual] (by decide)
  case ending => exact exists_idle _ [.handle { usual with pol := .ending }] (by decide)
  case unsupported =>
    obtain ⟨tr, r, hr, hi, rfl, ht⟩ := Machine.exists_run (M := machine) (C := fun _ _ => True)
      (P := fun tr r => r.Idle ∧ tr = [.acquired] ∧ r.transfer = [.errStart])
      [.handle { usual with ajax := .unsupported }] (s := start true) ⟨true, rfl⟩ (by decide)
    exact ⟨r, hr, ht, hi, hi.not_kept⟩

end GtRequest

end TinyState.Js
