import TinyState.Lib.Machine
import Mathlib.Data.List.Perm.Basic
import Mathlib.Data.List.Nodup

/-!
# Results of the writes of gtItem

A write waits in a queue until the item has nothing else to do; then all that wait are merged into
one document, which is posted, and are answered when the server has. After an error that is not
the client's the item reads its document again, and the writes that were posted stay behind.
-/

namespace TinyState.Js.GtItemWrite

open Transition

-- ---------------------------------------------------------------------------
-- Model
-- ---------------------------------------------------------------------------

/-- The states. `FIN_START_SENT` is `FIN_START` behind `i_sendWriteResult`. The state that waits
for an earlier item is never come to, since `i_prevGtItem` is not set. -/
inductive State
  | INI_START
  | INI_TINYSTATE_START
  | INI_gtItem_GET
  | INI_gtItem_INIT_POL_ACCESS_WAIT
  | INI_gtItem_REQUEST
  | INI_gtItem_RET
  | ACT_START
  | ACT_TINYSTATE_CHECK1
  | ACT_TINYSTATE_START
  | ACT_gtItem_UPDATED
  | ACT_gtItem_UPDATED_RET
  | ACT_gtItem_SETUP
  | ACT_gtItem_WRITE
  | ACT_gtItem_WRITE_RET
  | FIN_REFERENCE
  | FIN_REFERENCE_WAIT
  | FIN_START
  | FIN_START_SENT
  | FIN_TINYSTATE_START
  | ZOM_START
  | ZOM
  | ERR_START
  deriving DecidableEq, Repr

/-- A write; `bad` says that its arguments cannot be merged, and throw. The writes of the
terminals have no `source`. -/
structure Req where
  seq : Nat
  bad : Bool
  source : Bool
  deriving DecidableEq, Repr

/-- What is asked of the server; a `POST` has the data of some writes. -/
inductive Method
  | GET
  | POST (reqs : List Req)
  deriving DecidableEq, Repr

/-- `status2` of an error; whether the object of the message is the one that the item has seen. -/
inductive Reply
  | success (sameBorn : Bool)
  | ERROR (status2 : Nat)
  deriving DecidableEq, Repr

inductive Event
  | initial
  | wakeup
  | destroy
  | returned (m : Method) (r : Reply)
  deriving DecidableEq, Repr

inductive Status
  | ok
  | error (status2 : Nat)
  deriving DecidableEq, Repr

inductive Obs
  | written (req : Req)
  | accepted (reqs : List Req)
  | answered (req : Req) (status : Status)
  deriving DecidableEq, Repr

/-- `doing` says that the handler of `i_state` is run next, with the event `ev`; `sending` is
`i_sendWriteResult` under way, and the state that follows. -/
structure GtItem where
  i_state : State
  doing : Bool
  ev : Event
  i_eventQueue : List Event
  i_destroyFlag : Bool
  i_updated : Bool
  i_pol : Bool
  i_ref : Nat
  i_writeQueue : List Req
  i_writeResultQueue : List Req
  requests : List Method
  sending : Option (Status × State)
  writes : Nat
  deriving DecidableEq, Repr

/-- What a handler is told by others: whether there is a polling, whether it has an ID, whether
that has changed in `ACT_gtItem_SETUP`, and whether the semaphore has a permit. -/
structure Env where
  pol : Bool
  pollingID : Bool
  changed : Bool
  free : Bool
  deriving DecidableEq, Repr

inductive Act
  | write (bad source : Bool)
  | notice
  | destroy
  | addRef
  | releaseRef
  | reply (i : Nat) (r : Reply)
  | go (env : Env)
  deriving DecidableEq, Repr

namespace GtItem

def new : GtItem where
  i_state := .INI_START
  doing := false
  ev := .initial
  i_eventQueue := [.initial]
  i_destroyFlag := false
  i_updated := false
  i_pol := false
  i_ref := 0
  i_writeQueue := []
  i_writeResultQueue := []
  requests := []
  sending := none
  writes := 0

/-- An item that has ended takes no events. -/
def eventHandler (s : GtItem) (ev : Event) : GtItem :=
  if s.i_state = .ZOM_START ∨ s.i_state = .ZOM then s
  else { s with i_eventQueue := s.i_eventQueue ++ [ev] }

/-- `return "doNAME"` -/
def goto (s : GtItem) (state : State) : GtItem := { s with i_state := state, doing := true }

/-- `return "NAME"` -/
def waits (s : GtItem) (state : State) : GtItem := { s with i_state := state, doing := false }

/-- `new gtRequest` -/
def request (s : GtItem) (m : Method) : GtItem := { s with requests := s.requests ++ [m] }

/-- `i_sendWriteResult`, and then `return "doNAME"`. -/
def i_sendWriteResult (s : GtItem) (status : Status) (state : State) : GtItem :=
  { s with sending := some (status, state), doing := true }

/-- An error of the client. -/
def clientError (ss : Nat) : Bool := 400 ≤ ss && ss ≤ 499

/-- The loop of `ACT_gtItem_WRITE`: what is merged, and whether a write throws. -/
def merge (merged : List Req) : List Req → List Req × List Req × Bool
  | [] => (merged, [], false)
  | req :: queue => if req.bad then (merged, queue, true) else merge (merged ++ [req]) queue

/-- The handler of `i_state`. -/
def handle (s : GtItem) (env : Env) : GtItem :=
  match s.i_state with
  | .INI_START => s.goto .INI_TINYSTATE_START
  | .INI_TINYSTATE_START => { s with i_writeResultQueue := [] }.goto .INI_gtItem_GET
  | .INI_gtItem_GET =>
    { s with i_pol := env.pol }.goto
      (if env.pol then .INI_gtItem_REQUEST else .INI_gtItem_INIT_POL_ACCESS_WAIT)
  | .INI_gtItem_INIT_POL_ACCESS_WAIT =>
    if env.free then s.goto .INI_gtItem_REQUEST else s.waits .INI_gtItem_INIT_POL_ACCESS_WAIT
  | .INI_gtItem_REQUEST => ({ s with i_pol := env.pol }.request .GET).waits .INI_gtItem_RET
  | .INI_gtItem_RET =>
    match s.ev with
    | .returned _ (.ERROR ss) =>
      s.goto (if clientError ss then .FIN_START else .INI_TINYSTATE_START)
    | .returned _ (.success _) => s.goto .ACT_gtItem_SETUP
    | _ => s.waits .INI_gtItem_RET
  | .ACT_START => s.goto .ACT_TINYSTATE_CHECK1
  | .ACT_TINYSTATE_CHECK1 =>
    s.goto (if s.i_destroyFlag then .FIN_START else .ACT_TINYSTATE_START)
  | .ACT_TINYSTATE_START =>
    if s.i_ref = 0 then s.goto .FIN_REFERENCE
    else if s.i_updated then s.goto .ACT_gtItem_UPDATED
    else if s.i_writeQueue ≠ [] then s.goto .ACT_gtItem_WRITE
    else s.waits .ACT_START
  | .ACT_gtItem_UPDATED =>
    ({ s with i_updated := false }.request .GET).waits .ACT_gtItem_UPDATED_RET
  | .ACT_gtItem_UPDATED_RET =>
    if s.i_destroyFlag then s.goto .FIN_START
    else
      match s.ev with
      | .returned _ (.ERROR ss) =>
        s.goto (if clientError ss then .FIN_START else .ACT_gtItem_UPDATED)
      | .returned _ (.success sameBorn) =>
        s.goto (if sameBorn then .ACT_gtItem_SETUP else .FIN_START)
      | _ => s.waits .ACT_gtItem_UPDATED_RET
  | .ACT_gtItem_SETUP =>
    if env.pol then
      if env.changed then ({ s with i_pol := true }.request .GET).waits .ACT_gtItem_UPDATED_RET
      else { s with i_pol := true }.goto .ACT_START
    else { s with i_pol := false }.goto .ERR_START
  | .ACT_gtItem_WRITE =>
    match merge s.i_writeResultQueue s.i_writeQueue with
    | (merged, queue, true) =>
      { s with i_writeResultQueue := merged, i_writeQueue := queue }.goto .ERR_START
    | (merged, queue, false) =>
      ({ s with i_writeResultQueue := merged, i_writeQueue := queue }.request
        (.POST s.i_writeQueue)).waits .ACT_gtItem_WRITE_RET
  | .ACT_gtItem_WRITE_RET =>
    if s.i_destroyFlag then s.i_sendWriteResult (.error 404) .FIN_START
    else
      match s.ev with
      | .returned _ (.ERROR ss) =>
        if clientError ss then s.i_sendWriteResult (.error ss) .FIN_START
        else s.goto .ACT_gtItem_UPDATED
      | .returned _ (.success _) => s.i_sendWriteResult .ok .ACT_START
      | _ => s.waits .ACT_gtItem_WRITE_RET
  | .FIN_REFERENCE =>
    if s.i_pol && env.pollingID then (s.request .GET).waits .FIN_REFERENCE_WAIT
    else s.goto .FIN_START
  | .FIN_REFERENCE_WAIT =>
    match s.ev with
    | .returned _ _ => s.goto (if s.i_ref ≠ 0 then .INI_gtItem_GET else .FIN_START)
    | _ => s.waits .FIN_REFERENCE_WAIT
  | .FIN_START =>
    { s with
      i_writeQueue := []
      i_writeResultQueue := s.i_writeResultQueue ++ s.i_writeQueue }.i_sendWriteResult
        (.error 404) .FIN_START_SENT
  | .FIN_START_SENT => { s with i_ref := 0 }.goto .FIN_TINYSTATE_START
  | .FIN_TINYSTATE_START => s.goto .ZOM_START
  | .ZOM_START => { s with i_eventQueue := [] }.waits .ZOM
  | .ZOM => s.waits .ZOM
  | .ERR_START => s.waits .ERR_START

/-- A round of the loop of `i_sendWriteResult`, or the handler. The callers may do something
between the rounds. -/
def go (s : GtItem) (env : Env) : Option (GtItem × List Obs) :=
  match s.sending with
  | some (status, state) =>
    match s.i_writeResultQueue with
    | req :: queue =>
      if req.source then some ({ s with i_writeResultQueue := queue }, [.answered req status])
      -- `req.source.eventHandler(ev)` throws
      else some ({ s with i_writeResultQueue := queue, sending := none }.goto .ERR_START, [])
    | [] => some ({ s with sending := none }.goto state, [])
  | none =>
    if s.doing then some (s.handle env, [])
    else
      match s.i_eventQueue with
      | ev :: queue => some ({ s with ev, i_eventQueue := queue }.handle env, [])
      | [] => none

/-- What an answer of the server says of the writes in it. -/
def acceptance : Method → Reply → List Obs
  | .POST reqs, .success _ => [.accepted reqs]
  | _, _ => []

def step (s : GtItem) : Act → Option (GtItem × List Obs)
  | .write bad source =>
    -- the queue of an item that has ended is gone
    if s.i_state = .ZOM then none
    else
      let req : Req := ⟨s.writes, bad, source⟩
      some ({ s with
        i_writeQueue := s.i_writeQueue ++ [req]
        writes := s.writes + 1 }.eventHandler .wakeup, [.written req])
  | .notice => some ({ s with i_updated := true }.eventHandler .wakeup, [])
  | .destroy => some ({ s with i_destroyFlag := true }.eventHandler .destroy, [])
  | .addRef => some ({ s with i_ref := s.i_ref + 1 }, [])
  | .releaseRef =>
    if s.i_ref = 0 then none
    else if s.i_ref = 1 then some ({ s with i_ref := 0 }.eventHandler .wakeup, [])
    else some ({ s with i_ref := s.i_ref - 1 }, [])
  | .reply i r =>
    match s.requests[i]? with
    | none => none
    | some m =>
      some ({ s with requests := s.requests.eraseIdx i }.eventHandler (.returned m r),
        acceptance m r)
  | .go env => s.go env

end GtItem

def machine : Machine GtItem Act Obs where
  init s := s = GtItem.new
  step := GtItem.step

-- ---------------------------------------------------------------------------
-- What is claimed
-- ---------------------------------------------------------------------------

def written (tr : List Obs) : List Req :=
  tr.filterMap fun | .written req => some req | _ => none

def answered (tr : List Obs) : List Req :=
  tr.filterMap fun | .answered req _ => some req | _ => none

/-- The data of the write was in a `POST` that the server has accepted. -/
def Accepted (tr : List Obs) (req : Req) : Prop := ∃ reqs, .accepted reqs ∈ tr ∧ req ∈ reqs

/-- The item is idle, or has ended, or failed. -/
def GtItem.AtRest (s : GtItem) : Prop :=
  (s.i_state = .ACT_START ∧ s.doing = false ∧ s.sending = none ∧ s.i_eventQueue = []) ∨
    s.i_state = .ZOM ∨ s.i_state = .ERR_START

/-- Each write is answered once at most, and once when the item is at rest; what is answered has
been written, and is answered with `ok` only if it was in a `POST` that the server accepted. -/
structure Results (tr : List Obs) (s : GtItem) : Prop where
  once : (answered tr).Nodup
  subset : answered tr ⊆ written tr
  all : s.AtRest → written tr ⊆ answered tr
  stored : Machine.Justified
    (fun before o => ∀ req, o = .answered req .ok → Accepted before req) tr

/-- `FIN_START` has taken what is in the queue. -/
def GtItem.Closing (s : GtItem) : Prop :=
  s.sending.any (·.2 = .FIN_START_SENT) ∨ s.i_state = .FIN_START_SENT ∨
    s.i_state = .FIN_TINYSTATE_START ∨ s.i_state = .ZOM_START

/-- The answer is an error that is not the client's. -/
def Event.serverError : Event → Bool
  | .returned _ (.ERROR ss) => !GtItem.clientError ss
  | _ => false

/-- A `POST` has come back with an error that is not the client's, and the item looks at it. -/
def GtItem.Failed (s : GtItem) : Prop :=
  s.i_state = .ACT_gtItem_WRITE_RET ∧ s.sending = none ∧ s.i_destroyFlag = false ∧
    s.i_eventQueue.head?.any Event.serverError

/-- The writes can be merged and have a caller, and none comes while the item ends; a polling is
found; and no `POST` comes back with an error that is not the client's. -/
def Regular (s : GtItem) : Act → Prop
  | .write bad source => bad = false ∧ source = true ∧ ¬ s.Closing
  | .go env => (s.i_state = .ACT_gtItem_SETUP → env.pol = true) ∧ ¬ s.Failed
  | _ => True

-- ---------------------------------------------------------------------------
-- Where the writes are
-- ---------------------------------------------------------------------------

def Event.method : Event → Option Method
  | .returned m _ => some m
  | _ => none

/-- What the server has been asked and the item has not seen the answer of. -/
def GtItem.pending (s : GtItem) : List Method := s.i_eventQueue.filterMap Event.method ++ s.requests

/-- The writes that are not answered are in the queues, in their order. -/
structure Balanced (tr : List Obs) (s : GtItem) : Prop where
  order : written tr = answered tr ++ s.i_writeResultQueue ++ s.i_writeQueue
  fresh : ∀ req ∈ written tr, req.seq < s.writes
  nodup : (written tr).Nodup
  good : ∀ req ∈ written tr, req.bad = false ∧ req.source = true

/-- What the queues and the server have, where the handler of `i_state` is run next or waits;
`asked` is what the item has not seen the answer of. -/
def Stage (s : GtItem) (asked : List Method) : Prop :=
  match s.i_state with
  | .ACT_gtItem_WRITE_RET => asked = [.POST s.i_writeResultQueue]
  | .INI_gtItem_RET => s.i_writeResultQueue = [] ∧ asked = [.GET]
  | .ACT_gtItem_UPDATED_RET => s.i_writeResultQueue = [] ∧ asked = [.GET]
  | .FIN_REFERENCE_WAIT => s.i_writeResultQueue = [] ∧ asked = [.GET]
  | .FIN_START => s.i_writeResultQueue = []
  | .FIN_START_SENT => s.i_writeResultQueue = [] ∧ s.i_writeQueue = []
  | .FIN_TINYSTATE_START => s.i_writeResultQueue = [] ∧ s.i_writeQueue = []
  | .ZOM_START => s.i_writeResultQueue = [] ∧ s.i_writeQueue = []
  | .ZOM => s.i_writeResultQueue = [] ∧ s.i_writeQueue = []
  | .ERR_START => False
  | _ => s.i_writeResultQueue = [] ∧ asked = []

/-- A state that waits for an answer. -/
def State.returns : State → Bool
  | .INI_gtItem_RET => true
  | .ACT_gtItem_UPDATED_RET => true
  | .ACT_gtItem_WRITE_RET => true
  | .FIN_REFERENCE_WAIT => true
  | _ => false

/-- `i_sendWriteResult` under way. -/
def Sending (tr : List Obs) (s : GtItem) : Status → State → Prop
  | .ok, state =>
    state = .ACT_START ∧ s.pending = [] ∧ ∀ req ∈ s.i_writeResultQueue, Accepted tr req
  | .error _, state => state = .FIN_START ∨ state = .FIN_START_SENT ∧ s.i_writeQueue = []

def Phase (tr : List Obs) (s : GtItem) : Prop :=
  match s.sending with
  | some (status, state) =>
    (s.i_state = .ACT_gtItem_WRITE_RET ∨ s.i_state = .FIN_START) ∧ Sending tr s status state
  | none => Stage s s.pending ∧ (s.doing = true → s.i_state.returns = false)

structure Inv (tr : List Obs) (s : GtItem) : Prop where
  balanced : Balanced tr s
  phase : Phase tr s
  /-- What the server has accepted has been seen to be. -/
  replied : ∀ reqs sameBorn,
    .returned (.POST reqs) (.success sameBorn) ∈ s.i_eventQueue → .accepted reqs ∈ tr
  rest : s.i_state = .ACT_START → s.doing = false → s.sending = none → s.i_eventQueue = [] →
    s.i_writeQueue = []
  stored : Machine.Justified (fun before o => ∀ req, o = .answered req .ok → Accepted before req) tr

variable {s t : GtItem} {env : Env} {tr os : List Obs} {asked : List Method}

theorem merge_good {merged queue : List Req} (h : ∀ req ∈ queue, req.bad = false) :
    GtItem.merge merged queue = (merged ++ queue, [], false) := by
  induction queue generalizing merged with
  | nil => simp [GtItem.merge]
  | cons req queue ih =>
    have hreq := h req List.mem_cons_self
    simp [GtItem.merge, hreq, ih fun r hr => h r (List.mem_cons_of_mem _ hr)]

-- ---------------------------------------------------------------------------
-- Handlers
-- ---------------------------------------------------------------------------

theorem pending_request (m : Method) : (s.request m).pending = s.pending ++ [m] := by
  simp [GtItem.pending, GtItem.request]

theorem phase_goto {state : State} (hsend : s.sending = none) (h : Stage (s.goto state) s.pending)
    (hr : state.returns = false) : Phase tr (s.goto state) := by
  have hsend' : (s.goto state).sending = none := hsend
  unfold Phase
  rw [hsend']
  exact ⟨h, fun _ => hr⟩

theorem phase_waits {state : State} (hsend : s.sending = none)
    (h : Stage (s.waits state) s.pending) : Phase tr (s.waits state) := by
  have hsend' : (s.waits state).sending = none := hsend
  unfold Phase
  rw [hsend']
  exact ⟨h, nofun⟩

/-- What a handler may rely on. `seen` is what the event is the answer of. -/
structure Ready (tr : List Obs) (s : GtItem) (env : Env) (seen : List Method) : Prop where
  sending : s.sending = none
  stage : Stage s (seen ++ s.pending)
  answer : s.i_state.returns = true → seen = s.ev.method.toList
  good : ∀ req ∈ s.i_writeQueue, req.bad = false
  replied : s.i_state.returns = true → ∀ reqs sameBorn,
    s.ev = .returned (.POST reqs) (.success sameBorn) → .accepted reqs ∈ tr
  found : s.i_state = .ACT_gtItem_SETUP → env.pol = true
  notFailed : s.i_state = .ACT_gtItem_WRITE_RET → s.i_destroyFlag = false →
    ∀ m ss, s.ev = .returned m (.ERROR ss) → GtItem.clientError ss = true

variable {seen : List Method}

/-- An answer has been seen: nothing is pending. -/
theorem seen_returned {m m' : Method} {r : Reply} (he : s.ev = .returned m r)
    (hseen : seen = s.ev.method.toList) (h : seen ++ s.pending = [m']) :
    m = m' ∧ s.pending = [] := by
  rw [hseen, he] at h
  simpa [Event.method] using h

/-- Something else: it is still to come. -/
theorem seen_other {m' : Method} (he : s.ev.method = none)
    (hseen : seen = s.ev.method.toList) (h : seen ++ s.pending = [m']) : s.pending = [m'] := by
  rw [hseen, he] at h
  simpa using h

theorem method_none (herr : ∀ m ss, s.ev = .returned m (.ERROR ss) → False)
    (hok : ∀ m sameBorn, s.ev = .returned m (.success sameBorn) → False) : s.ev.method = none := by
  cases he : s.ev with
  | returned m r =>
    cases r with
    | ERROR ss => exact (herr m ss he).elim
    | success sameBorn => exact (hok m sameBorn he).elim
  | initial => rfl
  | wakeup => rfl
  | destroy => rfl

/-- Where nothing is asked of the server, nothing is pending. -/
theorem plain {P : Prop} (h : P ∧ seen ++ s.pending = []) : P ∧ s.pending = [] :=
  h.imp_right fun h => (List.append_eq_nil_iff.mp h).2

theorem handle_phase (h : Ready tr s env seen) : Phase tr (s.handle env) := by
  obtain ⟨hsend, hstage, hanswer, hgood, hreplied, hfound, hfailed⟩ := h
  unfold GtItem.handle
  split
  -- INI_START
  · next hs =>
    simp only [Stage, hs] at hstage
    exact phase_goto hsend (plain hstage) rfl
  -- INI_TINYSTATE_START
  · next hs =>
    simp only [Stage, hs] at hstage
    exact phase_goto hsend ⟨rfl, (plain hstage).2⟩ rfl
  -- INI_gtItem_GET
  · next hs =>
    simp only [Stage, hs] at hstage
    split
    · exact phase_goto hsend (plain hstage) rfl
    · exact phase_goto hsend (plain hstage) rfl
  -- INI_gtItem_INIT_POL_ACCESS_WAIT
  · next hs =>
    simp only [Stage, hs] at hstage
    split
    · exact phase_goto hsend (plain hstage) rfl
    · exact phase_waits hsend (plain hstage)
  -- INI_gtItem_REQUEST
  · next hs =>
    simp only [Stage, hs] at hstage
    obtain ⟨hresult, hpend⟩ := plain hstage
    refine phase_waits hsend ⟨hresult, ?_⟩
    rw [pending_request]
    exact congrArg (· ++ [Method.GET]) hpend
  -- INI_gtItem_RET
  · next hs =>
    simp only [Stage, hs] at hstage
    obtain ⟨hresult, hstage⟩ := hstage
    have hseen := hanswer (by rw [hs]; rfl)
    split
    · next m ss he =>
      have hpend := (seen_returned he hseen hstage).2
      split
      · exact phase_goto hsend hresult rfl
      · exact phase_goto hsend ⟨hresult, hpend⟩ rfl
    · next m sameBorn he => exact phase_goto hsend ⟨hresult, (seen_returned he hseen hstage).2⟩ rfl
    · next herr hok =>
      exact phase_waits hsend ⟨hresult, seen_other (method_none herr hok) hseen hstage⟩
  -- ACT_START
  · next hs =>
    simp only [Stage, hs] at hstage
    exact phase_goto hsend (plain hstage) rfl
  -- ACT_TINYSTATE_CHECK1
  · next hs =>
    simp only [Stage, hs] at hstage
    split
    · exact phase_goto hsend hstage.1 rfl
    · exact phase_goto hsend (plain hstage) rfl
  -- ACT_TINYSTATE_START
  · next hs =>
    simp only [Stage, hs] at hstage
    split_ifs
    · exact phase_goto hsend (plain hstage) rfl
    · exact phase_goto hsend (plain hstage) rfl
    · exact phase_goto hsend (plain hstage) rfl
    · exact phase_waits hsend (plain hstage)
  -- ACT_gtItem_UPDATED
  · next hs =>
    simp only [Stage, hs] at hstage
    obtain ⟨hresult, hpend⟩ := plain hstage
    refine phase_waits hsend ⟨hresult, ?_⟩
    rw [pending_request]
    exact congrArg (· ++ [Method.GET]) hpend
  -- ACT_gtItem_UPDATED_RET
  · next hs =>
    simp only [Stage, hs] at hstage
    obtain ⟨hresult, hstage⟩ := hstage
    have hseen := hanswer (by rw [hs]; rfl)
    split
    · exact phase_goto hsend hresult rfl
    · split
      · next m ss he =>
        split
        · exact phase_goto hsend hresult rfl
        · exact phase_goto hsend ⟨hresult, (seen_returned he hseen hstage).2⟩ rfl
      · next m sameBorn he =>
        split
        · exact phase_goto hsend ⟨hresult, (seen_returned he hseen hstage).2⟩ rfl
        · exact phase_goto hsend hresult rfl
      · next herr hok =>
        exact phase_waits hsend ⟨hresult, seen_other (method_none herr hok) hseen hstage⟩
  -- ACT_gtItem_SETUP
  · next hs =>
    simp only [Stage, hs] at hstage
    obtain ⟨hresult, hpend⟩ := plain hstage
    rw [if_pos (hfound hs)]
    split
    · refine phase_waits hsend ⟨hresult, ?_⟩
      rw [pending_request]
      exact congrArg (· ++ [Method.GET]) hpend
    · exact phase_goto hsend ⟨hresult, hpend⟩ rfl
  -- ACT_gtItem_WRITE
  · next hs =>
    simp only [Stage, hs] at hstage
    obtain ⟨hresult, hpend⟩ := plain hstage
    rw [merge_good hgood, hresult]
    refine phase_waits hsend ?_
    rw [pending_request]
    exact congrArg (· ++ [Method.POST s.i_writeQueue]) hpend
  -- ACT_gtItem_WRITE_RET
  · next hs =>
    simp only [Stage, hs] at hstage
    have hseen := hanswer (by rw [hs]; rfl)
    split
    · exact ⟨.inl hs, .inl rfl⟩
    · next hdestroy =>
      split
      · next m ss he =>
        rw [if_pos (hfailed hs (by simpa using hdestroy) m ss he)]
        exact ⟨.inl hs, .inl rfl⟩
      · next m sameBorn he =>
        obtain ⟨rfl, hpend⟩ := seen_returned he hseen hstage
        have hacc := hreplied (by rw [hs]; rfl) _ _ he
        exact ⟨.inl hs, rfl, hpend, fun req hreq => ⟨_, hacc, hreq⟩⟩
      · next herr hok =>
        exact phase_waits hsend (seen_other (method_none herr hok) hseen hstage)
  -- FIN_REFERENCE
  · next hs =>
    simp only [Stage, hs] at hstage
    obtain ⟨hresult, hpend⟩ := plain hstage
    split
    · refine phase_waits hsend ⟨hresult, ?_⟩
      rw [pending_request]
      exact congrArg (· ++ [Method.GET]) hpend
    · exact phase_goto hsend hresult rfl
  -- FIN_REFERENCE_WAIT
  · next hs =>
    simp only [Stage, hs] at hstage
    obtain ⟨hresult, hstage⟩ := hstage
    have hseen := hanswer (by rw [hs]; rfl)
    split
    · next m r he =>
      split
      · exact phase_goto hsend ⟨hresult, (seen_returned he hseen hstage).2⟩ rfl
      · exact phase_goto hsend hresult rfl
    · next hno =>
      have hother := method_none (fun m ss => hno m _) fun m sameBorn => hno m _
      exact phase_waits hsend ⟨hresult, seen_other hother hseen hstage⟩
  -- FIN_START
  · next hs => exact ⟨.inr hs, .inr ⟨rfl, rfl⟩⟩
  -- FIN_START_SENT
  · next hs =>
    simp only [Stage, hs] at hstage
    exact phase_goto hsend hstage rfl
  -- FIN_TINYSTATE_START
  · next hs =>
    simp only [Stage, hs] at hstage
    exact phase_goto hsend hstage rfl
  -- ZOM_START
  · next hs =>
    simp only [Stage, hs] at hstage
    exact phase_waits hsend hstage
  -- ZOM
  · next hs =>
    simp only [Stage, hs] at hstage
    exact phase_waits hsend hstage
  -- ERR_START
  · next hs => simp only [Stage, hs] at hstage

/-- Writes are moved from the one queue to the other at most. -/
structure Moved (s t : GtItem) : Prop where
  order : t.i_writeResultQueue ++ t.i_writeQueue = s.i_writeResultQueue ++ s.i_writeQueue
  writes : t.writes = s.writes
  events : t.i_eventQueue ⊆ s.i_eventQueue

theorem Moved.refl (s : GtItem) : Moved s s := ⟨rfl, rfl, fun _ h => h⟩

theorem handle_moved (h : Ready tr s env seen) : Moved s (s.handle env) := by
  have hsame := Moved.refl s
  cases hs : s.i_state with
  | INI_TINYSTATE_START =>
    have hstage := h.stage
    simp only [Stage, hs] at hstage
    simp only [GtItem.handle, hs]
    exact ⟨by rw [hstage.1]; rfl, rfl, hsame.events⟩
  | ACT_gtItem_WRITE =>
    simp only [GtItem.handle, hs, merge_good h.good]
    exact ⟨List.append_nil _, rfl, hsame.events⟩
  | FIN_START =>
    simp only [GtItem.handle, hs]
    exact ⟨List.append_nil _, rfl, hsame.events⟩
  | ZOM_START =>
    simp only [GtItem.handle, hs]
    exact ⟨rfl, rfl, List.nil_subset _⟩
  | _ =>
    simp only [GtItem.handle, hs]
    repeat' split
    all_goals exact ⟨rfl, rfl, hsame.events⟩

/-- An item that comes to be idle has no writes left. -/
theorem handle_rest : (s.handle env).i_state = .ACT_START → (s.handle env).doing = false →
    (s.handle env).i_writeQueue = [] := by
  cases hs : s.i_state with
  | ACT_TINYSTATE_START =>
    simp only [GtItem.handle, hs]
    split_ifs with href hupdated hqueue
    · exact fun _ => nofun
    · exact fun _ => nofun
    · exact fun _ => nofun
    · exact fun _ _ => not_not.mp hqueue
  | _ =>
    simp only [GtItem.handle, hs]
    repeat' split
    all_goals
      intro hstate hdoing
      first
      | cases hdoing; done
      | cases hstate

-- ---------------------------------------------------------------------------
-- Steps
-- ---------------------------------------------------------------------------

theorem written_append (tr os : List Obs) : written (tr ++ os) = written tr ++ written os :=
  List.filterMap_append

theorem answered_append (tr os : List Obs) : answered (tr ++ os) = answered tr ++ answered os :=
  List.filterMap_append

theorem Accepted.mono {req : Req} (h : Accepted tr req) (os : List Obs) :
    Accepted (tr ++ os) req := by
  obtain ⟨reqs, hmem, hreq⟩ := h
  exact ⟨reqs, List.mem_append_left _ hmem, hreq⟩

/-- Without observations the balance only looks at the queues. -/
theorem Balanced.moved (hb : Balanced tr s) (hm : Moved s t) : Balanced tr t where
  order := by
    rw [List.append_assoc, hm.order, ← List.append_assoc]
    exact hb.order
  fresh req hreq := hm.writes ▸ hb.fresh req hreq
  nodup := hb.nodup
  good := hb.good

theorem Balanced.mem_written {req : Req} (hb : Balanced tr s)
    (h : req ∈ s.i_writeResultQueue ++ s.i_writeQueue) : req ∈ written tr := by
  rw [hb.order, List.append_assoc]
  exact List.mem_append_right _ h

theorem Balanced.mergeable (hb : Balanced tr s) : ∀ req ∈ s.i_writeQueue, req.bad = false :=
  fun req h => (hb.good req (hb.mem_written (List.mem_append_right _ h))).1

/-- A handler, after its event has been taken. -/
theorem Inv.handled (hb : Balanced tr s) (h : Ready tr s env seen)
    (hreplied : ∀ reqs sameBorn,
      .returned (.POST reqs) (.success sameBorn) ∈ s.i_eventQueue → .accepted reqs ∈ tr)
    (hstored : Machine.Justified
      (fun before o => ∀ req, o = .answered req .ok → Accepted before req) tr) :
    Inv tr (s.handle env) := by
  have hm := handle_moved h
  exact ⟨hb.moved hm, handle_phase h, fun reqs b hmem => hreplied reqs b (hm.events hmem),
    fun hstate hdoing _ _ => handle_rest hstate hdoing, hstored⟩

/-- A round of `i_sendWriteResult`. -/
theorem Inv.round {status : Status} {state : State} {req : Req} {queue : List Req}
    (hi : Inv tr s) (hsend : s.sending = some (status, state))
    (hq : s.i_writeResultQueue = req :: queue) :
    Inv (tr ++ [Obs.answered req status]) { s with i_writeResultQueue := queue } := by
  obtain ⟨hb, hphase, hreplied, hrest, hstored⟩ := hi
  simp only [Phase, hsend] at hphase
  obtain ⟨hstate, hphase⟩ := hphase
  refine ⟨⟨?_, ?_, ?_, ?_⟩, ?_, ?_, ?_, hstored.snoc ?_⟩
  · have horder := hb.order
    rw [hq] at horder
    simpa [written_append, answered_append, written, answered] using horder
  · simpa [written_append, written] using hb.fresh
  · simpa [written_append, written] using hb.nodup
  · simpa [written_append, written] using hb.good
  · simp only [Phase, hsend]
    refine ⟨hstate, ?_⟩
    cases status with
    | ok =>
      obtain ⟨hto, hpend, hacc⟩ := hphase
      rw [hq] at hacc
      exact ⟨hto, hpend, fun r hr => (hacc r (List.mem_cons_of_mem _ hr)).mono _⟩
    | error ss => exact hphase
  · exact fun reqs b hmem => List.mem_append_left _ (hreplied reqs b hmem)
  · intro _ _ hnone
    exact absurd (hsend.symm.trans hnone) nofun
  · rintro r ho
    cases ho
    exact hphase.2.2 req (by rw [hq]; exact List.mem_cons_self)

/-- The end of `i_sendWriteResult`. -/
theorem Inv.sent {status : Status} {state : State} (hi : Inv tr s)
    (hsend : s.sending = some (status, state)) (hq : s.i_writeResultQueue = []) :
    Inv tr ({ s with sending := none }.goto state) := by
  obtain ⟨hb, hphase, hreplied, hrest, hstored⟩ := hi
  simp only [Phase, hsend] at hphase
  refine ⟨⟨hb.order, hb.fresh, hb.nodup, hb.good⟩, ?_, hreplied, fun _ => nofun, hstored⟩
  cases status with
  | ok =>
    obtain ⟨-, rfl, hpend, -⟩ := hphase
    exact phase_goto rfl ⟨hq, hpend⟩ rfl
  | error ss =>
    obtain ⟨-, rfl | ⟨rfl, hwrite⟩⟩ := hphase
    · exact phase_goto rfl hq rfl
    · exact phase_goto rfl ⟨hq, hwrite⟩ rfl

theorem Inv.go (hi : Inv tr s) (hc : Regular s (.go env)) (hs : s.go env = some (t, os)) :
    Inv (tr ++ os) t := by
  obtain ⟨hfound, hfailed⟩ := hc
  unfold GtItem.go at hs
  split at hs
  · next status state hsend =>
    split at hs
    · next req queue hq =>
      have hmem : req ∈ written tr :=
        hi.balanced.mem_written (List.mem_append_left _ (hq ▸ List.mem_cons_self))
      rw [if_pos (hi.balanced.good req hmem).2] at hs
      cases hs
      exact hi.round hsend hq
    · next hq =>
      cases hs
      rw [List.append_nil]
      exact hi.sent hsend hq
  · next hsend =>
    have hphase := hi.phase
    simp only [Phase, hsend] at hphase
    obtain ⟨hstage, hdo⟩ := hphase
    split at hs
    · next hdoing =>
      cases hs
      rw [List.append_nil]
      have hno : s.i_state.returns = true → False := fun h => by
        rw [hdo hdoing] at h
        exact absurd h nofun
      have hready : Ready tr s env [] := {
        sending := hsend
        stage := hstage
        answer := fun h => (hno h).elim
        good := hi.balanced.mergeable
        replied := fun h => (hno h).elim
        found := hfound
        notFailed := fun h => (hno (by rw [h]; rfl)).elim }
      exact Inv.handled hi.balanced hready hi.replied hi.stored
    · split at hs
      · next ev queue hq =>
        cases hs
        rw [List.append_nil]
        have hpend : s.pending =
            ev.method.toList ++ { s with ev, i_eventQueue := queue }.pending := by
          unfold GtItem.pending
          rw [hq, List.filterMap_cons]
          cases ev.method <;> rfl
        have hready : Ready tr { s with ev, i_eventQueue := queue } env ev.method.toList := {
          sending := hsend
          stage := hpend ▸ hstage
          answer := fun _ => rfl
          good := hi.balanced.mergeable
          replied := fun _ reqs b he =>
            hi.replied reqs b (by rw [hq]; exact he ▸ List.mem_cons_self)
          found := hfound
          notFailed := fun hstate hdestroy m ss he => by
            by_contra hclient
            have hev : ev = .returned m (.ERROR ss) := he
            exact hfailed ⟨hstate, hsend, hdestroy,
              by simp [hq, hev, Event.serverError, hclient]⟩ }
        refine Inv.handled ?_ hready (fun reqs b hmem => hi.replied reqs b ?_) hi.stored
        · exact ⟨hi.balanced.order, hi.balanced.fresh, hi.balanced.nodup, hi.balanced.good⟩
        · rw [hq]
          exact List.mem_cons_of_mem _ hmem
      · cases hs

/-- An item that has ended. -/
def GtItem.Ended (s : GtItem) : Prop := s.i_state = .ZOM_START ∨ s.i_state = .ZOM

theorem eventHandler_ended {ev : Event} (h : s.Ended) : s.eventHandler ev = s := if_pos h

theorem eventHandler_taken {ev : Event} (h : ¬ s.Ended) :
    s.eventHandler ev = { s with i_eventQueue := s.i_eventQueue ++ [ev] } := if_neg h

theorem Stage.perm {asked asked' : List Method} (h : Stage s asked) (hp : asked'.Perm asked) :
    Stage s asked' := by
  have hone : ∀ m, asked = [m] → asked' = [m] := fun m he => List.perm_singleton.mp (he ▸ hp)
  have hnone : asked = [] → asked' = [] := fun he => List.perm_nil.mp (he ▸ hp)
  unfold Stage at h ⊢
  split at h
  -- ACT_gtItem_WRITE_RET
  · exact hone _ h
  -- INI_gtItem_RET, ACT_gtItem_UPDATED_RET, FIN_REFERENCE_WAIT
  · exact h.imp_right (hone _)
  · exact h.imp_right (hone _)
  · exact h.imp_right (hone _)
  -- FIN_START, FIN_START_SENT, FIN_TINYSTATE_START, ZOM_START, ZOM, ERR_START
  · exact h
  · exact h
  · exact h
  · exact h
  · exact h
  · exact h
  -- the others
  · exact h.imp_right hnone

/-- What the callers and the server do to an item keeps its place and its writes. -/
structure Same (s t : GtItem) : Prop where
  i_state : t.i_state = s.i_state
  doing : t.doing = s.doing
  sending : t.sending = s.sending
  i_writeResultQueue : t.i_writeResultQueue = s.i_writeResultQueue
  i_writeQueue : t.i_writeQueue = s.i_writeQueue
  writes : t.writes = s.writes

theorem Same.eventHandler (h : Same s t) (ev : Event) : Same s (t.eventHandler ev) := by
  unfold GtItem.eventHandler
  split
  · exact h
  · exact ⟨h.i_state, h.doing, h.sending, h.i_writeResultQueue, h.i_writeQueue, h.writes⟩

theorem Stage.same (h : Stage s asked) (hsame : Same s t) : Stage t asked := by
  unfold Stage at h ⊢
  rw [hsame.i_state, hsame.i_writeResultQueue, hsame.i_writeQueue]
  exact h

theorem Balanced.same (hb : Balanced tr s) (hsame : Same s t) (hw : written os = [])
    (ha : answered os = []) : Balanced (tr ++ os) t := by
  have hwritten : written (tr ++ os) = written tr := by rw [written_append, hw, List.append_nil]
  have hanswered : answered (tr ++ os) = answered tr := by
    rw [answered_append, ha, List.append_nil]
  constructor
  · rw [hwritten, hanswered, hsame.i_writeResultQueue, hsame.i_writeQueue]
    exact hb.order
  · rw [hwritten, hsame.writes]
    exact hb.fresh
  · rw [hwritten]
    exact hb.nodup
  · rw [hwritten]
    exact hb.good

/-- What is pending does not count for an item that has ended. -/
theorem Stage.ended {asked' : List Method} (h : Stage s asked) (he : s.Ended) :
    Stage s asked' := by
  rcases he with he | he
  · simp only [Stage, he] at h ⊢
    exact h
  · simp only [Stage, he] at h ⊢
    exact h

theorem Phase.same (h : Phase tr s) (hsame : Same s t) (hp : t.pending.Perm s.pending ∨ s.Ended) :
    Phase (tr ++ os) t := by
  unfold Phase at h ⊢
  rw [hsame.sending]
  split at h
  · next status state hsend =>
    obtain ⟨hstate, h⟩ := h
    refine ⟨hsame.i_state ▸ hstate, ?_⟩
    cases status with
    | ok =>
      obtain ⟨hto, hpend, hacc⟩ := h
      refine ⟨hto, ?_, ?_⟩
      · rcases hp with hp | he
        · exact List.perm_nil.mp (hpend ▸ hp)
        · unfold GtItem.Ended at he
          rcases hstate with hstate | hstate
          · simp [hstate] at he
          · simp [hstate] at he
      · rw [hsame.i_writeResultQueue]
        exact fun req hreq => (hacc req hreq).mono os
    | error ss =>
      unfold Sending at h ⊢
      rw [hsame.i_writeQueue]
      exact h
  · obtain ⟨hstage, hdo⟩ := h
    refine ⟨?_, by rwa [hsame.doing, hsame.i_state]⟩
    rcases hp with hp | he
    · exact (hstage.perm hp).same hsame
    · exact (hstage.ended he).same hsame

theorem Inv.same (hi : Inv tr s) (hsame : Same s t) (hw : written os = []) (ha : answered os = [])
    (hp : t.pending.Perm s.pending ∨ s.Ended)
    (hreplied : ∀ reqs sameBorn, .returned (.POST reqs) (.success sameBorn) ∈ t.i_eventQueue →
      .returned (.POST reqs) (.success sameBorn) ∈ s.i_eventQueue ∨ .accepted reqs ∈ os)
    (hempty : t.i_eventQueue = [] → s.i_eventQueue = [])
    (hos : ∀ o ∈ os, ∀ req, o ≠ .answered req .ok) : Inv (tr ++ os) t where
  balanced := hi.balanced.same hsame hw ha
  phase := hi.phase.same hsame hp
  replied reqs b hmem := (hreplied reqs b hmem).elim
    (fun h => List.mem_append_left _ (hi.replied reqs b h)) fun h => List.mem_append_right _ h
  rest := by
    rw [hsame.i_state, hsame.doing, hsame.sending, hsame.i_writeQueue]
    exact fun hstate hdoing hsend hq => hi.rest hstate hdoing hsend (hempty hq)
  stored := by
    intro before o after htr req ho
    rcases Machine.append_eq_cons htr with ⟨mid, htr, -⟩ | ⟨mid, hmid, -⟩
    · exact hi.stored before o mid htr req ho
    · exact absurd ho (hos o (hmid ▸ by simp) req)

theorem pending_event {ev : Event} (hev : ev.method = none) :
    (s.eventHandler ev).pending = s.pending := by
  unfold GtItem.eventHandler
  split
  · rfl
  · simp [GtItem.pending, hev]

theorem mem_event {ev e : Event} (h : e ∈ (s.eventHandler ev).i_eventQueue) :
    e ∈ s.i_eventQueue ∨ e = ev := by
  unfold GtItem.eventHandler at h
  split at h
  · exact .inl h
  · simpa using h

theorem event_empty {ev : Event} (h : (s.eventHandler ev).i_eventQueue = []) :
    s.i_eventQueue = [] := by
  unfold GtItem.eventHandler at h
  split at h
  · exact h
  · exact (List.append_eq_nil_iff.mp h).1

/-- A change of the flags and the references. -/
theorem Inv.quiet (hi : Inv tr s) (hsame : Same s t) (hq : t.i_eventQueue = s.i_eventQueue)
    (hr : t.requests = s.requests) : Inv (tr ++ []) t :=
  hi.same hsame rfl rfl (.inl (by simp [GtItem.pending, hq, hr])) (fun _ _ h => .inl (hq ▸ h))
    (fun h => hq ▸ h) nofun

/-- A change of these with an event. -/
theorem Inv.told {ev : Event} (hi : Inv tr s) (hsame : Same s t)
    (hq : t.i_eventQueue = s.i_eventQueue) (hr : t.requests = s.requests)
    (hev : ev.method = none) : Inv (tr ++ []) (t.eventHandler ev) := by
  refine hi.same (hsame.eventHandler ev) rfl rfl (.inl ?_) (fun reqs b h => .inl ?_)
    (fun h => hq ▸ event_empty h) nofun
  · rw [pending_event hev]
    simp [GtItem.pending, hq, hr]
  · rcases mem_event h with h | h
    · exact hq ▸ h
    · rw [← h] at hev
      exact absurd hev nofun

/-- An answer of the server. -/
theorem Inv.reply {i : Nat} {m : Method} {r : Reply} (hi : Inv tr s)
    (hm : s.requests[i]? = some m) :
    Inv (tr ++ GtItem.acceptance m r)
      ({ s with requests := s.requests.eraseIdx i }.eventHandler (.returned m r)) := by
  have hsame : Same s { s with requests := s.requests.eraseIdx i } := ⟨rfl, rfl, rfl, rfl, rfl, rfl⟩
  have hquiet : written (GtItem.acceptance m r) = [] ∧ answered (GtItem.acceptance m r) = [] ∧
      ∀ o ∈ GtItem.acceptance m r, ∀ req, o ≠ .answered req .ok := by
    unfold GtItem.acceptance
    split
    · exact ⟨rfl, rfl, by simp⟩
    · exact ⟨rfl, rfl, nofun⟩
  refine hi.same (hsame.eventHandler _) hquiet.1 hquiet.2.1 ?_ (fun reqs b h => ?_)
    (fun h => ?_) hquiet.2.2
  · by_cases he : s.Ended
    · exact .inr he
    · left
      have hlt := (List.getElem?_eq_some_iff.mp hm).1
      have hget := (List.getElem?_eq_some_iff.mp hm).2
      rw [eventHandler_taken (s := { s with requests := s.requests.eraseIdx i }) he]
      have herase := List.getElem_cons_eraseIdx_perm hlt
      rw [hget] at herase
      simpa [GtItem.pending, Event.method] using herase.append_left _
  · rcases mem_event h with h | h
    · exact .inl h
    · cases h
      exact .inr List.mem_cons_self
  · have hempty := event_empty h
    exact hempty

theorem Stage.write (h : Stage s asked) (queue : List Req) (he : ¬ s.Ended)
    (hclosing : ¬ s.Closing) : Stage { s with i_writeQueue := queue } asked := by
  unfold Stage at h ⊢
  dsimp only
  unfold GtItem.Closing at hclosing
  unfold GtItem.Ended at he
  split at h
  case h_6 hs => exact absurd (.inr (.inl hs)) hclosing
  case h_7 hs => exact absurd (.inr (.inr (.inl hs))) hclosing
  case h_8 hs => exact absurd (.inl hs) he
  case h_9 hs => exact absurd (.inr hs) he
  all_goals exact h

/-- A write. -/
theorem Inv.write (hi : Inv tr s) (hs : s.i_state ≠ .ZOM) (hclosing : ¬ s.Closing) :
    Inv (tr ++ [Obs.written (.mk s.writes false true)])
      ({ s with
        i_writeQueue := s.i_writeQueue ++ [Req.mk s.writes false true]
        writes := s.writes + 1 }.eventHandler .wakeup) := by
  have he : ¬ s.Ended := by
    rintro (he | he)
    · exact hclosing (.inr (.inr (.inr he)))
    · exact hs he
  obtain ⟨hb, hphase, hreplied, -, hstored⟩ := hi
  rw [eventHandler_taken (by exact he)]
  have hwritten : written (tr ++ [Obs.written (.mk s.writes false true)]) =
      written tr ++ [Req.mk s.writes false true] := written_append ..
  have hanswered : answered (tr ++ [Obs.written (.mk s.writes false true)]) = answered tr := by
    simp [answered]
  refine ⟨⟨?_, ?_, ?_, ?_⟩, ?_, ?_, ?_, hstored.snoc nofun⟩
  · rw [hwritten, hanswered, hb.order]
    simp
  · rw [hwritten]
    intro req hreq
    rcases List.mem_append.mp hreq with hreq | hreq
    · exact Nat.lt_succ_of_lt (hb.fresh req hreq)
    · rw [List.mem_singleton.mp hreq]
      exact Nat.lt_succ_self _
  · rw [hwritten]
    refine List.nodup_append'.mpr ⟨hb.nodup, List.nodup_singleton _, ?_⟩
    simp only [List.disjoint_singleton]
    intro hmem
    exact absurd (hb.fresh _ hmem) (Nat.lt_irrefl _)
  · rw [hwritten]
    intro req hreq
    rcases List.mem_append.mp hreq with hreq | hreq
    · exact hb.good req hreq
    · rw [List.mem_singleton.mp hreq]
      exact ⟨rfl, rfl⟩
  · unfold Phase at hphase ⊢
    dsimp only
    split at hphase
    · next status state hsend =>
      refine ⟨hphase.1, ?_⟩
      cases status with
      | ok =>
        obtain ⟨-, hto, hpend, hacc⟩ := hphase
        refine ⟨hto, ?_, fun req hreq => (hacc req hreq).mono _⟩
        simpa [GtItem.pending, Event.method] using hpend
      | error ss =>
        obtain ⟨-, hto | ⟨hto, -⟩⟩ := hphase
        · exact .inl hto
        · exact absurd (.inl (by simp [hsend, hto])) hclosing
    · have hstage := hphase.1.write (s.i_writeQueue ++ [Req.mk s.writes false true]) he hclosing
      refine ⟨?_, hphase.2⟩
      have hpend : { s with
          i_writeQueue := s.i_writeQueue ++ [Req.mk s.writes false true]
          writes := s.writes + 1
          i_eventQueue := s.i_eventQueue ++ [Event.wakeup] }.pending = s.pending := by
        simp [GtItem.pending, Event.method]
      rw [hpend]
      exact hstage
  · exact fun reqs b hmem => List.mem_append_left _ (hreplied reqs b (by simpa using hmem))
  · intro _ _ _ hnone
    exact absurd hnone (by simp)

theorem Inv.step {a : Act} (hi : Inv tr s) (hc : Regular s a)
    (hs : machine.step s a = some (t, os)) : Inv (tr ++ os) t := by
  change s.step a = some (t, os) at hs
  cases a with
  | write bad source =>
    obtain ⟨rfl, rfl, hclosing⟩ := hc
    simp only [GtItem.step] at hs
    split at hs
    · cases hs
    · next hzom =>
      cases hs
      exact hi.write hzom hclosing
  | notice =>
    cases hs
    exact hi.told ⟨rfl, rfl, rfl, rfl, rfl, rfl⟩ rfl rfl rfl
  | destroy =>
    cases hs
    exact hi.told ⟨rfl, rfl, rfl, rfl, rfl, rfl⟩ rfl rfl rfl
  | addRef =>
    cases hs
    exact hi.quiet ⟨rfl, rfl, rfl, rfl, rfl, rfl⟩ rfl rfl
  | releaseRef =>
    simp only [GtItem.step] at hs
    split_ifs at hs
    · cases hs
      exact hi.told ⟨rfl, rfl, rfl, rfl, rfl, rfl⟩ rfl rfl rfl
    · cases hs
      exact hi.quiet ⟨rfl, rfl, rfl, rfl, rfl, rfl⟩ rfl rfl
  | reply i r =>
    simp only [GtItem.step] at hs
    split at hs
    · cases hs
    · next m hm =>
      cases hs
      exact hi.reply hm
  | go env => exact hi.go hc hs

theorem inv_init : Inv [] GtItem.new where
  balanced := ⟨rfl, nofun, List.nodup_nil, nofun⟩
  phase := ⟨⟨rfl, rfl⟩, nofun⟩
  replied _ _ h := by simp [GtItem.new] at h
  rest := nofun
  stored := .nil

theorem Inv.run (h : machine.RunIf Regular tr s) : Inv tr s := by
  refine h.invariant (I := Inv) ?_ fun tr s a t os _ hi hc hs => hi.step hc hs
  rintro _ rfl
  exact inv_init

-- ---------------------------------------------------------------------------
-- Results
-- ---------------------------------------------------------------------------

/-- An item at rest has no writes. -/
theorem Inv.at_rest (hi : Inv tr s) (h : s.AtRest) :
    s.i_writeResultQueue = [] ∧ s.i_writeQueue = [] := by
  have hphase := hi.phase
  unfold Phase at hphase
  rcases h with ⟨hstate, hdoing, hsend, hq⟩ | hstate | hstate
  · simp only [hsend, Stage, hstate] at hphase
    exact ⟨hphase.1.1, hi.rest hstate hdoing hsend hq⟩
  · split at hphase
    · rcases hphase.1 with h | h
      · exact absurd (hstate.symm.trans h) nofun
      · exact absurd (hstate.symm.trans h) nofun
    · simp only [Stage, hstate] at hphase
      exact hphase.1
  · split at hphase
    · rcases hphase.1 with h | h
      · exact absurd (hstate.symm.trans h) nofun
      · exact absurd (hstate.symm.trans h) nofun
    · simp only [Stage, hstate] at hphase
      exact hphase.1.elim

instance : Decidable s.Closing := inferInstanceAs (Decidable (_ ∨ _ ∨ _ ∨ _))

instance : Decidable s.Failed := inferInstanceAs (Decidable (_ ∧ _ ∧ _ ∧ _))

instance : Decidable s.AtRest := inferInstanceAs (Decidable ((_ ∧ _ ∧ _ ∧ _) ∨ _ ∨ _))

instance : ∀ s a, Decidable (Regular s a)
  | s, .write bad source =>
    inferInstanceAs (Decidable (bad = false ∧ source = true ∧ ¬ s.Closing))
  | s, .go env =>
    inferInstanceAs (Decidable ((s.i_state = .ACT_gtItem_SETUP → env.pol = true) ∧ ¬ s.Failed))
  | _, .notice => inferInstanceAs (Decidable True)
  | _, .destroy => inferInstanceAs (Decidable True)
  | _, .addRef => inferInstanceAs (Decidable True)
  | _, .releaseRef => inferInstanceAs (Decidable True)
  | _, .reply .. => inferInstanceAs (Decidable True)

/-- What an observation says to be accepted. -/
def Obs.accepts : Obs → List Req
  | .accepted reqs => reqs
  | _ => []

theorem exists_accepts {req : Req} : (∃ o ∈ tr, req ∈ o.accepts) ↔ Accepted tr req := by
  constructor
  · rintro ⟨o, ho, hmem⟩
    cases o with
    | accepted reqs => exact ⟨reqs, ho, hmem⟩
    | written req => cases hmem
    | answered req status => cases hmem
  · rintro ⟨reqs, ho, hmem⟩
    exact ⟨_, ho, hmem⟩

instance {req : Req} : Decidable (Accepted tr req) := decidable_of_iff _ exists_accepts

theorem unanswered_not (hrest : s.AtRest) (h : ¬ written tr ⊆ answered tr) : ¬ Results tr s :=
  fun hr => h (hr.all hrest)

theorem unstored_not {req : Req} (hmem : .answered req .ok ∈ tr) (h : ¬ Accepted tr req) :
    ¬ Results tr s := by
  intro hr
  obtain ⟨before, after, rfl⟩ := List.append_of_mem hmem
  exact h ((hr.stored before _ after rfl req rfl).mono _)

/-- A polling that has an ID, and a permit. -/
def found : Env := ⟨true, true, false, true⟩

/-- An item with a reference reads its document, and is idle. -/
def started : List Act :=
  .addRef :: List.replicate 4 (.go found) ++ .reply 0 (.success true) ::
    List.replicate 5 (.go found)

/-- A write is merged and posted. -/
def posted : List Act := .write false true :: List.replicate 4 (.go found)

end TinyState.Js.GtItemWrite
