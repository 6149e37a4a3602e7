import TinyState.Lib.Machine
import Mathlib.Algebra.Order.Round
import Mathlib.Data.Rat.Floor
import Mathlib.Tactic.Linarith

/-!
# gtPolling

The interval grows while nothing is asked for, and while the server fails, up to a cap. The
error loop reads the cap under a name that does not exist, so that it ends up with no interval
at all. The rounding of numbers is left out.
-/

namespace TinyState.Js

open Transition

-- ---------------------------------------------------------------------------
-- Model
-- ---------------------------------------------------------------------------

/-- `born[0]`, `born[1]` and `objId`. -/
abbrev PollingBorn := Int × Int × Int

/-- What a reply has in `message.polling`; `interval` is `none` if it is missing. -/
structure PollingInfo where
  id : Int
  interval : Option ℚ
  born : PollingBorn
  deriving DecidableEq, Repr

inductive PollingMessage
  | polling (info : PollingInfo)
  | text (d : String)
  deriving DecidableEq, Repr

def PollingMessage.info? : PollingMessage → Option PollingInfo
  | polling info => some info
  | text _ => none

/-- `ev.msg`; a latency of 0 stands for none, too. -/
structure PollingReply where
  status : String
  status2 : Int
  latency : ℚ
  message : PollingMessage
  deriving DecidableEq, Repr

inductive PollingState
  | ACT_START
  | ACT_POLLING_START
  | ACT_POLLING_WAIT
  | ACT_POLLING_MORE_WAIT
  | ACT_ERROR_HANDLE
  | ACT_ERROR_HANDLE_RET
  | ACT_ERROR_HANDLE_RET2
  | FIN_START
  | FIN_START_WAIT
  | FIN_START_WAIT2
  | ZOM
  deriving DecidableEq, Repr

/-- Polling goes on, or the error loop. -/
def PollingState.active : PollingState → Bool
  | .ACT_START | .FIN_START | .FIN_START_WAIT | .FIN_START_WAIT2 | .ZOM => false
  | _ => true

/-- `i_coList` is its length. A number is `none` if it is `undefined` or `NaN`. -/
structure GtPolling where
  state : PollingState
  i_destroyFlag : Bool
  i_pollingID : Int
  i_coList : Nat
  i_latency : ℚ
  i_min_interval : Option ℚ
  i_interval : Option ℚ
  i_expire : Option ℚ
  i_request : Bool
  i_born : Option PollingBorn
  i_pollingResult : String
  deriving DecidableEq, Repr

/-- What a handler finds: the status of the event if it is a return, `stdInterval.now()`, and
`gtRequest.limit(this)`. -/
structure PollingEvent where
  ret : Option String
  now : ℚ
  limit : ℚ
  deriving DecidableEq, Repr

inductive PollingAct
  | requestResult (msg : PollingReply)
  /-- `own` says that the sender is in `i_coList`. -/
  | coResult (msg : PollingReply) (req own : Bool)
  | destroy
  | handle (e : PollingEvent)
  deriving DecidableEq, Repr

/-- The interval is set when polling begins, and timers are set for polls and for retries. -/
inductive PollingObs
  | begins
  | polls (interval : Option ℚ)
  | retries (interval : Option ℚ)
  deriving DecidableEq, Repr

namespace GtPolling

def minInterval : ℚ := 1000
def maxInterval : ℚ := 20 * 1000 * 1000
def latencyRate : ℚ := 1 / 2
def lazyRate : ℚ := 5 / 4

def new : GtPolling where
  state := .ACT_START
  i_destroyFlag := false
  i_pollingID := 0
  i_coList := 0
  i_latency := minInterval
  i_min_interval := none
  i_interval := none
  i_expire := none
  i_request := false
  i_born := none
  i_pollingResult := "OK"

/-- `if ( x < min ) x = min;` -/
def atLeast (min x : Option ℚ) : Option ℚ :=
  match x, min with
  | some x, some m => some (if x < m then m else x)
  | x, _ => x

/-- `if ( x > max ) x = cap;` -/
def atMost (max : ℚ) (cap x : Option ℚ) : Option ℚ :=
  match x with
  | some x => if max < x then cap else some x
  | none => none

def newLatency (s : GtPolling) (latency : ℚ) : ℚ :=
  let l := (s.i_latency + latency) / 2
  let l := if l < minInterval then minInterval else l
  if maxInterval < l then maxInterval else l

/-- It throws where an OK brings no polling. -/
def i_requestResult (s : GtPolling) (msg : PollingReply) : GtPolling :=
  if msg.status = "OK" then
    let s := if msg.latency ≠ 0 then { s with i_latency := s.newLatency msg.latency } else s
    match msg.message with
    | .text _ => s
    | .polling info =>
      let s := if msg.latency ≠ 0 then { s with i_min_interval := info.interval } else s
      if s.i_pollingID ≠ 0 ∧ info.id ≠ s.i_pollingID then s
      else { s with i_pollingID := info.id }
  else if msg.status = "ERROR" ∧ msg.message ≠ .text "destroyed" ∧ msg.status2 = 404 then
    { s with i_pollingID := 0 }
  else s

/-- The reply as `coResult` takes it, and what it was born of; it throws where an OK brings
no polling. -/
def checkBorn (s : GtPolling) (msg : PollingReply) : Option (PollingReply × Option PollingBorn) :=
  if msg.status = "OK" then
    match msg.message, s.i_born with
    | .text _, _ => none
    | .polling info, none => some (msg, some info.born)
    | .polling info, some born =>
      if info.born = born then some (msg, some born)
      else some (⟨"ERROR", 404, msg.latency, .text "Born is not mach"⟩, some born)
  else some (msg, s.i_born)

def coResult (s : GtPolling) (msg : PollingReply) (req own : Bool) : GtPolling :=
  let s := { s with i_request := req }
  match s.checkBorn msg with
  | none => s
  | some (msg, born) =>
    let s := { s with
      i_born := born
      i_pollingResult := if s.i_pollingResult = "OK" then msg.status else s.i_pollingResult }
    if own then i_requestResult { s with i_coList := s.i_coList - 1 } msg else s

def requestResult (s : GtPolling) (msg : PollingReply) : GtPolling :=
  { s with i_request := true }.i_requestResult msg

/-- The number of polls that may be under way. -/
def coLimit (limit : ℚ) : Int := if round (limit / 3) < 1 then 1 else round (limit / 3)

def goto (s : GtPolling) (state : PollingState) : GtPolling := { s with state := state }

def actPollingStart (s : GtPolling) (e : PollingEvent) : GtPolling × List PollingObs :=
  if coLimit e.limit ≤ s.i_coList then (s, [])
  else
    let i_interval :=
      atLeast s.i_min_interval (atLeast (some (s.i_latency * latencyRate)) s.i_interval)
    ({ s with
      state := .ACT_POLLING_WAIT
      i_coList := s.i_coList + 1
      i_interval := i_interval
      i_expire := i_interval.map (e.now + ·) },
     [.polls i_interval])

/-- `destroyFlag` is a name that nothing sets. -/
def actPollingWait (s : GtPolling) (e : PollingEvent) : GtPolling :=
  if s.i_expire.any (fun t => t - e.now ≤ 0) then
    { s with
      state := .ACT_POLLING_START
      i_interval := atMost maxInterval (some maxInterval) (s.i_interval.map (· * lazyRate)) }
  else if s.i_request then
    { s with
      state := .ACT_POLLING_START
      i_request := false
      i_interval := atLeast s.i_min_interval (some (s.i_latency * latencyRate)) }
  else if s.i_pollingResult = "OK" then s
  else s.goto .ACT_ERROR_HANDLE

def actErrorHandle (s : GtPolling) : GtPolling :=
  if 0 < s.i_coList then s
  else
    let s := { s with i_pollingID := 0, i_born := none }
    if s.i_destroyFlag then s.goto .FIN_START else s.goto .ACT_ERROR_HANDLE_RET

def actErrorHandleRet (s : GtPolling) (e : PollingEvent) : GtPolling × List PollingObs :=
  if s.i_destroyFlag then (s.goto .FIN_START, [])
  else match e.ret with
    | none => (s, [])
    | some status =>
      if status = "OK" then ({ s with state := .ACT_START, i_pollingResult := "OK" }, [])
      else
        ({ s with state := .ACT_ERROR_HANDLE_RET2, i_expire := s.i_interval.map (e.now + ·) },
         [.retries s.i_interval])

/-- The cap is read under a name that is misspelt. -/
def actErrorHandleRet2 (s : GtPolling) (e : PollingEvent) : GtPolling :=
  if s.i_destroyFlag then s.goto .FIN_START
  else if s.i_expire.any (fun t => e.now < t) then s
  else
    { s with
      state := .ACT_ERROR_HANDLE
      i_interval := atMost maxInterval none (s.i_interval.map (· * lazyRate)) }

/-- One handler. `ACT_START` stands for `ACT_TINYSTATE_CHECK1` and `ACT_TINYSTATE_START`, too. -/
def handle (s : GtPolling) (e : PollingEvent) : GtPolling × List PollingObs :=
  match s.state with
  | .ACT_START =>
    if s.i_destroyFlag then (s.goto .FIN_START, [])
    else if s.i_pollingID = 0 then (s, [])
    else
      ({ s with state := .ACT_POLLING_START, i_interval := some (s.i_latency * latencyRate) },
       [.begins])
  | .ACT_POLLING_START => s.actPollingStart e
  | .ACT_POLLING_WAIT => (s.actPollingWait e, [])
  | .ACT_POLLING_MORE_WAIT =>
    (if s.i_expire.any (fun t => 0 < t - e.now) then s else s.goto .ACT_POLLING_START, [])
  | .ACT_ERROR_HANDLE => (s.actErrorHandle, [])
  | .ACT_ERROR_HANDLE_RET => s.actErrorHandleRet e
  | .ACT_ERROR_HANDLE_RET2 => (s.actErrorHandleRet2 e, [])
  | .FIN_START => (s.goto .FIN_START_WAIT, [])
  | .FIN_START_WAIT =>
    (if 0 < s.i_coList then s
      else if s.i_pollingID = 0 then s.goto .ZOM else s.goto .FIN_START_WAIT2, [])
  | .FIN_START_WAIT2 => (if e.ret.isSome then s.goto .ZOM else s, [])
  | .ZOM => (s, [])

/-- The latencies that are measured are not negative. -/
def step (s : GtPolling) : PollingAct → Option (GtPolling × List PollingObs)
  | .requestResult msg => if msg.latency < 0 then none else some (s.requestResult msg, [])
  | .coResult msg req own =>
    if msg.latency < 0 then none else some (s.coResult msg req own, [])
  | .destroy => some ({ s with i_destroyFlag := true }, [])
  | .handle e => some (s.handle e)

def machine : Machine GtPolling PollingAct PollingObs where
  init s := s = new
  step := step

-- ---------------------------------------------------------------------------
-- What is kept
-- ---------------------------------------------------------------------------

/-- The larger of the cap and the minimum that the server has given. -/
def ceiling (s : GtPolling) : ℚ := max maxInterval (s.i_min_interval.getD 0)

/-- A retry waits for a time that is known, and, up to the cap, not less than the retry before
it. -/
def Patient (before : List PollingObs) : PollingObs → Prop
  | .retries y => ∃ b, y = some b ∧ ∀ x, before.getLast? = some (.retries x) →
      ∃ a, x = some a ∧ min a maxInterval ≤ b
  | _ => True

structure Kept (tr : List PollingObs) (s : GtPolling) : Prop where
  finite : .begins ∈ tr → ∃ x, s.i_interval = some x ∧ 0 ≤ x ∧ x ≤ s.ceiling
  patient : Machine.Justified Patient tr

/-- The minimum that a reply brings is not below an interval above the cap. -/
def Fair (s : GtPolling) (msg : PollingReply) : Prop :=
  msg.status = "OK" → msg.latency ≠ 0 → ∀ info ∈ msg.message.info?,
    ∀ x ∈ s.i_interval, x ≤ max maxInterval (info.interval.getD 0)

/-- The cap is not reached in the error loop, and the server does not take back a minimum above
the cap that is in use. -/
def Steady (s : GtPolling) : PollingAct → Prop
  | .requestResult msg => s.Fair msg
  | .coResult msg _ own => own → (s.checkBorn msg).any (fun r => r.1 = msg) → s.Fair msg
  | .destroy => True
  | .handle e => s.state = .ACT_ERROR_HANDLE_RET2 → s.i_destroyFlag = false →
      s.i_expire.any (fun t => e.now < t) = false → ∀ x ∈ s.i_interval, x * lazyRate ≤ maxInterval

variable {s t : GtPolling} {msg : PollingReply} {e : PollingEvent} {tr os : List PollingObs}
  {a : PollingAct} {x y min : Option ℚ} {C : ℚ}

-- ---------------------------------------------------------------------------
-- Bounds
-- ---------------------------------------------------------------------------

/-- A number that is known is not negative and at most `C`. -/
def Within (C : ℚ) (x : Option ℚ) : Prop := ∀ a ∈ x, 0 ≤ a ∧ a ≤ C

theorem Within.mono {D : ℚ} (h : Within C x) (hd : C ≤ D) : Within D x :=
  fun a ha => ⟨(h a ha).1, le_trans (h a ha).2 hd⟩

theorem Within.atLeast (h : Within C x) (hm : ∀ m ∈ min, m ≤ C) : Within C (atLeast min x) := by
  unfold GtPolling.atLeast
  split
  · next a m =>
    intro b hb
    cases hb
    split
    · next hlt => exact ⟨le_trans (h a rfl).1 (le_of_lt hlt), hm m rfl⟩
    · exact h a rfl
  · exact h

theorem isSome_atLeast : (atLeast min x).isSome = x.isSome := by
  unfold atLeast
  split <;> rfl

theorem within_atMost (hx : ∀ a ∈ x, 0 ≤ a) (hC : 0 ≤ C) : Within C (atMost C (some C) x) := by
  unfold atMost
  split
  · next a =>
    split
    · intro b hb
      cases hb
      exact ⟨hC, le_refl C⟩
    · next hlt =>
      intro b hb
      cases hb
      exact ⟨hx a rfl, not_lt.mp hlt⟩
  · nofun

theorem isSome_atMost (h : x.isSome) : (atMost C (some C) x).isSome := by
  unfold atMost
  split
  · split <;> rfl
  · cases h

theorem maxInterval_nonneg : (0 : ℚ) ≤ maxInterval := by unfold maxInterval; norm_num

theorem maxInterval_le : maxInterval ≤ s.ceiling := le_max_left ..

theorem min_le_ceiling : ∀ m ∈ s.i_min_interval, m ≤ s.ceiling := by
  intro m hm
  rw [ceiling, hm]
  exact le_max_right ..

-- ---------------------------------------------------------------------------
-- Steps
-- ---------------------------------------------------------------------------

/-- What the last timer says, if it was one for a retry. -/
def Retried (s : GtPolling) (x : Option ℚ) : Prop :=
  match s.state with
  | .ACT_ERROR_HANDLE_RET2 => s.i_interval = x
  | .ACT_ERROR_HANDLE | .ACT_ERROR_HANDLE_RET =>
    ∃ a b, x = some a ∧ s.i_interval = some b ∧ Min.min a maxInterval ≤ b
  | .ACT_POLLING_START | .ACT_POLLING_WAIT | .ACT_POLLING_MORE_WAIT => False
  | _ => True

structure Inv (tr : List PollingObs) (s : GtPolling) : Prop where
  latency : minInterval ≤ s.i_latency ∧ s.i_latency ≤ maxInterval
  within : Within s.ceiling s.i_interval
  begun : .begins ∈ tr ∨ s.state.active → s.i_interval.isSome
  last : ∀ y, tr.getLast? = some (.retries y) → s.Retried y
  patient : Machine.Justified Patient tr

theorem inv_new : Inv [] new where
  latency := ⟨le_refl _, by unfold new minInterval maxInterval; norm_num⟩
  within := nofun
  begun := nofun
  last := nofun
  patient := .nil

/-- The methods leave the state and the interval alone. -/
structure Reported (s t : GtPolling) : Prop where
  state : t.state = s.state
  interval : t.i_interval = s.i_interval
  latency : minInterval ≤ s.i_latency ∧ s.i_latency ≤ maxInterval →
    minInterval ≤ t.i_latency ∧ t.i_latency ≤ maxInterval
  ceiling : (∀ x ∈ s.i_interval, x ≤ s.ceiling) → ∀ x ∈ s.i_interval, x ≤ t.ceiling

theorem Reported.refl (s : GtPolling) : Reported s s := ⟨rfl, rfl, id, id⟩

theorem newLatency_range (s : GtPolling) (l : ℚ) :
    minInterval ≤ s.newLatency l ∧ s.newLatency l ≤ maxInterval := by
  have hm : minInterval ≤ maxInterval := by unfold minInterval maxInterval; norm_num
  unfold newLatency
  dsimp only
  split
  · split
    · exact ⟨hm, le_refl _⟩
    · exact ⟨le_refl _, hm⟩
  · next h =>
    split
    · exact ⟨hm, le_refl _⟩
    · next h' => exact ⟨not_lt.mp h, not_lt.mp h'⟩

theorem reported_result (hf : s.Fair msg) : Reported s (s.i_requestResult msg) := by
  unfold i_requestResult
  split
  · next hok =>
    by_cases hl : msg.latency ≠ 0
    · simp only [if_pos hl]
      have hlat := newLatency_range s msg.latency
      split
      · exact ⟨rfl, rfl, fun _ => hlat, id⟩
      · next info hmsg =>
        have hfair := hf hok hl info (by rw [hmsg]; rfl)
        split
        · exact ⟨rfl, rfl, fun _ => hlat, fun _ => hfair⟩
        · exact ⟨rfl, rfl, fun _ => hlat, fun _ => hfair⟩
    · simp only [if_neg hl]
      split
      · exact .refl s
      · split
        · exact .refl s
        · exact ⟨rfl, rfl, id, id⟩
  · split
    · exact ⟨rfl, rfl, id, id⟩
    · exact .refl s

/-- What comes with the wrong birth is an error. -/
theorem checkBorn_reply {born : Option PollingBorn} {m : PollingReply}
    (h : s.checkBorn msg = some (m, born)) : m = msg ∨ m.status = "ERROR" := by
  unfold checkBorn at h
  split at h
  · split at h
    · cases h
    · cases h
      exact .inl rfl
    · split at h <;> cases h
      · exact .inl rfl
      · exact .inr rfl
  · cases h
    exact .inl rfl

theorem reported_co {req own : Bool} (hf : s.Steady (.coResult msg req own)) :
    Reported s (s.coResult msg req own) := by
  unfold coResult
  dsimp only
  split
  · exact ⟨rfl, rfl, id, id⟩
  · next m born hborn =>
    split
    · next hown =>
      have hfair : s.Fair m := by
        rcases checkBorn_reply (s := s) hborn with rfl | herr
        · exact hf hown (by
            rw [show s.checkBorn m = some (m, born) from hborn]
            exact decide_eq_true rfl)
        · intro hok
          rw [herr] at hok
          exact absurd hok (by decide)
      have h := @reported_result { s with
        i_request := req
        i_born := born
        i_pollingResult := if s.i_pollingResult = "OK" then m.status else s.i_pollingResult
        i_coList := s.i_coList - 1 } m hfair
      exact ⟨h.state, h.interval, h.latency, h.ceiling⟩
    · exact ⟨rfl, rfl, id, id⟩

theorem Inv.reported (h : Inv tr s) (hr : Reported s t) : Inv (tr ++ []) t where
  latency := hr.latency h.latency
  within x hx := by
    rw [hr.interval] at hx
    exact ⟨(h.within x hx).1, hr.ceiling (fun x hx => (h.within x hx).2) x hx⟩
  begun := by
    rw [hr.interval, hr.state, List.append_nil]
    exact h.begun
  last := by
    unfold Retried
    rw [hr.interval, hr.state, List.append_nil]
    exact h.last
  patient := by
    rw [List.append_nil]
    exact h.patient

/-- A handler that sets no timer. -/
theorem Inv.quiet (h : Inv tr s) (hl : t.i_latency = s.i_latency)
    (hm : t.i_min_interval = s.i_min_interval) (hw : Within s.ceiling t.i_interval)
    (hs : s.i_interval.isSome → t.i_interval.isSome) (ha : t.state.active → s.state.active)
    (hr : ∀ y, s.Retried y → t.Retried y) : Inv (tr ++ []) t where
  latency := hl ▸ h.latency
  within := by
    unfold ceiling
    rw [hm]
    exact hw
  begun := by
    rw [List.append_nil]
    exact fun hb => hs (h.begun (hb.imp_right ha))
  last := by
    rw [List.append_nil]
    exact fun y hy => hr y (h.last y hy)
  patient := by
    rw [List.append_nil]
    exact h.patient

/-- A handler that only moves on. -/
theorem Inv.goto (h : Inv tr s) {st : PollingState} (ha : st.active → s.state.active)
    (hr : ∀ y, s.Retried y → (s.goto st).Retried y) : Inv (tr ++ []) (s.goto st) :=
  h.quiet rfl rfl h.within id ha hr

theorem Inv.stays (h : Inv tr s) : Inv (tr ++ []) s := by
  rwa [List.append_nil]

/-- The interval that comes of the latency. -/
theorem Inv.latent (h : Inv tr s) : Within s.ceiling (some (s.i_latency * latencyRate)) := by
  intro b hb
  cases hb
  obtain ⟨hlo, hhi⟩ := h.latency
  have hc := maxInterval_le (s := s)
  unfold latencyRate
  unfold minInterval at hlo
  constructor <;> linarith

theorem Inv.actStart (h : Inv tr s) :
    Inv (tr ++ [PollingObs.begins]) { s with
      state := .ACT_POLLING_START, i_interval := some (s.i_latency * latencyRate) } where
  latency := h.latency
  within := h.latent
  begun _ := rfl
  last y hy := by simp at hy
  patient := h.patient.snoc trivial

theorem Inv.actPollingStart (h : Inv tr s) (hs : s.state = .ACT_POLLING_START) :
    Inv (tr ++ (s.actPollingStart e).2) (s.actPollingStart e).1 := by
  unfold GtPolling.actPollingStart
  split
  · exact h.stays
  · have hsome := h.begun (.inr (by rw [hs]; rfl))
    have hmin : Within s.ceiling (atLeast (some (s.i_latency * latencyRate)) s.i_interval) :=
      h.within.atLeast fun m hm => (h.latent m hm).2
    exact ⟨h.latency, hmin.atLeast min_le_ceiling,
      fun _ => by rw [isSome_atLeast, isSome_atLeast]; exact hsome,
      fun y hy => by simp at hy, h.patient.snoc trivial⟩

theorem Inv.actPollingWait (h : Inv tr s) (hs : s.state = .ACT_POLLING_WAIT) :
    Inv (tr ++ []) (s.actPollingWait e) := by
  have hsome := h.begun (.inr (by rw [hs]; rfl))
  have hret : ∀ y, ¬ s.Retried y := fun y => by rw [Retried, hs]; exact id
  have hact : s.state.active := by rw [hs]; rfl
  unfold GtPolling.actPollingWait
  split
  · refine h.quiet rfl rfl ?_ (fun _ => ?_) (fun _ => hact) (fun y hy => absurd hy (hret y))
    · refine (within_atMost ?_ maxInterval_nonneg).mono maxInterval_le
      intro a ha
      obtain ⟨b, hb, rfl⟩ := Option.map_eq_some_iff.mp ha
      have h0 := (h.within b hb).1
      unfold lazyRate
      linarith
    · apply isSome_atMost
      rwa [Option.isSome_map]
  · split
    · refine h.quiet rfl rfl (h.latent.atLeast min_le_ceiling) (fun _ => ?_) (fun _ => hact)
        (fun y hy => absurd hy (hret y))
      rw [isSome_atLeast]
      rfl
    · split
      · exact h.stays
      · exact h.goto (fun _ => hact) (fun y hy => absurd hy (hret y))

theorem Inv.actErrorHandle (h : Inv tr s) (hs : s.state = .ACT_ERROR_HANDLE) :
    Inv (tr ++ []) s.actErrorHandle := by
  have hact : s.state.active := by rw [hs]; rfl
  unfold GtPolling.actErrorHandle
  split
  · exact h.stays
  · dsimp only
    split
    · exact h.quiet rfl rfl h.within id nofun (fun _ _ => trivial)
    · refine h.quiet rfl rfl h.within id (fun _ => hact) (fun y hy => ?_)
      rw [Retried, hs] at hy
      exact hy

theorem Inv.actErrorHandleRet (h : Inv tr s) (hs : s.state = .ACT_ERROR_HANDLE_RET) :
    Inv (tr ++ (s.actErrorHandleRet e).2) (s.actErrorHandleRet e).1 := by
  have hact : s.state.active := by rw [hs]; rfl
  obtain ⟨b, hb⟩ := Option.isSome_iff_exists.mp (h.begun (.inr hact))
  unfold GtPolling.actErrorHandleRet
  split
  · exact h.goto nofun (fun _ _ => trivial)
  · split
    · exact h.stays
    · split
      · exact h.quiet rfl rfl h.within id nofun (fun _ _ => trivial)
      · refine ⟨h.latency, h.within, fun _ => ?_, fun y hy => ?_, h.patient.snoc ?_⟩
        · exact Option.isSome_iff_exists.mpr ⟨b, hb⟩
        · rw [List.getLast?_concat, Option.some.injEq, PollingObs.retries.injEq] at hy
          exact hy
        · refine ⟨b, hb, fun x hx => ?_⟩
          have hr := h.last x hx
          rw [Retried, hs] at hr
          obtain ⟨a, b', ha, hb', hle⟩ := hr
          obtain rfl : b = b' := Option.some.inj (hb.symm.trans hb')
          exact ⟨a, ha, hle⟩

theorem Inv.actErrorHandleRet2 (h : Inv tr s) (hs : s.state = .ACT_ERROR_HANDLE_RET2)
    (hc : s.Steady (.handle e)) : Inv (tr ++ []) (s.actErrorHandleRet2 e) := by
  have hact : s.state.active := by rw [hs]; rfl
  obtain ⟨b, hb⟩ := Option.isSome_iff_exists.mp (h.begun (.inr hact))
  unfold GtPolling.actErrorHandleRet2
  split
  · exact h.goto nofun (fun _ _ => trivial)
  · next hd =>
    split
    · exact h.stays
    · next hexp =>
      -- the cap is not reached, so that the misspelt name is not read
      have hle := hc hs (Bool.eq_false_iff.mpr hd) (Bool.eq_false_iff.mpr hexp) b hb
      have hnew : atMost maxInterval none (s.i_interval.map (· * lazyRate)) =
          some (b * lazyRate) := by
        rw [hb]
        exact if_neg (not_lt.mpr hle)
      have h0 := (h.within b hb).1
      have hgrow : b ≤ b * lazyRate := by
        unfold lazyRate
        linarith
      rw [hnew]
      refine h.quiet rfl rfl ?_ (fun _ => rfl) (fun _ => hact) (fun y hy => ?_)
      · intro c hc
        cases hc
        exact ⟨le_trans h0 hgrow, le_trans hle maxInterval_le⟩
      · rw [Retried, hs] at hy
        exact ⟨b, _, hy.symm.trans hb, rfl, le_trans (min_le_left ..) hgrow⟩

theorem Inv.handle (h : Inv tr s) (hc : s.Steady (.handle e)) :
    Inv (tr ++ (s.handle e).2) (s.handle e).1 := by
  unfold GtPolling.handle
  split
  · split
    · exact h.goto nofun (fun _ _ => trivial)
    · split
      · exact h.stays
      · exact h.actStart
  · next hs => exact h.actPollingStart hs
  · next hs => exact h.actPollingWait hs
  · next hs =>
    split
    · exact h.stays
    · refine h.goto (fun _ => by rw [hs]; rfl) (fun y hy => ?_)
      rw [Retried, hs] at hy
      exact hy.elim
  · next hs => exact h.actErrorHandle hs
  · next hs => exact h.actErrorHandleRet hs
  · next hs => exact h.actErrorHandleRet2 hs hc
  · exact h.goto nofun (fun _ _ => trivial)
  · split
    · exact h.stays
    · split
      · exact h.goto nofun (fun _ _ => trivial)
      · exact h.goto nofun (fun _ _ => trivial)
  · split
    · exact h.goto nofun (fun _ _ => trivial)
    · exact h.stays
  · exact h.stays

theorem Inv.step (h : Inv tr s) (hc : s.Steady a) (hs : s.step a = some (t, os)) :
    Inv (tr ++ os) t := by
  cases a with
  | requestResult msg =>
    obtain ⟨-, he⟩ := Option.ite_none_left_eq_some.mp hs
    cases he
    have hr := @reported_result { s with i_request := true } msg hc
    exact h.reported ⟨hr.state, hr.interval, hr.latency, hr.ceiling⟩
  | coResult msg req own =>
    obtain ⟨-, he⟩ := Option.ite_none_left_eq_some.mp hs
    cases he
    exact h.reported (reported_co hc)
  | destroy =>
    cases hs
    exact h.reported ⟨rfl, rfl, id, id⟩
  | handle e =>
    have hh := h.handle hc
    rw [Option.some.inj hs] at hh
    exact hh

/-- In runs in which the cap is not reached in the error loop the interval is known and bounded,
and retries do not come faster. -/
theorem polling_law (h : machine.RunIf Steady tr s) : Kept tr s := by
  have hi : Inv tr s := by
    induction h with
    | start hi =>
      cases hi
      exact inv_new
    | step _ hc hs ih => exact ih.step hc hs
  refine ⟨fun hb => ?_, hi.patient⟩
  obtain ⟨x, hx⟩ := Option.isSome_iff_exists.mp (hi.begun (.inl hb))
  exact ⟨x, hx, hi.within x hx⟩

-- ---------------------------------------------------------------------------
-- Runs in which the server fails
-- ---------------------------------------------------------------------------

instance (s : GtPolling) (msg : PollingReply) : Decidable (s.Fair msg) := by
  unfold Fair
  infer_instance

instance (s : GtPolling) (a : PollingAct) : Decidable (s.Steady a) := by
  cases a <;> unfold Steady <;> infer_instance

/-- A server that gives this minimum, and an error of a poll. -/
def failing (interval : ℚ) : List PollingAct :=
  [.requestResult ⟨"OK", 200, 2000, .polling ⟨1, some interval, (0, 0, 1)⟩⟩,
    .handle ⟨none, 0, 1⟩, .handle ⟨none, 0, 1⟩,
    .coResult ⟨"ERROR", 500, 0, .text ""⟩ false true, .handle ⟨none, 1, 1⟩]

/-- A retry that fails at this time. -/
def failed (now : ℚ) : List PollingAct :=
  [.handle ⟨none, now, 1⟩, .handle ⟨some "ERROR", now, 1⟩]

theorem polling_law_retries : ∃ tr s, Kept tr s ∧
    tr = [.begins, .polls (some 1000), .retries (some 1000), .retries (some 1250)] := by
  obtain ⟨tr, s, h, ht⟩ := Machine.exists_run (M := machine) (C := Steady)
    (P := fun tr _ => tr = [.begins, .polls (some 1000), .retries (some 1000),
      .retries (some 1250)])
    (failing 1000 ++ failed 1 ++ [PollingAct.handle ⟨none, 5000, 1⟩] ++ failed 5000)
    (s := new) rfl (by decide +kernel)
  exact ⟨tr, s, polling_law h, ht⟩

/-- Where the first retry waits for as long as the cap allows, the next one waits for no time
that is known. -/
theorem polling_fails : ∃ tr s, machine.Run tr s ∧ s.i_interval = none ∧
    tr = [.begins, .polls (some 20000000), .retries (some 20000000), .retries none] :=
  Machine.exists_run
    (failing 20000000 ++ failed 1 ++ [PollingAct.handle ⟨none, 50000000, 1⟩] ++ failed 50000000)
    (s := new) rfl (by decide +kernel)

end GtPolling

end TinyState.Js
