import Mathlib.Tactic.ByContra
import Mathlib.Tactic.SplitIfs
import TinyState.Lib.Machine

/-!
# ts2System

The kill and poll timer of a child process, under POSIX. The object has a timer registered
wherever it waits for its child, as long as the last of its timers is not late; and it sends
the signal again where a second has passed, as long as it has not looked in between.
-/

namespace TinyState

open Transition

/-- `DM_CONT_TERM`. -/
def dmContTerm : Int := 1

/-- `DM_CONT_KILL`. -/
def dmContKill : Int := 3

/-- `SIGTERM` and `SIGKILL`. -/
inductive KillSignal
  | term
  | kill
  deriving DecidableEq, Repr

inductive Ts2SystemState
  | iniStart
  | actStart
  | actFinish
  | actFinishRet
  | finStart
  deriving DecidableEq, Repr

inductive Ts2SystemObs
  /-- `kill`. -/
  | kill (pid : Int) (signal : KillSignal)
  /-- What the parent is told. -/
  | ret (status : Int)
  deriving DecidableEq, Repr

/-- `ts2System` and its child. `dRfd` and `dEfd` tell, where they are not null, whether
they are in a ZOM state. `child` is how it has ended, `pending` are the deadlines of the
`TSE_TIMER` registrations, and `sent` is history: when a signal that is to be sent again has
been sent last. -/
structure Ts2System where
  state : Ts2SystemState
  ret : Int
  dRfd : Option Bool
  dEfd : Option Bool
  detachFlag : Bool
  killFlag : Bool
  destroyFlag : Bool
  destroyMode : Int
  killTimer : Int
  status : Int
  child : Option Int
  clock : Int
  pending : List Int
  sent : Option Int
  deriving DecidableEq, Repr

inductive Ts2SystemAct
  | tick (now : Int)
  /-- The registration `i` is delivered. -/
  | timer (i : Nat)
  /-- Any other event: `TSE_INIT`, `SIGCHLD`, a wakeup. -/
  | event
  | destroy
  | destroyMode (mode : Int)
  | detach
  | rfdZom
  | efdZom
  /-- The child ends. -/
  | exit (status : Int)
  deriving DecidableEq, Repr

/-- `filter` and the function of the state are called. -/
def Ts2SystemAct.Evaluates : Ts2SystemAct → Prop
  | timer _ | event => True
  | tick _ | destroy | destroyMode _ | detach | rfdZom | efdZom | exit _ => False

namespace Ts2System

def oneSecond : Int := 1000 * 1000

/-- What is sent again and again. -/
def contSignal (mode : Int) : Option KillSignal :=
  if mode = dmContTerm then some .term
  else if mode = dmContKill then some .kill
  else none

def kill (s : Ts2System) (signal : KillSignal) : Ts2System × List Ts2SystemObs :=
  ({ s with sent := some s.clock }, [.kill (-s.ret) signal])

/-- `kill_timer` is set, and a timer is registered. -/
def arm (s : Ts2System) : Ts2System :=
  { s with
    killTimer := s.clock
    pending := s.pending ++ [s.clock + oneSecond] }

def filter (s : Ts2System) : Ts2System × List Ts2SystemObs :=
  if s.destroyFlag ∧ s.killFlag = false then
    let s := { s with killFlag := true }
    match contSignal s.destroyMode with
    | some signal => ((s.kill signal).1.arm, (s.kill signal).2)
    | none => (s, [.kill (-s.ret) .term])
  else (s, [])

-- ---------------------------------------------------------------------------
-- The states
-- ---------------------------------------------------------------------------

def finStart (s : Ts2System) : Ts2System × List Ts2SystemObs :=
  ({ s with
      state := .finStart
      dRfd := none
      dEfd := none }, [.ret s.status])

/-- The signal is sent again, where it is time. -/
def resend (s : Ts2System) : Ts2System × List Ts2SystemObs :=
  match contSignal s.destroyMode with
  | some signal =>
    if s.killFlag ∧ s.killTimer + oneSecond ≤ s.clock then s.kill signal else (s, [])
  | none => (s, [])

def rearm (s : Ts2System) : Ts2System :=
  if s.killTimer + oneSecond ≥ s.clock then s.arm else s

def actFinishRet (s : Ts2System) : Ts2System × List Ts2SystemObs :=
  if s.detachFlag then s.finStart
  else
    match s.child with
    | none => ({ s.resend.1.rearm with state := .actFinishRet }, s.resend.2)
    | some status => { s with status := status }.finStart

def actFinish (s : Ts2System) : Ts2System × List Ts2SystemObs :=
  if s.ret < 0 then s.finStart else s.arm.actFinishRet

def actStart (s : Ts2System) : Ts2System × List Ts2SystemObs :=
  if s.destroyFlag then s.actFinish
  else if s.dRfd = some false then ({ s with state := .actStart }, [])
  else if s.dEfd = some false then ({ s with state := .actStart }, [])
  else s.actFinish

def iniStart (s : Ts2System) : Ts2System × List Ts2SystemObs :=
  if s.dRfd = none ∧ s.dEfd = none then s.actFinish else s.actStart

/-- An event: `filter`, and the function of the state, up to one that does not say `rDO`.
After `FIN_START` no event is evaluated. -/
def evaluate (s : Ts2System) : Ts2System × List Ts2SystemObs :=
  let f := s.filter
  let r := match f.1.state with
    | .iniStart => f.1.iniStart
    | .actStart => f.1.actStart
    | .actFinish => f.1.actFinish
    | .actFinishRet => f.1.actFinishRet
    | .finStart => (f.1, [])
  if s.state = .finStart then (s, []) else (r.1, f.2 ++ r.2)

def step (s : Ts2System) : Ts2SystemAct → Option (Ts2System × List Ts2SystemObs)
  | .tick now => if s.clock ≤ now then some ({ s with clock := now }, []) else none
  | .timer i =>
    match s.pending[i]? with
    | some deadline =>
      if deadline ≤ s.clock then some { s with pending := s.pending.eraseIdx i }.evaluate else none
    | none => none
  | .event => some s.evaluate
  | .destroy => some ({ s with destroyFlag := true }, [])
  | .destroyMode mode => some ({ s with
      destroyMode := mode
      destroyFlag := true }, [])
  | .detach => some ({ s with detachFlag := true }, [])
  | .rfdZom => some ({ s with dRfd := s.dRfd.map fun _ => true }, [])
  | .efdZom => some ({ s with dEfd := s.dEfd.map fun _ => true }, [])
  | .exit status => some ({ s with child := s.child.orElse fun _ => some status }, [])

/-- After the constructor. -/
structure Initial (s : Ts2System) : Prop where
  state : s.state = .iniStart
  detachFlag : s.detachFlag = false
  killFlag : s.killFlag = false
  destroyFlag : s.destroyFlag = false
  destroyMode : s.destroyMode = 0
  killTimer : s.killTimer = 0
  child : s.child = none
  clock : 0 ≤ s.clock
  pending : s.pending = []
  sent : s.sent = none

def machine : Machine Ts2System Ts2SystemAct Ts2SystemObs where
  init := Initial
  step := step

-- ---------------------------------------------------------------------------
-- What is asked of the timing
-- ---------------------------------------------------------------------------

/-- The object waits for a child that lives, and nobody has detached it. -/
def Waits (s : Ts2System) : Prop :=
  s.state = .actFinishRet ∧ s.detachFlag = false ∧ s.child = none

/-- The last timer of an object that waits is delivered no later than a second after
`kill_timer`, or `filter` is about to register another one. -/
def OnTime (s : Ts2System) : Ts2SystemAct → Prop
  | .timer _ => s.Waits → s.pending.length = 1 →
      s.clock ≤ s.killTimer + oneSecond ∨
        s.destroyFlag = true ∧ s.killFlag = false ∧ contSignal s.destroyMode ≠ none
  | .tick _ | .event | .destroy | .destroyMode _ | .detach | .rfdZom | .efdZom | .exit _ => True

/-- The object looks at its child when it has just sent a signal, or a second later; more
than that, where it would not send it again. -/
def Rested (s : Ts2System) : Ts2SystemAct → Prop
  | .timer _ | .event => ∀ sent ∈ s.sent, sent = s.clock ∨ sent + oneSecond < s.clock ∨
      sent + oneSecond = s.clock ∧ contSignal s.destroyMode ≠ none
  | .tick _ | .destroy | .destroyMode _ | .detach | .rfdZom | .efdZom | .exit _ => True

instance (s : Ts2System) : Decidable s.Waits := inferInstanceAs (Decidable (_ ∧ _ ∧ _))

instance (s : Ts2System) (a : Ts2SystemAct) : Decidable (s.OnTime a) := by
  cases a <;> unfold OnTime <;> infer_instance

instance (s : Ts2System) (a : Ts2SystemAct) : Decidable (s.Rested a) := by
  cases a <;> unfold Rested <;> infer_instance

variable {s t : Ts2System} {os tr : List Ts2SystemObs}

-- ---------------------------------------------------------------------------
-- The timer
-- ---------------------------------------------------------------------------

theorem arm_ne (s : Ts2System) : s.arm.pending ≠ [] := List.append_ne_nil_of_right_ne_nil _ nofun

theorem filter_frame (s : Ts2System) : s.pending <+: s.filter.1.pending ∧
    s.filter.1.state = s.state ∧ s.filter.1.detachFlag = s.detachFlag ∧
    s.filter.1.child = s.child ∧ s.filter.1.clock = s.clock ∧
    s.filter.1.destroyFlag = s.destroyFlag ∧ s.filter.1.destroyMode = s.destroyMode := by
  unfold filter
  split
  · dsimp only
    split
    · exact ⟨List.prefix_append .., rfl, rfl, rfl, rfl, rfl, rfl⟩
    · exact ⟨List.prefix_rfl, rfl, rfl, rfl, rfl, rfl, rfl⟩
  · exact ⟨List.prefix_rfl, rfl, rfl, rfl, rfl, rfl, rfl⟩

theorem resend_frame (s : Ts2System) : ∃ sent, s.resend.1 = { s with sent := sent } := by
  unfold resend
  split
  · split <;> exact ⟨_, rfl⟩
  · exact ⟨_, rfl⟩

theorem rearm_prefix (s : Ts2System) : s.pending <+: s.rearm.pending := by
  unfold rearm
  split
  · exact List.prefix_append ..
  · exact List.prefix_rfl

theorem actFinishRet_prefix (s : Ts2System) : s.pending <+: s.actFinishRet.1.pending := by
  obtain ⟨sent, hs⟩ := s.resend_frame
  unfold actFinishRet
  split
  · exact List.prefix_rfl
  · split
    · rw [hs]
      exact rearm_prefix { s with sent := sent }
    · exact List.prefix_rfl

theorem actFinish_prefix (s : Ts2System) : s.pending <+: s.actFinish.1.pending := by
  unfold actFinish
  split
  · exact List.prefix_rfl
  · exact (List.prefix_append ..).trans s.arm.actFinishRet_prefix

theorem actStart_prefix (s : Ts2System) : s.pending <+: s.actStart.1.pending := by
  unfold actStart
  split_ifs
  · exact s.actFinish_prefix
  · exact List.prefix_rfl
  · exact List.prefix_rfl
  · exact s.actFinish_prefix

/-- What comes to wait has a timer. -/
theorem actFinish_waits (h : s.actFinish.1.state = .actFinishRet) : s.actFinish.1.pending ≠ [] := by
  unfold actFinish at h ⊢
  split
  · rw [if_pos ‹_›] at h
    cases h
  · intro hn
    exact s.arm_ne (List.prefix_nil.mp (hn ▸ s.arm.actFinishRet_prefix))

theorem actStart_waits (h : s.actStart.1.state = .actFinishRet) : s.actStart.1.pending ≠ [] := by
  unfold actStart at h ⊢
  split_ifs at h ⊢
  · exact actFinish_waits h
  · exact actFinish_waits h

theorem evaluate_prefix (s : Ts2System) : s.pending <+: s.evaluate.1.pending := by
  have hf := s.filter_frame.1
  unfold evaluate
  dsimp only
  split
  · exact List.prefix_rfl
  refine hf.trans ?_
  split
  · unfold iniStart
    split
    · exact actFinish_prefix _
    · exact actStart_prefix _
  · exact actStart_prefix _
  · exact actFinish_prefix _
  · exact actFinishRet_prefix _
  · exact List.prefix_rfl

/-- `filter` either registers a timer or leaves `kill_timer` alone. -/
theorem filter_quiet (h : s.filter.1.pending = []) : s.filter.1.killTimer = s.killTimer ∧
    ¬(s.destroyFlag = true ∧ s.killFlag = false ∧ contSignal s.destroyMode ≠ none) := by
  unfold filter at h ⊢
  dsimp only at h ⊢
  split
  · rename_i hd
    rw [if_pos hd] at h
    split
    · rename_i hc
      simp only [hc] at h
      exact absurd h (arm_ne _)
    · rename_i hc
      exact ⟨rfl, fun hn => hn.2.2 hc⟩
  · rename_i hd
    exact ⟨rfl, fun hn => hd ⟨hn.1, hn.2.1⟩⟩

theorem actFinishRet_arm (hd : s.detachFlag = false) (hc : s.child = none)
    (hk : s.clock ≤ s.killTimer + oneSecond) : s.actFinishRet.1.pending ≠ [] := by
  obtain ⟨sent, hs⟩ := s.resend_frame
  unfold actFinishRet
  rw [if_neg (by simp [hd])]
  simp only [hc, hs, rearm]
  rw [if_pos hk]
  exact arm_ne _

/-- An event leaves an object that waits with a timer, if it had one, or if it is on time. -/
theorem evaluate_waits (h : s.evaluate.1.state = .actFinishRet)
    (hp : s.Waits → s.pending ≠ [] ∨ s.clock ≤ s.killTimer + oneSecond ∨
      s.destroyFlag = true ∧ s.killFlag = false ∧ contSignal s.destroyMode ≠ none) :
    s.evaluate.1.pending ≠ [] := by
  obtain ⟨-, hstate, hd, hc, hclk, -⟩ := s.filter_frame
  unfold evaluate at h ⊢
  dsimp only at h ⊢
  split
  · rename_i hs
    rw [if_pos hs, hs] at h
    cases h
  rename_i hs
  rw [if_neg hs] at h
  cases hst : s.state with
  | iniStart =>
    simp only [hstate, hst, iniStart] at h ⊢
    split
    · rw [if_pos ‹_›] at h
      exact actFinish_waits h
    · rw [if_neg ‹_›] at h
      exact actStart_waits h
  | actStart =>
    simp only [hstate, hst] at h ⊢
    exact actStart_waits h
  | actFinish =>
    simp only [hstate, hst] at h ⊢
    exact actFinish_waits h
  | finStart => exact absurd hst hs
  | actFinishRet =>
    simp only [hstate, hst] at h ⊢
    intro hn
    have hw : s.Waits := by
      refine ⟨hst, ?_, ?_⟩
      · rw [← hd]
        by_contra hf
        rw [actFinishRet, if_pos (by simpa using hf)] at h
        cases h
      · rw [← hc]
        cases hch : s.filter.1.child with
        | none => rfl
        | some status =>
          rw [actFinishRet] at h
          split at h
          · cases h
          · rw [hch] at h
            cases h
    have hnil := List.prefix_nil.mp (hn ▸ actFinishRet_prefix s.filter.1)
    obtain ⟨hk, hq⟩ := filter_quiet hnil
    rcases hp hw with hp | hp | hp
    · exact hp (List.prefix_nil.mp (hnil ▸ s.filter_frame.1))
    · refine actFinishRet_arm (hd.trans hw.2.1) (hc.trans hw.2.2) ?_ hn
      rwa [hk, hclk]
    · exact hq hp

/-- A step is an event, with or without a timer that is used up, or leaves the timer alone. -/
theorem step_cases {a : Ts2SystemAct} (hs : s.step a = some (t, os)) :
    (∃ pending, { s with pending := pending }.evaluate = (t, os) ∧
      (a = .event ∧ pending = s.pending ∨
        ∃ i, a = .timer i ∧ i < s.pending.length ∧ pending = s.pending.eraseIdx i)) ∨
    ¬a.Evaluates ∧ os = [] ∧ t.state = s.state ∧ t.pending = s.pending ∧
      t.killTimer = s.killTimer ∧ t.sent = s.sent ∧ t.killFlag = s.killFlag ∧
      s.clock ≤ t.clock := by
  cases a with
  | tick now =>
    obtain ⟨hn, he⟩ := Option.ite_none_right_eq_some.mp hs
    cases he
    exact .inr ⟨id, rfl, rfl, rfl, rfl, rfl, rfl, hn⟩
  | destroy | destroyMode _ | detach | rfdZom | efdZom | exit _ =>
    cases hs
    exact .inr ⟨id, rfl, rfl, rfl, rfl, rfl, rfl, Int.le_refl _⟩
  | event => exact .inl ⟨s.pending, Option.some.inj hs, .inl ⟨rfl, rfl⟩⟩
  | timer i =>
    unfold step at hs
    dsimp only at hs
    split at hs
    · rename_i deadline hd
      obtain ⟨-, he⟩ := Option.ite_none_right_eq_some.mp hs
      exact .inl ⟨_, Option.some.inj he, .inr ⟨i, rfl, (List.getElem?_eq_some_iff.mp hd).1, rfl⟩⟩
    · cases hs

/-- **Poll timer.** -/
theorem pending_of_waits (h : machine.RunIf OnTime tr s) :
    s.state = .actFinishRet → s.pending ≠ [] := by
  refine h.stateInvariant (I := fun s => s.state = .actFinishRet → s.pending ≠ []) ?_ ?_
  · intro s hi hs
    cases hi.state.symm.trans hs
  intro s a t os hi hc hs hr
  rcases step_cases hs with ⟨pending, he, ha⟩ | ⟨-, -, hst, hp, -⟩
  · obtain rfl : _ = t := congrArg Prod.fst he
    refine evaluate_waits hr fun hw => ?_
    rcases ha with ⟨rfl, rfl⟩ | ⟨i, rfl, hi, rfl⟩
    · exact .inl (hi hw.1)
    · by_cases hl : s.pending.length = 1
      · exact .inr (hc hw hl)
      · refine .inl fun hn => ?_
        have he := List.length_eraseIdx_of_lt hi
        change s.pending.eraseIdx i = [] at hn
        rw [hn, List.length_nil] at he
        omega
  · exact hp ▸ hi (hst ▸ hr)

-- ---------------------------------------------------------------------------
-- The signal
-- ---------------------------------------------------------------------------

/-- `kill_timer` has not been moved since a signal that is to be sent again has been sent. -/
structure Settled (s : Ts2System) : Prop where
  timer : s.killTimer ≤ s.clock
  sent : ∀ x ∈ s.sent, s.killTimer ≤ x ∧ x ≤ s.clock ∧ s.killFlag = true

/-- What is asked of an object that is about to look at its child. -/
structure Ready (s : Ts2System) : Prop where
  settled : s.Settled
  rested : ∀ x ∈ s.sent, x = s.clock ∨ x + oneSecond < s.clock ∨
    x + oneSecond = s.clock ∧ contSignal s.destroyMode ≠ none

/-- What is asked of one that is about to wait: what it has sent it has just sent. -/
def Just (s : Ts2System) : Prop :=
  s.killTimer ≤ s.clock ∧ ∀ x ∈ s.sent, x = s.clock ∧ s.killFlag = true

theorem Just.ready (h : s.Just) : s.Ready where
  settled := ⟨h.1, fun x hx => ⟨(h.2 x hx).1 ▸ h.1, Int.le_of_eq (h.2 x hx).1, (h.2 x hx).2⟩⟩
  rested x hx := .inl (h.2 x hx).1

theorem Ready.rearm (h : s.Ready) (hn : ∀ x ∈ s.sent, x ≠ s.clock → s.killTimer + oneSecond < s.clock) :
    s.rearm.Settled := by
  unfold Ts2System.rearm
  split
  · rename_i hk
    refine ⟨Int.le_refl _, fun x hx => ?_⟩
    obtain ⟨-, hx₂, hx₃⟩ := h.settled.sent x hx
    refine ⟨?_, hx₂, hx₃⟩
    change s.clock ≤ x
    by_contra hlt
    exact absurd hk (Int.not_le.mpr (hn x hx fun he => hlt (Int.le_of_eq he.symm)))
  · exact ⟨h.settled.timer, h.settled.sent⟩

theorem Ready.actFinishRet (h : s.Ready) : s.actFinishRet.1.Settled := by
  unfold Ts2System.actFinishRet
  split
  · exact ⟨h.settled.timer, h.settled.sent⟩
  split
  · have hr : s.resend.1.rearm.Settled := by
      unfold resend
      split
      · rename_i signal hc
        split
        · rename_i hk
          refine Ready.rearm ⟨⟨h.settled.timer, ?_⟩, ?_⟩ ?_
          all_goals
            intro x hx
            obtain rfl : s.clock = x := Option.some.inj hx
          · exact ⟨h.settled.timer, Int.le_refl _, hk.1⟩
          · exact .inl rfl
          · exact fun hn => absurd rfl hn
        · rename_i hk
          refine h.rearm fun x hx hn => ?_
          obtain ⟨h₁, -, h₃⟩ := h.settled.sent x hx
          refine absurd ⟨h₃, ?_⟩ hk
          have hx := (h.rested x hx).resolve_left hn
          omega
      · rename_i hc
        refine h.rearm fun x hx hn => ?_
        obtain ⟨h₁, -, -⟩ := h.settled.sent x hx
        have hx := ((h.rested x hx).resolve_left hn).resolve_right fun hx => hx.2 hc
        omega
    exact ⟨hr.timer, hr.sent⟩
  · exact ⟨h.settled.timer, h.settled.sent⟩

theorem Just.actFinish (h : s.Just) : s.actFinish.1.Settled := by
  unfold Ts2System.actFinish
  split
  · exact ⟨h.ready.settled.timer, h.ready.settled.sent⟩
  · have ha : s.arm.Just := ⟨Int.le_refl _, h.2⟩
    exact ha.ready.actFinishRet

theorem Just.actStart (h : s.Just) : s.actStart.1.Settled := by
  unfold Ts2System.actStart
  split_ifs
  · exact h.actFinish
  · exact ⟨h.ready.settled.timer, h.ready.settled.sent⟩
  · exact ⟨h.ready.settled.timer, h.ready.settled.sent⟩
  · exact h.actFinish

/-- The object has not come to wait for its child. -/
def Early (s : Ts2System) : Prop :=
  s.state = .iniStart ∨ s.state = .actStart ∨ s.state = .actFinish

theorem actFinishRet_not_early (s : Ts2System) : ¬s.actFinishRet.1.Early := by
  unfold Ts2System.actFinishRet Early
  split
  · exact nofun
  · split <;> exact nofun

theorem actFinish_not_early (s : Ts2System) : ¬s.actFinish.1.Early := by
  unfold actFinish
  split
  · exact nofun
  · exact s.arm.actFinishRet_not_early

theorem actStart_early (h : s.actStart.1.Early) :
    s.destroyFlag = false ∧ s.actStart.1.sent = s.sent := by
  unfold actStart at h ⊢
  split_ifs at h ⊢ with hd
  · exact absurd h s.actFinish_not_early
  · exact ⟨Bool.eq_false_iff.mpr hd, rfl⟩
  · exact ⟨Bool.eq_false_iff.mpr hd, rfl⟩
  · exact absurd h s.actFinish_not_early

theorem filter_ready (h : s.Ready) : s.filter.1.Ready ∧ (s.sent = none → s.filter.1.Just) ∧
    (s.destroyFlag = false → s.filter.1.sent = s.sent) := by
  have hj {u : Ts2System} (hu : u.Just) (hd : s.destroyFlag = true) : u.Ready ∧
      (s.sent = none → u.Just) ∧ (s.destroyFlag = false → u.sent = s.sent) :=
    ⟨hu.ready, fun _ => hu, fun hf => absurd (hd.symm.trans hf) Bool.noConfusion⟩
  unfold filter
  split
  · rename_i hd
    dsimp only
    split
    · refine hj ⟨Int.le_refl _, fun x hx => ?_⟩ hd.1
      obtain rfl : s.clock = x := Option.some.inj hx
      exact ⟨rfl, rfl⟩
    · refine ⟨⟨⟨h.settled.timer, fun x hx => ?_⟩, h.rested⟩, fun hn => ⟨h.settled.timer, ?_⟩,
        fun _ => rfl⟩
      · exact ⟨(h.settled.sent x hx).1, (h.settled.sent x hx).2.1, rfl⟩
      · intro x hx
        cases hn.symm.trans hx
  · refine ⟨h, fun hn => ⟨h.settled.timer, ?_⟩, fun _ => rfl⟩
    intro x hx
    cases hn.symm.trans hx

theorem evaluate_settled (h : s.Ready) (he : s.Early → s.sent = none) :
    s.evaluate.1.Settled ∧ (s.evaluate.1.Early → s.evaluate.1.sent = none) := by
  obtain ⟨hr, hj, hq⟩ := filter_ready h
  obtain ⟨-, hstate, -, -, -, hdest, -⟩ := s.filter_frame
  have hstart (hs : s.sent = none) : s.filter.1.actStart.1.Settled ∧
      (s.filter.1.actStart.1.Early → s.filter.1.actStart.1.sent = none) := by
    refine ⟨(hj hs).actStart, fun hx => ?_⟩
    obtain ⟨hd, hsent⟩ := actStart_early hx
    exact hsent.trans ((hq (hdest.symm.trans hd)).trans hs)
  have hfin (hs : s.sent = none) : s.filter.1.actFinish.1.Settled ∧
      (s.filter.1.actFinish.1.Early → s.filter.1.actFinish.1.sent = none) :=
    ⟨(hj hs).actFinish, fun hx => absurd hx (actFinish_not_early _)⟩
  unfold evaluate
  dsimp only
  split
  · exact ⟨h.settled, he⟩
  cases hst : s.state with
  | iniStart =>
    have hs := he (.inl hst)
    simp only [hstate, hst, iniStart]
    split
    · exact hfin hs
    · exact hstart hs
  | actStart =>
    simp only [hstate, hst]
    exact hstart (he (.inr (.inl hst)))
  | actFinish =>
    simp only [hstate, hst]
    exact hfin (he (.inr (.inr hst)))
  | actFinishRet =>
    simp only [hstate, hst]
    exact ⟨hr.actFinishRet, fun hx => absurd hx (actFinishRet_not_early _)⟩
  | finStart => exact absurd hst ‹_›

theorem settled (h : machine.RunIf Rested tr s) : s.Settled ∧ (s.Early → s.sent = none) := by
  refine h.stateInvariant (I := fun s => s.Settled ∧ (s.Early → s.sent = none)) ?_ ?_
  · intro s hi
    refine ⟨⟨hi.killTimer ▸ hi.clock, fun x hx => ?_⟩, fun _ => hi.sent⟩
    cases hi.sent.symm.trans hx
  intro s a t os ⟨hi, he⟩ hc hs
  rcases step_cases hs with ⟨pending, hev, ha⟩ | ⟨-, -, hst, -, hk, hx, hf, hclk⟩
  · obtain rfl : _ = t := congrArg Prod.fst hev
    have hr : { s with pending := pending }.Ready := by
      refine ⟨⟨hi.timer, hi.sent⟩, ?_⟩
      rcases ha with ⟨rfl, -⟩ | ⟨i, rfl, -⟩ <;> exact hc
    exact evaluate_settled hr he
  · refine ⟨⟨hk ▸ Int.le_trans hi.timer hclk, fun x hm => ?_⟩, fun hearly => ?_⟩
    · obtain ⟨h₁, h₂, h₃⟩ := hi.sent x (hx ▸ hm)
      exact ⟨hk ▸ h₁, Int.le_trans h₂ hclk, hf ▸ h₃⟩
    · unfold Early at hearly
      rw [hst] at hearly
      exact hx.trans (he hearly)

/-- A second after it has been sent the signal is sent again. -/
theorem evaluate_kill {x : Int} {signal : KillSignal} (h : s.Settled) (hw : s.Waits)
    (hm : contSignal s.destroyMode = some signal) (hx : s.sent = some x)
    (hc : x + oneSecond ≤ s.clock) : .kill (-s.ret) signal ∈ s.evaluate.2 := by
  obtain ⟨hst, hd, hch⟩ := hw
  obtain ⟨h₁, -, h₃⟩ := h.sent x hx
  have hf : s.filter = (s, []) := if_neg fun hn => by simp [h₃] at hn
  have hk : s.resend.2 = [.kill (-s.ret) signal] := by
    unfold resend
    rw [hm]
    exact congrArg Prod.snd (if_pos ⟨h₃, by omega⟩)
  have hr : s.actFinishRet.2 = [.kill (-s.ret) signal] := by
    unfold Ts2System.actFinishRet
    rw [if_neg (by simp [hd]), hch]
    exact hk
  unfold evaluate
  rw [if_neg (by simp [hst]), hf]
  simp only [hst, hr]
  exact List.mem_singleton_self _

/-- **Kill and poll timer.** An object that waits for its child has a timer, as long as the
last of its timers is delivered no later than a second after `kill_timer`; and it sends the
signal again at the first event a second after it has sent it, as long as no event comes
in between. -/
theorem ts2System_law :
    (machine.RunIf OnTime tr s → s.state = .actFinishRet → s.pending ≠ []) ∧
    (machine.RunIf Rested tr s → ∀ a t os, s.step a = some (t, os) → a.Evaluates → s.Waits →
      ∀ x ∈ s.sent, x + oneSecond ≤ s.clock →
        ∀ signal ∈ contSignal s.destroyMode, .kill (-s.ret) signal ∈ os) := by
  refine ⟨pending_of_waits, fun hr a t os hs ha hw x hx hc signal hm => ?_⟩
  rcases step_cases hs with ⟨pending, he, -⟩ | ⟨hn, -⟩
  · have hk : .kill (-s.ret) signal ∈ ({ s with pending := pending }.evaluate).2 :=
      evaluate_kill ⟨(settled hr).1.timer, (settled hr).1.sent⟩ hw hm hx hc
    rwa [he] at hk
  · exact absurd ha hn

/-- Just after the constructor; nothing reads from the child. -/
def fresh : Ts2System where
  state := .iniStart
  ret := 100
  dRfd := none
  dEfd := none
  detachFlag := false
  killFlag := false
  destroyFlag := false
  destroyMode := 0
  killTimer := 0
  status := 0
  child := none
  clock := 0
  pending := []
  sent := none

theorem fresh_initial : fresh.Initial :=
  ⟨rfl, rfl, rfl, rfl, rfl, rfl, rfl, Int.le_refl 0, rfl, rfl⟩

example : (machine.exec (fun _ _ => True) fresh [.event, .tick 1]).isSome := by decide +kernel

/-- The child survives `SIGTERM`, which it is sent again. -/
theorem ts2System_law_term : ∃ tr s, machine.RunIf (fun s a => s.OnTime a ∧ s.Rested a) tr s ∧
    s.pending ≠ [] ∧ tr = [.kill (-100) .term] ∧ s.clock = 1000000 ∧
      .kill (-100) .term ∈ s.evaluate.2 := by
  have hr := Machine.exists_run (M := machine) (C := fun s a => s.OnTime a ∧ s.Rested a)
    (P := fun tr s => (s.state = .actFinishRet ∧ s.Waits) ∧ s.sent = some 0 ∧
      contSignal s.destroyMode = some .term ∧ s.ret = 100 ∧
      tr = [.kill (-100) .term] ∧ s.clock = 1000000)
    [.event, .destroyMode dmContTerm, .event, .tick 1000000] fresh_initial (by decide +kernel)
  obtain ⟨tr, s, h, ⟨hst, hw⟩, hsent, hm, hret, htr, hc⟩ := hr
  obtain ⟨hp, hk⟩ := @ts2System_law s tr
  refine ⟨tr, s, h, hp (h.mono fun _ _ _ _ hd => hd.1) hst, htr, hc, hret ▸ ?_⟩
  refine hk (h.mono fun _ _ _ _ hd => hd.2) .event _ _ rfl trivial hw 0 hsent ?_ .term hm
  rw [hc]
  decide

/-- Both timers of an object that waits are late: none is left. And an event in between keeps
a signal from being sent again, a second after it has been sent. -/
theorem ts2System_late :
    (∃ tr s, machine.Run tr s ∧ s.Waits ∧ s.pending = []) ∧
    ∃ tr s, machine.Run tr s ∧ s.Waits ∧ s.destroyMode = dmContKill ∧ s.sent = some 0 ∧
      s.clock = 1000000 ∧ (∃ t, s.step (.timer 0) = some (t, []) ∧ t.Waits) := by
  constructor
  · exact Machine.exists_run (M := machine) (C := fun _ _ => True)
      [.event, .tick 1000001, .timer 0, .timer 0] fresh_initial (by decide +kernel)
  · have hr := Machine.exists_run (M := machine) (C := fun _ _ => True)
      (P := fun _ s => s.Waits ∧ s.destroyMode = dmContKill ∧ s.sent = some 0 ∧
        s.clock = 1000000 ∧ (s.step (.timer 0)).any fun r => r.2 = [] ∧ r.1.Waits)
      [.event, .destroyMode dmContKill, .event, .tick 600000, .event, .tick 1000000]
      fresh_initial (by decide +kernel)
    obtain ⟨tr, s, h, hw, hm, hs, hc, ht⟩ := hr
    obtain ⟨⟨t, os⟩, hst, ho⟩ := (Option.any_eq_true _ _).mp ht
    obtain ⟨rfl, htw⟩ : os = [] ∧ t.Waits := of_decide_eq_true ho
    exact ⟨tr, s, h, hw, hm, hs, hc, t, hst, htw⟩

end Ts2System

end TinyState
