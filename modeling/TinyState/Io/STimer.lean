import TinyState.Io.Model

/-!
# sTimer

A timer that keeps at most the registrations it needs: it remembers in `setup_time` when
the next one is due. As long as there is one for that time, a started timer has one not
later than its expiry time, or one has just fired.
-/

namespace TinyState

open Transition

/-- `sTimer`. -/
structure STimer where
  expire : Int
  setupTime : Int
  eventType : EventType
  stopFlag : Bool
  deriving DecidableEq, Repr

namespace STimer

/-- With the time for which `stdInterval::wait` is called, if it is. -/
def start (s : STimer) (now length : Int) (eventType : EventType) : STimer × Option Int :=
  let length := if length < 0 then 0 else length
  let s := { s with
    stopFlag := false
    expire := int64 (now + length)
    eventType := eventType }
  if s.setupTime ≤ now ∨ s.expire < s.setupTime then
    ({ s with setupTime := s.expire }, some length)
  else (s, none)

def stop (s : STimer) : STimer := { s with stopFlag := true }

/-- With the time for which `stdInterval::wait` is called, if it is. -/
def isExpire (s : STimer) (now : Int) : Bool × STimer × Option Int :=
  if s.stopFlag then (false, s, none)
  else if s.expire ≤ now then (true, s, none)
  else if s.setupTime ≤ now then
    (false, { s with setupTime := s.expire }, some (int64 (s.expire - s.setupTime)))
  else (false, s, none)

end STimer

/-- A registration of the owner. `late` is the time between the two looks at the clock in
the call that made it, that of `sTimer` and that of `wait`. -/
structure Alarm where
  deadline : Int
  late : Int
  type : EventType
  deriving DecidableEq, Repr

/-- The time that `sTimer` has meant. -/
def Alarm.meant (x : Alarm) : Int := x.deadline - x.late

/-- A timer and its owner, who has no other registrations. `started` and `woken` are
history: a registration has fired since the last `start` or `is_expire`. So is `stale`:
what `setup_time` remembers `stop` has detached, or it was registered for another time. -/
structure TimerOwner where
  timer : STimer
  clock : Int
  pending : List Alarm
  started : Bool
  woken : Bool
  stale : Bool
  deriving DecidableEq, Repr

/-- The calls tell how much time passes in them. -/
inductive TimerOwnerAct
  | tick (now : Int)
  | start (length : Int) (eventType : EventType) (late : Nat)
  /-- `owner` tells if `stop` is given one. -/
  | stop (owner : Bool)
  | isExpire (late : Nat)
  /-- The registration `i` fires. -/
  | fire (i : Nat)
  deriving DecidableEq, Repr

namespace TimerOwner

/-- `stdInterval::wait`, where it is called. -/
def wait (s : TimerOwner) (late : Nat) : Option Int → TimerOwner
  | none => s
  | some tm =>
    let x : Alarm := ⟨int64 (s.clock + late + tm), late, s.timer.eventType⟩
    { s with
      clock := s.clock + late
      pending := s.pending ++ [x]
      stale := x.meant ≠ s.timer.setupTime }

def step (s : TimerOwner) : TimerOwnerAct → Option (TimerOwner × List Bool)
  | .tick now => if s.clock ≤ now then some ({ s with clock := now }, []) else none
  | .start length eventType late =>
    let r := s.timer.start s.clock length eventType
    some ({ s with
      timer := r.1
      started := true
      woken := false }.wait late r.2, [])
  | .stop owner => some ({ s with
      timer := s.timer.stop
      pending := if owner then [] else s.pending
      stale := owner || s.stale }, [])
  | .isExpire late =>
    let r := s.timer.isExpire s.clock
    some ({ s with
      timer := r.2.1
      woken := false }.wait late r.2.2, [r.1])
  | .fire i =>
    match s.pending[i]? with
    | some x => if x.deadline ≤ s.clock then some ({ s with
        pending := s.pending.eraseIdx i
        woken := true }, []) else none
    | none => none

/-- After the constructor, which sets neither `expire` nor `stop_flag`. -/
structure Initial (s : TimerOwner) : Prop where
  setup : s.timer.setupTime = -1
  type : s.timer.eventType = .timer
  clock : 0 ≤ s.clock
  pending : s.pending = []
  started : s.started = false
  woken : s.woken = false

/-- What `is_expire` tells can be observed. -/
def machine : Machine TimerOwner TimerOwnerAct Bool where
  init := Initial
  step := step

/-- A registration is due at the time remembered, unless that is over. Of a started timer
it is not later than its expiry time. -/
structure Armed (s : TimerOwner) : Prop where
  late : ∀ x ∈ s.pending, 0 ≤ x.late
  setup : s.clock < s.timer.setupTime →
    s.stale = true ∨ ∃ x ∈ s.pending, x.meant = s.timer.setupTime
  started : s.started = true → s.timer.stopFlag = false →
    s.timer.setupTime ≤ s.timer.expire ∧ (s.clock < s.timer.expire →
      s.stale = true ∨ s.woken = true ∨ ∃ x ∈ s.pending, x.meant ≤ s.timer.expire)

variable {s t : TimerOwner} {os tr : List Bool}

theorem Armed.tick (h : s.Armed) {now : Int} (hn : s.clock ≤ now) :
    { s with clock := now }.Armed where
  late := h.late
  setup hc := h.setup (Int.lt_of_le_of_lt hn hc)
  started h₁ h₂ := by
    obtain ⟨hs, hp⟩ := h.started h₁ h₂
    exact ⟨hs, fun hc => hp (Int.lt_of_le_of_lt hn hc)⟩

theorem meant_or (l : List Alarm) (x : Alarm) (n : Int) :
    decide (x.meant ≠ n) = true ∨ ∃ y ∈ l ++ [x], y.meant = n := by
  by_cases h : x.meant = n
  · exact .inr ⟨x, List.mem_append_right _ (List.mem_singleton_self x), h⟩
  · exact .inl (decide_eq_true h)

/-- A registration is made, and its time is remembered. -/
theorem Armed.wait (h : s.Armed) {timer : STimer} {started : Bool} (late : Nat) (tm : Int)
    (ht : timer.setupTime = timer.expire) :
    ({ s with
      timer := timer
      started := started
      woken := false }.wait late (some tm)).Armed := by
  have hx := meant_or s.pending ⟨int64 (s.clock + late + tm), late, timer.eventType⟩ timer.setupTime
  refine ⟨fun x hm => ?_, fun _ => hx, fun _ _ => ⟨ht.le, fun _ => hx.imp id fun hx => .inr ?_⟩⟩
  · rcases List.mem_append.mp hm with hm | hm
    · exact h.late x hm
    · obtain rfl := List.mem_singleton.mp hm
      exact Int.natCast_nonneg late
  · obtain ⟨x, hm, hx⟩ := hx
    exact ⟨x, hm, (hx.trans ht).le⟩

/-- Nothing is registered, since what is remembered is still to come. -/
theorem Armed.keep (h : s.Armed) {timer : STimer} {started : Bool}
    (ht : timer.setupTime = s.timer.setupTime) (hc : s.clock < timer.setupTime)
    (he : timer.setupTime ≤ timer.expire) :
    { s with
      timer := timer
      started := started
      woken := false }.Armed := by
  have hx := h.setup (ht ▸ hc)
  refine ⟨h.late, fun _ => ?_, fun _ _ => ⟨he, fun _ => hx.imp id fun hx => .inr ?_⟩⟩
  · exact ht ▸ hx
  · obtain ⟨x, hm, hx⟩ := hx
    exact ⟨x, hm, (hx.trans ht.symm).le.trans he⟩

theorem Armed.start (h : s.Armed) {length : Int} {eventType : EventType} {late : Nat}
    (hs : s.step (.start length eventType late) = some (t, os)) : t.Armed := by
  unfold step STimer.start at hs
  dsimp only at hs
  generalize (if length < 0 then 0 else length) = tm at hs
  split at hs <;> cases hs
  · exact h.wait late tm rfl
  · rename_i hn
    obtain ⟨hn₁, hn₂⟩ := not_or.mp hn
    exact h.keep rfl (Int.not_le.mp hn₁) (Int.not_lt.mp hn₂)

theorem Armed.stop (h : s.Armed) {owner : Bool} (hs : s.step (.stop owner) = some (t, os)) :
    t.Armed := by
  cases hs
  refine ⟨?_, ?_, fun _ hf => absurd hf Bool.noConfusion⟩
  · cases owner with
    | true => exact List.forall_mem_nil _
    | false => exact h.late
  · cases owner with
    | true => exact fun _ => .inl rfl
    | false => exact h.setup

theorem Armed.isExpire (h : s.Armed) {late : Nat} (hs : s.step (.isExpire late) = some (t, os)) :
    t.Armed := by
  unfold step STimer.isExpire at hs
  dsimp only at hs
  split at hs
  · rename_i hf
    cases hs
    exact ⟨h.late, h.setup, fun _ h₂ => absurd (hf.symm.trans h₂) Bool.noConfusion⟩
  · split at hs
    · rename_i he
      cases hs
      refine ⟨h.late, h.setup, fun h₁ h₂ => ⟨(h.started h₁ h₂).1, fun hlt => ?_⟩⟩
      exact absurd he (Int.not_le.mpr hlt)
    · split at hs <;> cases hs
      · exact h.wait late _ rfl
      · rename_i hf _ hp
        have hk (hle : s.timer.setupTime ≤ s.timer.expire) : { s with woken := false }.Armed :=
          h.keep rfl (Int.not_le.mp hp) hle
        exact ⟨h.late, h.setup, fun h₁ h₂ => (hk (h.started h₁ h₂).1).started h₁ h₂⟩

theorem Armed.fire (h : s.Armed) {i : Nat} (hs : s.step (.fire i) = some (t, os)) : t.Armed := by
  unfold step at hs
  dsimp only at hs
  split at hs
  · rename_i x hx
    obtain ⟨hd, he⟩ := Option.ite_none_right_eq_some.mp hs
    cases he
    refine ⟨fun y hy => h.late y (List.eraseIdx_subset hy), fun hc => ?_, fun h₁ h₂ =>
      ⟨(h.started h₁ h₂).1, fun _ => .inr (.inl rfl)⟩⟩
    refine (h.setup hc).imp id fun ⟨y, hy, hm⟩ => ⟨y, ?_, hm⟩
    -- What is remembered is still to come, so this is another one.
    refine List.mem_eraseIdx_iff_getElem?.mpr ?_
    obtain ⟨j, hj⟩ := List.mem_iff_getElem?.mp hy
    refine ⟨j, fun hji => ?_, hj⟩
    subst hji
    obtain rfl : x = y := Option.some.inj (hx.symm.trans hj)
    have hl := h.late x hy
    have hc : s.clock < s.timer.setupTime := hc
    unfold Alarm.meant at hm
    omega
  · cases hs

theorem armed (h : machine.Run tr s) : s.Armed := by
  refine h.stateInvariant (I := Armed) ?_ ?_
  · rintro s ⟨h₁, -, h₂, h₃, h₄, -⟩
    refine ⟨by rw [h₃]; exact List.forall_mem_nil _, fun hc => ?_, fun hs => ?_⟩
    · omega
    · exact absurd (h₄.symm.trans hs) Bool.noConfusion
  intro s a t os hi _ hs
  cases a with
  | tick now =>
    obtain ⟨hn, he⟩ := Option.ite_none_right_eq_some.mp hs
    cases he
    exact hi.tick hn
  | start length eventType late => exact hi.start hs
  | stop owner => exact hi.stop hs
  | isExpire late => exact hi.isExpire hs
  | fire i => exact hi.fire hs

/-- **Expiry.** A timer that is started, not stopped and not over, and that remembers what is
registered for that time, has a registration which, but for the time between the two looks
at the clock, is not later than its expiry time, or its owner has been woken and has not
asked yet. -/
theorem stimer_law (h : machine.Run tr s) (h₁ : s.started = true)
    (h₂ : s.timer.stopFlag = false) (h₃ : s.clock < s.timer.expire) (h₄ : s.stale = false) :
    s.woken = true ∨ ∃ x ∈ s.pending, x.deadline - x.late ≤ s.timer.expire := by
  refine (((armed h).started h₁ h₂).2 h₃).resolve_left fun hs => ?_
  exact absurd (h₄.symm.trans hs) Bool.noConfusion

/-- Just after the constructor, at the time 0. -/
def fresh : TimerOwner := ⟨⟨0, -1, .timer, false⟩, 0, [], false, false, false⟩

theorem fresh_initial : fresh.Initial := ⟨rfl, rfl, Int.le_refl 0, rfl, rfl, rfl⟩

/-- It is started again with a longer time, and asked when the first one is over. -/
theorem stimer_law_again : ∃ tr s, machine.Run tr s ∧ s.timer.expire = 1050 ∧ s.clock = 100 ∧
    (s.woken = true ∨ ∃ x ∈ s.pending, x.deadline - x.late ≤ s.timer.expire) := by
  have hr := Machine.exists_run (M := machine) (C := fun _ _ => True)
    (P := fun _ s => (s.timer.expire = 1050 ∧ s.clock = 100) ∧ s.started = true ∧
      s.timer.stopFlag = false ∧ s.clock < s.timer.expire ∧ s.stale = false)
    [.start 100 .timer 0, .tick 50, .start 1000 .timer 0, .tick 100, .fire 0, .isExpire 0]
    fresh_initial (by decide +kernel)
  obtain ⟨tr, s, h, hs, h₁, h₂, h₃, h₄⟩ := hr
  exact ⟨tr, s, h, hs.1, hs.2, stimer_law h h₁ h₂ h₃ h₄⟩

/-- Started, not stopped, not over, and no registration in time. -/
def Unarmed (s : TimerOwner) : Prop :=
  s.started = true ∧ s.timer.stopFlag = false ∧ s.clock < s.timer.expire ∧
    ∀ x ∈ s.pending, s.timer.expire < x.deadline

instance (s : TimerOwner) : Decidable s.Unarmed := inferInstanceAs (Decidable (_ ∧ _ ∧ _ ∧ _))

/-- After a registration has fired there is none until the owner asks, and `wait` looks at
the clock once more. A timer that is stopped and started again may have none at all, and
one that is asked late has one that is too late. -/
theorem stimer_unarmed :
    (∃ tr s, machine.Run tr s ∧ s.pending = [] ∧ s.woken = true ∧ s.Unarmed) ∧
    (∃ tr s, machine.Run tr s ∧ s.pending = [⟨101, 1, .timer⟩] ∧ s.timer.expire = 100 ∧
      s.Unarmed) ∧
    (∃ tr s, machine.Run tr s ∧ s.pending = [] ∧ s.woken = false ∧ s.Unarmed) ∧
    ∃ tr s, machine.Run tr s ∧ s.pending = [⟨1100, 0, .timer⟩] ∧ s.timer.expire = 1050 ∧
      s.Unarmed := by
  refine ⟨?_, ?_, ?_, ?_⟩
  · exact Machine.exists_run (M := machine) (C := fun _ _ => True)
      [.start 100 .timer 0, .tick 50, .start 1000 .timer 0, .tick 100, .fire 0]
      fresh_initial (by decide +kernel)
  · exact Machine.exists_run (M := machine) (C := fun _ _ => True)
      [.start 100 .timer 1] fresh_initial (by decide +kernel)
  · exact Machine.exists_run (M := machine) (C := fun _ _ => True)
      [.start 100 .timer 0, .tick 10, .stop true, .tick 20, .start 200 .timer 0]
      fresh_initial (by decide +kernel)
  · exact Machine.exists_run (M := machine) (C := fun _ _ => True)
      [.start 100 .timer 0, .tick 50, .start 1000 .timer 0, .tick 150, .fire 0, .isExpire 0]
      fresh_initial (by decide +kernel)

end TimerOwner

end TinyState
