import TinyState.Lib.CallerAborts
import TinyState.Js.PigData

/-!
# pigSync

`sync` evaluates its body again whenever a terminal changes that an evaluation of the body
has read outside of the environment of the body. The terminal calls `i_syncEventHandler`,
which sets a flag and queues an event; the flag is looked at when an evaluation is over.
-/

namespace TinyState.Js

open Transition Caller

variable {θ : Type} [DecidableEq θ]

-- ---------------------------------------------------------------------------
-- Model
-- ---------------------------------------------------------------------------

inductive PigSync.State
  | INI_TINYSTATE_START
  | ACT_START_WAIT
  | ACT_EVENT_WAIT
  | ZOM
deriving DecidableEq

/-- `ev` is the event with which `ACT_START_WAIT` has still to be called; while the body is
being made the terminals may change. `listening` are the terminals that have the object in
their `listenerList`, and `removed` those that have been destroyed. -/
structure PigSync (θ : Type) where
  i_state : PigSync.State
  i_wakeup_flag : Bool
  i_abort : Bool
  callFunc : Option Nat
  i_syncTerminal : List θ
  ev : Option (Input PigData Unit)
  listening : List θ
  removed : List θ
deriving DecidableEq

/-- What is done to the object by method calls: an evaluation reads a terminal, which may
have a host, and a terminal is updated or destroyed. -/
inductive SyncPoke (θ : Type)
  | read (term : θ) (hosted : Bool)
  | update (term : θ)
  | destroy (term : θ)
deriving DecidableEq

namespace PigSync

abbrev Result (θ : Type) := PigSync θ × List (Effect Unit PigData)

def i_syncEventHandler (s : PigSync θ) : PigSync θ × List Unit :=
  if s.i_state = .ZOM then (s, [])
  else if s.i_wakeup_flag then (s, [])
  else ({ s with i_wakeup_flag := true }, [()])

/-- What a terminal that changes does with this one of its listeners. -/
def notify (s : PigSync θ) (term : θ) : PigSync θ × List Unit :=
  if term ∈ s.listening then s.i_syncEventHandler else (s, [])

/-- `term.listen(this,..)`, and whether it gives a handle. -/
def listen (s : PigSync θ) (term : θ) (hosted : Bool) : PigSync θ × Bool :=
  if term ∈ s.removed then (s, false)
  else if hosted = false then (s, false)
  else if term ∈ s.listening then (s, true)
  else ({ s with listening := term :: s.listening }, true)

/-- `own` are the terminals inside of the environment of the body. -/
def set (own : θ → Bool) (s : PigSync θ) (term : θ) (hosted : Bool) : PigSync θ :=
  if term ∈ s.i_syncTerminal then s
  else if own term then s
  else
    match s.listen term hosted with
    | (s, false) => s
    | (s, true) => { s with i_syncTerminal := term :: s.i_syncTerminal }

def poke (own : θ → Bool) (running : List Nat) (s : PigSync θ) :
    SyncPoke θ → Option (PigSync θ × List Unit)
  | .read term hosted =>
    if running = [] then none
    else if s.i_state = .ZOM then some (s, [])
    else some (s.set own term hosted, [])
  | .update term => if term ∈ s.removed then some (s, []) else some (s.notify term)
  | .destroy term =>
    if term ∈ s.removed then some (s, [])
    else
      some ({ (s.notify term).1 with
        listening := s.listening.filter (· ≠ term)
        removed := term :: s.removed }, (s.notify term).2)

def FIN_START (s : PigSync θ) (ret : PigData) : Result θ :=
  ({ s with
      listening := s.listening.filter fun term => term ∉ s.i_syncTerminal
      i_syncTerminal := []
      callFunc := none
      i_state := .ZOM }, [.send ret])

def ACT_START (n : Nat) (s : PigSync θ) (ev : Input PigData Unit) : Result θ :=
  ({ s with callFunc := some n, i_state := .ACT_START_WAIT, ev := some ev }, [.launch ()])

def INI_TINYSTATE_START (n : Nat) (s : PigSync θ) (ev : Input PigData Unit) : Result θ :=
  s.ACT_START n ev

def ACT_EVENT_WAIT (n : Nat) (s : PigSync θ) : Input PigData Unit → Result θ
  | .abort => s.FIN_START (.errorOf "aborted")
  | ev =>
    if s.i_wakeup_flag then ACT_START n { s with i_wakeup_flag := false } ev
    else ({ s with i_state := .ACT_EVENT_WAIT }, [])

def ACT_START_WAIT (n : Nat) (s : PigSync θ) : Input PigData Unit → Result θ
  | .abort => ({ s with i_abort := true }, s.callFunc.toList.map .forward)
  | .ret k msg =>
    if msg.errorText = some "EOF" then s.FIN_START (.string "EOF")
    else if s.i_abort then FIN_START { s with callFunc := none } (.errorOf "aborted")
    else ACT_EVENT_WAIT n { s with callFunc := none } (.ret k msg)
  | _ => (s, [])

def handle (n : Nat) (s : PigSync θ) (ev : Input PigData Unit) : Result θ :=
  match s.i_state with
  | .INI_TINYSTATE_START => s.INI_TINYSTATE_START n ev
  | .ACT_START_WAIT => s.ACT_START_WAIT n ev
  | .ACT_EVENT_WAIT => s.ACT_EVENT_WAIT n ev
  | .ZOM => (s, [])

def work (n : Nat) (s : PigSync θ) : Option (Result θ) :=
  s.ev.map fun ev => ACT_START_WAIT n { s with ev := none } ev

def code (own : θ → Bool) : Code (PigSync θ) Unit PigData Unit (SyncPoke θ) where
  start :=
    { i_state := .INI_TINYSTATE_START, i_wakeup_flag := false, i_abort := false, callFunc := none
      i_syncTerminal := [], ev := none, listening := [], removed := [] }
  ended s := s.i_state = .ZOM
  handle := handle
  work := work
  poke := poke own

end PigSync

namespace PigSync

-- ---------------------------------------------------------------------------
-- The calls
-- ---------------------------------------------------------------------------

variable {own : θ → Bool} {n : Nat} {s t : PigSync θ} {ev : Input PigData Unit} {msg : PigData}

abbrev SyncSys (θ : Type) := Sys (PigSync θ) PigData Unit
abbrev SyncAct (θ : Type) := Act PigData Unit (SyncPoke θ)
abbrev SyncObs (θ : Type) := Obs Unit PigData Unit (SyncPoke θ)

/-- No notification has come since the evaluation was started when its return is taken, or
the object ends. -/
def Still (s : SyncSys θ) : SyncAct θ → Prop
  | .take =>
    match s.queue with
    | .ret _ msg :: _ =>
      msg.errorText = some "EOF" ∨ s.obj.i_abort = true ∨ s.obj.i_wakeup_flag = false
    | _ => True
  | _ => True

instance (s : SyncSys θ) (a : SyncAct θ) : Decidable (Still s a) := by
  unfold Still
  split
  · split <;> infer_instance
  · infer_instance

omit [DecidableEq θ] in
theorem Still.ret {s : SyncSys θ} {k : Nat} {msg : PigData} {q : List (Input PigData Unit)}
    (h : Still s .take) (hq : s.queue = .ret k msg :: q) :
    msg.errorText = some "EOF" ∨ s.obj.i_abort = true ∨ s.obj.i_wakeup_flag = false := by
  unfold Still at h
  rw [hq] at h
  exact h

def waits (s : PigSync θ) : List Nat :=
  match s.i_state with
  | .ACT_START_WAIT => [s.callFunc.getD 0]
  | _ => []

/-- `ACT_START_WAIT` has still to be called with no event that it acts on, and an abort is
remembered. -/
structure Inv (ab : Bool) (s : PigSync θ) : Prop where
  begun : s.i_state ≠ .INI_TINYSTATE_START
  idle : ∀ ev ∈ s.ev, s.i_state = .ACT_START_WAIT ∧ ev.returned = none ∧ ev.isAbort = false
  remembers : ab = true → s.i_state = .ZOM ∨ s.i_state = .ACT_START_WAIT ∧ s.i_abort = true

@[simp] theorem over_iff : (code own).ended s = true ↔ s.i_state = .ZOM := decide_eq_true_iff

theorem over_false (h : s.i_state ≠ .ZOM) : (code own).ended s = false :=
  decide_eq_false h

theorem FIN_START_fits {ab : Bool} (hev : s.ev = none) :
    Fits (code own) Inv waits ab n [] (s.FIN_START msg) where
  inv := by
    refine ⟨nofun, fun ev h => ?_, fun _ => .inl rfl⟩
    rw [FIN_START, hev] at h
    cases h
  waits := .refl _
  sends := rfl

theorem ACT_START_fits (hr : ev.returned = none) (ha : ev.isAbort = false) :
    Fits (code own) Inv waits false n [] (s.ACT_START n ev) where
  inv := by
    refine ⟨nofun, fun e he => ?_, nofun⟩
    cases he
    exact ⟨rfl, hr, ha⟩
  waits := .refl _
  sends := rfl

theorem stay_fits {ab : Bool} {k : Nat} (hi : Inv ab s) (ho : s.i_state ≠ .ZOM)
    (ha : ev.isAbort = false) : Fits (code own) Inv waits (ab || ev.isAbort) k s.waits (s, []) where
  inv := by
    rw [ha, Bool.or_false]
    exact hi
  waits := .of_eq (List.append_nil _).symm
  sends := by
    rw [over_false ho]
    rfl

theorem woken_fits {k : Nat} (hev : s.ev = none)
    (hr : ev.returned = none) (ha : ev.isAbort = false) :
    Fits (code own) Inv waits false k [] (if s.i_wakeup_flag then
      ACT_START k { s with i_wakeup_flag := false } ev
      else ({ s with i_state := .ACT_EVENT_WAIT }, [])) := by
  split
  · exact ACT_START_fits hr ha
  · refine ⟨⟨nofun, fun e he => ?_, nofun⟩, .refl _, rfl⟩
    rw [hev] at he
    cases he

/-- What the object makes of an event while an evaluation is running. -/
theorem ACT_START_WAIT_fits {s : SyncSys θ} {i : Input PigData Unit} {q : List (Input PigData Unit)}
    (h : Sound (code own) Inv waits s) (hi : Inv s.aborted s.obj) (hev : s.obj.ev = none)
    (hact : s.obj.i_state = .ACT_START_WAIT) (hq : s.queue = i :: q) (hstill : Still s .take) :
    Fits (code own) Inv waits (s.aborted || i.isAbort) s.started (i.settle s.obj.waits)
      (s.obj.ACT_START_WAIT s.started i) := by
  have hwaits : s.obj.waits = [s.obj.callFunc.getD 0] := by
    rw [waits, hact]
  cases i with
  | abort =>
    refine ⟨⟨?_, ?_, fun _ => .inr ⟨hact, rfl⟩⟩, ?_, ?_⟩
    · exact hi.begun
    · exact hi.idle
    · rw [ACT_START_WAIT, launches_forward]
      exact .of_eq (List.append_nil _).symm
    · rw [ACT_START_WAIT, sends_forward, over_false (by rw [hact]; rintro ⟨⟩)]
      rfl
  | ret k msg =>
    have hk : k = s.obj.callFunc.getD 0 := List.mem_singleton.mp (hwaits ▸ h.mem hq)
    have hsettle : (Input.ret k msg : Input PigData Unit).settle s.obj.waits = [] := by
      rw [hwaits, ← hk]
      simp [Input.settle, Input.returned]
    rw [hsettle]
    simp only [ACT_START_WAIT]
    split
    · exact FIN_START_fits hev
    · next heof =>
      split
      · exact FIN_START_fits hev
      · next hab =>
        have hflag := ((hstill.ret hq).resolve_left heof).resolve_left hab
        simp only [ACT_EVENT_WAIT, hflag]
        refine ⟨⟨(fun h => by cases h), fun ev h => ?_, fun haborted => ?_⟩, .refl _, rfl⟩
        · rw [hev] at h
          cases h
        · have haborted' : (s.aborted || false) = true := haborted
          rw [Bool.or_false] at haborted'
          rcases hi.remembers haborted' with hz | ⟨-, hr⟩
          · rw [hact] at hz
            cases hz
          · exact absurd hr hab
  | initial =>
    have ho : s.obj.i_state ≠ .ZOM := by
      rw [hact]
      rintro ⟨⟩
    exact stay_fits hi ho rfl
  | note u =>
    have ho : s.obj.i_state ≠ .ZOM := by
      rw [hact]
      rintro ⟨⟩
    exact stay_fits hi ho rfl

/-- What the object makes of an event while no evaluation is running. -/
theorem ACT_EVENT_WAIT_fits {s : SyncSys θ} {i : Input PigData Unit}
    (hi : Inv s.aborted s.obj) (hev : s.obj.ev = none) (hact : s.obj.i_state = .ACT_EVENT_WAIT)
    (hr : i.returned = none) :
    Fits (code own) Inv waits (s.aborted || i.isAbort) s.started (i.settle s.obj.waits)
      (s.obj.ACT_EVENT_WAIT s.started i) := by
  have hwaits : s.obj.waits = [] := by
    rw [waits, hact]
  have hsettle : i.settle s.obj.waits = [] := by
    rw [Input.settle, hr]
    exact hwaits
  have haborted : s.aborted = false := by
    cases hab : s.aborted with
    | false => rfl
    | true =>
      rcases hi.remembers hab with hz | ⟨hz, -⟩ <;> (rw [hact] at hz; cases hz)
  rw [hsettle, haborted]
  cases i with
  | ret k msg => cases hr
  | abort => exact FIN_START_fits hev
  | initial => exact woken_fits hev rfl rfl
  | note u => exact woken_fits hev rfl rfl

/-- A method leaves the state and the evaluation as they are, and raises the flag at most. -/
structure Frame (s t : PigSync θ) : Prop where
  i_state : t.i_state = s.i_state
  ev : t.ev = s.ev
  i_abort : t.i_abort = s.i_abort
  callFunc : t.callFunc = s.callFunc
  flag : s.i_wakeup_flag = true → t.i_wakeup_flag = true

omit [DecidableEq θ] in
theorem Frame.refl : Frame s s := ⟨rfl, rfl, rfl, rfl, id⟩

omit [DecidableEq θ] in
theorem i_syncEventHandler_frame : Frame s s.i_syncEventHandler.1 := by
  unfold i_syncEventHandler
  split
  · exact .refl
  · split
    · exact .refl
    · exact ⟨rfl, rfl, rfl, rfl, fun _ => rfl⟩

theorem listen_frame {term : θ} {hosted : Bool} : Frame s (s.listen term hosted).1 := by
  unfold listen
  split
  · exact .refl
  · split
    · exact .refl
    · split
      · exact .refl
      · exact ⟨rfl, rfl, rfl, rfl, id⟩

theorem set_frame {term : θ} {hosted : Bool} : Frame s (s.set own term hosted) := by
  unfold set
  split
  · exact .refl
  · split
    · exact .refl
    · have hf : Frame s (s.listen term hosted).1 := listen_frame
      split
      · next t he =>
        rw [he] at hf
        exact hf
      · next t he =>
        rw [he] at hf
        exact ⟨hf.i_state, hf.ev, hf.i_abort, hf.callFunc, hf.flag⟩

theorem notify_frame {term : θ} : Frame s (s.notify term).1 := by
  unfold notify
  split
  · exact i_syncEventHandler_frame
  · exact .refl

/-- The terminal whose change is told to those who listen. -/
def notifies : SyncPoke θ → Option θ
  | .update term => some term
  | .destroy term => some term
  | .read .. => none

inductive PokeCases (own : θ → Bool) (s : PigSync θ) :
    SyncPoke θ → PigSync θ → List Unit → Prop
  | late {term : θ} {hosted : Bool} : s.i_state = .ZOM → PokeCases own s (.read term hosted) s []
  | read {term : θ} {hosted : Bool} : s.i_state ≠ .ZOM →
      PokeCases own s (.read term hosted) (s.set own term hosted) []
  | gone {p : SyncPoke θ} {term : θ} : notifies p = some term → term ∈ s.removed →
      PokeCases own s p s []
  | update {term : θ} : term ∉ s.removed →
      PokeCases own s (.update term) (s.notify term).1 (s.notify term).2
  | destroy {term : θ} : term ∉ s.removed →
      PokeCases own s (.destroy term)
        { (s.notify term).1 with
          listening := s.listening.filter (· ≠ term)
          removed := term :: s.removed } (s.notify term).2

theorem poke_cases {l : List Nat} {p : SyncPoke θ} {ns : List Unit}
    (h : s.poke own l p = some (t, ns)) : PokeCases own s p t ns := by
  cases p with
  | read term hosted =>
    simp only [poke] at h
    split at h
    · cases h
    · split at h
      · next hz =>
        cases h
        exact .late hz
      · next hz =>
        cases h
        exact .read hz
  | update term =>
    simp only [poke] at h
    split at h
    · next hr =>
      cases h
      exact .gone rfl hr
    · next hr =>
      obtain ⟨rfl, rfl⟩ := Prod.ext_iff.mp (Option.some.inj h)
      exact .update hr
  | destroy term =>
    simp only [poke] at h
    split at h
    · next hr =>
      cases h
      exact .gone rfl hr
    · next hr =>
      cases h
      exact .destroy hr

theorem poke_frame {l : List Nat} {p : SyncPoke θ} {ns : List Unit}
    (h : s.poke own l p = some (t, ns)) : Frame s t := by
  cases poke_cases h with
  | late _ => exact .refl
  | read _ => exact set_frame
  | gone _ _ => exact .refl
  | update _ => exact notify_frame
  | destroy _ =>
    rename_i term _
    have hf : Frame s (s.notify term).1 := notify_frame
    exact ⟨hf.i_state, hf.ev, hf.i_abort, hf.callFunc, hf.flag⟩

omit [DecidableEq θ] in
theorem Frame.inv {ab : Bool} (h : Frame s t) (hi : Inv ab s) : Inv ab t where
  begun := h.i_state ▸ hi.begun
  idle := by
    rw [h.i_state, h.ev]
    exact hi.idle
  remembers := by
    rw [h.i_state, h.i_abort]
    exact hi.remembers

theorem ACT_START_WAIT_other (hr : ev.returned = none) (ha : ev.isAbort = false) :
    s.ACT_START_WAIT n ev = (s, []) := by
  cases ev with
  | ret k msg => cases hr
  | abort => cases ha
  | initial => rfl
  | note u => rfl

theorem lawful : Lawful (code own) Still Inv waits where
  start := ⟨rfl, rfl, rfl⟩
  ended s ho := by
    have hz := over_iff.mp ho
    rw [waits, hz]
  first _ := ACT_START_fits rfl rfl
  handle := by
    intro s i q h hi hover hni hq ha hwork
    have hev : s.obj.ev = none := Option.map_eq_none_iff.mp hwork
    have hstate := Bool.eq_false_iff.mp hover
    cases hact : s.obj.i_state with
    | INI_TINYSTATE_START => exact absurd hact hi.begun
    | ACT_START_WAIT =>
      have he : (code own).handle s.started s.obj i = s.obj.ACT_START_WAIT s.started i := by
        simp only [code, handle, hact]
      rw [he]
      exact ACT_START_WAIT_fits h hi hev hact hq ha
    | ACT_EVENT_WAIT =>
      have he : (code own).handle s.started s.obj i = s.obj.ACT_EVENT_WAIT s.started i := by
        simp only [code, handle, hact]
      rw [he]
      refine ACT_EVENT_WAIT_fits hi hev hact ?_
      cases i with
      | ret k msg =>
        have hk := h.mem hq
        rw [waits, hact] at hk
        cases hk
      | initial => rfl
      | abort => rfl
      | note u => rfl
    | ZOM => exact absurd (over_iff.mpr hact) hstate
  work := by
    intro s r h hi _ hr
    obtain ⟨ev, hev, rfl⟩ := Option.map_eq_some_iff.mp hr
    obtain ⟨hact, hret, hab⟩ := hi.idle ev hev
    have hne : s.obj.i_state ≠ .ZOM := by
      rw [hact]
      nofun
    rw [ACT_START_WAIT_other hret hab]
    refine ⟨over_false hne, ⟨hi.begun, nofun, hi.remembers⟩, .of_eq (List.append_nil _).symm, ?_⟩
    have hover : (code own).ended s.obj = false := over_false hne
    exact congrArg Bool.toNat hover.symm
  poke := by
    intro ab l obj p obj' ns hi hp
    have hf := poke_frame hp
    refine ⟨hf.inv hi, ?_, ?_⟩
    · rw [waits, waits, hf.i_state, hf.callFunc]
    · exact congrArg (fun x => decide (x = State.ZOM)) hf.i_state

-- ---------------------------------------------------------------------------
-- What a step does
-- ---------------------------------------------------------------------------

/-- The terminals and their handles are as they were. -/
structure SameTerms (s t : PigSync θ) : Prop where
  listening : t.listening = s.listening
  i_syncTerminal : t.i_syncTerminal = s.i_syncTerminal
  removed : t.removed = s.removed

/-- The cases of a step, in a run in which no notification comes too early. -/
inductive Moves (own : θ → Bool) (s t : SyncSys θ) : List (SyncObs θ) → Prop
  | told {os : List (SyncObs θ)} : t.obj = s.obj → t.started = s.started →
      s.queue <+: t.queue → (∀ o ∈ os, ∃ k m, o = .returned k m) → Moves own s t os
  | poked {p : SyncPoke θ} {ns : List Unit} : s.obj.poke own s.running p = some (t.obj, ns) →
      t.started = s.started → (s.obj.i_state ≠ .ZOM → t.queue = s.queue ++ ns.map .note) →
      Moves own s t [.poked p]
  | starts {i : Input PigData Unit} : i.returned = none → i ≠ .abort →
      s.obj.i_state ≠ .ACT_START_WAIT → s.obj.i_state ≠ .ZOM →
      t.obj.i_state = .ACT_START_WAIT → t.obj.callFunc = some s.started →
      t.started = s.started + 1 → SameTerms s.obj t.obj →
      Moves own s t [.took i, .launched s.started ()]
  | aborts : s.obj.i_state = .ACT_EVENT_WAIT → t.obj.i_state = .ZOM → t.started = s.started →
      t.obj.removed = s.obj.removed →
      Moves own s t [.took .abort, .sent (.errorOf "aborted")]
  | ends {k : Nat} {m msg : PigData} : s.obj.i_state = .ACT_START_WAIT → k = s.obj.callFunc.getD 0 →
      t.obj.i_state = .ZOM → t.started = s.started → t.obj.removed = s.obj.removed →
      (m.errorText = some "EOF" → msg = .string "EOF") →
      Moves own s t [.took (.ret k m), .sent msg]
  | returns {k : Nat} {m : PigData} : s.obj.i_state = .ACT_START_WAIT →
      k = s.obj.callFunc.getD 0 → m.errorText ≠ some "EOF" → t.obj.i_state = .ACT_EVENT_WAIT →
      s.obj.i_wakeup_flag = false → t.obj.i_wakeup_flag = false → t.started = s.started →
      SameTerms s.obj t.obj →
      Moves own s t [.took (.ret k m)]
  | passes {ks : List Nat} : s.obj.i_state = .ACT_START_WAIT →
      t.obj = { s.obj with i_abort := true } → t.started = s.started →
      Moves own s t (.took .abort :: ks.map .forwarded)
  | skips {i : Input PigData Unit} : i.returned = none → t.obj = s.obj → t.started = s.started →
      (s.obj.i_state = .ACT_EVENT_WAIT → s.obj.i_wakeup_flag = false) →
      Moves own s t [.took i]
  | works : s.obj.i_state = .ACT_START_WAIT → t.obj = { s.obj with ev := none } →
      t.started = s.started → t.queue = s.queue → Moves own s t []

omit [DecidableEq θ] in
theorem observe_forward {l : List Nat} :
    (observe n (l.map .forward) : List (SyncObs θ)) = l.map .forwarded := by
  induction l with
  | nil => rfl
  | cons k l ih => exact congrArg _ ih

theorem wait_moves {s : SyncSys θ} {i : Input PigData Unit} {q q' : List (Input PigData Unit)}
    {ab : Bool} (h : Sound (code own) Inv waits s) (ha : Still s .take) (hq : s.queue = i :: q)
    (hact : s.obj.i_state = .ACT_START_WAIT) :
    Moves own s ((code own).perform { s with queue := q', aborted := ab }
      (s.obj.ACT_START_WAIT s.started i))
      (.took i :: observe s.started (s.obj.ACT_START_WAIT s.started i).2) := by
  have hstay : s.obj.i_state = .ACT_EVENT_WAIT → s.obj.i_wakeup_flag = false := fun h => by
    rw [hact] at h
    cases h
  cases i with
  | initial => exact .skips rfl rfl rfl hstay
  | note u => exact .skips rfl rfl rfl hstay
  | abort =>
    have ho : observe s.started (s.obj.ACT_START_WAIT s.started .abort).2 =
        (s.obj.callFunc.toList.map .forwarded : List (SyncObs θ)) := observe_forward
    rw [ho]
    exact .passes hact rfl (by simp [Code.perform, ACT_START_WAIT, launches_forward])
  | ret k m =>
    have hk : k = s.obj.callFunc.getD 0 := by
      have hmem := h.mem hq
      rw [waits, hact] at hmem
      exact List.mem_singleton.mp hmem
    by_cases heof : m.errorText = some "EOF"
    · simp only [ACT_START_WAIT, if_pos heof]
      exact .ends hact hk rfl rfl rfl fun _ => rfl
    · by_cases hab : s.obj.i_abort = true
      · simp only [ACT_START_WAIT, if_neg heof, if_pos hab]
        exact .ends hact hk rfl rfl rfl fun h => absurd h heof
      · have hflag := ((ha.ret hq).resolve_left heof).resolve_left hab
        simp only [ACT_START_WAIT, if_neg heof, if_neg hab, ACT_EVENT_WAIT, hflag]
        exact .returns hact hk heof rfl hflag rfl rfl ⟨rfl, rfl, rfl⟩

theorem event_moves {s : SyncSys θ} {i : Input PigData Unit} {q' : List (Input PigData Unit)}
    {ab : Bool} (hact : s.obj.i_state = .ACT_EVENT_WAIT) (hr : i.returned = none) :
    Moves own s ((code own).perform { s with queue := q', aborted := ab }
      (s.obj.ACT_EVENT_WAIT s.started i))
      (.took i :: observe s.started (s.obj.ACT_EVENT_WAIT s.started i).2) := by
  have hwake : ∀ i : Input PigData Unit, i.returned = none → i ≠ .abort →
      s.obj.ACT_EVENT_WAIT s.started i = (if s.obj.i_wakeup_flag then
        ACT_START s.started { s.obj with i_wakeup_flag := false } i
        else ({ s.obj with i_state := .ACT_EVENT_WAIT }, [])) := by
    intro i hr ha
    cases i with
    | ret k m => cases hr
    | abort => exact absurd rfl ha
    | initial => rfl
    | note u => rfl
  by_cases ha : i = .abort
  · subst ha
    exact .aborts hact rfl rfl rfl
  · rw [hwake i hr ha]
    cases hflag : s.obj.i_wakeup_flag with
    | true =>
      refine .starts hr ha ?_ ?_ rfl rfl rfl ⟨rfl, rfl, rfl⟩ <;> (rw [hact]; nofun)
    | false =>
      refine .skips hr ?_ rfl fun _ => hflag
      simp [Code.perform, ← hact]

theorem took_moves {s : SyncSys θ} {i : Input PigData Unit} {q : List (Input PigData Unit)}
    (h : Sound (code own) Inv waits s) (ha : Still s .take) (hq : s.queue = i :: q)
    (hwork : (code own).work s.started s.obj = none) :
    Moves own s ((code own).perform { s with queue := q, aborted := s.aborted || i.isAbort }
      ((code own).handle s.started s.obj i))
      (.took i :: observe s.started ((code own).handle s.started s.obj i).2) := by
  have hover : s.obj.i_state ≠ .ZOM := of_decide_eq_false (h.not_over hq)
  cases hact : s.obj.i_state with
  | INI_TINYSTATE_START =>
    rcases h.begun with rfl | ⟨-, hi⟩
    · obtain ⟨rfl, rfl⟩ := List.cons.inj hq
      exact .starts rfl nofun nofun nofun rfl rfl rfl ⟨rfl, rfl, rfl⟩
    · exact absurd hact hi.begun
  | ACT_START_WAIT =>
    have he : (code own).handle s.started s.obj i = s.obj.ACT_START_WAIT s.started i := by
      simp only [code, handle, hact]
    rw [he]
    exact wait_moves h ha hq hact
  | ACT_EVENT_WAIT =>
    have he : (code own).handle s.started s.obj i = s.obj.ACT_EVENT_WAIT s.started i := by
      simp only [code, handle, hact]
    rw [he]
    refine event_moves hact ?_
    cases i with
    | ret k m =>
      have hk := h.mem hq
      rw [waits, hact] at hk
      cases hk
    | initial => rfl
    | abort => rfl
    | note u => rfl
  | ZOM => exact absurd hact hover

theorem moves {s t : SyncSys θ} {a : SyncAct θ} {os : List (SyncObs θ)}
    (h : Sound (code own) Inv waits s) (ha : Still s a) (hs : (code own).step s a = some (t, os)) :
    Moves own s t os := by
  cases step_cases hs with
  | told _ ht =>
    rcases ht.how with ⟨ho, hos⟩ | ⟨p, ns, hp, rfl, hq⟩
    · refine .told ho ht.started ?_ hos
      cases hover : (code own).ended t.obj with
      | false => exact ht.queue hover
      | true =>
        rw [h.ended (ho ▸ hover)]
        exact List.nil_prefix
    · refine .poked hp ht.started fun hz => ?_
      have hover : (code own).ended t.obj = false := over_false ((poke_frame hp).i_state ▸ hz)
      rw [hq, if_neg (Bool.eq_false_iff.mp hover)]
  | took hwork hq => exact took_moves h ha hq hwork
  | worked hr =>
    have hi : Inv s.aborted s.obj := by
      rcases h.begun with rfl | ⟨-, hi⟩
      · cases hr
      · exact hi
    obtain ⟨ev, hev, rfl⟩ := Option.map_eq_some_iff.mp hr
    obtain ⟨hact, hret, hab⟩ := hi.idle ev hev
    rw [ACT_START_WAIT_other hret hab]
    refine .works hact rfl rfl (perform_queue (c := code own) (over_false ?_))
    exact fun hz => nomatch hact.symm.trans hz

-- ---------------------------------------------------------------------------
-- Runs
-- ---------------------------------------------------------------------------

/-- The start of an evaluation, or that its return is taken. -/
def turn? : SyncObs θ → Option (Nat × Bool)
  | .launched k _ => some (k, false)
  | .took (.ret k _) => some (k, true)
  | _ => none

/-- `n` evaluations, the return of each being taken before the next is started. -/
def turns (n : Nat) : List (Nat × Bool) := (List.range n).flatMap fun k => [(k, false), (k, true)]

omit [DecidableEq θ] in
theorem turns_succ : turns (n + 1) = turns n ++ [(n, false)] ++ [(n, true)] := by
  simp [turns, List.range_succ, List.flatMap_append]

/-- An evaluation has read the terminal, which has a host, is outside, and still exists. -/
structure Listened (own : θ → Bool) (term : θ) (tr : List (SyncObs θ)) : Prop where
  outside : own term = false
  read : .poked (.read term true) ∈ tr
  alive : .poked (.destroy term) ∉ tr

section Terminals

variable {l : List Nat} {p : SyncPoke θ} {ns : List Unit} {term : θ}

omit [DecidableEq θ] in
theorem handler_terms : SameTerms s s.i_syncEventHandler.1 := by
  unfold i_syncEventHandler
  split
  · exact ⟨rfl, rfl, rfl⟩
  · split <;> exact ⟨rfl, rfl, rfl⟩

omit [DecidableEq θ] in
theorem handler_flag (hz : s.i_state ≠ .ZOM) : s.i_syncEventHandler.1.i_wakeup_flag = true := by
  unfold i_syncEventHandler
  rw [if_neg hz]
  split
  · assumption
  · rfl

theorem listen_terms (s : PigSync θ) (term : θ) (hosted : Bool) :
    (s.listen term hosted).1.removed = s.removed ∧
      (s.listen term hosted).1.i_syncTerminal = s.i_syncTerminal ∧
      (∀ x ∈ s.listening, x ∈ (s.listen term hosted).1.listening) ∧
      ((s.listen term hosted).2 = true → term ∈ (s.listen term hosted).1.listening) := by
  unfold listen
  split
  · exact ⟨rfl, rfl, fun _ => id, nofun⟩
  · split
    · exact ⟨rfl, rfl, fun _ => id, nofun⟩
    · split
      · next hl => exact ⟨rfl, rfl, fun _ => id, fun _ => hl⟩
      · exact ⟨rfl, rfl, fun _ => List.mem_cons_of_mem _, fun _ => List.mem_cons_self⟩

theorem listen_handle (hr : term ∉ s.removed) : (s.listen term true).2 = true := by
  unfold listen
  rw [if_neg hr, if_neg nofun]
  split <;> rfl

/-- Each handle is that of a terminal that is listened to, or of one that has been destroyed. -/
def Handles (s : PigSync θ) : Prop := ∀ x ∈ s.i_syncTerminal, x ∈ s.listening ∨ x ∈ s.removed

theorem set_terms {hosted : Bool} (s : PigSync θ) :
    (s.set own term hosted).removed = s.removed ∧
      (∀ x ∈ s.listening, x ∈ (s.set own term hosted).listening) ∧
      (s.Handles → (s.set own term hosted).Handles) := by
  obtain ⟨hr, ht, hl, hh⟩ := s.listen_terms term hosted
  unfold set
  split
  · exact ⟨rfl, fun _ => id, id⟩
  · split
    · exact ⟨rfl, fun _ => id, id⟩
    · split
      · next t he =>
        rw [he] at hr ht hl
        exact ⟨hr, hl, fun h x hx => (h x (ht ▸ hx)).imp (hl x) (hr ▸ id)⟩
      · next t he =>
        rw [he] at hr ht hl hh
        refine ⟨hr, hl, fun h x hx => ?_⟩
        rcases List.mem_cons.mp hx with rfl | hx
        · exact .inl (hh rfl)
        · exact (h x (ht ▸ hx)).imp (hl x) (hr ▸ id)

/-- A terminal that has been read, and has not been destroyed, is listened to. -/
theorem set_listening (ho : own term = false) (hr : term ∉ s.removed) (h : s.Handles) :
    term ∈ (s.set own term true).listening := by
  obtain ⟨-, -, -, hh⟩ := s.listen_terms term true
  have hhandle := listen_handle hr
  unfold set
  split
  · next hm => exact (h term hm).resolve_right hr
  · rw [if_neg (by rw [ho]; nofun)]
    split
    · next t he =>
      rw [he] at hhandle
      cases hhandle
    · next t he =>
      rw [he] at hh
      exact hh rfl

theorem set_flag {hosted : Bool} (s : PigSync θ) :
    (s.set own term hosted).i_wakeup_flag = s.i_wakeup_flag := by
  have hl : (s.listen term hosted).1.i_wakeup_flag = s.i_wakeup_flag := by
    unfold listen
    split
    · rfl
    · split
      · rfl
      · split <;> rfl
  unfold set
  split
  · rfl
  · split
    · rfl
    · split
      · next t he =>
        rw [he] at hl
        exact hl
      · next t he =>
        rw [he] at hl
        exact hl

theorem notify_terms : SameTerms s (s.notify term).1 := by
  unfold notify
  split
  · exact handler_terms
  · exact ⟨rfl, rfl, rfl⟩

theorem poke_removed (h : s.poke own l p = some (t, ns)) (x : θ) :
    x ∈ t.removed ↔ x ∈ s.removed ∨ p = .destroy x := by
  cases poke_cases h with
  | late _ => simp
  | read _ => simp [set_terms]
  | @gone p term hp hr =>
    refine ⟨.inl, fun hx => hx.elim id ?_⟩
    rintro rfl
    cases hp
    exact hr
  | update _ =>
    rw [notify_terms.removed]
    simp
  | destroy _ => simp [eq_comm, or_comm]

theorem poke_handles (h : s.poke own l p = some (t, ns)) (hh : s.Handles) : t.Handles := by
  cases poke_cases h with
  | late _ => exact hh
  | read _ => exact (set_terms s).2.2 hh
  | gone _ _ => exact hh
  | update _ =>
    intro x hx
    rw [notify_terms.i_syncTerminal] at hx
    rw [notify_terms.listening, notify_terms.removed]
    exact hh x hx
  | @destroy term _ =>
    intro x hx
    have hsame : SameTerms s (s.notify term).1 := notify_terms
    have hx : x ∈ s.i_syncTerminal := hsame.i_syncTerminal ▸ hx
    by_cases he : x = term
    · exact .inr (he ▸ List.mem_cons_self)
    · refine (hh x hx).imp (fun hl => ?_) (List.mem_cons_of_mem _)
      exact List.mem_filter.mpr ⟨hl, decide_eq_true he⟩

theorem poke_listening (h : s.poke own l p = some (t, ns)) (hx : term ∈ s.listening)
    (hp : p ≠ .destroy term) : term ∈ t.listening := by
  cases poke_cases h with
  | late _ => exact hx
  | read _ => exact (set_terms s).2.1 term hx
  | gone _ _ => exact hx
  | update _ => rwa [notify_terms.listening]
  | @destroy x _ =>
    refine List.mem_filter.mpr ⟨hx, decide_eq_true ?_⟩
    rintro rfl
    exact hp rfl

theorem poke_read (h : s.poke own l (.read term true) = some (t, ns)) (hz : s.i_state ≠ .ZOM)
    (ho : own term = false) (hr : term ∉ s.removed) (hh : s.Handles) : term ∈ t.listening := by
  cases poke_cases h with
  | late hl => exact absurd hl hz
  | read _ => exact set_listening ho hr hh
  | gone hp _ => cases hp

/-- A change of a terminal that is listened to raises the flag. -/
theorem poke_notifies (h : s.poke own l p = some (t, ns)) (hz : s.i_state ≠ .ZOM)
    (hp : notifies p = some term) (hl : term ∈ s.listening) (hr : term ∉ s.removed) :
    t.i_wakeup_flag = true := by
  have hnotify : (s.notify term).1.i_wakeup_flag = true := by
    rw [notify, if_pos hl]
    exact handler_flag hz
  cases poke_cases h with
  | late _ => cases hp
  | read _ => cases hp
  | gone hp' hr' =>
    rw [hp] at hp'
    cases hp'
    exact absurd hr' hr
  | update _ =>
    cases hp
    exact hnotify
  | destroy _ =>
    cases hp
    exact hnotify

theorem notify_wakes (hf : (s.notify term).1.i_wakeup_flag = true) :
    s.i_wakeup_flag = true ∨ (s.notify term).2 ≠ [] := by
  unfold notify i_syncEventHandler at *
  split at hf
  · split at hf
    · exact .inl hf
    · split at hf
      · exact .inl hf
      · next hl hz hw => exact .inr (by rw [if_pos hl, if_neg hz, if_neg hw]; nofun)
  · exact .inl hf

/-- When the flag is raised an event is queued. -/
theorem poke_wakes (h : s.poke own l p = some (t, ns)) (hf : t.i_wakeup_flag = true) :
    s.i_wakeup_flag = true ∨ ns ≠ [] := by
  cases poke_cases h with
  | late _ => exact .inl hf
  | read _ => exact .inl ((set_flag s).symm.trans hf)
  | gone _ _ => exact .inl hf
  | update _ => exact notify_wakes hf
  | destroy _ => exact notify_wakes hf

end Terminals

section Turns

variable {s t : SyncSys θ} {l : List (Nat × Bool)} {k : Nat}

/-- The evaluations have been started and have returned in turn, the last of them having
not returned if the object waits for it. -/
def InTurn (s : SyncSys θ) (l : List (Nat × Bool)) : Prop :=
  (s.obj.i_state = .ACT_START_WAIT ∧ ∃ j, s.started = j + 1 ∧ s.obj.callFunc = some j ∧
    l = turns j ++ [(j, false)]) ∨
  s.obj.i_state ≠ .ACT_START_WAIT ∧ l = turns s.started

omit [DecidableEq θ]

theorem InTurn.same (h : InTurn s l) (hst : t.obj.i_state = s.obj.i_state)
    (hcf : t.obj.callFunc = s.obj.callFunc) (hn : t.started = s.started) : InTurn t l := by
  unfold InTurn
  rw [hst, hcf, hn]
  exact h

theorem InTurn.starts (h : InTurn s l) (hs : s.obj.i_state ≠ .ACT_START_WAIT)
    (ht : t.obj.i_state = .ACT_START_WAIT) (hcf : t.obj.callFunc = some s.started)
    (hn : t.started = s.started + 1) : InTurn t (l ++ [(s.started, false)]) := by
  rcases h with ⟨hact, -⟩ | ⟨-, rfl⟩
  · exact absurd hact hs
  · exact .inl ⟨ht, s.started, hn, hcf, rfl⟩

theorem InTurn.returns (h : InTurn s l) (hs : s.obj.i_state = .ACT_START_WAIT)
    (hk : k = s.obj.callFunc.getD 0) (ht : t.obj.i_state ≠ .ACT_START_WAIT)
    (hn : t.started = s.started) : InTurn t (l ++ [(k, true)]) := by
  rcases h with ⟨-, j, hj, hcf, rfl⟩ | ⟨hne, -⟩
  · refine .inr ⟨ht, ?_⟩
    rw [hk, hcf, hn, hj, turns_succ]
    rfl
  · exact absurd hs hne

theorem InTurn.leaves (h : InTurn s l) (hs : s.obj.i_state ≠ .ACT_START_WAIT)
    (ht : t.obj.i_state ≠ .ACT_START_WAIT) (hn : t.started = s.started) : InTurn t l := by
  rcases h with ⟨hact, -⟩ | ⟨-, hl⟩
  · exact absurd hact hs
  · exact .inr ⟨ht, hn ▸ hl⟩

end Turns

/-- What holds of every run in which no notification comes too early. -/
structure Recorded (own : θ → Bool) (tr : List (SyncObs θ)) (s : SyncSys θ) : Prop where
  sound : Sound (code own) Inv waits s
  inTurn : InTurn s (tr.filterMap turn?)
  eof : ∀ before k m after, tr = before ++ .took (.ret k m) :: after →
    m.errorText = some "EOF" → ∃ rest, after = .sent (.string "EOF") :: rest
  removed : ∀ term, term ∈ s.obj.removed ↔ .poked (.destroy term) ∈ tr
  handles : s.obj.i_state ≠ .ZOM → s.obj.Handles
  listening : s.obj.i_state ≠ .ZOM → ∀ term, Listened own term tr → term ∈ s.obj.listening
  woken : s.obj.i_state = .ACT_EVENT_WAIT → s.obj.i_wakeup_flag = true → s.queue ≠ []
  notified : ∀ before p after term, tr = before ++ .poked p :: after → notifies p = some term →
    Listened own term before →
    (∃ k, .launched k () ∈ after) ∨ s.obj.i_wakeup_flag = true ∨ s.obj.i_state = .ZOM

section Step

variable {s t : SyncSys θ} {os tr : List (SyncObs θ)}

omit [DecidableEq θ] in
theorem told_turns (hos : ∀ o ∈ os, ∃ k m, o = .returned k m) : os.filterMap turn? = [] := by
  refine List.filterMap_eq_nil_iff.mpr fun o ho => ?_
  obtain ⟨k, m, rfl⟩ := hos o ho
  rfl

theorem Moves.inTurn (h : Moves own s t os) (hr : Recorded own tr s) :
    InTurn t ((tr ++ os).filterMap turn?) := by
  rw [List.filterMap_append]
  cases h with
  | told ho hn _ hos =>
    rw [told_turns hos, List.append_nil]
    exact hr.inTurn.same (by rw [ho]) (by rw [ho]) hn
  | poked hp hn _ =>
    rw [List.filterMap_cons_none rfl, List.filterMap_nil, List.append_nil]
    exact hr.inTurn.same (poke_frame hp).i_state (poke_frame hp).callFunc hn
  | @starts i hi _ hact _ hact' hcf hn _ =>
    have hos : [.took i, .launched s.started ()].filterMap (turn? (θ := θ)) =
        [(s.started, false)] := by
      cases i with
      | ret k m => cases hi
      | _ => rfl
    rw [hos]
    exact hr.inTurn.starts hact hact' hcf hn
  | aborts hact hz hn _ =>
    refine (List.append_nil (tr.filterMap turn?)).symm ▸ hr.inTurn.leaves ?_ ?_ hn
    · rw [hact]
      nofun
    · rw [hz]
      nofun
  | ends hact hk hz hn _ _ => exact hr.inTurn.returns hact hk (by rw [hz]; nofun) hn
  | returns hact hk _ hw _ _ hn _ => exact hr.inTurn.returns hact hk (by rw [hw]; nofun) hn
  | @passes ks hact ho hn =>
    have hos : (.took .abort :: ks.map .forwarded).filterMap (turn? (θ := θ)) = [] := by
      rw [List.filterMap_cons_none rfl]
      refine List.filterMap_eq_nil_iff.mpr fun o ho => ?_
      obtain ⟨k, -, rfl⟩ := List.mem_map.mp ho
      rfl
    rw [hos, List.append_nil]
    exact hr.inTurn.same (by rw [ho]) (by rw [ho]) hn
  | @skips i hi ho hn _ =>
    have hos : [.took i].filterMap (turn? (θ := θ)) = [] := by
      cases i with
      | ret k m => cases hi
      | _ => rfl
    rw [hos, List.append_nil]
    exact hr.inTurn.same (by rw [ho]) (by rw [ho]) hn
  | works hact ho hn _ =>
    rw [List.filterMap_nil, List.append_nil]
    exact hr.inTurn.same (by rw [ho]) (by rw [ho]) hn

/-- A step in which no method is called. -/
structure Unpoked (s t : SyncSys θ) (os : List (SyncObs θ)) : Prop where
  obs : ∀ p, .poked p ∉ os
  removed : t.obj.removed = s.obj.removed
  terms : t.obj.i_state ≠ .ZOM → SameTerms s.obj t.obj
  ended : s.obj.i_state = .ZOM → t.obj.i_state = .ZOM
  flag : s.obj.i_wakeup_flag = true →
    (∃ k, .launched k () ∈ os) ∨ t.obj.i_wakeup_flag = true ∨ t.obj.i_state = .ZOM

omit [DecidableEq θ] in
theorem Unpoked.same (h : t.obj = s.obj) (hos : ∀ p, .poked p ∉ os) : Unpoked s t os where
  obs := hos
  removed := by rw [h]
  terms _ := by
    rw [h]
    exact ⟨rfl, rfl, rfl⟩
  ended hz := by rwa [h]
  flag hf := .inr (.inl (by rwa [h]))

theorem Moves.unpoked (h : Moves own s t os) :
    (∃ p ns, os = [.poked p] ∧ s.obj.poke own s.running p = some (t.obj, ns) ∧
      (s.obj.i_state ≠ .ZOM → t.queue = s.queue ++ ns.map .note)) ∨ Unpoked s t os := by
  cases h with
  | told ho hn _ hos =>
    refine .inr (.same ho fun p hp => ?_)
    obtain ⟨k, m, he⟩ := hos _ hp
    cases he
  | @poked p ns hp hn hq => exact .inl ⟨p, ns, rfl, hp, hq⟩
  | starts hi _ hact hz hact' hcf hn hsame =>
    refine .inr ⟨fun p => by simp, hsame.removed, fun _ => hsame, fun h => absurd h hz, fun _ => ?_⟩
    exact .inl ⟨s.started, List.mem_cons_of_mem _ List.mem_cons_self⟩
  | aborts hact hz hn hr =>
    exact .inr ⟨fun p => by simp, hr, fun h => absurd hz h, fun _ => hz, fun _ => .inr (.inr hz)⟩
  | ends hact hk hz hn hr _ =>
    exact .inr ⟨fun p => by simp, hr, fun h => absurd hz h, fun _ => hz, fun _ => .inr (.inr hz)⟩
  | returns hact hk _ hw hflag _ hn hsame =>
    refine .inr ⟨fun p => by simp, hsame.removed, fun _ => hsame, fun h => ?_, fun h => ?_⟩
    · rw [hact] at h
      cases h
    · rw [hflag] at h
      cases h
  | passes hact ho hn =>
    refine .inr ⟨fun p => by simp, by rw [ho], fun _ => by rw [ho]; exact ⟨rfl, rfl, rfl⟩,
      fun h => by rwa [ho], fun h => .inr (.inl (by rwa [ho]))⟩
  | skips hi ho hn _ => exact .inr (.same ho fun p => by simp)
  | works hact ho hn _ =>
    refine .inr ⟨nofun, by rw [ho], fun _ => by rw [ho]; exact ⟨rfl, rfl, rfl⟩,
      fun h => by rwa [ho], fun h => .inr (.inl (by rwa [ho]))⟩

theorem Moves.eof (h : Moves own s t os) (hr : Recorded own tr s) :
    ∀ before k m after, tr ++ os = before ++ Obs.took (.ret k m) :: after →
      m.errorText = some "EOF" → ∃ rest, after = .sent (.string "EOF") :: rest := by
  intro before k m after he heof
  rcases Machine.append_eq_cons he with ⟨mid, htr, rfl⟩ | ⟨mid, hos, -⟩
  · obtain ⟨rest, rfl⟩ := hr.eof before k m mid htr heof
    exact ⟨rest ++ os, rfl⟩
  · have hmem : .took (.ret k m) ∈ os := hos ▸ List.mem_append_right _ List.mem_cons_self
    cases h with
    | told ho hn _ h =>
      obtain ⟨_, _, he⟩ := h _ hmem
      cases he
    | poked hp hn _ => simp at hmem
    | starts hi => 
      simp at hmem
      rw [← hmem] at hi
      cases hi
    | aborts => simp at hmem
    | ends hact hk hz hn _ hm =>
      cases mid with
      | nil =>
        obtain ⟨hhead, htail⟩ := List.cons.inj hos
        obtain ⟨-, rfl⟩ := Input.ret.inj (Obs.took.inj hhead)
        exact ⟨[], by rw [← htail, hm heof]⟩
      | cons o mid =>
        have htail := (List.cons.inj hos).2
        rcases List.append_eq_singleton_iff.mp htail.symm with ⟨-, he⟩ | ⟨-, he⟩
        · cases he
        · cases he
    | returns hact hk hne =>
      obtain ⟨rfl, rfl⟩ : k = _ ∧ m = _ := by simpa using hmem
      exact absurd heof hne
    | passes => simp at hmem
    | skips hi =>
      simp at hmem
      rw [← hmem] at hi
      cases hi
    | works => cases hmem

theorem Moves.recorded (h : Moves own s t os) (hr : Recorded own tr s)
    (ht : Sound (code own) Inv waits t) : Recorded own (tr ++ os) t where
  sound := ht
  inTurn := h.inTurn hr
  eof := h.eof hr
  removed := by
    intro term
    rw [List.mem_append, ← hr.removed]
    rcases h.unpoked with ⟨p, ns, rfl, hp, -⟩ | hu
    · rw [poke_removed hp]
      simp [eq_comm]
    · rw [hu.removed, or_iff_left (hu.obs _)]
  handles := by
    intro hz
    rcases h.unpoked with ⟨p, ns, rfl, hp, -⟩ | hu
    · exact poke_handles hp (hr.handles ((poke_frame hp).i_state ▸ hz))
    · have hsame := hu.terms hz
      intro x hx
      rw [hsame.i_syncTerminal] at hx
      rw [hsame.listening, hsame.removed]
      exact hr.handles (fun h => hz (hu.ended h)) x hx
  listening := by
    intro hz term hl
    rcases h.unpoked with ⟨p, ns, rfl, hp, -⟩ | hu
    · have hzs : s.obj.i_state ≠ .ZOM := (poke_frame hp).i_state ▸ hz
      have halive : term ∉ s.obj.removed := fun hm =>
        hl.alive (List.mem_append_left _ ((hr.removed term).mp hm))
      rcases List.mem_append.mp hl.read with hread | hread
      · have hold : Listened own term tr :=
          ⟨hl.outside, hread, fun h => hl.alive (List.mem_append_left _ h)⟩
        refine poke_listening hp (hr.listening hzs term hold) ?_
        rintro rfl
        exact hl.alive (List.mem_append_right _ List.mem_cons_self)
      · obtain rfl := Obs.poked.inj (List.mem_singleton.mp hread)
        exact poke_read hp hzs hl.outside halive (hr.handles hzs)
    · rw [(hu.terms hz).listening]
      refine hr.listening (fun h => hz (hu.ended h)) term ⟨hl.outside, ?_, fun h => ?_⟩
      · exact (List.mem_append.mp hl.read).resolve_right (hu.obs _)
      · exact hl.alive (List.mem_append_left _ h)
  woken := by
    intro hw hf
    cases h with
    | told ho hn hq _ =>
      have hne := hr.woken (by rwa [← ho]) (by rwa [← ho])
      exact List.ne_nil_of_length_pos
        (Nat.lt_of_lt_of_le (List.length_pos_of_ne_nil hne) hq.length_le)
    | @poked p ns hp hn hq =>
      have hws := (poke_frame hp).i_state.symm.trans hw
      rw [hq (by rw [hws]; nofun)]
      rcases poke_wakes hp hf with hold | hns
      · exact List.append_ne_nil_of_left_ne_nil (hr.woken hws hold) _
      · exact List.append_ne_nil_of_right_ne_nil _ (by simpa using hns)
    | starts _ _ _ _ hact => exact nomatch hact.symm.trans hw
    | aborts _ hz => exact nomatch hz.symm.trans hw
    | ends _ _ hz => exact nomatch hz.symm.trans hw
    | returns _ _ _ _ _ hflag => exact nomatch hflag.symm.trans hf
    | passes hact ho =>
      rw [ho] at hw
      exact nomatch hact.symm.trans hw
    | skips _ ho _ hflag =>
      rw [ho] at hw hf
      exact nomatch (hflag hw).symm.trans hf
    | works hact ho =>
      rw [ho] at hw
      exact nomatch hact.symm.trans hw
  notified := by
    intro before p after term he hp hl
    rcases Machine.append_eq_cons he with ⟨mid, htr, rfl⟩ | ⟨mid, hos, rfl⟩
    · -- an old notification
      rcases hr.notified before p mid term htr hp hl with ⟨k, hk⟩ | hf | hz
      · exact .inl ⟨k, List.mem_append_left _ hk⟩
      · rcases h.unpoked with ⟨p, ns, rfl, hp, -⟩ | hu
        · exact .inr (.inl ((poke_frame hp).flag hf))
        · exact (hu.flag hf).imp_left fun ⟨k, hk⟩ => ⟨k, List.mem_append_right _ hk⟩
      · rcases h.unpoked with ⟨p, ns, rfl, hp, -⟩ | hu
        · exact .inr (.inr ((poke_frame hp).i_state.trans hz))
        · exact .inr (.inr (hu.ended hz))
    · -- a new one
      rcases h.unpoked with ⟨p', ns, rfl, hp', -⟩ | hu
      · obtain ⟨rfl, hp₁, -⟩ : mid = [] ∧ p' = p ∧ after = [] := by
          rcases List.append_eq_singleton_iff.mp hos.symm with ⟨hm, hc⟩ | ⟨-, hc⟩
          · obtain ⟨h₁, h₂⟩ := List.cons.inj hc
            exact ⟨hm, (Obs.poked.inj h₁).symm, h₂⟩
          · cases hc
        subst hp₁
        rw [List.append_nil] at hl
        by_cases hz : s.obj.i_state = .ZOM
        · exact .inr (.inr ((poke_frame hp').i_state.trans hz))
        · refine .inr (.inl (poke_notifies hp' hz hp (hr.listening hz term hl) fun hm => ?_))
          exact hl.alive ((hr.removed term).mp hm)
      · exact absurd (hos ▸ List.mem_append_right _ List.mem_cons_self) (hu.obs p)

end Step

theorem run_recorded {s : SyncSys θ} {tr : List (SyncObs θ)}
    (h : (code own).machine.RunIf Still tr s) : Recorded own tr s := by
  refine h.invariant (I := Recorded own) ?start ?step
  case start =>
    rintro s rfl
    have hnil : ∀ {before after : List (SyncObs θ)} {o : SyncObs θ}, [] ≠ before ++ o :: after :=
      fun h => absurd h.symm (List.append_ne_nil_of_right_ne_nil _ nofun)
    refine ⟨.initial lawful, .inr ⟨nofun, rfl⟩, ?_, fun _ => ⟨nofun, nofun⟩, fun _ => nofun, ?_,
      nofun, ?_⟩
    · exact fun _ _ _ _ h => (hnil h).elim
    · exact fun _ _ h => nomatch h.read
    · exact fun _ _ _ _ h => (hnil h).elim
  case step =>
    rintro tr s a t os - h ha hs
    exact (moves h.sound ha hs).recorded h (lawful.step h.sound ha hs)

section Law

variable {s t : SyncSys θ} {os tr : List (SyncObs θ)}

/-- One evaluation at a time, each started when the return of the one before has been acted
on; a notification is followed by an evaluation unless the object ends; the result is sent
once, when no evaluation is running. -/
structure SyncLaw (own : θ → Bool) (tr : List (SyncObs θ)) (s : SyncSys θ) : Prop where
  alone : s.running.length ≤ 1
  inTurn : ∃ n, tr.filterMap turn? = turns n ∨ tr.filterMap turn? = turns n ++ [(n, false)]
  eof : ∀ before k m after, tr = before ++ .took (.ret k m) :: after →
    m.errorText = some "EOF" → ∃ rest, after = .sent (.string "EOF") :: rest
  notified : ∀ before p after term, tr = before ++ .poked p :: after → notifies p = some term →
    Listened own term before → s.running = [] → s.queue = [] →
    (∃ k, .launched k () ∈ after) ∨ (tr.filterMap Obs.sent?).length = 1
  once : (tr.filterMap Obs.sent?).length ≤ 1
  idle : tr.filterMap Obs.sent? ≠ [] → s.running = []
  answers : .took .abort ∈ tr → s.running = [] → s.queue = [] →
    (tr.filterMap Obs.sent?).length = 1

omit [DecidableEq θ] in
theorem waits_le (s : PigSync θ) : s.waits.length ≤ 1 := by
  unfold waits
  split
  · exact Nat.le_refl 1
  · exact Nat.zero_le 1

/-- When nothing is running or queued the object waits for notifications or is over. -/
theorem Recorded.quiet (h : Recorded own tr s) (hrun : s.running = []) (hq : s.queue = []) :
    s.obj.i_state = .ACT_EVENT_WAIT ∨ s.obj.i_state = .ZOM := by
  have hnil : s.obj.waits = [] := by
    have ho := h.sound.open_
    rw [Sys.opened, hrun, hq] at ho
    exact ho.symm.eq_nil
  cases hact : s.obj.i_state with
  | INI_TINYSTATE_START =>
    rcases h.sound.begun with rfl | ⟨-, hi⟩
    · cases hq
    · exact absurd hact hi.begun
  | ACT_START_WAIT =>
    rw [waits, hact] at hnil
    cases hnil
  | ACT_EVENT_WAIT => exact .inl rfl
  | ZOM => exact .inr rfl

theorem sent_of_zom (h : (code own).machine.RunIf Still tr s) (hz : s.obj.i_state = .ZOM) :
    (tr.filterMap Obs.sent?).length = 1 := by
  rw [lawful.sent h, over_iff.mpr hz]
  rfl

theorem run_law (h : (code own).machine.RunIf Still tr s) : SyncLaw own tr s := by
  have hr := run_recorded h
  have hsent := lawful.sent h
  refine ⟨?_, ?_, hr.eof, ?_, ?_, ?_, ?_⟩
  · refine Nat.le_trans ?_ (waits_le s.obj)
    rw [← hr.sound.open_.length_eq, Sys.opened, List.length_append]
    exact Nat.le_add_right _ _
  · rcases hr.inTurn with ⟨-, j, -, -, ht⟩ | ⟨-, ht⟩
    · exact ⟨j, .inr ht⟩
    · exact ⟨s.started, .inl ht⟩
  · intro before p after term he hp hl hrun hq
    rcases hr.notified before p after term he hp hl with hk | hf | hz
    · exact .inl hk
    · rcases hr.quiet hrun hq with hw | hz
      · exact absurd hq (hr.woken hw hf)
      · exact .inr (sent_of_zom h hz)
    · exact .inr (sent_of_zom h hz)
  · rw [hsent]
    exact Bool.toNat_le _
  · intro hne
    cases ho : (code own).ended s.obj with
    | false =>
      rw [ho] at hsent
      exact absurd (List.eq_nil_of_length_eq_zero hsent) hne
    | true =>
      have hopen := hr.sound.open_
      rw [lawful.ended s.obj ho] at hopen
      exact (List.append_eq_nil_iff.mp hopen.eq_nil).1
  · intro htook hrun hq
    refine sent_of_zom h ((hr.quiet hrun hq).resolve_left fun hw => ?_)
    have hab := (heard_run h).mp htook
    rcases (hr.sound.made hab).remembers hab with hz | ⟨hz, -⟩
    · cases hw.symm.trans hz
    · cases hw.symm.trans hz

/-- The return of an evaluation ends the object, or no notification has come. -/
theorem Moves.took_ret {k : Nat} {m : PigData} (h : Moves own s t os)
    (hm : .took (.ret k m) ∈ os) : (∃ msg, .sent msg ∈ os) ∨
      s.obj.i_wakeup_flag = false ∧ t.obj.i_state = .ACT_EVENT_WAIT := by
  cases h with
  | told ho hn _ h =>
    obtain ⟨_, _, he⟩ := h _ hm
    cases he
  | poked => simp at hm
  | starts hi =>
    simp at hm
    rw [← hm] at hi
    cases hi
  | aborts => simp at hm
  | ends => exact .inl ⟨_, List.mem_cons_of_mem _ List.mem_cons_self⟩
  | returns hact hk hne hw hflag => exact .inr ⟨hflag, hw⟩
  | passes => simp at hm
  | skips hi =>
    simp at hm
    rw [← hm] at hi
    cases hi
  | works => cases hm

/-- Whatever is taken while the flag is raised and no evaluation is running ends the object
or starts an evaluation. -/
theorem Moves.took_woken {i : Input PigData Unit} (h : Moves own s t os) (hm : .took i ∈ os)
    (hw : s.obj.i_state = .ACT_EVENT_WAIT) (hf : s.obj.i_wakeup_flag = true) :
    (∃ k, .launched k () ∈ os) ∨ ∃ msg, .sent msg ∈ os := by
  cases h with
  | told ho hn _ h =>
    obtain ⟨_, _, he⟩ := h _ hm
    cases he
  | poked => simp at hm
  | starts => exact .inl ⟨_, List.mem_cons_of_mem _ List.mem_cons_self⟩
  | aborts => exact .inr ⟨_, List.mem_cons_of_mem _ List.mem_cons_self⟩
  | ends => exact .inr ⟨_, List.mem_cons_of_mem _ List.mem_cons_self⟩
  | returns hact => exact nomatch hact.symm.trans hw
  | passes hact => exact nomatch hact.symm.trans hw
  | skips _ _ _ hflag => exact nomatch (hflag hw).symm.trans hf
  | works => cases hm

variable {b : (code own).machine.Behavior}

theorem sent_of_zom_at (hC : ∀ n, Still (b.state n) (b.act n))
    (hz : (b.state n).obj.i_state = .ZOM) : ∃ m msg, .sent msg ∈ b.obs m := by
  refine exists_sent (n := n) fun hnil => ?_
  have hone := sent_of_zom (b.runIf hC n) hz
  rw [hnil] at hone
  cases hone

/-- An evaluation that is running returns, and either the object ends or no notification
has come. -/
theorem returns_at (hb : Fair b) (hC : ∀ n, Still (b.state n) (b.act n))
    (hw : (b.state n).obj.i_state = .ACT_START_WAIT) : ∃ j, n ≤ j ∧
      ((∃ msg, .sent msg ∈ b.obs j) ∨ (b.state j).obj.i_wakeup_flag = false ∧
        (b.state (j + 1)).obj.i_state = .ACT_EVENT_WAIT) := by
  have hr := fun j => run_recorded (b.runIf hC j)
  have hmem : (b.state n).obj.callFunc.getD 0 ∈ (b.state n).opened := by
    refine (hr n).sound.open_.mem_iff.mpr ?_
    rw [waits, hw]
    exact List.mem_singleton_self _
  obtain ⟨j, hj, m, htook⟩ := hb.taken lawful hC hmem
  exact ⟨j, hj, (moves (hr j).sound (hC j) (b.next j)).took_ret htook⟩

/-- In a fair run a notification leads to an evaluation or to the end. -/
theorem notified_at (hb : Fair b) (hC : ∀ n, Still (b.state n) (b.act n)) {p : SyncPoke θ}
    {term : θ} (ha : .poked p ∈ b.obs n) (hp : notifies p = some term)
    (hl : Listened own term (b.trace n)) :
    (∃ m k, n < m ∧ .launched k () ∈ b.obs m) ∨ ∃ m msg, .sent msg ∈ b.obs m := by
  by_contra hno
  obtain ⟨hlaunch, hsent⟩ := not_or.mp hno
  have hr := fun j => run_recorded (b.runIf hC j)
  have hobs : b.obs n = [.poked p] := by
    rcases (moves (hr n).sound (hC n) (b.next n)).unpoked with ⟨p', ns, ho, -⟩ | hu
    · rw [ho] at ha ⊢
      rw [Obs.poked.inj (List.mem_singleton.mp ha)]
    · exact absurd ha (hu.obs p)
  have hzom : ∀ j, (b.state j).obj.i_state ≠ .ZOM := fun j hz => hsent (sent_of_zom_at hC hz)
  -- the flag stays raised, and the object waits for an event
  have hflag : ∀ j, n < j → (b.state j).obj.i_wakeup_flag = true := by
    intro j hj
    obtain ⟨rest, htr, hrest⟩ := b.trace_split hj
    rw [Machine.Behavior.trace, hobs, List.append_assoc] at htr
    rcases (hr j).notified (b.trace n) p rest term htr hp hl with ⟨k, hk⟩ | hf | hz
    · obtain ⟨m, hm, ho⟩ := hrest _ hk
      exact absurd ⟨m, k, hm, ho⟩ hlaunch
    · exact hf
    · exact absurd hz (hzom j)
  have hwait : ∀ j, n < j → (b.state j).obj.i_state = .ACT_EVENT_WAIT := by
    intro j hj
    cases hact : (b.state j).obj.i_state with
    | INI_TINYSTATE_START =>
      rcases (hr j).sound.begun with he | ⟨-, hi⟩
      · have hf := hflag j hj
        rw [he] at hf
        cases hf
      · exact absurd hact hi.begun
    | ACT_START_WAIT =>
      obtain ⟨l, hl, ⟨msg, hm⟩ | ⟨hf, -⟩⟩ := returns_at hb hC hact
      · exact absurd ⟨l, msg, hm⟩ hsent
      · cases hf.symm.trans (hflag l (Nat.lt_of_lt_of_le hj hl))
    | ACT_EVENT_WAIT => rfl
    | ZOM => exact absurd hact (hzom j)
  have hnext := Nat.lt_succ_self n
  obtain ⟨j, hj, hact⟩ := hb.takes (n + 1) ((hr (n + 1)).woken (hwait _ hnext) (hflag _ hnext))
  obtain ⟨i, q, -, htook⟩ := take_head (hact ▸ b.next j)
  rcases (moves (hr j).sound (hC j) (b.next j)).took_woken htook (hwait j hj) (hflag j hj) with
    ⟨k, hk⟩ | ⟨msg, hm⟩
  · exact hlaunch ⟨j, k, hj, hk⟩
  · exact hsent ⟨j, msg, hm⟩

/-- In a fair run an abort is answered. -/
theorem aborted_at (hb : Fair b) (hC : ∀ n, Still (b.state n) (b.act n))
    (ha : .took .abort ∈ b.obs n) : ∃ m msg, .sent msg ∈ b.obs m := by
  by_contra hsent
  have hr := fun j => run_recorded (b.runIf hC j)
  have hwait : ∀ j, n < j → (b.state j).obj.i_state = .ACT_START_WAIT := by
    intro j hj
    have hab := (heard_run (b.runIf hC j)).mp (b.mem_trace ha hj)
    rcases ((hr j).sound.made hab).remembers hab with hz | ⟨hw, -⟩
    · exact absurd (sent_of_zom_at hC hz) hsent
    · exact hw
  obtain ⟨j, hj, ⟨msg, hm⟩ | ⟨-, hw⟩⟩ := returns_at hb hC (hwait (n + 1) (Nat.lt_succ_self n))
  · exact hsent ⟨j, msg, hm⟩
  · exact nomatch hw.symm.trans (hwait (j + 1) (Nat.lt_succ_of_le (Nat.le_of_succ_le hj)))

end Law

end PigSync

open PigSync

/-- The law of `sync`, in every run in which no notification comes between the start of an
evaluation and the taking of its return, unless the object ends then. In fair ones, a
notification leads to an evaluation or to the end, and an abort to the end. -/
theorem sync_law (own : θ → Bool) :
    (∀ tr s, (code own).machine.RunIf Still tr s → SyncLaw own tr s) ∧
    ∀ b : (code own).machine.Behavior, Fair b → (∀ n, Still (b.state n) (b.act n)) →
      (∀ n p term, .poked p ∈ b.obs n → notifies p = some term →
        Listened own term (b.trace n) →
        (∃ m k, n < m ∧ .launched k () ∈ b.obs m) ∨ ∃ m msg, .sent msg ∈ b.obs m) ∧
      ∀ n, .took .abort ∈ b.obs n → ∃ m msg, .sent msg ∈ b.obs m :=
  ⟨fun _ _ h => run_law h, fun _ hb hC =>
    ⟨fun _ _ _ ha hp hl => notified_at hb hC ha hp hl, fun _ ha => aborted_at hb hC ha⟩⟩

/-- The terminal that the first evaluation has read changes, and the second is aborted. -/
def readAndAborted : (code fun _ : Unit => false).machine.Behavior where
  state
    | 0 => (code fun _ => false).initial
    | 1 => ⟨⟨.ACT_START_WAIT, false, false, some 0, [], some .initial, [], []⟩, [], [0], 1, false⟩
    | 2 => ⟨⟨.ACT_START_WAIT, false, false, some 0, [], none, [], []⟩, [], [0], 1, false⟩
    | 3 => ⟨⟨.ACT_START_WAIT, false, false, some 0, [()], none, [()], []⟩, [], [0], 1, false⟩
    | 4 => ⟨⟨.ACT_START_WAIT, false, false, some 0, [()], none, [()], []⟩,
        [.ret 0 (.value true)], [], 1, false⟩
    | 5 => ⟨⟨.ACT_EVENT_WAIT, false, false, none, [()], none, [()], []⟩, [], [], 1, false⟩
    | 6 => ⟨⟨.ACT_EVENT_WAIT, true, false, none, [()], none, [()], []⟩, [.note ()], [], 1, false⟩
    | 7 => ⟨⟨.ACT_START_WAIT, false, false, some 1, [()], some (.note ()), [()], []⟩, [], [1], 2,
        false⟩
    | 8 => ⟨⟨.ACT_START_WAIT, false, false, some 1, [()], none, [()], []⟩, [], [1], 2, false⟩
    | 9 => ⟨⟨.ACT_START_WAIT, false, false, some 1, [()], none, [()], []⟩, [.abort], [1], 2, false⟩
    | 10 => ⟨⟨.ACT_START_WAIT, false, true, some 1, [()], none, [()], []⟩, [], [1], 2, true⟩
    | 11 => ⟨⟨.ACT_START_WAIT, false, true, some 1, [()], none, [()], []⟩,
        [.ret 1 (.errorOf "aborted")], [], 2, true⟩
    | _ + 12 => ⟨⟨.ZOM, false, true, none, [], none, [], []⟩, [], [], 2, true⟩
  act
    | 0 | 4 | 6 | 9 | 11 => .take
    | 1 | 7 => .go
    | 2 => .poke (.read () true)
    | 3 => .ret 0 (.value true)
    | 5 => .poke (.update ())
    | 10 => .ret 1 (.errorOf "aborted")
    | _ => .abort
  obs
    | 0 => [.took .initial, .launched 0 ()]
    | 2 => [.poked (.read () true)]
    | 3 => [.returned 0 (.value true)]
    | 4 => [.took (.ret 0 (.value true))]
    | 5 => [.poked (.update ())]
    | 6 => [.took (.note ()), .launched 1 ()]
    | 9 => [.took .abort, .forwarded 1]
    | 10 => [.returned 1 (.errorOf "aborted")]
    | 11 => [.took (.ret 1 (.errorOf "aborted")), .sent (.errorOf "aborted")]
    | _ => []
  start := rfl
  next
    | 0 | 1 | 2 | 3 | 4 | 5 | 6 | 7 | 8 | 9 | 10 | 11 => by decide
    | _ + 12 => rfl

theorem readAndAborted_fair : Fair readAndAborted where
  returns n k hk := by
    match n with
    | 0 | 4 | 5 | 6 | 11 | _ + 12 => cases hk
    | 1 | 2 | 3 =>
      obtain rfl := List.mem_singleton.mp hk
      exact ⟨3, by decide, _, rfl⟩
    | 7 | 8 | 9 | 10 =>
      obtain rfl := List.mem_singleton.mp hk
      exact ⟨10, by decide, _, rfl⟩
  takes n hq := by
    match n with
    | 0 => exact ⟨0, by decide, rfl⟩
    | 4 => exact ⟨4, by decide, rfl⟩
    | 6 => exact ⟨6, by decide, rfl⟩
    | 9 => exact ⟨9, by decide, rfl⟩
    | 11 => exact ⟨11, by decide, rfl⟩
    | 1 | 2 | 3 | 5 | 7 | 8 | 10 | _ + 12 => exact absurd rfl hq

/-- An evaluation is started for the notification, and ends with the abort. -/
theorem sync_law_read :
    (∃ tr s, (code fun _ : Unit => false).machine.RunIf Still tr s ∧ s.running = [1] ∧
      SyncLaw (fun _ => false) tr s) ∧
    ((∃ m k, 5 < m ∧ .launched k () ∈ readAndAborted.obs m) ∨
      ∃ m msg, .sent msg ∈ readAndAborted.obs m) ∧
    ∃ m msg, .sent msg ∈ readAndAborted.obs m := by
  have hC : ∀ n, Still (readAndAborted.state n) (readAndAborted.act n) := fun n => by
    match n with
    | 0 | 1 | 2 | 3 | 4 | 5 | 6 | 7 | 8 | 9 | 10 | 11 => decide
    | _ + 12 => trivial
  have hfair := (sync_law fun _ : Unit => false).2 readAndAborted readAndAborted_fair hC
  refine ⟨?_, ?_, ?_⟩
  · obtain ⟨tr, s, h, hs⟩ := Machine.exists_run (M := (code fun _ : Unit => false).machine)
      (C := Still) (P := fun _ s => s.running = [1])
      [.take, .go, .poke (.read () true), .ret 0 (.value true), .take, .poke (.update ()), .take,
        .go] rfl (by decide)
    exact ⟨tr, s, h, hs, (sync_law fun _ => false).1 tr s h⟩
  · exact hfair.1 5 (.update ()) () List.mem_cons_self rfl ⟨rfl, by decide, by decide⟩
  · exact hfair.2 9 List.mem_cons_self

/-- A terminal that the evaluation has read changes before its return is taken. Then two
evaluations are running; or the end of file that the second returns is not looked at; or
the result is sent while the second is running. -/
theorem sync_overlaps :
    (∃ tr s, (code fun _ : Unit => false).machine.Run tr s ∧ s.running = [1, 2]) ∧
    (∃ tr s, (code fun _ : Unit => false).machine.Run tr s ∧
      tr.getLast? = some (.took (.ret 1 (.errorOf "EOF"))) ∧ tr.filterMap Obs.sent? = [] ∧
      s.queue = [] ∧ s.running = [] ∧ s.obj.ev = none) ∧
    ∃ tr s, (code fun _ : Unit => false).machine.Run tr s ∧
      tr.filterMap Obs.sent? = [.errorOf "aborted"] ∧ s.running = [1] := by
  refine ⟨?_, ?_, ?_⟩
  · exact Machine.exists_run
      [.take, .go, .poke (.read () true), .poke (.update ()), .ret 0 (.value true), .take, .take,
        .go, .poke (.update ()), .take] rfl (by decide)
  · exact Machine.exists_run
      [.take, .go, .poke (.read () true), .poke (.update ()), .ret 0 (.value true), .take, .take,
        .go, .ret 1 (.errorOf "EOF"), .take] rfl (by decide)
  · exact Machine.exists_run
      [.take, .go, .poke (.read () true), .poke (.update ()), .ret 0 (.value true), .take, .take,
        .go, .abort, .take] rfl (by decide)

end TinyState.Js
