import TinyState.Lib.Machine
import TinyState.Js.Semaphore
import Mathlib.Data.List.Count
import Mathlib.Logic.Function.Basic

/-!
# marshaller

A `marshaller` sets, by its rules, the function that is to run for each of its outputs. The
function is run by an object of its own; one that is running is aborted when another is set, and
an object whose function has returned gives the output free, for which it needs the semaphore
that the marshaller holds while it sets functions. What is set while the object waits for the
semaphore is dropped, and an object that is told to start anew when the return of its function
has come already waits for ever for another one.
-/

namespace TinyState.Js

open Transition

-- ---------------------------------------------------------------------------
-- Model
-- ---------------------------------------------------------------------------

inductive CoPigMarshaller.State
  | ACT_RET
  | ACT_REBOOT_RET
  | FIN_START
  deriving DecidableEq

inductive CoPigMarshaller.Event
  | wakeup
  | ret
  deriving DecidableEq

/-- `callFunc` is the function that is being evaluated, until it returns; `seq` tells the objects
of one output apart. -/
structure CoPigMarshaller (φ : Type) where
  seq : Nat
  i_state : CoPigMarshaller.State
  i_eventQueue : List CoPigMarshaller.Event
  i_func : φ
  i_reboot : Bool
  callFunc : Option φ
  deriving DecidableEq

inductive PigMarshaller.State
  | ACT_SEM
  | ACT_SEM_OK
  | ACT_WAIT
  | FIN_WAIT_RUNNING
  deriving DecidableEq

/-- Who uses the semaphore: the marshaller, the objects of its outputs, and whoever else. -/
inductive MarshallerUser
  | marshaller
  | co (index seq : Nat)
  | other (n : Nat)
  deriving DecidableEq

/-- `fresh` is the number of the next object. -/
structure PigMarshaller (φ : Type) where
  i_state : PigMarshaller.State
  i_running : Nat → Option (CoPigMarshaller φ)
  sem : StdSemaphore MarshallerUser
  fresh : Nat

/-- `hit` is an event of a terminal; the marshaller asks for the semaphore, and asks again when it
is woken. With the semaphore it launches functions. `abort nil` ends it, `nil` being an empty
list. -/
inductive MarshallerAct (φ : Type)
  | hit
  | wakeup
  | launch (index : Nat) (func : φ)
  | release
  | abort (nil : φ)
  | ret (index : Nat)
  | take (index : Nat)
  | otherGet (n : Nat)
  | otherRelease (n : Nat)
  deriving DecidableEq

inductive MarshallerObs (φ : Type)
  | set (index : Nat) (func : φ)
  | started (index : Nat) (func : φ)
  | returned (index : Nat)
  | aborted
  deriving DecidableEq

namespace CoPigMarshaller

variable {φ : Type} [DecidableEq φ]

def push (c : CoPigMarshaller φ) (ev : Event) : CoPigMarshaller φ :=
  { c with i_eventQueue := c.i_eventQueue ++ [ev] }

def set (c : CoPigMarshaller φ) (func : φ) : CoPigMarshaller φ :=
  if c.i_func = func then c
  else
    let c := { c with i_func := func }
    if c.i_reboot then c else { c with i_reboot := true }.push .wakeup

end CoPigMarshaller

namespace PigMarshaller

variable {φ : Type} [DecidableEq φ] (isEmpty : φ → Bool)

abbrev Result (φ : Type) := PigMarshaller φ × List (MarshallerObs φ)

def setCo (s : PigMarshaller φ) (index : Nat) (c : Option (CoPigMarshaller φ)) : PigMarshaller φ :=
  { s with i_running := Function.update s.i_running index c }

/-- The one that `release` wakes. -/
def woken (s : PigMarshaller φ) : Option MarshallerUser :=
  s.sem.i_waitQueue.find? (· ∉ s.sem.callers.ended)

def wake (s : PigMarshaller φ) : Option MarshallerUser → PigMarshaller φ
  | some (.co index seq) =>
    match s.i_running index with
    | some c => if c.seq = seq then s.setCo index (some (c.push .wakeup)) else s
    | none => s
  | _ => s

def releaseSem (s : PigMarshaller φ) (me : MarshallerUser) : PigMarshaller φ :=
  { s with sem := s.sem.release me }.wake s.woken

def i_launch (s : PigMarshaller φ) (index : Nat) (func : φ) : Result φ :=
  match s.i_running index with
  | some c => (s.setCo index (some (c.set func)), [.set index func])
  | none =>
    if isEmpty func then (s, [.set index func])
    else
      ({ s with fresh := s.fresh + 1 }.setCo index
          (some ⟨s.fresh, .ACT_RET, [], func, false, some func⟩),
        [.set index func, .started index func])

/-- `ACT_SEM`. -/
def askSem (s : PigMarshaller φ) : PigMarshaller φ :=
  { s with
    i_state := if s.sem.count = 0 then .ACT_SEM else .ACT_SEM_OK
    sem := s.sem.get .marshaller }

/-- `FIN_START` of the marshaller. -/
def FIN_START (s : PigMarshaller φ) (nil : φ) : PigMarshaller φ :=
  { s with
    i_state := .FIN_WAIT_RUNNING
    i_running := fun index => (s.i_running index).map (·.set nil) }

/-- `FIN_START` of an object, and `FIN_SEM_OK`. -/
def coFIN_START (s : PigMarshaller φ) (index : Nat) (c : CoPigMarshaller φ) : PigMarshaller φ :=
  let me := .co index c.seq
  if s.sem.count = 0 then
    { s with sem := s.sem.get me }.setCo index (some { c with i_state := .FIN_START })
  else
    let s := { s with sem := s.sem.get me }.setCo index none
    let s := s.releaseSem me
    { s with sem := { s.sem with callers := s.sem.callers.finished me } }

def coACT_START (s : PigMarshaller φ) (index : Nat) (c : CoPigMarshaller φ) : Result φ :=
  if isEmpty c.i_func then (s.coFIN_START index c, [])
  else
    (s.setCo index (some { c with i_state := .ACT_RET, callFunc := some c.i_func }),
      [.started index c.i_func])

/-- The object of `index` takes the event `ev`. -/
def coHandle (s : PigMarshaller φ) (index : Nat) (c : CoPigMarshaller φ)
    (ev : CoPigMarshaller.Event) : Result φ :=
  match c.i_state, ev with
  | .ACT_RET, ev =>
    if c.i_reboot then
      (s.setCo index (some { c with i_reboot := false, i_state := .ACT_REBOOT_RET }), [])
    else
      match ev with
      | .wakeup => (s.setCo index (some c), [])
      | .ret => (s.coFIN_START index c, [])
  | .ACT_REBOOT_RET, .wakeup => (s.setCo index (some c), [])
  | .ACT_REBOOT_RET, .ret => s.coACT_START isEmpty index c
  | .FIN_START, _ => (s.coFIN_START index c, [])

def step (s : PigMarshaller φ) : MarshallerAct φ → Option (Result φ)
  | .hit => if s.i_state = .ACT_WAIT then some (s.askSem, []) else none
  | .wakeup => if s.i_state = .ACT_SEM then some (s.askSem, []) else none
  | .launch index func =>
    if s.i_state = .ACT_SEM_OK then some (s.i_launch isEmpty index func) else none
  | .release =>
    if s.i_state = .ACT_SEM_OK then
      some ({ s with i_state := .ACT_WAIT }.releaseSem .marshaller, [])
    else none
  | .abort nil =>
    if (s.i_state = .ACT_WAIT ∨ s.i_state = .ACT_SEM) ∧ isEmpty nil then
      some (s.FIN_START nil, [.aborted])
    else none
  | .ret index =>
    match s.i_running index with
    | some c =>
      if c.callFunc.isSome then
        some (s.setCo index (some ({ c with callFunc := none }.push .ret)), [.returned index])
      else none
    | none => none
  | .take index =>
    match s.i_running index with
    | some c =>
      match c.i_eventQueue with
      | [] => none
      | ev :: evs => some (s.coHandle isEmpty index { c with i_eventQueue := evs } ev)
    | none => none
  | .otherGet n =>
    if .other n ∈ s.sem.callers.holding then none
    else some ({ s with sem := s.sem.get (.other n) }, [])
  | .otherRelease n =>
    if .other n ∈ s.sem.callers.holding then some (s.releaseSem (.other n), []) else none

/-- The rules have been read, and the marshaller asks for the semaphore. -/
def start : PigMarshaller φ where
  i_state := .ACT_SEM
  i_running _ := none
  sem := .initial MarshallerUser 1
  fresh := 0

def machine : Machine (PigMarshaller φ) (MarshallerAct φ) (MarshallerObs φ) where
  init s := s = start
  step := step isEmpty

-- ---------------------------------------------------------------------------
-- The claim
-- ---------------------------------------------------------------------------

/-- The function of `index` that is being evaluated. -/
def evaluating (index : Nat) (tr : List (MarshallerObs φ)) : Option φ :=
  tr.foldl (fun current o =>
    match o with
    | .started i func => if i = index then some func else current
    | .returned i => if i = index then none else current
    | _ => current) none

/-- The function that has been set last for `index` is started after that, if it was not being
evaluated then. -/
def Settled (index : Nat) (tr : List (MarshallerObs φ)) : Prop :=
  ∀ before func after, tr = before ++ .set index func :: after →
    (∀ g, .set index g ∉ after) →
    isEmpty func = true ∨ .started index func ∈ after ∨ evaluating index before = some func

/-- A function that is set is not the one whose evaluation has returned, and it is not set for an
object that waits for the semaphore; and the return of a function is not taken when the object is
to start anew. -/
def Heard (s : PigMarshaller φ) : MarshallerAct φ → Prop
  | .launch index func => ∀ c ∈ s.i_running index,
      isEmpty func = true ∨ c.i_state = .ACT_REBOOT_RET ∨
        c.i_state = .ACT_RET ∧ (c.i_func = func → c.i_reboot = true ∨ c.callFunc ≠ none)
  | .take index => ∀ c ∈ s.i_running index,
      c.i_state = .ACT_RET → c.i_eventQueue.head? = some .ret → c.i_reboot = false
  | _ => True

instance (s : PigMarshaller φ) (a : MarshallerAct φ) : Decidable (Heard isEmpty s a) := by
  cases a <;> unfold Heard <;> infer_instance

/-- Nothing is being evaluated, and there are no events to be handled. -/
def Quiet (s : PigMarshaller φ) : Prop :=
  ∀ index c, s.i_running index = some c → c.callFunc = none ∧ c.i_eventQueue = []

/-- One function at a time is evaluated for an output. -/
def OneAtATime (tr : List (MarshallerObs φ)) : Prop :=
  ∀ before index func after, tr = before ++ .started index func :: after →
    evaluating index before = none

-- ---------------------------------------------------------------------------
-- The history of one output
-- ---------------------------------------------------------------------------

variable {isEmpty : φ → Bool} {s t u : PigMarshaller φ} {tr os : List (MarshallerObs φ)}
  {i j index : Nat} {f func nil : φ} {c c' : CoPigMarshaller φ} {x : Option (CoPigMarshaller φ)}

omit [DecidableEq φ] in
theorem evaluating_append (index : Nat) (tr os : List (MarshallerObs φ)) :
    evaluating index (tr ++ os) = os.foldl (fun current o =>
      match o with
      | .started i func => if i = index then some func else current
      | .returned i => if i = index then none else current
      | _ => current) (evaluating index tr) := List.foldl_append

def isSet (index : Nat) : MarshallerObs φ → Bool
  | .set i _ => i = index
  | _ => false

omit [DecidableEq φ] in
theorem not_isSet (h : ∀ o ∈ os, isSet index o = false) (g : φ) : .set index g ∉ os := fun hm => by
  have hs := h _ hm
  simp [isSet] at hs

omit [DecidableEq φ] in
/-- What is observed of other things leaves the output settled. -/
theorem Settled.append (h : Settled isEmpty index tr) (hos : ∀ o ∈ os, isSet index o = false) :
    Settled isEmpty index (tr ++ os) := by
  intro before func after he hlast
  rcases Machine.append_eq_cons he with ⟨mid, htr, rfl⟩ | ⟨mid, hmid, -⟩
  · rcases h before func mid htr fun g hg => hlast g (List.mem_append_left _ hg) with h | h | h
    · exact .inl h
    · exact .inr (.inl (List.mem_append_left _ h))
    · exact .inr (.inr h)
  · exact absurd (hmid ▸ List.mem_append_right _ List.mem_cons_self) (not_isSet hos func)

/-- The function that has been set last for `index` is `f`. -/
def LastSet (index : Nat) (f : φ) (tr : List (MarshallerObs φ)) : Prop :=
  ∀ before g after, tr = before ++ .set index g :: after → (∀ k, .set index k ∉ after) → g = f

omit [DecidableEq φ] in
theorem LastSet.append (h : LastSet index f tr) (hos : ∀ o ∈ os, isSet index o = false) :
    LastSet index f (tr ++ os) := by
  intro before g after he hlast
  rcases Machine.append_eq_cons he with ⟨mid, htr, rfl⟩ | ⟨mid, hmid, -⟩
  · exact h before g mid htr fun k hk => hlast k (List.mem_append_left _ hk)
  · exact absurd (hmid ▸ List.mem_append_right _ List.mem_cons_self) (not_isSet hos g)

omit [DecidableEq φ] in
/-- When `f` is set it is what has been set last. -/
theorem set_last (hos : ∀ o ∈ os, isSet index o = false) {before after : List (MarshallerObs φ)}
    {g : φ}
    (he : tr ++ MarshallerObs.set index f :: os = before ++ MarshallerObs.set index g :: after)
    (hlast : ∀ k, .set index k ∉ after) : before = tr ∧ g = f ∧ after = os := by
  rcases Machine.append_eq_cons he with ⟨mid, -, rfl⟩ | ⟨mid, hmid, rfl⟩
  · exact absurd (List.mem_append_right _ List.mem_cons_self) (hlast f)
  · cases mid with
    | nil =>
      obtain ⟨hg, rfl⟩ := List.cons.inj hmid
      cases hg
      exact ⟨List.append_nil _, rfl, rfl⟩
    | cons o mid =>
      have hm : .set index g ∈ os := by
        rw [(List.cons.inj hmid).2]
        exact List.mem_append_right _ List.mem_cons_self
      exact absurd hm (not_isSet hos g)

omit [DecidableEq φ] in
theorem lastSet_set (hos : ∀ o ∈ os, isSet index o = false) :
    LastSet index f (tr ++ MarshallerObs.set index f :: os) :=
  fun _ _ _ he hlast => (set_last hos he hlast).2.1

omit [DecidableEq φ] in
theorem settled_set (hos : ∀ o ∈ os, isSet index o = false)
    (h : isEmpty f = true ∨ .started index f ∈ os ∨ evaluating index tr = some f) :
    Settled isEmpty index (tr ++ MarshallerObs.set index f :: os) := by
  intro before g after he hlast
  obtain ⟨rfl, rfl, rfl⟩ := set_last hos he hlast
  exact h

omit [DecidableEq φ] in
theorem settled_snoc (h : isEmpty f = true ∨ evaluating index tr = some f) :
    Settled isEmpty index (tr ++ [MarshallerObs.set index f]) :=
  settled_set (List.forall_mem_nil _) (h.imp_right .inr)

omit [DecidableEq φ] in
/-- The function that has been set last is started. -/
theorem LastSet.started (h : LastSet index f tr) :
    Settled isEmpty index (tr ++ [MarshallerObs.started index f]) := by
  intro before g after he hlast
  rcases Machine.append_eq_cons he with ⟨mid, htr, rfl⟩ | ⟨mid, hmid, -⟩
  · obtain rfl := h before g mid htr fun k hk => hlast k (List.mem_append_left _ hk)
    exact .inr (.inl (List.mem_append_right _ (List.mem_singleton_self _)))
  · have hm : .set index g ∈ [(.started index f : MarshallerObs φ)] :=
      hmid ▸ List.mem_append_right _ List.mem_cons_self
    cases List.mem_singleton.mp hm

omit [DecidableEq φ] in
/-- An empty function need not be started. -/
theorem LastSet.empty (h : LastSet index f tr) (he : isEmpty f = true) :
    Settled isEmpty index tr := by
  intro before g after htr hlast
  obtain rfl := h before g after htr hlast
  exact .inl he

-- ---------------------------------------------------------------------------
-- What a step does to an output
-- ---------------------------------------------------------------------------

/-- At most one object has been told to look at its state again. -/
def Nudged (s t : PigMarshaller φ) : Prop :=
  ∀ i, t.i_running i = s.i_running i ∨
    ∃ c, s.i_running i = some c ∧ t.i_running i = some (c.push .wakeup)

omit [DecidableEq φ] in
theorem Nudged.refl (h : t.i_running = s.i_running) : Nudged s t := fun i => .inl (by rw [h])

omit [DecidableEq φ] in
theorem nudged_wake (s : PigMarshaller φ) (user : Option MarshallerUser) :
    Nudged s (s.wake user) := by
  unfold wake
  split
  · rename_i index seq
    split
    · rename_i c hc
      split
      · intro i
        by_cases hi : i = index
        · subst hi
          exact .inr ⟨c, hc, Function.update_self ..⟩
        · exact .inl (Function.update_of_ne hi ..)
      · exact .refl rfl
    · exact .refl rfl
  · exact .refl rfl

omit [DecidableEq φ] in
theorem nudged_releaseSem (s : PigMarshaller φ) (me : MarshallerUser) :
    Nudged s (s.releaseSem me) := nudged_wake _ _

/-- What becomes of the object of `index`. -/
inductive Turn (isEmpty : φ → Bool) (index : Nat) : MarshallerAct φ → Option (CoPigMarshaller φ) →
    Option (CoPigMarshaller φ) → List (MarshallerObs φ) → Prop
  | set {c : CoPigMarshaller φ} {f : φ} :
      Turn isEmpty index (.launch index f) (some c) (some (c.set f)) [.set index f]
  | skip {f : φ} : isEmpty f = true →
      Turn isEmpty index (.launch index f) none none [.set index f]
  | launch {f : φ} {seq : Nat} :
      Turn isEmpty index (.launch index f) none (some ⟨seq, .ACT_RET, [], f, false, some f⟩)
        [.set index f, .started index f]
  | ret {c : CoPigMarshaller φ} : c.callFunc.isSome = true →
      Turn isEmpty index (.ret index) (some c) (some ({ c with callFunc := none }.push .ret))
        [.returned index]
  | reboot {c : CoPigMarshaller φ} {ev : CoPigMarshaller.Event}
      {evs : List CoPigMarshaller.Event} : c.i_eventQueue = ev :: evs → c.i_state = .ACT_RET →
      c.i_reboot = true →
      Turn isEmpty index (.take index) (some c)
        (some { c with i_eventQueue := evs, i_reboot := false, i_state := .ACT_REBOOT_RET }) []
  | ignore {c : CoPigMarshaller φ} {evs : List CoPigMarshaller.Event} :
      c.i_eventQueue = .wakeup :: evs → c.i_state ≠ .FIN_START →
      Turn isEmpty index (.take index) (some c) (some { c with i_eventQueue := evs }) []
  | start {c : CoPigMarshaller φ} {evs : List CoPigMarshaller.Event} :
      c.i_eventQueue = .ret :: evs → c.i_state = .ACT_REBOOT_RET →
      Turn isEmpty index (.take index) (some c)
        (some { c with i_eventQueue := evs, i_state := .ACT_RET, callFunc := some c.i_func })
        [.started index c.i_func]
  | fin {c : CoPigMarshaller φ} {ev : CoPigMarshaller.Event} {evs : List CoPigMarshaller.Event}
      {x : Option (CoPigMarshaller φ)} : c.i_eventQueue = ev :: evs →
      (c.i_state = .ACT_RET ∧ c.i_reboot = false ∧ ev = .ret ∨
        c.i_state = .ACT_REBOOT_RET ∧ ev = .ret ∧ isEmpty c.i_func = true ∨
        c.i_state = .FIN_START) →
      x = none ∨ x = some { c with i_eventQueue := evs, i_state := .FIN_START } →
      Turn isEmpty index (.take index) (some c) x []

/-- What a step does: nothing to the outputs, or it ends the marshaller, or it is a turn of one
output. -/
inductive Moves (isEmpty : φ → Bool) (s t : PigMarshaller φ) (a : MarshallerAct φ) :
    List (MarshallerObs φ) → Prop
  | nudged : Nudged s t → Moves isEmpty s t a []
  | aborted {nil : φ} : isEmpty nil = true →
      (∀ i, t.i_running i = (s.i_running i).map (·.set nil)) → Moves isEmpty s t a [.aborted]
  | turn {index : Nat} {x : Option (CoPigMarshaller φ)} {u : PigMarshaller φ}
      {os : List (MarshallerObs φ)} : Turn isEmpty index a (s.i_running index) x os →
      u.i_running = Function.update s.i_running index x → Nudged u t → Moves isEmpty s t a os

omit [DecidableEq φ] in
theorem coFIN_START_moves (s : PigMarshaller φ) (index : Nat) (c : CoPigMarshaller φ) :
    ∃ x u, (x = none ∨ x = some { c with i_state := .FIN_START }) ∧
      u.i_running = Function.update s.i_running index x ∧ Nudged u (s.coFIN_START index c) := by
  unfold coFIN_START
  dsimp only
  split
  · exact ⟨_, _, .inr rfl, rfl, .refl rfl⟩
  · exact ⟨none, _, .inl rfl, rfl, nudged_releaseSem _ _⟩

theorem coHandle_moves {ev : CoPigMarshaller.Event} {evs : List CoPigMarshaller.Event}
    (hc : s.i_running index = some c) (hq : c.i_eventQueue = ev :: evs)
    (h : s.coHandle isEmpty index { c with i_eventQueue := evs } ev = (t, os)) :
    Moves isEmpty s t (.take index) os := by
  have hturn {x : Option (CoPigMarshaller φ)} {u : PigMarshaller φ}
      {os : List (MarshallerObs φ)} (ht : Turn isEmpty index (.take index) (some c) x os)
      (hu : u.i_running = Function.update s.i_running index x) (hn : Nudged u t) :
      Moves isEmpty s t (.take index) os := .turn (hc ▸ ht) hu hn
  have hfin (hos : os = []) (hw : c.i_state = .ACT_RET ∧ c.i_reboot = false ∧ ev = .ret ∨
        c.i_state = .ACT_REBOOT_RET ∧ ev = .ret ∧ isEmpty c.i_func = true ∨
        c.i_state = .FIN_START)
      (he : s.coFIN_START index { c with i_eventQueue := evs } = t) :
      Moves isEmpty s t (.take index) os := by
    obtain ⟨x, u, hx, hu, hn⟩ := coFIN_START_moves s index { c with i_eventQueue := evs }
    rw [hos]
    exact hturn (.fin hq hw hx) hu (he ▸ hn)
  unfold coHandle at h
  dsimp only at h
  split at h
  · rename_i hs
    split at h
    · rename_i hr
      cases h
      exact hturn (.reboot hq hs hr) rfl (.refl rfl)
    · rename_i hr
      split at h
      · cases h
        refine hturn (.ignore hq ?_) rfl (.refl rfl)
        rw [hs]
        nofun
      · obtain ⟨ht, hos⟩ := Prod.mk.inj h
        exact hfin hos.symm (.inl ⟨hs, Bool.eq_false_iff.mpr hr, rfl⟩) ht
  · rename_i hs
    cases h
    refine hturn (.ignore hq ?_) rfl (.refl rfl)
    rw [hs]
    nofun
  · rename_i hs
    unfold coACT_START at h
    split at h
    · rename_i he
      obtain ⟨ht, hos⟩ := Prod.mk.inj h
      exact hfin hos.symm (.inr (.inl ⟨hs, rfl, he⟩)) ht
    · cases h
      exact hturn (.start hq hs) rfl (.refl rfl)
  · rename_i hs
    obtain ⟨ht, hos⟩ := Prod.mk.inj h
    exact hfin hos.symm (.inr (.inr hs)) ht

theorem step_moves {a : MarshallerAct φ} (h : s.step isEmpty a = some (t, os)) :
    Moves isEmpty s t a os := by
  cases a with
  | hit =>
    simp only [step, Option.ite_none_right_eq_some] at h
    cases h.2
    exact .nudged (.refl rfl)
  | wakeup =>
    simp only [step, Option.ite_none_right_eq_some] at h
    cases h.2
    exact .nudged (.refl rfl)
  | launch index func =>
    simp only [step, Option.ite_none_right_eq_some] at h
    obtain ⟨-, h⟩ := h
    unfold i_launch at h
    split at h
    · rename_i c hc
      cases h
      exact .turn (hc ▸ .set) rfl (.refl rfl)
    · rename_i hc
      split at h
      · rename_i he
        cases h
        have hturn : Turn isEmpty index (.launch index func) (s.i_running index) none
            [.set index func] := by
          rw [hc]
          exact .skip he
        refine .turn hturn ?_ (.refl rfl)
        rw [← hc, Function.update_eq_self]
      · cases h
        exact .turn (hc ▸ .launch) rfl (.refl rfl)
  | release =>
    simp only [step, Option.ite_none_right_eq_some] at h
    cases h.2
    exact .nudged (nudged_releaseSem _ _)
  | abort nil =>
    simp only [step, Option.ite_none_right_eq_some] at h
    obtain ⟨⟨-, hn⟩, h⟩ := h
    cases h
    exact .aborted hn fun i => rfl
  | ret index =>
    simp only [step] at h
    split at h
    · rename_i c hc
      obtain ⟨hs, h⟩ := Option.ite_none_right_eq_some.mp h
      cases h
      exact .turn (hc ▸ .ret hs) rfl (.refl rfl)
    · cases h
  | take index =>
    simp only [step] at h
    split at h
    · rename_i c hc
      split at h
      · cases h
      · rename_i ev evs hq
        exact coHandle_moves hc hq (Option.some.inj h)
    · cases h
  | otherGet n =>
    simp only [step, Option.ite_none_left_eq_some] at h
    cases h.2
    exact .nudged (.refl rfl)
  | otherRelease n =>
    simp only [step, Option.ite_none_right_eq_some] at h
    cases h.2
    exact .nudged (nudged_releaseSem _ _)

-- ---------------------------------------------------------------------------
-- One function at a time
-- ---------------------------------------------------------------------------

/-- The returns that are to come, or in the queue. -/
def returns (c : CoPigMarshaller φ) : Nat :=
  c.i_eventQueue.countP (· = .ret) + if c.callFunc.isSome then 1 else 0

structure CoInv (c : CoPigMarshaller φ) : Prop where
  once : returns c ≤ 1
  fin : c.i_state = .FIN_START → returns c = 0

omit [DecidableEq φ] in
@[simp] theorem returns_wakeup (c : CoPigMarshaller φ) : returns (c.push .wakeup) = returns c := by
  unfold returns CoPigMarshaller.push
  rw [List.countP_append]
  rfl

omit [DecidableEq φ] in
/-- The return of a function is put into the queue. -/
theorem returns_ret (h : c.callFunc.isSome = true) :
    returns ({ c with callFunc := none }.push .ret) = returns c := by
  simp [returns, CoPigMarshaller.push, h]

@[simp] theorem returns_set (c : CoPigMarshaller φ) (f : φ) : returns (c.set f) = returns c := by
  unfold CoPigMarshaller.set
  split
  · rfl
  · dsimp only
    split
    · rfl
    · exact returns_wakeup _

theorem set_fields (c : CoPigMarshaller φ) (f : φ) :
    (c.set f).i_state = c.i_state ∧ (c.set f).callFunc = c.callFunc ∧ (c.set f).i_func = f := by
  unfold CoPigMarshaller.set
  split
  · rename_i h
    exact ⟨rfl, rfl, h⟩
  · dsimp only
    split <;> exact ⟨rfl, rfl, rfl⟩

omit [DecidableEq φ] in
/-- An event is taken from the queue. -/
theorem returns_take {ev : CoPigMarshaller.Event} {evs : List CoPigMarshaller.Event}
    (h : c.i_eventQueue = ev :: evs) : returns { c with i_eventQueue := evs } +
      (if ev = .ret then 1 else 0) = returns c := by
  rw [returns, returns, h, List.countP_cons]
  dsimp only
  split
  · simp_all
    omega
  · simp_all

/-- What is true of each object, and of the functions that have been started. -/
structure Known (tr : List (MarshallerObs φ)) (s : PigMarshaller φ) : Prop where
  co : ∀ i, ∀ c ∈ s.i_running i, CoInv c
  current : ∀ i, evaluating i tr = (s.i_running i).bind CoPigMarshaller.callFunc
  one : OneAtATime tr

omit [DecidableEq φ] in
theorem Nudged.co (h : Nudged s t) {P : CoPigMarshaller φ → Prop}
    (hp : ∀ c, P c → P (c.push .wakeup)) (hs : ∀ i, ∀ c ∈ s.i_running i, P c) :
    ∀ i, ∀ c ∈ t.i_running i, P c := by
  intro i c hc
  rcases h i with he | ⟨d, hd, he⟩
  · exact hs i c (he ▸ hc)
  · rw [he] at hc
    obtain rfl := Option.some.inj hc
    exact hp d (hs i d hd)

omit [DecidableEq φ] in
theorem Nudged.callFunc (h : Nudged s t) (i : Nat) :
    (t.i_running i).bind CoPigMarshaller.callFunc =
      (s.i_running i).bind CoPigMarshaller.callFunc := by
  rcases h i with he | ⟨d, hd, he⟩
  · rw [he]
  · rw [he, hd]
    rfl

omit [DecidableEq φ] in
theorem OneAtATime.append (h : OneAtATime tr)
    (hos : ∀ before i f after, os = before ++ MarshallerObs.started i f :: after →
      evaluating i (tr ++ before) = none) : OneAtATime (tr ++ os) := by
  intro before i f after he
  rcases Machine.append_eq_cons he with ⟨mid, htr, -⟩ | ⟨mid, hmid, rfl⟩
  · exact h before i f mid htr
  · exact hos mid i f after hmid

omit [DecidableEq φ] in
theorem CoInv.nudged (c : CoPigMarshaller φ) (h : CoInv c) : CoInv (c.push .wakeup) :=
  ⟨by rw [returns_wakeup]; exact h.once, fun hs => by rw [returns_wakeup]; exact h.fin hs⟩

theorem CoInv.set (h : CoInv c) (f : φ) : CoInv (c.set f) := by
  refine ⟨by rw [returns_set]; exact h.once, fun hs => ?_⟩
  rw [returns_set]
  rw [(set_fields c f).1] at hs
  exact h.fin hs


/-- What `Known` asks of the object that a turn makes. -/
structure Turned (index : Nat) (tr os : List (MarshallerObs φ)) (x : Option (CoPigMarshaller φ)) :
    Prop where
  co : ∀ c ∈ x, CoInv c
  current : evaluating index (tr ++ os) = x.bind CoPigMarshaller.callFunc
  others : ∀ i, i ≠ index → evaluating i (tr ++ os) = evaluating i tr
  one : ∀ before i f after, os = before ++ .started i f :: after →
    evaluating i (tr ++ before) = none

omit [DecidableEq φ] in
theorem evaluating_set : evaluating i (tr ++ [MarshallerObs.set j f]) = evaluating i tr := by
  rw [evaluating_append]
  rfl

omit [DecidableEq φ] in
theorem evaluating_started :
    evaluating i (tr ++ [MarshallerObs.started j f]) =
      if j = i then some f else evaluating i tr := by
  rw [evaluating_append]
  rfl

omit [DecidableEq φ] in
theorem evaluating_returned :
    evaluating i (tr ++ [MarshallerObs.returned j]) = if j = i then none else evaluating i tr := by
  rw [evaluating_append]
  rfl

omit [DecidableEq φ] in
theorem not_started (h : ∀ i f, .started i f ∉ os) : ∀ before i f after,
    os = before ++ MarshallerObs.started i f :: after → evaluating i (tr ++ before) = none :=
  fun _ i f _ he => absurd (he ▸ List.mem_append_right _ List.mem_cons_self) (h i f)

omit [DecidableEq φ] in
theorem CoInv.idle (h : CoInv c) {evs : List CoPigMarshaller.Event}
    (hq : c.i_eventQueue = .ret :: evs) :
    c.callFunc = none ∧ returns { c with i_eventQueue := evs } = 0 := by
  have ht := returns_take hq
  have ho := h.once
  rw [if_pos rfl] at ht
  refine ⟨?_, by omega⟩
  by_contra hn
  have hsome : returns { c with i_eventQueue := evs } = evs.countP (· = .ret) + 1 := by
    rw [returns, if_pos (Option.isSome_iff_ne_none.mpr hn)]
  omega

omit [DecidableEq φ] in
theorem returns_le {ev : CoPigMarshaller.Event} {evs : List CoPigMarshaller.Event}
    (hq : c.i_eventQueue = ev :: evs) : returns { c with i_eventQueue := evs } ≤ returns c := by
  rw [← returns_take hq]
  exact Nat.le_add_right _ _

omit [DecidableEq φ] in
theorem callFunc_of_returns (h : returns c = 0) : c.callFunc = none := by
  by_contra hn
  rw [returns, if_pos (Option.isSome_iff_ne_none.mpr hn)] at h
  omega

omit [DecidableEq φ] in
/-- An object that goes to `FIN_START` is evaluating nothing. -/
theorem CoInv.over (h : CoInv c) {ev : CoPigMarshaller.Event} {evs : List CoPigMarshaller.Event}
    (hq : c.i_eventQueue = ev :: evs) (hw : ev = .ret ∨ c.i_state = .FIN_START) :
    returns { c with i_eventQueue := evs } = 0 := by
  rcases hw with rfl | hs
  · exact (h.idle hq).2
  · exact Nat.le_zero.mp ((h.fin hs) ▸ returns_le hq)

theorem Turn.turned {a : MarshallerAct φ} {x y : Option (CoPigMarshaller φ)}
    (h : Turn isEmpty index a x y os) (hx : ∀ c ∈ x, CoInv c)
    (hc : evaluating index tr = x.bind CoPigMarshaller.callFunc) : Turned index tr os y := by
  cases h with
  | @set c f =>
    refine ⟨?_, ?_, fun i _ => evaluating_set, not_started (by simp)⟩
    · intro d hd
      obtain rfl := Option.some.inj hd
      exact (hx c rfl).set f
    · rw [evaluating_set, hc]
      exact (set_fields c f).2.1.symm
  | skip he =>
    exact ⟨nofun, evaluating_set.trans hc, fun i _ => evaluating_set, not_started (by simp)⟩
  | @launch f seq =>
    have ho (i : Nat) : evaluating i (tr ++ [MarshallerObs.set index f, .started index f]) =
        if index = i then some f else evaluating i tr := by
      rw [List.append_cons, evaluating_started, evaluating_set]
    refine ⟨?_, ?_, fun i hi => ?_, fun before i g after he => ?_⟩
    · intro d hd
      obtain rfl := Option.some.inj hd
      exact ⟨Nat.le_refl 1, nofun⟩
    · rw [ho, if_pos rfl]
      rfl
    · rw [ho, if_neg (Ne.symm hi)]
    · cases before with
      | nil => cases he
      | cons o before =>
        obtain ⟨rfl, he⟩ := List.cons.inj he
        cases before with
        | nil =>
          cases he
          exact evaluating_set.trans hc
        | cons o before => simp at he
  | @ret c hs =>
    refine ⟨?_, ?_, fun i hi => ?_, not_started (by simp)⟩
    · intro d hd
      obtain rfl := Option.some.inj hd
      refine ⟨?_, fun hst => ?_⟩
      · rw [returns_ret hs]
        exact (hx c rfl).once
      · rw [returns_ret hs]
        exact (hx c rfl).fin hst
    · rw [evaluating_returned, if_pos rfl]
      rfl
    · rw [evaluating_returned, if_neg (Ne.symm hi)]
  | @reboot c ev evs hq hs hr =>
    refine ⟨?_, by rw [List.append_nil]; exact hc, fun i _ => by rw [List.append_nil],
      not_started nofun⟩
    intro d hd
    obtain rfl := Option.some.inj hd
    exact ⟨Nat.le_trans (returns_le hq) (hx c rfl).once, nofun⟩
  | @ignore c evs hq hs =>
    refine ⟨?_, by rw [List.append_nil]; exact hc, fun i _ => by rw [List.append_nil],
      not_started nofun⟩
    intro d hd
    obtain rfl := Option.some.inj hd
    exact ⟨Nat.le_trans (returns_le hq) (hx c rfl).once, fun h => absurd h hs⟩
  | @start c evs hq hs =>
    obtain ⟨hnone, hzero⟩ := (hx c rfl).idle hq
    refine ⟨?_, ?_, fun i hi => ?_, fun before i g after he => ?_⟩
    · intro d hd
      obtain rfl := Option.some.inj hd
      refine ⟨?_, nofun⟩
      have hr : returns { c with i_eventQueue := evs } = evs.countP (· = .ret) := by
        rw [returns, hnone]
        rfl
      rw [hr] at hzero
      simp [returns, hzero]
    · rw [evaluating_started, if_pos rfl]
      rfl
    · rw [evaluating_started, if_neg (Ne.symm hi)]
    · cases before with
      | nil =>
        cases he
        rw [List.append_nil, hc]
        exact hnone
      | cons o before => simp at he
  | @fin c ev evs x hq hw hy =>
    have hzero : returns { c with i_eventQueue := evs } = 0 := by
      refine (hx c rfl).over hq ?_
      rcases hw with ⟨-, -, he⟩ | ⟨-, he, -⟩ | hs
      · exact .inl he
      · exact .inl he
      · exact .inr hs
    refine ⟨?_, ?_, fun i _ => by rw [List.append_nil], not_started nofun⟩
    · rintro d hd
      rcases hy with rfl | rfl
      · cases hd
      · cases hd
        exact ⟨hzero.trans_le (Nat.zero_le 1), fun _ => hzero⟩
    · rw [List.append_nil, hc]
      have hnone := callFunc_of_returns hzero
      rcases hy with rfl | rfl
      · exact hnone
      · rfl

theorem Known.step {a : MarshallerAct φ} (h : Known tr s) (hm : Moves isEmpty s t a os) :
    Known (tr ++ os) t := by
  cases hm with
  | nudged hn =>
    rw [List.append_nil]
    exact ⟨hn.co CoInv.nudged h.co, fun i => (h.current i).trans (hn.callFunc i).symm, h.one⟩
  | @aborted nil hn hrun =>
    have he (i : Nat) : evaluating i (tr ++ [MarshallerObs.aborted]) = evaluating i tr := by
      rw [evaluating_append]
      rfl
    refine ⟨fun i c hc => ?_, fun i => ?_, h.one.append (not_started (by simp))⟩
    · rw [hrun i] at hc
      obtain ⟨d, hd, rfl⟩ := Option.map_eq_some_iff.mp hc
      exact (h.co i d hd).set nil
    · rw [he, h.current i, hrun i]
      cases s.i_running i with
      | none => rfl
      | some c => exact (set_fields c nil).2.1.symm
  | @turn index x u _ ht hu hn =>
    have htd := ht.turned (h.co index) (h.current index)
    refine ⟨hn.co CoInv.nudged fun i c hc => ?_, fun i => ?_, h.one.append htd.one⟩
    · rw [hu] at hc
      by_cases hi : i = index
      · subst hi
        rw [Function.update_self] at hc
        exact htd.co c hc
      · rw [Function.update_of_ne hi] at hc
        exact h.co i c hc
    · rw [hn.callFunc i, hu]
      by_cases hi : i = index
      · subst hi
        rw [Function.update_self]
        exact htd.current
      · rw [Function.update_of_ne hi, htd.others i hi]
        exact h.current i

-- ---------------------------------------------------------------------------
-- No launch is lost
-- ---------------------------------------------------------------------------

/-- An object that is not waiting for the semaphore has a return to come; when it need not start
anew it evaluates what has been set last, if anything, and there is nothing left to be done. -/
structure CoLaw (isEmpty : φ → Bool) (index : Nat) (tr : List (MarshallerObs φ))
    (c : CoPigMarshaller φ) : Prop where
  last : LastSet index c.i_func tr
  busy : c.i_state ≠ .FIN_START → returns c = 1
  calm : c.i_state = .ACT_RET → c.i_reboot = false →
    Settled isEmpty index tr ∧ ∀ g, c.callFunc = some g → g = c.i_func
  fin : c.i_state = .FIN_START → Settled isEmpty index tr

def Output (isEmpty : φ → Bool) (index : Nat) (tr : List (MarshallerObs φ)) :
    Option (CoPigMarshaller φ) → Prop
  | none => Settled isEmpty index tr
  | some c => CoLaw isEmpty index tr c

omit [DecidableEq φ] in
theorem CoLaw.nudged (h : CoLaw isEmpty index tr c) :
    CoLaw isEmpty index tr (c.push .wakeup) :=
  ⟨h.last, fun hs => by rw [returns_wakeup]; exact h.busy hs, h.calm, h.fin⟩

omit [DecidableEq φ] in
theorem Output.nudged (h : Output isEmpty index tr (s.i_running index)) (hn : Nudged s t) :
    Output isEmpty index tr (t.i_running index) := by
  rcases hn index with he | ⟨c, hc, he⟩
  · rw [he]
    exact h
  · rw [hc] at h
    rw [he]
    exact CoLaw.nudged h

omit [DecidableEq φ] in
/-- What happens to other outputs. -/
theorem Output.append {x : Option (CoPigMarshaller φ)} (h : Output isEmpty index tr x)
    (hos : ∀ o ∈ os, isSet index o = false) : Output isEmpty index (tr ++ os) x := by
  cases x with
  | none => exact Settled.append h hos
  | some c =>
    exact ⟨h.last.append hos, h.busy, fun hs hr => (h.calm hs hr).imp_left (·.append hos),
      fun hs => (h.fin hs).append hos⟩

/-- What has been set for an object that hears it. -/
theorem CoLaw.set (h : CoLaw isEmpty index tr c) (hc : evaluating index tr = c.callFunc)
    (hh : isEmpty f = true ∨ c.i_state = .ACT_REBOOT_RET ∨
      c.i_state = .ACT_RET ∧ (c.i_func = f → c.i_reboot = true ∨ c.callFunc ≠ none)) :
    CoLaw isEmpty index (tr ++ [MarshallerObs.set index f]) (c.set f) := by
  obtain ⟨hst, hcall, hfunc⟩ := set_fields c f
  have hempty (he : isEmpty f = true) : Settled isEmpty index (tr ++ [MarshallerObs.set index f]) :=
    settled_snoc (.inl he)
  refine ⟨?_, fun hs => ?_, fun hs hr => ?_, fun hs => ?_⟩
  · rw [hfunc]
    exact lastSet_set nofun
  · rw [returns_set]
    exact h.busy (hst ▸ hs)
  · rw [hst] at hs
    have hsame : c.i_func = f ∧ c.i_reboot = false := by
      unfold CoPigMarshaller.set at hr
      split at hr
      · rename_i he
        exact ⟨he, hr⟩
      · dsimp only at hr
        split at hr
        · rename_i hn
          exact absurd (hr.symm.trans hn) nofun
        · cases hr
    obtain ⟨-, hg⟩ := h.calm hs hsame.2
    rw [hcall, hfunc, ← hsame.1]
    refine ⟨?_, hg⟩
    rcases hh with he | he | ⟨-, he⟩
    · rw [hsame.1]
      exact hempty he
    · exact absurd (hs.symm.trans he) nofun
    · obtain ⟨g, hsome⟩ := Option.ne_none_iff_exists'.mp ((he hsame.1).resolve_left fun hr' =>
        absurd (hsame.2.symm.trans hr') nofun)
      refine settled_snoc (.inr ?_)
      rw [hc, hsome, hg g hsome]
  · rw [hst] at hs
    rcases hh with he | he | ⟨he, -⟩
    · exact hempty he
    · exact absurd (hs.symm.trans he) nofun
    · exact absurd (hs.symm.trans he) nofun

theorem Turn.output {a : MarshallerAct φ} {x y : Option (CoPigMarshaller φ)}
    (h : Turn isEmpty index a x y os) (hx : ∀ c ∈ x, CoInv c)
    (hc : evaluating index tr = x.bind CoPigMarshaller.callFunc) (ho : Output isEmpty index tr x)
    (hs : s.i_running index = x) (hh : Heard isEmpty s a) :
    Output isEmpty index (tr ++ os) y := by
  cases h with
  | @set c f => exact ho.set hc (hh c hs)
  | @skip f he => exact settled_snoc (.inl he)
  | @launch f seq =>
    have hos : ∀ o ∈ [(.started index f : MarshallerObs φ)], isSet index o = false :=
      List.forall_mem_singleton.mpr rfl
    refine ⟨lastSet_set hos, fun _ => rfl, fun _ _ => ⟨settled_set hos ?_, fun g hg => ?_⟩, nofun⟩
    · exact .inr (.inl (List.mem_singleton_self _))
    · exact (Option.some.inj hg).symm
  | @ret c hsome =>
    have hos : ∀ o ∈ [(.returned index : MarshallerObs φ)], isSet index o = false :=
      List.forall_mem_singleton.mpr rfl
    refine ⟨ho.last.append hos, fun hst => ?_, fun hst hr => ⟨?_, nofun⟩, fun hst => ?_⟩
    · rw [returns_ret hsome]
      exact ho.busy hst
    · exact (ho.calm hst hr).1.append hos
    · exact (ho.fin hst).append hos
  | @reboot c ev evs hq hst hr =>
    rw [List.append_nil]
    have hev : ev ≠ .ret := by
      rintro rfl
      have hn := hh c hs hst (by rw [hq]; rfl)
      exact absurd (hn.symm.trans hr) nofun
    have htake := returns_take hq
    rw [if_neg hev] at htake
    refine ⟨ho.last, fun _ => htake.trans (ho.busy ?_), nofun, nofun⟩
    rw [hst]
    nofun
  | @ignore c evs hq hst =>
    rw [List.append_nil]
    exact ⟨ho.last, fun _ => (returns_take hq).trans (ho.busy hst), ho.calm, ho.fin⟩
  | @start c evs hq hst =>
    obtain ⟨hnone, hzero⟩ := (hx c rfl).idle hq
    have hos : ∀ o ∈ [(.started index c.i_func : MarshallerObs φ)], isSet index o = false :=
      List.forall_mem_singleton.mpr rfl
    have hr : returns { c with i_eventQueue := evs } = evs.countP (· = .ret) := by
      rw [returns, hnone]
      rfl
    rw [hr] at hzero
    refine ⟨ho.last.append hos, fun _ => ?_, fun _ _ => ⟨ho.last.started, fun g hg => ?_⟩, nofun⟩
    · simp [returns, hzero]
    · exact (Option.some.inj hg).symm
  | @fin c ev evs x hq hw hy =>
    rw [List.append_nil]
    have hsettled : Settled isEmpty index tr := by
      rcases hw with ⟨hst, hr, -⟩ | ⟨-, -, he⟩ | hst
      · exact (ho.calm hst hr).1
      · exact ho.last.empty he
      · exact ho.fin hst
    rcases hy with rfl | rfl
    · exact hsettled
    · exact ⟨ho.last, fun h => absurd rfl h, nofun, fun _ => hsettled⟩

theorem known_run (h : (machine isEmpty).Run tr s) : Known tr s := by
  refine h.invariant (I := Known) ?start ?step
  case start =>
    rintro s rfl
    exact ⟨nofun, fun _ => rfl, fun _ _ _ _ he =>
      absurd he.symm (List.append_ne_nil_of_right_ne_nil _ (List.cons_ne_nil _ _))⟩
  case step =>
    intro tr s a t os _ h _ hs
    exact h.step (step_moves hs)

/-- What a turn of one output shows is about that output. -/
theorem Turn.others {a : MarshallerAct φ} {x y : Option (CoPigMarshaller φ)}
    (h : Turn isEmpty index a x y os) (hi : i ≠ index) : ∀ o ∈ os, isSet i o = false := by
  cases h <;> simp [isSet, Ne.symm hi]

theorem output_run (h : (machine isEmpty).RunIf (Heard isEmpty) tr s) (ha : .aborted ∉ tr) :
    ∀ i, Output isEmpty i tr (s.i_running i) := by
  revert ha
  refine h.invariant (I := fun tr s => .aborted ∉ tr → ∀ i, Output isEmpty i tr (s.i_running i))
    ?start ?step
  case start =>
    rintro s rfl _ i before func after he
    exact absurd he.symm (List.append_ne_nil_of_right_ne_nil _ (List.cons_ne_nil _ _))
  case step =>
    intro tr s a t os hr ih hh hs ha i
    have hold := ih (fun hm => ha (List.mem_append_left _ hm))
    have hk := known_run hr.run
    cases step_moves hs with
    | nudged hn =>
      rw [List.append_nil]
      exact (hold i).nudged hn
    | aborted _ _ => exact absurd (List.mem_append_right _ (List.mem_singleton_self _)) ha
    | @turn index x u _ ht hu hn =>
      refine Output.nudged ?_ hn
      rw [hu]
      by_cases hi : i = index
      · subst hi
        rw [Function.update_self]
        exact ht.output (hk.co i) (hk.current i) (hold i) rfl hh
      · rw [Function.update_of_ne hi]
        exact (hold i).append (ht.others hi)

/-- An object is there for an output only when something has been set for it. -/
theorem set_run (h : (machine isEmpty).Run tr s) :
    ∀ i c, s.i_running i = some c → ∃ f, .set i f ∈ tr := by
  refine h.invariant (I := fun tr s => ∀ i c, s.i_running i = some c → ∃ f, .set i f ∈ tr)
    ?start ?step
  case start =>
    rintro s rfl i c hc
    cases hc
  case step =>
    intro tr s a t os _ ih _ hs i c hc
    have hold (hsome : (s.i_running i).isSome = true) : ∃ f, .set i f ∈ tr ++ os := by
      obtain ⟨d, hd⟩ := Option.isSome_iff_exists.mp hsome
      exact (ih i d hd).imp fun f hf => List.mem_append_left _ hf
    have hnudged {u v : PigMarshaller φ} (hn : Nudged u v) (hv : (v.i_running i).isSome = true) :
        (u.i_running i).isSome = true := by
      rcases hn i with he | ⟨d, hd, -⟩
      · exact he ▸ hv
      · rw [hd]
        rfl
    have hsome : (t.i_running i).isSome = true := Option.isSome_iff_exists.mpr ⟨c, hc⟩
    cases step_moves hs with
    | nudged hn => exact hold (hnudged hn hsome)
    | aborted _ hrun =>
      rw [hrun i, Option.isSome_map] at hsome
      exact hold hsome
    | @turn index x u _ ht hu hn =>
      have hu' := hnudged hn hsome
      rw [hu] at hu'
      by_cases hi : i = index
      · subst hi
        cases hx : s.i_running i with
        | some d => exact hold (by rw [hx]; rfl)
        | none =>
          rw [hx] at ht
          cases ht with
          | skip _ => exact ⟨_, List.mem_append_right _ (List.mem_singleton_self _)⟩
          | launch => exact ⟨_, List.mem_append_right _ List.mem_cons_self⟩
      · rw [Function.update_of_ne hi] at hu'
        exact hold hu'

omit [DecidableEq φ] in
/-- When nothing is left to be done what has been set has been started. -/
theorem Output.settled (h : Output isEmpty index tr (s.i_running index)) (hq : s.Quiet) :
    Settled isEmpty index tr := by
  cases hc : s.i_running index with
  | none =>
    rw [hc] at h
    exact h
  | some c =>
    rw [hc] at h
    refine CoLaw.fin h ?_
    by_contra hs
    obtain ⟨hcall, hqueue⟩ := hq index c hc
    have hbusy := CoLaw.busy h hs
    rw [returns, hcall, hqueue] at hbusy
    cases hbusy

end PigMarshaller

open PigMarshaller

/-- In all runs one function at a time is evaluated for an output; in those in which all that is
set is heard, the function that has been set last for an output has been started since, or it was
being evaluated, when nothing is left to be done and the marshaller has not ended. -/
theorem marshaller_law {φ : Type} [DecidableEq φ] (isEmpty : φ → Bool) :
    (∀ tr s, (machine isEmpty).Run tr s → OneAtATime tr) ∧
      ∀ tr s, (machine isEmpty).RunIf (Heard isEmpty) tr s → s.Quiet → .aborted ∉ tr →
        ∀ index, Settled isEmpty index tr :=
  ⟨fun _ _ h => (known_run h).one, fun _ _ h hq ha index => (output_run h ha index).settled hq⟩

/-- The functions of one output, for which nothing is left to be done at the end. -/
theorem quiet_of_one {tr : List (MarshallerObs Nat)} {s : PigMarshaller Nat}
    (h : (machine (· == 0)).Run tr s) (hs : ∀ o ∈ tr, ∀ i f, o = .set i f → i = 0)
    (hq : ∀ c ∈ s.i_running 0, c.callFunc = none ∧ c.i_eventQueue = []) : s.Quiet := by
  intro index c hc
  obtain ⟨f, hf⟩ := set_run h index c hc
  obtain rfl := hs _ hf index f rfl
  exact hq c hc

/-- A function is set while another is running. -/
theorem marshaller_law_replaced : ∃ tr s, (machine (· == 0)).RunIf (Heard (· == 0)) tr s ∧
    tr = [.set 0 1, .started 0 1, .set 0 2, .returned 0, .started 0 2, .returned 0] ∧
    s.Quiet ∧ ∀ index, Settled (· == 0) index tr := by
  obtain ⟨tr, s, h, rfl, hn⟩ := Machine.exists_run (M := machine (φ := Nat) (· == 0))
    (C := Heard (· == 0)) (P := fun tr s => tr = [.set 0 1, .started 0 1, .set 0 2, .returned 0,
      .started 0 2, .returned 0] ∧ ∀ c ∈ s.i_running 0, c.callFunc = none ∧ c.i_eventQueue = [])
    [.wakeup, .launch 0 1, .launch 0 2, .release, .take 0, .ret 0, .take 0, .ret 0, .take 0]
    rfl (by decide +kernel)
  have hq := quiet_of_one h.run (by simp) hn
  exact ⟨_, s, h, rfl, hq, (marshaller_law (· == 0)).2 _ s h hq (by simp)⟩

theorem not_settled {func : Nat} (hf : func ≠ 0) :
    ¬ Settled (· == 0) 0 [.set 0 1, .started 0 1, .returned 0, .set 0 func] := fun hs => by
  rcases hs [.set 0 1, .started 0 1, .returned 0] func [] rfl nofun with h | h | h
  · exact hf (eq_of_beq h)
  · cases h
  · cases h

/-- A function is set for an object that waits for the semaphore, and is dropped; or a function is
set while the return of the one before it is in the queue, and its object waits for another. -/
theorem launch_lost :
    (∃ tr s, (machine (· == 0)).Run tr s ∧ s.Quiet ∧ .aborted ∉ tr ∧ s.i_running 0 = none ∧
      ¬ Settled (· == 0) 0 tr) ∧
    ∃ tr s, (machine (· == 0)).Run tr s ∧ s.Quiet ∧ .aborted ∉ tr ∧
      (∃ c ∈ s.i_running 0, c.i_state = .ACT_REBOOT_RET) ∧ ¬ Settled (· == 0) 0 tr := by
  refine ⟨?_, ?_⟩
  · obtain ⟨tr, s, h, rfl, hn⟩ := Machine.exists_run (M := machine (φ := Nat) (· == 0))
      (C := fun _ _ => True) (P := fun tr s =>
        tr = [.set 0 1, .started 0 1, .returned 0, .set 0 2] ∧ s.i_running 0 = none)
      [.wakeup, .launch 0 1, .ret 0, .take 0, .launch 0 2, .release, .take 0]
      rfl (by decide +kernel)
    refine ⟨_, s, h, quiet_of_one h (by simp) ?_, by simp, hn, not_settled (by decide)⟩
    rw [hn]
    nofun
  · obtain ⟨tr, s, h, rfl, hq, hc⟩ := Machine.exists_run (M := machine (φ := Nat) (· == 0))
      (C := fun _ _ => True) (P := fun tr s =>
        tr = [.set 0 1, .started 0 1, .returned 0, .set 0 2] ∧
        (∀ c ∈ s.i_running 0, c.callFunc = none ∧ c.i_eventQueue = []) ∧
        ∃ c ∈ s.i_running 0, c.i_state = .ACT_REBOOT_RET)
      [.wakeup, .launch 0 1, .ret 0, .launch 0 2, .release, .take 0, .take 0]
      rfl (by decide +kernel)
    exact ⟨_, s, h, quiet_of_one h (by simp) hq, by simp, hc, not_settled (by decide)⟩

end TinyState.Js
