import Mathlib.Data.List.Range
import Mathlib.Data.List.Nodup
import TinyState.Lib.Machine

/-!
# Objects that call

An object takes one event after another from its queue. While it handles one it may
launch calls, pass an abort on to a call that it has launched, and send its own result.
Each call returns once, at a time of its own, into the queue; whoever holds the object
may abort it, tell it something else, or use its methods, at any time after it has taken
its first event, which is part of its making.
-/

namespace Caller

open Transition

inductive Input (μ ν : Type)
  | initial
  | abort
  | ret (k : Nat) (m : μ)
  | note (n : ν)
deriving DecidableEq

inductive Effect (κ μ : Type)
  | launch (x : κ)
  | forward (k : Nat)
  | send (m : μ)
deriving DecidableEq

variable {σ κ μ ν π : Type}

/-- `handle` and `work` are given the number that the next call will have. `work` is what
the object still does with the event that it has taken. `poke` is the use of a method by
somebody else, while the calls in the list are running. -/
structure Code (σ κ μ ν π : Type) where
  start : σ
  ended : σ → Bool
  handle : Nat → σ → Input μ ν → σ × List (Effect κ μ)
  work : Nat → σ → Option (σ × List (Effect κ μ)) := fun _ _ => none
  poke : List Nat → σ → π → Option (σ × List ν) := fun _ _ _ => none

/-- `running` are the calls that have not returned; `aborted` says that an abort has been taken. -/
structure Sys (σ μ ν : Type) where
  obj : σ
  queue : List (Input μ ν)
  running : List Nat
  started : Nat
  aborted : Bool
deriving DecidableEq

inductive Act (μ ν π : Type)
  | abort
  | ret (k : Nat) (m : μ)
  | note (n : ν)
  | poke (p : π)
  | take
  | go
deriving DecidableEq

inductive Obs (κ μ ν π : Type)
  | took (i : Input μ ν)
  | launched (k : Nat) (x : κ)
  | forwarded (k : Nat)
  | sent (m : μ)
  | returned (k : Nat) (m : μ)
  | poked (p : π)
deriving DecidableEq

def Input.isAbort : Input μ ν → Bool
  | abort => true
  | _ => false

def Input.returned : Input μ ν → Option Nat
  | ret k _ => some k
  | _ => none

def Effect.isLaunch : Effect κ μ → Bool
  | launch _ => true
  | _ => false

def Effect.isSend : Effect κ μ → Bool
  | send _ => true
  | _ => false

def launches (es : List (Effect κ μ)) : Nat := es.countP Effect.isLaunch

/-- What an onlooker sees of the effects, the next call having the number `n`. -/
def observe : Nat → List (Effect κ μ) → List (Obs κ μ ν π)
  | _, [] => []
  | n, .launch x :: es => .launched n x :: observe (n + 1) es
  | n, .forward k :: es => .forwarded k :: observe n es
  | n, .send m :: es => .sent m :: observe n es

/-- The object has taken its first event. -/
def Sys.made (s : Sys σ μ ν) : Bool :=
  match s.queue with
  | .initial :: _ => false
  | _ => true

namespace Code

variable (c : Code σ κ μ ν π)

/-- An object that is over takes nothing any more. -/
def push (s : Sys σ μ ν) (i : Input μ ν) : Sys σ μ ν :=
  if c.ended s.obj then s else { s with queue := s.queue ++ [i] }

def perform (s : Sys σ μ ν) (r : σ × List (Effect κ μ)) : Sys σ μ ν where
  obj := r.1
  queue := if c.ended r.1 then [] else s.queue
  running := s.running ++ List.range' s.started (launches r.2)
  started := s.started + launches r.2
  aborted := s.aborted

def step (s : Sys σ μ ν) : Act μ ν π → Option (Sys σ μ ν × List (Obs κ μ ν π))
  | .abort => if s.made then some (c.push s .abort, []) else none
  | .note n => if s.made then some (c.push s (.note n), []) else none
  | .ret k m =>
    if k ∈ s.running then
      some (c.push { s with running := s.running.erase k } (.ret k m), [.returned k m])
    else none
  | .poke p =>
    match s.made, c.poke s.running s.obj p with
    | true, some (obj, ns) =>
      some ({ s with obj, queue := if c.ended obj then [] else s.queue ++ ns.map .note },
        [.poked p])
    | _, _ => none
  | .take =>
    match c.work s.started s.obj, s.queue with
    | none, i :: q =>
      let r := c.handle s.started s.obj i
      some (c.perform { s with queue := q, aborted := s.aborted || i.isAbort } r,
        .took i :: observe s.started r.2)
    | _, _ => none
  | .go =>
    match c.work s.started s.obj with
    | none => none
    | some r => some (c.perform s r, observe s.started r.2)

def initial : Sys σ μ ν :=
  { obj := c.start, queue := [.initial], running := [], started := 0, aborted := false }

def machine : Machine (Sys σ μ ν) (Act μ ν π) (Obs κ μ ν π) where
  init s := s = c.initial
  step := c.step

end Code

-- ---------------------------------------------------------------------------
-- Steps
-- ---------------------------------------------------------------------------

variable {c : Code σ κ μ ν π} {C : Sys σ μ ν → Act μ ν π → Prop} {waits : σ → List Nat}
  {s t : Sys σ μ ν} {a : Act μ ν π} {os tr : List (Obs κ μ ν π)} {i : Input μ ν}
  {q : List (Input μ ν)} {es : List (Effect κ μ)} {r : σ × List (Effect κ μ)} {k n : Nat} {m : μ}
  {x : κ}

@[simp] theorem push_obj : (c.push s i).obj = s.obj := by
  unfold Code.push
  split <;> rfl

@[simp] theorem push_started : (c.push s i).started = s.started := by
  unfold Code.push
  split <;> rfl

@[simp] theorem push_aborted : (c.push s i).aborted = s.aborted := by
  unfold Code.push
  split <;> rfl

theorem push_over (ho : c.ended s.obj = true) : c.push s i = s := if_pos ho

theorem push_queue (ho : c.ended s.obj = false) : (c.push s i).queue = s.queue ++ [i] :=
  congrArg Sys.queue (if_neg (Bool.eq_false_iff.mp ho))

theorem perform_queue (ho : c.ended (c.perform s r).obj = false) :
    (c.perform s r).queue = s.queue :=
  if_neg (Bool.eq_false_iff.mp ho)

/-- The calls that are running, or whose return has not been taken. -/
def Sys.opened (s : Sys σ μ ν) : List Nat := s.running ++ s.queue.filterMap Input.returned

/-- A step in which the object takes nothing: it is left as it was, or as one of its
methods leaves it. -/
structure Told (c : Code σ κ μ ν π) (s t : Sys σ μ ν) (os : List (Obs κ μ ν π)) : Prop where
  how : (t.obj = s.obj ∧ ∀ o ∈ os, ∃ k m, o = .returned k m) ∨
    ∃ p ns, c.poke s.running s.obj p = some (t.obj, ns) ∧ os = [.poked p] ∧
      t.queue = if c.ended t.obj then [] else s.queue ++ ns.map .note
  started : t.started = s.started
  aborted : t.aborted = s.aborted
  begun : s.made = true ∨ s.running ≠ []
  queue : c.ended t.obj = false → s.queue <+: t.queue
  idle : c.ended t.obj = true → t.queue = [] ∨ c.ended s.obj = true ∧ t.queue = s.queue
  queued : .initial ∈ t.queue → .initial ∈ s.queue
  opened : (c.ended t.obj = true → s.opened = []) → t.opened.Perm s.opened

theorem Told.obs (h : Told c s t os) :
    ∀ o ∈ os, (∃ k m, o = .returned k m) ∨ ∃ p, o = .poked p := by
  intro o ho
  rcases h.how with ⟨-, hos⟩ | ⟨p, ns, -, rfl, -⟩
  · exact .inl (hos o ho)
  · exact .inr ⟨p, List.mem_singleton.mp ho⟩

theorem queued_push (hi : i ≠ .initial) (h : .initial ∈ (c.push s i).queue) :
    .initial ∈ s.queue := by
  unfold Code.push at h
  split at h
  · exact h
  · exact (List.mem_append.mp h).resolve_right fun h => hi (List.mem_singleton.mp h).symm

theorem Told.push (hmade : s.made = true) (hi : i ≠ .initial) (hr : i.returned = none) :
    Told c s (c.push s i) [] where
  how := .inl ⟨push_obj, nofun⟩
  started := push_started
  aborted := push_aborted
  begun := .inl hmade
  queue ho := by
    rw [push_obj] at ho
    rw [push_queue ho]
    exact List.prefix_append _ _
  idle ho := by
    rw [push_obj] at ho
    exact .inr ⟨ho, by rw [push_over ho]⟩
  queued := queued_push hi
  opened _ := by
    unfold Code.push
    split
    · exact .refl _
    · simp [Sys.opened, hr]

theorem Told.ret (hk : k ∈ s.running) :
    Told c s (c.push { s with running := s.running.erase k } (.ret k m)) [.returned k m] where
  how := .inl ⟨push_obj, fun o ho => ⟨k, m, List.mem_singleton.mp ho⟩⟩
  started := push_started
  aborted := push_aborted
  begun := .inr (List.ne_nil_of_mem hk)
  queue ho := by
    rw [push_obj] at ho
    rw [push_queue ho]
    exact List.prefix_append _ _
  idle ho := by
    rw [push_obj] at ho
    exact .inr ⟨ho, by rw [push_over ho]⟩
  queued := queued_push nofun
  opened ho := by
    by_cases hover : c.ended s.obj = true
    · have hnil := ho (by rwa [push_obj])
      rw [(List.append_eq_nil_iff.mp hnil).1] at hk
      cases hk
    · simp only [Code.push, if_neg hover, Sys.opened, List.filterMap_append]
      have hp : (k :: (s.running.erase k ++ s.queue.filterMap Input.returned)).Perm
          (s.running ++ s.queue.filterMap Input.returned) :=
        (List.perm_cons_erase hk).symm.append_right _
      refine List.Perm.trans ?_ hp
      rw [← List.append_assoc]
      exact List.perm_append_comm

theorem Told.poke {p : π} {obj : σ} {ns : List ν} (hmade : s.made = true)
    (hp : c.poke s.running s.obj p = some (obj, ns)) :
    Told c s { s with obj, queue := if c.ended obj then [] else s.queue ++ ns.map .note }
      [.poked p] where
  how := .inr ⟨p, ns, hp, rfl, rfl⟩
  started := rfl
  aborted := rfl
  begun := .inl hmade
  queue ho := by
    rw [if_neg (Bool.eq_false_iff.mp ho)]
    exact List.prefix_append _ _
  idle ho := .inl (if_pos ho)
  queued h := by
    dsimp only at h
    split at h
    · cases h
    · simpa using h
  opened ho := by
    by_cases hover : c.ended obj = true
    · have hnil := ho hover
      rw [hnil, Sys.opened, if_pos hover, (List.append_eq_nil_iff.mp hnil).1]
      exact .refl _
    · simp [Sys.opened, if_neg hover, List.filterMap_append, List.filterMap_map, Function.comp_def,
        Input.returned]

inductive StepCases (c : Code σ κ μ ν π) (s : Sys σ μ ν) :
    Act μ ν π → Sys σ μ ν → List (Obs κ μ ν π) → Prop
  | told {a : Act μ ν π} {t : Sys σ μ ν} {os : List (Obs κ μ ν π)} :
      a ≠ .take → Told c s t os → StepCases c s a t os
  | took {i : Input μ ν} {q : List (Input μ ν)} :
      c.work s.started s.obj = none → s.queue = i :: q →
      StepCases c s .take
        (c.perform { s with queue := q, aborted := s.aborted || i.isAbort }
          (c.handle s.started s.obj i))
        (.took i :: observe s.started (c.handle s.started s.obj i).2)
  | worked {r : σ × List (Effect κ μ)} :
      c.work s.started s.obj = some r →
      StepCases c s .go (c.perform s r) (observe s.started r.2)

theorem step_cases (hs : c.step s a = some (t, os)) : StepCases c s a t os := by
  cases a with
  | abort =>
    obtain ⟨hmade, he⟩ := Option.ite_none_right_eq_some.mp hs
    cases he
    exact .told nofun (.push hmade nofun rfl)
  | note n =>
    obtain ⟨hmade, he⟩ := Option.ite_none_right_eq_some.mp hs
    cases he
    exact .told nofun (.push hmade nofun rfl)
  | ret k m =>
    obtain ⟨hk, he⟩ := Option.ite_none_right_eq_some.mp hs
    cases he
    exact .told nofun (.ret hk)
  | poke p =>
    simp only [Code.step] at hs
    split at hs
    · next obj ns hmade hp =>
      cases hs
      exact .told nofun (.poke hmade hp)
    · cases hs
  | take =>
    simp only [Code.step] at hs
    split at hs
    · next i q hwork hq =>
      cases hs
      exact .took hwork hq
    · cases hs
  | go =>
    simp only [Code.step] at hs
    split at hs
    · cases hs
    · next r hr =>
      cases hs
      exact .worked hr

theorem Told.not_mem (h : Told c s t os) {o : Obs κ μ ν π} (hr : ∀ k m, o ≠ .returned k m)
    (hp : ∀ p, o ≠ .poked p) : o ∉ os := by
  intro ho
  rcases h.obs o ho with ⟨k, m, he⟩ | ⟨p, he⟩
  · exact hr k m he
  · exact hp p he

theorem took_observe : ∀ {n}, .took i ∉ (observe n es : List (Obs κ μ ν π)) := by
  induction es with
  | nil => exact nofun
  | cons e es ih =>
    intro n h
    cases e with
    | launch x => exact ih ((List.mem_cons.mp h).resolve_left nofun)
    | forward k => exact ih ((List.mem_cons.mp h).resolve_left nofun)
    | send m => exact ih ((List.mem_cons.mp h).resolve_left nofun)

theorem launched_observe : ∀ {n}, .launched k x ∈ (observe n es : List (Obs κ μ ν π)) →
    launches es ≠ 0 := by
  induction es with
  | nil => exact nofun
  | cons e es ih =>
    intro n h
    cases e with
    | launch y => simp [launches, Effect.isLaunch]
    | forward j => exact ih ((List.mem_cons.mp h).resolve_left nofun)
    | send m => exact ih ((List.mem_cons.mp h).resolve_left nofun)

theorem launches_of_started (h : (c.perform s r).started = s.started) : launches r.2 = 0 := by
  simp only [Code.perform] at h
  omega

-- ---------------------------------------------------------------------------
-- The account of the calls, and the result
-- ---------------------------------------------------------------------------

/-- What is left of the open calls when an input has been taken. -/
def Input.settle (i : Input μ ν) (l : List Nat) : List Nat := i.returned.elim l l.erase

def Obs.sent? : Obs κ μ ν π → Option μ
  | sent m => some m
  | _ => none

variable {I : Bool → σ → Prop} {ab : Bool}

/-- The object waits for just the calls that are open, which are all different, and when it
is over there is nothing in its queue. `I` holds of the object, given whether it has been
aborted, once it has been made. -/
structure Sound (c : Code σ κ μ ν π) (I : Bool → σ → Prop) (waits : σ → List Nat) (s : Sys σ μ ν) :
    Prop where
  open_ : s.opened.Perm (waits s.obj)
  nodup : s.opened.Nodup
  lt : ∀ k ∈ s.opened, k < s.started
  ended : c.ended s.obj = true → s.queue = []
  begun : s = c.initial ∨ .initial ∉ s.queue ∧ I s.aborted s.obj

theorem Sound.not_over (h : Sound c I waits s) (hq : s.queue = i :: q) :
    c.ended s.obj = false := by
  cases ho : c.ended s.obj with
  | false => rfl
  | true =>
    rw [h.ended ho] at hq
    cases hq

theorem Sound.mem (h : Sound c I waits s) (hq : s.queue = .ret k m :: q) : k ∈ waits s.obj := by
  refine h.open_.mem_iff.mp (List.mem_append_right _ ?_)
  rw [hq]
  exact List.mem_cons_self

/-- What a step in which the calls `left` remain may make of the object. -/
structure Fits (c : Code σ κ μ ν π) (I : Bool → σ → Prop) (waits : σ → List Nat) (ab : Bool)
    (n : Nat) (left : List Nat) (r : σ × List (Effect κ μ)) : Prop where
  inv : I ab r.1
  waits : (waits r.1).Perm (left ++ List.range' n (launches r.2))
  sends : r.2.countP Effect.isSend = (c.ended r.1).toNat

/-- In runs whose steps satisfy `C` the object keeps account of the calls that it has
launched, and sends its result when it comes to be over, and at no other time. -/
structure Lawful (c : Code σ κ μ ν π) (C : Sys σ μ ν → Act μ ν π → Prop) (I : Bool → σ → Prop)
    (waits : σ → List Nat) : Prop where
  start : c.ended c.start = false ∧ waits c.start = [] ∧ c.work 0 c.start = none
  ended : ∀ obj, c.ended obj = true → waits obj = []
  first : C c.initial .take → Fits c I waits false 0 [] (c.handle 0 c.start .initial)
  handle : ∀ s i q, Sound c I waits s → I s.aborted s.obj → c.ended s.obj = false →
    i ≠ .initial → s.queue = i :: q → C s .take → c.work s.started s.obj = none →
    Fits c I waits (s.aborted || i.isAbort) s.started (i.settle (waits s.obj))
      (c.handle s.started s.obj i)
  work : ∀ s r, Sound c I waits s → I s.aborted s.obj → C s .go →
    c.work s.started s.obj = some r →
    c.ended s.obj = false ∧ Fits c I waits s.aborted s.started (waits s.obj) r
  poke : ∀ ab l obj p obj' ns, I ab obj → c.poke l obj p = some (obj', ns) →
    I ab obj' ∧ waits obj' = waits obj ∧ c.ended obj' = c.ended obj

theorem opened_take (hq : s.queue = i :: q) :
    (s.running ++ q.filterMap Input.returned).Perm (i.settle s.opened) := by
  rw [Sys.opened, hq]
  cases i with
  | ret k m =>
    have ho : (s.running ++ k :: q.filterMap Input.returned).Perm
        (k :: (s.running ++ q.filterMap Input.returned)) := List.perm_middle
    have he := (ho.erase k).symm
    rwa [List.erase_cons_head] at he
  | initial => exact .refl _
  | abort => exact .refl _
  | note n => exact .refl _

theorem Sound.initial (hc : Lawful c C I waits) : Sound c I waits c.initial where
  open_ := .of_eq hc.start.2.1.symm
  nodup := .nil
  lt := nofun
  ended h := by
    rw [Code.initial, hc.start.1] at h
    cases h
  begun := .inl rfl

theorem Sound.perform (hn : s.opened.Nodup) (hlt : ∀ k ∈ s.opened, k < s.started)
    (hq : .initial ∉ s.queue) (hf : Fits c I waits s.aborted s.started s.opened r)
    (hover : c.ended r.1 = true → waits r.1 = []) : Sound c I waits (c.perform s r) := by
  have hopen : (c.perform s r).opened.Perm
      (s.opened ++ List.range' s.started (launches r.2)) := by
    by_cases ho : c.ended r.1 = true
    · have hnil := (hover ho ▸ hf.waits).symm.eq_nil
      obtain ⟨hopened, hrange⟩ := List.append_eq_nil_iff.mp hnil
      have hrun : s.running = [] := (List.append_eq_nil_iff.mp hopened).1
      rw [hnil]
      simp [Sys.opened, Code.perform, ho, hrun, hrange]
    · simp only [Sys.opened, Code.perform, if_neg ho, List.append_assoc]
      exact (List.perm_append_comm).append_left s.running
  refine ⟨hopen.trans hf.waits.symm, hopen.nodup_iff.mpr ?_, fun k hk => ?_, fun ho => if_pos ho,
    .inr ⟨fun h => ?_, hf.inv⟩⟩
  · refine List.nodup_append.mpr ⟨hn, List.nodup_range', fun k hk j hj he => ?_⟩
    have hle := (List.mem_range'_1.mp hj).1
    have hks := hlt k hk
    omega
  · rcases List.mem_append.mp (hopen.mem_iff.mp hk) with hk | hk
    · exact Nat.lt_of_lt_of_le (hlt k hk) (Nat.le_add_right ..)
    · exact (List.mem_range'_1.mp hk).2
  · simp only [Code.perform] at h
    split at h
    · cases h
    · exact hq h

/-- A step that changes nothing for the calls may begin with other lists of them. -/
theorem Fits.congr {left left' : List Nat} (h : Fits c I waits ab n left r) (hl : left'.Perm left) :
    Fits c I waits ab n left' r :=
  ⟨h.inv, h.waits.trans (hl.symm.append_right _), h.sends⟩

/-- The object that something is taken from has been made, or is made now. -/
theorem Lawful.fits (hc : Lawful c C I waits) (h : Sound c I waits s) (ha : C s .take)
    (hq : s.queue = i :: q) (hwork : c.work s.started s.obj = none) :
    .initial ∉ q ∧ Fits c I waits (s.aborted || i.isAbort) s.started (i.settle (waits s.obj))
      (c.handle s.started s.obj i) := by
  rcases h.begun with rfl | ⟨hni, hi⟩
  · obtain ⟨rfl, rfl⟩ := List.cons.inj hq
    refine ⟨nofun, (hc.first ha).congr ?_⟩
    exact .of_eq hc.start.2.1
  · have hover := h.not_over hq
    refine ⟨fun h => hni (hq ▸ List.mem_cons_of_mem _ h),
      hc.handle s i q h hi hover ?_ hq ha hwork⟩
    rintro rfl
    exact hni (hq ▸ List.mem_cons_self)

theorem Lawful.take (hc : Lawful c C I waits) (h : Sound c I waits s) (ha : C s .take)
    (hq : s.queue = i :: q) (hwork : c.work s.started s.obj = none) :
    Sound c I waits (c.perform { s with queue := q, aborted := s.aborted || i.isAbort }
      (c.handle s.started s.obj i)) := by
  obtain ⟨hni, hf⟩ := hc.fits h ha hq hwork
  have ho := opened_take hq
  have hsub : (i.settle s.opened).Sublist s.opened := by
    unfold Input.settle
    cases i.returned with
    | none => exact List.Sublist.refl _
    | some k => exact List.erase_sublist
  have hsettle : (i.settle s.opened).Perm (i.settle (waits s.obj)) := by
    unfold Input.settle
    cases i.returned with
    | none => exact h.open_
    | some k => exact h.open_.erase k
  refine Sound.perform (ho.nodup_iff.mpr (h.nodup.sublist hsub)) (fun k hk => ?_) hni
    (hf.congr (ho.trans hsettle)) (hc.ended _)
  exact h.lt k (hsub.subset (ho.mem_iff.mp hk))

/-- There is no work, and nobody has hold of the object, before it has been made. -/
theorem Told.made (h : Told c s t os) (hs : Sound c I waits s) :
    .initial ∉ s.queue ∧ I s.aborted s.obj := by
  refine hs.begun.resolve_left ?_
  rintro rfl
  rcases h.begun with hm | hr
  · cases hm
  · exact hr rfl

theorem Told.same (h : Told c s t os) (hc : Lawful c C I waits) (hs : Sound c I waits s) :
    I t.aborted t.obj ∧ waits t.obj = waits s.obj ∧ c.ended t.obj = c.ended s.obj := by
  rw [h.aborted]
  rcases h.how with ⟨ho, -⟩ | ⟨p, ns, hp, -⟩
  · rw [ho]
    exact ⟨(h.made hs).2, rfl, rfl⟩
  · exact hc.poke _ _ _ _ _ _ (h.made hs).2 hp

theorem Lawful.told (hc : Lawful c C I waits) (h : Sound c I waits s) (ht : Told c s t os) :
    Sound c I waits t := by
  obtain ⟨hi, hw, hover⟩ := ht.same hc h
  have ho := ht.opened fun ho => (hc.ended _ (hover ▸ ho) ▸ h.open_).eq_nil
  refine ⟨hw ▸ ho.trans h.open_, ho.nodup_iff.mpr h.nodup, fun k hk => ?_, fun ho => ?_,
    .inr ⟨fun hq => (ht.made h).1 (ht.queued hq), hi⟩⟩
  · exact ht.started ▸ h.lt k (ho.mem_iff.mp hk)
  · rcases ht.idle ho with hq | ⟨ho, hq⟩
    · exact hq
    · exact hq.trans (h.ended ho)

theorem Lawful.worked (hc : Lawful c C I waits) (h : Sound c I waits s) (ha : C s .go)
    (hr : c.work s.started s.obj = some r) : c.ended s.obj = false ∧ .initial ∉ s.queue ∧
      Fits c I waits s.aborted s.started (waits s.obj) r := by
  have hb : .initial ∉ s.queue ∧ I s.aborted s.obj := by
    refine h.begun.resolve_left ?_
    rintro rfl
    rw [Code.initial, hc.start.2.2] at hr
    cases hr
  obtain ⟨ho, hf⟩ := hc.work s r h hb.2 ha hr
  exact ⟨ho, hb.1, hf⟩

theorem Lawful.step (hc : Lawful c C I waits) (h : Sound c I waits s) (ha : C s a)
    (hs : c.step s a = some (t, os)) : Sound c I waits t := by
  cases step_cases hs with
  | told _ ht => exact hc.told h ht
  | took hwork hq => exact hc.take h ha hq hwork
  | worked hr =>
    obtain ⟨-, hni, hf⟩ := hc.worked h ha hr
    exact Sound.perform h.nodup h.lt hni (hf.congr h.open_) (hc.ended _)

theorem Lawful.run (hc : Lawful c C I waits) (h : c.machine.RunIf C tr s) : Sound c I waits s := by
  refine h.stateInvariant (I := Sound c I waits) ?start ?step
  case start =>
    rintro s rfl
    exact .initial hc
  case step =>
    intro s a t os h ha hs
    exact hc.step h ha hs

theorem sent_observe : ∀ {n}, ((observe n es : List (Obs κ μ ν π)).filterMap Obs.sent?).length =
    es.countP Effect.isSend := by
  induction es with
  | nil => exact rfl
  | cons e es ih =>
    intro n
    cases e with
    | launch x => exact ih
    | forward k => exact ih
    | send m =>
      rw [List.countP_cons_of_pos rfl]
      exact congrArg Nat.succ ih

theorem Told.sent (h : Told c s t os) : os.filterMap Obs.sent? = [] := by
  refine List.filterMap_eq_nil_iff.mpr fun o ho => ?_
  rcases h.obs o ho with ⟨k, m, rfl⟩ | ⟨p, rfl⟩ <;> rfl

theorem Lawful.sent_step (hc : Lawful c C I waits) (h : Sound c I waits s) (ha : C s a)
    (hs : c.step s a = some (t, os)) : (c.ended s.obj).toNat + (os.filterMap Obs.sent?).length =
      (c.ended t.obj).toNat := by
  cases step_cases hs with
  | told _ ht => rw [ht.sent, (ht.same hc h).2.2, List.length_nil, Nat.add_zero]
  | took hwork hq =>
    rw [h.not_over hq, List.filterMap_cons_none rfl, sent_observe, (hc.fits h ha hq hwork).2.sends]
    exact Nat.zero_add _
  | worked hr =>
    obtain ⟨ho, -, hf⟩ := hc.worked h ha hr
    rw [ho, sent_observe, hf.sends]
    exact Nat.zero_add _

/-- The result has been sent, and once, just when the object is over. -/
theorem Lawful.sent (hc : Lawful c C I waits) (h : c.machine.RunIf C tr s) :
    (tr.filterMap Obs.sent?).length = (c.ended s.obj).toNat := by
  refine h.invariant (I := fun tr s => (tr.filterMap Obs.sent?).length = (c.ended s.obj).toNat)
    ?start ?step
  case start =>
    rintro s rfl
    rw [Code.initial, hc.start.1]
    rfl
  case step =>
    intro tr s a t os hr h ha hs
    rw [List.filterMap_append, List.length_append, h]
    exact hc.sent_step (hc.run hr) ha hs

end Caller
