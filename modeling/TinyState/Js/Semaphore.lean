import Mathlib.Algebra.Order.Ring.Int
import Mathlib.Data.List.Basic
import Mathlib.Data.List.Sort
import TinyState.Lib.Machine
import TinyState.Lib.Permits

/-!
# The semaphores of the JavaScript runtime

`stdSemaphore` keeps the callers it refuses in a queue, once each, and wakes one
when a permit is given back. `stdLimitSemaphore` keeps them as often as they ask
and wakes as many as there are permits free, in the order of their priorities.
Both pass over objects that have ended. A refused caller asks again whenever it
receives an event, and the caller that is woken does so at once or later: it may
be running inside the loop that wakes it.
-/

namespace TinyState.Js

open Transition Permits

variable {ω : Type}

-- ---------------------------------------------------------------------------
-- Those who ask
-- ---------------------------------------------------------------------------

/-- History: who has a permit, who has been refused and not got one since, who of
these has been woken and has not asked again, and who has ended. -/
structure Callers (ω : Type) where
  holding : Finset ω
  asking : Finset ω
  woken : Finset ω
  ended : Finset ω

namespace Callers

variable [DecidableEq ω]

def none (ω : Type) : Callers ω := ⟨∅, ∅, ∅, ∅⟩

def took (c : Callers ω) (me : ω) : Callers ω :=
  { c with holding := insert me c.holding, asking := c.asking.erase me, woken := c.woken.erase me }

def refused (c : Callers ω) (me : ω) : Callers ω :=
  { c with asking := insert me c.asking, woken := c.woken.erase me }

def gave (c : Callers ω) (me : ω) : Callers ω := { c with holding := c.holding.erase me }

/-- `target.wakeup()`: whoever has what it asked for is not kept waiting by it. -/
def wakeup (c : Callers ω) (target : ω) : Callers ω :=
  if target ∈ c.asking then { c with woken := insert target c.woken } else c

/-- The object becomes `ZOM`. -/
def finished (c : Callers ω) (me : ω) : Callers ω :=
  { c with
    asking := c.asking.erase me
    woken := c.woken.erase me
    ended := insert me c.ended }

/-- Those in the queue that are still there to be woken. -/
def waiting (c : Callers ω) (queue : List ω) : Finset ω := queue.toFinset \ c.ended

def room (c : Callers ω) (free : Int) (queue : List ω) (due : Nat) : Room ω where
  free := free
  holding := c.holding
  waiting := c.waiting queue
  woken := c.woken
  due := due

/-- What the two semaphores keep of their callers. -/
structure Sound (c : Callers ω) (n free : Int) (queue : List ω) (due : Nat) : Prop where
  fair : (c.room free queue due).Fair
  total : free + c.holding.card = n
  nodup : queue.Nodup
  asking : ∀ x ∈ c.waiting queue, x ∈ c.asking
  woken : ∀ x ∈ c.woken, x ∈ c.asking
  live : ∀ x ∈ c.asking, x ∉ c.ended
  placed : ∀ x ∈ c.asking, x ∈ queue ∨ x ∈ c.woken

variable {c : Callers ω} {n free : Int} {queue q : List ω} {due k : Nat} {me x : ω}

theorem mem_waiting : x ∈ c.waiting queue ↔ x ∈ queue ∧ x ∉ c.ended := by
  simp [waiting]

theorem Sound.none (n : Int) : (none ω).Sound n n [] 0 where
  fair := ⟨nofun, nofun, nofun⟩
  total := by simp [Callers.none]
  nodup := List.nodup_nil
  asking := by simp [waiting]
  woken := nofun
  live := nofun
  placed := nofun

theorem Sound.took (h : c.Sound n free queue due) (hm : me ∉ c.holding) (hq : me ∉ queue) :
    (c.took me).Sound n (free - 1) queue due := by
  have hw : me ∉ c.waiting queue := fun hw => hq (mem_waiting.mp hw).1
  refine ⟨h.fair.take hw, ?_, h.nodup, fun x hx => ?_, fun x hx => ?_, fun x hx => ?_,
    fun x hx => ?_⟩
  · exact (Room.total_take (r := c.room free queue due) hm).trans h.total
  · exact Finset.mem_erase.mpr ⟨fun he => hw (he ▸ hx), h.asking x hx⟩
  · obtain ⟨hne, hx⟩ := Finset.mem_erase.mp hx
    exact Finset.mem_erase.mpr ⟨hne, h.woken x hx⟩
  · exact h.live x (Finset.mem_of_mem_erase hx)
  · obtain ⟨hne, hx⟩ := Finset.mem_erase.mp hx
    exact (h.placed x hx).imp_right fun hw => Finset.mem_erase.mpr ⟨hne, hw⟩

/-- Who is refused is in the queue from then on, where it may be already. -/
theorem Sound.refused (h : c.Sound n free queue due) (hf : free ≤ 0) (hm : me ∉ c.holding)
    (hl : me ∉ c.ended) (hq : q.Nodup) (hmem : ∀ x, x ∈ q ↔ x = me ∨ x ∈ queue) :
    (c.refused me).Sound n free q due := by
  have hw : (c.refused me).waiting q = insert me (c.waiting queue) := by
    ext x
    rw [Finset.mem_insert, mem_waiting, mem_waiting, hmem]
    constructor
    · rintro ⟨rfl | hx, hx'⟩
      · exact .inl rfl
      · exact .inr ⟨hx, hx'⟩
    · rintro (rfl | ⟨hx, hx'⟩)
      · exact ⟨.inl rfl, hl⟩
      · exact ⟨.inr hx, hx'⟩
  refine ⟨?_, h.total, hq, fun x hx => ?_, fun x hx => ?_, fun x hx => ?_, fun x hx => ?_⟩
  · have hr := h.fair.refuse hf hm
    unfold room
    rw [hw]
    exact hr
  · rw [hw] at hx
    rcases Finset.mem_insert.mp hx with rfl | hx
    · exact Finset.mem_insert_self x _
    · exact Finset.mem_insert_of_mem (h.asking x hx)
  · exact Finset.mem_insert_of_mem (h.woken x (Finset.mem_of_mem_erase hx))
  · rcases Finset.mem_insert.mp hx with rfl | hx
    · exact hl
    · exact h.live x hx
  · by_cases he : x = me
    · exact .inl ((hmem x).mpr (.inl he))
    · rcases h.placed x (Finset.mem_of_mem_insert_of_ne hx he) with hp | hp
      · exact .inl ((hmem x).mpr (.inr hp))
      · exact .inr (Finset.mem_erase.mpr ⟨he, hp⟩)

theorem Sound.gave (h : c.Sound n free queue due) (hm : me ∈ c.holding)
    (hk : 0 < k ∨ free + 1 ≤ 0) : (c.gave me).Sound n (free + 1) queue (due + k) where
  fair := h.fair.give hk
  total := (Room.total_give (r := c.room free queue due) (n := k) hm).trans h.total
  nodup := h.nodup
  asking := h.asking
  woken := h.woken
  live := h.live
  placed := h.placed

/-- Where the queue is empty, no wakening is due. -/
theorem Sound.idle (h : c.Sound n free [] due) (k : Nat) : c.Sound n free [] k :=
  { h with fair := h.fair.idle (by simp [room, waiting]) k }

/-- An object that has ended leaves the queue. -/
theorem Sound.pass (h : c.Sound n free (x :: queue) due) (hx : x ∈ c.ended) :
    c.Sound n free queue due := by
  have hw : c.waiting (x :: queue) = c.waiting queue := by
    ext y
    rw [mem_waiting, mem_waiting, List.mem_cons]
    constructor
    · rintro ⟨rfl | hy, hy'⟩
      · exact absurd hx hy'
      · exact ⟨hy, hy'⟩
    · exact fun ⟨hy, hy'⟩ => ⟨.inr hy, hy'⟩
  refine ⟨?_, h.total, h.nodup.of_cons, hw ▸ h.asking, h.woken, h.live, fun y hy => ?_⟩
  · have hf := h.fair
    unfold room at hf ⊢
    rwa [hw] at hf
  · rcases h.placed y hy with hp | hp
    · rcases List.mem_cons.mp hp with rfl | hp
      · exact absurd hx (h.live y hy)
      · exact .inl hp
    · exact .inr hp

/-- The head of the queue is taken off and woken, where a wakening is due. -/
theorem Sound.wakeup (h : c.Sound n free (x :: queue) (due + 1)) (hx : x ∉ c.ended) :
    (c.wakeup x).Sound n free queue due := by
  obtain ⟨hq, hn⟩ := List.nodup_cons.mp h.nodup
  have hmem : x ∈ c.waiting (x :: queue) := mem_waiting.mpr ⟨List.mem_cons_self, hx⟩
  have hask := h.asking x hmem
  have hw : c.waiting queue = (c.waiting (x :: queue)).erase x := by
    ext y
    rw [Finset.mem_erase, mem_waiting, mem_waiting, List.mem_cons]
    constructor
    · exact fun ⟨hy, hy'⟩ => ⟨fun he => hq (he ▸ hy), .inr hy, hy'⟩
    · rintro ⟨hne, hy | hy, hy'⟩
      · exact absurd hy hne
      · exact ⟨hy, hy'⟩
  rw [Callers.wakeup, if_pos hask]
  refine ⟨?_, h.total, hn, fun y hy => h.asking y ?_, fun y hy => ?_, h.live, fun y hy => ?_⟩
  · have hf := h.fair.wake hmem
    unfold room
    change Room.Fair ⟨free, c.holding, c.waiting queue, insert x c.woken, due⟩
    rw [hw]
    exact hf
  · obtain ⟨hy, hy'⟩ := mem_waiting.mp hy
    exact mem_waiting.mpr ⟨List.mem_cons_of_mem x hy, hy'⟩
  · rcases Finset.mem_insert.mp hy with rfl | hy
    · exact hask
    · exact h.woken y hy
  · rcases h.placed y hy with hp | hp
    · rcases List.mem_cons.mp hp with rfl | hp
      · exact .inr (Finset.mem_insert_self y _)
      · exact .inl hp
    · exact .inr (Finset.mem_insert_of_mem hp)

theorem Sound.finished (h : c.Sound n free queue due)
    (hx : me ∈ c.woken → free < c.woken.card + due ∨ c.waiting queue = ∅) :
    (c.finished me).Sound n free queue due := by
  have hw : (c.finished me).waiting queue = (c.waiting queue).erase me := by
    ext y
    rw [Finset.mem_erase, mem_waiting, mem_waiting]
    simp only [Callers.finished, Finset.mem_insert, not_or]
    exact ⟨fun ⟨hy, hne, hy'⟩ => ⟨hne, hy, hy'⟩, fun ⟨hne, hy, hy'⟩ => ⟨hy, hne, hy'⟩⟩
  refine ⟨?_, h.total, h.nodup, fun y hy => ?_, fun y hy => ?_, fun y hy => ?_, fun y hy => ?_⟩
  · have hf := h.fair.leave hx
    unfold room
    rw [hw]
    exact hf
  · rw [hw] at hy
    obtain ⟨hne, hy⟩ := Finset.mem_erase.mp hy
    exact Finset.mem_erase.mpr ⟨hne, h.asking y hy⟩
  · obtain ⟨hne, hy⟩ := Finset.mem_erase.mp hy
    exact Finset.mem_erase.mpr ⟨hne, h.woken y hy⟩
  · obtain ⟨hne, hy⟩ := Finset.mem_erase.mp hy
    simp only [Callers.finished, Finset.mem_insert, not_or]
    exact ⟨hne, h.live y hy⟩
  · obtain ⟨hne, hy⟩ := Finset.mem_erase.mp hy
    exact (h.placed y hy).imp_right fun hp => Finset.mem_erase.mpr ⟨hne, hp⟩

theorem Sound.sorted (h : c.Sound n free queue due) (hp : q.Perm queue) :
    c.Sound n free q due := by
  have hw : c.waiting q = c.waiting queue := by
    ext y
    rw [mem_waiting, mem_waiting, hp.mem_iff]
  refine ⟨?_, h.total, hp.nodup_iff.mpr h.nodup, hw ▸ h.asking, h.woken, h.live,
    fun y hy => (h.placed y hy).imp_left hp.mem_iff.mpr⟩
  have hf := h.fair
  unfold room at hf ⊢
  rwa [hw]

/-- Where a permit is free and an object waits, one that has been woken has not
asked again, or somebody is about to be woken. -/
theorem Sound.someone (h : c.Sound n free queue due) (hf : 0 < free) (hx : x ∈ c.asking) :
    (∃ y ∈ c.woken, y ∈ c.asking) ∨ 0 < due := by
  rcases h.placed x hx with hq | hw
  · rcases h.fair.someone hf ⟨x, mem_waiting.mpr ⟨hq, h.live x hx⟩⟩ with ⟨y, hy⟩ | hd
    · exact .inl ⟨y, hy, h.woken y hy⟩
    · exact .inr hd
  · exact .inl ⟨x, hw, hx⟩

end Callers

-- ---------------------------------------------------------------------------
-- stdSemaphore
-- ---------------------------------------------------------------------------

structure StdSemaphore (ω : Type) where
  count : Int
  i_waitQueue : List ω
  i_waitHash : Finset ω
  lastCaller : Option ω
  callers : Callers ω

inductive SemaphoreAct (ω : Type)
  | get (caller : ω)
  | release (me : ω)
  | finish (me : ω)
deriving DecidableEq

namespace StdSemaphore

variable [DecidableEq ω]

def get (s : StdSemaphore ω) (caller : ω) : StdSemaphore ω :=
  if s.count = 0 then
    let s := { s with callers := s.callers.refused caller }
    if caller ∈ s.i_waitHash then s
    else { s with
      i_waitQueue := s.i_waitQueue ++ [caller]
      i_waitHash := insert caller s.i_waitHash }
  else { s with
    count := s.count - 1
    lastCaller := if s.count - 1 = 0 then some caller else s.lastCaller
    callers := s.callers.took caller }

/-- The loop of `release`. -/
def wakeFirst (s : StdSemaphore ω) : List ω → StdSemaphore ω
  | [] => { s with i_waitQueue := [] }
  | target :: queue =>
    let s := { s with i_waitHash := s.i_waitHash.erase target }
    if target ∈ s.callers.ended then wakeFirst s queue
    else { s with i_waitQueue := queue, callers := s.callers.wakeup target }

def release (s : StdSemaphore ω) (me : ω) : StdSemaphore ω :=
  wakeFirst { s with count := s.count + 1, lastCaller := none, callers := s.callers.gave me }
    s.i_waitQueue

/-- Each caller wants one permit at a time, and gives back what it has. -/
def step (s : StdSemaphore ω) : SemaphoreAct ω → Option (StdSemaphore ω × List Unit)
  | .get caller =>
    if caller ∈ s.callers.holding ∨ caller ∈ s.callers.ended then none
    else some (s.get caller, [])
  | .release me => if me ∈ s.callers.holding then some (s.release me, []) else none
  | .finish me => some ({ s with callers := s.callers.finished me }, [])

def initial (ω : Type) [DecidableEq ω] (count : Int) : StdSemaphore ω :=
  { count := count, i_waitQueue := [], i_waitHash := ∅, lastCaller := none, callers := .none ω }

def machine (ω : Type) [DecidableEq ω] (count : Int) :
    Machine (StdSemaphore ω) (SemaphoreAct ω) Unit where
  init s := s = initial ω count
  step := step

/-- Who finds a permit is not in the queue, and who ends when it has been woken
leaves nobody in the queue or enough of the others that have been woken. -/
def Timely (s : StdSemaphore ω) : SemaphoreAct ω → Prop
  | .get caller => s.count ≠ 0 → caller ∉ s.i_waitQueue
  | .release _ => True
  | .finish me => me ∈ s.callers.woken →
      s.count < s.callers.woken.card ∨ s.callers.waiting s.i_waitQueue = ∅

instance (s : StdSemaphore ω) (a : SemaphoreAct ω) : Decidable (s.Timely a) := by
  cases a <;> unfold Timely <;> infer_instance

structure Sound (n : Int) (s : StdSemaphore ω) : Prop where
  callers : s.callers.Sound n s.count s.i_waitQueue 0
  hash : ∀ x, x ∈ s.i_waitHash ↔ x ∈ s.i_waitQueue

variable {s t : StdSemaphore ω} {n : Int} {me : ω} {a : SemaphoreAct ω} {os tr : List Unit}

theorem Sound.get (h : s.Sound n) (hm : me ∉ s.callers.holding) (hl : me ∉ s.callers.ended)
    (hq : s.count ≠ 0 → me ∉ s.i_waitQueue) : (s.get me).Sound n := by
  unfold StdSemaphore.get
  split
  · next hz =>
    have hf : s.count ≤ 0 := Int.le_of_eq hz
    dsimp only
    split
    · next hin =>
      have hin := (h.hash me).mp hin
      refine ⟨h.callers.refused hf hm hl h.callers.nodup fun x => ?_, h.hash⟩
      exact ⟨.inr, fun hx => hx.elim (fun he => he ▸ hin) id⟩
    · next hin =>
      have hin : me ∉ s.i_waitQueue := fun hx => hin ((h.hash me).mpr hx)
      refine ⟨h.callers.refused hf hm hl ?_ fun x => ?_, fun x => ?_⟩
      · exact (List.perm_append_singleton me s.i_waitQueue).nodup_iff.mpr
          (List.nodup_cons.mpr ⟨hin, h.callers.nodup⟩)
      · rw [List.mem_append, List.mem_singleton, or_comm]
      · rw [Finset.mem_insert, List.mem_append, List.mem_singleton, or_comm, h.hash]
  · next hz => exact ⟨h.callers.took hm (hq hz), h.hash⟩

theorem Sound.wakeFirst {queue : List ω} (hc : s.callers.Sound n s.count queue 1)
    (hh : ∀ x, x ∈ s.i_waitHash ↔ x ∈ queue) : (s.wakeFirst queue).Sound n := by
  induction queue generalizing s with
  | nil => exact ⟨hc.idle 0, hh⟩
  | cons target queue ih =>
    have hn := (List.nodup_cons.mp hc.nodup).1
    have hh' : ∀ x, x ∈ s.i_waitHash.erase target ↔ x ∈ queue := by
      intro x
      rw [Finset.mem_erase, hh, List.mem_cons]
      exact ⟨fun ⟨hne, hx⟩ => hx.resolve_left hne, fun hx => ⟨fun he => hn (he ▸ hx), .inr hx⟩⟩
    unfold StdSemaphore.wakeFirst
    dsimp only
    split
    · next hend =>
      refine ih (s := { s with i_waitHash := s.i_waitHash.erase target }) ?_ hh'
      exact hc.pass hend
    · next hend => exact ⟨hc.wakeup hend, hh'⟩

theorem Sound.step (h : s.Sound n) (hc : s.Timely a) (hs : s.step a = some (t, os)) :
    t.Sound n := by
  cases a with
  | get caller =>
    obtain ⟨hg, he⟩ := Option.ite_none_left_eq_some.mp hs
    cases he
    exact h.get (fun hm => hg (.inl hm)) (fun hl => hg (.inr hl)) hc
  | release me =>
    obtain ⟨hm, he⟩ := Option.ite_none_right_eq_some.mp hs
    cases he
    exact Sound.wakeFirst (h.callers.gave hm (.inl Nat.one_pos)) h.hash
  | finish me =>
    cases hs
    exact ⟨h.callers.finished hc, h.hash⟩

theorem Sound.run (h : (machine ω n).RunIf Timely tr s) : s.Sound n := by
  refine h.stateInvariant (I := Sound n) ?start fun s a t os hi hc hs => hi.step hc hs
  case start =>
    rintro s rfl
    exact ⟨.none n, by simp [initial]⟩

end StdSemaphore

-- ---------------------------------------------------------------------------
-- stdLimitSemaphore
-- ---------------------------------------------------------------------------

/-- `releasing` are the loops of `release` that are running, with the wakenings
that each has still to make. -/
structure StdLimitSemaphore (ω : Type) where
  limit : Int
  count : Int
  i_waitQueue : List ω
  i_sorted : Bool
  callers : Callers ω
  releasing : List Nat

inductive LimitSemaphoreAct (ω : Type)
  | get (caller : ω)
  /-- With what the `priority()` of each object in the queue is then. -/
  | release (me : ω) (priority : ω → Int)
  | turn (i : Nat)
  | finish (me : ω)

namespace StdLimitSemaphore

variable [DecidableEq ω]

def get (s : StdLimitSemaphore ω) (caller : ω) : StdLimitSemaphore ω :=
  if s.limit ≤ s.count then { s with
    i_waitQueue := s.i_waitQueue ++ [caller]
    i_sorted := false
    callers := s.callers.refused caller }
  else { s with
    count := s.count + 1
    callers := s.callers.took caller }

/-- `release`, up to its loop. -/
def release (s : StdLimitSemaphore ω) (me : ω) (priority : ω → Int) : StdLimitSemaphore ω :=
  let s := { s with count := s.count - 1, callers := s.callers.gave me }
  let sub := s.limit - s.count
  if sub ≤ 0 then s
  else { s with
    i_waitQueue :=
      if s.i_sorted then s.i_waitQueue
      else s.i_waitQueue.insertionSort fun a b => priority a ≤ priority b
    i_sorted := true
    releasing := min sub.toNat s.i_waitQueue.length :: s.releasing }

/-- A turn of a loop of `release` that has `left` wakenings to make. -/
def turn (s : StdLimitSemaphore ω) : Nat → StdLimitSemaphore ω
  | 0 => s
  | left + 1 =>
    match s.i_waitQueue with
    | [] => s
    | target :: queue =>
      if target ∈ s.callers.ended then
        { s with i_waitQueue := queue, releasing := (left + 1) :: s.releasing }
      else
        { s with
          i_waitQueue := queue
          callers := s.callers.wakeup target
          releasing := left :: s.releasing }

/-- Each caller wants one permit at a time, and gives back what it has. -/
def step (s : StdLimitSemaphore ω) :
    LimitSemaphoreAct ω → Option (StdLimitSemaphore ω × List Unit)
  | .get caller =>
    if caller ∈ s.callers.holding ∨ caller ∈ s.callers.ended then none
    else some (s.get caller, [])
  | .release me priority =>
    if me ∈ s.callers.holding then some (s.release me priority, []) else none
  | .turn i =>
    s.releasing[i]?.map fun left =>
      (({ s with releasing := s.releasing.eraseIdx i }).turn left, [])
  | .finish me => some ({ s with callers := s.callers.finished me }, [])

def initial (ω : Type) [DecidableEq ω] (limit : Int) : StdLimitSemaphore ω :=
  { limit := limit, count := 0, i_waitQueue := [], i_sorted := false, callers := .none ω,
    releasing := [] }

def machine (ω : Type) [DecidableEq ω] (limit : Int) :
    Machine (StdLimitSemaphore ω) (LimitSemaphoreAct ω) Unit where
  init s := s = initial ω limit
  step := step

/-- Nobody asks who is in the queue, and who ends when it has been woken leaves
nobody in the queue or enough of the others that have been or are to be woken. -/
def Timely (s : StdLimitSemaphore ω) : LimitSemaphoreAct ω → Prop
  | .get caller => caller ∉ s.i_waitQueue
  | .release .. | .turn _ => True
  | .finish me => me ∈ s.callers.woken →
      s.limit - s.count < s.callers.woken.card + s.releasing.sum ∨
        s.callers.waiting s.i_waitQueue = ∅

instance (s : StdLimitSemaphore ω) (a : LimitSemaphoreAct ω) : Decidable (s.Timely a) := by
  cases a <;> unfold Timely <;> infer_instance

def Sound (n : Int) (s : StdLimitSemaphore ω) : Prop :=
  s.limit = n ∧ s.callers.Sound n (s.limit - s.count) s.i_waitQueue s.releasing.sum

variable {s t : StdLimitSemaphore ω} {n : Int} {me : ω} {a : LimitSemaphoreAct ω}
  {os tr : List Unit}

theorem Sound.get (h : s.Sound n) (hm : me ∉ s.callers.holding) (hl : me ∉ s.callers.ended)
    (hq : me ∉ s.i_waitQueue) : (s.get me).Sound n := by
  obtain ⟨hn, h⟩ := h
  unfold StdLimitSemaphore.get
  split
  · refine ⟨hn, h.refused (by omega) hm hl ?_ fun x => ?_⟩
    · exact (List.perm_append_singleton me s.i_waitQueue).nodup_iff.mpr
        (List.nodup_cons.mpr ⟨hq, h.nodup⟩)
    · rw [List.mem_append, List.mem_singleton, or_comm]
  · have he : s.limit - (s.count + 1) = s.limit - s.count - 1 := by omega
    refine ⟨hn, ?_⟩
    dsimp only
    rw [he]
    exact h.took hm hq

theorem Sound.release (h : s.Sound n) (hm : me ∈ s.callers.holding) (priority : ω → Int) :
    (s.release me priority).Sound n := by
  obtain ⟨hn, h⟩ := h
  have he : s.limit - (s.count - 1) = s.limit - s.count + 1 := by omega
  unfold StdLimitSemaphore.release
  dsimp only
  split
  · refine ⟨hn, ?_⟩
    have hg := h.gave (k := 0) hm (.inr (by omega))
    dsimp only
    rwa [he]
  · refine ⟨hn, ?_⟩
    have hsort : (if s.i_sorted then s.i_waitQueue
        else s.i_waitQueue.insertionSort fun a b => priority a ≤ priority b).Perm s.i_waitQueue := by
      split
      · exact .refl _
      · exact List.perm_insertionSort _ _
    refine Callers.Sound.sorted ?_ hsort
    dsimp only
    rw [he, List.sum_cons, Nat.add_comm]
    by_cases hq : s.i_waitQueue = []
    · -- with nobody in the queue the loop ends at once
      rw [hq]
      rw [hq] at h
      exact (h.gave (k := 1) hm (.inl Nat.one_pos)).idle _
    · have hlen := List.length_pos_iff.mpr hq
      exact h.gave hm (.inl (by omega))

theorem Sound.turn {i left : Nat} (h : s.Sound n) (hi : s.releasing[i]? = some left) :
    (({ s with releasing := s.releasing.eraseIdx i }).turn left).Sound n := by
  obtain ⟨hn, h⟩ := h
  obtain ⟨hlt, hl⟩ := List.getElem?_eq_some_iff.mp hi
  have hsum : (s.releasing.eraseIdx i).sum + left = s.releasing.sum := by
    rw [← hl, Nat.add_comm, ← List.sum_cons]
    exact (List.getElem_cons_eraseIdx_perm hlt).sum_nat
  rw [← hsum] at h
  unfold StdLimitSemaphore.turn
  split
  · exact ⟨hn, h⟩
  · next left =>
    dsimp only
    split
    · next hq =>
      rw [hq] at h
      exact ⟨hn, by dsimp only; rw [hq]; exact h.idle _⟩
    · next target queue hq =>
      rw [hq] at h
      split
      · next hend =>
        refine ⟨hn, ?_⟩
        dsimp only
        rw [List.sum_cons, Nat.add_comm]
        exact h.pass hend
      · next hend =>
        refine ⟨hn, ?_⟩
        dsimp only
        rw [List.sum_cons, Nat.add_comm]
        exact h.wakeup hend

theorem Sound.step (h : s.Sound n) (hc : s.Timely a) (hs : s.step a = some (t, os)) :
    t.Sound n := by
  cases a with
  | get caller =>
    obtain ⟨hg, he⟩ := Option.ite_none_left_eq_some.mp hs
    cases he
    exact h.get (fun hm => hg (.inl hm)) (fun hl => hg (.inr hl)) hc
  | release me priority =>
    obtain ⟨hm, he⟩ := Option.ite_none_right_eq_some.mp hs
    cases he
    exact h.release hm priority
  | turn i =>
    obtain ⟨left, hi, he⟩ := Option.map_eq_some_iff.mp hs
    cases he
    exact h.turn hi
  | finish me =>
    cases hs
    exact ⟨h.1, h.2.finished hc⟩

theorem Sound.run (h : (machine ω n).RunIf Timely tr s) : s.Sound n := by
  refine h.stateInvariant (I := Sound n) ?start fun s a t os hi hc hs => hi.step hc hs
  case start =>
    rintro s rfl
    refine ⟨rfl, ?_⟩
    simpa [initial] using Callers.Sound.none (ω := ω) n

end StdLimitSemaphore

-- ---------------------------------------------------------------------------
-- The law
-- ---------------------------------------------------------------------------

/-- No permit is lost or made, and nobody waits at a free permit unless somebody
that has been woken is still to ask again. A loop of `release` that is running
may have that wakening still to make. -/
theorem semaphores_law {ω : Type} [DecidableEq ω] (n : Int) (tr : List Unit) :
    (∀ s, (StdSemaphore.machine ω n).RunIf StdSemaphore.Timely tr s →
      s.count + s.callers.holding.card = n ∧
      (0 < s.count → s.callers.asking.Nonempty →
        ∃ x ∈ s.callers.woken, x ∈ s.callers.asking ∧ x ∉ s.callers.ended)) ∧
    ∀ s, (StdLimitSemaphore.machine ω n).RunIf StdLimitSemaphore.Timely tr s →
      s.limit - s.count + s.callers.holding.card = s.limit ∧ s.limit = n ∧
      (s.count < s.limit → s.callers.asking.Nonempty →
        (∃ x ∈ s.callers.woken, x ∈ s.callers.asking ∧ x ∉ s.callers.ended) ∨
          ∃ left ∈ s.releasing, 0 < left) := by
  constructor
  · intro s h
    have hi := StdSemaphore.Sound.run h
    refine ⟨hi.callers.total, fun hf ⟨y, hy⟩ => ?_⟩
    rcases hi.callers.someone hf hy with ⟨x, hw, hx⟩ | hd
    · exact ⟨x, hw, hx, hi.callers.live x hx⟩
    · exact absurd hd (Nat.lt_irrefl 0)
  · intro s h
    obtain ⟨hn, hi⟩ := StdLimitSemaphore.Sound.run h
    refine ⟨hi.total.trans hn.symm, hn, fun hf ⟨y, hy⟩ => ?_⟩
    rcases hi.someone (by omega) hy with ⟨x, hw, hx⟩ | hd
    · exact .inl ⟨x, hw, hx, hi.live x hx⟩
    · exact .inr (List.sum_pos_iff_exists_pos_nat.mp hd)

/-- One permit, one who has it and two who wait; the first of them has ended when
the permit is given back. -/
theorem semaphores_law_woken :
    (∃ tr s, (StdSemaphore.machine (Fin 3) 1).RunIf StdSemaphore.Timely tr s ∧ s.count = 1 ∧
      1 ∈ s.callers.ended ∧ ∃ x ∈ s.callers.woken, x ∈ s.callers.asking ∧ x ∉ s.callers.ended) ∧
    ∃ tr s, (StdLimitSemaphore.machine (Fin 3) 1).RunIf StdLimitSemaphore.Timely tr s ∧
      s.count = 0 ∧ 1 ∈ s.callers.ended ∧
      ∃ x ∈ s.callers.woken, x ∈ s.callers.asking ∧ x ∉ s.callers.ended := by
  constructor
  · obtain ⟨tr, s, h, hc, he, ha⟩ := Machine.exists_run (M := StdSemaphore.machine (Fin 3) 1)
      (C := StdSemaphore.Timely)
      (P := fun _ s => s.count = 1 ∧ 1 ∈ s.callers.ended ∧ s.callers.asking.Nonempty)
      [.get 0, .get 1, .get 2, .finish 1, .release 0] rfl (by decide)
    exact ⟨tr, s, h, hc, he, ((semaphores_law 1 tr).1 s h).2 (by omega) ha⟩
  · obtain ⟨tr, s, h, hc, hl, he, hr, ha⟩ := Machine.exists_run
      (M := StdLimitSemaphore.machine (Fin 3) 1) (C := StdLimitSemaphore.Timely)
      (P := fun _ s => s.count = 0 ∧ s.limit = 1 ∧ 1 ∈ s.callers.ended ∧ s.releasing.sum = 0 ∧
        s.callers.asking.Nonempty)
      [.get 0, .get 1, .get 2, .finish 1, .release 0 fun _ => 0, .turn 0, .turn 0, .turn 0] rfl
      (by decide)
    refine ⟨tr, s, h, hc, he, ?_⟩
    rcases ((semaphores_law 1 tr).2 s h).2.2 (by omega) ha with hx | ⟨left, hm, hpos⟩
    · exact hx
    · exact absurd (List.sum_pos_iff_exists_pos_nat.mpr ⟨left, hm, hpos⟩) (by omega)

/-- The second of those who wait comes first, and is still in the queue when it
gives the permit back. Or the one that has been woken ends. Or, with
`stdLimitSemaphore`, it is in the queue twice. -/
theorem semaphores_strand :
    (∃ tr s, (StdSemaphore.machine (Fin 3) 1).Run tr s ∧ s.count = 1 ∧ 1 ∈ s.callers.asking ∧
      1 ∉ s.callers.ended ∧ s.callers.woken = ∅) ∧
    (∃ tr s, (StdSemaphore.machine (Fin 3) 1).Run tr s ∧ s.count = 1 ∧ 2 ∈ s.callers.asking ∧
      2 ∉ s.callers.ended ∧ s.callers.woken = ∅) ∧
    ∃ tr s, (StdLimitSemaphore.machine (Fin 3) 1).Run tr s ∧ s.count < s.limit ∧
      2 ∈ s.callers.asking ∧ 2 ∉ s.callers.ended ∧ s.callers.woken = ∅ ∧ s.releasing = [] := by
  refine ⟨?_, ?_, ?_⟩
  · refine Machine.exists_run
      [.get 0, .get 1, .get 2, .release 0, .get 2, .get 1, .release 2] rfl ?_
    decide
  · refine Machine.exists_run [.get 0, .get 1, .get 2, .release 0, .finish 1] rfl ?_
    decide
  · refine Machine.exists_run
      [.get 0, .get 1, .get 1, .get 2, .release 0 fun _ => 0, .turn 0, .turn 0, .get 1,
        .release 1 fun _ => 0, .turn 0, .turn 0] rfl ?_
    decide

end TinyState.Js
