import TinyState.Lib.Machine
import TinyState.Lib.Permits
import TinyState.Sync.WaitQueue

/-!
# stdSemaphore

`get` takes a permit or puts its caller in the wait queue and throws; `release`
gives one back and wakes the head of the queue. The calls are made under the
application's mutex, and the wakening is the last thing `release` does, so that
what runs inside it comes after. Whoever was refused may call `get` again for
any reason.

As long as nobody who finds a permit is still in the queue, every permit is
somebody's or free, and nobody waits behind a free one without another having
been woken for it.
-/

namespace TinyState

open Transition Permits

/-- `stdSemaphore`. The last three fields are history: who has a permit, who has
been refused and not got one since, and who of these has been taken off the
queue and woken and has not called again. -/
structure StdSemaphore (ω : Type) where
  count : Int
  wait : StdQueue ω
  enablePriority : Bool
  holding : Finset ω
  asking : Finset ω
  woken : Finset ω

inductive SemaphoreAct (ω : Type)
  /-- With the value of the caller's `priority()`. -/
  | get (me : ω) (priority : Int)
  | release (me : ω)
  | insNeq (v : Bool)
  | enablePriority (v : Bool)
  deriving DecidableEq, Repr

namespace StdSemaphore

variable {ω : Type} [DecidableEq ω]

def get (s : StdSemaphore ω) (me : ω) (priority : Int) : StdSemaphore ω :=
  if 0 < s.count then { s with
    count := s.count - 1
    holding := insert me s.holding
    asking := s.asking.erase me
    woken := s.woken.erase me }
  else
    let s := { s with
      asking := insert me s.asking
      woken := s.woken.erase me }
    if s.wait.check me then s
    else { s with wait := s.wait.ins (if s.enablePriority then priority else maxInteger64) me }

/-- `obj->wakeup()`: whoever has what it asked for is not kept waiting by it. -/
def wakeup (s : StdSemaphore ω) (obj : ω) : StdSemaphore ω :=
  if obj ∈ s.asking then { s with woken := insert obj s.woken } else s

def release (s : StdSemaphore ω) (me : ω) : StdSemaphore ω :=
  let s := { s with
    count := s.count + 1
    holding := s.holding.erase me }
  match s.wait.del with
  | none => s
  | some (obj, q) => { s with wait := q }.wakeup obj

/-- Each caller wants one permit at a time, and gives back what it has. -/
def step (s : StdSemaphore ω) : SemaphoreAct ω → Option (StdSemaphore ω × List Unit)
  | .get me priority => if me ∈ s.holding then none else some (s.get me priority, [])
  | .release me => if me ∈ s.holding then some (s.release me, []) else none
  | .insNeq v => some ({ s with wait := { s.wait with insNeq := v } }, [])
  | .enablePriority v => some ({ s with enablePriority := v }, [])

def initial (ω : Type) (count : Int) : StdSemaphore ω where
  count := count
  wait := ⟨[], true⟩
  enablePriority := false
  holding := ∅
  asking := ∅
  woken := ∅

def machine (ω : Type) [DecidableEq ω] (count : Int) :
    Machine (StdSemaphore ω) (SemaphoreAct ω) Unit where
  init s := s = initial ω count
  step := step

-- ---------------------------------------------------------------------------
-- The room of those who wait
-- ---------------------------------------------------------------------------

def room (s : StdSemaphore ω) : Room ω where
  free := s.count
  holding := s.holding
  waiting := s.wait.members.toFinset
  woken := s.woken
  due := 0

structure Sound (n : Int) (s : StdSemaphore ω) : Prop where
  fair : s.room.Fair
  total : s.room.total = n
  nodup : s.wait.members.Nodup
  asking : ∀ x ∈ s.wait.members, x ∈ s.asking
  woken : ∀ x ∈ s.woken, x ∈ s.asking

/-- Who finds a permit is not in the queue. -/
def Unqueued (s : StdSemaphore ω) : SemaphoreAct ω → Prop
  | .get me _ => 0 < s.count → me ∉ s.wait.members
  | _ => True

instance (s : StdSemaphore ω) : (a : SemaphoreAct ω) → Decidable (s.Unqueued a)
  | .get _ _ => inferInstanceAs (Decidable (_ → _))
  | .release _ | .insNeq _ | .enablePriority _ => isTrue trivial

variable {s t : StdSemaphore ω} {me : ω} {n priority : Int}

theorem Sound.get (h : Sound n s) (hm : me ∉ s.holding) (hq : 0 < s.count → me ∉ s.wait.members) :
    Sound n (s.get me priority) := by
  unfold StdSemaphore.get
  split
  · rename_i hc
    have hw : me ∉ s.wait.members := hq hc
    refine ⟨h.fair.take (x := me) (by simpa [room] using hw), ?_, h.nodup, fun x hx => ?_,
      fun x hx => ?_⟩
    · exact (Room.total_take (r := s.room) hm).trans h.total
    · exact Finset.mem_erase.mpr ⟨fun he => hw (he ▸ hx), h.asking x hx⟩
    · obtain ⟨hne, hx⟩ := Finset.mem_erase.mp hx
      exact Finset.mem_erase.mpr ⟨hne, h.woken x hx⟩
  · rename_i hc
    have hf := h.fair.refuse (x := me) (by simpa [room] using hc) hm
    have hwok : ∀ x ∈ s.woken.erase me, x ∈ insert me s.asking := fun x hx =>
      Finset.mem_insert_of_mem (h.woken x (Finset.mem_of_mem_erase hx))
    dsimp only
    split
    · rename_i hk
      have hk : me ∈ s.wait.members := StdQueue.check_iff.mp hk
      refine ⟨?_, h.total, h.nodup, fun x hx => Finset.mem_insert_of_mem (h.asking x hx), hwok⟩
      simpa [room, Room.refuse, Finset.insert_eq_of_mem (List.mem_toFinset.mpr hk)] using hf
    · rename_i hk
      have hk : me ∉ s.wait.members := fun hm => hk (StdQueue.check_iff.mpr hm)
      have hp := s.wait.members_ins (if s.enablePriority then priority else maxInteger64) me
      refine ⟨?_, h.total, ?_, fun x hx => ?_, hwok⟩
      · unfold room
        dsimp only
        rw [List.toFinset_eq_of_perm _ _ hp, List.toFinset_cons]
        exact hf
      · rw [hp.nodup_iff]
        exact List.nodup_cons.mpr ⟨hk, h.nodup⟩
      · rcases List.mem_cons.mp (hp.mem_iff.mp hx) with rfl | hx
        · exact Finset.mem_insert_self x s.asking
        · exact Finset.mem_insert_of_mem (h.asking x hx)

theorem Sound.release (h : Sound n s) (hm : me ∈ s.holding) : Sound n (s.release me) := by
  have hg := h.fair.give (x := me) (n := 1) (.inl Nat.one_pos)
  have ht := (Room.total_give (r := s.room) (n := 1) hm).trans h.total
  unfold StdSemaphore.release
  dsimp only
  split
  · rename_i hd
    have he : s.wait.members = [] := StdQueue.del_none.mp hd
    exact ⟨hg.idle (by simp [room, Room.give, he]) 0, ht, h.nodup, h.asking, h.woken⟩
  · rename_i obj q hd
    have hmem := StdQueue.members_del hd
    have hn := h.nodup
    rw [hmem] at hn
    obtain ⟨ho, hn⟩ := List.nodup_cons.mp hn
    have hask : obj ∈ s.asking := h.asking obj (by simp [hmem])
    have hw := hg.wake (x := obj) (by simp [room, Room.give, hmem])
    rw [wakeup, if_pos hask]
    refine ⟨?_, ht, hn, fun x hx => h.asking x (by simp [hmem, hx]), fun x hx => ?_⟩
    · simpa [room, Room.give, Room.wake, hmem, ho] using hw
    · rcases Finset.mem_insert.mp hx with rfl | hx
      · exact hask
      · exact h.woken x hx

theorem Sound.step (h : Sound n s) (hc : s.Unqueued a) (hs : s.step a = some (t, os)) :
    Sound n t := by
  cases a with
  | get me priority =>
    obtain ⟨hm, rfl, -⟩ : me ∉ s.holding ∧ s.get me priority = t ∧ [] = os := by
      simpa [StdSemaphore.step] using hs
    exact h.get hm hc
  | release me =>
    obtain ⟨hm, rfl, -⟩ : me ∈ s.holding ∧ s.release me = t ∧ [] = os := by
      simpa [StdSemaphore.step] using hs
    exact h.release hm
  | insNeq v =>
    obtain ⟨rfl, -⟩ : { s with wait := { s.wait with insNeq := v } } = t ∧ [] = os := by
      simpa [StdSemaphore.step] using hs
    exact ⟨h.fair, h.total, h.nodup, h.asking, h.woken⟩
  | enablePriority v =>
    obtain ⟨rfl, -⟩ : { s with enablePriority := v } = t ∧ [] = os := by
      simpa [StdSemaphore.step] using hs
    exact ⟨h.fair, h.total, h.nodup, h.asking, h.woken⟩

theorem Sound.initial (n : Int) : Sound n (initial ω n) where
  fair := ⟨nofun, nofun, nofun⟩
  total := by simp [Room.total, room, StdSemaphore.initial]
  nodup := List.nodup_nil
  asking := nofun
  woken := nofun

theorem Sound.run (h : (machine ω n).RunIf Unqueued tr s) : Sound n s := by
  refine h.stateInvariant (I := Sound n) ?_ fun s a t os hi hc hs => hi.step hc hs
  rintro s rfl
  exact Sound.initial n

end StdSemaphore

open StdSemaphore

/-- No permit is lost or made, nobody waits for the permit it has, and nobody
waits behind a free permit alone. -/
theorem semaphore_law {ω : Type} [DecidableEq ω] {n : Int} {tr : List Unit} {s : StdSemaphore ω}
    (h : (machine ω n).RunIf Unqueued tr s) :
    s.count + s.holding.card = n ∧ (∀ x ∈ s.holding, x ∉ s.wait.members) ∧
    (0 < s.count → s.wait.members ≠ [] → ∃ x ∈ s.woken, x ∈ s.asking ∧ x ∉ s.wait.members) := by
  have hi := Sound.run h
  refine ⟨hi.total, fun x hx hw => hi.fair.apart x hx (List.mem_toFinset.mpr hw), fun hc hw => ?_⟩
  rcases hi.fair.someone hc (List.toFinset_nonempty_iff _ |>.mpr hw) with ⟨x, hx⟩ | hd
  · exact ⟨x, hx, hi.woken x hx, fun hm => hi.fair.left x hx (List.mem_toFinset.mpr hm)⟩
  · exact absurd hd (Nat.lt_irrefl 0)

/-- One permit, one who has it, and two who wait; it is given back. -/
def giveBack (a b c : Fin 3) : List (SemaphoreAct (Fin 3)) :=
  [.get a 0, .get b 0, .get c 0, .release a]

theorem waiter_woken : ∃ tr s, (machine (Fin 3) 1).RunIf Unqueued tr s ∧ s.count = 1 ∧
    s.wait.members = [2] ∧ ∃ x ∈ s.woken, x ∈ s.asking ∧ x ∉ s.wait.members := by
  obtain ⟨tr, s, h, hc, hw⟩ := Machine.exists_run (M := machine (Fin 3) 1) (C := Unqueued)
    (P := fun _ s => s.count = 1 ∧ s.wait.members = [2]) (giveBack 0 1 2) rfl (by decide)
  exact ⟨tr, s, h, hc, hw, (semaphore_law h).2.2 (by simp [hc]) (by simp [hw])⟩

/-- The second of those who wait comes first. It has the permit and is in the
queue; and when it has given the permit back, it is the one that is taken off
the queue, while the other waits behind a free permit. -/
theorem waiter_stranded :
    (∃ tr s, (machine (Fin 3) 1).Run tr s ∧ 2 ∈ s.holding ∧ 2 ∈ s.wait.members) ∧
    ∃ tr s, (machine (Fin 3) 1).Run tr s ∧ s.count = 1 ∧ s.wait.members = [1] ∧
      1 ∈ s.asking ∧ s.woken = ∅ := by
  constructor
  · refine Machine.exists_run (giveBack 0 1 2 ++ [SemaphoreAct.get 2 0]) rfl ?_
    decide
  · refine Machine.exists_run (giveBack 0 1 2 ++ [SemaphoreAct.get 2 0, .get 1 0, .release 2]) rfl ?_
    decide

end TinyState
