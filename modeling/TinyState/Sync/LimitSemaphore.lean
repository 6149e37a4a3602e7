import TinyState.Lib.Machine
import TinyState.Lib.Permits
import TinyState.Sync.WaitQueue
import Mathlib.Data.List.Perm.Basic

/-!
# stdLimitSemaphore

The permits are counted from below, up to a limit that may change. `limit(n)`
with a higher limit wakes one waiter for each permit more, in a loop; what the
wakenings run comes between its turns, so that further calls, of `limit` too,
may come before the loop is at its end.
-/

namespace TinyState

open Transition Permits

/-- `stdLimitSemaphore`. `limiting` are the calls of `limit` under way, each by
the turns it has left; the last three fields are history, as in `StdSemaphore`. -/
structure StdLimitSemaphore (ω : Type) where
  count : Int
  vLimit : Int
  wait : LimitWait ω
  enablePriority : Bool
  limiting : List Nat
  panicked : Bool
  holding : Finset ω
  asking : Finset ω
  woken : Finset ω

inductive LimitAct (ω : Type)
  /-- With the value of the caller's `priority()`. -/
  | get (me : ω) (priority : Int)
  | release (me : ω)
  | limit (lim : Int)
  /-- A turn of one of the loops of `limit`. -/
  | turn (i : Nat)
  | insNeq (v : Bool)
  | enablePriority (v : Bool)
  deriving DecidableEq, Repr

namespace StdLimitSemaphore

variable {ω : Type} [DecidableEq ω]

def get (s : StdLimitSemaphore ω) (me : ω) (priority : Int) : StdLimitSemaphore ω :=
  if s.count < s.vLimit then { s with
    count := s.count + 1
    holding := insert me s.holding
    asking := s.asking.erase me
    woken := s.woken.erase me }
  else
    let s := { s with
      asking := insert me s.asking
      woken := s.woken.erase me }
    if s.wait.wHas me then s
    else { s with wait := s.wait.wIns (if s.enablePriority then priority else maxInteger64) me }

/-- `obj->wakeup()`: whoever has what it asked for is not kept waiting by it. -/
def wakeup (s : StdLimitSemaphore ω) (obj : ω) : StdLimitSemaphore ω :=
  if obj ∈ s.asking then { s with woken := insert obj s.woken } else s

def release (s : StdLimitSemaphore ω) (me : ω) : StdLimitSemaphore ω :=
  if s.count ≤ 0 then { s with panicked := true }
  else
    let s := { s with
      count := s.count - 1
      holding := s.holding.erase me }
    if s.vLimit ≤ s.count then s
    else match s.wait.wDel with
      | none => s
      | some (obj, q) => { s with wait := q }.wakeup obj

def limit (s : StdLimitSemaphore ω) (lim : Int) : StdLimitSemaphore ω :=
  if lim < 1 then s
  else if s.vLimit = lim then s
  else if lim < s.vLimit then { s with vLimit := lim }
  else { s with
    vLimit := lim
    limiting := (lim - s.vLimit).toNat :: s.limiting }

/-- `left` are the turns that the loop has left. -/
def turn (s : StdLimitSemaphore ω) (left : Nat) : StdLimitSemaphore ω :=
  match left with
  | 0 => s
  | left + 1 => match s.wait.wDel with
    | none => s
    | some (obj, q) => { s with
        wait := q
        limiting := left :: s.limiting }.wakeup obj

/-- Each caller wants one permit at a time, and gives back what it has. -/
def step (s : StdLimitSemaphore ω) (a : LimitAct ω) :
    Option (StdLimitSemaphore ω × List Unit) :=
  if s.panicked then none
  else match a with
    | .get me priority => if me ∈ s.holding then none else some (s.get me priority, [])
    | .release me => if me ∈ s.holding then some (s.release me, []) else none
    | .limit lim => some (s.limit lim, [])
    | .turn i =>
      match s.limiting[i]? with
      | none => none
      | some left => some (({ s with limiting := s.limiting.eraseIdx i }).turn left, [])
    | .insNeq v => some ({ s with wait := { s.wait with insNeq := v } }, [])
    | .enablePriority v => some ({ s with enablePriority := v }, [])

def initial (ω : Type) (lim : Int) : StdLimitSemaphore ω where
  count := 0
  vLimit := lim
  wait := ⟨[], ∅, true⟩
  enablePriority := false
  limiting := []
  panicked := false
  holding := ∅
  asking := ∅
  woken := ∅

def machine (ω : Type) [DecidableEq ω] (lim : Int) :
    Machine (StdLimitSemaphore ω) (LimitAct ω) Unit where
  init s := s = initial ω lim
  step := step

-- ---------------------------------------------------------------------------
-- The room of those who wait
-- ---------------------------------------------------------------------------

def room (s : StdLimitSemaphore ω) : Room ω where
  free := s.vLimit - s.count
  holding := s.holding
  waiting := s.wait.idx
  woken := s.woken
  due := s.limiting.sum

structure Sound (s : StdLimitSemaphore ω) : Prop where
  fair : s.room.Fair
  count : s.count = s.holding.card
  indexed : s.wait.Indexed
  asking : ∀ x ∈ s.wait.idx, x ∈ s.asking
  woken : ∀ x ∈ s.woken, x ∈ s.asking
  calm : s.panicked = false

/-- Who finds a permit is not in the queue. -/
def Unqueued (s : StdLimitSemaphore ω) : LimitAct ω → Prop
  | .get me _ => s.count < s.vLimit → me ∉ s.wait.members
  | _ => True

instance (s : StdLimitSemaphore ω) : (a : LimitAct ω) → Decidable (s.Unqueued a)
  | .get _ _ => inferInstanceAs (Decidable (_ → _))
  | .release _ | .limit _ | .turn _ | .insNeq _ | .enablePriority _ => isTrue trivial

variable {s t : StdLimitSemaphore ω} {me : ω} {priority : Int}

theorem Sound.get (h : Sound s) (hm : me ∉ s.holding)
    (hq : s.count < s.vLimit → me ∉ s.wait.members) : Sound (s.get me priority) := by
  unfold StdLimitSemaphore.get
  split
  · rename_i hc
    have hw : me ∉ s.wait.idx := fun hw => hq hc ((h.indexed.idx me).mp hw)
    refine ⟨?_, ?_, h.indexed, fun x hx => ?_, fun x hx => ?_, h.calm⟩
    · have hf := h.fair.take (x := me) hw
      have he : s.vLimit - (s.count + 1) = s.vLimit - s.count - 1 := by omega
      unfold room
      dsimp only
      rw [he]
      exact hf
    · simp only [Finset.card_insert_of_notMem hm, h.count]
      omega
    · exact Finset.mem_erase.mpr ⟨fun he => hw (he ▸ hx), h.asking x hx⟩
    · obtain ⟨hne, hx⟩ := Finset.mem_erase.mp hx
      exact Finset.mem_erase.mpr ⟨hne, h.woken x hx⟩
  · rename_i hc
    have hf := h.fair.refuse (x := me) (by simp only [room]; omega) hm
    have hwok : ∀ x ∈ s.woken.erase me, x ∈ insert me s.asking := fun x hx =>
      Finset.mem_insert_of_mem (h.woken x (Finset.mem_of_mem_erase hx))
    dsimp only
    split
    · rename_i hk
      have hk : me ∈ s.wait.idx := by simpa [LimitWait.wHas] using hk
      refine ⟨?_, h.count, h.indexed, fun x hx => Finset.mem_insert_of_mem (h.asking x hx), hwok,
        h.calm⟩
      simpa [room, Room.refuse, Finset.insert_eq_of_mem hk] using hf
    · rename_i hk
      have hk : me ∉ s.wait.idx := by simpa [LimitWait.wHas] using hk
      refine ⟨hf, h.count, h.indexed.wIns hk, fun x hx => ?_, hwok, h.calm⟩
      rcases Finset.mem_insert.mp hx with rfl | hx
      · exact Finset.mem_insert_self x s.asking
      · exact Finset.mem_insert_of_mem (h.asking x hx)

/-- The head of the queue is taken off and woken, where a wakening is due. -/
theorem Sound.wake {q : LimitWait ω} {obj : ω} {u : StdLimitSemaphore ω}
    (hf : ({ u.room with due := u.room.due + 1 } : Room ω).Fair) (hc : u.count = u.holding.card)
    (hi : u.wait.Indexed) (ha : ∀ x ∈ u.wait.idx, x ∈ u.asking)
    (hw : ∀ x ∈ u.woken, x ∈ u.asking) (hp : u.panicked = false)
    (hd : u.wait.wDel = some (obj, q)) : Sound (({ u with wait := q }).wakeup obj) := by
  obtain ⟨hm, hx⟩ := LimitWait.members_wDel hd
  have hobj : obj ∈ u.wait.idx := (hi.idx obj).mpr (by simp [hm])
  have hask : obj ∈ u.asking := ha obj hobj
  have hwk := hf.wake (x := obj) hobj
  unfold wakeup
  rw [if_pos hask]
  refine ⟨?_, hc, hi.wDel hd, fun x hx' => ha x ?_, fun x hx' => ?_, hp⟩
  · unfold room
    dsimp only
    rw [hx]
    exact hwk
  · rw [hx] at hx'
    exact Finset.mem_of_mem_erase hx'
  · rcases Finset.mem_insert.mp hx' with rfl | hx'
    · exact hask
    · exact hw x hx'

theorem Sound.release (h : Sound s) (hm : me ∈ s.holding) : Sound (s.release me) := by
  have hpos : 0 < s.holding.card := Finset.card_pos.mpr ⟨me, hm⟩
  have hc := h.count
  have hcard := Finset.card_erase_of_mem hm
  have he : s.vLimit - (s.count - 1) = s.vLimit - s.count + 1 := by omega
  unfold StdLimitSemaphore.release
  rw [if_neg (by omega)]
  dsimp only
  split
  · rename_i hl
    have hg := h.fair.give (x := me) (n := 0) (.inr (by simp only [room]; omega))
    refine ⟨?_, ?_, h.indexed, h.asking, h.woken, h.calm⟩
    · unfold room
      dsimp only
      rw [he]
      exact hg
    · dsimp only
      omega
  · have hg := h.fair.give (x := me) (n := 1) (.inl Nat.one_pos)
    have hcount : s.count - 1 = ((s.holding.erase me).card : Int) := by omega
    split
    · rename_i hd
      have hempty := h.indexed.wDel_none.mp hd
      refine ⟨?_, hcount, h.indexed, h.asking, h.woken, h.calm⟩
      unfold room
      dsimp only
      rw [he]
      exact hg.idle hempty s.limiting.sum
    · rename_i obj q hd
      refine Sound.wake (u := { s with count := s.count - 1, holding := s.holding.erase me }) ?_
        hcount h.indexed h.asking h.woken h.calm hd
      unfold room
      dsimp only
      rw [he]
      exact hg

omit [DecidableEq ω] in
theorem Sound.limit (h : Sound s) (lim : Int) : Sound (s.limit lim) := by
  unfold StdLimitSemaphore.limit
  split
  · exact h
  split
  · exact h
  split
  · rename_i hl
    have hn := h.fair.narrow (s.vLimit - lim).toNat
    refine ⟨?_, h.count, h.indexed, h.asking, h.woken, h.calm⟩
    have he : lim - s.count = s.vLimit - s.count - (s.vLimit - lim).toNat := by omega
    unfold room
    dsimp only
    rw [he]
    exact hn
  · have hn := h.fair.widen (lim - s.vLimit).toNat
    refine ⟨?_, h.count, h.indexed, h.asking, h.woken, h.calm⟩
    have he : lim - s.count = s.vLimit - s.count + (lim - s.vLimit).toNat := by omega
    unfold room
    dsimp only
    rw [he, List.sum_cons, Nat.add_comm]
    exact hn

theorem Sound.turn (h : Sound s) {i left : Nat} (hi : s.limiting[i]? = some left) :
    Sound (({ s with limiting := s.limiting.eraseIdx i }).turn left) := by
  obtain ⟨hlt, hl⟩ := List.getElem?_eq_some_iff.mp hi
  have hsum : left + (s.limiting.eraseIdx i).sum = s.limiting.sum := by
    rw [← hl, ← List.sum_cons]
    exact (List.getElem_cons_eraseIdx_perm hlt).sum_nat
  unfold StdLimitSemaphore.turn
  dsimp only
  split
  · refine ⟨?_, h.count, h.indexed, h.asking, h.woken, h.calm⟩
    have hf := h.fair
    unfold room at hf ⊢
    rw [← hsum, Nat.zero_add] at hf
    exact hf
  · rename_i left
    split
    · rename_i hd
      have hempty := h.indexed.wDel_none.mp hd
      exact ⟨h.fair.idle hempty _, h.count, h.indexed, h.asking, h.woken, h.calm⟩
    · rename_i obj q hd
      refine Sound.wake (u := { s with limiting := left :: s.limiting.eraseIdx i }) ?_
        h.count h.indexed h.asking h.woken h.calm hd
      have hturn : s.limiting.sum = (left :: s.limiting.eraseIdx i).sum + 1 := by
        rw [List.sum_cons]
        omega
      have hf := h.fair
      unfold room at hf ⊢
      rw [hturn] at hf
      exact hf

theorem Sound.step (h : Sound s) (hc : s.Unqueued a) (hs : s.step a = some (t, os)) :
    Sound t := by
  unfold StdLimitSemaphore.step at hs
  rw [if_neg (by simp [h.calm])] at hs
  cases a with
  | get me priority =>
    obtain ⟨hm, rfl, -⟩ : me ∉ s.holding ∧ s.get me priority = t ∧ [] = os := by simpa using hs
    exact h.get hm hc
  | release me =>
    obtain ⟨hm, rfl, -⟩ : me ∈ s.holding ∧ s.release me = t ∧ [] = os := by simpa using hs
    exact h.release hm
  | limit lim =>
    obtain ⟨rfl, -⟩ : s.limit lim = t ∧ [] = os := by simpa using hs
    exact h.limit lim
  | turn i =>
    dsimp only at hs
    split at hs
    · cases hs
    · obtain ⟨rfl, -⟩ := by simpa using hs
      exact h.turn ‹_›
  | insNeq v =>
    obtain ⟨rfl, -⟩ : { s with wait := { s.wait with insNeq := v } } = t ∧ [] = os := by
      simpa using hs
    exact ⟨h.fair, h.count, ⟨h.indexed.nonempty, h.indexed.nodup, h.indexed.idx⟩, h.asking,
      h.woken, h.calm⟩
  | enablePriority v =>
    obtain ⟨rfl, -⟩ : { s with enablePriority := v } = t ∧ [] = os := by simpa using hs
    exact ⟨h.fair, h.count, h.indexed, h.asking, h.woken, h.calm⟩

omit [DecidableEq ω] in
theorem Sound.initial (lim : Int) : Sound (initial ω lim) where
  fair := ⟨nofun, nofun, nofun⟩
  count := rfl
  indexed := ⟨nofun, List.nodup_nil, fun _ => by simp [StdLimitSemaphore.initial, LimitWait.members]⟩
  asking := nofun
  woken := nofun
  calm := rfl

theorem Sound.run {lim : Int} (h : (machine ω lim).RunIf Unqueued tr s) : Sound s := by
  refine h.stateInvariant (I := Sound) ?_ fun s a t os hi hc hs => hi.step hc hs
  rintro s rfl
  exact Sound.initial lim

/-- Whatever the state, `get` does not raise the count above the limit. -/
theorem get_count : (s.get me priority).count = s.count ∨
    (s.get me priority).count = s.count + 1 ∧ (s.get me priority).count ≤ s.vLimit := by
  unfold StdLimitSemaphore.get
  split
  · rename_i hc
    refine .inr ⟨rfl, ?_⟩
    dsimp only
    omega
  · left
    dsimp only
    split <;> rfl

end StdLimitSemaphore

open StdLimitSemaphore

/-- The count is that of those who have a permit, no `get` takes it above the
limit, nobody waits for the permit it has, and nobody waits behind a free permit
alone, or `limit` is still at waking. -/
theorem limitSemaphore_law {ω : Type} [DecidableEq ω] {lim : Int} {tr : List Unit}
    {s : StdLimitSemaphore ω} (h : (machine ω lim).RunIf Unqueued tr s) :
    s.panicked = false ∧ s.count = s.holding.card ∧ (∀ x ∈ s.holding, x ∉ s.wait.members) ∧
    (∀ me priority t os, s.step (.get me priority) = some (t, os) →
      t.count = s.count ∨ t.count = s.count + 1 ∧ t.count ≤ s.vLimit) ∧
    (s.count < s.vLimit → s.wait.members ≠ [] →
      (∃ x ∈ s.woken, x ∈ s.asking ∧ x ∉ s.wait.members) ∨ ∃ left ∈ s.limiting, 0 < left) := by
  have hi := Sound.run h
  refine ⟨hi.calm, hi.count, fun x hx hw => hi.fair.apart x hx ((hi.indexed.idx x).mpr hw), ?_, ?_⟩
  · intro me priority t os hs
    unfold StdLimitSemaphore.step at hs
    rw [if_neg (by simp [hi.calm])] at hs
    obtain ⟨-, rfl, -⟩ : me ∉ s.holding ∧ s.get me priority = t ∧ [] = os := by simpa using hs
    exact get_count
  · intro hc hw
    have hne : s.room.waiting.Nonempty := by
      obtain ⟨x, hx⟩ := List.exists_mem_of_ne_nil _ hw
      exact ⟨x, (hi.indexed.idx x).mpr hx⟩
    rcases hi.fair.someone (by simp only [room]; omega) hne with ⟨x, hx⟩ | hd
    · refine .inl ⟨x, hx, hi.woken x hx, fun hm => ?_⟩
      exact hi.fair.left x hx ((hi.indexed.idx x).mpr hm)
    · exact .inr (List.sum_pos_iff_exists_pos_nat.mp hd)

/-- One permit, one who has it, and two who wait; it is given back. -/
def limitGiveBack : List (LimitAct (Fin 3)) :=
  [.enablePriority true, .get 0 0, .get 1 5, .get 2 5, .release 0]

theorem limit_waiter_woken : ∃ tr s, (machine (Fin 3) 1).RunIf Unqueued tr s ∧ s.count = 0 ∧
    s.vLimit = 1 ∧ s.wait.members = [2] ∧ s.limiting = [] ∧
    ∃ x ∈ s.woken, x ∈ s.asking ∧ x ∉ s.wait.members := by
  obtain ⟨tr, s, h, hc, hv, hw, hl⟩ := Machine.exists_run (M := machine (Fin 3) 1)
    (C := Unqueued) (P := fun _ s => s.count = 0 ∧ s.vLimit = 1 ∧ s.wait.members = [2] ∧
      s.limiting = []) limitGiveBack rfl (by decide)
  refine ⟨tr, s, h, hc, hv, hw, hl, ?_⟩
  rcases (limitSemaphore_law h).2.2.2.2 (by omega) (by simp [hw]) with hx | ⟨_, hm, _⟩
  · exact hx
  · simp [hl] at hm

/-- As with `stdSemaphore`: the second of those who wait comes first. -/
theorem limit_waiter_stranded :
    (∃ tr s, (machine (Fin 3) 1).Run tr s ∧ 2 ∈ s.holding ∧ 2 ∈ s.wait.members) ∧
    ∃ tr s, (machine (Fin 3) 1).Run tr s ∧ s.count < s.vLimit ∧ s.wait.members = [1] ∧
      1 ∈ s.asking ∧ s.woken = ∅ ∧ s.limiting = [] := by
  constructor
  · refine Machine.exists_run (limitGiveBack ++ [LimitAct.get 2 5]) rfl ?_
    decide
  · refine Machine.exists_run (limitGiveBack ++ [LimitAct.get 2 5, .get 1 5, .release 2]) rfl ?_
    decide

end TinyState
