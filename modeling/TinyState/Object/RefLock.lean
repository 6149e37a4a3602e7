import Mathlib.Tactic.SplitIfs
import TinyState.Lib.MutexRuns

/-!
# `refLock` without a recursive mutex

Where no recursive mutex can be had, `sObject::refLock` and `sObject::refUnlock` count for
themselves how often the owner of `refMutex` has locked it. A thread reads `refMutex_thread` before
it has the mutex; each read and each write of the three is a step of its own.
-/

namespace TinyState

open Transition

universe u

-- ---------------------------------------------------------------------------
-- Model
-- ---------------------------------------------------------------------------

/-- Where a thread is; the first three are outside of the mutex, unless the thread has it. -/
inductive RefPc
  | idle
  /-- `refLock`, before `refMutex_thread == tid` -/
  | lock
  /-- before `pthread_mutex_lock` -/
  | acquire
  /-- before the `refMutex_count ++` of the owner -/
  | again
  | check
  | setThread
  | setCount
  /-- `refUnlock`, before `refMutex_count == 0` -/
  | unlock
  | checkThread
  | decrement
  | testCount
  | clearThread
  | release
  deriving DecidableEq, Repr

structure RefLock (τ : Type u) where
  mutex : Option τ
  thread : Option τ
  count : Nat
  pc : τ → RefPc
  panicked : Bool

inductive RefAct (τ : Type u)
  | lock (t : τ)
  | unlock (t : τ)
  | go (t : τ)

namespace RefLock

variable {τ : Type u}

def initial : RefLock τ where
  mutex := none
  thread := none
  count := 0
  pc _ := .idle
  panicked := false

def panic (s : RefLock τ) : RefLock τ × List (LockObs τ) :=
  ({ s with panicked := true }, [.panic])

/-- How often the owner has locked the mutex in calls that have returned. -/
def level (count : Nat) : RefPc → Nat
  | .testCount | .clearThread | .release => count + 1
  | _ => count

/-- The recursive mutex that the callers see. -/
def mutexOf (s : RefLock τ) : RecMutex τ :=
  match s.mutex with
  | none => .free
  | some o => .times o (level s.count (s.pc o))

variable {s t : RefLock τ} {i o : τ} {k : RefPc} {os : List (LockObs τ)}

theorem mutexOf_none (h : s.mutex = none) : s.mutexOf = .free := by
  rw [mutexOf, h]

theorem mutexOf_some (h : s.mutex = some o) : s.mutexOf = .times o (level s.count (s.pc o)) := by
  rw [mutexOf, h]

variable [DecidableEq τ]

def goto (s : RefLock τ) (t : τ) (pc : RefPc) : RefLock τ :=
  { s with pc := Function.update s.pc t pc }

/-- `none`: the thread is in no call, or waits for the mutex. -/
def go (s : RefLock τ) (t : τ) : RefPc → Option (RefLock τ × List (LockObs τ))
  | .idle => none
  | .lock => some (s.goto t (if s.thread = some t then .again else .acquire), [])
  | .again => some ({ s with count := s.count + 1 }.goto t .idle, [.locked t])
  | .acquire =>
    match s.mutex with
    | some _ => none
    | none => some ({ s with mutex := some t }.goto t .check, [])
  | .check =>
    if s.count ≠ 0 then
      -- refLock-1
      if s.thread ≠ some t then some s.panic else some (s.goto t .setThread, [])
    -- refLock-2
    else if s.thread ≠ none then some s.panic
    else some (s.goto t .setThread, [])
  | .setThread => some ({ s with thread := some t }.goto t .setCount, [])
  | .setCount => some ({ s with count := s.count + 1 }.goto t .idle, [.locked t])
  | .unlock => if s.count = 0 then some s.panic else some (s.goto t .checkThread, [])
  | .checkThread => if s.thread ≠ some t then some s.panic else some (s.goto t .decrement, [])
  | .decrement => some ({ s with count := s.count - 1 }.goto t .testCount, [])
  | .testCount =>
    if s.count = 0 then some (s.goto t .clearThread, [])
    else some (s.goto t .idle, [.unlocked t])
  | .clearThread => some ({ s with thread := none }.goto t .release, [])
  | .release =>
    if s.mutex = some t then some ({ s with mutex := none }.goto t .idle, [.unlocked t])
    else some s.panic

def step (s : RefLock τ) (a : RefAct τ) : Option (RefLock τ × List (LockObs τ)) :=
  if s.panicked then none
  else
    match a with
    | .lock t => if s.pc t = .idle then some (s.goto t .lock, []) else none
    | .unlock t => if s.pc t = .idle then some (s.goto t .unlock, []) else none
    | .go t => s.go t (s.pc t)

variable (τ) in
def machine : Machine (RefLock τ) (RefAct τ) (LockObs τ) where
  init s := s = initial
  step := step

/-- Who unlocks has locked. -/
def Disciplined (s : RefLock τ) : RefAct τ → Prop
  | .lock _ | .go _ => True
  | .unlock t => 0 < s.mutexOf.level t

instance (s : RefLock τ) (a : RefAct τ) : Decidable (s.Disciplined a) :=
  match a with
  | .lock _ | .go _ => .isTrue trivial
  | .unlock t => inferInstanceAs (Decidable (0 < s.mutexOf.level t))

-- ---------------------------------------------------------------------------
-- Who is inside
-- ---------------------------------------------------------------------------

/-- Where a thread may be that has not got the mutex. -/
def Out : RefPc → Prop
  | .idle | .lock | .acquire => True
  | _ => False

/-- What the owner finds, by where it is. -/
def Fits (count : Nat) (thread : Option τ) (o : τ) : RefPc → Prop
  | .check | .setThread | .release => count = 0 ∧ thread = none
  | .setCount | .clearThread => count = 0 ∧ thread = some o
  | .testCount => thread = some o
  | .acquire => False
  | .idle | .lock | .again | .unlock | .checkThread | .decrement => 0 < count ∧ thread = some o

structure Sound (s : RefLock τ) : Prop where
  calm : s.panicked = false
  inside : Entered Out (s.count = 0 ∧ s.thread = none) (Fits s.count s.thread) s.pc s.mutex

/-- What callers see of a step. -/
abbrev Seen (s t : RefLock τ) (os : List (LockObs τ)) : Prop :=
  RecMutex.Shown s.mutexOf t.mutexOf os

theorem mutexOf_outside (h : s.mutex ≠ some i) (k : RefPc) : (s.goto i k).mutexOf = s.mutexOf := by
  cases hm : s.mutex with
  | none => exact (mutexOf_none (s := s.goto i k) hm).trans (mutexOf_none hm).symm
  | some o =>
    have ho : o ≠ i := fun he => h (by rw [hm, he])
    have hnew : (s.goto i k).mutexOf = .times o (level s.count (Function.update s.pc i k o)) :=
      mutexOf_some hm
    rw [hnew, mutexOf_some hm, Function.update_of_ne ho]

/-- A thread that has no business with the mutex goes on. -/
theorem Sound.outside (h : s.Sound) (hi : s.mutex ≠ some i) (hk : Out k) :
    (s.goto i k).Sound ∧ Seen s (s.goto i k) [] :=
  ⟨⟨h.calm, h.inside.stay hi hk⟩, .inl ⟨mutexOf_outside hi k, rfl⟩⟩

/-- The owner goes on. -/
theorem Sound.move (h : s.Sound) (hi : s.mutex = some i) {count : Nat} {thread : Option τ}
    (hk : Fits count thread i k) : ({ s with
      count := count
      thread := thread }.goto i k).Sound ∧ ({ s with
      count := count
      thread := thread }.goto i k).mutexOf = .times i (level count k) := by
  have hin := h.inside
  rw [hi] at hin
  have hnew : ({ s with
      count := count
      thread := thread }.goto i k).mutexOf =
      .times i (level count (Function.update s.pc i k i)) := mutexOf_some hi
  refine ⟨⟨h.calm, ?_⟩, by rw [hnew, Function.update_self]⟩
  show Entered Out _ _ _ s.mutex
  rw [hi]
  exact hin.move hk

/-- Its level is the same. -/
theorem Sound.silent (h : s.Sound) (hi : s.mutex = some i) {count : Nat} {thread : Option τ}
    (hk : Fits count thread i k) (hl : level count k = level s.count (s.pc i)) :
    ({ s with
      count := count
      thread := thread }.goto i k).Sound ∧ Seen s ({ s with
      count := count
      thread := thread }.goto i k) [] := by
  obtain ⟨hsound, hnew⟩ := h.move hi hk
  exact ⟨hsound, .inl ⟨by rw [hnew, mutexOf_some hi, hl], rfl⟩⟩

/-- `refLock` returns to the owner. -/
theorem Sound.locked (h : s.Sound) (hi : s.mutex = some i) (hthread : s.thread = some i)
    (hl : level s.count (s.pc i) = s.count) :
    ({ s with count := s.count + 1 }.goto i .idle).Sound ∧
      Seen s ({ s with count := s.count + 1 }.goto i .idle) [.locked i] := by
  have hk : Fits (s.count + 1) s.thread i .idle := ⟨Nat.succ_pos _, hthread⟩
  obtain ⟨hsound, hnew⟩ := h.move hi hk
  refine ⟨hsound, .inr ⟨_, rfl, ?_⟩⟩
  rw [mutexOf_some hi, hl]
  exact (RecMutex.lock_times i s.count).trans (congrArg some hnew.symm)

/-- `refUnlock` returns, and the owner has the mutex still. -/
theorem Sound.unlocked (h : s.Sound) (hi : s.mutex = some i) (hthread : s.thread = some i)
    (hl : level s.count (s.pc i) = s.count + 1) (hc : s.count ≠ 0) :
    (s.goto i .idle).Sound ∧ Seen s (s.goto i .idle) [.unlocked i] := by
  have hk : Fits s.count s.thread i .idle := ⟨Nat.pos_of_ne_zero hc, hthread⟩
  obtain ⟨hsound, hnew⟩ := h.move hi hk
  refine ⟨hsound, .inr ⟨_, rfl, ?_⟩⟩
  rw [mutexOf_some hi, hl]
  exact (RecMutex.unlock_times i s.count).trans (congrArg some hnew.symm)

/-- And where it was the last time. -/
theorem Sound.released (h : s.Sound) (hi : s.mutex = some i) (hc : s.count = 0)
    (hthread : s.thread = none) (hl : level s.count (s.pc i) = s.count + 1) :
    ({ s with mutex := none }.goto i .idle).Sound ∧
      Seen s ({ s with mutex := none }.goto i .idle) [.unlocked i] := by
  have hin := h.inside
  rw [hi] at hin
  have hnew : ({ s with mutex := none }.goto i .idle).mutexOf = .free := mutexOf_none rfl
  refine ⟨⟨h.calm, hin.leave trivial ⟨hc, hthread⟩⟩, .inr ⟨_, rfl, ?_⟩⟩
  rw [hnew, mutexOf_some hi, hl, hc]
  exact RecMutex.unlock_times i 0

/-- A thread has got the mutex. -/
theorem Sound.acquired (h : s.Sound) (hi : s.mutex = none) :
    ({ s with mutex := some i }.goto i .check).Sound ∧
      Seen s ({ s with mutex := some i }.goto i .check) [] := by
  have hin := h.inside
  rw [hi] at hin
  refine ⟨⟨h.calm, hin.enter hin.1⟩, .inl ⟨?_, rfl⟩⟩
  have hnew : ({ s with mutex := some i }.goto i .check).mutexOf =
      .times i (level s.count (Function.update s.pc i .check i)) := mutexOf_some rfl
  rw [hnew, Function.update_self, mutexOf_none hi]
  exact congrArg (RecMutex.times i) hin.1.1

-- ---------------------------------------------------------------------------
-- Steps
-- ---------------------------------------------------------------------------

omit [DecidableEq τ] in
/-- What a thread reads without the mutex is right about itself. -/
theorem Sound.mine (h : s.Sound) (ht : s.thread = some i) : s.mutex = some i := by
  have hin := h.inside
  cases hm : s.mutex with
  | none =>
    rw [hm] at hin
    cases hin.1.2.symm.trans ht
  | some o =>
    rw [hm] at hin
    obtain ⟨hfits, -⟩ := hin
    cases hk : s.pc o <;> simp_all [Fits]

theorem Sound.owner (h : s.Sound) (hpc : s.pc i = k) (hk : ¬ Out k) :
    s.mutex = some i ∧ Fits s.count s.thread i k :=
  h.inside.owner hpc hk

theorem Sound.go (h : s.Sound) (hpc : s.pc i = k) (hs : s.go i k = some (t, os)) :
    t.Sound ∧ Seen s t os := by
  cases k with
  | idle => cases hs
  | lock =>
    simp only [RefLock.go, Option.some.injEq, Prod.mk.injEq] at hs
    obtain ⟨rfl, rfl⟩ := hs
    by_cases ht : s.thread = some i
    · rw [if_pos ht]
      have hi := h.mine ht
      have hfits := h.inside.fits hi hpc
      have hk : Fits s.count s.thread i .again := hfits
      exact h.silent hi hk (by rw [hpc]; rfl)
    · rw [if_neg ht]
      refine h.outside (fun hi => ht ?_) trivial
      have hfits := h.inside.fits hi hpc
      exact hfits.2
  | acquire =>
    cases hm : s.mutex with
    | some o => simp only [RefLock.go, hm, reduceCtorEq] at hs
    | none =>
      simp only [RefLock.go, hm, Option.some.injEq, Prod.mk.injEq] at hs
      obtain ⟨rfl, rfl⟩ := hs
      exact h.acquired hm
  | again =>
    obtain ⟨hi, -, hthread⟩ := h.owner hpc fun hk => hk
    simp only [RefLock.go, Option.some.injEq, Prod.mk.injEq] at hs
    obtain ⟨rfl, rfl⟩ := hs
    exact h.locked hi hthread (by rw [hpc]; rfl)
  | check =>
    obtain ⟨hi, hc, hthread⟩ := h.owner hpc fun hk => hk
    simp only [RefLock.go, hc, hthread, ne_eq, not_true_eq_false, if_false, Option.some.injEq,
      Prod.mk.injEq] at hs
    obtain ⟨rfl, rfl⟩ := hs
    have hk : Fits s.count s.thread i .setThread := ⟨hc, hthread⟩
    exact h.silent hi hk (by rw [hpc]; rfl)
  | setThread =>
    obtain ⟨hi, hc, -⟩ := h.owner hpc fun hk => hk
    simp only [RefLock.go, Option.some.injEq, Prod.mk.injEq] at hs
    obtain ⟨rfl, rfl⟩ := hs
    have hk : Fits s.count (some i) i .setCount := ⟨hc, rfl⟩
    exact h.silent hi hk (by rw [hpc]; rfl)
  | setCount =>
    obtain ⟨hi, -, hthread⟩ := h.owner hpc fun hk => hk
    simp only [RefLock.go, Option.some.injEq, Prod.mk.injEq] at hs
    obtain ⟨rfl, rfl⟩ := hs
    exact h.locked hi hthread (by rw [hpc]; rfl)
  | unlock =>
    obtain ⟨hi, hc, hthread⟩ := h.owner hpc fun hk => hk
    rw [RefLock.go, if_neg (Nat.ne_of_gt hc), Option.some.injEq, Prod.mk.injEq] at hs
    obtain ⟨rfl, rfl⟩ := hs
    have hk : Fits s.count s.thread i .checkThread := ⟨hc, hthread⟩
    exact h.silent hi hk (by rw [hpc]; rfl)
  | checkThread =>
    obtain ⟨hi, hc, hthread⟩ := h.owner hpc fun hk => hk
    rw [RefLock.go, if_neg (not_not.mpr hthread), Option.some.injEq, Prod.mk.injEq] at hs
    obtain ⟨rfl, rfl⟩ := hs
    have hk : Fits s.count s.thread i .decrement := ⟨hc, hthread⟩
    exact h.silent hi hk (by rw [hpc]; rfl)
  | decrement =>
    obtain ⟨hi, hc, hthread⟩ := h.owner hpc fun hk => hk
    simp only [RefLock.go, Option.some.injEq, Prod.mk.injEq] at hs
    obtain ⟨rfl, rfl⟩ := hs
    have hk : Fits (s.count - 1) s.thread i .testCount := hthread
    exact h.silent hi hk (by rw [hpc]; exact Nat.sub_add_cancel hc)
  | testCount =>
    obtain ⟨hi, hthread⟩ := h.owner hpc fun hk => hk
    by_cases hc : s.count = 0
    · rw [RefLock.go, if_pos hc, Option.some.injEq, Prod.mk.injEq] at hs
      obtain ⟨rfl, rfl⟩ := hs
      have hk : Fits s.count s.thread i .clearThread := ⟨hc, hthread⟩
      exact h.silent hi hk (by rw [hpc]; rfl)
    · rw [RefLock.go, if_neg hc, Option.some.injEq, Prod.mk.injEq] at hs
      obtain ⟨rfl, rfl⟩ := hs
      exact h.unlocked hi hthread (by rw [hpc]; rfl) hc
  | clearThread =>
    obtain ⟨hi, hc, -⟩ := h.owner hpc fun hk => hk
    simp only [RefLock.go, Option.some.injEq, Prod.mk.injEq] at hs
    obtain ⟨rfl, rfl⟩ := hs
    have hk : Fits s.count none i .release := ⟨hc, rfl⟩
    exact h.silent hi hk (by rw [hpc]; rfl)
  | release =>
    obtain ⟨hi, hc, hthread⟩ := h.owner hpc fun hk => hk
    rw [RefLock.go, if_pos hi, Option.some.injEq, Prod.mk.injEq] at hs
    obtain ⟨rfl, rfl⟩ := hs
    exact h.released hi hc hthread (by rw [hpc]; rfl)

/-- A thread is called while it is in no call. -/
theorem Sound.call (h : s.Sound) (hpc : s.pc i = .idle) (hk : Out k ∨ s.mutex = some i)
    (hfits : s.mutex = some i → Fits s.count s.thread i k)
    (hl : level s.count k = s.count) : (s.goto i k).Sound ∧ Seen s (s.goto i k) [] := by
  by_cases hi : s.mutex = some i
  · exact h.silent hi (hfits hi) (by rw [hpc]; exact hl)
  · exact h.outside hi (hk.resolve_right hi)

omit [DecidableEq τ] in
theorem Sound.idle (h : s.Sound) (hpc : s.pc i = .idle) (hi : s.mutex = some i) :
    0 < s.count ∧ s.thread = some i :=
  h.inside.fits hi hpc

theorem owner_of_level (h : 0 < s.mutexOf.level i) : s.mutex = some i := by
  cases hm : s.mutex with
  | none =>
    rw [mutexOf_none hm] at h
    exact absurd h (Nat.lt_irrefl 0)
  | some o =>
    rw [mutexOf_some hm] at h
    by_contra ho
    rw [RecMutex.level_times_other fun he => ho (by rw [he])] at h
    exact absurd h (Nat.lt_irrefl 0)

theorem Sound.step {a : RefAct τ} (h : s.Sound) (hd : s.Disciplined a)
    (hs : s.step a = some (t, os)) : t.Sound ∧ Seen s t os := by
  have hcalm : ¬ s.panicked = true := ne_true_of_eq_false h.calm
  cases a with
  | lock i =>
    rw [RefLock.step, if_neg hcalm] at hs
    obtain ⟨hpc, hs⟩ := Option.ite_none_right_eq_some.mp hs
    obtain ⟨rfl, rfl⟩ := Prod.mk.inj (Option.some.inj hs)
    exact h.call hpc (.inl trivial) (h.idle hpc) rfl
  | unlock i =>
    rw [RefLock.step, if_neg hcalm] at hs
    obtain ⟨hpc, hs⟩ := Option.ite_none_right_eq_some.mp hs
    obtain ⟨rfl, rfl⟩ := Prod.mk.inj (Option.some.inj hs)
    exact h.call hpc (.inr (owner_of_level hd)) (h.idle hpc) rfl
  | go i =>
    rw [RefLock.step, if_neg hcalm] at hs
    exact h.go rfl hs

omit [DecidableEq τ] in
theorem Sound.initial : (RefLock.initial : RefLock τ).Sound :=
  ⟨rfl, ⟨rfl, rfl⟩, fun _ => trivial⟩

theorem Sound.run {tr : List (LockObs τ)} (h : (RefLock.machine τ).RunIf Disciplined tr s) :
    s.Sound := by
  refine h.stateInvariant (I := Sound) ?_ ?_
  · rintro s rfl
    exact Sound.initial
  · intro s a t os ih hd hs
    exact (ih.step hd hs).1

/-- Only a mutex that is taken keeps a thread from going on. -/
theorem Sound.goes (h : s.Sound) (hidle : s.pc i ≠ .idle)
    (hfree : s.pc i = .acquire → s.mutex = none) : (s.step (.go i)).isSome := by
  rw [RefLock.step, if_neg (ne_true_of_eq_false h.calm)]
  cases hk : s.pc i with
  | idle => exact absurd hk hidle
  | acquire =>
    dsimp only [RefLock.go]
    rw [hfree hk]
    rfl
  | check | unlock | checkThread | testCount | release =>
    dsimp only [RefLock.go]
    split_ifs <;> rfl
  | lock | again | setThread | setCount | decrement | clearThread => rfl

/-- A thread in a call can go on, or waits for another, which can go on or is in no call. -/
theorem Sound.waits (h : s.Sound) (hpc : s.pc i ≠ .idle) :
    (s.step (.go i)).isSome ∨ ∃ o, o ≠ i ∧ s.mutex = some o ∧
      ((s.step (.go o)).isSome ∨ s.pc o = .idle ∧ 0 < s.mutexOf.level o) := by
  by_cases hfree : s.pc i = .acquire → s.mutex = none
  · exact .inl (h.goes hpc hfree)
  · obtain ⟨hacquire, hm⟩ := Classical.not_imp.mp hfree
    obtain ⟨o, ho⟩ := Option.ne_none_iff_exists'.mp hm
    have hne : o ≠ i := by
      rintro rfl
      exact h.inside.fits ho hacquire
    refine .inr ⟨o, hne, ho, ?_⟩
    by_cases hidle : s.pc o = .idle
    · refine .inr ⟨hidle, ?_⟩
      rw [mutexOf_some ho, RecMutex.level_times, hidle]
      exact (h.idle hidle ho).1
    · refine .inl (h.goes hidle fun hk => ?_)
      have hfits := h.inside.fits ho hk
      exact absurd hfits id

end RefLock

open RefLock

/-- In every run in which a thread unlocks what it has locked, no check fails, what the callers see
is a run of a recursive mutex, and a thread that waits waits for another that has the mutex or can
go on. -/
theorem refLock_recursive {τ : Type u} [DecidableEq τ] {tr : List (LockObs τ)} {s : RefLock τ}
    (h : (RefLock.machine τ).RunIf Disciplined tr s) :
    (RecMutex.machine τ).Run tr s.mutexOf ∧ s.panicked = false ∧ .panic ∉ tr ∧
      (∀ t u, tr.count (.unlocked t) < tr.count (.locked t) →
        tr.count (.unlocked u) < tr.count (.locked u) → t = u) ∧
      ∀ t, s.pc t ≠ .idle → (s.step (.go t)).isSome ∨ ∃ o, o ≠ t ∧ s.mutex = some o ∧
        ((s.step (.go o)).isSome ∨ s.pc o = .idle ∧ 0 < s.mutexOf.level o) := by
  have hr : (RecMutex.machine τ).Run tr s.mutexOf := by
    refine RecMutex.run_of_shown mutexOf h ?_ fun tr s a t os hr hd hs => ?_
    · rintro s rfl
      rfl
    · exact ((Sound.run hr).step hd hs).2
  have hs := Sound.run h
  exact ⟨hr, hs.calm, (RecMutex.no_panic hr).1, fun t u => RecMutex.exclusive hr,
    fun t => hs.waits⟩

/-- Two threads lock it twice, each inside of the other's turns. -/
theorem refLock_recursive_twice : ∃ tr s, (RefLock.machine Bool).RunIf Disciplined tr s ∧
    s.panicked = false ∧ tr = [.locked true, .locked true, .unlocked true, .unlocked true,
      .locked false] := by
  obtain ⟨tr, s, h, ht⟩ := Machine.exists_run (M := RefLock.machine Bool) (C := Disciplined)
    (P := fun tr _ => tr = [.locked true, .locked true, .unlocked true, .unlocked true,
      .locked false])
    [.lock true, .lock false, .go true, .go false, .go true, .go true, .go true, .go true,
      .lock true, .go true, .go true, .unlock true, .go true, .go true, .go true, .go true,
      .unlock true, .go true, .go true, .go true, .go true, .go true, .go true, .go false,
      .go false, .go false, .go false] rfl (by decide +kernel)
  exact ⟨tr, s, h, (refLock_recursive h).2.1, ht⟩

end TinyState
