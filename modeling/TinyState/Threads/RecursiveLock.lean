import Mathlib.Tactic.SplitIfs
import TinyState.Lib.MutexRuns

/-!
# `sThreadMutexRecursive`

A recursive mutex of the system and a count that its owner keeps. Each call of the system and each
access to `count` is a step of its own. `lock`, `trylock` and `counter` come to rest where the
thread waits or returns; `is_locked` and `counter` take the mutex for a moment.
-/

namespace TinyState

open Transition

universe u

-- ---------------------------------------------------------------------------
-- Model
-- ---------------------------------------------------------------------------

inductive MtxCall
  | lock
  | unlock
  | trylock
  | isLocked
  | counter
  deriving DecidableEq, Repr

inductive MtxPc
  | idle
  | enter (c : MtxCall)
  /-- The mutex has been got by `lock` or `trylock`, before `count ++`. -/
  | count
  /-- `unlock`, before `count --` -/
  | uncount
  /-- before `sThreadMutex::unlock` -/
  | release
  /-- which has failed, before `count ++` -/
  | recount
  /-- `is_locked`, before `if ( count )` -/
  | readLocked
  | leaveLocked (ret : Bool)
  | readCounter
  | leaveCounter (ret : Int)
  deriving DecidableEq, Repr

structure MtxRecursive (τ : Type u) where
  m : RecMutex τ
  count : Int
  pc : τ → MtxPc
  panicked : Bool

inductive MtxAct (τ : Type u)
  | call (t : τ) (c : MtxCall)
  | go (t : τ)

namespace MtxRecursive

variable {τ : Type u}

def initial : MtxRecursive τ where
  m := .free
  count := 0
  pc _ := .idle
  panicked := false

/-- The levels of the mutex that the owner has for a call under way. -/
def extra : MtxPc → Nat
  | .count | .readLocked | .leaveLocked _ | .readCounter | .leaveCounter _ => 1
  | _ => 0

def owner : RecMutex τ → Option τ
  | .free => none
  | .held o _ => some o

/-- How often the owner has the mutex of the system. -/
def levels : RecMutex τ → Nat
  | .free => 0
  | .held _ n => n + 1

/-- The mutex that the callers see. -/
def mutexOf (s : MtxRecursive τ) : RecMutex τ :=
  match owner s.m with
  | none => .free
  | some o => .times o (levels s.m - extra (s.pc o))

variable [DecidableEq τ]

def goto (s : MtxRecursive τ) (t : τ) (pc : MtxPc) : MtxRecursive τ :=
  { s with pc := Function.update s.pc t pc }

/-- `sThreadMutex::unlock`, whose result `is_locked` and `counter` do not look at. -/
def unlockBase (s : MtxRecursive τ) (t : τ) : MtxRecursive τ :=
  { s with m := (s.m.unlock t).getD s.m }

/-- The first step of a call. `none`: the thread waits for the mutex. -/
def enter (s : MtxRecursive τ) (t : τ) : MtxCall → Option (MtxRecursive τ × List (LockObs τ))
  | .lock => (s.m.lock t).map fun m => ({ s with m }.goto t .count, [])
  | .unlock =>
    if s.count ≤ 0 then some ({ s with panicked := true }, [.panic])
    else some (s.goto t .uncount, [])
  | .trylock =>
    match s.m.lock t with
    | some m => some ({ s with m }.goto t .count, [])
    | none => some (s.goto t .idle, [.busy t])
  | .isLocked =>
    match s.m.lock t with
    | some m => some ({ s with m }.goto t .readLocked, [])
    | none => some (s.goto t .idle, [.asked t true])
  | .counter => (s.m.lock t).map fun m => ({ s with m }.goto t .readCounter, [])

def go (s : MtxRecursive τ) (t : τ) : MtxPc → Option (MtxRecursive τ × List (LockObs τ))
  | .idle => none
  | .enter c => s.enter t c
  | .count => some ({ s with count := s.count + 1 }.goto t .idle, [.locked t])
  | .uncount => some ({ s with count := s.count - 1 }.goto t .release, [])
  | .release =>
    match s.m.unlock t with
    | some m => some ({ s with m }.goto t .idle, [.unlocked t])
    | none => some (s.goto t .recount, [])
  | .recount => some ({ s with count := s.count + 1 }.goto t .idle, [.refused t])
  | .readLocked => some (s.goto t (.leaveLocked (s.count ≠ 0)), [])
  | .leaveLocked ret => some ((s.unlockBase t).goto t .idle, [.asked t ret])
  | .readCounter => some (s.goto t (.leaveCounter s.count), [])
  | .leaveCounter ret => some ((s.unlockBase t).goto t .idle, [.counted t ret])

def step (s : MtxRecursive τ) (a : MtxAct τ) : Option (MtxRecursive τ × List (LockObs τ)) :=
  if s.panicked then none
  else
    match a with
    | .call t c => if s.pc t = .idle then some (s.goto t (.enter c), []) else none
    | .go t => s.go t (s.pc t)

variable (τ) in
def machine : Machine (MtxRecursive τ) (MtxAct τ) (LockObs τ) where
  init s := s = initial
  step := step

/-- Who unlocks has locked (`sThreadMutexHandle`). -/
def Disciplined (s : MtxRecursive τ) : MtxAct τ → Prop
  | .call t .unlock => 0 < s.mutexOf.level t
  | .call _ _ | .go _ => True

instance (s : MtxRecursive τ) (a : MtxAct τ) : Decidable (s.Disciplined a) :=
  match a with
  | .call t .unlock => inferInstanceAs (Decidable (0 < s.mutexOf.level t))
  | .call _ .lock | .call _ .trylock | .call _ .isLocked | .call _ .counter | .go _ =>
    .isTrue trivial

-- ---------------------------------------------------------------------------
-- Who is inside
-- ---------------------------------------------------------------------------

/-- Where a thread may be that has not got the mutex. -/
def Out : MtxPc → Prop
  | .idle => True
  | .enter c => c ≠ .unlock
  | _ => False

/-- What the owner, who has the mutex of the system `n` times, finds, by where it is. -/
def Fits (n : Nat) (count : Int) : MtxPc → Prop
  | .idle | .enter _ | .uncount => count = n
  | .count | .release | .readLocked | .readCounter => count + 1 = n
  | .leaveLocked ret => count + 1 = n ∧ (ret = false → count = 0)
  | .leaveCounter ret => count + 1 = n ∧ ret = count
  | .recount => False

structure Sound (s : MtxRecursive τ) : Prop where
  calm : s.panicked = false
  inside : Entered Out (s.count = 0) (fun _ => Fits (levels s.m) s.count) s.pc (owner s.m)

/-- What callers see of a step. -/
abbrev Seen (s t : MtxRecursive τ) (os : List (LockObs τ)) : Prop :=
  RecMutex.Shown s.mutexOf t.mutexOf os

variable {s t : MtxRecursive τ} {i o : τ} {k : MtxPc} {m : RecMutex τ} {c : MtxCall}
  {os : List (LockObs τ)}

theorem lock_owner (h : s.m.lock i = some m) : (s.m = .free ∨ owner s.m = some i) ∧
    owner m = some i ∧ levels m = levels s.m + 1 := by
  cases hm : s.m with
  | free =>
    rw [hm] at h
    cases h
    exact ⟨.inl rfl, rfl, rfl⟩
  | held o n =>
    obtain ⟨rfl, rfl⟩ : o = i ∧ .held o (n + 1) = m := by simpa [hm, RecMutex.lock] using h
    exact ⟨.inr rfl, rfl, rfl⟩

/-- Where a thread has to wait, another has the mutex. -/
theorem lock_none (h : s.m.lock i = none) : ∃ o, o ≠ i ∧ owner s.m = some o := by
  cases hm : s.m with
  | free => rw [hm] at h; cases h
  | held o n =>
    have ho : o ≠ i := by simpa [hm, RecMutex.lock] using h
    exact ⟨o, ho, rfl⟩

theorem unlock_owner (hi : owner s.m = some i) : ∃ m, s.m.unlock i = some m ∧
    levels m + 1 = levels s.m ∧ (m = .free ∨ owner m = some i) := by
  cases hm : s.m with
  | free => rw [hm] at hi; cases hi
  | held o n =>
    rw [hm] at hi
    obtain rfl : o = i := Option.some.inj hi
    cases n with
    | zero => exact ⟨.free, by simp [RecMutex.unlock], rfl, .inl rfl⟩
    | succ n => exact ⟨.held o n, by simp [RecMutex.unlock], rfl, .inr rfl⟩

omit [DecidableEq τ] in
theorem mutexOf_none (h : owner s.m = none) : s.mutexOf = .free := by
  rw [mutexOf, h]

omit [DecidableEq τ] in
theorem mutexOf_some (h : owner s.m = some o) :
    s.mutexOf = .times o (levels s.m - extra (s.pc o)) := by
  rw [mutexOf, h]

theorem mutexOf_outside (h : owner s.m ≠ some i) (k : MtxPc) :
    (s.goto i k).mutexOf = s.mutexOf := by
  cases hm : owner s.m with
  | none => exact (mutexOf_none (s := s.goto i k) hm).trans (mutexOf_none hm).symm
  | some o =>
    have ho : o ≠ i := fun he => h (by rw [hm, he])
    have hnew : (s.goto i k).mutexOf =
        .times o (levels s.m - extra (Function.update s.pc i k o)) := mutexOf_some hm
    rw [hnew, mutexOf_some hm, Function.update_of_ne ho]

theorem Sound.outside (h : s.Sound) (hi : owner s.m ≠ some i) (hk : Out k) :
    (s.goto i k).Sound ∧ (s.goto i k).mutexOf = s.mutexOf :=
  ⟨⟨h.calm, h.inside.stay hi hk⟩, mutexOf_outside hi k⟩

/-- The owner goes on. -/
theorem Sound.move (h : s.Sound) (hi : owner s.m = some i) {count : Int}
    (hk : Fits (levels s.m) count k) : ({ s with count := count }.goto i k).Sound ∧
      ({ s with count := count }.goto i k).mutexOf = .times i (levels s.m - extra k) := by
  have hin := h.inside
  rw [hi] at hin
  have hnew : ({ s with count := count }.goto i k).mutexOf =
      .times i (levels s.m - extra (Function.update s.pc i k i)) := mutexOf_some hi
  refine ⟨⟨h.calm, ?_⟩, by rw [hnew, Function.update_self]⟩
  show Entered Out _ _ _ (owner s.m)
  rw [hi]
  exact hin.move hk

theorem Sound.silent (h : s.Sound) (hi : owner s.m = some i) {count : Int}
    (hk : Fits (levels s.m) count k) (he : extra k = extra (s.pc i)) :
    ({ s with count := count }.goto i k).Sound ∧
      Seen s ({ s with count := count }.goto i k) [] := by
  obtain ⟨hsound, hnew⟩ := h.move hi hk
  exact ⟨hsound, .inl ⟨by rw [hnew, mutexOf_some hi, he], rfl⟩⟩

/-- A thread that was about to call has got the mutex, once more or for the first time. -/
theorem Sound.got (h : s.Sound) (hpc : s.pc i = .enter c) (hl : s.m.lock i = some m)
    (he : extra k = 1) (hk : ∀ (n : Nat) (count : Int), count + 1 = n → Fits n count k) :
    ({ s with m := m }.goto i k).Sound ∧ Seen s ({ s with m := m }.goto i k) [] := by
  obtain ⟨hold, hi, hn⟩ := lock_owner hl
  have hin := h.inside
  have hnew : ({ s with m := m }.goto i k).mutexOf =
      .times i (levels m - extra (Function.update s.pc i k i)) := mutexOf_some hi
  rw [Function.update_self, hn, he, Nat.add_sub_cancel] at hnew
  rcases hold with hm | ho
  · have hown : owner s.m = none := by rw [hm]; rfl
    rw [hown] at hin
    refine ⟨⟨h.calm, ?_⟩, .inl ⟨?_, rfl⟩⟩
    · show Entered Out _ (fun _ => Fits (levels m) s.count) _ (owner m)
      rw [hi]
      refine hin.enter (hk _ _ ?_)
      rw [hin.1, hn, hm]
      rfl
    · rw [hnew, mutexOf_none hown, hm]
      rfl
  · have hfits := h.inside.fits ho hpc
    rw [ho] at hin
    have hcount : s.count = levels s.m := hfits
    refine ⟨⟨h.calm, ?_⟩, .inl ⟨?_, rfl⟩⟩
    · show Entered Out _ (fun _ => Fits (levels m) s.count) _ (owner m)
      rw [hi]
      refine hin.move (hk _ _ ?_)
      rw [hcount, hn]
      rfl
    · rw [hnew, mutexOf_some ho, hpc]
      rfl

/-- The owner gives back a level of the mutex and returns. -/
theorem Sound.back (h : s.Sound) (hi : owner s.m = some i) (hc : s.count + 1 = levels s.m) :
    ∃ m, s.m.unlock i = some m ∧ ({ s with m := m }.goto i .idle).Sound ∧
      ({ s with m := m }.goto i .idle).mutexOf = .times i (levels s.m - 1) := by
  obtain ⟨m, hm, hn, hown⟩ := unlock_owner hi
  have hin := h.inside
  rw [hi] at hin
  refine ⟨m, hm, ?_⟩
  have hcount : s.count = levels m := by omega
  rw [← hn, Nat.add_sub_cancel]
  rcases hown with rfl | hown
  · exact ⟨⟨h.calm, hin.leave trivial hcount⟩, mutexOf_none rfl⟩
  · have hnew : ({ s with m := m }.goto i .idle).mutexOf =
        .times i (levels m - extra (Function.update s.pc i .idle i)) := mutexOf_some hown
    refine ⟨⟨h.calm, ?_⟩, by rw [hnew, Function.update_self]; rfl⟩
    show Entered Out _ (fun _ => Fits (levels m) s.count) _ (owner m)
    rw [hown]
    exact hin.move hcount

-- ---------------------------------------------------------------------------
-- Steps
-- ---------------------------------------------------------------------------

theorem Sound.fits (h : s.Sound) (hpc : s.pc i = k) (hk : ¬ Out k) :
    owner s.m = some i ∧ Fits (levels s.m) s.count k :=
  h.inside.owner hpc hk

omit [DecidableEq τ] in
theorem levels_pos (hi : owner s.m = some i) : 0 < levels s.m := by
  cases hm : s.m with
  | free => rw [hm] at hi; cases hi
  | held o n => exact Nat.succ_pos n

omit [DecidableEq τ] in
/-- `mutexOf` while the owner has a level for its call. -/
theorem mutexOf_within (hi : owner s.m = some i) (he : extra (s.pc i) = 1) :
    s.mutexOf = .times i (levels s.m - 1) := by
  rw [mutexOf_some hi, he]

theorem Sound.enter (h : s.Sound) (hpc : s.pc i = .enter c) (hs : s.enter i c = some (t, os)) :
    t.Sound ∧ Seen s t os := by
  have hidle : Out .idle := trivial
  cases c with
  | lock =>
    obtain ⟨m, hm, he⟩ := Option.map_eq_some_iff.mp hs
    obtain ⟨rfl, rfl⟩ := Prod.mk.inj he
    exact h.got hpc hm rfl fun _ _ => id
  | unlock =>
    obtain ⟨hi, hc⟩ := h.fits hpc fun hk => hk rfl
    have hpos : ¬ s.count ≤ 0 := by
      have hn := levels_pos hi
      have hcount : s.count = levels s.m := hc
      omega
    rw [MtxRecursive.enter, if_neg hpos, Option.some.injEq, Prod.mk.injEq] at hs
    obtain ⟨rfl, rfl⟩ := hs
    have hk : Fits (levels s.m) s.count .uncount := hc
    exact h.silent hi hk (by rw [hpc]; rfl)
  | trylock =>
    cases hm : s.m.lock i with
    | some m =>
      simp only [MtxRecursive.enter, hm, Option.some.injEq, Prod.mk.injEq] at hs
      obtain ⟨rfl, rfl⟩ := hs
      exact h.got hpc hm rfl fun _ _ => id
    | none =>
      simp only [MtxRecursive.enter, hm, Option.some.injEq, Prod.mk.injEq] at hs
      obtain ⟨rfl, rfl⟩ := hs
      obtain ⟨o, hne, ho⟩ := lock_none hm
      have hi : owner s.m ≠ some i := fun he => hne (Option.some.inj (ho.symm.trans he))
      obtain ⟨hsound, hsame⟩ := h.outside hi hidle
      refine ⟨hsound, .inr ⟨_, rfl, ?_⟩⟩
      rw [hsame, RecMutex.after, mutexOf_some ho, RecMutex.level_times_other hne.symm, if_pos rfl]
  | isLocked =>
    cases hm : s.m.lock i with
    | some m =>
      simp only [MtxRecursive.enter, hm, Option.some.injEq, Prod.mk.injEq] at hs
      obtain ⟨rfl, rfl⟩ := hs
      exact h.got hpc hm rfl fun _ _ => id
    | none =>
      simp only [MtxRecursive.enter, hm, Option.some.injEq, Prod.mk.injEq] at hs
      obtain ⟨rfl, rfl⟩ := hs
      obtain ⟨o, hne, ho⟩ := lock_none hm
      have hi : owner s.m ≠ some i := fun he => hne (Option.some.inj (ho.symm.trans he))
      obtain ⟨hsound, hsame⟩ := h.outside hi hidle
      exact ⟨hsound, .inr ⟨_, rfl, by rw [hsame, RecMutex.after, if_pos (.inl rfl)]⟩⟩
  | counter =>
    obtain ⟨m, hm, he⟩ := Option.map_eq_some_iff.mp hs
    obtain ⟨rfl, rfl⟩ := Prod.mk.inj he
    exact h.got hpc hm rfl fun _ _ => id

theorem Sound.go (h : s.Sound) (hpc : s.pc i = k) (hs : s.go i k = some (t, os)) :
    t.Sound ∧ Seen s t os := by
  cases k with
  | idle => cases hs
  | enter c => exact h.enter hpc hs
  | count =>
    obtain ⟨hi, hc⟩ := h.fits hpc fun hk => hk
    simp only [MtxRecursive.go, Option.some.injEq, Prod.mk.injEq] at hs
    obtain ⟨rfl, rfl⟩ := hs
    have hk : Fits (levels s.m) (s.count + 1) .idle := hc
    obtain ⟨hsound, hnew⟩ := h.move hi hk
    refine ⟨hsound, .inr ⟨_, rfl, ?_⟩⟩
    have hn : levels s.m - 1 + 1 = levels s.m - extra .idle :=
      Nat.sub_add_cancel (levels_pos hi)
    rw [mutexOf_within hi (by rw [hpc]; rfl), hnew, ← hn]
    exact RecMutex.lock_times i _
  | uncount =>
    obtain ⟨hi, hc⟩ := h.fits hpc fun hk => hk
    simp only [MtxRecursive.go, Option.some.injEq, Prod.mk.injEq] at hs
    obtain ⟨rfl, rfl⟩ := hs
    have hk : Fits (levels s.m) (s.count - 1) .release := (Int.sub_add_cancel _ _).trans hc
    exact h.silent hi hk (by rw [hpc]; rfl)
  | release =>
    obtain ⟨hi, hc⟩ := h.fits hpc fun hk => hk
    obtain ⟨m, hm, hsound, hnew⟩ := h.back hi hc
    simp only [MtxRecursive.go, hm, Option.some.injEq, Prod.mk.injEq] at hs
    obtain ⟨rfl, rfl⟩ := hs
    refine ⟨hsound, .inr ⟨_, rfl, ?_⟩⟩
    have hn : levels s.m - extra .release = levels s.m - 1 + 1 :=
      (Nat.sub_add_cancel (levels_pos hi)).symm
    rw [mutexOf_some hi, hpc, hn, hnew]
    exact RecMutex.unlock_times i _
  | recount => exact absurd (h.fits hpc fun hk => hk).2 id
  | readLocked =>
    obtain ⟨hi, hc⟩ := h.fits hpc fun hk => hk
    simp only [MtxRecursive.go, Option.some.injEq, Prod.mk.injEq] at hs
    obtain ⟨rfl, rfl⟩ := hs
    have hk : Fits (levels s.m) s.count (.leaveLocked (s.count ≠ 0)) := ⟨hc, by simp⟩
    exact h.silent hi hk (by rw [hpc]; rfl)
  | leaveLocked ret =>
    obtain ⟨hi, hc, hret⟩ := h.fits hpc fun hk => hk
    obtain ⟨m, hm, hsound, hnew⟩ := h.back hi hc
    simp only [MtxRecursive.go, unlockBase, hm, Option.getD_some, Option.some.injEq,
      Prod.mk.injEq] at hs
    obtain ⟨rfl, rfl⟩ := hs
    refine ⟨hsound, .inr ⟨_, rfl, ?_⟩⟩
    rw [mutexOf_within hi (by rw [hpc]; rfl), hnew, RecMutex.after, if_pos]
    cases ret with
    | true => exact .inl rfl
    | false =>
      have hzero := hret rfl
      have hn : levels s.m - 1 = 0 := by omega
      exact .inr (by rw [hn]; rfl)
  | readCounter =>
    obtain ⟨hi, hc⟩ := h.fits hpc fun hk => hk
    simp only [MtxRecursive.go, Option.some.injEq, Prod.mk.injEq] at hs
    obtain ⟨rfl, rfl⟩ := hs
    have hk : Fits (levels s.m) s.count (.leaveCounter s.count) := ⟨hc, rfl⟩
    exact h.silent hi hk (by rw [hpc]; rfl)
  | leaveCounter ret =>
    obtain ⟨hi, hc, hret⟩ := h.fits hpc fun hk => hk
    obtain ⟨m, hm, hsound, hnew⟩ := h.back hi hc
    simp only [MtxRecursive.go, unlockBase, hm, Option.getD_some, Option.some.injEq,
      Prod.mk.injEq] at hs
    obtain ⟨rfl, rfl⟩ := hs
    refine ⟨hsound, .inr ⟨_, rfl, ?_⟩⟩
    have hpos := levels_pos hi
    have hcount : s.count = ((levels s.m - 1 : Nat) : Int) := by omega
    rw [mutexOf_within hi (by rw [hpc]; rfl), hnew, RecMutex.after, if_pos]
    refine ⟨RecMutex.mine_times i _, ?_⟩
    rw [RecMutex.level_times]
    exact hret.trans hcount

theorem owner_of_level (h : 0 < s.mutexOf.level i) : owner s.m = some i := by
  cases hm : owner s.m with
  | none =>
    rw [mutexOf_none hm] at h
    exact absurd h (Nat.lt_irrefl 0)
  | some o =>
    rw [mutexOf_some hm] at h
    by_contra ho
    rw [RecMutex.level_times_other fun he => ho (by rw [he])] at h
    exact absurd h (Nat.lt_irrefl 0)

theorem Sound.step {a : MtxAct τ} (h : s.Sound) (hd : s.Disciplined a)
    (hs : s.step a = some (t, os)) : t.Sound ∧ Seen s t os := by
  have hcalm : ¬ s.panicked = true := ne_true_of_eq_false h.calm
  cases a with
  | call i c =>
    rw [MtxRecursive.step, if_neg hcalm] at hs
    obtain ⟨hpc, hs⟩ := Option.ite_none_right_eq_some.mp hs
    obtain ⟨rfl, rfl⟩ := Prod.mk.inj (Option.some.inj hs)
    by_cases hi : owner s.m = some i
    · have hfits := h.inside.fits hi hpc
      have hk : Fits (levels s.m) s.count (.enter c) := hfits
      exact h.silent hi hk (by rw [hpc]; rfl)
    · have hc : c ≠ .unlock := by
        rintro rfl
        exact hi (owner_of_level hd)
      obtain ⟨hsound, hsame⟩ := h.outside (k := .enter c) hi hc
      exact ⟨hsound, .inl ⟨hsame, rfl⟩⟩
  | go i =>
    rw [MtxRecursive.step, if_neg hcalm] at hs
    exact h.go rfl hs

omit [DecidableEq τ] in
theorem Sound.initial : (MtxRecursive.initial : MtxRecursive τ).Sound :=
  ⟨rfl, rfl, fun _ => trivial⟩

theorem Sound.run {tr : List (LockObs τ)} (h : (MtxRecursive.machine τ).RunIf Disciplined tr s) :
    s.Sound := by
  refine h.stateInvariant (I := Sound) ?_ ?_
  · rintro s rfl
    exact Sound.initial
  · intro s a t os ih hd hs
    exact (ih.step hd hs).1

/-- Once all calls have returned, the count is the owner's (`~sThreadMutexRecursive`). -/
theorem Sound.quiet (h : s.Sound) (hidle : ∀ u, s.pc u = .idle) :
    s.count = 0 ∧ s.mutexOf = .free ∨ ∃ o, s.count = s.mutexOf.level o ∧ 0 < s.count := by
  have hin := h.inside
  cases hm : owner s.m with
  | none =>
    rw [hm] at hin
    exact .inl ⟨hin.1, mutexOf_none hm⟩
  | some o =>
    have hfits := h.inside.fits hm (hidle o)
    have hcount : s.count = levels s.m := hfits
    have hpos := levels_pos hm
    refine .inr ⟨o, ?_, by omega⟩
    rw [mutexOf_some hm, RecMutex.level_times, hidle]
    exact hcount

/-- Only a mutex that another has keeps a thread from going on. -/
theorem Sound.goes (h : s.Sound) (hidle : s.pc i ≠ .idle)
    (hfree : ∀ o, owner s.m = some o → o = i) : (s.step (.go i)).isSome := by
  have hlock : ∃ m, s.m.lock i = some m := by
    cases hm : s.m.lock i with
    | some m => exact ⟨m, rfl⟩
    | none =>
      obtain ⟨o, hne, ho⟩ := lock_none hm
      exact absurd (hfree o ho) hne
  obtain ⟨m, hm⟩ := hlock
  rw [MtxRecursive.step, if_neg (ne_true_of_eq_false h.calm)]
  cases hk : s.pc i with
  | idle => exact absurd hk hidle
  | enter c =>
    cases c with
    | unlock =>
      dsimp only [MtxRecursive.go, MtxRecursive.enter]
      split_ifs <;> rfl
    | lock | trylock | isLocked | counter =>
      simp only [MtxRecursive.go, MtxRecursive.enter, hm]
      rfl
  | release =>
    dsimp only [MtxRecursive.go]
    cases s.m.unlock i <;> rfl
  | count | uncount | recount | readLocked | leaveLocked | readCounter | leaveCounter => rfl

/-- A thread in a call can go on, or waits for another, which can go on or is in no call. -/
theorem Sound.waits (h : s.Sound) (hpc : s.pc i ≠ .idle) :
    (s.step (.go i)).isSome ∨ ∃ o, o ≠ i ∧
      ((s.step (.go o)).isSome ∨ s.pc o = .idle ∧ 0 < s.mutexOf.level o) := by
  by_cases hfree : ∀ o, owner s.m = some o → o = i
  · exact .inl (h.goes hpc hfree)
  · obtain ⟨o, ho⟩ := not_forall.mp hfree
    obtain ⟨ho, hne⟩ := Classical.not_imp.mp ho
    refine .inr ⟨o, hne, ?_⟩
    by_cases hidle : s.pc o = .idle
    · refine .inr ⟨hidle, ?_⟩
      rw [mutexOf_some ho, RecMutex.level_times, hidle]
      exact levels_pos ho
    · exact .inl (h.goes hidle fun u hu => Option.some.inj (hu.symm.trans ho))

end MtxRecursive

open MtxRecursive

/-- In every run in which a thread unlocks what it has locked, what the callers see is a run of a
recursive mutex: no unlock is refused or panics, `counter` says how often the caller has the mutex,
and `is_locked` does not say that it is free where it is not. A thread that waits waits for another
that has the mutex or can go on. -/
theorem sThreadMutexRecursive_run {τ : Type u} [DecidableEq τ] {tr : List (LockObs τ)}
    {s : MtxRecursive τ} (h : (MtxRecursive.machine τ).RunIf Disciplined tr s) :
    (RecMutex.machine τ).Run tr s.mutexOf ∧ s.panicked = false ∧
      (.panic ∉ tr ∧ ∀ t, .refused t ∉ tr) ∧
      (∀ t u, tr.count (.unlocked t) < tr.count (.locked t) →
        tr.count (.unlocked u) < tr.count (.locked u) → t = u) ∧
      ((∀ t, s.pc t = .idle) → s.count = 0 ∧ s.mutexOf = .free ∨
        ∃ o, s.count = s.mutexOf.level o ∧ 0 < s.count) ∧
      ∀ t, s.pc t ≠ .idle → (s.step (.go t)).isSome ∨ ∃ o, o ≠ t ∧
        ((s.step (.go o)).isSome ∨ s.pc o = .idle ∧ 0 < s.mutexOf.level o) := by
  have hr : (RecMutex.machine τ).Run tr s.mutexOf := by
    refine RecMutex.run_of_shown mutexOf h ?_ fun tr s a t os hr hd hs => ?_
    · rintro s rfl
      rfl
    · exact ((Sound.run hr).step hd hs).2
  have hs := Sound.run h
  exact ⟨hr, hs.calm, RecMutex.no_panic hr, fun t u => RecMutex.exclusive hr, hs.quiet,
    fun t => hs.waits⟩

/-- A thread that has the mutex twice asks for the count while another tries. -/
theorem sThreadMutexRecursive_run_twice : ∃ tr s,
    (MtxRecursive.machine Bool).RunIf Disciplined tr s ∧ s.panicked = false ∧
      tr = [.locked true, .locked true, .busy false, .counted true 2, .unlocked true,
        .asked false true] := by
  obtain ⟨tr, s, h, ht⟩ := Machine.exists_run (M := MtxRecursive.machine Bool) (C := Disciplined)
    (P := fun tr _ => tr = [.locked true, .locked true, .busy false, .counted true 2,
      .unlocked true, .asked false true])
    [.call true .lock, .go true, .go true, .call true .lock, .go true, .go true,
      .call true .counter, .go true, .call false .trylock, .go false, .go true, .go true,
      .call true .unlock, .call false .isLocked, .go true, .go true, .go true, .go false] rfl
    (by decide +kernel)
  exact ⟨tr, s, h, (sThreadMutexRecursive_run h).2.1, ht⟩

/-- A thread unlocks what it has not locked: the owner, who has it once, panics. -/
example : ((MtxRecursive.machine Bool).exec (fun _ _ => True) .initial
    [.call true .lock, .go true, .go true, .call false .unlock, .go false, .go false,
      .call true .unlock, .go true]).map (fun r => r.2) = some [.locked true, .panic] := by
  decide +kernel

end TinyState
