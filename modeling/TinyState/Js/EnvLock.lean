import TinyState.Lib.Machine
import Mathlib.Data.List.Count
import Mathlib.Logic.Function.Basic

/-!
# Locks on environments

`refLock` of a piggybackTurtle counts on it and on all environments that it is nested in, up to
the one of a gtObject, and `refUnlock` counts them down. It destroys an environment that comes
to zero, which clears the link to its parent, and goes on from there: what it has not come to
by then keeps its count for good.
-/

namespace TinyState

open Transition

-- ---------------------------------------------------------------------------
-- Model
-- ---------------------------------------------------------------------------

/-- `piggybackTurtle`, without its terminals. `ofObject` is history: whether it has been made
for a gtObject. -/
structure PigEnv where
  parent : Option Nat
  gtObject : Bool
  refLockCount : Int
  active : Bool
  ofObject : Bool
  deriving DecidableEq, Repr

/-- All environments, in the order in which they have been made. `locks` is history: the
environments that locks have been taken on and not given back. -/
structure PigEnvs where
  env : Nat → PigEnv
  fresh : Nat
  locks : List Nat

inductive PigEnvAct
  | make (parent : Option Nat) (gtObject : Bool)
  | refLock (pig : Nat)
  | refUnlock (pig : Nat)
  | destroy (pig : Nat)
  deriving DecidableEq, Repr

/-- An environment is destroyed, with so many locks outstanding on it and below it. -/
structure PigEnvObs where
  destroyed : Nat
  ofObject : Bool
  outstanding : Nat
  deriving DecidableEq, Repr

namespace PigEnvs

def put (s : PigEnvs) (pig : Nat) (e : PigEnv) : PigEnvs :=
  { s with env := Function.update s.env pig e }

def recount (s : PigEnvs) (pig : Nat) (n : Int) : PigEnvs :=
  s.put pig { s.env pig with refLockCount := n }

def destroy (s : PigEnvs) (pig : Nat) : PigEnvs :=
  if (s.env pig).refLockCount ≠ 0 then s
  else s.put pig { s.env pig with
    active := false
    gtObject := false
    parent := none }

/-- The loop of `refLock`. A parent is older than its children, so that it ends. -/
def lockLoop : Nat → PigEnvs → Option Nat → PigEnvs
  | 0, s, _ => s
  | _ + 1, s, none => s
  | fuel + 1, s, some pig =>
    if (s.env pig).gtObject then s
    else lockLoop fuel (s.recount pig ((s.env pig).refLockCount + 1)) (s.env pig).parent

/-- The loop of `refUnlock`, with the environments that it destroys. -/
def unlockLoop : Nat → PigEnvs → Option Nat → PigEnvs × List Nat
  | 0, s, _ => (s, [])
  | _ + 1, s, none => (s, [])
  | fuel + 1, s, some pig =>
    if (s.env pig).gtObject then (s, [])
    else
      let s := s.recount pig ((s.env pig).refLockCount - 1)
      if (s.env pig).refLockCount = 0 then
        let s := s.destroy pig
        ((unlockLoop fuel s (s.env pig).parent).1, pig :: (unlockLoop fuel s (s.env pig).parent).2)
      else unlockLoop fuel s (s.env pig).parent

def refLock (s : PigEnvs) (pig : Nat) : PigEnvs := lockLoop (pig + 1) s (some pig)

def refUnlock (s : PigEnvs) (pig : Nat) : PigEnvs × List Nat := unlockLoop (pig + 1) s (some pig)

/-- The environment and those that it is nested in, below the one made for a gtObject. -/
def chainFrom (s : PigEnvs) : Nat → Option Nat → List Nat
  | 0, _ => []
  | _ + 1, none => []
  | fuel + 1, some pig =>
    if (s.env pig).ofObject then [] else pig :: s.chainFrom fuel (s.env pig).parent

example (s : PigEnvs) (fuel : Nat) : s.chainFrom fuel none = [] := by
  cases fuel <;> simp [chainFrom]

def chain (s : PigEnvs) (pig : Nat) : List Nat := s.chainFrom (pig + 1) (some pig)

/-- The locks outstanding on an environment and on those below it. -/
def outstanding (s : PigEnvs) (pig : Nat) : Nat := s.locks.countP fun e => pig ∈ s.chain e

/-- A lock is given back only if it has been taken. -/
def step (s : PigEnvs) : PigEnvAct → Option (PigEnvs × List PigEnvObs)
  | .make parent gtObject =>
    if parent.all (· < s.fresh) then
      some ({ s.put s.fresh ⟨parent, gtObject, 0, true, gtObject⟩ with fresh := s.fresh + 1 }, [])
    else none
  | .refLock pig =>
    if pig < s.fresh then some ({ s.refLock pig with locks := pig :: s.locks }, []) else none
  | .refUnlock pig =>
    if pig ∈ s.locks then
      let s := { s with locks := s.locks.erase pig }
      some ((s.refUnlock pig).1, (s.refUnlock pig).2.map fun q =>
        ⟨q, (s.env q).ofObject, s.outstanding q⟩)
    else none
  | .destroy pig =>
    if pig < s.fresh then
      some (s.destroy pig,
        if (s.env pig).refLockCount ≠ 0 then [] else [⟨pig, (s.env pig).ofObject, s.outstanding pig⟩])
    else none

def start : PigEnvs := ⟨fun _ => ⟨none, false, 0, true, false⟩, 0, []⟩

def machine : Machine PigEnvs PigEnvAct PigEnvObs where
  init s := s = start
  step := step

/-- An unlocking that destroys an environment finds no other one to be counted down. -/
def Clears (s : PigEnvs) : PigEnvAct → Prop
  | .refUnlock pig => (s.env pig).refLockCount ≠ 1 ∨ (s.chain pig).tail = []
  | _ => True

instance (s : PigEnvs) (a : PigEnvAct) : Decidable (Clears s a) :=
  match a with
  | .make .. | .refLock _ | .destroy _ => .isTrue trivial
  | .refUnlock _ => inferInstanceAs (Decidable (_ ∨ _))

-- ---------------------------------------------------------------------------
-- Nested environments
-- ---------------------------------------------------------------------------

/-- How environments are nested, and what is left of that of a gtObject when it is destroyed. -/
structure Nested (s : PigEnvs) : Prop where
  older : ∀ q p, (s.env q).parent = some p → p < q
  object : ∀ q, (s.env q).gtObject = true → (s.env q).ofObject = true
  ended : ∀ q, (s.env q).ofObject = true → (s.env q).gtObject = false →
    (s.env q).parent = none ∧ (s.env q).active = false
  known : ∀ e ∈ s.locks, e < s.fresh

variable {s t : PigEnvs} {pig p q fuel : Nat} {os tr : List PigEnvObs}

theorem chainFrom_congr (ho : ∀ q, (t.env q).ofObject = (s.env q).ofObject) {o : Option Nat}
    (hp : ∀ q ∈ s.chainFrom fuel o, (t.env q).parent = (s.env q).parent) :
    t.chainFrom fuel o = s.chainFrom fuel o := by
  induction fuel generalizing o with
  | zero => rfl
  | succ fuel ih =>
    cases o with
    | none => rfl
    | some pig =>
      unfold chainFrom at hp ⊢
      rw [ho]
      split
      · rfl
      · rename_i hn
        rw [if_neg hn] at hp
        obtain ⟨hpig, hrest⟩ := List.forall_mem_cons.mp hp
        rw [hpig, ih hrest]

theorem chain_congr (ho : ∀ q, (t.env q).ofObject = (s.env q).ofObject)
    (hp : ∀ q ∈ s.chain pig, (t.env q).parent = (s.env q).parent) : t.chain pig = s.chain pig :=
  chainFrom_congr ho hp

/-- Chains of environments older than what is changed. -/
theorem Nested.chainFrom_older (h : s.Nested) (he : ∀ q ≤ pig, t.env q = s.env q) :
    t.chainFrom fuel (some pig) = s.chainFrom fuel (some pig) := by
  induction fuel generalizing pig with
  | zero => rfl
  | succ fuel ih =>
    unfold chainFrom
    rw [he pig (Nat.le_refl pig)]
    cases hp : (s.env pig).parent with
    | none => cases fuel <;> rfl
    | some p =>
      have hlt := h.older pig p hp
      rw [ih fun q hq => he q (by omega)]

/-- More steps than the number of older environments make no difference. -/
theorem Nested.chainFrom_eq (h : s.Nested) {n : Nat} (hf : pig < fuel) (hn : pig < n) :
    s.chainFrom fuel (some pig) = s.chainFrom n (some pig) := by
  induction fuel generalizing pig n with
  | zero => exact absurd hf (Nat.not_lt_zero _)
  | succ fuel ih =>
    obtain ⟨n, rfl⟩ : ∃ m, n = m + 1 := ⟨n - 1, by omega⟩
    unfold chainFrom
    cases hp : (s.env pig).parent with
    | none => cases fuel <;> cases n <;> rfl
    | some p =>
      have hlt := h.older pig p hp
      rw [ih (by omega) (by omega : p < n)]

theorem chain_of_object (ho : (s.env pig).ofObject = true) : s.chain pig = [] := by
  rw [chain, chainFrom, if_pos ho]

theorem chain_root (ho : (s.env pig).ofObject = false) (hp : (s.env pig).parent = none) :
    s.chain pig = [pig] := by
  rw [chain, chainFrom, ho, hp]
  cases pig <;> rfl

theorem Nested.chain_cons (h : s.Nested) (ho : (s.env pig).ofObject = false)
    (hp : (s.env pig).parent = some p) : s.chain pig = pig :: s.chain p := by
  have hlt := h.older pig p hp
  rw [chain, chainFrom, ho, hp, if_neg Bool.false_ne_true,
    h.chainFrom_eq (by omega) (Nat.lt_succ_self p)]
  rfl

/-- The chains of nested environments, by the youngest. -/
theorem Nested.induct (h : s.Nested) {P : Nat → Prop}
    (object : ∀ pig, (s.env pig).ofObject = true → P pig)
    (root : ∀ pig, (s.env pig).ofObject = false → (s.env pig).parent = none → P pig)
    (nested : ∀ pig p, (s.env pig).ofObject = false → (s.env pig).parent = some p → P p → P pig)
    (pig : Nat) : P pig := by
  induction pig using Nat.strongRecOn with
  | ind pig ih =>
    cases ho : (s.env pig).ofObject with
    | true => exact object pig ho
    | false =>
      cases hp : (s.env pig).parent with
      | none => exact root pig ho hp
      | some p => exact nested pig p ho hp (ih p (h.older pig p hp))

theorem Nested.le_of_mem_chain (h : s.Nested) (hq : q ∈ s.chain pig) : q ≤ pig := by
  induction pig using h.induct with
  | object pig ho =>
    rw [chain_of_object ho] at hq
    cases hq
  | root pig ho hp =>
    rw [chain_root ho hp] at hq
    exact Nat.le_of_eq (List.mem_singleton.mp hq)
  | nested pig p ho hp ih =>
    rw [h.chain_cons ho hp] at hq
    rcases List.mem_cons.mp hq with rfl | hq
    · exact Nat.le_refl _
    · exact Nat.le_trans (ih hq) (Nat.le_of_lt (h.older _ _ hp))

theorem Nested.ofObject_of_mem_chain (h : s.Nested) (hq : q ∈ s.chain pig) :
    (s.env q).ofObject = false := by
  induction pig using h.induct with
  | object pig ho =>
    rw [chain_of_object ho] at hq
    cases hq
  | root pig ho hp =>
    rw [chain_root ho hp] at hq
    exact List.mem_singleton.mp hq ▸ ho
  | nested pig p ho hp ih =>
    rw [h.chain_cons ho hp] at hq
    rcases List.mem_cons.mp hq with rfl | hq
    · exact ho
    · exact ih hq

/-- What is in a chain has its own chain in it. -/
theorem Nested.chain_subset (h : s.Nested) (hq : q ∈ s.chain pig) : s.chain q ⊆ s.chain pig := by
  induction pig using h.induct with
  | object pig ho =>
    rw [chain_of_object ho] at hq
    cases hq
  | root pig ho hp =>
    rw [chain_root ho hp] at hq
    rw [List.mem_singleton.mp hq]
    exact List.Subset.refl _
  | nested pig p ho hp ih =>
    rw [h.chain_cons ho hp] at hq ⊢
    rcases List.mem_cons.mp hq with rfl | hq
    · rw [h.chain_cons ho hp]
      exact List.Subset.refl _
    · exact fun x hx => List.mem_cons_of_mem _ (ih hq hx)

-- ---------------------------------------------------------------------------
-- The loops
-- ---------------------------------------------------------------------------

/-- Only counts are different. -/
structure Recounted (s t : PigEnvs) : Prop where
  env : ∀ q, t.env q = { s.env q with refLockCount := (t.env q).refLockCount }
  fresh : t.fresh = s.fresh
  locks : t.locks = s.locks

theorem Recounted.refl (s : PigEnvs) : Recounted s s := ⟨fun _ => rfl, rfl, rfl⟩

theorem Recounted.trans {r : PigEnvs} (h : Recounted s t) (h' : Recounted t r) : Recounted s r :=
  ⟨fun q => by rw [h'.env q, h.env q], h'.fresh.trans h.fresh, h'.locks.trans h.locks⟩

theorem recounted (s : PigEnvs) (pig : Nat) (n : Int) : Recounted s (s.recount pig n) := by
  refine ⟨fun q => ?_, rfl, rfl⟩
  unfold recount put
  dsimp only
  rw [Function.update_apply]
  split
  · rename_i he
    rw [he]
  · rfl

theorem recount_count (s : PigEnvs) (pig : Nat) (n : Int) (q : Nat) :
    ((s.recount pig n).env q).refLockCount = if q = pig then n else (s.env q).refLockCount := by
  unfold recount put
  dsimp only
  rw [Function.update_apply]
  split <;> rfl

theorem Recounted.nested (h : Recounted s t) (hs : s.Nested) : t.Nested := by
  refine ⟨fun q p hp => ?_, fun q ho => ?_, fun q ho hg => ?_, ?_⟩
  · rw [h.env q] at hp
    exact hs.older q p hp
  · rw [h.env q] at ho ⊢
    exact hs.object q ho
  · rw [h.env q] at ho hg ⊢
    exact hs.ended q ho hg
  · rw [h.fresh, h.locks]
    exact hs.known

theorem Recounted.chain (h : Recounted s t) (pig : Nat) : t.chain pig = s.chain pig :=
  chain_congr (fun q => by rw [h.env q]) fun q _ => by rw [h.env q]

theorem lockLoop_none (fuel : Nat) (s : PigEnvs) : lockLoop fuel s none = s := by
  cases fuel <;> rfl

theorem unlockLoop_none (fuel : Nat) (s : PigEnvs) : unlockLoop fuel s none = (s, []) := by
  cases fuel <;> rfl

/-- One lock more on each environment of a chain; what the one of a gtObject counts is left
open. -/
def Counted (s t : PigEnvs) (pig : Nat) (d : Int) : Prop :=
  ∀ q, (s.env q).ofObject = false →
    (t.env q).refLockCount = (s.env q).refLockCount + if q ∈ s.chain pig then d else 0

theorem Counted.of_object {d : Int} (ho : (s.env pig).ofObject = true)
    (h : ∀ q ≠ pig, (t.env q).refLockCount = (s.env q).refLockCount) : Counted s t pig d := by
  intro q hq
  rw [chain_of_object ho, if_neg List.not_mem_nil, Int.add_zero]
  refine h q fun he => ?_
  rw [he, ho] at hq
  cases hq

/-- A count is changed, and those of the environments further up. -/
theorem Counted.cons {d : Int} (hs : s.Nested) (ho : (s.env pig).ofObject = false)
    (hp : (s.env pig).parent = some p)
    (h : Counted (s.recount pig ((s.env pig).refLockCount + d)) t p d) : Counted s t pig d := by
  intro q hq
  have hr := recounted s pig ((s.env pig).refLockCount + d)
  have hq' : ((s.recount pig ((s.env pig).refLockCount + d)).env q).ofObject = false := by
    rw [hr.env q]
    exact hq
  rw [h q hq', hr.chain, recount_count, hs.chain_cons ho hp]
  by_cases he : q = pig
  · subst he
    have hn : q ∉ s.chain p := fun hm => by
      have hle := hs.le_of_mem_chain hm
      have hlt := hs.older q p hp
      omega
    rw [if_pos rfl, if_neg hn, if_pos List.mem_cons_self, Int.add_zero]
  · rw [if_neg he]
    simp only [List.mem_cons, he, false_or]

theorem Counted.last {d : Int} (hp : (s.env pig).parent = none) :
    Counted s (s.recount pig ((s.env pig).refLockCount + d)) pig d := by
  cases ho : (s.env pig).ofObject with
  | true => exact .of_object ho fun q hq => by rw [recount_count, if_neg hq]
  | false =>
    intro q hq
    rw [chain_root ho hp, recount_count]
    split
    · rename_i he
      rw [he, if_pos (List.mem_singleton.mpr rfl)]
    · rename_i he
      rw [if_neg (mt List.mem_singleton.mp he), Int.add_zero]

/-- What has no gtObject and yet a parent has been made without one. -/
theorem Nested.not_object (hs : s.Nested) (hg : ¬ (s.env pig).gtObject = true)
    (hp : (s.env pig).parent = some p) : (s.env pig).ofObject = false := by
  cases ho : (s.env pig).ofObject with
  | false => rfl
  | true =>
    have he := hs.ended pig ho (Bool.eq_false_iff.mpr hg)
    rw [hp] at he
    cases he.1

theorem lockLoop_spec (hs : s.Nested) (hf : pig < fuel) :
    Recounted s (lockLoop fuel s (some pig)) ∧ Counted s (lockLoop fuel s (some pig)) pig 1 := by
  induction fuel generalizing s pig with
  | zero => exact absurd hf (Nat.not_lt_zero _)
  | succ fuel ih =>
    unfold lockLoop
    split
    · rename_i hg
      exact ⟨.refl s, .of_object (hs.object pig hg) fun _ _ => rfl⟩
    · rename_i hg
      have hr := recounted s pig ((s.env pig).refLockCount + 1)
      cases hp : (s.env pig).parent with
      | none =>
        rw [lockLoop_none]
        exact ⟨hr, .last hp⟩
      | some p =>
        have hlt := hs.older pig p hp
        obtain ⟨h₁, h₂⟩ := ih (hr.nested hs) (by omega : p < fuel)
        exact ⟨hr.trans h₁, .cons hs (hs.not_object hg hp) hp h₂⟩

theorem mem_chain_self (ho : (s.env pig).ofObject = false) : pig ∈ s.chain pig := by
  rw [chain, chainFrom, ho, if_neg Bool.false_ne_true]
  exact List.mem_cons_self

/-- The environment of a gtObject that has been destroyed is not changed by being destroyed
again. -/
theorem destroy_ended (hs : s.Nested) (ho : (s.env pig).ofObject = true)
    (hg : ¬ (s.env pig).gtObject = true) : s.destroy pig = s := by
  obtain ⟨hp, ha⟩ := hs.ended pig ho (Bool.eq_false_iff.mpr hg)
  unfold destroy
  split
  · rfl
  · have he : { s.env pig with
        active := false
        gtObject := false
        parent := none } = s.env pig := by
      have hg := Bool.eq_false_iff.mpr hg
      generalize s.env pig = e at hp ha hg
      cases e
      simp_all only
    rw [he, put, Function.update_eq_self]

/-- Where other locks are outstanding on the whole chain one is given back. -/
theorem unlockLoop_kept (hs : s.Nested) (hf : pig < fuel)
    (hc : ∀ q ∈ s.chain pig, 2 ≤ (s.env q).refLockCount) :
    Recounted s (unlockLoop fuel s (some pig)).1 ∧
      Counted s (unlockLoop fuel s (some pig)).1 pig (-1) ∧
      ∀ q ∈ (unlockLoop fuel s (some pig)).2, (s.env q).ofObject = true := by
  induction fuel generalizing s pig with
  | zero => exact absurd hf (Nat.not_lt_zero _)
  | succ fuel ih =>
    unfold unlockLoop
    split
    · rename_i hg
      exact ⟨.refl s, .of_object (hs.object pig hg) fun _ _ => rfl, List.forall_mem_nil _⟩
    · rename_i hg
      have hr := recounted s pig ((s.env pig).refLockCount + -1)
      have hcount : ((s.recount pig ((s.env pig).refLockCount + -1)).env pig).refLockCount =
          (s.env pig).refLockCount + -1 := by rw [recount_count, if_pos rfl]
      have hpar : ((s.recount pig ((s.env pig).refLockCount + -1)).env pig).parent =
          (s.env pig).parent := by rw [hr.env pig]
      rw [Int.sub_eq_add_neg]
      dsimp only
      split
      · rename_i hz
        have ho : (s.env pig).ofObject = true := by
          by_contra ho
          have hge := hc pig (mem_chain_self (Bool.eq_false_iff.mpr ho))
          omega
        have hg' : ¬ ((s.recount pig ((s.env pig).refLockCount + -1)).env pig).gtObject = true := by
          rw [hr.env pig]
          exact hg
        have ho' : ((s.recount pig ((s.env pig).refLockCount + -1)).env pig).ofObject = true := by
          rw [hr.env pig]
          exact ho
        have hp := (hs.ended pig ho (Bool.eq_false_iff.mpr hg)).1
        rw [destroy_ended (hr.nested hs) ho' hg', hpar, hp, unlockLoop_none]
        exact ⟨hr, .last hp, List.forall_mem_singleton.mpr ho⟩
      · rw [hpar]
        cases hp : (s.env pig).parent with
        | none =>
          rw [unlockLoop_none]
          exact ⟨hr, .last hp, List.forall_mem_nil _⟩
        | some p =>
          have hlt := hs.older pig p hp
          have ho := hs.not_object hg hp
          have hc' : ∀ q ∈ (s.recount pig ((s.env pig).refLockCount + -1)).chain p,
              2 ≤ ((s.recount pig ((s.env pig).refLockCount + -1)).env q).refLockCount := by
            intro q hq
            rw [hr.chain] at hq
            have hle := hs.le_of_mem_chain hq
            rw [recount_count, if_neg (by omega)]
            refine hc q ?_
            rw [hs.chain_cons ho hp]
            exact List.mem_cons_of_mem _ hq
          obtain ⟨h₁, h₂, h₃⟩ := ih (hr.nested hs) (by omega : p < fuel) hc'
          refine ⟨hr.trans h₁, .cons hs ho hp h₂, fun q hq => ?_⟩
          have hq := h₃ q hq
          rw [hr.env q] at hq
          exact hq

/-- An environment without its links, and with another count. -/
def cut (s : PigEnvs) (pig : Nat) (n : Int) : PigEnvs :=
  s.put pig { s.env pig with
    refLockCount := n
    active := false
    gtObject := false
    parent := none }

theorem cut_self (s : PigEnvs) (pig : Nat) (n : Int) :
    (s.cut pig n).env pig = ⟨none, false, n, false, (s.env pig).ofObject⟩ := by
  unfold cut put
  dsimp only
  rw [Function.update_self]

/-- The last lock on an environment is given back, and nothing else is changed. -/
theorem unlockLoop_last (hg : ¬ (s.env pig).gtObject = true) (hc : (s.env pig).refLockCount = 1) :
    unlockLoop (fuel + 1) s (some pig) = (s.cut pig 0, [pig]) := by
  have hd : (s.recount pig ((s.env pig).refLockCount - 1)).destroy pig = s.cut pig 0 := by
    unfold destroy
    rw [recount_count, if_pos rfl, hc, if_neg (by decide)]
    unfold recount put cut put
    simp
  have hp : ((s.cut pig 0).env pig).parent = none := by rw [cut_self]
  rw [unlockLoop, if_neg hg]
  dsimp only
  rw [recount_count, if_pos rfl, hd, hp, unlockLoop_none, hc]
  rfl

-- ---------------------------------------------------------------------------
-- Locks outstanding
-- ---------------------------------------------------------------------------

/-- Below the gtObject each environment counts the locks outstanding on it and below it. -/
def Exact (s : PigEnvs) : Prop :=
  ∀ q, (s.env q).ofObject = false → (s.env q).refLockCount = s.outstanding q

theorem outstanding_pos {e : Nat} (he : e ∈ s.locks) (hq : q ∈ s.chain e) :
    0 < s.outstanding q :=
  List.countP_pos_iff.mpr ⟨e, he, decide_eq_true hq⟩

/-- A lock below an environment is one below those that it is nested in. -/
theorem outstanding_le (hs : s.Nested) (hp : p ∈ s.chain q) : s.outstanding q ≤ s.outstanding p := by
  refine List.countP_mono_left fun e _ he => ?_
  have hq := of_decide_eq_true he
  exact decide_eq_true (hs.chain_subset hq hp)

theorem Recounted.outstanding (h : Recounted s t) (q : Nat) : t.outstanding q = s.outstanding q := by
  unfold PigEnvs.outstanding
  rw [h.locks]
  exact List.countP_congr fun e _ => by rw [h.chain]

theorem not_below (hz : s.outstanding pig = 0) : ∀ l ∈ s.locks, pig ∉ s.chain l := by
  intro l hl hm
  have hp := outstanding_pos hl hm
  omega

theorem cut_ne (s : PigEnvs) (n : Int) (hq : q ≠ pig) : (s.cut pig n).env q = s.env q := by
  unfold cut put
  dsimp only
  rw [Function.update_of_ne hq]

theorem cut_ofObject (s : PigEnvs) (pig : Nat) (n : Int) (q : Nat) :
    ((s.cut pig n).env q).ofObject = (s.env q).ofObject := by
  by_cases hq : q = pig
  · rw [hq, cut_self]
  · rw [cut_ne s n hq]

theorem Nested.cut (h : s.Nested) (pig : Nat) (n : Int) : (s.cut pig n).Nested := by
  refine ⟨fun q p hp => ?_, fun q hg => ?_, fun q ho hg => ?_, h.known⟩
  · by_cases hq : q = pig
    · rw [hq, cut_self] at hp
      cases hp
    · rw [cut_ne s n hq] at hp
      exact h.older q p hp
  · by_cases hq : q = pig
    · rw [hq, cut_self] at hg
      cases hg
    · rw [cut_ne s n hq] at hg ⊢
      exact h.object q hg
  · by_cases hq : q = pig
    · rw [hq, cut_self]
      exact ⟨rfl, rfl⟩
    · rw [cut_ne s n hq] at ho hg ⊢
      exact h.ended q ho hg

/-- Clearing the links of an environment that no lock is below leaves all numbers as they are. -/
theorem outstanding_cut (hn : ∀ l ∈ s.locks, pig ∉ s.chain l) (n : Int) (q : Nat) :
    (s.cut pig n).outstanding q = s.outstanding q := by
  refine List.countP_congr fun l hl => ?_
  rw [chain_congr (cut_ofObject s pig n) fun q hq => ?_]
  rw [cut_ne]
  rintro rfl
  exact hn l hl hq

/-- What holds in every state. -/
structure Inv (s : PigEnvs) : Prop where
  nested : s.Nested
  exact : s.Exact

/-- No environment below a gtObject is destroyed with a lock on it or below it. -/
def Spared (os : List PigEnvObs) : Prop := ∀ o ∈ os, o.ofObject = false → o.outstanding = 0

theorem Inv.destroy (h : s.Inv) (hs : s.step (.destroy pig) = some (t, os)) :
    t.Inv ∧ Spared os := by
  obtain ⟨-, he⟩ := Option.ite_none_right_eq_some.mp hs
  unfold PigEnvs.destroy at he
  split at he
  · cases he
    exact ⟨h, List.forall_mem_nil _⟩
  · rename_i hc
    have hc : (s.env pig).refLockCount = 0 := not_not.mp hc
    have hz : (s.env pig).ofObject = false → s.outstanding pig = 0 := fun ho => by
      have hx := h.exact pig ho
      omega
    have hn : ∀ l ∈ s.locks, pig ∉ s.chain l := fun l hl hm =>
      not_below (hz (h.nested.ofObject_of_mem_chain hm)) l hl hm
    cases he
    refine ⟨⟨h.nested.cut pig (s.env pig).refLockCount, fun q ho => ?_⟩,
      List.forall_mem_singleton.mpr hz⟩
    have hcut : (s.cut pig (s.env pig).refLockCount).outstanding q = s.outstanding q :=
      outstanding_cut hn _ q
    have hcount : ((s.cut pig (s.env pig).refLockCount).env q).refLockCount =
        (s.env q).refLockCount := by
      by_cases hq : q = pig
      · rw [hq, cut_self]
      · rw [cut_ne _ _ hq]
    change ((s.cut pig (s.env pig).refLockCount).env q).refLockCount =
      (s.cut pig (s.env pig).refLockCount).outstanding q
    rw [hcut, hcount]
    exact h.exact q (cut_ofObject s pig (s.env pig).refLockCount q ▸ ho)

/-- The numbers when locks are counted otherwise. -/
theorem outstanding_locks (s : PigEnvs) (l : List Nat) (q : Nat) :
    ({ s with locks := l } : PigEnvs).outstanding q = l.countP fun e => q ∈ s.chain e :=
  List.countP_congr fun e _ => by
    have hc : ({ s with locks := l } : PigEnvs).chain e = s.chain e :=
      chain_congr (fun _ => rfl) fun _ _ => rfl
    rw [hc]

theorem outstanding_erase (hp : pig ∈ s.locks) (q : Nat) :
    s.outstanding q = ({ s with locks := s.locks.erase pig } : PigEnvs).outstanding q +
      if q ∈ s.chain pig then 1 else 0 := by
  rw [outstanding_locks s (s.locks.erase pig)]
  change (s.locks.countP fun e => q ∈ s.chain e) = _
  rw [(List.perm_cons_erase hp).countP_eq, List.countP_cons]
  simp only [decide_eq_true_eq]

theorem Inv.refLock (h : s.Inv) (hs : s.step (.refLock pig) = some (t, os)) :
    t.Inv ∧ Spared os := by
  obtain ⟨hlt, he⟩ := Option.ite_none_right_eq_some.mp hs
  cases he
  obtain ⟨hr, hc⟩ := lockLoop_spec h.nested (Nat.lt_succ_self pig)
  have hn := hr.nested h.nested
  refine ⟨⟨⟨hn.older, hn.object, hn.ended, ?_⟩, fun q ho => ?_⟩, List.forall_mem_nil _⟩
  · refine List.forall_mem_cons.mpr ⟨?_, fun e he => ?_⟩
    · exact hr.fresh ▸ hlt
    · exact hr.fresh ▸ h.nested.known e he
  · have hos : (s.env q).ofObject = false := by
      have ho : ((s.refLock pig).env q).ofObject = false := ho
      rw [PigEnvs.refLock, hr.env q] at ho
      exact ho
    have hout : ({ s.refLock pig with locks := pig :: s.locks } : PigEnvs).outstanding q =
        s.outstanding q + if q ∈ s.chain pig then 1 else 0 := by
      rw [outstanding_locks, List.countP_cons]
      have hch : ∀ e, (s.refLock pig).chain e = s.chain e := hr.chain
      simp only [hch, decide_eq_true_eq]
      rfl
    rw [hout]
    have hx := h.exact q hos
    have hcq : ((s.refLock pig).env q).refLockCount = _ := hc q hos
    change ((s.refLock pig).env q).refLockCount = _
    rw [hcq, hx]
    split <;> rfl

/-- The chain of an environment made without a gtObject begins with it. -/
theorem chain_eq_cons (ho : (s.env pig).ofObject = false) :
    s.chain pig = pig :: (s.chain pig).tail := by
  rw [chain, chainFrom, ho, if_neg Bool.false_ne_true]
  rfl

/-- Giving a lock back keeps the counts exact if and only if it destroys none that is nested in
another one below the gtObject. -/
theorem Inv.refUnlock (h : s.Inv) (hs : s.step (.refUnlock pig) = some (t, os)) :
    t.Nested ∧ (t.Exact ∧ Spared os ↔ Clears s (.refUnlock pig)) := by
  obtain ⟨hm, he⟩ := Option.ite_none_right_eq_some.mp hs
  have hx := h.exact
  have hn : ({ s with locks := s.locks.erase pig } : PigEnvs).Nested :=
    ⟨h.nested.older, h.nested.object, h.nested.ended,
      fun e he => h.nested.known e (List.mem_of_mem_erase he)⟩
  have hchain : ∀ q, ({ s with locks := s.locks.erase pig } : PigEnvs).chain q = s.chain q :=
    fun q => chain_congr (fun _ => rfl) fun _ _ => rfl
  have hout := outstanding_erase hm
  generalize hs₁ : ({ s with locks := s.locks.erase pig } : PigEnvs) = s₁ at hn hchain hout he
  have henv : s₁.env = s.env := by rw [← hs₁]
  by_cases hlast : (s.env pig).refLockCount = 1 ∧ (s.env pig).ofObject = false
  · -- the environment is destroyed, and with it the way to those it is nested in
    obtain ⟨hone, ho⟩ := hlast
    have hself : pig ∈ s.chain pig := mem_chain_self ho
    have hz : s₁.outstanding pig = 0 := by
      have h₁ := hx pig ho
      have h₂ := hout pig
      rw [if_pos hself] at h₂
      omega
    have hg : ¬ (s₁.env pig).gtObject = true := fun hg => by
      rw [henv] at hg
      rw [h.nested.object pig hg] at ho
      cases ho
    rw [PigEnvs.refUnlock, unlockLoop_last hg (henv ▸ hone)] at he
    cases he
    have hspared : Spared [⟨pig, (s₁.env pig).ofObject, s₁.outstanding pig⟩] :=
      List.forall_mem_singleton.mpr fun _ => hz
    refine ⟨hn.cut pig 0, ?_⟩
    have hcut : ∀ q, (s₁.cut pig 0).outstanding q = s₁.outstanding q :=
      outstanding_cut (not_below hz) 0
    constructor
    · rintro ⟨hxt, -⟩
      refine .inr (List.eq_nil_iff_forall_not_mem.mpr fun p hp => ?_)
      have hpc : p ∈ s.chain pig := by
        rw [chain_eq_cons ho]
        exact List.mem_cons_of_mem _ hp
      have hop := h.nested.ofObject_of_mem_chain hpc
      have hne : p ≠ pig := by
        rintro rfl
        cases hpar : (s.env p).parent with
        | none =>
          rw [chain_root ho hpar] at hp
          cases hp
        | some r =>
          rw [h.nested.chain_cons ho hpar] at hp
          have hle := h.nested.le_of_mem_chain hp
          have hlt := h.nested.older p r hpar
          omega
      have hpt := hxt p (by rw [cut_ofObject, henv]; exact hop)
      rw [hcut, cut_ne _ _ hne, henv, hx p hop, hout p, if_pos hpc] at hpt
      omega
    · rintro (hne | htail)
      · exact absurd hone hne
      · refine ⟨fun q hoq => ?_, hspared⟩
        rw [cut_ofObject, henv] at hoq
        rw [hcut]
        by_cases hq : q = pig
        · rw [hq, cut_self, hz]
          rfl
        · have hnot : q ∉ s.chain pig := by
            rw [chain_eq_cons ho, htail]
            exact mt List.mem_singleton.mp hq
          have h₂ := hout q
          rw [if_neg hnot] at h₂
          rw [cut_ne _ _ hq, henv, hx q hoq]
          omega
  · -- other locks are outstanding on all of the chain
    have hc : ∀ q ∈ s₁.chain pig, 2 ≤ (s₁.env q).refLockCount := by
      intro q hq
      rw [hchain] at hq
      rw [henv]
      have ho : (s.env pig).ofObject = false := by
        cases ho : (s.env pig).ofObject with
        | false => rfl
        | true =>
          rw [chain_of_object ho] at hq
          cases hq
      have hpos := outstanding_pos hm (mem_chain_self ho)
      have hle := outstanding_le h.nested hq
      have h₁ := hx pig ho
      have h₂ := hx q (h.nested.ofObject_of_mem_chain hq)
      have h₃ : (s.env pig).refLockCount ≠ 1 := fun hone => hlast ⟨hone, ho⟩
      omega
    obtain ⟨hr, hcount, hobj⟩ := unlockLoop_kept hn (Nat.lt_succ_self pig) hc
    have hclears : Clears s (.refUnlock pig) := by
      by_cases hone : (s.env pig).refLockCount = 1
      · have ho : (s.env pig).ofObject = true := by
          by_contra ho
          exact hlast ⟨hone, Bool.eq_false_iff.mpr ho⟩
        refine .inr ?_
        rw [chain_of_object ho]
        rfl
      · exact .inl hone
    cases he
    refine ⟨hr.nested hn, iff_of_true ⟨fun q hoq => ?_, fun o ho hof => ?_⟩ hclears⟩
    · have hoq : ((unlockLoop (pig + 1) s₁ (some pig)).1.env q).ofObject = false := hoq
      rw [hr.env q, henv] at hoq
      have h₁ := hcount q (henv ▸ hoq)
      have h₂ := hx q hoq
      have h₃ := hout q
      change ((unlockLoop (pig + 1) s₁ (some pig)).1.env q).refLockCount =
        (unlockLoop (pig + 1) s₁ (some pig)).1.outstanding q
      rw [h₁, hr.outstanding, hchain, henv, h₂, h₃]
      split <;> push_cast <;> omega
    · obtain ⟨q, hq, rfl⟩ := List.mem_map.mp ho
      have htrue := hobj q hq
      have hof : (s₁.env q).ofObject = false := hof
      rw [htrue] at hof
      cases hof

theorem Inv.make {parent : Option Nat} {gtObject : Bool} (h : s.Inv)
    (hs : s.step (.make parent gtObject) = some (t, os)) : t.Inv ∧ Spared os := by
  obtain ⟨hlt, he⟩ := Option.ite_none_right_eq_some.mp hs
  cases he
  refine ⟨?_, List.forall_mem_nil _⟩
  generalize hr : ({ s.put s.fresh ⟨parent, gtObject, 0, true, gtObject⟩ with
    fresh := s.fresh + 1 } : PigEnvs) = r
  have hself : r.env s.fresh = ⟨parent, gtObject, 0, true, gtObject⟩ := by
    rw [← hr]
    exact Function.update_self ..
  have hne : ∀ q, q ≠ s.fresh → r.env q = s.env q := fun q hq => by
    rw [← hr]
    exact Function.update_of_ne hq ..
  have hlocks : r.locks = s.locks := by rw [← hr]; rfl
  have hfresh : r.fresh = s.fresh + 1 := by rw [← hr]
  have hchain : ∀ l ∈ s.locks, r.chain l = s.chain l := fun l hl => by
    have hlt := h.nested.known l hl
    exact h.nested.chainFrom_older fun q hq => hne q (by omega)
  have hout : ∀ q, r.outstanding q = s.outstanding q := fun q => by
    unfold outstanding
    rw [hlocks]
    exact List.countP_congr fun l hl => by rw [hchain l hl]
  refine ⟨⟨fun q p hp => ?_, fun q hg => ?_, fun q ho hg => ?_, fun l hl => ?_⟩, fun q ho => ?_⟩
  · by_cases hq : q = s.fresh
    · rw [hq, hself] at hp
      have hp : parent = some p := hp
      rw [hp] at hlt
      rw [hq]
      exact of_decide_eq_true hlt
    · rw [hne q hq] at hp
      exact h.nested.older q p hp
  · by_cases hq : q = s.fresh
    · rw [hq, hself] at hg ⊢
      exact hg
    · rw [hne q hq] at hg ⊢
      exact h.nested.object q hg
  · by_cases hq : q = s.fresh
    · rw [hq, hself] at ho hg
      exact absurd ho (Bool.eq_false_iff.mp hg)
    · rw [hne q hq] at ho hg ⊢
      exact h.nested.ended q ho hg
  · rw [hlocks] at hl
    have hlt := h.nested.known l hl
    omega
  · rw [hout]
    by_cases hq : q = s.fresh
    · have hz : s.outstanding q = 0 := List.countP_eq_zero.mpr fun l hl hm => by
        have hle := h.nested.le_of_mem_chain (of_decide_eq_true hm)
        have hlt := h.nested.known l hl
        omega
      rw [hz, hq, hself]
      rfl
    · rw [hne q hq] at ho ⊢
      exact h.exact q ho

/-- A step from a state whose counts are exact keeps them so, and spares what is locked, if and
only if it clears nothing that is on the way to others. -/
theorem Inv.step {a : PigEnvAct} (h : s.Inv) (hs : s.step a = some (t, os)) :
    t.Nested ∧ (t.Exact ∧ Spared os ↔ Clears s a) := by
  cases a with
  | make parent gtObject =>
    obtain ⟨ht, ho⟩ := h.make hs
    exact ⟨ht.nested, iff_of_true ⟨ht.exact, ho⟩ trivial⟩
  | refLock pig =>
    obtain ⟨ht, ho⟩ := h.refLock hs
    exact ⟨ht.nested, iff_of_true ⟨ht.exact, ho⟩ trivial⟩
  | refUnlock pig => exact h.refUnlock hs
  | destroy pig =>
    obtain ⟨ht, ho⟩ := h.destroy hs
    exact ⟨ht.nested, iff_of_true ⟨ht.exact, ho⟩ trivial⟩

-- ---------------------------------------------------------------------------
-- Runs
-- ---------------------------------------------------------------------------

theorem inv_of_run (h : machine.RunIf Clears tr s) : s.Inv ∧ Spared tr := by
  refine h.invariant (I := fun tr s => s.Inv ∧ Spared tr) (fun s hi => ?_)
    fun tr s a t os _ ⟨hv, ho⟩ hc hs => ?_
  · obtain rfl : s = _ := hi
    exact ⟨⟨⟨nofun, nofun, nofun, List.forall_mem_nil _⟩, fun q _ => rfl⟩, List.forall_mem_nil _⟩
  · obtain ⟨hn, hx⟩ := hv.step hs
    exact ⟨⟨hn, (hx.mpr hc).1⟩, List.forall_mem_append.mpr ⟨ho, (hx.mpr hc).2⟩⟩

/-- What is said of the counts: those below the gtObject count all locks on them and below
them, and are 0 when all locks have been given back. -/
structure Locked (s : PigEnvs) : Prop where
  counts : s.Exact
  released : s.locks = [] → ∀ q, (s.env q).ofObject = false → (s.env q).refLockCount = 0

theorem Exact.locked (h : s.Exact) : s.Locked := by
  refine ⟨h, fun hl q ho => ?_⟩
  have hx := h q ho
  rw [outstanding, hl] at hx
  exact hx

/-- As long as no unlocking destroys an environment that is nested in another one below the
gtObject, the counts are exact and nothing is destroyed with locks on it; the first one that
does makes them wrong. -/
theorem envLock_law (h : machine.RunIf Clears tr s) :
    s.Locked ∧ Spared tr ∧
      ∀ a t os, s.step a = some (t, os) → (t.Locked ∧ Spared os ↔ Clears s a) := by
  obtain ⟨hv, ho⟩ := inv_of_run h
  refine ⟨hv.exact.locked, ho, fun a t os hs => ?_⟩
  obtain ⟨-, hx⟩ := hv.step hs
  exact ⟨fun ⟨hl, ho⟩ => hx.mp ⟨hl.counts, ho⟩, fun hc => ⟨(hx.mpr hc).1.locked, (hx.mpr hc).2⟩⟩

/-- Two locks on an environment directly below that of a gtObject, both given back. -/
theorem envLock_law_released : ∃ tr s, machine.RunIf Clears tr s ∧
    (s.locks = [] ∧ tr = [⟨1, false, 0⟩]) ∧ s.Locked ∧ Spared tr ∧
      ∀ a t os, s.step a = some (t, os) → (t.Locked ∧ Spared os ↔ Clears s a) := by
  obtain ⟨tr, s, h, hc⟩ : ∃ tr s, machine.RunIf Clears tr s ∧
      (s.locks = [] ∧ tr = [⟨1, false, 0⟩]) :=
    Machine.exists_run (M := machine) (C := Clears)
      (P := fun tr s => s.locks = [] ∧ tr = [⟨1, false, 0⟩])
      [.make none true, .make (some 0) false, .refLock 1, .refLock 1, .refUnlock 1, .refUnlock 1]
      (s := start) rfl (by decide)
  exact ⟨tr, s, h, hc, envLock_law h⟩

/-- A lock on an environment nested in another one is given back, and the other one keeps its
count. -/
theorem refLockCount_left : ∃ tr s, machine.Run tr s ∧ s.locks = [] ∧
    (s.env 1).ofObject = false ∧ (s.env 1).refLockCount = 1 :=
  Machine.exists_run (M := machine) (C := fun _ _ => True)
    (P := fun _ s => s.locks = [] ∧ (s.env 1).ofObject = false ∧ (s.env 1).refLockCount = 1)
    [.make none true, .make (some 0) false, .make (some 1) false, .refLock 2, .refUnlock 2]
    (s := start) rfl (by decide)

end PigEnvs

end TinyState
