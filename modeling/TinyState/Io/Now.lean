import TinyState.Lib.Machine
import Mathlib.Algebra.Order.Ring.Int
import Mathlib.Data.List.Induction

/-!
# The time that stdInterval::now returns

Callers read the system clock, and put what they have read into `lastAccessTime` by compare and
swap unless there is something later. The step in which a caller sees what it is going to return
is its swap, or the reading of a value that is not earlier than its clock.
-/

namespace TinyState.Now

open Transition

-- ---------------------------------------------------------------------------
-- Model
-- ---------------------------------------------------------------------------

/-- Where a call is: before the clock is read, before `load`, at the test of the loop with the
values of `ret` and `prev`, behind a swap. -/
inductive Place
  | absent
  | started
  | timed (ret : Int)
  | testing (ret prev : Int)
  | swapped (ret : Int)
  | ended
  deriving DecidableEq, Repr

/-- All calls, numbered as they begin. -/
structure State where
  lastAccessTime : Int
  place : Nat → Place
  calls : Nat

/-- `gettimeofday` gives any time. `compare_exchange_weak` may fail for no reason. -/
inductive Act
  | call
  | gettimeofday (i : Nat) (tv_sec tv_usec : Int)
  | load (i : Nat)
  | compareExchange (i : Nat) (spurious : Bool)
  | ret (i : Nat)
  deriving DecidableEq, Repr

/-- `decided i v` is the step in which the call sees the `v` that it is going to return. -/
inductive Obs
  | called (i : Nat)
  | decided (i : Nat) (v : Int)
  | returned (i : Nat) (v : Int)
  deriving DecidableEq, Repr

def State.set (s : State) (i : Nat) (p : Place) : State :=
  { s with place := Function.update s.place i p }

/-- `prev` gets the value of `lastAccessTime`. -/
def State.look (s : State) (i : Nat) (ret : Int) : State × List Obs :=
  (s.set i (.testing ret s.lastAccessTime),
    if ret ≤ s.lastAccessTime then [.decided i s.lastAccessTime] else [])

def step (s : State) : Act → Option (State × List Obs)
  | .call =>
    some ({ s with calls := s.calls + 1 }.set s.calls .started, [.called s.calls])
  | .gettimeofday i tv_sec tv_usec =>
    if s.place i = .started then some (s.set i (.timed (tv_usec + tv_sec * 1000000)), []) else none
  | .load i =>
    match s.place i with
    | .timed ret => some (s.look i ret)
    | _ => none
  | .compareExchange i spurious =>
    match s.place i with
    | .testing ret prev =>
      if ret ≤ prev then none
      else if s.lastAccessTime = prev ∧ spurious = false then
        some ({ s with lastAccessTime := ret }.set i (.swapped ret), [.decided i ret])
      else some (s.look i ret)
    | _ => none
  | .ret i =>
    match s.place i with
    | .testing ret prev =>
      if ret ≤ prev then some (s.set i .ended, [.returned i prev]) else none
    | .swapped ret => some (s.set i .ended, [.returned i ret])
    | _ => none

def machine (lastAccessTime : Int) : Machine State Act Obs where
  init s := s = ⟨lastAccessTime, fun _ => .absent, 0⟩
  step := step

-- ---------------------------------------------------------------------------
-- What each observation says
-- ---------------------------------------------------------------------------

/-- A call begins once, decides once, on nothing earlier than what has been decided, and returns
what it has decided. -/
def Right (before : List Obs) : Obs → Prop
  | .called i => .called i ∉ before
  | .decided i v => .called i ∈ before ∧ (∀ u, .decided i u ∉ before) ∧
      ∀ j u, .decided j u ∈ before → u ≤ v
  | .returned i v => .decided i v ∈ before

/-- What a call has seen so far. -/
def Fits (tr : List Obs) (last : Int) (i : Nat) : Place → Prop
  | .absent => True
  | .started | .timed _ => .called i ∈ tr ∧ ∀ v, .decided i v ∉ tr
  | .testing ret prev => .called i ∈ tr ∧ prev ≤ last ∧
      (ret ≤ prev → .decided i prev ∈ tr) ∧ (prev < ret → ∀ v, .decided i v ∉ tr)
  | .swapped ret => .decided i ret ∈ tr
  | .ended => True

structure Inv (tr : List Obs) (s : State) : Prop where
  right : Machine.Justified Right tr
  fresh : ∀ i, .called i ∈ tr → i < s.calls
  begun : ∀ i v, .decided i v ∈ tr → .called i ∈ tr
  below : ∀ i v, .decided i v ∈ tr → v ≤ s.lastAccessTime
  fits : ∀ i, Fits tr s.lastAccessTime i (s.place i)

variable {tr os : List Obs} {s t : State} {i : Nat} {p : Place} {v last last' : Int} {a : Act}

@[simp] theorem set_last : (s.set i p).lastAccessTime = s.lastAccessTime := rfl

@[simp] theorem set_calls : (s.set i p).calls = s.calls := rfl

@[simp] theorem set_place : (s.set i p).place i = p := Function.update_self ..

theorem set_other {j : Nat} (h : j ≠ i) : (s.set i p).place j = s.place j :=
  Function.update_of_ne h ..

-- ---------------------------------------------------------------------------
-- One step
-- ---------------------------------------------------------------------------

/-- What others see, and a later time, change nothing for a call. -/
theorem Fits.mono (h : Fits tr last i p) (hl : last ≤ last') (hos : ∀ v, .decided i v ∉ os) :
    Fits (tr ++ os) last' i p := by
  cases p with
  | absent | ended => trivial
  | started | timed =>
    obtain ⟨hc, hn⟩ := h
    simp_all [Fits]
  | testing ret prev =>
    obtain ⟨hc, hle, hd, hn⟩ := h
    refine ⟨List.mem_append_left _ hc, hle.trans hl, fun h => List.mem_append_left _ (hd h), ?_⟩
    intro h v
    simp [hn h v, hos v]
  | swapped ret => exact List.mem_append_left _ h

/-- A step of one call, that is seen by nobody. -/
theorem Inv.quiet (h : Inv tr s) (hp : Fits tr s.lastAccessTime i p) : Inv tr (s.set i p) := by
  refine ⟨h.right, h.fresh, h.begun, h.below, fun j => ?_⟩
  rcases eq_or_ne j i with rfl | hj
  · simpa using hp
  · simpa [set_other hj] using h.fits j

/-- A step in which a call sees what it is going to return. -/
theorem Inv.decide (h : Inv tr s) (hc : .called i ∈ tr) (hn : ∀ u, .decided i u ∉ tr)
    (hv : s.lastAccessTime ≤ v)
    (hp : Fits (tr ++ [Obs.decided i v]) v i p) :
    Inv (tr ++ [Obs.decided i v]) ({ s with lastAccessTime := v }.set i p) := by
  constructor
  case right => exact h.right.snoc ⟨hc, hn, fun j u hu => (h.below j u hu).trans hv⟩
  case fresh =>
    intro j hj
    exact h.fresh j (by simpa using hj)
  case begun =>
    intro j u hu
    rcases List.mem_append.mp hu with hu | hu
    · exact List.mem_append_left _ (h.begun j u hu)
    · cases List.mem_singleton.mp hu
      exact List.mem_append_left _ hc
  case below =>
    intro j u hu
    rcases List.mem_append.mp hu with hu | hu
    · exact (h.below j u hu).trans hv
    · cases List.mem_singleton.mp hu
      exact le_refl _
  case fits =>
    intro j
    rcases eq_or_ne j i with rfl | hj
    · simpa using hp
    · rw [set_other hj]
      refine (h.fits j).mono hv fun u hu => hj ?_
      cases List.mem_singleton.mp hu
      rfl

/-- The value of `lastAccessTime` is read. -/
theorem Inv.look {ret : Int} (h : Inv tr s) (hc : .called i ∈ tr) (hn : ∀ u, .decided i u ∉ tr) :
    Inv (tr ++ (s.look i ret).2) (s.look i ret).1 := by
  by_cases hle : ret ≤ s.lastAccessTime
  · have hd := h.decide (v := s.lastAccessTime) (p := .testing ret s.lastAccessTime) hc hn (le_refl _)
      ⟨by simp [hc], le_refl _, by simp, fun hlt => absurd hle (Int.not_le.mpr hlt)⟩
    simpa [State.look, hle] using hd
  · have hq := h.quiet (p := .testing ret s.lastAccessTime)
      ⟨hc, le_refl _, by simp [hle], fun _ => hn⟩
    simpa [State.look, hle] using hq

/-- A call ends. -/
theorem Inv.ret (h : Inv tr s) (hd : .decided i v ∈ tr) :
    Inv (tr ++ [Obs.returned i v]) (s.set i .ended) := by
  constructor
  case right => exact h.right.snoc hd
  case fresh => simpa using h.fresh
  case begun => simpa using h.begun
  case below => simpa using h.below
  case fits =>
    intro j
    rcases eq_or_ne j i with rfl | hj
    · simp [Fits]
    · rw [set_other hj]
      exact (h.fits j).mono (le_refl _) (by simp)

/-- A call begins. -/
theorem Inv.call (h : Inv tr s) : Inv (tr ++ [Obs.called s.calls])
    ({ s with calls := s.calls + 1 }.set s.calls .started) := by
  have hnew : .called s.calls ∉ tr := fun hm => Nat.lt_irrefl _ (h.fresh _ hm)
  constructor
  case right => exact h.right.snoc hnew
  case fresh =>
    intro j hj
    rcases List.mem_append.mp hj with hj | hj
    · exact Nat.lt_succ_of_lt (h.fresh j hj)
    · cases List.mem_singleton.mp hj
      exact Nat.lt_succ_self _
  case begun =>
    intro j u hu
    exact List.mem_append_left _ (h.begun j u (by simpa using hu))
  case below => simpa using h.below
  case fits =>
    intro j
    rcases eq_or_ne j s.calls with rfl | hj
    · have hn : ∀ u, .decided s.calls u ∉ tr := fun u hu => hnew (h.begun _ u hu)
      simp [Fits, hn]
    · rw [set_other hj]
      exact (h.fits j).mono (le_refl _) (by simp)

theorem Inv.step (h : Inv tr s) (hs : step s a = some (t, os)) : Inv (tr ++ os) t := by
  cases a with
  | call =>
    cases hs
    exact h.call
  | gettimeofday i tv_sec tv_usec =>
    obtain ⟨hp, hs⟩ := Option.ite_none_right_eq_some.mp hs
    cases hs
    have hf := h.fits i
    rw [hp] at hf
    simpa using h.quiet (p := .timed (tv_usec + tv_sec * 1000000)) hf
  | load i =>
    simp only [Now.step] at hs
    split at hs
    · next ret hp =>
      cases hs
      have hf := h.fits i
      rw [hp] at hf
      exact h.look hf.1 hf.2
    · cases hs
  | compareExchange i spurious =>
    simp only [Now.step] at hs
    split at hs
    · next ret prev hp =>
      have hf := h.fits i
      rw [hp] at hf
      obtain ⟨hc, hle, -, hn⟩ := hf
      split_ifs at hs with htest hswap
      · have hlt := Int.not_le.mp htest
        cases hs
        refine h.decide hc (hn hlt) ?_ (by simp [Fits])
        rw [hswap.1]
        exact hlt.le
      · cases hs
        exact h.look hc (hn (Int.not_le.mp htest))
    · cases hs
  | ret i =>
    simp only [Now.step] at hs
    split at hs
    · next ret prev hp =>
      obtain ⟨hle, hs⟩ := Option.ite_none_right_eq_some.mp hs
      cases hs
      have hf := h.fits i
      rw [hp] at hf
      exact h.ret (hf.2.2.1 hle)
    · next ret hp =>
      cases hs
      have hf := h.fits i
      rw [hp] at hf
      exact h.ret hf
    · cases hs

theorem Inv.run {start : Int} (h : (machine start).Run tr s) : Inv tr s := by
  refine h.invariant ?_ fun tr s a t os _ hi _ hs => hi.step hs
  rintro s rfl
  exact ⟨.nil, nofun, nofun, nofun, fun _ => trivial⟩

-- ---------------------------------------------------------------------------
-- Time does not go back
-- ---------------------------------------------------------------------------

/-- What the calls see that they are going to return, in this order. -/
def decisions (tr : List Obs) : List Int :=
  tr.filterMap fun | .decided _ v => some v | _ => none

theorem mem_decisions : v ∈ decisions tr ↔ ∃ i, .decided i v ∈ tr := by
  simp only [decisions, List.mem_filterMap]
  constructor
  · rintro ⟨o, ho, hv⟩
    cases o with
    | decided i u =>
      cases hv
      exact ⟨i, ho⟩
    | called | returned => cases hv
  · rintro ⟨i, hi⟩
    exact ⟨_, hi, rfl⟩

theorem decisions_sorted (h : Machine.Justified Right tr) :
    (decisions tr).Pairwise (· ≤ ·) := by
  induction tr using List.reverseRecOn with
  | nil => exact .nil
  | append_singleton tr o ih =>
    have hold : Machine.Justified Right tr := by
      rintro before x after rfl
      exact h before x (after ++ [o]) (by simp)
    have ho := h tr o [] rfl
    simp only [decisions, List.filterMap_append]
    refine List.pairwise_append.mpr ⟨ih hold, by cases o <;> simp, ?_⟩
    intro u hu v hv
    cases o with
    | decided i w =>
      obtain ⟨j, hj⟩ := mem_decisions.mp hu
      cases List.mem_singleton.mp hv
      exact ho.2.2 j u hj
    | called | returned => cases hv

/-- In the order of the steps in which the calls see what they are going to return the values do
not decrease; each call returns what it has seen, once it has begun; and it is no less than all
that was returned before. -/
theorem now_law {start : Int} (h : (machine start).Run tr s) :
    (decisions tr).Pairwise (· ≤ ·) ∧
    (∀ before i v after, tr = before ++ .returned i v :: after → .decided i v ∈ before) ∧
    (∀ before i v after, tr = before ++ .decided i v :: after →
      .called i ∈ before ∧ ∀ u, .decided i u ∉ before) ∧
    ∀ before i after, tr = before ++ .called i :: after →
      ∀ j u, .returned j u ∈ before → ∀ v, .returned i v ∈ after → u ≤ v := by
  have hr := (Inv.run h).right
  have hret : ∀ before i v after, tr = before ++ Obs.returned i v :: after →
      .decided i v ∈ before :=
    fun before i v after ht => hr before _ after ht
  have hdec : ∀ before i v after, tr = before ++ Obs.decided i v :: after →
      .called i ∈ before ∧ (∀ u, .decided i u ∉ before) ∧ ∀ j u, .decided j u ∈ before → u ≤ v :=
    fun before i v after ht => hr before _ after ht
  refine ⟨decisions_sorted hr, hret, fun before i v after ht =>
    ⟨(hdec before i v after ht).1, (hdec before i v after ht).2.1⟩, ?_⟩
  rintro before i after rfl j u hu v hv
  have hnew : .called i ∉ before := hr before _ after rfl
  -- the other call has decided before this one began, and this one decides later
  have hju : .decided j u ∈ before := by
    obtain ⟨b, a, rfl⟩ := List.append_of_mem hu
    exact List.mem_append_left _ (hret b j u (a ++ Obs.called i :: after) (by simp))
  obtain ⟨b, a, rfl⟩ := List.append_of_mem hv
  have hiv := hret (before ++ Obs.called i :: b) i v a (by simp)
  rcases List.mem_append.mp hiv with hm | hm
  · obtain ⟨c, d, rfl⟩ := List.append_of_mem hm
    have hc := (hdec c i v (d ++ Obs.called i :: (b ++ Obs.returned i v :: a)) (by simp)).1
    exact absurd (List.mem_append_left _ hc) hnew
  · obtain ⟨c, d, rfl⟩ := List.append_of_mem ((List.mem_cons.mp hm).resolve_left nofun)
    have hle := (hdec (before ++ Obs.called i :: c) i v (d ++ Obs.returned i v :: a) (by simp)).2.2
    exact hle j u (List.mem_append_left _ hju)

-- Law witness: the clock goes back between two calls, and a third one is overtaken.
theorem now_law_backwards : ∃ tr s, (machine 0).Run tr s ∧
    (decisions tr = [30, 30, 40] ∧ .returned 1 30 ∈ tr ∧ .returned 2 40 ∈ tr) ∧
    (decisions tr).Pairwise (· ≤ ·) := by
  obtain ⟨tr, s, hrun, hp⟩ := Machine.exists_run (M := machine 0) (C := fun _ _ => True)
    (P := fun tr _ => decisions tr = [30, 30, 40] ∧ .returned 1 30 ∈ tr ∧ .returned 2 40 ∈ tr)
    [.call, .gettimeofday 0 0 30, .call, .call, .gettimeofday 2 0 40, .load 2, .load 0,
      .compareExchange 0 false, .gettimeofday 1 0 20, .load 1, .ret 1, .ret 0,
      .compareExchange 2 false, .compareExchange 2 true, .compareExchange 2 false, .ret 2]
    rfl (by decide +kernel)
  exact ⟨tr, s, hrun, hp, (now_law hrun).1⟩

end TinyState.Now
