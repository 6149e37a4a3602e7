import TinyState.Lib.Machine
import TinyState.Sync.WaitQueue
import Mathlib.Data.Finset.Basic
import Mathlib.Data.List.Perm.Basic

/-!
# stdMutex

Readers and writers share one count and one wait queue. A `release` that makes
the lock free takes the whole queue with it, puts a new one in its place, and
wakes those it has taken one after the other; what the wakenings run comes in
between, calls of the lock and further releases too.
-/

namespace TinyState

open Transition

/-- `stdMutex`. `waking` are the releases under way, each by those it has still
to wake. The other fields are history: who has the lock, a reader as often as it
has it, and who has been refused and, of these, been woken since. -/
structure StdMutex (ω : Type) where
  count : Int
  wait : StdQueue ω
  waking : List (List ω)
  writer : Option ω
  readers : List ω
  asking : Finset ω
  woken : Finset ω

inductive MutexAct (ω : Type)
  | readLock (me : ω)
  | writeLock (me : ω)
  | release (me : ω)
  /-- One of the releases goes on. -/
  | wake (i : Nat)
  deriving DecidableEq, Repr

inductive MutexObs (ω : Type)
  /-- Taken off the queue by a release that makes the lock free. -/
  | dequeued (x : ω)
  | woken (x : ω)
  deriving DecidableEq, Repr

namespace StdMutex

variable {ω : Type} [DecidableEq ω]

/-- The caller is queued, if it is not there yet, and yields. -/
def refuse (s : StdMutex ω) (me : ω) : StdMutex ω :=
  let s := { s with
    asking := insert me s.asking
    woken := s.woken.erase me }
  if s.wait.check me then s else { s with wait := s.wait.ins maxInteger64 me }

def readLock (s : StdMutex ω) (me : ω) : StdMutex ω :=
  if 0 ≤ s.count then { s with
    count := s.count + 1
    readers := me :: s.readers
    asking := s.asking.erase me
    woken := s.woken.erase me }
  else s.refuse me

def writeLock (s : StdMutex ω) (me : ω) : StdMutex ω :=
  if s.count = 0 then { s with
    count := -1
    writer := some me
    asking := s.asking.erase me
    woken := s.woken.erase me }
  else s.refuse me

def release (s : StdMutex ω) (me : ω) : StdMutex ω × List (MutexObs ω) :=
  if s.count = 0 then (s, [])
  else
    let s := if s.writer = some me then { s with writer := none }
      else { s with readers := s.readers.erase me }
    let count := if s.count < 0 then 0 else s.count - 1
    if count ≠ 0 then ({ s with count := count }, [])
    else ({ s with
      count := count
      wait := ⟨[], false⟩
      waking := s.wait.members :: s.waking }, s.wait.members.map .dequeued)

/-- `obj->wakeup()`: whoever has what it asked for is not kept waiting by it. -/
def wakeup (s : StdMutex ω) (obj : ω) : StdMutex ω :=
  if obj ∈ s.asking then { s with woken := insert obj s.woken } else s

/-- Only who holds the lock releases it. -/
def step (s : StdMutex ω) : MutexAct ω → Option (StdMutex ω × List (MutexObs ω))
  | .readLock me => some (s.readLock me, [])
  | .writeLock me => some (s.writeLock me, [])
  | .release me => if s.writer = some me ∨ me ∈ s.readers then some (s.release me) else none
  | .wake i =>
    match s.waking[i]? with
    | none => none
    | some [] => some ({ s with waking := s.waking.eraseIdx i }, [])
    | some (obj :: que) =>
      some ({ s with waking := que :: s.waking.eraseIdx i }.wakeup obj, [.woken obj])

def initial (ω : Type) : StdMutex ω where
  count := 0
  wait := ⟨[], false⟩
  waking := []
  writer := none
  readers := []
  asking := ∅
  woken := ∅

def machine (ω : Type) [DecidableEq ω] : Machine (StdMutex ω) (MutexAct ω) (MutexObs ω) where
  init s := s = initial ω
  step := step

-- ---------------------------------------------------------------------------
-- Who has the lock
-- ---------------------------------------------------------------------------

structure Sound (s : StdMutex ω) : Prop where
  alone : ∀ w, s.writer = some w → s.readers = [] ∧ s.count = -1
  shared : s.writer = none → s.count = s.readers.length
  held : s.wait.members ≠ [] → s.count ≠ 0
  nodup : s.wait.members.Nodup
  remembered : ∀ x ∈ s.asking, x ∈ s.wait.members ∨ (∃ q ∈ s.waking, x ∈ q) ∨ x ∈ s.woken

variable {s t : StdMutex ω} {me obj : ω} {que : List ω}

omit [DecidableEq ω] in
/-- Below zero there is a writer, at zero nobody, above zero there are readers. -/
theorem Sound.writer_iff (h : Sound s) : s.count < 0 ↔ ∃ w, s.writer = some w := by
  constructor
  · intro hc
    cases hw : s.writer with
    | none =>
      have := h.shared hw
      omega
    | some w => exact ⟨w, rfl⟩
  · rintro ⟨w, hw⟩
    have := (h.alone w hw).2
    omega

theorem Sound.refuse (h : Sound s) (hc : s.count ≠ 0) : Sound (s.refuse me) := by
  have hback : ∀ x ∈ insert me s.asking, x ≠ me →
      x ∈ s.wait.members ∨ (∃ q ∈ s.waking, x ∈ q) ∨ x ∈ s.woken.erase me := by
    intro x hx hne
    rcases h.remembered x ((Finset.mem_insert.mp hx).resolve_left hne) with hw | hq | hk
    · exact .inl hw
    · exact .inr (.inl hq)
    · exact .inr (.inr (Finset.mem_erase.mpr ⟨hne, hk⟩))
  unfold StdMutex.refuse
  dsimp only
  split
  · rename_i hk
    have hk : me ∈ s.wait.members := StdQueue.check_iff.mp hk
    refine ⟨h.alone, h.shared, fun _ => hc, h.nodup, fun x hx => ?_⟩
    by_cases he : x = me
    · exact .inl (he ▸ hk)
    · exact hback x hx he
  · rename_i hk
    have hp := s.wait.members_ins maxInteger64 me
    refine ⟨h.alone, h.shared, fun _ => hc, ?_, fun x hx => ?_⟩
    · rw [hp.nodup_iff]
      exact List.nodup_cons.mpr ⟨fun hm => hk (StdQueue.check_iff.mpr hm), h.nodup⟩
    · by_cases he : x = me
      · exact .inl (hp.mem_iff.mpr (he ▸ List.mem_cons_self))
      · exact (hback x hx he).imp_left fun hw => hp.mem_iff.mpr (List.mem_cons_of_mem me hw)

/-- Who has got the lock does not ask any more. -/
theorem Sound.forget (h : Sound s) : ∀ x ∈ s.asking.erase me,
    x ∈ s.wait.members ∨ (∃ q ∈ s.waking, x ∈ q) ∨ x ∈ s.woken.erase me := by
  intro x hx
  obtain ⟨hne, hx⟩ := Finset.mem_erase.mp hx
  rcases h.remembered x hx with hw | hq | hk
  · exact .inl hw
  · exact .inr (.inl hq)
  · exact .inr (.inr (Finset.mem_erase.mpr ⟨hne, hk⟩))

theorem Sound.readLock (h : Sound s) : Sound (s.readLock me) := by
  unfold StdMutex.readLock
  split
  · rename_i hc
    have hw : s.writer = none := by
      rw [Option.eq_none_iff_forall_ne_some]
      exact fun w hw => absurd (h.writer_iff.mpr ⟨w, hw⟩) (by omega)
    refine ⟨fun w hs => ?_, fun _ => ?_, fun _ => ?_, h.nodup, h.forget⟩
    · exact absurd (hw.symm.trans hs) nofun
    · have := h.shared hw
      simp only [List.length_cons]
      omega
    · dsimp only
      omega
  · exact h.refuse (by omega)

theorem Sound.writeLock (h : Sound s) : Sound (s.writeLock me) := by
  unfold StdMutex.writeLock
  split
  · rename_i hc
    have hw : s.writer = none := by
      rw [Option.eq_none_iff_forall_ne_some]
      exact fun w hw => absurd (h.writer_iff.mpr ⟨w, hw⟩) (by omega)
    have hr : s.readers = [] := by
      have := h.shared hw
      exact List.length_eq_zero_iff.mp (by omega)
    exact ⟨fun _ _ => ⟨hr, rfl⟩, nofun, fun _ => nofun, h.nodup, h.forget⟩
  · exact h.refuse ‹_›

/-- What a release does, once it has found the lock held. -/
theorem Sound.release_cases (h : Sound s) (hm : s.writer = some me ∨ me ∈ s.readers) :
    (s.count = -1 ∧ s.writer = some me ∨ s.count = 1 ∧ s.writer = none ∧ s.readers = [me]) ∧
      s.release me = ({ s with
        count := 0
        writer := none
        readers := []
        wait := ⟨[], false⟩
        waking := s.wait.members :: s.waking }, s.wait.members.map .dequeued) ∨
    1 < s.count ∧ s.writer = none ∧ me ∈ s.readers ∧
      s.release me = ({ s with
        count := s.count - 1
        readers := s.readers.erase me }, []) := by
  cases hw : s.writer with
  | some w =>
    obtain ⟨hr, hc⟩ := h.alone w hw
    have he : w = me := by
      rcases hm with hm | hm
      · exact Option.some.inj (hw.symm.trans hm)
      · simp [hr] at hm
    subst he
    refine .inl ⟨.inl ⟨hc, rfl⟩, ?_⟩
    simp [StdMutex.release, hc, hw, hr]
  | none =>
    have hm : me ∈ s.readers := hm.resolve_left (by simp [hw])
    have hc := h.shared hw
    have hpos := List.length_pos_of_mem hm
    by_cases h1 : s.count = 1
    · obtain ⟨x, hx⟩ := List.length_eq_one_iff.mp (show s.readers.length = 1 by omega)
      obtain rfl : me = x := by simpa [hx] using hm
      refine .inl ⟨.inr ⟨h1, rfl, hx⟩, ?_⟩
      simp [StdMutex.release, h1, hw, hx]
    · refine .inr ⟨by omega, rfl, hm, ?_⟩
      have h0 : s.count ≠ 0 := by omega
      have hneg : ¬s.count < 0 := by omega
      have hsub : s.count - 1 ≠ 0 := by omega
      simp [StdMutex.release, h0, hw, hneg, hsub]

theorem Sound.release (h : Sound s) (hm : s.writer = some me ∨ me ∈ s.readers) :
    Sound (s.release me).1 := by
  rcases h.release_cases hm with ⟨-, he⟩ | ⟨hc, hw, hr, he⟩
  · rw [he]
    refine ⟨nofun, fun _ => rfl, fun hn => absurd rfl hn, List.nodup_nil, fun x hx => ?_⟩
    rcases h.remembered x hx with hw | ⟨q, hq, hx⟩ | hk
    · exact .inr (.inl ⟨_, List.mem_cons_self, hw⟩)
    · exact .inr (.inl ⟨q, List.mem_cons_of_mem _ hq, hx⟩)
    · exact .inr (.inr hk)
  · rw [he]
    refine ⟨fun w hs => ?_, fun _ => ?_, fun _ => ?_, h.nodup, h.remembered⟩
    · exact absurd (hw.symm.trans hs) nofun
    · have hs := h.shared hw
      have hl := List.length_erase_of_mem hr
      dsimp only
      omega
    · dsimp only
      omega

/-- One who has been taken off the queue is woken. -/
theorem Sound.wake (h : Sound s) {i : Nat} (hi : s.waking[i]? = some (obj :: que)) :
    Sound ({ s with waking := que :: s.waking.eraseIdx i }.wakeup obj) := by
  have hback : ∀ x ∈ s.asking, x ≠ obj → x ∈ s.wait.members ∨
      (∃ q ∈ que :: s.waking.eraseIdx i, x ∈ q) ∨ x ∈ s.woken := by
    intro x hx hne
    rcases h.remembered x hx with hw | ⟨q, hq, hxq⟩ | hk
    · exact .inl hw
    · refine .inr (.inl ?_)
      obtain ⟨k, hk⟩ := List.mem_iff_getElem?.mp hq
      by_cases he : k = i
      · obtain rfl : q = obj :: que := Option.some.inj (hk.symm.trans (he ▸ hi))
        exact ⟨que, List.mem_cons_self, (List.mem_cons.mp hxq).resolve_left hne⟩
      · exact ⟨q, List.mem_cons_of_mem _ (List.mem_eraseIdx_iff_getElem?.mpr ⟨k, he, hk⟩), hxq⟩
    · exact .inr (.inr hk)
  unfold wakeup
  split
  · refine ⟨h.alone, h.shared, h.held, h.nodup, fun x hx => ?_⟩
    by_cases he : x = obj
    · exact .inr (.inr (he ▸ Finset.mem_insert_self _ _))
    · exact (hback x hx he).imp_right (.imp_right Finset.mem_insert_of_mem)
  · rename_i hn
    exact ⟨h.alone, h.shared, h.held, h.nodup, fun x hx => hback x hx fun he => hn (he ▸ hx)⟩

omit [DecidableEq ω] in
/-- A release that has woken all it has taken is at its end. -/
theorem Sound.wake_end (h : Sound s) {i : Nat} (hi : s.waking[i]? = some []) :
    Sound { s with waking := s.waking.eraseIdx i } := by
  refine ⟨h.alone, h.shared, h.held, h.nodup, fun x hx => ?_⟩
  rcases h.remembered x hx with hw | ⟨q, hq, hxq⟩ | hk
  · exact .inl hw
  · obtain ⟨k, hk⟩ := List.mem_iff_getElem?.mp hq
    have he : k ≠ i := by
      rintro rfl
      obtain rfl : q = [] := Option.some.inj (hk.symm.trans hi)
      cases hxq
    exact .inr (.inl ⟨q, List.mem_eraseIdx_iff_getElem?.mpr ⟨k, he, hk⟩, hxq⟩)
  · exact .inr (.inr hk)

/-- What a step is. -/
inductive Stepped (s : StdMutex ω) : MutexAct ω → StdMutex ω → List (MutexObs ω) → Prop
  | readLock (me : ω) : Stepped s (.readLock me) (s.readLock me) []
  | writeLock (me : ω) : Stepped s (.writeLock me) (s.writeLock me) []
  | release {me : ω} : s.writer = some me ∨ me ∈ s.readers →
      Stepped s (.release me) (s.release me).1 (s.release me).2
  | wake_end {i} : s.waking[i]? = some [] →
      Stepped s (.wake i) { s with waking := s.waking.eraseIdx i } []
  | wake {i obj que} : s.waking[i]? = some (obj :: que) →
      Stepped s (.wake i) ({ s with waking := que :: s.waking.eraseIdx i }.wakeup obj) [.woken obj]

theorem step_stepped {a : MutexAct ω} {os : List (MutexObs ω)} (h : s.step a = some (t, os)) :
    Stepped s a t os := by
  cases a with
  | readLock me =>
    obtain ⟨rfl, rfl⟩ : s.readLock me = t ∧ [] = os := by simpa [step] using h
    exact .readLock me
  | writeLock me =>
    obtain ⟨rfl, rfl⟩ : s.writeLock me = t ∧ [] = os := by simpa [step] using h
    exact .writeLock me
  | release me =>
    obtain ⟨hm, he⟩ : (s.writer = some me ∨ me ∈ s.readers) ∧ s.release me = (t, os) := by
      simpa [step] using h
    obtain ⟨rfl, rfl⟩ := Prod.ext_iff.mp he
    exact .release hm
  | wake i =>
    simp only [step] at h
    split at h
    · cases h
    · obtain ⟨rfl, rfl⟩ := by simpa using h
      exact .wake_end ‹_›
    · obtain ⟨rfl, rfl⟩ := by simpa using h
      exact .wake ‹_›

theorem Sound.stepped {a : MutexAct ω} {os : List (MutexObs ω)} (h : Sound s)
    (hs : Stepped s a t os) : Sound t := by
  cases hs with
  | readLock me => exact h.readLock
  | writeLock me => exact h.writeLock
  | release hm => exact h.release hm
  | wake_end hi => exact h.wake_end hi
  | wake hi => exact h.wake hi

omit [DecidableEq ω] in
theorem Sound.initial : Sound (initial ω) :=
  ⟨nofun, fun _ => rfl, fun h => absurd rfl h, List.nodup_nil, nofun⟩

theorem Sound.run (h : (machine ω).Run tr s) : Sound s := by
  refine h.stateInvariant (I := Sound) ?_ fun s a t os hi _ hs => hi.stepped (step_stepped hs)
  rintro s rfl
  exact Sound.initial

-- ---------------------------------------------------------------------------
-- Who is woken
-- ---------------------------------------------------------------------------

/-- Who has been taken off the queue has been woken, or is still to be. -/
def Accounted (tr : List (MutexObs ω)) (s : StdMutex ω) : Prop :=
  ∀ x, tr.count (.dequeued x) = tr.count (.woken x) + s.waking.flatten.count x

theorem Accounted.silent {tr : List (MutexObs ω)} (h : Accounted tr s)
    (hw : t.waking = s.waking) : Accounted (tr ++ []) t := by
  intro x
  rw [List.append_nil, hw]
  exact h x

theorem count_eraseIdx {i : Nat} (hi : s.waking[i]? = some que) (x : ω) :
    s.waking.flatten.count x = que.count x + (s.waking.eraseIdx i).flatten.count x := by
  obtain ⟨hlt, hl⟩ := List.getElem?_eq_some_iff.mp hi
  have hp := (List.getElem_cons_eraseIdx_perm hlt).flatten
  rw [hl, List.flatten_cons] at hp
  rw [← hp.count_eq, List.count_append]

theorem refuse_waking : (s.refuse me).waking = s.waking := by
  unfold StdMutex.refuse
  dsimp only
  split <;> rfl

theorem Accounted.stepped {tr os : List (MutexObs ω)} {a : MutexAct ω} (h : Accounted tr s)
    (hi : Sound s) (hs : Stepped s a t os) : Accounted (tr ++ os) t := by
  cases hs with
  | readLock me =>
    refine h.silent ?_
    unfold StdMutex.readLock
    split
    · rfl
    · exact refuse_waking
  | writeLock me =>
    refine h.silent ?_
    unfold StdMutex.writeLock
    split
    · rfl
    · exact refuse_waking
  | release hm =>
    rcases hi.release_cases hm with ⟨-, he⟩ | ⟨-, -, -, he⟩
    · rw [he]
      intro x
      have hx := h x
      have hd : (s.wait.members.map MutexObs.dequeued).count (.dequeued x) =
          s.wait.members.count x :=
        List.count_map_of_injective _ _ (fun _ _ he => MutexObs.dequeued.inj he) x
      have hk : (s.wait.members.map MutexObs.dequeued).count (.woken x) = 0 := by
        simp [List.count_eq_zero]
      simp only [List.count_append, hd, hk, List.flatten_cons]
      omega
    · rw [he]
      exact h.silent rfl
  | wake_end hw =>
    intro x
    have hx := h x
    rw [count_eraseIdx hw x] at hx
    simpa using hx
  | @wake i obj que hw =>
    intro x
    have hx := h x
    rw [count_eraseIdx hw x] at hx
    have he : ∀ u : StdMutex ω, (u.wakeup obj).waking = u.waking := fun u => by
      unfold wakeup
      split <;> rfl
    rw [he]
    by_cases hxo : x = obj
    · subst hxo
      simp only [List.count_cons_self] at hx
      simp only [List.count_append, List.flatten_cons]
      simp
      omega
    · simp only [List.count_cons_of_ne (Ne.symm hxo)] at hx
      simpa [List.count_append, Ne.symm hxo] using hx

theorem Accounted.run (h : (machine ω).Run tr s) : Accounted tr s := by
  refine h.invariant (I := Accounted) ?_ ?_
  · rintro s rfl x
    rfl
  · intro tr s a t os hr hi _ hs
    exact hi.stepped (Sound.run hr) (step_stepped hs)

end StdMutex

open StdMutex

/-- What is asked of the lock: a writer is alone, a queue means that the lock is
held, a release that makes it free takes the whole queue and wakes all it has
taken, and whoever has been refused waits behind a lock that is held, is about
to be woken, or has been. -/
structure MutexLaw {ω : Type} [DecidableEq ω] (tr : List (MutexObs ω)) (s : StdMutex ω) :
    Prop where
  alone : ∀ w, s.writer = some w → s.readers = [] ∧ s.count = -1
  shared : s.writer = none → s.count = s.readers.length
  held : s.wait.members ≠ [] → s.count ≠ 0
  once : s.wait.members.Nodup
  freed : ∀ me t os, s.step (.release me) = some (t, os) → t.count = 0 →
    t.wait.members = [] ∧ t.waking = s.wait.members :: s.waking ∧
      os = s.wait.members.map .dequeued
  woken : ∀ x, tr.count (.dequeued x) = tr.count (.woken x) + s.waking.flatten.count x
  minded : ∀ x ∈ s.asking, x ∈ s.wait.members ∧ s.count ≠ 0 ∨ (∃ q ∈ s.waking, x ∈ q) ∨
    x ∈ s.woken

theorem mutex_law {ω : Type} [DecidableEq ω] {tr : List (MutexObs ω)} {s : StdMutex ω}
    (h : (machine ω).Run tr s) : MutexLaw tr s := by
  have hi := Sound.run h
  refine ⟨hi.alone, hi.shared, hi.held, hi.nodup, ?_, Accounted.run h, fun x hx => ?_⟩
  · intro me t os hs h0
    cases step_stepped hs with
    | release hm =>
      rcases hi.release_cases hm with ⟨-, he⟩ | ⟨hc, -, -, he⟩
      · rw [he]
        exact ⟨rfl, rfl, rfl⟩
      · rw [he] at h0
        dsimp only at h0
        omega
  · rcases hi.remembered x hx with hw | hr
    · exact .inl ⟨hw, hi.held (List.ne_nil_of_mem hw)⟩
    · exact .inr hr

/-- Two readers and a writer that waits for them. -/
def writerWaits (a b c : Fin 3) : List (MutexAct (Fin 3)) :=
  [.readLock a, .readLock b, .writeLock c, .release a, .release b, .wake 0]

theorem writer_woken : ∃ (tr : List (MutexObs (Fin 3))) (s : StdMutex (Fin 3)),
    .woken 2 ∈ tr ∧ s.count = 0 ∧ 2 ∈ s.asking ∧ MutexLaw tr s := by
  obtain ⟨tr, s, h, hw, hc, ha⟩ := Machine.exists_run (M := machine (Fin 3))
    (C := fun _ _ => True) (P := fun tr s => .woken 2 ∈ tr ∧ s.count = 0 ∧ 2 ∈ s.asking)
    (writerWaits 0 1 2) rfl (by decide)
  exact ⟨tr, s, hw, hc, ha, mutex_law h⟩

end TinyState
