import Mathlib.Data.List.TakeWhile
import TinyState.Io.Registration
import TinyState.Io.Wakeup

/-!
# Timers

The registrations of `wait` under the clock. Each is kept until it fires, at its deadline
or later, or is detached, or lost with a ZOM object; those of one turn fire in the order
of their deadlines. `select` waits no longer than until the earliest of them, as far as
they were there when the loop looked; for the others the pipe is readable.
-/

namespace TinyState

open Transition

/-- A call of `wait`: what it has registered, and the time it has been asked for. -/
structure Timer (ω : Type) where
  dd : IoData ω
  deadline : Int
  deriving DecidableEq, Repr

/-- `fwIO` with a clock. `ptr` is what the loop has found the earliest, `limit` what
`select` has been given, at the time `entered`. `timers` is history, and so is `turn`:
what has been delivered in this turn. -/
structure TimedIo (ω : Type) where
  io : FwIo ω
  clock : Int
  ptr : Option (IoData ω)
  limit : Option (Option Int)
  entered : Int
  timers : List (Timer ω)
  turn : List (IoData ω)

inductive TimedAct (ω : Type)
  | tick (now : Int)
  /-- `select` is called. -/
  | call
  | io (a : FwIoAct ω)
  deriving DecidableEq, Repr

namespace FwIo

variable {ω : Type}

/-- The time limit, from the earliest registration. -/
def selectLimit (now : Int) (ptr : IoData ω) : Int :=
  let sub := int64 (ptr.data - now)
  if sub < 0 then 0 else sub

/-- What a step does with the timers. -/
structure Kept (s t : FwIo ω) (os : List (IoOutcome ω)) : Prop where
  queue : t.intervalObjs.list.Sublist s.intervalObjs.list
  interval : ∀ dd ∈ s.intervalObjs.members,
    dd ∈ t.intervalObjs.members ∨ dd ∈ t.loop.result ∨ dd ∈ os.map IoOutcome.data
  result : ∀ dd ∈ s.loop.result, dd ∈ t.loop.result ∨ dd ∈ os.map IoOutcome.data

/-- In the order of the deadlines, which are the keys. -/
structure Sorted (q : StdQueue (IoData ω)) : Prop where
  key : ∀ el ∈ q.list, el.1 = el.2.data ∧ el.1 ≤ maxInteger64
  sorted : q.list.Pairwise fun x y => x.1 ≤ y.1

variable {s t : FwIo ω} {os : List (IoOutcome ω)} {dd : IoData ω}

-- ---------------------------------------------------------------------------
-- The queue
-- ---------------------------------------------------------------------------

theorem int64_range (n : Int) : -2 ^ 63 ≤ int64 n ∧ int64 n ≤ maxInteger64 := by
  have h₁ := Int.le_bmod (x := n) (m := 2 ^ 64) (by decide)
  have h₂ := Int.bmod_lt (x := n) (m := 2 ^ 64) (by decide)
  unfold int64 maxInteger64
  omega

/-- A number that an `INTEGER64` can hold. -/
theorem int64_of_range {n : Int} (h₁ : -2 ^ 63 ≤ n) (h₂ : n ≤ maxInteger64) : int64 n = n := by
  unfold maxInteger64 at h₂
  exact Int.bmod_eq_of_le (by omega) (by omega)

theorem Sorted.ins {q : StdQueue (IoData ω)} (h : Sorted q) (hd : dd.data ≤ maxInteger64) :
    Sorted (q.ins dd.data dd) := by
  unfold StdQueue.ins
  split
  · rename_i he
    refine ⟨fun el hel => ?_, List.pairwise_append.mpr ⟨h.sorted, List.pairwise_singleton .., ?_⟩⟩
    · rcases List.mem_append.mp hel with hel | hel
      · exact h.key el hel
      · obtain rfl := List.mem_singleton.mp hel
        exact ⟨rfl, hd⟩
    · intro x hx y hy
      obtain rfl := List.mem_singleton.mp hy
      exact he ▸ (h.key x hx).2
  · refine ⟨fun el hel => ?_, StdQueue.insSorted_sorted h.sorted⟩
    rcases StdQueue.mem_insSorted.mp hel with rfl | hel
    · exact ⟨rfl, hd⟩
    · exact h.key el hel

theorem Sorted.sublist {q r : StdQueue (IoData ω)} (h : Sorted q) (hs : r.list.Sublist q.list) :
    Sorted r :=
  ⟨fun el hel => h.key el (hs.subset hel), h.sorted.sublist hs⟩

theorem Sorted.members {q : StdQueue (IoData ω)} (h : Sorted q) :
    q.members.Pairwise fun x y => x.data ≤ y.data := by
  refine List.pairwise_map.mpr (h.sorted.imp_of_mem fun hx hy hle => ?_)
  rw [← (h.key _ hx).1, ← (h.key _ hy).1]
  exact hle

theorem getIntervalMinimal_sorted {ptr : IoData ω} {l : List (IoData ω)}
    (h : ∀ x ∈ l, ptr.data ≤ x.data) :
    ∃ p ∈ ptr :: l, getIntervalMinimal (some ptr) l = some p ∧ p.data = ptr.data := by
  induction l with
  | nil => exact ⟨ptr, List.mem_cons_self .., rfl, rfl⟩
  | cons x rest ih =>
    obtain ⟨hx, hr⟩ := List.forall_mem_cons.mp h
    unfold getIntervalMinimal
    rw [if_neg (Int.not_lt.mpr hx)]
    split
    · exact ⟨ptr, List.mem_cons_self .., rfl, rfl⟩
    · obtain ⟨p, hm, hp⟩ := ih hr
      refine ⟨p, ?_, hp⟩
      exact (List.mem_cons.mp hm).elim (fun h => h ▸ List.mem_cons_self ..)
        fun h => List.mem_cons_of_mem ptr (List.mem_cons_of_mem x h)

/-- What the loop finds is the earliest. -/
theorem getIntervalMinimal_le {l : List (IoData ω)} (h : l.Pairwise fun x y => x.data ≤ y.data)
    (hd : dd ∈ l) : ∃ p ∈ l, getIntervalMinimal none l = some p ∧ p.data ≤ dd.data := by
  cases l with
  | nil => cases hd
  | cons x rest =>
    obtain ⟨hx, -⟩ := List.pairwise_cons.mp h
    obtain ⟨p, hm, hp, he⟩ := getIntervalMinimal_sorted hx
    refine ⟨p, hm, hp, ?_⟩
    rcases List.mem_cons.mp hd with rfl | hd
    · exact he.le
    · exact he ▸ hx dd hd

/-- What `take` leaves in the queue is not due. -/
theorem Sorted.dropWhile {q : StdQueue (IoData ω)} (h : Sorted q) {now : Int}
    {el : Int × IoData ω} (hel : el ∈ q.list.dropWhile fun el => el.2.data ≤ now) :
    now < el.2.data := by
  obtain ⟨list, insNeq⟩ := q
  obtain ⟨hk, hs⟩ := h
  dsimp only at hk hs hel
  induction list with
  | nil => cases hel
  | cons x rest ih =>
    obtain ⟨hx, hr⟩ := List.pairwise_cons.mp hs
    obtain ⟨hkx, hkr⟩ := List.forall_mem_cons.mp hk
    rw [List.dropWhile_cons] at hel
    split at hel
    · exact ih hel hkr hr
    · rename_i hn
      have hlt : now < x.2.data := Int.not_le.mp fun hle => hn (decide_eq_true hle)
      rcases List.mem_cons.mp hel with rfl | hel
      · exact hlt
      · rw [← hkx.1] at hlt
        rw [← (hkr el hel).1]
        exact Int.lt_of_lt_of_le hlt (hx el hel)

-- ---------------------------------------------------------------------------
-- What a step does with the timers
-- ---------------------------------------------------------------------------

theorem Kept.same (hi : t.intervalObjs = s.intervalObjs)
    (hr : ∀ dd ∈ s.loop.result, dd ∈ t.loop.result ∨ dd ∈ os.map IoOutcome.data) :
    Kept s t os where
  queue := by rw [hi]
  interval dd hd := .inl (hi ▸ hd)
  result := hr

/-- The loop stays where it is. -/
theorem Kept.still (hi : t.intervalObjs = s.intervalObjs) (hl : t.loop = s.loop) : Kept s t os :=
  .same hi fun _ hd => .inl (hl ▸ hd)

/-- The loop goes on, and had nothing to deliver. -/
theorem Kept.moves (hi : t.intervalObjs = s.intervalObjs) (hl : s.loop.result = []) :
    Kept s t os :=
  .same hi fun dd hd => absurd (hl ▸ hd) (List.not_mem_nil (a := dd))

theorem Kept.writePipe (h : Kept s t os) : Kept s t.writePipe os := by
  obtain ⟨waitFlag, pipe, he⟩ := t.writePipe_frame
  rw [he]
  exact ⟨h.queue, h.interval, h.result⟩

section

variable [DecidableEq ω]

theorem detachFrom_sublist (q : StdQueue (IoData ω)) (obj : ω) (flag : Bool) :
    (detachFrom q obj flag).1.list.Sublist q.list := by
  cases flag with
  | false => exact List.Sublist.refl _
  | true => exact List.filter_sublist

theorem detach_kept (obj : ω) (read write interval : Bool) :
    Kept s (s.detach obj read write interval).1 (s.detach obj read write interval).2 := by
  refine Kept.writePipe ⟨detachFrom_sublist .., fun dd hd => ?_, fun dd hd => .inl hd⟩
  have hm := (detachFrom_perm s.intervalObjs obj interval).mem_iff.mp hd
  refine (List.mem_append.mp hm).imp id fun h => .inr ?_
  rw [detach, map_data fun _ => rfl]
  exact List.mem_append_right _ h

omit [DecidableEq ω] in
theorem aborting_kept (i : Nat) (c : AbortCall ω) : Kept s (s.aborting i c).1 (s.aborting i c).2 := by
  unfold aborting
  split
  · exact .still rfl rfl
  · split
    · split <;> exact .still rfl rfl
    · split <;> exact .still rfl rfl

omit [DecidableEq ω] in
theorem moveList_sublist (cmp : IoData ω → Int) (l : List (Int × IoData ω)) :
    (StdQueue.moveList cmp l).1.Sublist l := by
  induction l with
  | nil => exact List.Sublist.refl _
  | cons el rest ih =>
    unfold StdQueue.moveList
    split
    · exact ih.cons el
    · split
      · exact List.Sublist.refl _
      · exact ih.cons_cons el

theorem prepare_kept {pfd : Int} {stable : Bool} (hl : s.loop = .top) :
    Kept s (s.filterZoms.1.await pfd stable) s.filterZoms.2 := by
  obtain ⟨waitFlag, realMaxfd, loop, -, he⟩ := await_frame s.filterZoms.1 pfd stable
  rw [he]
  refine ⟨moveList_sublist .., fun dd hd => ?_, fun dd hd => ?_⟩
  · have hm := (StdQueue.members_move s.intervalObjs (filterZom2 s.zom)).1.mem_iff.mp hd
    refine (List.mem_append.mp hm).imp id fun h => .inr ?_
    rw [filterZoms, map_data fun _ => rfl]
    exact List.mem_append_right _ h
  · rw [hl] at hd
    cases hd

omit [DecidableEq ω] in
/-- What `loop` takes out: what is reported, and what is due. -/
theorem take_result (s : FwIo ω) (r w e : List Int) (now : Int) : ∃ ready,
    (s.take r w e now).loop.result = ready ++ s.intervalObjs.members.takeWhile (·.data ≤ now) ∧
      (∀ dd ∈ ready, dd ∈ s.readObjs.members ∨ dd ∈ s.writeObjs.members) ∧
      (s.take r w e now).intervalObjs.list =
        s.intervalObjs.list.dropWhile fun el => el.2.data ≤ now := by
  have hp : ∀ (fds fdexp : List Int) (l : List (IoData ω)) (target : List Int),
      (pick fds fdexp l target).2 ⊆ l := by
    intro fds fdexp l
    induction l with
    | nil => exact fun _ => List.Subset.refl _
    | cons x rest ih =>
      intro target
      unfold pick
      split
      · exact fun dd hd => List.mem_cons_of_mem x (ih target hd)
      · split
        · exact fun dd hd => List.mem_cons_of_mem x (ih target hd)
        · exact List.cons_subset_cons x (ih _)
  unfold take takeReady
  dsimp only
  split
  · refine ⟨_, rfl, fun dd hd => ?_, rfl⟩
    exact (List.mem_append.mp hd).imp (fun h => hp _ _ _ _ h) fun h => hp _ _ _ _ h
  · exact ⟨[], rfl, fun dd hd => absurd hd List.not_mem_nil, rfl⟩

omit [DecidableEq ω] in
/-- The critical section after `select`. -/
theorem take_kept {r w e : List Int} {now : Int} (hl : s.loop.result = []) :
    Kept s (s.take r w e now) [] := by
  obtain ⟨ready, hr, -, hq⟩ := take_result s r w e now
  refine ⟨hq ▸ List.dropWhile_sublist _, fun dd hd => ?_, fun dd hd => ?_⟩
  · have hm : (s.take r w e now).intervalObjs.members =
        s.intervalObjs.members.dropWhile fun dd => dd.data ≤ now := by
      rw [StdQueue.members, hq, StdQueue.members, List.dropWhile_map]
      rfl
    rw [← List.takeWhile_append_dropWhile (p := fun dd => decide (dd.data ≤ now))
      (l := s.intervalObjs.members)] at hd
    rcases List.mem_append.mp hd with hd | hd
    · exact .inr (.inl (hr ▸ List.mem_append_right ready hd))
    · exact .inl (hm ▸ hd)
  · rw [hl] at hd
    cases hd

/-- Every step but `wait`. -/
theorem step_kept {pfd : Int} {a : FwIoAct ω} (hs : s.step pfd a = some (t, os))
    (hw : ∀ obj tm now type, a ≠ .wait obj tm now type) : Kept s t os := by
  cases a with
  | read obj fd opt =>
    obtain ⟨u, hu, he⟩ := Option.map_eq_some_iff.mp hs
    obtain ⟨-, hu⟩ := Option.ite_none_left_eq_some.mp hu
    cases hu
    cases he
    exact Kept.writePipe (.still rfl rfl)
  | write obj fd opt =>
    obtain ⟨u, hu, he⟩ := Option.map_eq_some_iff.mp hs
    obtain ⟨-, hu⟩ := Option.ite_none_left_eq_some.mp hu
    cases hu
    cases he
    exact Kept.writePipe (.still rfl rfl)
  | wait obj tm now type => exact absurd rfl (hw obj tm now type)
  | detach obj read write interval =>
    cases hs
    exact detach_kept obj read write interval
  | delRefio =>
    cases hs
    exact Kept.writePipe (.still rfl rfl)
  | abort _ | addRefio | announce _ | getSeq | becomeZom _ =>
    cases hs
    exact .still rfl rfl
  | aborting i =>
    obtain ⟨c, -, he⟩ := Option.map_eq_some_iff.mp hs
    have hk := aborting_kept (s := s) i c
    rw [he] at hk
    exact hk
  | loop =>
    obtain ⟨hl, he⟩ := Option.ite_none_right_eq_some.mp hs
    cases he
    exact .moves rfl (hl ▸ rfl)
  | prepare stable =>
    obtain ⟨hl, he⟩ := Option.ite_none_right_eq_some.mp hs
    cases he
    exact prepare_kept hl
  | select fdread fdwrite fdexp =>
    unfold step at hs
    dsimp only at hs
    split at hs
    · rename_i hl
      obtain ⟨-, he⟩ := Option.ite_none_right_eq_some.mp hs
      cases he
      exact .moves rfl (hl ▸ rfl)
    · cases hs
  | selectFail errno =>
    unfold step at hs
    dsimp only at hs
    split at hs
    · rename_i hl
      obtain ⟨u, hu, he⟩ := Option.map_eq_some_iff.mp hs
      cases he
      obtain ⟨loop, rfl, -⟩ := selectFail_frame hu
      exact .moves rfl (hl ▸ rfl)
    · cases hs
  | take now =>
    unfold step at hs
    dsimp only at hs
    split at hs
    · rename_i hl
      cases hs
      exact take_kept (hl ▸ rfl)
    · cases hs
  | dispatch =>
    unfold step at hs
    dsimp only at hs
    split at hs
    · rename_i hl
      cases hs
      exact .moves rfl (hl ▸ rfl)
    · rename_i ok result hl
      cases hs
      refine .same rfl fun dd hd => ?_
      rw [hl] at hd
      exact (List.mem_cons.mp hd).symm.imp id fun h => List.mem_singleton.mpr h
    · cases hs

-- ---------------------------------------------------------------------------
-- What is delivered
-- ---------------------------------------------------------------------------

/-- Only `take` puts anything into what the loop has to deliver. -/
theorem Signal.result {pfd : Int} {a : FwIoAct ω} (h : Signal pfd s a t)
    (ha : ∀ now, a ≠ .take now) : t.loop.result.Sublist s.loop.result := by
  have hnil {loop : LoopPhase ω} (hl : loop.result = []) :
      loop.result.Sublist s.loop.result := hl ▸ List.nil_sublist _
  cases h with
  | written _ _ loop | quiet _ _ _ loop =>
    rw [loop]
  | moves _ _ _ phase =>
    rcases phase with ⟨-, h | h⟩ | ⟨_, _, _, _, _, _, _, -, h⟩ | ⟨-, h⟩ | ⟨ok, _, h₁, h₂⟩
    · exact hnil (h ▸ rfl)
    · exact hnil (h ▸ rfl)
    · exact hnil (h ▸ rfl)
    · exact hnil (h ▸ rfl)
    · rw [h₁, h₂]
      exact List.sublist_cons_self ok _
  | fails _ _ _ phase =>
    obtain ⟨_, _, _, _, -, h | h⟩ := phase <;> exact hnil (h ▸ rfl)
  | begins _ _ _ phase | collects _ _ _ phase => exact hnil (phase.2 ▸ rfl)
  | waits _ _ _ phase _ =>
    obtain ⟨-, _, _, _, _, h, -⟩ := phase
    exact hnil (h ▸ rfl)
  | drains _ _ _ _ act => exact absurd act.choose_spec (ha _)

theorem dispatch_result {pfd : Int} (hs : s.step pfd .dispatch = some (t, os)) :
    s.loop.result = os.map IoOutcome.data ++ t.loop.result := by
  unfold step at hs
  dsimp only at hs
  split at hs
  · rename_i hl
    cases hs
    rw [hl]
    rfl
  · rename_i hl
    cases hs
    rw [hl]
    rfl
  · cases hs

/-- What is delivered had been taken out. -/
theorem step_event {pfd : Int} {a : FwIoAct ω} {ev : IoEvent ω}
    (hs : s.step pfd a = some (t, os)) (he : .event dd ev ∈ os) :
    dd ∈ s.loop.result ∨ dd ∈ s.aborts.flatMap fun c => c.ret.toList := by
  have hnil {o : Option (FwIo ω)} (h : o.map (fun s => (s, [])) = some (t, os)) : os = [] := by
    obtain ⟨_, -, hu⟩ := Option.map_eq_some_iff.mp h
    exact (congrArg Prod.snd hu).symm
  cases a with
  | read _ _ _ | write _ _ _ =>
    rw [hnil hs] at he
    cases he
  | selectFail errno =>
    unfold step at hs
    dsimp only at hs
    split at hs
    · rw [hnil hs] at he
      cases he
    · cases hs
  | wait _ _ _ _ | abort _ | addRefio | delRefio | announce _ | getSeq | becomeZom _ =>
    cases hs
    cases he
  | detach _ _ _ _ =>
    cases hs
    obtain ⟨_, -, h⟩ := List.mem_map.mp he
    cases h
  | loop =>
    obtain ⟨-, h⟩ := Option.ite_none_right_eq_some.mp hs
    cases h
    cases he
  | prepare _ =>
    obtain ⟨-, h⟩ := Option.ite_none_right_eq_some.mp hs
    cases h
    obtain ⟨_, -, h⟩ := List.mem_map.mp he
    cases h
  | select _ _ _ =>
    unfold step at hs
    dsimp only at hs
    split at hs
    · obtain ⟨-, h⟩ := Option.ite_none_right_eq_some.mp hs
      cases h
      cases he
    · cases hs
  | take _ =>
    unfold step at hs
    dsimp only at hs
    split at hs
    · cases hs
      cases he
    · cases hs
  | dispatch =>
    rw [dispatch_result hs]
    exact .inl (List.mem_append_left _ (List.mem_map_of_mem (f := IoOutcome.data) he))
  | aborting i =>
    obtain ⟨c, hc, h⟩ := Option.map_eq_some_iff.mp hs
    unfold aborting at h
    split at h
    · rename_i x hr
      cases h
      cases List.mem_singleton.mp he
      exact .inr (List.mem_flatMap.mpr ⟨c, List.mem_of_getElem? hc, by rw [hr]; simp⟩)
    · split at h <;> split at h <;> cases h <;> cases he

-- ---------------------------------------------------------------------------
-- Nothing is delivered twice
-- ---------------------------------------------------------------------------

theorem pick_count (dd : IoData ω) (fds fdexp : List Int) (l : List (IoData ω)) (target : List Int) :
    (pick fds fdexp l target).1.count dd + (pick fds fdexp l target).2.count dd ≤ l.count dd := by
  induction l generalizing target with
  | nil => exact Nat.le_refl _
  | cons x rest ih =>
    have h₁ := ih target
    have h₂ := ih (x.data :: target)
    unfold pick
    split
    · simp only [List.count_cons]
      omega
    · split <;> simp only [List.count_cons] <;> omega

theorem takeReady_count (s : FwIo ω) (r w e : List Int) (dd : IoData ω) :
    (s.takeReady r w e).1.registered.count dd + (s.takeReady r w e).2.count dd ≤
      s.registered.count dd := by
  have h₁ := pick_count dd r e s.readObjs.members []
  have h₂ := pick_count dd w e s.writeObjs.members []
  unfold takeReady
  split
  · simp only [registered, members_queueOf, List.count_append]
    omega
  · simp

theorem take_count {r w e : List Int} (hl : s.loop.result = []) (now : Int) :
    (s.take r w e now).held.count dd ≤ s.held.count dd := by
  have h₁ := takeReady_count { s with
    waitFlag := true
    pipe := 0 } r w e dd
  have ha : (s.take r w e now).aborts = s.aborts := by
    unfold take takeReady
    dsimp only
    split <;> rfl
  rw [held, held, pending, pending, ha, hl]
  unfold take
  dsimp only
  generalize { s with
    waitFlag := true
    pipe := 0 }.takeReady r w e = u at h₁ ⊢
  have h₂ := (takeDue_perm (s := u.1) now).count_eq dd
  change _ ≤ s.registered.count dd at h₁
  simp only [registered, LoopPhase.result, List.count_append, List.count_nil] at h₁ h₂ ⊢
  omega

theorem Balanced.count (h : Balanced s t os) : ∃ new, t.made = s.made ++ new ∧
    new.map IoData.id = List.range' s.made.length new.length ∧
    ∀ dd, t.held.count dd + (os.map IoOutcome.data).count dd ≤ s.held.count dd + new.count dd := by
  obtain ⟨new, hm, hi, hp⟩ := h.balance
  refine ⟨new, hm, hi, fun dd => ?_⟩
  rw [← List.count_append, ← List.count_append]
  exact (hp.count_eq dd).ge

/-- Whatever is held or delivered after a step was held before, or is new. -/
theorem step_count {pfd : Int} {a : FwIoAct ω} (hs : s.step pfd a = some (t, os)) :
    ∃ new, t.made = s.made ++ new ∧ new.map IoData.id = List.range' s.made.length new.length ∧
      ∀ dd, t.held.count dd + (os.map IoOutcome.data).count dd ≤
        s.held.count dd + new.count dd := by
  cases a with
  | take now =>
    unfold step at hs
    dsimp only at hs
    split at hs
    · rename_i hl
      cases hs
      refine ⟨[], ?_, rfl, fun dd => take_count (hl ▸ rfl) now⟩
      unfold take takeReady
      dsimp only
      split <;> exact (List.append_nil _).symm
    · cases hs
  | read _ _ _ | write _ _ _ | wait _ _ _ _ | detach _ _ _ _ | abort _ | aborting _ | addRefio
  | delRefio | announce _ | getSeq | becomeZom _ | loop | prepare _ | select _ _ _ | selectFail _
  | dispatch => exact (step_balanced (by trivial) hs).count

variable {pfd : Int} {tr : List (IoOutcome ω)}

/-- In every run a registration is held once or has been delivered once, at most. -/
theorem held_count (h : (machine ω pfd).Run tr s) :
    s.made.map IoData.id = List.range s.made.length ∧
      ∀ dd, s.held.count dd + (tr.map IoOutcome.data).count dd ≤ s.made.count dd := by
  refine h.invariant (I := fun tr s => s.made.map IoData.id = List.range s.made.length ∧
    ∀ dd, s.held.count dd + (tr.map IoOutcome.data).count dd ≤ s.made.count dd) ?_ ?_
  · rintro _ rfl
    exact ⟨rfl, fun dd => Nat.le_refl _⟩
  · intro tr s a t os _ ⟨hn, hi⟩ _ hs
    obtain ⟨new, hm, hr, hc⟩ := step_count hs
    refine ⟨?_, fun dd => ?_⟩
    · rw [hm, List.map_append, hn, hr, List.length_append, List.range_eq_range',
        List.range_eq_range']
      simpa using @List.range'_append 0 s.made.length new.length 1
    · have h₁ := hi dd
      have h₂ := hc dd
      rw [hm, List.map_append, List.count_append, List.count_append]
      omega

/-- Who has been registered is in one place at most. -/
theorem held_once (h : (machine ω pfd).Run tr s) (dd : IoData ω) :
    s.held.count dd + (tr.map IoOutcome.data).count dd ≤ 1 := by
  obtain ⟨hn, hc⟩ := held_count h
  have hd : (s.made.map IoData.id).Nodup := hn ▸ List.nodup_range
  exact (hc dd).trans (List.nodup_iff_count_le_one.mp hd.of_map dd)

end

end FwIo

namespace TimedIo

variable {ω : Type} [DecidableEq ω]

open FwIo

/-- `wait` and `take` read the clock, and `select` returns after it has been called. -/
def Timely (s : TimedIo ω) : FwIoAct ω → Prop
  | .wait _ _ now _ | .take now => now = s.clock
  | .select .. | .selectFail _ => s.limit.isSome = true
  | _ => True

instance (s : TimedIo ω) (a : FwIoAct ω) : Decidable (s.Timely a) :=
  match a with
  | .wait _ _ now _ | .take now => inferInstanceAs (Decidable (now = s.clock))
  | .select .. | .selectFail _ => inferInstanceAs (Decidable (s.limit.isSome = true))
  | .read .. | .write .. | .detach .. | .abort _ | .aborting _ | .addRefio | .delRefio
  | .announce _ | .getSeq | .becomeZom _ | .loop | .prepare _ | .dispatch =>
    .isTrue trivial

def after (s : TimedIo ω) (a : FwIoAct ω) (io : FwIo ω) (os : List (IoOutcome ω)) : TimedIo ω :=
  match a with
  | .wait obj tm now type => { s with
      io := io
      timers := s.timers ++ [⟨s.io.newData type obj (int64 (now + tm)) 0, now + tm⟩] }
  | .prepare _ => { s with
      io := io
      ptr := getIntervalMinimal none io.intervalObjs.members
      limit := none }
  | .take _ => { s with
      io := io
      turn := [] }
  | .dispatch => { s with
      io := io
      turn := s.turn ++ os.map IoOutcome.data }
  | _ => { s with io := io }

def step (pfd : Int) (s : TimedIo ω) : TimedAct ω → Option (TimedIo ω × List (IoOutcome ω))
  | .tick now => if s.clock ≤ now ∧ now ≤ maxInteger64 then some ({ s with clock := now }, []) else none
  | .call =>
    match s.io.loop with
    | .select .. =>
      if s.limit = none then some ({ s with
        limit := some (s.ptr.map (selectLimit s.clock))
        entered := s.clock }, [])
      else none
    | _ => none
  | .io a =>
    if s.Timely a then (s.io.step pfd a).map fun r => (s.after a r.1 r.2, r.2) else none

def initial (ω : Type) : TimedIo ω where
  io := FwIo.initial ω
  clock := 0
  ptr := none
  limit := none
  entered := 0
  timers := []
  turn := []

def machine (ω : Type) [DecidableEq ω] (pfd : Int) :
    Machine (TimedIo ω) (TimedAct ω) (IoOutcome ω) where
  init s := s = initial ω
  step := step pfd

/-- Durations that `INTEGER64` can add to the time. -/
def InRange (_ : TimedIo ω) : TimedAct ω → Prop
  | .io (.wait _ tm now _) => 0 ≤ tm ∧ now + tm ≤ maxInteger64
  | _ => True

instance (s : TimedIo ω) (a : TimedAct ω) : Decidable (s.InRange a) :=
  match a with
  | .io (.wait _ tm now _) => inferInstanceAs (Decidable (0 ≤ tm ∧ now + tm ≤ maxInteger64))
  | .tick _ | .call | .io (.read ..) | .io (.write ..) | .io (.detach ..) | .io (.abort _)
  | .io (.aborting _) | .io .addRefio | .io .delRefio | .io (.announce _) | .io .getSeq
  | .io (.becomeZom _) | .io .loop | .io (.prepare _) | .io (.select ..) | .io (.selectFail _)
  | .io (.take _) | .io .dispatch => isTrue trivial

/-- What `wait` has registered. -/
def waited (s : TimedIo ω) : List (IoData ω) := s.timers.map Timer.dd

variable {s t : TimedIo ω} {tr os : List (IoOutcome ω)} {pfd : Int} {dd : IoData ω}
  {C : TimedIo ω → TimedAct ω → Prop}

omit [DecidableEq ω] in
theorem after_io (s : TimedIo ω) (a : FwIoAct ω) (io : FwIo ω) (os : List (IoOutcome ω)) :
    (s.after a io os).io = io ∧ (s.after a io os).clock = s.clock ∧
      (s.after a io os).entered = s.entered := by
  unfold after
  split <;> exact ⟨rfl, rfl, rfl⟩

theorem step_io {a : FwIoAct ω} (hs : s.step pfd (.io a) = some (t, os)) :
    s.Timely a ∧ ∃ io, s.io.step pfd a = some (io, os) ∧ t = s.after a io os := by
  obtain ⟨ht, hs⟩ := Option.ite_none_right_eq_some.mp hs
  obtain ⟨⟨io, o⟩, hu, he⟩ := Option.map_eq_some_iff.mp hs
  cases he
  exact ⟨ht, io, hu, rfl⟩

/-- `tick` and `call` leave `fwIO` alone. -/
theorem step_time {a : TimedAct ω} (hs : s.step pfd a = some (t, os)) :
    (∃ act, a = .io act) ∨ os = [] ∧ t.io = s.io ∧ t.timers = s.timers ∧ t.turn = s.turn ∧
      t.ptr = s.ptr ∧ s.clock ≤ t.clock := by
  cases a with
  | tick now =>
    obtain ⟨hn, he⟩ := Option.ite_none_right_eq_some.mp hs
    cases he
    exact .inr ⟨rfl, rfl, rfl, rfl, rfl, hn.1⟩
  | call =>
    unfold step at hs
    dsimp only at hs
    split at hs
    · obtain ⟨-, he⟩ := Option.ite_none_right_eq_some.mp hs
      cases he
      exact .inr ⟨rfl, rfl, rfl, rfl, rfl, Int.le_refl _⟩
    · cases hs
  | io a => exact .inl ⟨a, rfl⟩

/-- A run under the clock is a run of `fwIO`. -/
theorem run_io (h : (machine ω pfd).RunIf C tr s) : (FwIo.machine ω pfd).Run tr s.io := by
  have hr := h.simulate (N := FwIo.machine ω pfd) TimedIo.io some
    (fun s hi => by
      obtain rfl : s = initial ω := hi
      exact rfl) ?_
  · rwa [List.filterMap_some] at hr
  intro tr s a t os _ _ _ hs
  rw [List.filterMap_some]
  rcases step_time hs with ⟨a, rfl⟩ | ⟨ho, hi, -⟩
  · obtain ⟨-, io, hu, rfl⟩ := step_io hs
    exact .inr ⟨a, hu.trans (by rw [(after_io ..).1])⟩
  · exact .inl ⟨hi, ho⟩

-- ---------------------------------------------------------------------------
-- Where the registrations are
-- ---------------------------------------------------------------------------

/-- What has been registered by `wait` is in the queue, or taken out by the loop, or
something has become of it. -/
structure Places (tr : List (IoOutcome ω)) (s : TimedIo ω) : Prop where
  made : ∀ dd ∈ s.waited, dd ∈ s.io.made
  place : ∀ dd ∈ s.waited, dd ∈ s.io.intervalObjs.members ∨ dd ∈ s.io.loop.result ∨
    dd ∈ tr.map IoOutcome.data
  known : ∀ dd ∈ s.io.intervalObjs.members, dd ∈ s.waited
  sorted : Sorted s.io.intervalObjs

omit [DecidableEq ω] in
/-- The registrations change by `wait` alone. -/
theorem after_timers (s : TimedIo ω) (a : FwIoAct ω) (io : FwIo ω) (os : List (IoOutcome ω))
    (ha : ∀ obj tm now type, a ≠ .wait obj tm now type) :
    (s.after a io os).timers = s.timers := by
  unfold after
  split
  · exact absurd rfl (ha _ _ _ _)
  all_goals rfl

omit [DecidableEq ω] in
theorem wait_io (s : FwIo ω) (obj : ω) (tm now : Int) (type : EventType) :
    (s.wait obj tm now type).intervalObjs = s.intervalObjs.ins (int64 (now + tm))
        (s.newData type obj (int64 (now + tm)) 0) ∧
      (s.wait obj tm now type).loop = s.loop ∧
      (s.wait obj tm now type).made = s.made ++ [s.newData type obj (int64 (now + tm)) 0] := by
  unfold FwIo.wait FwIo.writePipe
  dsimp only
  split <;> exact ⟨rfl, rfl, rfl⟩

omit [DecidableEq ω] in
theorem Places.wait (h : Places tr s) (obj : ω) (tm now : Int) (type : EventType) :
    Places tr (s.after (.wait obj tm now type) (s.io.wait obj tm now type) []) := by
  obtain ⟨hi, hl, hm⟩ := wait_io s.io obj tm now type
  have hw : (s.after (.wait obj tm now type) (s.io.wait obj tm now type) []).waited =
      s.waited ++ [s.io.newData type obj (int64 (now + tm)) 0] := by
    simp [waited, after]
  have hq : ∀ dd, dd ∈ (s.io.wait obj tm now type).intervalObjs.members ↔
      dd = s.io.newData type obj (int64 (now + tm)) 0 ∨ dd ∈ s.io.intervalObjs.members := by
    intro dd
    rw [hi]
    exact (StdQueue.members_ins ..).mem_iff.trans List.mem_cons
  refine ⟨fun dd hd => ?_, fun dd hd => ?_, fun dd hd => ?_, ?_⟩
  · rw [hw] at hd
    exact hm ▸ List.mem_append.mpr ((List.mem_append.mp hd).imp (h.made dd) id)
  · rw [hw] at hd
    change dd ∈ (s.io.wait obj tm now type).intervalObjs.members ∨
      dd ∈ (s.io.wait obj tm now type).loop.result ∨ _
    rw [hq, hl]
    rcases List.mem_append.mp hd with hd | hd
    · exact (h.place dd hd).imp .inr id
    · exact .inl (.inl (List.mem_singleton.mp hd))
  · rw [hw]
    rcases (hq dd).mp hd with rfl | hd
    · exact List.mem_append_right _ (List.mem_singleton_self _)
    · exact List.mem_append_left _ (h.known dd hd)
  · change Sorted (s.io.wait obj tm now type).intervalObjs
    have hd : (s.io.newData type obj (int64 (now + tm)) 0).data ≤ maxInteger64 :=
      (int64_range (now + tm)).2
    rw [hi]
    exact h.sorted.ins hd

omit [DecidableEq ω] in
theorem Places.kept {io : FwIo ω} {made : List (IoData ω)} (h : Places tr s)
    (hk : Kept s.io io os) (hm : io.made = s.io.made ++ made) (ht : t.timers = s.timers)
    (hi : t.io = io) : Places (tr ++ os) t := by
  subst hi
  have hw : t.waited = s.waited := congrArg (List.map Timer.dd) ht
  refine ⟨fun dd hd => ?_, fun dd hd => ?_, fun dd hd => ?_, h.sorted.sublist hk.queue⟩
  · exact hm ▸ List.mem_append_left _ (h.made dd (hw ▸ hd))
  · rw [List.map_append, List.mem_append]
    rcases h.place dd (hw ▸ hd) with hp | hp | hp
    · exact (hk.interval dd hp).imp id fun h => h.imp id .inr
    · exact .inr ((hk.result dd hp).imp id .inr)
    · exact .inr (.inr (.inl hp))
  · exact hw ▸ h.known dd ((hk.queue.map Prod.snd).subset hd)

theorem places (h : (machine ω pfd).RunIf C tr s) : Places tr s := by
  refine h.invariant ?_ ?_
  · rintro _ rfl
    exact ⟨List.forall_mem_nil _, List.forall_mem_nil _, List.forall_mem_nil _,
      List.forall_mem_nil _, .nil⟩
  intro tr s a t os hr hi _ hs
  rcases step_time hs with ⟨a, rfl⟩ | ⟨rfl, ho, ht, -⟩
  · obtain ⟨-, io, hu, rfl⟩ := step_io hs
    by_cases hw : ∃ obj tm now type, a = .wait obj tm now type
    · obtain ⟨obj, tm, now, type, rfl⟩ := hw
      cases hu
      rw [List.append_nil]
      exact hi.wait obj tm now type
    · have hw : ∀ obj tm now type, a ≠ .wait obj tm now type :=
        fun obj tm now type he => hw ⟨obj, tm, now, type, he⟩
      obtain ⟨new, hm, -⟩ := step_count hu
      exact hi.kept (step_kept hu hw) hm (after_timers s a io os hw) (after_io ..).1
  · rw [List.append_nil]
    have hw : t.waited = s.waited := congrArg (List.map Timer.dd) ht
    exact ⟨ho ▸ hw ▸ hi.made, ho ▸ hw ▸ hi.place, ho ▸ hw ▸ hi.known, ho ▸ hi.sorted⟩

/-- In one place, and in that of no other registration. -/
theorem apart (h : (machine ω pfd).RunIf C tr s) (hd : dd ∈ s.waited) :
    dd ∉ s.io.readObjs.members ∧ dd ∉ s.io.writeObjs.members ∧
      dd ∉ s.io.aborts.flatMap fun c => c.ret.toList := by
  have ho := held_once (run_io h) dd
  simp only [held, pending, registered, List.count_append] at ho
  simp only [← List.count_pos_iff]
  rcases (places h).place dd hd with hp | hp | hp <;>
    have hc := List.count_pos_iff.mpr hp
  all_goals omega

/-- What is registered now is no one that has been registered. -/
theorem newData_fresh (h : (machine ω pfd).RunIf C tr s) (type : EventType) (obj : ω)
    (data opt : Int) : s.io.newData type obj data opt ∉ s.io.held ++ tr.map IoOutcome.data := by
  obtain ⟨hn, hc⟩ := held_count (run_io h)
  have hm : s.io.newData type obj data opt ∉ s.io.made := fun hm => by
    have hl := hn ▸ List.mem_map_of_mem (f := IoData.id) hm
    exact absurd (List.mem_range.mp hl) (Nat.lt_irrefl _)
  rw [← List.count_eq_zero, List.count_append]
  have hle := hc (s.io.newData type obj data opt)
  rw [List.count_eq_zero.mpr hm] at hle
  exact Nat.le_zero.mp hle

-- ---------------------------------------------------------------------------
-- When they fire
-- ---------------------------------------------------------------------------

/-- What fires is due, in the order of the deadlines. -/
structure Punctual (tr : List (IoOutcome ω)) (s : TimedIo ω) : Prop where
  due : ∀ dd ∈ s.waited, dd ∈ s.io.loop.result → dd.data ≤ s.clock
  fired : ∀ dd ∈ s.waited, ∀ ev, .event dd ev ∈ tr → dd.data ≤ s.clock
  turn : ∀ dd ∈ s.turn, dd ∈ tr.map IoOutcome.data
  order : (s.turn ++ s.io.loop.result).Pairwise
    fun x y => x ∈ s.waited → y ∈ s.waited → x.data ≤ y.data

theorem Punctual.wait (h : Punctual tr s) (hr : (machine ω pfd).RunIf C tr s) (obj : ω)
    (tm now : Int) (type : EventType) :
    Punctual tr (s.after (.wait obj tm now type) (s.io.wait obj tm now type) []) := by
  obtain ⟨-, hl, -⟩ := wait_io s.io obj tm now type
  have hw : (s.after (.wait obj tm now type) (s.io.wait obj tm now type) []).waited =
      s.waited ++ [s.io.newData type obj (int64 (now + tm)) 0] := by
    simp [waited, after]
  have hf := newData_fresh hr type obj (int64 (now + tm)) 0
  rw [List.mem_append, not_or] at hf
  have hold : ∀ dd, dd ∈ s.io.loop.result ∨ dd ∈ tr.map IoOutcome.data →
      dd ∈ s.waited ++ [s.io.newData type obj (int64 (now + tm)) 0] → dd ∈ s.waited := by
    intro dd hp hd
    refine (List.mem_append.mp hd).resolve_right fun he => ?_
    obtain rfl := List.mem_singleton.mp he
    refine hp.elim (fun hp => hf.1 ?_) hf.2
    exact List.mem_append_right _ (List.mem_append_left _ hp)
  refine ⟨fun dd hd hp => ?_, fun dd hd ev he => ?_, h.turn, ?_⟩
  · rw [hw] at hd
    change dd ∈ (s.io.wait obj tm now type).loop.result at hp
    rw [hl] at hp
    exact h.due dd (hold dd (.inl hp) hd) hp
  · rw [hw] at hd
    exact h.fired dd (hold dd (.inr (List.mem_map_of_mem (f := IoOutcome.data) he)) hd) ev he
  · rw [hw]
    change (s.turn ++ (s.io.wait obj tm now type).loop.result).Pairwise _
    rw [hl]
    have hm : ∀ dd ∈ s.turn ++ s.io.loop.result,
        dd ∈ s.io.loop.result ∨ dd ∈ tr.map IoOutcome.data := fun dd hd =>
      (List.mem_append.mp hd).symm.imp id (h.turn dd)
    exact h.order.imp_of_mem fun hx hy hxy h₁ h₂ =>
      hxy (hold _ (hm _ hx) h₁) (hold _ (hm _ hy) h₂)

theorem Punctual.take {now : Int} (h : Punctual tr s) (hr : (machine ω pfd).RunIf C tr s)
    {io : FwIo ω} (hs : s.io.step pfd (.take now) = some (io, os)) (hn : now = s.clock) :
    Punctual (tr ++ os) (s.after (.take now) io os) := by
  unfold FwIo.step at hs
  dsimp only at hs
  split at hs
  · rename_i r w e _
    cases hs
    obtain ⟨ready, ht, hm, -⟩ := take_result s.io r w e now
    have hready : ∀ dd ∈ ready, dd ∉ s.waited := fun dd hd hw => by
      obtain ⟨h₁, h₂, -⟩ := apart hr hw
      exact (hm dd hd).elim h₁ h₂
    rw [List.append_nil]
    refine ⟨fun dd hd hp => ?_, h.fired, fun dd hd => absurd hd List.not_mem_nil, ?_⟩
    · change dd ∈ (s.io.take r w e now).loop.result at hp
      rw [ht] at hp
      have hp := (List.mem_append.mp hp).resolve_left fun hp => hready dd hp hd
      exact hn ▸ of_decide_eq_true
        (List.mem_takeWhile_imp (p := fun dd : IoData ω => decide (dd.data ≤ now)) hp)
    · change ((s.io.take r w e now).loop.result).Pairwise _
      rw [ht]
      refine List.pairwise_append.mpr ⟨?_, ?_, fun x hx y _ h₁ => absurd h₁ (hready x hx)⟩
      · exact List.pairwise_of_forall_mem_list fun x hx y _ h₁ => absurd h₁ (hready x hx)
      · have hs := (places hr).sorted.members.sublist
          (List.takeWhile_sublist fun dd : IoData ω => decide (dd.data ≤ now))
        exact hs.imp fun hxy _ _ => hxy
  · cases hs

theorem Punctual.other {a : FwIoAct ω} {io : FwIo ω} (h : Punctual tr s)
    (hr : (machine ω pfd).RunIf C tr s) (hs : s.io.step pfd a = some (io, os))
    (hw : ∀ obj tm now type, a ≠ .wait obj tm now type) (ht : ∀ now, a ≠ .take now) :
    Punctual (tr ++ os) (s.after a io os) := by
  have hwt : (s.after a io os).waited = s.waited :=
    congrArg (List.map Timer.dd) (after_timers s a io os hw)
  obtain ⟨hio, hc, -⟩ := after_io s a io os
  have hsub : io.loop.result.Sublist s.io.loop.result := (step_signal hs).result ht
  have hturn : (∃ l, (s.after a io os).turn = s.turn ++ l ∧ l ⊆ os.map IoOutcome.data ∧
      (l ++ io.loop.result).Sublist s.io.loop.result) := by
    unfold after
    split
    · exact ⟨[], (List.append_nil _).symm, List.nil_subset _, hsub⟩
    · exact ⟨[], (List.append_nil _).symm, List.nil_subset _, hsub⟩
    · exact absurd rfl (ht _)
    · exact ⟨_, rfl, List.Subset.refl _, dispatch_result hs ▸ List.Sublist.refl _⟩
    · exact ⟨[], (List.append_nil _).symm, List.nil_subset _, hsub⟩
  obtain ⟨l, hl, hlo, hls⟩ := hturn
  refine ⟨?_, ?_, ?_, ?_⟩
  · rw [hwt, hio, hc]
    exact fun dd hd hp => h.due dd hd (hsub.subset hp)
  · rw [hwt, hc]
    intro dd hd ev he
    rcases List.mem_append.mp he with he | he
    · exact h.fired dd hd ev he
    · obtain ⟨-, -, ha⟩ := apart hr hd
      exact h.due dd hd ((step_event hs he).resolve_right ha)
  · rw [hl, List.map_append]
    exact fun dd hd => List.mem_append.mpr
      ((List.mem_append.mp hd).imp (h.turn dd) fun hd => hlo hd)
  · rw [hwt, hio, hl, List.append_assoc]
    exact h.order.sublist (hls.append_left s.turn)

theorem punctual (h : (machine ω pfd).RunIf C tr s) : Punctual tr s := by
  refine h.invariant ?_ ?_
  · rintro _ rfl
    exact ⟨List.forall_mem_nil _, List.forall_mem_nil _, List.forall_mem_nil _, .nil⟩
  intro tr s a t os hr hi _ hs
  rcases step_time hs with ⟨a, rfl⟩ | ⟨rfl, ho, ht, hu, -, hc⟩
  · obtain ⟨hn, io, hu, rfl⟩ := step_io hs
    cases a with
    | wait obj tm now type =>
      cases hu
      rw [List.append_nil]
      exact hi.wait hr obj tm now type
    | take now => exact hi.take hr hu hn
    | read _ _ _ | write _ _ _ | detach _ _ _ _ | abort _ | aborting _ | addRefio | delRefio
    | announce _ | getSeq | becomeZom _ | loop | prepare _ | select _ _ _ | selectFail _
    | dispatch => exact hi.other hr hu (fun _ _ _ _ => nofun) (fun _ => nofun)
  · have hw : t.waited = s.waited := congrArg (List.map Timer.dd) ht
    rw [List.append_nil]
    refine ⟨?_, ?_, ?_, ?_⟩
    · rw [hw, ho]
      exact fun dd hd hp => (hi.due dd hd hp).trans hc
    · rw [hw]
      exact fun dd hd ev he => (hi.fired dd hd ev he).trans hc
    · rw [hu]
      exact hi.turn
    · rw [hw, ho, hu]
      exact hi.order

-- ---------------------------------------------------------------------------
-- The time limit
-- ---------------------------------------------------------------------------

/-- Nothing is out of the range of `INTEGER64`. -/
structure Ranges (s : TimedIo ω) : Prop where
  clock : s.clock ≤ maxInteger64
  entered : 0 ≤ s.entered ∧ s.entered ≤ s.clock
  timers : ∀ x ∈ s.timers, x.dd.data = x.deadline ∧ 0 ≤ x.deadline ∧ x.deadline ≤ maxInteger64

/-- `select` is given what remains until `ptr`, and that is the earliest as long as
nobody has written into the pipe. -/
structure Limited (s : TimedIo ω) : Prop where
  limit : ∀ l, s.limit = some l → l = s.ptr.map (selectLimit s.entered)
  ptr : ∀ r w e intr, s.io.loop = .select r w e intr → s.io.waitFlag = false →
    s.ptr = getIntervalMinimal none s.io.intervalObjs.members

theorem ranges (h : (machine ω pfd).RunIf InRange tr s) : s.Ranges := by
  refine h.stateInvariant (I := Ranges) ?_ ?_
  · rintro _ rfl
    exact ⟨show (0 : Int) ≤ maxInteger64 by decide, ⟨Int.le_refl 0, Int.le_refl 0⟩,
      List.forall_mem_nil _⟩
  intro s a t os hi hc hs
  cases a with
  | tick now =>
    obtain ⟨hn, he⟩ := Option.ite_none_right_eq_some.mp hs
    cases he
    exact ⟨hn.2, ⟨hi.entered.1, hi.entered.2.trans hn.1⟩, hi.timers⟩
  | call =>
    unfold machine step at hs
    dsimp only at hs
    split at hs
    · obtain ⟨-, he⟩ := Option.ite_none_right_eq_some.mp hs
      cases he
      exact ⟨hi.clock, ⟨hi.entered.1.trans hi.entered.2, Int.le_refl _⟩, hi.timers⟩
    · cases hs
  | io a =>
    obtain ⟨hn, io, hu, rfl⟩ := step_io hs
    obtain ⟨-, h₁, h₂⟩ := after_io s a io os
    refine ⟨h₁ ▸ hi.clock, h₁ ▸ h₂ ▸ hi.entered, ?_⟩
    by_cases hw : ∃ obj tm now type, a = .wait obj tm now type
    · obtain ⟨obj, tm, now, type, rfl⟩ := hw
      obtain rfl : now = s.clock := hn
      obtain ⟨h0, hm⟩ : 0 ≤ tm ∧ s.clock + tm ≤ maxInteger64 := hc
      have hp : 0 ≤ s.clock + tm := Int.add_nonneg (hi.entered.1.trans hi.entered.2) h0
      intro x hx
      rcases List.mem_append.mp hx with hx | hx
      · exact hi.timers x hx
      · obtain rfl := List.mem_singleton.mp hx
        exact ⟨int64_of_range (Int.le_trans (by decide) hp) hm, hp, hm⟩
    · have hw : ∀ obj tm now type, a ≠ .wait obj tm now type :=
        fun obj tm now type he => hw ⟨obj, tm, now, type, he⟩
      rw [after_timers s a io os hw]
      exact hi.timers

omit [DecidableEq ω] in
theorem after_ptr (s : TimedIo ω) (a : FwIoAct ω) (io : FwIo ω) (os : List (IoOutcome ω)) :
    (s.after a io os).ptr = s.ptr ∧ (s.after a io os).limit = s.limit ∧
        (∀ stable, a ≠ .prepare stable) ∨
      (s.after a io os).ptr = getIntervalMinimal none io.intervalObjs.members ∧
        (s.after a io os).limit = none := by
  cases a <;> first | exact .inr ⟨rfl, rfl⟩ | exact .inl ⟨rfl, rfl, nofun⟩

theorem limited (h : (machine ω pfd).RunIf C tr s) : s.Limited := by
  refine h.stateInvariant (I := Limited) ?_ ?_
  · rintro _ rfl
    exact ⟨nofun, nofun⟩
  intro s a t os hi _ hs
  cases a with
  | tick now =>
    obtain ⟨-, he⟩ := Option.ite_none_right_eq_some.mp hs
    cases he
    exact ⟨hi.limit, hi.ptr⟩
  | call =>
    unfold machine step at hs
    dsimp only at hs
    split at hs
    · obtain ⟨-, he⟩ := Option.ite_none_right_eq_some.mp hs
      cases he
      exact ⟨fun l hl => (Option.some.inj hl).symm, hi.ptr⟩
    · cases hs
  | io a =>
    obtain ⟨-, io, hu, rfl⟩ := step_io hs
    obtain ⟨hio, -, he⟩ := after_io s a io os
    rcases after_ptr s a io os with ⟨hp, hl, ha⟩ | ⟨hp, hl⟩
    · refine ⟨by rw [hp, hl, he]; exact hi.limit, fun r w e intr hsel hf => ?_⟩
      rw [hio] at hsel hf
      rw [hp, hio]
      cases step_signal hu with
      | written flag _ _ => exact absurd (flag.symm.trans hf) Bool.noConfusion
      | quiet _ flag _ loop _ _ interval =>
        rw [interval]
        exact hi.ptr r w e intr (loop ▸ hsel) (flag ▸ hf)
      | moves _ _ _ phase =>
        rcases phase with ⟨-, h | h⟩ | ⟨_, _, _, _, _, _, _, -, h⟩ | ⟨-, h⟩ | ⟨_, _, -, h⟩ <;>
          cases hsel.symm.trans h
      | fails _ _ _ phase _ =>
        obtain ⟨_, _, _, _, -, h | h⟩ := phase <;> cases hsel.symm.trans h
      | begins _ _ _ phase | collects _ _ _ phase _ => cases hsel.symm.trans phase.2
      | waits _ _ _ _ act => exact absurd act.choose_spec (ha _)
      | drains _ _ _ phase _ =>
        obtain ⟨_, h⟩ := phase
        cases hsel.symm.trans h
    · refine ⟨fun l h => absurd (hl.symm.trans h) nofun, fun _ _ _ _ _ _ => ?_⟩
      rw [hp, hio]

omit [DecidableEq ω] in
/-- What remains until the earliest deadline, where nothing is out of range. -/
theorem selectLimit_le {p : IoData ω} {n d : Int} (hn : 0 ≤ n ∧ n ≤ maxInteger64)
    (hp : 0 ≤ p.data ∧ p.data ≤ maxInteger64) (hd : p.data ≤ d) :
    selectLimit n p ≤ max 0 (d - n) := by
  unfold selectLimit
  rw [int64_of_range (by unfold maxInteger64 at hn; omega) (by omega)]
  dsimp only
  split <;> omega

-- ---------------------------------------------------------------------------
-- The law
-- ---------------------------------------------------------------------------

/-- What holds of the timers wherever a run goes. -/
structure OnTime (tr : List (IoOutcome ω)) (s : TimedIo ω) : Prop where
  /-- A registration is kept until something becomes of it. -/
  kept : ∀ x ∈ s.timers, x.dd ∈ s.io.intervalObjs.members ∨ x.dd ∈ s.io.loop.result ↔
    x.dd ∉ tr.map IoOutcome.data
  once : (tr.map IoOutcome.data).Nodup
  sound : ∀ o ∈ tr, o.Sound s.io.zom
  punctual : ∀ x ∈ s.timers, ∀ ev, .event x.dd ev ∈ tr → x.deadline ≤ s.clock
  /-- What has been delivered in this turn, and what is still to be delivered. -/
  order : (s.turn ++ s.io.loop.result).Pairwise fun a b => ∀ x ∈ s.timers, ∀ y ∈ s.timers,
    x.dd = a → y.dd = b → x.deadline ≤ y.deadline
  limit : ∀ r w e intr l, s.io.loop = .select r w e intr → s.limit = some l →
    ∀ x ∈ s.timers, x.dd ∈ s.io.intervalObjs.members →
      (∃ n, l = some n ∧ n ≤ max 0 (x.deadline - s.entered)) ∨ 0 < s.io.pipe

omit [DecidableEq ω] in
theorem mem_waited {x : Timer ω} (hx : x ∈ s.timers) : x.dd ∈ s.waited := List.mem_map_of_mem hx

theorem onTime (h : (machine ω pfd).RunIf InRange tr s) : OnTime tr s := by
  have hr := ranges h
  have hp := punctual h
  refine ⟨fun x hx => ?_, ?_, sound (run_io h), fun x hx ev he => ?_, ?_, ?_⟩
  · have ho := held_once (run_io h) x.dd
    have hpl := (places h).place x.dd (mem_waited hx)
    simp only [held, pending, registered, List.count_append] at ho
    rw [← or_assoc] at hpl
    refine ⟨fun hq ht => ?_, fun ht => hpl.resolve_right ht⟩
    have h₁ := List.count_pos_iff.mpr ht
    rcases hq with hq | hq <;> have h₂ := List.count_pos_iff.mpr hq
    all_goals omega
  · refine List.nodup_iff_count_le_one.mpr fun dd => ?_
    exact (Nat.le_add_left ..).trans (held_once (run_io h) dd)
  · rw [← (hr.timers x hx).1]
    exact hp.fired x.dd (mem_waited hx) ev he
  · refine hp.order.imp fun hab x hx y hy hxa hyb => ?_
    subst hxa hyb
    rw [← (hr.timers x hx).1, ← (hr.timers y hy).1]
    exact hab (mem_waited hx) (mem_waited hy)
  · intro r w e intr l hl hlim x hx hq
    obtain ⟨-, hw, -⟩ := attends (run_io h) r w e intr hl
    cases hf : s.io.waitFlag with
    | true => exact .inr (hw hf)
    | false =>
      obtain ⟨p, hpm, hm, hle⟩ := getIntervalMinimal_le (places h).sorted.members hq
      have hptr := ((limited h).ptr r w e intr hl hf).trans hm
      obtain ⟨y, hy, rfl⟩ := List.mem_map.mp ((places h).known p hpm)
      obtain ⟨he, h₀, h₁⟩ := hr.timers y hy
      refine .inl ⟨selectLimit s.entered y.dd, ?_, ?_⟩
      · rw [(limited h).limit l hlim, hptr]
        rfl
      · rw [← (hr.timers x hx).1]
        exact selectLimit_le ⟨hr.entered.1, hr.entered.2.trans hr.clock⟩ (he ▸ ⟨h₀, h₁⟩) hle

/-- What is due does not stay in the queue. -/
theorem take_due {now : Int} (h : (machine ω pfd).RunIf C tr s)
    (hs : s.step pfd (.io (.take now)) = some (t, os)) (hd : dd ∈ t.io.intervalObjs.members) :
    s.clock < dd.data := by
  obtain ⟨hn, io, hu, rfl⟩ := step_io hs
  obtain rfl : now = s.clock := hn
  rw [(after_io ..).1] at hd
  unfold FwIo.step at hu
  dsimp only at hu
  split at hu
  · rename_i r w e _
    cases hu
    obtain ⟨-, -, -, hq⟩ := take_result s.io r w e s.clock
    change dd ∈ (s.io.take r w e s.clock).intervalObjs.list.map Prod.snd at hd
    rw [hq] at hd
    obtain ⟨el, hel, rfl⟩ := List.mem_map.mp hd
    exact (places h).sorted.dropWhile hel
  · cases hu

theorem step_waited {a : TimedAct ω} (hs : s.step pfd a = some (t, os)) (hd : dd ∈ s.waited) :
    dd ∈ t.waited := by
  rcases step_time hs with ⟨a, rfl⟩ | ⟨-, -, ht, -⟩
  · obtain ⟨-, io, -, rfl⟩ := step_io hs
    by_cases hw : ∃ obj tm now type, a = .wait obj tm now type
    · obtain ⟨obj, tm, now, type, rfl⟩ := hw
      simp only [waited, after, List.map_append]
      exact List.mem_append_left _ hd
    · rw [waited, after_timers s a io os fun obj tm now type he => hw ⟨obj, tm, now, type, he⟩]
      exact hd
  · rw [waited, ht]
    exact hd

/-- What the loop has taken out it delivers. -/
theorem step_result {a : TimedAct ω} (hs : s.step pfd a = some (t, os))
    (hd : dd ∈ s.io.loop.result) : dd ∈ t.io.loop.result ∨ dd ∈ os.map IoOutcome.data := by
  rcases step_time hs with ⟨a, rfl⟩ | ⟨-, ho, -⟩
  · obtain ⟨-, io, hu, rfl⟩ := step_io hs
    rw [(after_io ..).1]
    by_cases hw : ∃ obj tm now type, a = .wait obj tm now type
    · obtain ⟨obj, tm, now, type, rfl⟩ := hw
      cases hu
      rw [(wait_io ..).2.1]
      exact .inl hd
    · exact (step_kept hu fun obj tm now type he => hw ⟨obj, tm, now, type, he⟩).result dd hd
  · exact .inl (ho ▸ hd)

/-- A loop that comes round at the deadline, and once more, delivers. -/
theorem fires (b : (machine ω pfd).Behavior) {n : Nat} {x : Timer ω}
    (hx : x.dd ∈ (b.state n).waited)
    (ht : ∀ k, ∃ m ≥ k, x.dd.data ≤ (b.state m).clock ∧ ∃ now, b.act m = .io (.take now)) :
    ∃ m, x.dd ∈ (b.trace m).map IoOutcome.data := by
  have hw : ∀ m, n ≤ m → x.dd ∈ (b.state m).waited := by
    intro m hm
    induction m, hm using Nat.le_induction with
    | base => exact hx
    | succ m _ ih => exact step_waited (b.next m) ih
  obtain ⟨m, hm, hc, now, ha⟩ := ht n
  have hs := b.next m
  rw [ha] at hs
  have hout : x.dd ∉ (b.state (m + 1)).io.intervalObjs.members := fun hq =>
    Int.not_lt.mpr hc (take_due (b.run m) hs hq)
  -- From then on it is on the way, or delivered.
  have hgone : ∀ k, m + 1 ≤ k → x.dd ∈ (b.state k).io.loop.result ∨
      x.dd ∈ (b.trace k).map IoOutcome.data := by
    intro k hk
    induction k, hk using Nat.le_induction with
    | base =>
      exact ((places (b.run (m + 1))).place x.dd (hw (m + 1) (Nat.le_succ_of_le hm))).resolve_left
        hout
    | succ k _ ih =>
      simp only [Machine.Behavior.trace, List.map_append, List.mem_append]
      rcases ih with hr | hr
      · exact (step_result (b.next k) hr).imp id .inr
      · exact .inr (.inl hr)
  obtain ⟨k, hk, -, now', ha'⟩ := ht (m + 1)
  refine ⟨k, (hgone k hk).resolve_left fun hr => ?_⟩
  have hs' := b.next k
  rw [ha'] at hs'
  obtain ⟨-, io, hu, -⟩ := step_io hs'
  unfold FwIo.step at hu
  dsimp only at hu
  split at hu
  · rename_i hl
    rw [hl] at hr
    cases hr
  · cases hu

end TimedIo

end TinyState
