import TinyState.Io.Model

/-!
# The self-pipe

While `loop` is in `select`, the pipe is readable as soon as something is registered
that `select` has not been told of. The bytes in the pipe are bounded by two as long
as the loop does not go back to its top, or waits for the collector, with a byte in it.
-/

namespace TinyState

open Transition

/-- Who calls `read`, `write` or `wait`. -/
def FwIoAct.Registers {ω : Type} : FwIoAct ω → Prop
  | read .. | write .. | wait .. => True
  | detach .. | abort _ | aborting _ | addRefio | delRefio | announce _ | getSeq | becomeZom _
  | loop | prepare _ | select .. | selectFail _ | take _ | dispatch => False

namespace FwIo

variable {ω : Type}

/-- Every registration is in the sets that `select` is given, or has a time limit there. -/
structure Covered (s : FwIo ω) (r w e : List Int) (intr : Bool) : Prop where
  read : ∀ dd ∈ s.readObjs.members, dd.data ∈ e ∧ (dd.opt ≠ fwioOptOnlyExp → dd.data ∈ r)
  write : ∀ dd ∈ s.writeObjs.members, dd.data ∈ e ∧ (dd.opt ≠ fwioOptOnlyExp → dd.data ∈ w)
  interval : s.intervalObjs.members ≠ [] → intr = true

/-- Nothing is registered, and no reference is held: the loop ends, or waits for the
collector. -/
def Collects (s : FwIo ω) : Prop :=
  s.readObjs.members.length + s.writeObjs.members.length ≠ s.announceMaxfd ∧
    maxfd (maxfd 0 s.readObjs) s.writeObjs = 0 ∧
    getIntervalMinimal none s.intervalObjs.members = none ∧ s.refio = 0

instance [DecidableEq ω] (s : FwIo ω) : Decidable s.Collects := inferInstanceAs (Decidable (_ ∧ _))

/-- With a byte in the pipe the loop neither waits for the collector nor has `select` fail. -/
def Drained [DecidableEq ω] (s : FwIo ω) : FwIoAct ω → Prop
  | .prepare stable => stable = false → s.filterZoms.1.Collects → s.pipe = 0
  | .selectFail _ => s.pipe = 0
  | _ => True

instance [DecidableEq ω] (s : FwIo ω) (a : FwIoAct ω) : Decidable (s.Drained a) :=
  match a with
  | .prepare stable =>
    inferInstanceAs (Decidable (stable = false → s.filterZoms.1.Collects → s.pipe = 0))
  | .selectFail _ => inferInstanceAs (Decidable (s.pipe = 0))
  | .read .. | .write .. | .wait .. | .detach .. | .abort _ | .aborting _ | .addRefio | .delRefio
  | .announce _ | .getSeq | .becomeZom _ | .loop | .select .. | .take _ | .dispatch => .isTrue trivial

/-- In `select` the pipe is among what is waited for. As long as it is empty, so is
everything that is registered. -/
def Attends (pfd : Int) (s : FwIo ω) : Prop :=
  ∀ r w e intr, s.loop = .select r w e intr →
    pfd ∈ r ∧ (s.waitFlag = true → 0 < s.pipe) ∧ (s.waitFlag = false → s.Covered r w e intr)

variable {s t : FwIo ω}

theorem getIntervalMinimal_some (dd : IoData ω) (l : List (IoData ω)) :
    (getIntervalMinimal (some dd) l).isSome := by
  induction l generalizing dd with
  | nil => rfl
  | cons x rest ih =>
    unfold getIntervalMinimal
    split
    · exact ih x
    · split
      · rfl
      · exact ih dd

theorem getIntervalMinimal_isSome {l : List (IoData ω)} :
    (getIntervalMinimal none l).isSome = true ↔ l ≠ [] := by
  cases l with
  | nil => simp [getIntervalMinimal]
  | cons dd rest => simpa [getIntervalMinimal] using getIntervalMinimal_some dd rest

theorem mem_fexp {q : StdQueue (IoData ω)} {dd : IoData ω} (h : dd ∈ q.members) :
    dd.data ∈ fexp q := List.mem_map_of_mem h

theorem mem_fsp {q : StdQueue (IoData ω)} {dd : IoData ω} (h : dd ∈ q.members)
    (ho : dd.opt ≠ fwioOptOnlyExp) : dd.data ∈ fsp q :=
  List.mem_map_of_mem (List.mem_filter.mpr ⟨h, by simpa using ho⟩)

/-- What is shrunk stays covered. -/
theorem Covered.shrink {r w e : List Int} {intr : Bool} (h : s.Covered r w e intr)
    (hr : t.readObjs.members ⊆ s.readObjs.members)
    (hw : t.writeObjs.members ⊆ s.writeObjs.members)
    (hi : t.intervalObjs = s.intervalObjs) : t.Covered r w e intr where
  read dd hd := h.read dd (hr hd)
  write dd hd := h.write dd (hw hd)
  interval hn := h.interval (hi ▸ hn)

-- ---------------------------------------------------------------------------
-- What a step does with the flag, the pipe and the phase
-- ---------------------------------------------------------------------------

/-- One case for each thing that a step can do with them. -/
inductive Signal [DecidableEq ω] (pfd : Int) (s : FwIo ω) (a : FwIoAct ω) (t : FwIo ω) : Prop
  /-- Somebody calls `writePipe`. -/
  | written (flag : t.waitFlag = true)
      (pipe : t.pipe = if s.waitFlag = true then s.pipe else s.pipe + 1) (loop : t.loop = s.loop)
  | quiet (none : ¬a.Registers) (flag : t.waitFlag = s.waitFlag) (pipe : t.pipe = s.pipe)
      (loop : t.loop = s.loop) (read : t.readObjs.members ⊆ s.readObjs.members)
      (write : t.writeObjs.members ⊆ s.writeObjs.members)
      (interval : t.intervalObjs = s.intervalObjs)
  /-- The loop goes on, and leaves both alone. -/
  | moves (none : ¬a.Registers) (flag : t.waitFlag = s.waitFlag) (pipe : t.pipe = s.pipe)
      (phase : (s.loop = .top ∧ (t.loop = .top ∨ t.loop = .idle)) ∨
        (∃ r w e intr r' w' e', s.loop = .select r w e intr ∧ t.loop = .selected r' w' e') ∨
        (s.loop = .dispatch [] ∧ t.loop = .top) ∨
        ∃ ok result, s.loop = .dispatch (ok :: result) ∧ t.loop = .dispatch result)
  | fails (none : ¬a.Registers) (flag : t.waitFlag = s.waitFlag) (pipe : t.pipe = s.pipe)
      (phase : ∃ r w e intr, s.loop = .select r w e intr ∧ (t.loop = .top ∨ t.loop = .idle))
      (act : ∃ errno, a = .selectFail errno)
  | begins (none : ¬a.Registers) (flag : t.waitFlag = true) (pipe : t.pipe = s.pipe)
      (phase : s.loop = .idle ∧ t.loop = .top)
  | collects (none : ¬a.Registers) (flag : t.waitFlag = false) (pipe : t.pipe = s.pipe)
      (phase : s.loop = .top ∧ t.loop = .top)
      (act : a = .prepare false ∧ s.filterZoms.1.Collects)
  | waits (none : ¬a.Registers) (flag : t.waitFlag = false) (pipe : t.pipe = s.pipe)
      (phase : s.loop = .top ∧ ∃ r w e intr, t.loop = .select r w e intr ∧ pfd ∈ r ∧
        t.Covered r w e intr)
      (act : ∃ stable, a = .prepare stable)
  | drains (none : ¬a.Registers) (flag : t.waitFlag = true) (pipe : t.pipe = 0)
      (phase : ∃ result, t.loop = .dispatch result) (act : ∃ now, a = .take now)

variable [DecidableEq ω] {pfd : Int} {a : FwIoAct ω}

omit [DecidableEq ω] in
theorem writePipe_signal (u : FwIo ω) : u.writePipe.waitFlag = true ∧
    u.writePipe.pipe = (if u.waitFlag = true then u.pipe else u.pipe + 1) ∧
    u.writePipe.loop = u.loop := by
  unfold writePipe
  split
  · exact ⟨‹_›, rfl, rfl⟩
  · exact ⟨rfl, rfl, rfl⟩

theorem Signal.writePipe {u : FwIo ω} (hf : u.waitFlag = s.waitFlag) (hp : u.pipe = s.pipe)
    (hl : u.loop = s.loop) : Signal pfd s a u.writePipe := by
  obtain ⟨h₁, h₂, h₃⟩ := writePipe_signal u
  exact .written h₁ (by rw [h₂, hf, hp]) (h₃.trans hl)

/-- The critical section before `select`. -/
theorem await_signal {stable : Bool} (hl : s.loop = .top) :
    Signal pfd s (.prepare stable) (s.filterZoms.1.await pfd stable) := by
  unfold await
  dsimp only
  generalize hm : (if (getIntervalMinimal none _).isSome = true then _ else _ : Int) = m
  split_ifs with h₁ h₂ h₃
  · exact .moves id rfl rfl (.inl ⟨hl, .inl rfl⟩)
  · exact .moves id rfl rfl (.inl ⟨hl, .inr rfl⟩)
  · refine .collects id rfl rfl ⟨hl, rfl⟩ ⟨congrArg _ (Bool.eq_false_iff.mpr h₃), ?_, h₂⟩
    intro hc
    rw [h₂.2.1] at hm
    exact h₁ ⟨hm.symm.trans hc, h₂.2.1⟩
  · refine .waits id rfl rfl ⟨hl, _, _, _, _, rfl, List.mem_cons_self .., ?_, ?_, ?_⟩ ⟨stable, rfl⟩
    · exact fun dd hd => ⟨List.mem_cons_of_mem pfd (List.mem_append_left _ (mem_fexp hd)),
        fun ho => List.mem_cons_of_mem pfd (mem_fsp hd ho)⟩
    · exact fun dd hd => ⟨List.mem_cons_of_mem pfd (List.mem_append_right _ (mem_fexp hd)),
        fun ho => mem_fsp hd ho⟩
    · exact getIntervalMinimal_isSome.mpr

omit [DecidableEq ω] in
theorem members_delIf_subset {q q' : StdQueue (IoData ω)} {cmp : IoData ω → Bool} {dd : IoData ω}
    (h : q.delIf cmp = some (dd, q')) : q'.members ⊆ q.members := fun _ hx =>
  (StdQueue.members_delIf h).2.mem_iff.mpr (List.mem_cons_of_mem dd hx)

theorem aborting_signal (i : Nat) (c : AbortCall ω) :
    Signal pfd s (.aborting i) (s.aborting i c).1 := by
  unfold aborting
  split
  · exact .quiet id rfl rfl rfl (List.Subset.refl _) (List.Subset.refl _) rfl
  · split
    · rename_i dd q hq
      split <;> rename_i hw
      · rw [if_pos hw] at hq
        exact .quiet id rfl rfl rfl (List.Subset.refl _) (members_delIf_subset hq) rfl
      · rw [if_neg hw] at hq
        exact .quiet id rfl rfl rfl (members_delIf_subset hq) (List.Subset.refl _) rfl
    · split <;> exact .quiet id rfl rfl rfl (List.Subset.refl _) (List.Subset.refl _) rfl

theorem selectFail_signal {r w e : List Int} {intr : Bool} {errno : SelectErrno}
    (hl : s.loop = .select r w e intr) (h : s.selectFail r w e errno = some t) :
    Signal pfd s (.selectFail errno) t := by
  cases errno with
  | eintr | zero | eagain =>
    cases h
    exact .fails id rfl rfl ⟨r, w, e, intr, hl, .inl rfl⟩ ⟨_, rfl⟩
  | other =>
    cases h
    exact .fails id rfl rfl ⟨r, w, e, intr, hl, .inr rfl⟩ ⟨_, rfl⟩
  | ebadf bad =>
    obtain ⟨-, he⟩ := Option.ite_none_left_eq_some.mp h
    cases he
    exact .fails id rfl rfl ⟨r, w, e, intr, hl, .inl rfl⟩ ⟨_, rfl⟩

omit [DecidableEq ω] in
theorem take_signal (s : FwIo ω) (r w e : List Int) (now : Int) :
    (s.take r w e now).waitFlag = true ∧ (s.take r w e now).pipe = 0 ∧
      ∃ result, (s.take r w e now).loop = .dispatch result := by
  unfold take takeReady
  dsimp only
  split <;> exact ⟨rfl, rfl, _, rfl⟩

theorem step_signal {os : List (IoOutcome ω)} (hs : s.step pfd a = some (t, os)) :
    Signal pfd s a t := by
  cases a with
  | read obj fd opt =>
    obtain ⟨u, hu, he⟩ := Option.map_eq_some_iff.mp hs
    obtain ⟨-, hu⟩ := Option.ite_none_left_eq_some.mp hu
    cases hu
    cases he
    exact .writePipe rfl rfl rfl
  | write obj fd opt =>
    obtain ⟨u, hu, he⟩ := Option.map_eq_some_iff.mp hs
    obtain ⟨-, hu⟩ := Option.ite_none_left_eq_some.mp hu
    cases hu
    cases he
    exact .writePipe rfl rfl rfl
  | wait obj tm now type =>
    cases hs
    exact .writePipe rfl rfl rfl
  | detach obj read write interval =>
    cases hs
    exact .writePipe rfl rfl rfl
  | delRefio =>
    cases hs
    exact .writePipe rfl rfl rfl
  | abort _ | addRefio | announce _ | getSeq | becomeZom _ =>
    cases hs
    exact .quiet id rfl rfl rfl (List.Subset.refl _) (List.Subset.refl _) rfl
  | aborting i =>
    obtain ⟨c, -, he⟩ := Option.map_eq_some_iff.mp hs
    have hs : Signal pfd s _ _ := aborting_signal i c
    rw [he] at hs
    exact hs
  | loop =>
    obtain ⟨hl, he⟩ := Option.ite_none_right_eq_some.mp hs
    cases he
    exact .begins id rfl rfl ⟨hl, rfl⟩
  | prepare stable =>
    obtain ⟨hl, he⟩ := Option.ite_none_right_eq_some.mp hs
    cases he
    exact await_signal hl
  | select fdread fdwrite fdexp =>
    unfold step at hs
    dsimp only at hs
    split at hs
    · rename_i hl
      obtain ⟨-, he⟩ := Option.ite_none_right_eq_some.mp hs
      cases he
      exact .moves id rfl rfl (.inr (.inl ⟨_, _, _, _, _, _, _, hl, rfl⟩))
    · cases hs
  | selectFail errno =>
    unfold step at hs
    dsimp only at hs
    split at hs
    · rename_i hl
      obtain ⟨u, hu, he⟩ := Option.map_eq_some_iff.mp hs
      cases he
      exact selectFail_signal hl hu
    · cases hs
  | take now =>
    unfold step at hs
    dsimp only at hs
    split at hs
    · cases hs
      obtain ⟨hf, hp, hl⟩ := take_signal s _ _ _ now
      exact .drains id hf hp hl ⟨_, rfl⟩
    · cases hs
  | dispatch =>
    unfold step at hs
    dsimp only at hs
    split at hs
    · rename_i hl
      cases hs
      exact .moves id rfl rfl (.inr (.inr (.inl ⟨hl, rfl⟩)))
    · rename_i hl
      cases hs
      exact .moves id rfl rfl (.inr (.inr (.inr ⟨_, _, hl, rfl⟩)))
    · cases hs

-- ---------------------------------------------------------------------------
-- No wake-up is lost
-- ---------------------------------------------------------------------------

theorem Signal.attends (h : Signal pfd s a t) (hi : s.Attends pfd) : t.Attends pfd := by
  intro r w e intr hl
  cases h with
  | written flag pipe loop =>
    obtain ⟨hp, ht, -⟩ := hi r w e intr (loop ▸ hl)
    refine ⟨hp, fun _ => ?_, fun hf => absurd (flag.symm.trans hf) Bool.noConfusion⟩
    rw [pipe]
    split
    · exact ht ‹_›
    · exact Nat.succ_pos _
  | quiet _ flag pipe loop read write interval =>
    obtain ⟨hp, ht, hf⟩ := hi r w e intr (loop ▸ hl)
    rw [flag, pipe]
    exact ⟨hp, ht, fun h => (hf h).shrink read write interval⟩
  | moves _ _ _ phase =>
    rcases phase with ⟨-, h | h⟩ | ⟨_, _, _, _, _, _, _, -, h⟩ | ⟨-, h⟩ | ⟨_, _, -, h⟩ <;>
      cases hl.symm.trans h
  | fails _ _ _ phase =>
    obtain ⟨_, _, _, _, -, h | h⟩ := phase <;> cases hl.symm.trans h
  | begins _ _ _ phase => cases hl.symm.trans phase.2
  | collects _ _ _ phase => cases hl.symm.trans phase.2
  | waits _ flag _ phase _ =>
    obtain ⟨-, r', w', e', intr', h, hp, hc⟩ := phase
    cases hl.symm.trans h
    exact ⟨hp, fun ht => absurd (flag.symm.trans ht) Bool.noConfusion, fun _ => hc⟩
  | drains _ _ _ phase _ =>
    obtain ⟨_, h⟩ := phase
    cases hl.symm.trans h

variable {tr : List (IoOutcome ω)}

theorem attends (h : (machine ω pfd).Run tr s) : s.Attends pfd := by
  refine h.stateInvariant (I := Attends pfd) ?_ ?_
  · rintro _ rfl r w e intr hl
    cases hl
  · exact fun s a t os hi _ hs => (step_signal hs).attends hi

/-- In `select`, whoever registers something makes the pipe readable, and it stays so
until `select` returns. -/
theorem Signal.readable (h : Signal pfd s a t) (hi : s.Attends pfd) {r w e : List Int}
    {intr : Bool} (hl : s.loop = .select r w e intr) (ht : t.loop = s.loop)
    (hr : a.Registers ∨ 0 < s.pipe) : 0 < t.pipe := by
  obtain ⟨-, hf, -⟩ := hi r w e intr hl
  cases h with
  | written _ pipe _ =>
    rw [pipe]
    split
    · exact hf ‹_›
    · exact Nat.succ_pos _
  | quiet none _ pipe _ _ _ _ => exact pipe ▸ hr.resolve_left none
  | moves none _ pipe _ => exact pipe ▸ hr.resolve_left none
  | fails none _ pipe _ _ => exact pipe ▸ hr.resolve_left none
  | begins none _ pipe _ => exact pipe ▸ hr.resolve_left none
  | collects none _ pipe _ _ => exact pipe ▸ hr.resolve_left none
  | waits none _ pipe _ _ => exact pipe ▸ hr.resolve_left none
  | drains _ _ _ phase _ =>
    obtain ⟨_, h⟩ := phase
    cases (hl.symm.trans ht.symm).trans h

-- ---------------------------------------------------------------------------
-- The bytes in the pipe
-- ---------------------------------------------------------------------------

/-- How many bytes there are in each phase. -/
def Bytes (s : FwIo ω) : Prop :=
  match s.loop with
  | .idle | .top => s.pipe ≤ 1 ∧ (s.waitFlag = false → s.pipe = 0)
  | .select .. | .selected .. => s.pipe ≤ 2 ∧ (s.waitFlag = false → s.pipe ≤ 1)
  | .dispatch _ => s.waitFlag = true ∧ s.pipe = 0

omit [DecidableEq ω] in
theorem Bytes.le_two (h : s.Bytes) : s.pipe ≤ 2 := by
  unfold Bytes at h
  split at h <;> omega

theorem Signal.bytes (h : Signal pfd s a t) (hb : s.Bytes) (hc : s.Drained a) : t.Bytes := by
  unfold Bytes at hb ⊢
  cases h with
  | written flag pipe loop =>
    rw [loop, flag, pipe]
    cases hf : s.waitFlag <;> rw [hf] at hb <;> split at hb <;> simp_all
  | quiet _ flag pipe loop _ _ _ =>
    rw [loop, flag, pipe]
    exact hb
  | moves _ flag pipe phase =>
    rcases phase with ⟨h₁, h₂ | h₂⟩ | ⟨_, _, _, _, _, _, _, h₁, h₂⟩ | ⟨h₁, h₂⟩ | ⟨_, _, h₁, h₂⟩ <;>
      rw [h₁] at hb <;> rw [h₂, flag, pipe]
    all_goals first | exact hb | exact ⟨hb.2 ▸ Nat.zero_le 1, fun _ => hb.2⟩
  | fails _ flag pipe phase act =>
    obtain ⟨errno, rfl⟩ := act
    have hp : s.pipe = 0 := hc
    obtain ⟨_, _, _, _, -, h | h⟩ := phase <;> rw [h, pipe, hp] <;>
      exact ⟨Nat.zero_le 1, fun _ => rfl⟩
  | begins _ flag pipe phase =>
    rw [phase.1] at hb
    rw [phase.2, flag, pipe]
    exact ⟨hb.1, Bool.noConfusion⟩
  | collects _ flag pipe phase act =>
    have hp : s.pipe = 0 := by
      rw [act.1] at hc
      exact hc rfl act.2
    rw [phase.2, pipe, hp]
    exact ⟨Nat.zero_le 1, fun _ => rfl⟩
  | waits _ flag pipe phase _ =>
    obtain ⟨h₁, _, _, _, _, h₂, -⟩ := phase
    rw [h₁] at hb
    rw [h₂, flag, pipe]
    exact ⟨Nat.le_succ_of_le hb.1, fun _ => hb.1⟩
  | drains _ flag pipe phase _ =>
    obtain ⟨_, h⟩ := phase
    rw [h]
    exact ⟨flag, pipe⟩

theorem bytes (h : (machine ω pfd).RunIf Drained tr s) : s.Bytes := by
  refine h.stateInvariant ?_ ?_
  · rintro _ rfl
    exact ⟨Nat.zero_le 1, fun _ => rfl⟩
  · exact fun s a t os hb hc hs => (step_signal hs).bytes hb hc

/-- **Wake-up.** In `select` the pipe is waited for, and while it is empty everything that is
registered is waited for too. Who registers something meanwhile makes it readable, and it
stays so until `select` returns. As long as the loop neither waits for the collector nor
fails in `select` with a byte in the pipe, there are at most two bytes. -/
theorem reactor_wakeup_law (h : (machine ω pfd).Run tr s) :
    (∀ r w e intr, s.loop = .select r w e intr →
      pfd ∈ r ∧ (s.pipe = 0 → s.Covered r w e intr) ∧
        ∀ a t os, s.step pfd a = some (t, os) → t.loop = s.loop →
          a.Registers ∨ 0 < s.pipe → 0 < t.pipe) ∧
      ((machine ω pfd).RunIf Drained tr s → s.pipe ≤ 2) := by
  refine ⟨fun r w e intr hl => ?_, fun hc => (bytes hc).le_two⟩
  obtain ⟨hp, ht, hf⟩ := attends h r w e intr hl
  refine ⟨hp, fun h₀ => ?_, fun a t os hs he hr => ?_⟩
  · refine hf (Bool.eq_false_iff.mpr fun h₁ => ?_)
    exact absurd (h₀ ▸ ht h₁) (Nat.lt_irrefl 0)
  · exact (step_signal hs).readable (attends h) hl he hr

/-- A timer is registered while the loop is in `select` for a descriptor. -/
theorem reactor_wakeup_law_timer : ∃ tr s, (machine Nat 3).RunIf Drained tr s ∧
    s.loop = .select [3, 5] [] [3, 5] false ∧ s.pipe = 2 ∧ s.pipe ≤ 2 := by
  have hr := Machine.exists_run (M := machine Nat 3) (C := Drained)
    (P := fun _ s => s.loop = .select [3, 5] [] [3, 5] false ∧ s.pipe = 2)
    [.read 0 5 0, .loop, .prepare true, .wait 1 10 0 .timer] rfl (by decide +kernel)
  obtain ⟨tr, s, h, hl, hp⟩ := hr
  exact ⟨tr, s, h, hl, hp, (reactor_wakeup_law h.run).2 h⟩

/-- The loop is at its top, nothing is registered, and there are `n` bytes. -/
structure Empty (n : Nat) (s : FwIo Nat) : Prop where
  loop : s.loop = .top
  read : s.readObjs = ⟨[], false⟩
  write : s.writeObjs = ⟨[], false⟩
  interval : s.intervalObjs = ⟨[], false⟩
  refio : s.refio = 0
  announce : s.announceMaxfd = -1
  pipe : s.pipe = n

/-- The loop waits for the collector, and meanwhile somebody registers and detaches. -/
theorem Empty.round {n : Nat} {s : FwIo Nat} {tr : List (IoOutcome Nat)}
    (hs : Empty n s) (h : (machine Nat 3).Run tr s) :
    ∃ tr s, (machine Nat 3).Run tr s ∧ Empty (n + 1) s := by
  obtain ⟨read, write, interval, flag, pipe, refio, ann, real, seq, zom, loop, aborts, made⟩ := s
  obtain ⟨rfl, rfl, rfl, rfl, rfl, rfl, rfl⟩ := hs
  have h₁ := h.next (a := .prepare false) rfl
  have h₂ := h₁.next (a := .read 0 5 0) rfl
  have h₃ := h₂.next (a := .detach 0 true true true) rfl
  exact ⟨_, _, h₃, rfl, rfl, rfl, rfl, rfl, rfl, rfl⟩

/-- Each time the loop waits for the collector, one more byte can be left in the pipe. -/
theorem pipe_unbounded : ¬∃ n, ∀ tr s, (machine Nat 3).Run tr s → s.pipe ≤ n := by
  rintro ⟨n, hn⟩
  have hr : ∀ n, ∃ tr s, (machine Nat 3).Run tr s ∧ Empty n s := by
    intro n
    induction n with
    | zero =>
      have h : (machine Nat 3).Run [] (initial Nat) := .start rfl
      exact ⟨_, _, h.next (a := .loop) rfl, rfl, rfl, rfl, rfl, rfl, rfl, rfl⟩
    | succ n ih =>
      obtain ⟨tr, s, h, hs⟩ := ih
      exact hs.round h
  obtain ⟨tr, s, h, hs⟩ := hr (n + 1)
  have hp := hn tr s h
  rw [hs.pipe] at hp
  exact Nat.not_succ_le_self n hp

end FwIo

end TinyState
