import TinyState.Lib.Machine
import Mathlib.Logic.Function.Basic
import Mathlib.Data.List.Range

/-!
# ts2IO: read_c and write_c

A call that cannot go on throws, and the caller makes it again from its beginning. What it has
done so far is in its pico state, which an exception leaves as it is and a return resets: over
all its runs a call moves each byte once.
-/

namespace TinyState

open Transition

def psINI : Int := 0

def psDO : Int := 1

/-- `ps_read_c` and `ps_write_c`; `bp` is an address. -/
structure PicoState where
  state : Int
  recursive : Bool
  bp : Nat
  s : Nat
  deriving DecidableEq, Repr

inductive Direction
  | read
  | write
  deriving DecidableEq, Repr

def Direction.other : Direction → Direction
  | read => write
  | write => read

/-- A call that has thrown; `mark` is where it began in the stream. -/
structure OpenCall where
  buf : Nat
  length : Nat
  mark : Nat
  deriving DecidableEq, Repr

/-- A `ts2IO` with the memory and the two streams that it moves bytes between; `pos` says how
many have been read, and `out` is what has been written. `pending` is the callers'. -/
structure PicoIo where
  ps : Direction → PicoState
  mem : Nat → UInt8
  stream : Nat → UInt8
  pos : Nat
  out : List UInt8
  pending : Direction → Option OpenCall

/-- What one call of `read` or `write` does: it moves some bytes, returns an error or the end
of the file, or throws. -/
inductive Transfer
  | bytes (er : Nat)
  | stop (er : Int)
  | block
  deriving DecidableEq, Repr

/-- How one run of a call ends. -/
inductive CallEnd
  | returned (er : Int)
  | yielded
  | panicked
  deriving DecidableEq, Repr

namespace PicoIo

/-- `n` bytes are moved, from or to the address `bp`. -/
def move (io : PicoIo) (bp n : Nat) : Direction → PicoIo
  | .read => { io with
      mem := fun a => if bp ≤ a ∧ a < bp + n then io.stream (io.pos + (a - bp)) else io.mem a
      pos := io.pos + n }
  | .write => { io with out := io.out ++ (List.range n).map fun i => io.mem (bp + i) }

/-- The loop of both calls; `write_div` is `write`. -/
def doLoop (dir : Direction) (length : Nat) :
    List Transfer → PicoState → PicoIo → Option (CallEnd × PicoState × PicoIo)
  | [], ps, io =>
    if ps.s = 0 then some (.returned length, { ps with state := psINI }, io) else none
  | .bytes er :: ers, ps, io =>
    if 0 < er ∧ er ≤ ps.s then
      doLoop dir length ers { ps with bp := ps.bp + er, s := ps.s - er } (io.move ps.bp er dir)
    else none
  | [.stop er], ps, io =>
    if 0 < ps.s ∧ er ≤ 0 then some (.returned er, { ps with state := psINI }, io) else none
  | [.block], ps, io => if 0 < ps.s then some (.yielded, ps, io) else none
  | _ :: _ :: _, _, _ => none

/-- `PS_STATEMENT` of both calls. An exception resets the flag as well. -/
def statement (dir : Direction) (buf length : Nat) (ers : List Transfer) (ps : PicoState)
    (io : PicoIo) : Option (CallEnd × PicoState × PicoIo) :=
  if ps.recursive then some (.panicked, ps, io)
  else
    let r :=
      if ps.state = -1 ∨ ps.state = psINI then
        doLoop dir length ers { recursive := true, state := psDO, bp := buf, s := length } io
      else if ps.state = psDO then doLoop dir length ers { ps with recursive := true } io
      else some (.returned (-1), { ps with recursive := true }, io)
    r.map fun r => (r.1, { r.2.1 with recursive := false }, r.2.2)

def read_c (buf length : Nat) (ers : List Transfer) (io : PicoIo) :
    Option (CallEnd × PicoState × PicoIo) := statement .read buf length ers (io.ps .read) io

def write_c (buf length : Nat) (ers : List Transfer) (io : PicoIo) :
    Option (CallEnd × PicoState × PicoIo) := statement .write buf length ers (io.ps .write) io

-- ---------------------------------------------------------------------------
-- The callers
-- ---------------------------------------------------------------------------

/-- Where a stream is. -/
def position (io : PicoIo) : Direction → Nat
  | .read => io.pos
  | .write => io.out.length

/-- Where a call began: its first run, if it has thrown since. -/
def mark (io : PicoIo) (dir : Direction) : Nat :=
  match io.pending dir with
  | none => io.position dir
  | some c => c.mark

/-- The address is not in the buffer of a call that has thrown. -/
def Free (io : PicoIo) (a : Nat) : Prop :=
  ∀ dir, ∀ c ∈ io.pending dir, a < c.buf ∨ c.buf + c.length ≤ a

instance (io : PicoIo) (a : Nat) : Decidable (io.Free a) :=
  decidable_of_iff
    ((∀ c ∈ io.pending .read, a < c.buf ∨ c.buf + c.length ≤ a) ∧
      ∀ c ∈ io.pending .write, a < c.buf ∨ c.buf + c.length ≤ a)
    ⟨fun h dir => by cases dir; exact h.1; exact h.2, fun h => ⟨h .read, h .write⟩⟩

/-- A call that has thrown is made again with its arguments; another one does not use its
buffer. -/
def Allowed (io : PicoIo) (dir : Direction) (buf length : Nat) : Prop :=
  match io.pending dir with
  | some c => buf = c.buf ∧ length = c.length
  | none => ∀ c ∈ io.pending dir.other, buf + length ≤ c.buf ∨ c.buf + c.length ≤ buf

instance (io : PicoIo) (dir : Direction) (buf length : Nat) :
    Decidable (io.Allowed dir buf length) := by
  unfold Allowed
  split <;> infer_instance

inductive PicoAct
  | call (dir : Direction) (buf length : Nat) (ers : List Transfer)
  /-- The program writes into its memory. -/
  | poke (a : Nat) (v : UInt8)
  deriving DecidableEq, Repr

inductive PicoObs
  | ran (dir : Direction) (buf length : Nat) (r : CallEnd)
  deriving DecidableEq, Repr

/-- The state after a run of a call. -/
def after (io : PicoIo) (dir : Direction) (buf length : Nat) (r : CallEnd × PicoState × PicoIo) :
    PicoIo :=
  { r.2.2 with
    ps := Function.update r.2.2.ps dir r.2.1
    pending := Function.update r.2.2.pending dir
      (if r.1 = .yielded then some ⟨buf, length, io.mark dir⟩ else none) }

def step (io : PicoIo) : PicoAct → Option (PicoIo × List PicoObs)
  | .call dir buf length ers =>
    if io.Allowed dir buf length then
      (match dir with
        | .read => io.read_c buf length ers
        | .write => io.write_c buf length ers).map fun r =>
          (io.after dir buf length r, [.ran dir buf length r.1])
    else none
  | .poke a v =>
    if io.Free a then some ({ io with mem := Function.update io.mem a v }, []) else none

/-- The memory of a new object is zero. -/
def machine : Machine PicoIo PicoAct PicoObs where
  init io := ∀ dir, io.ps dir = ⟨0, false, 0, 0⟩ ∧ io.pending dir = none
  step := step

/-- The first `n` bytes of a buffer and those of the stream from `mark` on are the same, and the
stream has come to the end of them. -/
def Moved (io : PicoIo) (buf n mark : Nat) : Direction → Prop
  | .read => io.pos = mark + n ∧ ∀ i < n, io.mem (buf + i) = io.stream (mark + i)
  | .write => io.out.length = mark + n ∧
      io.out.drop mark = (List.range n).map fun i => io.mem (buf + i)

/-- What a run of a call has done when it ends: it has moved all the bytes and returns their
number, or it has moved some of them and fails, or throws and is pending. -/
def Done (io : PicoIo) (dir : Direction) (buf length mark : Nat) : CallEnd → Prop
  | .returned er => io.pending dir = none ∧
      ((er = length ∧ io.Moved buf length mark dir) ∨
        er ≤ 0 ∧ ∃ n < length, io.Moved buf n mark dir)
  | .yielded => io.pending dir = some ⟨buf, length, mark⟩ ∧ ∃ n < length, io.Moved buf n mark dir
  | .panicked => False

/-- In the state that has been reached every run of a call does what it should, and leaves the
rest of the memory alone. -/
def TransferLaw (io : PicoIo) : Prop :=
  ∀ dir buf length ers t os, io.step (.call dir buf length ers) = some (t, os) →
    ∃ r, os = [.ran dir buf length r] ∧ t.Done dir buf length (io.mark dir) r ∧
      ∀ a, (dir = .read → a < buf ∨ buf + length ≤ a) → t.mem a = io.mem a

-- ---------------------------------------------------------------------------
-- One run
-- ---------------------------------------------------------------------------

variable {io io' t : PicoIo} {dir : Direction} {buf length mark bp m n a : Nat}
  {ers : List Transfer} {ps ps' : PicoState} {r : CallEnd} {os tr : List PicoObs}

theorem move_zero (io : PicoIo) (bp : Nat) (dir : Direction) : io.move bp 0 dir = io := by
  cases dir with
  | read =>
    have hmem : (fun a => if bp ≤ a ∧ a < bp + 0 then io.stream (io.pos + (a - bp)) else io.mem a) =
        io.mem := funext fun a => if_neg (by omega)
    rw [move, hmem]
    rfl
  | write => simp [move]

/-- Bytes that follow on each other are moved as by one transfer. -/
theorem move_move (io : PicoIo) (bp m n : Nat) (dir : Direction) :
    (io.move bp m dir).move (bp + m) n dir = io.move bp (m + n) dir := by
  cases dir with
  | read =>
    have hmem : ((io.move bp m .read).move (bp + m) n .read).mem =
        (io.move bp (m + n) .read).mem := by
      funext a
      simp only [move]
      by_cases h₂ : bp + m ≤ a ∧ a < bp + m + n
      · rw [if_pos h₂, if_pos (by omega)]
        congr 1
        omega
      · rw [if_neg h₂]
        exact if_congr (by omega) rfl rfl
    have hpos : ((io.move bp m .read).move (bp + m) n .read).pos = (io.move bp (m + n) .read).pos :=
      Nat.add_assoc ..
    simp only [move] at hmem hpos ⊢
    rw [hmem, hpos]
  | write =>
    simp only [move, List.range_add, List.map_append, List.map_map, List.append_assoc]
    simp only [Function.comp_def, Nat.add_assoc]

@[simp] theorem move_ps : (io.move bp n dir).ps = io.ps := by cases dir <;> rfl

@[simp] theorem move_pending : (io.move bp n dir).pending = io.pending := by cases dir <;> rfl

/-- What one run of the loop does: it moves a number of bytes in one piece. -/
structure Looped (dir : Direction) (length : Nat) (ps : PicoState) (io : PicoIo) (n : Nat)
    (r : CallEnd × PicoState × PicoIo) : Prop where
  le : n ≤ ps.s
  moved : r.2.2 = io.move ps.bp n dir
  ends : match r.1 with
    | .returned er => r.2.1.state = psINI ∧ ((er = length ∧ n = ps.s) ∨ er ≤ 0 ∧ n < ps.s)
    | .yielded => n < ps.s ∧ r.2.1 = { ps with bp := ps.bp + n, s := ps.s - n }
    | .panicked => False

theorem doLoop_spec {r : CallEnd × PicoState × PicoIo} (h : doLoop dir length ers ps io = some r) :
    ∃ n, Looped dir length ps io n r := by
  induction ers generalizing ps io with
  | nil =>
    obtain ⟨h0, he⟩ := Option.ite_none_right_eq_some.mp h
    cases he
    exact ⟨0, Nat.zero_le _, (io.move_zero ..).symm, rfl, .inl ⟨rfl, h0.symm⟩⟩
  | cons er ers ih =>
    cases er with
    | bytes er =>
      obtain ⟨⟨h0, hle⟩, h⟩ := Option.ite_none_right_eq_some.mp h
      obtain ⟨n, hn, hm, he⟩ := ih h
      dsimp only at hn hm he
      refine ⟨er + n, by omega, by rw [hm, move_move], ?_⟩
      split at he
      · exact ⟨he.1, he.2.imp (fun h => ⟨h.1, by omega⟩) fun h => ⟨h.1, by omega⟩⟩
      · refine ⟨by omega, ?_⟩
        rw [he.2, Nat.add_assoc, Nat.sub_sub]
      · exact absurd he id
    | stop er =>
      cases ers with
      | cons _ _ => cases h
      | nil =>
        obtain ⟨⟨hpos, hle⟩, he⟩ := Option.ite_none_right_eq_some.mp h
        cases he
        exact ⟨0, Nat.zero_le _, (io.move_zero ..).symm, rfl, .inr ⟨hle, hpos⟩⟩
    | block =>
      cases ers with
      | cons _ _ => cases h
      | nil =>
        obtain ⟨hpos, he⟩ := Option.ite_none_right_eq_some.mp h
        cases he
        exact ⟨0, Nat.zero_le _, (io.move_zero ..).symm, hpos, rfl⟩

/-- What comes next goes on where the first bytes end. -/
theorem Moved.move (h : io.Moved buf m mark dir) :
    (io.move (buf + m) n dir).Moved buf (m + n) mark dir := by
  cases dir with
  | read =>
    obtain ⟨hp, hd⟩ := h
    refine ⟨by simp only [PicoIo.move]; omega, fun i hi => ?_⟩
    simp only [PicoIo.move]
    split
    · congr 1
      omega
    · exact hd i (by omega)
  | write =>
    obtain ⟨hl, hd⟩ := h
    constructor
    · simp only [PicoIo.move, List.length_append, List.length_map, List.length_range]
      omega
    simp only [PicoIo.move]
    rw [List.drop_append_of_le_length (by omega), hd, List.range_add, List.map_append, List.map_map]
    simp only [Function.comp_def, Nat.add_assoc]

theorem moved_start (io : PicoIo) (buf : Nat) (dir : Direction) :
    io.Moved buf 0 (io.position dir) dir := by
  cases dir with
  | read => exact ⟨rfl, fun i hi => absurd hi (Nat.not_lt_zero i)⟩
  | write => exact ⟨rfl, List.drop_length⟩

/-- The state of a call that has thrown: `n` bytes are done. -/
structure Underway (io : PicoIo) (dir : Direction) (c : OpenCall) (n : Nat) : Prop where
  lt : n < c.length
  ps : io.ps dir = ⟨psDO, false, c.buf + n, c.length - n⟩
  moved : io.Moved c.buf n c.mark dir

/-- Between the runs a pico state is fresh, or it is that of the call which has thrown. -/
structure Inv (io : PicoIo) : Prop where
  idle : ∀ dir, io.pending dir = none → (io.ps dir).state = psINI ∧ (io.ps dir).recursive = false
  thrown : ∀ dir, ∀ c ∈ io.pending dir, ∃ n, Underway io dir c n
  apart : ∀ c ∈ io.pending .read, ∀ d ∈ io.pending .write,
    c.buf + c.length ≤ d.buf ∨ d.buf + d.length ≤ c.buf

/-- A run of a call is a run of the loop, which goes on where the last one has stopped. -/
theorem statement_enters (hi : io.Inv) (ha : io.Allowed dir buf length) (ers : List Transfer) :
    ∃ m, (m = 0 ∨ m < length) ∧ io.Moved buf m (io.mark dir) dir ∧
      statement dir buf length ers (io.ps dir) io =
        (doLoop dir length ers ⟨psDO, true, buf + m, length - m⟩ io).map fun r =>
          (r.1, { r.2.1 with recursive := false }, r.2.2) := by
  unfold Allowed at ha
  unfold mark
  cases hp : io.pending dir with
  | none =>
    obtain ⟨hs, hr⟩ := hi.idle dir hp
    refine ⟨0, .inl rfl, io.moved_start buf dir, ?_⟩
    simp [statement, hs, hr]
  | some c =>
    rw [hp] at ha
    obtain ⟨rfl, rfl⟩ := ha
    obtain ⟨n, hlt, hps, hm⟩ := hi.thrown dir c hp
    refine ⟨n, .inr hlt, hm, ?_⟩
    simp [statement, hps, psDO, psINI]

/-- Bytes that are moved to or from one buffer do not touch another. -/
theorem Moved.frame {buf' n' mark' : Nat} (h : io.Moved buf' n' mark' dir.other)
    (hd : buf + n ≤ buf' ∨ buf' + n' ≤ buf) :
    (io.move buf n dir).Moved buf' n' mark' dir.other := by
  cases dir with
  | read =>
    refine ⟨h.1, h.2.trans (List.map_congr_left fun i hi => ?_)⟩
    rw [List.mem_range] at hi
    simp only [PicoIo.move]
    exact (if_neg (by omega)).symm
  | write => exact h

theorem mem_move (hd : dir = .read → a < bp ∨ bp + n ≤ a) :
    (io.move bp n dir).mem a = io.mem a := by
  cases dir with
  | read =>
    have hd := hd rfl
    exact if_neg (by omega)
  | write => rfl

theorem apart_symm (hi : io.Inv) {c d : OpenCall} (hc : io.pending dir = some c)
    (hd : io.pending dir.other = some d) : c.buf + c.length ≤ d.buf ∨ d.buf + d.length ≤ c.buf := by
  cases dir with
  | read => exact hi.apart c hc d hd
  | write => exact (hi.apart d hd c hc).symm

/-- The buffer of a call is apart from that of the other one that has thrown. -/
theorem Allowed.apart (hi : io.Inv) (ha : io.Allowed dir buf length) {d : OpenCall}
    (hd : io.pending dir.other = some d) : buf + length ≤ d.buf ∨ d.buf + d.length ≤ buf := by
  unfold Allowed at ha
  cases hp : io.pending dir with
  | none =>
    rw [hp] at ha
    exact ha d hd
  | some c =>
    rw [hp] at ha
    obtain ⟨rfl, rfl⟩ := ha
    exact apart_symm hi hp hd

theorem other_ne (dir : Direction) : dir.other ≠ dir := by cases dir <;> nofun

theorem eq_or_other (dir d : Direction) : d = dir ∨ d = dir.other := by
  cases dir <;> cases d <;> simp [Direction.other]

/-- A state in which one call has run, and the other is as it was, keeps the invariant. -/
theorem Inv.of_run (hi : io.Inv) (ha : io.Allowed dir buf length) {m : Nat} (hle : m + n ≤ length)
    (ht : t.pending dir.other = io.pending dir.other) (hps : t.ps dir.other = io.ps dir.other)
    (hmem : ∀ buf' n' mark', io.Moved buf' n' mark' dir.other →
      buf + m + n ≤ buf' ∨ buf' + n' ≤ buf + m → t.Moved buf' n' mark' dir.other)
    (hidle : t.pending dir = none → (t.ps dir).state = psINI ∧ (t.ps dir).recursive = false)
    (hopen : ∀ c ∈ t.pending dir, c.buf = buf ∧ c.length = length ∧ ∃ k, Underway t dir c k) :
    t.Inv := by
  have hother : ∀ d ∈ t.pending dir.other, ∃ k, Underway t dir.other d k := by
    intro d hd
    rw [ht] at hd
    obtain ⟨k, hlt, hk, hm⟩ := hi.thrown _ d hd
    have hap := ha.apart hi hd
    exact ⟨k, hlt, hps.trans hk, hmem _ _ _ hm (by omega)⟩
  have hboth : ∀ c ∈ t.pending dir, ∀ d ∈ t.pending dir.other,
      c.buf + c.length ≤ d.buf ∨ d.buf + d.length ≤ c.buf := by
    intro c hc d hd
    obtain ⟨hb, hl, -⟩ := hopen c hc
    rw [ht] at hd
    rw [hb, hl]
    exact ha.apart hi hd
  refine ⟨fun d hd => ?_, fun d c hc => ?_, ?_⟩
  · rcases eq_or_other dir d with rfl | rfl
    · exact hidle hd
    · rw [hps]
      exact hi.idle _ (ht ▸ hd)
  · rcases eq_or_other dir d with rfl | rfl
    · exact (hopen c hc).2.2
    · exact hother c hc
  · cases dir with
    | read => exact hboth
    | write => exact fun c hc d hd => (hboth d hd c hc).symm

/-- One run of a call, from a state that keeps the invariant. -/
theorem call_spec (hi : io.Inv) (h : io.step (.call dir buf length ers) = some (t, os)) :
    t.Inv ∧ ∃ r, os = [.ran dir buf length r] ∧ t.Done dir buf length (io.mark dir) r ∧
      ∀ a, (dir = .read → a < buf ∨ buf + length ≤ a) → t.mem a = io.mem a := by
  obtain ⟨ha, h⟩ := Option.ite_none_right_eq_some.mp h
  have hst : ∃ r, statement dir buf length ers (io.ps dir) io = some r ∧
      (io.after dir buf length r, [PicoObs.ran dir buf length r.1]) = (t, os) := by
    cases dir <;> exact Option.map_eq_some_iff.mp h
  obtain ⟨r, hr, he⟩ := hst
  obtain ⟨rfl, rfl⟩ := Prod.ext_iff.mp he
  obtain ⟨m, hm, hmoved, hs⟩ := statement_enters hi ha ers
  rw [hs] at hr
  obtain ⟨⟨e, ps, io'⟩, hloop, rfl⟩ := Option.map_eq_some_iff.mp hr
  obtain ⟨n, hle, hio, hends⟩ := doLoop_spec hloop
  dsimp only at hle hio hends
  subst hio
  have hmn : m + n ≤ length := by omega
  have hmoved' : (io.move (buf + m) n dir).Moved buf (m + n) (io.mark dir) dir := hmoved.move
  have hframe : ∀ a, (dir = .read → a < buf ∨ buf + length ≤ a) →
      (io.move (buf + m) n dir).mem a = io.mem a := fun a hd => mem_move fun hr => by
    have hd := hd hr
    omega
  have hne := other_ne dir
  cases e with
  | panicked => exact absurd hends id
  | returned er =>
    obtain ⟨hps, hres⟩ := hends
    have hpend : (io.after dir buf length
        (.returned er, { ps with recursive := false }, io.move (buf + m) n dir)).pending dir =
        none := by simp [after]
    refine ⟨hi.of_run ha hmn (by simp [after, hne]) (by simp [after, hne])
      (fun _ _ _ h hd => Moved.frame h hd) (fun _ => by simp [after, hps]) (fun c hc => ?_),
      _, rfl, ⟨hpend, ?_⟩, hframe⟩
    · rw [hpend] at hc
      cases hc
    · rcases hres with ⟨rfl, hn⟩ | ⟨hle, hn⟩
      · exact .inl ⟨rfl, (by omega : m + n = length) ▸ hmoved'⟩
      · exact .inr ⟨hle, m + n, by omega, hmoved'⟩
  | yielded =>
    obtain ⟨hlt, rfl⟩ := hends
    have hpend : (io.after dir buf length (.yielded,
        { state := psDO, recursive := false, bp := buf + m + n, s := length - m - n },
        io.move (buf + m) n dir)).pending dir = some ⟨buf, length, io.mark dir⟩ := by simp [after]
    refine ⟨hi.of_run ha hmn (by simp [after, hne]) (by simp [after, hne])
      (fun _ _ _ h hd => Moved.frame h hd) (fun h => ?_) (fun c hc => ?_),
      _, rfl, ⟨hpend, m + n, by omega, hmoved'⟩, hframe⟩
    · rw [hpend] at h
      cases h
    · rw [hpend] at hc
      cases hc
      refine ⟨rfl, rfl, m + n, by dsimp only; omega, ?_, hmoved'⟩
      simp [after, Nat.add_assoc, Nat.sub_sub]

theorem poke_inv {v : UInt8} (hi : io.Inv) (hf : io.Free a) :
    Inv { io with mem := Function.update io.mem a v } := by
  refine ⟨hi.idle, fun dir c hc => ?_, hi.apart⟩
  obtain ⟨n, hlt, hps, hm⟩ := hi.thrown dir c hc
  have hfree := hf dir c hc
  have hmem : ∀ i < n, Function.update io.mem a v (c.buf + i) = io.mem (c.buf + i) := fun i hin =>
    Function.update_of_ne (by omega) ..
  refine ⟨n, hlt, hps, ?_⟩
  cases dir with
  | read => exact ⟨hm.1, fun i hin => (hmem i hin).trans (hm.2 i hin)⟩
  | write =>
    refine ⟨hm.1, hm.2.trans (List.map_congr_left fun i hin => ?_)⟩
    exact (hmem i (List.mem_range.mp hin)).symm

theorem run_inv (hr : machine.Run tr io) : io.Inv := by
  refine hr.stateInvariant (fun io h => ?_) fun io a t os hi _ hs => ?_
  · refine ⟨fun dir _ => ?_, fun dir c hc => ?_, fun c hc => ?_⟩
    · rw [(h dir).1]
      exact ⟨rfl, rfl⟩
    · rw [(h dir).2] at hc
      cases hc
    · rw [(h .read).2] at hc
      cases hc
  · cases a with
    | call dir buf length ers => exact (call_spec hi hs).1
    | poke a v =>
      obtain ⟨hf, he⟩ := Option.ite_none_right_eq_some.mp hs
      obtain ⟨rfl, rfl⟩ := Prod.ext_iff.mp (Option.some.inj he)
      exact poke_inv hi hf

/-- Whatever `read` and `write` do, a call moves the bytes it is asked for once and in order, over
all its runs, and leaves nothing behind for the next one. -/
theorem transfer_law (hr : machine.Run tr io) : io.TransferLaw :=
  fun _ _ _ _ _ _ h => (call_spec (run_inv hr) h).2

/-- A `read_c` of four bytes that throws twice; between its runs two bytes are written. -/
theorem transfer_law_thrown : ∃ tr io, machine.Run tr io ∧ io.TransferLaw ∧
    tr = [.ran .read 100 4 .yielded, .ran .write 0 2 (.returned 2), .ran .read 100 4 .yielded,
      .ran .read 100 4 (.returned 4)] ∧
    io.mem 100 = 0 ∧ io.mem 103 = 3 ∧ io.out = [7, 7] := by
  obtain ⟨tr, io, hr, h⟩ := Machine.exists_run (M := machine) (C := fun _ _ => True)
    (P := fun tr io => tr = [.ran .read 100 4 .yielded, .ran .write 0 2 (.returned 2),
      .ran .read 100 4 .yielded, .ran .read 100 4 (.returned 4)] ∧
      io.mem 100 = 0 ∧ io.mem 103 = 3 ∧ io.out = [7, 7])
    [.call .read 100 4 [.bytes 1, .block], .call .write 0 2 [.bytes 1, .bytes 1],
      .call .read 100 4 [.block], .call .read 100 4 [.bytes 3]]
    (s := ⟨fun _ => ⟨0, false, 0, 0⟩, fun _ => 7, fun i => UInt8.ofNat i, 0, [], fun _ => none⟩)
    (fun _ => ⟨rfl, rfl⟩) (by decide +kernel)
  exact ⟨tr, io, hr, transfer_law hr, h⟩

end PicoIo

end TinyState
