import Mathlib.Data.List.Induction
import Mathlib.Data.List.TakeWhile
import Mathlib.Data.Nat.Find

/-!
# Lines and chunks

`ts2IO::read_s` cuts what `read` delivers into lines. A carriage return that is the last
byte of the buffer ends a line although a line feed may be about to follow, and where the
buffer is full without the end of a line the next `read` may be asked for nothing, which is
taken for the end of the stream. Apart from the two the lines do not depend on the chunks.
-/

namespace TinyState

def CR : UInt8 := 13

def LF : UInt8 := 10

def isEnd (b : UInt8) : Bool := b = CR ∨ b = LF

/-- The arguments of `read(&sBuffer[sBuffer_length], sBuffer.length() - sBuffer_length)` may
be evaluated in either order, and the first of them makes the array longer. -/
inductive ArgumentOrder
  | lengthFirst
  | indexFirst
  deriving DecidableEq, Repr

/-- `ts2IO`, as far as `read_s` goes: the first `sBuffer_length` bytes of `sBuffer`, the length
of the array, and what `read` has still to deliver. -/
structure LineReader where
  sBuffer : List UInt8
  length : Nat
  sBuffer_eof : Bool
  rest : List UInt8
  reads : Nat
  deriving DecidableEq, Repr

namespace LineReader

/-- What `read` is asked for. -/
def asked (order : ArgumentOrder) (r : LineReader) : Nat :=
  match order with
  | .lengthFirst => r.length - r.sBuffer.length
  | .indexFirst => max r.length (r.sBuffer.length + 1) - r.sBuffer.length

/-- `read`, of which `chunk` says for each call how many bytes it may deliver. -/
def read (order : ArgumentOrder) (chunk : Nat → Int) (r : LineReader) : Int × LineReader :=
  let got := min (chunk r.reads).toNat (min (r.asked order) r.rest.length)
  if chunk r.reads < 0 then
    (chunk r.reads, { r with
      length := max r.length (r.sBuffer.length + 1)
      reads := r.reads + 1 })
  else
    (got, { r with
      sBuffer := r.sBuffer ++ r.rest.take got
      length := max r.length (r.sBuffer.length + 1)
      rest := r.rest.drop got
      reads := r.reads + 1 })

def get_s (r : LineReader) : Int :=
  let i := r.sBuffer.findIdx isEnd
  if i = r.sBuffer.length then
    if r.sBuffer_eof then i else -1
  else if r.sBuffer[i]? = some CR then
    if i + 1 = r.sBuffer.length then i + 1
    else if r.sBuffer[i + 1]? = some LF then i + 2
    else i + 1
  else i + 1

/-- The loop of `read_s` and what comes after it; there is no result without fuel. -/
def readLoop (order : ArgumentOrder) (chunk : Nat → Int) (length : Nat) :
    Nat → LineReader → Option (Option (List UInt8) × LineReader)
  | 0, _ => none
  | fuel + 1, r =>
    if 0 < r.get_s then
      let ret := min r.get_s.toNat (length - 1)
      some (some ((r.sBuffer.take ret).takeWhile (· ≠ 0)), { r with
        sBuffer := r.sBuffer.drop ret })
    else if r.get_s = 0 then some (some [], r)
    else if (r.read order chunk).1 < 0 then some (none, (r.read order chunk).2)
    else
      readLoop order chunk length fuel
        (if (r.read order chunk).1 = 0 then { (r.read order chunk).2 with sBuffer_eof := true }
        else (r.read order chunk).2)

/-- `read_s`. -/
def read_s (order : ArgumentOrder) (chunk : Nat → Int) (length : Nat) (r : LineReader) :
    Option (Option (List UInt8) × LineReader) :=
  readLoop order chunk length (r.rest.length + 2) { r with length := max r.length length }

/-- A reader at the start of a stream. -/
def fresh (stream : List UInt8) : LineReader := ⟨[], 0, false, stream, 0⟩

/-- What the calls of `read_s` return, one after the other. -/
def strings (order : ArgumentOrder) (chunk : Nat → Int) (length : Nat) :
    LineReader → Nat → Option (Option (List UInt8))
  | r, 0 => (r.read_s order chunk length).map Prod.fst
  | r, k + 1 => (r.read_s order chunk length).bind fun x => strings order chunk length x.2 k

example : (List.range 3).map (strings .lengthFirst (fun _ => 1) 9 (fresh [97, CR, LF])) =
    [some (some [97, CR]), some (some [LF]), some (some [])] := by decide

end LineReader

-- ---------------------------------------------------------------------------
-- Lines
-- ---------------------------------------------------------------------------

namespace Lines

variable {L k : Nat} {s t u v : List UInt8} {b : UInt8} {order : ArgumentOrder}

/-- No carriage return is followed by a line feed. -/
def NoCrLf (s : List UInt8) : Prop := ∀ before after, s ≠ before ++ CR :: LF :: after

/-- Where a line of `L` bytes has no end yet, the stream ends. -/
def Short (L : Nat) (s : List UInt8) : Prop :=
  ∀ before run after, s = before ++ run ++ after → run.length = L →
    (∀ b ∈ run, isEnd b = false) → after = []

/-- The first string of a stream: a line, as far as there is room for it. -/
def piece (L : Nat) (s : List UInt8) : List UInt8 :=
  s.take (min (s.findIdx isEnd + 1) (L - 1))

/-- What is left after `k` strings. -/
def rests (L : Nat) (s : List UInt8) : Nat → List UInt8
  | 0 => s
  | k + 1 => rests L (s.drop (piece L s).length) k

/-- What is read of a stream, `k` bytes after the start of a line, if nothing is read once a
line has come to `L` bytes. -/
def seenFrom (L : Nat) : Nat → List UInt8 → List UInt8
  | _, [] => []
  | k, b :: s => if L ≤ k then [] else b :: seenFrom L (if isEnd b then 0 else k + 1) s

/-- What is read of a stream. -/
def seen (order : ArgumentOrder) (L : Nat) (s : List UInt8) : List UInt8 :=
  match order with
  | .lengthFirst => seenFrom L 0 s
  | .indexFirst => s

theorem NoCrLf.right (h : NoCrLf (s ++ t)) : NoCrLf t := by
  rintro before after rfl
  exact h (s ++ before) after (List.append_assoc ..).symm

theorem NoCrLf.left (h : NoCrLf (s ++ t)) : NoCrLf s := by
  rintro before after rfl
  exact h before (after ++ t) (by simp)

-- ---------------------------------------------------------------------------
-- The strings of a stream
-- ---------------------------------------------------------------------------

theorem piece_append_drop : piece L s ++ s.drop (piece L s).length = s := by
  have hp : (piece L s) = s.take (piece L s).length := by
    unfold piece
    rw [List.length_take, ← List.take_eq_take_min]
  calc piece L s ++ s.drop (piece L s).length
    _ = s.take (piece L s).length ++ s.drop (piece L s).length := by rw [← hp]
    _ = s := List.take_append_drop _ _

theorem piece_ne_nil (hL : 2 ≤ L) (hs : s ≠ []) : piece L s ≠ [] := by
  intro hp
  have hl := congrArg List.length hp
  have hpos := List.length_pos_iff.mpr hs
  rw [piece, List.length_take, List.length_nil] at hl
  omega

/-- The first strings, and what is left after them, make up the stream. -/
theorem pieces_flatten (n : Nat) :
    ((List.range n).map fun k => piece L (rests L s k)).flatten ++ rests L s n = s := by
  induction n generalizing s with
  | zero => rfl
  | succ n ih =>
    rw [List.range_succ_eq_map, List.map_cons, List.map_map, List.flatten_cons, List.append_assoc]
    refine (congrArg (piece L s ++ ·) ?_).trans (piece_append_drop (L := L))
    exact ih

theorem rests_length (hL : 2 ≤ L) (n : Nat) : (rests L s n).length ≤ s.length - n := by
  induction n generalizing s with
  | zero => exact Nat.le_refl _
  | succ n ih =>
    refine Nat.le_trans (ih (s := s.drop (piece L s).length)) ?_
    rw [List.length_drop]
    by_cases hs : s = []
    · simp [hs]
    · have := List.length_pos_iff.mpr (piece_ne_nil hL hs)
      omega

-- ---------------------------------------------------------------------------
-- Short lines
-- ---------------------------------------------------------------------------

theorem seenFrom_prefix : seenFrom L k s <+: s := by
  induction s generalizing k with
  | nil => exact List.prefix_refl _
  | cons b s ih =>
    unfold seenFrom
    split
    · exact List.nil_prefix
    · exact (List.prefix_cons_inj b).mpr ih

theorem seenFrom_stop (h : L ≤ k) : seenFrom L k s = [] := by
  cases s with
  | nil => rfl
  | cons b s => exact if_pos h

theorem seenFrom_end (h : k < L) (hb : isEnd b) : seenFrom L k (b :: s) = b :: seenFrom L 0 s := by
  rw [seenFrom, if_neg (Nat.not_le.mpr h), if_pos hb]

theorem seenFrom_inner (h : k < L) (hb : isEnd b = false) :
    seenFrom L k (b :: s) = b :: seenFrom L (k + 1) s := by
  rw [seenFrom, if_neg (Nat.not_le.mpr h), hb, if_neg Bool.false_ne_true]

/-- With short lines everything is read. -/
theorem seenFrom_of_short (h : Short L (t ++ s)) (ht : ∀ b ∈ t, isEnd b = false)
    (hk : t.length ≤ L) : seenFrom L t.length s = s := by
  induction s generalizing t with
  | nil => rfl
  | cons b s ih =>
    have hlt : t.length < L := by
      by_contra hle
      have hn := h [] t (b :: s) rfl (Nat.le_antisymm hk (Nat.not_lt.mp hle)) ht
      cases hn
    by_cases hb : isEnd b
    · rw [seenFrom_end hlt hb]
      refine congrArg (b :: ·) (ih (t := []) (fun before run after he hl hr => ?_) nofun
        (Nat.zero_le _))
      refine h (t ++ b :: before) run after ?_ hl hr
      rw [List.nil_append] at he
      simp [he]
    · have hb := eq_false_of_ne_true hb
      have ht' : ∀ x ∈ t ++ [b], isEnd x = false := by
        intro x hx
        rcases List.mem_append.mp hx with hx | hx
        · exact ht x hx
        · rwa [List.mem_singleton.mp hx]
      have hlen : (t ++ [b]).length = t.length + 1 := List.length_append
      have hih := ih (t := t ++ [b]) (by rwa [List.append_assoc]) ht' (by omega)
      rw [hlen] at hih
      rw [seenFrom_inner hlt hb, hih]

/-- A line that is too long is not read to its end. -/
theorem seenFrom_run (hu : ∀ b ∈ u, isEnd b = false) (hk : L ≤ k + u.length) (hv : v ≠ []) :
    seenFrom L k (u ++ v) ≠ u ++ v := by
  induction u generalizing k with
  | nil =>
    rw [List.nil_append, seenFrom_stop (k := k) hk]
    exact hv.symm
  | cons b u ih =>
    rw [List.length_cons] at hk
    by_cases hle : L ≤ k
    · rw [seenFrom_stop hle]
      exact (List.cons_ne_nil b _).symm
    · rw [List.cons_append, seenFrom_inner (Nat.not_le.mp hle) (hu b List.mem_cons_self)]
      intro he
      exact ih (fun x hx => hu x (List.mem_cons_of_mem b hx)) (by omega) (List.cons.inj he).2

theorem seenFrom_suffix (h : seenFrom L k (u ++ v) = u ++ v) : ∃ k, seenFrom L k v = v := by
  induction u generalizing k with
  | nil => exact ⟨k, h⟩
  | cons b u ih =>
    rw [List.cons_append, seenFrom] at h
    split at h
    · cases h
    · exact ih (List.cons.inj h).2

theorem seen_eq_self : seen order L s = s ↔ (order = .lengthFirst → Short L s) := by
  cases order with
  | indexFirst => exact ⟨fun _ => nofun, fun _ => rfl⟩
  | lengthFirst =>
    constructor
    · intro h _ before run after he hl hr
      by_contra hne
      rw [seen, he, List.append_assoc] at h
      obtain ⟨k, hk⟩ := seenFrom_suffix h
      exact seenFrom_run hr (by omega) hne hk
    · intro h
      exact seenFrom_of_short (t := []) (h rfl) nofun (Nat.zero_le _)

/-- A line that ends in time is read, and the next one after it. -/
theorem seenFrom_line (hu : ∀ x ∈ u, isEnd x = false) (hb : isEnd b)
    (hk : k + u.length < L) : seenFrom L k (u ++ b :: v) = u ++ b :: seenFrom L 0 v := by
  induction u generalizing k with
  | nil => exact seenFrom_end hk hb
  | cons x u ih =>
    rw [List.length_cons] at hk
    rw [List.cons_append, seenFrom_inner (by omega) (hu x List.mem_cons_self),
      ih (fun y hy => hu y (List.mem_cons_of_mem x hy)) (by omega)]
    rfl

/-- As long as no line has ended and there is room, all is read. -/
theorem seenFrom_open (hu : ∀ x ∈ u, isEnd x = false) (hk : k + u.length ≤ L) :
    seenFrom L k (u ++ v) = u ++ seenFrom L (k + u.length) v := by
  induction u generalizing k with
  | nil => rfl
  | cons x u ih =>
    rw [List.length_cons] at hk
    rw [List.cons_append, seenFrom_inner (by omega) (hu x List.mem_cons_self),
      ih (fun y hy => hu y (List.mem_cons_of_mem x hy)) (by omega), List.length_cons,
      Nat.add_right_comm, Nat.add_assoc]
    rfl

end Lines

-- ---------------------------------------------------------------------------
-- One call
-- ---------------------------------------------------------------------------

namespace LineReader

open Lines

variable {order : ArgumentOrder} {chunk : Nat → Int} {L n : Nat} {r u : LineReader}
  {s : List UInt8}

theorem findIdx_line {line : List UInt8} {b : UInt8} (more : List UInt8)
    (hl : ∀ x ∈ line, isEnd x = false)
    (hb : isEnd b) : (line ++ b :: more).findIdx isEnd = line.length := by
  rw [List.findIdx_append, List.findIdx_eq_length.mpr hl, if_neg (Nat.lt_irrefl _),
    List.findIdx_cons, hb]
  exact Nat.zero_add _

/-- A line ends in the buffer, or it does not. -/
theorem line_or_open (buf : List UInt8) :
    (∀ x ∈ buf, isEnd x = false) ∨
      ∃ line b more, buf = line ++ b :: more ∧ (∀ x ∈ line, isEnd x = false) ∧ isEnd b := by
  induction buf with
  | nil => exact .inl nofun
  | cons a buf ih =>
    by_cases ha : isEnd a
    · exact .inr ⟨[], a, buf, rfl, nofun, ha⟩
    · have ha := eq_false_of_ne_true ha
      rcases ih with h | ⟨line, b, more, rfl, hl, hb⟩
      · exact .inl (List.forall_mem_cons.mpr ⟨ha, h⟩)
      · exact .inr ⟨a :: line, b, more, rfl, List.forall_mem_cons.mpr ⟨ha, hl⟩, hb⟩

/-- What `get_s` finds. -/
inductive Found (r : LineReader) : Prop
  | line (line : List UInt8) (b : UInt8) (more : List UInt8)
      (buffer : r.sBuffer = line ++ b :: more) (inner : ∀ x ∈ line, isEnd x = false)
      (ends : isEnd b)
      (ret : r.get_s = line.length + 1 ∨
        r.get_s = line.length + 2 ∧ b = CR ∧ ∃ more', more = LF :: more')
  | last (inner : ∀ x ∈ r.sBuffer, isEnd x = false) (eof : r.sBuffer_eof)
      (ret : r.get_s = r.sBuffer.length)
  | wanting (inner : ∀ x ∈ r.sBuffer, isEnd x = false) (more : r.sBuffer_eof = false)
      (ret : r.get_s = -1)

theorem get_s_found (r : LineReader) : Found r := by
  rcases line_or_open r.sBuffer with h | ⟨line, b, more, hbuf, hl, hb⟩
  · have hi := List.findIdx_eq_length.mpr h
    cases he : r.sBuffer_eof with
    | true => exact .last h he (by simp [get_s, hi, he])
    | false => exact .wanting h he (by simp [get_s, hi, he])
  · refine .line line b more hbuf hl hb ?_
    have hi := findIdx_line more hl hb
    have hlt : ¬ line.length = (line ++ b :: more).length := by simp
    unfold get_s
    simp only [hbuf, hi, hlt, if_false]
    split
    · split
      · exact .inl rfl
      · split
        · rename_i hcr _ hlf
          refine .inr ⟨rfl, ?_, ?_⟩
          · simpa using hcr
          · cases more with
            | nil => simp at hlf
            | cons x more => exact ⟨more, by simpa using hlf⟩
        · exact .inl rfl
    · exact .inl rfl

/-- What has not yet been returned of what is read. -/
def pending (order : ArgumentOrder) (L : Nat) (r : LineReader) : List UInt8 :=
  if r.sBuffer_eof then r.sBuffer else seen order L (r.sBuffer ++ r.rest)

/-- A reader in a call that asks for `L` bytes, after others that have asked for as many. -/
structure Ready (order : ArgumentOrder) (L : Nat) (r : LineReader) : Prop where
  room : r.sBuffer.length ≤ r.length
  full : order = .lengthFirst → r.sBuffer_eof = false → r.length = L
  noCrLf : NoCrLf (r.sBuffer ++ r.rest)
  noNul : 0 ∉ r.sBuffer ++ r.rest

/-- How much may still happen before `read_s` returns. -/
def work (r : LineReader) : Nat := r.rest.length + if r.sBuffer_eof then 0 else 1

/-- The next round of the loop. -/
def next (order : ArgumentOrder) (chunk : Nat → Int) (r : LineReader) : LineReader :=
  if (r.read order chunk).1 = 0 then { (r.read order chunk).2 with sBuffer_eof := true }
  else (r.read order chunk).2

/-- The next round takes from the stream what it puts into the buffer. -/
theorem next_eq (order : ArgumentOrder) (hc : ∀ k, 1 ≤ chunk k) (he : r.sBuffer_eof = false) :
    ¬ (r.read order chunk).1 < 0 ∧ ∃ got : Nat, got ≤ (chunk r.reads).toNat ∧
      got ≤ r.asked order ∧ got ≤ r.rest.length ∧ (got = 0 → r.asked order = 0 ∨ r.rest = []) ∧
      r.next order chunk = {
        sBuffer := r.sBuffer ++ r.rest.take got
        length := max r.length (r.sBuffer.length + 1)
        sBuffer_eof := decide (got = 0)
        rest := r.rest.drop got
        reads := r.reads + 1 } := by
  have hpos := hc r.reads
  have hneg : ¬ chunk r.reads < 0 := by omega
  have hread : (r.read order chunk).1 =
      (min (chunk r.reads).toNat (min (r.asked order) r.rest.length) : Nat) := by
    unfold read
    rw [if_neg hneg]
  refine ⟨by omega, min (chunk r.reads).toNat (min (r.asked order) r.rest.length), by omega,
    by omega, by omega, fun h => ?_, ?_⟩
  · have : r.asked order = 0 ∨ r.rest.length = 0 := by omega
    exact this.imp_right List.length_eq_zero_iff.mp
  · rw [next, hread]
    unfold read
    rw [if_neg hneg]
    by_cases hg : min (chunk r.reads).toNat (min (r.asked order) r.rest.length) = 0
    · simp [hg]
    · rw [if_neg (mt Int.natCast_eq_zero.mp hg)]
      simp [hg, he]

theorem asked_le (order : ArgumentOrder) (h : r.sBuffer.length ≤ r.length) :
    r.sBuffer.length + r.asked order ≤ max r.length (r.sBuffer.length + 1) := by
  cases order <;> simp only [asked] <;> omega

/-- Where there is nothing more to read, all that is seen is in the buffer. -/
theorem pending_of_end (hr : Ready order L r) (hi : ∀ x ∈ r.sBuffer, isEnd x = false)
    (he : r.sBuffer_eof = false) (h : r.asked order = 0 ∨ r.rest = []) :
    r.pending order L = r.sBuffer := by
  have hroom := hr.room
  rw [pending, he, if_neg Bool.false_ne_true]
  cases order with
  | lengthFirst =>
    have hfull := hr.full rfl he
    rw [seen, seenFrom_open hi (by omega)]
    rcases h with h | h
    · have hlen : L ≤ 0 + r.sBuffer.length := by
        rw [asked] at h
        omega
      rw [seenFrom_stop hlen, List.append_nil]
    · rw [h, seenFrom, List.append_nil]
  | indexFirst =>
    rcases h with h | h
    · rw [asked] at h
      omega
    · rw [seen, h, List.append_nil]

/-- Reading on changes nothing about what is pending. -/
theorem next_spec (hc : ∀ k, 1 ≤ chunk k) (hr : Ready order L r)
    (hi : ∀ x ∈ r.sBuffer, isEnd x = false) (he : r.sBuffer_eof = false) :
    ¬ (r.read order chunk).1 < 0 ∧ (r.next order chunk).work < r.work ∧
      Ready order L (r.next order chunk) ∧
      (r.next order chunk).pending order L = r.pending order L := by
  obtain ⟨hneg, got, -, hask, hrest, hzero, hnext⟩ := next_eq order hc he
  have hsum : r.sBuffer ++ r.rest.take got ++ r.rest.drop got = r.sBuffer ++ r.rest := by
    rw [List.append_assoc, List.take_append_drop]
  have hroom := asked_le order hr.room
  have hlen : (r.sBuffer ++ r.rest.take got).length = r.sBuffer.length + got := by
    rw [List.length_append, List.length_take, Nat.min_eq_left hrest]
  rw [hnext]
  refine ⟨hneg, ?_, ⟨Nat.le_trans (by rw [hlen]; omega) hroom, ?_, ?_, ?_⟩, ?_⟩
  · by_cases hg : got = 0
    · simp [work, he, hg]
    · simp only [work, he, List.length_drop, hg, decide_false]
      simp
      omega
  · rintro rfl hg
    have hfull := hr.full rfl he
    have hg : got ≠ 0 := of_decide_eq_false hg
    rw [asked] at hask
    change max r.length _ = L
    omega
  · exact hsum ▸ hr.noCrLf
  · exact hsum ▸ hr.noNul
  · by_cases hg : got = 0
    · rw [pending_of_end hr hi he (hzero hg)]
      simp [pending, hg]
    · simp only [pending, he, hsum, hg, decide_false, Bool.false_eq_true, if_false]

/-- A reader stays ready when a part of the buffer is returned. -/
theorem Ready.cut (hr : Ready order L r) (n : Nat) :
    Ready order L { r with sBuffer := r.sBuffer.drop n } := by
  have hsplit : r.sBuffer.take n ++ (r.sBuffer.drop n ++ r.rest) = r.sBuffer ++ r.rest := by
    rw [← List.append_assoc, List.take_append_drop]
  have hroom := hr.room
  refine ⟨?_, hr.full, ?_, fun hm => hr.noNul ?_⟩
  · change (r.sBuffer.drop n).length ≤ r.length
    rw [List.length_drop]
    omega
  · exact NoCrLf.right (hsplit ▸ hr.noCrLf)
  · rw [← hsplit]
    exact List.mem_append_right _ hm

/-- The string that is made of the buffer has all the bytes. -/
theorem Ready.string (hr : Ready order L r) (n : Nat) :
    (r.sBuffer.take n).takeWhile (· ≠ 0) = r.sBuffer.take n := by
  refine List.takeWhile_eq_self_iff.mpr fun b hb => decide_eq_true fun h0 => hr.noNul ?_
  rw [← h0]
  exact List.mem_append_left _ (List.mem_of_mem_take hb)

theorem readLoop_cut {m : Nat} (hr : Ready order L r) (hret : r.get_s = m) (hm : 0 < m) :
    readLoop order chunk L (n + 1) r =
      some (some (r.sBuffer.take (min m (L - 1))), { r with
        sBuffer := r.sBuffer.drop (min m (L - 1)) }) := by
  have hnat : r.get_s.toNat = m := by omega
  rw [readLoop, if_pos (by omega), hnat]
  exact congrArg (fun x => some (some x, _)) (hr.string _)

/-- A line in the buffer is the first that is pending. -/
theorem pending_line {line more : List UInt8} {b : UInt8} (hL : 2 ≤ L) (hr : Ready order L r)
    (hbuf : r.sBuffer = line ++ b :: more) (hi : ∀ x ∈ line, isEnd x = false) (hb : isEnd b) :
    ∃ tl, r.pending order L = line ++ b :: tl ∧
      pending order L { r with sBuffer := r.sBuffer.drop (min (line.length + 1) (L - 1)) } =
        (line ++ b :: tl).drop (min (line.length + 1) (L - 1)) := by
  unfold pending
  cases he : r.sBuffer_eof with
  | true =>
    rw [if_pos rfl, hbuf]
    exact ⟨more, rfl, rfl⟩
  | false =>
    have happ : r.sBuffer ++ r.rest = line ++ b :: (more ++ r.rest) := by
      rw [hbuf, List.append_assoc]
      rfl
    have hlen : line.length < r.sBuffer.length := by
      rw [hbuf]
      simp
    have hdrop : r.sBuffer.drop (min (line.length + 1) (L - 1)) ++ r.rest =
        (r.sBuffer ++ r.rest).drop (min (line.length + 1) (L - 1)) :=
      (List.drop_append_of_le_length (by omega)).symm
    rw [if_neg Bool.false_ne_true]
    simp only [Bool.false_eq_true, if_false, hdrop, happ]
    cases order with
    | indexFirst => exact ⟨more ++ r.rest, rfl, rfl⟩
    | lengthFirst =>
      have hroom := hr.room
      have hfull := hr.full rfl he
      refine ⟨seenFrom L 0 (more ++ r.rest), seenFrom_line hi hb (by omega), ?_⟩
      by_cases hl : line.length + 1 ≤ L - 1
      · have hd : ∀ tl, (line ++ b :: tl).drop (line.length + 1) = tl := fun tl => by
          rw [List.append_cons]
          exact List.drop_left' (by simp)
        rw [Nat.min_eq_left hl, hd, hd]
        rfl
      · have hmin : min (line.length + 1) (L - 1) = line.length := by omega
        rw [hmin, List.drop_left, List.drop_left]
        exact seenFrom_end (by omega) hb

/-- What a call returns, and what is pending after it. -/
def Returns (order : ArgumentOrder) (L : Nat) (r : LineReader)
    (res : Option (Option (List UInt8) × LineReader)) : Prop :=
  ∃ u, res = some (some (piece L (r.pending order L)), u) ∧ Ready order L u ∧
    u.pending order L = (r.pending order L).drop (piece L (r.pending order L)).length

/-- The loop returns the next piece of the stream. -/
theorem readLoop_spec (hL : 2 ≤ L) (hc : ∀ k, 1 ≤ chunk k) (hr : Ready order L r)
    (hf : r.work < n) : Returns order L r (readLoop order chunk L n r) := by
  induction n generalizing r with
  | zero => exact absurd hf (Nat.not_lt_zero _)
  | succ n ih =>
    cases get_s_found r with
    | wanting hi he hret =>
      obtain ⟨hneg, hwork, hr', hpend⟩ := next_spec hc hr hi he
      obtain ⟨u, hu⟩ := ih hr' (by omega)
      rw [readLoop, hret, if_neg (by decide), if_neg (by decide), if_neg hneg]
      rw [hpend] at hu
      exact ⟨u, hu⟩
    | last hi he hret =>
      have hpend : r.pending order L = r.sBuffer := by rw [pending, he, if_pos rfl]
      have hidx := List.findIdx_eq_length.mpr hi
      unfold Returns
      rw [hpend, piece, hidx]
      by_cases h0 : r.sBuffer = []
      · rw [readLoop, hret, if_neg (by simp [h0]), if_pos (by simp [h0]), h0]
        exact ⟨r, by simp, hr, by rw [hpend, h0, List.drop_nil]⟩
      · have hpos := List.length_pos_iff.mpr h0
        have hmin : r.sBuffer.take (min (r.sBuffer.length + 1) (L - 1)) =
            r.sBuffer.take (min r.sBuffer.length (L - 1)) := by
          rw [List.take_eq_take_iff]
          omega
        rw [readLoop_cut hr hret hpos, hmin]
        refine ⟨_, rfl, hr.cut _, ?_⟩
        rw [pending, if_pos he, List.length_take, Nat.min_eq_left (Nat.min_le_left ..)]
    | line line b more hbuf hi hb hret =>
      have hret : r.get_s = line.length + 1 := by
        refine hret.resolve_right ?_
        rintro ⟨-, rfl, more', rfl⟩
        exact hr.noCrLf.left line more' hbuf
      obtain ⟨tl, hpend, hnext⟩ := pending_line hL hr hbuf hi hb
      have hidx := findIdx_line tl hi hb
      have htake : ∀ tl, (line ++ b :: tl).take (min (line.length + 1) (L - 1)) =
          (line ++ [b]).take (min (line.length + 1) (L - 1)) := fun tl => by
        rw [List.append_cons, List.take_append_of_le_length]
        rw [List.length_append, List.length_singleton]
        exact Nat.min_le_left _ _
      unfold Returns
      rw [readLoop_cut hr (m := line.length + 1) (by omega) (Nat.succ_pos _), hpend, piece, hidx,
        hbuf, htake more, htake tl]
      refine ⟨_, rfl, hbuf ▸ hr.cut _, (hbuf ▸ hnext).trans ?_⟩
      congr 1
      simp

theorem read_s_spec (hL : 2 ≤ L) (hc : ∀ k, 1 ≤ chunk k)
    (hr : Ready order L { r with length := max r.length L }) :
    Returns order L r (r.read_s order chunk L) := by
  apply readLoop_spec hL hc hr
  unfold work
  split <;> simp

/-- The next call finds the array long enough. -/
theorem Ready.again (hr : Ready order L r) :
    Ready order L { r with length := max r.length L } := by
  refine ⟨Nat.le_trans hr.room (Nat.le_max_left ..), fun ho he => ?_, hr.noCrLf, hr.noNul⟩
  change max r.length L = L
  rw [hr.full ho he, Nat.max_self]

/-- The calls return the pieces of the stream. -/
theorem strings_spec (hL : 2 ≤ L) (hc : ∀ k, 1 ≤ chunk k)
    (hr : Ready order L { r with length := max r.length L }) (k : Nat) :
    strings order chunk L r k = some (some (piece L (rests L (r.pending order L) k))) := by
  obtain ⟨u, hu, hready, hpend⟩ := read_s_spec hL hc hr
  induction k generalizing r u with
  | zero => rw [strings, hu]; rfl
  | succ k ih =>
    obtain ⟨v, hv, hready', hpend'⟩ := read_s_spec hL hc hready.again
    rw [strings, hu, rests, ← hpend]
    exact ih hready.again v hv hready' hpend'

theorem strings_fresh (hL : 2 ≤ L) (hc : ∀ k, 1 ≤ chunk k) (hn : NoCrLf s) (h0 : 0 ∉ s)
    (k : Nat) :
    strings order chunk L (fresh s) k = some (some (piece L (rests L (seen order L s) k))) :=
  strings_spec (r := fresh s) hL hc
    ⟨Nat.zero_le _, fun _ _ => Nat.max_eq_right (Nat.zero_le L), hn, h0⟩ k

-- ---------------------------------------------------------------------------
-- One byte at a time
-- ---------------------------------------------------------------------------

/-- Only the last byte of the buffer may end a line. -/
def Narrow (r : LineReader) : Prop := ∀ x ∈ r.sBuffer.dropLast, isEnd x = false

theorem Narrow.next (hi : ∀ x ∈ r.sBuffer, isEnd x = false) (he : r.sBuffer_eof = false) :
    Narrow (r.next order fun _ => 1) := by
  obtain ⟨-, got, hgot, -, -, -, hnext⟩ :=
    next_eq order (fun _ => Int.le_refl 1) he
  have hgot : got ≤ 1 := hgot
  intro x hx
  rw [hnext] at hx
  change x ∈ (r.sBuffer ++ r.rest.take got).dropLast at hx
  cases htake : r.rest.take got with
  | nil =>
    rw [htake, List.append_nil] at hx
    exact hi x (List.dropLast_subset _ hx)
  | cons b tl =>
    have htl : tl = [] := by
      have hlen := congrArg List.length htake
      rw [List.length_take, List.length_cons] at hlen
      exact List.length_eq_zero_iff.mp (by omega)
    rw [htake, htl, List.dropLast_concat] at hx
    exact hi x hx

/-- A part of a narrow buffer has no line feed after a carriage return. -/
theorem Narrow.take (hr : Narrow r) (n : Nat) : NoCrLf (r.sBuffer.take n) := by
  rintro before after he
  have hsplit : r.sBuffer = before ++ CR :: LF :: (after ++ r.sBuffer.drop n) := by
    calc r.sBuffer
      _ = r.sBuffer.take n ++ r.sBuffer.drop n := (List.take_append_drop ..).symm
      _ = before ++ CR :: LF :: (after ++ r.sBuffer.drop n) := by rw [he]; simp
  have hcr : isEnd CR = false := by
    apply hr
    rw [hsplit, List.dropLast_append_of_ne_nil (List.cons_ne_nil _ _), List.dropLast_cons_cons]
    simp
  exact absurd hcr (by decide)

theorem Narrow.cut (hr : Narrow r) (n : Nat) :
    Narrow { r with sBuffer := r.sBuffer.drop n } := by
  intro x hx
  change x ∈ (r.sBuffer.drop n).dropLast at hx
  by_cases hnil : r.sBuffer.drop n = []
  · rw [hnil] at hx
    cases hx
  · apply hr
    rw [← List.take_append_drop n r.sBuffer, List.dropLast_append_of_ne_nil hnil]
    exact List.mem_append_right _ hx

theorem readLoop_narrow {x : Option (List UInt8)} (hr : Narrow r)
    (h : readLoop order (fun _ => 1) L n r = some (x, u)) :
    Narrow u ∧ ∀ str, x = some str → NoCrLf str := by
  induction n generalizing r with
  | zero => cases h
  | succ n ih =>
    by_cases hpos : 0 < r.get_s
    · rw [readLoop, if_pos hpos] at h
      cases h
      refine ⟨hr.cut _, ?_⟩
      rintro str ⟨⟩
      apply NoCrLf.left (t := List.dropWhile (· ≠ 0) _)
      rw [List.takeWhile_append_dropWhile]
      exact hr.take _
    · cases get_s_found r with
      | line line b more hbuf hi hb hret => omega
      | last hi he hret =>
        rw [readLoop, if_neg hpos, if_pos (by omega)] at h
        cases h
        refine ⟨hr, ?_⟩
        rintro str ⟨⟩
        exact fun before after he => by simp at he
      | wanting hi he hret =>
        obtain ⟨hneg, -⟩ :=
          next_eq order (fun _ => Int.le_refl 1) he
        rw [readLoop, hret, if_neg (by decide), if_neg (by decide), if_neg hneg] at h
        exact ih (Narrow.next hi he) h

/-- When the bytes come one by one, no string has a line feed after a carriage return. -/
theorem strings_narrow {x : List UInt8} {k : Nat} (hr : Narrow r)
    (h : strings order (fun _ => 1) L r k = some (some x)) : NoCrLf x := by
  induction k generalizing r with
  | zero =>
    obtain ⟨⟨y, u⟩, hread, hy⟩ := Option.map_eq_some_iff.mp h
    exact (readLoop_narrow (r := { r with length := max r.length L }) hr hread).2 x hy
  | succ k ih =>
    obtain ⟨⟨y, u⟩, hread, hrest⟩ := Option.bind_eq_some_iff.mp h
    exact ih (readLoop_narrow (r := { r with length := max r.length L }) hr hread).1 hrest

-- ---------------------------------------------------------------------------
-- The strings of a stream do not depend on the chunks
-- ---------------------------------------------------------------------------

/-- `read_s` splits the stream into lines, however `read` delivers it. -/
structure Splits (order : ArgumentOrder) (L : Nat) (s : List UInt8) : Prop where
  same : ∀ chunk chunk' : Nat → Int, (∀ k, 1 ≤ chunk k) → (∀ k, 1 ≤ chunk' k) → ∀ k,
    strings order chunk L (fresh s) k = strings order chunk' L (fresh s) k
  whole : ∀ chunk : Nat → Int, (∀ k, 1 ≤ chunk k) → ∃ xs : List (List UInt8),
    xs.flatten = s ∧ [] ∉ xs ∧
      ∀ k, strings order chunk L (fresh s) k = some (some (xs[k]?.getD []))
  crLf : ∀ chunk : Nat → Int, (∀ k, 1 ≤ chunk k) → ∀ before line after,
    s = before ++ line ++ CR :: LF :: after → (∀ b ∈ before.getLast?, isEnd b) →
      (∀ b ∈ line, isEnd b = false) →
        ∃ k, strings order chunk L (fresh s) k = some (some (line ++ [CR, LF]))

theorem rests_add (L m k : Nat) (s : List UInt8) :
    rests L s (m + k) = rests L (rests L s m) k := by
  induction m generalizing s with
  | zero => rw [Nat.zero_add, rests]
  | succ m ih => rw [Nat.add_right_comm, rests, ih, rests]

theorem rests_nil (L k : Nat) : rests L [] k = [] := by
  induction k with
  | zero => rfl
  | succ k ih => rw [rests, List.drop_nil, ih]

/-- The pieces of a stream are its lines until there is nothing left. -/
theorem pieces (hL : 2 ≤ L) (s : List UInt8) : ∃ xs : List (List UInt8),
    xs.flatten = s ∧ [] ∉ xs ∧ ∀ k, piece L (rests L s k) = xs[k]?.getD [] := by
  have hend : ∃ n, rests L s n = [] := by
    have hlen := rests_length (s := s) hL s.length
    rw [Nat.sub_self] at hlen
    exact ⟨s.length, List.length_eq_zero_iff.mp (Nat.le_zero.mp hlen)⟩
  obtain ⟨n, hn, hlt⟩ : ∃ n, rests L s n = [] ∧ ∀ k < n, rests L s k ≠ [] :=
    ⟨Nat.find hend, Nat.find_spec hend, fun k hk => Nat.find_min hend hk⟩
  refine ⟨(List.range n).map fun k => piece L (rests L s k), ?_, ?_, fun k => ?_⟩
  · have hflat := pieces_flatten (L := L) (s := s) n
    rwa [hn, List.append_nil] at hflat
  · intro hmem
    obtain ⟨k, hk, hnil⟩ := List.mem_map.mp hmem
    exact piece_ne_nil hL (hlt k (List.mem_range.mp hk)) hnil
  · by_cases hk : k < n
    · simp [hk]
    · have hrest : rests L s k = [] := by
        rw [← Nat.add_sub_cancel' (Nat.not_lt.mp hk), rests_add, hn, rests_nil]
      rw [hrest, List.getElem?_eq_none (by simp; omega)]
      simp [piece]

/-- What comes before a byte ends with the unfinished line. -/
theorem line_start (s : List UInt8) : ∃ before line, s = before ++ line ∧
    (∀ b ∈ before.getLast?, isEnd b) ∧ ∀ b ∈ line, isEnd b = false := by
  induction s using List.reverseRecOn with
  | nil => exact ⟨[], [], rfl, nofun, nofun⟩
  | append_singleton s b ih =>
    obtain ⟨before, line, rfl, hb, hl⟩ := ih
    by_cases he : isEnd b
    · refine ⟨before ++ line ++ [b], [], (List.append_nil _).symm, ?_, nofun⟩
      simpa using he
    · refine ⟨before, line ++ [b], List.append_assoc .., hb, ?_⟩
      have he := eq_false_of_ne_true he
      intro x hx
      rcases List.mem_append.mp hx with hx | hx
      · exact hl x hx
      · rwa [List.mem_singleton.mp hx]

theorem Splits.noCrLf (h : Splits order L s) : NoCrLf s := by
  intro before after hs
  obtain ⟨before, line, rfl, hb, hl⟩ := line_start before
  obtain ⟨k, hk⟩ := h.crLf (fun _ => 1) (fun _ => Int.le_refl 1) before line after hs hb hl
  exact strings_narrow (r := fresh s) nofun hk line [] rfl

theorem Splits.seen_eq (hL : 2 ≤ L) (h0 : 0 ∉ s) (h : Splits order L s) :
    seen order L s = s := by
  obtain ⟨xs, hflat, -, hxs⟩ := h.whole (fun _ => 1) (fun _ => Int.le_refl 1)
  have hpieces : xs = (List.range xs.length).map fun k => piece L (rests L (seen order L s) k) := by
    apply List.ext_getElem
    · rw [List.length_map, List.length_range]
    · intro k hk hk'
      have hone := hxs k
      rw [strings_fresh hL (fun _ => Int.le_refl 1) h.noCrLf h0, List.getElem?_eq_getElem hk] at hone
      simpa using (Option.some.inj (Option.some.inj hone)).symm
  have hprefix : seen order L s <+: s := by
    cases order with
    | lengthFirst => exact seenFrom_prefix
    | indexFirst => exact List.prefix_refl s
  have hall := pieces_flatten (L := L) (s := seen order L s) xs.length
  rw [← hpieces, hflat] at hall
  exact hprefix.eq_of_length_le (hall ▸ by simp)

/-- `read_s` splits a stream into lines however it is cut into chunks, if and only if no
carriage return is followed by a line feed and, where the length of the array is taken before
the array is made longer, no line comes to the length that is asked for. -/
theorem lines_law (hL : 2 ≤ L) (h0 : 0 ∉ s) :
    Splits order L s ↔ NoCrLf s ∧ (order = .lengthFirst → Short L s) := by
  constructor
  · intro h
    exact ⟨h.noCrLf, seen_eq_self.mp (h.seen_eq hL h0)⟩
  · rintro ⟨hn, hshort⟩
    have hstrings : ∀ chunk : Nat → Int, (∀ k, 1 ≤ chunk k) → ∀ k,
        strings order chunk L (fresh s) k = some (some (piece L (rests L s k))) := by
      intro chunk hc k
      rw [strings_fresh hL hc hn h0, seen_eq_self.mpr hshort]
    refine ⟨fun c c' hc hc' k => ?_, fun c hc => ?_, fun c hc before line after he hb hl => ?_⟩
    · rw [hstrings c hc, hstrings c' hc']
    · obtain ⟨xs, hflat, hne, hxs⟩ := pieces hL s
      exact ⟨xs, hflat, hne, fun k => by rw [hstrings c hc, hxs]⟩
    · exact absurd he (hn (before ++ line) after)

theorem lines_split : Splits .lengthFirst 9 [97, LF, 98] := by
  apply (lines_law (by decide) (by decide)).mpr
  refine ⟨fun before after he => ?_, fun _ before run after he hl _ => ?_⟩
  · have hmem : CR ∈ [97, LF, 98] := by
      rw [he]
      simp
    exact absurd hmem (by decide)
  · have hlen := congrArg List.length he
    simp at hlen
    omega

/-- A line that ends with a carriage return and a line feed is torn where a chunk ends between
the two, and of a line that is too long the rest is lost. -/
theorem lines_torn :
    ¬ Splits .indexFirst 9 [97, CR, LF] ∧ ¬ Splits .lengthFirst 9 [97, CR, LF] ∧
      ¬ Splits .lengthFirst 2 [97, 97, 97] := by
  refine ⟨fun h => ?_, fun h => ?_, fun h => ?_⟩
  · exact absurd (h.same (fun _ => 1) (fun _ => 3) (fun _ => by decide) (fun _ => by decide) 0) (by decide)
  · exact absurd (h.same (fun _ => 1) (fun _ => 3) (fun _ => by decide) (fun _ => by decide) 0) (by decide)
  · exact absurd (h.seen_eq (by decide) (by decide)) (by decide)

end LineReader

end TinyState
