import TinyState.Containers.StringTree
import TinyState.Lib.Rounds

/-!
# stdString: percent coding

The bytes that are not written as they are become triples `%XX`. What has been encoded is
decoded to what it was, and both stay in the buffers that they make. The decoder believes that
two characters follow each '%', and goes past the end of a text where they do not.
-/

namespace TinyState

open Rounds (Returns)

namespace StdString

/-- What lies in the array of a string. -/
def memory (s : List StrChar) : List UInt8 := s.map Subtype.val ++ [0]

/-- `stdString(const char *)`. -/
def ofMemory (bytes : List UInt8) : List StrChar := StdStringTree.chars bytes

/-- Bytes are written into a new buffer; `none` if they go past its end. -/
def fill (size : Nat) (bytes : List UInt8) : Option (List UInt8) :=
  if bytes.length ≤ size then some (bytes ++ List.replicate (size - bytes.length) 0) else none

def unreserved (ch : UInt8) : Bool :=
  (48 ≤ ch && ch ≤ 57) || (97 ≤ ch && ch ≤ 122) || (65 ≤ ch && ch ≤ 90) ||
    ch == 45 || ch == 46 || ch == 95 || ch == 126

/-- "0123456789ABCDEF". -/
def digit : List UInt8 := [48, 49, 50, 51, 52, 53, 54, 55, 56, 57, 65, 66, 67, 68, 69, 70]

/-- What is written for one character; 37 is '%'. -/
def encodeChar (ch : UInt8) : List UInt8 :=
  if unreserved ch then [ch]
  else [37, digit.getD ((ch >>> 4) &&& 0xf).toNat 0, digit.getD (ch &&& 0xf).toNat 0]

/-- The loop of `percent_encode`: what is written. -/
def encodeLoop : List StrChar → List UInt8
  | [] => []
  | c :: p1 => encodeChar c.1 ++ encodeLoop p1

def percent_encode (s : List StrChar) : Option (List StrChar) :=
  (fill (s.length * 3 + 1) (encodeLoop s ++ [0])).map ofMemory

/-- The digits that the decoder knows. A `char` from 0x80 on is negative there, and no digit
either way. -/
def hexDigit (ch : UInt8) : Option UInt8 :=
  if 48 ≤ ch && ch ≤ 57 then some (ch - 48)
  else if 97 ≤ ch && ch ≤ 102 then some (ch - 97 + 10)
  else if 65 ≤ ch && ch ≤ 70 then some (ch - 65 + 10)
  else none

/-- The loop of `percent_decode`: what is written, or `none` where it reads past the array. -/
def decodeLoop : List UInt8 → Option (List UInt8)
  | [] => none
  | c :: p1 =>
    if c = 0 then some []
    else if c ≠ 37 then (decodeLoop p1).map (c :: ·)
    else match p1 with
      | [] => none
      | ch :: p1 => match hexDigit ch with
        | none => (decodeLoop p1).map (ch :: ·)
        | some result => match p1 with
          | [] => none
          | ch :: p1 => match hexDigit ch with
            | none => (decodeLoop p1).map (ch :: ·)
            | some d => (decodeLoop p1).map ((((result <<< 4) &&& 0xf0) + d) :: ·)

def percent_decode (s : List StrChar) : Option (List StrChar) := do
  let bytes ← decodeLoop (memory s)
  let buffer ← fill (s.length + 1) (bytes ++ [0])
  some (ofMemory buffer)

/-- Unreserved characters, and triples with upper-case digits. -/
inductive Escaped : List UInt8 → Prop
  | nil : Escaped []
  | plain {ch rest} : unreserved ch → Escaped rest → Escaped (ch :: rest)
  | triple {hi lo rest} : hi ∈ digit → lo ∈ digit → Escaped rest → Escaped (37 :: hi :: lo :: rest)

variable {s : List StrChar} {ch : UInt8} {bytes rest : List UInt8}

-- ---------------------------------------------------------------------------
-- One character
-- ---------------------------------------------------------------------------

/-- A property of a byte that can be tested on all of them. -/
theorem forall_byte {P : UInt8 → Prop} [DecidablePred P]
    (h : (List.range 256).all (fun n => decide (P (UInt8.ofNat n))) = true) (ch : UInt8) :
    P ch := by
  have hlt : ch.toNat < 256 := ch.toNat_lt
  have hp := List.all_eq_true.mp h ch.toNat (List.mem_range.mpr hlt)
  rw [UInt8.ofNat_toNat] at hp
  exact of_decide_eq_true hp

theorem unreserved_ne (h : unreserved ch) : ch ≠ 0 ∧ ch ≠ 37 := by
  constructor
  all_goals
    rintro rfl
    cases h

theorem digits_halves (ch : UInt8) :
    (digit.getD ((ch >>> 4) &&& 0xf).toNat 0 ∈ digit ∧
        hexDigit (digit.getD ((ch >>> 4) &&& 0xf).toNat 0) = some (ch >>> 4)) ∧
      (digit.getD (ch &&& 0xf).toNat 0 ∈ digit ∧
        hexDigit (digit.getD (ch &&& 0xf).toNat 0) = some (ch &&& 0xf)) ∧
      (((ch >>> 4) <<< 4) &&& 0xf0) + (ch &&& 0xf) = ch := by
  refine forall_byte (P := fun ch => (digit.getD ((ch >>> 4) &&& 0xf).toNat 0 ∈ digit ∧
      hexDigit (digit.getD ((ch >>> 4) &&& 0xf).toNat 0) = some (ch >>> 4)) ∧
    (digit.getD (ch &&& 0xf).toNat 0 ∈ digit ∧
      hexDigit (digit.getD (ch &&& 0xf).toNat 0) = some (ch &&& 0xf)) ∧
    (((ch >>> 4) <<< 4) &&& 0xf0) + (ch &&& 0xf) = ch) ?_ ch
  decide +kernel

theorem digit_high (ch : UInt8) :
    digit.getD ((ch >>> 4) &&& 0xf).toNat 0 ∈ digit ∧
      hexDigit (digit.getD ((ch >>> 4) &&& 0xf).toNat 0) = some (ch >>> 4) :=
  (digits_halves ch).1

theorem digit_low (ch : UInt8) :
    digit.getD (ch &&& 0xf).toNat 0 ∈ digit ∧
      hexDigit (digit.getD (ch &&& 0xf).toNat 0) = some (ch &&& 0xf) :=
  (digits_halves ch).2.1

theorem halves (ch : UInt8) : (((ch >>> 4) <<< 4) &&& 0xf0) + (ch &&& 0xf) = ch :=
  (digits_halves ch).2.2

theorem encodeChar_escaped (h : Escaped rest) (ch : UInt8) : Escaped (encodeChar ch ++ rest) := by
  unfold encodeChar
  split
  · next hu => exact .plain hu h
  · exact .triple (digit_high ch).1 (digit_low ch).1 h

theorem length_encodeChar (ch : UInt8) :
    1 ≤ (encodeChar ch).length ∧ (encodeChar ch).length ≤ 3 := by
  unfold encodeChar
  split
  · exact ⟨Nat.le_refl 1, Nat.le_add_right 1 2⟩
  · exact ⟨Nat.le_add_left 1 2, Nat.le_refl 3⟩

theorem digit_ne_zero : 0 ∉ digit := by decide

theorem encodeChar_ne_zero (h : ch ≠ 0) : 0 ∉ encodeChar ch := by
  unfold encodeChar
  split
  · exact fun hm => h (List.mem_singleton.mp hm).symm
  · intro hm
    rcases List.mem_cons.mp hm with h37 | hm
    · cases h37
    · rcases List.mem_cons.mp hm with hh | hm
      · exact digit_ne_zero (hh ▸ (digit_high ch).1)
      · exact digit_ne_zero (List.mem_singleton.mp hm ▸ (digit_low ch).1)

/-- The decoder makes the character again. -/
theorem decodeLoop_encodeChar (ch : UInt8) :
    decodeLoop (encodeChar ch ++ rest) = (decodeLoop rest).map (ch :: ·) := by
  unfold encodeChar
  split
  · next hu =>
    obtain ⟨h0, h37⟩ := unreserved_ne hu
    rw [List.singleton_append, decodeLoop.eq_def]
    simp [h0, h37]
  · rw [List.cons_append, List.cons_append, List.singleton_append, decodeLoop.eq_def]
    simp only [(digit_high ch).2, (digit_low ch).2, halves]
    rfl

-- ---------------------------------------------------------------------------
-- The string
-- ---------------------------------------------------------------------------

/-- The characters of the bytes before the NUL. -/
theorem ofMemory_append (h : 0 ∉ bytes) :
    (ofMemory (bytes ++ 0 :: rest)).map Subtype.val = bytes := by
  induction bytes with
  | nil => rfl
  | cons c bytes ih =>
    obtain ⟨hc, hb⟩ := not_or.mp (List.mem_cons.not.mp h)
    have hc : c ≠ 0 := Ne.symm hc
    simp only [ofMemory, List.cons_append, StdStringTree.chars, dif_pos hc, List.map_cons]
    exact congrArg (c :: ·) (ih hb)

theorem fill_some {size : Nat} (hl : bytes.length < size) :
    ∃ rest, fill size (bytes ++ [0]) = some (bytes ++ 0 :: rest) := by
  refine ⟨List.replicate (size - (bytes ++ [0]).length) 0, ?_⟩
  rw [fill, if_pos (by rw [List.length_append]; exact hl), List.append_assoc]
  rfl

theorem encodeLoop_ne_zero (s : List StrChar) : 0 ∉ encodeLoop s := by
  induction s with
  | nil => exact List.not_mem_nil
  | cons c s ih =>
    rw [encodeLoop, List.mem_append]
    exact fun hm => hm.elim (encodeChar_ne_zero c.2) ih

theorem encodeLoop_escaped (s : List StrChar) : Escaped (encodeLoop s) := by
  induction s with
  | nil => exact .nil
  | cons c s ih => exact encodeChar_escaped ih c.1

theorem length_encodeLoop (s : List StrChar) :
    s.length ≤ (encodeLoop s).length ∧ (encodeLoop s).length ≤ s.length * 3 := by
  induction s with
  | nil => exact ⟨Nat.le_refl _, Nat.le_refl _⟩
  | cons c s ih =>
    have hc := length_encodeChar c.1
    rw [encodeLoop, List.length_append, List.length_cons]
    omega

theorem decodeLoop_encodeLoop (s : List StrChar) :
    decodeLoop (encodeLoop s ++ [0]) = some (s.map Subtype.val) := by
  induction s with
  | nil => simp [encodeLoop, decodeLoop]
  | cons c s ih =>
    rw [encodeLoop, List.append_assoc, decodeLoop_encodeChar, ih]
    rfl

theorem memory_ne_zero (s : List StrChar) : 0 ∉ s.map Subtype.val := by
  intro hm
  obtain ⟨c, -, hc⟩ := List.mem_map.mp hm
  exact c.2 hc

/-- One turn of the loop of `percent_decode` in raw memory: where it leaves `p1`, and what it
writes; `none` at the NUL. -/
def decodeTurn (m : Nat → UInt8) (p1 : Nat) : Option (Nat × UInt8) :=
  if m p1 = 0 then none
  else if m p1 ≠ 37 then some (p1 + 1, m p1)
  else match hexDigit (m (p1 + 1)) with
    | none => some (p1 + 2, m (p1 + 1))
    | some result => match hexDigit (m (p1 + 2)) with
      | none => some (p1 + 3, m (p1 + 2))
      | some d => some (p1 + 3, ((result <<< 4) &&& 0xf0) + d)

/-- The places that have been read, and what has been written. -/
structure Decoded where
  read : List Nat
  written : List UInt8

/-- The loop, with a bound on its turns. A turn reads the places that `p1` goes past. -/
def decodeRun (m : Nat → UInt8) : Nat → Nat → Decoded → Option Decoded
  | 0, _, _ => none
  | fuel + 1, p1, d =>
    match decodeTurn m p1 with
    | none => some ⟨d.read ++ [p1], d.written ++ [0]⟩
    | some (next, ch) =>
      decodeRun m fuel next ⟨d.read ++ List.range' p1 (next - p1), d.written ++ [ch]⟩

/-- A string in memory, and what lies beyond its NUL. -/
def lay (s : List StrChar) (beyond : Nat → UInt8) (i : Nat) : UInt8 :=
  (memory s)[i]?.getD (beyond i)

/-- The decoder comes to an end, stays in the string, and has room for what it writes. -/
def Safe (s : List StrChar) (beyond : Nat → UInt8) : Prop :=
  ∃ d, Returns (fun fuel => decodeRun (lay s beyond) fuel 0 ⟨[], []⟩) d ∧
    (∀ i ∈ d.read, i ≤ s.length) ∧ d.written.length ≤ s.length + 1

/-- Cut from the left into characters, pairs of '%' and what is no digit, and triples of '%',
a digit and any character, a text leaves nothing over. -/
inductive Complete : List UInt8 → Prop
  | nil : Complete []
  | plain {ch : UInt8} {rest : List UInt8} : ch ≠ 37 → Complete rest → Complete (ch :: rest)
  | pair {ch : UInt8} {rest : List UInt8} : hexDigit ch = none → Complete rest →
      Complete (37 :: ch :: rest)
  | triple {hi lo : UInt8} {rest : List UInt8} : hexDigit hi ≠ none → Complete rest →
      Complete (37 :: hi :: lo :: rest)

/-- The bytes lie at `p`. -/
def Lies (m : Nat → UInt8) (p : Nat) : List UInt8 → Prop
  | [] => True
  | c :: l => m p = c ∧ Lies m (p + 1) l

variable {m : Nat → UInt8} {p fuel next : Nat} {d d' : Decoded} {c hi lo : UInt8}
  {beyond : Nat → UInt8}

theorem hexDigit_zero : hexDigit 0 = none := rfl

theorem turn_end (h : m p = 0) : decodeTurn m p = none := if_pos h

theorem turn_plain (h0 : m p ≠ 0) (h37 : m p ≠ 37) : decodeTurn m p = some (p + 1, m p) := by
  simp [decodeTurn, h0, h37]

theorem turn_pair (h37 : m p = 37) (hd : hexDigit (m (p + 1)) = none) :
    decodeTurn m p = some (p + 2, m (p + 1)) := by
  simp [decodeTurn, h37, hd]

/-- Whatever comes behind '%' and a digit, it is read and a byte is written. -/
theorem turn_triple (h37 : m p = 37) (hd : hexDigit (m (p + 1)) ≠ none) :
    ∃ ch, decodeTurn m p = some (p + 3, ch) ∧ ∀ rest,
      decodeLoop (37 :: m (p + 1) :: m (p + 2) :: rest) = (decodeLoop rest).map (ch :: ·) := by
  obtain ⟨result, hr⟩ := Option.ne_none_iff_exists'.mp hd
  cases hl : hexDigit (m (p + 2)) with
  | none =>
    refine ⟨m (p + 2), by simp [decodeTurn, h37, hr, hl], fun rest => ?_⟩
    rw [decodeLoop.eq_def]
    simp [hr, hl]
  | some low =>
    refine ⟨((result <<< 4) &&& 0xf0) + low, by simp [decodeTurn, h37, hr, hl], fun rest => ?_⟩
    rw [decodeLoop.eq_def]
    simp [hr, hl]

theorem run_end (h : decodeTurn m p = none) :
    Returns (fun fuel => decodeRun m fuel p d) ⟨d.read ++ [p], d.written ++ [0]⟩ := by
  apply Returns.done rfl
  simp [decodeRun, h]

theorem run_turn (h : decodeTurn m p = some (next, c))
    (hr : Returns (fun fuel => decodeRun m fuel next
      ⟨d.read ++ List.range' p (next - p), d.written ++ [c]⟩) d') :
    Returns (fun fuel => decodeRun m fuel p d) d' := by
  apply hr.step rfl
  simp [decodeRun, h]

/-- The part of a run that begins at `p`, with a text behind `p` that is decoded to `out`. -/
structure Decodes (m : Nat → UInt8) (p : Nat) (bytes : List UInt8) (d d' : Decoded) : Prop where
  returns : Returns (fun fuel => decodeRun m fuel p d) d'
  read : ∀ i ∈ d'.read, i ∈ d.read ∨ i ≤ p + bytes.length
  written : ∃ out, decodeLoop (bytes ++ [0]) = some out ∧ d'.written = d.written ++ out ++ [0] ∧
    out.length ≤ bytes.length

/-- A turn that reads a whole piece, and the turns behind it. -/
theorem Decodes.turn (piece : List UInt8) (ht : decodeTurn m p = some (p + piece.length, c))
    (h0 : piece ≠ []) (hl : ∀ rest, decodeLoop (piece ++ rest) = (decodeLoop rest).map (c :: ·))
    (h : Decodes m (p + piece.length) bytes
      ⟨d.read ++ List.range' p piece.length, d.written ++ [c]⟩ d') :
    Decodes m p (piece ++ bytes) d d' where
  returns := by
    apply run_turn ht
    rw [Nat.add_sub_cancel_left]
    exact h.returns
  read i hi := by
    rw [List.length_append]
    rcases h.read i hi with hm | hm
    · rcases List.mem_append.mp hm with hm | hm
      · exact .inl hm
      · have hm := List.mem_range'_1.mp hm
        exact .inr (by omega)
    · exact .inr (by omega)
  written := by
    obtain ⟨out, ho, hw, hlen⟩ := h.written
    refine ⟨c :: out, ?_, ?_, ?_⟩
    · rw [List.append_assoc, hl, ho]
      rfl
    · rw [hw]
      simp
    · have hpos := List.length_pos_of_ne_nil h0
      rw [List.length_append, List.length_cons]
      omega

theorem Complete.decodes (h : Complete bytes) (hz : 0 ∉ bytes) (hm : Lies m p (bytes ++ [0]))
    (d : Decoded) : ∃ d', Decodes m p bytes d d' := by
  induction h generalizing p d with
  | nil =>
    refine ⟨_, run_end (turn_end hm.1), fun i hi => ?_, [], rfl, by simp, Nat.le_refl 0⟩
    rcases List.mem_append.mp hi with hi | hi
    · exact .inl hi
    · exact .inr (Nat.le_of_eq (List.mem_singleton.mp hi))
  | @plain ch rest h37 _ ih =>
    rw [List.mem_cons, not_or] at hz
    obtain ⟨hc, hrest⟩ := hm
    obtain ⟨d', h⟩ := ih hz.2 hrest ⟨d.read ++ List.range' p 1, d.written ++ [ch]⟩
    have h0 : ch ≠ 0 := Ne.symm hz.1
    refine ⟨d', .turn [ch] ?_ nofun (fun rest => ?_) h⟩
    · rw [turn_plain (hc ▸ h0) (hc ▸ h37), hc]
      rfl
    · rw [List.singleton_append, decodeLoop.eq_def]
      simp [h0, h37]
  | @pair ch rest hd _ ih =>
    simp only [List.mem_cons, not_or] at hz
    obtain ⟨hc, hc', hrest⟩ := hm
    obtain ⟨d', h⟩ := ih hz.2.2 hrest ⟨d.read ++ List.range' p 2, d.written ++ [ch]⟩
    refine ⟨d', .turn [37, ch] ?_ nofun (fun rest => ?_) h⟩
    · rw [turn_pair hc (hc' ▸ hd), hc']
      rfl
    · rw [List.cons_append, List.singleton_append, decodeLoop.eq_def]
      simp [hd]
  | @triple hi lo rest hd _ ih =>
    simp only [List.mem_cons, not_or] at hz
    obtain ⟨hc, hhi, hlo, hrest⟩ := hm
    obtain ⟨ch, ht, hl⟩ := turn_triple hc (hhi ▸ hd)
    obtain ⟨d', h⟩ := ih hz.2.2.2 hrest ⟨d.read ++ List.range' p 3, d.written ++ [ch]⟩
    refine ⟨d', .turn [37, hi, lo] ht nofun (fun rest => ?_) h⟩
    rw [← hhi, ← hlo]
    exact hl rest

theorem run_keeps (h : decodeRun m fuel p d = some d') {i : Nat} (hi : i ∈ d.read) :
    i ∈ d'.read := by
  induction fuel generalizing p d with
  | zero => cases h
  | succ fuel ih =>
    unfold decodeRun at h
    split at h
    · cases h
      exact List.mem_append_left _ hi
    · exact ih h (List.mem_append_left _ hi)

theorem turn_goes (h : decodeTurn m p = some (next, c)) : p < next := by
  unfold decodeTurn at h
  split at h
  · cases h
  · split at h
    · cases h
      omega
    · split at h
      · cases h
        omega
      · split at h <;> cases h <;> omega

/-- A run that comes to an end has read the place where it begins. -/
theorem run_reads (h : decodeRun m fuel p d = some d') : p ∈ d'.read := by
  cases fuel with
  | zero => cases h
  | succ fuel =>
    unfold decodeRun at h
    split at h
    · cases h
      exact List.mem_append_right _ (List.mem_singleton_self p)
    · next next c ht =>
      have hlt := turn_goes ht
      refine run_keeps h (List.mem_append_right _ (List.mem_range'_1.mpr ?_))
      omega

theorem run_next (ht : decodeTurn m p = some (next, c)) (h : decodeRun m fuel p d = some d') :
    ∃ fuel' d₁, decodeRun m fuel' next d₁ = some d' := by
  cases fuel with
  | zero => cases h
  | succ fuel =>
    simp only [decodeRun, ht] at h
    exact ⟨_, _, h⟩

/-- Where something is left over, the place behind the NUL is read. -/
theorem read_beyond : ∀ (bytes : List UInt8) (p fuel : Nat) (d : Decoded),
    ¬ Complete bytes → 0 ∉ bytes → Lies m p (bytes ++ [0]) →
    decodeRun m fuel p d = some d' → p + bytes.length + 1 ∈ d'.read
  | [], _, _, _, h, _, _, _ => absurd .nil h
  | c :: rest, p, fuel, d, h, hz, hm, hr => by
    simp only [List.mem_cons, not_or] at hz
    obtain ⟨hc, hrest⟩ := hm
    have h0 : c ≠ 0 := Ne.symm hz.1
    by_cases h37 : c = 37
    · subst h37
      match rest with
      | [] =>
        obtain ⟨_, _, hr⟩ := run_next (turn_pair hc (hrest.1 ▸ hexDigit_zero)) hr
        exact run_reads hr
      | ch :: rest =>
        simp only [List.mem_cons, not_or] at hz
        obtain ⟨hc', hrest⟩ := hrest
        by_cases hd : hexDigit ch = none
        · obtain ⟨_, _, hr⟩ := run_next (turn_pair hc (hc' ▸ hd)) hr
          have ih := read_beyond rest (p + 2) _ _ (fun hn => h (.pair hd hn)) hz.2.2 hrest hr
          rw [List.length_cons, List.length_cons]
          convert ih using 1
          omega
        · obtain ⟨_, ht, -⟩ := turn_triple hc (hc' ▸ hd)
          obtain ⟨_, _, hr⟩ := run_next ht hr
          match rest with
          | [] => exact run_reads hr
          | lo :: rest =>
            simp only [List.mem_cons, not_or] at hz
            have ih := read_beyond rest (p + 3) _ _ (fun hn => h (.triple hd hn)) hz.2.2.2
              hrest.2 hr
            simp only [List.length_cons]
            convert ih using 1
            omega
    · obtain ⟨_, _, hr⟩ := run_next (turn_plain (hc ▸ h0) (hc ▸ h37)) hr
      have ih := read_beyond rest (p + 1) _ _ (fun hn => h (.plain h37 hn)) hz.2 hrest hr
      rw [List.length_cons]
      convert ih using 1
      omega

theorem lies_getElem (l : List UInt8) (h : ∀ i c, l[i]? = some c → m (p + i) = c) :
    Lies m p l := by
  induction l generalizing p with
  | nil => trivial
  | cons c l ih =>
    refine ⟨h 0 c rfl, ih fun i c hi => ?_⟩
    rw [Nat.add_assoc, Nat.add_comm 1 i]
    exact h (i + 1) c hi

theorem lay_lies (s : List StrChar) (beyond : Nat → UInt8) :
    Lies (lay s beyond) 0 (s.map Subtype.val ++ [0]) := by
  apply lies_getElem
  intro i c hi
  rw [Nat.zero_add, lay, memory, hi]
  rfl

theorem not_safe {s : List StrChar} (h : ¬ Complete (s.map Subtype.val)) : ¬ Safe s beyond := by
  rintro ⟨d, hret, hread, -⟩
  obtain ⟨fuel, hf⟩ := hret.exists
  have hb := read_beyond _ 0 fuel _ h (memory_ne_zero s) (lay_lies s beyond) hf
  have hle := hread _ hb
  rw [List.length_map] at hle
  omega

/-- The decoder is safe just where no '%' stands too near to the end. -/
theorem decode_safe (s : List StrChar) (beyond : Nat → UInt8) :
    Safe s beyond ↔ Complete (s.map Subtype.val) := by
  constructor
  · intro hs
    by_contra hn
    exact not_safe hn hs
  · intro h
    obtain ⟨d, hret, hread, out, -, hw, hlen⟩ :=
      h.decodes (memory_ne_zero s) (lay_lies s beyond) ⟨[], []⟩
    rw [List.length_map] at hlen
    refine ⟨d, hret, fun i hi => ?_, ?_⟩
    · rcases hread i hi with hm | hm
      · cases hm
      · rwa [List.length_map, Nat.zero_add] at hm
    · rw [hw]
      simpa using hlen

/-- "100%". -/
theorem decode_unsafe : ¬ Safe (StdStringTree.chars [49, 48, 48, 37]) fun _ => 0 := by
  apply not_safe
  intro h
  cases h with
  | plain _ h => cases h with
    | plain _ h => cases h with
      | plain _ h => cases h with
        | plain h _ => exact h rfl

end StdString

end TinyState
