import Mathlib.Logic.Function.Basic
import Mathlib.Tactic.SplitIfs

/-!
# sEndian

Numbers of up to seven bytes are read from memory and written to it in either byte order, and
values of any size are turned around in place.
-/

namespace TinyState.SEndian

-- ---------------------------------------------------------------------------
-- Model
-- ---------------------------------------------------------------------------

/-- The bytes from the address that a function is given, `buf[i]`. -/
abbrev Memory := Int → BitVec 8

def ENDIAN_BIG : Int := 1

def ENDIAN_LITTLE : Int := 0

/-- The loop of `swap`, between its two pointers. -/
def swapBetween (buf : Memory) (p1 p2 : Int) : Memory :=
  if p1 < p2 then
    swapBetween (Function.update (Function.update buf p1 (buf p2)) p2 (buf p1)) (p1 + 1) (p2 - 1)
  else buf
termination_by (p2 - p1).toNat
decreasing_by omega

/-- `swap(buf,len)` -/
def swap (buf : Memory) (len : Int) : Memory := swapBetween buf 0 (len - 1)

/-- The loop of `conv(buf,len,endian)` after `i` rounds. -/
def gather (buf : Memory) : Nat → BitVec 64
  | 0 => 0
  | i + 1 => gather buf i ||| ((buf i).setWidth 64 <<< (i * 8))

/-- `conv(buf,len,endian)`. It fails on a panic, and where `memcpy` is given a negative length. -/
def conv (buf : Memory) (len endian : Int) : Option (BitVec 64) :=
  if 8 ≤ len then none
  else if len < 0 then none
  else some (gather (if endian = ENDIAN_BIG then swap buf len else buf) len.toNat)

/-- `(inp>>(8*i))&0xff`, as it is stored in a byte. -/
def byteAt (inp : BitVec 64) (i : Nat) : BitVec 8 :=
  ((inp.sshiftRight (8 * i)) &&& 0xff#64).setWidth 8

/-- The loop for `ENDIAN_BIG`, with `i` rounds to go. -/
def putBig (inp : BitVec 64) : Nat → Int → Memory → Memory
  | 0, _, buf => buf
  | i + 1, p, buf => putBig inp i (p + 1) (Function.update buf p (byteAt inp i))

/-- The loop for the other order, from round `i`. -/
def putLittle (inp : BitVec 64) (i : Nat) : Nat → Int → Memory → Memory
  | 0, _, buf => buf
  | n + 1, p, buf => putLittle inp (i + 1) n (p + 1) (Function.update buf p (byteAt inp i))

/-- `conv(buf,inp,len,endian)` -/
def convTo (buf : Memory) (inp : BitVec 64) (len endian : Int) : Option Memory :=
  if 8 ≤ len then none
  else if endian = ENDIAN_BIG then some (putBig inp len.toNat 0 buf)
  else some (putLittle inp 0 len.toNat 0 buf)

/-- `conv(inp,endian)` of a value of `n` bytes, on a machine of the order `cpu`. -/
def convValue (cpu : Int) (n : Nat) (inp : Memory) (endian : Int) : Memory :=
  if cpu = endian then inp else swap inp n

-- ---------------------------------------------------------------------------
-- Turning around
-- ---------------------------------------------------------------------------

/-- The bytes from `p1` to `p2` are turned around, and no other byte changes. -/
theorem swapBetween_apply (buf : Memory) (p1 p2 i : Int) :
    swapBetween buf p1 p2 i = if p1 ≤ i ∧ i ≤ p2 then buf (p1 + p2 - i) else buf i := by
  induction buf, p1, p2 using swapBetween.induct with
  | case1 buf p1 p2 hlt ih =>
    rw [swapBetween, if_pos hlt, ih]
    have hne : p2 ≠ p1 := by omega
    by_cases h1 : i = p1
    · subst h1
      rw [if_neg (by omega), if_pos (by omega), Function.update_of_ne hne.symm,
        Function.update_self, show i + p2 - i = p2 by omega]
    by_cases h2 : i = p2
    · subst h2
      rw [if_neg (by omega), if_pos (by omega), Function.update_self,
        show p1 + i - i = p1 by omega]
    have hother : ∀ j, j ≠ p1 → j ≠ p2 →
        Function.update (Function.update buf p1 (buf p2)) p2 (buf p1) j = buf j :=
      fun j hj1 hj2 => (Function.update_of_ne hj2 ..).trans (Function.update_of_ne hj1 ..)
    by_cases hin : p1 ≤ i ∧ i ≤ p2
    · rw [if_pos (by omega), if_pos hin, hother _ (by omega) (by omega),
        show p1 + 1 + (p2 - 1) - i = p1 + p2 - i by omega]
    · rw [if_neg (by omega), if_neg hin, hother i h1 h2]
  | case2 buf p1 p2 hlt =>
    rw [swapBetween, if_neg hlt]
    split_ifs with hin
    · rw [show p1 + p2 - i = i by omega]
    · rfl

theorem swap_apply (buf : Memory) (len i : Int) :
    swap buf len i = if 0 ≤ i ∧ i < len then buf (len - 1 - i) else buf i := by
  rw [swap, swapBetween_apply]
  by_cases hin : 0 ≤ i ∧ i < len
  · rw [if_pos (by omega), if_pos hin, Int.zero_add]
  · rw [if_neg (by omega), if_neg hin]

-- ---------------------------------------------------------------------------
-- What is read, and what is written
-- ---------------------------------------------------------------------------

/-- The bits of the number are the bits of the bytes, from the first byte up. -/
theorem gather_bit (buf : Memory) {n : Nat} (hn : n ≤ 8) (k : Nat) :
    (gather buf n).getLsbD k = (decide (k < 8 * n) && (buf ↑(k / 8)).getLsbD (k % 8)) := by
  induction n with
  | zero => simp [gather]
  | succ n ih =>
    rw [gather, BitVec.getLsbD_or, ih (Nat.le_of_succ_le hn), BitVec.getLsbD_shiftLeft,
      BitVec.getLsbD_setWidth]
    by_cases hlow : k < 8 * n
    · have hin : k < n * 8 := by omega
      have hin' : k < 8 * (n + 1) := by omega
      simp [hlow, hin, hin']
    by_cases hmid : k < 8 * (n + 1)
    · have hge : ¬k < n * 8 := by omega
      have h64 : k < 64 := by omega
      have hdiv : k / 8 = n := by omega
      have hmod : k % 8 = k - n * 8 := by omega
      have h64' : k - n * 8 < 64 := by omega
      simp [hlow, hmid, hge, h64, hdiv, hmod, h64']
    · have hout : (buf ↑n).getLsbD (k - n * 8) = false := BitVec.getLsbD_of_ge _ _ (by omega)
      simp [hlow, hmid, hout]

theorem byteAt_bit (inp : BitVec 64) {i : Nat} (hi : i < 8) (k : Nat) :
    (byteAt inp i).getLsbD k = (decide (k < 8) && inp.getLsbD (8 * i + k)) := by
  rw [byteAt, BitVec.getLsbD_setWidth, BitVec.getLsbD_and, BitVec.getLsbD_sshiftRight]
  by_cases hk : k < 8
  · have hff : ∀ k < 8, (0xff#64).getLsbD k = true := by decide
    have h64 : ¬64 ≤ k := by omega
    have hsum : 8 * i + k < 64 := by omega
    simp [hk, hff k hk, h64, hsum]
  · simp [hk]

theorem putBig_apply (inp : BitVec 64) (n : Nat) (p : Int) (buf : Memory) (i : Int) :
    putBig inp n p buf i =
      if p ≤ i ∧ i < p + n then byteAt inp (n - 1 - (i - p).toNat) else buf i := by
  induction n generalizing p buf with
  | zero =>
    rw [if_neg (by omega)]
    rfl
  | succ n ih =>
    rw [putBig, ih]
    by_cases h0 : i = p
    · subst h0
      rw [if_neg (by omega), if_pos (by omega), Function.update_self]
      simp
    · rw [Function.update_of_ne h0]
      by_cases hin : p ≤ i ∧ i < p + ↑(n + 1)
      · rw [if_pos (by omega), if_pos hin,
          show n - 1 - (i - (p + 1)).toNat = n + 1 - 1 - (i - p).toNat by omega]
      · rw [if_neg (by omega), if_neg hin]

theorem putLittle_apply (inp : BitVec 64) (n : Nat) (k : Nat) (p : Int) (buf : Memory) (i : Int) :
    putLittle inp k n p buf i =
      if p ≤ i ∧ i < p + n then byteAt inp (k + (i - p).toNat) else buf i := by
  induction n generalizing k p buf with
  | zero =>
    rw [if_neg (by omega)]
    rfl
  | succ n ih =>
    rw [putLittle, ih]
    by_cases h0 : i = p
    · subst h0
      rw [if_neg (by omega), if_pos (by omega), Function.update_self]
      simp
    · rw [Function.update_of_ne h0]
      by_cases hin : p ≤ i ∧ i < p + ↑(n + 1)
      · rw [if_pos (by omega), if_pos hin,
          show k + 1 + (i - (p + 1)).toNat = k + (i - p).toNat by omega]
      · rw [if_neg (by omega), if_neg hin]

/-- The byte of the number that is at `i`. -/
def rank (len endian : Int) (i : Int) : Nat :=
  (if endian = ENDIAN_BIG then len - 1 - i else i).toNat

theorem convTo_apply (buf : Memory) (inp : BitVec 64) {len : Int} (hlen : len < 8) (endian : Int) :
    ∃ buf', convTo buf inp len endian = some buf' ∧
      ∀ i, buf' i = if 0 ≤ i ∧ i < len then byteAt inp (rank len endian i) else buf i := by
  rw [convTo, if_neg (by omega)]
  by_cases hbig : endian = ENDIAN_BIG
  · rw [if_pos hbig]
    refine ⟨_, rfl, fun i => ?_⟩
    rw [putBig_apply, rank, if_pos hbig]
    by_cases hin : 0 ≤ i ∧ i < len
    · rw [if_pos (by omega), if_pos hin,
        show len.toNat - 1 - (i - 0).toNat = (len - 1 - i).toNat by omega]
    · rw [if_neg (by omega), if_neg hin]
  · rw [if_neg hbig]
    refine ⟨_, rfl, fun i => ?_⟩
    rw [putLittle_apply, rank, if_neg hbig]
    by_cases hin : 0 ≤ i ∧ i < len
    · rw [if_pos (by omega), if_pos hin, show 0 + (i - 0).toNat = i.toNat by omega]
    · rw [if_neg (by omega), if_neg hin]

/-- Each bit of what is read is a bit of the byte of its rank. -/
theorem conv_bit (buf : Memory) {len : Int} (h0 : 0 ≤ len) (hlen : len < 8) (endian : Int) :
    ∃ v, conv buf len endian = some v ∧ ∀ k : Nat, v.getLsbD k =
      (decide ((k : Int) < 8 * len) && (buf (rank len endian ↑(k / 8))).getLsbD (k % 8)) := by
  rw [conv, if_neg (by omega), if_neg (by omega)]
  refine ⟨_, rfl, fun k => ?_⟩
  rw [gather_bit _ (by omega)]
  by_cases hk : (k : Int) < 8 * len
  · have hk' : k < 8 * len.toNat := by omega
    by_cases hbig : endian = ENDIAN_BIG
    · have hin : 0 ≤ ((k / 8 : Nat) : Int) ∧ ((k / 8 : Nat) : Int) < len := by omega
      rw [if_pos hbig, swap_apply, if_pos hin, rank, if_pos hbig, Int.toNat_of_nonneg (by omega)]
      simp [hk, hk']
    · rw [if_neg hbig, rank, if_neg hbig, Int.toNat_natCast]
      simp [hk, hk']
  · have hk' : ¬k < 8 * len.toNat := by omega
    simp [hk, hk']

/-- What is written is read again, less the bytes that do not fit. -/
theorem read_written (buf : Memory) (inp : BitVec 64) {len : Int} (h0 : 0 ≤ len) (hlen : len < 8)
    (endian : Int) :
    ∃ buf', convTo buf inp len endian = some buf' ∧
      conv buf' len endian = some ((inp.setWidth (8 * len.toNat)).setWidth 64) ∧
      ∀ i, ¬(0 ≤ i ∧ i < len) → buf' i = buf i := by
  obtain ⟨buf', hbuf', hbytes⟩ := convTo_apply buf inp hlen endian
  obtain ⟨v, hv, hbits⟩ := conv_bit buf' h0 hlen endian
  refine ⟨buf', hbuf', hv.trans (congrArg some (BitVec.eq_of_getLsbD_eq fun k hk => ?_)),
    fun i hi => by rw [hbytes, if_neg hi]⟩
  rw [hbits, BitVec.getLsbD_setWidth, BitVec.getLsbD_setWidth]
  by_cases hin : (k : Int) < 8 * len
  · have hin' : k < 8 * len.toNat := by omega
    have hrank : 0 ≤ (rank len endian ↑(k / 8) : Int) ∧ (rank len endian ↑(k / 8) : Int) < len := by
      unfold rank
      split_ifs <;> omega
    have hback : rank len endian (rank len endian ↑(k / 8)) = k / 8 := by
      unfold rank
      split_ifs <;> omega
    rw [hbytes, if_pos hrank, hback, byteAt_bit _ (by omega), Nat.div_add_mod]
    simp [hin, hin', hk, Nat.mod_lt]
  · have hin' : ¬k < 8 * len.toNat := by omega
    simp [hin, hin']

/-- What is read and written again gives the same bytes. -/
theorem written_read (buf other : Memory) {len : Int} (h0 : 0 ≤ len) (hlen : len < 8)
    (endian : Int) :
    ∃ v, conv buf len endian = some v ∧ ∃ other', convTo other v len endian = some other' ∧
      ∀ i, 0 ≤ i ∧ i < len → other' i = buf i := by
  obtain ⟨v, hv, hbits⟩ := conv_bit buf h0 hlen endian
  obtain ⟨other', hother, hbytes⟩ := convTo_apply other v hlen endian
  refine ⟨v, hv, other', hother, fun i hi => BitVec.eq_of_getLsbD_eq fun k hk => ?_⟩
  have hrank : (rank len endian i : Int) < len ∧ rank len endian i < 8 := by
    unfold rank
    split_ifs <;> omega
  have hback : (rank len endian (rank len endian i) : Int) = i := by
    unfold rank
    split_ifs <;> omega
  have hin : ((8 * rank len endian i + k : Nat) : Int) < 8 * len := by omega
  rw [hbytes, if_pos hi, byteAt_bit _ hrank.2, hbits, decide_eq_true hin,
    show (8 * rank len endian i + k) / 8 = rank len endian i by omega,
    show (8 * rank len endian i + k) % 8 = k by omega, hback]
  simp [hk]

/-- Reading and writing undo each other, and no byte outside of the length changes; eight bytes
and more are refused. -/
theorem conv_round (buf other : Memory) (inp : BitVec 64) (len endian : Int) :
    (0 ≤ len ∧ len < 8 →
      (∃ buf', convTo buf inp len endian = some buf' ∧
        conv buf' len endian = some ((inp.setWidth (8 * len.toNat)).setWidth 64) ∧
        ∀ i, ¬(0 ≤ i ∧ i < len) → buf' i = buf i) ∧
      ∃ v, conv buf len endian = some v ∧ ∃ other', convTo other v len endian = some other' ∧
        ∀ i, 0 ≤ i ∧ i < len → other' i = buf i) ∧
    (8 ≤ len → conv buf len endian = none ∧ convTo buf inp len endian = none) :=
  ⟨fun h => ⟨read_written buf inp h.1 h.2 endian, written_read buf other h.1 h.2 endian⟩,
    fun hlen => ⟨by rw [conv, if_pos hlen], by rw [convTo, if_pos hlen]⟩⟩

theorem conv_congr {buf buf' : Memory} {len endian endian' : Int}
    (h : ∀ i, 0 ≤ i ∧ i < len → buf' (rank len endian' i) = buf (rank len endian i)) :
    conv buf' len endian' = conv buf len endian := by
  by_cases hlen : 8 ≤ len
  · rw [conv, conv, if_pos hlen, if_pos hlen]
  by_cases h0 : len < 0
  · rw [conv, conv, if_neg hlen, if_neg hlen, if_pos h0, if_pos h0]
  have hpos : 0 ≤ len := by omega
  have hlt : len < 8 := by omega
  obtain ⟨v', hv', hbits'⟩ := conv_bit buf' hpos hlt endian'
  obtain ⟨v, hv, hbits⟩ := conv_bit buf hpos hlt endian
  rw [hv', hv]
  refine congrArg some (BitVec.eq_of_getLsbD_eq fun k _ => ?_)
  rw [hbits, hbits']
  by_cases hin : (k : Int) < 8 * len
  · rw [h _ (by omega)]
  · simp [hin]

end TinyState.SEndian
