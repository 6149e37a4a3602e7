import TinyState.Containers.BufferChain

/-!
# Comparing a chain with a block

`cmp` cuts the block at the ends of the segments, with the size of the segment that it has
started in: where a further segment is not the last that the block reaches and is of another
size, bytes are left out, or bytes behind its data are compared.
-/

namespace TinyState

/-- `memcmp`, of blocks of one length: the sign of the first difference. -/
def memcmp : List UInt8 → List UInt8 → Int
  | a :: x, b :: y => if a < b then -1 else if b < a then 1 else memcmp x y
  | [], _ => 0
  | _, [] => 0

/-- Bytes are compared with a block: they may go on behind it, and are greater if they do not
fill it. -/
def flatCmp : List UInt8 → List UInt8 → Int
  | _, [] => 0
  | [], _ :: _ => 1
  | a :: x, b :: y => if a < b then -1 else if b < a then 1 else flatCmp x y

theorem memcmp_self (x : List UInt8) : memcmp x x = 0 := by
  induction x with
  | nil => rfl
  | cons a x ih => rw [memcmp, if_neg (UInt8.lt_irrefl a), if_neg (UInt8.lt_irrefl a), ih]

theorem memcmp_eq_zero {x y : List UInt8} (hl : x.length = y.length) (h : memcmp x y = 0) :
    x = y := by
  induction x generalizing y with
  | nil => exact (List.length_eq_zero_iff.mp hl.symm).symm
  | cons a x ih =>
    cases y with
    | nil => cases hl
    | cons b y =>
      rw [memcmp] at h
      split_ifs at h with hlt hgt
      · cases h
      have hab : a = b := UInt8.le_antisymm (UInt8.not_lt.mp hgt) (UInt8.not_lt.mp hlt)
      rw [hab, ih (Nat.succ.inj hl) h]

@[simp] theorem flatCmp_nil (x : List UInt8) : flatCmp x [] = 0 := by cases x <;> rfl

theorem flatCmp_append {a b : List UInt8} (x y : List UInt8) (hl : a.length = b.length) :
    flatCmp (a ++ x) (b ++ y) = if memcmp a b = 0 then flatCmp x y else memcmp a b := by
  induction a generalizing b with
  | nil =>
    obtain rfl := List.length_eq_zero_iff.mp hl.symm
    rfl
  | cons c a ih =>
    cases b with
    | nil => cases hl
    | cons d b =>
      simp only [List.cons_append, flatCmp, memcmp, ih (Nat.succ.inj hl)]
      split_ifs <;> simp_all

namespace BufferHeap

/-- The loop of `cmp`, which was called for `this`; `buf` is what is left of the block. -/
def cmpLoop (m : BufferHeap) (this : StdBuffer) :
    Nat → Option Nat → Nat → List UInt8 → Option (BufferError × Int × Nat)
  | 0, _, _, _ => none
  | fuel + 1, pb, pos, buf =>
    if buf = [] then some (.ok, 0, 0)
    else
      match pb with
      | none => some (.ok, 1, 0)
      | some p => do
        let s ← m.get p
        if s.avairableTop.isNone then some (.remain, 0, buf.length)
        else
          let n := if s.dataSize - pos < buf.length then this.dataSize - pos else buf.length
          let data ← m.load s.avairableTop (s.dataHead + pos) n
          if buf.length < n then none
          else
            let ret := memcmp data (buf.take n)
            if ret ≠ 0 then some (.ok, ret, 0)
            else cmpLoop m this fuel s.next 0 (buf.drop n)

example (m : BufferHeap) (this : StdBuffer) (pb : Option Nat) (pos : Nat) (buf : List UInt8) :
    m.cmpLoop this 0 pb pos buf = none := by
  simp [cmpLoop]

/-- `cmp`, which calls itself for the next segment, with the fuel for both. -/
def cmpFrom (m : BufferHeap) (fuel : Nat) :
    Nat → Nat → Nat → List UInt8 → Option (BufferError × Int × Nat)
  | 0, _, _, _ => none
  | calls + 1, p, pos, buf => do
    let s ← m.get p
    if s.dataSize ≤ pos then
      match s.next with
      | none => some (.overEpoint, 0, buf.length)
      | some q => cmpFrom m fuel calls q (pos - s.dataSize) buf
    else m.cmpLoop s fuel p pos buf

/-- `cmp`: the error, the result and the length that is left in `*len`. -/
def cmp (m : BufferHeap) (p pos : Nat) (buf : List UInt8) : Option (BufferError × Int × Nat) :=
  m.cmpFrom (m.buffers.length + 1) (m.buffers.length + 1) p pos buf

/-- The loop of `delimiter` over the delimiters: the first one that is hit. -/
def hitLoop (m : BufferHeap) (p pos : Nat) :
    List (List UInt8) → Nat → Option (Option (BufferError × Nat))
  | [], _ => some none
  | dlm :: dlmList, i => do
    let (erp, ret, _) ← m.cmp p pos dlm
    if ret = 0 then some (some (erp, i)) else m.hitLoop p pos dlmList (i + 1)

/-- The loop of `delimiter`. -/
def delimiterLoop (m : BufferHeap) (dlmList : List (List UInt8)) (max : Int) :
    Nat → Option Nat → Nat → Nat → Option (BufferError × Option Int × Int)
  | 0, _, _, _ => none
  | fuel + 1, pb, pos, ret =>
    match pb with
    | none => some (if ret = max then .tooLong else .ok, some (-1), ret)
    | some p =>
      if max ≤ ret then some (if ret = max then .tooLong else .ok, some (-1), ret)
      else do
        let s ← m.get p
        if s.avairableTop.isNone then some (.remain, none, -1)
        else if s.dataSize ≤ pos then delimiterLoop m dlmList max fuel s.next 0 ret
        else
          match ← m.hitLoop p pos dlmList 0 with
          | some (erp, i) =>
            if erp ≠ .ok then some (erp, none, -1) else some (.ok, some i, ret)
          | none => delimiterLoop m dlmList max fuel pb (pos + 1) (ret + 1)

example (m : BufferHeap) (dlmList : List (List UInt8)) (max : Int) (fuel pos ret : Nat) :
    m.delimiterLoop dlmList max (fuel + 1) none pos ret =
      some (if ret = max then BufferError.tooLong else .ok, some (-1), (ret : Int)) := by
  simp [delimiterLoop]

/-- `delimiter`: the error, what is written to `*hit`, and where it is found. -/
def delimiter (m : BufferHeap) (p : Nat) (dlmList : List (List UInt8)) (max : Int) :
    Option (BufferError × Option Int × Int) :=
  m.delimiterLoop dlmList max (m.buffers.length + max.toNat + 1) p 0 0

-- ---------------------------------------------------------------------------
-- Comparing bytes
-- ---------------------------------------------------------------------------

/-- What `cmp` is for: the bytes from a position on are compared with a block. -/
def cmpBytes (x : List UInt8) (pos : Nat) (buf : List UInt8) : BufferError × Int × Nat :=
  if x.length ≤ pos then (.overEpoint, 0, buf.length) else (.ok, flatCmp (x.drop pos) buf, 0)

/-- The first delimiter that is found at a position. -/
def hitAt (x : List UInt8) (dlmList : List (List UInt8)) : Option Nat :=
  dlmList.findIdx? fun dlm => flatCmp x dlm = 0

/-- What `delimiter` is for, from the position `ret` on: the first position at which there is a
delimiter, and which one it is. -/
def delimiterBytes (dlmList : List (List UInt8)) (max : Int) :
    List UInt8 → Nat → BufferError × Option Int × Int
  | [], ret => (if ret = max then .tooLong else .ok, some (-1), ret)
  | a :: x, ret =>
    if max ≤ ret then (if ret = max then .tooLong else .ok, some (-1), ret)
    else
      match hitAt (a :: x) dlmList with
      | some i => (.ok, some (i : Int), ret)
      | none => delimiterBytes dlmList max x (ret + 1)

-- ---------------------------------------------------------------------------
-- Where the cuts are right
-- ---------------------------------------------------------------------------

/-- Of the segments after one of `size` bytes, those that come before the end of the block have
`size` bytes too, as far as the bytes are those of the block. -/
def CutsFrom (size : Nat) : List Piece → List UInt8 → Prop
  | [], _ => True
  | q :: l, buf => buf.length ≤ q.data.length ∨
      (q.data.length = size ∧ (q.data = buf.take size → CutsFrom size l (buf.drop size)))

/-- The same after the segment in which the position lies. -/
def Cuts : List Piece → Nat → List UInt8 → Prop
  | [], _, _ => True
  | q :: l, pos, buf =>
    if q.data.length ≤ pos then Cuts l (pos - q.data.length) buf
    else q.data.drop pos = buf.take (q.data.length - pos) →
      CutsFrom q.data.length l (buf.drop (q.data.length - pos))

/-- All segments have an array. -/
def Allocated (l : List Piece) : Prop := ∀ q ∈ l, q.seg.avairableTop ≠ none

variable {m : BufferHeap} {p : Option Nat} {i pos fuel calls : Nat} {q : Piece} {l : List Piece}
  {buf : List UInt8} {this s : StdBuffer}

theorem Allocated.head (h : Allocated (q :: l)) : q.seg.avairableTop.isNone = false := by
  have hq := h q List.mem_cons_self
  cases htop : q.seg.avairableTop with
  | none => exact absurd htop hq
  | some k => rfl

theorem Allocated.tail (h : Allocated (q :: l)) : Allocated l :=
  fun r hr => h r (List.mem_cons_of_mem q hr)

/-- One round in which `n` bytes are compared. -/
theorem cmpLoop_round (this : StdBuffer) (pos fuel n : Nat) (buf : List UInt8) (hq : q.Lies m)
    (ha : q.seg.avairableTop.isNone = false) (hbuf : buf ≠ [])
    (hn : n = if q.seg.dataSize - pos < buf.length then this.dataSize - pos else buf.length)
    (hle : n ≤ buf.length) (hd : pos + n ≤ q.data.length) :
    m.cmpLoop this (fuel + 1) (some q.place) pos buf =
      if memcmp ((q.data.drop pos).take n) (buf.take n) ≠ 0 then
        some (.ok, memcmp ((q.data.drop pos).take n) (buf.take n), 0)
      else m.cmpLoop this fuel q.seg.next 0 (buf.drop n) := by
  rw [hq.length] at hd
  have hload := load_drop_take pos n hq.data hd
  simp only [cmpLoop, if_neg hbuf, hq.get, ha, ← hn, hload, Option.bind_eq_bind,
    Option.bind_some, if_neg (Nat.not_lt.mpr hle), Bool.false_eq_true, if_false]

/-- A round compares what it should, and the rest is compared in the further rounds. -/
theorem cmpLoop_agrees (pos n : Nat) {x : List UInt8} (hq : q.Lies m)
    (ha : q.seg.avairableTop.isNone = false) (hbuf : buf ≠ [])
    (hn : n = if q.seg.dataSize - pos < buf.length then this.dataSize - pos else buf.length)
    (hle : n ≤ buf.length) (hd : pos + n ≤ q.data.length)
    (hrest : (q.data.drop pos).take n = buf.take n →
      m.cmpLoop this fuel q.seg.next 0 (buf.drop n) =
        some (.ok, flatCmp ((q.data.drop pos).drop n ++ x) (buf.drop n), 0)) :
    m.cmpLoop this (fuel + 1) (some q.place) pos buf =
      some (.ok, flatCmp (q.data.drop pos ++ x) buf, 0) := by
  have hlen : ((q.data.drop pos).take n).length = (buf.take n).length := by
    rw [List.length_take, List.length_take, List.length_drop]
    omega
  have hflat := flatCmp_append ((q.data.drop pos).drop n ++ x) (buf.drop n) hlen
  rw [← List.append_assoc, List.take_append_drop, List.take_append_drop] at hflat
  rw [cmpLoop_round this pos fuel n buf hq ha hbuf hn hle hd, hflat]
  by_cases h0 : memcmp ((q.data.drop pos).take n) (buf.take n) = 0
  · rw [if_neg (not_not.mpr h0), if_pos h0]
    exact hrest (memcmp_eq_zero hlen h0)
  · rw [if_pos h0, if_neg h0]

theorem cmpLoop_done (m : BufferHeap) (this : StdBuffer) (fuel : Nat) (p : Option Nat) (pos : Nat) :
    m.cmpLoop this (fuel + 1) p pos [] = some (.ok, 0, 0) := if_pos rfl

/-- The block ends in the segment. -/
theorem cmpLoop_last {x : List UInt8} (hq : q.Lies m) (ha : q.seg.avairableTop.isNone = false)
    (hle : pos + buf.length ≤ q.data.length) (hf : 1 < fuel) :
    m.cmpLoop this fuel (some q.place) pos buf =
      some (.ok, flatCmp (q.data.drop pos ++ x) buf, 0) := by
  obtain ⟨fuel, rfl⟩ : ∃ k, fuel = k + 2 := Nat.exists_eq_add_of_le' hf
  by_cases hbuf : buf = []
  · rw [hbuf, cmpLoop_done, flatCmp_nil]
  · have hsize := hq.length
    refine cmpLoop_agrees pos buf.length hq ha hbuf ?_ (Nat.le_refl _) hle fun _ => ?_
    · rw [if_neg (by omega)]
    · rw [List.drop_length, cmpLoop_done, flatCmp_nil]

/-- The segments after the one in which the comparison has begun. -/
theorem cmpLoop_eq (h : Chain m p l) (ha : Allocated l) (hc : CutsFrom this.dataSize l buf)
    (hf : l.length < fuel) :
    m.cmpLoop this fuel p 0 buf = some (.ok, flatCmp (flat l) buf, 0) := by
  induction h generalizing buf fuel with
  | nil =>
    cases fuel with
    | zero => exact absurd hf (Nat.not_lt_zero _)
    | succ fuel => cases buf <;> rfl
  | @cons q l hq _ ih =>
    rw [List.length_cons] at hf
    by_cases hle : buf.length ≤ q.data.length
    · exact cmpLoop_last hq ha.head (by omega) (by omega)
    · obtain ⟨hs, hc⟩ := hc.resolve_left hle
      cases fuel with
      | zero => exact absurd hf (Nat.not_lt_zero _)
      | succ fuel =>
        have hsize := hq.length
        have hbuf : buf ≠ [] := List.ne_nil_of_length_pos (by omega)
        refine cmpLoop_agrees 0 this.dataSize hq ha.head hbuf ?_ (by omega)
          (by omega) fun he => ?_
        · rw [if_pos (by omega), Nat.sub_zero]
        · rw [List.drop_zero, ← hs, List.take_length] at he
          rw [List.drop_zero, ← hs, List.drop_length, List.nil_append, hs]
          exact ih ha.tail (hc (hs ▸ he)) (Nat.lt_of_succ_lt_succ hf)

theorem cmpBytes_skip {x y : List UInt8} (h : x.length ≤ pos) :
    cmpBytes (x ++ y) pos buf = cmpBytes y (pos - x.length) buf := by
  have hiff : (x ++ y).length ≤ pos ↔ y.length ≤ pos - x.length := by
    rw [List.length_append]
    omega
  simp only [cmpBytes, hiff, List.drop_append, List.drop_eq_nil_of_le h, List.nil_append]

theorem cmpBytes_here {x y : List UInt8} (h : pos < x.length) :
    cmpBytes (x ++ y) pos buf = (.ok, flatCmp (x.drop pos ++ y) buf, 0) := by
  rw [cmpBytes, if_neg (by rw [List.length_append]; omega),
    List.drop_append_of_le_length (Nat.le_of_lt h)]

theorem cmpFrom_eq (h : Chain m (some i) l) (ha : Allocated l) (hc : Cuts l pos buf)
    (hcalls : l.length ≤ calls) (hf : l.length < fuel) :
    m.cmpFrom fuel calls i pos buf = some (cmpBytes (flat l) pos buf) := by
  induction l generalizing i pos calls with
  | nil => cases h
  | cons q l ih =>
    obtain ⟨hi, hq, hl⟩ := h.tail
    obtain rfl : i = q.place := Option.some.inj hi
    cases calls with
    | zero => exact absurd hcalls (Nat.not_succ_le_zero _)
    | succ calls =>
      have hsize := hq.length
      rw [List.length_cons] at hf
      have hf' : l.length < fuel := Nat.lt_of_succ_lt hf
      simp only [cmpFrom, hq.get, Option.bind_eq_bind, Option.bind_some, flat_cons]
      by_cases hpos : q.data.length ≤ pos
      · rw [if_pos (hsize ▸ hpos), cmpBytes_skip hpos]
        cases hnext : q.seg.next with
        | none =>
          rw [hnext] at hl
          cases hl
          simp [cmpBytes]
        | some j =>
          rw [hnext] at hl
          rw [Cuts, if_pos hpos] at hc
          exact hsize ▸ ih hl ha.tail hc (Nat.le_of_succ_le_succ hcalls) hf'
      · have hlt : pos < q.data.length := Nat.lt_of_not_le hpos
        rw [if_neg (hsize ▸ hpos), cmpBytes_here hlt]
        rw [Cuts, if_neg hpos] at hc
        by_cases hle : pos + buf.length ≤ q.data.length
        · exact cmpLoop_last hq ha.head hle (by omega)
        · obtain ⟨fuel, rfl⟩ : ∃ k, fuel = k + 1 := Nat.exists_eq_add_one_of_ne_zero (by omega)
          have hbuf : buf ≠ [] := List.ne_nil_of_length_pos (by omega)
          refine cmpLoop_agrees pos (q.data.length - pos) hq ha.head hbuf ?_ (by omega) (by omega)
            fun he => ?_
          · rw [if_pos (by omega), hsize]
          · have hlen : (q.data.drop pos).length = q.data.length - pos := List.length_drop
            rw [← hlen, List.take_length, hlen] at he
            rw [← hlen, List.drop_length, List.nil_append, hlen]
            refine cmpLoop_eq hl ha.tail ?_ (Nat.lt_of_succ_lt_succ hf)
            rw [← hsize]
            exact hc he

/-- Where the cuts are right, the bytes are compared with the block. -/
theorem cmp_eq (h : Chain m (some i) l) (ha : Allocated l) (hc : Cuts l pos buf) :
    m.cmp i pos buf = some (cmpBytes (flat l) pos buf) :=
  cmpFrom_eq h ha hc (Nat.le_succ_of_le h.length_le) (Nat.lt_succ_of_le h.length_le)

-- ---------------------------------------------------------------------------
-- Delimiters
-- ---------------------------------------------------------------------------

theorem hitLoop_eq {x : List UInt8} {dlmList : List (List UInt8)}
    (h : ∀ dlm ∈ dlmList, m.cmp i pos dlm = some (.ok, flatCmp x dlm, 0)) (n : Nat) :
    m.hitLoop i pos dlmList n = some ((hitAt x dlmList).map fun k => (.ok, n + k)) := by
  induction dlmList generalizing n with
  | nil => rfl
  | cons dlm dlmList ih =>
    obtain ⟨hd, hrest⟩ := List.forall_mem_cons.mp h
    simp only [hitLoop, hd, Option.bind_eq_bind, Option.bind_some, hitAt, List.findIdx?_cons]
    by_cases h0 : flatCmp x dlm = 0
    · simp [h0]
    · rw [if_neg h0, ih hrest]
      simp only [h0, decide_false, Bool.false_eq_true, if_false, Option.map_map, hitAt]
      congr 2
      funext k
      simp only [Function.comp_apply, Prod.mk.injEq, true_and]
      omega

theorem delimiterBytes_end {dlmList : List (List UInt8)} {max : Int} {ret : Nat} (x : List UInt8)
    (h : max ≤ ret) :
    delimiterBytes dlmList max x ret =
      (if ret = max then BufferError.tooLong else .ok, some (-1), (ret : Int)) := by
  cases x with
  | nil => rfl
  | cons a x => rw [delimiterBytes, if_pos h]

theorem delimiterLoop_eq {dlmList : List (List UInt8)} {max : Int} {ret : Nat} (h : Chain m p l)
    (ha : Allocated l) (hpos : ∀ q ∈ l.head?, pos ≤ q.data.length) (hnil : l = [] → pos = 0)
    (hc : ∀ k, pos + k < (flat l).length → (ret + k : Nat) < max →
      ∀ dlm ∈ dlmList, Cuts l (pos + k) dlm)
    (hf : l.length + (max - ret).toNat < fuel) :
    m.delimiterLoop dlmList max fuel p pos ret =
      some (delimiterBytes dlmList max ((flat l).drop pos) ret) := by
  induction fuel generalizing p l pos ret with
  | zero => exact absurd hf (Nat.not_lt_zero _)
  | succ fuel ih =>
    cases h with
    | nil =>
      rw [hnil rfl]
      rfl
    | @cons q l hq hl =>
      have hsize := hq.length
      have hpos : pos ≤ q.data.length := hpos q rfl
      rw [delimiterLoop]
      by_cases hmax : max ≤ ret
      · rw [if_pos hmax, delimiterBytes_end _ hmax]
      simp only [if_neg hmax, hq.get, ha.head, Option.bind_eq_bind, Option.bind_some,
        Bool.false_eq_true, if_false]
      by_cases hend : q.seg.dataSize ≤ pos
      · obtain rfl : pos = q.data.length := by omega
        rw [if_pos hend, flat_cons, List.drop_left]
        refine ih hl ha.tail (fun _ _ => Nat.zero_le _) (fun _ => rfl) (fun k hk hlt dlm hdlm => ?_)
          (by simp only [List.length_cons] at hf; omega)
        have hck := hc k (by rw [flat_cons, List.length_append]; omega) hlt dlm hdlm
        rw [Cuts, if_pos (Nat.le_add_right _ _), Nat.add_sub_cancel_left] at hck
        rwa [Nat.zero_add]
      · have hlt : pos < q.data.length := by omega
        have hall : pos < (flat (q :: l)).length := by
          rw [flat_cons, List.length_append]
          omega
        have hcmp : ∀ dlm ∈ dlmList, m.cmp q.place pos dlm =
            some (.ok, flatCmp ((flat (q :: l)).drop pos) dlm, 0) := by
          intro dlm hdlm
          have hck := hc 0 hall (by omega) dlm hdlm
          rw [Nat.add_zero] at hck
          rw [cmp_eq (.cons hq hl) ha hck, cmpBytes, if_neg (Nat.not_le.mpr hall)]
        rw [if_neg hend, hitLoop_eq hcmp, List.drop_eq_getElem_cons hall, delimiterBytes,
          if_neg hmax, ← List.drop_eq_getElem_cons hall]
        cases hitAt ((flat (q :: l)).drop pos) dlmList with
        | some k => simp
        | none =>
          refine ih (.cons hq hl) ha (fun r hr => ?_) nofun (fun k hk hlt' dlm hdlm => ?_)
            (by omega)
          · cases hr
            exact hlt
          · have hck := hc (k + 1) (by omega) (by omega) dlm hdlm
            rwa [show pos + 1 + k = pos + (k + 1) by omega]

theorem delimiter_eq {dlmList : List (List UInt8)} {max : Int} (h : Chain m (some i) l)
    (ha : Allocated l)
    (hc : ∀ pos, pos < (flat l).length → pos < max → ∀ dlm ∈ dlmList, Cuts l pos dlm) :
    m.delimiter i dlmList max = some (delimiterBytes dlmList max (flat l) 0) := by
  have hle := h.length_le
  refine delimiterLoop_eq h ha (fun _ _ => Nat.zero_le _) (fun _ => rfl)
    (fun k hk hlt => ?_) (by omega)
  rw [Nat.zero_add] at hk hlt ⊢
  exact hc k hk hlt

-- ---------------------------------------------------------------------------
-- Where they are wrong
-- ---------------------------------------------------------------------------

/-- `CutsFrom` by the sizes alone. -/
def SizesFrom (size : Nat) : List Nat → Nat → Prop
  | [], _ => True
  | n :: sizes, len => len ≤ n ∨ (n = size ∧ SizesFrom size sizes (len - size))

/-- `Cuts` by the sizes alone: of the segments after the one in which the position lies, those
that come before the end of the block have its size. -/
def Sizes : List Nat → Nat → Nat → Prop
  | [], _, _ => True
  | n :: sizes, pos, len =>
    if n ≤ pos then Sizes sizes (pos - n) len else SizesFrom n sizes (len - (n - pos))

theorem SizesFrom.cuts {size : Nat} (h : SizesFrom size (l.map fun q => q.data.length) buf.length) :
    CutsFrom size l buf := by
  induction l generalizing buf with
  | nil => trivial
  | cons q l ih =>
    rcases h with hle | ⟨hs, h⟩
    · exact .inl hle
    · refine .inr ⟨hs, fun _ => ih ?_⟩
      rwa [List.length_drop]

theorem Sizes.cuts (h : Sizes (l.map fun q => q.data.length) pos buf.length) : Cuts l pos buf := by
  induction l generalizing pos with
  | nil => trivial
  | cons q l ih =>
    rw [List.map_cons, Sizes] at h
    rw [Cuts]
    split
    · next hle =>
      rw [if_pos hle] at h
      exact ih h
    · next hle =>
      rw [if_neg hle] at h
      refine fun _ => SizesFrom.cuts ?_
      rwa [List.length_drop]

/-- The arrays end where the data end. -/
def Exact (m : BufferHeap) (l : List Piece) : Prop :=
  ∀ q ∈ l, ∀ n, q.data.length < n → m.load q.seg.avairableTop q.seg.dataHead n = none

theorem Exact.tail (h : Exact m (q :: l)) : Exact m l :=
  fun r hr => h r (List.mem_cons_of_mem q hr)

theorem memcmp_replicate {n : Nat} (h : 0 < n) :
    memcmp (List.replicate n 2) (List.replicate n 1) = 1 := by
  cases n with
  | zero => exact absurd h (Nat.lt_irrefl 0)
  | succ n => rfl

theorem flatCmp_less {n k : Nat} (hn : 0 < n) (hk : 0 < k) (x : List UInt8) :
    flatCmp (List.replicate n 0 ++ x) (List.replicate k 1) = -1 := by
  cases n with
  | zero => exact absurd hn (Nat.lt_irrefl 0)
  | succ n =>
    cases k with
    | zero => exact absurd hk (Nat.lt_irrefl 0)
    | succ k => rfl

/-- Segments of twos are never found less than a block of ones. -/
theorem cmpLoop_greater (h : Chain m p l) (ha : Allocated l) (he : Exact m l)
    (htwo : ∀ q ∈ l, q.data = List.replicate q.data.length 2) (hD : 0 < this.dataSize) {r : Nat}
    (hr : 0 < r) : m.cmpLoop this fuel p 0 (List.replicate r 1) ≠ some (.ok, -1, 0) := by
  cases fuel with
  | zero => nofun
  | succ fuel =>
    have hbuf : List.replicate r (1 : UInt8) ≠ [] :=
      List.ne_nil_of_length_pos (by rwa [List.length_replicate])
    cases h with
    | nil =>
      rw [cmpLoop, if_neg hbuf]
      nofun
    | @cons q l hq hl =>
      obtain ⟨n, hn⟩ : ∃ n, n = if q.seg.dataSize - 0 < (List.replicate r (1 : UInt8)).length then
        this.dataSize - 0 else (List.replicate r (1 : UInt8)).length := ⟨_, rfl⟩
      have hn0 : 0 < n := by
        rw [hn]
        split
        · omega
        · rwa [List.length_replicate]
      by_cases hlong : q.data.length < n
      · simp only [cmpLoop, if_neg hbuf, hq.get, ha.head, ← hn, Option.bind_eq_bind,
          Option.bind_some, Nat.add_zero, he q List.mem_cons_self n hlong, Option.bind_none,
          Bool.false_eq_true, if_false]
        nofun
      by_cases hshort : (List.replicate r (1 : UInt8)).length < n
      · have hload := load_take hq.data (n := n) (by rw [← hq.length]; omega)
        simp only [cmpLoop, if_neg hbuf, hq.get, ha.head, ← hn, Option.bind_eq_bind,
          Option.bind_some, Nat.add_zero, hload, if_pos hshort, Bool.false_eq_true, if_false]
        nofun
      · have hround := cmpLoop_round this 0 fuel n _ hq ha.head hbuf hn
          (Nat.not_lt.mp hshort) (by omega)
        rw [List.length_replicate] at hshort
        have htake : (q.data.drop 0).take n = List.replicate n 2 := by
          rw [List.drop_zero, htwo q List.mem_cons_self, List.take_replicate,
            Nat.min_eq_left (Nat.not_lt.mp hlong)]
        rw [hround, htake, List.take_replicate, Nat.min_eq_left (Nat.not_lt.mp hshort),
          memcmp_replicate hn0]
        simp

/-- A shorter segment: bytes behind its data are compared. -/
theorem cmpLoop_behind (hq : q.Lies m) (ha : q.seg.avairableTop.isNone = false)
    (he : ∀ n, q.data.length < n → m.load q.seg.avairableTop q.seg.dataHead n = none)
    (hsize : q.data.length < this.dataSize) (hbuf : q.data.length < buf.length) :
    m.cmpLoop this fuel (some q.place) 0 buf = none := by
  cases fuel with
  | zero => rfl
  | succ fuel =>
    have hlen := hq.length
    have hne : buf ≠ [] := List.ne_nil_of_length_pos (by omega)
    have hclip : q.seg.dataSize < buf.length := by omega
    simp only [cmpLoop, if_neg hne, hq.get, ha, if_pos hclip, Option.bind_eq_bind,
      Option.bind_some, Nat.add_zero, Nat.sub_zero, he _ hsize, Option.bind_none,
      Bool.false_eq_true, if_false]

/-- A longer segment: bytes of it are left out. -/
theorem cmpLoop_short {n r : Nat} (hq : q.Lies m) (ha : q.seg.avairableTop.isNone = false)
    (h : Chain m q.seg.next l) (hal : Allocated l) (he : Exact m l)
    (htwo : ∀ q ∈ l, q.data = List.replicate q.data.length 2) (hD : 0 < this.dataSize)
    (hq0 : q.data = List.replicate n 0) (hlt : this.dataSize < n) (hnr : n < r) {size : Nat}
    (hs : this.dataSize = size) :
    m.cmpLoop this fuel (some q.place) 0
        (List.replicate size 0 ++ List.replicate (r - size) 1) ≠
      some (.ok, flatCmp (flat (q :: l)) (List.replicate size 0 ++ List.replicate (r - size) 1),
        0) := by
  subst hs
  cases fuel with
  | zero => nofun
  | succ fuel =>
    obtain ⟨buf, hb⟩ : ∃ buf, buf = List.replicate this.dataSize (0 : UInt8) ++
      List.replicate (r - this.dataSize) 1 := ⟨_, rfl⟩
    have hlen : buf.length = r := by
      rw [hb, List.length_append, List.length_replicate, List.length_replicate]
      omega
    have hql : q.data.length = n := by rw [hq0, List.length_replicate]
    have hsize := hq.length
    have hround := cmpLoop_round this 0 fuel this.dataSize buf hq ha
      (List.ne_nil_of_length_pos (by omega))
      (by rw [if_pos (by omega), Nat.sub_zero]) (by omega) (by omega)
    have htake : (q.data.drop 0).take this.dataSize = List.replicate this.dataSize 0 := by
      rw [List.drop_zero, hq0, List.take_replicate, Nat.min_eq_left (Nat.le_of_lt hlt)]
    have hblock : buf.take this.dataSize = List.replicate this.dataSize 0 := by
      rw [hb, List.take_left' List.length_replicate]
    have hafter : buf.drop this.dataSize = List.replicate (r - this.dataSize) 1 := by
      rw [hb, List.drop_left' List.length_replicate]
    have hflat : flatCmp (flat (q :: l)) buf = -1 := by
      have hsplit : q.data = List.replicate this.dataSize 0 ++
          List.replicate (n - this.dataSize) 0 := by
        rw [hq0, List.replicate_append_replicate, Nat.add_sub_cancel' (Nat.le_of_lt hlt)]
      rw [flat_cons, hsplit, hb, List.append_assoc, flatCmp_append _ _ rfl, memcmp_self, if_pos rfl]
      exact flatCmp_less (by omega) (by omega) _
    rw [← hb, hround, htake, hblock, memcmp_self, if_neg (not_not.mpr rfl), hafter, hflat]
    exact cmpLoop_greater h hal he htwo hD (by omega)

/-- The bytes of the further segments and the rest of the block can be such that a wrong result
comes out. -/
theorem exists_wrong_from {size r : Nat} {sizes : List Nat} (hD : 0 < size)
    (h : ¬ SizesFrom size sizes r) :
    ∃ (blocks : List (List UInt8)) (buf : List UInt8), blocks.map List.length = sizes ∧
      buf.length = r ∧ ∀ m this fuel p l, Chain m p l → Allocated l → Exact m l →
        l.map Piece.data = blocks → this.dataSize = size →
        m.cmpLoop this fuel p 0 buf ≠ some (.ok, flatCmp (flat l) buf, 0) := by
  induction sizes generalizing r with
  | nil => exact absurd trivial h
  | cons n sizes ih =>
    rw [SizesFrom, not_or, not_and, Nat.not_le] at h
    obtain ⟨hnr, hrest⟩ := h
    by_cases hn : n = size
    · subst hn
      obtain ⟨blocks, buf, hb, hl, hwrong⟩ := ih (hrest rfl)
      refine ⟨List.replicate n 0 :: blocks, List.replicate n 0 ++ buf, ?_, ?_, ?_⟩
      · rw [List.map_cons, hb, List.length_replicate]
      · rw [List.length_append, List.length_replicate, hl]
        omega
      · intro m this fuel p l hc ha he hdata hs
        cases hc with
        | nil => cases hdata
        | @cons q l hq hc =>
          obtain ⟨hq0, hdata⟩ := List.cons.inj hdata
          cases fuel with
          | zero => nofun
          | succ fuel =>
            have hsize := hq.length
            rw [hq0, List.length_replicate] at hsize
            have hbuf : (List.replicate n (0 : UInt8) ++ buf).length = n + buf.length := by
              rw [List.length_append, List.length_replicate]
            have hround := cmpLoop_round this 0 fuel n (List.replicate n 0 ++ buf) hq ha.head
              (List.ne_nil_of_length_pos (by omega)) (by rw [if_pos (by omega), hs, Nat.sub_zero])
              (by omega)
              (by rw [hq0, List.length_replicate]; omega)
            have htake : (q.data.drop 0).take n = List.replicate n 0 := by simp [hq0]
            have hblock : (List.replicate n (0 : UInt8) ++ buf).take n = List.replicate n 0 :=
              List.take_left' List.length_replicate
            have hafter : (List.replicate n (0 : UInt8) ++ buf).drop n = buf :=
              List.drop_left' List.length_replicate
            rw [hround, htake, hblock, memcmp_self, if_neg (not_not.mpr rfl), hafter, flat_cons,
              hq0, flatCmp_append _ _ rfl, memcmp_self, if_pos rfl]
            exact hwrong m this fuel _ l hc ha.tail he.tail hdata hs
    · have hlens : (List.replicate n 0 :: sizes.map (List.replicate · 2) :
          List (List UInt8)).map List.length = n :: sizes := by
        simp [Function.comp_def]
      rcases Nat.lt_or_gt_of_ne hn with hlt | hgt
      · refine ⟨List.replicate n 0 :: sizes.map (List.replicate · 2), List.replicate r 0, hlens,
          List.length_replicate, fun m this fuel p l hc ha he hdata hs => ?_⟩
        cases hc with
        | nil => cases hdata
        | @cons q l hq hc =>
          have hq0 : q.data.length = n := by
            rw [(List.cons.inj hdata).1, List.length_replicate]
          rw [cmpLoop_behind hq ha.head (he q List.mem_cons_self) (by omega)
            (by rw [List.length_replicate]; omega)]
          nofun
      · refine ⟨List.replicate n 0 :: sizes.map (List.replicate · 2),
          List.replicate size 0 ++ List.replicate (r - size) 1, hlens, ?_,
          fun m this fuel p l hc ha he hdata hs => ?_⟩
        · rw [List.length_append, List.length_replicate, List.length_replicate]
          omega
        cases hc with
        | nil => cases hdata
        | @cons q l hq hc =>
          obtain ⟨hq0, hdata⟩ := List.cons.inj hdata
          refine cmpLoop_short hq ha.head hc ha.tail he.tail ?_ (hs ▸ hD) hq0 (by omega)
            (by omega) (by rw [hs])
          intro r hr
          have hr2 : r.data ∈ sizes.map (List.replicate · 2) := hdata ▸ List.mem_map_of_mem hr
          obtain ⟨k, -, hk⟩ := List.mem_map.mp hr2
          rw [← hk, List.length_replicate]

theorem exists_wrong {sizes : List Nat} {len : Nat} (h : ¬ Sizes sizes pos len) :
    ∃ (blocks : List (List UInt8)) (buf : List UInt8), blocks.map List.length = sizes ∧
      buf.length = len ∧ ∀ m fuel calls i l, Chain m (some i) l → Allocated l → Exact m l →
        l.map Piece.data = blocks →
        m.cmpFrom fuel calls i pos buf ≠ some (cmpBytes (flat l) pos buf) := by
  induction sizes generalizing pos with
  | nil => exact absurd trivial h
  | cons n sizes ih =>
    rw [Sizes] at h
    by_cases hn : n ≤ pos
    · rw [if_pos hn] at h
      obtain ⟨blocks, buf, hb, hl, hwrong⟩ := ih h
      refine ⟨List.replicate n 0 :: blocks, buf, ?_, hl, fun m fuel calls i l hc ha he hdata => ?_⟩
      · rw [List.map_cons, hb, List.length_replicate]
      cases l with
      | nil => cases hc
      | cons q l =>
        obtain ⟨hi, hq, hrest⟩ := hc.tail
        obtain rfl : i = q.place := Option.some.inj hi
        obtain ⟨hq0, hdata⟩ := List.cons.inj hdata
        have hql : q.data.length = n := by rw [hq0, List.length_replicate]
        cases calls with
        | zero => nofun
        | succ calls =>
          have hend : q.seg.dataSize ≤ pos := by
            rw [← hq.length]
            omega
          simp only [cmpFrom, hq.get, Option.bind_eq_bind, Option.bind_some, if_pos hend]
          cases hnext : q.seg.next with
          | none =>
            rw [hnext] at hrest
            cases hrest
            rw [← hdata] at hb
            subst hb
            exact absurd trivial h
          | some j =>
            rw [hnext] at hrest
            rw [flat_cons, cmpBytes_skip (hql ▸ hn), ← hq.length, hql]
            exact hwrong m fuel calls j l hrest ha.tail he.tail hdata
    · rw [if_neg hn] at h
      obtain ⟨blocks, buf, hb, hl, hwrong⟩ := exists_wrong_from (by omega) h
      have hpos : 0 < buf.length := by
        rw [hl]
        by_contra h0
        refine h ?_
        rw [Nat.eq_zero_of_not_pos h0]
        cases sizes with
        | nil => trivial
        | cons k sizes => exact .inl (Nat.zero_le k)
      refine ⟨List.replicate n 0 :: blocks, List.replicate (n - pos) 0 ++ buf, ?_, ?_,
        fun m fuel calls i l hc ha he hdata => ?_⟩
      · rw [List.map_cons, hb, List.length_replicate]
      · rw [List.length_append, List.length_replicate]
        omega
      cases l with
      | nil => cases hc
      | cons q l =>
        obtain ⟨hi, hq, hrest⟩ := hc.tail
        obtain rfl : i = q.place := Option.some.inj hi
        obtain ⟨hq0, hdata⟩ := List.cons.inj hdata
        have hql : q.data.length = n := by rw [hq0, List.length_replicate]
        have hsize := hq.length
        cases calls with
        | zero => nofun
        | succ calls =>
          have hend : ¬ q.seg.dataSize ≤ pos := by omega
          simp only [cmpFrom, hq.get, Option.bind_eq_bind, Option.bind_some, if_neg hend]
          cases fuel with
          | zero => nofun
          | succ fuel =>
            have hlen : (List.replicate (n - pos) (0 : UInt8) ++ buf).length =
                n - pos + buf.length := by
              rw [List.length_append, List.length_replicate]
            have hround := cmpLoop_round q.seg pos fuel (n - pos)
              (List.replicate (n - pos) 0 ++ buf) hq ha.head
              (List.ne_nil_of_length_pos (by omega)) (by rw [if_pos (by omega)]; omega)
              (by omega) (by omega)
            have hdrop : q.data.drop pos = List.replicate (n - pos) 0 := by
              rw [hq0, List.drop_replicate]
            have htake : (q.data.drop pos).take (n - pos) = List.replicate (n - pos) 0 := by
              rw [hdrop, List.take_replicate, Nat.min_self]
            have hblock : (List.replicate (n - pos) (0 : UInt8) ++ buf).take (n - pos) =
                List.replicate (n - pos) 0 := List.take_left' List.length_replicate
            have hafter : (List.replicate (n - pos) (0 : UInt8) ++ buf).drop (n - pos) = buf :=
              List.drop_left' List.length_replicate
            rw [flat_cons, cmpBytes_here (by omega), hround, htake, hblock, memcmp_self,
              if_neg (not_not.mpr rfl), hafter, hdrop, flatCmp_append _ _ rfl, memcmp_self,
              if_pos rfl]
            exact hwrong m q.seg fuel _ l hrest ha.tail he.tail hdata (by omega)

-- ---------------------------------------------------------------------------
-- Chains with given bytes
-- ---------------------------------------------------------------------------

/-- The `i`-th of `total` segments, with an array that holds its data and nothing else. -/
def pieceOf (total i : Nat) (data : List UInt8) : Piece :=
  ⟨i, ⟨if i + 1 < total then some (i + 1) else none, some i, true, some i, data.length, 0,
    data.length⟩, data⟩

def piecesOf (blocks : List (List UInt8)) : List Piece := blocks.mapIdx (pieceOf blocks.length)

/-- A segment for each block, one after the other. -/
def layout (blocks : List (List UInt8)) : BufferHeap :=
  ⟨(piecesOf blocks).map Piece.seg, blocks⟩

variable {blocks : List (List UInt8)}

theorem piecesOf_data (blocks : List (List UInt8)) : (piecesOf blocks).map Piece.data = blocks := by
  refine List.ext_getElem (by simp [piecesOf]) fun i _ _ => ?_
  simp [piecesOf, pieceOf]

theorem layout_lies (hi : i < blocks.length) :
    (pieceOf blocks.length i blocks[i]).Lies (layout blocks) where
  get := by simp [layout, BufferHeap.get, piecesOf, pieceOf, hi]
  data := by
    have hk : (layout blocks).arrays[i]? = some blocks[i] := List.getElem?_eq_getElem hi
    refine (load_of_array hk (Nat.le_of_eq (Nat.zero_add _))).trans ?_
    simp [pieceOf]

theorem layout_chain_from (blocks : List (List UInt8)) (n i : Nat) (hi : i + n = blocks.length) :
    Chain (layout blocks) (if i < blocks.length then some i else none)
      ((piecesOf blocks).drop i) := by
  have hlen : (piecesOf blocks).length = blocks.length := by simp [piecesOf]
  induction n generalizing i with
  | zero =>
    rw [if_neg (by omega), List.drop_eq_nil_of_le (by omega)]
    exact .nil
  | succ n ih =>
    have hlt : i < blocks.length := by omega
    have hp : i < (piecesOf blocks).length := hlen ▸ hlt
    have hpiece : (piecesOf blocks)[i] = pieceOf blocks.length i blocks[i] := by
      simp [piecesOf]
    rw [if_pos hlt, List.drop_eq_getElem_cons hp, hpiece]
    exact .cons (layout_lies hlt) (ih (i + 1) (by omega))

theorem layout_chain (h : blocks ≠ []) : Chain (layout blocks) (some 0) (piecesOf blocks) := by
  have hc := layout_chain_from blocks blocks.length 0 (Nat.zero_add _)
  rwa [if_pos (List.length_pos_iff.mpr h)] at hc

theorem layout_allocated (blocks : List (List UInt8)) : Allocated (piecesOf blocks) := by
  intro q hq
  obtain ⟨i, hi, rfl⟩ := List.mem_mapIdx.mp hq
  nofun

theorem layout_exact (blocks : List (List UInt8)) : Exact (layout blocks) (piecesOf blocks) := by
  intro q hq n hn
  obtain ⟨i, hi, rfl⟩ := List.mem_mapIdx.mp hq
  have hk : (layout blocks).arrays[i]? = some blocks[i] := List.getElem?_eq_getElem hi
  simp only [pieceOf] at hn ⊢
  simp only [load, hk, Nat.zero_add, Option.bind_eq_bind, Option.bind_some,
    if_neg (Nat.ne_zero_of_lt hn), if_neg (Nat.not_le.mpr hn)]

-- ---------------------------------------------------------------------------
-- The comparison does not depend on the cuts
-- ---------------------------------------------------------------------------

end BufferHeap

end TinyState
