import TinyState.Containers.BufferCopyin

/-!
# Putting a block in front

`unshift` opens the free space before the first data, puts new segments in front of the chain
and copies the block over what it has opened. It opens nothing where the segment has one holder
alone, and goes on for ever then. The copying writes into the arrays of the opened segments,
whoever else uses them, and keeps its position where the first segment gets another array.
-/

namespace TinyState

open LinkedList Rounds

namespace BufferHeap

/-- The free space before the data that one round opens. -/
def openFront (zeroFlag : Bool) (m : BufferHeap) (ret len : Nat) : Option (Nat × BufferHeap) := do
  let r ← m.get ret
  if zeroFlag then
    let s := if r.dataHead < len then r.dataHead else len
    some (s, m.set ret { r with dataHead := r.dataHead - s, dataSize := r.dataSize + s })
  else some (0, m)

/-- A new segment whose data begin and end at the end of its array. -/
def newFront (m : BufferHeap) (writable : Bool) (ret arraySize : Nat) :
    Option (Nat × BufferHeap) := do
  let (ary, m) := m.newArray arraySize
  let rr ← StdBuffer.terminator.initial (some ary) writable (some ary) arraySize 0 0
  some (m.newBuffer { rr with dataHead := rr.avairableSize, dataSize := 0, next := some ret })

/-- The loop of `unshift`. -/
def unshiftLoop (zeroFlag writable : Bool) (arraySize : Nat) :
    Nat → BufferHeap → Nat → Nat → Option (Nat × BufferHeap)
  | 0, _, _, _ => none
  | fuel + 1, m, ret, len =>
    if len = 0 then some (ret, m)
    else do
      let (s, m) ← m.openFront zeroFlag ret len
      if zeroFlag ∧ len - s = 0 then some (ret, m)
      else
        let (rr, m) ← m.newFront writable ret arraySize
        unshiftLoop zeroFlag writable arraySize fuel m rr (len - s)

/-- `unshift`, as far as the fuel goes; `refs` are the references to the segments. -/
def unshift (fuel : Nat) (m : BufferHeap) (refs : Nat → Nat) (this len arraySize : Nat) :
    Option (Nat × BufferHeap) := do
  let s ← m.get this
  unshiftLoop (len ≠ 0 ∧ refs this ≠ 1) s.writable arraySize fuel m this len

end BufferHeap

namespace BufferHandle

/-- `unshift` of a block. -/
def unshift (fuel : Nat) (m : BufferHeap) (w : Surroundings) (h : BufferHandle)
    (buf : List UInt8) : Option (BufferError × Int × BufferHeap × BufferHandle) := do
  let (b, m') ← m.unshift fuel w.bufferRefs (← h.b) buf.length h.arraySize
  let (erp, ret, m') ← BufferHeap.copyinLoop (refs m w) b h.arraySize fuel m' b
    (← m'.get b).dataHead buf w.ret
  some (erp, ret, m', { h with b := some b })

/-- `unshift` of a string. -/
def unshiftString (fuel : Nat) (m : BufferHeap) (w : Surroundings) (h : BufferHandle) :
    Option (List UInt8) → Option (BufferError × Int × BufferHeap × BufferHandle)
  | none => some (.ok, 0, m, h)
  | some str => unshift fuel m w h str

end BufferHandle

namespace BufferHeap

variable {m m' : BufferHeap} {refs : Nat → Nat} {i k n ret len arraySize fuel : Nat} {w : Bool}
  {q q' c f : Piece} {l rest cs : List Piece} {buf ary : List UInt8} {s : StdBuffer}

-- ---------------------------------------------------------------------------
-- Opening space in front
-- ---------------------------------------------------------------------------

/-- The segment with the free space before its data opened. -/
def openedSeg (s : StdBuffer) (len : Nat) : StdBuffer :=
  { s with
    dataHead := s.dataHead - min len s.dataHead, dataSize := s.dataSize + min len s.dataHead }

/-- What `newFront` makes. -/
def frontSeg (w : Bool) (k ret arraySize : Nat) : StdBuffer :=
  ⟨some ret, some k, w, some k, arraySize, arraySize, 0⟩

theorem openedSeg_fin (s : StdBuffer) (len : Nat) : (openedSeg s len).fin = s.fin := by
  simp only [openedSeg, StdBuffer.fin]
  omega

theorem Sound.opened (h : Sound m s) (hn : s.avairableTop = none → s.dataHead = 0) (len : Nat) :
    Sound m (openedSeg s len) := by
  have hfin := openedSeg_fin s len
  cases hk : s.avairableTop with
  | none =>
    simp only [Sound, hk] at h
    simp only [Sound, openedSeg, hk, h, hn hk, Nat.min_zero]
  | some k =>
    simp only [Sound, hk] at h
    simp only [Sound, openedSeg, hk] at hfin ⊢
    exact ⟨hfin ▸ h.1, h.2⟩

theorem openFront_eq (h : m.get i = some s) (len : Nat) :
    m.openFront true i len = some (min len s.dataHead, m.set i (openedSeg s len)) := by
  have hmin : (if s.dataHead < len then s.dataHead else len) = min len s.dataHead := by
    split <;> omega
  simp only [openFront, h, Option.bind_eq_bind, Option.bind_some, if_true, hmin]
  rfl

/-- The bytes that come to light are some bytes or other. -/
theorem open_chain (h : Chain m (some i) (q :: l)) (hs : Sound m q.seg)
    (hn : q.seg.avairableTop = none → q.seg.dataHead = 0) (len : Nat) :
    ∃ x, x.length = min len q.seg.dataHead ∧ Chain (m.set i (openedSeg q.seg len)) (some i)
      (⟨i, openedSeg q.seg len, x ++ q.data⟩ :: l) := by
  obtain ⟨hi, hq, hl⟩ := h.tail
  obtain rfl : i = q.place := Option.some.inj hi
  obtain ⟨x, hx⟩ : ∃ x, m.load q.seg.avairableTop (q.seg.dataHead - min len q.seg.dataHead)
      (min len q.seg.dataHead) = some x := by
    cases htop : q.seg.avairableTop with
    | none =>
      rw [hn htop, Nat.min_zero]
      exact ⟨[], load_zero⟩
    | some k =>
      simp only [Sound, htop, StdBuffer.fin] at hs
      obtain ⟨hfin, ary, ha, hle⟩ := hs
      exact ⟨_, load_of_array ha (by omega)⟩
  have hload : m.load q.seg.avairableTop (q.seg.dataHead - min len q.seg.dataHead)
      (min len q.seg.dataHead + q.seg.dataSize) = some (x ++ q.data) := by
    refine load_append hx ?_
    rw [Nat.sub_add_cancel (Nat.min_le_right len q.seg.dataHead)]
    exact hq.data
  refine ⟨x, load_length hx, .cons (q := ⟨q.place, openedSeg q.seg len, x ++ q.data⟩)
    ⟨get_set_self hq.get, ?_⟩ (hl.set (h.notMem))⟩
  rw [Nat.add_comm] at hload
  exact hload

theorem newFront_eq (m : BufferHeap) (w : Bool) (ret : Nat) (h0 : 0 < arraySize) :
    m.newFront w ret arraySize = some (m.buffers.length,
      ⟨m.buffers ++ [frontSeg w m.arrays.length ret arraySize],
        m.arrays ++ [List.replicate arraySize 0]⟩) := by
  have hinit : StdBuffer.terminator.initial (some m.arrays.length) w (some m.arrays.length)
      arraySize 0 0 =
        some ⟨none, some m.arrays.length, w, some m.arrays.length, arraySize, 0, 0⟩ := by
    rw [StdBuffer.initial, if_neg (by omega)]
    rfl
  simp only [newFront, newArray, hinit, Option.bind_eq_bind, Option.bind_some]
  rfl

/-- The new segment is in front of the chain. -/
theorem newFront_chain (h : Chain m (some ret) l) (w : Bool) (arraySize : Nat) :
    Chain ⟨m.buffers ++ [frontSeg w m.arrays.length ret arraySize],
        m.arrays ++ [List.replicate arraySize 0]⟩ (some m.buffers.length)
      (⟨m.buffers.length, frontSeg w m.arrays.length ret arraySize, []⟩ :: l) := by
  refine .cons (q := ⟨m.buffers.length, frontSeg w m.arrays.length ret arraySize, []⟩)
    ⟨List.getElem?_concat_length, load_zero⟩ (h.frame fun r hr => ?_)
  have hr := h.lies r hr
  exact hr.arrays ((getElem?_append_some hr.get).trans hr.get.symm)
    fun k ary _ hk => getElem?_append_some hk

/-- A segment in front with an array of its own. -/
structure Fresh (m : BufferHeap) (w : Bool) (arraySize first : Nat) (c : Piece) : Prop where
  container : c.seg.container = c.seg.avairableTop
  writable : c.seg.writable = w
  top : ∃ k, first ≤ k ∧ c.seg.avairableTop = some k
  size : 0 < c.seg.dataSize
  sound : Sound m c.seg
  fin : c.seg.fin = arraySize

/-- What the loop of `unshift` leaves: `cs` are the segments in front, and together with the space
before the data of `q` they have the length that is asked for. -/
structure Widened (m m' : BufferHeap) (w : Bool) (arraySize ret : Nat) (cs : List Piece)
    (q q' : Piece) (l : List Piece) (len : Nat) : Prop where
  chain : Chain m' (some ret) (cs ++ q' :: l)
  place : q'.place = q.place
  seg : q'.seg = openedSeg q.seg len
  size : (flat cs).length + min len q.seg.dataHead = len
  fresh : ∀ c ∈ cs, Fresh m' w arraySize m.arrays.length c
  apart : cs.Pairwise fun a b => a.seg.avairableTop ≠ b.seg.avairableTop
  arrays : ∀ (k : Nat) (ary : List UInt8), m.arrays[k]? = some ary → m'.arrays[k]? = some ary

theorem Fresh.le (h : Fresh m w arraySize n c) (hk : k ≤ n) : Fresh m w arraySize k c := by
  obtain ⟨j, hj, htop⟩ := h.top
  exact { h with top := ⟨j, Nat.le_trans hk hj, htop⟩ }

/-- A new segment that is opened. -/
theorem fresh_opened {x : List UInt8} (h0 : 0 < arraySize) (hlen : 0 < len)
    (ha : m.arrays[k]? = some ary) (hary : ary.length = arraySize) :
    Fresh m w arraySize k ⟨i, openedSeg (frontSeg w k ret arraySize) len, x⟩ where
  container := rfl
  writable := rfl
  top := ⟨k, Nat.le_refl k, rfl⟩
  size := by
    simp only [openedSeg, frontSeg]
    omega
  sound := by
    refine Sound.opened (s := frontSeg w k ret arraySize) ?_ nofun len
    simp only [Sound, frontSeg, StdBuffer.fin]
    exact ⟨Nat.le_refl _, ary, ha, Nat.le_of_eq hary.symm⟩
  fin := by
    rw [openedSeg_fin]
    rfl

theorem unshiftLoop_zero (zeroFlag : Bool) : unshiftLoop zeroFlag w arraySize 0 m ret len = none :=
  rfl

theorem unshiftLoop_last (h : m.get i = some s) (hlen : 0 < len) (hd : len ≤ s.dataHead) (n : Nat) :
    unshiftLoop true w arraySize (n + 1) m i len = some (i, m.set i (openedSeg s len)) := by
  have hmin : len - min len s.dataHead = 0 := by omega
  simp [unshiftLoop, Nat.ne_of_gt hlen, openFront_eq h, hmin]

theorem unshiftLoop_more (h : m.get i = some s) (h0 : 0 < arraySize) (hd : s.dataHead < len)
    (n : Nat) :
    unshiftLoop true w arraySize (n + 1) m i len = unshiftLoop true w arraySize n
      ⟨(m.set i (openedSeg s len)).buffers ++ [frontSeg w m.arrays.length i arraySize],
        m.arrays ++ [List.replicate arraySize 0]⟩ m.buffers.length (len - s.dataHead) := by
  have hmin : min len s.dataHead = s.dataHead := by omega
  have hne : len ≠ 0 := by omega
  have hmore : ¬ len - s.dataHead = 0 := by omega
  have hlen : (m.set i (openedSeg s len)).buffers.length = m.buffers.length := List.length_set
  simp only [unshiftLoop, hne, openFront_eq h, hmin, hmore, newFront_eq _ _ _ h0,
    Option.bind_eq_bind, Option.bind_some, if_false, and_false, hlen]
  rfl

/-- The loop opens as much as is asked for. -/
theorem unshiftLoop_spec (h : Chain m (some i) (q :: l)) (hs : Sound m q.seg)
    (hn : q.seg.avairableTop = none → q.seg.dataHead = 0) (h0 : 0 < arraySize) (hlen : 0 < len) :
    ∃ ret m' cs q', Returns (fun fuel => unshiftLoop true w arraySize fuel m i len) (ret, m') ∧
      Widened m m' w arraySize ret cs q q' l len := by
  -- after the first round there is space before the data in each one
  obtain ⟨n, hlt⟩ : ∃ n, len + (if q.seg.dataHead = 0 then 1 else 0) ≤ n := ⟨_, Nat.le_refl _⟩
  induction n generalizing m i q l len with
  | zero => omega
  | succ n ih =>
    obtain ⟨hi, hq, -⟩ := h.tail
    obtain ⟨x, hx, hc⟩ := open_chain h hs hn len
    by_cases hd : len ≤ q.seg.dataHead
    · refine ⟨i, _, [], ⟨i, openedSeg q.seg len, x ++ q.data⟩,
        .done rfl fun fuel => unshiftLoop_last (Option.some.inj hi ▸ hq.get) hlen hd fuel,
        hc, Option.some.inj hi, rfl, ?_, nofun, .nil, fun k ary hk => hk⟩
      rw [flat_nil, List.length_nil]
      omega
    · have hmore : 0 < len - q.seg.dataHead := by omega
      have hc' := newFront_chain hc w arraySize
      have hary : (m.arrays ++ [List.replicate arraySize (0 : UInt8)])[m.arrays.length]? =
          some (List.replicate arraySize 0) := List.getElem?_concat_length
      obtain ⟨ret, m', cs, f, hret, hwid⟩ := ih hc' (by
          simp only [Sound, frontSeg, StdBuffer.fin, set_arrays]
          exact ⟨Nat.le_refl _, _, hary, Nat.le_of_eq List.length_replicate.symm⟩) nofun hmore
        (by
          simp only [frontSeg, Nat.ne_of_gt h0, if_false]
          split at hlt <;> omega)
      refine ⟨ret, m', cs ++ [f], ⟨i, openedSeg q.seg len, x ++ q.data⟩,
        hret.step rfl fun fuel => ?_, ?_⟩
      · rw [unshiftLoop_more (Option.some.inj hi ▸ hq.get) h0 (by omega)]
        simp only [List.length_set, BufferHeap.set]
      · have hfresh : Fresh m' w arraySize m.arrays.length f := by
          have hf : Fresh m' w arraySize m.arrays.length ⟨f.place,
              openedSeg (frontSeg w m.arrays.length i arraySize) (len - q.seg.dataHead), f.data⟩ :=
            fresh_opened h0 hmore (hwid.arrays _ _ hary) List.length_replicate
          obtain ⟨fp, fs, fd⟩ := f
          obtain rfl : fs = _ := hwid.seg
          exact hf
        have hlf := (hwid.chain.lies f (by simp)).length
        refine ⟨by rw [List.append_assoc]; exact hwid.chain, Option.some.inj hi, rfl, ?_, ?_, ?_,
          fun k ary hk => hwid.arrays k ary (getElem?_append_some hk)⟩
        · have hsize := hwid.size
          rw [hwid.seg] at hlf
          simp only [openedSeg, frontSeg] at hlf hsize
          rw [flat_append, flat_cons, flat_nil, List.append_nil, List.length_append]
          omega
        · intro c hm
          rcases List.mem_append.mp hm with hm | hm
          · refine (hwid.fresh c hm).le ?_
            rw [List.length_append]
            exact Nat.le_add_right _ _
          · rwa [List.mem_singleton.mp hm]
        · refine List.pairwise_append.mpr ⟨hwid.apart, List.pairwise_singleton _ _, ?_⟩
          intro a ha b hb
          obtain ⟨k, hk, htop⟩ := (hwid.fresh a ha).top
          rw [List.mem_singleton.mp hb, hwid.seg, htop]
          simp only [openedSeg, frontSeg]
          intro he
          have hke : k = m.arrays.length := Option.some.inj he
          have hlt : m.arrays.length + 1 ≤ k := by simpa using hk
          omega

/-- Where nothing is opened the loop goes on for ever. -/
theorem unshiftLoop_endless (hlen : len ≠ 0) :
    unshiftLoop false w arraySize fuel m i len = none := by
  induction fuel generalizing m i with
  | zero => rfl
  | succ fuel ih =>
    simp only [unshiftLoop, hlen, openFront, if_false, Bool.false_eq_true, false_and, ih,
      Option.bind_eq_bind, Option.bind_assoc, Option.bind_some, Nat.sub_zero, Option.bind_fun_none]

-- ---------------------------------------------------------------------------
-- When the block is in front
-- ---------------------------------------------------------------------------

/-- None of the `d` bytes before the data of `q` are data of a segment of `l`. -/
def Clear (q : Piece) (l : List Piece) (d : Nat) : Prop :=
  ∀ r ∈ l, r.seg.avairableTop = q.seg.avairableTop → ∀ j, q.seg.dataHead - d ≤ j →
    j < q.seg.dataHead → ¬ (r.seg.dataHead ≤ j ∧ j < r.seg.fin)

/-- The block comes to lie where it belongs: over free space before the data of the first segment
that no further segment uses, or in a new array, and new segments may be written. -/
def Fits (refs : Nat → Nat) (q : Piece) (l : List Piece) (len arraySize : Nat) : Prop :=
  if len ≤ q.seg.dataHead then
    if q.seg.is_writable refs then Clear q l len
    else len = q.seg.dataHead ∧ q.seg.dataSize + len < arraySize
  else q.seg.writable ∧ Clear q l q.seg.dataHead

/-- The chain that `unshift` is called on. -/
structure Given (m : BufferHeap) (refs : Nat → Nat) (i : Nat) (q : Piece) (l : List Piece) :
    Prop where
  chain : Chain m (some i) (q :: l)
  sound : ∀ r ∈ q :: l, Sound m r.seg
  empty : q.seg.avairableTop = none → q.seg.dataHead = 0
  new : ∀ k, m.arrays.length ≤ k → refs k = 1

variable {m₁ : BufferHeap}

namespace Widened

section

variable (h : Widened m m₁ w arraySize ret cs q q' l len) (hg : Given m refs i q l)

include h

theorem cs_nil : cs = [] ↔ len ≤ q.seg.dataHead := by
  have hsize := h.size
  cases hcs : cs with
  | nil =>
    rw [hcs, flat_nil, List.length_nil] at hsize
    exact ⟨fun _ => by omega, fun _ => rfl⟩
  | cons c cs =>
    subst hcs
    have hc := (h.chain.lies c (by simp)).length
    have hpos := (h.fresh c List.mem_cons_self).size
    rw [flat_cons, List.length_append] at hsize
    exact ⟨nofun, fun hle => by omega⟩

theorem first : ∃ s, m₁.get ret = some s := by
  obtain ⟨r, rest, -, rfl, hr, -⟩ := h.chain.head
  exact ⟨r.seg, hr.get⟩

theorem after : Chain m₁ q'.seg.next l := by
  obtain ⟨p', hp⟩ := h.chain.suffix
  exact hp.tail.2.2

include hg

theorem sounds : ∀ r ∈ q' :: l, Sound m₁ r.seg := by
  obtain ⟨hq, hl⟩ := List.forall_mem_cons.mp hg.sound
  refine List.forall_mem_cons.mpr ⟨?_, fun r hr => ((hl r hr).frame h.arrays).1⟩
  rw [h.seg]
  exact (hq.frame h.arrays).1.opened hg.empty len

theorem others : ∀ c ∈ cs, ∀ r ∈ q' :: l, c.seg.avairableTop ≠ r.seg.avairableTop := by
  obtain ⟨hq, hl⟩ := List.forall_mem_cons.mp hg.sound
  intro c hc r hr he
  obtain ⟨k, hk, htop⟩ := (h.fresh c hc).top
  rw [htop] at he
  refine Nat.not_lt.mpr hk ?_
  rcases List.mem_cons.mp hr with rfl | hr
  · rw [h.seg] at he
    exact hq.lt he.symm
  · exact (hl r hr).lt he.symm

theorem new : refs m₁.arrays.length = 1 := by
  refine hg.new _ (Nat.le_of_not_lt fun hlt => ?_)
  have hk := h.arrays _ _ (List.getElem?_eq_getElem hlt)
  rw [List.getElem?_eq_none (Nat.le_refl _)] at hk
  cases hk

/-- The data of the first segment are where they were. -/
theorem data : m₁.load q'.seg.avairableTop (q'.seg.dataHead + min len q.seg.dataHead)
    q.seg.dataSize = some q.data := by
  have hx := load_of_arrays hg.chain.tail.2.1.data fun k ary _ hk => h.arrays k ary hk
  rw [h.seg]
  simp only [openedSeg]
  rwa [Nat.sub_add_cancel (Nat.min_le_right len q.seg.dataHead)]

/-- Where the first segment may be written, the block is copied to where space is opened. -/
theorem fill (hp : m₁.get ret = some s) (hw : s.is_writable refs) (hbuf : buf.length = len)
    (v : Int) :
    ∃ m', Returns (fun fuel => copyinLoop refs ret arraySize fuel m₁ ret s.dataHead buf v)
      (.ok, v + buf.length, m') ∧ Filled m₁ m' ret cs q' (min len q.seg.dataHead) buf := by
  refine copyin_fills h.chain (fun c hc => ?_) (h.sounds hg q' List.mem_cons_self) ?_
    (hbuf.trans h.size.symm) h.apart (h.others hg) hp hw hp v
  · have hf := h.fresh c hc
    obtain ⟨k, -, hk⟩ := hf.top
    exact ⟨hf.size, by rw [hk]; nofun, hf.sound⟩
  · rw [h.seg]
    exact Nat.le_add_left _ _

/-- Then the chain holds the block and what it held where the opened space is clear. -/
theorem fill_right (hf : Filled m₁ m' ret cs q' (min len q.seg.dataHead) buf)
    (hc : Clear q l (min len q.seg.dataHead)) : Contains m' (some ret) (buf ++ flat (q :: l)) := by
  have hq : m₁.get q'.place = some q'.seg := (h.chain.lies q' (by simp)).get
  refine hf.contains hq (h.data hg) ?_ (fun c hc => h.others hg c hc q' List.mem_cons_self)
    (hf.clear h.after (fun c hc r hr => h.others hg c hc r (List.mem_cons_of_mem _ hr)) ?_)
  · rw [h.seg, Nat.add_comm]
    rfl
  · rw [h.seg]
    intro r hr htop j hj hlt
    simp only [openedSeg] at hj hlt htop
    exact hc r hr htop j hj (by omega)

/-- And where it is not, some block is all wrong. -/
theorem fill_wrong (hc : ¬ Clear q l (min len q.seg.dataHead)) :
    ∃ b' : UInt8, ∀ m', Filled m₁ m' ret cs q' (min len q.seg.dataHead) (List.replicate len b') →
      ¬ Contains m' (some ret) (List.replicate len b' ++ flat (q :: l)) := by
  simp only [Clear, not_forall] at hc
  obtain ⟨r, hr, htop, j, hj, hlt, hin⟩ := hc
  rw [not_not] at hin
  have hrs := h.sounds hg r (List.mem_cons_of_mem _ hr)
  obtain ⟨k, hk⟩ : ∃ k, r.seg.avairableTop = some k := Option.ne_none_iff_exists'.mp fun hnone => by
    simp only [Sound, hnone] at hrs
    simp only [StdBuffer.fin] at hin
    omega
  obtain ⟨b, hb⟩ : ∃ b, m₁.byteAt k j = some b := by
    simp only [Sound, hk] at hrs
    obtain ⟨hfin, ary, ha, hle⟩ := hrs
    exact Option.isSome_iff_exists.mp (byteAt_isSome.mpr ⟨ary, ha, by omega⟩)
  refine ⟨b + 1, fun m' hf => ?_⟩
  have hq : m₁.get q'.place = some q'.seg := (h.chain.lies q' (by simp)).get
  have hbuf : List.replicate len (b + 1) = .replicate (List.replicate len (b + 1)).length (b + 1) := by
    rw [List.length_replicate]
  have hne : b + 1 ≠ b := by simp
  refine hf.overwritten (j := j) hq (h.data hg) ?_
    (fun c hc => h.others hg c hc q' List.mem_cons_self) h.after
    (fun r hr => h.sounds hg r (List.mem_cons_of_mem _ hr)) hr hk ?_ ?_ hin hb hbuf hne
  · rw [h.seg, Nat.add_comm]
    rfl
  · rw [h.seg]
    exact htop.symm.trans hk
  · rw [h.seg]
    simp only [openedSeg]
    omega

/-- Where the one segment there is gets another array, the block is copied to its beginning. -/
theorem renew (hle : len ≤ q.seg.dataHead) (hw : ¬ q.seg.is_writable refs)
    (hhead : len = q.seg.dataHead) (hsize : q.seg.dataSize + len < arraySize)
    (hbuf : buf.length = len) (h0 : 0 < len) (hp : m₁.get ret = some s) (v : Int) :
    ∃ m', Returns (fun fuel => copyinLoop refs ret arraySize fuel m₁ ret s.dataHead buf v)
      (.ok, v + buf.length, m') ∧ Contains m' (some ret) (buf ++ flat (q :: l)) := by
  obtain rfl := h.cs_nil.mpr hle
  obtain ⟨hi, hq, -⟩ := h.chain.tail
  obtain rfl : ret = q'.place := Option.some.inj hi
  obtain rfl : q'.seg = s := Option.some.inj (hq.get.symm.trans hp)
  have hmin : min len q.seg.dataHead = len := Nat.min_eq_left hle
  have hw' : ¬ q'.seg.is_writable refs := by
    rw [h.seg]
    exact hw
  have hd : q'.seg.dataSize = len + q.seg.dataSize ∧ q'.seg.dataHead = 0 := by
    rw [h.seg]
    simp only [openedSeg, hmin]
    omega
  have hlt : q'.seg.dataSize < arraySize := by omega
  have htop : q'.seg.avairableTop ≠ none := fun hn => by
    rw [h.seg] at hn
    exact absurd (hg.empty hn) (by omega)
  have hne : buf ≠ [] := List.ne_nil_of_length_pos (by omega)
  have hr : m₁.refresh refs q'.place arraySize = some (m₁.refreshed q' arraySize) :=
    refresh_eq hq hw' hlt
  have hrl : (q'.renewed m₁ arraySize).Lies (m₁.refreshed q' arraySize) := renewed_lies hq
  have hch : Chain (m₁.refreshed q' arraySize) (some q'.place)
      ([] ++ q'.renewed m₁ arraySize :: l) := refreshed_chain h.chain
  have hone : refs m₁.arrays.length = 1 := h.new hg
  have hrw : (m₁.renewed q' arraySize).is_writable refs := by
    simp [StdBuffer.is_writable, BufferHeap.renewed, hone]
  have hs : Sound (m₁.refreshed q' arraySize) (m₁.renewed q' arraySize) := by
    refine ⟨?_, _, List.getElem?_concat_length, ?_⟩
    · simp only [StdBuffer.fin, BufferHeap.renewed]
      omega
    · rw [List.length_append, List.length_replicate, hq.length]
      exact Nat.le_of_eq (Nat.add_sub_cancel' (Nat.le_of_lt hlt)).symm
  have hle' : len ≤ (q'.renewed m₁ arraySize).seg.dataSize := by
    change len ≤ q'.seg.dataSize
    omega
  obtain ⟨m', hret, hf⟩ := copyin_fills (d := len) hch (fun _ h => by cases h) hs hle' (by simpa using hbuf) .nil
    (fun _ h => by cases h) hrl.get hrw hrl.get v
  refine ⟨m', ?_, hf.contains (n := q.seg.dataSize) hrl.get ?_ (hd.1) (fun _ h => by cases h)
    (hf.clear hch.tail.2.2 (fun _ h => by cases h) fun r hr hk => ?_)⟩
  · have hround : ∀ fuel, copyinLoop refs q'.place arraySize fuel m₁ q'.place 0 buf v =
        copyinLoop refs q'.place arraySize fuel (m₁.refreshed q' arraySize) q'.place 0 buf v := by
      refine copyin_refresh hq.get htop hne hr hrl.get (fun h => by cases h) hrw ?_ ?_
      · rw [StdBuffer.fin]
        omega
      · change 0 < 0 + q'.seg.dataSize
        omega
    rw [hd.2]
    simp only [hround]
    exact hret
  · have hload := load_drop hq.data (n := len) (by omega)
    have hold := h.data hg
    rw [hmin] at hold
    rw [hd.1, Nat.add_sub_cancel_left, hold] at hload
    have hnew := load_drop hrl.data hle'
    rw [Option.some.inj hload]
    change (m₁.refreshed q' arraySize).load (some m₁.arrays.length) (0 + len)
      (q'.seg.dataSize - len) = _ at hnew
    rwa [hd.1, Nat.add_sub_cancel_left] at hnew
  · exact absurd ((h.sounds hg r (List.mem_cons_of_mem _ hr)).lt hk) (Nat.lt_irrefl _)

end

end Widened

/-- Whether the first segment may be written. -/
theorem Widened.writable (h : Widened m m₁ w arraySize ret cs q q' l len) (hg : Given m refs i q l)
    (hp : m₁.get ret = some s) :
    s.is_writable refs = if len ≤ q.seg.dataHead then q.seg.is_writable refs else w := by
  obtain ⟨r, rest, hr, hi, hrl, -⟩ := h.chain.head
  obtain rfl : r.seg = s := Option.some.inj (hrl.get.symm.trans (hi ▸ hp))
  cases hcs : cs with
  | nil =>
    rw [hcs] at hr
    obtain rfl := (List.cons.inj hr).1
    rw [if_pos (h.cs_nil.mp hcs), h.seg]
    rfl
  | cons c cs' =>
    rw [hcs] at hr
    obtain rfl := (List.cons.inj hr).1
    have hc := h.fresh c (by rw [hcs]; exact List.mem_cons_self)
    obtain ⟨k, hk, htop⟩ := hc.top
    rw [if_neg fun hle => by simpa [hcs] using h.cs_nil.mpr hle, StdBuffer.is_writable,
      hc.container, htop, hc.writable]
    simp [hg.new k hk]

theorem Widened.right {v : Int} (h : Widened m m₁ q.seg.writable arraySize ret cs q q' l len)
    (hg : Given m refs i q l) (h0 : 0 < len) (hfit : Fits refs q l len arraySize)
    (hbuf : buf.length = len) (hp : m₁.get ret = some s) :
    ∃ m', Returns (fun fuel => copyinLoop refs ret arraySize fuel m₁ ret s.dataHead buf v)
      (.ok, v + buf.length, m') ∧ Contains m' (some ret) (buf ++ flat (q :: l)) := by
  have hw := h.writable hg hp
  by_cases hle : len ≤ q.seg.dataHead
  · rw [Fits, if_pos hle] at hfit
    rw [if_pos hle] at hw
    by_cases hqw : q.seg.is_writable refs
    · rw [if_pos hqw] at hfit
      obtain ⟨m', hret, hf⟩ := h.fill hg hp (hw.trans hqw) hbuf v
      exact ⟨m', hret, h.fill_right hg hf (by rwa [Nat.min_eq_left hle])⟩
    · rw [if_neg hqw] at hfit
      exact h.renew hg hle hqw hfit.1 hfit.2 hbuf h0 hp v
  · rw [Fits, if_neg hle] at hfit
    rw [if_neg hle] at hw
    obtain ⟨m', hret, hf⟩ := h.fill hg hp (hw.trans hfit.1) hbuf v
    exact ⟨m', hret, h.fill_right hg hf (by rw [Nat.min_eq_right (by omega)]; exact hfit.2)⟩

/-- What goes wrong with a first segment that may not be written. -/
theorem Widened.head_bad (h : Widened m m₁ q.seg.writable arraySize ret cs q q' l len)
    (hg : Given m refs i q l) (h0 : 0 < len) (hfit : ¬ Fits refs q l len arraySize)
    (hr : cs ++ q' :: l = f :: rest) (hw : ¬ f.seg.is_writable refs) :
    f.seg.avairableTop ≠ none ∧ 0 < f.seg.dataSize ∧
      (0 < f.seg.dataHead ∨ arraySize ≤ f.seg.dataSize) := by
  cases hcs : cs with
  | nil =>
    have hle := h.cs_nil.mp hcs
    rw [hcs] at hr
    obtain rfl := (List.cons.inj hr).1
    have hqw : ¬ q.seg.is_writable refs := by
      rw [h.seg] at hw
      exact hw
    rw [Fits, if_pos hle, if_neg hqw] at hfit
    rw [h.seg]
    simp only [openedSeg, Nat.min_eq_left hle]
    refine ⟨fun hn => ?_, by omega, by omega⟩
    exact absurd (hg.empty hn) (by omega)
  | cons c cs' =>
    rw [hcs] at hr
    obtain rfl := (List.cons.inj hr).1
    have hc := h.fresh c (by rw [hcs]; exact List.mem_cons_self)
    obtain ⟨k, -, hk⟩ := hc.top
    have hfin := hc.fin
    have hsize := hc.size
    simp only [StdBuffer.fin] at hfin
    exact ⟨by rw [hk]; rintro ⟨⟩, hsize, by omega⟩

theorem Widened.wrong {v : Int} (h : Widened m m₁ q.seg.writable arraySize ret cs q q' l len)
    (hg : Given m refs i q l) (ha : 0 < arraySize) (h0 : 0 < len)
    (hfit : ¬ Fits refs q l len arraySize) (hp : m₁.get ret = some s) :
    ∃ buf : List UInt8, buf.length = len ∧ ∀ fuel erp v' m',
      copyinLoop refs ret arraySize fuel m₁ ret s.dataHead buf v = some (erp, v', m') →
        ¬ Contains m' (some ret) (buf ++ flat (q :: l)) := by
  have hw := h.writable hg hp
  by_cases hsw : s.is_writable refs
  · -- the opened space is not clear
    have hc : ¬ Clear q l (min len q.seg.dataHead) := fun hc => hfit (by
      rw [Fits]
      rw [hsw] at hw
      split at hw
      · next hle =>
        rw [if_pos hle, if_pos hw.symm]
        rwa [Nat.min_eq_left hle] at hc
      · next hle =>
        rw [if_neg hle]
        rw [Nat.min_eq_right (by omega)] at hc
        exact ⟨hw.symm, hc⟩)
    obtain ⟨b', hb'⟩ := h.fill_wrong hg hc
    refine ⟨List.replicate len b', List.length_replicate, fun fuel erp v' m' hloop => ?_⟩
    obtain ⟨m'', hret, hf⟩ := h.fill hg hp hsw (List.length_replicate (a := b')) v
    have hm := hret.unique hloop
    cases hm
    exact hb' m' hf
  · obtain ⟨f, rest, hr, hi, hfl, -⟩ := h.chain.head
    obtain rfl : f.seg = s := Option.some.inj (hfl.get.symm.trans (hi ▸ hp))
    obtain ⟨htop, hsize, hbad⟩ := h.head_bad hg h0 hfit hr hsw
    have hlen := hfl.length
    obtain ⟨b, hb⟩ : ∃ b, f.data[0]? = some b := ⟨_, List.getElem?_eq_getElem (by omega)⟩
    refine ⟨List.replicate len (b + 1), List.length_replicate, fun fuel erp v' m' hloop hc => ?_⟩
    have hch := hr ▸ h.chain
    have hx := copyin_unwritable hch (fun r hrm => ?_) htop hsw ha hsize hbad (h.new hg)
      (List.ne_nil_of_length_pos (by rwa [List.length_replicate])) hloop hc
    · rw [hb, List.getElem?_append_left (by rwa [List.length_replicate]),
        List.getElem?_replicate, if_pos h0] at hx
      simpa using Option.some.inj hx
    · have hm : r ∈ cs ++ q' :: l := hr ▸ List.mem_cons_of_mem f hrm
      rcases List.mem_append.mp hm with hm | hm
      · exact (h.fresh r hm).sound
      · exact h.sounds hg r hm

/-- `unshift` puts every block of a length in front of what the handle holds if and only if it is
empty, or there is another holder of the segment and the block comes to lie where it belongs. -/
theorem unshift_law {H : BufferHandle} {e : Surroundings}
    (h : Chain m (some i) (q :: l)) (hs : ∀ r ∈ q :: l, Sound m r.seg)
    (hn : q.seg.avairableTop = none → q.seg.dataHead = 0) (hb : H.b = some i)
    (h0 : 0 < H.arraySize) (len : Nat) :
    (∀ str : Option (List UInt8), (str.getD []).length = len → ∃ fuel ret m' H',
        H.unshiftString fuel m e str = some (.ok, ret, m', H') ∧
          Contains m' H'.b (str.getD [] ++ flat (q :: l))) ↔
      len = 0 ∨ e.bufferRefs i ≠ 1 ∧ Fits (BufferHandle.refs m e) q l len H.arraySize := by
  have hget : m.get i = some q.seg := by
    obtain ⟨hi, hq, -⟩ := h.tail
    rw [Option.some.inj hi]
    exact hq.get
  have hg : Given m (BufferHandle.refs m e) i q l :=
    ⟨h, hs, hn, fun k hk => if_neg (Nat.not_lt.mpr hk)⟩
  rcases Nat.eq_zero_or_pos len with rfl | hlen
  · refine ⟨fun _ => .inl rfl, fun _ str hstr => ?_⟩
    cases str with
    | none => exact ⟨0, 0, m, H, rfl, _, hb ▸ h, rfl⟩
    | some str =>
      obtain rfl := List.eq_nil_of_length_eq_zero hstr
      refine ⟨1, e.ret, m, { H with b := some i }, ?_, _, h, rfl⟩
      simp [BufferHandle.unshiftString, BufferHandle.unshift, hb, BufferHeap.unshift, hget,
        unshiftLoop, copyinLoop]
  have hflag : ∀ fuel (buf : List UInt8), buf.length = len → H.unshiftString fuel m e (some buf) =
      (unshiftLoop (e.bufferRefs i ≠ 1) q.seg.writable H.arraySize fuel m i len).bind fun r =>
        (r.2.get r.1).bind fun s =>
          (copyinLoop (BufferHandle.refs m e) r.1 H.arraySize fuel r.2 r.1 s.dataHead buf
            e.ret).bind fun x => some (x.1, x.2.1, x.2.2, { H with b := r.1 }) := by
    intro fuel buf hbuf
    simp [BufferHandle.unshiftString, BufferHandle.unshift, hb, BufferHeap.unshift, hget, hbuf,
      Nat.ne_of_gt hlen]
  by_cases hone : e.bufferRefs i = 1
  · refine ⟨fun hall => ?_, fun hfit => ?_⟩
    · obtain ⟨fuel, ret, m', H', hrun, -⟩ := hall (some (List.replicate len 0)) (by simp)
      rw [hflag _ _ (by simp)] at hrun
      simp only [hone, ne_eq, not_true_eq_false, decide_false, unshiftLoop_endless
        (Nat.ne_of_gt hlen), Option.bind_none, reduceCtorEq] at hrun
    · rcases hfit with h' | h'
      · exact absurd h' (Nat.ne_of_gt hlen)
      · exact absurd hone h'.1
  obtain ⟨ret, m₁, cs, q', hret, hwid⟩ := unshiftLoop_spec (w := q.seg.writable) h
    (hs q List.mem_cons_self) hn h0 hlen
  obtain ⟨s, hp⟩ := hwid.first
  simp only [hone, ne_eq, not_false_eq_true, decide_true] at hflag
  constructor
  · intro hall
    refine .inr ⟨hone, Classical.byContradiction fun hfit => ?_⟩
    obtain ⟨buf, hbuf, hno⟩ := hwid.wrong (v := e.ret) hg h0 hlen hfit hp
    obtain ⟨fuel, v, m', H', hrun, hc⟩ := hall (some buf) hbuf
    rw [hflag _ _ hbuf] at hrun
    obtain ⟨r, hr, hrun⟩ := Option.bind_eq_some_iff.mp hrun
    obtain rfl := hret.unique hr
    obtain ⟨s', hs', hrun⟩ := Option.bind_eq_some_iff.mp hrun
    obtain rfl : s = s' := Option.some.inj (hp.symm.trans hs')
    obtain ⟨⟨erp, v', m''⟩, hloop, hrun⟩ := Option.bind_eq_some_iff.mp hrun
    cases hrun
    exact hno _ _ _ _ hloop hc
  · rintro (h' | ⟨-, hfit⟩) str hstr
    · exact absurd h' (Nat.ne_of_gt hlen)
    cases str with
    | none => exact absurd hstr.symm (Nat.ne_of_gt hlen)
    | some buf =>
      have hbuf : buf.length = len := hstr
      obtain ⟨m', hloop, hc⟩ := hwid.right (v := e.ret) hg hlen hfit hbuf hp
      obtain ⟨fuel, hrun⟩ := (hret.bind (k := fun r fuel =>
        copyinLoop (BufferHandle.refs m e) r.1 H.arraySize fuel r.2 r.1 s.dataHead buf e.ret)
        hloop).exists
      refine ⟨fuel, e.ret + buf.length, m', { H with b := some ret }, ?_, hc⟩
      obtain ⟨r, hr, hrun⟩ := Option.bind_eq_some_iff.mp hrun
      obtain rfl := hret.unique hr
      rw [hflag _ _ hbuf, hr, Option.bind_some, hp, Option.bind_some, hrun, Option.bind_some]

/-- One byte in the middle of an array of four. -/
def middle : BufferHeap := ⟨[⟨none, some 0, true, some 0, 4, 1, 1⟩], [[0, 7, 0, 0]]⟩

theorem unshift_law_middle : ∃ fuel ret m' H',
    BufferHandle.unshiftString fuel middle ⟨0, fun _ => 1, fun _ => 2, true⟩ ⟨some 0, .append, 4⟩
      (some [4, 5, 6]) = some (.ok, ret, m', H') ∧ Contains m' H'.b [4, 5, 6, 7] := by
  have h : Chain middle (some 0) [⟨0, ⟨none, some 0, true, some 0, 4, 1, 1⟩, [7]⟩] :=
    .cons (q := ⟨0, ⟨none, some 0, true, some 0, 4, 1, 1⟩, [7]⟩) ⟨rfl, rfl⟩ .nil
  exact (unshift_law (H := ⟨some 0, .append, 4⟩) (e := ⟨0, fun _ => 1, fun _ => 2, true⟩) h
    (by decide) nofun rfl (by decide) 3).mpr (.inr ⟨by decide, by decide, nofun⟩)
    (some [4, 5, 6]) rfl

/-- A segment with one holder; an array with another holder; and a segment that lies in the space
before the data. -/
theorem unshift_fails :
    (∀ fuel, BufferHandle.unshiftString fuel middle ⟨0, fun _ => 1, fun _ => 1, true⟩
      ⟨some 0, .append, 4⟩ (some [6]) = none) ∧
    (∃ m : BufferHeap, m.bytes (some 0) = some [7] ∧
      (BufferHandle.unshiftString 3 m ⟨0, fun _ => 2, fun _ => 2, true⟩ ⟨some 0, .append, 4⟩
        (some [6])).bind (fun r => r.2.2.1.bytes r.2.2.2.b) = some [0, 6]) ∧
    ∃ m : BufferHeap, m.bytes (some 0) = some [7, 8] ∧
      (BufferHandle.unshiftString 3 m ⟨0, fun _ => 1, fun _ => 2, true⟩ ⟨some 0, .append, 4⟩
        (some [6])).bind (fun r => r.2.2.1.bytes r.2.2.2.b) = some [6, 7, 6] := by
  refine ⟨fun fuel => ?_, ⟨⟨[⟨none, some 0, true, some 0, 4, 2, 1⟩], [[0, 0, 7, 0]]⟩,
    by decide +kernel⟩, ⟨⟨[⟨some 1, some 0, true, some 0, 4, 1, 1⟩,
      ⟨none, some 0, true, some 0, 4, 0, 1⟩], [[8, 7, 0, 0]]⟩, by decide +kernel⟩⟩
  change (unshiftLoop false true 4 fuel middle 0 1).bind _ = none
  rw [unshiftLoop_endless (by decide)]
  rfl

end BufferHeap

end TinyState
