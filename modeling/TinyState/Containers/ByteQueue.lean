import TinyState.Containers.Buffer

/-!
# When a buffer handle is a queue of bytes

As long as each call leaves all the bytes in the one segment that the handle points to, what
is shifted out is what has been appended, in order, and every call succeeds.
-/

namespace TinyState

open Transition

-- ---------------------------------------------------------------------------
-- Segments and arrays
-- ---------------------------------------------------------------------------

namespace BufferHeap

variable {m m' : BufferHeap} {p q k n i h len arraySize : Nat} {s s' : StdBuffer}
  {x y buf ary : List UInt8} {top : Option Nat}

@[simp] theorem get_set_self {t : StdBuffer} (hp : m.get p = some s) :
    (m.set p t).get p = some t := by
  have hlt : p < m.buffers.length := (List.getElem?_eq_some_iff.mp hp).1
  simp [get, set, hlt]

@[simp] theorem get_set_ne {t : StdBuffer} (hpq : p ≠ q) : (m.set p t).get q = m.get q := by
  simp [get, set, hpq]

@[simp] theorem set_arrays : (m.set p s').arrays = m.arrays := rfl

@[simp] theorem get_of_buffers {arrays : List (List UInt8)} :
    get { m with arrays := arrays } p = m.get p := rfl

theorem load_of_array (hk : m.arrays[k]? = some ary) (hle : i + len ≤ ary.length) :
    m.load (some k) i len = some ((ary.drop i).take len) := by
  unfold load
  split
  · next h => rw [h, List.take_zero]
  · simp [hk, hle]

theorem load_zero : m.load top i 0 = some [] := if_pos rfl

theorem load_length (hl : m.load top i len = some x) : x.length = len := by
  unfold load at hl
  split at hl
  · next h =>
    cases hl
    exact h.symm
  · obtain ⟨k, -, hl⟩ := Option.bind_eq_some_iff.mp hl
    obtain ⟨ary, -, hl⟩ := Option.bind_eq_some_iff.mp hl
    split at hl
    · cases hl
      rw [List.length_take, List.length_drop]
      omega
    · cases hl

theorem load_take (hl : m.load top i len = some x) (hn : n ≤ len) :
    m.load top i n = some (x.take n) := by
  unfold load at hl
  split at hl
  · cases hl
    rw [Nat.le_zero.mp (by omega : n ≤ 0), load_zero, List.take_zero]
  · obtain ⟨k, htop, hl⟩ := Option.bind_eq_some_iff.mp hl
    obtain ⟨ary, hk, hl⟩ := Option.bind_eq_some_iff.mp hl
    split at hl
    · cases hl
      rw [htop, load_of_array hk (by omega), List.take_take, Nat.min_eq_left hn]
    · cases hl

/-- The bytes from `h` to `i`, and after them those that are stored at `i`. -/
theorem store_load (hk : m.arrays[k]? = some ary) (hbuf : buf ≠ []) (hi : h ≤ i)
    (hle : i + buf.length ≤ ary.length) (hx : m.load (some k) h (i - h) = some x) :
    ∃ ary', ary'.length = ary.length ∧
      m.store (some k) i buf = some { m with arrays := m.arrays.set k ary' } ∧
      load { m with arrays := m.arrays.set k ary' } (some k) h (i - h + buf.length) =
        some (x ++ buf) := by
  have hlt : k < m.arrays.length := (List.getElem?_eq_some_iff.mp hk).1
  have hxe : (ary.drop h).take (i - h) = x := by
    rw [load_of_array hk (by omega)] at hx
    exact Option.some.inj hx
  have hsplit : (ary.take i ++ buf ++ ary.drop (i + buf.length)).drop h =
      x ++ buf ++ ary.drop (i + buf.length) := by
    have hpre : h ≤ (ary.take i).length := by
      rw [List.length_take]
      omega
    rw [List.append_assoc, List.drop_append_of_le_length hpre, List.drop_take, hxe,
      List.append_assoc]
  have hlen : (ary.take i ++ buf ++ ary.drop (i + buf.length)).length = ary.length := by
    simp
    omega
  refine ⟨ary.take i ++ buf ++ ary.drop (i + buf.length), hlen, ?_, ?_⟩
  · simp [store, hbuf, hk, hle]
  · rw [load_of_array (List.getElem?_set_self hlt) (by omega), hsplit]
    have hxl : (x ++ buf).length = i - h + buf.length := by
      rw [List.length_append, load_length hx]
    rw [← hxl, List.take_left]

-- ---------------------------------------------------------------------------
-- One segment
-- ---------------------------------------------------------------------------

/-- The data lie in the part of an array that the segment may use. -/
def Sound (m : BufferHeap) (s : StdBuffer) : Prop :=
  match s.avairableTop with
  | none => s.dataSize = 0
  | some k => s.fin ≤ s.avairableSize ∧ ∃ ary ∈ m.arrays[k]?, s.avairableSize ≤ ary.length

instance : Decidable (Sound m s) := by
  unfold Sound
  split <;> infer_instance

/-- The chain from `p` on is the one segment `s`, with the data `x`. -/
structure Single (m : BufferHeap) (p : Nat) (s : StdBuffer) (x : List UInt8) : Prop where
  get : m.get p = some s
  next : s.next = none
  sound : Sound m s
  data : m.load s.avairableTop s.dataHead s.dataSize = some x

theorem Sound.load (h : Sound m s) :
    ∃ x, m.load s.avairableTop s.dataHead s.dataSize = some x := by
  unfold Sound at h
  split at h
  · next htop =>
    rw [htop, h]
    exact ⟨[], load_zero⟩
  · next k htop =>
    obtain ⟨hfin, ary, hk, hle⟩ := h
    rw [htop]
    exact ⟨_, load_of_array hk (Nat.le_trans hfin hle)⟩

theorem Single.length (h : Single m p s x) : x.length = s.dataSize := load_length h.data

theorem lastFrom_end (hp : m.get p = some s) (hn : s.next = none) (h0 : 0 < n) :
    m.lastFrom n p = some (p, s.dataSize) := by
  cases n with
  | zero => exact absurd h0 (Nat.lt_irrefl 0)
  | succ n => simp [lastFrom, hp, hn]

theorem lengthFrom_end (hp : m.get p = some s) (hn : s.next = none) (h0 : 0 < n) :
    m.lengthFrom n p = some s.dataSize := by
  cases n with
  | zero => exact absurd h0 (Nat.lt_irrefl 0)
  | succ n => simp [lengthFrom, hp, hn]

theorem last_end (hp : m.get p = some s) (hn : s.next = none) :
    m.last p = some (p, s.dataSize) := lastFrom_end hp hn (Nat.succ_pos _)

theorem last_next {r : Nat × Nat} (hp : m.get p = some s) (hn : s.next = some q)
    (hl : m.lastFrom m.buffers.length q = some r) : m.last p = some r := by
  simp [last, lastFrom, hp, hn, hl]

theorem buffers_pos (hp : m.get p = some s) : 0 < m.buffers.length :=
  Nat.zero_lt_of_lt (List.getElem?_eq_some_iff.mp hp).1

theorem Single.bytes (h : Single m p s x) : m.bytes (some p) = some x := by
  simp [BufferHeap.bytes, bytesFrom, h.get, h.data, h.next]

/-- Where the arrays that there are stay, so do sound segments and their data. -/
theorem Sound.frame (hs : Sound m s)
    (ha : ∀ (k : Nat) (ary : List UInt8), m.arrays[k]? = some ary → m'.arrays[k]? = some ary) :
    Sound m' s ∧ m'.load s.avairableTop s.dataHead s.dataSize =
      m.load s.avairableTop s.dataHead s.dataSize := by
  unfold Sound at hs ⊢
  split at hs
  · next htop =>
    rw [htop]
    exact ⟨hs, by rw [hs, load_zero, load_zero]⟩
  · next k htop =>
    obtain ⟨hfin, ary, hk, hle⟩ := hs
    have hd : s.dataHead + s.dataSize ≤ ary.length := Nat.le_trans hfin hle
    rw [htop]
    exact ⟨⟨hfin, ary, ha k ary hk, hle⟩, by
      rw [load_of_array hk hd, load_of_array (ha k ary hk) hd]⟩

theorem Single.frame (h : Single m p s x) (hp : m'.get p = m.get p)
    (ha : ∀ (k : Nat) (ary : List UInt8), m.arrays[k]? = some ary → m'.arrays[k]? = some ary) :
    Single m' p s x := by
  obtain ⟨hs, hd⟩ := h.sound.frame ha
  exact ⟨hp.trans h.get, h.next, hs, hd.trans h.data⟩

theorem getElem?_append_some {α : Type} {a b : List α} {k : Nat} {v : α} (h : a[k]? = some v) :
    (a ++ b)[k]? = some v := by
  rw [List.getElem?_append_left (List.getElem?_eq_some_iff.mp h).1]
  exact h

/-- What is made elsewhere does not concern the segment. -/
theorem Single.others (h : Single m p s x) (buffers : List StdBuffer)
    (arrays : List (List UInt8)) :
    Single ⟨m.buffers ++ buffers, m.arrays ++ arrays⟩ p s x :=
  h.frame ((getElem?_append_some h.get).trans h.get.symm) fun _ _ => getElem?_append_some

-- ---------------------------------------------------------------------------
-- Writing into the segment
-- ---------------------------------------------------------------------------

variable {refs : Nat → Nat} {ret : Int} {this pb : Nat}

/-- A round of `copyin` at the end of a last segment that is not full. -/
theorem loop_round (hp : m.get pb = some s) (hn : s.next = none) (hbuf : buf ≠ [])
    (htop : s.avairableTop ≠ none) (hfull : s.fin ≠ s.avairableSize) :
    copyinLoop refs this arraySize (n + 1) m pb s.fin buf ret =
      (fill (m.set pb { s with
        dataSize := min s.avairableSize (s.fin + buf.length) - s.dataHead })
          refs this pb s.fin arraySize buf).bind fun r =>
        copyinLoop refs this arraySize n r.2 pb (s.fin + r.1) (buf.drop r.1) (ret + r.1) := by
  simp [copyinLoop, hbuf, hp, htop, hn, hfull]

/-- A last segment with the data `x`, which is `n` bytes longer than they are. -/
structure Opened (m : BufferHeap) (p : Nat) (s : StdBuffer) (x : List UInt8) (n : Nat) : Prop where
  get : m.get p = some s
  next : s.next = none
  top : s.avairableTop ≠ none
  sound : Sound m s
  size : s.dataSize = x.length + n
  data : m.load s.avairableTop s.dataHead x.length = some x

theorem Single.opened (h : Single m p s x) (htop : s.avairableTop ≠ none)
    (hroom : s.fin + n ≤ s.avairableSize) :
    Opened (m.set p { s with dataSize := s.dataSize + n }) p
      { s with dataSize := s.dataSize + n } x n := by
  refine ⟨get_set_self h.get, h.next, htop, ?_, ?_, ?_⟩
  · have hs := h.sound
    unfold Sound at hs ⊢
    split at hs
    · next hnone => exact absurd hnone htop
    · next k hk =>
      obtain ⟨-, hary⟩ := hs
      simp only [hk]
      exact ⟨by simp only [StdBuffer.fin] at hroom ⊢; omega, hary⟩
  · rw [h.length]
  · rw [h.length]
    exact h.data

/-- The bytes are written where the segment is longer than its data. -/
theorem Opened.fill (buf : List UInt8) (h : Opened m' pb s x n)
    (hr : m.refresh refs this arraySize = some m')
    (hn : 0 < n) (hle : n ≤ buf.length) :
    ∃ m'', m.fill refs this pb (s.dataHead + x.length) arraySize buf = some (n, m'') ∧
      Single m'' pb s (x ++ buf.take n) ∧ m''.buffers = m'.buffers := by
  obtain ⟨k, hk⟩ := Option.ne_none_iff_exists'.mp h.top
  have hs := h.sound
  simp only [Sound, hk] at hs
  obtain ⟨hfin, ary, hary, hlen⟩ := hs
  have hsize := h.size
  have hd := h.data
  rw [hk] at hd
  have htake : (buf.take n).length = n := by rw [List.length_take, Nat.min_eq_left hle]
  have hne : buf.take n ≠ [] := List.ne_nil_of_length_pos (by omega)
  simp only [StdBuffer.fin] at hfin
  obtain ⟨ary', hlen', hstore, hload⟩ := store_load (h := s.dataHead) (i := s.dataHead + x.length)
    hary hne (Nat.le_add_right ..) (by omega) (by rw [Nat.add_sub_cancel_left]; exact hd)
  have hmin : min buf.length (s.fin - (s.dataHead + x.length)) = n := by
    simp only [StdBuffer.fin]
    omega
  have hptr : ¬ s.fin < s.dataHead + x.length := by
    simp only [StdBuffer.fin]
    omega
  refine ⟨{ m' with arrays := m'.arrays.set k ary' }, ?_, ⟨h.get, h.next, ?_, ?_⟩, rfl⟩
  · simp [BufferHeap.fill, hr, h.get, hptr, hmin, hk, hstore]
  · have hlt : k < m'.arrays.length := (List.getElem?_eq_some_iff.mp hary).1
    simp only [Sound, hk]
    exact ⟨hfin, ary', List.getElem?_set_self hlt, by omega⟩
  · rw [Nat.add_sub_cancel_left, htake, ← hsize] at hload
    rw [hk]
    exact hload

theorem refresh_writable (arraySize : Nat) (hp : m.get this = some s) (hw : s.is_writable refs) :
    m.refresh refs this arraySize = some m := by
  simp [refresh, hp, hw]

/-- A segment that may not be written gets an array of its own. -/
theorem Opened.refresh (arraySize : Nat) (h : Opened m p s x n) (hw : ¬ s.is_writable refs)
    (hn : 0 < n)
    (hsize : s.dataSize < arraySize) :
    ∃ m' s', m.refresh refs p arraySize = some m' ∧ Opened m' p s' x n ∧ s'.dataHead = 0 ∧
      s'.avairableSize = arraySize ∧ (refs m.arrays.length = 1 → s'.is_writable refs) := by
  obtain ⟨y, hy⟩ := h.sound.load
  have hylen := load_length hy
  have hxn := h.size
  have hyx : y.take x.length = x := by
    have htake := load_take hy (n := x.length) (by omega)
    rw [h.data] at htake
    exact (Option.some.inj htake).symm
  have hne : y ≠ [] := List.ne_nil_of_length_pos (by omega)
  have hary : (m.newArray arraySize).2.arrays[m.arrays.length]? =
      some (List.replicate arraySize 0) := List.getElem?_concat_length
  obtain ⟨ary', hlen', hstore, hload⟩ := store_load (h := 0) (i := 0) hary hne (Nat.le_refl 0)
    (by rw [List.length_replicate]; omega) load_zero
  have hinit : s.initial (some m.arrays.length) true (some m.arrays.length) arraySize 0 s.dataSize =
      some ⟨s.next, some m.arrays.length, true, some m.arrays.length, arraySize, 0, s.dataSize⟩ := by
    rw [StdBuffer.initial, if_neg (by omega)]
  have hget : BufferHeap.get { (m.newArray arraySize).2 with
      arrays := (m.newArray arraySize).2.arrays.set m.arrays.length ary' } p = some s := h.get
  have hlt : m.arrays.length < (m.newArray arraySize).2.arrays.length :=
    (List.getElem?_eq_some_iff.mp hary).1
  rw [List.length_replicate] at hlen'
  refine ⟨_, ⟨s.next, some m.arrays.length, true, some m.arrays.length, arraySize, 0, s.dataSize⟩,
    ?_, ⟨get_set_self hget, h.next, nofun, ?_, hxn, ?_⟩, rfl, rfl, fun hone => ?_⟩
  · have hle : s.dataSize ≤ arraySize := Nat.le_of_lt hsize
    have hy' : (m.newArray arraySize).2.load s.avairableTop s.dataHead s.dataSize = some y :=
      (h.sound.frame fun _ _ => getElem?_append_some).2.trans hy
    simp only [BufferHeap.refresh, h.get, hw, hle, hy', Option.bind_eq_bind, Option.bind_some,
      if_true, if_false, Bool.false_eq_true]
    change ((m.newArray arraySize).2.store (some m.arrays.length) 0 y).bind _ = _
    rw [hstore, Option.bind_some]
    change (s.initial (some m.arrays.length) true (some m.arrays.length) arraySize 0 _).bind _ = _
    rw [hinit, Option.bind_some]
  · exact ⟨by simp only [StdBuffer.fin]; omega, ary', List.getElem?_set_self hlt, Nat.le_of_eq hlen'.symm⟩
  · rw [Nat.sub_self, Nat.zero_add, List.nil_append, hylen] at hload
    have htake := load_take hload (n := x.length) (by omega)
    rw [hyx] at htake
    exact htake
  · simp [StdBuffer.is_writable, hone]

theorem loop_done : copyinLoop refs this arraySize (n + 1) m pb i [] ret = some (.ok, ret, m) :=
  if_pos rfl

/-- A round that takes all there is. -/
theorem loop_last (n : Nat) (ret : Int) (h : Opened m' pb s x buf.length) (hbuf : buf ≠ [])
    (hr : m.refresh refs this arraySize = some m') :
    ∃ m'', ((m.fill refs this pb (s.dataHead + x.length) arraySize buf).bind fun r =>
        copyinLoop refs this arraySize (n + 1) r.2 pb (s.dataHead + x.length + r.1)
          (buf.drop r.1) (ret + r.1)) = some (.ok, ret + buf.length, m'') ∧
      Single m'' pb s (x ++ buf) ∧ m''.buffers = m'.buffers := by
  obtain ⟨m'', hfill, hs, hb⟩ := h.fill buf hr (List.length_pos_iff.mpr hbuf) (Nat.le_refl _)
  rw [List.take_length] at hs
  refine ⟨m'', ?_, hs, hb⟩
  rw [hfill, Option.bind_some, List.drop_length, loop_done]

theorem fin_eq (h : Single m p s x) : s.fin = s.dataHead + x.length := by
  rw [h.length]
  rfl

/-- A round of `copyin` at the end of a last segment that is full. -/
theorem loop_full (hp : m.get pb = some s) (hn : s.next = none) (hbuf : buf ≠ [])
    (htop : s.avairableTop ≠ none) (hfull : s.fin = s.avairableSize)
    (hg : m.grow this pb arraySize = some (q, m')) (hq : m'.get q = some s') :
    copyinLoop refs this arraySize (n + 1) m pb s.fin buf ret =
      copyinLoop refs this arraySize n m' q s'.dataHead buf ret := by
  simp [copyinLoop, hbuf, hp, htop, hn, hfull, hg, hq]

/-- A round of `copyin` that gives a segment its array and goes on after it. -/
theorem loop_extend (hp : m.get pb = some s) (hbuf : buf ≠ []) (htop : s.avairableTop = none)
    (he : m.extend this arraySize = some (.ok, m')) (hs : m'.get pb = some s')
    (hn : s'.next = some q) {t : StdBuffer} (hq : m'.get q = some t) :
    copyinLoop refs this arraySize (n + 1) m pb s'.fin buf ret =
      copyinLoop refs this arraySize n m' q t.dataHead buf ret := by
  simp [copyinLoop, hbuf, hp, htop, he, hs, hn, hq]

/-- A round of `copyin` that ends in an error. -/
theorem loop_refused (hp : m.get pb = some s) (hbuf : buf ≠ []) (htop : s.avairableTop = none)
    {e : BufferError} (he : m.extend this arraySize = some (e, m')) (hne : e ≠ .ok) :
    copyinLoop refs this arraySize (n + 1) m pb i buf ret = some (e, -1, m') := by
  simp [copyinLoop, hbuf, hp, htop, he, hne]

/-- A round of `copyin` that writes beyond the end of the segment. -/
theorem loop_beyond (hp : m.get pb = some s) (hbuf : buf ≠ []) (htop : s.avairableTop = none)
    (he : m.extend this arraySize = some (.ok, m')) (hs : m'.get pb = some s') (hi : s'.fin < i) :
    copyinLoop refs this arraySize (n + 1) m pb i buf ret = some (.overEpoint, -1, m') := by
  simp [copyinLoop, hbuf, hp, htop, he, hs, hi]

/-- A terminator gets an array and a terminator after it, which cannot be filled in turn. -/
theorem loop_terminator (refs : Nat → Nat) (ret : Int) (h : Single m p s x)
    (htop : s.avairableTop = none) (hbuf : buf ≠ [])
    (h0 : 0 < arraySize) :
    ∃ erp m', copyinLoop refs p arraySize (n + 2) m p s.fin buf ret = some (erp, -1, m') ∧
      erp ≠ .ok := by
  have hinit : s.initial (some m.arrays.length) true (some m.arrays.length) arraySize 0 0 =
      some ⟨s.next, some m.arrays.length, true, some m.arrays.length, arraySize, 0, 0⟩ := by
    rw [StdBuffer.initial, if_neg (by omega)]
  have hp : ((m.newArray arraySize).2.newBuffer .terminator).2.get p = some s :=
    getElem?_append_some h.get
  have hpq : p ≠ m.buffers.length := Nat.ne_of_lt (List.getElem?_eq_some_iff.mp h.get).1
  have hself := get_set_self (t := ⟨some m.buffers.length, some m.arrays.length, true,
    some m.arrays.length, arraySize, 0, 0⟩) hp
  have hnew := (get_set_ne (m := ((m.newArray arraySize).2.newBuffer .terminator).2)
    (t := ⟨some m.buffers.length, some m.arrays.length, true, some m.arrays.length,
      arraySize, 0, 0⟩) hpq).trans List.getElem?_concat_length
  have hext : m.extend p arraySize = some (.ok,
      ((m.newArray arraySize).2.newBuffer .terminator).2.set p
        ⟨some m.buffers.length, some m.arrays.length, true, some m.arrays.length,
          arraySize, 0, 0⟩) := by
    unfold extend
    rw [h.get]
    simp only [htop, h.next, Option.bind_eq_bind, Option.bind_some, Option.isSome_none,
      Bool.false_eq_true, or_self, if_false]
    exact congrArg (Option.bind · _) hinit
  generalize BufferHeap.set _ p _ = m₁ at hself hnew hext
  have hnew : m₁.get m.buffers.length = some .terminator := hnew
  have hagain : m₁.extend p arraySize = some (.extend, m₁) := by simp [extend, hself]
  rcases Nat.eq_zero_or_pos s.fin with hz | hpos
  · refine ⟨.extend, m₁, ?_, by decide⟩
    rw [hz]
    exact (loop_extend h.get hbuf htop hext hself rfl hnew).trans
      (loop_refused hnew hbuf rfl hagain (by decide))
  · exact ⟨.overEpoint, m₁, loop_beyond h.get hbuf htop hext hself hpos, by decide⟩

/-- A segment that holds its array alone is written in place. -/
theorem loop_write (arraySize n : Nat) (ret : Int) (h : Single m p s x) (hbuf : buf ≠ [])
    (htop : s.avairableTop ≠ none)
    (hw : s.is_writable refs) (hroom : s.fin + buf.length ≤ s.avairableSize) :
    ∃ m' s', copyinLoop refs p arraySize (n + 2) m p s.fin buf ret =
        some (.ok, ret + buf.length, m') ∧ Single m' p s' (x ++ buf) := by
  have hlen := List.length_pos_iff.mpr hbuf
  have hop := h.opened htop hroom
  have hmin : min s.avairableSize (s.fin + buf.length) - s.dataHead = s.dataSize + buf.length := by
    simp only [StdBuffer.fin] at hroom ⊢
    omega
  obtain ⟨m', hloop, hs, -⟩ := loop_last n ret hop hbuf
    (refresh_writable arraySize hop.get hw)
  rw [loop_round h.get h.next hbuf htop (by omega), hmin, fin_eq h]
  exact ⟨m', _, hloop, hs⟩

/-- A segment that others hold as well is copied first, and written then. -/
theorem loop_copy (arraySize n : Nat) (ret : Int) (h : Single m p s x) (hbuf : buf ≠ [])
    (htop : s.avairableTop ≠ none)
    (hw : ¬ s.is_writable refs) (hhead : s.dataHead = 0)
    (hroom : s.dataSize + buf.length ≤ s.avairableSize) (hsize : s.dataSize + buf.length < arraySize) :
    ∃ m' s', copyinLoop refs p arraySize (n + 2) m p s.fin buf ret =
        some (.ok, ret + buf.length, m') ∧ Single m' p s' (x ++ buf) := by
  have hlen := List.length_pos_iff.mpr hbuf
  have hfin : s.fin = s.dataSize := by rw [StdBuffer.fin, hhead, Nat.zero_add]
  have hop := h.opened (n := buf.length) htop (by omega)
  have hmin : min s.avairableSize (s.fin + buf.length) - s.dataHead = s.dataSize + buf.length := by
    omega
  obtain ⟨m', s', hr, hop', hhead', -⟩ := hop.refresh arraySize hw hlen hsize
  obtain ⟨m'', hloop, hs, -⟩ := loop_last n ret hop' hbuf hr
  have hptr : s.fin = s'.dataHead + x.length := by rw [fin_eq h, hhead, hhead']
  rw [loop_round h.get h.next hbuf htop (by omega), hmin, hptr]
  exact ⟨m'', _, hloop, hs⟩

/-- A segment with too little room that others hold as well gets more when it is copied. -/
theorem loop_copy_more (arraySize n : Nat) (ret : Int) (h : Single m p s x)
    (htop : s.avairableTop ≠ none)
    (hw : ¬ s.is_writable refs) (hhead : s.dataHead = 0) (hroom : s.dataSize < s.avairableSize)
    (hless : s.avairableSize < s.dataSize + buf.length)
    (hsize : s.dataSize + buf.length ≤ arraySize) (hone : refs m.arrays.length = 1) :
    ∃ m' s', copyinLoop refs p arraySize (n + 3) m p s.fin buf ret =
        some (.ok, ret + buf.length, m') ∧ Single m' p s' (x ++ buf) := by
  have hfin : s.fin = s.dataSize := by rw [StdBuffer.fin, hhead, Nat.zero_add]
  have hbuf : buf ≠ [] := List.ne_nil_of_length_pos (by omega)
  have hop := h.opened (n := s.avairableSize - s.dataSize) htop (by omega)
  have hmin : min s.avairableSize (s.fin + buf.length) - s.dataHead =
      s.dataSize + (s.avairableSize - s.dataSize) := by omega
  obtain ⟨m', s', hr, hop', hhead', hsize', hw'⟩ := hop.refresh arraySize hw
    (by omega) (by simp only; omega)
  obtain ⟨m'', hfill, hs, -⟩ := hop'.fill buf hr (by omega) (by omega)
  have hfin' : s'.fin = s'.dataHead + x.length + (s.avairableSize - s.dataSize) := by
    rw [StdBuffer.fin, hop'.size, Nat.add_assoc]
  have hlen := h.length
  have hmore : buf.drop (s.avairableSize - s.dataSize) ≠ [] := by
    simp
    omega
  obtain ⟨m₃, s'', hloop, hs''⟩ := loop_write arraySize n
    (ret + (s.avairableSize - s.dataSize : Nat)) hs hmore hop'.top (hw' hone)
    (by rw [List.length_drop]; omega)
  have hptr : s.fin = s'.dataHead + x.length := by rw [fin_eq h, hhead, hhead']
  rw [loop_round h.get h.next hbuf htop (by omega), hmin, hptr, hfill, Option.bind_some, ← hfin',
    hloop]
  refine ⟨m₃, s'', ?_, ?_⟩
  · rw [List.length_drop]
    congr 3
    omega
  · rwa [List.append_assoc, List.take_append_drop] at hs''

theorem Opened.frame (h : Opened m p s x n) (hp : m'.get p = m.get p)
    (ha : ∀ (k : Nat) (ary : List UInt8), m.arrays[k]? = some ary → m'.arrays[k]? = some ary) :
    Opened m' p s x n := by
  obtain ⟨y, hy⟩ := h.sound.load
  obtain ⟨hs, hd⟩ := h.sound.frame ha
  have hsize := h.size
  refine ⟨hp.trans h.get, h.next, h.top, hs, hsize, ?_⟩
  have hold := h.data
  rw [load_take hy (by omega)] at hold
  rw [load_take (hd.trans hy) (by omega), hold]

/-- `refresh` changes nothing that matters about a segment without data. -/
theorem refresh_empty (refs : Nat → Nat) (hp : m.get p = some s) (hd : s.dataSize = 0)
    (h0 : 0 < arraySize) :
    ∃ m' s', m.refresh refs p arraySize = some m' ∧ m'.get p = some s' ∧ s'.next = s.next ∧
      (∀ q, p ≠ q → m'.get q = m.get q) ∧
      ∀ (k : Nat) (ary : List UInt8), m.arrays[k]? = some ary → m'.arrays[k]? = some ary := by
  by_cases hw : s.is_writable refs
  · exact ⟨m, s, refresh_writable arraySize hp hw, hp, rfl, fun _ _ => rfl, fun _ _ => id⟩
  · refine ⟨(m.newArray arraySize).2.set p
      ⟨s.next, some m.arrays.length, true, some m.arrays.length, arraySize, 0, 0⟩, _, ?_,
      get_set_self (m := (m.newArray arraySize).2) hp, rfl, fun q hq => get_set_ne hq,
      fun _ _ => getElem?_append_some⟩
    have hinit : s.initial (some m.arrays.length) true (some m.arrays.length) arraySize 0 0 =
        some ⟨s.next, some m.arrays.length, true, some m.arrays.length, arraySize, 0, 0⟩ := by
      rw [StdBuffer.initial, if_neg (by omega)]
    simp only [refresh, hp, hw, hd, load_zero, store, Option.bind_eq_bind, Option.bind_some,
      Nat.zero_le, if_true, if_false, Bool.false_eq_true]
    change (s.initial (some m.arrays.length) true (some m.arrays.length) arraySize 0 0).bind _ = _
    rw [hinit, Option.bind_some]

/-- A segment that has just been made, with the array `k`. -/
def empty (arraySize k : Nat) : StdBuffer := ⟨none, some k, true, some k, arraySize, 0, 0⟩

theorem newSegment_eq (h0 : 0 < arraySize) :
    m.newSegment arraySize = some ((m.newArray arraySize).2.newBuffer
      (empty arraySize m.arrays.length)) := by
  have hinit : StdBuffer.terminator.initial (some m.arrays.length) true (some m.arrays.length)
      arraySize 0 0 = some (empty arraySize m.arrays.length) := by
    rw [StdBuffer.initial, if_neg (by omega)]
    rfl
  unfold newSegment
  change (StdBuffer.terminator.initial (some m.arrays.length) true (some m.arrays.length)
    arraySize 0 0).bind _ = _
  rw [hinit]
  rfl

/-- The new segment comes after the full one. -/
theorem grow_spec (hp : m.get p = some s) (h0 : 0 < arraySize) :
    ∃ m', m.grow p p arraySize = some (m.buffers.length, m') ∧
      Single m' m.buffers.length (empty arraySize m.arrays.length) [] ∧
      m'.get p = some { s with next := some m.buffers.length } ∧ p ≠ m.buffers.length := by
  have hpq : p ≠ m.buffers.length := Nat.ne_of_lt (List.getElem?_eq_some_iff.mp hp).1
  have hp₁ : ((m.newArray arraySize).2.newBuffer (empty arraySize m.arrays.length)).2.get p =
      some s := getElem?_append_some hp
  have hp₂ := get_set_self (t := { s with next := some m.buffers.length }) hp₁
  refine ⟨_, ?_, ⟨(get_set_ne hpq).trans List.getElem?_concat_length, rfl, ?_, load_zero⟩, hp₂, hpq⟩
  · unfold grow
    rw [newSegment_eq h0]
    change (get ((m.newArray arraySize).2.newBuffer _).2 p).bind _ = _
    rw [hp₁]
    exact congrArg (Option.bind · _) hp₂
  · exact ⟨Nat.zero_le _, _, List.getElem?_concat_length, Nat.le_of_eq List.length_replicate.symm⟩

/-- A segment without data and without room gets another one after it. -/
theorem loop_grow (refs : Nat → Nat) (n : Nat) (ret : Int) (h : Single m p s x) (hbuf : buf ≠ [])
    (htop : s.avairableTop ≠ none)
    (hd : s.dataSize = 0) (hfull : s.dataHead = s.avairableSize) (h0 : 0 < arraySize)
    (hroom : buf.length ≤ arraySize) :
    ∃ m' q s' t, copyinLoop refs p arraySize (n + 3) m p s.fin buf ret =
        some (.ok, ret + buf.length, m') ∧ Single m' q s' buf ∧
        m'.get p = some t ∧ t.next = some q := by
  have hfin : s.fin = s.avairableSize := by rw [StdBuffer.fin, hd, hfull, Nat.add_zero]
  have hfin' : (empty arraySize m.arrays.length).fin = 0 := rfl
  have hlen := List.length_pos_iff.mpr hbuf
  obtain ⟨m₁, hgrow, hnew, hp, hpq⟩ := grow_spec h.get h0
  have hop := hnew.opened (n := buf.length) nofun (by rw [hfin', Nat.zero_add]; exact hroom)
  obtain ⟨m₂, t, hr, ht, htn, hother, hary⟩ := refresh_empty refs
    ((get_set_ne (Ne.symm hpq)).trans hp) hd h0
  obtain ⟨m₃, hloop, hs, hb⟩ :=
    loop_last n ret (hop.frame (hother _ hpq) hary) hbuf hr
  have hmin : min (empty arraySize m.arrays.length).avairableSize (0 + buf.length) - 0 =
      0 + buf.length := by
    change min arraySize (0 + buf.length) - 0 = 0 + buf.length
    omega
  refine ⟨m₃, m.buffers.length, _, t, ?_, hs, ?_, htn⟩
  · rw [loop_full h.get h.next hbuf htop hfin hgrow hnew.get]
    refine (loop_round hnew.get rfl hbuf nofun ?_).trans ?_
    · rw [hfin']
      exact Nat.ne_of_lt h0
    · rw [hfin']
      change ((fill (m₁.set _ { empty arraySize m.arrays.length with dataSize := min _ _ - 0 })
        _ _ _ _ _ _).bind _) = _
      rw [hmin]
      exact hloop
  · rw [get, hb]
    exact ht

/-- `len` bytes fit in after the data: a segment that may be written has room for them; one
that is copied has too little room, or they do not fill the copy; or a segment without data
and without room gets another one after it. -/
def Room (refs : Nat → Nat) (arraySize : Nat) (s : StdBuffer) (len : Nat) : Prop :=
  s.avairableTop ≠ none ∧
    if s.dataSize = 0 ∧ s.dataHead = s.avairableSize then len ≤ arraySize
    else if s.is_writable refs then s.fin + len ≤ s.avairableSize
    else s.dataHead = 0 ∧ s.dataSize < s.avairableSize ∧
      (s.dataSize + len < arraySize ∨
        s.avairableSize < s.dataSize + len ∧ s.dataSize + len ≤ arraySize)

instance : Decidable (Room refs arraySize s len) := by
  unfold Room
  infer_instance

/-- Where there is room the bytes are appended, and the last segment has all the data. -/
theorem copyin_spec (ret : Int) (h : Single m p s x) (hbuf : buf ≠ [])
    (hroom : Room refs arraySize s buf.length)
    (h0 : 0 < arraySize) (hone : refs m.arrays.length = 1) :
    ∃ m' q s', m.copyin refs ret p s.dataSize buf arraySize = some (.ok, ret + buf.length, m') ∧
      Single m' q s' (x ++ buf) ∧ m'.last p = some (q, s'.dataSize) := by
  obtain ⟨htop, hroom⟩ := hroom
  have hcopy : ∀ fuel : Nat, m.buffers.length + 3 * buf.length + 3 = fuel →
      m.copyin refs ret p s.dataSize buf arraySize =
        copyinLoop refs p arraySize fuel m p s.fin buf ret := by
    rintro fuel rfl
    rw [copyin, h.get]
    rfl
  split at hroom
  · next hempty =>
    obtain ⟨hd, hfull⟩ := hempty
    obtain ⟨m', q, s', t, hloop, hs, ht, htn⟩ := loop_grow refs
      (m.buffers.length + 3 * buf.length) ret h hbuf htop hd hfull h0 hroom
    have hx : x = [] := List.eq_nil_of_length_eq_zero (h.length.trans hd)
    exact ⟨m', q, s', (hcopy _ rfl).trans hloop, hx ▸ hs,
      last_next ht htn (lastFrom_end hs.get hs.next (buffers_pos ht))⟩
  · split at hroom
    · next hw =>
      obtain ⟨m', s', hloop, hs⟩ := loop_write arraySize
        (m.buffers.length + 3 * buf.length + 1) ret h hbuf htop hw hroom
      exact ⟨m', p, s', (hcopy _ rfl).trans hloop, hs, last_end hs.get hs.next⟩
    · next hw =>
      obtain ⟨hhead, hlt, hsize⟩ := hroom
      by_cases hfit : s.dataSize + buf.length ≤ s.avairableSize
      · obtain ⟨m', s', hloop, hs⟩ := loop_copy arraySize
          (m.buffers.length + 3 * buf.length + 1) ret h hbuf htop hw hhead hfit (by omega)
        exact ⟨m', p, s', (hcopy _ rfl).trans hloop, hs, last_end hs.get hs.next⟩
      · obtain ⟨m', s', hloop, hs⟩ := loop_copy_more arraySize
          (m.buffers.length + 3 * buf.length) ret h htop hw hhead hlt
          (Nat.not_le.mp hfit) (by omega) hone
        exact ⟨m', p, s', (hcopy _ rfl).trans hloop, hs, last_end hs.get hs.next⟩

-- ---------------------------------------------------------------------------
-- Other handles
-- ---------------------------------------------------------------------------

theorem lastFrom_get {r : Nat × Nat} (hl : m.lastFrom n q = some r) :
    ∃ s, m.get r.1 = some s ∧ s.next = none ∧ s.dataSize = r.2 := by
  induction n generalizing q with
  | zero => cases hl
  | succ n ih =>
    obtain ⟨s, hq, hl⟩ := Option.bind_eq_some_iff.mp hl
    cases hn : s.next with
    | none =>
      rw [hn] at hl
      cases hl
      exact ⟨s, hq, hn, rfl⟩
    | some q' =>
      rw [hn] at hl
      exact ih hl

/-- The last segment counts in the length of the chain. -/
theorem lengthFrom_next {d : Nat} (hq : m.get q = some s) (hn : s.next = some p)
    (hl : m.lengthFrom (n + 1) q = some d) :
    ∃ d', m.lengthFrom n p = some d' ∧ d = s.dataSize + d' := by
  simp only [lengthFrom, hq, hn, Option.bind_eq_bind, Option.bind_some] at hl
  obtain ⟨d', hd', hl⟩ := Option.bind_eq_some_iff.mp hl
  exact ⟨d', hd', (Option.some.inj hl).symm⟩

theorem lastFrom_le_length {r : Nat × Nat} {d : Nat} (hl : m.lastFrom n q = some r)
    (hd : m.lengthFrom n q = some d) : r.2 ≤ d := by
  induction n generalizing q d with
  | zero => cases hl
  | succ n ih =>
    obtain ⟨s, hq, hl⟩ := Option.bind_eq_some_iff.mp hl
    cases hn : s.next with
    | none =>
      rw [hn] at hl
      simp [lengthFrom, hq, hn] at hd
      cases hl
      exact Nat.le_of_eq hd
    | some q' =>
      rw [hn] at hl
      obtain ⟨d', hd', rfl⟩ := lengthFrom_next hq hn hd
      exact Nat.le_trans (ih hl hd') (Nat.le_add_left ..)

theorem lengthFrom_succ {d : Nat} (hd : m.lengthFrom n q = some d) :
    m.lengthFrom (n + 1) q = some d := by
  induction n generalizing q d with
  | zero => cases hd
  | succ n ih =>
    obtain ⟨s, hq, hl⟩ := Option.bind_eq_some_iff.mp hd
    cases hn : s.next with
    | none =>
      rw [hn] at hl
      simp only [lengthFrom, hq, hn, Option.bind_eq_bind, Option.bind_some]
      exact hl
    | some q' =>
      obtain ⟨d', hd', rfl⟩ := lengthFrom_next hq hn hd
      rw [lengthFrom, hq]
      simp [hn, ih hd']

/-- Where the length of a chain is that of its last segment, the others have no bytes. -/
theorem bytesFrom_last {r d : Nat} (hl : m.lastFrom n q = some (r, d))
    (hd : m.lengthFrom n q = some d) (hr : Single m r s y) : m.bytesFrom (n + 1) q = some y := by
  induction n generalizing q with
  | zero => cases hl
  | succ n ih =>
    obtain ⟨u, hq, hl⟩ := Option.bind_eq_some_iff.mp hl
    cases hn : u.next with
    | none =>
      rw [hn] at hl
      cases hl
      simp [bytesFrom, hr.get, hr.next, hr.data]
    | some q' =>
      rw [hn] at hl
      obtain ⟨d', hd', hsum⟩ := lengthFrom_next hq hn hd
      have hle := lastFrom_le_length hl hd'
      have hzero : u.dataSize = 0 := by omega
      have hrest := ih hl (by rw [hd']; congr 1; omega)
      rw [bytesFrom, hq]
      simp [hzero, load_zero, hn, hrest]

/-- A segment at the end that does not lie on the chain may be changed. -/
theorem lastFrom_set {r : Nat × Nat} (t : StdBuffer) (hp : m.get p = some s) (hn : s.next = none)
    (hl : m.lastFrom n q = some r) (hr : r.1 ≠ p) : (m.set p t).lastFrom n q = some r := by
  induction n generalizing q with
  | zero => cases hl
  | succ n ih =>
    obtain ⟨u, hq, hl⟩ := Option.bind_eq_some_iff.mp hl
    by_cases hpq : p = q
    · rw [← hpq, hp] at hq
      cases hq
      rw [hn] at hl
      cases hl
      exact absurd hpq.symm hr
    · rw [lastFrom, get_set_ne hpq, hq]
      cases hn' : u.next with
      | none =>
        rw [hn'] at hl
        simpa [hn'] using hl
      | some q' =>
        rw [hn'] at hl
        simpa [hn'] using ih hl

/-- The bytes of the chain from `q` on are all in its last segment, which is sound. -/
def Gathered (m : BufferHeap) (p q : Nat) : Prop :=
  ∃ r ∈ m.lastFrom m.buffers.length q, r.1 ≠ p ∧ m.lengthFrom m.buffers.length q = some r.2 ∧
    ∃ s ∈ m.get r.1, Sound m s

instance : Decidable (Gathered m p q) := by
  unfold Gathered
  infer_instance

theorem load_drop (hl : m.load top i len = some x) (hn : n ≤ len) :
    m.load top (i + n) (len - n) = some (x.drop n) := by
  unfold load at hl
  split at hl
  · next h0 =>
    cases hl
    rw [List.drop_nil, h0, Nat.zero_sub, load_zero]
  · obtain ⟨k, htop, hl⟩ := Option.bind_eq_some_iff.mp hl
    obtain ⟨ary, hk, hl⟩ := Option.bind_eq_some_iff.mp hl
    split at hl
    · cases hl
      rw [htop, load_of_array hk (by omega), List.drop_take, List.drop_drop]
    · cases hl

end BufferHeap

namespace BufferHandle

open BufferHeap

variable {m m' : BufferHeap} {p q len : Nat} {s : StdBuffer} {x buf : List UInt8}
  {w : Surroundings} {h bf : BufferHandle}

theorem append_spec (hb : h.b = some p) (hmode : h.mode = .append) (hs : Single m p s x)
    (h0 : 0 < h.arraySize)
    (hroom : buf = [] ∨ Room (refs m w) h.arraySize s buf.length) :
    ∃ m' q s', h.append m w buf = some (.ok, w.ret + buf.length, m', { h with b := some q }) ∧
      Single m' q s' (x ++ buf) := by
  have hlast := last_end hs.get hs.next
  by_cases hbuf : buf = []
  · refine ⟨m, p, s, ?_, by rwa [hbuf, List.append_nil]⟩
    simp [append, hmode, hb, hlast, copyin, hs.get, hbuf, copyinLoop]
  · obtain ⟨m', q, s', hcopy, hs', hlast'⟩ := copyin_spec w.ret hs hbuf
      (hroom.resolve_left hbuf) h0 (if_neg (Nat.lt_irrefl _))
    refine ⟨m', q, s', ?_, hs'⟩
    simp [append, hmode, hb, hlast, hcopy, hlast']

/-- A handle that is appended to a segment without data takes its place. -/
theorem appendHandle_spec (bf : BufferHandle) (hb : h.b = some p) (hp : m.get p = some s)
    (hn : s.next = none)
    (hmode : bf.mode = .indiv) (hbf : bf.b = some q) (hg : Gathered m p q) :
    ∃ m' r s' y, h.appendHandle m bf = some (.ok, y.length, m', { h with b := some r }) ∧
      m.bytes bf.b = some y ∧ Single m' r s' y := by
  obtain ⟨⟨r, d⟩, hl, hne, hd, s', hr, hsound⟩ := hg
  obtain ⟨u, hu, hun, hud⟩ := lastFrom_get hl
  have hus : u = s' := Option.some.inj (hu.symm.trans hr)
  obtain ⟨y, hy⟩ := hsound.load
  have hsingle : Single m r s' y := ⟨hr, hus ▸ hun, hsound, hy⟩
  have hlen : d = y.length := by rw [hsingle.length, ← hus]; exact hud.symm
  have hlength : m.length q = some y.length := hlen ▸ lengthFrom_succ hd
  have hset := lastFrom_set { s with next := some q } hp hn hl hne
  have hlast : (m.set p { s with next := some q }).last p = some (r, d) := by
    refine last_next (get_set_self hp) rfl ?_
    have hsize : (m.set p { s with next := some q }).buffers.length = m.buffers.length :=
      List.length_set
    rw [hsize]
    exact hset
  refine ⟨m.set p { s with next := some q }, r, s', y, ?_, ?_,
    hsingle.frame (get_set_ne (Ne.symm hne)) fun _ _ => id⟩
  · simp [appendHandle, hmode, hbf, hlength, hb, last_end hp hn, hp, hlast]
  · rw [hbf]
    exact bytesFrom_last hl hd hsingle

/-- Of an array comes a segment without data. -/
theorem appendArray_spec {ar : Nat} {ary : List UInt8} (hb : h.b = some p) (hp : m.get p = some s)
    (hn : s.next = none) (har : m.arrays[ar]? = some ary) :
    ∃ m' r s', h.appendArray m w ar = some (.ok, 0, m', { h with b := some r }) ∧
      Single m' r s' [] := by
  obtain ⟨size, hsize⟩ : ∃ size, (if ary = [] ∧ w.indexFirst then 1 else ary.length) = size :=
    ⟨_, rfl⟩
  obtain ⟨ary', hary'⟩ : ∃ ary', (if ary = [] then [0] else ary) = ary' := ⟨_, rfl⟩
  have hle : size ≤ ary'.length := by
    rw [← hsize, ← hary']
    by_cases hnil : ary = []
    · simp only [hnil]
      split <;> simp
    · simp [hnil]
  have hinit : StdBuffer.terminator.initial (some ar) true (some ar) size 0 0 =
      some (empty size ar) := by
    rw [StdBuffer.initial, if_neg (by omega)]
    rfl
  have hlt : ar < m.arrays.length := (List.getElem?_eq_some_iff.mp har).1
  have hp' : (newBuffer { m with arrays := m.arrays.set ar ary' } (empty size ar)).2.get p = some s :=
    getElem?_append_some hp
  have hnew : (newBuffer { m with arrays := m.arrays.set ar ary' } (empty size ar)).2.get
      m.buffers.length = some (empty size ar) := List.getElem?_concat_length
  have hsound : Sound (newBuffer { m with arrays := m.arrays.set ar ary' } (empty size ar)).2
      (empty size ar) := ⟨Nat.zero_le _, ary', List.getElem?_set_self hlt, hle⟩
  have hg : Gathered (newBuffer { m with arrays := m.arrays.set ar ary' } (empty size ar)).2 p
      m.buffers.length :=
    ⟨(m.buffers.length, 0), lastFrom_end hnew rfl (buffers_pos hnew),
      Nat.ne_of_gt (List.getElem?_eq_some_iff.mp hp).1, lengthFrom_end hnew rfl (buffers_pos hnew),
      empty size ar, hnew, hsound⟩
  obtain ⟨m', r, s', y, happ, hy, hs⟩ := appendHandle_spec
    ⟨some m.buffers.length, .indiv, ary.length⟩ hb hp' hn rfl rfl hg
  have hnil : y = [] := by
    have hempty : (newBuffer { m with arrays := m.arrays.set ar ary' } (empty size ar)).2.bytes
        (some m.buffers.length) = some [] := (Single.bytes ⟨hnew, rfl, hsound, load_zero⟩)
    exact Option.some.inj (hy.symm.trans hempty)
  refine ⟨m', r, s', ?_, hnil ▸ hs⟩
  rw [hnil] at happ
  unfold appendArray
  simp only [har, Option.bind_eq_bind, Option.bind_some]
  rw [hsize, hinit, hary']
  exact happ

theorem shift_zero (hb : h.b = some p) (hp : m.get p = some s) :
    h.shift m w 0 = some (.ok, 0, [], m, h) := by
  have hh : { h with b := some p } = h := by rw [← hb]
  simp [shift, hb, is_singlePointed, singleLoop, dup, dupLoop, point, copyout, hp, copyoutLoop,
    BufferHeap.shift, shiftLoop, hh]

/-- The first bytes of a segment, but not all, are cut off into a segment of their own. -/
theorem shiftHandle_spec (hb : h.b = some p) (hs : Single m p s x) (h0 : 0 < len)
    (hlt : len < x.length) :
    ∃ m' r s', h.shiftHandle m len = some (.ok, ⟨some r, .indiv, h.arraySize⟩, m') ∧
      m'.bytes (some r) = some (x.take len) ∧ Single m' p s' (x.drop len) := by
  have hsize := hs.length
  have hsound := hs.sound
  have hdata := hs.data
  cases htop : s.avairableTop with
  | none =>
    simp only [Sound, htop] at hsound
    omega
  | some k =>
    simp only [Sound, htop] at hsound
    obtain ⟨hfin, ary, hary, hle⟩ := hsound
    rw [htop] at hdata
    simp only [StdBuffer.fin] at hfin
    have hinit : StdBuffer.terminator.initial s.container s.writable (some k) s.avairableSize
        s.dataHead len =
          some ⟨none, s.container, s.writable, some k, s.avairableSize, s.dataHead, len⟩ := by
      rw [StdBuffer.initial, if_neg (by omega)]
      rfl
    have hp : (m.newBuffer
        ⟨none, s.container, s.writable, some k, s.avairableSize, s.dataHead, len⟩).2.get p =
          some s := getElem?_append_some hs.get
    have hpr : p ≠ m.buffers.length := Nat.ne_of_lt (List.getElem?_eq_some_iff.mp hs.get).1
    have hnew : Single ((m.newBuffer
        ⟨none, s.container, s.writable, some k, s.avairableSize, s.dataHead, len⟩).2.set p
          { s with dataSize := s.dataSize - len, dataHead := s.dataHead + len }) m.buffers.length
        ⟨none, s.container, s.writable, some k, s.avairableSize, s.dataHead, len⟩
        (x.take len) := by
      refine ⟨(get_set_ne hpr).trans List.getElem?_concat_length, rfl, ?_, ?_⟩
      · exact ⟨by simp only [StdBuffer.fin]; omega, ary, hary, hle⟩
      · exact load_take (n := len) hdata (by omega)
    refine ⟨_, m.buffers.length, _, ?_, hnew.bytes,
      ⟨get_set_self hp, hs.next, ?_, ?_⟩⟩
    · have hnot : ¬ s.dataSize ≤ len := by omega
      simp only [shiftHandle, BufferHeap.shift, shiftLoop, hb, hs.get, htop, Nat.ne_of_gt h0, hnot,
        hinit, point, Option.bind_eq_bind, Option.bind_some, if_true, if_false,
        Option.isNone_some, Bool.false_eq_true]
      rfl
    · simp only [Sound, htop]
      exact ⟨by simp only [StdBuffer.fin]; omega, ary, hary, hle⟩
    · rw [htop]
      exact load_drop hdata (by omega)

end BufferHandle

-- ---------------------------------------------------------------------------
-- A queue of bytes
-- ---------------------------------------------------------------------------

namespace BufferStore

open BufferHeap BufferHandle

variable {t u : BufferStore} {tr os : List BufferObs} {p : Nat} {s : StdBuffer}
  {x : List UInt8} {w : Surroundings}

/-- The segment that the handle points to has room for a block, and `ret` happens to be 0. -/
def Takes (t : BufferStore) (w : Surroundings) (buf : List UInt8) : Prop :=
  w.ret = 0 ∧ (buf = [] ∨ ∃ p ∈ t.handle.b, ∃ s ∈ t.heap.get p,
    Room (refs t.heap w) t.handle.arraySize s buf.length)

/-- The calls after which all the bytes are still in the segment the handle points to. -/
def Keeps (t : BufferStore) : BufferCall → Prop
  | .others _ _ => True
  | .append w buf => t.Takes w buf
  | .appendString w str => ∀ buf ∈ str, t.Takes w buf
  | .appendArray _ ar => t.stored = [] ∧ t.heap.arrays[ar]? = some []
  | .appendHandle bf => t.stored = [] ∧ bf.mode = .indiv ∧
    ∃ p ∈ t.handle.b, ∃ q ∈ bf.b, Gathered t.heap p q
  | .shift _ len => len = 0
  | .shiftHandle len => len = 0 ∨ len < t.stored.length

instance (t : BufferStore) (w : Surroundings) (buf : List UInt8) : Decidable (t.Takes w buf) := by
  unfold Takes
  infer_instance

instance (t : BufferStore) (a : BufferCall) : Decidable (t.Keeps a) := by
  cases a <;> unfold Keeps <;> infer_instance

/-- The bytes that a call is given. -/
def given : BufferObs → List UInt8
  | .appended bytes _ => bytes
  | .shifted _ _ => []

/-- The bytes that a call takes out. -/
def taken : BufferObs → List UInt8
  | .shifted _ (some (_, _, out)) => out
  | .shifted _ none | .appended _ _ => []

/-- The call has succeeded, and returns how many bytes it has moved. -/
def Done : BufferObs → Prop
  | .appended bytes reply => reply = some (.ok, (bytes.length : Int))
  | .shifted len reply => ∃ out ∈ reply, out.1 = .ok ∧ out.2.1 = len ∧ out.2.2.length = len

/-- What the calls have done is what a queue of bytes does. -/
structure ByteQueue (tr : List BufferObs) (t : BufferStore) : Prop where
  done : ∀ o ∈ tr, Done o
  bytes : tr.flatMap taken ++ t.stored = tr.flatMap given

/-- What holds of the handle in a run. -/
structure Holds (tr : List BufferObs) (t : BufferStore) (p : Nat) (s : StdBuffer)
    (x : List UInt8) : Prop where
  b : t.handle.b = some p
  mode : t.handle.mode = .append
  size : 0 < t.handle.arraySize
  single : Single t.heap p s x
  done : ∀ o ∈ tr, Done o
  bytes : tr.flatMap taken ++ x = tr.flatMap given

theorem Holds.stored (h : Holds tr t p s x) : t.stored = x := by
  rw [BufferStore.stored, h.b, h.single.bytes]
  rfl

theorem forall_mem_snoc {α : Type} {P : α → Prop} {l : List α} {a : α} (h : ∀ x ∈ l, P x)
    (ha : P a) : ∀ x ∈ l ++ [a], P x := by
  intro x hx
  rcases List.mem_append.mp hx with hx | hx
  · exact h x hx
  · rwa [List.mem_singleton.mp hx]

/-- After an `append` that does what it should. -/
theorem Holds.appended (h : Holds tr t p s x) {m : BufferHeap} {q : Nat} {s' : StdBuffer}
    (buf : List UInt8) (hs : Single m q s' (x ++ buf)) :
    Holds (tr ++ [BufferObs.appended buf (some (.ok, buf.length))])
      ⟨m, { t.handle with b := some q }⟩ q s' (x ++ buf) := by
  refine ⟨rfl, h.mode, h.size, hs, forall_mem_snoc h.done rfl, ?_⟩
  have hbytes := h.bytes
  simp only [List.flatMap_append, List.flatMap_singleton, taken, given, List.append_nil] at hbytes ⊢
  rw [← List.append_assoc, hbytes]

/-- After a `shift` that does what it should. -/
theorem Holds.shifted (h : Holds tr t p s x) {m : BufferHeap} {s' : StdBuffer} {len : Nat}
    (hlen : len ≤ x.length) (hs : Single m p s' (x.drop len)) :
    Holds (tr ++ [BufferObs.shifted len (some (.ok, len, x.take len))]) { t with heap := m } p s'
      (x.drop len) := by
  refine ⟨h.b, h.mode, h.size, hs, forall_mem_snoc h.done ?_, ?_⟩
  · exact ⟨_, rfl, rfl, rfl, List.length_take_of_le hlen⟩
  · have hbytes := h.bytes
    simp only [List.flatMap_append, List.flatMap_singleton, taken, given, List.append_nil] at hbytes ⊢
    rw [List.append_assoc, List.take_append_drop, hbytes]

theorem Holds.append (h : Holds tr t p s x) {buf : List UInt8} (hk : t.Takes w buf) :
    ∃ m q s', t.handle.append t.heap w buf =
        some (BufferError.ok, (buf.length : Int), m, { t.handle with b := some q }) ∧
      Single m q s' (x ++ buf) := by
  obtain ⟨hret, hroom⟩ := hk
  have hroom : buf = [] ∨ Room (refs t.heap w) t.handle.arraySize s buf.length := by
    refine hroom.imp_right ?_
    rintro ⟨q, hq, s', hs', hr⟩
    cases (h.b.symm.trans hq)
    cases (h.single.get.symm.trans hs')
    exact hr
  obtain ⟨m, q, s', happ, hs⟩ := append_spec (w := w) h.b h.mode h.single h.size hroom
  rw [hret, Int.zero_add] at happ
  exact ⟨m, q, s', happ, hs⟩

theorem Holds.step (h : Holds tr t p s x) {a : BufferCall} (hk : t.Keeps a)
    (hs : t.step a = some (u, os)) : ∃ p s x, Holds (tr ++ os) u p s x := by
  cases a with
  | others buffers arrays =>
    cases hs
    refine ⟨p, s, x, h.b, h.mode, h.size, h.single.others buffers arrays, ?_, ?_⟩
    · rw [List.append_nil]
      exact h.done
    · rw [List.append_nil]
      exact h.bytes
  | append w buf =>
    obtain ⟨m, q, s', happ, hsingle⟩ := h.append hk
    simp only [BufferStore.step, BufferStore.appended, happ] at hs
    cases hs
    exact ⟨q, s', _, h.appended _ hsingle⟩
  | appendString w str =>
    cases str with
    | none =>
      simp only [BufferStore.step, BufferStore.appended, appendString] at hs
      cases hs
      have hb : { t.handle with b := some p } = t.handle := by rw [← h.b]
      have := h.appended [] (q := p) (by rw [List.append_nil]; exact h.single)
      rw [hb] at this
      exact ⟨p, s, _, this⟩
    | some buf =>
      obtain ⟨m, q, s', happ, hsingle⟩ := h.append (hk buf rfl)
      simp only [BufferStore.step, BufferStore.appended, appendString, happ] at hs
      cases hs
      exact ⟨q, s', _, h.appended _ hsingle⟩
  | appendArray w ar =>
    obtain ⟨hnil, har⟩ := hk
    rw [h.stored] at hnil
    obtain ⟨m, r, s', happ, hsingle⟩ := appendArray_spec (w := w) h.b h.single.get h.single.next har
    simp only [BufferStore.step, BufferStore.appended, happ, har] at hs
    cases hs
    have := h.appended [] (q := r) (by rw [List.append_nil, hnil]; exact hsingle)
    exact ⟨r, s', _, this⟩
  | appendHandle bf =>
    obtain ⟨hnil, hmode, q, hq, r, hr, hg⟩ := hk
    rw [h.stored] at hnil
    cases (h.b.symm.trans hq)
    obtain ⟨m, r, s', y, happ, hy, hsingle⟩ :=
      appendHandle_spec _ h.b h.single.get h.single.next hmode hr hg
    simp only [BufferStore.step, BufferStore.appended, happ, hy] at hs
    cases hs
    exact ⟨r, s', _, h.appended _ (by rw [hnil]; exact hsingle)⟩
  | shift w len =>
    cases hk
    simp only [BufferStore.step, shift_zero h.b h.single.get] at hs
    cases hs
    exact ⟨p, s, _, h.shifted (Nat.zero_le _) h.single⟩
  | shiftHandle len =>
    simp only [Keeps, h.stored] at hk
    by_cases h0 : len = 0
    · have hzero : t.handle.shiftHandle t.heap 0 =
          some (.ok, ⟨none, .indiv, t.handle.arraySize⟩, t.heap) := by
        simp [BufferHandle.shiftHandle, BufferHeap.shift, shiftLoop, h.b, point]
      simp only [h0, BufferStore.step, hzero] at hs
      cases hs
      exact ⟨p, s, _, h.shifted (Nat.zero_le _) h.single⟩
    · obtain ⟨m, r, s', hshift, hbytes, hsingle⟩ := shiftHandle_spec h.b h.single
        (Nat.pos_of_ne_zero h0) (hk.resolve_left h0)
      simp only [BufferStore.step, hshift, hbytes] at hs
      cases hs
      exact ⟨p, s', _, h.shifted (Nat.le_of_lt (hk.resolve_left h0)) hsingle⟩

/-- No shift of bytes into a block returns. -/
theorem Holds.shift_block (h : Holds tr t p s x) {len : Nat} (h0 : 0 < len) :
    t.step (.shift w len) = some (t, [.shifted len none]) := by
  have hshift : t.handle.shift t.heap w len = none := by
    simp [BufferHandle.shift, is_singlePointed, singleLoop, h.b, h0, h.single.get, h.single.next]
  simp only [BufferStore.step, hshift]

/-- No bytes are appended where there is no array yet. -/
theorem Holds.append_terminator (h : Holds tr t p s x) (htop : s.avairableTop = none)
    {buf : List UInt8} (hbuf : buf ≠ []) :
    ∃ u erp, t.step (.append w buf) = some (u, [.appended buf (some (erp, -1))]) ∧ erp ≠ .ok := by
  obtain ⟨erp, m, hloop, herp⟩ := loop_terminator (refs t.heap w) w.ret
    (n := t.heap.buffers.length + 3 * buf.length + 1) h.single htop hbuf h.size
  have happ : t.handle.append t.heap w buf = some (erp, -1, m, t.handle) := by
    have hcopy : t.heap.copyin (refs t.heap w) w.ret p s.dataSize buf t.handle.arraySize =
        some (erp, -1, m) := by
      rw [copyin, h.single.get]
      exact hloop
    simp [BufferHandle.append, h.mode, h.b, last_end h.single.get h.single.next, hcopy, herp]
  refine ⟨⟨m, t.handle⟩, erp, ?_, herp⟩
  simp only [BufferStore.step, BufferStore.appended, happ]

/-- The bytes of an array are not taken. -/
theorem Holds.append_array (h : Holds tr t p s x) {ar : Nat} {ary : List UInt8}
    (har : t.heap.arrays[ar]? = some ary) :
    ∃ u, t.step (.appendArray w ar) = some (u, [.appended ary (some (.ok, 0))]) := by
  obtain ⟨m, r, s', happ, -⟩ := appendArray_spec (w := w) h.b h.single.get h.single.next har
  refine ⟨⟨m, { t.handle with b := some r }⟩, ?_⟩
  simp only [BufferStore.step, BufferStore.appended, happ, har]
  rfl

/-- The handle is a queue of bytes; and no bytes are shifted into a block or appended from an
array, nor are they appended as long as the segment has no array. -/
structure ByteQueueLaw (tr : List BufferObs) (t : BufferStore) : Prop where
  queue : ByteQueue tr t
  block : ∀ w len, 0 < len → t.step (.shift w len) = some (t, [.shifted len none])
  array : ∀ w ar ary, t.heap.arrays[ar]? = some ary →
    ∃ u, t.step (.appendArray w ar) = some (u, [.appended ary (some (.ok, 0))])
  terminator : (∀ p ∈ t.handle.b, ∀ s ∈ t.heap.get p, s.avairableTop = none) →
    ∀ w buf, buf ≠ [] →
      ∃ u erp, t.step (.append w buf) = some (u, [.appended buf (some (erp, -1))]) ∧ erp ≠ .ok

/-- As long as the calls keep all the bytes in the segment that the handle points to, the handle
is a queue of bytes. -/
theorem byteQueue_law (h : machine.RunIf Keeps tr t) : ByteQueueLaw tr t := by
  have hI : ∃ p s x, Holds tr t p s x := by
    refine h.invariant (I := fun tr t => ∃ p s x, Holds tr t p s x) ?start ?step
    case start =>
      rintro t ⟨hheap, hb, hmode, hsize⟩
      refine ⟨0, .terminator, [], hb, hmode, hsize, ?_, nofun, rfl⟩
      rw [hheap]
      exact ⟨rfl, rfl, rfl, rfl⟩
    case step =>
      rintro tr t a u os - ⟨p, s, x, hh⟩ hk hs
      exact hh.step hk hs
  obtain ⟨p, s, x, hh⟩ := hI
  refine ⟨⟨hh.done, ?_⟩, fun w len h0 => hh.shift_block h0, fun w ar ary => hh.append_array,
    fun htop w buf => hh.append_terminator (htop p hh.b s hh.single.get)⟩
  rw [hh.stored]
  exact hh.bytes

/-- A call that meets no uninitialized value and nobody else who holds an array. -/
def alone : Surroundings := ⟨0, fun _ => 1, fun _ => 1, true⟩

/-- Segments of other handles, filled up and cut into. -/
theorem byteQueue_law_cut :
    ∃ tr t, machine.RunIf Keeps tr t ∧ ByteQueueLaw tr t ∧
      tr.flatMap taken = [1, 2, 3] ∧ t.stored = [4, 5, 6] := by
  obtain ⟨tr, t, hr, hp⟩ := Machine.exists_run (M := machine) (C := Keeps)
    (P := fun tr t => tr.flatMap taken = [1, 2, 3] ∧ t.stored = [4, 5, 6])
    [.others [⟨none, some 0, true, some 0, 8, 1, 2⟩] [[0, 1, 2, 0, 0, 0, 0, 0]],
      .appendHandle ⟨some 1, .indiv, 8⟩, .append alone [3, 4], .shiftHandle 1,
      .appendString alone (some [5]), .append alone [], .shift alone 0, .shiftHandle 2,
      .appendString alone none, .append alone [6]]
    (s := ⟨⟨[.terminator], []⟩, ⟨some 0, .append, 4⟩⟩) ⟨rfl, rfl, rfl, by decide⟩
    (by decide +kernel)
  exact ⟨tr, t, hr, byteQueue_law hr, hp⟩

/-- The first byte that is appended is refused; and of bytes that are there none is shifted. -/
theorem byteQueue_refuses :
    (∃ tr t, machine.Run tr t ∧ .appended [1] (some (.extend, -1)) ∈ tr ∧ ¬ ByteQueue tr t) ∧
      ∃ tr t, machine.Run tr t ∧ .appended [1, 2] (some (.ok, 2)) ∈ tr ∧
        .shifted 1 none ∈ tr ∧ ¬ ByteQueue tr t := by
  refine ⟨?_, ?_⟩
  · obtain ⟨tr, t, hr, hp⟩ := Machine.exists_run (M := machine) (C := fun _ _ => True)
      (P := fun tr _ => .appended [1] (some (.extend, -1)) ∈ tr)
      [.append alone [1]]
      (s := ⟨⟨[.terminator], []⟩, ⟨some 0, .append, 4⟩⟩) ⟨rfl, rfl, rfl, by decide⟩
      (by decide +kernel)
    refine ⟨tr, t, hr, hp, fun hq => ?_⟩
    exact absurd (hq.done _ hp) (by simp [Done])
  · obtain ⟨tr, t, hr, hp, hn⟩ := Machine.exists_run (M := machine) (C := fun _ _ => True)
      (P := fun tr _ => .appended [1, 2] (some (.ok, 2)) ∈ tr ∧ .shifted 1 none ∈ tr)
      [.others [⟨none, some 0, true, some 0, 8, 1, 2⟩] [[0, 1, 2, 0, 0, 0, 0, 0]],
        .appendHandle ⟨some 1, .indiv, 8⟩, .shift alone 1]
      (s := ⟨⟨[.terminator], []⟩, ⟨some 0, .append, 4⟩⟩) ⟨rfl, rfl, rfl, by decide⟩
      (by decide +kernel)
    refine ⟨tr, t, hr, hp, hn, fun hq => ?_⟩
    obtain ⟨out, hout, -⟩ := hq.done _ hn
    cases hout

end BufferStore

end TinyState
