import Mathlib.Data.List.Perm.Subperm
import TinyState.Containers.ByteQueue
import TinyState.Lib.LinkedList

/-!
# Chains of segments

What lies in the heap from a segment on: the segments up to the last one, each with its data.
The contents are the data one after the other.
-/

namespace TinyState

open LinkedList

namespace BufferHeap

/-- A segment, where it lies and the data it has. -/
structure Piece where
  place : Nat
  seg : StdBuffer
  data : List UInt8
  deriving DecidableEq, Repr

/-- The piece is what lies in the heap. -/
structure Piece.Lies (m : BufferHeap) (q : Piece) : Prop where
  get : m.get q.place = some q.seg
  data : m.load q.seg.avairableTop q.seg.dataHead q.seg.dataSize = some q.data

/-- From `p` on there are these pieces, and no others. -/
inductive Chain (m : BufferHeap) : Option Nat → List Piece → Prop
  | nil : Chain m none []
  | cons {q : Piece} {l : List Piece} : q.Lies m → Chain m q.seg.next l →
      Chain m (some q.place) (q :: l)

/-- The bytes of the pieces, one after the other. -/
def flat (l : List Piece) : List UInt8 := l.flatMap Piece.data

/-- The chain from `p` on ends, and holds these bytes. -/
def Contains (m : BufferHeap) (p : Option Nat) (x : List UInt8) : Prop :=
  ∃ l, Chain m p l ∧ flat l = x

/-- The link of a segment. -/
def nextOf (m : BufferHeap) (p : Nat) : Option Nat := (m.get p).bind StdBuffer.next

variable {m m' : BufferHeap} {p : Option Nat} {q r : Piece} {l l' front rest : List Piece}
  {x y : List UInt8} {s : StdBuffer} {i : Nat}

@[simp] theorem flat_nil : flat [] = [] := rfl

@[simp] theorem flat_cons (q : Piece) (l : List Piece) : flat (q :: l) = q.data ++ flat l := rfl

@[simp] theorem flat_append (l l' : List Piece) : flat (l ++ l') = flat l ++ flat l' :=
  List.flatMap_append

theorem Piece.Lies.length (h : q.Lies m) : q.data.length = q.seg.dataSize := load_length h.data

theorem nextOf_eq (h : m.get i = some s) : m.nextOf i = s.next := by
  rw [nextOf, h]
  rfl

namespace Chain

theorem linked (h : Chain m p l) : Linked m.nextOf p (l.map Piece.place) := by
  induction h with
  | nil => rfl
  | cons hq _ ih => exact ⟨rfl, nextOf_eq hq.get ▸ ih⟩

theorem nodup (h : Chain m p l) : (l.map Piece.place).Nodup := h.linked.nodup

theorem unique (h : Chain m p l) (h' : Chain m p l') : l = l' := by
  induction h generalizing l' with
  | nil =>
    cases h'
    rfl
  | @cons q l hq _ ih =>
    generalize hp : some q.place = p at h'
    cases h' with
    | nil => cases hp
    | @cons r l' hr hl =>
      have hseg : q.seg = r.seg := by
        have hget := hr.get
        rw [← Option.some.inj hp, hq.get] at hget
        exact Option.some.inj hget
      have hdata : q.data = r.data := by
        have hd := hr.data
        rw [← hseg, hq.data] at hd
        exact Option.some.inj hd
      have hqr : q = r := by
        cases q
        cases r
        simp_all
      subst hqr
      rw [ih hl]

theorem lies (h : Chain m p l) : ∀ q ∈ l, q.Lies m := by
  induction h with
  | nil => nofun
  | cons hq _ ih => exact List.forall_mem_cons.mpr ⟨hq, ih⟩

/-- A chain is where its segments and their data still are. -/
theorem frame (h : Chain m p l) (hl : ∀ q ∈ l, q.Lies m') : Chain m' p l := by
  induction h with
  | nil => exact .nil
  | cons _ _ ih =>
    obtain ⟨hq, hl⟩ := List.forall_mem_cons.mp hl
    exact .cons hq (ih hl)

theorem head (h : Chain m (some i) l) : ∃ q rest, l = q :: rest ∧ q.place = i ∧ q.Lies m ∧
    Chain m q.seg.next rest := by
  generalize hp : some i = p at h
  cases h with
  | nil => cases hp
  | cons hq hl => exact ⟨_, _, rfl, (Option.some.inj hp).symm, hq, hl⟩

theorem tail (h : Chain m p (q :: l)) : p = some q.place ∧ q.Lies m ∧ Chain m q.seg.next l := by
  cases h with
  | cons hq hl => exact ⟨rfl, hq, hl⟩

theorem of_none (h : Chain m none l) : l = [] := by
  generalize hp : none = p at h
  cases h with
  | nil => rfl
  | cons => cases hp

/-- A segment with others after it leads to the first of them. -/
theorem exists_next (h : Chain m q.seg.next l) (hl : l ≠ []) : ∃ j, q.seg.next = some j := by
  cases hj : q.seg.next with
  | some j => exact ⟨j, rfl⟩
  | none =>
    rw [hj] at h
    exact absurd h.of_none hl

theorem suffix (h : Chain m p (l ++ l')) : ∃ p', Chain m p' l' := by
  induction l generalizing p with
  | nil => exact ⟨p, h⟩
  | cons q l ih => exact ih h.tail.2.2

theorem notMem (h : Chain m p (q :: l)) : ∀ r ∈ l, r.place ≠ q.place := by
  intro r hr he
  have hn := (List.nodup_cons.mp h.nodup).1
  exact hn (he ▸ List.mem_map_of_mem hr)

theorem length_le (h : Chain m p l) : l.length ≤ m.buffers.length := by
  have hlt : ∀ n ∈ l.map Piece.place, n < m.buffers.length := by
    intro n hn
    obtain ⟨q, hq, rfl⟩ := List.mem_map.mp hn
    exact (List.getElem?_eq_some_iff.mp (h.lies q hq).get).1
  have hsub := (List.subperm_of_subset h.nodup fun n hn => List.mem_range.mpr (hlt n hn)).length_le
  rwa [List.length_map, List.length_range] at hsub

theorem bytesFrom (h : Chain m (some i) l) {n : Nat} (hn : l.length ≤ n) :
    m.bytesFrom n i = some (flat l) := by
  induction l generalizing i n with
  | nil => cases h
  | cons q l ih =>
    obtain ⟨hi, hq, hl⟩ := h.tail
    obtain rfl : i = q.place := Option.some.inj hi
    cases n with
    | zero => exact absurd hn (Nat.not_succ_le_zero _)
    | succ n =>
      simp only [BufferHeap.bytesFrom, hq.get, hq.data, Option.bind_eq_bind, Option.bind_some]
      cases hnext : q.seg.next with
      | none =>
        rw [hnext] at hl
        cases hl
        simp
      | some j =>
        rw [hnext] at hl
        simp only [ih hl (Nat.succ_le_succ_iff.mp hn), Option.bind_some]
        rfl

/-- The bytes of a chain are those that `bytes` reads. -/
theorem bytes (h : Chain m (some i) l) : m.bytes (some i) = some (flat l) :=
  h.bytesFrom (Nat.le_succ_of_le h.length_le)

end Chain

theorem Contains.unique (h : Contains m p x) (h' : Contains m p y) : x = y := by
  obtain ⟨l, hl, rfl⟩ := h
  obtain ⟨l', hl', rfl⟩ := h'
  rw [hl.unique hl']

-- ---------------------------------------------------------------------------
-- What changes elsewhere
-- ---------------------------------------------------------------------------

theorem Piece.Lies.set (h : q.Lies m) (hi : q.place ≠ i) : q.Lies (m.set i s) :=
  ⟨(get_set_ne hi.symm).trans h.get, h.data⟩

/-- Writing a segment that is not in the chain. -/
theorem Chain.set (h : Chain m p l) (hi : ∀ q ∈ l, q.place ≠ i) : Chain (m.set i s) p l :=
  h.frame fun q hq => (h.lies q hq).set (hi q hq)

theorem Piece.Lies.newBuffer (h : q.Lies m) (s : StdBuffer) : q.Lies (m.newBuffer s).2 :=
  ⟨getElem?_append_some h.get, h.data⟩

theorem Chain.newBuffer (h : Chain m p l) (s : StdBuffer) : Chain (m.newBuffer s).2 p l :=
  h.frame fun q hq => (h.lies q hq).newBuffer s

/-- A new segment has a place of its own. -/
theorem Piece.Lies.ne_new (h : q.Lies m) : q.place ≠ m.buffers.length :=
  Nat.ne_of_lt (List.getElem?_eq_some_iff.mp h.get).1

theorem get_new (m : BufferHeap) (s : StdBuffer) :
    (m.newBuffer s).2.get m.buffers.length = some s := List.getElem?_concat_length

/-- Writing what is there. -/
theorem set_self (h : m.get i = some s) : m.set i s = m := by
  obtain ⟨hlt, hs⟩ := List.getElem?_eq_some_iff.mp h
  simp [BufferHeap.set, ← hs]

theorem load_of_arrays {top : Option Nat} {n : Nat} (hx : m.load top i n = some x)
    (ha : ∀ (k : Nat) (ary : List UInt8), top = some k → m.arrays[k]? = some ary →
      m'.arrays[k]? = some ary) : m'.load top i n = some x := by
  unfold load at hx ⊢
  split at hx
  · next h0 => rw [if_pos h0, hx]
  · next h0 =>
    rw [if_neg h0]
    cases top with
    | none => exact hx
    | some k =>
      simp only [Option.bind_eq_bind, Option.bind_some] at hx ⊢
      obtain ⟨ary, hk, hx⟩ := Option.bind_eq_some_iff.mp hx
      rw [ha k ary rfl hk]
      exact hx

/-- Bytes out of the middle of those that are loaded. -/
theorem load_drop_take {top : Option Nat} {h n : Nat} (pos k : Nat)
    (hx : m.load top h n = some x) (hk : pos + k ≤ n) :
    m.load top (h + pos) k = some ((x.drop pos).take k) := by
  unfold load at hx ⊢
  split at hx
  · next h0 =>
    cases hx
    rw [if_pos (by omega)]
    simp
  · obtain ⟨a, htop, hx⟩ := Option.bind_eq_some_iff.mp hx
    obtain ⟨ary, ha, hx⟩ := Option.bind_eq_some_iff.mp hx
    split at hx
    · cases hx
      split
      · next hk0 => simp [hk0]
      · have hle : h + pos + k ≤ ary.length := by omega
        simp only [htop, ha, Option.bind_eq_bind, Option.bind_some, if_pos hle]
        rw [List.drop_take, List.take_take, List.drop_drop, Nat.min_eq_left (by omega)]
    · cases hx

/-- Where the arrays of the chain stay as they are. -/
theorem Piece.Lies.arrays (h : q.Lies m) (hb : m'.get q.place = m.get q.place)
    (ha : ∀ (k : Nat) (ary : List UInt8), q.seg.avairableTop = some k → m.arrays[k]? = some ary →
      m'.arrays[k]? = some ary) : q.Lies m' :=
  ⟨hb.trans h.get, load_of_arrays h.data ha⟩

end BufferHeap

end TinyState
