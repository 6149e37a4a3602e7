import TinyState.Containers.BufferChain

/-!
# Cutting a chain anew

The segments that the copying operations make go through `initial`, which refuses a segment
whose data end where its array ends. Where `concat` comes by a segment without an array, it
puts the further segments of the other chain there, and so into a circle.
-/

namespace TinyState

open LinkedList

namespace BufferHeap

/-- The copy constructor. -/
def copyConstruct (m : BufferHeap) (inp : Nat) : Option (Nat × BufferHeap) := do
  let s ← m.get inp
  let n ← s.initial s.container s.writable s.avairableTop s.avairableSize s.dataHead s.dataSize
  some (m.newBuffer n)

/-- The loop of `concat` at a segment `pb` without an array. -/
def takeOver (m : BufferHeap) (this pb : Nat) (bf : Option Nat) : Option BufferHeap := do
  let b ← m.get (← bf)
  let t ← (← m.get this).initial b.container b.writable b.avairableTop b.avairableSize b.dataHead
    b.dataSize
  let m := m.set this t
  some (m.set pb { ← m.get pb with next := b.next })

/-- The loop of `concat`. -/
def concatLoop (this : Nat) (bf : Option Nat) : Nat → BufferHeap → Nat → Option BufferHeap
  | 0, _, _ => none
  | fuel + 1, m, pb => do
    let s ← m.get pb
    if s.next.isNone then some (m.set pb { s with next := bf })
    else
      let m ← (if s.avairableTop.isNone then m.takeOver this pb bf else some m)
      concatLoop this bf fuel m (← m.nextOf pb)

example (m : BufferHeap) (this pb : Nat) (bf : Option Nat) : concatLoop this bf 0 m pb = none := by
  simp [concatLoop]

/-- `concat`, as far as the fuel goes. -/
def concat (fuel : Nat) (m : BufferHeap) (this : Nat) (bf : Option Nat) : Option BufferHeap :=
  concatLoop this bf fuel m this

variable {m m' : BufferHeap} {refs : Nat → Nat} {p bf : Option Nat}
  {i j this arraySize fuel : Nat} {q : Piece} {l lb : List Piece} {x y : List UInt8} {s : StdBuffer}

-- ---------------------------------------------------------------------------
-- Copies
-- ---------------------------------------------------------------------------

/-- The data end before the array does. -/
def Roomy (s : StdBuffer) : Prop := s.avairableSize ≠ 0 → s.fin < s.avairableSize

instance : Decidable (Roomy s) := by
  unfold Roomy
  infer_instance

/-- What `initial` makes of a segment's own fields. -/
theorem initial_own (h : Roomy s) :
    s.initial s.container s.writable s.avairableTop s.avairableSize s.dataHead s.dataSize =
      some s := by
  rw [StdBuffer.initial, if_neg]
  rintro ⟨h0, hbad⟩
  have hfin := h h0
  simp only [StdBuffer.fin] at hfin
  omega

theorem initial_full (h : ¬ Roomy s) :
    s.initial s.container s.writable s.avairableTop s.avairableSize s.dataHead s.dataSize =
      none := by
  rw [Roomy, Classical.not_imp, StdBuffer.fin] at h
  rw [StdBuffer.initial, if_pos ⟨h.1, by omega⟩]

theorem copyConstruct_eq (h : Chain m (some i) (q :: l)) (hr : Roomy q.seg) :
    m.copyConstruct i = some (m.newBuffer q.seg) := by
  obtain ⟨hi, hq, -⟩ := h.tail
  obtain rfl : i = q.place := Option.some.inj hi
  rw [copyConstruct, hq.get, Option.bind_eq_bind, Option.bind_some, initial_own hr]
  rfl

/-- A copy of the first segment goes on with the same further segments. -/
theorem copy_chain (h : Chain m (some i) (q :: l)) :
    Chain (m.newBuffer q.seg).2 (some m.buffers.length)
      (⟨m.buffers.length, q.seg, q.data⟩ :: l) := by
  obtain ⟨-, hq, hl⟩ := h.tail
  exact .cons (q := ⟨m.buffers.length, q.seg, q.data⟩) ⟨get_new m q.seg, hq.data⟩
    (hl.newBuffer q.seg)

/-- The copy constructor keeps the content if and only if the segment is not full. -/
theorem copyConstruct_iff (h : Chain m (some i) (q :: l)) :
    (∃ n m', m.copyConstruct i = some (n, m') ∧ Contains m' (some n) (flat (q :: l)) ∧
      Contains m' (some i) (flat (q :: l))) ↔ Roomy q.seg := by
  constructor
  · rintro ⟨n, m', hc, -⟩
    by_contra hr
    obtain ⟨hi, hq, -⟩ := h.tail
    obtain rfl : i = q.place := Option.some.inj hi
    simp only [copyConstruct, hq.get, Option.bind_eq_bind, Option.bind_some, initial_full hr] at hc
    cases hc
  · intro hr
    exact ⟨_, _, copyConstruct_eq h hr, ⟨_, copy_chain h, rfl⟩, _, h.newBuffer q.seg, rfl⟩

/-- `*rp = p` where `rp` is at the result, or at the link of a segment. -/
theorem point_eq {prev : Option Nat} (head : Option Nat) (hprev : ∀ r ∈ prev, ∃ s, m.get r = some s)
    (p : Option Nat) :
    ∃ head' m', m.point prev head p = some (head', m') ∧ m'.arrays = m.arrays ∧
      m'.buffers.length = m.buffers.length ∧ (∀ i, prev ≠ some i → m'.get i = m.get i) ∧
      (∀ r ∈ prev, ∀ s, m.get r = some s → m'.get r = some { s with next := p }) ∧
      head' = if prev = none then p else head := by
  cases prev with
  | none => exact ⟨p, m, rfl, rfl, rfl, fun _ _ => rfl, nofun, rfl⟩
  | some r =>
    obtain ⟨s, hs⟩ := hprev r rfl
    refine ⟨head, m.set r { s with next := p }, ?_, rfl, List.length_set, ?_, ?_, rfl⟩
    · simp [point, hs]
    · intro i hi
      exact get_set_ne fun hri => hi (congrArg some hri)
    · rintro r' hr' s' hs'
      cases hr'
      obtain rfl := Option.some.inj (hs.symm.trans hs')
      exact get_set_self hs

/-- A round of `dup`: a copy of the segment, to which `prev` then leads. -/
theorem dup_round {len : Nat} {prev : Option Nat} (head : Option Nat)
    (h : Chain m (some i) (q :: l)) (hlen : 0 < len) (hroom : Roomy q.seg)
    (hprev : ∀ r ∈ prev, ∃ s, m.get r = some s) (hne : ∀ r ∈ prev, ∀ q ∈ l, q.place ≠ r) :
    ∃ head' m', (∀ fuel, dupLoop len (fuel + 1) m prev head (some i) =
        dupLoop len fuel m' (some m.buffers.length) head' q.seg.next) ∧
      Chain m' q.seg.next l ∧ m'.get m.buffers.length = some q.seg ∧
      m'.buffers.length = m.buffers.length + 1 ∧ m'.arrays = m.arrays ∧
      (∀ i, i < m.buffers.length → prev ≠ some i → m'.get i = m.get i) ∧
      (∀ r ∈ prev, ∀ s, m.get r = some s →
        m'.get r = some { s with next := some m.buffers.length }) ∧
      head' = if prev = none then some m.buffers.length else head := by
  obtain ⟨hi, hq, hl⟩ := h.tail
  obtain rfl : i = q.place := Option.some.inj hi
  have hprev' : ∀ r ∈ prev, ∃ s, (m.newBuffer q.seg).2.get r = some s := fun r hr => by
    obtain ⟨s, hs⟩ := hprev r hr
    exact ⟨s, getElem?_append_some hs⟩
  obtain ⟨head', m', hpt, ha, hlen', hother, hself, hhead⟩ :=
    point_eq head hprev' (some m.buffers.length)
  have hlt : ∀ r ∈ prev, r < m.buffers.length := fun r hr => by
    obtain ⟨s, hs⟩ := hprev r hr
    exact (List.getElem?_eq_some_iff.mp hs).1
  refine ⟨head', m', fun fuel => ?_, ?_, ?_, ?_, ha, ?_, ?_, hhead⟩
  · simp only [dupLoop, if_pos hlen, hq.get, initial_own hroom, Option.bind_eq_bind,
      Option.bind_some]
    rw [show (m.newBuffer q.seg).1 = m.buffers.length from rfl, hpt]
    rfl
  · exact (hl.newBuffer q.seg).frame fun r hr => ((hl.newBuffer q.seg).lies r hr).arrays
      (hother _ fun he => hne _ he r hr rfl) fun k ary _ hk => ha ▸ hk
  · rw [hother _ fun he => Nat.lt_irrefl _ (hlt _ he)]
    exact get_new m q.seg
  · rw [hlen']
    exact List.length_append
  · intro j hj hp
    rw [hother j hp]
    exact List.getElem?_append_left hj
  · exact fun r hr s hs => hself r hr s (getElem?_append_some hs)

/-- The loop of `dup` copies the chain from `pb` on, and puts the copy where `prev` says. -/
theorem dupLoop_eq {len : Nat} {prev : Option Nat} (head : Option Nat) (h : Chain m p l)
    (hlen : 0 < len) (hroom : ∀ q ∈ l, Roomy q.seg) (hprev : ∀ r ∈ prev, ∃ s, m.get r = some s)
    (hne : ∀ r ∈ prev, ∀ q ∈ l, q.place ≠ r) (hf : l.length < fuel) :
    ∃ first head' m' l', dupLoop len fuel m prev head p = some (head', m') ∧
      Chain m' first l' ∧ flat l' = flat l ∧ m'.arrays = m.arrays ∧
      (∀ i, i < m.buffers.length → prev ≠ some i → m'.get i = m.get i) ∧
      (∀ r ∈ prev, ∀ s, m.get r = some s → m'.get r = some { s with next := first }) ∧
      head' = if prev = none then first else head := by
  induction l generalizing m p prev head fuel with
  | nil =>
    cases h
    obtain ⟨fuel, rfl⟩ : ∃ k, fuel = k + 1 := Nat.exists_eq_add_one_of_ne_zero (by omega)
    obtain ⟨head', m', hpt, ha, -, hother, hself, hhead⟩ := point_eq head hprev none
    exact ⟨none, head', m', [], hpt, .nil, rfl, ha, fun i _ hi => hother i hi, hself, hhead⟩
  | cons q l ih =>
    obtain ⟨rfl, hq, hl⟩ := h.tail
    obtain ⟨hroom, hrest⟩ := List.forall_mem_cons.mp hroom
    obtain ⟨fuel, rfl⟩ : ∃ k, fuel = k + 1 := Nat.exists_eq_add_one_of_ne_zero (by omega)
    obtain ⟨head₁, m₁, hround, hl₁, hnew, hlen₁, ha₁, hother₁, hself₁, hhead₁⟩ :=
      dup_round head h hlen hroom hprev fun r hr q' hq' => hne r hr q' (List.mem_cons_of_mem q hq')
    obtain ⟨first, head', m', l', hloop, hc, hflat, ha, hother, hself, hhead⟩ :=
      ih head₁ hl₁ hrest
        (fun r (hr : some m.buffers.length = some r) => ⟨q.seg, by cases hr; exact hnew⟩)
        (fun r hr q' hq' => by cases hr; exact (hl.lies q' hq').ne_new)
        (Nat.lt_of_succ_lt_succ hf)
    have hold : ∀ i, i < m.buffers.length → m'.get i = m₁.get i := fun i hi =>
      hother i (by omega) fun he => Nat.ne_of_gt hi (Option.some.inj he)
    refine ⟨some m.buffers.length, head', m',
      ⟨m.buffers.length, { q.seg with next := first }, q.data⟩ :: l', (hround fuel).trans hloop,
      ?_, ?_, ha.trans ha₁, fun i hi hp => (hold i hi).trans (hother₁ i hi hp), ?_, ?_⟩
    · refine .cons (q := ⟨m.buffers.length, { q.seg with next := first }, q.data⟩)
        ⟨hself _ rfl _ hnew, ?_⟩ hc
      exact load_of_arrays hq.data fun k ary _ hk => by rw [ha, ha₁]; exact hk
    · rw [flat_cons, flat_cons, hflat]
    · intro r hr s hs
      rw [hold r (List.getElem?_eq_some_iff.mp hs).1]
      exact hself₁ r hr s hs
    · rw [hhead, if_neg nofun, hhead₁]

theorem dupLoop_full {len : Nat} {prev head : Option Nat} (h : Chain m p l) (hlen : 0 < len)
    (hfull : ∃ q ∈ l, ¬ Roomy q.seg) (hprev : ∀ r ∈ prev, ∃ s, m.get r = some s)
    (hne : ∀ r ∈ prev, ∀ q ∈ l, q.place ≠ r) : dupLoop len fuel m prev head p = none := by
  induction l generalizing m p prev head fuel with
  | nil => exact absurd hfull nofun
  | cons q l ih =>
    obtain ⟨rfl, hq, hl⟩ := h.tail
    cases fuel with
    | zero => rfl
    | succ fuel =>
      by_cases hroom : Roomy q.seg
      · have hfull' : ∃ q ∈ l, ¬ Roomy q.seg := by
          obtain ⟨r, hr, hf⟩ := hfull
          rcases List.mem_cons.mp hr with rfl | hr
          · exact absurd hroom hf
          · exact ⟨r, hr, hf⟩
        obtain ⟨head₁, m₁, hround, hl₁, hnew, -⟩ := dup_round head h hlen hroom hprev
          fun r hr q' hq' => hne r hr q' (List.mem_cons_of_mem q hq')
        rw [hround fuel]
        exact ih hl₁ hfull'
          (fun r (hr : some m.buffers.length = some r) => ⟨q.seg, by cases hr; exact hnew⟩)
          fun r hr q' hq' => by cases hr; exact (hl.lies q' hq').ne_new
      · simp only [dupLoop, if_pos hlen, hq.get, initial_full hroom, Option.bind_eq_bind,
          Option.bind_some, Option.bind_none]

/-- `dup` copies the content if and only if no segment is full, or nothing is to be copied. -/
theorem dup_iff (h : Chain m (some i) l) (len : Nat) :
    (∃ r m', m.dup i len = some (r, m') ∧ Contains m' r (flat l) ∧
      Contains m' (some i) (flat l)) ↔ len = 0 ∨ ∀ q ∈ l, Roomy q.seg := by
  constructor
  · rintro ⟨r, m', hd, -⟩
    by_contra hno
    rw [not_or] at hno
    have hfull : ∃ q ∈ l, ¬ Roomy q.seg := by
      by_contra hall
      exact hno.2 fun q hq => Classical.not_not.mp fun hr => hall ⟨q, hq, hr⟩
    have hnone : dupLoop len (m.buffers.length + 1) m none none (some i) = none :=
      dupLoop_full h (Nat.pos_of_ne_zero hno.1) hfull (fun _ h => by cases h) (fun _ h => by cases h)
    rw [dup, hnone] at hd
    cases hd
  · rintro hok
    by_cases h0 : len = 0
    · subst h0
      exact ⟨some i, m, rfl, ⟨l, h, rfl⟩, l, h, rfl⟩
    · have hnone : ∀ {P : Nat → Prop}, ∀ r ∈ (none : Option Nat), P r :=
        fun _ h => by cases h
      obtain ⟨first, head', m', l', hd, hc, hflat, ha, hother, -, hhead⟩ :=
        dupLoop_eq none h (Nat.pos_of_ne_zero h0) (hok.resolve_left h0) hnone hnone
          (Nat.lt_succ_of_le h.length_le)
      refine ⟨head', m', hd, ⟨l', ?_, hflat⟩, l, ?_, rfl⟩
      · rw [hhead]
        exact hc
      · exact h.frame fun q hq => (h.lies q hq).arrays
          (hother _ (List.getElem?_eq_some_iff.mp (h.lies q hq).get).1 (fun h => by cases h))
          fun k ary _ hk => ha ▸ hk

-- ---------------------------------------------------------------------------
-- A new array
-- ---------------------------------------------------------------------------

/-- A segment with an array of its own, which holds its data. -/
def renewed (m : BufferHeap) (q : Piece) (arraySize : Nat) : StdBuffer :=
  ⟨q.seg.next, some m.arrays.length, true, some m.arrays.length, arraySize, 0, q.seg.dataSize⟩

/-- What `refresh` leaves, where it does not fail and the segment may not be written. -/
def refreshed (m : BufferHeap) (q : Piece) (arraySize : Nat) : BufferHeap :=
  ⟨m.buffers.set q.place (m.renewed q arraySize),
    m.arrays ++ [q.data ++ List.replicate (arraySize - q.data.length) 0]⟩

theorem store_new (m : BufferHeap) {n : Nat} (hx : x.length ≤ n) :
    (m.newArray n).2.store (some m.arrays.length) 0 x =
      some ⟨m.buffers, m.arrays ++ [x ++ List.replicate (n - x.length) 0]⟩ := by
  by_cases h0 : x = []
  · subst h0
    rfl
  · have hk : (m.newArray n).2.arrays[m.arrays.length]? = some (List.replicate n 0) :=
      List.getElem?_concat_length
    have hset : (m.newArray n).2.arrays.set m.arrays.length
        (x ++ List.replicate (n - x.length) 0) =
          m.arrays ++ [x ++ List.replicate (n - x.length) 0] := by
      rw [newArray, List.set_append_right _ _ (Nat.le_refl _), Nat.sub_self]
      rfl
    simp only [store, if_neg h0, hk, Option.bind_eq_bind, Option.bind_some, List.length_replicate,
      Nat.zero_add, if_pos hx, List.take_zero, List.nil_append, List.drop_replicate, hset]
    rfl

theorem refresh_eq (hq : q.Lies m) (hw : ¬ q.seg.is_writable refs)
    (hsize : q.seg.dataSize < arraySize) :
    m.refresh refs q.place arraySize = some (m.refreshed q arraySize) := by
  have hlen := hq.length
  have hload : (m.newArray arraySize).2.load q.seg.avairableTop q.seg.dataHead q.seg.dataSize =
      some q.data := load_of_arrays hq.data fun k ary _ hk => getElem?_append_some hk
  have hinit : q.seg.initial (some m.arrays.length) true (some m.arrays.length) arraySize 0
      q.seg.dataSize = some (m.renewed q arraySize) := by
    rw [StdBuffer.initial, if_neg (by omega)]
    rfl
  simp only [refresh, hq.get, hw, if_pos (Nat.le_of_lt hsize), hload, Option.bind_eq_bind,
    Option.bind_some, if_false, Bool.false_eq_true]
  change ((m.newArray arraySize).2.store (some m.arrays.length) 0 q.data).bind _ = _
  rw [store_new m (by omega), Option.bind_some]
  change (q.seg.initial (some m.arrays.length) true (some m.arrays.length) arraySize 0
    q.seg.dataSize).bind _ = _
  rw [hinit, Option.bind_some]
  rfl

/-- Data that fill the new array, or more, are refused. -/
theorem refresh_refused (hq : q.Lies m) (hw : ¬ q.seg.is_writable refs) (h0 : 0 < arraySize)
    (hsize : arraySize ≤ q.seg.dataSize) : m.refresh refs q.place arraySize = none := by
  have hinit : ∀ (s : StdBuffer) (k n : Nat), arraySize ≤ n →
      s.initial (some k) true (some k) arraySize 0 n = none := fun s k n hn => by
    rw [StdBuffer.initial, if_pos ⟨Nat.ne_of_gt h0, .inr hn⟩]
  rw [refresh, hq.get, Option.bind_eq_bind, Option.bind_some, if_neg hw]
  split
  · simp only [hinit _ _ _ hsize, Option.bind_eq_bind, Option.bind_none, Option.bind_fun_none]
  · simp only [hinit _ _ _ (Nat.le_refl _), Option.bind_eq_bind, Option.bind_none,
      Option.bind_fun_none]

/-- The piece with its new array. -/
def Piece.renewed (m : BufferHeap) (q : Piece) (arraySize : Nat) : Piece :=
  ⟨q.place, BufferHeap.renewed m q arraySize, q.data⟩

theorem renewed_lies (hq : q.Lies m) : (q.renewed m arraySize).Lies (m.refreshed q arraySize) where
  get := get_set_self (m := m) hq.get
  data := by
    have hk : (m.refreshed q arraySize).arrays[m.arrays.length]? =
        some (q.data ++ List.replicate (arraySize - q.data.length) 0) := List.getElem?_concat_length
    have hle : q.seg.dataSize ≤
        (q.data ++ List.replicate (arraySize - q.data.length) (0 : UInt8)).length := by
      rw [← hq.length, List.length_append]
      exact Nat.le_add_right _ _
    have hload : (m.refreshed q arraySize).load (some m.arrays.length) 0 q.seg.dataSize = _ :=
      load_of_array hk (by rwa [Nat.zero_add])
    rw [List.drop_zero, ← hq.length, List.take_left] at hload
    exact hq.length ▸ hload

theorem refreshed_chain (h : Chain m (some i) (q :: l)) :
    Chain (m.refreshed q arraySize) (some i) (q.renewed m arraySize :: l) := by
  obtain ⟨hi, hq, hl⟩ := h.tail
  rw [hi]
  refine .cons (q := q.renewed m arraySize) (renewed_lies hq) (hl.frame fun r hr => ?_)
  exact (hl.lies r hr).arrays (get_set_ne (m := m) (h.notMem r hr).symm)
    fun k ary _ hk => getElem?_append_some hk

/-- `refresh` keeps the content if and only if the segment may be written or its data do not
fill a new array. -/
theorem refresh_iff (h : Chain m (some i) (q :: l)) (h0 : 0 < arraySize) :
    (∃ m', m.refresh refs i arraySize = some m' ∧ Contains m' (some i) (flat (q :: l))) ↔
      q.seg.is_writable refs ∨ q.seg.dataSize < arraySize := by
  obtain ⟨hi, hq, -⟩ := h.tail
  obtain rfl : i = q.place := Option.some.inj hi
  constructor
  · rintro ⟨m', hr, -⟩
    by_contra hno
    rw [not_or, Nat.not_lt] at hno
    rw [refresh_refused hq hno.1 h0 hno.2] at hr
    cases hr
  · intro hok
    by_cases hw : q.seg.is_writable refs
    · exact ⟨m, refresh_writable arraySize hq.get hw, _, h, rfl⟩
    · exact ⟨_, refresh_eq hq hw (hok.resolve_left hw), _, refreshed_chain h, rfl⟩

-- ---------------------------------------------------------------------------
-- Two chains
-- ---------------------------------------------------------------------------

theorem nextOf_set (hs : m.get i = some s) (u : StdBuffer) (k : Nat) :
    (m.set i u).nextOf k = if k = i then u.next else m.nextOf k := by
  rw [nextOf]
  split
  · next hk =>
    rw [hk, get_set_self hs]
    rfl
  · next hk => rw [get_set_ne (Ne.symm hk), nextOf]

/-- The segment leads to the rest of `bf` then, and the other links are as they were. -/
theorem takeOver_next {b : Nat} (h : m.takeOver this i (some b) = some m') (k : Nat) :
    m'.nextOf k = if k = i then m.nextOf b else m.nextOf k := by
  obtain ⟨sb, hsb, h⟩ := Option.bind_eq_some_iff.mp h
  obtain ⟨st, hst, h⟩ := Option.bind_eq_some_iff.mp h
  obtain ⟨u, hu, h⟩ := Option.bind_eq_some_iff.mp h
  obtain ⟨si, hsi, h⟩ := Option.bind_eq_some_iff.mp h
  cases h
  have hnext : u.next = st.next := by
    rw [StdBuffer.initial] at hu
    split at hu
    · cases hu
    · cases hu
      rfl
  have hkeep : ∀ k, (m.set this u).nextOf k = m.nextOf k := fun k => by
    rw [nextOf_set hst]
    split
    · next hk => rw [hk, nextOf_eq hst, hnext]
    · rfl
  rw [nextOf_set hsi, hkeep, nextOf_eq hsb]

theorem concatLoop_end (hs : m.get i = some s) (hn : s.next = none) :
    concatLoop this bf (fuel + 1) m i = some (m.set i { s with next := bf }) := by
  simp [concatLoop, hs, hn]

theorem concatLoop_next (hs : m.get i = some s) (hn : s.next = some j)
    (ha : s.avairableTop ≠ none) :
    concatLoop this bf (fuel + 1) m i = concatLoop this bf fuel m j := by
  simp [concatLoop, hs, hn, ha, nextOf_eq hs]

theorem concatLoop_take (hs : m.get i = some s) (hn : s.next ≠ none) (ha : s.avairableTop = none)
    (h : concatLoop this bf fuel m i = some m') :
    ∃ n b m₁ k, fuel = n + 1 ∧ bf = some b ∧ m.takeOver this i (some b) = some m₁ ∧
      m.nextOf b = some k ∧ concatLoop this bf n m₁ k = some m' := by
  cases fuel with
  | zero => cases h
  | succ n =>
    simp only [concatLoop, hs, ha, Option.isNone_iff_eq_none, hn, Option.bind_eq_bind,
      Option.bind_some, if_true, if_false] at h
    obtain ⟨m₁, hm₁, h⟩ := Option.bind_eq_some_iff.mp h
    obtain ⟨k, hk, h⟩ := Option.bind_eq_some_iff.mp h
    cases bf with
    | none => cases hm₁
    | some b =>
      rw [takeOver_next hm₁, if_pos rfl] at hk
      exact ⟨n, b, m₁, k, rfl, rfl, hm₁, hk, h⟩

/-- Where the last segment is made to lead to `bf`, and `bf` leads to it, there is no end. -/
theorem endless_of_end {b : Nat} (hs : m.get i = some s) (hb : Leads m.nextOf i b)
    (ht : Leads m.nextOf i this) : ¬ Chain (m.set i { s with next := some b }) (some this) l := by
  have hframe : ∀ k, k ≠ i → (m.set i { s with next := some b }).nextOf k = m.nextOf k :=
    fun k hk => (nextOf_set hs _ k).trans (if_neg hk)
  exact fun hc => (ht.frame hframe).endless ((nextOf_set hs _ i).trans (if_pos rfl))
    (hb.frame hframe) hc.linked

/-- Once the rest of `bf` has been put after a segment without an array, there is no way out. -/
theorem concatLoop_caught {b k : Nat} (hb : m.nextOf b = some k) (hk : Leads m.nextOf i k)
    (ht : Leads m.nextOf i this) (hloop : concatLoop this (some b) fuel m i = some m') :
    ¬ Chain m' (some this) l := by
  induction fuel generalizing m i with
  | zero => cases hloop
  | succ fuel ih =>
    cases hs : m.get i with
    | none => simp [concatLoop, hs] at hloop
    | some s =>
      cases hn : s.next with
      | none =>
        rw [concatLoop_end hs hn] at hloop
        cases hloop
        have hbi : b ≠ i := by
          rintro rfl
          rw [nextOf_eq hs, hn] at hb
          cases hb
        exact endless_of_end hs (.step hbi hb hk) ht
      | some j =>
        by_cases ha : s.avairableTop = none
        · obtain ⟨n, b', m₁, k', hf, hb', hm₁, hk', hloop⟩ :=
            concatLoop_take hs (by rw [hn]; nofun) ha hloop
          cases hb'
          obtain rfl : fuel = n := Nat.succ.inj hf
          obtain rfl : k = k' := Option.some.inj (hb.symm.trans hk')
          have hnext := takeOver_next hm₁
          refine ih (m := m₁) ?_ .here ?_ hloop
          · rw [hnext, hb, ite_self]
          · refine (ht.frame fun k hk => ?_).onward (t := i) ?_
            · rw [hnext, if_neg hk]
            · rw [hnext, if_pos rfl, hb]
        · rw [concatLoop_next hs hn ha] at hloop
          have hj : m.nextOf i = some j := (nextOf_eq hs).trans hn
          exact ih hb (hk.onward hj) (ht.onward hj) hloop

/-- There is a segment without an array before the last one. -/
def Gap (l : List Piece) : Prop := ∃ q ∈ l.dropLast, q.seg.avairableTop = none

theorem concatLoop_gap (h : Chain m (some i) l) (hg : Gap l) (ht : Leads m.nextOf i this)
    (hloop : concatLoop this bf fuel m i = some m') : ¬ Chain m' (some this) lb := by
  induction l generalizing i fuel with
  | nil => cases h
  | cons q l ih =>
    obtain ⟨hi, hq, hl⟩ := h.tail
    obtain rfl : i = q.place := Option.some.inj hi
    cases l with
    | nil =>
      obtain ⟨r, hr, -⟩ := hg
      exact absurd hr List.not_mem_nil
    | cons r l =>
      obtain ⟨hn, -, -⟩ := hl.tail
      by_cases ha : q.seg.avairableTop = none
      · obtain ⟨n, b, m₁, k, rfl, rfl, hm₁, hk, hloop⟩ :=
          concatLoop_take hq.get (by rw [hn]; nofun) ha hloop
        have hnext := takeOver_next hm₁
        refine concatLoop_caught (m := m₁) (k := k) ?_ .here ?_ hloop
        · rw [hnext, hk, ite_self]
        · refine (ht.frame fun k hk => ?_).onward (t := q.place) ?_
          · rw [hnext, if_neg hk]
          · rw [hnext, if_pos rfl, hk]
      · cases fuel with
        | zero => cases hloop
        | succ fuel =>
          have hg' : Gap (r :: l) := by
            obtain ⟨u, hu, hua⟩ := hg
            rw [List.dropLast_cons_of_ne_nil (List.cons_ne_nil r l)] at hu
            rcases List.mem_cons.mp hu with rfl | hu
            · exact absurd hua ha
            · exact ⟨u, hu, hua⟩
          rw [concatLoop_next hq.get hn ha] at hloop
          exact ih (hn ▸ hl) hg' (ht.onward ((nextOf_eq hq.get).trans hn)) hloop

/-- Where there is no gap the last segment is made to lead to `bf`. -/
theorem concatLoop_eq (h : Chain m (some i) (l ++ [q])) (hg : ¬ Gap (l ++ [q])) (fuel : Nat) :
    concatLoop this bf fuel m i =
      if l.length < fuel then some (m.set q.place { q.seg with next := bf }) else none := by
  induction l generalizing i fuel with
  | nil =>
    obtain ⟨hi, hq, hl⟩ := h.tail
    cases fuel with
    | zero => rfl
    | succ fuel =>
      have hn : q.seg.next = none := by
        generalize q.seg.next = p at hl
        cases hl
        rfl
      rw [Option.some.inj hi, concatLoop_end hq.get hn]
      rfl
  | cons r l ih =>
    obtain ⟨hi, hr, hl⟩ := h.tail
    cases fuel with
    | zero => rfl
    | succ fuel =>
      rw [List.cons_append, Gap, List.dropLast_cons_of_ne_nil (by simp)] at hg
      have ha : r.seg.avairableTop ≠ none := fun ha => hg ⟨r, List.mem_cons_self, ha⟩
      obtain ⟨j, hj⟩ := hl.exists_next (by simp)
      have hg' : ¬ Gap (l ++ [q]) := fun ⟨u, hu, hua⟩ =>
        hg ⟨u, List.mem_cons_of_mem r hu, hua⟩
      rw [Option.some.inj hi, concatLoop_next hr.get hj ha, ih (hj ▸ hl) hg' fuel]
      simp only [List.length_cons, Nat.succ_lt_succ_iff]

theorem Chain.append (h : Chain m (some i) (l ++ [q])) (hb : Chain m bf lb)
    (hne : ∀ r ∈ lb, r.place ≠ q.place) :
    Chain (m.set q.place { q.seg with next := bf }) (some i)
      (l ++ ⟨q.place, { q.seg with next := bf }, q.data⟩ :: lb) := by
  induction l generalizing i with
  | nil =>
    obtain ⟨hi, hq, -⟩ := h.tail
    rw [hi]
    exact .cons (q := ⟨q.place, { q.seg with next := bf }, q.data⟩)
      ⟨get_set_self hq.get, hq.data⟩ (hb.set hne)
  | cons r l ih =>
    obtain ⟨hi, hr, hl⟩ := h.tail
    have hrq : r.place ≠ q.place := (h.notMem q (by simp)).symm
    rw [hi]
    obtain ⟨j, hj⟩ := hl.exists_next (by simp)
    exact .cons (hr.set hrq) (hj ▸ ih (hj ▸ hl))

/-- `concat` puts the two contents together if and only if no segment before the last one is
without an array, and the last one is not also a segment of the other chain. -/
theorem concat_iff (h : Chain m (some i) (l ++ [q])) (hb : Chain m bf lb) :
    (∃ fuel m', m.concat fuel i bf = some m' ∧
        Contains m' (some i) (flat (l ++ [q]) ++ flat lb)) ↔
      ¬ Gap (l ++ [q]) ∧ ∀ r ∈ lb, r.place ≠ q.place := by
  constructor
  · rintro ⟨fuel, m', hloop, l', hl', -⟩
    have hg : ¬ Gap (l ++ [q]) := fun hg => concatLoop_gap h hg .here hloop hl'
    refine ⟨hg, fun r hr he => ?_⟩
    have hq : Piece.Lies m q := h.lies q (by simp)
    have hlead : Leads m.nextOf q.place i := h.linked.leads (by simp)
    cases bf with
    | none =>
      cases hb
      cases hr
    | some b =>
      have hlb : Leads m.nextOf q.place b := hb.linked.leads (List.mem_map.mpr ⟨r, hr, he⟩)
      rw [concat, concatLoop_eq h hg fuel] at hloop
      split at hloop
      · cases hloop
        exact endless_of_end hq.get hlb hlead hl'
      · cases hloop
  · rintro ⟨hg, hne⟩
    refine ⟨l.length + 1, _, ?_, _, h.append hb hne, by simp⟩
    rw [concat, concatLoop_eq h hg, if_pos (Nat.lt_succ_self _)]

end BufferHeap

end TinyState
