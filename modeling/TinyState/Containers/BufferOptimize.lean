import TinyState.Containers.BufferRecut

/-!
# Filling a segment up

`optimize` gives the first segment an array of its own, moves the data to its beginning and
fills it up with what comes next. The cursor of `copyout` goes on to a segment with the
`dataHead` of the one before, and it needs a segment without an array to stop at.
-/

namespace TinyState

namespace BufferHeap

/-- `optimize` moves the data to the beginning of the array. -/
def moveDown (m : BufferHeap) (this : Nat) : Option BufferHeap := do
  let s ← m.get this
  if s.dataHead ≠ 0 then do
    let m ← m.store s.avairableTop 0 (← m.load s.avairableTop s.dataHead s.dataSize)
    some (m.set this { s with dataHead := 0 })
  else some m

/-- `optimize` fills the array up with the data of the next segments. -/
def fillUp (m : BufferHeap) (this : Nat) : Option BufferHeap := do
  let s ← m.get this
  match s.next with
  | none => some m
  | some n => do
    let (_, out) ← m.copyout n 0 (s.avairableSize - s.dataSize)
    let m ← m.store s.avairableTop s.dataSize out
    let m := m.set this { s with dataSize := s.dataSize + out.length }
    let (_, _, next, m) ← m.shift n true out.length
    some (m.set this { ← m.get this with next := next })

/-- `optimize`. -/
def optimize (m : BufferHeap) (refs : Nat → Nat) (this arraySize : Nat) : Option BufferHeap := do
  let m ← m.refresh refs this arraySize
  let m ← m.moveDown this
  m.fillUp this

variable {m m' : BufferHeap} {refs : Nat → Nat} {p bf : Option Nat} {i arraySize fuel : Nat}
  {q : Piece} {l lb : List Piece} {x y : List UInt8} {s : StdBuffer}

-- ---------------------------------------------------------------------------
-- Filling up from the next segments
-- ---------------------------------------------------------------------------

/-- The segments before the first one without an array. -/
def front (l : List Piece) : List Piece := l.takeWhile fun q => q.seg.avairableTop.isSome

theorem front_cons (hq : q.seg.avairableTop ≠ none) : front (q :: l) = q :: front l := by
  rw [front, List.takeWhile_cons, if_pos (Option.isSome_iff_ne_none.mpr hq)]
  rfl

theorem front_stop (hq : q.seg.avairableTop = none) : front (q :: l) = [] := by
  simp [front, hq]

theorem front_begins (l : List Piece) : flat (front l) <+: flat l := by
  obtain ⟨rest, hrest⟩ := List.takeWhile_prefix (fun q : Piece => q.seg.avairableTop.isSome)
    (l := l)
  exact ⟨flat rest, by rw [← flat_append]; exact congrArg flat hrest⟩

/-- What a `shift` leaves: the bytes after those that are cut off, which are never more than
there are before the first segment without an array. -/
structure Shifted (m m' : BufferHeap) (prev rest : Option Nat) (l : List Piece) (len : Nat) :
    Prop where
  rest : ∃ l', Chain m' rest l' ∧ flat l' = (flat l).drop (min len (flat (front l)).length) ∧
    ∀ r ∈ l', ∃ q ∈ l, q.place = r.place
  arrays : m'.arrays = m.arrays
  others : ∀ i, i < m.buffers.length → prev ≠ some i → (∀ q ∈ l, q.place ≠ i) →
    m'.get i = m.get i

/-- The link that is written last does not lead into the rest. -/
theorem Shifted.stay {prev : Option Nat} (head : Option Nat) (len : Nat) (h : Chain m p l)
    (hprev : ∀ r ∈ prev, ∃ s, m.get r = some s) (hne : ∀ r ∈ prev, ∀ q ∈ l, q.place ≠ r)
    (hlen : len = 0 ∨ front l = []) :
    ∃ head' m', m.point prev head none = some (head', m') ∧ Shifted m m' prev p l len := by
  obtain ⟨head', m', hpt, ha, -, hother, -⟩ := point_eq head hprev none
  refine ⟨head', m', hpt, ⟨l, ?_, ?_, fun r hr => ⟨r, hr, rfl⟩⟩, ha, fun i _ hi _ => hother i hi⟩
  · exact h.frame fun r hr => (h.lies r hr).arrays
      (hother _ fun he => hne _ he r hr rfl) fun k ary _ hk => ha ▸ hk
  · rcases hlen with rfl | hf
    · rw [Nat.zero_min, List.drop_zero]
    · rw [hf, flat_nil, List.length_nil, Nat.min_zero, List.drop_zero]

/-- A segment that has more bytes than are to be cut off is cut in two. -/
theorem shift_cut {prev : Option Nat} (head : Option Nat) (fuel : Nat) {len : Nat}
    (h : Chain m (some i) (q :: l)) (hs : Sound m q.seg)
    (hprev : ∀ r ∈ prev, ∃ s, m.get r = some s) (hne : ∀ r ∈ prev, ∀ q' ∈ q :: l, q'.place ≠ r)
    (htop : q.seg.avairableTop ≠ none) (h0 : len ≠ 0) (hlt : len < q.seg.dataSize) :
    ∃ head' m', shiftLoop true (fuel + 1) m prev head (some i) len =
        some (.ok, head', some i, m') ∧ Shifted m m' prev (some i) (q :: l) len := by
  obtain ⟨hi, hq, hl⟩ := h.tail
  obtain rfl : i = q.place := Option.some.inj hi
  obtain ⟨n, hn⟩ : ∃ n : StdBuffer, n = ⟨none, q.seg.container, q.seg.writable,
    q.seg.avairableTop, q.seg.avairableSize, q.seg.dataHead, len⟩ := ⟨_, rfl⟩
  have hinit : StdBuffer.terminator.initial q.seg.container q.seg.writable q.seg.avairableTop
      q.seg.avairableSize q.seg.dataHead len = some n := by
    obtain ⟨k, hk⟩ := Option.ne_none_iff_exists'.mp htop
    simp only [Sound, hk, StdBuffer.fin] at hs
    rw [StdBuffer.initial, if_neg (by omega), hn]
    rfl
  have hprev' : ∀ r ∈ prev, ∃ s, (m.newBuffer n).2.get r = some s := fun r hr => by
    obtain ⟨s, hs⟩ := hprev r hr
    exact ⟨s, getElem?_append_some hs⟩
  obtain ⟨head', m', hpt, ha, -, hother, -⟩ := point_eq head hprev' (some m.buffers.length)
  obtain ⟨cut, hcut⟩ : ∃ cut : StdBuffer, cut = { q.seg with
    dataSize := q.seg.dataSize - len, dataHead := q.seg.dataHead + len } := ⟨_, rfl⟩
  have hkeep : ∀ r ∈ q :: l, m'.get r.place = m.get r.place := fun r hr => by
    rw [hother _ fun he => hne _ he r hr rfl, (h.lies r hr).get]
    exact getElem?_append_some (h.lies r hr).get
  refine ⟨head', m'.set q.place cut, ?_, ⟨⟨q.place, cut, q.data.drop len⟩ :: l, ?_, ?_, ?_⟩, ha, ?_⟩
  · have hnle : ¬ q.seg.dataSize ≤ len := Nat.not_le.mpr hlt
    simp only [shiftLoop, h0, hq.get, htop, hnle, hinit, Option.bind_eq_bind, Option.bind_some,
      if_true, if_false, Option.isNone_iff_eq_none]
    rw [show (m.newBuffer n).1 = m.buffers.length from rfl, hpt, hcut]
    rfl
  · have hget : m'.get q.place = some q.seg := (hkeep q List.mem_cons_self).trans hq.get
    have hload : m.load cut.avairableTop cut.dataHead cut.dataSize = some (q.data.drop len) := by
      rw [hcut]
      exact load_drop hq.data (Nat.le_of_lt hlt)
    have hnext : cut.next = q.seg.next := by rw [hcut]
    refine .cons (q := ⟨q.place, cut, q.data.drop len⟩) ⟨get_set_self hget, ?_⟩ ?_
    · exact load_of_arrays hload fun k ary _ hk => (congrArg (·[k]?) ha).trans hk
    · rw [hnext]
      refine hl.frame fun r hr => ?_
      have hr' : r.Lies m' := (hl.lies r hr).arrays (hkeep r (List.mem_cons_of_mem q hr))
        fun k ary _ hk => (congrArg (·[k]?) ha).trans hk
      exact hr'.set (h.notMem r hr)
  · have hsize := hq.length
    rw [front_cons htop, flat_cons, flat_cons, flat_cons, List.length_append,
      Nat.min_eq_left (by omega), List.drop_append_of_le_length (by omega)]
  · intro r hr
    rcases List.mem_cons.mp hr with rfl | hr
    · exact ⟨q, List.mem_cons_self, rfl⟩
    · exact ⟨r, List.mem_cons_of_mem q hr, rfl⟩
  · intro j hj hp hno
    rw [get_set_ne (hno q List.mem_cons_self), hother j hp]
    exact List.getElem?_append_left hj

theorem shiftLoop_spec {prev : Option Nat} (head : Option Nat) (len : Nat) (h : Chain m p l)
    (hs : ∀ q ∈ l, Sound m q.seg) (hprev : ∀ r ∈ prev, ∃ s, m.get r = some s ∧ s.next = p)
    (hne : ∀ r ∈ prev, ∀ q ∈ l, q.place ≠ r) (hf : l.length < fuel) :
    (∃ erp head' rest m', shiftLoop true fuel m prev head p len = some (erp, head', rest, m') ∧
        Shifted m m' prev rest l len) ∨
      (shiftLoop true fuel m prev head p len = none ∧ (flat (front l)).length < len) := by
  have hprev' : ∀ r ∈ prev, ∃ s, m.get r = some s := fun r hr => by
    obtain ⟨s, hs, -⟩ := hprev r hr
    exact ⟨s, hs⟩
  induction l generalizing p prev head len fuel with
  | nil =>
    obtain ⟨fuel, rfl⟩ : ∃ k, fuel = k + 1 := Nat.exists_eq_add_one_of_ne_zero (by omega)
    by_cases h0 : len = 0
    · obtain ⟨head', m', hpt, hst⟩ := Shifted.stay head len h hprev' hne (.inl h0)
      exact .inl ⟨.ok, head', p, m', by simp [shiftLoop, h0, hpt], hst⟩
    · cases h
      exact .inr ⟨by simp [shiftLoop, h0], Nat.pos_of_ne_zero h0⟩
  | cons q l ih =>
    obtain ⟨rfl, hq, hl⟩ := h.tail
    obtain ⟨hsq, hsl⟩ := List.forall_mem_cons.mp hs
    obtain ⟨fuel, rfl⟩ : ∃ k, fuel = k + 1 := Nat.exists_eq_add_one_of_ne_zero (by omega)
    have hsize := hq.length
    by_cases h0 : len = 0
    · obtain ⟨head', m', hpt, hst⟩ := Shifted.stay head len h hprev' hne (.inl h0)
      exact .inl ⟨.ok, head', some q.place, m', by simp [shiftLoop, h0, hpt], hst⟩
    by_cases htop : q.seg.avairableTop = none
    · obtain ⟨head', m', hpt, hst⟩ := Shifted.stay head len h hprev' hne
        (.inr (front_stop htop))
      exact .inl ⟨.remain, head', some q.place, m',
        by simp [shiftLoop, h0, hq.get, htop, hpt], hst⟩
    have hfront : (flat (front (q :: l))).length = q.data.length + (flat (front l)).length := by
      rw [front_cons htop, flat_cons, List.length_append]
    by_cases hle : q.seg.dataSize ≤ len
    · -- the whole segment is cut off
      obtain ⟨head₁, hpt⟩ : ∃ head₁, m.point prev head (some q.place) = some (head₁, m) := by
        cases prev with
        | none => exact ⟨some q.place, rfl⟩
        | some r =>
          obtain ⟨s, hs, hn⟩ := hprev r rfl
          refine ⟨head, ?_⟩
          have hself : { s with next := some q.place } = s := by rw [← hn]
          simp only [point, hs, Option.bind_eq_bind, Option.bind_some, hself, set_self hs]
      have hround : shiftLoop true (fuel + 1) m prev head (some q.place) len =
          shiftLoop true fuel m (some q.place) head₁ q.seg.next (len - q.seg.dataSize) := by
        simp [shiftLoop, h0, hq.get, htop, hle, hpt]
      have hcut : min (len - q.seg.dataSize) (flat (front l)).length + q.data.length =
          min len (flat (front (q :: l))).length := by omega
      rw [hround]
      rcases ih head₁ (len - q.seg.dataSize) hl hsl
          (fun r (hr : some q.place = some r) => by cases hr; exact ⟨q.seg, hq.get, rfl⟩)
          (fun r hr q' hq' => by cases hr; exact h.notMem q' hq') (Nat.lt_of_succ_lt_succ hf)
          (fun r hr => by cases hr; exact ⟨q.seg, hq.get⟩) with
        ⟨erp, head', rest, m', hloop, ⟨l', hl', hflat, hplace⟩, ha, hother⟩ | ⟨hloop, hlt⟩
      · refine .inl ⟨erp, head', rest, m', hloop, ⟨l', hl', ?_, fun r hr => ?_⟩, ha,
          fun i hi _ hni => ?_⟩
        · rw [hflat, ← hcut, flat_cons, Nat.add_comm, List.drop_append]
          simp
        · obtain ⟨u, hu, hur⟩ := hplace r hr
          exact ⟨u, List.mem_cons_of_mem q hu, hur⟩
        · exact hother i hi (fun he => hni q List.mem_cons_self (Option.some.inj he))
            fun r hr => hni r (List.mem_cons_of_mem q hr)
      · exact .inr ⟨hloop, by omega⟩
    · obtain ⟨head', m', hloop, hst⟩ := shift_cut head fuel h hsq hprev' hne htop h0
        (Nat.not_le.mp hle)
      exact .inl ⟨.ok, head', some q.place, m', hloop, hst⟩

theorem load_congr {top : Option Nat} {n : Nat}
    (ha : ∀ k, top = some k → m'.arrays[k]? = m.arrays[k]?) : m'.load top i n = m.load top i n := by
  cases top with
  | none => rfl
  | some k => simp only [load, Option.bind_eq_bind, Option.bind_some, ha k rfl]

/-- `copyout` looks at the chain and its arrays alone. -/
theorem copyoutLoop_frame {ptr len : Nat} {out : List UInt8} (h : Chain m p l)
    (hg : ∀ q ∈ l, m'.get q.place = m.get q.place)
    (ha : ∀ q ∈ l, ∀ k, q.seg.avairableTop = some k → m'.arrays[k]? = m.arrays[k]?) :
    m'.copyoutLoop fuel p ptr len out = m.copyoutLoop fuel p ptr len out := by
  induction fuel generalizing p l ptr len out with
  | zero => rfl
  | succ fuel ih =>
    cases h with
    | nil => rfl
    | @cons q l hq hl =>
      have hget : m'.get q.place = some q.seg := (hg q List.mem_cons_self).trans hq.get
      have htail : ∀ ptr len out, m'.copyoutLoop fuel q.seg.next ptr len out =
          m.copyoutLoop fuel q.seg.next ptr len out := fun _ _ _ =>
        ih hl (fun r hr => hg r (List.mem_cons_of_mem q hr))
          fun r hr => ha r (List.mem_cons_of_mem q hr)
      have hself : ∀ ptr len out, m'.copyoutLoop fuel (some q.place) ptr len out =
          m.copyoutLoop fuel (some q.place) ptr len out := fun _ _ _ => ih (.cons hq hl) hg ha
      have hload : ∀ i n, m'.load q.seg.avairableTop i n = m.load q.seg.avairableTop i n :=
        fun _ _ => load_congr (ha q List.mem_cons_self)
      simp only [copyoutLoop, hq.get, hget, Option.bind_eq_bind, Option.bind_some, hload, htail,
        hself]

theorem copyoutLoop_length {ptr len : Nat} {out x : List UInt8} {erp : BufferError}
    (h : m.copyoutLoop fuel p ptr len out = some (erp, x)) : x.length ≤ out.length + len := by
  induction fuel generalizing p ptr len out with
  | zero => cases h
  | succ fuel ih =>
    rw [copyoutLoop] at h
    split at h
    · cases h
      exact Nat.le_add_right _ _
    · obtain ⟨i, hi, h⟩ := Option.bind_eq_some_iff.mp h
      obtain ⟨s, hs, h⟩ := Option.bind_eq_some_iff.mp h
      split at h
      · cases h
        exact Nat.le_add_right _ _
      · split at h
        · exact ih h
        · obtain ⟨bytes, hb, h⟩ := Option.bind_eq_some_iff.mp h
          have hlen := load_length hb
          have hrec := ih h
          rw [List.length_append] at hrec
          omega

/-- The segment has an array of its own, to which no further segment of the chain refers. -/
structure Owned (m : BufferHeap) (q : Piece) (l : List Piece) (k : Nat) : Prop where
  chain : Chain m (some q.place) (q :: l)
  top : q.seg.avairableTop = some k
  array : ∃ ary, m.arrays[k]? = some ary ∧ q.seg.fin ≤ q.seg.avairableSize ∧
    q.seg.avairableSize ≤ ary.length
  alone : ∀ r ∈ l, r.seg.avairableTop ≠ some k
  sound : ∀ r ∈ l, Sound m r.seg

/-- The array `k` alone is another one. -/
structure Rewritten (m m' : BufferHeap) (k : Nat) (x : List UInt8) : Prop where
  buffers : m'.buffers = m.buffers
  others : ∀ k', k' ≠ k → m'.arrays[k']? = m.arrays[k']?
  array : ∀ ary, m.arrays[k]? = some ary → ∃ ary', m'.arrays[k]? = some ary' ∧
    ary'.length = ary.length
  data : m'.load (some k) 0 x.length = some x

/-- Bytes that are stored after those that the array begins with. -/
theorem store_rewritten {k n : Nat} {ary : List UInt8} (hk : m.arrays[k]? = some ary)
    (hx : m.load (some k) 0 n = some x) (hle : n + y.length ≤ ary.length) :
    ∃ m', m.store (some k) n y = some m' ∧ Rewritten m m' k (x ++ y) := by
  have hxn := load_length hx
  by_cases h0 : y = []
  · subst h0
    refine ⟨m, if_pos rfl, rfl, fun _ _ => rfl, fun ary h => ⟨ary, h, rfl⟩, ?_⟩
    rw [List.append_nil, hxn]
    exact hx
  · obtain ⟨ary', hlen, hst, hload⟩ := store_load (h := 0) hk h0 (Nat.zero_le n) hle
      (by rwa [Nat.sub_zero])
    refine ⟨_, hst, rfl, fun k' hne => List.getElem?_set_ne hne.symm, fun a ha => ?_, ?_⟩
    · rw [hk] at ha
      cases ha
      exact ⟨ary', List.getElem?_set_self (List.getElem?_eq_some_iff.mp hk).1, hlen⟩
    · rwa [Nat.sub_zero, ← hxn, ← List.length_append] at hload

/-- The further segments are not concerned. -/
theorem Owned.rest {k : Nat} (h : Owned m q l k) (hr : Rewritten m m' k x) (u : StdBuffer) :
    Chain (m'.set q.place u) q.seg.next l ∧ ∀ r ∈ l, Sound (m'.set q.place u) r.seg := by
  obtain ⟨-, hq, hl⟩ := h.chain.tail
  have hkeep : ∀ r ∈ l, ∀ (k' : Nat) (ary : List UInt8), r.seg.avairableTop = some k' →
      m.arrays[k']? = some ary → m'.arrays[k']? = some ary := fun r hm k' ary hk' hary => by
    rw [hr.others k' fun he => h.alone r hm (he ▸ hk')]
    exact hary
  refine ⟨hl.frame fun r hm => ?_, fun r hm => ?_⟩
  · have hget : m'.get r.place = m.get r.place := congrArg (·[r.place]?) hr.buffers
    exact ((hl.lies r hm).arrays hget (hkeep r hm)).set (h.chain.notMem r hm)
  · have hsr := h.sound r hm
    unfold Sound at hsr ⊢
    cases htop : r.seg.avairableTop with
    | none => simpa only [htop] using hsr
    | some k' =>
      simp only [htop] at hsr ⊢
      obtain ⟨hfin, ary, hary, hle⟩ := hsr
      exact ⟨hfin, ary, hkeep r hm k' ary htop hary, hle⟩

/-- What is read ahead for the room in the first segment is what comes next, up to the first
segment without an array. -/
def ReadsOn (m : BufferHeap) (next : Option Nat) (room : Nat) (l : List Piece) : Prop :=
  ∀ n ∈ next, ∃ erp out, m.copyout n 0 room = some (erp, out) ∧ out <+: flat (front l)

/-- Bytes that are read ahead are what comes next if they and what is left give the contents. -/
theorem prefix_front {out : List UInt8}
    (h : out ++ (flat l).drop (min out.length (flat (front l)).length) = flat l) :
    out <+: flat (front l) := by
  have hle := (front_begins l).length_le
  have hlen := congrArg List.length h
  rw [List.length_append, List.length_drop] at hlen
  exact List.prefix_of_prefix_length_le ⟨_, h⟩ (front_begins l) (by omega)

theorem append_drop_front {out : List UInt8} (h : out <+: flat (front l)) :
    out ++ (flat l).drop (min out.length (flat (front l)).length) = flat l := by
  have hl := h.trans (front_begins l)
  obtain ⟨rest, hrest⟩ := hl
  rw [Nat.min_eq_left h.length_le, ← hrest, List.drop_left]

theorem fillUp_end (hq : q.Lies m) (hn : q.seg.next = none) : m.fillUp q.place = some m := by
  simp [fillUp, hq.get, hn]

theorem fillUp_stuck {n : Nat} (hq : q.Lies m) (hn : q.seg.next = some n)
    (hout : m.copyout n 0 (q.seg.avairableSize - q.seg.dataSize) = none) :
    m.fillUp q.place = none := by
  simp [fillUp, hq.get, hn, hout]

/-- What `fillUp` does with the bytes that it has read. -/
theorem fillUp_read {k n : Nat} {erp : BufferError} {out : List UInt8} (h : Owned m q l k)
    (h0 : q.seg.dataHead = 0) (hn : q.seg.next = some n)
    (hout : m.copyout n 0 (q.seg.avairableSize - q.seg.dataSize) = some (erp, out)) :
    (∃ m', m.fillUp q.place = some m' ∧ Contains m' (some q.place)
        (q.data ++ (out ++ (flat l).drop (min out.length (flat (front l)).length)))) ∨
      (m.fillUp q.place = none ∧ (flat (front l)).length < out.length) := by
  obtain ⟨-, hq, hl⟩ := h.chain.tail
  obtain ⟨ary, hary, hfin, hle⟩ := h.array
  have hsize := hq.length
  have hlen : out.length ≤ q.seg.avairableSize - q.seg.dataSize := by
    obtain ⟨s, -, hloop⟩ := Option.bind_eq_some_iff.mp hout
    exact Nat.le_trans (copyoutLoop_length hloop) (Nat.le_of_eq (Nat.zero_add _))
  simp only [StdBuffer.fin, h0, Nat.zero_add] at hfin
  have hdata : m.load (some k) 0 q.seg.dataSize = some q.data := by
    have hd := hq.data
    rwa [h.top, h0] at hd
  obtain ⟨m₁, hst, hr⟩ := store_rewritten (y := out) hary hdata (by omega)
  obtain ⟨u, hu⟩ : ∃ u, u = { q.seg with dataSize := q.seg.dataSize + out.length } := ⟨_, rfl⟩
  obtain ⟨hrest, hsound⟩ := h.rest hr u
  have hget : m₁.get q.place = some q.seg := (congrArg (·[q.place]?) hr.buffers).trans hq.get
  have hnot : ∀ r ∈ l, r.place ≠ q.place := h.chain.notMem
  rw [hn] at hrest
  have hfill : m.fillUp q.place = ((m₁.set q.place u).shift n true out.length).bind fun r =>
      (r.2.2.2.get q.place).bind fun s =>
        some (r.2.2.2.set q.place { s with next := r.2.2.1 }) := by
    simp only [fillUp, hq.get, hn, hout, h.top, hst, hu, Option.bind_eq_bind, Option.bind_some]
  rcases shiftLoop_spec none out.length hrest hsound
      (fun r (hr : none = some r) => nomatch hr) (fun r (hr : none = some r) => nomatch hr)
      (Nat.lt_succ_of_le (Nat.le_succ_of_le hrest.length_le)) with
    ⟨erp, head', rest, m', hshift, ⟨l', hl', hflat, hplace⟩, ha, hother⟩ | ⟨hshift, hlt⟩
  · have hself : m'.get q.place = some u := by
      rw [hother _ ?_ nofun hnot]
      · exact get_set_self hget
      · rw [BufferHeap.set, List.length_set]
        exact (List.getElem?_eq_some_iff.mp hget).1
    refine .inl ⟨m'.set q.place { u with next := rest }, ?_,
      ⟨q.place, { u with next := rest }, q.data ++ out⟩ :: l', ?_, ?_⟩
    · rw [hfill, show (m₁.set q.place u).shift n true out.length = _ from hshift, Option.bind_some]
      simp only [hself, Option.bind_some]
    · refine .cons (q := ⟨q.place, { u with next := rest }, q.data ++ out⟩)
        ⟨get_set_self hself, ?_⟩ (hl'.set fun r hr => ?_)
      · have hload : m₁.load u.avairableTop u.dataHead u.dataSize = some (q.data ++ out) := by
          have hd := hr.data
          rw [List.length_append, hsize] at hd
          rw [hu]
          simpa only [h.top, h0] using hd
        exact load_of_arrays hload fun k ary _ hk => (congrArg (·[k]?) ha).trans hk
      · obtain ⟨r', hr', he⟩ := hplace r hr
        exact he ▸ hnot r' hr'
    · rw [flat_cons, hflat, List.append_assoc]
  · refine .inr ⟨?_, hlt⟩
    rw [hfill, show (m₁.set q.place u).shift n true out.length = none from hshift,
      Option.bind_none]

theorem fillUp_iff {k : Nat} (h : Owned m q l k) (h0 : q.seg.dataHead = 0) :
    (∃ m', m.fillUp q.place = some m' ∧ Contains m' (some q.place) (flat (q :: l))) ↔
      ReadsOn m q.seg.next (q.seg.avairableSize - q.seg.dataSize) l := by
  obtain ⟨-, hq, hl⟩ := h.chain.tail
  cases hn : q.seg.next with
  | none => exact iff_of_true ⟨m, fillUp_end hq hn, _, h.chain, rfl⟩ nofun
  | some n =>
    cases hout : m.copyout n 0 (q.seg.avairableSize - q.seg.dataSize) with
    | none =>
      refine iff_of_false ?_ ?_
      · rintro ⟨m', hm', -⟩
        rw [fillUp_stuck hq hn hout] at hm'
        cases hm'
      · intro hr
        obtain ⟨erp, out, ho, -⟩ := hr n rfl
        rw [hout] at ho
        cases ho
    | some r =>
      obtain ⟨erp, out⟩ := r
      have hiff : ReadsOn m (some n) (q.seg.avairableSize - q.seg.dataSize) l ↔
          out <+: flat (front l) := by
        constructor
        · intro hr
          obtain ⟨erp', out', ho, hp⟩ := hr n rfl
          rw [hout] at ho
          cases ho
          exact hp
        · rintro hp n' hn'
          cases hn'
          exact ⟨erp, out, hout, hp⟩
      rw [hiff]
      rcases fillUp_read h h0 hn hout with ⟨m', hm', hc⟩ | ⟨hm', hlt⟩
      · constructor
        · rintro ⟨m'', hm'', hc'⟩
          obtain rfl := Option.some.inj (hm'.symm.trans hm'')
          exact prefix_front (List.append_cancel_left (hc.unique hc'))
        · intro hp
          refine ⟨m', hm', ?_⟩
          rwa [append_drop_front hp] at hc
      · refine iff_of_false ?_ fun hp => Nat.not_lt.mpr hp.length_le hlt
        rintro ⟨m'', hm'', -⟩
        rw [hm'] at hm''
        cases hm''

theorem copyout_frame {n room : Nat} (h : Chain m (some n) l)
    (hlen : m'.buffers.length = m.buffers.length) (hg : ∀ q ∈ l, m'.get q.place = m.get q.place)
    (ha : ∀ q ∈ l, ∀ k, q.seg.avairableTop = some k → m'.arrays[k]? = m.arrays[k]?) :
    m'.copyout n 0 room = m.copyout n 0 room := by
  obtain ⟨q, l, rfl, rfl, -, -⟩ := h.head
  rw [copyout, copyout, hg q List.mem_cons_self, hlen]
  congr 1
  funext s
  exact copyoutLoop_frame h hg ha

/-- Moving the data keeps the content, and what is read ahead. -/
theorem moveDown_spec {k : Nat} (h : Owned m q l k) :
    ∃ m' q', m.moveDown q.place = some m' ∧ Owned m' q' l k ∧ q'.place = q.place ∧
      q'.data = q.data ∧ q'.seg = { q.seg with dataHead := 0 } ∧
      ∀ n room, q.seg.next = some n → m'.copyout n 0 room = m.copyout n 0 room := by
  obtain ⟨-, hq, hl⟩ := h.chain.tail
  obtain ⟨ary, hary, hfin, hle⟩ := h.array
  by_cases h0 : q.seg.dataHead = 0
  · refine ⟨m, q, ?_, h, rfl, rfl, ?_, fun _ _ _ => rfl⟩
    · simp [moveDown, hq.get, h0]
    · rw [← h0]
  · have hsize := hq.length
    simp only [StdBuffer.fin] at hfin
    obtain ⟨m₁, hst, hr⟩ := store_rewritten (y := q.data) hary load_zero (by omega)
    obtain ⟨u, hu⟩ : ∃ u, u = { q.seg with dataHead := 0 } := ⟨_, rfl⟩
    obtain ⟨hrest, hsound⟩ := h.rest hr u
    have hget : m₁.get q.place = some q.seg := (congrArg (·[q.place]?) hr.buffers).trans hq.get
    rw [List.nil_append] at hr
    have hload : m₁.load u.avairableTop u.dataHead u.dataSize = some q.data := by
      have hd := hr.data
      rw [hsize] at hd
      rw [hu]
      simpa only [h.top] using hd
    obtain ⟨ary', hary', hlen'⟩ := hr.array ary hary
    refine ⟨m₁.set q.place u, ⟨q.place, u, q.data⟩, ?_, ⟨?_, ?_, ⟨ary', hary', ?_, ?_⟩, h.alone,
      hsound⟩, rfl, rfl, hu, fun n room hn => ?_⟩
    · have hd := hq.data
      rw [h.top] at hd
      simp only [moveDown, hq.get, h0, h.top, hd, hst, hu, Option.bind_eq_bind, Option.bind_some,
        if_true, ne_eq, not_false_eq_true]
    · refine .cons (q := ⟨q.place, u, q.data⟩) ⟨get_set_self hget, hload⟩ ?_
      have hnext : u.next = q.seg.next := by rw [hu]
      exact hnext.symm ▸ hrest
    · rw [hu]
      exact h.top
    · simp only [hu, StdBuffer.fin]
      omega
    · simp only [hu]
      omega
    · rw [hn] at hl
      refine copyout_frame hl ?_ (fun r hm => ?_) fun r hm k' hk' =>
        hr.others k' fun he => h.alone r hm (he ▸ hk')
      · rw [BufferHeap.set, List.length_set, hr.buffers]
      · exact (get_set_ne (h.chain.notMem r hm).symm).trans (congrArg (·[r.place]?) hr.buffers)

/-- `getref` counts what holds an array: one that is held once is held by one segment. -/
structure Counted (refs : Nat → Nat) (l : List Piece) : Prop where
  held : ∀ q ∈ l, q.seg.container = q.seg.avairableTop
  counted : l.Pairwise fun q r => ∀ k, q.seg.avairableTop = some k → r.seg.avairableTop = some k →
    refs k ≠ 1

theorem owned_writable (h : Chain m (some q.place) (q :: l)) (hs : ∀ r ∈ q :: l, Sound m r.seg)
    (hc : Counted refs (q :: l)) (hw : q.seg.is_writable refs) : ∃ k, Owned m q l k := by
  simp only [StdBuffer.is_writable, Bool.and_eq_true, Option.any_eq_true, decide_eq_true_eq] at hw
  obtain ⟨-, k, hk, hone⟩ := hw
  have htop : q.seg.avairableTop = some k := (hc.held q List.mem_cons_self).symm.trans hk
  have hsq := hs q List.mem_cons_self
  simp only [Sound, htop] at hsq
  obtain ⟨hfin, ary, hary, hle⟩ := hsq
  exact ⟨k, h, htop, ⟨ary, hary, hfin, hle⟩, fun r hr hrk =>
    List.rel_of_pairwise_cons hc.counted hr k htop hrk hone,
    fun r hr => hs r (List.mem_cons_of_mem q hr)⟩

/-- An array that a segment refers to is there. -/
theorem Sound.lt {k : Nat} (h : Sound m s) (hk : s.avairableTop = some k) :
    k < m.arrays.length := by
  simp only [Sound, hk] at h
  obtain ⟨-, ary, hary, -⟩ := h
  exact (List.getElem?_eq_some_iff.mp hary).1

theorem owned_refreshed (h : Chain m (some q.place) (q :: l)) (hs : ∀ r ∈ q :: l, Sound m r.seg)
    (hsize : q.seg.dataSize < arraySize) :
    Owned (m.refreshed q arraySize) (q.renewed m arraySize) l m.arrays.length where
  chain := refreshed_chain h
  top := rfl
  array := by
    refine ⟨_, List.getElem?_concat_length, ?_, ?_⟩
    · simp only [Piece.renewed, renewed, StdBuffer.fin]
      omega
    · have hlen := h.tail.2.1.length
      simp only [Piece.renewed, renewed, List.length_append, List.length_replicate]
      omega
  alone := fun r hr hk => Nat.lt_irrefl _ ((hs r (List.mem_cons_of_mem q hr)).lt hk)
  sound := fun r hr =>
    ((hs r (List.mem_cons_of_mem q hr)).frame fun _ _ hk => getElem?_append_some hk).1

theorem refreshed_copyout {n room : Nat} (h : Chain m (some q.place) (q :: l))
    (hs : ∀ r ∈ q :: l, Sound m r.seg) (hn : q.seg.next = some n) :
    (m.refreshed q arraySize).copyout n 0 room = m.copyout n 0 room := by
  obtain ⟨-, -, hl⟩ := h.tail
  rw [hn] at hl
  refine copyout_frame hl List.length_set (fun r hr => ?_) fun r hr k hk => ?_
  · exact get_set_ne (m := m) (h.notMem r hr).symm
  · exact List.getElem?_append_left ((hs r (List.mem_cons_of_mem q hr)).lt hk)

/-- Once the first segment has an array of its own. -/
theorem moveDown_fillUp_iff {k : Nat} (h : Owned m q l k) :
    (∃ m', (m.moveDown q.place).bind (fun m => m.fillUp q.place) = some m' ∧
        Contains m' (some q.place) (flat (q :: l))) ↔
      ReadsOn m q.seg.next (q.seg.avairableSize - q.seg.dataSize) l := by
  obtain ⟨m₁, q', hmove, hown, hplace, hdata, hseg, hout⟩ := moveDown_spec h
  have hiff := fillUp_iff hown (by rw [hseg])
  rw [flat_cons, hdata, hplace, ← flat_cons, hseg] at hiff
  rw [hmove, Option.bind_some, hiff]
  exact forall₂_congr fun n hn => by rw [hout n _ hn]

/-- `optimize` keeps the content if and only if `refresh` does, and what it reads from the next
segments is what they hold. -/
theorem optimize_iff (h : Chain m (some i) (q :: l)) (hs : ∀ r ∈ q :: l, Sound m r.seg)
    (hc : Counted refs (q :: l)) (h0 : 0 < arraySize) :
    (∃ m', m.optimize refs i arraySize = some m' ∧ Contains m' (some i) (flat (q :: l))) ↔
      (q.seg.is_writable refs ∨ q.seg.dataSize < arraySize) ∧
        ReadsOn m q.seg.next
          ((if q.seg.is_writable refs then q.seg.avairableSize else arraySize) - q.seg.dataSize)
          l := by
  obtain ⟨hi, hq, -⟩ := h.tail
  obtain rfl : i = q.place := Option.some.inj hi
  by_cases hw : q.seg.is_writable refs
  · obtain ⟨k, hown⟩ := owned_writable h hs hc hw
    rw [optimize, refresh_writable arraySize hq.get hw, if_pos hw]
    simp only [hw, true_or, true_and]
    exact moveDown_fillUp_iff hown
  · rw [if_neg hw]
    by_cases hsize : q.seg.dataSize < arraySize
    · have hiff := moveDown_fillUp_iff (owned_refreshed h hs hsize)
      rw [optimize, refresh_eq hq hw hsize]
      simp only [hsize, or_true, true_and]
      refine hiff.trans (forall₂_congr fun n hn => ?_)
      rw [refreshed_copyout h hs hn]
      rfl
    · refine iff_of_false ?_ fun hok => (hok.1.resolve_left hw |> hsize)
      rintro ⟨m', hm', -⟩
      rw [optimize, refresh_refused hq hw h0 (Nat.not_lt.mp hsize)] at hm'
      cases hm'

/-- The cursor reads on where the segments that it comes to have one `dataHead`, up to the room
or to a segment without an array. -/
theorem copyoutLoop_front {d : Nat} (fuel j len : Nat) (out : List UInt8) (h : Chain m p l)
    (hd : ∀ r ∈ front l, r.seg.dataHead = d) (hj : ∀ r ∈ l.head?, j ≤ r.data.length)
    (hj0 : l = [] → j = 0)
    (hend : len + j ≤ (flat (front l)).length ∨ ∃ r ∈ l, r.seg.avairableTop = none)
    (hf : l.length + len < fuel) :
    ∃ erp, m.copyoutLoop fuel p (d + j) len out =
      some (erp, out ++ ((flat (front l)).drop j).take len) := by
  induction fuel generalizing p l j len out with
  | zero => exact absurd hf (Nat.not_lt_zero _)
  | succ fuel ih =>
    by_cases h0 : len = 0
    · exact ⟨.ok, by simp [copyoutLoop, h0]⟩
    cases h with
    | nil =>
      rcases hend with hle | ⟨r, hr, -⟩
      · simp only [front, List.takeWhile_nil, flat_nil, List.length_nil] at hle
        omega
      · cases hr
    | @cons q l hq hl =>
      have hjq : j ≤ q.data.length := hj q rfl
      have hsize := hq.length
      by_cases htop : q.seg.avairableTop = none
      · exact ⟨.remain, by simp [copyoutLoop, h0, hq.get, htop, front_stop htop]⟩
      have hfront : flat (front (q :: l)) = q.data ++ flat (front l) := by
        rw [front_cons htop, flat_cons]
      rw [front_cons htop] at hd
      have hhead : q.seg.dataHead = d := hd q List.mem_cons_self
      have hend' : len + j ≤ q.data.length + (flat (front l)).length ∨
          ∃ r ∈ l, r.seg.avairableTop = none := by
        refine hend.imp (fun hle => ?_) ?_
        · rwa [hfront, List.length_append] at hle
        · rintro ⟨r, hr, hrt⟩
          rcases List.mem_cons.mp hr with rfl | hr
          · exact absurd hrt htop
          · exact ⟨r, hr, hrt⟩
      by_cases hpast : q.seg.fin ≤ d + j
      · -- all of the segment is read
        have hje : j = q.data.length := by
          simp only [StdBuffer.fin] at hpast
          omega
        obtain ⟨erp, hloop⟩ := ih 0 len out hl
          (fun r hr => hd r (List.mem_cons_of_mem q hr)) (fun _ _ => Nat.zero_le _) (fun _ => rfl)
          (hend'.imp_left fun hle => by omega)
          (by rw [List.length_cons] at hf; omega)
        refine ⟨erp, ?_⟩
        rw [hfront, hje, List.drop_left]
        rw [List.drop_zero, Nat.add_zero] at hloop
        rw [← hje]
        simp [copyoutLoop, h0, hq.get, htop, hpast, hhead, hloop]
      · obtain ⟨n, hn⟩ : ∃ n, n = min len (q.seg.fin - (d + j)) := ⟨_, rfl⟩
        simp only [StdBuffer.fin] at hpast hn
        have hload := load_drop_take j n hq.data (by omega)
        rw [hhead] at hload
        obtain ⟨erp, hloop⟩ := ih (j + n) (len - n) (out ++ (q.data.drop j).take n) (.cons hq hl)
          (by rwa [front_cons htop]) (fun r hr => by cases hr; omega) (fun h => by cases h)
          (by
            refine hend.imp_left fun hle => ?_
            omega)
          (by omega)
        refine ⟨erp, ?_⟩
        have htake : ((flat (front (q :: l))).drop j).take len =
            (q.data.drop j).take n ++ ((flat (front (q :: l))).drop (j + n)).take (len - n) := by
          have hadd := List.take_add (l := (flat (front (q :: l))).drop j) (i := n) (j := len - n)
          rw [Nat.add_sub_cancel' (by omega), List.drop_drop] at hadd
          rw [hadd, hfront, List.drop_append_of_le_length hjq,
            List.take_append_of_le_length (by rw [List.length_drop]; omega)]
        have hnot : ¬ q.seg.fin ≤ d + j := by
          simp only [StdBuffer.fin]
          omega
        have hmin : min len (q.seg.fin - (d + j)) = n := hn.symm
        rw [htake, ← List.append_assoc, ← hloop, copyoutLoop, if_neg h0]
        simp only [hq.get, Option.isNone_iff_eq_none, htop, hnot, hmin, hload,
          Option.bind_eq_bind, Option.bind_some, if_false, Nat.add_assoc]

/-- Segments that have one `dataHead` are read on from one to the other. -/
theorem readsOn_of_heads {n d room : Nat} (h : Chain m (some n) l)
    (hd : ∀ r ∈ front l, r.seg.dataHead = d) (hs : ∀ r ∈ l.head?, r.seg.dataHead = d)
    (hend : room ≤ (flat (front l)).length ∨ ∃ r ∈ l, r.seg.avairableTop = none) :
    ReadsOn m (some n) room l := by
  intro i hi
  cases hi
  obtain ⟨q, l', rfl, rfl, hq, -⟩ := h.head
  obtain ⟨erp, hloop⟩ := copyoutLoop_front (m.buffers.length + room + 1) 0 room [] h hd
    (fun _ _ => Nat.zero_le _) nofun hend (by have hle := h.length_le; omega)
  refine ⟨erp, _, ?_, List.take_prefix room _⟩
  rw [copyout, hq.get, Option.bind_eq_bind, Option.bind_some, Nat.add_zero, hs q rfl]
  rwa [List.drop_zero, List.nil_append] at hloop

-- ---------------------------------------------------------------------------
-- The operations together
-- ---------------------------------------------------------------------------

/-- When the operations keep the bytes of a chain, and end. -/
theorem recut_law (h : Chain m (some i) (q :: l)) (hs : ∀ r ∈ q :: l, Sound m r.seg)
    (hc : Counted refs (q :: l)) (h0 : 0 < arraySize) :
    ((∃ n m', m.copyConstruct i = some (n, m') ∧ Contains m' (some n) (flat (q :: l)) ∧
        Contains m' (some i) (flat (q :: l))) ↔ Roomy q.seg) ∧
    (∀ len, (∃ r m', m.dup i len = some (r, m') ∧ Contains m' r (flat (q :: l)) ∧
        Contains m' (some i) (flat (q :: l))) ↔ len = 0 ∨ ∀ r ∈ q :: l, Roomy r.seg) ∧
    ((∃ m', m.refresh refs i arraySize = some m' ∧ Contains m' (some i) (flat (q :: l))) ↔
      q.seg.is_writable refs ∨ q.seg.dataSize < arraySize) ∧
    ((∃ m', m.optimize refs i arraySize = some m' ∧ Contains m' (some i) (flat (q :: l))) ↔
      (q.seg.is_writable refs ∨ q.seg.dataSize < arraySize) ∧
        ReadsOn m q.seg.next
          ((if q.seg.is_writable refs then q.seg.avairableSize else arraySize) - q.seg.dataSize)
          l) ∧
    ∀ bf lb, Chain m bf lb →
      ((∃ fuel m', m.concat fuel i bf = some m' ∧
          Contains m' (some i) (flat (q :: l) ++ flat lb)) ↔
        ¬ Gap (q :: l) ∧ ∀ t ∈ (q :: l).getLast?, ∀ r ∈ lb, r.place ≠ t.place) := by
  refine ⟨copyConstruct_iff h, dup_iff h, refresh_iff h h0, optimize_iff h hs hc h0, ?_⟩
  intro bf lb hb
  rcases List.eq_nil_or_concat (q :: l) with hnil | ⟨l', t, hl⟩
  · cases hnil
  · rw [hl] at h ⊢
    rw [List.concat_eq_append] at h ⊢
    rw [concat_iff h hb, List.getLast?_concat]
    simp

/-- Two segments in arrays of their own, and a terminator. -/
def pair : BufferHeap :=
  ⟨[⟨some 1, some 0, true, some 0, 4, 1, 2⟩, ⟨some 2, some 1, true, some 1, 4, 0, 3⟩, .terminator],
    [[0, 1, 2, 0], [3, 4, 5, 0]]⟩

theorem recut_law_pair : ∃ m', pair.optimize (fun _ => 1) 0 4 = some m' ∧
    Contains m' (some 0) [1, 2, 3, 4, 5] := by
  have h : Chain pair (some 0) [⟨0, ⟨some 1, some 0, true, some 0, 4, 1, 2⟩, [1, 2]⟩,
      ⟨1, ⟨some 2, some 1, true, some 1, 4, 0, 3⟩, [3, 4, 5]⟩, ⟨2, .terminator, []⟩] :=
    .cons (q := ⟨0, ⟨some 1, some 0, true, some 0, 4, 1, 2⟩, [1, 2]⟩) ⟨rfl, rfl⟩
      (.cons (q := ⟨1, ⟨some 2, some 1, true, some 1, 4, 0, 3⟩, [3, 4, 5]⟩) ⟨rfl, rfl⟩
        (.cons (q := ⟨2, .terminator, []⟩) ⟨rfl, rfl⟩ .nil))
  have hc : Counted (fun _ => 1) [(⟨0, ⟨some 1, some 0, true, some 0, 4, 1, 2⟩, [1, 2]⟩ : Piece),
      ⟨1, ⟨some 2, some 1, true, some 1, 4, 0, 3⟩, [3, 4, 5]⟩, ⟨2, .terminator, []⟩] := by
    refine ⟨by decide, ?_⟩
    simp only [List.pairwise_cons, List.mem_cons, List.not_mem_nil, or_false, forall_eq_or_imp,
      forall_eq, StdBuffer.terminator]
    simp
  refine (recut_law h (by decide) hc (by decide)).2.2.2.1.mpr ⟨.inl rfl, ?_⟩
  rintro n ⟨⟩
  exact ⟨.ok, [3, 4], by decide +kernel, by decide⟩

/-- A full segment; a chain without a terminator; a head that is not that of the segment before;
and a segment without an array before others. -/
theorem recut_fails :
    (∃ m : BufferHeap, m.bytes (some 0) = some [1, 2] ∧ m.copyConstruct 0 = none ∧
      m.dup 0 1 = none ∧ m.refresh (fun _ => 2) 0 2 = none ∧ m.refresh (fun _ => 2) 0 1 = none) ∧
    (∃ m : BufferHeap, m.bytes (some 0) = some [1, 2, 3] ∧ m.optimize (fun _ => 1) 0 4 = none) ∧
    (∃ m : BufferHeap, m.bytes (some 0) = some [1, 2, 3, 4] ∧
      (m.optimize (fun _ => 1) 0 4).bind (·.bytes (some 0)) = some [1, 2, 3, 9]) ∧
    ∃ m : BufferHeap, m.bytes (some 0) = some [1] ∧ m.bytes (some 2) = some [2] ∧
      ∀ fuel, m.concat fuel 0 (some 2) = none := by
  refine ⟨⟨⟨[⟨none, some 0, true, some 0, 2, 0, 2⟩], [[1, 2]]⟩, by decide +kernel⟩,
    ⟨⟨[⟨some 1, some 0, true, some 0, 4, 0, 2⟩, ⟨none, some 1, true, some 1, 4, 0, 1⟩],
      [[1, 2, 0, 0], [3, 0, 0, 0]]⟩, by decide +kernel⟩,
    ⟨⟨[⟨some 1, some 0, true, some 0, 4, 0, 2⟩, ⟨some 2, some 1, true, some 1, 4, 0, 1⟩,
      ⟨none, some 2, true, some 2, 4, 1, 1⟩], [[1, 2, 0, 0], [3, 0, 0, 0], [9, 4, 0, 0]]⟩,
      by decide +kernel⟩,
    ⟨⟨[⟨some 1, none, true, none, 0, 0, 0⟩, ⟨none, some 0, true, some 0, 4, 0, 1⟩,
      ⟨none, some 1, true, some 1, 4, 0, 1⟩], [[1, 0, 0, 0], [2, 0, 0, 0]]⟩, rfl, rfl,
      fun fuel => ?_⟩⟩
  cases fuel <;> rfl

end BufferHeap

end TinyState
