import TinyState.Containers.BufferOptimize
import TinyState.Lib.Rounds

/-!
# Copying a block over a chain

What `copyin` does byte by byte. It writes the data of one segment after the other, whoever else
uses their arrays. Where the first segment gets an array of its own it keeps its position, and the
bytes before that one stay as they are.
-/

namespace TinyState

open LinkedList Rounds

namespace BufferHeap

variable {m m' : BufferHeap} {refs : Nat → Nat} {p top : Option Nat}
  {i j k n d this pb ptr arraySize fuel : Nat} {q c f : Piece} {l cs : List Piece}
  {x y buf ary : List UInt8} {s : StdBuffer}

-- ---------------------------------------------------------------------------
-- The bytes of the arrays
-- ---------------------------------------------------------------------------

/-- A byte of an array. -/
def byteAt (m : BufferHeap) (k i : Nat) : Option UInt8 := m.arrays[k]?.bind (·[i]?)

theorem load_byteAt (hx : m.load (some k) i n = some x) (hj : j < n) :
    m.byteAt k (i + j) = x[j]? := by
  unfold load at hx
  rw [if_neg (by omega)] at hx
  simp only [Option.bind_eq_bind, Option.bind_some] at hx
  obtain ⟨ary, ha, hx⟩ := Option.bind_eq_some_iff.mp hx
  split at hx
  · cases hx
    rw [byteAt, ha, Option.bind_some, List.getElem?_take_of_lt hj, List.getElem?_drop]
  · cases hx

theorem byteAt_isSome :
    (m.byteAt k i).isSome ↔ ∃ ary, m.arrays[k]? = some ary ∧ i < ary.length := by
  simp [byteAt, Option.isSome_bind, Option.any_eq_true]

/-- What is loaded is there as long as its last byte is. -/
theorem exists_load (hb : n ≠ 0 → ∃ k, top = some k ∧ (m.byteAt k (i + n - 1)).isSome) :
    ∃ x, m.load top i n = some x := by
  by_cases h0 : n = 0
  · exact ⟨[], by rw [h0, load_zero]⟩
  · obtain ⟨k, rfl, hk⟩ := hb h0
    obtain ⟨ary, ha, hlt⟩ := byteAt_isSome.mp hk
    exact ⟨_, load_of_array ha (by omega)⟩

theorem load_isSome (hx : m.load top i n = some x) (h0 : n ≠ 0) :
    ∃ k, top = some k ∧ (m.byteAt k (i + n - 1)).isSome := by
  cases top with
  | none => simp [load, h0] at hx
  | some k =>
    have hb := load_byteAt hx (j := n - 1) (by omega)
    refine ⟨k, rfl, ?_⟩
    rw [Nat.add_sub_assoc (by omega), hb, List.getElem?_eq_getElem (by rw [load_length hx]; omega)]
    rfl

/-- What is loaded depends on its own bytes alone. -/
theorem load_of_bytes (hx : m.load top i n = some x)
    (hb : ∀ k, top = some k → ∀ j, i ≤ j → j < i + n → m'.byteAt k j = m.byteAt k j) :
    m'.load top i n = some x := by
  obtain ⟨y, hy⟩ : ∃ y, m'.load top i n = some y := exists_load fun h0 => by
    obtain ⟨k, hk, hs⟩ := load_isSome hx h0
    exact ⟨k, hk, by rwa [hb k hk _ (by omega) (by omega)]⟩
  rw [hy]
  congr 1
  refine List.ext_getElem? fun j => ?_
  by_cases hj : j < n
  · obtain ⟨k, rfl, -⟩ := load_isSome hx (by omega)
    rw [← load_byteAt hx hj, ← load_byteAt hy hj, hb k rfl _ (by omega) (by omega)]
  · rw [List.getElem?_eq_none (by rw [load_length hy]; omega),
      List.getElem?_eq_none (by rw [load_length hx]; omega)]

theorem load_append {n' : Nat} (hx : m.load top i n = some x)
    (hy : m.load top (i + n) n' = some y) : m.load top i (n + n') = some (x ++ y) := by
  have hxl := load_length hx
  obtain ⟨z, hz⟩ : ∃ z, m.load top i (n + n') = some z := exists_load fun h0 => by
    by_cases h' : n' = 0
    · rw [h', Nat.add_zero] at h0 ⊢
      exact load_isSome hx h0
    · rw [← Nat.add_assoc]
      exact load_isSome hy h'
  have hfst := load_take hz (Nat.le_add_right n n')
  have hsnd := load_drop hz (Nat.le_add_right n n')
  rw [hx] at hfst
  rw [Nat.add_sub_cancel_left, hy] at hsnd
  rw [hz, Option.some.inj hfst, Option.some.inj hsnd, List.take_append_drop]

/-- A list with other bytes at `i`. -/
theorem getElem?_patch (hle : i + x.length ≤ ary.length) :
    (ary.take i ++ x ++ ary.drop (i + x.length))[j]? =
      if i ≤ j ∧ j < i + x.length then x[j - i]? else ary[j]? := by
  have hti : (ary.take i).length = i := List.length_take_of_le (by omega)
  have htx : (ary.take i ++ x).length = i + x.length := by rw [List.length_append, hti]
  split
  · next hj =>
    rw [List.getElem?_append_left (by omega), List.getElem?_append_right (by omega), hti]
  · next hj =>
    by_cases hlt : j < i
    · rw [List.getElem?_append_left (by omega), List.getElem?_append_left (by omega),
        List.getElem?_take_of_lt hlt]
    · rw [List.getElem?_append_right (by omega), htx, List.getElem?_drop]
      congr 1
      omega

theorem store_byteAt (h : m.store (some k) i x = some m') (k' j : Nat) :
    m'.byteAt k' j = if k' = k ∧ i ≤ j ∧ j < i + x.length then x[j - i]? else m.byteAt k' j := by
  unfold store at h
  split at h
  · next hx =>
    cases h
    rw [if_neg]
    rintro ⟨-, hle, hlt⟩
    rw [hx, List.length_nil] at hlt
    omega
  · simp only [Option.bind_eq_bind, Option.bind_some] at h
    obtain ⟨ary, ha, h⟩ := Option.bind_eq_some_iff.mp h
    split at h
    · next hle =>
      cases h
      have hk : k < m.arrays.length := (List.getElem?_eq_some_iff.mp ha).1
      by_cases hkk : k' = k
      · subst hkk
        simp only [byteAt, List.getElem?_set_self hk, ha, Option.bind_some, true_and]
        exact getElem?_patch hle
      · rw [if_neg fun hc => hkk hc.1, byteAt, byteAt, List.getElem?_set_ne (Ne.symm hkk)]
    · cases h

theorem exists_store (hb : x ≠ [] → (m.byteAt k (i + x.length - 1)).isSome) :
    ∃ m', m.store (some k) i x = some m' ∧ m'.buffers = m.buffers ∧
      ∀ (k' : Nat) (ary : List UInt8), m.arrays[k']? = some ary →
        ∃ ary', m'.arrays[k']? = some ary' ∧ ary'.length = ary.length := by
  by_cases hx : x = []
  · exact ⟨m, if_pos hx, rfl, fun k' ary ha => ⟨ary, ha, rfl⟩⟩
  · obtain ⟨ary, ha, hlt⟩ := byteAt_isSome.mp (hb hx)
    have hpos := List.length_pos_iff.mpr hx
    have hle : i + x.length ≤ ary.length := by omega
    refine ⟨{ m with arrays := m.arrays.set k (ary.take i ++ x ++ ary.drop (i + x.length)) },
      by simp [store, hx, ha, hle], rfl, fun k' a hk' => ?_⟩
    have hk : k < m.arrays.length := (List.getElem?_eq_some_iff.mp ha).1
    by_cases hkk : k' = k
    · subst hkk
      obtain rfl := Option.some.inj (ha.symm.trans hk')
      refine ⟨_, List.getElem?_set_self hk, ?_⟩
      simp
      omega
    · exact ⟨a, (List.getElem?_set_ne (Ne.symm hkk)).trans hk', rfl⟩

-- ---------------------------------------------------------------------------
-- Writing one segment after the other
-- ---------------------------------------------------------------------------

theorem store_loaded (h : m.store (some k) i x = some m') :
    m'.load (some k) i x.length = some x := by
  have hb : ∀ j, j < x.length → m'.byteAt k (i + j) = x[j]? := fun j hj => by
    rw [store_byteAt h, if_pos ⟨rfl, by omega, by omega⟩, Nat.add_sub_cancel_left]
  obtain ⟨y, hy⟩ : ∃ y, m'.load (some k) i x.length = some y := exists_load fun h0 => by
    refine ⟨k, rfl, ?_⟩
    rw [Nat.add_sub_assoc (by omega), hb _ (by omega), List.getElem?_eq_getElem (by omega)]
    rfl
  rw [hy]
  congr 1
  refine List.ext_getElem? fun j => ?_
  by_cases hj : j < x.length
  · rw [← load_byteAt hy hj, hb j hj]
  · rw [List.getElem?_eq_none (by rw [load_length hy]; omega), List.getElem?_eq_none (by omega)]

/-- Segments stay sound where the arrays keep their lengths. -/
theorem Sound.lengths (hs : Sound m s)
    (hl : ∀ (k : Nat) (ary : List UInt8), m.arrays[k]? = some ary →
      ∃ ary', m'.arrays[k]? = some ary' ∧ ary'.length = ary.length) : Sound m' s := by
  unfold Sound at hs ⊢
  split at hs
  · exact hs
  · obtain ⟨hfin, ary, ha, hle⟩ := hs
    obtain ⟨ary', ha', hlen⟩ := hl _ ary ha
    exact ⟨hfin, ary', ha', hlen ▸ hle⟩

/-- Into the data of a sound segment as many bytes can be stored as there are. -/
theorem Sound.store (hs : Sound m s) (htop : s.avairableTop = some k) (hx : x.length ≤ s.dataSize) :
    ∃ m', m.store (some k) s.dataHead x = some m' ∧ m'.buffers = m.buffers ∧
      ∀ (k' : Nat) (ary : List UInt8), m.arrays[k']? = some ary →
        ∃ ary', m'.arrays[k']? = some ary' ∧ ary'.length = ary.length := by
  simp only [Sound, htop, StdBuffer.fin] at hs
  obtain ⟨hfin, ary, ha, hle⟩ := hs
  exact exists_store fun hne => byteAt_isSome.mpr
    ⟨ary, ha, by have := List.length_pos_iff.mpr hne; omega⟩

/-- A round of `copyin` that writes. -/
theorem loop_inside (v : Int) (hp : m.get pb = some s) (htop : s.avairableTop ≠ none)
    (hbuf : buf ≠ []) (hptr : ptr < s.fin) :
    copyinLoop refs this arraySize (n + 1) m pb ptr buf v =
      (m.fill refs this pb ptr arraySize buf).bind fun r =>
        copyinLoop refs this arraySize n r.2 pb (ptr + r.1) (buf.drop r.1) (v + r.1) := by
  have hne : ptr ≠ s.fin := Nat.ne_of_lt hptr
  have hle : ¬ s.fin < ptr := Nat.lt_asymm hptr
  simp [copyinLoop, hbuf, hp, htop, hne, hle]

/-- A round of `copyin` that goes on to the next segment. -/
theorem loop_next {t : StdBuffer} (v : Int) (hp : m.get pb = some s) (htop : s.avairableTop ≠ none)
    (hbuf : buf ≠ []) (hnext : s.next = some j) (hj : m.get j = some t) :
    copyinLoop refs this arraySize (n + 1) m pb s.fin buf v =
      copyinLoop refs this arraySize n m j t.dataHead buf v := by
  simp [copyinLoop, hbuf, hp, htop, hnext, hj]

theorem fill_eq {t : StdBuffer} (ht : m.get this = some t) (hw : t.is_writable refs)
    (hp : m.get pb = some s) (hptr : ptr ≤ s.fin)
    (hst : m.store s.avairableTop ptr (buf.take (min buf.length (s.fin - ptr))) = some m') :
    m.fill refs this pb ptr arraySize buf = some (min buf.length (s.fin - ptr), m') := by
  simp [fill, refresh_writable arraySize ht hw, hp, Nat.not_lt.mpr hptr, hst]

/-- What `copyin` leaves that writes the segments `cs` in front and `d` bytes of `q`. -/
structure Filled (m m' : BufferHeap) (pb : Nat) (cs : List Piece) (q : Piece) (d : Nat)
    (buf : List UInt8) : Prop where
  buffers : m'.buffers = m.buffers
  lengths : ∀ (k : Nat) (ary : List UInt8), m.arrays[k]? = some ary →
    ∃ ary', m'.arrays[k]? = some ary' ∧ ary'.length = ary.length
  kept : ∀ k j, (∀ c ∈ cs, c.seg.avairableTop ≠ some k) →
    ¬ (q.seg.avairableTop = some k ∧ q.seg.dataHead ≤ j ∧ j < q.seg.dataHead + d) →
    m'.byteAt k j = m.byteAt k j
  front : ∃ cs', flat cs' = buf.take (flat cs).length ∧
    ∀ l, Chain m' (some q.place) l → Chain m' (some pb) (cs' ++ l)
  data : m'.load q.seg.avairableTop q.seg.dataHead d = some (buf.drop (flat cs).length)

theorem Filled.none (m : BufferHeap) (q : Piece) : Filled m m q.place [] q 0 [] where
  buffers := rfl
  lengths _ ary h := ⟨ary, h, rfl⟩
  kept _ _ _ _ := rfl
  front := ⟨[], rfl, fun _ h => h⟩
  data := load_zero

/-- One more segment in front, which has an array of its own. -/
theorem Filled.cons {m₁ : BufferHeap} (h : Filled m₁ m' j cs q d (buf.drop c.seg.dataSize))
    (hc : c.Lies m) (hnext : c.seg.next = some j) (hk : c.seg.avairableTop = some k)
    (hst : m.store (some k) c.seg.dataHead (buf.take c.seg.dataSize) = some m₁)
    (hb : m₁.buffers = m.buffers)
    (hl : ∀ (k : Nat) (ary : List UInt8), m.arrays[k]? = some ary →
      ∃ ary', m₁.arrays[k]? = some ary' ∧ ary'.length = ary.length)
    (hle : c.seg.dataSize ≤ buf.length)
    (hap : ∀ r ∈ cs ++ [q], c.seg.avairableTop ≠ r.seg.avairableTop) :
    Filled m m' c.place (c :: cs) q d buf where
  buffers := h.buffers.trans hb
  lengths k ary ha := by
    obtain ⟨ary₁, ha₁, hlen₁⟩ := hl k ary ha
    obtain ⟨ary', ha', hlen'⟩ := h.lengths k ary₁ ha₁
    exact ⟨ary', ha', hlen'.trans hlen₁⟩
  kept k' j hcs hq := by
    obtain ⟨hck, hcs⟩ := List.forall_mem_cons.mp hcs
    rw [h.kept k' j hcs hq, store_byteAt hst, if_neg]
    rintro ⟨rfl, -⟩
    exact hck hk
  front := by
    obtain ⟨cs', hflat, hfront⟩ := h.front
    have hlen : (buf.take c.seg.dataSize).length = c.seg.dataSize := List.length_take_of_le hle
    have hload := store_loaded hst
    rw [hlen, ← hk] at hload
    refine ⟨⟨c.place, c.seg, buf.take c.seg.dataSize⟩ :: cs', ?_, fun l hl' => ?_⟩
    · rw [flat_cons, flat_cons, hflat, List.length_append, hc.length, List.take_add]
    · refine .cons (q := ⟨c.place, c.seg, buf.take c.seg.dataSize⟩) ⟨?_, ?_⟩
        (hnext ▸ hfront l hl')
      · have hget : m'.get c.place = m.get c.place :=
          congrArg (·[c.place]?) (h.buffers.trans hb)
        exact hget.trans hc.get
      · refine load_of_bytes hload fun k' hk' j _ _ => h.kept k' j (fun r hr he => ?_) fun he => ?_
        · exact hap r (List.mem_append_left _ hr) (hk'.trans he.symm)
        · exact hap q (by simp) (hk'.trans he.1.symm)
  data := by
    rw [h.data, flat_cons, List.length_append, hc.length, List.drop_drop]

theorem copyin_fills {t : StdBuffer} (hc : Chain m (some pb) (cs ++ q :: l))
    (hcs : ∀ c ∈ cs, 0 < c.seg.dataSize ∧ c.seg.avairableTop ≠ none ∧ Sound m c.seg)
    (hs : Sound m q.seg) (hd : d ≤ q.seg.dataSize) (hlen : buf.length = (flat cs).length + d)
    (hap : cs.Pairwise fun a b => a.seg.avairableTop ≠ b.seg.avairableTop)
    (hout : ∀ c ∈ cs, ∀ r ∈ q :: l, c.seg.avairableTop ≠ r.seg.avairableTop)
    (ht : m.get this = some t) (hw : t.is_writable refs) (hp : m.get pb = some s) (v : Int) :
    ∃ m', Returns (fun fuel => copyinLoop refs this arraySize fuel m pb s.dataHead buf v)
      (.ok, v + buf.length, m') ∧ Filled m m' pb cs q d buf := by
  induction cs generalizing m pb buf v s with
  | nil =>
    obtain ⟨hi, hq, -⟩ := hc.tail
    obtain rfl : pb = q.place := Option.some.inj hi
    obtain rfl : q.seg = s := Option.some.inj (hq.get.symm.trans hp)
    rw [flat_nil, List.length_nil, Nat.zero_add] at hlen
    by_cases h0 : buf = []
    · subst h0
      rw [List.length_nil] at hlen
      subst hlen
      exact ⟨m, .done rfl fun n => by simp [loop_done], .none m q⟩
    · have hpos := List.length_pos_iff.mpr h0
      have htop : q.seg.avairableTop ≠ none := fun htop => by
        simp only [Sound, htop] at hs
        omega
      obtain ⟨k, hk⟩ := Option.ne_none_iff_exists'.mp htop
      obtain ⟨m₁, hst, hb, hl⟩ := hs.store hk (x := buf) (by omega)
      have hmin : min buf.length (q.seg.fin - q.seg.dataHead) = buf.length := by
        simp only [StdBuffer.fin]
        omega
      have hfill : m.fill refs this q.place q.seg.dataHead arraySize buf =
          some (min buf.length (q.seg.fin - q.seg.dataHead), m₁) :=
        fill_eq ht hw hp (Nat.le_add_right _ _) (by rw [hmin, List.take_length, hk, hst])
      refine ⟨m₁, .step (g := fun n => copyinLoop refs this arraySize n m₁ q.place
        (q.seg.dataHead + buf.length) [] (v + buf.length)) (.done rfl fun n => loop_done) rfl
        fun n => ?_, hb, hl, ?_, ?_, ?_⟩
      · rw [loop_inside v hp htop h0 (by simp only [StdBuffer.fin]; omega), hfill,
          Option.bind_some, hmin, List.drop_length]
      · intro k' j _ hno
        rw [store_byteAt hst, if_neg]
        rintro ⟨rfl, hj⟩
        exact hno ⟨hk, by omega⟩
      · exact ⟨[], rfl, fun _ h => h⟩
      · rw [hk, ← hlen]
        exact store_loaded hst
  | cons c cs ih =>
    obtain ⟨hi, hcl, (hrest : Chain m c.seg.next (cs ++ q :: l))⟩ := hc.tail
    obtain rfl : pb = c.place := Option.some.inj hi
    obtain rfl : c.seg = s := Option.some.inj (hcl.get.symm.trans hp)
    obtain ⟨⟨hsize, htop, hsc⟩, hcs⟩ := List.forall_mem_cons.mp hcs
    obtain ⟨hap₁, hap⟩ := List.pairwise_cons.mp hap
    obtain ⟨k, hk⟩ := Option.ne_none_iff_exists'.mp htop
    rw [flat_cons, List.length_append, hcl.length] at hlen
    have hne : buf ≠ [] := List.ne_nil_of_length_pos (by omega)
    obtain ⟨m₁, hst, hb, hl⟩ := hsc.store hk (x := buf.take c.seg.dataSize)
      (by rw [List.length_take]; omega)
    have hmin : min buf.length (c.seg.fin - c.seg.dataHead) = c.seg.dataSize := by
      simp only [StdBuffer.fin]
      omega
    have hfill : m.fill refs this c.place c.seg.dataHead arraySize buf =
        some (min buf.length (c.seg.fin - c.seg.dataHead), m₁) :=
      fill_eq ht hw hp (Nat.le_add_right _ _) (by rw [hmin, hk, hst])
    have hround : ∀ n, copyinLoop refs this arraySize (n + 1) m c.place c.seg.dataHead buf v =
        copyinLoop refs this arraySize n m₁ c.place c.seg.fin (buf.drop c.seg.dataSize)
          (v + c.seg.dataSize) := fun n => by
      rw [loop_inside v hp htop hne (by simp only [StdBuffer.fin]; omega), hfill,
        Option.bind_some, hmin]
      rfl
    have hget : ∀ i, m₁.get i = m.get i := fun i => congrArg (·[i]?) hb
    obtain ⟨j, hj⟩ := hrest.exists_next (by simp)
    have hapart : ∀ r ∈ cs ++ q :: l, c.seg.avairableTop ≠ r.seg.avairableTop := fun r hr => by
      rcases List.mem_append.mp hr with hr | hr
      · exact hap₁ r hr
      · exact hout c List.mem_cons_self r hr
    have hapart' : ∀ r ∈ cs ++ [q], c.seg.avairableTop ≠ r.seg.avairableTop := fun r hr =>
      hapart r (by simp only [List.mem_append, List.mem_cons] at hr ⊢; tauto)
    by_cases hdone : buf.drop c.seg.dataSize = []
    · -- the block ends with this segment, so there is none after it
      have hle := List.drop_eq_nil_iff.mp hdone
      obtain rfl : cs = [] := by
        cases cs with
        | nil => rfl
        | cons r cs =>
          have hr := (hcs r List.mem_cons_self).1
          have hrl := (hrest.lies r (by simp)).length
          rw [flat_cons, List.length_append] at hlen
          omega
      rw [flat_nil, List.length_nil, Nat.add_zero] at hlen
      obtain rfl : d = 0 := by omega
      obtain rfl : j = q.place := by
        have hq := hrest.tail.1
        rw [hj] at hq
        exact Option.some.inj hq
      refine ⟨m₁, .step (g := fun n => copyinLoop refs this arraySize n m₁ c.place c.seg.fin
        (buf.drop c.seg.dataSize) (v + c.seg.dataSize)) (.done rfl fun n => ?_) rfl hround,
        .cons ?_ hcl hj hk hst hb hl (by omega) hapart'⟩
      · rw [hdone, loop_done, hlen, Nat.add_zero]
      · rw [hdone]
        exact .none m₁ q
    · have hlies : ∀ r ∈ cs ++ q :: l, r.Lies m₁ := fun r hr => by
        have hrl := hrest.lies r hr
        refine ⟨(hget _).trans hrl.get, load_of_bytes hrl.data fun k' hk' i _ _ => ?_⟩
        rw [store_byteAt hst, if_neg]
        rintro ⟨rfl, -⟩
        exact hapart r hr (hk.trans hk'.symm)
      obtain ⟨r, after, hr⟩ : ∃ r after, cs ++ q :: l = r :: after := by
        cases cs with
        | nil => exact ⟨q, l, rfl⟩
        | cons r cs => exact ⟨r, cs ++ q :: l, rfl⟩
      have hjr : m.get j = some r.seg := by
        rw [hr, hj] at hrest
        rw [Option.some.inj hrest.tail.1]
        exact hrest.tail.2.1.get
      have hrest₁ : Chain m₁ (some j) (cs ++ q :: l) := hj ▸ hrest.frame hlies
      have hlen₁ : (buf.drop c.seg.dataSize).length = (flat cs).length + d := by
        rw [List.length_drop]
        omega
      obtain ⟨m', hret, hfilled⟩ := ih hrest₁
        (fun r hr => ⟨(hcs r hr).1, (hcs r hr).2.1, (hcs r hr).2.2.lengths hl⟩) (hs.lengths hl)
        hlen₁ hap
        (fun c hc => hout c (List.mem_cons_of_mem _ hc)) ((hget _).trans ht)
        ((hget j).trans hjr) (v + c.seg.dataSize)
      refine ⟨m', ?_, .cons hfilled hcl hj hk hst hb hl (by omega) hapart'⟩
      have hv : v + c.seg.dataSize + ((buf.drop c.seg.dataSize).length : Int) = v + buf.length := by
        rw [List.length_drop]
        omega
      rw [hv] at hret
      refine .step (.step hret (f := fun n => copyinLoop refs this arraySize n m₁ c.place c.seg.fin
        (buf.drop c.seg.dataSize) (v + c.seg.dataSize)) rfl fun n => ?_) rfl hround
      exact loop_next (v + c.seg.dataSize) ((hget _).trans hcl.get) htop hdone hj
        ((hget j).trans hjr)

-- ---------------------------------------------------------------------------
-- What the chain holds then
-- ---------------------------------------------------------------------------

/-- A first round that gives the segment an array of its own writes as if it had had it before. -/
theorem copyin_refresh {m₂ : BufferHeap} {t : StdBuffer} {v : Int} (hp : m.get this = some s)
    (htop : s.avairableTop ≠ none) (hbuf : buf ≠ [])
    (hr : m.refresh refs this arraySize = some m₂) (ht : m₂.get this = some t)
    (htop' : t.avairableTop ≠ none) (hw : t.is_writable refs) (hptr : ptr < s.fin)
    (hptr' : ptr < t.fin) (fuel : Nat) :
    copyinLoop refs this arraySize fuel m this ptr buf v =
      copyinLoop refs this arraySize fuel m₂ this ptr buf v := by
  cases fuel with
  | zero => rfl
  | succ fuel =>
    rw [loop_inside v hp htop hbuf hptr, loop_inside v ht htop' hbuf hptr']
    simp only [fill, hr, refresh_writable arraySize ht hw, Option.bind_eq_bind, Option.bind_some]

/-- The segment with the data that it has in another heap. -/
def Piece.reread (m : BufferHeap) (r : Piece) : Piece :=
  ⟨r.place, r.seg, (m.load r.seg.avairableTop r.seg.dataHead r.seg.dataSize).getD []⟩

theorem flat_reread (hl : ∀ r ∈ l, (r.reread m).data.length = r.data.length)
    (h : flat (l.map (Piece.reread m)) = flat l) : ∀ r ∈ l, (r.reread m).data = r.data := by
  induction l with
  | nil => nofun
  | cons r l ih =>
    obtain ⟨hr, hl⟩ := List.forall_mem_cons.mp hl
    rw [List.map_cons, flat_cons, flat_cons] at h
    obtain ⟨hd, hrest⟩ := List.append_inj h hr
    exact List.forall_mem_cons.mpr ⟨hd, ih hl hrest⟩

/-- The block, the data that were there, and what the further segments hold. -/
theorem Filled.contains (hf : Filled m m' pb cs q d buf) (hq : m.get q.place = some q.seg)
    (hx : m.load q.seg.avairableTop (q.seg.dataHead + d) n = some x)
    (hsize : q.seg.dataSize = d + n) (hout : ∀ c ∈ cs, c.seg.avairableTop ≠ q.seg.avairableTop)
    (hl : Chain m' q.seg.next l) : Contains m' (some pb) (buf ++ (x ++ flat l)) := by
  obtain ⟨cs', hflat, hfront⟩ := hf.front
  have hxl : m'.load q.seg.avairableTop (q.seg.dataHead + d) n = some x :=
    load_of_bytes hx fun k hk j hj _ => hf.kept k j (fun c hc he => hout c hc (he.trans hk.symm))
      fun hin => by omega
  refine ⟨_, hfront (⟨q.place, q.seg, buf.drop (flat cs).length ++ x⟩ :: l) (.cons
    (q := ⟨q.place, q.seg, buf.drop (flat cs).length ++ x⟩) ⟨?_, ?_⟩ hl), ?_⟩
  · exact (congrArg (·[q.place]?) hf.buffers).trans hq
  · simp only [hsize]
    exact load_append hf.data hxl
  · rw [flat_append, hflat, flat_cons, List.append_assoc, ← List.append_assoc,
      List.take_append_drop]

/-- The further segments are as they were where nothing has been written over them. -/
theorem Filled.clear (hf : Filled m m' pb cs q d buf) (h : Chain m p l)
    (hout : ∀ c ∈ cs, ∀ r ∈ l, c.seg.avairableTop ≠ r.seg.avairableTop)
    (hc : ∀ r ∈ l, r.seg.avairableTop = q.seg.avairableTop → ∀ j, q.seg.dataHead ≤ j →
      j < q.seg.dataHead + d → ¬ (r.seg.dataHead ≤ j ∧ j < r.seg.fin)) : Chain m' p l := by
  refine h.frame fun r hr => ⟨(congrArg (·[r.place]?) hf.buffers).trans (h.lies r hr).get, ?_⟩
  refine load_of_bytes (h.lies r hr).data fun k hk j hj hlt => hf.kept k j
    (fun c hc he => hout c hc r hr (he.trans hk.symm)) ?_
  rintro ⟨hqk, hle, hlt'⟩
  exact hc r hr (hk.trans hqk.symm) j hle hlt' ⟨hj, hlt⟩

theorem Filled.reread (hf : Filled m m' pb cs q d buf) (h : Chain m p l)
    (hs : ∀ r ∈ l, Sound m r.seg) :
    Chain m' p (l.map (Piece.reread m')) ∧ ∀ r ∈ l, (r.reread m').Lies m' := by
  have hlies : ∀ r ∈ l, (r.reread m').Lies m' := fun r hr => by
    obtain ⟨x, hx⟩ := ((hs r hr).lengths hf.lengths).load
    have hd : (r.reread m').data = x := by
      rw [Piece.reread, hx]
      rfl
    exact ⟨(congrArg (·[r.place]?) hf.buffers).trans (h.lies r hr).get, hd ▸ hx⟩
  refine ⟨?_, hlies⟩
  clear hs
  induction h with
  | nil => exact .nil
  | @cons r l hr hl ih =>
    obtain ⟨hr', hlies⟩ := List.forall_mem_cons.mp hlies
    exact .cons (q := r.reread m') hr' (ih hlies)

/-- Where the block is written over data that come later, it is not all right for every block. -/
theorem Filled.overwritten {b b' : UInt8} (hf : Filled m m' pb cs q d buf)
    (hq : m.get q.place = some q.seg)
    (hx : m.load q.seg.avairableTop (q.seg.dataHead + d) n = some x)
    (hsize : q.seg.dataSize = d + n) (hout : ∀ c ∈ cs, c.seg.avairableTop ≠ q.seg.avairableTop)
    (h : Chain m q.seg.next l) (hs : ∀ r ∈ l, Sound m r.seg) {r : Piece} (hr : r ∈ l)
    (hk : r.seg.avairableTop = some k) (hqk : q.seg.avairableTop = some k)
    (hj : q.seg.dataHead ≤ j ∧ j < q.seg.dataHead + d)
    (hjr : r.seg.dataHead ≤ j ∧ j < r.seg.fin) (hold : m.byteAt k j = some b)
    (hbuf : buf = List.replicate buf.length b') (hne : b' ≠ b) :
    ¬ Contains m' (some pb) (buf ++ (x ++ flat l)) := by
  intro hcont
  obtain ⟨hl', hlies⟩ := hf.reread h hs
  have heq := hcont.unique (hf.contains hq hx hsize hout hl')
  have hflat : flat (l.map (Piece.reread m')) = flat l :=
    (List.append_cancel_left (List.append_cancel_left heq)).symm
  have hdata := flat_reread (fun r hr => by
    rw [(hlies r hr).length, (h.lies r hr).length]
    rfl) hflat r hr
  obtain ⟨i, rfl⟩ := Nat.exists_eq_add_of_le hjr.1
  have hi : i < r.seg.dataSize := Nat.lt_of_add_lt_add_left hjr.2
  -- the byte is the old one in the data, and the one of the block in the array
  have hnew : m'.byteAt k (r.seg.dataHead + i) = some b := by
    have h₁ : m'.load (some k) r.seg.dataHead r.seg.dataSize = some r.data :=
      hdata ▸ hk ▸ (hlies r hr).data
    have h₂ : m.load (some k) r.seg.dataHead r.seg.dataSize = some r.data := hk ▸ (h.lies r hr).data
    rw [load_byteAt h₁ hi, ← load_byteAt h₂ hi, hold]
  obtain ⟨i', hi'⟩ := Nat.exists_eq_add_of_le hj.1
  have hload := hf.data
  rw [hqk] at hload
  have hlen := load_length hload
  rw [hi', load_byteAt hload (by omega), List.getElem?_drop, hbuf, List.getElem?_replicate,
    if_pos (by rw [List.length_drop] at hlen; omega)] at hnew
  exact hne (Option.some.inj hnew)

-- ---------------------------------------------------------------------------
-- A position that is kept
-- ---------------------------------------------------------------------------

/-- The first segment has got an array of its own, with its data at the beginning, and the first
byte is still `b`. -/
structure Stale (m : BufferHeap) (refs : Nat → Nat) (this k : Nat) (b : UInt8) (s : StdBuffer)
    (rest : List Nat) : Prop where
  get : m.get this = some s
  top : s.avairableTop = some k
  head : s.dataHead = 0
  size : 0 < s.dataSize
  room : 0 < s.avairableSize
  writable : s.is_writable refs
  byte : m.byteAt k 0 = some b
  linked : Linked m.nextOf s.next rest
  notMem : this ∉ rest
  others : ∀ r ∈ rest, ∀ t, m.get r = some t → t.avairableTop ≠ some k

/-- The position is behind the first byte. -/
def Behind (this : Nat) (rest : List Nat) (pb ptr : Nat) : Prop := pb = this ∧ 0 < ptr ∨ pb ∈ rest

variable {rest' : List Nat} {b : UInt8} {t : StdBuffer} {v v' : Int} {erp : BufferError}

theorem Stale.extend (h : Stale m refs this k b s rest') (arraySize : Nat) :
    m.extend this arraySize = some (.extend, m) := by
  simp [BufferHeap.extend, h.get, h.top]

/-- Writing the length of the data. -/
theorem Stale.resize (h : Stale m refs this k b s rest') (hp : m.get pb = some t)
    (hd : pb = this → 0 < d) :
    ∃ s', Stale (m.set pb { t with dataSize := d }) refs this k b s' rest' := by
  have hnext : ∀ r, (m.set pb { t with dataSize := d }).nextOf r = m.nextOf r := fun r => by
    rw [nextOf_set hp]
    split
    · next hr => rw [hr, nextOf_eq hp]
    · rfl
  have hothers : ∀ r ∈ rest', ∀ u, (m.set pb { t with dataSize := d }).get r = some u →
      u.avairableTop ≠ some k := fun r hr u hu => by
    by_cases hrp : pb = r
    · rw [← hrp, get_set_self hp] at hu
      cases hu
      exact h.others r hr t (hrp ▸ hp)
    · rw [get_set_ne hrp] at hu
      exact h.others r hr u hu
  by_cases hpt : pb = this
  · obtain rfl : t = s := Option.some.inj (hp.symm.trans (hpt ▸ h.get))
    exact ⟨{ t with dataSize := d }, { h with
      get := by
        rw [← hpt, get_set_self hp]
      size := hd hpt
      linked := h.linked.frame fun r _ => hnext r
      others := hothers }⟩
  · exact ⟨s, { h with
      get := (get_set_ne hpt).trans h.get
      linked := h.linked.frame fun r _ => hnext r
      others := hothers }⟩

/-- Writing behind the first byte. -/
theorem Stale.store (h : Stale m refs this k b s rest') (hst : m.store top i x = some m')
    (hi : top = some k → 0 < i) : Stale m' refs this k b s rest' := by
  have hb : m'.buffers = m.buffers := by
    unfold BufferHeap.store at hst
    split at hst
    · cases hst
      rfl
    · obtain ⟨k', -, hst⟩ := Option.bind_eq_some_iff.mp hst
      obtain ⟨ary, -, hst⟩ := Option.bind_eq_some_iff.mp hst
      split at hst
      · cases hst
        rfl
      · cases hst
  have hget : ∀ r, m'.get r = m.get r := fun r => congrArg (·[r]?) hb
  refine { h with
    get := (hget this).trans h.get
    byte := ?_
    linked := h.linked.frame fun r _ => by rw [nextOf, nextOf, hget]
    others := fun r hr u hu => h.others r hr u ((hget r).symm.trans hu) }
  cases top with
  | none =>
    obtain rfl : m = m' := by
      unfold BufferHeap.store at hst
      split at hst
      · exact Option.some.inj hst
      · cases hst
    exact h.byte
  | some k' =>
    rw [store_byteAt hst, if_neg]
    · exact h.byte
    · rintro ⟨rfl, hle, -⟩
      exact absurd (hi rfl) (by omega)

/-- A further segment after the first one, where that is the last. -/
theorem Stale.grow (h : Stale m refs this k b s rest') (hp : m.get pb = some t)
    (hn : t.next = none) (hg : m.grow this pb arraySize = some (j, m')) :
    ∃ s' r', Stale m' refs this k b s' r' ∧ j ∈ r' := by
  obtain ⟨⟨n, m₁⟩, hnew, hg⟩ := Option.bind_eq_some_iff.mp hg
  obtain ⟨u, hu, hnew⟩ := Option.bind_eq_some_iff.mp hnew
  cases hnew
  have hut : u.avairableTop = some m.arrays.length ∧ u.next = none := by
    rw [StdBuffer.initial] at hu
    split at hu
    · cases hu
    · cases hu
      exact ⟨rfl, rfl⟩
  obtain ⟨s₁, hs₁, hg⟩ := Option.bind_eq_some_iff.mp hg
  have hold : ∀ {r : Nat} {w : StdBuffer}, m.get r = some w →
      ((m.newArray arraySize).2.newBuffer u).2.get r = some w := fun hr => getElem?_append_some hr
  obtain rfl : s = s₁ := Option.some.inj ((hold h.get).symm.trans hs₁)
  obtain ⟨t₁, ht₁, hg⟩ := Option.bind_eq_some_iff.mp hg
  obtain ⟨j₁, hj₁, hg⟩ := Option.bind_eq_some_iff.mp hg
  cases hg
  by_cases hpt : this = pb
  · subst hpt
    rw [get_set_self hs₁] at ht₁
    cases ht₁
    obtain rfl : m.buffers.length = j := Option.some.inj hj₁
    have hne : this ≠ m.buffers.length := Nat.ne_of_lt (List.getElem?_eq_some_iff.mp h.get).1
    have hget : (((m.newArray arraySize).2.newBuffer u).2.set this
        { s with next := some m.buffers.length }).get m.buffers.length = some u :=
      (get_set_ne hne).trans (get_new _ u)
    obtain ⟨ary, hk, -⟩ := Option.bind_eq_some_iff.mp h.byte
    refine ⟨_, [m.buffers.length], { h with
      get := get_set_self hs₁
      byte := ?_
      linked := ⟨rfl, (nextOf_eq hget).trans hut.2⟩
      notMem := fun hm => hne (List.mem_singleton.mp hm)
      others := ?_ }, List.mem_singleton.mpr rfl⟩
    · have hk' : (m.arrays ++ [List.replicate arraySize (0 : UInt8)])[k]? = some ary :=
        getElem?_append_some hk
      have hbyte := h.byte
      rw [byteAt, hk] at hbyte
      exact (congrArg (Option.bind · _) hk').trans hbyte
    · intro r hr w hw
      rw [List.mem_singleton.mp hr] at hw
      obtain rfl := Option.some.inj (hget.symm.trans hw)
      rw [hut.1]
      exact fun he => Nat.ne_of_gt (List.getElem?_eq_some_iff.mp hk).1 (Option.some.inj he)
  · rw [get_set_ne hpt] at ht₁
    obtain rfl := Option.some.inj ((hold hp).symm.trans ht₁)
    rw [hn] at hj₁
    cases hj₁

theorem Stale.next (h : Stale m refs this k b s rest') (hb : Behind this rest' pb ptr)
    (hp : m.get pb = some t) (hn : t.next = some j) : j ∈ rest' := by
  rcases hb with ⟨rfl, -⟩ | hb
  · obtain rfl : s = t := Option.some.inj (h.get.symm.trans hp)
    have hl := h.linked
    rw [hn] at hl
    cases rest' with
    | nil => cases hl
    | cons r rest' =>
      rw [Option.some.inj hl.1]
      exact List.mem_cons_self
  · exact h.linked.next_mem hb ((nextOf_eq hp).trans hn)

theorem Stale.fill (h : Stale m refs this k b s rest') (hb : Behind this rest' pb ptr)
    (hf : m.fill refs this pb ptr arraySize buf = some (n, m')) :
    Stale m' refs this k b s rest' := by
  obtain ⟨m₁, hr, hf⟩ := Option.bind_eq_some_iff.mp hf
  rw [refresh_writable arraySize h.get h.writable] at hr
  cases hr
  obtain ⟨t, hp, hf⟩ := Option.bind_eq_some_iff.mp hf
  split at hf
  · cases hf
  obtain ⟨m₂, hst, hf⟩ := Option.bind_eq_some_iff.mp hf
  cases hf
  refine h.store hst fun htop => ?_
  rcases hb with ⟨-, h0⟩ | hb
  · exact h0
  · exact absurd htop (h.others pb hb t hp)

/-- However `copyin` goes on, the first byte stays. -/
theorem Stale.copyin (h : Stale m refs this k b s rest') (hb : Behind this rest' pb ptr)
    (hloop : copyinLoop refs this arraySize fuel m pb ptr buf v = some (erp, v', m')) :
    ∃ s' r', Stale m' refs this k b s' r' := by
  induction fuel generalizing m pb ptr buf v s rest' with
  | zero => cases hloop
  | succ fuel ih =>
    rw [copyinLoop] at hloop
    by_cases hbuf : buf = []
    · rw [if_pos hbuf] at hloop
      cases hloop
      exact ⟨s, rest', h⟩
    rw [if_neg hbuf] at hloop
    obtain ⟨t, hp, hloop⟩ := Option.bind_eq_some_iff.mp hloop
    by_cases ha : t.avairableTop.isNone
    · simp only [ha, if_true, h.extend, Option.bind_eq_bind, Option.bind_some, ne_eq, reduceCtorEq,
        not_false_eq_true] at hloop
      cases hloop
      exact ⟨s, rest', h⟩
    · simp only [ha, if_false, Bool.false_eq_true, Option.bind_eq_bind, Option.bind_some, ne_eq,
        not_true_eq_false, hp] at hloop
      split at hloop
      · cases hloop
        exact ⟨s, rest', h⟩
      split at hloop
      · obtain ⟨j, hj, hloop⟩ := Option.bind_eq_some_iff.mp hloop
        obtain ⟨u, -, hloop⟩ := Option.bind_eq_some_iff.mp hloop
        exact ih h (.inr (h.next hb hp hj)) hloop
      split at hloop
      · next hnext hfull =>
        obtain ⟨⟨j, m₂⟩, hg, hloop⟩ := Option.bind_eq_some_iff.mp hloop
        obtain ⟨u, -, hloop⟩ := Option.bind_eq_some_iff.mp hloop
        have hn : t.next = none := by
          rw [← Option.not_isSome_iff_eq_none]
          exact fun hs => hnext ⟨hfull.1, hs⟩
        obtain ⟨s', r', h', hj⟩ := h.grow hp hn hg
        exact ih h' (.inr hj) hloop
      · obtain ⟨s₁, h₁⟩ : ∃ s₁, Stale (if ptr = t.fin then m.set pb { t with
            dataSize := min t.avairableSize (ptr + buf.length) - t.dataHead } else m)
            refs this k b s₁ rest' := by
          split
          · refine h.resize hp fun hpt => ?_
            obtain rfl : s = t := Option.some.inj (h.get.symm.trans (hpt ▸ hp))
            have hroom := h.room
            have hlen := List.length_pos_iff.mpr hbuf
            rw [h.head]
            omega
          · exact ⟨s, h⟩
        generalize (if ptr = t.fin then m.set pb { t with
            dataSize := min t.avairableSize (ptr + buf.length) - t.dataHead } else m) = m₁
          at h₁ hloop
        obtain ⟨⟨n, m₂⟩, hfill, hloop⟩ := Option.bind_eq_some_iff.mp hloop
        exact ih (h₁.fill hb hfill) (hb.imp (fun hp => ⟨hp.1, by have h0 := hp.2; omega⟩) id) hloop

theorem Stale.contains (h : Stale m refs this k b s rest') (hc : Contains m (some this) x) :
    x[0]? = some b := by
  obtain ⟨l, hl, rfl⟩ := hc
  obtain ⟨q, l, rfl, hi, hq, -⟩ := hl.head
  obtain rfl : q.seg = s := Option.some.inj (hq.get.symm.trans (hi ▸ h.get))
  have hdata := hq.data
  have hlen := hq.length
  have hsize := h.size
  rw [h.top, h.head] at hdata
  rw [flat_cons, List.getElem?_append_left (by omega), ← load_byteAt hdata hsize]
  exact h.byte

/-- Where the first segment may not be written, and its data are not at the beginning, the first
byte is not the one of the block. -/
theorem copyin_unwritable (h : Chain m (some i) (f :: l)) (hs : ∀ r ∈ l, Sound m r.seg)
    (htop : f.seg.avairableTop ≠ none) (hw : ¬ f.seg.is_writable refs) (h0 : 0 < arraySize)
    (hsize : 0 < f.seg.dataSize) (hbad : 0 < f.seg.dataHead ∨ arraySize ≤ f.seg.dataSize)
    (hone : refs m.arrays.length = 1) (hbuf : buf ≠ [])
    (hloop : copyinLoop refs i arraySize fuel m i f.seg.dataHead buf v = some (erp, v', m'))
    (hc : Contains m' (some i) x) : x[0]? = f.data[0]? := by
  obtain ⟨hi, hf, hl⟩ := h.tail
  obtain rfl : i = f.place := Option.some.inj hi
  cases fuel with
  | zero => cases hloop
  | succ fuel =>
    rw [loop_inside v hf.get htop hbuf (by simp only [StdBuffer.fin]; omega)] at hloop
    obtain ⟨⟨n, m₁⟩, hfill, hloop⟩ := Option.bind_eq_some_iff.mp hloop
    obtain ⟨mr, hr, hfill⟩ := Option.bind_eq_some_iff.mp hfill
    have hlt : f.seg.dataSize < arraySize := by
      by_contra hle
      rw [refresh_refused hf hw h0 (Nat.not_lt.mp hle)] at hr
      cases hr
    rw [refresh_eq hf hw hlt] at hr
    cases hr
    obtain ⟨t, ht, hfill⟩ := Option.bind_eq_some_iff.mp hfill
    have hrl : (f.renewed m arraySize).Lies (m.refreshed f arraySize) := renewed_lies hf
    obtain rfl : m.renewed f arraySize = t := Option.some.inj (hrl.get.symm.trans ht)
    split at hfill
    · cases hfill
    obtain ⟨m₂, hst, hfill⟩ := Option.bind_eq_some_iff.mp hfill
    cases hfill
    have hlen := hf.length
    have hdata : f.data[0]? = some (f.data[0]) := List.getElem?_eq_getElem (by omega)
    have hch : Chain (m.refreshed f arraySize) (some f.place) (f.renewed m arraySize :: l) :=
      refreshed_chain h
    have hstale : Stale (m.refreshed f arraySize) refs f.place m.arrays.length f.data[0]
        (m.renewed f arraySize) (l.map Piece.place) := {
      get := hrl.get
      top := rfl
      head := rfl
      size := hsize
      room := h0
      writable := by simp [StdBuffer.is_writable, renewed, hone]
      byte := by
        have hk : (m.refreshed f arraySize).arrays[m.arrays.length]? =
            some (f.data ++ List.replicate (arraySize - f.data.length) 0) :=
          List.getElem?_concat_length
        rw [byteAt, hk, Option.bind_some, List.getElem?_append_left (by omega), hdata]
      linked := hch.tail.2.2.linked
      notMem := (List.nodup_cons.mp h.nodup).1
      others := fun r hr u hu => by
        obtain ⟨c, hc, rfl⟩ := List.mem_map.mp hr
        obtain rfl : c.seg = u := Option.some.inj ((hch.tail.2.2.lies c hc).get.symm.trans hu)
        exact fun hk => Nat.lt_irrefl _ ((hs c hc).lt hk) }
    have hpos : 0 < f.seg.dataHead := hbad.resolve_right (Nat.not_le.mpr hlt)
    obtain ⟨s', r', hst'⟩ := (hstale.store hst fun _ => hpos).copyin
      (.inl ⟨rfl, Nat.lt_of_lt_of_le hpos (Nat.le_add_right _ _)⟩) hloop
    rw [hst'.contains hc, hdata]

end BufferHeap

end TinyState
