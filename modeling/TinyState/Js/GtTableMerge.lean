import TinyState.Js.GtTable
import Mathlib.Data.List.Induction
import Mathlib.Data.List.Nodup

/-!
# The loop over the entries of gtTable

With keys, an update goes over the entries and the old rows together. Where the code tells apart
the keys that it compares and looks up, it places the rows in the order of the entries, and
otherwise an entry gets the row of another key.
-/

namespace TinyState.Js.GtTable

open PigPath

-- ---------------------------------------------------------------------------
-- Key tables
-- ---------------------------------------------------------------------------

section

variable (text : JsNumber → List UInt16) {α : Type}

/-- The table after its keys have been set, one after the other. -/
def Table.ofKeys (l : List (Key × α)) : Table α :=
  l.foldl (fun t e => t.set (e.1.name text) e.2) .empty

namespace Table

@[simp]
theorem set_entry (t : Table α) (k k' : List UInt16) (x : α) :
    (t.set k x).entry k' = if k' = k then some x else t.entry k' := by
  by_cases hk : k = units "__proto__"
  · simp only [set, entry, hk, if_true]
    split <;> rfl
  · by_cases hk' : k' = units "__proto__"
    · simp [set, entry, hk, hk', Ne.symm hk]
    · by_cases he : k' = k
      · simp [set, entry, hk, he]
      · simp [set, entry, hk, hk', he, List.lookup_cons, beq_false_of_ne he]

variable {text}

/-- What is set at a name is one of what its keys stand for. -/
theorem ofKeys_mem {l : List (Key × α)} {nm : List UInt16} {x : α}
    (h : (ofKeys text l).entry nm = some x) : ∃ e ∈ l, e.1.name text = nm ∧ e.2 = x := by
  induction l using List.reverseRecOn with
  | nil => simp [ofKeys, empty, entry] at h
  | append_singleton l e ih =>
    simp only [ofKeys, List.foldl_append, List.foldl_cons, List.foldl_nil, set_entry] at h
    split at h
    · next hn => exact ⟨e, by simp, hn.symm, Option.some.inj h⟩
    · obtain ⟨e', he, h⟩ := ih h
      exact ⟨e', by simp [he], h⟩

variable (text) in
theorem ofKeys_entry {l : List (Key × α)} {e : Key × α} (h : e ∈ l) :
    ∃ x, (ofKeys text l).entry (e.1.name text) = some x := by
  induction l using List.reverseRecOn with
  | nil => cases h
  | append_singleton l e' ih =>
    simp only [ofKeys, List.foldl_append, List.foldl_cons, List.foldl_nil, set_entry]
    split
    · exact ⟨_, rfl⟩
    · next hn =>
      rcases List.mem_append.mp h with h | h
      · exact ih h
      · simp only [List.mem_singleton] at h
        exact absurd (h ▸ rfl) hn

theorem get_entry {t : Table α} {field : String} {k : List UInt16} {x : α}
    (h : t.entry k = some x) : t.get field k = .entry x := by
  simp [get, h]

theorem entry_of_get {t : Table α} {field : String} {k : List UInt16} {x : α}
    (h : t.get field k = .entry x) : t.entry k = some x := by
  unfold get at h
  split at h
  · next hx => rwa [Found.entry.inj h] at hx
  · split at h
    · cases h
    · split at h <;> cases h

end Table

theorem looseEq_self {k : Key} (h : k ≠ .number .nan) : looseEq k k = true := by
  cases k with
  | string a => simp [looseEq]
  | number x => simpa [looseEq] using fun hx => h (congrArg Key.number hx)

end

-- ---------------------------------------------------------------------------
-- The condition
-- ---------------------------------------------------------------------------

section

variable (text : JsNumber → List UInt16)

/-- What a lookup of `k` in the table of the old keys has to find: the row of `k`, or nothing. -/
def Right (old : List Key) (k : Key) : Found Nat → Prop
  | .entry num => old[num]? = some k
  | .field i => i = 0
  | .member => False
  | .missing => True

instance (old : List Key) (k : Key) : (found : Found Nat) → Decidable (Right old k found)
  | .entry num => inferInstanceAs (Decidable (old[num]? = some k))
  | .field i => inferInstanceAs (Decidable (i = 0))
  | .member => inferInstanceAs (Decidable False)
  | .missing => inferInstanceAs (Decidable True)

variable {text} in
/-- A row that is found has a key of this name. -/
theorem lookup_name {old : List Key} {nm : List UInt16} {num : Nat}
    (h : (Table.ofKeys text old.zipIdx).get "num" nm = .entry num) :
    ∃ a, old[num]? = some a ∧ a.name text = nm := by
  obtain ⟨⟨a, i⟩, he, hn, rfl⟩ := Table.ofKeys_mem (Table.entry_of_get h)
  exact ⟨a, List.mem_zipIdx_iff_getElem?.mp he, hn⟩

theorem lookup_old {old : List Key} {k : Key} (hk : k ∈ old) :
    ∃ num, (Table.ofKeys text old.zipIdx).get "num" (k.name text) = .entry num := by
  obtain ⟨i, hi, rfl⟩ := List.mem_iff_getElem.mp hk
  have he : (old[i], i) ∈ old.zipIdx :=
    List.mem_zipIdx_iff_getElem?.mpr (List.getElem?_eq_getElem hi)
  obtain ⟨num, hn⟩ := Table.ofKeys_entry text he
  exact ⟨num, Table.get_entry hn⟩

/-- Each key of an entry is compared with the first old key that is still to come, and is looked
up if it is another key. -/
def Told (old : List Key) : List Key → Prop
  | [] => True
  | k :: ks =>
    (∀ p ∈ old.find? (· ∈ k :: ks), (looseEq k p → k = p) ∧
      (k ≠ p → Right old k ((Table.ofKeys text old.zipIdx).get "num" (k.name text)))) ∧
    Told old ks

instance (old : List Key) : (ks : List Key) → Decidable (Told text old ks)
  | [] => inferInstanceAs (Decidable True)
  | k :: ks =>
    have := instDecidableTold old ks
    inferInstanceAs (Decidable ((∀ p ∈ old.find? (· ∈ k :: ks), _) ∧ Told text old ks))

variable {text} in
theorem told_cons {old : List Key} {k a : Key} {ks : List Key}
    (h : old.find? (· ∈ k :: ks) = some a) :
    Told text old (k :: ks) ↔ ((looseEq k a → k = a) ∧
      (k ≠ a → Right old k ((Table.ofKeys text old.zipIdx).get "num" (k.name text)))) ∧
      Told text old ks := by
  rw [Told, h]
  simp

variable {text} in
theorem told_cons_none {old : List Key} {k : Key} {ks : List Key}
    (h : old.find? (· ∈ k :: ks) = none) : Told text old (k :: ks) ↔ Told text old ks := by
  rw [Told, h]
  simp

/-- The code tells the old keys and the new ones apart where it has to. -/
structure Distinguished (old : List Key) (new : List (Key × JsData)) : Prop where
  vanished : ∀ a ∈ old, isNew text (.ofKeys text new) a → a ∈ new.map Prod.fst
  told : Told text old (new.map Prod.fst)

instance (old : List Key) (new : List (Key × JsData)) : Decidable (Distinguished text old new) :=
  decidable_of_iff ((∀ a ∈ old, isNew text (.ofKeys text new) a → a ∈ new.map Prod.fst) ∧
    Told text old (new.map Prod.fst)) ⟨fun h => ⟨h.1, h.2⟩, fun h => ⟨h.vanished, h.told⟩⟩

end


-- ---------------------------------------------------------------------------
-- The document
-- ---------------------------------------------------------------------------

theorem mem_insertBefore {n m : Node} {ref : Option Node} {list : List Node} :
    m ∈ insertBefore n ref list ↔ m = n ∨ m ∈ list := by
  have he : m = n ∨ m ∈ list.erase n ↔ m = n ∨ m ∈ list := by
    by_cases hm : m = n
    · simp [hm]
    · simp [hm, List.mem_erase_of_ne hm]
  rw [← he]
  cases ref with
  | none => simp [insertBefore, or_comm]
  | some r =>
    have hw := List.takeWhile_append_dropWhile (p := (· ≠ r)) (l := list.erase n)
    conv_rhs => rw [← hw]
    simp only [insertBefore, List.mem_append, List.mem_cons]
    tauto

/-- A node that is not before `r` gets there. -/
theorem insertBefore_mid {A B : List Node} {n r : Node} (hl : (A ++ r :: B).Nodup) (hn : n ∉ A)
    (hr : n ≠ r) : insertBefore n (some r) (A ++ r :: B) = A ++ n :: r :: B.erase n := by
  have hA : ∀ a ∈ A, a ≠ r := fun a ha => (List.nodup_append.mp hl).2.2 a ha r List.mem_cons_self
  have hc : List.erase (r :: B) n = r :: B.erase n := List.erase_cons_tail (by simpa using hr.symm)
  have ht : List.takeWhile (· ≠ r) (A ++ r :: B.erase n) = A := by
    rw [List.takeWhile_append_of_pos (by simpa using hA)]
    simp
  have hd : List.dropWhile (· ≠ r) (A ++ r :: B.erase n) = r :: B.erase n := by
    rw [List.dropWhile_append_of_pos (by simpa using hA)]
    simp
  simp only [insertBefore, List.erase_append_right _ hn, hc, ht, hd]

theorem insertBefore_head {A B : List Node} {n : Node} (hl : (A ++ B).Nodup) (hA : n ∉ A)
    (hB : n ∉ B) : insertBefore n B.head? (A ++ B) = A ++ n :: B := by
  cases B with
  | nil => simp [insertBefore, List.erase_of_not_mem hA]
  | cons r B =>
    simp only [List.mem_cons, not_or] at hB
    rw [List.head?_cons, insertBefore_mid hl hA hB.1, List.erase_of_not_mem hB.2]

theorem nodup_insertBefore (n : Node) (ref : Option Node) {list : List Node} (hl : list.Nodup) :
    (insertBefore n ref list).Nodup := by
  have he : n ∉ list.erase n := hl.not_mem_erase
  cases ref with
  | none =>
    refine List.nodup_append.mpr ⟨hl.erase n, by simp, ?_⟩
    simpa using fun a ha => ne_of_mem_of_not_mem ha he
  | some r =>
    have hw := List.takeWhile_append_dropWhile (p := (· ≠ r)) (l := list.erase n)
    have hn := hl.erase n
    rw [← hw] at hn he
    simp only [insertBefore]
    exact List.nodup_middle.mpr (List.nodup_cons.mpr ⟨he, hn⟩)

-- ---------------------------------------------------------------------------
-- The rows that are still to come
-- ---------------------------------------------------------------------------

theorem index_unique {β : Type} {olds : List (Key × Node)} {f : Key × Node → β} {a b : Nat}
    {p q : Key × Node} (hd : (olds.map f).Nodup) (hp : olds[a]? = some p) (hq : olds[b]? = some q)
    (he : f p = f q) : a = b :=
  (List.getElem?_inj (by simpa using (List.getElem?_eq_some_iff.mp hp).1) hd).mp
    (by simp [hp, hq, he])

/-- The nodes of the rows whose keys are still to come. -/
def pending (olds : List (Key × Node)) (ks : List Key) : List Node :=
  (olds.filter (·.1 ∈ ks)).map Prod.snd

theorem pending_new {olds : List (Key × Node)} {k : Key} {ks : List Key}
    (hk : ∀ p ∈ olds, p.1 ≠ k) : pending olds (k :: ks) = pending olds ks := by
  unfold pending
  congr 1
  exact List.filter_congr fun p hp => by simp [hk p hp]

theorem mem_pending {olds : List (Key × Node)} {ks : List Key} {n : Node} :
    n ∈ pending olds ks ↔ ∃ k ∈ ks, (k, n) ∈ olds := by
  simp only [pending, List.mem_map, List.mem_filter, decide_eq_true_eq, Prod.exists]
  constructor
  · rintro ⟨k, m, ⟨hp, hk⟩, rfl⟩
    exact ⟨k, hk, hp⟩
  · rintro ⟨k, hk, hp⟩
    exact ⟨k, n, ⟨hp, hk⟩, rfl⟩

theorem pending_old {olds : List (Key × Node)} {k : Key} {ks : List Key} {n : Node}
    (hd : (olds.map Prod.fst).Nodup) (hn : (olds.map Prod.snd).Nodup) (hp : (k, n) ∈ olds)
    (hk : k ∉ ks) : pending olds ks = (pending olds (k :: ks)).erase n := by
  induction olds with
  | nil => cases hp
  | cons p olds ih =>
    simp only [List.map_cons, List.nodup_cons] at hd hn
    rcases List.mem_cons.mp hp with rfl | hp
    · have hne : ∀ q ∈ olds, q.1 ≠ k := fun q hq he =>
        hd.1 (List.mem_map.mpr ⟨q, hq, he⟩)
      have h : pending olds (k :: ks) = pending olds ks := pending_new hne
      simp only [pending] at h ⊢
      simpa [hk] using h.symm
    · have h1 : p.1 ≠ k := fun he => hd.1 (List.mem_map.mpr ⟨_, hp, he.symm⟩)
      have h2 : p.2 ≠ n := fun he => hn.1 (List.mem_map.mpr ⟨_, hp, he.symm⟩)
      have ih := ih hd.2 hn.2 hp
      simp only [pending] at ih ⊢
      by_cases hm : p.1 ∈ ks
      · simp [hm, ih, List.erase_cons_tail, h2]
      · simp [hm, h1, ih]

theorem pending_first {olds : List (Key × Node)} {ks : List Key} {j : Nat} {p : Key × Node}
    (hj : olds[j]? = some p) (hp : p.1 ∈ ks)
    (hpast : ∀ num q, num < j → olds[num]? = some q → q.1 ∉ ks) :
    (olds.map Prod.fst).find? (· ∈ ks) = some p.1 ∧
      ∃ rest, pending olds ks = p.2 :: rest := by
  induction olds generalizing j with
  | nil => simp at hj
  | cons q olds ih =>
    cases j with
    | zero =>
      cases hj
      exact ⟨by simp [hp], pending olds ks, by simp [pending, hp]⟩
    | succ j =>
      have hq : q.1 ∉ ks := hpast 0 q (by simp) rfl
      have ⟨h1, h2⟩ := ih hj fun num r hn hr => hpast (num + 1) r (by simpa using hn) (by simpa)
      exact ⟨by simpa [hq] using h1, by simpa [pending, hq] using h2⟩

theorem pending_none {olds : List (Key × Node)} {ks : List Key}
    (h : ∀ p ∈ olds, p.1 ∉ ks) : pending olds ks = [] := by
  rw [pending, List.filter_eq_nil_iff.mpr (by simpa using h), List.map_nil]

-- ---------------------------------------------------------------------------
-- The loop over the entries
-- ---------------------------------------------------------------------------

section

variable {text : JsNumber → List UInt16} {i_key : String} {olds : List (Key × Node)}
  {hd ft : List Node} {made : Nat}

/-- What the loop does with an entry at an old row. -/
theorem merge_cons {old_keys : Table Nat} {x : JsData} {tbl : List JsData} {j n : Nat}
    {rows new : List Row} {s : GtTable} {r : List Row × GtTable}
    (h : merge text i_key old_keys (x :: tbl) j (n + 1) rows new s = some r) :
    (∀ e, rows[j]? ≠ some (.row e false)) ∧
        merge text i_key old_keys (x :: tbl) (j + 1) n rows new s = some r ∨
      ∃ e k a, rows[j]? = some (.row e false) ∧ i_getKey i_key x = some k ∧
        i_getKey i_key (s.panes e).gtTable_target = some a ∧
        (looseEq k a ∧ merge text i_key old_keys tbl (j + 1) n rows (new ++ [Row.row e false])
            (s.retarget e x) = some r ∨
          ¬looseEq k a ∧
            ((∃ num m remove, old_keys.get "num" (k.name text) = .entry num ∧
                rows[num]? = some (.row m remove) ∧
                merge text i_key old_keys tbl j (n + 1) (rows.set num .moved)
                  (new ++ [Row.row m remove])
                  ((s.moveDOM m ((rows.set num .moved)[j]?.bind Row.uiObject)).retarget m x) =
                  some r) ∨
              (old_keys.get "num" (k.name text) = .missing ∨
                old_keys.get "num" (k.name text) = .field 0) ∧
                merge text i_key old_keys tbl j (n + 1) rows (new ++ [Row.row s.fresh false])
                  (s.makeRow (some e) x) = some r)) := by
  rw [merge] at h
  obtain ⟨k, hk, h⟩ := Option.bind_eq_some_iff.mp h
  split at h
  · next e he =>
    refine .inr ⟨e, k, ?_⟩
    obtain ⟨a, ha, h⟩ := Option.bind_eq_some_iff.mp h
    refine ⟨a, he, hk, ha, ?_⟩
    split at h
    · next hl => exact .inl ⟨hl, h⟩
    · next hl =>
      refine .inr ⟨hl, ?_⟩
      split at h
      · next num hnum =>
        dsimp only at h
        split at h
        · next m remove hm => exact .inl ⟨num, m, remove, hnum, hm, h⟩
        · cases h
      · cases h
      · next i hi =>
        split at h
        · cases h
        · next h0 =>
          obtain rfl : i = 0 := not_not.mp h0
          exact .inr ⟨.inr hi, h⟩
      · next hi => exact .inr ⟨.inl hi, h⟩
  · next hj => exact .inl ⟨fun e he => hj e he, h⟩

theorem mem_makeRow {s : GtTable} {m : Node} {ref : Option Node} {x : JsData}
    (hm : m ∈ s.i_uiList) : m ∈ (s.makeRow ref x).i_uiList :=
  mem_insertBefore.mpr (.inr hm)

/-- The loop places rows behind those that have been placed, and takes no node from the list. -/
theorem merge_frame {old_keys : Table Nat} {tbl : List JsData} {j n : Nat}
    {rows new new' : List Row} {s s' : GtTable}
    (h : merge text i_key old_keys tbl j n rows new s = some (new', s')) :
    new <+: new' ∧ s.i_uiList ⊆ s'.i_uiList ∧ s'.i_key = s.i_key := by
  induction tbl, j, n, rows, new, s using merge.induct with
  | case1 =>
    rw [merge] at h
    cases h
    exact ⟨List.prefix_rfl, List.Subset.refl _, rfl⟩
  | case2 x tbl j rows new s ih =>
    rw [merge] at h
    obtain ⟨hp, hl, hk⟩ := ih h
    exact ⟨(List.prefix_append _ _).trans hp, fun m hm => hl (mem_makeRow hm), hk⟩
  | case3 x tbl j n rows new s ih_keep ih_move ih_make ih_skip =>
    rcases merge_cons h with ⟨-, h⟩ | ⟨e, k, a, -, -, -, ⟨-, h⟩ | ⟨-, ⟨num, m, remove, -, -, h⟩ |
      ⟨-, h⟩⟩⟩
    · exact ih_skip h
    · obtain ⟨hp, hl, hk⟩ := ih_keep e h
      exact ⟨(List.prefix_append _ _).trans hp, hl, hk⟩
    · obtain ⟨hp, hl, hk⟩ := ih_move num m remove h
      exact ⟨(List.prefix_append _ _).trans hp,
        fun m' hm => hl (mem_insertBefore.mpr (.inr hm)), hk⟩
    · obtain ⟨hp, hl, hk⟩ := ih_make e h
      exact ⟨(List.prefix_append _ _).trans hp, fun m hm => hl (mem_makeRow hm), hk⟩

/-- The row `n` has been placed for the entry `x`: it is the one that the key has had, or one that
has been made. -/
structure Placed (i_key : String) (olds : List (Key × Node)) (made : Nat) (s : GtTable)
    (x : JsData) (n : Node) : Prop where
  target : (s.panes n).target = x
  gtTable_target : (s.panes n).gtTable_target = x
  source : ∀ k, i_getKey i_key x = some k → (k, n) ∈ olds ∨ made ≤ n ∧ ∀ p ∈ olds, p.1 ≠ k

/-- The loop has placed the rows `pl` for the first entries, the entries `tbl` with the keys `ks`
are left. -/
structure Merging (i_key : String) (olds : List (Key × Node)) (hd ft : List Node) (made : Nat)
    (pl : List (JsData × Node)) (ks : List Key) (tbl : List JsData) (j : Nat) (rows new : List Row)
    (s : GtTable) : Prop where
  keys : tbl.map (i_getKey i_key) = ks.map some
  distinct : ks.Nodup
  valid : .number .nan ∉ ks
  past : ∀ (num : Nat) (p : Key × Node), num < j → olds[num]? = some p → p.1 ∉ ks
  live : ∀ (num : Nat) (p : Key × Node), j ≤ num → olds[num]? = some p →
    (rows[num]? = some (.row p.2 false) ↔ p.1 ∈ ks)
  stays : ∀ (num : Nat) (p : Key × Node), olds[num]? = some p →
    rows[num]? = some .moved ∨ ∃ remove, rows[num]? = some (.row p.2 remove)
  rows_length : rows.length = olds.length
  bound : ∀ p ∈ olds, p.1 ∈ ks → i_getKey i_key (s.panes p.2).gtTable_target = some p.1
  new : new = pl.map fun q => .row q.2 false
  list : s.i_uiList = hd ++ pl.map Prod.snd ++ (pending olds ks ++ ft)
  nodup : s.i_uiList.Nodup
  fresh : ∀ n ∈ s.i_uiList, n < s.fresh
  made_le : made ≤ s.fresh
  last : s.i_lastPoint = ft.head?
  placed : ∀ q ∈ pl, Placed i_key olds made s q.1 q.2

namespace Merging

variable {pl : List (JsData × Node)} {k : Key} {ks : List Key} {x : JsData} {tbl : List JsData}
  {j n : Nat} {rows new : List Row} {s : GtTable}

theorem key (h : Merging i_key olds hd ft made pl (k :: ks) (x :: tbl) j rows new s) :
    i_getKey i_key x = some k :=
  (List.cons_eq_cons.mp h.keys).1

/-- The row at `j` is not one that is still to come. -/
theorem skip (h : Merging i_key olds hd ft made pl ks tbl j rows new s)
    (hj : ∀ n, rows[j]? ≠ some (.row n false)) :
    Merging i_key olds hd ft made pl ks tbl (j + 1) rows new s where
  __ := h
  past num p hn hp := by
    rcases Nat.lt_succ_iff_lt_or_eq.mp hn with hn | rfl
    · exact h.past num p hn hp
    · exact fun hk => hj p.2 ((h.live num p (Nat.le_refl _) hp).mpr hk)
  live num p hn hp := h.live num p (Nat.le_of_succ_le hn) hp

/-- The row at `j` is the first one that is still to come. -/
theorem first (h : Merging i_key olds hd ft made pl ks tbl j rows new s)
    (hj : rows[j]? = some (.row n false)) :
    ∃ a, olds[j]? = some (a, n) ∧ a ∈ ks ∧ (olds.map Prod.fst).find? (· ∈ ks) = some a ∧
      ∃ rest, pending olds ks = n :: rest := by
  have hlt : j < olds.length := h.rows_length ▸ (List.getElem?_eq_some_iff.mp hj).1
  obtain ⟨⟨a, m⟩, hp⟩ : ∃ p, olds[j]? = some p := ⟨_, List.getElem?_eq_getElem hlt⟩
  have hm : m = n := by
    rcases h.stays j _ hp with hs | ⟨remove, hs⟩
    · simp [hj] at hs
    · simp only [hj, Option.some.injEq, Row.row.injEq] at hs
      exact hs.1.symm
  subst hm
  have hk : a ∈ ks := (h.live j _ (Nat.le_refl _) hp).mp hj
  exact ⟨a, hp, hk, pending_first hp hk h.past⟩

/-- No row is still to come when the loop is behind the rows. -/
theorem nothing (h : Merging i_key olds hd ft made pl ks tbl j rows new s)
    (hj : olds.length ≤ j) : ∀ p ∈ olds, p.1 ∉ ks := by
  intro p hp
  obtain ⟨num, hnum, rfl⟩ := List.mem_iff_getElem.mp hp
  exact h.past num _ (Nat.lt_of_lt_of_le hnum hj) (List.getElem?_eq_getElem hnum)

/-- The row `n` is placed for the entry `x`. -/
theorem place {rows' : List Row} {j' : Nat} {s' : GtTable}
    (h : Merging i_key olds hd ft made pl (k :: ks) (x :: tbl) j rows new s)
    (hlist : s'.i_uiList = hd ++ pl.map Prod.snd ++ n :: (pending olds ks ++ ft))
    (hnodup : s'.i_uiList.Nodup) (hlt : ∀ m ∈ s'.i_uiList, m < s'.fresh)
    (hfresh : s.fresh ≤ s'.fresh) (hlast : s'.i_lastPoint = s.i_lastPoint)
    (hpanes : ∀ m, m ≠ n → s'.panes m = s.panes m)
    (htarget : (s'.panes n).target = x ∧ (s'.panes n).gtTable_target = x)
    (hsource : (k, n) ∈ olds ∨ made ≤ n ∧ ∀ p ∈ olds, p.1 ≠ k)
    (hpast : ∀ (num : Nat) (p : Key × Node), num < j' → olds[num]? = some p → p.1 ∉ ks)
    (hlive : ∀ (num : Nat) (p : Key × Node), j' ≤ num → olds[num]? = some p →
      (rows'[num]? = some (.row p.2 false) ↔ p.1 ∈ ks))
    (hstays : ∀ (num : Nat) (p : Key × Node), olds[num]? = some p →
      rows'[num]? = some .moved ∨ ∃ remove, rows'[num]? = some (.row p.2 remove))
    (hlength : rows'.length = olds.length) :
    Merging i_key olds hd ft made (pl ++ [(x, n)]) ks tbl j' rows'
      (new ++ [Row.row n false]) s' := by
  have hd' := hlist ▸ hnodup
  simp only [List.nodup_append, List.nodup_cons, List.mem_append, not_or] at hd'
  refine ⟨(List.cons_eq_cons.mp h.keys).2, h.distinct.of_cons,
    fun hv => h.valid (List.mem_cons_of_mem _ hv), hpast, hlive, hstays, hlength, ?_,
    by simp [h.new], by simp [hlist], hnodup, hlt, h.made_le.trans hfresh, hlast.trans h.last, ?_⟩
  · intro p hp hk
    have hm : p.2 ∈ pending olds ks := mem_pending.mpr ⟨p.1, hk, hp⟩
    rw [hpanes p.2 fun he => hd'.2.1.1.1 (he ▸ hm)]
    exact h.bound p hp (List.mem_cons_of_mem _ hk)
  · intro q hq
    rcases List.mem_append.mp hq with hq | hq
    · have hm : q.2 ∈ pl.map Prod.snd := List.mem_map_of_mem hq
      have he := hpanes q.2 fun he => hd'.2.2 q.2 (.inr hm) n List.mem_cons_self he
      have ⟨h1, h2, h3⟩ := h.placed q hq
      exact ⟨he ▸ h1, he ▸ h2, h3⟩
    · cases List.mem_singleton.mp hq
      refine ⟨htarget.1, htarget.2, fun k' hk' => ?_⟩
      cases h.key.symm.trans hk'
      exact hsource

/-- The first row that is still to come is the one of the entry. -/
theorem keep (hkeys : (olds.map Prod.fst).Nodup) (hnodes : (olds.map Prod.snd).Nodup)
    (h : Merging i_key olds hd ft made pl (k :: ks) (x :: tbl) j rows new s)
    (hj : rows[j]? = some (.row n false)) (hk : olds[j]? = some (k, n)) :
    Merging i_key olds hd ft made (pl ++ [(x, n)]) ks tbl (j + 1) rows (new ++ [Row.row n false])
      (s.retarget n x) := by
  have hnot : k ∉ ks := (List.nodup_cons.mp h.distinct).1
  have hmem : (k, n) ∈ olds := List.mem_of_getElem? hk
  have hpend : pending olds (k :: ks) = n :: pending olds ks := by
    obtain ⟨_, _, _, _, rest, hr⟩ := h.first hj
    rw [pending_old hkeys hnodes hmem hnot, hr, List.erase_cons_head]
  refine h.place (h.list.trans (by simp [hpend])) h.nodup h.fresh (Nat.le_refl _) rfl
    (fun m hm => by simp [retarget, setPane, hm]) (by simp [retarget, setPane]) (.inl hmem)
    ?_ ?_ h.stays h.rows_length
  · intro num p hn hp
    rcases Nat.lt_succ_iff_lt_or_eq.mp hn with hn | rfl
    · exact fun hm => h.past num p hn hp (List.mem_cons_of_mem _ hm)
    · cases hk.symm.trans hp
      exact hnot
  · intro num p hn hp
    have hne : p.1 ≠ k := fun he =>
      absurd (index_unique hkeys hp hk he) (Nat.ne_of_gt hn)
    simpa [hne] using h.live num p (Nat.le_of_succ_le hn) hp

/-- Another row that is still to come is the one of the entry: it gets before the first one. -/
theorem move {e m : Node} {a : Key} {num : Nat} (hkeys : (olds.map Prod.fst).Nodup)
    (hnodes : (olds.map Prod.snd).Nodup)
    (h : Merging i_key olds hd ft made pl (k :: ks) (x :: tbl) j rows new s)
    (hj : rows[j]? = some (.row e false)) (ha : olds[j]? = some (a, e)) (hne : k ≠ a)
    (hnum : olds[num]? = some (k, m)) :
    rows[num]? = some (.row m false) ∧
      Merging i_key olds hd ft made (pl ++ [(x, m)]) ks tbl j (rows.set num .moved)
        (new ++ [Row.row m false])
        ((s.moveDOM m ((rows.set num .moved)[j]?.bind Row.uiObject)).retarget m x) := by
  have hnot : k ∉ ks := (List.nodup_cons.mp h.distinct).1
  have hmem : (k, m) ∈ olds := List.mem_of_getElem? hnum
  have hle : j ≤ num := Nat.le_of_not_lt fun hlt =>
    h.past num _ hlt hnum List.mem_cons_self
  have hother : ∀ (i : Nat) (p : Key × Node), olds[i]? = some p → i ≠ num → p.1 ≠ k :=
    fun i p hp hi he => hi (index_unique hkeys hp hnum he)
  have hnum_lt : num < rows.length := h.rows_length ▸ (List.getElem?_eq_some_iff.mp hnum).1
  obtain ⟨_, _, _, _, rest, hr⟩ := h.first hj
  have hij : num ≠ j := by
    rintro rfl
    cases hnum.symm.trans ha
    exact hne rfl
  have hme : m ≠ e := fun he => hij (index_unique hnodes hnum ha he)
  have href : (rows.set num .moved)[j]?.bind Row.uiObject = some e := by
    simp [List.getElem?_set_ne hij, hj, Row.uiObject]
  rw [href]
  have hm : m ∈ rest := by
    have : m ∈ pending olds (k :: ks) := mem_pending.mpr ⟨k, List.mem_cons_self, hmem⟩
    simpa [hr, hme] using this
  have hpend : pending olds ks = e :: rest.erase m := by
    rw [pending_old hkeys hnodes hmem hnot, hr, List.erase_cons_tail (by simpa using hme.symm)]
  have hlist : s.i_uiList = (hd ++ pl.map Prod.snd) ++ e :: (rest ++ ft) := by
    rw [h.list, hr, List.cons_append]
  have hnodup := hlist ▸ h.nodup
  have hfront : m ∉ hd ++ pl.map Prod.snd := fun hf =>
    (List.nodup_append.mp hnodup).2.2 m hf m (by simp [hm]) rfl
  have hmoved : insertBefore m (some e) s.i_uiList =
      hd ++ pl.map Prod.snd ++ m :: (pending olds ks ++ ft) := by
    rw [hlist, insertBefore_mid hnodup hfront hme, List.erase_append_left _ hm, hpend,
      List.cons_append]
  have hin : m ∈ s.i_uiList := by simp [hlist, hm]
  refine ⟨(h.live num _ hle hnum).mpr List.mem_cons_self, h.place hmoved ?_ ?_ (Nat.le_refl _) rfl
    (fun m' hm' => by simp [retarget, setPane, moveDOM, hm']) (by simp [retarget, setPane])
    (.inl hmem) ?_ ?_ ?_ (by simp [h.rows_length])⟩
  · exact nodup_insertBefore m (some e) h.nodup
  · intro m' hm'
    replace hm' : m' ∈ insertBefore m (some e) s.i_uiList := hm'
    rcases mem_insertBefore.mp hm' with rfl | hm'
    · exact h.fresh _ hin
    · exact h.fresh _ hm'
  · intro i p hi hp hm
    exact h.past i p hi hp (List.mem_cons_of_mem _ hm)
  · intro i p hi hp
    rw [List.getElem?_set]
    split
    · next he =>
      cases he
      cases hnum.symm.trans hp
      simp [hnot]
    · next he => simpa [hother i p hp (Ne.symm he)] using h.live i p hi hp
  · intro i p hp
    rw [List.getElem?_set]
    split
    · exact .inl (by simp [*])
    · exact h.stays i p hp

/-- The entry's key is new: a row is made. -/
theorem make (ref : Option Node) (hold : ∀ p ∈ olds, p.1 ≠ k)
    (h : Merging i_key olds hd ft made pl (k :: ks) (x :: tbl) j rows new s)
    (href : ref = (pending olds (k :: ks) ++ ft).head?) :
    Merging i_key olds hd ft made (pl ++ [(x, s.fresh)]) ks tbl j rows
      (new ++ [Row.row s.fresh false]) (s.makeRow ref x) := by
  have hpend : pending olds (k :: ks) = pending olds ks := pending_new hold
  have hnot : s.fresh ∉ s.i_uiList := fun hm => Nat.lt_irrefl _ (h.fresh _ hm)
  have hlist := h.list
  rw [hpend] at hlist href
  rw [hlist] at hnot
  simp only [List.mem_append, not_or] at hnot
  have hmade : insertBefore s.fresh ref s.i_uiList =
      hd ++ pl.map Prod.snd ++ s.fresh :: (pending olds ks ++ ft) := by
    rw [hlist, href]
    exact insertBefore_head (hlist ▸ h.nodup) (by simp [hnot]) (by simp [hnot])
  have hks : ∀ p ∈ olds, p.1 ∈ k :: ks ↔ p.1 ∈ ks := fun p hp => by simp [hold p hp]
  refine h.place hmade (nodup_insertBefore _ _ h.nodup) ?_ (Nat.le_succ _) rfl
    (fun m hm => by simp [makeRow, appendDOMformat, setPane, hm])
    (by simp [makeRow, appendDOMformat, setPane]) (.inr ⟨h.made_le, hold⟩) ?_ ?_ h.stays
    h.rows_length
  · intro m hm
    rcases mem_insertBefore.mp hm with rfl | hm
    · exact Nat.lt_succ_self _
    · exact Nat.lt_succ_of_lt (h.fresh _ hm)
  · intro num p hn hp
    exact fun hm => h.past num p hn hp (List.mem_cons_of_mem _ hm)
  · intro num p hn hp
    rw [← hks p (List.mem_of_getElem? hp)]
    exact h.live num p hn hp

/-- The end of the loop: the rows are placed. -/
theorem done (hkeys : (olds.map Prod.fst).Nodup) (hnodes : (olds.map Prod.snd).Nodup)
    (h : Merging i_key olds hd ft made pl ks tbl j rows new s) (hn : j + n = olds.length)
    (htold : Told text (olds.map Prod.fst) ks) :
    ∃ pl' s' j' rows' new', merge text i_key (.ofKeys text (olds.map Prod.fst).zipIdx) tbl j n rows
        new s = some (new', s') ∧
      Merging i_key olds hd ft made pl' [] [] j' rows' new' s' ∧
      pl'.map Prod.fst = pl.map Prod.fst ++ tbl := by
  induction tbl, j, n, rows, new, s using merge.induct generalizing pl ks with
  | case1 j n rows new s =>
    obtain rfl : ks = [] := by simpa using h.keys.symm
    exact ⟨pl, s, j, rows, new, by rw [merge], h, by simp⟩
  | case2 x tbl j rows new s ih =>
    obtain _ | ⟨k, ks⟩ := ks
    · simpa using h.keys
    have hnone := h.nothing (Nat.le_of_eq hn.symm)
    have hold : ∀ p ∈ olds, p.1 ≠ k := fun p hp he => hnone p hp (by simp [he])
    have hm := h.make s.i_lastPoint hold (by simp [h.last, pending_none hnone])
    obtain ⟨pl', s', j', rows', new', he, hM, hpl⟩ := ih hm hn htold.2
    exact ⟨pl', s', j', rows', new', by rwa [merge], hM, by simpa using hpl⟩
  | case3 x tbl j n rows new s ih_keep ih_move ih_make ih_skip =>
    obtain _ | ⟨k, ks⟩ := ks
    · simpa using h.keys
    by_cases hj : ∃ e, rows[j]? = some (.row e false)
    · obtain ⟨e, hj⟩ := hj
      obtain ⟨a, ha, hmem, hfind, rest, hrest⟩ := h.first hj
      have hbound := h.bound _ (List.mem_of_getElem? ha) hmem
      obtain ⟨hloose, hright⟩ := htold.1 a hfind
      simp only [merge, h.key, hj, hbound, Option.bind_some]
      by_cases hka : k = a
      · subst hka
        obtain ⟨pl', s', j', rows', new', he, hM, hpl⟩ :=
          ih_keep e (h.keep hkeys hnodes hj ha) (by omega) htold.2
        have hself := looseEq_self fun he => h.valid (he ▸ List.mem_cons_self)
        exact ⟨pl', s', j', rows', new', by simpa [hself] using he, hM, by simpa using hpl⟩
      rw [if_neg fun he => hka (hloose he)]
      by_cases hk : k ∈ olds.map Prod.fst
      · obtain ⟨num, hnum⟩ := lookup_old text hk
        have hright := hright hka
        simp only [hnum, Right, List.getElem?_map, Option.map_eq_some_iff, Prod.exists,
          exists_and_right, exists_eq_right] at hright ⊢
        obtain ⟨m, hm⟩ := hright
        obtain ⟨hrow, hM⟩ := h.move hkeys hnodes hj ha hka hm
        obtain ⟨pl', s', j', rows', new', he, hM, hpl⟩ := ih_move num m false hM hn htold.2
        exact ⟨pl', s', j', rows', new', by simpa [hrow] using he, hM, by simpa using hpl⟩
      · have hold : ∀ p ∈ olds, p.1 ≠ k := fun p hp he => hk (he ▸ List.mem_map_of_mem hp)
        have hM := h.make (some e) hold (by simp [hrest])
        obtain ⟨pl', s', j', rows', new', he, hM, hpl⟩ := ih_make e hM hn htold.2
        refine ⟨pl', s', j', rows', new', ?_, hM, by simpa using hpl⟩
        rw [← he]
        have hright := hright hka
        generalize (Table.ofKeys text _).get "num" _ = found at hright
        cases found with
        | entry num => exact absurd (List.mem_of_getElem? hright) hk
        | field i => exact if_neg (not_not_intro hright)
        | member => exact absurd hright id
        | missing => rfl
    · have hM := h.skip fun e he => hj ⟨e, he⟩
      obtain ⟨pl', s', j', rows', new', he, hM, hpl⟩ := ih_skip hM (by omega) htold
      refine ⟨pl', s', j', rows', new', ?_, hM, hpl⟩
      rw [merge, h.key, Option.bind_some]
      split
      · next e he => exact absurd ⟨e, he⟩ hj
      · exact he

variable (nk : List Key) (olds) in
/-- One of the entries with the keys `ks` has the row of another key, from the place `i` on. -/
def Mistaken (new' : List Row) (i : Nat) (ks : List Key) : Prop :=
  ∃ (b : Nat) (k : Key) (p : Key × Node) (remove : Bool), ks[b]? = some k ∧
    new'[i + b]? = some (.row p.2 remove) ∧ p ∈ olds ∧ p.1 ≠ k ∧
    (p.1 ∈ nk ∨ k ∈ olds.map Prod.fst)

theorem Mistaken.cons {nk : List Key} {new' : List Row} {i : Nat}
    (h : Mistaken olds nk new' (i + 1) ks) : Mistaken olds nk new' i (k :: ks) := by
  obtain ⟨b, k, p, remove, hb, hrow, h⟩ := h
  exact ⟨b + 1, k, p, remove, by simpa using hb, by rwa [Nat.add_comm b, ← Nat.add_assoc], h⟩

theorem Mistaken.head {nk : List Key} {new' : List Row} {a : Key} {remove : Bool}
    (hp : (a, n) ∈ olds) (hne : a ≠ k) (hk : a ∈ nk ∨ k ∈ olds.map Prod.fst)
    (hnew : new ++ [Row.row n remove] <+: new') : Mistaken olds nk new' new.length (k :: ks) :=
  ⟨0, k, (a, n), remove, rfl, by simpa using List.prefix_iff_getElem?.mp hnew new.length (by simp),
    hp, hne, hk⟩

/-- If a key is not told apart, an entry gets the row of another key. -/
theorem mistaken {nk : List Key} {new' : List Row} {s' : GtTable}
    (hkeys : (olds.map Prod.fst).Nodup) (hnodes : (olds.map Prod.snd).Nodup)
    (h : Merging i_key olds hd ft made pl ks tbl j rows new s) (hn : j + n = olds.length)
    (hsub : ks ⊆ nk)
    (hname : ∀ p ∈ olds, ∀ k ∈ nk, p.1.name text = k.name text → p.1 ∈ nk)
    (htold : ¬Told text (olds.map Prod.fst) ks)
    (hm : merge text i_key (.ofKeys text (olds.map Prod.fst).zipIdx) tbl j n rows new s =
      some (new', s')) : Mistaken olds nk new' new.length ks := by
  induction tbl, j, n, rows, new, s using merge.induct generalizing pl ks with
  | case1 j n rows new s =>
    obtain rfl : ks = [] := by simpa using h.keys.symm
    exact absurd trivial htold
  | case2 x tbl j rows new s ih =>
    obtain _ | ⟨k, ks⟩ := ks
    · simpa using h.keys
    have hnone := h.nothing (Nat.le_of_eq hn.symm)
    have hold : ∀ p ∈ olds, p.1 ≠ k := fun p hp he => hnone p hp (by simp [he])
    have hM := h.make s.i_lastPoint hold (by simp [h.last, pending_none hnone])
    have hfind : (olds.map Prod.fst).find? (· ∈ k :: ks) = none := by
      simpa using fun a n hp => hnone (a, n) hp
    rw [merge] at hm
    have := ih hM hn (List.subset_of_cons_subset hsub) 
      (fun ht => htold ((told_cons_none hfind).mpr ht)) hm
    exact .cons (by simpa using this)
  | case3 x tbl j n rows new s ih_keep ih_move ih_make ih_skip =>
    obtain _ | ⟨k, ks⟩ := ks
    · simpa using h.keys
    have hsub' := List.subset_of_cons_subset hsub
    rcases merge_cons hm with ⟨hj, hm⟩ | ⟨e, k', a', hj, hk', ha', hm⟩
    · exact ih_skip (h.skip hj) (by omega) hsub htold hm
    obtain ⟨a, ha, hmem, hfind, rest, hrest⟩ := h.first hj
    cases h.key.symm.trans hk'
    cases (h.bound _ (List.mem_of_getElem? ha) hmem).symm.trans ha'
    rcases hm with ⟨-, hm⟩ | ⟨hloose, ⟨num, m, remove, hnum, hrow, hm⟩ | ⟨hget, hm⟩⟩
    · by_cases hka : k = a
      · subst hka
        have htold : ¬Told text (olds.map Prod.fst) ks := fun ht =>
          htold ((told_cons hfind).mpr ⟨⟨fun _ => rfl, fun hne => absurd rfl hne⟩, ht⟩)
        have := ih_keep e (h.keep hkeys hnodes hj ha) (by omega) hsub' htold hm
        exact .cons (by simpa using this)
      · exact .head (List.mem_of_getElem? ha) (Ne.symm hka) (.inl (hsub hmem)) (merge_frame hm).1
    · have hka : k ≠ a := fun he => hloose (he ▸ looseEq_self fun hv =>
        h.valid (hv ▸ List.mem_cons_self))
      obtain ⟨b, hb, hname'⟩ := lookup_name hnum
      obtain ⟨⟨b, m'⟩, hp, rfl⟩ : ∃ p, olds[num]? = some p ∧ p.1 = b := by simpa using hb
      obtain rfl : m = m' := by simpa [hrow] using h.stays num _ hp
      by_cases hbk : b = k
      · subst hbk
        obtain ⟨hrow', hM⟩ := h.move hkeys hnodes hj ha hka hp
        cases hrow.symm.trans hrow'
        have htold : ¬Told text (olds.map Prod.fst) ks := fun ht =>
          htold ((told_cons hfind).mpr ⟨⟨fun hl => absurd hl hloose, fun _ => by
            simpa [hnum, Right] using hb⟩, ht⟩)
        have := ih_move num m false hM hn hsub' htold hm
        exact .cons (by simpa using this)
      · have hmem := List.mem_of_getElem? hp
        exact .head hmem hbk (.inl (hname _ hmem k (hsub List.mem_cons_self) hname'))
          (merge_frame hm).1
    · have hk : k ∉ olds.map Prod.fst := by
        intro hk
        obtain ⟨num, hnum⟩ := lookup_old text hk
        simp [hnum] at hget
      have hold : ∀ p ∈ olds, p.1 ≠ k := fun p hp he => hk (he ▸ List.mem_map_of_mem hp)
      have hM := h.make (some e) hold (by simp [hrest])
      have hright : Right (olds.map Prod.fst) k
          ((Table.ofKeys text (olds.map Prod.fst).zipIdx).get "num" (k.name text)) := by
        rcases hget with hget | hget <;> simp [hget, Right]
      have htold : ¬Told text (olds.map Prod.fst) ks := fun ht =>
        htold ((told_cons hfind).mpr ⟨⟨fun hl => absurd hl hloose, fun _ => hright⟩, ht⟩)
      have := ih_make e hM hn hsub' htold hm
      exact .cons (by simpa using this)

end Merging

end

end TinyState.Js.GtTable
