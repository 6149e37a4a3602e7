import TinyState.Js.GtTableMerge

/-!
# Updates of gtTable

When an update gives a table a row for each entry. Without keys it does where no row is added.
With keys it does where the code tells the keys apart that it compares and looks up.
-/

namespace TinyState.Js.GtTable

open PigPath

-- ---------------------------------------------------------------------------
-- The other loops
-- ---------------------------------------------------------------------------

/-- What the environments of several nodes get. -/
def setPanes (l : List (Node × (Pane → Pane))) (s : GtTable) : GtTable :=
  l.foldl (fun s e => s.setPane e.1 e.2) s

theorem setPanes_eq (l : List (Node × (Pane → Pane))) (s : GtTable) :
    setPanes l s = { s with panes := (setPanes l s).panes } := by
  induction l generalizing s with
  | nil => rfl
  | cons e l ih => exact ih (s.setPane e.1 e.2)

theorem setPanes_of_not_mem {l : List (Node × (Pane → Pane))} {n : Node}
    (h : n ∉ l.map Prod.fst) (s : GtTable) : (setPanes l s).panes n = s.panes n := by
  induction l generalizing s with
  | nil => rfl
  | cons e l ih =>
    simp only [List.map_cons, List.mem_cons, not_or] at h
    exact (ih h.2 _).trans (Function.update_of_ne h.1 ..)

theorem setPanes_of_mem {l : List (Node × (Pane → Pane))} {e : Node × (Pane → Pane)}
    (hl : (l.map Prod.fst).Nodup) (he : e ∈ l) (s : GtTable) :
    (setPanes l s).panes e.1 = e.2 (s.panes e.1) := by
  induction l generalizing s with
  | nil => cases he
  | cons e' l ih =>
    simp only [List.map_cons, List.nodup_cons] at hl
    rcases List.mem_cons.mp he with rfl | he
    · exact (setPanes_of_not_mem hl.1 _).trans (by simp [setPane])
    · have hne : e.1 ≠ e'.1 := fun h => hl.1 (h ▸ List.mem_map_of_mem he)
      exact (ih hl.2 he _).trans (by simp [setPane, hne])

@[simp]
theorem setPanes_i_uiList (l : List (Node × (Pane → Pane))) (s : GtTable) :
    (setPanes l s).i_uiList = s.i_uiList := by
  rw [setPanes_eq]

@[simp]
theorem setPanes_i_activeTable (l : List (Node × (Pane → Pane))) (s : GtTable) :
    (setPanes l s).i_activeTable = s.i_activeTable := by
  rw [setPanes_eq]

@[simp]
theorem setPanes_fresh (l : List (Node × (Pane → Pane))) (s : GtTable) :
    (setPanes l s).fresh = s.fresh := by
  rw [setPanes_eq]

@[simp]
theorem setPanes_i_lastPoint (l : List (Node × (Pane → Pane))) (s : GtTable) :
    (setPanes l s).i_lastPoint = s.i_lastPoint := by
  rw [setPanes_eq]

/-- What no update of a node changes stays as it is. -/
theorem setPanes_kept {β : Type} {f : Pane → β} {l : List (Node × (Pane → Pane))}
    (h : ∀ e ∈ l, ∀ p, f (e.2 p) = f p) (s : GtTable) (n : Node) :
    f ((setPanes l s).panes n) = f (s.panes n) := by
  induction l generalizing s with
  | nil => rfl
  | cons e l ih =>
    refine (ih (fun e he => h e (List.mem_cons_of_mem _ he)) _).trans ?_
    by_cases hn : n = e.1
    · subst hn
      simpa [setPane] using h e List.mem_cons_self _
    · simp [setPane, hn]

/-- The indexes that a list of nodes gets. -/
def indexes (nodes : List Node) : List (Node × (Pane → Pane)) :=
  nodes.zipIdx.map fun e => (e.1, fun p => { p with index := some e.2 })

theorem indexes_bound {nodes : List Node} (hn : nodes.Nodup) (s : GtTable) :
    nodes.map (fun n => ((setPanes (indexes nodes) s).panes n).index) =
      (List.range nodes.length).map some := by
  have hf : (indexes nodes).map Prod.fst = nodes := by
    simp [indexes, Function.comp_def, List.zipIdx_map_fst]
  refine List.ext_getElem (by simp) fun i h _ => ?_
  have hi : i < nodes.length := by simpa using h
  have he : (nodes[i], fun p : Pane => { p with index := some i }) ∈ indexes nodes :=
    List.mem_map.mpr ⟨(nodes[i], i), List.mk_mem_zipIdx_iff_getElem?.mpr (by simp [hi]), rfl⟩
  have ht := setPanes_of_mem (by rwa [hf]) he s
  simp only at ht
  simp [ht]

theorem indexes_kept {β : Type} {f : Pane → β} (hf : ∀ p i, f { p with index := i } = f p)
    (nodes : List Node) (s : GtTable) (n : Node) :
    f ((setPanes (indexes nodes) s).panes n) = f (s.panes n) := by
  refine setPanes_kept (fun e he p => ?_) s n
  obtain ⟨e, -, rfl⟩ := List.mem_map.mp he
  exact hf p _

/-- Rows, none of which has been moved. -/
def rowsOf (nodes : List Node) : List Row := nodes.map fun n => .row n false

theorem bindIndexes_eq (nodes : List Node) (i : Nat) (s : GtTable) :
    bindIndexes (rowsOf nodes) i s = some (setPanes ((nodes.zipIdx i).map fun e =>
      (e.1, fun p => { p with index := some e.2 })) s) := by
  induction nodes generalizing i s with
  | nil => rfl
  | cons n nodes ih => exact ih (i + 1) _

theorem rebind_eq (nodes : List Node) (tbl : List JsData) (i : Nat) (s : GtTable) :
    rebind (rowsOf nodes) tbl i s = some (setPanes (((nodes.zip tbl).zipIdx i).map fun e =>
      (e.1.1, fun p => { p with target := e.1.2, index := some e.2 })) s) := by
  induction nodes generalizing tbl i s with
  | nil => cases tbl <;> rfl
  | cons n nodes ih =>
    cases tbl with
    | nil => rfl
    | cons x tbl => exact ih tbl (i + 1) _

theorem removeRows_eq (nodes : List Node) (s : GtTable) :
    removeRows (rowsOf nodes) s = some { s with i_uiList := s.i_uiList.diff nodes } := by
  induction nodes generalizing s with
  | nil => simp [rowsOf, removeRows]
  | cons n nodes ih =>
    rw [List.diff_cons]
    exact ih _

theorem newKeys_eq {text : JsNumber → List UInt16} {i_key : String} {tbl : List JsData}
    {ks : List Key} (h : tbl.map (i_getKey i_key) = ks.map some) (t : Table JsData) :
    newKeys text i_key tbl t =
      some ((ks.zip tbl).foldl (fun t e => t.set (e.1.name text) e.2) t) := by
  induction tbl generalizing ks t with
  | nil => simp [newKeys]
  | cons x tbl ih =>
    obtain _ | ⟨k, ks⟩ := ks
    · simp at h
    obtain ⟨hk, h⟩ := List.cons_eq_cons.mp h
    rw [newKeys, hk]
    exact ih h _

theorem oldKeys_eq {text : JsNumber → List UInt16} {i_key : String} {new_keys : Table JsData}
    {olds : List (Key × Node)} {s : GtTable}
    (h : ∀ p ∈ olds, i_getKey i_key (s.panes p.2).gtTable_target = some p.1) (i : Nat)
    (t : Table Nat) (rows : List Row) :
    oldKeys text i_key new_keys (rowsOf (olds.map Prod.snd)) i (t, rows, s) =
      some (((olds.map Prod.fst).zipIdx i).foldl (fun t e => t.set (e.1.name text) e.2) t,
        rows ++ olds.map fun p => .row p.2 (!isNew text new_keys p.1),
        { s with
          i_uiList := s.i_uiList.diff
            ((olds.filter fun p => !isNew text new_keys p.1).map Prod.snd) }) := by
  induction olds generalizing i t rows s with
  | nil => simp [rowsOf, oldKeys]
  | cons p olds ih =>
    have hp := h p List.mem_cons_self
    have ih := fun s hs => @ih s hs (i + 1) (t.set (p.1.name text) i)
    simp only [rowsOf, List.map_cons, oldKeys, hp, Option.bind_some]
    split
    · next hnew =>
      refine (ih s (fun q hq => h q (List.mem_cons_of_mem _ hq)) _).trans ?_
      simp [hnew]
    · next hnew =>
      refine (ih (s.removeDOM p.2) (fun q hq => h q (List.mem_cons_of_mem _ hq)) _).trans ?_
      simp [hnew, removeDOM, List.diff_cons]

-- ---------------------------------------------------------------------------
-- Updates
-- ---------------------------------------------------------------------------

/-- The list shows the rows, between its header and its footer. -/
structure Shown (s : GtTable) (hd nodes ft : List Node) : Prop where
  rows : s.i_activeTable = rowsOf nodes
  list : s.i_uiList = hd ++ nodes ++ ft
  nodup : s.i_uiList.Nodup
  fresh : ∀ n ∈ s.i_uiList, n < s.fresh
  last : s.i_lastPoint = ft.head?

/-- The rows show the entries in their order, a key that was there has the row that it had, and
the row of one that is there no more is gone. -/
structure Updated {κ : Type} (s' : GtTable) (hd nodes nodes' ft : List Node) (tbl : List JsData)
    (old new : List κ) : Prop where
  shown : Shown s' hd nodes' ft
  target : nodes'.map (fun n => (s'.panes n).target) = tbl
  index : nodes'.map (fun n => (s'.panes n).index) = (List.range tbl.length).map some
  same : ∀ k n, (k, n) ∈ old.zip nodes → k ∈ new → (k, n) ∈ new.zip nodes'
  gone : ∀ k n, (k, n) ∈ old.zip nodes → k ∉ new → n ∉ s'.i_uiList

/-- The update does what it is for. -/
def Updates {κ : Type} (text : JsNumber → List UInt16) (s : GtTable) (d : List JsData)
    (hd nodes ft : List Node) (old new : List κ) : Prop :=
  ∃ s' nodes', s.ACT_KEY_1 text d = some s' ∧
    Updated s' hd nodes nodes' ft (i_tbl s.i_null d) old new

theorem Updated.length {κ : Type} {s' : GtTable} {hd nodes nodes' ft : List Node}
    {tbl : List JsData} {old new : List κ} (h : Updated s' hd nodes nodes' ft tbl old new) :
    nodes'.length = tbl.length := by
  simpa using congrArg List.length h.target

/-- The rows and the entries have keys: strings or numbers, and no two the same. -/
structure Keyed (s : GtTable) (nodes : List Node) (tbl : List JsData) (old new : List Key) :
    Prop where
  rows : nodes.map (fun n => i_getKey s.i_key (s.panes n).gtTable_target) = old.map some
  entries : tbl.map (i_getKey s.i_key) = new.map some
  old_nodup : old.Nodup
  new_nodup : new.Nodup
  valid : Key.number .nan ∉ new

section

variable {text : JsNumber → List UInt16} {s : GtTable} {hd nodes ft : List Node}
  {tbl : List JsData} {old new : List Key}

theorem isNew_of_mem {news : List (Key × JsData)} {a : Key} {e : Key × JsData} (he : e ∈ news)
    (ha : a.name text = e.1.name text) : isNew text (.ofKeys text news) a := by
  obtain ⟨x, hx⟩ := Table.ofKeys_entry text he
  simp [isNew, ha, Table.get_entry hx]

theorem diff_mid {A B C gone : List Node} (hl : (A ++ B ++ C).Nodup) (hg : gone ⊆ B) :
    (A ++ B ++ C).diff gone = A ++ (B.diff gone ++ C) := by
  have hl' := hl
  simp only [List.nodup_append, List.mem_append] at hl'
  obtain ⟨⟨-, hB, hAB⟩, -, hC⟩ := hl'
  have hA : A.filter (· ∉ gone) = A :=
    List.filter_eq_self.mpr fun a ha => by simpa using fun h => hAB a ha a (hg h) rfl
  have hC' : C.filter (· ∉ gone) = C :=
    List.filter_eq_self.mpr fun c hc => by simpa using fun h => hC c (.inr (hg h)) c hc rfl
  rw [hl.sdiff_eq_filter, hB.sdiff_eq_filter, List.filter_append, List.filter_append, hA, hC',
    List.append_assoc]

theorem pending_eq_diff {olds : List (Key × Node)} {ks : List Key} {gone : Key → Bool}
    (hnodes : (olds.map Prod.snd).Nodup) (hg : ∀ p ∈ olds, gone p.1 ↔ p.1 ∉ ks) :
    (olds.map Prod.snd).diff ((olds.filter fun p => gone p.1).map Prod.snd) = pending olds ks := by
  rw [hnodes.sdiff_eq_filter, List.filter_map, pending]
  congr 1
  refine List.filter_congr fun p hp => ?_
  have : p.2 ∈ (olds.filter fun p => gone p.1).map Prod.snd ↔ gone p.1 := by
    constructor
    · intro hm
      obtain ⟨q, hq, he⟩ := List.mem_map.mp hm
      obtain ⟨hq, hgone⟩ := List.mem_filter.mp hq
      rwa [List.inj_on_of_nodup_map hnodes hq hp he] at hgone
    · exact fun hgone => List.mem_map_of_mem (List.mem_filter.mpr ⟨hp, hgone⟩)
  have hg := hg p hp
  simp only [Function.comp_apply, this, hg, not_not]

/-- The rows of the keys that are there no more have left the list. -/
def cleared (text : JsNumber → List UInt16) (s : GtTable) (olds : List (Key × Node))
    (news : List (Key × JsData)) : GtTable :=
  { s with
    i_uiList := s.i_uiList.diff
      ((olds.filter fun p => !isNew text (.ofKeys text news) p.1).map Prod.snd) }

/-- The state in which the loop over the entries starts. -/
theorem Merging.start {olds : List (Key × Node)} {news : List (Key × JsData)}
    (hnodes : (olds.map Prod.snd).Nodup)
    (hs : Shown s hd (olds.map Prod.snd) ft)
    (hb : ∀ p ∈ olds, i_getKey s.i_key (s.panes p.2).gtTable_target = some p.1)
    (hn : ∀ e ∈ news, i_getKey s.i_key e.2 = some e.1) (hd' : (news.map Prod.fst).Nodup)
    (hv : .number .nan ∉ news.map Prod.fst)
    (hvan : ∀ a ∈ olds.map Prod.fst, isNew text (.ofKeys text news) a → a ∈ news.map Prod.fst) :
    Merging s.i_key olds hd ft s.fresh [] (news.map Prod.fst) (news.map Prod.snd) 0
      (olds.map fun p => .row p.2 (!isNew text (.ofKeys text news) p.1)) []
      (cleared text s olds news) := by
  have hnew : ∀ p ∈ olds, isNew text (.ofKeys text news) p.1 ↔ p.1 ∈ news.map Prod.fst := by
    intro p hp
    refine ⟨hvan _ (List.mem_map_of_mem hp), fun hm => ?_⟩
    obtain ⟨e, he, hk⟩ := List.mem_map.mp hm
    exact isNew_of_mem he (hk ▸ rfl)
  have hsub : (olds.filter fun p => !isNew text (.ofKeys text news) p.1).map Prod.snd ⊆
      olds.map Prod.snd := List.map_subset _ (List.filter_sublist.subset)
  refine ⟨?_, hd', hv, fun num p h => absurd h (Nat.not_lt_zero num), ?_, ?_, by simp, ?_, rfl, ?_,
    hs.nodup.diff, ?_, Nat.le_refl _, hs.last, nofun⟩
  · simpa using fun k x h => hn (k, x) h
  · intro num p _ hp
    simpa [hp] using hnew p (List.mem_of_getElem? hp)
  · intro num p hp
    exact .inr ⟨_, by rw [List.getElem?_map, hp]; rfl⟩
  · exact fun p hp _ => hb p hp
  · have hp : _ = pending olds (news.map Prod.fst) :=
      @pending_eq_diff olds _ (fun a => !isNew text (.ofKeys text news) a) hnodes fun p hp => by
        rw [← hnew p hp, Bool.not_eq_true', Bool.not_eq_true]
    simp only [cleared, hs.list, diff_mid (hs.list ▸ hs.nodup) hsub, hp]
    simp
  · exact fun n hn => hs.fresh n (List.diff_subset _ _ hn)

theorem bindIndexes_frame {rows : List Row} {i : Nat} {s' : GtTable}
    (h : bindIndexes rows i s = some s') : s' = { s with panes := s'.panes } := by
  induction rows generalizing i s with
  | nil =>
    cases h
    rfl
  | cons row rows ih =>
    cases row with
    | row n remove =>
      have ih := @ih (s.setPane n fun p => { p with index := some i }) (i + 1) h
      exact ih
    | moved => cases h

theorem ACT_KEY_2_eq {olds : List (Key × Node)} {news : List (Key × JsData)}
    (hrows : s.i_activeTable = rowsOf (olds.map Prod.snd))
    (hb : ∀ p ∈ olds, i_getKey s.i_key (s.panes p.2).gtTable_target = some p.1)
    (hn : ∀ e ∈ news, i_getKey s.i_key e.2 = some e.1) :
    s.ACT_KEY_2 text (news.map Prod.snd) =
      (merge text s.i_key (.ofKeys text (olds.map Prod.fst).zipIdx) (news.map Prod.snd) 0
        olds.length (olds.map fun p => .row p.2 (!isNew text (.ofKeys text news) p.1)) []
        (cleared text s olds news)).bind fun r =>
          bindIndexes r.1 0 { r.2 with i_activeTable := r.1 } := by
  have hkeys : (news.map Prod.snd).map (i_getKey s.i_key) = (news.map Prod.fst).map some := by
    simpa using fun k x h => hn (k, x) h
  have hzip : (news.map Prod.fst).zip (news.map Prod.snd) = news := by simp [List.zip_map']
  rw [ACT_KEY_2, newKeys_eq hkeys, hzip, hrows]
  simp only [Option.bind_eq_bind, Option.bind_some, oldKeys_eq hb, List.nil_append,
    List.length_map]
  rfl

namespace Merging

variable {i_key : String} {olds : List (Key × Node)} {news : List (Key × JsData)} {made : Nat}
  {pl : List (JsData × Node)} {j : Nat} {rows new : List Row}

/-- In the end a key that was there has its row. -/
theorem kept (h : Merging i_key olds hd ft made pl [] [] j rows new s)
    (hkeys : (olds.map Prod.fst).Nodup) (hpl : pl.map Prod.fst = news.map Prod.snd)
    (hn : ∀ e ∈ news, i_getKey i_key e.2 = some e.1) (k : Key) (n : Node) (ho : (k, n) ∈ olds)
    (hk : k ∈ news.map Prod.fst) : (k, n) ∈ (news.map Prod.fst).zip (pl.map Prod.snd) := by
  obtain ⟨⟨k, x⟩, he, rfl⟩ := List.mem_map.mp hk
  obtain ⟨i, hi⟩ := List.mem_iff_getElem?.mp he
  have hx : (pl.map Prod.fst)[i]? = some x := by simp [hpl, hi]
  obtain ⟨⟨x, m⟩, hm, rfl⟩ := by simpa only [List.getElem?_map, Option.map_eq_some_iff] using hx
  refine List.mem_iff_getElem?.mpr ⟨i, List.getElem?_zip_eq_some.mpr ⟨by simp [hi], ?_⟩⟩
  rcases (h.placed _ (List.mem_of_getElem? hm)).source k (hn _ he) with ho' | ⟨-, hnot⟩
  · cases List.inj_on_of_nodup_map hkeys ho ho' rfl
    simp [hm]
  · exact absurd rfl (hnot _ ho)

/-- In the end the row of a key that is there no more is not in the list. -/
theorem gone {s₀ : GtTable} (h : Merging i_key olds hd ft s₀.fresh pl [] [] j rows new s)
    (hnodes : (olds.map Prod.snd).Nodup) (hs : Shown s₀ hd (olds.map Prod.snd) ft)
    (hpl : pl.map Prod.fst = news.map Prod.snd)
    (hn : ∀ e ∈ news, i_getKey i_key e.2 = some e.1) (k : Key) (n : Node) (ho : (k, n) ∈ olds)
    (hk : k ∉ news.map Prod.fst) : n ∉ s.i_uiList := by
  have hmem : n ∈ olds.map Prod.snd := List.mem_map_of_mem ho
  have hl := hs.list ▸ hs.nodup
  simp only [List.nodup_append, List.mem_append] at hl
  rw [h.list, pending_none (by simp)]
  simp only [List.mem_append, List.nil_append, not_or]
  refine ⟨⟨fun hm => hl.1.2.2 n hm n hmem rfl, fun hm => ?_⟩,
    fun hm => hl.2.2 n (.inr hmem) n hm rfl⟩
  obtain ⟨⟨x, m⟩, hq, rfl⟩ := List.mem_map.mp hm
  obtain ⟨⟨k', x⟩, he, rfl⟩ := List.mem_map.mp (hpl ▸ List.mem_map_of_mem hq)
  rcases (h.placed _ hq).source k' (hn _ he) with ho' | ⟨hle, -⟩
  · cases List.inj_on_of_nodup_map hnodes ho ho' rfl
    exact hk (List.mem_map_of_mem he)
  · refine absurd (hs.fresh m ?_) (Nat.not_lt_of_le hle)
    rw [hs.list]
    simp [hmem]

end Merging

/-- Where the code tells the keys apart, an update does what it is for. -/
theorem updated_of_told {olds : List (Key × Node)} {news : List (Key × JsData)}
    (hkeys : (olds.map Prod.fst).Nodup) (hs : Shown s hd (olds.map Prod.snd) ft)
    (hb : ∀ p ∈ olds, i_getKey s.i_key (s.panes p.2).gtTable_target = some p.1)
    (hn : ∀ e ∈ news, i_getKey s.i_key e.2 = some e.1) (hd' : (news.map Prod.fst).Nodup)
    (hv : .number .nan ∉ news.map Prod.fst)
    (hc : Distinguished text (olds.map Prod.fst) news) :
    ∃ s' nodes', s.ACT_KEY_2 text (news.map Prod.snd) = some s' ∧
      Updated s' hd (olds.map Prod.snd) nodes' ft (news.map Prod.snd) (olds.map Prod.fst)
        (news.map Prod.fst) ∧
      nodes'.map (fun n => (s'.panes n).gtTable_target) = news.map Prod.snd ∧
      s'.i_key = s.i_key := by
  have hl := hs.list ▸ hs.nodup
  have hnodes : (olds.map Prod.snd).Nodup :=
    (List.nodup_append.mp (List.nodup_append.mp hl).1).2.1
  have hzip : (olds.map Prod.fst).zip (olds.map Prod.snd) = olds := by simp [List.zip_map']
  have hstart := Merging.start hnodes hs hb hn hd' hv hc.vanished
  obtain ⟨pl, s₂, j, rows, new, hmerge, hM, hpl⟩ :=
    hstart.done hkeys hnodes (Nat.zero_add _) hc.told
  rw [ACT_KEY_2_eq hs.rows hb hn]
  simp only [hmerge, Option.bind_some]
  have hnew : new = rowsOf (pl.map Prod.snd) := by simp [hM.new, rowsOf]
  have hnodup := hM.nodup
  rw [hM.list, pending_none (by simp), List.nil_append] at hnodup
  have hpl_nodup := (List.nodup_append.mp (List.nodup_append.mp hnodup).1).2.1
  have hpl' : pl.map Prod.fst = news.map Prod.snd := hpl
  have hlength : (pl.map Prod.snd).length = (news.map Prod.snd).length := by
    simpa using congrArg List.length hpl'
  rw [hnew, bindIndexes_eq]
  refine ⟨_, pl.map Prod.snd, rfl, ⟨⟨?_, ?_, ?_, ?_, ?_⟩, ?_, ?_, ?_, ?_⟩, ?_, ?_⟩
  · simp
  · simp [hM.list, pending_none]
  · simpa using hM.nodup
  · simpa using hM.fresh
  · simpa using hM.last
  · rw [← hpl', List.map_map]
    refine List.map_congr_left fun q hq => ?_
    exact (indexes_kept (f := Pane.target) (fun _ _ => rfl) _ _ _).trans (hM.placed q hq).target
  · rw [← hlength]
    exact indexes_bound hpl_nodup _
  · rw [hzip]
    exact hM.kept hkeys hpl' hn
  · rw [hzip, setPanes_i_uiList]
    exact hM.gone hnodes hs hpl' hn
  · rw [← hpl', List.map_map]
    refine List.map_congr_left fun q hq => ?_
    exact (indexes_kept (f := Pane.gtTable_target) (fun _ _ => rfl) _ _ _).trans
      (hM.placed q hq).gtTable_target
  · rw [setPanes_eq]
    exact (merge_frame hmerge).2.2

/-- Where it does not, some row is not the one of its entry, or is left over. -/
theorem told_of_updated {olds : List (Key × Node)} {news : List (Key × JsData)} {s' : GtTable}
    {nodes' : List Node} (hkeys : (olds.map Prod.fst).Nodup)
    (hs : Shown s hd (olds.map Prod.snd) ft)
    (hb : ∀ p ∈ olds, i_getKey s.i_key (s.panes p.2).gtTable_target = some p.1)
    (hn : ∀ e ∈ news, i_getKey s.i_key e.2 = some e.1) (hd' : (news.map Prod.fst).Nodup)
    (hv : .number .nan ∉ news.map Prod.fst)
    (h : s.ACT_KEY_2 text (news.map Prod.snd) = some s')
    (hU : Updated s' hd (olds.map Prod.snd) nodes' ft (news.map Prod.snd) (olds.map Prod.fst)
      (news.map Prod.fst)) : Distinguished text (olds.map Prod.fst) news := by
  have hl := hs.list ▸ hs.nodup
  have hnodes : (olds.map Prod.snd).Nodup :=
    (List.nodup_append.mp (List.nodup_append.mp hl).1).2.1
  have hzip : (olds.map Prod.fst).zip (olds.map Prod.snd) = olds := by simp [List.zip_map']
  have hnodes' : nodes'.Nodup :=
    (List.nodup_append.mp (List.nodup_append.mp (hU.shown.list ▸ hU.shown.nodup)).1).2.1
  rw [ACT_KEY_2_eq hs.rows hb hn] at h
  obtain ⟨⟨new', s₂⟩, hmerge, hbind⟩ := Option.bind_eq_some_iff.mp h
  have hframe := bindIndexes_frame hbind
  have hlist : s'.i_uiList = s₂.i_uiList := by rw [hframe]
  have hnew : new' = rowsOf nodes' := by
    rw [← hU.shown.rows, hframe]
  have hvan : ∀ a ∈ olds.map Prod.fst, isNew text (.ofKeys text news) a →
      a ∈ news.map Prod.fst := by
    intro a ha hisnew
    by_contra hnot
    obtain ⟨⟨a, n⟩, hp, rfl⟩ := List.mem_map.mp ha
    have hin : n ∈ s.i_uiList := by
      simp [hs.list, List.mem_map_of_mem (f := Prod.snd) hp]
    have hout : n ∉ (olds.filter fun p => !isNew text (.ofKeys text news) p.1).map Prod.snd := by
      intro hm
      obtain ⟨q, hq, he⟩ := List.mem_map.mp hm
      obtain ⟨hq, hgone⟩ := List.mem_filter.mp hq
      cases List.inj_on_of_nodup_map hnodes hq hp he
      simp [hisnew] at hgone
    have hmem : n ∈ (cleared text s olds news).i_uiList := hs.nodup.mem_sdiff_iff.mpr ⟨hin, hout⟩
    exact hU.gone a n (hzip.symm ▸ hp) hnot (hlist ▸ (merge_frame hmerge).2.1 hmem)
  refine ⟨hvan, ?_⟩
  by_contra htold
  have hname : ∀ p ∈ olds, ∀ k ∈ news.map Prod.fst, p.1.name text = k.name text →
      p.1 ∈ news.map Prod.fst := by
    intro p hp k hk he
    obtain ⟨e, hin, rfl⟩ := List.mem_map.mp hk
    exact hvan _ (List.mem_map_of_mem hp) (isNew_of_mem hin he)
  obtain ⟨b, k, ⟨a, n⟩, remove, hb, hrow, hp, hne, hor⟩ :=
    (Merging.start hnodes hs hb hn hd' hv hvan).mistaken hkeys hnodes (Nat.zero_add _)
      (List.Subset.refl _) hname htold hmerge
  obtain ⟨hnode, -⟩ : nodes'[b]? = some n ∧ remove = false := by simpa [hnew, rowsOf] using hrow
  rcases hor with ha | hk
  · -- the key of the row has two places
    have hsame := hU.same a n (hzip.symm ▸ hp) ha
    obtain ⟨c, hc⟩ := List.mem_iff_getElem?.mp hsame
    obtain ⟨hc, hcn⟩ := List.getElem?_zip_eq_some.mp hc
    have := (List.getElem?_inj (List.getElem?_eq_some_iff.mp hnode).1 hnodes').mp
      (hnode.trans hcn.symm)
    subst this
    exact hne (Option.some.inj (hc.symm.trans hb))
  · -- the entry's key has another row
    obtain ⟨⟨k, m⟩, hq, rfl⟩ := List.mem_map.mp hk
    have hsame := hU.same k m (hzip.symm ▸ hq) (List.mem_of_getElem? hb)
    obtain ⟨c, hc⟩ := List.mem_iff_getElem?.mp hsame
    obtain ⟨hc, hcm⟩ := List.getElem?_zip_eq_some.mp hc
    have := (List.getElem?_inj (List.getElem?_eq_some_iff.mp hb).1 hd').mp (hb.trans hc.symm)
    subst this
    cases Option.some.inj (hnode.symm.trans hcm)
    cases List.inj_on_of_nodup_map hnodes hp hq rfl
    exact hne rfl

-- ---------------------------------------------------------------------------
-- Without keys
-- ---------------------------------------------------------------------------

theorem mem_range_zip {l : List Node} {m k : Nat} {n : Node} (hm : l.length = m) :
    (k, n) ∈ (List.range m).zip l ↔ l[k]? = some n := by
  subst hm
  rw [List.mem_iff_getElem?]
  constructor
  · rintro ⟨i, hi⟩
    obtain ⟨hk, hn⟩ := List.getElem?_zip_eq_some.mp hi
    obtain rfl : i = k := by simpa using (List.getElem?_eq_some_iff.mp hk).2
    exact hn
  · intro hn
    have hk : k < l.length := (List.getElem?_eq_some_iff.mp hn).1
    exact ⟨k, List.getElem?_zip_eq_some.mpr ⟨by simp [hk], hn⟩⟩

theorem appendRows_prefix (tbl : List JsData) (s : GtTable) :
    s.i_activeTable <+: (tbl.foldl appendRow s).i_activeTable ∧
      ∀ n < s.fresh, (tbl.foldl appendRow s).panes n = s.panes n := by
  induction tbl generalizing s with
  | nil => exact ⟨List.prefix_rfl, fun _ _ => rfl⟩
  | cons x tbl ih =>
    obtain ⟨hrows, hpanes⟩ := ih (s.appendRow x)
    refine ⟨(List.prefix_append s.i_activeTable [.row s.fresh false]).trans hrows, fun n hn => ?_⟩
    refine (hpanes n (Nat.lt_succ_of_lt hn)).trans ?_
    exact Function.update_of_ne (Nat.ne_of_lt hn) ..

/-- The first row that is appended has no index. -/
theorem appendRows_cons (x : JsData) (tbl : List JsData) (s : GtTable) :
    (((x :: tbl).foldl appendRow s).i_activeTable)[s.i_activeTable.length]? =
        some (.row s.fresh false) ∧
      (((x :: tbl).foldl appendRow s).panes s.fresh).index = none := by
  obtain ⟨hrows, hpanes⟩ := appendRows_prefix tbl (s.appendRow x)
  constructor
  · exact List.prefix_iff_getElem?.mp hrows s.i_activeTable.length (by simp [appendRow])
      |>.trans (by simp [appendRow])
  · rw [List.foldl_cons, hpanes s.fresh (Nat.lt_succ_self _)]
    simp [appendRow, appendDOMformat]

/-- What the rows get that there are. -/
def entries (nodes : List Node) (tbl : List JsData) : List (Node × (Pane → Pane)) :=
  (nodes.zip tbl).zipIdx.map fun e =>
    (e.1.1, fun p => { p with target := e.1.2, index := some e.2 })

theorem entries_bound {nodes : List Node} {i : Nat} {n : Node} {x : JsData} (hn : nodes.Nodup)
    (hi : nodes[i]? = some n) (hx : tbl[i]? = some x) (s : GtTable) :
    ((setPanes (entries nodes tbl) s).panes n).target = x ∧
      ((setPanes (entries nodes tbl) s).panes n).index = some i := by
  have hf : (entries nodes tbl).map Prod.fst = (nodes.zip tbl).map Prod.fst := by
    rw [← List.zipIdx_map_fst 0 (nodes.zip tbl), entries, List.map_map, List.map_map]
    rfl
  have hsub : ((entries nodes tbl).map Prod.fst).Nodup := by
    rw [hf, List.zip_eq_zip_take_min, List.map_fst_zip (by simp)]
    exact hn.sublist (List.take_sublist ..)
  have he : (n, fun p : Pane => { p with target := x, index := some i }) ∈ entries nodes tbl :=
    List.mem_map.mpr ⟨((n, x), i),
      List.mk_mem_zipIdx_iff_getElem?.mpr (List.getElem?_zip_eq_some.mpr ⟨hi, hx⟩), rfl⟩
  have ht := setPanes_of_mem hsub he s
  simp only at ht
  simp [ht]

/-- Without keys an update does what it is for where it makes no row. -/
theorem places_iff {nodes : List Node} (hs : Shown s hd nodes ft) :
    (∃ s' nodes', s.matchPlaces tbl = some s' ∧ Updated s' hd nodes nodes' ft tbl
      (List.range nodes.length) (List.range tbl.length)) ↔ tbl.length ≤ nodes.length := by
  have hrebind : rebind s.i_activeTable tbl 0 s = some (setPanes (entries nodes tbl) s) := by
    rw [hs.rows, rebind_eq]
    rfl
  have hlength : s.i_activeTable.length = nodes.length := by simp [hs.rows, rowsOf]
  have hl := hs.list ▸ hs.nodup
  have hnodes : nodes.Nodup := (List.nodup_append.mp (List.nodup_append.mp hl).1).2.1
  simp only [matchPlaces, hrebind, Option.bind_eq_bind, Option.bind_some, setPanes_i_activeTable,
    hlength]
  constructor
  · rintro ⟨s', nodes', h, hU⟩
    by_contra hlt
    have hlt := Nat.lt_of_not_le hlt
    rw [if_pos hlt, List.drop_eq_getElem_cons hlt] at h
    obtain ⟨hrow, hindex⟩ := appendRows_cons tbl[nodes.length] (tbl.drop (nodes.length + 1))
      (setPanes (entries nodes tbl) s)
    rw [Option.some.inj h] at hrow hindex
    have hlast : nodes'[nodes.length]? = some s.fresh := by
      simpa [hU.shown.rows, rowsOf, hs.rows] using hrow
    rw [setPanes_fresh] at hindex
    have hbound := congrArg (·[nodes.length]?) hU.index
    simp [hlast, hindex, hlt] at hbound
  · intro hle
    rw [if_neg (Nat.not_lt_of_le hle), hs.rows, rowsOf, ← List.map_drop]
    have hbound := fun (i : Nat) (hi : i < tbl.length) =>
      entries_bound hnodes (List.getElem?_eq_getElem (Nat.lt_of_lt_of_le hi hle))
        (List.getElem?_eq_getElem hi) s
    have hlist : (hd ++ nodes ++ ft).diff (nodes.drop tbl.length) =
        hd ++ nodes.take tbl.length ++ ft := by
      have hsplit : hd ++ nodes ++ ft =
          hd ++ nodes.take tbl.length ++ nodes.drop tbl.length ++ ft := by
        simp only [List.append_assoc, List.append_cancel_left_eq]
        rw [← List.append_assoc, List.take_append_drop]
      rw [hsplit] at hl ⊢
      have hself : (nodes.drop tbl.length).diff (nodes.drop tbl.length) = [] := by
        simp [(hnodes.sublist (List.drop_sublist ..)).sdiff_eq_filter]
      rw [diff_mid hl (List.Subset.refl _), hself, List.nil_append]
    refine ⟨_, nodes.take tbl.length, by rw [← rowsOf, removeRows_eq, Option.bind_some],
      ⟨?_, ?_, ?_, ?_, ?_⟩, ?_, ?_, ?_, ?_⟩
    · simp [hs.rows, rowsOf, List.map_take]
    · simp only [setPanes_i_uiList, hs.list, hlist]
    · simpa using hs.nodup.diff
    · simpa using fun n hn => hs.fresh n (List.diff_subset _ _ hn)
    · simpa using hs.last
    · refine List.ext_getElem (by simp [hle]) fun i _ hi => ?_
      simpa using (hbound i hi).1
    · refine List.ext_getElem (by simp [hle]) fun i _ hi => ?_
      simpa using (hbound i (by simpa using hi)).2
    · intro k n ho hk
      rw [mem_range_zip rfl] at ho
      rw [mem_range_zip (by simp [hle]), List.getElem?_take, if_pos (List.mem_range.mp hk), ho]
    · intro k n ho hk
      rw [mem_range_zip rfl] at ho
      have hdrop : n ∈ nodes.drop tbl.length := by
        refine List.mem_iff_getElem?.mpr ⟨k - tbl.length, ?_⟩
        rw [List.getElem?_drop, Nat.add_sub_cancel' (by simpa using hk), ho]
      simp only [setPanes_i_uiList]
      rw [hs.nodup.mem_sdiff_iff]
      exact fun hn => hn.2 hdrop

-- ---------------------------------------------------------------------------
-- Both modes
-- ---------------------------------------------------------------------------

theorem Shown.withLength {nodes : List Node} (hs : Shown s hd nodes ft) (m : Nat) :
    Shown { s with gtTable_length := m } hd nodes ft :=
  ⟨hs.rows, hs.list, hs.nodup, hs.fresh, hs.last⟩

theorem Keyed.withLength {nodes : List Node} (hK : Keyed s nodes tbl old new) (m : Nat) :
    Keyed { s with gtTable_length := m } nodes tbl old new :=
  ⟨hK.rows, hK.entries, hK.old_nodup, hK.new_nodup, hK.valid⟩

/-- The rows with their keys. -/
theorem Keyed.olds {nodes : List Node} (hK : Keyed s nodes tbl old new) :
    ∃ olds : List (Key × Node), olds.map Prod.fst = old ∧ olds.map Prod.snd = nodes ∧
      ∀ p ∈ olds, i_getKey s.i_key (s.panes p.2).gtTable_target = some p.1 := by
  have hlength : nodes.length = old.length := by simpa using congrArg List.length hK.rows
  refine ⟨old.zip nodes, List.map_fst_zip hlength.ge, List.map_snd_zip hlength.le, fun p hp => ?_⟩
  obtain ⟨i, hi⟩ := List.mem_iff_getElem?.mp hp
  obtain ⟨hk, hn⟩ := List.getElem?_zip_eq_some.mp hi
  simpa [hk, hn] using congrArg (·[i]?) hK.rows

/-- The entries with their keys. -/
theorem Keyed.news {nodes : List Node} (hK : Keyed s nodes tbl old new) :
    ∃ news : List (Key × JsData), news.map Prod.fst = new ∧ news.map Prod.snd = tbl ∧
      ∀ e ∈ news, i_getKey s.i_key e.2 = some e.1 := by
  have hlength : tbl.length = new.length := by simpa using congrArg List.length hK.entries
  refine ⟨new.zip tbl, List.map_fst_zip hlength.ge, List.map_snd_zip hlength.le, fun e he => ?_⟩
  obtain ⟨i, hi⟩ := List.mem_iff_getElem?.mp he
  obtain ⟨hk, hx⟩ := List.getElem?_zip_eq_some.mp hi
  simpa [hk, hx] using congrArg (·[i]?) hK.entries

/-- With keys an update does what it is for where the code tells them apart. -/
theorem keys_iff {nodes : List Node} (hs : Shown s hd nodes ft)
    (hK : Keyed s nodes tbl old new) :
    (∃ s' nodes', s.ACT_KEY_2 text tbl = some s' ∧
        Updated s' hd nodes nodes' ft tbl old new) ↔ Distinguished text old (new.zip tbl) := by
  obtain ⟨olds, rfl, rfl, hb⟩ := hK.olds
  obtain ⟨news, rfl, rfl, hn⟩ := hK.news
  have hzip : (news.map Prod.fst).zip (news.map Prod.snd) = news := by simp [List.zip_map']
  rw [hzip]
  constructor
  · rintro ⟨s', nodes', h, hU⟩
    exact told_of_updated hK.old_nodup hs hb hn hK.new_nodup hK.valid h hU
  · intro hc
    obtain ⟨s', nodes', h, hU, -⟩ := updated_of_told hK.old_nodup hs hb hn hK.new_nodup hK.valid hc
    exact ⟨s', nodes', h, hU⟩

/-- Then the rows have the new keys, when the next array comes. -/
theorem keys_next {nodes : List Node} (hs : Shown s hd nodes ft) (hK : Keyed s nodes tbl old new)
    (hc : Distinguished text old (new.zip tbl)) :
    ∃ s' nodes', s.ACT_KEY_2 text tbl = some s' ∧ Shown s' hd nodes' ft ∧ s'.i_key = s.i_key ∧
      nodes'.map (fun n => i_getKey s'.i_key (s'.panes n).gtTable_target) = new.map some := by
  obtain ⟨olds, rfl, rfl, hb⟩ := hK.olds
  obtain ⟨news, rfl, rfl, hn⟩ := hK.news
  have hzip : (news.map Prod.fst).zip (news.map Prod.snd) = news := by simp [List.zip_map']
  obtain ⟨s', nodes', h, hU, htarget, hkey⟩ :=
    updated_of_told hK.old_nodup hs hb hn hK.new_nodup hK.valid (hzip ▸ hc)
  refine ⟨s', nodes', h, hU.shown, hkey, ?_⟩
  rw [← hK.entries, ← htarget, List.map_map, hkey]
  rfl

theorem updates_places (hkey : s.i_key = "none") {nodes : List Node} (hs : Shown s hd nodes ft)
    (d : List JsData) :
    Updates text s d hd nodes ft (List.range nodes.length) (List.range (i_tbl s.i_null d).length) ↔
      (i_tbl s.i_null d).length ≤ nodes.length := by
  simp only [Updates, ACT_KEY_1, ne_eq, hkey, not_true_eq_false, if_false]
  exact hkey ▸ places_iff (hs.withLength (i_tbl s.i_null d).length)

theorem updates_keys (hkey : s.i_key ≠ "none") {nodes : List Node} (hs : Shown s hd nodes ft)
    {d : List JsData} (hK : Keyed s nodes (i_tbl s.i_null d) old new) :
    Updates text s d hd nodes ft old new ↔
      Distinguished text old (new.zip (i_tbl s.i_null d)) := by
  simp only [Updates, ACT_KEY_1, ne_eq, hkey, not_false_eq_true, if_true]
  exact keys_iff (hs.withLength _) (hK.withLength _)

end

/-- When an update does what it is for: without keys where it makes no row, with keys where the
code tells apart the keys that it compares and looks up. -/
theorem updates_iff (text : JsNumber → List UInt16) {s : GtTable} {hd nodes ft : List Node}
    (hs : Shown s hd nodes ft) (d : List JsData) :
    (s.i_key = "none" →
      (Updates text s d hd nodes ft (List.range nodes.length)
          (List.range (i_tbl s.i_null d).length) ↔
        (i_tbl s.i_null d).length ≤ nodes.length)) ∧
    ∀ old new : List Key, s.i_key ≠ "none" → Keyed s nodes (i_tbl s.i_null d) old new →
      (Updates text s d hd nodes ft old new ↔
        Distinguished text old (new.zip (i_tbl s.i_null d))) :=
  ⟨fun hkey => updates_places hkey hs d, fun _ _ hkey hK => updates_keys hkey hs hK⟩

/-- A table behind a header, with a row for each of the keys `names`. -/
def table (i_key : String) (names : List String) : GtTable where
  i_key := i_key
  i_null := ""
  i_uiList := List.range (names.length + 1)
  i_lastPoint := none
  panes n :=
    let x := ((names[n - 1]?).map fun name => JsData.string (units name)).getD .undefined
    ⟨x, x, some (n - 1)⟩
  fresh := names.length + 1
  i_activeTable := rowsOf ((List.range names.length).map (· + 1))
  gtTable_length := names.length

def named (names : List String) : List JsData := names.map fun name => .string (units name)

def namedKeys (names : List String) : List Key := names.map fun name => .string (units name)

/-- A row leaves. -/
example : ((table "this" ["a", "b"]).ACT_KEY_1 (fun _ => []) (named ["b"])).map i_uiList =
    some [0, 2] := by
  decide +kernel

/-- Two rows change their places. -/
theorem updates_iff_swap : Updates (fun _ => []) (table "this" ["a", "b"]) (named ["b", "a"]) [0]
    [1, 2] [] (namedKeys ["a", "b"]) (namedKeys ["b", "a"]) :=
  ((updates_iff (fun _ => []) ⟨rfl, rfl, by decide, by decide, rfl⟩ (named ["b", "a"])).2 _ _
    (by decide) ⟨by decide +kernel, by decide +kernel, by decide +kernel, by decide +kernel,
      by decide +kernel⟩).mpr (by decide +kernel)

/-- The first row of a table gets no index, and the row of a key stays that every object has. -/
theorem updates_fail :
    (∃ s', (table "none" []).ACT_KEY_1 (fun _ => []) (named ["a"]) = some s' ∧
      s'.i_activeTable = [.row 1 false] ∧ (s'.panes 1).index = none) ∧
    ¬Updates (fun _ => []) (table "none" []) (named ["a"]) [0] [] [] (List.range 0)
      (List.range 1) ∧
    ((table "this" ["toString"]).ACT_KEY_1 (fun _ => []) (named ["a"])).map i_uiList =
      some [0, 2, 1] ∧
    ¬Updates (fun _ => []) (table "this" ["toString"]) (named ["a"]) [0] [1] []
      (namedKeys ["toString"]) (namedKeys ["a"]) := by
  have hstays : ((table "this" ["toString"]).ACT_KEY_1 (fun _ => []) (named ["a"])).map i_uiList =
      some [0, 2, 1] := by decide +kernel
  refine ⟨⟨_, rfl, rfl, rfl⟩, fun h => ?_, hstays, ?_⟩
  · exact absurd ((updates_places rfl ⟨rfl, rfl, by decide, by decide, rfl⟩ _).mp h) (by decide)
  · rintro ⟨s', nodes', h, hU⟩
    rw [h, Option.map_some, Option.some.injEq] at hstays
    exact hU.gone (.string (units "toString")) 1 (by decide +kernel) (by decide +kernel)
      (by simp [hstays])

end TinyState.Js.GtTable
