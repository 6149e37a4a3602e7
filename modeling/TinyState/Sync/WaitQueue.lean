import Mathlib.Algebra.Order.Ring.Int
import Mathlib.Data.Finset.Basic
import Mathlib.Data.List.Nodup

/-!
# Wait queues

The queues of the classes that make a tinyState wait: `stdQueue`, sorted by
keys, and `stdLimitSemaphoreWait`, the same order in buckets with an index
beside them.
-/

namespace TinyState

/-- `MAX_INTEGER64`. -/
def maxInteger64 : Int := 2 ^ 63 - 1

/-- `stdQueue<tinyState>`: the keys and the data, from the head on. -/
structure StdQueue (ω : Type) where
  list : List (Int × ω)
  insNeq : Bool

namespace StdQueue

variable {ω : Type}

/-- Whether the loop of `ins` breaks at an element with the key `k`. -/
def stops (insNeq : Bool) (k key : Int) : Bool := if insNeq then k > key else k ≥ key

/-- The place that the loop of `ins` finds. -/
def insSorted (insNeq : Bool) (key : Int) (data : ω) : List (Int × ω) → List (Int × ω)
  | [] => [(key, data)]
  | el :: rest =>
    if stops insNeq el.1 key then (key, data) :: el :: rest
    else el :: insSorted insNeq key data rest

def ins (q : StdQueue ω) (key : Int) (data : ω) : StdQueue ω :=
  { q with list :=
      if key = maxInteger64 then q.list ++ [(key, data)]
      else insSorted q.insNeq key data q.list }

def del (q : StdQueue ω) : Option (ω × StdQueue ω) :=
  match q.list with
  | [] => none
  | el :: rest => some (el.2, { q with list := rest })

/-- Who is in the queue, from the head on. -/
def members (q : StdQueue ω) : List ω := q.list.map Prod.snd

/-- `check(data,0)`. -/
def check [DecidableEq ω] (q : StdQueue ω) (data : ω) : Bool := q.members.contains data

/-- `del(cmp)`: the first that matches. -/
def delIf (cmp : ω → Bool) (q : StdQueue ω) : Option (ω × StdQueue ω) :=
  (q.members.find? cmp).map fun x => (x, { q with list := q.list.eraseP fun el => cmp el.2 })

/-- `for ( ; del(cmp).is_notNull() ; );` -/
def delAll (cmp : ω → Bool) (q : StdQueue ω) : StdQueue ω :=
  { q with list := q.list.filter fun el => !cmp el.2 }

/-- The loop of `move`: an element goes where `cmp` is positive, and the loop breaks
where it is negative. -/
def moveList (cmp : ω → Int) : List (Int × ω) → List (Int × ω) × List ω
  | [] => ([], [])
  | el :: rest =>
    if 0 < cmp el.2 then ((moveList cmp rest).1, el.2 :: (moveList cmp rest).2)
    else if cmp el.2 < 0 then (el :: rest, [])
    else (el :: (moveList cmp rest).1, (moveList cmp rest).2)

/-- `move(dest,cmp)`, with what goes to `dest`. -/
def move (cmp : ω → Int) (q : StdQueue ω) : StdQueue ω × List ω :=
  ({ q with list := (moveList cmp q.list).1 }, (moveList cmp q.list).2)

variable {q q' : StdQueue ω} {key : Int} {x y : ω}

theorem insSorted_perm (b : Bool) (key : Int) (x : ω) (l : List (Int × ω)) :
    (insSorted b key x l).Perm ((key, x) :: l) := by
  induction l with
  | nil => exact .refl _
  | cons el rest ih =>
    unfold insSorted
    split
    · exact .refl _
    · exact (ih.cons el).trans (.swap (key, x) el rest)

theorem mem_insSorted {b : Bool} {l : List (Int × ω)} {el : Int × ω} :
    el ∈ insSorted b key x l ↔ el = (key, x) ∨ el ∈ l :=
  (insSorted_perm b key x l).mem_iff.trans List.mem_cons

theorem le_of_stops {b : Bool} {k : Int} (h : stops b k key = true) : key ≤ k := by
  cases b with
  | true => exact Int.le_of_lt (of_decide_eq_true h)
  | false => exact of_decide_eq_true h

theorem le_of_not_stops {b : Bool} {k : Int} (h : stops b k key = false) : k ≤ key := by
  cases b with
  | true => exact Int.not_lt.mp (of_decide_eq_false h)
  | false => exact Int.le_of_lt (Int.not_le.mp (of_decide_eq_false h))

theorem insSorted_sorted {b : Bool} {l : List (Int × ω)} (h : l.Pairwise fun x y => x.1 ≤ y.1) :
    (insSorted b key x l).Pairwise fun x y => x.1 ≤ y.1 := by
  induction l with
  | nil => exact List.pairwise_singleton ..
  | cons el rest ih =>
    obtain ⟨hel, hr⟩ := List.pairwise_cons.mp h
    unfold insSorted
    cases hs : stops b el.1 key with
    | true =>
      refine List.pairwise_cons.mpr ⟨fun y hy => ?_, h⟩
      rcases List.mem_cons.mp hy with rfl | hy
      · exact le_of_stops hs
      · exact (le_of_stops hs).trans (hel y hy)
    | false =>
      refine List.pairwise_cons.mpr ⟨fun y hy => ?_, ih hr⟩
      rcases mem_insSorted.mp hy with rfl | hy
      · exact le_of_not_stops hs
      · exact hel y hy

theorem members_ins (q : StdQueue ω) (key : Int) (x : ω) :
    (q.ins key x).members.Perm (x :: q.members) := by
  unfold ins members
  split
  · simp
  · exact (insSorted_perm q.insNeq key x q.list).map Prod.snd

theorem members_del (h : q.del = some (y, q')) : q.members = y :: q'.members := by
  unfold del at h
  split at h
  · cases h
  · rename_i el rest hl
    obtain ⟨rfl, rfl⟩ : el.2 = y ∧ { q with list := rest } = q' := by simpa using h
    simp [members, hl]

theorem del_none : q.del = none ↔ q.members = [] := by
  unfold del members
  split <;> simp_all

@[simp] theorem check_iff [DecidableEq ω] : q.check x = true ↔ x ∈ q.members := by
  simp [check]

theorem members_delIf {cmp : ω → Bool} (h : q.delIf cmp = some (x, q')) :
    cmp x = true ∧ q.members.Perm (x :: q'.members) := by
  obtain ⟨y, hy, he⟩ := Option.map_eq_some_iff.mp h
  cases he
  refine ⟨List.find?_some hy, ?_⟩
  have hm : (q.list.eraseP fun el => cmp el.2).map Prod.snd = q.members.eraseP cmp :=
    List.eraseP_map.symm
  obtain ⟨hc, before, after, hl, hb⟩ := List.find?_eq_some_iff_append.mp hy
  have he : q.members.eraseP cmp = before ++ after := by
    rw [hl, List.eraseP_append_right _ (by simpa using hb), List.eraseP_cons_of_pos hc]
  calc q.members
    List.Perm _ (x :: (before ++ after)) := hl ▸ List.perm_middle
    List.Perm _ _ := by rw [← he, ← hm]; exact .refl _

/-- A turn of the loop of `delAll`. -/
theorem delAll_delIf {cmp : ω → Bool} (h : q.delIf cmp = some (x, q')) :
    q'.delAll cmp = q.delAll cmp := by
  obtain ⟨y, -, he⟩ := Option.map_eq_some_iff.mp h
  cases he
  unfold delAll
  congr 1
  induction q.list with
  | nil => rfl
  | cons el rest ih =>
    cases hc : cmp el.2 with
    | true => simp [hc]
    | false => simpa [hc] using ih

/-- The end of the loop of `delAll`. -/
theorem delAll_none {cmp : ω → Bool} (h : q.delIf cmp = none) : q.delAll cmp = q := by
  have hn : ∀ x ∈ q.members, ¬cmp x = true := List.find?_eq_none.mp (Option.map_eq_none_iff.mp h)
  unfold delAll
  congr 1
  refine List.filter_eq_self.mpr fun el hel => ?_
  simpa using hn el.2 (List.mem_map_of_mem hel)

theorem members_delAll {cmp : ω → Bool} :
    (q.delAll cmp).members = q.members.filter fun x => !cmp x := by
  simp [delAll, members, List.filter_map, Function.comp_def]

theorem members_move (q : StdQueue ω) (cmp : ω → Int) :
    q.members.Perm ((q.move cmp).1.members ++ (q.move cmp).2) ∧
      ∀ x ∈ (q.move cmp).2, 0 < cmp x := by
  unfold move members
  dsimp only
  induction q.list with
  | nil => exact ⟨.refl _, nofun⟩
  | cons el rest ih =>
    unfold moveList
    split
    · rename_i hc
      refine ⟨(ih.1.cons el.2).trans List.perm_middle.symm, ?_⟩
      rintro x (_ | ⟨_, hx⟩)
      · exact hc
      · exact ih.2 x hx
    · split
      · exact ⟨by simp, nofun⟩
      · exact ⟨ih.1.cons el.2, ih.2⟩

end StdQueue

/-- `stdLimitSemaphoreWait`: the buckets in the order of their keys, and the index. -/
structure LimitWait (ω : Type) where
  bucket : List (Int × List ω)
  idx : Finset ω
  insNeq : Bool

namespace LimitWait

variable {ω : Type} [DecidableEq ω]

/-- `bucket[key]`, changed by `f`; an empty one when there is none. -/
def modify (key : Int) (f : List ω → List ω) : List (Int × List ω) → List (Int × List ω)
  | [] => [(key, f [])]
  | b :: rest =>
    if key < b.1 then (key, f []) :: b :: rest
    else if key = b.1 then (key, f b.2) :: rest
    else b :: modify key f rest

def wIns (q : LimitWait ω) (key : Int) (obj : ω) : LimitWait ω :=
  { q with
    bucket := modify key
      (fun b => if q.insNeq ∨ key = maxInteger64 then b ++ [obj] else obj :: b) q.bucket
    idx := insert obj q.idx }

def wHas (q : LimitWait ω) (obj : ω) : Bool := obj ∈ q.idx

def wDel (q : LimitWait ω) : Option (ω × LimitWait ω) :=
  match q.bucket with
  | [] => none
  | (_, []) :: _ => none
  | (key, ret :: b) :: rest =>
    some (ret, { q with
      bucket := if b = [] then rest else (key, b) :: rest
      idx := q.idx.erase ret })

/-- Who is in the queue, from the head on. -/
def members (q : LimitWait ω) : List ω := q.bucket.flatMap Prod.snd

/-- No bucket is empty, and the index tells who is in one. -/
structure Indexed (q : LimitWait ω) : Prop where
  nonempty : ∀ b ∈ q.bucket, b.2 ≠ []
  nodup : q.members.Nodup
  idx : ∀ x, x ∈ q.idx ↔ x ∈ q.members

variable {q q' : LimitWait ω} {key : Int} {x y : ω}

omit [DecidableEq ω] in
theorem modify_perm {f : List ω → List ω} (hf : ∀ b, (f b).Perm (x :: b))
    (l : List (Int × List ω)) :
    ((modify key f l).flatMap Prod.snd).Perm (x :: l.flatMap Prod.snd) := by
  induction l with
  | nil => simpa [modify] using hf []
  | cons b rest ih =>
    unfold modify
    split
    · simpa using (hf []).append_right (b.2 ++ rest.flatMap Prod.snd)
    · split
      · simpa using (hf b.2).append_right (rest.flatMap Prod.snd)
      · simp only [List.flatMap_cons]
        exact (ih.append_left b.2).trans List.perm_middle

omit [DecidableEq ω] in
theorem modify_nonempty {f : List ω → List ω} (hf : ∀ b, f b ≠ []) {l : List (Int × List ω)}
    (hl : ∀ b ∈ l, b.2 ≠ []) : ∀ b ∈ modify key f l, b.2 ≠ [] := by
  induction l with
  | nil => simpa [modify] using hf []
  | cons c rest ih =>
    obtain ⟨hc, hr⟩ := List.forall_mem_cons.mp hl
    unfold modify
    split
    · exact List.forall_mem_cons.mpr ⟨hf [], hl⟩
    · split
      · exact List.forall_mem_cons.mpr ⟨hf c.2, hr⟩
      · exact List.forall_mem_cons.mpr ⟨hc, ih hr⟩

theorem members_wIns : (q.wIns key x).members.Perm (x :: q.members) := by
  refine modify_perm (fun b => ?_) q.bucket
  split
  · exact List.perm_append_singleton x b
  · exact .refl _

theorem Indexed.wIns (h : q.Indexed) (hx : x ∉ q.idx) : (q.wIns key x).Indexed where
  nonempty := modify_nonempty (fun b => by split <;> simp) h.nonempty
  nodup := by
    rw [members_wIns.nodup_iff]
    exact List.nodup_cons.mpr ⟨fun hm => hx ((h.idx x).mpr hm), h.nodup⟩
  idx y := by
    rw [members_wIns.mem_iff, List.mem_cons, ← h.idx y]
    exact Finset.mem_insert

theorem members_wDel (h : q.wDel = some (y, q')) :
    q.members = y :: q'.members ∧ q'.idx = q.idx.erase y := by
  unfold wDel at h
  split at h
  · cases h
  · cases h
  · rename_i key ret b rest hb
    obtain ⟨rfl, rfl⟩ := by simpa using h
    refine ⟨?_, rfl⟩
    by_cases he : b = []
    · simp [members, hb, he]
    · simp [members, hb, he]

theorem Indexed.wDel (h : q.Indexed) (hd : q.wDel = some (y, q')) : q'.Indexed := by
  obtain ⟨hm, hi⟩ := members_wDel hd
  have hn := List.nodup_cons.mp (hm ▸ h.nodup)
  refine ⟨?_, hn.2, fun x => ?_⟩
  · unfold LimitWait.wDel at hd
    split at hd
    · cases hd
    · cases hd
    · rename_i key ret b rest hb
      obtain ⟨rfl, rfl⟩ := by simpa using hd
      have hl := h.nonempty
      rw [hb] at hl
      dsimp only
      split
      · exact (List.forall_mem_cons.mp hl).2
      · exact List.forall_mem_cons.mpr ⟨‹_›, (List.forall_mem_cons.mp hl).2⟩
  · rw [hi, Finset.mem_erase, h.idx x, hm, List.mem_cons]
    constructor
    · exact fun hx => hx.2.resolve_left hx.1
    · exact fun hx => ⟨fun he => hn.1 (he ▸ hx), .inr hx⟩

/-- The head is found as long as the queue is not empty. -/
theorem Indexed.wDel_none (h : q.Indexed) : q.wDel = none ↔ q.idx = ∅ := by
  have he : q.idx = ∅ ↔ q.members = [] := by
    rw [Finset.eq_empty_iff_forall_notMem, List.eq_nil_iff_forall_not_mem]
    simp only [h.idx]
  rw [he]
  cases hb : q.bucket with
  | nil => simp [LimitWait.wDel, members, hb]
  | cons b rest =>
    obtain ⟨key, l⟩ := b
    cases l with
    | nil => exact absurd rfl (h.nonempty (key, []) (by simp [hb]))
    | cons y l => simp [LimitWait.wDel, members, hb]

end LimitWait

end TinyState
