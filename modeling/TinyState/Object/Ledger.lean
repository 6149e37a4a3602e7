import Mathlib.Algebra.BigOperators.Group.List.Basic
import Mathlib.Algebra.Order.Ring.Int
import TinyState.Containers.SArray
import TinyState.Lib.Assoc
import TinyState.Lib.Machine
import TinyState.Object.Positions

/-!
# Where the memory goes

`operator new`, `operator delete` and `refine_sobj` of `sObject.cpp` count, for each code position
and in all, the bytes of the objects that are there, and keep a list of the ten positions with the
most of them. `refLock` makes each call one step. What is freed is there, and what `malloc` gives is
not.
-/

namespace TinyState

open Transition

-- ---------------------------------------------------------------------------
-- Model
-- ---------------------------------------------------------------------------

/-- `MEM_HEADER`; nothing reads its links. -/
structure MemHeader where
  size : Nat
  cp : Nat
  deriving DecidableEq, Repr

/-- `mem`: what has been allocated and not been freed, by the address. -/
structure MemLedger where
  hash : CpHash
  top : List (Option Nat)
  totalSize : Int
  totalMemCnt : Int
  totalMemMax : Int
  mem : List (Nat × MemHeader)
  stopped : Bool

inductive MemAct
  | new (mp size : Nat) (file : String) (line : Nat)
  | delete (mp : Nat)
  | refineSobj (mp : Nat) (file : String) (line : Nat)
  /-- `get_sobj_file` and `get_sobj_line`. -/
  | getSobj (mp : Nat)
  deriving DecidableEq, Repr

inductive MemObs
  | named (mp : Nat) (file : String) (line : Nat)
  /-- `-mem->size` is counted. -/
  | negated (size : Nat)
  | got (mp : Nat) (name : Option (String × Nat))
  /-- `panic("allocation over")` -/
  | panic
  deriving DecidableEq, Repr

/-- The first two loops of `cp_set_size`: the position is taken out. -/
def dropTop (i : Nat) : List (Option Nat) → List (Option Nat)
  | [] => []
  | o :: l => if o = some i then l ++ [none] else o :: dropTop i l

/-- And put back before the first that has less, or where nothing is. -/
def putTop (size : Nat → Int) (i : Nat) : List (Option Nat) → List (Option Nat)
  | [] => []
  | none :: l => some i :: l
  | some p :: l =>
    if size p < size i then some i :: (some p :: l).dropLast else some p :: putTop size i l

namespace MemLedger

def cpTopLen : Nat := 10

def refSubline : Int := 0

def initial (max : Int) : MemLedger where
  hash := .empty
  top := List.replicate cpTopLen none
  totalSize := 0
  totalMemCnt := 0
  totalMemMax := max
  mem := []
  stopped := false

/-- `none`: the process stops. -/
def cpSetSize (s : MemLedger) (i : Nat) (size : Int) : Option MemLedger :=
  let hash := s.hash.addSize i fun n => int32 (n + size)
  let totalSize := s.totalSize + size
  if s.totalMemMax ≠ 0 ∧ s.totalMemMax < totalSize then none
  else some { s with hash, totalSize, top := putTop hash.sizeOf i (dropTop i s.top) }

/-- `size` is an `int`, and `mem->size` a `size_t`. -/
def new (s : MemLedger) (mp size : Nat) (file : String) (line : Nat) : Option MemLedger :=
  let (i, hash) := s.hash.getCp file line refSubline
  let s : MemLedger := { s with hash, mem := (mp, ⟨size, i⟩) :: s.mem }
  (s.cpSetSize i (int32 size)).map fun s => { s with totalMemCnt := s.totalMemCnt + 1 }

/-- What has been allocated, but for one. -/
def without (mp : Nat) (mem : List (Nat × MemHeader)) : List (Nat × MemHeader) :=
  mem.filter fun p => p.1 ≠ mp

def delete (s : MemLedger) (mp : Nat) (mem : MemHeader) : Option MemLedger :=
  (s.cpSetSize mem.cp (int32 (-mem.size))).map fun s =>
    { s with
      totalMemCnt := s.totalMemCnt - 1
      mem := without mp s.mem }

def refineSobj (s : MemLedger) (mp : Nat) (mem : MemHeader) (file : String) (line : Nat) :
    Option MemLedger :=
  (s.cpSetSize mem.cp (int32 (-mem.size))).bind fun s =>
    let (i, hash) := s.hash.getCp file line 0
    let s : MemLedger := { s with hash, mem := (mp, ⟨mem.size, i⟩) :: without mp s.mem }
    s.cpSetSize i (int32 mem.size)

def after (s : MemLedger) (os : List MemObs) : Option MemLedger → MemLedger × List MemObs
  | some t => (t, os)
  | none => ({ s with stopped := true }, [.panic])

def step (s : MemLedger) : MemAct → Option (MemLedger × List MemObs)
  | .new mp size file line =>
    if s.stopped = false ∧ s.mem.lookup mp = none then
      some (s.after [.named mp file line] (s.new mp size file line))
    else none
  | .delete mp =>
    if s.stopped then none
    else (s.mem.lookup mp).map fun mem => s.after [.negated mem.size] (s.delete mp mem)
  | .refineSobj mp file line =>
    if s.stopped then none
    else (s.mem.lookup mp).map fun mem =>
      s.after [.negated mem.size, .named mp file line] (s.refineSobj mp mem file line)
  | .getSobj mp =>
    if s.stopped then none
    else (s.mem.lookup mp).map fun mem => (s, [.got mp (s.hash.fileOf mem.cp)])

/-- `total_mem_max` has been set before the first object. -/
def machine (max : Int) : Machine MemLedger MemAct MemObs where
  init s := s = initial max
  step := step

end MemLedger

-- ---------------------------------------------------------------------------
-- The ten positions with the most bytes
-- ---------------------------------------------------------------------------

section Ranking

variable {size size' : Nat → Int} {i n k : Nat} {ids : List Nat} {top : List (Option Nat)}

/-- The position behind all that have no less. -/
def ranked (size : Nat → Int) (i : Nat) : List Nat → List Nat
  | [] => [i]
  | p :: ids => if size p < size i then i :: p :: ids else p :: ranked size i ids

theorem ranked_perm (size : Nat → Int) (i : Nat) (ids : List Nat) :
    (ranked size i ids).Perm (i :: ids) := by
  induction ids with
  | nil => exact .refl _
  | cons p ids ih =>
    simp only [ranked]
    split_ifs
    · exact .refl _
    · exact (ih.cons p).trans (.swap i p ids)

theorem ranked_ne_nil (size : Nat → Int) (i : Nat) (ids : List Nat) : ranked size i ids ≠ [] := by
  cases ids with
  | nil => exact List.cons_ne_nil _ _
  | cons p ids =>
    simp only [ranked]
    split_ifs <;> exact List.cons_ne_nil _ _

theorem ranked_pairwise (h : ids.Pairwise fun a b => size b ≤ size a) :
    (ranked size i ids).Pairwise fun a b => size b ≤ size a := by
  induction ids with
  | nil => exact List.pairwise_singleton ..
  | cons p ids ih =>
    obtain ⟨hp, h⟩ := List.pairwise_cons.mp h
    simp only [ranked]
    split_ifs with hlt
    · refine .cons (fun b hb => ?_) (.cons hp h)
      rcases List.mem_cons.mp hb with rfl | hb
      · omega
      · have := hp b hb
        omega
    · refine .cons (fun b hb => ?_) (ih h)
      rcases List.mem_cons.mp ((ranked_perm size i ids).mem_iff.mp hb) with rfl | hb
      · omega
      · exact hp b hb

theorem dropTop_filled (i k : Nat) (ids : List Nat) :
    dropTop i (ids.map some ++ List.replicate k none) =
      (ids.erase i).map some ++ List.replicate (k + (ids.length - (ids.erase i).length)) none := by
  induction ids with
  | nil =>
    induction k with
    | zero => rfl
    | succ k ih => simpa [dropTop, List.replicate_succ] using ih
  | cons p ids ih =>
    by_cases hp : p = i
    · subst hp
      simp [dropTop, List.replicate_succ']
    · simp [dropTop, hp, ih]

theorem putTop_filled (size : Nat → Int) (i k : Nat) (ids : List Nat) :
    putTop size i (ids.map some ++ List.replicate k none) =
      ((ranked size i ids).map some ++ List.replicate k none).dropLast := by
  induction ids with
  | nil =>
    cases k with
    | zero => rfl
    | succ k => simp [putTop, ranked, List.replicate_succ, List.dropLast_cons_of_ne_nil]
  | cons p ids ih =>
    have hne : (ranked size i ids).map some ++ List.replicate k none ≠ [] := by
      simp [ranked_ne_nil]
    simp only [ranked, List.map_cons, List.cons_append, putTop]
    split_ifs
    · simp [List.dropLast_cons_of_ne_nil]
    · rw [ih, List.map_cons, List.cons_append, List.dropLast_cons_of_ne_nil hne]

/-- The list is of positions, by their sizes, and empty behind them. -/
structure Ranking (size : Nat → Int) (n : Nat) (top : List (Option Nat)) (ids : List Nat) :
    Prop where
  top : top = ids.map some ++ List.replicate (10 - ids.length) none
  length : ids.length ≤ 10
  nodup : ids.Nodup
  sorted : ids.Pairwise fun a b => size b ≤ size a
  bound : ∀ p ∈ ids, p < n

theorem Ranking.empty : Ranking size n (List.replicate 10 none) [] :=
  ⟨rfl, Nat.zero_le _, .nil, .nil, fun p hp => by cases hp⟩

/-- Another position is ranked, and the last one goes if there is no room. -/
theorem Ranking.insert (h : Ranking size n top ids) (hi : i ∉ ids) (hn : i < n) :
    ∃ ids', Ranking size n (putTop size i top) ids' := by
  have hperm := ranked_perm size i ids
  have hnodup : (ranked size i ids).Nodup := hperm.nodup_iff.mpr (List.nodup_cons.mpr ⟨hi, h.nodup⟩)
  have hsorted := ranked_pairwise h.sorted (i := i)
  have hbound : ∀ p ∈ ranked size i ids, p < n := fun p hp => by
    rcases List.mem_cons.mp (hperm.mem_iff.mp hp) with rfl | hp
    · exact hn
    · exact h.bound p hp
  have hlen : (ranked size i ids).length = ids.length + 1 := hperm.length_eq
  have htop := putTop_filled size i (10 - ids.length) ids
  rw [← h.top] at htop
  by_cases hfull : ids.length = 10
  · refine ⟨(ranked size i ids).dropLast, ?_, ?_, ?_, ?_, ?_⟩
    · rw [htop, hfull]
      simp [hlen, hfull, List.map_dropLast]
    · simp [hlen, hfull]
    · exact hnodup.sublist (List.dropLast_sublist _)
    · exact hsorted.sublist (List.dropLast_sublist _)
    · exact fun p hp => hbound p (List.dropLast_subset _ hp)
  · have hroom : 10 - ids.length = (10 - (ids.length + 1)) + 1 := by
      have := h.length
      omega
    refine ⟨ranked size i ids, ?_, ?_, hnodup, hsorted, hbound⟩
    · rw [htop, hroom, List.replicate_succ', ← List.append_assoc, List.dropLast_concat, hlen]
    · have := h.length
      omega

/-- The size of one position changes. -/
theorem Ranking.update (h : Ranking size n top ids) (hn : i < n)
    (hsame : ∀ p, p ≠ i → size' p = size p) :
    ∃ ids', Ranking size' n (putTop size' i (dropTop i top)) ids' := by
  have hsub := List.erase_sublist (a := i) (l := ids)
  have hlen := hsub.length_le
  have hrest : Ranking size' n (dropTop i top) (ids.erase i) := by
    refine ⟨?_, hlen.trans h.length, h.nodup.sublist hsub, ?_, fun p hp => h.bound p (hsub.mem hp)⟩
    · rw [h.top, dropTop_filled]
      congr 2
      have := h.length
      omega
    · refine (h.sorted.sublist hsub).imp_of_mem fun ha hb hle => ?_
      rw [hsame _ (h.nodup.mem_erase_iff.mp ha).1, hsame _ (h.nodup.mem_erase_iff.mp hb).1]
      exact hle
  exact hrest.insert (fun hm => (h.nodup.mem_erase_iff.mp hm).1 rfl) hn

end Ranking

-- ---------------------------------------------------------------------------
-- What is counted
-- ---------------------------------------------------------------------------

theorem int32_add (a b : Int) : int32 (int32 a + int32 b) = int32 (a + b) := by
  simp [int32]

/-- One `int` has no negative. -/
theorem int32_neg (n : Int) :
    int32 (-n) = -int32 n - if int32 n = -2 ^ 31 then 2 ^ 32 else 0 := by
  simp only [int32, Int.bmod_def]
  split_ifs <;> omega

/-- `-mem->size` is not what has been counted for the object. -/
def MemObs.overturned : MemObs → Bool
  | .negated size => int32 size = -2 ^ 31
  | _ => false

def MemObs.named? (mp : Nat) : MemObs → Option (String × Nat)
  | .named mp' file line => if mp' = mp then some (file, line) else none
  | _ => none

/-- The name that the object has been given last. -/
def nameOf (tr : List MemObs) (mp : Nat) : Option (String × Nat) :=
  (tr.filterMap (MemObs.named? mp)).getLast?

namespace MemLedger

variable {s t : MemLedger} {mem mem' : List (Nat × MemHeader)} {lost lost' i mp size line : Nat}
  {file : String} {d subline : Int} {u : CpHash} {h : MemHeader}

/-- The bytes of a position. -/
def sizeAt (mem : List (Nat × MemHeader)) (i : Nat) : Int :=
  (mem.map fun p => if p.2.cp = i then (p.2.size : Int) else 0).sum

/-- The bytes of all, as they are counted. -/
def total (mem : List (Nat × MemHeader)) : Int := (mem.map fun p => int32 p.2.size).sum

theorem sizeAt_cons (mp size i j : Nat) (mem : List (Nat × MemHeader)) :
    sizeAt ((mp, ⟨size, i⟩) :: mem) j = (if i = j then (size : Int) else 0) + sizeAt mem j :=
  List.sum_cons

theorem total_cons (mp size i : Nat) (mem : List (Nat × MemHeader)) :
    total ((mp, ⟨size, i⟩) :: mem) = int32 size + total mem :=
  List.sum_cons

theorem without_perm (hn : (mem.map Prod.fst).Nodup) (hp : (mp, h) ∈ mem) :
    mem.Perm ((mp, h) :: without mp mem) := by
  induction mem with
  | nil => cases hp
  | cons q mem ih =>
    obtain ⟨hq, hn⟩ := List.nodup_cons.mp hn
    rcases List.mem_cons.mp hp with rfl | hp
    · have hall : without mp ((mp, h) :: mem) = mem := by
        simp only [without, List.filter_cons, ne_eq, not_true_eq_false, decide_false,
          Bool.false_eq_true, if_false]
        refine List.filter_eq_self.mpr fun p hp => decide_eq_true fun he => hq ?_
        exact List.mem_map.mpr ⟨p, hp, he⟩
      rw [hall]
    · have hne : q.1 ≠ mp := fun he => hq (List.mem_map.mpr ⟨_, hp, he.symm⟩)
      simp only [without, List.filter_cons, hne, ne_eq, not_false_eq_true, decide_true, if_true]
      exact ((ih hn hp).cons q).trans (.swap (mp, h) q _)

/-- What the counts are worth, where `mem` is what has been counted. `lost` is how often `2 ^ 32`
bytes too many have been taken off. -/
structure Books (s : MemLedger) (mem : List (Nat × MemHeader)) (lost : Nat) : Prop where
  hash : s.hash.Valid
  known : ∀ p ∈ mem, p.2.cp < s.hash.pos.length
  sizes : ∀ i, s.hash.sizeOf i = int32 (sizeAt mem i)
  total : s.totalSize = total mem - 2 ^ 32 * lost
  top : ∃ ids, Ranking s.hash.sizeOf s.hash.pos.length s.top ids
  limit : s.totalMemMax ≤ 0 ∨ s.totalSize ≤ s.totalMemMax

theorem Books.got (hb : s.Books mem lost) (hg : s.hash.Got file line subline i u) :
    ({ s with hash := u } : MemLedger).Books mem lost where
  hash := hg.valid hb.hash
  known p hp := (hb.known p hp).trans_le hg.le
  sizes j := (hg.sizeOf j).trans (hb.sizes j)
  total := hb.total
  top := by
    obtain ⟨ids, hids⟩ := hb.top
    refine ⟨ids, hids.top, hids.length, hids.nodup, ?_, fun p hp => ?_⟩
    · simpa only [hg.sizeOf] using hids.sorted
    · exact (hids.bound p hp).trans_le hg.le
  limit := hb.limit

theorem cpSetSize_some (hs : s.cpSetSize i d = some t) :
    (s.totalMemMax = 0 ∨ s.totalSize + d ≤ s.totalMemMax) ∧
      t = { s with
        hash := s.hash.addSize i fun n => int32 (n + d)
        totalSize := s.totalSize + d
        top := putTop (s.hash.addSize i fun n => int32 (n + d)).sizeOf i (dropTop i s.top) } := by
  unfold cpSetSize at hs
  simp only [Option.ite_none_left_eq_some, Option.some.injEq] at hs
  refine ⟨?_, hs.2.symm⟩
  by_contra hn
  exact hs.1 (by omega)

theorem cpSetSize_hash (hs : s.cpSetSize i d = some t) :
    t.hash = s.hash.addSize i fun n => int32 (n + d) := by
  rw [(cpSetSize_some hs).2]

theorem cpSetSize_frame (hs : s.cpSetSize i d = some t) :
    t.mem = s.mem ∧ t.totalMemCnt = s.totalMemCnt ∧ ∀ j, t.hash.fileOf j = s.hash.fileOf j := by
  rw [cpSetSize_hash hs, (cpSetSize_some hs).2]
  exact ⟨rfl, rfl, fun j => CpHash.addSize_fileOf ..⟩

theorem Books.frame (hb : s.Books mem lost) (count : Int) (mem' : List (Nat × MemHeader))
    (stopped : Bool) : ({ s with
      totalMemCnt := count
      mem := mem'
      stopped } : MemLedger).Books mem lost :=
  ⟨hb.hash, hb.known, hb.sizes, hb.total, hb.top, hb.limit⟩

theorem Books.set (hb : s.Books mem lost) (hi : i < s.hash.pos.length)
    (hs : s.cpSetSize i d = some t) (hknown : ∀ p ∈ mem', p.2.cp < s.hash.pos.length)
    (hsizes : ∀ j, int32 (sizeAt mem' j) =
      if j = i then int32 (int32 (sizeAt mem i) + d) else int32 (sizeAt mem j))
    (htotal : MemLedger.total mem' - 2 ^ 32 * lost' = MemLedger.total mem - 2 ^ 32 * lost + d) :
    t.Books mem' lost' := by
  obtain ⟨hmax, rfl⟩ := cpSetSize_some hs
  have hvalid : (s.hash.addSize i fun n => int32 (n + d)).Valid := hb.hash.addSize ..
  refine ⟨hvalid, fun p hp => ?_, fun j => ?_, ?_, ?_, ?_⟩
  · exact (hknown p hp).trans_eq (CpHash.addSize_length ..).symm
  · rw [hsizes, CpHash.addSize_sizeOf hi, hb.sizes, hb.sizes]
  · rw [htotal, hb.total]
  · obtain ⟨ids, hids⟩ := hb.top
    simp only [CpHash.addSize_length]
    refine hids.update hi fun p hp => ?_
    rw [CpHash.addSize_sizeOf hi, if_neg hp]
  · simp only
    omega

/-- `cp_set_size(cp,size)` -/
theorem Books.add (hb : s.Books mem lost) (mp : Nat) (hi : i < s.hash.pos.length)
    (hs : s.cpSetSize i (int32 size) = some t) : t.Books ((mp, ⟨size, i⟩) :: mem) lost := by
  refine hb.set hi hs (fun p hp => ?_) (fun j => ?_) ?_
  · rcases List.mem_cons.mp hp with rfl | hp
    · exact hi
    · exact hb.known p hp
  · rw [sizeAt_cons, int32_add]
    by_cases hj : j = i
    · rw [if_pos hj.symm, if_pos hj, hj, Int.add_comm]
    · rw [if_neg (Ne.symm hj), if_neg hj, Int.zero_add]
  · rw [total_cons]
    omega

/-- `cp_set_size(cp,-size)` -/
theorem Books.sub (hb : s.Books mem lost) (hn : (mem.map Prod.fst).Nodup) (hp : (mp, h) ∈ mem)
    (hs : s.cpSetSize h.cp (int32 (-h.size)) = some t) :
    t.Books (without mp mem) (lost + if int32 h.size = -2 ^ 31 then 1 else 0) := by
  have hperm := without_perm hn hp
  have hsize : ∀ j, sizeAt mem j =
      (if h.cp = j then (h.size : Int) else 0) + sizeAt (without mp mem) j :=
    fun j => ((hperm.map _).sum_eq).trans (sizeAt_cons mp h.size h.cp j _)
  have htotal : MemLedger.total mem = int32 h.size + MemLedger.total (without mp mem) :=
    ((hperm.map _).sum_eq).trans (total_cons mp h.size h.cp _)
  refine hb.set (hb.known _ hp) hs (fun p hp => hb.known p (List.mem_of_mem_filter hp))
    (fun j => ?_) ?_
  · rw [int32_add, hsize j, hsize h.cp]
    by_cases hj : j = h.cp
    · rw [if_pos hj, if_pos rfl, hj, Int.add_right_comm, Int.add_right_neg, Int.zero_add]
    · rw [if_neg hj, if_neg (Ne.symm hj), Int.zero_add]
  · rw [htotal, int32_neg]
    split_ifs <;> push_cast <;> omega

-- ---------------------------------------------------------------------------
-- Runs
-- ---------------------------------------------------------------------------

variable {a : MemAct} {tr os : List MemObs}

/-- What a call does. -/
inductive MemStep (s : MemLedger) : MemAct → MemLedger → List MemObs → Prop
  | new {mp size : Nat} {file : String} {line i : Nat} {u : CpHash} {t : MemLedger} :
      s.mem.lookup mp = none → s.hash.Got file line refSubline i u →
      ({ s with
        hash := u
        mem := (mp, ⟨size, i⟩) :: s.mem } : MemLedger).cpSetSize i (int32 size) = some t →
      MemStep s (.new mp size file line) { t with totalMemCnt := t.totalMemCnt + 1 }
        [.named mp file line]
  | delete {mp : Nat} {h : MemHeader} {t : MemLedger} : (mp, h) ∈ s.mem →
      s.cpSetSize h.cp (int32 (-h.size)) = some t →
      MemStep s (.delete mp) { t with
        totalMemCnt := t.totalMemCnt - 1
        mem := without mp t.mem } [.negated h.size]
  | refine {mp : Nat} {file : String} {line i : Nat} {h : MemHeader} {t t' : MemLedger}
      {u : CpHash} : (mp, h) ∈ s.mem → s.cpSetSize h.cp (int32 (-h.size)) = some t →
      t.hash.Got file line 0 i u →
      ({ t with
        hash := u
        mem := (mp, ⟨h.size, i⟩) :: without mp t.mem } : MemLedger).cpSetSize i (int32 h.size) =
          some t' →
      MemStep s (.refineSobj mp file line) t' [.negated h.size, .named mp file line]
  | got {mp : Nat} {h : MemHeader} : (mp, h) ∈ s.mem →
      MemStep s (.getSobj mp) s [.got mp (s.hash.fileOf h.cp)]
  | panic {a : MemAct} : MemStep s a { s with stopped := true } [.panic]

theorem after_memStep {r : Option MemLedger} (h : s.after os r = (t, tr))
    (hr : ∀ u, r = some u → MemStep s a u os) : MemStep s a t tr := by
  cases r with
  | none =>
    obtain ⟨rfl, rfl⟩ := Prod.mk.inj h
    exact .panic
  | some u =>
    obtain ⟨rfl, rfl⟩ := Prod.mk.inj h
    exact hr u rfl

theorem step_memStep (hv : s.hash.Valid) (hs : s.step a = some (t, os)) : MemStep s a t os := by
  cases a with
  | new mp size file line =>
    simp only [step, Option.ite_none_right_eq_some, Option.some.injEq] at hs
    refine after_memStep hs.2 fun r hr => ?_
    obtain ⟨u, hu, rfl⟩ := Option.map_eq_some_iff.mp hr
    exact .new hs.1.2 (CpHash.getCp_got hv file line refSubline) hu
  | delete mp =>
    simp only [step, Option.ite_none_left_eq_some, Option.map_eq_some_iff] at hs
    obtain ⟨-, h, hm, hs⟩ := hs
    refine after_memStep hs fun r hr => ?_
    obtain ⟨u, hu, rfl⟩ := Option.map_eq_some_iff.mp hr
    exact .delete (Assoc.mem_of_lookup hm) hu
  | refineSobj mp file line =>
    simp only [step, Option.ite_none_left_eq_some, Option.map_eq_some_iff] at hs
    obtain ⟨-, h, hm, hs⟩ := hs
    refine after_memStep hs fun r hr => ?_
    obtain ⟨u, hu, hr⟩ := Option.bind_eq_some_iff.mp hr
    have huv : u.hash.Valid := by
      rw [cpSetSize_hash hu]
      exact hv.addSize ..
    exact .refine (Assoc.mem_of_lookup hm) hu (CpHash.getCp_got huv file line 0) hr
  | getSobj mp =>
    simp only [step, Option.ite_none_left_eq_some, Option.map_eq_some_iff] at hs
    obtain ⟨-, h, hm, hs⟩ := hs
    obtain ⟨rfl, rfl⟩ := Prod.mk.inj hs
    exact .got (Assoc.mem_of_lookup hm)

/-- What the ledger says of the objects that are there. -/
structure Told (tr : List MemObs) (s : MemLedger) : Prop where
  books : s.Books s.mem (tr.countP MemObs.overturned)
  count : s.totalMemCnt = s.mem.length
  nodup : (s.mem.map Prod.fst).Nodup
  names : ∀ p ∈ s.mem, nameOf tr p.1 = s.hash.fileOf p.2.cp
  got : Machine.Justified (fun before o => ∀ mp name, o = .got mp name → name = nameOf before mp) tr

theorem nameOf_append (tr os : List MemObs) (mp : Nat) :
    nameOf (tr ++ os) mp = (nameOf os mp).or (nameOf tr mp) := by
  simp only [nameOf, List.filterMap_append, List.getLast?_append]

theorem nameOf_named (tr : List MemObs) (mp mp' : Nat) (file : String) (line : Nat) :
    nameOf (tr ++ [.named mp file line]) mp' =
      if mp = mp' then some (file, line) else nameOf tr mp' := by
  rw [nameOf_append]
  by_cases hm : mp = mp' <;> simp [nameOf, MemObs.named?, hm]

theorem nameOf_silent (tr : List MemObs) (o : MemObs) (mp : Nat) (ho : o.named? mp = none) :
    nameOf (tr ++ [o]) mp = nameOf tr mp := by
  rw [nameOf_append]
  simp [nameOf, ho]

theorem overturned_negated (tr : List MemObs) (size : Nat) :
    (tr ++ [MemObs.negated size]).countP MemObs.overturned =
      tr.countP MemObs.overturned + if int32 size = -2 ^ 31 then 1 else 0 := by
  simp [List.countP_append, List.countP_cons, MemObs.overturned]

theorem without_length (hn : (mem.map Prod.fst).Nodup) (hp : (mp, h) ∈ mem) :
    mem.length = (without mp mem).length + 1 :=
  (without_perm hn hp).length_eq

theorem without_nodup (hn : (mem.map Prod.fst).Nodup) : ((without mp mem).map Prod.fst).Nodup :=
  hn.sublist (List.filter_sublist.map _)

theorem Told.moved (h : Told tr s) (hs : MemStep s a t os) : Told (tr ++ os) t := by
  cases hs with
  | @new mp size file line i u t hlook hg hset =>
    obtain ⟨hmem, hcount, hfile⟩ := cpSetSize_frame hset
    have hnot : mp ∉ s.mem.map Prod.fst := fun hm => by
      obtain ⟨p, hp, rfl⟩ := List.mem_map.mp hm
      simpa using List.lookup_eq_none_iff.mp hlook p hp
    have hb := ((h.books.got hg).frame s.totalMemCnt ((mp, ⟨size, i⟩) :: s.mem) s.stopped).add
      mp hg.lt hset
    refine ⟨?_, ?_, ?_, fun p hp => ?_, h.got.snoc fun mp name he => by cases he⟩
    · rw [List.countP_append]
      exact hmem.symm ▸ hb.frame _ _ _
    · simp [hmem, hcount, h.count]
    · rw [hmem]
      exact List.nodup_cons.mpr ⟨hnot, h.nodup⟩
    · rw [nameOf_named, hfile]
      rcases List.mem_cons.mp (hmem ▸ hp) with rfl | hp
      · rw [if_pos rfl]
        exact hg.fileOf.symm
      · rw [if_neg fun he => hnot (List.mem_map.mpr ⟨p, hp, he.symm⟩), h.names p hp]
        exact (hg.fileOf_old (h.books.known p hp)).symm
  | @delete mp mem t hm hset =>
    obtain ⟨hmem, hcount, hfile⟩ := cpSetSize_frame hset
    have hb := h.books.sub h.nodup hm hset
    refine ⟨?_, ?_, ?_, fun p hp => ?_, h.got.snoc fun mp name he => by cases he⟩
    · rw [overturned_negated, hmem]
      exact hb.frame _ _ _
    · have hlen := without_length h.nodup hm
      simp only [hmem, hcount, h.count]
      omega
    · rw [hmem]
      exact without_nodup h.nodup
    · rw [nameOf_silent _ _ _ rfl, hfile]
      exact h.names p (List.mem_of_mem_filter (hmem ▸ hp))
  | @refine mp file line i mem u t v hm hset hg hset' =>
    obtain ⟨hmem, hcount, hfile⟩ := cpSetSize_frame hset
    obtain ⟨hmem', hcount', hfile'⟩ := cpSetSize_frame hset'
    have hsub := h.books.sub h.nodup hm hset
    have hb := ((hsub.got hg).frame u.totalMemCnt ((mp, ⟨mem.size, i⟩) :: without mp u.mem)
      u.stopped).add mp hg.lt hset'
    have hlen := without_length h.nodup hm
    rw [List.append_cons]
    refine ⟨?_, ?_, ?_, fun p hp => ?_,
      (h.got.snoc fun mp name he => by cases he).snoc fun mp name he => by cases he⟩
    · have hnamed : [MemObs.named mp file line].countP MemObs.overturned = 0 := rfl
      rw [List.countP_append, overturned_negated, hnamed, Nat.add_zero, hmem', hmem]
      exact hb
    · simp only [hmem', hmem, hcount', hcount, h.count, List.length_cons, hlen]
    · rw [hmem', hmem]
      refine List.nodup_cons.mpr ⟨fun hin => ?_, without_nodup h.nodup⟩
      obtain ⟨p, hp, he⟩ := List.mem_map.mp hin
      exact of_decide_eq_true (List.mem_filter.mp hp).2 he
    · rw [nameOf_named, hfile']
      rw [hmem', hmem] at hp
      rcases List.mem_cons.mp hp with rfl | hp
      · rw [if_pos rfl]
        exact hg.fileOf.symm
      · have hne : mp ≠ p.1 := Ne.symm (of_decide_eq_true (List.mem_filter.mp hp).2)
        rw [if_neg hne, nameOf_silent _ _ _ rfl, h.names p (List.mem_of_mem_filter hp), ← hfile]
        exact (hg.fileOf_old (hsub.known p hp)).symm
  | got hm =>
    refine ⟨?_, h.count, h.nodup, fun p hp => ?_, h.got.snoc fun mp name he => ?_⟩
    · rw [List.countP_append]
      exact h.books
    · rw [nameOf_silent _ _ _ rfl]
      exact h.names p hp
    · obtain ⟨rfl, rfl⟩ := MemObs.got.inj he
      exact (h.names _ hm).symm
  | panic =>
    refine ⟨?_, h.count, h.nodup, fun p hp => ?_, h.got.snoc fun mp name he => by cases he⟩
    · rw [List.countP_append]
      exact h.books.frame _ _ _
    · rw [nameOf_silent _ _ _ rfl]
      exact h.names p hp

theorem Told.initial (max : Int) : Told [] (MemLedger.initial max) := by
  refine ⟨⟨CpHash.valid_empty, fun p hp => ?_, fun i => ?_, rfl, ⟨[], Ranking.empty⟩, ?_⟩, rfl,
    List.nodup_nil, fun p hp => ?_, .nil⟩
  · cases hp
  · rfl
  · exact Int.le_total max 0
  · cases hp

end MemLedger

open MemLedger

/-- In every run of calls on objects that are there, the ledger is right about them: a name is the
one that has been given last, and no total is wrong but by `2 ^ 32` for each negative of the one
`int` that has none. -/
theorem memory_ledger {max : Int} {tr : List MemObs} {s : MemLedger}
    (h : (MemLedger.machine max).Run tr s) : MemLedger.Told tr s := by
  refine h.invariant (I := MemLedger.Told) ?_ ?_
  · rintro s rfl
    exact MemLedger.Told.initial max
  · intro tr s a t os _ ih _ hs
    exact ih.moved (step_memStep ih.books.hash hs)

/-- An object of `2 ^ 31` bytes comes and goes. -/
example : ((MemLedger.machine 0).exec (fun _ _ => True) (.initial 0)
    [.new 8 (2 ^ 31) "a.cpp" 1, .delete 8]).map (fun r => r.1.totalSize) = some (-2 ^ 32) := by
  decide +kernel

end TinyState
