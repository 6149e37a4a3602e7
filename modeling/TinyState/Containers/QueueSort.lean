import TinyState.Containers.QueueCopy

/-!
# stdQueue::sort

The queue is copied, and the copy is sorted by merging: `_div` cuts the list in the middle
and sorts each half that is not in order already, and `_sort` merges the halves.
-/

namespace TinyState

open Transition

namespace LinkedQueue

variable {ω : Type}

-- ---------------------------------------------------------------------------
-- Model
-- ---------------------------------------------------------------------------

/-- The loop of `_sort`, and what it does at the end of it. -/
def merge (cmp : ω → ω → Int) :
    List (QueueElement ω) → List (QueueElement ω) → List (QueueElement ω)
  | [], b => b
  | x :: a, [] => x :: a
  | x :: a, y :: b =>
    if cmp x.data y.data < 0 then x :: merge cmp a (y :: b)
    else if cmp x.data y.data > 0 then y :: merge cmp (x :: a) b
    else x :: y :: merge cmp a b
termination_by a b => a.length + b.length

/-- The first loop of `_div`, which goes `len` elements on and cuts behind the one it comes to. -/
def cut (len : Nat) : List (QueueElement ω) → List (QueueElement ω) × List (QueueElement ω)
  | [] => ([], [])
  | x :: rest =>
    match len with
    | 0 => ([x], rest)
    | len + 1 => (x :: (cut len rest).1, (cut len rest).2)

/-- Whether `_div` finds two neighbours in the wrong order. -/
def disordered (cmp : ω → ω → Int) : List (QueueElement ω) → Bool
  | x :: y :: rest => cmp x.data y.data > 0 || disordered cmp (y :: rest)
  | _ => false

theorem cut_eq (len : Nat) (l : List (QueueElement ω)) :
    cut len l = (l.take (len + 1), l.drop (len + 1)) := by
  induction l generalizing len with
  | nil => rw [cut, List.take_nil, List.drop_nil]
  | cons x rest ih =>
    cases len with
    | zero => rfl
    | succ len =>
      rw [cut, ih]
      rfl

/-- `_sort`, with `_div` in it. -/
def sortChain (cmp : ω → ω → Int) (inp : List (QueueElement ω)) : List (QueueElement ω) :=
  if h : inp.length ≤ 1 then inp
  else
    merge cmp
      (if disordered cmp (cut (inp.length / 2 - 1) inp).1 then
        sortChain cmp (cut (inp.length / 2 - 1) inp).1
      else (cut (inp.length / 2 - 1) inp).1)
      (if disordered cmp (cut (inp.length / 2 - 1) inp).2 then
        sortChain cmp (cut (inp.length / 2 - 1) inp).2
      else (cut (inp.length / 2 - 1) inp).2)
termination_by inp.length
decreasing_by
  all_goals
    rw [cut_eq]
    simp only [List.length_take, List.length_drop]
    omega

/-- `sort`, with the next address. -/
def sort (q : LinkedQueue ω) (cmp : ω → ω → Int) (fresh : Nat) : LinkedQueue ω × Nat :=
  ({ (q.copy fresh).1 with chain := sortChain cmp (q.copy fresh).1.chain }.setTail,
    (q.copy fresh).2)

-- ---------------------------------------------------------------------------
-- Merging
-- ---------------------------------------------------------------------------

/-- `cmp` compares as a total preorder does, in which `a ≤ b` is `cmp a b ≤ 0`. -/
structure TotalPreorder (cmp : ω → ω → Int) : Prop where
  flip : ∀ a b, 0 < cmp a b ↔ cmp b a < 0
  trans : ∀ a b c, cmp a b ≤ 0 → cmp b c ≤ 0 → cmp a c ≤ 0

variable {cmp : ω → ω → Int} {a b l : List (QueueElement ω)} {q : LinkedQueue ω} {n : Nat}

/-- In ascending order. -/
abbrev Ascending (cmp : ω → ω → Int) (l : List (QueueElement ω)) : Prop :=
  l.Pairwise fun x y => cmp x.data y.data ≤ 0

theorem merge_perm (cmp : ω → ω → Int) (a b : List (QueueElement ω)) :
    (merge cmp a b).Perm (a ++ b) := by
  induction a, b using merge.induct cmp with
  | case1 b => rw [merge, List.nil_append]
  | case2 x a => rw [merge, List.append_nil]
  | case3 x a y b hlt ih =>
    rw [merge, if_pos hlt]
    exact ih.cons x
  | case4 x a y b hlt hgt ih =>
    rw [merge, if_neg hlt, if_pos hgt]
    exact (ih.cons y).trans List.perm_middle.symm
  | case5 x a y b hlt hgt ih =>
    rw [merge, if_neg hlt, if_neg hgt]
    exact ((ih.cons y).trans List.perm_middle.symm).cons x

/-- What is not above the head of a list in order is not above any of its elements. -/
theorem TotalPreorder.le_all (hc : TotalPreorder cmp) {z x : QueueElement ω}
    (hz : cmp z.data x.data ≤ 0) (hl : Ascending cmp (x :: l)) :
    ∀ w ∈ x :: l, cmp z.data w.data ≤ 0 := by
  intro w hw
  rcases List.mem_cons.mp hw with rfl | hw
  · exact hz
  · exact hc.trans _ _ _ hz ((List.pairwise_cons.mp hl).1 w hw)

theorem TotalPreorder.refl (hc : TotalPreorder cmp) (d : ω) : cmp d d ≤ 0 := by
  have hf := hc.flip d d
  omega

/-- What is not above any element of two lists is not above any of the merged list. -/
theorem forall_merge {P : QueueElement ω → Prop} (ha : ∀ w ∈ a, P w) (hb : ∀ w ∈ b, P w) :
    ∀ w ∈ merge cmp a b, P w := by
  intro w hw
  rcases List.mem_append.mp ((merge_perm cmp a b).mem_iff.mp hw) with hw | hw
  · exact ha w hw
  · exact hb w hw

theorem merge_ascending (hc : TotalPreorder cmp) (ha : Ascending cmp a) (hb : Ascending cmp b) :
    Ascending cmp (merge cmp a b) := by
  induction a, b using merge.induct cmp with
  | case1 b => rwa [merge]
  | case2 x a => rwa [merge]
  | case3 x a y b hlt ih =>
    rw [merge, if_pos hlt]
    obtain ⟨hx, ha⟩ := List.pairwise_cons.mp ha
    exact List.pairwise_cons.mpr ⟨forall_merge hx (hc.le_all (by omega) hb), ih ha hb⟩
  | case4 x a y b hlt hgt ih =>
    have hyx : cmp y.data x.data < 0 := (hc.flip _ _).mp hgt
    rw [merge, if_neg hlt, if_pos hgt]
    obtain ⟨hy, hb⟩ := List.pairwise_cons.mp hb
    exact List.pairwise_cons.mpr ⟨forall_merge (hc.le_all (by omega) ha) hy, ih ha hb⟩
  | case5 x a y b hlt hgt ih =>
    have hxy : cmp x.data y.data ≤ 0 := by omega
    have hyx : cmp y.data x.data ≤ 0 := by
      have hf := hc.flip y.data x.data
      omega
    rw [merge, if_neg hlt, if_neg hgt]
    have hxb := hc.le_all hxy hb
    have hya := hc.le_all hyx ha
    obtain ⟨hx, ha⟩ := List.pairwise_cons.mp ha
    obtain ⟨hy, hb⟩ := List.pairwise_cons.mp hb
    refine List.pairwise_cons.mpr ⟨?_, List.pairwise_cons.mpr ⟨?_, ih ha hb⟩⟩
    · exact List.forall_mem_cons.mpr ⟨hxy, forall_merge hx (List.forall_mem_cons.mp hxb).2⟩
    · exact forall_merge (List.forall_mem_cons.mp hya).2 hy

-- ---------------------------------------------------------------------------
-- Sorting
-- ---------------------------------------------------------------------------

/-- A list with no two neighbours in the wrong order is in order. -/
theorem ascending_of_not_disordered (hc : TotalPreorder cmp) (h : disordered cmp l = false) :
    Ascending cmp l := by
  induction l with
  | nil => exact .nil
  | cons x l ih =>
    cases l with
    | nil => exact List.pairwise_singleton _ x
    | cons y l =>
      rw [disordered, Bool.or_eq_false_iff, decide_eq_false_iff_not] at h
      have hy := ih h.2
      exact List.pairwise_cons.mpr ⟨hc.le_all (by omega) hy, hy⟩

theorem sortChain_perm (cmp : ω → ω → Int) (l : List (QueueElement ω)) :
    (sortChain cmp l).Perm l := by
  induction l using sortChain.induct with
  | case1 l h => rw [sortChain, dif_pos h]
  | case2 l h ih₁ ih₂ =>
    have hif : ∀ {m : List (QueueElement ω)},
        (sortChain cmp m).Perm m → (if disordered cmp m then sortChain cmp m else m).Perm m := by
      intro m hm
      split
      · exact hm
      · exact .refl m
    have hcut : (cut (l.length / 2 - 1) l).1 ++ (cut (l.length / 2 - 1) l).2 = l := by
      rw [cut_eq, List.take_append_drop]
    rw [sortChain, dif_neg h]
    refine (merge_perm cmp _ _).trans ?_
    conv => rhs; rw [← hcut]
    exact (hif ih₁).append (hif ih₂)

theorem sortChain_ascending (hc : TotalPreorder cmp) (l : List (QueueElement ω)) :
    Ascending cmp (sortChain cmp l) := by
  induction l using sortChain.induct with
  | case1 l h =>
    rw [sortChain, dif_pos h]
    match l, h with
    | [], _ => exact .nil
    | [x], _ => exact List.pairwise_singleton _ x
  | case2 l h ih₁ ih₂ =>
    have hif : ∀ {m : List (QueueElement ω)},
        Ascending cmp (sortChain cmp m) →
          Ascending cmp (if disordered cmp m then sortChain cmp m else m) := by
      intro m hm
      split
      · exact hm
      · exact ascending_of_not_disordered hc (Bool.eq_false_iff.mpr ‹_›)
    rw [sortChain, dif_neg h]
    exact merge_ascending hc (hif ih₁) (hif ih₂)

/-- What `sort` leaves behind: the data of the queue in ascending order, under new addresses. -/
structure Sorted (cmp : ω → ω → Int) (q r : LinkedQueue ω) (n m : Nat) : Prop where
  perm : (r.chain.map QueueElement.data).Perm (q.chain.map QueueElement.data)
  ascending : r.chain.Pairwise fun x y => cmp x.data y.data ≤ 0
  tail : r.tail = r.chain.getLast?.map QueueElement.id
  count : r.count = r.chain.length
  insNeq : r.insNeq = q.insNeq
  nodup : (r.chain.map QueueElement.id).Nodup
  new : ∀ x ∈ r.chain, n ≤ x.id ∧ x.id < m

theorem insAll_ids (h : q.Valid) (hf : q.Fresh n) (l : List ω) :
    ∀ x ∈ (q.insAll n l).1.chain, x ∈ q.chain ∨ n ≤ x.id := by
  induction l generalizing q n with
  | nil => exact fun x hx => .inl hx
  | cons d l ih =>
    have hi : (q.ins ⟨n, maxInteger64, d⟩).Valid ∧ (q.ins ⟨n, maxInteger64, d⟩).Fresh (n + 1) :=
      h.ins (Int.le_refl _) hf
    have hc : (q.ins ⟨n, maxInteger64, d⟩).chain = q.chain ++ [⟨n, maxInteger64, d⟩] := h.ins_max rfl
    intro x hx
    rcases ih hi.1 hi.2 x hx with hx | hx
    · rw [hc, List.mem_append, List.mem_singleton] at hx
      rcases hx with hx | rfl
      · exact .inl hx
      · exact .inr (Nat.le_refl n)
    · exact .inr (Nat.le_of_succ_le hx)

theorem sort_sorted (hc : TotalPreorder cmp) (q : LinkedQueue ω) (n : Nat) :
    Sorted cmp q (q.sort cmp n).1 n (q.sort cmp n).2 := by
  have hcopy := q.copy_copied n
  have hp := sortChain_perm cmp (q.copy n).1.chain
  have hd : (q.copy n).1.chain.map QueueElement.data = q.chain.map QueueElement.data := by
    have hl := congrArg (List.map Prod.snd) hcopy.list
    rw [toStd, List.map_map, List.map_map] at hl
    exact hl
  refine ⟨?_, sortChain_ascending hc _, rfl, rfl, hcopy.insNeq, ?_, fun x hx => ?_⟩
  · rw [← hd]
    exact hp.map QueueElement.data
  · exact (hp.map QueueElement.id).nodup_iff.mpr hcopy.valid.nodup
  · have hx : x ∈ (q.copy n).1.chain := hp.mem_iff.mp hx
    refine ⟨?_, hcopy.new x hx⟩
    exact (insAll_ids (empty_valid q.insNeq) (fun _ h => by cases h) _ x hx).resolve_left List.not_mem_nil

end LinkedQueue

namespace Queues

open LinkedQueue

variable {ω : Type} {s : Queues ω} {os tr : List ω}

/-- `sort` ends, whatever has been done to the queues, and what it makes is a permutation of
the queue in ascending order, with `tail` and `count` as they should be. Of its elements none
is in any of the queues, which are left as they are. -/
theorem sort_law {cmp : ω → ω → Int} (h : (machine ω).Run tr s) (hc : TotalPreorder cmp) (i : Nat) :
    Sorted cmp (s.queue i) ((s.queue i).sort cmp s.fresh).1 s.fresh
        ((s.queue i).sort cmp s.fresh).2 ∧
      ∀ j, ∀ x ∈ (s.queue j).chain, ∀ y ∈ ((s.queue i).sort cmp s.fresh).1.chain, x.id ≠ y.id := by
  have hs := (s.queue i).sort_sorted hc s.fresh
  refine ⟨hs, fun j x hx y hy => ?_⟩
  have hlt : x.id < s.fresh := (valid h j).2 x hx
  have hle := (hs.new y hy).1
  omega

/-- A queue of three, two of which are equal. -/
theorem sort_law_three : ∃ tr s, (machine Nat).Run tr s ∧
    ((s.queue 0).sort (fun a b : Nat => (a : Int) - b) s.fresh).1.chain.map QueueElement.data =
      [2, 3, 3] ∧
    Sorted (fun a b : Nat => (a : Int) - b) (s.queue 0)
        ((s.queue 0).sort (fun a b : Nat => (a : Int) - b) s.fresh).1 s.fresh
        ((s.queue 0).sort (fun a b : Nat => (a : Int) - b) s.fresh).2 ∧
      ∀ j, ∀ x ∈ (s.queue j).chain,
        ∀ y ∈ ((s.queue 0).sort (fun a b : Nat => (a : Int) - b) s.fresh).1.chain, x.id ≠ y.id := by
  have hc : TotalPreorder fun a b : Nat => (a : Int) - b :=
    ⟨fun a b => by omega, fun a b c hab hbc => by omega⟩
  have hstart : (machine Nat).Run [] start := .start fun _ => ⟨false, rfl⟩
  have h := ((hstart.step (a := .ins 0 maxInteger64 3) trivial rfl).step
    (a := .ins 0 maxInteger64 2) trivial rfl).step (a := .ins 0 maxInteger64 3) trivial rfl
  refine ⟨_, _, h, ?_, sort_law h hc 0⟩
  simp [Queues.set, sort, copy, LinkedQueue.insAll, LinkedQueue.ins, start, LinkedQueue.empty,
    link, setTail, sortChain, cut, disordered, merge]

end Queues

end TinyState
