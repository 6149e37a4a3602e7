import TinyState.Containers.Queue
import Mathlib.Logic.Nontrivial.Basic

/-!
# Copies of stdQueue

The copy constructor puts the data into a new queue, each with the key `MAX_INTEGER64`, and
`stdQueueString` takes over the elements of such a copy. What is in the queue is the same
then; what is put in later need not come to the same place.
-/

namespace TinyState

open Transition

namespace LinkedQueue

variable {ω : Type}

-- ---------------------------------------------------------------------------
-- Model
-- ---------------------------------------------------------------------------

/-- `stdQueue(q)`, with the next address. -/
def copy (q : LinkedQueue ω) (fresh : Nat) : LinkedQueue ω × Nat :=
  (empty q.insNeq).insAll fresh (q.chain.map QueueElement.data)

/-- `stdQueueString(q)`, with the next address; `insNeq` is as the constructor of `stdQueue`
leaves it. -/
def stringCopy (q : LinkedQueue ω) (fresh : Nat) : LinkedQueue ω × Nat :=
  let str := (q.copy fresh).1
  (⟨str.chain, str.chain.head?.map QueueElement.id, str.count, false, 0, false⟩, (q.copy fresh).2)

/-- The operations on two queues; keys are of the type `INTEGER64`. -/
inductive QueueOp (ω : Type)
  | ins (key : Int) (data : ω)
  | del
  | delIf (cmp : ω → Bool)

def QueueOp.InRange : QueueOp ω → Prop
  | ins key _ => -2 ^ 63 ≤ key ∧ key ≤ maxInteger64
  | _ => True

/-- The queue after an operation, what it returns, and the next address. -/
def apply (q : LinkedQueue ω) (fresh : Nat) : QueueOp ω → LinkedQueue ω × Option ω × Nat
  | .ins key data => (q.ins ⟨fresh, key, data⟩, none, fresh + 1)
  | .del => ((q.del.map Prod.snd).getD q, q.del.map Prod.fst, fresh)
  | .delIf cmp => (((q.delIf cmp).map Prod.snd).getD q, (q.delIf cmp).map Prod.fst, fresh)

/-- The queue after some operations, and what they return. -/
def applyAll (q : LinkedQueue ω) (fresh : Nat) : List (QueueOp ω) → LinkedQueue ω × List (Option ω)
  | [] => (q, [])
  | op :: ops =>
    (((q.apply fresh op).1.applyAll (q.apply fresh op).2.2 ops).1,
      (q.apply fresh op).2.1 :: ((q.apply fresh op).1.applyAll (q.apply fresh op).2.2 ops).2)

/-- After the same operations both queues have returned the same and hold the same, in the
same order. -/
def Alike (q r : LinkedQueue ω) (fresh : Nat) : Prop :=
  ∀ ops : List (QueueOp ω), (∀ op ∈ ops, op.InRange) →
    (q.applyAll fresh ops).2 = (r.applyAll fresh ops).2 ∧
    (q.applyAll fresh ops).1.chain.map QueueElement.data =
      (r.applyAll fresh ops).1.chain.map QueueElement.data ∧
    (q.applyAll fresh ops).1.count = (r.applyAll fresh ops).1.count

/-- The key is the greatest, or the next to it where equal keys are put before. -/
def Highest (insNeq : Bool) (key : Int) : Prop :=
  if insNeq then key = maxInteger64 else maxInteger64 - 1 ≤ key

instance (insNeq : Bool) (key : Int) : Decidable (Highest insNeq key) := by
  unfold Highest
  infer_instance

-- ---------------------------------------------------------------------------
-- Queues that behave alike
-- ---------------------------------------------------------------------------

variable {q r : LinkedQueue ω} {n : Nat}

/-- No key below the greatest is put in another place by the one than by the other. -/
def SameStops (insNeq : Bool) (k k' : Int) : Prop :=
  ∀ key < maxInteger64, StdQueue.stops insNeq k key = StdQueue.stops insNeq k' key

theorem sameStops_highest {insNeq : Bool} {k : Int} (h : Highest insNeq k)
    (hk : k ≤ maxInteger64) : SameStops insNeq k maxInteger64 := by
  intro key hlt
  unfold Highest at h
  unfold StdQueue.stops
  cases insNeq with
  | true =>
    obtain rfl : k = maxInteger64 := by simpa using h
    rfl
  | false =>
    have h : maxInteger64 - 1 ≤ k := by simpa using h
    rw [if_neg Bool.false_ne_true, if_neg Bool.false_ne_true, decide_eq_true (by omega),
      decide_eq_true (by omega)]

/-- The data are the same, and the keys make no difference. -/
structure Twin (q r : LinkedQueue ω) : Prop where
  left : q.Valid
  right : r.Valid
  insNeq : r.insNeq = q.insNeq
  counted : q.uncounted = 0 ∧ r.uncounted = 0
  same : List.Forall₂ (fun x y => x.2 = y.2 ∧ SameStops q.insNeq x.1 y.1) q.toStd.list r.toStd.list

theorem Twin.data (h : Twin q r) : q.chain.map QueueElement.data = r.chain.map QueueElement.data := by
  have hm : ∀ {l l' : List (Int × ω)},
      List.Forall₂ (fun x y => x.2 = y.2 ∧ SameStops q.insNeq x.1 y.1) l l' →
        l.map Prod.snd = l'.map Prod.snd := by
    intro l l' hl
    induction hl with
    | nil => rfl
    | cons hx _ ih => rw [List.map_cons, List.map_cons, hx.1, ih]
  have hd := hm h.same
  simpa [toStd, Function.comp_def] using hd

theorem Twin.count (h : Twin q r) : q.count = r.count := by
  have hl := h.left.count
  have hr := h.right.count
  have hlen := congrArg List.length h.data
  rw [List.length_map, List.length_map] at hlen
  rw [h.counted.1] at hl
  rw [h.counted.2] at hr
  omega

theorem insSorted_same {insNeq : Bool} {key : Int} {data : ω} {l l' : List (Int × ω)}
    (hk : key < maxInteger64)
    (h : List.Forall₂ (fun x y => x.2 = y.2 ∧ SameStops insNeq x.1 y.1) l l') :
    List.Forall₂ (fun x y => x.2 = y.2 ∧ SameStops insNeq x.1 y.1)
      (StdQueue.insSorted insNeq key data l) (StdQueue.insSorted insNeq key data l') := by
  induction h with
  | nil => exact .cons ⟨rfl, fun _ _ => rfl⟩ .nil
  | @cons x y l l' hx hl ih =>
    rw [StdQueue.insSorted, StdQueue.insSorted, ← hx.2 key hk]
    split
    · exact .cons ⟨rfl, fun _ _ => rfl⟩ (.cons hx hl)
    · exact .cons hx ih

theorem Twin.ins (h : Twin q r) {key : Int} {data : ω} (hk : key ≤ maxInteger64) (hq : q.Fresh n)
    (hr : r.Fresh n) : Twin (q.ins ⟨n, key, data⟩) (r.ins ⟨n, key, data⟩) := by
  have hqs : (q.ins ⟨n, key, data⟩).toStd = q.toStd.ins key data := h.left.ins_toStd
  have hrs : (r.ins ⟨n, key, data⟩).toStd = r.toStd.ins key data := h.right.ins_toStd
  refine ⟨(h.left.ins hk hq).1, (h.right.ins hk hr).1, ?_, ?_, ?_⟩
  · rw [(q.ins_frame _).1, (r.ins_frame _).1, h.insNeq]
  · rw [(q.ins_frame _).2.1, (r.ins_frame _).2.1]
    exact h.counted
  · rw [hqs, hrs, (q.ins_frame _).1]
    unfold StdQueue.ins
    split
    · exact List.rel_append h.same (.cons ⟨rfl, fun _ _ => rfl⟩ .nil)
    · next hne =>
      have hi : r.toStd.insNeq = q.insNeq := h.insNeq
      dsimp only
      rw [hi]
      exact insSorted_same (lt_of_le_of_ne hk hne) h.same

theorem del_frame {p : ω × LinkedQueue ω} (h : q.del = some p) :
    p.2.insNeq = q.insNeq ∧ p.2.uncounted = q.uncounted ∧ p.2.placed = q.placed := by
  unfold del at h
  split at h
  · cases h
  · cases h
    exact ⟨rfl, rfl, rfl⟩

theorem delIf_frame {cmp : ω → Bool} {p : ω × LinkedQueue ω} (h : q.delIf cmp = some p) :
    p.2.insNeq = q.insNeq ∧ p.2.uncounted = q.uncounted ∧ p.2.placed = q.placed := by
  unfold delIf at h
  split at h
  · cases h
  · split at h
    · exact del_frame h
    · obtain ⟨_, -, rfl⟩ := Option.map_eq_some_iff.mp h
      exact ⟨rfl, rfl, rfl⟩

/-- What is left of twins are twins, if the same is taken out of them. -/
inductive Taken (q r : LinkedQueue ω) :
    Option (ω × LinkedQueue ω) → Option (ω × LinkedQueue ω) → Prop
  | none : Taken q r none none
  | some {d : ω} {q' r' : LinkedQueue ω} : Twin q' r' → q'.chain.Sublist q.chain →
      r'.chain.Sublist r.chain → Taken q r (some (d, q')) (some (d, r'))

theorem eraseP_same {insNeq : Bool} {cmp : ω → Bool} {l l' : List (Int × ω)}
    (h : List.Forall₂ (fun x y => x.2 = y.2 ∧ SameStops insNeq x.1 y.1) l l') :
    List.Forall₂ (fun x y => x.2 = y.2 ∧ SameStops insNeq x.1 y.1)
      (l.eraseP fun x => cmp x.2) (l'.eraseP fun x => cmp x.2) := by
  induction h with
  | nil => exact .nil
  | @cons x y l l' hx hl ih =>
    rw [List.eraseP_cons, List.eraseP_cons, ← hx.1]
    cases cmp x.2 with
    | true => exact hl
    | false => exact .cons hx ih

theorem delIf_eq {cmp : ω → Bool} {d : ω} (h : q.toStd.members.find? cmp = some d) :
    ∃ q', q.delIf cmp = some (d, q') ∧
      q'.toStd.list = q.toStd.list.eraseP fun x => cmp x.2 := by
  have hs := q.delIf_toStd cmp
  rw [StdQueue.delIf, h, Option.map_some] at hs
  obtain ⟨⟨d', q'⟩, hq, he⟩ := Option.map_eq_some_iff.mp hs
  obtain ⟨rfl, hl⟩ := Prod.ext_iff.mp he
  exact ⟨q', hq, congrArg StdQueue.list hl⟩

theorem delIf_eq_none {cmp : ω → Bool} (h : q.toStd.members.find? cmp = none) :
    q.delIf cmp = none := by
  have hs := q.delIf_toStd cmp
  rw [StdQueue.delIf, h] at hs
  exact Option.map_eq_none_iff.mp hs

theorem Twin.delIf (h : Twin q r) (cmp : ω → Bool) : Taken q r (q.delIf cmp) (r.delIf cmp) := by
  have hm : q.toStd.members = r.toStd.members := by
    have hd := h.data
    simpa [StdQueue.members, toStd, Function.comp_def] using hd
  cases hf : q.toStd.members.find? cmp with
  | none =>
    rw [delIf_eq_none hf, delIf_eq_none (hm ▸ hf)]
    exact .none
  | some d =>
    obtain ⟨q', hq, hql⟩ := delIf_eq hf
    obtain ⟨r', hr, hrl⟩ := delIf_eq (hm ▸ hf)
    obtain ⟨hqv, hqs⟩ := h.left.delIf hq
    obtain ⟨hrv, hrs⟩ := h.right.delIf hr
    obtain ⟨hqi, hqu, -⟩ := delIf_frame hq
    obtain ⟨hri, hru, -⟩ := delIf_frame hr
    rw [hq, hr]
    refine .some ⟨hqv, hrv, ?_, ?_, ?_⟩ hqs hrs
    · rw [hqi, hri, h.insNeq]
    · rw [hqu, hru]
      exact h.counted
    · rw [hql, hrl, hqi]
      exact eraseP_same h.same

theorem delIf_true (q : LinkedQueue ω) : q.delIf (fun _ => true) = q.del := by
  unfold delIf
  split
  · next h => rw [del, h]
  · rfl

theorem Fresh.sublist (h : q.Fresh n) (hs : r.chain.Sublist q.chain) : r.Fresh n :=
  fun x hx => h x (hs.subset hx)

/-- Twins answer an operation alike, and are twins after it. -/
theorem Twin.apply (h : Twin q r) (hq : q.Fresh n) (hr : r.Fresh n) {op : QueueOp ω}
    (ho : op.InRange) :
    (q.apply n op).2 = (r.apply n op).2 ∧ Twin (q.apply n op).1 (r.apply n op).1 ∧
      (q.apply n op).1.Fresh (q.apply n op).2.2 ∧ (r.apply n op).1.Fresh (q.apply n op).2.2 := by
  have htaken : ∀ {fq fr : Option (ω × LinkedQueue ω)}, Taken q r fq fr →
      fq.map Prod.fst = fr.map Prod.fst ∧
        Twin ((fq.map Prod.snd).getD q) ((fr.map Prod.snd).getD r) ∧
        ((fq.map Prod.snd).getD q).Fresh n ∧ ((fr.map Prod.snd).getD r).Fresh n := by
    intro fq fr ht
    cases ht with
    | none => exact ⟨rfl, h, hq, hr⟩
    | some ht hqs hrs => exact ⟨rfl, ht, hq.sublist hqs, hr.sublist hrs⟩
  cases op with
  | ins key data =>
    exact ⟨rfl, h.ins ho.2 hq hr, (h.left.ins ho.2 hq).2, (h.right.ins ho.2 hr).2⟩
  | del =>
    have ht := h.delIf fun _ => true
    rw [delIf_true, delIf_true] at ht
    obtain ⟨hret, htw, hfq, hfr⟩ := htaken ht
    exact ⟨Prod.ext hret rfl, htw, hfq, hfr⟩
  | delIf cmp =>
    obtain ⟨hret, htw, hfq, hfr⟩ := htaken (h.delIf cmp)
    exact ⟨Prod.ext hret rfl, htw, hfq, hfr⟩

theorem Twin.alike (h : Twin q r) (hq : q.Fresh n) (hr : r.Fresh n) : Alike q r n := by
  intro ops hops
  induction ops generalizing q r n with
  | nil => exact ⟨rfl, h.data, h.count⟩
  | cons op ops ih =>
    obtain ⟨ho, hops⟩ := List.forall_mem_cons.mp hops
    obtain ⟨hret, htw, hfq, hfr⟩ := h.apply hq hr ho
    have hi := ih htw hfq hfr hops
    rw [applyAll, applyAll, ← congrArg Prod.fst hret, ← congrArg Prod.snd hret]
    exact ⟨congrArg ((q.apply n op).2.1 :: ·) hi.1, hi.2⟩

-- ---------------------------------------------------------------------------
-- Copies
-- ---------------------------------------------------------------------------

theorem insAll_toStd (h : q.Valid) (hf : q.Fresh n) (l : List ω) :
    (q.insAll n l).1.toStd.list = q.toStd.list ++ l.map fun d => (maxInteger64, d) := by
  induction l generalizing q n with
  | nil => exact (List.append_nil _).symm
  | cons d l ih =>
    have hi : (q.ins ⟨n, maxInteger64, d⟩).Valid ∧ (q.ins ⟨n, maxInteger64, d⟩).Fresh (n + 1) :=
      h.ins (Int.le_refl _) hf
    have hs : (q.ins ⟨n, maxInteger64, d⟩).toStd = q.toStd.ins maxInteger64 d := h.ins_toStd
    have ho : (q.toStd.ins maxInteger64 d).list = q.toStd.list ++ [(maxInteger64, d)] := by
      simp only [StdQueue.ins, if_true]
    rw [insAll, ih hi.1 hi.2, hs, ho, List.append_assoc]
    rfl

theorem insAll_frame (q : LinkedQueue ω) (l : List ω) :
    (q.insAll n l).1.insNeq = q.insNeq ∧ (q.insAll n l).1.uncounted = q.uncounted := by
  induction l generalizing q n with
  | nil => exact ⟨rfl, rfl⟩
  | cons d l ih =>
    obtain ⟨hi, hu⟩ := ih (n := n + 1) (q.ins ⟨n, maxInteger64, d⟩)
    exact ⟨hi.trans (q.ins_frame _).1, hu.trans (q.ins_frame _).2.1⟩

theorem empty_valid (insNeq : Bool) : (empty insNeq : LinkedQueue ω).Valid :=
  ⟨⟨rfl, List.nodup_nil, nofun, fun _ => .nil⟩, rfl⟩

/-- A copy is a queue with the same data, all under the greatest key. -/
structure Copied (q r : LinkedQueue ω) (n m : Nat) : Prop where
  valid : r.Valid
  new : r.Fresh m
  next : n ≤ m
  insNeq : r.insNeq = q.insNeq
  uncounted : r.uncounted = 0
  list : r.toStd.list = q.chain.map fun x => (maxInteger64, x.data)

theorem copy_copied (q : LinkedQueue ω) (n : Nat) : Copied q (q.copy n).1 n (q.copy n).2 := by
  have he : (empty q.insNeq : LinkedQueue ω).Fresh n := nofun
  obtain ⟨hv, hf, hn⟩ := (empty_valid q.insNeq).insAll he (q.chain.map QueueElement.data)
  obtain ⟨hi, hu⟩ := (empty q.insNeq).insAll_frame (n := n) (q.chain.map QueueElement.data)
  refine ⟨hv, hf, hn, hi, hu, ?_⟩
  rw [copy, insAll_toStd (empty_valid _) he, List.map_map]
  rfl

/-- A queue whose keys are the highest is the twin of a queue like its copy. -/
theorem Copied.twin {m : Nat} (h : Copied q r n m) (hq : q.Valid) (hu : q.uncounted = 0)
    (hk : ∀ x ∈ q.chain, Highest q.insNeq x.key) : Twin q r := by
  refine ⟨hq, h.valid, h.insNeq, ⟨hu, h.uncounted⟩, ?_⟩
  have hr := hq.range
  rw [h.list, toStd]
  dsimp only
  generalize q.chain = l at hk hr
  induction l with
  | nil => exact .nil
  | cons x l ih =>
    obtain ⟨hx, hk⟩ := List.forall_mem_cons.mp hk
    obtain ⟨hxr, hr⟩ := List.forall_mem_cons.mp hr
    exact .cons ⟨rfl, sameStops_highest hx hxr⟩ (ih hk hr)

/-- `stdQueueString` takes over the elements of the copy. -/
theorem stringCopy_copied (hi : q.insNeq = false) (hl : q.chain.length ≤ 1) :
    Copied q (q.stringCopy n).1 n (q.stringCopy n).2 := by
  have hc := q.copy_copied n
  have hlen : (q.copy n).1.chain.length ≤ 1 := by
    have hd := congrArg List.length hc.list
    rw [toStd, List.length_map, List.length_map] at hd
    exact hd ▸ hl
  have htail : (q.copy n).1.chain.head?.map QueueElement.id =
      (q.copy n).1.chain.getLast?.map QueueElement.id := by
    match (q.copy n).1.chain, hlen with
    | [], _ => rfl
    | [x], _ => rfl
  have hv := hc.valid
  refine ⟨⟨⟨htail, hv.nodup, hv.range, fun _ => ?_⟩, ?_⟩, hc.new, hc.next, hi.symm, rfl, hc.list⟩
  · match (q.copy n).1.chain, hlen with
    | [], _ => exact .nil
    | [x], _ => exact List.pairwise_singleton _ _
  · have hcount := hv.count
    rw [hc.uncounted] at hcount
    exact hcount

-- ---------------------------------------------------------------------------
-- Queues that do not behave alike
-- ---------------------------------------------------------------------------

/-- The key below the greatest. -/
theorem inRange_next (data : ω) : (QueueOp.ins (maxInteger64 - 1) data).InRange := by
  have hr : -2 ^ 63 ≤ maxInteger64 - 1 ∧ maxInteger64 - 1 ≤ maxInteger64 := by decide
  exact hr

/-- An element with the key below the greatest is put behind the first one that it passes. -/
theorem ins_head {x y : QueueElement ω} {rest : List (QueueElement ω)} (hc : q.chain = x :: rest)
    (hs : StdQueue.stops q.insNeq x.key y.key = false) (hk : y.key ≠ maxInteger64) :
    ∃ rest', (q.ins y).chain = x :: rest' := by
  rw [ins, hc]
  simp only [if_neg hk, insChain, hs]
  exact ⟨_, rfl⟩

/-- And before one that stops it. -/
theorem ins_stopped {y : QueueElement ω} (hk : y.key ≠ maxInteger64)
    (hs : ∀ x ∈ q.chain.head?, StdQueue.stops q.insNeq x.key y.key = true) :
    (q.ins y).chain = y :: q.chain := by
  rw [ins]
  split
  · next hc => rw [hc]
  · next x rest hc =>
    rw [hc] at hs ⊢
    rw [if_neg hk]
    exact if_pos (hs x rfl)

/-- Queues whose heads differ are not alike. -/
theorem not_alike_of_head {ops : List (QueueOp ω)} (hops : ∀ op ∈ ops, op.InRange)
    (h : (q.applyAll n ops).1.chain.head?.map QueueElement.data ≠
      (r.applyAll n ops).1.chain.head?.map QueueElement.data) : ¬ Alike q r n := by
  intro ha
  have hd := (ha ops hops).2.1
  refine h ?_
  rw [← List.head?_map, ← List.head?_map, hd]

theorem stops_next (insNeq : Bool) :
    StdQueue.stops insNeq maxInteger64 (maxInteger64 - 1) = true := by
  cases insNeq <;> decide

theorem not_stops_next {insNeq : Bool} {k : Int} (hk : k ≤ maxInteger64)
    (h : ¬ Highest insNeq k) : StdQueue.stops insNeq k (maxInteger64 - 1) = false := by
  unfold Highest at h
  unfold StdQueue.stops
  cases insNeq with
  | true =>
    have h : k ≠ maxInteger64 := by simpa using h
    exact decide_eq_false (by omega)
  | false =>
    have h : ¬ maxInteger64 - 1 ≤ k := by simpa using h
    exact decide_eq_false (by omega)

/-- All that is in the queue is under the greatest key. -/
def AllGreatest (q r : LinkedQueue ω) : Prop :=
  r.toStd.list = q.chain.map fun x => (maxInteger64, x.data)

theorem AllGreatest.stops (h : AllGreatest q r) :
    ∀ x ∈ r.chain.head?, StdQueue.stops r.insNeq x.key (maxInteger64 - 1) = true := by
  intro x hx
  have hm : (x.key, x.data) ∈ r.toStd.list := List.mem_map.mpr ⟨x, List.mem_of_mem_head? hx, rfl⟩
  rw [h] at hm
  obtain ⟨y, -, he⟩ := List.mem_map.mp hm
  have hk : maxInteger64 = x.key := (Prod.ext_iff.mp he).1
  rw [← hk]
  exact stops_next _

theorem next_ne : maxInteger64 - 1 ≠ maxInteger64 := by decide

/-- An element with a lower key stays the head of the queue, but not of the copy. -/
theorem not_alike_of_lower [Nontrivial ω] (hq : q.Valid) (hp : q.placed = false)
    (hr : AllGreatest q r) {x : QueueElement ω} (hx : x ∈ q.chain)
    (hk : ¬ Highest q.insNeq x.key) : ¬ Alike q r n := by
  obtain ⟨y, rest, hc⟩ := List.exists_cons_of_ne_nil (List.ne_nil_of_mem hx)
  have hy : ¬ Highest q.insNeq y.key := by
    have hyx : y.key ≤ x.key := by
      have ho := hq.ordered hp
      rw [hc] at hx ho
      rcases List.mem_cons.mp hx with rfl | hx
      · exact Int.le_refl _
      · exact (List.pairwise_cons.mp ho).1 x hx
    have hxr := hq.range x hx
    unfold Highest at hk ⊢
    cases hn : q.insNeq with
    | true =>
      have hk : x.key ≠ maxInteger64 := by simpa [hn] using hk
      have h : y.key ≠ maxInteger64 := by omega
      simpa using h
    | false =>
      have hk : ¬ maxInteger64 - 1 ≤ x.key := by simpa [hn] using hk
      have h : ¬ maxInteger64 - 1 ≤ y.key := by omega
      simpa using h
  obtain ⟨d, hd⟩ := exists_ne y.data
  have hyr : y.key ≤ maxInteger64 := hq.range y (hc ▸ List.mem_cons_self)
  have hops : ∀ op ∈ [QueueOp.ins (maxInteger64 - 1) d], op.InRange :=
    List.forall_mem_singleton.mpr (inRange_next d)
  refine not_alike_of_head hops ?_
  obtain ⟨rest', hqi⟩ : ∃ rest', (q.ins ⟨n, maxInteger64 - 1, d⟩).chain = y :: rest' :=
    ins_head hc (not_stops_next hyr hy) next_ne
  have hri : (r.ins ⟨n, maxInteger64 - 1, d⟩).chain = ⟨n, maxInteger64 - 1, d⟩ :: r.chain :=
    ins_stopped next_ne hr.stops
  simp only [applyAll, apply, hqi, hri, List.head?_cons, Option.map_some]
  exact fun he => hd (Option.some.inj he).symm

/-- Equal keys come in another order where `insNeq` is lost. -/
theorem not_alike_of_insNeq [Nontrivial ω] (hq : q.insNeq = true) (hr : r.insNeq = false)
    (hk : ∀ x ∈ q.chain, Highest q.insNeq x.key) (ha : AllGreatest q r) : ¬ Alike q r n := by
  obtain ⟨a, b, hab⟩ := exists_pair_ne ω
  have hqs : ∀ x ∈ q.chain.head?, StdQueue.stops q.insNeq x.key (maxInteger64 - 1) = true := by
    intro x hx
    have hkx := hk x (List.mem_of_mem_head? hx)
    rw [hq] at hkx ⊢
    have hmax : x.key = maxInteger64 := by simpa [Highest] using hkx
    rw [hmax]
    exact stops_next _
  have hops : ∀ op ∈ [QueueOp.ins (maxInteger64 - 1) a, .ins (maxInteger64 - 1) b], op.InRange :=
    List.forall_mem_cons.mpr ⟨inRange_next a, List.forall_mem_singleton.mpr (inRange_next b)⟩
  refine not_alike_of_head hops ?_
  · have hq₁ : (q.ins ⟨n, maxInteger64 - 1, a⟩).chain = ⟨n, maxInteger64 - 1, a⟩ :: q.chain :=
      ins_stopped next_ne hqs
    have hr₁ : (r.ins ⟨n, maxInteger64 - 1, a⟩).chain = ⟨n, maxInteger64 - 1, a⟩ :: r.chain :=
      ins_stopped next_ne ha.stops
    have hstops : StdQueue.stops (q.ins ⟨n, maxInteger64 - 1, a⟩).insNeq (maxInteger64 - 1)
        (maxInteger64 - 1) = false := by
      rw [(q.ins_frame _).1, hq]
      decide
    obtain ⟨rest, hq₂⟩ : ∃ rest, ((q.ins ⟨n, maxInteger64 - 1, a⟩).ins
        ⟨n + 1, maxInteger64 - 1, b⟩).chain = ⟨n, maxInteger64 - 1, a⟩ :: rest :=
      ins_head hq₁ hstops next_ne
    have hr₂ : ((r.ins ⟨n, maxInteger64 - 1, a⟩).ins ⟨n + 1, maxInteger64 - 1, b⟩).chain =
        ⟨n + 1, maxInteger64 - 1, b⟩ :: ⟨n, maxInteger64 - 1, a⟩ :: r.chain := by
      rw [← hr₁]
      refine ins_stopped next_ne fun x hx => ?_
      rw [hr₁] at hx
      obtain rfl := Option.some.inj hx
      have hself : StdQueue.stops false (maxInteger64 - 1) (maxInteger64 - 1) = true := by decide
      rw [(r.ins_frame _).1, hr]
      exact hself
    simp only [applyAll, apply, hq₂, hr₂, List.head?_cons, Option.map_some]
    exact fun he => hab (Option.some.inj he)

/-- An element put in at the end takes the place of all but the first. -/
theorem not_alike_of_tail [Nonempty ω] (hq : q.Valid) (hl : 1 < q.chain.length)
    (hr : r.tail = r.chain.head?.map QueueElement.id) : ¬ Alike q r n := by
  intro ha
  obtain ⟨d⟩ := ‹Nonempty ω›
  have hd := (ha [.ins maxInteger64 d] (List.forall_mem_singleton.mpr ⟨by decide, Int.le_refl _⟩)).2.1
  have hqi : (q.ins ⟨n, maxInteger64, d⟩).chain = q.chain ++ [⟨n, maxInteger64, d⟩] :=
    hq.ins_max rfl
  have hlen := congrArg List.length hd
  simp only [applyAll, apply, hqi, List.length_map, List.length_append, List.length_singleton] at hlen
  have hshort : (r.ins ⟨n, maxInteger64, d⟩).chain.length ≤ 2 := by
    rw [ins]
    split
    · exact Nat.le_succ 1
    · next x rest hc =>
      rw [if_pos rfl, hr, hc]
      simp [link]
  omega

theorem stringCopy_greatest (q : LinkedQueue ω) (n : Nat) :
    AllGreatest q (q.stringCopy n).1 ∧ (q.stringCopy n).1.insNeq = false ∧
      (q.stringCopy n).1.tail = (q.stringCopy n).1.chain.head?.map QueueElement.id :=
  ⟨(q.copy_copied n).list, rfl, rfl⟩

end LinkedQueue

namespace Queues

open LinkedQueue

variable {ω : Type} {s t : Queues ω} {os tr : List ω} {i : Nat}

/-- Insertions with a key, and removals; `insNeq` is set from outside. -/
def Keyed : QueuesAct ω → Prop
  | .insNeq .. | .ins .. | .del _ | .delIf .. => True
  | _ => False

/-- Nothing has been put in a place of its own, and everything has been counted. -/
def Plain (s : Queues ω) : Prop := ∀ i, (s.queue i).placed = false ∧ (s.queue i).uncounted = 0

theorem Plain.set (h : s.Plain) {q : LinkedQueue ω} {n : Nat}
    (hq : q.placed = (s.queue i).placed ∧ q.uncounted = (s.queue i).uncounted) :
    Plain { s.set i q with fresh := n } := by
  intro j
  simp only [Queues.set, Function.update_apply]
  split
  · next hj =>
    subst hj
    rw [hq.1, hq.2]
    exact h j
  · exact h j

theorem Plain.step (h : s.Plain) {a : QueuesAct ω} (hk : Keyed a) (hs : s.step a = some (t, os)) :
    t.Plain := by
  cases a with
  | insNeq i insNeq =>
    cases hs
    exact h.set ⟨rfl, rfl⟩
  | ins i key data =>
    obtain ⟨-, he⟩ := Option.ite_none_right_eq_some.mp hs
    cases he
    obtain ⟨-, hu, hp⟩ := (s.queue i).ins_frame ⟨s.fresh, key, data⟩
    exact h.set ⟨hp, hu⟩
  | del i =>
    obtain ⟨p, hd, he⟩ := Option.map_eq_some_iff.mp hs
    cases he
    obtain ⟨-, hu, hp⟩ := del_frame hd
    exact h.set ⟨hp, hu⟩
  | delIf i cmp =>
    obtain ⟨p, hd, he⟩ := Option.map_eq_some_iff.mp hs
    cases he
    obtain ⟨-, hu, hp⟩ := delIf_frame hd
    exact h.set ⟨hp, hu⟩
  | insQueue | insRef | setTail | reset | move | moveSelf => cases hk

theorem plain (h : (machine ω).RunIf (fun _ a => Keyed a) tr s) : s.Plain := by
  refine h.stateInvariant ?start ?step
  case start =>
    intro s hi i
    obtain ⟨insNeq, hq⟩ := hi i
    rw [hq]
    exact ⟨rfl, rfl⟩
  case step =>
    intro s a t os h hk hs
    exact h.step hk hs

/-- A copy of a queue made by insertions with keys and removals behaves like the queue if and
only if all keys are the highest; a `stdQueueString` made from it, if and only if moreover
there is one element at most, and `insNeq` is not set. -/
theorem queueCopy_law [Nontrivial ω] (h : (machine ω).RunIf (fun _ a => Keyed a) tr s) (i : Nat) :
    (Alike (s.queue i) ((s.queue i).copy s.fresh).1 ((s.queue i).copy s.fresh).2 ↔
      ∀ x ∈ (s.queue i).chain, Highest (s.queue i).insNeq x.key) ∧
    (Alike (s.queue i) ((s.queue i).stringCopy s.fresh).1 ((s.queue i).stringCopy s.fresh).2 ↔
      (∀ x ∈ (s.queue i).chain, Highest (s.queue i).insNeq x.key) ∧
        (s.queue i).chain.length ≤ 1 ∧ (s.queue i).insNeq = false) := by
  obtain ⟨hv, hf⟩ := valid h.run i
  obtain ⟨hp, hu⟩ := plain h i
  have hold : ∀ {r : LinkedQueue ω} {m : Nat}, Copied (s.queue i) r s.fresh m →
      (s.queue i).Fresh m := fun hc x hx => Nat.lt_of_lt_of_le (hf x hx) hc.next
  refine ⟨⟨fun ha => ?_, fun hk => ?_⟩, fun ha => ?_, fun ⟨hk, hl, hn⟩ => ?_⟩
  · intro x hx
    by_contra hk
    exact not_alike_of_lower hv hp ((s.queue i).copy_copied s.fresh).list hx hk ha
  · have hc := (s.queue i).copy_copied s.fresh
    exact (hc.twin hv hu hk).alike (hold hc) hc.new
  · obtain ⟨hg, hn, ht⟩ := (s.queue i).stringCopy_greatest s.fresh
    have hk : ∀ x ∈ (s.queue i).chain, Highest (s.queue i).insNeq x.key := by
      intro x hx
      by_contra hk
      exact not_alike_of_lower hv hp hg hx hk ha
    refine ⟨hk, ?_, ?_⟩
    · by_contra hl
      exact not_alike_of_tail hv (Nat.lt_of_not_le hl) ht ha
    · by_contra hne
      exact not_alike_of_insNeq (Bool.eq_true_of_not_eq_false hne) hn hk hg ha
  · have hc : Copied (s.queue i) ((s.queue i).stringCopy s.fresh).1 s.fresh _ :=
      stringCopy_copied hn hl
    exact (hc.twin hv hu hk).alike (hold hc) hc.new

/-- A queue of one element under the greatest key. -/
theorem queueCopy_law_single : ∃ tr s, (machine Nat).RunIf (fun _ a => Keyed a) tr s ∧
    (Alike (s.queue 0) ((s.queue 0).copy s.fresh).1 ((s.queue 0).copy s.fresh).2 ↔
      ∀ x ∈ (s.queue 0).chain, Highest (s.queue 0).insNeq x.key) ∧
    (Alike (s.queue 0) ((s.queue 0).stringCopy s.fresh).1 ((s.queue 0).stringCopy s.fresh).2 ↔
      (∀ x ∈ (s.queue 0).chain, Highest (s.queue 0).insNeq x.key) ∧
        (s.queue 0).chain.length ≤ 1 ∧ (s.queue 0).insNeq = false) := by
  have hstart : (machine Nat).RunIf (fun _ a => Keyed a) [] start :=
    .start fun _ => ⟨false, rfl⟩
  have h := hstart.step (a := .ins 0 maxInteger64 10) (by trivial) rfl
  exact ⟨_, _, h, queueCopy_law h 0⟩

/-- The key of the element is lost, so that what is put in later comes before it; and the
first insertion at the end of a `stdQueueString` lets its second element go. -/
theorem queueCopy_differs :
    (∃ tr s, (machine Nat).RunIf (fun _ a => Keyed a) tr s ∧
      ((s.queue 0).applyAll 5 [.ins 7 20, .del]).2 = [none, some 10] ∧
      (((s.queue 0).copy s.fresh).1.applyAll 5 [.ins 7 20, .del]).2 = [none, some 20]) ∧
    ∃ tr s, (machine Nat).RunIf (fun _ a => Keyed a) tr s ∧
      ((s.queue 0).applyAll 5 [.ins maxInteger64 30]).1.chain.map QueueElement.data = [10, 20, 30] ∧
      (((s.queue 0).stringCopy s.fresh).1.applyAll 5 [.ins maxInteger64 30]).1.chain.map
        QueueElement.data = [10, 30] := by
  have hstart : (machine Nat).RunIf (fun _ a => Keyed a) [] start :=
    .start fun _ => ⟨false, rfl⟩
  refine ⟨?_, ?_⟩
  · exact ⟨_, _, hstart.step (a := .ins 0 5 10) (by trivial) rfl, by decide, by decide⟩
  · exact ⟨_, _, (hstart.step (a := .ins 0 maxInteger64 10) (by trivial) rfl).step
      (a := .ins 0 maxInteger64 20) (by trivial) rfl, by decide, by decide⟩

end Queues

end TinyState
