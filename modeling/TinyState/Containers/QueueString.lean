import TinyState.Containers.QueueCopy
import TinyState.Containers.StdString
import TinyState.Lib.OrderedMerge
import Mathlib.Data.List.Lex

/-!
# stdQueueString: add and sub

Two queues of strings in strictly ascending order are merged into a new queue: `add` makes
their union, `sub` what the first has and the second has not.
-/

namespace TinyState

open Transition OrderedMerge

namespace StdString

/-- `strcmp`, which compares the characters as `unsigned char`. -/
def strcmp : List StrChar → List StrChar → Int
  | [], [] => 0
  | [], b :: _ => -(b.1.toNat : Int)
  | a :: _, [] => a.1.toNat
  | a :: s, b :: t => if a = b then strcmp s t else a.1.toNat - b.1.toNat

/-- `cmp`, with a string that may be null. -/
def cmp (s : List StrChar) : Option (List StrChar) → Int
  | none => if s = [] then 0 else 1
  | some str => strcmp s str

/-- `STR_NULL`. -/
def strNull (inp : Option (List StrChar)) : List StrChar := inp.getD []

/-- The codes of the characters, by which strings are ordered. -/
def codes (s : List StrChar) : List Nat := s.map fun c => c.1.toNat

theorem code_pos (c : StrChar) : 0 < c.1.toNat :=
  Nat.pos_of_ne_zero fun h => c.2 (UInt8.toNat_inj.mp h)

theorem code_injective : Function.Injective fun c : StrChar => c.1.toNat :=
  fun _ _ h => Subtype.ext (UInt8.toNat_inj.mp h)

theorem codes_injective : Function.Injective codes := List.map_injective_iff.mpr code_injective

theorem strcmp_spec (s t : List StrChar) :
    (strcmp s t < 0 ↔ codes s < codes t) ∧ (0 < strcmp s t ↔ codes t < codes s) := by
  induction s generalizing t with
  | nil =>
    cases t with
    | nil => simp [strcmp, codes]
    | cons b t =>
      have hb := code_pos b
      simp only [strcmp, codes, List.map_nil, List.map_cons]
      exact ⟨iff_of_true (by omega) (List.nil_lt_cons ..),
        iff_of_false (by omega) (List.not_lt_nil _)⟩
  | cons a s ih =>
    cases t with
    | nil =>
      have ha := code_pos a
      simp only [strcmp, codes, List.map_nil, List.map_cons]
      exact ⟨iff_of_false (by omega) (List.not_lt_nil _),
        iff_of_true (by omega) (List.nil_lt_cons ..)⟩
    | cons b t =>
      simp only [codes, List.map_cons, List.cons_lt_cons_iff]
      by_cases hab : a = b
      · subst hab
        rw [strcmp, if_pos rfl]
        obtain ⟨hl, hr⟩ := ih t
        exact ⟨hl.trans (by simp [codes]), hr.trans (by simp [codes])⟩
      · have hne : a.1.toNat ≠ b.1.toNat := fun h => hab (code_injective h)
        rw [strcmp, if_neg hab]
        simp only [hne, Ne.symm hne, false_and, or_false]
        omega

/-- `cmp` does not tell a null pointer from an empty string. -/
theorem cmp_eq (s : List StrChar) (str : Option (List StrChar)) :
    (cmp s str < 0 ↔ codes s < codes (strNull str)) ∧
      (0 < cmp s str ↔ codes (strNull str) < codes s) := by
  cases str with
  | some str => exact strcmp_spec s str
  | none =>
    cases s with
    | nil => simp [cmp, strNull, codes]
    | cons a s => simp [cmp, strNull, codes]

end StdString

open StdString

namespace Queues

variable {ω : Type}

section

variable (text : ω → Option (List StrChar))

/-- The loops of `add`, from `elp1` and `elp2` on; `text` is what the pointers point to. -/
def addLoop (ret : Nat) : List (QueueElement ω) → List (QueueElement ω) → Queues ω → Queues ω
  | [], elp2, s => s.insAll ret (elp2.map QueueElement.data)
  | x :: elp1, [], s => s.insAll ret ((x :: elp1).map QueueElement.data)
  | x :: elp1, y :: elp2, s =>
    let r := cmp (strNull (text x.data)) (text y.data)
    if r < 0 then addLoop ret elp1 (y :: elp2) (s.insAll ret [x.data])
    else if 0 < r then addLoop ret (x :: elp1) elp2 (s.insAll ret [y.data])
    else addLoop ret elp1 elp2 (s.insAll ret [x.data])
termination_by elp1 elp2 => elp1.length + elp2.length

/-- The loops of `sub`. -/
def subLoop (ret : Nat) : List (QueueElement ω) → List (QueueElement ω) → Queues ω → Queues ω
  | [], _, s => s
  | x :: elp1, [], s => s.insAll ret ((x :: elp1).map QueueElement.data)
  | x :: elp1, y :: elp2, s =>
    let r := cmp (strNull (text x.data)) (text y.data)
    if r < 0 then subLoop ret elp1 (y :: elp2) (s.insAll ret [x.data])
    else if 0 < r then subLoop ret (x :: elp1) elp2 s
    else subLoop ret elp1 elp2 s
termination_by elp1 elp2 => elp1.length + elp2.length

/-- `add`; `ret` is where the new queue comes to. -/
def add (s : Queues ω) (this a2 ret : Nat) : Queues ω :=
  addLoop text ret (s.queue this).chain (s.queue a2).chain (s.set ret (.empty false))

/-- `sub`. -/
def sub (s : Queues ω) (this a2 ret : Nat) : Queues ω :=
  subLoop text ret (s.queue this).chain (s.queue a2).chain (s.set ret (.empty false))

/-- The strings of a queue. -/
def strings (q : LinkedQueue ω) : List (List StrChar) :=
  q.chain.map fun x => strNull (text x.data)

/-- Each string is less than those after it. -/
def Strict (q : LinkedQueue ω) : Prop :=
  q.chain.Pairwise fun x y => cmp (strNull (text x.data)) (text y.data) < 0

/-- `t` is `s` with a new queue in `ret` that has the strings `keep`, in strictly ascending
order, from the objects of the operands. -/
structure Merged (s t : Queues ω) (this a2 ret : Nat) (keep : List StrChar → Prop) : Prop where
  strict : Strict text (t.queue ret)
  members : ∀ str, str ∈ strings text (t.queue ret) ↔ keep str
  objects : ∀ x ∈ (t.queue ret).chain, x.data ∈ (s.queue this).chain.map QueueElement.data ∨
    x.data ∈ (s.queue a2).chain.map QueueElement.data
  count : (t.queue ret).count = (t.queue ret).chain.length
  tail : (t.queue ret).tail = (t.queue ret).chain.getLast?.map QueueElement.id
  operands : t.queue this = s.queue this ∧ t.queue a2 = s.queue a2
  others : ∀ i, i ≠ ret → t.queue i = s.queue i

end

variable {text : ω → Option (List StrChar)} {s t : Queues ω} {this a2 ret i : Nat}
  {l l₁ l₂ : List ω} {elp1 elp2 : List (QueueElement ω)} {q : LinkedQueue ω}

/-- What strings are ordered by. -/
def order (text : ω → Option (List StrChar)) (d : ω) : List Nat := codes (strNull (text d))

theorem cmp_order (x y : ω) :
    (cmp (strNull (text x)) (text y) < 0 ↔ order text x < order text y) ∧
      (0 < cmp (strNull (text x)) (text y) ↔ order text y < order text x) := cmp_eq _ _

theorem insAll_append : (s.insAll i l₁).insAll i l₂ = s.insAll i (l₁ ++ l₂) := by
  have hq : ∀ (q : LinkedQueue ω) (n : Nat), (q.insAll n (l₁ ++ l₂)) =
      (q.insAll n l₁).1.insAll (q.insAll n l₁).2 l₂ := by
    induction l₁ with
    | nil => exact fun _ _ => rfl
    | cons d l ih => exact fun q n => ih _ _
  simp [insAll, set, hq]

theorem insAll_nil : s.insAll i [] = s := by
  simp [insAll, LinkedQueue.insAll, set]

/-- The loops put the union of the data into the new queue. -/
theorem addLoop_eq : addLoop text ret elp1 elp2 s =
    s.insAll ret
      (union (order text) (elp1.map QueueElement.data) (elp2.map QueueElement.data)) := by
  induction elp1, elp2, s using addLoop.induct text ret with
  | case1 elp2 s => rw [addLoop, List.map_nil, union]
  | case2 x elp1 s => rw [addLoop, List.map_nil, List.map_cons, union]
  | case3 x elp1 y elp2 s r hr ih =>
    rw [addLoop, if_pos hr, ih, insAll_append, List.map_cons, List.map_cons, union,
      if_pos ((cmp_order _ _).1.mp hr)]
    rfl
  | case4 x elp1 y elp2 s r hr hr' ih =>
    rw [addLoop, if_neg hr, if_pos hr', ih, insAll_append, List.map_cons, List.map_cons, union,
      if_neg ((cmp_order _ _).1.not.mp hr), if_pos ((cmp_order _ _).2.mp hr')]
    rfl
  | case5 x elp1 y elp2 s r hr hr' ih =>
    rw [addLoop, if_neg hr, if_neg hr', ih, insAll_append, List.map_cons, List.map_cons, union,
      if_neg ((cmp_order _ _).1.not.mp hr), if_neg ((cmp_order _ _).2.not.mp hr')]
    rfl

theorem subLoop_eq : subLoop text ret elp1 elp2 s =
    s.insAll ret
      (difference (order text) (elp1.map QueueElement.data) (elp2.map QueueElement.data)) := by
  induction elp1, elp2, s using subLoop.induct text ret with
  | case1 elp2 s => rw [subLoop, List.map_nil, difference, insAll_nil]
  | case2 x elp1 s => rw [subLoop, List.map_nil, List.map_cons, difference]
  | case3 x elp1 y elp2 s r hr ih =>
    rw [subLoop, if_pos hr, ih, insAll_append, List.map_cons, List.map_cons, difference,
      if_pos ((cmp_order _ _).1.mp hr)]
    rfl
  | case4 x elp1 y elp2 s r hr hr' ih =>
    rw [subLoop, if_neg hr, if_pos hr', ih, List.map_cons, List.map_cons, difference,
      if_neg ((cmp_order _ _).1.not.mp hr), if_pos ((cmp_order _ _).2.mp hr')]
  | case5 x elp1 y elp2 s r hr hr' ih =>
    rw [subLoop, if_neg hr, if_neg hr', ih, List.map_cons, List.map_cons, difference,
      if_neg ((cmp_order _ _).1.not.mp hr), if_neg ((cmp_order _ _).2.not.mp hr')]

theorem strict_iff : Strict text q ↔ Ascending (order text) (q.chain.map QueueElement.data) := by
  unfold Strict Ascending
  rw [List.pairwise_map]
  exact iff_of_eq (congrArg (List.Pairwise · q.chain)
    (funext₂ fun x y => propext (cmp_order _ _).1))

/-- A string is in a queue if its code is. -/
theorem mem_strings {str : List StrChar} : str ∈ strings text q ↔
    codes str ∈ (q.chain.map QueueElement.data).map (order text) := by
  unfold strings
  rw [List.mem_map, List.map_map, List.mem_map]
  constructor
  · rintro ⟨x, hx, rfl⟩
    exact ⟨x, hx, rfl⟩
  · rintro ⟨x, hx, he⟩
    exact ⟨x, hx, codes_injective he⟩

/-- The new queue holds what has been put into it. -/
theorem queue_insAll_new (s : Queues ω) (ret : Nat) (l : List ω) :
    let t := (s.set ret (.empty false)).insAll ret l
    (t.queue ret).chain.map QueueElement.data = l ∧
      (t.queue ret).count = (t.queue ret).chain.length ∧
      (t.queue ret).tail = (t.queue ret).chain.getLast?.map QueueElement.id ∧
      ∀ i, i ≠ ret → t.queue i = s.queue i := by
  have hf : (LinkedQueue.empty false : LinkedQueue ω).Fresh s.fresh := nofun
  have hv := LinkedQueue.empty_valid (ω := ω) false
  obtain ⟨hw, -, -⟩ := hv.insAll hf l
  have hlist := LinkedQueue.insAll_toStd hv hf l
  have hcount := hw.count
  rw [((LinkedQueue.empty false).insAll_frame l).2] at hcount
  have hq : (((s.set ret (.empty false)).insAll ret l).queue ret) =
      ((LinkedQueue.empty false).insAll s.fresh l).1 := by
    simp [insAll, set]
  dsimp only
  rw [hq]
  refine ⟨?_, (Int.add_zero _).symm.trans hcount, hw.tail, fun i hi => ?_⟩
  · have hd := congrArg (List.map Prod.snd) hlist
    simpa [LinkedQueue.toStd, LinkedQueue.empty, Function.comp_def] using hd
  · simp [insAll, set, hi]

/-- The union and the difference come into a new queue, and nothing else changes. -/
theorem queueString_law (hret : ret ≠ this ∧ ret ≠ a2) (h₁ : Strict text (s.queue this))
    (h₂ : Strict text (s.queue a2)) :
    Merged text s (s.add text this a2 ret) this a2 ret
      (fun str => str ∈ strings text (s.queue this) ∨ str ∈ strings text (s.queue a2)) ∧
    Merged text s (s.sub text this a2 ret) this a2 ret
      (fun str => str ∈ strings text (s.queue this) ∧ str ∉ strings text (s.queue a2)) := by
  rw [strict_iff] at h₁ h₂
  rw [add, sub, addLoop_eq, subLoop_eq]
  constructor
  · obtain ⟨hd, hc, ht, ho⟩ := queue_insAll_new s ret (union (order text)
      ((s.queue this).chain.map QueueElement.data) ((s.queue a2).chain.map QueueElement.data))
    refine ⟨?_, fun str => ?_, fun x hx => ?_, hc, ht, ⟨ho this hret.1.symm, ho a2 hret.2.symm⟩, ho⟩
    · rw [strict_iff, hd]
      exact h₁.union h₂
    · rw [mem_strings, mem_strings, mem_strings, hd]
      exact mem_union_keys
    · exact mem_union (hd ▸ List.mem_map_of_mem hx)
  · obtain ⟨hd, hc, ht, ho⟩ := queue_insAll_new s ret (difference (order text)
      ((s.queue this).chain.map QueueElement.data) ((s.queue a2).chain.map QueueElement.data))
    refine ⟨?_, fun str => ?_, fun x hx => ?_, hc, ht, ⟨ho this hret.1.symm, ho a2 hret.2.symm⟩, ho⟩
    · rw [strict_iff, hd]
      exact h₁.difference _
    · rw [mem_strings, mem_strings, mem_strings, hd]
      exact mem_difference_keys h₁ h₂
    · exact .inl ((difference_sublist _ _).subset (hd ▸ List.mem_map_of_mem hx))

/-- A queue of strings of one character. -/
def letters (l : List UInt8) : LinkedQueue (Option (List StrChar)) :=
  ((LinkedQueue.empty false).insAll 0 (l.map fun c => some (StdStringTree.chars [c]))).1

/-- "a", "c" and "b", "c". -/
def twoQueues : Queues (Option (List StrChar)) :=
  ⟨fun i => if i = 0 then letters [97, 99] else letters [98, 99], 4⟩

theorem queueString_law_letters :
    Merged id twoQueues (twoQueues.add id 0 1 2) 0 1 2
      (fun str => str ∈ strings id (twoQueues.queue 0) ∨ str ∈ strings id (twoQueues.queue 1)) ∧
    Merged id twoQueues (twoQueues.sub id 0 1 2) 0 1 2
      (fun str => str ∈ strings id (twoQueues.queue 0) ∧ str ∉ strings id (twoQueues.queue 1)) :=
  queueString_law ⟨by decide, by decide⟩ (by unfold Strict; decide +kernel)
    (by unfold Strict; decide +kernel)

end Queues

end TinyState
