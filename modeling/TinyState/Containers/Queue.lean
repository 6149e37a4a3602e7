import TinyState.Lib.Machine
import TinyState.Sync.WaitQueue

/-!
# stdQueue

The queue as it is linked: the elements that are reached from `head`, and beside them
`tail` and `count`. `tail` is the last element after any operations, and the order is that
of the keys as long as nothing is put in a place of its own; `count` is what is there but
for that, until it is counted again.
-/

namespace TinyState

open Transition

/-- `stdQueueElement`; `id` stands for its address. -/
structure QueueElement (ω : Type) where
  id : Nat
  key : Int
  data : ω
  deriving DecidableEq, Repr

/-- `stdQueue`; `chain` are the elements from `head` on, along `next`. `uncounted` and
`placed` are history: how many elements the positional `ins` has added since they have been
counted, and whether it has ever added one. -/
structure LinkedQueue (ω : Type) where
  chain : List (QueueElement ω)
  tail : Option Nat
  count : Int
  insNeq : Bool
  uncounted : Nat
  placed : Bool
  deriving DecidableEq, Repr

section

variable {ω : Type}

/-- `p->next`. -/
def nextOf (p : Option Nat) : List (QueueElement ω) → Option Nat
  | [] => none
  | x :: rest => if some x.id = p then rest.head?.map QueueElement.id else nextOf p rest

/-- `p->next = el`. -/
def link (p : Option Nat) (el : QueueElement ω) : List (QueueElement ω) → List (QueueElement ω)
  | [] => []
  | x :: rest => if some x.id = p then [x, el] else x :: link p el rest

end

namespace LinkedQueue

variable {ω : Type}

def empty (insNeq : Bool) : LinkedQueue ω := ⟨[], none, 0, insNeq, 0, false⟩

/-- The loop of `ins`. -/
def insChain (insNeq : Bool) (el : QueueElement ω) : List (QueueElement ω) → List (QueueElement ω)
  | [] => [el]
  | x :: rest =>
    if StdQueue.stops insNeq x.key el.key then el :: x :: rest else x :: insChain insNeq el rest

/-- `ins`, of a new element. -/
def ins (q : LinkedQueue ω) (el : QueueElement ω) : LinkedQueue ω :=
  match q.chain with
  | [] => { q with
      chain := [el]
      tail := some el.id
      count := q.count + 1 }
  | _ :: _ =>
    if el.key = maxInteger64 then { q with
      chain := link q.tail el q.chain
      tail := some el.id
      count := q.count + 1 }
    else
      let chain := insChain q.insNeq el q.chain
      { q with
        chain := chain
        tail := if nextOf (some el.id) chain = none then some el.id else q.tail
        count := q.count + 1 }

/-- The loop over the elements of another queue; `fresh` is the next address. -/
def insAll (q : LinkedQueue ω) (fresh : Nat) : List ω → LinkedQueue ω × Nat
  | [] => (q, fresh)
  | data :: rest => (q.ins ⟨fresh, maxInteger64, data⟩).insAll (fresh + 1) rest

/-- The loop of the positional `ins`; `none` where it comes to the end. -/
def insAt (cmp : Option ω → Int) (el : QueueElement ω) :
    List (QueueElement ω) → Option (List (QueueElement ω))
  | [] => none
  | x :: rest =>
    if cmp (some x.data) = 0 then (insAt cmp el rest).map (x :: ·)
    else if 0 < cmp (some x.data) then some (x :: el :: rest)
    else some (el :: x :: rest)

/-- What the positional `ins` adds it does not count. -/
def place (q : LinkedQueue ω) (chain : List (QueueElement ω)) (tail : Option Nat) : LinkedQueue ω :=
  { q with
    chain := chain
    tail := tail
    uncounted := q.uncounted + 1
    placed := true }

/-- The positional `ins`, of a new element; `cmp` compares with `ref`, and its argument may
be null. -/
def insRef (q : LinkedQueue ω) (cmp : Option ω → Int) (el : QueueElement ω) : LinkedQueue ω :=
  match insAt cmp el q.chain with
  | some chain => q.place chain (if nextOf q.tail chain = none then q.tail else nextOf q.tail chain)
  | none =>
    if cmp none = 0 then q
    else if 0 < cmp none then
      q.place (el :: q.chain) (if q.tail = none then some el.id else q.tail)
    else if q.tail = none then q.place [el] (some el.id)
    else q.place (link q.tail el q.chain) (some el.id)

/-- `cmp_stdQueue3`. -/
def cmpStdQueue3 [DecidableEq ω] (ref : ω) : Option ω → Int
  | none => 1
  | some d => if d = ref then 1 else 0

def del (q : LinkedQueue ω) : Option (ω × LinkedQueue ω) :=
  match q.chain with
  | [] => none
  | x :: rest => some (x.data, { q with
      chain := rest
      tail := if rest.isEmpty then none else q.tail
      count := q.count - 1 })

/-- The loop of `del(data,cmp)` and `del(cmp)`, at the element `x`: what is taken out, what
follows on `x`, and `tail`. -/
def delNext (cmp : ω → Bool) (tail : Option Nat) (x : QueueElement ω) :
    List (QueueElement ω) → Option (ω × List (QueueElement ω) × Option Nat)
  | [] => none
  | y :: rest =>
    if cmp y.data then some (y.data, rest, if some y.id = tail then some x.id else tail)
    else (delNext cmp tail y rest).map fun r => (r.1, y :: r.2.1, r.2.2)

/-- `del(data,cmp)` and `del(cmp)`. -/
def delIf (cmp : ω → Bool) (q : LinkedQueue ω) : Option (ω × LinkedQueue ω) :=
  match q.chain with
  | [] => none
  | x :: rest =>
    if cmp x.data then q.del
    else (delNext cmp q.tail x rest).map fun r => (r.1, { q with
      chain := x :: r.2.1
      tail := r.2.2
      count := q.count - 1 })

def setTail (q : LinkedQueue ω) : LinkedQueue ω :=
  { q with
    tail := q.chain.getLast?.map QueueElement.id
    count := q.chain.length
    uncounted := 0 }

def reset (q : LinkedQueue ω) : LinkedQueue ω := { q with chain := [] }.setTail

/-- The loop of `move`: what stays, and what goes. -/
def moveChain (cmp : ω → Int) : List (QueueElement ω) → List (QueueElement ω) × List ω
  | [] => ([], [])
  | x :: rest =>
    if 0 < cmp x.data then ((moveChain cmp rest).1, x.data :: (moveChain cmp rest).2)
    else if cmp x.data < 0 then (x :: rest, [])
    else (x :: (moveChain cmp rest).1, (moveChain cmp rest).2)

/-- `move` into another queue, with what goes there. -/
def move (q : LinkedQueue ω) (cmp : ω → Int) : LinkedQueue ω × List ω :=
  ({ q with chain := (moveChain cmp q.chain).1 }.setTail, (moveChain cmp q.chain).2)

/-- The loop of `move` into the queue itself, at the element `pos`. It need not end. -/
def moveSelf (cmp : ω → Int) : Nat → LinkedQueue ω → Nat → Nat → Option (LinkedQueue ω × Nat)
  | 0, _, _, _ => none
  | fuel + 1, q, pos, fresh =>
    match q.chain[pos]? with
    | none => some (q.setTail, fresh)
    | some x =>
      if 0 < cmp x.data then
        let q := q.ins ⟨fresh, maxInteger64, x.data⟩
        moveSelf cmp fuel { q with chain := q.chain.eraseIdx pos } pos (fresh + 1)
      else if cmp x.data < 0 then some (q.setTail, fresh)
      else moveSelf cmp fuel q (pos + 1) fresh

-- ---------------------------------------------------------------------------
-- Links
-- ---------------------------------------------------------------------------

/-- The elements are in their order, and `tail` is the last of them. -/
structure Shape (q : LinkedQueue ω) : Prop where
  tail : q.tail = q.chain.getLast?.map QueueElement.id
  nodup : (q.chain.map QueueElement.id).Nodup
  range : ∀ x ∈ q.chain, x.key ≤ maxInteger64
  ordered : q.placed = false → q.chain.Pairwise fun x y => x.key ≤ y.key

/-- And every element counts but those that have not been counted. -/
structure Valid (q : LinkedQueue ω) : Prop extends Shape q where
  count : q.count + q.uncounted = q.chain.length

/-- A new element. -/
def Fresh (q : LinkedQueue ω) (n : Nat) : Prop := ∀ x ∈ q.chain, x.id < n

variable {q r : LinkedQueue ω} {el x : QueueElement ω} {chain before after : List (QueueElement ω)}
  {data : ω} {n : Nat}

theorem nextOf_split (h : ∀ y ∈ before, y.id ≠ x.id) :
    nextOf (some x.id) (before ++ x :: after) = after.head?.map QueueElement.id := by
  induction before with
  | nil => simp [nextOf]
  | cons y before ih =>
    obtain ⟨hy, hb⟩ := List.forall_mem_cons.mp h
    rw [List.cons_append, nextOf, if_neg fun he => hy (Option.some.inj he)]
    exact ih hb

theorem link_last (h : ∀ y ∈ before, y.id ≠ x.id) :
    link (some x.id) el (before ++ [x]) = before ++ [x, el] := by
  induction before with
  | nil => simp [link]
  | cons y before ih =>
    obtain ⟨hy, hb⟩ := List.forall_mem_cons.mp h
    rw [List.cons_append, link, if_neg fun he => hy (Option.some.inj he), ih hb]
    rfl

/-- No two elements have one address. -/
theorem id_ne (h : ((before ++ x :: after).map QueueElement.id).Nodup) :
    (∀ y ∈ before, y.id ≠ x.id) ∧ ∀ y ∈ after, y.id ≠ x.id := by
  rw [List.map_append, List.map_cons, List.nodup_append] at h
  obtain ⟨-, ha, hd⟩ := h
  refine ⟨fun y hy => hd _ (List.mem_map_of_mem hy) _ (List.mem_cons_self ..), fun y hy he => ?_⟩
  exact (List.nodup_cons.mp ha).1 (he ▸ List.mem_map_of_mem hy)

theorem Shape.link (h : q.Shape) (hc : q.chain ≠ []) : link q.tail el q.chain = q.chain ++ [el] := by
  obtain ⟨before, x, hx⟩ := List.eq_nil_or_concat q.chain |>.resolve_left hc
  have hx : q.chain = before ++ [x] := by simpa using hx
  have hn := h.nodup
  rw [h.tail, hx] at *
  simpa using link_last (id_ne hn).1

/-- What follows on `tail` once an element has been put in. -/
theorem Shape.nextOf_tail (h : q.Shape) (hc : q.chain = before ++ after) (hne : q.chain ≠ [])
    (hf : ∀ y ∈ q.chain, y.id ≠ el.id) :
    (if nextOf q.tail (before ++ el :: after) = none then q.tail
      else nextOf q.tail (before ++ el :: after)) =
      (before ++ el :: after).getLast?.map QueueElement.id := by
  have hn := h.nodup
  rcases List.eq_nil_or_concat after with rfl | ⟨rest, x, rfl⟩
  · rw [List.append_nil] at hc
    obtain ⟨rest, x, rfl⟩ := (List.eq_nil_or_concat before).resolve_left fun he => hne (hc.trans he)
    rw [List.concat_eq_append] at *
    rw [hc] at hn
    rw [h.tail, hc, List.getLast?_concat, List.append_assoc, List.singleton_append,
      Option.map_some, nextOf_split (id_ne hn).1]
    simp
  · rw [List.concat_eq_append] at *
    have hx : ∀ y ∈ before ++ el :: rest, y.id ≠ x.id := by
      rw [hc, ← List.append_assoc] at hn hf
      rw [List.forall_mem_append, List.forall_mem_cons]
      obtain ⟨hb, hr⟩ := List.forall_mem_append.mp (id_ne hn).1
      exact ⟨hb, fun he => hf x (by simp) he.symm, hr⟩
    have he : before ++ el :: (rest ++ [x]) = (before ++ el :: rest) ++ x :: [] := by simp
    rw [h.tail, hc, ← List.append_assoc, List.getLast?_concat, he, Option.map_some,
      nextOf_split hx, List.getLast?_concat]
    rfl

/-- An element is put in. -/
theorem Shape.insert (h : q.Shape) (hc : q.chain = before ++ after)
    (hf : ∀ y ∈ q.chain, y.id ≠ el.id) :
    ((before ++ el :: after).map QueueElement.id).Nodup ∧
      (before ++ el :: after).length = q.chain.length + 1 ∧
      ∀ y, y ∈ before ++ el :: after ↔ y = el ∨ y ∈ q.chain := by
  have hp : (before ++ el :: after).Perm (el :: q.chain) := hc ▸ List.perm_middle
  refine ⟨?_, hp.length_eq, fun y => hp.mem_iff.trans List.mem_cons⟩
  rw [(hp.map QueueElement.id).nodup_iff]
  refine List.nodup_cons.mpr ⟨fun hm => ?_, h.nodup⟩
  obtain ⟨y, hy, he⟩ := List.mem_map.mp hm
  exact hf y hy he

-- ---------------------------------------------------------------------------
-- ins
-- ---------------------------------------------------------------------------

/-- The loop of `ins` stops at the first element that it should not pass. -/
theorem insChain_split (insNeq : Bool) (el : QueueElement ω) (chain : List (QueueElement ω)) :
    ∃ before after, chain = before ++ after ∧ insChain insNeq el chain = before ++ el :: after ∧
      (∀ y ∈ before, StdQueue.stops insNeq y.key el.key = false) ∧
      ∀ y ∈ after.head?, StdQueue.stops insNeq y.key el.key = true := by
  induction chain with
  | nil => exact ⟨[], [], rfl, rfl, List.forall_mem_nil _, nofun⟩
  | cons x rest ih =>
    unfold insChain
    split
    · rename_i hs
      refine ⟨[], x :: rest, rfl, rfl, List.forall_mem_nil _, fun y hy => ?_⟩
      obtain rfl : x = y := Option.some.inj hy
      exact hs
    · rename_i hs
      obtain ⟨before, after, hc, hi, hb, ha⟩ := ih
      refine ⟨x :: before, after, congrArg _ hc, congrArg _ hi, ?_, ha⟩
      exact List.forall_mem_cons.mpr ⟨Bool.eq_false_iff.mpr hs, hb⟩

/-- Where `ins` puts an element: behind those that are before it, and those with the same key
as well where `insNeq` is set or the key is `MAX_INTEGER64`. -/
def Between (insNeq : Bool) (key : Int) (before after : List (QueueElement ω)) : Prop :=
  (∀ y ∈ before, if insNeq ∨ key = maxInteger64 then y.key ≤ key else y.key < key) ∧
    ∀ y ∈ after, if insNeq ∨ key = maxInteger64 then key < y.key else key ≤ y.key

/-- What `ins` does to the chain. -/
theorem Shape.ins_chain (h : q.Shape) (hf : q.Fresh el.id) :
    ∃ before after, q.chain = before ++ after ∧ (q.ins el).chain = before ++ el :: after ∧
      (q.ins el).tail = (before ++ el :: after).getLast?.map QueueElement.id ∧
      (q.ins el).count = q.count + 1 ∧
      (q.placed = false → Between q.insNeq el.key before after) := by
  have hne : ∀ y ∈ q.chain, y.id ≠ el.id := fun y hy => Nat.ne_of_lt (hf y hy)
  unfold LinkedQueue.ins
  split
  · rename_i hc
    exact ⟨[], [], hc, rfl, rfl, rfl, fun _ => ⟨List.forall_mem_nil _, List.forall_mem_nil _⟩⟩
  · rename_i x rest hc
    have hnil : q.chain ≠ [] := by simp [hc]
    split
    · rename_i he
      refine ⟨q.chain, [], by simp, h.link hnil, by simp, rfl, fun _ => ⟨fun y hy => ?_,
        List.forall_mem_nil _⟩⟩
      rw [if_pos (.inr he), he]
      exact h.range y hy
    · rename_i he
      obtain ⟨before, after, hs, hi, hb, ha⟩ := insChain_split q.insNeq el q.chain
      refine ⟨before, after, hs, hi, ?_, rfl, fun hp => ⟨fun y hy => ?_, fun y hy => ?_⟩⟩
      · dsimp only
        rw [hi]
        have hx : ∀ y ∈ before, y.id ≠ el.id := fun y hy =>
          hne y (hs ▸ List.mem_append_left after hy)
        rw [nextOf_split hx]
        cases after with
        | nil => simp
        | cons y after =>
          rw [if_neg nofun, h.tail, hs]
          simp [List.getLast?_append, List.getLast?_cons]
      · have hb := hb y hy
        cases hn : q.insNeq with
        | true => simpa [StdQueue.stops, hn] using hb
        | false => simpa [StdQueue.stops, hn, he] using hb
      · have hy' : el.key ≤ y.key ∧ (q.insNeq = true → el.key < y.key) := by
          obtain ⟨z, hz⟩ : ∃ z, after.head? = some z := by
            cases after with
            | nil => cases hy
            | cons z after => exact ⟨z, rfl⟩
          have hzs := ha z hz
          have hzy : z.key ≤ y.key := by
            have ho := (List.pairwise_append.mp (hs ▸ h.ordered hp)).2.1
            cases after with
            | nil => cases hy
            | cons w after =>
              obtain rfl : w = z := Option.some.inj hz
              rcases List.mem_cons.mp hy with rfl | hy
              · exact Int.le_refl _
              · exact (List.pairwise_cons.mp ho).1 y hy
          refine ⟨(StdQueue.le_of_stops hzs).trans hzy, fun hn => ?_⟩
          rw [hn] at hzs
          exact Int.lt_of_lt_of_le (of_decide_eq_true hzs) hzy
        cases hn : q.insNeq with
        | true => simpa using hy'.2 hn
        | false => simpa [he] using hy'.1

theorem ins_frame (q : LinkedQueue ω) (el : QueueElement ω) :
    (q.ins el).insNeq = q.insNeq ∧ (q.ins el).uncounted = q.uncounted ∧
      (q.ins el).placed = q.placed := by
  unfold LinkedQueue.ins
  split
  · exact ⟨rfl, rfl, rfl⟩
  · split <;> exact ⟨rfl, rfl, rfl⟩

theorem Shape.ins (h : q.Shape) (hk : el.key ≤ maxInteger64) (hf : q.Fresh el.id) :
    (q.ins el).Shape ∧ (q.ins el).Fresh (el.id + 1) := by
  obtain ⟨before, after, hc, hi, ht, -, ho⟩ := h.ins_chain hf
  obtain ⟨-, -, hp⟩ := q.ins_frame el
  obtain ⟨hn, -, hm⟩ := h.insert hc fun y hy => Nat.ne_of_lt (hf y hy)
  refine ⟨⟨by rw [ht, hi], hi ▸ hn, fun y hy => ?_, fun hpl => ?_⟩, fun y hy => ?_⟩
  · rw [hi, hm] at hy
    rcases hy with rfl | hy
    · exact hk
    · exact h.range y hy
  · obtain ⟨hb, ha⟩ := ho (hp ▸ hpl)
    obtain ⟨h₁, h₂, h₃⟩ := List.pairwise_append.mp (hc ▸ h.ordered (hp ▸ hpl))
    have hle : ∀ y ∈ before, y.key ≤ el.key := fun y hy => by
      have hy := hb y hy
      split at hy
      · exact hy
      · exact Int.le_of_lt hy
    have hge : ∀ y ∈ after, el.key ≤ y.key := fun y hy => by
      have hy := ha y hy
      split at hy
      · exact Int.le_of_lt hy
      · exact hy
    rw [hi]
    refine List.pairwise_append.mpr ⟨h₁, List.pairwise_cons.mpr ⟨hge, h₂⟩, fun x hx y hy => ?_⟩
    rcases List.mem_cons.mp hy with rfl | hy
    · exact hle x hx
    · exact h₃ x hx y hy
  · rw [hi, hm] at hy
    rcases hy with rfl | hy
    · exact Nat.lt_succ_self _
    · exact Nat.lt_succ_of_lt (hf y hy)

theorem Valid.ins (h : q.Valid) (hk : el.key ≤ maxInteger64) (hf : q.Fresh el.id) :
    (q.ins el).Valid ∧ (q.ins el).Fresh (el.id + 1) := by
  obtain ⟨before, after, hc, hi, -, hcount, -⟩ := h.ins_chain hf
  obtain ⟨-, hl, -⟩ := h.insert hc fun y hy => Nat.ne_of_lt (hf y hy)
  obtain ⟨hs, hw⟩ := h.toShape.ins hk hf
  refine ⟨⟨hs, ?_⟩, hw⟩
  have hq := h.count
  rw [hcount, (q.ins_frame el).2.1, hi, hl]
  omega

theorem Valid.insAll (h : q.Valid) (hf : q.Fresh n) (l : List ω) :
    (q.insAll n l).1.Valid ∧ (q.insAll n l).1.Fresh (q.insAll n l).2 ∧ n ≤ (q.insAll n l).2 := by
  induction l generalizing q n with
  | nil => exact ⟨h, hf, Nat.le_refl n⟩
  | cons d rest ih =>
    have hi : (q.ins ⟨n, maxInteger64, d⟩).Valid ∧ (q.ins ⟨n, maxInteger64, d⟩).Fresh (n + 1) :=
      h.ins (Int.le_refl _) hf
    obtain ⟨hv, hw⟩ := hi
    obtain ⟨h₁, h₂, h₃⟩ := ih hv hw
    exact ⟨h₁, h₂, Nat.le_trans (Nat.le_succ n) h₃⟩

-- ---------------------------------------------------------------------------
-- The positional ins
-- ---------------------------------------------------------------------------

theorem insAt_split {cmp : Option ω → Int} {l : List (QueueElement ω)}
    (h : insAt cmp el chain = some l) :
    ∃ before after, chain = before ++ after ∧ l = before ++ el :: after ∧ chain ≠ [] := by
  induction chain generalizing l with
  | nil => cases h
  | cons x rest ih =>
    unfold insAt at h
    split at h
    · obtain ⟨m, hm, rfl⟩ := Option.map_eq_some_iff.mp h
      obtain ⟨before, after, rfl, rfl, -⟩ := ih hm
      exact ⟨x :: before, after, rfl, rfl, nofun⟩
    · split at h <;> cases h
      · exact ⟨[x], rest, rfl, rfl, nofun⟩
      · exact ⟨[], x :: rest, rfl, rfl, nofun⟩

theorem Valid.place (h : q.Valid) (before after : List (QueueElement ω))
    (hc : q.chain = before ++ after) (hk : el.key ≤ maxInteger64) (hf : q.Fresh el.id) :
    (q.place (before ++ el :: after)
      ((before ++ el :: after).getLast?.map QueueElement.id)).Valid ∧
    (q.place (before ++ el :: after)
      ((before ++ el :: after).getLast?.map QueueElement.id)).Fresh (el.id + 1) := by
  obtain ⟨hn, hl, hm⟩ := h.insert hc fun y hy => Nat.ne_of_lt (hf y hy)
  refine ⟨⟨⟨rfl, hn, fun y hy => ?_, Bool.noConfusion⟩, ?_⟩, fun y hy => ?_⟩
  · rcases (hm y).mp hy with rfl | hy
    · exact hk
    · exact h.range y hy
  · have hq := h.count
    change q.count + ((q.uncounted + 1 : Nat) : Int) = ((before ++ el :: after).length : Int)
    rw [hl]
    omega
  · rcases (hm y).mp hy with rfl | hy
    · exact Nat.lt_succ_self _
    · exact Nat.lt_succ_of_lt (hf y hy)

theorem Valid.insRef (h : q.Valid) (cmp : Option ω → Int) (hk : el.key ≤ maxInteger64)
    (hf : q.Fresh el.id) : (q.insRef cmp el).Valid ∧ (q.insRef cmp el).Fresh (el.id + 1) := by
  have hid : ∀ y ∈ q.chain, y.id ≠ el.id := fun y hy => Nat.ne_of_lt (hf y hy)
  have htail : q.tail = none ↔ q.chain = [] := by
    rw [h.tail, Option.map_eq_none_iff, List.getLast?_eq_none_iff]
  unfold LinkedQueue.insRef
  split
  · rename_i l hl
    obtain ⟨before, after, hc, rfl, hne⟩ := insAt_split hl
    rw [h.nextOf_tail hc hne hid]
    exact h.place before after hc hk hf
  · split_ifs with h₁ h₂ h₃ h₄
    · exact ⟨h, fun y hy => Nat.lt_succ_of_lt (hf y hy)⟩
    · have hp := h.place [] q.chain rfl hk hf
      simpa [htail.mp h₃] using hp
    · have hp := h.place [] q.chain rfl hk hf
      have hl : (el :: q.chain).getLast? = q.chain.getLast? := by
        cases hq : q.chain with
        | nil => exact absurd (htail.mpr hq) h₃
        | cons y rest => rfl
      rw [List.nil_append, hl, ← h.tail] at hp
      exact hp
    · have hp := h.place [] q.chain rfl hk hf
      simpa [htail.mp h₄] using hp
    · have hp := h.place q.chain [] (List.append_nil _).symm hk hf
      rw [List.getLast?_concat] at hp
      rw [h.link fun he => h₄ (htail.mpr he)]
      exact hp

-- ---------------------------------------------------------------------------
-- del
-- ---------------------------------------------------------------------------

/-- What is left of the chain keeps its order. -/
theorem Shape.sublist (h : q.Shape) (hs : chain.Sublist q.chain) :
    (chain.map QueueElement.id).Nodup ∧ (∀ x ∈ chain, x.key ≤ maxInteger64) ∧
      (q.placed = false → chain.Pairwise fun x y => x.key ≤ y.key) :=
  ⟨h.nodup.sublist (hs.map _), fun x hx => h.range x (hs.subset hx),
    fun hp => (h.ordered hp).sublist hs⟩

/-- An element is taken out. -/
theorem Valid.remove (h : q.Valid) (hs : chain.Sublist q.chain)
    (hl : chain.length + 1 = q.chain.length) {tail : Option Nat}
    (ht : tail = chain.getLast?.map QueueElement.id) :
    Valid { q with
      chain := chain
      tail := tail
      count := q.count - 1 } := by
  obtain ⟨hn, hr, ho⟩ := h.sublist hs
  refine ⟨⟨ht, hn, hr, ho⟩, ?_⟩
  have hq := h.count
  change q.count - 1 + q.uncounted = (chain.length : Int)
  omega

theorem Valid.del (h : q.Valid) (hd : q.del = some (data, r)) :
    r.Valid ∧ r.chain.Sublist q.chain := by
  unfold LinkedQueue.del at hd
  split at hd
  · cases hd
  · rename_i x rest hc
    cases hd
    have hs : rest.Sublist q.chain := hc ▸ List.sublist_cons_self x rest
    refine ⟨h.remove hs (hc ▸ rfl) ?_, hs⟩
    cases rest with
    | nil => rfl
    | cons y rest =>
      rw [h.tail, hc]
      rfl

theorem delNext_split {cmp : ω → Bool} {tail tail' : Option Nat} {l : List (QueueElement ω)}
    (hn : ((x :: chain).map QueueElement.id).Nodup)
    (ht : tail = (x :: chain).getLast?.map QueueElement.id)
    (h : delNext cmp tail x chain = some (data, l, tail')) :
    l.Sublist chain ∧ l.length + 1 = chain.length ∧
      tail' = (x :: l).getLast?.map QueueElement.id := by
  induction chain generalizing x l tail' with
  | nil => cases h
  | cons y rest ih =>
    have hy := (List.nodup_cons.mp hn).2
    unfold delNext at h
    split at h
    · cases h
      refine ⟨List.sublist_cons_self y rest, rfl, ?_⟩
      cases rest with
      | nil => simp [ht]
      | cons z rest =>
        have hne : some y.id ≠ tail := by
          intro he
          have hm : y.id ∈ (z :: rest).map QueueElement.id := by
            rw [ht, List.getLast?_cons_cons, List.getLast?_cons_cons] at he
            obtain ⟨w, hw, hwy⟩ := Option.map_eq_some_iff.mp he.symm
            exact hwy ▸ List.mem_map_of_mem (List.mem_of_getLast? hw)
          exact (List.nodup_cons.mp hy).1 hm
        rw [if_neg hne, ht]
        simp [List.getLast?_cons_cons]
    · obtain ⟨⟨d, m, u⟩, hm, he⟩ := Option.map_eq_some_iff.mp h
      cases he
      obtain ⟨hs, hl, hu⟩ := ih hy (by rw [ht, List.getLast?_cons_cons]) hm
      refine ⟨hs.cons_cons y, congrArg Nat.succ hl, ?_⟩
      rw [hu, List.getLast?_cons_cons]

theorem Valid.delIf {cmp : ω → Bool} (h : q.Valid) (hd : q.delIf cmp = some (data, r)) :
    r.Valid ∧ r.chain.Sublist q.chain := by
  unfold LinkedQueue.delIf at hd
  split at hd
  · cases hd
  · rename_i x rest hc
    split at hd
    · exact h.del hd
    · obtain ⟨⟨d, l, tail⟩, hm, he⟩ := Option.map_eq_some_iff.mp hd
      cases he
      obtain ⟨hs, hl, ht⟩ := delNext_split (hc ▸ h.nodup) (hc ▸ h.tail) hm
      have hsub : (x :: l).Sublist q.chain := hc ▸ hs.cons_cons x
      exact ⟨h.remove hsub (by rw [hc]; exact congrArg Nat.succ hl) ht, hsub⟩

-- ---------------------------------------------------------------------------
-- move, set_tail
-- ---------------------------------------------------------------------------

theorem Shape.setTail (h : q.Shape) (hs : chain.Sublist q.chain) :
    ({ q with chain := chain }.setTail).Valid := by
  obtain ⟨hn, hr, ho⟩ := h.sublist hs
  exact ⟨⟨rfl, hn, hr, ho⟩, Int.add_zero _⟩

theorem moveChain_sublist (cmp : ω → Int) (l : List (QueueElement ω)) :
    (moveChain cmp l).1.Sublist l := by
  induction l with
  | nil => exact List.Sublist.refl _
  | cons x rest ih =>
    unfold moveChain
    split
    · exact ih.cons x
    · split
      · exact List.Sublist.refl _
      · exact ih.cons_cons x

theorem Valid.move (h : q.Valid) (cmp : ω → Int) :
    (q.move cmp).1.Valid ∧ (q.move cmp).1.chain.Sublist q.chain :=
  ⟨h.setTail (moveChain_sublist cmp q.chain), moveChain_sublist cmp q.chain⟩

theorem Shape.ins_max (h : q.Shape) (hk : el.key = maxInteger64) :
    (q.ins el).chain = q.chain ++ [el] := by
  unfold LinkedQueue.ins
  split
  · rename_i hc
    exact congrArg (· ++ [el]) hc.symm
  · rename_i x rest hc
    rw [if_pos hk]
    exact h.link (by simp [hc])

theorem Shape.moveSelf {cmp : ω → Int} {fuel pos m : Nat} (h : q.Shape) (hf : q.Fresh n)
    (hm : LinkedQueue.moveSelf cmp fuel q pos n = some (r, m)) : r.Valid ∧ r.Fresh m ∧ n ≤ m := by
  induction fuel generalizing q pos n with
  | zero => cases hm
  | succ fuel ih =>
    unfold LinkedQueue.moveSelf at hm
    split at hm
    · cases hm
      exact ⟨h.setTail (List.Sublist.refl _), hf, Nat.le_refl _⟩
    · rename_i x hx
      have hlt := (List.getElem?_eq_some_iff.mp hx).1
      split at hm
      · have hins : (q.ins ⟨n, maxInteger64, x.data⟩).Shape ∧
            (q.ins ⟨n, maxInteger64, x.data⟩).Fresh (n + 1) := h.ins (Int.le_refl _) hf
        obtain ⟨hi, hw⟩ := hins
        have hc : ((q.ins ⟨n, maxInteger64, x.data⟩).chain.eraseIdx pos) =
            q.chain.eraseIdx pos ++ [⟨n, maxInteger64, x.data⟩] := by
          rw [h.ins_max rfl]
          exact List.eraseIdx_append_of_lt_length hlt _
        have hs := List.eraseIdx_sublist (q.ins ⟨n, maxInteger64, x.data⟩).chain pos
        obtain ⟨h₁, h₂, h₃⟩ := hi.sublist hs
        have ht : (q.ins ⟨n, maxInteger64, x.data⟩).tail = some n := by
          rw [hi.tail, h.ins_max rfl, List.getLast?_concat]
          rfl
        obtain ⟨hv, hw', hle⟩ := ih (q := { q.ins ⟨n, maxInteger64, x.data⟩ with
            chain := (q.ins ⟨n, maxInteger64, x.data⟩).chain.eraseIdx pos })
          ⟨by rw [ht, hc, List.getLast?_concat]; rfl, h₁, h₂, h₃⟩
          (fun y hy => hw y (hs.subset hy)) hm
        exact ⟨hv, hw', Nat.le_trans (Nat.le_succ n) hle⟩
      · split at hm
        · cases hm
          exact ⟨h.setTail (List.Sublist.refl _), hf, Nat.le_refl _⟩
        · exact ih h hf hm

-- ---------------------------------------------------------------------------
-- The queue without its links
-- ---------------------------------------------------------------------------

/-- The keys and the data. -/
def toStd (q : LinkedQueue ω) : StdQueue ω := ⟨q.chain.map fun x => (x.key, x.data), q.insNeq⟩

theorem insChain_toStd (insNeq : Bool) (el : QueueElement ω) (chain : List (QueueElement ω)) :
    (insChain insNeq el chain).map (fun x => (x.key, x.data)) =
      StdQueue.insSorted insNeq el.key el.data (chain.map fun x => (x.key, x.data)) := by
  induction chain with
  | nil => rfl
  | cons x rest ih =>
    rw [insChain, List.map_cons, StdQueue.insSorted]
    split
    · rfl
    · rw [List.map_cons, ih]

/-- On a queue in its order the linked operations are those of `StdQueue`. -/
theorem Shape.ins_toStd (h : q.Shape) : (q.ins el).toStd = q.toStd.ins el.key el.data := by
  unfold toStd StdQueue.ins
  rw [(q.ins_frame el).1]
  congr 1
  split
  · rename_i hk
    rw [h.ins_max hk, List.map_append]
    rfl
  · rename_i hk
    rw [← insChain_toStd]
    unfold LinkedQueue.ins
    split
    · rename_i hc
      rw [hc]
      rfl
    · rw [if_neg hk]

theorem del_toStd (q : LinkedQueue ω) :
    q.del.map (fun r => (r.1, r.2.toStd)) = q.toStd.del := by
  unfold LinkedQueue.del StdQueue.del toStd
  cases hc : q.chain with
  | nil => simp
  | cons x rest => simp

theorem delNext_toStd (cmp : ω → Bool) (tail : Option Nat) (x : QueueElement ω)
    (chain : List (QueueElement ω)) :
    (delNext cmp tail x chain).map (fun r => (r.1, r.2.1.map fun x => (x.key, x.data))) =
      ((chain.map QueueElement.data).find? cmp).map fun d =>
        (d, (chain.map fun x => (x.key, x.data)).eraseP fun el => cmp el.2) := by
  induction chain generalizing x with
  | nil => rfl
  | cons y rest ih =>
    cases hc : cmp y.data with
    | true => simp [delNext, hc]
    | false =>
      have hy := congrArg (Option.map fun r => (r.1, (y.key, y.data) :: r.2)) (ih y)
      simpa [delNext, hc, Function.comp_def] using hy

theorem delIf_toStd (cmp : ω → Bool) (q : LinkedQueue ω) :
    (q.delIf cmp).map (fun r => (r.1, r.2.toStd)) = q.toStd.delIf cmp := by
  unfold LinkedQueue.delIf StdQueue.delIf StdQueue.members toStd
  cases hc : q.chain with
  | nil => simp
  | cons x rest =>
    dsimp only
    cases hx : cmp x.data with
    | true => simp [LinkedQueue.del, hc, hx]
    | false =>
      have hd := congrArg (Option.map fun r => (r.1, (⟨(x.key, x.data) :: r.2, q.insNeq⟩ : StdQueue ω)))
        (delNext_toStd cmp q.tail x rest)
      simpa [hx, Function.comp_def] using hd

theorem move_toStd (q : LinkedQueue ω) (cmp : ω → Int) :
    ((q.move cmp).1.toStd, (q.move cmp).2) = q.toStd.move cmp := by
  have hm : ∀ l : List (QueueElement ω), ((moveChain cmp l).1.map fun x => (x.key, x.data)) =
      (StdQueue.moveList cmp (l.map fun x => (x.key, x.data))).1 ∧
      (moveChain cmp l).2 = (StdQueue.moveList cmp (l.map fun x => (x.key, x.data))).2 := by
    intro l
    induction l with
    | nil => exact ⟨rfl, rfl⟩
    | cons x rest ih =>
      unfold moveChain
      rw [List.map_cons, StdQueue.moveList]
      split
      · exact ⟨ih.1, congrArg _ ih.2⟩
      · split
        · exact ⟨rfl, rfl⟩
        · exact ⟨congrArg _ ih.1, ih.2⟩
  unfold LinkedQueue.move StdQueue.move toStd setTail
  rw [(hm q.chain).1, (hm q.chain).2]

end LinkedQueue

/-- All queues, and the next address. -/
structure Queues (ω : Type) where
  queue : Nat → LinkedQueue ω
  fresh : Nat

/-- Keys are of the type `INTEGER64`. -/
inductive QueuesAct (ω : Type)
  | insNeq (i : Nat) (insNeq : Bool)
  | ins (i : Nat) (key : Int) (data : ω)
  | insQueue (i j : Nat)
  | insRef (i : Nat) (cmp : Option ω → Int) (data : ω)
  | del (i : Nat)
  | delIf (i : Nat) (cmp : ω → Bool)
  | setTail (i : Nat)
  | reset (i : Nat)
  /-- `dest` may be null. -/
  | move (i : Nat) (dest : Option Nat) (cmp : ω → Int)
  | moveSelf (i : Nat) (cmp : ω → Int) (fuel : Nat)

namespace Queues

variable {ω : Type}

def set (s : Queues ω) (i : Nat) (q : LinkedQueue ω) : Queues ω :=
  { s with queue := Function.update s.queue i q }

/-- Elements are put into the queue `i`, with `MAX_INTEGER64`. -/
def insAll (s : Queues ω) (i : Nat) (l : List ω) : Queues ω :=
  { s.set i ((s.queue i).insAll s.fresh l).1 with fresh := ((s.queue i).insAll s.fresh l).2 }

/-- `ins` of a queue into itself ends only if it is empty. -/
def step (s : Queues ω) : QueuesAct ω → Option (Queues ω × List ω)
  | .insNeq i insNeq => some (s.set i { s.queue i with insNeq := insNeq }, [])
  | .ins i key data =>
    if -2 ^ 63 ≤ key ∧ key ≤ maxInteger64 then
      some ({ s.set i ((s.queue i).ins ⟨s.fresh, key, data⟩) with fresh := s.fresh + 1 }, [])
    else none
  | .insQueue i j =>
    if i = j ∧ (s.queue j).chain.isEmpty = false then none
    else some (s.insAll i ((s.queue j).chain.map QueueElement.data), [])
  | .insRef i cmp data =>
    some ({ s.set i ((s.queue i).insRef cmp ⟨s.fresh, 0, data⟩) with fresh := s.fresh + 1 }, [])
  | .del i => (s.queue i).del.map fun r => (s.set i r.2, [r.1])
  | .delIf i cmp => ((s.queue i).delIf cmp).map fun r => (s.set i r.2, [r.1])
  | .setTail i => some (s.set i (s.queue i).setTail, [])
  | .reset i => some (s.set i (s.queue i).reset, [])
  | .move i none cmp => some (s.set i ((s.queue i).move cmp).1, [])
  | .move i (some dest) cmp =>
    if i = dest then none
    else some ((s.set i ((s.queue i).move cmp).1).insAll dest ((s.queue i).move cmp).2, [])
  | .moveSelf i cmp fuel =>
    (LinkedQueue.moveSelf cmp fuel (s.queue i) 0 s.fresh).map fun r =>
      ({ s.set i r.1 with fresh := r.2 }, [])

def machine (ω : Type) : Machine (Queues ω) (QueuesAct ω) ω where
  init s := ∀ i, ∃ insNeq, s.queue i = .empty insNeq
  step := step

variable {s t : Queues ω} {os tr : List ω} {i : Nat}

-- ---------------------------------------------------------------------------
-- All queues
-- ---------------------------------------------------------------------------

/-- Each queue is valid, and the next address is free. -/
def Valid (s : Queues ω) : Prop := ∀ i, (s.queue i).Valid ∧ (s.queue i).Fresh s.fresh

theorem Valid.set (h : s.Valid) {q : LinkedQueue ω} {n : Nat} (hq : q.Valid ∧ q.Fresh n)
    (hn : s.fresh ≤ n) : Valid { s.set i q with fresh := n } := by
  intro j
  simp only [Queues.set, Function.update_apply]
  split
  · exact hq
  · exact ⟨(h j).1, fun x hx => Nat.lt_of_lt_of_le ((h j).2 x hx) hn⟩

/-- What is left of a queue has no new elements. -/
theorem Valid.shrink (h : s.Valid) {q : LinkedQueue ω} (hq : q.Valid)
    (hs : q.chain.Sublist (s.queue i).chain) : (s.set i q).Valid :=
  h.set ⟨hq, fun x hx => (h i).2 x (hs.subset hx)⟩ (Nat.le_refl _)

theorem Valid.insAll (h : s.Valid) (l : List ω) : (s.insAll i l).Valid := by
  obtain ⟨hv, hw, hn⟩ := (h i).1.insAll (h i).2 l
  exact h.set ⟨hv, hw⟩ hn

theorem step_valid {a : QueuesAct ω} (h : s.Valid) (hs : s.step a = some (t, os)) : t.Valid := by
  cases a with
  | insNeq i insNeq =>
    cases hs
    obtain ⟨⟨⟨h₁, h₂, h₃, h₄⟩, h₅⟩, -⟩ := h i
    exact h.shrink ⟨⟨h₁, h₂, h₃, h₄⟩, h₅⟩ (List.Sublist.refl _)
  | ins i key data =>
    obtain ⟨hk, he⟩ := Option.ite_none_right_eq_some.mp hs
    cases he
    exact h.set ((h i).1.ins hk.2 (h i).2) (Nat.le_succ _)
  | insQueue i j =>
    obtain ⟨-, he⟩ := Option.ite_none_left_eq_some.mp hs
    cases he
    exact h.insAll _
  | insRef i cmp data =>
    cases hs
    have hq : ((s.queue i).insRef cmp ⟨s.fresh, 0, data⟩).Valid ∧
        ((s.queue i).insRef cmp ⟨s.fresh, 0, data⟩).Fresh (s.fresh + 1) :=
      (h i).1.insRef cmp (show (0 : Int) ≤ maxInteger64 by decide) (h i).2
    exact h.set hq (Nat.le_succ _)
  | del i =>
    obtain ⟨⟨data, q⟩, hd, he⟩ := Option.map_eq_some_iff.mp hs
    cases he
    obtain ⟨hv, hsub⟩ := (h i).1.del hd
    exact h.shrink hv hsub
  | delIf i cmp =>
    obtain ⟨⟨data, q⟩, hd, he⟩ := Option.map_eq_some_iff.mp hs
    cases he
    obtain ⟨hv, hsub⟩ := (h i).1.delIf hd
    exact h.shrink hv hsub
  | setTail i =>
    cases hs
    exact h.shrink ((h i).1.setTail (List.Sublist.refl _)) (List.Sublist.refl _)
  | reset i =>
    cases hs
    exact h.shrink ((h i).1.setTail (List.nil_sublist _)) (List.nil_sublist _)
  | move i dest cmp =>
    obtain ⟨hv, hsub⟩ := (h i).1.move cmp
    cases dest with
    | none =>
      cases hs
      exact h.shrink hv hsub
    | some dest =>
      obtain ⟨-, he⟩ := Option.ite_none_left_eq_some.mp hs
      cases he
      exact (h.shrink hv hsub).insAll _
  | moveSelf i cmp fuel =>
    obtain ⟨⟨q, m⟩, hm, he⟩ := Option.map_eq_some_iff.mp hs
    cases he
    obtain ⟨hv, hw, hn⟩ := (h i).1.toShape.moveSelf (h i).2 hm
    exact h.set ⟨hv, hw⟩ hn

theorem valid (h : (machine ω).Run tr s) : s.Valid := by
  refine h.stateInvariant ?_ fun s a t os hi _ hs => step_valid hi hs
  intro s hi i
  obtain ⟨insNeq, hq⟩ := hi i
  rw [hq]
  exact ⟨⟨⟨rfl, List.nodup_nil, List.forall_mem_nil _, fun _ => .nil⟩, rfl⟩, List.forall_mem_nil _⟩

/-- **Queues.** After any operations `tail` is the last element, and `count` the number of
elements exactly if the positional `ins` has added none since they have been counted. If it
has never added one, the elements are in the order of their keys, and `ins` puts a new one
behind those with its key if `insNeq` is set or the key is `MAX_INTEGER64`, and before them
otherwise. -/
theorem queue_law (h : (machine ω).Run tr s) (i : Nat) :
    (s.queue i).tail = (s.queue i).chain.getLast?.map QueueElement.id ∧
    ((s.queue i).count = (s.queue i).chain.length ↔ (s.queue i).uncounted = 0) ∧
    ((s.queue i).placed = false →
      ((s.queue i).chain.Pairwise fun x y => x.key ≤ y.key) ∧
      ∀ key data t os, s.step (.ins i key data) = some (t, os) → ∃ before after,
        (s.queue i).chain = before ++ after ∧
        (t.queue i).chain = before ++ ⟨s.fresh, key, data⟩ :: after ∧
        LinkedQueue.Between (s.queue i).insNeq key before after) := by
  obtain ⟨hv, hw⟩ := valid h i
  refine ⟨hv.tail, ?_, fun hp => ⟨hv.ordered hp, fun key data t os hs => ?_⟩⟩
  · have hc := hv.count
    omega
  · obtain ⟨-, he⟩ := Option.ite_none_right_eq_some.mp hs
    cases he
    have hins : ∃ before after, (s.queue i).chain = before ++ after ∧
        ((s.queue i).ins ⟨s.fresh, key, data⟩).chain = before ++ ⟨s.fresh, key, data⟩ :: after ∧
        _ ∧ _ ∧ (_ → LinkedQueue.Between (s.queue i).insNeq key before after) :=
      hv.toShape.ins_chain hw
    obtain ⟨before, after, hb, hi, -, -, ho⟩ := hins
    refine ⟨before, after, hb, ?_, ho hp⟩
    simpa [Queues.set] using hi

/-- Two queues; the addresses begin with 0. -/
def start : Queues Nat := ⟨fun _ => .empty false, 0⟩

/-- Equal keys, a removal in the middle, and a move. -/
theorem queue_law_moved : ∃ tr s, (machine Nat).Run tr s ∧ tr = [11] ∧
    (s.queue 1).chain.map QueueElement.data = [12] ∧ (s.queue 0).tail = some 0 ∧
    (s.queue 0).tail = (s.queue 0).chain.getLast?.map QueueElement.id := by
  have hr := Machine.exists_run (M := machine Nat) (C := fun _ _ => True)
    (P := fun tr s => tr = [11] ∧ (s.queue 1).chain.map QueueElement.data = [12] ∧
      (s.queue 0).tail = some 0)
    [.ins 0 7 10, .ins 0 7 11, .ins 0 maxInteger64 12, .delIf 0 (· == 11),
      .move 0 (some 1) fun d => if d = 12 then 1 else 0]
    (fun _ => ⟨false, rfl⟩ : (machine Nat).init start) (by decide +kernel)
  obtain ⟨tr, s, h, ht, h₁, h₂⟩ := hr
  exact ⟨tr, s, h, ht, h₁, h₂, (queue_law h 0).1⟩

/-- The positional `ins` does not count what it adds. -/
theorem queue_uncounted : ∃ tr s, (machine Nat).Run tr s ∧ (s.queue 0).chain.length = 1 ∧
    (s.queue 0).count = 0 :=
  Machine.exists_run (M := machine Nat) (C := fun _ _ => True)
    [.insRef 0 (LinkedQueue.cmpStdQueue3 5) 10]
    (fun _ => ⟨false, rfl⟩ : (machine Nat).init start) (by decide +kernel)

end Queues

end TinyState
