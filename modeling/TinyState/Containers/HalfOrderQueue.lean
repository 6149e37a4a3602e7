import Mathlib.Algebra.Order.Ring.Int
import TinyState.Lib.Machine
import TinyState.Containers.HalfOrderNode
import Mathlib.Data.Nat.Log

/-!
# The half ordered queue is balanced

`stdHalfOrderQueue` on nodes whose two pointers may each be null, with the branches that
panic. In any run the nodes are those of a `HalfOrderNode`: keys do not descend, each node
counts the nodes under it, and the counts of two children differ by one at most. So no
branch panics, the depth is logarithmic, and what is taken out has the least key of all.
-/

namespace TinyState

open Transition

namespace HalfOrderNode

variable {β : Type} {t u l r : HalfOrderNode β} {k m key : Int} {d data : β} {c : Nat}

-- ---------------------------------------------------------------------------
-- Counts and balance
-- ---------------------------------------------------------------------------

/-- Each node counts itself and what is under it, with one more on one side at most. -/
def Sized : HalfOrderNode β → Prop
  | leaf _ _ c => c = 1
  | one _ _ c l => c = l.count + 1 ∧ l.count ≤ 1 ∧ l.Sized
  | two _ _ c l r =>
    c = l.count + r.count + 1 ∧ (l.count ≤ r.count + 1 ∧ r.count ≤ l.count + 1) ∧
      l.Sized ∧ r.Sized

theorem Sized.pos (h : t.Sized) : 1 ≤ t.count := by
  cases t with
  | leaf k d c => exact Nat.le_of_eq (Eq.symm h)
  | one k d c l =>
    obtain ⟨rfl, -⟩ := h
    exact Nat.le_add_left 1 _
  | two k d c l r =>
    obtain ⟨rfl, -⟩ := h
    exact Nat.le_add_left 1 _

theorem Sized.put (h : t.Sized) : (t.put k d).Sized := by cases t <;> exact h

@[simp] theorem count_put : (t.put k d).count = t.count := by cases t <;> rfl

theorem settle_sized (hc : c = l.count + r.count + 1)
    (hb : l.count ≤ r.count + 1 ∧ r.count ≤ l.count + 1) (hl : l.Sized) (hr : r.Sized) :
    (settle k d c l r).Sized := by
  unfold settle
  split
  · exact ⟨hc, hb, hl, hr⟩
  · split
    · split
      · exact ⟨hc, hb, hl, hr⟩
      · exact ⟨by rwa [count_put], by rwa [count_put], hl.put, hr⟩
    · split
      · exact ⟨hc, hb, hl, hr⟩
      · exact ⟨by rwa [count_put], by rwa [count_put], hl, hr.put⟩

theorem Sized.ins (h : t.Sized) : (t.ins key data).Sized := by
  induction t with
  | leaf k d c =>
    obtain rfl : c = 1 := h
    unfold HalfOrderNode.ins
    split <;> exact ⟨rfl, Nat.le_refl 1, rfl⟩
  | one k d c l ih =>
    obtain ⟨rfl, hl, hs⟩ := h
    refine settle_sized rfl ⟨?_, ?_⟩ hs rfl
    · exact Nat.le_succ_of_le hl
    · exact Nat.le_add_left 1 _
  | two k d c l r ihl ihr =>
    obtain ⟨rfl, ⟨hlr, hrl⟩, hl, hr⟩ := h
    unfold HalfOrderNode.ins
    split
    · refine settle_sized ?_ ⟨?_, ?_⟩ (ihl hl) hr <;> rw [count_ins] <;> omega
    · refine settle_sized ?_ ⟨?_, ?_⟩ hl (ihr hr) <;> rw [count_ins] <;> omega

theorem Sized.count_of_dropLast_none (h : t.Sized) (hu : t.dropLast.2 = none) :
    t.count = 1 := by
  rw [leaf_of_dropLast_none hu] at h
  exact h

/-- The last node is taken from the side that has more, or from the first. -/
theorem Sized.dropLast (h : t.Sized) (hu : t.dropLast.2 = some u) : u.Sized := by
  induction t generalizing u with
  | leaf k d c => cases hu
  | one k d c l ih =>
    obtain ⟨rfl, hl, hs⟩ := h
    unfold HalfOrderNode.dropLast at hu
    cases hd : l.dropLast.2 with
    | none =>
      rw [hd] at hu
      cases hu
      exact hs.count_of_dropLast_none hd
    | some v =>
      rw [hd] at hu
      cases hu
      have hv := (dropLast_top hd).2.2
      have hp := (ih hs hd).pos
      omega
  | two k d c l r ihl ihr =>
    obtain ⟨rfl, ⟨hlr, hrl⟩, hl, hr⟩ := h
    unfold HalfOrderNode.dropLast at hu
    split at hu
    · rename_i hc
      cases hd : l.dropLast.2 with
      | none =>
        have h1 := hl.count_of_dropLast_none hd
        rw [hd] at hu
        cases hu
        refine ⟨?_, ?_, hr⟩ <;> omega
      | some v =>
        have hv := (dropLast_top hd).2.2
        have hp := (ihl hl hd).pos
        rw [hd] at hu
        cases hu
        refine ⟨?_, ⟨?_, ?_⟩, ihl hl hd, hr⟩ <;> omega
    · rename_i hc
      cases hd : r.dropLast.2 with
      | none =>
        have h1 := hr.count_of_dropLast_none hd
        have hp := hl.pos
        omega
      | some v =>
        have hv := (dropLast_top hd).2.2
        have hp := (ihr hr hd).pos
        rw [hd] at hu
        cases hu
        refine ⟨?_, ⟨?_, ?_⟩, hl, ihr hr hd⟩ <;> omega

theorem Sized.sift (h : t.Sized) : (t.sift k d).Sized := by
  induction t with
  | leaf k' d' c => exact h
  | one k' d' c l ih =>
    unfold HalfOrderNode.sift
    split
    · exact h
    · exact ⟨by rw [count_sift]; exact h.1, by rw [count_sift]; exact h.2.1, ih h.2.2⟩
  | two k' d' c l r ihl ihr =>
    obtain ⟨hc, hb, hl, hr⟩ := h
    unfold HalfOrderNode.sift
    split
    · exact ⟨hc, hb, hl, hr⟩
    · split
      · exact ⟨by rwa [count_sift], by rwa [count_sift], ihl hl, hr⟩
      · exact ⟨by rwa [count_sift], by rwa [count_sift], hl, ihr hr⟩

theorem Sized.count_eq (h : t.Sized) : t.count = t.pairs.length := by
  induction t with
  | leaf k d c => exact h
  | one k d c l ih =>
    rw [pairs, List.length_cons, ← ih h.2.2]
    exact h.1
  | two k d c l r ihl ihr =>
    rw [pairs, List.length_cons, List.length_append, ← ihl h.2.2.1, ← ihr h.2.2.2]
    exact h.1

def height : HalfOrderNode β → Nat
  | leaf .. => 1
  | one _ _ _ l => l.height + 1
  | two _ _ _ l r => max l.height r.height + 1

/-- Each level holds half of what is above it, at least. -/
theorem Sized.two_pow_height (h : t.Sized) : 2 ^ t.height ≤ 2 * t.count := by
  induction t with
  | leaf k d c =>
    obtain rfl : c = 1 := h
    exact Nat.le_refl 2
  | one k d c l ih =>
    obtain ⟨rfl, hl, hs⟩ := h
    have ih := ih hs
    rw [height, Nat.pow_succ]
    change _ ≤ 2 * (l.count + 1)
    omega
  | two k d c l r ihl ihr =>
    obtain ⟨rfl, ⟨hlr, hrl⟩, hl, hr⟩ := h
    have ihl := ihl hl
    have ihr := ihr hr
    change _ ≤ 2 * (l.count + r.count + 1)
    rw [height, Nat.pow_succ]
    rcases Nat.le_total l.height r.height with hh | hh
    · rw [Nat.max_eq_right hh]
      omega
    · rw [Nat.max_eq_left hh]
      omega

-- ---------------------------------------------------------------------------
-- The order of the keys
-- ---------------------------------------------------------------------------

/-- No child has a lesser key than `k`. -/
def Above (k : Int) : HalfOrderNode β → Prop
  | leaf .. => True
  | one _ _ _ l => k ≤ l.key
  | two _ _ _ l r => k ≤ l.key ∧ k ≤ r.key

/-- No child has a lesser key than its parent. -/
def Ordered : HalfOrderNode β → Prop
  | leaf .. => True
  | one k _ _ l => k ≤ l.key ∧ l.Ordered
  | two k _ _ l r => (k ≤ l.key ∧ k ≤ r.key) ∧ l.Ordered ∧ r.Ordered

theorem Ordered.above (h : t.Ordered) : Above t.key t := by
  cases t with
  | leaf => trivial
  | one => exact h.1
  | two => exact h.1

theorem Above.mono (h : Above k t) (hm : m ≤ k) : Above m t := by
  cases t with
  | leaf => trivial
  | one => exact Int.le_trans hm h
  | two => exact ⟨Int.le_trans hm h.1, Int.le_trans hm h.2⟩

theorem Ordered.put (h : t.Ordered) (ha : Above k t) : (t.put k d).Ordered := by
  cases t with
  | leaf => trivial
  | one => exact ⟨ha, h.2⟩
  | two => exact ⟨ha, h.2⟩

@[simp] theorem key_put : (t.put k d).key = k := by cases t <;> rfl

/-- The top of an ordered tree has the least key. -/
theorem Ordered.least (h : t.Ordered) : ∀ p ∈ t.pairs, t.key ≤ p.1 := by
  induction t with
  | leaf k d c =>
    intro p hp
    obtain rfl : p = (k, d) := List.mem_singleton.mp hp
    exact Int.le_refl k
  | one k d c l ih =>
    intro p hp
    rcases List.mem_cons.mp hp with rfl | hp
    · exact Int.le_refl k
    · exact Int.le_trans h.1 (ih h.2 p hp)
  | two k d c l r ihl ihr =>
    intro p hp
    rcases List.mem_cons.mp hp with rfl | hp
    · exact Int.le_refl k
    · rcases List.mem_append.mp hp with hp | hp
      · exact Int.le_trans h.1.1 (ihl h.2.1 p hp)
      · exact Int.le_trans h.1.2 (ihr h.2.2 p hp)

/-- One of the children may have become less than the node; then they change places. -/
theorem settle_ordered (hl : l.Ordered) (hr : r.Ordered) (hal : Above k l) (har : Above k r)
    (hk : k ≤ l.key ∨ k ≤ r.key) :
    (settle k d c l r).Ordered ∧ Above k (settle k d c l r) ∧
      (settle k d c l r).key = min k (min l.key r.key) := by
  unfold settle
  split
  · rename_i h
    exact ⟨⟨h, hl, hr⟩, h, by change k = _; omega⟩
  · rename_i h
    split
    · rename_i hlt
      rw [if_neg (Int.not_le.mpr hlt.1)]
      have hkr := hk.resolve_left (Int.not_le.mpr hlt.1)
      refine ⟨⟨⟨?_, Int.le_of_lt hlt.2⟩, hl.put hal, hr⟩, ⟨?_, hkr⟩, ?_⟩
      · rw [key_put]
        exact Int.le_of_lt hlt.1
      · rw [key_put]
      · change l.key = _
        omega
    · rename_i hlt
      have hrk : ¬ k ≤ r.key := by omega
      have hkl := hk.resolve_right hrk
      rw [if_neg hrk]
      refine ⟨⟨⟨?_, ?_⟩, hl, hr.put har⟩, ⟨hkl, ?_⟩, ?_⟩
      · omega
      · rw [key_put]
        omega
      · rw [key_put]
      · change r.key = _
        omega

/-- Where the new key goes up, what it passes was in order before. -/
theorem Ordered.ins (h : t.Ordered) :
    (t.ins key data).Ordered ∧ Above t.key (t.ins key data) ∧
      (t.ins key data).key = min t.key key := by
  induction t with
  | leaf k d c =>
    unfold HalfOrderNode.ins
    split
    · rename_i hk
      exact ⟨⟨hk, trivial⟩, hk, (min_eq_left hk).symm⟩
    · rename_i hk
      have hk := Int.le_of_lt (Int.not_le.mp hk)
      exact ⟨⟨hk, trivial⟩, Int.le_refl k, (min_eq_right hk).symm⟩
  | one k d c l ih =>
    obtain ⟨ho, ha, hm⟩ := settle_ordered (k := k) (d := d) (c := c + 1) (r := leaf key data 1)
      h.2 trivial (h.2.above.mono h.1) trivial (.inl h.1)
    refine ⟨ho, ha, hm.trans ?_⟩
    change min k (min l.key key) = min k key
    have := h.1
    omega
  | two k d c l r ihl ihr =>
    obtain ⟨⟨hkl, hkr⟩, hl, hr⟩ := h
    unfold HalfOrderNode.ins
    split
    · obtain ⟨hil, hal, hml⟩ := ihl hl
      obtain ⟨ho, ha, hm⟩ := settle_ordered (k := k) (d := d) (c := c + 1) hil hr
        (hal.mono hkl) (hr.above.mono hkr) (.inr hkr)
      refine ⟨ho, ha, hm.trans ?_⟩
      rw [hml]
      change _ = min k key
      omega
    · obtain ⟨hir, har, hmr⟩ := ihr hr
      obtain ⟨ho, ha, hm⟩ := settle_ordered (k := k) (d := d) (c := c + 1) hl hir
        (hl.above.mono hkl) (har.mono hkr) (.inl hkl)
      refine ⟨ho, ha, hm.trans ?_⟩
      rw [hmr]
      change _ = min k key
      omega

theorem Ordered.dropLast (h : t.Ordered) (hu : t.dropLast.2 = some u) : u.Ordered := by
  induction t generalizing u with
  | leaf k d c => cases hu
  | one k d c l ih =>
    unfold HalfOrderNode.dropLast at hu
    cases hd : l.dropLast.2 with
    | none =>
      rw [hd] at hu
      cases hu
      trivial
    | some v =>
      rw [hd] at hu
      cases hu
      exact ⟨by rw [(dropLast_top hd).1]; exact h.1, ih h.2 hd⟩
  | two k d c l r ihl ihr =>
    obtain ⟨⟨hkl, hkr⟩, hl, hr⟩ := h
    unfold HalfOrderNode.dropLast at hu
    split at hu
    · cases hd : l.dropLast.2 with
      | none =>
        rw [hd] at hu
        cases hu
        exact ⟨hkr, hr⟩
      | some v =>
        rw [hd] at hu
        cases hu
        exact ⟨⟨by rwa [(dropLast_top hd).1], hkr⟩, ihl hl hd, hr⟩
    · cases hd : r.dropLast.2 with
      | none =>
        rw [hd] at hu
        cases hu
        exact ⟨hkl, hl⟩
      | some v =>
        rw [hd] at hu
        cases hu
        exact ⟨⟨hkl, by rwa [(dropLast_top hd).1]⟩, hl, ihr hr hd⟩

/-- Nothing comes up that is less than both what goes down and what was under it. -/
theorem le_key_sift (hk : m ≤ k) (ha : Above m t) : m ≤ (t.sift k d).key := by
  cases t with
  | leaf k' d' c => exact hk
  | one k' d' c l =>
    unfold HalfOrderNode.sift
    split
    · exact hk
    · exact ha
  | two k' d' c l r =>
    unfold HalfOrderNode.sift
    split
    · exact hk
    · split
      · exact ha.1
      · exact ha.2

theorem Ordered.sift (h : t.Ordered) : (t.sift k d).Ordered := by
  induction t with
  | leaf k' d' c => trivial
  | one k' d' c l ih =>
    unfold HalfOrderNode.sift
    split
    · rename_i hk
      exact ⟨hk, h.2⟩
    · rename_i hk
      exact ⟨le_key_sift (Int.le_of_lt (Int.not_le.mp hk)) h.2.above, ih h.2⟩
  | two k' d' c l r ihl ihr =>
    obtain ⟨-, hl, hr⟩ := h
    unfold HalfOrderNode.sift
    split
    · rename_i hk
      exact ⟨hk, hl, hr⟩
    · split
      · rename_i hk
        exact ⟨⟨le_key_sift hk.1 hl.above, hk.2⟩, ihl hl, hr⟩
      · rename_i hk
        have hrk : r.key ≤ k ∧ r.key ≤ l.key := by omega
        exact ⟨⟨hrk.2, le_key_sift hrk.1 hr.above⟩, hl, ihr hr⟩

end HalfOrderNode

-- ---------------------------------------------------------------------------
-- Nodes with null pointers
-- ---------------------------------------------------------------------------

/-- `stdHalfOrderNode`, or the null pointer. -/
inductive StdHalfOrderNode (β : Type)
  | null
  | node (key : Int) (data : β) (count : Int) (n₀ n₁ : StdHalfOrderNode β)
  deriving DecidableEq, Repr

namespace StdHalfOrderNode

variable {β : Type}

def isNull : StdHalfOrderNode β → Bool
  | null => true
  | node .. => false

@[simp] theorem isNull_null : (null : StdHalfOrderNode β).isNull = true := rfl

-- The next three are only read of nodes.
def key : StdHalfOrderNode β → Int
  | null => 0
  | node k .. => k

def dataOr (d : β) : StdHalfOrderNode β → β
  | null => d
  | node _ d .. => d

def count : StdHalfOrderNode β → Int
  | null => 0
  | node _ _ c .. => c

def put (k : Int) (d : β) : StdHalfOrderNode β → StdHalfOrderNode β
  | null => null
  | node _ _ c n₀ n₁ => node k d c n₀ n₁

/-- The constructor. -/
def new (key : Int) (data : β) : StdHalfOrderNode β := node key data 1 null null

/-- The end of `_ins`, where both children are there. -/
def settle (k : Int) (d : β) (c : Int) (n₀ n₁ : StdHalfOrderNode β) : StdHalfOrderNode β :=
  if k ≤ n₀.key ∧ k ≤ n₁.key then node k d c n₀ n₁
  else if n₀.key < k ∧ n₀.key < n₁.key then
    if k ≤ n₀.key then node k d c n₀ n₁ else node n₀.key (n₀.dataOr d) c (n₀.put k d) n₁
  else
    if k ≤ n₁.key then node k d c n₀ n₁ else node n₁.key (n₁.dataOr d) c n₀ (n₁.put k d)

/-- `_ins`. -/
def ins (key : Int) (data : β) : StdHalfOrderNode β → Except String (StdHalfOrderNode β)
  | null => .error "null pointer"
  | node k d c n₀ n₁ =>
    if n₀.isNull then
      if n₁.isNull then
        if k ≤ key then .ok (node k d (c + 1) (new key data) n₁)
        else .ok (node key data (c + 1) (new k d) n₁)
      else .error "invalid node"
    else if n₁.isNull then .ok (settle k d (c + 1) n₀ (new key data))
    else if n₀.count ≤ n₁.count then
      (n₀.ins key data).map fun n₀ => settle k d (c + 1) n₀ n₁
    else (n₁.ins key data).map fun n₁ => settle k d (c + 1) n₀ n₁

/-- The first loop of `del`, from `np` on: the key and the data of the node where it stops, and
what is left of `np`. There is nothing left of the node where it stops: `prev` lets it go. -/
def dropLast : StdHalfOrderNode β → Option (Int × β) × Option (StdHalfOrderNode β)
  | null => (none, some null)
  | node k d c n₀ n₁ =>
    if n₀.isNull then (some (k, d), none)
    else if n₁.isNull ∨ n₁.count ≤ n₀.count then
      (n₀.dropLast.1, match n₀.dropLast.2 with
        | none => some (node k d (c - 1) n₁ null)
        | some n₀ => some (node k d (c - 1) n₀ n₁))
    else
      (n₁.dropLast.1, match n₁.dropLast.2 with
        | none => some (node k d (c - 1) n₀ null)
        | some n₁ => some (node k d (c - 1) n₀ n₁))

/-- The second loop of `del`, where `np` holds `k` and `d`. -/
def sift (k : Int) (d : β) : StdHalfOrderNode β → StdHalfOrderNode β
  | null => null
  | node _ _ c n₀ n₁ =>
    if n₀.isNull then node k d c n₀ n₁
    else if n₁.isNull then
      if k ≤ n₀.key then node k d c n₀ n₁
      else node n₀.key (n₀.dataOr d) c (n₀.sift k d) n₁
    else if k ≤ n₀.key ∧ k ≤ n₁.key then node k d c n₀ n₁
    else if n₀.key ≤ k ∧ n₀.key ≤ n₁.key then
      node n₀.key (n₀.dataOr d) c (n₀.sift k d) n₁
    else node n₁.key (n₁.dataOr d) c n₀ (n₁.sift k d)

def pairs : StdHalfOrderNode β → List (Int × β)
  | null => []
  | node k d _ n₀ n₁ => (k, d) :: (n₀.pairs ++ n₁.pairs)

def height : StdHalfOrderNode β → Nat
  | null => 0
  | node _ _ _ n₀ n₁ => max n₀.height n₁.height + 1

/-- What holds of a node with the two children `n₀` and `n₁`. -/
structure NodeLaw (k c : Int) (n₀ n₁ : StdHalfOrderNode β) : Prop where
  counted : c = (n₀.pairs.length + n₁.pairs.length + 1 : Nat)
  balanced : n₀.count ≤ n₁.count + 1 ∧ n₁.count ≤ n₀.count + 1
  first : n₀ = null → n₁ = null
  least : ∀ p ∈ n₀.pairs ++ n₁.pairs, k ≤ p.1

/-- Each node is lawful. -/
def Lawful : StdHalfOrderNode β → Prop
  | null => True
  | node k _ c n₀ n₁ => NodeLaw k c n₀ n₁ ∧ n₀.Lawful ∧ n₁.Lawful

end StdHalfOrderNode

-- ---------------------------------------------------------------------------
-- The two kinds of nodes
-- ---------------------------------------------------------------------------

namespace HalfOrderNode

variable {β : Type} {t u l r : HalfOrderNode β} {k key : Int} {d data : β} {c : Nat}

/-- The node as the code has it. -/
def raw : HalfOrderNode β → StdHalfOrderNode β
  | leaf k d c => .node k d c .null .null
  | one k d c l => .node k d c l.raw .null
  | two k d c l r => .node k d c l.raw r.raw

example : (one 1 () 2 (leaf 3 () 1)).raw = .node 1 () 2 (.node 3 () 1 .null .null) .null := by
  simp [raw]

@[simp] theorem isNull_raw : t.raw.isNull = false := by cases t <;> rfl

@[simp] theorem key_raw : t.raw.key = t.key := by cases t <;> rfl

@[simp] theorem dataOr_raw : t.raw.dataOr d = t.data := by cases t <;> rfl

@[simp] theorem count_raw : t.raw.count = t.count := by cases t <;> rfl

@[simp] theorem put_raw : t.raw.put k d = (t.put k d).raw := by cases t <;> rfl

theorem raw_ne_null : t.raw ≠ .null := by cases t <;> exact nofun

theorem pairs_raw : t.raw.pairs = t.pairs := by
  induction t with
  | leaf => rfl
  | one k d c l ih => simp [raw, StdHalfOrderNode.pairs, pairs, ih]
  | two k d c l r ihl ihr => simp [raw, StdHalfOrderNode.pairs, pairs, ihl, ihr]

theorem height_raw : t.raw.height = t.height := by
  induction t with
  | leaf => rfl
  | one k d c l ih => simp [raw, StdHalfOrderNode.height, height, ih]
  | two k d c l r ihl ihr => simp [raw, StdHalfOrderNode.height, height, ihl, ihr]

theorem settle_raw :
    StdHalfOrderNode.settle k d (c + 1) l.raw r.raw = (settle k d (c + 1) l r).raw := by
  unfold StdHalfOrderNode.settle settle
  simp only [key_raw, dataOr_raw, put_raw]
  split_ifs <;> rfl

/-- `_ins` never comes to a node with a second child alone. -/
theorem ins_raw : t.raw.ins key data = .ok (t.ins key data).raw := by
  induction t with
  | leaf k d c =>
    unfold ins
    simp only [raw, StdHalfOrderNode.ins, StdHalfOrderNode.isNull_null, if_true]
    split <;> rfl
  | one k d c l ih =>
    simp only [raw, StdHalfOrderNode.ins, isNull_raw, StdHalfOrderNode.isNull_null,
      Bool.false_eq_true, if_false, if_true]
    exact congrArg Except.ok (settle_raw (r := leaf key data 1))
  | two k d c l r ihl ihr =>
    unfold ins
    simp only [raw, StdHalfOrderNode.ins, isNull_raw, Bool.false_eq_true, if_false, count_raw,
      ihl, ihr, Except.map, settle_raw, Int.ofNat_le]
    split <;> rfl

theorem dropLast_raw (h : t.Sized) :
    t.raw.dropLast = (some t.dropLast.1, t.dropLast.2.map raw) := by
  induction t with
  | leaf => rfl
  | one k d c l ih =>
    obtain ⟨rfl, -, hl⟩ := h
    simp only [raw, StdHalfOrderNode.dropLast, isNull_raw, StdHalfOrderNode.isNull_null, true_or,
      Bool.false_eq_true, if_false, if_true, ih hl, dropLast]
    cases l.dropLast.2 <;> simp [raw]
  | two k d c l r ihl ihr =>
    obtain ⟨rfl, -, hl, hr⟩ := h
    simp only [raw, StdHalfOrderNode.dropLast, isNull_raw, false_or, count_raw, Int.ofNat_le,
      Bool.false_eq_true, if_false, ihl hl, ihr hr, dropLast]
    by_cases hc : r.count ≤ l.count
    · simp only [hc, if_true]
      cases l.dropLast.2 <;> simp [raw]
    · simp only [hc, if_false]
      cases r.dropLast.2 <;> simp [raw]

theorem sift_raw : t.raw.sift k d = (t.sift k d).raw := by
  induction t with
  | leaf => rfl
  | one k' d' c l ih =>
    unfold sift
    simp only [raw, StdHalfOrderNode.sift, isNull_raw, StdHalfOrderNode.isNull_null,
      Bool.false_eq_true, if_false, if_true, key_raw, dataOr_raw, ih]
    split <;> rfl
  | two k' d' c l r ihl ihr =>
    unfold sift
    simp only [raw, StdHalfOrderNode.sift, isNull_raw, Bool.false_eq_true, if_false, key_raw,
      dataOr_raw, ihl, ihr]
    split_ifs <;> rfl

theorem lawful_raw (hs : t.Sized) (ho : t.Ordered) : t.raw.Lawful := by
  have hc := hs.count_eq
  induction t with
  | leaf k d c => exact ⟨⟨congrArg Int.ofNat hc, ⟨Int.one_nonneg, Int.one_nonneg⟩,
      fun _ => rfl, nofun⟩,
      trivial, trivial⟩
  | one k d c l ih =>
    have hl := ih hs.2.2 ho.2 hs.2.2.count_eq
    refine ⟨⟨?_, ⟨?_, ?_⟩, fun _ => rfl, ?_⟩, hl, trivial⟩
    · rw [pairs_raw]
      exact congrArg Int.ofNat hc
    · rw [count_raw]
      exact Int.ofNat_le.mpr hs.2.1
    · rw [count_raw]
      exact Int.natCast_nonneg (l.count + 1)
    · rw [pairs_raw]
      intro p hp
      exact Int.le_trans ho.1 (ho.2.least p (by simpa [StdHalfOrderNode.pairs] using hp))
  | two k d c l r ihl ihr =>
    obtain ⟨-, ⟨hlr, hrl⟩, hl, hr⟩ := hs
    obtain ⟨⟨hkl, hkr⟩, hol, hor⟩ := ho
    refine ⟨⟨?_, ⟨?_, ?_⟩, fun h => absurd h raw_ne_null, ?_⟩, ihl hl hol hl.count_eq,
      ihr hr hor hr.count_eq⟩
    · rw [pairs_raw, pairs_raw]
      rw [pairs, List.length_cons, List.length_append] at hc
      exact congrArg Int.ofNat hc
    · rw [count_raw, count_raw]
      exact Int.ofNat_le.mpr hlr
    · rw [count_raw, count_raw]
      exact Int.ofNat_le.mpr hrl
    · rw [pairs_raw, pairs_raw]
      intro p hp
      rcases List.mem_append.mp hp with hp | hp
      · exact Int.le_trans hkl (hol.least p hp)
      · exact Int.le_trans hkr (hor.least p hp)

end HalfOrderNode

-- ---------------------------------------------------------------------------
-- The queue
-- ---------------------------------------------------------------------------

/-- `stdHalfOrderQueue`. -/
structure StdHalfOrderQueue (β : Type) where
  top : StdHalfOrderNode β
  deriving DecidableEq, Repr

namespace StdHalfOrderQueue

open StdHalfOrderNode

variable {β : Type}

def ins (q : StdHalfOrderQueue β) (key : Int) (data : β) :
    Except String (StdHalfOrderQueue β) :=
  if q.top.isNull then .ok ⟨new key data⟩
  else (q.top.ins key data).map fun t => ⟨t⟩

/-- `del(&key)`: the data that it returns, with their key, and the queue afterwards. -/
def del (q : StdHalfOrderQueue β) :
    Except String (Option (Int × β) × StdHalfOrderQueue β) :=
  match q.top with
  | null => .ok (none, q)
  | node k d c n₀ n₁ =>
    if n₀.isNull then .ok (some (k, d), ⟨null⟩)
    else
      match (node k d c n₀ n₁).dropLast with
      | (_, none) => .error "del??"
      | (none, some t) => .ok (some (k, d), ⟨t.sift k d⟩)
      | (some (k', d'), some t) => .ok (some (k, d), ⟨t.sift k' d'⟩)

/-- `count()`. -/
def count (q : StdHalfOrderQueue β) : Int := q.top.count

end StdHalfOrderQueue

namespace HalfOrderQueue

open HalfOrderNode

variable {β : Type} {q : HalfOrderQueue β} {t : HalfOrderNode β} {k : Int} {d : β}

/-- The queue as the code has it. -/
def raw (q : HalfOrderQueue β) : StdHalfOrderQueue β where
  top := match q.top with
    | none => .null
    | some t => t.raw

theorem pairs_raw : q.raw.top.pairs = q.pairs := by
  obtain ⟨top, hc⟩ := q
  cases top with
  | none => rfl
  | some t => exact HalfOrderNode.pairs_raw

/-- Balanced and in order. -/
def Fit (q : HalfOrderQueue β) : Prop := ∀ t ∈ q.top, t.Sized ∧ t.Ordered

theorem Fit.ins (h : q.Fit) : (q.ins k d).Fit := by
  rintro u hu
  cases hu
  cases hq : q.top with
  | none => exact ⟨rfl, trivial⟩
  | some t => exact ⟨(h t hq).1.ins, (h t hq).2.ins.1⟩

theorem ins_raw : q.raw.ins k d = .ok (q.ins k d).raw := by
  obtain ⟨top, hc⟩ := q
  cases top with
  | none => rfl
  | some t =>
    simp only [StdHalfOrderQueue.ins, raw, isNull_raw, Bool.false_eq_true, if_false,
      HalfOrderNode.ins_raw]
    rfl

/-- The first loop of `del` finds a node other than the top. -/
theorem top_del_raw (h : t.Sized) :
    (⟨t.raw⟩ : StdHalfOrderQueue β).del = .ok (some (t.key, t.data),
      match t.dropLast.2 with
      | none => ⟨.null⟩
      | some u => ⟨(u.sift t.dropLast.1.1 t.dropLast.1.2).raw⟩) := by
  have hd := dropLast_raw h
  cases t with
  | leaf k d c => rfl
  | one k d c l | two k d c l r =>
    unfold StdHalfOrderQueue.del
    simp only [HalfOrderNode.raw, isNull_raw, Bool.false_eq_true, if_false] at hd ⊢
    rw [hd]
    cases hu : (HalfOrderNode.dropLast _).2 with
    | none => exact nomatch leaf_of_dropLast_none hu
    | some u =>
      simp only [Option.map_some, sift_raw]
      rfl

/-- The code takes out what the model takes out, with the key of the top. -/
theorem del_raw (h : q.Fit) :
    match q.top with
    | none => q.raw.del = .ok (none, q.raw)
    | some t => ∃ q', q.del = some (t.data, q') ∧ q'.Fit ∧
        q.raw.del = .ok (some (t.key, t.data), q'.raw) := by
  obtain ⟨top, hc⟩ := q
  cases top with
  | none => rfl
  | some t =>
    obtain ⟨hs, ho⟩ := h t rfl
    have hr := top_del_raw hs
    change ∃ q', _
    simp only [del]
    split
    · rename_i hu
      rw [hu] at hr
      exact ⟨_, rfl, nofun, hr⟩
    · rename_i u hu
      rw [hu] at hr
      refine ⟨_, rfl, ?_, hr⟩
      rintro v hv
      cases hv
      exact ⟨(hs.dropLast hu).sift, (ho.dropLast hu).sift⟩

end HalfOrderQueue

-- ---------------------------------------------------------------------------
-- Runs
-- ---------------------------------------------------------------------------

inductive HalfOrderAct (β : Type)
  | ins (key : Int) (data : β)
  | del
  deriving DecidableEq, Repr

inductive HalfOrderObs (β : Type)
  | put (entry : Int × β)
  | got (entry : Option (Int × β))
  | panicked (message : String)
  deriving DecidableEq, Repr

namespace StdHalfOrderQueue

variable {β : Type} {q : StdHalfOrderQueue β} {tr : List (HalfOrderObs β)}

def step (q : StdHalfOrderQueue β) :
    HalfOrderAct β → Option (StdHalfOrderQueue β × List (HalfOrderObs β))
  | .ins key data =>
    match q.ins key data with
    | .ok q => some (q, [.put (key, data)])
    | .error message => some (q, [.panicked message])
  | .del =>
    match q.del with
    | .ok (r, q) => some (q, [.got r])
    | .error message => some (q, [.panicked message])

def machine (β : Type) : Machine (StdHalfOrderQueue β) (HalfOrderAct β) (HalfOrderObs β) where
  init q := q = ⟨.null⟩
  step := step

/-- What has been put in. -/
def puts (tr : List (HalfOrderObs β)) : List (Int × β) :=
  tr.filterMap fun
    | .put e => some e
    | _ => none

/-- What has been taken out. -/
def gots (tr : List (HalfOrderObs β)) : List (Int × β) :=
  tr.filterMap fun
    | .got e => e
    | _ => none

theorem puts_append (tr os : List (HalfOrderObs β)) : puts (tr ++ os) = puts tr ++ puts os :=
  List.filterMap_append

theorem gots_append (tr os : List (HalfOrderObs β)) : gots (tr ++ os) = gots tr ++ gots os :=
  List.filterMap_append

/-- The state of the queue after a run: it stands for a queue that is fit. -/
structure Stands (tr : List (HalfOrderObs β)) (h : HalfOrderQueue β) : Prop where
  fit : h.Fit
  contents : (puts tr).Perm (gots tr ++ h.pairs)
  unbroken : ∀ message, .panicked message ∉ tr

theorem stands (hr : (machine β).Run tr q) : ∃ h : HalfOrderQueue β, q = h.raw ∧ Stands tr h := by
  refine hr.invariant (I := fun tr q => ∃ h : HalfOrderQueue β, q = h.raw ∧ Stands tr h)
    ?start ?step
  case start =>
    rintro q rfl
    exact ⟨.empty, rfl, nofun, .refl _, fun _ => List.not_mem_nil⟩
  case step =>
    rintro tr q a q' os - ⟨h, rfl, hs⟩ - hstep
    change step _ a = _ at hstep
    cases a with
    | ins key data =>
      simp only [step, HalfOrderQueue.ins_raw] at hstep
      cases hstep
      refine ⟨h.ins key data, rfl, hs.fit.ins, ?_, ?_⟩
      · rw [puts_append, gots_append]
        calc puts tr ++ [(key, data)]
          List.Perm _ ((key, data) :: puts tr) := List.perm_append_comm
          List.Perm _ ((key, data) :: (gots tr ++ h.pairs)) := hs.contents.cons _
          List.Perm _ (gots tr ++ (key, data) :: h.pairs) := List.perm_middle.symm
          List.Perm _ (gots tr ++ [] ++ (h.ins key data).pairs) := by
            rw [List.append_nil]
            exact (HalfOrderQueue.pairs_ins h key data).symm.append_left _
      · intro m hm
        rcases List.mem_append.mp hm with hm | hm
        · exact hs.unbroken m hm
        · cases List.mem_singleton.mp hm
    | del =>
      have hd := HalfOrderQueue.del_raw hs.fit
      cases hq : h.top with
      | none =>
        rw [hq] at hd
        simp only [step, hd] at hstep
        cases hstep
        refine ⟨h, rfl, hs.fit, ?_, ?_⟩
        · rw [puts_append, gots_append]
          simpa [puts, gots] using hs.contents
        · simpa using hs.unbroken
      | some t =>
        rw [hq] at hd
        obtain ⟨h', hdel, hf, hd⟩ := hd
        obtain ⟨u, hu, -, hp⟩ := HalfOrderQueue.pairs_del hdel
        obtain rfl : t = u := Option.some.inj (hq.symm.trans hu)
        simp only [step, hd] at hstep
        cases hstep
        refine ⟨h', rfl, hf, ?_, ?_⟩
        · rw [puts_append, gots_append]
          calc puts tr ++ []
            List.Perm _ (puts tr) := by rw [List.append_nil]
            List.Perm _ (gots tr ++ h.pairs) := hs.contents
            List.Perm _ (gots tr ++ (t.key, t.data) :: h'.pairs) := hp.append_left _
            List.Perm _ (gots tr ++ [(t.key, t.data)] ++ h'.pairs) := by
              rw [List.append_assoc]
              exact .refl _
        · simpa using hs.unbroken

/-- What holds of the queue in any run. -/
structure HalfOrderLaw (tr : List (HalfOrderObs β)) (q : StdHalfOrderQueue β) : Prop where
  contents : (puts tr).Perm (gots tr ++ q.top.pairs)
  nodes : q.top.Lawful
  count : q.count = q.top.pairs.length
  depth : q.top.height ≤ Nat.log 2 q.top.pairs.length + 1
  unbroken : ∀ message, .panicked message ∉ tr
  del : ∃ r q', q.del = .ok (r, q') ∧
    match r with
    | none => q.top.pairs = [] ∧ q' = q
    | some (key, data) => q.top.pairs.Perm ((key, data) :: q'.top.pairs) ∧
        ∀ p ∈ q.top.pairs, key ≤ p.1

/-- `stdHalfOrderQueue` holds what was put in and not yet taken out. `del` takes out an entry
with the least key, each node counts what is under it, and the two sides of a node differ by
one at most. -/
theorem halfOrderQueue_law (hr : (machine β).Run tr q) : HalfOrderLaw tr q := by
  obtain ⟨h, rfl, hs⟩ := stands hr
  have hd := HalfOrderQueue.del_raw hs.fit
  have hp := h.pairs_raw
  refine ⟨by rw [hp]; exact hs.contents, ?nodes, ?count, ?depth, hs.unbroken, ?del⟩
  case nodes =>
    cases hq : h.top with
    | none => simp [HalfOrderQueue.raw, hq, StdHalfOrderNode.Lawful]
    | some t =>
      obtain ⟨hsz, ho⟩ := hs.fit t hq
      simpa [HalfOrderQueue.raw, hq] using HalfOrderNode.lawful_raw hsz ho
  case count =>
    cases hq : h.top with
    | none => simp [count, HalfOrderQueue.raw, hq, StdHalfOrderNode.count,
        StdHalfOrderNode.pairs]
    | some t =>
      have hc := (hs.fit t hq).1.count_eq
      simp [count, HalfOrderQueue.raw, hq, HalfOrderNode.pairs_raw, hc]
  case depth =>
    cases hq : h.top with
    | none => simp [HalfOrderQueue.raw, hq, StdHalfOrderNode.height]
    | some t =>
      obtain ⟨hsz, -⟩ := hs.fit t hq
      have hpow := hsz.two_pow_height
      rw [hsz.count_eq, Nat.mul_comm] at hpow
      have hlog := Nat.le_log_of_pow_le Nat.one_lt_two hpow
      rw [Nat.log_mul_base Nat.one_lt_two] at hlog
      · simpa [HalfOrderQueue.raw, hq, HalfOrderNode.height_raw, HalfOrderNode.pairs_raw] using hlog
      · rw [HalfOrderNode.pairs_eq]
        exact Nat.succ_ne_zero _
  case del =>
    cases hq : h.top with
    | none =>
      rw [hq] at hd
      refine ⟨none, h.raw, hd, ?_, rfl⟩
      rw [hp, HalfOrderQueue.pairs, hq]
      rfl
    | some t =>
      rw [hq] at hd
      obtain ⟨h', hdel, -, hd⟩ := hd
      obtain ⟨u, hu, -, hperm⟩ := HalfOrderQueue.pairs_del hdel
      obtain rfl : t = u := Option.some.inj (hq.symm.trans hu)
      refine ⟨_, _, hd, ?_, ?_⟩
      · rw [hp, HalfOrderQueue.pairs_raw]
        exact hperm
      · rw [hp, HalfOrderQueue.pairs, hq]
        exact (hs.fit t hq).2.least

/-- The greatest key comes first here, and goes down below the others. -/
theorem halfOrderQueue_law_five :
    ∃ tr q, (machine Nat).Run tr q ∧ HalfOrderLaw tr q ∧
      gots tr = [(1, 20), (2, 40)] ∧ q.count = 3 := by
  obtain ⟨tr, q, hr, hg, hc⟩ := Machine.exists_run (M := machine Nat) (C := fun _ _ => True)
    (P := fun tr q => gots tr = [(1, 20), (2, 40)] ∧ q.count = 3)
    [.ins 5 10, .ins 1 20, .ins 4 30, .ins 2 40, .ins 3 50, .del, .del]
    (s := ⟨.null⟩) rfl (by decide +kernel)
  exact ⟨tr, q, hr, halfOrderQueue_law hr, hg, hc⟩

end StdHalfOrderQueue

end TinyState
