import TinyState.Containers.BalancedTree

/-!
# Where the balanced tree stays balanced

`balanced()` makes single rotations only, and `del` does not look again at the element whose
object it replaces. So an insertion keeps the tree balanced unless it makes the inner side of
the higher child grow, and a deletion unless it makes the inner side of a sibling the higher
one, or shrinks the higher side of the element that gets another object.
-/

namespace TinyState

open Transition

namespace BalancedTreeElement

variable {κ ω : Type}

-- ---------------------------------------------------------------------------
-- Balance
-- ---------------------------------------------------------------------------

def height : BalancedTreeElement κ ω → Nat
  | null => 0
  | node small _ _ large => max small.height large.height + 1

/-- At every element the level is the height, and the heights of the children differ by one at
most. -/
def Avl : BalancedTreeElement κ ω → Prop
  | null => True
  | node small _ level large =>
    small.Avl ∧ large.Avl ∧ level = max small.height large.height + 1 ∧
      small.height ≤ large.height + 1 ∧ large.height ≤ small.height + 1

def decAvl : (t : BalancedTreeElement κ ω) → Decidable t.Avl
  | null => .isTrue trivial
  | node small _ level large =>
    have := decAvl small
    have := decAvl large
    inferInstanceAs (Decidable (small.Avl ∧ large.Avl ∧
      level = max small.height large.height + 1 ∧
        small.height ≤ large.height + 1 ∧ large.height ≤ small.height + 1))

instance (t : BalancedTreeElement κ ω) : Decidable t.Avl := decAvl t

/-- The tree with its sides changed. -/
def mirror : BalancedTreeElement κ ω → BalancedTreeElement κ ω
  | null => null
  | node small obj level large => node large.mirror obj level small.mirror

/-- What becomes of a tree, as its parent sees it: it stays as high, it comes into being, it
grows on one side, a rotation goes wrong at its root, or the balance is lost. The side is that
of the large child where the flag is set. -/
inductive Growth
  | same
  | born
  | grows (side : Bool)
  | zigzag (side : Bool)
  | lost
  deriving DecidableEq, Repr

namespace Growth

/-- The balance is kept. -/
def Keeps : Growth → Prop
  | same | born | grows _ => True
  | zigzag _ | lost => False

instance : (g : Growth) → Decidable g.Keeps
  | same | born | grows _ => .isTrue trivial
  | zigzag _ | lost => .isFalse id

/-- What becomes of a tree when this becomes of a child; `here` is the level of the child, and
`sibling` that of the other. A wrong rotation is made good by one to the other side. -/
def up (side : Bool) (here sibling : Nat) : Growth → Growth
  | same => same
  | born => if here < sibling then same else grows side
  | grows inner =>
    if sibling < here then if inner = side then same else zigzag side
    else if here < sibling then same
    else grows side
  | zigzag inner => if inner ≠ side ∧ sibling < here then same else lost
  | lost => lost

def flip : Growth → Growth
  | grows side => grows !side
  | zigzag side => zigzag !side
  | g => g

end Growth

/-- What `ins` does to the tree. -/
def insGrowth [LinearOrder κ] (inp : BalancedTreeObject κ ω) :
    BalancedTreeElement κ ω → Growth
  | null => .born
  | node _ [] _ _ => .same
  | node small (o :: _) _ large =>
    if o.cond < inp.cond then (large.insGrowth inp).up true large.level small.level
    else if inp.cond < o.cond then (small.insGrowth inp).up false small.level large.level
    else .same

/-- No rotation further up brings the balance back. -/
inductive Lost (n : Nat) : BalancedTreeElement κ ω → Prop
  | inner (a z lv b) (uneven : ¬ (Avl a ∧ Avl b)) : Lost n (node a z lv b)
  | small (a z b) (avl : Avl a ∧ Avl b) (high : level b + 3 ≤ level a) (grown : n = level a) :
      Lost n (leveled a z b)
  | large (a z b) (avl : Avl a ∧ Avl b) (high : level a + 3 ≤ level b) (grown : n = level b) :
      Lost n (leveled a z b)

/-- The tree that an insertion makes of one of the level `n`. -/
inductive Grown (n : Nat) : Growth → BalancedTreeElement κ ω → Prop
  | same (u) (avl : Avl u) (still : level u = n) : Grown n .same u
  | born (z) (none : n = 0) : Grown n .born (node null z 1 null)
  | growsSmall (a z b) (avl : Avl a ∧ Avl b) (high : level a = level b + 1) (grown : n = level a) :
      Grown n (.grows false) (leveled a z b)
  | growsLarge (a z b) (avl : Avl a ∧ Avl b) (high : level b = level a + 1) (grown : n = level b) :
      Grown n (.grows true) (leveled a z b)
  | zigzagSmall (a z b) (avl : Avl a ∧ Avl b) (high : level b = level a + 2) (grown : n = level b) :
      Grown n (.zigzag false) (leveled a z b)
  | zigzagLarge (a z b) (avl : Avl a ∧ Avl b) (high : level a = level b + 2) (grown : n = level a) :
      Grown n (.zigzag true) (leveled a z b)
  | lost (u) (lost : Lost n u) : Grown n .lost u

/-- What becomes of a tree in which something is deleted: it stays as high, it gets lower, or
the balance is lost. -/
inductive Shrink
  | same
  | shrinks
  | lost
  deriving DecidableEq, Repr

/-- What becomes of a tree when this becomes of a child; `here` is the level of the child,
`sibling` that of the other, and `outer` and `inner` those of the children of the other. -/
def Shrink.up (here sibling outer inner : Nat) : Shrink → Shrink
  | same => same
  | shrinks =>
    if sibling < here then shrinks
    else if sibling = here then same
    else if outer < inner then lost
    else if outer = inner then same
    else shrinks
  | lost => lost

/-- The element that gets the object of the next one does not look at its children again. -/
def Shrink.taken (here sibling : Nat) : Shrink → Shrink
  | same => same
  | shrinks => if sibling < here then lost else same
  | lost => lost

/-- `levelSmall()` and `levelLarge()`. -/
def levelSmall : BalancedTreeElement κ ω → Nat
  | null => 0
  | node small .. => small.level

def levelLarge : BalancedTreeElement κ ω → Nat
  | null => 0
  | node _ _ _ large => large.level

/-- What `equProc` does to the tree. -/
def equShrink (small large : BalancedTreeElement κ ω) (inp : BalancedTreeObject κ ω)
    (least greatest : Shrink) : Shrink :=
  if inp.obj.isSome then .same
  else if small.level < large.level then least.taken large.level small.level
  else if small.level ≠ 0 then greatest.taken small.level large.level
  else .shrinks

/-- What `del` does to the tree. -/
def delShrink [LinearOrder κ] [BoundedOrder κ] :
    BalancedTreeElement κ ω → BalancedTreeObject κ ω → Shrink
  | null, _ => .same
  | node _ [] _ _, _ => .same
  | node small (o :: _) _ large, inp =>
    if o.cond < inp.cond then
      if large.isNull then
        if inp.cond = ⊤ then
          equShrink small large inp (large.delShrink ⟨⊥, none⟩) (small.delShrink ⟨⊤, none⟩)
        else .same
      else (large.delShrink inp).up large.level small.level small.levelSmall small.levelLarge
    else if inp.cond < o.cond then
      if small.isNull then
        if inp.cond = ⊥ then
          equShrink small large inp (large.delShrink ⟨⊥, none⟩) (small.delShrink ⟨⊤, none⟩)
        else .same
      else (small.delShrink inp).up small.level large.level large.levelLarge large.levelSmall
    else equShrink small large inp (large.delShrink ⟨⊥, none⟩) (small.delShrink ⟨⊤, none⟩)

/-- The tree that a deletion makes of one of the level `n`. -/
inductive Shrunk (n : Nat) : Shrink → BalancedTreeElement κ ω → Prop
  | same (u) (avl : Avl u) (still : level u = n) : Shrunk n .same u
  | shrinks (u) (avl : Avl u) (lower : level u + 1 = n) : Shrunk n .shrinks u
  | lost (u) (uneven : ¬ Avl u) (still : level u = n) : Shrunk n .lost u

variable {t u a b small large : BalancedTreeElement κ ω} {chain z : BalancedTreeChain κ ω}
  {lv n : Nat}

theorem Avl.level_eq (h : t.Avl) : t.level = t.height := by
  cases t with
  | null => rfl
  | node small obj level large => exact h.2.2.1

@[simp] theorem level_leveled :
    (leveled small chain large).level = max small.level large.level + 1 := by
  change (if small.level < large.level then large.level + 1 else small.level + 1) = _
  split <;> omega

theorem leveled_eq :
    leveled small chain large = node small chain (max small.level large.level + 1) large := by
  unfold leveled
  congr 1
  split <;> omega

/-- Balance, by the levels. -/
theorem avl_node : (node small chain lv large).Avl ↔
    small.Avl ∧ large.Avl ∧ lv = max small.level large.level + 1 ∧
      small.level ≤ large.level + 1 ∧ large.level ≤ small.level + 1 := by
  refine and_congr_right fun hs => and_congr_right fun hl => ?_
  rw [hs.level_eq, hl.level_eq]

theorem avl_leveled : (leveled small chain large).Avl ↔
    small.Avl ∧ large.Avl ∧ small.level ≤ large.level + 1 ∧ large.level ≤ small.level + 1 := by
  rw [leveled_eq, avl_node]
  simp only [true_and]

@[simp] theorem level_mirror (t : BalancedTreeElement κ ω) : t.mirror.level = t.level := by
  cases t <;> rfl

@[simp] theorem mirror_mirror (t : BalancedTreeElement κ ω) : t.mirror.mirror = t := by
  induction t with
  | null => rfl
  | node small obj level large ihs ihl => rw [mirror, mirror, ihs, ihl]

@[simp] theorem avl_mirror : t.mirror.Avl ↔ t.Avl := by
  induction t with
  | null => exact Iff.rfl
  | node small obj level large ihs ihl =>
    rw [mirror, avl_node, avl_node, ihs, ihl, level_mirror, level_mirror, max_comm]
    constructor <;> exact fun ⟨hl, hs, hn, h₁, h₂⟩ => ⟨hs, hl, hn, h₂, h₁⟩

theorem mirror_leveled :
    (leveled small chain large).mirror = leveled large.mirror chain small.mirror := by
  rw [leveled_eq, leveled_eq, mirror, level_mirror, level_mirror, max_comm]

/-- The three cases of `balanced()`. -/
theorem balanced_even (hs : small.level ≤ large.level + 1) (hl : large.level ≤ small.level + 1) :
    balanced small chain large = leveled small chain large := by
  unfold balanced
  rw [if_neg (by omega), if_neg (by omega)]

theorem balanced_large (h : small.level + 2 ≤ (node a z lv b).level) :
    balanced small chain (node a z lv b) = leveled (leveled small chain a) z b := by
  unfold balanced
  rw [if_pos h]

theorem balanced_small (h : large.level + 2 ≤ (node a z lv b).level) :
    balanced (node a z lv b) chain large = leveled a z (leveled b chain large) := by
  unfold balanced
  rw [if_neg (by omega), if_pos h]

theorem mirror_balanced :
    (balanced small chain large).mirror = balanced large.mirror chain small.mirror := by
  by_cases hl : small.level + 2 ≤ large.level
  · cases large with
    | null => exact absurd hl (Nat.not_succ_le_zero _)
    | node a z lv b =>
      have hm : small.mirror.level + 2 ≤ (node a z lv b).mirror.level := by
        rwa [level_mirror, level_mirror]
      rw [balanced_large hl, mirror, balanced_small hm, mirror_leveled, mirror_leveled]
  · by_cases hs : large.level + 2 ≤ small.level
    · cases small with
      | null => exact absurd hs (Nat.not_succ_le_zero _)
      | node a z lv b =>
        have hm : large.mirror.level + 2 ≤ (node a z lv b).mirror.level := by
          rwa [level_mirror, level_mirror]
        rw [balanced_small hs, mirror, balanced_large hm, mirror_leveled, mirror_leveled]
    · have hm : large.mirror.level ≤ small.mirror.level + 1 ∧
          small.mirror.level ≤ large.mirror.level + 1 := by
        rw [level_mirror, level_mirror]
        omega
      rw [balanced_even (by omega) (by omega), balanced_even hm.1 hm.2, mirror_leveled]

-- ---------------------------------------------------------------------------
-- What an insertion does to the height
-- ---------------------------------------------------------------------------

namespace Growth

theorem flip_up (side : Bool) (here sibling : Nat) (g : Growth) :
    (g.up side here sibling).flip = g.flip.up (!side) here sibling := by
  cases g with
  | same => rfl
  | born => by_cases h : here < sibling <;> simp [up, flip, h]
  | grows inner =>
    by_cases h₁ : sibling < here <;> by_cases h₂ : here < sibling <;> by_cases h₃ : inner = side <;>
      simp [up, flip, h₁, h₂, h₃]
  | zigzag inner =>
    by_cases h₁ : sibling < here <;> by_cases h₃ : inner = side <;> simp [up, flip, h₁, h₃]
  | lost => rfl

@[simp] theorem flip_flip (g : Growth) : g.flip.flip = g := by
  cases g <;> simp [flip]

end Growth

theorem avl_leaf : (node null z 1 null).Avl := ⟨trivial, trivial, rfl, Nat.zero_le 1, Nat.zero_le 1⟩

theorem avl_mirror_and : a.mirror.Avl ∧ b.mirror.Avl ↔ b.Avl ∧ a.Avl := by
  rw [avl_mirror, avl_mirror, and_comm]

theorem Lost.mirror (h : Lost n t) : Lost n t.mirror := by
  cases h with
  | inner a z lv b hn => exact .inner _ _ _ _ (mt avl_mirror_and.mp hn)
  | small a z b hab hl hn =>
    rw [mirror_leveled]
    exact .large _ _ _ (avl_mirror_and.mpr hab) (by simpa using hl) (by simpa using hn)
  | large a z b hab hl hn =>
    rw [mirror_leveled]
    exact .small _ _ _ (avl_mirror_and.mpr hab) (by simpa using hl) (by simpa using hn)

theorem Lost.not_avl (h : Lost n t) : ¬ t.Avl := by
  cases h with
  | inner a z lv b hn => exact fun h => hn ⟨h.1, h.2.1⟩
  | small a z b hab hl hn =>
    rw [avl_leveled]
    omega
  | large a z b hab hl hn =>
    rw [avl_leveled]
    omega

theorem Grown.mirror {g : Growth} (h : Grown n g t) : Grown n g.flip t.mirror := by
  cases h with
  | same u h hl => exact .same _ (avl_mirror.mpr h) ((level_mirror t).trans hl)
  | born z hn => exact .born z hn
  | lost u h => exact .lost _ h.mirror
  | growsSmall a z b hab hl hn =>
    rw [mirror_leveled]
    exact .growsLarge _ _ _ (avl_mirror_and.mpr hab) (by simpa using hl) (by simpa using hn)
  | growsLarge a z b hab hl hn =>
    rw [mirror_leveled]
    exact .growsSmall _ _ _ (avl_mirror_and.mpr hab) (by simpa using hl) (by simpa using hn)
  | zigzagSmall a z b hab hl hn =>
    rw [mirror_leveled]
    exact .zigzagLarge _ _ _ (avl_mirror_and.mpr hab) (by simpa using hl) (by simpa using hn)
  | zigzagLarge a z b hab hl hn =>
    rw [mirror_leveled]
    exact .zigzagSmall _ _ _ (avl_mirror_and.mpr hab) (by simpa using hl) (by simpa using hn)

/-- The balance is kept if and only if it should be. -/
theorem Grown.avl {g : Growth} (h : Grown n g t) : t.Avl ↔ g.Keeps := by
  cases h with
  | same u h hl => exact iff_of_true h trivial
  | born z hn => exact iff_of_true avl_leaf trivial
  | growsSmall a z b hab hl hn =>
    exact iff_of_true (avl_leveled.mpr ⟨hab.1, hab.2, by omega, by omega⟩) trivial
  | growsLarge a z b hab hl hn =>
    exact iff_of_true (avl_leveled.mpr ⟨hab.1, hab.2, by omega, by omega⟩) trivial
  | zigzagSmall a z b hab hl hn => exact iff_of_false (by rw [avl_leveled]; omega) id
  | zigzagLarge a z b hab hl hn => exact iff_of_false (by rw [avl_leveled]; omega) id
  | lost u h => exact iff_of_false h.not_avl id

/-- A rotation leaves what is lost lost. -/
theorem lost_balanced_large (m : Nat) (h : ¬ (a.Avl ∧ b.Avl)) :
    Lost m (balanced small chain (node a z lv b)) := by
  by_cases hl : small.level + 2 ≤ (node a z lv b).level
  · rw [balanced_large hl]
    exact .inner _ _ _ _ fun ⟨ha, hb⟩ => h ⟨(avl_leveled.mp ha).2.1, hb⟩
  · unfold balanced
    rw [if_neg hl]
    have hinner : ¬ (node a z lv b).Avl := fun hn => h ⟨hn.1, hn.2.1⟩
    split
    · split
      · exact .inner _ _ _ _ fun ⟨_, hb⟩ => hinner hb
      · exact .inner _ _ _ _ fun ⟨_, hb⟩ => hinner (avl_leveled.mp hb).2.1
    · exact .inner _ _ _ _ fun ⟨_, hb⟩ => hinner hb

theorem balanced_turned (h : small.level + 2 ≤ (leveled a z b).level) :
    balanced small chain (leveled a z b) = leveled (leveled small chain a) z b := balanced_large h

/-- The large child has grown, and was not the higher one. -/
theorem grown_large (ht : (node small chain lv large).Avl) (hu : u.Avl)
    (hlev : u.level = large.level + 1) (hle : large.level ≤ small.level) :
    Grown lv (if large.level < small.level then .same else .grows true)
      (balanced small chain u) := by
  obtain ⟨hs, hl, rfl, h₁, h₂⟩ := avl_node.mp ht
  rw [balanced_even (by omega) (by omega)]
  split
  · exact .same _ (avl_leveled.mpr ⟨hs, hu, by omega, by omega⟩) (by rw [level_leveled]; omega)
  · exact .growsLarge _ _ _ ⟨hs, hu⟩ (by omega) (by omega)

/-- What becomes of a tree in whose large child something is put in. -/
theorem Grown.up_large {g : Growth} (hu : Grown large.level g u)
    (ht : (node small chain lv large).Avl) :
    Grown lv (g.up true large.level small.level) (balanced small chain u) := by
  have ht' := ht
  obtain ⟨hs, hl, rfl, h₁, h₂⟩ := avl_node.mp ht
  -- without a rotation an element that is out of balance becomes an inner one
  have hinner : ∀ {v : BalancedTreeElement κ ω}, ¬ v.Avl → small.level ≤ v.level + 1 →
      v.level ≤ small.level + 1 → Grown (max small.level large.level + 1) .lost
        (balanced small chain v) := by
    intro v hv hsv hvs
    rw [balanced_even hsv hvs]
    exact .lost _ (.inner _ _ _ _ fun h => hv h.2)
  cases hu with
  | same u hu hlev =>
    rw [balanced_even (by omega) (by omega)]
    exact .same _ (avl_leveled.mpr ⟨hs, hu, by omega, by omega⟩) (by rw [level_leveled, hlev])
  | born z hn =>
    exact grown_large ht' avl_leaf (by rw [hn]; rfl) (by omega)
  | growsSmall a z b hab hhigh hn =>
    have hu : (leveled a z b).Avl := avl_leveled.mpr ⟨hab.1, hab.2, by omega, by omega⟩
    have hlev : (leveled a z b).level = large.level + 1 := by
      rw [level_leveled]
      omega
    rw [Growth.up]
    by_cases hlt : small.level < large.level
    · rw [if_pos hlt, if_neg Bool.false_ne_true, balanced_turned (by omega)]
      have hsa : (leveled small chain a).Avl := avl_leveled.mpr ⟨hs, hab.1, by omega, by omega⟩
      exact .zigzagLarge _ _ _ ⟨hsa, hab.2⟩ (by rw [level_leveled]; omega)
        (by rw [level_leveled]; omega)
    · rw [if_neg hlt]
      exact grown_large ht' hu hlev (by omega)
  | growsLarge a z b hab hhigh hn =>
    have hu : (leveled a z b).Avl := avl_leveled.mpr ⟨hab.1, hab.2, by omega, by omega⟩
    have hlev : (leveled a z b).level = large.level + 1 := by
      rw [level_leveled]
      omega
    rw [Growth.up]
    by_cases hlt : small.level < large.level
    · rw [if_pos hlt, if_pos rfl, balanced_turned (by omega)]
      have hsa : (leveled small chain a).Avl := avl_leveled.mpr ⟨hs, hab.1, by omega, by omega⟩
      refine .same _ (avl_leveled.mpr ⟨hsa, hab.2, ?_, ?_⟩) ?_ <;>
        rw [level_leveled] <;> try rw [level_leveled]
      all_goals omega
    · rw [if_neg hlt]
      exact grown_large ht' hu hlev (by omega)
  | zigzagSmall a z b hab hhigh hn =>
    have hlev : (leveled a z b).level = large.level + 1 := by
      rw [level_leveled]
      omega
    rw [Growth.up]
    by_cases hlt : small.level < large.level
    · -- the rotation to the other side makes it good
      rw [if_pos ⟨Bool.false_ne_true, hlt⟩, balanced_turned (by omega)]
      have hsa : (leveled small chain a).Avl := avl_leveled.mpr ⟨hs, hab.1, by omega, by omega⟩
      refine .same _ (avl_leveled.mpr ⟨hsa, hab.2, ?_, ?_⟩) ?_ <;>
        rw [level_leveled] <;> try rw [level_leveled]
      all_goals omega
    · rw [if_neg fun h => hlt h.2]
      exact hinner (by rw [avl_leveled]; omega) (by omega) (by omega)
  | zigzagLarge a z b hab hhigh hn =>
    have hlev : (leveled a z b).level = large.level + 1 := by
      rw [level_leveled]
      omega
    rw [Growth.up, if_neg fun h => h.1 rfl]
    by_cases hlt : small.level < large.level
    · rw [balanced_turned (by omega)]
      have hsa : (leveled small chain a).Avl := avl_leveled.mpr ⟨hs, hab.1, by omega, by omega⟩
      exact .lost _ (.small _ _ _ ⟨hsa, hab.2⟩ (by rw [level_leveled]; omega)
        (by rw [level_leveled]; omega))
    · exact hinner (by rw [avl_leveled]; omega) (by omega) (by omega)
  | lost u hu =>
    rw [Growth.up]
    cases hu with
    | inner a z lv b hn => exact .lost _ (lost_balanced_large _ hn)
    | small a z b hab hhigh hn =>
      have hlev : (leveled a z b).level = large.level + 1 := by
        rw [level_leveled]
        omega
      by_cases hlt : small.level < large.level
      · rw [balanced_turned (by omega)]
        have hsa : (leveled small chain a).Avl := avl_leveled.mpr ⟨hs, hab.1, by omega, by omega⟩
        exact .lost _ (.small _ _ _ ⟨hsa, hab.2⟩ (by rw [level_leveled]; omega)
          (by rw [level_leveled]; omega))
      · exact hinner (by rw [avl_leveled]; omega) (by omega) (by omega)
    | large a z b hab hhigh hn =>
      have hlev : (leveled a z b).level = large.level + 1 := by
        rw [level_leveled]
        omega
      by_cases hlt : small.level < large.level
      · rw [balanced_turned (by omega)]
        exact .lost _ (.inner _ _ _ _ fun h => by
          have hl := avl_leveled.mp h.1
          omega)
      · exact hinner (by rw [avl_leveled]; omega) (by omega) (by omega)

theorem Grown.up_small {g : Growth} (hu : Grown small.level g u)
    (ht : (node small chain lv large).Avl) :
    Grown lv (g.up false small.level large.level) (balanced u chain large) := by
  have hm : (node large.mirror chain lv small.mirror).Avl := avl_mirror.mpr ht
  have hmu : Grown small.mirror.level g.flip u.mirror := by
    rw [level_mirror]
    exact hu.mirror
  have h := (hmu.up_large hm).mirror
  rw [mirror_balanced, Growth.flip_up, level_mirror, level_mirror] at h
  simpa using h

section

variable [LinearOrder κ]

/-- What `ins` makes of a balanced tree. It crashes, or returns an object, only where nothing
is changed. -/
inductive InsGrown (t : BalancedTreeElement κ ω) (g : Growth) :
    Option (BalancedTreeChain κ ω × BalancedTreeElement κ ω) → Prop
  | crashed (still : g = .same) : InsGrown t g none
  | done (ret u) (grown : Grown t.level g u) (refused : ret ≠ [] → g = .same) :
      InsGrown t g (some (ret, u))

theorem ins_grown (enabledEqu : Bool) (inp : BalancedTreeObject κ ω) (ht : t.Avl) :
    InsGrown t (t.insGrowth inp) (t.ins enabledEqu inp) := by
  induction t with
  | null => exact .done _ _ (.born _ rfl) fun h => absurd rfl h
  | node small obj lv large ihs ihl =>
    cases obj with
    | nil => exact .crashed rfl
    | cons o chain =>
      obtain ⟨hs, hl, -⟩ := avl_node.mp ht
      unfold ins insGrowth
      by_cases hlt : o.cond < inp.cond
      · rw [if_pos hlt, if_pos hlt]
        generalize large.ins enabledEqu inp = r at ihl
        cases ihl hl with
        | crashed hg =>
          rw [hg]
          exact .crashed rfl
        | done ret u hu hret =>
          rw [Option.map_some]
          by_cases hr : ret = []
          · rw [if_neg (not_not.mpr hr)]
            exact .done _ _ (hu.up_large ht) fun h => absurd rfl h
          · rw [if_pos hr]
            rw [hret hr] at hu ⊢
            cases hu with
            | same u hu hlev =>
              refine .done _ _ (.same _ ?_ rfl) fun _ => rfl
              rw [avl_node, hlev] at *
              exact ⟨ht.1, hu, ht.2.2⟩
      · rw [if_neg hlt, if_neg hlt]
        by_cases hgt : inp.cond < o.cond
        · rw [if_pos hgt, if_pos hgt]
          generalize small.ins enabledEqu inp = r at ihs
          cases ihs hs with
          | crashed hg =>
            rw [hg]
            exact .crashed rfl
          | done ret u hu hret =>
            rw [Option.map_some]
            by_cases hr : ret = []
            · rw [if_neg (not_not.mpr hr)]
              exact .done _ _ (hu.up_small ht) fun h => absurd rfl h
            · rw [if_pos hr]
              rw [hret hr] at hu ⊢
              cases hu with
              | same u hu hlev =>
                refine .done _ _ (.same _ ?_ rfl) fun _ => rfl
                rw [avl_node, hlev] at *
                exact ⟨hu, ht.2⟩
        · rw [if_neg hgt, if_neg hgt]
          obtain ⟨-, -, hlev, h₁, h₂⟩ := avl_node.mp ht
          split
          · exact .done _ _ (.same _ ht rfl) fun _ => rfl
          · rw [balanced_even h₁ h₂]
            refine .done _ _ (.same _ (avl_leveled.mpr ⟨hs, hl, h₁, h₂⟩) ?_) fun _ => rfl
            rw [level_leveled]
            exact hlev.symm

end

-- ---------------------------------------------------------------------------
-- What a deletion does to the height
-- ---------------------------------------------------------------------------

theorem Shrunk.mirror {g : Shrink} (h : Shrunk n g t) : Shrunk n g t.mirror := by
  cases h with
  | same u h hl => exact .same _ (avl_mirror.mpr h) ((level_mirror t).trans hl)
  | shrinks u h hl => exact .shrinks _ (avl_mirror.mpr h) (by rwa [level_mirror])
  | lost u h hl => exact .lost _ (mt avl_mirror.mp h) ((level_mirror t).trans hl)

theorem Shrunk.avl {g : Shrink} (h : Shrunk n g t) : t.Avl ↔ g ≠ .lost := by
  cases h with
  | same u h hl => exact iff_of_true h nofun
  | shrinks u h hl => exact iff_of_true h nofun
  | lost u h hl => exact iff_of_false h fun hn => hn rfl

/-- What becomes of a tree in whose large child something is deleted. -/
theorem Shrunk.up_large {g : Shrink} (hu : Shrunk large.level g u)
    (ht : (node small chain lv large).Avl) :
    Shrunk lv (g.up large.level small.level small.levelSmall small.levelLarge)
      (balanced small chain u) := by
  obtain ⟨hs, hl, rfl, h₁, h₂⟩ := avl_node.mp ht
  cases hu with
  | same u hu hlev =>
    rw [balanced_even (by omega) (by omega)]
    exact .same _ (avl_leveled.mpr ⟨hs, hu, by omega, by omega⟩) (by rw [level_leveled, hlev])
  | lost u hu hlev =>
    rw [balanced_even (by omega) (by omega)]
    exact .lost _ (fun h => hu (avl_leveled.mp h).2.1) (by rw [level_leveled, hlev])
  | shrinks u hu hlev =>
    rw [Shrink.up]
    by_cases hlt : small.level < large.level
    · rw [if_pos hlt, balanced_even (by omega) (by omega)]
      exact .shrinks _ (avl_leveled.mpr ⟨hs, hu, by omega, by omega⟩) (by rw [level_leveled]; omega)
    · rw [if_neg hlt]
      by_cases heq : small.level = large.level
      · rw [if_pos heq, balanced_even (by omega) (by omega)]
        exact .same _ (avl_leveled.mpr ⟨hs, hu, by omega, by omega⟩) (by rw [level_leveled]; omega)
      · rw [if_neg heq]
        cases small with
        | null => exact absurd (Nat.zero_le _) (fun h => heq (Nat.le_antisymm h (not_lt.mp hlt)))
        | node a z m b =>
          obtain ⟨ha, hb, hm, h₃, h₄⟩ := avl_node.mp hs
          have hlevel : (node a z m b).level = m := rfl
          have houter : (node a z m b).levelSmall = a.level := rfl
          have hinner : (node a z m b).levelLarge = b.level := rfl
          rw [hlevel] at hlt heq h₁ h₂ ⊢
          rw [houter, hinner, balanced_small (by omega)]
          have hbl : (leveled b chain u).level = max b.level u.level + 1 := level_leveled
          by_cases hlost : a.level < b.level
          · rw [if_pos hlost]
            refine .lost _ (fun h => ?_) (by rw [level_leveled, level_leveled]; omega)
            have ha := avl_leveled.mp h
            rw [level_leveled] at ha
            omega
          · have hbu : (leveled b chain u).Avl := avl_leveled.mpr ⟨hb, hu, by omega, by omega⟩
            have htree : (leveled a z (leveled b chain u)).Avl := by
              refine avl_leveled.mpr ⟨ha, hbu, ?_, ?_⟩ <;> rw [level_leveled] <;> omega
            rw [if_neg hlost]
            by_cases hsame : a.level = b.level
            · rw [if_pos hsame]
              exact .same _ htree (by rw [level_leveled, level_leveled]; omega)
            · rw [if_neg hsame]
              exact .shrinks _ htree (by rw [level_leveled, level_leveled]; omega)

theorem Shrunk.up_small {g : Shrink} (hu : Shrunk small.level g u)
    (ht : (node small chain lv large).Avl) :
    Shrunk lv (g.up small.level large.level large.levelLarge large.levelSmall)
      (balanced u chain large) := by
  have hm : (node large.mirror chain lv small.mirror).Avl := avl_mirror.mpr ht
  have hmu : Shrunk small.mirror.level g u.mirror := by
    rw [level_mirror]
    exact hu.mirror
  have hlarge : large.mirror.levelSmall = large.levelLarge ∧
      large.mirror.levelLarge = large.levelSmall := by
    cases large with
    | null => exact ⟨rfl, rfl⟩
    | node a z m b => exact ⟨level_mirror b, level_mirror a⟩
  have h := (hmu.up_large hm).mirror
  rw [mirror_balanced, level_mirror, level_mirror, hlarge.1, hlarge.2, mirror_mirror,
    mirror_mirror] at h
  exact h

/-- The object of an element is taken, and it gets that of the next one. -/
theorem Shrunk.taken_large {g : Shrink} (hu : Shrunk large.level g u)
    (ht : (node small chain lv large).Avl) (hlt : small.level < large.level) (z) :
    Shrunk lv (g.taken large.level small.level) (node small z lv u) := by
  obtain ⟨hs, hl, hlv, h₁, h₂⟩ := avl_node.mp ht
  cases hu with
  | same u hu hlev => exact .same _ (avl_node.mpr ⟨hs, hu, by omega, by omega, by omega⟩) rfl
  | lost u hu hlev => exact .lost _ (fun h => hu h.2.1) rfl
  | shrinks u hu hlev =>
    rw [Shrink.taken, if_pos hlt]
    refine .lost _ (fun h => ?_) rfl
    have hn := avl_node.mp h
    omega

theorem Shrunk.taken_small {g : Shrink} (hu : Shrunk small.level g u)
    (ht : (node small chain lv large).Avl) (hle : large.level ≤ small.level) (z) :
    Shrunk lv (g.taken small.level large.level) (node u z lv large) := by
  obtain ⟨hs, hl, hlv, h₁, h₂⟩ := avl_node.mp ht
  cases hu with
  | same u hu hlev => exact .same _ (avl_node.mpr ⟨hu, hl, by omega, by omega, by omega⟩) rfl
  | lost u hu hlev => exact .lost _ (fun h => hu h.1) rfl
  | shrinks u hu hlev =>
    rw [Shrink.taken]
    split
    · refine .lost _ (fun h => ?_) rfl
      have hn := avl_node.mp h
      omega
    · exact .same _ (avl_node.mpr ⟨hu, hl, by omega, by omega, by omega⟩) rfl

/-- What `del` makes of a balanced tree. It crashes, or returns nothing, only where nothing is
changed. -/
inductive DelShrunk (t : BalancedTreeElement κ ω) (g : Shrink) :
    Option (BalancedTreeChain κ ω × BalancedTreeElement κ ω) → Prop
  | crashed (still : g = .same) : DelShrunk t g none
  | done (ret u) (shrunk : Shrunk t.level g u) (missed : ret = [] → g = .same) :
      DelShrunk t g (some (ret, u))

theorem equProc_shrunk [DecidableEq ω] {inp : BalancedTreeObject κ ω} {gl gs : Shrink}
    {least greatest : Option (BalancedTreeChain κ ω × BalancedTreeElement κ ω)}
    (ht : (node small chain lv large).Avl) (hne : chain ≠ []) (hl : DelShrunk large gl least)
    (hs : DelShrunk small gs greatest) :
    DelShrunk (node small chain lv large) (equShrink small large inp gl gs)
      (equProc small chain lv large inp least greatest) := by
  unfold equProc equShrink
  by_cases ho : inp.obj.isSome
  · rw [if_pos ho, if_pos ho]
    split
    · exact .done _ _ (.same _ (avl_node.mpr (avl_node.mp ht)) rfl) fun _ => rfl
    · exact .done _ _ (.same _ ht rfl) fun _ => rfl
  · rw [if_neg ho, if_neg ho]
    by_cases hlt : small.level < large.level
    · rw [if_pos hlt, if_pos hlt]
      cases hl with
      | crashed hg =>
        rw [hg]
        exact .crashed rfl
      | done ret u hu _ => exact .done _ _ (hu.taken_large ht hlt ret) fun h => absurd h hne
    · rw [if_neg hlt, if_neg hlt]
      by_cases hz : small.level ≠ 0
      · rw [if_pos hz, if_pos hz]
        cases hs with
        | crashed hg =>
          rw [hg]
          exact .crashed rfl
        | done ret u hu _ =>
          exact .done _ _ (hu.taken_small ht (not_lt.mp hlt) ret) fun h => absurd h hne
      · rw [if_neg hz, if_neg hz]
        obtain ⟨-, -, hlv, -⟩ := avl_node.mp ht
        refine .done _ _ (.shrinks _ trivial ?_) fun h => absurd h hne
        change 0 + 1 = lv
        omega

theorem del_shrunk [LinearOrder κ] [BoundedOrder κ] [DecidableEq ω]
    (inp : BalancedTreeObject κ ω) (ht : t.Avl) :
    DelShrunk t (t.delShrink inp) (t.del inp) := by
  induction t generalizing inp with
  | null => exact .crashed rfl
  | node small obj lv large ihs ihl =>
    cases obj with
    | nil => exact .crashed rfl
    | cons o chain =>
      obtain ⟨hs, hl, hlv, h₁, h₂⟩ := avl_node.mp ht
      have hequ : DelShrunk (node small (o :: chain) lv large)
          (equShrink small large inp (large.delShrink ⟨⊥, none⟩) (small.delShrink ⟨⊤, none⟩))
          (equProc small (o :: chain) lv large inp (large.del ⟨⊥, none⟩)
            (small.del ⟨⊤, none⟩)) :=
        equProc_shrunk ht (List.cons_ne_nil o chain) (ihl _ hl) (ihs _ hs)
      unfold del delShrink
      by_cases hlt : o.cond < inp.cond
      · rw [if_pos hlt, if_pos hlt]
        split
        · split
          · exact hequ
          · exact .done _ _ (.same _ ht rfl) fun _ => rfl
        · have hd := ihl inp hl
          generalize large.del inp = r at hd
          cases hd with
          | crashed hg =>
            rw [hg]
            exact .crashed rfl
          | done ret u hu hret =>
            rw [Option.map_some]
            by_cases hr : ret = []
            · rw [if_pos hr]
              rw [hret hr] at hu ⊢
              cases hu with
              | same u hu hlev =>
                have hn : (node small (o :: chain) lv u).Avl :=
                  avl_node.mpr ⟨hs, hu, by omega, by omega, by omega⟩
                exact .done _ _ (.same _ hn rfl) fun _ => rfl
            · rw [if_neg hr]
              exact .done _ _ (hu.up_large ht) fun h => absurd h hr
      · rw [if_neg hlt, if_neg hlt]
        by_cases hgt : inp.cond < o.cond
        · rw [if_pos hgt, if_pos hgt]
          split
          · split
            · exact hequ
            · exact .done _ _ (.same _ ht rfl) fun _ => rfl
          · have hd := ihs inp hs
            generalize small.del inp = r at hd
            cases hd with
            | crashed hg =>
              rw [hg]
              exact .crashed rfl
            | done ret u hu hret =>
              rw [Option.map_some]
              by_cases hr : ret = []
              · rw [if_pos hr]
                rw [hret hr] at hu ⊢
                cases hu with
                | same u hu hlev =>
                  have hn : (node u (o :: chain) lv large).Avl :=
                    avl_node.mpr ⟨hu, hl, by omega, by omega, by omega⟩
                  exact .done _ _ (.same _ hn rfl) fun _ => rfl
              · rw [if_neg hr]
                exact .done _ _ (hu.up_small ht) fun h => absurd h hr
        · rw [if_neg hgt, if_neg hgt]
          exact hequ

end BalancedTreeElement

namespace StdBalancedTree

open BalancedTreeElement

variable {κ ω : Type} [LinearOrder κ] [BoundedOrder κ] [DecidableEq ω]

/-- No rotation to the wrong side, and no element left as it is when a child gets lower. -/
def Even (t : StdBalancedTree κ ω) : BalancedTreeAct κ ω → Prop
  | .search _ => True
  | .ins inp => (t.top.insGrowth inp).Keeps
  | .del inp => t.top.delShrink inp ≠ .lost

instance (t : StdBalancedTree κ ω) (a : BalancedTreeAct κ ω) : Decidable (Even t a) :=
  match a with
  | .search _ => .isTrue trivial
  | .ins inp => inferInstanceAs (Decidable (t.top.insGrowth inp).Keeps)
  | .del inp => inferInstanceAs (Decidable (t.top.delShrink inp ≠ .lost))

variable {t u : StdBalancedTree κ ω} {tr os : List (BalancedTreeObs κ ω)}

theorem ins_avl (h : t.top.Avl) (inp : BalancedTreeObject κ ω)
    (hs : t.step (.ins inp) = some (u, os)) : u.top.Avl ↔ Even t (.ins inp) := by
  simp only [step, ins] at hs
  by_cases hn : t.top.isNull
  · rw [if_pos hn] at hs
    cases hs
    have hg : t.top.insGrowth inp = .born := by
      rw [isNull_iff.mp hn]
      rfl
    rw [Even, hg]
    exact iff_of_true avl_leaf trivial
  · rw [if_neg hn] at hs
    have hi := ins_grown t.enabledEqu inp h
    generalize t.top.ins t.enabledEqu inp = r at hs hi
    cases hi with
    | crashed hg =>
      cases hs
      rw [Even, hg]
      exact iff_of_true h trivial
    | done ret v hv _ =>
      cases hs
      exact hv.avl

theorem del_avl (h : t.top.Avl) (inp : BalancedTreeObject κ ω)
    (hs : t.step (.del inp) = some (u, os)) : u.top.Avl ↔ Even t (.del inp) := by
  simp only [step, del] at hs
  by_cases hn : t.top.isNull
  · rw [if_pos hn] at hs
    cases hs
    have hg : t.top.delShrink inp = .same := by
      rw [isNull_iff.mp hn]
      rfl
    rw [Even, hg]
    exact iff_of_true h fun h => by cases h
  · rw [if_neg hn] at hs
    have hd := del_shrunk inp h
    generalize t.top.del inp = r at hs hd
    cases hd with
    | crashed hg =>
      cases hs
      rw [Even, hg]
      exact iff_of_true h fun h => by cases h
    | done ret v hv _ =>
      cases hs
      exact hv.avl

theorem step_avl (h : t.top.Avl) {a : BalancedTreeAct κ ω} (hs : t.step a = some (u, os)) :
    u.top.Avl ↔ Even t a := by
  cases a with
  | search cond =>
    simp only [step] at hs
    split at hs <;> cases hs <;> exact iff_of_true h trivial
  | ins inp => exact ins_avl h inp hs
  | del inp => exact del_avl h inp hs

/-- As long as no step goes wrong the tree is balanced, and a step that goes wrong is one after
which it is not. -/
theorem balance_law (h : (machine κ ω).RunIf Even tr t) :
    t.top.Avl ∧ ∀ a u os, t.step a = some (u, os) → (u.top.Avl ↔ Even t a) := by
  have ht : t.top.Avl := by
    refine h.stateInvariant (I := fun t => t.top.Avl) ?start ?step
    case start =>
      rintro t ⟨htop, -⟩
      rw [htop]
      trivial
    case step =>
      intro t a u os h hc hs
      exact (step_avl h hs).mpr hc
  exact ⟨ht, fun a u os hs => step_avl ht hs⟩

/-- Two rotations, the first of which is made good by the second, and a deletion. -/
theorem balance_law_turned : ∃ tr t, (machine Number Nat).RunIf Even tr t ∧ t.top.height = 4 ∧
    t.top.Avl ∧ ∀ a u os, t.step a = some (u, os) → (u.top.Avl ↔ Even t a) := by
  obtain ⟨tr, t, hr, hh⟩ := Machine.exists_run (M := machine Number Nat) (C := Even)
    (P := fun _ t => t.top.height = 4)
    [.ins ⟨number 50, none⟩, .ins ⟨number 20, none⟩, .ins ⟨number 60, none⟩,
      .ins ⟨number 10, none⟩, .ins ⟨number 30, none⟩, .ins ⟨number 70, none⟩,
      .ins ⟨number 25, none⟩, .ins ⟨number 40, none⟩, .ins ⟨number 22, none⟩,
      .del ⟨number 22, none⟩]
    (s := ⟨true, .null, 0⟩) ⟨rfl, rfl⟩ (by decide +kernel)
  exact ⟨tr, t, hr, hh, balance_law hr⟩

/-- Two conditions and one between them; and an element that gets the object of the only one
above it. -/
theorem tree_unbalanced :
    (∃ tr t, (machine Number Nat).Run tr t ∧ ¬ t.top.Avl ∧ t.objects.length = 3) ∧
      ∃ tr t, (machine Number Nat).Run tr t ∧ ¬ t.top.Avl ∧ t.top.level ≠ t.top.height := by
  refine ⟨?_, ?_⟩
  · exact Machine.exists_run (M := machine Number Nat) (C := fun _ _ => True)
      (P := fun _ t => ¬ t.top.Avl ∧ t.objects.length = 3)
      [.ins ⟨number 1, some 10⟩, .ins ⟨number 3, some 30⟩, .ins ⟨number 2, some 20⟩]
      (s := ⟨false, .null, 0⟩) ⟨rfl, rfl⟩ (by decide +kernel)
  · exact Machine.exists_run (M := machine Number Nat) (C := fun _ _ => True)
      (P := fun _ t => ¬ t.top.Avl ∧ t.top.level ≠ t.top.height)
      [.ins ⟨number 1, some 10⟩, .ins ⟨number 2, some 20⟩, .del ⟨number 1, none⟩]
      (s := ⟨false, .null, 0⟩) ⟨rfl, rfl⟩ (by decide +kernel)

end StdBalancedTree

end TinyState
