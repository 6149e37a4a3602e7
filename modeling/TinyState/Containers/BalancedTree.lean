import Mathlib.Algebra.Order.Monoid.Unbundled.WithTop
import Mathlib.Algebra.Order.Ring.Int
import TinyState.Lib.Machine
import TinyState.Lib.SortedChains
import Mathlib.Data.List.Count
import Mathlib.Logic.Function.Basic
import Mathlib.Order.BoundedOrder.Basic
import Mathlib.Order.WithBot

/-!
# The balanced tree is an ordered multimap, and counts otherwise

`stdBalancedTree_`: a search tree whose elements hold chains of objects of one condition.
Read in order the chains are sorted, and they stay so as long as no deletion of a single
object takes the last of its chain: then an element without object is left. `_count` is
raised by an insertion that is refused and not by one that adds to a tree with elements.
-/

namespace TinyState

open Transition Chains

/-- `stdBalancedTreeObject_`; the chain that `next` makes is a list. -/
structure BalancedTreeObject (κ ω : Type) where
  cond : κ
  obj : Option ω
  deriving DecidableEq, Repr

/-- A pointer to an object, with those that follow it. -/
abbrev BalancedTreeChain (κ ω : Type) := List (BalancedTreeObject κ ω)

/-- `stdBalancedTreeElement_`, or the null pointer. -/
inductive BalancedTreeElement (κ ω : Type)
  | null
  | node (small : BalancedTreeElement κ ω) (obj : BalancedTreeChain κ ω) (level : Nat)
      (large : BalancedTreeElement κ ω)
  deriving DecidableEq, Repr

namespace BalancedTreeElement

variable {κ ω : Type}

def isNull : BalancedTreeElement κ ω → Bool
  | null => true
  | node .. => false

/-- `levelSmall()` and `levelLarge()` of the parent. -/
def level : BalancedTreeElement κ ω → Nat
  | null => 0
  | node _ _ level _ => level

/-- An element after `leveled()`. -/
def leveled (small : BalancedTreeElement κ ω) (obj : BalancedTreeChain κ ω)
    (large : BalancedTreeElement κ ω) : BalancedTreeElement κ ω :=
  node small obj (if small.level < large.level then large.level + 1 else small.level + 1) large

/-- An element after `balanced()`. -/
def balanced (small : BalancedTreeElement κ ω) (obj : BalancedTreeChain κ ω)
    (large : BalancedTreeElement κ ω) : BalancedTreeElement κ ω :=
  if small.level + 2 ≤ large.level then
    match large with
    | null => leveled small obj large
    | node zSmall zObj _ zLarge => leveled (leveled small obj zSmall) zObj zLarge
  else if large.level + 2 ≤ small.level then
    match small with
    | null => leveled small obj large
    | node zSmall zObj _ zLarge => leveled zSmall zObj (leveled zLarge obj large)
  else leveled small obj large

/-- `equProc` in `del`, with what `large->del(minusInfty)` and `small->del(plusInfty)` give. -/
def equProc [DecidableEq ω] (small : BalancedTreeElement κ ω)
    (chain : BalancedTreeChain κ ω) (level : Nat) (large : BalancedTreeElement κ ω)
    (inp : BalancedTreeObject κ ω)
    (least greatest : Option (BalancedTreeChain κ ω × BalancedTreeElement κ ω)) :
    Option (BalancedTreeChain κ ω × BalancedTreeElement κ ω) :=
  if inp.obj.isSome then
    if inp.obj ∈ chain.map (·.obj) then
      some ([inp], node small (chain.eraseP (·.obj = inp.obj)) level large)
    else some ([], node small chain level large)
  else if small.level < large.level then
    least.map fun r => (chain, node small r.1 level r.2)
  else if small.level ≠ 0 then
    greatest.map fun r => (chain, node r.2 r.1 level large)
  else some (chain, null)

-- ---------------------------------------------------------------------------
-- The tree read in order
-- ---------------------------------------------------------------------------

/-- The chains of the elements, in order. -/
def flat : BalancedTreeElement κ ω → List (BalancedTreeChain κ ω)
  | null => []
  | node small obj _ large => small.flat ++ obj :: large.flat

/-- Only a null pointer has level zero. -/
def Leveled : BalancedTreeElement κ ω → Prop
  | null => True
  | node small _ level large => 1 ≤ level ∧ small.Leveled ∧ large.Leveled

variable {t small large : BalancedTreeElement κ ω} {chain ret : BalancedTreeChain κ ω}
  {o inp : BalancedTreeObject κ ω}

theorem Leveled.null_of_level (h : t.Leveled) (hl : t.level = 0) : t = null := by
  cases t with
  | null => rfl
  | node small obj level large => exact absurd hl (Nat.ne_of_gt h.1)

theorem isNull_iff : t.isNull = true ↔ t = null := by
  cases t with
  | null => exact ⟨fun _ => rfl, fun _ => rfl⟩
  | node => exact ⟨nofun, nofun⟩

theorem flat_eq_nil : t.flat = [] ↔ t = null := by
  cases t with
  | null => simp [flat]
  | node small obj level large => simp [flat]

@[simp] theorem flat_leveled :
    (leveled small chain large).flat = small.flat ++ chain :: large.flat := rfl

theorem leveled_leveled (hs : small.Leveled) (hl : large.Leveled) :
    (leveled small chain large).Leveled := by
  refine ⟨?_, hs, hl⟩
  split <;> exact Nat.le_add_left 1 _

/-- Rotations leave the order as it is. -/
@[simp] theorem flat_balanced :
    (balanced small chain large).flat = small.flat ++ chain :: large.flat := by
  unfold balanced
  split
  · cases large with
    | null => rfl
    | node => simp [flat]
  · split
    · cases small with
      | null => rfl
      | node => simp [flat]
    · rfl

theorem leveled_balanced (hs : small.Leveled) (hl : large.Leveled) :
    (balanced small chain large).Leveled := by
  unfold balanced
  split
  · cases large with
    | null => exact leveled_leveled hs hl
    | node => exact leveled_leveled (leveled_leveled hs hl.2.1) hl.2.2
  · split
    · cases small with
      | null => exact leveled_leveled hs hl
      | node => exact leveled_leveled hs.2.1 (leveled_leveled hs.2.2 hl)
    · exact leveled_leveled hs hl

-- ---------------------------------------------------------------------------
-- Search and insertion
-- ---------------------------------------------------------------------------

variable [LinearOrder κ]

/-- `search`. There is no result where an element without object is asked for its condition;
so it is with `ins` and `del`. -/
def search : BalancedTreeElement κ ω → κ → Option (BalancedTreeChain κ ω)
  | null, _ => some []
  | node _ [] _ _, _ => none
  | node small (o :: chain) _ large, cond =>
    if o.cond = cond then some (o :: chain)
    else if o.cond < cond then large.search cond
    else small.search cond

/-- `ins`, with a new element where there is none: what it returns, and the tree. -/
def ins (enabledEqu : Bool) (inp : BalancedTreeObject κ ω) :
    BalancedTreeElement κ ω →
      Option (BalancedTreeChain κ ω × BalancedTreeElement κ ω)
  | null => some ([], node null [inp] 1 null)
  | node _ [] _ _ => none
  | node small (o :: chain) level large =>
    if o.cond < inp.cond then
      (large.ins enabledEqu inp).map fun r =>
        if r.1 ≠ [] then (r.1, node small (o :: chain) level r.2)
        else ([], balanced small (o :: chain) r.2)
    else if inp.cond < o.cond then
      (small.ins enabledEqu inp).map fun r =>
        if r.1 ≠ [] then (r.1, node r.2 (o :: chain) level large)
        else ([], balanced r.2 (o :: chain) large)
    else if enabledEqu = false then some (o :: chain, node small (o :: chain) level large)
    else some ([], balanced small (inp :: o :: chain) large)

/-- The chains of a tree are sorted by their conditions. -/
abbrev Sorted (L : List (BalancedTreeChain κ ω)) : Prop :=
  Chains.Sorted BalancedTreeObject.cond L

/-- What lies under a condition. -/
abbrev under (L : List (BalancedTreeChain κ ω)) (c : κ) :
    BalancedTreeChain κ ω :=
  Chains.under BalancedTreeObject.cond L c

variable {L L' M P : List (BalancedTreeChain κ ω)} {c : κ} {enabledEqu : Bool}

theorem search_eq (hs : Sorted t.flat) : t.search c = some (under t.flat c) := by
  induction t with
  | null => rfl
  | node small obj level large ihs ihl =>
    obtain ⟨hsm, hla, hne, -⟩ := sorted_middle.mp hs
    cases obj with
    | nil => exact absurd rfl hne
    | cons o chain =>
      unfold search
      by_cases hc : o.cond = c
      · rw [if_pos hc]
        exact congrArg some (under_of_key hs List.mem_cons_self hc).symm
      · rw [if_neg hc]
        split
        · rename_i hlt
          rw [ihl hla]
          exact congrArg some (under_of_gt hs List.mem_cons_self hlt).symm
        · rename_i hlt
          have hgt := lt_of_le_of_ne (not_lt.mp hlt) (Ne.symm hc)
          rw [ihs hsm]
          exact congrArg some (under_of_lt hs List.mem_cons_self hgt).symm

/-- The object comes into a new chain, or before the others of its condition. -/
inductive Inserts (inp : BalancedTreeObject κ ω) :
    List (BalancedTreeChain κ ω) → List (BalancedTreeChain κ ω) → Prop
  | fresh (L M : List (BalancedTreeChain κ ω)) (less : ∀ o ∈ L.flatten, o.cond < inp.cond)
      (greater : ∀ o ∈ M.flatten, inp.cond < o.cond) : Inserts inp (L ++ M) (L ++ [inp] :: M)
  | onto (L : List (BalancedTreeChain κ ω)) (chain : BalancedTreeChain κ ω)
      (M : List (BalancedTreeChain κ ω)) (here : ∀ o ∈ chain, o.cond = inp.cond) :
      Inserts inp (L ++ chain :: M) (L ++ (inp :: chain) :: M)

theorem Inserts.after (h : Inserts inp L L') (hP : ∀ o ∈ P.flatten, o.cond < inp.cond) :
    Inserts inp (P ++ L) (P ++ L') := by
  cases h with
  | fresh L M hL hM =>
    rw [← List.append_assoc, ← List.append_assoc]
    refine .fresh _ _ (fun o ho => ?_) hM
    rw [List.flatten_append] at ho
    exact (List.mem_append.mp ho).elim (hP o) (hL o)
  | onto L chain M hc =>
    rw [← List.append_assoc, ← List.append_assoc]
    exact .onto _ _ _ hc

theorem Inserts.before (h : Inserts inp L L') (hP : ∀ o ∈ P.flatten, inp.cond < o.cond) :
    Inserts inp (L ++ P) (L' ++ P) := by
  cases h with
  | fresh L M hL hM =>
    rw [List.append_assoc, List.append_assoc, List.cons_append]
    refine .fresh _ _ hL (fun o ho => ?_)
    rw [List.flatten_append] at ho
    exact (List.mem_append.mp ho).elim (hM o) (hP o)
  | onto L chain M hc =>
    rw [List.append_assoc, List.append_assoc, List.cons_append, List.cons_append]
    exact .onto _ _ _ hc

/-- All that is in the element and before it is less than what is greater than the element. -/
theorem less_of_sorted (hs : Sorted (L ++ chain :: M)) (ho : o ∈ chain) (hc : o.cond < c) :
    ∀ x ∈ (L ++ [chain]).flatten, x.cond < c := by
  obtain ⟨-, -, -, hu, hbef, -, -⟩ := sorted_middle.mp hs
  intro x hx
  rw [List.flatten_append, List.flatten_singleton] at hx
  rcases List.mem_append.mp hx with hx | hx
  · exact lt_trans (before_all hbef x hx o ho) hc
  · exact hu x hx o ho ▸ hc

theorem greater_of_sorted (hs : Sorted (L ++ chain :: M)) (ho : o ∈ chain) (hc : c < o.cond) :
    ∀ x ∈ (chain :: M).flatten, c < x.cond := by
  obtain ⟨-, -, -, hu, -, haft, -⟩ := sorted_middle.mp hs
  intro x hx
  rw [List.flatten_cons] at hx
  rcases List.mem_append.mp hx with hx | hx
  · exact hu x hx o ho ▸ hc
  · obtain ⟨b, hb, hx⟩ := List.mem_flatten.mp hx
    exact lt_trans hc (haft b hb o ho x hx)

/-- What `ins` returns and does. -/
inductive InsSpec (enabledEqu : Bool) (inp : BalancedTreeObject κ ω)
    (t : BalancedTreeElement κ ω) : BalancedTreeChain κ ω → BalancedTreeElement κ ω → Prop
  | refused (single : enabledEqu = false) (ret u) (held : ret ≠ [])
      (all : under t.flat inp.cond = ret) (same : flat u = t.flat) :
      InsSpec enabledEqu inp t ret u
  | added (room : enabledEqu = true ∨ under t.flat inp.cond = [])
      (u : BalancedTreeElement κ ω) (inserts : Inserts inp t.flat u.flat) :
      InsSpec enabledEqu inp t [] u

theorem ins_spec (enabledEqu : Bool) (inp : BalancedTreeObject κ ω) (hs : Sorted t.flat)
    (hl : t.Leveled) :
    ∃ ret u, t.ins enabledEqu inp = some (ret, u) ∧ u.Leveled ∧
      InsSpec enabledEqu inp t ret u := by
  induction t with
  | null =>
    exact ⟨[], _, rfl, ⟨Nat.le_refl 1, trivial, trivial⟩,
      .added (.inr rfl) _ (.fresh [] [] nofun nofun)⟩
  | node small obj level large ihs ihl =>
    obtain ⟨hsm, hla, hne, hu, -⟩ := sorted_middle.mp hs
    obtain ⟨hlv, hlsm, hlla⟩ := hl
    cases obj with
    | nil => exact absurd rfl hne
    | cons o chain =>
      have ho : o ∈ o :: chain := List.mem_cons_self
      unfold ins
      by_cases hlt : o.cond < inp.cond
      · obtain ⟨ret, u, hr, hul, hspec⟩ := ihl hla hlla
        have hund : under (node small (o :: chain) level large).flat inp.cond =
            under large.flat inp.cond := under_of_gt hs ho hlt
        have hP := less_of_sorted hs ho hlt
        rw [if_pos hlt, hr, Option.map_some]
        cases hspec with
        | refused hsingle ret u hheld hall hsame =>
          rw [if_pos hheld]
          exact ⟨_, _, rfl, ⟨hlv, hlsm, hul⟩, .refused hsingle _ _ hheld (hund.trans hall)
            (by rw [flat, flat, hsame])⟩
        | added hroom u hins =>
          rw [if_neg (not_not.mpr rfl)]
          refine ⟨_, _, rfl, leveled_balanced hlsm hul, .added ?_ _ ?_⟩
          · rwa [hund]
          · have h := hins.after hP
            rw [List.append_assoc, List.append_assoc] at h
            rw [flat_balanced]
            exact h
      · rw [if_neg hlt]
        by_cases hgt : inp.cond < o.cond
        · obtain ⟨ret, u, hr, hul, hspec⟩ := ihs hsm hlsm
          have hund : under (node small (o :: chain) level large).flat inp.cond =
              under small.flat inp.cond := under_of_lt hs ho hgt
          have hP := greater_of_sorted hs ho hgt
          rw [if_pos hgt, hr, Option.map_some]
          cases hspec with
          | refused hsingle ret u hheld hall hsame =>
            rw [if_pos hheld]
            exact ⟨_, _, rfl, ⟨hlv, hul, hlla⟩, .refused hsingle _ _ hheld (hund.trans hall)
              (by rw [flat, flat, hsame])⟩
          | added hroom u hins =>
            rw [if_neg (not_not.mpr rfl)]
            refine ⟨_, _, rfl, leveled_balanced hul hlla, .added ?_ _ ?_⟩
            · rwa [hund]
            · rw [flat_balanced]
              exact hins.before hP
        · have hc : o.cond = inp.cond := le_antisymm (not_lt.mp hgt) (not_lt.mp hlt)
          have hund : under (node small (o :: chain) level large).flat inp.cond = o :: chain :=
            under_of_key hs ho hc
          rw [if_neg hgt]
          cases enabledEqu with
          | false =>
            rw [if_pos rfl]
            exact ⟨_, _, rfl, ⟨hlv, hlsm, hlla⟩,
              .refused rfl _ _ (List.cons_ne_nil o chain) hund rfl⟩
          | true =>
            rw [if_neg nofun]
            refine ⟨_, _, rfl, leveled_balanced hlsm hlla, .added (.inl rfl) _ ?_⟩
            rw [flat_balanced]
            exact .onto _ _ _ fun x hx => (hu x hx o ho).trans hc

-- ---------------------------------------------------------------------------
-- Deletion
-- ---------------------------------------------------------------------------

variable [BoundedOrder κ]

/-- The chain that `del` comes to: that of the condition, or the last or the first one where
the condition is infinite. -/
def Meets (c : κ) (L : List (BalancedTreeChain κ ω)) (chain : BalancedTreeChain κ ω)
    (M : List (BalancedTreeChain κ ω)) : Prop :=
  (∀ o ∈ chain, o.cond = c) ∨ (c = ⊤ ∧ M = []) ∨ (c = ⊥ ∧ L = [])

theorem Meets.after (h : Meets c L chain M) (hP : ∀ x ∈ P.flatten, x.cond < c)
    (hne : P.flatten ≠ []) : Meets c (P ++ L) chain M := by
  rcases h with h | h | ⟨rfl, -⟩
  · exact .inl h
  · exact .inr (.inl h)
  · obtain ⟨x, hx⟩ := List.exists_mem_of_ne_nil _ hne
    exact absurd (hP x hx) not_lt_bot

theorem Meets.before (h : Meets c L chain M) (hP : ∀ x ∈ P.flatten, c < x.cond)
    (hne : P.flatten ≠ []) : Meets c L chain (M ++ P) := by
  rcases h with h | ⟨rfl, -⟩ | h
  · exact .inl h
  · obtain ⟨x, hx⟩ := List.exists_mem_of_ne_nil _ hne
    exact absurd (hP x hx) not_top_lt
  · exact .inr (.inr h)

variable [DecidableEq ω]

/-- `del`: what it returns, and the tree. -/
def del : BalancedTreeElement κ ω → BalancedTreeObject κ ω →
    Option (BalancedTreeChain κ ω × BalancedTreeElement κ ω)
  | null, _ => none
  | node _ [] _ _, _ => none
  | node small (o :: chain) level large, inp =>
    if o.cond < inp.cond then
      if large.isNull then
        if inp.cond = ⊤ then
          equProc small (o :: chain) level large inp (large.del ⟨⊥, none⟩) (small.del ⟨⊤, none⟩)
        else some ([], node small (o :: chain) level large)
      else
        (large.del inp).map fun r =>
          if r.1 = [] then ([], node small (o :: chain) level r.2)
          else (r.1, balanced small (o :: chain) r.2)
    else if inp.cond < o.cond then
      if small.isNull then
        if inp.cond = ⊥ then
          equProc small (o :: chain) level large inp (large.del ⟨⊥, none⟩) (small.del ⟨⊤, none⟩)
        else some ([], node small (o :: chain) level large)
      else
        (small.del inp).map fun r =>
          if r.1 = [] then ([], node r.2 (o :: chain) level large)
          else (r.1, balanced r.2 (o :: chain) large)
    else equProc small (o :: chain) level large inp (large.del ⟨⊥, none⟩) (small.del ⟨⊤, none⟩)

/-- What `del` returns and does to the chains: it comes to none, it does not find the object,
it takes the object out, or it takes the whole chain. -/
inductive Deletes (inp : BalancedTreeObject κ ω) :
    List (BalancedTreeChain κ ω) → BalancedTreeChain κ ω → List (BalancedTreeChain κ ω) → Prop
  | none (K) (absent : ∀ o ∈ List.flatten K, o.cond ≠ inp.cond)
      (finite : K = [] ∨ inp.cond ≠ ⊥ ∧ inp.cond ≠ ⊤) : Deletes inp K [] K
  | missing (K a N) (meets : Meets inp.cond K a N) (one : inp.obj.isSome)
      (absent : inp.obj ∉ a.map (·.obj)) : Deletes inp (K ++ a :: N) [] (K ++ a :: N)
  | object (K a N) (meets : Meets inp.cond K a N) (one : inp.obj.isSome)
      (found : inp.obj ∈ a.map (·.obj)) :
      Deletes inp (K ++ a :: N) [inp] (K ++ a.eraseP (·.obj = inp.obj) :: N)
  | whole (K a N) (meets : Meets inp.cond K a N) (all : inp.obj.isNone) :
      Deletes inp (K ++ a :: N) a (K ++ N)

/-- What comes before the chains in which `del` goes on is left alone. -/
theorem Deletes.after (h : Deletes inp L ret L') (hL : L ≠ [])
    (hP : ∀ x ∈ P.flatten, x.cond < inp.cond) (hne : P.flatten ≠ []) :
    Deletes inp (P ++ L) ret (P ++ L') := by
  cases h with
  | none L ha hf =>
    refine .none _ (fun o ho => ?_) (.inr (hf.resolve_left hL))
    rw [List.flatten_append] at ho
    exact (List.mem_append.mp ho).elim (fun h => ne_of_lt (hP o h)) (ha o)
  | missing L chain M hm ho hx =>
    rw [← List.append_assoc]
    exact .missing _ _ _ (hm.after hP hne) ho hx
  | object L chain M hm ho hx =>
    rw [← List.append_assoc, ← List.append_assoc]
    exact .object _ _ _ (hm.after hP hne) ho hx
  | whole L chain M hm ho =>
    rw [← List.append_assoc, ← List.append_assoc]
    exact .whole _ _ _ (hm.after hP hne) ho

theorem Deletes.before (h : Deletes inp L ret L') (hL : L ≠ [])
    (hP : ∀ x ∈ P.flatten, inp.cond < x.cond) (hne : P.flatten ≠ []) :
    Deletes inp (L ++ P) ret (L' ++ P) := by
  cases h with
  | none L ha hf =>
    refine .none _ (fun o ho => ?_) (.inr (hf.resolve_left hL))
    rw [List.flatten_append] at ho
    exact (List.mem_append.mp ho).elim (ha o) (fun h => ne_of_gt (hP o h))
  | missing L chain M hm ho hx =>
    rw [List.append_assoc, List.cons_append]
    exact .missing _ _ _ (hm.before hP hne) ho hx
  | object L chain M hm ho hx =>
    rw [List.append_assoc, List.append_assoc, List.cons_append, List.cons_append]
    exact .object _ _ _ (hm.before hP hne) ho hx
  | whole L chain M hm ho =>
    rw [List.append_assoc, List.append_assoc, List.cons_append]
    exact .whole _ _ _ (hm.before hP hne) ho

/-- Minus infinity takes the first chain. -/
theorem Deletes.least (h : Deletes ⟨⊥, .none⟩ L ret L') (hs : Sorted L) (hL : L ≠ []) :
    L = ret :: L' := by
  cases h with
  | none L ha hf => exact absurd rfl (hf.resolve_left hL).1
  | missing L chain M hm ho hx => cases ho
  | object L chain M hm ho hx => cases ho
  | whole L chain M hm ho =>
    obtain ⟨-, -, hne, -, hbef, -⟩ := sorted_middle.mp hs
    obtain ⟨x, hx⟩ := List.exists_mem_of_ne_nil _ hne
    cases L with
    | nil => rfl
    | cons b L =>
      obtain ⟨y, hy⟩ := List.exists_mem_of_ne_nil _ (hs.filled b (by simp))
      have hyx := hbef b List.mem_cons_self y hy x hx
      rcases hm with hc | ⟨hc, -⟩ | ⟨-, hc⟩
      · exact absurd (hc x hx ▸ hyx) not_lt_bot
      · have hc : (⊥ : κ) = ⊤ := hc
        exact absurd (lt_of_lt_of_le hyx (le_of_le_of_eq le_top hc.symm)) not_lt_bot
      · cases hc

/-- Plus infinity takes the last chain. -/
theorem Deletes.greatest (h : Deletes ⟨⊤, .none⟩ L ret L') (hs : Sorted L) (hL : L ≠ []) :
    L = L' ++ [ret] := by
  cases h with
  | none L ha hf => exact absurd rfl (hf.resolve_left hL).2
  | missing L chain M hm ho hx => cases ho
  | object L chain M hm ho hx => cases ho
  | whole L chain M hm ho =>
    obtain ⟨-, -, hne, -, -, haft, -⟩ := sorted_middle.mp hs
    obtain ⟨x, hx⟩ := List.exists_mem_of_ne_nil _ hne
    cases M with
    | nil => rw [List.append_nil]
    | cons b M =>
      obtain ⟨y, hy⟩ := List.exists_mem_of_ne_nil _ (hs.filled b (by simp))
      have hxy := haft b List.mem_cons_self x hx y hy
      rcases hm with hc | ⟨-, hc⟩ | ⟨hc, -⟩
      · exact absurd (hc x hx ▸ hxy) not_top_lt
      · cases hc
      · have hc : (⊤ : κ) = ⊥ := hc
        exact absurd (lt_of_le_of_lt (le_of_eq_of_le hc bot_le) hxy) not_top_lt

theorem equProc_spec {level : Nat}
    {least greatest : Option (BalancedTreeChain κ ω × BalancedTreeElement κ ω)}
    (hlv : 1 ≤ level) (hsm : small.Leveled) (hla : large.Leveled)
    (hm : Meets inp.cond small.flat chain large.flat)
    (hleast : large ≠ null → ∃ a u, least = some (a, u) ∧ u.Leveled ∧ large.flat = a :: u.flat)
    (hgreatest : small ≠ null →
      ∃ a u, greatest = some (a, u) ∧ u.Leveled ∧ small.flat = u.flat ++ [a]) :
    ∃ ret u, equProc small chain level large inp least greatest = some (ret, u) ∧ u.Leveled ∧
      Deletes inp (node small chain level large).flat ret u.flat := by
  unfold equProc
  by_cases ho : inp.obj.isSome
  · rw [if_pos ho]
    by_cases hx : inp.obj ∈ chain.map (·.obj)
    · rw [if_pos hx]
      exact ⟨_, _, rfl, ⟨hlv, hsm, hla⟩, .object _ _ _ hm ho hx⟩
    · rw [if_neg hx]
      exact ⟨_, _, rfl, ⟨hlv, hsm, hla⟩, .missing _ _ _ hm ho hx⟩
  · rw [if_neg ho]
    have hn : inp.obj.isNone := by simpa using ho
    have hw : Deletes inp (small.flat ++ chain :: large.flat) chain (small.flat ++ large.flat) :=
      .whole _ _ _ hm hn
    by_cases hlt : small.level < large.level
    · rw [if_pos hlt]
      have hne : large ≠ null := by
        rintro rfl
        exact absurd hlt (Nat.not_lt_zero _)
      obtain ⟨a, u, hr, hu, hf⟩ := hleast hne
      rw [hr, Option.map_some]
      refine ⟨_, _, rfl, ⟨hlv, hsm, hu⟩, ?_⟩
      rw [hf] at hw
      rw [flat, flat, hf]
      exact hw
    · rw [if_neg hlt]
      by_cases h0 : small.level = 0
      · rw [if_neg (not_not.mpr h0)]
        have hs0 := hsm.null_of_level h0
        have hl0 := hla.null_of_level (by omega)
        subst hs0 hl0
        exact ⟨_, _, rfl, trivial, hw⟩
      · rw [if_pos h0]
        have hne : small ≠ null := by
          rintro rfl
          exact h0 rfl
        obtain ⟨a, u, hr, hu, hf⟩ := hgreatest hne
        rw [hr, Option.map_some]
        refine ⟨_, _, rfl, ⟨hlv, hu, hla⟩, ?_⟩
        simp only [hf, List.append_assoc] at hw
        rw [flat, flat, hf, List.append_assoc]
        exact hw

theorem del_spec (inp : BalancedTreeObject κ ω) (hs : Sorted t.flat) (hl : t.Leveled)
    (hne : t ≠ null) :
    ∃ ret u, t.del inp = some (ret, u) ∧ u.Leveled ∧ Deletes inp t.flat ret u.flat := by
  induction t generalizing inp with
  | null => exact absurd rfl hne
  | node small obj level large ihs ihl =>
    obtain ⟨hsm, hla, hfill, hu, -⟩ := sorted_middle.mp hs
    obtain ⟨hlv, hlsm, hlla⟩ := hl
    cases obj with
    | nil => exact absurd rfl hfill
    | cons o chain =>
      have ho : o ∈ o :: chain := List.mem_cons_self
      have hleast : large ≠ null → ∃ a u, large.del ⟨⊥, none⟩ = some (a, u) ∧ u.Leveled ∧
          large.flat = a :: u.flat := by
        intro hn
        obtain ⟨a, u, hr, hul, hd⟩ := ihl ⟨⊥, none⟩ hla hlla hn
        exact ⟨a, u, hr, hul, hd.least hla (fun h => hn (flat_eq_nil.mp h))⟩
      have hgreatest : small ≠ null → ∃ a u, small.del ⟨⊤, none⟩ = some (a, u) ∧ u.Leveled ∧
          small.flat = u.flat ++ [a] := by
        intro hn
        obtain ⟨a, u, hr, hul, hd⟩ := ihs ⟨⊤, none⟩ hsm hlsm hn
        exact ⟨a, u, hr, hul, hd.greatest hsm (fun h => hn (flat_eq_nil.mp h))⟩
      have hequ : Meets inp.cond small.flat (o :: chain) large.flat →
          ∃ ret u, equProc small (o :: chain) level large inp (large.del ⟨⊥, none⟩)
            (small.del ⟨⊤, none⟩) = some (ret, u) ∧ u.Leveled ∧
              Deletes inp (node small (o :: chain) level large).flat ret u.flat :=
        fun hm => equProc_spec hlv hlsm hlla hm hleast hgreatest
      unfold del
      by_cases hlt : o.cond < inp.cond
      · rw [if_pos hlt]
        have hP := less_of_sorted hs ho hlt
        by_cases hln : large = null
        · rw [if_pos (isNull_iff.mpr hln)]
          by_cases hc : inp.cond = ⊤
          · rw [if_pos hc]
            exact hequ (.inr (.inl ⟨hc, flat_eq_nil.mpr hln⟩))
          · rw [if_neg hc]
            refine ⟨_, _, rfl, ⟨hlv, hlsm, hlla⟩, .none _ (fun x hx => ?_)
              (.inr ⟨ne_bot_of_gt hlt, hc⟩)⟩
            rw [hln] at hx
            exact ne_of_lt (hP x hx)
        · rw [if_neg (mt isNull_iff.mp hln)]
          obtain ⟨ret, u, hr, hul, hd⟩ := ihl inp hla hlla hln
          have hd := hd.after (fun h => hln (flat_eq_nil.mp h)) hP (by simp)
          rw [List.append_assoc, List.append_assoc] at hd
          rw [hr, Option.map_some]
          by_cases hret : ret = []
          · rw [if_pos hret]
            rw [hret] at hd
            exact ⟨_, _, rfl, ⟨hlv, hlsm, hul⟩, hd⟩
          · rw [if_neg hret]
            refine ⟨_, _, rfl, leveled_balanced hlsm hul, ?_⟩
            rw [flat_balanced]
            exact hd
      · rw [if_neg hlt]
        by_cases hgt : inp.cond < o.cond
        · rw [if_pos hgt]
          have hP := greater_of_sorted hs ho hgt
          by_cases hsn : small = null
          · rw [if_pos (isNull_iff.mpr hsn)]
            by_cases hc : inp.cond = ⊥
            · rw [if_pos hc]
              exact hequ (.inr (.inr ⟨hc, flat_eq_nil.mpr hsn⟩))
            · rw [if_neg hc]
              refine ⟨_, _, rfl, ⟨hlv, hlsm, hlla⟩, .none _ (fun x hx => ?_)
                (.inr ⟨hc, ne_top_of_lt hgt⟩)⟩
              rw [hsn] at hx
              exact ne_of_gt (hP x hx)
          · rw [if_neg (mt isNull_iff.mp hsn)]
            obtain ⟨ret, u, hr, hul, hd⟩ := ihs inp hsm hlsm hsn
            have hd := hd.before (fun h => hsn (flat_eq_nil.mp h)) hP (by simp)
            rw [hr, Option.map_some]
            by_cases hret : ret = []
            · rw [if_pos hret]
              rw [hret] at hd
              exact ⟨_, _, rfl, ⟨hlv, hul, hlla⟩, hd⟩
            · rw [if_neg hret]
              refine ⟨_, _, rfl, leveled_balanced hul hlla, ?_⟩
              rw [flat_balanced]
              exact hd
        · rw [if_neg hgt]
          have hc : o.cond = inp.cond := le_antisymm (not_lt.mp hgt) (not_lt.mp hlt)
          exact hequ (.inl fun x hx => (hu x hx o ho).trans hc)

end BalancedTreeElement

-- ---------------------------------------------------------------------------
-- The multimap
-- ---------------------------------------------------------------------------

/-- The objects stored under each condition, the latest first. -/
abbrev BalancedTreeStock (κ ω : Type) := κ → List (Option ω)

namespace BalancedTreeStock

variable {κ ω : Type} [LinearOrder κ] [BoundedOrder κ] {m : BalancedTreeStock κ ω} {c k k' : κ}
  {inp : BalancedTreeObject κ ω}

/-- The condition under which a deletion looks: an infinite one stands for the last or the
first condition of all. -/
def Target (m : BalancedTreeStock κ ω) (c k : κ) : Prop :=
  m k ≠ [] ∧ (k = c ∨ (c = ⊤ ∧ ∀ k', m k' ≠ [] → k' ≤ k) ∨
    (c = ⊥ ∧ ∀ k', m k' ≠ [] → k ≤ k'))

theorem Target.unique (h : Target m c k) (h' : Target m c k') : k = k' := by
  obtain ⟨hk, rfl | ⟨rfl, hu⟩ | ⟨rfl, hl⟩⟩ := h
  · obtain ⟨-, rfl | ⟨rfl, hu'⟩ | ⟨rfl, hl'⟩⟩ := h'
    · rfl
    · exact (top_le_iff.mp (hu' _ hk)).symm
    · exact (le_bot_iff.mp (hl' _ hk)).symm
  · obtain ⟨hk', rfl | ⟨-, hu'⟩ | ⟨ht, -⟩⟩ := h'
    · exact top_le_iff.mp (hu _ hk')
    · exact le_antisymm (hu' _ hk) (hu _ hk')
    · exact (subsingleton_of_bot_eq_top ht.symm).elim _ _
  · obtain ⟨hk', rfl | ⟨ht, -⟩ | ⟨-, hl'⟩⟩ := h'
    · exact le_bot_iff.mp (hl _ hk')
    · exact (subsingleton_of_bot_eq_top ht).elim _ _
    · exact le_antisymm (hl _ hk') (hl' _ hk)

open Classical in
noncomputable def target (m : BalancedTreeStock κ ω) (c : κ) : Option κ :=
  if h : ∃ k, Target m c k then some h.choose else none

theorem Target.target_eq (h : Target m c k) : target m c = some k := by
  have hex : ∃ k, Target m c k := ⟨k, h⟩
  rw [target, dif_pos hex]
  exact congrArg some (hex.choose_spec.unique h)

theorem target_eq_none (h : ∀ k, ¬ Target m c k) : target m c = none :=
  dif_neg fun ⟨k, hk⟩ => h k hk

def inserted (m : BalancedTreeStock κ ω) (inp : BalancedTreeObject κ ω) :
    BalancedTreeStock κ ω :=
  Function.update m inp.cond (inp.obj :: m inp.cond)

variable [DecidableEq ω]

/-- The stock after a deletion of one object, or of all. -/
noncomputable def deleted (m : BalancedTreeStock κ ω) (inp : BalancedTreeObject κ ω) :
    BalancedTreeStock κ ω :=
  match target m inp.cond with
  | none => m
  | some k => Function.update m k (if inp.obj.isSome then (m k).erase inp.obj else [])

/-- What a deletion returns. -/
noncomputable def answer (m : BalancedTreeStock κ ω) (inp : BalancedTreeObject κ ω) :
    BalancedTreeChain κ ω :=
  match target m inp.cond with
  | none => []
  | some k =>
    if inp.obj.isSome then (if inp.obj ∈ m k then [inp] else []) else (m k).map (.mk k)

end BalancedTreeStock

namespace BalancedTreeElement

variable {κ ω : Type} {L K N L' : List (BalancedTreeChain κ ω)} {a ret : BalancedTreeChain κ ω}
  {inp o : BalancedTreeObject κ ω} {c : κ}

theorem map_mk (h : ∀ o ∈ a, o.cond = c) : (a.map (·.obj)).map (.mk c) = a := by
  rw [List.map_map]
  refine (List.map_congr_left fun o ho => ?_).trans (List.map_id a)
  rw [← h o ho]
  rfl

variable [LinearOrder κ]

/-- The stock that the chains make. -/
def held (L : List (BalancedTreeChain κ ω)) : BalancedTreeStock κ ω :=
  fun c => (under L c).map (·.obj)

theorem under_eq : under L c = (held L c).map (.mk c) :=
  (map_mk fun _ ho => of_decide_eq_true (List.mem_filter.mp ho).2).symm

theorem held_ne_nil : held L c ≠ [] ↔ ∃ o ∈ L.flatten, o.cond = c := by
  rw [held, ne_eq, List.map_eq_nil_iff, under, Chains.under, List.filter_eq_nil_iff]
  simp only [decide_eq_true_eq, not_forall, not_not, exists_prop]

theorem held_of_mem (hs : Sorted (K ++ a :: N)) (ho : o ∈ a) :
    held (K ++ a :: N) o.cond = a.map (·.obj) :=
  congrArg (List.map _) (under_of_key hs ho rfl)

/-- Insertion stores the object before the others. -/
theorem Inserts.held_eq (hs : Sorted L) (h : Inserts inp L L') :
    Sorted L' ∧ held L' = (held L).inserted inp ∧ L'.flatten.length = L.flatten.length + 1 := by
  cases h with
  | fresh K N hK hN =>
    refine ⟨sorted_insert hs hK hN, funext fun c => ?_, by simp; omega⟩
    obtain ⟨hnil, hund⟩ := under_insert (c := c) hK hN
    have hnil : held (K ++ N) inp.cond = [] := congrArg (List.map _) hnil
    rw [BalancedTreeStock.inserted, Function.update_apply, hnil]
    refine (congrArg (List.map _) hund).trans ?_
    split <;> rfl
  | onto K a N ha =>
    have hins : ∀ o ∈ inp :: a, o.cond = inp.cond := by
      intro o ho
      rcases List.mem_cons.mp ho with rfl | ho
      · rfl
      · exact ha o ho
    refine ⟨sorted_replace hs ha hins (List.cons_ne_nil _ _), funext fun c => ?_,
      by simp; omega⟩
    obtain ⟨o, ho⟩ := List.exists_mem_of_ne_nil a (sorted_middle.mp hs).2.2.1
    have hund := under_replace (c := c) hs ha hins
    have hheld := held_of_mem hs ho
    rw [ha o ho] at hheld
    rw [BalancedTreeStock.inserted, Function.update_apply, hheld]
    refine (congrArg (List.map _) hund).trans ?_
    split <;> rfl

variable [BoundedOrder κ]

/-- `del` comes to the chain that it should come to. -/
theorem Meets.target (hs : Sorted (K ++ a :: N)) (hm : Meets c K a N) (ho : o ∈ a) :
    BalancedTreeStock.Target (held (K ++ a :: N)) c o.cond := by
  obtain ⟨-, -, hne, hu, hbef, haft, -⟩ := sorted_middle.mp hs
  refine ⟨?_, ?_⟩
  · rw [held_of_mem hs ho]
    exact fun h => hne (List.map_eq_nil_iff.mp h)
  · rcases hm with hc | ⟨hc, rfl⟩ | ⟨hc, rfl⟩
    · exact .inl (hc o ho)
    · refine .inr (.inl ⟨hc, fun k hk => ?_⟩)
      obtain ⟨x, hx, rfl⟩ := held_ne_nil.mp hk
      rw [List.flatten_append, List.flatten_singleton] at hx
      rcases List.mem_append.mp hx with hx | hx
      · exact le_of_lt (before_all hbef x hx o ho)
      · exact le_of_eq (hu x hx o ho)
    · refine .inr (.inr ⟨hc, fun k hk => ?_⟩)
      obtain ⟨x, hx, rfl⟩ := held_ne_nil.mp hk
      rw [List.nil_append, List.flatten_cons] at hx
      rcases List.mem_append.mp hx with hx | hx
      · exact le_of_eq (hu o ho x hx)
      · obtain ⟨b, hb, hx⟩ := List.mem_flatten.mp hx
        exact le_of_lt (haft b hb o ho x hx)

omit [LinearOrder κ] [BoundedOrder κ] in
theorem erase_map [DecidableEq ω] (a : BalancedTreeChain κ ω) (x : Option ω) :
    (a.eraseP (·.obj = x)).map (·.obj) = (a.map (·.obj)).erase x := by
  rw [List.erase_eq_eraseP', List.eraseP_map]
  congr 2
  funext o
  simp [beq_eq_decide, eq_comm]

/-- The chain that `del` comes to. -/
def Takes (c : κ) (L : List (BalancedTreeChain κ ω)) (a : BalancedTreeChain κ ω) : Prop :=
  (∀ o ∈ a, o.cond = c) ∨ (c = ⊤ ∧ L.getLast? = some a) ∨ (c = ⊥ ∧ L.head? = some a)

instance [DecidableEq ω] (c : κ) (L : List (BalancedTreeChain κ ω)) (a : BalancedTreeChain κ ω) :
    Decidable (Takes c L a) := inferInstanceAs (Decidable (_ ∨ _ ∨ _))

/-- The deletion does not ask for the only object of the chain that it comes to. -/
def Leaves (L : List (BalancedTreeChain κ ω)) (inp : BalancedTreeObject κ ω) : Prop :=
  inp.obj.isSome → ∀ a ∈ L, Takes inp.cond L a → a.map (·.obj) ≠ [inp.obj]

instance [DecidableEq ω] (L : List (BalancedTreeChain κ ω)) (inp : BalancedTreeObject κ ω) :
    Decidable (Leaves L inp) := inferInstanceAs (Decidable (_ → _))

theorem Meets.takes (h : Meets c K a N) : Takes c (K ++ a :: N) a := by
  rcases h with h | ⟨h, rfl⟩ | ⟨h, rfl⟩
  · exact .inl h
  · exact .inr (.inl ⟨h, List.getLast?_concat⟩)
  · exact .inr (.inr ⟨h, rfl⟩)

theorem Takes.target (hs : Sorted L) (ha : a ∈ L) (h : Takes c L a) (ho : o ∈ a) :
    BalancedTreeStock.Target (held L) c o.cond := by
  rcases h with h | ⟨h, hl⟩ | ⟨h, hl⟩
  · obtain ⟨K, N, rfl⟩ := List.append_of_mem ha
    exact Meets.target hs (.inl h) ho
  · obtain ⟨K, rfl⟩ := List.getLast?_eq_some_iff.mp hl
    exact Meets.target hs (.inr (.inl ⟨h, rfl⟩)) ho
  · obtain ⟨N, rfl⟩ := List.head?_eq_some_iff.mp hl
    exact Meets.target (K := []) hs (.inr (.inr ⟨h, rfl⟩)) ho

/-- `del` comes to one chain only. -/
theorem Meets.unique (hs : Sorted (K ++ a :: N)) (h : Meets c K a N) {b : BalancedTreeChain κ ω}
    (hb : b ∈ K ++ a :: N) (ht : Takes c (K ++ a :: N) b) : b = a := by
  obtain ⟨x, hx⟩ := List.exists_mem_of_ne_nil _ (hs.filled b hb)
  obtain ⟨y, hy⟩ := List.exists_mem_of_ne_nil _ (hs.filled a (by simp))
  have hxy := (ht.target hs hb hx).unique (h.target hs hy)
  have hbx := under_of_key hs hy hxy.symm
  obtain ⟨K', N', he⟩ := List.append_of_mem hb
  rw [he] at hs hbx
  exact (under_of_key hs hx rfl).symm.trans hbx

variable [DecidableEq ω]

/-- Deletion returns and takes what it should. -/
theorem Deletes.held_eq (hs : Sorted L) (h : Deletes inp L ret L') :
    ret = (held L).answer inp ∧ held L' = (held L).deleted inp ∧
      L.flatten.length = ret.length + L'.flatten.length := by
  cases h with
  | none L ha hf =>
    have ht : (held L).target inp.cond = Option.none := by
      refine BalancedTreeStock.target_eq_none fun k hk => ?_
      obtain ⟨o, ho, rfl⟩ := held_ne_nil.mp hk.1
      rcases hf with rfl | ⟨hb, ht⟩
      · cases ho
      · rcases hk.2 with hk | ⟨hk, -⟩ | ⟨hk, -⟩
        · exact ha o ho hk
        · exact ht hk
        · exact hb hk
    rw [BalancedTreeStock.answer, BalancedTreeStock.deleted, ht]
    exact ⟨rfl, rfl, (Nat.zero_add _).symm⟩
  | missing K a N hm ho hx =>
    obtain ⟨o, ha⟩ := List.exists_mem_of_ne_nil a (sorted_middle.mp hs).2.2.1
    rw [BalancedTreeStock.answer, BalancedTreeStock.deleted, (hm.target hs ha).target_eq]
    simp only [held_of_mem hs ha, ho, hx, if_true, if_false]
    refine ⟨trivial, ?_, (Nat.zero_add _).symm⟩
    rw [List.erase_of_not_mem hx, ← held_of_mem hs ha, Function.update_eq_self]
  | object K a N hm ho hx =>
    obtain ⟨o, ha⟩ := List.exists_mem_of_ne_nil a (sorted_middle.mp hs).2.2.1
    have hu := (sorted_middle.mp hs).2.2.2.1
    rw [BalancedTreeStock.answer, BalancedTreeStock.deleted, (hm.target hs ha).target_eq]
    simp only [held_of_mem hs ha, ho, hx, if_true]
    refine ⟨trivial, funext fun c => ?_, ?_⟩
    · rw [Function.update_apply, ← erase_map]
      refine (congrArg (List.map _) (under_replace hs (fun x hx => hu x hx o ha)
        (fun x hx => hu x (List.mem_of_mem_eraseP hx) o ha))).trans ?_
      split <;> rfl
    · obtain ⟨y, hy, hyx⟩ := List.mem_map.mp hx
      have hlen := List.length_eraseP_of_mem hy (p := fun o => decide (o.obj = inp.obj))
        (by simpa using hyx)
      have hpos := List.length_pos_of_mem hy
      simp only [List.flatten_append, List.flatten_cons, List.length_append, hlen,
        List.length_singleton]
      omega
  | whole K a N hm ho =>
    obtain ⟨o, ha⟩ := List.exists_mem_of_ne_nil _ (sorted_middle.mp hs).2.2.1
    have hu := (sorted_middle.mp hs).2.2.2.1
    have hn : inp.obj.isSome = false := by simpa using ho
    rw [BalancedTreeStock.answer, BalancedTreeStock.deleted, (hm.target hs ha).target_eq]
    simp only [held_of_mem hs ha, hn, Bool.false_eq_true, if_false]
    refine ⟨(map_mk fun x hx => hu x hx o ha).symm, funext fun c => ?_, ?_⟩
    · rw [Function.update_apply]
      refine (congrArg (List.map _) (under_remove hs fun x hx => hu x hx o ha)).trans ?_
      split <;> rfl
    · simp only [List.flatten_append, List.flatten_cons, List.length_append]
      omega

/-- The order is kept where a deletion of one object leaves another in its chain. -/
theorem Deletes.sorted (hs : Sorted L) (h : Deletes inp L ret L') (hf : [] ∉ L') : Sorted L' := by
  cases h with
  | none L ha => exact hs
  | missing => exact hs
  | object K a N hm ho hx =>
    obtain ⟨o, ha⟩ := List.exists_mem_of_ne_nil a (sorted_middle.mp hs).2.2.1
    have hu := (sorted_middle.mp hs).2.2.2.1
    refine sorted_replace hs (fun x hx => hu x hx o ha)
      (fun x hx => hu x (List.mem_of_mem_eraseP hx) o ha) ?_
    intro he
    rw [he] at hf
    exact hf (by simp)
  | whole K a N => exact hs.remove

-- ---------------------------------------------------------------------------
-- Deletions that leave something
-- ---------------------------------------------------------------------------

omit [LinearOrder κ] [BoundedOrder κ] in
theorem erase_eq_nil {x : Option ω} (hx : x ∈ a.map (·.obj)) :
    a.eraseP (·.obj = x) = [] ↔ a.map (·.obj) = [x] := by
  rw [← List.map_eq_nil_iff (f := (·.obj)), erase_map]
  constructor
  · intro he
    have hlen := List.length_erase_of_mem hx
    have hpos := List.length_pos_of_mem hx
    rw [he, List.length_nil] at hlen
    have hone := Nat.le_antisymm (Nat.le_of_sub_eq_zero hlen.symm) hpos
    obtain ⟨y, hy⟩ := List.length_eq_one_iff.mp hone
    rw [hy] at hx ⊢
    rw [List.mem_singleton.mp hx]
  · intro he
    rw [he, List.erase_cons_head]

theorem Deletes.filled (hs : Sorted L) (h : Deletes inp L ret L') (hl : Leaves L inp) :
    [] ∉ L' := by
  cases h with
  | none L ha => exact fun hm => hs.filled _ hm rfl
  | missing => exact fun hm => hs.filled _ hm rfl
  | object K a N hm ho hx =>
    intro hnil
    rcases List.mem_append.mp hnil with hk | hk
    · exact hs.filled _ (by simp [hk]) rfl
    · rcases List.mem_cons.mp hk with hk | hk
      · exact hl ho a (by simp) hm.takes ((erase_eq_nil hx).mp hk.symm)
      · exact hs.filled _ (by simp [hk]) rfl
  | whole K a N => exact fun hm => hs.remove.filled _ hm rfl

/-- The only object of a chain leaves an element without object. -/
theorem Deletes.emptied (hs : Sorted L) (h : Deletes inp L ret L') (hl : ¬ Leaves L inp) :
    [] ∈ L' := by
  unfold Leaves at hl
  push Not at hl
  obtain ⟨hsome, b, hb, ht, hbx⟩ := hl
  have hmem : inp.obj ∈ b.map (·.obj) := by
    rw [hbx]
    exact List.mem_singleton_self _
  cases h with
  | none L ha hf =>
    obtain ⟨x, hx⟩ := List.exists_mem_of_ne_nil _ (hs.filled b hb)
    obtain ⟨hb', ht'⟩ := hf.resolve_left (List.ne_nil_of_mem hb)
    rcases ht with ht | ⟨ht, -⟩ | ⟨ht, -⟩
    · exact absurd (ht x hx) (ha x (List.mem_flatten.mpr ⟨b, hb, hx⟩))
    · exact absurd ht ht'
    · exact absurd ht hb'
  | missing K a N hm ho hx =>
    rw [hm.unique hs hb ht] at hmem
    exact absurd hmem hx
  | object K a N hm ho hx =>
    rw [hm.unique hs hb ht] at hbx
    rw [(erase_eq_nil hx).mpr hbx]
    simp
  | whole K a N hm ho =>
    rw [Option.isNone_iff_eq_none.mp ho] at hsome
    cases hsome

end BalancedTreeElement

-- ---------------------------------------------------------------------------
-- The tree
-- ---------------------------------------------------------------------------

/-- `stdBalancedTree_`. -/
structure StdBalancedTree (κ ω : Type) where
  enabledEqu : Bool
  top : BalancedTreeElement κ ω
  count : Int
  deriving DecidableEq, Repr

inductive BalancedTreeAct (κ ω : Type)
  | search (cond : κ)
  | ins (inp : BalancedTreeObject κ ω)
  | del (inp : BalancedTreeObject κ ω)
  deriving DecidableEq, Repr

/-- What is seen of a call: an insertion into the empty tree and one into a tree with elements
are told apart. -/
inductive BalancedTreeObs (κ ω : Type)
  | found (cond : κ) (ret : BalancedTreeChain κ ω)
  | first (inp : BalancedTreeObject κ ω) (ret : BalancedTreeChain κ ω)
  | added (inp : BalancedTreeObject κ ω)
  | refused (inp : BalancedTreeObject κ ω) (ret : BalancedTreeChain κ ω)
  | deleted (inp : BalancedTreeObject κ ω) (ret : BalancedTreeChain κ ω)
  | crashed
  deriving DecidableEq, Repr

namespace StdBalancedTree

open BalancedTreeElement

variable {κ ω : Type}

/-- The objects in the tree. -/
def objects (t : StdBalancedTree κ ω) : BalancedTreeChain κ ω := t.top.flat.flatten

variable [LinearOrder κ]

def search (t : StdBalancedTree κ ω) (cond : κ) : Option (BalancedTreeChain κ ω) :=
  t.top.search cond

def ins (t : StdBalancedTree κ ω) (inp : BalancedTreeObject κ ω) :
    Option (BalancedTreeChain κ ω × StdBalancedTree κ ω) :=
  if t.top.isNull then
    some ([inp], { t with top := node null [inp] 1 null, count := t.count + 1 })
  else
    (t.top.ins t.enabledEqu inp).map fun r =>
      (r.1, { t with top := r.2, count := if r.1 ≠ [] then t.count + 1 else t.count })

variable [BoundedOrder κ] [DecidableEq ω]

def del (t : StdBalancedTree κ ω) (inp : BalancedTreeObject κ ω) :
    Option (BalancedTreeChain κ ω × StdBalancedTree κ ω) :=
  if t.top.isNull then some ([], t)
  else
    (t.top.del inp).map fun r => (r.1, { t with top := r.2, count := t.count - r.1.length })

def step (t : StdBalancedTree κ ω) :
    BalancedTreeAct κ ω → Option (StdBalancedTree κ ω × List (BalancedTreeObs κ ω))
  | .search cond =>
    match t.search cond with
    | some ret => some (t, [.found cond ret])
    | none => some (t, [.crashed])
  | .ins inp =>
    match t.ins inp with
    | some (ret, u) =>
      some (u, [if t.top.isNull then .first inp ret
        else if ret = [] then .added inp else .refused inp ret])
    | none => some (t, [.crashed])
  | .del inp =>
    match t.del inp with
    | some (ret, u) => some (u, [.deleted inp ret])
    | none => some (t, [.crashed])

def machine (κ ω : Type) [LinearOrder κ] [BoundedOrder κ] [DecidableEq ω] :
    Machine (StdBalancedTree κ ω) (BalancedTreeAct κ ω) (BalancedTreeObs κ ω) where
  init t := t.top = .null ∧ t.count = 0
  step := step

/-- No deletion asks for the only object of a chain. -/
def Spares (t : StdBalancedTree κ ω) : BalancedTreeAct κ ω → Prop
  | .search _ | .ins _ => True
  | .del inp => Leaves t.top.flat inp

instance (t : StdBalancedTree κ ω) (a : BalancedTreeAct κ ω) : Decidable (Spares t a) :=
  match a with
  | .search _ | .ins _ => .isTrue trivial
  | .del inp => inferInstanceAs (Decidable (Leaves t.top.flat inp))

noncomputable def stock₁ (m : BalancedTreeStock κ ω) :
    BalancedTreeObs κ ω → BalancedTreeStock κ ω
  | .first inp _ | .added inp => m.inserted inp
  | .deleted inp _ => m.deleted inp
  | .found .. | .refused .. | .crashed => m

/-- What the calls of a run have stored. -/
noncomputable def stock (tr : List (BalancedTreeObs κ ω)) : BalancedTreeStock κ ω :=
  tr.foldl stock₁ fun _ => []

theorem stock_append (tr : List (BalancedTreeObs κ ω)) (o : BalancedTreeObs κ ω) :
    stock (tr ++ [o]) = stock₁ (stock tr) o := List.foldl_append

/-- What a call returns after the calls `before`. -/
def Right (enabledEqu : Bool) (before : List (BalancedTreeObs κ ω)) :
    BalancedTreeObs κ ω → Prop
  | .found cond ret => ret = (stock before cond).map (.mk cond)
  | .first inp ret => (∀ c, stock before c = []) ∧ ret = [inp]
  | .added inp => (∃ c, stock before c ≠ []) ∧
      (enabledEqu = true ∨ stock before inp.cond = [])
  | .refused inp ret => enabledEqu = false ∧ stock before inp.cond ≠ [] ∧
      ret = (stock before inp.cond).map (.mk inp.cond)
  | .deleted inp ret => ret = (stock before).answer inp
  | .crashed => False

def isAdded : BalancedTreeObs κ ω → Bool
  | .added _ => true
  | _ => false

def isRefused : BalancedTreeObs κ ω → Bool
  | .refused .. => true
  | _ => false

variable {t u : StdBalancedTree κ ω} {tr : List (BalancedTreeObs κ ω)}

/-- The tree holds what the calls have stored, and how far the count is off. -/
structure Holds (tr : List (BalancedTreeObs κ ω)) (t : StdBalancedTree κ ω) : Prop where
  sorted : Sorted t.top.flat
  leveled : t.top.Leveled
  held : held t.top.flat = stock tr
  single : t.enabledEqu = false → ∀ c, (stock tr c).length ≤ 1
  answers : Machine.Justified (Right t.enabledEqu) tr
  counted : t.count + tr.countP isAdded = t.objects.length + tr.countP isRefused

theorem Holds.search (h : Holds tr t) (c : κ) :
    t.search c = some ((stock tr c).map (.mk c)) := by
  rw [StdBalancedTree.search, search_eq h.sorted, under_eq, h.held]

theorem Holds.stock_ne_nil (h : Holds tr t) : (∃ c, stock tr c ≠ []) ↔ t.top ≠ null := by
  rw [← h.held]
  constructor
  · rintro ⟨c, hc⟩ hn
    obtain ⟨o, ho, -⟩ := held_ne_nil.mp hc
    rw [hn] at ho
    cases ho
  · intro hn
    obtain ⟨a, ha⟩ := List.exists_mem_of_ne_nil _ (mt flat_eq_nil.mp hn)
    obtain ⟨o, ho⟩ := List.exists_mem_of_ne_nil _ (h.sorted.filled a ha)
    exact ⟨o.cond, held_ne_nil.mpr ⟨o, List.mem_flatten.mpr ⟨a, ha, ho⟩, rfl⟩⟩

/-- An insertion that is not refused. -/
theorem Holds.inserted (h : Holds tr t) {inp : BalancedTreeObject κ ω}
    {e : BalancedTreeElement κ ω} {n : Int} {o : BalancedTreeObs κ ω}
    (hins : Inserts inp t.top.flat e.flat) (hl : e.Leveled)
    (hroom : t.enabledEqu = true ∨ stock tr inp.cond = [])
    (ho : stock₁ (stock tr) o = (stock tr).inserted inp) (hans : Right t.enabledEqu tr o)
    (hn : n + [o].countP isAdded = t.count + 1) (hr : isRefused o = false) :
    Holds (tr ++ [o]) { t with top := e, count := n } := by
  obtain ⟨hs, hheld, hlen⟩ := hins.held_eq h.sorted
  have hstock : stock (tr ++ [o]) = (stock tr).inserted inp := (stock_append tr o).trans ho
  refine ⟨hs, hl, ?_, fun he c => ?_, h.answers.snoc hans, ?_⟩
  · rw [hheld, h.held, hstock]
  · rw [hstock, BalancedTreeStock.inserted, Function.update_apply]
    split
    · have hnil := hroom.resolve_left (by rw [show t.enabledEqu = false from he]; exact nofun)
      rw [hnil]
      exact Nat.le_refl 1
    · exact h.single he c
  · have hc := h.counted
    have hobj : e.flat.flatten.length = t.objects.length + 1 := hlen
    rw [List.countP_append, List.countP_append, List.countP_singleton (p := isRefused), hr]
    change n + _ = (e.flat.flatten.length : Int) + _
    rw [hobj]
    push_cast
    omega

theorem Holds.ins (h : Holds tr t) {inp : BalancedTreeObject κ ω}
    {os : List (BalancedTreeObs κ ω)} (hs : t.step (.ins inp) = some (u, os)) :
    Holds (tr ++ os) u := by
  by_cases htop : t.top = null
  · have hnil : ∀ c, stock tr c = [] := fun c => by
      by_contra hc
      exact h.stock_ne_nil.mp ⟨c, hc⟩ htop
    simp only [step, StdBalancedTree.ins, isNull_iff.mpr htop, if_true] at hs
    cases hs
    refine h.inserted ?_ ⟨Nat.le_refl 1, trivial, trivial⟩ (.inr (hnil _)) rfl ⟨hnil, rfl⟩
      (Int.add_zero _) rfl
    rw [htop]
    exact .fresh [] [] nofun nofun
  · obtain ⟨ret, e, hr, hl, hspec⟩ := ins_spec t.enabledEqu inp h.sorted h.leveled
    have hnull := mt isNull_iff.mp htop
    simp only [step, StdBalancedTree.ins, hnull, Bool.false_eq_true, if_false, hr,
      Option.map_some] at hs
    cases hspec with
    | refused hsingle ret e hheld hall hsame =>
      simp only [hheld, ne_eq, not_false_eq_true, if_true, if_false] at hs
      cases hs
      rw [under_eq, h.held] at hall
      refine ⟨by rw [hsame]; exact h.sorted, hl, ?_, ?_, h.answers.snoc ?_, ?_⟩
      · rw [stock_append, hsame]
        exact h.held
      · rw [stock_append]
        exact h.single
      · refine ⟨hsingle, fun hn => hheld ?_, hall.symm⟩
        rw [← hall, hn]
        rfl
      · have hc := h.counted
        have hobj : e.flat.flatten = t.objects := congrArg List.flatten hsame
        rw [List.countP_append, List.countP_append]
        change t.count + 1 + ((tr.countP isAdded + 0 : Nat) : Int) =
          (e.flat.flatten.length : Int) + ((tr.countP isRefused + 1 : Nat) : Int)
        rw [hobj]
        push_cast
        omega
    | added hroom e hins =>
      simp only [if_true, ne_eq, not_true_eq_false, if_false] at hs
      cases hs
      have hroom' : t.enabledEqu = true ∨ stock tr inp.cond = [] := by
        refine hroom.imp_right fun hu => ?_
        rw [under_eq, h.held] at hu
        exact List.map_eq_nil_iff.mp hu
      exact h.inserted hins hl hroom' rfl ⟨h.stock_ne_nil.mpr htop, hroom'⟩ rfl rfl

theorem deleted_length_le (m : BalancedTreeStock κ ω) (inp : BalancedTreeObject κ ω) (c : κ) :
    (m.deleted inp c).length ≤ (m c).length := by
  unfold BalancedTreeStock.deleted
  cases m.target inp.cond with
  | none => exact Nat.le_refl _
  | some k =>
    simp only [Function.update_apply]
    split
    · rename_i hck
      subst hck
      split
      · exact List.length_erase_le
      · exact Nat.zero_le _
    · exact Nat.le_refl _

/-- What a deletion returns and leaves. -/
theorem del_eq (h : Holds tr t) (inp : BalancedTreeObject κ ω) :
    ∃ ret u, t.del inp = some (ret, u) ∧ u.enabledEqu = t.enabledEqu ∧ u.top.Leveled ∧
      Deletes inp t.top.flat ret u.top.flat ∧ u.count = t.count - ret.length := by
  by_cases htop : t.top = null
  · refine ⟨[], t, ?_, rfl, h.leveled, ?_, (Int.sub_zero _).symm⟩
    · rw [StdBalancedTree.del, if_pos (isNull_iff.mpr htop)]
    · rw [htop]
      exact .none [] nofun (.inl rfl)
  · obtain ⟨ret, e, hr, hl, hd⟩ := del_spec inp h.sorted h.leveled htop
    refine ⟨ret, { t with top := e, count := t.count - ret.length }, ?_, rfl, hl, hd, rfl⟩
    rw [StdBalancedTree.del, if_neg (mt isNull_iff.mp htop), hr]
    rfl

theorem Holds.del (h : Holds tr t) {inp : BalancedTreeObject κ ω}
    {os : List (BalancedTreeObs κ ω)} (hl : Leaves t.top.flat inp)
    (hs : t.step (.del inp) = some (u, os)) : Holds (tr ++ os) u := by
  obtain ⟨ret, v, hdel, henabled, hlev, hd, hcount⟩ := del_eq h inp
  simp only [StdBalancedTree.step, hdel] at hs
  cases hs
  obtain ⟨hret, hheld, hlen⟩ := hd.held_eq h.sorted
  rw [h.held] at hret hheld
  refine ⟨hd.sorted h.sorted (hd.filled h.sorted hl), hlev, ?_, fun he c => ?_, ?_, ?_⟩
  · rw [stock_append]
    exact hheld
  · rw [stock_append]
    exact Nat.le_trans (deleted_length_le _ _ _) (h.single (henabled ▸ he) c)
  · rw [henabled]
    exact h.answers.snoc hret
  · have hc := h.counted
    have hobj : t.objects.length = ret.length + u.objects.length := hlen
    rw [List.countP_append, List.countP_append, hcount]
    change _ + ((tr.countP isAdded + 0 : Nat) : Int) = _ + ((tr.countP isRefused + 0 : Nat) : Int)
    omega

theorem Holds.step (h : Holds tr t) {a : BalancedTreeAct κ ω} {os : List (BalancedTreeObs κ ω)}
    (hc : Spares t a) (hs : t.step a = some (u, os)) : Holds (tr ++ os) u := by
  cases a with
  | search c =>
    simp only [StdBalancedTree.step, h.search] at hs
    cases hs
    refine ⟨h.sorted, h.leveled, ?_, ?_, h.answers.snoc rfl, ?_⟩
    · rw [stock_append]
      exact h.held
    · rw [stock_append]
      exact h.single
    · rw [List.countP_append, List.countP_append]
      exact h.counted
  | ins inp => exact h.ins hs
  | del inp => exact h.del hc hs

theorem run_holds (h : (machine κ ω).RunIf Spares tr t) : Holds tr t := by
  refine h.invariant (I := Holds) ?start ?step
  case start =>
    rintro t ⟨htop, hcount⟩
    refine ⟨?_, ?_, ?_, fun _ _ => Nat.zero_le _, .nil, ?_⟩
    · rw [htop]
      exact sorted_nil
    · rw [htop]
      trivial
    · rw [htop]
      rfl
    · rw [hcount, objects, htop]
      rfl
  case step =>
    rintro tr t a u os - hh hc hs
    exact hh.step hc hs

/-- What holds of the tree in a run. -/
structure BalancedTreeLaw (tr : List (BalancedTreeObs κ ω)) (t : StdBalancedTree κ ω) : Prop where
  search : ∀ c, t.search c = some ((stock tr c).map (.mk c))
  single : t.enabledEqu = false → ∀ c, (stock tr c).length ≤ 1
  sorted : Sorted t.top.flat
  answers : Machine.Justified (Right t.enabledEqu) tr
  count : t.count = t.objects.length ↔ tr.countP isAdded = tr.countP isRefused
  spares : ∀ a u os, ¬ Spares t a → t.step a = some (u, os) → [] ∈ u.top.flat

/-- As long as no deletion asks for the only object under a condition, the tree is an ordered
multimap, and such a deletion leaves an element without object. The count is right when as
many insertions have been refused as have added to a tree with elements. -/
theorem balancedTree_law (h : (machine κ ω).RunIf Spares tr t) : BalancedTreeLaw tr t := by
  have hI : Holds tr t := run_holds h
  refine ⟨hI.search, hI.single, hI.sorted, hI.answers, ?count, ?spares⟩
  case count =>
    have hc := hI.counted
    omega
  case spares =>
    intro a u os hn hs
    cases a with
    | search | ins => exact absurd trivial hn
    | del inp =>
      obtain ⟨ret, v, hdel, -, -, hd, -⟩ := del_eq hI inp
      simp only [StdBalancedTree.step, hdel] at hs
      cases hs
      exact hd.emptied hI.sorted hn

/-- Conditions that are numbers, with both infinities. -/
abbrev Number := WithBot (WithTop Nat)

def number (n : Nat) : Number := ((n : WithTop Nat) : Number)

/-- Three chains, one of them of two objects; the count is one. -/
theorem balancedTree_law_chains :
    ∃ tr t, (machine Number Nat).RunIf Spares tr t ∧ BalancedTreeLaw tr t ∧
      t.objects.length = 3 ∧ t.count = -1 := by
  obtain ⟨tr, t, hr, hl, hc⟩ := Machine.exists_run (M := machine Number Nat) (C := Spares)
    (P := fun _ t => t.objects.length = 3 ∧ t.count = -1)
    [.ins ⟨number 1, some 10⟩, .ins ⟨number 2, some 20⟩, .ins ⟨number 3, some 30⟩,
      .ins ⟨number 2, some 21⟩, .ins ⟨number 3, some 31⟩, .del ⟨number 3, some 30⟩,
      .del ⟨⊥, none⟩]
    (s := ⟨true, .null, 0⟩) ⟨rfl, rfl⟩ (by decide +kernel)
  exact ⟨tr, t, hr, balancedTree_law hr, hl, hc⟩

/-- Two conditions and a count of one; an object taken out, and an element without object,
which the next search crashes on. -/
theorem balancedTree_miscounted :
    (∃ tr t, (machine Number Nat).Run tr t ∧ t.objects.length = 2 ∧ t.count = 1) ∧
      ∃ tr t, (machine Number Nat).Run tr t ∧ [] ∈ t.top.flat ∧ t.search (number 1) = none := by
  refine ⟨?_, ?_⟩
  · obtain ⟨tr, t, hr, h⟩ := Machine.exists_run (M := machine Number Nat) (C := fun _ _ => True)
      (P := fun _ t => t.objects.length = 2 ∧ t.count = 1)
      [.ins ⟨number 1, some 10⟩, .ins ⟨number 2, some 20⟩]
      (s := ⟨false, .null, 0⟩) ⟨rfl, rfl⟩ (by decide +kernel)
    exact ⟨tr, t, hr, h⟩
  · obtain ⟨tr, t, hr, h⟩ := Machine.exists_run (M := machine Number Nat) (C := fun _ _ => True)
      (P := fun _ t => [] ∈ t.top.flat ∧ t.search (number 1) = none)
      [.ins ⟨number 1, some 10⟩, .del ⟨number 1, some 10⟩]
      (s := ⟨false, .null, 0⟩) ⟨rfl, rfl⟩ (by decide +kernel)
    exact ⟨tr, t, hr, h⟩

end StdBalancedTree

end TinyState
