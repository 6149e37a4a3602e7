import TinyState.Containers.BalancedTree
import Mathlib.Data.List.Perm.Subperm
import Mathlib.Data.List.Count

/-!
# Walks over the balanced tree

The walk calls the visitor for each object of a chain, but always with the first one; and a
visitor that wants to stop stops the element it is called from, not those that have called it.
So the visitor sees what it should where chains hold one object only, as often as it may be
there, and stops where it should at an element that is in no small subtree.
-/

namespace TinyState

open Transition Chains

/-- A call of the visitor: the condition and the object. -/
abbrev TreeCall (κ ω : Type) := κ × Option ω

namespace BalancedTreeElement

variable {κ ω : Type}

-- ---------------------------------------------------------------------------
-- Model
-- ---------------------------------------------------------------------------

/-- The loop over the chain of the object `obj`, after some calls, and whether it returns. The
visitor decides by the calls so far. -/
def walkChain (visit : List (TreeCall κ ω) → Bool) (obj : BalancedTreeObject κ ω) :
    BalancedTreeChain κ ω → List (TreeCall κ ω) → List (TreeCall κ ω) × Bool
  | [], calls => (calls, false)
  | _ :: op, calls =>
    if visit (calls ++ [(obj.cond, obj.obj)]) then (calls ++ [(obj.cond, obj.obj)], true)
    else walkChain visit obj op (calls ++ [(obj.cond, obj.obj)])

-- ---------------------------------------------------------------------------
-- Calls until the visitor stops
-- ---------------------------------------------------------------------------

/-- The calls are made up to the first at which the visitor stops, and whether it does. -/
def heed (visit : List (TreeCall κ ω) → Bool) (calls : List (TreeCall κ ω)) :
    List (TreeCall κ ω) → List (TreeCall κ ω) × Bool
  | [] => (calls, false)
  | x :: rest =>
    if visit (calls ++ [x]) then (calls ++ [x], true) else heed visit (calls ++ [x]) rest

example (x y : TreeCall κ ω) : heed (fun _ => true) [] [x, y] = ([x], true) := by simp [heed]

variable {visit : List (TreeCall κ ω) → Bool} {calls l m p : List (TreeCall κ ω)}
  {x : TreeCall κ ω}

/-- A visitor either stops at a call, or all calls are made. -/
theorem heed_cases (visit : List (TreeCall κ ω) → Bool) (calls l : List (TreeCall κ ω)) :
    heed visit calls l = (calls ++ l, false) ∨
      ∃ l₁ x l₂, l = l₁ ++ x :: l₂ ∧ heed visit calls l = (calls ++ l₁ ++ [x], true) ∧
        visit (calls ++ l₁ ++ [x]) = true := by
  induction l generalizing calls with
  | nil => exact .inl (by rw [heed, List.append_nil])
  | cons x l ih =>
    rw [heed]
    cases hv : visit (calls ++ [x]) with
    | true =>
      refine .inr ⟨[], x, l, rfl, ?_, ?_⟩
      · rw [List.append_nil]
        rfl
      · rwa [List.append_nil]
    | false =>
      rw [if_neg Bool.false_ne_true]
      rcases ih (calls ++ [x]) with h | ⟨l₁, y, l₂, rfl, h, hy⟩
      · exact .inl (by rw [h, List.append_assoc, List.singleton_append])
      · refine .inr ⟨x :: l₁, y, l₂, rfl, ?_, ?_⟩
        · rw [h, List.append_assoc calls, List.singleton_append]
        · rwa [List.append_assoc calls, List.singleton_append] at hy

theorem heed_append (h : heed visit calls l = (p, false)) :
    heed visit calls (l ++ m) = heed visit (calls ++ l) m := by
  induction l generalizing calls with
  | nil => rw [List.nil_append, List.append_nil]
  | cons x l ih =>
    rw [heed] at h
    rw [List.cons_append, heed]
    cases hv : visit (calls ++ [x]) with
    | true =>
      rw [hv, if_pos rfl] at h
      cases h
    | false =>
      rw [hv, if_neg Bool.false_ne_true] at h
      rw [if_neg Bool.false_ne_true, ih h, List.append_assoc, List.singleton_append]

theorem heed_append_stopped (h : heed visit calls l = (p, true)) :
    heed visit calls (l ++ m) = (p, true) := by
  induction l generalizing calls with
  | nil => cases h
  | cons x l ih =>
    rw [heed] at h
    rw [List.cons_append, heed]
    cases hv : visit (calls ++ [x]) with
    | true => rwa [hv, if_pos rfl] at h
    | false =>
      rw [hv, if_neg Bool.false_ne_true] at h
      rw [if_neg Bool.false_ne_true, ih h]

theorem heed_prefix (visit : List (TreeCall κ ω) → Bool) (calls l : List (TreeCall κ ω)) :
    ∃ k, (heed visit calls l).1 = calls ++ k ∧ k <+: l := by
  rcases heed_cases visit calls l with h | ⟨l₁, x, l₂, rfl, h, -⟩
  · exact ⟨l, congrArg Prod.fst h, List.prefix_rfl⟩
  · exact ⟨l₁ ++ [x], by rw [h, List.append_assoc], ⟨l₂, by simp⟩⟩

/-- The first stop is the last call. -/
theorem heed_first {k : List (TreeCall κ ω)} (hk : k ≠ []) (hv : visit (calls ++ k) = true)
    (hp : calls ++ k <+: (heed visit calls l).1) : (heed visit calls l).1 = calls ++ k := by
  induction l generalizing calls k with
  | nil =>
    have hle := hp.length_le
    rw [heed, List.length_append] at hle
    dsimp only at hle
    exact absurd (List.eq_nil_of_length_eq_zero (by omega)) hk
  | cons y l ih =>
    obtain ⟨z, k, rfl⟩ := List.exists_cons_of_ne_nil hk
    have hz : z = y := by
      obtain ⟨m, hm, hpre⟩ := heed_prefix visit calls (y :: l)
      rw [hm, List.prefix_append_right_inj] at hp
      exact (List.cons_prefix_cons.mp (hp.trans hpre)).1
    subst hz
    rw [heed] at hp ⊢
    cases hy : visit (calls ++ [z]) with
    | true =>
      rw [hy, if_pos rfl] at hp
      have hle := hp.length_le
      rw [List.length_append, List.length_append, List.length_cons, List.length_singleton] at hle
      obtain rfl : k = [] := List.eq_nil_of_length_eq_zero (by omega)
      rw [if_pos rfl]
    | false =>
      rw [hy, if_neg Bool.false_ne_true] at hp
      rw [if_neg Bool.false_ne_true]
      have happ : calls ++ z :: k = calls ++ [z] ++ k := by simp
      rw [happ] at hv hp ⊢
      refine ih (fun hk => ?_) hv hp
      rw [hk, List.append_nil, hy] at hv
      cases hv

/-- What comes behind the first stop makes no difference. -/
theorem heed_stop (h : heed visit calls (l ++ x :: m) = (calls ++ l ++ [x], true))
    (m' : List (TreeCall κ ω)) :
    heed visit calls (l ++ x :: m') = (calls ++ l ++ [x], true) := by
  have hx : heed visit calls (l ++ [x]) = (calls ++ l ++ [x], true) := by
    have happ : l ++ x :: m = l ++ [x] ++ m := by simp
    rw [happ] at h
    rcases heed_cases visit calls (l ++ [x]) with hl | ⟨l₁, y, l₂, -, hl, -⟩
    · -- without a stop up to there the last call would come later
      rw [heed_append hl] at h
      rcases heed_cases visit (calls ++ (l ++ [x])) m with hm | ⟨l₁, y, l₂, -, hm, -⟩
      · rw [h] at hm
        cases congrArg Prod.snd hm
      · rw [h] at hm
        have hlen := congrArg (fun r => r.1.length) hm
        simp only [List.length_append, List.length_singleton] at hlen
        omega
    · rw [heed_append_stopped hl] at h
      exact hl.trans h
  have happ : l ++ x :: m' = l ++ [x] ++ m' := by simp
  rw [happ, heed_append_stopped hx]

theorem walkChain_eq (visit : List (TreeCall κ ω) → Bool) (o : BalancedTreeObject κ ω)
    (chain : BalancedTreeChain κ ω) (calls : List (TreeCall κ ω)) :
    walkChain visit o chain calls = heed visit calls (chain.map fun _ => (o.cond, o.obj)) := by
  induction chain generalizing calls with
  | nil => rfl
  | cons y chain ih => rw [walkChain, List.map_cons, heed, ih]

theorem walkChain_cons (visit : List (TreeCall κ ω) → Bool) (o y : BalancedTreeObject κ ω)
    (chain : BalancedTreeChain κ ω) (calls : List (TreeCall κ ω)) :
    ∃ e, (walkChain visit o (y :: chain) calls).1 = calls ++ (o.cond, o.obj) :: e := by
  rw [walkChain_eq, List.map_cons]
  rcases heed_cases visit calls ((o.cond, o.obj) :: chain.map fun _ => (o.cond, o.obj)) with
    h | ⟨l₁, x, l₂, hl, h, -⟩
  · exact ⟨_, congrArg Prod.fst h⟩
  · cases l₁ with
    | nil =>
      cases hl
      exact ⟨[], by rw [h, List.append_nil]⟩
    | cons y l₁ =>
      obtain rfl : _ = y := (List.cons.inj hl).1
      exact ⟨l₁ ++ [x], by rw [h, List.append_assoc]; rfl⟩

/-- The conditions of the elements that are reached from the top by large links only. -/
def spine : BalancedTreeElement κ ω → List κ
  | null => []
  | node _ chain _ large => chain.map (·.cond) ++ large.spine

theorem cond_of_spine {t : BalancedTreeElement κ ω} {c : κ} (h : c ∈ t.spine) : ∃ o ∈ t.flat.flatten, o.cond = c := by
  induction t with
  | null => cases h
  | node small obj level large _ ih =>
    rw [flat, List.flatten_append, List.flatten_cons]
    rcases List.mem_append.mp h with h | h
    · obtain ⟨o, ho, rfl⟩ := List.mem_map.mp h
      exact ⟨o, List.mem_append_right _ (List.mem_append_left _ ho), rfl⟩
    · obtain ⟨o, ho, hc⟩ := ih h
      exact ⟨o, List.mem_append_right _ (List.mem_append_right _ ho), hc⟩

variable [LinearOrder κ]

/-- What `walk` does when it has been in the small child. -/
def walkOn (visit : List (TreeCall κ ω) → Bool) (c1 : κ) (o : BalancedTreeObject κ ω)
    (chain : BalancedTreeChain κ ω) (large : List (TreeCall κ ω) → Option (List (TreeCall κ ω)))
    (calls : List (TreeCall κ ω)) : Option (List (TreeCall κ ω)) :=
  if c1 ≤ o.cond then
    if (walkChain visit o (o :: chain) calls).2 then some (walkChain visit o (o :: chain) calls).1
    else large (walkChain visit o (o :: chain) calls).1
  else large calls

/-- `walk`, after some calls; there is no result where an element without object is asked for
its condition. -/
def walk (visit : List (TreeCall κ ω) → Bool) (c1 : κ) :
    BalancedTreeElement κ ω → List (TreeCall κ ω) → Option (List (TreeCall κ ω))
  | null, calls => some calls
  | node _ [] _ _, _ => none
  | node small (o :: chain) _ large, calls =>
    (if c1 < o.cond then small.walk visit c1 calls else some calls).bind
      (walkOn visit c1 o chain fun calls => large.walk visit c1 calls)

-- ---------------------------------------------------------------------------
-- Calls that should be made
-- ---------------------------------------------------------------------------

/-- What is stored under the conditions from `c1` on. -/
def storedFrom (c1 : κ) (L : List (BalancedTreeChain κ ω)) : List (TreeCall κ ω) :=
  (L.flatten.filter fun o => c1 ≤ o.cond).map fun o => (o.cond, o.obj)

/-- A walk should call the visitor for all that is stored from the bound on, in ascending order,
until it stops. -/
def Visits (visit : List (TreeCall κ ω) → Bool) (c1 : κ) (t : BalancedTreeElement κ ω) : Prop :=
  ∃ E : List (TreeCall κ ω), E.Perm (storedFrom c1 t.flat) ∧ E.Pairwise (fun x y => x.1 ≤ y.1) ∧
    t.walk visit c1 [] = some (heed visit [] E).1

/-- What is stored from the bound on, with the first object of each chain in the place of the
others. -/
def firsts (c1 : κ) (L : List (BalancedTreeChain κ ω)) : List (TreeCall κ ω) :=
  L.flatMap fun chain =>
    match chain with
    | [] => []
    | o :: rest => if c1 ≤ o.cond then (o :: rest).map fun _ => (o.cond, o.obj) else []

/-- Up to the first stop no object is the first of its chain more often than it is stored, and
the stop is at an element that is in no small subtree. -/
def Straight [DecidableEq ω] (visit : List (TreeCall κ ω) → Bool) (c1 : κ)
    (t : BalancedTreeElement κ ω) : Prop :=
  (∀ x ∈ (heed visit [] (firsts c1 t.flat)).1,
    (heed visit [] (firsts c1 t.flat)).1.count x ≤ (storedFrom c1 t.flat).count x) ∧
  ((heed visit [] (firsts c1 t.flat)).2 = true →
    ∀ x ∈ (heed visit [] (firsts c1 t.flat)).1.getLast?, x.1 ∈ t.spine)

instance [DecidableEq ω] (visit : List (TreeCall κ ω) → Bool) (c1 : κ)
    (t : BalancedTreeElement κ ω) : Decidable (Straight visit c1 t) := by
  unfold Straight
  infer_instance

variable {c1 c : κ} {t : BalancedTreeElement κ ω} {o : BalancedTreeObject κ ω}
  {chain : BalancedTreeChain κ ω} {L M : List (BalancedTreeChain κ ω)}

-- ---------------------------------------------------------------------------
-- Calls that are made
-- ---------------------------------------------------------------------------

theorem firsts_append : firsts c1 (L ++ M) = firsts c1 L ++ firsts c1 M := List.flatMap_append

theorem firsts_cons : firsts c1 (chain :: L) = firsts c1 [chain] ++ firsts c1 L := by
  rw [← firsts_append]
  rfl

theorem firsts_chain (h : c1 ≤ o.cond) :
    firsts c1 [o :: chain] = (o :: chain).map fun _ => (o.cond, o.obj) := by
  rw [firsts, List.flatMap_singleton]
  exact if_pos h

theorem firsts_below (h : ∀ o ∈ L.flatten, o.cond < c1) : firsts c1 L = [] := by
  refine List.flatMap_eq_nil_iff.mpr fun chain hc => ?_
  cases chain with
  | nil => rfl
  | cons o rest => exact if_neg (not_le.mpr (h o (List.mem_flatten.mpr ⟨_, hc, List.mem_cons_self⟩)))

theorem cond_of_firsts (h : x ∈ firsts c1 L) : ∃ o ∈ L.flatten, x.1 = o.cond := by
  obtain ⟨chain, hc, hx⟩ := List.mem_flatMap.mp h
  cases chain with
  | nil => cases hx
  | cons o rest =>
    dsimp only at hx
    split at hx
    · obtain ⟨_, -, rfl⟩ := List.mem_map.mp hx
      exact ⟨o, List.mem_flatten.mpr ⟨_, hc, List.mem_cons_self⟩, rfl⟩
    · cases hx

/-- What a walk does after some calls: it calls for all there is; or the visitor stops it, and
no more calls are made if and only if that is at an element reached by large links only. -/
inductive Walked (visit : List (TreeCall κ ω) → Bool) (c1 : κ) (t : BalancedTreeElement κ ω)
    (calls : List (TreeCall κ ω)) : Option (List (TreeCall κ ω)) → Prop
  | through (heard : heed visit calls (firsts c1 t.flat) = (calls ++ firsts c1 t.flat, false)) :
      Walked visit c1 t calls (some (calls ++ firsts c1 t.flat))
  | stopped (l m : List (TreeCall κ ω)) (x : TreeCall κ ω) (split : firsts c1 t.flat = l ++ x :: m)
      (heard : heed visit calls (firsts c1 t.flat) = (calls ++ l ++ [x], true))
      (more : List (TreeCall κ ω))
      (ends : more = [] ↔ x.1 ∈ t.spine) :
      Walked visit c1 t calls (some (calls ++ l ++ [x] ++ more))

theorem Walked.some_append {r : Option (List (TreeCall κ ω))} (h : Walked visit c1 t calls r) :
    ∃ e, r = some (calls ++ e) := by
  cases h with
  | through => exact ⟨_, rfl⟩
  | stopped l m x _ _ more _ => exact ⟨l ++ [x] ++ more, by simp only [List.append_assoc]⟩

/-- At an element from the bound on the visitor is called, wherever the walk comes from. -/
theorem walkOn_calls {large : List (TreeCall κ ω) → Option (List (TreeCall κ ω))}
    (h : c1 ≤ o.cond) (hl : ∀ q, ∃ e, large q = some (q ++ e)) (q : List (TreeCall κ ω)) :
    ∃ e ≠ [], walkOn visit c1 o chain large q = some (q ++ e) := by
  obtain ⟨e, he⟩ := walkChain_cons visit o o chain q
  obtain ⟨e', he'⟩ := hl (walkChain visit o (o :: chain) q).1
  rw [walkOn, if_pos h]
  split
  · exact ⟨(o.cond, o.obj) :: e, List.cons_ne_nil _ _, congrArg some he⟩
  · refine ⟨(o.cond, o.obj) :: (e ++ e'), List.cons_ne_nil _ _, ?_⟩
    rw [he', he, List.append_assoc, List.cons_append]

variable {small large : BalancedTreeElement κ ω} {level : Nat}

theorem firsts_node : firsts c1 (node small (o :: chain) level large).flat =
    firsts c1 small.flat ++ (firsts c1 [o :: chain] ++ firsts c1 large.flat) := by
  rw [flat, firsts_append, firsts_cons]

/-- The large child is walked after the calls `l`. -/
theorem Walked.go_on {r : Option (List (TreeCall κ ω))}
    (hgreater : ∀ y ∈ large.flat.flatten, o.cond < y.cond)
    (hu : ∀ y ∈ o :: chain, y.cond = o.cond)
    (hl : firsts c1 small.flat ++ firsts c1 [o :: chain] = l)
    (hh : heed visit calls l = (calls ++ l, false))
    (h : Walked visit c1 large (calls ++ l) r) :
    Walked visit c1 (node small (o :: chain) level large) calls r := by
  have hf : firsts c1 (node small (o :: chain) level large).flat = l ++ firsts c1 large.flat := by
    rw [firsts_node, ← List.append_assoc, hl]
  cases h with
  | through heard =>
    rw [List.append_assoc, ← hf]
    refine .through ?_
    rw [hf, heed_append hh, heard, List.append_assoc]
  | stopped k m x split heard more ends =>
    rw [List.append_assoc calls]
    refine .stopped (l ++ k) m x ?_ ?_ more (ends.trans ?_)
    · rw [hf, split, List.append_assoc]
    · rw [hf, heed_append hh, heard, List.append_assoc calls]
    · refine ⟨fun hx => List.mem_append_right _ hx, fun hx => ?_⟩
      refine (List.mem_append.mp hx).resolve_left fun hx => ?_
      obtain ⟨y, hy, hyx⟩ := List.mem_map.mp hx
      have hm : x ∈ firsts c1 large.flat := split ▸ List.mem_append_right k List.mem_cons_self
      obtain ⟨z, hz, hxz⟩ := cond_of_firsts hm
      have hlt := hgreater z hz
      rw [← hxz, ← hyx, hu y hy] at hlt
      exact lt_irrefl _ hlt

theorem walk_walked (visit : List (TreeCall κ ω) → Bool) (hs : Sorted t.flat)
    (calls : List (TreeCall κ ω)) : Walked visit c1 t calls (t.walk visit c1 calls) := by
  induction t generalizing calls with
  | null =>
    have h : Walked visit c1 null calls (some (calls ++ [])) :=
      .through (by rw [flat, firsts, List.flatMap_nil, heed, List.append_nil])
    rwa [List.append_nil] at h
  | node small obj level large ihs ihl =>
    obtain ⟨hsm, hla, hne, hu, hbef, haft, -⟩ := sorted_middle.mp hs
    cases obj with
    | nil => exact absurd rfl hne
    | cons o chain =>
      have hhere : ∀ y ∈ o :: chain, y.cond = o.cond := fun y hy => hu y hy o List.mem_cons_self
      have hless : ∀ y ∈ small.flat.flatten, y.cond < o.cond := fun y hy =>
        before_all hbef y hy o List.mem_cons_self
      have hgreater : ∀ y ∈ large.flat.flatten, o.cond < y.cond := fun y hy => by
        obtain ⟨b, hb, hy⟩ := List.mem_flatten.mp hy
        exact haft b hb o List.mem_cons_self y hy
      -- what is called from the element itself and from the large child
      have hrest : heed visit calls (firsts c1 small.flat) =
            (calls ++ firsts c1 small.flat, false) →
          Walked visit c1 (node small (o :: chain) level large) calls
            (walkOn visit c1 o chain (fun calls => large.walk visit c1 calls)
              (calls ++ firsts c1 small.flat)) := by
        intro hsmall
        rw [walkOn]
        by_cases hle : c1 ≤ o.cond
        · rw [if_pos hle, walkChain_eq, ← firsts_chain hle]
          rcases heed_cases visit (calls ++ firsts c1 small.flat) (firsts c1 [o :: chain]) with
            hh | ⟨l₁, x, l₂, hl, hh, -⟩
          · rw [hh, if_neg Bool.false_ne_true, List.append_assoc]
            refine Walked.go_on hgreater hhere rfl ?_ (ihl hla _)
            rw [heed_append hsmall, hh, List.append_assoc]
          · have hx : x ∈ firsts c1 [o :: chain] := hl ▸ List.mem_append_right l₁ List.mem_cons_self
            have hxo : x.1 = o.cond := by
              obtain ⟨y, hy, hxy⟩ := cond_of_firsts hx
              rw [List.flatten_singleton] at hy
              exact hxy.trans (hhere y hy)
            have hend : Walked visit c1 (node small (o :: chain) level large) calls
                (some (calls ++ (firsts c1 small.flat ++ l₁) ++ [x] ++ [])) := by
              refine .stopped _ (l₂ ++ firsts c1 large.flat) x ?_ ?_ [] (iff_of_true rfl ?_)
              · rw [firsts_node, hl]
                simp only [List.append_assoc, List.cons_append]
              · rw [firsts_node, heed_append hsmall, heed_append_stopped hh, List.append_assoc calls]
              · exact List.mem_append_left _ (List.mem_map.mpr ⟨o, List.mem_cons_self, hxo.symm⟩)
            rw [hh, if_pos rfl]
            rwa [List.append_nil, ← List.append_assoc] at hend
        · have hnil : firsts c1 [o :: chain] = [] := by
            refine firsts_below fun y hy => ?_
            rw [List.flatten_singleton] at hy
            exact hhere y hy ▸ not_le.mp hle
          rw [if_neg hle]
          exact Walked.go_on hgreater hhere (by rw [hnil, List.append_nil]) hsmall (ihl hla _)
      rw [walk]
      by_cases hlt : c1 < o.cond
      · rw [if_pos hlt]
        have hw := ihs hsm calls
        generalize small.walk visit c1 calls = r at hw
        cases hw with
        | through heard => exact hrest heard
        | stopped l m x split heard more ends =>
          have hcalls : ∃ e ≠ [], walkOn visit c1 o chain (fun calls => large.walk visit c1 calls)
              (calls ++ l ++ [x] ++ more) = some (calls ++ l ++ [x] ++ more ++ e) :=
            walkOn_calls (le_of_lt hlt) (fun q => (ihl hla q).some_append) _
          obtain ⟨e, he, hr⟩ := hcalls
          rw [Option.bind_some, hr, List.append_assoc (calls ++ l ++ [x])]
          refine .stopped l (m ++ (firsts c1 [o :: chain] ++ firsts c1 large.flat)) x ?_ ?_ _
            (iff_of_false ?_ ?_)
          · rw [firsts_node, split, List.append_assoc]
            rfl
          · rw [firsts_node]
            exact heed_append_stopped heard
          · exact fun hn => he (List.append_eq_nil_iff.mp hn).2
          · -- the small child comes before all that is reached by large links
            intro hx
            have hm : x ∈ firsts c1 small.flat := split ▸ List.mem_append_right l List.mem_cons_self
            obtain ⟨y, hy, hxy⟩ := cond_of_firsts hm
            have hxlt : x.1 < o.cond := hxy ▸ hless y hy
            rcases List.mem_append.mp hx with hx | hx
            · obtain ⟨z, hz, hzx⟩ := List.mem_map.mp hx
              exact absurd (hzx ▸ hhere z hz) (ne_of_lt hxlt)
            · obtain ⟨z, hz, hzx⟩ := cond_of_spine hx
              exact absurd (hzx ▸ hgreater z hz) (not_lt_of_gt hxlt)
      · have hnil : firsts c1 small.flat = [] :=
          firsts_below fun y hy => lt_of_lt_of_le (hless y hy) (not_lt.mp hlt)
        have h := hrest (by rw [hnil, heed, List.append_nil])
        rw [hnil, List.append_nil] at h
        rwa [if_neg hlt]

-- ---------------------------------------------------------------------------
-- Calls that should be made, and that are
-- ---------------------------------------------------------------------------

/-- Both go through the same conditions. -/
theorem firsts_conds (hs : Sorted L) :
    (firsts c1 L).map Prod.fst = (storedFrom c1 L).map Prod.fst := by
  induction L with
  | nil => rfl
  | cons chain L ih =>
    obtain ⟨-, hL, hne, hu, -⟩ := sorted_middle.mp (show Sorted ([] ++ chain :: L) from hs)
    rw [firsts_cons, List.map_append, ih hL, storedFrom, storedFrom, List.flatten_cons,
      List.filter_append, List.map_append, List.map_append]
    congr 1
    obtain ⟨o, rest, rfl⟩ := List.exists_cons_of_ne_nil hne
    by_cases hle : c1 ≤ o.cond
    · rw [firsts_chain hle, List.filter_eq_self.mpr, List.map_map, List.map_map]
      · exact List.map_congr_left fun y hy => hu o List.mem_cons_self y hy
      · exact fun y hy => decide_eq_true (hu o List.mem_cons_self y hy ▸ hle)
    · have hnil : firsts c1 [o :: rest] = [] := by
        refine firsts_below fun y hy => ?_
        rw [List.flatten_singleton] at hy
        exact hu o List.mem_cons_self y hy ▸ not_le.mp hle
      rw [hnil, List.filter_eq_nil_iff.mpr]
      · rfl
      · exact fun y hy h => hle (hu o List.mem_cons_self y hy ▸ of_decide_eq_true h)

theorem storedFrom_ascending (hs : Sorted L) :
    (storedFrom c1 L).Pairwise fun x y => x.1 ≤ y.1 := by
  have hflat : L.flatten.Pairwise fun x y => x.cond ≤ y.cond := by
    refine List.pairwise_flatten.mpr ⟨fun a ha => ?_, hs.ascending.imp fun h x hx y hy =>
      le_of_lt (h x hx y hy)⟩
    exact List.pairwise_of_forall_mem_list fun x hx y hy => le_of_eq (hs.uniform a ha x hx y hy)
  exact List.pairwise_map.mpr (hflat.filter _)

theorem firsts_ascending (hs : Sorted L) : (firsts c1 L).Pairwise fun x y => x.1 ≤ y.1 := by
  have hm : ((storedFrom c1 L).map Prod.fst).Pairwise (· ≤ ·) :=
    List.pairwise_map.mpr (storedFrom_ascending hs)
  rw [← firsts_conds hs] at hm
  exact List.pairwise_map.mp hm

variable [DecidableEq ω]

/-- Calls that come no oftener than what is stored can be followed by the rest of it. -/
theorem exists_rest {R S p q : List (TreeCall κ ω)} (hR : R = p ++ q)
    (hm : R.map Prod.fst = S.map Prod.fst) (hS : S.Pairwise fun x y => x.1 ≤ y.1)
    (hp : ∀ x ∈ p, p.count x ≤ S.count x) :
    (p ++ S.diff p).Perm S ∧ (p ++ S.diff p).Pairwise fun x y => x.1 ≤ y.1 := by
  have hperm : (p ++ S.diff p).Perm S := List.subperm_append_diff_self_of_count_le hp
  have hasc : (p ++ q).Pairwise fun x y => x.1 ≤ y.1 := by
    rw [← hR]
    refine List.pairwise_map.mp ?_
    rw [hm]
    exact List.pairwise_map.mpr hS
  obtain ⟨hpp, -, hpq⟩ := List.pairwise_append.mp hasc
  refine ⟨hperm, List.pairwise_append.mpr ⟨hpp, hS.sublist (List.diff_sublist S p), ?_⟩⟩
  intro x hx y hy
  by_contra hlt
  -- then the condition of `y` comes again behind that of `x`
  have hcount : (q.map Prod.fst).count y.1 = ((S.diff p).map Prod.fst).count y.1 := by
    have h := (hperm.map Prod.fst).count_eq y.1
    rw [← hm, hR, List.map_append, List.map_append, List.count_append, List.count_append] at h
    omega
  have hpos : 0 < (q.map Prod.fst).count y.1 := by
    rw [hcount]
    exact List.count_pos_iff.mpr (List.mem_map_of_mem hy)
  obtain ⟨z, hz, hzy⟩ := List.mem_map.mp (List.count_pos_iff.mp hpos)
  exact hlt (hzy ▸ hpq x hx z hz)

/-- The walk makes the calls that it should make if and only if it goes straight. -/
theorem visits_iff (visit : List (TreeCall κ ω) → Bool) (hs : Sorted t.flat) :
    Visits visit c1 t ↔ Straight visit c1 t := by
  have hw : Walked visit c1 t [] (t.walk visit c1 []) := walk_walked visit hs []
  have hm : (firsts c1 t.flat).map Prod.fst = (storedFrom c1 t.flat).map Prod.fst := firsts_conds hs
  have hS : (storedFrom c1 t.flat).Pairwise fun x y => x.1 ≤ y.1 := storedFrom_ascending hs
  constructor
  · rintro ⟨E, hperm, -, hwalk⟩
    obtain ⟨k, hk, hpre⟩ := heed_prefix visit [] E
    rw [List.nil_append] at hk
    rw [hwalk, hk] at hw
    have hcount : ∀ {p}, p <+: k → ∀ x, p.count x ≤ (storedFrom c1 t.flat).count x := by
      intro p hp x
      rw [← hperm.count_eq x]
      exact (hp.trans hpre).sublist.count_le x
    cases hw with
    | through heard =>
      rw [List.nil_append] at heard hcount
      rw [Straight, heard]
      exact ⟨fun x _ => hcount List.prefix_rfl x, nofun⟩
    | stopped l m x split heard more ends =>
      rw [List.nil_append] at heard hk hcount
      have hstop : visit (l ++ [x]) = true := by
        rcases heed_cases visit [] (firsts c1 t.flat) with h | ⟨l₁, y, l₂, -, h, hv⟩
        · rw [heard] at h
          cases congrArg Prod.snd h
        · rw [heard] at h
          have he : l ++ [x] = [] ++ l₁ ++ [y] := congrArg Prod.fst h
          rwa [← he] at hv
      have hfirst : (heed visit [] E).1 = [] ++ (l ++ [x]) :=
        heed_first (by simp) hstop (hk ▸ ⟨more, rfl⟩)
      have hmore : more = [] := by
        rw [hk] at hfirst
        exact List.append_right_eq_self.mp hfirst
      rw [Straight, heard]
      refine ⟨fun y _ => hcount ⟨more, rfl⟩ y, fun _ y hy => ?_⟩
      rw [List.getLast?_concat] at hy
      obtain rfl := Option.some.inj hy
      exact ends.mp hmore
  · rintro ⟨hcount, hspine⟩
    unfold Visits
    generalize t.walk visit c1 [] = r at hw
    cases hw with
    | through heard =>
      rw [List.nil_append] at heard
      rw [heard] at hcount
      obtain ⟨hperm, hasc⟩ := exists_rest (List.append_nil _).symm hm hS hcount
      have hnil : (storedFrom c1 t.flat).diff (firsts c1 t.flat) = [] := by
        have hlen := hperm.length_eq
        have hlen' := congrArg List.length hm
        rw [List.length_map, List.length_map] at hlen'
        rw [List.length_append] at hlen
        exact List.eq_nil_of_length_eq_zero (by omega)
      rw [hnil, List.append_nil] at hperm hasc
      exact ⟨_, hperm, hasc, by rw [heard, List.nil_append]⟩
    | stopped l m x split heard more ends =>
      rw [List.nil_append] at heard
      rw [heard] at hcount hspine
      have hsplit : firsts c1 t.flat = l ++ [x] ++ m := by rw [split, List.append_cons]
      obtain ⟨hperm, hasc⟩ := exists_rest hsplit hm hS hcount
      have hmore : more = [] := ends.mpr (hspine rfl x (by rw [List.getLast?_concat]; rfl))
      refine ⟨_, hperm, hasc, ?_⟩
      rw [split] at heard
      have hE : heed visit [] (l ++ x :: (storedFrom c1 t.flat).diff (l ++ [x])) =
          (l ++ [x], true) := heed_stop heard _
      rw [List.append_cons] at hE
      rw [hE, hmore, List.append_nil, List.nil_append]

end BalancedTreeElement

namespace StdBalancedTree

open BalancedTreeElement

variable {κ ω : Type} [LinearOrder κ] [BoundedOrder κ] [DecidableEq ω] {t : StdBalancedTree κ ω}
  {tr : List (BalancedTreeObs κ ω)}

/-- As long as no deletion takes the only object of a chain, a walk from any bound with any
visitor makes the calls that it should make if and only if no object is the first of its chain
more often than it is stored there, up to the first stop, and this is at an element reached
from the top by large links only. -/
theorem walk_law (h : (machine κ ω).RunIf Spares tr t) (visit : List (TreeCall κ ω) → Bool)
    (c1 : κ) : Visits visit c1 t.top ↔ Straight visit c1 t.top :=
  visits_iff visit (run_holds h).sorted

/-- Three conditions, and a visitor that stops at the second call. -/
theorem walk_law_stopped : ∃ tr t, (machine Number Nat).RunIf Spares tr t ∧
    t.top.walk (fun calls => calls.length == 2) ⊥ [] =
      some [(number 1, some 10), (number 2, some 20)] ∧
    (Visits (fun calls => calls.length == 2) ⊥ t.top ↔
      Straight (fun calls => calls.length == 2) ⊥ t.top) := by
  obtain ⟨tr, t, hr, hc⟩ := Machine.exists_run (M := machine Number Nat) (C := Spares)
    (P := fun _ t => t.top.walk (fun calls => calls.length == 2) ⊥ [] =
      some [(number 1, some 10), (number 2, some 20)])
    [.ins ⟨number 1, some 10⟩, .ins ⟨number 2, some 20⟩, .ins ⟨number 3, some 30⟩]
    (s := ⟨false, .null, 0⟩) ⟨rfl, rfl⟩ (by decide +kernel)
  exact ⟨tr, t, hr, hc, walk_law hr _ _⟩

set_option synthInstance.maxSize 1000 in
/-- The second object is called for twice, and the first never; and a visitor that stops at
once is called again. -/
theorem walk_astray :
    (∃ tr t, (machine Number Nat).RunIf Spares tr t ∧ t.top.walk (fun _ => false) ⊥ [] =
        some [(number 1, some 11), (number 1, some 11)] ∧ ¬ Visits (fun _ => false) ⊥ t.top) ∧
      ∃ tr t, (machine Number Nat).RunIf Spares tr t ∧ t.top.walk (fun _ => true) ⊥ [] =
        some [(number 1, some 10), (number 2, some 20)] ∧ ¬ Visits (fun _ => true) ⊥ t.top := by
  refine ⟨?_, ?_⟩
  · obtain ⟨tr, t, hr, hc, hn⟩ := Machine.exists_run (M := machine Number Nat) (C := Spares)
      (P := fun _ t => t.top.walk (fun _ => false) ⊥ [] =
          some [(number 1, some 11), (number 1, some 11)] ∧ ¬ Straight (fun _ => false) ⊥ t.top)
      [.ins ⟨number 1, some 10⟩, .ins ⟨number 1, some 11⟩]
      (s := ⟨true, .null, 0⟩) ⟨rfl, rfl⟩ (by decide +kernel)
    exact ⟨tr, t, hr, hc, mt (visits_iff _ (run_holds hr).sorted).mp hn⟩
  · obtain ⟨tr, t, hr, hc, hn⟩ := Machine.exists_run (M := machine Number Nat) (C := Spares)
      (P := fun _ t => t.top.walk (fun _ => true) ⊥ [] =
          some [(number 1, some 10), (number 2, some 20)] ∧ ¬ Straight (fun _ => true) ⊥ t.top)
      [.ins ⟨number 2, some 20⟩, .ins ⟨number 1, some 10⟩]
      (s := ⟨false, .null, 0⟩) ⟨rfl, rfl⟩ (by decide +kernel)
    exact ⟨tr, t, hr, hc, mt (visits_iff _ (run_holds hr).sorted).mp hn⟩

end StdBalancedTree

end TinyState
