import TinyState.Containers.BalancedTree

/-!
# The typed tree files everything under one condition

`stdBalancedTree<…>` wraps the untyped tree: an insertion and a deletion make an object of
their own, `stdBalancedTreeObject`, and do not hand it the condition that they were given. The
object's condition is the one its type makes by default, so all objects lie in one chain,
while a search asks for the condition it was given.
-/

namespace TinyState.TypedTree

open Transition Chains BalancedTreeElement StdBalancedTree

variable {κ ω : Type}

/-- What `search` and `del` return: an object or null, or a queue or null. -/
inductive Ret (ω : Type)
  | obj (o : Option ω)
  | queue (q : Option (List (Option ω)))
  deriving DecidableEq, Repr

/-- The object of the first one returned. -/
def first (ret : BalancedTreeChain κ ω) : Option ω := ret.head?.bind (·.obj)

/-- What the two templates make of the untyped result. -/
def returned (enabledEqu : Bool) (ret : BalancedTreeChain κ ω) : Ret ω :=
  if enabledEqu then .queue (if ret = [] then none else some (ret.map (·.obj)))
  else .obj (first ret)

/-- `stdBalancedTreeObject(obj)`: the base gets a reference to the member `cond`, which is
made by the default constructor of its type. -/
def stdBalancedTreeObject (default : κ) (obj : Option ω) : BalancedTreeObject κ ω :=
  ⟨default, obj⟩

/-- What is seen of a call. -/
inductive Obs (κ ω : Type)
  | found (cond : κ) (ret : Ret ω)
  | inserted (cond : κ) (obj : Option ω) (ret : Option ω)
  | deleted (cond : κ) (obj : Option ω) (ret : Ret ω)
  | crashed
  deriving DecidableEq, Repr

inductive Act (κ ω : Type)
  | search (inp : κ)
  | ins (cond : κ) (obj : Option ω)
  | del (cond : κ) (obj : Option ω)
  deriving DecidableEq, Repr

section Calls

variable [LinearOrder κ]

def search (t : StdBalancedTree κ ω) (inp : κ) : Option (Ret ω) :=
  (t.search inp).map (returned t.enabledEqu)

/-- `ins(cond, obj)`; `cond` is not used. -/
def ins (default : κ) (t : StdBalancedTree κ ω) (_cond : κ) (obj : Option ω) :
    Option (Option ω × StdBalancedTree κ ω) :=
  (t.ins (stdBalancedTreeObject default obj)).map fun r => (first r.1, r.2)

variable [BoundedOrder κ] [DecidableEq ω]

/-- `del(cond, obj)`; `cond` is not used. -/
def del (default : κ) (t : StdBalancedTree κ ω) (_cond : κ) (obj : Option ω) :
    Option (Ret ω × StdBalancedTree κ ω) :=
  (t.del (stdBalancedTreeObject default obj)).map fun r => (returned t.enabledEqu r.1, r.2)

def step (default : κ) (t : StdBalancedTree κ ω) :
    Act κ ω → Option (StdBalancedTree κ ω × List (Obs κ ω))
  | .search inp =>
    match search t inp with
    | some ret => some (t, [.found inp ret])
    | none => some (t, [.crashed])
  | .ins cond obj =>
    match ins default t cond obj with
    | some (ret, u) => some (u, [.inserted cond obj ret])
    | none => some (t, [.crashed])
  | .del cond obj =>
    match del default t cond obj with
    | some (ret, u) => some (u, [.deleted cond obj ret])
    | none => some (t, [.crashed])

def machine (default : κ) :
    Machine (StdBalancedTree κ ω) (Act κ ω) (Obs κ ω) where
  init t := t.top = .null ∧ t.count = 0
  step := step default

end Calls

-- ---------------------------------------------------------------------------
-- What the calls ask for
-- ---------------------------------------------------------------------------

section Stock

variable [LinearOrder κ] [BoundedOrder κ] [DecidableEq ω]

/-- The stock by the conditions that the calls were given. Where equal conditions are not
enabled, an insertion under one that is there is refused. -/
noncomputable def wanted₁ (enabledEqu : Bool) (m : BalancedTreeStock κ ω) :
    Obs κ ω → BalancedTreeStock κ ω
  | .inserted cond obj _ =>
    if enabledEqu = false ∧ m cond ≠ [] then m else m.inserted ⟨cond, obj⟩
  | .deleted cond obj _ => m.deleted ⟨cond, obj⟩
  | .found .. | .crashed => m

noncomputable def wanted (enabledEqu : Bool) (tr : List (Obs κ ω)) : BalancedTreeStock κ ω :=
  tr.foldl (wanted₁ enabledEqu) fun _ => []

theorem wanted_append (enabledEqu : Bool) (tr : List (Obs κ ω)) (o : Obs κ ω) :
    wanted enabledEqu (tr ++ [o]) = wanted₁ enabledEqu (wanted enabledEqu tr) o :=
  List.foldl_append

variable {m : BalancedTreeStock κ ω} {d c : κ} {obj r : Option ω} {enabledEqu : Bool}

theorem wanted₁_ne (hc : c ≠ d) : wanted₁ enabledEqu m (.inserted d obj r) c = m c := by
  rw [wanted₁]
  split
  · rfl
  · exact Function.update_of_ne hc _ _

theorem wanted₁_self (hd : m d = []) : wanted₁ enabledEqu m (.inserted d obj r) d = [obj] := by
  simp [wanted₁, hd, BalancedTreeStock.inserted]

/-- Each condition finds what was stored under it and nothing else. -/
def Finds (tr : List (Obs κ ω)) (t : StdBalancedTree κ ω) : Prop :=
  ∀ c, t.search c = some ((wanted t.enabledEqu tr c).map (.mk c))

/-- The call does not depend on the condition that gets lost: it is the default one, or there
is nothing to delete under either. A deletion does not ask for the only object either. -/
def Carried (default : κ) (t : StdBalancedTree κ ω) : Act κ ω → Prop
  | .search _ => True
  | .ins cond _ => cond = default
  | .del cond obj =>
    Leaves t.top.flat ⟨default, obj⟩ ∧
      (cond = default ∨ cond = ⊤ ∨ cond = ⊥ ∨ t.objects = [] ∨
        (obj.isSome ∧ obj ∉ t.objects.map (·.obj)))

instance (default : κ) (t : StdBalancedTree κ ω) (a : Act κ ω) :
    Decidable (Carried default t a) :=
  match a with
  | .search _ => .isTrue trivial
  | .ins cond _ => inferInstanceAs (Decidable (cond = default))
  | .del _ _ => inferInstanceAs (Decidable (_ ∧ _))

-- ---------------------------------------------------------------------------
-- A stock of one condition
-- ---------------------------------------------------------------------------

omit [DecidableEq ω] in
theorem target_one (hm : ∀ c, c ≠ d → m c = []) (hd : m d ≠ []) (hc : c = d ∨ c = ⊤ ∨ c = ⊥) :
    m.target c = some d := by
  have hall : ∀ k, m k ≠ [] → k = d := fun k hk => by
    by_contra hne
    exact hk (hm k hne)
  apply BalancedTreeStock.Target.target_eq
  refine ⟨hd, ?_⟩
  rcases hc with rfl | rfl | rfl
  · exact .inl rfl
  · exact .inr (.inl ⟨rfl, fun k hk => le_of_eq (hall k hk)⟩)
  · exact .inr (.inr ⟨rfl, fun k hk => le_of_eq (hall k hk).symm⟩)

omit [DecidableEq ω] in
theorem target_other (hm : ∀ c, c ≠ d → m c = []) (hc : ¬ (c = d ∨ c = ⊤ ∨ c = ⊥)) :
    m.target c = none := by
  apply BalancedTreeStock.target_eq_none
  rintro k ⟨hk, rfl | ⟨rfl, -⟩ | ⟨rfl, -⟩⟩
  · exact hk (hm k fun h => hc (.inl h))
  · exact hc (.inr (.inl rfl))
  · exact hc (.inr (.inr rfl))

omit [DecidableEq ω] in
theorem target_nil (h : ∀ c, m c = []) : m.target c = none :=
  BalancedTreeStock.target_eq_none fun k hk => hk.1 (h k)

theorem deleted_one (hm : ∀ c, c ≠ d → m c = []) (hd : m d ≠ []) (hc : c = d ∨ c = ⊤ ∨ c = ⊥) :
    m.deleted ⟨c, obj⟩ = Function.update m d (if obj.isSome then (m d).erase obj else []) := by
  rw [BalancedTreeStock.deleted, target_one hm hd hc]

theorem deleted_other (hm : ∀ c, c ≠ d → m c = []) (hc : ¬ (c = d ∨ c = ⊤ ∨ c = ⊥)) :
    m.deleted ⟨c, obj⟩ = m := by
  rw [BalancedTreeStock.deleted, target_other hm hc]

/-- A deletion under the condition given takes what one under the default condition takes
exactly where there is nothing to tell them apart. -/
theorem deleted_eq_iff (hm : ∀ c, c ≠ d → m c = []) :
    m.deleted ⟨c, obj⟩ = m.deleted ⟨d, obj⟩ ↔
      c = d ∨ c = ⊤ ∨ c = ⊥ ∨ m d = [] ∨ (obj.isSome ∧ obj ∉ m d) := by
  by_cases hd : m d = []
  · have hnil : ∀ c, m c = [] := fun c => by
      by_cases hc : c = d
      · rw [hc, hd]
      · exact hm c hc
    simp [BalancedTreeStock.deleted, target_nil hnil, hd]
  · by_cases hc : c = d ∨ c = ⊤ ∨ c = ⊥
    · rw [deleted_one hm hd hc, deleted_one hm hd (.inl rfl)]
      simp only [true_iff]
      tauto
    · rw [deleted_other hm hc, deleted_one hm hd (.inl rfl)]
      constructor
      · intro he
        have hmd := congrFun he d
        rw [Function.update_self] at hmd
        cases obj with
        | none => exact absurd hmd hd
        | some o =>
          refine .inr (.inr (.inr (.inr ⟨rfl, fun hmem => ?_⟩)))
          have hlen := List.length_erase_of_mem hmem
          have hpos := List.length_pos_of_mem hmem
          rw [Option.isSome_some, if_pos rfl] at hmd
          rw [← hmd] at hlen
          exact absurd hlen (Nat.ne_of_gt (Nat.sub_lt hpos Nat.one_pos))
      · intro h
        have hobj : obj.isSome ∧ obj ∉ m d := by tauto
        rw [if_pos hobj.1, List.erase_of_not_mem hobj.2, Function.update_eq_self]

-- ---------------------------------------------------------------------------
-- The invariant
-- ---------------------------------------------------------------------------

variable {t u : StdBalancedTree κ ω} {tr : List (Obs κ ω)} {os : List (Obs κ ω)}

/-- The untyped tree is in order, it holds what the calls ask for, and that under the default
condition alone. -/
structure Kept (d : κ) (tr : List (Obs κ ω)) (t : StdBalancedTree κ ω) : Prop where
  untyped : ∃ calls, Holds calls t ∧ stock calls = wanted t.enabledEqu tr
  alone : ∀ c, c ≠ d → wanted t.enabledEqu tr c = []

theorem Kept.finds (h : Kept d tr t) : Finds tr t := by
  obtain ⟨calls, hh, hst⟩ := h.untyped
  intro c
  rw [hh.search, hst]

/-- An insertion does not crash, and it stores under the default condition. -/
theorem ins_stock {calls : List (BalancedTreeObs κ ω)} (h : Holds calls t)
    (inp : BalancedTreeObject κ ω) :
    ∃ ret u more, t.ins inp = some (ret, u) ∧ u.enabledEqu = t.enabledEqu ∧
      Holds (calls ++ more) u ∧
      stock (calls ++ more) =
        if t.enabledEqu = false ∧ stock calls inp.cond ≠ [] then stock calls
        else (stock calls).inserted inp := by
  obtain ⟨ret, u, hr, he⟩ : ∃ ret u, t.ins inp = some (ret, u) ∧ u.enabledEqu = t.enabledEqu := by
    unfold StdBalancedTree.ins
    split
    · exact ⟨_, _, rfl, rfl⟩
    · obtain ⟨ret, e, hr, -, -⟩ := ins_spec t.enabledEqu inp h.sorted h.leveled
      rw [hr]
      exact ⟨_, _, rfl, rfl⟩
  have hstep : t.step (.ins inp) = some (u, [if t.top.isNull then .first inp ret
      else if ret = [] then .added inp else .refused inp ret]) := by
    rw [StdBalancedTree.step, hr]
  have hh := h.ins hstep
  have hright := hh.answers calls _ [] rfl
  refine ⟨ret, u, _, hr, he, hh, ?_⟩
  rw [stock_append]
  split
  · rename_i hnull
    rw [if_pos hnull] at hright
    rw [if_neg fun hc => hc.2 (hright.1 _)]
    rfl
  · rename_i hnull
    rw [if_neg hnull] at hright
    split
    · rename_i hret
      rw [if_pos hret] at hright
      rw [if_neg]
      · rfl
      · rintro ⟨hf, hne⟩
        rw [he, hf] at hright
        exact hne (hright.2.resolve_left (fun h => by cases h))
    · rename_i hret
      rw [if_neg hret, he] at hright
      rw [if_pos ⟨hright.1, hright.2.1⟩]
      rfl

theorem Kept.ins (h : Kept d tr t) (cond : κ)
    (hs : step d t (.ins cond obj) = some (u, os)) :
    ∃ calls ret, Holds calls u ∧ u.enabledEqu = t.enabledEqu ∧ os = [.inserted cond obj ret] ∧
      stock calls = wanted₁ t.enabledEqu (wanted t.enabledEqu tr) (.inserted d obj ret) := by
  obtain ⟨calls, hh, hst⟩ := h.untyped
  obtain ⟨ret, v, more, hr, he, hv, hnew⟩ := ins_stock hh ⟨d, obj⟩
  simp only [step, TypedTree.ins, stdBalancedTreeObject, hr, Option.map_some] at hs
  cases hs
  rw [hst] at hnew
  exact ⟨calls ++ more, first ret, hv, he, rfl, hnew⟩

/-- A deletion does not crash, and it takes what it asks for under the default condition. -/
theorem Kept.del (h : Kept d tr t) (cond : κ)
    (hs : step d t (.del cond obj) = some (u, os)) :
    ∃ ret, u.enabledEqu = t.enabledEqu ∧ os = [.deleted cond obj ret] ∧
      (∃ chain, Deletes ⟨d, obj⟩ t.top.flat chain u.top.flat) ∧
      (Leaves t.top.flat ⟨d, obj⟩ → ∃ calls, Holds calls u ∧
        stock calls = (wanted t.enabledEqu tr).deleted ⟨d, obj⟩) := by
  obtain ⟨calls, hh, hst⟩ := h.untyped
  obtain ⟨chain, v, hr, he, -, hd, -⟩ := del_eq hh ⟨d, obj⟩
  have hstep : t.step (.del ⟨d, obj⟩) = some (v, [.deleted ⟨d, obj⟩ chain]) := by
    rw [StdBalancedTree.step, hr]
  simp only [step, TypedTree.del, stdBalancedTreeObject, hr, Option.map_some] at hs
  cases hs
  refine ⟨_, he, rfl, ⟨chain, hd⟩, fun hl => ⟨_, hh.del hl hstep, ?_⟩⟩
  rw [stock_append, hst]
  rfl

theorem Kept.held (h : Kept d tr t) : held t.top.flat = wanted t.enabledEqu tr := by
  obtain ⟨calls, hh, hst⟩ := h.untyped
  exact hh.held.trans hst

theorem Kept.cond_eq (h : Kept d tr t) {o : BalancedTreeObject κ ω} (ho : o ∈ t.objects) :
    o.cond = d := by
  by_contra hne
  refine held_ne_nil.mpr ⟨o, ho, rfl⟩ ?_
  rw [h.held]
  exact h.alone o.cond hne

theorem Kept.objects_eq (h : Kept d tr t) :
    t.objects.map (·.obj) = wanted t.enabledEqu tr d := by
  rw [← h.held, BalancedTreeElement.held, BalancedTreeElement.under, Chains.under]
  refine congrArg (List.map _) (List.filter_eq_self.mpr fun o ho => ?_).symm
  exact decide_eq_true (h.cond_eq ho)

/-- The tree has one element at most. -/
theorem Kept.flat_eq (h : Kept d tr t) : t.top.flat = [] ∨ ∃ a, t.top.flat = [a] := by
  obtain ⟨calls, hh, -⟩ := h.untyped
  have hs := hh.sorted
  have hall : ∀ a ∈ t.top.flat, ∀ o ∈ a, o.cond = d :=
    fun a ha o ho => h.cond_eq (List.mem_flatten.mpr ⟨a, ha, ho⟩)
  cases hf : t.top.flat with
  | nil => exact .inl rfl
  | cons a L =>
    cases L with
    | nil => exact .inr ⟨a, rfl⟩
    | cons b M =>
      rw [hf] at hs hall
      obtain ⟨-, -, -, -, -, haft, -⟩ := sorted_middle (L := []).mp hs
      obtain ⟨x, hx⟩ := List.exists_mem_of_ne_nil _ (hs.filled a (by simp))
      obtain ⟨y, hy⟩ := List.exists_mem_of_ne_nil _ (hs.filled b (by simp))
      have hlt := haft b List.mem_cons_self x hx y hy
      rw [hall a (by simp) x hx, hall b (by simp) y hy] at hlt
      exact absurd hlt (lt_irrefl d)

/-- Where a deletion takes the only object, the next search crashes. -/
theorem Kept.crashes (h : Kept d tr t) {chain : BalancedTreeChain κ ω}
    (hd : Deletes ⟨d, obj⟩ t.top.flat chain u.top.flat) (hl : ¬ Leaves t.top.flat ⟨d, obj⟩) :
    u.search c = none := by
  obtain ⟨calls, hh, -⟩ := h.untyped
  have hnil := hd.emptied hh.sorted hl
  have hlen : u.top.flat.length ≤ 1 := by
    have ht : t.top.flat.length ≤ 1 := by
      rcases h.flat_eq with hf | ⟨a, hf⟩
      · simp [hf]
      · simp [hf]
    refine le_trans ?_ ht
    generalize t.top.flat = L, u.top.flat = L' at hd
    cases hd with
    | none | missing => exact le_rfl
    | object => simp
    | whole => simp
  rw [StdBalancedTree.search]
  cases hu : u.top with
  | null =>
    rw [hu] at hnil
    cases hnil
  | node small chain level large =>
    rw [hu, flat] at hnil hlen
    simp only [List.length_append, List.length_cons] at hlen
    have hs : small.flat = [] := List.length_eq_zero_iff.mp (by omega)
    have hb : large.flat = [] := List.length_eq_zero_iff.mp (by omega)
    rw [hs, hb] at hnil
    rw [← List.mem_singleton.mp hnil]
    rfl

-- ---------------------------------------------------------------------------
-- The steps
-- ---------------------------------------------------------------------------

theorem Kept.step (h : Kept d tr t) {a : Act κ ω} (hc : Carried d t a)
    (hs : step d t a = some (u, os)) : Kept d (tr ++ os) u := by
  cases a with
  | search inp =>
    obtain ⟨calls, hh, hst⟩ := h.untyped
    simp only [TypedTree.step, TypedTree.search, hh.search, Option.map_some] at hs
    cases hs
    refine ⟨⟨calls, hh, ?_⟩, fun c hc => ?_⟩
    · rw [wanted_append]
      exact hst
    · rw [wanted_append]
      exact h.alone c hc
  | ins cond obj =>
    obtain ⟨calls, ret, hu, he, rfl, hst⟩ := h.ins cond hs
    obtain rfl : cond = d := hc
    refine ⟨⟨calls, hu, ?_⟩, fun c hne => ?_⟩
    · rw [he, wanted_append]
      exact hst
    · rw [he, wanted_append, wanted₁_ne hne]
      exact h.alone c hne
  | del cond obj =>
    obtain ⟨ret, he, rfl, -, hdel⟩ := h.del cond hs
    obtain ⟨calls, hu, hst⟩ := hdel hc.1
    have heq : (wanted t.enabledEqu tr).deleted ⟨cond, obj⟩ =
        (wanted t.enabledEqu tr).deleted ⟨d, obj⟩ := by
      apply (deleted_eq_iff h.alone).mpr
      rw [← h.objects_eq, List.map_eq_nil_iff]
      exact hc.2
    refine ⟨⟨calls, hu, ?_⟩, fun c hne => ?_⟩
    · rw [he, wanted_append, hst]
      exact heq.symm
    · rw [he, wanted_append, wanted₁, heq]
      have hle := deleted_length_le (wanted t.enabledEqu tr) ⟨d, obj⟩ c
      rw [h.alone c hne] at hle
      exact List.length_eq_zero_iff.mp (Nat.le_zero.mp hle)

/-- After a call that does depend on its condition, some search goes wrong. -/
theorem Kept.carried (h : Kept d tr t) {a : Act κ ω} (hs : TypedTree.step d t a = some (u, os))
    (hf : Finds (tr ++ os) u) : Carried d t a := by
  cases a with
  | search => trivial
  | ins cond obj =>
    obtain ⟨calls, ret, hu, he, rfl, hst⟩ := h.ins cond hs
    by_contra hne
    have hnil := h.alone cond hne
    have hfound := hf cond
    rw [hu.search, hst, he, wanted_append, wanted₁_self hnil, wanted₁_ne hne, hnil] at hfound
    cases hfound
  | del cond obj =>
    obtain ⟨ret, he, rfl, ⟨chain, hd⟩, hdel⟩ := h.del cond hs
    have hl : Leaves t.top.flat ⟨d, obj⟩ := by
      by_contra hl
      have hfound := hf d
      rw [h.crashes hd hl] at hfound
      cases hfound
    obtain ⟨calls, hu, hst⟩ := hdel hl
    refine ⟨hl, ?_⟩
    have heq : (wanted t.enabledEqu tr).deleted ⟨cond, obj⟩ =
        (wanted t.enabledEqu tr).deleted ⟨d, obj⟩ := by
      funext c
      have hfound := hf c
      rw [hu.search, hst, he, wanted_append] at hfound
      exact (List.map_injective_iff.mpr (fun _ _ h => (BalancedTreeObject.mk.inj h).2)
        (Option.some.inj hfound)).symm
    have := (deleted_eq_iff h.alone).mp heq
    rwa [← h.objects_eq, List.map_eq_nil_iff] at this

theorem run_kept (h : (machine d).RunIf (Carried d) tr t) : Kept d tr t := by
  refine h.invariant (I := Kept d) ?start ?step
  case start =>
    rintro t ⟨htop, hcount⟩
    have hrun : (StdBalancedTree.machine κ ω).RunIf Spares [] t := .start ⟨htop, hcount⟩
    exact ⟨⟨[], run_holds hrun, rfl⟩, fun _ _ => rfl⟩
  case step =>
    rintro tr t a u os - hk hc hs
    exact hk.step hc hs

/-- What holds of the typed tree in a run. -/
structure TypedTreeLaw (d : κ) (tr : List (Obs κ ω)) (t : StdBalancedTree κ ω) : Prop where
  finds : Finds tr t
  search : ∀ c, TypedTree.search t c =
    some (returned t.enabledEqu ((wanted t.enabledEqu tr c).map (.mk c)))
  exact : ∀ a u os, TypedTree.step d t a = some (u, os) → (Finds (tr ++ os) u ↔ Carried d t a)

/-- As long as the conditions given to insertions and deletions are the default one, each
search finds what was stored under its condition; with the first that is another, or the first
deletion of an only object, some search does not. -/
theorem typedTree_law (h : (machine d).RunIf (Carried d) tr t) : TypedTreeLaw d tr t := by
  have hk := run_kept h
  refine ⟨hk.finds, fun c => ?_, fun a u os hs => ⟨hk.carried hs, fun hc => ?_⟩⟩
  · rw [TypedTree.search, hk.finds c]
    rfl
  · exact (hk.step hc hs).finds

/-- Two objects under the default condition, and a search under another. -/
theorem typedTree_law_default :
    ∃ tr t, (machine (number 0)).RunIf (Carried (number 0)) tr t ∧
      TypedTreeLaw (ω := Nat) (number 0) tr t ∧ tr =
        [.inserted (number 0) (some 10) (some 10), .inserted (number 0) (some 11) none,
          .found (number 0) (.queue (some [some 11, some 10])),
          .found (number 1) (.queue none)] := by
  obtain ⟨tr, t, hr, htr⟩ := Machine.exists_run (M := machine (ω := Nat) (number 0))
    (C := Carried (number 0)) (P := fun tr _ => tr =
        [.inserted (number 0) (some 10) (some 10), .inserted (number 0) (some 11) none,
          .found (number 0) (.queue (some [some 11, some 10])),
          .found (number 1) (.queue none)])
    [.ins (number 0) (some 10), .ins (number 0) (some 11), .search (number 0),
      .search (number 1)]
    (s := ⟨true, .null, 0⟩) ⟨rfl, rfl⟩ (by decide +kernel)
  exact ⟨tr, t, hr, typedTree_law hr, htr⟩

end Stock

theorem misfiles (enabledEqu : Bool) :
    ∃ tr t, (machine (number 0)).Run tr t ∧ ¬ Finds tr t ∧ tr =
      [.inserted (number 1) (some 10) (some 10),
        .found (number 1) (if enabledEqu then .queue none else .obj none),
        .found (number 0) (if enabledEqu then .queue (some [some 10]) else .obj (some 10))] := by
  obtain ⟨tr, t, hr, hs, htr⟩ : ∃ tr t, (machine (ω := Nat) (number 0)).Run tr t ∧
      (t.search (number 1)).map List.length = some 0 ∧ tr =
        [.inserted (number 1) (some 10) (some 10),
          .found (number 1) (if enabledEqu then .queue none else .obj none),
          .found (number 0)
            (if enabledEqu then .queue (some [some 10]) else .obj (some 10))] := by
    cases enabledEqu with
    | false =>
      exact Machine.exists_run
        [.ins (number 1) (some 10), .search (number 1), .search (number 0)]
        (s := ⟨false, .null, 0⟩) ⟨rfl, rfl⟩ (by decide +kernel)
    | true =>
      exact Machine.exists_run
        [.ins (number 1) (some 10), .search (number 1), .search (number 0)]
        (s := ⟨true, .null, 0⟩) ⟨rfl, rfl⟩ (by decide +kernel)
  refine ⟨tr, t, hr, fun hf => ?_, htr⟩
  have hfound := hf (number 1)
  have hw : wanted t.enabledEqu tr (number 1) = [some 10] := by
    rw [htr]
    exact wanted₁_self (m := fun _ => []) (r := some 10) rfl
  rw [hfound, hw] at hs
  cases hs

/-- An object stored under 1 is found under 0, the default condition, and not under 1; in
both trees. -/
theorem typedTree_misfiles :
    (∃ tr t, (machine (number 0)).Run tr t ∧ ¬ Finds tr t ∧ tr =
      [.inserted (number 1) (some 10) (some 10), .found (number 1) (.obj none),
        .found (number 0) (.obj (some 10))]) ∧
    ∃ tr t, (machine (number 0)).Run tr t ∧ ¬ Finds tr t ∧ tr =
      [.inserted (number 1) (some 10) (some 10), .found (number 1) (.queue none),
        .found (number 0) (.queue (some [some 10]))] :=
  ⟨misfiles false, misfiles true⟩

end TinyState.TypedTree
