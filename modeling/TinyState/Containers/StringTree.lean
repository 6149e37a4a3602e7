import TinyState.Lib.Machine
import Mathlib.Data.List.Nodup
import Mathlib.Logic.Function.Basic

/-!
# The string tree is a map from strings to objects

`stdStringTree`: a tree in which each node holds the piece of the keys that it adds to its
parent's. `ins` splits a piece where a key leaves it, and `del` joins pieces again. In any
run a search gives what the last `ins` of the key stored, and the pieces stay as short as
they can be: siblings start with distinct characters, and a node without object has two
children at least.
-/

namespace TinyState

open Transition

/-- A character of a string, other than the NUL that ends it. -/
abbrev StrChar := { c : UInt8 // c ≠ 0 }

/-- `stdStringTreeBase` or the null pointer, with the first child in `list`. -/
inductive StringTree (α ω : Type)
  | null
  | node (str : List α) (obj : Option ω) (partialFlag : Bool) (list next : StringTree α ω)
  deriving DecidableEq, Repr

namespace StringTree

variable {α ω : Type} [DecidableEq α]

/-- `match`: how far a node's string and the key go together. -/
def clen : List α → List α → Nat
  | a :: str, b :: ix => if a = b then clen str ix + 1 else 0
  | _, _ => 0

example (a b : α) (hab : a ≠ b) : clen [a, b] [a, a] = 1 := by simp [clen, hab.symm]

/-- The loop of `ins`, from `elp` on. There is no result where no node starts as `ix` does. -/
def insLoop (obj : ω) (partialFlag : Bool) :
    StringTree α ω → List α → Option (StringTree α ω)
  | null, _ => none
  | node str o p list next, ix =>
    if clen str ix = 0 then
      (insLoop obj partialFlag next ix).map fun next => node str o p list next
    else if clen str ix = str.length then
      -- `elp->ins`
      some (if ix.drop (clen str ix) = [] then node str (some obj) partialFlag list next
        else node str o p ((insLoop obj partialFlag list (ix.drop (clen str ix))).getD
          (node (ix.drop (clen str ix)) (some obj) partialFlag null list)) next)
    else if clen str ix = ix.length then
      some (node (str.take (clen str ix)) (some obj) partialFlag
        (node (str.drop (clen str ix)) o p list null) next)
    else
      some (node (str.take (clen str ix)) none false
        (node (str.drop (clen str ix)) o p list
          (node (ix.drop (clen str ix)) (some obj) partialFlag null null)) next)

/-- The loop of `search`. -/
def searchLoop : StringTree α ω → List α → Option ω
  | null, _ => none
  | node str o _ list next, key =>
    if clen str key = 0 then searchLoop next key
    else if clen str key = str.length then
      -- `k->search`
      if key.drop (clen str key) = [] then o else searchLoop list (key.drop (clen str key))
    else none

/-- What `del` makes of the node `elp` from which it has deleted. -/
def tidy : StringTree α ω → StringTree α ω
  | node _ none _ null next => next
  | node str none _ (node s o p list null) next => node (str ++ s) o p list next
  | t => t

/-- The loop of `del`: what it returns, and the list afterwards. -/
def delLoop : StringTree α ω → List α → Option ω × StringTree α ω
  | null, _ => (none, null)
  | node str o p list next, key =>
    if clen str key = 0 then
      ((delLoop next key).1, node str o p list (delLoop next key).2)
    else if clen str key = str.length then
      -- `elp->del`
      if key.drop (clen str key) = [] then (o, tidy (node str none false list next))
      else ((delLoop list (key.drop (clen str key))).1,
        tidy (node str o p (delLoop list (key.drop (clen str key))).2 next))
    else (none, node str o p list next)

omit [DecidableEq α] in
/-- `count`, over a node and those after it. -/
def count : StringTree α ω → Nat
  | null => 0
  | node _ o _ list next => (if o.isSome then 1 else 0) + count list + count next

-- ---------------------------------------------------------------------------
-- What is stored
-- ---------------------------------------------------------------------------

/-- The key without a string that it starts with. -/
def strip : List α → List α → Option (List α)
  | [], key => some key
  | _ :: _, [] => none
  | a :: str, b :: key => if a = b then strip str key else none

/-- The object and the flag stored under a key. -/
def get : StringTree α ω → List α → Option (ω × Bool)
  | null, _ => none
  | node str o p list next, key =>
    match strip str key with
    | none => get next key
    | some [] => o.map (·, p)
    | some (a :: rest) => get list (a :: rest)

example (a b : α) (o : ω) :
    (node [a] none false (node [b] (some o) true null null) null).get [a, b] = some (o, true) := by
  simp [get, strip]

/-- All keys with what is stored under them. -/
def entries : StringTree α ω → List (List α × (ω × Bool))
  | null => []
  | node str o p list next =>
    (o.map fun o => (str, (o, p))).toList ++
      (entries list).map (fun e => (str ++ e.1, e.2)) ++ entries next

/-- The characters that the nodes of a list start with. -/
def heads : StringTree α ω → List (Option α)
  | null => []
  | node str _ _ _ next => str.head? :: heads next

/-- Siblings start with distinct characters, no string is empty, and a node without object
has two children at least. -/
def Radix : StringTree α ω → Prop
  | null => True
  | node str o _ list next =>
    str ≠ [] ∧ (o = none → 2 ≤ list.heads.length) ∧ str.head? ∉ next.heads ∧
      list.Radix ∧ next.Radix

variable {str ix key c s x r : List α} {o : Option ω} {obj : ω} {p flag : Bool}
  {t u list next : StringTree α ω}

theorem strip_eq_some : strip str key = some r ↔ key = str ++ r := by
  induction str generalizing key with
  | nil => exact ⟨fun h => Option.some.inj h, fun h => congrArg some h⟩
  | cons a str ih =>
    cases key with
    | nil => exact ⟨nofun, nofun⟩
    | cons b key =>
      by_cases hab : a = b
      · simp [strip, hab, ih]
      · simp [strip, hab, Ne.symm hab]

@[simp] theorem strip_append : strip str (str ++ r) = some r := strip_eq_some.mpr rfl

theorem strip_eq_none (h : strip c key = none) : strip (c ++ s) key = none := by
  cases hs : strip (c ++ s) key with
  | none => rfl
  | some r =>
    rw [strip_eq_some, List.append_assoc] at hs
    rw [hs, strip_append] at h
    cases h

@[simp] theorem strip_append_append : strip (c ++ s) (c ++ r) = strip s r := by
  induction c with
  | nil => rfl
  | cons a c ih => simpa [strip] using ih

theorem strip_of_heads (hs : s ≠ []) (h : r.head? ≠ s.head?) : strip s r = none := by
  cases s with
  | nil => exact absurd rfl hs
  | cons a s =>
    cases r with
    | nil => rfl
    | cons b r => exact if_neg fun hab => h (congrArg some hab.symm)

theorem strip_nil (hs : s ≠ []) : strip s [] = none := by
  cases s with
  | nil => exact absurd rfl hs
  | cons a s => rfl

/-- The two strings go together up to where one ends or their next characters differ. -/
theorem clen_spec (str ix : List α) :
    ∃ c s x, str = c ++ s ∧ ix = c ++ x ∧ clen str ix = c.length ∧
      (s = [] ∨ x = [] ∨ s.head? ≠ x.head?) := by
  induction str generalizing ix with
  | nil => exact ⟨[], [], ix, rfl, rfl, by simp [clen], .inl rfl⟩
  | cons a str ih =>
    cases ix with
    | nil => exact ⟨[], a :: str, [], rfl, rfl, rfl, .inr (.inl rfl)⟩
    | cons b ix =>
      by_cases hab : a = b
      · obtain ⟨c, s, x, rfl, rfl, hc, hd⟩ := ih ix
        subst hab
        exact ⟨a :: c, s, x, rfl, rfl, by simp [clen, hc], hd⟩
      · exact ⟨[], a :: str, b :: ix, rfl, rfl, by simp [clen, hab], by simp [hab]⟩

/-- A key that starts like no node of the list is not in it. -/
theorem get_eq_none (hr : t.Radix) (hk : key.head? ∉ t.heads) : t.get key = none := by
  induction t with
  | null => rfl
  | node str o p list next ihl ihn =>
    obtain ⟨hs, -, -, -, hn⟩ := hr
    cases hst : strip str key with
    | none =>
      simp only [get, hst]
      exact ihn hn (List.not_mem_of_not_mem_cons hk)
    | some r =>
      rw [strip_eq_some] at hst
      rw [hst, List.head?_append_of_ne_nil str hs] at hk
      exact absurd List.mem_cons_self hk

/-- Another key than those that go on from a node's string passes the node. -/
theorem get_of_strip_eq_none (h : strip str key = none) :
    (node str o p list next).get key = next.get key := by
  simp only [get, h]

theorem ne_of_strip_eq_none (h : strip c key = none) : key ≠ c ++ x := by
  rintro rfl
  rw [strip_append] at h
  cases h

/-- A key that goes on from `c` is under the node that starts with `c`. -/
theorem get_append (hc : c ≠ []) (hh : c.head? ∉ next.heads) (hn : next.Radix) :
    (node (c ++ s) o p list next).get (c ++ r) = (node s o p list null).get r := by
  cases hs : strip s r with
  | none =>
    simp only [get, strip_append_append, hs]
    exact get_eq_none hn (by rwa [List.head?_append_of_ne_nil c hc])
  | some y =>
    simp only [get, strip_append_append, hs]
    cases y <;> rfl

/-- The keys that go on from a node's string are those of the node and of its children. -/
theorem get_own : (node c o p list next).get (c ++ r) =
    if r = [] then o.map (·, p) else list.get r := by
  simp only [get, strip_append]
  cases r <;> rfl

theorem get_nil (hr : t.Radix) : t.get [] = none := by
  induction t with
  | null => rfl
  | node str o p list next ihl ihn =>
    obtain ⟨hs, -, -, -, hn⟩ := hr
    cases str with
    | nil => exact absurd rfl hs
    | cons a str => exact ihn hn

-- ---------------------------------------------------------------------------
-- Searches
-- ---------------------------------------------------------------------------

/-- What `match` finds, where both strings have characters: the key goes another way, it
goes on from the node's string, or it leaves the string after `c`. -/
inductive Match (str ix : List α) : Prop
  | apart (zero : clen str ix = 0) (heads : ix.head? ≠ str.head?)
  | into (x : List α) (key : ix = str ++ x) (whole : clen str ix = str.length)
  | leaves (c s x : List α) (some : c ≠ []) (left : s ≠ []) (path : str = c ++ s)
      (key : ix = c ++ x) (part : clen str ix = c.length) (heads : x.head? ≠ s.head?)

theorem match_spec (hs : str ≠ []) (hi : ix ≠ []) : Match str ix := by
  obtain ⟨c, s, x, rfl, rfl, hc, hd⟩ := clen_spec str ix
  by_cases hc0 : c = []
  · subst hc0
    exact .apart hc (((hd.resolve_left hs).resolve_left hi).symm)
  · by_cases hs0 : s = []
    · subst hs0
      exact .into x (by rw [List.append_nil]) (by rw [hc, List.append_nil])
    · refine .leaves c s x hc0 hs0 rfl rfl hc ?_
      rcases hd.resolve_left hs0 with rfl | hd
      · cases s with
        | nil => exact absurd rfl hs0
        | cons a s => exact nofun
      · exact hd.symm

omit [DecidableEq α] in
theorem length_ne_zero (h : c ≠ []) : c.length ≠ 0 := fun hl => h (List.length_eq_zero_iff.mp hl)

omit [DecidableEq α] in
theorem length_ne_of_append (h : s ≠ []) : c.length ≠ (c ++ s).length := by
  rw [List.length_append]
  exact fun hl => length_ne_zero h (by omega)

/-- `search` finds what is stored. -/
theorem searchLoop_eq (hr : t.Radix) (hk : key ≠ []) :
    t.searchLoop key = (t.get key).map Prod.fst := by
  induction t generalizing key with
  | null => rfl
  | node str o p list next ihl ihn =>
    obtain ⟨hs, -, hh, hl, hn⟩ := hr
    cases match_spec hs hk with
    | apart hz hd =>
      simp only [searchLoop, hz, if_true, get, strip_of_heads hs hd]
      exact ihn hn hk
    | into x hx hw =>
      subst hx
      simp only [searchLoop, hw, length_ne_zero hs, if_true, if_false, List.drop_left, get_own]
      by_cases hx : x = []
      · simp only [hx, if_true]
        cases o <;> rfl
      · simp only [hx, if_false]
        exact ihl hl hx
    | leaves c s x hc h0 hp hx hl' hd =>
      subst hp hx
      rw [List.head?_append_of_ne_nil c hc] at hh
      simp only [searchLoop, hl', length_ne_zero hc, length_ne_of_append h0, if_false]
      rw [get_append hc hh hn]
      simp only [get, strip_of_heads h0 hd, Option.map_none]

-- ---------------------------------------------------------------------------
-- Insertion
-- ---------------------------------------------------------------------------

/-- `u` is the list `t` with `obj` stored under `ix`. -/
structure Stored (obj : ω) (flag : Bool) (ix : List α) (t u : StringTree α ω) : Prop where
  radix : u.Radix
  grown : t.heads.length ≤ u.heads.length
  get : ∀ key, u.get key = if key = ix then some (obj, flag) else t.get key

/-- The key is stored in a node of the list, or in a new one before the others. -/
def put (obj : ω) (flag : Bool) (t : StringTree α ω) (ix : List α) : StringTree α ω :=
  (insLoop obj flag t ix).getD (node ix (some obj) flag null t)

/-- What the loop of `ins` does. -/
def InsSpec (obj : ω) (flag : Bool) (t : StringTree α ω) (ix : List α) : Prop :=
  match insLoop obj flag t ix with
  | none => ix.head? ∉ t.heads
  | some u => u.heads = t.heads ∧ Stored obj flag ix t u

theorem stored_put (h : InsSpec obj flag t ix) (hr : t.Radix) (hi : ix ≠ []) :
    Stored obj flag ix t (put obj flag t ix) := by
  unfold InsSpec at h
  unfold put
  cases hu : insLoop obj flag t ix with
  | some u =>
    rw [hu] at h
    exact h.2
  | none =>
    rw [hu] at h
    refine ⟨⟨hi, nofun, h, trivial, hr⟩, Nat.le_succ _, fun key => ?_⟩
    cases hs : strip ix key with
    | none =>
      have hne : key ≠ ix ++ [] := ne_of_strip_eq_none hs
      rw [List.append_nil] at hne
      rw [Option.getD_none, get_of_strip_eq_none hs, if_neg hne]
    | some r =>
      rw [strip_eq_some] at hs
      subst hs
      simp only [Option.getD_none, get_own, List.append_right_eq_self]
      split
      · rfl
      · refine (get_eq_none hr ?_).symm
        rwa [List.head?_append_of_ne_nil ix hi]

/-- The key is the node's string, or it goes on below the node. -/
theorem stored_into (hr : (node str o p list next).Radix)
    (h : x ≠ [] → Stored obj flag x list (put obj flag list x)) :
    Stored obj flag (str ++ x) (node str o p list next)
      (if x = [] then node str (some obj) flag list next
        else node str o p (put obj flag list x) next) := by
  obtain ⟨hs, ho, hh, hl, hn⟩ := hr
  by_cases hx : x = []
  · rw [if_pos hx, hx, List.append_nil]
    refine ⟨⟨hs, nofun, hh, hl, hn⟩, Nat.le_refl _, fun key => ?_⟩
    cases hst : strip str key with
    | none =>
      have hne : key ≠ str ++ [] := ne_of_strip_eq_none hst
      rw [List.append_nil] at hne
      rw [get_of_strip_eq_none hst, get_of_strip_eq_none hst, if_neg hne]
    | some r =>
      rw [strip_eq_some] at hst
      subst hst
      simp only [get_own, List.append_right_eq_self]
      split <;> rfl
  · rw [if_neg hx]
    have h := h hx
    refine ⟨⟨hs, fun hn => Nat.le_trans (ho hn) h.grown, hh, h.radix, hn⟩, Nat.le_refl _,
      fun key => ?_⟩
    cases hst : strip str key with
    | none =>
      rw [get_of_strip_eq_none hst, get_of_strip_eq_none hst,
        if_neg (ne_of_strip_eq_none hst)]
    | some r =>
      rw [strip_eq_some] at hst
      subst hst
      simp only [get_own, List.append_cancel_left_eq, h.get]
      by_cases hr : r = []
      · rw [if_pos hr, if_pos hr, if_neg (hr ▸ Ne.symm hx)]
      · rw [if_neg hr, if_neg hr]

/-- The node's string is cut where the key ends. -/
theorem stored_cut (hc : c ≠ []) (hs : s ≠ []) (hr : (node (c ++ s) o p list next).Radix) :
    Stored obj flag c (node (c ++ s) o p list next)
      (node c (some obj) flag (node s o p list null) next) := by
  obtain ⟨-, ho, hh, hl, hn⟩ := hr
  rw [List.head?_append_of_ne_nil c hc] at hh
  refine ⟨⟨hc, nofun, hh, ⟨hs, ho, List.not_mem_nil, hl, trivial⟩, hn⟩, Nat.le_refl _,
    fun key => ?_⟩
  cases hst : strip c key with
  | none =>
    have hne : key ≠ c ++ [] := ne_of_strip_eq_none hst
    rw [List.append_nil] at hne
    rw [get_of_strip_eq_none hst, get_of_strip_eq_none (strip_eq_none hst), if_neg hne]
  | some r =>
    rw [strip_eq_some] at hst
    subst hst
    simp only [get_own, get_append hc hh hn, List.append_right_eq_self]
    split <;> rfl

/-- The new node and the rest of the old one are apart. -/
theorem get_fork (hs : s ≠ []) (hx : x ≠ []) (hd : x.head? ≠ s.head?) (key : List α) :
    (node s o p list (node x (some obj) flag null null)).get key =
      if key = x then some (obj, flag) else (node s o p list null).get key := by
  cases hst : strip s key with
  | none =>
    rw [get_of_strip_eq_none hst, get_of_strip_eq_none hst]
    cases hxt : strip x key with
    | none =>
      have hne : key ≠ x ++ [] := ne_of_strip_eq_none hxt
      rw [List.append_nil] at hne
      rw [get_of_strip_eq_none hxt, if_neg hne]
    | some y =>
      rw [strip_eq_some] at hxt
      simp only [hxt, get_own, List.append_right_eq_self]
      split <;> rfl
  | some y =>
    rw [strip_eq_some] at hst
    have hne : key ≠ x := by
      rintro rfl
      rw [hst, List.head?_append_of_ne_nil s hs] at hd
      exact hd rfl
    rw [if_neg hne, hst, get_own, get_own]

/-- The node's string is cut where the key leaves it. -/
theorem stored_fork (hc : c ≠ []) (hs : s ≠ []) (hx : x ≠ []) (hd : x.head? ≠ s.head?)
    (hr : (node (c ++ s) o p list next).Radix) :
    Stored obj flag (c ++ x) (node (c ++ s) o p list next)
      (node c none false (node s o p list (node x (some obj) flag null null)) next) := by
  obtain ⟨-, ho, hh, hl, hn⟩ := hr
  rw [List.head?_append_of_ne_nil c hc] at hh
  have hx' : (node x (some obj) flag null null).Radix :=
    ⟨hx, nofun, List.not_mem_nil, trivial, trivial⟩
  have hsx : s.head? ∉ (node x (some obj) flag null null).heads :=
    fun hm => hd (List.mem_singleton.mp hm).symm
  refine ⟨⟨hc, fun _ => Nat.le_refl 2, hh, ⟨hs, ho, hsx, hl, hx'⟩, hn⟩, Nat.le_refl _,
    fun key => ?_⟩
  cases hst : strip c key with
  | none =>
    rw [get_of_strip_eq_none hst, get_of_strip_eq_none (strip_eq_none hst),
      if_neg (ne_of_strip_eq_none hst)]
  | some r =>
    rw [strip_eq_some] at hst
    subst hst
    simp only [get_own, get_append hc hh hn, List.append_cancel_left_eq, get_fork hs hx hd]
    by_cases hr : r = []
    · rw [if_pos hr, if_neg (hr ▸ Ne.symm hx), hr, get_of_strip_eq_none (strip_nil hs)]
      rfl
    · rw [if_neg hr]

theorem insLoop_spec (obj : ω) (flag : Bool) (hr : t.Radix)
    (hi : ix ≠ []) : InsSpec obj flag t ix := by
  induction t generalizing ix with
  | null => exact List.not_mem_nil
  | node str o p list next ihl ihn =>
    obtain ⟨hs, ho, hh, hl, hn⟩ := hr
    cases match_spec hs hi with
    | apart hz hd =>
      have ih := ihn hn hi
      unfold InsSpec at ih ⊢
      rw [insLoop, if_pos hz]
      cases hu : insLoop obj flag next ix with
      | none =>
        rw [hu] at ih
        exact fun hm => (List.mem_cons.mp hm).elim hd ih
      | some u =>
        rw [hu] at ih
        refine ⟨congrArg (str.head? :: ·) ih.1, ⟨hs, ho, ?_, hl, ih.2.radix⟩, ?_, fun key => ?_⟩
        · rw [ih.1]
          exact hh
        · exact Nat.succ_le_succ ih.2.grown
        · cases hst : strip str key with
          | none => rw [get_of_strip_eq_none hst, get_of_strip_eq_none hst, ih.2.get]
          | some r =>
            rw [strip_eq_some] at hst
            have hne : key ≠ ix := by
              rintro rfl
              rw [hst, List.head?_append_of_ne_nil str hs] at hd
              exact hd rfl
            rw [if_neg hne, hst, get_own, get_own]
    | into x hx hw =>
      subst hx
      have hst : Stored obj flag (str ++ x) (node str o p list next) _ :=
        stored_into ⟨hs, ho, hh, hl, hn⟩ fun hx => stored_put (ihl hl hx) hl hx
      unfold InsSpec
      rw [insLoop, if_neg (by rw [hw]; exact length_ne_zero hs), if_pos hw, hw, List.drop_left]
      refine ⟨?_, hst⟩
      split <;> rfl
    | leaves c s x hc h0 hp hx hl' hd =>
      subst hp hx
      have hr : (node (c ++ s) o p list next).Radix := ⟨hs, ho, hh, hl, hn⟩
      unfold InsSpec
      rw [insLoop, hl', if_neg (length_ne_zero hc), if_neg (length_ne_of_append h0)]
      by_cases hx : x = []
      · subst hx
        rw [List.append_nil, if_pos rfl, List.take_left, List.drop_left]
        exact ⟨by rw [heads, heads, List.head?_append_of_ne_nil c hc], stored_cut hc h0 hr⟩
      · rw [if_neg (length_ne_of_append hx), List.take_left, List.drop_left, List.drop_left]
        exact ⟨by rw [heads, heads, List.head?_append_of_ne_nil c hc],
          stored_fork hc h0 hx hd hr⟩

-- ---------------------------------------------------------------------------
-- Deletion
-- ---------------------------------------------------------------------------

/-- A node without object that has no second child is let go or joined with the child it has. -/
theorem tidy_spec (hs : str ≠ []) (hh : str.head? ∉ next.heads) (hl : list.Radix)
    (hn : next.Radix) :
    (tidy (node str o p list next)).Radix ∧
      (tidy (node str o p list next)).heads.Sublist (node str o p list next).heads ∧
      ∀ key, (tidy (node str o p list next)).get key = (node str o p list next).get key := by
  cases o with
  | some o => exact ⟨⟨hs, nofun, hh, hl, hn⟩, .refl _, fun _ => rfl⟩
  | none =>
    cases list with
    | null =>
      refine ⟨hn, List.sublist_cons_self _ _, fun key => ?_⟩
      cases hst : strip str key with
      | none => exact (get_of_strip_eq_none hst).symm
      | some r =>
        rw [strip_eq_some] at hst
        subst hst
        rw [get_own]
        refine (get_eq_none hn ?_).trans (ite_self none).symm
        rwa [List.head?_append_of_ne_nil str hs]
    | node s o' p' l n =>
      cases n with
      | node => exact ⟨⟨hs, fun _ => by simp [heads], hh, hl, hn⟩, .refl _, fun _ => rfl⟩
      | null =>
        obtain ⟨hs', ho', -, hl', -⟩ := hl
        have hhd : (str ++ s).head? = str.head? := List.head?_append_of_ne_nil str hs
        refine ⟨⟨fun h => hs (List.append_eq_nil_iff.mp h).1, ho', by rwa [hhd], hl', hn⟩, ?_,
          fun key => ?_⟩
        · rw [tidy, heads, heads, hhd]
        · cases hst : strip str key with
          | none => rw [tidy, get_of_strip_eq_none hst, get_of_strip_eq_none (strip_eq_none hst)]
          | some r =>
            rw [strip_eq_some] at hst
            subst hst
            rw [tidy, get_append hs hh hn, get_own]
            by_cases hr : r = []
            · rw [if_pos hr, hr, get_of_strip_eq_none (strip_nil hs')]
              rfl
            · rw [if_neg hr]

/-- `u` is the list `t` with nothing stored under `ix`. -/
structure Removed (ix : List α) (t u : StringTree α ω) : Prop where
  radix : u.Radix
  heads : u.heads.Sublist t.heads
  get : ∀ key, u.get key = if key = ix then none else t.get key

theorem removed_self (hr : t.Radix) (h : t.get ix = none) : Removed ix t t := by
  refine ⟨hr, .refl _, fun key => ?_⟩
  by_cases hk : key = ix
  · rw [if_pos hk, hk, h]
  · rw [if_neg hk]

/-- `del` returns what is stored, and stores nothing in its place. -/
theorem delLoop_spec (hr : t.Radix) (hi : ix ≠ []) :
    (delLoop t ix).1 = (t.get ix).map Prod.fst ∧ Removed ix t (delLoop t ix).2 := by
  induction t generalizing ix with
  | null => exact ⟨rfl, removed_self trivial rfl⟩
  | node str o p list next ihl ihn =>
    obtain ⟨hs, ho, hh, hl, hn⟩ := hr
    cases match_spec hs hi with
    | apart hz hd =>
      obtain ⟨hret, ih⟩ := ihn hn hi
      have hst := strip_of_heads hs hd
      rw [delLoop, if_pos hz, get_of_strip_eq_none hst]
      refine ⟨hret, ⟨hs, ho, fun hm => hh (ih.heads.subset hm), hl, ih.radix⟩,
        ih.heads.cons_cons _, fun key => ?_⟩
      cases hkt : strip str key with
      | none => rw [get_of_strip_eq_none hkt, get_of_strip_eq_none hkt, ih.get]
      | some r =>
        rw [strip_eq_some] at hkt
        have hne : key ≠ ix := by
          rintro rfl
          rw [hkt, strip_append] at hst
          cases hst
        rw [if_neg hne, hkt, get_own, get_own]
    | into x hx hw =>
      subst hx
      rw [delLoop, if_neg (by rw [hw]; exact length_ne_zero hs), if_pos hw, hw, List.drop_left,
        get_own]
      by_cases hx : x = []
      · rw [if_pos hx, if_pos hx, hx, List.append_nil]
        obtain ⟨hr', hsub, hget⟩ := tidy_spec (o := none) (p := false) hs hh hl hn
        refine ⟨by cases o <;> rfl, hr', hsub, fun key => (hget key).trans ?_⟩
        cases hst : strip str key with
        | none =>
          have hne : key ≠ str ++ [] := ne_of_strip_eq_none hst
          rw [List.append_nil] at hne
          rw [get_of_strip_eq_none hst, get_of_strip_eq_none hst, if_neg hne]
        | some r =>
          rw [strip_eq_some] at hst
          subst hst
          simp only [get_own, List.append_right_eq_self]
          split <;> rfl
      · obtain ⟨hret, ih⟩ := ihl hl hx
        rw [if_neg hx, if_neg hx]
        obtain ⟨hr', hsub, hget⟩ := tidy_spec (o := o) (p := p) hs hh ih.radix hn
        refine ⟨hret, hr', hsub, fun key => (hget key).trans ?_⟩
        cases hst : strip str key with
        | none =>
          rw [get_of_strip_eq_none hst, get_of_strip_eq_none hst,
            if_neg (ne_of_strip_eq_none hst)]
        | some r =>
          rw [strip_eq_some] at hst
          subst hst
          simp only [get_own, List.append_cancel_left_eq, ih.get]
          by_cases hr : r = []
          · rw [if_pos hr, if_pos hr, if_neg (hr ▸ Ne.symm hx)]
          · rw [if_neg hr, if_neg hr]
    | leaves c s x hc h0 hp hx hl' hd =>
      subst hp hx
      have hr : (node (c ++ s) o p list next).Radix := ⟨hs, ho, hh, hl, hn⟩
      rw [List.head?_append_of_ne_nil c hc] at hh
      have hget : (node (c ++ s) o p list next).get (c ++ x) = none := by
        rw [get_append hc hh hn, get_of_strip_eq_none (strip_of_heads h0 hd)]
        rfl
      rw [delLoop, hl', if_neg (length_ne_zero hc), if_neg (length_ne_of_append h0), hget]
      exact ⟨rfl, removed_self hr hget⟩

-- ---------------------------------------------------------------------------
-- All that is stored
-- ---------------------------------------------------------------------------

omit [DecidableEq α] in
theorem count_eq : t.count = t.entries.length := by
  induction t with
  | null => rfl
  | node str o p list next ihl ihn =>
    cases o <;> simp [count, entries, ihl, ihn]
    omega

omit [DecidableEq α] in
theorem mem_entries_node {v : ω × Bool} :
    (key, v) ∈ (node str o p list next).entries ↔
      (key = str ∧ o.map (·, p) = some v) ∨ (∃ r, key = str ++ r ∧ (r, v) ∈ list.entries) ∨
        (key, v) ∈ next.entries := by
  rw [entries, List.append_assoc, List.mem_append, List.mem_append]
  refine or_congr ?_ (or_congr ?_ Iff.rfl)
  · cases o with
    | none => exact ⟨nofun, fun h => nomatch h.2⟩
    | some o => simp [eq_comm]
  · rw [List.mem_map]
    constructor
    · rintro ⟨⟨r, w⟩, hm, he⟩
      cases he
      exact ⟨r, rfl, hm⟩
    · rintro ⟨r, rfl, hm⟩
      exact ⟨(r, v), hm, rfl⟩

theorem mem_entries {v : ω × Bool} (hr : t.Radix) :
    (key, v) ∈ t.entries ↔ t.get key = some v := by
  induction t generalizing key with
  | null => exact ⟨nofun, nofun⟩
  | node str o p list next ihl ihn =>
    obtain ⟨hs, ho, hh, hl, hn⟩ := hr
    rw [mem_entries_node]
    cases hst : strip str key with
    | none =>
      rw [get_of_strip_eq_none hst, ← ihn hn]
      constructor
      · rintro (⟨rfl, -⟩ | ⟨r, rfl, -⟩ | hm)
        · exact absurd (List.append_nil key).symm (ne_of_strip_eq_none hst)
        · exact absurd rfl (ne_of_strip_eq_none hst)
        · exact hm
      · exact fun hm => .inr (.inr hm)
    | some r =>
      rw [strip_eq_some] at hst
      subst hst
      have hnext : (str ++ r, v) ∉ next.entries := by
        rw [ihn hn, get_eq_none hn (by rwa [List.head?_append_of_ne_nil str hs])]
        exact nofun
      simp only [List.append_right_eq_self, List.append_cancel_left_eq, exists_eq_left', ihl hl,
        hnext, or_false, get_own]
      by_cases hr : r = []
      · simp only [hr, true_and, if_true, get_nil hl, reduceCtorEq, or_false]
      · simp only [hr, false_and, if_false, false_or]

/-- No key is stored twice. -/
theorem nodup_entries (hr : t.Radix) : (t.entries.map Prod.fst).Nodup := by
  induction t with
  | null => exact List.nodup_nil
  | node str o p list next ihl ihn =>
    obtain ⟨hs, -, hh, hl, hn⟩ := hr
    have hnext : ∀ r, str ++ r ∉ next.entries.map Prod.fst := by
      intro r hm
      obtain ⟨⟨k, v⟩, hm, rfl⟩ := List.mem_map.mp hm
      rw [mem_entries hn, get_eq_none hn (by rwa [List.head?_append_of_ne_nil str hs])] at hm
      cases hm
    have hlist : [] ∉ list.entries.map Prod.fst := by
      intro hm
      obtain ⟨⟨k, v⟩, hm, rfl⟩ := List.mem_map.mp hm
      rw [mem_entries hl, get_nil hl] at hm
      cases hm
    have hmap : ((list.entries.map fun e => (str ++ e.1, e.2)).map Prod.fst) =
        (list.entries.map Prod.fst).map (str ++ ·) := by
      rw [List.map_map, List.map_map]
      rfl
    have hbelow : ((list.entries.map Prod.fst).map (str ++ ·)).Nodup :=
      (ihl hl).map fun a b => List.append_cancel_left
    rw [entries, List.append_assoc, List.map_append, List.map_append, hmap]
    refine List.nodup_append.mpr ⟨?own, List.nodup_append.mpr ⟨hbelow, ihn hn, ?below⟩, ?above⟩
    case own => cases o <;> simp
    case below =>
      rintro k hk k' hk' rfl
      obtain ⟨r, -, rfl⟩ := List.mem_map.mp hk
      exact hnext r hk'
    case above =>
      rintro k hk k' hk' rfl
      obtain rfl : k = str := by
        cases o with
        | none => cases hk
        | some o => exact List.mem_singleton.mp hk
      rcases List.mem_append.mp hk' with hk' | hk'
      · obtain ⟨r, hm, hr⟩ := List.mem_map.mp hk'
        rw [List.append_right_eq_self.mp hr] at hm
        exact hlist hm
      · exact hnext [] (by rwa [List.append_nil])

end StringTree

-- ---------------------------------------------------------------------------
-- The tree
-- ---------------------------------------------------------------------------

/-- `stdStringTree`: the root, which has neither a string nor siblings. -/
structure StdStringTree (α ω : Type) where
  obj : Option ω
  partialFlag : Bool
  list : StringTree α ω
  deriving DecidableEq, Repr

namespace StdStringTree

open StringTree

variable {α ω : Type} [DecidableEq α]

def ins (t : StdStringTree α ω) (ix : List α) (obj : ω) (partialFlag : Bool) :
    StdStringTree α ω :=
  if ix = [] then { t with obj := some obj, partialFlag }
  else { t with
    list := (insLoop obj partialFlag t.list ix).getD (node ix (some obj) partialFlag null t.list) }

def search (t : StdStringTree α ω) (key : List α) : Option ω :=
  if key = [] then t.obj else searchLoop t.list key

def del (t : StdStringTree α ω) (key : List α) : Option ω × StdStringTree α ω :=
  if key = [] then (t.obj, { t with obj := none, partialFlag := false })
  else ((delLoop t.list key).1, { t with list := (delLoop t.list key).2 })

omit [DecidableEq α] in
def count (t : StdStringTree α ω) : Nat := (if t.obj.isSome then 1 else 0) + t.list.count

/-- The object and the flag stored under a key. -/
def get (t : StdStringTree α ω) (key : List α) : Option (ω × Bool) :=
  if key = [] then t.obj.map (·, t.partialFlag) else t.list.get key

/-- All keys with what is stored under them. -/
def entries (t : StdStringTree α ω) : List (List α × (ω × Bool)) :=
  (t.obj.map fun o => ([], (o, t.partialFlag))).toList ++ t.list.entries

variable {t : StdStringTree α ω} {key ix : List α} {obj : ω} {flag : Bool}

theorem search_eq (hr : t.list.Radix) : t.search key = (t.get key).map Prod.fst := by
  unfold search get
  split
  · cases t.obj <;> rfl
  · exact searchLoop_eq hr ‹_›

theorem ins_spec (ix : List α) (obj : ω) (flag : Bool) (hr : t.list.Radix) :
    (t.ins ix obj flag).list.Radix ∧
      (t.ins ix obj flag).get = Function.update t.get ix (some (obj, flag)) := by
  by_cases hi : ix = []
  · subst hi
    refine ⟨hr, funext fun key => ?_⟩
    by_cases hk : key = []
    · simp [get, ins, hk]
    · simp [get, ins, hk]
  · have hs := stored_put (insLoop_spec obj flag hr hi) hr hi
    simp only [ins, if_neg hi]
    refine ⟨hs.radix, funext fun key => ?_⟩
    by_cases hk : key = []
    · rw [Function.update_of_ne (hk ▸ Ne.symm hi)]
      simp [get, hk]
    · refine (if_neg hk).trans ((hs.get key).trans ?_)
      rw [Function.update_apply, get, if_neg hk]

theorem del_spec (ix : List α) (hr : t.list.Radix) :
    (t.del ix).1 = (t.get ix).map Prod.fst ∧ (t.del ix).2.list.Radix ∧
      (t.del ix).2.get = Function.update t.get ix none := by
  by_cases hi : ix = []
  · subst hi
    refine ⟨?_, hr, funext fun key => ?_⟩
    · simp only [del, get, if_true]
      cases t.obj <;> rfl
    · by_cases hk : key = []
      · simp [get, del, hk]
      · simp [get, del, hk]
  · obtain ⟨hret, hs⟩ := delLoop_spec hr hi
    simp only [del, if_neg hi]
    refine ⟨?_, hs.radix, funext fun key => ?_⟩
    · rw [get, if_neg hi]
      exact hret
    · by_cases hk : key = []
      · rw [Function.update_of_ne (hk ▸ Ne.symm hi)]
        simp [get, hk]
      · refine (if_neg hk).trans ((hs.get key).trans ?_)
        rw [Function.update_apply, get, if_neg hk]

theorem mem_entries {v : ω × Bool} (hr : t.list.Radix) :
    (key, v) ∈ t.entries ↔ t.get key = some v := by
  unfold entries get
  rw [List.mem_append, StringTree.mem_entries hr]
  by_cases hk : key = []
  · rw [if_pos hk, hk, get_nil hr]
    cases t.obj <;> simp [eq_comm]
  · rw [if_neg hk]
    refine or_iff_right ?_
    cases t.obj with
    | none => exact nofun
    | some o => exact fun hm => hk (congrArg Prod.fst (List.mem_singleton.mp hm))

theorem nodup_entries (hr : t.list.Radix) : (t.entries.map Prod.fst).Nodup := by
  unfold entries
  rw [List.map_append]
  refine List.nodup_append.mpr ⟨?_, StringTree.nodup_entries hr, ?_⟩
  · cases t.obj <;> simp
  · rintro k hk k' hk' rfl
    obtain rfl : k = [] := by
      cases ho : t.obj with
      | none =>
        rw [ho] at hk
        cases hk
      | some o =>
        rw [ho] at hk
        exact List.mem_singleton.mp hk
    obtain ⟨⟨k, v⟩, hm, rfl⟩ := List.mem_map.mp hk'
    rw [StringTree.mem_entries hr, get_nil hr] at hm
    cases hm

omit [DecidableEq α] in
theorem count_eq : t.count = t.entries.length := by
  unfold count entries
  rw [StringTree.count_eq, List.length_append]
  cases t.obj <;> rfl

end StdStringTree

-- ---------------------------------------------------------------------------
-- Runs
-- ---------------------------------------------------------------------------

inductive StringTreeAct (ω : Type)
  | ins (key : List StrChar) (obj : ω) (partialFlag : Bool)
  | search (key : List StrChar)
  | del (key : List StrChar)
  deriving DecidableEq, Repr

inductive StringTreeObs (ω : Type)
  | stored (key : List StrChar) (obj : ω) (partialFlag : Bool)
  | found (key : List StrChar) (obj : Option ω)
  | deleted (key : List StrChar) (obj : Option ω)
  deriving DecidableEq, Repr

namespace StdStringTree

variable {ω : Type} {t : StdStringTree StrChar ω} {tr : List (StringTreeObs ω)}

def step (t : StdStringTree StrChar ω) :
    StringTreeAct ω → Option (StdStringTree StrChar ω × List (StringTreeObs ω))
  | .ins key obj partialFlag => some (t.ins key obj partialFlag, [.stored key obj partialFlag])
  | .search key => some (t, [.found key (t.search key)])
  | .del key => some ((t.del key).2, [.deleted key (t.del key).1])

def machine (ω : Type) :
    Machine (StdStringTree StrChar ω) (StringTreeAct ω) (StringTreeObs ω) where
  init t := t.obj = none ∧ t.list = .null
  step := step

abbrev Stock (ω : Type) := List StrChar → Option (ω × Bool)

def stock₁ (m : Stock ω) : StringTreeObs ω → Stock ω
  | .stored key obj partialFlag => Function.update m key (some (obj, partialFlag))
  | .found _ _ => m
  | .deleted key _ => Function.update m key none

/-- What the last `ins` of each key has stored, if the key has not been deleted since. -/
def stock (tr : List (StringTreeObs ω)) : Stock ω := tr.foldl stock₁ fun _ => none

theorem stock_append (tr : List (StringTreeObs ω)) (o : StringTreeObs ω) :
    stock (tr ++ [o]) = stock₁ (stock tr) o := List.foldl_append

/-- What a call returns after the calls `before`. -/
def Right (before : List (StringTreeObs ω)) : StringTreeObs ω → Prop
  | .stored .. => True
  | .found key r | .deleted key r => r = (stock before key).map Prod.fst

/-- What holds of the tree in any run. -/
structure StringTreeLaw (tr : List (StringTreeObs ω)) (t : StdStringTree StrChar ω) : Prop where
  search : ∀ key, t.search key = (stock tr key).map Prod.fst
  answers : Machine.Justified Right tr
  entries : ∀ key v, (key, v) ∈ t.entries ↔ stock tr key = some v
  distinct : (t.entries.map Prod.fst).Nodup
  count : t.count = t.entries.length
  radix : t.list.Radix

theorem run_stocked (hr : (machine ω).Run tr t) :
    t.list.Radix ∧ t.get = stock tr ∧ Machine.Justified Right tr := by
  refine hr.invariant
    (I := fun tr t => t.list.Radix ∧ t.get = stock tr ∧ Machine.Justified Right tr) ?start ?step
  case start =>
    rintro t ⟨ho, hl⟩
    refine ⟨by rw [hl]; trivial, funext fun key => ?_, .nil⟩
    rw [get, ho, hl]
    exact ite_self none
  case step =>
    rintro tr t a u os - ⟨hrad, hget, hans⟩ - hs
    change step _ a = _ at hs
    cases a with
    | ins key obj partialFlag =>
      obtain ⟨hr', hg⟩ := ins_spec key obj partialFlag hrad
      cases hs
      refine ⟨hr', ?_, hans.snoc trivial⟩
      rw [stock_append, hg, hget]
      rfl
    | search key =>
      cases hs
      refine ⟨hrad, ?_, hans.snoc ?_⟩
      · rw [stock_append]
        exact hget
      · change _ = _
        rw [search_eq hrad, hget]
    | del key =>
      obtain ⟨hret, hr', hg⟩ := del_spec key hrad
      cases hs
      refine ⟨hr', ?_, hans.snoc ?_⟩
      · rw [stock_append, hg, hget]
        rfl
      · change _ = _
        rw [hret, hget]

/-- In any run the tree is the map that the calls describe, in its shortest form. -/
theorem stringTree_law (hr : (machine ω).Run tr t) : StringTreeLaw tr t := by
  obtain ⟨hrad, hget, hans⟩ := run_stocked hr
  refine ⟨fun key => ?_, hans, fun key v => ?_, nodup_entries hrad, count_eq, hrad⟩
  · rw [search_eq hrad, hget]
  · rw [mem_entries hrad, hget]

/-- The characters of a C string. -/
def chars : List UInt8 → List StrChar
  | [] => []
  | c :: cs => if h : c ≠ 0 then ⟨c, h⟩ :: chars cs else []

/-- "ab" is cut for "a" and for "ac"; "" is a key as well. -/
theorem stringTree_law_pieces :
    ∃ tr t, (machine Nat).Run tr t ∧ StringTreeLaw tr t ∧
      t.search (chars [97, 98]) = none ∧ t.search (chars [97, 99]) = some 3 ∧ t.count = 3 := by
  obtain ⟨tr, t, hr, h⟩ := Machine.exists_run (M := machine Nat) (C := fun _ _ => True)
    (P := fun _ t => t.search (chars [97, 98]) = none ∧ t.search (chars [97, 99]) = some 3 ∧
      t.count = 3)
    [.ins (chars [97, 98]) 1 true, .ins (chars [97]) 2 false, .ins (chars [97, 99]) 3 true,
      .ins [] 4 false, .search (chars [97, 98]), .del (chars [97, 98])]
    (s := ⟨none, false, .null⟩) ⟨rfl, rfl⟩ (by decide +kernel)
  exact ⟨tr, t, hr, stringTree_law hr, h⟩

end StdStringTree

end TinyState
