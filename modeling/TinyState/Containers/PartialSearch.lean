import TinyState.Containers.StringTree

/-!
# The longest key that a string begins with

`stdStringTree::search(match_len,key)`: where the key itself is not stored, the search falls
back on the last object that it has passed whose key was inserted with `partial_flag`.
-/

namespace TinyState

open Transition

-- ---------------------------------------------------------------------------
-- The longest stored beginning
-- ---------------------------------------------------------------------------

namespace Beginnings

variable {α ω : Type}

/-- What is stored with the flag is found on the way. -/
def onTheWay : Option (ω × Bool) → Option (ω × Nat)
  | some (o, true) => some (o, 0)
  | _ => none

def further (n : Nat) (r : ω × Nat) : ω × Nat := (r.1, n + r.2)

/-- What a map has for a string: its own object, or that of its longest beginning stored
with the flag, and the length of the key. -/
def best (m : List α → Option (ω × Bool)) : List α → Option (ω × Nat)
  | [] => (m []).map fun v => (v.1, 0)
  | a :: key => ((best (fun k => m (a :: k)) key).map (further 1)).or (onTheWay (m []))

variable {m m' : List α → Option (ω × Bool)} {key k x c : List α} {o : ω} {r : Option (ω × Nat)}

theorem best_congr (h : ∀ k, k <+: key → m k = m' k) : best m key = best m' key := by
  induction key generalizing m m' with
  | nil => rw [best, best, h [] List.nil_prefix]
  | cons a key ih =>
    rw [best, best, h [] List.nil_prefix, ih fun k hk => h (a :: k) ?_]
    exact List.cons_prefix_cons.mpr ⟨rfl, hk⟩

/-- Where nothing is stored before `c`, only what goes on from `c` is found. -/
theorem best_append (h : ∀ k, k <+: c → k ≠ c → m k = none) :
    best m (c ++ x) = (best (fun k => m (c ++ k)) x).map (further c.length) := by
  induction c generalizing m with
  | nil => cases hb : best m x <;> simp [further, hb]
  | cons a c ih =>
    have hc : ∀ k, k <+: c → k ≠ c → m (a :: k) = none := fun k hk hne =>
      h (a :: k) (List.cons_prefix_cons.mpr ⟨rfl, hk⟩) fun he => hne (List.cons.inj he).2
    have hnil : onTheWay (m []) = none := by
      rw [h [] List.nil_prefix nofun]
      rfl
    rw [List.cons_append, best, ih hc, hnil, Option.or_none, Option.map_map]
    refine congrArg (Option.map · _) (funext fun r => ?_)
    simp [further]
    omega

theorem best_eq_none (h : ∀ k, k <+: key → m k = none) : best m key = none := by
  have hc : best m key = best (fun _ => none) key := best_congr h
  rw [hc]
  clear hc h
  induction key with
  | nil => rfl
  | cons a key ih =>
    rw [best, ih]
    rfl

/-- `k` is the longest key stored with the flag that `key` goes on from. -/
structure Longest (m : List α → Option (ω × Bool)) (key k : List α) (o : ω) : Prop where
  path : k <+: key
  proper : k ≠ key
  stored : m k = some (o, true)
  longest : ∀ k' o', k' <+: key → k' ≠ key → m k' = some (o', true) → k'.length ≤ k.length

/-- The object of `key` itself; else that of the longest key stored with the flag that it
goes on from; else nothing. And the length of the key. -/
inductive Finds (m : List α → Option (ω × Bool)) (key : List α) : Option (ω × Nat) → Prop
  | itself {o : ω} {flag : Bool} : m key = some (o, flag) → Finds m key (some (o, key.length))
  | longest {k : List α} {o : ω} : m key = none → Longest m key k o →
      Finds m key (some (o, k.length))
  | nothing : m key = none → (∀ k o, k <+: key → k ≠ key → m k ≠ some (o, true)) →
      Finds m key none

theorem best_spec (m : List α → Option (ω × Bool)) (key : List α) : Finds m key (best m key) := by
  induction key generalizing m with
  | nil =>
    unfold best
    cases h : m [] with
    | none => exact .nothing h fun k o hk hne => absurd (List.prefix_nil.mp hk) hne
    | some v => exact .itself h
  | cons a key ih =>
    unfold best
    have hi := ih fun k => m (a :: k)
    generalize best (fun k => m (a :: k)) key = r at hi
    cases hi with
    | itself h =>
      simp only [Option.map_some, Option.some_or, further, Nat.add_comm 1]
      exact .itself h
    | @longest k o h hl =>
      simp only [Option.map_some, Option.some_or, further, Nat.add_comm 1]
      refine .longest (k := a :: k) h ⟨List.cons_prefix_cons.mpr ⟨rfl, hl.path⟩, ?_, hl.stored, ?_⟩
      · exact fun he => hl.proper (List.cons.inj he).2
      · intro k' o' hp hne hs
        cases k' with
        | nil => exact Nat.zero_le _
        | cons b k' =>
          obtain ⟨rfl, hp'⟩ := List.cons_prefix_cons.mp hp
          exact Nat.succ_le_succ (hl.longest k' o' hp' (fun he => hne (congrArg _ he)) hs)
    | nothing h hn =>
      have hlong : ∀ b k o, b :: k <+: a :: key → b :: k ≠ a :: key → m (b :: k) ≠ some (o, true) := by
        intro b k o hp hne
        obtain ⟨rfl, hp'⟩ := List.cons_prefix_cons.mp hp
        exact hn k o hp' fun he => hne (congrArg _ he)
      rw [Option.map_none, Option.none_or]
      unfold onTheWay
      split
      · next o hs =>
        refine .longest (k := []) h ⟨List.nil_prefix, nofun, hs, fun k' o' hp hne hs' => ?_⟩
        cases k' with
        | nil => exact Nat.le_refl _
        | cons b k' => exact absurd hs' (hlong b k' o' hp hne)
      · next hs =>
        refine .nothing h fun k o hp hne => ?_
        cases k with
        | nil => exact hs o
        | cons b k => exact hlong b k o hp hne

end Beginnings

open Beginnings

-- ---------------------------------------------------------------------------
-- The search
-- ---------------------------------------------------------------------------

namespace StringTree

variable {α ω : Type} [DecidableEq α]

/-- The loop of `search(key,len,olast,m_ptr)`, from `k` on; `pos` is where `key` begins in
the whole string, and `olast` goes together with `m_ptr`. -/
def searchPartial : StringTree α ω → List α → Nat → Option (ω × Nat) → Option (ω × Nat)
  | null, _, _, olast => olast
  | node str o p list next, key, pos, olast =>
    if clen str key = 0 then searchPartial next key pos olast
    else if clen str key = str.length then
      -- `k->search`
      if key.drop (clen str key) = [] then (o.map (·, pos + clen str key)).or olast
      else searchPartial list (key.drop (clen str key)) (pos + clen str key)
        (if p then (o.map (·, pos + clen str key)).or olast else olast)
    else olast

variable {t : StringTree α ω} {key : List α}

/-- Nothing is stored under what a key has in common with a node's string alone. -/
theorem get_short {str k : List α} {o : Option ω} {p : Bool} {list next : StringTree α ω}
    (hr : (node str o p list next).Radix) (hk : k <+: str) (hne : k ≠ str) :
    (node str o p list next).get k = none := by
  obtain ⟨s, rfl⟩ := hk
  have hs : s ≠ [] := fun h => hne (by rw [h, List.append_nil])
  cases k with
  | nil => exact get_nil hr
  | cons a k =>
    obtain ⟨-, -, hh, -, hn⟩ := hr
    have hst : strip (a :: k ++ s) (a :: k) = none := by
      have h : strip (a :: k ++ s) (a :: k ++ []) = strip s [] := strip_append_append
      rw [List.append_nil] at h
      rw [h, strip_nil hs]
    rw [get_of_strip_eq_none hst]
    exact get_eq_none hn hh

theorem searchPartial_eq (hr : t.Radix) (hk : key ≠ []) (pos : Nat) (olast : Option (ω × Nat)) :
    t.searchPartial key pos olast = ((best t.get key).map (further pos)).or olast := by
  induction t generalizing key pos olast with
  | null =>
    have hnone : best (null : StringTree α ω).get key = none := best_eq_none fun k _ => rfl
    rw [hnone]
    rfl
  | node str o p list next ihl ihn =>
    have hrad := hr
    obtain ⟨hs, -, hh, hl, hn⟩ := hr
    cases match_spec hs hk with
    | apart hz hd =>
      have hsame : ∀ k, k <+: key → (node str o p list next).get k = next.get k := by
        intro k hp
        cases k with
        | nil => rw [get_nil hrad, get_nil hn]
        | cons a k =>
          obtain ⟨y, rfl⟩ := hp
          exact get_of_strip_eq_none (strip_of_heads hs hd)
      rw [searchPartial, if_pos hz, best_congr hsame]
      exact ihn hn hk pos olast
    | into x hx hw =>
      subst hx
      have hshort : ∀ k, k <+: str → k ≠ str → (node str o p list next).get k = none :=
        fun k => get_short hrad
      rw [searchPartial, if_neg (by rw [hw]; exact length_ne_zero hs), if_pos hw, hw,
        List.drop_left, best_append hshort]
      cases x with
      | nil =>
        rw [if_pos rfl, best, get_own, if_pos rfl]
        cases o <;> simp [further]
      | cons a x =>
        have hbelow : (fun k => (node str o p list next).get (str ++ a :: k)) =
            fun k => list.get (a :: k) := funext fun k => get_own
        rw [if_neg (List.cons_ne_nil a x), ihl hl (List.cons_ne_nil a x), best, best, hbelow, get_own, if_pos rfl, get_nil hl]
        generalize best (fun k => list.get (a :: k)) x = r
        cases r with
        | some r => simp [further, Nat.add_assoc]
        | none => cases o <;> cases p <;> simp [onTheWay, further]
    | leaves c s x hc h0 hp hx hl' hd =>
      subst hp hx
      have hnone : ∀ k, k <+: c ++ x → (node (c ++ s) o p list next).get k = none := by
        intro k hpre
        by_cases hkc : k <+: c
        · refine get_short hrad (hkc.trans (List.prefix_append c s)) ?_
          rintro rfl
          have hlen := hkc.length_le
          rw [List.length_append] at hlen
          exact length_ne_zero h0 (by omega)
        · obtain ⟨y, rfl⟩ := List.prefix_of_prefix_length_le (List.prefix_append c x) hpre
            (Nat.le_of_not_le fun hle => hkc
              (List.prefix_of_prefix_length_le hpre (List.prefix_append c x) hle))
          rw [List.head?_append_of_ne_nil c hc] at hh
          rw [get_append hc hh hn]
          refine get_of_strip_eq_none (strip_of_heads h0 ?_)
          have hy : y <+: x := (List.prefix_append_right_inj c).mp hpre
          cases y with
          | nil =>
            cases s with
            | nil => exact absurd rfl h0
            | cons b s => exact nofun
          | cons b y =>
            obtain ⟨z, rfl⟩ := hy
            exact hd
      rw [searchPartial, hl', if_neg (length_ne_zero hc), if_neg (length_ne_of_append h0),
        best_eq_none hnone]
      rfl

end StringTree

namespace StdStringTree

open StringTree

variable {α ω : Type} [DecidableEq α]

/-- `search(key,len,thNULL,&m_ptr)`. -/
def searchLast (t : StdStringTree α ω) (key : List α) : Option (ω × Nat) :=
  if key = [] then t.obj.map (·, 0)
  else t.list.searchPartial key 0 (if t.partialFlag then t.obj.map (·, 0) else none)

/-- `search(match_len,key)`, with what it leaves in `match_len`. -/
def searchMatch (t : StdStringTree α ω) (key : List α) : Option ω × Nat :=
  match t.searchLast key with
  | none => (none, 0)
  | some (ret, m) => (some ret, m)

theorem searchLast_eq {t : StdStringTree α ω} (hr : t.list.Radix) (key : List α) :
    t.searchLast key = best t.get key := by
  unfold searchLast
  cases key with
  | nil =>
    rw [if_pos rfl, best, get, if_pos rfl]
    cases t.obj <;> rfl
  | cons a key =>
    have hbelow : (fun k => t.get (a :: k)) = fun k => t.list.get (a :: k) :=
      funext fun k => if_neg (List.cons_ne_nil a k)
    rw [if_neg (List.cons_ne_nil a key), searchPartial_eq hr (List.cons_ne_nil a key), best, best, hbelow, get_nil hr, get, if_pos rfl]
    generalize best (fun k => t.list.get (a :: k)) key = r
    cases r with
    | some r => simp [further]
    | none => cases t.obj <;> cases t.partialFlag <;> simp [onTheWay]

/-- In any run the search finds the object that is stored under the string itself; else that
of its longest proper beginning stored with the flag; else nothing; and the length of the
key that is found. -/
theorem searchMatch_law {tr : List (StringTreeObs ω)} {t : StdStringTree StrChar ω}
    (h : (machine ω).Run tr t) (key : List StrChar) :
    ∃ r, Finds (stock tr) key r ∧
      t.searchMatch key = (r.map Prod.fst, (r.map Prod.snd).getD 0) := by
  obtain ⟨hr, hget, -⟩ := run_stocked h
  refine ⟨best t.get key, hget ▸ best_spec _ key, ?_⟩
  rw [searchMatch, searchLast_eq hr]
  cases best t.get key <;> rfl

/-- "ab" ends in the middle of "abc", which is not stored any more; "a" is. -/
theorem searchMatch_law_shorter : ∃ tr t, (machine Nat).Run tr t ∧
    t.searchMatch (chars [97, 98]) = (some 1, 1) ∧
    ∃ r, Finds (stock tr) (chars [97, 98]) r ∧
      t.searchMatch (chars [97, 98]) = (r.map Prod.fst, (r.map Prod.snd).getD 0) := by
  obtain ⟨tr, t, h, hm⟩ := Machine.exists_run (M := machine Nat) (C := fun _ _ => True)
    (P := fun _ t => t.searchMatch (chars [97, 98]) = (some 1, 1))
    [.ins (chars [97]) 1 true, .ins (chars [97, 98]) 2 false, .ins (chars [97, 98, 99]) 3 true,
      .del (chars [97, 98])]
    (s := ⟨none, false, .null⟩) ⟨rfl, rfl⟩ (by decide +kernel)
  exact ⟨tr, t, h, hm, searchMatch_law h _⟩

end StdStringTree

end TinyState
