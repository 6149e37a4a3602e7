import TinyState.Containers.StringTree

/-!
# Searching the string tree for an object

`search(obj)` gives a key from which the object is found, and `del(obj)` deletes that key and
nothing else. The root has no string of its own: what is stored under the empty key is not
found again, and it hides every other key of the same object.
-/

namespace TinyState

open Transition

namespace StringTree

variable {α ω : Type} [DecidableEq ω]

/-- The loop of `search(obj)`, from `elp` on. -/
def searchObjLoop (obj : ω) : StringTree α ω → Option (List α)
  | null => none
  | node str o _ list next =>
    -- `elp->search(obj)`
    match if o = some obj then some str else (searchObjLoop obj list).map (str ++ ·) with
    | some ret => some ret
    | none => searchObjLoop obj next

variable {obj : ω} {t list next : StringTree α ω} {key str : List α} {o : Option ω} {p flag : Bool}

theorem searchObjLoop_node : (node str o p list next).searchObjLoop obj =
    if o = some obj then some str
    else ((list.searchObjLoop obj).map (str ++ ·)).or (next.searchObjLoop obj) := by
  rw [searchObjLoop]
  split_ifs with ho
  · rfl
  · cases list.searchObjLoop obj <;> rfl

/-- The fragments of the edges, put together on the way back, make a key of the object. -/
theorem searchObjLoop_found (h : t.searchObjLoop obj = some key) :
    ∃ p, (key, (obj, p)) ∈ t.entries := by
  induction t generalizing key with
  | null => cases h
  | node str o p list next ihl ihn =>
    rw [searchObjLoop_node] at h
    split at h
    · next ho =>
      obtain rfl : str = key := Option.some.inj h
      exact ⟨p, mem_entries_node.mpr (.inl ⟨rfl, by rw [ho, Option.map_some]⟩)⟩
    · rcases Option.or_eq_some_iff.mp h with hl | ⟨-, hn⟩
      · obtain ⟨r, hr, rfl⟩ := Option.map_eq_some_iff.mp hl
        obtain ⟨q, hq⟩ := ihl hr
        exact ⟨q, mem_entries_node.mpr (.inr (.inl ⟨r, rfl, hq⟩))⟩
      · obtain ⟨q, hq⟩ := ihn hn
        exact ⟨q, mem_entries_node.mpr (.inr (.inr hq))⟩

theorem searchObjLoop_missing (h : t.searchObjLoop obj = none) :
    (key, (obj, flag)) ∉ t.entries := by
  induction t generalizing key with
  | null => exact List.not_mem_nil
  | node str o p list next ihl ihn =>
    rw [searchObjLoop_node] at h
    split at h
    · cases h
    · next ho =>
      obtain ⟨hl, hn⟩ := Option.or_eq_none_iff.mp h
      rw [mem_entries_node]
      rintro (⟨-, hv⟩ | ⟨r, -, hm⟩ | hm)
      · obtain ⟨o', rfl, he⟩ := Option.map_eq_some_iff.mp hv
        exact ho (congrArg some (Prod.ext_iff.mp he).1)
      · exact ihl (Option.map_eq_none_iff.mp hl) hm
      · exact ihn hn hm

end StringTree

namespace StdStringTree

open StringTree

variable {ω : Type} [DecidableEq ω]

section

variable {α : Type}

/-- `search(obj)`; the string of the root is null. -/
def searchObj (t : StdStringTree α ω) (obj : ω) : Option (List α) :=
  if t.obj = some obj then none else t.list.searchObjLoop obj

variable [DecidableEq α]

/-- `del(obj)`. -/
def delObj (t : StdStringTree α ω) (obj : ω) : Option ω × StdStringTree α ω :=
  match t.searchObj obj with
  | none => (none, t)
  | some path => t.del path

variable {t : StdStringTree α ω} {obj : ω} {key : List α} {flag : Bool}

theorem searchObj_found (hr : t.list.Radix) (h : t.searchObj obj = some key) :
    ∃ p, t.get key = some (obj, p) := by
  unfold searchObj at h
  split at h
  · cases h
  · obtain ⟨p, hp⟩ := searchObjLoop_found h
    exact ⟨p, (mem_entries hr).mp (List.mem_append_right _ hp)⟩

/-- Where the root does not hold the object, a search that finds nothing is right. -/
theorem searchObj_missing (hr : t.list.Radix) (ho : t.obj ≠ some obj)
    (h : t.searchObj obj = none) : t.get key ≠ some (obj, flag) := by
  rw [searchObj, if_neg ho] at h
  intro hg
  rcases List.mem_append.mp ((mem_entries hr).mpr hg) with hm | hm
  · cases hobj : t.obj with
    | none =>
      rw [hobj] at hm
      cases hm
    | some o =>
      rw [hobj] at hm ho
      have he := List.mem_singleton.mp hm
      exact ho (congrArg some (congrArg (fun e => e.2.1) he).symm)
  · exact searchObjLoop_missing h hm

omit [DecidableEq ω] in
theorem get_root : t.get [] = t.obj.map (·, t.partialFlag) := if_pos rfl

end

-- ---------------------------------------------------------------------------
-- Runs
-- ---------------------------------------------------------------------------

/-- The calls by key, and those by object. -/
inductive ReverseAct (ω : Type)
  | call (a : StringTreeAct ω)
  | searchObj (obj : ω)
  | delObj (obj : ω)
  deriving DecidableEq, Repr

inductive ReverseObs (ω : Type)
  | call (o : StringTreeObs ω)
  | foundKey (obj : ω) (key : Option (List StrChar))
  | deletedObj (obj : ω) (path : Option (List StrChar)) (ret : Option ω)
  deriving DecidableEq, Repr

variable {t : StdStringTree StrChar ω} {tr : List (ReverseObs ω)} {obj : ω}

def reverseStep (t : StdStringTree StrChar ω) :
    ReverseAct ω → Option (StdStringTree StrChar ω × List (ReverseObs ω))
  | .call a => (t.step a).map fun r => (r.1, r.2.map .call)
  | .searchObj obj => some (t, [.foundKey obj (t.searchObj obj)])
  | .delObj obj => some ((t.delObj obj).2, [.deletedObj obj (t.searchObj obj) (t.delObj obj).1])

def reverseMachine (ω : Type) [DecidableEq ω] :
    Machine (StdStringTree StrChar ω) (ReverseAct ω) (ReverseObs ω) where
  init t := t.obj = none ∧ t.list = .null
  step := reverseStep

/-- What an observation says about keys: `del(obj)` is a `del` of the key that it has found. -/
def byKey : ReverseObs ω → Option (StringTreeObs ω)
  | .call o => some o
  | .foundKey .. => none
  | .deletedObj _ path ret => path.map (.deleted · ret)

/-- What is stored after the calls. -/
def stored (tr : List (ReverseObs ω)) : Stock ω := stock (tr.filterMap byKey)

/-- `search(obj)` and `del(obj)` do what they should where `m` is stored in the tree. -/
structure Reversible (m : Stock ω) (t : StdStringTree StrChar ω) (obj : ω) : Prop where
  found : ∀ key, t.searchObj obj = some key → ∃ p, m key = some (obj, p)
  missing : t.searchObj obj = none → ∀ key p, m key ≠ some (obj, p)
  returned : (t.delObj obj).1 = (t.searchObj obj).map fun _ => obj
  others : ∀ key v, (key, v) ∈ (t.delObj obj).2.entries ↔
    t.searchObj obj ≠ some key ∧ m key = some v

omit [DecidableEq ω] in
theorem map_call_byKey (os : List (StringTreeObs ω)) :
    (os.map ReverseObs.call).filterMap byKey = os := by
  rw [List.filterMap_map]
  exact List.filterMap_some

/-- With `del(obj)` taken for the `del` of a key, a run is one of calls by key alone. -/
theorem run_byKey (hr : (reverseMachine ω).Run tr t) :
    (machine ω).Run (tr.filterMap byKey) t := by
  refine hr.simulate id byKey (fun _ hi => hi) ?_
  rintro tr t a u os - - - hs
  change t.reverseStep a = some (u, os) at hs
  cases a with
  | call a =>
    obtain ⟨⟨v, os'⟩, hv, he⟩ := Option.map_eq_some_iff.mp hs
    obtain ⟨rfl, rfl⟩ := Prod.ext_iff.mp he
    exact .inr ⟨a, by rw [map_call_byKey]; exact hv⟩
  | searchObj obj =>
    obtain ⟨rfl, rfl⟩ := Prod.ext_iff.mp (Option.some.inj hs)
    exact .inl ⟨rfl, rfl⟩
  | delObj obj =>
    obtain ⟨rfl, rfl⟩ := Prod.ext_iff.mp (Option.some.inj hs)
    cases hk : t.searchObj obj with
    | none => exact .inl ⟨by simp [delObj, hk], by simp [byKey]⟩
    | some key => exact .inr ⟨.del key, by simp [delObj, hk, byKey, machine, step]⟩

/-- What is under the root's own, empty key is the only thing that goes wrong. -/
theorem reverse_law (hr : (reverseMachine ω).Run tr t) (obj : ω) :
    Reversible (stored tr) t obj ↔ ∀ p, stored tr [] ≠ some (obj, p) := by
  obtain ⟨hrad, hget, -⟩ := run_stocked (run_byKey hr)
  change t.get = stored tr at hget
  constructor
  · intro h p hp
    refine h.missing ?_ [] p hp
    rw [← hget, get_root] at hp
    obtain ⟨o, ho, he⟩ := Option.map_eq_some_iff.mp hp
    rw [searchObj, if_pos (ho.trans (congrArg some (Prod.ext_iff.mp he).1))]
  · intro h
    have hroot : t.obj ≠ some obj := fun ho => h t.partialFlag (by rw [← hget, get_root, ho]; rfl)
    refine ⟨fun key hk => hget ▸ searchObj_found hrad hk,
      fun hk key p => hget ▸ searchObj_missing hrad hroot hk, ?_, fun key v => ?_⟩
    · cases hk : t.searchObj obj with
      | none => simp [delObj, hk]
      | some key =>
        obtain ⟨p, hp⟩ := searchObj_found hrad hk
        simp [delObj, hk, (del_spec key hrad).1, hp]
    · cases hk : t.searchObj obj with
      | none => simp [delObj, hk, mem_entries hrad, hget]
      | some path =>
        obtain ⟨-, hrad', hg⟩ := del_spec path hrad
        simp only [delObj, hk, mem_entries hrad', hg, hget, Function.update_apply]
        split
        · next he => simp [he]
        · next he => simp [Ne.symm he]

/-- 1 is stored under "ab" and "ac"; `del(obj)` takes one of them and leaves the other. -/
theorem reverse_law_twice :
    ∃ tr t, (reverseMachine Nat).Run tr t ∧ Reversible (stored tr) t 1 ∧
      stored tr (chars [97, 98]) = none ∧ t.searchObj 1 = some (chars [97, 99]) := by
  obtain ⟨tr, t, hr, h0, h⟩ := Machine.exists_run (M := reverseMachine Nat)
    (C := fun _ _ => True)
    (P := fun tr t => stored tr [] = none ∧ stored tr (chars [97, 98]) = none ∧
      t.searchObj 1 = some (chars [97, 99]))
    [.call (.ins (chars [97, 98]) 1 true), .call (.ins (chars [97, 99]) 1 false), .delObj 1]
    (s := ⟨none, false, .null⟩) ⟨rfl, rfl⟩ (by decide +kernel)
  exact ⟨tr, t, hr, (reverse_law hr 1).mpr (by rw [h0]; exact nofun), h⟩

/-- Under the empty key an object is stored, and neither found nor deleted by `del(obj)`. -/
theorem object_unfound :
    ∃ tr t, (reverseMachine Nat).Run tr t ∧ stored tr [] = some (1, false) ∧
      t.searchObj 1 = none ∧ ¬ Reversible (stored tr) t 1 := by
  obtain ⟨tr, t, hr, hs, hk⟩ := Machine.exists_run (M := reverseMachine Nat)
    (C := fun _ _ => True) (P := fun tr t => stored tr [] = some (1, false) ∧ t.searchObj 1 = none)
    [.call (.ins [] 1 false)] (s := ⟨none, false, .null⟩) ⟨rfl, rfl⟩ (by decide +kernel)
  exact ⟨tr, t, hr, hs, hk, fun h => h.missing hk [] false hs⟩

end StdStringTree

end TinyState
