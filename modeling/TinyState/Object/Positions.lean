import Mathlib.Data.List.Basic
import Mathlib.Logic.Function.Basic

/-!
# Code positions

`CODE_POS` of `sObject.cpp`: the places of the source that have made an object or opened a
descriptor, in a table of 53 chains. A position is known by its index in the order in which they
have been made; none is ever freed.
-/

namespace TinyState

/-- `CODE_POS`. What `cph_next` links is a chain of the table. -/
structure CodePos where
  filename : String
  line : Nat
  subline : Int
  size : Int
  deriving DecidableEq, Repr

def CodePos.Named (cp : CodePos) (file : String) (line : Nat) (subline : Int) : Prop :=
  cp.line = line ∧ cp.subline = subline ∧ cp.filename = file

instance (cp : CodePos) (file : String) (line : Nat) (subline : Int) :
    Decidable (cp.Named file line subline) :=
  inferInstanceAs (Decidable (_ ∧ _ ∧ _))

/-- `__cp_hash`, and the positions that it leads to. -/
structure CpHash where
  pos : List CodePos
  chain : Nat → List Nat

namespace CpHash

def cpHashSize : Nat := 53

def getCpHash (line : Nat) : Nat := line % cpHashSize

def empty : CpHash := ⟨[], fun _ => []⟩

def getCp (t : CpHash) (file : String) (line : Nat) (subline : Int) : Nat × CpHash :=
  let key := getCpHash line
  match (t.chain key).find? fun i => t.pos[i]?.any fun cp => cp.Named file line subline with
  | some i => (i, t)
  | none =>
    (t.pos.length, ⟨t.pos ++ [⟨file, line, subline, 0⟩],
      Function.update t.chain key (t.pos.length :: t.chain key)⟩)

/-- `cp->size` changes. -/
def addSize (t : CpHash) (i : Nat) (size : Int → Int) : CpHash :=
  { t with pos := t.pos.modify i fun cp => { cp with size := size cp.size } }

def sizeOf (t : CpHash) (i : Nat) : Int := (t.pos[i]?.map CodePos.size).getD 0

def fileOf (t : CpHash) (i : Nat) : Option (String × Nat) :=
  t.pos[i]?.map fun cp => (cp.filename, cp.line)

-- ---------------------------------------------------------------------------
-- Chains and names
-- ---------------------------------------------------------------------------

/-- A chain leads to the positions of its lines, and no two positions have the same name. -/
structure Valid (t : CpHash) : Prop where
  chain : ∀ (key i : Nat), i ∈ t.chain key ↔
    ∃ cp : CodePos, t.pos[i]? = some cp ∧ getCpHash cp.line = key
  distinct : ∀ (i : Nat) (cp : CodePos) (j : Nat) (cp' : CodePos), t.pos[i]? = some cp →
    t.pos[j]? = some cp' → cp.Named cp'.filename cp'.line cp'.subline → i = j

variable {t : CpHash} {file : String} {line : Nat} {subline : Int} {i j : Nat} {cp : CodePos}

theorem valid_empty : Valid empty where
  chain key i := by simp [empty]
  distinct i cp j cp' h := by cases h

theorem Valid.named (h : t.Valid) (hi : t.pos[i]? = some cp)
    (hcp : cp.Named file line subline) : i ∈ t.chain (getCpHash line) :=
  (h.chain _ i).mpr ⟨cp, hi, hcp.1 ▸ rfl⟩

-- ---------------------------------------------------------------------------
-- What get_cp does
-- ---------------------------------------------------------------------------

/-- What `get_cp` leads to has the name; it is new only if no position had it. -/
inductive Got (t : CpHash) (file : String) (line : Nat) (subline : Int) : Nat → CpHash → Prop
  | found {i : Nat} {cp : CodePos} : t.pos[i]? = some cp → cp.Named file line subline →
      Got t file line subline i t
  | made : (∀ (i : Nat) (cp : CodePos), t.pos[i]? = some cp → ¬cp.Named file line subline) →
      Got t file line subline t.pos.length ⟨t.pos ++ [⟨file, line, subline, 0⟩],
        Function.update t.chain (getCpHash line) (t.pos.length :: t.chain (getCpHash line))⟩

theorem getCp_got (h : t.Valid) (file : String) (line : Nat) (subline : Int) :
    Got t file line subline (t.getCp file line subline).1 (t.getCp file line subline).2 := by
  unfold getCp
  simp only
  split
  · rename_i i hfind
    have hany := List.find?_some hfind
    obtain ⟨cp, hi, hcp⟩ := Option.any_eq_true _ _ |>.mp hany
    exact .found hi (of_decide_eq_true hcp)
  · rename_i hfind
    refine .made fun i cp hi hcp => ?_
    have hnot := List.find?_eq_none.mp hfind i (h.named hi hcp)
    rw [hi] at hnot
    exact hnot (decide_eq_true hcp)

variable {u : CpHash}

theorem Got.valid (hg : Got t file line subline i u) (h : t.Valid) : u.Valid := by
  cases hg with
  | found => exact h
  | made hnone =>
    have hget : ∀ {j : Nat} {cp : CodePos},
        (t.pos ++ [(⟨file, line, subline, 0⟩ : CodePos)])[j]? = some cp →
        t.pos[j]? = some cp ∨ j = t.pos.length ∧ cp = ⟨file, line, subline, 0⟩ := by
      intro j cp hj
      rcases Nat.lt_trichotomy j t.pos.length with hlt | rfl | hgt
      · exact .inl ((List.getElem?_append_left hlt).symm.trans hj)
      · exact .inr ⟨rfl, by simpa using hj.symm⟩
      · rw [List.getElem?_eq_none (by simp; omega)] at hj
        cases hj
    constructor
    · intro key j
      have hold := h.chain key j
      by_cases hk : key = getCpHash line
      · subst hk
        simp only [Function.update_self, List.mem_cons, hold]
        constructor
        · rintro (rfl | ⟨cp, hcp, he⟩)
          · exact ⟨⟨file, line, subline, 0⟩, by simp, rfl⟩
          · have hlt := (List.getElem?_eq_some_iff.mp hcp).1
            exact ⟨cp, (List.getElem?_append_left hlt).trans hcp, he⟩
        · rintro ⟨cp, hcp, he⟩
          rcases hget hcp with hcp | ⟨rfl, -⟩
          · exact .inr ⟨cp, hcp, he⟩
          · exact .inl rfl
      · simp only [Function.update_of_ne hk, hold]
        constructor
        · rintro ⟨cp, hcp, he⟩
          have hlt := (List.getElem?_eq_some_iff.mp hcp).1
          exact ⟨cp, (List.getElem?_append_left hlt).trans hcp, he⟩
        · rintro ⟨cp, hcp, he⟩
          rcases hget hcp with hcp | ⟨rfl, rfl⟩
          · exact ⟨cp, hcp, he⟩
          · exact absurd he.symm hk
    · intro i cp j cp' hi hj hn
      rcases hget hi with hi | ⟨rfl, rfl⟩ <;> rcases hget hj with hj | ⟨rfl, rfl⟩
      · exact h.distinct i cp j cp' hi hj hn
      · exact absurd hn (hnone i cp hi)
      · exact absurd ⟨hn.1.symm, hn.2.1.symm, hn.2.2.symm⟩ (hnone j cp' hj)
      · rfl

/-- The positions that there have been stay as they are. -/
theorem Got.keeps (hg : Got t file line subline i u) (hj : t.pos[j]? = some cp) :
    u.pos[j]? = some cp := by
  cases hg with
  | found => exact hj
  | made => exact (List.getElem?_append_left (List.getElem?_eq_some_iff.mp hj).1).trans hj

theorem Got.fileOf (hg : Got t file line subline i u) : u.fileOf i = some (file, line) := by
  cases hg with
  | found hi hcp => simp [CpHash.fileOf, hi, hcp.1, hcp.2.2]
  | made => simp [CpHash.fileOf]

theorem Got.fileOf_old (hg : Got t file line subline i u) (hj : j < t.pos.length) :
    u.fileOf j = t.fileOf j := by
  have hcp := List.getElem?_eq_getElem hj
  simp only [CpHash.fileOf]
  rw [hg.keeps hcp, hcp]

theorem Got.lt (hg : Got t file line subline i u) : i < u.pos.length := by
  cases hg with
  | found hi => exact (List.getElem?_eq_some_iff.mp hi).1
  | made => simp

theorem Got.le (hg : Got t file line subline i u) : t.pos.length ≤ u.pos.length := by
  cases hg with
  | found => exact Nat.le_refl _
  | made => simp

/-- A new position has size 0. -/
theorem Got.sizeOf (hg : Got t file line subline i u) (j : Nat) : u.sizeOf j = t.sizeOf j := by
  cases hg with
  | found => rfl
  | made =>
    unfold CpHash.sizeOf
    rcases Nat.lt_trichotomy j t.pos.length with hlt | rfl | hgt
    · rw [List.getElem?_append_left hlt]
    · simp
    · rw [List.getElem?_eq_none (by simp; omega), List.getElem?_eq_none (by omega)]

-- ---------------------------------------------------------------------------
-- A size changes
-- ---------------------------------------------------------------------------

theorem addSize_length (t : CpHash) (i : Nat) (f : Int → Int) :
    (t.addSize i f).pos.length = t.pos.length := List.length_modify ..

theorem addSize_fileOf (t : CpHash) (i : Nat) (f : Int → Int) (j : Nat) :
    (t.addSize i f).fileOf j = t.fileOf j := by
  by_cases h : i = j
  · subst h
    cases hj : t.pos[i]? <;> simp [fileOf, addSize, hj]
  · simp [fileOf, addSize, h]

theorem addSize_sizeOf (hi : i < t.pos.length) (f : Int → Int) (j : Nat) :
    (t.addSize i f).sizeOf j = if j = i then f (t.sizeOf i) else t.sizeOf j := by
  by_cases h : j = i
  · subst h
    simp [CpHash.sizeOf, addSize, hi]
  · simp [CpHash.sizeOf, addSize, h, Ne.symm h]

theorem addSize_get (t : CpHash) (i : Nat) (f : Int → Int) (j : Nat) :
    (t.addSize i f).pos[j]? =
      t.pos[j]?.map fun cp => if i = j then { cp with size := f cp.size } else cp :=
  List.getElem?_modify ..

/-- A position keeps its name. -/
theorem addSize_named {f : Int → Int} (hj : (t.addSize i f).pos[j]? = some cp) :
    ∃ old, t.pos[j]? = some old ∧ old.Named cp.filename cp.line cp.subline := by
  rw [addSize_get] at hj
  obtain ⟨old, hold, rfl⟩ := Option.map_eq_some_iff.mp hj
  refine ⟨old, hold, ?_⟩
  split_ifs <;> exact ⟨rfl, rfl, rfl⟩

theorem Valid.addSize (h : t.Valid) (i : Nat) (f : Int → Int) : (t.addSize i f).Valid where
  chain key j := by
    refine (h.chain key j).trans ⟨?_, ?_⟩
    · rintro ⟨cp, hcp, he⟩
      refine ⟨_, (addSize_get t i f j).trans (congrArg _ hcp), ?_⟩
      split_ifs <;> exact he
    · rintro ⟨cp, hcp, he⟩
      obtain ⟨old, hold, hn⟩ := addSize_named hcp
      exact ⟨old, hold, hn.1 ▸ he⟩
  distinct j cp k cp' hj hk hn := by
    obtain ⟨old, hold, hn1⟩ := addSize_named hj
    obtain ⟨old', hold', hn2⟩ := addSize_named hk
    refine h.distinct j old k old' hold hold' ⟨?_, ?_, ?_⟩
    · rw [hn1.1, hn.1, hn2.1]
    · rw [hn1.2.1, hn.2.1, hn2.2.1]
    · rw [hn1.2.2, hn.2.2, hn2.2.2]

end CpHash

end TinyState
