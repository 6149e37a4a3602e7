import TinyState.Js.Number
import Mathlib.Data.List.Basic

/-!
# Paths of pigData

`set` and `get` of a `pigData` by a dotted path, over the values of JSON, and when they are a
lens. Values are trees: an object is held in one place. Objects and arrays have their own
properties only, the members that the language gives to every object are left out.
-/

namespace TinyState.Js.PigPath

/-- A value; an array has a `length`, and its items are properties. -/
inductive JsData
  | undefined
  | null
  | bool (b : Bool)
  | number (x : JsNumber)
  | string (units : List UInt16)
  | object (props : List (String × JsData))
  | array (length : Nat) (props : List (String × JsData))

/-- The number that a property's name is, if it is one in its plain form. -/
def canonical (k : String) : Option Nat :=
  (JsNumber.digits1 10 k.toList).filter fun i => Nat.repr i = k

/-- The array index that a property's name is. -/
def index (k : String) : Option Nat := (canonical k).filter (· < 2 ^ 32 - 1)

/-- The value of the property `k` becomes `x`. -/
def putProp (k : String) (x : JsData) : List (String × JsData) → List (String × JsData)
  | [] => [(k, x)]
  | (k', y) :: ps => if k' = k then (k, x) :: ps else (k', y) :: putProp k x ps

namespace JsData

/-- `v == null` -/
def nullish : JsData → Bool
  | undefined | null => true
  | _ => false

def typeof : JsData → String
  | undefined => "undefined"
  | null | object _ | array .. => "object"
  | bool _ => "boolean"
  | number _ => "number"
  | string _ => "string"

/-- `v[k]`, where `v` is not nullish -/
def prop : JsData → String → JsData
  | string units, k =>
    if k = "length" then number (.real units.length)
    else match (canonical k).bind (units[·]?) with
      | some unit => string [unit]
      | none => undefined
  | object ps, k => (ps.lookup k).getD undefined
  | array n ps, k => if k = "length" then number (.real n) else (ps.lookup k).getD undefined
  | _, _ => undefined

mutual
/-- The number that a value is converted to. -/
def toNumber : JsData → JsNumber
  | undefined => .nan
  | null => .zero
  | bool b => if b then .real 1 else .zero
  | number x => x
  | string units => .ofString (String.ofList (units.map fun u => Char.ofNat u.toNat))
  | object _ => .nan
  | array n ps => if n = 0 then .zero else if n = 1 then itemNumber ps else .nan
/-- The number of an array's text, which has one item. -/
def itemNumber : List (String × JsData) → JsNumber
  | [] => .zero
  | (k, y) :: ps =>
    if k = "0" then
      match y with
      | undefined => .zero
      | bool _ => .nan
      | y => toNumber y
    else itemNumber ps
end

/-- The length that a value gives to an array: nothing where it is a `RangeError`. -/
def toLength (x : JsData) : Option Nat :=
  match x.toNumber with
  | .real q => if q.den = 1 ∧ 0 ≤ q.num ∧ q.num < 2 ^ 32 then some q.num.toNat else none
  | _ => none

/-- `v[k] = x`: nothing where it throws. -/
def assign (v : JsData) (k : String) (x : JsData) : Option JsData :=
  match v with
  | undefined | null => none
  | object ps => some (object (putProp k x ps))
  | array n ps =>
    if k = "length" then
      x.toLength.map fun m => array m (ps.filter fun p => ∀ i ∈ index p.1, i < m)
    else
      match index k with
      | some i => some (array (max n (i + 1)) (putProp k x ps))
      | none => some (array n (putProp k x ps))
  | v => some v

/-- What `v[k]` refers to has changed in place to `x`. -/
def hold (v : JsData) (k : String) (x : JsData) : JsData :=
  match v with
  | object ps => object (putProp k x ps)
  | array n ps => if k = "length" then array n ps else array n (putProp k x ps)
  | v => v

/-- `if ( typeof(ptr[element]) != "object" ) ptr[element] = {};` -/
def ensure (ptr : JsData) (element : String) : Option JsData :=
  if ptr.nullish then none
  else if (ptr.prop element).typeof ≠ "object" then ptr.assign element (object [])
  else some ptr

/-- A new object: it has no property, and gets one. -/
example (k : String) (x : JsData) :
    (object []).prop k = undefined ∧ (object []).assign k x = some (object [(k, x)]) ∧
      (object []).hold k x = object [(k, x)] ∧
      (object []).ensure k = some (object [(k, object [])]) := by
  simp [prop, assign, hold, ensure, putProp, nullish, typeof]

end JsData

-- ---------------------------------------------------------------------------
-- pigData
-- ---------------------------------------------------------------------------

/-- What is before the first dot, and behind it. -/
def cut : List Char → Option (List Char × List Char)
  | [] => none
  | c :: path => if c = '.' then some ([], path) else (cut path).map fun (e, n) => (c :: e, n)

theorem cut_length {path element next : List Char} (h : cut path = some (element, next)) :
    next.length < path.length := by
  induction path generalizing element with
  | nil => cases h
  | cons c path ih =>
    simp only [cut] at h
    split at h
    · cases h; simp
    · obtain ⟨⟨e, n⟩, hc, h⟩ := Option.map_eq_some_iff.mp h
      cases h
      exact Nat.lt_succ_of_lt (ih hc)

example (path : List Char) : cut ('a' :: '.' :: path) = some (['a'], path) := by simp [cut]

def iSet (ptr : JsData) (path : List Char) (data : JsData) : Option JsData :=
  match _ : cut path with
  | none => ptr.assign (.ofList path) data
  | some (element, next) => do
    let ptr ← ptr.ensure (.ofList element)
    let v ← iSet (ptr.prop (.ofList element)) next data
    some (ptr.hold (.ofList element) v)
termination_by path.length
decreasing_by exact cut_length ‹_›

def iGet (ptr : JsData) (path : List Char) : JsData :=
  if path = [] then ptr
  else if ptr.nullish then .null
  else
    match _ : cut path with
    -- with nothing left the path is empty
    | none => ptr.prop (.ofList path)
    | some (element, next) =>
      if ptr.typeof ≠ "object" then .null
      else if (ptr.prop (.ofList element)).typeof ≠ "object" then .null
      else iGet (ptr.prop (.ofList element)) next
termination_by path.length
decreasing_by exact cut_length ‹_›

structure PigData where
  type : String
  d : JsData

namespace PigData

/-- `new pigData("pure",d)` -/
def pure (d : JsData) : PigData := ⟨"pure", d⟩

def set (self : PigData) (path : String) (data : PigData) : Option PigData :=
  if path = "" then some { self with d := data.d, type := data.type }
  else if self.type ≠ "pure" then some self
  else do
    let d ← iSet self.d path.toList data.d
    some { self with d }

def get (self : PigData) (path : String) : PigData :=
  if path = "" then self
  else if self.type ≠ "pure" then pure .null
  else pure (iGet self.d path.toList)

end PigData

-- ---------------------------------------------------------------------------
-- Paths as lists of elements
-- ---------------------------------------------------------------------------

/-- A name that can be an element of a path. -/
def Plain (e : String) : Prop := e ≠ "" ∧ '.' ∉ e.toList

/-- A dotted path of names. -/
structure Path where
  elements : List String
  nonempty : elements ≠ []
  plain : ∀ e ∈ elements, Plain e

def Path.text (p : Path) : String := ".".intercalate p.elements

/-- Neither path is a prefix of the other. -/
def Apart (p q : List String) : Prop := ¬ p <+: q ∧ ¬ q <+: p

namespace JsData

def isContainer : JsData → Bool
  | object _ | array .. => true
  | _ => false

/-- `pigData.i_set`, by the elements of the path -/
def put (ptr : JsData) (data : JsData) : List String → Option JsData
  | [] => none
  | [e] => ptr.assign e data
  | e :: e' :: es => do
    let ptr ← ptr.ensure e
    let v ← (ptr.prop e).put data (e' :: es)
    some (ptr.hold e v)

/-- `pigData.i_get`, by the elements of the path -/
def fetch (ptr : JsData) : List String → JsData
  | [] => ptr
  | [e] => if ptr.nullish then null else ptr.prop e
  | e :: e' :: es =>
    if ptr.isContainer ∧ (ptr.prop e).isContainer then (ptr.prop e).fetch (e' :: es) else null

end JsData

example (ptr data : JsData) (e : String) :
    ptr.put data [e] = ptr.assign e data ∧ iSet ptr [] data = ptr.assign "" data := by
  rw [JsData.put, iSet]
  exact ⟨rfl, rfl⟩

example (e : String) :
    JsData.null.typeof = "object" ∧ ¬ JsData.null.isContainer ∧ JsData.null.fetch [e] = .null ∧
      iGet .null [] = .null := by
  rw [iGet]
  simp [JsData.typeof, JsData.isContainer, JsData.fetch, JsData.nullish]

theorem cut_plain {e : List Char} (he : '.' ∉ e) : cut e = none := by
  induction e with
  | nil => rfl
  | cons c e ih =>
    simp only [List.mem_cons, not_or] at he
    simp [cut, Ne.symm he.1, ih he.2]

theorem cut_append {e : List Char} (he : '.' ∉ e) (path : List Char) :
    cut (e ++ '.' :: path) = some (e, path) := by
  induction e with
  | nil => rfl
  | cons c e ih =>
    simp only [List.mem_cons, not_or] at he
    simp [cut, Ne.symm he.1, ih he.2]

/-- The text of a path, as characters. -/
def dotted (es : List String) : List Char := (".".intercalate es).toList

example : dotted [] = [] := by simp [dotted]

theorem dotted_single (e : String) : dotted [e] = e.toList := by simp [dotted]

theorem dotted_cons (e e' : String) (es : List String) :
    dotted (e :: e' :: es) = e.toList ++ '.' :: dotted (e' :: es) := by
  simp [dotted, String.intercalate_cons_cons]

theorem dotted_ne_nil {e : String} (es : List String) (he : Plain e) : dotted (e :: es) ≠ [] := by
  cases es with
  | nil => simpa [dotted_single] using he.1
  | cons e' es => simp [dotted_cons]

theorem iSet_dotted (ptr data : JsData) (es : List String) (hes : es ≠ [])
    (hp : ∀ e ∈ es, Plain e) : iSet ptr (dotted es) data = ptr.put data es := by
  induction es generalizing ptr with
  | nil => exact absurd rfl hes
  | cons e es ih =>
    have he := (hp e (by simp)).2
    cases es with
    | nil =>
      rw [dotted_single, iSet]
      split
      · simp [JsData.put]
      · rename_i h; simp [cut_plain he] at h
    | cons e' es =>
      rw [dotted_cons, iSet]
      split
      · rename_i h; simp [cut_append he] at h
      · rename_i element next h
        obtain ⟨rfl, rfl⟩ : e.toList = element ∧ dotted (e' :: es) = next := by
          simpa [cut_append he] using h
        simp only [String.ofList_toList, JsData.put]
        congr 1
        funext ptr
        rw [ih (ptr.prop e) (by simp) fun x hx => hp x (List.mem_cons_of_mem _ hx)]

theorem typeof_object (v : JsData) : v.typeof = "object" ↔ v.isContainer ∨ v = .null := by
  cases v <;> simp [JsData.typeof, JsData.isContainer]

theorem fetch_null (es : List String) (hes : es ≠ []) : JsData.null.fetch es = .null := by
  rcases es with _ | ⟨e, _ | ⟨e', es⟩⟩ <;>
    simp_all [JsData.fetch, JsData.nullish, JsData.isContainer]

theorem iGet_dotted (ptr : JsData) (es : List String) (hes : es ≠ [])
    (hp : ∀ e ∈ es, Plain e) : iGet ptr (dotted es) = ptr.fetch es := by
  induction es generalizing ptr with
  | nil => exact absurd rfl hes
  | cons e es ih =>
    have he := hp e (by simp)
    rw [iGet, if_neg (dotted_ne_nil es he)]
    cases es with
    | nil =>
      rw [dotted_single, JsData.fetch]
      split
      · rfl
      · split
        · simp
        · rename_i h; simp [cut_plain he.2] at h
    | cons e' es =>
      specialize ih (ptr.prop e) (by simp) fun x hx => hp x (List.mem_cons_of_mem _ hx)
      rw [dotted_cons]
      split
      · rename_i hn
        cases ptr <;> simp_all [JsData.fetch, JsData.nullish, JsData.isContainer]
      · rename_i hn
        split
        · rename_i h; simp [cut_append he.2] at h
        · rename_i element next h
          obtain ⟨rfl, rfl⟩ : e.toList = element ∧ dotted (e' :: es) = next := by
            simpa [cut_append he.2] using h
          have hnull : ptr ≠ .null := by rintro rfl; exact hn rfl
          simp only [String.ofList_toList, ih, ne_eq, typeof_object, hnull, or_false, JsData.fetch]
          by_cases hc : ptr.isContainer
          · by_cases hw : ptr.prop e = .null
            · simp [hw, fetch_null, JsData.isContainer]
            · cases hv : (ptr.prop e).isContainer <;> simp [hc, hw, hv, typeof_object]
          · simp [hc]

-- ---------------------------------------------------------------------------
-- One property
-- ---------------------------------------------------------------------------

/-- Results that are told apart by nothing: both are null for `getType()`, or they are equal. -/
def Alike (v w : JsData) : Prop := v = w ∨ v.nullish ∧ w.nullish

theorem canonical_eq_some {k : String} {i : Nat} (h : canonical k = some i) : Nat.repr i = k := by
  simpa using (Option.filter_eq_some_iff.mp h).2

theorem index_eq_some {k : String} {i : Nat} (h : index k = some i) : Nat.repr i = k :=
  canonical_eq_some (Option.filter_eq_some_iff.mp h).1

theorem isDigit_of_mem_repr {i : Nat} {c : Char} (h : c ∈ (Nat.repr i).toList) : c.isDigit :=
  Nat.isDigit_of_mem_toDigits (b := 10) (by decide) (by decide) (by simpa using h)

theorem plain_repr (i : Nat) : Plain (Nat.repr i) :=
  ⟨Nat.repr_ne_empty, fun h => absurd (isDigit_of_mem_repr h) (by decide)⟩

theorem plain_length : Plain "length" := ⟨by decide, by decide⟩

theorem index_length : index "length" = none := by
  refine Option.eq_none_iff_forall_ne_some.mpr fun i h => ?_
  have hl : 'l' ∈ (Nat.repr i).toList := by simp [index_eq_some h]
  exact absurd (isDigit_of_mem_repr hl) (by decide)

theorem lookup_cons (k j : String) (y : JsData) (ps : List (String × JsData)) :
    ((j, y) :: ps).lookup k = if k = j then some y else ps.lookup k := by
  by_cases h : k = j
  · simp [h]
  · simp [List.lookup_cons, h, beq_false_of_ne h]

theorem lookup_putProp (k k' : String) (x : JsData) (ps : List (String × JsData)) :
    (putProp k x ps).lookup k' = if k' = k then some x else ps.lookup k' := by
  induction ps with
  | nil => simp [putProp, lookup_cons]
  | cons p ps ih =>
    obtain ⟨j, y⟩ := p
    simp only [putProp]
    split
    · rename_i hj
      subst hj
      by_cases h : k' = j <;> simp [lookup_cons, h]
    · rename_i hj
      by_cases h : k' = j
      · subst h; simp [hj]
      · simp [lookup_cons, h, ih]

theorem lookup_filter (f : String → Bool) (k : String) (ps : List (String × JsData)) :
    (ps.filter fun p => f p.1).lookup k = if f k then ps.lookup k else none := by
  induction ps with
  | nil => simp
  | cons p ps ih =>
    obtain ⟨j, y⟩ := p
    rw [List.filter_cons, lookup_cons]
    by_cases hf : f j
    · rw [if_pos hf, lookup_cons, ih]
      by_cases h : k = j
      · subst h; rw [if_pos rfl, if_pos rfl, if_pos hf]
      · rw [if_neg h, if_neg h]
    · rw [if_neg hf, ih]
      by_cases h : k = j
      · subst h; rw [if_neg hf, if_neg hf]
      · rw [if_neg h]

-- ---------------------------------------------------------------------------
-- When a path can be set
-- ---------------------------------------------------------------------------

namespace JsData

/-- Whether a container takes a value at `k` without changing what it has elsewhere. -/
def Slot : JsData → String → Prop
  | object _, _ => True
  | array n _, k => k ≠ "length" ∧ ∀ i ∈ index k, i < n
  | _, _ => False

/-- Whether assigning `x` at `k` leaves `x` there, and changes nothing that is told apart. A
length is a number, and cuts nothing off but nulls. -/
def Assignable (v : JsData) (k : String) (x : JsData) : Prop :=
  match v with
  | array n ps =>
    if k = "length" then
      ∃ m : Nat, x = number (.real m) ∧ m < 2 ^ 32 ∧
        ∀ k' i, index k' = some i → m ≤ i → ((array n ps).prop k').nullish
    else Slot (array n ps) k
  | v => Slot v k

/-- Whether the path can be set in a container: no `null` is on the way, and where something else
than a container is replaced by an object, the container above has room for it. -/
def Fit (v : JsData) (x : JsData) : List String → Prop
  | [] => False
  | [e] => Assignable v e x
  | e :: e' :: es =>
    if (v.prop e).isContainer then (v.prop e).Fit x (e' :: es)
    else v.prop e ≠ null ∧ Slot v e

/-- Whether all before the last element has a value that is not nullish. -/
def Reaches (v : JsData) : List String → Prop
  | [] => True
  | e :: es => ¬ v.nullish ∧ (v.prop e).Reaches es

/-- Whether a value that is no container, and ignores what is assigned, has `x` there anyway. -/
def Ignores (v : JsData) (x : JsData) : List String → Prop
  | [] => False
  | [e] => ¬ v.nullish ∧ v.prop e = x
  | e :: e' :: es => x = null ∧ v.Reaches (e :: e' :: es)

/-- Whether the path can be set. -/
def Fits (v : JsData) (es : List String) (x : JsData) : Prop :=
  if v.isContainer then v.Fit x es else v.Ignores x es

end JsData

open JsData

/-- The laws of a lens: `x` is set at the path and read there again, and nothing apart from it is
changed. -/
def Lawful (v : JsData) (es : List String) (x : JsData) : Prop :=
  ∃ v', v.put x es = some v' ∧ v'.fetch es = x ∧
    ∀ q : Path, Apart es q.elements → Alike (v'.fetch q.elements) (v.fetch q.elements)

theorem Alike.refl (v : JsData) : Alike v v := .inl rfl

theorem not_nullish_of_container {v : JsData} (h : v.isContainer) : ¬ v.nullish := by
  cases v <;> simp_all [isContainer, nullish]

theorem fetch_single {v : JsData} (h : v.isContainer) (e : String) : v.fetch [e] = v.prop e := by
  simp [fetch, not_nullish_of_container h]

/-- Two containers that are alike at `k` are alike at all paths from there on. -/
theorem fetch_alike {v w : JsData} (hv : v.isContainer) (hw : w.isContainer) {k : String}
    (h : Alike (v.prop k) (w.prop k)) (es : List String) :
    Alike (v.fetch (k :: es)) (w.fetch (k :: es)) := by
  cases es with
  | nil => simpa [fetch_single, hv, hw] using h
  | cons e es =>
    rcases h with h | ⟨h, h'⟩
    · left; simp [fetch, hv, hw, h]
    · have hc : ¬ (v.prop k).isContainer := fun hc => not_nullish_of_container hc h
      have hc' : ¬ (w.prop k).isContainer := fun hc => not_nullish_of_container hc h'
      left; simp [fetch, hc, hc']

/-- A container takes a value at a slot. -/
theorem assign_slot {v : JsData} {k : String} (h : Slot v k) (x : JsData) :
    ∃ v', v.assign k x = some v' ∧ v'.isContainer ∧ v'.prop k = x ∧
      ∀ k' ≠ k, v'.prop k' = v.prop k' := by
  cases v with
  | object ps =>
    refine ⟨_, rfl, rfl, ?_, ?_⟩
    · simp [prop, lookup_putProp]
    · intro k' hk'
      simp [prop, lookup_putProp, hk']
  | array n ps =>
    obtain ⟨hl, hi⟩ := h
    refine ⟨array n (putProp k x ps), ?_, rfl, ?_, ?_⟩
    · cases hx : index k with
      | none => simp [assign, hl, hx]
      | some i => simp [assign, hl, hx, Nat.max_eq_left (hi i hx)]
    · simp [prop, hl, lookup_putProp]
    · intro k' hk'
      simp [prop, lookup_putProp, hk']
  | _ => cases h

theorem array_length (n : Nat) (ps : List (String × JsData)) :
    (array n ps).prop "length" = number (.real n) := by simp [prop]

theorem array_prop {k : String} (hk : k ≠ "length") (n : Nat) (ps : List (String × JsData)) :
    (array n ps).prop k = (ps.lookup k).getD undefined := by simp [prop, hk]

/-- A number that becomes the length of an array is read there again. -/
theorem toLength_number {x : JsData} {m : Nat} (hx : x = number (.real m)) (hm : m < 2 ^ 32) :
    x.toLength = some m := by
  subst hx
  simp only [toLength, toNumber, Rat.den_natCast, Rat.num_natCast]
  rw [if_pos ⟨trivial, by omega, by omega⟩, Int.toNat_natCast]

theorem toLength_lt {x : JsData} {m : Nat} (h : x.toLength = some m) : m < 2 ^ 32 := by
  unfold toLength at h
  split at h
  · rename_i q _
    split at h
    · rename_i hq
      cases h
      omega
    · cases h
  · cases h

/-- What is left of an array that is cut to the length `m`. -/
theorem cut_prop {k : String} (hk : k ≠ "length") (n m : Nat) (ps : List (String × JsData)) :
    (array m (ps.filter fun p => ∀ i ∈ index p.1, i < m)).prop k =
      if ∀ i ∈ index k, i < m then (array n ps).prop k else undefined := by
  rw [array_prop hk, array_prop hk, lookup_filter (fun k => ∀ i ∈ index k, i < m)]
  simp only [decide_eq_true_eq]
  split <;> rfl

theorem assign_length {n : Nat} {ps : List (String × JsData)} {x : JsData}
    (h : Assignable (array n ps) "length" x) :
    ∃ v', (array n ps).assign "length" x = some v' ∧ v'.isContainer ∧ v'.prop "length" = x ∧
      ∀ k' ≠ "length", Alike (v'.prop k') ((array n ps).prop k') := by
  obtain ⟨m, rfl, hm, hcut⟩ := h
  refine ⟨array m (ps.filter fun p => ∀ i ∈ index p.1, i < m), ?_, rfl, array_length .., ?_⟩
  · simp only [assign, if_true, toLength_number rfl hm, Option.map_some]
  intro k hk
  rw [cut_prop hk n]
  split
  · exact .refl _
  · rename_i hi
    push Not at hi
    obtain ⟨i, hki, hle⟩ := hi
    exact .inr ⟨rfl, hcut k i hki hle⟩

/-- What can be assigned is assigned. -/
theorem assign_assignable {v : JsData} {k : String} {x : JsData} (h : Assignable v k x) :
    ∃ v', v.assign k x = some v' ∧ v'.isContainer ∧ v'.prop k = x ∧
      ∀ k' ≠ k, Alike (v'.prop k') (v.prop k') := by
  by_cases hs : Slot v k
  · obtain ⟨v', ha, hc, hx, hrest⟩ := assign_slot hs x
    exact ⟨v', ha, hc, hx, fun k' hk' => .inl (hrest k' hk')⟩
  · cases v with
    | array n ps =>
      by_cases hl : k = "length"
      · subst hl; exact assign_length h
      · simp [Assignable, hl, hs] at h
    | _ => exact absurd h hs

/-- Only an array has a length to lose. -/
theorem grown_length {n i : Nat} {ps : List (String × JsData)} (hi : n ≤ i)
    {v : JsData} (hl : v.prop "length" = number (.real ↑(max n (i + 1)))) :
    ¬ Alike (v.prop "length") ((array n ps).prop "length") := by
  rw [hl, array_length]
  rintro (h | ⟨h, -⟩)
  · simp only [number.injEq, JsNumber.real.injEq, Nat.cast_inj] at h
    omega
  · cases h

/-- A container whose length is changed by an assignment at `k` is not alike. -/
theorem assign_grown {n i : Nat} {k : String} {ps : List (String × JsData)} {x v' : JsData}
    (hl : k ≠ "length") (hk : index k = some i) (hi : n ≤ i)
    (h : (array n ps).assign k x = some v') :
    v'.isContainer ∧ ¬ Alike (v'.prop "length") ((array n ps).prop "length") := by
  simp only [assign, hl, if_false, hk, Option.some.injEq] at h
  subst h
  exact ⟨rfl, grown_length hi (array_length ..)⟩

theorem assign_container {v v' : JsData} {k : String} {x : JsData} (hv : v.isContainer)
    (h : v.assign k x = some v') : v'.isContainer := by
  cases v with
  | object ps => cases h; rfl
  | array n ps =>
    simp only [assign] at h
    split at h
    · obtain ⟨m, -, rfl⟩ := Option.map_eq_some_iff.mp h; rfl
    · split at h <;> cases h <;> rfl
  | _ => cases hv

/-- An assignment that leaves `x` at `k`, and at all other names what is alike, was possible. -/
theorem assignable_of_assign {v v' : JsData} {k : String} {x : JsData} (hv : v.isContainer)
    (h : v.assign k x = some v') (hx : v'.prop k = x)
    (hrest : ∀ k', Plain k' → k' ≠ k → Alike (v'.prop k') (v.prop k')) : Assignable v k x := by
  cases v with
  | object ps => trivial
  | array n ps =>
    by_cases hl : k = "length"
    · subst hl
      simp only [assign, if_true] at h
      obtain ⟨m, hm, rfl⟩ := Option.map_eq_some_iff.mp h
      rw [array_length] at hx
      refine ⟨m, hx.symm, toLength_lt hm, fun k' i hk' hi => ?_⟩
      have hne : k' ≠ "length" := by rintro rfl; simp [index_length] at hk'
      have hp : Plain k' := by rw [← index_eq_some hk']; exact plain_repr i
      have halike := hrest k' hp hne
      rw [cut_prop hne n, if_neg fun hall => absurd (hall i hk') (by omega)] at halike
      rcases halike with h | h
      · rw [← h]; rfl
      · exact h.2
    · rw [Assignable, if_neg hl]
      refine ⟨hl, fun i hi => ?_⟩
      by_contra hle
      obtain ⟨-, hgrown⟩ := assign_grown hl hi (by omega) h
      exact hgrown (hrest _ plain_length (Ne.symm hl))
  | _ => cases hv

/-- What changes in place at a name that refers to a container. -/
theorem hold_prop {v : JsData} {k : String} (hv : (v.prop k).isContainer) (x : JsData) :
    (v.hold k x).isContainer ∧ (v.hold k x).prop k = x ∧
      ∀ k' ≠ k, (v.hold k x).prop k' = v.prop k' := by
  cases v with
  | object ps =>
    refine ⟨rfl, ?_, ?_⟩
    · simp [hold, prop, lookup_putProp]
    · intro k' hk'
      simp [hold, prop, lookup_putProp, hk']
  | array n ps =>
    have hl : k ≠ "length" := by rintro rfl; simp [prop, isContainer] at hv
    refine ⟨?_, ?_, ?_⟩
    · simp [hold, hl, isContainer]
    · simp [hold, hl, prop, lookup_putProp]
    · intro k' hk'
      simp [hold, hl, prop, lookup_putProp, hk']
  | string units =>
    simp only [prop] at hv
    split at hv
    · cases hv
    · split at hv <;> cases hv
  | _ => cases hv

theorem put_container {v v' x : JsData} {es : List String} (hv : v.isContainer)
    (h : v.put x es = some v') : v'.isContainer := by
  rcases es with _ | ⟨e, _ | ⟨e', es⟩⟩
  · cases h
  · exact assign_container hv h
  · simp only [put, Option.bind_eq_bind, Option.bind_eq_some_iff] at h
    obtain ⟨u, hu, w, -, h⟩ := h
    cases h
    have hc : u.isContainer := by
      simp only [ensure, not_nullish_of_container hv, Bool.false_eq_true, if_false] at hu
      split at hu
      · exact assign_container hv hu
      · cases hu; exact hv
    cases u with
    | object ps => rfl
    | array n ps => simp only [hold]; split <;> rfl
    | _ => cases hc

-- ---------------------------------------------------------------------------
-- The laws of one element
-- ---------------------------------------------------------------------------

theorem apart_of_ne {e k : String} (h : k ≠ e) (es r : List String) :
    Apart (e :: es) (k :: r) := by
  simp [Apart, h, Ne.symm h]

theorem apart_cons {e : String} {es q : List String} :
    Apart (e :: es) (e :: q) ↔ Apart es q := by
  simp [Apart]

theorem Path.single_plain (k : String) (hk : Plain k) : ∃ q : Path, q.elements = [k] :=
  ⟨⟨[k], by simp, by simpa using hk⟩, rfl⟩

theorem lawful_single {v : JsData} (hv : v.isContainer) (e : String) (x : JsData) :
    Lawful v [e] x ↔ Assignable v e x := by
  constructor
  · rintro ⟨v', h, hx, hrest⟩
    have hc := assign_container hv h
    rw [fetch_single hc] at hx
    refine assignable_of_assign hv h hx fun k hk hne => ?_
    obtain ⟨q, hq⟩ := Path.single_plain k hk
    have := hrest q (by rw [hq]; exact apart_of_ne hne _ _)
    rwa [hq, fetch_single hc, fetch_single hv] at this
  · intro h
    obtain ⟨v', ha, hc, hx, hrest⟩ := assign_assignable h
    refine ⟨v', ha, ?_, ?_⟩
    · rw [fetch_single hc, hx]
    · intro q hq
      obtain ⟨_ | ⟨k, es⟩, hne, hp⟩ := q
      · exact absurd rfl hne
      · refine fetch_alike hc hv (hrest k ?_) es
        rintro rfl
        exact hq.1 (by simp)

-- ---------------------------------------------------------------------------
-- The laws of a path
-- ---------------------------------------------------------------------------

theorem fetch_cons {v : JsData} (hv : v.isContainer) {e : String} (hw : (v.prop e).isContainer)
    {es : List String} (hes : es ≠ []) : v.fetch (e :: es) = (v.prop e).fetch es := by
  cases es with
  | nil => exact absurd rfl hes
  | cons e' es => simp [fetch, hv, hw]

/-- Where an element refers to a container, the laws are those of that container. -/
theorem lawful_descend {v : JsData} (hv : v.isContainer) {e : String} (he : Plain e)
    (hw : (v.prop e).isContainer) (e' : String) (es : List String) (x : JsData) :
    Lawful v (e :: e' :: es) x ↔ Lawful (v.prop e) (e' :: es) x := by
  have hput : v.put x (e :: e' :: es) = ((v.prop e).put x (e' :: es)).map (v.hold e) := by
    have hensure : v.ensure e = some v := by
      simp [ensure, not_nullish_of_container hv, (typeof_object _).mpr (.inl hw)]
    simp only [put, hensure, Option.bind_eq_bind, Option.bind_some]
    cases (v.prop e).put x (e' :: es) <;> rfl
  have hstep : ∀ w, (v.prop e).put x (e' :: es) = some w →
      ∀ q ≠ [], (v.hold e w).fetch (e :: q) = w.fetch q := fun w h q hq => by
    obtain ⟨hc, hp, -⟩ := hold_prop hw w
    rw [fetch_cons hc (by rw [hp]; exact put_container hw h) hq, hp]
  constructor
  · rintro ⟨v', h', hx, hrest⟩
    rw [hput] at h'
    obtain ⟨w, h, rfl⟩ := Option.map_eq_some_iff.mp h'
    refine ⟨w, h, ?_, fun q hq => ?_⟩
    · rw [← hx, hstep w h _ (by simp)]
    · have := hrest ⟨e :: q.elements, by simp, by simpa [he] using q.plain⟩ (apart_cons.mpr hq)
      rwa [hstep w h _ q.nonempty, fetch_cons hv hw q.nonempty] at this
  · rintro ⟨w, h, hx, hrest⟩
    obtain ⟨hc, hp, hother⟩ := hold_prop hw w
    refine ⟨v.hold e w, by rw [hput, h]; rfl, ?_, fun q hq => ?_⟩
    · rw [hstep w h _ (by simp), hx]
    · obtain ⟨_ | ⟨k, r⟩, hne, hplain⟩ := q
      · exact absurd rfl hne
      · by_cases hk : k = e
        · subst hk
          have hr : r ≠ [] := by rintro rfl; exact hq.2 (by simp)
          rw [hstep w h _ hr, fetch_cons hv hw hr]
          exact hrest ⟨r, hr, fun y hy => hplain y (by simp [hy])⟩ (apart_cons.mp hq)
        · exact fetch_alike hc hv (.inl (hother k hk)) r

theorem fetch_empty (es : List String) (hes : es ≠ []) : ((object []).fetch es).nullish := by
  rcases es with _ | ⟨e, _ | ⟨e', es⟩⟩
  · exact absurd rfl hes
  · rfl
  · rfl

/-- Where an object is created for an element, the laws follow from those of the new object. -/
theorem lawful_create {v : JsData} (hv : v.isContainer) {e : String}
    (hw : ¬ (v.prop e).isContainer) (hnull : v.prop e ≠ null) (hs : Slot v e) {e' : String}
    {es : List String} {x : JsData} (h : Lawful (object []) (e' :: es) x) :
    Lawful v (e :: e' :: es) x := by
  obtain ⟨w, h, hx, hrest⟩ := h
  obtain ⟨v₁, ha, -, hp, hother⟩ := assign_slot hs (object [])
  have hensure : v.ensure e = some v₁ := by
    simp [ensure, not_nullish_of_container hv, typeof_object, hw, hnull, ha]
  obtain ⟨hc', hp', hother'⟩ := hold_prop (v := v₁) (k := e) (by rw [hp]; rfl) w
  have hw' : w.isContainer := put_container (v := object []) rfl h
  refine ⟨v₁.hold e w, ?_, ?_, fun q hq => ?_⟩
  · simp [put, hensure, hp, h]
  · rw [fetch_cons hc' (by rw [hp']; exact hw') (by simp), hp', hx]
  · obtain ⟨_ | ⟨k, r⟩, hne, hplain⟩ := q
    · exact absurd rfl hne
    · by_cases hk : k = e
      · subst hk
        have hr : r ≠ [] := by rintro rfl; exact hq.2 (by simp)
        have hbefore : (v.fetch (k :: r)).nullish := by
          cases r with
          | nil => exact absurd rfl hr
          | cons => simp [fetch, hw, nullish]
        rw [fetch_cons hc' (by rw [hp']; exact hw') hr, hp']
        rcases hrest ⟨r, hr, fun y hy => hplain y (by simp [hy])⟩ (apart_cons.mp hq) with h | h
        · exact .inr ⟨by rw [h]; exact fetch_empty r hr, hbefore⟩
        · exact .inr ⟨h.1, hbefore⟩
      · exact fetch_alike hc' hv (.inl ((hother' k hk).trans (hother k hk))) r

/-- Without room for it, the new object changes the length of the array above. -/
theorem not_lawful_create {v : JsData} (hv : v.isContainer) {e : String}
    (hw : ¬ (v.prop e).isContainer) (hnull : v.prop e ≠ null) (hs : ¬ Slot v e) (e' : String)
    (es : List String) (x : JsData) : ¬ Lawful v (e :: e' :: es) x := by
  rintro ⟨v', h, -, hrest⟩
  have hensure : v.ensure e = v.assign e (object []) := by
    simp [ensure, not_nullish_of_container hv, typeof_object, hw, hnull]
  simp only [put, hensure, Option.bind_eq_bind, Option.bind_eq_some_iff] at h
  obtain ⟨v₁, ha, w, -, h⟩ := h
  cases h
  cases v with
  | object ps => exact hs trivial
  | array n ps =>
    by_cases hl : e = "length"
    · subst hl
      cases ha
    · obtain ⟨i, hi, hle⟩ : ∃ i ∈ index e, n ≤ i := by
        by_contra hno
        push Not at hno
        exact hs ⟨hl, hno⟩
      obtain ⟨hc₁, hgrown⟩ := assign_grown hl hi hle ha
      simp only [assign, hl, if_false, Option.mem_def.mp hi, Option.some.injEq] at ha
      subst ha
      have hp : (array (max n (i + 1)) (putProp e (object []) ps)).prop e = object [] := by
        simp [array_prop hl, lookup_putProp]
      obtain ⟨hc', -, hother⟩ := hold_prop (by rw [hp]; rfl) w
      obtain ⟨q, hq⟩ := Path.single_plain _ plain_length
      have := hrest q (by rw [hq]; exact apart_of_ne (Ne.symm hl) _ _)
      rw [hq, fetch_single hc', fetch_single hv, hother _ (Ne.symm hl)] at this
      exact hgrown this
  | _ => cases hv

/-- A `null` on the way is not replaced, and nothing can be set in it. -/
theorem not_lawful_null {v : JsData} (hv : v.isContainer) {e : String} (hnull : v.prop e = null)
    (e' : String) (es : List String) (x : JsData) : ¬ Lawful v (e :: e' :: es) x := by
  rintro ⟨v', h, -⟩
  have hensure : v.ensure e = some v := by
    simp [ensure, not_nullish_of_container hv, hnull, typeof]
  have hnone : null.put x (e' :: es) = none := by cases es <;> rfl
  simp [put, hensure, hnull, hnone] at h

theorem fit_empty (x : JsData) (es : List String) (hes : es ≠ []) : (object []).Fit x es := by
  rcases es with _ | ⟨e, _ | ⟨e', es⟩⟩
  · exact absurd rfl hes
  · trivial
  · simp [Fit, prop, isContainer, Slot]

/-- In a container exactly what fits is lawful. -/
theorem lawful_fit {v : JsData} (hv : v.isContainer) (es : List String) (hes : es ≠ [])
    (hp : ∀ e ∈ es, Plain e) (x : JsData) : Lawful v es x ↔ v.Fit x es := by
  induction es generalizing v with
  | nil => exact absurd rfl hes
  | cons e es ih =>
    cases es with
    | nil => exact lawful_single hv e x
    | cons e' es =>
      have ih := fun {v} hv => ih (v := v) hv (by simp) fun y hy => hp y (List.mem_cons_of_mem _ hy)
      rw [Fit]
      split
      · rename_i hw
        rw [lawful_descend hv (hp e (by simp)) hw, ih hw]
      · rename_i hw
        constructor
        · intro h
          refine ⟨fun hnull => not_lawful_null hv hnull _ _ _ h, ?_⟩
          by_contra hs
          by_cases hnull : v.prop e = null
          · exact not_lawful_null hv hnull _ _ _ h
          · exact not_lawful_create hv hw hnull hs _ _ _ h
        · rintro ⟨hnull, hs⟩
          exact lawful_create hv hw hnull hs ((ih rfl).mpr (fit_empty _ _ (by simp)))

theorem prop_primitive {v : JsData} (hv : ¬ v.isContainer) (k : String) :
    ¬ (v.prop k).isContainer ∧ v.prop k ≠ null := by
  cases v with
  | object | array => exact absurd rfl hv
  | string units =>
    simp only [prop]
    split
    · simp [isContainer]
    · split <;> simp [isContainer]
  | _ => simp [prop, isContainer]

/-- A value that is no container ignores what is assigned. -/
theorem assign_primitive {v : JsData} (hv : ¬ v.isContainer) (k : String) (x : JsData) :
    v.assign k x = if v.nullish then none else some v := by
  cases v with
  | object | array => exact absurd rfl hv
  | _ => rfl

theorem ensure_primitive {v : JsData} (hv : ¬ v.isContainer) (k : String) :
    v.ensure k = if v.nullish then none else some v := by
  obtain ⟨hc, hn⟩ := prop_primitive hv k
  simp only [ensure, assign_primitive hv]
  split
  · rfl
  · simp [typeof_object, hc, hn]

theorem hold_primitive {v : JsData} (hv : ¬ v.isContainer) (k : String) (x : JsData) :
    v.hold k x = v := by
  cases v with
  | object | array => exact absurd rfl hv
  | _ => rfl

theorem put_primitive {v v' : JsData} (hv : ¬ v.isContainer) (es : List String) (hes : es ≠ [])
    (x : JsData) : v.put x es = some v' ↔ v.Reaches es ∧ v' = v := by
  induction es generalizing v v' with
  | nil => exact absurd rfl hes
  | cons e es ih =>
    cases es with
    | nil => cases hn : v.nullish <;> simp [put, assign_primitive hv, Reaches, hn, eq_comm]
    | cons e' es =>
      simp only [put, ensure_primitive hv, Reaches]
      cases hn : v.nullish
      · have hc := (prop_primitive hv e).1
        simp only [Bool.false_eq_true, if_false, Option.bind_eq_bind, Option.bind_some,
          hold_primitive hv, Option.bind_eq_some_iff, ih hc (by simp), not_false_eq_true,
          true_and, Option.some.injEq]
        simp only [Reaches]
        constructor
        · rintro ⟨w, ⟨hr, -⟩, rfl⟩
          exact ⟨hr, rfl⟩
        · rintro ⟨hr, rfl⟩
          exact ⟨_, ⟨hr, rfl⟩, rfl⟩
      · simp

theorem ignores_iff {v : JsData} (hv : ¬ v.isContainer) (es : List String) (hes : es ≠ [])
    (x : JsData) : v.Ignores x es ↔ v.Reaches es ∧ v.fetch es = x := by
  rcases es with _ | ⟨e, _ | ⟨e', es⟩⟩
  · exact absurd rfl hes
  · cases hn : v.nullish <;> simp [Ignores, Reaches, fetch, hn]
  · simp only [Ignores, fetch, hv, Bool.false_eq_true, false_and, if_false]
    rw [and_comm, eq_comm]

/-- Exactly what fits is lawful. -/
theorem lawful_iff (v : JsData) (es : List String) (hes : es ≠ []) (hp : ∀ e ∈ es, Plain e)
    (x : JsData) : Lawful v es x ↔ v.Fits es x := by
  by_cases hv : v.isContainer
  · rw [Fits, if_pos hv, lawful_fit hv es hes hp]
  · rw [Fits, if_neg hv, ignores_iff hv es hes]
    constructor
    · rintro ⟨v', h, hx, -⟩
      obtain ⟨hr, rfl⟩ := (put_primitive hv es hes x).mp h
      exact ⟨hr, hx⟩
    · rintro ⟨hr, hx⟩
      exact ⟨v, (put_primitive hv es hes x).mpr ⟨hr, rfl⟩, hx, fun _ _ => .refl _⟩

-- ---------------------------------------------------------------------------
-- The laws of set and get
-- ---------------------------------------------------------------------------

/-- The same result for all that reads it. -/
def Same (r r' : PigData) : Prop := r.type = r'.type ∧ Alike r.d r'.d

/-- `set` does not throw, `get` yields the datum, and what it did before for the paths apart. -/
def SetGet (self : PigData) (path : Path) (data : PigData) : Prop :=
  ∃ self', self.set path.text data = some self' ∧ self'.get path.text = data ∧
    ∀ q : Path, Apart path.elements q.elements → Same (self'.get q.text) (self.get q.text)

theorem Path.text_ne (p : Path) : p.text ≠ "" := by
  obtain ⟨_ | ⟨e, es⟩, hne, hp⟩ := p
  · exact absurd rfl hne
  · intro h
    exact dotted_ne_nil es (hp e (by simp)) ((congrArg String.toList h).trans rfl)

theorem set_text (d : JsData) (p : Path) (data : PigData) :
    (PigData.pure d).set p.text data = (d.put data.d p.elements).map .pure := by
  simp only [PigData.set, p.text_ne, if_false, PigData.pure, ne_eq, not_true_eq_false]
  rw [show p.text.toList = dotted p.elements from rfl, iSet_dotted _ _ _ p.nonempty p.plain]
  cases d.put data.d p.elements <;> rfl

theorem get_text (d : JsData) (p : Path) :
    (PigData.pure d).get p.text = .pure (d.fetch p.elements) := by
  simp only [PigData.get, p.text_ne, if_false, PigData.pure, ne_eq, not_true_eq_false]
  rw [show p.text.toList = dotted p.elements from rfl, iGet_dotted _ _ p.nonempty p.plain]

end TinyState.Js.PigPath
