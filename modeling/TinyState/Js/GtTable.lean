import TinyState.Js.PigPath

/-!
# gtTable

A table has a row for each entry of an array. When the array changes, the rows are matched with
the entries by their places, or by keys; with keys, rows are moved, made and removed so that
those of persisting keys stay. Entries are data that do not change.
-/

namespace TinyState.Js

open PigPath

namespace GtTable

-- ---------------------------------------------------------------------------
-- Keys
-- ---------------------------------------------------------------------------

inductive Key
  | string (units : List UInt16)
  | number (x : JsNumber)
  deriving DecidableEq

def units (s : String) : List UInt16 := s.toList.map fun c => UInt16.ofNat c.toNat

/-- The key that a value is, if it is a string or a number. -/
def asKey : JsData → Option Key
  | .string units => some (.string units)
  | .number x => some (.number x)
  | _ => none

/-- `ele[k]`: nothing where it throws. -/
def read (ele : JsData) (k : List Char) : Option JsData :=
  if ele.nullish then none else some (ele.prop (.ofList k))

/-- The loop of `i_getKey`: empty names before a dot are skipped. -/
def follow (ele : JsData) (k : List Char) : Option JsData :=
  match _ : cut k with
  | none => read ele k
  | some ([], rest) => follow ele rest
  | some (name, rest) => (read ele name).bind fun ele => follow ele rest
termination_by k.length
decreasing_by all_goals exact cut_length ‹_›

/-- A key that is neither a string nor a number is outside the model. -/
def i_getKey (i_key : String) (ele : JsData) : Option Key :=
  if i_key = "this" then asKey ele
  else if i_key = "none" then some (.string [])
  else (follow ele i_key.toList).bind asKey

/-- `a == b` -/
def looseEq : Key → Key → Bool
  | .string a, .string b => a = b
  | .number x, .number y => x ≠ .nan ∧ x = y
  | .number x, .string a | .string a, .number x => x ≠ .nan ∧ x = (JsData.string a).toNumber

-- ---------------------------------------------------------------------------
-- Key tables
-- ---------------------------------------------------------------------------

/-- What every object has, and what is true in a condition. -/
def members : List (List UInt16) :=
  ["constructor", "hasOwnProperty", "isPrototypeOf", "propertyIsEnumerable", "toLocaleString",
    "toString", "valueOf", "__defineGetter__", "__defineSetter__", "__lookupGetter__",
    "__lookupSetter__", "__proto__"].map units

/-- An object that is used as a table, of objects that have one `field`. What is set at
`__proto__` is what the object inherits from. -/
structure Table (α : Type) where
  own : List (List UInt16 × α)
  proto : Option α

/-- What is found in a table: an entry, the field of one, or what every object has. -/
inductive Found (α : Type)
  | entry (x : α)
  | field (x : α)
  | member
  | missing

namespace Table

variable {α : Type}

def empty : Table α := ⟨[], none⟩

def set (t : Table α) (k : List UInt16) (x : α) : Table α :=
  if k = units "__proto__" then { t with proto := some x } else { t with own := (k, x) :: t.own }

/-- What has been set at `k`. -/
def entry (t : Table α) (k : List UInt16) : Option α :=
  if k = units "__proto__" then t.proto else t.own.lookup k

/-- `t[k]` -/
def get (t : Table α) (field : String) (k : List UInt16) : Found α :=
  match t.entry k with
  | some x => .entry x
  | none =>
    match if k = units field then t.proto else none with
    | some x => .field x
    | none => if k ∈ members then .member else .missing

end Table

def truthy : JsData → Bool
  | .undefined | .null => false
  | .bool b => b
  | .number x => x ≠ .nan ∧ x ≠ .zero
  | .string units => units ≠ []
  | _ => true

-- ---------------------------------------------------------------------------
-- The document
-- ---------------------------------------------------------------------------

abbrev Node := Nat

/-- The `gtPane` of a node: `symTarget` and `symIndex` as they are bound in its environment. -/
structure Pane where
  gtTable_target : JsData
  target : JsData
  index : Option Nat

/-- `list.insertBefore(n,ref)`, at the end where there is no `ref` -/
def insertBefore (n : Node) (ref : Option Node) (list : List Node) : List Node :=
  let list := list.erase n
  match ref with
  | none => list ++ [n]
  | some r => list.takeWhile (· ≠ r) ++ n :: list.dropWhile (· ≠ r)

/-- A row, or what is left of one that has been moved: `{"remove" : true}`. -/
inductive Row
  | row (uiObject : Node) (remove : Bool)
  | moved

end GtTable

open GtTable

/-- `i_uiList` has its child nodes; the nodes from `fresh` on have not been made. -/
structure GtTable where
  i_key : String
  i_null : String
  i_uiList : List Node
  i_lastPoint : Option Node
  panes : Node → Pane
  fresh : Nat
  i_activeTable : List Row
  gtTable_length : Nat

namespace GtTable

/-- A node is made and inserted before another one; `symTarget` is bound in its environment. -/
def appendDOMformat (s : GtTable) (before : Option Node) (value : JsData) : GtTable where
  __ := s
  i_uiList := insertBefore s.fresh before s.i_uiList
  panes := Function.update s.panes s.fresh ⟨.undefined, value, none⟩
  fresh := s.fresh + 1

def removeDOM (s : GtTable) (uiObject : Node) : GtTable :=
  { s with i_uiList := s.i_uiList.erase uiObject }

def moveDOM (s : GtTable) (uiObject : Node) (before : Option Node) : GtTable :=
  { s with i_uiList := insertBefore uiObject before s.i_uiList }

def setPane (s : GtTable) (uiObject : Node) (f : Pane → Pane) : GtTable :=
  { s with panes := Function.update s.panes uiObject (f (s.panes uiObject)) }

-- ---------------------------------------------------------------------------
-- ACT_KEY_1
-- ---------------------------------------------------------------------------

/-- The entries of the array. -/
def i_tbl (i_null : String) (d : List JsData) : List JsData :=
  if i_null = "get" then
    d.map fun
      | .null => .string (units "null")
      | x => x
  else
    d.filter fun
      | .null => false
      | _ => true

/-- The rows that there are get the entries and their indexes. -/
def rebind : List Row → List JsData → Nat → GtTable → Option GtTable
  | [], _, _, s => some s
  | _, [], _, s => some s
  | .row n _ :: rows, x :: tbl, i, s =>
    rebind rows tbl (i + 1) (s.setPane n fun p => { p with target := x, index := some i })
  | .moved :: _, _ :: _, _, _ => none

/-- A row for a further entry. -/
def appendRow (s : GtTable) (x : JsData) : GtTable :=
  { s.appendDOMformat s.i_lastPoint x with
    i_activeTable := s.i_activeTable ++ [.row s.fresh false] }

def removeRows : List Row → GtTable → Option GtTable
  | [], s => some s
  | .row n _ :: rows, s => removeRows rows (s.removeDOM n)
  | .moved :: _, _ => none

/-- `ACT_KEY_1` without keys. -/
def matchPlaces (s : GtTable) (tbl : List JsData) : Option GtTable := do
  let s ← rebind s.i_activeTable tbl 0 s
  if s.i_activeTable.length < tbl.length then
    some ((tbl.drop s.i_activeTable.length).foldl appendRow s)
  else
    let s ← removeRows (s.i_activeTable.drop tbl.length) s
    some { s with i_activeTable := s.i_activeTable.take tbl.length }

-- ---------------------------------------------------------------------------
-- ACT_KEY_2
-- ---------------------------------------------------------------------------

section

-- `String(x)`
variable (text : JsNumber → List UInt16)

/-- The name of the property that a key stands for. -/
def Key.name : Key → List UInt16
  | .string units => units
  | .number x => text x

/-- The keys of the entries, with the entries. -/
def newKeys (i_key : String) : List JsData → Table JsData → Option (Table JsData)
  | [], t => some t
  | x :: tbl, t => (i_getKey i_key x).bind fun ky => newKeys i_key tbl (t.set (ky.name text) x)

/-- `if ( new_keys[ky] )` -/
def isNew (new_keys : Table JsData) (ky : Key) : Bool :=
  match new_keys.get "data" (ky.name text) with
  | .entry _ | .member => true
  | .field x => truthy x
  | .missing => false

/-- The loop over the old rows, from the row `i` on; their keys with their numbers. -/
def oldKeys (i_key : String) (new_keys : Table JsData) :
    List Row → Nat → Table Nat × List Row × GtTable → Option (Table Nat × List Row × GtTable)
  | [], _, r => some r
  | .row n remove :: rows, i, (old_keys, done, s) =>
    (i_getKey i_key (s.panes n).gtTable_target).bind fun ky =>
      let old_keys := old_keys.set (ky.name text) i
      if isNew text new_keys ky then
        oldKeys i_key new_keys rows (i + 1) (old_keys, done ++ [.row n remove], s)
      else
        oldKeys i_key new_keys rows (i + 1) (old_keys, done ++ [.row n true], s.removeDOM n)
  | .moved :: _, _, _ => none

/-- The row of `n` gets the entry `x`. -/
def retarget (s : GtTable) (n : Node) (x : JsData) : GtTable :=
  s.setPane n fun p => { p with gtTable_target := x, target := x }

/-- A row for a new entry. -/
def makeRow (s : GtTable) (before : Option Node) (x : JsData) : GtTable :=
  (s.appendDOMformat before x).setPane s.fresh fun p => { p with gtTable_target := x }

/-- The row that is behind the place `j`: a node, or nothing that is before the end. -/
def Row.uiObject : Row → Option Node
  | .row n _ => some n
  | .moved => none

/-- The loop over the entries and the `n` old rows from `j` on, and the loop over the entries that
are left then. -/
def merge (i_key : String) (old_keys : Table Nat) : (tbl : List JsData) → (j n : Nat) →
    (rows new : List Row) → GtTable → Option (List Row × GtTable)
  | [], _, _, _, new, s => some (new, s)
  | x :: tbl, j, 0, rows, new, s =>
    merge i_key old_keys tbl j 0 rows (new ++ [.row s.fresh false]) (s.makeRow s.i_lastPoint x)
  | x :: tbl, j, n + 1, rows, new, s =>
    (i_getKey i_key x).bind fun nkey =>
      match rows[j]? with
      | some (.row ele false) =>
        (i_getKey i_key (s.panes ele).gtTable_target).bind fun okey =>
          if looseEq nkey okey then
            merge i_key old_keys tbl (j + 1) n rows (new ++ [.row ele false]) (s.retarget ele x)
          else
            let place := fun num =>
              match rows[num]? with
              | some (.row m remove) =>
                let rows := rows.set num .moved
                merge i_key old_keys tbl j (n + 1) rows (new ++ [.row m remove])
                  ((s.moveDOM m (rows[j]?.bind Row.uiObject)).retarget m x)
              | _ => none
            match old_keys.get "num" (nkey.name text) with
            | .entry num => place num
            -- `optr.num` is undefined
            | .member => none
            | .field i => if i ≠ 0 then none
              else merge i_key old_keys tbl j (n + 1) rows (new ++ [.row s.fresh false])
                (s.makeRow (some ele) x)
            | .missing =>
              merge i_key old_keys tbl j (n + 1) rows (new ++ [.row s.fresh false])
                (s.makeRow (some ele) x)
      | _ => merge i_key old_keys (x :: tbl) (j + 1) n rows new s
termination_by tbl _ n => tbl.length + n

/-- The indexes are bound in the end. -/
def bindIndexes : List Row → Nat → GtTable → Option GtTable
  | [], _, s => some s
  | .row n _ :: rows, i, s =>
    bindIndexes rows (i + 1) (s.setPane n fun p => { p with index := some i })
  | .moved :: _, _, _ => none

def ACT_KEY_2 (s : GtTable) (tbl : List JsData) : Option GtTable := do
  let new_keys ← newKeys text s.i_key tbl .empty
  let (old_keys, rows, s) ← oldKeys text s.i_key new_keys s.i_activeTable 0 (.empty, [], s)
  let (new, s) ← merge text s.i_key old_keys tbl 0 rows.length rows [] s
  let s := { s with i_activeTable := new }
  bindIndexes new 0 s

/-- An update with the array `d`: nothing where it throws. -/
def ACT_KEY_1 (s : GtTable) (d : List JsData) : Option GtTable :=
  let tbl := i_tbl s.i_null d
  let s := { s with gtTable_length := tbl.length }
  if s.i_key ≠ "none" then s.ACT_KEY_2 text tbl else s.matchPlaces tbl

end

end GtTable

end TinyState.Js
