import TinyState.Lib.BoundedRun
import TinyState.Lib.Relaxation
import Mathlib.Data.String.Basic
import Mathlib.Data.List.Sort

/-!
# tsjslink2

The linker writes a script and all that it imports into one file, what is imported before what
imports it. The order comes from ranks along the imports, a loop is suspected where a rank gets
too great, and looked for then.
-/

namespace TinyState.Tsjslink2

open Relation Relaxation BoundedRun

-- ---------------------------------------------------------------------------
-- Files
-- ---------------------------------------------------------------------------

/-- The files below the base directory, with their lines. -/
abbrev Files := List (String × List String)

/-- `s/[\n\r]//g` -/
def clean (line : String) : String :=
  String.ofList (line.toList.filter fun c => c ≠ '\n' ∧ c ≠ '\r')

def isBlank (c : Char) : Bool := c = ' ' ∨ c = '\t'

/-- `m@^//\:IMPORT[ \t]+([^ \t]+)[ \t]*$@` -/
def importOf (line : String) : Option String :=
  match "//:IMPORT".toList.isPrefixOf line.toList with
  | false => none
  | true =>
    match (line.toList.drop "//:IMPORT".length).span isBlank with
    | ([], _) => none
    | (_, rest) =>
      match rest.span fun c => !isBlank c with
      | ([], _) => none
      | (name, rest) => if rest.all isBlank then some (String.ofList name) else none

/-- The names in the import lines of a file. -/
def importList (lines : List String) : List String := (lines.map clean).filterMap importOf

/-- An entry of `%contents`; its `dependent` is kept apart. -/
structure Entry where
  imports : List String
  content : List String
  filename : String

abbrev Contents := List (String × Entry)

/-- `keys %contents`, which come in any order. -/
structure HashOrder where
  order : List String → List String
  perm : ∀ l, (order l).Perm l

/-- What the linker dies of. -/
inductive Died
  | cannotOpen (filename import_filelist : String)
  | loop
  deriving DecidableEq

abbrev Outcome (α : Type) := BoundedRun.Outcome Died α

-- ---------------------------------------------------------------------------
-- load_file
-- ---------------------------------------------------------------------------

section

-- `strip` is `$filename =~ s@^$baseDir/@@`.
variable (strip : String → String) (files : Files)

def setEntry (contents : Contents) (filename : String) (e : Entry) : Contents :=
  contents.map fun p => if p.1 = filename then (p.1, e) else p

def load_file : (bound : Nat) → (filename import_filelist : String) → Contents → Outcome Contents
  | 0, _, _, _ => none
  | bound + 1, filename, import_filelist, contents =>
    let filename := strip filename
    match files.lookup filename with
    | none => some (.error (.cannotOpen filename import_filelist))
    | some lines =>
      if (contents.lookup filename).isSome then some (.ok contents)
      else
        let loaded := forEach
          (fun file => load_file bound file (file ++ " << " ++ import_filelist))
          (importList lines) (contents ++ [(filename, ⟨[], [], ""⟩)])
        loaded.andThen fun contents =>
          some (.ok (setEntry contents filename ⟨importList lines, lines.map clean, filename⟩))

end

-- ---------------------------------------------------------------------------
-- set_dependency
-- ---------------------------------------------------------------------------

section

variable (keys : HashOrder) (contents : Contents)

def Contents.names (contents : Contents) : List String := contents.map Prod.fst

/-- `@{$contents{$file}->{"import"}}`, which is empty where nothing is found. -/
def Contents.imports (contents : Contents) (file : String) : List String :=
  match contents.lookup file with
  | some e => e.imports
  | none => []

/-- The loop of `start_check_loop`, which stops where the top is found. -/
def checkImports (check : String → List String → Outcome (Bool × List String)) (top : String) :
    List String → List String → Outcome (Bool × List String)
  | [], loop => some (.ok (false, loop))
  | n :: ns, loop =>
    if n = top then some (.ok (true, loop))
    else (check n loop).andThen fun
      | (true, loop) => some (.ok (true, loop))
      | (false, loop) => checkImports check top ns loop

/-- `loop` has the files that are marked, of those that are in `%contents`. -/
def start_check_loop : (bound : Nat) → (top file : String) → (loop : List String) →
    Outcome (Bool × List String)
  | 0, _, _, _ => none
  | bound + 1, top, file, loop =>
    if file ∈ loop then some (.ok (false, loop))
    else
      checkImports (start_check_loop bound top) top (contents.imports file)
        (if file ∈ contents.names then file :: loop else loop)

/-- `$file->{dependent} < 2*$nos` compares what is undefined, and skips nothing. -/
def search_loop (bound : Nat) : Outcome Unit :=
  forEach (fun file _ => (start_check_loop contents bound file file []).andThen fun
    | (true, _) => some (.error .loop)
    | (false, _) => some (.ok ())) (keys.order contents.names) ()

/-- The ranks, and whether a loop has been reported. -/
structure Deps where
  dependent : String → Nat
  reported : Bool

def Deps.raise (s : Deps) (file : String) (d : Nat) : Deps :=
  { s with dependent := Function.update s.dependent file d }

/-- One round of the loop of `set_dependency`; what is not in `%contents` has a rank for the
moment only. -/
def relax (bound : Nat) (recur : String → Deps → Outcome Deps) (top inp : String) (s : Deps) :
    Outcome Deps :=
  let found := inp ∈ contents.names
  if (if found then s.dependent inp else 0) ≤ s.dependent top then
    let d := s.dependent top + 1
    let s := if found then s.raise inp d else s
    if 3 * contents.length ≤ d then
      (search_loop keys contents bound).andThen fun _ => recur inp { s with reported := true }
    else recur inp s
  else some (.ok s)

/-- `checks` bounds the search for a loop. -/
def set_dependency (checks : Nat) : (bound : Nat) → (top : String) → Deps → Outcome Deps
  | 0, _, _ => none
  | bound + 1, top, s =>
    forEach (relax keys contents checks (set_dependency checks bound) top) (contents.imports top) s

end

-- ---------------------------------------------------------------------------
-- make_output
-- ---------------------------------------------------------------------------

structure Output where
  lines : List String
  reported : Bool
  deriving DecidableEq

def Entry.lines (e : Entry) : List String := ("// FILENAME = " ++ e.filename) :: e.content

def make_output (strip : String → String) (keys : HashOrder) (files : Files) (bound : Nat)
    (top : String) : Outcome Output :=
  (load_file strip files bound top "" []).andThen fun contents =>
    (set_dependency keys contents bound bound (strip top) ⟨fun _ => 0, false⟩).andThen fun s =>
      let output := (keys.order contents.names).mergeSort
        fun a b => s.dependent b ≤ s.dependent a
      let ret := (output.filterMap fun file => contents.lookup file).flatMap Entry.lines
      some (.ok ⟨ret, s.reported⟩)

end TinyState.Tsjslink2
