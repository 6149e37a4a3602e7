import Mathlib.Data.String.Defs

/-!
# pigData

The results that evaluations return, as far as the primitives look at them: their
`getType()`, and the datum `d` where the type is a string or an error.
-/

namespace TinyState.Js

/-- `pn` is every type that begins with `pn:`. The datum of an error is `none` when it is
no string. -/
inductive PigData
  | pn
  | string (d : String)
  | value (truthy : Bool)
  | error (d : Option String) (sub : PigData)
deriving DecidableEq, Repr

namespace PigData

def isError : PigData → Bool
  | error .. => true
  | _ => false

/-- The datum of an error. -/
def errorText : PigData → Option String
  | error d _ => d
  | _ => none

/-- `new pigData("pure",null)` -/
def null : PigData := value false

/-- `new pigData("error",msg)` -/
def errorOf (msg : String) : PigData := error (some msg) null

/-- What the primitives take for true: anything that is called, and what is true in the language. -/
def holds : PigData → Bool
  | pn => true
  | string d => d != ""
  | value truthy => truthy
  | error .. => true

end PigData

/-- The rest of `d` behind `pre`, if `d` begins with it. -/
def after (pre d : String) : Option String :=
  if d.startsWith pre then some (String.ofList (d.toList.drop pre.length)) else none

end TinyState.Js
