import Mathlib.Data.List.Basic
import Mathlib.Data.List.Infix

/-!
# Lines of a source file

What the patterns of tscpp2 are made of.
-/

namespace TinyState.Tscpp2

/-- A line is the list of its characters, without the newline. -/
abbrev Text := List Char

def tab : Char := Char.ofNat 9

/-- `[ \t]` -/
def blank (c : Char) : Bool := c == ' ' || c == tab

/-- `\s`, in a line. -/
def space (c : Char) : Bool := blank c || c == Char.ofNat 11 || c == Char.ofNat 12

/-- What is behind a word, if the text begins with it. -/
def stripWord : Text → Text → Option Text
  | [], l => some l
  | _ :: _, [] => none
  | w :: word, c :: l => if w = c then stripWord word l else none

/-- Does the text hold the word? -/
def has (word line : Text) : Bool := line.tails.any word.isPrefixOf

end TinyState.Tscpp2
