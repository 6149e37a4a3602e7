import Mathlib.Logic.Function.Basic
import TinyState.Generator.Line

/-!
# Class rewriting of tscpp2

`insert_field` reads the body of a class line by line, sorts the lines into three sections by the
access labels between them, and writes the sections one after the other. A label's line is not
kept, whatever else it holds, and what is before the first label is taken for public.
-/

namespace TinyState.Tscpp2

-- ---------------------------------------------------------------------------
-- Model
-- ---------------------------------------------------------------------------

/-- A line of a block: as it was read, or generated. -/
inductive Elem
  | read (text : Text) (lineno : Nat) (file : Text)
  | made (text : Text)
  deriving DecidableEq

def elem_text : Elem → Text
  | .read text _ _ => text
  | .made text => text

inductive Access
  | pub
  | prot
  | priv
  deriving DecidableEq

def Access.word : Access → Text
  | .pub => "public".toList
  | .prot => "protected".toList
  | .priv => "private".toList

def openBrace : Char := Char.ofNat 123

def closeBrace : Char := Char.ofNat 125

/-- `class[ \t]+NAME[ \t]*\:` at the beginning of the text. -/
def headHere (name line : Text) : Bool :=
  match stripWord "class".toList line with
  | none => false
  | some l =>
    (l.head?.any blank) &&
      match stripWord name (l.dropWhile blank) with
      | none => false
      | some l => (l.dropWhile blank).head? == some ':'

/-- `m/class[ \t]+NAME[ \t]*\:/` -/
def headMatch (name line : Text) : Bool := line.tails.any (headHere name)

def isHead (classname line : Text) : Bool :=
  headMatch classname line || headMatch "TS_THISCLASS".toList line ||
    headMatch "TS_INTERFACE".toList line

/-- `m/^\s*WORD\s*:/` -/
def labelMatch (a : Access) (line : Text) : Bool :=
  match stripWord a.word (line.dropWhile space) with
  | none => false
  | some l => (l.dropWhile space).head? == some ':'

def labelOf (line : Text) : Option Access :=
  [Access.pub, .prot, .priv].find? (labelMatch · line)

/-- `$opens - $closes` -/
def net (line : Text) : Int := line.count openBrace - line.count closeBrace

/-- The first loop: `@result_pre`, and what is left of the list. -/
def findClass (classname : Text) : List Elem → Option (List Elem × List Elem)
  | [] => none
  | e :: list =>
    if isHead classname (elem_text e) then some ([e], list)
    else (findClass classname list).map fun x => (e :: x.1, x.2)

/-- `$result` -/
abbrev Sections := Access → List Elem

def Sections.push (res : Sections) (a : Access) (es : List Elem) : Sections :=
  Function.update res a (res a ++ es)

/-- The label that a line is taken for, with the depth behind it. -/
def labelAt (depth : Int) (line : Text) : Option Access :=
  if depth = 1 then labelOf line else none

/-- The second loop: `$result` and `@result_post`. -/
def sortBody : Int → Access → Sections → List Elem → Sections × List Elem
  | _, _, res, [] => (res, [])
  | depth, field, res, e :: list =>
    let depth := depth + net (elem_text e)
    if depth ≤ 0 then (res, e :: list)
    else
      match labelAt depth (elem_text e) with
      | some a => sortBody depth a res list
      | none => sortBody depth field (res.push field [e]) list

/-- `$inserted` -/
inductive Inserted
  | many (lines : List Elem)
  | one (text : Text)

def Inserted.lines : Inserted → List Elem
  | .many lines => lines
  | .one text => [.made (tab :: text)]

/-- A section with its label, unless it is empty. -/
def labelled (a : Access) (es : List Elem) : List Elem :=
  if es = [] then [] else .made (a.word ++ [':']) :: es

/-- The order in which the sections are written. -/
def order : List Access := [.priv, .prot, .pub]

def insert_field (classname : Text) (place : Access) (inserted : Inserted) (list : List Elem) :
    List Elem :=
  match findClass classname list with
  | none => list
  | some (pre, body) =>
    let (result, post) := sortBody 1 .pub (fun _ => []) body
    let result := result.push place inserted.lines
    pre ++ order.flatMap (fun a => labelled a (result a)) ++ post

/-- A call of `insert_field`. -/
structure Call where
  place : Access
  inserted : Inserted

def insert_fields (classname : Text) (calls : List Call) (list : List Elem) : List Elem :=
  calls.foldl (fun list c => insert_field classname c.place c.inserted list) list

-- ---------------------------------------------------------------------------
-- Classes
-- ---------------------------------------------------------------------------

/-- What a line of a class body is for the compiler. -/
inductive Kind
  /-- No access label. -/
  | content
  /-- A label and nothing else. -/
  | bare (a : Access)
  /-- A label, and declarations behind it. -/
  | opening (a : Access)
  /-- Declarations, and a label behind them. -/
  | ending (a : Access)

/-- The section of what a line declares. -/
def Kind.holds (now : Access) : Kind → Option Access
  | .content => some now
  | .bare _ => none
  | .opening a => some a
  | .ending _ => some now

/-- The section behind a line. -/
def Kind.behind (now : Access) : Kind → Access
  | .content => now
  | .bare a => a
  | .opening a => a
  | .ending a => a

structure Item where
  elem : Elem
  kind : Kind

/-- The lines of one section. -/
def sectionFrom (a : Access) : Access → List Item → List Elem
  | _, [] => []
  | now, it :: body =>
    (if it.kind.holds now = some a then [it.elem] else []) ++
      sectionFrom a (it.kind.behind now) body

/-- The section at the end of a body. -/
def endFrom (now : Access) (body : List Item) : Access :=
  body.foldl (fun now it => it.kind.behind now) now

/-- A block with one class. The lines of the head are those up to the opening brace; there is no
closing line when the class is closed there too. -/
structure ClassBlock where
  before : List Elem
  head : List Elem
  body : List Item
  closing : Option Elem
  /-- Does the closing line declare something before the brace? -/
  declares : Bool
  after : List Elem

namespace ClassBlock

def text (B : ClassBlock) : List Elem :=
  B.before ++ B.head ++ B.body.map Item.elem ++ B.closing.toList ++ B.after

/-- What is before the first label of a class is private. -/
def lines (B : ClassBlock) (a : Access) : List Elem := sectionFrom a .priv B.body

end ClassBlock

/-- What calls insert in a section. -/
def insertedIn (a : Access) (calls : List Call) : List Elem :=
  (calls.filter fun c => c.place = a).flatMap fun c => c.inserted.lines

/-- The list is the block with the inserted lines in their sections: each other line but bare
labels is there once, in its section and in its order, and nothing outside the class is
changed. -/
def Rewritten (B : ClassBlock) (calls : List Call) (list : List Elem) : Prop :=
  ∃ B' : ClassBlock, B'.text = list ∧
    B'.before = B.before ∧ B'.head = B.head ∧ B'.closing = B.closing ∧ B'.after = B.after ∧
    (∀ a, B'.lines a = B.lines a ++ insertedIn a calls) ∧
    (B.declares = true → endFrom .priv B'.body = endFrom .priv B.body)

/-- The lines are read as the compiler reads them: with `depth` braces open, the compiler in the
section `now` and `insert_field` in `field`. -/
def Reads : Int → Access → Access → List Item → Prop
  | depth, _, _, [] => depth = 1
  | depth, now, field, it :: body =>
    let behind := depth + net (elem_text it.elem)
    let label := labelAt behind (elem_text it.elem)
    let next := label.getD field
    1 ≤ behind ∧ (label.isSome → depth = 1) ∧
      it.kind.holds now = (if label.isSome then none else some next) ∧
      it.kind.behind now = next ∧ Reads behind next next body

instance decidableReads : ∀ depth now field body, Decidable (Reads depth now field body)
  | depth, _, _, [] => inferInstanceAs (Decidable (depth = 1))
  | depth, _, field, it :: body =>
    let next := (labelAt (depth + net (elem_text it.elem)) (elem_text it.elem)).getD field
    have := decidableReads (depth + net (elem_text it.elem)) next next body
    inferInstanceAs (Decidable (_ ∧ (_ → _) ∧ _ ∧ _ ∧ _))

/-- Lines that close no more than they open, and are not taken for labels. -/
def Quiet : Int → List Elem → Int → Prop
  | depth, [], depth' => depth = depth'
  | depth, e :: list, depth' =>
    let behind := depth + net (elem_text e)
    1 ≤ behind ∧ labelAt behind (elem_text e) = none ∧ Quiet behind list depth'

instance decidableQuiet : ∀ depth list depth', Decidable (Quiet depth list depth')
  | depth, [], depth' => inferInstanceAs (Decidable (depth = depth'))
  | depth, e :: list, depth' =>
    have := decidableQuiet (depth + net (elem_text e)) list depth'
    inferInstanceAs (Decidable (_ ∧ _ ∧ _))

/-- The head is one line and the first that is taken for one, the body is read as the compiler
reads it, and the closing line closes it and declares nothing. -/
def Readable (classname : Text) (B : ClassBlock) : Prop :=
  (∀ e ∈ B.before, isHead classname (elem_text e) = false) ∧
    (∃ e, B.head = [e] ∧ isHead classname (elem_text e) = true) ∧
    Reads 1 .priv .pub B.body ∧
    (∃ e, B.closing = some e ∧ 1 + net (elem_text e) ≤ 0) ∧ B.declares = false

variable {classname : Text} {a b now field : Access} {depth mid depth' : Int} {e : Elem}
  {es list after : List Elem} {body : List Item} {bs : List Access} {res : Sections}
  {B : ClassBlock} {c : Call} {calls : List Call}

-- ---------------------------------------------------------------------------
-- Reading a class
-- ---------------------------------------------------------------------------

theorem findClass_first {before : List Elem}
    (hb : ∀ e ∈ before, isHead classname (elem_text e) = false)
    (he : isHead classname (elem_text e) = true) (list : List Elem) :
    findClass classname (before ++ e :: list) = some (before ++ [e], list) := by
  induction before with
  | nil => simp [findClass, he]
  | cons x before ih =>
    simp [findClass, hb x List.mem_cons_self, ih fun y hy => hb y (List.mem_cons_of_mem _ hy)]

theorem depth_of_labelAt {line : Text} (h : labelAt depth line = some a) : depth = 1 := by
  by_contra hd
  simp [labelAt, hd] at h

theorem push_self : res.push a es a = res a ++ es := Function.update_self ..

theorem push_of_ne (h : b ≠ a) : res.push a es b = res b := Function.update_of_ne h ..

theorem push_eq : res.push a es b = res b ++ if a = b then es else [] := by
  by_cases h : a = b
  · simp [h, push_self]
  · simp [h, push_of_ne (Ne.symm h)]

/-- The lines of a body go where the compiler has them. -/
theorem sortBody_reads (h : Reads depth now field body) (he : 1 + net (elem_text e) ≤ 0) :
    sortBody depth field res (body.map Item.elem ++ e :: after) =
      (fun a => res a ++ sectionFrom a now body, e :: after) := by
  induction body generalizing depth now field res with
  | nil =>
    obtain rfl : depth = 1 := h
    simp [sortBody, sectionFrom, he]
  | cons it body ih =>
    obtain ⟨hpos, -, hholds, hbehind, h⟩ := h
    have hnot : ¬ depth + net (elem_text it.elem) ≤ 0 := Int.not_le.mpr hpos
    simp only [List.map_cons, List.cons_append, sortBody, if_neg hnot]
    cases hlabel : labelAt (depth + net (elem_text it.elem)) (elem_text it.elem) with
    | some b =>
      rw [hlabel] at hholds hbehind h
      simpa [sectionFrom, hholds, hbehind] using ih h
    | none =>
      rw [hlabel] at hholds hbehind h
      simpa [sectionFrom, hholds, hbehind, push_eq] using @ih _ _ _ (res.push field [it.elem]) h

-- ---------------------------------------------------------------------------
-- Quiet lines
-- ---------------------------------------------------------------------------

theorem Quiet.append (h : Quiet depth es mid) (h' : Quiet mid list depth') :
    Quiet depth (es ++ list) depth' := by
  induction es generalizing depth with
  | nil =>
    obtain rfl : depth = mid := h
    exact h'
  | cons e es ih =>
    obtain ⟨hpos, hlabel, h⟩ := h
    exact ⟨hpos, hlabel, ih h⟩

/-- No section of a body holds a label, and braces are closed in the section that they are
opened in. -/
theorem Reads.quiet (h : Reads depth now field body)
    (hres : ∀ a, Quiet 1 (res a) (if a = field then depth else 1)) (a : Access) :
    Quiet 1 (res a ++ sectionFrom a now body) 1 := by
  induction body generalizing depth now field res with
  | nil =>
    obtain rfl : depth = 1 := h
    simpa [sectionFrom] using hres a
  | cons it body ih =>
    obtain ⟨hpos, hdepth, hholds, hbehind, h⟩ := h
    cases hlabel : labelAt (depth + net (elem_text it.elem)) (elem_text it.elem) with
    | some b =>
      rw [hlabel] at hdepth hholds hbehind h
      obtain rfl := hdepth rfl
      have hone := depth_of_labelAt hlabel
      have hq : ∀ x, Quiet 1 (res x)
          (if x = b then 1 + net (elem_text it.elem) else 1) := by
        simpa [hone] using hres
      simpa [sectionFrom, hholds, hbehind] using ih h hq
    | none =>
      rw [hlabel] at hholds hbehind h
      have hq : ∀ x, Quiet 1 (res.push field [it.elem] x)
          (if x = field then depth + net (elem_text it.elem) else 1) := by
        intro x
        have hx := hres x
        by_cases hf : x = field
        · subst hf
          rw [if_pos rfl] at hx ⊢
          rw [push_self]
          exact hx.append ⟨hpos, hlabel, rfl⟩
        · rw [if_neg hf] at hx ⊢
          rwa [push_of_ne hf]
      have hrest := ih h hq
      rw [push_eq] at hrest
      simpa [sectionFrom, hholds, hbehind] using hrest

-- ---------------------------------------------------------------------------
-- Writing a class
-- ---------------------------------------------------------------------------

def contents (es : List Elem) : List Item := es.map fun e => ⟨e, .content⟩

/-- A section as the compiler reads it. -/
def sectionItems (res : Sections) (a : Access) : List Item :=
  if res a = [] then [] else ⟨.made (a.word ++ [':']), .bare a⟩ :: contents (res a)

theorem map_contents : (contents es).map Item.elem = es := by
  simp [contents, Function.comp_def]

theorem map_sectionItems : (sectionItems res a).map Item.elem = labelled a (res a) := by
  unfold sectionItems labelled
  split
  · rfl
  · simp [map_contents]

theorem net_label (a : Access) : net (a.word ++ [':']) = 0 := by cases a <;> decide

theorem labelAt_label (a : Access) : labelAt 1 (a.word ++ [':']) = some a := by
  cases a <;> decide

theorem sectionFrom_contents : sectionFrom a now (contents es ++ body) =
    (if now = a then es else []) ++ sectionFrom a now body := by
  induction es with
  | nil => simp [contents]
  | cons e es ih =>
    simp only [contents, List.map_cons, List.cons_append, sectionFrom] at ih ⊢
    simp only [Kind.behind, Kind.holds, Option.some.injEq, ih]
    split <;> simp

theorem Quiet.reads (h : Quiet depth es mid) (hb : Reads mid a a body) :
    Reads depth a a (contents es ++ body) := by
  induction es generalizing depth with
  | nil =>
    obtain rfl : depth = mid := h
    exact hb
  | cons e es ih =>
    obtain ⟨hpos, hlabel, h⟩ := h
    refine ⟨hpos, ?_⟩
    simpa [hlabel, Kind.holds, Kind.behind, contents] using ih h

theorem sectionFrom_written : sectionFrom a now (bs.flatMap (sectionItems res)) =
    (bs.filter (· = a)).flatMap res := by
  induction bs generalizing now with
  | nil => rfl
  | cons b bs ih =>
    rw [List.flatMap_cons, sectionItems]
    split
    · next hnil =>
      by_cases hb : b = a <;> simp_all
    · simp only [List.cons_append, sectionFrom, Kind.holds, Kind.behind, sectionFrom_contents, ih]
      by_cases hb : b = a <;> simp [hb]

theorem reads_written (hres : ∀ a, Quiet 1 (res a) 1) :
    Reads 1 now field (bs.flatMap (sectionItems res)) := by
  induction bs generalizing now field with
  | nil => rfl
  | cons b bs ih =>
    rw [List.flatMap_cons, sectionItems]
    split
    · exact ih
    · refine ⟨?_, ?_⟩
      · simp [elem_text, net_label]
      · simpa [elem_text, net_label, labelAt_label, Kind.holds, Kind.behind] using (hres b).reads ih

-- ---------------------------------------------------------------------------
-- Calls
-- ---------------------------------------------------------------------------

namespace ClassBlock

/-- The sections of a block, and what a call inserts. -/
def sections (B : ClassBlock) (c : Call) : Sections :=
  Sections.push B.lines c.place c.inserted.lines

def rewrite (B : ClassBlock) (c : Call) : ClassBlock :=
  { B with body := order.flatMap (sectionItems (B.sections c)) }

theorem lines_rewrite : (B.rewrite c).lines a = B.lines a ++ insertedIn a [c] := by
  have hone : (order.filter (· = a)).flatMap (B.sections c) = B.sections c a := by
    cases a <;> simp [order]
  refine (sectionFrom_written.trans hone).trans (push_eq.trans ?_)
  by_cases h : c.place = a <;> simp [insertedIn, h]

/-- One call: the class is rewritten, and can be read again. -/
theorem insert_field_rewrite (h : Readable classname B) (hc : Quiet 1 c.inserted.lines 1) :
    insert_field classname c.place c.inserted B.text = (B.rewrite c).text ∧
      Readable classname (B.rewrite c) := by
  obtain ⟨hbefore, ⟨e, hhead, he⟩, hbody, ⟨e', hclosing, hnet⟩, hdeclares⟩ := h
  have hfind : findClass classname B.text =
      some (B.before ++ [e], B.body.map Item.elem ++ e' :: B.after) := by
    have hfirst := findClass_first hbefore he (B.body.map Item.elem ++ e' :: B.after)
    simpa [text, hhead, hclosing] using hfirst
  constructor
  · simp only [insert_field, hfind, sortBody_reads hbody hnet, List.nil_append]
    simp [text, rewrite, hhead, hclosing, List.map_flatMap, map_sectionItems]
    rfl
  · have hlines : ∀ a, Quiet 1 (B.lines a) 1 := by
      have hnone (a : Access) :
          Quiet 1 ((fun _ => [] : Sections) a) (if a = .pub then 1 else 1) := by
        simp [Quiet]
      simpa [lines] using hbody.quiet hnone
    have hsections : ∀ a, Quiet 1 (B.sections c a) 1 := by
      intro a
      rw [sections, push_eq]
      split
      · exact (hlines a).append hc
      · simpa using hlines a
    exact ⟨hbefore, ⟨e, hhead, he⟩, reads_written hsections, ⟨e', hclosing, hnet⟩, hdeclares⟩

end ClassBlock

theorem insertedIn_cons : insertedIn a (c :: calls) = insertedIn a [c] ++ insertedIn a calls := by
  by_cases h : c.place = a <;> simp [insertedIn, h]

def made (text : String) : Elem := .made text.toList

/-- A class with a public and a private section. -/
def twoSections : ClassBlock where
  before := [made "#include \"b.h\""]
  head := [made "class c_ : public b \x7b"]
  body := [⟨made "public:", .bare .pub⟩, ⟨made "\tint x;", .content⟩,
    ⟨made "private:", .bare .priv⟩, ⟨made "\tint f() \x7b", .content⟩, ⟨made "\t\x7d", .content⟩]
  closing := some (made "\x7d;")
  declares := false
  after := [made ""]

def twoCalls : List Call :=
  [⟨.prot, .many [made "\tint y;"]⟩, ⟨.pub, .one "virtual int g() \x7b return 0; \x7d".toList⟩]

theorem mem_of_sectionFrom (h : e ∈ sectionFrom a now body) : e ∈ body.map Item.elem := by
  induction body generalizing now with
  | nil => cases h
  | cons it body ih =>
    rcases List.mem_append.mp h with h | h
    · split at h
      · exact List.mem_cons.mpr (.inl (List.mem_singleton.mp h))
      · cases h
    · exact List.mem_cons_of_mem _ (ih h)

theorem ClassBlock.mem_text (h : e ∈ B.lines a) : e ∈ B.text := by
  simp [text, List.mem_map.mp (mem_of_sectionFrom h)]

/-- `public: int x;` is the only line of a class. -/
def sharedLine : ClassBlock where
  before := []
  head := [made "class c_ : public b \x7b"]
  body := [⟨made "public: int x;", .opening .pub⟩]
  closing := some (made "\x7d;")
  declares := false
  after := []

end TinyState.Tscpp2
