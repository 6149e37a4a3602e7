import TinyState.Generator.Line

/-!
# States of a class

`scan_file` of tscpp2 reads a source file line by line and collects the names in `TS_STATE` and
`TS_THREAD`. It takes literals out of a line with two patterns, skips lines that it takes for
comments, as a whole, and leaves a comment at the end of a line where it is.
-/

namespace TinyState.Tscpp2

-- ---------------------------------------------------------------------------
-- Model
-- ---------------------------------------------------------------------------

def quote : Char := Char.ofNat 34

def apostrophe : Char := Char.ofNat 39

def backslash : Char := Char.ofNat 92

/-- Is a literal that has been opened closed in the text? -/
def closes (q : Char) : Text → Bool
  | [] => false
  | [c] => c == q
  | c :: d :: l => if c = backslash then closes q l else c == q || closes q (d :: l)

inductive Cut
  | outside
  | inside
  | escape

/-- `s/q(?:\\.|[^q\\])*q//g` -/
def dropLiterals (q : Char) : Cut → Text → Text
  | _, [] => []
  | .outside, c :: l =>
    if c = q ∧ closes q l then dropLiterals q .inside l else c :: dropLiterals q .outside l
  | .inside, c :: l =>
    dropLiterals q (if c = backslash then .escape else if c = q then .outside else .inside) l
  | .escape, _ :: l => dropLiterals q .inside l

example (c q : Char) (l : Text) : dropLiterals q .escape (c :: l) = dropLiterals q .inside l := by
  rw [dropLiterals]

/-- `$code` -/
def codeOf (line : Text) : Text :=
  dropLiterals apostrophe .outside (dropLiterals quote .outside line)

/-- `s|/\*.*?\*/||g` -/
def dropComments : Cut → Text → Text
  | .outside, '/' :: '*' :: l =>
    if has "*/".toList l then dropComments .inside l else '/' :: dropComments .outside ('*' :: l)
  | .outside, c :: l => c :: dropComments .outside l
  | .inside, '*' :: '/' :: l => dropComments .outside l
  | .inside, _ :: l => dropComments .inside l
  | .escape, l => l
  | _, [] => []

example (l : Text) : dropComments .inside ('*' :: '/' :: l) = dropComments .outside l := by
  rw [dropComments]

/-- `$stripped` -/
def strippedOf (line : Text) : Text := dropComments .outside (codeOf line)

/-- `[^\)\,]` -/
def inArgument (c : Char) : Bool := c != ')' && c != ','

/-- `NAME\(([^\)\,]*)\)` at the beginning of the text. -/
def argumentHere (name l : Text) : Option Text :=
  (stripWord (name ++ ['(']) l).bind fun l =>
    if (l.dropWhile inArgument).head? = some ')' then some (l.takeWhile inArgument) else none

/-- `m/NAME\(([^\)\,]*)\)/` -/
def argument (name line : Text) : Option Text := line.tails.findSome? (argumentHere name)

def stateName : Text := "TS_STATE".toList

def threadName : Text := "TS_THREAD".toList

def implementName : Text := "TS_BEGIN_IMPLEMENT".toList

def interfaceName : Text := "TS_BEGIN_INTERFACE".toList

/-- `CLASS_TINYSTATE\(([^\)\,]*),([^\)\,]*)\)` at the beginning of the text. -/
def classHere (l : Text) : Bool :=
  match (stripWord "CLASS_TINYSTATE(".toList l).map (·.dropWhile inArgument) with
  | some (',' :: l) => (l.dropWhile inArgument).head? == some ')'
  | _ => false

/-- The loops that read a block. -/
inductive Block
  | implement
  | repetition
  | interface
  deriving DecidableEq

/-- Behind a line of a block: the block, or nothing when it has ended. -/
def Block.next (line : Text) : Block → Option Block
  | .implement =>
    if has "TS_END_IMPLEMENT".toList line then none
    else if has "[[##REPEAT".toList line then some .repetition
    else some .implement
  | .repetition => if has "##]]".toList line then some .implement else some .repetition
  | .interface => if has "TS_END_INTERFACE".toList line then none else some .interface

/-- `in_block_comment` and `in_state_doc_block`, and the loops inside. -/
inductive Mode
  | top
  | comment
  | doc
  | block (b : Block)
  deriving DecidableEq

/-- `@states` and the keys of `%thrStates`. -/
structure Scan where
  mode : Mode
  states : List Text
  thrStates : List Text

namespace Scan

def goto (s : Scan) (mode : Mode) : Scan := { s with mode }

def addState (s : Scan) (ss : Text) : Scan := { s with states := s.states ++ [ss] }

def addThread (s : Scan) (ss : Text) : Scan :=
  { s with states := s.states ++ [ss], thrStates := s.thrStates.insert ss }

end Scan

/-- What is looked for in a line that is not skipped. -/
def detect (s : Scan) (line stripped : Text) : Scan :=
  if stripped.tails.any classHere then s
  else if has implementName line then s.goto (.block .implement)
  else if has interfaceName line then s.goto (.block .interface)
  else
    match argument stateName stripped with
    | some ss => s.addState ss
    | none =>
      match argument threadName stripped with
      | some ss => s.addThread ss
      | none => s

/-- Is a line that begins outside of comments skipped, and what follows? -/
def skipped (line : Text) : Option Mode :=
  let code := codeOf line
  if has "/**".toList code then some (if has "*/".toList code then .top else .doc)
  else if "///".toList.isPrefixOf (line.dropWhile space) then some .top
  else if "//".toList.isPrefixOf (code.dropWhile space) then some .top
  else if has "/*".toList code && !has "*/".toList code then some .comment
  else none

/-- The body of the loop of `scan_file`. -/
def scanLine (s : Scan) (line : Text) : Scan :=
  match s.mode with
  | .block b => s.goto ((b.next line).elim .top .block)
  | .comment => if has "*/".toList line then s.goto .top else s
  | .doc => if has "*/".toList line then s.goto .top else s
  | .top =>
    match skipped line with
    | some mode => s.goto mode
    | none => detect s line (strippedOf line)

/-- The states that `scan_file` finds. -/
def scan_file (lines : List Text) : Scan := lines.foldl scanLine ⟨.top, [], []⟩

-- ---------------------------------------------------------------------------
-- Lexical structure
-- ---------------------------------------------------------------------------

/-- Where a text of C++ is. In code, the word or number before it; `slash` has a slash before it
that may begin a comment, and `star` a star that may end one. `raw` has the closing parenthesis
and what is behind it, if that may be the end of the literal. -/
inductive Lex
  | code (word : Text)
  | slash
  | string
  | stringEscape
  | char
  | charEscape
  | rawOpen (delimiter : Text)
  | raw (delimiter close : Text)
  | line
  | block
  | star
  deriving DecidableEq

def inWord (c : Char) : Bool := c.isAlphanum || c == '_'

/-- What makes a literal a raw one. -/
def rawWords : List Text := ["R", "LR", "uR", "UR", "u8R"].map String.toList

/-- A character of code: what it adds to the code. -/
def Lex.plain (word : Text) (c : Char) : Text × Lex :=
  if c = '/' then ([], .slash)
  else if c = quote then ([quote], if word ∈ rawWords then .rawOpen [] else .string)
  else if c = apostrophe then
    -- between the digits of a number it is a separator
    if word.head?.any Char.isDigit then ([c], .code (word ++ [c])) else ([apostrophe], .char)
  else ([c], .code (if inWord c then word ++ [c] else []))

/-- A character: what it adds to the code, where comments are blanks and literals their quotes. -/
def Lex.step (c : Char) : Lex → Text × Lex
  | .code word => plain word c
  | .slash =>
    if c = '/' then ([' '], .line)
    else if c = '*' then ([' '], .block)
    else ('/' :: (plain [] c).1, (plain [] c).2)
  | .string =>
    if c = backslash then ([], .stringEscape)
    else if c = quote then ([quote], .code [])
    else ([], .string)
  | .stringEscape => ([], .string)
  | .char =>
    if c = backslash then ([], .charEscape)
    else if c = apostrophe then ([apostrophe], .code [])
    else ([], .char)
  | .charEscape => ([], .char)
  | .rawOpen delimiter => ([], if c = '(' then .raw delimiter [] else .rawOpen (delimiter ++ [c]))
  | .raw delimiter close =>
    if c = quote ∧ close = ')' :: delimiter then ([quote], .code [])
    else if c = ')' then ([], .raw delimiter [c])
    else ([], .raw delimiter (if close = [] then [] else close ++ [c]))
  | .line => ([], .line)
  | .block => ([], if c = '*' then .star else .block)
  | .star => ([], if c = '/' then .code [] else if c = '*' then .star else .block)

def Lex.read : Lex → Text → Text × Lex
  | st, [] => ([], st)
  | st, c :: l => ((st.step c).1 ++ ((st.step c).2.read l).1, ((st.step c).2.read l).2)

def Lex.inComment : Lex → Bool
  | .block => true
  | .star => true
  | _ => false

/-- A newline: what it adds to the code before it. Comments of several lines and raw literals go
on behind it. -/
def Lex.newline : Lex → Text × Lex
  | .slash => (['/'], .code [])
  | .block => ([], .block)
  | .star => ([], .block)
  | .raw delimiter _ => ([], .raw delimiter [])
  | _ => ([], .code [])

/-- Does the backslash at the end of a line join it with the next one? -/
def Lex.joins : Lex → Bool
  | .raw _ _ => false
  | _ => true

/-- The code of a line, and where the next line begins. -/
def Lex.readLine (st : Lex) (line : Text) : Text × Lex :=
  if line.getLast? = some backslash ∧ (st.read line.dropLast).2.joins then st.read line.dropLast
  else
    ((st.read line).1 ++ (st.read line).2.newline.1, (st.read line).2.newline.2)

-- ---------------------------------------------------------------------------
-- Macros
-- ---------------------------------------------------------------------------

inductive Macro
  | classTinyState
  | beginImplement
  | beginInterface
  | state (ss : Text)
  | thread (ss : Text)
  deriving DecidableEq

def Macro.ofState : Macro → Option Text
  | .state ss => some ss
  | _ => none

def Macro.ofThread : Macro → Option Text
  | .thread ss => some ss
  | _ => none

/-- The name of a state of either kind. -/
def Macro.name (m : Macro) : Option Text := m.ofState.or m.ofThread

/-- The macros at the beginning of a text. -/
def macrosHere (l : Text) : List Macro :=
  (if classHere l then [.classTinyState] else []) ++
    (if implementName.isPrefixOf l then [.beginImplement] else []) ++
    (if interfaceName.isPrefixOf l then [.beginInterface] else []) ++
    ((argumentHere stateName l).map .state).toList ++
    ((argumentHere threadName l).map .thread).toList

/-- The macros in a text. -/
def macros (code : Text) : List Macro := code.tails.flatMap macrosHere

/-- A place between two lines: outside of the blocks, or in one. -/
inductive Place
  | outside (st : Lex)
  | inside (b : Block)
  deriving DecidableEq

namespace Place

def start : Place := .outside (.code [])

/-- The macros of a line, blocks apart. -/
def macros (line : Text) : Place → List Macro
  | .outside st => Tscpp2.macros (st.readLine line).1
  | .inside _ => []

def next (line : Text) : Place → Place
  | .inside b => (b.next line).elim start .inside
  | .outside st =>
    if .beginImplement ∈ Tscpp2.macros (st.readLine line).1 then .inside .implement
    else if .beginInterface ∈ Tscpp2.macros (st.readLine line).1 then .inside .interface
    else .outside (st.readLine line).2

/-- Something holds of each line. -/
def Each (P : Place → Text → Prop) (p : Place) : List Text → Prop
  | [] => True
  | line :: lines => P p line ∧ (p.next line).Each P lines

/-- The macros of a source text outside of its blocks. -/
def occurrences : Place → List Text → List Macro
  | _, [] => []
  | p, line :: lines => p.macros line ++ occurrences (p.next line) lines

end Place

/-- The states found are those of the text, in their order, and the thread states are marked. -/
structure Found (lines : List Text) (s : Scan) : Prop where
  states : s.states = (Place.start.occurrences lines).filterMap Macro.name
  thrStates : ∀ ss, ss ∈ s.thrStates ↔ .thread ss ∈ Place.start.occurrences lines

def OneMacro (p : Place) (line : Text) : Prop := (p.macros line).length ≤ 1

/-- Outside of comments: a line that is skipped has no macro, and of any other line the two
patterns leave the macros of its code; a comment is taken to go on in the next line exactly if it
does; and a block begins where its macro is in the code. -/
def LineRead (line code : Text) (behind : Lex) : Option Mode → Prop
  | some mode => macros code = [] ∧ behind.inComment = decide (mode ≠ .top)
  | none => macros (strippedOf line) = macros code ∧ behind.inComment = false ∧
      has implementName line = decide (.beginImplement ∈ macros code) ∧
      has interfaceName line = decide (.beginInterface ∈ macros code)

/-- In a comment, a line has no macro behind it, and no comment that goes on. -/
def Understood : Place → Text → Prop
  | .inside _, _ => True
  | .outside st, line =>
    if st.inComment then
      macros (st.readLine line).1 = [] ∧ (st.readLine line).2.inComment = !has "*/".toList line
    else LineRead line (st.readLine line).1 (st.readLine line).2 (skipped line)

instance : ∀ (line code : Text) (behind : Lex) (mode : Option Mode),
    Decidable (LineRead line code behind mode)
  | _, _, _, some _ => inferInstanceAs (Decidable (_ ∧ _))
  | _, _, _, none => inferInstanceAs (Decidable (_ ∧ _ ∧ _ ∧ _))

instance : ∀ (p : Place) (line : Text), Decidable (Understood p line)
  | .inside _, _ => inferInstanceAs (Decidable True)
  | .outside st, _ => inferInstanceAs (Decidable (if st.inComment then _ else _))

instance (p : Place) (line : Text) : Decidable (OneMacro p line) :=
  inferInstanceAs (Decidable (_ ≤ _))

instance Place.decidableEach (P : Place → Text → Prop) [∀ p line, Decidable (P p line)] :
    ∀ p lines, Decidable (Place.Each P p lines)
  | _, [] => inferInstanceAs (Decidable True)
  | p, line :: lines =>
    have := decidableEach P (p.next line) lines
    inferInstanceAs (Decidable (_ ∧ _))

variable {s t u : Scan} {p : Place} {line : Text} {lines : List Text} {ms ns : List Macro}

-- ---------------------------------------------------------------------------
-- What is found in a line
-- ---------------------------------------------------------------------------

theorem mem_macros_class : line.tails.any classHere = decide (.classTinyState ∈ macros line) := by
  rw [Bool.eq_iff_iff, decide_eq_true_iff]
  simp [macros, macrosHere]

theorem mem_macros_implement :
    has implementName line = decide (.beginImplement ∈ macros line) := by
  rw [Bool.eq_iff_iff, decide_eq_true_iff]
  simp [has, macros, macrosHere]

theorem mem_macros_interface :
    has interfaceName line = decide (.beginInterface ∈ macros line) := by
  rw [Bool.eq_iff_iff, decide_eq_true_iff]
  simp [has, macros, macrosHere]

/-- The names in the macros of one kind are what its pattern finds. -/
theorem filterMap_macros {f : Macro → Option Text} {g : Text → Option Text}
    (h : ∀ l, (macrosHere l).filterMap f = (g l).toList) :
    (macros line).filterMap f = line.tails.filterMap g := by
  rw [macros, List.filterMap_flatMap, List.filterMap_eq_flatMap_toList]
  exact List.flatMap_congr fun l _ => h l

theorem filterMap_macrosHere {f : Macro → Option Text} (hclass : f .classTinyState = none)
    (himplement : f .beginImplement = none) (hinterface : f .beginInterface = none) (l : Text) :
    (macrosHere l).filterMap f =
      ((argumentHere stateName l).bind fun ss => f (.state ss)).toList ++
        ((argumentHere threadName l).bind fun ss => f (.thread ss)).toList := by
  have hopt (c : Prop) [Decidable c] {m : Macro} (hm : f m = none) :
      (if c then [m] else []).filterMap f = [] := by
    split
    · simp [hm]
    · rfl
  have hname (o : Option Text) (g : Text → Macro) :
      (o.map g).toList.filterMap f = (o.bind fun ss => f (g ss)).toList := by
    cases o with
    | none => rfl
    | some ss => cases h : f (g ss) <;> simp [h]
  simp [macrosHere, hopt, hname, hclass, himplement, hinterface]

theorem argument_state :
    argument stateName line = ((macros line).filterMap Macro.ofState).head? := by
  have hhere (l : Text) :
      (macrosHere l).filterMap Macro.ofState = (argumentHere stateName l).toList := by
    rw [filterMap_macrosHere rfl rfl rfl]
    simp [Macro.ofState]
  rw [filterMap_macros hhere, List.head?_filterMap]
  rfl

theorem argument_thread :
    argument threadName line = ((macros line).filterMap Macro.ofThread).head? := by
  have hhere (l : Text) :
      (macrosHere l).filterMap Macro.ofThread = (argumentHere threadName l).toList := by
    rw [filterMap_macrosHere rfl rfl rfl]
    simp [Macro.ofThread]
  rw [filterMap_macros hhere, List.head?_filterMap]
  rfl

/-- What a line adds. -/
structure Adds (ms : List Macro) (s t : Scan) : Prop where
  states : t.states = s.states ++ ms.filterMap Macro.name
  thrStates : ∀ ss, ss ∈ t.thrStates ↔ ss ∈ s.thrStates ∨ .thread ss ∈ ms

theorem Adds.none (h : ∀ m ∈ ms, m.name = none) (hstates : t.states = s.states)
    (hthr : t.thrStates = s.thrStates) : Adds ms s t where
  states := by
    have hnil : ms.filterMap Macro.name = [] := List.filterMap_eq_nil_iff.mpr h
    simp [hnil, hstates]
  thrStates ss := by
    have hnot : .thread ss ∉ ms := fun hm => by cases h _ hm
    simp [hnot, hthr]

theorem Adds.append (h : Adds ms s t) (h' : Adds ns t u) : Adds (ms ++ ns) s u where
  states := by simp [h'.states, h.states]
  thrStates ss := by simp [h'.thrStates, h.thrStates, or_assoc]

theorem adds_state (ss : Text) : Adds [.state ss] s (s.addState ss) where
  states := by simp [Scan.addState, Macro.name, Macro.ofState]
  thrStates := by simp [Scan.addState]

theorem adds_thread (ss : Text) : Adds [.thread ss] s (s.addThread ss) where
  states := by simp [Scan.addThread, Macro.name, Macro.ofState, Macro.ofThread]
  thrStates x := by simp [Scan.addThread, or_comm]

/-- The place behind a line and the mode are the same. -/
def Related : Mode → Place → Prop
  | mode, .inside b => mode = .block b
  | mode, .outside st =>
    if st.inComment then mode = .comment ∨ mode = .doc else mode = .top

/-- A line that is not skipped, with what is left of it. -/
theorem detect_spec {stripped code : Text} {behind : Lex} (htop : s.mode = .top)
    (hone : (macros code).length ≤ 1) (hms : macros stripped = macros code)
    (hbehind : behind.inComment = false)
    (himplement : has implementName line = decide (.beginImplement ∈ macros code))
    (hinterface : has interfaceName line = decide (.beginInterface ∈ macros code)) :
    Adds (macros code) s (detect s line stripped) ∧
      Related (detect s line stripped).mode
        (if .beginImplement ∈ macros code then .inside .implement
          else if .beginInterface ∈ macros code then .inside .interface
          else .outside behind) := by
  unfold detect
  rw [mem_macros_class, argument_state, argument_thread, himplement, hinterface, hms]
  generalize macros code = ms at hone
  match ms, hone with
  | [], _ =>
    have hadds : Adds [] s s := Adds.none (by simp) rfl rfl
    simpa [Related, hbehind, htop] using hadds
  | [.classTinyState], _ =>
    have hadds : Adds [.classTinyState] s s := Adds.none (by decide) rfl rfl
    simpa [Related, hbehind, htop] using hadds
  | [.beginImplement], _ =>
    have hadds : Adds [.beginImplement] s (s.goto (.block .implement)) :=
      Adds.none (by decide) rfl rfl
    simpa [Related, Scan.goto] using hadds
  | [.beginInterface], _ =>
    have hadds : Adds [.beginInterface] s (s.goto (.block .interface)) :=
      Adds.none (by decide) rfl rfl
    simpa [Related, Scan.goto] using hadds
  | [.state ss], _ =>
    have hmode : (s.addState ss).mode = .top := htop
    simpa [Related, hbehind, Macro.ofState, hmode] using adds_state ss
  | [.thread ss], _ =>
    have hmode : (s.addThread ss).mode = .top := htop
    simpa [Related, hbehind, Macro.ofState, Macro.ofThread, hmode] using adds_thread ss

-- ---------------------------------------------------------------------------
-- Lines
-- ---------------------------------------------------------------------------

theorem related_of_inComment {st : Lex} {mode : Mode}
    (h : st.inComment = decide (mode ≠ .top))
    (hmode : mode = .top ∨ mode = .comment ∨ mode = .doc) :
    Related mode (.outside st) := by
  rcases hmode with rfl | rfl | rfl <;> simp_all [Related]

theorem skipped_cases {mode : Mode} (h : skipped line = some mode) :
    mode = .top ∨ mode = .comment ∨ mode = .doc := by
  simp only [skipped] at h
  split_ifs at h <;> obtain rfl := Option.some.inj h <;> simp

/-- One line. -/
theorem scanLine_spec (hr : Related s.mode p) (hone : OneMacro p line) (h : Understood p line) :
    Adds (p.macros line) s (scanLine s line) ∧ Related (scanLine s line).mode (p.next line) := by
  cases p with
  | inside b =>
    have hmode : s.mode = .block b := hr
    have hscan : scanLine s line = s.goto ((b.next line).elim .top .block) := by
      simp [scanLine, hmode]
    rw [hscan]
    refine ⟨Adds.none (by simp [Place.macros]) rfl rfl, ?_⟩
    cases hb : b.next line <;> simp [Place.next, hb, Related, Scan.goto, Place.start, Lex.inComment]
  | outside st =>
    cases hin : st.inComment with
    | true =>
      simp only [Understood, hin, if_true] at h
      obtain ⟨hnil, hbehind⟩ := h
      have hmode : s.mode = .comment ∨ s.mode = .doc := by simpa [Related, hin] using hr
      have hscan : scanLine s line = if has "*/".toList line then s.goto .top else s := by
        rcases hmode with hm | hm <;> simp [scanLine, hm]
      have hnext : (Place.outside st).next line = .outside (st.readLine line).2 := by
        simp [Place.next, hnil]
      rw [hscan, hnext, Place.macros, hnil]
      cases hend : has "*/".toList line with
      | true =>
        rw [hend] at hbehind
        refine ⟨Adds.none (by simp) rfl rfl, ?_⟩
        simp [Related, hbehind, Scan.goto]
      | false =>
        rw [hend] at hbehind
        refine ⟨Adds.none (by simp) rfl rfl, ?_⟩
        simpa [Related, hbehind] using hmode
    | false =>
      simp only [Understood, hin, Bool.false_eq_true, if_false] at h
      have hmode : s.mode = .top := by simpa [Related, hin] using hr
      cases hskip : skipped line with
      | none =>
        rw [hskip] at h
        obtain ⟨hms, hbehind, himplement, hinterface⟩ := h
        have hscan : scanLine s line = detect s line (strippedOf line) := by
          simp [scanLine, hmode, hskip]
        rw [hscan]
        exact detect_spec hmode hone hms hbehind himplement hinterface
      | some mode =>
        rw [hskip] at h
        obtain ⟨hnil, hbehind⟩ := h
        have hscan : scanLine s line = s.goto mode := by simp [scanLine, hmode, hskip]
        have hnext : (Place.outside st).next line = .outside (st.readLine line).2 := by
          simp [Place.next, hnil]
        rw [hscan, hnext, Place.macros, hnil]
        exact ⟨Adds.none (by simp) rfl rfl, related_of_inComment hbehind (skipped_cases hskip)⟩

/-- Lines, one after the other. -/
theorem foldl_spec (hr : Related s.mode p) (hone : p.Each OneMacro lines)
    (h : p.Each Understood lines) : Adds (p.occurrences lines) s (lines.foldl scanLine s) := by
  induction lines generalizing s p with
  | nil => exact Adds.none (by simp [Place.occurrences]) rfl rfl
  | cons line lines ih =>
    obtain ⟨hadds, hr⟩ := scanLine_spec hr hone.1 h.1
    exact hadds.append (ih hr hone.2 h.2)

example : (scan_file ["TS_THREAD(A)".toList]).states = ["A".toList] := by decide +kernel

-- ---------------------------------------------------------------------------
-- Lines of code
-- ---------------------------------------------------------------------------

theorem has_iff {word : Text} : has word line = true ↔ word <:+: line := by
  simp only [has, List.any_eq_true, List.mem_tails, List.isPrefixOf_iff_prefix]
  exact ⟨fun ⟨l, hs, hp⟩ => hp.isInfix.trans hs.isInfix,
    fun h => (List.infix_iff_prefix_suffix.mp h).imp fun l h => ⟨h.2, h.1⟩⟩

theorem dropLiterals_absent {q : Char} (h : q ∉ line) : dropLiterals q .outside line = line := by
  induction line with
  | nil => rfl
  | cons c line ih =>
    obtain ⟨hc, hline⟩ := not_or.mp (List.mem_cons.not.mp h)
    simp [dropLiterals, Ne.symm hc, ih hline]

theorem dropComments_absent (h : '/' ∉ line) : dropComments .outside line = line := by
  induction line with
  | nil => rfl
  | cons c line ih =>
    obtain ⟨hc, hline⟩ := not_or.mp (List.mem_cons.not.mp h)
    rw [dropComments, ih hline]
    rintro l rfl
    exact absurd rfl hc

theorem read_plain {word : Text} (hquote : quote ∉ line) (hapostrophe : apostrophe ∉ line)
    (hslash : '/' ∉ line) : ∃ word', (Lex.code word).read line = (line, .code word') := by
  induction line generalizing word with
  | nil => exact ⟨word, rfl⟩
  | cons c line ih =>
    obtain ⟨hcq, hquote⟩ := not_or.mp (List.mem_cons.not.mp hquote)
    obtain ⟨hca, hapostrophe⟩ := not_or.mp (List.mem_cons.not.mp hapostrophe)
    obtain ⟨hcs, hslash⟩ := not_or.mp (List.mem_cons.not.mp hslash)
    have hstep : (Lex.code word).step c = ([c], .code (if inWord c then word ++ [c] else [])) := by
      simp [Lex.step, Lex.plain, Ne.symm hcq, Ne.symm hca, Ne.symm hcs]
    obtain ⟨word', hread⟩ :=
      @ih (if inWord c then word ++ [c] else []) hquote hapostrophe hslash
    exact ⟨word', by simp [Lex.read, hstep, hread]⟩

/-- A line of code without literals, comments and slashes is understood. -/
theorem understood_plain {word : Text} (hquote : quote ∉ line) (hapostrophe : apostrophe ∉ line)
    (hslash : '/' ∉ line) (hlast : line.getLast? ≠ some backslash) :
    Understood (.outside (.code word)) line := by
  have hcode : codeOf line = line := by
    rw [codeOf, dropLiterals_absent hquote, dropLiterals_absent hapostrophe]
  have hstripped : strippedOf line = line := by
    rw [strippedOf, hcode, dropComments_absent hslash]
  have hnot (w : Text) (hw : '/' ∈ w) : has w line = false := by
    by_contra h
    exact hslash ((has_iff.mp (by simpa using h)).subset hw)
  have hfirst (w : Text) (hw : '/' ∈ w) : w.isPrefixOf (line.dropWhile space) = false := by
    by_contra h
    have hp : w <+: line.dropWhile space := by simpa using h
    exact hslash ((List.dropWhile_sublist _).subset (hp.subset hw))
  have hskip : skipped line = none := by
    simp [skipped, hcode, hnot, hfirst]
  obtain ⟨word', hread⟩ : ∃ word', (Lex.code word).read line = (line, .code word') :=
    read_plain hquote hapostrophe hslash
  have hline : (Lex.code word).readLine line = (line, .code []) := by
    simp [Lex.readLine, hlast, hread, Lex.newline]
  simp only [Understood, Lex.inComment, hline, hskip, Bool.false_eq_true, if_false]
  exact ⟨by rw [hstripped], rfl, mem_macros_implement, mem_macros_interface⟩

def sourceLines (lines : List String) : List Text := lines.map String.toList

/-- A class with comments of all kinds, a block and a literal. -/
def counter : List Text := sourceLines
  ["CLASS_TINYSTATE(counter,tinyState)",
    "/* states",
    "TS_STATE(OLD) */",
    "/** \x22first\x22 */",
    "  TS_STATE(INI_START)",
    "// TS_STATE(INI_OTHER)",
    "TS_BEGIN_IMPLEMENT",
    "  TS_STATE(INSIDE)",
    "TS_END_IMPLEMENT",
    "TS_THREAD(ACT_WORK) /* works */",
    "puts(\x22TS_STATE(x)\x22);"]

end TinyState.Tscpp2
