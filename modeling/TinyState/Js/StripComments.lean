import TinyState.Lib.Backtracking

/-!
# Comments in JSON

`stdJSON.stripComments` looks for the next string or comment with one regular expression, keeps
the string and drops the comment. The expression takes a block comment as far as the last `*/`,
and takes a quote for escaped when there is a backslash before it, itself escaped or not.
-/

namespace TinyState.Js.StripComments

open Backtracking (Regex)
open Backtracking.Regex

-- ---------------------------------------------------------------------------
-- Model
-- ---------------------------------------------------------------------------

/-- A text is the list of its characters. -/
abbrev Text := List Char

def quote : Char := Char.ofNat 34
def apostrophe : Char := Char.ofNat 39
def backslash : Char := Char.ofNat 92
def lf : Char := Char.ofNat 10
def cr : Char := Char.ofNat 13

/-- What a line comment is ended by. -/
def newline (c : Char) : Bool := c == lf || c == cr

/-- `.`: the separators of lines and paragraphs are newlines too. -/
def dot (c : Char) : Bool :=
  !newline c && c != Char.ofNat 0x2028 && c != Char.ofNat 0x2029

def lit (c : Char) : Regex Char := .char (· == c)

/-- `([^q]*\\q)`. -/
def escaped (q : Char) : Regex Char :=
  .seq (.star (.char (· != q))) (.seq (lit backslash) (lit q))

/-- `([^q]*q)`. -/
def lastPart (q : Char) : Regex Char := .seq (.star (.char (· != q))) (lit q)

/-- `(q([^q]*\\q)*([^q]*q))`. -/
def quoted (q : Char) : Regex Char :=
  .seq (lit q) (.seq (.star (escaped q)) (lastPart q))

/-- `(.|\n|\r)*`. -/
def anything : Regex Char := .star (.alt (.char dot) (.alt (lit lf) (lit cr)))

def blockEnd : Regex Char := .seq (lit '*') (lit '/')

def blockComment : Regex Char := .seq (lit '/') (.seq (lit '*') (.seq anything blockEnd))

def lineComment : Regex Char :=
  .seq (lit '/') (.seq (lit '/') (.star (.char fun c => !newline c)))

def rg : Regex Char :=
  .alt (quoted quote) (.alt (quoted apostrophe) (.alt blockComment lineComment))

/-- What `stripComments` adds for a match that `rest` is behind. -/
def kept (found rest : Text) : Text :=
  if [quote].isPrefixOf (found ++ rest) || [apostrophe].isPrefixOf (found ++ rest) then found
  else if ['/', '/'].isPrefixOf (found ++ rest) then []
  else found.filter newline

/-- The loop of `stripComments`. -/
def stripLoop (str : Text) : Text :=
  match h : rg.exec str with
  | none => str
  | some (before, found, rest) =>
    have : rest.length < str.length := exec_lt rfl h
    before ++ kept found rest ++ stripLoop rest
termination_by str.length

/-- Does `str.indexOf(part)` find something? -/
def contains (part : Text) : Text → Bool
  | [] => part.isEmpty
  | c :: str => part.isPrefixOf (c :: str) || contains part str

/-- `stdJSON.stripComments`. -/
def stripComments (str : Text) : Text :=
  if !contains ['/', '/'] str && !contains ['/', '*'] str then str else stripLoop str

-- ---------------------------------------------------------------------------
-- JSON texts
-- ---------------------------------------------------------------------------

inductive Token
  | punct (c : Char)
  | string (body : Text)
  | word (w : Text)
  deriving DecidableEq, Repr

def space (c : Char) : Bool := newline c || c == ' ' || c == Char.ofNat 9

def punct (c : Char) : Bool := ['[', ']', ',', ':', Char.ofNat 123, Char.ofNat 125].contains c

inductive LexState
  | between
  | word (w : Text)
  | string (body : Text)
  | escape (body : Text)
  deriving DecidableEq, Repr

/-- The word that ends here, if there is one. -/
def LexState.ended : LexState → List Token
  | .word w => [.word w]
  | _ => []

/-- The tokens of a text. Numbers, `true`, `false` and `null` are words. -/
def lexFrom : LexState → Text → Option (List Token)
  | .string _, [] => none
  | .escape _, [] => none
  | st, [] => some st.ended
  | .string body, c :: l =>
    if c == quote then (lexFrom .between l).map (.string body :: ·)
    else if c == backslash then lexFrom (.escape (body ++ [c])) l
    else lexFrom (.string (body ++ [c])) l
  | .escape body, c :: l => lexFrom (.string (body ++ [c])) l
  | .between, c :: l =>
    if space c then lexFrom .between l
    else if punct c then (lexFrom .between l).map (.punct c :: ·)
    else if c == quote then lexFrom (.string []) l
    else lexFrom (.word [c]) l
  | .word w, c :: l =>
    if space c then (lexFrom .between l).map (.word w :: ·)
    else if punct c then (lexFrom .between l).map fun ts => .word w :: .punct c :: ts
    else if c == quote then (lexFrom (.string []) l).map (.word w :: ·)
    else lexFrom (.word (w ++ [c])) l

/-- A string that does not end is no token. -/
example (body : Text) : lexFrom (.string body) [] = none := by simp [lexFrom]

/-- `JSON.parse` reads a text as tokens and makes a value of them. -/
def jsonParse {β : Type*} (ofTokens : List Token → Option β) (text : Text) : Option β :=
  (lexFrom .between text).bind ofTokens

/-- Every quote is escaped, and no backslash is left. -/
def closed : Text → Bool
  | [] => true
  | c :: l =>
    if c == backslash then
      match l with
      | [] => false
      | _ :: l => closed l
    else c != quote && closed l

/-- A character of a number, of `true`, of `false` or of `null`. -/
def plain (c : Char) : Bool :=
  !space c && !punct c && c != quote && c != apostrophe && c != '/'

/-- The parts of a JSON text with comments. -/
inductive Item
  | punct (c : Char) (h : punct c)
  | string (body : Text) (h : closed body)
  | word (c : Char) (w : Text) (h : (c :: w).all plain)
  | space (c : Char) (h : space c)
  | line (content : Text) (c : Char) (h : content.all (fun c => !newline c) && newline c)
  | block (content : Text) (h : !contains ['*', '/'] content)

namespace Item

def render : Item → Text
  | punct c _ => [c]
  | string body _ => quote :: body ++ [quote]
  | word c w _ => c :: w
  | space c _ => [c]
  | line content c _ => '/' :: '/' :: content ++ [c]
  | block content _ => '/' :: '*' :: content ++ ['*', '/']

/-- What there is without the comments. -/
def original : Item → Text
  | line _ _ _ => []
  | block _ _ => []
  | i => i.render

/-- What is left of the comments: their newlines. -/
def stripped : Item → Text
  | line _ c _ => [c]
  | block content _ => content.filter newline
  | i => i.render

def tokens : Item → List Token
  | punct c _ => [.punct c]
  | string body _ => [.string body]
  | word c w _ => [.word (c :: w)]
  | _ => []

end Item

/-- Is a word the first thing that is no comment? -/
def wordFirst : List Item → Bool
  | [] => false
  | .word _ _ _ :: _ => true
  | .line _ _ _ :: items => wordFirst items
  | .block _ _ :: items => wordFirst items
  | _ :: _ => false

/-- There is something besides comments between two words. -/
def separated : List Item → Bool
  | [] => true
  | .word _ _ _ :: items => !wordFirst items && separated items
  | _ :: items => separated items

/-- A JSON text with comments between its tokens. -/
structure Commented where
  items : List Item
  sep : separated items

namespace Commented

def render (t : Commented) : Text := t.items.flatMap Item.render
def original (t : Commented) : Text := t.items.flatMap Item.original
def tokens (t : Commented) : List Token := t.items.flatMap Item.tokens

end Commented

def anyChar (c : Char) : Bool := dot c || newline c

/-- The expression finds the end of each string and of each block comment: the last character of
a string is no backslash, or no quote comes behind it, and behind a block comment no `*/` comes
before the next separator of lines or paragraphs. -/
def clear : List Item → Bool
  | [] => true
  | .string body _ :: items =>
    (body.getLast? != some backslash || !(items.flatMap Item.render).contains quote) && clear items
  | .block content _ :: items =>
    content.all anyChar &&
      !contains ['*', '/'] ((items.flatMap Item.render).takeWhile anyChar) && clear items
  | _ :: items => clear items

-- ---------------------------------------------------------------------------
-- The expression
-- ---------------------------------------------------------------------------

theorem contains_append_cons (c d : Char) (l rest : Text) :
    contains [c, d] (l ++ c :: d :: rest) := by
  induction l with
  | nil => simp [contains]
  | cons a l ih => simp [contains, ih]

theorem lit_ends (c : Char) (l : Text) : (lit c).ends (c :: l) = [l] := by simp [lit, ends]

theorem lit_other {c d : Char} (h : d ≠ c) (l : Text) : (lit c).ends (d :: l) = [] := by
  simp [lit, ends, h]

theorem seq_lit (c : Char) (s : Regex Char) (l : Text) :
    (Regex.seq (lit c) s).ends (c :: l) = s.ends l := by
  simp [ends_seq, lit_ends]

theorem seq_other {c d : Char} (h : d ≠ c) (s : Regex Char) (l : Text) :
    (Regex.seq (lit c) s).ends (d :: l) = [] := by
  simp [ends_seq, lit_other h]

/-- Nothing begins with a character that is no quote, no apostrophe and no slash. -/
theorem rg_plain {c : Char} (hq : c ≠ quote) (ha : c ≠ apostrophe) (hs : c ≠ '/') (l : Text) :
    rg.ends (c :: l) = [] := by
  simp only [rg, quoted, blockComment, lineComment, ends_alt, seq_other hq, seq_other ha,
    seq_other hs, List.append_nil]

theorem lastPart_ends {q : Char} {body : Text} (hb : q ∉ body) (rest : Text) :
    (lastPart q).ends (body ++ q :: rest) = [rest] := by
  rw [lastPart, ends_run]
  · rw [List.dropWhile_append_of_pos]
    · simp [lit_ends]
    · intro c hc
      simp only [bne_iff_ne]
      rintro rfl
      exact hb hc
  · intro c l hc
    exact lit_other (by simpa using hc) l

theorem lastPart_none {q : Char} {l : Text} (hl : q ∉ l) : (lastPart q).ends l = [] := by
  rw [lastPart, ends_run]
  · rw [List.dropWhile_eq_nil_iff.mpr]
    · rfl
    · intro c hc
      simp only [bne_iff_ne]
      rintro rfl
      exact hl hc
  · intro c l hc
    exact lit_other (by simpa using hc) l

/-- A backslash and the quote behind it. -/
theorem escape_ends {q c : Char} (l : Text) : (Regex.seq (lit backslash) (lit q)).ends (c :: l) =
    if c = backslash ∧ l.head? = some q then [l.tail] else [] := by
  by_cases hc : c = backslash
  · subst hc
    rw [seq_lit]
    cases l with
    | nil => rfl
    | cons d l => simp [lit, ends_char_cons]
  · simp [seq_other hc, hc]

/-- One round of the middle part ends at the next quote or nowhere. -/
theorem escaped_ends {q : Char} (hq : q ≠ backslash) {body : Text} (hb : q ∉ body) (rest : Text) :
    (escaped q).ends (body ++ q :: rest) =
      if body.getLast? = some backslash then [rest] else [] := by
  induction body with
  | nil => simp [escaped, ends_run_cons, seq_other hq]
  | cons c body ih =>
    simp only [List.mem_cons, not_or] at hb
    have hc : (c != q) = true := by simpa using Ne.symm hb.1
    have h := ih hb.2
    simp only [escaped] at h ⊢
    rw [List.cons_append, ends_run_cons, if_pos hc, h, escape_ends]
    cases body with
    | nil => simp
    | cons d body =>
      have hd : d ≠ q := fun h => hb.2 (h ▸ List.mem_cons_self)
      simp [hd, List.getLast?_cons_cons]

theorem escaped_none {q : Char} (l : Text) (hl : q ∉ l) : (escaped q).ends l = [] := by
  induction l with
  | nil => rfl
  | cons c l ih =>
    simp only [List.mem_cons, not_or] at hl
    have h := ih hl.2
    simp only [escaped] at h ⊢
    have hhead : l.head? ≠ some q := fun h => hl.2 (List.mem_of_mem_head? h)
    simp [ends_run_cons, h, escape_ends, hhead]

/-- A body without quotes, or the part before the first one, which a backslash ends. -/
theorem closed_split {body : Text} (h : closed body) : quote ∉ body ∨
    ∃ first rest, body = first ++ quote :: rest ∧ quote ∉ first ∧
      first.getLast? = some backslash ∧ closed rest := by
  fun_induction closed body with
  | case1 => exact .inl (List.not_mem_nil)
  | case2 => cases h
  | case3 c hc d l ih =>
    obtain rfl : c = backslash := by simpa using hc
    by_cases hd : d = quote
    · exact .inr ⟨[backslash], l, by simp [hd], by decide, rfl, h⟩
    · rcases ih h with hl | ⟨first, rest, rfl, hf, hlast, hr⟩
      · exact .inl (by simp [hl, Ne.symm hd]; decide)
      · refine .inr ⟨backslash :: d :: first, rest, rfl, ?_, ?_, hr⟩
        · simp [hf, Ne.symm hd]; decide
        · simp [List.getLast?_cons, hlast]
  | case4 c l hc ih =>
    simp only [Bool.and_eq_true, bne_iff_ne] at h
    rcases ih h.2 with hl | ⟨first, rest, rfl, hf, hlast, hr⟩
    · exact .inl (by simp [hl, Ne.symm h.1])
    · refine .inr ⟨c :: first, rest, rfl, by simp [hf, Ne.symm h.1], ?_, hr⟩
      simp [List.getLast?_cons, hlast]

/-- What is behind the first quote of a string. -/
def stringTail : Regex Char := .seq (.star (escaped quote)) (lastPart quote)

theorem stringTail_cut {first : Text} (hf : quote ∉ first)
    (hlast : first.getLast? = some backslash) (rest : Text) :
    stringTail.ends (first ++ quote :: rest) = stringTail.ends rest ++ [rest] := by
  have hlt : rest.length < first.length + (rest.length + 1) := by omega
  rw [stringTail, ends_star_seq, escaped_ends (by decide) hf, if_pos hlast, lastPart_ends hf]
  simp [hlt]

theorem stringTail_end {body : Text} (hb : quote ∉ body)
    (hlast : body.getLast? ≠ some backslash) (rest : Text) :
    stringTail.ends (body ++ quote :: rest) = [rest] := by
  rw [stringTail, ends_star_seq, escaped_ends (by decide) hb, if_neg hlast, lastPart_ends hb]
  rfl

theorem stringTail_none {l : Text} (hl : quote ∉ l) : stringTail.ends l = [] := by
  rw [stringTail, ends_star_seq, escaped_none l hl, lastPart_none hl]
  rfl

/-- A string is read to its end. -/
theorem string_ends {body : Text} (hb : closed body) {rest : Text}
    (h : body.getLast? ≠ some backslash ∨ quote ∉ rest) :
    (stringTail.ends (body ++ quote :: rest)).head? = some rest := by
  rcases closed_split hb with hn | ⟨first, body', rfl, hf, hlast, hb'⟩
  · by_cases hl : body.getLast? = some backslash
    · have hr := h.resolve_left (not_not_intro hl)
      simp [stringTail_cut hn hl, stringTail_none hr]
    · simp [stringTail_end hn hl]
  · have h' : body'.getLast? ≠ some backslash ∨ quote ∉ rest := by
      refine h.imp_left fun hne heq => hne ?_
      simp [List.getLast?_append, List.getLast?_cons, heq]
    have ih := string_ends hb' h'
    rw [List.append_assoc, List.cons_append, stringTail_cut hf hlast]
    simp [ih]
termination_by body.length
decreasing_by
  subst_vars
  simp only [List.length_append, List.length_cons]
  omega

theorem any_ends (l : Text) :
    (Regex.alt (.char dot) (.alt (lit lf) (lit cr))).ends l = (Regex.char anyChar).ends l := by
  cases l with
  | nil => rfl
  | cons c l =>
    simp only [ends, lit, anyChar, dot, newline]
    by_cases h1 : c = lf
    · subst h1; rfl
    · by_cases h2 : c = cr
      · subst h2; rfl
      · simp [h1, h2]

/-- What is behind the beginning of a block comment. -/
theorem blockTail_ends (l : Text) : (Regex.seq anything blockEnd).ends l =
    (Regex.seq (.star (.char anyChar)) blockEnd).ends l := by
  rw [ends_seq, anything, ends_star_congr any_ends, ← ends_seq]

theorem blockEnd_ends (l : Text) :
    blockEnd.ends l = if ['*', '/'].isPrefixOf l then [l.drop 2] else [] := by
  match l with
  | [] => rfl
  | [c] => simp [blockEnd, ends_seq, lit, ends, List.isPrefixOf]
  | c :: d :: l =>
    rcases eq_or_ne c '*' with rfl | hc
    · rw [blockEnd, seq_lit, lit, ends_char_cons]
      rcases eq_or_ne d '/' with rfl | hd
      · rfl
      · simp [List.isPrefixOf, hd, hd.symm]
    · rw [blockEnd, seq_other hc]
      simp [List.isPrefixOf, hc.symm]

theorem block_none {l : Text} (h : contains ['*', '/'] (l.takeWhile anyChar) = false) :
    (Regex.seq (.star (.char anyChar)) blockEnd).ends l = [] := by
  induction l with
  | nil => rfl
  | cons c l ih =>
    rw [ends_run_cons, blockEnd_ends]
    by_cases hc : anyChar c = true
    · rw [List.takeWhile_cons_of_pos hc, contains, Bool.or_eq_false_iff] at h
      have hp : ['*', '/'].isPrefixOf (c :: l) = false := by
        cases l with
        | nil => simp [List.isPrefixOf]
        | cons d l =>
          have hd : anyChar '/' = true := by decide
          refine Bool.eq_false_iff.mpr fun hp => ?_
          simp only [List.isPrefixOf, Bool.and_eq_true, beq_iff_eq] at hp
          obtain ⟨rfl, rfl, -⟩ := hp
          simp [hd, List.isPrefixOf] at h
      simp [ih h.2, hp]
    · have hs : c ≠ '*' := by
        rintro rfl
        exact hc (by decide)
      simp [hc, List.isPrefixOf, hs.symm]

theorem block_ends {content rest : Text} (hc : content.all anyChar)
    (h : contains ['*', '/'] (rest.takeWhile anyChar) = false) :
    ((Regex.seq (.star (.char anyChar)) blockEnd).ends
      (content ++ '*' :: '/' :: rest)).head? = some rest := by
  induction content with
  | nil =>
    have hs : anyChar '*' = true := by decide
    have ht : anyChar '/' = true := by decide
    simp [ends_run_cons, blockEnd_ends, hs, ht, block_none h]
  | cons c content ih =>
    simp only [List.all_cons, Bool.and_eq_true] at hc
    rw [List.cons_append, ends_run_cons, if_pos hc.1, List.head?_append, ih hc.2]
    rfl

-- ---------------------------------------------------------------------------
-- One part of a text
-- ---------------------------------------------------------------------------

theorem stripLoop_nil : stripLoop [] = [] := by
  rw [stripLoop]
  rfl

theorem kept_string (l rest : Text) : kept (quote :: l) rest = quote :: l := rfl

theorem kept_line (l rest : Text) : kept ('/' :: '/' :: l) rest = [] := rfl

theorem kept_block (l rest : Text) : kept ('/' :: '*' :: l) rest = l.filter newline := rfl

theorem stripLoop_none {str : Text} (h : rg.exec str = none) : stripLoop str = str := by
  rw [stripLoop]
  split
  · rfl
  · simp_all

theorem stripLoop_some {str before found rest : Text}
    (h : rg.exec str = some (before, found, rest)) :
    stripLoop str = before ++ kept found rest ++ stripLoop rest := by
  rw [stripLoop]
  split
  · simp_all
  · next h' =>
    rw [h] at h'
    cases h'
    rfl

theorem stripLoop_skip {c : Char} {l : Text} (h : rg.ends (c :: l) = []) :
    stripLoop (c :: l) = c :: stripLoop l := by
  have hs := exec_skip h
  rcases hl : rg.exec l with - | ⟨before, found, rest⟩
  · rw [hl] at hs
    rw [stripLoop_none hs, stripLoop_none hl]
  · rw [hl] at hs
    rw [stripLoop_some hs, stripLoop_some hl]
    rfl

theorem stripLoop_match {c : Char} {found rest : Text}
    (h : (rg.ends (c :: found ++ rest)).head? = some rest) :
    stripLoop (c :: found ++ rest) = kept (c :: found) rest ++ stripLoop rest := by
  have hm : rg.exec (c :: found ++ rest) = some ([], c :: found, rest) := by
    rw [List.cons_append] at h ⊢
    rw [exec_match h, List.length_append, Nat.add_right_comm, Nat.add_sub_cancel,
      ← List.cons_append, ← List.length_cons, List.take_left]
  rw [stripLoop_some hm]
  rfl

theorem stripLoop_plain {l : Text} (h : l.all fun c => c != quote && c != apostrophe && c != '/')
    (rest : Text) : stripLoop (l ++ rest) = l ++ stripLoop rest := by
  induction l with
  | nil => rfl
  | cons c l ih =>
    simp only [List.all_cons, Bool.and_eq_true, bne_iff_ne] at h
    rw [List.cons_append, stripLoop_skip (rg_plain h.1.1.1 h.1.1.2 h.1.2 _), ih h.2]
    rfl

theorem stripLoop_string {body : Text} (hb : closed body) {rest : Text}
    (h : body.getLast? ≠ some backslash ∨ quote ∉ rest) :
    stripLoop (quote :: body ++ [quote] ++ rest) = quote :: body ++ [quote] ++ stripLoop rest := by
  have hm : (rg.ends (quote :: (body ++ [quote]) ++ rest)).head? = some rest := by
    have hs := string_ends hb h
    rw [List.cons_append, List.append_assoc, rg, ends_alt, quoted, seq_lit, List.head?_append]
    exact Option.or_eq_some_iff.mpr (.inl hs)
  exact (stripLoop_match hm).trans (by rw [kept_string]; rfl)

theorem stripLoop_line {content : Text} (hc : content.all fun c => !newline c) {c : Char}
    (hn : newline c) (rest : Text) :
    stripLoop ('/' :: '/' :: content ++ [c] ++ rest) = c :: stripLoop rest := by
  have hm : (rg.ends ('/' :: ('/' :: content) ++ c :: rest)).head? = some (c :: rest) := by
    have hq : '/' ≠ quote := by decide
    have ha : '/' ≠ apostrophe := by decide
    have hs : '/' ≠ '*' := by decide
    simp only [rg, quoted, blockComment, lineComment, ends_alt, List.cons_append,
      seq_other hq, seq_other ha, seq_lit, seq_other hs, List.nil_append]
    rw [head_star_char, List.dropWhile_append_of_pos (by simpa using hc)]
    simp [hn]
  have hp : rg.ends (c :: rest) = [] := by
    refine rg_plain ?_ ?_ ?_ rest <;> rintro rfl <;> revert hn <;> decide
  have h := stripLoop_match hm
  rw [kept_line, stripLoop_skip hp] at h
  simpa using h

theorem stripLoop_block {content : Text} (hc : content.all anyChar) {rest : Text}
    (h : contains ['*', '/'] (rest.takeWhile anyChar) = false) :
    stripLoop ('/' :: '*' :: content ++ ['*', '/'] ++ rest) =
      content.filter newline ++ stripLoop rest := by
  have hm : (rg.ends ('/' :: ('*' :: content ++ ['*', '/']) ++ rest)).head? = some rest := by
    have hq : '/' ≠ quote := by decide
    have ha : '/' ≠ apostrophe := by decide
    have hs := block_ends hc h
    simp only [rg, quoted, blockComment, lineComment, ends_alt, List.cons_append,
      seq_other hq, seq_other ha, seq_lit, List.nil_append, blockTail_ends, List.append_assoc]
    rw [List.head?_append]
    exact Option.or_eq_some_iff.mpr (.inl hs)
  have hend : (['*', '/'] : Text).filter newline = [] := by decide
  have h := stripLoop_match hm
  rw [List.cons_append, List.cons_append, kept_block, List.filter_append, hend] at h
  simpa using h

-- ---------------------------------------------------------------------------
-- A whole text
-- ---------------------------------------------------------------------------

def Item.isComment : Item → Bool
  | .line _ _ _ => true
  | .block _ _ => true
  | _ => false

theorem newline_space {c : Char} (h : newline c) : space c := by simp [space, h]

/-- Each character of a token that is no string is none that the expression looks for. -/
theorem punct_plain {c : Char} (h : punct c) : c ≠ quote ∧ c ≠ apostrophe ∧ c ≠ '/' := by
  refine ⟨?_, ?_, ?_⟩ <;> rintro rfl <;> revert h <;> decide

theorem space_plain {c : Char} (h : space c) : c ≠ quote ∧ c ≠ apostrophe ∧ c ≠ '/' := by
  refine ⟨?_, ?_, ?_⟩ <;> rintro rfl <;> revert h <;> decide

/-- One round for each string and comment. -/
theorem stripLoop_items {items : List Item} (h : clear items) :
    stripLoop (items.flatMap Item.render) = items.flatMap Item.stripped := by
  induction items with
  | nil => exact stripLoop_nil
  | cons i items ih =>
    rw [List.flatMap_cons, List.flatMap_cons]
    cases i with
    | punct c hc =>
      obtain ⟨hq, ha, hs⟩ := punct_plain hc
      rw [Item.render, stripLoop_plain (by simp [hq, ha, hs]), ih h]
      rfl
    | string body hb =>
      simp only [clear, Bool.and_eq_true, Bool.or_eq_true, bne_iff_ne] at h
      rw [Item.render, stripLoop_string hb (h.1.imp_right (by simp)), ih h.2]
      rfl
    | word c w hw =>
      have hp : (c :: w).all fun c => c != quote && c != apostrophe && c != '/' := by
        refine List.all_eq_true.mpr fun d hd => ?_
        have := List.all_eq_true.mp hw d hd
        simp only [plain, Bool.and_eq_true] at this
        simp [this]
      rw [Item.render, stripLoop_plain hp, ih h]
      rfl
    | space c hc =>
      obtain ⟨hq, ha, hs⟩ := space_plain hc
      rw [Item.render, stripLoop_plain (by simp [hq, ha, hs]), ih h]
      rfl
    | line content c hc =>
      simp only [Bool.and_eq_true] at hc
      rw [Item.render, stripLoop_line hc.1 hc.2, ih h]
      rfl
    | block content hc =>
      simp only [clear, Bool.and_eq_true, Bool.not_eq_true'] at h
      rw [Item.render, stripLoop_block h.1.1 h.1.2, ih h.2]
      rfl

/-- A text that needs no look has no comments. -/
theorem stripped_eq_render {items : List Item}
    (hl : contains ['/', '/'] (items.flatMap Item.render) = false)
    (hb : contains ['/', '*'] (items.flatMap Item.render) = false) :
    items.flatMap Item.stripped = items.flatMap Item.render := by
  refine List.flatMap_congr fun i hi => ?_
  obtain ⟨before, after, rfl⟩ := List.append_of_mem hi
  rw [List.flatMap_append, List.flatMap_cons] at hl hb
  cases i with
  | line content c hc =>
    have := contains_append_cons '/' '/' (before.flatMap Item.render)
      (content ++ [c] ++ after.flatMap Item.render)
    simp [Item.render] at hl this
    simp [this] at hl
  | block content hc =>
    have := contains_append_cons '/' '*' (before.flatMap Item.render)
      (content ++ ['*', '/'] ++ after.flatMap Item.render)
    simp [Item.render] at hb this
    simp [this] at hb
  | punct | string | word | space => rfl

-- ---------------------------------------------------------------------------
-- Tokens
-- ---------------------------------------------------------------------------

theorem lexFrom_spaces {l : Text} (h : l.all space) (rest : Text) :
    lexFrom .between (l ++ rest) = lexFrom .between rest := by
  induction l with
  | nil => rfl
  | cons c l ih =>
    simp only [List.all_cons, Bool.and_eq_true] at h
    simp [lexFrom, h.1, ih h.2]

/-- A word that ends where the text `rest` begins. -/
def WordEnds (rest : Text) : Prop :=
  ∀ w, lexFrom (.word w) rest = (lexFrom .between rest).map (.word w :: ·)

theorem WordEnds.spaces {rest : Text} (hr : WordEnds rest) {l : Text} (h : l.all space) :
    WordEnds (l ++ rest) := by
  intro w
  cases l with
  | nil => exact hr w
  | cons c l =>
    simp only [List.all_cons, Bool.and_eq_true] at h
    simp [lexFrom, h.1]

theorem lexFrom_word {w : Text} (h : w.all plain) (v rest : Text) :
    lexFrom (.word v) (w ++ rest) = lexFrom (.word (v ++ w)) rest := by
  induction w generalizing v with
  | nil => simp
  | cons c w ih =>
    simp only [List.all_cons, Bool.and_eq_true] at h
    have hc := h.1
    simp only [plain, Bool.and_eq_true, Bool.not_eq_true', bne_iff_ne] at hc
    simp [lexFrom, hc, ih h.2]

theorem lexFrom_string {body : Text} (h : closed body) (v rest : Text) :
    lexFrom (.string v) (body ++ quote :: rest) =
      (lexFrom .between rest).map (.string (v ++ body) :: ·) := by
  fun_induction closed body generalizing v with
  | case1 => simp [lexFrom]
  | case2 => cases h
  | case3 c hc d l ih =>
    obtain rfl : c = backslash := by simpa using hc
    have hq : backslash ≠ quote := by decide
    simp [lexFrom, hq, ih h]
  | case4 c l hc ih =>
    simp only [Bool.and_eq_true, bne_iff_ne] at h
    simp [lexFrom, h.1, hc, ih h.2]

theorem punct_not_space {c : Char} (h : punct c) : space c = false := by
  refine Bool.eq_false_iff.mpr fun hs => ?_
  simp only [space, newline, Bool.or_eq_true, beq_iff_eq] at hs
  rcases hs with ((rfl | rfl) | rfl) | rfl <;> revert h <;> decide

/-- A way to write the parts of a text: comments as space, everything else as it is. -/
structure Written (f : Item → Text) : Prop where
  comment : ∀ i, i.isComment → (f i).all space
  other : ∀ i, i.isComment = false → f i = i.render

theorem written_original : Written Item.original where
  comment := by rintro (_ | _ | _ | _ | _ | _) h <;> first | rfl | cases h
  other := by rintro (_ | _ | _ | _ | _ | _) h <;> first | rfl | cases h

theorem written_stripped : Written Item.stripped where
  comment := by
    rintro i h
    cases i with
    | line content c hc =>
      simp only [Bool.and_eq_true] at hc
      simp [Item.stripped, newline_space hc.2]
    | block content hc =>
      refine List.all_eq_true.mpr fun c hc => newline_space ?_
      exact (List.mem_filter.mp hc).2
    | punct | string | word | space => cases h
  other := by rintro (_ | _ | _ | _ | _ | _) h <;> first | rfl | cases h

theorem Written.wordEnds {f : Item → Text} (hf : Written f) {items : List Item}
    (h : wordFirst items = false) : WordEnds (items.flatMap f) := by
  induction items with
  | nil => exact fun w => rfl
  | cons i items ih =>
    rw [List.flatMap_cons]
    cases i with
    | punct c hp =>
      intro w
      rw [hf.other _ rfl]
      simp [Item.render, lexFrom, punct_not_space hp, hp, Function.comp_def]
    | string body hb =>
      have hs : space quote = false := by decide
      have hp : punct quote = false := by decide
      intro w
      rw [hf.other _ rfl]
      simp [Item.render, lexFrom, hs, hp]
    | word => cases h
    | space c hs =>
      intro w
      rw [hf.other _ rfl]
      simp [Item.render, lexFrom, hs]
    | line | block => exact (ih h).spaces (hf.comment _ rfl)

/-- The tokens are there however the comments are written, as long as it is as space. -/
theorem Written.tokens {f : Item → Text} (hf : Written f) {items : List Item}
    (h : separated items) :
    lexFrom .between (items.flatMap f) = some (items.flatMap Item.tokens) := by
  induction items with
  | nil => rfl
  | cons i items ih =>
    rw [List.flatMap_cons, List.flatMap_cons]
    cases i with
    | punct c hp =>
      rw [hf.other _ rfl]
      simp [Item.render, Item.tokens, lexFrom, punct_not_space hp, hp, ih h]
    | string body hb =>
      have hs : space quote = false := by decide
      have hp : punct quote = false := by decide
      rw [hf.other _ rfl]
      simp [Item.render, Item.tokens, lexFrom, hs, hp, lexFrom_string hb, ih h]
    | word c w hw =>
      simp only [separated, Bool.and_eq_true, Bool.not_eq_true'] at h
      have hw' := hw
      simp only [List.all_cons, Bool.and_eq_true, plain, Bool.not_eq_true', bne_iff_ne] at hw'
      obtain ⟨⟨⟨⟨⟨hs, hp⟩, hq⟩, -⟩, -⟩, hall⟩ := hw'
      have hstart : lexFrom .between (c :: w ++ items.flatMap f) =
          lexFrom (.word [c]) (w ++ items.flatMap f) := by
        simp [lexFrom, hs, hp, hq]
      rw [hf.other _ rfl, Item.render, hstart, lexFrom_word (by simpa [plain] using hall),
        hf.wordEnds h.1, ih h.2]
      rfl
    | space c hs =>
      rw [hf.other _ rfl]
      simp [Item.render, Item.tokens, lexFrom, hs, ih h]
    | line | block =>
      rw [lexFrom_spaces (hf.comment _ rfl), ih h]
      rfl

-- ---------------------------------------------------------------------------
-- Comments are dropped and nothing else
-- ---------------------------------------------------------------------------

/-- When the expression finds every end, the text without its comments is left as far as a
parser can tell. -/
theorem comments_law {β : Type*} (ofTokens : List Token → Option β) (t : Commented)
    (h : (!contains ['/', '/'] t.render && !contains ['/', '*'] t.render) || clear t.items) :
    jsonParse ofTokens (stripComments t.render) = jsonParse ofTokens t.original := by
  have hs : stripComments t.render = t.items.flatMap Item.stripped := by
    rw [stripComments]
    split
    · next hn =>
      simp only [Bool.and_eq_true, Bool.not_eq_true'] at hn
      exact (stripped_eq_render hn.1 hn.2).symm
    · next hn =>
      rw [Bool.or_eq_true] at h
      exact stripLoop_items (h.resolve_left hn)
  rw [hs, jsonParse, jsonParse, Commented.original, written_stripped.tokens t.sep,
    written_original.tokens t.sep]

-- ---------------------------------------------------------------------------
-- Every JSON text is the original of one with comments
-- ---------------------------------------------------------------------------

/-- What a lexer in the middle of a token has read of it. -/
def LexState.read : LexState → Text
  | .between => []
  | .word w => w
  | .string body => quote :: body
  | .escape body => quote :: body

def LexState.Ok : LexState → Prop
  | .between => True
  | .word w => w ≠ [] ∧ w.all plain
  | .string body => closed body
  | .escape body => ∃ first, body = first ++ [backslash] ∧ closed first

theorem closed_cons {c : Char} (hc : ¬(c == backslash)) (l : Text) :
    closed (c :: l) = (c != quote && closed l) := by
  cases l <;> simp [closed, hc]

theorem closed_append {a b : Text} (ha : closed a) (hb : closed b) : closed (a ++ b) := by
  fun_induction closed a with
  | case1 => exact hb
  | case2 => cases ha
  | case3 c hc d l ih => simp [closed, hc, ih ha]
  | case4 c l hc ih =>
    simp only [Bool.and_eq_true, bne_iff_ne] at ha
    simp [closed_cons hc, ha.1, ih ha.2]

theorem word_mem {v l : Text} {ts : List Token} (h : lexFrom (.word v) l = some ts) :
    ∃ w, Token.word (v ++ w) ∈ ts := by
  induction l generalizing v ts with
  | nil =>
    cases h
    exact ⟨[], by simp [LexState.ended]⟩
  | cons c l ih =>
    simp only [lexFrom] at h
    split_ifs at h
    · obtain ⟨ts, -, rfl⟩ := Option.map_eq_some_iff.mp h
      exact ⟨[], by simp⟩
    · obtain ⟨ts, -, rfl⟩ := Option.map_eq_some_iff.mp h
      exact ⟨[], by simp⟩
    · obtain ⟨ts, -, rfl⟩ := Option.map_eq_some_iff.mp h
      exact ⟨[], by simp⟩
    · obtain ⟨w, hw⟩ := ih h
      exact ⟨c :: w, by simpa using hw⟩

theorem wordFirst_quote {items : List Item} {l : Text}
    (h : items.flatMap Item.original = quote :: l) : wordFirst items = false := by
  induction items with
  | nil => rfl
  | cons i items ih =>
    rw [List.flatMap_cons] at h
    cases i with
    | word c w hw =>
      obtain ⟨rfl, -⟩ := List.cons_eq_cons.mp h
      simp [plain] at hw
    | line | block => exact ih h
    | punct | string | space => rfl

/-- A text with only plain words in it is written in parts. -/
theorem exists_items (st : LexState) {text : Text} {ts : List Token} (hst : st.Ok)
    (h : lexFrom st text = some ts) (hw : ∀ w, Token.word w ∈ ts → w.all plain) :
    ∃ items, separated items ∧ items.flatMap Item.original = st.read ++ text := by
  induction text generalizing st ts with
  | nil =>
    cases st with
    | between => exact ⟨[], rfl, rfl⟩
    | word w =>
      obtain ⟨hne, hall⟩ := hst
      cases w with
      | nil => exact absurd rfl hne
      | cons c w =>
        exact ⟨[.word c w hall], rfl, by simp [Item.original, Item.render, LexState.read]⟩
    | string body => cases h
    | escape body => cases h
  | cons c l ih =>
    cases st with
    | between =>
      simp only [lexFrom] at h
      split_ifs at h with hs hp hq
      · obtain ⟨items, hsep, hl⟩ := ih .between trivial h hw
        exact ⟨.space c hs :: items, hsep, by simp [Item.original, Item.render, hl, LexState.read]⟩
      · obtain ⟨ts, h', rfl⟩ := Option.map_eq_some_iff.mp h
        obtain ⟨items, hsep, hl⟩ := ih .between trivial h' fun w hm => hw w (by simp [hm])
        exact ⟨.punct c hp :: items, hsep, by simp [Item.original, Item.render, hl, LexState.read]⟩
      · obtain rfl : c = quote := by simpa using hq
        obtain ⟨items, hsep, hl⟩ := ih (.string []) rfl h hw
        exact ⟨items, hsep, hl⟩
      · obtain ⟨w, hm⟩ := word_mem h
        have hc := List.all_eq_true.mp (hw _ hm) c (by simp)
        obtain ⟨items, hsep, hl⟩ := ih (.word [c]) ⟨by simp, by simp [hc]⟩ h hw
        exact ⟨items, hsep, hl⟩
    | word v =>
      obtain ⟨hne, hall⟩ := hst
      obtain ⟨a, v, rfl⟩ := List.exists_cons_of_ne_nil hne
      simp only [lexFrom] at h
      split_ifs at h with hs hp hq
      · obtain ⟨ts, h', rfl⟩ := Option.map_eq_some_iff.mp h
        obtain ⟨items, hsep, hl⟩ := ih .between trivial h' fun w hm => hw w (by simp [hm])
        refine ⟨.word a v hall :: .space c hs :: items, by simpa [separated, wordFirst], ?_⟩
        simp [Item.original, Item.render, hl, LexState.read]
      · obtain ⟨ts, h', rfl⟩ := Option.map_eq_some_iff.mp h
        obtain ⟨items, hsep, hl⟩ := ih .between trivial h' fun w hm => hw w (by simp [hm])
        refine ⟨.word a v hall :: .punct c hp :: items, by simpa [separated, wordFirst], ?_⟩
        simp [Item.original, Item.render, hl, LexState.read]
      · obtain rfl : c = quote := by simpa using hq
        obtain ⟨ts, h', rfl⟩ := Option.map_eq_some_iff.mp h
        obtain ⟨items, hsep, hl⟩ := ih (.string []) rfl h' fun w hm => hw w (by simp [hm])
        refine ⟨.word a v hall :: items, by simp [separated, wordFirst_quote hl, hsep], ?_⟩
        simp [Item.original, Item.render, hl, LexState.read]
      · obtain ⟨w, hm⟩ := word_mem h
        have hc := List.all_eq_true.mp (hw _ hm) c (by simp)
        have hok : (LexState.word (a :: v ++ [c])).Ok := ⟨by simp, by simpa [hc] using hall⟩
        obtain ⟨items, hsep, hl⟩ := ih _ hok h hw
        exact ⟨items, hsep, by simpa [LexState.read] using hl⟩
    | string body =>
      simp only [lexFrom] at h
      split_ifs at h with hq hb
      · obtain rfl : c = quote := by simpa using hq
        obtain ⟨ts, h', rfl⟩ := Option.map_eq_some_iff.mp h
        obtain ⟨items, hsep, hl⟩ := ih .between trivial h' fun w hm => hw w (by simp [hm])
        refine ⟨.string body hst :: items, hsep, ?_⟩
        simp [Item.original, Item.render, hl, LexState.read]
      · obtain rfl : c = backslash := by simpa using hb
        obtain ⟨items, hsep, hl⟩ := ih (.escape _) ⟨body, rfl, hst⟩ h hw
        exact ⟨items, hsep, by simpa [LexState.read] using hl⟩
      · have hc : closed [c] := by simpa [closed, hb] using hq
        obtain ⟨items, hsep, hl⟩ := ih (.string (body ++ [c])) (closed_append hst hc) h hw
        exact ⟨items, hsep, by simpa [LexState.read] using hl⟩
    | escape body =>
      obtain ⟨first, rfl, hf⟩ := hst
      have hc : closed (first ++ [backslash] ++ [c]) := by
        rw [List.append_assoc]
        exact closed_append hf (by simp [closed])
      obtain ⟨items, hsep, hl⟩ := ih (.string _) hc h hw
      exact ⟨items, hsep, by simpa [LexState.read] using hl⟩

/-- Each text that is read as tokens is what some text with comments is made from. -/
theorem exists_commented {text : Text} {ts : List Token} (h : lexFrom .between text = some ts)
    (hw : ∀ w, Token.word w ∈ ts → w.all plain) : ∃ t : Commented, t.original = text := by
  obtain ⟨items, hsep, hl⟩ := exists_items .between trivial h hw
  exact ⟨⟨items, hsep⟩, hl⟩

-- Law witness: a comment of each kind, and a string that looks like both.
def exItems : Commented where
  items :=
    [.punct '[' (by decide), .string ['/', '/', backslash, quote, '/', '*'] (by decide),
      .punct ',' (by decide), .block [' ', '*', quote] (by decide), .word '1' ['2'] (by decide),
      .line ['x', quote] lf (by decide), .punct ']' (by decide)]
  sep := by decide

theorem comments_law_mixed :
    jsonParse some (stripComments exItems.render) = some exItems.tokens := by
  rw [comments_law some exItems (by decide +kernel)]
  decide +kernel

-- `[1/*a*/,2/*b*/]` loses its second number.
def exTwo : Commented where
  items :=
    [.punct '[' (by decide), .word '1' [] (by decide), .block ['a'] (by decide),
      .punct ',' (by decide), .word '2' [] (by decide), .block ['b'] (by decide),
      .punct ']' (by decide)]
  sep := by decide

-- `["\\","//"]` has no comment and loses its end.
def exBackslash : Commented where
  items :=
    [.punct '[' (by decide), .string [backslash, backslash] (by decide), .punct ',' (by decide),
      .string ['/', '/'] (by decide), .punct ']' (by decide)]
  sep := by decide

/-- Two block comments are one, and a string that a backslash ends goes on. -/
theorem comments_fail :
    (stripComments exTwo.render = ['[', '1', ']'] ∧
      exTwo.original = ['[', '1', ',', '2', ']']) ∧
    (exBackslash.original = exBackslash.render ∧
      stripComments exBackslash.render = ['[', quote, backslash, backslash, quote, ',', quote]) ∧
    ¬ ∀ t : Commented,
      jsonParse some (stripComments t.render) = jsonParse some t.original := by
  refine ⟨by decide +kernel, by decide +kernel, fun h => ?_⟩
  have hne : jsonParse some (stripComments exTwo.render) ≠ jsonParse some exTwo.original := by
    decide +kernel
  exact hne (h exTwo)

end TinyState.Js.StripComments
