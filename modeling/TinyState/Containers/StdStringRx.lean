import Mathlib.Algebra.Order.Ring.Int
import TinyState.Lib.Rounds
import Mathlib.Data.List.DropRight

/-!
# stdString: substitution

`rx` puts captures into a replacement text and then looks at the text it has made as at one that
it was given. The global form goes on behind each match, without leaving anything out behind an
empty one.
-/

namespace TinyState.StdRx

open Rounds (Returns)

-- ---------------------------------------------------------------------------
-- Model
-- ---------------------------------------------------------------------------

/-- A string is the list of its characters. -/
abbrev Text := List Char

def backslash : Char := Char.ofNat 92
def opening : Char := Char.ofNat 123
def closing : Char := Char.ofNat 125

def isDigit (c : Char) : Bool := '0' ≤ c && c ≤ '9'

/-- What `regexec` returns: where the match is, and where its groups are if they have taken
part. -/
structure Match where
  so : Nat
  eo : Nat
  groups : List (Option (Nat × Nat))
  deriving DecidableEq, Repr

/-- `stdString(str, sp, ep)`. -/
def substr (str : Text) (sp ep : Nat) : Text := (str.take ep).drop sp

/-- `values` of `rxWork`, but for what is behind the match. A group that has not taken part is at
-1, and nothing is copied. -/
def Match.values (m : Match) (str : Text) : List Text :=
  substr str m.so m.eo :: m.groups.map fun
    | none => []
    | some (so, eo) => substr str so eo

/-- `rxVar`: where it returns `thNULL`, `add` adds nothing. -/
def rxVar (values : List Text) (no : Int) : Text :=
  if no < 0 then [] else values.getD no.toNat []

def number (base : Nat) (digits : Text) : Nat :=
  digits.foldl (fun n c => base * n + (c.toNat - '0'.toNat)) 0

/-- `get_int`, and the conversion to `int` for `rxVar`: `%lli` takes a number with a leading zero
for an octal one, and ends at the greatest number there is. -/
def get_int (digits : Text) : Int :=
  let n := if digits.head? == some '0' then number 8 (digits.takeWhile (· < '8'))
    else number 10 digits
  (min n (2 ^ 63 - 1) : Int).bmod (2 ^ 32)

/-- `[0-9]+`, and what is behind. -/
def digitsAt (l : Text) : Option (Text × Text) :=
  if l.takeWhile isDigit = [] then none else some (l.takeWhile isDigit, l.dropWhile isDigit)

/-- `\{([0-9]+)\}`, and what is behind. -/
def bracedAt : Text → Option (Text × Text)
  | [] => none
  | c :: l =>
    if c ≠ opening then none
    else match digitsAt l with
      | some (digits, c :: rest) => if c = closing then some (digits, rest) else none
      | _ => none

/-- `\$([0-9]+)|\$\{([0-9]+)\}` at the beginning of a text. -/
def sequenceAt : Text → Option (Text × Text)
  | [] => none
  | c :: l => if c ≠ '$' then none else (digitsAt l).or (bracedAt l)

/-- The leftmost one: what is before it, the digits and what is behind. -/
def firstSequence : Text → Option (Text × Text × Text)
  | [] => none
  | c :: l =>
    match sequenceAt (c :: l) with
    | some (digits, rest) => some ([], digits, rest)
    | none => (firstSequence l).map fun s => (c :: s.1, s.2)

/-- `[^\$]`: in brackets the backslash is a character like others. -/
def ordinary (c : Char) : Bool := c != backslash && c != '$'

theorem digitsAt_le {l digits rest : Text} (h : digitsAt l = some (digits, rest)) :
    rest.length ≤ l.length := by
  rw [digitsAt] at h
  split at h
  · cases h
  · cases h
    exact List.length_dropWhile_le isDigit l

theorem bracedAt_le {l digits rest : Text} (h : bracedAt l = some (digits, rest)) :
    rest.length ≤ l.length := by
  cases l with
  | nil => cases h
  | cons c l =>
    simp only [bracedAt] at h
    split at h
    · cases h
    · split at h
      · next hd =>
        split at h
        · cases h
          have hle := digitsAt_le hd
          simp only [List.length_cons] at hle ⊢
          exact Nat.le_of_lt (Nat.lt_of_lt_of_le hle (Nat.le_succ _))
        · cases h
      · cases h

theorem sequenceAt_lt {l digits rest : Text} (h : sequenceAt l = some (digits, rest)) :
    rest.length < l.length := by
  cases l with
  | nil => cases h
  | cons c l =>
    simp only [sequenceAt] at h
    split at h
    · cases h
    · rcases Option.or_eq_some_iff.mp h with h | ⟨-, h⟩
      · exact Nat.lt_succ_of_le (digitsAt_le h)
      · exact Nat.lt_succ_of_le (bracedAt_le h)

theorem firstSequence_lt {l before digits rest : Text}
    (h : firstSequence l = some (before, digits, rest)) : rest.length < l.length := by
  induction l generalizing before with
  | nil => cases h
  | cons c l ih =>
    simp only [firstSequence] at h
    split at h
    · next hs =>
      cases h
      exact sequenceAt_lt hs
    · obtain ⟨⟨before, s⟩, hs, heq⟩ := Option.map_eq_some_iff.mp h
      cases heq
      exact Nat.lt_succ_of_lt (ih hs)

/-- The loop that puts captures into `rstr`: `([^\$]*)` begins behind the last character before
a sequence that is not ordinary, and what is before it is left out. -/
def expand (values : List Text) (rstr : Text) : Text :=
  match h : firstSequence rstr with
  | none => rstr
  | some (before, digits, rest) =>
    have : rest.length < rstr.length := firstSequence_lt h
    before.rtakeWhile ordinary ++ rxVar values (get_int digits) ++ expand values rest
termination_by rstr.length

/-- `rx("sx", re, rstr)`, with what `regexec` finds for `re`, in so many calls. -/
def sx (find : Text → Option Match) (str : Text) : Nat → Text → Option Text
  | 0, _ => none
  | fuel + 1, rstr =>
    match find str with
    | none => some str
    | some m =>
      if firstSequence rstr = none then some (str.take m.so ++ rstr ++ str.drop m.eo)
      else sx find str fuel (expand (m.values str) rstr)

/-- How the pattern is changed once a match has been found: an 'a' is put before a '^' that is
the first character or has '|' or '(' before it, and no line begins there any more. -/
def unanchorFrom (prev : Char) : Text → Text
  | [] => []
  | c :: l =>
    if c = '^' ∧ (prev = '|' ∨ prev = '(') then 'a' :: c :: unanchorFrom c l
    else c :: unanchorFrom c l

def unanchor (pattern : Text) : Text := unanchorFrom '|' pattern

/-- `regexec` gets the pattern, whether the text does not begin a line, and the text. -/
abbrev Regexec := Text → Bool → Text → Option Match

/-- The loop of `rx("sgx", re, rstr)`. -/
def sgxLoop (regexec : Regexec) (rstr : Text) :
    Nat → (re : Text) → (pc_flag : Bool) → (inp res : Text) → Option Text
  | 0, _, _, _, _ => none
  | fuel + 1, re, pc_flag, inp, res =>
    match regexec re false inp with
    | none => some (res ++ inp)
    | some m =>
      (sx (regexec re false) (substr inp m.so m.eo) fuel rstr).bind fun rep =>
        if inp.drop m.eo = [] then some (res ++ inp.take m.so ++ rep)
        else sgxLoop regexec rstr fuel (if pc_flag then re else unanchor re) true
          (inp.drop m.eo) (res ++ inp.take m.so ++ rep)

def sgx (regexec : Regexec) (re str rstr : Text) (fuel : Nat) : Option Text :=
  sgxLoop regexec rstr fuel re false str []

-- ---------------------------------------------------------------------------
-- What a substitution is
-- ---------------------------------------------------------------------------

/-- Each sequence once, by the capture that its decimal number says. -/
def literal (values : List Text) (rstr : Text) : Text :=
  match h : firstSequence rstr with
  | none => rstr
  | some (before, digits, rest) =>
    have : rest.length < rstr.length := firstSequence_lt h
    before ++ values.getD (number 10 digits) [] ++ literal values rest
termination_by rstr.length

def substituteFirst (regexec : Regexec) (re str rstr : Text) : Text :=
  match regexec re false str with
  | none => str
  | some m => str.take m.so ++ literal (m.values str) rstr ++ str.drop m.eo

theorem drop_lt {l : Text} {k j : Nat} (h : l.drop k ≠ []) (hj : j ≠ 0) :
    (l.drop j).length < l.length := by
  have hlt := List.drop_eq_nil_iff.not.mp h
  rw [List.length_drop]
  omega

/-- The successive matches. Behind the first no line begins, and behind an empty match at the
beginning of a text one character is passed over. -/
def substituteAll (regexec : Regexec) (re rstr : Text) (notbol : Bool) (str : Text) : Text :=
  match regexec re notbol str with
  | none => str
  | some m =>
    str.take m.so ++ literal (m.values str) rstr ++
      if h : str.drop m.eo = [] then []
      else if h0 : m.eo = 0 then
        have : (str.drop 1).length < str.length := drop_lt h Nat.one_ne_zero
        str.take 1 ++ substituteAll regexec re rstr true (str.drop 1)
      else
        have : (str.drop m.eo).length < str.length := drop_lt h h0
        substituteAll regexec re rstr true (str.drop m.eo)
termination_by str.length

/-- Nothing that is not ordinary is before a sequence, and each number is read as it is. -/
def clean (rstr : Text) : Bool :=
  match h : firstSequence rstr with
  | none => true
  | some (before, digits, rest) =>
    have : rest.length < rstr.length := firstSequence_lt h
    before.all ordinary && get_int digits == number 10 digits && clean rest
termination_by rstr.length

/-- The matched text alone is matched as a whole, with the same captures. -/
def alone (regexec : Regexec) (re : Text) (values : List Text) : Bool :=
  match regexec re false (values.headD []) with
  | none => false
  | some m =>
    m.so == 0 && m.eo == (values.headD []).length && m.values (values.headD []) == values

/-- The same match with `k` characters before the text. -/
def Match.shift (k : Nat) (m : Match) : Match :=
  ⟨m.so + k, m.eo + k, m.groups.map (Option.map fun g => (g.1 + k, g.2 + k))⟩

/-- `substituteAll` with the conditions under which the code gets through: each match is found
again in the matched text alone, the text with its captures put in has no sequence, an empty
match at the beginning of a text is the first, and the changed pattern finds behind it, and in
the rests, what the pattern finds where no line begins. -/
def steady (regexec : Regexec) (re rstr : Text) (notbol : Bool) (str : Text) : Bool :=
  match regexec re notbol str with
  | none => true
  | some m =>
    alone regexec (if notbol then unanchor re else re) (m.values str) &&
      (firstSequence (literal (m.values str) rstr)).isNone &&
      if h : str.drop m.eo = [] then true
      else if h0 : m.eo = 0 then
        have : (str.drop 1).length < str.length := drop_lt h Nat.one_ne_zero
        !notbol &&
          regexec (unanchor re) false str ==
            (regexec re true (str.drop 1)).map (Match.shift 1) &&
          steady regexec re rstr true (str.drop 1)
      else
        have : (str.drop m.eo).length < str.length := drop_lt h h0
        regexec (unanchor re) false (str.drop m.eo) == regexec re true (str.drop m.eo) &&
          steady regexec re rstr true (str.drop m.eo)
termination_by str.length

-- ---------------------------------------------------------------------------
-- Texts with sequences
-- ---------------------------------------------------------------------------

variable {regexec : Regexec} {re str rstr : Text} {values : List Text} {m : Match}

theorem expand_none (h : firstSequence rstr = none) : expand values rstr = rstr := by
  rw [expand]
  split
  · rfl
  · simp_all

theorem expand_some {before digits rest : Text}
    (h : firstSequence rstr = some (before, digits, rest)) : expand values rstr =
      before.rtakeWhile ordinary ++ rxVar values (get_int digits) ++ expand values rest := by
  rw [expand]
  split
  · simp_all
  · simp_all

theorem literal_none (h : firstSequence rstr = none) : literal values rstr = rstr := by
  rw [literal]
  split
  · rfl
  · simp_all

theorem literal_some {before digits rest : Text}
    (h : firstSequence rstr = some (before, digits, rest)) : literal values rstr =
      before ++ values.getD (number 10 digits) [] ++ literal values rest := by
  rw [literal]
  split
  · simp_all
  · simp_all

theorem clean_none (h : firstSequence rstr = none) : clean rstr = true := by
  rw [clean]
  split
  · rfl
  · simp_all

theorem clean_some {before digits rest : Text}
    (h : firstSequence rstr = some (before, digits, rest)) : clean rstr =
      (before.all ordinary && get_int digits == number 10 digits && clean rest) := by
  rw [clean]
  split
  · simp_all
  · simp_all

theorem rxVar_natCast (values : List Text) (n : Nat) : rxVar values n = values.getD n [] := by
  simp [rxVar, Int.not_lt.mpr (Int.natCast_nonneg n)]

/-- The captures are put in as they should be where nothing is left out and no number misread. -/
theorem expand_eq_literal (h : clean rstr) : expand values rstr = literal values rstr := by
  fun_induction literal values rstr with
  | case1 rstr hs => exact expand_none hs
  | case2 rstr before digits rest hs hlt ih =>
    simp only [clean_some hs, Bool.and_eq_true, beq_iff_eq] at h
    have hb : before.rtakeWhile ordinary = before :=
      List.rtakeWhile_eq_self_iff.mpr (List.all_eq_true.mp h.1.1)
    rw [expand_some hs, hb, h.1.2, rxVar_natCast, ih h.2]

-- ---------------------------------------------------------------------------
-- One match
-- ---------------------------------------------------------------------------

section Sx

variable {find : Text → Option Match}

theorem sx_none (h : find str = none) (rstr : Text) :
    Returns (fun fuel => sx find str fuel rstr) str := by
  refine Returns.done rfl fun fuel => ?_
  simp [sx, h]

theorem sx_returns (hm : find str = some m) (hc : clean rstr)
    (hl : firstSequence (literal (m.values str) rstr) = none) :
    Returns (fun fuel => sx find str fuel rstr)
      (str.take m.so ++ literal (m.values str) rstr ++ str.drop m.eo) := by
  by_cases hs : firstSequence rstr = none
  · rw [literal_none hs]
    refine Returns.done rfl fun fuel => ?_
    simp [sx, hm, hs]
  · have hnext : Returns (fun fuel => sx find str fuel (literal (m.values str) rstr))
        (str.take m.so ++ literal (m.values str) rstr ++ str.drop m.eo) := by
      refine Returns.done rfl fun fuel => ?_
      simp [sx, hm, hl]
    refine hnext.step rfl fun fuel => ?_
    simp [sx, hm, hs, expand_eq_literal hc]

/-- What is returned has a text without sequences in the place of the match. -/
theorem sx_result (hm : find str = some m) {fuel : Nat} {res : Text}
    (h : sx find str fuel rstr = some res) :
    ∃ r, firstSequence r = none ∧ res = str.take m.so ++ r ++ str.drop m.eo := by
  induction fuel generalizing rstr with
  | zero => cases h
  | succ fuel ih =>
    simp only [sx, hm] at h
    split at h
    · next hs =>
      cases h
      exact ⟨rstr, hs, rfl⟩
    · exact ih h

end Sx

theorem substituteFirst_some (hm : regexec re false str = some m) (rstr : Text) :
    substituteFirst regexec re str rstr =
      str.take m.so ++ literal (m.values str) rstr ++ str.drop m.eo := by
  rw [substituteFirst, hm]

/-- The first form, for a text that is read as it is: it returns what it should exactly when the
captures bring no sequences in. -/
theorem sx_iff (hc : clean rstr) :
    Returns (fun fuel => sx (regexec re false) str fuel rstr)
        (substituteFirst regexec re str rstr) ↔
      ∀ m, regexec re false str = some m →
        firstSequence (literal (m.values str) rstr) = none := by
  constructor
  · intro h m hm
    obtain ⟨fuel, hf⟩ := h.exists
    obtain ⟨r, hr, heq⟩ := sx_result hm hf
    rw [substituteFirst_some hm] at heq
    have hl := List.append_cancel_left (List.append_cancel_right heq)
    rw [hl, hr]
  · intro h
    rcases hm : regexec re false str with - | m
    · have hs : substituteFirst regexec re str rstr = str := by rw [substituteFirst, hm]
      rw [hs]
      exact sx_none hm rstr
    · rw [substituteFirst_some hm]
      exact sx_returns hm hc (h m hm)

-- ---------------------------------------------------------------------------
-- All matches
-- ---------------------------------------------------------------------------

theorem substr_append (front str : Text) (sp ep : Nat) :
    substr (front ++ str) (sp + front.length) (ep + front.length) = substr str sp ep := by
  simp [substr, Nat.add_comm _ front.length, List.take_append, List.drop_append]

theorem shift_values (front str : Text) (m : Match) :
    (m.shift front.length).values (front ++ str) = m.values str := by
  simp only [Match.values, Match.shift, substr_append, List.map_map]
  congr 1
  refine List.map_congr_left fun g _ => ?_
  cases g with
  | none => rfl
  | some g => exact substr_append front str g.1 g.2

/-- The matched text alone is replaced as a whole. -/
theorem alone_returns (ha : alone regexec re values) (hc : clean rstr)
    (hl : firstSequence (literal values rstr) = none) :
    Returns (fun fuel => sx (regexec re false) (values.headD []) fuel rstr)
      (literal values rstr) := by
  rw [alone] at ha
  split at ha
  · cases ha
  · next m hm =>
    simp only [Bool.and_eq_true, beq_iff_eq] at ha
    obtain ⟨⟨hso, heo⟩, hv⟩ := ha
    have h := sx_returns hm hc (hv.symm ▸ hl)
    rw [hv, hso, heo, List.take_zero, List.drop_length, List.nil_append, List.append_nil] at h
    exact h

/-- The last round of the loop. -/
theorem sgxLoop_last (flag : Bool) (res : Text) {inp rep : Text}
    (hm : regexec re false inp = some m)
    (hrep : Returns (fun fuel => sx (regexec re false) (substr inp m.so m.eo) fuel rstr) rep)
    (hend : inp.drop m.eo = []) :
    Returns (fun fuel => sgxLoop regexec rstr fuel re flag inp res)
      (res ++ inp.take m.so ++ rep) := by
  refine (hrep.map fun rep => res ++ inp.take m.so ++ rep).step rfl fun fuel => ?_
  simp only [sgxLoop, hm, hend, if_true, Option.map_eq_bind]
  rfl

/-- A round that others come behind. -/
theorem sgxLoop_round {flag : Bool} {inp res rep r : Text} (hm : regexec re false inp = some m)
    (hrep : Returns (fun fuel => sx (regexec re false) (substr inp m.so m.eo) fuel rstr) rep)
    (hrest : inp.drop m.eo ≠ [])
    (hgo : Returns (fun fuel => sgxLoop regexec rstr fuel
      (if flag then re else unanchor re) true (inp.drop m.eo) (res ++ inp.take m.so ++ rep)) r) :
    Returns (fun fuel => sgxLoop regexec rstr fuel re flag inp res) r := by
  have hboth := hrep.bind (k := fun rep fuel => sgxLoop regexec rstr fuel
    (if flag then re else unanchor re) true (inp.drop m.eo) (res ++ inp.take m.so ++ rep)) hgo
  refine hboth.step rfl fun fuel => ?_
  simp only [sgxLoop, hm, hrest, if_false]

theorem sgxLoop_none {flag : Bool} {inp : Text} (hm : regexec re false inp = none) (res : Text) :
    Returns (fun fuel => sgxLoop regexec rstr fuel re flag inp res) (res ++ inp) := by
  refine Returns.done rfl fun fuel => ?_
  simp [sgxLoop, hm]

theorem steady_last {notbol : Bool} (hm : regexec re notbol str = some m)
    (hend : str.drop m.eo = []) : steady regexec re rstr notbol str =
      (alone regexec (if notbol then unanchor re else re) (m.values str) &&
        (firstSequence (literal (m.values str) rstr)).isNone) := by
  rw [steady, hm]
  simp [hend]

theorem steady_round {notbol : Bool} (hm : regexec re notbol str = some m)
    (hrest : str.drop m.eo ≠ []) (h0 : m.eo ≠ 0) : steady regexec re rstr notbol str =
      (alone regexec (if notbol then unanchor re else re) (m.values str) &&
        (firstSequence (literal (m.values str) rstr)).isNone &&
        (regexec (unanchor re) false (str.drop m.eo) == regexec re true (str.drop m.eo) &&
          steady regexec re rstr true (str.drop m.eo))) := by
  rw [steady, hm]
  simp only [dif_neg hrest, dif_neg h0]

theorem steady_empty {notbol : Bool} (hm : regexec re notbol str = some m)
    (hrest : str.drop m.eo ≠ []) (h0 : m.eo = 0) : steady regexec re rstr notbol str =
      (alone regexec (if notbol then unanchor re else re) (m.values str) &&
        (firstSequence (literal (m.values str) rstr)).isNone &&
        (!notbol &&
          regexec (unanchor re) false str ==
            (regexec re true (str.drop 1)).map (Match.shift 1) &&
          steady regexec re rstr true (str.drop 1))) := by
  rw [steady, hm]
  simp only [dif_neg hrest, dif_pos h0]

theorem substituteAll_none {notbol : Bool} (hm : regexec re notbol str = none) :
    substituteAll regexec re rstr notbol str = str := by
  rw [substituteAll, hm]

theorem substituteAll_last {notbol : Bool} (hm : regexec re notbol str = some m)
    (hend : str.drop m.eo = []) : substituteAll regexec re rstr notbol str =
      str.take m.so ++ literal (m.values str) rstr := by
  rw [substituteAll, hm]
  simp [hend]

theorem substituteAll_round {notbol : Bool} (hm : regexec re notbol str = some m)
    (hrest : str.drop m.eo ≠ []) (h0 : m.eo ≠ 0) : substituteAll regexec re rstr notbol str =
      str.take m.so ++ literal (m.values str) rstr ++
        substituteAll regexec re rstr true (str.drop m.eo) := by
  rw [substituteAll, hm]
  simp only [dif_neg hrest, dif_neg h0]

theorem substituteAll_empty {notbol : Bool} (hm : regexec re notbol str = some m)
    (hrest : str.drop m.eo ≠ []) (h0 : m.eo = 0) : substituteAll regexec re rstr notbol str =
      str.take m.so ++ literal (m.values str) rstr ++
        (str.take 1 ++ substituteAll regexec re rstr true (str.drop 1)) := by
  rw [substituteAll, hm]
  simp only [dif_neg hrest, dif_pos h0]

theorem shift_zero (m : Match) : m.shift 0 = m := by
  have h : (Option.map fun g : Nat × Nat => (g.1 + 0, g.2 + 0)) = id := by
    funext g
    cases g <;> rfl
  rw [Match.shift, h, List.map_id]
  rfl

/-- The loop behind the first match, where it is in a text with some characters before it that
the pattern does not look at. -/
theorem sgxLoop_later (front : Text) (hc : clean rstr) (hs : steady regexec re rstr true str)
    (hf : regexec (unanchor re) false (front ++ str) =
      (regexec re true str).map (Match.shift front.length)) (res : Text) :
    Returns (fun fuel => sgxLoop regexec rstr fuel (unanchor re) true (front ++ str) res)
      (res ++ front ++ substituteAll regexec re rstr true str) := by
  induction hn : str.length using Nat.strong_induction_on generalizing front str res with
  | _ n ih =>
  rcases hm : regexec re true str with - | m
  · rw [hm] at hf
    rw [substituteAll_none hm, List.append_assoc]
    exact sgxLoop_none hf res
  · rw [hm] at hf
    have htake : (front ++ str).take (m.so + front.length) = front ++ str.take m.so := by
      rw [Nat.add_comm, List.take_length_add_append]
    have hdrop : (front ++ str).drop (m.eo + front.length) = str.drop m.eo := by
      rw [Nat.add_comm, List.drop_length_add_append]
    have hrep (ha : alone regexec (unanchor re) (m.values str))
        (hl : firstSequence (literal (m.values str) rstr) = none) :
        Returns (fun fuel => sx (regexec (unanchor re) false)
          (substr (front ++ str) (m.so + front.length) (m.eo + front.length)) fuel rstr)
          (literal (m.values str) rstr) := by
      rw [substr_append]
      exact alone_returns ha hc hl
    by_cases hend : str.drop m.eo = []
    · rw [steady_last hm hend, Bool.and_eq_true, Option.isNone_iff_eq_none] at hs
      have h := sgxLoop_last true res hf (hrep hs.1 hs.2) (hdrop.trans hend)
      rw [substituteAll_last hm hend]
      simpa [Match.shift, htake] using h
    · by_cases h0 : m.eo = 0
      · rw [steady_empty hm hend h0] at hs
        simp at hs
      · rw [steady_round hm hend h0] at hs
        simp only [Bool.and_eq_true, Option.isNone_iff_eq_none, beq_iff_eq, if_true] at hs
        obtain ⟨⟨ha, hl⟩, hfind, hs⟩ := hs
        have hlt := drop_lt hend h0
        have hnext := ih _ (hn ▸ hlt) [] hs (by simpa [funext shift_zero] using hfind)
          (res ++ (front ++ str.take m.so) ++ literal (m.values str) rstr) rfl
        rw [substituteAll_round hm hend h0]
        refine sgxLoop_round hf (hrep ha hl) (by simpa [Match.shift, hdrop] using hend) ?_
        simpa [Match.shift, htake, hdrop] using hnext

/-- The loop from its beginning. -/
theorem sgx_returns (hc : clean rstr) (hs : steady regexec re rstr false str) :
    Returns (sgx regexec re str rstr) (substituteAll regexec re rstr false str) := by
  rcases hm : regexec re false str with - | m
  · rw [substituteAll_none hm]
    exact sgxLoop_none hm []
  · by_cases hend : str.drop m.eo = []
    · rw [steady_last hm hend] at hs
      simp only [Bool.and_eq_true, Option.isNone_iff_eq_none] at hs
      rw [substituteAll_last hm hend]
      exact sgxLoop_last false [] hm (alone_returns hs.1 hc hs.2) hend
    · by_cases h0 : m.eo = 0
      · rw [steady_empty hm hend h0] at hs
        simp only [Bool.and_eq_true, Option.isNone_iff_eq_none, beq_iff_eq] at hs
        obtain ⟨⟨ha, hl⟩, ⟨-, hfind⟩, hs⟩ := hs
        rw [substituteAll_empty hm hend h0]
        refine sgxLoop_round hm (alone_returns ha hc hl) hend ?_
        rw [h0, List.drop_zero] at hend ⊢
        obtain ⟨c, l, rfl⟩ := List.exists_cons_of_ne_nil hend
        have h := sgxLoop_later [c] hc hs hfind
          ((c :: l).take m.so ++ literal (m.values (c :: l)) rstr)
        simpa using h
      · rw [steady_round hm hend h0] at hs
        simp only [Bool.and_eq_true, Option.isNone_iff_eq_none, beq_iff_eq] at hs
        obtain ⟨⟨ha, hl⟩, hfind, hs⟩ := hs
        rw [substituteAll_round hm hend h0]
        refine sgxLoop_round hm (alone_returns ha hc hl) hend ?_
        have h := sgxLoop_later [] hc hs (by simpa [funext shift_zero] using hfind)
          (str.take m.so ++ literal (m.values str) rstr)
        simpa using h

-- ---------------------------------------------------------------------------
-- Empty matches
-- ---------------------------------------------------------------------------

/-- The loop does not end once there is an empty match at the beginning of what is left. -/
theorem sgxLoop_stuck {inp : Text} (hm : regexec re false inp = some m) (h0 : m.eo = 0)
    (hne : inp ≠ []) (fuel : Nat) (res : Text) :
    sgxLoop regexec rstr fuel re true inp res = none := by
  induction fuel generalizing res with
  | zero => rfl
  | succ fuel ih =>
    simp only [sgxLoop, hm, h0, List.drop_zero, hne, if_true, if_false, ih]
    exact Option.bind_fun_none _

/-- A text that stays as it is when captures are put in is looked at for ever. -/
theorem sx_stuck {find : Text → Option Match} (hm : find str = some m)
    (hs : firstSequence rstr ≠ none) (he : expand (m.values str) rstr = rstr) (fuel : Nat) :
    sx find str fuel rstr = none := by
  induction fuel with
  | zero => rfl
  | succ fuel ih => simp only [sx, hm, hs, if_false, he, ih]

theorem sgx_stuck (hm : regexec re false str = some m) (h0 : m.eo = 0)
    (hm' : regexec (unanchor re) false str = some m) (hne : str ≠ []) (fuel : Nat) :
    sgx regexec re str rstr fuel = none := by
  cases fuel with
  | zero => rfl
  | succ fuel =>
    have hstuck : ∀ res, sgxLoop regexec rstr fuel (unanchor re) true str res = none :=
      sgxLoop_stuck hm' h0 hne fuel
    simp only [sgx, sgxLoop, hm, h0, List.drop_zero, hne, if_false, Bool.false_eq_true, hstuck]
    exact Option.bind_fun_none _

-- ---------------------------------------------------------------------------
-- Substitution
-- ---------------------------------------------------------------------------

-- Matchers for the patterns below: `(b)`, `(.*)` and `x*`.
def exB : Regexec := fun _ _ str =>
  let k := str.idxOf 'b'
  if k < str.length then some ⟨k, k + 1, [some (k, k + 1)]⟩ else none

def exAll : Regexec := fun _ _ str => some ⟨0, str.length, [some (0, str.length)]⟩

def exRun : Regexec := fun _ _ str => some ⟨0, (str.takeWhile (· == 'x')).length, []⟩

end TinyState.StdRx
