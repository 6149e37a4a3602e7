import Mathlib.Data.List.DropRight
import Mathlib.Data.List.Induction

/-!
# Relative references of tspig2

`target_filepath` takes `./` and `../` from the front of a reference. The expression that is to
take a directory from the other path never matches, so that nothing is left of that path once
there is a `../`.
-/

namespace TinyState.Tspig2

-- ---------------------------------------------------------------------------
-- Model
-- ---------------------------------------------------------------------------

/-- A path is the list of its characters. -/
abbrev Path := List Char

/-- What is no condition for Perl. -/
def falsy (s : Path) : Bool := s == [] || s == ['0']

/-- `s/\/[^\/]+$//` -/
def dropFile (access_file : Path) : Option Path :=
  if access_file.rtakeWhile (· ≠ '/') = [] ∨ access_file.rdropWhile (· ≠ '/') = [] then none
  else some (access_file.rdropWhile (· ≠ '/')).dropLast

/-- `s/\[^\/]+$//`: a bracket, the beginning of the text, a slash and closing brackets. -/
def dropDirectory (access_file : Path) : Option Path :=
  ((List.range access_file.length).find? fun i =>
    access_file[i]? == some '[' && i + 1 == 0 && access_file[i + 1]? == some '/' &&
      access_file.drop (i + 2) != [] && (access_file.drop (i + 2)).all (· == ']')).map
    access_file.take

/-- The loop over the front of the reference: what is left of both. -/
def strip : (access_file target_file : Path) → Path × Path
  | access_file, '.' :: '.' :: '/' :: target_file =>
    if falsy access_file then (access_file, '.' :: '.' :: '/' :: target_file)
    else strip ((dropDirectory access_file).getD []) target_file
  | access_file, '.' :: '/' :: target_file =>
    if falsy access_file then (access_file, '.' :: '/' :: target_file)
    else strip access_file target_file
  | access_file, target_file => (access_file, target_file)

def target_filepath (base_orgdir access_file target_file : Path) : Path :=
  if target_file.head? = some '/' then base_orgdir ++ target_file
  else
    let (access_file, target_file) := strip ((dropFile access_file).getD []) target_file
    if falsy access_file then target_file else access_file ++ '/' :: target_file

-- ---------------------------------------------------------------------------
-- The usual rule
-- ---------------------------------------------------------------------------

/-- Names of directories and files. -/
def Name (d : Path) : Prop := d ≠ [] ∧ '/' ∉ d

instance (d : Path) : Decidable (Name d) := inferInstanceAs (Decidable (_ ∧ _))

def join : List Path → Path
  | [] => []
  | [d] => d
  | d :: ds => d ++ '/' :: join ds

structure Page where
  absolute : Bool
  dirs : List Path
  file : Path
  dirs_ne : dirs ≠ []
  dirs_names : ∀ d ∈ dirs, Name d
  file_name : Name file

def dirText (absolute : Bool) (dirs : List Path) : Path :=
  (if absolute then ['/'] else []) ++ join dirs

def Page.text (p : Page) : Path := dirText p.absolute p.dirs ++ '/' :: p.file

inductive Step
  | here
  | up
  deriving DecidableEq, Repr

def Step.name : Step → Path
  | .here => ['.']
  | .up => ['.', '.']

/-- A relative reference: `./` and `../`, and a path that begins with neither. -/
structure Reference where
  steps : List Step
  rest : Path
  relative : rest.head? ≠ some '/'
  here_ne : ¬ ['.', '/'] <+: rest
  up_ne : ¬ ['.', '.', '/'] <+: rest

/-- Each name with a slash behind it. -/
def slashed (names : List Path) : Path := names.flatMap (· ++ ['/'])

def Reference.text (r : Reference) : Path := slashed (r.steps.map Step.name) ++ r.rest

/-- The page's file is dropped, one directory for each `../`, and the rest appended. -/
def named (p : Page) (r : Reference) : Path :=
  dirText p.absolute (p.dirs.take (p.dirs.length - r.steps.count .up)) ++ '/' :: r.rest

/-- What is behind the first `../`. -/
def behindUp : List Step → Option (List Step)
  | [] => none
  | .here :: steps => behindUp steps
  | .up :: steps => some steps

/-- There is no `../`, and the only directory is not called `0`; or what is behind the first
`../` is spelled as the directories that should be left. -/
def Spelled (p : Page) (r : Reference) : Prop :=
  match behindUp r.steps with
  | none => ¬ (p.absolute = false ∧ p.dirs = [['0']])
  | some steps => p.absolute = false ∧
      steps.map Step.name = p.dirs.take (p.dirs.length - r.steps.count .up)

variable {p : Page} {r : Reference} {base access target d file : Path} {ds es : List Path}
  {steps later : List Step} {absolute : Bool}

-- ---------------------------------------------------------------------------
-- Texts of paths
-- ---------------------------------------------------------------------------

theorem join_slash (h : ds ≠ []) : join ds ++ ['/'] = slashed ds := by
  induction ds with
  | nil => exact absurd rfl h
  | cons d ds ih =>
    cases ds with
    | nil => simp [join, slashed]
    | cons e ds =>
      have hr := ih (List.cons_ne_nil _ _)
      simp only [slashed, List.flatMap_cons] at hr ⊢
      rw [← hr]
      simp [join]

theorem append_slash_inj {a b : Path} (ha : '/' ∉ d) (hb : '/' ∉ file)
    (h : d ++ '/' :: a = file ++ '/' :: b) : d = file ∧ a = b := by
  induction d generalizing file with
  | nil =>
    cases file with
    | nil => exact ⟨rfl, (List.cons.inj h).2⟩
    | cons c file =>
      obtain ⟨rfl, -⟩ := List.cons.inj h
      exact absurd List.mem_cons_self hb
  | cons c d ih =>
    cases file with
    | nil =>
      obtain ⟨rfl, -⟩ := List.cons.inj h
      exact absurd List.mem_cons_self ha
    | cons c' file =>
      obtain ⟨rfl, htail⟩ := List.cons.inj h
      obtain ⟨rfl, rfl⟩ := ih (fun hm => ha (List.mem_cons_of_mem _ hm))
        (fun hm => hb (List.mem_cons_of_mem _ hm)) htail
      exact ⟨rfl, rfl⟩

/-- Names are known from their text. -/
theorem slashed_inj (hd : ∀ d ∈ ds, '/' ∉ d) (he : ∀ e ∈ es, '/' ∉ e)
    (h : slashed ds = slashed es) : ds = es := by
  induction ds generalizing es with
  | nil =>
    cases es with
    | nil => rfl
    | cons e es => simp [slashed] at h
  | cons d ds ih =>
    cases es with
    | nil => simp [slashed] at h
    | cons e es =>
      simp only [slashed, List.flatMap_cons, List.append_assoc, List.singleton_append] at h
      obtain ⟨rfl, htail⟩ := append_slash_inj (hd d List.mem_cons_self) (he e List.mem_cons_self) h
      rw [ih (fun x hx => hd x (List.mem_cons_of_mem _ hx))
        (fun x hx => he x (List.mem_cons_of_mem _ hx)) htail]

theorem join_ne_nil (h : ds ≠ []) (hn : ∀ d ∈ ds, Name d) : join ds ≠ [] := by
  match ds, h with
  | [d], _ => exact (hn d List.mem_cons_self).1
  | d :: e :: ds, _ => simp [join]

/-- The path of the directories is false only where it is `0`. -/
theorem falsy_dirText (h : ds ≠ []) (hn : ∀ d ∈ ds, Name d) :
    falsy (dirText absolute ds) = true ↔ absolute = false ∧ ds = [['0']] := by
  have hne := join_ne_nil h hn
  cases absolute with
  | true => simp [dirText, falsy]
  | false =>
    simp only [dirText, falsy]
    match ds, h with
    | [d], _ => simp_all [join]
    | d :: e :: ds, _ =>
      have hd := (hn d List.mem_cons_self).1
      obtain ⟨c, d, rfl⟩ := List.exists_cons_of_ne_nil hd
      simp [join]

/-- The last name of a path is taken. -/
theorem dropFile_text (h : Name file) (d : Path) : dropFile (d ++ '/' :: file) = some d := by
  have hall : ∀ c ∈ file, decide (c ≠ '/') = true := by
    intro c hc
    simp only [decide_eq_true_eq]
    rintro rfl
    exact h.2 hc
  have htake : (d ++ '/' :: file).rtakeWhile (· ≠ '/') = file := by
    rw [List.rtakeWhile, List.reverse_append, List.reverse_cons, List.append_assoc,
      List.takeWhile_append_of_pos (by simpa using hall)]
    simp
  have hdrop : (d ++ '/' :: file).rdropWhile (· ≠ '/') = d ++ ['/'] := by
    rw [List.rdropWhile, List.reverse_append, List.reverse_cons, List.append_assoc,
      List.dropWhile_append_of_pos (by simpa using hall)]
    simp
  rw [dropFile, htake, hdrop]
  simp [h.1]

-- ---------------------------------------------------------------------------
-- The loop
-- ---------------------------------------------------------------------------

/-- Behind a bracket there is no beginning of a text. -/
theorem dropDirectory_none (access : Path) : dropDirectory access = none := by
  simp [dropDirectory]

theorem strip_falsy (h : falsy access = true) (target : Path) :
    strip access target = (access, target) := by
  fun_cases strip access target with
  | case1 => rfl
  | case2 => simp_all
  | case3 => rfl
  | case4 => simp_all
  | case5 => rfl

theorem strip_rest (r : Reference) (access : Path) :
    strip access r.rest = (access, r.rest) := by
  have hh := r.here_ne
  have hu := r.up_ne
  generalize r.rest = rest at hh hu ⊢
  fun_cases strip access rest with
  | case1 => simp_all
  | case2 => simp_all
  | case3 => simp_all
  | case4 => simp_all
  | case5 => rfl

/-- What the loop leaves: the directories are there until the first `../`. -/
theorem strip_steps (r : Reference) (h : falsy access = false) (steps : List Step) :
    strip access (slashed (steps.map Step.name) ++ r.rest) =
      match behindUp steps with
      | none => (access, r.rest)
      | some later => ([], slashed (later.map Step.name) ++ r.rest) := by
  induction steps with
  | nil => exact strip_rest r access
  | cons st steps ih =>
    cases st with
    | here =>
      have hs : strip access (slashed ((Step.here :: steps).map Step.name) ++ r.rest) =
          strip access (slashed (steps.map Step.name) ++ r.rest) := by
        simp [slashed, Step.name, strip, h]
      rw [hs, ih]
      rfl
    | up =>
      have hs : strip access (slashed ((Step.up :: steps).map Step.name) ++ r.rest) =
          strip [] (slashed (steps.map Step.name) ++ r.rest) := by
        simp [slashed, Step.name, strip, h, dropDirectory_none]
      rw [hs, strip_falsy rfl]
      rfl

-- ---------------------------------------------------------------------------
-- The file that is named
-- ---------------------------------------------------------------------------

theorem text_relative (r : Reference) : r.text.head? ≠ some '/' := by
  obtain ⟨steps, rest, hrel, -, -⟩ := r
  cases steps with
  | nil => exact hrel
  | cons st steps => cases st <;> simp [Reference.text, slashed, Step.name]

theorem behindUp_none : behindUp steps = none ↔ steps.count .up = 0 := by
  induction steps with
  | nil => simp [behindUp]
  | cons st steps ih => cases st <;> simp [behindUp, ih]

/-- Elements are spelled as directories just when they have the same text. -/
theorem spelled_iff (hn : ∀ d ∈ ds, Name d) (hne : ds ≠ []) :
    slashed (steps.map Step.name) ++ r.rest = dirText absolute ds ++ '/' :: r.rest ↔
      absolute = false ∧ steps.map Step.name = ds := by
  have hsteps : ∀ d ∈ steps.map Step.name, '/' ∉ d := by
    intro d hd
    obtain ⟨st, -, rfl⟩ := List.mem_map.mp hd
    cases st <;> decide
  have hcancel : slashed (steps.map Step.name) ++ r.rest = dirText absolute ds ++ '/' :: r.rest ↔
      slashed (steps.map Step.name) = dirText absolute ds ++ ['/'] := by
    rw [← List.append_cancel_right_eq (slashed _) r.rest]
    simp
  rw [hcancel]
  cases absolute with
  | false =>
    rw [dirText, if_neg Bool.false_ne_true, List.nil_append, join_slash hne]
    constructor
    · intro h
      exact ⟨rfl, slashed_inj hsteps (fun d hd => (hn d hd).2) h⟩
    · rintro ⟨-, h⟩
      rw [h]
  | true =>
    constructor
    · intro h
      cases steps with
      | nil => cases h
      | cons st steps => cases st <;> cases h
    · rintro ⟨h, -⟩
      cases h

/-- The reference names the file of the usual rule exactly when it is spelled so. -/
theorem target_filepath_iff (base : Path) (p : Page) (r : Reference)
    (h : r.steps.count .up < p.dirs.length) :
    target_filepath base p.text r.text = named p r ↔ Spelled p r := by
  have hbase : target_filepath base p.text r.text =
      if falsy (strip (dirText p.absolute p.dirs) r.text).1
        then (strip (dirText p.absolute p.dirs) r.text).2
        else (strip (dirText p.absolute p.dirs) r.text).1 ++
          '/' :: (strip (dirText p.absolute p.dirs) r.text).2 := by
    rw [target_filepath, if_neg (text_relative r), Page.text, dropFile_text p.file_name]
    rfl
  rw [hbase, Spelled]
  by_cases hf : falsy (dirText p.absolute p.dirs) = true
  · -- the only directory is called `0`, and the loop does nothing
    obtain ⟨habs, hdirs⟩ := (falsy_dirText p.dirs_ne p.dirs_names).mp hf
    have hzero : r.steps.count .up = 0 := by
      rw [hdirs] at h
      exact Nat.lt_one_iff.mp h
    rw [strip_falsy hf, if_pos hf, behindUp_none.mpr hzero, named, hzero, Nat.sub_zero,
      List.take_length, Reference.text, spelled_iff p.dirs_names p.dirs_ne]
    simp only [habs, hdirs, true_and, not_true_eq_false, iff_false]
    intro hs
    have hmem : ['0'] ∈ r.steps.map Step.name := hs ▸ List.mem_cons_self
    obtain ⟨st, -, hst⟩ := List.mem_map.mp hmem
    cases st <;> cases hst
  · have hfalse := Bool.not_eq_true _ ▸ hf
    rw [Reference.text, strip_steps r hfalse]
    cases hb : behindUp r.steps with
    | none =>
      have hn : ¬ (p.absolute = false ∧ p.dirs = [['0']]) :=
        fun hc => hf ((falsy_dirText p.dirs_ne p.dirs_names).mpr hc)
      simp [hf, hn, named, behindUp_none.mp hb]
    | some later =>
      have hne : p.dirs.take (p.dirs.length - r.steps.count .up) ≠ [] := by
        simp only [ne_eq, List.take_eq_nil_iff, not_or]
        exact ⟨Nat.sub_ne_zero_of_lt h, p.dirs_ne⟩
      have hnames : ∀ d ∈ p.dirs.take (p.dirs.length - r.steps.count .up), Name d :=
        fun d hd => p.dirs_names d (List.mem_of_mem_take hd)
      exact spelled_iff hnames hne

-- The page `site/sub/p`, with `././a` and `./../a`.
def exPage : Page where
  absolute := false
  dirs := [['s', 'i', 't', 'e'], ['s', 'u', 'b']]
  file := ['p']
  dirs_ne := by decide
  dirs_names := by decide
  file_name := by decide

def exReference (steps : List Step) : Reference where
  steps := steps
  rest := ['a']
  relative := by decide
  here_ne := by decide
  up_ne := by decide

theorem target_filepath_iff_here :
    target_filepath [] exPage.text (exReference [.here, .here]).text =
      ['s', 'i', 't', 'e', '/', 's', 'u', 'b', '/', 'a'] := by
  have hs : Spelled exPage (exReference [.here, .here]) := by
    change ¬ (exPage.absolute = false ∧ exPage.dirs = [['0']])
    decide
  exact (target_filepath_iff [] exPage (exReference [.here, .here]) (by decide)).mpr hs

/-- Nothing is left of `site` once there is a `../`. -/
theorem target_filepath_fails :
    target_filepath [] exPage.text (exReference [.here, .up]).text = ['a'] ∧
      named exPage (exReference [.here, .up]) = ['s', 'i', 't', 'e', '/', 'a'] ∧
      (exReference [.here, .up]).steps.count .up < exPage.dirs.length := by
  decide +kernel

end TinyState.Tspig2
