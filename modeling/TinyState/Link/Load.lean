import TinyState.Link.Model

/-!
# What is loaded

`load_file` loads exactly the files that are reachable along the imports from the top file.
-/

namespace TinyState.Tsjslink2

open Relation BoundedRun

-- ---------------------------------------------------------------------------
-- The import graph
-- ---------------------------------------------------------------------------

section

variable (strip : String → String) (files : Files)

/-- The file `u` imports the file `v`. -/
def Imports (u v : String) : Prop :=
  ∃ lines, files.lookup u = some lines ∧ ∃ n ∈ importList lines, strip n = v

/-- The file is reachable from the top file. -/
def Reach (top : String) : String → Prop := ReflTransGen (Imports strip files) (strip top)

/-- What a file becomes in `%contents`. -/
def entryOf (lines : List String) (filename : String) : Entry :=
  ⟨importList lines, lines.map clean, filename⟩

/-- The files that have not been loaded. -/
def missing (contents : Contents) : List String :=
  (files.map Prod.fst).filter (· ∉ contents.names)

/-- Between `c` and `d` files have been loaded as they are, and with all that they import. -/
structure Loaded (c d : Contents) : Prop where
  mono : c.names ⊆ d.names
  nodup : c.names.Nodup → d.names.Nodup
  kept : ∀ k ∈ c.names, d.lookup k = c.lookup k
  entry : ∀ k ∈ d.names, k ∉ c.names → ∃ lines, files.lookup k = some lines ∧
    d.lookup k = some (entryOf lines k)
  closed : ∀ k ∈ d.names, k ∉ c.names → ∀ v, Imports strip files k v → v ∈ d.names

end

variable {strip : String → String} {files : Files} {c d e : Contents} {k : String}

theorem lookup_isSome {β : Type} {l : List (String × β)} {k : String} :
    (l.lookup k).isSome ↔ k ∈ l.map Prod.fst := by
  induction l with
  | nil => simp
  | cons p l ih =>
    obtain ⟨j, x⟩ := p
    by_cases h : k = j
    · simp [h]
    · simp only [List.lookup_cons, beq_false_of_ne h, ih]
      simp [h]

theorem lookup_append_of_mem (h : k ∈ c.names) : (c ++ d).lookup k = c.lookup k := by
  rw [List.lookup_append]
  obtain ⟨x, hx⟩ := Option.isSome_iff_exists.mp (lookup_isSome.mpr h)
  rw [hx]
  rfl

theorem names_setEntry (file : String) (x : Entry) : (setEntry c file x).names = c.names := by
  simp only [Contents.names, setEntry, List.map_map]
  apply List.map_congr_left
  intro p _
  simp only [Function.comp_apply]
  split <;> rfl

theorem lookup_setEntry (file : String) (x : Entry) :
    (setEntry c file x).lookup k = if k = file ∧ k ∈ c.names then some x else c.lookup k := by
  induction c with
  | nil => simp [setEntry, Contents.names]
  | cons p c ih =>
    obtain ⟨j, y⟩ := p
    simp only [setEntry, List.map_cons] at ih ⊢
    by_cases hj : k = j
    · subst hj
      by_cases hf : k = file <;> simp [hf, Contents.names]
    · have hb : (k == j) = false := beq_false_of_ne hj
      have hn : k ∈ Contents.names ((j, y) :: c) ↔ k ∈ Contents.names c := by
        simp [Contents.names, hj]
      simp only [hn]
      by_cases hf : j = file
      · rw [if_pos hf, List.lookup_cons, List.lookup_cons, hb, ih]
      · rw [if_neg hf, List.lookup_cons, List.lookup_cons, hb, ih]

theorem Loaded.refl (strip : String → String) (files : Files) (c : Contents) :
    Loaded strip files c c where
  mono := List.Subset.refl _
  nodup := id
  kept _ _ := rfl
  entry _ h hn := absurd h hn
  closed _ h hn := absurd h hn

theorem Loaded.trans (h₁ : Loaded strip files c d) (h₂ : Loaded strip files d e) :
    Loaded strip files c e where
  mono _ hk := h₂.mono (h₁.mono hk)
  nodup h := h₂.nodup (h₁.nodup h)
  kept k hk := (h₂.kept k (h₁.mono hk)).trans (h₁.kept k hk)
  entry k hk hn := by
    by_cases hd : k ∈ d.names
    · obtain ⟨lines, hl, hd'⟩ := h₁.entry k hd hn
      exact ⟨lines, hl, (h₂.kept k hd).trans hd'⟩
    · exact h₂.entry k hk hd
  closed k hk hn v hv := by
    by_cases hd : k ∈ d.names
    · exact h₂.mono (h₁.closed k hd hn v hv)
    · exact h₂.closed k hk hd v hv

theorem missing_lt {file : String} (hf : file ∈ files.map Prod.fst) (hc : file ∉ c.names)
    (hd : c.names ⊆ d.names) (hfd : file ∈ d.names) :
    (missing files d).length < (missing files c).length := by
  have hsub : (missing files d).Sublist (missing files c) := by
    apply List.monotone_filter_right
    intro k hk
    simp only [decide_eq_true_eq] at hk ⊢
    exact fun hc => hk (hd hc)
  refine Nat.lt_of_le_of_ne hsub.length_le fun he => ?_
  have hmem : file ∈ missing files c := List.mem_filter.mpr ⟨hf, by simpa using hc⟩
  rw [← hsub.eq_of_length he] at hmem
  exact absurd hfd (by simpa using (List.mem_filter.mp hmem).2)

/-- What a file is loaded to: itself, and what has been loaded for its import lines. -/
theorem Loaded.file {file : String} {lines : List String} (hl : files.lookup file = some lines)
    (hc : file ∉ c.names) (h : Loaded strip files (c ++ [(file, ⟨[], [], ""⟩)]) d)
    (hi : ∀ n ∈ importList lines, strip n ∈ d.names) :
    Loaded strip files c (setEntry d file (entryOf lines file)) ∧ file ∈ d.names := by
  have hnames : Contents.names (c ++ [(file, ⟨[], [], ""⟩)]) = c.names ++ [file] := by
    simp [Contents.names]
  have hfile : file ∈ d.names := h.mono (by simp [hnames])
  have hnew : ∀ k, k ∉ c.names → k ≠ file →
      k ∉ Contents.names (c ++ [(file, ⟨[], [], ""⟩)]) := fun k hk hne => by simp [hnames, hk, hne]
  refine ⟨⟨?_, ?_, ?_, ?_, ?_⟩, hfile⟩
  · intro k hk
    rw [names_setEntry]
    exact h.mono (by simp [hnames, hk])
  · intro hn
    rw [names_setEntry]
    refine h.nodup ?_
    rw [hnames]
    exact List.nodup_append.mpr ⟨hn, by simp, by rintro a ha b hb rfl; simp_all⟩
  · intro k hk
    have hne : k ≠ file := by rintro rfl; exact hc hk
    rw [lookup_setEntry, if_neg fun hk' => hne hk'.1, h.kept k (by simp [hnames, hk])]
    exact lookup_append_of_mem hk
  · intro k hk hkc
    rw [names_setEntry] at hk
    rw [lookup_setEntry]
    by_cases hkf : k = file
    · subst hkf
      exact ⟨lines, hl, if_pos ⟨rfl, hk⟩⟩
    · rw [if_neg fun hk' => hkf hk'.1]
      exact h.entry k hk (hnew k hkc hkf)
  · intro k hk hkc v hv
    rw [names_setEntry] at hk ⊢
    by_cases hkf : k = file
    · subst hkf
      obtain ⟨lines', hl', n, hn, rfl⟩ := hv
      rw [hl] at hl'
      cases hl'
      exact hi n hn
    · exact h.closed k hk (hnew k hkc hkf) v hv

/-- `load_file` loads a file and what is reachable from it. It fails only where a file is missing
that is reachable, and comes to an end where the bound exceeds the number of files. -/
theorem load_file_meets (bound : Nat) (filename path : String) (c : Contents) :
    Meets (load_file strip files bound filename path c) (bound ≤ (missing files c).length)
      (fun _ => ∃ u, ReflTransGen (Imports strip files) (strip filename) u ∧
        files.lookup u = none)
      (fun d => Loaded strip files c d ∧ strip filename ∈ d.names ∧
        ∀ k ∈ d.names, k ∉ c.names →
          ReflTransGen (Imports strip files) (strip filename) k) := by
  induction bound generalizing filename path c with
  | zero => exact Nat.zero_le _
  | succ bound ih =>
    unfold load_file
    dsimp only
    split
    · rename_i hl
      exact ⟨_, .refl, hl⟩
    · rename_i lines hl
      split
      · rename_i hc
        exact ⟨.refl _ _ _, lookup_isSome.mp hc, fun k hk hn => absurd hk hn⟩
      · rename_i hc
        have hc : strip filename ∉ c.names := fun h => hc (lookup_isSome.mpr h)
        have himports : ∀ n ∈ importList lines, Imports strip files (strip filename) (strip n) :=
          fun n hn => ⟨lines, hl, n, hn, rfl⟩
        have hnames : Contents.names (c ++ [(strip filename, ⟨[], [], ""⟩)]) =
            c.names ++ [strip filename] := by simp [Contents.names]
        refine Meets.andThen (P := fun d =>
          Loaded strip files (c ++ [(strip filename, ⟨[], [], ""⟩)]) d ∧
          (∀ n ∈ importList lines, n ∈ ([] : List String) ∨ strip n ∈ d.names) ∧
          ∀ k ∈ d.names, k ∉ c.names ++ [strip filename] →
            ReflTransGen (Imports strip files) (strip filename) k) ?_ ?_
        · refine (Meets.forEach (I := fun rest d => rest ⊆ importList lines ∧
            Loaded strip files (c ++ [(strip filename, ⟨[], [], ""⟩)]) d ∧
            (∀ n ∈ importList lines, n ∈ rest ∨ strip n ∈ d.names) ∧
            ∀ k ∈ d.names, k ∉ c.names ++ [strip filename] →
              ReflTransGen (Imports strip files) (strip filename) k) ?_ ?_).mono id
            (fun _ => id) (fun d hd => hd.2)
          · refine ⟨List.Subset.refl _, .refl _ _ _, fun n hn => .inl hn, fun k hk hn => ?_⟩
            rw [hnames] at hk
            exact absurd hk hn
          · rintro n rest b ⟨hsub, hload, hdone, hreach⟩
            have hn := himports n (hsub (List.mem_cons_self ..))
            refine (ih n (n ++ " << " ++ path) b).mono ?_ ?_ ?_
            · intro hle
              have hfile : strip filename ∈ files.map Prod.fst := by
                rw [← lookup_isSome, hl]
                rfl
              have hlt : (missing files b).length < (missing files c).length :=
                missing_lt hfile hc
                  (fun k hk => hload.mono (by rw [hnames]; exact List.mem_append_left _ hk))
                  (hload.mono (by rw [hnames]; exact List.mem_append_right _ (by simp)))
              omega
            · rintro e ⟨u, hu, hno⟩
              exact ⟨u, .head hn hu, hno⟩
            · rintro b' ⟨hload', hmem, hreach'⟩
              refine ⟨fun m hm => hsub (List.mem_cons_of_mem _ hm), hload.trans hload', ?_, ?_⟩
              · intro m hm
                rcases hdone m hm with h | h
                · rcases List.mem_cons.mp h with rfl | h
                  · exact .inr hmem
                  · exact .inl h
                · exact .inr (hload'.mono h)
              · intro k hk hkc
                by_cases hkb : k ∈ b.names
                · exact hreach k hkb hkc
                · exact .head hn (hreach' k hk hkb)
        · rintro d ⟨hload, hdone, hreach⟩
          obtain ⟨hfile, hmem⟩ := hload.file hl hc fun n hn => (hdone n hn).resolve_left nofun
          refine ⟨hfile, by rwa [names_setEntry], fun k hk hkc => ?_⟩
          rw [names_setEntry] at hk
          by_cases hkf : k = strip filename
          · rw [hkf]
          · exact hreach k hk (by simp [hkc, hkf])

end TinyState.Tsjslink2
