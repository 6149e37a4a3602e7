import TinyState.Link.Load

/-!
# The order of the files

Ranks are lengths of chains of imports, so that the threshold is reached only where there is a
loop, which the search then finds. Ranks that are settled go up along each import.
-/

namespace TinyState.Tsjslink2

open Relation Relaxation BoundedRun

variable {c d e : Contents} {k : String}

-- ---------------------------------------------------------------------------
-- The search for a loop
-- ---------------------------------------------------------------------------

section

variable (c)

/-- The file `u` names the file `v` in an import line, as it is kept in `%contents`. -/
def Linked (u v : String) : Prop := v ∈ c.imports u ∧ v ∈ c.names

def unmarked (loop : List String) : List String := c.names.filter (· ∉ loop)

/-- What has been marked since `loop` names only what is marked, and not the top. -/
structure Marked (top : String) (loop loop' : List String) : Prop where
  mono : loop ⊆ loop'
  closed : ∀ w ∈ loop', w ∉ loop → ∀ n ∈ c.imports w, n ≠ top ∧ (n ∈ c.names → n ∈ loop')

def Checked (top file : String) (loop : List String) (r : Bool × List String) : Prop :=
  if r.1 then TransGen (Linked c) file top
  else Marked c top loop r.2 ∧ (file ∈ c.names → file ∈ r.2)

end

variable {top file : String} {loop loop' : List String}

theorem imports_of_not_mem (h : k ∉ c.names) : c.imports k = [] := by
  have hl : c.lookup k = none := Option.not_isSome_iff_eq_none.mp fun hs => h (lookup_isSome.mp hs)
  simp [Contents.imports, hl]

theorem mem_of_imports {n : String} (h : n ∈ c.imports k) : k ∈ c.names := by
  by_contra hk
  rw [imports_of_not_mem hk] at h
  cases h

theorem mem_of_linked {v : String} (h : TransGen (Linked c) k v) : k ∈ c.names := by
  obtain ⟨x, hx, -⟩ := TransGen.head'_iff.mp h
  exact mem_of_imports hx.1

theorem Marked.refl (c : Contents) (top : String) (loop : List String) :
    Marked c top loop loop where
  mono := List.Subset.refl _
  closed _ h hn := absurd h hn

theorem Marked.trans {loop'' : List String} (h₁ : Marked c top loop loop')
    (h₂ : Marked c top loop' loop'') : Marked c top loop loop'' where
  mono _ h := h₂.mono (h₁.mono h)
  closed w hw hn n hi := by
    by_cases hw' : w ∈ loop'
    · obtain ⟨hne, hmem⟩ := h₁.closed w hw' hn n hi
      exact ⟨hne, fun h => h₂.mono (hmem h)⟩
    · exact h₂.closed w hw hw' n hi

theorem unmarked_lt (hc : file ∈ c.names) (hl : file ∉ loop) (hsub : file :: loop ⊆ loop') :
    (unmarked c loop').length < (unmarked c loop).length := by
  have hs : (unmarked c loop').Sublist (unmarked c loop) := by
    apply List.monotone_filter_right
    intro k hk
    simp only [decide_eq_true_eq] at hk ⊢
    exact fun h => hk (hsub (List.mem_cons_of_mem _ h))
  refine Nat.lt_of_le_of_ne hs.length_le fun he => ?_
  have hmem : file ∈ unmarked c loop := List.mem_filter.mpr ⟨hc, by simpa using hl⟩
  rw [← hs.eq_of_length he] at hmem
  have := (List.mem_filter.mp hmem).2
  simp only [decide_eq_true_eq] at this
  exact this (hsub (List.mem_cons_self ..))

/-- The loop over the imports of a file. -/
theorem checkImports_meets {check : String → List String → Outcome (Bool × List String)}
    {out : Prop} {E : Died → Prop} (htop : top ∈ c.names) (hcheck : ∀ n loop', loop ⊆ loop' →
      Meets (check n loop') out E (Checked c top n loop'))
    {ns : List String} (hns : ns ⊆ c.imports file) {loop' : List String} (hl : loop ⊆ loop') :
    Meets (checkImports check top ns loop') out E fun r =>
      if r.1 then TransGen (Linked c) file top
      else Marked c top loop' r.2 ∧ ∀ n ∈ ns, n ≠ top ∧ (n ∈ c.names → n ∈ r.2) := by
  induction ns generalizing loop' with
  | nil => exact ⟨.refl _ _ _, nofun⟩
  | cons n ns ih =>
    have hn : n ∈ c.imports file := hns (List.mem_cons_self ..)
    unfold checkImports
    split
    · rename_i he
      subst he
      exact .single ⟨hn, htop⟩
    · rename_i hne
      refine (hcheck n loop' hl).andThen ?_
      rintro ⟨_ | _, loop''⟩ hr
      · obtain ⟨hm, hmem⟩ := hr
        refine (ih (fun _ h => hns (List.mem_cons_of_mem _ h))
          (List.Subset.trans hl hm.mono)).mono id (fun _ => id) ?_
        rintro ⟨_ | _, l⟩ hr'
        · obtain ⟨hm', hall⟩ := hr'
          refine ⟨hm.trans hm', fun m hm'' => ?_⟩
          rcases List.mem_cons.mp hm'' with rfl | h
          · exact ⟨hne, fun hc => hm'.mono (hmem hc)⟩
          · exact hall m h
        · exact hr'
      · exact .head ⟨hn, mem_of_linked hr⟩ hr

theorem start_check_loop_meets (htop : top ∈ c.names) (bound : Nat) (file : String)
    (loop : List String) :
    Meets (start_check_loop c bound top file loop) (bound ≤ (unmarked c loop).length)
      (fun _ => False) (Checked c top file loop) := by
  induction bound generalizing file loop with
  | zero => exact Nat.zero_le _
  | succ bound ih =>
    unfold start_check_loop
    split
    · rename_i hmem
      exact ⟨.refl _ _ _, fun _ => hmem⟩
    · rename_i hmem
      by_cases hc : file ∈ c.names
      · rw [if_pos hc]
        have hcheck : ∀ n loop', file :: loop ⊆ loop' →
            Meets (start_check_loop c bound top n loop')
              (bound + 1 ≤ (unmarked c loop).length) (fun _ => False)
              (Checked c top n loop') := fun n loop' hsub => by
          refine (ih n loop').mono (fun hle => ?_) (fun _ => id) fun _ => id
          have := unmarked_lt hc hmem hsub
          omega
        refine (checkImports_meets htop hcheck (List.Subset.refl _)
          (List.Subset.refl _)).mono id (fun _ => id) ?_
        rintro ⟨_ | _, loop'⟩ hr
        · obtain ⟨hm, hall⟩ := hr
          refine ⟨⟨fun x hx => hm.mono (List.mem_cons_of_mem _ hx), ?_⟩,
            fun _ => hm.mono (List.mem_cons_self ..)⟩
          intro w hw hn
          by_cases hwf : w = file
          · rw [hwf]; exact hall
          · exact hm.closed w hw (by simp [hwf, hn])
        · exact hr
      · rw [if_neg hc, imports_of_not_mem hc]
        exact ⟨.refl _ _ _, fun h => absurd h hc⟩

theorem not_cycle_of_checked (hf : file ∈ c.names) (h : Checked c file file [] (false, loop)) :
    ¬ TransGen (Linked c) file file := by
  obtain ⟨hm, hmem⟩ := h
  have hall : ∀ y, TransGen (Linked c) file y → y ≠ file ∧ y ∈ loop := fun y hy => by
    induction hy with
    | single hstep =>
      obtain ⟨hne, hin⟩ := hm.closed file (hmem hf) nofun _ hstep.1
      exact ⟨hne, hin hstep.2⟩
    | tail _ hstep ih =>
      obtain ⟨hne, hin⟩ := hm.closed _ ih.2 nofun _ hstep.1
      exact ⟨hne, hin hstep.2⟩
  exact fun hcycle => (hall file hcycle).1 rfl

/-- The search fails exactly where there is a loop. -/
theorem search_loop_meets (keys : HashOrder) (bound : Nat) :
    Meets (search_loop keys c bound) (bound ≤ c.names.length)
      (fun e => e = .loop ∧ ∃ x ∈ c.names, TransGen (Linked c) x x)
      (fun _ => ∀ x ∈ c.names, ¬ TransGen (Linked c) x x) := by
  have hperm := keys.perm c.names
  refine (Meets.forEach (I := fun rest _ => rest ⊆ c.names ∧
    ∀ x ∈ c.names, x ∈ rest ∨ ¬ TransGen (Linked c) x x) ?_ ?_).mono id (fun _ => id) ?_
  · exact ⟨hperm.subset, fun x hx => .inl (hperm.mem_iff.mpr hx)⟩
  · rintro file rest _ ⟨hsub, hdone⟩
    have hfile := hsub (List.mem_cons_self ..)
    refine Meets.andThen ((start_check_loop_meets hfile bound file []).mono
      (fun hle => hle.trans (List.length_filter_le ..)) (fun _ => False.elim) fun _ => id) ?_
    rintro ⟨_ | _, loop⟩ hr
    · refine ⟨fun x hx => hsub (List.mem_cons_of_mem _ hx), fun x hx => ?_⟩
      rcases hdone x hx with h | h
      · rcases List.mem_cons.mp h with rfl | h
        · exact .inr (not_cycle_of_checked hfile hr)
        · exact .inl h
      · exact .inr h
    · exact ⟨rfl, file, hfile, hr⟩
  · rintro _ ⟨-, hdone⟩ x hx
    exact (hdone x hx).resolve_left nofun

-- ---------------------------------------------------------------------------
-- The ranks
-- ---------------------------------------------------------------------------

section

variable (c) in
/-- Ranks are lengths of chains, and below the threshold. -/
structure Good (s : Deps) : Prop where
  ranked : Ranked (Linked c) c.names s.dependent
  below : ∀ v ∈ c.names, s.dependent v < 3 * c.length

variable (c) in
/-- What a call for `top` leaves of the ranks. -/
structure Raised (s s' : Deps) : Prop where
  relaxed : Relaxed (Linked c) s.dependent s'.dependent
  good : Good c s'
  reported : s'.reported = s.reported

variable {keys : HashOrder} {checks bound : Nat} {inp : String} {s s' s'' : Deps}

theorem Raised.refl (h : Good c s) : Raised c s s := ⟨.refl _ _, h, rfl⟩

theorem Raised.trans (h₁ : Raised c s s') (h₂ : Raised c s' s'') : Raised c s s'' :=
  ⟨h₁.relaxed.trans h₂.relaxed, h₂.good, h₂.reported.trans h₁.reported⟩

theorem raise_self (s : Deps) (file : String) (d : Nat) :
    (s.raise file d).dependent file = d := Function.update_self ..

theorem raise_of_ne {v file : String} (h : v ≠ file) (s : Deps) (d : Nat) :
    (s.raise file d).dependent v = s.dependent v := Function.update_of_ne h ..

theorem length_names : c.names.length = c.length := List.length_map _

/-- Where the threshold is reached there is a loop, and the search finds it. -/
theorem search_loop_at_threshold {file : String} {out : Prop} (hout : checks ≤ c.length → out)
    (hr : Ranked (Linked c) c.names s.dependent) (hf : file ∈ c.names)
    (hle : c.length ≤ s.dependent file) {P : Deps → Prop} (f : Unit → Outcome Deps) :
    Meets ((search_loop keys c checks).andThen f) out
      (fun e => e = .loop ∧ ∃ x ∈ c.names, TransGen (Linked c) x x) P := by
  refine Meets.andThen ((search_loop_meets keys checks).mono (fun h => ?_) (fun _ => id)
    fun _ => id) fun _ hno => ?_
  · rw [length_names] at h
    exact hout h
  · obtain ⟨x, hx, hcycle⟩ := hr.cycle hf (by rwa [length_names])
    exact absurd hcycle (hno x hx)

theorem set_dependency_missing (h : inp ∉ c.names) (s : Deps) :
    Meets (set_dependency keys c checks bound inp s) (bound = 0) (fun _ => False) (· = s) := by
  cases bound with
  | zero => rfl
  | succ bound =>
    unfold set_dependency
    rw [imports_of_not_mem h]
    rfl

/-- The outcome of a call for `top`, in which no bound is met that is great enough. -/
def Meant (c : Contents) (checks bound : Nat) (top : String) (s : Deps) (x : Outcome Deps) :
    Prop :=
  Meets x (checks ≤ c.length ∨ bound + s.dependent top < 3 * c.length)
    (fun e => e = .loop ∧ ∃ x ∈ c.names, TransGen (Linked c) x x)
    (fun s' => Raised c s s' ∧ Settled (Linked c) s'.dependent top)

/-- One import of `top` gets a rank above that of `top`. -/
theorem relax_meets (htop : top ∈ c.names)
    (hinp : inp ∈ c.imports top) (hs : Good c s)
    (ih : ∀ inp s, inp ∈ c.names → Good c s →
      Meant c checks bound inp s (set_dependency keys c checks bound inp s)) :
    Meets (relax keys c checks (set_dependency keys c checks bound) top inp s)
      (checks ≤ c.length ∨ bound + 1 + s.dependent top < 3 * c.length)
      (fun e => e = .loop ∧ ∃ x ∈ c.names, TransGen (Linked c) x x)
      (fun s' => Raised c s s' ∧ (inp ∈ c.names → s.dependent top = s'.dependent top →
        s'.dependent top < s'.dependent inp)) := by
  have hpos : 0 < c.length := by
    rw [← length_names]
    exact List.length_pos_of_mem htop
  unfold relax
  by_cases hfound : inp ∈ c.names
  · simp only [hfound, if_true]
    have hstep : Linked c top inp := ⟨hinp, hfound⟩
    split
    · rename_i hle
      have hr : Ranked (Linked c) c.names (s.raise inp (s.dependent top + 1)).dependent :=
        hs.ranked.raise htop hstep
      split
      · rename_i hthree
        refine search_loop_at_threshold .inl hr hfound ?_ _
        rw [raise_self]
        omega
      · rename_i hthree
        have hgood : Good c (s.raise inp (s.dependent top + 1)) := by
          refine ⟨hr, fun v hv => ?_⟩
          rcases eq_or_ne v inp with rfl | hne
          · rw [raise_self]; omega
          · rw [raise_of_ne hne]; exact hs.below v hv
        refine (ih inp _ hfound hgood).mono (fun hlt => ?_) (fun _ => id) ?_
        · rw [raise_self] at hlt
          omega
        · rintro s' ⟨hraised, hsettled⟩
          have hlt : s.dependent inp < s.dependent top + 1 := Nat.lt_succ_of_le hle
          refine ⟨⟨.raise hlt hraised.relaxed hsettled, hraised.good, hraised.reported⟩,
            fun _ he => ?_⟩
          have hge := hraised.relaxed.le inp
          rw [raise_self] at hge
          omega
    · rename_i hlt
      exact ⟨.refl hs, fun _ _ => Nat.lt_of_not_le hlt⟩
  · simp only [hfound, if_false, Nat.zero_le, if_true]
    split
    · rename_i hthree
      exact search_loop_at_threshold .inl hs.ranked htop (by omega) _
    · rename_i hthree
      refine (set_dependency_missing hfound s).mono (fun hz => by omega) (fun _ => False.elim) ?_
      rintro s' rfl
      exact ⟨.refl hs, False.elim⟩

/-- `set_dependency` settles the rank of `top`, or dies of a loop that there is. -/
theorem set_dependency_meets (bound : Nat) (top : String) (s : Deps) (htop : top ∈ c.names)
    (hs : Good c s) :
    Meant c checks bound top s (set_dependency keys c checks bound top s) := by
  induction bound generalizing top s with
  | zero =>
    have := hs.below top htop
    exact .inr (by omega)
  | succ bound ih =>
    unfold set_dependency Meant
    refine (Meets.forEach (I := fun rest s' => rest ⊆ c.imports top ∧ Raised c s s' ∧
      ∀ m ∈ c.imports top, m ∈ c.names → m ∈ rest ∨
        (s.dependent top = s'.dependent top → s'.dependent top < s'.dependent m)) ?_ ?_).mono id
      (fun _ => id) ?_
    · exact ⟨List.Subset.refl _, .refl hs, fun m hm _ => .inl hm⟩
    · rintro inp rest s' ⟨hsub, hraised, hdone⟩
      have hinp := hsub (List.mem_cons_self ..)
      refine (relax_meets htop hinp hraised.good fun inp s => ih inp s).mono
        (fun hlt => ?_) (fun _ => id) ?_
      · have := hraised.relaxed.le top
        omega
      · rintro s'' ⟨hraised', hnew⟩
        refine ⟨fun x hx => hsub (List.mem_cons_of_mem _ hx), hraised.trans hraised', ?_⟩
        intro m hm hmem
        have hle := hraised.relaxed.le top
        have hle' := hraised'.relaxed.le top
        rcases hdone m hm hmem with h | h
        · rcases List.mem_cons.mp h with rfl | h
          · exact .inr fun he => hnew hmem (by omega)
          · exact .inl h
        · refine .inr fun he => ?_
          have hlt := h (by omega)
          have hge := hraised'.relaxed.le m
          omega
    · rintro s' ⟨-, hraised, hdone⟩
      refine ⟨hraised, ?_⟩
      by_cases he : s.dependent top = s'.dependent top
      · rintro m ⟨hm, hmem⟩
        exact (hdone m hm hmem).resolve_left nofun he
      · exact hraised.relaxed.settled top he

end

-- ---------------------------------------------------------------------------
-- The order of the files
-- ---------------------------------------------------------------------------

section

variable (strip : String → String) (files : Files) (top : String)

/-- An import line of `u` has the name of `v` as it is kept. -/
def Spelled (u v : String) : Prop :=
  Reach strip files top u ∧ (∃ lines, files.lookup u = some lines ∧ v ∈ importList lines) ∧
    Reach strip files top v

/-- The names in the import lines lead from each file to what it imports, without the base
directory being cut off. -/
def SameNames : Prop := ∀ u v, Reach strip files top u →
  (TransGen (Imports strip files) u v ↔ TransGen (Spelled strip files top) u v)

/-- What is written for a file. -/
def block (files : Files) (file : String) : List String :=
  match files.lookup file with
  | some lines => (entryOf lines file).lines
  | none => []

/-- If all files exist, the linker comes to an end. Without a loop it writes each file once, after
all that it imports, and reports nothing; with a loop it fails. -/
def LinkLaw (keys : HashOrder) : Prop :=
  (∀ f, Reach strip files top f → (files.lookup f).isSome) →
    (∃ bound, make_output strip keys files bound top ≠ none) ∧
    ∀ bound out, make_output strip keys files bound top = some out →
      ((∀ u, Reach strip files top u → ¬ TransGen (Imports strip files) u u) →
        ∃ l : List String, out = .ok ⟨l.flatMap (block files), false⟩ ∧ l.Nodup ∧
          (∀ f, f ∈ l ↔ Reach strip files top f) ∧
          l.Pairwise fun u v => ¬ Imports strip files u v) ∧
      ((∃ u, Reach strip files top u ∧ TransGen (Imports strip files) u u) →
        out = .error .loop)

end

section

variable {keys : HashOrder} {bound : Nat}

/-- All that is reachable has been loaded, and nothing else. -/
structure AllLoaded (strip : String → String) (files : Files) (top : String) (c : Contents) :
    Prop where
  nodup : c.names.Nodup
  mem : ∀ f, f ∈ c.names ↔ Reach strip files top f
  entry : ∀ f ∈ c.names, ∃ lines, files.lookup f = some lines ∧
    c.lookup f = some (entryOf lines f)

theorem AllLoaded.of_loaded (h : Loaded strip files [] c) (htop : strip top ∈ c.names)
    (hreach : ∀ k ∈ c.names, k ∉ Contents.names [] →
      ReflTransGen (Imports strip files) (strip top) k) : AllLoaded strip files top c where
  nodup := h.nodup .nil
  mem f := by
    constructor
    · exact fun hf => hreach f hf nofun
    · intro hf
      induction hf with
      | refl => exact htop
      | tail _ hstep ih => exact h.closed _ ih nofun _ hstep
  entry f hf := h.entry f hf nofun

theorem AllLoaded.length_le (h : AllLoaded strip files top c) : c.length ≤ files.length := by
  have hfiles : (files.map Prod.fst).length = files.length := List.length_map _
  rw [← length_names, ← hfiles]
  refine (h.nodup.subperm fun f hf => ?_).length_le
  obtain ⟨lines, hl, -⟩ := h.entry f hf
  rw [← lookup_isSome, hl]
  rfl

theorem AllLoaded.linked (h : AllLoaded strip files top c) :
    Linked c = Spelled strip files top := by
  funext u v
  apply propext
  constructor
  · rintro ⟨hv, hmem⟩
    have hu := mem_of_imports hv
    obtain ⟨lines, hl, he⟩ := h.entry u hu
    refine ⟨(h.mem u).mp hu, ⟨lines, hl, ?_⟩, (h.mem v).mp hmem⟩
    simpa [Contents.imports, he, entryOf] using hv
  · rintro ⟨hu, ⟨lines, hl, hv⟩, hmem⟩
    obtain ⟨lines', hl', he⟩ := h.entry u ((h.mem u).mpr hu)
    rw [hl] at hl'
    cases hl'
    exact ⟨by simpa [Contents.imports, he, entryOf] using hv, (h.mem v).mpr hmem⟩

/-- What is written for the files in their order. -/
theorem AllLoaded.lines (h : AllLoaded strip files top c) {l : List String} (hl : l ⊆ c.names) :
    (l.filterMap fun file => c.lookup file).flatMap Entry.lines = l.flatMap (block files) := by
  induction l with
  | nil => rfl
  | cons f l ih =>
    obtain ⟨lines, hf, he⟩ := h.entry f (hl (List.mem_cons_self ..))
    rw [List.filterMap_cons_some (f := fun file => c.lookup file) he, List.flatMap_cons,
      List.flatMap_cons, ih fun x hx => hl (List.mem_cons_of_mem _ hx)]
    simp [block, hf]

/-- The order of the output: from the greatest rank on. -/
def sorted (keys : HashOrder) (c : Contents) (s : Deps) : List String :=
  (keys.order c.names).mergeSort fun a b => s.dependent b ≤ s.dependent a

theorem sorted_perm (keys : HashOrder) (c : Contents) (s : Deps) :
    (sorted keys c s).Perm c.names := (List.mergeSort_perm _ _).trans (keys.perm _)

theorem sorted_pairwise (keys : HashOrder) (c : Contents) (s : Deps) :
    (sorted keys c s).Pairwise fun a b => s.dependent b ≤ s.dependent a := by
  refine (List.pairwise_mergeSort ?_ ?_ (keys.order c.names)).imp fun hab => by simpa using hab
  · intro a b d hab hbd
    simp only [decide_eq_true_eq] at hab hbd ⊢
    omega
  · intro a b
    simp only [Bool.or_eq_true, decide_eq_true_eq]
    omega

/-- Without a loop the files are written in an order in which ranks only go down, and ranks go up
along all import lines that are reached. -/
theorem make_output_meets (hexist : ∀ f, Reach strip files top f → (files.lookup f).isSome) :
    Meets (make_output strip keys files bound top) (bound ≤ 3 * files.length)
      (fun e => e = .loop ∧ ∃ x, Reach strip files top x ∧ TransGen (Spelled strip files top) x x)
      (fun out => ∃ (s : Deps) (l : List String), out = ⟨l.flatMap (block files), false⟩ ∧ l.Nodup ∧
        (∀ f, f ∈ l ↔ Reach strip files top f) ∧
        l.Pairwise (fun a b => s.dependent b ≤ s.dependent a) ∧
        ∀ w, ReflTransGen (Spelled strip files top) (strip top) w →
          Settled (Spelled strip files top) s.dependent w) := by
  have hmissing : (missing files []).length ≤ files.length := by
    refine (List.length_filter_le ..).trans ?_
    rw [List.length_map]
  refine Meets.andThen (P := AllLoaded strip files top)
    ((load_file_meets bound top "" []).mono ?_ ?_ ?_) ?_
  · intro hle
    omega
  · rintro e ⟨u, hu, hno⟩
    have := hexist u hu
    simp [hno] at this
  · rintro c ⟨hload, htop, hreach⟩
    exact .of_loaded hload htop hreach
  · intro c hc
    have htop : strip top ∈ c.names := (hc.mem _).mpr .refl
    have hgood : Good c ⟨fun _ => 0, false⟩ := by
      refine ⟨.zero _ _, fun v hv => ?_⟩
      have hpos := List.length_pos_of_mem hv
      rw [length_names] at hpos
      exact Nat.mul_pos (by decide) hpos
    have hlen := hc.length_le
    refine Meets.andThen ((set_dependency_meets bound _ _ htop hgood).mono ?_ ?_ fun _ => id) ?_
    · rintro (hle | hlt)
      · omega
      · dsimp only at hlt
        omega
    · rintro e ⟨rfl, x, hx, hcycle⟩
      rw [hc.linked] at hcycle
      exact ⟨rfl, x, (hc.mem x).mp hx, hcycle⟩
    · rintro s ⟨hraised, hsettled⟩
      have hperm := sorted_perm keys c s
      rw [hc.linked] at hsettled
      refine ⟨s, sorted keys c s, ?_, ?_, ?_, sorted_pairwise .., fun w hw => ?_⟩
      · have hlines := hc.lines hperm.subset
        simp only [sorted] at hlines ⊢
        rw [hlines, hraised.reported]
      · exact hperm.nodup_iff.mpr hc.nodup
      · intro f
        rw [hperm.mem_iff, hc.mem]
      · have hr := hraised.relaxed
        rw [hc.linked] at hr
        exact hr.settled_of_reach hsettled hw

/-- The linker keeps to its law where the base directory does not have to be cut off. -/
theorem link_law {strip : String → String} {files : Files} {top : String} (keys : HashOrder)
    (h : SameNames strip files top) : LinkLaw strip files top keys := by
  intro hexist
  have hmeets : ∀ bound, Meets (make_output strip keys files bound top) _ _ _ := fun _ =>
    make_output_meets hexist
  refine ⟨⟨3 * files.length + 1, ((hmeets _).mono (fun hle => by omega) (fun _ => id)
    fun _ => id).ne_none⟩, fun bound out hout => ?_⟩
  cases out with
  | error e =>
    obtain ⟨rfl, x, hx, hcycle⟩ := (hmeets bound).of_error hout
    exact ⟨fun hno => absurd ((h x x hx).mpr hcycle) (hno x hx), fun _ => rfl⟩
  | ok out =>
    obtain ⟨s, l, rfl, hnodup, hmem, hpair, hsettled⟩ := (hmeets bound).of_ok hout
    have hreach : ∀ w, Reach strip files top w →
        ReflTransGen (Spelled strip files top) (strip top) w := fun w hw => by
      rcases reflTransGen_iff_eq_or_transGen.mp hw with rfl | hw
      · exact .refl
      · exact ((h _ w .refl).mp hw).to_reflTransGen
    have hlt : ∀ u v, Reach strip files top u → TransGen (Imports strip files) u v →
        s.dependent u < s.dependent v := fun u v hu huv =>
      lt_of_settled (fun w hw => hsettled w ((hreach u hu).trans hw)) ((h u v hu).mp huv)
    constructor
    · intro _
      refine ⟨l, rfl, hnodup, hmem, hpair.imp_of_mem fun {a b} ha _ hle himports => ?_⟩
      have := hlt a b ((hmem a).mp ha) (.single himports)
      omega
    · rintro ⟨u, hu, hcycle⟩
      exact absurd (hlt u u hu hcycle) (Nat.lt_irrefl _)

end

-- ---------------------------------------------------------------------------
-- Names with and without the base directory
-- ---------------------------------------------------------------------------

section

variable {strip : String → String} {files : Files} {top : String}

/-- Where no import line has the base directory in front of the name, nothing is cut off. -/
theorem sameNames_of_plain (h : ∀ u, Reach strip files top u → ∀ lines,
    files.lookup u = some lines → ∀ n ∈ importList lines, strip n = n) :
    SameNames strip files top := by
  have hspelled : ∀ u v, Reach strip files top u → Imports strip files u v →
      Spelled strip files top u v := by
    rintro u v hu ⟨lines, hl, n, hn, rfl⟩
    refine ⟨hu, ⟨lines, hl, ?_⟩, hu.tail ⟨lines, hl, n, hn, rfl⟩⟩
    rwa [h u hu lines hl n hn]
  intro u v hu
  constructor
  · intro hv
    induction hv with
    | single hstep => exact .single (hspelled _ _ hu hstep)
    | tail hpath hstep ih =>
      exact ih.tail (hspelled _ _ (hu.trans hpath.to_reflTransGen) hstep)
  · intro hv
    refine hv.lift id fun a b hab => ?_
    obtain ⟨ha, ⟨lines, hl, hb⟩, -⟩ := hab
    exact ⟨lines, hl, b, hb, h a ha lines hl b hb⟩

theorem mem_of_lookup {β : Type} {l : List (String × β)} {k : String} {x : β}
    (h : l.lookup k = some x) : (k, x) ∈ l := by
  induction l with
  | nil => cases h
  | cons p l ih =>
    obtain ⟨j, y⟩ := p
    by_cases hj : k = j
    · subst hj
      simp only [List.lookup_cons_self, Option.some.injEq] at h
      simp [h]
    · rw [List.lookup_cons, beq_false_of_ne hj] at h
      exact List.mem_cons_of_mem _ (ih h)

/-- All reachable files exist where each import of each file does. -/
theorem exist_of_imports (htop : (files.lookup (strip top)).isSome)
    (h : ∀ p ∈ files, ∀ n ∈ importList p.2, (files.lookup (strip n)).isSome) :
    ∀ f, Reach strip files top f → (files.lookup f).isSome := by
  intro f hf
  cases hf with
  | refl => exact htop
  | tail _ hstep =>
    obtain ⟨lines, hl, n, hn, rfl⟩ := hstep
    exact h _ (mem_of_lookup hl) n hn

end

/-- The base directory is cut off. -/
def stripBase (base name : String) : String :=
  if (base ++ "/").toList.isPrefixOf name.toList then
    String.ofList (name.toList.drop (base.length + 1))
  else name

/-- Files in the order in which they have been loaded. -/
def loadOrder : HashOrder := ⟨id, fun _ => .refl _⟩

def diamond : Files :=
  [("top.js", ["//:IMPORT left.js", "//:IMPORT right.js", "top()"]),
    ("left.js", ["//:IMPORT base.js\r"]), ("right.js", ["//:IMPORT\tbase.js "]), ("base.js", [])]

theorem link_law_diamond : LinkLaw (stripBase "src/scripts") diamond "src/scripts/top.js"
    loadOrder := by
  refine link_law loadOrder (sameNames_of_plain fun u _ lines hl n hn => ?_)
  have hall : ∀ p ∈ diamond, ∀ n ∈ importList p.2, stripBase "src/scripts" n = n := by
    decide +kernel
  exact hall _ (mem_of_lookup hl) n hn

/-- Two files that import each other, by names with the base directory. -/
def circle : Files :=
  [("top.js", ["//:IMPORT src/scripts/sub.js"]), ("sub.js", ["//:IMPORT src/scripts/top.js"])]

/-- The loop is not found: both files are written. -/
theorem link_fails : ¬ LinkLaw (stripBase "src/scripts") circle "top.js" loadOrder := by
  intro h
  have hexist : ∀ f, Reach (stripBase "src/scripts") circle "top.js" f →
      (circle.lookup f).isSome := exist_of_imports (by decide +kernel) (by decide +kernel)
  have hok : (make_output (stripBase "src/scripts") loadOrder circle 3 "top.js").any
      Except.isOk = true := by decide +kernel
  have hsub : Imports (stripBase "src/scripts") circle "top.js" "sub.js" :=
    ⟨_, rfl, "src/scripts/sub.js", by decide +kernel, by decide +kernel⟩
  have htop : Imports (stripBase "src/scripts") circle "sub.js" "top.js" :=
    ⟨_, rfl, "src/scripts/top.js", by decide +kernel, by decide +kernel⟩
  obtain ⟨r, hout, hr⟩ := Option.any_eq_true _ _ |>.mp hok
  cases r with
  | ok out =>
    have := ((h hexist).2 3 _ hout).2 ⟨"top.js", by
      rw [Reach, show stripBase "src/scripts" "top.js" = "top.js" by decide +kernel],
      .tail (.single hsub) htop⟩
    cases this
  | error => cases hr

end TinyState.Tsjslink2
