import Mathlib.Data.List.Nodup
import Mathlib.Logic.Function.Basic

/-!
# Lists through a link of their elements

The elements of a list are linked by a field of their own, `next`, so that an
element can be on one list at a time, and whoever writes the field of an
element changes every list it is on. `Holds` says of the pointer to a list
which elements are on it; an operation on one list is a frame for the others.
-/

namespace LinkedList

variable {α : Type*}

/-- From `p` the links lead through exactly the elements of `l`. -/
def Linked (next : α → Option α) : Option α → List α → Prop
  | p, [] => p = none
  | p, x :: l => p = some x ∧ Linked next (next x) l

/-- The elements on the list that begins at `p` are those with `P`. -/
def Holds (next : α → Option α) (p : Option α) (P : α → Prop) : Prop :=
  ∃ l, Linked next p l ∧ ∀ x, x ∈ l ↔ P x

/-- The same of a list whose last element is known too. -/
def Queue (next : α → Option α) (head tail : Option α) (P : α → Prop) : Prop :=
  ∃ l, Linked next head l ∧ tail = l.getLast? ∧ ∀ x, x ∈ l ↔ P x

variable {next next' : α → Option α} {p tail : Option α} {l l' : List α} {P Q : α → Prop}
  {x t : α}

-- ---------------------------------------------------------------------------
-- Linked lists
-- ---------------------------------------------------------------------------

theorem Linked.unique (h : Linked next p l) (h' : Linked next p l') : l = l' := by
  induction l generalizing p l' with
  | nil =>
    cases l' with
    | nil => rfl
    | cons y l' => exact absurd (h.symm.trans h'.1) nofun
  | cons x l ih =>
    cases l' with
    | nil => exact absurd (h'.symm.trans h.1) nofun
    | cons y l' =>
      obtain rfl : x = y := Option.some.inj (h.1.symm.trans h'.1)
      rw [ih h.2 h'.2]

theorem Linked.suffix (h : Linked next p (l ++ l')) : ∃ q, Linked next q l' := by
  induction l generalizing p with
  | nil => exact ⟨p, h⟩
  | cons x l ih => exact ih h.2

/-- A list that ends goes through no element twice. -/
theorem Linked.nodup (h : Linked next p l) : l.Nodup := by
  induction l generalizing p with
  | nil => exact List.nodup_nil
  | cons x l ih =>
    refine List.nodup_cons.mpr ⟨fun hx => ?_, ih h.2⟩
    obtain ⟨before, after, rfl⟩ := List.append_of_mem hx
    obtain ⟨q, hq⟩ := h.2.suffix
    have he := congrArg List.length (h.2.unique hq.2)
    simp only [List.length_append, List.length_cons] at he
    omega

theorem Linked.frame (h : Linked next p l) (hn : ∀ x ∈ l, next' x = next x) :
    Linked next' p l := by
  induction l generalizing p with
  | nil => exact h
  | cons x l ih =>
    refine ⟨h.1, ?_⟩
    rw [hn x List.mem_cons_self]
    exact ih h.2 fun y hy => hn y (List.mem_cons_of_mem x hy)

/-- The link of an element on the list leads to another one. -/
theorem Linked.next_mem {y : α} (h : Linked next p l) (hx : x ∈ l) (hy : next x = some y) :
    y ∈ l := by
  induction l generalizing p with
  | nil => cases hx
  | cons z l ih =>
    rcases List.mem_cons.mp hx with rfl | hx
    · have hl := h.2
      rw [hy] at hl
      cases l with
      | nil => cases hl
      | cons w l =>
        rw [Option.some.inj hl.1]
        exact List.mem_cons_of_mem _ List.mem_cons_self
    · exact List.mem_cons_of_mem _ (ih h.2 hx)

-- ---------------------------------------------------------------------------
-- What a pointer holds
-- ---------------------------------------------------------------------------

theorem Holds.frame (h : Holds next p P) (hn : ∀ x, P x → next' x = next x) :
    Holds next' p P := by
  obtain ⟨l, hl, hm⟩ := h
  exact ⟨l, hl.frame fun x hx => hn x ((hm x).mp hx), hm⟩

/-- The link of an element that is not on the list may be written. -/
theorem Holds.update [DecidableEq α] (h : Holds next p P) (hx : ¬P x) (q : Option α) :
    Holds (Function.update next x q) p P :=
  h.frame fun y hy => Function.update_of_ne (fun he : y = x => hx (he ▸ hy)) _ _

theorem Holds.congr (h : Holds next p P) (hp : ∀ x, P x ↔ Q x) : Holds next p Q := by
  obtain ⟨l, hl, hm⟩ := h
  exact ⟨l, hl, fun x => (hm x).trans (hp x)⟩

theorem holds_none : Holds next none P ↔ ∀ x, ¬P x := by
  constructor
  · rintro ⟨l, hl, hm⟩ x hx
    cases l with
    | nil => exact absurd ((hm x).mpr hx) List.not_mem_nil
    | cons y l => exact absurd hl.1 nofun
  · intro h
    exact ⟨[], rfl, fun x => ⟨nofun, fun hx => absurd hx (h x)⟩⟩

theorem Holds.head (h : Holds next (some x) P) : P x := by
  obtain ⟨l, hl, hm⟩ := h
  cases l with
  | nil => cases hl
  | cons y l =>
    obtain rfl : x = y := Option.some.inj hl.1
    exact (hm x).mp List.mem_cons_self

/-- Going on to the next element leaves the first one behind. -/
theorem Holds.rest (h : Holds next (some x) P) : Holds next (next x) fun y => P y ∧ y ≠ x := by
  obtain ⟨l, hl, hm⟩ := h
  cases l with
  | nil => cases hl
  | cons y l =>
    obtain rfl : x = y := Option.some.inj hl.1
    have hx : x ∉ l := (List.nodup_cons.mp hl.nodup).1
    refine ⟨l, hl.2, fun y => ?_⟩
    change y ∈ l ↔ P y ∧ y ≠ x
    rw [← hm y, List.mem_cons]
    constructor
    · exact fun hy => ⟨.inr hy, fun he => hx (he ▸ hy)⟩
    · exact fun hy => hy.1.resolve_left hy.2

theorem Holds.push [DecidableEq α] (h : Holds next p P) (hx : ¬P x) :
    Holds (Function.update next x p) (some x) fun y => P y ∨ y = x := by
  obtain ⟨l, hl, hm⟩ := h
  have hxl : x ∉ l := fun hl' => hx ((hm x).mp hl')
  refine ⟨x :: l, ⟨rfl, ?_⟩, fun y => ?_⟩
  · rw [Function.update_self]
    exact hl.frame fun y hy => Function.update_of_ne (fun he => hxl (by rwa [← he])) _ _
  · rw [List.mem_cons, hm y, or_comm]

-- ---------------------------------------------------------------------------
-- Queues
-- ---------------------------------------------------------------------------

theorem Queue.holds (h : Queue next p tail P) : Holds next p P := by
  obtain ⟨l, hl, -, hm⟩ := h
  exact ⟨l, hl, hm⟩

theorem Queue.frame (h : Queue next p tail P) (hn : ∀ x, P x → next' x = next x) :
    Queue next' p tail P := by
  obtain ⟨l, hl, ht, hm⟩ := h
  exact ⟨l, hl.frame fun x hx => hn x ((hm x).mp hx), ht, hm⟩

theorem Queue.update [DecidableEq α] (h : Queue next p tail P) (hx : ¬P x) (q : Option α) :
    Queue (Function.update next x q) p tail P :=
  h.frame fun y hy => Function.update_of_ne (fun he : y = x => hx (he ▸ hy)) _ _

theorem Queue.congr (h : Queue next p tail P) (hp : ∀ x, P x ↔ Q x) : Queue next p tail Q := by
  obtain ⟨l, hl, ht, hm⟩ := h
  exact ⟨l, hl, ht, fun x => (hm x).trans (hp x)⟩

theorem queue_none (h : ∀ x, ¬P x) : Queue next none none P :=
  ⟨[], rfl, rfl, fun x => ⟨nofun, fun hx => absurd hx (h x)⟩⟩

/-- The first element of a queue, whose own link is not written. -/
theorem Queue.first (h : Queue next none tail P) (hn : next x = none) :
    Queue next (some x) (some x) fun y => P y ∨ y = x := by
  have hp := holds_none.mp h.holds
  refine ⟨[x], ⟨rfl, hn⟩, rfl, fun y => ?_⟩
  rw [List.mem_singleton]
  exact ⟨.inr, fun hy => hy.resolve_left (hp y)⟩

theorem Queue.tail_mem (h : Queue next p (some t) P) : P t := by
  obtain ⟨l, -, ht, hm⟩ := h
  exact (hm t).mp (List.mem_of_getLast? ht.symm)

theorem Queue.tail_isSome (h : Queue next (some x) tail P) : ∃ t, tail = some t := by
  obtain ⟨l, hl, ht, hm⟩ := h
  cases l with
  | nil => cases hl
  | cons y l => exact ⟨_, ht.trans (List.getLast?_eq_some_getLast (List.cons_ne_nil y l))⟩

theorem Linked.append [DecidableEq α] (h : Linked next p (l ++ [t])) (hx : x ∉ l ++ [t])
    (hn : next x = none) : Linked (Function.update next t (some x)) p (l ++ [t] ++ [x]) := by
  induction l generalizing p with
  | nil =>
    have ht : x ≠ t := fun he => hx (by simp [he])
    refine ⟨h.1, ?_, ?_⟩
    · rw [Function.update_self]
    · rw [Function.update_of_ne ht]
      exact hn
  | cons y l ih =>
    have hy : y ≠ t := by
      rintro rfl
      exact (List.nodup_cons.mp h.nodup).1 (by simp)
    refine ⟨h.1, ?_⟩
    rw [Function.update_of_ne hy]
    exact ih h.2 fun hl => hx (List.mem_cons_of_mem y hl)

/-- An element is put behind the last one; its own link is not written. -/
theorem Queue.append [DecidableEq α] (h : Queue next p (some t) P) (hx : ¬P x)
    (hn : next x = none) :
    Queue (Function.update next t (some x)) p (some x) fun y => P y ∨ y = x := by
  obtain ⟨l, hl, ht, hm⟩ := h
  obtain ⟨l, rfl⟩ := List.getLast?_eq_some_iff.mp ht.symm
  refine ⟨l ++ [t] ++ [x], hl.append (fun hl' => hx ((hm x).mp hl')) hn, by simp, fun y => ?_⟩
  rw [List.mem_append, List.mem_singleton, hm y]

-- ---------------------------------------------------------------------------
-- Taking an element out
-- ---------------------------------------------------------------------------

/-- The element before `x`, looked for from `z` on for so many steps. -/
def pred [DecidableEq α] (next : α → Option α) (x : α) : Nat → α → Option α
  | 0, _ => none
  | n + 1, z =>
    if next z = some x then some z
    else
      match next z with
      | none => none
      | some y => pred next x n y

/-- Whoever is on the list is found before its end. -/
theorem Linked.pred_found [DecidableEq α] {z : α} {n : Nat} (h : Linked next (next z) l)
    (hx : x ∈ l) (hn : l.length ≤ n) :
    ∃ w, pred next x n z = some w ∧ next w = some x ∧ w ∈ z :: l := by
  induction l generalizing z n with
  | nil => cases hx
  | cons y l ih =>
    cases n with
    | zero => exact absurd hn (Nat.not_succ_le_zero _)
    | succ n =>
      unfold pred
      split
      · exact ⟨z, rfl, ‹_›, List.mem_cons_self⟩
      · rename_i hne
        have hxl : x ∈ l := (List.mem_cons.mp hx).resolve_left fun he => hne (he ▸ h.1)
        obtain ⟨w, hw, hnw, hm⟩ := ih h.2 hxl (Nat.le_of_succ_le_succ hn)
        rw [h.1]
        exact ⟨w, hw, hnw, List.mem_cons_of_mem z hm⟩

/-- What an element is linked to comes behind the first one. -/
theorem Linked.succ_mem {y z : α} (h : Linked next p (y :: l)) (hz : z ∈ y :: l)
    (hn : next z = some x) : x ∈ l := by
  induction l generalizing p y with
  | nil =>
    obtain rfl := List.mem_singleton.mp hz
    exact absurd (hn.symm.trans h.2) nofun
  | cons u l ih =>
    rcases List.mem_cons.mp hz with rfl | hz
    · obtain rfl : x = u := Option.some.inj (hn.symm.trans h.2.1)
      exact List.mem_cons_self
    · exact List.mem_cons_of_mem u (ih h.2 hz)

/-- Nobody is linked to by two elements. -/
theorem Linked.pred_unique {z w : α} (h : Linked next p l) (hz : z ∈ l) (hw : w ∈ l)
    (hnz : next z = some x) (hnw : next w = some x) : z = w := by
  induction l generalizing p with
  | nil => cases hz
  | cons y l ih =>
    have key {v : α} (hv : v ∈ l) (hnv : next v = some x) (hy : next y = some x) : False := by
      have hl := h.2
      rw [hy] at hl
      cases l with
      | nil => cases hv
      | cons u l =>
        obtain rfl : x = u := Option.some.inj hl.1
        exact (List.nodup_cons.mp hl.nodup).1 (hl.succ_mem hv hnv)
    rcases List.mem_cons.mp hz with rfl | hzl <;> rcases List.mem_cons.mp hw with rfl | hwl
    · rfl
    · exact (key hwl hnw hnz).elim
    · exact (key hzl hnz hnw).elim
    · exact ih h.2 hzl hwl

/-- The element before `x` is linked to the one after it. -/
theorem Linked.unlink [DecidableEq α] {w : α} (h : Linked next p l) (hp : p ≠ some x)
    (hw : ∀ z ∈ l, next z = some x → z = w) (hn : next w = some x) :
    Linked (Function.update (Function.update next w (next x)) x none) p (l.erase x) := by
  induction l generalizing p with
  | nil => exact h
  | cons y l ih =>
    have hy : y ≠ x := fun he => hp (by rw [h.1, he])
    have hnd := List.nodup_cons.mp h.nodup
    rw [List.erase_cons_tail (by simpa using hy)]
    refine ⟨h.1, ?_⟩
    rw [Function.update_of_ne hy]
    by_cases hyx : next y = some x
    · -- `y` is the one whose link is written
      obtain rfl : y = w := hw y List.mem_cons_self hyx
      have hl := h.2
      rw [hyx] at hl
      cases l with
      | nil => cases hl
      | cons z l =>
        obtain rfl : x = z := Option.some.inj hl.1
        have hx : x ∉ l := (List.nodup_cons.mp hnd.2).1
        rw [Function.update_self, List.erase_cons_head]
        refine hl.2.frame fun z hz => ?_
        have hzx : z ≠ x := fun he => hx (he ▸ hz)
        have hzy : z ≠ y := fun he => hnd.1 (he ▸ List.mem_cons_of_mem x hz)
        rw [Function.update_of_ne hzx, Function.update_of_ne hzy]
    · have hyw : y ≠ w := fun he => hyx (he ▸ hn)
      rw [Function.update_of_ne hyw]
      exact ih h.2 hyx fun z hz => hw z (List.mem_cons_of_mem y hz)

-- ---------------------------------------------------------------------------
-- Links that lead round
-- ---------------------------------------------------------------------------

/-- The links lead from an element to `t`, and do not come by `t` before. -/
inductive Leads (next : α → Option α) (t : α) : α → Prop
  | here : Leads next t t
  | step {x y : α} : x ≠ t → next x = some y → Leads next t y → Leads next t x

/-- The link of `t` itself does not matter. -/
theorem Leads.frame (h : Leads next t x) (hn : ∀ y, y ≠ t → next' y = next y) :
    Leads next' t x := by
  induction h with
  | here => exact .here
  | step hne hnext _ ih => exact .step hne ((hn _ hne).trans hnext) ih

/-- Where the links lead to `t`, they lead on to what is next. -/
theorem Leads.onward {u : α} (h : Leads next t x) (hn : next t = some u) : Leads next u x := by
  induction h with
  | here =>
    by_cases ht : t = u
    · exact ht ▸ .here
    · exact .step ht hn .here
  | @step y z hne hnext _ ih =>
    by_cases hy : y = u
    · exact hy ▸ .here
    · exact .step hy hnext ih

theorem Leads.linked (h : Leads next t x) (hl : Linked next (some x) l) :
    ∃ l', Linked next (some t) l' ∧ l'.length ≤ l.length := by
  induction h generalizing l with
  | here => exact ⟨l, hl, Nat.le_refl _⟩
  | @step y z hne hnext _ ih =>
    cases l with
    | nil => cases hl
    | cons w l =>
      obtain ⟨hw, hl⟩ := hl
      obtain rfl : y = w := Option.some.inj hw
      rw [hnext] at hl
      obtain ⟨l', hl', hle⟩ := ih hl
      exact ⟨l', hl', Nat.le_succ_of_le hle⟩

/-- No list ends where the links lead round. -/
theorem Leads.endless {u : α} (h : Leads next t x) (hn : next t = some u) (hu : Leads next t u) :
    ¬ Linked next (some x) l := by
  intro hl
  obtain ⟨l₁, hl₁, -⟩ := h.linked hl
  cases l₁ with
  | nil => cases hl₁
  | cons w l₁ =>
    obtain ⟨hw, hrest⟩ := hl₁
    obtain rfl : t = w := Option.some.inj hw
    rw [hn] at hrest
    obtain ⟨l₂, hl₂, hle⟩ := hu.linked hrest
    have he : t :: l₁ = l₂ := Linked.unique ⟨rfl, hn ▸ hrest⟩ hl₂
    rw [← he, List.length_cons] at hle
    omega

theorem Linked.leads (h : Linked next (some x) l) (ht : t ∈ l) : Leads next t x := by
  induction l generalizing x with
  | nil => exact absurd ht List.not_mem_nil
  | cons w l ih =>
    obtain ⟨hw, hl⟩ := h
    obtain rfl : x = w := Option.some.inj hw
    by_cases hx : x = t
    · exact hx ▸ .here
    · have ht : t ∈ l := (List.mem_cons.mp ht).resolve_left fun he => hx he.symm
      cases hnext : next x with
      | none =>
        rw [hnext] at hl
        cases l with
        | nil => exact absurd ht List.not_mem_nil
        | cons y l => cases hl.1
      | some y =>
        rw [hnext] at hl
        exact .step hx hnext (ih hl ht)

end LinkedList
