import Mathlib.Order.Lattice
import Mathlib.Order.Basic
import Mathlib.Data.List.Flatten
import Mathlib.Data.List.Pairwise

/-!
# Sorted chains

A list of chains, each of them not empty and of one key, with the keys ascending from chain
to chain: what a tree of chains is when it is read in order. What lies under a key is the
chain of that key, and another chain may be put in its place.
-/

namespace Chains

variable {α κ : Type*} [LinearOrder κ] (key : α → κ)

/-- All keys of `a` are less than all keys of `b`. -/
def Before (a b : List α) : Prop := ∀ x ∈ a, ∀ y ∈ b, key x < key y

structure Sorted (L : List (List α)) : Prop where
  ascending : L.Pairwise (Before key)
  filled : ∀ a ∈ L, a ≠ []
  uniform : ∀ a ∈ L, ∀ x ∈ a, ∀ y ∈ a, key x = key y

/-- What lies under the key `c`. -/
def under (L : List (List α)) (c : κ) : List α := L.flatten.filter (key · = c)

variable {key} {L M : List (List α)} {a b : List α} {x y : α} {c k : κ}

theorem sorted_nil : Sorted key [] := ⟨List.Pairwise.nil, nofun, nofun⟩

theorem sorted_singleton : Sorted key [[x]] := by
  refine ⟨List.pairwise_singleton _ _, ?_, ?_⟩
  · rintro a ha rfl
    cases List.mem_singleton.mp ha
  · rintro a ha y hy z hz
    obtain rfl : a = [x] := List.mem_singleton.mp ha
    rw [List.mem_singleton.mp hy, List.mem_singleton.mp hz]

theorem before_all (h : ∀ b ∈ L, Before key b a) : ∀ y ∈ L.flatten, ∀ x ∈ a, key y < key x := by
  intro y hy x hx
  obtain ⟨b, hb, hy⟩ := List.mem_flatten.mp hy
  exact h b hb y hy x hx

/-- A chain between sorted chains. -/
theorem sorted_middle : Sorted key (L ++ a :: M) ↔
    Sorted key L ∧ Sorted key M ∧ a ≠ [] ∧ (∀ x ∈ a, ∀ y ∈ a, key x = key y) ∧
      (∀ b ∈ L, Before key b a) ∧ (∀ b ∈ M, Before key a b) ∧
      ∀ b ∈ L, ∀ b' ∈ M, Before key b b' := by
  constructor
  · rintro ⟨hp, hf, hu⟩
    obtain ⟨hL, haM, hLM⟩ := List.pairwise_append.mp hp
    obtain ⟨ha, hM⟩ := List.pairwise_cons.mp haM
    refine ⟨⟨hL, ?_, ?_⟩, ⟨hM, ?_, ?_⟩, hf a (by simp), hu a (by simp),
      fun b hb => hLM b hb a (by simp), ha, fun b hb b' hb' => hLM b hb b' (by simp [hb'])⟩
    · exact fun b hb => hf b (by simp [hb])
    · exact fun b hb => hu b (by simp [hb])
    · exact fun b hb => hf b (by simp [hb])
    · exact fun b hb => hu b (by simp [hb])
  · rintro ⟨hL, hM, ha, hu, hLa, haM, hLM⟩
    refine ⟨List.pairwise_append.mpr ⟨hL.ascending, List.pairwise_cons.mpr ⟨haM, hM.ascending⟩,
      ?_⟩, ?_, ?_⟩
    · intro b hb b' hb'
      rcases List.mem_cons.mp hb' with rfl | hb'
      · exact hLa b hb
      · exact hLM b hb b' hb'
    · intro b hb
      rcases List.mem_append.mp hb with hb | hb
      · exact hL.filled b hb
      · rcases List.mem_cons.mp hb with rfl | hb
        · exact ha
        · exact hM.filled b hb
    · intro b hb
      rcases List.mem_append.mp hb with hb | hb
      · exact hL.uniform b hb
      · rcases List.mem_cons.mp hb with rfl | hb
        · exact hu
        · exact hM.uniform b hb

/-- Chains that are sorted on both sides of one stay so without it. -/
theorem Sorted.remove (h : Sorted key (L ++ a :: M)) : Sorted key (L ++ M) := by
  have hs : (L ++ M).Sublist (L ++ a :: M) := (List.sublist_cons_self a M).append_left L
  exact ⟨h.ascending.sublist hs, fun b hb => h.filled b (hs.subset hb),
    fun b hb => h.uniform b (hs.subset hb)⟩

theorem under_append : under key (L ++ M) c = under key L c ++ under key M c := by
  rw [under, List.flatten_append, List.filter_append]
  rfl

theorem under_cons : under key (a :: L) c = a.filter (key · = c) ++ under key L c := by
  rw [under, List.flatten_cons, List.filter_append]
  rfl

theorem under_eq_nil (h : ∀ y ∈ L.flatten, key y ≠ c) : under key L c = [] := by
  rw [under, List.filter_eq_nil_iff]
  intro y hy hc
  exact h y hy (of_decide_eq_true hc)

theorem filter_eq_self (h : ∀ y ∈ a, key y = c) : a.filter (key · = c) = a := by
  rw [List.filter_eq_self]
  exact fun y hy => decide_eq_true (h y hy)

theorem filter_eq_nil (h : ∀ y ∈ a, key y ≠ c) : a.filter (key · = c) = [] := by
  rw [List.filter_eq_nil_iff]
  exact fun y hy hc => h y hy (of_decide_eq_true hc)

/-- All of a chain lies under its key, and nothing else does. -/
theorem under_of_key (h : Sorted key (L ++ a :: M)) (hx : x ∈ a) (hc : key x = c) :
    under key (L ++ a :: M) c = a := by
  obtain ⟨-, -, -, hu, hLa, haM, -⟩ := sorted_middle.mp h
  have hL : under key L c = [] := under_eq_nil fun y hy => hc ▸ ne_of_lt (before_all hLa y hy x hx)
  have hM : under key M c = [] := under_eq_nil fun y hy => by
    obtain ⟨b, hb, hy⟩ := List.mem_flatten.mp hy
    exact hc ▸ ne_of_gt (haM b hb x hx y hy)
  rw [under_append, under_cons, hL, hM, List.nil_append, List.append_nil]
  exact filter_eq_self fun y hy => (hu y hy x hx).trans hc

/-- Before a chain lie the lesser keys. -/
theorem under_of_lt (h : Sorted key (L ++ a :: M)) (hx : x ∈ a) (hc : c < key x) :
    under key (L ++ a :: M) c = under key L c := by
  obtain ⟨-, -, -, hu, -, haM, -⟩ := sorted_middle.mp h
  have hM : under key M c = [] := under_eq_nil fun y hy => by
    obtain ⟨b, hb, hy⟩ := List.mem_flatten.mp hy
    exact ne_of_gt (lt_trans hc (haM b hb x hx y hy))
  have ha : a.filter (key · = c) = [] := filter_eq_nil fun y hy => ne_of_gt (hu y hy x hx ▸ hc)
  rw [under_append, under_cons, hM, ha, List.append_nil, List.append_nil]

/-- After a chain lie the greater keys. -/
theorem under_of_gt (h : Sorted key (L ++ a :: M)) (hx : x ∈ a) (hc : key x < c) :
    under key (L ++ a :: M) c = under key M c := by
  obtain ⟨-, -, -, hu, hLa, -, -⟩ := sorted_middle.mp h
  have hL : under key L c = [] := under_eq_nil fun y hy =>
    ne_of_lt (lt_trans (before_all hLa y hy x hx) hc)
  have ha : a.filter (key · = c) = [] := filter_eq_nil fun y hy => ne_of_lt (hu y hy x hx ▸ hc)
  rw [under_append, under_cons, hL, ha, List.nil_append, List.nil_append]

/-- A chain in the place of another of the same key; it may be empty. -/
theorem under_replace (h : Sorted key (L ++ a :: M)) (ha : ∀ y ∈ a, key y = k)
    (hb : ∀ y ∈ b, key y = k) :
    under key (L ++ b :: M) c = if c = k then b else under key (L ++ a :: M) c := by
  obtain ⟨x, hx⟩ := List.exists_mem_of_ne_nil a (sorted_middle.mp h).2.2.1
  obtain ⟨-, -, -, -, hLa, haM, -⟩ := sorted_middle.mp h
  split
  · rename_i hc
    subst hc
    have hL : under key L c = [] := under_eq_nil fun y hy =>
      ha x hx ▸ ne_of_lt (before_all hLa y hy x hx)
    have hM : under key M c = [] := under_eq_nil fun y hy => by
      obtain ⟨b', hb', hy⟩ := List.mem_flatten.mp hy
      exact ha x hx ▸ ne_of_gt (haM b' hb' x hx y hy)
    rw [under_append, under_cons, hL, hM, filter_eq_self hb, List.nil_append, List.append_nil]
  · rename_i hc
    rw [under_append, under_append, under_cons, under_cons,
      filter_eq_nil fun y hy => (hb y hy).trans_ne (Ne.symm hc),
      filter_eq_nil fun y hy => (ha y hy).trans_ne (Ne.symm hc)]

theorem sorted_replace (h : Sorted key (L ++ a :: M)) (ha : ∀ y ∈ a, key y = k)
    (hb : ∀ y ∈ b, key y = k) (hne : b ≠ []) : Sorted key (L ++ b :: M) := by
  obtain ⟨x, hx⟩ := List.exists_mem_of_ne_nil a (sorted_middle.mp h).2.2.1
  obtain ⟨hL, hM, -, -, hLa, haM, hLM⟩ := sorted_middle.mp h
  refine sorted_middle.mpr ⟨hL, hM, hne, ?_, ?_, ?_, hLM⟩
  · exact fun y hy z hz => (hb y hy).trans (hb z hz).symm
  · intro b' hb' y hy z hz
    rw [hb z hz, ← ha x hx]
    exact hLa b' hb' y hy x hx
  · intro b' hb' y hy z hz
    rw [hb y hy, ← ha x hx]
    exact haM b' hb' x hx z hz

/-- Without a chain there is nothing under its key. -/
theorem under_remove (h : Sorted key (L ++ a :: M)) (ha : ∀ y ∈ a, key y = k) :
    under key (L ++ M) c = if c = k then [] else under key (L ++ a :: M) c := by
  rw [← under_replace h ha (b := []) nofun, under_append, under_append, under_cons]
  rfl

/-- A new chain between lesser and greater keys. -/
theorem sorted_insert (h : Sorted key (L ++ M)) (hL : ∀ y ∈ L.flatten, key y < key x)
    (hM : ∀ y ∈ M.flatten, key x < key y) : Sorted key (L ++ [x] :: M) := by
  have hLp := List.pairwise_append.mp h.ascending
  refine sorted_middle.mpr ⟨⟨hLp.1, fun b hb => h.filled b (by simp [hb]),
    fun b hb => h.uniform b (by simp [hb])⟩, ⟨hLp.2.1, fun b hb => h.filled b (by simp [hb]),
    fun b hb => h.uniform b (by simp [hb])⟩, List.cons_ne_nil x [], ?_, ?_, ?_, hLp.2.2⟩
  · intro y hy z hz
    rw [List.mem_singleton.mp hy, List.mem_singleton.mp hz]
  · intro b hb y hy z hz
    rw [List.mem_singleton.mp hz]
    exact hL y (List.mem_flatten.mpr ⟨b, hb, hy⟩)
  · intro b hb y hy z hz
    rw [List.mem_singleton.mp hy]
    exact hM z (List.mem_flatten.mpr ⟨b, hb, hz⟩)

theorem under_insert (hL : ∀ y ∈ L.flatten, key y < key x)
    (hM : ∀ y ∈ M.flatten, key x < key y) :
    under key (L ++ M) (key x) = [] ∧
      under key (L ++ [x] :: M) c = if c = key x then [x] else under key (L ++ M) c := by
  have hL0 : under key L (key x) = [] := under_eq_nil fun y hy => ne_of_lt (hL y hy)
  have hM0 : under key M (key x) = [] := under_eq_nil fun y hy => ne_of_gt (hM y hy)
  refine ⟨by rw [under_append, hL0, hM0, List.nil_append], ?_⟩
  split
  · rename_i hc
    subst hc
    rw [under_append, under_cons, hL0, hM0, filter_eq_self (by simp)]
    rfl
  · rename_i hc
    rw [under_append, under_append, under_cons,
      filter_eq_nil fun y hy => List.mem_singleton.mp hy ▸ Ne.symm hc]
    rfl

end Chains
