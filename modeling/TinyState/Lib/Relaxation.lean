import Mathlib.Logic.Relation
import Mathlib.Data.List.Nodup
import Mathlib.Data.List.Chain
import Mathlib.Data.List.Perm.Subperm
import Mathlib.Order.Basic

/-!
# Relaxation of ranks

Ranks that grow along a relation until no step of it goes down: what has grown is settled, so
that a rank that is settled at the top is settled wherever the relation leads from there. Ranks
that are lengths of chains stay below the number of elements where there is no cycle.
-/

namespace Relaxation

open Relation

variable {α : Type*} {r : α → α → Prop} {f g h : α → Nat} {v w top : α} {d : Nat}

/-- All successors of `w` have a greater rank. -/
def Settled (r : α → α → Prop) (f : α → Nat) (w : α) : Prop := ∀ c, r w c → f w < f c

/-- From `f` to `g` ranks have only grown, and those that have grown are settled. -/
structure Relaxed (r : α → α → Prop) (f g : α → Nat) : Prop where
  le : ∀ v, f v ≤ g v
  settled : ∀ w, f w ≠ g w → Settled r g w

theorem Settled.mono (hs : Settled r f w) (hle : ∀ v, f v ≤ g v) (hw : f w = g w) :
    Settled r g w := by
  intro c hc
  calc g w = f w := hw.symm
    _ < f c := hs c hc
    _ ≤ g c := hle c

theorem Relaxed.refl (r : α → α → Prop) (f : α → Nat) : Relaxed r f f where
  le _ := Nat.le_refl _
  settled _ hne := absurd rfl hne

theorem Relaxed.trans (h₁ : Relaxed r f g) (h₂ : Relaxed r g h) : Relaxed r f h where
  le v := (h₁.le v).trans (h₂.le v)
  settled w hne := by
    by_cases hw : g w = h w
    · exact (h₁.settled w fun he => hne (he.trans hw)).mono h₂.le hw
    · exact h₂.settled w hw

/-- A rank is raised, and settled afterwards. -/
theorem Relaxed.raise [DecidableEq α] (hlt : f v < d)
    (hr : Relaxed r (Function.update f v d) g) (hs : Settled r g v) : Relaxed r f g where
  le w := by
    have hle := hr.le w
    rcases eq_or_ne w v with rfl | hne
    · rw [Function.update_self] at hle
      exact hlt.le.trans hle
    · rwa [Function.update_of_ne hne] at hle
  settled w hw := by
    rcases eq_or_ne w v with rfl | hne
    · exact hs
    · exact hr.settled w (by rwa [Function.update_of_ne hne])

/-- What is settled at the top is settled wherever the relation leads from there. -/
theorem Relaxed.settled_of_reach (hr : Relaxed r (fun _ => 0) g) (hs : Settled r g top)
    (hw : ReflTransGen r top w) : Settled r g w := by
  induction hw with
  | refl => exact hs
  | tail _ hstep ih => exact hr.settled _ (Nat.ne_of_lt (Nat.zero_lt_of_lt (ih _ hstep)))

theorem lt_of_settled (hs : ∀ u, ReflTransGen r w u → Settled r g u) (hv : TransGen r w v) :
    g w < g v := by
  induction hv with
  | single hstep => exact hs _ .refl _ hstep
  | tail hpath hstep ih => exact ih.trans (hs _ hpath.to_reflTransGen _ hstep)

/-- Among the elements of `s` each rank is the length of a chain. -/
def Ranked (r : α → α → Prop) (s : List α) (f : α → Nat) : Prop :=
  ∀ v ∈ s, ∃ l, List.IsChain (Function.swap r) (v :: l) ∧ l.length = f v ∧ ∀ x ∈ l, x ∈ s

theorem Ranked.zero (r : α → α → Prop) (s : List α) : Ranked r s fun _ => 0 :=
  fun _ _ => ⟨[], .singleton _, rfl, nofun⟩

theorem Ranked.raise [DecidableEq α] {s : List α} (hf : Ranked r s f) (hw : w ∈ s)
    (hstep : r w v) : Ranked r s (Function.update f v (f w + 1)) := by
  intro u hu
  rcases eq_or_ne u v with rfl | hne
  · obtain ⟨l, hl, hlen, hmem⟩ := hf w hw
    refine ⟨w :: l, .cons_cons hstep hl, ?_, ?_⟩
    · rw [Function.update_self, List.length_cons, hlen]
    · rintro x (_ | ⟨_, hx⟩)
      · exact hw
      · exact hmem x hx
  · rw [Function.update_of_ne hne]
    exact hf u hu

/-- A chain that is longer than the list of its elements comes back to one of them. -/
theorem exists_cycle {s l : List α} (hl : List.IsChain (Function.swap r) l)
    (hmem : ∀ x ∈ l, x ∈ s) (hlen : s.length < l.length) : ∃ x ∈ s, TransGen r x x := by
  by_contra hno
  push Not at hno
  have hpair : l.Pairwise (TransGen (Function.swap r)) :=
    (hl.imp fun _ _ => TransGen.single).pairwise
  have hnodup : l.Nodup := by
    refine hpair.imp_of_mem fun {a b} ha _ hab he => ?_
    subst he
    exact hno a (hmem a ha) (transGen_swap.mp hab)
  exact absurd (hnodup.subperm hmem).length_le (Nat.not_le_of_lt hlen)

theorem Ranked.cycle {s : List α} (hf : Ranked r s f) (hv : v ∈ s) (hlen : s.length ≤ f v) :
    ∃ x ∈ s, TransGen r x x := by
  obtain ⟨l, hl, hl', hmem⟩ := hf v hv
  refine exists_cycle hl ?_ (by rw [List.length_cons]; omega)
  rintro x (_ | ⟨_, hx⟩)
  · exact hv
  · exact hmem x hx

end Relaxation
