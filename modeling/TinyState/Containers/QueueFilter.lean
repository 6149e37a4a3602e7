import TinyState.Containers.QueueString
import Mathlib.Algebra.BigOperators.Group.List.Basic

/-!
# stdQueueString: filter

A string is taken once for each anchored pattern that it matches, since the `continue` goes on
with the next pattern. For a pattern without anchors it is taken once for each place before the
last one where it agrees with all of the pattern but its last character. Where this comes to
one for what matches and none for the rest, the result is what it should be.
-/

namespace TinyState

open Transition StdString

namespace StringFilter

/-- `MATCH_ALL` and the others. -/
inductive MatchFlag
  | matchAll
  | matchPartial
  | matchForward
  | matchBihind
  deriving DecidableEq, Repr

/-- '^' and '$'. -/
def caret : StrChar := ⟨94, by decide⟩

def dollar : StrChar := ⟨36, by decide⟩

def flag (str : List StrChar) : MatchFlag :=
  if str.head? = some caret then if str.getLast? = some dollar then .matchAll else .matchForward
  else if str.getLast? = some dollar then .matchBihind else .matchPartial

/-- `memcmp` gives 0. -/
def same (s t : List StrChar) (n : Nat) : Prop := s.take n = t.take n

instance (s t : List StrChar) (n : Nat) : Decidable (same s t n) :=
  inferInstanceAs (Decidable (_ = _))

/-- The `j` for which a pattern without anchors is found. -/
def places (str flt : List StrChar) : List Nat :=
  (List.range (str.length - flt.length)).filter fun j => same (str.drop j) flt (flt.length - 1)

/-- How often a string is taken for a pattern. -/
def hits (str flt : List StrChar) : Nat :=
  let slen := flt.length
  let qlen := str.length
  match flag flt with
  | .matchAll =>
    if qlen ≠ slen - 2 then 0 else if same str (flt.drop 1) (slen - 2) then 1 else 0
  | .matchForward =>
    if qlen < slen - 1 then 0 else if same str (flt.drop 1) (slen - 1) then 1 else 0
  | .matchBihind =>
    if qlen < slen - 1 then 0 else if same (str.drop (qlen + 1 - slen)) flt (slen - 1) then 1 else 0
  | .matchPartial => if qlen < slen then 0 else (places str flt).length

-- ---------------------------------------------------------------------------
-- What the patterns mean
-- ---------------------------------------------------------------------------

/-- `^p$` is equal to `p`, `^p` starts with `p`, `p$` ends with `p`, and `p` contains `p`. -/
def Matches (str flt : List StrChar) : Prop :=
  match flag flt with
  | .matchAll => str = flt.tail.dropLast
  | .matchForward => flt.tail <+: str
  | .matchBihind => flt.dropLast <:+ str
  | .matchPartial => flt <:+: str

instance (str flt : List StrChar) : Decidable (Matches str flt) := by
  unfold Matches
  split <;> infer_instance

def Anchored (flt : List StrChar) : Prop := flag flt ≠ .matchPartial

instance (flt : List StrChar) : Decidable (Anchored flt) := inferInstanceAs (Decidable (_ ≠ _))

/-- The places before the last one where the string agrees with the pattern but for its last
character. -/
def Near (str flt : List StrChar) (j : Nat) : Prop :=
  j + flt.length < str.length ∧ flt.dropLast <+: str.drop j

/-- For a string, no two of the patterns that it matches and the places where it is near one
come together, it is near none but when it matches one, and it contains no pattern without
matching an anchored one or being near one. -/
structure Distinct (flts : List (List StrChar)) (str : List StrChar) : Prop where
  once : (flts.filter fun flt => Anchored flt ∧ Matches str flt).length +
    ((flts.filter fun flt => ¬ Anchored flt).map fun flt => (places str flt).length).sum ≤ 1
  near : ∀ flt ∈ flts, ¬ Anchored flt → ∀ j, Near str flt j → ∃ flt ∈ flts, Matches str flt
  contained : ∀ flt ∈ flts, ¬ Anchored flt → flt <:+: str →
    ∃ flt ∈ flts, (Anchored flt ∧ Matches str flt) ∨ (¬ Anchored flt ∧ ∃ j, Near str flt j)

variable {str flt : List StrChar} {flts : List (List StrChar)} {j : Nat}

theorem same_iff_isPrefix {s t : List StrChar} (n : Nat) (h : n ≤ t.length) :
    same s t n ↔ t.take n <+: s := by
  rw [List.prefix_iff_eq_take, List.length_take, Nat.min_eq_left h]
  exact eq_comm

theorem mem_places (hf : flt ≠ []) : j ∈ places str flt ↔ Near str flt j := by
  rw [places, List.mem_filter, List.mem_range, decide_eq_true_iff,
    same_iff_isPrefix _ (Nat.sub_le _ 1), ← List.dropLast_eq_take]
  have hpos := List.length_pos_iff.mpr hf
  exact and_congr_left fun _ => by omega

theorem flag_cases (hf : flt ≠ []) :
    (flag flt = .matchAll → ∃ p, flt = caret :: (p ++ [dollar])) ∧
      (flag flt = .matchForward → ∃ p, flt = caret :: p) ∧
      (flag flt = .matchBihind → ∃ p, flt = p ++ [dollar]) := by
  unfold flag
  split_ifs with h₁ h₂ h₂
  · refine ⟨fun _ => ?_, nofun, nofun⟩
    obtain ⟨p, rfl⟩ := List.head?_eq_some_iff.mp h₁
    cases List.eq_nil_or_concat p with
    | inl hp =>
      subst hp
      cases h₂
    | inr hp =>
      obtain ⟨q, c, rfl⟩ := hp
      rw [List.concat_eq_append, ← List.cons_append, List.getLast?_concat] at h₂
      obtain rfl : c = dollar := Option.some.inj h₂
      exact ⟨q, by rw [List.concat_eq_append]⟩
  · exact ⟨nofun, fun _ => List.head?_eq_some_iff.mp h₁, nofun⟩
  · refine ⟨nofun, nofun, fun _ => ?_⟩
    obtain ⟨p, c, rfl⟩ := (List.eq_nil_or_concat flt).resolve_left hf
    rw [List.concat_eq_append, List.getLast?_concat] at h₂
    obtain rfl : c = dollar := Option.some.inj h₂
    exact ⟨p, by rw [List.concat_eq_append]⟩
  · exact ⟨nofun, nofun, nofun⟩

/-- For an anchored pattern a string is taken once if it matches. -/
theorem hits_anchored (hf : flt ≠ []) (ha : Anchored flt) :
    hits str flt = if Matches str flt then 1 else 0 := by
  obtain ⟨hall, hfor, hbeh⟩ := flag_cases hf
  cases hfl : flag flt with
  | matchPartial => exact absurd hfl ha
  | matchAll =>
    obtain ⟨p, rfl⟩ := hall hfl
    have hm : Matches str (caret :: (p ++ [dollar])) ↔ str = p := by simp [Matches, hfl]
    have hh : hits str (caret :: (p ++ [dollar])) = if str.length ≠ p.length then 0
        else if same str (p ++ [dollar]) p.length then 1 else 0 := by
      simp [hits, hfl]
    rw [hh, if_congr hm rfl rfl]
    split
    · next hne => rw [if_neg fun he => hne (congrArg List.length he)]
    · next hlen =>
      have hs : same str (p ++ [dollar]) p.length ↔ str = p := by
        rw [same, List.take_left, List.take_of_length_le (Nat.le_of_eq (not_not.mp hlen))]
      exact if_congr hs rfl rfl
  | matchForward =>
    obtain ⟨p, rfl⟩ := hfor hfl
    have hm : Matches str (caret :: p) ↔ p <+: str := by simp [Matches, hfl]
    have hh : hits str (caret :: p) = if str.length < p.length then 0
        else if same str p p.length then 1 else 0 := by
      simp [hits, hfl]
    rw [hh, if_congr hm rfl rfl]
    split
    · next hlt => rw [if_neg fun hp => absurd hp.length_le (Nat.not_le.mpr hlt)]
    · have hs : same str p p.length ↔ p <+: str := by
        rw [same_iff_isPrefix _ (Nat.le_refl _), List.take_length]
      exact if_congr hs rfl rfl
  | matchBihind =>
    obtain ⟨p, rfl⟩ := hbeh hfl
    have hm : Matches str (p ++ [dollar]) ↔ p <:+ str := by simp [Matches, hfl]
    have hh : hits str (p ++ [dollar]) = if str.length < p.length then 0
        else if same (str.drop (str.length - p.length)) (p ++ [dollar]) p.length then 1 else 0 := by
      simp [hits, hfl]
    rw [hh, if_congr hm rfl rfl]
    split
    · next hlt => rw [if_neg fun hp => absurd hp.length_le (Nat.not_le.mpr hlt)]
    · next hge =>
      have hlen : (str.drop (str.length - p.length)).length = p.length := by
        rw [List.length_drop]
        omega
      have hs : same (str.drop (str.length - p.length)) (p ++ [dollar]) p.length ↔ p <:+ str := by
        rw [same, List.take_left, List.take_of_length_le (Nat.le_of_eq hlen),
          List.suffix_iff_eq_drop]
        exact eq_comm
      exact if_congr hs rfl rfl

/-- For another pattern it is taken once for each place. -/
theorem hits_unanchored (ha : ¬ Anchored flt) : hits str flt = (places str flt).length := by
  have hfl : flag flt = .matchPartial := not_not.mp ha
  unfold hits
  simp only [hfl]
  split
  · next hlt =>
    have h0 : str.length - flt.length = 0 := by omega
    rw [places, h0]
    rfl
  · rfl

/-- How often a string is taken. -/
theorem sum_hits (hf : ∀ flt ∈ flts, flt ≠ []) : (flts.map (hits str)).sum =
    (flts.filter fun flt => Anchored flt ∧ Matches str flt).length +
      ((flts.filter fun flt => ¬ Anchored flt).map fun flt => (places str flt).length).sum := by
  induction flts with
  | nil => rfl
  | cons flt flts ih =>
    obtain ⟨h, hf⟩ := List.forall_mem_cons.mp hf
    rw [List.map_cons, List.sum_cons, ih hf]
    by_cases ha : Anchored flt
    · rw [hits_anchored h ha]
      by_cases hm : Matches str flt
      · simp only [ha, hm, and_self, decide_true, List.filter_cons_of_pos, List.length_cons,
          not_true_eq_false, decide_false, Bool.false_eq_true, not_false_eq_true,
          List.filter_cons_of_neg, if_true]
        omega
      · simp [ha, hm]
    · rw [hits_unanchored ha]
      simp only [ha, false_and, decide_false, Bool.false_eq_true, not_false_eq_true,
        List.filter_cons_of_neg, decide_true, List.filter_cons_of_pos, List.map_cons, List.sum_cons]
      omega

/-- A string is taken as often as it should be if and only if nothing comes together. -/
theorem sum_hits_iff (hf : ∀ flt ∈ flts, flt ≠ []) :
    (flts.map (hits str)).sum = (if ∃ flt ∈ flts, Matches str flt then 1 else 0) ↔
      Distinct flts str := by
  have hpos : 0 < (flts.map (hits str)).sum ↔ ∃ flt ∈ flts,
      (Anchored flt ∧ Matches str flt) ∨ (¬ Anchored flt ∧ ∃ j, Near str flt j) := by
    rw [List.sum_pos_iff_exists_pos_nat]
    simp only [List.mem_map, exists_exists_and_eq_and]
    refine exists_congr fun flt => and_congr_right fun hm => ?_
    by_cases ha : Anchored flt
    · simp only [hits_anchored (hf flt hm) ha, ha, true_and, not_true_eq_false, false_and,
        or_false]
      split
      · next h => exact iff_of_true Nat.one_pos h
      · next h => exact iff_of_false (Nat.lt_irrefl 0) h
    · simp only [hits_unanchored ha, ha, false_and, not_false_eq_true, true_and, false_or]
      rw [List.length_pos_iff_exists_mem]
      exact exists_congr fun j => mem_places (hf flt hm)
  rw [sum_hits hf] at hpos ⊢
  constructor
  · intro h
    refine ⟨by split at h <;> omega, fun flt hm ha j hj => ?_, fun flt hm ha hc => ?_⟩
    · by_contra hno
      rw [if_neg hno] at h
      exact absurd (hpos.mpr ⟨flt, hm, .inr ⟨ha, j, hj⟩⟩) (by omega)
    · have hmt : Matches str flt := by
        unfold Matches
        rw [show flag flt = .matchPartial from not_not.mp ha]
        exact hc
      rw [if_pos ⟨flt, hm, hmt⟩] at h
      exact hpos.mp (by omega)
  · intro h
    have hle := h.once
    split
    · next hex =>
      obtain ⟨flt, hm, hmt⟩ := hex
      refine Nat.le_antisymm hle (hpos.mpr ?_)
      by_cases ha : Anchored flt
      · exact ⟨flt, hm, .inl ⟨ha, hmt⟩⟩
      · unfold Matches at hmt
        rw [show flag flt = .matchPartial from not_not.mp ha] at hmt
        exact h.contained flt hm ha hmt
    · next hno =>
      by_contra hne
      obtain ⟨flt, hm, ⟨-, hmt⟩ | ⟨ha, j, hj⟩⟩ := hpos.mp (Nat.pos_of_ne_zero hne)
      · exact hno ⟨flt, hm, hmt⟩
      · exact hno (h.near flt hm ha j hj)

/-- With anchored patterns alone it is enough that a string matches one of them at most. -/
theorem distinct_anchored (ha : ∀ flt ∈ flts, Anchored flt)
    (hm : (flts.filter fun flt => Matches str flt).length ≤ 1) : Distinct flts str := by
  refine ⟨?_, fun flt h hn => absurd (ha flt h) hn, fun flt h hn => absurd (ha flt h) hn⟩
  have h₁ : (flts.filter fun flt => Anchored flt ∧ Matches str flt) =
      flts.filter fun flt => Matches str flt :=
    List.filter_congr fun flt h => by simp [ha flt h]
  have h₂ : (flts.filter fun flt => ¬ Anchored flt) = [] :=
    List.filter_eq_nil_iff.mpr fun flt h => by simp [ha flt h]
  rw [h₁, h₂]
  exact hm

end StringFilter

open StringFilter

namespace Queues

variable {ω : Type}

/-- `filter`; `ret` is where the new queue comes to. -/
def filter (text : ω → List StrChar) (s : Queues ω) (this ret : Nat) :
    Option (List (List StrChar)) → Queues ω
  | none => s.set ret (.empty false)
  | some flts =>
    (s.set ret (.empty false)).insAll ret ((s.queue this).chain.flatMap fun elp1 =>
      flts.flatMap fun flt => List.replicate (hits (text elp1.data) flt) elp1.data)

/-- The data of a queue, in order. -/
def contents (q : LinkedQueue ω) : List ω := q.chain.map QueueElement.data

theorem flatMap_replicate (m : List StrChar → Nat) (d : ω) (flts : List (List StrChar)) :
    (flts.flatMap fun flt => List.replicate (m flt) d) = List.replicate (flts.map m).sum d := by
  induction flts with
  | nil => rfl
  | cons flt flts ih =>
    rw [List.flatMap_cons, ih, List.map_cons, List.sum_cons, List.replicate_append_replicate]

/-- A list in which each element comes again `m` times is the list of those with `p` if and
only if `m` is 1 for them and 0 for the others. -/
theorem flatMap_replicate_eq {m : ω → Nat} {p : ω → Prop} [DecidablePred p] {l : List ω} :
    (l.flatMap fun d => List.replicate (m d) d) = l.filter (fun d => p d) ↔
      ∀ d ∈ l, m d = if p d then 1 else 0 := by
  classical
  have hcount : ∀ (d : ω) (l : List ω),
      (l.flatMap fun d => List.replicate (m d) d).count d = l.count d * m d := by
    intro d l
    induction l with
    | nil => exact (Nat.zero_mul _).symm
    | cons e l ih =>
      rw [List.flatMap_cons, List.count_append, ih, List.count_replicate, List.count_cons]
      by_cases he : e = d
      · subst he
        simp only [beq_self_eq_true, if_true]
        rw [Nat.add_mul, Nat.one_mul, Nat.add_comm]
      · simp [he]
  constructor
  · intro h d hd
    have hc := congrArg (List.count d) h
    rw [hcount] at hc
    have hpos : 0 < l.count d := List.count_pos_iff.mpr hd
    split
    · next hp =>
      rw [List.count_filter (by simpa using hp)] at hc
      exact Nat.eq_of_mul_eq_mul_left hpos (hc.trans (Nat.mul_one _).symm)
    · next hp =>
      have h0 : (l.filter fun d => p d).count d = 0 :=
        List.count_eq_zero_of_not_mem fun hm => hp (by simpa using (List.mem_filter.mp hm).2)
      rw [h0] at hc
      exact (Nat.mul_eq_zero.mp hc).resolve_left (Nat.ne_of_gt hpos)
  · intro h
    induction l with
    | nil => rfl
    | cons e l ih =>
      obtain ⟨he, hl⟩ := List.forall_mem_cons.mp h
      rw [List.flatMap_cons, ih hl, he]
      split
      · next hp => rw [List.filter_cons_of_pos (by simpa using hp)]; rfl
      · next hp => rw [List.filter_cons_of_neg (by simpa using hp)]; rfl

variable {text : ω → List StrChar} {s : Queues ω} {this ret : Nat}
  {flts : List (List StrChar)}

/-- The result is the strings that match, each once and in their order, if and only if for
each string nothing comes together. -/
theorem filter_law (s : Queues ω) (this ret : Nat) (hf : ∀ flt ∈ flts, flt ≠ []) :
    contents ((s.filter text this ret (some flts)).queue ret) =
        (contents (s.queue this)).filter (fun d => ∃ flt ∈ flts, Matches (text d) flt) ↔
      ∀ d ∈ contents (s.queue this), Distinct flts (text d) := by
  obtain ⟨hd, -⟩ := queue_insAll_new s ret ((s.queue this).chain.flatMap fun elp1 =>
    flts.flatMap fun flt => List.replicate (hits (text elp1.data) flt) elp1.data)
  have hc : contents ((s.filter text this ret (some flts)).queue ret) =
      (contents (s.queue this)).flatMap fun d =>
        List.replicate (flts.map (hits (text d))).sum d := by
    refine Eq.trans hd ?_
    rw [contents, List.flatMap_map]
    simp only [flatMap_replicate]
  rw [hc, flatMap_replicate_eq]
  exact forall₂_congr fun d _ => sum_hits_iff hf

/-- "^a" and "c$". -/
def anchors : List (List StrChar) := [StdStringTree.chars [94, 97], StdStringTree.chars [99, 36]]

/-- "a" matches the one, "c" the other. -/
theorem filter_law_anchored :
    contents ((twoQueues.filter strNull 0 2 (some anchors)).queue 2) =
      (contents (twoQueues.queue 0)).filter
        (fun d => ∃ flt ∈ anchors, Matches (strNull d) flt) := by
  refine (filter_law twoQueues 0 2 (by decide)).mpr fun d hd => ?_
  have hall : ∀ d ∈ contents (twoQueues.queue 0),
      (anchors.filter fun flt => Matches (strNull d) flt).length ≤ 1 := by decide +kernel
  exact distinct_anchored (by decide) (hall d hd)

/-- "a" is contained in "a", but there the last place is the only one. -/
theorem filter_misses :
    contents ((twoQueues.filter strNull 0 2 (some [StdStringTree.chars [97]])).queue 2) ≠
      (contents (twoQueues.queue 0)).filter
        (fun d => ∃ flt ∈ [StdStringTree.chars [97]], Matches (strNull d) flt) := by
  decide +kernel

end Queues

end TinyState
