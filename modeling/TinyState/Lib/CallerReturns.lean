import TinyState.Lib.CallerAborts

/-!
# What calls have returned

Each call returns once, so that a run tells what it has returned.
-/

namespace Caller

open Transition

variable {σ κ μ ν π : Type} {c : Code σ κ μ ν π} {C : Sys σ μ ν → Act μ ν π → Prop}
  {I : Bool → σ → Prop} {waits : σ → List Nat} {s t : Sys σ μ ν} {a : Act μ ν π}
  {os tr : List (Obs κ μ ν π)} {i : Input μ ν} {es : List (Effect κ μ)} {j k n : Nat} {m : μ}

def Obs.returnOf (k : Nat) : Obs κ μ ν π → Option μ
  | returned j m => if j = k then some m else none
  | _ => none

/-- What the call `k` has returned. -/
def returnOf (tr : List (Obs κ μ ν π)) (k : Nat) : Option μ := tr.findSome? (Obs.returnOf k)

theorem returnOf_append (tr os : List (Obs κ μ ν π)) (k : Nat) :
    returnOf (tr ++ os) k = (returnOf tr k).or (returnOf os k) := List.findSome?_append

theorem returnOf_append_of_some (h : returnOf tr k = some m) : returnOf (tr ++ os) k = some m := by
  rw [returnOf_append, h]
  rfl

theorem returnOf_returned :
    returnOf [(.returned k m : Obs κ μ ν π)] j = if k = j then some m else none := by
  unfold returnOf Obs.returnOf
  rw [List.findSome?_singleton]

theorem returnOf_observe : ∀ {n}, returnOf (observe n es : List (Obs κ μ ν π)) k = none := by
  induction es with
  | nil => exact rfl
  | cons e es ih =>
    intro n
    cases e with
    | launch x => exact ih
    | forward k => exact ih
    | send m => exact ih

theorem sent_mem_observe (h : .sent m ∈ (observe n es : List (Obs κ μ ν π))) :
    es.countP Effect.isSend ≠ 0 := by
  rw [← sent_observe (n := n) (ν := ν) (π := π)]
  refine List.length_pos_of_mem (a := m) ?_ |>.ne'
  exact List.mem_filterMap.mpr ⟨_, h, rfl⟩

/-- What is running has not returned, and the queue holds what has been returned. -/
structure Returns (tr : List (Obs κ μ ν π)) (s : Sys σ μ ν) : Prop where
  running : ∀ k ∈ s.running, returnOf tr k = none
  fresh : ∀ k, s.started ≤ k → returnOf tr k = none
  queued : ∀ k m, .ret k m ∈ s.queue → returnOf tr k = some m

theorem Returns.push (h : Returns tr s) (hi : i.returned = none) :
    Returns (tr ++ []) (c.push s i) := by
  rw [List.append_nil]
  unfold Code.push
  split
  · exact h
  · refine ⟨h.running, h.fresh, fun k m hm => ?_⟩
    rcases List.mem_append.mp hm with hm | hm
    · exact h.queued k m hm
    · cases List.mem_singleton.mp hm
      cases hi

theorem Returns.ret (h : Returns tr s) (hn : s.running.Nodup) (hlt : ∀ j ∈ s.running, j < s.started)
    (hk : k ∈ s.running) (m : μ) : Returns (tr ++ [Obs.returned k m])
      (c.push { s with running := s.running.erase k } (.ret k m)) := by
  have hself : returnOf (tr ++ [Obs.returned k m]) k = some m := by
    rw [returnOf_append, h.running k hk, returnOf_returned, if_pos rfl]
    rfl
  have hother {j : Nat} (hj : j ≠ k) : returnOf (tr ++ [Obs.returned k m]) j = returnOf tr j := by
    rw [returnOf_append, returnOf_returned, if_neg (Ne.symm hj), Option.or_none]
  have hrunning : ∀ j ∈ s.running.erase k, returnOf (tr ++ [Obs.returned k m]) j = none := by
    intro j hj
    obtain ⟨hne, hj⟩ := hn.mem_erase_iff.mp hj
    exact (hother hne).trans (h.running j hj)
  have hfresh : ∀ j, s.started ≤ j → returnOf (tr ++ [Obs.returned k m]) j = none := by
    intro j hj
    refine (hother ?_).trans (h.fresh j hj)
    rintro rfl
    exact absurd (hlt j hk) (Nat.not_lt.mpr hj)
  have hqueued : ∀ j n, .ret j n ∈ s.queue → returnOf (tr ++ [Obs.returned k m]) j = some n :=
    fun j n hm => returnOf_append_of_some (h.queued j n hm)
  unfold Code.push
  split
  · exact ⟨hrunning, hfresh, hqueued⟩
  · refine ⟨hrunning, hfresh, fun j n hm => ?_⟩
    rcases List.mem_append.mp hm with hm | hm
    · exact hqueued j n hm
    · cases List.mem_singleton.mp hm
      exact hself

theorem Returns.perform {r : σ × List (Effect κ μ)} (h : Returns tr s)
    (hos : ∀ k, returnOf os k = none) : Returns (tr ++ os) (c.perform s r) := by
  have hsame (k : Nat) : returnOf (tr ++ os) k = returnOf tr k := by
    rw [returnOf_append, hos, Option.or_none]
  refine ⟨fun k hk => ?_, fun k hk => ?_, fun k m hm => ?_⟩
  · rw [hsame]
    rcases List.mem_append.mp hk with hk | hk
    · exact h.running k hk
    · exact h.fresh k (List.mem_range'_1.mp hk).1
  · rw [hsame]
    exact h.fresh k (Nat.le_trans (Nat.le_add_right ..) hk)
  · rw [hsame]
    simp only [Code.perform] at hm
    split at hm
    · cases hm
    · exact h.queued k m hm

theorem Sound.returns_step (hs : Sound c I waits s) (h : Returns tr s)
    (hstep : c.step s a = some (t, os)) : Returns (tr ++ os) t := by
  have hn : s.running.Nodup := (List.nodup_append.mp hs.nodup).1
  have hlt : ∀ j ∈ s.running, j < s.started := fun j hj => hs.lt j (List.mem_append_left _ hj)
  cases a with
  | abort =>
    obtain ⟨-, he⟩ := Option.ite_none_right_eq_some.mp hstep
    cases he
    exact h.push rfl
  | note n =>
    obtain ⟨-, he⟩ := Option.ite_none_right_eq_some.mp hstep
    cases he
    exact h.push rfl
  | ret k m =>
    obtain ⟨hk, he⟩ := Option.ite_none_right_eq_some.mp hstep
    cases he
    exact h.ret hn hlt hk m
  | poke p =>
    simp only [Code.step] at hstep
    split at hstep
    · next obj ns _ _ =>
      cases hstep
      have hsame (k : Nat) : returnOf (tr ++ [Obs.poked p]) k = returnOf tr k := by
        rw [returnOf_append, show returnOf [.poked p] k = none from rfl, Option.or_none]
      refine ⟨fun k hk => ?_, fun k hk => ?_, fun k m hm => ?_⟩
      · exact (hsame k).trans (h.running k hk)
      · exact (hsame k).trans (h.fresh k hk)
      · refine (hsame k).trans (h.queued k m ?_)
        dsimp only at hm
        split at hm
        · cases hm
        · simpa using hm
    · cases hstep
  | take =>
    cases step_cases hstep with
    | told hne _ => exact absurd rfl hne
    | @took i q hwork hq =>
      have htail : Returns tr { s with queue := q, aborted := s.aborted || i.isAbort } :=
        ⟨h.running, h.fresh, fun k m hm => h.queued k m (hq ▸ List.mem_cons_of_mem _ hm)⟩
      exact htail.perform fun k => returnOf_observe
  | go =>
    simp only [Code.step] at hstep
    split at hstep
    · cases hstep
    · cases hstep
      exact h.perform fun k => returnOf_observe

/-- A run of an object that keeps account of its calls tells what they have returned. -/
theorem Lawful.returns (hc : Lawful c C I waits) (h : c.machine.RunIf C tr s) : Returns tr s := by
  refine h.invariant (I := Returns) ?start ?step
  case start =>
    rintro s rfl
    exact ⟨nofun, fun _ _ => rfl, nofun⟩
  case step =>
    intro tr s a t os hr h _ hs
    exact (hc.run hr).returns_step h hs

/-- A call that is running still is, or has returned at the end of the queue. -/
theorem running_or_returned {more : List (Input μ ν)} (hn : s.opened.Nodup)
    (hp : t.opened.Perm s.opened) (hq : t.queue = s.queue ++ more) (hk : k ∈ s.running) :
    k ∈ t.running ∨ ∃ m, .ret k m ∈ more := by
  rcases List.mem_append.mp (hp.mem_iff.mpr (List.mem_append_left _ hk)) with hk' | hk'
  · exact .inl hk'
  · obtain ⟨i, hi, hr⟩ := List.mem_filterMap.mp hk'
    cases i with
    | ret j m =>
      cases hr
      rw [hq] at hi
      refine .inr ⟨m, (List.mem_append.mp hi).resolve_left fun hi => ?_⟩
      have hqueued : k ∈ s.queue.filterMap Input.returned := List.mem_filterMap.mpr ⟨_, hi, rfl⟩
      exact absurd rfl ((List.nodup_append.mp hn).2.2 k hk k hqueued)
    | initial => cases hr
    | abort => cases hr
    | note n => cases hr

/-- The return that is taken is what the call has returned. -/
theorem Returns.taken (h : Returns tr s) {q : List (Input μ ν)} (hq : s.queue = .ret k m :: q) :
    returnOf tr k = some m := h.queued k m (hq ▸ List.mem_cons_self)

end Caller
