import TinyState.Lib.Caller
import TinyState.Lib.Temporal

/-!
# Callers in fair runs, and their aborts

In a fair run each call returns and its return is taken. An object that launches nothing
after an abort then comes to be over.
-/

namespace Caller

open Transition

variable {σ κ μ ν π : Type} {c : Code σ κ μ ν π} {C : Sys σ μ ν → Act μ ν π → Prop}
  {I : Bool → σ → Prop} {waits : σ → List Nat} {s t : Sys σ μ ν} {a : Act μ ν π} {os tr : List (Obs κ μ ν π)}
  {i : Input μ ν} {q : List (Input μ ν)} {es : List (Effect κ μ)} {r : σ × List (Effect κ μ)} {k n : Nat} {m : μ} {x : κ}

-- ---------------------------------------------------------------------------
-- Fair behaviours
-- ---------------------------------------------------------------------------

theorem Lawful.not_over (hc : Lawful c C I waits) (h : Sound c I waits s) (hk : k ∈ s.opened) :
    c.ended s.obj = false := by
  cases ho : c.ended s.obj with
  | false => rfl
  | true =>
    have hnil := (h.open_.trans (.of_eq (hc.ended s.obj ho))).eq_nil
    rw [hnil] at hk
    cases hk

/-- A call that is open stays open until its return is taken. -/
theorem Lawful.opened_step (hc : Lawful c C I waits) (h : Sound c I waits s) (ha : C s a)
    (hs : c.step s a = some (t, os)) (hk : k ∈ s.opened) :
    (∃ m q, a = .take ∧ s.queue = .ret k m :: q ∧ .took (.ret k m) ∈ os) ∨ k ∈ t.opened := by
  have ht := hc.step h ha hs
  have hw : k ∈ waits s.obj := h.open_.mem_iff.mp hk
  rw [ht.open_.mem_iff]
  cases step_cases hs with
  | told _ ht => exact .inr ((ht.same hc h).2.1 ▸ hw)
  | @took i q hwork hq =>
    by_cases hi : i.returned = some k
    · cases i with
      | ret j m =>
        cases hi
        exact .inl ⟨m, q, rfl, hq, List.mem_cons_self⟩
      | initial => cases hi
      | abort => cases hi
      | note n => cases hi
    · refine .inr ((hc.fits h ha hq hwork).2.waits.mem_iff.mpr (List.mem_append_left _ ?_))
      unfold Input.settle
      cases hr : i.returned with
      | none => exact hw
      | some j =>
        refine (List.mem_erase_of_ne ?_).mpr hw
        rintro rfl
        exact hi hr
  | worked hr =>
    exact .inr ((hc.worked h ha hr).2.2.waits.mem_iff.mpr (List.mem_append_left _ hw))

theorem take_head (hs : c.step s .take = some (t, os)) :
    ∃ i q, s.queue = i :: q ∧ .took i ∈ os := by
  cases step_cases hs with
  | told h _ => exact absurd rfl h
  | took _ hq => exact ⟨_, _, hq, List.mem_cons_self⟩

/-- When nothing is launched the open calls get fewer by those whose return is taken. -/
theorem Lawful.opened_length (hc : Lawful c C I waits) (h : Sound c I waits s) (ha : C s a)
    (hs : c.step s a = some (t, os)) (hn : t.started = s.started) :
    t.opened.length ≤ s.opened.length ∧
      ∀ k m, .took (.ret k m) ∈ os → t.opened.length < s.opened.length := by
  have ht := hc.step h ha hs
  rw [ht.open_.length_eq, h.open_.length_eq]
  cases step_cases hs with
  | told _ ht =>
    exact ⟨by rw [(ht.same hc h).2.1], fun k m h => absurd h (ht.not_mem nofun nofun)⟩
  | @took i q hwork hq =>
    have hp := (hc.fits h ha hq hwork).2.waits
    rw [launches_of_started hn, List.range'_zero, List.append_nil] at hp
    refine ⟨hp.length_eq.trans_le ?_, fun k m hm => ?_⟩
    · unfold Input.settle
      cases i.returned with
      | none => exact Nat.le_refl _
      | some k => exact List.length_erase_le
    · obtain rfl := (List.mem_cons.mp hm).resolve_right took_observe |> Obs.took.inj
      refine hp.length_eq.trans_lt ?_
      have hlen := List.length_erase_of_mem (h.mem hq)
      have hpos := List.length_pos_of_mem (h.mem hq)
      simp only [Input.settle, Input.returned, Option.elim_some]
      omega
  | worked hr =>
    have hp := (hc.worked h ha hr).2.2.waits
    rw [launches_of_started hn, List.range'_zero, List.append_nil] at hp
    exact ⟨hp.length_eq.le, fun k m h => absurd h took_observe⟩

/-- The queue loses its head when that is taken, and grows at the other end. -/
theorem queue_step (hs : c.step s a = some (t, os)) (ho : c.ended t.obj = false) :
    (∃ i, a = .take ∧ s.queue = i :: t.queue ∧ .took i ∈ os) ∨ a ≠ .take ∧ s.queue <+: t.queue := by
  cases step_cases hs with
  | told ha ht => exact .inr ⟨ha, ht.queue ho⟩
  | took hwork hq => exact .inl ⟨_, rfl, by rw [hq, perform_queue ho], List.mem_cons_self⟩
  | worked hr =>
    refine .inr ⟨nofun, [], ?_⟩
    rw [List.append_nil, perform_queue ho]

/-- Calls return, and the object comes to take what is in its queue. -/
structure Fair (b : c.machine.Behavior) : Prop where
  returns : ∀ n, ∀ k ∈ (b.state n).running, ∃ m, n ≤ m ∧ ∃ r, b.act m = .ret k r
  takes : ∀ n, (b.state n).queue ≠ [] → ∃ m, n ≤ m ∧ b.act m = .take

section Behaviors

variable {b : c.machine.Behavior}

theorem Lawful.behavior (hc : Lawful c C I waits) (hC : ∀ n, C (b.state n) (b.act n)) (n : Nat) :
    Sound c I waits (b.state n) :=
  hc.run (b.runIf hC n)

/-- What is in the queue is taken. -/
theorem Fair.taken_queued (hb : Fair b) (hc : Lawful c C I waits)
    (hC : ∀ n, C (b.state n) (b.act n)) {before after : List (Input μ ν)}
    (hq : (b.state n).queue = before ++ Input.ret k m :: after) :
    ∃ j, n ≤ j ∧ .took (.ret k m) ∈ b.obs j := by
  -- the rank is the number of those in front of it
  refine eventually_of_rank (R := fun r n => ∃ before after, before.length = r ∧
    (b.state n).queue = before ++ Input.ret k m :: after) (fun r n hn => ?_) _ n
    ⟨before, after, rfl, hq⟩
  obtain ⟨before, after, rfl, hq⟩ := hn
  let Waits j := before ++ [Input.ret k m] <+: (b.state j).queue
  have hopen : ∀ j, Waits j → k ∈ (b.state j).opened := fun j hj =>
    List.mem_append_right _ (List.mem_filterMap.mpr ⟨_, hj.subset (List.mem_append_right _
      (List.mem_singleton_self _)), rfl⟩)
  have hstep : ∀ j, Waits j → (b.act j = .take ∧ Waits j) ∨ Waits (j + 1) := by
    intro j hj
    by_cases ht : b.act j = .take
    · exact .inl ⟨ht, hj⟩
    · right
      rcases hc.opened_step (hc.behavior hC j) (hC j) (b.next j) (hopen j hj) with
        ⟨_, _, ha, -⟩ | hk
      · exact absurd ha ht
      · rcases queue_step (b.next j) (hc.not_over (hc.behavior hC (j + 1)) hk) with
          ⟨_, ha, -⟩ | ⟨-, hpre⟩
        · exact absurd ha ht
        · exact hj.trans hpre
  have hn : Waits n := ⟨after, by rw [hq, List.append_assoc]; rfl⟩
  obtain ⟨l, hl, htake⟩ := hb.takes n (by rw [hq]; exact List.append_ne_nil_of_right_ne_nil _ nofun)
  obtain ⟨j, hj, hact, after, hq⟩ : ∃ j, n ≤ j ∧ b.act j = .take ∧ Waits j := by
    rcases unless_until hstep hn hl with ⟨j, hj, hact, hw⟩ | hw
    · exact ⟨j, hj, hact, hw⟩
    · exact ⟨l, hl, htake, hw⟩
  cases before with
  | nil =>
    obtain ⟨i, q, hhead, htook⟩ := take_head (hact ▸ b.next j)
    obtain rfl : .ret k m = i := (List.cons.inj (hq.trans hhead)).1
    exact ⟨j, hj, .inl htook⟩
  | cons i before =>
    rcases hc.opened_step (hc.behavior hC j) (hC j) (b.next j) (hopen j ⟨after, hq⟩) with
      ⟨m', q, -, hhead, -⟩ | hk
    · -- the call cannot be in the queue twice
      obtain ⟨rfl, -⟩ := List.cons.inj (hq.trans hhead)
      have hnd := (hc.behavior hC j).nodup
      rw [Sys.opened, ← hq] at hnd
      have htwice := (List.nodup_append.mp hnd).2.1
      simp [Input.returned] at htwice
    · rcases queue_step (b.next j) (hc.not_over (hc.behavior hC (j + 1)) hk) with
        ⟨i', -, hhead, -⟩ | ⟨ha, -⟩
      · obtain ⟨-, htail⟩ := List.cons.inj (hq.trans hhead)
        exact ⟨j + 1, Nat.le_succ_of_le hj, .inr ⟨before.length, Nat.lt_succ_self _, before, after,
          rfl, htail.symm.trans (List.append_assoc before [_] after)⟩⟩
      · exact absurd hact ha

/-- A call that is open returns, and its return is taken. -/
theorem Fair.taken (hb : Fair b) (hc : Lawful c C I waits) (hC : ∀ n, C (b.state n) (b.act n))
    (hk : k ∈ (b.state n).opened) : ∃ j, n ≤ j ∧ ∃ m, .took (.ret k m) ∈ b.obs j := by
  rcases List.mem_append.mp hk with hk | hk
  · obtain ⟨j, hj, m, hact⟩ := hb.returns n k hk
    have hnext := b.next j
    rw [hact] at hnext
    obtain ⟨hrun, he⟩ := Option.ite_none_right_eq_some.mp hnext
    have ho := hc.not_over (hc.behavior hC j) (List.mem_append_left _ hrun)
    have hq : (b.state (j + 1)).queue = (b.state j).queue ++ Input.ret k m :: [] := by
      have hst := congrArg (fun r => r.1.queue) (Option.some.inj he)
      exact hst.symm.trans (push_queue ho)
    obtain ⟨l, hl, ht⟩ := hb.taken_queued hc hC hq
    exact ⟨l, Nat.le_trans hj (Nat.le_of_succ_le hl), m, ht⟩
  · obtain ⟨i, hi, hr⟩ := List.mem_filterMap.mp hk
    obtain ⟨before, after, hq⟩ := List.append_of_mem hi
    cases i with
    | ret j m =>
      cases hr
      obtain ⟨l, hl, ht⟩ := hb.taken_queued hc hC hq
      exact ⟨l, hl, m, ht⟩
    | initial => cases hr
    | abort => cases hr
    | note n => cases hr

/-- When no more calls are launched, there comes a time when the object waits for none. -/
theorem Fair.closes (hb : Fair b) (hc : Lawful c C I waits) (hC : ∀ n, C (b.state n) (b.act n))
    (hstop : ∀ j, n ≤ j → (b.state (j + 1)).started = (b.state j).started) :
    ∃ j, n ≤ j ∧ waits (b.state j).obj = [] := by
  have hlen := fun j hj => hc.opened_length (hc.behavior hC j) (hC j) (b.next j) (hstop j hj)
  refine eventually_of_rank (R := fun r j => n ≤ j ∧ (b.state j).opened.length = r)
    (fun r j hj => ?_) _ n ⟨Nat.le_refl n, rfl⟩
  obtain ⟨hj, rfl⟩ := hj
  cases ho : (b.state j).opened with
  | nil => exact ⟨j, Nat.le_refl j, .inl (ho ▸ (hc.behavior hC j).open_.symm).eq_nil⟩
  | cons k rest =>
    obtain ⟨l, hl, m, htook⟩ := hb.taken (n := j) hc hC (by rw [ho]; exact List.mem_cons_self)
    have hmono : (b.state l).opened.length ≤ (b.state j).opened.length := by
      clear htook
      induction l, hl using Nat.le_induction with
      | base => exact Nat.le_refl _
      | succ l hl ih => exact Nat.le_trans (hlen l (Nat.le_trans hj hl)).1 ih
    have hlt := (hlen l (Nat.le_trans hj hl)).2 k m htook
    refine ⟨l + 1, Nat.le_succ_of_le hl, .inr ⟨_, ?_, Nat.le_succ_of_le (Nat.le_trans hj hl), rfl⟩⟩
    rw [← ho]
    omega

end Behaviors

-- ---------------------------------------------------------------------------
-- Aborts
-- ---------------------------------------------------------------------------

/-- After an abort nothing is launched; the result is sent once, and has been sent by the
time at which nothing is running and nothing is in the queue. -/
structure AbortLaw (tr : List (Obs κ μ ν π)) (s : Sys σ μ ν) : Prop where
  stops : ∀ before k x after, tr = before ++ .launched k x :: after → .took .abort ∉ before
  once : (tr.filterMap Obs.sent?).length ≤ 1
  answers : .took .abort ∈ tr → s.running = [] → s.queue = [] →
    (tr.filterMap Obs.sent?).length = 1

/-- In all runs whose steps satisfy `C` aborts are kept, and in those that are fair they
are answered. -/
def KeepsAborts (c : Code σ κ μ ν π) (C : Sys σ μ ν → Act μ ν π → Prop) : Prop :=
  (∀ tr s, c.machine.RunIf C tr s → AbortLaw tr s) ∧
  ∀ b : c.machine.Behavior, Fair b → (∀ n, C (b.state n) (b.act n)) →
    ∀ n, .took .abort ∈ b.obs n → ∃ j m, .sent m ∈ b.obs j

/-- An object that does all its work at once, is over when it waits for nothing, and
launches nothing after an abort. -/
structure Heeds (c : Code σ κ μ ν π) (C : Sys σ μ ν → Act μ ν π → Prop) (I : Bool → σ → Prop)
    (waits : σ → List Nat) : Prop where
  lawful : Lawful c C I waits
  atOnce : ∀ n obj, c.work n obj = none
  idle : ∀ ab obj, I ab obj → waits obj = [] → c.ended obj = true
  stops : ∀ s i q, Sound c I waits s → I s.aborted s.obj → i ≠ .initial → s.queue = i :: q →
    C s .take → (s.aborted || i.isAbort) = true → launches (c.handle s.started s.obj i).2 = 0

theorem took_abort : .took .abort ∈ (.took i :: observe n es : List (Obs κ μ ν π)) ↔
    i.isAbort = true := by
  rw [List.mem_cons, or_iff_left took_observe]
  cases i <;> simp [Input.isAbort]

theorem heard_step (h : .took .abort ∈ tr ↔ s.aborted = true) (hs : c.step s a = some (t, os)) :
    .took .abort ∈ tr ++ os ↔ t.aborted = true := by
  rw [List.mem_append, h]
  cases step_cases hs with
  | told _ ht => rw [ht.aborted, or_iff_left (ht.not_mem (o := .took .abort) nofun nofun)]
  | took hwork hq =>
    rw [took_abort]
    exact (Bool.or_eq_true _ _).to_iff.symm
  | worked hr => exact or_iff_left took_observe

/-- The object has been aborted just when it has taken an abort. -/
theorem heard_run (h : c.machine.RunIf C tr s) : .took .abort ∈ tr ↔ s.aborted = true := by
  refine h.invariant (I := fun tr s => .took .abort ∈ tr ↔ s.aborted = true) ?start ?step
  case start =>
    rintro s rfl
    exact ⟨nofun, nofun⟩
  case step =>
    rintro tr s a t os - h - hs
    exact heard_step h hs

/-- What the aborts that have been taken come to. -/
structure Heard (c : Code σ κ μ ν π) (I : Bool → σ → Prop) (waits : σ → List Nat)
    (tr : List (Obs κ μ ν π)) (s : Sys σ μ ν) : Prop where
  sound : Sound c I waits s
  heard : .took .abort ∈ tr ↔ s.aborted = true
  stops : ∀ before k x after, tr = before ++ .launched k x :: after → .took .abort ∉ before

/-- An abort is not the first thing that is taken. -/
theorem Heeds.launches_eq (hc : Heeds c C I waits) (h : Sound c I waits s) (hq : s.queue = i :: q)
    (ha : C s .take) (hab : (s.aborted || i.isAbort) = true) :
    launches (c.handle s.started s.obj i).2 = 0 := by
  rcases h.begun with rfl | ⟨hni, hi⟩
  · obtain ⟨rfl, -⟩ := List.cons.inj hq
    cases hab
  · refine hc.stops s i q h hi ?_ hq ha hab
    rintro rfl
    exact hni (hq ▸ List.mem_cons_self)

theorem Heeds.step (hc : Heeds c C I waits) (h : Heard c I waits tr s) (ha : C s a)
    (hs : c.step s a = some (t, os)) : Heard c I waits (tr ++ os) t := by
  have hsound := hc.lawful.step h.sound ha hs
  refine ⟨hsound, heard_step h.heard hs, fun before k x after he => ?_⟩
  cases step_cases hs with
  | told _ ht =>
    rcases Machine.append_eq_cons he with ⟨mid, htr, -⟩ | ⟨mid, hos, -⟩
    · exact h.stops before k x mid htr
    · exact absurd (hos ▸ List.mem_append_right _ List.mem_cons_self)
        (ht.not_mem (o := .launched k x) nofun nofun)
  | @took i q hwork hq =>
    rcases Machine.append_eq_cons he with ⟨mid, htr, -⟩ | ⟨mid, hos, rfl⟩
    · exact h.stops before k x mid htr
    · have hlaunch : launches (c.handle s.started s.obj i).2 ≠ 0 := by
        have hmem : .launched k x ∈ (.took i :: observe s.started (c.handle s.started s.obj i).2 :
            List (Obs κ μ ν π)) := hos ▸ List.mem_append_right _ List.mem_cons_self
        exact launched_observe ((List.mem_cons.mp hmem).resolve_left nofun)
      have hnone : ¬ (s.aborted || i.isAbort) = true := fun hab =>
        hlaunch (hc.launches_eq h.sound hq ha hab)
      rw [Bool.or_eq_true, not_or] at hnone
      intro hmem
      rcases List.mem_append.mp hmem with hmem | hmem
      · exact hnone.1 (h.heard.mp hmem)
      · exact hnone.2 (took_abort.mp (hos ▸ List.mem_append_left _ hmem))
  | worked hr =>
    rw [hc.atOnce] at hr
    cases hr

theorem Heeds.run (hc : Heeds c C I waits) (h : c.machine.RunIf C tr s) : Heard c I waits tr s := by
  refine h.invariant (I := Heard c I waits) ?start ?step
  case start =>
    rintro s rfl
    exact ⟨.initial hc.lawful, ⟨nofun, nofun⟩,
      fun _ _ _ _ h => absurd h.symm (List.append_ne_nil_of_right_ne_nil _ nofun)⟩
  case step =>
    rintro tr s a t os - h ha hs
    exact hc.step h ha hs

theorem Heeds.started (hc : Heeds c C I waits) (h : Sound c I waits s) (ha : C s a)
    (hs : c.step s a = some (t, os)) (hab : s.aborted = true) :
    t.aborted = true ∧ t.started = s.started := by
  cases step_cases hs with
  | told _ ht => exact ⟨ht.aborted.trans hab, ht.started⟩
  | took hwork hq =>
    have hstop := hc.launches_eq h hq ha (by rw [hab]; rfl)
    exact ⟨by simp [Code.perform, hab], by simp [Code.perform, hstop]⟩
  | worked hr =>
    rw [hc.atOnce] at hr
    cases hr

/-- An object that has taken an abort has been made. -/
theorem Sound.made (h : Sound c I waits s) (hab : s.aborted = true) : I s.aborted s.obj := by
  rcases h.begun with rfl | ⟨-, hi⟩
  · cases hab
  · exact hi

theorem exists_sent {b : c.machine.Behavior} (h : (b.trace n).filterMap Obs.sent? ≠ []) :
    ∃ j m, .sent m ∈ b.obs j := by
  obtain ⟨m, hm⟩ := List.exists_mem_of_ne_nil _ h
  obtain ⟨o, ho, he⟩ := List.mem_filterMap.mp hm
  obtain ⟨j, -, hj⟩ := b.exists_obs ho
  cases o with
  | sent m => exact ⟨j, m, hj⟩
  | took i => cases he
  | launched k x => cases he
  | forwarded k => cases he
  | returned k m => cases he
  | poked p => cases he

theorem Heeds.keepsAborts (hc : Heeds c C I waits) : KeepsAborts c C := by
  refine ⟨fun tr s h => ?_, fun b hb hC n hn => ?_⟩
  · have hsent := hc.lawful.sent h
    have hheard := hc.run h
    refine ⟨hheard.stops, ?_, fun htook hrun hq => ?_⟩
    · rw [hsent]
      exact Bool.toNat_le _
    · have hnil : s.opened = [] := by
        rw [Sys.opened, hrun, hq]
        rfl
      have hw := (hnil ▸ hheard.sound.open_.symm).eq_nil
      rw [hsent, hc.idle _ _ (hheard.sound.made (hheard.heard.mp htook)) hw]
      rfl
  · have hheard := fun j => hc.run (b.runIf hC j)
    have hab : ∀ j, n + 1 ≤ j → (b.state j).aborted = true := by
      intro j hj
      induction j, hj using Nat.le_induction with
      | base => exact (hheard (n + 1)).heard.mp (List.mem_append_right _ hn)
      | succ j hj ih => exact (hc.started (hheard j).sound (hC j) (b.next j) ih).1
    obtain ⟨j, hj, hw⟩ := hb.closes (n := n + 1) hc.lawful hC fun j hj =>
      (hc.started (hheard j).sound (hC j) (b.next j) (hab j hj)).2
    have hsent := hc.lawful.sent (b.runIf hC j)
    rw [hc.idle _ _ ((hheard j).sound.made (hab j hj)) hw] at hsent
    refine exists_sent (n := j) fun hnil => ?_
    rw [hnil] at hsent
    cases hsent

-- ---------------------------------------------------------------------------
-- One call after another
-- ---------------------------------------------------------------------------

/-- The object goes on with a new call, and that alone, or is over. -/
inductive Turn (c : Code σ κ μ ν π) (waits : σ → List Nat) (n : Nat)
    (r : σ × List (Effect κ μ)) : Prop
  | calls : waits r.1 = [n] → c.ended r.1 = false → launches r.2 = 1 →
      r.2.countP Effect.isSend = 0 → Turn c waits n r
  | ends : waits r.1 = [] → c.ended r.1 = true → launches r.2 = 0 →
      r.2.countP Effect.isSend = 1 → Turn c waits n r

theorem launches_forward {l : List Nat} : launches (l.map .forward : List (Effect κ μ)) = 0 := by
  simp [launches, List.countP_eq_zero, Effect.isLaunch]

theorem sends_forward {l : List Nat} :
    (l.map .forward : List (Effect κ μ)).countP Effect.isSend = 0 := by
  simp [List.countP_eq_zero, Effect.isSend]

/-- An object that has one call running at a time: the return of the call is its turn, and
nothing else is. `R` is what it remembers of an abort. -/
structure Serial (c : Code σ κ μ ν π) (C : Sys σ μ ν → Act μ ν π → Prop)
    (R : Bool → σ → Prop) (waits : σ → List Nat) : Prop where
  start : c.ended c.start = false ∧ waits c.start = []
  atOnce : ∀ n obj, c.work n obj = none
  unpoked : ∀ l obj p, c.poke l obj p = none
  ended : ∀ obj, c.ended obj = true → waits obj = []
  first : R false (c.handle 0 c.start .initial).1 ∧ Turn c waits 0 (c.handle 0 c.start .initial)
  ret : ∀ s k m q, waits s.obj = [k] → R s.aborted s.obj → s.queue = .ret k m :: q → C s .take →
    R s.aborted (c.handle s.started s.obj (.ret k m)).1 ∧
      Turn c waits s.started (c.handle s.started s.obj (.ret k m)) ∧
      (s.aborted = true → launches (c.handle s.started s.obj (.ret k m)).2 = 0)
  other : ∀ ab n obj i, waits obj ≠ [] → R ab obj → i.returned = none →
    R (ab || i.isAbort) (c.handle n obj i).1 ∧
      waits (c.handle n obj i).1 = waits obj ∧ c.ended (c.handle n obj i).1 = false ∧
      launches (c.handle n obj i).2 = 0 ∧ (c.handle n obj i).2.countP Effect.isSend = 0

/-- One call is running, or the object is over. -/
def Busy (c : Code σ κ μ ν π) (R : Bool → σ → Prop) (waits : σ → List Nat) (ab : Bool) (obj : σ) :
    Prop :=
  R ab obj ∧ ((∃ k, waits obj = [k]) ∨ c.ended obj = true)

variable {R : Bool → σ → Prop} {ab : Bool}

theorem Turn.fits (h : Turn c waits n r) (hr : R ab r.1) :
    Fits c (Busy c R waits) waits ab n [] r := by
  cases h with
  | calls hw ho hl hs =>
    exact ⟨⟨hr, .inl ⟨n, hw⟩⟩, by rw [hw, hl]; exact .refl _, by rw [hs, ho]; rfl⟩
  | ends hw ho hl hs =>
    exact ⟨⟨hr, .inr ho⟩, by rw [hw, hl]; exact .refl _, by rw [hs, ho]; rfl⟩

theorem Serial.heeds (hc : Serial c C R waits) : Heeds c C (Busy c R waits) waits where
  lawful :=
    { start := ⟨hc.start.1, hc.start.2, hc.atOnce _ _⟩
      ended := hc.ended
      first := fun _ => hc.first.2.fits hc.first.1
      handle := by
        intro s i q h hi hover _ hq ha _
        obtain ⟨k, hk⟩ := hi.2.resolve_right (Bool.eq_false_iff.mp hover)
        cases hr : i.returned with
        | none =>
          obtain ⟨hrem, hw, ho, hl, hs⟩ :=
            hc.other s.aborted s.started s.obj i (by rw [hk]; nofun) hi.1 hr
          refine ⟨⟨hrem, .inl ⟨k, hw.trans hk⟩⟩, ?_, by rw [hs, ho]; rfl⟩
          rw [hw, hl, Input.settle, hr]
          exact .of_eq (List.append_nil _).symm
        | some j =>
          cases i with
          | ret j m =>
            obtain rfl : j = k := List.mem_singleton.mp (hk ▸ h.mem hq)
            obtain ⟨hrem, hturn, -⟩ := hc.ret s j m q hk hi.1 hq ha
            have hf := hturn.fits hrem
            rw [hk]
            simpa [Input.settle, Input.returned, Input.isAbort] using hf
          | initial => cases hr
          | abort => cases hr
          | note n => cases hr
      work := fun s r _ _ _ hr => by
        rw [hc.atOnce] at hr
        cases hr
      poke := fun ab l obj p obj' ns _ hp => by
        rw [hc.unpoked] at hp
        cases hp }
  atOnce := hc.atOnce
  idle ab obj hi hw := by
    refine hi.2.resolve_left ?_
    rintro ⟨k, hk⟩
    rw [hw] at hk
    cases hk
  stops := by
    intro s i q h hi _ hq ha hab
    obtain ⟨k, hk⟩ := hi.2.resolve_right (Bool.eq_false_iff.mp (h.not_over hq))
    have hne : waits s.obj ≠ [] := by
      rw [hk]
      nofun
    cases i with
    | ret j m =>
      obtain rfl : j = k := List.mem_singleton.mp (hk ▸ h.mem hq)
      have haborted : (s.aborted || false) = true := hab
      rw [Bool.or_false] at haborted
      exact (hc.ret s j m q hk hi.1 hq ha).2.2 haborted
    | initial => exact (hc.other _ _ _ _ hne hi.1 rfl).2.2.2.1
    | abort => exact (hc.other _ _ _ _ hne hi.1 rfl).2.2.2.1
    | note n => exact (hc.other _ _ _ _ hne hi.1 rfl).2.2.2.1

theorem Serial.keepsAborts (hc : Serial c C R waits) : KeepsAborts c C := hc.heeds.keepsAborts

end Caller
