import TinyState.Dispatch.EventQueue
import TinyState.Lib.Temporal

/-!
# No wakeup is lost

An event in the queue of an object that is alive is taken out of it in the
end. The owner of the object brings this about: its `rank` falls on the way to
the next `_delEvent`. Two things are asked of the surroundings: threads go on,
with the filter and the state functions returning; and no loop over `rDO` goes
on for ever.
-/

namespace TinyState

open Transition

/-- In the loop over `rDO`. -/
def Pc.evaluating : Pc → Bool
  | .eval _ | .callState _ | .inState _ | .callThread _ | .inThread _ | .back .. | .result .. => true
  | _ => false

/-- How far an owner is from the next `_delEvent`. The loop over `rDO` counts
as one place. -/
def Pc.rank : Pc → Nat
  | .next => 1
  | .drain => 2
  | .eval _ | .callState _ | .inState _ | .callThread _ | .inThread _ | .back .. | .result .. => 3
  | .filtered _ => 4
  | .filtering _ => 5
  | .filterLock _ => 6
  | _ => 0

theorem Pc.rank_of_evaluating {p : Pc} (h : p.evaluating = true) : p.rank = 3 := by
  cases p <;> first | rfl | cases h

theorem Pc.rank_ne_three {p : Pc} (h : p.evaluating = false) : p.rank ≠ 3 := by
  cases p <;> simp_all [rank, evaluating]

/-- The surroundings of the object do their part in an infinite run. -/
structure Proceeds {ι : Type} [DecidableEq ι] {T : StateTable} (b : (Dispatch ι T).Behavior) : Prop where
  /-- The thread of the owner goes on; what it calls returns. -/
  moves : ∀ n c k, (b.state n).calls c = some k → k.pc.owns = true →
    ∃ m, n ≤ m ∧ ∃ a, b.act m = .act c a ∧ a ≠ .delEvent ∧ a ≠ .dropQueue
  /-- The loop over `rDO` comes to an end. -/
  ends : ∀ n c, ∃ m, n ≤ m ∧ ∀ k, (b.state m).calls c = some k → k.pc.evaluating = false

variable {ι : Type} {T : StateTable}

namespace Call.Step

variable {c : ι} {o : Obj ι} {k : Call} {a : CallAct} {r : Stepped ι} {ev : StdEvent}
  {q : List StdEvent}

/-- With an event in the queue, a step of the owner takes it or leaves the
owner no further from taking it; and nearer, if it is a step of its own. -/
theorem rank (h : Step T c o k a r) (hz : o.state.isZom = false) (ho : k.pc.owns = true)
    (hv : k.pc ≠ .leave) (hq : o.que = some (ev :: q)) :
    (.dequeue c ev ∈ r.obs ∧ r.obj.que = some q) ∨
    (r.obj.que = o.que ∧ r.call.pc.owns = true ∧ r.call.pc.rank ≤ k.pc.rank ∧ r.call.pc ≠ .leave ∧
      (a ≠ .delEvent → a ≠ .dropQueue → k.pc.evaluating = false → r.call.pc.rank < k.pc.rank)) := by
  cases h with
  | dead hp | busy hp | admission hp | escape hp | escaped hp | notify hp | handoff hp =>
    rw [hp] at ho
    cases ho
  | leave hp => exact absurd hp hv
  | empty _ he | drained _ he => simp [hq] at he
  | fetch _ he | toFilter _ he =>
    obtain ⟨rfl, rfl⟩ : ev = _ ∧ q = _ := by simpa [hq] using he
    exact .inl ⟨by simp, rfl⟩
  | delSome _ _ he =>
    obtain ⟨rfl, rfl⟩ : ev = _ ∧ q = _ := by simpa [hq] using he
    exact .inl ⟨by simp, rfl⟩
  | delNone => exact .inr ⟨rfl, ho, Nat.le_refl _, hv, fun h => absurd rfl h⟩
  | dropQueue _ hs =>
    have hl := T.last2_category
    simp [TsTrans.isZom, hs, hl] at hz
  | funcRet hp =>
    rcases hp with hp | hp <;>
      exact .inr ⟨rfl, rfl, by simp [hp, Pc.rank], by simp, by simp [hp, Pc.evaluating]⟩
  | filter hp | filterRet hp | swallowed hp | passed hp | more hp =>
    exact .inr ⟨rfl, rfl, by simp [hp, Pc.rank], by simp, by simp [hp, Pc.rank]⟩
  | noFunc hp | toState hp | park hp | toThread hp | callState hp | callThread hp | back hp
  | zom hp | again hp | done hp =>
    exact .inr ⟨rfl, rfl, by simp [hp, Pc.rank], by simp, by simp [hp, Pc.evaluating]⟩

theorem evaluating_of_inFunc (h : Step T c o k a r) (ha : a = .delEvent ∨ a = .dropQueue) :
    k.pc.evaluating = true := by
  have hf : k.pc.inFunc = true := by
    cases h with
    | delNone hp | delSome hp | dropQueue hp => exact hp
    | _ => rcases ha with ha | ha <;> cases ha
  revert hf
  cases k.pc <;> simp [Pc.inFunc, Pc.evaluating]

end Call.Step

-- ---------------------------------------------------------------------------
-- The first event of the queue
-- ---------------------------------------------------------------------------

/-- `ev` is the first event in the queue, with `q` behind it, and the owner `c`
is at most `r` from taking it. -/
def Waits (s : Sys ι) (c : ι) (ev : StdEvent) (q : List StdEvent) (r : Nat) : Prop :=
  ∃ k more, s.calls c = some k ∧ k.pc.owns = true ∧ k.pc ≠ .leave ∧ k.pc.rank ≤ r ∧
    s.obj.que = some (ev :: (q ++ more))

section

variable [DecidableEq ι]

/-- `ev` is taken, and what was behind it moves up. -/
def Served (b : (Dispatch ι T).Behavior) (c : ι) (ev : StdEvent) (q : List StdEvent) (n : Nat) : Prop :=
  .dequeue c ev ∈ b.obs n ∧ ∃ more, (b.state (n + 1)).obj.que = some (q ++ more)

variable {b : (Dispatch ι T).Behavior} {c : ι} {ev : StdEvent} {q : List StdEvent} {r n : Nat}

/-- In a step `ev` is taken, or it waits on: nearer to being taken, or with its
owner in the loop over `rDO`, or with its owner where it was. -/
theorem waits_step (hz : ∀ n, (b.state n).obj.enterZom = false) (h : Waits (b.state n) c ev q r) :
    Served b c ev q n ∨ Waits (b.state (n + 1)) c ev q r ∧
      ((∃ r' < r, Waits (b.state (n + 1)) c ev q r') ∨
        (∃ k, (b.state n).calls c = some k ∧ k.pc.evaluating = true) ∨
        (b.state (n + 1)).calls c = (b.state n).calls c ∧
          ∀ a, b.act n = .act c a → a = .delEvent ∨ a = .dropQueue) := by
  obtain ⟨k, more, hk, ho, hv, hr, hq⟩ := h
  have hl := locks (b.run n)
  have hzom := not_isZom (b.run n) (hz n)
  have hs := Sys.step_cases (b.next n)
  generalize ha : b.act n = a at hs
  generalize ht : b.state (n + 1) = t at hs
  generalize hos : b.obs n = os at hs
  unfold Served
  rw [ht, hos]
  cases hs with
  | @call d e thrInfo hd =>
    have hne : c ≠ d := fun h => by simp [h, hd] at hk
    have hsame : ((b.state n).set d (b.state n).obj (some (.enter e thrInfo))).calls c = some k := by
      rw [Sys.set_calls_of_ne hne, hk]
    exact .inr ⟨⟨k, more, hsame, ho, hv, hr, hq⟩, .inr (.inr ⟨by rw [hsame, hk], fun a h => by cases h⟩)⟩
  | @ret d k' hd hp =>
    have hne : c ≠ d := by
      rintro rfl
      obtain rfl : k = k' := by simpa [hk] using hd
      rw [hp] at ho
      cases ho
    have hsame : ((b.state n).set d (b.state n).obj none).calls c = some k := by
      rw [Sys.set_calls_of_ne hne, hk]
    exact .inr ⟨⟨k, more, hsame, ho, hv, hr, hq⟩, .inr (.inr ⟨by rw [hsame, hk], fun a h => by cases h⟩)⟩
  | @act d k' a' r' hd hs =>
    by_cases hcd : c = d
    · subst hcd
      obtain rfl : k = k' := by simpa [hk] using hd
      rcases hs.rank hzom ho hv hq with ⟨hm, hq'⟩ | ⟨hq', ho', hr', hv', hlt⟩
      · exact .inl ⟨hm, more, hq'⟩
      · have hw : ∀ r, r'.call.pc.rank ≤ r → Waits ((b.state n).set c r'.obj (some r'.call)) c ev q r :=
          fun r h => ⟨r'.call, more, Sys.set_calls_self, ho', hv', h, by rw [Sys.set_obj, hq', hq]⟩
        refine .inr ⟨hw r (Nat.le_trans hr' hr), ?_⟩
        by_cases hev : k.pc.evaluating = true
        · exact .inr (.inl ⟨k, hk, hev⟩)
        by_cases ha : a' = .delEvent ∨ a' = .dropQueue
        · refine absurd ?_ hev
          rcases ha with rfl | rfl
          · exact hs.evaluating_of_inFunc (.inl rfl)
          · exact hs.evaluating_of_inFunc (.inr rfl)
        · rw [not_or] at ha
          have := hlt ha.1 ha.2 (by simpa using hev)
          exact .inl ⟨_, Nat.lt_of_lt_of_le this hr, hw _ (Nat.le_refl _)⟩
    · have hsame : ((b.state n).set d r'.obj (some r'.call)).calls c = some k := by
        rw [Sys.set_calls_of_ne hcd, hk]
      have keep : ∀ more', r'.obj.que = some (ev :: (q ++ more')) →
          Waits ((b.state n).set d r'.obj (some r'.call)) c ev q r := fun more' h =>
        ⟨k, more', hsame, ho, hv, hr, h⟩
      refine .inr ⟨?_, .inr (.inr ⟨by rw [hsame, hk], fun a h => absurd (by cases h; rfl) hcd⟩)⟩
      obtain ⟨he, -⟩ | ⟨-, -, he, -⟩ | ⟨_, _, -, ho', -⟩ := hs.queue hzom
      · exact keep more (he.trans hq)
      · obtain ⟨e, he'⟩ := Obj.insEvent_que _ hq k'.ev
        exact keep (more ++ e) (by simpa using he.trans he')
      · exact absurd (hl.owner_unique hk ho hd ho') hcd

/-- The first event of the queue is taken in the end. -/
theorem first_served (hz : ∀ n, (b.state n).obj.enterZom = false) (hb : Proceeds b) :
    ∀ r n, Waits (b.state n) c ev q r → ∃ m, n ≤ m ∧ Served b c ev q m := by
  refine eventually_of_rank fun r n h => ?_
  -- the loop over `rDO` comes to an end
  obtain ⟨m, hm, hev⟩ := hb.ends n c
  have keep : ∀ n, Waits (b.state n) c ev q r → Served b c ev q n ∨ Waits (b.state (n + 1)) c ev q r :=
    fun n h => (waits_step hz h).imp_right And.left
  rcases unless_until (P := fun n => Waits (b.state n) c ev q r) keep h hm with ⟨j, hj, hs⟩ | hw
  · exact ⟨j, hj, .inl hs⟩
  -- the owner stays where it is until it comes nearer
  have quiet : ∀ n, (Waits (b.state n) c ev q r ∧ ∀ k, (b.state n).calls c = some k →
      k.pc.evaluating = false) →
      (Served b c ev q n ∨ ∃ r' < r, Waits (b.state (n + 1)) c ev q r') ∨
      (Waits (b.state (n + 1)) c ev q r ∧ ∀ k, (b.state (n + 1)).calls c = some k →
        k.pc.evaluating = false) := by
    rintro n ⟨h, hev⟩
    obtain hs | ⟨hw, hlt | ⟨k, hk, he⟩ | ⟨hsame, -⟩⟩ := waits_step hz h
    · exact .inl (.inl hs)
    · exact .inl (.inr hlt)
    · simp [hev k hk] at he
    · exact .inr ⟨hw, hsame ▸ hev⟩
  have found : ∀ j, n ≤ j → (Served b c ev q j ∨ ∃ r' < r, Waits (b.state (j + 1)) c ev q r') →
      ∃ m, n ≤ m ∧ (Served b c ev q m ∨ ∃ r' < r, Waits (b.state m) c ev q r') := by
    rintro j hj (hs | hlt)
    · exact ⟨j, hj, .inl hs⟩
    · exact ⟨j + 1, by omega, .inr hlt⟩
  obtain ⟨k, more, hk, ho, -⟩ := id hw
  obtain ⟨m', hm', a, ha, hd, hq⟩ := hb.moves m c k hk ho
  rcases unless_until quiet ⟨hw, hev⟩ hm' with ⟨j, hj, hs⟩ | ⟨hw', hev'⟩
  · exact found j (by omega) hs
  obtain hs | ⟨-, hlt | ⟨k', hk', he⟩ | ⟨-, hact⟩⟩ := waits_step hz hw'
  · exact ⟨m', by omega, .inl hs⟩
  · exact found m' (by omega) (.inr hlt)
  · simp [hev' k' hk'] at he
  · rcases hact a ha with rfl | rfl
    · exact absurd rfl hd
    · exact absurd rfl hq

/-- An event that is first in the queue waits for an owner that is there. -/
theorem waits_of_que (hz : ∀ n, (b.state n).obj.enterZom = false)
    (hq : (b.state n).obj.que = some (ev :: q)) : ∃ c r, Waits (b.state n) c ev q r := by
  have hd := drained (Run.alive (b.run n) (hz n))
  have hs : (b.state n).obj.stateLock = true := by
    by_contra hs
    have := hd.rest (by simpa using hs)
    simp [hq] at this
  obtain ⟨c, k, hk, ho⟩ := (locks (b.run n)).exists_owner hs
  refine ⟨c, k.pc.rank, k, [], hk, ho, fun hp => ?_, Nat.le_refl _, by simpa using hq⟩
  have := hd.leave c k hk hp
  simp [hq] at this

/-- Every event in the queue is taken in the end. -/
theorem served (hz : ∀ n, (b.state n).obj.enterZom = false) (hb : Proceeds b)
    {before after : List StdEvent} (hq : (b.state n).obj.que = some (before ++ ev :: after)) :
    ∃ m, n ≤ m ∧ ∃ c, .dequeue c ev ∈ b.obs m := by
  induction before generalizing n after with
  | nil =>
    obtain ⟨c, r, hw⟩ := waits_of_que hz hq
    obtain ⟨m, hm, hd, -⟩ := first_served hz hb r n hw
    exact ⟨m, hm, c, hd⟩
  | cons e before ih =>
    obtain ⟨c, r, hw⟩ := waits_of_que hz hq
    obtain ⟨m, hm, -, more, hq'⟩ := first_served hz hb r n hw
    have hrest : (b.state (m + 1)).obj.que = some (before ++ ev :: (after ++ more)) := by
      simpa using hq'
    obtain ⟨m', hm', hd⟩ := ih hrest
    exact ⟨m', by omega, hd⟩

/-- What is offered of a type that merges is followed by a dequeue of that type. -/
theorem offered_taken (hz : ∀ n, (b.state n).obj.enterZom = false) (hb : Proceeds b) {ob : Obs ι}
    {t : EventType} (hm : ob ∈ b.obs n) (ho : ob.Offers t) (ht : t.Coalesced) :
    ∃ m, n ≤ m ∧ ∃ ob' ∈ b.obs m, ob'.Takes t := by
  obtain ⟨q, law⟩ := queueLaw (b.run (n + 1)) (hz (n + 1))
  obtain ⟨before, after, he⟩ := List.append_of_mem hm
  have htr : b.trace (n + 1) = (b.trace n ++ before) ++ ob :: after := by
    rw [Machine.Behavior.trace, he, List.append_assoc]
  rcases law.kept _ _ _ t htr ho ht with ⟨ob', hm', hT⟩ | ⟨ev, hev, rfl⟩
  · exact ⟨n, Nat.le_refl _, ob', by simp [he, hm'], hT⟩
  · obtain ⟨l, l', rfl⟩ := List.append_of_mem hev
    obtain ⟨m, hmn, c, hd⟩ := served hz hb law.que
    exact ⟨m, by omega, _, hd, c, ev, rfl, rfl⟩

end

end TinyState
