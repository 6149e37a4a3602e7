import TinyState.Containers.Queue

/-!
# stdLimitSemaphoreWait and stdQueue

The wait list in buckets stands where a `stdQueue` would do, and is faster. Both are run
beside each other here, on the same insertions, removals and questions.
-/

namespace TinyState

open Transition

-- ---------------------------------------------------------------------------
-- Model
-- ---------------------------------------------------------------------------

/-- `stdLimitSemaphoreWait` with its `count`. -/
structure CountedWait (ω : Type) extends LimitWait ω where
  count : Int

namespace CountedWait

variable {ω : Type} [DecidableEq ω]

def wIns (q : CountedWait ω) (key : Int) (obj : ω) : CountedWait ω :=
  ⟨q.toLimitWait.wIns key obj, q.count + 1⟩

/-- `none` for a null pointer. -/
def wDel (q : CountedWait ω) : Option (ω × CountedWait ω) :=
  q.toLimitWait.wDel.map fun r => (r.1, ⟨r.2, q.count - 1⟩)

end CountedWait

/-- The two lists, and the next address. -/
structure WaitPair (ω : Type) where
  wait : CountedWait ω
  queue : LinkedQueue ω
  fresh : Nat

/-- What is done to both. -/
inductive WaitAct (ω : Type)
  | insNeq (insNeq : Bool)
  | ins (key : Int) (obj : ω)
  | del
  | has (obj : ω)

/-- What both answer. -/
inductive WaitObs (ω : Type)
  | deleted (wait queue : Option ω)
  | has (wait queue : Bool)

def WaitObs.Same {ω : Type} : WaitObs ω → Prop
  | .deleted wait queue => wait = queue
  | .has wait queue => wait = queue

namespace WaitPair

variable {ω : Type} [DecidableEq ω]

/-- `check(obj,0)` of the linked queue. -/
def check (q : LinkedQueue ω) (obj : ω) : Bool := q.chain.any fun el => el.data = obj

/-- Keys are of the type `INTEGER64`, and what is put in is not there already. -/
def step (s : WaitPair ω) : WaitAct ω → Option (WaitPair ω × List (WaitObs ω))
  | .insNeq insNeq => some ({ s with
      wait := { s.wait with insNeq := insNeq }
      queue := { s.queue with insNeq := insNeq } }, [])
  | .ins key obj =>
    if (-2 ^ 63 ≤ key ∧ key ≤ maxInteger64) ∧ check s.queue obj = false then
      some ({ s with
        wait := s.wait.wIns key obj
        queue := s.queue.ins ⟨s.fresh, key, obj⟩
        fresh := s.fresh + 1 }, [])
    else none
  | .del => some ({ s with
      wait := (s.wait.wDel.map Prod.snd).getD s.wait
      queue := (s.queue.del.map Prod.snd).getD s.queue },
      [.deleted (s.wait.wDel.map Prod.fst) (s.queue.del.map Prod.fst)])
  | .has obj => some (s, [.has (s.wait.wHas obj) (check s.queue obj)])

def machine (ω : Type) [DecidableEq ω] : Machine (WaitPair ω) (WaitAct ω) (WaitObs ω) where
  init s := ∃ insNeq, s.wait = ⟨⟨[], ∅, insNeq⟩, 0⟩ ∧ s.queue = .empty insNeq
  step := step

end WaitPair

-- ---------------------------------------------------------------------------
-- Buckets
-- ---------------------------------------------------------------------------

namespace StdQueue

variable {ω : Type} {insNeq : Bool} {key : Int} {obj : ω} {l m : List (Int × ω)}

theorem insSorted_stop (h : ∀ x ∈ l, stops insNeq x.1 key = true) :
    insSorted insNeq key obj l = (key, obj) :: l := by
  cases l with
  | nil => rfl
  | cons x l => rw [insSorted, if_pos (h x List.mem_cons_self)]

theorem insSorted_pass (h : ∀ x ∈ l, stops insNeq x.1 key = false) :
    insSorted insNeq key obj (l ++ m) = l ++ insSorted insNeq key obj m := by
  induction l with
  | nil => rfl
  | cons x l ih =>
    obtain ⟨hx, hl⟩ := List.forall_mem_cons.mp h
    rw [List.cons_append, insSorted, hx, ih hl]
    rfl

theorem stops_of_lt {k : Int} (h : key < k) : stops insNeq k key = true := by
  cases insNeq with
  | true => exact decide_eq_true h
  | false => exact decide_eq_true (Int.le_of_lt h)

theorem not_stops_of_lt {k : Int} (h : k < key) : stops insNeq k key = false := by
  cases insNeq with
  | true => exact decide_eq_false (by omega)
  | false => exact decide_eq_false (by omega)

end StdQueue

namespace LimitWait

open StdQueue

variable {ω : Type} {insNeq : Bool} {key : Int} {obj : ω} {b : Int × List ω}
  {l : List (Int × List ω)}

/-- The buckets one behind the other, each object with its key. -/
def flatten (l : List (Int × List ω)) : List (Int × ω) := l.flatMap fun b => b.2.map (b.1, ·)

/-- The buckets are in the order of their keys. -/
abbrev Rising (l : List (Int × List ω)) : Prop := l.Pairwise fun b c => b.1 < c.1

@[simp] theorem flatten_cons : flatten (b :: l) = b.2.map (b.1, ·) ++ flatten l := List.flatMap_cons

theorem key_of_mem_flatten {x : Int × ω} (h : x ∈ flatten l) : ∃ b ∈ l, x.1 = b.1 := by
  obtain ⟨b, hb, hx⟩ := List.mem_flatMap.mp h
  obtain ⟨y, -, rfl⟩ := List.mem_map.mp hx
  exact ⟨b, hb, rfl⟩

theorem key_of_mem_bucket {x : Int × ω} (h : x ∈ b.2.map (b.1, ·)) : x.1 = b.1 := by
  obtain ⟨y, -, rfl⟩ := List.mem_map.mp h
  rfl

/-- What is put in at the side that `insNeq` says comes where the loop of `ins` puts it. -/
theorem flatten_modify (hl : Rising l) :
    flatten (modify key (fun b => if insNeq then b ++ [obj] else obj :: b) l) =
      insSorted insNeq key obj (flatten l) := by
  induction l with
  | nil => cases insNeq <;> rfl
  | cons b l ih =>
    obtain ⟨hb, hl⟩ := List.pairwise_cons.mp hl
    have habove : ∀ {k : Int}, k ≤ b.1 → ∀ x ∈ flatten l, k < x.1 := by
      intro k hk x hx
      obtain ⟨c, hc, hxc⟩ := key_of_mem_flatten hx
      exact hxc ▸ Int.lt_of_le_of_lt hk (hb c hc)
    rw [modify]
    split
    · next hlt =>
      rw [insSorted_stop fun x hx => ?_]
      · cases insNeq <;> rfl
      · rw [flatten_cons, List.mem_append] at hx
        rcases hx with hx | hx
        · exact stops_of_lt (key_of_mem_bucket hx ▸ hlt)
        · exact stops_of_lt (habove (Int.le_of_lt hlt) x hx)
    · split
      · next hge heq =>
        subst heq
        cases insNeq with
        | true =>
          have hpass : ∀ x ∈ b.2.map (b.1, ·), stops true x.1 b.1 = false := fun x hx => by
            rw [key_of_mem_bucket hx]
            exact decide_eq_false (Int.lt_irrefl _)
          have hstop : ∀ x ∈ flatten l, stops true x.1 b.1 = true := fun x hx =>
            stops_of_lt (habove (Int.le_refl _) x hx)
          rw [flatten_cons, flatten_cons, insSorted_pass hpass, insSorted_stop hstop]
          simp
        | false =>
          have hstop : ∀ x ∈ flatten (b :: l), stops false x.1 b.1 = true := fun x hx => by
            rw [flatten_cons, List.mem_append] at hx
            rcases hx with hx | hx
            · rw [key_of_mem_bucket hx]
              exact decide_eq_true (Int.le_refl _)
            · exact stops_of_lt (habove (Int.le_refl _) x hx)
          rw [insSorted_stop hstop]
          rfl
      · next hge hne =>
        have hpass : ∀ x ∈ b.2.map (b.1, ·), stops insNeq x.1 key = false := fun x hx => by
          rw [key_of_mem_bucket hx]
          exact not_stops_of_lt (by omega)
        rw [flatten_cons, flatten_cons, insSorted_pass hpass, ih hl]

/-- Under the greatest key everything goes to the end. -/
theorem flatten_modify_greatest (hl : Rising l) (hk : ∀ b ∈ l, b.1 ≤ key) :
    flatten (modify key (fun b => b ++ [obj]) l) = flatten l ++ [(key, obj)] := by
  have hm : flatten (modify key (fun b => if true then b ++ [obj] else obj :: b) l) =
      insSorted true key obj (flatten l) := flatten_modify hl
  have hpass : ∀ x ∈ flatten l, stops true x.1 key = false := fun x hx => by
    obtain ⟨b, hb, hxb⟩ := key_of_mem_flatten hx
    exact decide_eq_false (by have := hk b hb; omega)
  have hi : insSorted true key obj (flatten l ++ []) = flatten l ++ [(key, obj)] :=
    insSorted_pass hpass
  rw [List.append_nil] at hi
  exact hm.trans hi

theorem key_modify {f : List ω → List ω} {c : Int × List ω} (h : c ∈ modify key f l) :
    c.1 = key ∨ ∃ b ∈ l, c.1 = b.1 := by
  induction l with
  | nil => exact .inl (congrArg Prod.fst (List.mem_singleton.mp h))
  | cons b l ih =>
    rw [modify] at h
    split at h
    · rcases List.mem_cons.mp h with rfl | h
      · exact .inl rfl
      · exact .inr ⟨c, h, rfl⟩
    · split at h
      · rcases List.mem_cons.mp h with rfl | h
        · exact .inl rfl
        · exact .inr ⟨c, List.mem_cons_of_mem b h, rfl⟩
      · rcases List.mem_cons.mp h with rfl | h
        · exact .inr ⟨c, List.mem_cons_self, rfl⟩
        · exact (ih h).imp id fun hd => hd.imp fun d hd => ⟨List.mem_cons_of_mem b hd.1, hd.2⟩

theorem Rising.modify {f : List ω → List ω} (h : Rising l) : Rising (modify key f l) := by
  induction l with
  | nil => exact List.pairwise_singleton _ _
  | cons b l ih =>
    obtain ⟨hb, hl⟩ := List.pairwise_cons.mp h
    rw [LimitWait.modify]
    split
    · next hlt =>
      refine List.pairwise_cons.mpr ⟨List.forall_mem_cons.mpr ⟨hlt, fun c hc => ?_⟩, h⟩
      exact Int.lt_trans hlt (hb c hc)
    · split
      · next hge heq =>
        exact List.pairwise_cons.mpr ⟨fun c hc => heq ▸ hb c hc, hl⟩
      · next hge hne =>
        refine List.pairwise_cons.mpr ⟨fun c hc => ?_, ih hl⟩
        rcases key_modify hc with hk | ⟨d, hd, hk⟩
        · omega
        · exact hk ▸ hb d hd

end LimitWait

-- ---------------------------------------------------------------------------
-- Both lists
-- ---------------------------------------------------------------------------

namespace WaitPair

open LimitWait

variable {ω : Type} {s t : WaitPair ω} {os tr : List (WaitObs ω)}

/-- The buckets hold what the queue holds, in the same order and under the same keys. -/
structure Agree (s : WaitPair ω) : Prop where
  indexed : s.wait.Indexed
  rising : Rising s.wait.bucket
  valid : s.queue.Valid
  fresh : s.queue.Fresh s.fresh
  counted : s.queue.uncounted = 0
  insNeq : s.queue.insNeq = s.wait.insNeq
  list : flatten s.wait.bucket = s.queue.toStd.list
  count : s.wait.count = s.queue.count

theorem members_eq (w : LimitWait ω) : w.members = (flatten w.bucket).map Prod.snd := by
  unfold LimitWait.members flatten
  rw [List.map_flatMap]
  congr 1
  funext b
  simp [Function.comp_def]

theorem Agree.members (h : s.Agree) : s.wait.members = s.queue.chain.map QueueElement.data := by
  rw [members_eq, h.list]
  simp [LinkedQueue.toStd, Function.comp_def]

theorem Agree.key_le (h : s.Agree) : ∀ b ∈ s.wait.bucket, b.1 ≤ maxInteger64 := by
  intro b hb
  obtain ⟨x, hx⟩ := List.exists_mem_of_ne_nil _ (h.indexed.nonempty b hb)
  have hm : (b.1, x) ∈ flatten s.wait.bucket :=
    List.mem_flatMap.mpr ⟨b, hb, List.mem_map.mpr ⟨x, hx, rfl⟩⟩
  rw [h.list] at hm
  obtain ⟨el, hel, he⟩ := List.mem_map.mp hm
  exact (Prod.ext_iff.mp he).1 ▸ h.valid.range el hel

variable [DecidableEq ω]

theorem Agree.has (h : s.Agree) (obj : ω) : s.wait.wHas obj = check s.queue obj := by
  have hm := h.indexed.idx obj
  rw [h.members, List.mem_map] at hm
  rw [Bool.eq_iff_iff, LimitWait.wHas, decide_eq_true_iff, hm, check, List.any_eq_true]
  simp only [decide_eq_true_iff]

theorem Agree.ins (h : s.Agree) {key : Int} {obj : ω} (hk : key ≤ maxInteger64)
    (hn : check s.queue obj = false) :
    Agree { s with
      wait := s.wait.wIns key obj
      queue := s.queue.ins ⟨s.fresh, key, obj⟩
      fresh := s.fresh + 1 } := by
  have hx : obj ∉ s.wait.idx := by
    have hh := h.has obj
    rw [hn] at hh
    exact of_decide_eq_false hh
  have hv : (s.queue.ins ⟨s.fresh, key, obj⟩).Valid ∧
      (s.queue.ins ⟨s.fresh, key, obj⟩).Fresh (s.fresh + 1) := h.valid.ins hk h.fresh
  obtain ⟨hi, hu, -⟩ := s.queue.ins_frame ⟨s.fresh, key, obj⟩
  have hs : (s.queue.ins ⟨s.fresh, key, obj⟩).toStd = s.queue.toStd.ins key obj :=
    h.valid.ins_toStd
  have hc : (s.queue.ins ⟨s.fresh, key, obj⟩).count = s.queue.count + 1 := by
    have hf : s.queue.Fresh (⟨s.fresh, key, obj⟩ : QueueElement _).id := h.fresh
    obtain ⟨_, _, -, -, -, hc, -⟩ := h.valid.ins_chain hf
    exact hc
  refine ⟨h.indexed.wIns hx, h.rising.modify, hv.1, hv.2, hu.trans h.counted,
    hi.trans h.insNeq, ?_, ?_⟩
  · rw [hs, StdQueue.ins, ← h.list]
    dsimp only [CountedWait.wIns, LimitWait.wIns]
    by_cases hg : key = maxInteger64
    · simp only [if_pos hg, if_pos (Or.inr hg : s.wait.insNeq = true ∨ key = maxInteger64)]
      exact flatten_modify_greatest h.rising (hg ▸ h.key_le)
    · have hq : s.queue.toStd.insNeq = s.wait.insNeq := h.insNeq
      simp only [hg, or_false, if_false, hq]
      exact flatten_modify h.rising
  · rw [hc, ← h.count]
    rfl

/-- Both lists are empty, or both have a first object, and it is the same. -/
inductive Dels (s : WaitPair ω) :
    Option (ω × CountedWait ω) → Option (ω × LinkedQueue ω) → Prop
  | none : Dels s none none
  | some {x : ω} {w : CountedWait ω} {q : LinkedQueue ω} :
      Agree { s with
        wait := w
        queue := q } → Dels s (some (x, w)) (some (x, q))

theorem Agree.del (h : s.Agree) : Dels s s.wait.wDel s.queue.del := by
  have hq := s.queue.del_toStd
  have hlist := h.list
  unfold CountedWait.wDel
  cases hb : s.wait.bucket with
  | nil =>
    rw [hb] at hlist
    have hnone : s.queue.del = none := by
      rw [StdQueue.del, ← hlist] at hq
      exact Option.map_eq_none_iff.mp hq
    rw [LimitWait.wDel, hb, hnone]
    exact .none
  | cons b rest =>
    obtain ⟨key, objs⟩ := b
    cases objs with
    | nil => exact absurd rfl (h.indexed.nonempty (key, []) (hb ▸ List.mem_cons_self))
    | cons x objs =>
      rw [hb] at hlist
      have hlist : (key, x) :: (objs.map (key, ·) ++ flatten rest) = s.queue.toStd.list := hlist
      rw [StdQueue.del, ← hlist] at hq
      obtain ⟨⟨y, q⟩, hd, he⟩ := Option.map_eq_some_iff.mp hq
      obtain ⟨rfl, he⟩ : y = x ∧ _ := Prod.ext_iff.mp he
      obtain ⟨hv, hsub⟩ := h.valid.del hd
      have hr := h.rising
      rw [hb] at hr
      obtain ⟨hk, hr⟩ := List.pairwise_cons.mp hr
      have hw : s.wait.toLimitWait.wDel = some (y, { s.wait.toLimitWait with
          bucket := if objs = [] then rest else (key, objs) :: rest
          idx := s.wait.idx.erase y }) := by
        rw [LimitWait.wDel, hb]
      have hcu : q.count = s.queue.count - 1 ∧ q.uncounted = s.queue.uncounted ∧
          q.insNeq = s.queue.insNeq := by
        unfold LinkedQueue.del at hd
        split at hd
        · cases hd
        · cases hd
          exact ⟨rfl, rfl, rfl⟩
      rw [hd, hw]
      refine .some ⟨h.indexed.wDel hw, ?_, hv, fun z hz => h.fresh z (hsub.subset hz),
        hcu.2.1.trans h.counted, hcu.2.2.trans h.insNeq, ?_, ?_⟩
      · dsimp only
        split
        · exact hr
        · exact List.pairwise_cons.mpr ⟨hk, hr⟩
      · have he : objs.map (key, ·) ++ flatten rest = q.toStd.list :=
          (congrArg StdQueue.list he).symm
        dsimp only
        split
        · next ho =>
          rw [ho] at he
          exact he
        · exact he
      · dsimp only
        rw [hcu.1, h.count]

theorem Agree.step (h : s.Agree) {a : WaitAct ω} (hs : s.step a = some (t, os)) :
    t.Agree ∧ ∀ o ∈ os, o.Same := by
  cases a with
  | insNeq insNeq =>
    cases hs
    have hv := h.valid
    refine ⟨⟨?_, h.rising, ?_, h.fresh, h.counted, rfl, h.list, h.count⟩, List.forall_mem_nil _⟩
    · exact ⟨h.indexed.nonempty, h.indexed.nodup, h.indexed.idx⟩
    · exact ⟨⟨hv.tail, hv.nodup, hv.range, hv.ordered⟩, hv.count⟩
  | ins key obj =>
    obtain ⟨⟨⟨-, hk⟩, hn⟩, he⟩ := Option.ite_none_right_eq_some.mp hs
    cases he
    exact ⟨h.ins hk hn, List.forall_mem_nil _⟩
  | del =>
    have hd := h.del
    dsimp only [WaitPair.step] at hs
    generalize s.wait.wDel = w, s.queue.del = q at hs hd
    cases hs
    cases hd with
    | none => exact ⟨h, List.forall_mem_singleton.mpr rfl⟩
    | some ha => exact ⟨ha, List.forall_mem_singleton.mpr rfl⟩
  | has obj =>
    cases hs
    exact ⟨h, List.forall_mem_singleton.mpr (h.has obj)⟩

theorem agree (h : (machine ω).Run tr s) : s.Agree ∧ ∀ o ∈ tr, o.Same := by
  induction h with
  | start hi =>
    obtain ⟨insNeq, hw, hq⟩ := hi
    refine ⟨⟨?_, ?_, ?_, ?_, ?_, ?_, ?_, ?_⟩, List.forall_mem_nil _⟩ <;> simp only [hw, hq]
    · exact ⟨List.forall_mem_nil _, List.nodup_nil, fun x => Iff.rfl⟩
    · exact .nil
    · exact ⟨⟨rfl, List.nodup_nil, List.forall_mem_nil _, fun _ => .nil⟩, rfl⟩
    · exact List.forall_mem_nil _
    all_goals rfl
  | step _ _ hs ih =>
    obtain ⟨ht, ho⟩ := ih.1.step hs
    exact ⟨ht, List.forall_mem_append.mpr ⟨ih.2, ho⟩⟩

/-- Whatever is put in and taken out, and however `insNeq` is changed on the way, both lists
return the same objects in the same order, answer alike who is in them, count the same and
hold the same. -/
theorem waitList_law (h : (machine ω).Run tr s) :
    (∀ o ∈ tr, o.Same) ∧ s.wait.count = s.queue.count ∧
      s.wait.members = s.queue.chain.map QueueElement.data ∧ ∀ b ∈ s.wait.bucket, b.2 ≠ [] :=
  ⟨(agree h).2, (agree h).1.count, (agree h).1.members, (agree h).1.indexed.nonempty⟩

/-- An object under the greatest key is put in before `insNeq` changes, and others after it. -/
theorem waitList_law_turned : ∃ tr s, (machine Nat).Run tr s ∧
    s.queue.chain.map QueueElement.data = [3, 4, 1, 2] ∧
    (∀ o ∈ tr, o.Same) ∧ s.wait.count = s.queue.count ∧
      s.wait.members = s.queue.chain.map QueueElement.data ∧ ∀ b ∈ s.wait.bucket, b.2 ≠ [] := by
  obtain ⟨tr, s, h, hc⟩ : ∃ tr s, (machine Nat).Run tr s ∧
      s.queue.chain.map QueueElement.data = [3, 4, 1, 2] :=
    Machine.exists_run (M := machine Nat) (C := fun _ _ => True)
      (P := fun _ s => s.queue.chain.map QueueElement.data = [3, 4, 1, 2])
      [.ins maxInteger64 1, .ins maxInteger64 2, .ins 5 0, .insNeq true, .ins 5 3, .has 3, .del,
        .ins 5 4]
      (s := ⟨⟨⟨[], ∅, false⟩, 0⟩, .empty false, 0⟩) ⟨false, rfl, rfl⟩ (by decide)
  exact ⟨tr, s, h, hc, waitList_law h⟩

end WaitPair

end TinyState
