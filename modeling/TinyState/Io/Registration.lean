import TinyState.Io.Model
import TinyState.Lib.Custody

/-!
# What becomes of a registration

As long as no descriptor on which two wait is reported, a registration is kept until
its object gets the event, or it is detached, or its object is in a ZOM state. Of
several on one descriptor the loop keeps none and delivers to the first.
-/

namespace TinyState

open Transition

/-- What `loop` has taken out and not delivered yet. -/
def LoopPhase.result {ω : Type} : LoopPhase ω → List (IoData ω)
  | dispatch result => result
  | idle | top | select .. | selected .. => []

/-- What is told of a registration is so: the event carries its number, and what it waited
for or -1; and who loses it as a ZOM object is one. -/
def IoOutcome.Sound {ω : Type} (zoms : List ω) : IoOutcome ω → Prop
  | event dd ev => ev = dd.event dd.data ∨ ev = dd.event (-1)
  | detached _ => True
  | zom dd => dd.obj ∈ zoms

theorem IoOutcome.Sound.mono {ω : Type} {zoms more : List ω} {o : IoOutcome ω}
    (h : o.Sound zoms) (hz : zoms ⊆ more) : o.Sound more := by
  cases o with
  | event dd ev => exact h
  | detached dd => exact trivial
  | zom dd => exact hz h

namespace FwIo

variable {ω : Type} [DecidableEq ω]

/-- What is registered. -/
def registered (s : FwIo ω) : List (IoData ω) :=
  s.readObjs.members ++ s.writeObjs.members ++ s.intervalObjs.members

/-- What has been taken out and not been delivered yet. -/
def pending (s : FwIo ω) : List (IoData ω) :=
  s.loop.result ++ s.aborts.flatMap fun c => c.ret.toList

def held (s : FwIo ω) : List (IoData ω) := s.registered ++ s.pending

/-- No two wait on one of the descriptors that are reported. -/
def Distinct (fds fdexp : List Int) (q : StdQueue (IoData ω)) : Prop :=
  ((q.members.filter (isset fds fdexp)).map IoData.data).Nodup

/-- No descriptor on which two wait has been reported. -/
def Unshared (s : FwIo ω) : FwIoAct ω → Prop
  | .take _ =>
    match s.loop with
    | .selected fdread fdwrite fdexp =>
      Distinct fdread fdexp s.readObjs ∧ Distinct fdwrite fdexp s.writeObjs
    | _ => True
  | _ => True

instance (fds fdexp : List Int) (q : StdQueue (IoData ω)) : Decidable (Distinct fds fdexp q) :=
  inferInstanceAs (Decidable (List.Nodup _))

instance (s : FwIo ω) (a : FwIoAct ω) : Decidable (s.Unshared a) :=
  match a with
  | .take _ =>
    match h : s.loop with
    | .selected fdread fdwrite fdexp =>
      decidable_of_iff (Distinct fdread fdexp s.readObjs ∧ Distinct fdwrite fdexp s.writeObjs)
        (by simp [Unshared, h])
    | .idle | .top | .select .. | .dispatch _ => isTrue (by simp [Unshared, h])
  | .read .. | .write .. | .wait .. | .detach .. | .abort _ | .aborting _ | .addRefio | .delRefio
  | .announce _ | .getSeq | .becomeZom _ | .loop | .prepare _ | .select .. | .selectFail _
  | .dispatch => isTrue trivial

variable {s t : FwIo ω} {fds fdexp : List Int} {l : List (IoData ω)} {target : List Int}

-- ---------------------------------------------------------------------------
-- What is taken out
-- ---------------------------------------------------------------------------

section

omit [DecidableEq ω]

theorem pick_length (fds fdexp : List Int) (l : List (IoData ω)) (target : List Int) :
    (pick fds fdexp l target).1.length + (pick fds fdexp l target).2.length ≤ l.length := by
  induction l generalizing target with
  | nil => exact Nat.le_refl _
  | cons dd rest ih =>
    have h₁ := ih target
    have h₂ := ih (dd.data :: target)
    unfold pick
    split
    · simp only [List.length_cons]
      omega
    · split <;> simp only [List.length_cons] <;> omega

/-- The loop over a queue loses nothing exactly if no two wait on one of the
descriptors that are reported. -/
theorem pick_perm_iff : l.Perm ((pick fds fdexp l target).1 ++ (pick fds fdexp l target).2) ↔
    ((l.filter (isset fds fdexp)).map IoData.data).Nodup ∧
      ∀ dd ∈ l.filter (isset fds fdexp), dd.data ∉ target := by
  induction l generalizing target with
  | nil => simp [pick]
  | cons dd rest ih =>
    unfold pick
    cases hs : isset fds fdexp dd with
    | false => simpa [hs] using ih
    | true =>
      rw [if_neg (by simp), List.filter_cons_of_pos hs]
      split
      · rename_i ht
        constructor
        · intro hp
          have h₁ := hp.length_eq
          have h₂ := pick_length fds fdexp rest target
          rw [List.length_append, List.length_cons] at h₁
          omega
        · exact fun hn => absurd ht (hn.2 dd (List.mem_cons_self ..))
      · rename_i ht
        dsimp only
        rw [(@List.perm_middle _ dd (pick fds fdexp rest (dd.data :: target)).1 _).congr_right,
          List.perm_cons, ih]
        constructor
        · rintro ⟨hn, hd⟩
          refine ⟨List.nodup_cons.mpr ⟨fun hm => ?_, hn⟩, fun x hx => ?_⟩
          · obtain ⟨x, hx, he⟩ := List.mem_map.mp hm
            exact hd x hx (he ▸ List.mem_cons_self ..)
          · rcases List.mem_cons.mp hx with rfl | hx
            · exact ht
            · exact fun hxt => hd x hx (List.mem_cons_of_mem _ hxt)
        · rintro ⟨hn, hd⟩
          obtain ⟨hm, hn⟩ := List.nodup_cons.mp hn
          refine ⟨hn, fun x hx hxt => ?_⟩
          rcases List.mem_cons.mp hxt with he | hxt
          · exact hm (he ▸ List.mem_map_of_mem hx)
          · exact hd x (List.mem_cons_of_mem dd hx) hxt

theorem Distinct.pick {q : StdQueue (IoData ω)} (h : Distinct fds fdexp q) :
    q.members.Perm ((pick fds fdexp q.members []).1 ++ (pick fds fdexp q.members []).2) :=
  pick_perm_iff.mpr ⟨h, fun _ _ => List.not_mem_nil⟩

@[simp] theorem members_queueOf : (queueOf l).members = l := by
  simp [queueOf, StdQueue.members]

end

theorem takeReady_perm {r w e : List Int} (hr : Distinct r e s.readObjs)
    (hw : Distinct w e s.writeObjs) :
    s.registered.Perm ((s.takeReady r w e).1.registered ++ (s.takeReady r w e).2) := by
  unfold takeReady
  split
  · refine List.perm_iff_count.mpr fun dd => ?_
    have h₁ := hr.pick.count_eq dd
    have h₂ := hw.pick.count_eq dd
    simp only [registered, members_queueOf, List.count_append] at h₁ h₂ ⊢
    omega
  · simp

omit [DecidableEq ω] in
theorem takeDue_perm (now : Int) :
    s.registered.Perm ((s.takeDue now).1.registered ++ (s.takeDue now).2) := by
  have hd : (s.takeDue now).1.intervalObjs.members =
      s.intervalObjs.members.dropWhile fun dd => dd.data ≤ now := by
    simp only [takeDue, StdQueue.members, List.dropWhile_map]
    rfl
  have hi := List.takeWhile_append_dropWhile (p := fun dd => decide (dd.data ≤ now))
    (l := s.intervalObjs.members)
  calc s.registered
    List.Perm _ (s.readObjs.members ++ s.writeObjs.members ++
        ((s.takeDue now).2 ++ (s.takeDue now).1.intervalObjs.members)) := by
      rw [hd]
      exact hi.symm ▸ .refl _
    List.Perm _ ((s.takeDue now).1.registered ++ (s.takeDue now).2) := by
      rw [registered, List.append_assoc _ _ (s.takeDue now).2]
      exact List.perm_append_comm.append_left _

/-- The critical section after `select`. -/
theorem take_perm {r w e : List Int} (hr : Distinct r e s.readObjs)
    (hw : Distinct w e s.writeObjs) (now : Int) :
    s.registered.Perm ((s.take r w e now).registered ++
      (s.take r w e now).loop.result) := by
  have h₁ := takeReady_perm (s := { s with
    waitFlag := true
    pipe := 0 }) hr hw
  unfold take
  dsimp only
  generalize { s with
    waitFlag := true
    pipe := 0 }.takeReady r w e = u at h₁ ⊢
  calc s.registered
    List.Perm _ (u.1.registered ++ u.2) := h₁
    List.Perm _ ((u.1.takeDue now).1.registered ++ (u.1.takeDue now).2 ++ u.2) :=
      (takeDue_perm now).append_right u.2
    List.Perm _ ((u.1.takeDue now).1.registered ++ (u.2 ++ (u.1.takeDue now).2)) := by
      rw [List.append_assoc]
      exact List.perm_append_comm.append_left _

theorem detachFrom_perm (q : StdQueue (IoData ω)) (obj : ω) (flag : Bool) :
    q.members.Perm ((detachFrom q obj flag).1.members ++ (detachFrom q obj flag).2) := by
  cases flag with
  | false => simp [detachFrom]
  | true =>
    rw [detachFrom, if_pos rfl, StdQueue.members_delAll]
    exact (List.filter_append_perm _ _).symm.trans List.perm_append_comm

omit [DecidableEq ω] in
theorem map_data {f : IoData ω → IoOutcome ω} (hf : ∀ dd, (f dd).data = dd) :
    (l.map f).map IoOutcome.data = l := by
  rw [List.map_map]
  exact (List.map_congr_left fun dd _ => hf dd).trans (List.map_id l)

theorem filterZoms_perm : s.registered.Perm
    (s.filterZoms.1.registered ++ s.filterZoms.2.map IoOutcome.data) := by
  have hr := s.readObjs.members_move (filterZom s.zom)
  have hw := s.writeObjs.members_move (filterZom s.zom)
  have hi := s.intervalObjs.members_move (filterZom2 s.zom)
  refine List.perm_iff_count.mpr fun dd => ?_
  have h₁ := hr.1.count_eq dd
  have h₂ := hw.1.count_eq dd
  have h₃ := hi.1.count_eq dd
  have ho : s.filterZoms.2.map IoOutcome.data = (s.readObjs.move (filterZom s.zom)).2 ++
      (s.writeObjs.move (filterZom s.zom)).2 ++ (s.intervalObjs.move (filterZom2 s.zom)).2 :=
    map_data fun _ => rfl
  rw [ho]
  simp only [filterZoms, registered, List.count_append] at h₁ h₂ h₃ ⊢
  omega

/-- Who loses a registration is in a ZOM state. -/
theorem filterZoms_zom {dd : IoData ω} (h : .zom dd ∈ s.filterZoms.2) : dd.obj ∈ s.zom := by
  obtain ⟨x, hx, he⟩ := List.mem_map.mp h
  cases he
  have hpos {cmp : IoData ω → Int} {q : StdQueue (IoData ω)} (hx : dd ∈ (q.move cmp).2) :
      0 < cmp dd := (StdQueue.members_move _ cmp).2 dd hx
  rcases List.mem_append.mp hx with hx | hx
  · have hc : 0 < filterZom s.zom dd := (List.mem_append.mp hx).elim hpos hpos
    unfold filterZom at hc
    split at hc
    · assumption
    · exact absurd hc (by decide)
  · have hc : 0 < filterZom2 s.zom dd := hpos hx
    unfold filterZom2 at hc
    split at hc
    · assumption
    · exact absurd hc (by decide)

-- ---------------------------------------------------------------------------
-- Steps
-- ---------------------------------------------------------------------------

section

omit [DecidableEq ω]

theorem writePipe_frame (s : FwIo ω) :
    ∃ waitFlag pipe, s.writePipe = { s with
      waitFlag := waitFlag
      pipe := pipe } := by
  unfold writePipe
  split
  · exact ⟨s.waitFlag, s.pipe, rfl⟩
  · exact ⟨_, _, rfl⟩

/-- What a step does with the registrations. -/
structure Balanced (s t : FwIo ω) (os : List (IoOutcome ω)) : Prop where
  balance : ∃ new, t.made = s.made ++ new ∧
    new.map IoData.id = List.range' s.made.length new.length ∧
    (s.held ++ new).Perm (t.held ++ os.map IoOutcome.data)
  sound : ∀ o ∈ os, o.Sound s.zom
  zom : s.zom ⊆ t.zom

variable {os : List (IoOutcome ω)}

theorem Balanced.out (hm : t.made = s.made) (hz : t.zom = s.zom)
    (ho : ∀ o ∈ os, o.Sound s.zom)
    (hh : s.held.Perm (t.held ++ os.map IoOutcome.data)) : Balanced s t os where
  balance := ⟨[], by simp [hm], rfl, by simpa using hh⟩
  sound := ho
  zom := by rw [hz]; exact List.Subset.refl s.zom

/-- Nothing happens to a registration. -/
theorem Balanced.same (hm : t.made = s.made) (hz : t.zom = s.zom) (hh : t.held = s.held) :
    Balanced s t [] :=
  .out hm hz (List.forall_mem_nil _) (by simp [hh])

/-- The loop goes on. -/
theorem Balanced.loop {waitFlag : Bool} {loop : LoopPhase ω} (hs : s.loop.result = [])
    (hl : loop.result = []) : Balanced s { s with
      waitFlag := waitFlag
      loop := loop } [] :=
  .same rfl rfl (by simp [held, pending, registered, hs, hl])

/-- Something is registered. -/
theorem Balanced.new (dd : IoData ω) (hm : t.made = s.made ++ [dd]) (hz : t.zom = s.zom)
    (hi : dd.id = s.made.length) (hr : t.registered.Perm (dd :: s.registered))
    (hp : t.pending = s.pending) : Balanced s t [] where
  balance := by
    refine ⟨[dd], hm, by simp [hi], ?_⟩
    rw [List.map_nil, List.append_nil, held, held, hp]
    calc s.registered ++ s.pending ++ [dd]
      List.Perm _ (dd :: (s.registered ++ s.pending)) := List.perm_append_comm
      List.Perm _ (t.registered ++ s.pending) := (hr.append_right s.pending).symm
  sound := List.forall_mem_nil _
  zom := by rw [hz]; exact List.Subset.refl s.zom

theorem Balanced.writePipe (h : Balanced s t os) : Balanced s t.writePipe os := by
  obtain ⟨waitFlag, pipe, he⟩ := t.writePipe_frame
  rw [he]
  exact ⟨h.balance, h.sound, h.zom⟩

theorem selectFail_frame {r w e : List Int} {errno : SelectErrno}
    (h : s.selectFail r w e errno = some t) :
    ∃ loop, t = { s with loop := loop } ∧ LoopPhase.result loop = [] := by
  cases errno with
  | eintr | zero | eagain | other =>
    cases h
    exact ⟨_, rfl, rfl⟩
  | ebadf bad =>
    obtain ⟨-, he⟩ := Option.ite_none_left_eq_some.mp h
    cases he
    exact ⟨_, rfl, rfl⟩

end

omit [DecidableEq ω] in
theorem read_balanced {obj : ω} {fd opt : Int} (h : s.read obj fd opt = some t) :
    Balanced s t [] := by
  obtain ⟨-, he⟩ := Option.ite_none_left_eq_some.mp h
  cases he
  refine Balanced.writePipe (.new (s.newData .ret obj fd opt) rfl rfl rfl ?_ rfl)
  simp only [registered, ← List.cons_append]
  exact ((StdQueue.members_ins ..).append_right _).append_right _

omit [DecidableEq ω] in
theorem write_balanced {obj : ω} {fd opt : Int} (h : s.write obj fd opt = some t) :
    Balanced s t [] := by
  obtain ⟨-, he⟩ := Option.ite_none_left_eq_some.mp h
  cases he
  refine Balanced.writePipe (.new (s.newData .ret obj fd opt) rfl rfl rfl ?_ rfl)
  simp only [registered]
  exact (((StdQueue.members_ins ..).append_left _).trans List.perm_middle).append_right _

omit [DecidableEq ω] in
theorem wait_balanced (obj : ω) (tm now : Int) (type : EventType) :
    Balanced s (s.wait obj tm now type) [] := by
  refine Balanced.writePipe (.new (s.newData type obj (int64 (now + tm)) 0) rfl rfl rfl ?_ rfl)
  simp only [registered]
  exact ((StdQueue.members_ins ..).append_left _).trans List.perm_middle

theorem detach_balanced (obj : ω) (read write interval : Bool) :
    Balanced s (s.detach obj read write interval).1 (s.detach obj read write interval).2 := by
  refine Balanced.writePipe (.out rfl rfl ?_ ?_)
  · intro o ho
    obtain ⟨dd, -, rfl⟩ := List.mem_map.mp ho
    exact trivial
  have hr := detachFrom_perm s.readObjs obj read
  have hw := detachFrom_perm s.writeObjs obj write
  have hi := detachFrom_perm s.intervalObjs obj interval
  refine List.perm_iff_count.mpr fun dd => ?_
  have h₁ := hr.count_eq dd
  have h₂ := hw.count_eq dd
  have h₃ := hi.count_eq dd
  have ho : (s.detach obj read write interval).2.map IoOutcome.data =
      (detachFrom s.readObjs obj read).2 ++ (detachFrom s.writeObjs obj write).2 ++
        (detachFrom s.intervalObjs obj interval).2 := map_data fun _ => rfl
  rw [ho]
  simp only [held, pending, registered, List.count_append] at h₁ h₂ h₃ ⊢
  omega

/-- A call of `abort` goes on. -/
theorem aborting_balanced {i : Nat} {c : AbortCall ω} (hc : s.aborts[i]? = some c) :
    Balanced s (s.aborting i c).1 (s.aborting i c).2 := by
  have hset := fun d => Custody.flatMap_set (f := fun c => c.ret.toList) hc d
  unfold aborting
  split
  · rename_i dd hr
    refine .out rfl rfl ?_ (List.perm_iff_count.mpr fun x => ?_)
    · intro o ho
      obtain rfl := List.mem_singleton.mp ho
      exact .inr rfl
    have h := (hset { c with ret := none }).count_eq x
    simp only [held, pending, registered, hr, List.count_append, List.map_cons, List.map_nil,
      Option.toList_some, Option.toList_none, IoOutcome.data] at h ⊢
    simp only [List.count_nil] at h
    omega
  · rename_i hr
    split
    · rename_i dd q hq
      obtain ⟨-, hp⟩ := StdQueue.members_delIf hq
      split <;> rename_i hw
      all_goals
        refine .out rfl rfl (List.forall_mem_nil _) (List.perm_iff_count.mpr fun x => ?_)
        have h₁ := (hset { c with ret := some dd }).count_eq x
        have h₂ := hp.count_eq x
        simp only [held, pending, registered, hr, hw, List.count_append, List.map_nil,
          Option.toList_some, Option.toList_none, List.count_nil, List.count_cons,
          ↓reduceIte, Bool.false_eq_true] at h₁ h₂ ⊢
        omega
    · split
      · refine .out rfl rfl (List.forall_mem_nil _) ?_
        have h := Custody.flatMap_eraseIdx (f := fun c => c.ret.toList) hc
        rw [hr, Option.toList_none, List.nil_append] at h
        rw [List.map_nil, List.append_nil]
        exact (h.append_left _).append_left _
      · refine .out rfl rfl (List.forall_mem_nil _) ?_
        have h := (List.perm_append_left_iff _).mp (hset { c with writing := true })
        rw [List.map_nil, List.append_nil]
        exact (h.symm.append_left _).append_left _

omit [DecidableEq ω] in
theorem await_frame (s : FwIo ω) (pfd : Int) (stable : Bool) :
    ∃ waitFlag realMaxfd loop, LoopPhase.result loop = [] ∧ s.await pfd stable = { s with
      waitFlag := waitFlag
      realMaxfd := realMaxfd
      loop := loop } := by
  unfold await
  dsimp only
  split_ifs <;> exact ⟨_, _, _, rfl, rfl⟩

/-- The critical section before `select`. -/
theorem prepare_balanced {pfd : Int} {stable : Bool} (hl : s.loop.result = []) :
    Balanced s (s.filterZoms.1.await pfd stable) s.filterZoms.2 := by
  obtain ⟨waitFlag, realMaxfd, loop, hr, he⟩ := await_frame s.filterZoms.1 pfd stable
  rw [he]
  refine .out rfl rfl ?_ (List.perm_iff_count.mpr fun dd => ?_)
  · intro o ho
    obtain ⟨dd, -, rfl⟩ := List.mem_map.mp ho
    exact filterZoms_zom ho
  have h := (filterZoms_perm (s := s)).count_eq dd
  change _ = List.count dd (s.filterZoms.1.registered ++
    (loop.result ++ s.aborts.flatMap fun c => c.ret.toList) ++ _)
  simp only [held, pending, hl, hr, List.count_append] at h ⊢
  omega

/-- The critical section after `select`. -/
theorem take_balanced {r w e : List Int} {now : Int} (hl : s.loop.result = [])
    (hr : Distinct r e s.readObjs) (hw : Distinct w e s.writeObjs) :
    Balanced s (s.take r w e now) [] := by
  have ht := take_perm hr hw now
  obtain ⟨hm, hz, ha⟩ : (s.take r w e now).made = s.made ∧ (s.take r w e now).zom = s.zom ∧
      (s.take r w e now).aborts = s.aborts := by
    unfold take takeReady
    dsimp only
    split <;> exact ⟨rfl, rfl, rfl⟩
  refine .out hm hz (List.forall_mem_nil _) (List.perm_iff_count.mpr fun dd => ?_)
  have h := ht.count_eq dd
  simp only [held, pending, hl, ha, List.count_append, List.map_nil, List.count_nil] at h ⊢
  omega

/-- Every step balances in which nothing shared is reported. -/
theorem step_balanced {pfd : Int} {a : FwIoAct ω} {os : List (IoOutcome ω)} (hc : s.Unshared a)
    (hs : s.step pfd a = some (t, os)) : Balanced s t os := by
  cases a with
  | read obj fd opt =>
    obtain ⟨u, hu, he⟩ := Option.map_eq_some_iff.mp hs
    cases he
    exact read_balanced hu
  | write obj fd opt =>
    obtain ⟨u, hu, he⟩ := Option.map_eq_some_iff.mp hs
    cases he
    exact write_balanced hu
  | wait obj tm now type =>
    cases hs
    exact wait_balanced obj tm now type
  | detach obj read write interval =>
    cases hs
    exact detach_balanced obj read write interval
  | abort fd =>
    cases hs
    exact .same rfl rfl (by simp [held, pending, registered])
  | aborting i =>
    obtain ⟨c, hc, he⟩ := Option.map_eq_some_iff.mp hs
    rw [← show (s.aborting i c).1 = t from congrArg Prod.fst he,
      ← show (s.aborting i c).2 = os from congrArg Prod.snd he]
    exact aborting_balanced hc
  | addRefio =>
    cases hs
    exact .same rfl rfl rfl
  | delRefio =>
    cases hs
    exact Balanced.writePipe (.same rfl rfl rfl)
  | announce msg =>
    cases hs
    exact .same rfl rfl rfl
  | getSeq =>
    cases hs
    exact .same rfl rfl rfl
  | becomeZom obj =>
    cases hs
    exact ⟨(Balanced.same (s := s) rfl rfl rfl).balance, List.forall_mem_nil _, List.subset_cons_self obj s.zom⟩
  | loop =>
    obtain ⟨hl, he⟩ := Option.ite_none_right_eq_some.mp hs
    cases he
    exact .loop (hl ▸ rfl) rfl
  | prepare stable =>
    obtain ⟨hl, he⟩ := Option.ite_none_right_eq_some.mp hs
    cases he
    exact prepare_balanced (hl ▸ rfl)
  | select fdread fdwrite fdexp =>
    unfold step at hs
    dsimp only at hs
    split at hs
    · rename_i hl
      obtain ⟨-, he⟩ := Option.ite_none_right_eq_some.mp hs
      cases he
      exact .loop (hl ▸ rfl) rfl
    · cases hs
  | selectFail errno =>
    unfold step at hs
    dsimp only at hs
    split at hs
    · rename_i hl
      obtain ⟨u, hu, he⟩ := Option.map_eq_some_iff.mp hs
      cases he
      obtain ⟨loop, rfl, hr⟩ := selectFail_frame hu
      exact .loop (hl ▸ rfl) hr
    · cases hs
  | take now =>
    unfold step at hs
    dsimp only at hs
    split at hs
    · rename_i r w e hl
      cases hs
      obtain ⟨hr, hw⟩ : Distinct r e s.readObjs ∧ Distinct w e s.writeObjs := by
        simpa [Unshared, hl] using hc
      exact take_balanced (hl ▸ rfl) hr hw
    · cases hs
  | dispatch =>
    unfold step at hs
    dsimp only at hs
    split at hs
    · rename_i hl
      cases hs
      exact .loop (hl ▸ rfl) rfl
    · rename_i ok result hl
      cases hs
      refine .out rfl rfl ?_ (List.perm_iff_count.mpr fun dd => ?_)
      · intro o ho
        obtain rfl := List.mem_singleton.mp ho
        exact .inl rfl
      simp only [held, pending, registered, hl, LoopPhase.result, IoOutcome.data, List.map_cons,
        List.map_nil, List.count_append, List.count_cons, List.count_nil]
      omega
    · cases hs

theorem step_sound {pfd : Int} {a : FwIoAct ω} (hs : s.step pfd a = some (t, os)) :
    (∀ o ∈ os, o.Sound s.zom) ∧ s.zom ⊆ t.zom := by
  cases a with
  | take now =>
    unfold step at hs
    dsimp only at hs
    split at hs
    · cases hs
      refine ⟨List.forall_mem_nil _, ?_⟩
      unfold take takeReady
      dsimp only
      split <;> exact List.Subset.refl _
    · cases hs
  | read _ _ _ | write _ _ _ | wait _ _ _ _ | detach _ _ _ _ | abort _ | aborting _ | addRefio
  | delRefio | announce _ | getSeq | becomeZom _ | loop | prepare _ | select _ _ _ | selectFail _
  | dispatch => exact ⟨(step_balanced (by trivial) hs).sound, (step_balanced (by trivial) hs).zom⟩

-- ---------------------------------------------------------------------------
-- Runs
-- ---------------------------------------------------------------------------

variable {pfd : Int} {tr : List (IoOutcome ω)}

theorem custody : Custody (machine ω pfd) Unshared FwIo.made FwIo.held (some ∘ IoOutcome.data) where
  start s hs := by
    obtain rfl : s = initial ω := hs
    exact .refl _
  step tr s a t os _ hc hs := by
    obtain ⟨new, hm, -, hp⟩ := (step_balanced hc hs).balance
    exact ⟨new, hm, by simpa using hp⟩

/-- The objects that `fwIO` makes are numbered in the order in which it makes them. -/
theorem made_id (h : (machine ω pfd).RunIf Unshared tr s) :
    s.made.map IoData.id = List.range s.made.length := by
  refine h.stateInvariant (I := fun s => s.made.map IoData.id = List.range s.made.length) ?_ ?_
  · rintro _ rfl
    rfl
  · intro s a t os hi hc hs
    obtain ⟨new, hm, hn, -⟩ := (step_balanced hc hs).balance
    rw [hm, List.map_append, hi, hn, List.length_append, List.range_eq_range',
      List.range_eq_range']
    simpa using @List.range'_append 0 s.made.length new.length 1

theorem made_nodup (h : (machine ω pfd).RunIf Unshared tr s) : s.made.Nodup := by
  have hn : (s.made.map IoData.id).Nodup := made_id h ▸ List.nodup_range
  exact hn.of_map

/-- What is told of a registration is so, in every run. -/
theorem sound (h : (machine ω pfd).Run tr s) : ∀ o ∈ tr, o.Sound s.zom := by
  refine h.invariant (I := fun tr s => ∀ o ∈ tr, o.Sound s.zom) ?_ ?_
  · exact fun s _ => List.forall_mem_nil _
  intro tr s a t os _ hi _ hs
  obtain ⟨hos, hz⟩ := step_sound hs
  intro o ho
  exact ((List.mem_append.mp ho).elim (hi o) (hos o)).mono hz

/-- **Delivery.** As long as no descriptor on which two wait is reported, a registration
is in one place, it is kept or on the way until one thing becomes of it, and no other
thing does. -/
theorem registration_law (h : (machine ω pfd).RunIf Unshared tr s) :
    s.held.Nodup ∧ (tr.map IoOutcome.data).Nodup ∧
      (∀ dd ∈ s.made, dd ∈ s.held ↔ dd ∉ tr.map IoOutcome.data) ∧ ∀ o ∈ tr, o.Sound s.zom := by
  obtain ⟨hh, ht, hm⟩ := custody.once h (made_nodup h)
  rw [List.filterMap_eq_map] at ht hm
  exact ⟨hh, ht, hm, sound h.run⟩

/-- Two share descriptor 5, and one of them is detached before it is reported; 7 is aborted. -/
theorem registration_law_four : ∃ tr s, (machine Nat 3).RunIf Unshared tr s ∧
    tr.map (fun o => (o.data.obj, o.data.data)) = [(3, 9), (2, 5), (1, 5), (4, 7)] ∧
    s.held.Nodup ∧ (tr.map IoOutcome.data).Nodup ∧
      (∀ dd ∈ s.made, dd ∈ s.held ↔ dd ∉ tr.map IoOutcome.data) ∧ ∀ o ∈ tr, o.Sound s.zom := by
  obtain ⟨tr, s, h, hp⟩ := Machine.exists_run (M := machine Nat 3) (C := Unshared)
    (P := fun tr _ => tr.map (fun o => (o.data.obj, o.data.data)) =
      [(3, 9), (2, 5), (1, 5), (4, 7)])
    [.loop, .read 1 5 0, .read 2 5 0, .write 3 9 0, .prepare false, .select [] [9] [], .take 0,
      .dispatch, .detach 2 true true true, .dispatch, .prepare false, .select [5] [] [], .take 0,
      .dispatch, .read 4 7 0, .abort 7, .aborting 0, .aborting 0, .aborting 0, .aborting 0] rfl
    (by decide)
  exact ⟨tr, s, h, hp, registration_law h⟩

/-- Two wait for descriptor 5. The second to register gets the event, the first nothing. -/
theorem shared_descriptor_drops : ∃ tr s, (machine Nat 3).Run tr s ∧ s.zom = [] ∧
    s.made.map IoData.obj = [1, 2] ∧ tr.map (fun o => o.data.obj) = [2] ∧
    ∃ dd ∈ s.made, dd ∉ s.held ∧ dd ∉ tr.map IoOutcome.data :=
  Machine.exists_run (M := machine Nat 3) (C := fun _ _ => True)
    (P := fun tr s => s.zom = [] ∧ s.made.map IoData.obj = [1, 2] ∧
      tr.map (fun o => o.data.obj) = [2] ∧
      ∃ dd ∈ s.made, dd ∉ s.held ∧ dd ∉ tr.map IoOutcome.data)
    [.loop, .read 1 5 0, .read 2 5 0, .prepare false, .select [5] [] [], .take 0, .dispatch,
      .dispatch] rfl (by decide)

end FwIo

end TinyState
