import TinyState.Escape.Steps

/-!
# tsGC does not forget its queue

An object's `state_lock` is set by one call at a time. And while something is in
the queue of tsGC, a call, an event or a timer is under way that will have tsGC
look at it; when nothing is, the queue is empty.
-/

namespace TinyState.Escape

open Transition

variable {ω : Type} [DecidableEq ω]

/-- The call has set `state_lock`. -/
def HandlerPc.owns : HandlerPc → Bool
  | .next | .eval _ | .func _ | .delivering _ => true
  | .enter | .escaping | .lock | .notify => false

/-- A call that has set `state_lock` of `who`. -/
def Frame.owns (who : Who ω) : Frame ω → Bool
  | handler h => h.who = who && h.pc.owns
  | exe .. => false

def Shared.locked (s : Shared ω) : Who ω → Bool
  | .gc => s.gc.stateLock
  | .obj x => (s.obj x).stateLock

/-- `state_lock` is set by one call, and what has no application any more is dead. -/
structure Locked (s : Shared ω) (fs : List (Frame ω)) : Prop where
  owners : ∀ who, fs.countP (Frame.owns who) = (s.locked who).toNat
  gone : ∀ x, (s.obj x).application = false →
    (s.obj x).stage = .dead ∧ (s.obj x).stateLock = false
  events : s.gc.events ≠ [] → s.gc.stateLock = true

variable {s t : Shared ω} {fs others : List (Frame ω)} {f : Frame ω} {os : List (Obs ω)}
  {sz : Int} {d : Nat}

theorem Shared.set_obj (s : Shared ω) (x y : ω) (o : Agent) :
    (s.set x o).obj y = if y = x then o else s.obj y := rfl

theorem owners_cons (h : Handler ω) (who : Who ω) :
    (Frame.handler h :: others).countP (Frame.owns who) =
      others.countP (Frame.owns who) + if h.who = who ∧ h.pc.owns = true then 1 else 0 := by
  simp [List.countP_cons, Frame.owns]

theorem Locked.owned (hl : Locked s (f :: others)) (who : Who ω) (ho : f.owns who = true) :
    s.locked who = true := by
  have h := hl.owners who
  rw [List.countP_cons_of_pos ho] at h
  cases hs : s.locked who with
  | true => rfl
  | false =>
    rw [hs] at h
    cases h

/-- Nobody takes or gives back a lock, and the applications stay. -/
theorem Locked.same (hl : Locked s (f :: others))
    (hf : ∀ who, fs.countP (Frame.owns who) = [f].countP (Frame.owns who))
    (ho : ∀ x, (t.obj x).application = (s.obj x).application ∧
      (t.obj x).stateLock = (s.obj x).stateLock ∧
      ((s.obj x).application = false → (t.obj x).stage = (s.obj x).stage))
    (hg : t.gc.stateLock = s.gc.stateLock) (he : t.gc.events ≠ [] → t.gc.stateLock = true) :
    Locked t (fs ++ others) where
  owners who := by
    have h := hl.owners who
    rw [List.countP_append, hf, ← List.countP_append, List.singleton_append, h]
    cases who with
    | gc => exact congrArg Bool.toNat hg.symm
    | obj x => exact congrArg Bool.toNat (ho x).2.1.symm
  gone x ha := by
    obtain ⟨h₁, h₂, h₃⟩ := ho x
    rw [h₁] at ha
    obtain ⟨hs, hk⟩ := hl.gone x ha
    exact ⟨(h₃ ha).trans hs, h₂.trans hk⟩
  events := he

/-- Only the state and the events of one object change. -/
theorem Locked.set (hl : Locked s (f :: others)) {x : ω} {o : Agent}
    (hf : ∀ who, fs.countP (Frame.owns who) = [f].countP (Frame.owns who))
    (ha : o.application = (s.obj x).application) (hk : o.stateLock = (s.obj x).stateLock)
    (hs : (s.obj x).application = false → o.stage = (s.obj x).stage) :
    Locked (s.set x o) (fs ++ others) := by
  refine hl.same hf (fun y => ?_) rfl hl.events
  rw [Shared.set_obj]
  by_cases hy : y = x
  · rw [if_pos hy, hy]
    exact ⟨ha, hk, hs⟩
  · rw [if_neg hy]
    exact ⟨rfl, rfl, fun _ => rfl⟩

theorem Locked.top (hl : Locked s (f :: others)) (ht : Top sz d s f t fs os) :
    Locked t (fs ++ others) := by
  have hsame : ∀ x, (s.obj x).application = (s.obj x).application ∧
      (s.obj x).stateLock = (s.obj x).stateLock ∧
      ((s.obj x).application = false → (s.obj x).stage = (s.obj x).stage) :=
    fun x => ⟨rfl, rfl, fun _ => rfl⟩
  cases ht with
  | escape hp he | enter hp he | gcAway hp hw hf | away hp hw | gcIdle hp hw h =>
    exact hl.same (fun who => by simp [Frame.owns, HandlerPc.owns, hp]) hsame rfl hl.events
  | gcBusy hp hw hb =>
    exact hl.same (fun who => by simp [Frame.owns, HandlerPc.owns, hp]) hsame rfl fun _ => hb
  | busy hp hw | next hp hw =>
    exact hl.set (fun who => by simp [Frame.owns, HandlerPc.owns, hp]) rfl rfl fun _ => rfl
  | gcNext hp hw he =>
    refine hl.same (fun who => by simp [Frame.owns, HandlerPc.owns, hp]) hsame rfl fun _ => ?_
    exact hl.events (by simp [he])
  | dispatch hp hw | gcCheck hp hw h hq | gcBack hp hw h | gcFin hp hw h | gcTimer hp hw h | gcRet hp hw h | gcEmpty hp hw h
  | gcCall hp hw h hq | gcDeliver hp hw h hq | cut hp hw | goOn hp hw =>
    exact hl.same (fun who => by simp [Frame.owns, HandlerPc.owns, Handler.call, hp]) hsame rfl
      hl.events
  | @ret h x ev stage que pc hp hw hpc =>
    have hlock : (s.obj x).stateLock = true :=
      hl.owned (.obj x) (by simp [Frame.owns, HandlerPc.owns, hp, hw])
    refine hl.set (fun who => ?_) rfl rfl fun ha => ?_
    · rcases hpc with rfl | rfl <;> simp [Frame.owns, HandlerPc.owns, hp]
    · rw [(hl.gone x ha).2] at hlock
      cases hlock
  | leave hp =>
    refine hl.same (fun who => ?_) hsame rfl hl.events
    rcases hp with hp | hp <;> simp [Frame.owns, HandlerPc.owns, hp]
  | ins | wake | done =>
    exact hl.same (fun who => by simp [Frame.owns, HandlerPc.owns, Handler.call]) hsame rfl hl.events
  | @gcTake h now hp hw hb =>
    refine ⟨fun who => ?_, hl.gone, fun _ => rfl⟩
    have ho := hl.owners who
    simp only [List.singleton_append, owners_cons, hw, hp, HandlerPc.owns] at ho ⊢
    cases who with
    | gc => simpa [Shared.locked, hb] using ho
    | obj y => simpa [Shared.locked] using ho
  | @take h x que hp hw hd hb =>
    refine ⟨fun who => ?_, fun y ha => ?_, hl.events⟩
    · have ho := hl.owners who
      simp only [List.singleton_append, owners_cons, hw, hp, HandlerPc.owns] at ho ⊢
      cases who with
      | gc => simpa [Shared.locked, Shared.set] using ho
      | obj y =>
        by_cases hy : y = x
        · subst hy
          simpa [Shared.locked, Shared.set_obj, hb] using ho
        · simpa [Shared.locked, Shared.set_obj, hy, Ne.symm hy] using ho
    · rw [Shared.set_obj] at ha ⊢
      by_cases hy : y = x
      · rw [if_pos hy] at ha
        exact absurd (hl.gone x ha).1 hd
      · rw [if_neg hy] at ha ⊢
        exact hl.gone y ha
  | @gcEnd h hp hw he =>
    refine ⟨fun who => ?_, hl.gone, fun hne => absurd he hne⟩
    have ho := hl.owners who
    simp only [List.singleton_append, owners_cons, hw, hp, HandlerPc.owns] at ho ⊢
    cases who with
    | gc =>
      have hb := Bool.toNat_le s.gc.stateLock
      have hone : others.countP (Frame.owns .gc) + 1 = s.gc.stateLock.toNat := by
        simpa [Shared.locked] using ho
      have hnone : others.countP (Frame.owns .gc) = 0 := by omega
      simpa [Shared.locked] using hnone
    | obj y => simpa [Shared.locked] using ho
  | @finish h x hp hw =>
    have hlock : (s.obj x).stateLock = true :=
      hl.owned (.obj x) (by simp [Frame.owns, HandlerPc.owns, hp, hw])
    refine ⟨fun who => ?_, fun y ha => ?_, hl.events⟩
    · have ho := hl.owners who
      simp only [List.singleton_append, owners_cons, hw, hp, HandlerPc.owns] at ho ⊢
      cases who with
      | gc => simpa [Shared.locked, Shared.set] using ho
      | obj y =>
        by_cases hy : y = x
        · subst hy
          simpa [Shared.locked, Shared.set_obj, hlock] using ho
        · simpa [Shared.locked, Shared.set_obj, hy, Ne.symm hy] using ho
    · rw [Shared.set_obj] at ha ⊢
      by_cases hy : y = x
      · rw [if_pos hy] at ha ⊢
        have happ : (s.obj x).application ≠ false := fun happ => by
          rw [(hl.gone x happ).2] at hlock
          cases hlock
        refine ⟨?_, rfl⟩
        simpa [happ] using ha
      · rw [if_neg hy] at ha ⊢
        exact hl.gone y ha

omit [DecidableEq ω] in
/-- What is pushed is a call that only begins. -/
theorem push_cases {a : PushAct ω} {g : Frame ω} (hp : s.push a = some (t, g)) :
    (∃ who ev worker, g = .handler (.call who ev worker)) ∨ ∃ x, g = .exe (.ts x) .ins := by
  cases a with
  | call who ev worker =>
    cases hp
    exact .inl ⟨_, _, _, rfl⟩
  | timer id =>
    obtain ⟨-, hp⟩ := Option.ite_none_right_eq_some.mp hp
    cases hp
    exact .inl ⟨_, _, _, rfl⟩
  | exe x =>
    cases hp
    exact .inr ⟨_, rfl⟩

theorem owns_push {a : PushAct ω} {g : Frame ω} (hp : s.push a = some (t, g)) (who : Who ω) :
    g.owns who = false := by
  obtain ⟨who', ev, worker, rfl⟩ | ⟨x, rfl⟩ := push_cases hp
  · exact Bool.and_false _
  · rfl

omit [DecidableEq ω] in
/-- Calling changes no more than the timers. -/
theorem Shared.push_eq {a : PushAct ω} {g : Frame ω} (hp : s.push a = some (t, g)) :
    t = { s with timers := t.timers } := by
  cases a with
  | call who ev worker | exe x =>
    cases hp
    rfl
  | timer id =>
    obtain ⟨-, hp⟩ := Option.ite_none_right_eq_some.mp hp
    cases hp
    rfl

theorem Locked.kept : App.Kept (ω := ω) Locked where
  perm s fs gs hp hl := ⟨fun who => (hp.countP_eq _).symm.trans (hl.owners who), hl.gone, hl.events⟩
  top sz d s f t fs os others ht hl := hl.top ht
  push s a t g others hp hl := by
    rw [Shared.push_eq hp]
    refine ⟨fun who => ?_, hl.gone, hl.events⟩
    rw [List.countP_cons_of_neg (by simp [owns_push hp who])]
    exact hl.owners who
  env s a others hl := by
    cases a with
    | evhDepth v | interval v | destroy => exact ⟨hl.owners, hl.gone, hl.events⟩

theorem Locked.initial (v : Int) : Locked (App.initial ω v).shared [] := by
  refine ⟨fun who => ?_, nofun, nofun⟩
  cases who <;> rfl

/-- Of the calls of one object only one has the lock. -/
theorem Locked.alone (hl : Locked s (f :: others)) {who : Who ω} (hf : f.owns who = true) :
    ∀ g ∈ others, g.owns who = false := by
  have ho := hl.owners who
  have hb := Bool.toNat_le (s.locked who)
  rw [List.countP_cons_of_pos hf] at ho
  have hz : others.countP (Frame.owns who) = 0 := by omega
  simpa using List.countP_eq_zero.mp hz

-- ---------------------------------------------------------------------------
-- While something is in the queue, tsGC is on its way to it
-- ---------------------------------------------------------------------------

/-- What kind of event the call is about to bring to tsGC. -/
def Frame.brings : Frame ω → Option EventType
  | handler h =>
    if h.who = .gc then
      match h.pc with
      | .enter | .lock => some h.ev.type
      | _ => none
    else none
  | exe _ .wake => some .wakeup
  | exe .. => none

/-- What kind of event tsGC is at. -/
def Frame.evals : Frame ω → Option EventType
  | handler h =>
    if h.who = .gc then
      match h.pc with
      | .eval ev | .delivering ev => some ev.type
      | _ => none
    else none
  | exe .. => none

/-- An event of the kind is in the event queue of tsGC, or about to be put there. -/
def Coming (s : Shared ω) (fs : List (Frame ω)) (k : EventType) : Prop :=
  (∃ ev ∈ s.gc.events, ev.type = k) ∨ ∃ f ∈ fs, f.brings = some k

def Evaluated (fs : List (Frame ω)) (k : EventType) : Prop := ∃ f ∈ fs, f.evals = some k

structure Attended (s : Shared ω) (fs : List (Frame ω)) : Prop where
  start : s.gc.state = .actStart → s.gc.que.toList ≠ [] → ∃ k, Coming s fs k ∨ Evaluated fs k
  check : s.gc.state = .actCheck →
    (∃ k, Evaluated fs k) ∧ (s.gc.que.toList ≠ [] → ∃ k, Coming s fs k)
  ret : s.gc.state = .actRet → 0 < s.timers ∨ Coming s fs .ret ∨ Evaluated fs .ret
  exe : s.gc.state = .actExe → ∃ k, Evaluated fs k

variable {k : EventType}

theorem Coming.step (h : Coming s (f :: others) k)
    (he : ∀ ev ∈ s.gc.events, Coming t (fs ++ others) ev.type)
    (hf : ∀ k, f.brings = some k → Coming t (fs ++ others) k) : Coming t (fs ++ others) k := by
  obtain ⟨ev, hm, rfl⟩ | ⟨g, hg, hk⟩ := h
  · exact he ev hm
  · obtain rfl | hg := List.mem_cons.mp hg
    · exact hf k hk
    · exact .inr ⟨g, List.mem_append_right _ hg, hk⟩

theorem Evaluated.step (h : Evaluated (f :: others) k)
    (hf : ∀ k, f.evals = some k → Evaluated (fs ++ others) k) : Evaluated (fs ++ others) k := by
  obtain ⟨g, hg, hk⟩ := h
  obtain rfl | hg := List.mem_cons.mp hg
  · exact hf k hk
  · exact ⟨g, List.mem_append_right _ hg, hk⟩

/-- A call that is at an event. -/
theorem Evaluated.of_mem {h : Handler ω} {ev : StdEvent} (hm : .handler h ∈ fs)
    (hw : h.who = .gc) (hp : h.pc = .eval ev ∨ h.pc = .delivering ev) : Evaluated fs ev.type := by
  refine ⟨_, hm, ?_⟩
  rcases hp with hp | hp <;> simp [Frame.evals, hw, hp]

theorem mem_insEvent {q : List StdEvent} {ev e : StdEvent} (h : e ∈ q) : e ∈ insEvent q ev := by
  unfold insEvent
  split
  · exact h
  · exact List.mem_append_left _ h

/-- One of its kind is in the queue then. -/
theorem insEvent_type (q : List StdEvent) (ev : StdEvent) :
    ∃ e ∈ insEvent q ev, e.type = ev.type := by
  unfold insEvent
  split
  · rename_i hm
    exact hm.2
  · exact ⟨ev, List.mem_append_right _ (List.mem_singleton.mpr rfl), rfl⟩

/-- Where the state of tsGC and its queue stay. -/
theorem Attended.same {gs : List (Frame ω)} (ha : Attended s gs)
    (hs : t.gc.state = s.gc.state) (hq : t.gc.que = s.gc.que)
    (hc : ∀ k, Coming s gs k → Coming t fs k) (he : ∀ k, Evaluated gs k → Evaluated fs k)
    (ht : 0 < s.timers → 0 < t.timers ∨ Coming t fs .ret) : Attended t fs where
  start h hne := (ha.start (hs ▸ h) (hq ▸ hne)).imp fun k => Or.imp (hc k) (he k)
  check h := by
    obtain ⟨⟨k, hk⟩, hcall⟩ := ha.check (hs ▸ h)
    exact ⟨⟨k, he k hk⟩, fun hne => (hcall (hq ▸ hne)).imp hc⟩
  ret h := by
    rcases ha.ret (hs ▸ h) with hn | hr | hr
    · exact (ht hn).imp_right .inl
    · exact .inr (.inl (hc _ hr))
    · exact .inr (.inr (he _ hr))
  exe h := (ha.exe (hs ▸ h)).imp he

theorem evals_owns (h : f.evals = some k) : f.owns .gc = true := by
  cases f with
  | exe e pc => cases h
  | handler h' =>
    obtain ⟨who, ev, worker, pc, limit, ini⟩ := h'
    simp only [Frame.evals] at h
    split at h
    · cases pc with
      | enter | escaping | lock | next | func ev | notify => cases h
      | eval ev | delivering ev => simp [Frame.owns, HandlerPc.owns, *]
    · cases h

/-- In `FIN_START` nothing is promised. -/
theorem Attended.fin (h : s.gc.state = .finStart) : Attended s fs := by
  constructor
  all_goals
    intro hs
    rw [h] at hs
    cases hs

/-- What was in the event queue is there still, or is what tsGC is at now. -/
theorem Attended.next {g : Frame ω} {ev : StdEvent} {q : List StdEvent}
    (ha : Attended s (f :: others)) (hl : Locked s (f :: others)) (hf : f.owns .gc = true)
    (hb : f.brings = none) (he : f.evals = none) (hq : s.gc.events = ev :: q)
    (hg : g.evals = some ev.type) :
    Attended { s with gc := { s.gc with events := q } } (g :: others) := by
  have hnone : ∀ k, ¬Evaluated (f :: others) k := by
    rintro k ⟨f', hm, hk⟩
    obtain rfl | hm := List.mem_cons.mp hm
    · rw [he] at hk
      cases hk
    · have hno := hl.alone hf f' hm
      rw [evals_owns hk] at hno
      cases hno
  have hcome : ∀ k, Coming s (f :: others) k →
      Coming { s with gc := { s.gc with events := q } } (g :: others) k ∨
        Evaluated (g :: others) k := by
    rintro k (⟨e, hm, rfl⟩ | ⟨f', hm, hk⟩)
    · rw [hq] at hm
      obtain rfl | hm := List.mem_cons.mp hm
      · exact .inr ⟨g, List.mem_cons_self, hg⟩
      · exact .inl (.inl ⟨e, hm, rfl⟩)
    · obtain rfl | hm := List.mem_cons.mp hm
      · rw [hb] at hk
        cases hk
      · exact .inl (.inr ⟨f', List.mem_cons_of_mem _ hm, hk⟩)
  refine ⟨fun hs hne => ?_, fun hs => ?_, fun hs => ?_, fun hs => ?_⟩
  · obtain ⟨k, hk | hk⟩ := ha.start hs hne
    · exact ⟨k, hcome k hk⟩
    · exact absurd hk (hnone k)
  · obtain ⟨⟨k, hk⟩, -⟩ := ha.check hs
    exact absurd hk (hnone k)
  · rcases ha.ret hs with hn | hr | hr
    · exact .inl hn
    · exact .inr (hcome _ hr)
    · exact absurd hr (hnone _)
  · obtain ⟨k, hk⟩ := ha.exe hs
    exact absurd hk (hnone k)

theorem Attended.top (ha : Attended s (f :: others)) (hl : Locked s (f :: others))
    (ht : Top sz d s f t fs os) : Attended t (fs ++ others) := by
  have hmem : ∀ (u : Shared ω) (gs : List (Frame ω)), u.gc.events = s.gc.events →
      ∀ ev ∈ s.gc.events, Coming u gs ev.type :=
    fun u gs hu ev hm => .inl ⟨ev, hu ▸ hm, rfl⟩
  -- Nothing of tsGC changes but the call, which does what the one before it did.
  have hsame : (∀ k, f.brings = some k → Coming t (fs ++ others) k) →
      (∀ k, f.evals = some k → Evaluated (fs ++ others) k) →
      t.gc.state = s.gc.state → t.gc.que = s.gc.que → t.gc.events = s.gc.events →
      t.timers = s.timers → Attended t (fs ++ others) := by
    intro hb he hs hq hev htm
    refine ha.same hs hq (fun k hc => hc.step (hmem t _ hev) hb) (fun k h => h.step he) ?_
    rw [htm]
    exact .inl
  have hquiet : f.brings = none → f.evals = none → t.gc.state = s.gc.state →
      t.gc.que = s.gc.que → t.gc.events = s.gc.events → t.timers = s.timers →
      Attended t (fs ++ others) :=
    fun hb he => hsame (fun k hk => nomatch hb.symm.trans hk) fun k hk => nomatch he.symm.trans hk
  cases ht with
  | escape hp he =>
    exact hquiet (by simp [Frame.brings, he.2.2.2.2.2]) (by simp [Frame.evals, hp]) rfl rfl rfl rfl
  | away hp hw | busy hp hw | take hp hw | finish hp hw | next hp hw | dispatch hp hw
  | ret hp hw =>
    exact hquiet (by simp [Frame.brings, hw]) (by simp [Frame.evals, hw]) rfl rfl rfl rfl
  | gcEnd hp hw he =>
    exact hquiet (by simp [Frame.brings, hp]) (by simp [Frame.evals, hp]) rfl rfl rfl rfl
  | leave hp =>
    refine hquiet ?_ ?_ rfl rfl rfl rfl
    · rcases hp with hp | hp <;> simp [Frame.brings, hp]
    · rcases hp with hp | hp <;> simp [Frame.evals, hp]
  | done => exact hquiet rfl rfl rfl rfl rfl rfl
  | enter hp he =>
    refine hsame (fun k hk => .inr ⟨_, List.mem_cons_self, ?_⟩) (fun k hk => ?_) rfl rfl rfl rfl
    · simpa [Frame.brings, Shared.tested, hp] using hk
    · simp [Frame.evals, hp] at hk
  | goOn hp hw =>
    refine hsame (fun k hk => ?_) (fun k hk => ⟨_, List.mem_cons_self, ?_⟩) rfl rfl rfl rfl
    · simp [Frame.brings, hp] at hk
    · simpa [Frame.evals, hp, hw] using hk
  | wake =>
    refine hsame (fun k hk => .inr ⟨_, List.mem_cons_self, hk⟩) (fun k hk => ?_) rfl rfl rfl rfl
    cases hk
  | gcAway hp hw hf => exact .fin hf
  | gcFin hp hw hs => exact .fin rfl
  | gcBusy hp hw hb | gcTake hp hw hb =>
    refine ha.same rfl rfl (fun k hc => hc.step (fun ev hm => .inl ⟨ev, mem_insEvent hm, rfl⟩) ?_)
      (fun k he => he.step ?_) .inl
    · intro k hk
      obtain rfl : _ = k := by simpa [Frame.brings, hp, hw] using hk
      exact .inl (insEvent_type _ _)
    · intro k hk
      simp [Frame.evals, hp] at hk
  | gcNext hp hw hq =>
    refine ha.next hl ?_ ?_ ?_ hq ?_
    · simp [Frame.owns, HandlerPc.owns, hp, hw]
    · simp [Frame.brings, hp]
    · simp [Frame.evals, hp]
    · simp [Frame.evals, hw]
  | @gcIdle h ev hp hw hi =>
    obtain hs | ⟨hs, hr⟩ := hi
    · exact .fin hs
    · refine ⟨fun h => ?_, fun h => ?_, fun _ => ?_, fun h => ?_⟩
      · exact nomatch hs.symm.trans h
      · exact nomatch hs.symm.trans h
      · rcases ha.ret hs with hn | hc | ⟨g, hg, hk⟩
        · exact .inl hn
        · refine .inr (.inl (hc.step (hmem _ _ rfl) fun k hk => ?_))
          simp [Frame.brings, hp] at hk
        · obtain rfl | hg := List.mem_cons.mp hg
          · simp [Frame.evals, hp, hw, hr] at hk
          · exact .inr (.inr ⟨g, List.mem_append_right _ hg, hk⟩)
      · exact nomatch hs.symm.trans h
  | @gcCheck h ev hp hw hs hq =>
    refine ⟨nofun, fun _ => ⟨⟨ev.type, ?_⟩, fun hne => absurd hq hne⟩, nofun, nofun⟩
    exact .of_mem List.mem_cons_self hw (.inl rfl)
  | gcBack hp hw hs =>
    refine ⟨fun _ hne => ?_, nofun, nofun, nofun⟩
    obtain ⟨k, hk⟩ := (ha.check hs).2 hne
    refine ⟨k, .inl (hk.step (hmem _ _ rfl) fun k hk => ?_)⟩
    simp [Frame.brings, hp] at hk
  | gcTimer hp hw hs => exact ⟨nofun, nofun, fun _ => .inl (Nat.succ_pos _), nofun⟩
  | @gcRet h ev hp hw hs =>
    refine ⟨nofun, nofun, nofun, fun _ => ⟨ev.type, ?_⟩⟩
    exact .of_mem List.mem_cons_self hw (.inl rfl)
  | @gcEmpty h ev hp hw hs | @cut h ev hp hw =>
    refine ⟨fun _ _ => ⟨ev.type, .inr ?_⟩, nofun, nofun, nofun⟩
    exact .of_mem List.mem_cons_self hw (.inl rfl)
  | @gcCall h ev x que id hp hw hs hq | @gcDeliver h ev j que hp hw hs hq =>
    refine ⟨fun h => ?_, fun h => ?_, fun h => ?_, fun _ => ⟨ev.type, ?_⟩⟩
    · exact nomatch hs.symm.trans h
    · exact nomatch hs.symm.trans h
    · exact nomatch hs.symm.trans h
    · exact .of_mem (List.mem_cons_of_mem _ List.mem_cons_self) hw (.inr rfl)
  | @ins e key hf =>
    have heval : ∀ k, Evaluated (.exe e .ins :: others) k →
        Evaluated ([.exe e .wake] ++ others) k := fun k he => he.step fun k hk => nomatch hk
    refine ⟨fun _ _ => ⟨.wakeup, .inl (.inr ⟨_, List.mem_cons_self, rfl⟩)⟩, fun hs => ?_,
      fun hs => ?_, fun hs => (ha.exe hs).imp heval⟩
    · exact ⟨(ha.check hs).1.imp heval, fun _ => ⟨.wakeup, .inr ⟨_, List.mem_cons_self, rfl⟩⟩⟩
    · refine (ha.ret hs).imp_right (.imp (fun hc => hc.step (hmem _ _ rfl) ?_) (heval _))
      exact fun k hk => nomatch hk

/-- The locks, and what tsGC has to do. -/
theorem Attended.kept : App.Kept (ω := ω) fun s fs => Locked s fs ∧ Attended s fs where
  perm s fs gs hp h := by
    refine ⟨Locked.kept.perm s fs gs hp h.1, h.2.same rfl rfl (fun k hc => hc.imp_right ?_) ?_ .inl⟩
    · rintro ⟨f, hf, hk⟩
      exact ⟨f, hp.mem_iff.mp hf, hk⟩
    · rintro k ⟨f, hf, hk⟩
      exact ⟨f, hp.mem_iff.mp hf, hk⟩
  top sz d s f t fs os others ht h := ⟨h.1.top ht, h.2.top h.1 ht⟩
  push s a t g others hp h := by
    refine ⟨Locked.kept.push s a t g others hp h.1, ?_⟩
    have hc : ∀ k, Coming s others k → Coming t (g :: others) k := by
      rw [Shared.push_eq hp]
      exact fun k hc => hc.imp_right fun ⟨f, hf, hk⟩ => ⟨f, List.mem_cons_of_mem _ hf, hk⟩
    have he : ∀ k, Evaluated others k → Evaluated (g :: others) k :=
      fun k ⟨f, hf, hk⟩ => ⟨f, List.mem_cons_of_mem _ hf, hk⟩
    cases a with
    | call who ev worker =>
      cases hp
      exact h.2.same rfl rfl hc he .inl
    | exe x =>
      cases hp
      exact h.2.same rfl rfl hc he .inl
    | timer id =>
      -- The timer that is gone has become a `TSE_RETURN`.
      obtain ⟨-, hp⟩ := Option.ite_none_right_eq_some.mp hp
      cases hp
      exact h.2.same rfl rfl hc he fun _ => .inr (.inr ⟨_, List.mem_cons_self, rfl⟩)
  env s a others h := by
    refine ⟨Locked.kept.env s a others h.1, ?_⟩
    cases a with
    | evhDepth v | interval v | destroy => exact h.2.same rfl rfl (fun _ => id) (fun _ => id) .inl

theorem Attended.run {sz : Nat → Int} {s : App ω} {tr : List (Obs ω)}
    (h : (App.machine ω sz).Run tr s) : Locked s.shared s.frames ∧ Attended s.shared s.frames := by
  refine Attended.kept.run (fun v => ⟨.initial v, ?_⟩) h
  exact ⟨fun _ hne => absurd rfl hne, nofun, nofun, nofun⟩

/-- Something that tsGC is still to see to. -/
def Frame.tends : Frame ω → Bool
  | handler h => h.who = .gc
  | exe _ .done => false
  | exe .. => true

/-- When nothing is under way the queue is empty. -/
theorem Attended.rest (ha : Attended s fs) (hl : Locked s fs)
    (hr : ∀ f ∈ fs, f.tends = false) (ht : s.timers = 0) (hf : s.gc.state ≠ .finStart) :
    s.gc.que.toList = [] := by
  have hunlocked : ∀ f ∈ fs, f.owns .gc = false := by
    intro f hm
    have h := hr f hm
    cases f with
    | exe e pc => rfl
    | handler h' =>
      have hw : h'.who ≠ .gc := by simpa [Frame.tends] using h
      simp [Frame.owns, hw]
  have heval : ∀ k, ¬Evaluated fs k := by
    rintro k ⟨f, hm, hk⟩
    have h := hunlocked f hm
    rw [evals_owns hk] at h
    cases h
  have hcome : ∀ k, ¬Coming s fs k := by
    rintro k (⟨ev, hm, -⟩ | ⟨f, hm, hk⟩)
    · have ho := hl.owners .gc
      rw [List.countP_eq_zero.mpr (by simpa using hunlocked), Shared.locked,
        hl.events (List.ne_nil_of_mem hm)] at ho
      cases ho
    · have h := hr f hm
      cases f with
      | exe e pc =>
        cases pc with
        | ins | wake => cases h
        | done => cases hk
      | handler h' =>
        have hw : h'.who ≠ .gc := by simpa [Frame.tends] using h
        simp [Frame.brings, hw] at hk
  by_contra hne
  cases hs : s.gc.state with
  | actStart =>
    obtain ⟨k, hk | hk⟩ := ha.start hs hne
    · exact hcome k hk
    · exact heval k hk
  | actCheck =>
    obtain ⟨k, hk⟩ := (ha.check hs).2 hne
    exact hcome k hk
  | actRet =>
    rcases ha.ret hs with hn | hk | hk
    · rw [ht] at hn
      cases hn
    · exact hcome _ hk
    · exact heval _ hk
  | actExe =>
    obtain ⟨k, hk⟩ := ha.exe hs
    exact heval k hk
  | finStart => exact hf hs

end TinyState.Escape
