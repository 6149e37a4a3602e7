import Mathlib.Data.List.Nodup
import TinyState.Escape.Attended

/-!
# What is left to tsGC is delivered

Each event that is left to tsGC is on its way into its queue, in the queue, or has
been delivered, once. And a call of an object other than tsGC goes on above the limit
only where it found an INI state or is a worker's.
-/

namespace TinyState.Escape

open Transition

variable {ω : Type}

def GcEntry.job? : GcEntry ω → Option (GcJob ω)
  | ts _ => none
  | job j => some j

/-- The job that a call has not put in the queue yet. -/
def Frame.job? : Frame ω → Option (GcJob ω)
  | exe e .ins => e.job?
  | _ => none

def Obs.escaped? : Obs ω → Option (GcJob ω)
  | escape j => some j
  | _ => none

def Obs.delivered? : Obs ω → Option (GcJob ω)
  | deliver j => some j
  | _ => none

/-- The jobs in the queue, and those that were in it at the end. -/
def Shared.jobs (s : Shared ω) : List (GcJob ω) :=
  (s.gc.que.toList ++ s.dropped).filterMap GcEntry.job?

variable [DecidableEq ω] {sz : Int} {d : Nat} {s t : Shared ω} {f : Frame ω}
  {fs : List (Frame ω)} {os : List (Obs ω)}

/-- What a step takes into the custody of tsGC: nothing, or the next event. -/
def Next (s t : Shared ω) (new : List (GcJob ω)) : Prop :=
  t.deferred = s.deferred ++ new ∧
    ((new = [] ∧ t.seq = s.seq) ∨ ∃ j, new = [j] ∧ j.seq = s.seq ∧ t.seq = s.seq + 1)

theorem Top.taken (ht : Top sz d s f t fs os) : Next s t (os.filterMap Obs.escaped?) := by
  cases ht with
  | escape hp he => exact ⟨rfl, .inr ⟨_, rfl, rfl, rfl⟩⟩
  | _ => exact ⟨(List.append_nil _).symm, .inl ⟨rfl, rfl⟩⟩

omit [DecidableEq ω] in
theorem job?_push {a : PushAct ω} {g : Frame ω} (hp : s.push a = some (t, g)) :
    g.job? = none := by
  obtain ⟨who, ev, worker, rfl⟩ | ⟨x, rfl⟩ := push_cases hp <;> rfl

/-- A job that is handed over comes out of the queue. -/
theorem Top.custody (ht : Top sz d s f t fs os) :
    (s.jobs ++ [f].filterMap Frame.job? ++ os.filterMap Obs.escaped?).Perm
      (t.jobs ++ fs.filterMap Frame.job? ++ os.filterMap Obs.delivered?) := by
  have hquiet : t.jobs = s.jobs → [f].filterMap Frame.job? = [] → fs.filterMap Frame.job? = [] →
      os.filterMap Obs.escaped? = [] → os.filterMap Obs.delivered? = [] →
      (s.jobs ++ [f].filterMap Frame.job? ++ os.filterMap Obs.escaped?).Perm
        (t.jobs ++ fs.filterMap Frame.job? ++ os.filterMap Obs.delivered?) := by
    intro h₁ h₂ h₃ h₄ h₅
    rw [h₁, h₂, h₃, h₄, h₅]
  cases ht with
  | escape hp he =>
    change (s.jobs ++ [] ++ [_]).Perm (s.jobs ++ [_] ++ [])
    rw [List.append_nil, List.append_nil]
  | ins hf =>
    rename_i e key
    have hq := (s.gc.que.toList_ins key e).append_right s.dropped
    have hp := (hq.filterMap GcEntry.job?).symm
    rw [List.cons_append, ← List.singleton_append, List.filterMap_append] at hp
    change (s.jobs ++ [e].filterMap GcEntry.job? ++ []).Perm (Shared.jobs _ ++ [] ++ [])
    rw [List.append_nil, List.append_nil, List.append_nil]
    exact List.perm_append_comm.trans hp
  | gcDeliver hp hw hs hq =>
    rename_i h ev j que
    have hp := ((hq.append_right s.dropped).filterMap GcEntry.job?)
    change (s.jobs ++ [] ++ []).Perm (Shared.jobs _ ++ [] ++ [j])
    rw [List.append_nil, List.append_nil, List.append_nil]
    exact hp.trans (List.perm_append_singleton ..).symm
  | gcCall hp hw hs hq =>
    have hp := ((hq.append_right s.dropped).filterMap GcEntry.job?)
    change (s.jobs ++ [] ++ []).Perm (Shared.jobs _ ++ [] ++ [])
    rw [List.append_nil, List.append_nil, List.append_nil, List.append_nil]
    exact hp
  | gcFin hp hw hs =>
    have hp : (s.gc.que.toList ++ s.dropped).Perm ([] ++ (s.dropped ++ s.gc.que.toList)) :=
      List.perm_append_comm
    change (s.jobs ++ [] ++ []).Perm (Shared.jobs _ ++ [] ++ [])
    rw [List.append_nil, List.append_nil, List.append_nil, List.append_nil]
    exact hp.filterMap GcEntry.job?
  | _ => exact hquiet rfl rfl rfl rfl rfl

-- ---------------------------------------------------------------------------
-- Nothing is dropped before the end
-- ---------------------------------------------------------------------------

/-- tsGC has called an object in `ACT_EXE`. -/
def Frame.delivers : Frame ω → Bool
  | handler h => h.who = .gc && match h.pc with
    | .delivering _ => true
    | _ => false
  | exe .. => false

theorem delivers_owns (h : f.delivers = true) : f.owns .gc = true := by
  cases f with
  | exe e pc => cases h
  | handler h' =>
    obtain ⟨hw, hp⟩ := (Bool.and_eq_true_iff ..).mp h
    obtain ⟨who, ev, worker, pc, limit, ini⟩ := h'
    cases pc with
    | enter | escaping | lock | next | eval ev | func ev | notify => cases hp
    | delivering ev => exact (Bool.and_eq_true_iff ..).mpr ⟨hw, rfl⟩

structure Alive (s : Shared ω) (fs : List (Frame ω)) : Prop where
  exe : ∀ f ∈ fs, f.delivers = true → s.gc.state = .actExe
  kept : s.gc.state ≠ .finStart → s.dropped = []

/-- The state of tsGC is changed only by the call that has its lock. -/
theorem Top.state (ht : Top sz d s f t fs os) :
    t.gc.state = s.gc.state ∧ t.dropped = s.dropped ∨ f.owns .gc = true := by
  cases ht with
  | gcCheck hp hw h hq | gcBack hp hw h | gcFin hp hw h | gcTimer hp hw h | gcRet hp hw h
  | gcEmpty hp hw h | cut hp hw => exact .inr (by simp [Frame.owns, HandlerPc.owns, hp, hw])
  | _ => exact .inl ⟨rfl, rfl⟩

theorem Top.delivers (ht : Top sz d s f t fs os) :
    ∀ g ∈ fs, g.delivers = true → t.gc.state = .actExe := by
  cases ht with
  | gcCall hp hw h hq | gcDeliver hp hw h hq => exact fun _ _ _ => h
  | leave | done | gcAway | gcBusy | away | busy => exact fun g hg => nomatch hg
  | escape hp he | wake => simp [Frame.delivers, Handler.call]
  | ret hp hw hpc => rcases hpc with rfl | rfl <;> simp [Frame.delivers]
  | _ => simp [Frame.delivers]

theorem Alive.top {others : List (Frame ω)} (ha : Alive s (f :: others))
    (hl : Locked s (f :: others)) (ht : Top sz d s f t fs os) : Alive t (fs ++ others) where
  exe g hg hd := by
    rcases List.mem_append.mp hg with hg | hg
    · exact ht.delivers g hg hd
    · rcases ht.state with ⟨hs, -⟩ | ho
      · exact hs.trans (ha.exe g (List.mem_cons_of_mem _ hg) hd)
      · have hno := hl.alone ho g hg
        rw [delivers_owns hd] at hno
        cases hno
  kept hf := by
    cases ht with
    | gcFin hp hw h => exact absurd rfl hf
    | gcCheck hp hw h hq | gcBack hp hw h | gcTimer hp hw h | gcRet hp hw h | gcEmpty hp hw h =>
      exact ha.kept (by simp [h])
    | cut hp hw =>
      have hs := ha.exe _ List.mem_cons_self (by simp [Frame.delivers, hp, hw])
      exact ha.kept (by simp [hs])
    | _ => exact ha.kept hf

theorem Alive.always : App.Kept (ω := ω) fun s fs => Locked s fs ∧ Alive s fs where
  perm s fs gs hp h :=
    ⟨Locked.kept.perm s fs gs hp h.1, fun f hf => h.2.exe f (hp.mem_iff.mpr hf), h.2.kept⟩
  top sz d s f t fs os others ht h := ⟨h.1.top ht, h.2.top h.1 ht⟩
  push s a t g others hp h := by
    refine ⟨Locked.kept.push s a t g others hp h.1, ?_⟩
    rw [Shared.push_eq hp]
    refine ⟨fun f hf hd => ?_, h.2.kept⟩
    obtain rfl | hf := List.mem_cons.mp hf
    · have hno := owns_push hp .gc
      rw [delivers_owns hd] at hno
      cases hno
    · exact h.2.exe f hf hd
  env s a others h := by
    refine ⟨Locked.kept.env s a others h.1, ?_⟩
    cases a with
    | evhDepth v | interval v | destroy => exact ⟨h.2.exe, h.2.kept⟩

theorem Alive.run {sz : Nat → Int} {s : App ω} {tr : List (Obs ω)}
    (h : (App.machine ω sz).Run tr s) : Alive s.shared s.frames := by
  refine (Alive.always.run (fun v => ⟨.initial v, ?_⟩) h).2
  exact ⟨List.forall_mem_nil _, fun _ => rfl⟩

namespace App

variable {sz : Nat → Int} {s t : App ω} {tr os : List (Obs ω)}

/-- The jobs that tsGC has in custody. -/
def held (s : App ω) : List (GcJob ω) := s.shared.jobs ++ s.frames.filterMap Frame.job?

omit [DecidableEq ω] in
/-- What the other calls have is moved to the end. -/
theorem others_last {β : Type} (a b c others : List β) :
    (a ++ (b ++ others) ++ c).Perm (a ++ b ++ c ++ others) := by
  rw [List.append_assoc, List.append_assoc, List.append_assoc, List.append_assoc]
  exact (List.perm_append_comm.append_left b).append_left a

/-- What a step does to what is in custody. -/
theorem Stepped.custody (hs : Stepped sz s t os) :
    Next s.shared t.shared (os.filterMap Obs.escaped?) ∧
      (s.held ++ os.filterMap Obs.escaped?).Perm (t.held ++ os.filterMap Obs.delivered?) := by
  have hquiet : t.shared.deferred = s.shared.deferred → t.shared.seq = s.shared.seq →
      t.shared.jobs = s.shared.jobs →
      (t.frames.filterMap Frame.job?).Perm (s.frames.filterMap Frame.job?) →
      Next s.shared t.shared [] ∧ (s.held ++ []).Perm (t.held ++ []) := by
    intro h₁ h₂ h₃ h₄
    refine ⟨⟨h₁.trans (List.append_nil _).symm, .inl ⟨rfl, h₂⟩⟩, ?_⟩
    rw [List.append_nil, List.append_nil, held, held, h₃]
    exact h₄.symm.append_left _
  cases hs with
  | @top i f rest fs _ hst ht he =>
    obtain ⟨others, h₁, h₂⟩ := frames_set [f] hst fs
    refine ⟨ht.taken, ?_⟩
    have hold := h₁.filterMap Frame.job?
    have hnew := h₂.filterMap Frame.job?
    rw [List.filterMap_append] at hold hnew
    rw [held, held, frames, frames, he]
    calc s.shared.jobs ++ _ ++ _
      List.Perm _ (s.shared.jobs ++ ([f].filterMap Frame.job? ++ others.filterMap Frame.job?) ++ _) :=
        (hold.append_left _).append_right _
      List.Perm _ (s.shared.jobs ++ [f].filterMap Frame.job? ++ _ ++ _) := others_last ..
      List.Perm _ (t.shared.jobs ++ fs.filterMap Frame.job? ++ _ ++ _) := ht.custody.append_right _
      List.Perm _ (t.shared.jobs ++ (fs.filterMap Frame.job? ++ _) ++ _) := (others_last ..).symm
      List.Perm _ (t.shared.jobs ++ _ ++ _) := (hnew.symm.append_left _).append_right _
  | @push i a g stack hst hp he =>
    obtain ⟨others, h₁, h₂⟩ := frames_set [] hst [g]
    have hs := Shared.push_eq hp
    have hold := h₁.filterMap Frame.job?
    have hnew : (_ : List (GcJob ω)).Perm ((g :: others).filterMap Frame.job?) :=
      h₂.filterMap Frame.job?
    rw [List.filterMap_cons_none (job?_push hp)] at hnew
    refine hquiet (by rw [hs]) (by rw [hs]) (by rw [hs]; rfl) ?_
    rw [frames, frames, he]
    exact hnew.trans hold.symm
  | @env a he hst =>
    have hj : t.shared.jobs = s.shared.jobs ∧ t.shared.deferred = s.shared.deferred ∧
        t.shared.seq = s.shared.seq := by
      rw [he]
      cases a with
      | evhDepth v | interval v | destroy => exact ⟨rfl, rfl, rfl⟩
    refine hquiet hj.2.1 hj.2.2 hj.1 ?_
    rw [frames, hst]
    exact .refl _
  | spawn he hst =>
    refine hquiet (by rw [he]) (by rw [he]) (by rw [he]) ?_
    simp [frames, hst]

theorem custody (sz : Nat → Int) : Custody (machine ω sz) (fun _ _ => True)
    (fun s => s.shared.deferred) held Obs.delivered? where
  start := by
    rintro _ ⟨v, rfl⟩
    exact .refl _
  step tr s a t os _ _ hs := by
    obtain ⟨hn, hp⟩ := (step_cases hs).custody
    exact ⟨_, hn.1, hp⟩

/-- The events that have been left to tsGC are numbered, and all have been seen. -/
theorem deferred_eq (h : (machine ω sz).Run tr s) :
    s.shared.deferred = tr.filterMap Obs.escaped? ∧
      s.shared.deferred.map GcJob.seq = List.range s.shared.seq := by
  refine h.invariant (I := fun tr s => s.shared.deferred = tr.filterMap Obs.escaped? ∧
    s.shared.deferred.map GcJob.seq = List.range s.shared.seq) ?_ ?_
  · rintro _ ⟨v, rfl⟩
    exact ⟨rfl, rfl⟩
  · intro tr s a t os _ ⟨htr, hseq⟩ _ hs
    obtain ⟨⟨hd, hn⟩, -⟩ := (step_cases hs).custody
    refine ⟨by rw [hd, htr, List.filterMap_append], ?_⟩
    rw [hd, List.map_append, hseq]
    obtain ⟨hn, hq⟩ | ⟨j, hn, hj, hq⟩ := hn
    · rw [hn, hq]
      exact List.append_nil _
    · rw [hn, hq, List.range_succ, ← hj]
      rfl

theorem deferred_nodup (h : (machine ω sz).Run tr s) : s.shared.deferred.Nodup := by
  refine List.Nodup.of_map GcJob.seq ?_
  rw [(deferred_eq h).2]
  exact List.nodup_range

/-- What has been left to tsGC is in custody, or has been delivered, once. -/
theorem delivered_once (h : (machine ω sz).Run tr s) :
    (tr.filterMap Obs.escaped?).Nodup ∧ (tr.filterMap Obs.delivered?).Nodup ∧
      (tr.filterMap Obs.escaped?).Perm (s.held ++ tr.filterMap Obs.delivered?) := by
  have hn := deferred_nodup h
  rw [← (deferred_eq h).1]
  exact ⟨hn, ((custody sz).once h hn).2.1, (custody sz).balance h⟩

/-- When nothing is under way nothing is in custody. -/
theorem held_eq_nil (h : (machine ω sz).Run tr s) (hf : s.shared.gc.state ≠ .finStart)
    (hr : ∀ f ∈ s.frames, f.tends = false) (ht : s.shared.timers = 0) : s.held = [] := by
  obtain ⟨hl, ha⟩ := Attended.run h
  have hq := ha.rest hl hr ht hf
  have hj : s.frames.filterMap Frame.job? = [] := by
    rw [List.filterMap_eq_nil_iff]
    intro f hm
    have hn := hr f hm
    cases f with
    | handler h' => rfl
    | exe e pc =>
      cases pc with
      | ins | wake => cases hn
      | done => rfl
  rw [held, Shared.jobs, hq, (Alive.run h).kept hf, hj]
  rfl

end App

-- ---------------------------------------------------------------------------
-- No call goes on too deep
-- ---------------------------------------------------------------------------

/-- Behind the test of the depth, the call has been let through. -/
def Frame.Passed (s : Shared ω) (d : Nat) : Frame ω → Prop
  | handler h => h.pc = .lock ∨ h.pc.owns = true →
    h.who = .gc ∨ h.worker = true ∨ h.ini = true ∨ d ≤ h.limit ∨ s.application h.who = false
  | exe .. => True

def Passed (s : Shared ω) : List (Frame ω) → Prop
  | [] => True
  | f :: rest => f.Passed s (depth (f :: rest)) ∧ Passed s rest

omit [DecidableEq ω] in
theorem Shared.limit_pos (s : Shared ω) (sz : Int) (who : Who ω) : 1 ≤ s.limit sz who := by
  unfold limit
  split
  · rename_i h
    exact h.2
  · exact depthLimit_pos sz

/-- An application that is gone stays away. -/
theorem Top.application (ht : Top sz d s f t fs os) (who : Who ω)
    (h : s.application who = false) : t.application who = false := by
  have hset : ∀ x o, (o.application = true → (s.obj x).application = true) →
      (s.set x o).application who = false := by
    intro x o ho
    cases who with
    | gc => exact h
    | obj y =>
      rw [Shared.application, Shared.set_obj]
      split
      · rename_i hy
        rw [Shared.application, hy] at h
        rw [h] at ho
        simpa using ho
      · exact h
  cases ht with
  | busy hp hw | take hp hw | next hp hw | ret hp hw => exact hset _ _ id
  | finish hp hw => exact hset _ _ fun ha => ((Bool.and_eq_true_iff ..).mp ha).1
  | _ => exact h

omit [DecidableEq ω] in
theorem Frame.Passed.mono (hm : ∀ who, s.application who = false → t.application who = false)
    (h : f.Passed s d) : f.Passed t d := by
  cases f with
  | handler h' => exact fun hp => (h hp).imp_right (.imp_right (.imp_right (.imp_right (hm _))))
  | exe e pc => exact trivial

omit [DecidableEq ω] in
theorem Passed.mono {stack : List (Frame ω)}
    (hm : ∀ who, s.application who = false → t.application who = false)
    (h : Passed s stack) : Passed t stack := by
  induction stack with
  | nil => exact trivial
  | cons f rest ih => exact ⟨h.1.mono hm, ih h.2⟩

theorem Top.passed {rest : List (Frame ω)} (ht : Top sz (depth (f :: rest)) s f t fs os)
    (hf : f.Passed s (depth (f :: rest))) (hr : Passed t rest) : Passed t (fs ++ rest) := by
  have hft := hf.mono ht.application
  cases ht with
  | leave | done | gcAway | gcBusy | away | busy => exact hr
  | escape hp he => exact ⟨trivial, fun h => by simp [HandlerPc.owns] at h, hr⟩
  | ins hf => exact ⟨trivial, hr⟩
  | wake => exact ⟨fun h => by simp [Handler.call, HandlerPc.owns] at h, trivial, hr⟩
  | gcTake hp hw | gcEnd hp hw | gcNext hp hw | gcIdle hp hw | gcCheck hp hw | gcBack hp hw
  | gcFin hp hw | gcTimer hp hw | gcRet hp hw | gcEmpty hp hw | cut hp hw | goOn hp hw =>
    exact ⟨fun _ => .inl hw, hr⟩
  | gcCall hp hw | gcDeliver hp hw =>
    exact ⟨fun h => by simp [Handler.call, HandlerPc.owns] at h, fun _ => .inl hw, hr⟩
  | finish hp hw => exact ⟨fun h => by simp [HandlerPc.owns] at h, hr⟩
  | take hp hw => exact ⟨fun _ => hft (.inl hp), hr⟩
  | next hp hw | dispatch hp hw | ret hp hw =>
    exact ⟨fun _ => hft (.inr (by simp [HandlerPc.owns, hp])), hr⟩
  | @enter h hp he =>
    refine ⟨fun _ => by_contra fun hn => he ?_, hr⟩
    simp only [not_or] at hn
    obtain ⟨hw, hk, hi, hd, ha⟩ := hn
    have hpos := s.limit_pos sz h.who
    have hlt : s.limit sz h.who < depth (Frame.handler h :: rest) := Int.not_le.mp hd
    exact ⟨eq_false_of_ne_true hk, by omega, hlt, eq_false_of_ne_true hi,
      eq_true_of_ne_false ha, hw⟩

namespace App

variable {sz : Nat → Int} {s t : App ω} {tr os : List (Obs ω)}

theorem Stepped.passed (hs : Stepped sz s t os) (h : ∀ stack ∈ s.threads, Passed s.shared stack) :
    ∀ stack ∈ t.threads, Passed t.shared stack := by
  cases hs with
  | @top i f rest fs _ hst ht he =>
    have hold : ∀ stack ∈ s.threads, Passed t.shared stack :=
      fun stack hm => (h stack hm).mono ht.application
    have hm := List.mem_of_getElem? hst
    intro stack hmem
    rw [he] at hmem
    obtain hmem | rfl := List.mem_or_eq_of_mem_set hmem
    · exact hold stack hmem
    · exact ht.passed (h _ hm).1 (hold _ hm).2
  | @push i a g stack hst hp he =>
    have hold : ∀ stack ∈ s.threads, Passed t.shared stack := by
      rw [Shared.push_eq hp]
      exact fun stack hm => (h stack hm).mono fun who ha => by cases who <;> exact ha
    intro stack' hmem
    rw [he] at hmem
    obtain hmem | rfl := List.mem_or_eq_of_mem_set hmem
    · exact hold _ hmem
    · refine ⟨?_, hold _ (List.mem_of_getElem? hst)⟩
      obtain ⟨who, ev, worker, rfl⟩ | ⟨x, rfl⟩ := push_cases hp
      · exact fun h => by simp [Handler.call, HandlerPc.owns] at h
      · exact trivial
  | @env a he hst =>
    rw [he, hst]
    refine fun stack hm => (h stack hm).mono fun who ha => ?_
    cases a with
    | evhDepth v | interval v | destroy => cases who <;> exact ha
  | spawn he hst =>
    intro stack hm
    rw [hst] at hm
    rw [he]
    rcases List.mem_append.mp hm with hm | hm
    · exact h stack hm
    · obtain rfl := List.mem_singleton.mp hm
      exact trivial

theorem passed (h : (machine ω sz).Run tr s) : ∀ stack ∈ s.threads, Passed s.shared stack := by
  refine h.stateInvariant (I := fun s => ∀ stack ∈ s.threads, Passed s.shared stack) ?_ ?_
  · rintro _ ⟨v, rfl⟩
    exact List.forall_mem_nil _
  · intro s a t os hi _ hs
    exact (step_cases hs).passed hi

end App

-- ---------------------------------------------------------------------------
-- What is seen of a step
-- ---------------------------------------------------------------------------

variable {j : GcJob ω}

/-- Only a call that is too deep is left to tsGC. -/
theorem Top.escapes (ht : Top sz d s f t fs os) (hj : .escape j ∈ os) :
    ∃ h, f = .handler h ∧ h.who = j.ts ∧ h.ev = j.ev ∧ s.limit sz j.ts < d := by
  cases ht with
  | escape hp he =>
    obtain rfl : j = _ := by simpa using hj
    exact ⟨_, rfl, rfl, rfl, he.2.2.1⟩
  | gcDeliver | dispatch => simp at hj
  | _ => cases hj

theorem Top.calls (ht : Top sz d s f t fs os) (hj : .deliver j ∈ os) :
    ∃ h, fs = [.handler (.call j.ts j.ev false), .handler h] ∧ h.who = .gc := by
  cases ht with
  | gcDeliver hp hw hc hq =>
    obtain rfl : j = _ := by simpa using hj
    exact ⟨_, rfl, hw⟩
  | escape | dispatch => simp at hj
  | _ => cases hj

/-- A call above the limit has found an INI state, or is a worker's. -/
def Obs.Excused : Obs ω → Prop
  | dispatch _ _ d limit entry worker _ => limit < d → entry = true ∨ worker = true
  | _ => True

theorem Top.excused {others : List (Frame ω)} (ht : Top sz d s f t fs os)
    (hl : Locked s (f :: others)) (hf : f.Passed s d) : ∀ o ∈ os, o.Excused := by
  cases ht with
  | escape | gcDeliver => simp [Obs.Excused]
  | @dispatch h x ev hp hw =>
    rw [List.forall_mem_singleton]
    intro hlt
    -- The object is locked, so that it has its application.
    have hlock := hl.owned (.obj x) (by simp [Frame.owns, HandlerPc.owns, hp, hw])
    have happ : s.application h.who ≠ false := fun ha => by
      rw [hw] at ha
      rw [Shared.locked, (hl.gone x ha).2] at hlock
      cases hlock
    rcases hf (.inr (by simp [HandlerPc.owns, hp])) with hg | hk | hi | hd | ha
    · cases hg.symm.trans hw
    · exact .inr hk
    · exact .inl hi
    · exact absurd hd (Int.not_le.mpr hlt)
    · exact absurd ha happ
  | _ => exact List.forall_mem_nil _

namespace App

variable {sz : Nat → Int} {s t : App ω} {tr os : List (Obs ω)}

/-- The event of a call that is too deep. -/
def Leaves (sz : Nat → Int) (s : App ω) (j : GcJob ω) : Prop :=
  ∃ (i : Nat) (h : Handler ω) (rest : List (Frame ω)),
    s.threads[i]? = some (.handler h :: rest) ∧ h.who = j.ts ∧ h.ev = j.ev ∧
      s.shared.limit (sz i) j.ts < depth (.handler h :: rest)

/-- tsGC calls the object with its event. -/
def Calls (s : App ω) (j : GcJob ω) : Prop :=
  ∃ (i : Nat) (h : Handler ω) (rest : List (Frame ω)),
    s.threads[i]? = some (.handler (.call j.ts j.ev false) :: .handler h :: rest) ∧ h.who = .gc

theorem Stepped.leaves (hs : Stepped sz s t os) {j : GcJob ω} (hj : .escape j ∈ os) :
    s.Leaves sz j := by
  cases hs with
  | @top i f rest fs _ hst ht he =>
    obtain ⟨h, rfl, hw, hev, hlt⟩ := ht.escapes hj
    exact ⟨i, h, rest, hst, hw, hev, hlt⟩
  | push | env | spawn => cases hj

theorem Stepped.calls (hs : Stepped sz s t os) {j : GcJob ω} (hj : .deliver j ∈ os) :
    t.Calls j := by
  cases hs with
  | @top i f rest fs _ hst ht he =>
    obtain ⟨h, rfl, hw⟩ := ht.calls hj
    refine ⟨i, h, rest, ?_, hw⟩
    rw [he]
    exact List.getElem?_set_self (List.getElem?_eq_some_iff.mp hst).1
  | push | env | spawn => cases hj

theorem Stepped.excused (hs : Stepped sz s t os) (hl : Locked s.shared s.frames)
    (hp : ∀ stack ∈ s.threads, Passed s.shared stack) : ∀ o ∈ os, o.Excused := by
  cases hs with
  | @top i f rest fs _ hst ht he =>
    obtain ⟨others, hperm, -⟩ := frames_set [f] hst fs
    have hl' : Locked s.shared (f :: others) := Locked.kept.perm _ _ _ hperm hl
    exact ht.excused hl' (hp _ (List.mem_of_getElem? hst)).1
  | push | env | spawn => exact List.forall_mem_nil _

theorem excused (h : (machine ω sz).Run tr s) : ∀ o ∈ tr, o.Excused := by
  refine h.invariant (I := fun tr _ => ∀ o ∈ tr, o.Excused) (fun _ _ _ ho => nomatch ho) ?_
  intro tr s a t os hr ih _ hs o ho
  rcases List.mem_append.mp ho with ho | ho
  · exact ih o ho
  · exact (step_cases hs).excused (Attended.run hr).1 (passed hr) o ho

/-- The first call on an object gets its mutex. -/
example : ((machine Nat fun _ => 0).exec (fun _ _ => True) (.initial Nat 2)
    [.spawn, .push 0 (.call (.obj 1) ⟨.init, 1⟩ false), .top 0 .enter,
      .top 0 (.lock 0)]).isSome := by
  decide +kernel

end App

end TinyState.Escape
