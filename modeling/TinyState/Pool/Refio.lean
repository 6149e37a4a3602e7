import TinyState.Pool.Threads

/-!
# The pool's reference to the reactor

The pool holds the reactor exactly while a job waits or runs, and gives back
what it took before it is folded. That no reference comes afterwards rests on
the order of the `FIN` states: the workers are dismissed first, and the queues
go only when the last of them is gone, so that nobody works on queues that are
not there.
-/

namespace TinyState

open Transition

namespace ThreadPool

variable {ω : Type} {s t : ThreadPool ω} {tr os : List FwCall} {i fails : Nat}

/-- What waits and what runs. -/
def jobs (s : ThreadPool ω) : List (Job ω) := s.ready.getD [] ++ s.run.getD []

-- ---------------------------------------------------------------------------
-- The reference
-- ---------------------------------------------------------------------------

/-- What is taken and not given back is what `refio` says. -/
def Balanced (tr : List FwCall) (s : ThreadPool ω) : Prop :=
  tr.count .addRefio = tr.count .delRefio + if s.refio then 1 else 0

/-- The reference is there while there are jobs. -/
structure Refio (tr : List FwCall) (s : ThreadPool ω) : Prop where
  held : s.refio = true ↔ s.jobs ≠ []
  balanced : Balanced tr s

theorem Balanced.setRefio (h : Balanced tr s) (hj : s.jobs ≠ []) :
    Refio (tr ++ s.setRefio.2) s.setRefio.1 := by
  unfold ThreadPool.setRefio
  split
  · rename_i hr
    exact ⟨⟨fun _ => hj, fun _ => hr⟩, by simpa using h⟩
  · rename_i hr
    refine ⟨⟨fun _ => hj, fun _ => rfl⟩, ?_⟩
    simpa [Balanced, hr, List.count_cons] using h

theorem Balanced.resRefio (h : Balanced tr s) (hj : s.jobs = []) :
    Refio (tr ++ s.resRefio.2) s.resRefio.1 := by
  unfold ThreadPool.resRefio
  split
  · rename_i hr
    refine ⟨⟨nofun, fun hne => absurd hj hne⟩, ?_⟩
    simpa [Balanced, hr, List.count_cons] using h
  · rename_i hr
    exact ⟨⟨fun h => absurd h hr, fun hne => absurd hj hne⟩, by simpa using h⟩

/-- A step that neither empties the queues nor brings the first job. -/
theorem Refio.keep (h : Refio tr s) (hr : t.refio = s.refio) (hj : t.jobs = [] ↔ s.jobs = []) :
    Refio (tr ++ []) t where
  held := by rw [hr, h.held, ne_eq, ne_eq, hj]
  balanced := by simpa [Balanced, hr] using h.balanced

theorem resRefio_queues : s.resRefio.1.ready = s.ready ∧ s.resRefio.1.run = s.run := by
  unfold ThreadPool.resRefio
  split <;> exact ⟨rfl, rfl⟩

theorem Refio.ins (h : Refio tr s) (target : ω) :
    Refio (tr ++ (s.ins target).2) (s.ins target).1 := by
  unfold ThreadPool.ins
  split
  · exact h.keep rfl .rfl
  · rename_i q _
    exact Balanced.setRefio (s := { s with
      ready := some (q ++ [⟨s.nextId, target⟩])
      nextId := s.nextId + 1 }) h.balanced (by simp [jobs])

theorem Refio.start {job : Job ω} {q : List (Job ω)} (h : Refio tr s)
    (hq : s.ready = some (job :: q)) : Refio (tr ++ []) (s.start i job q) := by
  unfold ThreadPool.start
  split
  · exact h.keep rfl .rfl
  · exact h.keep rfl (by simp [jobs, moveTo, hq])

theorem Refio.turn (h : Refio tr s) : Refio (tr ++ []) (s.turn i) := by
  unfold ThreadPool.turn
  split
  · exact h.keep rfl .rfl
  · split
    · exact h.keep rfl .rfl
    · exact h.keep rfl .rfl
    · exact h.start ‹_›

theorem Refio.expire (h : Refio tr s) : Refio (tr ++ []) (s.expire i) := by
  unfold ThreadPool.expire
  split
  · exact h.keep rfl .rfl
  · exact h.keep rfl .rfl
  · exact h.start ‹_›

theorem Refio.done [DecidableEq ω] (h : Refio tr s) (job : Job ω) :
    Refio (tr ++ (s.done i job).2) (s.done i job).1 := by
  unfold ThreadPool.done
  split
  · rename_i r q hr hq
    set u : ThreadPool ω := { s with run := some (r.erase job) } with hu
    have hb : Balanced tr u := h.balanced
    have hj : u.jobs = q ++ r.erase job := by simp [jobs, hu, hq]
    split
    · rename_i he
      have := hb.resRefio (by rw [hj, he.1, he.2]; rfl)
      exact ⟨this.held, this.balanced⟩
    · rename_i he
      -- something is left, so the reference stays
      have hne : u.jobs ≠ [] := by
        rw [hj]
        exact fun h => he (List.append_eq_nil_iff.mp h).symm
      have hr : u.refio = true := h.held.mpr fun hs => hne (by
        have : q = [] ∧ r = [] := by simpa [jobs, hq, hr] using hs
        rw [hj, this.1, this.2]
        rfl)
      exact Refio.turn ⟨⟨fun _ => hne, fun _ => hr⟩, hb⟩
  · exact h.keep rfl .rfl

theorem Refio.work [DecidableEq ω] (h : Refio tr s) (timeout : Bool) (w : WorkerPc ω) :
    Refio (tr ++ (s.work i timeout w).2) (s.work i timeout w).1 := by
  cases w with
  | loop => exact h.turn
  | idle =>
    have h' : Refio tr { s with currentIdleThreads := s.currentIdleThreads - 1 } :=
      ⟨h.held, h.balanced⟩
    cases timeout
    · exact h'.turn
    · exact h'.expire
  | running job => exact h.done job

theorem Refio.runThreads {pc : PoolState} {num : Int} (h : Refio tr s) :
    Refio (tr ++ []) ((s.runThreadsNolock num fails).goto pc) := by
  obtain ⟨hq, hr, hf, -⟩ := runThreads_frame s num fails
  refine h.keep hf ?_
  simp only [jobs, goto, hq, hr]

theorem Refio.fold (h : Refio tr s) : Refio (tr ++ s.fold.2) s.fold.1 := by
  have := Balanced.resRefio (s := { s with
    ready := none
    run := none }) h.balanced rfl
  unfold ThreadPool.resRefio at this
  unfold ThreadPool.fold ThreadPool.resRefio
  split at this <;> rename_i hr
  · rw [if_pos hr]
    exact ⟨this.held, this.balanced⟩
  · rw [if_neg hr]
    exact ⟨this.held, this.balanced⟩

-- ---------------------------------------------------------------------------
-- The queues are there
-- ---------------------------------------------------------------------------

/-- Both queues are there, and nobody has missed one. -/
def Open (s : ThreadPool ω) : Prop := ∃ q r, s.ready = some q ∧ s.run = some r ∧ s.nullRef = false

theorem Open.start (h : s.Open) (job : Job ω) (q : List (Job ω)) : (s.start i job q).Open := by
  obtain ⟨_, r, -, hr, hn⟩ := h
  simp only [ThreadPool.start, hr]
  exact ⟨_, _, rfl, rfl, hn⟩

theorem Open.turn (h : s.Open) : (s.turn i).Open := by
  unfold ThreadPool.turn
  split
  · exact h
  · split
    · obtain ⟨q, _, hq, -, -⟩ := h
      simp_all
    · exact h
    · exact h.start _ _

theorem Open.expire (h : s.Open) : (s.expire i).Open := by
  unfold ThreadPool.expire
  split
  · obtain ⟨q, _, hq, -, -⟩ := h
    simp_all
  · exact h
  · exact h.start _ _

theorem Open.resRefio (h : s.Open) : s.resRefio.1.Open := by
  unfold ThreadPool.resRefio
  split
  · exact h
  · exact h

theorem Open.work [DecidableEq ω] (h : s.Open) (timeout : Bool) (w : WorkerPc ω) :
    (s.work i timeout w).1.Open := by
  cases w with
  | loop => exact h.turn
  | idle =>
    have h' : Open { s with currentIdleThreads := s.currentIdleThreads - 1 } := h
    cases timeout
    · exact h'.turn
    · exact h'.expire
  | running job =>
    simp only [ThreadPool.work, ThreadPool.done]
    obtain ⟨q, r, hq, hr, hn⟩ := h
    split
    · rename_i r q _ _
      have h' : Open { s with run := some (r.erase job) } := ⟨q, _, ‹_›, rfl, hn⟩
      split
      · exact h'.resRefio
      · exact h'.turn
    · rename_i hne
      exact absurd hq (hne r q hr)

theorem Open.ins (h : s.Open) (target : ω) : (s.ins target).1.Open := by
  obtain ⟨q, r, hq, hr, hn⟩ := h
  simp only [ThreadPool.ins, hq, setRefio]
  split <;> exact ⟨_, r, rfl, hr, hn⟩

/-- The queues in each state of the controller, and who may use them. -/
structure Ordered (s : ThreadPool ω) : Prop where
  null : s.nullRef = false
  queues : s.state ≠ .iniStart → s.state ≠ .iniRun → s.state ≠ .finTinyStateStart → s.Open
  ready : s.state = .iniStart ∨ s.state = .finTinyStateStart → s.ready = none
  half : s.state = .iniRun → s.ready.isSome = true
  run : s.state = .iniStart ∨ s.state = .iniRun ∨ s.state = .finTinyStateStart → s.run = none
  workers : (s.workers.length : Int) ≤ s.currentRunThreads
  before : s.state.ini = true → s.targetRunThreads ≤ 0 ∧ s.currentRunThreads = 0
  dismissed : s.state.drained = true → s.targetRunThreads ≤ 0
  gone : s.state = .finFold ∨ s.state = .finTinyStateStart → s.currentRunThreads = 0
  latch : s.state.draining = true → s.finishFlag = true
  finishing : s.finishing ≠ .out → s.state.fin = true ∧ s.finishFlag = false

theorem Ordered.opened (h : Ordered s) (hi : s.state.ini = false)
    (hf : s.state ≠ .finTinyStateStart) : s.Open := by
  refine h.queues ?_ ?_ hf <;> rintro he <;> simp [he, PoolState.ini] at hi

/-- A worker, or whoever puts something in. -/
theorem Ordered.keep (h : Ordered s) (hc : SameControl s t) (hs : SameStaff s t)
    (ho : s.Open → t.Open) (hn : t.nullRef = false) (hq : t.ready.isSome = s.ready.isSome)
    (hr : t.run.isSome = s.run.isSome) : Ordered t where
  null := hn
  queues := by
    rw [hc.state]
    exact fun h₁ h₂ h₃ => ho (h.queues h₁ h₂ h₃)
  ready := by
    rw [hc.state]
    intro hs
    simpa [h.ready hs] using hq
  half := by
    rw [hc.state, hq]
    exact h.half
  run := by
    rw [hc.state]
    intro hs
    simpa [h.run hs] using hr
  workers := by
    have := h.workers
    rcases hs with ⟨h₁, h₂⟩ | ⟨h₁, h₂⟩ <;> omega
  before := by
    rw [hc.state, hc.target]
    intro hi
    have := h.before hi
    have := h.workers
    rcases hs with ⟨h₁, h₂⟩ | ⟨h₁, h₂⟩ <;> omega
  dismissed := by
    rw [hc.state, hc.target]
    exact h.dismissed
  gone := by
    rw [hc.state]
    intro hg
    have := h.gone hg
    have := h.workers
    rcases hs with ⟨h₁, h₂⟩ | ⟨h₁, h₂⟩ <;> omega
  latch := by
    rw [hc.state, hc.finishFlag]
    exact h.latch
  finishing := by
    rw [hc.state, hc.finishFlag, hc.finishing]
    exact h.finishing

/-- Where there is a worker, there are queues. -/
theorem Ordered.manned {w : WorkerPc ω} (h : Ordered s) (hw : s.workers[i]? = some w) : s.Open := by
  have hl : 0 < s.workers.length := Nat.zero_lt_of_lt (List.getElem?_eq_some_iff.mp hw).1
  have hc := h.workers
  refine h.opened ?_ fun hf => ?_
  · cases hi : s.state.ini with
    | false => rfl
    | true =>
      have := (h.before hi).2
      omega
  · have := h.gone (.inr hf)
    omega

theorem Ordered.work [DecidableEq ω] {w : WorkerPc ω} (h : Ordered s) (timeout : Bool)
    (hw : s.workers[i]? = some w) : Ordered (s.work i timeout w).1 := by
  have ho := h.manned hw
  have ht := ho.work (i := i) timeout w
  have hn : (s.work i timeout w).1.nullRef = false := ht.choose_spec.choose_spec.2.2
  refine h.keep (work_control timeout w)
    (work_staff timeout w (List.getElem?_eq_some_iff.mp hw).1) (fun _ => ht) hn ?_ ?_
  · obtain ⟨_, _, hq, -, -⟩ := ho
    obtain ⟨_, _, hq', -, -⟩ := ht
    rw [hq, hq']
    rfl
  · obtain ⟨_, _, -, hr, -⟩ := ho
    obtain ⟨_, _, -, hr', -⟩ := ht
    rw [hr, hr']
    rfl

theorem Ordered.ins (h : Ordered s) (target : ω) : Ordered (s.ins target).1 := by
  refine h.keep (ins_control target) (ins_staff target) (fun ho => ho.ins target) ?_ ?_ ?_
  · unfold ThreadPool.ins setRefio
    split
    · exact h.null
    · split <;> exact h.null
  · unfold ThreadPool.ins setRefio
    split
    · rfl
    · rename_i hq
      rw [hq]
      split <;> rfl
  · unfold ThreadPool.ins setRefio
    split
    · rfl
    · split <;> rfl

/-- Dismissing workers makes none. -/
theorem runThreads_quiet (s : ThreadPool ω) (num : Int) (fails : Nat)
    (h : num ≤ s.currentRunThreads) :
    let u := s.runThreadsNolock num fails
    u.workers = s.workers ∧ u.currentRunThreads = s.currentRunThreads ∧ u.targetRunThreads ≤ num := by
  intro u
  have hs := runThreads_staff s num fails
  obtain ⟨ht, ⟨-, hw, hc⟩ | ⟨hlt, -, -⟩⟩ := hs
  · exact ⟨hw, hc, by simp only [u, ht]; omega⟩
  · omega

theorem runThreads_workers (s : ThreadPool ω) (num : Int) (fails : Nat)
    (h : (s.workers.length : Int) ≤ s.currentRunThreads) :
    let u := s.runThreadsNolock num fails
    (u.workers.length : Int) ≤ u.currentRunThreads := by
  intro u
  have hs := runThreads_staff s num fails
  obtain ⟨-, ⟨-, hw, hc⟩ | ⟨hlt, hc, hw⟩⟩ := hs
  · simp only [u, hw, hc]
    exact h
  · simp only [u]
    omega

theorem Open.runThreads {num : Int} (h : s.Open) : (s.runThreadsNolock num fails).Open := by
  obtain ⟨q, r, hq, hr, hn⟩ := h
  obtain ⟨hq', hr', -, hn', -⟩ := runThreads_frame s num fails
  exact ⟨q, r, hq'.trans hq, hr'.trans hr, hn'.trans hn⟩

theorem Ordered.setLimit (h : Ordered s) (lim : Int) : Ordered (s.setLimit lim fails) := by
  let u : ThreadPool ω := { s with
    limitThreadsNumber := if lim < threadMaxIdleThreads then threadMaxIdleThreads else lim }
  change Ordered (u.runThreadsNolock s.targetRunThreads fails)
  obtain ⟨hq, hr, -, hn, -, hl, hf, hst⟩ :=
    runThreads_frame u s.targetRunThreads fails
  have hw := runThreads_workers u s.targetRunThreads fails h.workers
  -- the target has been served before, so nobody is created where nobody may be
  have quiet (hc : s.currentRunThreads = 0) (ht : s.targetRunThreads ≤ 0) :=
    runThreads_quiet u s.targetRunThreads fails (by
      show _ ≤ s.currentRunThreads
      omega)
  refine ⟨hn.trans h.null, ?_, ?_, ?_, ?_, hw, ?_, ?_, ?_, ?_, ?_⟩
  · rw [hst]
    exact fun h₁ h₂ h₃ => (show u.Open from h.queues h₁ h₂ h₃).runThreads
  · rw [hst, hq]
    exact h.ready
  · rw [hst, hq]
    exact h.half
  · rw [hst, hr]
    exact h.run
  · rw [hst]
    intro hi
    have hb := h.before hi
    obtain ⟨-, hc, ht⟩ := quiet hb.2 hb.1
    exact ⟨Int.le_trans ht hb.1, hc.trans hb.2⟩
  · rw [hst]
    intro hd
    have ht := (runThreads_staff u s.targetRunThreads fails).1
    have := h.dismissed hd
    omega
  · rw [hst]
    intro hg
    have hc := h.gone hg
    obtain ⟨-, hc', -⟩ := quiet hc (h.dismissed (by rcases hg with he | he <;> rw [he] <;> rfl))
    exact hc'.trans hc
  · rw [hst, hl]
    exact h.latch
  · rw [hst, hl, hf]
    exact h.finishing

/-- The controller sets the target and goes on. -/
theorem Ordered.runThreads {pc : PoolState} {num : Int} (h : Ordered s) (ho : s.Open)
    (hi : pc.ini = false) (hg : pc ≠ .finFold ∧ pc ≠ .finTinyStateStart)
    (hd : pc.drained = true → num ≤ 0) (hl : pc.draining = true → s.finishFlag = true)
    (hf : s.state.fin = true → pc.fin = true) :
    Ordered ((s.runThreadsNolock num fails).goto pc) := by
  obtain ⟨-, -, -, hn, -, hl', hf', -⟩ := runThreads_frame s num fails
  refine ⟨hn.trans h.null, fun _ _ _ => ho.runThreads, ?_, ?_, ?_, runThreads_workers s num fails h.workers, ?_,
    ?_, ?_, ?_, ?_⟩
  · rintro (he | he)
    · cases (show pc = _ from he)
      cases hi
    · exact absurd he hg.2
  · intro he
    cases (show pc = _ from he)
    cases hi
  · rintro (he | he | he)
    · cases (show pc = _ from he)
      cases hi
    · cases (show pc = _ from he)
      cases hi
    · exact absurd he hg.2
  · intro hi'
    cases hi.symm.trans hi'
  · intro hd'
    have ht := (runThreads_staff s num fails).1
    have := hd hd'
    simp only [goto]
    omega
  · rintro (he | he)
    · exact absurd he hg.1
    · exact absurd he hg.2
  · intro hl''
    exact hl'.trans (hl hl'')
  · intro hf''
    have := h.finishing (by rw [← hf']; exact hf'')
    exact ⟨hf this.1, hl'.trans this.2⟩

/-- The controller goes on without touching the queues or the workers. -/
theorem Ordered.goto {pc : PoolState} (h : Ordered s) (ho : s.Open) (hi : pc.ini = false)
    (ht : pc ≠ .finTinyStateStart) (hd : pc.drained = true → s.state.drained = true)
    (hg : pc = .finFold → s.currentRunThreads = 0)
    (hl : pc.draining = true → s.finishFlag = true) (hf : s.state.fin = true → pc.fin = true) :
    Ordered (s.goto pc) where
  null := h.null
  queues _ _ _ := ho
  ready := by
    rintro (he | he)
    · cases (show pc = _ from he)
      cases hi
    · exact absurd he ht
  half he := by
    cases (show pc = _ from he)
    cases hi
  run := by
    rintro (he | he | he)
    · cases (show pc = _ from he)
      cases hi
    · cases (show pc = _ from he)
      cases hi
    · exact absurd he ht
  workers := h.workers
  before hi' := by cases hi.symm.trans hi'
  dismissed hd' := h.dismissed (hd hd')
  gone := by
    rintro (he | he)
    · exact hg he
    · exact absurd he ht
  latch := hl
  finishing hf' := ⟨hf (h.finishing hf').1, (h.finishing hf').2⟩

theorem act_cases {pc : PoolState} (h : pc.act = true) :
    pc.ini = false ∧ pc.fin = false ∧ pc.draining = false ∧ pc.drained = false := by
  cases pc <;> first | exact ⟨rfl, rfl, rfl, rfl⟩ | cases h

theorem Ordered.fold (h : Ordered s) (hs : s.state = .finFold) : Ordered s.fold.1 := by
  have hc := resRefio_control (s := s)
  have hw := resRefio_staff (s := s)
  have hn : s.resRefio.1.nullRef = s.nullRef := by
    unfold ThreadPool.resRefio
    split <;> rfl
  have hcur := h.gone (.inl hs)
  have hwk := h.workers
  refine ⟨hn.trans h.null, fun _ _ hf => absurd rfl hf, fun _ => rfl, nofun, fun _ => rfl, ?_, nofun, fun _ => ?_,
    fun _ => ?_, fun _ => hc.finishFlag.trans (h.latch (by rw [hs]; rfl)), fun hf => ?_⟩
  · simp only [ThreadPool.fold]
    rcases hw with ⟨h₁, h₂⟩ | ⟨h₁, h₂⟩ <;> omega
  · exact Int.le_trans (Int.le_of_eq hc.target) (h.dismissed (by rw [hs]; rfl))
  · simp only [ThreadPool.fold]
    rcases hw with ⟨h₁, h₂⟩ | ⟨h₁, h₂⟩ <;> omega
  · have := h.finishing (by rw [← hc.finishing]; exact hf)
    exact ⟨rfl, hc.finishFlag.trans this.2⟩

theorem Ordered.control (h : Ordered s) (hs : Controlled s fails t os) : Ordered t := by
  have opened {pc} (he : s.state = pc) (hi : pc.ini = false) (hf : pc ≠ .finTinyStateStart) :
      s.Open := h.opened (by rw [he, hi]) (by rw [he]; exact hf)
  cases hs with
  | newReady he =>
    exact ⟨h.null, fun _ hr _ => absurd rfl hr, nofun, fun _ => rfl,
      fun _ => h.run (.inl he), h.workers, fun _ => h.before (by rw [he]; rfl), nofun, nofun, nofun,
      fun hf => by have := (h.finishing hf).1; rw [he] at this; cases this⟩
  | newRun he =>
    obtain ⟨q, hq⟩ := Option.isSome_iff_exists.mp (h.half he)
    exact ⟨h.null, fun _ _ _ => ⟨q, [], hq, rfl, h.null⟩, nofun, nofun, nofun, h.workers,
      fun _ => h.before (by rw [he]; rfl), nofun, nofun, nofun,
      fun hf => by have := (h.finishing hf).1; rw [he] at this; cases this⟩
  | begin he =>
    have ho : s.Open := by apply h.queues <;> rw [he] <;> nofun
    exact h.runThreads ho rfl ⟨nofun, nofun⟩ nofun nofun (by rw [he]; nofun)
  | @go pc ha hp hr hl =>
    obtain ⟨hi, hf, -, -⟩ := act_cases ha
    have ho : s.Open := h.opened hi fun he => by rw [he] at hf; cases hf
    rcases hp with hp | rfl
    · have ⟨hi', hf', hg', hd'⟩ := act_cases hp
      refine h.goto ho hi' ?_ ?_ ?_ ?_ ?_
      · rintro rfl
        cases hf'
      · intro hd
        cases hd'.symm.trans hd
      · rintro rfl
        cases hf'
      · intro hg
        cases hg'.symm.trans hg
      · intro hf''
        cases hf.symm.trans hf''
    · exact h.goto ho rfl nofun nofun nofun nofun fun _ => rfl
  | null ha hn =>
    obtain ⟨hi, hf, -, -⟩ := act_cases ha
    obtain ⟨q, r, hq, hr, -⟩ : s.Open := h.opened hi fun he => by rw [he] at hf; cases hf
    rcases hn with hn | hn
    · cases hq.symm.trans hn
    · cases hr.symm.trans hn
  | raise he =>
    exact h.runThreads (opened he rfl nofun) rfl ⟨nofun, nofun⟩ nofun nofun (by rw [he]; nofun)
  | lower he =>
    exact h.runThreads (opened he rfl nofun) rfl ⟨nofun, nofun⟩ nofun nofun (by rw [he]; nofun)
  | stay he =>
    have ho : s.Open := by rcases he with he | he <;> exact opened he rfl nofun
    exact h.goto ho rfl nofun nofun nofun nofun fun _ => rfl
  | latched he hf => exact h.goto (opened he rfl nofun) rfl nofun nofun nofun (fun _ => hf) fun _ => rfl
  | drain he =>
    exact h.runThreads (opened he rfl nofun) rfl ⟨nofun, nofun⟩ (fun _ => Int.le_refl 0)
      (fun _ => h.latch (by rw [he]; rfl)) fun _ => rfl
  | wait he =>
    exact h.goto (opened he rfl nofun) rfl nofun (fun _ => by rw [he]; rfl) nofun
      (fun _ => h.latch (by rw [he]; rfl)) fun _ => rfl
  | empty he hc =>
    exact h.goto (opened he rfl nofun) rfl nofun (fun _ => by rw [he]; rfl) (fun _ => hc)
      (fun _ => h.latch (by rw [he]; rfl)) fun _ => rfl
  | fold he => exact h.fold he

theorem Ordered.finish (h : Ordered s) (stable : Bool) : Ordered (s.finish stable) := by
  -- while the three conditions are looked at, the queues have not been folded
  have opened (hf : s.state.fin = true) (hl : s.finishFlag = false) : s.Open := by
    refine h.opened ?_ fun he => ?_
    · revert hf
      cases s.state <;> first | exact fun _ => rfl | nofun
    · have := h.latch (by rw [he]; rfl)
      cases hl.symm.trans this
  unfold ThreadPool.finish
  split
  · split
    · rename_i hc
      split
      · rename_i hn
        obtain ⟨q, _, hq, -, -⟩ := opened hc.1 hc.2
        cases hq.symm.trans hn
      · split
        · exact { h with finishing := fun _ => hc }
        · exact h
    · exact h
  · rename_i hf
    have hc := h.finishing (by rw [hf]; nofun)
    split
    · rename_i hn
      obtain ⟨_, r, -, hr, -⟩ := opened hc.1 hc.2
      cases hr.symm.trans hn
    · exact { h with finishing := fun _ => hc }
  · rename_i hf
    have hc := h.finishing (by rw [hf]; nofun)
    refine { h with
      latch := fun hd => ?_
      finishing := fun hn => absurd rfl hn }
    have := h.latch hd
    cases hc.2.symm.trans this

theorem Ordered.initial : Ordered (initial ω) :=
  ⟨rfl, fun h => absurd rfl h, fun _ => rfl, nofun, fun _ => rfl, Int.le_refl 0,
    fun _ => ⟨Int.le_refl 0, rfl⟩, nofun, nofun, nofun, fun h => absurd rfl h⟩

-- ---------------------------------------------------------------------------
-- Runs
-- ---------------------------------------------------------------------------

theorem Refio.finish (h : Refio tr s) (stable : Bool) : Refio (tr ++ []) (s.finish stable) := by
  unfold ThreadPool.finish
  split
  · split
    · split
      · exact h.keep rfl .rfl
      · split <;> exact h.keep rfl .rfl
    · exact h.keep rfl .rfl
  · split <;> exact h.keep rfl .rfl
  · exact h.keep rfl .rfl

theorem Refio.setLimit (h : Refio tr s) (lim : Int) : Refio (tr ++ []) (s.setLimit lim fails) := by
  obtain ⟨hq, hr, hf, -⟩ := runThreads_frame
    { s with limitThreadsNumber := if lim < threadMaxIdleThreads then threadMaxIdleThreads else lim }
    s.targetRunThreads fails
  refine h.keep hf ?_
  unfold ThreadPool.setLimit
  simp only [jobs, hq, hr]

theorem Refio.control (h : Refio tr s) (ho : Ordered s) (hs : Controlled s fails t os) :
    Refio (tr ++ os) t := by
  cases hs with
  | newReady he => exact h.keep rfl (by simp [jobs, ThreadPool.goto, ho.ready (.inl he)])
  | newRun he => exact h.keep rfl (by simp [jobs, ThreadPool.goto, ho.run (.inr (.inl he))])
  | begin | raise | lower | drain => exact h.runThreads
  | fold => exact h.fold
  | _ => exact h.keep rfl .rfl

variable [DecidableEq ω]

theorem Ordered.next {a : ThreadPoolAct ω} (h : Ordered s) (hs : Step s a t os) : Ordered t := by
  cases hs with
  | ins => exact h.ins _
  | work hw => exact h.work _ hw
  | control hc => exact h.control hc
  | setLimit => exact h.setLimit _
  | finish => exact h.finish _
  | destroy => exact { h with }

theorem Refio.next {a : ThreadPoolAct ω} (h : Refio tr s) (ho : Ordered s) (hs : Step s a t os) :
    Refio (tr ++ os) t := by
  cases hs with
  | ins => exact h.ins _
  | work => exact h.work _ _
  | control hc => exact h.control ho hc
  | setLimit => exact h.setLimit _
  | finish => exact h.finish _
  | destroy => exact h.keep rfl .rfl

theorem run_refio (h : (machine ω).Run tr s) : Refio tr s ∧ Ordered s := by
  refine h.invariant (I := fun tr s => Refio tr s ∧ Ordered s) ?_ ?_
  · rintro _ rfl
    exact ⟨⟨⟨nofun, fun h => absurd rfl h⟩, rfl⟩, .initial⟩
  · rintro tr s a t os - ⟨hf, ho⟩ - hs
    exact ⟨hf.next ho (step_cases hs), ho.next (step_cases hs)⟩

/-- However putting in, working, adapting and folding are mixed, the pool holds
the reactor while there are jobs, gives back what it has taken, and has nothing
left once it is folded. -/
theorem refio_law (h : (machine ω).Run tr s) :
    s.nullRef = false ∧ (s.refio = true ↔ s.jobs ≠ []) ∧
      tr.count .addRefio = tr.count .delRefio + (if s.refio then 1 else 0) ∧
      (s.state = .finTinyStateStart → s.refio = false) := by
  obtain ⟨hf, ho⟩ := run_refio h
  refine ⟨ho.null, hf.held, hf.balanced, fun he => ?_⟩
  have hj : s.jobs = [] := by
    simp only [jobs, ho.ready (.inr he), ho.run (.inr (.inr he))]
    rfl
  rw [← Bool.not_eq_true, hf.held]
  exact fun hne => hne hj

/-- A job is done, the workers go, a second job comes before the pool is folded
and a third one after. -/
theorem refio_law_folded : ∃ tr s, (machine Nat).Run tr s ∧
    (s.state = .finTinyStateStart ∧ tr = [.addRefio, .delRefio, .addRefio, .delRefio]) ∧
    s.nullRef = false ∧ (s.refio = true ↔ s.jobs ≠ []) ∧
      tr.count .addRefio = tr.count .delRefio + (if s.refio then 1 else 0) ∧
      (s.state = .finTinyStateStart → s.refio = false) := by
  obtain ⟨tr, s, h, hp⟩ := Machine.exists_run (M := machine Nat) (C := fun _ _ => True)
    (P := fun tr s => s.state = .finTinyStateStart ∧
      tr = [.addRefio, .delRefio, .addRefio, .delRefio])
    (List.flatten [
      List.replicate 3 (.control false false 0),
      [.ins 7, .work 0 false, .work 1 false, .work 0 false, .work 0 false, .destroy],
      List.replicate 3 (.control false false 0),
      [.finish true, .finish true, .finish true, .control false false 0, .control false false 0,
        .work 0 false, .work 0 true, .ins 8],
      List.replicate 2 (.control false false 0),
      [.ins 9]]) rfl (by decide)
  exact ⟨tr, s, h, hp, refio_law h⟩

end ThreadPool

end TinyState
