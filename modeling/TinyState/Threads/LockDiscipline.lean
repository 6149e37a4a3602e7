import TinyState.Threads.Projection
import TinyState.Dispatch.AppMutex

/-!
# The application mutexes among the threads

Each frame of a stack accounts for the levels between those that its thread
had when the frame was pushed and those that it has while the frame is on top:
a dispatch for the levels its call has taken, a section for its one level. So
a frame that is done leaves its thread with the levels it found.
-/

set_option linter.unusedSectionVars false

namespace TinyState

open Transition

variable {τ ω α : Type} [DecidableEq τ] [DecidableEq ω] [DecidableEq α] {w : World τ ω α}
  {s s' : Threads τ ω α} {t u : τ}

namespace Frame

def entry : Frame ω α → α → Nat
  | .dispatch _ _ entry | .lock _ entry | .release _ entry => entry

/-- The levels of the thread while the frame is on top of its stack. -/
def Balanced (w : World τ ω α) (objs : ω → Obj (τ × Nat)) (level : α → Nat) : Frame ω α → Prop
  | .dispatch o k entry => ∀ a, level a = entry a + if w.app o = a then k.taken (objs o) else 0
  | .lock b entry => ∀ a, level a = entry a + if b = a then 1 else 0
  | .release b entry => ∀ a, level a + (if b = a then 1 else 0) = entry a

end Frame

/-- The levels of the thread are accounted for by its frames. -/
def Chain (w : World τ ω α) (objs : ω → Obj (τ × Nat)) : (α → Nat) → List (Frame ω α) → Prop
  | level, [] => ∀ a, level a = 0
  | level, f :: fs => f.Balanced w objs level ∧ Chain w objs f.entry fs

theorem Chain.congr {objs objs' : ω → Obj (τ × Nat)} {level : α → Nat} {fs : List (Frame ω α)}
    (h : Chain w objs level fs)
    (hk : ∀ o k e, .dispatch o k e ∈ fs → k.taken (objs' o) = k.taken (objs o)) :
    Chain w objs' level fs := by
  induction fs generalizing level with
  | nil => exact h
  | cons f fs ih =>
    refine ⟨?_, ih h.2 fun o k e hm => hk o k e (List.mem_cons_of_mem _ hm)⟩
    cases f with
    | dispatch o k e =>
      have hb := h.1
      simp only [Frame.Balanced, hk o k e List.mem_cons_self] at hb ⊢
      exact hb
    | lock | release => exact h.1

/-- A level taken by a frame is held as long as no section above releases it. -/
theorem Chain.held {objs : ω → Obj (τ × Nat)} {level : α → Nat}
    {fs₁ fs₂ : List (Frame ω α)} {o : ω} {k : Call} {e : α → Nat}
    (h : Chain w objs level (fs₁ ++ Frame.dispatch o k e :: fs₂))
    (hr : ∀ e', .release (w.app o) e' ∉ fs₁) :
    e (w.app o) + k.taken (objs o) ≤ level (w.app o) := by
  induction fs₁ generalizing level with
  | nil => simp [h.1 (w.app o)]
  | cons f fs₁ ih =>
    have hrest := ih h.2 fun e' hm => hr e' (List.mem_cons_of_mem _ hm)
    have hf := h.1
    cases f with
    | dispatch | lock =>
      have := hf (w.app o)
      simp only [Frame.entry] at hrest
      omega
    | release b e' =>
      have hb : b ≠ w.app o := by
        rintro rfl
        exact hr e' List.mem_cons_self
      have := hf (w.app o)
      rw [if_neg hb] at this
      simp only [Frame.entry] at hrest
      omega

/-- A worker's `stdThreadInfo` is with the lowest frame of the stack. -/
def Bottomed (worker : Bool) : List (Frame ω α) → Prop
  | [] => True
  | .dispatch _ k _ :: fs =>
    (k.thrInfo.isSome = true → worker = true ∧ fs = []) ∧ Bottomed worker fs
  | .lock .. :: fs | .release .. :: fs => Bottomed worker fs

theorem Bottomed.of_split {worker : Bool} {fs₁ fs₂ : List (Frame ω α)} {o : ω} {k : Call}
    {e : α → Nat} (h : Bottomed worker (fs₁ ++ Frame.dispatch o k e :: fs₂))
    (hk : k.thrInfo.isSome = true) : worker = true ∧ fs₂ = [] := by
  induction fs₁ with
  | nil => exact h.1 hk
  | cons f fs₁ ih =>
    cases f with
    | dispatch => exact ih h.2
    | lock | release => exact ih h

theorem Bottomed.tail {worker : Bool} {f : Frame ω α} {fs : List (Frame ω α)}
    (h : Bottomed worker (f :: fs)) : Bottomed worker fs := by
  cases f with
  | dispatch => exact h.2
  | lock | release => exact h

namespace Threads

theorem lock_levels {a : α} (h : s.lock t a = some s') :
    (∀ b, s'.levels t b = s.levels t b + if a = b then 1 else 0) ∧
      (∀ u, u ≠ t → s'.levels u = s.levels u) ∧ s'.panicked = s.panicked := by
  simp only [lock, Option.bind_eq_bind, Option.bind_eq_some_iff] at h
  obtain ⟨m, hm, h⟩ := h
  cases h
  refine ⟨fun b => ?_, fun u hu => ?_, rfl⟩
  · by_cases hb : a = b
    · subst hb
      simpa [levels] using RecMutex.level_lock hm
    · simp [levels, hb, Ne.symm hb]
  · funext b
    by_cases hb : a = b
    · subst hb
      simpa [levels] using RecMutex.level_lock_other hm hu
    · simp [levels, Ne.symm hb]

theorem unlock_levels {a : α} (h : 0 < s.levels t a) :
    (∀ b, (s.unlock t a).levels t b + (if a = b then 1 else 0) = s.levels t b) ∧
      (∀ u, u ≠ t → (s.unlock t a).levels u = s.levels u) ∧
      (s.unlock t a).panicked = s.panicked := by
  obtain ⟨m, hm⟩ := RecMutex.exists_unlock h
  simp only [unlock, hm]
  refine ⟨fun b => ?_, fun u hu => ?_, trivial⟩
  · by_cases hb : a = b
    · subst hb
      simpa [levels] using (RecMutex.level_unlock hm).symm
    · simp [levels, hb, Ne.symm hb]
  · funext b
    by_cases hb : a = b
    · subst hb
      simpa [levels] using RecMutex.level_unlock_other hm hu
    · simp [levels, Ne.symm hb]

/-- A frame of a stack is a call on its object. -/
theorem calls_of_split {fs₁ fs₂ : List (Frame ω α)} {o : ω} {k : Call} {e : α → Nat}
    (h : s.stack t = fs₁ ++ Frame.dispatch o k e :: fs₂) :
    (s.proj o).calls (t, fs₂.length) = some k := by
  simp [proj, h, frameAt_mid, Frame.callOn]

/-- The invariant: no unlock has failed, the levels of every thread are
accounted for, and a worker's `stdThreadInfo` is with the lowest frame of a worker. -/
structure Disciplined (w : World τ ω α) (s : Threads τ ω α) : Prop where
  sound : s.panicked = false
  chain : ∀ t, Chain w s.objs (s.levels t) (s.stack t)
  worker : ∀ t, Bottomed (w.worker t) (s.stack t)

/-- The step of a call does not change what other frames have taken. -/
theorem taken_kept {fs : List (Frame ω α)} {o : ω} {k : Call} {x : CallAct}
    {r : Stepped (τ × Nat)} (hl : Locks (s.proj o)) (hc : (s.proj o).calls (t, fs.length) = some k)
    (hk : Call.Step (w.table o) (t, fs.length) (s.objs o) k x r) {o' : ω} {l : Call}
    {d : τ × Nat} (hd : (s.proj o').calls d = some l) (hne : d ≠ (t, fs.length)) :
    l.taken (Function.update s.objs o r.obj o') = l.taken (s.objs o') := by
  by_cases ho : o' = o
  · subst ho
    rw [Function.update_self]
    by_cases hlo : l.pc.owns = true
    · -- the other call owns the object, so that this one does not
      have hko : k.pc.owns = false := by
        by_contra hn
        exact hne (hl.owner_unique hd hlo hc (by simpa using hn))
      simp only [Call.taken, hk.flag_kept hko]
    · simp only [Call.taken, if_neg hlo]
  · rw [Function.update_of_ne ho]

/-- One thread moves: its new stack is accounted for, and the others keep
their levels and what their frames have taken. -/
theorem Disciplined.move {l : List (Frame ω α)} (h : Disciplined w s)
    (hp : s'.panicked = s.panicked) (hs : s'.stack = Function.update s.stack t l)
    (hl : ∀ u, u ≠ t → s'.levels u = s.levels u)
    (hc : Chain w s'.objs (s'.levels t) l) (hw : Bottomed (w.worker t) l)
    (hk : ∀ u, u ≠ t → ∀ o k e, .dispatch o k e ∈ s.stack u →
      k.taken (s'.objs o) = k.taken (s.objs o)) : Disciplined w s' := by
  refine ⟨hp.trans h.sound, fun u => ?_, fun u => ?_⟩
  · by_cases hu : u = t
    · subst hu
      rwa [hs, Function.update_self]
    · rw [hs, Function.update_of_ne hu, hl u hu]
      exact (h.chain u).congr (hk u hu)
  · by_cases hu : u = t
    · subst hu
      rwa [hs, Function.update_self]
    · rw [hs, Function.update_of_ne hu]
      exact h.worker u

/-- The levels of a thread whose call takes a step. -/
theorem effect_levels {a : α} {e : Effect} {n n' : Nat} {entry : α → Nat}
    (he : s.effect t a e = some s') (hb : ∀ b, s.levels t b = entry b + if a = b then n else 0)
    (hn : (e = .mtxLock ∧ n' = n + 1) ∨ (e = .mtxUnlock ∧ n' + 1 = n) ∨
      ((e = .none ∨ e = .poolIns) ∧ n' = n)) :
    (∀ b, s'.levels t b = entry b + if a = b then n' else 0) ∧
      (∀ u, u ≠ t → s'.levels u = s.levels u) ∧ s'.panicked = s.panicked := by
  rcases hn with ⟨rfl, rfl⟩ | ⟨rfl, rfl⟩ | ⟨rfl | rfl, rfl⟩
  · obtain ⟨h1, h2, h3⟩ := lock_levels he
    refine ⟨fun b => ?_, h2, h3⟩
    rw [h1, hb]
    split <;> omega
  · cases he
    have hpos : 0 < s.levels t a := by
      rw [hb, if_pos rfl]
      omega
    obtain ⟨h1, h2, h3⟩ := unlock_levels hpos
    refine ⟨fun b => ?_, h2, h3⟩
    have h := h1 b
    rw [hb] at h
    by_cases hab : a = b
    · simp only [if_pos hab] at h ⊢
      omega
    · simp only [if_neg hab] at h ⊢
      omega
  · cases he
    exact ⟨hb, fun _ _ => rfl, rfl⟩
  · cases he
    exact ⟨hb, fun _ _ => rfl, rfl⟩

theorem Disciplined.step {x : ThreadAct ω α} (h : Disciplined w s)
    (hl : ∀ o, Locks (s.proj o))
    (hf : ∀ o, (s.objs o).stateLock = false → (s.objs o).mtxLockFlag = false)
    (hs : Step w s t x s') : Disciplined w s' := by
  have hchain := h.chain t
  have hworker := h.worker t
  cases hs with
  | @call _ o ev thrInfo hw =>
    refine h.move rfl rfl (fun _ _ => rfl) ⟨fun a => ?_, hchain⟩ ⟨fun ht => hw ht, hworker⟩
      fun _ _ _ _ _ _ => rfl
    show s.levels t a = s.levels t a + _
    simp [Call.taken, Call.enter, Pc.owns]
  | @act o k entry fs x r _ hstack hr he =>
    have hk := Call.step_cases hr
    have hc : (s.proj o).calls (t, fs.length) = some k := by simp [proj_top hstack, Frame.callOn]
    rw [hstack] at hchain hworker
    obtain ⟨ho, hst⟩ := effect_frame he
    change s'.objs = Function.update s.objs o r.obj at ho
    obtain ⟨hlv, hlu, hp⟩ := effect_levels he hchain.1 (hk.taken (hf o))
    refine h.move hp hst hlu ⟨?_, ?_⟩ ⟨fun ht => hworker.1 (hk.args.2 ▸ ht), hworker.2⟩ ?_
    · intro a
      rw [ho, Function.update_self]
      exact hlv a
    · -- the frames under the top one
      rw [ho]
      refine hchain.2.congr fun o' l e hm => ?_
      obtain ⟨fs₁, fs₂, rfl⟩ := List.append_of_mem hm
      have hsplit : s.stack t = (.dispatch o k entry :: fs₁) ++ Frame.dispatch o' l e :: fs₂ := hstack
      exact taken_kept (hl o) hc hk (calls_of_split hsplit) (by simp; omega)
    · intro u hu o' l e hm
      obtain ⟨fs₁, fs₂, hsplit⟩ := List.append_of_mem hm
      rw [ho]
      exact taken_kept (hl o) hc hk (calls_of_split hsplit) (by simp [hu])
  | @ret o k entry fs hstack hp =>
    rw [hstack] at hchain hworker
    refine h.move (t := t) (l := fs) rfl (by simp [pop, hstack]) (fun _ _ => rfl) ?_ hworker.2
      fun _ _ _ _ _ _ => rfl
    have hlv : s.levels t = entry := by
      funext a
      simpa [Frame.Balanced, Call.taken, hp, Pc.owns] using hchain.1 a
    show Chain w s.objs (s.levels t) fs
    rw [hlv]
    exact hchain.2
  | @lock a _ h' =>
    obtain ⟨ho, hst⟩ := lock_frame h'
    obtain ⟨hlv, hlu, hp⟩ := lock_levels h'
    exact h.move hp hst hlu ⟨hlv, ho ▸ hchain⟩ hworker fun u _ o' k' e' _ => by rw [ho]; rfl
  | @release a hpos =>
    obtain ⟨ho, hst⟩ := unlock_frame (s := s.push t (.release a (s.levels t))) (t := t) a
    obtain ⟨hlv, hlu, hp⟩ := unlock_levels (s := s.push t (.release a (s.levels t))) hpos
    exact h.move hp hst hlu ⟨hlv, ho ▸ hchain⟩ hworker fun u _ o' k' e' _ => by rw [ho]; rfl
  | @closeLock a entry fs hstack =>
    rw [hstack] at hchain hworker
    have hpos : 0 < (s.pop t).levels t a := by
      show 0 < s.levels t a
      rw [hchain.1 a, if_pos rfl]
      omega
    obtain ⟨ho, hst⟩ := unlock_frame (s := s.pop t) (t := t) a
    obtain ⟨hlv, hlu, hp⟩ := unlock_levels hpos
    refine h.move (t := t) (l := fs) hp (hst.trans (by simp [pop, hstack])) hlu ?_ hworker
      fun u _ o' k' e' _ => by rw [ho]; rfl
    have hlevel : ((s.pop t).unlock t a).levels t = entry := by
      funext b
      have h1 := hlv b
      have h2 := hchain.1 b
      change _ = s.levels t b at h1
      omega
    rw [hlevel, ho]
    exact hchain.2
  | @closeRelease a entry fs _ hstack h' =>
    rw [hstack] at hchain hworker
    obtain ⟨ho, hst⟩ := lock_frame h'
    obtain ⟨hlv, hlu, hp⟩ := lock_levels h'
    refine h.move (t := t) (l := fs) hp (hst.trans (by simp [pop, hstack])) hlu ?_ hworker
      fun u _ o' k' e' _ => by rw [ho]; rfl
    have hlevel : s'.levels t = entry := by
      funext b
      rw [hlv b]
      exact hchain.1 b
    rw [hlevel, ho]
    exact hchain.2

theorem Disciplined.init (hi : (Threading w).init s) : Disciplined w s := by
  obtain ⟨f, rfl⟩ := hi
  exact ⟨rfl, fun _ _ => rfl, fun _ => trivial⟩

theorem disciplined {tr : List Empty} (h : (Threading w).Run tr s) : Disciplined w s := by
  refine h.invariant (I := fun _ s => Disciplined w s) (fun _ => Disciplined.init) ?_
  rintro tr s ⟨t, x⟩ s' os hr ih _ hs
  obtain ⟨s', hstep, hs'⟩ := Option.map_eq_some_iff.mp hs
  cases hs'
  refine ih.step (fun o => ?_) (fun o => ?_) (step_cases hstep)
  · obtain ⟨_, ho⟩ := Threading.dispatch hr o
    exact locks ho
  · obtain ⟨_, ho⟩ := Threading.dispatch hr o
    exact flag_rest ho

end Threads

/-- The discipline of the application mutexes: where state functions run, where
a call of `eventHandler` returns, and where no call is in charge of an object. -/
structure LockDiscipline (w : World τ ω α) (s : Threads τ ω α) : Prop where
  /-- No thread unlocks a mutex that it does not hold. -/
  sound : s.panicked = false
  state : ∀ t o k e ev fs₁ fs₂, s.stack t = fs₁ ++ .dispatch o k e :: fs₂ → k.pc = .inState ev →
    (∀ e', .release (w.app o) e' ∉ fs₁) → 0 < s.levels t (w.app o)
  thread : ∀ t o k e ev fs₁ fs₂, s.stack t = fs₁ ++ .dispatch o k e :: fs₂ →
    k.pc = .inThread ev →
    w.worker t = true ∧ k.thrInfo.isSome = true ∧ fs₂ = [] ∧ (s.objs o).mtxLockFlag = false ∧
      (fs₁ = [] → s.levels t = e)
  exit : ∀ t o k e fs, s.stack t = .dispatch o k e :: fs → k.pc = .returned → s.levels t = e
  flag : ∀ o, (s.objs o).stateLock = false → (s.objs o).mtxLockFlag = false

/-- The discipline holds in every state of every run. -/
theorem lockDiscipline {tr : List Empty} (h : (Threading w).Run tr s) : LockDiscipline w s := by
  have hd := Threads.disciplined h
  have flagOk : ∀ {t o k e fs₁ fs₂}, s.stack t = fs₁ ++ Frame.dispatch o k e :: fs₂ →
      k.FlagOk (s.objs o) := by
    intro t o k e fs₁ fs₂ hs
    obtain ⟨_, ho⟩ := Threading.dispatch h o
    exact flag_ok ho _ _ (Threads.calls_of_split hs)
  refine ⟨hd.sound, ?_, ?_, ?_, fun o => ?_⟩
  · intro t o k e ev fs₁ fs₂ hs hp hr
    have hheld := (hs ▸ hd.chain t).held hr
    have htaken : k.taken (s.objs o) = 1 := by
      simp [Call.taken, hp, Pc.owns, Pc.filterLevel, (flagOk hs).state ev hp]
    omega
  · intro t o k e ev fs₁ fs₂ hs hp
    have hok := flagOk hs
    have hinfo := hok.worker ev (.inr hp)
    obtain ⟨hw, hfs⟩ := (hs ▸ hd.worker t).of_split hinfo
    refine ⟨hw, hinfo, hfs, hok.thread ev hp, ?_⟩
    rintro rfl
    have hchain := hs ▸ hd.chain t
    funext a
    simpa [Call.taken, hp, Pc.owns, Pc.filterLevel, hok.thread ev hp] using hchain.1 a
  · intro t o k e fs hs hp
    have hchain := hs ▸ hd.chain t
    funext a
    simpa [Call.taken, hp, Pc.owns] using hchain.1 a
  · obtain ⟨_, ho⟩ := Threading.dispatch h o
    exact flag_rest ho

/-- Two objects of one application, and one worker. -/
def twoObjects : World Bool Bool Unit := ⟨fun _ => .tinyState, fun _ => (), id⟩

/-- A dispatch of `TSE_INIT`, up to the first state function of the object. -/
def sendInit (o : Bool) : List (Bool × ThreadAct Bool Unit) :=
  (false, .call o ⟨.init, 0⟩) :: List.replicate 4 (false, .act .go)

/-- The first state function of an object sends `TSE_INIT` to the other. -/
theorem nested_dispatch : ∃ s, s.levels false () = 2 ∧ LockDiscipline twoObjects s := by
  obtain ⟨tr, s, h, hl⟩ := Machine.exists_run (M := Threading twoObjects) (C := fun _ _ => True)
    (P := fun _ s => s.levels false () = 2) (sendInit false ++ sendInit true)
    ⟨fun _ => false, rfl⟩ (by decide)
  exact ⟨s, hl, lockDiscipline h⟩

end TinyState
