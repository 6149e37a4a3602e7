import TinyState.Threads.Model

/-!
# One object among the threads

Seen from one object, a run of all the threads is a run of `Dispatch`: its
calls are the frames that are on it, each known by its thread and its height in
the stack. What holds of one object and its callers so holds of every object.
-/

set_option linter.unusedSectionVars false

namespace TinyState

open Transition

section

variable {ω α : Type}

/-- The frame at a height, counted from the bottom of the stack. -/
def frameAt : List (Frame ω α) → Nat → Option (Frame ω α)
  | [], _ => none
  | f :: fs, h => if h = fs.length then some f else frameAt fs h

@[simp] theorem frameAt_top (f : Frame ω α) (fs : List (Frame ω α)) :
    frameAt (f :: fs) fs.length = some f := by simp [frameAt]

theorem frameAt_of_ne {f : Frame ω α} {fs : List (Frame ω α)} {h : Nat} (hne : h ≠ fs.length) :
    frameAt (f :: fs) h = frameAt fs h := by simp [frameAt, hne]

theorem frameAt_none {fs : List (Frame ω α)} {h : Nat} (hle : fs.length ≤ h) :
    frameAt fs h = none := by
  induction fs with
  | nil => rfl
  | cons f fs ih =>
    rw [List.length_cons] at hle
    rw [frameAt_of_ne (by omega), ih (by omega)]

/-- A frame of a stack stands at the height of what is under it. -/
theorem frameAt_mid (fs₁ : List (Frame ω α)) (f : Frame ω α) (fs₂ : List (Frame ω α)) :
    frameAt (fs₁ ++ f :: fs₂) fs₂.length = some f := by
  induction fs₁ with
  | nil => exact frameAt_top f fs₂
  | cons g fs₁ ih =>
    rw [List.cons_append, frameAt_of_ne (by simp; omega), ih]

/-- The call of a frame, if it is on the object. -/
def Frame.callOn [DecidableEq ω] (o : ω) : Frame ω α → Option Call
  | .dispatch o' k _ => if o' = o then some k else none
  | .lock .. | .release .. => none

end

namespace Threads

variable {τ ω α : Type} [DecidableEq τ] [DecidableEq ω] [DecidableEq α] {w : World τ ω α}
  {s s' : Threads τ ω α} {t : τ} {o : ω}

/-- The object with the calls that are on it. -/
def proj (s : Threads τ ω α) (o : ω) : Sys (τ × Nat) :=
  ⟨s.objs o, fun c => (frameAt (s.stack c.1) c.2).bind (Frame.callOn o)⟩

theorem effect_frame {a : α} {e : Effect} (h : s.effect t a e = some s') :
    s'.objs = s.objs ∧ s'.stack = s.stack := by
  cases e with
  | mtxLock =>
    simp only [effect, lock, Option.bind_eq_bind, Option.bind_eq_some_iff] at h
    obtain ⟨m, -, h⟩ := h
    cases h
    exact ⟨rfl, rfl⟩
  | mtxUnlock =>
    cases h
    unfold unlock
    split <;> exact ⟨rfl, rfl⟩
  | none | poolIns =>
    cases h
    exact ⟨rfl, rfl⟩

/-- The stack of `t` becomes `l`; a frame on `o` changes at one height at most. -/
theorem proj_update {l : List (Frame ω α)} {n : Nat} {obj : Obj (τ × Nat)} {k : Option Call}
    (ho : s'.objs o = obj) (hs : s'.stack = Function.update s.stack t l)
    (hk : (frameAt l n).bind (Frame.callOn o) = k)
    (hr : ∀ h, h ≠ n → frameAt l h = frameAt (s.stack t) h) :
    s'.proj o = (s.proj o).set (t, n) obj k := by
  unfold proj Sys.set
  congr 1
  funext ⟨u, h⟩
  simp only [hs]
  by_cases hu : u = t
  · subst hu
    rw [Function.update_self]
    by_cases hh : h = n
    · subst hh
      rw [Function.update_self, hk]
    · rw [Function.update_of_ne (by simp [hh]), hr h hh]
  · rw [Function.update_of_ne hu, Function.update_of_ne (by simp [hu])]

theorem set_same (c : τ × Nat) : (s.proj o).set c (s.objs o) ((s.proj o).calls c) = s.proj o := by
  unfold Sys.set
  rw [Function.update_eq_self]
  rfl

theorem proj_push (f : Frame ω α) :
    (s.push t f).proj o = (s.proj o).set (t, (s.stack t).length) (s.objs o) (f.callOn o) :=
  proj_update rfl rfl (by simp) fun h hne => frameAt_of_ne hne

theorem proj_pop {f : Frame ω α} {fs : List (Frame ω α)} (hf : s.stack t = f :: fs) :
    (s.pop t).proj o = (s.proj o).set (t, fs.length) (s.objs o) none := by
  refine proj_update (l := fs) rfl ?_ ?_ fun h hne => ?_
  · simp [pop, hf]
  · simp [frameAt_none]
  · rw [hf, frameAt_of_ne hne]

/-- Nobody calls the object from above the stack. -/
theorem proj_free : (s.proj o).calls (t, (s.stack t).length) = none := by
  simp [proj, frameAt_none]

theorem proj_top {f : Frame ω α} {fs : List (Frame ω α)} (hf : s.stack t = f :: fs) :
    (s.proj o).calls (t, fs.length) = f.callOn o := by
  simp [proj, hf]

/-- What changes the mutexes alone is not seen from an object. -/
theorem proj_congr (ho : s'.objs = s.objs) (hs : s'.stack = s.stack) : s'.proj o = s.proj o := by
  unfold proj
  rw [ho, hs]

theorem lock_frame {a : α} (h : s.lock t a = some s') : s'.objs = s.objs ∧ s'.stack = s.stack :=
  effect_frame (e := .mtxLock) h

theorem unlock_frame (a : α) :
    (s.unlock t a).objs = s.objs ∧ (s.unlock t a).stack = s.stack :=
  effect_frame (e := .mtxUnlock) rfl

/-- The branches of `Threads.step`. -/
inductive Step (w : World τ ω α) (s : Threads τ ω α) (t : τ) : ThreadAct ω α → Threads τ ω α → Prop
  | call {x o ev thrInfo} : (thrInfo.isSome = true → w.worker t = true ∧ s.stack t = []) →
      Step w s t x (s.push t (.dispatch o (.enter ev thrInfo) (s.levels t)))
  | act {o k entry fs x r s'} : s.stack t = .dispatch o k entry :: fs →
      k.step (w.table o) (t, fs.length) (s.objs o) x = some r →
      { s with
        objs := Function.update s.objs o r.obj
        stack := Function.update s.stack t (.dispatch o r.call entry :: fs) }.effect t (w.app o)
          r.eff = some s' →
      Step w s t (.act x) s'
  | ret {o k entry fs} : s.stack t = .dispatch o k entry :: fs → k.pc = .returned →
      Step w s t .ret (s.pop t)
  | lock {a s'} : (s.push t (.lock a (s.levels t))).lock t a = some s' → Step w s t (.lock a) s'
  | release {a} : 0 < s.levels t a →
      Step w s t (.release a) ((s.push t (.release a (s.levels t))).unlock t a)
  | closeLock {a entry fs} : s.stack t = .lock a entry :: fs →
      Step w s t .close ((s.pop t).unlock t a)
  | closeRelease {a entry fs s'} : s.stack t = .release a entry :: fs →
      (s.pop t).lock t a = some s' → Step w s t .close s'

theorem step_cases {x : ThreadAct ω α} (h : s.step w t x = some s') : Step w s t x s' := by
  cases x with
  | call o ev =>
    simp only [step, Option.ite_none_right_eq_some] at h
    obtain ⟨-, h⟩ := h
    cases h
    exact .call (by simp)
  | body o ev thrInfo =>
    simp only [step, Option.ite_none_right_eq_some] at h
    obtain ⟨⟨hw, hl⟩, h⟩ := h
    cases h
    exact .call fun _ => ⟨hw, by simpa using hl⟩
  | act x =>
    simp only [step] at h
    split at h
    · rename_i o k entry fs hf
      simp only [stepCall, Option.bind_eq_bind, Option.bind_eq_some_iff] at h
      obtain ⟨r, hr, h⟩ := h
      exact .act hf hr h
    · cases h
  | ret =>
    simp only [step] at h
    split at h
    · rename_i o k entry fs hf
      split at h
      · cases h
        exact .ret hf ‹_›
      · cases h
    · cases h
  | lock a =>
    simp only [step, Option.ite_none_right_eq_some] at h
    exact .lock h.2
  | release a =>
    simp only [step, Option.ite_none_right_eq_some] at h
    obtain ⟨⟨-, hl⟩, h⟩ := h
    cases h
    exact .release hl
  | close =>
    simp only [step] at h
    split at h
    · rename_i a entry fs hf
      cases h
      exact .closeLock hf
    · rename_i a entry fs hf
      exact .closeRelease hf h
    · cases h

/-- A step of a thread is, for each object, a step of `Dispatch` or none. -/
theorem Step.proj {x : ThreadAct ω α} (h : Step w s t x s') (o : ω) :
    s'.proj o = s.proj o ∨ ∃ b os, (s.proj o).step (w.table o) b = some (s'.proj o, os) := by
  have section_push : ∀ f : Frame ω α, f.callOn o = none → (s.push t f).proj o = s.proj o := by
    intro f hf
    rw [proj_push, hf, ← proj_free (s := s) (t := t) (o := o), set_same]
  have section_pop : ∀ f : Frame ω α, f.callOn o = none → ∀ fs, s.stack t = f :: fs →
      (s.pop t).proj o = s.proj o := by
    intro f hf fs hfs
    rw [proj_pop hfs, ← hf, ← proj_top (o := o) hfs, set_same]
  cases h with
  | @call _ o' ev thrInfo =>
    by_cases he : o' = o
    · subst he
      refine .inr ⟨.call (t, (s.stack t).length) ev thrInfo, [], ?_⟩
      simp only [Sys.step, proj_free, proj_push, Frame.callOn, if_true]
      rfl
    · exact .inl (section_push _ (by simp [Frame.callOn, he]))
  | @act o' k entry fs x r _ hf hr he =>
    obtain ⟨ho, hs⟩ := effect_frame he
    have hkeep : ∀ h, h ≠ fs.length →
        frameAt (.dispatch o' r.call entry :: fs) h = frameAt (s.stack t) h := by
      intro h hne
      rw [hf, frameAt_of_ne hne, frameAt_of_ne hne]
    by_cases heq : o' = o
    · subst heq
      refine .inr ⟨.act (t, fs.length) x, r.obs, ?_⟩
      have hp : s'.proj o' = (s.proj o').set (t, fs.length) r.obj (some r.call) :=
        proj_update (by rw [ho]; simp) hs (by simp [Frame.callOn]) hkeep
      simp [Sys.step, proj_top hf, Frame.callOn, hp, show (s.proj o').obj = s.objs o' from rfl, hr]
    · have hp : s'.proj o = (s.proj o).set (t, fs.length) (s.objs o) none :=
        proj_update (by rw [ho]; simp [Ne.symm heq]) hs (by simp [Frame.callOn, heq]) hkeep
      have hn : (s.proj o).calls (t, fs.length) = none := by simp [proj_top hf, Frame.callOn, heq]
      rw [hp, ← hn, set_same]
      exact .inl rfl
  | @ret o' k entry fs hf hp =>
    by_cases he : o' = o
    · subst he
      refine .inr ⟨.ret (t, fs.length), [], ?_⟩
      simp [Sys.step, proj_top hf, Frame.callOn, proj_pop hf, hp]
      rfl
    · exact .inl (section_pop _ (by simp [Frame.callOn, he]) fs hf)
  | lock h =>
    obtain ⟨ho, hs⟩ := lock_frame h
    exact .inl ((proj_congr ho hs).trans (section_push _ rfl))
  | @release a h =>
    obtain ⟨ho, hs⟩ := unlock_frame (s := s.push t (.release a (s.levels t))) (t := t) a
    exact .inl ((proj_congr ho hs).trans (section_push _ rfl))
  | @closeLock a entry fs hf =>
    obtain ⟨ho, hs⟩ := unlock_frame (s := s.pop t) (t := t) a
    exact .inl ((proj_congr ho hs).trans (section_pop _ rfl fs hf))
  | @closeRelease a entry fs _ hf h =>
    obtain ⟨ho, hs⟩ := lock_frame h
    exact .inl ((proj_congr ho hs).trans (section_pop _ rfl fs hf))

end Threads

/-- Seen from each object, a run of the threads is a run of the object and its callers. -/
theorem Threading.dispatch {τ ω α : Type} [DecidableEq τ] [DecidableEq ω] [DecidableEq α]
    {w : World τ ω α} {s : Threads τ ω α} {tr : List Empty} (h : (Threading w).Run tr s) (o : ω) :
    ∃ tr', (Dispatch (τ × Nat) (w.table o)).Run tr' (s.proj o) := by
  refine h.invariant (I := fun _ s => ∃ tr', (Dispatch (τ × Nat) (w.table o)).Run tr' (s.proj o))
    ?_ ?_
  · rintro s ⟨f, rfl⟩
    exact ⟨[], .start ⟨f o, rfl⟩⟩
  · rintro tr s ⟨t, x⟩ s' os _ ⟨tr', ih⟩ _ hs
    obtain ⟨s', hstep, hs'⟩ := Option.map_eq_some_iff.mp hs
    cases hs'
    rcases (Threads.step_cases hstep).proj o with he | ⟨b, os', hb⟩
    · exact ⟨tr', he ▸ ih⟩
    · exact ⟨_, ih.next hb⟩

end TinyState
