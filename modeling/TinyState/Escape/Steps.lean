import TinyState.Escape.Model
import TinyState.Lib.Custody

/-!
# What one call does to the stacks

A step replaces the innermost call of a thread, or pushes one. Each kind of step is
named here once; what holds of the objects and of all calls, wherever they are, is
kept if it is kept by these.
-/

namespace TinyState.Escape

open Transition

variable {ω : Type} [DecidableEq ω]

/-- The call is left to tsGC. -/
def Shared.Escapes (s : Shared ω) (sz : Int) (d : Nat) (h : Handler ω) : Prop :=
  h.worker = false ∧ 1 < d ∧ s.limit sz h.who < d ∧ s.isIni h.who = false ∧
    s.application h.who = true ∧ h.who ≠ .gc

/-- The call with what the test of the depth has found. -/
def Shared.tested (s : Shared ω) (sz : Int) (h : Handler ω) : Handler ω :=
  { h with
    limit := s.limit sz h.who
    ini := s.isIni h.who }

/-- The steps of the innermost call. -/
inductive Top (sz : Int) (d : Nat) (s : Shared ω) :
    Frame ω → Shared ω → List (Frame ω) → List (Obs ω) → Prop
  | escape {h : Handler ω} : h.pc = .enter → s.Escapes sz d h →
      Top sz d s (.handler h)
        { s with
          seq := s.seq + 1
          deferred := s.deferred ++ [⟨h.who, h.ev, s.seq⟩] }
        [.exe (.job ⟨h.who, h.ev, s.seq⟩) .ins,
          .handler { s.tested sz h with pc := .escaping }]
        [.escape ⟨h.who, h.ev, s.seq⟩]
  | enter {h : Handler ω} : h.pc = .enter → ¬s.Escapes sz d h →
      Top sz d s (.handler h) s [.handler { s.tested sz h with pc := .lock }] []
  | gcAway {h : Handler ω} : h.pc = .lock → h.who = .gc → s.gc.state = .finStart →
      Top sz d s (.handler h) s [] []
  | gcBusy {h : Handler ω} : h.pc = .lock → h.who = .gc → s.gc.stateLock = true →
      Top sz d s (.handler h)
        { s with gc := { s.gc with events := insEvent s.gc.events h.ev } } [] []
  | gcTake {h : Handler ω} {now : Int} : h.pc = .lock → h.who = .gc → s.gc.stateLock = false →
      Top sz d s (.handler h)
        { s with gc := { s.gc with
          events := insEvent s.gc.events h.ev
          stateLock := true
          enterTime := now } } [.handler { h with pc := .next }] []
  | away {h : Handler ω} {x : ω} : h.pc = .lock → h.who = .obj x →
      Top sz d s (.handler h) s [] []
  | busy {h : Handler ω} {x : ω} {que : List StdEvent} : h.pc = .lock → h.who = .obj x →
      Top sz d s (.handler h) (s.set x { s.obj x with que := que }) [] []
  | take {h : Handler ω} {x : ω} {que : List StdEvent} : h.pc = .lock → h.who = .obj x →
      (s.obj x).stage ≠ .dead → (s.obj x).stateLock = false →
      Top sz d s (.handler h) (s.set x { s.obj x with
        que := que
        stateLock := true }) [.handler { h with pc := .next }] []
  | gcEnd {h : Handler ω} : h.pc = .next → h.who = .gc → s.gc.events = [] →
      Top sz d s (.handler h) { s with gc := { s.gc with stateLock := false } }
        [.handler { h with pc := .notify }] []
  | gcNext {h : Handler ω} {ev : StdEvent} {q : List StdEvent} : h.pc = .next → h.who = .gc →
      s.gc.events = ev :: q →
      Top sz d s (.handler h) { s with gc := { s.gc with events := q } }
        [.handler { h with pc := .eval ev }] []
  | finish {h : Handler ω} {x : ω} : h.pc = .next → h.who = .obj x →
      Top sz d s (.handler h) (s.set x { s.obj x with
        stateLock := false
        application := (s.obj x).application && (s.obj x).stage ≠ .dead })
        [.handler { h with pc := .notify }] []
  | next {h : Handler ω} {x : ω} {ev : StdEvent} {q : List StdEvent} : h.pc = .next →
      h.who = .obj x →
      Top sz d s (.handler h) (s.set x { s.obj x with que := q })
        [.handler { h with pc := .eval ev }] []
  | dispatch {h : Handler ω} {x : ω} {ev : StdEvent} : h.pc = .eval ev → h.who = .obj x →
      Top sz d s (.handler h) s [.handler { h with pc := .func ev }]
        [.dispatch x ev d h.limit h.ini h.worker ((s.obj x).stage = .ini)]
  | gcIdle {h : Handler ω} {ev : StdEvent} : h.pc = .eval ev → h.who = .gc →
      s.gc.state = .finStart ∨ (s.gc.state = .actRet ∧ ev.type ≠ .ret) →
      Top sz d s (.handler h) s [.handler { h with pc := .next }] []
  | gcCheck {h : Handler ω} {ev : StdEvent} : h.pc = .eval ev → h.who = .gc →
      s.gc.state = .actStart → s.gc.que.toList = [] →
      Top sz d s (.handler h) { s with gc := { s.gc with state := .actCheck } }
        [.handler { h with pc := .eval ev }] []
  | gcBack {h : Handler ω} {ev : StdEvent} : h.pc = .eval ev → h.who = .gc →
      s.gc.state = .actCheck →
      Top sz d s (.handler h) { s with gc := { s.gc with state := .actStart } }
        [.handler { h with pc := .next }] []
  | gcFin {h : Handler ω} {ev : StdEvent} : h.pc = .eval ev → h.who = .gc →
      s.gc.state = .actCheck →
      Top sz d s (.handler h)
        { s with
          dropped := s.dropped ++ s.gc.que.toList
          gc := { s.gc with
            state := .finStart
            que := .empty } } [.handler { h with pc := .next }] []
  | gcTimer {h : Handler ω} {ev : StdEvent} : h.pc = .eval ev → h.who = .gc →
      s.gc.state = .actStart →
      Top sz d s (.handler h)
        { s with
          timers := s.timers + 1
          gc := { s.gc with state := .actRet } } [.handler { h with pc := .next }] []
  | gcRet {h : Handler ω} {ev : StdEvent} : h.pc = .eval ev → h.who = .gc →
      s.gc.state = .actRet →
      Top sz d s (.handler h) { s with gc := { s.gc with state := .actExe } }
        [.handler { h with pc := .eval ev }] []
  | gcEmpty {h : Handler ω} {ev : StdEvent} : h.pc = .eval ev → h.who = .gc →
      s.gc.state = .actExe →
      Top sz d s (.handler h) { s with gc := { s.gc with state := .actStart } }
        [.handler { h with pc := .eval ev }] []
  | gcCall {h : Handler ω} {ev : StdEvent} {x : Who ω} {que : HalfOrderQueue (GcEntry ω)}
      {id : Nat} : h.pc = .eval ev → h.who = .gc → s.gc.state = .actExe →
      s.gc.que.toList.Perm (.ts x :: que.toList) →
      Top sz d s (.handler h) { s with gc := { s.gc with que := que } }
        [.handler (.call x ⟨.ret, id⟩ false), .handler { h with pc := .delivering ev }] []
  | gcDeliver {h : Handler ω} {ev : StdEvent} {j : GcJob ω} {que : HalfOrderQueue (GcEntry ω)} :
      h.pc = .eval ev → h.who = .gc → s.gc.state = .actExe →
      s.gc.que.toList.Perm (.job j :: que.toList) →
      Top sz d s (.handler h) { s with gc := { s.gc with que := que } }
        [.handler (.call j.ts j.ev false), .handler { h with pc := .delivering ev }]
        [.deliver j]
  | ret {h : Handler ω} {x : ω} {ev : StdEvent} {stage : Stage} {que : List StdEvent}
      {pc : HandlerPc} : h.pc = .func ev → h.who = .obj x → pc = .eval ev ∨ pc = .next →
      Top sz d s (.handler h) (s.set x { s.obj x with
        stage := stage
        que := que }) [.handler { h with pc := pc }] []
  | cut {h : Handler ω} {ev : StdEvent} : h.pc = .delivering ev → h.who = .gc →
      Top sz d s (.handler h) { s with gc := { s.gc with state := .actStart } }
        [.handler { h with pc := .eval ev }] []
  | goOn {h : Handler ω} {ev : StdEvent} : h.pc = .delivering ev → h.who = .gc →
      Top sz d s (.handler h) s [.handler { h with pc := .eval ev }] []
  | leave {h : Handler ω} : h.pc = .escaping ∨ h.pc = .notify → Top sz d s (.handler h) s [] []
  | ins {e : GcEntry ω} {key : Int} : s.gc.state ≠ .finStart →
      Top sz d s (.exe e .ins) { s with gc := { s.gc with que := s.gc.que.ins key e } }
        [.exe e .wake] []
  | wake {e : GcEntry ω} {id : Nat} :
      Top sz d s (.exe e .wake) s [.handler (.call .gc ⟨.wakeup, id⟩ false), .exe e .done] []
  | done {e : GcEntry ω} : Top sz d s (.exe e .done) s [] []

variable {sz : Int} {d : Nat} {s t : Shared ω} {f : Frame ω} {fs : List (Frame ω)}
  {os : List (Obs ω)} {h : Handler ω}

theorem Shared.enter_cases (s : Shared ω) (sz : Int) (d : Nat) (hp : h.pc = .enter) :
    Top sz d s (.handler h) (s.enter sz d h).1 (s.enter sz d h).2.1 (s.enter sz d h).2.2 := by
  unfold Shared.enter
  dsimp only
  split
  · rename_i he
    exact .escape hp he
  · rename_i he
    exact .enter hp he

theorem Shared.lock_cases {now : Int} (hp : h.pc = .lock) :
    Top sz d s (.handler h) (s.lock now h).1 (s.lock now h).2 [] := by
  obtain ⟨who, ev, worker, pc, limit, ini⟩ := h
  unfold Shared.lock
  cases who with
  | gc =>
    dsimp only
    split
    · rename_i hf
      exact .gcAway hp rfl hf
    · split
      · rename_i hl
        exact .gcBusy hp rfl hl
      · rename_i hl
        exact .gcTake hp rfl (by simpa using hl)
  | obj x =>
    dsimp only
    split
    · exact .away hp rfl
    · rename_i hs
      split
      · exact .busy hp rfl
      · rename_i hl
        exact .take hp rfl (fun hd => hs (.inr hd)) (by simpa using hl)

theorem Shared.next_cases (hp : h.pc = .next) :
    Top sz d s (.handler h) (s.next h).1 (s.next h).2 [] := by
  obtain ⟨who, ev, worker, pc, limit, ini⟩ := h
  unfold Shared.next
  cases who with
  | gc =>
    dsimp only
    split
    · rename_i he
      exact .gcEnd hp rfl he
    · rename_i he
      exact .gcNext hp rfl he
  | obj x =>
    dsimp only
    split
    · exact .finish hp rfl
    · exact .next hp rfl

theorem Shared.ret_cases {stage : Stage} {rDO : Bool} {x : ω} {ev : StdEvent}
    (hp : h.pc = .func ev) (hw : h.who = .obj x) :
    Top sz d s (.handler h) (s.ret stage rDO h x ev).1 (s.ret stage rDO h x ev).2 [] := by
  unfold Shared.ret
  dsimp only
  split
  · exact .ret hp hw (.inr rfl)
  · refine .ret hp hw ?_
    cases rDO with
    | true => exact .inl rfl
    | false => exact .inr rfl

theorem Shared.evalGc_cases {id : Nat} {ev : StdEvent} (hp : h.pc = .eval ev) (hw : h.who = .gc)
    (he : s.evalGc sz d id h ev = some (t, fs, os)) : Top sz d s (.handler h) t fs os := by
  unfold Shared.evalGc at he
  dsimp only at he
  split at he
  · rename_i hst
    split at he
    · rename_i hc
      cases he
      exact .gcCheck hp hw hst (HalfOrderQueue.count_eq_zero.mp hc)
    · cases he
      exact .gcTimer hp hw hst
  · rename_i hst
    split at he
    · cases he
      exact .gcFin hp hw hst
    · cases he
      exact .gcBack hp hw hst
  · rename_i hst
    split at he
    · cases he
      exact .gcRet hp hw hst
    · rename_i hr
      cases he
      exact .gcIdle hp hw (.inr ⟨hst, hr⟩)
  · rename_i hst
    split at he
    · cases he
    · split at he
      · cases he
        exact .gcEmpty hp hw hst
      · rename_i it que hd
        have hq := HalfOrderQueue.toList_del hd
        split at he
        · cases he
          exact .gcCall hp hw hst hq
        · cases he
          exact .gcDeliver hp hw hst hq
  · rename_i hst
    cases he
    exact .gcIdle hp hw (.inl hst)

theorem Shared.top_cases {a : TopAct} (ht : s.top sz d f a = some (t, fs, os)) :
    Top sz d s f t fs os := by
  unfold Shared.top at ht
  split at ht
  · rename_i h a
    split at ht
    · rename_i hp
      have hc := s.enter_cases sz d hp
      rw [Option.some.inj ht] at hc
      exact hc
    · rename_i hp
      cases ht
      exact lock_cases hp
    · rename_i hp
      cases ht
      exact next_cases hp
    · rename_i hp
      split at ht
      · rename_i hw
        exact evalGc_cases hp hw ht
      · rename_i hw
        cases ht
        exact .dispatch hp hw
    · rename_i hp
      split at ht
      · cases ht
      · rename_i hw
        cases ht
        exact ret_cases hp hw
    · rename_i hp
      split at ht
      · rename_i hw
        cases ht
        split
        · exact .cut hp hw
        · exact .goOn hp hw
      · cases ht
    · rename_i hp
      cases ht
      exact .leave (.inl hp)
    · rename_i hp
      cases ht
      exact .leave (.inr hp)
    · cases ht
  · split at ht
    · cases ht
    · rename_i hf
      cases ht
      exact .ins hf
  · cases ht
    exact .wake
  · cases ht
    exact .done
  · cases ht

-- ---------------------------------------------------------------------------
-- All calls, wherever they are
-- ---------------------------------------------------------------------------

namespace App

/-- All calls of all threads. -/
def frames (s : App ω) : List (Frame ω) := s.threads.flatMap fun stack => stack

/-- What a step does to one thread, or to none. -/
inductive Stepped (sz : Nat → Int) (s t : App ω) : List (Obs ω) → Prop
  | top {i : Nat} {f : Frame ω} {rest fs : List (Frame ω)} {os : List (Obs ω)} :
      s.threads[i]? = some (f :: rest) →
      Top (sz i) (depth (f :: rest)) s.shared f t.shared fs os →
      t.threads = s.threads.set i (fs ++ rest) → Stepped sz s t os
  | push {i : Nat} {a : PushAct ω} {g : Frame ω} {stack : List (Frame ω)} :
      s.threads[i]? = some stack → s.shared.push a = some (t.shared, g) →
      t.threads = s.threads.set i (g :: stack) → Stepped sz s t []
  | env {a : EnvAct} : t.shared = s.shared.env a → t.threads = s.threads → Stepped sz s t []
  | spawn : t.shared = s.shared → t.threads = s.threads ++ [[]] → Stepped sz s t []

variable {sz : Nat → Int} {s t : App ω} {os : List (Obs ω)}

theorem step_cases {a : Act ω} (hs : s.step sz a = some (t, os)) : Stepped sz s t os := by
  cases a with
  | top i a =>
    unfold step at hs
    dsimp only at hs
    split at hs
    · rename_i f rest hi
      obtain ⟨⟨sh, fs, os'⟩, hr, he⟩ := Option.map_eq_some_iff.mp hs
      cases he
      exact .top hi (Shared.top_cases hr) rfl
    · cases hs
  | push i a =>
    unfold step at hs
    dsimp only at hs
    split at hs
    · rename_i stack hi
      obtain ⟨-, he⟩ := Option.ite_none_right_eq_some.mp hs
      obtain ⟨⟨sh, g⟩, hr, he⟩ := Option.map_eq_some_iff.mp he
      cases he
      exact .push hi hr rfl
    · cases hs
  | env a =>
    cases hs
    exact .env rfl rfl
  | spawn =>
    cases hs
    exact .spawn rfl rfl

omit [DecidableEq ω] in
/-- The calls before and after the end of a stack has been replaced. -/
theorem frames_set {threads : List (List (Frame ω))} {i : Nat} {rest : List (Frame ω)}
    (old : List (Frame ω)) (h : threads[i]? = some (old ++ rest)) (new : List (Frame ω)) : ∃ others,
    (threads.flatMap fun stack => stack).Perm (old ++ others) ∧
      ((threads.set i (new ++ rest)).flatMap fun stack => stack).Perm (new ++ others) := by
  have hi : i < threads.length := (List.getElem?_eq_some_iff.mp h).1
  have hset : (threads.set i (new ++ rest))[i]? = some (new ++ rest) := List.getElem?_set_self hi
  refine ⟨rest ++ (threads.eraseIdx i).flatMap fun stack => stack, ?_, ?_⟩
  · rw [← List.append_assoc]
    exact Custody.flatMap_eraseIdx (f := fun stack => stack) h
  · have hp := Custody.flatMap_eraseIdx (f := fun stack => stack) hset
    rwa [List.eraseIdx_set_eq, List.append_assoc] at hp

/-- What is kept by what one call does, whichever it is. -/
structure Kept (I : Shared ω → List (Frame ω) → Prop) : Prop where
  perm : ∀ s fs gs, fs.Perm gs → I s fs → I s gs
  top : ∀ sz d s f t fs os others, Top sz d s f t fs os → I s (f :: others) → I t (fs ++ others)
  push : ∀ s a t g others, s.push a = some (t, g) → I s others → I t (g :: others)
  env : ∀ s a others, I s others → I (s.env a) others

theorem Kept.step {I : Shared ω → List (Frame ω) → Prop} (hk : Kept I)
    (hi : I s.shared s.frames) (hs : Stepped sz s t os) : I t.shared t.frames := by
  cases hs with
  | @top i f rest fs _ hst ht he =>
    obtain ⟨others, h₁, h₂⟩ := frames_set [f] hst fs
    have hn := hk.top _ _ _ _ _ _ _ others ht (hk.perm _ _ _ h₁ hi)
    rw [frames, he]
    exact hk.perm _ _ _ h₂.symm hn
  | @push i a g stack hst hp he =>
    obtain ⟨others, h₁, h₂⟩ := frames_set [] hst [g]
    have hn := hk.push _ _ _ _ others hp (hk.perm _ _ _ h₁ hi)
    rw [frames, he]
    exact hk.perm _ _ _ h₂.symm hn
  | @env a he hst =>
    rw [frames, hst, he]
    exact hk.env _ _ _ hi
  | spawn he hst =>
    rw [frames, hst, he, List.flatMap_append]
    exact hk.perm _ _ _ (by simp [frames]) hi

theorem Kept.run {I : Shared ω → List (Frame ω) → Prop} (hk : Kept I)
    (start : ∀ v, I (initial ω v).shared []) {tr : List (Obs ω)}
    (h : (machine ω sz).Run tr s) : I s.shared s.frames := by
  refine h.stateInvariant (I := fun s => I s.shared s.frames) ?_ ?_
  · rintro _ ⟨v, rfl⟩
    exact start v
  · intro s a t os hi _ hs
    exact hk.step hi (step_cases hs)

end App

end TinyState.Escape
