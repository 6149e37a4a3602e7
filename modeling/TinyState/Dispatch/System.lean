import TinyState.Dispatch.Model
import TinyState.Lib.Machine
import Mathlib.Logic.Function.Basic

/-!
# One object and all its callers

Any number of calls of `eventHandler` on one object, each at its own place,
with every order of their steps. A call from a state function of the object
itself is one of them. Who may call with a worker's `stdThreadInfo`, and when,
is left open here; the thread pool narrows it.
-/

namespace TinyState

/-- The object and the calls on it that have not returned to their callers. -/
structure Sys (ι : Type) where
  obj : Obj ι
  calls : ι → Option Call

inductive Act (ι : Type)
  /-- A caller enters `eventHandler`. -/
  | call (c : ι) (ev : StdEvent) (thrInfo : Option ThrId)
  | act (c : ι) (a : CallAct)
  /-- The call is over. -/
  | ret (c : ι)

namespace Sys

variable {ι : Type} [DecidableEq ι]

def set (s : Sys ι) (c : ι) (o : Obj ι) (k : Option Call) : Sys ι :=
  ⟨o, Function.update s.calls c k⟩

variable {s : Sys ι} {c d : ι} {o : Obj ι} {k : Option Call}

@[simp] theorem set_obj : (s.set c o k).obj = o := rfl

@[simp] theorem set_calls_self : (s.set c o k).calls c = k := Function.update_self ..

theorem set_calls_of_ne (h : d ≠ c) : (s.set c o k).calls d = s.calls d := Function.update_of_ne h ..

/-- What holds of all calls after one of them has changed. -/
theorem forall_set {P : ι → Call → Prop} (hc : ∀ l, k = some l → P c l)
    (hd : ∀ d l, d ≠ c → s.calls d = some l → P d l) :
    ∀ d l, (s.set c o k).calls d = some l → P d l := by
  intro d l h
  by_cases e : d = c
  · subst e
    exact hc l (by simpa using h)
  · exact hd d l e (by simpa [set_calls_of_ne e] using h)

/-- A property of a call that the changed call has or lacks as before. -/
theorem exists_set {P : Call → Prop}
    (hc : (∃ l, k = some l ∧ P l) ↔ ∃ l, s.calls c = some l ∧ P l) (d : ι) :
    (∃ l, (s.set c o k).calls d = some l ∧ P l) ↔ ∃ l, s.calls d = some l ∧ P l := by
  by_cases e : d = c
  · subst e
    rwa [set_calls_self]
  · rw [set_calls_of_ne e]

def step (T : StateTable) (s : Sys ι) : Act ι → Option (Sys ι × List (Obs ι))
  | .call c ev thrInfo =>
    match s.calls c with
    | none => some (s.set c s.obj (some (.enter ev thrInfo)), [])
    | some _ => none
  | .act c a => do
    let k ← s.calls c
    let r ← k.step T c s.obj a
    some (s.set c r.obj (some r.call), r.obs)
  | .ret c =>
    match s.calls c with
    | some k => if k.pc = .returned then some (s.set c s.obj none, []) else none
    | none => none

end Sys

/-- The object after `inherit`, and no call on it yet. -/
def Sys.inherit {ι : Type} (T : StateTable) (filterLock : Bool) : Sys ι :=
  ⟨Obj.inherit T filterLock, fun _ => none⟩

def Dispatch (ι : Type) [DecidableEq ι] (T : StateTable) :
    Transition.Machine (Sys ι) (Act ι) (Obs ι) where
  init s := ∃ filterLock, s = Sys.inherit T filterLock
  step := Sys.step T

end TinyState
