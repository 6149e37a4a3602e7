import Mathlib.Logic.Basic

/-!
# Recursion to a bound

Programs that may fail, and whose recursion is cut off at a depth. What a program does is stated
with a condition for each end: `out` holds where it was cut off, `E` of the error it fails with,
`P` of its value. With `out` false the program comes to an end.
-/

namespace BoundedRun

variable {ε α β : Type*}

/-- What comes of a program: nothing where it was cut off. -/
abbrev Outcome (ε α : Type*) := Option (Except ε α)

def Outcome.andThen (x : Outcome ε α) (f : α → Outcome ε β) : Outcome ε β :=
  match x with
  | none => none
  | some (.error e) => some (.error e)
  | some (.ok a) => f a

/-- A loop whose rounds pass a value on. -/
def forEach (body : α → β → Outcome ε β) : List α → β → Outcome ε β
  | [], b => some (.ok b)
  | a :: as, b => (body a b).andThen (forEach body as)

/-- The outcome meets the conditions. -/
def Meets (x : Outcome ε α) (out : Prop) (E : ε → Prop) (P : α → Prop) : Prop :=
  match x with
  | none => out
  | some (.error e) => E e
  | some (.ok a) => P a

variable {x : Outcome ε α} {out out' : Prop} {E E' : ε → Prop} {P P' : α → Prop} {Q : β → Prop}

@[simp] theorem meets_none : Meets (none : Outcome ε α) out E P = out := rfl

@[simp] theorem meets_error {e : ε} : Meets (some (.error e) : Outcome ε α) out E P = E e := rfl

@[simp] theorem meets_ok {a : α} : Meets (some (.ok a) : Outcome ε α) out E P = P a := rfl

theorem Meets.mono (h : Meets x out E P) (ho : out → out') (he : ∀ e, E e → E' e)
    (hp : ∀ a, P a → P' a) : Meets x out' E' P' := by
  match x with
  | none => exact ho h
  | some (.error e) => exact he e h
  | some (.ok a) => exact hp a h

theorem Meets.andThen {f : α → Outcome ε β} (h : Meets x out E P)
    (hf : ∀ a, P a → Meets (f a) out E Q) : Meets (x.andThen f) out E Q := by
  match x with
  | none => exact h
  | some (.error e) => exact h
  | some (.ok a) => exact hf a h

/-- The rule of the loop: `I` tells what holds while certain rounds are left. -/
theorem Meets.forEach {body : α → β → Outcome ε β} {l : List α} {b : β} {I : List α → β → Prop}
    (start : I l b)
    (round : ∀ a as b, I (a :: as) b → Meets (body a b) out E (I as)) :
    Meets (forEach body l b) out E (I []) := by
  induction l generalizing b with
  | nil => exact start
  | cons a as ih => exact (round a as b start).andThen fun b' hb' => ih hb'

theorem Meets.ne_none (h : Meets x False E P) : x ≠ none := by
  rintro rfl
  exact h

theorem Meets.of_ok {a : α} (h : Meets x out E P) (hx : x = some (.ok a)) : P a := by
  subst hx
  exact h

theorem Meets.of_error {e : ε} (h : Meets x out E P) (hx : x = some (.error e)) : E e := by
  subst hx
  exact h

end BoundedRun
