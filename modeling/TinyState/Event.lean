/-!
# Events and the bit set of event types

`stdEvent.h`. An event is known to the dispatcher by its type and by its own
identity; what else it carries is for the state functions that read it. The
bit set `onlyOneEvent_occur` is an `INTEGER64`, one bit for each type.
-/

namespace TinyState

/-- `TSE_INIT` to `TSE_PRIORITY`, in the order of their codes. -/
inductive EventType
  | init | invoke | timer | timer2 | timer3 | state | destroy | ret | assert | request
  | updated | updated2 | updated3 | submit | transaction | wakeup | signal | thread
  | packet | access | priority
  deriving DecidableEq, Repr

namespace EventType

def code : EventType → Nat
  | init => 0
  | invoke => 1
  | timer => 2
  | timer2 => 3
  | timer3 => 4
  | state => 5
  | destroy => 6
  | ret => 7
  | assert => 8
  | request => 9
  | updated => 10
  | updated2 => 11
  | updated3 => 12
  | submit => 13
  | transaction => 14
  | wakeup => 15
  | signal => 16
  | thread => 17
  | packet => 18
  | access => 19
  | priority => 20

/-- `TSE_MAX`. -/
def max : Nat := 21

theorem code_lt (t : EventType) : t.code < max := by cases t <;> decide

theorem code_inj {t u : EventType} : t.code = u.code ↔ t = u := by
  constructor
  · cases t <;> cases u <;> first | exact fun _ => rfl | exact fun h => absurd h (by decide)
  · rintro rfl; rfl

end EventType

/-- `stdEvent`; `id` stands for the address of the object. -/
structure StdEvent where
  type : EventType
  id : Nat
  deriving DecidableEq, Repr

/-- `TSE_EVM`. -/
def tseEvm (t : EventType) : BitVec 64 := 1#64 <<< t.code

/-- The types of which the queue holds at most one event
(`onlyOneEvent_mask`, set once by `inherit`). -/
def onlyOneEventMask : BitVec 64 :=
  tseEvm .wakeup ||| tseEvm .state ||| tseEvm .destroy ||| tseEvm .priority

/-- The types whose bit is in the mask. -/
def EventType.Coalesced (t : EventType) : Prop := tseEvm t &&& onlyOneEventMask ≠ 0#64

instance (t : EventType) : Decidable t.Coalesced := by
  unfold EventType.Coalesced
  infer_instance

theorem coalesced_iff (t : EventType) :
    t.Coalesced ↔ t = .wakeup ∨ t = .state ∨ t = .destroy ∨ t = .priority := by
  cases t <;> decide

-- ---------------------------------------------------------------------------
-- Bit sets
-- ---------------------------------------------------------------------------

/-- The bit of a type is in the set. -/
def HasType (occur : BitVec 64) (t : EventType) : Prop := occur.getLsbD t.code = true

instance : Decidable (HasType occur t) := by
  unfold HasType
  infer_instance

theorem getLsbD_tseEvm (t : EventType) (i : Nat) :
    (tseEvm t).getLsbD i = decide (i = t.code) := by
  have ht := t.code_lt
  unfold EventType.max at ht
  rw [tseEvm, BitVec.getLsbD_shiftLeft]
  by_cases h : i = t.code
  · subst h
    simp
    omega
  · by_cases hi : i < t.code
    · simp [hi, h]
    · have : i - t.code ≠ 0 := by omega
      simp [h, this]

theorem and_tseEvm_eq_zero (occur : BitVec 64) (t : EventType) :
    occur &&& tseEvm t = 0#64 ↔ ¬ HasType occur t := by
  have ht := t.code_lt
  unfold EventType.max at ht
  constructor
  · intro h hb
    have hz : (occur &&& tseEvm t).getLsbD t.code = false := by rw [h]; simp
    rw [BitVec.getLsbD_and, getLsbD_tseEvm] at hz
    simp_all [HasType]
  · intro h
    apply BitVec.eq_of_getLsbD_eq
    intro i hi
    rw [BitVec.getLsbD_and, getLsbD_tseEvm]
    by_cases hc : i = t.code
    · subst hc
      simpa [HasType] using h
    · simp [hc]

@[simp] theorem hasType_zero (t : EventType) : ¬ HasType 0#64 t := by simp [HasType]

@[simp] theorem hasType_insert (occur : BitVec 64) (t u : EventType) :
    HasType (occur ||| tseEvm t) u ↔ HasType occur u ∨ u = t := by
  simp [HasType, getLsbD_tseEvm, EventType.code_inj]

@[simp] theorem hasType_erase (occur : BitVec 64) (t u : EventType) :
    HasType (occur &&& ~~~ tseEvm t) u ↔ HasType occur u ∧ u ≠ t := by
  have hu := u.code_lt
  unfold EventType.max at hu
  have : u.code < 64 := by omega
  simp only [HasType, BitVec.getLsbD_and, BitVec.getLsbD_not, getLsbD_tseEvm, EventType.code_inj,
    this, decide_true, Bool.true_and, Bool.and_eq_true]
  simp

end TinyState
