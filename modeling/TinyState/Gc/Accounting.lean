import TinyState.Gc.Tree
import TinyState.Lib.LinkedList

/-!
# Accounting of deferred destruction

An object is on one list at most. Its count is the number of its references:
those of the callers, that of the `refEvent` list it is on, and that of the
callback that is running. As long as no object is put on a `refEvent` list
while it is on one, or with a link left over from an earlier one, each object
is deleted once and each reached count leads to one callback.
-/

namespace TinyState

open Transition LinkedList

/-- The list an object is on: of its bucket, or of those the collector has taken. -/
inductive Place
  | out
  | queued
  | watched
  | doomed
  | called
  deriving DecidableEq, Repr

/-- The same list, once the collector has taken it. -/
def Place.taken : Place → Place
  | .queued => .doomed
  | .watched => .called
  | p => p

namespace Collector

def target : Collector → Option Address
  | .sweeping w | .callback _ w | .raising _ w => w.target
  | _ => none

def calls : Collector → Option Address
  | .sweeping w | .callback _ w | .raising _ w => w.ev
  | _ => none

/-- The object whose `refEvent` is running. -/
def running : Collector → Option Address
  | .callback x _ => some x
  | _ => none

end Collector

namespace GcSys

/-- The links of the lists, and which object is on which. -/
structure Lists (s : GcSys) (place : Address → Place) : Prop where
  deletes : ∀ i, Holds s.next (s.refList i) fun x => place x = .queued ∧ bucket x = i
  events : ∀ i, Queue s.next (s.refEventHead i) (s.refEventTail i)
    fun x => place x = .watched ∧ bucket x = i
  target : Holds s.next s.collector.target fun x => place x = .doomed
  calls : Holds s.next s.collector.calls fun x => place x = .called

/-- Every reference is somebody's; `o` is the object whose reference a call
under way is about to drop. -/
structure Books (s : GcSys) (place : Address → Place) (o : Option Address) : Prop where
  lists : s.Lists place
  ref : ∀ x, s.ref x ≠ -1 → s.ref x = s.held x + (if s.waiting x then 1 else 0) +
    (if s.collector.running = some x then 1 else 0) + if o = some x then 1 else 0
  zero : ∀ x, s.ref x = 0 ↔ place x = .queued ∨ place x = .doomed
  waits : ∀ x, s.waiting x = true ↔ place x = .watched ∨ place x = .called
  alive : ∀ x, s.waiting x = true ∨ s.collector.running = some x → s.ref x ≠ -1
  calm : s.panicked = false

/-- The object can be put on a `refEvent` list. -/
def Fresh (s : GcSys) (x : Address) : Prop :=
  0 < s.ref x → s.ref x ≤ s.refEventNum x + 1 → s.waiting x = false ∧ s.next x = none

/-- Who calls has a reference. -/
def Holding (s : GcSys) : GcAct → Prop
  | .addref x => s.ref x ≠ 0
  | .relref x => s.ref x = -1 ∨ 0 < s.held x
  | _ => True

/-- The object whose reference is dropped in the step, by a caller or after a callback. -/
def dropping (s : GcSys) : GcAct → Option Address
  | .relref x => some x
  | .gc => s.collector.running
  | _ => none

/-- No object is armed and dropped again before it is fresh. -/
def Careful (s : GcSys) (a : GcAct) : Prop := s.Holding a ∧ ∀ x ∈ s.dropping a, s.Fresh x

instance (s : GcSys) (x : Address) : Decidable (s.Fresh x) :=
  inferInstanceAs (Decidable (_ → _ → _ ∧ _))

instance (s : GcSys) : (a : GcAct) → Decidable (s.Holding a)
  | .addref _ => inferInstanceAs (Decidable (_ ≠ _))
  | .relref _ => inferInstanceAs (Decidable (_ ∨ _))
  | .nRefEvent _ _ | .raise _ | .gc | .wake | .finish => isTrue trivial

instance (s : GcSys) (a : GcAct) : Decidable (s.Careful a) :=
  inferInstanceAs (Decidable (_ ∧ ∀ x ∈ s.dropping a, s.Fresh x))

variable {s t : GcSys} {x : Address} {id : Nat} {o : Option Nat} {os : List GcObs} {a : GcAct}
  {place : Address → Place} {tr : List GcObs} {y : Option Address}

-- ---------------------------------------------------------------------------
-- Lists and counts
-- ---------------------------------------------------------------------------

/-- Arming, flags and those who raise them do not enter the books. -/
theorem Books.frame {n : Address → Int} {f : Nat → RefFlags} {b : Bool} {r : List Nat}
    (h : Books s place y) : Books { s with
      refEventNum := n
      refFlags := f
      finishFlag := b
      raising := r } place y :=
  ⟨⟨h.lists.deletes, h.lists.events, h.lists.target, h.lists.calls⟩,
    h.ref, h.zero, h.waits, h.alive, h.calm⟩

/-- A step of the collector that leaves what it has taken. -/
theorem Books.collector {c : Collector} (h : Books s place y)
    (ht : c.target = s.collector.target) (he : c.calls = s.collector.calls)
    (hr : c.running = s.collector.running) : Books { s with collector := c } place y where
  lists :=
    { deletes := h.lists.deletes
      events := h.lists.events
      target := ht ▸ h.lists.target
      calls := he ▸ h.lists.calls }
  ref x hx := hr ▸ h.ref x hx
  zero := h.zero
  waits := h.waits
  alive x hx := h.alive x (hr ▸ hx)
  calm := h.calm

theorem Up.books (hu : Up s id t o) (h : Books s place y) : Books t place y := by
  cases hu with
  | root _ _ => exact h
  | wake _ hc => exact h.collector (by rw [hc]; rfl) (by rw [hc]; rfl) (by rw [hc]; rfl)
  | raise _ => exact h

theorem Raised.books (hr : Raised s id t o) (h : Books s place y) : Books t place y := by
  cases hr with
  | stop _ => exact h
  | set _ hu =>
    exact hu.books h.frame

/-- An object that nobody waits for and whose count is not zero is on no list. -/
theorem Books.out (h : Books s place y) (hw : s.waiting x = false) (h0 : s.ref x ≠ 0) :
    place x = .out := by
  have hz := mt (h.zero x).mpr h0
  have hn := mt (h.waits x).mpr (by simp [hw])
  cases hp : place x with
  | out => rfl
  | queued => exact absurd (.inl hp) hz
  | watched => exact absurd (.inl hp) hn
  | doomed => exact absurd (.inr hp) hz
  | called => exact absurd (.inr hp) hn

-- ---------------------------------------------------------------------------
-- An object is put on a list
-- ---------------------------------------------------------------------------

theorem place_keep {p q : Place} (hq : q ≠ p) (hx : place x ≠ p) (z : Address) :
    place z = p ↔ Function.update place x q z = p := by
  by_cases hz : z = x
  · subst hz
    simp [hq, hx]
  · rw [Function.update_of_ne hz]

theorem place_keep_in {p q : Place} (hq : q ≠ p) (hx : place x ≠ p) (i : Nat) (z : Address) :
    place z = p ∧ bucket z = i ↔ Function.update place x q z = p ∧ bucket z = i :=
  and_congr_left fun _ => place_keep hq hx z

theorem place_new_in {p : Place} (z : Address) :
    (place z = p ∧ bucket z = bucket x) ∨ z = x ↔
      Function.update place x p z = p ∧ bucket z = bucket x := by
  by_cases hz : z = x
  · simp [hz]
  · simp [hz]

theorem place_elsewhere {p q : Place} {i : Nat} (hi : i ≠ bucket x) (hx : place x ≠ p)
    (z : Address) :
    place z = p ∧ bucket z = i ↔ Function.update place x q z = p ∧ bucket z = i := by
  by_cases hz : z = x
  · subst hz
    simp [hx, hi.symm]
  · rw [Function.update_of_ne hz]

theorem Lists.pushDelete (h : Lists s place) (hp : place x = .out) :
    Lists (s.pushDelete x) (Function.update place x .queued) where
  deletes i := by
    by_cases hi : i = bucket x
    · subst hi
      simp only [GcSys.pushDelete, Function.update_self]
      exact ((h.deletes (bucket x)).push (by simp [hp])).congr place_new_in
    · simp only [GcSys.pushDelete, Function.update_of_ne hi]
      exact ((h.deletes i).update (by simp [hp]) _).congr (place_elsewhere hi (by simp [hp]))
  events i := ((h.events i).update (by simp [hp]) _).congr
    (place_keep_in (by decide) (by simp [hp]) i)
  target := (h.target.update (by simp [hp]) _).congr (place_keep (by decide) (by simp [hp]))
  calls := (h.calls.update (by simp [hp]) _).congr (place_keep (by decide) (by simp [hp]))

/-- What is put behind the last element of its bucket is on no other list. -/
theorem Lists.pushEvent (h : Lists s place) (hp : place x = .out) (hn : s.next x = none) :
    Lists (s.pushEvent x) (Function.update place x .watched) := by
  have hq := h.events (bucket x)
  cases hh : s.refEventHead (bucket x) with
  | none =>
    rw [hh] at hq
    have he : s.pushEvent x = { s with
        refEventHead := Function.update s.refEventHead (bucket x) (some x)
        refEventTail := Function.update s.refEventTail (bucket x) (some x) } := by
      simp [GcSys.pushEvent, hh]
    rw [he]
    refine ⟨fun i => (h.deletes i).congr (place_keep_in (by decide) (by simp [hp]) i),
      fun i => ?_, h.target.congr (place_keep (by decide) (by simp [hp])),
      h.calls.congr (place_keep (by decide) (by simp [hp]))⟩
    by_cases hi : i = bucket x
    · subst hi
      simp only [Function.update_self]
      exact (hq.first hn).congr place_new_in
    · simp only [Function.update_of_ne hi]
      exact (h.events i).congr (place_elsewhere hi (by simp [hp]))
  | some y =>
    obtain ⟨l, hl⟩ : ∃ l, s.refEventTail (bucket x) = some l :=
      Queue.tail_isSome (hh ▸ hq)
    rw [hl] at hq
    obtain ⟨hlw, hlb⟩ := hq.tail_mem
    have he : s.pushEvent x = { s with
        next := Function.update s.next l (some x)
        refEventTail := Function.update s.refEventTail (bucket x) (some x) } := by
      simp [GcSys.pushEvent, hh, hl]
    rw [he]
    refine ⟨fun i => ((h.deletes i).update (by simp [hlw]) _).congr
        (place_keep_in (by decide) (by simp [hp]) i),
      fun i => ?_,
      (h.target.update (by simp [hlw]) _).congr (place_keep (by decide) (by simp [hp])),
      (h.calls.update (by simp [hlw]) _).congr (place_keep (by decide) (by simp [hp]))⟩
    by_cases hi : i = bucket x
    · subst hi
      simp only [Function.update_self]
      exact (hq.append (by simp [hp]) hn).congr place_new_in
    · simp only [Function.update_of_ne hi]
      refine ((h.events i).update ?_ _).congr (place_elsewhere hi (by simp [hp]))
      exact fun hb => hi (hb.2.symm.trans hlb)

/-- A reference that is about to be dropped still counts. -/
theorem Books.owed (h : Books s place (some x)) (hx : s.ref x ≠ -1) : 0 < s.ref x := by
  have := h.ref x hx
  simp only [↓reduceIte] at this
  omega

/-- The count has come down to the one that is watched. -/
theorem Books.watched (h : Books s place (some x)) (h0 : 0 < s.ref x)
    (hw : s.waiting x = false) (hn : s.next x = none) :
    Books (pushEvent { s with
      refEventNum := Function.update s.refEventNum x (-1)
      waiting := Function.update s.waiting x true } x)
      (Function.update place x .watched) none := by
  have hp : place x = .out := h.out hw (by omega)
  have hl : Lists { s with
      refEventNum := Function.update s.refEventNum x (-1)
      waiting := Function.update s.waiting x true } place :=
    ⟨h.lists.deletes, h.lists.events, h.lists.target, h.lists.calls⟩
  refine ⟨hl.pushEvent hp hn, fun z hz => ?_, fun z => ?_, fun z => ?_, fun z => ?_, ?_⟩
  all_goals rw [pushEvent_frame] at *
  · by_cases he : z = x
    · subst he
      have hr := h.ref z hz
      simp only [hw, Bool.false_eq_true, Function.update_self, reduceCtorEq, ↓reduceIte] at hr ⊢
      omega
    · simpa [Function.update_of_ne he, Ne.symm he] using h.ref z hz
  · exact (h.zero z).trans (or_congr (place_keep (by decide) (by simp [hp]) z)
      (place_keep (by decide) (by simp [hp]) z))
  · by_cases he : z = x
    · simp [he]
    · simpa [Function.update_of_ne he] using h.waits z
  · by_cases he : z = x
    · subst he
      exact fun _ => by change s.ref z ≠ -1; omega
    · simpa [Function.update_of_ne he] using h.alive z
  · exact h.calm

/-- The count goes down and is not zero yet. -/
theorem Books.counted (h : Books s place (some x)) (h1 : 1 < s.ref x) :
    Books { s with ref := Function.update s.ref x (s.ref x - 1) } place none := by
  refine ⟨⟨h.lists.deletes, h.lists.events, h.lists.target, h.lists.calls⟩, fun z hz => ?_,
    fun z => ?_, h.waits, fun z hz => ?_, h.calm⟩
  · by_cases he : z = x
    · subst he
      have := h.ref z (by omega)
      simp only [Function.update_self, reduceCtorEq, ↓reduceIte] at this ⊢
      omega
    · simpa [Function.update_of_ne he, Ne.symm he] using h.ref z (by simpa [he] using hz)
  · by_cases he : z = x
    · subst he
      rw [← h.zero z]
      simp only [Function.update_self]
      omega
    · simpa [Function.update_of_ne he] using h.zero z
  · by_cases he : z = x
    · subst he
      simp only [Function.update_self]
      omega
    · simpa [Function.update_of_ne he] using h.alive z hz

/-- The last reference is dropped. -/
theorem Books.last (h : Books s place (some x)) (h1 : s.ref x = 1) :
    Books (pushDelete { s with ref := Function.update s.ref x 0 } x)
      (Function.update place x .queued) none := by
  -- one is the reference that is dropped, so there is no other
  have hr := h.ref x (by omega)
  have hw : s.waiting x = false := by
    cases hw : s.waiting x with
    | false => rfl
    | true =>
      simp only [hw, ↓reduceIte] at hr
      omega
  have hp : place x = .out := h.out hw (by omega)
  have hl : Lists { s with ref := Function.update s.ref x 0 } place :=
    ⟨h.lists.deletes, h.lists.events, h.lists.target, h.lists.calls⟩
  refine ⟨hl.pushDelete hp, fun z hz => ?_, fun z => ?_, fun z => ?_, fun z hz => ?_, h.calm⟩
  · change Function.update s.ref x 0 z ≠ -1 at hz
    change Function.update s.ref x 0 z = s.held z + (if s.waiting z then 1 else 0) +
      (if s.collector.running = some z then 1 else 0) + if none = some z then 1 else 0
    by_cases he : z = x
    · subst he
      simp only [hw, Bool.false_eq_true, Function.update_self, reduceCtorEq, ↓reduceIte] at hr ⊢
      omega
    · simpa [Function.update_of_ne he, Ne.symm he] using h.ref z (by simpa [he] using hz)
  · by_cases he : z = x
    · simp [he, pushDelete]
    · simpa [pushDelete, Function.update_of_ne he] using h.zero z
  · exact (h.waits z).trans (or_congr (place_keep (by decide) (by simp [hp]) z)
      (place_keep (by decide) (by simp [hp]) z))
  · by_cases he : z = x
    · simp [he, pushDelete]
    · simpa [pushDelete, Function.update_of_ne he] using h.alive z hz

theorem Books.relref (h : Books s place (some x)) (hf : s.Fresh x) (hd : Dropped s x t o os) :
    ∃ place', Books t place' none := by
  cases hd with
  | gone hg =>
    refine ⟨place, h.lists, fun z hz => ?_, h.zero, h.waits, h.alive, h.calm⟩
    have he : x ≠ z := fun he => hz (he ▸ hg)
    simpa [he] using h.ref z hz
  | panic hg h0 => exact absurd (h.owed hg) (by omega)
  | watched h0 hn hu =>
    obtain ⟨hw, hx⟩ := hf h0 hn
    exact ⟨_, hu.books (h.watched h0 hw hx)⟩
  | counted h1 _ => exact ⟨_, h.counted h1⟩
  | last h1 _ hu => exact ⟨_, hu.books (h.last h1)⟩

-- ---------------------------------------------------------------------------
-- The collector
-- ---------------------------------------------------------------------------

/-- Where the objects are once the collector has taken the lists of a bucket. -/
def takenFrom (place : Address → Place) (id : Nat) (x : Address) : Place :=
  if bucket x = id then (place x).taken else place x

theorem takenFrom_queued {i : Nat} (z : Address) :
    takenFrom place id z = .queued ∧ bucket z = i ↔
      i ≠ id ∧ place z = .queued ∧ bucket z = i := by
  unfold takenFrom
  split <;> cases place z <;> simp [Place.taken] <;> grind

theorem takenFrom_watched {i : Nat} (z : Address) :
    takenFrom place id z = .watched ∧ bucket z = i ↔
      i ≠ id ∧ place z = .watched ∧ bucket z = i := by
  unfold takenFrom
  split <;> cases place z <;> simp [Place.taken] <;> grind

theorem takenFrom_doomed (z : Address) (hn : place z ≠ .doomed) :
    place z = .queued ∧ bucket z = id ↔ takenFrom place id z = .doomed := by
  unfold takenFrom
  split <;> cases hp : place z <;> simp_all [Place.taken]

theorem takenFrom_called (z : Address) (hn : place z ≠ .called) :
    place z = .watched ∧ bucket z = id ↔ takenFrom place id z = .called := by
  unfold takenFrom
  split <;> cases hp : place z <;> simp_all [Place.taken]

/-- The collector takes a list of the same kind. -/
theorem takenFrom_zero (z : Address) : place z = .queued ∨ place z = .doomed ↔
    takenFrom place id z = .queued ∨ takenFrom place id z = .doomed := by
  unfold takenFrom
  split <;> cases place z <;> simp [Place.taken]

theorem takenFrom_waits (z : Address) : place z = .watched ∨ place z = .called ↔
    takenFrom place id z = .watched ∨ takenFrom place id z = .called := by
  unfold takenFrom
  split <;> cases place z <;> simp [Place.taken]

theorem Books.take {rest : List Nat} (h : Books s place none)
    (hc : s.collector = .calling (id :: rest)) :
    Books (s.take id rest) (takenFrom place id) none := by
  have ht := h.lists.target
  have he := h.lists.calls
  rw [hc] at ht he
  have hd := holds_none.mp ht
  have hv := holds_none.mp he
  refine ⟨⟨fun i => ?_, fun i => ?_, ?_, ?_⟩, fun z hz => ?_, fun z => ?_, fun z => ?_,
    fun z hz => ?_, h.calm⟩
  · by_cases hi : i = id
    · subst hi
      simp only [GcSys.take, Function.update_self]
      exact holds_none.mpr fun z hz => ((takenFrom_queued z).mp hz).1 rfl
    · simp only [GcSys.take, Function.update_of_ne hi]
      refine (h.lists.deletes i).congr fun z => ?_
      rw [takenFrom_queued]
      exact (and_iff_right hi).symm
  · by_cases hi : i = id
    · subst hi
      simp only [GcSys.take, Function.update_self]
      exact queue_none fun z hz => ((takenFrom_watched z).mp hz).1 rfl
    · simp only [GcSys.take, Function.update_of_ne hi]
      refine (h.lists.events i).congr fun z => ?_
      rw [takenFrom_watched]
      exact (and_iff_right hi).symm
  · exact (h.lists.deletes id).congr fun z => takenFrom_doomed z (hd z)
  · exact (h.lists.events id).holds.congr fun z => takenFrom_called z (hv z)
  · have hr := h.ref z hz
    rw [hc] at hr
    exact hr
  · exact (h.zero z).trans (takenFrom_zero z)
  · exact (h.waits z).trans (takenFrom_waits z)
  · refine h.alive z (hz.imp_right fun hr => ?_)
    cases hr

/-- The next object on the delete list is destroyed. -/
theorem Books.delete {w : Sweep} (h : Books s place none) (hc : s.collector = .sweeping w)
    (hx : w.target = some x) (h0 : s.ref x = 0) :
    Books { s with
      ref := Function.update s.ref x (-1)
      collector := .sweeping { w with target := s.next x } }
      (Function.update place x .out) none := by
  have ht := h.lists.target
  rw [hc] at ht
  rw [show (Collector.sweeping w).target = some x from hx] at ht
  have hp : place x = .doomed := ht.head
  refine ⟨⟨fun i => ?_, fun i => ?_, ht.rest.congr fun z => ?_, ?_⟩, fun z hz => ?_, fun z => ?_,
    fun z => ?_, fun z hz => ?_, h.calm⟩
  · exact (h.lists.deletes i).congr (place_keep_in (by decide) (by simp [hp]) i)
  · exact (h.lists.events i).congr (place_keep_in (by decide) (by simp [hp]) i)
  · by_cases he : z = x
    · simp [he]
    · simp [he]
  · refine Holds.congr ?_ (place_keep (by decide) (by simp [hp]))
    have hv := h.lists.calls
    rw [hc] at hv
    exact hv
  · have he : z ≠ x := by
      rintro rfl
      simp at hz
    have hr := h.ref z (by simpa [he] using hz)
    simpa [he, hc, Collector.running] using hr
  · by_cases he : z = x
    · simp [he]
    · simpa [he] using h.zero z
  · exact (h.waits z).trans (or_congr (place_keep (by decide) (by simp [hp]) z)
      (place_keep (by decide) (by simp [hp]) z))
  · have hw : s.waiting z = true := hz.resolve_right nofun
    have he : z ≠ x := by
      rintro rfl
      simpa [hp] using (h.waits z).mp hw
    simpa [he] using h.alive z (.inl hw)

/-- The next object on the `refEvent` list is called. -/
theorem Books.refEvent {w : Sweep} (h : Books s place none) (hc : s.collector = .sweeping w)
    (hx : w.ev = some x) :
    Books { s with
      waiting := Function.update s.waiting x false
      collector := .callback x { w with ev := s.next x } }
      (Function.update place x .out) none := by
  have hv := h.lists.calls
  rw [hc] at hv
  rw [show (Collector.sweeping w).calls = some x from hx] at hv
  have hp : place x = .called := hv.head
  have hw : s.waiting x = true := (h.waits x).mpr (.inr hp)
  refine ⟨⟨fun i => ?_, fun i => ?_, ?_, hv.rest.congr fun z => ?_⟩, fun z hz => ?_, fun z => ?_,
    fun z => ?_, fun z hz => ?_, h.calm⟩
  · exact (h.lists.deletes i).congr (place_keep_in (by decide) (by simp [hp]) i)
  · exact (h.lists.events i).congr (place_keep_in (by decide) (by simp [hp]) i)
  · refine Holds.congr ?_ (place_keep (by decide) (by simp [hp]))
    have ht := h.lists.target
    rw [hc] at ht
    exact ht
  · by_cases he : z = x
    · simp [he]
    · simp [he]
  · have hr := h.ref z hz
    by_cases he : z = x
    · subst he
      simpa [hw, hc, Collector.running] using hr
    · simpa [he, Ne.symm he, hc, Collector.running] using hr
  · exact (h.zero z).trans (or_congr (place_keep (by decide) (by simp [hp]) z)
      (place_keep (by decide) (by simp [hp]) z))
  · by_cases he : z = x
    · simp [he]
    · simpa [he] using h.waits z
  · by_cases he : z = x
    · subst he
      exact h.alive z (.inl hw)
    · refine h.alive z (.inl ?_)
      simpa [he, Ne.symm he, Collector.running] using hz

/-- What is left over of a callback is the reference it is to drop. -/
theorem Books.callback {w : Sweep} (h : Books s place none) (hc : s.collector = .callback x w) :
    Books { s with collector := .sweeping w } place (some x) := by
  refine ⟨⟨h.lists.deletes, h.lists.events, ?_, ?_⟩, fun z hz => ?_, h.zero, h.waits,
    fun z hz => ?_, h.calm⟩
  · have ht := h.lists.target
    rw [hc] at ht
    exact ht
  · have hv := h.lists.calls
    rw [hc] at hv
    exact hv
  · simpa [hc, Collector.running] using h.ref z hz
  · exact h.alive z (.inl (hz.resolve_right nofun))

theorem Books.resume {w : Sweep} (h : Books s place none) (hs : s.collector = .sweeping w) :
    Books { s with collector := w.resume o } place none := by
  cases o <;> exact h.collector (by rw [hs]; rfl) (by rw [hs]; rfl) (by rw [hs]; rfl)

theorem Books.collected (h : Books s place none) (hf : ∀ x ∈ s.collector.running, s.Fresh x)
    (hs : Collected s t os) : ∃ place', Books t place' none := by
  cases hs with
  | head hc =>
    refine ⟨place, ?_⟩
    unfold testRoot
    split
    · split <;> exact h.collector (by rw [hc]; rfl) (by rw [hc]; rfl) (by rw [hc]; rfl)
    · exact h.collector (by rw [hc]; rfl) (by rw [hc]; rfl) (by rw [hc]; rfl)
  | round hc => exact ⟨_, h.collector (by rw [hc]; rfl) (by rw [hc]; rfl) (by rw [hc]; rfl)⟩
  | take hc => exact ⟨_, h.take hc⟩
  | @bad w x hc hx h0 =>
    have ht := h.lists.target
    rw [hc] at ht
    rw [show (Collector.sweeping w).target = some x from hx] at ht
    exact absurd ((h.zero x).mpr (.inr ht.head)) h0
  | delete hc hx h0 => exact ⟨_, h.delete hc hx h0⟩
  | refEvent hc _ hx => exact ⟨_, h.refEvent hc hx⟩
  | children hc ht he =>
    refine ⟨_, h.collector ?_ ?_ ?_⟩
    · rw [hc]
      exact ht.symm
    · rw [hc]
      exact he.symm
    · rw [hc]
      rfl
  | @relref x w s' o _ hc hd =>
    obtain ⟨place', hb⟩ := (h.callback hc).relref (hf x (by rw [hc]; rfl)) hd
    exact ⟨place', hb.resume (hd.collector nofun)⟩
  | @raise id w s' o hc hr =>
    have hb := hr.books (h.collector (c := .sweeping w) (by rw [hc]; rfl) (by rw [hc]; rfl)
      (by rw [hc]; rfl))
    exact ⟨place, hb.resume (hr.collector nofun)⟩

-- ---------------------------------------------------------------------------
-- Steps and runs
-- ---------------------------------------------------------------------------

theorem Books.addref (h : Books s place none) (hx : s.ref x ≠ -1) (h0 : s.ref x ≠ 0) :
    Books { s with
      ref := Function.update s.ref x (s.ref x + 1)
      held := Function.update s.held x (s.held x + 1) } place none := by
  have hr := h.ref x hx
  refine ⟨⟨h.lists.deletes, h.lists.events, h.lists.target, h.lists.calls⟩, fun z hz => ?_,
    fun z => ?_, h.waits, fun z hz => ?_, h.calm⟩
  · by_cases he : z = x
    · subst he
      simp only [Function.update_self] at hr ⊢
      omega
    · simpa [he] using h.ref z (by simpa [he] using hz)
  · by_cases he : z = x
    · subst he
      rw [← h.zero z]
      simp only [Function.update_self]
      omega
    · simpa [he] using h.zero z
  · by_cases he : z = x
    · subst he
      simp only [Function.update_self]
      omega
    · simpa [he] using h.alive z hz

/-- A caller is about to drop a reference of its own. -/
theorem Books.owe (h : Books s place none) (hx : s.ref x = -1 ∨ 0 < s.held x) :
    Books { s with held := Function.update s.held x (s.held x - 1) } place (some x) := by
  refine ⟨⟨h.lists.deletes, h.lists.events, h.lists.target, h.lists.calls⟩, fun z hz => ?_,
    h.zero, h.waits, h.alive, h.calm⟩
  have hr := h.ref z hz
  by_cases he : z = x
  · subst he
    have h0 := hx.resolve_left hz
    simp only [Function.update_self, reduceCtorEq, ↓reduceIte] at hr ⊢
    omega
  · simpa [he, Ne.symm he] using hr

theorem Books.moved (h : Books s place none) (hc : s.Careful a) (hs : Moved s a t os) :
    ∃ place', Books t place' none := by
  cases hs with
  | addref_gone _ => exact ⟨place, h⟩
  | addref hx => exact ⟨place, h.addref hx hc.1⟩
  | @relref x _ _ _ hd =>
    obtain ⟨place', hb⟩ := (h.owe hc.1).relref (hc.2 x rfl) hd
    exact ⟨place', hb.frame⟩
  | nRefEvent => exact ⟨place, h.frame⟩
  | raise _ hr => exact ⟨place, (hr.books h.frame).frame⟩
  | gc hg => exact h.collected hc.2 hg
  | wake ha => exact ⟨place, h.collector (by rw [ha]; rfl) (by rw [ha]; rfl) (by rw [ha]; rfl)⟩
  | finish =>
    have h' : Books { s with finishFlag := true } place none := h.frame
    refine ⟨place, ?_⟩
    unfold broadcast
    split
    · rename_i ha
      exact h'.collector (by rw [ha]; rfl) (by rw [ha]; rfl) (by rw [ha]; rfl)
    · exact h'

theorem Books.initial : Books .initial (fun _ => .out) none := by
  refine ⟨⟨fun i => ?_, fun i => ?_, ?_, ?_⟩, fun x _ => rfl, fun x => ?_, fun x => ?_,
    fun x _ => ?_, rfl⟩
  · exact holds_none.mpr nofun
  · exact queue_none nofun
  · exact holds_none.mpr nofun
  · exact holds_none.mpr nofun
  · simp [GcSys.initial]
  · simp [GcSys.initial]
  · simp [GcSys.initial]

theorem Books.run (h : Gc.RunIf Careful tr s) : ∃ place, Books s place none := by
  refine h.stateInvariant (I := fun s => ∃ place, Books s place none) ?_ ?_
  · rintro s rfl
    exact ⟨_, Books.initial⟩
  · rintro s a t os ⟨place, hb⟩ hc hs
    exact hb.moved hc (step_moved hs)

-- ---------------------------------------------------------------------------
-- What has been seen
-- ---------------------------------------------------------------------------

/-- The history of the objects, as their counts tell it. -/
structure Recorded (tr : List GcObs) (s : GcSys) : Prop where
  queued : ∀ x, tr.count (.queued x) = if s.ref x ≤ 0 then 1 else 0
  deleted : ∀ x, tr.count (.deleted x) = if s.ref x = -1 then 1 else 0
  reached : ∀ x, tr.count (.reached x) = tr.count (.refEvent x) + if s.waiting x then 1 else 0
  order : ∀ before after x, tr = before ++ .deleted x :: after → .queued x ∈ before

theorem Recorded.congr (h : Recorded tr s) (hr : t.ref = s.ref) (hw : t.waiting = s.waiting) :
    Recorded tr t :=
  ⟨fun x => hr ▸ h.queued x, fun x => hr ▸ h.deleted x, fun x => hw ▸ h.reached x, h.order⟩

theorem Up.counts (hu : Up s id t o) : t.ref = s.ref ∧ t.waiting = s.waiting := by
  cases hu <;> exact ⟨rfl, rfl⟩

theorem Raised.counts (hr : Raised s id t o) : t.ref = s.ref ∧ t.waiting = s.waiting := by
  cases hr with
  | stop _ => exact ⟨rfl, rfl⟩
  | set _ hu => exact hu.counts

theorem order_append (h : ∀ before after x, tr = before ++ GcObs.deleted x :: after →
      GcObs.queued x ∈ before) (ho : ∀ x, .deleted x ∈ os → .queued x ∈ tr) :
    ∀ before after x, tr ++ os = before ++ GcObs.deleted x :: after → .queued x ∈ before := by
  intro before after x he
  rcases Machine.append_eq_cons he with ⟨mid, htr, -⟩ | ⟨mid, hos, rfl⟩
  · exact h before mid x htr
  · exact List.mem_append_left _ (ho x (by rw [hos]; simp))

theorem Recorded.silent (h : Recorded tr s) (hr : t.ref = s.ref) (hw : t.waiting = s.waiting) :
    Recorded (tr ++ []) t := by
  rw [List.append_nil]
  exact h.congr hr hw

theorem Recorded.watched (h : Recorded tr s) (hw : s.waiting x = false) (hr : t.ref = s.ref)
    (ht : t.waiting = Function.update s.waiting x true) : Recorded (tr ++ [GcObs.reached x]) t := by
  refine ⟨fun z => ?_, fun z => ?_, fun z => ?_, order_append h.order (by simp)⟩
  · simpa [hr] using h.queued z
  · simpa [hr] using h.deleted z
  · have hz := h.reached z
    by_cases he : z = x
    · subst he
      simpa [ht, hw] using hz
    · simpa [ht, he, Ne.symm he] using hz

/-- A count that stays above zero. -/
theorem Recorded.counted {n : Int} (h : Recorded tr s) (h0 : 0 < s.ref x) (hn : 0 < n)
    (hr : t.ref = Function.update s.ref x n) (hw : t.waiting = s.waiting) :
    Recorded (tr ++ []) t := by
  rw [List.append_nil]
  refine ⟨fun z => ?_, fun z => ?_, fun z => hw ▸ h.reached z, h.order⟩
  · have hz := h.queued z
    by_cases he : z = x
    · subst he
      simpa [hr, Int.not_le.mpr h0, Int.not_le.mpr hn] using hz
    · simpa [hr, he] using hz
  · have hz := h.deleted z
    by_cases he : z = x
    · subst he
      have h1 : s.ref z ≠ -1 := by omega
      have h2 : n ≠ -1 := by omega
      simpa [hr, h1, h2] using hz
    · simpa [hr, he] using hz

theorem Recorded.last (h : Recorded tr s) (h1 : s.ref x = 1)
    (hr : t.ref = Function.update s.ref x 0) (hw : t.waiting = s.waiting) :
    Recorded (tr ++ [GcObs.queued x]) t := by
  refine ⟨fun z => ?_, fun z => ?_, fun z => ?_, order_append h.order (by simp)⟩
  · have hz := h.queued z
    by_cases he : z = x
    · subst he
      simpa [hr, h1] using hz
    · simpa [hr, he, Ne.symm he] using hz
  · have hz := h.deleted z
    by_cases he : z = x
    · subst he
      simpa [hr, h1] using hz
    · simpa [hr, he] using hz
  · simpa [hw] using h.reached z

theorem Recorded.relref (h : Recorded tr s) (hb : Books s place (some x)) (hf : s.Fresh x)
    (hd : Dropped s x t o os) : Recorded (tr ++ os) t := by
  cases hd with
  | gone _ => exact h.silent rfl rfl
  | panic hg h0 => exact absurd (hb.owed hg) (by omega)
  | watched h0 hn hu =>
    have hc := hu.counts
    rw [pushEvent_frame] at hc
    exact h.watched (hf h0 hn).1 hc.1 hc.2
  | counted h1 _ => exact h.counted (by omega) (by omega) rfl rfl
  | last h1 _ hu => exact h.last h1 hu.counts.1 hu.counts.2

theorem Recorded.delete (h : Recorded tr s) (h0 : s.ref x = 0)
    (hr : t.ref = Function.update s.ref x (-1)) (hw : t.waiting = s.waiting) :
    Recorded (tr ++ [GcObs.deleted x]) t := by
  have hq : 0 < tr.count (.queued x) := by simp [h.queued x, h0]
  refine ⟨fun z => ?_, fun z => ?_, fun z => ?_, order_append h.order ?_⟩
  · have hz := h.queued z
    by_cases he : z = x
    · subst he
      simpa [hr, h0] using hz
    · simpa [hr, he] using hz
  · have hz := h.deleted z
    by_cases he : z = x
    · subst he
      simpa [hr, h0] using hz
    · simpa [hr, he, Ne.symm he] using hz
  · simpa [hw] using h.reached z
  · rintro z hz
    obtain rfl : z = x := by simpa using hz
    exact List.count_pos_iff.mp hq

theorem Recorded.refEvent (h : Recorded tr s) (h1 : s.waiting x = true) (hr : t.ref = s.ref)
    (hw : t.waiting = Function.update s.waiting x false) :
    Recorded (tr ++ [GcObs.refEvent x]) t := by
  refine ⟨fun z => ?_, fun z => ?_, fun z => ?_, order_append h.order (by simp)⟩
  · simpa [hr] using h.queued z
  · simpa [hr] using h.deleted z
  · have hz := h.reached z
    by_cases he : z = x
    · subst he
      simpa [hw, h1] using hz
    · simpa [hw, he, Ne.symm he] using hz

theorem Recorded.collected (h : Recorded tr s) (hb : Books s place none)
    (hf : ∀ x ∈ s.collector.running, s.Fresh x) (hs : Collected s t os) :
    Recorded (tr ++ os) t := by
  cases hs with
  | head _ =>
    refine h.silent ?_ ?_ <;> unfold testRoot <;> split <;> rfl
  | round _ => exact h.silent rfl rfl
  | take _ => exact h.silent rfl rfl
  | bad _ _ _ => exact h.silent rfl rfl
  | delete _ _ h0 => exact h.delete h0 rfl rfl
  | @refEvent w x hc _ hx =>
    have hv := hb.lists.calls
    rw [hc] at hv
    rw [show (Collector.sweeping w).calls = some x from hx] at hv
    exact h.refEvent ((hb.waits x).mpr (.inr hv.head)) rfl rfl
  | children _ _ _ => exact h.silent rfl rfl
  | @relref x w _ _ _ hc hd =>
    have h' : Recorded tr { s with collector := .sweeping w } := h.congr rfl rfl
    exact (h'.relref (hb.callback hc) (hf x (by rw [hc]; rfl)) hd).congr rfl rfl
  | raise _ hr => exact h.silent hr.counts.1 hr.counts.2

theorem Recorded.moved (h : Recorded tr s) (hb : Books s place none) (hc : s.Careful a)
    (hs : Moved s a t os) : Recorded (tr ++ os) t := by
  cases hs with
  | addref_gone _ => exact h.silent rfl rfl
  | @addref x hx =>
    have h0 : s.ref x ≠ 0 := hc.1
    have h1 : 0 < s.ref x := by
      have := hb.ref x hx
      omega
    exact h.counted h1 (by omega) rfl rfl
  | @relref x s' o os hd =>
    have h' : Recorded tr { s with held := Function.update s.held x (s.held x - 1) } :=
      h.congr rfl rfl
    exact (h'.relref (hb.owe hc.1) (hc.2 x rfl) hd).congr rfl rfl
  | nRefEvent => exact h.silent rfl rfl
  | raise _ hr => exact h.silent hr.counts.1 hr.counts.2
  | gc hg => exact h.collected hb hc.2 hg
  | wake _ => exact h.silent rfl rfl
  | finish =>
    refine h.silent ?_ ?_ <;> unfold broadcast <;> split <;> rfl

theorem Recorded.initial : Recorded [] .initial :=
  ⟨fun _ => rfl, fun _ => rfl, fun _ => rfl, fun _ _ _ he => by simp at he⟩

theorem Recorded.run (h : Gc.RunIf Careful tr s) : Recorded tr s := by
  refine h.invariant (I := Recorded) ?_ ?_
  · rintro s rfl
    exact Recorded.initial
  · intro tr s a t os hr hi hc hs
    obtain ⟨place, hb⟩ := Books.run hr
    exact hi.moved hb hc (step_moved hs)

/-- Where the collector sleeps and the buckets are empty, an object is on no list. -/
theorem Lists.at_rest (h : s.Lists place) (hc : s.collector = .asleep)
    (hidle : ∀ i, s.refList i = none ∧ s.refEventHead i = none ∧ s.refFlags i = .none)
    (x : Address) : place x = .out := by
  cases hp : place x with
  | out => rfl
  | queued =>
    have hd := h.deletes (bucket x)
    rw [(hidle _).1] at hd
    exact absurd ⟨hp, rfl⟩ (holds_none.mp hd x)
  | watched =>
    have hq := (h.events (bucket x)).holds
    rw [(hidle _).2.1] at hq
    exact absurd ⟨hp, rfl⟩ (holds_none.mp hq x)
  | doomed =>
    have ht := h.target
    rw [hc] at ht
    exact absurd hp (holds_none.mp ht x)
  | called =>
    have hv := h.calls
    rw [hc] at hv
    exact absurd hp (holds_none.mp hv x)

/-- What a run of the callers and the collector is to keep to. At rest, where the
collector sleeps and no `relref` is on its way up, nothing is left to be done. -/
structure Accounting (tr : List GcObs) (s : GcSys) : Prop where
  calm : s.panicked = false
  once : ∀ x, tr.count (.deleted x) ≤ tr.count (.queued x) ∧ tr.count (.queued x) ≤ 1
  zero : ∀ x, tr.count (.queued x) = 1 ↔ s.ref x ≤ 0
  order : ∀ before after x, tr = before ++ .deleted x :: after → .queued x ∈ before
  reached : ∀ x, tr.count (.reached x) = tr.count (.refEvent x) + if s.waiting x then 1 else 0
  links : ∃ place, s.Lists place
  rest : s.collector = .asleep → s.raising = [] → ∀ x,
    s.ref x ≠ 0 ∧ tr.count (.deleted x) = tr.count (.queued x) ∧
      tr.count (.reached x) = tr.count (.refEvent x)

end GcSys

open GcSys

/-- The accounts are right in every run in which every relref is made by one who
has a reference and puts no object on a `refEvent` list that is not fresh. -/
theorem gc_accounting (h : Gc.RunIf Careful tr s) : Accounting tr s := by
  obtain ⟨place, hb⟩ := Books.run h
  have hr := Recorded.run h
  refine ⟨hb.calm, fun x => ?_, fun x => ?_, hr.order, hr.reached, ⟨place, hb.lists⟩, ?_⟩
  · rw [hr.queued, hr.deleted]
    constructor
    · split <;> split <;> omega
    · split <;> omega
  · rw [hr.queued]
    split <;> simp_all
  · intro hc hrai x
    -- every list is empty, so the object is on none
    have hp := hb.lists.at_rest hc ((Climbing.run h).idle hc hrai) x
    have h0 : s.ref x ≠ 0 := by simp [hb.zero x, hp]
    have hw : ¬s.waiting x = true := by simp [hb.waits x, hp]
    refine ⟨h0, ?_, ?_⟩
    · rw [hr.queued, hr.deleted]
      have hn : s.ref x = -1 ∨ 0 < s.ref x := by
        by_cases h1 : s.ref x = -1
        · exact .inl h1
        · have := hb.ref x h1
          omega
      rcases hn with hn | hn
      · simp [hn]
      · rw [if_neg (by omega), if_neg (by omega)]
    · simpa [hw] using hr.reached x

/-- An object of the root bucket is armed and dropped, called, and destroyed. -/
def callAndDelete : List GcAct :=
  List.append [.gc, .nRefEvent 101 0, .relref 101] (List.replicate 12 .gc)

theorem called_and_deleted : ∃ tr s, .refEvent 101 ∈ tr ∧ .deleted 101 ∈ tr ∧
    s.collector = .asleep ∧ s.raising = [] ∧ Accounting tr s := by
  obtain ⟨tr, s, h, hr, hd, hc, hn⟩ := Machine.exists_run (M := Gc) (C := Careful)
    (P := fun tr s => .refEvent 101 ∈ tr ∧ .deleted 101 ∈ tr ∧ s.collector = .asleep ∧
      s.raising = []) callAndDelete rfl (by decide)
  exact ⟨tr, s, hr, hd, hc, hn, gc_accounting h⟩

/-- Two objects of one bucket are called; the first is armed again in its
callback, and its link still leads to the second. -/
def armAgain : List GcAct :=
  List.append [.nRefEvent 101 0, .nRefEvent 202 0, .relref 101, .relref 202, .gc, .gc, .gc,
    .nRefEvent 101 0] (List.replicate 12 .gc)

theorem called_twice : ∃ tr s, Gc.RunIf Holding tr s ∧ tr.count (.reached 202) = 1 ∧
    tr.count (.refEvent 202) = 2 ∧
    [.deleted 202, .refEvent 101, .queued 101, .refEvent 202] <:+ tr := by
  refine Machine.exists_run armAgain rfl ?_
  decide

end TinyState
