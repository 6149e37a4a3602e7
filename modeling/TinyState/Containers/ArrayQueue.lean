import TinyState.Lib.Machine
import TinyState.Lib.RingIndex
import Mathlib.Data.Finset.Card

/-!
# stdArrayQueue

A ring buffer whose elements are in use while handles are attached to them. A removal that finds
its element in use waits and gives up the lock. When it goes on, it looks at the slot again, but
not at whether the queue is empty by now; `pop` sets the head to where it was to go before it
waited.
-/

namespace TinyState.StdArrayQueue

open Transition RingIndex

-- ---------------------------------------------------------------------------
-- Model
-- ---------------------------------------------------------------------------

/-- `head`, `tail` and `pos` run freely. -/
abbrev Pos := BitVec 32

def AQ_EMPTY : Int := -1

def AQ_INS : Int := -2

/-- Where an operation of a handle waits. -/
inductive Doing (ν : Type)
  | idle
  | ins (v : ν)
  | del
  | pop (ret : Pos)
  | attach

/-- `sAQindex`; `ptr` is whether it is not null. -/
structure SAQindex (ν : Type) where
  pos : Pos
  ptr : Bool
  doing : Doing ν

/-- The queue and its handles. An element is known by what its inserter puts into its slot. -/
structure Queue (κ ν : Type) where
  head : Pos
  tail : Pos
  ix : Nat → Int
  a : Nat → ν
  handles : κ → SAQindex ν

inductive Obs (ν : Type)
  | ins (v : ν)
  | del (v : ν)
  | pop (v : ν)

inductive Target (κ : Type)
  | tail
  | head
  /-- So many positions behind a handle: copies, assignments and arithmetic. -/
  | near (g : κ) (n : Pos)

/-- The calls on a handle, and a call that goes on behind `pthread_cond_wait`. -/
inductive Act (κ ν : Type)
  | attach (h : κ) (target : Target κ)
  | detach (h : κ)
  | ins (h : κ) (v : ν)
  | del (h : κ)
  | pop (h : κ)
  | wake (h : κ)

def regular_length (len : Int) : Nat :=
  2 ^ ((List.range 31).find? fun i => decide (len ≤ 2 ^ i)).getD 31

/-- The index of an `int`; a negative one ends the program. -/
def index (L : Nat) (ret : Pos) : Option Nat :=
  if ret.toInt.tmod L < 0 then none else some (ret.toInt.tmod L).toNat

variable {κ ν : Type} [DecidableEq κ]

namespace Queue

variable (L : Nat)

def i_count (q : Queue κ ν) : Int := (q.head - q.tail).toInt

/-- Neither `AQE_ERROR` of `attach` and `detach`. -/
def inRange (q : Queue κ ν) (p : Pos) : Bool :=
  if q.head < q.tail then !(decide (q.head ≤ p) && decide (p < q.tail))
  else !(decide (q.head ≤ p) || decide (p < q.tail))

def setIx (q : Queue κ ν) (p : Pos) (x : Int) : Queue κ ν :=
  { q with ix := Function.update q.ix (slot L p) x }

def setHandle (q : Queue κ ν) (h : κ) (x : SAQindex ν) : Queue κ ν :=
  { q with handles := Function.update q.handles h x }

def setPos (q : Queue κ ν) (h : κ) (pos : Pos) : Queue κ ν :=
  q.setHandle h { q.handles h with pos }

def setDoing (q : Queue κ ν) (h : κ) (doing : Doing ν) : Queue κ ν :=
  q.setHandle h { q.handles h with doing }

def setPtr (q : Queue κ ν) (h : κ) (ptr : Bool) : Queue κ ν :=
  q.setHandle h { q.handles h with ptr }

/-- `stdArrayQueue::detach`. -/
def detachSlot (q : Queue κ ν) (p : Pos) : Queue κ ν :=
  if q.inRange p = false then q
  else if q.ix (slot L p) = 0 then q
  else q.setIx L p (if q.ix (slot L p) = AQ_INS then 0 else q.ix (slot L p) - 1)

/-- `sAQindex::detach`. -/
def detach (q : Queue κ ν) (h : κ) : Queue κ ν :=
  if (q.handles h).ptr then (q.detachSlot L (q.handles h).pos).setPtr h false else q

/-- A turn of the loop of `stdArrayQueue::attach`, in `sAQindex::attach`. -/
def attach (q : Queue κ ν) (h : κ) : Queue κ ν :=
  let p := (q.handles h).pos
  if q.inRange p = false then q.setHandle h ⟨p, false, .idle⟩
  else if 0 ≤ q.ix (slot L p) then
    (q.setIx L p (q.ix (slot L p) + 1)).setHandle h ⟨p, true, .idle⟩
  else q.setDoing h .attach

def attachTo (q : Queue κ ν) (h : κ) : Target κ → Queue κ ν
  | .tail => ((q.detach L h).setPos h q.tail).attach L h
  | .head => if q.i_count = 0 then q else ((q.detach L h).setPos h (q.head - 1)).attach L h
  | .near g n => ((q.detach L h).setPos h ((q.handles g).pos + n)).attach L h

/-- A turn of the loop of `stdArrayQueue::del`, and what is behind it; nothing while it waits. -/
def delTurn (q : Queue κ ν) : Option (Queue κ ν × List (Obs ν)) :=
  if q.ix (slot L q.tail) ≠ 0 then none
  else some ({ q with tail := q.tail + 1 }, [.del (q.a (slot L q.tail))])

/-- The rest of `ins`: the position is an `int`, and the handle takes a negative one for an
error. -/
def insEnd (q : Queue κ ν) (h : κ) (v : ν) : Option (Queue κ ν × List (Obs ν)) :=
  match index L q.head with
  | none => none
  | some i =>
    let t := { q with head := q.head + 1, ix := Function.update q.ix i AQ_INS }
    if q.head.toInt < 0 then some (t.setDoing h .idle, [.ins (t.a i)])
    else
      let t := t.detach L h
      let t := { t with a := Function.update t.a (slot L q.head) v }
      some (t.setHandle h ⟨q.head, true, .idle⟩, [.ins v])

/-- `ins` where the queue is full; it is not empty then. -/
def insWait (q : Queue κ ν) (h : κ) (v : ν) : Option (Queue κ ν × List (Obs ν)) :=
  match q.delTurn L with
  | none => some (q.setDoing h (.ins v), [])
  | some (t, os) => (t.insEnd L h v).map fun x => (x.1, os ++ x.2)

def ins (q : Queue κ ν) (h : κ) (v : ν) : Option (Queue κ ν × List (Obs ν)) :=
  if q.i_count = L then q.insWait L h v else q.insEnd L h v

def delWait (q : Queue κ ν) (h : κ) : Queue κ ν × List (Obs ν) :=
  match q.delTurn L with
  | none => (q.setDoing h .del, [])
  | some (t, os) => (t.setDoing h .idle, os)

def del (q : Queue κ ν) (h : κ) : Queue κ ν × List (Obs ν) :=
  let q := if (q.handles h).pos = q.tail then q.detach L h else q
  if q.i_count = 0 then (q, []) else q.delWait L h

def popWait (q : Queue κ ν) (h : κ) (ret : Pos) : Option (Queue κ ν × List (Obs ν)) :=
  match index L ret with
  | none => none
  | some i =>
    if q.ix i ≠ 0 then some (q.setDoing h (.pop ret), [])
    else some ({ q with head := ret }.setDoing h .idle, [.pop (q.a i)])

def pop (q : Queue κ ν) (h : κ) : Option (Queue κ ν × List (Obs ν)) :=
  let q := if (q.handles h).pos = q.head - 1 then q.detach L h else q
  if q.i_count = 0 then some (q, []) else q.popWait L h (q.head - 1)

/-- What goes on behind `pthread_cond_wait`, which may return at any time. -/
def wake (q : Queue κ ν) (h : κ) : Option (Queue κ ν × List (Obs ν)) :=
  match (q.handles h).doing with
  | .idle => none
  | .ins v => q.insWait L h v
  | .del => some (q.delWait L h)
  | .pop ret => q.popWait L h ret
  | .attach => some (q.attach L h, [])

def isIdle (q : Queue κ ν) (h : κ) : Bool :=
  match (q.handles h).doing with
  | .idle => true
  | _ => false

def step (q : Queue κ ν) : Act κ ν → Option (Queue κ ν × List (Obs ν))
  | .wake h => q.wake L h
  | .attach h target => if q.isIdle h then some (q.attachTo L h target, []) else none
  | .detach h => if q.isIdle h then some (q.detach L h, []) else none
  | .ins h v => if q.isIdle h then q.ins L h v else none
  | .del h => if q.isIdle h then some (q.del L h) else none
  | .pop h => if q.isIdle h then q.pop L h else none

end Queue

/-- A queue of any length that an `int` can hold, with handles that are attached to nothing. -/
def machine (κ ν : Type) [DecidableEq κ] (len : Int) : Machine (Queue κ ν) (Act κ ν) (Obs ν) where
  init q := len ≤ 2 ^ 30 ∧ ∃ a, q = ⟨0, 0, fun _ => AQ_EMPTY, a, fun _ => ⟨0, false, .idle⟩⟩
  step := Queue.step (regular_length len)

-- ---------------------------------------------------------------------------
-- What is in the queue
-- ---------------------------------------------------------------------------

/-- What is in a queue after insertions at the head and removals from either end. -/
inductive History : List (Obs ν) → List ν → Prop
  | nil : History [] []
  | ins {tr l} (v : ν) : History tr l → History (tr ++ [.ins v]) (l ++ [v])
  | del {tr l} (v : ν) : History tr (v :: l) → History (tr ++ [.del v]) l
  | pop {tr l} (v : ν) : History tr (l ++ [v]) → History (tr ++ [.pop v]) l

/-- The queue holds what has been inserted and not been removed, not more than its length and each
element in a slot of its own; and it holds the elements that handles are attached to, or that are
being inserted. -/
structure Lawful (L : Nat) (tr : List (Obs ν)) (q : Queue κ ν) : Prop where
  count : 0 ≤ q.i_count ∧ q.i_count ≤ L
  history : History tr (items L q.a q.head q.tail)
  slots : ∀ p p', Inside q.head q.tail p → Inside q.head q.tail p' → slot L p = slot L p' → p = p'
  held : ∀ h, (q.handles h).ptr = true → Inside q.head q.tail (q.handles h).pos

/-- A removal that has waited and ends finds its element where it was: there is one, and for `pop`
the head is still behind it. -/
def Doing.Unmoved (L : Nat) (q : Queue κ ν) : Doing ν → Prop
  | .ins _ => q.ix (slot L q.tail) = 0 → q.head ≠ q.tail
  | .del => q.ix (slot L q.tail) = 0 → q.head ≠ q.tail
  | .pop ret => q.ix (slot L ret) = 0 → q.head = ret + 1 ∧ q.head ≠ q.tail
  | .idle => True
  | .attach => True

/-- No step that goes on behind `pthread_cond_wait` has been overtaken. -/
def Unovertaken (L : Nat) (q : Queue κ ν) : Act κ ν → Prop
  | .wake h => (q.handles h).doing.Unmoved L q
  | _ => True

instance (L : Nat) (q : Queue κ ν) : ∀ d : Doing ν, Decidable (d.Unmoved L q)
  | .ins _ => inferInstanceAs (Decidable (_ → _))
  | .del => inferInstanceAs (Decidable (_ → _))
  | .pop _ => inferInstanceAs (Decidable (_ → _))
  | .idle => inferInstanceAs (Decidable True)
  | .attach => inferInstanceAs (Decidable True)

instance (L : Nat) (q : Queue κ ν) : ∀ x : Act κ ν, Decidable (Unovertaken L q x)
  | .wake h => inferInstanceAs (Decidable ((q.handles h).doing.Unmoved L q))
  | .attach _ _ => inferInstanceAs (Decidable True)
  | .detach _ => inferInstanceAs (Decidable True)
  | .ins _ _ => inferInstanceAs (Decidable True)
  | .del _ => inferInstanceAs (Decidable True)
  | .pop _ => inferInstanceAs (Decidable True)

-- ---------------------------------------------------------------------------
-- Handles and slots
-- ---------------------------------------------------------------------------

set_option linter.unusedSectionVars false

namespace Queue

variable {L : Nat} {q t : Queue κ ν} {h g : κ} {p : Pos} {tr os : List (Obs ν)} {v : ν}

def Holds (q : Queue κ ν) (h : κ) (p : Pos) : Prop :=
  (q.handles h).ptr = true ∧ (q.handles h).pos = p

/-- A slot counts the handles that hold its element, or says that it is being inserted, and then
there is one at most. -/
def Counted (L : Nat) (q : Queue κ ν) (p : Pos) : Prop :=
  ∃ holders : Finset κ, (∀ h, h ∈ holders ↔ q.Holds h p) ∧
    (q.ix (slot L p) = holders.card ∨ q.ix (slot L p) = AQ_INS ∧ holders.card ≤ 1)

structure Sound (L : Nat) (q : Queue κ ν) : Prop where
  fits : offset q.tail q.head ≤ L
  held : ∀ h, (q.handles h).ptr = true → Inside q.head q.tail (q.handles h).pos
  counted : ∀ p, Inside q.head q.tail p → q.Counted L p
  attaching : ∀ h, (q.handles h).doing = .attach → (q.handles h).ptr = false

theorem inRange_iff : q.inRange p = true ↔ Inside q.head q.tail p := by
  unfold inRange Inside offset
  split <;> simp <;> bv_omega

theorem Sound.inside_lt (hs : Sound L q) (hp : Inside q.head q.tail p) : offset q.tail p < L :=
  Nat.lt_of_lt_of_le hp hs.fits

theorem Sound.slot_ne (hs : Sound L q) (hL : L ∣ 2 ^ 32) {p' : Pos} (hp : Inside q.head q.tail p)
    (hp' : Inside q.head q.tail p') (h : p ≠ p') : slot L p ≠ slot L p' :=
  fun he => h (slot_inj hL (hs.inside_lt hp) (hs.inside_lt hp') he)

theorem Counted.congr (h : q.Counted L p) (hix : t.ix (slot L p) = q.ix (slot L p))
    (hh : ∀ h, t.Holds h p ↔ q.Holds h p) : t.Counted L p := by
  obtain ⟨holders, hmem, hcount⟩ := h
  exact ⟨holders, fun h => (hmem h).trans (hh h).symm, by rwa [hix]⟩

/-- Nobody holds the element of a slot that is free. -/
theorem Counted.free (hc : q.Counted L p) (h : q.ix (slot L p) = 0) (g : κ) : ¬ q.Holds g p := by
  obtain ⟨holders, hmem, hcount⟩ := hc
  have hcard : holders.card = 0 := by
    rcases hcount with hcount | ⟨hcount, -⟩
    · exact_mod_cast hcount.symm.trans h
    · rw [h] at hcount
      cases hcount
  intro hg
  have hmem := (hmem g).mpr hg
  rw [Finset.card_eq_zero.mp hcard] at hmem
  cases hmem

@[simp] theorem handles_setHandle_self (x : SAQindex ν) : (q.setHandle h x).handles h = x :=
  Function.update_self ..

theorem handles_setHandle_ne (x : SAQindex ν) (hg : g ≠ h) :
    (q.setHandle h x).handles g = q.handles g := Function.update_of_ne hg ..

/-- One handle and the slots are changed. -/
theorem Sound.update (hs : Sound L q) {x : SAQindex ν} {ix : Nat → Int}
    (hheld : x.ptr = true → Inside q.head q.tail x.pos)
    (hattach : x.doing = .attach → x.ptr = false)
    (hcounted : ∀ p, Inside q.head q.tail p → ({ q with ix }.setHandle h x).Counted L p) :
    Sound L ({ q with ix }.setHandle h x) where
  fits := hs.fits
  held g hg := by
    by_cases hgh : g = h
    · subst hgh
      rw [handles_setHandle_self] at hg ⊢
      exact hheld hg
    · rw [handles_setHandle_ne x hgh] at hg ⊢
      exact hs.held g hg
  counted := hcounted
  attaching g hg := by
    by_cases hgh : g = h
    · subst hgh
      rw [handles_setHandle_self] at hg ⊢
      exact hattach hg
    · rw [handles_setHandle_ne x hgh] at hg ⊢
      exact hs.attaching g hg

theorem holds_setHandle {x : SAQindex ν} (hold : (x.ptr = true ∧ x.pos = p) ↔ q.Holds h p) (g : κ) :
    (q.setHandle h x).Holds g p ↔ q.Holds g p := by
  unfold Holds
  by_cases hgh : g = h
  · subst hgh
    rw [handles_setHandle_self]
    exact hold
  · rw [handles_setHandle_ne x hgh]

theorem holds_release {x : SAQindex ν} (hx : x.ptr = false) (g : κ) :
    (q.setHandle h x).Holds g p ↔ g ≠ h ∧ q.Holds g p := by
  unfold Holds
  by_cases hgh : g = h
  · subst hgh
    simp [hx]
  · simp [handles_setHandle_ne x hgh, hgh]

theorem holds_take {x : SAQindex ν} (hx : x.ptr = true) (hpos : x.pos = p) (g : κ) :
    (q.setHandle h x).Holds g p ↔ g = h ∨ q.Holds g p := by
  unfold Holds
  by_cases hgh : g = h
  · subst hgh
    simp [hx, hpos]
  · simp [handles_setHandle_ne x hgh, hgh]

/-- What a handle holds stays the same. -/
theorem Sound.setHandle (hs : Sound L q) {x : SAQindex ν}
    (hold : ∀ p, (x.ptr = true ∧ x.pos = p) ↔ q.Holds h p)
    (hattach : x.doing = .attach → x.ptr = false) : Sound L (q.setHandle h x) := by
  refine hs.update (fun hx => ?_) hattach fun p hp =>
    (hs.counted p hp).congr rfl (holds_setHandle (hold p))
  obtain ⟨hptr, hpos⟩ := (hold x.pos).mp ⟨hx, rfl⟩
  exact hpos ▸ hs.held h hptr

theorem Sound.setDoing (hs : Sound L q) {doing : Doing ν}
    (hd : doing = .attach → (q.handles h).ptr = false) : Sound L (q.setDoing h doing) :=
  hs.setHandle (fun _ => Iff.rfl) hd

theorem Sound.setPos (hs : Sound L q) (hptr : (q.handles h).ptr = false) (pos : Pos) :
    Sound L (q.setPos h pos) := by
  refine hs.setHandle (fun p => ?_) (fun _ => hptr)
  simp [Holds, hptr]

/-- The slot of one element is changed, and the handle that has to do with it. -/
theorem Sound.change (hs : Sound L q) (hL : L ∣ 2 ^ 32) {x : SAQindex ν} {n : Int}
    (hp : Inside q.head q.tail p) (hold : (q.handles h).ptr = true → (q.handles h).pos = p)
    (hpos : x.pos = p) (hattach : x.doing = .attach → x.ptr = false)
    (hcounted : ((q.setIx L p n).setHandle h x).Counted L p) :
    Sound L ((q.setIx L p n).setHandle h x) := by
  refine hs.update (fun _ => hpos ▸ hp) hattach fun p' hp' => ?_
  by_cases hpp : p' = p
  · exact hpp ▸ hcounted
  · have hix := Function.update_of_ne (hs.slot_ne hL hp' hp hpp) n q.ix
    refine (hs.counted p' hp').congr hix (holds_setHandle ?_)
    exact ⟨fun hx => absurd (hx.2.symm.trans hpos) hpp,
      fun hx => absurd (hx.2.symm.trans (hold hx.1)) hpp⟩

-- ---------------------------------------------------------------------------
-- Attaching and detaching
-- ---------------------------------------------------------------------------

theorem Sound.detach (hs : Sound L q) (hL : L ∣ 2 ^ 32) (h : κ) : Sound L (q.detach L h) := by
  unfold Queue.detach
  split
  · next hptr =>
    have hp := hs.held h hptr
    obtain ⟨holders, hmem, hcount⟩ := hs.counted _ hp
    have hh : h ∈ holders := (hmem h).mpr ⟨hptr, rfl⟩
    have hpos : 0 < holders.card := Finset.card_pos.mpr ⟨h, hh⟩
    have hne : q.ix (slot L (q.handles h).pos) ≠ 0 := by
      rcases hcount with hcount | ⟨hcount, -⟩
      · rw [hcount]
        exact_mod_cast hpos.ne'
      · rw [hcount]
        decide
    rw [detachSlot, if_neg (by simp [inRange_iff.mpr hp]), if_neg hne]
    refine hs.change hL hp (fun _ => rfl) rfl (fun _ => rfl) ⟨holders.erase h, fun g => ?_, .inl ?_⟩
    · rw [Finset.mem_erase, hmem]
      exact (holds_release rfl g).symm
    · have hcard := Finset.card_erase_of_mem hh
      rcases hcount with hcount | ⟨hcount, hone⟩
      · have hins : q.ix (slot L (q.handles h).pos) ≠ AQ_INS := by
          rw [hcount, AQ_INS]
          omega
        simp only [Queue.setHandle, setIx, Function.update_self, hcount, hcard]
        omega
      · simp only [Queue.setHandle, setIx, Function.update_self, if_pos hcount, hcard]
        omega
  · exact hs

theorem Sound.attach (hs : Sound L q) (hL : L ∣ 2 ^ 32) (hptr : (q.handles h).ptr = false) :
    Sound L (q.attach L h) := by
  unfold Queue.attach
  simp only
  split
  · refine hs.setHandle (fun p => ?_) nofun
    simp [Holds, hptr]
  · next hin =>
    have hp : Inside q.head q.tail (q.handles h).pos := inRange_iff.mp (by simpa using hin)
    split
    · next hix =>
      obtain ⟨holders, hmem, hcount⟩ := hs.counted _ hp
      have hh : h ∉ holders := fun hh => by
        rw [((hmem h).mp hh).1] at hptr
        cases hptr
      refine hs.change hL hp (fun _ => rfl) rfl nofun ⟨insert h holders, fun g => ?_, .inl ?_⟩
      · rw [Finset.mem_insert, hmem]
        exact (holds_take (x := ⟨(q.handles h).pos, true, .idle⟩) rfl rfl g).symm
      · have hcard := Finset.card_insert_of_notMem hh
        rcases hcount with hcount | ⟨hcount, -⟩
        · simp only [Queue.setHandle, setIx, Function.update_self, hcount, hcard]
          omega
        · rw [hcount] at hix
          cases hix
    · exact hs.setDoing fun _ => hptr

-- ---------------------------------------------------------------------------
-- Removing and inserting
-- ---------------------------------------------------------------------------

/-- A queue that is as long or shorter, and keeps the elements that are held. -/
theorem Sound.shrink (hs : Sound L q) {head tail : Pos}
    (hfits : offset tail head ≤ offset q.tail q.head)
    (hin : ∀ p, Inside head tail p → Inside q.head q.tail p)
    (hheld : ∀ h p, Inside q.head q.tail p → q.Holds h p → Inside head tail p) :
    Sound L { q with head, tail } where
  fits := hfits.trans hs.fits
  held h hptr := hheld h _ (hs.held h hptr) ⟨hptr, rfl⟩
  counted p hp := hs.counted p (hin p hp)
  attaching := hs.attaching

/-- The tail goes on from an element that nobody holds. -/
theorem Sound.dropTail (hs : Sound L q) (hne : q.head ≠ q.tail)
    (hfree : q.ix (slot L q.tail) = 0) : Sound L { q with tail := q.tail + 1 } := by
  have hoffset : offset q.tail q.head ≠ 0 := mt offset_eq_zero.mp hne
  have htail : Inside q.head q.tail q.tail := by
    rw [Inside, offset_self]
    exact Nat.pos_of_ne_zero hoffset
  refine hs.shrink ?_ (fun p hp => ((inside_next hne).mp hp).1) fun h p hp hh =>
    (inside_next hne).mpr ⟨hp, ?_⟩
  · rw [offset_next hoffset]
    exact Nat.sub_le ..
  · rintro rfl
    exact (hs.counted _ htail).free hfree h hh

/-- The head goes back to an element that nobody holds. -/
theorem Sound.dropHead (hs : Sound L q) (hne : q.head ≠ q.tail)
    (hfree : q.ix (slot L (q.head - 1)) = 0) : Sound L { q with head := q.head - 1 } := by
  have hoffset : offset q.tail q.head ≠ 0 := mt offset_eq_zero.mp hne
  have hlast : Inside q.head q.tail (q.head - 1) := by
    rw [Inside, offset_pred hoffset]
    exact Nat.sub_lt (Nat.pos_of_ne_zero hoffset) Nat.one_pos
  refine hs.shrink ?_ (fun p hp => ((inside_pred hne).mp hp).1) fun h p hp hh =>
    (inside_pred hne).mpr ⟨hp, ?_⟩
  · rw [offset_pred hoffset]
    exact Nat.sub_le ..
  · rintro rfl
    exact (hs.counted _ hlast).free hfree h hh

/-- The head goes on to an element that is being inserted, and that nobody holds yet. -/
theorem Sound.addHead (hs : Sound L q) (hL : L ∣ 2 ^ 32) (hle : L ≤ 2 ^ 30)
    (hroom : offset q.tail q.head < L) :
    Sound L { q with head := q.head + 1, ix := Function.update q.ix (slot L q.head) AQ_INS } := by
  have hw : offset q.tail q.head + 1 < 2 ^ 32 := by omega
  have hout (h : κ) : ¬ q.Holds h q.head := by
    rintro ⟨hptr, hpos⟩
    have hin := hs.held h hptr
    rw [hpos] at hin
    exact Nat.lt_irrefl _ hin
  refine ⟨?_, fun h hptr => (inside_succ hw).mpr (.inr (hs.held h hptr)), fun p hp => ?_,
    hs.attaching⟩
  · rw [offset_succ hw]
    exact hroom
  · rcases (inside_succ hw).mp hp with rfl | hp
    · exact ⟨∅, fun h => iff_of_false (Finset.notMem_empty h) (hout h),
        .inr ⟨Function.update_self .., Nat.zero_le _⟩⟩
    · have hne : slot L p ≠ slot L q.head := fun he => by
        have hpe := slot_inj hL (hs.inside_lt hp) hroom he
        rw [hpe] at hp
        exact Nat.lt_irrefl _ hp
      exact (hs.counted p hp).congr (Function.update_of_ne hne ..) fun _ => Iff.rfl

-- ---------------------------------------------------------------------------
-- Operations
-- ---------------------------------------------------------------------------

/-- Nothing but handles and slots is changed. -/
structure SameItems (q t : Queue κ ν) : Prop where
  head : t.head = q.head
  tail : t.tail = q.tail
  a : t.a = q.a

theorem sameItems_detach (q : Queue κ ν) (h : κ) : SameItems q (q.detach L h) := by
  unfold Queue.detach detachSlot
  split_ifs <;> exact ⟨rfl, rfl, rfl⟩

theorem sameItems_attach (q : Queue κ ν) (h : κ) : SameItems q (q.attach L h) := by
  unfold Queue.attach
  simp only
  split_ifs <;> exact ⟨rfl, rfl, rfl⟩

theorem ptr_detach (q : Queue κ ν) (h : κ) : ((q.detach L h).handles h).ptr = false := by
  unfold Queue.detach
  split
  · simp [setPtr]
  · next hptr => simpa using hptr

theorem ix_detach (hp : (q.handles h).ptr = true → slot L p ≠ slot L (q.handles h).pos) :
    (q.detach L h).ix (slot L p) = q.ix (slot L p) := by
  unfold Queue.detach detachSlot
  split_ifs with hptr
  · rfl
  · rfl
  · exact Function.update_of_ne (hp hptr) ..
  · exact Function.update_of_ne (hp hptr) ..
  · rfl

/-- A handle that has been let go holds nothing. -/
theorem not_holds_detach : ¬ (q.detach L h).Holds h p := fun hh => by
  have hptr := ptr_detach (L := L) q h
  rw [hh.1] at hptr
  cases hptr

theorem holds_detach (hg : g ≠ h) : (q.detach L h).Holds g p ↔ q.Holds g p := by
  have hhandles : (q.detach L h).handles g = q.handles g := by
    unfold Queue.detach detachSlot
    split_ifs
    · exact handles_setHandle_ne _ hg
    · exact handles_setHandle_ne _ hg
    · exact handles_setHandle_ne _ hg
    · exact handles_setHandle_ne _ hg
    · rfl
  rw [Holds, hhandles, Holds]

/-- The slots are right, and what is in the queue is what the history says. -/
structure Good (L : Nat) (tr : List (Obs ν)) (q : Queue κ ν) : Prop where
  sound : Sound L q
  history : History tr (items L q.a q.head q.tail)

theorem Good.same (hg : Good L tr q) (hs : Sound L t) (hsame : SameItems q t) : Good L tr t :=
  ⟨hs, by rw [hsame.head, hsame.tail, hsame.a]; exact hg.history⟩

theorem tmod_eq_emod {x : Int} (h : 0 ≤ x.tmod L) : x.tmod L = x % L := by
  rcases le_or_gt 0 x with hx | hx
  · exact Int.tmod_eq_emod_of_nonneg hx
  · have hneg : x.tmod L = -(-x).tmod L := by rw [Int.neg_tmod, neg_neg]
    have hpos : 0 ≤ (-x).tmod L := Int.tmod_nonneg _ (Int.neg_nonneg.mpr hx.le)
    have hzero : x.tmod L = 0 := by omega
    rw [hzero, Int.emod_eq_zero_of_dvd (Int.dvd_of_tmod_eq_zero hzero)]

/-- An index that is not negative is that of the slot. -/
theorem index_eq {ret : Pos} {i : Nat} (hL : L ∣ 2 ^ 32) (h : index L ret = some i) :
    i = slot L ret := by
  unfold index at h
  split_ifs at h with hneg
  obtain rfl := Option.some.inj h
  obtain ⟨c, hc⟩ := hL
  have hmod : ret.toInt % L = (ret.toNat : Int) % L := by
    rw [BitVec.toInt_eq_toNat_cond]
    split
    · rfl
    · rw [show ((2 ^ 32 : Nat) : Int) = L * c by exact_mod_cast hc, Int.sub_mul_emod_self_left]
  rw [tmod_eq_emod (not_lt.mp hneg), hmod, slot]
  norm_cast

theorem Good.detach (hg : Good L tr q) (hL : L ∣ 2 ^ 32) (h : κ) : Good L tr (q.detach L h) :=
  hg.same (hg.sound.detach hL h) (sameItems_detach q h)

theorem Good.setDoing (hg : Good L tr q) {doing : Doing ν}
    (hd : doing = .attach → (q.handles h).ptr = false) : Good L tr (q.setDoing h doing) :=
  hg.same (hg.sound.setDoing hd) ⟨rfl, rfl, rfl⟩

theorem Good.attach (hg : Good L tr q) (hL : L ∣ 2 ^ 32) (hptr : (q.handles h).ptr = false) :
    Good L tr (q.attach L h) :=
  hg.same (hg.sound.attach hL hptr) (sameItems_attach q h)

/-- A handle is let go and attached to another position. -/
theorem Good.move (hg : Good L tr q) (hL : L ∣ 2 ^ 32) (h : κ) (pos : Pos) :
    Good L tr (((q.detach L h).setPos h pos).attach L h) := by
  have hptr := ptr_detach (L := L) q h
  have hpos : Good L tr ((q.detach L h).setPos h pos) :=
    (hg.detach hL h).same ((hg.detach hL h).sound.setPos hptr pos) ⟨rfl, rfl, rfl⟩
  exact hpos.attach hL (by simpa [setPos] using hptr)

/-- A removal from the tail leaves room. -/
theorem Good.delTurn (hg : Good L tr q) (hne : q.ix (slot L q.tail) = 0 → q.head ≠ q.tail)
    (h : q.delTurn L = some (t, os)) : Good L (tr ++ os) t ∧ offset t.tail t.head < L := by
  unfold Queue.delTurn at h
  split_ifs at h with hfree
  obtain ⟨rfl, rfl⟩ := Prod.mk.inj (Option.some.inj h)
  have hfree := not_not.mp hfree
  have hne := hne hfree
  have hoffset := mt offset_eq_zero.mp hne
  have hitems := items_tail (L := L) (a := q.a) hne
  refine ⟨⟨hg.sound.dropTail hne hfree, .del _ (hitems ▸ hg.history)⟩, ?_⟩
  have hfits := hg.sound.fits
  rw [offset_next hoffset]
  omega

/-- The inserter lets go what it held and holds the element that it has inserted. -/
theorem Sound.own (hs : Sound L q) (hL : L ∣ 2 ^ 32) (g : κ) (a : Nat → ν)
    (hix : q.ix (slot L p) = AQ_INS) (hp : Inside q.head q.tail p)
    (hfree : ∀ h, ¬ q.Holds h p) :
    Sound L ({ q.detach L g with a }.setHandle g ⟨p, true, .idle⟩) := by
  have hsame := sameItems_detach (L := L) q g
  have hdet := hs.detach hL g
  have hs' : Sound L { q.detach L g with a } :=
    ⟨hdet.fits, hdet.held, hdet.counted, hdet.attaching⟩
  have hin : Inside (q.detach L g).head (q.detach L g).tail p := by
    rw [hsame.head, hsame.tail]
    exact hp
  refine @Sound.update _ _ _ _ _ _ hs' ⟨p, true, .idle⟩ (q.detach L g).ix (fun _ => hin) nofun
    fun p' hp' => ?_
  by_cases hpp : p' = p
  · subst hpp
    have hne : (q.handles g).ptr = true → slot L p' ≠ slot L (q.handles g).pos := fun hptr =>
      hs.slot_ne hL hp (hs.held g hptr) fun he => hfree g ⟨hptr, he.symm⟩
    refine ⟨{g}, fun h => ?_, .inr ⟨(ix_detach hne).trans hix, by simp⟩⟩
    rw [Finset.mem_singleton, holds_take rfl rfl]
    refine (or_iff_left fun hh => ?_).symm
    by_cases hgh : h = g
    · exact not_holds_detach (hgh ▸ hh)
    · exact hfree h ((holds_detach hgh).mp hh)
  · refine (hs'.counted p' hp').congr rfl (holds_setHandle ?_)
    exact iff_of_false (fun hx => hpp hx.2.symm) not_holds_detach

theorem Good.insEnd (hg : Good L tr q) (hL : L ∣ 2 ^ 32) (hle : L ≤ 2 ^ 30)
    (hroom : offset q.tail q.head < L) (h : q.insEnd L g v = some (t, os)) :
    Good L (tr ++ os) t := by
  have hw : offset q.tail q.head + 1 < 2 ^ 32 := by omega
  unfold Queue.insEnd at h
  split at h
  · cases h
  · next i hi =>
    obtain rfl := index_eq hL hi
    have hadd := hg.sound.addHead hL hle hroom
    have hpush (x : ν) := items_push (a := q.a) (v := x) hL hroom hw
    simp only at h
    split_ifs at h
    · obtain ⟨rfl, rfl⟩ := Prod.mk.inj (Option.some.inj h)
      have hsame := hpush (q.a (slot L q.head))
      rw [Function.update_eq_self] at hsame
      exact ⟨hadd.setDoing (fun h => by cases h), hsame ▸ hg.history.ins _⟩
    · obtain ⟨rfl, rfl⟩ := Prod.mk.inj (Option.some.inj h)
      obtain ⟨hhead, htail, ha⟩ := sameItems_detach (L := L)
        { q with head := q.head + 1, ix := Function.update q.ix (slot L q.head) AQ_INS } g
      refine ⟨hadd.own hL g _ (Function.update_self ..) ((inside_succ hw).mpr (.inl rfl)) ?_, ?_⟩
      · rintro h ⟨hptr, hpos⟩
        have hin := hg.sound.held h hptr
        rw [hpos] at hin
        exact Nat.lt_irrefl _ hin
      · simp only [Queue.setHandle, hhead, htail, ha, hpush]
        exact hg.history.ins v

theorem ne_of_i_count (h : q.i_count ≠ 0) : q.head ≠ q.tail := fun he => h (by simp [i_count, he])

theorem Sound.i_count_eq (hs : Sound L q) (hle : L ≤ 2 ^ 30) :
    q.i_count = offset q.tail q.head := by
  have hfits := hs.fits
  refine BitVec.toInt_eq_toNat_of_lt ?_
  rw [offset] at hfits
  omega

theorem Good.insWait (hg : Good L tr q) (hL : L ∣ 2 ^ 32) (hle : L ≤ 2 ^ 30)
    (hne : q.ix (slot L q.tail) = 0 → q.head ≠ q.tail) (h : q.insWait L g v = some (t, os)) :
    Good L (tr ++ os) t := by
  unfold Queue.insWait at h
  split at h
  · obtain ⟨rfl, rfl⟩ := Prod.mk.inj (Option.some.inj h)
    have hwait : Good L tr (q.setDoing g (.ins v)) := hg.setDoing nofun
    simpa using hwait
  · next mid del hdel =>
    obtain ⟨⟨u, more⟩, hend, hx⟩ := Option.map_eq_some_iff.mp h
    obtain ⟨rfl, rfl⟩ := Prod.mk.inj hx
    obtain ⟨hmid, hroom⟩ := hg.delTurn hne hdel
    simpa using hmid.insEnd hL hle hroom hend

theorem Good.ins (hg : Good L tr q) (hL : L ∣ 2 ^ 32) (hle : L ≤ 2 ^ 30) (hpos : 0 < L)
    (h : q.ins L g v = some (t, os)) : Good L (tr ++ os) t := by
  have hcount := hg.sound.i_count_eq hle
  unfold Queue.ins at h
  split at h
  · next hfull =>
    refine hg.insWait hL hle (fun _ => ne_of_i_count ?_) h
    omega
  · next hroom =>
    have hfits := hg.sound.fits
    exact hg.insEnd hL hle (by omega) h

theorem Good.delWait (hg : Good L tr q) (hne : q.ix (slot L q.tail) = 0 → q.head ≠ q.tail) :
    Good L (tr ++ (q.delWait L g).2) (q.delWait L g).1 := by
  unfold Queue.delWait
  split
  · have hwait : Good L tr (q.setDoing g .del) := hg.setDoing nofun
    simpa using hwait
  · next mid del hdel => exact (hg.delTurn hne hdel).1.setDoing nofun

theorem Good.del (hg : Good L tr q) (hL : L ∣ 2 ^ 32) :
    Good L (tr ++ (q.del L g).2) (q.del L g).1 := by
  have hown : Good L tr (if (q.handles g).pos = q.tail then q.detach L g else q) := by
    split
    · exact hg.detach hL g
    · exact hg
  unfold Queue.del
  simp only
  generalize (if (q.handles g).pos = q.tail then q.detach L g else q) = u at hown ⊢
  split
  · simpa using hown
  · next hcount => exact hown.delWait fun _ => ne_of_i_count hcount

theorem Good.popWait (hg : Good L tr q) (hL : L ∣ 2 ^ 32) {ret : Pos}
    (hne : q.ix (slot L ret) = 0 → q.head = ret + 1 ∧ q.head ≠ q.tail)
    (h : q.popWait L g ret = some (t, os)) : Good L (tr ++ os) t := by
  unfold Queue.popWait at h
  split at h
  · cases h
  · next i hi =>
    obtain rfl := index_eq hL hi
    split at h
    · obtain ⟨rfl, rfl⟩ := Prod.mk.inj (Option.some.inj h)
      have hwait : Good L tr (q.setDoing g (.pop ret)) := hg.setDoing (fun h => by cases h)
      simpa using hwait
    · next hfree =>
      obtain ⟨rfl, rfl⟩ := Prod.mk.inj (Option.some.inj h)
      have hfree := not_not.mp hfree
      obtain ⟨hhead, hsome⟩ := hne hfree
      obtain rfl : ret = q.head - 1 := by
        rw [hhead]
        ring
      have hitems := items_head (L := L) (a := q.a) hsome
      have hdrop : Good L (tr ++ [Obs.pop (q.a (slot L (q.head - 1)))])
          { q with head := q.head - 1 } :=
        ⟨hg.sound.dropHead hsome hfree, .pop _ (hitems ▸ hg.history)⟩
      exact hdrop.setDoing (fun h => by cases h)

theorem Good.pop (hg : Good L tr q) (hL : L ∣ 2 ^ 32) (h : q.pop L g = some (t, os)) :
    Good L (tr ++ os) t := by
  have hown : Good L tr (if (q.handles g).pos = q.head - 1 then q.detach L g else q) := by
    split
    · exact hg.detach hL g
    · exact hg
  unfold Queue.pop at h
  simp only at h
  generalize (if (q.handles g).pos = q.head - 1 then q.detach L g else q) = u at hown h
  split at h
  · obtain ⟨rfl, rfl⟩ := Prod.mk.inj (Option.some.inj h)
    simpa using hown
  · next hcount => exact hown.popWait hL (fun _ => ⟨by ring, ne_of_i_count hcount⟩) h

theorem Good.attachTo (hg : Good L tr q) (hL : L ∣ 2 ^ 32) (h : κ) (target : Target κ) :
    Good L tr (q.attachTo L h target) := by
  cases target with
  | tail => exact hg.move hL h _
  | head =>
    simp only [Queue.attachTo]
    split
    · exact hg
    · exact hg.move hL h _
  | near g n => exact hg.move hL h _

/-- One step. -/
theorem Good.step (hg : Good L tr q) (hL : L ∣ 2 ^ 32) (hle : L ≤ 2 ^ 30) (hpos : 0 < L)
    {x : Act κ ν} (hc : Unovertaken L q x) (h : q.step L x = some (t, os)) :
    Good L (tr ++ os) t := by
  cases x with
  | attach g target =>
    obtain ⟨-, h⟩ := Option.ite_none_right_eq_some.mp h
    obtain ⟨rfl, rfl⟩ := Prod.mk.inj (Option.some.inj h)
    simpa using hg.attachTo hL g target
  | detach g =>
    obtain ⟨-, h⟩ := Option.ite_none_right_eq_some.mp h
    obtain ⟨rfl, rfl⟩ := Prod.mk.inj (Option.some.inj h)
    simpa using hg.detach hL g
  | ins g v => exact hg.ins hL hle hpos (Option.ite_none_right_eq_some.mp h).2
  | del g =>
    obtain ⟨-, h⟩ := Option.ite_none_right_eq_some.mp h
    obtain ⟨rfl, rfl⟩ := Prod.mk.inj (Option.some.inj h)
    exact hg.del hL
  | pop g => exact hg.pop hL (Option.ite_none_right_eq_some.mp h).2
  | wake g =>
    have hw : q.wake L g = some (t, os) := h
    have hmoved : (q.handles g).doing.Unmoved L q := hc
    unfold Queue.wake at hw
    cases hd : (q.handles g).doing with
    | idle =>
      rw [hd] at hw
      cases hw
    | ins v =>
      rw [hd] at hw hmoved
      exact hg.insWait hL hle hmoved hw
    | del =>
      rw [hd] at hw hmoved
      obtain ⟨rfl, rfl⟩ := Prod.mk.inj (Option.some.inj hw)
      exact hg.delWait hmoved
    | pop ret =>
      rw [hd] at hw hmoved
      exact hg.popWait hL hmoved hw
    | attach =>
      rw [hd] at hw
      obtain ⟨rfl, rfl⟩ := Prod.mk.inj (Option.some.inj hw)
      simpa using hg.attach hL (hg.sound.attaching g hd)

end Queue

-- ---------------------------------------------------------------------------
-- Runs
-- ---------------------------------------------------------------------------

theorem regular_length_eq {len : Int} (h : len ≤ 2 ^ 30) :
    ∃ k ≤ 30, regular_length len = 2 ^ k := by
  have hsome : ((List.range 31).find? fun i => decide (len ≤ 2 ^ i)).isSome :=
    List.find?_isSome.mpr ⟨30, by simp, by simpa using h⟩
  obtain ⟨k, hk⟩ := Option.isSome_iff_exists.mp hsome
  have hmem := List.mem_range.mp (List.mem_of_find?_eq_some hk)
  exact ⟨k, Nat.le_of_lt_succ hmem, by simp [regular_length, hk]⟩

variable {len : Int} {tr : List (Obs ν)} {q : Queue κ ν}

/-- What is kept in a run. -/
theorem run_good (h : (machine κ ν len).RunIf (Unovertaken (regular_length len)) tr q) :
    len ≤ 2 ^ 30 ∧ q.Good (regular_length len) tr := by
  refine h.invariant (I := fun tr q => len ≤ 2 ^ 30 ∧ q.Good (regular_length len) tr) ?_ ?_
  · rintro q ⟨hlen, a, rfl⟩
    refine ⟨hlen, ⟨?_, nofun, fun p hp => ?_, nofun⟩, ?_⟩
    · simp
    · exact absurd hp (by simp [Inside])
    · simpa [items] using History.nil
  · rintro tr q x t os - ⟨hlen, hg⟩ hc hs
    obtain ⟨k, hk, hL⟩ := regular_length_eq hlen
    have hdvd : regular_length len ∣ 2 ^ 32 := hL ▸ pow_dvd_pow 2 (by omega)
    have hle : regular_length len ≤ 2 ^ 30 := hL ▸ Nat.pow_le_pow_right Nat.two_pos hk
    have hpos : 0 < regular_length len := hL ▸ Nat.two_pow_pos k
    exact ⟨hlen, hg.step hdvd hle hpos hc hs⟩

/-- In every run in which no removal that waits is overtaken, the queue holds what has been
inserted and not been removed, each in a slot of its own, and what is held is in it. -/
theorem arrayQueue_law (h : (machine κ ν len).RunIf (Unovertaken (regular_length len)) tr q) :
    Lawful (regular_length len) tr q := by
  obtain ⟨hlen, hsound, hhistory⟩ := run_good h
  obtain ⟨k, hk, hL⟩ := regular_length_eq hlen
  have hdvd : regular_length len ∣ 2 ^ 32 := hL ▸ pow_dvd_pow 2 (by omega)
  have hle : regular_length len ≤ 2 ^ 30 := hL ▸ Nat.pow_le_pow_right Nat.two_pos hk
  have hfits := hsound.fits
  have hcount := hsound.i_count_eq hle
  exact ⟨by omega, hhistory,
    fun p p' hp hp' he => slot_inj hdvd (hsound.inside_lt hp) (hsound.inside_lt hp') he,
    hsound.held⟩

/-- An element is removed once its inserter and another handle have let it go. -/
theorem arrayQueue_law_waited : ∃ tr q, (machine Nat Nat 2).RunIf (Unovertaken 2) tr q ∧
    q.i_count = 1 ∧ Lawful 2 tr q := by
  have hrun := Machine.exists_run (M := machine Nat Nat 2) (C := Unovertaken 2)
    (P := fun _ q => q.i_count = 1)
    [.ins 0 7, .detach 0, .attach 1 .tail, .del 0, .ins 2 8, .detach 1, .wake 0]
    (s := ⟨0, 0, fun _ => AQ_EMPTY, fun _ => 0, fun _ => ⟨0, false, .idle⟩⟩)
    ⟨by decide, fun _ => 0, rfl⟩ (by decide +kernel)
  obtain ⟨tr, q, h, hq⟩ := hrun
  exact ⟨tr, q, h, hq, arrayQueue_law h⟩

-- ---------------------------------------------------------------------------
-- An insertion undone
-- ---------------------------------------------------------------------------

/-- `pop` waits for the first element; what is inserted meanwhile is gone when it goes on, and its
inserter is not done yet. -/
theorem insertion_undone : ∃ tr q, (machine Nat Nat 2).Run tr q ∧ ¬ Lawful 2 tr q := by
  have hrun := Machine.exists_run (M := machine Nat Nat 2) (C := fun _ _ => True)
    (P := fun _ q => q.head = q.tail ∧ (q.handles 2).ptr = true)
    [.ins 0 7, .pop 1, .ins 2 8, .detach 0, .wake 1]
    (s := ⟨0, 0, fun _ => AQ_EMPTY, fun _ => 0, fun _ => ⟨0, false, .idle⟩⟩)
    ⟨by decide, fun _ => 0, rfl⟩ (by decide +kernel)
  obtain ⟨tr, q, h, hempty, hptr⟩ := hrun
  refine ⟨tr, q, h, fun hl => ?_⟩
  have hin := hl.held 2 hptr
  rw [Inside, hempty, offset_self] at hin
  exact Nat.not_lt_zero _ hin

end TinyState.StdArrayQueue
