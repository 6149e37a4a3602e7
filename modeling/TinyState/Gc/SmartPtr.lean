import TinyState.Gc.Accounting

/-!
# sPtr

A pointer variable drops the reference of what it pointed to and takes one of what it points to
from now on, in a call of `addref` or `relref` each. In between threads and the collector go on.
The variables are known by the order in which they have been made; one that has ended points to
nothing. Nothing else calls `addref` and `relref`, and at most one call is under way on a variable.
-/

namespace TinyState

open Transition

-- ---------------------------------------------------------------------------
-- Model
-- ---------------------------------------------------------------------------

/-- The argument of a call, and the variable it has been read from. -/
abbrev PtrArg := Option (Nat × Address)

/-- Where `_replace` or `_initial` stands on a variable. -/
inductive PtrPhase
  | idle
  /-- Before `ptr->relref()`. -/
  | dropping (inp : PtrArg)
  /-- Before `ptr = inp`. -/
  | storing (inp : PtrArg)
  /-- Before `ptr->addref()`; the argument has been read from `src`. -/
  | adding (src : Nat)
  deriving DecidableEq, Repr

structure SPtr where
  ptr : Option Address
  phase : PtrPhase
  deriving DecidableEq, Repr

/-- `made` is history: the objects that `thNEW` has made. -/
structure PtrSys where
  gc : GcSys
  ptrs : List SPtr
  made : Address → Bool

inductive PtrAct
  /-- `thNEW`: a new variable for a new object, of which it has the first reference. -/
  | construct (x : Address)
  /-- A new variable that points to nothing, or to where another one points. -/
  | initial (src : Option Nat)
  /-- The variable is to point to nothing, or to where another one points. -/
  | replace (i : Nat) (src : Option Nat)
  /-- The call on the variable goes on. -/
  | go (i : Nat)
  /-- The collector, `nRefEvent`, `finish` and those who raise flags. -/
  | env (a : GcAct)
  deriving DecidableEq, Repr

namespace SPtr

/-- `ptr = inp` -/
def store (inp : PtrArg) : SPtr :=
  match inp with
  | none => ⟨none, .idle⟩
  | some (j, y) => ⟨some y, .adding j⟩

/-- One of the references of the object is this variable's. -/
def refers (p : SPtr) (x : Address) : Bool :=
  match p.phase with
  | .idle | .dropping _ => p.ptr == some x
  | .storing _ | .adding _ => false

/-- What a call under way is to point to, and the variable it has been read from. -/
def pin (p : SPtr) : PtrArg :=
  match p.phase with
  | .idle => none
  | .dropping inp | .storing inp => inp
  | .adding j => p.ptr.map fun y => (j, y)

end SPtr

namespace PtrSys

def initial : PtrSys := ⟨.initial, [], fun _ => false⟩

/-- `inp.__get()` -/
def arg (s : PtrSys) : Option Nat → Option PtrArg
  | none => some none
  | some j => (s.ptrs[j]?).map fun p => p.ptr.map fun y => (j, y)

def put (s : PtrSys) (i : Nat) (p : SPtr) : PtrSys := { s with ptrs := s.ptrs.set i p }

/-- `_replace(inp)` is called. -/
def replace (s : PtrSys) (i : Nat) (ptr : Option Address) (inp : PtrArg) : PtrSys :=
  if ptr = inp.map Prod.snd then s
  else
    match ptr with
    | some x => s.put i ⟨some x, .dropping inp⟩
    | none => s.put i ⟨none, .storing inp⟩

/-- The call on the variable goes on. -/
def go (s : PtrSys) (i : Nat) : Option (PtrSys × List GcObs) :=
  match s.ptrs[i]? with
  | some ⟨some x, .dropping inp⟩ => (s.gc.step (.relref x)).map fun r =>
      (({ s with gc := r.1 }).put i ⟨some x, .storing inp⟩, r.2)
  | some ⟨_, .storing inp⟩ => some (s.put i (.store inp), [])
  | some ⟨some x, .adding _⟩ => (s.gc.step (.addref x)).map fun r =>
      (({ s with gc := r.1 }).put i ⟨some x, .idle⟩, r.2)
  | _ => none

def step (s : PtrSys) : PtrAct → Option (PtrSys × List GcObs)
  | .construct x =>
    if s.made x then none
    else some ({ s with
      ptrs := s.ptrs ++ [⟨some x, .idle⟩]
      made := Function.update s.made x true }, [])
  | .initial src => (s.arg src).map fun inp => ({ s with ptrs := s.ptrs ++ [.store inp] }, [])
  | .replace i src =>
    match s.ptrs[i]?, s.arg src with
    | some ⟨ptr, .idle⟩, some inp => some (s.replace i ptr inp, [])
    | _, _ => none
  | .go i => s.go i
  | .env a =>
    match a with
    | .addref _ | .relref _ => none
    | a => (s.gc.step a).map fun r => ({ s with gc := r.1 }, r.2)

/-- No call is under way on the variable. -/
def Still (s : PtrSys) (i : Nat) : Prop := ∀ p ∈ s.ptrs[i]?, p.phase = .idle

/-- No call under way has its argument from the variable. -/
def Unpinned (s : PtrSys) (i : Nat) : Prop := ∀ p ∈ s.ptrs, ∀ q ∈ p.pin, q.1 ≠ i

/-- The object whose reference the call on the variable is about to drop. -/
def dropping (s : PtrSys) (i : Nat) : Option Address :=
  match s.ptrs[i]? with
  | some ⟨some x, .dropping _⟩ => some x
  | _ => none

/-- A variable is neither written while it is read nor as long as it is the argument of a call: an
argument by value is a variable of the call's own. No object is armed and dropped again before it
is fresh. -/
def Disciplined (s : PtrSys) : PtrAct → Prop
  | .construct _ => True
  | .initial src => ∀ j ∈ src, s.Still j
  | .replace i src => s.Unpinned i ∧ ∀ j ∈ src, s.Still j
  | .go i => ∀ x ∈ s.dropping i, s.gc.Fresh x
  | .env a => ∀ x ∈ s.gc.dropping a, s.gc.Fresh x

instance (s : PtrSys) (i : Nat) : Decidable (s.Still i) :=
  inferInstanceAs (Decidable (∀ p ∈ s.ptrs[i]?, p.phase = .idle))

instance (s : PtrSys) (i : Nat) : Decidable (s.Unpinned i) :=
  inferInstanceAs (Decidable (∀ p ∈ s.ptrs, ∀ q ∈ p.pin, q.1 ≠ i))

instance (s : PtrSys) (a : PtrAct) : Decidable (s.Disciplined a) :=
  match a with
  | .construct _ => .isTrue trivial
  | .initial src => inferInstanceAs (Decidable (∀ j ∈ src, s.Still j))
  | .replace i src => inferInstanceAs (Decidable (s.Unpinned i ∧ ∀ j ∈ src, s.Still j))
  | .go i => inferInstanceAs (Decidable (∀ x ∈ s.dropping i, s.gc.Fresh x))
  | .env a => inferInstanceAs (Decidable (∀ x ∈ s.gc.dropping a, s.gc.Fresh x))

end PtrSys

def SmartPtr : Machine PtrSys PtrAct GcObs where
  init s := s = .initial
  step := PtrSys.step

-- ---------------------------------------------------------------------------
-- References held and objects gone
-- ---------------------------------------------------------------------------

namespace GcSys

variable {s t : GcSys} {x : Address} {id : Nat} {o : Option Nat} {os : List GcObs} {a : GcAct}
  {place : Address → Place}

theorem Up.held (h : Up s id t o) : t.held = s.held := by
  cases h <;> rfl

theorem Dropped.held (h : Dropped s x t o os) : t.held = s.held := by
  cases h with
  | gone | panic | counted => rfl
  | watched _ _ hu =>
    rw [hu.held, pushEvent_frame]
  | last _ _ hu => exact hu.held

theorem Raised.held (h : Raised s id t o) : t.held = s.held := by
  cases h with
  | stop => rfl
  | set _ hu => exact hu.held

theorem Collected.held (h : Collected s t os) : t.held = s.held := by
  cases h with
  | head => unfold testRoot; split <;> rfl
  | round | take | bad | delete | refEvent | children => rfl
  | relref _ hd => exact hd.held
  | raise _ hr => exact hr.held

/-- Only callers take and drop references of their own. -/
theorem Moved.held (h : Moved s a t os) : t.held =
    match a with
    | .addref x => if s.ref x = -1 then s.held else Function.update s.held x (s.held x + 1)
    | .relref x => Function.update s.held x (s.held x - 1)
    | _ => s.held := by
  cases h with
  | addref_gone hx => simp [hx]
  | addref hx => simp [hx]
  | relref hd => exact hd.held
  | nRefEvent | wake => rfl
  | raise _ hr => exact hr.held
  | gc hc => exact hc.held
  | finish =>
    unfold broadcast
    split <;> rfl

theorem Up.ref (h : Up s id t o) : t.ref = s.ref := by
  cases h <;> rfl

theorem Dropped.ref_gone (h : Dropped s x t o os) {y : Address} (hy : t.ref y = -1) :
    s.ref y = -1 := by
  cases h with
  | gone | panic => exact hy
  | watched _ _ hu =>
    rw [hu.ref, pushEvent_frame] at hy
    exact hy
  | counted h1 =>
    by_cases hxy : y = x
    · subst hxy
      simp only [Function.update_self] at hy
      omega
    · exact (Function.update_of_ne hxy ..).symm.trans hy
  | last _ _ hu =>
    rw [hu.ref] at hy
    by_cases hxy : y = x
    · subst hxy
      simp [pushDelete] at hy
    · exact (Function.update_of_ne hxy ..).symm.trans hy

theorem Raised.ref (h : Raised s id t o) : t.ref = s.ref := by
  cases h with
  | stop => rfl
  | set _ hu => exact hu.ref

/-- An object that is gone now was gone before, or without references. -/
theorem Collected.ref_gone (h : Collected s t os) {y : Address} (hy : t.ref y = -1) :
    s.ref y = -1 ∨ s.ref y = 0 := by
  cases h with
  | head =>
    unfold testRoot at hy
    split at hy <;> exact .inl hy
  | round | take | bad | refEvent | children => exact .inl hy
  | @delete w x _ _ h0 =>
    by_cases hxy : y = x
    · exact .inr (hxy ▸ h0)
    · exact .inl ((Function.update_of_ne hxy ..).symm.trans hy)
  | relref _ hd => exact .inl (hd.ref_gone hy)
  | raise _ hr => exact .inl ((congrFun hr.ref y).symm.trans hy)

/-- No object is gone that somebody has a reference of. -/
def Alive (s : GcSys) : Prop := ∀ x, 0 < s.held x → s.ref x ≠ -1

theorem Books.counts (hb : Books s place none) (hx : s.ref x ≠ -1) :
    (s.held x : Int) ≤ s.ref x := by
  rw [hb.ref x hx]
  split <;> split <;> omega

theorem Moved.alive (h : Moved s a t os) (hb : Books s place none) (ha : s.Alive) : t.Alive := by
  intro y hy hgone
  rw [h.held] at hy
  cases h with
  | addref_gone hx =>
    simp only [hx, if_true] at hy
    exact ha y hy hgone
  | @addref x hx =>
    have hpos := hb.counts hx
    by_cases hxy : y = x
    · subst hxy
      simp only [Function.update_self] at hgone
      omega
    · simp only [hx, if_false, Function.update_of_ne hxy] at hy hgone
      exact ha y hy hgone
  | @relref x _ _ _ hd =>
    refine ha y ?_ (hd.ref_gone hgone)
    by_cases hxy : y = x
    · subst hxy
      simp only [Function.update_self] at hy
      omega
    · simpa only [Function.update_of_ne hxy] using hy
  | nRefEvent | wake => exact ha y hy hgone
  | raise _ hr => exact ha y hy ((congrFun hr.ref y).symm.trans hgone)
  | gc hc =>
    rcases hc.ref_gone hgone with h1 | h0
    · exact ha y hy h1
    · have hle := hb.counts (x := y) (by omega)
      have hy' : 0 < s.held y := hy
      omega
  | finish =>
    refine ha y hy ?_
    unfold broadcast at hgone
    split at hgone <;> exact hgone

end GcSys

-- ---------------------------------------------------------------------------
-- What a step does
-- ---------------------------------------------------------------------------

namespace PtrSys

variable {s t : PtrSys} {a : PtrAct} {os : List GcObs} {i j : Nat} {p p' : SPtr} {x : Address}
  {inp : PtrArg} {src : Option Nat}

/-- The calls that are not made on variables. -/
def Outside : GcAct → Prop
  | .addref _ | .relref _ => False
  | _ => True

inductive PtrMoved (s : PtrSys) : PtrAct → PtrSys → List GcObs → Prop
  | construct {x : Address} : s.made x = false → PtrMoved s (.construct x) { s with
      ptrs := s.ptrs ++ [⟨some x, .idle⟩]
      made := Function.update s.made x true } []
  | initial {src : Option Nat} {inp : PtrArg} : s.arg src = some inp →
      PtrMoved s (.initial src) { s with ptrs := s.ptrs ++ [.store inp] } []
  | same {i : Nat} {src : Option Nat} : PtrMoved s (.replace i src) s []
  | drop {i : Nat} {src : Option Nat} {x : Address} {inp : PtrArg} :
      s.ptrs[i]? = some ⟨some x, .idle⟩ → s.arg src = some inp → inp.map Prod.snd ≠ some x →
      PtrMoved s (.replace i src) (s.put i ⟨some x, .dropping inp⟩) []
  | null {i : Nat} {src : Option Nat} {inp : PtrArg} :
      s.ptrs[i]? = some ⟨none, .idle⟩ → s.arg src = some inp → inp.map Prod.snd ≠ none →
      PtrMoved s (.replace i src) (s.put i ⟨none, .storing inp⟩) []
  | relref {i : Nat} {x : Address} {inp : PtrArg} {g : GcSys} {os : List GcObs} :
      s.ptrs[i]? = some ⟨some x, .dropping inp⟩ → s.gc.step (.relref x) = some (g, os) →
      PtrMoved s (.go i) (({ s with gc := g } : PtrSys).put i ⟨some x, .storing inp⟩) os
  | store {i : Nat} {ptr : Option Address} {inp : PtrArg} :
      s.ptrs[i]? = some ⟨ptr, .storing inp⟩ → PtrMoved s (.go i) (s.put i (.store inp)) []
  | addref {i j : Nat} {x : Address} {g : GcSys} {os : List GcObs} :
      s.ptrs[i]? = some ⟨some x, .adding j⟩ → s.gc.step (.addref x) = some (g, os) →
      PtrMoved s (.go i) (({ s with gc := g } : PtrSys).put i ⟨some x, .idle⟩) os
  | env {a : GcAct} {g : GcSys} {os : List GcObs} : Outside a → s.gc.step a = some (g, os) →
      PtrMoved s (.env a) { s with gc := g } os

theorem replace_moved {ptr : Option Address} (hi : s.ptrs[i]? = some ⟨ptr, .idle⟩)
    (ha : s.arg src = some inp) : PtrMoved s (.replace i src) (s.replace i ptr inp) [] := by
  unfold replace
  split_ifs with he
  · exact .same
  · cases ptr with
    | some x => exact .drop hi ha (Ne.symm he)
    | none => exact .null hi ha (Ne.symm he)

theorem go_moved (h : s.go i = some (t, os)) : PtrMoved s (.go i) t os := by
  unfold go at h
  split at h
  · rename_i x inp hi
    obtain ⟨⟨g, gs⟩, hg, he⟩ := Option.map_eq_some_iff.mp h
    obtain ⟨rfl, rfl⟩ := Prod.mk.inj he
    exact .relref hi hg
  · rename_i ptr inp hi
    obtain ⟨rfl, rfl⟩ := Prod.mk.inj (Option.some.inj h)
    exact .store hi
  · rename_i x j hi
    obtain ⟨⟨g, gs⟩, hg, he⟩ := Option.map_eq_some_iff.mp h
    obtain ⟨rfl, rfl⟩ := Prod.mk.inj he
    exact .addref hi hg
  · cases h

theorem step_ptrMoved (h : s.step a = some (t, os)) : PtrMoved s a t os := by
  unfold step at h
  cases a with
  | construct x =>
    simp only at h
    split at h
    · cases h
    · obtain ⟨rfl, rfl⟩ := Prod.mk.inj (Option.some.inj h)
      exact .construct (Bool.not_eq_true _ ▸ ‹_›)
  | initial src =>
    obtain ⟨inp, ha, he⟩ := Option.map_eq_some_iff.mp h
    obtain ⟨rfl, rfl⟩ := Prod.mk.inj he
    exact .initial ha
  | replace i src =>
    simp only at h
    split at h
    · rename_i ptr inp hi ha
      obtain ⟨rfl, rfl⟩ := Prod.mk.inj (Option.some.inj h)
      exact replace_moved hi ha
    · cases h
  | go i => exact go_moved h
  | env a =>
    simp only at h
    split at h
    · cases h
    · cases h
    · rename_i h1 h2
      obtain ⟨⟨g, gs⟩, hg, he⟩ := Option.map_eq_some_iff.mp h
      obtain ⟨rfl, rfl⟩ := Prod.mk.inj he
      refine .env ?_ hg
      cases a with
      | addref y => exact h1 y rfl
      | relref y => exact h2 y rfl
      | _ => trivial

-- ---------------------------------------------------------------------------
-- Arguments and counts
-- ---------------------------------------------------------------------------

/-- The argument of a call stays where it has been read from until the call is over. -/
def Pinned (s : PtrSys) : Prop := ∀ p ∈ s.ptrs, ∀ q, p.pin = some q →
  s.ptrs[q.1]? = some ⟨some q.2, .idle⟩

theorem arg_some (h : s.arg src = some inp) {q : Nat × Address} (hq : inp = some q)
    (hs : ∀ j, src = some j → s.Still j) : s.ptrs[q.1]? = some ⟨some q.2, .idle⟩ := by
  subst hq
  cases src with
  | none => cases h
  | some j =>
    simp only [arg, Option.map_eq_some_iff] at h
    obtain ⟨p, hp, hptr⟩ := h
    obtain ⟨y, hy, rfl⟩ := hptr
    rw [hp, ← hy, ← hs j rfl p hp]

theorem Pinned.unpinned (h : s.Pinned) (hi : s.ptrs[i]? = some p) (hp : p.phase ≠ .idle) :
    s.Unpinned i := fun u hu q hq he => by
  have hidle := h u hu q hq
  rw [he, hi] at hidle
  exact hp (congrArg SPtr.phase (Option.some.inj hidle))

theorem Pinned.put (h : s.Pinned) (hu : s.Unpinned i)
    (hpin : ∀ q, p.pin = some q → q.1 ≠ i ∧ s.ptrs[q.1]? = some ⟨some q.2, .idle⟩) :
    (s.put i p).Pinned := by
  intro u hmem q hq
  have hkeep : q.1 ≠ i → s.ptrs[q.1]? = some ⟨some q.2, .idle⟩ →
      (s.put i p).ptrs[q.1]? = some ⟨some q.2, .idle⟩ := fun hne hget => by
    rw [PtrSys.put, List.getElem?_set_ne (Ne.symm hne)]
    exact hget
  rcases List.mem_or_eq_of_mem_set hmem with hmem | rfl
  · exact hkeep (hu u hmem q hq) (h u hmem q hq)
  · exact hkeep (hpin q hq).1 (hpin q hq).2

theorem Pinned.append (h : s.Pinned)
    (hpin : ∀ q, p.pin = some q → s.ptrs[q.1]? = some ⟨some q.2, .idle⟩) {g : GcSys}
    {m : Address → Bool} : Pinned ⟨g, s.ptrs ++ [p], m⟩ := by
  have hkeep : ∀ {j : Nat} {r : SPtr}, s.ptrs[j]? = some r → (s.ptrs ++ [p])[j]? = some r :=
    fun hget => by
      rw [List.getElem?_append_left (List.getElem?_eq_some_iff.mp hget).1]
      exact hget
  intro u hu q hq
  rcases List.mem_append.mp hu with hu | hu
  · exact hkeep (h u hu q hq)
  · exact hkeep (hpin q (List.mem_singleton.mp hu ▸ hq))

theorem store_pin (inp : PtrArg) : (SPtr.store inp).pin = inp := by
  cases inp <;> rfl

theorem store_refers (inp : PtrArg) (x : Address) : (SPtr.store inp).refers x = false := by
  cases inp with
  | none => rfl
  | some q => rfl

theorem countP_put (hi : s.ptrs[i]? = some p) (p' : SPtr) (f : SPtr → Bool) :
    (s.put i p').ptrs.countP f + (if f p then 1 else 0) =
      s.ptrs.countP f + if f p' then 1 else 0 := by
  obtain ⟨hlt, rfl⟩ := List.getElem?_eq_some_iff.mp hi
  have hle : (if f s.ptrs[i] then 1 else 0) ≤ s.ptrs.countP f := by
    split_ifs with hf
    · exact List.countP_pos_iff.mpr ⟨_, List.getElem_mem hlt, hf⟩
    · exact Nat.zero_le _
  rw [PtrSys.put, List.countP_set hlt]
  omega

/-- The references that are held are those of the variables. -/
structure Sound (s : PtrSys) : Prop where
  pinned : s.Pinned
  held : ∀ x, s.made x = true → s.gc.held x = s.ptrs.countP fun p => p.refers x
  unmade : ∀ x, s.made x = false → s.gc.held x = 1 ∧ ∀ p ∈ s.ptrs, p.refers x = false

theorem Sound.made (h : s.Sound) (hp : p ∈ s.ptrs) (hx : p.refers x = true) :
    s.made x = true := by
  cases hm : s.made x with
  | true => rfl
  | false => exact absurd hx (by rw [(h.unmade x hm).2 p hp]; exact Bool.false_ne_true)

theorem Sound.pos (h : s.Sound) (hp : p ∈ s.ptrs) (hx : p.refers x = true) :
    0 < s.gc.held x := by
  rw [h.held x (h.made hp hx)]
  exact List.countP_pos_iff.mpr ⟨p, hp, hx⟩

/-- A variable changes, and with it the references that are held. -/
theorem Sound.put (h : s.Sound) (hi : s.ptrs[i]? = some p) (hu : s.Unpinned i) {g : GcSys}
    (hpin : ∀ q, p'.pin = some q → q.1 ≠ i ∧ s.ptrs[q.1]? = some ⟨some q.2, .idle⟩)
    (hnew : ∀ x, p'.refers x = true → s.made x = true)
    (hheld : ∀ x, s.made x = true → g.held x + (if p.refers x then 1 else 0) =
      s.gc.held x + if p'.refers x then 1 else 0)
    (hun : ∀ x, s.made x = false → g.held x = s.gc.held x) :
    Sound (({ s with gc := g } : PtrSys).put i p') where
  pinned := h.pinned.put hu hpin
  held x hx := by
    have hcount := countP_put hi p' fun u => u.refers x
    have hgc := hheld x hx
    rw [h.held x hx] at hgc
    exact Nat.add_right_cancel (hgc.trans hcount.symm)
  unmade x hx := by
    have hm : s.made x = false := hx
    refine ⟨(hun x hm).trans (h.unmade x hm).1, fun u hmem => ?_⟩
    rcases List.mem_or_eq_of_mem_set hmem with hmem | rfl
    · exact (h.unmade x hm).2 u hmem
    · cases hr : u.refers x with
      | false => rfl
      | true => exact absurd (hnew x hr) (by rw [hm]; exact Bool.false_ne_true)

/-- A variable changes, and no reference with it. -/
theorem Sound.rewrite (h : s.Sound) (hi : s.ptrs[i]? = some p) (hu : s.Unpinned i)
    (hpin : ∀ q, p'.pin = some q → q.1 ≠ i ∧ s.ptrs[q.1]? = some ⟨some q.2, .idle⟩)
    (hsame : ∀ x, p'.refers x = p.refers x) : (s.put i p').Sound := by
  refine h.put hi hu hpin (fun x hx => ?_) (fun x _ => ?_) fun x _ => rfl
  · rw [hsame] at hx
    exact h.made (List.mem_of_getElem? hi) hx
  · rw [hsame]

theorem refers_idle {y : Address} : (SPtr.mk (some y) .idle).refers x = decide (y = x) := by
  rw [Bool.eq_iff_iff]
  simp [SPtr.refers]

theorem held_relref {g : GcSys} (h : s.gc.step (.relref x) = some (g, os)) :
    g.held = Function.update s.gc.held x (s.gc.held x - 1) :=
  (GcSys.step_moved h).held

theorem held_addref {g : GcSys} (h : s.gc.step (.addref x) = some (g, os))
    (hx : s.gc.ref x ≠ -1) : g.held = Function.update s.gc.held x (s.gc.held x + 1) := by
  have hheld := (GcSys.step_moved h).held
  simp only [hx, if_false] at hheld
  exact hheld

theorem held_outside {g : GcSys} {a : GcAct} (ha : Outside a) (h : s.gc.step a = some (g, os)) :
    g.held = s.gc.held := by
  have hheld := (GcSys.step_moved h).held
  cases a with
  | addref | relref => exact ha.elim
  | _ => exact hheld

theorem Sound.moved (h : s.Sound) (ha : s.gc.Alive) (hd : s.Disciplined a)
    (hs : PtrMoved s a t os) : t.Sound := by
  cases hs with
  | @construct x hx =>
    refine ⟨?_, fun y hy => ?_, fun y hy => ?_⟩
    · refine h.pinned.append fun q hq => ?_
      cases hq
    · rw [List.countP_append, List.countP_singleton, refers_idle]
      by_cases hxy : y = x
      · subst hxy
        have hnone : s.ptrs.countP (fun p => p.refers y) = 0 :=
          List.countP_eq_zero.mpr fun p hp => by
            rw [(h.unmade y hx).2 p hp]
            exact Bool.false_ne_true
        simp [hnone, (h.unmade y hx).1]
      · have hmade : s.made y = true := (Function.update_of_ne hxy ..).symm.trans hy
        simp [h.held y hmade, Ne.symm hxy]
    · have hy : Function.update s.made x true y = false := hy
      have hxy : y ≠ x := fun he => by
        rw [he, Function.update_self] at hy
        cases hy
      have hmade : s.made y = false := (Function.update_of_ne hxy ..).symm.trans hy
      refine ⟨(h.unmade y hmade).1, fun p hp => ?_⟩
      rcases List.mem_append.mp hp with hp | hp
      · exact (h.unmade y hmade).2 p hp
      · rw [List.mem_singleton.mp hp, refers_idle]
        exact decide_eq_false (Ne.symm hxy)
  | @initial src inp harg =>
    refine ⟨?_, fun y hy => ?_, fun y hy => ?_⟩
    · refine h.pinned.append fun q hq => ?_
      rw [store_pin] at hq
      exact arg_some harg hq hd
    · rw [List.countP_append, List.countP_singleton, store_refers]
      exact h.held y hy
    · refine ⟨(h.unmade y hy).1, fun p hp => ?_⟩
      rcases List.mem_append.mp hp with hp | hp
      · exact (h.unmade y hy).2 p hp
      · rw [List.mem_singleton.mp hp, store_refers]
  | same => exact h
  | @drop i src x inp hi harg hne =>
    refine h.rewrite hi hd.1 (fun q hq => ?_) fun y => rfl
    have hget := arg_some harg hq hd.2
    refine ⟨fun he => hne ?_, hget⟩
    rw [he, hi] at hget
    obtain ⟨hxq, -⟩ := SPtr.mk.inj (Option.some.inj hget)
    have hq' : inp = some q := hq
    rw [hq', hxq]
    rfl
  | @null i src inp hi harg hne =>
    refine h.rewrite hi hd.1 (fun q hq => ?_) fun y => rfl
    have hget := arg_some harg hq hd.2
    refine ⟨fun he => ?_, hget⟩
    rw [he, hi] at hget
    cases hget
  | @relref i x inp g os hi hg =>
    have hbusy : s.Unpinned i := h.pinned.unpinned hi (fun hp => by cases hp)
    have hmem := List.mem_of_getElem? hi
    have hx : (SPtr.mk (some x) (.dropping inp)).refers x = true := by simp [SPtr.refers]
    have hpos := h.pos hmem hx
    refine h.put hi hbusy (fun q hq => ?_) (fun y hy => ?_) (fun y hy => ?_) fun y hy => ?_
    · have hget := h.pinned _ hmem q hq
      exact ⟨fun he => hbusy _ hmem q hq he, hget⟩
    · cases hy
    · rw [held_relref hg]
      by_cases hxy : y = x
      · subst hxy
        rw [Function.update_self, hx]
        simp only [SPtr.refers, if_true, Bool.false_eq_true, if_false]
        omega
      · simp [Function.update_of_ne hxy, SPtr.refers, Ne.symm hxy]
    · rw [held_relref hg]
      refine Function.update_of_ne (fun he => ?_) ..
      rw [he, h.made hmem hx] at hy
      cases hy
  | @store i ptr inp hi =>
    have hbusy : s.Unpinned i := h.pinned.unpinned hi (fun hp => by cases hp)
    refine h.rewrite hi hbusy (fun q hq => ?_) fun y => ?_
    · rw [store_pin] at hq
      exact ⟨fun he => hbusy _ (List.mem_of_getElem? hi) q hq he,
        h.pinned _ (List.mem_of_getElem? hi) q hq⟩
    · rw [store_refers]
      rfl
  | @addref i j x g os hi hg =>
    have hbusy : s.Unpinned i := h.pinned.unpinned hi (fun hp => by cases hp)
    have hmem := List.mem_of_getElem? hi
    -- the variable that the argument is from has a reference of the object
    have hsrc := h.pinned _ hmem (j, x) rfl
    have hx : (SPtr.mk (some x) .idle).refers x = true := by simp [SPtr.refers]
    have hmade := h.made (List.mem_of_getElem? hsrc) hx
    have hheld := held_addref hg (ha x (h.pos (List.mem_of_getElem? hsrc) hx))
    refine h.put hi hbusy (fun q hq => ?_) (fun y hy => ?_) (fun y hy => ?_) fun y hy => ?_
    · cases hq
    · rw [refers_idle] at hy
      exact of_decide_eq_true hy ▸ hmade
    · rw [hheld, refers_idle]
      by_cases hxy : y = x
      · subst hxy
        simp [SPtr.refers]
      · simp [Function.update_of_ne hxy, SPtr.refers, Ne.symm hxy]
    · rw [hheld]
      refine Function.update_of_ne (fun he => ?_) ..
      rw [he, hmade] at hy
      cases hy
  | env hout hg =>
    have hheld := held_outside hout hg
    refine ⟨h.pinned, fun y hy => ?_, fun y hy => ?_⟩
    · exact (congrFun hheld y).trans (h.held y hy)
    · exact ⟨(congrFun hheld y).trans (h.unmade y hy).1, (h.unmade y hy).2⟩

-- ---------------------------------------------------------------------------
-- Runs
-- ---------------------------------------------------------------------------

/-- A run of the variables is a run of the counts, by callers who have what they drop. -/
structure Counted (tr : List GcObs) (s : PtrSys) : Prop where
  run : Gc.RunIf GcSys.Careful tr s.gc
  sound : s.Sound
  alive : s.gc.Alive

theorem Counted.gc {tr : List GcObs} (h : Counted tr s) {g : GcSys} {a : GcAct}
    (hc : s.gc.Careful a) (hg : s.gc.step a = some (g, os)) :
    Gc.RunIf GcSys.Careful (tr ++ os) g ∧ g.Alive := by
  obtain ⟨place, hb⟩ := GcSys.Books.run h.run
  exact ⟨h.run.step hc hg, (GcSys.step_moved hg).alive hb h.alive⟩

theorem Counted.silent {tr : List GcObs} (h : Counted tr s) (ht : t.Sound) (hg : t.gc = s.gc) :
    Counted (tr ++ []) t := by
  rw [List.append_nil]
  exact ⟨hg ▸ h.run, ht, hg ▸ h.alive⟩

theorem Counted.moved {tr : List GcObs} (h : Counted tr s) (hd : s.Disciplined a)
    (hs : PtrMoved s a t os) : Counted (tr ++ os) t := by
  have ht := h.sound.moved h.alive hd hs
  cases hs with
  | construct | initial | same | drop | null | store => exact h.silent ht rfl
  | @relref i x inp g os hi hg =>
    have hx : (SPtr.mk (some x) (.dropping inp)).refers x = true := by simp [SPtr.refers]
    have hpos := h.sound.pos (List.mem_of_getElem? hi) hx
    have hfresh : s.gc.Fresh x := hd x (by simp [dropping, hi])
    have hcare : s.gc.Careful (.relref x) :=
      ⟨.inr hpos, fun y hy => Option.some.inj hy ▸ hfresh⟩
    obtain ⟨hrun, halive⟩ := h.gc hcare hg
    exact ⟨hrun, ht, halive⟩
  | @addref i j x g os hi hg =>
    have hsrc := h.sound.pinned _ (List.mem_of_getElem? hi) (j, x) rfl
    have hx : (SPtr.mk (some x) .idle).refers x = true := by simp [SPtr.refers]
    have hpos := h.sound.pos (List.mem_of_getElem? hsrc) hx
    obtain ⟨place, hb⟩ := GcSys.Books.run h.run
    have hcount := hb.counts (h.alive x hpos)
    have href : s.gc.ref x ≠ 0 := by omega
    have hcare : s.gc.Careful (.addref x) := ⟨href, fun y hy => by cases hy⟩
    obtain ⟨hrun, halive⟩ := h.gc hcare hg
    exact ⟨hrun, ht, halive⟩
  | @env a g os hout hg =>
    have hhold : s.gc.Holding a := by
      cases a with
      | addref | relref => exact hout.elim
      | _ => trivial
    obtain ⟨hrun, halive⟩ := h.gc ⟨hhold, hd⟩ hg
    exact ⟨hrun, ht, halive⟩

theorem Counted.run_of {tr : List GcObs} (h : SmartPtr.RunIf Disciplined tr s) :
    Counted tr s := by
  refine h.invariant (I := Counted) ?_ ?_
  · rintro s rfl
    refine ⟨.start rfl, ⟨?_, fun x hx => ?_, fun x _ => ⟨rfl, ?_⟩⟩, fun x _ => ?_⟩
    · intro p hp
      cases hp
    · cases hx
    · intro p hp
      cases hp
    · exact fun hx => by cases hx
  · intro tr s a t os _ ih hd hs
    exact ih.moved hd (step_ptrMoved hs)

/-- What pointers are for. No object that a variable has a reference of is given up, or gone; and
once the collector has nothing left to do, the objects that no variable points to are gone. -/
structure Kept (tr : List GcObs) (s : PtrSys) : Prop where
  calm : s.gc.panicked = false
  valid : ∀ p ∈ s.ptrs, ∀ x, p.refers x = true → .queued x ∉ tr ∧ .deleted x ∉ tr
  pinned : ∀ p ∈ s.ptrs, ∀ q, p.pin = some q → .queued q.2 ∉ tr ∧ .deleted q.2 ∉ tr
  gone : s.gc.collector = .asleep → s.gc.raising = [] → ∀ x, s.made x = true →
    (∀ p ∈ s.ptrs, p.refers x = false) → tr.count (.deleted x) = 1

theorem Counted.valid {tr : List GcObs} (h : Counted tr s) {p : SPtr} (hp : p ∈ s.ptrs)
    {x : Address} (hx : p.refers x = true) : .queued x ∉ tr ∧ .deleted x ∉ tr := by
  have hrec := GcSys.Recorded.run h.run
  have hpos := h.sound.pos hp hx
  obtain ⟨place, hb⟩ := GcSys.Books.run h.run
  have hcount := hb.counts (h.alive x hpos)
  constructor
  · rw [← List.count_eq_zero, hrec.queued, if_neg (by omega)]
  · rw [← List.count_eq_zero, hrec.deleted, if_neg (by omega)]

theorem Counted.gone {tr : List GcObs} (h : Counted tr s) (hc : s.gc.collector = .asleep)
    (hr : s.gc.raising = []) {x : Address} (hm : s.made x = true)
    (hx : ∀ p ∈ s.ptrs, p.refers x = false) : tr.count (.deleted x) = 1 := by
  obtain ⟨place, hb⟩ := GcSys.Books.run h.run
  -- at rest the object is on no list, so nobody has a reference of it
  have hout := hb.lists.at_rest hc ((GcSys.Climbing.run h.run).idle hc hr) x
  have hheld : s.gc.held x = 0 := by
    rw [h.sound.held x hm]
    exact List.countP_eq_zero.mpr fun p hp => by
      rw [hx p hp]
      exact Bool.false_ne_true
  have hwait : s.gc.waiting x ≠ true := by simp [hb.waits x, hout]
  have hzero : s.gc.ref x ≠ 0 := by simp [hb.zero x, hout]
  rw [(GcSys.Recorded.run h.run).deleted, if_pos]
  by_contra hgone
  have href := hb.ref x hgone
  simp [hheld, hwait, hc, Collector.running] at href
  exact hzero href

end PtrSys

open PtrSys

/-- In every run in which variables are not written while they are read, and no object is put on a
`refEvent` list that is not fresh, pointers keep what they point to, and nothing else. -/
theorem smart_pointers {tr : List GcObs} {s : PtrSys} (h : SmartPtr.RunIf Disciplined tr s) :
    Kept tr s := by
  have hc := Counted.run_of h
  obtain ⟨place, hb⟩ := GcSys.Books.run hc.run
  refine ⟨hb.calm, fun p hp x hx => hc.valid hp hx, fun p hp q hq => ?_, ?_⟩
  · have hget := hc.sound.pinned p hp q hq
    exact hc.valid (List.mem_of_getElem? hget) (by simp [SPtr.refers])
  · exact fun ha hr x hm hx => hc.gone ha hr hm hx

/-- An object is made, and a second variable points to it when the first one is cleared; then the
second one is cleared too. -/
def copyAndClear : List PtrAct :=
  List.append [.env .gc, .construct 5, .initial (some 0), .go 1, .replace 0 none, .go 0, .go 0,
    .replace 1 none, .go 1, .go 1, .env (.raise 0), .env (.raise 0)]
    (List.replicate 10 (PtrAct.env .gc))

theorem smart_pointers_cleared : ∃ (tr : List GcObs) (s : PtrSys), .deleted 5 ∈ tr ∧
    s.gc.collector = .asleep ∧ s.gc.raising = [] ∧ Kept tr s := by
  obtain ⟨tr, s, h, hd, hc, hr⟩ := Machine.exists_run (M := SmartPtr) (C := Disciplined)
    (P := fun tr s => .deleted 5 ∈ tr ∧ s.gc.collector = .asleep ∧ s.gc.raising = [])
    copyAndClear rfl (by decide)
  exact ⟨tr, s, hd, hc, hr, smart_pointers h⟩

end TinyState
