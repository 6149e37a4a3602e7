import TinyState.Parallel.Join

/-!
# The cascade of cancel and destroy

A walk holds the next sibling while it destroys one. If that makes the next one
finish, its link is gone, and the walk ends there. As long as this does not
happen while anybody is left, and no call is turned away that would have found
somebody, each sibling of the list is destroyed or finishes by itself.
-/

namespace TinyState

open Transition LinkedList

/-- The siblings that a walk holds. -/
def Walk.held : Walk → List Nat
  | .at q | .inside q => q.toList
  | .holding p q => p :: q.toList
  | .finished => []

/-- Who has not finished and has not had its turn. -/
def Cascade.Left {φ : Type} (f : Cascade) (s : Parallel φ) (x : Nat) : Prop :=
  x ∈ f.listed ∧ x ∉ f.called ∧ (s.obj x).state.ended = false

/-- Nobody of the list is left. -/
def Cascade.Attended {φ : Type} (f : Cascade) (s : Parallel φ) : Prop :=
  ∀ x ∈ f.listed, x ∈ f.called ∨ (s.obj x).state.ended = true

instance {φ : Type} (f : Cascade) (s : Parallel φ) : Decidable (f.Attended s) :=
  inferInstanceAs (Decidable (∀ _ ∈ _, _))

namespace Parallel

variable {φ : Type} {fn : Option φ} {s t : Parallel φ} {tr : List (ParallelObs φ)} {x : Nat}
  {q : Option Nat} {f : Cascade} {R R' : Nat → Prop}

/-- Where the walk of `destroy` stands at a sibling that has finished, or `cancel`
finds the root destroyed by somebody else, nobody is left. -/
def Whole (s : Parallel φ) (f : Cascade) : Prop :=
  match f.walk with
  | .at (some p) => f.first = true ∨ s.Listed p ∨ f.Attended s
  | .at none => f.first = false ∨ s.isDestroyed 0 = false ∨ f.Attended s
  | _ => True

instance (s : Parallel φ) (f : Cascade) : Decidable (s.Whole f) := by
  unfold Whole
  split <;> infer_instance

/-- No call is turned away while there are siblings in the list, and no walk is cut short. -/
def Thorough (s : Parallel φ) : ParallelAct → Prop
  | .cancel _ => (s.obj 0).state = .zom ∨ (s.obj 0).cancelling = true → s.members = []
  | .destroy x => x = 0 → s.isDestroyed 0 = true → s.members = []
  | .cascade i => ∀ f ∈ s.cascades[i]?, s.Whole f
  | _ => True

instance (s : Parallel φ) : (a : ParallelAct) → Decidable (s.Thorough a)
  | .cancel _ => inferInstanceAs (Decidable (_ → _))
  | .destroy _ => inferInstanceAs (Decidable (_ → _ → _))
  | .cascade _ => inferInstanceAs (Decidable (∀ _ ∈ _, _))
  | .iniStart _ | .call _ | .spawn _ _ | .leave _ _ | .finStart _ | .zom _ => isTrue trivial

-- ---------------------------------------------------------------------------
-- What lies ahead of a walk
-- ---------------------------------------------------------------------------

/-- From `q` on, if it is in the list, the links lead to all with `R`. -/
def Ahead (s : Parallel φ) (q : Option Nat) (R : Nat → Prop) : Prop :=
  (∀ p, q = some p → s.Listed p) →
    ∃ m, Linked s.next q m ∧ (∀ y ∈ m, s.Listed y) ∧ ∀ x, R x → x ∈ m

theorem Ahead.mono (h : Ahead s q R) (hr : ∀ x, R' x → R x) : Ahead s q R' := by
  intro hq
  obtain ⟨m, hm, hl, hr'⟩ := h hq
  exact ⟨m, hm, hl, fun x hx => hr' x (hr x hx)⟩

theorem Ahead.none (h : Ahead s none R) : ¬R x := by
  obtain ⟨m, hm, -, hr⟩ := h nofun
  intro hx
  cases m with
  | nil => exact absurd (hr x hx) List.not_mem_nil
  | cons y m => cases hm.1

theorem ahead_none (h : ∀ x, ¬R x) : Ahead s none R :=
  fun _ => ⟨[], rfl, nofun, fun x hx => absurd hx (h x)⟩

/-- Going on from a sibling that is in the list. -/
theorem Ahead.tail {p : Nat} (h : Ahead s (some p) R) (hp : s.Listed p) :
    Ahead s (s.next p) fun x => R x ∧ x ≠ p := by
  intro _
  obtain ⟨m, hm, hl, hr⟩ := h fun y hy => Option.some.inj hy ▸ hp
  cases m with
  | nil => cases hm
  | cons y m =>
    obtain rfl : p = y := Option.some.inj hm.1
    refine ⟨m, hm.2, fun z hz => hl z (List.mem_cons_of_mem p hz), fun x hx => ?_⟩
    exact (List.mem_cons.mp (hr x hx.1)).resolve_left hx.2

/-- What lies ahead stays ahead, whatever becomes of the list, as long as the walk
does not hold somebody who is taken out. -/
theorem Ahead.links (h : Ahead s q R) (hl : Links s t)
    (hq : ∀ p, q = some p → (s.obj p).state ≠ .iniStart)
    (hr : ∀ x, R' x → R x ∧ (t.obj x).state.ended = false) : Ahead t q R' := by
  intro hqt
  cases hl.relinked with
  | same hn hlt =>
    obtain ⟨m, hm, hml, hmr⟩ := h fun p hp => (hlt p).mp (hqt p hp)
    exact ⟨m, hn ▸ hm, fun y hy => (hlt y).mpr (hml y hy), fun x hx => hmr x (hr x hx).1⟩
  | @push z hz hi hn hlt =>
    obtain ⟨m, hm, hml, hmr⟩ := h fun p hp =>
      ((hlt p).mp (hqt p hp)).resolve_right fun he => hq p hp (he ▸ hi)
    refine ⟨m, ?_, fun y hy => (hlt y).mpr (.inl (hml y hy)), fun x hx => hmr x (hr x hx).1⟩
    rw [hn]
    refine hm.frame fun y hy => ?_
    have hyl := hml y hy
    have hyz : y ≠ z := fun he => hyl.2.2.1 (he ▸ hi)
    rw [Function.update_of_ne hyl.1, Function.update_of_ne hyz]
  | @take z np hz he hnp huniq hn hlt =>
    obtain ⟨m, hm, hml, hmr⟩ := h fun p hp => ((hlt p).mp (hqt p hp)).1
    have hqz : q ≠ some z := fun hqz => ((hlt z).mp (hqt z hqz)).2 rfl
    refine ⟨m.erase z, ?_, fun y hy => ?_, fun x hx => ?_⟩
    · rw [hn]
      exact hm.unlink hqz (fun y _ hy => huniq y hy) hnp
    · obtain ⟨hyz, hym⟩ := hm.nodup.mem_erase_iff.mp hy
      exact (hlt y).mpr ⟨hml y hym, hyz⟩
    · obtain ⟨hxr, hxe⟩ := hr x hx
      refine hm.nodup.mem_erase_iff.mpr ⟨?_, hmr x hxr⟩
      rintro rfl
      cases he.symm.trans hxe

/-- The whole list lies ahead of its first sibling. -/
theorem Joined.ahead (h : Joined fn s) (hr : ∀ x, R x → s.Listed x) : Ahead s (s.next 0) R := by
  intro _
  obtain ⟨l, hl, hm⟩ := h.list
  exact ⟨l, hl, fun y hy => (hm y).mp hy, fun x hx => (hm x).mpr (hr x hx)⟩

-- ---------------------------------------------------------------------------
-- Calls under way
-- ---------------------------------------------------------------------------

/-- Who is left lies ahead. The walk of `cancel` need not find anybody, since that
of `destroy` comes after it. -/
def Onward (s : Parallel φ) (f : Cascade) : Prop :=
  match f.walk with
  | .at q | .inside q => f.first = false → s.Ahead q (f.Left s)
  | .holding p q => f.first = false → s.Ahead q fun x => f.Left s x ∧ x ≠ p
  | .finished => ∀ x, ¬f.Left s x

structure Going (s : Parallel φ) (f : Cascade) : Prop where
  listed : ∀ x ∈ f.listed, x ≠ 0 ∧ (s.obj x).state ≠ .iniStart
  held : ∀ x ∈ f.walk.held, x ≠ 0 ∧ (s.obj x).state ≠ .iniStart
  onward : s.Onward f

theorem attended_iff : f.Attended s ↔ ∀ x, ¬f.Left s x := by
  constructor
  · rintro h x ⟨hx, hc, he⟩
    rcases h x hx with h | h
    · exact hc h
    · cases he.symm.trans h
  · intro h x hx
    by_cases hc : x ∈ f.called
    · exact .inl hc
    · cases he : (s.obj x).state.ended with
      | true => exact .inr rfl
      | false => exact absurd ⟨hx, hc, he⟩ (h x)

theorem Going.left_listed (h : Going s f) (hj : Joined fn s) (hx : f.Left s x) : s.Listed x := by
  obtain ⟨h0, hi⟩ := h.listed x hx.1
  exact ⟨h0, hj.started hi, hi, hx.2.2⟩

/-- A step of the group goes on around the calls, which may be noting more. -/
theorem Going.links {f' : Cascade} (h : Going s f) (hl : Links s t)
    (hw : f'.walk = f.walk) (hf : f'.first = f.first) (hli : f'.listed = f.listed)
    (hc : ∀ x ∈ f.called, x ∈ f'.called) : Going t f' := by
  have hleft (x : Nat) (hx : f'.Left t x) : f.Left s x ∧ (t.obj x).state.ended = false := by
    obtain ⟨h₁, h₂, h₃⟩ := hx
    refine ⟨⟨hli ▸ h₁, fun hx => h₂ (hc x hx), ?_⟩, h₃⟩
    cases he : (s.obj x).state.ended with
    | false => rfl
    | true => cases h₃.symm.trans (hl.ended x he)
  refine ⟨fun x hx => ?_, fun x hx => ?_, ?_⟩
  · obtain ⟨h0, hi⟩ := h.listed x (hli ▸ hx)
    exact ⟨h0, hl.started x hi⟩
  · obtain ⟨h0, hi⟩ := h.held x (hw ▸ hx)
    exact ⟨h0, hl.started x hi⟩
  · have ho := h.onward
    have hh := h.held
    unfold Onward at ho ⊢
    rw [hw, hf]
    cases hwalk : f.walk with
    | «at» q | inside q =>
      rw [hwalk] at ho hh
      intro h1
      exact (ho h1).links hl (fun p hp => (hh p (by simp [Walk.held, hp])).2) hleft
    | holding p q =>
      rw [hwalk] at ho hh
      intro h1
      exact (ho h1).links hl (fun y hy => (hh y (by simp [Walk.held, hy])).2)
        fun x hx => ⟨⟨(hleft x hx.1).1, hx.2⟩, (hleft x hx.1).2⟩
    | finished =>
      rw [hwalk] at ho
      exact fun x hx => ho x (hleft x hx).1

theorem Joined.linked (h : Joined fn s) {p z : Nat} (hz : s.next p = some z) : s.Listed z := by
  by_cases hp : p = 0
  · have hl := h.list
    rw [← hp, hz] at hl
    exact hl.head
  · by_cases hpl : s.Listed p
    · obtain ⟨l, hl, hm⟩ := h.list
      have hl0 : Linked s.next (some 0) (0 :: l) := ⟨rfl, hl⟩
      exact (hm z).mp (hl0.succ_mem (List.mem_cons_of_mem 0 ((hm p).mpr hpl)) hz)
    · cases hz.symm.trans (h.unlinked p hp hpl)

theorem mem_members : x ∈ s.members ↔ s.Listed x := by
  simp only [members, List.mem_filter, List.mem_range, decide_eq_true_eq]
  exact ⟨And.right, fun h => ⟨h.2.1, h⟩⟩

theorem begin_same {first away : Bool} : Same s (s.begin first away) :=
  ⟨rfl, fun _ => .rfl, fun _ => id, fun _ => id⟩

/-- A call begins at the first sibling, or finds nobody to turn away from. -/
theorem Joined.going_begin (h : Joined fn s) {first away : Bool}
    (ha : away = true → s.members = []) :
    ∀ g ∈ (s.begin first away).cascades, g ∈ s.cascades ∨ Going s g := by
  intro g hg
  rcases List.mem_append.mp hg with hg | hg
  · exact .inl hg
  · obtain rfl := List.mem_singleton.mp hg
    refine .inr ⟨fun x hx => ?_, fun x hx => ?_, ?_⟩
    · have hl := mem_members.mp hx
      exact ⟨hl.1, hl.2.2.1⟩
    · cases away with
      | true => cases hx
      | false =>
        have hl := h.linked (Option.mem_toList.mp hx)
        exact ⟨hl.1, hl.2.2.1⟩
    · cases away with
      | true =>
        intro x hx
        have hm : x ∈ s.members := hx.1
        rw [ha rfl] at hm
        cases hm
      | false =>
        exact fun _ => h.ahead fun x hx => mem_members.mp hx.1

/-- A walk goes on from where nobody is left behind. -/
theorem Going.advance (h : Going s f) (hj : Joined fn s) (hw : s.Whole f)
    (hn : ∀ p q, f.walk ≠ .holding p q) : Going s (s.advance f) := by
  have hold := h.held
  have ho := h.onward
  unfold Whole at hw
  unfold Onward at ho
  unfold Parallel.advance
  have listed {z : Nat} (hz : s.Listed z) : z ≠ 0 ∧ (s.obj z).state ≠ .iniStart := ⟨hz.1, hz.2.2.1⟩
  split <;> rename_i hwalk <;> rw [hwalk] at hw ho hold
  · rename_i p
    have hp := hold p List.mem_cons_self
    refine ⟨h.listed, fun x hx => ?_, fun h1 => ?_⟩
    · rcases List.mem_cons.mp hx with rfl | hx
      · exact hp
      · exact listed (hj.linked (Option.mem_toList.mp hx))
    · by_cases hl : s.Listed p
      · exact (ho h1).tail hl
      · have ha : f.Attended s := by
          rcases hw with hw | hw | hw
          · cases hw.symm.trans h1
          · exact absurd hw hl
          · exact hw
        rw [hj.unlinked p hp.1 hl]
        exact ahead_none fun x hx => attended_iff.mp ha x hx.1
  · split
    · exact ⟨h.listed, fun x hx => listed (hj.linked (Option.mem_toList.mp hx)),
        fun _ => hj.ahead fun x hx => h.left_listed hj hx⟩
    · rename_i hc
      refine ⟨h.listed, nofun, fun x hx => ?_⟩
      cases h1 : f.first with
      | false => exact (ho h1).none hx
      | true =>
        rcases hw with hw | hw | hw
        · cases hw.symm.trans h1
        · exact hc ⟨h1, hw⟩
        · exact attended_iff.mp hw x hx
  · rename_i p q
    exact absurd hwalk (hn p q)
  · exact ⟨h.listed, hold, ho⟩
  · exact ⟨h.listed, by rw [hwalk]; exact hold, by unfold Onward; rw [hwalk]; exact ho⟩

/-- `destroy` is called on the sibling that the walk holds. -/
theorem Going.visit {p : Nat} (h : Going s f) (hw : f.walk = .holding p q) :
    Going s { s.advance f with called := p :: f.called } := by
  have hold := h.held
  have ho := h.onward
  unfold Onward at ho
  rw [hw] at hold ho
  simp only [Parallel.advance, hw]
  refine ⟨h.listed, fun x hx => hold x (List.mem_cons_of_mem p hx), fun h1 => ?_⟩
  refine (ho h1).mono fun x hx => ?_
  obtain ⟨h₁, h₂, h₃⟩ := hx
  exact ⟨⟨h₁, fun hc => h₂ (List.mem_cons_of_mem p hc), h₃⟩,
    fun he => h₂ (he ▸ List.mem_cons_self)⟩

-- ---------------------------------------------------------------------------
-- Runs
-- ---------------------------------------------------------------------------

/-- The calls of the state before, where only their notes may have grown. -/
theorem Going.same (h : Going s f) (hl : Links s t) : Going t f :=
  h.links hl rfl rfl rfl fun _ => id

theorem going_cascade {i : Nat} (hj : Joined fn s) (hg : ∀ f ∈ s.cascades, Going s f)
    (hf : f ∈ s.cascades) (hw : s.Whole f) (ht : s.cascade i f = some t) :
    ∀ g ∈ t.cascades, Going t g := by
  have hl := (hj.cascade ht).links
  unfold Parallel.cascade at ht
  dsimp only at ht
  split at ht
  · cases ht
  · rename_i p nxt hp
    cases ht
    have hcs : (((s.setCascade i (s.advance f)).note p).destroyBase p).cascades =
        (s.cascades.set i (s.advance f)).map fun g => { g with called := p :: g.called } := by
      unfold Parallel.destroyBase
      split <;> rfl
    rw [hcs]
    intro g hgt
    obtain ⟨g, hgs, rfl⟩ := List.mem_map.mp hgt
    rcases List.mem_or_eq_of_mem_set hgs with hgs | rfl
    · exact (hg g hgs).links hl rfl rfl rfl fun x hx => List.mem_cons_of_mem p hx
    · have hv := (hg f hf).visit hp
      have hc : (s.advance f).called = f.called := by simp only [Parallel.advance, hp]
      rw [← hc] at hv
      exact hv.same hl
  · rename_i hnh _
    cases ht
    have hcs : ((if (s.advance f).walk = .finished then s.destroyBase 0 else s).setCascade i
        (s.advance f)).cascades = s.cascades.set i (s.advance f) := by
      split
      · unfold Parallel.setCascade Parallel.destroyBase
        split <;> rfl
      · rfl
    rw [hcs]
    intro g hgt
    rcases List.mem_or_eq_of_mem_set hgt with hgt | rfl
    · exact (hg g hgt).same hl
    · exact ((hg f hf).advance hj hw (by assumption)).same hl

theorem iniStart_cascades : (s.iniStart x).cascades = s.cascades := by
  simp only [iniStart]
  split <;> rfl

theorem call_cascades : (s.call x).1.cascades = s.cascades := by
  unfold Parallel.call
  split <;> rfl

theorem leave_cascades (r : BodyEnd) : (s.leave x r).cascades = s.cascades := by
  cases r <;> rfl

theorem unlink_cascades (root : Nat) : (s.unlink x root).cascades = s.cascades := by
  unfold unlink
  split
  · rfl
  · dsimp only
    split <;> rfl

theorem finStart_cascades : (s.finStart x).1.cascades = s.cascades := by
  by_cases hr : (s.obj x).root = x
  · rw [finStart_root hr]
    split <;> rfl
  · rw [finStart_sibling hr]
    exact unlink_cascades _

theorem destroyBase_cascades : (s.destroyBase x).cascades = s.cascades := by
  unfold destroyBase
  split <;> rfl

theorem going_step {a : ParallelAct} {os : List (ParallelObs φ)} (hj : Joined fn s)
    (hg : ∀ f ∈ s.cascades, Going s f) (hc : s.Thorough a) (hs : s.step a = some (t, os)) :
    ∀ g ∈ t.cascades, Going t g := by
  have hl := (hj.step hs).links
  have around (ht : t.cascades = s.cascades) : ∀ g ∈ t.cascades, Going t g := by
    rw [ht]
    exact fun g hgs => (hg g hgs).same hl
  -- a call that begins in a state `u` with the same calls under way
  have beginning {u : Parallel φ} (hu : Joined fn u) (huc : u.cascades = s.cascades)
      (first away : Bool) (ha : away = true → u.members = []) (ht : t = u.begin first away)
      (hut : Links u t) : ∀ g ∈ t.cascades, Going t g := by
    intro g hgt
    rw [ht] at hgt
    rcases hu.going_begin ha g hgt with hgs | hgu
    · exact (hg g (huc ▸ hgs)).same hl
    · exact hgu.same hut
  cases a with
  | iniStart x =>
    obtain ⟨-, he⟩ := Option.ite_none_right_eq_some.mp hs
    cases he
    exact around iniStart_cascades
  | call x =>
    obtain ⟨-, he⟩ := Option.ite_none_right_eq_some.mp hs
    obtain ⟨rfl, rfl⟩ := Prod.ext_iff.mp (Option.some.inj he)
    exact around call_cascades
  | spawn x type =>
    obtain ⟨-, he⟩ := Option.ite_none_right_eq_some.mp hs
    cases he
    exact around rfl
  | leave x r =>
    obtain ⟨-, he⟩ := Option.ite_none_right_eq_some.mp hs
    cases he
    exact around (leave_cascades r)
  | finStart x =>
    obtain ⟨-, he⟩ := Option.ite_none_right_eq_some.mp hs
    obtain ⟨rfl, rfl⟩ := Prod.ext_iff.mp (Option.some.inj he)
    exact around finStart_cascades
  | zom x =>
    obtain ⟨-, he⟩ := Option.ite_none_right_eq_some.mp hs
    cases he
    exact around rfl
  | cancel x =>
    obtain ⟨-, he⟩ := Option.ite_none_right_eq_some.mp hs
    cases he
    by_cases hz : (s.obj 0).state = .zom ∨ (s.obj 0).cancelling = true
    · have ht : s.cancel = s.begin true true := if_pos hz
      exact beginning hj rfl true true (fun _ => hc hz) ht hl
    · have ht : s.cancel = (s.set 0 { s.obj 0 with cancelling := true }).begin true false :=
        if_neg hz
      have ha := set_agree (s := s) (x := 0) (w := { s.obj 0 with cancelling := true })
        ⟨rfl, rfl, rfl, rfl, rfl, rfl, rfl, rfl, rfl, id⟩
      have hu := hj.agree (t := s.set 0 { s.obj 0 with cancelling := true }) rfl ha
      refine beginning hu rfl true false nofun ht ?_
      rw [ht]
      exact begin_same.links
  | destroy x =>
    obtain ⟨-, he⟩ := Option.ite_none_right_eq_some.mp hs
    cases he
    by_cases hx : x = 0
    · by_cases hd : s.isDestroyed 0 = true
      · have ht : s.destroy x = s.begin false true := by rw [destroy, if_pos hx, if_pos hd]
        exact beginning hj rfl false true (fun _ => hc hx hd) ht hl
      · have ht : s.destroy x = s.begin false false := by rw [destroy, if_pos hx, if_neg hd]
        exact beginning hj rfl false false nofun ht hl
    · have ht : s.destroy x = s.destroyBase x := if_neg hx
      exact around (by rw [ht, destroyBase_cascades])
  | cascade i =>
    obtain ⟨f, hf, he⟩ := Option.bind_eq_some_iff.mp hs
    obtain ⟨u, hu, he⟩ := Option.map_eq_some_iff.mp he
    cases he
    exact going_cascade hj hg (List.mem_of_getElem? hf) (hc f hf) hu

/-- **The cascade.** Where no walk is cut short and no call is turned away from
siblings, whoever was in the list when `cancel` or `destroy` was called on the
root has finished or been destroyed when the call returns. -/
theorem cascade_law {type : Int} (h : (machine type fn).RunIf Thorough tr s) :
    ∀ f ∈ s.cascades, f.walk = .finished →
      ∀ x ∈ f.listed, x ∈ f.called ∨ (s.obj x).state.ended = true := by
  have hi : Joined fn s ∧ ∀ f ∈ s.cascades, Going s f := by
    refine h.stateInvariant (I := fun s => Joined fn s ∧ ∀ f ∈ s.cascades, Going s f) ?_ ?_
    · rintro _ rfl
      exact ⟨.initial type fn, nofun⟩
    · intro s a t os ⟨hj, hg⟩ hc hs
      exact ⟨(hj.step hs).joined, going_step hj hg hc hs⟩
  intro f hf hw
  have ho := (hi.2 f hf).onward
  unfold Onward at ho
  rw [hw] at ho
  exact attended_iff.mpr ho

/-- The root and three siblings whose bodies wait. The list is 3, 2, 1. -/
def threeWaiting : List ParallelAct :=
  [.iniStart 0, .call 0, .spawn 0 (-1), .iniStart 1, .call 1, .leave 1 .stay, .spawn 0 (-1),
    .iniStart 2, .call 2, .leave 2 .stay, .spawn 0 (-1), .iniStart 3, .call 3, .leave 3 .stay,
    .leave 0 .stay]

/-- Sibling 3 finishes while it is being destroyed; 2 and 1 are destroyed after it. -/
theorem cascade_law_three : ∃ tr s, (machine 0 (some 7)).RunIf Thorough tr s ∧
    s.cascades = [⟨false, .finished, [1, 2, 3], [1, 2, 3]⟩] ∧
    ∀ f ∈ s.cascades, f.walk = .finished →
      ∀ x ∈ f.listed, x ∈ f.called ∨ (s.obj x).state.ended = true := by
  obtain ⟨tr, s, h, hp⟩ := Machine.exists_run (M := machine 0 (some 7)) (C := Thorough)
    (P := fun _ s => s.cascades = [⟨false, .finished, [1, 2, 3], [1, 2, 3]⟩])
    (List.append threeWaiting [.destroy 0, .cascade 0, .cascade 0, .call 3, .leave 3 .done,
      .finStart 3, .cascade 0, .cascade 0, .cascade 0, .cascade 0, .cascade 0, .cascade 0,
      .cascade 0, .cascade 0]) rfl (by decide +kernel)
  exact ⟨tr, s, h, hp, cascade_law h⟩

/-- While sibling 3 is being destroyed it makes 2 finish, which the walk holds: it
ends there, and sibling 1 goes on as if nothing had happened. -/
theorem sibling_skipped : ∃ tr s, (machine 0 (some 7)).Run tr s ∧
    s.cascades = [⟨false, .finished, [1, 2, 3], [2, 3]⟩] ∧ (s.obj 1).state = .actStart ∧
      (s.obj 1).destroyFlag = false := by
  exact Machine.exists_run (M := machine 0 (some 7)) (C := fun _ _ => True)
    (P := fun _ s => s.cascades = [⟨false, .finished, [1, 2, 3], [2, 3]⟩] ∧
      (s.obj 1).state = .actStart ∧ (s.obj 1).destroyFlag = false)
    (List.append threeWaiting [.destroy 0, .cascade 0, .cascade 0, .call 3, .call 2,
      .leave 2 .done, .finStart 2, .leave 3 .done, .finStart 3, .cascade 0, .cascade 0, .cascade 0, .cascade 0,
      .cascade 0]) rfl (by decide +kernel)

end Parallel

end TinyState
