import Mathlib.Logic.Relation
import Mathlib.Logic.Function.Basic
import Mathlib.Data.List.ProdSigma
import Mathlib.Data.List.Nodup
import TinyState.Lib.Saturation

/-!
# What tspig2 puts into a page

Each page refers to the pages that it includes, and the references of these are added to its own
until nothing is added any more, in whatever order the pages and the references come.
-/

set_option linter.unusedSectionVars false

namespace TinyState.Tspig2

open Relation
open Rounds (Returns)

-- ---------------------------------------------------------------------------
-- Model
-- ---------------------------------------------------------------------------

/-- The pages of `%html`, known by their codes. An include that no page is found for ends the
compiler. -/
structure Site (κ : Type*) where
  pages : List κ
  includes : κ → List κ
  known : ∀ p, ∀ q ∈ includes p, q ∈ pages

/-- The order in which a call of `keys` gives what there is; the calls are numbered. -/
structure KeyOrder (κ : Type*) where
  keys : Nat → List κ → List κ
  perm : ∀ n l, (keys n l).Perm l

/-- `{ref}` of each page, and the number of calls of `keys`. -/
structure Refs (κ : Type*) where
  ref : κ → List κ
  time : Nat

variable {κ : Type*} [DecidableEq κ]

namespace Refs

def tick (s : Refs κ) : Refs κ := { s with time := s.time + 1 }

/-- The body of the inner loop of `parse_getref`, with `$ret`. -/
def addRef (p : κ) (x : Refs κ × Bool) (rcode : κ) : Refs κ × Bool :=
  if rcode ∈ x.1.ref p then x
  else ({ x.1 with ref := Function.update x.1.ref p (rcode :: x.1.ref p) }, true)

/-- The body of the outer loop of `parse_getref`. -/
def addRefs (o : KeyOrder κ) (p : κ) (x : Refs κ × Bool) (code : κ) : Refs κ × Bool :=
  (o.keys x.1.time (x.1.ref code)).foldl (addRef p) (x.1.tick, x.2)

def parse_getref (o : KeyOrder κ) (p : κ) (s : Refs κ) : Refs κ × Bool :=
  (o.keys s.time (s.ref p)).foldl (addRefs o p) (s.tick, false)

def getref (o : KeyOrder κ) (x : Refs κ × Bool) (p : κ) : Refs κ × Bool :=
  ((parse_getref o p x.1).1, x.2 || (parse_getref o p x.1).2)

/-- One round of the loop in `scan_html`, with `$flag`. -/
def round (o : KeyOrder κ) (pages : List κ) (s : Refs κ) : Refs κ × Bool :=
  (o.keys s.time pages).foldl (getref o) (s.tick, false)

end Refs

/-- `{ref}` as `parse_include` leaves it. -/
def Site.parse_include (site : Site κ) (p : κ) : List κ :=
  (site.includes p).foldl (fun l q => l.insert q) []

/-- The loop of `scan_html`, with a bound on its rounds. -/
def Site.scan_html (site : Site κ) (o : KeyOrder κ) (fuel : Nat) : Option (Refs κ) :=
  Saturation.loop (Refs.round o site.pages) fuel ⟨site.parse_include, 0⟩

/-- `p` includes `q`. -/
def Site.Includes (site : Site κ) (p q : κ) : Prop := q ∈ site.includes p

-- ---------------------------------------------------------------------------
-- What is added
-- ---------------------------------------------------------------------------

/-- References are reachable, each there once, and those that are included are there. -/
structure Sound (site : Site κ) (s : Refs κ) : Prop where
  reach : ∀ p q, q ∈ s.ref p → TransGen site.Includes p q
  included : ∀ p q, site.Includes p q → q ∈ s.ref p
  nodup : ∀ p, (s.ref p).Nodup

/-- Between `x` and `y` references have been added, or nothing has been, as the flag says. -/
structure Added (site : Site κ) (x y : Refs κ × Bool) : Prop where
  sub : ∀ p, x.1.ref p ⊆ y.1.ref p
  quiet : y.2 = false → x.2 = false ∧ y.1.ref = x.1.ref
  new : x.2 = false → y.2 = true → ∃ p ∈ site.pages, ∃ q, q ∈ y.1.ref p ∧ q ∉ x.1.ref p
  sound : Sound site x.1 → Sound site y.1

variable {site : Site κ} {o : KeyOrder κ} {s t : Refs κ} {x y z : Refs κ × Bool} {p q r : κ}
  {l : List κ}

theorem Added.refl (x : Refs κ × Bool) : Added site x x where
  sub _ := List.Subset.refl _
  quiet h := ⟨h, rfl⟩
  new h h' := absurd (h.symm.trans h') Bool.false_ne_true
  sound := id

theorem Added.trans (h : Added site x y) (h' : Added site y z) : Added site x z where
  sub p := List.Subset.trans (h.sub p) (h'.sub p)
  quiet hz := by
    obtain ⟨hy, hyz⟩ := h'.quiet hz
    obtain ⟨hx, hxy⟩ := h.quiet hy
    exact ⟨hx, hyz.trans hxy⟩
  new hx hz := by
    cases hy : y.2 with
    | false =>
      obtain ⟨p, hp, q, hq, hn⟩ := h'.new hy hz
      exact ⟨p, hp, q, hq, fun hm => hn (h.sub p hm)⟩
    | true =>
      obtain ⟨p, hp, q, hq, hn⟩ := h.new hx hy
      exact ⟨p, hp, q, h'.sub p hq, hn⟩
  sound := h'.sound ∘ h.sound

theorem Added.tick (s : Refs κ) (b : Bool) : Added site (s, b) (s.tick, b) where
  sub _ := List.Subset.refl _
  quiet h := ⟨h, rfl⟩
  new h h' := absurd (h.symm.trans h') Bool.false_ne_true
  sound h := ⟨h.reach, h.included, h.nodup⟩

/-- A loop adds when its rounds do. -/
theorem Added.foldl {f : Refs κ × Bool → κ → Refs κ × Bool}
    (h : ∀ a ∈ l, ∀ x, Sound site x.1 → Added site x (f x a)) (hx : Sound site x.1) :
    Added site x (l.foldl f x) := by
  induction l generalizing x with
  | nil => exact .refl x
  | cons a l ih =>
    have ha := h a List.mem_cons_self x hx
    exact ha.trans (ih (fun b hb => h b (List.mem_cons_of_mem _ hb)) (ha.sound hx))

/-- When a loop has added nothing, none of its rounds has. -/
theorem foldl_quiet {f : Refs κ × Bool → κ → Refs κ × Bool}
    (h : ∀ a ∈ l, ∀ x, Sound site x.1 → Added site x (f x a)) (hx : Sound site x.1)
    (hq : (l.foldl f x).2 = false) :
    ∀ a ∈ l, ∃ y, Sound site y.1 ∧ y.1.ref = x.1.ref ∧ (f y a).2 = false := by
  induction l generalizing x with
  | nil => exact fun a ha => absurd ha List.not_mem_nil
  | cons b l ih =>
    have hrest : ∀ a ∈ l, ∀ x, Sound site x.1 → Added site x (f x a) :=
      fun a ha => h a (List.mem_cons_of_mem _ ha)
    have hb := h b List.mem_cons_self x hx
    have hfb := ((Added.foldl hrest (hb.sound hx)).quiet hq).1
    intro a ha
    rcases List.mem_cons.mp ha with rfl | ha
    · exact ⟨x, hx, rfl, hfb⟩
    · obtain ⟨y, hs, hy, hfy⟩ := ih hrest (hb.sound hx) hq a ha
      exact ⟨y, hs, hy.trans (hb.quiet hfb).2, hfy⟩

/-- A reference is added that is reachable. -/
theorem added_addRef (hp : p ∈ site.pages) (hr : TransGen site.Includes p r)
    (x : Refs κ × Bool) : Added site x (Refs.addRef p x r) := by
  rw [Refs.addRef]
  split
  · exact .refl x
  · next hn =>
    have hmem : ∀ c d, d ∈ Function.update x.1.ref p (r :: x.1.ref p) c ↔
        d ∈ x.1.ref c ∨ c = p ∧ d = r := by
      intro c d
      rcases eq_or_ne c p with rfl | hc
      · simp [or_comm]
      · simp [hc]
    refine ⟨fun c d hd => (hmem c d).mpr (.inl hd), nofun,
      fun _ _ => ⟨p, hp, r, (hmem p r).mpr (.inr ⟨rfl, rfl⟩), hn⟩, fun hs => ⟨?_, ?_, ?_⟩⟩
    · intro c d hd
      rcases (hmem c d).mp hd with hd | ⟨rfl, rfl⟩
      · exact hs.reach c d hd
      · exact hr
    · exact fun c d hcd => (hmem c d).mpr (.inl (hs.included c d hcd))
    · intro c
      change (Function.update x.1.ref p (r :: x.1.ref p) c).Nodup
      rcases eq_or_ne c p with rfl | hc
      · rw [Function.update_self]
        exact List.nodup_cons.mpr ⟨hn, hs.nodup c⟩
      · rw [Function.update_of_ne hc]
        exact hs.nodup c

/-- What the inner loop goes over is reachable behind `code`. -/
theorem added_inner (hp : p ∈ site.pages) (hq : TransGen site.Includes p q)
    (hs : Sound site x.1) : ∀ r ∈ o.keys x.1.time (x.1.ref q), ∀ y, Sound site y.1 →
      Added site y (Refs.addRef p y r) := by
  intro r hr y _
  have hr := (o.perm _ _).mem_iff.mp hr
  exact added_addRef hp (hq.trans (hs.reach q r hr)) y

theorem added_addRefs (hp : p ∈ site.pages) (hq : TransGen site.Includes p q)
    (hs : Sound site x.1) : Added site x (Refs.addRefs o p x q) :=
  have ht := Added.tick x.1 x.2
  ht.trans (Added.foldl (added_inner hp hq hs) (ht.sound hs))

theorem added_outer (hp : p ∈ site.pages) (hs : Sound site s) :
    ∀ q ∈ o.keys s.time (s.ref p), ∀ y, Sound site y.1 → Added site y (Refs.addRefs o p y q) := by
  intro q hq y hy
  have hq := (o.perm _ _).mem_iff.mp hq
  exact added_addRefs hp (hs.reach p q hq) hy

theorem added_parse_getref (hp : p ∈ site.pages) (hs : Sound site s) :
    Added site (s, false) (s.parse_getref o p) :=
  have ht := Added.tick s false
  ht.trans (Added.foldl (added_outer hp hs) (ht.sound hs))

theorem added_getref (hs : Sound site x.1) (hp : p ∈ site.pages) :
    Added site x (Refs.getref o x p) := by
  have h := added_parse_getref (o := o) hp hs
  refine ⟨h.sub, fun hq => ?_, fun hx hn => ?_, h.sound⟩
  · obtain ⟨hx, hr⟩ := Bool.or_eq_false_iff.mp hq
    exact ⟨hx, (h.quiet hr).2⟩
  · have hr : (x.1.parse_getref o p).2 = true := by
      rwa [Refs.getref, hx, Bool.false_or] at hn
    exact h.new rfl hr

theorem added_pages (s : Refs κ) : ∀ p ∈ o.keys s.time site.pages, ∀ y, Sound site y.1 →
    Added site y (Refs.getref o y p) :=
  fun _ hp _ hy => added_getref hy ((o.perm _ _).mem_iff.mp hp)

theorem added_round (hs : Sound site s) : Added site (s, false) (s.round o site.pages) :=
  have ht := Added.tick s false
  ht.trans (Added.foldl (added_pages s) (ht.sound hs))

-- ---------------------------------------------------------------------------
-- When nothing is added any more
-- ---------------------------------------------------------------------------

/-- Where `parse_getref` adds nothing, the references of references are there. -/
theorem closed_of_quiet (hp : p ∈ site.pages) (hs : Sound site s)
    (hq : (s.parse_getref o p).2 = false) (hpq : q ∈ s.ref p) (hqr : r ∈ s.ref q) :
    r ∈ s.ref p := by
  have ht := (Added.tick s false).sound hs
  obtain ⟨y, hy, hey, hfy⟩ := foldl_quiet (added_outer hp hs) ht hq q
    ((o.perm _ _).mem_iff.mpr hpq)
  have hty := (Added.tick y.1 y.2).sound hy
  have hr : r ∈ o.keys y.1.time (y.1.ref q) := by
    rw [(o.perm _ _).mem_iff, hey]
    exact hqr
  obtain ⟨z, -, hez, hfz⟩ := foldl_quiet (added_inner hp (hs.reach p q hpq) hy) hty hfy r hr
  rw [Refs.addRef] at hfz
  split at hfz
  · next hmem =>
    rw [hez] at hmem
    change r ∈ y.1.ref p at hmem
    rwa [hey] at hmem
  · cases hfz

theorem closed_of_round (hs : Sound site s) (hq : (s.round o site.pages).2 = false)
    (hp : p ∈ site.pages) (hpq : q ∈ s.ref p) (hqr : r ∈ s.ref q) : r ∈ s.ref p := by
  have ht := (Added.tick s false).sound hs
  obtain ⟨y, hy, hey, hfy⟩ := foldl_quiet (added_pages s) ht hq p ((o.perm _ _).mem_iff.mpr hp)
  have hey : y.1.ref = s.ref := hey
  have hr := (Bool.or_eq_false_iff.mp hfy).2
  rw [← hey] at hpq hqr ⊢
  exact closed_of_quiet hp hy hr hpq hqr

/-- All that is reachable is there. -/
theorem mem_of_reach (hs : Sound site s) (hq : (s.round o site.pages).2 = false)
    (hp : p ∈ site.pages) (h : TransGen site.Includes p q) : q ∈ s.ref p := by
  induction h with
  | single h => exact hs.included _ _ h
  | tail _ h ih => exact closed_of_round hs hq hp ih (hs.included _ _ h)

-- ---------------------------------------------------------------------------
-- The loop ends
-- ---------------------------------------------------------------------------

/-- The pairs of pages whose reference is not there. -/
def missingRefs (site : Site κ) (s : Refs κ) : List (κ × κ) :=
  (site.pages ×ˢ site.pages).filter fun x => x.2 ∉ s.ref x.1

theorem reach_mem (h : TransGen site.Includes p q) : q ∈ site.pages := by
  cases h with
  | single h => exact site.known _ _ h
  | tail _ h => exact site.known _ _ h

theorem missingRefs_lt (hs : Sound site s) (hr : (s.round o site.pages).2 = true) :
    (missingRefs site (s.round o site.pages).1).length < (missingRefs site s).length := by
  have h := added_round (o := o) hs
  obtain ⟨p, hp, q, hq, hn⟩ := h.new rfl hr
  have hpq : (p, q) ∈ site.pages ×ˢ site.pages :=
    List.mem_product.mpr ⟨hp, reach_mem ((h.sound hs).reach p q hq)⟩
  refine Saturation.filter_length_lt (fun x hx => ?_) hpq (by simpa using hn) (by simpa using hq)
  simp only [decide_eq_true_eq] at hx ⊢
  exact fun hm => hx (h.sub x.1 hm)

theorem sound_start (site : Site κ) : Sound site ⟨site.parse_include, 0⟩ := by
  have h : ∀ (l : List κ) (r : List κ), r.Nodup → (l.foldl (fun l q => l.insert q) r).Nodup ∧
      ∀ q, q ∈ l.foldl (fun l q => l.insert q) r ↔ q ∈ r ∨ q ∈ l := by
    intro l
    induction l with
    | nil => exact fun r hr => ⟨hr, by simp⟩
    | cons a l ih =>
      intro r hr
      obtain ⟨hn, hm⟩ := ih (r.insert a) (hr.insert)
      refine ⟨hn, fun q => ?_⟩
      rw [List.foldl_cons, hm, List.mem_insert_iff, List.mem_cons]
      tauto
  constructor
  · intro p q hq
    exact .single (((h (site.includes p) [] .nil).2 q).mp hq |>.resolve_left List.not_mem_nil)
  · intro p q hq
    exact ((h (site.includes p) [] .nil).2 q).mpr (.inr hq)
  · exact fun p => (h (site.includes p) [] .nil).1

/-- Whatever the order is, the loop ends, and each page then has the pages that are reachable
from it by one or more includes, each once. -/
theorem scan_html_closure (site : Site κ) (o : KeyOrder κ) :
    ∃ t, Returns (site.scan_html o) t ∧ ∀ p ∈ site.pages, (t.ref p).Nodup ∧
      ∀ q, q ∈ t.ref p ↔ TransGen site.Includes p q := by
  obtain ⟨u, hu, hq, hret⟩ := Saturation.loop_returns (Sound site)
    (fun s => (missingRefs site s).length) (fun s hs => (added_round (o := o) hs).sound hs)
    (fun s hs hr => missingRefs_lt hs hr) ⟨site.parse_include, 0⟩ (sound_start site)
  have hsame : (u.round o site.pages).1.ref = u.ref := ((added_round hu).quiet hq).2
  refine ⟨_, hret, fun p hp => ?_⟩
  rw [hsame]
  exact ⟨hu.nodup p, fun q => ⟨hu.reach p q, mem_of_reach hu hq hp⟩⟩

end TinyState.Tspig2
