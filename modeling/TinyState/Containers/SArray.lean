import Mathlib.Algebra.Order.Ring.Int
import Mathlib.Data.List.Induction
import TinyState.Lib.Machine
import TinyState.Lib.DefaultExtension

/-!
# sArray

An array that grows when it is used behind its end. The storage is kept ahead of the length;
what lies between the two is put back to the default value whenever the length goes down, so
that growing again finds nothing old there.
-/

namespace TinyState

open Transition DefaultExtension

/-- What an `int` holds of a result: it wraps around. -/
def int32 (n : Int) : Int := n.bmod (2 ^ 32)

theorem int32_of_fits {n : Int} (h0 : 0 ≤ n) (h : n < 2 ^ 31) : int32 n = n :=
  Int.bmod_eq_of_le (by omega) (by omega)

theorem int32_lt (n : Int) : int32 n < 2 ^ 31 :=
  Int.bmod_lt (by decide)

/-- `sArray`. The storage is empty where the pointer is null. -/
structure SArray (α : Type) where
  leng : Int
  cap : Int
  ary : List α
  expand : Bool

namespace SArray

variable {α : Type}

/-- An element of an array, which has to lie inside it. -/
def load (ary : List α) (i : Int) : Option α := if 0 ≤ i then ary[i.toNat]? else none

def store (ary : List α) (i : Int) (x : α) : Option (List α) :=
  if 0 ≤ i ∧ i < ary.length then some (ary.set i.toNat x) else none

/-- The loop of `_realloc`, with `n` elements to go. -/
def copyLoop (tmp : List α) : Nat → Nat → List α → Option (List α)
  | 0, _, ary => some ary
  | n + 1, i, ary => do
    let x ← load tmp i
    let ary ← store ary i x
    copyLoop tmp n (i + 1) ary

section

variable [Inhabited α]

def newArray (n : Int) : Option (List α) :=
  if n < 0 then none else some (.replicate n.toNat default)

def _realloc (s : SArray α) (new_cap : Int) : Option (SArray α) := do
  let tmp := s.ary
  let ary ← newArray new_cap
  let clen := if s.leng < new_cap then s.leng else new_cap
  let ary ← copyLoop tmp clen.toNat 0 ary
  some { s with ary, cap := new_cap }

/-- The loop of `length` where the array gets shorter, with `n` slots to go. -/
def resetLoop : Nat → Nat → List α → Option (List α)
  | 0, _, ary => some ary
  | n + 1, i, ary => do
    let ary ← store ary i default
    resetLoop n (i + 1) ary

/-- The capacity that `length` asks for where there is not enough. -/
def new_cap (s : SArray α) (len : Int) : Int :=
  let new_cap := if s.cap = 0 then 8 else int32 (s.cap * 2)
  if new_cap < len then len else new_cap

def length (s : SArray α) (len : Int) : Option (SArray α) :=
  if len < 0 then
    if s.leng = s.cap ∨ s.ary.isEmpty then some s else s._realloc s.leng
  else if s.leng = len then some s
  else if s.cap < len then do
    let s ← s._realloc (s.new_cap len)
    some { s with leng := len }
  else if len < s.leng then do
    let ary ← resetLoop (s.leng - len).toNat len.toNat s.ary
    some { s with ary, leng := len }
  else some { s with leng := len }

/-- `operator[]`, up to the access. -/
def slot (s : SArray α) (index : Int) : Option (SArray α) :=
  if index < 0 then none
  else if s.expand = false then
    if s.leng ≤ index then none else some s
  else if s.leng ≤ index then s.length (int32 (index + 1))
  else some s

def read (s : SArray α) (index : Int) : Option (SArray α × α) := do
  let s ← s.slot index
  let x ← load s.ary index
  some (s, x)

def write (s : SArray α) (index : Int) (x : α) : Option (SArray α) := do
  let s ← s.slot index
  let ary ← store s.ary index x
  some { s with ary }

def push (s : SArray α) (inp : α) : Option (SArray α) := do
  let len := s.leng
  let s ← s.length (int32 (s.leng + 1))
  let ary ← store s.ary len inp
  some { s with ary }

/-- `ret` is what the local variable holds before anything is assigned to it. -/
def pop (s : SArray α) (ret : α) : Option (SArray α × α) :=
  if s.leng = 0 then some (s, ret)
  else do
    let ret ← load s.ary (s.leng - 1)
    let s ← s.length (s.leng - 1)
    some (s, ret)

/-- The loop of `unshift`. -/
def upLoop : Nat → List α → Option (List α)
  | 0, ary => some ary
  | i + 1, ary => do
    let x ← load ary i
    let ary ← store ary (i + 1 : Nat) x
    upLoop i ary

def unshift (s : SArray α) (inp : α) : Option (SArray α) := do
  let s ← s.length (int32 (s.leng + 1))
  let ary ← upLoop (s.leng - 1).toNat s.ary
  let ary ← store ary 0 inp
  some { s with ary }

/-- The loop of `shift`, with `n` elements to go. -/
def downLoop : Nat → Nat → List α → Option (List α)
  | 0, _, ary => some ary
  | n + 1, i, ary => do
    let x ← load ary (i + 1 : Nat)
    let ary ← store ary i x
    downLoop n (i + 1) ary

def shift (s : SArray α) (ret : α) : Option (SArray α × α) :=
  if s.leng = 0 then some (s, ret)
  else do
    let ret ← load s.ary 0
    let ary ← downLoop (s.leng - 1).toNat 0 s.ary
    let s ← { s with ary : SArray α }.length (s.leng - 1)
    some (s, ret)

/-- The constructors; the one without an argument is that of length 0. -/
def construct (len : Nat) : SArray α :=
  { leng := len, cap := len, ary := .replicate len default, expand := true }

end

/-- The elements below the length. -/
def contents (s : SArray α) : List α := s.ary.take s.leng.toNat

-- ---------------------------------------------------------------------------
-- The loops
-- ---------------------------------------------------------------------------

@[simp]
theorem load_append (p : List α) (x : α) (r : List α) :
    load (p ++ x :: r) (p.length : Int) = some x := by
  simp [load]

@[simp]
theorem store_append (p : List α) (y : α) (r : List α) (x : α) :
    store (p ++ y :: r) (p.length : Int) x = some (p ++ x :: r) := by
  have h : (p.length : Int) < (p ++ y :: r).length := by
    rw [List.length_append, List.length_cons]
    omega
  rw [store, if_pos ⟨Int.natCast_nonneg _, h⟩]
  simp

theorem copyLoop_eq (m o p q p' r : List α) (hp : p'.length = p.length)
    (hm : o.length = m.length) :
    copyLoop (p ++ (m ++ q)) m.length p.length (p' ++ (o ++ r)) = some (p' ++ (m ++ r)) := by
  induction m generalizing o p p' with
  | nil =>
    obtain rfl : o = [] := List.length_eq_zero_iff.mp hm
    rfl
  | cons x m ih =>
    cases o with
    | nil => cases hm
    | cons y o =>
      have hl : load (p ++ (x :: m ++ q)) (p.length : Int) = some x := load_append p x _
      have hs : store (p' ++ (y :: o ++ r)) (p.length : Int) x = some (p' ++ x :: (o ++ r)) :=
        hp ▸ store_append p' y _ x
      have hrec := ih o (p ++ [x]) (p' ++ [x]) (by simp [hp]) (Nat.succ.inj hm)
      simp only [List.length_append, List.length_singleton, List.append_assoc,
        List.singleton_append] at hrec
      simp only [List.length_cons, copyLoop, hl, hs, Option.bind_eq_bind, Option.bind_some]
      exact hrec

theorem upLoop_eq (l : List α) (y : α) (r : List α) :
    upLoop l.length (l ++ y :: r) = some (l.headD y :: (l ++ r)) := by
  induction l using List.reverseRecOn generalizing y r with
  | nil => rfl
  | append_singleton l x ih =>
    have hl : load (l ++ [x] ++ y :: r) (l.length : Int) = some x := by
      rw [List.append_assoc]
      exact load_append l x _
    have hs : store (l ++ [x] ++ y :: r) ((l.length + 1 : Nat) : Int) x =
        some (l ++ x :: x :: r) := by
      have h := store_append (l ++ [x]) y r x
      rwa [List.length_append, List.length_singleton, List.append_assoc l [x] (x :: r)] at h
    have hh : (l ++ [x]).headD y = l.headD x := by cases l <;> rfl
    rw [List.length_append, List.length_singleton]
    simp only [upLoop, hl, hs, Option.bind_eq_bind, Option.bind_some]
    rw [ih, hh, List.append_assoc]
    rfl

theorem downLoop_eq (m : List α) (p : List α) (y : α) (r : List α) :
    downLoop m.length p.length (p ++ y :: (m ++ r)) =
      some (p ++ (m ++ m.getLastD y :: r)) := by
  induction m generalizing p y with
  | nil => rfl
  | cons x m ih =>
    have hl : load (p ++ y :: (x :: m ++ r)) ((p.length + 1 : Nat) : Int) = some x := by
      have h := load_append (p ++ [y]) x (m ++ r)
      rwa [List.length_append, List.length_singleton, List.append_assoc] at h
    have hs : store (p ++ y :: (x :: m ++ r)) (p.length : Int) x =
        some (p ++ x :: (x :: m ++ r)) := store_append p y _ x
    have hrec := ih (p ++ [x]) x
    simp only [List.length_append, List.length_singleton, List.append_assoc,
      List.singleton_append] at hrec
    simp only [List.length_cons, downLoop, hl, hs, Option.bind_eq_bind, Option.bind_some]
    rw [List.getLastD_cons]
    exact hrec

theorem le_new_cap (s : SArray α) (n : Int) : n ≤ s.new_cap n := by
  simp only [new_cap]
  split <;> omega

theorem new_cap_lt (s : SArray α) {n : Int} (hn : n < 2 ^ 31) : s.new_cap n < 2 ^ 31 := by
  have hw := int32_lt (s.cap * 2)
  simp only [new_cap]
  split_ifs <;> omega

section

variable [Inhabited α]

theorem resetLoop_eq (m p r : List α) :
    resetLoop m.length p.length (p ++ (m ++ r)) =
      some (p ++ (List.replicate m.length default ++ r)) := by
  induction m generalizing p with
  | nil => rfl
  | cons x m ih =>
    have hs : store (p ++ (x :: m ++ r)) (p.length : Int) default =
        some (p ++ default :: (m ++ r)) := store_append p x _ default
    have hrec := ih (p ++ [default])
    simp only [List.length_append, List.length_singleton, List.append_assoc,
      List.singleton_append] at hrec
    simp only [List.length_cons, resetLoop, hs, Option.bind_eq_bind, Option.bind_some]
    exact hrec

-- ---------------------------------------------------------------------------
-- The operations
-- ---------------------------------------------------------------------------

/-- The array holds `l`, and the default value in every slot behind it. -/
structure Represents (s : SArray α) (l : List α) : Prop where
  leng : s.leng = l.length
  le : s.leng ≤ s.cap
  fits : s.cap < 2 ^ 31
  ary : s.ary = extend l s.cap.toNat
  expand : s.expand = true

variable {s : SArray α} {l : List α} {n : Nat} {x : α}

namespace Represents

theorem length_le (h : Represents s l) : l.length ≤ s.cap.toNat := by
  have h1 := h.leng
  have h2 := h.le
  omega

theorem cap_eq (h : Represents s l) : (s.cap.toNat : Int) = s.cap :=
  Int.toNat_of_nonneg (by have h1 := h.leng; have h2 := h.le; omega)

theorem length_lt (h : Represents s l) : l.length < 2 ^ 31 := by
  have h1 := h.leng
  have h2 := h.le
  have h3 := h.fits
  omega

theorem contents (h : Represents s l) : s.contents = l := by
  rw [SArray.contents, h.ary, h.leng, Int.toNat_natCast, take_extend]

/-- There are `cap` slots. -/
theorem slots (h : Represents s l) : s.ary.length = s.cap := by
  rw [h.ary, length_extend, Nat.max_eq_right h.length_le, h.cap_eq]

theorem spare (h : Represents s l) {i : Nat} (h0 : s.leng ≤ i) (hi : i < s.cap) :
    s.ary[i]? = some default := by
  have hl := h.leng
  rw [h.ary, getElem?_extend (by omega), List.getD_eq_getElem?_getD,
    List.getElem?_eq_none (by omega)]
  rfl

theorem construct (hn : n < 2 ^ 31) :
    Represents (construct n : SArray α) (.replicate n default) where
  leng := by simp [SArray.construct]
  le := Int.le_refl _
  fits := by simp only [SArray.construct]; omega
  ary := by rw [extend_of_le] <;> simp [SArray.construct]
  expand := rfl

theorem _realloc (h : Represents s l) {c : Int} (hc : s.leng ≤ c) (hfit : c < 2 ^ 31) :
    ∃ t, s._realloc c = some t ∧ Represents t l ∧ t.cap = c := by
  have hl := h.leng
  have h0 : ¬ c < 0 := by omega
  have hmin : (if s.leng < c then s.leng else c).toNat = l.length := by split <;> omega
  have hcopy := copyLoop_eq l (.replicate l.length default) [] (.replicate (s.cap.toNat - l.length)
    default) [] (.replicate (c.toNat - l.length) default) rfl (by simp)
  have hnew : (List.replicate l.length default ++
      List.replicate (c.toNat - l.length) default : List α) =
      .replicate c.toNat default := by
    rw [List.replicate_append_replicate, Nat.add_sub_cancel' (by omega)]
  rw [hnew] at hcopy
  refine ⟨{ s with ary := extend l c.toNat, cap := c }, ?_, ⟨hl, hc, hfit, rfl, h.expand⟩, rfl⟩
  simp only [SArray._realloc, newArray, if_neg h0, hmin, h.ary, Option.bind_eq_bind,
    Option.bind_some]
  exact congrArg (Option.bind · _) hcopy

/-- Where there is room, a greater length alone exposes default values. -/
theorem expose (h : Represents s l) (hn : l.length ≤ n) (hc : n ≤ s.cap) :
    Represents { s with leng := n } (extend l n) where
  leng := by rw [length_extend, Nat.max_eq_right hn]
  le := hc
  fits := h.fits
  ary := by
    rw [extend_extend (by simp only; omega)]
    exact h.ary
  expand := h.expand

/-- The slots that are given up are reset. -/
theorem reset (h : Represents s l) (hn : n < l.length) :
    ∃ ary, resetLoop (s.leng - n).toNat n s.ary = some ary ∧
      Represents { s with ary, leng := n } (l.take n) := by
  have hl := h.leng
  have hle := h.length_le
  have hto : (s.leng - n).toNat = (l.drop n).length := by
    rw [List.length_drop]
    omega
  have hloop := resetLoop_eq (l.drop n) (l.take n) (.replicate (s.cap.toNat - l.length) default)
  rw [← List.append_assoc, List.take_append_drop, List.length_take_of_le (Nat.le_of_lt hn),
    List.replicate_append_replicate] at hloop
  refine ⟨_, by rw [hto, h.ary]; exact hloop, ?_, ?_, h.fits, ?_, h.expand⟩
  · rw [List.length_take_of_le (Nat.le_of_lt hn)]
  · have hcap := h.cap_eq
    show (n : Int) ≤ s.cap
    omega
  · have hsum : l.length - n + (s.cap.toNat - l.length) = s.cap.toNat - n := by omega
    rw [extend, List.length_take_of_le (Nat.le_of_lt hn), List.length_drop, hsum]

/-- Setting the length is exposing default values, or dropping what is too much. -/
theorem resize (h : Represents s l) (hn : n < 2 ^ 31) :
    ∃ t, s.length n = some t ∧ Represents t (resize l n) := by
  have hl := h.leng
  have hle := h.le
  rw [SArray.length, if_neg (Int.not_lt.mpr (Int.natCast_nonneg n))]
  split_ifs with heq hgrow hlt
  · refine ⟨s, rfl, ?_⟩
    rw [resize_of_le (by omega), List.take_of_length_le (by omega)]
    exact h
  · have hnc := le_new_cap s n
    obtain ⟨t, ht, hr, htc⟩ := h._realloc (c := s.new_cap n) (by omega)
      (new_cap_lt s (by omega))
    refine ⟨{ t with leng := n }, by rw [ht]; rfl, ?_⟩
    rw [resize_of_ge (by omega)]
    exact hr.expose (by omega) (by omega)
  · obtain ⟨ary, ha, hr⟩ := h.reset (n := n) (by omega)
    refine ⟨_, by rw [Int.toNat_natCast, ha]; rfl, ?_⟩
    rw [resize_of_le (by omega)]
    exact hr
  · refine ⟨_, rfl, ?_⟩
    rw [resize_of_ge (by omega)]
    exact h.expose (by omega) (by omega)

/-- The request to fit changes the capacity alone. -/
theorem shrink (h : Represents s l) {len : Int} (hlen : len < 0) :
    ∃ t, s.length len = some t ∧ Represents t l := by
  rw [SArray.length, if_pos hlen]
  split_ifs with hkeep
  · exact ⟨s, rfl, h⟩
  · have hle := h.le
    have hfit := h.fits
    obtain ⟨t, ht, hr, -⟩ := h._realloc (Int.le_refl _) (by omega)
    exact ⟨t, ht, hr⟩

/-- One element more, with the default value to begin with. -/
theorem grow (h : Represents s l) (hl : s.leng < 2 ^ 31 - 1) :
    ∃ t, s.length (int32 (s.leng + 1)) = some t ∧ Represents t (l ++ [default]) := by
  have hn := h.leng
  have hw : int32 (s.leng + 1) = (l.length + 1 : Nat) := by
    rw [int32_of_fits (by omega) (by omega)]
    omega
  obtain ⟨t, ht, hr⟩ := h.resize (n := l.length + 1) (by omega)
  rw [resize_of_ge (Nat.le_succ _), extend, Nat.succ_sub (Nat.le_refl _), Nat.sub_self] at hr
  exact ⟨t, hw ▸ ht, hr⟩

/-- An element is overwritten. -/
theorem set (h : Represents s l) {i : Nat} (hi : i < l.length) (x : α) :
    ∃ ary, store s.ary i x = some ary ∧ Represents { s with ary } (l.set i x) := by
  have hslots := h.slots
  have hle := h.length_le
  have hcap := h.cap_eq
  have hst : store s.ary i x = some (s.ary.set i x) := by
    rw [store, if_pos ⟨Int.natCast_nonneg i, by omega⟩, Int.toNat_natCast]
  refine ⟨_, hst, ?_, h.le, h.fits, ?_, h.expand⟩
  · rw [List.length_set]
    exact h.leng
  · rw [h.ary, set_extend x hi]

/-- What `operator[]` does before the access: the list is extended up to the index. -/
theorem slot (h : Represents s l) {i : Nat} (hi : (i : Int) < 2 ^ 31 - 1) :
    ∃ t, s.slot i = some t ∧ Represents t (extend l (i + 1)) := by
  have hl := h.leng
  rw [SArray.slot, if_neg (by omega), if_neg (by simp [h.expand])]
  split_ifs with hge
  · have hw : int32 ((i : Int) + 1) = (i + 1 : Nat) := int32_of_fits (by omega) (by omega)
    obtain ⟨t, ht, hr⟩ := h.resize (n := i + 1) (by omega)
    rw [resize_of_ge (by omega)] at hr
    exact ⟨t, hw ▸ ht, hr⟩
  · rw [extend_of_le (by omega)]
    exact ⟨s, rfl, h⟩

theorem load (h : Represents s l) {i : Nat} (hi : i < l.length) : load s.ary i = l[i]? := by
  have hle := h.length_le
  rw [SArray.load, if_pos (Int.natCast_nonneg i), Int.toNat_natCast, h.ary, extend,
    List.getElem?_append_left hi]

theorem read (h : Represents s l) {i : Nat} (hi : (i : Int) < 2 ^ 31 - 1) :
    ∃ t, s.read i = some (t, l.getD i default) ∧ Represents t (extend l (i + 1)) := by
  obtain ⟨t, ht, hr⟩ := h.slot hi
  have hlt : i < (extend l (i + 1)).length := by rw [length_extend]; omega
  refine ⟨t, ?_, hr⟩
  rw [SArray.read, ht, Option.bind_eq_bind, Option.bind_some, hr.load hlt,
    getElem?_extend (Nat.lt_succ_self i)]
  rfl

theorem write (h : Represents s l) {i : Nat} (hi : (i : Int) < 2 ^ 31 - 1) (x : α) :
    ∃ t, s.write i x = some t ∧ Represents t ((extend l (i + 1)).set i x) := by
  obtain ⟨t, ht, hr⟩ := h.slot hi
  have hlt : i < (extend l (i + 1)).length := by rw [length_extend]; omega
  obtain ⟨ary, hst, hw⟩ := hr.set hlt x
  exact ⟨_, by rw [SArray.write, ht, Option.bind_eq_bind, Option.bind_some, hst]; rfl, hw⟩

theorem push (h : Represents s l) (hl : s.leng < 2 ^ 31 - 1) (x : α) :
    ∃ t, s.push x = some t ∧ Represents t (l ++ [x]) := by
  obtain ⟨t, ht, hr⟩ := h.grow hl
  obtain ⟨ary, hst, hw⟩ := hr.set (i := l.length) (by simp) x
  rw [List.set_append_right _ _ (Nat.le_refl _), Nat.sub_self] at hw
  refine ⟨_, ?_, hw⟩
  rw [SArray.push, ht, Option.bind_eq_bind, Option.bind_some, h.leng, hst]
  rfl

theorem unshift (h : Represents s l) (hl : s.leng < 2 ^ 31 - 1) (x : α) :
    ∃ t, s.unshift x = some t ∧ Represents t (x :: l) := by
  obtain ⟨t, ht, hr⟩ := h.grow hl
  have hcap := hr.length_le
  rw [List.length_append, List.length_singleton] at hcap
  have hlen : (t.leng - 1).toNat = l.length := by
    rw [hr.leng, List.length_append, List.length_singleton]
    omega
  have hloop := upLoop_eq l default (.replicate (t.cap.toNat - (l.length + 1)) default)
  have hary : t.ary = l ++ default :: .replicate (t.cap.toNat - (l.length + 1)) default := by
    rw [hr.ary, extend, List.append_assoc, List.length_append]
    rfl
  have hst := store_append [] (l.headD default)
    (l ++ List.replicate (t.cap.toNat - (l.length + 1)) default) x
  refine ⟨{ t with ary := x :: (l ++ List.replicate (t.cap.toNat - (l.length + 1)) default) },
    ?_, ?_⟩
  · rw [SArray.unshift, ht, Option.bind_eq_bind, Option.bind_some, hlen, hary, hloop]
    exact congrArg (Option.bind · _) hst
  · exact ⟨by rw [hr.leng]; simp, hr.le, hr.fits, by simp [extend], hr.expand⟩

theorem pop_cons (h : Represents s (l ++ [x])) (ret : α) :
    ∃ t, s.pop ret = some (t, x) ∧ Represents t l := by
  have hl := h.leng
  have hlt := h.length_lt
  rw [List.length_append, List.length_singleton] at hl hlt
  have hn : s.leng - 1 = l.length := by omega
  obtain ⟨t, ht, hr⟩ := h.resize (n := l.length) (by omega)
  rw [resize_of_le (by simp), List.take_left] at hr
  refine ⟨t, ?_, hr⟩
  rw [SArray.pop, if_neg (by omega), hn, h.load (by simp), ht]
  simp

theorem shift_cons (h : Represents s (x :: l)) (ret : α) :
    ∃ t, s.shift ret = some (t, x) ∧ Represents t l := by
  have hl := h.leng
  have hlt := h.length_lt
  have hcap := h.length_le
  rw [List.length_cons] at hl hlt hcap
  have hn : s.leng - 1 = l.length := by omega
  obtain ⟨r, hr⟩ : ∃ r, r = List.replicate (s.cap.toNat - (l.length + 1)) (default : α) := ⟨_, rfl⟩
  have hary : s.ary = x :: (l ++ r) := hr ▸ h.ary
  have hfirst : SArray.load s.ary 0 = some x := by rw [hary]; rfl
  have hloop : downLoop l.length 0 s.ary = some (l ++ l.getLastD x :: r) :=
    hary ▸ downLoop_eq l [] x r
  -- the last element still stands in its old place
  have hmid : Represents { s with ary := l ++ l.getLastD x :: r } (l ++ [l.getLastD x]) :=
    ⟨by simpa using hl, h.le, h.fits, by simp [extend, hr], h.expand⟩
  obtain ⟨t, ht, hrep⟩ := hmid.resize (n := l.length) (by omega)
  rw [resize_of_le (by simp), List.take_left] at hrep
  refine ⟨t, ?_, hrep⟩
  rw [SArray.shift, if_neg (by omega), hfirst, hn, Int.toNat_natCast]
  simp only [Option.bind_eq_bind, Option.bind_some, hloop, ht]

end Represents

-- ---------------------------------------------------------------------------
-- Runs
-- ---------------------------------------------------------------------------

inductive Act (α : Type)
  | read (index : Int)
  | write (index : Int) (x : α)
  | push (inp : α)
  | pop (ret : α)
  | unshift (inp : α)
  | shift (ret : α)
  | length (len : Int)

/-- A list that goes on with default values: what becomes of it, and what is answered. -/
def spec (l : List α) : Act α → List α × Option α
  | .read i => (extend l (i.toNat + 1), some (l.getD i.toNat default))
  | .write i x => ((extend l (i.toNat + 1)).set i.toNat x, none)
  | .push x => (l ++ [x], none)
  | .pop ret => (l.dropLast, some (l.getLastD ret))
  | .unshift x => (x :: l, none)
  | .shift ret => (l.tail, some (l.headD ret))
  | .length len => (if len < 0 then l else DefaultExtension.resize l len.toNat, none)

/-- A call and what it answered. -/
abbrev Obs (α : Type) := Act α × Option α

def replay (l : List α) (tr : List (Obs α)) : List α := tr.foldl (fun l o => (spec l o.1).1) l

theorem replay_snoc (l : List α) (tr : List (Obs α)) (o : Obs α) :
    replay l (tr ++ [o]) = (spec (replay l tr) o.1).1 := by
  rw [replay, List.foldl_append]
  rfl

def call (s : SArray α) : Act α → Option (SArray α × Option α)
  | .read i => (s.read i).map fun r => (r.1, some r.2)
  | .write i x => (s.write i x).map (·, none)
  | .push x => (s.push x).map (·, none)
  | .pop ret => (s.pop ret).map fun r => (r.1, some r.2)
  | .unshift x => (s.unshift x).map (·, none)
  | .shift ret => (s.shift ret).map fun r => (r.1, some r.2)
  | .length len => (s.length len).map (·, none)

/-- An array of `n` elements and the calls on it. -/
def machine (n : Nat) : Machine (SArray α) (Act α) (Obs α) where
  init s := s = construct n
  step s a := (s.call a).map fun r => (r.1, [(a, r.2)])

/-- The index is not negative, and the length that the call asks for is an `int`. -/
def Fits (s : SArray α) : Act α → Prop
  | .read i => 0 ≤ i ∧ i < 2 ^ 31 - 1
  | .write i _ => 0 ≤ i ∧ i < 2 ^ 31 - 1
  | .push _ => s.leng < 2 ^ 31 - 1
  | .pop _ => True
  | .unshift _ => s.leng < 2 ^ 31 - 1
  | .shift _ => True
  | .length len => len < 2 ^ 31

instance (s : SArray α) (a : Act α) : Decidable (Fits s a) := by
  cases a <;> unfold Fits <;> infer_instance

/-- A call does what it does to the list. -/
theorem Represents.call (h : Represents s l) {a : Act α} (ha : Fits s a) :
    ∃ t, s.call a = some (t, (spec l a).2) ∧ Represents t (spec l a).1 := by
  cases a with
  | read i =>
    obtain ⟨i, rfl⟩ := Int.eq_ofNat_of_zero_le ha.1
    obtain ⟨t, ht, hr⟩ := h.read ha.2
    exact ⟨t, by rw [SArray.call, ht]; rfl, hr⟩
  | write i x =>
    obtain ⟨i, rfl⟩ := Int.eq_ofNat_of_zero_le ha.1
    obtain ⟨t, ht, hr⟩ := h.write ha.2 x
    exact ⟨t, by rw [SArray.call, ht]; rfl, hr⟩
  | push x =>
    obtain ⟨t, ht, hr⟩ := h.push ha x
    exact ⟨t, by rw [SArray.call, ht]; rfl, hr⟩
  | pop ret =>
    induction l using List.reverseRecOn with
    | nil =>
      have h0 : s.leng = 0 := h.leng
      exact ⟨s, by rw [SArray.call, SArray.pop, if_pos h0]; rfl, h⟩
    | append_singleton l x _ =>
      obtain ⟨t, ht, hr⟩ := h.pop_cons ret
      refine ⟨t, ?_, ?_⟩
      · rw [SArray.call, ht, spec, List.getLastD_concat]
        rfl
      · rw [spec, List.dropLast_concat]
        exact hr
  | unshift x =>
    obtain ⟨t, ht, hr⟩ := h.unshift ha x
    exact ⟨t, by rw [SArray.call, ht]; rfl, hr⟩
  | shift ret =>
    cases l with
    | nil =>
      have h0 : s.leng = 0 := h.leng
      exact ⟨s, by rw [SArray.call, SArray.shift, if_pos h0]; rfl, h⟩
    | cons x l =>
      obtain ⟨t, ht, hr⟩ := h.shift_cons ret
      exact ⟨t, by rw [SArray.call, ht]; rfl, hr⟩
  | length len =>
    by_cases hneg : len < 0
    · obtain ⟨t, ht, hr⟩ := h.shrink hneg
      exact ⟨t, by rw [SArray.call, ht]; rfl, by rw [spec, if_pos hneg]; exact hr⟩
    · obtain ⟨n, rfl⟩ := Int.eq_ofNat_of_zero_le (Int.not_lt.mp hneg)
      obtain ⟨t, ht, hr⟩ := h.resize (n := n) (by simp only [Fits] at ha; omega)
      exact ⟨t, by rw [SArray.call, ht]; rfl, by rw [spec, if_neg hneg]; exact hr⟩

/-- An array is a list that goes on with default values, as long as no length of `2 ^ 31` is
asked for: it has the list's elements and the list's length, its spare slots hold the default
value, it answers as the list does, and it does not fail. -/
theorem sArray_law {tr : List (Obs α)} (hn : n < 2 ^ 31)
    (h : (machine n).RunIf Fits tr s) :
    s.contents = replay (.replicate n default) tr ∧
      s.leng = (replay (.replicate n default) tr).length ∧
      s.ary.length = s.cap ∧
      (∀ i : Nat, s.leng ≤ i → i < s.cap → s.ary[i]? = some default) ∧
      Machine.Justified
        (fun before o => o.2 = (spec (replay (.replicate n default) before) o.1).2) tr ∧
      ∀ a, Fits s a → ((machine n).step s a).isSome := by
  have hinv : Represents s (replay (.replicate n default) tr) ∧ Machine.Justified
      (fun before o => o.2 = (spec (replay (.replicate n default) before) o.1).2) tr := by
    refine h.invariant (I := fun tr s => Represents s (replay (.replicate n default) tr) ∧
      Machine.Justified
        (fun before o => o.2 = (spec (replay (.replicate n default) before) o.1).2) tr) ?_ ?_
    · rintro s rfl
      exact ⟨.construct hn, .nil⟩
    · intro tr s a t os _ ⟨hr, hj⟩ ha hs
      obtain ⟨u, hu, hru⟩ := hr.call ha
      simp only [machine, hu, Option.map_some, Option.some.injEq, Prod.mk.injEq] at hs
      obtain ⟨rfl, rfl⟩ := hs
      refine ⟨?_, hj.snoc rfl⟩
      rw [replay_snoc]
      exact hru
  obtain ⟨hr, hj⟩ := hinv
  refine ⟨hr.contents, hr.leng, hr.slots, fun _ => hr.spare, hj, fun a ha => ?_⟩
  obtain ⟨t, ht, -⟩ := hr.call ha
  simp only [machine, ht, Option.map_some, Option.isSome_some]

/-- The length that would be needed is not an `int`: it turns negative, which is the request to
fit, and the element lies outside the array. -/
theorem Represents.push_full (h : Represents s l) (hl : s.leng = 2 ^ 31 - 1) (x : α) :
    s.push x = none := by
  have hfit := h.fits
  have hle := h.le
  have hcap : s.leng = s.cap := by omega
  have hslots := h.slots
  rw [SArray.push, hl, show int32 (2 ^ 31 - 1 + 1) = -2 ^ 31 by decide, SArray.length,
    if_pos (by decide), if_pos (.inl hcap)]
  have hst : store s.ary (2 ^ 31 - 1) x = none := if_neg (by omega)
  simp only [Option.bind_eq_bind, Option.bind_some, hst, Option.bind_none]

end

theorem sArray_law_shrunk : ∃ tr s, (machine 2).RunIf Fits tr s ∧ s.contents = [0, 0, 0, 0, 0] ∧
    s.cap = 6 ∧ ∀ a : Act Nat, Fits s a → ((machine 2).step s a).isSome := by
  have hrun := Machine.exists_run (M := machine 2) (C := Fits)
    (P := fun _ s => s.contents = [0, 0, 0, 0, 0] ∧ s.cap = 6)
    [.write 0 7, .write 5 8, .length (-1), .length 1, .shift 0, .length 5] (s := construct 2) rfl
    (by decide +kernel)
  obtain ⟨tr, s, h, hc, hcap⟩ := hrun
  exact ⟨tr, s, h, hc, hcap, (sArray_law (by decide) h).2.2.2.2.2⟩

theorem index_wraps :
    (∃ s : SArray Nat, (machine 0).init s ∧ (machine 0).step s (.read 2147483647) = none) ∧
      ∃ s : SArray Nat, (machine 2147483647).init s ∧
        (machine 2147483647).step s (.push 0) = none := by
  refine ⟨⟨construct 0, rfl, by decide +kernel⟩, construct 2147483647, rfl, ?_⟩
  have hr : Represents (construct 2147483647 : SArray Nat) (.replicate 2147483647 default) :=
    .construct (by decide)
  have h := hr.push_full rfl 0
  simp only [machine, call, h, Option.map_none]

end SArray

end TinyState
