import Mathlib.Algebra.Order.Ring.Int
import Mathlib.Data.List.Nodup
import TinyState.Lib.Custody
import TinyState.Lib.Machine
import TinyState.Object.Positions

/-!
# Who has opened which descriptor

`set_open_hash` and `flush_open_hash` of `sObject.cpp` keep a list of the descriptors that are open
and of the code positions that have opened them, and panic where the list says that a descriptor is
open that has just been opened, or closed that is to be closed. `open_mu` makes each of them one
step; the system calls are steps of their own, and any number of threads is in a call at a time.
-/

namespace TinyState

open Transition

-- ---------------------------------------------------------------------------
-- Model
-- ---------------------------------------------------------------------------

/-- Where a call of `__open`, `__pipe` and the like, or of `__close` or `__fclose` is. -/
inductive FdCall
  /-- Before `set_open_hash` of the first of `fds`; `done` have been put into the list. -/
  | register (fds done : List Nat) (file : String) (line : Nat)
  /-- Before `flush_open_hash(s)`; the name has been read. -/
  | flush (s : Nat) (file : String) (line : Nat)
  /-- Before `close(s)`. -/
  | closing (s : Nat) (file : String) (line : Nat)
  /-- Before `set_open_hash(s,file,line)`, as `close` has failed. -/
  | restore (s : Nat) (file : String) (line : Nat)
  deriving DecidableEq, Repr

namespace FdCall

/-- The descriptors that the call is about. -/
def fds : FdCall → List Nat
  | register fds done _ _ => fds ++ done
  | flush s _ _ | closing s _ _ | restore s _ _ => [s]

/-- Those of them that are in the list. -/
def listed : FdCall → List Nat
  | register _ done _ _ => done
  | flush s _ _ => [s]
  | closing .. | restore .. => []

def name : FdCall → String × Nat
  | register _ _ file line | flush _ file line | closing _ file line | restore _ file line =>
    (file, line)

end FdCall

/-- What `close` says: 0, `EINTR` or another error; and if the descriptor is closed all the same. -/
inductive CloseResult
  | ok
  | eintr (released : Bool)
  | error (released : Bool)
  deriving DecidableEq, Repr

/-- A `close` that fails leaves the descriptor open. -/
def CloseResult.Keeps : CloseResult → Prop
  | ok => True
  | eintr released | error released => released = false

instance (r : CloseResult) : Decidable r.Keeps :=
  match r with
  | .ok => .isTrue trivial
  | .eintr released | .error released => inferInstanceAs (Decidable (released = false))

/-- `os`: what is open. The last three are history: the descriptors that have been open from the
start and are not in the list, those that callers have, and who has opened which. -/
structure Descriptors where
  os : Nat → Bool
  hash : CpHash
  list : Nat → Option Nat
  top : Option Nat
  calls : List FdCall
  panicked : Bool
  raw : List Nat
  held : List Nat
  name : Nat → String × Nat

inductive FdAct
  /-- A system call has opened these: one, or the two of `pipe` and `openpty`. -/
  | opened (fds : List Nat) (file : String) (line : Nat)
  | fdStdio (file : String) (line : Nat)
  /-- `__close` or `__fclose` is called. -/
  | close (s : Nat)
  | refineFd (s : Nat) (file : String) (line : Nat)
  /-- A call goes on; `r` is what `close` says, if it is called. -/
  | go (i : Nat) (r : CloseResult)
  deriving DecidableEq, Repr

inductive FdObs
  | returned (fds : List Nat)
  | closed (s : Nat) (er : Int)
  /-- `not opened fd is closed`, `close not opened fd`, `open not free description!!` or
  `no defined descriptor !!` -/
  | panic
  deriving DecidableEq, Repr

namespace Descriptors

def fdSetsize : Nat := 1024

def initial : Descriptors where
  os s := s < 3
  hash := .empty
  list _ := none
  top := none
  calls := []
  panicked := false
  raw := [0, 1, 2]
  held := []
  name _ := ("", 0)

/-- `descriptor_top` -/
def raiseTop (top : Option Nat) (hash : CpHash) (i : Nat) : Option Nat :=
  match top with
  | none => some i
  | some j => if hash.sizeOf j < hash.sizeOf i then some i else some j

/-- The position of the descriptor is the one of this name from now on. -/
def setPosition (s : Descriptors) (fd : Nat) (file : String) (line : Nat) : Descriptors :=
  let (i, hash) := s.hash.getCp file line 0
  let hash := hash.addSize i (· + 1)
  { s with
    hash
    list := Function.update s.list fd (some i)
    top := raiseTop s.top hash i }

/-- The descriptor, whose position is `i`, has none from now on. -/
def clearPosition (s : Descriptors) (fd i : Nat) : Descriptors :=
  { s with
    hash := s.hash.addSize i (· - 1)
    list := Function.update s.list fd none }

/-- `none`: a panic. -/
def setOpenHash (s : Descriptors) (fd : Nat) (file : String) (line : Nat) : Option Descriptors :=
  if fdSetsize ≤ fd then some s
  else
    match s.list fd with
    | some _ => none
    | none => some (s.setPosition fd file line)

/-- `none`: a panic. -/
def flushOpenHash (s : Descriptors) (fd : Nat) : Option Descriptors :=
  if fdSetsize ≤ fd then some s else (s.list fd).map fun i => s.clearPosition fd i

/-- `none`: a panic. -/
def refineFd (s : Descriptors) (fd : Nat) (file : String) (line : Nat) : Option Descriptors :=
  if fdSetsize ≤ fd then some s
  else (s.list fd).map fun i => (s.clearPosition fd i).setPosition fd file line

def put (s : Descriptors) (i : Nat) (c : FdCall) : Descriptors :=
  { s with calls := s.calls.set i c }

def finish (s : Descriptors) (i : Nat) (held : List Nat) : Descriptors :=
  { s with
    calls := s.calls.eraseIdx i
    held := held ++ s.held }

/-- `close(fd)`. A descriptor that is not open is an error. -/
def osClose (s : Descriptors) (i fd : Nat) (file : String) (line : Nat) :
    CloseResult → Option (Descriptors × List FdObs)
  | .ok =>
    if s.os fd then
      some (({ s with os := Function.update s.os fd false } : Descriptors).finish i [],
        [.closed fd 0])
    else none
  | .eintr released =>
    if s.os fd then
      some ({ s with os := Function.update s.os fd (!released) }, [])
    else none
  | .error released =>
    some (({ s with os := Function.update s.os fd (s.os fd && !released) } : Descriptors).put i
      (.restore fd file line), [])

def after (s : Descriptors) (os : List FdObs) : Option Descriptors → Descriptors × List FdObs
  | some t => (t, os)
  | none => ({ s with panicked := true }, [.panic])

def go (s : Descriptors) (i : Nat) (r : CloseResult) :
    FdCall → Option (Descriptors × List FdObs)
  | .register [] done _ _ => some (s.finish i done, [.returned done])
  | .register (fd :: fds) done file line =>
    some (s.after [] ((s.setOpenHash fd file line).map fun s =>
      s.put i (.register fds (fd :: done) file line)))
  | .flush fd file line =>
    some (s.after [] ((s.flushOpenHash fd).map fun s => s.put i (.closing fd file line)))
  | .closing fd file line => s.osClose i fd file line r
  | .restore fd file line =>
    some (s.after [.closed fd (-1)] ((s.setOpenHash fd file line).map fun s => s.finish i [fd]))

/-- Who has opened the descriptors is noted. -/
def note (s : Descriptors) (fds : List Nat) (file : String) (line : Nat) : Nat → String × Nat :=
  fun fd => if fd ∈ fds then (file, line) else s.name fd

/-- A descriptor that the system gives is below `FD_SETSIZE`. -/
def step (s : Descriptors) : FdAct → Option (Descriptors × List FdObs)
  | .opened fds file line =>
    if s.panicked = false ∧ fds.Nodup ∧ ∀ fd ∈ fds, s.os fd = false ∧ fd < fdSetsize then
      some ({ s with
        os := fun fd => s.os fd || fd ∈ fds
        calls := .register fds [] file line :: s.calls
        name := s.note fds file line }, [])
    else none
  | .fdStdio file line =>
    if s.panicked then none
    else some ({ s with
      calls := .register [0, 1, 2] [] file line :: s.calls
      raw := []
      name := s.note [0, 1, 2] file line }, [])
  | .close fd =>
    if s.panicked then none
    else some (s.after [] (((s.list fd).bind s.hash.fileOf).map fun name => { s with
      calls := .flush fd name.1 name.2 :: s.calls
      held := s.held.filter (· ≠ fd) }))
  | .refineFd fd file line =>
    if s.panicked then none
    else some (s.after [] ((s.refineFd fd file line).map fun t =>
      { t with name := s.note [fd] file line }))
  | .go i r => if s.panicked then none else (s.calls[i]?).bind (s.go i r)

def machine : Machine Descriptors FdAct FdObs where
  init s := s = initial
  step := step

/-- Who closes a descriptor, or gives it another name, has it; the first three get into the list
once; and `close` is as `__close` takes it to be. -/
def Disciplined (s : Descriptors) : FdAct → Prop
  | .opened .. => True
  | .go _ r => r.Keeps
  | .fdStdio .. => s.raw = [0, 1, 2]
  | .close fd | .refineFd fd _ _ => fd ∈ s.held

instance (s : Descriptors) (a : FdAct) : Decidable (s.Disciplined a) :=
  match a with
  | .opened .. => .isTrue trivial
  | .go _ r => inferInstanceAs (Decidable r.Keeps)
  | .fdStdio .. => inferInstanceAs (Decidable (s.raw = [0, 1, 2]))
  | .close fd | .refineFd fd _ _ => inferInstanceAs (Decidable (fd ∈ s.held))

-- ---------------------------------------------------------------------------
-- What the positions count
-- ---------------------------------------------------------------------------

variable {s t : Descriptors} {fd i j line : Nat} {file : String} {c d : FdCall}
  {fds done held : List Nat} {hash : CpHash} {list : Nat → Option Nat} {name : Nat → String × Nat}

/-- How many descriptors have the position. -/
def openAt (list : Nat → Option Nat) (i : Nat) : Nat :=
  (List.range fdSetsize).countP fun fd => list fd = some i

theorem countP_update {l : List Nat} (hn : l.Nodup) (hm : fd ∈ l) (list : Nat → Option Nat)
    (v : Option Nat) (i : Nat) :
    (l.countP fun x => Function.update list fd v x = some i) + (if list fd = some i then 1 else 0) =
      (l.countP fun x => list x = some i) + if v = some i then 1 else 0 := by
  induction l with
  | nil => cases hm
  | cons x l ih =>
    obtain ⟨hx, hn⟩ := List.nodup_cons.mp hn
    simp only [List.countP_cons, decide_eq_true_eq]
    by_cases he : x = fd
    · subst he
      have hsame : (l.countP fun y => Function.update list x v y = some i) =
          l.countP fun y => list y = some i :=
        List.countP_congr fun y hy => by
          rw [Function.update_of_ne fun (he : y = x) => hx (he ▸ hy)]
      rw [hsame, Function.update_self]
      omega
    · have hrest := ih hn ((List.mem_cons.mp hm).resolve_left (Ne.symm he))
      rw [Function.update_of_ne he]
      omega

theorem openAt_update (hfd : fd < fdSetsize) (list : Nat → Option Nat) (v : Option Nat) (i : Nat) :
    openAt (Function.update list fd v) i + (if list fd = some i then 1 else 0) =
      openAt list i + if v = some i then 1 else 0 :=
  countP_update List.nodup_range (List.mem_range.mpr hfd) list v i

/-- The positions of the list are there, have the right names and count their descriptors. -/
structure Counts (hash : CpHash) (list : Nat → Option Nat) (name : Nat → String × Nat) : Prop where
  valid : hash.Valid
  bound : ∀ fd i, list fd = some i → fd < fdSetsize ∧ i < hash.pos.length
  sizes : ∀ i, hash.sizeOf i = (openAt list i : Int)
  names : ∀ fd i, list fd = some i → hash.fileOf i = some (name fd)

theorem Counts.clear (h : Counts hash list name) (hl : list fd = some i) :
    Counts (hash.addSize i (· - 1)) (Function.update list fd none) name := by
  have hold : ∀ {x j}, Function.update list fd none x = some j → list x = some j := by
    intro x j hx
    by_cases he : x = fd
    · rw [he, Function.update_self] at hx
      cases hx
    · rwa [Function.update_of_ne he] at hx
  obtain ⟨hfd, hi⟩ := h.bound fd i hl
  refine ⟨h.valid.addSize i _, fun x j hx => ?_, fun j => ?_, fun x j hx => ?_⟩
  · rw [CpHash.addSize_length]
    exact h.bound x j (hold hx)
  · have hup := openAt_update hfd list none j
    rw [CpHash.addSize_sizeOf hi]
    by_cases hj : j = i
    · rw [if_pos hj, h.sizes]
      subst hj
      simp only [hl, if_true, reduceCtorEq, if_false] at hup
      omega
    · rw [if_neg hj, h.sizes]
      simp only [hl, Option.some.injEq, Ne.symm hj, if_false, reduceCtorEq] at hup
      omega
  · rw [CpHash.addSize_fileOf]
    exact h.names x j (hold hx)

theorem Counts.got {u : CpHash} (h : Counts hash list name) (hg : hash.Got file line 0 i u) :
    Counts u list name := by
  refine ⟨hg.valid h.valid, fun x j hx => ?_, fun j => ?_, fun x j hx => ?_⟩
  · exact (h.bound x j hx).imp_right fun hlt => hlt.trans_le hg.le
  · rw [hg.sizeOf, h.sizes]
  · rw [hg.fileOf_old (h.bound x j hx).2]
    exact h.names x j hx

theorem Counts.set {name' : Nat → String × Nat} (h : Counts hash list name) (hl : list fd = none)
    (hfd : fd < fdSetsize) (hi : i < hash.pos.length) (hf : hash.fileOf i = some (name' fd))
    (hn : ∀ x, x ≠ fd → list x ≠ none → name' x = name x) :
    Counts (hash.addSize i (· + 1)) (Function.update list fd (some i)) name' := by
  refine ⟨h.valid.addSize i _, fun x j hx => ?_, fun j => ?_, fun x j hx => ?_⟩
  · rw [CpHash.addSize_length]
    by_cases he : x = fd
    · rw [he, Function.update_self, Option.some.injEq] at hx
      exact ⟨he ▸ hfd, hx ▸ hi⟩
    · rw [Function.update_of_ne he] at hx
      exact h.bound x j hx
  · have hup := openAt_update hfd list (some i) j
    rw [CpHash.addSize_sizeOf hi]
    by_cases hj : j = i
    · rw [if_pos hj, h.sizes]
      subst hj
      simp only [hl, if_true, reduceCtorEq, if_false] at hup
      omega
    · rw [if_neg hj, h.sizes]
      simp only [hl, Option.some.injEq, Ne.symm hj, if_false, reduceCtorEq] at hup
      omega
  · rw [CpHash.addSize_fileOf]
    by_cases he : x = fd
    · rw [he, Function.update_self, Option.some.injEq] at hx
      rw [← hx, he, hf]
    · rw [Function.update_of_ne he] at hx
      rw [h.names x j hx, hn x he (by rw [hx]; exact Option.some_ne_none j)]

-- ---------------------------------------------------------------------------
-- Who has what
-- ---------------------------------------------------------------------------

/-- The descriptors that are open, each with one who has it. -/
def places (s : Descriptors) : List Nat := s.raw ++ (s.held ++ s.calls.flatMap FdCall.fds)

/-- Those that are in the list. -/
def listed (s : Descriptors) : List Nat := s.held ++ s.calls.flatMap FdCall.listed

theorem mem_fds_of_listed {x : Nat} (hx : x ∈ c.listed) : x ∈ c.fds := by
  cases c with
  | register => exact List.mem_append_right _ hx
  | flush => exact hx
  | closing | restore => cases hx

/-- What `panic` looks for is right. -/
structure Tracked (s : Descriptors) : Prop where
  calm : s.panicked = false
  counts : Counts s.hash s.list s.name
  nodup : s.places.Nodup
  os : ∀ fd, s.os fd = true ↔ fd ∈ s.places
  small : ∀ fd ∈ s.places, fd < fdSetsize
  once : s.listed.Nodup
  list : ∀ fd, s.list fd ≠ none ↔ fd ∈ s.listed
  named : ∀ c ∈ s.calls, ∀ fd ∈ c.fds, s.name fd = c.name

theorem Tracked.mem_places (hi : s.calls[i]? = some c) (hfd : fd ∈ c.fds) : fd ∈ s.places :=
  List.mem_append_right _ (List.mem_append_right _
    (List.mem_flatMap.mpr ⟨c, List.mem_of_getElem? hi, hfd⟩))

theorem Tracked.mem_listed (hi : s.calls[i]? = some c) (hfd : fd ∈ c.listed) : fd ∈ s.listed :=
  List.mem_append_right _ (List.mem_flatMap.mpr ⟨c, List.mem_of_getElem? hi, hfd⟩)

/-- A descriptor of a call is in the list only by this call. -/
theorem Tracked.unlisted (h : s.Tracked) (hi : s.calls[i]? = some c) (hfd : fd ∈ c.fds)
    (hn : fd ∉ c.listed) : fd ∉ s.listed := by
  have hone : s.places.count fd ≤ 1 := List.nodup_iff_count_le_one.mp h.nodup fd
  have hfds := (Custody.flatMap_eraseIdx (f := FdCall.fds) hi).count_eq fd
  have hpos := List.count_pos_iff.mpr hfd
  simp only [places, List.count_append] at hone hfds
  intro hm
  rcases List.mem_append.mp hm with hm | hm
  · have := List.count_pos_iff.mpr hm
    omega
  · rw [(Custody.flatMap_eraseIdx (f := FdCall.listed) hi).mem_iff, List.mem_append] at hm
    obtain ⟨d, hd, hx⟩ := List.mem_flatMap.mp (hm.resolve_left hn)
    have := List.count_pos_iff.mpr (List.mem_flatMap.mpr ⟨d, hd, mem_fds_of_listed hx⟩)
    omega

theorem Tracked.list_none (h : s.Tracked) (hn : fd ∉ s.listed) : s.list fd = none := by
  by_contra hl
  exact hn ((h.list fd).mp hl)

theorem Tracked.list_some (h : s.Tracked) (hm : fd ∈ s.listed) : ∃ i, s.list fd = some i :=
  Option.ne_none_iff_exists'.mp ((h.list fd).mpr hm)

-- ---------------------------------------------------------------------------
-- What the two critical sections do
-- ---------------------------------------------------------------------------

theorem setOpenHash_none (hfd : fd < fdSetsize) (hl : s.list fd = none) (file : String)
    (line : Nat) : s.setOpenHash fd file line = some (s.setPosition fd file line) := by
  rw [setOpenHash, if_neg (Nat.not_le.mpr hfd), hl]

theorem flushOpenHash_some (hfd : fd < fdSetsize) (hl : s.list fd = some i) :
    s.flushOpenHash fd = some (s.clearPosition fd i) := by
  rw [flushOpenHash, if_neg (Nat.not_le.mpr hfd), hl]
  rfl

theorem Counts.setPosition (h : Counts s.hash s.list s.name) (hl : s.list fd = none)
    (hfd : fd < fdSetsize) {name' : Nat → String × Nat} (hf : name' fd = (file, line))
    (hn : ∀ x, x ≠ fd → s.list x ≠ none → name' x = s.name x) :
    Counts (s.setPosition fd file line).hash (s.setPosition fd file line).list name' := by
  have hg := CpHash.getCp_got h.valid file line 0
  exact (h.got hg).set hl hfd hg.lt (hg.fileOf.trans (congrArg some hf.symm)) hn

/-- The list after a descriptor has been put into it. -/
theorem listed_insert (hl : ∀ x, s.list x ≠ none ↔ x ∈ s.listed)
    (hperm : t.listed.Perm (fd :: s.listed)) (x : Nat) :
    Function.update s.list fd (some i) x ≠ none ↔ x ∈ t.listed := by
  rw [hperm.mem_iff, List.mem_cons, ← hl]
  by_cases he : x = fd
  · simp [he]
  · simp [he]

/-- And after it has been taken out. -/
theorem listed_erase (hl : ∀ x, s.list x ≠ none ↔ x ∈ s.listed) (hn : s.listed.Nodup)
    (hperm : s.listed.Perm (fd :: t.listed)) (x : Nat) :
    Function.update s.list fd none x ≠ none ↔ x ∈ t.listed := by
  have hnot : fd ∉ t.listed := (List.nodup_cons.mp (hperm.nodup_iff.mp hn)).1
  by_cases he : x = fd
  · subst he
    simpa using hnot
  · rw [Function.update_of_ne he, hl, hperm.mem_iff, List.mem_cons]
    simp [he]

-- ---------------------------------------------------------------------------
-- Steps
-- ---------------------------------------------------------------------------

theorem set_perm {f : FdCall → List Nat} {l : List FdCall} (hi : l[i]? = some c) (d : FdCall)
    (x : Nat) : (f c).count x + ((l.set i d).flatMap f).count x =
      (f d).count x + (l.flatMap f).count x := by
  have h := (Custody.flatMap_set (f := f) hi d).count_eq x
  simpa only [List.count_append] using h

theorem erase_perm {f : FdCall → List Nat} {l : List FdCall} (hi : l[i]? = some c) (x : Nat) :
    (l.flatMap f).count x = (f c).count x + ((l.eraseIdx i).flatMap f).count x := by
  have h := (Custody.flatMap_eraseIdx (f := f) hi).count_eq x
  simpa only [List.count_append] using h

theorem Counts.rename {name' : Nat → String × Nat} (h : Counts hash list name)
    (hn : ∀ x, list x ≠ none → name' x = name x) : Counts hash list name' where
  valid := h.valid
  bound := h.bound
  sizes := h.sizes
  names x i hx := by rw [h.names x i hx, hn x (by rw [hx]; exact Option.some_ne_none i)]

theorem mem_places_of_listed {x : Nat} (hx : x ∈ s.listed) : x ∈ s.places := by
  rcases List.mem_append.mp hx with hx | hx
  · exact List.mem_append_right _ (List.mem_append_left _ hx)
  · obtain ⟨c, hc, hx⟩ := List.mem_flatMap.mp hx
    exact List.mem_append_right _ (List.mem_append_right _
      (List.mem_flatMap.mpr ⟨c, hc, mem_fds_of_listed hx⟩))

/-- A step that neither opens nor closes. -/
theorem Tracked.moved (h : s.Tracked) (hcalm : t.panicked = false)
    (hcounts : Counts t.hash t.list t.name) (hplaces : t.places.Perm s.places)
    (hos : t.os = s.os) (honce : t.listed.Nodup) (hlist : ∀ x, t.list x ≠ none ↔ x ∈ t.listed)
    (hnamed : ∀ c ∈ t.calls, ∀ x ∈ c.fds, t.name x = c.name) : t.Tracked where
  calm := hcalm
  counts := hcounts
  nodup := hplaces.nodup_iff.mpr h.nodup
  os x := by rw [hos, h.os, hplaces.mem_iff]
  small x hx := h.small x (hplaces.mem_iff.mp hx)
  once := honce
  list := hlist
  named := hnamed

/-- The names after the call has come to `d`. -/
theorem Tracked.named_set (h : s.Tracked) (hi : s.calls[i]? = some c)
    (hsub : ∀ x ∈ d.fds, x ∈ c.fds) (hname : d.name = c.name) :
    ∀ e ∈ s.calls.set i d, ∀ x ∈ e.fds, s.name x = e.name := by
  intro e he x hx
  rcases List.mem_or_eq_of_mem_set he with he | rfl
  · exact h.named e he x hx
  · rw [hname]
    exact h.named c (List.mem_of_getElem? hi) x (hsub x hx)

/-- And after it has returned. -/
theorem Tracked.named_erase (h : s.Tracked) :
    ∀ e ∈ s.calls.eraseIdx i, ∀ x ∈ e.fds, s.name x = e.name :=
  fun e he => h.named e (List.mem_of_mem_eraseIdx he)

theorem Tracked.opened (h : s.Tracked) (hn : fds.Nodup)
    (hnew : ∀ x ∈ fds, s.os x = false ∧ x < fdSetsize) (file : String) (line : Nat) :
    Tracked { s with
      os := fun x => s.os x || x ∈ fds
      calls := .register fds [] file line :: s.calls
      name := s.note fds file line } := by
  have hfree : ∀ x ∈ fds, x ∉ s.places := fun x hx hm =>
    Bool.false_ne_true ((hnew x hx).1.symm.trans ((h.os x).mpr hm))
  have hperm : (places { s with
      os := fun x => s.os x || x ∈ fds
      calls := .register fds [] file line :: s.calls
      name := s.note fds file line }).Perm (fds ++ s.places) := by
    refine List.perm_iff_count.mpr fun x => ?_
    simp only [places, List.flatMap_cons, FdCall.fds, List.append_nil, List.count_append]
    omega
  have hsame : ∀ x, x ∉ fds → s.note fds file line x = s.name x := fun x hx => if_neg hx
  refine ⟨h.calm, h.counts.rename fun x hx => hsame x fun hm =>
    hfree x hm (mem_places_of_listed ((h.list x).mp hx)), ?_, fun x => ?_, fun x hx => ?_, h.once,
    h.list, ?_⟩
  · rw [hperm.nodup_iff]
    exact hn.append h.nodup hfree
  · rw [hperm.mem_iff, List.mem_append, ← h.os]
    simp [or_comm]
  · rcases List.mem_append.mp (hperm.mem_iff.mp hx) with hx | hx
    · exact (hnew x hx).2
    · exact h.small x hx
  · intro c hc x hx
    rcases List.mem_cons.mp hc with rfl | hc
    · exact if_pos (by simpa [FdCall.fds] using hx)
    · have hm : x ∈ s.places := List.mem_append_right _ (List.mem_append_right _
        (List.mem_flatMap.mpr ⟨c, hc, hx⟩))
      exact (hsame x fun hf => hfree x hf hm).trans (h.named c hc x hx)

theorem Tracked.fdStdio (h : s.Tracked) (hraw : s.raw = [0, 1, 2]) (file : String) (line : Nat) :
    Tracked { s with
      calls := .register [0, 1, 2] [] file line :: s.calls
      raw := []
      name := s.note [0, 1, 2] file line } := by
  have hplaces := h.nodup
  rw [places, hraw] at hplaces
  obtain ⟨-, -, hfree⟩ := List.nodup_append.mp hplaces
  have hsame : ∀ x, x ∉ [0, 1, 2] → s.note [0, 1, 2] file line x = s.name x :=
    fun x hx => if_neg hx
  refine h.moved h.calm (h.counts.rename fun x hx => hsame x fun hm => ?_) ?_ rfl h.once h.list ?_
  · have hl := (h.list x).mp hx
    refine hfree x hm x ?_ rfl
    rcases List.mem_append.mp hl with hl | hl
    · exact List.mem_append_left _ hl
    · obtain ⟨c, hc, hx⟩ := List.mem_flatMap.mp hl
      exact List.mem_append_right _ (List.mem_flatMap.mpr ⟨c, hc, mem_fds_of_listed hx⟩)
  · refine List.perm_iff_count.mpr fun x => ?_
    simp only [places, hraw, List.flatMap_cons, FdCall.fds, List.append_nil, List.nil_append,
      List.count_append]
    omega
  · intro c hc x hx
    rcases List.mem_cons.mp hc with rfl | hc
    · exact if_pos (by simpa [FdCall.fds] using hx)
    · have hm : x ∈ s.held ++ s.calls.flatMap FdCall.fds :=
        List.mem_append_right _ (List.mem_flatMap.mpr ⟨c, hc, hx⟩)
      exact (hsame x fun hf => hfree x hf x hm rfl).trans (h.named c hc x hx)

theorem Tracked.held_perm (h : s.Tracked) (hfd : fd ∈ s.held) :
    s.held.Perm (fd :: s.held.filter (· ≠ fd)) := by
  have hn : s.held.Nodup := (List.nodup_append.mp h.once).1
  have he : s.held.filter (· ≠ fd) = s.held.erase fd := by
    rw [hn.erase_eq_filter]
    exact List.filter_congr fun x _ => by by_cases hx : x = fd <;> simp [hx]
  rw [he]
  exact List.perm_cons_erase hfd

theorem Tracked.name_of (h : s.Tracked) (hfd : fd ∈ s.held) :
    (s.list fd).bind s.hash.fileOf = some (s.name fd) := by
  obtain ⟨i, hi⟩ := h.list_some (List.mem_append_left _ hfd)
  rw [hi]
  exact h.counts.names fd i hi

theorem Tracked.close (h : s.Tracked) (hfd : fd ∈ s.held) :
    Tracked { s with
      calls := .flush fd (s.name fd).1 (s.name fd).2 :: s.calls
      held := s.held.filter (· ≠ fd) } := by
  have hheld := (h.held_perm hfd).count_eq
  have hlisted : (listed { s with
      calls := .flush fd (s.name fd).1 (s.name fd).2 :: s.calls
      held := s.held.filter (· ≠ fd) }).Perm s.listed := by
    refine List.perm_iff_count.mpr fun x => ?_
    have hx := hheld x
    simp only [listed, List.flatMap_cons, FdCall.listed, List.count_append, List.count_cons,
      List.count_nil] at hx ⊢
    omega
  refine h.moved h.calm h.counts ?_ rfl (hlisted.nodup_iff.mpr h.once)
    (fun x => by rw [hlisted.mem_iff]; exact h.list x) ?_
  · refine List.perm_iff_count.mpr fun x => ?_
    have hx := hheld x
    simp only [places, List.flatMap_cons, FdCall.fds, List.count_append, List.count_cons,
      List.count_nil] at hx ⊢
    omega
  · intro c hc x hx
    rcases List.mem_cons.mp hc with rfl | hc
    · rw [List.mem_singleton.mp hx]
      rfl
    · exact h.named c hc x hx

theorem Tracked.refineFd (h : s.Tracked) (hfd : fd ∈ s.held) (file : String) (line : Nat) :
    ∃ i, s.refineFd fd file line = some ((s.clearPosition fd i).setPosition fd file line) ∧
      Tracked { (s.clearPosition fd i).setPosition fd file line with
        name := s.note [fd] file line } := by
  have hm : fd ∈ s.listed := List.mem_append_left _ hfd
  have hsmall := h.small fd (mem_places_of_listed hm)
  obtain ⟨i, hi⟩ := h.list_some hm
  have hclear := h.counts.clear hi
  refine ⟨i, ?_, h.moved h.calm ?_ (List.Perm.refl _) rfl h.once (fun x => ?_) ?_⟩
  · rw [Descriptors.refineFd, if_neg (Nat.not_le.mpr hsmall), hi]
    rfl
  · refine Counts.setPosition (s := s.clearPosition fd i) hclear (Function.update_self ..) hsmall
      (if_pos (List.mem_singleton_self fd)) fun x hx _ => ?_
    exact if_neg fun hm => hx (List.mem_singleton.mp hm)
  · show Function.update (Function.update s.list fd none) fd _ x ≠ none ↔ x ∈ s.listed
    rw [Function.update_idem]
    by_cases he : x = fd
    · subst he
      simpa using hm
    · rw [Function.update_of_ne he, h.list]
  · intro c hc x hx
    have hc : c ∈ s.calls := hc
    have hne : x ≠ fd := fun he => by
      have hone := List.nodup_iff_count_le_one.mp h.nodup fd
      have hheld := List.count_pos_iff.mpr hfd
      have hcall := List.count_pos_iff.mpr (List.mem_flatMap.mpr ⟨c, hc, he ▸ hx⟩)
      simp only [places, List.count_append] at hone
      omega
    exact (if_neg fun hm => hne (List.mem_singleton.mp hm)).trans (h.named c hc x hx)

/-- A descriptor of the call gets into the list, and the call goes on to `calls`. -/
theorem Tracked.registered (h : s.Tracked) (hi : s.calls[i]? = some c) (hfd : fd ∈ c.fds)
    (hn : fd ∉ c.listed) (calls : List FdCall) (held : List Nat)
    (hplaces : (held ++ calls.flatMap FdCall.fds).Perm (s.held ++ s.calls.flatMap FdCall.fds))
    (hlisted : (held ++ calls.flatMap FdCall.listed).Perm (fd :: s.listed))
    (hnamed : ∀ d ∈ calls, ∀ x ∈ d.fds, s.name x = d.name) :
    s.setOpenHash fd c.name.1 c.name.2 = some (s.setPosition fd c.name.1 c.name.2) ∧
      Tracked { s.setPosition fd c.name.1 c.name.2 with
        calls := calls
        held := held } := by
  have hfree := h.unlisted hi hfd hn
  have hsmall := h.small fd (Tracked.mem_places hi hfd)
  have hl := h.list_none hfree
  refine ⟨setOpenHash_none hsmall hl _ _, h.moved h.calm ?_ ?_ rfl ?_ ?_ hnamed⟩
  · exact h.counts.setPosition hl hsmall (h.named c (List.mem_of_getElem? hi) fd hfd)
      fun _ _ _ => rfl
  · exact hplaces.append_left s.raw
  · exact hlisted.nodup_iff.mpr (List.nodup_cons.mpr ⟨hfree, h.once⟩)
  · exact listed_insert (t := { s.setPosition fd c.name.1 c.name.2 with
      calls := calls
      held := held }) h.list hlisted

theorem Tracked.flush (h : s.Tracked) (hi : s.calls[i]? = some (.flush fd file line)) :
    ∃ j, s.flushOpenHash fd = some (s.clearPosition fd j) ∧
      ((s.clearPosition fd j).put i (.closing fd file line)).Tracked := by
  have hm : fd ∈ s.listed := Tracked.mem_listed hi (List.mem_singleton_self fd)
  obtain ⟨j, hj⟩ := h.list_some hm
  have hlisted : s.listed.Perm
      (fd :: ((s.clearPosition fd j).put i (.closing fd file line)).listed) := by
    refine List.perm_iff_count.mpr fun x => ?_
    have hx := set_perm (f := FdCall.listed) hi (.closing fd file line) x
    simp only [listed, put, clearPosition, FdCall.listed, List.count_append, List.count_cons,
      List.count_nil] at hx ⊢
    omega
  refine ⟨j, flushOpenHash_some (h.small fd (mem_places_of_listed hm)) hj,
    h.moved h.calm (h.counts.clear hj) ?_ rfl ?_ (listed_erase h.list h.once hlisted)
      (h.named_set hi (fun _ hx => hx) rfl)⟩
  · refine List.perm_iff_count.mpr fun x => ?_
    have hx := set_perm (f := FdCall.fds) hi (.closing fd file line) x
    simp only [places, put, clearPosition, FdCall.fds, List.count_append] at hx ⊢
    omega
  · exact (List.nodup_cons.mp (hlisted.nodup_iff.mp h.once)).2

/-- `close` has closed the descriptor, and the call returns. -/
theorem Tracked.closed (h : s.Tracked) (hi : s.calls[i]? = some (.closing fd file line)) :
    (({ s with os := Function.update s.os fd false } : Descriptors).finish i []).Tracked := by
  have hplaces : s.places.Perm (fd :: (({ s with
      os := Function.update s.os fd false } : Descriptors).finish i []).places) := by
    refine List.perm_iff_count.mpr fun x => ?_
    have hx := erase_perm (f := FdCall.fds) hi x
    simp only [places, finish, FdCall.fds, List.count_append, List.count_cons,
      List.count_nil] at hx ⊢
    omega
  have hlisted : (({ s with
      os := Function.update s.os fd false } : Descriptors).finish i []).listed.Perm s.listed := by
    refine List.perm_iff_count.mpr fun x => ?_
    have hx := erase_perm (f := FdCall.listed) hi x
    simp only [listed, finish, FdCall.listed, List.count_append, List.count_nil] at hx ⊢
    omega
  obtain ⟨hnot, hrest⟩ := List.nodup_cons.mp (hplaces.nodup_iff.mp h.nodup)
  refine ⟨h.calm, h.counts, hrest, fun x => ?_,
    fun x hx => h.small x (hplaces.mem_iff.mpr (List.mem_cons_of_mem _ hx)),
    hlisted.nodup_iff.mpr h.once, fun x => by rw [hlisted.mem_iff]; exact h.list x,
    h.named_erase⟩
  show Function.update s.os fd false x = true ↔ _
  by_cases he : x = fd
  · subst he
    simpa using hnot
  · rw [Function.update_of_ne he, h.os, hplaces.mem_iff, List.mem_cons]
    simp [he]

/-- `close` has failed. -/
theorem Tracked.failed (h : s.Tracked) (hi : s.calls[i]? = some (.closing fd file line)) :
    (s.put i (.restore fd file line)).Tracked := by
  have hlisted : (s.put i (.restore fd file line)).listed.Perm s.listed := by
    refine List.perm_iff_count.mpr fun x => ?_
    have hx := set_perm (f := FdCall.listed) hi (.restore fd file line) x
    simp only [listed, put, FdCall.listed, List.count_append] at hx ⊢
    omega
  refine h.moved h.calm h.counts ?_ rfl (hlisted.nodup_iff.mpr h.once)
    (fun x => by rw [hlisted.mem_iff]; exact h.list x) (h.named_set hi (fun _ hx => hx) rfl)
  refine List.perm_iff_count.mpr fun x => ?_
  have hx := set_perm (f := FdCall.fds) hi (.restore fd file line) x
  simp only [places, put, FdCall.fds, List.count_append] at hx ⊢
  omega

theorem Tracked.returned (h : s.Tracked) (hi : s.calls[i]? = some (.register [] done file line)) :
    (s.finish i done).Tracked := by
  have hlisted : (s.finish i done).listed.Perm s.listed := by
    refine List.perm_iff_count.mpr fun x => ?_
    have hx := erase_perm (f := FdCall.listed) hi x
    simp only [listed, finish, FdCall.listed, List.count_append] at hx ⊢
    omega
  refine h.moved h.calm h.counts ?_ rfl (hlisted.nodup_iff.mpr h.once)
    (fun x => by rw [hlisted.mem_iff]; exact h.list x) h.named_erase
  refine List.perm_iff_count.mpr fun x => ?_
  have hx := erase_perm (f := FdCall.fds) hi x
  simp only [places, finish, FdCall.fds, List.nil_append, List.count_append] at hx ⊢
  omega

theorem Tracked.register (h : s.Tracked)
    (hi : s.calls[i]? = some (.register (fd :: fds) done file line)) :
    s.setOpenHash fd file line = some (s.setPosition fd file line) ∧
      ((s.setPosition fd file line).put i (.register fds (fd :: done) file line)).Tracked := by
  have hdone : fd ∉ done := by
    intro hm
    have hone := List.nodup_iff_count_le_one.mp h.nodup fd
    have hx := erase_perm (f := FdCall.fds) hi fd
    have hpos := List.count_pos_iff.mpr hm
    simp only [places, FdCall.fds, List.count_append, List.count_cons_self] at hone hx
    omega
  refine h.registered hi (List.mem_append_left _ List.mem_cons_self) hdone
    (s.calls.set i (.register fds (fd :: done) file line)) s.held ?_ ?_
    (h.named_set hi (fun x hx => ?_) rfl)
  · refine List.perm_iff_count.mpr fun x => ?_
    have hx := set_perm (f := FdCall.fds) hi (.register fds (fd :: done) file line) x
    simp only [FdCall.fds, List.count_append, List.count_cons] at hx ⊢
    omega
  · refine List.perm_iff_count.mpr fun x => ?_
    have hx := set_perm (f := FdCall.listed) hi (.register fds (fd :: done) file line) x
    simp only [listed, FdCall.listed, List.count_append, List.count_cons] at hx ⊢
    omega
  · exact List.perm_middle.mem_iff.mp hx

theorem Tracked.restore (h : s.Tracked) (hi : s.calls[i]? = some (.restore fd file line)) :
    s.setOpenHash fd file line = some (s.setPosition fd file line) ∧
      ((s.setPosition fd file line).finish i [fd]).Tracked := by
  refine h.registered hi (List.mem_singleton_self fd) List.not_mem_nil (s.calls.eraseIdx i)
    (fd :: s.held) ?_ ?_ h.named_erase
  · refine List.perm_iff_count.mpr fun x => ?_
    have hx := erase_perm (f := FdCall.fds) hi x
    simp only [FdCall.fds, List.count_append, List.count_cons, List.count_nil] at hx ⊢
    omega
  · refine List.perm_iff_count.mpr fun x => ?_
    have hx := erase_perm (f := FdCall.listed) hi x
    simp only [listed, FdCall.listed, List.count_append, List.count_cons, List.count_nil] at hx ⊢
    omega

theorem Tracked.osClose {r : CloseResult} {os : List FdObs} (h : s.Tracked)
    (hi : s.calls[i]? = some (.closing fd file line)) (hr : r.Keeps)
    (hs : s.osClose i fd file line r = some (t, os)) : t.Tracked := by
  cases r with
  | ok =>
    simp only [Descriptors.osClose, Option.ite_none_right_eq_some, Option.some.injEq,
      Prod.mk.injEq] at hs
    obtain ⟨-, rfl, -⟩ := hs
    exact h.closed hi
  | eintr released =>
    obtain rfl : released = false := hr
    simp only [Descriptors.osClose, Option.ite_none_right_eq_some, Option.some.injEq,
      Prod.mk.injEq] at hs
    obtain ⟨hopen, rfl, -⟩ := hs
    have hos : Function.update s.os fd (!false) = s.os :=
      (congrArg (Function.update s.os fd) hopen.symm).trans (Function.update_eq_self fd s.os)
    rw [hos]
    exact h
  | error released =>
    obtain rfl : released = false := hr
    simp only [Descriptors.osClose, Option.some.injEq, Prod.mk.injEq] at hs
    obtain ⟨rfl, -⟩ := hs
    have hos : Function.update s.os fd (s.os fd && !false) = s.os := by
      rw [Bool.not_false, Bool.and_true, Function.update_eq_self]
    rw [hos]
    exact h.failed hi

theorem Tracked.go {r : CloseResult} {os : List FdObs} (h : s.Tracked)
    (hi : s.calls[i]? = some c) (hr : r.Keeps) (hs : s.go i r c = some (t, os)) : t.Tracked := by
  cases c with
  | register fds done file line =>
    cases fds with
    | nil =>
      simp only [Descriptors.go, Option.some.injEq, Prod.mk.injEq] at hs
      rw [← hs.1]
      exact h.returned hi
    | cons fd fds =>
      obtain ⟨hset, htracked⟩ := h.register hi
      simp only [Descriptors.go, hset, Option.map_some, after, Option.some.injEq,
        Prod.mk.injEq] at hs
      rw [← hs.1]
      exact htracked
  | flush fd file line =>
    obtain ⟨j, hflush, htracked⟩ := h.flush hi
    simp only [Descriptors.go, hflush, Option.map_some, after, Option.some.injEq,
      Prod.mk.injEq] at hs
    rw [← hs.1]
    exact htracked
  | closing fd file line => exact h.osClose hi hr hs
  | restore fd file line =>
    obtain ⟨hset, htracked⟩ := h.restore hi
    simp only [Descriptors.go, hset, Option.map_some, after, Option.some.injEq,
      Prod.mk.injEq] at hs
    rw [← hs.1]
    exact htracked

theorem Tracked.step {a : FdAct} {os : List FdObs} (h : s.Tracked) (hd : s.Disciplined a)
    (hs : s.step a = some (t, os)) : t.Tracked := by
  have hcalm : ¬ s.panicked = true := ne_true_of_eq_false h.calm
  cases a with
  | opened fds file line =>
    simp only [Descriptors.step, Option.ite_none_right_eq_some, Option.some.injEq,
      Prod.mk.injEq] at hs
    obtain ⟨⟨-, hn, hnew⟩, rfl, -⟩ := hs
    exact h.opened hn hnew file line
  | fdStdio file line =>
    rw [Descriptors.step, if_neg hcalm] at hs
    obtain ⟨rfl, -⟩ := Prod.mk.inj (Option.some.inj hs)
    exact h.fdStdio hd file line
  | close fd =>
    rw [Descriptors.step, if_neg hcalm, h.name_of hd] at hs
    obtain ⟨rfl, -⟩ := Prod.mk.inj (Option.some.inj hs)
    exact h.close hd
  | refineFd fd file line =>
    obtain ⟨j, hrefine, htracked⟩ := h.refineFd hd file line
    rw [Descriptors.step, if_neg hcalm, hrefine] at hs
    obtain ⟨rfl, -⟩ := Prod.mk.inj (Option.some.inj hs)
    exact htracked
  | go i r =>
    rw [Descriptors.step, if_neg hcalm, Option.bind_eq_some_iff] at hs
    obtain ⟨c, hi, hs⟩ := hs
    exact h.go hi hd hs

theorem Tracked.initial : Descriptors.initial.Tracked := by
  refine ⟨rfl, ⟨CpHash.valid_empty, fun fd i hl => ?_, fun i => ?_, fun fd i hl => ?_⟩, by decide,
    fun fd => ?_, by decide, by decide, fun fd => ?_, fun c hc => ?_⟩
  · cases hl
  · have hz : openAt (fun _ => none) i = 0 := List.countP_eq_zero.mpr fun fd _ => by simp
    exact (congrArg Int.ofNat hz).symm
  · cases hl
  · show decide (fd < 3) = true ↔ fd ∈ [0, 1, 2]
    simp only [decide_eq_true_eq, List.mem_cons, List.not_mem_nil, or_false]
    omega
  · exact ⟨fun h => absurd rfl h, fun h => absurd h List.not_mem_nil⟩
  · cases hc

/-- Where no call is under way, the list has what is open and nothing else. -/
theorem Tracked.quiet (h : s.Tracked) (hc : s.calls = []) (fd : Nat) :
    s.list fd ≠ none ↔ s.os fd = true ∧ fd ∉ s.raw := by
  have hn := h.nodup
  simp only [places, hc, List.flatMap_nil, List.append_nil] at hn
  rw [h.list, h.os, listed, places, hc]
  simp only [List.flatMap_nil, List.append_nil, List.mem_append]
  constructor
  · intro hm
    exact ⟨.inr hm, fun hr => (List.nodup_append.mp hn).2.2 fd hr fd hm rfl⟩
  · rintro ⟨hm, hr⟩
    exact hm.resolve_left hr

end Descriptors

open Descriptors

/-- Where `close` gives the descriptor back and says `EINTR`, it is put into the list again, and who
opens it next panics. -/
example : (Descriptors.machine.exec (fun _ _ => True) .initial
    [.opened [3] "a.cpp" 1, .go 0 .ok, .go 0 .ok, .close 3, .go 0 .ok, .go 0 (.eintr true),
      .go 0 (.error false), .go 0 .ok, .opened [3] "b.cpp" 2, .go 0 .ok]).map (fun r => r.2) =
    some [.returned [3], .closed 3 (-1), .panic] := by
  decide +kernel

end TinyState
