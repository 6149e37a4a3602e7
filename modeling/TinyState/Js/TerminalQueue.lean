import TinyState.Lib.Machine
import Mathlib.Data.List.Nodup

/-!
# The terminal queue of marshaller

The newest event that waits is replaced by the next one, unless its terminal is one of those of
the "T" list. That list is stored under a name that nothing reads, so that it is always empty.
-/

namespace TinyState.Js

open Transition

-- ---------------------------------------------------------------------------
-- Model
-- ---------------------------------------------------------------------------

/-- An element of a "T" list. -/
inductive TerminalTag
  | null
  | string (d : String)
  | other
  deriving DecidableEq, Repr

/-- A command list, as far as it says something about the terminal queue. -/
inductive MarshallerCmd
  | T (tags : List TerminalTag)
  | invalid
  | other
  deriving DecidableEq, Repr

/-- `symbol` is that of the terminal; events are numbered in the order in which they arrive. -/
structure TerminalEvent where
  seq : Nat
  symbol : String
  deriving DecidableEq, Repr

/-- `ev.msg.symbol`: the message is a `pigTerminalHandle`, which has no such property. -/
def TerminalEvent.msgSymbol (_ : TerminalEvent) : Option String := none

/-- `tag == d`, where no value stands for `undefined`. -/
def TerminalTag.looseEq : TerminalTag → Option String → Bool
  | null, none => true
  | string d, some d' => d == d'
  | _, _ => false

namespace TerminalQueue

/-- The states that the marshaller comes to, and those that it goes through with the semaphore. -/
inductive State
  | ACT_START
  | ACT_WAIT
  | ACT_SEM
  | ACT_SEM_OK
  | ACT_FINISH_RELEASE
  | FIN_START
  | ERR_START
  deriving DecidableEq, Repr

end TerminalQueue

/-- What `pigMarshaller` has for its terminals. `doing` says that the handler of `i_state` is run
next, and `i_eventQueue` is the number of events that are still to be taken. -/
structure TerminalQueue where
  i_state : TerminalQueue.State
  doing : Bool
  i_eventQueue : Nat
  i_abort : Bool
  i_terminalFilter : List TerminalTag
  i_terminalFilster : List TerminalTag
  i_terminalQueue : List TerminalEvent
  arrivals : Nat
  deriving DecidableEq, Repr

/-- `go` runs a handler; `free` says that the semaphore has a permit. -/
inductive TerminalAct
  | terminal (symbol : String)
  | wakeup
  | abort
  | go (free : Bool)
  deriving DecidableEq, Repr

inductive TerminalObs
  | arrived (ev : TerminalEvent)
  | replaced (ev later : TerminalEvent)
  | processed (ev : TerminalEvent)
  deriving DecidableEq, Repr

namespace TerminalQueue

def new : TerminalQueue where
  i_state := .ACT_START
  doing := false
  i_eventQueue := 1
  i_abort := false
  i_terminalFilter := []
  i_terminalFilster := []
  i_terminalQueue := []
  arrivals := 0

/-- The event queue gets one more. -/
def wakeup (s : TerminalQueue) : TerminalQueue := { s with i_eventQueue := s.i_eventQueue + 1 }

def i_terminalEventHandler (s : TerminalQueue) (ev : TerminalEvent) :
    TerminalQueue × List TerminalObs :=
  match s.i_terminalQueue with
  | [] => ({ s with i_terminalQueue := [ev] }.wakeup, [])
  | newest :: rest =>
    if s.i_terminalFilter.any (·.looseEq newest.msgSymbol) then
      ({ s with i_terminalQueue := ev :: newest :: rest }.wakeup, [])
    else ({ s with i_terminalQueue := ev :: rest }.wakeup, [.replaced newest ev])

/-- `return "doNAME"` -/
def goto (s : TerminalQueue) (state : State) : TerminalQueue :=
  { s with i_state := state, doing := true }

/-- `return "NAME"` -/
def waits (s : TerminalQueue) : TerminalQueue := { s with doing := false }

/-- The loop over the command lists in `ACT_START_OK`, up to one that is refused. -/
def readCommands (s : TerminalQueue) : List MarshallerCmd → TerminalQueue × Bool
  | [] => (s, true)
  | .T tags :: cmds => { s with i_terminalFilster := tags }.readCommands cmds
  | .invalid :: _ => (s, false)
  | .other :: cmds => s.readCommands cmds

/-- The handler of `i_state`. The semaphore is given back between `ACT_SEM_OK` and `ACT_WAIT`. -/
def handle (args : List MarshallerCmd) (s : TerminalQueue) (free : Bool) :
    TerminalQueue × List TerminalObs :=
  match s.i_state with
  | .ACT_START =>
    if free then
      match s.readCommands args with
      | (s, true) => (s.goto .ACT_FINISH_RELEASE, [])
      | (s, false) => (s.goto .FIN_START, [])
    else (s.waits, [])
  | .ACT_WAIT =>
    (if s.i_abort then s.goto .FIN_START
      else if s.i_terminalQueue = [] then s.waits else s.goto .ACT_SEM, [])
  | .ACT_SEM =>
    (if s.i_abort then s.goto .FIN_START
      else if free then s.goto .ACT_SEM_OK else s.waits, [])
  | .ACT_SEM_OK =>
    match s.i_terminalQueue.getLast? with
    | none => (s.goto .ERR_START, [])
    | some ev =>
      ({ s with i_terminalQueue := s.i_terminalQueue.dropLast }.goto .ACT_FINISH_RELEASE,
        [.processed ev])
  | .ACT_FINISH_RELEASE => (s.goto .ACT_WAIT, [])
  | .FIN_START | .ERR_START => (s.waits, [])

/-- The terminals are known from `ACT_START` on. -/
def step (args : List MarshallerCmd) (s : TerminalQueue) :
    TerminalAct → Option (TerminalQueue × List TerminalObs)
  | .terminal symbol =>
    if s.i_state = .ACT_START then none
    else
      let ev := ⟨s.arrivals, symbol⟩
      let (s, os) := { s with arrivals := s.arrivals + 1 }.i_terminalEventHandler ev
      some (s, .arrived ev :: os)
  | .wakeup => some (s.wakeup, [])
  | .abort => some ({ s with i_abort := true }.wakeup, [])
  | .go free =>
    if s.doing then some (s.handle args free)
    else if 0 < s.i_eventQueue then
      some ({ s with i_eventQueue := s.i_eventQueue - 1 }.handle args free)
    else none

def machine (args : List MarshallerCmd) : Machine TerminalQueue TerminalAct TerminalObs where
  init s := s = new
  step := step args

/-- Without a permit the program is not read, and as long as it is not, there is no terminal. -/
example (args : List MarshallerCmd) (symbol : String) :
    handle args new false = (new, []) ∧ (new.goto .ACT_SEM).doing ∧
      (machine args).step new (.terminal symbol) = none := by
  simp [machine, step, handle, goto, waits, new]

-- ---------------------------------------------------------------------------
-- What is kept
-- ---------------------------------------------------------------------------

def arrived (tr : List TerminalObs) : List TerminalEvent :=
  tr.filterMap fun | .arrived ev => some ev | _ => none

def processed (tr : List TerminalObs) : List TerminalEvent :=
  tr.filterMap fun | .processed ev => some ev | _ => none

/-- The symbol is in a "T" list of the program. -/
def Listed (args : List MarshallerCmd) (ev : TerminalEvent) : Prop :=
  args.any (fun | .T tags => tags.contains (.string ev.symbol) | _ => false)

/-- What has been processed, and what waits, in the order of arrival. -/
def kept (tr : List TerminalObs) (s : TerminalQueue) : List TerminalEvent :=
  processed tr ++ s.i_terminalQueue.reverse

/-- The marshaller has not been told to end, and has not failed. -/
def Live (s : TerminalQueue) : Prop :=
  s.i_abort = false ∧ s.i_state ≠ .FIN_START ∧ s.i_state ≠ .ERR_START ∧ s.i_state ≠ .ACT_START

/-- Left alone, and given a permit whenever it asks, the marshaller comes to `t`. -/
def Alone (args : List MarshallerCmd) (s t : TerminalQueue) (os : List TerminalObs) : Prop :=
  ∃ n, (machine args).exec (fun _ _ => True) s (List.replicate n (.go true)) = some (t, os)

structure Kept (args : List MarshallerCmd) (tr : List TerminalObs) (s : TerminalQueue) : Prop where
  /-- No event arrives twice, and what is processed is processed in the order of arrival. -/
  nodup : (arrived tr).Nodup
  order : (kept tr s).Sublist (arrived tr)
  listed : ∀ ev ∈ arrived tr, Listed args ev → ev ∈ kept tr s
  replaced : ∀ ev ∈ arrived tr, ev ∉ kept tr s →
    ∃ later ∈ arrived tr, ev.seq < later.seq ∧ .replaced ev later ∈ tr
  last : ∀ ev ∈ (arrived tr).getLast?, ev ∈ kept tr s
  /-- Where events wait and the marshaller does nothing, it waits for the semaphore. -/
  attended : s.i_terminalQueue ≠ [] → Live s →
    s.doing ∨ 0 < s.i_eventQueue ∨ s.i_state = .ACT_SEM
  /-- Once it is woken, what waits is processed. -/
  drains : Live s → ∃ t os, Alone args s.wakeup t os ∧ t.i_terminalQueue = [] ∧
    processed os = s.i_terminalQueue.reverse

/-- No event arrives while one of the "T" list is the newest that waits. -/
def Sparse (args : List MarshallerCmd) (s : TerminalQueue) : TerminalAct → Prop
  | .terminal _ => ∀ ev ∈ s.i_terminalQueue.head?, ¬ Listed args ev
  | _ => True

variable {args : List MarshallerCmd} {s t u : TerminalQueue} {tr os os' : List TerminalObs}
  {a : TerminalAct} {free : Bool} {ev : TerminalEvent}

-- ---------------------------------------------------------------------------
-- Left alone
-- ---------------------------------------------------------------------------

theorem Alone.refl (s : TerminalQueue) : Alone args s s [] := ⟨0, rfl⟩

theorem Alone.step (hs : (machine args).step s (.go true) = some (t, os))
    (h : Alone args t u os') : Alone args s u (os ++ os') := by
  obtain ⟨n, hn⟩ := h
  refine ⟨n + 1, ?_⟩
  rw [List.replicate_succ, Machine.exec, if_pos trivial, hs]
  simp only [Option.bind_eq_bind, Option.bind_some, hn]
  rfl

/-- A handler that follows another one. -/
theorem step_doing (hd : s.doing = true) :
    (machine args).step s (.go true) = some (s.handle args true) := by
  simp [machine, TerminalQueue.step, hd]

theorem step_taken (hd : s.doing = false) (hq : 0 < s.i_eventQueue) :
    (machine args).step s (.go true) =
      some ({ s with i_eventQueue := s.i_eventQueue - 1 }.handle args true) := by
  simp [machine, TerminalQueue.step, hd, hq]

/-- The way from `ACT_WAIT` on. -/
theorem alone_wait (q : List TerminalEvent) (hq : s.i_terminalQueue = q.reverse)
    (hs : s.i_state = .ACT_WAIT) (hd : s.doing = true) (hab : s.i_abort = false) :
    ∃ t os, Alone args s t os ∧ t.i_terminalQueue = [] ∧ processed os = q := by
  induction q generalizing s with
  | nil =>
    refine ⟨_, _, (Alone.refl _).step (step_doing hd), ?_⟩
    simp [hs, hab, hq, waits, processed]
  | cons ev q ih =>
    obtain ⟨t, os, ht, hn, hp⟩ := ih (s := { s with
      i_terminalQueue := q.reverse, i_state := .ACT_WAIT }) rfl rfl hd hab
    have hne : s.i_terminalQueue ≠ [] := by simp [hq]
    have hlast : s.i_terminalQueue.getLast? = some ev := by simp [hq]
    have hdrop : s.i_terminalQueue.dropLast = q.reverse := by simp [hq]
    refine ⟨t, [] ++ ([] ++ ([.processed ev] ++ ([] ++ os))), ?_, hn, ?_⟩
    · refine Alone.step (t := s.goto .ACT_SEM) ?_ (.step (t := s.goto .ACT_SEM_OK) ?_
        (.step (t := ({ s with i_terminalQueue := q.reverse } : TerminalQueue).goto
          .ACT_FINISH_RELEASE) ?_ (.step ?_ ht)))
      · rw [step_doing hd]
        simp [handle, hs, hab, hne]
      · rw [step_doing rfl]
        simp [handle, goto, hab]
      · rw [step_doing rfl]
        simp [handle, goto, hlast, hdrop]
      · rw [step_doing rfl]
        simp [handle, goto, hd]
    · rw [← hp]
      rfl

/-- The way on from a handler that is about to run. -/
theorem alone_doing (hl : Live s) (hd : s.doing = true)
    (hne : s.i_state = .ACT_SEM ∨ s.i_state = .ACT_SEM_OK → s.i_terminalQueue ≠ []) :
    ∃ t os, Alone args s t os ∧ t.i_terminalQueue = [] ∧
      processed os = s.i_terminalQueue.reverse := by
  obtain ⟨hab, hfin, herr, hstart⟩ := hl
  have hrev := (List.reverse_reverse s.i_terminalQueue).symm
  -- a marshaller with the permit processes one event, and comes to `ACT_WAIT`
  have hok : ∀ s : TerminalQueue, s.doing = true → s.i_abort = false → s.i_state = .ACT_SEM_OK →
      s.i_terminalQueue ≠ [] → ∃ t os, Alone args s t os ∧ t.i_terminalQueue = [] ∧
        processed os = s.i_terminalQueue.reverse := by
    intro s hd hab hs hne
    obtain ⟨q, ev, hq⟩ := (List.eq_nil_or_concat _).resolve_left hne
    obtain ⟨t, os, ht, hn, hp⟩ := @alone_wait args
      { s with i_terminalQueue := q, i_state := .ACT_WAIT } q.reverse (by simp) rfl hd hab
    refine ⟨t, [.processed ev] ++ ([] ++ os), ?_, hn, ?_⟩
    · refine .step (t := ({ s with i_terminalQueue := q } : TerminalQueue).goto
          .ACT_FINISH_RELEASE) ?_ (.step ?_ ht)
      · rw [step_doing hd]
        simp [handle, goto, hs, hq]
      · rw [step_doing rfl]
        simp [handle, goto, hd]
    · rw [hq]
      simpa [processed] using hp
  cases hs : s.i_state with
  | ACT_START => exact absurd hs hstart
  | FIN_START => exact absurd hs hfin
  | ERR_START => exact absurd hs herr
  | ACT_WAIT => exact alone_wait _ hrev hs hd hab
  | ACT_SEM_OK => exact hok s hd hab hs (hne (.inr hs))
  | ACT_SEM =>
    obtain ⟨t, os, ht, hn, hp⟩ := hok (s.goto .ACT_SEM_OK) rfl hab rfl (hne (.inl hs))
    refine ⟨t, [] ++ os, .step ?_ ht, hn, hp⟩
    rw [step_doing hd]
    simp [handle, hs, hab]
  | ACT_FINISH_RELEASE =>
    obtain ⟨t, os, ht, hn, hp⟩ := @alone_wait args (s.goto .ACT_WAIT) _ hrev rfl rfl hab
    refine ⟨t, [] ++ os, .step ?_ ht, hn, hp⟩
    rw [step_doing hd]
    simp [handle, hs]

-- ---------------------------------------------------------------------------
-- Steps
-- ---------------------------------------------------------------------------

theorem arrived_append (tr os : List TerminalObs) : arrived (tr ++ os) = arrived tr ++ arrived os :=
  List.filterMap_append

theorem processed_append (tr os : List TerminalObs) :
    processed (tr ++ os) = processed tr ++ processed os := List.filterMap_append

/-- What the events that have arrived have become. -/
structure Account (args : List MarshallerCmd) (tr : List TerminalObs) (s : TerminalQueue) :
    Prop where
  fresh : ∀ ev ∈ arrived tr, ev.seq < s.arrivals
  nodup : (arrived tr).Nodup
  order : (kept tr s).Sublist (arrived tr)
  listed : ∀ ev ∈ arrived tr, Listed args ev → ev ∈ kept tr s
  replaced : ∀ ev ∈ arrived tr, ev ∉ kept tr s →
    ∃ later ∈ arrived tr, ev.seq < later.seq ∧ .replaced ev later ∈ tr
  last : ∀ ev ∈ (arrived tr).getLast?, ev ∈ kept tr s

/-- Where the marshaller is. -/
structure Place (s : TerminalQueue) : Prop where
  filter : s.i_terminalFilter = []
  pending : s.i_state = .ACT_SEM ∨ s.i_state = .ACT_SEM_OK → s.i_terminalQueue ≠ []
  start : s.i_state = .ACT_START → s.i_terminalQueue = []
  going : s.i_state = .ACT_SEM_OK ∨ s.i_state = .ACT_FINISH_RELEASE → s.doing

/-- A marshaller that waits for events while there are some is about to be told. -/
def Woken (s : TerminalQueue) : Prop :=
  s.i_state = .ACT_WAIT → s.i_terminalQueue ≠ [] → s.doing ∨ 0 < s.i_eventQueue

structure Inv (args : List MarshallerCmd) (tr : List TerminalObs) (s : TerminalQueue) : Prop where
  account : Account args tr s
  place : Place s
  woken : Woken s

theorem Place.waits (h : Place s) (h₁ : s.i_state ≠ .ACT_SEM_OK)
    (h₂ : s.i_state ≠ .ACT_FINISH_RELEASE) : Place s.waits :=
  ⟨h.filter, h.pending, h.start, fun h => (h.elim h₁ h₂).elim⟩

theorem Account.same (h : Account args tr s) (hn : t.arrivals = s.arrivals)
    (ha : arrived os = []) (hk : kept (tr ++ os) t = kept tr s) : Account args (tr ++ os) t := by
  have harr : arrived (tr ++ os) = arrived tr := by rw [arrived_append, ha, List.append_nil]
  refine ⟨?_, ?_, ?_, ?_, ?_, ?_⟩
  · rw [harr, hn]
    exact h.fresh
  · rw [harr]
    exact h.nodup
  · rw [harr, hk]
    exact h.order
  · rw [harr, hk]
    exact h.listed
  · rw [harr, hk]
    intro ev hev hnot
    obtain ⟨later, hl, hlt, hr⟩ := h.replaced ev hev hnot
    exact ⟨later, hl, hlt, List.mem_append_left _ hr⟩
  · rw [harr, hk]
    exact h.last

theorem Account.quiet (h : Account args tr s) (hn : t.arrivals = s.arrivals)
    (hq : t.i_terminalQueue = s.i_terminalQueue) : Account args (tr ++ []) t := by
  apply h.same hn rfl
  rw [kept, kept, List.append_nil, hq]

/-- An event arrives, and `old` of those that were kept are left. -/
theorem Account.arrive (h : Account args tr s) (old : List TerminalEvent) {rest : List TerminalObs}
    (he : ev.seq = s.arrivals) (hn : t.arrivals = s.arrivals + 1)
    (hrest : arrived rest = []) (hk : kept (tr ++ TerminalObs.arrived ev :: rest) t = old ++ [ev])
    (hold : old.Sublist (arrived tr)) (hlist : ∀ x ∈ kept tr s, Listed args x → x ∈ old)
    (hrep : ∀ x ∈ kept tr s, x ∉ old → .replaced x ev ∈ rest) :
    Account args (tr ++ TerminalObs.arrived ev :: rest) t := by
  have harr : arrived (tr ++ TerminalObs.arrived ev :: rest) = arrived tr ++ [ev] := by
    rw [arrived_append]
    change _ ++ (ev :: arrived rest) = _
    rw [hrest]
  refine ⟨?_, ?_, ?_, ?_, ?_, ?_⟩
  · rw [harr, hn]
    intro x hx
    rcases List.mem_append.mp hx with hx | hx
    · exact Nat.lt_succ_of_lt (h.fresh x hx)
    · rw [List.mem_singleton.mp hx, he]
      exact Nat.lt_succ_self _
  · rw [harr, List.nodup_append]
    refine ⟨h.nodup, List.nodup_singleton ev, fun x hx y hy hxy => ?_⟩
    have hlt := h.fresh x hx
    rw [hxy, List.mem_singleton.mp hy, he] at hlt
    exact Nat.lt_irrefl _ hlt
  · rw [harr, hk]
    exact hold.append_right [ev]
  · rw [harr, hk]
    intro x hx hl
    rcases List.mem_append.mp hx with hx | hx
    · exact List.mem_append_left _ (hlist x (h.listed x hx hl) hl)
    · exact List.mem_append_right _ hx
  · rw [harr, hk]
    intro x hx hnot
    rw [List.mem_append, not_or] at hnot
    have hx := (List.mem_append.mp hx).resolve_right hnot.2
    by_cases hkept : x ∈ kept tr s
    · refine ⟨ev, List.mem_append_right _ (List.mem_singleton_self ev), ?_, ?_⟩
      · rw [he]
        exact h.fresh x hx
      · exact List.mem_append_right _ (List.mem_cons_of_mem _ (hrep x hkept hnot.1))
    · obtain ⟨later, hl, hlt, hr⟩ := h.replaced x hx hkept
      exact ⟨later, List.mem_append_left _ hl, hlt, List.mem_append_left _ hr⟩
  · rw [harr, hk, List.getLast?_concat]
    rintro x ⟨⟩
    exact List.mem_append_right _ (List.mem_singleton_self _)

theorem readCommands_eq {cmds : List MarshallerCmd} {ok : Bool}
    (h : s.readCommands cmds = (t, ok)) :
    ∃ tags, t = { s with i_terminalFilster := tags } := by
  induction cmds generalizing s with
  | nil =>
    cases h
    exact ⟨_, rfl⟩
  | cons c cmds ih =>
    cases c with
    | T tags =>
      obtain ⟨tags', rfl⟩ := ih h
      exact ⟨tags', rfl⟩
    | invalid =>
      cases h
      exact ⟨_, rfl⟩
    | other => exact ih h

theorem handle_good (ha : Account args tr s) (hp : Place s) :
    Inv args (tr ++ (s.handle args free).2) (s.handle args free).1 := by
  unfold handle
  split
  · next hs =>
    split
    · split
      · next u hu =>
        obtain ⟨tags, rfl⟩ := readCommands_eq hu
        exact ⟨ha.quiet rfl rfl, ⟨hp.filter, nofun, nofun, fun _ => rfl⟩, nofun⟩
      · next u hu =>
        obtain ⟨tags, rfl⟩ := readCommands_eq hu
        exact ⟨ha.quiet rfl rfl, ⟨hp.filter, nofun, nofun, nofun⟩, nofun⟩
    · refine ⟨ha.quiet rfl rfl, hp.waits (by rw [hs]; nofun) (by rw [hs]; nofun), fun _ hq => ?_⟩
      exact absurd (hp.start hs) hq
  · next hs =>
    split
    · exact ⟨ha.quiet rfl rfl, ⟨hp.filter, nofun, nofun, nofun⟩, nofun⟩
    · split
      · next hq => exact ⟨ha.quiet rfl rfl, hp.waits (by rw [hs]; nofun) (by rw [hs]; nofun),
          fun _ h => absurd hq h⟩
      · next hq => exact ⟨ha.quiet rfl rfl, ⟨hp.filter, fun _ => hq, nofun, nofun⟩, nofun⟩
  · next hs =>
    have hq := hp.pending (.inl hs)
    split
    · exact ⟨ha.quiet rfl rfl, ⟨hp.filter, nofun, nofun, nofun⟩, nofun⟩
    · split
      · exact ⟨ha.quiet rfl rfl, ⟨hp.filter, fun _ => hq, nofun, fun _ => rfl⟩, nofun⟩
      · refine ⟨ha.quiet rfl rfl, hp.waits (by rw [hs]; nofun) (by rw [hs]; nofun), fun h => ?_⟩
        cases hs.symm.trans h
  · next hs =>
    have hq := hp.pending (.inr hs)
    split
    · next hn => exact absurd (List.getLast?_eq_none_iff.mp hn) hq
    · next ev hev =>
      refine ⟨ha.same rfl rfl ?_, ⟨hp.filter, nofun, nofun, fun _ => rfl⟩, nofun⟩
      obtain ⟨l, hl⟩ := List.getLast?_eq_some_iff.mp hev
      rw [kept, kept, processed_append, hl]
      simp [goto, processed]
  · exact ⟨ha.quiet rfl rfl, ⟨hp.filter, nofun, nofun, nofun⟩, fun _ _ => .inl rfl⟩
  · next hs =>
    refine ⟨ha.quiet rfl rfl, hp.waits (by rw [hs]; nofun) (by rw [hs]; nofun), fun h => ?_⟩
    cases hs.symm.trans h
  · next hs =>
    refine ⟨ha.quiet rfl rfl, hp.waits (by rw [hs]; nofun) (by rw [hs]; nofun), fun h => ?_⟩
    cases hs.symm.trans h

theorem terminal_good (ha : Account args tr s) (hp : Place s) {symbol : String}
    (hc : s.Sparse args (.terminal symbol)) (hs : s.step args (.terminal symbol) = some (t, os)) :
    Inv args (tr ++ os) t := by
  obtain ⟨hstate, he⟩ := Option.ite_none_left_eq_some.mp hs
  dsimp only at he
  split at he
  · next hq =>
    cases he
    refine ⟨ha.arrive (kept tr s) rfl rfl rfl ?_ ha.order (fun _ hx _ => hx)
      (fun x hx hn => absurd hx hn), ?_, fun _ _ => .inr (Nat.succ_pos _)⟩
    · rw [kept, kept, processed_append]
      change s.i_terminalQueue = [] at hq
      rw [hq]
      simp [processed, TerminalQueue.wakeup]
    · exact ⟨hp.filter, fun _ => List.cons_ne_nil _ _, fun h => absurd h hstate, hp.going⟩
  · next newest rest hq =>
    change s.i_terminalQueue = newest :: rest at hq
    -- the filter is empty, whatever the program says
    have hfilter : s.i_terminalFilter.any (·.looseEq newest.msgSymbol) = false := by
      rw [hp.filter]
      rfl
    rw [hfilter, if_neg Bool.false_ne_true] at he
    cases he
    have hkept : kept tr s = processed tr ++ rest.reverse ++ [newest] := by
      simp [kept, hq]
    have hnew := hc newest (by rw [hq]; rfl)
    refine ⟨ha.arrive (processed tr ++ rest.reverse) rfl rfl rfl ?_ ?_ ?_ ?_, ?_,
      fun _ _ => .inr (Nat.succ_pos _)⟩
    · rw [kept, processed_append]
      simp [processed, TerminalQueue.wakeup]
    · have ho := ha.order
      rw [hkept] at ho
      exact (List.sublist_append_left _ _).trans ho
    · intro x hx hl
      rw [hkept] at hx
      refine (List.mem_append.mp hx).resolve_right fun hm => hnew ?_
      rwa [List.mem_singleton.mp hm] at hl
    · intro x hx hn
      rw [hkept] at hx
      have hm := (List.mem_append.mp hx).resolve_left hn
      rw [List.mem_singleton.mp hm]
      exact List.mem_singleton_self _
    · exact ⟨hp.filter, fun _ => List.cons_ne_nil _ _, fun h => absurd h hstate, hp.going⟩

theorem Inv.step (h : Inv args tr s) (hc : s.Sparse args a) (hs : s.step args a = some (t, os)) :
    Inv args (tr ++ os) t := by
  have ha := h.account
  have hp := h.place
  cases a with
  | terminal symbol => exact terminal_good ha hp hc hs
  | wakeup =>
    cases hs
    exact ⟨ha.quiet rfl rfl, ⟨hp.filter, hp.pending, hp.start, hp.going⟩,
      fun _ _ => .inr (Nat.succ_pos _)⟩
  | abort =>
    cases hs
    exact ⟨ha.quiet rfl rfl, ⟨hp.filter, hp.pending, hp.start, hp.going⟩,
      fun _ _ => .inr (Nat.succ_pos _)⟩
  | go free =>
    simp only [TerminalQueue.step] at hs
    split at hs
    · have h := @handle_good args s tr free ha hp
      rw [Option.some.inj hs] at h
      exact h
    · split at hs
      · have h := @handle_good args { s with i_eventQueue := s.i_eventQueue - 1 } tr free
          ⟨ha.fresh, ha.nodup, ha.order, ha.listed, ha.replaced, ha.last⟩
          ⟨hp.filter, hp.pending, hp.start, hp.going⟩
        rw [Option.some.inj hs] at h
        exact h
      · cases hs

theorem inv_new : Inv args [] new where
  account := ⟨nofun, List.nodup_nil, List.Sublist.refl _, nofun, nofun, nofun⟩
  place := ⟨rfl, nofun, fun _ => rfl, nofun⟩
  woken := nofun

/-- Once it is woken, the marshaller processes what waits. -/
theorem Inv.drains (h : Inv args tr s) (hl : Live s) :
    ∃ t os, Alone args s.wakeup t os ∧ t.i_terminalQueue = [] ∧
      processed os = s.i_terminalQueue.reverse := by
  by_cases hd : s.doing = true
  · exact alone_doing (s := s.wakeup) hl hd h.place.pending
  · have hd := Bool.eq_false_iff.mpr hd
    obtain ⟨hab, hfin, herr, hstart⟩ := hl
    have htaken := @step_taken args s.wakeup hd (Nat.succ_pos _)
    cases hs : s.i_state with
    | ACT_START => exact absurd hs hstart
    | FIN_START => exact absurd hs hfin
    | ERR_START => exact absurd hs herr
    | ACT_SEM_OK => exact absurd (h.place.going (.inl hs)) (by simp [hd])
    | ACT_FINISH_RELEASE => exact absurd (h.place.going (.inr hs)) (by simp [hd])
    | ACT_WAIT =>
      by_cases hq : s.i_terminalQueue = []
      · refine ⟨_, _, .step htaken (.refl _), ?_⟩
        simp [TerminalQueue.wakeup, waits, processed, hs, hab, hq]
      · obtain ⟨t, os, ht, hn, hp⟩ := @alone_doing args (s.goto .ACT_SEM)
          ⟨hab, nofun, nofun, nofun⟩ rfl (fun _ => hq)
        refine ⟨t, [] ++ os, .step ?_ ht, hn, hp⟩
        rw [htaken]
        simp [handle, TerminalQueue.wakeup, goto, hs, hab, hq]
    | ACT_SEM =>
      obtain ⟨t, os, ht, hn, hp⟩ := @alone_doing args (s.goto .ACT_SEM_OK)
        ⟨hab, nofun, nofun, nofun⟩ rfl (fun _ => h.place.pending (.inl hs))
      refine ⟨t, [] ++ os, .step ?_ ht, hn, hp⟩
      rw [htaken]
      simp [handle, TerminalQueue.wakeup, goto, hs, hab]

theorem Inv.attended (h : Inv args tr s) (hq : s.i_terminalQueue ≠ []) (hl : Live s) :
    s.doing ∨ 0 < s.i_eventQueue ∨ s.i_state = .ACT_SEM := by
  obtain ⟨-, hfin, herr, hstart⟩ := hl
  cases hs : s.i_state with
  | ACT_START => exact absurd hs hstart
  | FIN_START => exact absurd hs hfin
  | ERR_START => exact absurd hs herr
  | ACT_SEM_OK => exact .inl (h.place.going (.inl hs))
  | ACT_FINISH_RELEASE => exact .inl (h.place.going (.inr hs))
  | ACT_SEM => exact .inr (.inr rfl)
  | ACT_WAIT => exact (h.woken hs hq).imp_right .inl

/-- The queue keeps what it should as long as no event arrives while one of the "T" list is the
newest that waits. -/
theorem terminalQueue_law (args : List MarshallerCmd)
    (h : (machine args).RunIf (Sparse args) tr s) : Kept args tr s := by
  have hi : Inv args tr s := by
    induction h with
    | start hi =>
      cases hi
      exact inv_new
    | step _ hc hs ih => exact ih.step hc hs
  have ha := hi.account
  exact ⟨ha.nodup, ha.order, ha.listed, ha.replaced, ha.last, hi.attended, hi.drains⟩

-- ---------------------------------------------------------------------------
-- Two events at a time
-- ---------------------------------------------------------------------------

instance (args : List MarshallerCmd) (ev : TerminalEvent) : Decidable (Listed args ev) := by
  unfold Listed
  infer_instance

instance (args : List MarshallerCmd) (s : TerminalQueue) (a : TerminalAct) :
    Decidable (s.Sparse args a) := by
  cases a <;> unfold Sparse <;> infer_instance

/-- A program with one "T" list. -/
def clicks : List MarshallerCmd := [.other, .T [.string "e.click"]]

/-- The marshaller has come to rest. -/
def opened : List TerminalAct := [.go true, .go true, .go true]

/-- An event that is not in the list is replaced, and one that is in the list is processed. -/
theorem terminalQueue_law_clicks : ∃ tr s, Kept clicks tr s ∧
    processed tr = [⟨1, "e.click"⟩] ∧ .replaced ⟨0, "e.move"⟩ ⟨1, "e.click"⟩ ∈ tr := by
  obtain ⟨tr, s, h, hp, hr⟩ := Machine.exists_run (M := machine clicks) (C := Sparse clicks)
    (P := fun tr _ => processed tr = [⟨1, "e.click"⟩] ∧
      .replaced ⟨0, "e.move"⟩ ⟨1, "e.click"⟩ ∈ tr)
    (opened ++ [TerminalAct.terminal "e.move", .go false, .go false, .terminal "e.click", .go true,
      .go true])
    (s := new) rfl (by decide +kernel)
  exact ⟨tr, s, terminalQueue_law clicks h, hp, hr⟩

/-- Two clicks while the marshaller waits for the semaphore: the first one is lost. -/
theorem terminalQueue_fails : ∃ tr s, (machine clicks).Run tr s ∧ s.i_terminalQueue = [] ∧
    arrived tr = [⟨0, "e.click"⟩, ⟨1, "e.click"⟩] ∧ processed tr = [⟨1, "e.click"⟩] :=
  Machine.exists_run
    (opened ++ [TerminalAct.terminal "e.click", .go false, .go false, .terminal "e.click", .go true,
      .go true])
    (s := new) rfl (by decide +kernel)

end TerminalQueue

end TinyState.Js
