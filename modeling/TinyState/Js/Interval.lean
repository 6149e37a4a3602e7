import Mathlib.Data.List.Nodup
import Mathlib.Data.Rat.Floor
import TinyState.Lib.Machine
import TinyState.Lib.Temporal

/-!
# stdInterval

`wait` puts a node in `i_queue`, sorted by the time at which it expires, with the
nodes of one time in a chain; `i_setTimeout` has the host call `i_invoke` at the
time of the head; `i_invoke` sends the events of what has expired and sets the
next call. The receivers of the events may wait again meanwhile.

A wait that is due at once goes to `i_justTimeQueue` instead. `i_setTimeout` looks
at the `length` of that queue, which is a node by then and has none.
-/

namespace TinyState.Js

open Transition

variable {ι τ : Type}

-- ---------------------------------------------------------------------------
-- Model
-- ---------------------------------------------------------------------------

/-- One call of `wait`; `id` tells the calls apart. -/
structure Wait (ι τ : Type) where
  id : Nat
  expire : Int
  caller : ι
  eventType : τ
deriving DecidableEq

structure IntervalNode (ι τ : Type) where
  wait : Wait ι τ
  setting : Bool
deriving DecidableEq

/-- An element of `i_queue`: a node and those behind it. -/
structure IntervalChain (ι τ : Type) where
  node : IntervalNode ι τ
  next : List (IntervalNode ι τ)
deriving DecidableEq

/-- `i_justTimeQueue`: an array at first, and then a node whose `next` is what was there. -/
inductive JustTimeQueue (ι τ : Type)
  | array
  | node (head : IntervalNode ι τ) (next : JustTimeQueue ι τ)
deriving DecidableEq

/-- The property `length`, which a node does not have. -/
def JustTimeQueue.length : JustTimeQueue ι τ → Option Nat
  | array => some 0
  | node .. => none

def JustTimeQueue.chain : JustTimeQueue ι τ → Option (IntervalChain ι τ)
  | array => none
  | node head next => some ⟨head, (next.chain.map fun c => c.node :: c.next).getD []⟩

/-- `pending` are the calls of `i_invoke` that the host has still to make: the
argument, and the time from which it may. `invoking` is the call that is running:
its `nowtim`, and what is left of the chain at the head of the queue. -/
structure StdInterval (ι τ : Type) where
  nowMsec : Int
  i_queue : List (IntervalChain ι τ)
  i_justTimeQueue : JustTimeQueue ι τ
  pending : List (Int × Int)
  invoking : Option (Int × List (IntervalNode ι τ))
  calls : Nat
deriving DecidableEq

inductive IntervalAct (ι τ : Type)
  | wait (caller : ι) (interval : ℚ) (eventType : τ)
  | tick (now : Int)
  /-- The host makes a call. -/
  | fire (i : Nat)
  /-- `i_invoke` goes on, the last receiver having returned. -/
  | go
  /-- The last receiver throws. -/
  | throw
deriving DecidableEq

inductive IntervalObs (ι τ : Type)
  | waits (w : Wait ι τ)
  | dueNow (w : Wait ι τ)
  | event (w : Wait ι τ) (time : Int)
deriving DecidableEq

namespace IntervalChain

def expire (c : IntervalChain ι τ) : Int := c.node.wait.expire

def nodes (c : IntervalChain ι τ) : List (IntervalNode ι τ) := c.node :: c.next

/-- `for ( n = node ; n ; n = n.next ) n.setting = true` -/
def set (c : IntervalChain ι τ) : IntervalChain ι τ :=
  ⟨{ c.node with setting := true }, c.next.map fun n => { n with setting := true }⟩

end IntervalChain

namespace StdInterval

/-- `setTimeout('i_invoke(expire)',expire-nowMsec())`, which never waits less than no time. -/
def setTimeout (s : StdInterval ι τ) (expire : Int) : StdInterval ι τ :=
  { s with pending := s.pending ++ [(expire, s.nowMsec + max 0 (expire - s.nowMsec))] }

def i_setTimeout (s : StdInterval ι τ) : StdInterval ι τ :=
  let s :=
    if s.i_justTimeQueue.length.any (0 < ·) then
      { s with
        i_queue := s.i_justTimeQueue.chain.toList ++ s.i_queue
        i_justTimeQueue := .array }
    else s
  match s.i_queue with
  | [] => s
  | c :: rest =>
    if c.node.setting then s else { s with i_queue := c.set :: rest }.setTimeout c.expire

/-- The search for a place in `i_queue`. -/
def insert (w : Wait ι τ) : List (IntervalChain ι τ) → List (IntervalChain ι τ)
  | [] => [⟨⟨w, false⟩, []⟩]
  | c :: rest =>
    if w.expire < c.expire then ⟨⟨w, false⟩, []⟩ :: c :: rest
    else if c.expire = w.expire then ⟨⟨w, c.node.setting⟩, c.nodes⟩ :: rest
    else c :: insert w rest

def wait (s : StdInterval ι τ) (caller : ι) (interval : ℚ) (eventType : τ) :
    StdInterval ι τ × List (IntervalObs ι τ) :=
  if interval < 0 then (s, [])
  else
    let w := ⟨s.calls, s.nowMsec + ⌈interval / 1000⌉, caller, eventType⟩
    let s := { s with calls := s.calls + 1 }
    if w.expire ≤ s.nowMsec then
      ({ s with i_justTimeQueue := .node ⟨w, false⟩ s.i_justTimeQueue }, [.dueNow w])
    else ({ s with i_queue := insert w s.i_queue }.i_setTimeout, [.waits w])

/-- The head of the loop of `i_invoke`, and its end. -/
def loop (s : StdInterval ι τ) (nowtim : Int) : StdInterval ι τ :=
  match s.i_queue with
  | [] => { s with invoking := none }.i_setTimeout
  | c :: _ =>
    if nowtim < c.expire then { s with invoking := none }.i_setTimeout
    else { s with invoking := some (nowtim, c.nodes) }

def i_invoke (s : StdInterval ι τ) (expire : Int) : StdInterval ι τ :=
  if s.nowMsec < expire then s.setTimeout expire else s.loop s.nowMsec

def step (s : StdInterval ι τ) : IntervalAct ι τ → Option (StdInterval ι τ × List (IntervalObs ι τ))
  | .wait caller interval eventType => some (s.wait caller interval eventType)
  | .tick now => if s.nowMsec ≤ now then some ({ s with nowMsec := now }, []) else none
  | .fire i =>
    match s.invoking, s.pending[i]? with
    | none, some (expire, due) =>
      if due ≤ s.nowMsec then some ({ s with pending := s.pending.eraseIdx i }.i_invoke expire, [])
      else none
    | _, _ => none
  | .go =>
    match s.invoking with
    | none => none
    | some (nowtim, node :: rest) =>
      some ({ s with invoking := some (nowtim, rest) }, [.event node.wait nowtim])
    | some (nowtim, []) => some ({ s with i_queue := s.i_queue.tail }.loop nowtim, [])
  | .throw => if s.invoking.isSome then some ({ s with invoking := none }, []) else none

def initial (ι τ : Type) (now : Int) : StdInterval ι τ :=
  { nowMsec := now, i_queue := [], i_justTimeQueue := .array, pending := [], invoking := none,
    calls := 0 }

end StdInterval

def interval (ι τ : Type) : Machine (StdInterval ι τ) (IntervalAct ι τ) (IntervalObs ι τ) where
  init s := ∃ now, s = .initial ι τ now
  step := StdInterval.step

-- ---------------------------------------------------------------------------
-- The queue
-- ---------------------------------------------------------------------------

namespace IntervalChain

variable {c d : IntervalChain ι τ} {w : Wait ι τ}

def waits (c : IntervalChain ι τ) : List (Wait ι τ) := c.nodes.map IntervalNode.wait

@[simp] theorem set_expire : c.set.expire = c.expire := rfl

@[simp] theorem set_setting : c.set.node.setting = true := rfl

@[simp] theorem set_waits : c.set.waits = c.waits := by
  simp [waits, nodes, set, Function.comp_def]

/-- The nodes of a chain expire at one time. -/
def Even (c : IntervalChain ι τ) : Prop := ∀ w ∈ c.waits, w.expire = c.expire

theorem Even.set (h : c.Even) : c.set.Even := by
  intro w hw
  rw [set_waits] at hw
  exact h w hw

end IntervalChain

open IntervalChain

/-- The queue ascends strictly, and the chains are even. -/
structure Ascending (q : List (IntervalChain ι τ)) : Prop where
  sorted : q.Pairwise fun c d => c.expire < d.expire
  even : ∀ c ∈ q, c.Even

namespace StdInterval

variable {q : List (IntervalChain ι τ)} {c d : IntervalChain ι τ} {w : Wait ι τ}

theorem mem_insert_expire (h : d ∈ insert w q) :
    d.expire = w.expire ∨ ∃ e ∈ q, e.expire = d.expire := by
  induction q with
  | nil =>
    obtain rfl := List.mem_singleton.mp h
    exact .inl rfl
  | cons c rest ih =>
    unfold insert at h
    split at h
    · rcases List.mem_cons.mp h with rfl | h
      · exact .inl rfl
      · exact .inr ⟨d, h, rfl⟩
    · split at h
      · rcases List.mem_cons.mp h with rfl | h
        · exact .inl rfl
        · exact .inr ⟨d, List.mem_cons_of_mem c h, rfl⟩
      · rcases List.mem_cons.mp h with rfl | h
        · exact .inr ⟨d, List.mem_cons_self, rfl⟩
        · obtain he | ⟨e, he, hd⟩ := ih h
          · exact .inl he
          · exact .inr ⟨e, List.mem_cons_of_mem c he, hd⟩

theorem Ascending.insert (h : Ascending q) : Ascending (insert w q) := by
  induction q with
  | nil =>
    refine ⟨List.pairwise_singleton .., fun c hc => ?_⟩
    obtain rfl := List.mem_singleton.mp hc
    intro v hv
    obtain rfl := List.mem_singleton.mp hv
    rfl
  | cons c rest ih =>
    obtain ⟨hlt, hsorted⟩ := List.pairwise_cons.mp h.sorted
    obtain ⟨hc, heven⟩ := List.forall_mem_cons.mp h.even
    unfold StdInterval.insert
    split
    · next hw =>
      refine ⟨List.pairwise_cons.mpr ⟨fun d hd => ?_, h.sorted⟩,
        List.forall_mem_cons.mpr ⟨fun v hv => ?_, h.even⟩⟩
      · rcases List.mem_cons.mp hd with rfl | hd
        · exact hw
        · exact Int.lt_trans hw (hlt d hd)
      · obtain rfl := List.mem_singleton.mp hv
        rfl
    · split
      · next hw =>
        refine ⟨List.pairwise_cons.mpr ⟨fun d hd => ?_, hsorted⟩,
          List.forall_mem_cons.mpr ⟨fun v hv => ?_, heven⟩⟩
        · exact lt_of_eq_of_lt hw.symm (hlt d hd)
        · rcases List.mem_cons.mp hv with rfl | hv
          · rfl
          · exact (hc v hv).trans hw
      · next hle hne =>
        obtain ⟨hs, he⟩ := ih ⟨hsorted, heven⟩
        refine ⟨List.pairwise_cons.mpr ⟨fun d hd => ?_, hs⟩, List.forall_mem_cons.mpr ⟨hc, he⟩⟩
        obtain hd | ⟨e, he, hd⟩ := mem_insert_expire hd
        · rw [hd]
          exact lt_of_le_of_ne (Int.not_lt.mp hle) hne
        · exact hd ▸ hlt e he

theorem Ascending.arm (h : Ascending (c :: q)) : Ascending (c.set :: q) := by
  obtain ⟨hlt, hsorted⟩ := List.pairwise_cons.mp h.sorted
  obtain ⟨hc, heven⟩ := List.forall_mem_cons.mp h.even
  exact ⟨List.pairwise_cons.mpr ⟨hlt, hsorted⟩, List.forall_mem_cons.mpr ⟨hc.set, heven⟩⟩

theorem Ascending.tail (h : Ascending (c :: q)) : Ascending q :=
  ⟨(List.pairwise_cons.mp h.sorted).2, (List.forall_mem_cons.mp h.even).2⟩

theorem insert_waits (w : Wait ι τ) (q : List (IntervalChain ι τ)) :
    ((insert w q).flatMap waits).Perm (w :: q.flatMap waits) := by
  induction q with
  | nil => exact .refl _
  | cons c rest ih =>
    unfold insert
    split
    · exact .refl _
    · split
      · exact .refl _
      · rw [List.flatMap_cons, List.flatMap_cons]
        exact (ih.append_left c.waits).trans List.perm_middle

/-- Only what stood at the same time in the queue is taken to be set already. -/
theorem insert_setting (h : d ∈ insert w q) (hd : d.node.setting) :
    ∃ e ∈ q, e.node.setting ∧ e.expire = d.expire := by
  induction q with
  | nil =>
    obtain rfl := List.mem_singleton.mp h
    cases hd
  | cons c rest ih =>
    unfold insert at h
    split at h
    · rcases List.mem_cons.mp h with rfl | h
      · cases hd
      · exact ⟨d, h, hd, rfl⟩
    · split at h
      · next hw =>
        rcases List.mem_cons.mp h with rfl | h
        · exact ⟨c, List.mem_cons_self, hd, hw⟩
        · exact ⟨d, List.mem_cons_of_mem c h, hd, rfl⟩
      · rcases List.mem_cons.mp h with rfl | h
        · exact ⟨d, List.mem_cons_self, hd, rfl⟩
        · obtain ⟨e, he, hs⟩ := ih h
          exact ⟨e, List.mem_cons_of_mem c he, hs⟩

theorem insert_after (h : c.expire < w.expire) : insert w (c :: q) = c :: insert w q := by
  rw [insert, if_neg (Int.not_lt.mpr (Int.le_of_lt h)), if_neg (Int.ne_of_lt h)]

-- ---------------------------------------------------------------------------
-- The calls of the host
-- ---------------------------------------------------------------------------

variable {s t : StdInterval ι τ} {a : IntervalAct ι τ} {os tr : List (IntervalObs ι τ)} {nowtim : Int}
  {rest : List (IntervalNode ι τ)}

/-- What `i_setTimeout` makes of `i_justTimeQueue`, which never has a positive `length`. -/
theorem justTime_length (q : JustTimeQueue ι τ) : q.length.any (0 < ·) = false := by
  cases q <;> rfl

theorem i_setTimeout_eq (s : StdInterval ι τ) : s.i_setTimeout =
    match s.i_queue with
    | [] => s
    | c :: rest =>
      if c.node.setting then s else { s with i_queue := c.set :: rest }.setTimeout c.expire := by
  unfold i_setTimeout
  rw [justTime_length]
  rfl

/-- A running call of `i_invoke` is in the chain at the head of the queue, whose time has come. -/
structure Draining (s : StdInterval ι τ) (nowtim : Int) (rest : List (IntervalNode ι τ)) : Prop where
  past : nowtim ≤ s.nowMsec
  head : ∃ c q, s.i_queue = c :: q ∧ c.expire ≤ nowtim ∧ rest.map IntervalNode.wait <:+ c.waits

/-- Who is set has a call of the host to come, or is about to be served by the running one. -/
structure Armed (s : StdInterval ι τ) : Prop where
  ascending : Ascending s.i_queue
  set : ∀ c ∈ s.i_queue, c.node.setting → (∃ due, (c.expire, due) ∈ s.pending) ∨
    ∃ nowtim rest, s.invoking = some (nowtim, rest) ∧ c.expire ≤ nowtim
  due : ∀ p ∈ s.pending, p.1 ≤ p.2
  draining : ∀ nowtim rest, s.invoking = some (nowtim, rest) → s.Draining nowtim rest

/-- While no call of `i_invoke` is running, the head of the queue is set. -/
def Ready (s : StdInterval ι τ) : Prop :=
  s.invoking = none → ∀ c ∈ s.i_queue.head?, c.node.setting

theorem Armed.setTimeout (h : s.Armed) (expire : Int) : (s.setTimeout expire).Armed where
  ascending := h.ascending
  set c hc hs := (h.set c hc hs).imp_left fun ⟨due, hd⟩ => ⟨due, List.mem_append_left _ hd⟩
  due p hp := by
    rcases List.mem_append.mp hp with hp | hp
    · exact h.due p hp
    · obtain rfl := List.mem_singleton.mp hp
      dsimp only
      omega
  draining nowtim rest hi := ⟨(h.draining nowtim rest hi).past, (h.draining nowtim rest hi).head⟩

/-- After `i_setTimeout` the head of the queue is set. -/
theorem Armed.i_setTimeout (h : s.Armed) : s.i_setTimeout.Armed ∧ s.i_setTimeout.Ready := by
  rw [i_setTimeout_eq]
  cases hq : s.i_queue with
  | nil => exact ⟨h, fun _ c hc => by rw [hq] at hc; cases hc⟩
  | cons c rest =>
    dsimp only
    split
    · next hset =>
      refine ⟨h, fun _ d hd => ?_⟩
      rw [hq] at hd
      obtain rfl := Option.some.inj hd
      exact hset
    · refine ⟨⟨?_, fun d hd hs => ?_, ?_, fun nowtim rest' hi => ?_⟩, fun _ d hd => ?_⟩
      · exact Ascending.arm (hq ▸ h.ascending)
      · rcases List.mem_cons.mp hd with rfl | hd
        · exact .inl ⟨_, List.mem_append_right _ (List.mem_singleton_self _)⟩
        · have hd' : d ∈ s.i_queue := by
            rw [hq]
            exact List.mem_cons_of_mem c hd
          exact (h.set d hd' hs).imp_left fun ⟨due, hd⟩ => ⟨due, List.mem_append_left _ hd⟩
      · exact (h.setTimeout c.expire).due
      · obtain ⟨d, q, hdq, hd⟩ := (h.draining nowtim rest' hi).head
        obtain ⟨rfl, rfl⟩ := List.cons.inj (hq.symm.trans hdq)
        exact ⟨(h.draining nowtim rest' hi).past, c.set, rest, rfl, by simpa using hd⟩
      · obtain rfl := Option.some.inj hd
        rfl

/-- A wait that is not due yet goes behind whatever is being served. -/
theorem Armed.insert (h : s.Armed) (hw : s.nowMsec < w.expire) :
    ({ s with i_queue := StdInterval.insert w s.i_queue } : StdInterval ι τ).Armed where
  ascending := Ascending.insert h.ascending
  set c hc hs := by
    obtain ⟨e, he, hset, hexp⟩ := insert_setting hc hs
    exact hexp ▸ h.set e he hset
  due := h.due
  draining nowtim rest hi := by
    obtain ⟨hpast, c, q, hq, hc, hrest⟩ := h.draining nowtim rest hi
    refine ⟨hpast, c, StdInterval.insert w q, ?_, hc, hrest⟩
    dsimp only
    rw [hq, insert_after (by omega)]

theorem Armed.wait (h : s.Armed) (hr : s.Ready) (caller : ι) (interval : ℚ) (eventType : τ) :
    (s.wait caller interval eventType).1.Armed ∧ (s.wait caller interval eventType).1.Ready := by
  unfold StdInterval.wait
  split
  · exact ⟨h, hr⟩
  · dsimp only
    split
    · exact ⟨⟨h.ascending, h.set, h.due, fun nowtim rest hi => ⟨(h.draining nowtim rest hi).past,
        (h.draining nowtim rest hi).head⟩⟩, hr⟩
    · next hw =>
      refine Armed.i_setTimeout (Armed.insert (s := { s with calls := s.calls + 1 }) ?_
        (Int.not_le.mp hw))
      exact ⟨h.ascending, h.set, h.due, fun nowtim rest hi => ⟨(h.draining nowtim rest hi).past,
        (h.draining nowtim rest hi).head⟩⟩

/-- The loop of `i_invoke` goes on with the next chain, or the head is set. -/
theorem Armed.loop (ha : Ascending s.i_queue)
    (hs : ∀ c ∈ s.i_queue, c.node.setting →
      (∃ due, (c.expire, due) ∈ s.pending) ∨ c.expire ≤ nowtim)
    (hd : ∀ p ∈ s.pending, p.1 ≤ p.2) (hn : nowtim ≤ s.nowMsec) :
    (s.loop nowtim).Armed ∧ (s.loop nowtim).Ready := by
  have hstop : (∀ c ∈ s.i_queue, nowtim < c.expire) →
      ({ s with invoking := none } : StdInterval ι τ).Armed := fun hlt =>
    ⟨ha, fun c hc hset => .inl ((hs c hc hset).resolve_right (Int.not_le.mpr (hlt c hc))), hd, nofun⟩
  unfold StdInterval.loop
  split
  · next hq => exact (hstop (by rw [hq]; nofun)).i_setTimeout
  · next c rest hq =>
    split
    · next hlt =>
      refine (hstop fun d hd => ?_).i_setTimeout
      rw [hq] at ha hd
      rcases List.mem_cons.mp hd with rfl | hd
      · exact hlt
      · exact Int.lt_trans hlt ((List.pairwise_cons.mp ha.sorted).1 d hd)
    · next hle =>
      refine ⟨⟨ha, fun d hd hset => ?_, hd, fun now rest' hi => ?_⟩, nofun⟩
      · exact (hs d hd hset).imp_right fun hle => ⟨nowtim, c.nodes, rfl, hle⟩
      · obtain ⟨rfl, rfl⟩ := Prod.ext_iff.mp (Option.some.inj hi)
        exact ⟨hn, c, rest, hq, Int.not_lt.mp hle, List.suffix_rfl⟩

theorem Armed.step (h : s.Armed) (hr : s.Ready) (hc : a ≠ .throw) (hs : s.step a = some (t, os)) :
    t.Armed ∧ t.Ready := by
  cases a with
  | wait caller interval eventType =>
    obtain rfl : (s.wait caller interval eventType).1 = t := congrArg Prod.fst (Option.some.inj hs)
    exact h.wait hr caller interval eventType
  | tick now =>
    obtain ⟨hle, he⟩ := Option.ite_none_right_eq_some.mp hs
    cases he
    exact ⟨⟨h.ascending, h.set, h.due, fun nowtim rest hi =>
      ⟨Int.le_trans (h.draining nowtim rest hi).past hle, (h.draining nowtim rest hi).head⟩⟩, hr⟩
  | fire i =>
    simp only [StdInterval.step] at hs
    split at hs
    · next expire due hnone hp =>
      obtain ⟨hdue, he⟩ := Option.ite_none_right_eq_some.mp hs
      cases he
      have hle : expire ≤ s.nowMsec := Int.le_trans (h.due _ (List.mem_of_getElem? hp)) hdue
      unfold i_invoke
      rw [if_neg (Int.not_lt.mpr hle)]
      refine Armed.loop h.ascending (fun c hc hset => ?_)
        (fun p hp => h.due p (List.mem_of_mem_eraseIdx hp)) (Int.le_refl _)
      obtain ⟨due', hd⟩ | ⟨_, _, hi, _⟩ := h.set c hc hset
      · by_cases he : c.expire ≤ s.nowMsec
        · exact .inr he
        · refine .inl ⟨due', List.mem_eraseIdx_iff_getElem?.mpr ?_⟩
          obtain ⟨k, hk⟩ := List.mem_iff_getElem?.mp hd
          refine ⟨k, fun hki => ?_, hk⟩
          rw [hki, hp] at hk
          cases hk
          exact he hle
      · rw [hnone] at hi
        cases hi
    · cases hs
  | go =>
    simp only [StdInterval.step] at hs
    split at hs
    · cases hs
    · next nowtim node rest hi =>
      cases hs
      obtain ⟨hpast, c, q, hq, hc, hrest⟩ := h.draining nowtim _ hi
      refine ⟨⟨h.ascending, fun d hd hset => ?_, h.due, fun now rest' hi' => ?_⟩, nofun⟩
      · refine (h.set d hd hset).imp_right fun ⟨now, rest', hi', hle⟩ => ⟨nowtim, rest, rfl, ?_⟩
        rw [hi] at hi'
        cases hi'
        exact hle
      · obtain ⟨rfl, rfl⟩ := Prod.ext_iff.mp (Option.some.inj hi')
        exact ⟨hpast, c, q, hq, hc, (List.suffix_cons _ _).trans hrest⟩
    · next nowtim hi =>
      cases hs
      obtain ⟨hpast, c, q, hq, hc, hrest⟩ := h.draining nowtim _ hi
      refine Armed.loop ?_ (fun d hd hset => ?_) h.due hpast
      · dsimp only
        rw [hq]
        exact Ascending.tail (hq ▸ h.ascending)
      · refine (h.set d (List.mem_of_mem_tail hd) hset).imp_right fun ⟨now, rest', hi', hle⟩ => ?_
        rw [hi] at hi'
        cases hi'
        exact hle
  | throw => exact absurd rfl hc

-- ---------------------------------------------------------------------------
-- Each wait has one event
-- ---------------------------------------------------------------------------

end StdInterval

namespace IntervalObs

def waits? : IntervalObs ι τ → Option (Wait ι τ)
  | waits w => some w
  | _ => none

def dueNow? : IntervalObs ι τ → Option (Wait ι τ)
  | dueNow w => some w
  | _ => none

def event? : IntervalObs ι τ → Option (Wait ι τ)
  | event w _ => some w
  | _ => none

end IntervalObs

namespace StdInterval

variable {s t : StdInterval ι τ} {a : IntervalAct ι τ} {os tr : List (IntervalObs ι τ)} {nowtim : Int}
  {w : Wait ι τ}

/-- The waits whose events are still to be sent, but for those in `i_justTimeQueue`. -/
def outstanding (s : StdInterval ι τ) : List (Wait ι τ) :=
  match s.invoking with
  | none => s.i_queue.flatMap waits
  | some (_, rest) => rest.map IntervalNode.wait ++ s.i_queue.tail.flatMap waits

theorem i_setTimeout_outstanding : s.i_setTimeout.outstanding = s.outstanding := by
  rw [i_setTimeout_eq]
  split
  · rfl
  · next c rest hq =>
    split
    · rfl
    · simp [outstanding, setTimeout, hq]

theorem loop_outstanding : (s.loop nowtim).outstanding = s.i_queue.flatMap waits := by
  unfold loop
  split
  · rw [i_setTimeout_outstanding]
    rfl
  · next c rest hq =>
    split
    · rw [i_setTimeout_outstanding]
      rfl
    · simp [outstanding, hq, waits]

/-- The waits that a step begins, and the events it sends. -/
def Accounted (s : StdInterval ι τ) (os : List (IntervalObs ι τ)) (t : StdInterval ι τ) : Prop :=
  (s.outstanding ++ os.filterMap IntervalObs.waits?).Perm
    (os.filterMap IntervalObs.event? ++ t.outstanding)

theorem Armed.insert_outstanding (h : s.Armed) (hw : s.nowMsec < w.expire) :
    ({ s with i_queue := StdInterval.insert w s.i_queue } : StdInterval ι τ).outstanding.Perm
      (w :: s.outstanding) := by
  unfold outstanding
  cases hi : s.invoking with
  | none => exact insert_waits w s.i_queue
  | some r =>
    obtain ⟨nowtim, rest⟩ := r
    obtain ⟨hpast, c, q, hq, hc, -⟩ := h.draining nowtim rest hi
    dsimp only
    rw [hq, insert_after (by omega), List.tail_cons, List.tail_cons]
    exact ((insert_waits w q).append_left _).trans List.perm_middle

theorem Armed.accounted (h : s.Armed) (hc : a ≠ .throw) (hs : s.step a = some (t, os)) :
    s.Accounted os t := by
  cases a with
  | wait caller interval eventType =>
    have hs : s.wait caller interval eventType = (t, os) := Option.some.inj hs
    unfold StdInterval.wait at hs
    split at hs
    · cases hs
      exact .of_eq (List.append_nil _)
    · dsimp only at hs
      split at hs
      · cases hs
        exact .of_eq (List.append_nil _)
      · next hw =>
        cases hs
        unfold Accounted
        rw [i_setTimeout_outstanding]
        have hcalls : ({ s with calls := s.calls + 1 } : StdInterval ι τ).Armed :=
          ⟨h.ascending, h.set, h.due, fun nowtim rest hi => ⟨(h.draining nowtim rest hi).past,
            (h.draining nowtim rest hi).head⟩⟩
        exact (List.perm_append_singleton _ _).trans
          (hcalls.insert_outstanding (Int.not_le.mp hw)).symm
  | tick now =>
    obtain ⟨hle, he⟩ := Option.ite_none_right_eq_some.mp hs
    cases he
    exact .of_eq (List.append_nil _)
  | fire i =>
    simp only [StdInterval.step] at hs
    split at hs
    · next expire due hnone hp =>
      obtain ⟨hdue, he⟩ := Option.ite_none_right_eq_some.mp hs
      cases he
      have hle : expire ≤ s.nowMsec := Int.le_trans (h.due _ (List.mem_of_getElem? hp)) hdue
      unfold i_invoke
      rw [if_neg (Int.not_lt.mpr hle)]
      refine .of_eq ((List.append_nil _).trans ?_)
      rw [outstanding, hnone]
      change _ = (StdInterval.loop _ _).outstanding
      rw [loop_outstanding]
    · cases hs
  | go =>
    simp only [StdInterval.step] at hs
    split at hs
    · cases hs
    · next nowtim node rest hi =>
      cases hs
      refine .of_eq ((List.append_nil _).trans ?_)
      rw [outstanding, hi]
      rfl
    · next nowtim hi =>
      cases hs
      refine .of_eq ((List.append_nil _).trans ?_)
      rw [outstanding, hi]
      change _ = (StdInterval.loop _ _).outstanding
      rw [loop_outstanding]
      rfl
  | throw => exact absurd rfl hc

/-- The clock never goes back, and what is sent has expired. -/
theorem Armed.on_time (h : s.Armed) (hs : s.step a = some (t, os)) {time : Int}
    (hw : .event w time ∈ os) : w.expire ≤ time := by
  cases a with
  | wait caller interval eventType =>
    have hs : s.wait caller interval eventType = (t, os) := Option.some.inj hs
    unfold StdInterval.wait at hs
    split at hs
    · cases hs
      cases hw
    · dsimp only at hs
      split at hs
      all_goals
        cases hs
        cases List.mem_singleton.mp hw
  | tick now =>
    obtain ⟨hle, he⟩ := Option.ite_none_right_eq_some.mp hs
    cases he
    cases hw
  | fire i =>
    simp only [StdInterval.step] at hs
    split at hs
    · obtain ⟨hdue, he⟩ := Option.ite_none_right_eq_some.mp hs
      cases he
      cases hw
    · cases hs
  | go =>
    simp only [StdInterval.step] at hs
    split at hs
    · cases hs
    · next nowtim node rest hi =>
      cases hs
      cases List.mem_singleton.mp hw
      obtain ⟨-, c, q, hq, hc, hrest⟩ := h.draining time _ hi
      have hmem : node.wait ∈ c.waits :=
        hrest.subset (List.mem_map.mpr ⟨node, List.mem_cons_self, rfl⟩)
      have hasc := h.ascending
      rw [hq] at hasc
      rw [hasc.even c List.mem_cons_self _ hmem]
      exact hc
    · cases hs
      cases hw
  | throw =>
    obtain ⟨-, he⟩ := Option.ite_none_right_eq_some.mp hs
    cases he
    cases hw

theorem i_setTimeout_frame :
    s.i_setTimeout.calls = s.calls ∧ s.i_setTimeout.nowMsec = s.nowMsec := by
  rw [i_setTimeout_eq]
  split
  · exact ⟨rfl, rfl⟩
  · split <;> exact ⟨rfl, rfl⟩

theorem loop_frame :
    (s.loop nowtim).calls = s.calls ∧ (s.loop nowtim).nowMsec = s.nowMsec := by
  unfold loop
  split
  · exact i_setTimeout_frame
  · split
    · exact i_setTimeout_frame
    · exact ⟨rfl, rfl⟩

theorem step_clock (hs : s.step a = some (t, os)) : s.nowMsec ≤ t.nowMsec := by
  cases a with
  | wait caller interval eventType =>
    have hs : s.wait caller interval eventType = (t, os) := Option.some.inj hs
    unfold StdInterval.wait at hs
    split at hs
    · cases hs
      exact Int.le_refl _
    · dsimp only at hs
      split at hs
      · cases hs
        exact Int.le_refl _
      · cases hs
        exact Int.le_of_eq (by rw [i_setTimeout_frame.2])
  | tick now =>
    obtain ⟨hle, he⟩ := Option.ite_none_right_eq_some.mp hs
    cases he
    exact hle
  | fire i =>
    simp only [StdInterval.step] at hs
    split at hs
    · obtain ⟨-, he⟩ := Option.ite_none_right_eq_some.mp hs
      cases he
      unfold i_invoke
      split
      · exact Int.le_refl _
      · exact Int.le_of_eq (by rw [loop_frame.2])
    · cases hs
  | go =>
    simp only [StdInterval.step] at hs
    split at hs
    · cases hs
    · cases hs
      exact Int.le_refl _
    · cases hs
      exact Int.le_of_eq (by rw [loop_frame.2])
  | throw =>
    obtain ⟨-, he⟩ := Option.ite_none_right_eq_some.mp hs
    cases he
    exact Int.le_refl _

/-- Calls of `wait` are told apart, and none is forgotten. -/
structure Counted (s : StdInterval ι τ) (tr : List (IntervalObs ι τ)) : Prop where
  perm : (tr.filterMap IntervalObs.waits?).Perm (tr.filterMap IntervalObs.event? ++ s.outstanding)
  nodup : ((tr.filterMap IntervalObs.waits? ++ tr.filterMap IntervalObs.dueNow?).map Wait.id).Nodup
  fresh : ∀ w ∈ tr.filterMap IntervalObs.waits? ++ tr.filterMap IntervalObs.dueNow?, w.id < s.calls

/-- What a step does to the number of calls. -/
theorem step_calls (hs : s.step a = some (t, os)) :
    (os.filterMap IntervalObs.waits? ++ os.filterMap IntervalObs.dueNow? = [] ∧
      s.calls ≤ t.calls) ∨
    ∃ w, (os = [.waits w] ∨ os = [.dueNow w]) ∧ w.id = s.calls ∧ t.calls = s.calls + 1 := by
  cases a with
  | wait caller interval eventType =>
    have hs : s.wait caller interval eventType = (t, os) := Option.some.inj hs
    unfold StdInterval.wait at hs
    split at hs
    · cases hs
      exact .inl ⟨rfl, Nat.le_refl _⟩
    · dsimp only at hs
      split at hs
      · cases hs
        exact .inr ⟨_, .inr rfl, rfl, rfl⟩
      · cases hs
        exact .inr ⟨_, .inl rfl, rfl, i_setTimeout_frame.1⟩
  | tick now =>
    obtain ⟨hle, he⟩ := Option.ite_none_right_eq_some.mp hs
    cases he
    exact .inl ⟨rfl, Nat.le_refl _⟩
  | fire i =>
    simp only [StdInterval.step] at hs
    split at hs
    · obtain ⟨hdue, he⟩ := Option.ite_none_right_eq_some.mp hs
      cases he
      refine .inl ⟨rfl, ?_⟩
      unfold i_invoke
      split
      · exact Nat.le_refl _
      · exact Nat.le_of_eq (by rw [loop_frame.1])
    · cases hs
  | go =>
    simp only [StdInterval.step] at hs
    split at hs
    · cases hs
    · cases hs
      exact .inl ⟨rfl, Nat.le_refl _⟩
    · cases hs
      exact .inl ⟨rfl, Nat.le_of_eq (by rw [loop_frame.1])⟩
  | throw =>
    obtain ⟨-, he⟩ := Option.ite_none_right_eq_some.mp hs
    cases he
    exact .inl ⟨rfl, Nat.le_refl _⟩

theorem Counted.step (h : s.Counted tr) (hacc : s.Accounted os t)
    (hs : s.step a = some (t, os)) : t.Counted (tr ++ os) := by
  have hperm : ((tr ++ os).filterMap IntervalObs.waits?).Perm
      ((tr ++ os).filterMap IntervalObs.event? ++ t.outstanding) := by
    rw [List.filterMap_append, List.filterMap_append, List.append_assoc]
    refine (h.perm.append_right _).trans ?_
    rw [List.append_assoc]
    exact hacc.append_left _
  rcases step_calls hs with ⟨hnil, hle⟩ | ⟨w, hos, hid, hcalls⟩
  · obtain ⟨hw, hd⟩ := List.append_eq_nil_iff.mp hnil
    refine ⟨hperm, ?_, fun v hv => ?_⟩
    · rw [List.filterMap_append, List.filterMap_append, hw, hd, List.append_nil, List.append_nil]
      exact h.nodup
    · rw [List.filterMap_append, List.filterMap_append, hw, hd, List.append_nil,
        List.append_nil] at hv
      exact Nat.lt_of_lt_of_le (h.fresh v hv) hle
  · have hnew : ((tr ++ os).filterMap IntervalObs.waits? ++
        (tr ++ os).filterMap IntervalObs.dueNow?).Perm
        (w :: (tr.filterMap IntervalObs.waits? ++ tr.filterMap IntervalObs.dueNow?)) := by
      rw [List.filterMap_append, List.filterMap_append]
      rcases hos with rfl | rfl
      · change (tr.filterMap IntervalObs.waits? ++ [w] ++
          (tr.filterMap IntervalObs.dueNow? ++ [])).Perm _
        rw [List.append_nil, List.append_assoc]
        exact List.perm_middle
      · change (tr.filterMap IntervalObs.waits? ++ [] ++
          (tr.filterMap IntervalObs.dueNow? ++ [w])).Perm _
        rw [List.append_nil, ← List.append_assoc]
        exact List.perm_append_singleton _ _
    refine ⟨hperm, ?_, fun v hv => ?_⟩
    · rw [(hnew.map Wait.id).nodup_iff, List.map_cons]
      refine List.nodup_cons.mpr ⟨fun hm => ?_, h.nodup⟩
      obtain ⟨v, hv, he⟩ := List.mem_map.mp hm
      exact absurd (h.fresh v hv) (by omega)
    · rcases List.mem_cons.mp (hnew.mem_iff.mp hv) with rfl | hv
      · omega
      · have := h.fresh v hv
        omega

-- ---------------------------------------------------------------------------
-- Each wait has an event
-- ---------------------------------------------------------------------------

variable {c : IntervalChain ι τ} {q : List (IntervalChain ι τ)} {rest : List (IntervalNode ι τ)}

/-- What the running call of `i_invoke` has still to do. -/
def work (s : StdInterval ι τ) (nowtim : Int) (rest : List (IntervalNode ι τ)) : Nat :=
  rest.length +
    ((s.i_queue.tail.filter fun c => c.expire ≤ nowtim).map fun c => 1 + c.nodes.length).sum

theorem insert_filter (h : nowtim < w.expire) (q : List (IntervalChain ι τ)) :
    (insert w q).filter (fun c => c.expire ≤ nowtim) = q.filter fun c => c.expire ≤ nowtim := by
  have hnew : ∀ setting next, decide ((⟨⟨w, setting⟩, next⟩ : IntervalChain ι τ).expire ≤ nowtim) =
      false := fun _ _ => decide_eq_false (Int.not_le.mpr h)
  induction q with
  | nil => exact List.filter_cons_of_neg (by rw [hnew]; exact Bool.false_ne_true)
  | cons c rest ih =>
    unfold insert
    split
    · exact List.filter_cons_of_neg (by rw [hnew]; exact Bool.false_ne_true)
    · split
      · next hc =>
        rw [List.filter_cons_of_neg (by rw [hnew]; exact Bool.false_ne_true),
          List.filter_cons_of_neg (by rw [decide_eq_true_eq]; omega)]
      · rw [List.filter_cons, List.filter_cons, ih]

theorem i_setTimeout_tail : s.i_setTimeout.i_queue.tail = s.i_queue.tail := by
  rw [i_setTimeout_eq]
  split
  · rfl
  · next c rest hq =>
    split
    · rfl
    · rw [hq]
      rfl

theorem i_setTimeout_invoking : s.i_setTimeout.invoking = s.invoking := by
  rw [i_setTimeout_eq]
  split
  · rfl
  · split <;> rfl

/-- After the loop of `i_invoke` nothing that had expired is left. -/
theorem loop_done (ha : Ascending s.i_queue) (hl : (s.loop nowtim).invoking = none) :
    ∀ v ∈ (s.loop nowtim).outstanding, nowtim < v.expire := by
  rw [loop_outstanding]
  unfold loop at hl
  split at hl
  · next hq =>
    rw [hq]
    nofun
  · next c rest hq =>
    split at hl
    · next hlt =>
      intro v hv
      obtain ⟨d, hd, hv⟩ := List.mem_flatMap.mp hv
      rw [ha.even d hd v hv]
      rw [hq] at ha hd
      rcases List.mem_cons.mp hd with rfl | hd
      · exact hlt
      · exact Int.lt_trans hlt ((List.pairwise_cons.mp ha.sorted).1 d hd)
    · cases hl

/-- The loop of `i_invoke` is done, or has a chain less to serve. -/
theorem loop_next (ha : Ascending s.i_queue) {k : Nat}
    (hk : ((s.i_queue.filter fun c => c.expire ≤ nowtim).map fun c => 1 + c.nodes.length).sum = k) :
    ((s.loop nowtim).invoking = none ∧ ∀ v ∈ (s.loop nowtim).outstanding, nowtim < v.expire) ∨
      ∃ rest', (s.loop nowtim).invoking = some (nowtim, rest') ∧
        (s.loop nowtim).work nowtim rest' < k := by
  cases hl : (s.loop nowtim).invoking with
  | none => exact .inl ⟨rfl, loop_done ha hl⟩
  | some r =>
    refine .inr ?_
    unfold loop at hl ⊢
    split at hl
    · rw [i_setTimeout_invoking] at hl
      cases hl
    · next c rest hq =>
      split at hl
      · rw [i_setTimeout_invoking] at hl
        cases hl
      · next hle =>
        cases hl
        refine ⟨c.nodes, rfl, ?_⟩
        rw [hq, List.filter_cons_of_pos (by rw [decide_eq_true_eq]; omega), List.map_cons,
          List.sum_cons] at hk
        rw [if_neg hle]
        simp only [work, hq, List.tail_cons]
        omega

/-- A call of the host serves everything that has expired by then. -/
theorem Armed.fire_serves {i : Nat} (h : s.Armed) (hs : s.step (.fire i) = some (t, os)) :
    (t.invoking = none ∧ ∀ v ∈ t.outstanding, s.nowMsec < v.expire) ∨
      ∃ rest, t.invoking = some (s.nowMsec, rest) := by
  simp only [StdInterval.step] at hs
  split at hs
  · next expire due hnone hp =>
    obtain ⟨hdue, he⟩ := Option.ite_none_right_eq_some.mp hs
    cases he
    have hle : expire ≤ s.nowMsec := Int.le_trans (h.due _ (List.mem_of_getElem? hp)) hdue
    unfold i_invoke
    rw [if_neg (Int.not_lt.mpr hle)]
    have ha : Ascending ({ s with pending := s.pending.eraseIdx i } : StdInterval ι τ).i_queue :=
      h.ascending
    rcases loop_next ha rfl with hdone | ⟨rest, hi, -⟩
    · exact .inl hdone
    · exact .inr ⟨rest, hi⟩
  · cases hs

/-- While `i_invoke` runs, only its own turns change what it has to do. -/
theorem Armed.serve (h : s.Armed) (hi : s.invoking = some (nowtim, rest)) (hc : a ≠ .throw)
    (hs : s.step a = some (t, os)) :
    (a ≠ .go ∧ t.invoking = s.invoking ∧ t.work nowtim rest = s.work nowtim rest) ∨
    (a = .go ∧ ((t.invoking = none ∧ ∀ v ∈ t.outstanding, nowtim < v.expire) ∨
      ∃ rest', t.invoking = some (nowtim, rest') ∧ t.work nowtim rest' < s.work nowtim rest)) := by
  obtain ⟨hpast, c, q, hq, hce, hrest⟩ := h.draining nowtim rest hi
  cases a with
  | wait caller interval eventType =>
    have hs : s.wait caller interval eventType = (t, os) := Option.some.inj hs
    refine .inl ⟨nofun, ?_⟩
    unfold StdInterval.wait at hs
    split at hs
    · cases hs
      exact ⟨rfl, rfl⟩
    · dsimp only at hs
      split at hs
      · cases hs
        exact ⟨rfl, rfl⟩
      · next hw =>
        cases hs
        refine ⟨i_setTimeout_invoking, ?_⟩
        rw [work, work, i_setTimeout_tail]
        dsimp only at hw ⊢
        rw [hq, insert_after (by dsimp only; omega), List.tail_cons, List.tail_cons,
          insert_filter (by dsimp only; omega)]
  | tick now =>
    obtain ⟨hle, he⟩ := Option.ite_none_right_eq_some.mp hs
    cases he
    exact .inl ⟨nofun, rfl, rfl⟩
  | fire i =>
    rw [StdInterval.step, hi] at hs
    cases hs
  | go =>
    refine .inr ⟨rfl, ?_⟩
    rw [StdInterval.step, hi] at hs
    cases rest with
    | cons node rest =>
      cases hs
      refine .inr ⟨rest, rfl, ?_⟩
      simp only [work, List.length_cons]
      omega
    | nil =>
      cases hs
      have hasc := h.ascending
      rw [hq] at hasc
      have htail : ({ s with i_queue := s.i_queue.tail } : StdInterval ι τ).i_queue = q := by
        dsimp only
        rw [hq, List.tail_cons]
      have hwork : s.work nowtim [] =
          ((q.filter fun c => c.expire ≤ nowtim).map fun c => 1 + c.nodes.length).sum := by
        rw [work, hq, List.tail_cons, List.length_nil, Nat.zero_add]
      rw [hwork]
      refine loop_next ?_ ?_
      · rw [htail]
        exact Ascending.tail hasc
      · rw [htail]
  | throw => exact absurd rfl hc

-- ---------------------------------------------------------------------------
-- The law
-- ---------------------------------------------------------------------------

/-- Receivers do not throw. -/
def Quiet (_ : StdInterval ι τ) (a : IntervalAct ι τ) : Prop := a ≠ .throw

instance [DecidableEq ι] [DecidableEq τ] (s : StdInterval ι τ) (a : IntervalAct ι τ) :
    Decidable (s.Quiet a) := inferInstanceAs (Decidable (a ≠ .throw))

end StdInterval

open StdInterval

variable {s : StdInterval ι τ} {tr : List (IntervalObs ι τ)} {w : Wait ι τ}

/-- What holds of every run. -/
structure Recorded (tr : List (IntervalObs ι τ)) (s : StdInterval ι τ) : Prop where
  armed : s.Armed
  ready : s.Ready
  counted : s.Counted tr
  early : ∀ w time, .event w time ∈ tr → w.expire ≤ time

theorem run_recorded (h : (interval ι τ).RunIf Quiet tr s) : Recorded tr s := by
  refine h.invariant (I := Recorded) ?start ?step
  case start =>
    rintro s ⟨now, rfl⟩
    exact ⟨⟨⟨.nil, nofun⟩, nofun, nofun, nofun⟩, nofun, ⟨.refl _, .nil, nofun⟩, nofun⟩
  case step =>
    rintro tr s a t os - h hc hs
    obtain ⟨ha, hr⟩ := h.armed.step h.ready hc hs
    refine ⟨ha, hr, h.counted.step (h.armed.accounted hc hs) hs, fun w time hw => ?_⟩
    rcases List.mem_append.mp hw with hw | hw
    · exact h.early w time hw
    · exact h.armed.on_time hs hw

/-- The host makes its calls, the clock goes on, and the receivers return. -/
structure Hosted (b : (interval ι τ).Behavior) : Prop where
  quiet : ∀ n, Quiet (b.state n) (b.act n)
  calls : ∀ n, ∀ p ∈ (b.state n).pending, ∃ m, n ≤ m ∧ ∃ i, b.act m = .fire i ∧
    (b.state m).pending[i]? = some p
  time : ∀ t, ∃ n, t ≤ (b.state n).nowMsec
  returns : ∀ n, (b.state n).invoking ≠ none → ∃ m, n ≤ m ∧ b.act m = .go

variable {b : (interval ι τ).Behavior} {n m : Nat}

theorem Hosted.recorded (h : Hosted b) (n : Nat) : Recorded (b.trace n) (b.state n) :=
  run_recorded (b.runIf h.quiet n)

theorem clock_mono (hm : n ≤ m) : (b.state n).nowMsec ≤ (b.state m).nowMsec := by
  induction m, hm using Nat.le_induction with
  | base => exact Int.le_refl _
  | succ m hm ih => exact Int.le_trans ih (step_clock (b.next m))

/-- A running call of `i_invoke` comes to its end, and has then served all that had expired. -/
theorem Hosted.drains (h : Hosted b) {nowtim : Int} {rest : List (IntervalNode ι τ)}
    (hi : (b.state n).invoking = some (nowtim, rest)) :
    ∃ m, n ≤ m ∧ (b.state (m + 1)).invoking = none ∧
      ∀ v ∈ (b.state (m + 1)).outstanding, nowtim < v.expire := by
  refine eventually_of_rank (R := fun k m => ∃ rest, (b.state m).invoking = some (nowtim, rest) ∧
    (b.state m).work nowtim rest = k) (fun k n hn => ?_) _ n ⟨rest, hi, rfl⟩
  obtain ⟨rest, hi, hk⟩ := hn
  have hstep := fun m (hm : (b.state m).invoking = some (nowtim, rest)) =>
    (h.recorded m).armed.serve hm (h.quiet m) (b.next m)
  -- up to the next turn of its own the call stays where it is
  have hturn : ∃ j, n ≤ j ∧ b.act j = .go ∧ (b.state j).invoking = some (nowtim, rest) ∧
      (b.state j).work nowtim rest = k := by
    obtain ⟨j, hj, hgo⟩ := h.returns n (by rw [hi]; nofun)
    let Stays m := (b.state m).invoking = some (nowtim, rest) ∧ (b.state m).work nowtim rest = k
    have hstays : ∀ m, Stays m → (b.act m = .go ∧ Stays m) ∨ Stays (m + 1) := by
      intro m hm
      rcases hstep m hm.1 with ⟨-, hinv, hwork⟩ | ⟨hgo, -⟩
      · exact .inr ⟨hinv.trans hm.1, hwork.trans hm.2⟩
      · exact .inl ⟨hgo, hm⟩
    rcases unless_until hstays ⟨hi, hk⟩ hj with hfirst | hstay
    · exact hfirst
    · exact ⟨j, hj, hgo, hstay⟩
  obtain ⟨j, hj, hgo, hinv, hwork⟩ := hturn
  rcases hstep j hinv with ⟨hne, -⟩ | ⟨-, hdone | ⟨rest', hinv', hless⟩⟩
  · exact absurd hgo hne
  · exact ⟨j, hj, .inl hdone⟩
  · exact ⟨j + 1, Nat.le_succ_of_le hj, .inr ⟨_, by omega, rest', hinv', rfl⟩⟩

theorem Hosted.served (h : Hosted b) (hw : w ∈ (b.state n).outstanding) :
    ∃ m, n ≤ m ∧ ∃ time, .event w time ∈ b.obs m := by
  by_contra hnever
  have hkept : ∀ m, n ≤ m → w ∈ (b.state m).outstanding := by
    intro m hm
    induction m, hm using Nat.le_induction with
    | base => exact hw
    | succ m hm ih =>
      have hacc := (h.recorded m).armed.accounted (h.quiet m) (b.next m)
      rcases List.mem_append.mp (hacc.mem_iff.mp (List.mem_append_left _ ih)) with he | ht
      · obtain ⟨o, ho, he⟩ := List.mem_filterMap.mp he
        cases o with
        | event v time =>
          obtain rfl := Option.some.inj he
          exact absurd ⟨m, hm, time, ho⟩ hnever
        | waits v => cases he
        | dueNow v => cases he
      · exact ht
  -- once the time has come, no call of `i_invoke` can leave the wait out
  obtain ⟨k, hk⟩ := h.time w.expire
  have hlate : ∀ m, max n k ≤ m → w.expire ≤ (b.state m).nowMsec := fun m hm =>
    Int.le_trans hk (clock_mono (Nat.le_trans (Nat.le_max_right n k) hm))
  have hout : ∀ m, max n k ≤ m → w ∈ (b.state m).outstanding := fun m hm =>
    hkept m (Nat.le_trans (Nat.le_max_left n k) hm)
  obtain ⟨j, hj, hnone⟩ : ∃ j, max n k ≤ j ∧ (b.state j).invoking = none := by
    cases hi : (b.state (max n k)).invoking with
    | none => exact ⟨_, Nat.le_refl _, hi⟩
    | some r =>
      obtain ⟨nowtim, rest⟩ := r
      obtain ⟨m, hm, hnone, -⟩ := h.drains hi
      exact ⟨m + 1, Nat.le_succ_of_le hm, hnone⟩
  have hrec := h.recorded j
  have hwj := hout j hj
  rw [outstanding, hnone] at hwj
  obtain ⟨c, hc, -⟩ := List.mem_flatMap.mp hwj
  obtain ⟨d, q, hq⟩ := List.exists_cons_of_ne_nil (List.ne_nil_of_mem hc)
  have hset := hrec.ready hnone d (by rw [hq]; rfl)
  rcases hrec.armed.set d (by rw [hq]; exact List.mem_cons_self) hset with ⟨due, hp⟩ | ⟨_, _, hi, _⟩
  · obtain ⟨m, hm, i, hact, hpm⟩ := h.calls j _ hp
    have hjm := Nat.le_trans hj hm
    have hnext := b.next m
    rw [hact] at hnext
    have hmn := hout (m + 1) (Nat.le_succ_of_le hjm)
    rcases (h.recorded m).armed.fire_serves hnext with ⟨-, hdone⟩ | ⟨rest, hi⟩
    · exact absurd (hdone w hmn) (Int.not_lt.mpr (hlate m hjm))
    · obtain ⟨l, hl, -, hdone⟩ := h.drains hi
      have hln := hout (l + 1) (Nat.le_trans hjm (Nat.le_trans (Nat.le_succ m) (Nat.le_succ_of_le hl)))
      exact absurd (hdone w hln) (Int.not_lt.mpr (hlate m hjm))
  · rw [hnone] at hi
    cases hi

/-- A wait is due at once exactly when its interval is zero. -/
theorem wait_obs {caller : ι} {interval : ℚ} {eventType : τ} (h0 : 0 ≤ interval) :
    ∃ w, (s.wait caller interval eventType).2 = if interval = 0 then [.dueNow w] else [.waits w] := by
  unfold StdInterval.wait
  rw [if_neg (not_lt.mpr h0)]
  dsimp only
  by_cases hz : interval = 0
  · subst hz
    refine ⟨⟨s.calls, s.nowMsec + ⌈(0 : ℚ) / 1000⌉, caller, eventType⟩, ?_⟩
    rw [if_pos rfl, if_pos (by simp)]
  · have hpos : 0 < ⌈interval / 1000⌉ :=
      Int.ceil_pos.mpr (div_pos (lt_of_le_of_ne h0 (Ne.symm hz)) (by norm_num))
    refine ⟨⟨s.calls, s.nowMsec + ⌈interval / 1000⌉, caller, eventType⟩, ?_⟩
    rw [if_neg hz, if_neg (by omega)]

/-- The queue ascends strictly and its chains are even; what is sent has expired,
and is sent once, to one who waits and does not wait any more; whoever waits has a
call of the host to come, made for its time or an earlier one; and who waits in
`i_justTimeQueue` is sent nothing. -/
structure Timed (tr : List (IntervalObs ι τ)) (s : StdInterval ι τ) : Prop where
  sorted : s.i_queue.Pairwise fun c d => c.expire < d.expire
  chains : ∀ c ∈ s.i_queue, ∀ n ∈ c.nodes, n.wait.expire = c.expire
  early : ∀ w time, .event w time ∈ tr → w.expire ≤ time
  begun : ∀ w time, .event w time ∈ tr → .waits w ∈ tr
  once : (tr.filterMap IntervalObs.event? ++ s.outstanding).Nodup
  kept : ∀ w, .waits w ∈ tr → (∃ time, .event w time ∈ tr) ∨ w ∈ s.outstanding
  pending : s.invoking = none → ∀ w ∈ s.outstanding, ∃ p ∈ s.pending, p.1 ≤ w.expire
  never : ∀ w time, .dueNow w ∈ tr → .event w time ∉ tr

theorem mem_waits : w ∈ tr.filterMap IntervalObs.waits? ↔ .waits w ∈ tr := by
  rw [List.mem_filterMap]
  constructor
  · rintro ⟨o, ho, he⟩
    cases o <;> cases he
    exact ho
  · exact fun h => ⟨_, h, rfl⟩

theorem mem_dueNow : w ∈ tr.filterMap IntervalObs.dueNow? ↔ .dueNow w ∈ tr := by
  rw [List.mem_filterMap]
  constructor
  · rintro ⟨o, ho, he⟩
    cases o <;> cases he
    exact ho
  · exact fun h => ⟨_, h, rfl⟩

theorem mem_event : w ∈ tr.filterMap IntervalObs.event? ↔ ∃ time, .event w time ∈ tr := by
  rw [List.mem_filterMap]
  constructor
  · rintro ⟨o, ho, he⟩
    cases o with
    | event v time =>
      cases he
      exact ⟨time, ho⟩
    | waits v => cases he
    | dueNow v => cases he
  · exact fun ⟨time, h⟩ => ⟨_, h, rfl⟩

theorem Recorded.timed (h : Recorded tr s) : Timed tr s := by
  have hperm := h.counted.perm
  obtain ⟨hn, -, hdisj⟩ := List.nodup_append.mp (List.map_append ▸ h.counted.nodup)
  have hbegun : ∀ w time, .event w time ∈ tr → .waits w ∈ tr := fun w time hw =>
    mem_waits.mp (hperm.mem_iff.mpr (List.mem_append_left _ (mem_event.mpr ⟨time, hw⟩)))
  refine ⟨h.armed.ascending.sorted, fun c hc n hn => ?_, h.early, hbegun, ?_, fun w hw => ?_,
    fun hi w hw => ?_, fun w time hd he => ?_⟩
  · exact h.armed.ascending.even c hc n.wait (List.mem_map_of_mem hn)
  · exact hperm.nodup_iff.mp (List.Nodup.of_map Wait.id hn)
  · rcases List.mem_append.mp (hperm.mem_iff.mp (mem_waits.mpr hw)) with he | ho
    · exact .inl (mem_event.mp he)
    · exact .inr ho
  · rw [outstanding, hi] at hw
    obtain ⟨c, hc, hw⟩ := List.mem_flatMap.mp hw
    obtain ⟨d, q, hq⟩ := List.exists_cons_of_ne_nil (List.ne_nil_of_mem hc)
    have hset := h.ready hi d (by rw [hq]; rfl)
    rcases h.armed.set d (by rw [hq]; exact List.mem_cons_self) hset with ⟨due, hp⟩ | ⟨_, _, hr, _⟩
    · refine ⟨_, hp, ?_⟩
      have hasc := h.armed.ascending
      rw [hasc.even c hc w hw]
      rw [hq] at hasc hc
      rcases List.mem_cons.mp hc with rfl | hc
      · exact Int.le_refl _
      · exact Int.le_of_lt ((List.pairwise_cons.mp hasc.sorted).1 c hc)
    · rw [hi] at hr
      cases hr
  · exact hdisj _ (List.mem_map_of_mem (mem_waits.mpr (hbegun w time he))) _
      (List.mem_map_of_mem (mem_dueNow.mpr hd)) rfl

/-- In every run the queue is in order and nothing is sent early, twice or to one
who does not wait; and a wait leads to its event exactly when its interval is not zero. -/
theorem interval_law :
    (∀ tr s, (interval ι τ).RunIf Quiet tr s → Timed tr s) ∧
    ∀ b : (interval ι τ).Behavior, Hosted b → ∀ n caller k eventType, 0 ≤ k →
      b.act n = .wait caller k eventType →
      ∃ w, b.obs n = (if k = 0 then [.dueNow w] else [.waits w]) ∧
        ((∃ m time, .event w time ∈ b.obs m) ↔ k ≠ 0) := by
  refine ⟨fun tr s h => (run_recorded h).timed, fun b hb n caller k eventType h0 ha => ?_⟩
  have hnext := b.next n
  rw [ha] at hnext
  have hobs : ((b.state n).wait caller k eventType).2 = b.obs n :=
    congrArg Prod.snd (Option.some.inj hnext)
  obtain ⟨w, hw⟩ : ∃ w, ((b.state n).wait caller k eventType).2 =
      if k = 0 then [.dueNow w] else [.waits w] := wait_obs h0
  rw [hobs] at hw
  refine ⟨w, hw, ?_⟩
  by_cases hz : k = 0
  · rw [if_pos hz] at hw
    refine ⟨fun ⟨m, time, he⟩ => ?_, fun h => absurd hz h⟩
    have htimed := (hb.recorded (max n m + 1)).timed
    have hd : .dueNow w ∈ b.obs n := by
      rw [hw]
      exact List.mem_singleton_self _
    exact absurd (b.mem_trace he (by omega)) (htimed.never w time (b.mem_trace hd (by omega)))
  · rw [if_neg hz] at hw
    refine ⟨fun _ => hz, fun _ => ?_⟩
    have hmem : .waits w ∈ b.obs n := by
      rw [hw]
      exact List.mem_singleton_self _
    rcases (hb.recorded (n + 1)).timed.kept w (b.mem_trace hmem (Nat.lt_succ_self n)) with
      ⟨time, he⟩ | ho
    · obtain ⟨m, -, he⟩ := b.exists_obs he
      exact ⟨m, time, he⟩
    · obtain ⟨m, -, time, he⟩ := hb.served ho
      exact ⟨m, time, he⟩

/-- One wait of a millisecond, and its event. -/
def onceServed : (interval Unit Unit).Behavior where
  state
    | 0 => .initial Unit Unit 0
    | 1 => ⟨0, [⟨⟨⟨0, 1, (), ()⟩, true⟩, []⟩], .array, [(1, 1)], none, 1⟩
    | 2 => ⟨1, [⟨⟨⟨0, 1, (), ()⟩, true⟩, []⟩], .array, [(1, 1)], none, 1⟩
    | 3 => ⟨1, [⟨⟨⟨0, 1, (), ()⟩, true⟩, []⟩], .array, [],
        some (1, [⟨⟨0, 1, (), ()⟩, true⟩]), 1⟩
    | 4 => ⟨1, [⟨⟨⟨0, 1, (), ()⟩, true⟩, []⟩], .array, [], some (1, []), 1⟩
    | n + 5 => ⟨n + 1, [], .array, [], none, 1⟩
  act
    | 0 => .wait () 1000 ()
    | 1 => .tick 1
    | 2 => .fire 0
    | 3 => .go
    | 4 => .go
    | n + 5 => .tick (n + 2)
  obs
    | 0 => [.waits ⟨0, 1, (), ()⟩]
    | 3 => [.event ⟨0, 1, (), ()⟩ 1]
    | _ => []
  start := ⟨0, rfl⟩
  next
    | 0 | 1 | 2 | 3 | 4 => by decide +kernel
    | n + 5 => by
      have hle : (n : Int) + 1 ≤ n + 2 := by omega
      simp only [interval, StdInterval.step]
      rw [if_pos hle]
      congr 3

theorem onceServed_hosted : Hosted onceServed where
  quiet n h := by
    match n with
    | 0 | 1 | 2 | 3 | 4 => cases h
    | n + 5 => cases h
  calls n p hp := by
    match n with
    | 0 | 3 | 4 => cases hp
    | 1 | 2 =>
      obtain rfl := List.mem_singleton.mp hp
      exact ⟨2, by decide, 0, rfl, rfl⟩
    | n + 5 => cases hp
  time t := by
    refine ⟨t.toNat + 5, ?_⟩
    have ht := Int.self_le_toNat t
    exact Int.le_trans ht (Int.le_add_one (Int.le_refl _))
  returns n hi := by
    match n with
    | 0 | 1 | 2 => exact absurd rfl hi
    | 3 => exact ⟨3, Nat.le_refl 3, rfl⟩
    | 4 => exact ⟨4, Nat.le_refl 4, rfl⟩
    | n + 5 => exact absurd rfl hi

/-- A receiver waits again while the queue is drained; and a wait has its event. -/
theorem interval_law_served :
    (∃ tr s, (interval Unit Unit).RunIf Quiet tr s ∧ s.nowMsec = 2 ∧ s.pending = [(3, 3)] ∧
      Timed tr s) ∧
    ∃ m time, .event ⟨0, 1, (), ()⟩ time ∈ onceServed.obs m := by
  refine ⟨?_, ?_⟩
  · have hr := Machine.exists_run (M := interval Unit Unit) (C := Quiet)
      (P := fun _ s => s.nowMsec = 2 ∧ s.pending = [(3, 3)])
      [.wait () 2000 (), .wait () 2000 (), .wait () 1000 (), .tick 1, .tick 2, .fire 0, .go,
        .wait () 1000 (), .go, .go, .go, .go, .fire 0]
      (s := .initial Unit Unit 0) ⟨0, rfl⟩ (by decide +kernel)
    obtain ⟨tr, s, h, hn, hp⟩ := hr
    exact ⟨tr, s, h, hn, hp, interval_law.1 tr s h⟩
  · obtain ⟨w, hw, hserved⟩ :=
      interval_law.2 onceServed onceServed_hosted 0 () 1000 () (by norm_num) rfl
    rw [if_neg (by norm_num)] at hw
    obtain rfl : ⟨0, 1, (), ()⟩ = w := IntervalObs.waits.inj (List.cons.inj hw).1
    exact hserved.mpr (by norm_num)

/-- A wait of no time is due, and the clock goes on: its event is not sent, and no
call of the host is to come. -/
theorem interval_zero : ∃ tr s, (interval Unit Unit).Run tr s ∧ s.nowMsec = 1000 ∧
    tr = [.dueNow ⟨0, 0, (), ()⟩] ∧ s.pending = [] ∧ s.invoking = none ∧ s.i_queue = [] :=
  Machine.exists_run [.wait () 0 (), .tick 1000] (s := .initial Unit Unit 0) ⟨0, rfl⟩
    (by decide +kernel)

end TinyState.Js
