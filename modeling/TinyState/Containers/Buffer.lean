import TinyState.Lib.Machine

/-!
# sBufferHandle

The segments of a buffer lie in a heap and are linked by `next`, and several of them may
lie in one array. As long as the calls leave all the bytes in the segment that the handle
points to, the handle is a queue of bytes; what goes wrong otherwise is kept as it is: an
empty terminator cannot be filled, the handle moves on to the last segment, and a shift into
a block follows a null pointer.
-/

namespace TinyState

open Transition

/-- `stdBF_ERR_*`. -/
inductive BufferError
  | ok
  | remain
  | overEpoint
  | extend
  | tooLong
  | inv
  deriving DecidableEq, Repr

/-- `stdBuffer`; the pointers are places in the heap. -/
structure StdBuffer where
  next : Option Nat
  container : Option Nat
  writable : Bool
  avairableTop : Option Nat
  avairableSize : Nat
  dataHead : Nat
  dataSize : Nat
  deriving DecidableEq, Repr

structure BufferHeap where
  buffers : List StdBuffer
  arrays : List (List UInt8)
  deriving DecidableEq, Repr

namespace StdBuffer

/-- `stdBuffer()`. -/
def terminator : StdBuffer := ⟨none, none, true, none, 0, 0, 0⟩

/-- `initial`, which may panic. -/
def initial (s : StdBuffer) (container : Option Nat) (writable : Bool)
    (avairableTop : Option Nat) (avairableSize dataHead dataSize : Nat) : Option StdBuffer :=
  if avairableSize ≠ 0 ∧ (avairableSize ≤ dataHead ∨ avairableSize - dataHead ≤ dataSize) then
    none
  else some ⟨s.next, container, writable, avairableTop, avairableSize, dataHead, dataSize⟩

/-- `is_writable`, where `refs` are the references to the arrays. -/
def is_writable (refs : Nat → Nat) (s : StdBuffer) : Bool :=
  s.writable && s.container.any fun k => refs k = 1

/-- Where the data end. -/
def fin (s : StdBuffer) : Nat := s.dataHead + s.dataSize

end StdBuffer

namespace BufferHeap

def get (m : BufferHeap) (p : Nat) : Option StdBuffer := m.buffers[p]?

def set (m : BufferHeap) (p : Nat) (s : StdBuffer) : BufferHeap :=
  { m with buffers := m.buffers.set p s }

def newBuffer (m : BufferHeap) (s : StdBuffer) : Nat × BufferHeap :=
  (m.buffers.length, { m with buffers := m.buffers ++ [s] })

def newArray (m : BufferHeap) (n : Nat) : Nat × BufferHeap :=
  (m.arrays.length, { m with arrays := m.arrays ++ [List.replicate n 0] })

/-- The bytes that are copied from an array. -/
def load (m : BufferHeap) (top : Option Nat) (i len : Nat) : Option (List UInt8) :=
  if len = 0 then some []
  else do
    let ary ← m.arrays[← top]?
    if i + len ≤ ary.length then some ((ary.drop i).take len) else none

/-- Bytes are copied into an array. -/
def store (m : BufferHeap) (top : Option Nat) (i : Nat) (bytes : List UInt8) :
    Option BufferHeap :=
  if bytes = [] then some m
  else do
    let k ← top
    let ary ← m.arrays[k]?
    if i + bytes.length ≤ ary.length then
      some { m with
        arrays := m.arrays.set k (ary.take i ++ bytes ++ ary.drop (i + bytes.length)) }
    else none

/-- A new segment with an array of its own. -/
def newSegment (m : BufferHeap) (arraySize : Nat) : Option (Nat × BufferHeap) := do
  let (ary, m) := m.newArray arraySize
  let s ← StdBuffer.terminator.initial (some ary) true (some ary) arraySize 0 0
  some (m.newBuffer s)

/-- The loop of `last`; a chain has at most as many segments as there are. -/
def lastFrom (m : BufferHeap) : Nat → Nat → Option (Nat × Nat)
  | 0, _ => none
  | fuel + 1, p => do
    let s ← m.get p
    match s.next with
    | none => some (p, s.dataSize)
    | some q => lastFrom m fuel q

/-- `last`. -/
def last (m : BufferHeap) (p : Nat) : Option (Nat × Nat) :=
  m.lastFrom (m.buffers.length + 1) p

/-- The loop of `length`. -/
def lengthFrom (m : BufferHeap) : Nat → Nat → Option Nat
  | 0, _ => none
  | fuel + 1, p => do
    let s ← m.get p
    match s.next with
    | none => some s.dataSize
    | some q => return s.dataSize + (← lengthFrom m fuel q)

/-- `length`. -/
def length (m : BufferHeap) (p : Nat) : Option Nat :=
  m.lengthFrom (m.buffers.length + 1) p

/-- `extend`. -/
def extend (m : BufferHeap) (this arraySize : Nat) : Option (BufferError × BufferHeap) := do
  let s ← m.get this
  if s.avairableTop.isSome ∨ s.next.isSome then some (.extend, m)
  else
    let (ary, m) := m.newArray arraySize
    let s ← s.initial (some ary) true (some ary) arraySize 0 0
    let (n, m) := m.newBuffer .terminator
    some (.ok, m.set this { s with next := some n })

/-- `refresh`. -/
def refresh (m : BufferHeap) (refs : Nat → Nat) (this arraySize : Nat) : Option BufferHeap := do
  let s ← m.get this
  if s.is_writable refs then some m
  else if s.dataSize ≤ arraySize then
    let (ary, m) := m.newArray arraySize
    let m ← m.store (some ary) 0 (← m.load s.avairableTop s.dataHead s.dataSize)
    some (m.set this (← s.initial (some ary) true (some ary) arraySize 0 s.dataSize))
  else
    let n ← s.initial s.container s.writable s.avairableTop s.avairableSize
      (s.dataHead + arraySize) (s.dataSize - arraySize)
    let (n, m) := m.newBuffer n
    let (ary, m) := m.newArray arraySize
    let m ← m.store (some ary) 0 (← m.load s.avairableTop s.dataHead arraySize)
    let s ← s.initial (some ary) true (some ary) arraySize 0 arraySize
    some (m.set this { s with next := some n })

/-- A full segment `pb` gets another one after it: it is put after `this`. -/
def grow (m : BufferHeap) (this pb arraySize : Nat) : Option (Nat × BufferHeap) := do
  let (n, m) ← m.newSegment arraySize
  let m := m.set this { ← m.get this with next := some n }
  some (← (← m.get pb).next, m)

/-- What is copied into the segment `pb` in one round. -/
def fill (m : BufferHeap) (refs : Nat → Nat) (this pb ptr arraySize : Nat) (buf : List UInt8) :
    Option (Nat × BufferHeap) := do
  let m ← m.refresh refs this arraySize
  let s ← m.get pb
  if s.fin < ptr then none
  else
    let n := min buf.length (s.fin - ptr)
    some (n, ← m.store s.avairableTop ptr (buf.take n))

/-- The loop of `copyin`. -/
def copyinLoop (refs : Nat → Nat) (this arraySize : Nat) :
    Nat → BufferHeap → Nat → Nat → List UInt8 → Int → Option (BufferError × Int × BufferHeap)
  | 0, _, _, _, _, _ => none
  | fuel + 1, m, pb, ptr, buf, ret =>
    if buf = [] then some (.ok, ret, m)
    else do
      let s ← m.get pb
      let (erp, m) ← if s.avairableTop.isNone then m.extend this arraySize else some (.ok, m)
      if erp ≠ .ok then some (erp, -1, m)
      else
        let s ← m.get pb
        if s.fin < ptr then some (.overEpoint, -1, m)
        else if ptr = s.fin ∧ s.next.isSome then
          let q ← s.next
          copyinLoop refs this arraySize fuel m q (← m.get q).dataHead buf ret
        else if ptr = s.fin ∧ s.fin = s.avairableSize then
          let (q, m) ← m.grow this pb arraySize
          copyinLoop refs this arraySize fuel m q (← m.get q).dataHead buf ret
        else
          let m := if ptr = s.fin then
            m.set pb { s with dataSize := min s.avairableSize (ptr + buf.length) - s.dataHead }
            else m
          let (n, m) ← m.fill refs this pb ptr arraySize buf
          copyinLoop refs this arraySize fuel m pb (ptr + n) (buf.drop n) (ret + n)

/-- `copyin`, with the value that `ret` happens to have at the start. -/
def copyin (m : BufferHeap) (refs : Nat → Nat) (ret : Int) (this ptr : Nat) (buf : List UInt8)
    (arraySize : Nat) : Option (BufferError × Int × BufferHeap) := do
  copyinLoop refs this arraySize (m.buffers.length + 3 * buf.length + 3) m this
    ((← m.get this).dataHead + ptr) buf ret

/-- The loop of `copyout`. -/
def copyoutLoop (m : BufferHeap) :
    Nat → Option Nat → Nat → Nat → List UInt8 → Option (BufferError × List UInt8)
  | 0, _, _, _, _ => none
  | fuel + 1, pb, ptr, len, out =>
    if len = 0 then some (.ok, out)
    else do
      let s ← m.get (← pb)
      if s.avairableTop.isNone then some (.remain, out)
      else if s.fin ≤ ptr then copyoutLoop m fuel s.next s.dataHead len out
      else
        let n := min len (s.fin - ptr)
        let bytes ← m.load s.avairableTop ptr n
        copyoutLoop m fuel pb (ptr + n) (len - n) (out ++ bytes)

/-- `copyout`. -/
def copyout (m : BufferHeap) (this ptr len : Nat) : Option (BufferError × List UInt8) := do
  m.copyoutLoop (m.buffers.length + len + 1) this ((← m.get this).dataHead + ptr) len []

/-- `*rp = p`, where `rp` is at the `next` of `prev`, or at the result if there is none. -/
def point (m : BufferHeap) (prev : Option Nat) (head p : Option Nat) :
    Option (Option Nat × BufferHeap) :=
  match prev with
  | none => some (p, m)
  | some q => do some (head, m.set q { ← m.get q with next := p })

/-- The loop of `shift`; `result` says whether the caller wants what is cut off. -/
def shiftLoop (result : Bool) :
    Nat → BufferHeap → Option Nat → Option Nat → Option Nat → Nat →
      Option (BufferError × Option Nat × Option Nat × BufferHeap)
  | 0, _, _, _, _, _ => none
  | fuel + 1, m, prev, head, ret, len =>
    if len = 0 then do
      let (head, m) ← m.point prev head none
      some (.ok, head, ret, m)
    else do
      let r ← ret
      let s ← m.get r
      if s.avairableTop.isNone then
        let (head, m) ← m.point prev head none
        some (.remain, head, ret, m)
      else if s.dataSize ≤ len then
        let (head, m) ← m.point prev head ret
        shiftLoop result fuel m ret head s.next (len - s.dataSize)
      else
        let (head, m) ← if result then do
            let n ← StdBuffer.terminator.initial s.container s.writable s.avairableTop
              s.avairableSize s.dataHead len
            let (n, m) := m.newBuffer n
            m.point prev head n
          else some (head, m)
        let m := m.set r { s with dataSize := s.dataSize - len, dataHead := s.dataHead + len }
        some (.ok, head, ret, m)

/-- `shift`: the error, what is cut off, and where the rest begins. -/
def shift (m : BufferHeap) (this : Nat) (result : Bool) (len : Nat) :
    Option (BufferError × Option Nat × Option Nat × BufferHeap) :=
  shiftLoop result (m.buffers.length + 2) m none none this len

/-- The loop of `is_singlePointed`, which goes on twice in each round. -/
def singleLoop (m : BufferHeap) (refs : Nat → Nat) (len : Nat) :
    Nat → Option Nat → Nat → Nat → Option Nat
  | 0, _, _, _ => none
  | fuel + 1, pb, length, ret =>
    match pb with
    | none => some ret
    | some p =>
      if length < len then do
        let s ← m.get p
        let q ← s.next
        singleLoop m refs len fuel (← m.get q).next (length + s.dataSize)
          (if refs p ≠ 1 then length + s.dataSize else ret)
      else some ret

/-- `is_singlePointed`. -/
def is_singlePointed (m : BufferHeap) (refs : Nat → Nat) (this len : Nat) : Option Nat :=
  m.singleLoop refs len (m.buffers.length + 1) this 0 0

/-- The loop of `dup`, whose `length` stays 0. -/
def dupLoop (len : Nat) : Nat → BufferHeap → Option Nat → Option Nat → Option Nat →
    Option (Option Nat × BufferHeap)
  | 0, _, _, _, _ => none
  | fuel + 1, m, prev, head, pb =>
    match pb with
    | none => m.point prev head pb
    | some p =>
      if 0 < len then do
        let s ← m.get p
        let n ← s.initial s.container s.writable s.avairableTop s.avairableSize s.dataHead
          s.dataSize
        let (n, m) := m.newBuffer n
        let (head, m) ← m.point prev head n
        dupLoop len fuel m n head s.next
      else m.point prev head pb

/-- `dup`. -/
def dup (m : BufferHeap) (this len : Nat) : Option (Option Nat × BufferHeap) :=
  dupLoop len (m.buffers.length + 1) m none none this

/-- The bytes of the chain from `p` on. -/
def bytesFrom (m : BufferHeap) : Nat → Nat → Option (List UInt8)
  | 0, _ => none
  | fuel + 1, p => do
    let s ← m.get p
    let own ← m.load s.avairableTop s.dataHead s.dataSize
    match s.next with
    | none => some own
    | some q => return own ++ (← bytesFrom m fuel q)

def bytes (m : BufferHeap) (p : Option Nat) : Option (List UInt8) := do
  m.bytesFrom (m.buffers.length + 1) (← p)

end BufferHeap

-- ---------------------------------------------------------------------------
-- The handle
-- ---------------------------------------------------------------------------

/-- `stdBH_MODE_*`. -/
inductive BufferMode
  | append
  | indiv
  | error
  deriving DecidableEq, Repr

/-- `sBufferHandle`. -/
structure BufferHandle where
  b : Option Nat
  mode : BufferMode
  arraySize : Nat
  deriving DecidableEq, Repr

/-- What a call meets: the value of the variable that `copyin` does not initialize, what
`getref` gives for arrays and segments, and whether of the arguments `&inp->ary[0]` and
`inp->length()` the first is evaluated first. -/
structure Surroundings where
  ret : Int
  arrayRefs : Nat → Nat
  bufferRefs : Nat → Nat
  indexFirst : Bool

namespace BufferHandle

/-- An array that is made in the call is held by its segment alone. -/
def refs (m : BufferHeap) (w : Surroundings) (k : Nat) : Nat :=
  if k < m.arrays.length then w.arrayRefs k else 1

/-- `append` of a block. -/
def append (m : BufferHeap) (w : Surroundings) (h : BufferHandle) (buf : List UInt8) :
    Option (BufferError × Int × BufferHeap × BufferHandle) :=
  if h.mode ≠ .append then some (.inv, -1, m, h)
  else do
    let (bb, ptr) ← m.last (← h.b)
    let (erp, ret, m) ← m.copyin (refs m w) w.ret bb ptr buf h.arraySize
    if erp ≠ .ok then some (erp, -1, m, h)
    else
      let (b, _) ← m.last bb
      some (.ok, ret, m, { h with b := some b })

/-- `append` of a string. -/
def appendString (m : BufferHeap) (w : Surroundings) (h : BufferHandle) :
    Option (List UInt8) → Option (BufferError × Int × BufferHeap × BufferHandle)
  | none => some (.ok, 0, m, h)
  | some str => append m w h str

/-- `append` of another handle. -/
def appendHandle (m : BufferHeap) (h bf : BufferHandle) :
    Option (BufferError × Int × BufferHeap × BufferHandle) :=
  if bf.mode ≠ .indiv then some (.inv, -1, m, h)
  else do
    let ret ← m.length (← bf.b)
    let (bb, _) ← m.last (← h.b)
    let m := m.set bb { ← m.get bb with next := bf.b }
    let (b, _) ← m.last bb
    some (.ok, ret, m, { h with b := some b })

/-- `append` of an array, which `&inp->ary[0]` makes longer if it is empty. -/
def appendArray (m : BufferHeap) (w : Surroundings) (h : BufferHandle) (ar : Nat) :
    Option (BufferError × Int × BufferHeap × BufferHandle) := do
  let ary ← m.arrays[ar]?
  let size := if ary = [] ∧ w.indexFirst then 1 else ary.length
  let m := { m with arrays := m.arrays.set ar (if ary = [] then [0] else ary) }
  let (n, m) := m.newBuffer (← StdBuffer.terminator.initial (some ar) true (some ar) size 0 0)
  appendHandle m h ⟨some n, .indiv, ary.length⟩

/-- `shift` into a block. With `remain` the call throws and is made again later. -/
def shift (m : BufferHeap) (w : Surroundings) (h : BufferHandle) (len : Nat) :
    Option (BufferError × Int × List UInt8 × BufferHeap × BufferHandle) := do
  let single ← m.is_singlePointed w.bufferRefs (← h.b) len
  let (b, m) ← if single = 0 then m.dup (← h.b) len else some (h.b, m)
  let (erp, out) ← m.copyout (← b) 0 len
  if erp ≠ .ok then some (erp, -1, out, m, { h with b := b })
  else
    let (erp, _, b, m) ← m.shift (← b) false len
    some (erp, out.length, out, m, { h with b := b })

/-- `shift` as a handle: `bb = b` leaves the handle where it is. -/
def shiftHandle (m : BufferHeap) (h : BufferHandle) (len : Nat) :
    Option (BufferError × BufferHandle × BufferHeap) := do
  let (erp, result, _, m) ← m.shift (← h.b) true len
  if erp ≠ .ok then some (erp, ⟨none, .error, 0⟩, m)
  else some (.ok, ⟨result, .indiv, h.arraySize⟩, m)

end BufferHandle

-- ---------------------------------------------------------------------------
-- The calls
-- ---------------------------------------------------------------------------

/-- The heap and the handle that the calls are made on. -/
structure BufferStore where
  heap : BufferHeap
  handle : BufferHandle
  deriving DecidableEq, Repr

/-- The calls; `others` are segments and arrays that the rest of the program makes. -/
inductive BufferCall
  | others (buffers : List StdBuffer) (arrays : List (List UInt8))
  | append (w : Surroundings) (buf : List UInt8)
  | appendString (w : Surroundings) (str : Option (List UInt8))
  | appendArray (w : Surroundings) (ar : Nat)
  | appendHandle (bf : BufferHandle)
  | shift (w : Surroundings) (len : Nat)
  | shiftHandle (len : Nat)

/-- What a call is given and what it returns; `none` if it does not return. -/
inductive BufferObs
  | appended (bytes : List UInt8) (reply : Option (BufferError × Int))
  | shifted (len : Nat) (reply : Option (BufferError × Int × List UInt8))
  deriving DecidableEq, Repr

namespace BufferStore

/-- The bytes that the handle holds. -/
def stored (t : BufferStore) : List UInt8 := (t.heap.bytes t.handle.b).getD []

def appended (t : BufferStore) (bytes : List UInt8)
    (r : Option (BufferError × Int × BufferHeap × BufferHandle)) :
    BufferStore × List BufferObs :=
  match r with
  | none => (t, [.appended bytes none])
  | some (erp, ret, m, h) => (⟨m, h⟩, [.appended bytes (some (erp, ret))])

def step (t : BufferStore) : BufferCall → Option (BufferStore × List BufferObs)
  | .others buffers arrays =>
    some ({ t with heap := ⟨t.heap.buffers ++ buffers, t.heap.arrays ++ arrays⟩ }, [])
  | .append w buf => t.appended buf (t.handle.append t.heap w buf)
  | .appendString w str => t.appended (str.getD []) (t.handle.appendString t.heap w str)
  | .appendArray w ar =>
    t.appended (t.heap.arrays[ar]?.getD []) (t.handle.appendArray t.heap w ar)
  | .appendHandle bf =>
    t.appended ((t.heap.bytes bf.b).getD []) (t.handle.appendHandle t.heap bf)
  | .shift w len =>
    match t.handle.shift t.heap w len with
    | none => some (t, [.shifted len none])
    | some (erp, ret, out, m, h) => some (⟨m, h⟩, [.shifted len (some (erp, ret, out))])
  | .shiftHandle len =>
    match t.handle.shiftHandle t.heap len with
    | none => some (t, [.shifted len none])
    | some (erp, r, m) =>
      some ({ t with heap := m }, [.shifted len (some (erp, len, (m.bytes r.b).getD []))])

/-- A handle that has just been made. -/
def machine : Machine BufferStore BufferCall BufferObs where
  init t := t.heap = ⟨[.terminator], []⟩ ∧ t.handle.b = some 0 ∧ t.handle.mode = .append ∧
    0 < t.handle.arraySize
  step := step

end BufferStore

end TinyState
