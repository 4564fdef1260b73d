import Hexley.Lib.Bytes

/-!
The data queue between a producer and a consumer.

The queue is a piece of memory that both have mapped, with the offset `head`
of the oldest entry and the offset `tail` behind the newest. An entry is a
header with its size and the data behind it, and it is never split: if it
does not fit in front of the end of the queue, it goes to the start, and
its size is also left at the old tail if there is room for a header.

The producer runs `IODataQueueEnqueue` and the consumer
`IODataQueueDequeue`, and each access of one of them to `head`, to `tail`, to
the size of an entry or to its data is a step of its own. A program counter
carries the local variables that are still needed and says which access is
next. Offsets are 32-bit numbers, and so are their sums.

Beside the queue there is a record of what happened: the entries that were
put in, what the consumer has got, when it has found the queue empty, and
which calls have sent a notification.
-/

namespace Hexley.IOKit

open Lib

abbrev Entry := List UInt8

structure Queue where
  queueSize : ℕ
  head : ℕ
  tail : ℕ
  queue : Mem

/-- `DATA_QUEUE_ENTRY_HEADER_SIZE`. The kernel's header with it is not among the sources; an
entry has a size of four bytes before its data. -/
def headerSize : ℕ := 4

def add32 (a b : ℕ) : ℕ := (a + b) % 2 ^ 32

def sub32 (a b : ℕ) : ℕ := (a + 2 ^ 32 - b) % 2 ^ 32

section Queue

variable (e : Endian) (q : Queue)

def Queue.size (p : ℕ) : ℕ := e.val (q.queue.read p headerSize)

def Queue.setSize (p size : ℕ) : Queue :=
  { q with queue := q.queue.write p (e.bytes headerSize size) }

def Queue.setData (p : ℕ) (data : Entry) : Queue :=
  { q with queue := q.queue.write (p + headerSize) data }

end Queue

/-! ### The producer -/

inductive Place
  | atTail
  | atStart
  deriving DecidableEq

/-- The tests of `IODataQueueEnqueue`. There is no place if the queue is full. -/
def choosePlace (queueSize head tail entrySize : ℕ) : Option Place :=
  if tail ≥ head then
    if add32 tail entrySize ≤ queueSize then some .atTail
    else if head > entrySize then some .atStart
    else none
  else if head - tail > entrySize then some .atTail
  else none

/-- The local variables of `IODataQueueEnqueue` once the place is known. -/
structure Enqueue where
  data : Entry
  head : ℕ
  tail : ℕ
  place : Place

namespace Enqueue

variable (l : Enqueue)

def entrySize : ℕ := add32 l.data.length headerSize

def entry : ℕ :=
  match l.place with
  | .atTail => l.tail
  | .atStart => 0

end Enqueue

inductive Producer
  | idle
  | readHead (data : Entry)
  | readTail (data : Entry) (head : ℕ)
  | writeData (l : Enqueue)
  | writeSize (l : Enqueue)
  /-- The size is left at the old tail. -/
  | writeMark (l : Enqueue)
  /-- The first half of `dataQueue->tail += entrySize`. -/
  | readTailAgain (l : Enqueue)
  | writeTail (l : Enqueue) (newTail : ℕ)
  /-- The test whether the queue was emptied meanwhile. -/
  | readHeadAgain (tail index : ℕ)
  | notify (index : ℕ)

/-! ### The consumer -/

/-- The arguments of `IODataQueueDequeue`: whether `data` is not null, and `*dataSize` if
`dataSize` is not. -/
structure Request where
  data : Bool
  dataSize : Option ℕ

/-- What the consumer has of an entry: its size and, if it has asked for it, the data. -/
structure Got where
  size : ℕ
  data : Option Entry

inductive Consumer
  | idle
  | readHead (req : Request)
  | readTail (req : Request) (head : ℕ)
  | readHeadOffset (req : Request)
  | readHeadSize (req : Request) (headOffset : ℕ)
  | readEntrySize (req : Request) (entry : ℕ)
  | readData (entry entrySize newHeadOffset : ℕ)
  | writeHead (newHeadOffset : ℕ) (got : Got)

/-- What follows in `IODataQueueDequeue` when the size of the entry is known. -/
def Request.next (req : Request) (entry entrySize : ℕ) : Consumer :=
  let newHeadOffset := add32 (add32 entry entrySize) headerSize
  if req.data then
    match req.dataSize with
    -- `kIOReturnBadArgument`
    | none => .idle
    | some dataSize =>
      if entrySize ≤ dataSize then .readData entry entrySize newHeadOffset
      -- `kIOReturnNoSpace`
      else .idle
  else .writeHead newHeadOffset ⟨entrySize, none⟩

/-! ### Steps -/

structure State where
  q : Queue
  producer : Producer
  consumer : Consumer
  /-- The entries for which the tail was moved. -/
  accepted : List Entry
  /-- What the consumer has got. -/
  taken : List Got
  /-- How many entries had been accepted when the consumer found the queue empty. -/
  foundEmpty : List ℕ
  /-- The entries whose enqueue has returned, and whether it has sent a notification. -/
  returned : List (ℕ × Bool)

def produce (e : Endian) (s : State) : State :=
  match s.producer with
  | .idle => s
  | .readHead data => { s with producer := .readTail data s.q.head }
  | .readTail data head =>
    match choosePlace s.q.queueSize head s.q.tail (add32 data.length headerSize) with
    | some place => { s with producer := .writeData ⟨data, head, s.q.tail, place⟩ }
    -- `kIOReturnOverrun`
    | none => { s with producer := .idle }
  | .writeData l => { s with q := s.q.setData l.entry l.data, producer := .writeSize l }
  | .writeSize l =>
    { s with
      q := s.q.setSize e l.entry l.data.length
      producer :=
        match l.place with
        | .atTail => .readTailAgain l
        | .atStart =>
          if sub32 s.q.queueSize l.tail ≥ headerSize then .writeMark l
          else .writeTail l l.entrySize }
  | .writeMark l =>
    { s with q := s.q.setSize e l.tail l.data.length, producer := .writeTail l l.entrySize }
  | .readTailAgain l => { s with producer := .writeTail l (add32 s.q.tail l.entrySize) }
  | .writeTail l newTail =>
    { s with
      q := { s.q with tail := newTail }
      accepted := s.accepted ++ [l.data]
      producer :=
        if l.head = l.tail then .notify s.accepted.length
        else .readHeadAgain l.tail s.accepted.length }
  | .readHeadAgain tail index =>
    if s.q.head = tail then { s with producer := .notify index }
    else { s with producer := .idle, returned := s.returned ++ [(index, false)] }
  | .notify index => { s with producer := .idle, returned := s.returned ++ [(index, true)] }

def consume (e : Endian) (s : State) : State :=
  match s.consumer with
  | .idle => s
  | .readHead req => { s with consumer := .readTail req s.q.head }
  | .readTail req head =>
    if head ≠ s.q.tail then { s with consumer := .readHeadOffset req }
    -- `kIOReturnUnderrun`
    else { s with consumer := .idle, foundEmpty := s.accepted.length :: s.foundEmpty }
  | .readHeadOffset req => { s with consumer := .readHeadSize req s.q.head }
  | .readHeadSize req headOffset =>
    if add32 headOffset headerSize > s.q.queueSize ∨
        add32 (add32 headOffset (s.q.size e headOffset)) headerSize > s.q.queueSize then
      { s with consumer := .readEntrySize req 0 }
    else { s with consumer := .readEntrySize req headOffset }
  | .readEntrySize req entry => { s with consumer := req.next entry (s.q.size e entry) }
  | .readData entry entrySize newHeadOffset =>
    { s with
      consumer := .writeHead newHeadOffset
        ⟨entrySize, some (s.q.queue.read (entry + headerSize) entrySize)⟩ }
  | .writeHead newHeadOffset got =>
    { s with
      q := { s.q with head := newHeadOffset }
      taken := s.taken ++ [got]
      consumer := .idle }

/-- One step of the two: a program that is idle is called, or makes its next access. Which
entries are put in is up to `allowed`. -/
inductive Step (e : Endian) (allowed : State → Entry → Prop) : State → State → Prop
  | enqueue {s : State} (data : Entry) (hidle : s.producer = .idle) (hallowed : allowed s data) :
      Step e allowed s { s with producer := .readHead data }
  | produce (s : State) : Step e allowed s (produce e s)
  | dequeue {s : State} (req : Request) (hidle : s.consumer = .idle) :
      Step e allowed s { s with consumer := .readHead req }
  | consume (s : State) : Step e allowed s (consume e s)

def State.init (queueSize : ℕ) (queue : Mem) : State :=
  ⟨⟨queueSize, 0, 0, queue⟩, .idle, .idle, [], [], [], []⟩

end Hexley.IOKit
