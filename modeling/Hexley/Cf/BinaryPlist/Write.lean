import Hexley.Cf.BinaryPlist.Read
import Hexley.Lib.Bytes

/-!
The writer of `CFBinaryPList.c`.

The writer sees objects in memory, and a container holds pointers to other
objects, so two containers can share what they contain. `_flattenPlist`
makes the list of the objects to be written and a table from pointers to
places in the list. A string, number, date or data object that is equal to
one in the list gets the place of that one. A container or a boolean is put
into the list each time it is met, and the table keeps its first place.

Then the objects are written one after the other through a buffer, the
references of a container being looked up in the table, and behind them the
table of their offsets and the trailer.
-/

namespace Hexley.Cf.BinaryPlist

open Lib Endian

/-! ### Objects in memory -/

/-- An object as it is stored. A number that is no float has 64 bits or is
a `CFSInt128Struct`. -/
inductive Obj
  | null
  | bool (v : Bool)
  | int (v : BitVec 64)
  | int128 (v : BitVec 128)
  | real32 (bits : BitVec 32)
  | real64 (bits : BitVec 64)
  | date (bits : BitVec 64)
  | data (xs : List UInt8)
  | string (units : List UInt16)
  | uid (v : UInt32)
  | array (items : List ℕ)
  | set (items : List ℕ)
  | dict (entries : List (ℕ × ℕ))

namespace Obj

def children : Obj → List ℕ
  | array items => items
  | set items => items
  | dict entries => entries.map Prod.fst ++ entries.map Prod.snd
  | _ => []

/-- The property list that the object is, if its pointers are to the
property lists `pl`. -/
def value (pl : ℕ → Plist) : Obj → Plist
  | null => .null
  | bool v => .bool v
  | int v => .int v.toInt
  | int128 v => .int v.toInt
  | real32 bits => .real (big.bytes 4 bits.toNat)
  | real64 bits => .real (big.bytes 8 bits.toNat)
  | date bits => .date (big.bytes 8 bits.toNat)
  | data xs => .data xs
  | string units => .string units
  | uid v => .uid v.toNat
  | array items => .array (items.map pl)
  | set items => .set (items.map pl)
  | dict entries => .dict (entries.map fun e => pl e.1) (entries.map fun e => pl e.2)

def isFloatType : Obj → Bool
  | real32 _ => true
  | real64 _ => true
  | _ => false

end Obj

/-- Objects in memory, where a container is made after what it contains, and
its pointers of eight bytes fit into the address space. -/
structure Heap where
  obj : ℕ → Obj
  rank : ℕ → ℕ
  rank_lt : ∀ p, ∀ c ∈ (obj p).children, rank c < rank p
  fits : ∀ p, (obj p).children.length * 8 < 2 ^ 64

namespace Heap

def plistAt (h : Heap) : ℕ → ℕ → Plist
  | 0, _ => .null
  | n + 1, p => (h.obj p).value (plistAt h n)

def plist (h : Heap) (p : ℕ) : Plist := h.plistAt (h.rank p + 1) p

end Heap

/-! ### The list of objects -/

inductive UniquingSet
  | string
  | number
  | date
  | data
  deriving DecidableEq

def Obj.which : Obj → Option UniquingSet
  | .string _ => some .string
  | .int _ => some .number
  | .int128 _ => some .number
  | .real32 _ => some .number
  | .real64 _ => some .number
  | .date _ => some .date
  | .data _ => some .data
  | _ => none

structure FlattenState where
  objlist : List ℕ
  objtable : ℕ → Option ℕ
  uniquingsets : UniquingSet → List ℕ

namespace FlattenState

def empty : FlattenState := ⟨[], fun _ => none, fun _ => []⟩

variable (st : FlattenState)

/-- `CFDictionaryAddValue(objtable, p, refnum)`, which changes nothing if
there is a value for `p`. -/
def addRef (p refnum : ℕ) : FlattenState :=
  match st.objtable p with
  | some _ => st
  | none => { st with objtable := Function.update st.objtable p (some refnum) }

def refOf (p : ℕ) : ℕ := (st.objtable p).getD 0 % 2 ^ 32

def append (which : Option UniquingSet) (p : ℕ) : FlattenState :=
  let st' : FlattenState :=
    { objlist := st.objlist ++ [p]
      objtable := st.objtable
      uniquingsets := fun w =>
        if which = some w then st.uniquingsets w ++ [p] else st.uniquingsets w }
  st'.addRef p (st.objlist.length % 2 ^ 32)

end FlattenState

variable (cfEqual : Plist → Plist → Bool)

/-- The `equal` callback of the sets, which for numbers is
`__plistNumberEqual`. -/
def UniquingSet.equal (h : Heap) (w : UniquingSet) (p q : ℕ) : Bool :=
  match w with
  | .number =>
    if (h.obj p).isFloatType ≠ (h.obj q).isFloatType then false
    else cfEqual (h.plist p) (h.plist q)
  | _ => cfEqual (h.plist p) (h.plist q)

variable (st : FlattenState) (buf : WriteBuffer) (marker count : ℕ) (bigint : ℕ)

def FlattenState.unique (h : Heap) (p : ℕ) : Option ℕ :=
  match (h.obj p).which with
  | none => none
  | some w => (st.uniquingsets w).find? fun q => q = p || w.equal cfEqual h q p

/-- What `_flattenPlist` goes on with. -/
def Obj.flattened : Obj → List ℕ
  | .array items => items
  | .dict entries => entries.map Prod.fst ++ entries.map Prod.snd
  | _ => []

/-- `_flattenPlist`, with the number of frames it may use. -/
def flattenPlist (h : Heap) : ℕ → ℕ → FlattenState → Outcome FlattenState
  | 0, _, _ => .exhausted
  | frames + 1, plist, st =>
    match st.unique cfEqual h plist with
    | some unique =>
      .ok (if unique ≠ plist then st.addRef plist (st.refOf unique) else st)
    | none =>
      (h.obj plist).flattened.foldlM (fun st p => flattenPlist h frames p st)
        (st.append (h.obj plist).which plist)

/-! ### The buffer -/

def bufferSize : ℕ := 8192 - 32

/-- `__CFBinaryPlistWriteBuffer`: what has gone to the stream, and what is
in the buffer. The buffer is never left full. -/
structure WriteBuffer where
  stream : List UInt8
  buffer : List UInt8
  room : buffer.length < bufferSize

namespace WriteBuffer

def empty : WriteBuffer := ⟨[], [], by decide⟩

variable (buf : WriteBuffer) {buf : WriteBuffer} {bytes : List UInt8}

def length : ℕ := buf.stream.length + buf.buffer.length

def copyLen (bytes : List UInt8) : ℕ :=
  min bytes.length (bufferSize - buf.buffer.length)

theorem copied_lt (h : (buf.buffer ++ bytes.take (buf.copyLen bytes)).length ≠ bufferSize) :
    (buf.buffer ++ bytes.take (buf.copyLen bytes)).length < bufferSize := by
  have hroom := buf.room
  rw [List.length_append, List.length_take] at h ⊢
  unfold copyLen at h ⊢
  omega

theorem rest_lt (h : ¬bufferSize ≤ bytes.length) :
    (bytes.drop (buf.copyLen bytes)).length < bufferSize := by
  rw [List.length_drop]
  omega

def bufferWrite (bytes : List UInt8) : WriteBuffer :=
  if bytes.length = 0 then buf
  else if hlong : bufferSize ≤ bytes.length then
    { stream := buf.stream ++ buf.buffer ++ bytes, buffer := [], room := by decide }
  else if hfull : (buf.buffer ++ bytes.take (buf.copyLen bytes)).length = bufferSize then
    { stream := buf.stream ++ (buf.buffer ++ bytes.take (buf.copyLen bytes))
      buffer := bytes.drop (buf.copyLen bytes)
      room := rest_lt hlong }
  else
    { stream := buf.stream
      buffer := buf.buffer ++ bytes.take (buf.copyLen bytes)
      room := copied_lt hfull }

/-- `bufferFlush`, and the bytes that are then in the stream. -/
def bufferFlush : List UInt8 := buf.stream ++ buf.buffer

end WriteBuffer

/-! ### Objects in the stream -/

/-- The last `nbytes` bytes of the big-endian form of `v` with `size`
bytes. -/
def swappedTail (size nbytes v : ℕ) : List UInt8 := (big.bytes size v).drop (size - nbytes)

/-- The exponent of the number of bytes that `_appendInt` needs. -/
def intWidth : ℕ :=
  if bigint ≤ 0xff then 0
  else if bigint ≤ 0xffff then 1
  else if bigint ≤ 0xffffffff then 2
  else 3

def appendInt : WriteBuffer :=
  (buf.bufferWrite [UInt8.ofNat (0x10 + intWidth bigint)]).bufferWrite
    (swappedTail 8 (2 ^ intWidth bigint) bigint)

def appendUID (uid : UInt32) : WriteBuffer :=
  (buf.bufferWrite [UInt8.ofNat (0x80 + (2 ^ intWidth uid.toNat - 1))]).bufferWrite
    (swappedTail 8 (2 ^ intWidth uid.toNat) uid.toNat)

def countMarker : UInt8 :=
  UInt8.ofNat (marker + if count < 15 then count else 0xf)

def appendCount : WriteBuffer :=
  let buf := buf.bufferWrite [countMarker marker count]
  if 15 ≤ count then appendInt buf count else buf

/-- `CFStringGetBytes` for `kCFStringEncodingASCII` converts all units. -/
def isASCII (units : List UInt16) : Bool := units.all fun u => u.toNat < 0x80

/-- The loop over the pointers of a container. The references are the last
bytes of an `uint32_t`, and there are only four. -/
def appendRefs (st : FlattenState) (refSize : ℕ) :
    List ℕ → WriteBuffer → Outcome WriteBuffer
  | [], buf => .ok buf
  | p :: list, buf =>
    if 4 < refSize then .fault
    else appendRefs st refSize list (buf.bufferWrite (swappedTail 4 refSize (st.refOf p)))

/-- What is written for one object. There is no case for the null object
and for sets. -/
def writeObject (refSize : ℕ) (buf : WriteBuffer) :
    Obj → Outcome WriteBuffer
  | .string units =>
    if isASCII units then
      .ok ((appendCount buf 0x50 units.length).bufferWrite
        (units.map fun u => UInt8.ofNat u.toNat))
    else
      .ok ((appendCount buf 0x60 units.length).bufferWrite
        (units.flatMap fun u => big.bytes 2 u.toNat))
  | .real32 bits => .ok ((buf.bufferWrite [0x22]).bufferWrite (big.bytes 4 bits.toNat))
  | .real64 bits => .ok ((buf.bufferWrite [0x23]).bufferWrite (big.bytes 8 bits.toNat))
  | .int128 v =>
    .ok ((buf.bufferWrite [0x14]).bufferWrite
      (big.bytes 8 (v.toNat / 2 ^ 64) ++ big.bytes 8 (v.toNat % 2 ^ 64)))
  | .int v => .ok (appendInt buf v.toNat)
  | .uid v => .ok (appendUID buf v)
  | .bool v => .ok (buf.bufferWrite [if v then 0x09 else 0x08])
  | .data xs => .ok ((appendCount buf 0x40 xs.length).bufferWrite xs)
  | .date bits => .ok ((buf.bufferWrite [0x33]).bufferWrite (big.bytes 8 bits.toNat))
  | .dict entries =>
    appendRefs st refSize (entries.map Prod.fst ++ entries.map Prod.snd)
      (appendCount buf 0xD0 entries.length)
  | .array items => appendRefs st refSize items (appendCount buf 0xA0 items.length)
  | .null => .failed
  | .set _ => .failed

/-- The loop over the list of objects. The offset of each is noted. -/
def writeObjects (h : Heap) (st : FlattenState) (refSize : ℕ) :
    List ℕ → WriteBuffer → List ℕ → Outcome (WriteBuffer × List ℕ)
  | [], buf, offsets => .ok (buf, offsets)
  | p :: list, buf, offsets => do
      let buf' ← writeObject st refSize buf (h.obj p)
      writeObjects h st refSize list buf' (offsets ++ [buf.length])

/-! ### The stream -/

/-- The loop `while (n & mask) { size++; mask = mask << 8; }`, in which the
mask is zero after eight rounds. -/
def byteWidthLoop : ℕ → ℕ → ℕ
  | 0, _ => 0
  | rounds + 1, n => if n = 0 then 0 else byteWidthLoop rounds (n / 256) + 1

def byteWidth (n : ℕ) : ℕ := byteWidthLoop 8 n

def Trailer.bytes (t : Trailer) : List UInt8 :=
  List.replicate 6 0 ++ [UInt8.ofNat t.offsetIntSize, UInt8.ofNat t.objectRefSize] ++
    big.bytes 8 t.numObjects ++ big.bytes 8 t.topObject ++
    big.bytes 8 t.offsetTableOffset

/-- `__CFBinaryPlistWriteToStream`: the bytes that are appended to the
stream. -/
def writeToStream (h : Heap) (frames plist : ℕ) : Outcome (List UInt8) := do
  let st ← flattenPlist cfEqual h frames plist .empty
  let cnt := st.objlist.length
  let refSize := byteWidth cnt
  let (buf, offsets) ← writeObjects h st refSize st.objlist
    (WriteBuffer.empty.bufferWrite magic00) []
  let offsetIntSize := byteWidth buf.length
  let buf' := offsets.foldl
    (fun buf off => buf.bufferWrite (swappedTail 8 offsetIntSize off)) buf
  .ok (buf'.bufferWrite (Trailer.bytes
    { offsetIntSize := offsetIntSize
      objectRefSize := refSize
      numObjects := cnt
      topObject := 0
      offsetTableOffset := buf.length })).bufferFlush

end Hexley.Cf.BinaryPlist
