import Hexley.Lib.Outcome
import Mathlib.Algebra.Order.Ring.Int

/-!
The reader of `CFBinaryPList.c`.

The buffer is a block of bytes somewhere in a 64-bit address space, and a
pointer is an address: the pointer arithmetic of the source wraps, and a
byte may be looked at only if its address is in the block. An offset that
could not be found is reported as `UINT64_MAX`, and `databytes` plus that is
the address in front of the block.

A trailer that has been checked gives the width of a reference to an object
and of an entry of the offset table, the number of objects, and where the
table starts. The objects are before the table. An object is read by
`__CFBinaryPlistCreateObject2`, which calls itself for the objects that a
container refers to. Its state is the cache of objects, if the caller gives
one, and the set of the offsets on the path, once there is one.

Memory for the objects is always there in this model.
-/

namespace Hexley.Cf.BinaryPlist

open Lib

/-! ### Pointers -/

/-- A block of bytes in the address space, of which the first page is never
used. -/
structure Buffer where
  base : ℕ
  bytes : List UInt8
  low : 2 ^ 12 ≤ base
  fits : base + bytes.length < 2 ^ 64

theorem low_page : 2 ^ 12 ≤ 4096 := by decide

namespace Buffer

variable (b : Buffer)

def ptr (off : ℕ) : ℕ := (b.base + off) % 2 ^ 64

def deref (p : ℕ) : Outcome UInt8 :=
  if b.base ≤ p then
    match b.bytes[p - b.base]? with
    | some x => .ok x
    | none => .fault
  else .fault

def derefs (p : ℕ) : ℕ → Outcome (List UInt8)
  | 0 => .ok []
  | n + 1 => do
      let x ← b.deref p
      let xs ← derefs (p + 1) n
      .ok (x :: xs)

end Buffer

/-- `check_ptr_add`, where nothing stands for an overflow. -/
def checkPtrAdd (p a : ℕ) : Option ℕ := if 2 ^ 64 - 1 < p + a then none else some (p + a)

def checkMul (x y : ℕ) : Option ℕ :=
  if x = 0 then some 0 else if (2 ^ 64 - 1) / x < y then none else some (x * y)

variable (xs : List UInt8)

/-- The loop `n = (n << 8) + *ptr++` on an `uint64_t`. -/
def bigEndian : ℕ := xs.foldl (fun n x => (n * 256 + x.toNat) % 2 ^ 64) 0

def longMax : ℕ := 2 ^ 63 - 1

/-- `UINT64_MAX`, the offset of a reference that is not valid. -/
def maxOffset : ℕ := 2 ^ 64 - 1

/-! ### The trailer -/

/-- `CFBinaryPlistTrailer`, in host order and without `_unused`. -/
structure Trailer where
  offsetIntSize : ℕ
  objectRefSize : ℕ
  numObjects : ℕ
  topObject : ℕ
  offsetTableOffset : ℕ
  deriving DecidableEq

def trailerSize : ℕ := 32

def readTrailer : Option Trailer :=
  if xs.take 6 = List.replicate 6 0 then
    some
      { offsetIntSize := bigEndian ((xs.drop 6).take 1)
        objectRefSize := bigEndian ((xs.drop 7).take 1)
        numObjects := bigEndian ((xs.drop 8).take 8)
        topObject := bigEndian ((xs.drop 16).take 8)
        offsetTableOffset := bigEndian ((xs.drop 24).take 8) }
  else none

def magic00 : List UInt8 := [0x62, 0x70, 0x6C, 0x69, 0x73, 0x74, 0x30, 0x30]

def magic01 : List UInt8 := [0x62, 0x70, 0x6C, 0x69, 0x73, 0x74, 0x30, 0x31]

def checkOffsets (b : Buffer) (t : Trailer) : ℕ → ℕ → Outcome Unit
  | 0, _ => .ok ()
  | n + 1, bytesptr => do
      let off ← b.derefs bytesptr t.offsetIntSize
      .require (¬t.offsetTableOffset - 1 < bigEndian off)
      checkOffsets b t n (bytesptr + t.offsetIntSize)

/-- The tests of `__CFBinaryPlistGetTopLevelInfo` on the numbers of the
trailer. The pointers that it computes with an overflow check are inside of
the block, so those checks do not fail. -/
def Trailer.Consistent (t : Trailer) (datalen : ℕ) : Prop :=
  ¬longMax < t.numObjects ∧ ¬longMax < t.offsetTableOffset ∧ ¬t.numObjects < 1 ∧
    ¬t.numObjects ≤ t.topObject ∧ ¬t.offsetTableOffset < 9 ∧
    ¬datalen - trailerSize ≤ t.offsetTableOffset ∧ ¬t.offsetIntSize < 1 ∧ ¬t.objectRefSize < 1 ∧
    t.numObjects * t.offsetIntSize < 2 ^ 64 ∧
    8 + (t.offsetTableOffset - 8) + t.numObjects * t.offsetIntSize + trailerSize < 2 ^ 64 ∧
    datalen = 8 + (t.offsetTableOffset - 8) + t.numObjects * t.offsetIntSize + trailerSize ∧
    ¬(t.objectRefSize < 8 ∧ 2 ^ (8 * t.objectRefSize) ≤ t.numObjects) ∧
    ¬(t.offsetIntSize < 8 ∧ 2 ^ (8 * t.offsetIntSize) ≤ t.offsetTableOffset)

instance (t : Trailer) (datalen : ℕ) : Decidable (t.Consistent datalen) :=
  inferInstanceAs (Decidable (_ ∧ _ ∧ _ ∧ _ ∧ _ ∧ _ ∧ _ ∧ _ ∧ _ ∧ _ ∧ _ ∧ _ ∧ _))

variable (b : Buffer)

/-- `__CFBinaryPlistGetTopLevelInfo`: the marker and the offset of the top
object, and the trailer. -/
def getTopLevelInfo : Outcome (UInt8 × ℕ × Trailer) := do
  let datalen := b.bytes.length
  .require (¬datalen < trailerSize + 8 + 1)
  let header ← b.derefs (b.ptr 0) 8
  .require (header = magic00 ∨ header = magic01)
  let trail ← b.derefs (b.ptr (datalen - trailerSize)) trailerSize
  let t ← .ofOption (readTrailer trail)
  .require (t.Consistent datalen)
  checkOffsets b t t.numObjects (b.ptr t.offsetTableOffset)
  let off ← b.derefs (b.ptr (t.offsetTableOffset + t.topObject * t.offsetIntSize)) t.offsetIntSize
  let off := bigEndian off
  .require (¬(off < 8 ∨ t.offsetTableOffset ≤ off))
  let marker ← b.deref (b.ptr off)
  .ok (marker, off, t)

/-! ### Integers and references -/

def readInt (ptr endBytePtr : ℕ) : Outcome (ℕ × ℕ) := do
  .require (¬endBytePtr < ptr)
  let marker ← b.deref ptr
  .require (marker.toNat / 16 = 1)
  let cnt := 2 ^ (marker.toNat % 16)
  let extent ← .ofOption (checkPtrAdd (ptr + 1) cnt)
  .require (¬endBytePtr < extent - 1)
  let xs ← b.derefs (ptr + 1) cnt
  .ok (bigEndian xs, ptr + 1 + cnt)

def getOffsetOfRefAt (t : Trailer) (bytesptr : ℕ) : Outcome ℕ :=
  if bytesptr < b.ptr 8 ∨ b.ptr t.offsetTableOffset - t.objectRefSize < bytesptr then
    .ok maxOffset
  else do
    let ref ← b.derefs bytesptr t.objectRefSize
    if t.numObjects ≤ bigEndian ref then .ok maxOffset
    else do
      let off ← b.derefs (b.ptr (t.offsetTableOffset + bigEndian ref * t.offsetIntSize))
        t.offsetIntSize
      .ok (bigEndian off)

/-! ### Objects -/

/-- A property list. The patterns of reals and dates are the bytes that
stand for them, and a string is the list of its UTF-16 units. -/
inductive Plist
  | null
  | bool (v : Bool)
  | int (v : ℤ)
  | real (bits : List UInt8)
  | date (bits : List UInt8)
  | data (xs : List UInt8)
  | string (units : List UInt16)
  | uid (v : ℕ)
  | array (items : List Plist)
  | set (items : List Plist)
  | dict (keys values : List Plist)

def Plist.isPrimitive : Plist → Bool
  | .array _ => false
  | .set _ => false
  | .dict _ _ => false
  | _ => true

inductive Kind
  | null
  | int
  | real
  | date
  | data
  | asciiString
  | unicode16String
  | uid
  | array
  | set
  | dict
  | unused
  deriving DecidableEq

/-- `switch (marker & 0xf0)`. -/
def Kind.of (marker : UInt8) : Kind :=
  match marker.toNat / 16 with
  | 0 => .null
  | 1 => .int
  | 2 => .real
  | 3 => .date
  | 4 => .data
  | 5 => .asciiString
  | 6 => .unicode16String
  | 8 => .uid
  | 10 => .array
  | 12 => .set
  | 13 => .dict
  | _ => .unused

def Kind.isContainer : Kind → Bool
  | .array => true
  | .set => true
  | .dict => true
  | _ => false

def lastPtr (t : Trailer) : ℕ := b.ptr (t.offsetTableOffset - 1)

/-- `size` bytes behind the marker at `ptr`, if they are objects. -/
def readFixed (t : Trailer) (ptr size : ℕ) : Outcome (List UInt8) := do
  let ptr ← .ofOption (checkPtrAdd ptr 1)
  let extent ← .ofOption (checkPtrAdd ptr size)
  .require (¬lastPtr b t < extent - 1)
  b.derefs ptr size

/-- The count in the low half of the marker at `ptr`, or in the integer that
follows it, and the pointer behind it. -/
def readCount (t : Trailer) (marker : UInt8) (ptr : ℕ) : Outcome (ℕ × ℕ) := do
  let ptr ← .ofOption (checkPtrAdd ptr 1)
  if marker.toNat % 16 = 0xF then do
    let (bigint, ptr) ← readInt b ptr (lastPtr b t)
    .require (¬longMax < bigint)
    .ok (bigint, ptr)
  else .ok (marker.toNat % 16, ptr)

def readCounted (t : Trailer) (marker : UInt8) (ptr : ℕ) :
    Outcome (List UInt8) := do
  let (cnt, ptr) ← readCount b t marker ptr
  let extent ← .ofOption (checkPtrAdd ptr cnt)
  .require (¬lastPtr b t < extent - 1)
  b.derefs ptr cnt

/-- The bytes of the UTF-16 units that are counted at `ptr`, for which the
count is added twice. -/
def readCountedUnits (t : Trailer) (marker : UInt8) (ptr : ℕ) :
    Outcome (List UInt8) := do
  let (cnt, ptr) ← readCount b t marker ptr
  let extent ← .ofOption (checkPtrAdd ptr cnt)
  let extent ← .ofOption (checkPtrAdd (extent - 1) cnt)
  .require (¬lastPtr b t < extent)
  let byteCnt ← .ofOption (checkMul cnt 2)
  b.derefs ptr byteCnt

/-- The value of the integer with these bytes. Up to four bytes are without
a sign, eight bytes have one, and of sixteen bytes the last eight count,
without a sign. -/
def intValue : ℤ :=
  if 8 < xs.length then bigEndian xs
  else if bigEndian xs < 2 ^ 63 then bigEndian xs else bigEndian xs - 2 ^ 64

def bigEndianUnits : List UInt8 → List UInt16
  | hi :: lo :: xs => UInt16.ofNat (hi.toNat * 256 + lo.toNat) :: bigEndianUnits xs
  | _ => []

/-- The cases of `__CFBinaryPlistCreateObject2` that are no containers. -/
def readLeaf (t : Trailer) (marker : UInt8) (ptr : ℕ) : Outcome Plist :=
  match Kind.of marker with
  | .null =>
    if marker = 0x00 then .ok .null
    else if marker = 0x08 then .ok (.bool false)
    else if marker = 0x09 then .ok (.bool true)
    else .failed
  | .int => do
      let ptr ← .ofOption (checkPtrAdd ptr 1)
      let cnt := 2 ^ (marker.toNat % 16)
      let extent ← .ofOption (checkPtrAdd ptr cnt)
      .require (¬lastPtr b t < extent - 1)
      .require (¬16 < cnt)
      let xs ← b.derefs ptr cnt
      .ok (.int (intValue xs))
  | .real =>
    if marker.toNat % 16 = 2 then do
      let xs ← readFixed b t ptr 4
      .ok (.real xs)
    else if marker.toNat % 16 = 3 then do
      let xs ← readFixed b t ptr 8
      .ok (.real xs)
    else .failed
  | .date =>
    if marker = 0x33 then do
      let xs ← readFixed b t ptr 8
      .ok (.date xs)
    else .failed
  | .data => do
      let xs ← readCounted b t marker ptr
      .ok (.data xs)
  | .asciiString => do
      let xs ← readCounted b t marker ptr
      .ok (.string (xs.map fun x => UInt16.ofNat x.toNat))
  | .unicode16String => do
      let xs ← readCountedUnits b t marker ptr
      .ok (.string (bigEndianUnits xs))
  | .uid => do
      let xs ← readFixed b t ptr (marker.toNat % 16 + 1)
      .require (¬2 ^ 32 - 1 < bigEndian xs)
      .ok (.uid (bigEndian xs))
  | _ => .failed

/-- The head of a container: the pointer to its references and how many
there are, which for a dictionary are the keys and then the values. -/
def readContainer (t : Trailer) (marker : UInt8) (ptr : ℕ) : Outcome (ℕ × ℕ) := do
  let (cnt, ptr) ← readCount b t marker ptr
  let cnt ← .ofOption (if Kind.of marker = .dict then checkMul cnt 2 else some cnt)
  let byteCnt ← .ofOption (checkMul cnt t.objectRefSize)
  let extent ← .ofOption (checkPtrAdd ptr byteCnt)
  .require (¬lastPtr b t < extent - 1)
  let _ ← .ofOption (checkMul cnt 8)
  .ok (ptr, cnt)

def makeContainer (marker : UInt8) (list : List Plist) : Plist :=
  match Kind.of marker with
  | .array => .array list
  | .set => .set list
  | _ => .dict (list.take (list.length / 2)) (list.drop (list.length / 2))

inductive Mutability
  | immutable
  | mutableContainers
  | mutableContainersAndLeaves
  deriving DecidableEq

def Kind.cacheable (option : Mutability) : Kind → Bool
  | .null => false
  | .int => true
  | .real => true
  | .date => true
  | .uid => true
  | .data => option ≠ .mutableContainersAndLeaves
  | .asciiString => option ≠ .mutableContainersAndLeaves
  | .unicode16String => option ≠ .mutableContainersAndLeaves
  | .array => option = .immutable
  | .set => option = .immutable
  | .dict => option = .immutable
  | .unused => false

/-- What the calls share: the cache `objects`, if there is one, and the
offsets in `set`, if it is not `NULL`. -/
structure ReadState where
  objects : Option (List (ℕ × Plist))
  set : Option (List ℕ)

namespace ReadState

variable (s : ReadState)

variable (off : ℕ)

/-- `CFDictionaryGetValue(objects, startOffset)`. -/
def cached : Option Plist := s.objects.bind (List.lookup off)

/-- `CFDictionarySetValue(objects, startOffset, *plist)`, if there is a
cache and the object is one that is kept. -/
def keep (keeps : Bool) (off : ℕ) (plist : Plist) : ReadState :=
  if keeps then { s with objects := s.objects.map ((off, plist) :: ·) } else s

/-- `set && CFSetContainsValue(set, startOffset)`. -/
def onPath : Bool :=
  match s.set with
  | none => false
  | some path => off ∈ path

/-- Before the loop over the references: `set` is made if the path has
become long, and the offset is added to it. -/
def enter (off curDepth : ℕ) : ReadState :=
  match s.set with
  | none => if 15 < curDepth then { s with set := some [off] } else s
  | some path => { s with set := some (if off ∈ path then path else off :: path) }

/-- After the loop: the offset is removed, and `set` is released by the call
that has made it. -/
def leave (madeSet : Bool) : ReadState :=
  if madeSet then { s with set := none }
  else { s with set := s.set.map fun path => path.filter (· ≠ off) }

@[simp] theorem set_keep (keeps : Bool) (off : ℕ) (plist : Plist) :
    (s.keep keeps off plist).set = s.set := by
  unfold keep
  split_ifs <;> rfl

@[simp] theorem objects_enter (off curDepth : ℕ) :
    (s.enter off curDepth).objects = s.objects := by
  unfold enter
  split
  · split_ifs <;> rfl
  · rfl

@[simp] theorem objects_leave (madeSet : Bool) :
    (s.leave off madeSet).objects = s.objects := by
  unfold leave
  split_ifs <;> rfl

theorem set_leave {s s' : ReadState} {off curDepth : ℕ} (hpath : s.onPath off = false)
    (h : s'.set = (s.enter off curDepth).set) :
    (s'.leave off (s.set.isNone && decide (15 < curDepth))).set = s.set := by
  unfold leave
  cases hset : s.set with
  | none =>
    by_cases hdeep : 15 < curDepth
    · simp [hdeep]
    · simp only [enter, hset, if_neg hdeep] at h
      simp [hdeep, h]
  | some path =>
    have hnot : off ∉ path := by simpa [onPath, hset] using hpath
    simp only [enter, hset, if_neg hnot] at h
    simp only [Option.isNone_some, Bool.false_and, Bool.false_eq_true, if_false, h,
      Option.map_some, Option.some.injEq]
    rw [List.filter_cons_of_neg (by simp), List.filter_eq_self]
    intro x hx
    simpa using fun heq : x = off => hnot (heq ▸ hx)

end ReadState

/-- The loop over `cnt` references from `ptr` on. Of a dictionary the first
`keys` have to be primitive. The objects that were read are in `list`. -/
def readRefs (b : Buffer) (t : Trailer) (create : ℕ → ReadState → Outcome Plist × ReadState) :
    ℕ → ℕ → ℕ → List Plist → ReadState → Outcome (List Plist) × ReadState
  | 0, _, _, list, s => (.ok list, s)
  | cnt + 1, keys, ptr, list, s =>
    match getOffsetOfRefAt b t ptr with
    | .ok off =>
      match create off s with
      | (.ok pl, s) =>
        if 0 < keys ∧ ¬pl.isPrimitive then (.failed, s)
        else readRefs b t create cnt (keys - 1) (ptr + t.objectRefSize) (list ++ [pl]) s
      | (.failed, s) => (.failed, s)
      | (.fault, s) => (.fault, s)
      | (.exhausted, s) => (.exhausted, s)
    | .failed => (.failed, s)
    | .fault => (.fault, s)
    | .exhausted => (.exhausted, s)

/-- `__CFBinaryPlistCreateObject2`, with the number of frames that it may
use. -/
def createObject2 (b : Buffer) (t : Trailer) (option : Mutability) :
    ℕ → ℕ → ℕ → ReadState → Outcome Plist × ReadState
  | 0, _, _, s => (.exhausted, s)
  | frames + 1, curDepth, startOffset, s =>
    match s.cached startOffset with
    | some plist => (.ok plist, s)
    | none =>
      if s.onPath startOffset then (.failed, s)
      else if startOffset < 8 ∨ t.offsetTableOffset - 1 < startOffset then (.failed, s)
      else
        match b.deref (b.ptr startOffset) with
        | .ok marker =>
          if (Kind.of marker).isContainer then
            match readContainer b t marker (b.ptr startOffset) with
            | .ok (ptr, cnt) =>
              let madeSet := s.set.isNone && 15 < curDepth
              let keys := if Kind.of marker = .dict then cnt / 2 else 0
              match readRefs b t (createObject2 b t option frames (curDepth + 1)) cnt keys
                  ptr [] (s.enter startOffset curDepth) with
              | (.ok list, s) =>
                let plist := makeContainer marker list
                (.ok plist, (s.leave startOffset madeSet).keep
                  ((Kind.of marker).cacheable option) startOffset plist)
              | (.failed, s) => (.failed, s)
              | (.fault, s) => (.fault, s)
              | (.exhausted, s) => (.exhausted, s)
            | .failed => (.failed, s)
            | .fault => (.fault, s)
            | .exhausted => (.exhausted, s)
          else
            match readLeaf b t marker (b.ptr startOffset) with
            | .ok plist =>
              (.ok plist, s.keep ((Kind.of marker).cacheable option) startOffset plist)
            | .failed => (.failed, s)
            | .fault => (.fault, s)
            | .exhausted => (.exhausted, s)
        | .failed => (.failed, s)
        | .fault => (.fault, s)
        | .exhausted => (.exhausted, s)

/-! ### Values of containers -/

/-- `__CFBinaryPlistGetOffsetForValueFromArray2`. The index is signed, and
the comparison with the count is not. -/
def getOffsetForValueFromArray2 (b : Buffer) (t : Trailer) (startOffset : ℕ) (idx : ℤ) :
    Outcome ℕ := do
  .require (¬(startOffset < 8 ∨ t.offsetTableOffset - 1 < startOffset))
  let marker ← b.deref (b.ptr startOffset)
  .require (Kind.of marker = .array)
  let (cnt, ptr) ← readCount b t marker (b.ptr startOffset)
  let idx := (idx % 2 ^ 64).toNat
  .require (¬cnt ≤ idx)
  let byteCnt ← .ofOption (checkMul cnt t.objectRefSize)
  let extent ← .ofOption (checkPtrAdd ptr byteCnt)
  .require (¬lastPtr b t < extent - 1)
  getOffsetOfRefAt b t (ptr + idx * t.objectRefSize)

inductive KeyTest
  | hit
  | miss
  | bad
  deriving DecidableEq

/-- The comparison of the key with the object at `off`. A short ASCII string
is compared in place. `equal` is `CFEqual`. -/
def testKey (b : Buffer) (t : Trailer) (equal : Plist → Plist → Bool) (frames : ℕ) (key : Plist)
    (off : ℕ) (s : ReadState) : Outcome KeyTest × ReadState :=
  match b.deref (b.ptr off) with
  | .ok marker =>
    let len := marker.toNat % 16
    match Kind.of marker, decide (len < 0xF), key with
    | .asciiString, true, .string units =>
      if len ≠ units.length then (.ok .miss, s)
      else
        match checkPtrAdd (b.ptr off) len with
        | none => (.ok .bad, s)
        | some extent =>
          if b.ptr t.offsetTableOffset ≤ extent then (.ok .bad, s)
          else
            match b.derefs (b.ptr off + 1) len with
            | .ok xs =>
              (.ok (if xs.map (fun x => UInt16.ofNat x.toNat) = units then .hit
                else .miss), s)
            | .failed => (.failed, s)
            | .fault => (.fault, s)
            | .exhausted => (.exhausted, s)
    | _, _, _ =>
      match createObject2 b t .immutable frames 0 off s with
      | (.ok pl, s) =>
        if ¬pl.isPrimitive then (.ok .bad, s)
        else (.ok (if equal key pl then .hit else .miss), s)
      | (.failed, s) => (.ok .bad, s)
      | (.fault, s) => (.fault, s)
      | (.exhausted, s) => (.exhausted, s)
  | .failed => (.failed, s)
  | .fault => (.fault, s)
  | .exhausted => (.exhausted, s)

/-- The loop over `n` keys from `ptr` on, the values of which are `skip`
bytes further: the offsets of the key and of the value, or nothing if the
key is not among them. -/
def searchKeys (b : Buffer) (t : Trailer) (equal : Plist → Plist → Bool) (frames : ℕ)
    (key : Plist) (skip : ℕ) : ℕ → ℕ → ReadState → Outcome (Option (ℕ × ℕ)) × ReadState
  | 0, _, s => (.ok none, s)
  | n + 1, ptr, s =>
    match getOffsetOfRefAt b t ptr with
    | .ok off =>
      match testKey b t equal frames key off { s with set := none } with
      | (.ok .hit, s) =>
        match getOffsetOfRefAt b t (ptr + skip) with
        | .ok voffset => (.ok (some (off, voffset)), s)
        | .failed => (.failed, s)
        | .fault => (.fault, s)
        | .exhausted => (.exhausted, s)
      | (.ok .miss, s) =>
        searchKeys b t equal frames key skip n (ptr + t.objectRefSize) s
      | (.ok .bad, s) => (.failed, s)
      | (.failed, s) => (.failed, s)
      | (.fault, s) => (.fault, s)
      | (.exhausted, s) => (.exhausted, s)
    | .failed => (.failed, s)
    | .fault => (.fault, s)
    | .exhausted => (.exhausted, s)

/-- The head of the dictionary at `startOffset`: the pointer to its
references and the number of its keys. -/
def readDictionary (b : Buffer) (t : Trailer) (startOffset : ℕ) : Outcome (ℕ × ℕ) := do
  .require (¬(startOffset < 8 ∨ t.offsetTableOffset - 1 < startOffset))
  let marker ← b.deref (b.ptr startOffset)
  .require (Kind.of marker = .dict)
  let (cnt, ptr) ← readCount b t marker (b.ptr startOffset)
  let cnt ← .ofOption (checkMul cnt 2)
  let byteCnt ← .ofOption (checkMul cnt t.objectRefSize)
  let extent ← .ofOption (checkPtrAdd ptr byteCnt)
  .require (¬lastPtr b t < extent - 1)
  .ok (ptr, cnt / 2)

def getOffsetForValueFromDictionary2 (b : Buffer) (t : Trailer) (equal : Plist → Plist → Bool)
    (frames startOffset : ℕ) (key : Plist) (objects : Option (List (ℕ × Plist))) :
    Outcome (ℕ × ℕ) := do
  .require (key.isPrimitive = true)
  let (ptr, cnt) ← readDictionary b t startOffset
  let found ← (searchKeys b t equal frames key (cnt * t.objectRefSize) cnt ptr ⟨objects, none⟩).1
  .ofOption found

end Hexley.Cf.BinaryPlist
