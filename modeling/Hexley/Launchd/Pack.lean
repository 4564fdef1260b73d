import Hexley.Lib.Bytes

/-!
`launch_data` objects and `launch_data_pack`.

A packed object is a 24-byte `struct _launch_data` in network byte order
followed by its payload: the bytes of a string or of opaque data padded to
a multiple of eight, or, for a dictionary or an array, eight bytes of room
for each child pointer and then the packed children one after the other.
The packer fills in only the fields that the type of the object uses. The
pointer field, the pad bytes and the room for the child pointers keep
whatever the buffer held before.

Sizes are computed as the machine computes them, modulo the size of its
word; `Host` carries that size, the byte order and the address of the
buffer.
-/

namespace Hexley.Launchd

open Lib Endian

/-- `ROUND_TO_64BIT_WORD_SIZE` on a number that is not near the limit of its
type. -/
def roundTo64BitWordSize (x : ℕ) : ℕ := (x + 7) / 8 * 8

structure Host where
  /-- Bytes in a `size_t` and in a pointer. -/
  word : ℕ
  /-- The code is built for 32-bit and for 64-bit machines. -/
  word_eq : word = 4 ∨ word = 8
  order : Endian
  base : ℕ
  /-- No buffer lies at the null address, which is a multiple of a word. -/
  base_ge : 8 ≤ base
  /-- `big2host` on the bit pattern of a `double`, a floating-point
  conversion there and back. `host2big` is the same function. -/
  big2hostDouble : ℕ → ℕ

namespace Host

variable (h : Host)

def modulus : ℕ := 256 ^ h.word

def wrap (x : ℕ) : ℕ := x % h.modulus

def sub (a b : ℕ) : ℕ := h.wrap (a + h.modulus - b)

/-- `ROUND_TO_64BIT_WORD_SIZE` on a `size_t`. -/
def round (x : ℕ) : ℕ := h.wrap (x + 7) / 8 * 8

def pointer : Option ℕ → List UInt8
  | none => h.order.bytes h.word 0
  | some p => h.order.bytes h.word (h.base + p)

end Host

inductive DataType
  | dictionary
  | array
  | fd
  | integer
  | real
  | bool
  | string
  | opaqueData
  | errno
  | machport
  deriving DecidableEq, Repr

def DataType.code : DataType → ℕ
  | dictionary => 1
  | array => 2
  | fd => 3
  | integer => 4
  | real => 5
  | bool => 6
  | string => 7
  | opaqueData => 8
  | errno => 9
  | machport => 10

def DataType.ofCode : ℕ → Option DataType
  | 1 => some dictionary
  | 2 => some array
  | 3 => some fd
  | 4 => some integer
  | 5 => some real
  | 6 => some bool
  | 7 => some string
  | 8 => some opaqueData
  | 9 => some errno
  | 10 => some machport
  | _ => none

@[simp] theorem DataType.ofCode_code (t : DataType) : ofCode t.code = some t := by
  cases t <;> rfl

theorem DataType.code_lt (t : DataType) : t.code < 256 ^ 8 := by
  cases t <;> decide

def DataType.isContainer : DataType → Bool
  | dictionary | array => true
  | _ => false

/-- The contents of a C string: no byte of it is the terminator. -/
structure CString where
  bytes : List UInt8
  noNul : 0 ∉ bytes
  deriving DecidableEq

/-- A `launch_data_t` tree. A dictionary is stored as the array of its keys
and values in turn, so the two container types have the same contents. The
`int` fields, the `mach_port_t` and the `double` are kept as their bit
patterns. -/
inductive LaunchData
  | dictionary (elems : List LaunchData)
  | array (elems : List LaunchData)
  | fd (fd : UInt32)
  | integer (number : UInt64)
  | real (floatNum : UInt64)
  | bool (boolean : UInt32)
  | string (s : CString)
  | opaqueData (bytes : List UInt8)
  | errno (err : UInt32)
  | machport (mp : UInt32)

def LaunchData.type : LaunchData → DataType
  | dictionary _ => .dictionary
  | array _ => .array
  | fd _ => .fd
  | integer _ => .integer
  | real _ => .real
  | bool _ => .bool
  | string _ => .string
  | opaqueData _ => .opaqueData
  | errno _ => .errno
  | machport _ => .machport

/-- `sizeof(struct _launch_data)`: the type, and a union of two words. -/
def sizeofData : ℕ := 24

def valueField : ℕ := 8

/-- The union's second word: `_array_cnt`, `string_len`, `opaque_size`. -/
def countField : ℕ := 16

def noFd : UInt32 := 0xFFFFFFFF

/-- What `launch_data_pack` writes to: the buffer, and the descriptors
collected so far (`none` for a null `fd_where`). -/
structure PackState where
  /-- The buffer `where` points into. -/
  buf : Mem
  /-- `fd_where[0]` up to `fd_where[*fd_cnt - 1]`. -/
  fds : Option (List UInt32)

def PackState.put (s : PackState) (p : ℕ) (bs : List UInt8) : PackState :=
  { s with buf := s.buf.write p bs }

def PackState.pushFd (s : PackState) (fd : UInt32) : PackState :=
  if fd = noFd then s else { s with fds := s.fds.map (· ++ [fd]) }

mutual
/-- `launch_data_pack`: the size of the packed object, or `0` when it does
not fit, together with what has been written by then. `dst` is the
source's `where`. -/
def launchDataPack (h : Host) (d : LaunchData) (dst len : ℕ) (s : PackState) : ℕ × PackState :=
  if sizeofData > len then (0, s)
  else
    let s := s.put dst (big.bytes 8 d.type.code)
    match d with
    | .integer n => (sizeofData, s.put (dst + valueField) (big.bytes 8 n.toNat))
    -- The swapped number is converted back to a `double`, which is stored as it is.
    | .real x =>
      (sizeofData, s.put (dst + valueField) (h.order.bytes 8 (h.big2hostDouble x.toNat)))
    | .bool b => (sizeofData, s.put (dst + valueField) (big.bytes 4 b.toNat))
    | .errno e => (sizeofData, s.put (dst + valueField) (big.bytes 4 e.toNat))
    -- The `default` of the switch: the port itself is not packed.
    | .machport _ => (sizeofData, s)
    | .fd n =>
      (sizeofData, (s.put (dst + valueField) (big.bytes 4 n.toNat)).pushFd n)
    | .string c =>
      let s := s.put (dst + countField) (big.bytes 8 c.bytes.length)
      let total := h.wrap (sizeofData + h.round (c.bytes.length + 1))
      if total > len then (0, s)
      else (total, s.put (dst + sizeofData) (c.bytes ++ [0]))
    | .opaqueData bs =>
      let s := s.put (dst + countField) (big.bytes 8 bs.length)
      let total := h.wrap (sizeofData + h.round bs.length)
      if total > len then (0, s)
      else (total, s.put (dst + sizeofData) bs)
    | .dictionary ds | .array ds =>
      let s := s.put (dst + countField) (big.bytes 8 ds.length)
      let total := h.wrap (sizeofData + ds.length * 8)
      if total > len then (0, s)
      else packElems h ds (dst + sizeofData + h.wrap (ds.length * 8)) len total s

/-- The loop over the children: `dst` is where the next child goes and
`total` is `total_data_len` so far. -/
def packElems (h : Host) (ds : List LaunchData) (dst len total : ℕ) (s : PackState) :
    ℕ × PackState :=
  match ds with
  | [] => (total, s)
  | d :: ds =>
    let r := launchDataPack h d dst (len - total) s
    if r.1 = 0 then (0, r.2)
    else packElems h ds (dst + r.1) len (h.wrap (total + r.1)) r.2
end

end Hexley.Launchd
