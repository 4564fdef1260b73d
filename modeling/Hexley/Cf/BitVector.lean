import Mathlib.Data.Nat.Bitwise

/-!
`CFBitVector`: equality and copies.

The byte behind the last full one is counted in three ways: a vector of a given
capacity has the bytes that its bits need, up to the end of its block, a mutable
one without has one more than a capacity of 64 needs, and the comparison looks
at one more than the full ones. Bits above the count are never cleared. What a
block of `malloc` holds, and what the operations that set and flip bits leave,
is open: it is an argument.
-/

namespace Hexley.Cf

inductive Variety
  | immutable
  | mutable
  | fixedMutable
  deriving DecidableEq

structure BitVector where
  variety : Variety
  count : ℕ
  capacity : ℕ
  size : ℕ
  buckets : ℕ → UInt8
  fits : (count + 7) / 8 ≤ size

namespace BitVector

def roundUpCapacity (capacity : ℕ) : ℕ := (capacity + 63) / 64 * 64

/-- The bytes behind the first `header` of a block of `_CFRuntimeCreateInstance`
that has to hold `n`: blocks are multiples of 16 bytes. -/
def instanceBytes (header n : ℕ) : ℕ := (header + n + 15) / 16 * 16 - header

variable (bv : BitVector) (header : ℕ)

def bit (idx : ℕ) : Bool :=
  (bv.buckets (idx / 8)).toNat.testBit (7 - idx % 8)

/-- `__CFBitVectorInit`. The header is the structure, behind a word for the
allocator if that is not the default one. The buckets behind it are zeros, those
of a mutable vector are a block of their own. There is no vector if the bytes do
not fit into it. -/
def init (variety : Variety) (capacity : ℕ) (bytes : ℕ → UInt8) (numBits : ℕ) (fresh : ℕ → UInt8) :
    Option BitVector :=
  let newCapacity := if variety = .mutable then roundUpCapacity 1 else capacity
  let size :=
    if variety = .mutable then newCapacity / 8 + 1 else instanceBytes header ((capacity + 7) / 8)
  if fits : (numBits + 7) / 8 ≤ size then
    some ⟨variety, numBits, newCapacity, size,
      fun i => if i < (numBits + 7) / 8 then bytes i else if variety = .mutable then fresh i else 0,
      fits⟩
  else none

def create (bytes : ℕ → UInt8) (numBits : ℕ) : Option BitVector :=
  init header .immutable numBits bytes numBits fun _ => 0

def write (contents : ℕ → UInt8) : BitVector := { bv with buckets := contents }

def read (idx : ℕ) : Option UInt8 :=
  if idx < bv.size then some (bv.buckets idx) else none

/-- The loop of `__CFBitVectorEqual`, for the next `n` bytes. -/
def equalFrom (bv1 bv2 : BitVector) (idx : ℕ) : ℕ → Option Bool
  | 0 => some true
  | n + 1 => do
      let val1 ← bv1.read idx
      let val2 ← bv2.read idx
      if val1 ≠ val2 then some false else equalFrom bv1 bv2 (idx + 1) n

def equal (bv1 bv2 : BitVector) : Option Bool :=
  if bv1.count ≠ bv2.count then some false
  else if bv1.count = 0 then some true
  else equalFrom bv1 bv2 0 (bv1.count / 8 + 1)

def SameBits (bv1 bv2 : BitVector) : Prop :=
  bv1.count = bv2.count ∧ ∀ i < bv1.count, bv1.bit i = bv2.bit i

/-- The comparison reads allocated bytes only and says if the bits are the same. -/
def Compares (bv1 bv2 : BitVector) : Prop :=
  ∃ b, equal bv1 bv2 = some b ∧ (b = true ↔ bv1.SameBits bv2)

variable {bv1 bv2 : BitVector}

end BitVector

end Hexley.Cf
