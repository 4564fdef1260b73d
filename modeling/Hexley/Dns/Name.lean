import Hexley.Lib.Reader

/-!
Domain names in memory.

A `domainname` is an array of 256 bytes that holds a sequence of labels,
each a length byte followed by that many bytes, and then a zero byte for
the root. What lies after the root label is undefined. The functions here
are given a memory and the offset of a name in it, since most names are
fields of a larger structure.

`DomainName` is the abstract notion, the list of the labels, and `NameAt`
says that a memory holds such a name at an offset.
-/

namespace Hexley.Dns

open Lib List UInt8

def maxDomainLabel : ℕ := 63

def maxDomainName : ℕ := 255

def lower (b : UInt8) : UInt8 := if 0x41 ≤ b ∧ b ≤ 0x5A then b + 0x20 else b

variable (d : DomainName) (a : Mem) (c : UInt8) (ls : List (List UInt8))

def mdnsIsDigit : Bool := 0x30 ≤ c && c ≤ 0x39

def mdnsIsLetter : Bool := (0x41 ≤ c && c ≤ 0x5A) || (0x61 ≤ c && c ≤ 0x7A)

/-- `SameDomainLabel`, on the labels at `p` of `a` and at `q` of `b`. -/
def sameDomainLabel (p : ℕ) (b : Mem) (q : ℕ) : Bool :=
  (a p).toNat ≤ maxDomainLabel ∧ a p = b q ∧
    (a.read (p + 1) (a p).toNat).map lower = (b.read (q + 1) (a p).toNat).map lower

/-- The loop of `SameDomainName`; `max` is one past the last byte that a
valid first name can have. -/
def sameDomainNameFrom (a b : Mem) (max : ℕ) : ℕ → ℕ → ℕ → Bool
  | 0, _, _ => false
  | fuel + 1, p, q =>
    if a p = 0 ∧ b q = 0 then true
    else if p + 1 + (a p).toNat ≥ max then false
    else if sameDomainLabel a p b q then
      sameDomainNameFrom a b max fuel (p + 1 + (a p).toNat) (q + 1 + (b q).toNat)
    else false

/-- `SameDomainName`. Every turn of the loop moves on by at least two bytes. -/
def sameDomainName (p : ℕ) (b : Mem) (q : ℕ) : Bool :=
  sameDomainNameFrom a b (p + maxDomainName) maxDomainName p q

/-- The loop of `CompressedDomainNameLength` on the name at `p`, with `src`
bytes of it behind. -/
def compressedDomainNameLengthFrom (m : Mem) (p : ℕ) (parent : Option Mem) : ℕ → ℕ → ℕ
  | 0, _ => maxDomainName + 1
  | fuel + 1, src =>
    if m (p + src) = 0 then src + 1
    else if (m (p + src)).toNat > maxDomainLabel then maxDomainName + 1
    else if parent.any fun d => sameDomainName m (p + src) d 0 then src + 2
    else if src + 1 + (m (p + src)).toNat ≥ maxDomainName then maxDomainName + 1
    else compressedDomainNameLengthFrom m p parent fuel (src + 1 + (m (p + src)).toNat)

/-- `CompressedDomainNameLength`. A parent that is the root does not count. -/
def compressedDomainNameLength (m : Mem) (p : ℕ) (parent : Option Mem) : ℕ :=
  compressedDomainNameLengthFrom m p (parent.filter fun d => d 0 ≠ 0) maxDomainName 0

def hashStep (sum : UInt32) (hi lo : UInt8) : UInt32 :=
  let sum := sum + ((hi.toUInt32 <<< 8) ||| lo.toUInt32)
  (sum <<< 3) ||| (sum >>> 29)

def domainNameHashFrom (m : Mem) : ℕ → ℕ → UInt32 → UInt32
  | 0, _, sum => sum
  | fuel + 1, c, sum =>
    if m c ≠ 0 ∧ m (c + 1) ≠ 0 then
      domainNameHashFrom m fuel (c + 2) (hashStep sum (lower (m c)) (lower (m (c + 1))))
    else if m c ≠ 0 then sum + ((lower (m c)).toUInt32 <<< 8)
    else sum

/-- `DomainNameHashValue`. A name has a zero byte among its first 255. The
code also hashes storage that holds no name; the largest such storage has
8192 bytes. -/
def domainNameHashValue (m : Mem) (p : ℕ) : UInt32 := domainNameHashFrom m 4096 p 0

/-! ### The names that the memory stands for -/

/-- A valid domain name: labels of 1 to 63 bytes, at most 255 bytes in all. -/
structure DomainName where
  labels : List (List UInt8)
  label_pos : ∀ l ∈ labels, 0 < l.length
  label_le : ∀ l ∈ labels, l.length ≤ maxDomainLabel
  length_le : (labels.map fun l => l.length + 1).sum + 1 ≤ maxDomainName

/-- Labels on the wire, without the root behind them. -/
def wire : List UInt8 :=
  ls.flatMap fun l => ofNat l.length :: l

def DomainName.bytes : List UInt8 := wire d.labels ++ [0]

def NameAt (m : Mem) (p : ℕ) (d : DomainName) : Prop := m.Holds p d.bytes

instance (m : Mem) (p : ℕ) (d : DomainName) : Decidable (NameAt m p d) :=
  inferInstanceAs (Decidable (m.Holds p d.bytes))

def nameBytes (m : Mem) (p : ℕ) : List UInt8 := m.read p (compressedDomainNameLength m p none)

theorem label_cons (l : List UInt8) (ls : List (List UInt8)) :
    wire (l :: ls) = ofNat l.length :: l ++ wire ls := by
  simp [wire]

theorem length_label : (wire ls).length = (ls.map fun l => l.length + 1).sum := by
  induction ls with
  | nil => rfl
  | cons l ls ih => simp [label_cons, ih]; omega

theorem length_label_cons (l : List UInt8) (ls : List (List UInt8)) :
    (wire (l :: ls)).length = l.length + 1 + (wire ls).length := by
  rw [label_cons, length_append, length_cons]

theorem label_append (ls₁ ls₂ : List (List UInt8)) : wire (ls₁ ++ ls₂) = wire ls₁ ++ wire ls₂ := by
  simp [wire]

namespace DomainName

variable (d : DomainName)

theorem length_bytes : d.bytes.length = (wire d.labels).length + 1 := length_append

theorem length_lt : (wire d.labels).length < maxDomainName := by
  rw [length_label]
  exact d.length_le

theorem length_bytes_le : d.bytes.length ≤ maxDomainName := by
  rw [length_bytes]
  exact d.length_lt

theorem length_bytes_pos : 0 < d.bytes.length := by simp [bytes]

end DomainName

def LabelsFit : Prop := ∀ l ∈ ls, 0 < l.length ∧ l.length ≤ maxDomainLabel

theorem DomainName.labelsFit : LabelsFit d.labels :=
  fun l hl => ⟨d.label_pos l hl, d.label_le l hl⟩

variable {l : List UInt8} {m : Mem} {p : ℕ}

theorem LabelsFit.tail {ls : List (List UInt8)} (h : LabelsFit (l :: ls)) :
    LabelsFit ls := (forall_mem_cons.mp h).2

theorem toNat_label (h : l.length ≤ maxDomainLabel) : (ofNat l.length).toNat = l.length :=
  toNat_ofNat_of_lt' (h.trans_lt (by decide))

theorem label_ne_zero (h : 0 < l.length) (h' : l.length ≤ maxDomainLabel) : ofNat l.length ≠ 0 := by
  intro hz
  have := toNat_label h'
  rw [hz] at this
  exact h.ne this

/-! ### Labels in memory -/

section

variable {ls : List (List UInt8)}

theorem holds_label_cons {tail : List UInt8} : m.Holds p (wire (l :: ls) ++ tail) ↔
      m.Holds p (ofNat l.length :: l) ∧ m.Holds (p + 1 + l.length) (wire ls ++ tail) := by
  rw [label_cons, append_assoc, Mem.holds_append, length_cons, add_comm l.length 1, add_assoc p]

theorem toNat_of_label (hle : l.length ≤ maxDomainLabel)
    (h : m.Holds p (ofNat l.length :: l)) : (m p).toNat = l.length := by
  rw [(Mem.holds_cons.mp h).1, toNat_label hle]

theorem ne_zero_of_label (hpos : 0 < l.length) (hle : l.length ≤ maxDomainLabel)
    (h : m.Holds p (ofNat l.length :: l)) : m p ≠ 0 := by
  rw [(Mem.holds_cons.mp h).1]
  exact label_ne_zero hpos hle

theorem read_label (h : m.Holds p (ofNat l.length :: l)) :
    m.read p (1 + l.length) = ofNat l.length :: l :=
  h.read_eq (by rw [length_cons, add_comm])

end

/-! ### What the functions make of a name in memory -/

section

variable {m' : Mem} {q : ℕ} {d : DomainName} {parent : Option Mem}

theorem compressed_of_holds {ls : List (List UInt8)} {src fuel : ℕ}
    (hls : LabelsFit ls) (hm : m.Holds (p + src) (wire ls ++ [0]))
    (hsrc : src + (wire ls).length < maxDomainName) (hfuel : (wire ls).length < fuel) :
    compressedDomainNameLengthFrom m p none fuel src = src + (wire ls).length + 1 := by
  induction ls generalizing src fuel with
  | nil =>
    rcases fuel with _ | fuel
    · omega
    have hz : m (p + src) = 0 := (Mem.holds_cons.mp hm).1
    rw [compressedDomainNameLengthFrom, if_pos hz]
    rfl
  | cons l ls ih =>
    rcases fuel with _ | fuel
    · omega
    obtain ⟨hpos, hle⟩ := hls l mem_cons_self
    have hlen := toNat_label hle
    rw [label_cons] at hm hsrc hfuel ⊢
    simp only [cons_append, append_assoc, length_cons, length_append] at hm hsrc hfuel ⊢
    obtain ⟨hfirst, hrest⟩ := Mem.holds_cons.mp hm
    have hnext := (Mem.holds_append.mp hrest).2
    rw [show p + src + 1 + l.length = p + (src + 1 + l.length) by omega] at hnext
    rw [compressedDomainNameLengthFrom, hfirst, if_neg (label_ne_zero hpos hle), hlen,
      if_neg (not_lt.mpr hle), if_neg (by simp), if_neg (by omega),
      ih hls.tail hnext (by omega) (by omega)]
    omega

theorem compressedLength_le {fuel src : ℕ} (hsrc : src < maxDomainName) :
    compressedDomainNameLengthFrom m p parent fuel src ≤ maxDomainName + 1 := by
  induction fuel generalizing src with
  | zero => exact le_rfl
  | succ fuel ih =>
    rw [compressedDomainNameLengthFrom]
    split
    · omega
    split
    · exact le_rfl
    split
    · omega
    split
    · exact le_rfl
    · exact ih (by omega)

theorem compressedNameLength_le : compressedDomainNameLength m p parent ≤ maxDomainName + 1 :=
  compressedLength_le (by decide)

theorem NameAt.length (h : NameAt m p d) :
    compressedDomainNameLength m p none = d.bytes.length := by
  have hle := d.length_lt
  have hlen : compressedDomainNameLengthFrom m p none maxDomainName 0 =
      0 + (wire d.labels).length + 1 :=
    compressed_of_holds d.labelsFit h (by omega) (by omega)
  rw [compressedDomainNameLength, Option.filter_none, hlen, DomainName.bytes]
  simp

theorem NameAt.nameBytes (h : NameAt m p d) : nameBytes m p = d.bytes := by
  rw [Dns.nameBytes, h.length]
  exact h

end

end Hexley.Dns
