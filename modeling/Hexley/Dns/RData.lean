import Hexley.Dns.Name

/-!
Resource records in memory, and the functions that depend on how the rdata
of each record type is laid out there.

The source has one `switch` over the record type for every such function.
`layoutOf` is what these have in common, so that each of them is a match on
the layout here. The rdata is the memory `rr->rdata->u`, with the fields of
the structures at the offsets that the packed declarations give them:
a name takes 256 bytes, and the integers are in the byte order of the host.
-/

namespace Hexley.Dns

open Lib UInt16

/-- What the code takes from the platform it is built for. -/
structure Platform where
  order : Endian
  /-- `mDNSPlatformOneSecond`. -/
  oneSecond : ℕ
  oneSecond_pos : 0 < oneSecond

inductive RDLayout
  | a
  | name
  | soa
  /-- Bytes that say nothing of their length: NULL, TSIG, TXT, X25, ISDN, LOC,
  DHCID. -/
  | raw
  | hinfo
  /-- A preference and a name: MX, AFSDB, RT, KX. -/
  | mx
  | rp
  | px
  | aaaa
  | srv
  | opt
  | unknown
  deriving DecidableEq, Repr

def layoutOf (rrtype : UInt16) : RDLayout :=
  match rrtype.toNat with
  | 1 => .a
  | 2 | 5 | 12 | 39 => .name
  | 6 => .soa
  | 10 | 16 | 19 | 20 | 29 | 49 | 250 => .raw
  | 13 => .hinfo
  | 15 | 18 | 21 | 36 => .mx
  | 17 => .rp
  | 26 => .px
  | 28 => .aaaa
  | 33 => .srv
  | 41 => .opt
  | _ => .unknown

def isFlat : RDLayout → Bool
  | .a | .raw | .hinfo | .aaaa | .opt | .unknown => true
  | _ => false

def kDNSQClassANY : UInt16 := 255

def kDNSClassMask : UInt16 := 0x7FFF

def maximumRDSize : ℕ := 8192

/-- `ResourceRecord`, with the name and the rdata that it points to. -/
structure ResourceRecord where
  recordType : UInt8
  interfaceID : Option ℕ
  name : Mem
  rrtype : UInt16
  rrclass : UInt16
  rroriginalttl : UInt32
  rdlength : UInt16
  rdestimate : UInt16
  namehash : UInt32
  rdatahash : UInt32
  rdata : Mem

/-! ### Offsets of the fields -/

def secondName : ℕ := 256

/-- `rdata->u.soa.serial`, which four other numbers follow. -/
def soaNumbers : ℕ := 512

/-- `rdata->u.mx.exchange` and `rdata->u.px.map822`. -/
def afterPreference : ℕ := 2

def pxMapx400 : ℕ := 258

def srvTarget : ℕ := 6

section

variable (pf : Platform) (rr : ResourceRecord)

def field32 (rd : Mem) (p : ℕ) : UInt32 := UInt32.ofNat (pf.order.val (rd.read p 4))

/-- `GetRRDomainNameTarget`: the offset of the name in the rdata. -/
def getRRDomainNameTarget : Option ℕ :=
  match layoutOf rr.rrtype with
  | .name => some 0
  | .mx => some afterPreference
  | .srv => some srvTarget
  | _ => none

def getRDLength (estimate : Bool) : UInt16 :=
  let name := if estimate then some rr.name else none
  let nameLength (p : ℕ) := compressedDomainNameLength rr.rdata p name
  if rr.rrclass = kDNSQClassANY then rr.rdlength
  else
    match layoutOf rr.rrtype with
    | .a => 4
    | .name => ofNat (nameLength 0)
    | .soa => ofNat (nameLength 0 + nameLength secondName + 20)
    | .raw | .opt | .unknown => rr.rdlength
    | .hinfo =>
      ofNat (2 + (rr.rdata 0).toNat + (rr.rdata (1 + (rr.rdata 0).toNat)).toNat)
    | .mx => ofNat (2 + nameLength afterPreference)
    | .rp => ofNat (nameLength 0 + nameLength secondName)
    | .px => ofNat (2 + nameLength afterPreference + nameLength pxMapx400)
    | .aaaa => 16
    | .srv => ofNat (6 + nameLength srvTarget)

/-- The sum over the bytes from `i` up to `n` in `RDataHashValue`. -/
def dataHashFrom (m : Mem) (n : ℕ) : ℕ → ℕ → UInt32 → UInt32
  | 0, _, sum => sum
  | fuel + 1, i, sum =>
    if i + 1 < n then dataHashFrom m n fuel (i + 2) (hashStep sum (m i) (m (i + 1)))
    else if i < n then sum + ((m i).toUInt32 <<< 8)
    else sum

def rDataHashValue : UInt32 :=
  match layoutOf rr.rrtype with
  | .name => domainNameHashValue rr.rdata 0
  | .soa =>
    field32 pf rr.rdata soaNumbers + field32 pf rr.rdata (soaNumbers + 4) +
      field32 pf rr.rdata (soaNumbers + 8) + field32 pf rr.rdata (soaNumbers + 12) +
      field32 pf rr.rdata (soaNumbers + 16) + domainNameHashValue rr.rdata 0 +
      domainNameHashValue rr.rdata secondName
  | .mx => domainNameHashValue rr.rdata afterPreference
  | .rp => domainNameHashValue rr.rdata 0 + domainNameHashValue rr.rdata secondName
  | .px => domainNameHashValue rr.rdata afterPreference + domainNameHashValue rr.rdata pxMapx400
  | .srv => domainNameHashValue rr.rdata srvTarget
  | .a | .raw | .hinfo | .aaaa | .opt | .unknown =>
    dataHashFrom rr.rdata rr.rdlength.toNat (rr.rdlength.toNat + 1) 0 0

def setNewRData : ResourceRecord :=
  let rr' := { rr with rdlength := getRDLength rr false }
  let rr' := { rr' with rdestimate := getRDLength rr' true }
  { rr' with
    rdatahash := match getRRDomainNameTarget rr' with
      | some p => domainNameHashValue rr'.rdata p
      | none => rDataHashValue pf rr' }

/-- `SameRDataBody`, on the rdata of `rr` and the bare rdata `rd`. -/
def sameRDataBody (rd : Mem) : Bool :=
  let sameName (p : ℕ) := sameDomainName rr.rdata p rd p
  let sameBytes (p n : ℕ) : Bool := rr.rdata.read p n = rd.read p n
  match layoutOf rr.rrtype with
  | .name => sameName 0
  | .soa => sameBytes soaNumbers 20 && sameName 0 && sameName secondName
  | .mx => sameBytes 0 2 && sameName afterPreference
  | .rp => sameName 0 && sameName secondName
  | .px => sameBytes 0 2 && sameName afterPreference && sameName pxMapx400
  | .srv => sameBytes 0 6 && sameName srvTarget
  | .a | .raw | .hinfo | .aaaa | .opt | .unknown => sameBytes 0 rr.rdlength.toNat

variable {rr}

theorem rdLength_of_any (hclass : rr.rrclass = kDNSQClassANY) (estimate : Bool) :
    getRDLength rr estimate = rr.rdlength := if_pos hclass

theorem rdLength_of_ne (hclass : rr.rrclass ≠ kDNSQClassANY) : getRDLength rr false =
      match layoutOf rr.rrtype with
      | .a => 4
      | .name => ofNat (compressedDomainNameLength rr.rdata 0 none)
      | .soa =>
        ofNat (compressedDomainNameLength rr.rdata 0 none +
          compressedDomainNameLength rr.rdata secondName none + 20)
      | .raw | .opt | .unknown => rr.rdlength
      | .hinfo =>
        ofNat (2 + (rr.rdata 0).toNat + (rr.rdata (1 + (rr.rdata 0).toNat)).toNat)
      | .mx => ofNat (2 + compressedDomainNameLength rr.rdata afterPreference none)
      | .rp =>
        ofNat (compressedDomainNameLength rr.rdata 0 none +
          compressedDomainNameLength rr.rdata secondName none)
      | .px =>
        ofNat (2 + compressedDomainNameLength rr.rdata afterPreference none +
          compressedDomainNameLength rr.rdata pxMapx400 none)
      | .aaaa => 16
      | .srv => ofNat (6 + compressedDomainNameLength rr.rdata srvTarget none) := by
  rw [getRDLength, if_neg hclass]
  simp only [Bool.false_eq_true, if_false]

variable (rr)

theorem rdataHash_of_target {p : ℕ} (h : getRRDomainNameTarget rr = some p) :
    rDataHashValue pf rr = domainNameHashValue rr.rdata p := by
  unfold getRRDomainNameTarget at h
  unfold rDataHashValue
  split at h
  · rename_i hl
    rw [hl, Option.some.inj h]
  · rename_i hl
    rw [hl, Option.some.inj h]
  · rename_i hl
    rw [hl, Option.some.inj h]
  · cases h

theorem setNew_rdatahash : (setNewRData pf rr).rdatahash =
      rDataHashValue pf { rr with rdlength := getRDLength rr false } := by
  rcases ht : getRRDomainNameTarget rr with _ | p
  · change (match getRRDomainNameTarget rr with
      | some p => domainNameHashValue rr.rdata p
      | none => rDataHashValue pf { rr with rdlength := getRDLength rr false }) = _
    rw [ht]
  · change (match getRRDomainNameTarget rr with
      | some p => domainNameHashValue rr.rdata p
      | none => rDataHashValue pf { rr with rdlength := getRDLength rr false }) = _
    rw [ht, rdataHash_of_target pf { rr with rdlength := getRDLength rr false } ht]

end

end Hexley.Dns
