import Hexley.Dns.Parse

/-!
The functions that build a message.

A message under construction is a memory whose offset zero is the message
header, as for the parsers. A function that writes returns the position after
what it wrote, or `none` for a null pointer, together with the memory, which
may have changed even when there is no position.

The four counts of the header are kept in the order of the host while the
message is built, and are put into network order only when it is sent. They
are part of the memory in which `FindCompressionPointer` searches.
-/

namespace Hexley.Dns

open Lib Endian

/-! ### Names -/

/-- The inner loop of `FindCompressionPointer`: the labels of the name at `name`
of `nm` are compared with the message at `targ`. Every turn uses up at least
two bytes of the name. -/
def matchesNameFrom (m : Mem) (stop : ℕ) (nm : Mem) : ℕ → ℕ → ℕ → Bool
  | 0, _, _ => false
  | fuel + 1, targ, name =>
    let len := (nm name).toNat
    if targ + len < stop ∧ m.read targ (len + 1) = nm.read name (len + 1) then
      let targ := targ + 1 + len
      let name := name + 1 + len
      if nm name = 0 then m targ = 0
      else
        match labelKind (m targ) with
        | .label => matchesNameFrom m stop nm fuel targ name
        | .extended | .illegal => false
        | .pointer =>
          let pointertarget := pointerOffset (m targ) (m (targ + 1))
          if targ + 1 ≥ stop then false
          else if targ < pointertarget then false
          else if labelKind (m pointertarget) ≠ .label then false
          else matchesNameFrom m stop nm fuel pointertarget name
    else false

/-- The outer loop of `FindCompressionPointer`, from the position `result` down. -/
def findCompressionPointerFrom (m : Mem) (stop : ℕ) (nm : Mem) (np : ℕ) : ℕ → Option ℕ
  | 0 => if matchesNameFrom m stop nm maxDomainName 0 np then some 0 else none
  | result + 1 =>
    if matchesNameFrom m stop nm maxDomainName (result + 1) np then some (result + 1)
    else findCompressionPointerFrom m stop nm np result

/-- `FindCompressionPointer(base, end, domname)`. That the first two bytes are
compared before the loop makes no difference, since the loop compares them. -/
def findCompressionPointer (m : Mem) (stop : ℕ) (nm : Mem) (np : ℕ) : Option ℕ :=
  if nm np = 0 ∨ stop < (nm np).toNat + 1 then none
  else findCompressionPointerFrom m stop nm np (stop - ((nm np).toNat + 1))

def pointerBytes (offset : ℕ) : List UInt8 :=
  [0xC0 ||| UInt8.ofNat (offset / 256), UInt8.ofNat offset]

/-- The loop of `putDomainNameAsLabels` on the name at `start` of `nm`, which has
come to `np` there and to `ptr` in the message. -/
def putLabelsFrom (compress : Bool) (searchlimit limit : ℕ) (nm : Mem) (start : ℕ) :
    ℕ → ℕ → ℕ → Mem → Option ℕ × Mem
  | 0, _, _, m => (none, m)
  | fuel + 1, np, ptr, m =>
    if nm np ≠ 0 ∧ ptr + 1 < limit then
      let len := (nm np).toNat
      if len > maxDomainLabel then (none, m)
      else if np + 1 + len ≥ start + maxDomainName then (none, m)
      else
        match if compress then findCompressionPointer m searchlimit nm np else none with
        | some pointer => (some (ptr + 2), m.write ptr (pointerBytes pointer))
        | none =>
          if ptr + 1 + len ≥ limit then (none, m)
          else
            putLabelsFrom compress searchlimit limit nm start fuel (np + 1 + len)
              (ptr + 1 + len) (m.write ptr (nm.read np (len + 1)))
    else if ptr < limit then (some (ptr + 1), m.write ptr [0])
    else (none, m)

/-- `putDomainNameAsLabels(msg, ptr, limit, name)`, where `compress` says that `msg`
is not null. -/
def putDomainNameAsLabels (compress : Bool) (m : Mem) (ptr limit : ℕ) (nm : Mem) (start : ℕ) :
    Option ℕ × Mem :=
  putLabelsFrom compress ptr limit nm start (maxDomainName + 1) start ptr m

/-! ### Rdata -/

section

variable (pf : Platform)

def wire16 (rd : Mem) (p : ℕ) : List UInt8 := big.bytes 2 (pf.order.val (rd.read p 2))

def wire32 (rd : Mem) (p : ℕ) : List UInt8 := big.bytes 4 (pf.order.val (rd.read p 4))

/-- The loop of `putOptRData`, with `nput` bytes of the rdata behind. -/
def putOptRDataFrom (limit rdlength : ℕ) (rd : Mem) : ℕ → ℕ → ℕ → Mem → Option ℕ × Mem
  | 0, _, _, m => (none, m)
  | fuel + 1, nput, ptr, m =>
    if nput < rdlength then
      if ptr + 4 > limit then (none, m)
      else
        let m := m.write ptr (wire16 pf rd nput ++ wire16 pf rd (nput + 2))
        let code := pf.order.val (rd.read nput 2)
        if code = kDNSOptLLQ then
          if ptr + 4 + llqOptLen > limit then (none, m)
          else
            putOptRDataFrom limit rdlength rd fuel (nput + 4 + llqOptLen) (ptr + 4 + llqOptLen)
              (m.write (ptr + 4) (wire16 pf rd (nput + 4) ++ wire16 pf rd (nput + 6) ++
                wire16 pf rd (nput + 8) ++ rd.read (nput + 10) 8 ++ wire32 pf rd (nput + 18)))
        else if code = kDNSOptLease then
          if ptr + 4 + 4 > limit then (none, m)
          else
            putOptRDataFrom limit rdlength rd fuel (nput + 8) (ptr + 8)
              (m.write (ptr + 4) (wire32 pf rd (nput + 4)))
        else (none, m)
    else (some ptr, m)

variable (m : Mem)

def putOptRData (ptr limit : ℕ) (rr : ResourceRecord) : Option ℕ × Mem :=
  putOptRDataFrom pf limit rr.rdlength.toNat rr.rdata (rr.rdlength.toNat + 1) 0 ptr m

def putRData (compress : Bool) (m : Mem) (ptr limit : ℕ) (rr : ResourceRecord) : Option ℕ × Mem :=
  let putName (m : Mem) (ptr p : ℕ) := putDomainNameAsLabels compress m ptr limit rr.rdata p
  match layoutOf rr.rrtype with
  | .a =>
    if rr.rdlength ≠ 4 then (none, m)
    else if ptr + 4 > limit then (none, m)
    else (some (ptr + 4), m.write ptr (rr.rdata.read 0 4))
  | .name => putName m ptr 0
  | .soa =>
    match putName m ptr 0 with
    | (none, m) => (none, m)
    | (some ptr, m) =>
      match putName m ptr secondName with
      | (none, m) => (none, m)
      | (some ptr, m) =>
        if ptr + 20 > limit then (none, m)
        else
          (some (ptr + 20), m.write ptr (wire32 pf rr.rdata soaNumbers ++
            wire32 pf rr.rdata (soaNumbers + 4) ++ wire32 pf rr.rdata (soaNumbers + 8) ++
            wire32 pf rr.rdata (soaNumbers + 12) ++ wire32 pf rr.rdata (soaNumbers + 16)))
  | .raw | .hinfo | .unknown =>
    if ptr + rr.rdlength.toNat > limit then (none, m)
    else (some (ptr + rr.rdlength.toNat), m.write ptr (rr.rdata.read 0 rr.rdlength.toNat))
  | .mx =>
    if ptr + 3 > limit then (none, m)
    else putName (m.write ptr (wire16 pf rr.rdata 0)) (ptr + 2) afterPreference
  | .rp =>
    match putName m ptr 0 with
    | (none, m) => (none, m)
    | (some ptr, m) => putName m ptr secondName
  | .px =>
    if ptr + 5 > limit then (none, m)
    else
      match putName (m.write ptr (wire16 pf rr.rdata 0)) (ptr + 2) afterPreference with
      | (none, m) => (none, m)
      | (some ptr, m) => putName m ptr pxMapx400
  | .aaaa =>
    if rr.rdlength ≠ 16 then (none, m)
    else if ptr + 16 > limit then (none, m)
    else (some (ptr + 16), m.write ptr (rr.rdata.read 0 16))
  | .srv =>
    if ptr + 7 > limit then (none, m)
    else
      putName (m.write ptr (wire16 pf rr.rdata 0 ++ wire16 pf rr.rdata 2 ++ rr.rdata.read 4 2))
        (ptr + 6) srvTarget
  | .opt => putOptRData pf m ptr limit rr

/-! ### Records and questions -/

inductive Section
  | questions
  | answers
  | authorities
  | additionals
  deriving DecidableEq, Repr

def Section.offset : Section → ℕ
  | .questions => 4
  | .answers => 6
  | .authorities => 8
  | .additionals => 10

def incrementCount (s : Section) : Mem :=
  m.write s.offset (pf.order.bytes 2 (pf.order.val (m.read s.offset 2) + 1))

def sizeofDNSMessageHeader : ℕ := 12

def absoluteMaxDNSMessageData : ℕ := 8940

def normalMaxDNSMessageData : ℕ := 1440

def kDNSRecordTypeUnregistered : UInt8 := 0

/-- The class that is written for a record. For OPT records it is the size of a
message that can be received. -/
def wireClass (rr : ResourceRecord) : UInt16 :=
  if layoutOf rr.rrtype = .opt then UInt16.ofNat normalMaxDNSMessageData else rr.rrclass

/-- The type, the class and the time to live of a record on the wire. -/
def recordHead (rr : ResourceRecord) (ttl : UInt32) : List UInt8 :=
  big.bytes 2 rr.rrtype.toNat ++ big.bytes 2 (wireClass rr).toNat ++ big.bytes 4 ttl.toNat

/-- `PutResourceRecordTTLWithLimit`. The count is null, or a count that is not in the
header, if `count` is `none`. -/
def putResourceRecordTTLWithLimit (ptr : ℕ) (count : Option Section)
    (rr : ResourceRecord) (ttl : UInt32) (limit : ℕ) : Option ℕ × Mem :=
  if rr.recordType = kDNSRecordTypeUnregistered then (some ptr, m)
  else
    match putDomainNameAsLabels true m ptr limit rr.name 0 with
    | (none, m) => (none, m)
    | (some ptr, m) =>
      if ptr + 10 ≥ limit then (none, m)
      else
        match putRData pf true (m.write ptr (recordHead rr ttl)) (ptr + 10) limit rr with
        | (none, m) => (none, m)
        | (some endofrdata, m) =>
          let m := m.write (ptr + 8) (big.bytes 2 (endofrdata - ptr - 10))
          (some endofrdata, match count with
            | none => m
            | some s => incrementCount pf m s)

def putQuestion (ptr limit : ℕ) (nm : Mem) (rrtype rrclass : UInt16) : Option ℕ × Mem :=
  match putDomainNameAsLabels true m ptr limit nm 0 with
  | (none, m) => (none, m)
  | (some ptr, m) =>
    if ptr + 4 ≥ limit then (none, m)
    else
      (some (ptr + 4), incrementCount pf (m.write ptr (big.bytes 2 rrtype.toNat ++
        big.bytes 2 rrclass.toNat)) .questions)

/-! ### Sending -/

def countOf (s : Section) : ℕ := pf.order.val (m.read s.offset 2)

/-- The limit of the macro `PutResourceRecordTTL`: a message that has records already
is kept to the normal size. -/
def putLimit : ℕ :=
  sizeofDNSMessageHeader +
    if countOf pf m .answers ≠ 0 ∨ countOf pf m .authorities ≠ 0 ∨ countOf pf m .additionals ≠ 0
    then normalMaxDNSMessageData else absoluteMaxDNSMessageData

/-- What `mDNSSendDNSMessage` adds for a domain with authentication. -/
structure AuthInfo where
  /-- The HINFO record that `putHINFO` puts together for a tunnel. -/
  hinfo : Option ResourceRecord
  /-- The TSIG record that `DNSDigest_SignMessage` computes for a message. -/
  tsig : Mem → ℕ → ResourceRecord

def putHINFO (stop : ℕ) (hinfo : Option ResourceRecord) : Option ℕ × Mem :=
  match hinfo with
  | none => (some stop, m)
  | some rr =>
    putResourceRecordTTLWithLimit pf m stop (some .additionals) rr rr.rroriginalttl (putLimit pf m)

/-- `DNSDigest_SignMessage`. The count of the additional records is in network order
here. -/
def signMessage (stop : ℕ) (tsig : Mem → ℕ → ResourceRecord) : Option ℕ × Mem :=
  match putResourceRecordTTLWithLimit pf m stop none (tsig m stop) 0
      (sizeofDNSMessageHeader + absoluteMaxDNSMessageData) with
  | (none, m) => (none, m)
  | (some stop', m') =>
    (some stop', m'.write Section.additionals.offset
      (big.bytes 2 (big.val (m.read Section.additionals.offset 2) + 1)))

/-- The message that `mDNSSendDNSMessage` hands to the network, and its end. -/
def mDNSSendDNSMessage (stop : ℕ) (authInfo : Option AuthInfo) : Option (Mem × ℕ) :=
  if stop ≤ sizeofDNSMessageHeader ∨ stop - sizeofDNSMessageHeader > absoluteMaxDNSMessageData then
    none
  else
    match putHINFO pf m stop (authInfo.bind AuthInfo.hinfo) with
    | (none, _) => none
    | (some stop, m') =>
      let m' := m'.write Section.questions.offset
        (big.bytes 2 (countOf pf m .questions) ++ big.bytes 2 (countOf pf m .answers) ++
          big.bytes 2 (countOf pf m .authorities) ++
          big.bytes 2 (countOf pf m' .additionals))
      match authInfo with
      | none => some (m', stop)
      | some info =>
        match signMessage pf m' stop info.tsig with
        | (none, _) => none
        | (some stop, m') => some (m', stop)

end

end Hexley.Dns
