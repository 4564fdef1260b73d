import Hexley.Dns.RData

/-!
The functions that parse a received message.

A message is a memory whose offset zero is the message header, and `stop`
is the offset of the source's `end`. The parsers are programs that read
this memory (`Rd`), so that the bytes they look at are part of what they
do. What they fill in, a name or a record, is written over the previous
contents of the caller's storage, which is passed in and handed back also
when the parser gives up half way.

The loops over labels follow compression pointers. A pointer must lead to a
label or to the root, and a label adds at least two bytes to the name, so
that the loop ends after at most twice as many turns as a name has bytes.
-/

namespace Hexley.Dns

open Lib Rd UInt16

inductive LabelKind
  | label
  /-- Extended EDNS0 label types, not supported. -/
  | extended
  /-- Illegal label length. -/
  | illegal
  | pointer
  deriving DecidableEq, Repr

def labelKind (len : UInt8) : LabelKind :=
  match len.toNat / 64 with
  | 0 => .label
  | 1 => .extended
  | 2 => .illegal
  | _ => .pointer

def pointerOffset (len lo : UInt8) : ℕ := len.toNat % 64 * 256 + lo.toNat

def skipDomainNameFrom (stop : ℕ) : ℕ → ℕ → ℕ → Rd (Option ℕ)
  | 0, _, _ => pure none
  | fuel + 1, ptr, total => do
      let len ← byte ptr
      if len = 0 then pure (some (ptr + 1))
      else
        match labelKind len with
        | .label =>
          if ptr + 1 + len.toNat ≥ stop then pure none
          else if total + 1 + len.toNat ≥ maxDomainName then pure none
          else skipDomainNameFrom stop fuel (ptr + 1 + len.toNat) (total + 1 + len.toNat)
        | .extended | .illegal => pure none
        | .pointer => pure (some (ptr + 2))

def skipDomainName (ptr stop : ℕ) : Rd (Option ℕ) :=
  if ptr ≥ stop then pure none else skipDomainNameFrom stop maxDomainName ptr 0

/-- The loop of `getDomainName`. The name is put at offset `base` of `dst`, and
`np` bytes of it are there already. -/
def getDomainNameFrom (stop base : ℕ) : ℕ → ℕ → ℕ → Option ℕ → Mem → Rd (Option ℕ × Mem)
  | 0, _, _, _, dst => pure (none, dst)
  | fuel + 1, ptr, np, nextbyte, dst => do
      let len ← byte ptr
      if len = 0 then pure (some (nextbyte.getD (ptr + 1)), dst)
      else
        match labelKind len with
        | .label =>
          if ptr + 1 + len.toNat ≥ stop then pure (none, dst)
          else if np + 1 + len.toNat ≥ maxDomainName then pure (none, dst)
          else do
            let label ← bytes (ptr + 1) len.toNat
            getDomainNameFrom stop base fuel (ptr + 1 + len.toNat) (np + 1 + len.toNat) nextbyte
              (dst.write (base + np) (len :: label ++ [0]))
        | .extended | .illegal => pure (none, dst)
        | .pointer => do
            let lo ← byte (ptr + 1)
            let offset := pointerOffset len lo
            let nextbyte := some (nextbyte.getD (ptr + 2))
            if offset ≥ stop then pure (none, dst)
            else do
              let first ← byte offset
              if labelKind first ≠ .label then pure (none, dst)
              else getDomainNameFrom stop base fuel offset np nextbyte dst

def getDomainName (ptr stop : ℕ) (dst : Mem) (base : ℕ) : Rd (Option ℕ × Mem) :=
  if ptr ≥ stop then pure (none, dst)
  else getDomainNameFrom stop base (2 * maxDomainName) ptr 0 none (dst.write base [0])

def skipResourceRecord (ptr stop : ℕ) : Rd (Option ℕ) := do
  match ← skipDomainName ptr stop with
  | none => pure none
  | some ptr =>
    if ptr + 10 > stop then pure none
    else do
      let pktrdlength ← number (ptr + 8) 2
      if ptr + 10 + pktrdlength > stop then pure none
      else pure (some (ptr + 10 + pktrdlength))

structure Question where
  interfaceID : Option ℕ
  qname : Mem
  qnamehash : UInt32
  qtype : UInt16
  qclass : UInt16

/-- `getQuestion`, into a question that it first sets to zero. -/
def getQuestion (ptr stop : ℕ) (interfaceID : Option ℕ) : Rd (Option ℕ × Question) := do
  let (next, qname) ← getDomainName ptr stop (Mem.ofList []) 0
  let q : Question :=
    { interfaceID := interfaceID, qname := qname, qnamehash := 0, qtype := 0, qclass := 0 }
  match next with
  | none => pure (none, q)
  | some ptr =>
    if ptr + 4 > stop then pure (none, q)
    else do
      let qtype ← number ptr 2
      let qclass ← number (ptr + 2) 2
      pure (some (ptr + 4), { q with
          qnamehash := domainNameHashValue qname 0
          qtype := ofNat qtype
          qclass := ofNat qclass })

/-! ### Options -/

def llqOptLen : ℕ := 18

/-- `sizeof(rdataOPT)`, with the padding of its union. -/
def sizeofRdataOPT : ℕ := 24

def kDNSOptLLQ : ℕ := 1

def kDNSOptLease : ℕ := 2

variable (pf : Platform)

/-- The longest time that can be represented, in seconds. -/
def Platform.maxSeconds : ℕ := 0x70000000 / pf.oneSecond

def unsignedDiff (limit ptr : ℕ) : ℕ := (limit + 2 ^ 32 - ptr % 2 ^ 32) % 2 ^ 32

/-- The loop of `getOptRdata`. `opt` is the offset of the next option in the
rdata, and `nread` bytes of the packet have been used up. -/
def getOptRdataFrom (pf : Platform) (limit pktRDLen : ℕ) : ℕ → ℕ → ℕ → ℕ → Mem → Rd (Option ℕ × Mem)
  | 0, _, _, _, rd => pure (none, rd)
  | fuel + 1, ptr, nread, opt, rd =>
    if nread < pktRDLen ∧ opt < maximumRDSize - sizeofRdataOPT then
      if nread + 4 > maximumRDSize then pure (none, rd)
      else do
        let code ← number ptr 2
        let optlen ← number (ptr + 2) 2
        let rd := (rd.write opt (pf.order.bytes 2 code)).write (opt + 2) (pf.order.bytes 2 optlen)
        if code = kDNSOptLLQ then
          if unsignedDiff limit (ptr + 4) < llqOptLen then pure (none, rd)
          else do
            let vers ← number (ptr + 4) 2
            let llqOp ← number (ptr + 6) 2
            let err ← number (ptr + 8) 2
            let id ← bytes (ptr + 10) 8
            let llqlease ← number (ptr + 18) 4
            getOptRdataFrom pf limit pktRDLen fuel (ptr + 4 + llqOptLen) (nread + 4 + llqOptLen)
              (opt + sizeofRdataOPT)
              (rd.write (opt + 4) (pf.order.bytes 2 vers ++ pf.order.bytes 2 llqOp ++
                pf.order.bytes 2 err ++ id ++ pf.order.bytes 4 (min llqlease pf.maxSeconds)))
        else if code = kDNSOptLease then
          if unsignedDiff limit (ptr + 4) < 4 then pure (none, rd)
          else do
            let updatelease ← number (ptr + 4) 4
            getOptRdataFrom pf limit pktRDLen fuel (ptr + 8) (nread + 8) (opt + sizeofRdataOPT)
              (rd.write (opt + 4) (pf.order.bytes 4 (min updatelease pf.maxSeconds)))
        else pure (none, rd)
    else pure (some ptr, rd)

/-- `getOptRdata`: the position after the options and the rdata. The caller's
`rdlength` is set only if the position is not null. -/
def getOptRdata (ptr limit pktRDLen : ℕ) (rd : Mem) : Rd (Option ℕ × Mem) :=
  getOptRdataFrom pf limit pktRDLen (pktRDLen + 1) ptr 0 0 rd

/-! ### Records -/

def getNameField (ptr stop base : ℕ) (rr : ResourceRecord) : Rd (Option ℕ × ResourceRecord) := do
  let (next, rd) ← getDomainName ptr stop rr.rdata base
  pure (next, { rr with rdata := rd })

/-- The `switch` of `GetLargeResourceRecord`: the rdata of `n` bytes at `ptr`,
which ends at `stop`, is unpacked into the record. The result says whether
the record is kept. -/
def getRData (ptr stop n : ℕ) (rr : ResourceRecord) : Rd (Bool × ResourceRecord) :=
  match layoutOf rr.rrtype with
  | .a =>
    if n ≠ 4 then pure (false, rr)
    else do
      let addr ← bytes ptr 4
      pure (true, { rr with rdata := rr.rdata.write 0 addr })
  | .name => do
      let (next, rr) ← getNameField ptr stop 0 rr
      pure (next = some stop, rr)
  | .soa => do
      match ← getNameField ptr stop 0 rr with
      | (none, rr) => pure (false, rr)
      | (some ptr, rr) =>
        match ← getNameField ptr stop secondName rr with
        | (none, rr) => pure (false, rr)
        | (some ptr, rr) =>
          if ptr + 0x14 ≠ stop then pure (false, rr)
          else do
            let serial ← number ptr 4
            let refresh ← number (ptr + 4) 4
            let retry ← number (ptr + 8) 4
            let expire ← number (ptr + 12) 4
            let min ← number (ptr + 16) 4
            pure (true, { rr with
              rdata := rr.rdata.write soaNumbers (pf.order.bytes 4 serial ++
                pf.order.bytes 4 refresh ++ pf.order.bytes 4 retry ++ pf.order.bytes 4 expire ++
                pf.order.bytes 4 min) })
  | .raw | .hinfo | .unknown =>
    if n > maximumRDSize then pure (false, rr)
    else do
      let data ← bytes ptr n
      pure (true, { rr with rdlength := ofNat n, rdata := rr.rdata.write 0 data })
  | .mx =>
    if n < 3 then pure (false, rr)
    else do
      let preference ← number ptr 2
      let (next, rr) ← getNameField (ptr + 2) stop afterPreference
        { rr with rdata := rr.rdata.write 0 (pf.order.bytes 2 preference) }
      pure (next = some stop, rr)
  | .rp => do
      match ← getNameField ptr stop 0 rr with
      | (none, rr) => pure (false, rr)
      | (some ptr, rr) => do
          let (next, rr) ← getNameField ptr stop secondName rr
          pure (next = some stop, rr)
  | .px =>
    if n < 4 then pure (false, rr)
    else do
      let preference ← number ptr 2
      -- The code goes on at `ptr` here, not behind the preference.
      match ← getNameField ptr stop afterPreference
          { rr with rdata := rr.rdata.write 0 (pf.order.bytes 2 preference) } with
      | (none, rr) => pure (false, rr)
      | (some ptr, rr) => do
          let (next, rr) ← getNameField ptr stop pxMapx400 rr
          pure (next = some stop, rr)
  | .aaaa =>
    if n ≠ 16 then pure (false, rr)
    else do
      let addr ← bytes ptr 16
      pure (true, { rr with rdata := rr.rdata.write 0 addr })
  | .srv =>
    if n < 7 then pure (false, rr)
    else do
      let priority ← number ptr 2
      let weight ← number (ptr + 2) 2
      let port ← bytes (ptr + 4) 2
      let (next, rr) ← getNameField (ptr + 6) stop srvTarget { rr with
          rdata := rr.rdata.write 0 (pf.order.bytes 2 priority ++ pf.order.bytes 2 weight ++ port) }
      pure (next = some stop, rr)
  | .opt => do
      -- The test of the position that `getOptRdata` returns stands behind a `break`.
      let (next, rd) ← getOptRdata pf ptr stop n rr.rdata
      pure (true, { rr with
        rdlength := if next.isSome then ofNat n else rr.rdlength
        rdata := rd })

/-- Whether the record counts as unique: its cache-flush bit is set, or it is a
unicast answer and not truncated. -/
def getUnique (rrclass : ℕ) (interfaceID : Option ℕ) : Rd Bool :=
  if rrclass ≥ 0x8000 then pure true
  else if interfaceID.isSome then pure false
  else do
    let flags ← byte 2
    pure (flags &&& 2 = 0)

/-- The time to live as it is taken from a packet: a value that is too large to
be represented is cut, except for the largest. -/
def clampTTL (ttl : ℕ) : UInt32 :=
  UInt32.ofNat (if ttl > pf.maxSeconds ∧ ttl ≠ 0xFFFFFFFF then pf.maxSeconds else ttl)

structure RecordHeader where
  rrtype : UInt16
  rrclass : UInt16
  rroriginalttl : UInt32
  pktrdlength : ℕ
  unique : Bool

/-- The part of `GetLargeResourceRecord` that reads the header at `ptr`. -/
def getRecordHeader (ptr : ℕ) (interfaceID : Option ℕ) : Rd RecordHeader := do
  let rrtype ← number ptr 2
  let rrclass ← number (ptr + 2) 2
  let ttl ← number (ptr + 4) 4
  let pktrdlength ← number (ptr + 8) 2
  let unique ← getUnique rrclass interfaceID
  pure { rrtype := ofNat rrtype
         rrclass := ofNat rrclass &&& kDNSClassMask
         rroriginalttl := clampTTL pf ttl
         pktrdlength := pktrdlength
         unique := unique }

def getRDataOrNone (ptr stop n : ℕ) (rr : ResourceRecord) : Rd (Bool × ResourceRecord) :=
  if rr.rrclass = kDNSQClassANY ∧ n = 0 then pure (true, { rr with rdlength := 0 })
  else getRData pf ptr stop n rr

/-- The end of `GetLargeResourceRecord`: the fields that are computed from the
name and the rdata, and the record type, are filled in. -/
def completeRecord (unique : Bool) (recordType : UInt8) (rr : ResourceRecord) :
    ResourceRecord :=
  { setNewRData pf { rr with namehash := domainNameHashValue rr.name 0 } with
    recordType := if unique then recordType ||| 0x10 else recordType }

/-- `GetLargeResourceRecord`, into the record buffer `rr`. -/
def getLargeResourceRecord (ptr stop : ℕ) (interfaceID : Option ℕ)
    (recordType : UInt8) (rr : ResourceRecord) : Rd (Option ℕ × ResourceRecord) := do
  let (next, name) ← getDomainName ptr stop rr.name 0
  let rr := { rr with interfaceID := interfaceID, name := name }
  match next with
  | none => pure (none, rr)
  | some ptr =>
    if ptr + 10 > stop then pure (none, rr)
    else do
      let h ← getRecordHeader pf ptr interfaceID
      let rr := { rr with
        rrtype := h.rrtype
        rrclass := h.rrclass
        rroriginalttl := h.rroriginalttl }
      if ptr + 10 + h.pktrdlength > stop then pure (none, rr)
      else do
        let stop := ptr + 10 + h.pktrdlength
        let (kept, rr) ← getRDataOrNone pf (ptr + 10) stop h.pktrdlength rr
        pure (if kept then (some stop, completeRecord pf h.unique recordType rr) else (none, rr))

end Hexley.Dns
