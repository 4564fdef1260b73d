import Hexley.Dns.RData
import Hexley.Lib.SignedWords
import Mathlib.Logic.Function.Basic

/-!
The record cache of the multicast DNS core.

Times are signed 32-bit counts of platform ticks that go round, and they
are compared by the sign of a difference. A cached record carries the time
at which it came in and its time to live in seconds, and expires when this
many seconds have gone by since.

Records are named by their addresses. A `CacheGroup` lists the records of
one name, and the groups are kept in slots by the hash of the name.
`mDNSRandom` is modelled by what it may return: every value up to its
argument, taken from a stream of draws that is part of the state.
-/

namespace Hexley.Mdns

open Lib Dns

/-- A platform whose `mDNSPlatformOneSecond` fits its type. -/
structure Host extends Platform where
  oneSecond_lt : oneSecond < 2 ^ 31

variable (pf : Host) (m : MDNS) (slot : ℕ) (id : ℕ) (rr : CacheRecord)

/-- `mDNSPlatformOneSecond` as the code reads it. -/
def Host.second : Int32 := Int32.ofNat pf.oneSecond

theorem Host.toInt_second : pf.second.toInt = pf.oneSecond :=
  toInt_ofNat_of_lt pf.oneSecond_lt

theorem Host.toNat_second : pf.second.toUInt32.toNat = pf.oneSecond :=
  toNat_toUInt32_ofNat pf.oneSecond_lt

/-! ### State -/

/-- `CacheRecord`. The counters for queries in several packets are left out, and the links of
the lists of known answers and of records with the cache flush bit are kept beside it. -/
structure CacheRecord where
  resrec : ResourceRecord
  timeRcvd : Int32
  delayDelivery : Int32
  nextRequiredQuery : Int32
  lastUsed : Int32
  crActiveQuestion : Option ℕ
  unansweredQueries : UInt32
  lastUnansweredTime : Int32

structure CacheGroup where
  namehash : UInt32
  members : List ℕ
  name : Mem

/-- The part of `mDNS` that the cache functions use. -/
structure MDNS where
  timenow : Int32
  nextCacheCheck : Int32
  nextScheduledEvent : Int32
  randomReconfirmDelay : UInt32
  canReceiveUnicastOn5353 : Bool
  rrcache : ℕ → CacheRecord
  rrcacheHash : ℕ → List CacheGroup
  random : ℕ → UInt32

def MDNS.setRecord : MDNS :=
  { m with rrcache := Function.update m.rrcache id rr }

@[simp] theorem MDNS.setRecord_self : (m.setRecord id rr).rrcache id = rr :=
  Function.update_self ..

theorem MDNS.setRecord_of_ne {id id' : ℕ} (h : id' ≠ id) (rr : CacheRecord) :
    (m.setRecord id rr).rrcache id' = m.rrcache id' :=
  Function.update_of_ne h ..

/-- `mDNSRandom`: a value from zero to `max` inclusive. -/
def MDNS.mDNSRandom (max : UInt32) : UInt32 × MDNS :=
  (UInt32.ofNat ((m.random 0).toNat % (max.toNat + 1)),
    { m with random := fun n => m.random (n + 1) })

def nonZeroTime (t : Int32) : Int32 := if t ≠ 0 then t else 1

/-! ### Groups -/

def cacheHashSlots : ℕ := 499

def hashSlot (name : Mem) : ℕ := (domainNameHashValue name 0).toNat % cacheHashSlots

def MDNS.cacheGroupForName (namehash : UInt32) (name : Mem) : Option CacheGroup :=
  (m.rrcacheHash slot).find? fun cg =>
    cg.namehash == namehash && sameDomainName cg.name 0 name 0

def MDNS.cacheGroupForRecord (rr : ResourceRecord) : Option CacheGroup :=
  m.cacheGroupForName slot rr.namehash rr.name

/-- The records that a walk over `cg ? cg->members : mDNSNULL` meets. -/
def membersOf (cg : Option CacheGroup) : List ℕ := (cg.map CacheGroup.members).getD []

/-! ### Lifetimes -/

section

variable (pf : Host) (rr : CacheRecord)

def ticksTTL : Int32 := rr.resrec.rroriginalttl.toInt32 * pf.second

def rrExpireTime : Int32 := rr.timeRcvd + ticksTTL pf rr

def maxUnansweredQueries : UInt32 := 4

def cacheCheckGracePeriod : Int32 :=
  if rr.delayDelivery ≠ 0 then pf.second / 10
  else if rr.crActiveQuestion = none then 60 * pf.second
  else if rr.unansweredQueries < maxUnansweredQueries then ticksTTL pf rr / 50
  else if rr.resrec.rroriginalttl > 10 then pf.second
  else if rr.resrec.rroriginalttl > 0 then pf.second / 10
  else 0

/-- The time that `SetNextCacheCheckTime` enters as `NextRequiredQuery`. -/
def requiredQuery (m : MDNS) : Int32 × MDNS :=
  if rr.crActiveQuestion ≠ none ∧ rr.unansweredQueries < maxUnansweredQueries then
    let (r, m) := m.mDNSRandom ((ticksTTL pf rr).toUInt32 / 50)
    let early := (ticksTTL pf rr / 20).toUInt32 * (maxUnansweredQueries - rr.unansweredQueries)
    (rrExpireTime pf rr - early.toInt32 + r.toInt32, m)
  else (rrExpireTime pf rr, m)

def checkInTime (check : Int32) : Int32 :=
  let due := rr.nextRequiredQuery + cacheCheckGracePeriod pf rr
  let check := if 0 < check - due then due else check
  if rr.delayDelivery ≠ 0 ∧ 0 < check - rr.delayDelivery then rr.delayDelivery else check

def setNextCacheCheckTime (m : MDNS) (id : ℕ) : MDNS :=
  let (next, m) := requiredQuery pf (m.rrcache id) m
  let rr := { m.rrcache id with nextRequiredQuery := next }
  { m.setRecord id rr with nextCacheCheck := checkInTime pf rr m.nextCacheCheck }

end

theorem requiredQuery_eq (m : MDNS) :
    ∃ next random, requiredQuery pf rr m = (next, { m with random := random }) := by
  unfold requiredQuery
  split
  · exact ⟨_, _, rfl⟩
  · exact ⟨_, m.random, rfl⟩

theorem setNextCheck_eq : ∃ next check random, setNextCacheCheckTime pf m id =
      { m.setRecord id { m.rrcache id with nextRequiredQuery := next } with
        nextCacheCheck := check, random := random } := by
  obtain ⟨next, random, h⟩ := requiredQuery_eq pf (m.rrcache id) m
  refine ⟨next, checkInTime pf { m.rrcache id with nextRequiredQuery := next } m.nextCacheCheck,
    random, ?_⟩
  rw [setNextCacheCheckTime, h]
  rfl

/-! ### What is left of a lifetime -/

def remaining : ℤ :=
  (rrExpireTime pf rr - m.timenow).toInt

def SameLifetime (rr rr' : CacheRecord) : Prop :=
  rr'.timeRcvd = rr.timeRcvd ∧ rr'.resrec = rr.resrec

section

variable {pf : Host} {m : MDNS} {rr rr' : CacheRecord}

theorem rrExpireTime_congr (h : SameLifetime rr rr') :
    rrExpireTime pf rr' = rrExpireTime pf rr := by
  rw [rrExpireTime, rrExpireTime, ticksTTL, ticksTTL, h.1, h.2]

theorem remaining_congr (h : SameLifetime rr rr') : remaining pf m rr' = remaining pf m rr := by
  rw [remaining, remaining, rrExpireTime_congr h]

end

theorem lifetime_setNextCheck (id id' : ℕ) :
    SameLifetime (m.rrcache id') ((setNextCacheCheckTime pf m id).rrcache id') := by
  obtain ⟨next, check, random, h⟩ := setNextCheck_eq pf m id
  rw [h]
  by_cases hid : id' = id
  · subst hid
    rw [MDNS.setRecord_self]
    exact ⟨rfl, rfl⟩
  · rw [MDNS.setRecord_of_ne m hid]
    exact ⟨rfl, rfl⟩

/-! ### A small cache -/

theorem milliseconds_pos : 0 < 1000 := by decide

def millisecondHost : Host where
  order := .little
  oneSecond := 1000
  oneSecond_pos := milliseconds_pos
  oneSecond_lt := by decide

def idleRecord (timeRcvd : Int32) (ttl : UInt32) : CacheRecord where
  resrec :=
    { recordType := 0x80, interfaceID := none, name := Mem.ofList [0], rrtype := 1, rrclass := 1,
      rroriginalttl := ttl, rdlength := 4, rdestimate := 4, namehash := 0, rdatahash := 0,
      rdata := Mem.ofList [] }
  timeRcvd := timeRcvd
  delayDelivery := 0
  nextRequiredQuery := 0
  lastUsed := 0
  crActiveQuestion := none
  unansweredQueries := 0
  lastUnansweredTime := 0

def idleCache : MDNS where
  timenow := 100000
  nextCacheCheck := 0
  nextScheduledEvent := 0
  randomReconfirmDelay := 36
  canReceiveUnicastOn5353 := false
  rrcache := fun _ => rr
  rrcacheHash := fun _ => []
  random := fun _ => 0

end Hexley.Mdns
