import Hexley.Lib.Fold
import Hexley.Mdns.Questions
import Hexley.Mdns.Reconfirm

/-!
The cache flush pass at the end of `mDNSCoreReceiveResponse`.

For every record that came in with the cache flush bit, the records of its
name, type, class and interface are visited. A fresh one takes over the
time to live of the new record, and an old one is marked to be deleted in a
second. A record may be visited many times, and the times that one visit
leaves behind decide what the next one does.

A record that is old, or has a second or less to live, is never fresh to a
later visit. So its remaining time can only go down, and a visit brings it
down to a second.

Behind the visits for a record its delivery may be due, and the clients that
it goes to may reconfirm any record of the cache. This can give a record
more time than it had. The pass does as it should if the records that the
clients reconfirm have room for their new lifetimes.
-/

namespace Hexley.Mdns

open Lib Dns MDNS UInt32

/-! ### The pass -/

section

variable (pf : Host) (m : MDNS)

variable (d : Delivery) (r : ℕ) (r1 : ℕ) (rr : CacheRecord)

def IsFresh : Prop :=
  m.timenow - rr.timeRcvd < pf.second ∧ rrExpireTime pf rr - m.timenow > pf.second

instance (rr : CacheRecord) : Decidable (IsFresh pf m rr) :=
  inferInstanceAs (Decidable (_ ∧ _))

def CacheRecord.setTTL (ttl : UInt32) : CacheRecord :=
  { rr with resrec := { rr.resrec with rroriginalttl := ttl } }

/-- What a visit does to the times of `r2`, a record of the signature of `r1`. -/
def flushRecord (r1 r2 : ℕ) : MDNS :=
  let rr := m.rrcache r2
  let ttl := (m.rrcache r1).resrec.rroriginalttl
  if IsFresh pf m rr then
    let rr := if rr.resrec.rroriginalttl ≠ ttl ∧ ttl > 1 then rr.setTTL ttl else rr
    m.setRecord r2 { rr with timeRcvd := m.timenow }
  else if rr.timeRcvd = m.timenow ∧ rr.resrec.rroriginalttl ≤ 1 ∧
      rr.unansweredQueries = maxUnansweredQueries then
    { m.setRecord r2 (rr.setTTL 0) with
      nextCacheCheck := m.timenow, nextScheduledEvent := m.timenow }
  else if rrExpireTime pf rr - m.timenow > pf.second then
    m.setRecord r2 { rr.setTTL 1 with
      unansweredQueries := maxUnansweredQueries, timeRcvd := m.timenow - 1 }
  else m

def SameSignature (r1 r2 : ResourceRecord) : Prop :=
  r1.interfaceID = r2.interfaceID ∧ r1.rrtype = r2.rrtype ∧ r1.rrclass = r2.rrclass

instance (r1 r2 : ResourceRecord) : Decidable (SameSignature r1 r2) :=
  inferInstanceAs (Decidable (_ ∧ _ ∧ _))

def flushVisit (m : MDNS) (r2 : ℕ) : MDNS :=
  if SameSignature (m.rrcache r1).resrec (m.rrcache r2).resrec then
    setNextCacheCheckTime pf (flushRecord pf m r1 r2) r2
  else m

def MDNS.groupOf : List ℕ :=
  let rr := (m.rrcache r1).resrec
  membersOf (m.cacheGroupForRecord (hashSlot rr.name) rr)

def checkForSoonToExpireRecords (name : Mem) (namehash : UInt32) (slot : ℕ) : Int32 :=
  let threshhold := m.timenow + pf.second
  let start := m.timenow - 0x10000000
  let delay := (membersOf (m.cacheGroupForName slot namehash name)).foldl (fun delay r =>
    let expire := rrExpireTime pf (m.rrcache r)
    if threshhold - expire ≥ 0 ∧ delay - expire < 0 then expire else delay) start
  if delay - start > 0 then nonZeroTime delay else 0

/-! ### Deliveries -/

def mDNSPurgeCacheResourceRecord : MDNS :=
  setNextCacheCheckTime pf (m.setRecord r { (m.rrcache r).setTTL 0 with
      timeRcvd := m.timenow - pf.second * 60, unansweredQueries := maxUnansweredQueries }) r

/-- What a client does to the cached records. `mDNS_Reconfirm` is a call for the record and one
for each of its antecedents. -/
def Op.onCache : Op → MDNS
  | .reconfirm r interval => (mDNSReconfirmInternal pf m interval r).getD m
  | .purge r => mDNSPurgeCacheResourceRecord pf m r
  | .stop _ => m
  | .start _ _ => m

/-- The part of `AnswerCurrentQuestionWithResourceRecord` that comes before the call of the
client. -/
def MDNS.answer (r q : ℕ) (duplicateOf : Bool) : MDNS :=
  let rr := { m.rrcache r with lastUsed := m.timenow }
  if duplicateOf = false ∧ rr.crActiveQuestion ≠ some q then
    setNextCacheCheckTime pf (m.setRecord r { rr with crActiveQuestion := some q }) r
  else m.setRecord r rr

/-- A walk of `CacheRecordDeferredAdd` over the questions that it finds. Of the `k`-th question
that it calls the client for, and of the cache behind this call, it is given whether the question
is a duplicate, and the questions that `mDNS_StopQuery_internal` leaves the records active for. -/
structure Delivery where
  questions : Questions
  clients : ℕ → ℕ → Callback
  called : List ℕ
  walk : ∃ fuel, deliverFrom clients fuel 0
    { questions with currentQuestion := questions.list.head? } = some called
  duplicateOf : ℕ → Bool
  active : ℕ → ℕ → Option ℕ

def Delivery.call (m : MDNS) (turn : ℕ × ℕ) : MDNS :=
  let m := (d.clients turn.2 turn.1).ops.foldl (Op.onCache pf)
    (m.answer pf r turn.1 (d.duplicateOf turn.2))
  { m with rrcache := fun r => { m.rrcache r with crActiveQuestion := d.active turn.2 r } }

def MDNS.delay (r : ℕ) (delay : Int32) : MDNS :=
  m.setRecord r { m.rrcache r with delayDelivery := delay }

def cacheRecordDeferredAdd : MDNS :=
  d.called.zipIdx.foldl (d.call pf r) (m.delay r 0)

/-! ### The pass -/

def flushVisits : MDNS := (m.groupOf r1).foldl (flushVisit pf r1) m

def soonToExpire : Int32 :=
  let rr := (m.rrcache r1).resrec
  checkForSoonToExpireRecords pf m rr.name rr.namehash (hashSlot rr.name)

/-- The end of the turn for `r1`: its delivery if it waits for no other record any more. -/
def finishDelivery : MDNS :=
  if (m.rrcache r1).delayDelivery ≠ 0 then
    let delay := soonToExpire pf m r1
    let m := m.delay r1 delay
    if delay = 0 then cacheRecordDeferredAdd pf m d r1 else m
  else m

def flushTurn (m : MDNS) (turn : ℕ × Delivery) : MDNS :=
  finishDelivery pf (flushVisits pf m turn.1) turn.2 turn.1

/-- The loop over `CacheFlushRecords`. Each record comes with its delivery. -/
def cacheFlushPass (flushed : List (ℕ × Delivery)) : MDNS :=
  flushed.foldl (flushTurn pf) m

/-! ### What the pass is to do -/

def IsStale : Prop :=
  (pf.oneSecond : ℤ) ≤ (m.timenow - rr.timeRcvd).toInt

structure Flushes (flushed : List (ℕ × Delivery)) : Prop where
  /-- A record that is stale or dying is not prolonged. -/
  notLater : ∀ r, IsStale pf m (m.rrcache r) ∨ remaining pf m (m.rrcache r) ≤ pf.oneSecond →
    remaining pf m ((cacheFlushPass pf m flushed).rrcache r) ≤ remaining pf m (m.rrcache r)
  /-- The stale records of a flushed signature have a second. -/
  soon : ∀ turn ∈ flushed, ∀ r ∈ m.groupOf turn.1,
    SameSignature (m.rrcache turn.1).resrec (m.rrcache r).resrec → IsStale pf m (m.rrcache r) →
        remaining pf m ((cacheFlushPass pf m flushed).rrcache r) ≤ pf.oneSecond

/-- A record that is reconfirmed has room for the lifetime that it gets, if it is not fresh, and
one that is purged did not expire more than a minute ago. -/
def Op.HasRoom : Op → Prop
  | .reconfirm r interval => ¬ IsFresh pf m (m.rrcache r) →
      expiresLate pf m interval (m.rrcache r) → Mdns.HasRoom pf m (m.rrcache r) interval
  | .purge r => pf.oneSecond * 60 < 2 ^ 31 ∧
      -(pf.oneSecond * 60 : ℤ) ≤ remaining pf m (m.rrcache r)
  | .stop _ => True
  | .start _ _ => True

def Delivery.HasRoom (d : Delivery) (r : ℕ) : Prop :=
  EachTurn (fun m turn => EachTurn (Op.HasRoom pf) (Op.onCache pf)
      (m.answer pf r turn.1 (d.duplicateOf turn.2)) (d.clients turn.2 turn.1).ops)
    (d.call pf r) (m.delay r 0) d.called.zipIdx

/-- The calls in the turn of a record have room. -/
def TurnHasRoom (turn : ℕ × Delivery) : Prop :=
  let m := flushVisits pf m turn.1
  (m.rrcache turn.1).delayDelivery ≠ 0 → soonToExpire pf m turn.1 = 0 →
    turn.2.HasRoom pf (m.delay turn.1 0) turn.1

end

/-! ### Ageing -/

/-- A cached record with times that others may have changed: not postponed, and not fresh
again once it was not. -/
def Ages (pf : Host) (m : MDNS) (rr rr' : CacheRecord) : Prop :=
  ¬ IsFresh pf m rr → remaining pf m rr' ≤ remaining pf m rr ∧ ¬ IsFresh pf m rr'

structure Settles (pf : Host) (m m' : MDNS) : Prop where
  timenow : m'.timenow = m.timenow
  groups : m'.rrcacheHash = m.rrcacheHash
  resrec : ∀ r, (m'.rrcache r).resrec =
    { (m.rrcache r).resrec with rroriginalttl := (m'.rrcache r).resrec.rroriginalttl }
  ages : ∀ r, Ages pf m (m.rrcache r) (m'.rrcache r)

variable {pf : Host} {m m' : MDNS} {rr : CacheRecord} {r r1 r2 : ℕ}

section

variable {rr' : CacheRecord}

theorem remaining_of_now (h : m'.timenow = m.timenow) : remaining pf m' rr = remaining pf m rr := by
  rw [remaining, remaining, h]

theorem isFresh_of_now (h : m'.timenow = m.timenow) : IsFresh pf m' rr ↔ IsFresh pf m rr := by
  rw [IsFresh, IsFresh, h]

theorem isFresh_congr (h : SameLifetime rr rr') : IsFresh pf m rr' ↔ IsFresh pf m rr := by
  rw [IsFresh, IsFresh, rrExpireTime_congr h, h.1]

theorem lt_remaining_fresh (h : IsFresh pf m rr) : (pf.oneSecond : ℤ) < remaining pf m rr := by
  rw [← pf.toInt_second]
  exact Int32.lt_iff_toInt_lt.1 h.2

theorem Ages.of_sameLifetime (h : SameLifetime rr rr') : Ages pf m rr rr' := fun hf =>
  ⟨(remaining_congr h).le, fun hf' => hf ((isFresh_congr h).1 hf')⟩

theorem Ages.of_le (h : remaining pf m rr' ≤ remaining pf m rr)
    (hsecond : remaining pf m rr' ≤ pf.oneSecond) : Ages pf m rr rr' := fun _ =>
  ⟨h, fun hf => absurd (lt_remaining_fresh hf) (not_lt.2 hsecond)⟩

theorem Settles.of_sameLifetime (hnow : m'.timenow = m.timenow)
    (hgroups : m'.rrcacheHash = m.rrcacheHash)
    (h : ∀ r, SameLifetime (m.rrcache r) (m'.rrcache r)) : Settles pf m m' :=
  ⟨hnow, hgroups, fun r => by rw [(h r).2], fun r => Ages.of_sameLifetime (h r)⟩

theorem Settles.refl (m : MDNS) : Settles pf m m :=
  .of_sameLifetime rfl rfl fun _ => ⟨rfl, rfl⟩

theorem Settles.trans {m'' : MDNS} (h : Settles pf m m') (h' : Settles pf m' m'') :
    Settles pf m m'' where
  timenow := h'.timenow.trans h.timenow
  groups := h'.groups.trans h.groups
  resrec r := by rw [h'.resrec r, h.resrec r]
  ages r hf := by
    obtain ⟨hle, hf'⟩ := h.ages r hf
    obtain ⟨hle', hf''⟩ := h'.ages r (mt (isFresh_of_now h.timenow).1 hf')
    rw [remaining_of_now h.timenow, remaining_of_now h.timenow] at hle'
    exact ⟨hle'.trans hle, mt (isFresh_of_now h.timenow).2 hf''⟩

theorem Settles.setRecord (hnow : m'.timenow = m.timenow)
    (hgroups : m'.rrcacheHash = m.rrcacheHash) (hcache : m'.rrcache = (m.setRecord r rr).rrcache)
    (hresrec : rr.resrec = { (m.rrcache r).resrec with rroriginalttl := rr.resrec.rroriginalttl })
    (hages : Ages pf m (m.rrcache r) rr) : Settles pf m m' where
  timenow := hnow
  groups := hgroups
  resrec r' := by
    rw [hcache]
    by_cases h : r' = r
    · subst h
      rw [setRecord_self, hresrec]
    · rw [setRecord_of_ne m h]
  ages r' := by
    rw [hcache]
    by_cases h : r' = r
    · subst h
      rwa [setRecord_self]
    · rw [setRecord_of_ne m h]
      exact Ages.of_sameLifetime ⟨rfl, rfl⟩

theorem Settles.setRecord_sameLifetime (h : SameLifetime (m.rrcache r) rr) :
    Settles pf m (m.setRecord r rr) :=
  Settles.setRecord rfl rfl rfl (by rw [h.2]) (Ages.of_sameLifetime h)

theorem Settles.check (h : Settles pf m m') (r : ℕ) :
    Settles pf m (setNextCacheCheckTime pf m' r) := by
  obtain ⟨next, check, random, heq⟩ := setNextCheck_eq pf m' r
  exact h.trans (.of_sameLifetime (by rw [heq]; rfl) (by rw [heq]; rfl)
    (lifetime_setNextCheck pf m' r))

end

/-! ### One visit -/

theorem ticksTTL_of_le_one (h : rr.resrec.rroriginalttl ≤ 1) :
    (ticksTTL pf rr).toInt = rr.resrec.rroriginalttl.toNat * pf.oneSecond := by
  have hle : rr.resrec.rroriginalttl.toNat ≤ 1 := le_iff_toNat_le.1 h
  have hlt := pf.oneSecond_lt
  rw [ticksTTL, toInt_mul_of_inS32] <;> rw [toInt_toInt32_of_lt (by omega), pf.toInt_second]
  rcases Nat.le_one_iff_eq_zero_or_eq_one.1 hle with h0 | h1
  · rw [h0]
    exact ⟨by simp, by simp⟩
  · rw [h1]
    exact ⟨by omega, by omega⟩

theorem remaining_of_age (age : Int32) (h : rr.timeRcvd = m.timenow - age) :
    remaining pf m rr = (ticksTTL pf rr - age).toInt := by
  rw [remaining, rrExpireTime, h]
  congr 1
  grind

theorem remaining_of_goodbye (h : rr.timeRcvd = m.timenow) (hle : rr.resrec.rroriginalttl ≤ 1) :
    remaining pf m rr = rr.resrec.rroriginalttl.toNat * pf.oneSecond := by
  rw [remaining_of_age 0 (by rw [h, Int32.sub_zero]), Int32.sub_zero, ticksTTL_of_le_one hle]

/-- A record that is marked for deletion has a tick less than a second left. -/
theorem remaining_of_marked (h : rr.timeRcvd = m.timenow - 1) (httl : rr.resrec.rroriginalttl = 1) :
    remaining pf m rr = pf.oneSecond - 1 := by
  have hpos := pf.oneSecond_pos
  have hlt := pf.oneSecond_lt
  have hticks : (ticksTTL pf rr).toInt = pf.oneSecond := by
    rw [ticksTTL_of_le_one (by rw [httl]; exact le_refl 1), httl, toNat_one, Nat.cast_one,
      Int.one_mul]
  rw [remaining_of_age 1 h, toInt_sub_of_inS32] <;> rw [hticks, show (1 : Int32).toInt = 1 from rfl]
  exact ⟨by omega, by omega⟩

theorem flushRecord_spec (hf : ¬ IsFresh pf m (m.rrcache r2)) :
    remaining pf m ((flushRecord pf m r1 r2).rrcache r2) ≤ remaining pf m (m.rrcache r2) ∧
      remaining pf m ((flushRecord pf m r1 r2).rrcache r2) ≤ pf.oneSecond := by
  unfold flushRecord
  rw [if_neg hf]
  split
  · next hde =>
    have hnow : remaining pf m ((m.rrcache r2).setTTL 0) = 0 := by
      rw [remaining_of_goodbye (show ((m.rrcache r2).setTTL 0).timeRcvd = m.timenow from hde.1)
        UInt32.zero_le]
      exact Int.zero_mul _
    rw [setRecord_self, hnow, remaining_of_goodbye hde.1 hde.2.1]
    exact ⟨Int.mul_nonneg (Int.natCast_nonneg _) (Int.natCast_nonneg _), Int.natCast_nonneg _⟩
  · split
    · next hlong =>
      have hlong' : (pf.oneSecond : ℤ) < remaining pf m (m.rrcache r2) := by
        rw [← pf.toInt_second]
        exact Int32.lt_iff_toInt_lt.1 hlong
      rw [setRecord_self, remaining_of_marked rfl rfl]
      omega
    · next hshort =>
      refine ⟨le_rfl, ?_⟩
      rw [← pf.toInt_second]
      exact not_lt.1 (mt Int32.lt_iff_toInt_lt.2 hshort)

theorem flushRecord_eq : ∃ rr check event, flushRecord pf m r1 r2 =
        { m.setRecord r2 rr with nextCacheCheck := check, nextScheduledEvent := event } ∧
      rr.resrec = { (m.rrcache r2).resrec with rroriginalttl := rr.resrec.rroriginalttl } := by
  have hsame : m.setRecord r2 (m.rrcache r2) = m := by
    rw [setRecord, Function.update_eq_self]
  unfold flushRecord
  dsimp only
  split
  · refine ⟨_, m.nextCacheCheck, m.nextScheduledEvent, rfl, ?_⟩
    split <;> rfl
  · split
    · exact ⟨_, _, _, rfl, rfl⟩
    · split
      · exact ⟨_, m.nextCacheCheck, m.nextScheduledEvent, rfl, rfl⟩
      · exact ⟨m.rrcache r2, m.nextCacheCheck, m.nextScheduledEvent, by rw [hsame], rfl⟩

theorem Settles.flushRecord (m : MDNS) (r1 r2 : ℕ) : Settles pf m (flushRecord pf m r1 r2) := by
  obtain ⟨rr, check, event, heq, hresrec⟩ := flushRecord_eq
  rw [heq]
  refine Settles.setRecord rfl rfl rfl hresrec fun hf => ?_
  obtain ⟨hle, hsecond⟩ := flushRecord_spec hf
  rw [heq] at hle hsecond
  rw [setRecord_self] at hle hsecond
  exact Ages.of_le hle hsecond hf

theorem Settles.flushVisit (m : MDNS) (r1 r2 : ℕ) : Settles pf m (flushVisit pf r1 m r2) := by
  unfold Mdns.flushVisit
  split
  · exact (Settles.flushRecord m r1 r2).check r2
  · exact Settles.refl m

theorem remaining_flushVisit (hsig : SameSignature (m.rrcache r1).resrec (m.rrcache r2).resrec)
    (hf : ¬ IsFresh pf m (m.rrcache r2)) :
    remaining pf m ((flushVisit pf r1 m r2).rrcache r2) ≤ pf.oneSecond := by
  rw [flushVisit, if_pos hsig,
    remaining_congr (lifetime_setNextCheck pf (Mdns.flushRecord pf m r1 r2) r2 r2)]
  exact (flushRecord_spec hf).2

/-! ### The calls of the clients -/

theorem le_clampInterval (hsecond : pf.oneSecond ≤ 3 * 2 ^ 28) (interval : UInt32) :
    pf.oneSecond ≤ (clampInterval pf interval).toNat * 3 := by
  have hmin : (kMinimumReconfirmTime pf).toNat = pf.oneSecond * 5 := by
    rw [kMinimumReconfirmTime, UInt32.toNat_mul, pf.toNat_second]
    exact Nat.mod_eq_of_lt (by simp only [reduceToNat]; omega)
  have hclamp : ∀ x : UInt32, pf.oneSecond ≤ x.toNat →
      pf.oneSecond ≤ (if x > 0x10000000 then 0x10000000 else x).toNat * 3 := by
    intro x hx
    split
    · simpa [mul_comm] using hsecond
    · omega
  refine hclamp _ ?_
  split
  · omega
  · next h =>
    have := UInt32.le_iff_toNat_le.1 (UInt32.not_lt.1 h)
    omega

theorem not_isFresh_accelerate {interval : UInt32} (h : AccelerationExact pf m interval)
    (hsecond : pf.oneSecond ≤ interval.toNat * 3) :
    ¬ IsFresh pf m (accelerate pf m interval rr) := by
  rintro ⟨hage, -⟩
  have hsub : m.timenow - (accelerate pf m interval rr).timeRcvd = interval.toInt32 * 3 := by
    rw [accelerate]
    grind
  rw [hsub, Int32.lt_iff_toInt_lt, h.triple, pf.toInt_second] at hage
  omega

theorem Settles.reconfirm (hsecond : pf.oneSecond ≤ 3 * 2 ^ 28) {interval : UInt32}
    (h : Op.HasRoom pf m (.reconfirm r interval)) :
    Settles pf m (Op.onCache pf m (.reconfirm r interval)) := by
  obtain ⟨delay, random, heq⟩ := reconfirm_eq pf m interval r
  rw [Op.onCache, heq, Option.getD_some]
  split
  · next hlate =>
    refine Settles.check ?_ r
    refine Settles.setRecord rfl rfl rfl rfl fun hf => ?_
    have hreconfirms : Reconfirms pf m (m.setRecord r
        (accelerate pf m (reconfirmInterval pf m interval) (m.rrcache r))) r interval :=
      reconfirms_of_hasRoom (by rw [reconfirmed, if_pos hlate, setRecord_self]; exact ⟨rfl, rfl⟩)
        (h hf hlate)
    have hle := hreconfirms.notLater
    rw [setRecord_self] at hle
    refine ⟨hle, not_isFresh_accelerate (hreconfirms.acceleration hlate) ?_⟩
    have := le_clampInterval hsecond interval
    have := (reconfirm_bounds pf m interval).1
    omega
  · exact Settles.refl m

theorem Settles.purge (h : Op.HasRoom pf m (.purge r)) :
    Settles pf m (Op.onCache pf m (.purge r)) := by
  obtain ⟨hminute, hle⟩ := h
  refine Settles.check ?_ r
  refine Settles.setRecord rfl rfl rfl rfl ?_
  have hnew : remaining pf m { (m.rrcache r).setTTL 0 with
      timeRcvd := m.timenow - pf.second * 60, unansweredQueries := maxUnansweredQueries } =
      -(pf.oneSecond * 60) := by
    have hsixty : (pf.second * 60).toInt = pf.oneSecond * 60 := by
      rw [toInt_mul_of_inS32] <;> rw [pf.toInt_second, show (60 : Int32).toInt = 60 from rfl]
      exact ⟨by omega, by omega⟩
    have hticks : ticksTTL pf { (m.rrcache r).setTTL 0 with
        timeRcvd := m.timenow - pf.second * 60,
        unansweredQueries := maxUnansweredQueries } = 0 := Int32.zero_mul
    rw [remaining_of_age _ rfl, hticks, toInt_sub_of_inS32] <;>
      rw [hsixty, show (0 : Int32).toInt = 0 from rfl]
    · omega
    · exact ⟨by omega, by omega⟩
  refine Ages.of_le (hnew.trans_le hle) ?_
  rw [hnew]
  omega

theorem Settles.onCache (hsecond : pf.oneSecond ≤ 3 * 2 ^ 28) (m : MDNS) (op : Op)
    (h : op.HasRoom pf m) : Settles pf m (op.onCache pf m) := by
  cases op with
  | reconfirm r interval => exact Settles.reconfirm hsecond h
  | purge r => exact Settles.purge h
  | stop _ | start _ _ => exact Settles.refl m

theorem Settles.answer (m : MDNS) (r q : ℕ) (duplicateOf : Bool) :
    Settles pf m (m.answer pf r q duplicateOf) := by
  unfold MDNS.answer
  dsimp only
  split
  · refine Settles.check ?_ r
    exact .setRecord_sameLifetime ⟨rfl, rfl⟩
  · exact .setRecord_sameLifetime ⟨rfl, rfl⟩

theorem Settles.delay (m : MDNS) (r : ℕ) (delay : Int32) : Settles pf m (m.delay r delay) :=
  .setRecord_sameLifetime ⟨rfl, rfl⟩

theorem Settles.flushVisits (m : MDNS) (r1 : ℕ) : Settles pf m (flushVisits pf m r1) :=
  foldl_along Settles.refl (fun _ _ _ => Settles.trans) (fun m r2 => Settles.flushVisit m r1 r2) _ m

section

variable (hsecond : pf.oneSecond ≤ 3 * 2 ^ 28)
include hsecond

theorem Settles.cacheRecordDeferredAdd {d : Delivery} (h : d.HasRoom pf m r) :
    Settles pf m (cacheRecordDeferredAdd pf m d r) := by
  refine (Settles.delay m r 0).trans
    (h.foldl Settles.refl (fun _ _ _ => Settles.trans) fun m turn hcalls => ?_)
  refine (Settles.answer m r turn.1 (d.duplicateOf turn.2)).trans
    ((hcalls.foldl Settles.refl (fun _ _ _ => Settles.trans) (Settles.onCache hsecond)).trans ?_)
  exact .of_sameLifetime rfl rfl fun _ => ⟨rfl, rfl⟩

/-! ### The whole pass -/

theorem Settles.finishDelivery {d : Delivery} (h : (m.rrcache r1).delayDelivery ≠ 0 →
      soonToExpire pf m r1 = 0 → d.HasRoom pf (m.delay r1 0) r1) :
    Settles pf m (finishDelivery pf m d r1) := by
  unfold Mdns.finishDelivery
  dsimp only
  split
  · next hdelay =>
    split
    · next hsoon =>
      rw [hsoon]
      exact (Settles.delay m r1 0).trans (.cacheRecordDeferredAdd hsecond (h hdelay hsoon))
    · exact Settles.delay m r1 _
  · exact Settles.refl m

theorem Settles.flushTurn (m : MDNS) (turn : ℕ × Delivery) (h : TurnHasRoom pf m turn) :
    Settles pf m (flushTurn pf m turn) :=
  (Settles.flushVisits m turn.1).trans (Settles.finishDelivery hsecond h)

end

theorem IsStale.not_isFresh (h : IsStale pf m rr) : ¬ IsFresh pf m rr := fun hf => by
  have := Int32.lt_iff_toInt_lt.1 hf.1
  rw [pf.toInt_second] at this
  exact absurd this (not_lt.2 h)

def Dying (pf : Host) (now : Int32) (r : ℕ) (m : MDNS) : Prop :=
  m.timenow = now ∧ remaining pf m (m.rrcache r) ≤ pf.oneSecond

theorem Dying.settles {now : Int32} (m m' : MDNS) (h : Dying pf now r m)
    (hs : Settles pf m m') : Dying pf now r m' := by
  obtain ⟨hle, -⟩ := hs.ages r fun hf => absurd (lt_remaining_fresh hf) (not_lt.2 h.2)
  refine ⟨hs.timenow.trans h.1, ?_⟩
  rw [remaining_of_now hs.timenow]
  exact hle.trans h.2

theorem Settles.groupOf (h : Settles pf m m') (r1 : ℕ) : m'.groupOf r1 = m.groupOf r1 := by
  unfold MDNS.groupOf MDNS.cacheGroupForRecord MDNS.cacheGroupForName
  rw [h.groups, h.resrec r1]

theorem Settles.sameSignature (h : Settles pf m m')
    (hsig : SameSignature (m.rrcache r1).resrec (m.rrcache r2).resrec) :
    SameSignature (m'.rrcache r1).resrec (m'.rrcache r2).resrec := by
  rw [h.resrec r1, h.resrec r2]
  exact hsig

theorem dying_flushVisits (hmem : r2 ∈ m.groupOf r1)
    (hsig : SameSignature (m.rrcache r1).resrec (m.rrcache r2).resrec)
    (hf : ¬ IsFresh pf m (m.rrcache r2)) : Dying pf m.timenow r2 (flushVisits pf m r1) := by
  refine (eachTurn_true _ m).foldl_of_turn Settles.refl (fun _ _ _ => Settles.trans)
    (fun m r2 _ => Settles.flushVisit m r1 r2) hmem (fun t ht _ => ?_) Dying.settles
  have hf' : ¬ IsFresh pf t (t.rrcache r2) := mt (isFresh_of_now ht.timenow).1 (ht.ages r2 hf).2
  have hvisit := (Settles.flushVisit t r1 r2 : Settles pf t _).timenow
  refine ⟨hvisit.trans ht.timenow, ?_⟩
  rw [remaining_of_now hvisit]
  exact remaining_flushVisit (ht.sameSignature hsig) hf'

/-- The pass does not prolong a record that is stale or dying, and brings the stale records of a
flushed signature down to a second, if the calls of the clients have room. -/
theorem cacheFlushPass_expiry (pf : Host) (m : MDNS) (flushed : List (ℕ × Delivery))
    (hsecond : pf.oneSecond ≤ 3 * 2 ^ 28)
    (hroom : EachTurn (TurnHasRoom pf) (flushTurn pf) m flushed) : Flushes pf m flushed := by
  have hturn := Settles.flushTurn hsecond
  have hpass : Settles pf m (cacheFlushPass pf m flushed) :=
    hroom.foldl Settles.refl (fun _ _ _ => Settles.trans) hturn
  constructor
  · intro r hr
    refine (hpass.ages r ?_).1
    rcases hr with hstale | hdying
    · exact hstale.not_isFresh
    · exact fun hf => absurd (lt_remaining_fresh hf) (not_lt.2 hdying)
  · intro turn hmem r hr hsig hstale
    have hdying : Dying pf m.timenow r (cacheFlushPass pf m flushed) := by
      refine hroom.foldl_of_turn Settles.refl (fun _ _ _ => Settles.trans) hturn hmem
        (fun t ht hcalls => ?_) Dying.settles
      rw [← ht.timenow]
      exact Dying.settles _ _ (dying_flushVisits (ht.groupOf turn.1 ▸ hr) (ht.sameSignature hsig)
        (mt (isFresh_of_now ht.timenow).1 (ht.ages r hstale.not_isFresh).2))
        (Settles.finishDelivery hsecond hcalls)
    rw [← remaining_of_now hpass.timenow]
    exact hdying.2

def nameA : Mem := Mem.ofList [1, 97, 0]

def CacheRecord.ofA (rr : CacheRecord) (rrtype : UInt16) : CacheRecord :=
  { rr with resrec := { rr.resrec with
      name := nameA, rrtype := rrtype, namehash := domainNameHashValue nameA 0 } }

/-- Two records of the root, and two of the name `a.`, of which the first waits to be
delivered. -/
def flushCache (other : CacheRecord) : MDNS :=
  { idleCache other with
    rrcache := fun r =>
      if r = 0 then idleRecord 100000 120
      else if r = 1 then idleRecord 50000 120
      else if r = 2 then { (idleRecord 100000 120).ofA 1 with delayDelivery := 100500 }
      else other.ofA 12
    rrcacheHash := fun s =>
      [⟨0, [0, 1], Mem.ofList [0]⟩, ⟨domainNameHashValue nameA 0, [2, 3], nameA⟩].filter
        fun cg => hashSlot cg.name = s }

/-- A delivery to one question, the client of which reconfirms record 3. -/
def reconfirming : Delivery where
  questions := ⟨[0], none, none, fun _ => true⟩
  clients _ _ := ⟨[.reconfirm 3 5000], none⟩
  called := [0]
  walk := ⟨1, rfl⟩
  duplicateOf _ := false
  active _ r := if r = 2 then some 0 else none

/-- The old record of the root has a second behind the pass, and the one that is reconfirmed has
less than before. -/
theorem cacheFlushPass_twoNames : Flushes millisecondHost (flushCache (idleRecord 50000 120))
        [(0, reconfirming), (2, reconfirming)] ∧
      remaining millisecondHost (flushCache (idleRecord 50000 120)) ((cacheFlushPass
        millisecondHost (flushCache (idleRecord 50000 120))
          [(0, reconfirming), (2, reconfirming)]).rrcache 1) = 999 ∧
      remaining millisecondHost (flushCache (idleRecord 50000 120)) ((cacheFlushPass
        millisecondHost (flushCache (idleRecord 50000 120))
          [(0, reconfirming), (2, reconfirming)]).rrcache 3) = 6729 := by
  refine ⟨cacheFlushPass_expiry _ _ _ (by decide) ⟨fun h => ?_, ⟨fun _ _ => ⟨⟨fun _ _ => ?_,
    trivial⟩, trivial⟩, trivial⟩⟩, by decide +kernel, by decide +kernel⟩
  · exact absurd (by decide +kernel) h
  · exact ⟨by decide, by decide +kernel, by decide +kernel, ⟨by decide +kernel, by decide +kernel⟩,
      fun _ => ⟨by decide +kernel, by decide +kernel⟩⟩

/-- The client reconfirms a record with 6667 ticks left, which has 6729 behind the pass. -/
theorem not_flushes_reconfirmed :
    ¬ Flushes millisecondHost (flushCache (idleRecord 96667 10)) [(2, reconfirming)] := by
  intro h
  have hstale : IsStale millisecondHost (flushCache (idleRecord 96667 10))
      ((flushCache (idleRecord 96667 10)).rrcache 3) := by
    unfold IsStale
    decide
  have hle := h.notLater 3 (.inl hstale)
  revert hle
  decide +kernel

end Hexley.Mdns
