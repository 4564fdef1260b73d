import Hexley.Lib.Congruential
import Hexley.Mdns.Cache

/-!
Reconfirmation of a cached record.

`mDNS_Reconfirm_internal` gives a record that has much longer to live than
an interval a new time of receipt and a new time to live, such that three
quarters of the new lifetime are over and the interval, with up to a third
on top, is left. The time to live is in whole seconds, and is rounded up.

The rounding is not part of the test that comes before it. A record whose
remaining time is between four thirds of the interval and the new remaining
time is given more time than it had.
-/

namespace Hexley.Mdns

open Lib Dns UInt32 Option

/-! ### The generator -/

/-- `while (mask < max) mask = (mask << 1) | 1`. A mask of 32 bits is full after 32 turns. -/
def growMask (max : UInt32) : ℕ → UInt32 → UInt32
  | 0, mask => mask
  | fuel + 1, mask => if mask < max then growMask max fuel (mask <<< 1 ||| 1) else mask

/-- `do seed = seed * 21 + 1; while ((seed & mask) > max)`. -/
def drawMasked (mask max : UInt32) : ℕ → UInt32 → Option UInt32
  | 0, _ => none
  | fuel + 1, seed =>
    let seed := seed * 21 + 1
    if seed &&& mask > max then drawMasked mask max fuel seed else some (seed &&& mask)

/-- `mDNSRandomFromFixedSeed`. The bound on the turns is the period of the generator. -/
def mDNSRandomFromFixedSeed (seed max : UInt32) : Option UInt32 :=
  drawMasked (growMask max 32 1) max (2 ^ 32) seed

theorem toNat_shiftLeft_or_one {mask : UInt32} {k : ℕ} (hmask : mask.toNat = 2 ^ k - 1)
    (hk : k < 32) : (mask <<< 1 ||| 1).toNat = 2 ^ (k + 1) - 1 := by
  have hpos : 0 < 2 ^ k := Nat.two_pow_pos k
  have hle : 2 ^ k * 2 ≤ 2 ^ 31 * 2 := by
    have := Nat.pow_le_pow_right (n := 2) (by omega) (show k ≤ 31 by omega)
    omega
  have hshift : (mask <<< 1).toNat = 2 ^ 1 * (2 ^ k - 1) := by
    simp [Nat.shiftLeft_eq]
    omega
  rw [UInt32.toNat_or, hshift, UInt32.toNat_one, ← Nat.two_pow_add_eq_or_of_lt (by decide),
    pow_succ]
  omega

theorem growMask_spec (max : UInt32) (fuel k : ℕ) (mask : UInt32)
    (hmask : mask.toNat = 2 ^ k - 1) (hk : k ≤ 32) :
    ∃ k ≤ 32, (growMask max fuel mask).toNat = 2 ^ k - 1 := by
  induction fuel generalizing k mask with
  | zero => exact ⟨k, hk, hmask⟩
  | succ fuel ih =>
    rw [growMask]
    split
    · next hlt =>
      -- a full mask is below no word
      have hk' : k < 32 := by
        by_contra hne
        have hfull : k = 32 := by omega
        have := lt_iff_toNat_lt.1 hlt
        have := max.toNat_lt
        subst hfull
        omega
      exact ih (k + 1) _ (toNat_shiftLeft_or_one hmask hk') hk'
    · exact ⟨k, hk, hmask⟩

theorem drawMasked_of_zero (mask max : UInt32) (fuel n : ℕ) (seed : UInt32) (hn : n < fuel)
    (hzero : (fun s : UInt32 => s * 21 + 1)^[n + 1] seed &&& mask = 0) :
    ∃ r, drawMasked mask max fuel seed = some r ∧ r ≤ max := by
  induction fuel generalizing n seed with
  | zero => omega
  | succ fuel ih =>
    rw [drawMasked]
    split
    · next hgt =>
      cases n with
      | zero =>
        rw [Function.iterate_one] at hzero
        rw [hzero] at hgt
        exact absurd hgt (UInt32.not_lt.2 UInt32.zero_le)
      | succ n => exact ih n _ (by omega) (by rwa [Function.iterate_succ_apply] at hzero)
    · next hle => exact ⟨_, rfl, UInt32.not_lt.1 hle⟩

theorem toNat_iterate_seed (n : ℕ) (seed : UInt32) :
    ((fun s : UInt32 => s * 21 + 1)^[n] seed).toNat =
      (congruential 5 0)^[n] seed.toNat % 2 ^ 32 := by
  induction n with
  | zero => exact (Nat.mod_eq_of_lt seed.toNat_lt).symm
  | succ n ih =>
    rw [Function.iterate_succ_apply', Function.iterate_succ_apply', UInt32.toNat_add,
      UInt32.toNat_mul, ih, congruential]
    simp only [reduceToNat]
    omega

/-- The function returns, with a value that is not above its bound. -/
theorem randomFromSeed_spec (seed max : UInt32) :
    ∃ r, mDNSRandomFromFixedSeed seed max = some r ∧ r ≤ max := by
  obtain ⟨k, hk, hmask⟩ := growMask_spec max 32 1 1 rfl (by decide)
  obtain ⟨n, hn, hdvd⟩ := congruential_meets_zero 5 0 k seed.toNat
  have hpow : 2 ^ k ∣ 2 ^ 32 := Nat.pow_dvd_pow 2 hk
  refine drawMasked_of_zero _ max _ n seed (lt_of_lt_of_le hn (Nat.le_of_dvd (by decide) hpow)) ?_
  rw [← UInt32.toNat_inj, UInt32.toNat_and, toNat_iterate_seed, hmask,
    Nat.and_two_pow_sub_one_eq_mod, Nat.mod_mod_of_dvd _ hpow, Nat.mod_eq_zero_of_dvd hdvd]
  rfl

/-! ### The function -/

section

variable (pf : Host) (m : MDNS) (interval : UInt32)

def kMinimumReconfirmTime : UInt32 := pf.second.toUInt32 * 5

def clampInterval : UInt32 :=
  let interval := if interval < kMinimumReconfirmTime pf then kMinimumReconfirmTime pf else interval
  if interval > 0x10000000 then 0x10000000 else interval

/-- The step that sets `RandomReconfirmDelay` if it is zero. -/
def MDNS.pickReconfirmDelay : MDNS :=
  if m.randomReconfirmDelay = 0 then
    let (r, m) := m.mDNSRandom 0x3FFFFFFF
    { m with randomReconfirmDelay := 1 + r }
  else m

/-- The record that has `interval` left of a lifetime of four times as long. -/
def accelerate (rr : CacheRecord) : CacheRecord :=
  { rr with
    timeRcvd := m.timenow - interval.toInt32 * 3
    resrec := { rr.resrec with
      rroriginalttl := (interval * 4 + pf.second.toUInt32 - 1) / pf.second.toUInt32 } }

def mDNSReconfirmInternal (id : ℕ) : Option MDNS :=
  let interval := clampInterval pf interval
  if rrExpireTime pf (m.rrcache id) - m.timenow > (interval * 4 / 3).toInt32 then do
    let m := m.pickReconfirmDelay
    let extra ← mDNSRandomFromFixedSeed m.randomReconfirmDelay (interval / 3)
    let m := m.setRecord id (accelerate pf m (interval + extra) (m.rrcache id))
    some (setNextCacheCheckTime pf m id)
  else some m

def reconfirmInterval : UInt32 :=
  clampInterval pf interval + (mDNSRandomFromFixedSeed m.pickReconfirmDelay.randomReconfirmDelay
      (clampInterval pf interval / 3)).getD 0

def expiresLate (rr : CacheRecord) : Prop :=
  rrExpireTime pf rr - m.timenow > (clampInterval pf interval * 4 / 3).toInt32

instance (rr : CacheRecord) : Decidable (expiresLate pf m interval rr) :=
  inferInstanceAs (Decidable (_ < _))

theorem clampInterval_le : (clampInterval pf interval).toNat ≤ 2 ^ 28 := by
  have hmin : ∀ x : UInt32, (if x > 0x10000000 then 0x10000000 else x).toNat ≤ 2 ^ 28 := by
    intro x
    split
    · decide
    · next h => exact UInt32.le_iff_toNat_le.1 (UInt32.not_lt.1 h)
  exact hmin _

theorem reconfirm_bounds :
    (clampInterval pf interval).toNat ≤ (reconfirmInterval pf m interval).toNat ∧
      (reconfirmInterval pf m interval).toNat ≤
        (clampInterval pf interval).toNat + (clampInterval pf interval).toNat / 3 := by
  obtain ⟨r, hr, hle⟩ := randomFromSeed_spec
    m.pickReconfirmDelay.randomReconfirmDelay (clampInterval pf interval / 3)
  have hle' : r.toNat ≤ (clampInterval pf interval).toNat / 3 := by
    simpa using le_iff_toNat_le.1 hle
  have hc := clampInterval_le pf interval
  rw [reconfirmInterval, hr, getD_some, UInt32.toNat_add, Nat.mod_eq_of_lt (by omega)]
  omega

theorem pickReconfirmDelay_eq : ∃ delay random, m.pickReconfirmDelay =
      { m with randomReconfirmDelay := delay, random := random } := by
  unfold MDNS.pickReconfirmDelay
  split
  · exact ⟨_, _, rfl⟩
  · exact ⟨m.randomReconfirmDelay, m.random, rfl⟩

theorem reconfirm_eq (id : ℕ) : ∃ delay random, mDNSReconfirmInternal pf m interval id =
    some (if expiresLate pf m interval (m.rrcache id) then
        setNextCacheCheckTime pf
          (MDNS.setRecord { m with randomReconfirmDelay := delay, random := random } id
            (accelerate pf m (reconfirmInterval pf m interval) (m.rrcache id))) id
      else m) := by
  obtain ⟨r, hr, -⟩ := randomFromSeed_spec
    m.pickReconfirmDelay.randomReconfirmDelay (clampInterval pf interval / 3)
  have hi : clampInterval pf interval + r = reconfirmInterval pf m interval := by
    rw [reconfirmInterval, hr, getD_some]
  obtain ⟨delay, random, hpick⟩ := pickReconfirmDelay_eq m
  refine ⟨delay, random, ?_⟩
  unfold mDNSReconfirmInternal
  dsimp only
  by_cases h : expiresLate pf m interval (m.rrcache id)
  · rw [if_pos (show _ > _ from h), if_pos h, hr, bind_eq_bind, bind_some, hi, hpick]
    rfl
  · rw [if_neg (show ¬ _ > _ from h), if_neg h]

/-- What becomes of the lifetime of a record. -/
def reconfirmed (rr : CacheRecord) : CacheRecord :=
  if expiresLate pf m interval rr then accelerate pf m (reconfirmInterval pf m interval) rr else rr

theorem reconfirm_spec (id : ℕ) : ∃ m', mDNSReconfirmInternal pf m interval id = some m' ∧
      SameLifetime (reconfirmed pf m interval (m.rrcache id)) (m'.rrcache id) := by
  obtain ⟨delay, random, h⟩ := reconfirm_eq pf m interval id
  refine ⟨_, h, ?_⟩
  unfold reconfirmed
  split
  · have hset := lifetime_setNextCheck pf
      (MDNS.setRecord { m with randomReconfirmDelay := delay, random := random } id
        (accelerate pf m (reconfirmInterval pf m interval) (m.rrcache id))) id id
    rwa [MDNS.setRecord_self] at hset
  · exact ⟨rfl, rfl⟩

end

/-! ### Exact arithmetic -/

section

variable (pf : Host) (m : MDNS) {rr rr' : CacheRecord}

def expiry (rr : CacheRecord) : ℤ :=
  rr.timeRcvd.toInt + rr.resrec.rroriginalttl.toNat * pf.oneSecond

/-- `RRExpireTime(rr) - m->timenow` is computed without overflow. -/
structure LifetimeExact (rr : CacheRecord) : Prop where
  ticks : (ticksTTL pf rr).toInt = rr.resrec.rroriginalttl.toNat * pf.oneSecond
  expire : (rrExpireTime pf rr).toInt = expiry pf rr
  left : remaining pf m rr = expiry pf rr - m.timenow.toInt

structure AccelerationExact (interval : UInt32) : Prop where
  triple : (interval.toInt32 * 3).toInt = interval.toNat * 3
  backdated : (m.timenow - interval.toInt32 * 3).toInt = m.timenow.toInt - interval.toNat * 3
  rounded : (interval * 4 + pf.second.toUInt32 - 1).toNat = interval.toNat * 4 + pf.oneSecond - 1

/-- What reconfirming a record is to do to its lifetime. -/
structure Reconfirms (m' : MDNS) (id : ℕ) (interval : UInt32) : Prop where
  /-- The record does not expire later than before. -/
  notLater : remaining pf m (m'.rrcache id) ≤ remaining pf m (m.rrcache id)
  /-- If it expires at another time, the interval is left. -/
  atLeast : rrExpireTime pf (m'.rrcache id) ≠ rrExpireTime pf (m.rrcache id) →
    ((clampInterval pf interval).toNat : ℤ) ≤ remaining pf m (m'.rrcache id)
  minimum : (kMinimumReconfirmTime pf).toNat = pf.oneSecond * 5
  threshold : (clampInterval pf interval * 4).toNat = (clampInterval pf interval).toNat * 4
  before : LifetimeExact pf m (m.rrcache id)
  acceleration : expiresLate pf m interval (m.rrcache id) →
    AccelerationExact pf m (reconfirmInterval pf m interval)
  after : LifetimeExact pf m (m'.rrcache id)

/-- The lifetime of a record that `interval` is left of, in whole seconds. -/
def roundedLifetime (interval : ℕ) : ℕ :=
  (interval * 4 + pf.oneSecond - 1) / pf.oneSecond * pf.oneSecond

/-- The states in which a record is reconfirmed as it should be. -/
structure HasRoom (rr : CacheRecord) (interval : UInt32) : Prop where
  second : pf.oneSecond * 5 < 2 ^ 32
  /-- The time to live in ticks is a positive signed word. -/
  ticks : rr.resrec.rroriginalttl.toNat * pf.oneSecond < 2 ^ 31
  /-- The clock does not go round before the record expires. -/
  expire : expiry pf rr < 2 ^ 31
  left : InS32 (expiry pf rr - m.timenow.toInt)
  /-- If more than four thirds of the interval are left, the new time of receipt is on this
  round of the clock, and what is left is no less than what the rounding up gives. -/
  accelerated : ((clampInterval pf interval).toNat * 4 / 3 : ℕ) < expiry pf rr - m.timenow.toInt →
      -2 ^ 31 ≤ m.timenow.toInt - (reconfirmInterval pf m interval).toNat * 3 ∧
        roundedLifetime pf (reconfirmInterval pf m interval).toNat -
          ((reconfirmInterval pf m interval).toNat * 3 : ℤ) ≤ expiry pf rr - m.timenow.toInt

variable {pf m}

theorem lifetimeExact_iff : LifetimeExact pf m rr ↔
      rr.resrec.rroriginalttl.toNat * pf.oneSecond < 2 ^ 31 ∧ expiry pf rr < 2 ^ 31 ∧
        InS32 (expiry pf rr - m.timenow.toInt) := by
  constructor
  · intro h
    refine ⟨?_, ?_, ?_⟩
    · have := (inS32_toInt (ticksTTL pf rr)).2
      rw [h.ticks] at this
      exact_mod_cast this
    · rw [← h.expire]
      exact (inS32_toInt _).2
    · rw [← h.left]
      exact inS32_toInt _
  · rintro ⟨hticks, hexpire, hleft⟩
    have hticks' : ((rr.resrec.rroriginalttl.toNat * pf.oneSecond : ℕ) : ℤ) < 2 ^ 31 := by
      exact_mod_cast hticks
    have hcast : rr.resrec.rroriginalttl.toNat < 2 ^ 31 :=
      lt_of_le_of_lt (Nat.le_mul_of_pos_right _ pf.oneSecond_pos) hticks
    have ht : (ticksTTL pf rr).toInt = rr.resrec.rroriginalttl.toNat * pf.oneSecond := by
      rw [ticksTTL, toInt_mul_of_inS32] <;> rw [toInt_toInt32_of_lt hcast, pf.toInt_second]
      exact ⟨by omega, hticks'⟩
    have he : (rrExpireTime pf rr).toInt = expiry pf rr := by
      have := (inS32_toInt rr.timeRcvd).1
      rw [rrExpireTime, toInt_add_of_inS32] <;> rw [ht]
      · rfl
      · exact ⟨by omega, hexpire⟩
    refine ⟨ht, he, ?_⟩
    rw [remaining, toInt_sub_of_inS32] <;> rw [he]
    exact hleft

theorem expiry_congr (h : SameLifetime rr rr') : expiry pf rr' = expiry pf rr := by
  rw [expiry, expiry, h.1, h.2]

theorem LifetimeExact.congr (h : SameLifetime rr rr') (hl : LifetimeExact pf m rr) :
    LifetimeExact pf m rr' := by
  rw [lifetimeExact_iff] at hl ⊢
  rwa [expiry_congr h, h.2]

theorem le_roundedLifetime (pf : Host) (n : ℕ) :
    n * 4 ≤ roundedLifetime pf n ∧ roundedLifetime pf n < n * 4 + pf.oneSecond := by
  have hpos := pf.oneSecond_pos
  have hdiv := Nat.div_add_mod (n * 4 + pf.oneSecond - 1) pf.oneSecond
  have hmod := Nat.mod_lt (n * 4 + pf.oneSecond - 1) hpos
  rw [mul_comm] at hdiv
  unfold roundedLifetime
  omega

theorem roundedLifetime_lt (hsecond : pf.oneSecond * 5 < 2 ^ 32) {n : ℕ}
    (hn : n ≤ 2 ^ 28 + 2 ^ 28 / 3) : roundedLifetime pf n < 2 ^ 31 := by
  obtain ⟨-, hup⟩ := le_roundedLifetime pf n
  obtain ⟨q, hq⟩ : ∃ q, roundedLifetime pf n = q * pf.oneSecond := ⟨_, rfl⟩
  match q with
  | 0 => omega
  | 1 => omega
  | 2 => omega
  | q + 3 =>
    -- from the third second on the rounding adds at most half of the lifetime
    have h3 : (q + 3) * pf.oneSecond = q * pf.oneSecond + 3 * pf.oneSecond := by ring
    omega

theorem expiresLate_iff {interval : UInt32} (h : LifetimeExact pf m rr) :
    expiresLate pf m interval rr ↔
      ((clampInterval pf interval).toNat * 4 / 3 : ℕ) < expiry pf rr - m.timenow.toInt := by
  have hc := clampInterval_le pf interval
  have hval : (clampInterval pf interval * 4 / 3).toNat =
      (clampInterval pf interval).toNat * 4 / 3 := by
    rw [UInt32.toNat_div, UInt32.toNat_mul]
    simp only [reduceToNat]
    omega
  rw [expiresLate, gt_iff_lt, Int32.lt_iff_toInt_lt, toInt_toInt32_of_lt (by omega), hval, ← h.left]
  rfl

section

variable {i : UInt32}

theorem acceleration_iff (hi : i.toNat ≤ 2 ^ 28 + 2 ^ 28 / 3) :
    AccelerationExact pf m i ↔ -2 ^ 31 ≤ m.timenow.toInt - i.toNat * 3 := by
  have hcast : i.toInt32.toInt = i.toNat := toInt_toInt32_of_lt (by omega)
  have htriple : (i.toInt32 * 3).toInt = i.toNat * 3 := by
    rw [toInt_mul_of_inS32] <;> rw [hcast, show (3 : Int32).toInt = 3 from rfl]
    exact ⟨by omega, by omega⟩
  have hnow := inS32_toInt m.timenow
  constructor
  · intro h
    rw [← h.backdated]
    exact (inS32_toInt _).1
  · intro h
    refine ⟨htriple, ?_, ?_⟩
    · rw [toInt_sub_of_inS32] <;> rw [htriple]
      exact ⟨h, by have := hnow.2; omega⟩
    · have hpos := pf.oneSecond_pos
      have hlt := pf.oneSecond_lt
      have hsum : (i * 4 + pf.second.toUInt32).toNat = i.toNat * 4 + pf.oneSecond := by
        rw [UInt32.toNat_add, UInt32.toNat_mul, pf.toNat_second]
        simp only [reduceToNat]
        omega
      rw [UInt32.toNat_sub_of_le _ _ (UInt32.le_iff_toNat_le.2 (by rw [hsum]; simp; omega)), hsum]
      rfl

theorem ticks_accelerate (h : AccelerationExact pf m i) (rr : CacheRecord) :
    (accelerate pf m i rr).resrec.rroriginalttl.toNat * pf.oneSecond =
      roundedLifetime pf i.toNat := by
  rw [accelerate]
  rw [UInt32.toNat_div, h.rounded, pf.toNat_second, roundedLifetime]

theorem expiry_accelerate (h : AccelerationExact pf m i) (rr : CacheRecord) :
    expiry pf (accelerate pf m i rr) =
      m.timenow.toInt - i.toNat * 3 + roundedLifetime pf i.toNat := by
  rw [expiry, ← ticks_accelerate h rr, Nat.cast_mul, ← h.backdated]
  rfl

end

section

variable {m' : MDNS} {id : ℕ} {interval : UInt32}

theorem reconfirm_le (pf : Host) (m : MDNS) (interval : UInt32) :
    (reconfirmInterval pf m interval).toNat ≤ 2 ^ 28 + 2 ^ 28 / 3 := by
  have hc := clampInterval_le pf interval
  have hi := (reconfirm_bounds pf m interval).2
  omega

section

variable (hsame : SameLifetime (reconfirmed pf m interval (m.rrcache id)) (m'.rrcache id))
include hsame

theorem hasRoom_of_reconfirms (h : Reconfirms pf m m' id interval) :
    HasRoom pf m (m.rrcache id) interval := by
  obtain ⟨hticks, hexpire, hleft⟩ := lifetimeExact_iff.1 h.before
  refine ⟨h.minimum ▸ toNat_lt _, hticks, hexpire, hleft, fun hlt => ?_⟩
  have hlate := (expiresLate_iff h.before).2 hlt
  have hacc := h.acceleration hlate
  refine ⟨(acceleration_iff (reconfirm_le pf m interval)).1 hacc, ?_⟩
  rw [reconfirmed, if_pos hlate] at hsame
  have hnew := expiry_accelerate hacc (m.rrcache id)
  have hle := h.notLater
  rw [h.after.left, h.before.left, expiry_congr hsame, hnew] at hle
  omega

theorem reconfirms_of_hasRoom (h : HasRoom pf m (m.rrcache id) interval) :
    Reconfirms pf m m' id interval := by
  have hbefore : LifetimeExact pf m (m.rrcache id) :=
    lifetimeExact_iff.2 ⟨h.ticks, h.expire, h.left⟩
  have hc := clampInterval_le pf interval
  have hminimum : (kMinimumReconfirmTime pf).toNat = pf.oneSecond * 5 := by
    rw [kMinimumReconfirmTime, UInt32.toNat_mul, pf.toNat_second]
    exact Nat.mod_eq_of_lt h.second
  have hthreshold : (clampInterval pf interval * 4).toNat =
      (clampInterval pf interval).toNat * 4 := by
    rw [UInt32.toNat_mul]
    exact Nat.mod_eq_of_lt (by simp only [reduceToNat]; omega)
  by_cases hlate : expiresLate pf m interval (m.rrcache id)
  · obtain ⟨hback, hroom⟩ := h.accelerated ((expiresLate_iff hbefore).1 hlate)
    have hi := reconfirm_le pf m interval
    have hacc : AccelerationExact pf m (reconfirmInterval pf m interval) :=
      (acceleration_iff hi).2 hback
    have hnew := expiry_accelerate hacc (m.rrcache id)
    have hlower := (le_roundedLifetime pf (reconfirmInterval pf m interval).toNat).1
    have hci := (reconfirm_bounds pf m interval).1
    have hexpire := h.expire
    have hleft := h.left.2
    rw [reconfirmed, if_pos hlate] at hsame
    have hafter : LifetimeExact pf m (m'.rrcache id) := by
      refine LifetimeExact.congr hsame (lifetimeExact_iff.2 ⟨?_, ?_, ?_, ?_⟩)
      · rw [ticks_accelerate hacc]
        exact roundedLifetime_lt h.second hi
      · omega
      · omega
      · omega
    have hremaining : remaining pf m (m'.rrcache id) =
        roundedLifetime pf (reconfirmInterval pf m interval).toNat -
          ((reconfirmInterval pf m interval).toNat * 3 : ℤ) := by
      rw [hafter.left, expiry_congr hsame, hnew]
      omega
    refine ⟨?_, fun _ => ?_, hminimum, hthreshold, hbefore, fun _ => hacc, hafter⟩
    · rw [hremaining, hbefore.left]
      exact hroom
    · omega
  · rw [reconfirmed, if_neg hlate] at hsame
    refine ⟨(remaining_congr hsame).le, fun hne => ?_, hminimum, hthreshold, hbefore,
      fun hl => absurd hl hlate, hbefore.congr hsame⟩
    exact absurd (rrExpireTime_congr hsame) hne

end

end

/-- Reconfirming a record does not postpone its expiry, leaves it the interval and overflows
nowhere, exactly in the states that have room for the new lifetime. -/
theorem mDNSReconfirmInternal_iff (pf : Host) (m : MDNS) (id : ℕ) (interval : UInt32) :
    (∃ m', mDNSReconfirmInternal pf m interval id = some m' ∧
      Reconfirms pf m m' id interval) ↔ HasRoom pf m (m.rrcache id) interval := by
  obtain ⟨m', hm', hsame⟩ := reconfirm_spec pf m interval id
  constructor
  · rintro ⟨m'', hm'', h⟩
    obtain rfl : m' = m'' := some.inj (hm'.symm.trans hm'')
    exact hasRoom_of_reconfirms hsame h
  · intro h
    exact ⟨m', hm', reconfirms_of_hasRoom hsame h⟩

end

/-! ### A record that is given more time -/

/-- A record with a time to live of two minutes that has just come in is reconfirmed as it
should be. -/
theorem mDNSReconfirmInternal_longLived :
    ∃ m', mDNSReconfirmInternal millisecondHost (idleCache (idleRecord 100000 120)) 0 0 = some m' ∧
      Reconfirms millisecondHost (idleCache (idleRecord 100000 120)) m' 0 0 :=
  (mDNSReconfirmInternal_iff _ _ 0 0).2
    ⟨by decide, by decide, by decide, ⟨by decide, by decide⟩, fun _ =>
      ⟨by decide +kernel, by decide +kernel⟩⟩

theorem remaining_reconfirm_soon :
    remaining millisecondHost (idleCache (idleRecord 96667 10)) (idleRecord 96667 10) = 6667 ∧
      (mDNSReconfirmInternal millisecondHost (idleCache (idleRecord 96667 10)) 0 0).map
        (fun m' => remaining millisecondHost (idleCache (idleRecord 96667 10)) (m'.rrcache 0)) =
          some 6729 :=
  ⟨by decide, by decide +kernel⟩

/-- Reconfirming postpones the expiry of this record. -/
theorem not_reconfirms_soon :
    ¬ ∃ m', mDNSReconfirmInternal millisecondHost (idleCache (idleRecord 96667 10)) 0 0 = some m' ∧
      Reconfirms millisecondHost (idleCache (idleRecord 96667 10)) m' 0 0 := by
  rintro ⟨m', hm', h⟩
  obtain ⟨hbefore, hafter⟩ := remaining_reconfirm_soon
  rw [hm', map_some, some.injEq] at hafter
  have hle := h.notLater
  rw [hafter, show (idleCache (idleRecord 96667 10)).rrcache 0 = idleRecord 96667 10 from rfl,
    hbefore] at hle
  omega

end Hexley.Mdns
