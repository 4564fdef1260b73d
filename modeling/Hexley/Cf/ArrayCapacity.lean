import Hexley.Lib.Shift

/-!
The deque of a mutable `CFArray`, and `_CFArraySetCapacity`.

Of the other operations only what they do to the shape of an array is modelled:
its count, its representation and the fields of its deque. What they leave in
the buckets is open; it is an argument.
-/

namespace Hexley.Cf

open Lib Option

/-- A block with the header of a deque and `capacity` buckets. -/
structure Deque (α : Type) where
  leftIdx : ℕ
  capacity : ℕ
  bias : ℤ
  buckets : ℕ → α

/-- What `_store` points to. -/
inductive Store (α : Type)
  | null
  | deque (d : Deque α)
  | storage (values : ℕ → α)

structure MutableArray (α : Type) where
  count : ℕ
  store : Store α

variable {α : Type}

def maxBucketsPerDeque : ℕ := 262140

def dequeRoundUpCapacity (capacity : ℕ) : Option ℕ :=
  if capacity < 4 then some 4
  else do return (min (← shiftInt (flsl capacity)) maxBucketsPerDeque).toNat

/-- A new block with `count` values in its middle. -/
def Deque.centered (contents : ℕ → α) (count cap : ℕ) : Option (Deque α) := do
  let capacity ← dequeRoundUpCapacity cap
  return ⟨(capacity - count) / 2, capacity, 0, contents⟩

def Deque.repositionRegions (d : Deque α) (contents : ℕ → α) (cnt location length newCount : ℕ) :
    Option (Deque α) :=
  let futureCnt : ℕ := cnt - length + newCount
  let l : ℤ := d.leftIdx
  let a : ℤ := location
  let c : ℤ := cnt - length - location
  let r : ℤ := d.capacity - cnt - d.leftIdx
  let numNewElems : ℤ := newCount - length
  let wiggle : ℕ := max (d.capacity / 2 ^ 17) 4
  if d.capacity < futureCnt ∨ cnt < futureCnt ∧ l + r < wiggle then
    centered contents futureCnt (futureCnt + wiggle)
  else if numNewElems < 0 ∧ c < a ∨ numNewElems ≤ r ∧ c < a then
    some { d with buckets := contents }
  else if numNewElems < 0 ∨ numNewElems ≤ l ∧ a ≤ c then
    some { d with leftIdx := (l - numNewElems).toNat, buckets := contents }
  else
    let newL := (l + r - numNewElems) / 2
    let newBias := if newL < l then -1 else 1
    let newL :=
      if d.bias < 0 then newL - newL / 2 else if 0 < d.bias then newL + newL / 2 else newL
    some { d with leftIdx := newL.toNat, bias := newBias, buckets := contents }

namespace MutableArray

/-- `CFArrayCreateMutable`, and what `CFArrayRemoveAllValues` leaves. -/
def create : MutableArray α := ⟨0, .null⟩

def write (array : MutableArray α) (contents : ℕ → α) : MutableArray α :=
  match array.store with
  | .null => array
  | .deque d => ⟨array.count, .deque { d with buckets := contents }⟩
  | .storage _ => ⟨array.count, .storage contents⟩

/-- `_CFArrayReplaceValues`, by which values are added, inserted and removed. -/
def replaceValues (array : MutableArray α) (contents : ℕ → α) (location length newCount : ℕ) :
    Option (MutableArray α) :=
  let futureCnt := array.count - length + newCount
  MutableArray.mk futureCnt <$> match array.store with
  | .storage _ =>
    if futureCnt ≤ maxBucketsPerDeque / 2 then
      -- `__CFArrayConvertStoreToDeque`
      .deque <$> Deque.centered contents futureCnt (futureCnt + 6)
    else some (.storage contents)
  | .null =>
    if maxBucketsPerDeque ≤ futureCnt then some (.storage contents)
    else .deque <$> Deque.centered contents newCount futureCnt
  | .deque d =>
    if maxBucketsPerDeque ≤ futureCnt then some (.storage contents)
    else if length ≠ newCount then
      .deque <$> d.repositionRegions contents array.count location length newCount
    else some (.deque { d with buckets := contents })

/-- `_CFArraySetCapacity`, with what the new block holds at first. It has no
result if the copy does not fit into the block or a shift is undefined. -/
def setCapacity (array : MutableArray α) (fresh : ℕ → α) (cap : ℕ) : Option (MutableArray α) :=
  match array.store with
  | .storage _ => some array
  | .null => do
      let capacity ← dequeRoundUpCapacity cap
      return ⟨array.count, .deque ⟨capacity / 2, capacity, 0, fresh⟩⟩
  | .deque d => do
      let capacity ← dequeRoundUpCapacity cap
      -- The header and all buckets of the old block are moved.
      if d.capacity ≤ capacity then
        return ⟨array.count, .deque ⟨d.leftIdx, capacity, 0, fun i =>
          if i < d.capacity then d.buckets i else fresh i⟩⟩
      else none

inductive Reachable : MutableArray α → Prop
  | create : Reachable create
  | write {array} (contents) : Reachable array → Reachable (array.write contents)
  | replaceValues {array array'} {contents} {location length newCount : ℕ} :
      Reachable array → location + length ≤ array.count →
      array.replaceValues contents location length newCount = some array' → Reachable array'
  | setCapacity {array array'} {fresh} {cap : ℕ} :
      Reachable array → array.setCapacity fresh cap = some array' → Reachable array'

def valueAt (array : MutableArray α) (i : ℕ) : Option α :=
  match array.store with
  | .null => none
  | .deque d => some (d.buckets (d.leftIdx + i))
  | .storage values => some (values i)

def Fits (array : MutableArray α) : Prop :=
  match array.store with
  | .null => array.count = 0
  | .deque d => d.leftIdx + array.count ≤ d.capacity
  | .storage _ => True

/-- The call writes only inside of the new block and keeps the values. -/
def Harmless (array : MutableArray α) (fresh : ℕ → α) (cap : ℕ) : Prop :=
  ∃ array', array.setCapacity fresh cap = some array' ∧ array'.count = array.count ∧
    (∀ i < array.count, array'.valueAt i = array.valueAt i) ∧ array'.Fits

/-- A deque has no more buckets than what the new capacity is rounded to, and
the new capacity is less than `2 ^ 30`. -/
def Suits (array : MutableArray α) (cap : ℕ) : Prop :=
  match array.store with
  | .null => cap < 2 ^ 30
  | .deque d => cap < 2 ^ 30 ∧ d.capacity ≤ max 4 (min (2 ^ (cap.log2 + 1)) maxBucketsPerDeque)
  | .storage _ => True

instance (array : MutableArray α) (cap : ℕ) : Decidable (array.Suits cap) := by
  unfold Suits
  split <;> infer_instance

end MutableArray

theorem roundUpCapacity_eq (capacity : ℕ) :
    dequeRoundUpCapacity capacity = if capacity < 2 ^ 30 then
      some (max 4 (min (2 ^ (capacity.log2 + 1)) maxBucketsPerDeque)) else none := by
  by_cases hsmall : capacity < 4
  · have : capacity.log2 + 1 ≤ 2 := by
      by_cases h0 : capacity = 0
      · simp [h0]
      · exact (Nat.log2_lt h0).mpr hsmall
    have := Nat.pow_le_pow_right (n := 2) (by omega) this
    simp only [dequeRoundUpCapacity, hsmall, if_true]
    rw [if_pos (by omega), max_eq_left (by omega)]
  · have h0 : capacity ≠ 0 := by omega
    have hpow := Nat.lt_log2_self (n := capacity)
    have hlog : capacity.log2 < 30 ↔ capacity < 2 ^ 30 := Nat.log2_lt h0
    rw [dequeRoundUpCapacity, if_neg hsmall, shiftInt, flsl, if_neg h0]
    by_cases hbig : capacity < 2 ^ 30
    · rw [if_pos (by omega), if_pos hbig]
      simp only [bind_eq_bind, bind_some, pure_def, some.injEq, maxBucketsPerDeque]
      omega
    · rw [if_neg (by omega), if_neg hbig]
      rfl

theorem Deque.centered_fits {d : Deque α} {contents : ℕ → α} {count cap : ℕ}
    (h : centered contents count cap = some d) (hcap : count ≤ cap)
    (hmax : count ≤ maxBucketsPerDeque) : d.leftIdx + count ≤ d.capacity := by
  have hpow := Nat.lt_log2_self (n := cap)
  rw [centered, roundUpCapacity_eq] at h
  split at h
  · obtain rfl := some.inj h
    simp only
    omega
  · cases h

theorem Deque.repositionRegions_fits {d d' : Deque α} {contents : ℕ → α}
    {cnt location length newCount : ℕ} (hfits : d.leftIdx + cnt ≤ d.capacity)
    (hrange : location + length ≤ cnt) (hmax : cnt - length + newCount ≤ maxBucketsPerDeque)
    (h : d.repositionRegions contents cnt location length newCount = some d') :
    d'.leftIdx + (cnt - length + newCount) ≤ d'.capacity := by
  rw [repositionRegions] at h
  split at h
  · exact centered_fits h (Nat.le_add_right _ _) hmax
  split at h
  · obtain rfl := some.inj h
    simp only
    omega
  split at h <;> obtain rfl := some.inj h
  · simp only
    omega
  · simp only
    split <;> try split
    all_goals omega

namespace MutableArray

theorem fits_of_deque {o : Option (Deque α)} {n : ℕ} {array' : MutableArray α}
    (h : MutableArray.mk n <$> Store.deque <$> o = some array')
    (hd : ∀ d, o = some d → d.leftIdx + n ≤ d.capacity) : array'.Fits := by
  cases o with
  | none => cases h
  | some d =>
    obtain rfl := some.inj h
    exact hd d rfl

theorem replaceValues_fits {array array' : MutableArray α} {contents : ℕ → α}
    {location length newCount : ℕ} (hfits : array.Fits) (hrange : location + length ≤ array.count)
    (h : array.replaceValues contents location length newCount = some array') : array'.Fits := by
  obtain ⟨count, store⟩ := array
  cases store with
  | storage values =>
    simp only [replaceValues] at h
    split at h
    · exact fits_of_deque h fun d hd => Deque.centered_fits hd (Nat.le_add_right _ _) (by omega)
    · obtain rfl := some.inj h
      trivial
  | null =>
    obtain rfl : count = 0 := hfits
    simp only [replaceValues, Nat.zero_sub, Nat.zero_add] at h
    split at h
    · obtain rfl := some.inj h
      trivial
    · exact fits_of_deque h fun d hd => Deque.centered_fits hd le_rfl (by omega)
  | deque d =>
    simp only [replaceValues] at h
    split at h
    · obtain rfl := some.inj h
      trivial
    split at h
    · exact fits_of_deque h fun d' => Deque.repositionRegions_fits hfits hrange (by omega)
    · obtain rfl := some.inj h
      simp only [Fits] at *
      omega

variable {array : MutableArray α}

theorem setCapacity_spec (hfits : array.Fits) (fresh : ℕ → α) (cap : ℕ) :
    array.Suits cap ∧ array.Harmless fresh cap ∨
      ¬ array.Suits cap ∧ array.setCapacity fresh cap = none := by
  obtain ⟨count, store⟩ := array
  cases store with
  | storage values => exact .inl ⟨trivial, _, rfl, rfl, fun _ _ => rfl, trivial⟩
  | null =>
    obtain rfl : count = 0 := hfits
    simp only [Suits, Harmless, setCapacity, roundUpCapacity_eq]
    by_cases hcap : cap < 2 ^ 30
    · rw [if_pos hcap]
      exact .inl ⟨hcap, _, rfl, rfl, fun i hi => absurd hi (by omega), by simp only [Fits]; omega⟩
    · rw [if_neg hcap]
      exact .inr ⟨hcap, rfl⟩
  | deque d =>
    simp only [Fits] at hfits
    simp only [Suits, Harmless, setCapacity, roundUpCapacity_eq]
    by_cases hcap : cap < 2 ^ 30
    · simp only [if_pos hcap, bind_eq_bind, bind_some]
      split
      next hle =>
        refine .inl ⟨⟨hcap, hle⟩, _, rfl, rfl, fun i hi => ?_, hfits.trans hle⟩
        simp only [valueAt]
        rw [if_pos (by omega)]
      next hle => exact .inr ⟨fun h => hle h.2, rfl⟩
    · rw [if_neg hcap]
      exact .inr ⟨fun h => hcap h.1, rfl⟩

theorem Reachable.fits (h : Reachable array) : array.Fits := by
  induction h with
  | create => rfl
  | @write array contents _ ih =>
    obtain ⟨count, store⟩ := array
    cases store <;> exact ih
  | replaceValues _ hrange h ih => exact replaceValues_fits ih hrange h
  | @setCapacity array array' fresh cap _ h ih =>
    rcases setCapacity_spec ih fresh cap with ⟨-, _, heq, -, -, hfits⟩ | ⟨-, hnone⟩
    · obtain rfl := some.inj (heq.symm.trans h)
      exact hfits
    · exact nomatch hnone.symm.trans h

/-- Setting the capacity of an array is harmless if and only if the old buckets
have room in the new block. -/
theorem setCapacity_harmless_iff (h : Reachable array) (fresh : ℕ → α)
    (cap : ℕ) : array.Harmless fresh cap ↔ array.Suits cap := by
  rcases setCapacity_spec h.fits fresh cap with ⟨hsuits, hharmless⟩ | ⟨hsuits, hnone⟩
  · exact iff_of_true hharmless hsuits
  · exact iff_of_false (fun ⟨_, heq, _⟩ => nomatch hnone.symm.trans heq) hsuits

/-- Of twelve values that were added to an empty array, the first two have been
removed; then room for twenty is made. -/
theorem tenValues_setCapacity_harmless : ∃ array : MutableArray ℕ, Reachable array ∧
    array = ⟨10, .deque ⟨4, 16, 0, id⟩⟩ ∧ array.Harmless (fun _ => 0) 20 := by
  have hadd : create.replaceValues id 0 0 12 = some ⟨12, .deque ⟨2, 16, 0, id⟩⟩ := rfl
  have hremove : (MutableArray.mk 12 (.deque ⟨2, 16, 0, id⟩)).replaceValues id 0 2 0 =
    some ⟨10, .deque ⟨4, 16, 0, id⟩⟩ := rfl
  have hreach := (Reachable.create.replaceValues (by decide) hadd).replaceValues (by decide) hremove
  exact ⟨_, hreach, rfl, (setCapacity_harmless_iff hreach _ 20).mpr (by decide)⟩

/-- An empty array with room for eight values has sixteen buckets, and they are
moved into a block of four when its capacity is set to zero. -/
theorem setCapacity_not_harmless : ∃ array : MutableArray ℕ, Reachable array ∧
    array.count = 0 ∧ ¬ array.Harmless (fun _ => 0) 0 := by
  have hroom : create.setCapacity (fun _ => 0) 8 = some ⟨0, .deque ⟨8, 16, 0, fun _ => 0⟩⟩ := rfl
  refine ⟨_, .setCapacity .create hroom, rfl, ?_⟩
  rintro ⟨_, heq, _⟩
  exact nomatch heq

end MutableArray

end Hexley.Cf
