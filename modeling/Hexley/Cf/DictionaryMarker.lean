import Hexley.Lib.Shift

/-!
The marker of a dictionary.

A dictionary keeps its keys in a table of buckets, and tells an empty bucket
and one whose key was removed from the others by the word that is in it: the
marker and its complement. A key that is about to be stored may be one of
these two words, and `__CFDictionaryFindNewMarker` then takes other words for
them. It tries one word after the other and looks at all buckets, those
without a key too. As there always is one, the words that it leaves are not
chosen again, and the key can be stored.
-/

namespace Hexley.Cf.Dictionary

open Lib Finset

/-- The type `any_t`. -/
abbrev AnyT := BitVec 64

def hashRoundUpCapacity (capacity : ℕ) : ℕ := 3 * 2 ^ flsl ((capacity - 1) / 3)

def hashNumBucketsForCapacity (capacity : ℕ) : ℕ := 4 * 2 ^ flsl ((capacity - 1) / 3)

/-- The callbacks for keys. Each of them may be `NULL`. -/
structure KeyCallBacks where
  retain : Option (AnyT → AnyT)
  equal : Option (AnyT → AnyT → Bool)
  hash : Option (AnyT → AnyT)

structure Buckets where
  bucketsNum : ℕ
  marker : AnyT
  keys : ℕ → AnyT
  values : ℕ → AnyT

inductive Slot
  | empty
  | deleted
  | value (key : AnyT)
  deriving DecidableEq

namespace Buckets

variable (t : Buckets)

variable (i : ℕ) (newMarker : AnyT) (fuel : ℕ) (cb : KeyCallBacks) (key : AnyT)

def keyIsMagic : Prop := t.marker = key ∨ ~~~t.marker = key

instance (key : AnyT) : Decidable (t.keyIsMagic key) := inferInstanceAs (Decidable (_ ∨ _))

def slot : Slot :=
  if t.marker = t.keys i then .empty
  else if ~~~t.marker = t.keys i then .deleted
  else .value (t.keys i)

/-! ### Searching -/

/-- `__CFDictionaryScrambleHash` on a 64-bit machine. -/
def scrambleHash (k : AnyT) : AnyT :=
  let mix (x : AnyT × AnyT × AnyT) (s : ℕ × ℕ × ℕ) : AnyT × AnyT × AnyT :=
    let (a, b, c) := x
    let a := (a - b - c) ^^^ (c >>> s.1)
    let b := (b - c - a) ^^^ (a <<< s.2.1)
    let c := (c - a - b) ^^^ (b >>> s.2.2)
    (a, b, c)
  ([(43, 9, 8), (38, 23, 5), (35, 49, 11), (12, 18, 22)].foldl mix
    (0x4368726973746F70 + k, 0x686572204B616E65, 1)).2.2

def start : ℕ :=
  (scrambleHash ((cb.hash.getD id) key)).toNat &&& (t.bucketsNum - 1)

def next (probe : ℕ) : ℕ :=
  if t.bucketsNum ≤ probe + 1 then probe + 1 - t.bucketsNum else probe + 1

def same (currKey key : AnyT) : Prop :=
  currKey = key ∨ (cb.equal.getD fun _ _ => false) currKey key = true

instance (cb : KeyCallBacks) (currKey key : AnyT) : Decidable (same cb currKey key) :=
  inferInstanceAs (Decidable (_ ∨ _))

/-- The loop of `__CFDictionaryFindBuckets1b`, and with no callbacks of
`__CFDictionaryFindBuckets1a`. It is left when the probe is back at its start,
that is when none of the `n` buckets is left. -/
def findBuckets1From (cb : KeyCallBacks) (key : AnyT) : ℕ → ℕ → Option ℕ
  | 0, _ => none
  | n + 1, probe =>
    match t.slot probe with
    | .empty => none
    | .deleted => findBuckets1From cb key n (t.next probe)
    | .value currKey =>
      if same cb currKey key then some probe
      else findBuckets1From cb key n (t.next probe)

def findBuckets1 : Option ℕ :=
  t.findBuckets1From cb key t.bucketsNum (t.start cb key)

/-- The loop of `__CFDictionaryFindBuckets2`, which gives `match` and
`nomatch`. -/
def findBuckets2From (cb : KeyCallBacks) (key : AnyT) : ℕ → ℕ → Option ℕ → Option ℕ × Option ℕ
  | 0, _, noMatch => (none, noMatch)
  | n + 1, probe, noMatch =>
    match t.slot probe with
    | .empty => (none, noMatch.or (some probe))
    | .deleted => findBuckets2From cb key n (t.next probe) (noMatch.or (some probe))
    | .value currKey =>
      if same cb currKey key then (some probe, noMatch)
      else findBuckets2From cb key n (t.next probe) noMatch

def findBuckets2 : Option ℕ × Option ℕ :=
  t.findBuckets2From cb key t.bucketsNum (t.start cb key) none

/-! ### A new marker -/

/-- The inner loop of `__CFDictionaryFindNewMarker`. -/
def hit : Prop :=
  ∃ i < t.bucketsNum, newMarker = t.keys i ∨ ~~~newMarker = t.keys i

instance (newMarker : AnyT) : Decidable (t.hit newMarker) :=
  inferInstanceAs (Decidable (∃ i < t.bucketsNum, _))

/-- The `do` loop of `__CFDictionaryFindNewMarker`, with a bound on its
turns. -/
def searchMarker : ℕ → AnyT → Option AnyT
  | 0, _ => none
  | fuel + 1, newMarker =>
    if t.hit (newMarker - 1) then searchMarker fuel (newMarker - 1) else some (newMarker - 1)

def remark : Buckets :=
  { t with
    marker := newMarker
    keys := fun i =>
      if t.marker = t.keys i then newMarker
      else if ~~~t.marker = t.keys i then ~~~newMarker
      else t.keys i }

def findNewMarker : Option Buckets := (t.searchMarker fuel t.marker).map t.remark

def set (key value : AnyT) : Buckets :=
  { t with keys := Function.update t.keys i key, values := Function.update t.values i value }

/-- `CFDictionaryAddValue` behind the test whether the table has to grow. There
is no result if the marker is searched for without end or there is no bucket
for the key. -/
def addValue (key value : AnyT) : Option Buckets :=
  match t.findBuckets2 cb key with
  | (some _, _) => some t
  | (none, noMatch) => do
      let newKey := (cb.retain.getD id) key
      let t' ← if t.keyIsMagic newKey then t.findNewMarker fuel else some t
      let i ← noMatch
      some (t'.set i newKey value)

end Buckets

/-- A dictionary whose buckets have been allocated. At most three quarters of
them have a key, and they have addresses. -/
structure Table extends Buckets where
  bucketsUsed : ℕ
  bucketsCap : ℕ
  sized : ∃ capacity, bucketsCap = hashRoundUpCapacity capacity ∧
    bucketsNum = hashNumBucketsForCapacity bucketsCap
  used : ((range bucketsNum).filter fun i => ¬toBuckets.keyIsMagic (keys i)).card = bucketsUsed
  le_cap : bucketsUsed ≤ bucketsCap
  fits : 8 * bucketsNum ≤ 2 ^ 64

theorem flsl_pred_two_pow (f : ℕ) : flsl (2 ^ f - 1) = f := by
  cases f with
  | zero => rfl
  | succ f =>
    have hpos := Nat.two_pow_pos f
    have hz : 2 ^ (f + 1) - 1 ≠ 0 := by omega
    rw [flsl, if_neg hz, (Nat.log2_eq_iff (k := f) hz).mpr ⟨by omega, by omega⟩]

theorem Table.exists_magic (t : Table) : ∃ i < t.bucketsNum, t.keyIsMagic (t.keys i) := by
  by_contra hno
  push Not at hno
  have hcard := t.used
  rw [filter_true_of_mem fun i hi => hno i (mem_range.mp hi), card_range] at hcard
  obtain ⟨capacity, hcap, hnum⟩ := t.sized
  have hle := t.le_cap
  generalize hf : flsl ((capacity - 1) / 3) = f at hcap
  have hpos := Nat.two_pow_pos f
  rw [hashRoundUpCapacity, hf] at hcap
  rw [hashNumBucketsForCapacity, hcap, show (3 * 2 ^ f - 1) / 3 = 2 ^ f - 1 by omega,
    flsl_pred_two_pow] at hnum
  omega

namespace Buckets

variable {t t' : Buckets} {cb : KeyCallBacks} {key newKey m w : AnyT} {i n probe fuel : ℕ}

/-! ### The search for a marker -/

theorem not_hit_of_searchMarker (h : t.searchMarker fuel w = some m) : ¬t.hit m := by
  induction fuel generalizing w with
  | zero => cases h
  | succ fuel ih =>
    rw [searchMarker] at h
    split_ifs at h with hhit
    · exact ih h
    · cases h
      exact hhit

theorem searchMarker_of_not_hit {j : ℕ} (hj : j < fuel) (h : ¬t.hit (w - BitVec.ofNat 64 (j + 1))) :
    ∃ m, t.searchMarker fuel w = some m := by
  induction fuel generalizing w j with
  | zero => omega
  | succ fuel ih =>
    rw [searchMarker]
    split_ifs with hhit
    · rcases j with _ | j
      · exact absurd hhit h
      · refine ih (j := j) (by omega) ?_
        rwa [show w - 1 - BitVec.ofNat 64 (j + 1) = w - BitVec.ofNat 64 (j + 1 + 1) by bv_omega]
    · exact ⟨_, rfl⟩

/-- Every bucket hits two words, so that one of the next words is not hit. -/
theorem exists_not_hit (w : AnyT) (hfits : 2 * t.bucketsNum < 2 ^ 64) :
    ∃ j < 2 * t.bucketsNum + 1, ¬t.hit (w - BitVec.ofNat 64 (j + 1)) := by
  let words := (range t.bucketsNum).image t.keys ∪ (range t.bucketsNum).image (~~~t.keys ·)
  have hinj : Set.InjOn (fun j => w - BitVec.ofNat 64 (j + 1)) (range (2 * t.bucketsNum + 1)) := by
    intro j hj k hk h
    rw [mem_coe, mem_range] at hj hk
    bv_omega
  have hlt : words.card <
      ((range (2 * t.bucketsNum + 1)).image fun j => w - BitVec.ofNat 64 (j + 1)).card := by
    have hunion : words.card ≤ _ := card_union_le _ _
    have hkeys : _ ≤ (range t.bucketsNum).card := card_image_le (f := t.keys)
    have hnots : _ ≤ (range t.bucketsNum).card := card_image_le (f := (~~~t.keys ·))
    rw [card_image_of_injOn hinj]
    rw [card_range] at hkeys hnots ⊢
    omega
  obtain ⟨x, hx, hno⟩ := exists_mem_notMem_of_card_lt_card hlt
  obtain ⟨j, hj, rfl⟩ := mem_image.mp hx
  refine ⟨j, mem_range.mp hj, ?_⟩
  rintro ⟨i, hi, h | h⟩ <;> refine hno ?_
  · exact mem_union_left _ (mem_image.mpr ⟨i, mem_range.mpr hi, h.symm⟩)
  · exact mem_union_right _ (mem_image.mpr ⟨i, mem_range.mpr hi, by rw [← h, BitVec.not_not]⟩)

theorem slot_remark (hm : ¬t.hit m) (hi : i < t.bucketsNum) : (t.remark m).slot i = t.slot i := by
  have hne : m ≠ ~~~m := by
    intro h
    bv_omega
  have hkey : m ≠ t.keys i ∧ ~~~m ≠ t.keys i :=
    ⟨fun h => hm ⟨i, hi, .inl h⟩, fun h => hm ⟨i, hi, .inr h⟩⟩
  unfold slot remark
  dsimp only
  split_ifs <;> simp_all

theorem not_magic_remark (hm : ¬t.hit m) (hi : i < t.bucketsNum) (h : t.keyIsMagic (t.keys i))
    (hkey : t.keyIsMagic newKey) : ¬(t.remark m).keyIsMagic newKey := by
  have hne : m ≠ t.keys i ∧ ~~~m ≠ t.keys i :=
    ⟨fun h => hm ⟨i, hi, .inl h⟩, fun h => hm ⟨i, hi, .inr h⟩⟩
  change ¬(m = newKey ∨ ~~~m = newKey)
  rintro (rfl | rfl) <;> rcases h with h | h <;> rcases hkey with hk | hk <;> bv_omega

theorem slot_eq_value_iff : t.slot i = .value key ↔ t.keys i = key ∧ ¬t.keyIsMagic key := by
  unfold slot keyIsMagic
  split_ifs <;> grind

/-! ### The searches for a key -/

theorem next_lt (hprobe : probe < t.bucketsNum) : t.next probe < t.bucketsNum := by
  unfold next
  split <;> omega

theorem start_lt (hpos : 0 < t.bucketsNum) : t.start cb key < t.bucketsNum := by
  have := Nat.and_le_right (n := (scrambleHash ((cb.hash.getD id) key)).toNat)
    (m := t.bucketsNum - 1)
  rw [start]
  omega

theorem findBuckets1From_congr (hslot : ∀ i < t.bucketsNum, t'.slot i = t.slot i)
    (hnum : t'.bucketsNum = t.bucketsNum) (hprobe : probe < t.bucketsNum) :
    t'.findBuckets1From cb key n probe = t.findBuckets1From cb key n probe := by
  induction n generalizing probe with
  | zero => rfl
  | succ n ih =>
    have hnext : t'.next probe = t.next probe := by rw [next, next, hnum]
    rw [findBuckets1From, findBuckets1From, hslot probe hprobe, hnext, ih (next_lt hprobe)]

theorem noMatch_kept (t : Buckets) (cb : KeyCallBacks) (key : AnyT) (n probe i : ℕ) :
    (t.findBuckets2From cb key n probe (some i)).2 = some i := by
  induction n generalizing probe with
  | zero => rfl
  | succ n ih =>
    rw [findBuckets2From]
    split
    · rfl
    · exact ih _
    · split_ifs
      · rfl
      · exact ih _

theorem values_of_no_bucket (h : t.findBuckets2From cb key n probe none = (none, none))
    (hprobe : probe < t.bucketsNum) {j : ℕ} (hj : j < n) :
    ∃ k, t.slot ((probe + j) % t.bucketsNum) = .value k := by
  induction n generalizing probe j with
  | zero => omega
  | succ n ih =>
    rw [findBuckets2From] at h
    split at h
    · cases h
    · have hkept := noMatch_kept t cb key n (t.next probe) probe
      rw [Option.none_or] at h
      rw [h] at hkept
      cases hkept
    · next k hk =>
      split_ifs at h
      · cases h
      rcases j with _ | j
      · exact ⟨k, by rwa [Nat.add_zero, Nat.mod_eq_of_lt hprobe]⟩
      · have hnext : (t.next probe + j) % t.bucketsNum = (probe + (j + 1)) % t.bucketsNum := by
          unfold next
          split
          · rw [show probe + (j + 1) = probe + 1 - t.bucketsNum + j + t.bucketsNum by omega,
              Nat.add_mod_right]
          · rw [Nat.add_right_comm, Nat.add_assoc]
        rw [← hnext]
        exact ih h (next_lt hprobe) (by omega)

theorem findBuckets1From_set (hslot : ∀ j < t.bucketsNum, j ≠ i → t'.slot j = t.slot j)
    (hnum : t'.bucketsNum = t.bucketsNum) (hi : t'.slot i = .value newKey)
    (hsame : same cb newKey key) (hprobe : probe < t.bucketsNum)
    (h : t.findBuckets2From cb key n probe none = (none, some i)) :
    t'.findBuckets1From cb key n probe = some i := by
  induction n generalizing probe with
  | zero => cases h
  | succ n ih =>
    rw [findBuckets1From]
    by_cases heq : probe = i
    · rw [heq, hi]
      simp only [if_pos hsame]
    rw [findBuckets2From] at h
    rw [hslot probe hprobe heq]
    split at h
    · exact absurd (Option.some.inj (Prod.mk.inj h).2) heq
    · have hkept := noMatch_kept t cb key n (t.next probe) probe
      rw [Option.none_or] at h
      rw [h] at hkept
      exact absurd (Option.some.inj hkept).symm heq
    · next k hk =>
      split_ifs at h with hk'
      · cases h
      have hnext : t'.next probe = t.next probe := by rw [next, next, hnum]
      simp only [if_neg hk', hnext]
      exact ih (next_lt hprobe) h

end Buckets

open Buckets

theorem Table.exists_noMatch (t : Table) {cb : KeyCallBacks} {key : AnyT}
    (h : (t.findBuckets2 cb key).1 = none) : ∃ i, t.findBuckets2 cb key = (none, some i) := by
  obtain ⟨j, hj, hmagic⟩ := t.exists_magic
  have hstart : t.start cb key < t.bucketsNum := start_lt (by omega)
  rcases hfind : t.findBuckets2 cb key with ⟨_ | _, _ | i⟩ <;> rw [hfind] at h
  · obtain ⟨k, hk, rfl⟩ : ∃ k < t.bucketsNum, (t.start cb key + k) % t.bucketsNum = j := by
      rcases Nat.le_total (t.start cb key) j with hle | hle
      · exact ⟨j - t.start cb key, by omega, by rw [Nat.add_sub_cancel' hle, Nat.mod_eq_of_lt hj]⟩
      · refine ⟨(j + t.bucketsNum - t.start cb key) % t.bucketsNum, Nat.mod_lt _ (by omega), ?_⟩
        rw [Nat.add_mod_mod, Nat.add_sub_cancel' (by omega), Nat.add_mod_right, Nat.mod_eq_of_lt hj]
    obtain ⟨x, hx⟩ := values_of_no_bucket hfind hstart hk
    obtain ⟨rfl, hvalue⟩ := slot_eq_value_iff.mp hx
    exact absurd hmagic hvalue
  · exact ⟨i, rfl⟩
  · cases h
  · cases h

/-- Whatever the table and the marker are, for a key that is the marker or its
complement another marker is found. The buckets stand for the same keys, and
those without a key are the same. No key of the table and not the key that is
to be stored is the new marker or its complement, and when it is stored it is
found. -/
theorem findNewMarker_safe (t : Table) (newKey : AnyT) (hmagic : t.keyIsMagic newKey) (fuel : ℕ)
    (hfuel : 2 * t.bucketsNum < fuel) :
    ∃ t', t.findNewMarker fuel = some t' ∧ t'.bucketsNum = t.bucketsNum ∧ t'.values = t.values ∧
      (∀ i < t.bucketsNum, t'.slot i = t.slot i) ∧
      (∀ cb key, t'.findBuckets1 cb key = t.findBuckets1 cb key) ∧
      (∀ i < t.bucketsNum, ∀ key, t.slot i = .value key → ¬t'.keyIsMagic key) ∧
      ¬t'.keyIsMagic newKey ∧
      ∀ cb key value, (cb.retain.getD id) key = newKey → same cb newKey key →
        (t.findBuckets2 cb key).1 = none →
        ∃ t'' i, t.addValue fuel cb key value = some t'' ∧ t''.findBuckets1 cb key = some i ∧
          t''.keys i = newKey ∧ t''.values i = value := by
  have hfits := t.fits
  obtain ⟨j, hj, hjmagic⟩ := t.exists_magic
  have hpos : 0 < t.bucketsNum := by omega
  obtain ⟨k, hk, hmiss⟩ := exists_not_hit (t := t.toBuckets) t.marker (by omega)
  obtain ⟨m, hm⟩ := searchMarker_of_not_hit (hk.trans_le hfuel) hmiss
  have hnew : t.findNewMarker fuel = some (t.remark m) := by rw [findNewMarker, hm]; rfl
  have hfree := not_hit_of_searchMarker hm
  have hkey := not_magic_remark hfree hj hjmagic hmagic
  have hslot : ∀ i < t.bucketsNum, (t.remark m).slot i = t.slot i := fun i => slot_remark hfree
  refine ⟨_, hnew, rfl, rfl, hslot, fun cb key => ?_, fun i hi key hi' => ?_, hkey, ?_⟩
  · exact findBuckets1From_congr hslot rfl (start_lt hpos)
  · exact (slot_eq_value_iff.mp ((hslot i hi).trans hi')).2
  · intro cb key value hretain hsame hnone
    obtain ⟨i, hi⟩ := t.exists_noMatch hnone
    refine ⟨(t.remark m).set i newKey value, i, by simp [addValue, hi, hretain, hmagic, hnew],
      findBuckets1From_set (t := t.toBuckets) (fun j hj hne => ?_) rfl ?_ hsame
        (start_lt hpos) hi, by simp [Buckets.set], by simp [Buckets.set]⟩
    · rw [← hslot j hj]
      simp [slot, Buckets.set, hne]
    · exact slot_eq_value_iff.mpr ⟨by simp [Buckets.set], hkey⟩

/-- Two keys, a bucket whose key was removed and an empty one. -/
def twoKeys : Table where
  bucketsNum := 4
  marker := 0xa1b1c1d3
  keys i := [0xa1b1c1d2, ~~~0xa1b1c1d3, 7].getD i 0xa1b1c1d3
  values _ := 0
  bucketsUsed := 2
  bucketsCap := 3
  sized := ⟨1, by decide, by decide⟩
  used := by decide
  le_cap := by decide
  fits := by decide

/-- The word that is tried first is the first key. -/
theorem twoKeys_findNewMarker_safe : ∃ t', twoKeys.findNewMarker 9 = some t' ∧
    t'.marker = 0xa1b1c1d1 ∧ ¬t'.keyIsMagic 0xa1b1c1d3 ∧ t'.slot 0 = .value 0xa1b1c1d2 ∧
    t'.slot 1 = .deleted ∧ t'.slot 3 = .empty := by
  obtain ⟨t', hnew, -, -, hslot, -, -, hkey, -⟩ :=
    findNewMarker_safe twoKeys 0xa1b1c1d3 (.inl rfl) 9 (by decide)
  have hmarker : (twoKeys.findNewMarker 9).map (·.marker) = some 0xa1b1c1d1 := by decide
  rw [hnew, Option.map_some, Option.some_inj] at hmarker
  exact ⟨t', hnew, hmarker, hkey, (hslot 0 (by decide)).trans (by decide),
    (hslot 1 (by decide)).trans (by decide), (hslot 3 (by decide)).trans (by decide)⟩

end Hexley.Cf.Dictionary
