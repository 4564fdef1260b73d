import Hexley.Hid.ReportData
import Hexley.Lib.Reader

/-!
The items of a report descriptor.

`HIDNextItem` takes the next item off a descriptor. A short item has its
type, its tag and the size of its data in one byte. A long item starts with
a byte that no short item has, and is to be skipped.

The code for long items does not do that. The expression that should read
the tag, `*piX++`, reads the index instead and moves `piX` to the field that
stands behind the index in the structure. With pointers of 32 bits this is
`collectionStack`. From there on the pointer to the collection stack is
taken for the index: it is compared with the length, the data is read from
where it leads to, and it is counted up. The byte with the size is read
without a test.

`Tokenised` says what a call should do, in terms of the bytes at the index.
A call does so exactly if `CleanAt` holds at the index (`tokenised_iff`), and
from this the same follows for the calls of a whole pass.
-/

namespace Hexley.Hid

open Lib List Rd

/-! ### The function -/

/-- The fields of `HIDReportDescriptor` that `HIDNextItem` can get at. The descriptor itself is
the memory that is read. -/
structure ReportDescriptor where
  descriptorLength : Word
  index : Word
  /-- The pointer to the collection stack, which stands behind the index. -/
  collectionStack : Word
  item : HIDItem
  deriving DecidableEq

inductive NextStatus
  | success
  | endOfDescriptor
  deriving DecidableEq, Repr

def kHIDLongItemHeader : UInt8 := 0xFE

def itemTypeOf (iHeader : UInt8) : ItemType :=
  match iHeader.toNat / 4 % 4 with
  | 0 => .main
  | 1 => .global
  | 2 => .local
  | _ => .long

def dataSize (iHeader : UInt8) : ℕ := if iHeader.toNat % 4 = 3 then 4 else iHeader.toNat % 4

/-- The loop over the data bytes, with `i` of them behind. In a long item `i` can go past the
word. -/
def getItemData (piX : Word) : ℕ → ℕ → Word → UInt8 → Rd (Word × UInt8)
  | 0, _, unsignedValue, iByte => pure (unsignedValue, iByte)
  | n + 1, i, unsignedValue, _ => do
      let iByte ← byte (piX + BitVec.ofNat 32 i).toNat
      getItemData piX n (i + 1) (unsignedValue ||| (byteWord iByte <<< (8 * i))) iByte

def signFill : ℕ → ℕ → Word → Word
  | 0, _, signedValue => signedValue
  | n + 1, i, signedValue => signFill n (i + 1) (signedValue ||| ((0xFF : Word) <<< (8 * i)))

/-- The part of `HIDNextItem` that picks up the data. -/
def getItemValues (piX : Word) (iSize : ℕ) (item : HIDItem) : Rd HIDItem :=
  if iSize = 0 then pure { item with unsignedValue := 0, signedValue := 0 }
  else do
    let (unsignedValue, iByte) ← getItemData piX iSize 0 0 0
    pure { item with
      unsignedValue := unsignedValue
      signedValue :=
        if iByte.toNat ≥ 0x80 then signFill (4 - iSize) iSize unsignedValue else unsignedValue }

def hidNextItem (d : ReportDescriptor) : Rd (NextStatus × ReportDescriptor) :=
  if d.index.toNat ≥ d.descriptorLength.toNat then pure (.endOfDescriptor, d)
  else do
    let iHeader ← byte d.index.toNat
    let d := { d with index := d.index + 1 }
    if d.index.toNat > d.descriptorLength.toNat then pure (.endOfDescriptor, d)
    else do
      let d := { d with item := { d.item with itemType := itemTypeOf iHeader } }
      if iHeader = kHIDLongItemHeader then do
        let iSize ← byte d.index.toNat
        let d := { d with index := d.index + 1 }
        -- The tag is the index, and `piX` points to `collectionStack` afterwards.
        let d := { d with item := { d.item with tag := d.index.toNat } }
        let next := d.collectionStack + BitVec.ofNat 32 iSize.toNat
        if next.toNat > d.descriptorLength.toNat then pure (.endOfDescriptor, d)
        else do
          let item ← getItemValues d.collectionStack iSize.toNat d.item
          pure (.success, { d with collectionStack := next, item := item })
      else do
        let iSize := dataSize iHeader
        let d := { d with
          item := { d.item with byteCount := iSize, tag := iHeader.toNat / 16 } }
        let next := d.index + BitVec.ofNat 32 iSize
        if next.toNat > d.descriptorLength.toNat then pure (.endOfDescriptor, d)
        else do
          let item ← getItemValues d.index iSize d.item
          pure (.success, { d with index := next, item := item })

/-! ### The encoding of items -/

section Encoding

variable (m : Mem)

def encodedSize (i : ℕ) : ℕ :=
  if m i = kHIDLongItemHeader then 3 + (m (i + 1)).toNat else 1 + dataSize (m i)

def shortItem (i : ℕ) : HIDItem :=
  let data := Endian.little.val (m.read (i + 1) (dataSize (m i)))
  { byteCount := dataSize (m i)
    itemType := itemTypeOf (m i)
    tag := (m i).toNat / 16
    signedValue := (BitVec.ofNat (8 * dataSize (m i)) data).signExtend 32
    unsignedValue := BitVec.ofNat 32 data }

def Complete (length i : ℕ) : Prop := i < length ∧ i + encodedSize m i ≤ length

structure Tokenised (d : ReportDescriptor) : Prop where
  reads : (hidNextItem d).ReadsBelow m d.descriptorLength.toNat
  frame : ((hidNextItem d).run m).2.descriptorLength = d.descriptorLength ∧
    ((hidNextItem d).run m).2.collectionStack = d.collectionStack
  /-- A complete item is stepped over, and a short one is delivered. -/
  complete : Complete m d.descriptorLength.toNat d.index.toNat →
    ((hidNextItem d).run m).1 = .success ∧
    ((hidNextItem d).run m).2.index.toNat = d.index.toNat + encodedSize m d.index.toNat ∧
    (m d.index.toNat ≠ kHIDLongItemHeader →
      ((hidNextItem d).run m).2.item = shortItem m d.index.toNat)
  /-- Where no item is left, the end is reported. -/
  incomplete : ¬Complete m d.descriptorLength.toNat d.index.toNat →
    ((hidNextItem d).run m).1 = .endOfDescriptor

/-- At `i` there is a short item that ends at a position of 32 bits, or a long item that is cut
off behind its size, where the pointer to the collection stack and the size happen to add up
to more than the length. -/
def CleanAt (length collectionStack i : ℕ) : Prop :=
  i < length →
    if m i = kHIDLongItemHeader then
      i + 1 < length ∧ length < i + encodedSize m i ∧
        length < (collectionStack + (m (i + 1)).toNat) % 2 ^ 32
    else i + encodedSize m i < 2 ^ 32

end Encoding

variable {m : Mem} {d : ReportDescriptor}

section Values

variable {piX : Word}

theorem dataSize_le (iHeader : UInt8) : dataSize iHeader ≤ 4 := by
  unfold dataSize
  split <;> omega

theorem leVal_concat (bs : List UInt8) (b : UInt8) :
    leVal (bs ++ [b]) = 2 ^ (8 * bs.length) * b.toNat + leVal bs := by
  induction bs with
  | nil => simp [leVal]
  | cons a bs ih =>
    rw [cons_append, leVal, ih, leVal, length_cons, Nat.mul_succ, Nat.pow_add]
    ring

theorem getItemData_run {n i : ℕ} {v : Word} (iByte : UInt8) (hi : i + n ≤ 4)
    (hpiX : piX.toNat + i + n ≤ 2 ^ 32) (hv : v.toNat < 2 ^ (8 * i)) :
    ((getItemData piX n i v iByte).run m).1.toNat =
        v.toNat + 2 ^ (8 * i) * leVal (m.read (piX.toNat + i) n) ∧
      ((getItemData piX n i v iByte).run m).2 =
        (if n = 0 then iByte else m (piX.toNat + i + n - 1)) ∧
      (getItemData piX n i v iByte).reads m = List.range' (piX.toNat + i) n := by
  induction n generalizing i v iByte with
  | zero => simp [getItemData, leVal]
  | succ n ih =>
    have haddr : (piX + BitVec.ofNat 32 i).toNat = piX.toNat + i := by
      rw [BitVec.toNat_add, BitVec.toNat_ofNat]
      omega
    have hb := (m (piX.toNat + i)).toNat_lt
    have hpow : 2 ^ (8 * (i + 1)) = 256 * 2 ^ (8 * i) := by
      rw [Nat.mul_succ, Nat.pow_add, mul_comm]
    have hpow' : 2 ^ (8 * (i + 1)) ≤ 2 ^ 32 := Nat.pow_le_pow_right (by decide) (by omega)
    have hword : (byteWord (m (piX.toNat + i)) <<< (8 * i)).toNat =
        2 ^ (8 * i) * (m (piX.toNat + i)).toNat := by
      have hlt : 2 ^ (8 * i) * (m (piX.toNat + i)).toNat < 2 ^ (8 * (i + 1)) := by
        rw [hpow, mul_comm]
        exact Nat.mul_lt_mul_of_pos_right hb (Nat.two_pow_pos _)
      have hbyte : (byteWord (m (piX.toNat + i))).toNat = (m (piX.toNat + i)).toNat := by
        rw [byteWord, BitVec.toNat_setWidth, UInt8.toNat_toBitVec]
        omega
      rw [BitVec.toNat_shiftLeft, hbyte, Nat.shiftLeft_eq, mul_comm]
      exact Nat.mod_eq_of_lt (hlt.trans_le hpow')
    have hor : (v ||| (byteWord (m (piX.toNat + i)) <<< (8 * i))).toNat =
        v.toNat + 2 ^ (8 * i) * (m (piX.toNat + i)).toNat := by
      rw [BitVec.toNat_or, hword, Nat.or_comm, ← Nat.two_pow_add_eq_or_of_lt hv, add_comm]
    have hv' : (v ||| (byteWord (m (piX.toNat + i)) <<< (8 * i))).toNat < 2 ^ (8 * (i + 1)) := by
      have hle : 2 ^ (8 * i) * ((m (piX.toNat + i)).toNat + 1) ≤ 2 ^ (8 * i) * 256 :=
        Nat.mul_le_mul_left _ hb
      rw [mul_add] at hle
      omega
    obtain ⟨hvalue, hlast, hreads⟩ := ih (m (piX.toNat + i)) (show i + 1 + n ≤ 4 by omega)
      (show piX.toNat + (i + 1) + n ≤ 2 ^ 32 by omega) hv'
    rw [getItemData, run_bind, reads_bind, run_byte, reads_byte, haddr, hvalue, hlast,
      hreads, hor, Mem.read_succ, leVal, hpow]
    refine ⟨by rw [← add_assoc piX.toNat]; ring, ?_, ?_⟩
    · rw [if_neg (Nat.succ_ne_zero n)]
      split
      · next h => rw [h]; rfl
      · rw [show piX.toNat + (i + 1) + n - 1 = piX.toNat + i + (n + 1) - 1 by omega]
    · rfl

theorem getLsbD_signFill (n i : ℕ) (v : Word) {j : ℕ} (hj : j < 32) : (signFill n i v).getLsbD j =
      (v.getLsbD j || (decide (8 * i ≤ j) && decide (j < 8 * (i + n)))) := by
  induction n generalizing i v with
  | zero =>
    rw [signFill]
    by_cases h : 8 * i ≤ j <;> simp [h]
  | succ n ih =>
    rw [signFill, ih, BitVec.getLsbD_or, BitVec.getLsbD_shiftLeft,
      show (0xFF : Word) = lowMask 32 8 from rfl, getLsbD_lowMask]
    rw [Bool.or_assoc]
    congr 1
    by_cases hlow : 8 * i ≤ j
    · by_cases hnow : j < 8 * (i + 1)
      · simp [hlow, hj, show j - 8 * i < 8 by omega, show j - 8 * i < 32 by omega,
          show j < 8 * (i + (n + 1)) by omega]
      · simp [hlow, show ¬j - 8 * i < 8 by omega, show 8 * (i + 1) ≤ j by omega,
          show i + 1 + n = i + (n + 1) by omega]
    · simp [hlow, show ¬8 * (i + 1) ≤ j by omega, show j < 8 * i by omega]

theorem testBit_leVal_last {n : ℕ} (p : ℕ) :
    (leVal (m.read p (n + 1))).testBit (8 * n + 7) = decide (0x80 ≤ (m (p + n)).toNat) := by
  have hlt : leVal (m.read p n) < 2 ^ (8 * n) := by
    have := leVal_lt (m.read p n)
    rwa [Mem.length_read, show (256 : ℕ) = 2 ^ 8 from rfl, ← Nat.pow_mul] at this
  have hb := (m (p + n)).toNat_lt
  rw [Mem.read_add, show m.read (p + n) 1 = [m (p + n)] from rfl, leVal_concat, Mem.length_read,
    Nat.testBit_two_pow_mul_add _ hlt, if_neg (by omega), Nat.add_sub_cancel_left,
    Nat.testBit_eq_decide_div_mod_eq]
  congr 1
  exact propext ⟨fun h => by omega, fun h => by omega⟩

theorem getItemValues_run {n : ℕ} (piX : Word) (item : HIDItem) (hn : n ≤ 4)
    (hpiX : piX.toNat + n ≤ 2 ^ 32) :
    (getItemValues piX n item).run m = { item with
          unsignedValue := BitVec.ofNat 32 (Endian.little.val (m.read piX.toNat n))
          signedValue :=
            (BitVec.ofNat (8 * n) (Endian.little.val (m.read piX.toNat n))).signExtend 32 } ∧
      (getItemValues piX n item).reads m = List.range' piX.toNat n := by
  change _ = { item with
    unsignedValue := BitVec.ofNat 32 (leVal (m.read piX.toNat n))
    signedValue := (BitVec.ofNat (8 * n) (leVal (m.read piX.toNat n))).signExtend 32 } ∧ _
  rw [getItemValues]
  by_cases hzero : n = 0
  · subst hzero
    refine ⟨?_, rfl⟩
    congr 1
  · obtain ⟨hvalue, hlast, hreads⟩ := getItemData_run (m := m) (v := 0) (i := 0) 0
      (show 0 + n ≤ 4 by omega) (show piX.toNat + 0 + n ≤ 2 ^ 32 by omega) (by decide)
    rw [if_neg hzero] at hlast ⊢
    rw [show (0 : Word).toNat = 0 from rfl, mul_zero, pow_zero, one_mul, zero_add,
      add_zero] at hvalue
    rw [add_zero] at hlast hreads
    refine ⟨?_, by rw [reads_bind, hreads]; exact append_nil _⟩
    rw [run_bind]
    generalize (getItemData piX n 0 0 0).run m = x at hvalue hlast
    obtain ⟨v, iByte⟩ := x
    have hv : v = BitVec.ofNat 32 (leVal (m.read piX.toNat n)) := by
      rw [← hvalue, BitVec.ofNat_toNat, BitVec.setWidth_eq]
    rcases n with _ | k
    · omega
    have hsign := testBit_leVal_last (m := m) (n := k) piX.toNat
    rw [run_pure]
    congr 1
    rw [show piX.toNat + k = piX.toNat + (k + 1) - 1 by omega, ← hlast] at hsign
    refine BitVec.eq_of_getLsbD_eq fun j hj => ?_
    rw [BitVec.getLsbD_signExtend, BitVec.msb_eq_getLsbD_last, BitVec.getLsbD_ofNat,
      BitVec.getLsbD_ofNat, show 8 * (k + 1) - 1 = 8 * k + 7 by omega, hsign, ← hvalue]
    have hhigh (hge : 8 * (k + 1) ≤ j) : v.getLsbD j = false := by
      rw [BitVec.getLsbD, hvalue]
      refine Nat.testBit_lt_two_pow (lt_of_lt_of_le (leVal_lt _) ?_)
      rw [Mem.length_read, show (256 : ℕ) = 2 ^ 8 from rfl, ← Nat.pow_mul]
      exact Nat.pow_le_pow_right (by decide) hge
    have hbit : v.toNat.testBit j = v.getLsbD j := rfl
    split
    · next hneg =>
      rw [getLsbD_signFill _ _ _ hj, show k + 1 + (4 - (k + 1)) = 4 by omega]
      by_cases hlow : j < 8 * (k + 1)
      · simp [hlow, hj, hbit, not_le.mpr hlow]
      · simp [hlow, hj, hneg, not_lt.mp hlow, show 8 * k + 7 < 8 * (k + 1) by omega]
    · next hpos =>
      by_cases hlow : j < 8 * (k + 1)
      · simp [hlow, hj, hbit]
      · simp [hlow, hpos, hhigh (not_lt.mp hlow)]

end Values

/-! ### One call -/

theorem toNat_index_add_one (hlt : d.index.toNat < d.descriptorLength.toNat) :
    (d.index + 1).toNat = d.index.toNat + 1 := by
  rw [BitVec.toNat_add, show (1 : Word).toNat = 1 from rfl]
  omega

def withHeader (iHeader : UInt8) (item : HIDItem) : HIDItem :=
  { item with
    byteCount := dataSize iHeader
    itemType := itemTypeOf iHeader
    tag := iHeader.toNat / 16 }

theorem hidNextItem_end (hge : d.descriptorLength.toNat ≤ d.index.toNat) :
    (hidNextItem d).run m = (.endOfDescriptor, d) ∧ (hidNextItem d).reads m = [] := by
  rw [hidNextItem, if_pos hge]
  exact ⟨rfl, rfl⟩

theorem hidNextItem_short (hlt : d.index.toNat < d.descriptorLength.toNat)
    (hshort : m d.index.toNat ≠ kHIDLongItemHeader) : let n := dataSize (m d.index.toNat)
    let next := d.index + 1 + BitVec.ofNat 32 n
    let item := withHeader (m d.index.toNat) d.item
    (next.toNat > d.descriptorLength.toNat →
      (hidNextItem d).run m = (.endOfDescriptor, { d with index := d.index + 1, item := item }) ∧
      (hidNextItem d).reads m = [d.index.toNat]) ∧
    (¬next.toNat > d.descriptorLength.toNat → (hidNextItem d).run m = (.success, { d with
        index := next
        item := (getItemValues (d.index + 1) n item).run m }) ∧ (hidNextItem d).reads m =
        d.index.toNat :: (getItemValues (d.index + 1) n item).reads m) := by
  intro n next item
  have hone := toNat_index_add_one hlt
  refine ⟨fun hgt => ?_, fun hle => ?_⟩
  · rw [hidNextItem, if_neg (not_le.mpr hlt)]
    rw [run_bind, reads_bind, run_byte, reads_byte]
    dsimp only
    rw [if_neg (by omega), if_neg hshort, if_pos hgt]
    exact ⟨rfl, rfl⟩
  · rw [hidNextItem, if_neg (not_le.mpr hlt)]
    rw [run_bind, reads_bind, run_byte, reads_byte]
    dsimp only
    rw [if_neg (by omega), if_neg hshort, if_neg hle, run_bind, reads_bind, reads_pure, append_nil]
    exact ⟨rfl, rfl⟩

theorem hidNextItem_long (hlt : d.index.toNat < d.descriptorLength.toNat)
    (hlong : m d.index.toNat = kHIDLongItemHeader) :
    let next := d.collectionStack + BitVec.ofNat 32 (m (d.index.toNat + 1)).toNat
    d.index.toNat + 1 ∈ (hidNextItem d).reads m ∧
    ((hidNextItem d).run m).2.index = d.index + 1 + 1 ∧
    (next.toNat > d.descriptorLength.toNat → ((hidNextItem d).run m).1 = .endOfDescriptor ∧
      ((hidNextItem d).run m).2.descriptorLength = d.descriptorLength ∧
      ((hidNextItem d).run m).2.collectionStack = d.collectionStack ∧
      (hidNextItem d).reads m = [d.index.toNat, d.index.toNat + 1]) ∧
    (¬next.toNat > d.descriptorLength.toNat → ((hidNextItem d).run m).1 = .success) := by
  intro next
  have hone := toNat_index_add_one hlt
  rw [hidNextItem, if_neg (not_le.mpr hlt)]
  rw [run_bind, reads_bind, run_byte, reads_byte]
  dsimp only
  rw [if_neg (by omega), if_pos hlong, run_bind, reads_bind, run_byte, reads_byte, hone]
  by_cases hgt : next.toNat > d.descriptorLength.toNat
  · rw [if_pos hgt]
    exact ⟨by simp, rfl, fun _ => ⟨rfl, rfl, rfl, rfl⟩, fun h => absurd hgt h⟩
  · rw [if_neg hgt]
    rw [run_bind, reads_bind]
    exact ⟨by simp, rfl, fun h => absurd h hgt, fun _ => rfl⟩

/-- A call does what it should exactly if the item at the index is clean. -/
theorem tokenised_iff : Tokenised m d ↔
      CleanAt m d.descriptorLength.toNat d.collectionStack.toNat d.index.toNat := by
  by_cases hlt : d.index.toNat < d.descriptorLength.toNat
  swap
  · obtain ⟨hrun, hreads⟩ := hidNextItem_end (m := m) (not_lt.mp hlt)
    refine iff_of_true ⟨?_, ?_, fun h => absurd h.1 hlt, fun _ => ?_⟩ fun h => absurd h hlt
    · intro p hp
      rw [hreads] at hp
      cases hp
    · rw [hrun]
      exact ⟨rfl, rfl⟩
    · rw [hrun]
  have hone := toNat_index_add_one hlt
  by_cases hlong : m d.index.toNat = kHIDLongItemHeader
  · obtain ⟨hread, hindex, hend, hsuccess⟩ := hidNextItem_long hlt hlong
    have hsize : encodedSize m d.index.toNat = 3 + (m (d.index.toNat + 1)).toNat := if_pos hlong
    have hnext : (d.collectionStack + BitVec.ofNat 32 (m (d.index.toNat + 1)).toNat).toNat =
        (d.collectionStack.toNat + (m (d.index.toNat + 1)).toNat) % 2 ^ 32 := by
      rw [BitVec.toNat_add, BitVec.toNat_ofNat]
      omega
    rw [hnext] at hend hsuccess
    constructor
    · intro h _
      rw [if_pos hlong]
      have hin := h.reads _ hread
      have hincomplete : ¬Complete m d.descriptorLength.toNat d.index.toNat := by
        intro hc
        have hi := (h.complete hc).2.1
        rw [hindex, BitVec.toNat_add, hone, show (1 : Word).toNat = 1 from rfl] at hi
        omega
      refine ⟨hin, not_le.mp fun hle => hincomplete ⟨hlt, hle⟩, ?_⟩
      by_contra hle
      have hstatus := h.incomplete hincomplete
      rw [hsuccess hle] at hstatus
      cases hstatus
    · intro h
      have h := h hlt
      rw [if_pos hlong] at h
      obtain ⟨hin, hcut, hgt⟩ := h
      obtain ⟨hstatus, hlength, hstack, hreads⟩ := hend hgt
      refine ⟨?_, ⟨hlength, hstack⟩, fun hc => absurd hc.2 (not_le.mpr hcut), fun _ => hstatus⟩
      intro p hp
      rw [hreads, mem_cons, mem_singleton] at hp
      omega
  · obtain ⟨hend, hsuccess⟩ := hidNextItem_short hlt hlong
    have hsize : encodedSize m d.index.toNat = 1 + dataSize (m d.index.toNat) := if_neg hlong
    have hfour := dataSize_le (m d.index.toNat)
    have hnext : (d.index + 1 + BitVec.ofNat 32 (dataSize (m d.index.toNat))).toNat =
        (d.index.toNat + encodedSize m d.index.toNat) % 2 ^ 32 := by
      rw [BitVec.toNat_add, hone, BitVec.toNat_ofNat, hsize]
      omega
    rw [hnext] at hend hsuccess
    constructor
    · intro h _
      rw [if_neg hlong]
      by_contra hwrap
      have hstatus := h.incomplete fun hc => by have := hc.2; omega
      rw [(hsuccess (by omega)).1] at hstatus
      cases hstatus
    · intro h
      have h := h hlt
      rw [if_neg hlong] at h
      rw [Nat.mod_eq_of_lt h] at hend hsuccess hnext
      obtain ⟨hvalues, hread⟩ := getItemValues_run (m := m) (d.index + 1)
        (withHeader (m d.index.toNat) d.item) hfour (by omega)
      by_cases hgt : d.index.toNat + encodedSize m d.index.toNat > d.descriptorLength.toNat
      · obtain ⟨hrun, hreads⟩ := hend hgt
        refine ⟨?_, ?_, fun hc => absurd hc.2 (not_le.mpr hgt), fun _ => ?_⟩
        · intro p hp
          rw [hreads, mem_singleton] at hp
          omega
        · rw [hrun]
          exact ⟨rfl, rfl⟩
        · rw [hrun]
      · obtain ⟨hrun, hreads⟩ := hsuccess hgt
        refine ⟨?_, ?_, fun _ => ?_, fun hc => absurd ⟨hlt, not_lt.mp hgt⟩ hc⟩
        · intro p hp
          rw [hreads, hread, mem_cons, mem_range'_1] at hp
          omega
        · rw [hrun]
          exact ⟨rfl, rfl⟩
        · rw [hrun, hvalues, hone]
          exact ⟨rfl, hnext, fun _ => rfl⟩

/-! ### A pass over the descriptor -/

section Pass

variable {d₀ : ReportDescriptor}

/-- The descriptor before some call of a pass, which ends with the first call that is not a
success. -/
inductive Called (m : Mem) (d₀ : ReportDescriptor) : ReportDescriptor → Prop
  | first : Called m d₀ d₀
  | next {d : ReportDescriptor} (h : Called m d₀ d)
      (hsuccess : ((hidNextItem d).run m).1 = .success) :
      Called m d₀ ((hidNextItem d).run m).2

/-- The positions of the items, one behind the other. -/
inductive ItemAt (m : Mem) (length start : ℕ) : ℕ → Prop
  | first : ItemAt m length start start
  | next {i : ℕ} (h : ItemAt m length start i) (hc : Complete m length i) :
      ItemAt m length start (i + encodedSize m i)

theorem Called.itemAt (h : Called m d₀ d)
    (hclean : ∀ i, ItemAt m d₀.descriptorLength.toNat d₀.index.toNat i →
      CleanAt m d₀.descriptorLength.toNat d₀.collectionStack.toNat i) :
    d.descriptorLength = d₀.descriptorLength ∧ d.collectionStack = d₀.collectionStack ∧
      ItemAt m d₀.descriptorLength.toNat d₀.index.toNat d.index.toNat := by
  induction h with
  | first => exact ⟨rfl, rfl, .first⟩
  | @next d h hsuccess ih =>
    obtain ⟨hlength, hstack, hitem⟩ := ih
    have hcall : Tokenised m d := by
      rw [tokenised_iff, hlength, hstack]
      exact hclean _ hitem
    have hcomplete : Complete m d.descriptorLength.toNat d.index.toNat := by
      by_contra hc
      have hstatus := hcall.incomplete hc
      rw [hsuccess] at hstatus
      cases hstatus
    obtain ⟨hlength', hstack'⟩ := hcall.frame
    rw [(hcall.complete hcomplete).2.1]
    rw [hlength] at hcomplete
    exact ⟨hlength'.trans hlength, hstack'.trans hstack, .next hitem hcomplete⟩

theorem ItemAt.called {i : ℕ} (hok : ∀ d, Called m d₀ d → Tokenised m d)
    (h : ItemAt m d₀.descriptorLength.toNat d₀.index.toNat i) :
    ∃ d, Called m d₀ d ∧ d.index.toNat = i ∧ d.descriptorLength = d₀.descriptorLength ∧
      d.collectionStack = d₀.collectionStack := by
  induction h with
  | first => exact ⟨d₀, .first, rfl, rfl, rfl⟩
  | next h hc ih =>
    obtain ⟨d, hd, rfl, hlength, hstack⟩ := ih
    have hcall := hok d hd
    rw [← hlength] at hc
    obtain ⟨hsuccess, hindex, -⟩ := hcall.complete hc
    obtain ⟨hlength', hstack'⟩ := hcall.frame
    exact ⟨_, .next hd hsuccess, hindex, hlength'.trans hlength, hstack'.trans hstack⟩

end Pass

/-- All calls of a pass over a descriptor do what they should, exactly if all of its items are
clean. -/
theorem calls_tokenised_iff (m : Mem) (d₀ : ReportDescriptor) :
    (∀ d, Called m d₀ d → Tokenised m d) ↔
      ∀ i, ItemAt m d₀.descriptorLength.toNat d₀.index.toNat i →
        CleanAt m d₀.descriptorLength.toNat d₀.collectionStack.toNat i := by
  constructor
  · intro hok i hi
    obtain ⟨d, hd, rfl, hlength, hstack⟩ := hi.called hok
    rw [← hlength, ← hstack]
    exact tokenised_iff.mp (hok d hd)
  · intro hclean d hd
    obtain ⟨hlength, hstack, hitem⟩ := hd.itemAt hclean
    rw [tokenised_iff, hlength, hstack]
    exact hclean _ hitem

/-- At a long item of one data byte the call returns another item than it should, and the
pointer to the collection stack is changed. -/
theorem longItem_not_tokenised :
    ¬Tokenised (Mem.ofList [0xFE, 1, 0x10, 0x20, 0xC0]) ⟨5, 0, 0, ⟨0, .main, 0, 0, 0⟩⟩ ∧
      ((hidNextItem ⟨5, 0, 0, ⟨0, .main, 0, 0, 0⟩⟩).run
        (Mem.ofList [0xFE, 1, 0x10, 0x20, 0xC0])).2.index = 2 ∧
      ((hidNextItem ⟨5, 0, 0, ⟨0, .main, 0, 0, 0⟩⟩).run
        (Mem.ofList [0xFE, 1, 0x10, 0x20, 0xC0])).2.collectionStack = 1 := by
  refine ⟨fun h => ?_, by decide +kernel, by decide +kernel⟩
  exact absurd h.frame.2 (by decide +kernel)

end Hexley.Hid
