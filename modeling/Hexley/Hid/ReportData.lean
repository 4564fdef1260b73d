import Hexley.Hid.Descriptor
import Hexley.Lib.Bits

/-!
Fields of a report.

A report is a string of bits, and a field of it is given by its first bit
and its size. `HIDPutData` and `HIDGetData` work on a word of 32 bits that
is shifted to where the field starts in its first byte. If the field then
ends behind the word, in a fifth byte, the bits there are lost on both
sides: what is put into them is the sign of the shifted word, and what is
read from them is shifted out of the word.

What each of the two functions does is said for every field, bit by bit
(`bit_putData`, `getLsbD_getData`), and the bits that are lost come out of
comparing the two.
-/

namespace Hexley.Hid

open Lib BitVec Mem

/-! ### The functions -/

def byteWord (b : UInt8) : Word := b.toBitVec.setWidth 32

def wordByte (data : Word) : UInt8 := ⟨data.setWidth 8⟩

/-- The bytes between the first and the last: `n` of them, from `p` on, are stored, and what
is left of the data is handed back. -/
def putMiddle : ℕ → ℕ → Word → Mem → Mem × Word
  | 0, _, iShiftedData, report => (report, iShiftedData)
  | n + 1, p, iShiftedData, report =>
    putMiddle n (p + 1) (iShiftedData.sshiftRight 8) (report.write p [wordByte iShiftedData])

/-- `HIDPutData`. There is no report if the parameters are bad. -/
def hidPutData (report : Mem) (reportLength start size value : Word) : Option Mem :=
  let iLast := start + size - 1
  let iLastByte := iLast.toNat / 8
  if size = 0 ∨ iLastByte ≥ reportLength.toNat then none
  else
    let iLastMask := ~~~(lowMask 32 (iLast.toNat % 8 + 1))
    let iStartByte := start.toNat / 8
    let startBit := start.toNat % 8
    let iStartMask := lowMask 32 startBit
    if iStartByte = iLastByte then
      let iDataMask := iStartMask ||| iLastMask
      let data := byteWord (report iStartByte) &&& iDataMask
      let iShiftedData := (value <<< startBit) &&& ~~~iDataMask
      some (report.write iStartByte [wordByte (data ||| iShiftedData)])
    else
      let data := byteWord (report iStartByte) &&& iStartMask
      let iShiftedData := value <<< startBit
      let report := report.write iStartByte [wordByte (data ||| iShiftedData)]
      -- The loop counts `iStartByte` up, which is then where the last byte is stored.
      let n := iLastByte - (iStartByte + 1)
      let (report, iShiftedData) :=
        putMiddle n (iStartByte + 1) (iShiftedData.sshiftRight 8) report
      let data := byteWord (report iLastByte) &&& iLastMask
      let iShiftedData := iShiftedData &&& ~~~iLastMask
      some (report.write (iStartByte + 1 + n) [wordByte (data ||| iShiftedData)])

/-- The bytes of a field from the last one down: `n` of them, from `first` on, are left. -/
def getBytes (report : Mem) (first iLastBit : ℕ) : ℕ → Word → Word
  | 0, data => data
  | n + 1, data =>
    let iCurrentByte := first + n
    let iMask := if iCurrentByte = iLastBit / 8 then lowMask 32 (iLastBit % 8 + 1) else 0xff
    getBytes report first iLastBit n ((data <<< 8) ||| (byteWord (report iCurrentByte) &&& iMask))

/-- The sign extension of `HIDGetData`. -/
def extendSign (iSize : ℕ) (data : Word) : Word :=
  let iSignBit : Word := if iSize > 1 then (1 : Word) <<< (iSize - 1) else 1
  let iExtendMask := (iSignBit <<< 1) - 1
  if data &&& iSignBit = 0 then data &&& iExtendMask else data ||| ~~~iExtendMask

/-- `HIDGetData`. There is no value if the parameters are bad. -/
def hidGetData (report : Mem) (iReportLength iStart iSize : Word) (bSignExtend : Bool) :
    Option Word :=
  let iStartByte := iStart.toNat / 8
  let startBit := iStart.toNat % 8
  let iLastBit := (iStart + iSize - 1).toNat
  let iLastByte := iLastBit / 8
  if iSize = 0 ∨ iLastByte ≥ iReportLength.toNat ∨ iLastByte < iStartByte then none
  else
    let data := getBytes report iStartByte iLastBit (iLastByte + 1 - iStartByte) 0 >>> startBit
    some (if bSignExtend then extendSign iSize.toNat data else data)

/-! ### Bits -/

variable {report : Mem} {start size value reportLength : Word}

section Bits

variable (data : Word) {i j n : ℕ}

def extBit (i : ℕ) : Bool := if i < 32 then data.getLsbD i else data.msb

theorem getLsbD_byteWord (b : UInt8) (i : ℕ) : (byteWord b).getLsbD i = b.toBitVec.getLsbD i := by
  rw [byteWord, getLsbD_setWidth]
  by_cases hi : i < 32
  · simp [hi]
  · rw [getLsbD_of_ge b.toBitVec i (by omega)]
    simp

theorem getLsbD_wordByte (hi : i < 8) : (wordByte data).toBitVec.getLsbD i = data.getLsbD i := by
  rw [wordByte, getLsbD_setWidth]
  simp [hi]

theorem getLsbD_extBit (s : ℕ) (hi : i < 32) :
    (data.sshiftRight s).getLsbD i = extBit data (s + i) := by
  rw [getLsbD_sshiftRight, extBit]
  simp [not_le.mpr hi]

theorem sshiftRight_sshiftRight (s t : ℕ) :
    (data.sshiftRight s).sshiftRight t = data.sshiftRight (s + t) :=
  (sshiftRight_add ..).symm

theorem putMiddle_spec (n p s : ℕ) (data : Word) (report : Mem) :
    (putMiddle n p (data.sshiftRight s) report).2 = data.sshiftRight (s + 8 * n) ∧
      ∀ i, (putMiddle n p (data.sshiftRight s) report).1.bit i =
        if 8 * p ≤ i ∧ i < 8 * (p + n) then extBit data (s + (i - 8 * p)) else report.bit i := by
  induction n generalizing p s report with
  | zero =>
    refine ⟨rfl, fun i => ?_⟩
    rw [if_neg (by omega)]
    rfl
  | succ n ih =>
    rw [putMiddle, sshiftRight_sshiftRight]
    obtain ⟨hrest, hbits⟩ := ih (p + 1) (s + 8) (report.write p [wordByte (data.sshiftRight s)])
    refine ⟨by rw [hrest, show s + 8 + 8 * n = s + 8 * (n + 1) by omega], fun i => ?_⟩
    rw [hbits, bit_write]
    by_cases hp : i / 8 = p
    · rw [if_neg (by omega), if_pos hp, if_pos (by omega),
        getLsbD_wordByte _ (Nat.mod_lt _ (by decide)),
        getLsbD_extBit _ _ (by omega), show i - 8 * p = i % 8 by omega]
    · by_cases hi : 8 * (p + 1) ≤ i ∧ i < 8 * (p + 1 + n)
      · rw [if_pos hi, if_pos (by omega), show s + 8 + (i - 8 * (p + 1)) = s + (i - 8 * p) by omega]
      · rw [if_neg hi, if_neg hp, if_neg (by omega)]

theorem toNat_lastBit (hsize : 0 < size.toNat) (hwrap : start.toNat + size.toNat ≤ 2 ^ 32) :
    (start + size - 1).toNat = start.toNat + size.toNat - 1 := by
  rw [toNat_sub, toNat_add]
  have hone : (1 : Word).toNat = 1 := rfl
  omega

theorem getLsbD_merge (old : UInt8) (new mask : Word) {b : ℕ} (hb : b < 8) :
    (wordByte (byteWord old &&& mask ||| new &&& ~~~mask)).toBitVec.getLsbD b =
      if mask.getLsbD b then old.toBitVec.getLsbD b else new.getLsbD b := by
  rw [getLsbD_wordByte _ hb, getLsbD_or, getLsbD_and, getLsbD_and, getLsbD_not, getLsbD_byteWord]
  cases mask.getLsbD b <;> simp [show b < 32 by omega]

theorem getLsbD_lastMask {k b : ℕ} (hb : b < 8) :
    (~~~(lowMask 32 (k + 1))).getLsbD b = decide (k < b) := by
  rw [getLsbD_not, getLsbD_lowMask]
  have hword : b < 32 := by omega
  simp only [hword, decide_true, Bool.true_and, ← decide_not]
  exact decide_eq_decide.mpr (by omega)

/-- `HIDPutData` changes the bits of the field, and puts the shifted word there. -/
theorem bit_putData (value : Word) (report : Mem) (hsize : 0 < size.toNat)
    (hwrap : start.toNat + size.toNat ≤ 2 ^ 32)
    (hin : start.toNat + size.toNat ≤ 8 * reportLength.toNat) :
    ∃ report', hidPutData report reportLength start size value = some report' ∧
      ∀ i, report'.bit i = if start.toNat ≤ i ∧ i < start.toNat + size.toNat then
        extBit (value <<< (start.toNat % 8)) (i - 8 * (start.toNat / 8)) else report.bit i := by
  have hlast := toNat_lastBit hsize hwrap
  have hgood : ¬(size = 0 ∨ (start + size - 1).toNat / 8 ≥ reportLength.toNat) := by
    rintro (rfl | h)
    · exact absurd hsize (by decide)
    · omega
  unfold hidPutData
  dsimp only
  rw [if_neg hgood, hlast]
  set first := start.toNat / 8 with hfirst
  set startBit := start.toNat % 8 with hstartBit
  set last := start.toNat + size.toNat - 1 with hlast'
  by_cases hone : first = last / 8
  · -- The field is in one byte.
    rw [if_pos hone]
    refine ⟨_, rfl, fun i => ?_⟩
    rw [bit_write]
    by_cases hi : i / 8 = first
    · have hb : i % 8 < 8 := Nat.mod_lt _ (by decide)
      rw [if_pos hi, getLsbD_merge _ _ _ hb, getLsbD_or, getLsbD_lastMask hb, getLsbD_lowMask]
      by_cases hfield : start.toNat ≤ i ∧ i < start.toNat + size.toNat
      · have hmask : ¬(i % 8 < startBit) ∧ ¬(last % 8 < i % 8) := by omega
        rw [if_pos hfield, extBit, show i - 8 * first = i % 8 by omega,
          if_pos (show i % 8 < 32 by omega)]
        simp [hmask.1, hmask.2]
      · have hmask : i % 8 < startBit ∨ last % 8 < i % 8 := by omega
        rw [if_neg hfield, bit, hi]
        rcases hmask with hmask | hmask <;> simp [hmask, show i % 8 < 32 by omega]
    · rw [if_neg hi, if_neg (by omega)]
  · -- It is in several, the last of which is `last / 8`.
    rw [if_neg hone]
    set data := value <<< startBit with hdata
    set report₁ := report.write first [wordByte (byteWord (report first) &&& lowMask 32 startBit |||
      data)] with hreport₁
    have hbits₁ (i : ℕ) : report₁.bit i =
        if start.toNat ≤ i ∧ i < 8 * (first + 1) then extBit data (i - 8 * first)
        else report.bit i := by
      rw [hreport₁, bit_write]
      by_cases hi : i / 8 = first
      · rw [if_pos hi, getLsbD_wordByte _ (Nat.mod_lt _ (by decide)), getLsbD_or,
          getLsbD_and, getLsbD_byteWord, getLsbD_lowMask, hdata, getLsbD_shiftLeft]
        by_cases hb : i % 8 < startBit
        · rw [if_neg (by omega), bit, hi]
          simp [hb, show i % 8 < 32 by omega]
        · rw [if_pos (by omega), extBit, if_pos (by omega), show i - 8 * first = i % 8 by omega,
            getLsbD_shiftLeft]
          simp [hb]
      · rw [if_neg hi, if_neg (by omega)]
    obtain ⟨hrest, hbits₂⟩ := putMiddle_spec (last / 8 - (first + 1)) (first + 1) 8 data report₁
    generalize putMiddle (last / 8 - (first + 1)) (first + 1) (data.sshiftRight 8) report₁ = x
      at hrest hbits₂ ⊢
    obtain ⟨report₂, rest⟩ := x
    rw [show first + 1 + (last / 8 - (first + 1)) = last / 8 by omega]
    refine ⟨_, rfl, fun i => ?_⟩
    rw [bit_write]
    by_cases hi : i / 8 = last / 8
    · have hb : i % 8 < 8 := Nat.mod_lt _ (by decide)
      rw [if_pos hi, getLsbD_merge _ _ _ hb, getLsbD_lastMask hb]
      by_cases hfield : i < start.toNat + size.toNat
      · have hmask : ¬(last % 8 < i % 8) := by omega
        rw [if_pos (show _ ∧ _ by omega), if_neg (by simpa using hmask), hrest,
          getLsbD_extBit _ _ (by omega)]
        congr 1
        omega
      · have hmask : last % 8 < i % 8 := by omega
        rw [if_neg (show ¬(_ ∧ _) by omega), if_pos (by simpa using hmask), ← hi]
        change report₂.bit i = _
        rw [hbits₂, if_neg (by omega), hbits₁, if_neg (by omega)]
    · rw [if_neg hi, hbits₂]
      by_cases hmiddle : 8 * (first + 1) ≤ i ∧ i < 8 * (last / 8)
      · rw [if_pos (by omega), if_pos (by omega)]
        congr 1
        omega
      · rw [if_neg (by omega), hbits₁]
        by_cases hstart : start.toNat ≤ i ∧ i < 8 * (first + 1)
        · rw [if_pos hstart, if_pos (by omega)]
        · rw [if_neg hstart, if_neg (by omega)]

/-! ### Reading -/

theorem getLsbD_getBytes (first iLastBit n : ℕ) (data : Word) (hj : j < 32) :
    (getBytes report first iLastBit n data).getLsbD j = if j < 8 * n then
        report.bit (8 * first + j) &&
          (decide ((8 * first + j) / 8 ≠ iLastBit / 8) || decide (8 * first + j ≤ iLastBit))
      else data.getLsbD (j - 8 * n) := by
  induction n generalizing data with
  | zero => rfl
  | succ n ih =>
    rw [getBytes, ih]
    by_cases hlow : j < 8 * n
    · rw [if_pos hlow, if_pos (by omega)]
    rw [if_neg hlow, getLsbD_or, getLsbD_shiftLeft, getLsbD_and, getLsbD_byteWord]
    by_cases hnow : j < 8 * (n + 1)
    · have hbit : report.bit (8 * first + j) =
          (report (first + n)).toBitVec.getLsbD (j - 8 * n) := by
        rw [show 8 * first + j = 8 * (first + n) + (j - 8 * n) by omega]
        exact bit_add report (first + n) (by omega)
      rw [if_pos hnow, hbit, show (8 * first + j) / 8 = first + n by omega]
      by_cases hlast : first + n = iLastBit / 8
      · rw [if_pos hlast, getLsbD_lowMask]
        have hiff : j - 8 * n < iLastBit % 8 + 1 ↔ 8 * first + j ≤ iLastBit := by omega
        simp [hlast, hiff, show j - 8 * n < 8 by omega, show j - 8 * n < 32 by omega]
      · have hff : (0xff : Word).getLsbD (j - 8 * n) = true := by
          rw [show (0xff : Word) = lowMask 32 8 from rfl, getLsbD_lowMask]
          simp [show j - 8 * n < 8 by omega, show j - 8 * n < 32 by omega]
        rw [if_neg hlast, hff]
        simp [hlast, show j - 8 * n < 8 by omega]
    · rw [if_neg hnow, getLsbD_of_ge (report (first + n)).toBitVec _ (by omega)]
      simp [show ¬(j - 8 * n < 8) by omega, show j - 8 * n < 32 by omega]
      congr 1

/-- The bits of the field that `HIDGetData` gets to see: those in the first 32 bits from the
start of the first byte on. -/
theorem getLsbD_field (report : Mem) (hsize : 0 < size.toNat)
    (hwrap : start.toNat + size.toNat ≤ 2 ^ 32) (j : ℕ) :
    (getBytes report (start.toNat / 8) (start + size - 1).toNat
        ((start + size - 1).toNat / 8 + 1 - start.toNat / 8) 0 >>> (start.toNat % 8)).getLsbD j =
      (decide (start.toNat % 8 + j < 32) && decide (j < size.toNat) &&
        report.bit (start.toNat + j)) := by
  rw [getLsbD_ushiftRight]
  by_cases hword : start.toNat % 8 + j < 32
  swap
  · rw [getLsbD_of_ge _ _ (not_lt.mp hword)]
    simp [hword]
  rw [getLsbD_getBytes _ _ _ _ hword, toNat_lastBit hsize hwrap,
    show 8 * (start.toNat / 8) + (start.toNat % 8 + j) = start.toNat + j by omega]
  by_cases hj : j < size.toNat
  · have hle : start.toNat + j ≤ start.toNat + size.toNat - 1 := by omega
    rw [if_pos (by omega)]
    simp [hword, hj, hle]
  · split
    · have hsame : (start.toNat + j) / 8 = (start.toNat + size.toNat - 1) / 8 := by omega
      have hgt : ¬start.toNat + j ≤ start.toNat + size.toNat - 1 := by omega
      simp [hj, hsame, hgt]
    · simp [hj]

theorem extendSign_bits (hn : 0 < n) (hn' : n ≤ 32) (data : Word) (hj : j < 32) :
    (extendSign n data).getLsbD j = if j < n then data.getLsbD j else data.getLsbD (n - 1) := by
  have hsign : (if n > 1 then (1 : Word) <<< (n - 1) else 1) = twoPow 32 (n - 1) := by
    split
    · rfl
    · rw [show n - 1 = 0 by omega]
      rfl
  have hmask : twoPow 32 (n - 1) <<< 1 - 1 = lowMask 32 n := by
    rw [lowMask, twoPow_eq, ← shiftLeft_add, show n - 1 + 1 = n by omega]
    rfl
  unfold extendSign
  dsimp only
  rw [hsign, hmask, BitVec.and_comm, BitVec.twoPow_and]
  cases hbit : data.getLsbD (n - 1) with
  | false =>
    rw [if_neg Bool.false_ne_true, if_pos (show 0#32 = 0 from rfl), getLsbD_and, getLsbD_lowMask]
    by_cases hjn : j < n <;> simp [hjn, hj]
  | true =>
    have hne : twoPow 32 (n - 1) ≠ 0 := by
      intro h
      have := congrArg (getLsbD · (n - 1)) h
      simp [show n - 1 < 32 by omega] at this
    rw [if_pos rfl, if_neg hne, getLsbD_or, getLsbD_not, getLsbD_lowMask]
    by_cases hjn : j < n <;> simp [hjn, hj]

def fieldValue (n : ℕ) (bSignExtend : Bool) (value : Word) : Word :=
  if bSignExtend then (value.setWidth n).signExtend 32 else (value.setWidth n).setWidth 32

theorem getLsbD_fieldValue (hn : 0 < n) (bSignExtend : Bool) (value : Word) (hj : j < 32) :
    (fieldValue n bSignExtend value).getLsbD j =
      if j < n then value.getLsbD j else bSignExtend && value.getLsbD (n - 1) := by
  unfold fieldValue
  cases bSignExtend with
  | false =>
    by_cases hjn : j < n <;> simp [hj, hjn]
  | true =>
    rw [if_pos rfl, getLsbD_signExtend, msb_setWidth]
    by_cases hjn : j < n
    · simp [hj, hjn]
    · simp [hj, hjn, show 0 < n from hn]

end Bits

/-! ### What is read back -/

/-- The value that was put into a field is read back, with or without its sign, and no other
bit of the report has changed. -/
def ReadsBack (report : Mem) (reportLength start size value : Word) : Prop :=
  ∃ report', hidPutData report reportLength start size value = some report' ∧
    (∀ bSignExtend, hidGetData report' reportLength start size bSignExtend =
      some (fieldValue size.toNat bSignExtend value)) ∧
    ∀ i, ¬(start.toNat ≤ i ∧ i < start.toNat + size.toNat) → report'.bit i = report.bit i

section ReadsBack

variable {report' : Mem}

theorem hidGetData_eq (hsize : 0 < size.toNat) (hwrap : start.toNat + size.toNat ≤ 2 ^ 32)
    (hin : start.toNat + size.toNat ≤ 8 * reportLength.toNat) (bSignExtend : Bool) :
    hidGetData report reportLength start size bSignExtend =
      some (if bSignExtend then extendSign size.toNat (getBytes report (start.toNat / 8)
          (start + size - 1).toNat ((start + size - 1).toNat / 8 + 1 - start.toNat / 8) 0 >>>
            (start.toNat % 8))
        else getBytes report (start.toNat / 8) (start + size - 1).toNat
          ((start + size - 1).toNat / 8 + 1 - start.toNat / 8) 0 >>> (start.toNat % 8)) := by
  have hlast := toNat_lastBit hsize hwrap
  have hgood : ¬(size = 0 ∨ (start + size - 1).toNat / 8 ≥ reportLength.toNat ∨
      (start + size - 1).toNat / 8 < start.toNat / 8) := by
    rintro (rfl | h | h)
    · exact absurd hsize (by decide)
    · omega
    · omega
  rw [hidGetData, if_neg hgood]

/-- A field whose last bit has no number of 32 bits is not read. -/
theorem hidGetData_of_wrap (hsize : 0 < size.toNat) (hsize' : size.toNat ≤ 32)
    (hwrap : 2 ^ 32 < start.toNat + size.toNat) (bSignExtend : Bool) :
    hidGetData report reportLength start size bSignExtend = none := by
  have hlast : (start + size - 1).toNat = start.toNat + size.toNat - 1 - 2 ^ 32 := by
    have hone : (1 : Word).toNat = 1 := rfl
    rw [toNat_sub, toNat_add]
    omega
  have hbad : (start + size - 1).toNat / 8 < start.toNat / 8 := by omega
  rw [hidGetData, if_pos (.inr (.inr hbad))]

end ReadsBack

/-- For every report and every field of it of up to 32 bits, a value is read back exactly when
the bits of the field have numbers of 32 bits and those bits of the value are zero that come
to lie in a fifth byte. -/
theorem readsBack_iff (report : Mem) (reportLength start size value : Word) (hsize : 1 ≤ size.toNat)
    (hsize' : size.toNat ≤ 32) (hin : start.toNat + size.toNat ≤ 8 * reportLength.toNat) :
    ReadsBack report reportLength start size value ↔ start.toNat + size.toNat ≤ 2 ^ 32 ∧
        ∀ j, 32 ≤ start.toNat % 8 + j → j < size.toNat → value.getLsbD j = false := by
  by_cases hwrap : start.toNat + size.toNat ≤ 2 ^ 32
  swap
  · refine iff_of_false ?_ fun h => hwrap h.1
    rintro ⟨report', -, hget, -⟩
    have := hget false
    rw [hidGetData_of_wrap hsize hsize' (not_le.mp hwrap)] at this
    cases this
  obtain ⟨report', hput, hbits⟩ := bit_putData value report hsize hwrap hin
  -- What comes back, bit by bit.
  have hfield {j : ℕ} (hj : j < size.toNat) (hword : start.toNat % 8 + j < 32) :
      report'.bit (start.toNat + j) = value.getLsbD j := by
    rw [hbits, if_pos (by omega), extBit, if_pos (by omega), getLsbD_shiftLeft,
      show start.toNat + j - 8 * (start.toNat / 8) = start.toNat % 8 + j by omega]
    simp [hword]
  have hdata := getLsbD_field report' hsize hwrap
  constructor
  · rintro ⟨report'', hput', hget, -⟩
    cases hput.symm.trans hput'
    refine ⟨hwrap, fun j hword hj => ?_⟩
    have h := hget false
    rw [hidGetData_eq hsize hwrap hin, if_neg Bool.false_ne_true] at h
    have hbit := congrArg (getLsbD · j) (Option.some.inj h)
    rw [hdata, getLsbD_fieldValue hsize _ _ (by omega), if_pos hj] at hbit
    rw [← hbit]
    simp [not_lt.mpr hword]
  · rintro ⟨-, hzero⟩
    refine ⟨report', hput, fun bSignExtend => ?_, fun i hi => by rw [hbits, if_neg hi]⟩
    have hvalue {j : ℕ} (hj : j < size.toNat) :
        (getBytes report' (start.toNat / 8) (start + size - 1).toNat
          ((start + size - 1).toNat / 8 + 1 - start.toNat / 8) 0 >>> (start.toNat % 8)).getLsbD j =
          value.getLsbD j := by
      rw [hdata]
      by_cases hword : start.toNat % 8 + j < 32
      · simp [hword, hj, hfield hj hword]
      · simp [hword, hzero j (not_lt.mp hword) hj]
    rw [hidGetData_eq hsize hwrap hin]
    congr 1
    refine eq_of_getLsbD_eq fun j hj => ?_
    rw [getLsbD_fieldValue hsize _ _ hj]
    cases bSignExtend with
    | false =>
      rw [if_neg Bool.false_ne_true]
      split
      · next hjn => exact hvalue hjn
      · next hjn => rw [hdata]; simp [hjn]
    | true =>
      rw [if_pos rfl, extendSign_bits hsize hsize' _ hj]
      split
      · next hjn => exact hvalue hjn
      · rw [hvalue (Nat.sub_lt hsize one_pos), Bool.true_and]

theorem readsBack_byte : ReadsBack (ofList [0xff, 0xff, 0xff]) 3 4 12 0x5a5 :=
  (readsBack_iff (ofList [0xff, 0xff, 0xff]) 3 4 12 0x5a5 (by decide) (by decide)
    (by decide)).mpr ⟨by decide, fun j hword hj => absurd hword (by
      have : j < 12 := hj
      omega)⟩

/-- The highest bit of a field of 32 bits that does not start with a byte is lost. -/
theorem not_readsBack_wide : (hidPutData (ofList []) 5 1 32 0x80000000 >>= fun report =>
        hidGetData report 5 1 32 false) = some 0 ∧
      ¬ReadsBack (ofList []) 5 1 32 0x80000000 := by
  have hlost : (hidPutData (ofList []) 5 1 32 0x80000000 >>= fun report =>
      hidGetData report 5 1 32 false) = some 0 := by decide +kernel
  refine ⟨hlost, ?_⟩
  rintro ⟨report', hput, hget, -⟩
  rw [hput, Option.bind_eq_bind, Option.bind_some, hget] at hlost
  exact absurd hlost (by decide)

/-! ### Which bytes are accessed -/

/-- The subscripts of `psReport` in `HIDGetData`, in order. -/
def getDataBytes (iReportLength iStart iSize : Word) : List ℕ :=
  let iStartByte := iStart.toNat / 8
  let iLastByte := (iStart + iSize - 1).toNat / 8
  if iSize = 0 ∨ iLastByte ≥ iReportLength.toNat ∨ iLastByte < iStartByte then []
  else (List.range' iStartByte (iLastByte + 1 - iStartByte)).reverse

/-- The subscripts of `psReport` in `HIDPutData`, in order. -/
def putDataBytes (reportLength start size : Word) : List ℕ :=
  let iLastByte := (start + size - 1).toNat / 8
  if size = 0 ∨ iLastByte ≥ reportLength.toNat then []
  else
    let iStartByte := start.toNat / 8
    if iStartByte = iLastByte then [iStartByte, iStartByte]
    else
      let n := iLastByte - (iStartByte + 1)
      [iStartByte, iStartByte] ++ List.range' (iStartByte + 1) n ++ [iLastByte, iStartByte + 1 + n]

/-- No byte behind the report is accessed, and a field that does not lie in
the report is an error. -/
structure StaysInside (reportLength start size : Word) : Prop where
  get : ∀ i ∈ getDataBytes reportLength start size, i < reportLength.toNat
  put : ∀ i ∈ putDataBytes reportLength start size, i < reportLength.toNat
  get_none : 8 * reportLength.toNat < start.toNat + size.toNat →
    ∀ report bSignExtend, hidGetData report reportLength start size bSignExtend = none
  put_none : 8 * reportLength.toNat < start.toNat + size.toNat →
    ∀ report value, hidPutData report reportLength start size value = none

theorem staysInside_of_bad (h : size = 0 ∨ (start + size - 1).toNat / 8 ≥ reportLength.toNat) :
    StaysInside reportLength start size := by
  have h' : size = 0 ∨ (start + size - 1).toNat / 8 ≥ reportLength.toNat ∨
      (start + size - 1).toNat / 8 < start.toNat / 8 := h.imp_right .inl
  refine ⟨?_, ?_, fun _ _ _ => if_pos h', fun _ _ _ => if_pos h⟩
  · rw [getDataBytes, if_pos h']
    exact nofun
  · rw [putDataBytes, if_pos h]
    exact nofun

theorem staysInside_of_contained (hin : start.toNat + size.toNat ≤ 8 * reportLength.toNat)
    (hlast : (start + size - 1).toNat / 8 < reportLength.toNat)
    (hfirst : start.toNat / 8 + 1 < reportLength.toNat ∨
      start.toNat / 8 ≤ (start + size - 1).toNat / 8) : StaysInside reportLength start size := by
  refine ⟨fun i hi => ?_, fun i hi => ?_, fun h => by omega, fun h => by omega⟩
  · rw [getDataBytes] at hi
    split at hi
    · cases hi
    · simp only [List.mem_reverse, List.mem_range'_1] at hi
      omega
  · rw [putDataBytes] at hi
    dsimp only at hi
    split at hi
    · cases hi
    · split at hi
      all_goals
        simp only [List.mem_append, List.mem_cons, List.mem_range'_1, List.not_mem_nil,
          or_false] at hi
        omega

/-- For every report and every field, both functions stay inside the report
exactly if the end of the field has a number of 32 bits, or lies in the
report, or comes out behind the report when it is taken modulo `2 ^ 32`. -/
theorem staysInside_iff (reportLength start size : Word) :
    StaysInside reportLength start size ↔ start.toNat + size.toNat ≤ 2 ^ 32 ∨
      start.toNat + size.toNat ≤ 8 * reportLength.toNat ∨
      2 ^ 32 + 8 * reportLength.toNat < start.toNat + size.toNat := by
  by_cases hzero : size = 0
  · subst hzero
    exact iff_of_true (staysInside_of_bad (.inl rfl)) (.inl (by simp; omega))
  have hsize : 0 < size.toNat := by
    have : size.toNat ≠ 0 := fun h => hzero (BitVec.eq_of_toNat_eq h)
    omega
  by_cases hwrap : start.toNat + size.toNat ≤ 2 ^ 32
  · have hlast := toNat_lastBit hsize hwrap
    refine iff_of_true ?_ (.inl hwrap)
    by_cases hin : start.toNat + size.toNat ≤ 8 * reportLength.toNat
    · exact staysInside_of_contained hin (by omega) (by omega)
    · exact staysInside_of_bad (.inr (by omega))
  · -- the last bit is taken modulo `2 ^ 32`, and lies in front of the first
    have hlast : (start + size - 1).toNat = start.toNat + size.toNat - 1 - 2 ^ 32 := by
      have hone : (1 : Word).toNat = 1 := rfl
      rw [toNat_sub, toNat_add]
      omega
    by_cases hin : start.toNat + size.toNat ≤ 8 * reportLength.toNat
    · exact iff_of_true (staysInside_of_contained hin (by omega) (by omega)) (.inr (.inl hin))
    by_cases hbehind : 2 ^ 32 + 8 * reportLength.toNat < start.toNat + size.toNat
    · exact iff_of_true (staysInside_of_bad (.inr (by omega))) (.inr (.inr hbehind))
    refine iff_of_false (fun h => ?_) (by omega)
    have hput := h.put_none (by omega) (ofList []) 0
    rw [hidPutData, if_neg (by rintro (h | h) <;> [exact hzero h; omega])] at hput
    dsimp only at hput
    split at hput <;> cases hput

/-- A field of 16 bits that starts with the last byte that has a number is put
far behind a report of one byte. -/
theorem not_staysInside_last :
    putDataBytes 1 0xFFFFFFF8 16 = [0x1FFFFFFF, 0x1FFFFFFF, 0, 0x20000000] ∧
      ¬StaysInside 1 0xFFFFFFF8 16 := by
  refine ⟨by decide, fun h => ?_⟩
  exact absurd (h.put 0x1FFFFFFF (by decide)) (by decide)

end Hexley.Hid
