import Hexley.Dns.NameEquality

/-!
`ValidateRData` of `DNSCommon.c`, which looks at rdata before a record is
registered.

The name in the rdata is measured by `DomainNameLengthLimit`. It steps by
the length bytes and may step over the end of the rdata, but it reads only
bytes before the end, and a length is returned only for a root label there.
-/

namespace Hexley.Dns

open Lib List Mem

def domainNameLengthLimitFrom (m : Mem) (name limit : ℕ) : ℕ → ℕ → ℕ
  | 0, _ => maxDomainName + 1
  | fuel + 1, src =>
    if src < limit ∧ (m src).toNat ≤ maxDomainLabel then
      if m src = 0 then (src - name + 1) % 2 ^ 16
      else domainNameLengthLimitFrom m name limit fuel (src + 1 + (m src).toNat)
    else maxDomainName + 1

/-- `DomainNameLengthLimit`. Every turn of the loop moves on. -/
def domainNameLengthLimit (m : Mem) (name limit : ℕ) : ℕ :=
  domainNameLengthLimitFrom m name limit limit name

def stringsEnd (m : Mem) (stop : ℕ) : ℕ → ℕ → ℕ
  | 0, ptr => ptr
  | fuel + 1, ptr => if ptr < stop then stringsEnd m stop fuel (ptr + 1 + (m ptr).toNat) else ptr

variable (offset : ℕ) (bytes : List UInt8) (rrtype rdlength : UInt16) (rd : Mem)

/-- The check for a name that follows `offset` bytes. -/
def validateName (rdlength : UInt16) (rd : Mem) : Bool :=
  let len := domainNameLengthLimit rd offset rdlength.toNat
  len ≤ maxDomainName ∧ rdlength.toNat = offset + len

def validateStrings (rdlength : UInt16) (rd : Mem) : Bool :=
  rdlength ≠ 0 ∧ stringsEnd rd rdlength.toNat rdlength.toNat 0 = rdlength.toNat

def validateRData : Bool :=
  match rrtype.toNat with
  | 1 => rdlength = 4
  -- NS, MD, MF, CNAME, MB, MG, MR and PTR
  | 2 | 3 | 4 | 5 | 7 | 8 | 9 | 12 => validateName 0 rdlength rd
  -- HINFO, MINFO and TXT
  | 13 | 14 | 16 => validateStrings rdlength rd
  | 28 => rdlength = 16
  -- MX and SRV
  | 15 => validateName 2 rdlength rd
  | 33 => validateName 6 rdlength rd
  | _ => true

def IsName : Prop :=
  ∃ (pre : List UInt8) (d : DomainName), pre.length = offset ∧ bytes = pre ++ d.bytes

/-- The bytes are one or more strings, each behind its length. -/
def IsStrings : Prop :=
  ∃ ss : List (List UInt8), ss ≠ [] ∧ (∀ s ∈ ss, s.length ≤ 255) ∧ bytes = wire ss

/-- What the rdata of a type has to be. -/
def WellFormedRData (rrtype : UInt16) (bytes : List UInt8) : Prop :=
  match rrtype.toNat with
  | 1 => bytes.length = 4
  | 2 | 3 | 4 | 5 | 7 | 8 | 9 | 12 => IsName 0 bytes
  | 13 | 14 | 16 => IsStrings bytes
  | 28 => bytes.length = 16
  | 15 => IsName 2 bytes
  | 33 => IsName 6 bytes
  | _ => True

/-! ### The loops -/

section Loops

variable {m : Mem} {p stop fuel : ℕ}

theorem holds_string :
    m.Holds p (UInt8.ofNat (m.read (p + 1) (m p).toNat).length :: m.read (p + 1) (m p).toNat) := by
  rw [holds_cons, length_read, UInt8.ofNat_toNat]
  exact ⟨rfl, holds_read _ _ _⟩

theorem holds_label_string {ls : List (List UInt8)} {tail : List UInt8} :
    m.Holds p (wire (m.read (p + 1) (m p).toNat :: ls) ++ tail) ↔
      m.Holds (p + 1 + (m p).toNat) (wire ls ++ tail) := by
  rw [holds_label_cons, and_iff_right holds_string, length_read]

theorem string_eq {l : List UInt8} (hle : l.length ≤ 255)
    (h : m.Holds p (UInt8.ofNat l.length :: l)) : m.read (p + 1) (m p).toNat = l := by
  obtain ⟨hlen, hl⟩ := holds_cons.mp h
  rw [hlen, UInt8.toNat_ofNat_of_lt' (Nat.lt_succ_of_le hle)]
  exact hl

theorem stringsEnd_eq_iff (hp : p ≤ stop) (hfuel : stop ≤ p + fuel) :
    stringsEnd m stop fuel p = stop ↔ ∃ ss : List (List UInt8), (∀ s ∈ ss, s.length ≤ 255) ∧
      m.Holds p (wire ss ++ []) ∧ p + (wire ss).length = stop := by
  induction fuel generalizing p with
  | zero =>
    obtain rfl : p = stop := by omega
    exact ⟨fun _ => ⟨[], by simp, rfl, rfl⟩, fun _ => rfl⟩
  | succ fuel ih =>
    rw [stringsEnd]
    by_cases hlt : p < stop
    swap
    · obtain rfl : p = stop := by omega
      rw [if_neg hlt]
      exact ⟨fun _ => ⟨[], by simp, rfl, rfl⟩, fun _ => rfl⟩
    rw [if_pos hlt]
    have hbyte := (m p).toNat_lt
    constructor
    · intro hend
      by_cases hle : p + 1 + (m p).toNat ≤ stop
      · obtain ⟨ss, hshort, hholds, hlen⟩ := (ih hle (by omega)).mp hend
        refine ⟨m.read (p + 1) (m p).toNat :: ss, ?_, holds_label_string.mpr hholds, ?_⟩
        · rw [forall_mem_cons, length_read]
          exact ⟨by omega, hshort⟩
        · rw [length_label_cons, length_read]
          omega
      · -- The string goes over the end, and the loop stops there.
        cases fuel with
        | zero => rw [stringsEnd] at hend; omega
        | succ fuel => rw [stringsEnd, if_neg (by omega)] at hend; omega
    · rintro ⟨ss, hshort, hholds, hlen⟩
      cases ss with
      | nil => simp [wire] at hlen; omega
      | cons s ss =>
        obtain ⟨hs, hss⟩ := forall_mem_cons.mp hshort
        obtain rfl := string_eq hs (holds_label_cons.mp hholds).1
        rw [length_label_cons, length_read] at hlen
        exact (ih (by omega) (by omega)).mpr ⟨ss, hss, holds_label_string.mp hholds, by omega⟩

theorem lengthLimitFrom_eq_iff {name : ℕ} (hname : name ≤ p)
    (hle : stop - name ≤ maxDomainName) (hfuel : stop ≤ p + fuel) :
    domainNameLengthLimitFrom m name stop fuel p = stop - name ↔
      ∃ ls, LabelsFit ls ∧ m.Holds p (wire ls ++ [0]) ∧ p + (wire ls).length + 1 = stop := by
  induction fuel generalizing p with
  | zero =>
    rw [domainNameLengthLimitFrom]
    exact ⟨fun h => by omega, fun ⟨ls, _, _, hlen⟩ => by omega⟩
  | succ fuel ih =>
    have hmax : maxDomainName = 255 := rfl
    rw [domainNameLengthLimitFrom]
    split_ifs with hin hz
    · -- The root label: it has to be the last byte.
      constructor
      · intro hend
        exact ⟨[], fun l hl => absurd hl not_mem_nil, holds_cons.mpr ⟨hz, rfl⟩, by
          simp [wire]; omega⟩
      · rintro ⟨ls, hls, hholds, hlen⟩
        cases ls with
        | nil => simp [wire] at hlen; omega
        | cons l ls =>
          obtain ⟨hpos, hle⟩ := hls l mem_cons_self
          exact absurd hz (ne_zero_of_label hpos hle (holds_label_cons.mp hholds).1)
    · have hpos : 0 < (m p).toNat := by
        refine pos_of_ne_zero fun h => hz ?_
        rwa [← UInt8.toNat_inj]
      rw [ih (by omega) (by omega)]
      constructor
      · rintro ⟨ls, hls, hholds, hlen⟩
        refine ⟨m.read (p + 1) (m p).toNat :: ls, ?_, holds_label_string.mpr hholds, ?_⟩
        · exact forall_mem_cons.mpr ⟨by rw [length_read]; exact ⟨hpos, hin.2⟩, hls⟩
        · rw [length_label_cons, length_read]
          omega
      · rintro ⟨ls, hls, hholds, hlen⟩
        cases ls with
        | nil => exact absurd (holds_cons.mp hholds).1 hz
        | cons l ls =>
          obtain ⟨-, hle⟩ := hls l mem_cons_self
          obtain rfl := string_eq (hle.trans (by decide)) (holds_label_cons.mp hholds).1
          rw [length_label_cons, length_read] at hlen
          exact ⟨ls, hls.tail, holds_label_string.mp hholds, by omega⟩
    · refine ⟨fun h => by omega, ?_⟩
      rintro ⟨ls, hls, hholds, hlen⟩
      refine absurd ⟨by omega, ?_⟩ hin
      cases ls with
      | nil => rw [(holds_cons.mp hholds).1]; decide
      | cons l ls =>
        obtain ⟨-, hle⟩ := hls l mem_cons_self
        rwa [toNat_of_label hle (holds_label_cons.mp hholds).1]

end Loops

/-! ### The rdata -/

section RData

variable {rdlength : UInt16} {rd : Mem}

theorem validateName_iff (offset : ℕ) :
    validateName offset rdlength rd = true ↔ IsName offset (rd.read 0 rdlength.toNat) := by
  rw [validateName, domainNameLengthLimit, decide_eq_true_iff]
  generalize rdlength.toNat = n
  constructor
  · rintro ⟨hle, hn⟩
    obtain ⟨ls, hls, hholds, hlen⟩ := (lengthLimitFrom_eq_iff le_rfl (by omega)
      (by omega)).mp (Nat.eq_sub_of_add_eq' hn.symm)
    refine ⟨rd.read 0 offset, ⟨ls, fun l hl => (hls l hl).1, fun l hl => (hls l hl).2, ?_⟩,
      length_read _ _ _, ?_⟩
    · rw [← length_label]
      omega
    · have hname : rd.read offset ((wire ls).length + 1) = wire ls ++ [0] :=
        hholds.read_eq length_append
      have hsplit := read_add rd 0 offset ((wire ls).length + 1)
      rwa [zero_add, hname, ← add_assoc, hlen] at hsplit
  · rintro ⟨pre, d, rfl, hbytes⟩
    have hlen := congrArg length hbytes
    rw [length_read, length_append] at hlen
    have hle := d.length_bytes_le
    have hholds : rd.Holds 0 (pre ++ d.bytes) := hbytes ▸ holds_read rd 0 n
    rw [holds_append, zero_add] at hholds
    have hsize : d.bytes.length = (wire d.labels).length + 1 := length_append
    have hlimit : domainNameLengthLimitFrom rd pre.length n n pre.length = n - pre.length :=
      (lengthLimitFrom_eq_iff le_rfl (by omega) (by omega)).mpr
        ⟨d.labels, d.labelsFit, hholds.2, by omega⟩
    omega

theorem validateStrings_iff :
    validateStrings rdlength rd = true ↔ IsStrings (rd.read 0 rdlength.toNat) := by
  have hzero : rdlength ≠ 0 ↔ rdlength.toNat ≠ 0 := by
    rw [ne_eq, ne_eq, ← UInt16.toNat_inj, UInt16.toNat_zero]
  simp only [validateStrings, hzero, decide_eq_true_eq]
  rw [stringsEnd_eq_iff (Nat.zero_le _) (by omega)]
  constructor
  · rintro ⟨hn, ss, hshort, hholds, hlen⟩
    rw [append_nil] at hholds
    refine ⟨ss, ?_, hshort, hholds.read_eq (by omega)⟩
    rintro rfl
    exact hn hlen.symm
  · rintro ⟨ss, hne, hshort, hbytes⟩
    have hlen := congrArg length hbytes
    rw [length_read] at hlen
    refine ⟨?_, ss, hshort, ?_, by omega⟩
    · obtain ⟨s, ss, rfl⟩ := exists_cons_of_ne_nil hne
      rw [length_label_cons] at hlen
      omega
    · rw [append_nil, ← hbytes]
      exact holds_read _ _ _

end RData

/-- `ValidateRData` accepts the well-formed rdata and nothing else, and what
stands after the rdata does not matter. -/
theorem validateRData_iff :
    (validateRData rrtype rdlength rd = true ↔ WellFormedRData rrtype (rd.read 0 rdlength.toNat)) ∧
      ∀ rd' : Mem, rd'.read 0 rdlength.toNat = rd.read 0 rdlength.toNat →
        validateRData rrtype rdlength rd' = validateRData rrtype rdlength rd := by
  have hiff (rd : Mem) : validateRData rrtype rdlength rd = true ↔
      WellFormedRData rrtype (rd.read 0 rdlength.toNat) := by
    have hlen (k : UInt16) : decide (rdlength = k) = true ↔
        (rd.read 0 rdlength.toNat).length = k.toNat := by
      rw [decide_eq_true_eq, length_read, UInt16.toNat_inj]
    unfold validateRData WellFormedRData
    split
    · exact hlen 4
    all_goals first
      | exact validateName_iff _
      | exact validateStrings_iff
      | exact hlen 16
      | simp
  refine ⟨hiff rd, fun rd' hread => ?_⟩
  rw [Bool.eq_iff_iff, hiff, hiff, hread]

end Hexley.Dns
