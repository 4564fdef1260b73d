import Hexley.Dns.RoundTrip

/-!
Sequences of EDNS0 options.

`getOptRdata` stores the options of an OPT record as an array of `rdataOPT`
structures, each in a slot of 24 bytes. `putOptRData` reads them as if they
were packed: it finds the next option 22 bytes behind an LLQ option and 8
bytes behind an update lease option. What it finds there is whatever the
storage held before the first option was put into its slot, so that only a
single option comes back for sure.
-/

namespace Hexley.Dns

open Lib List Endian Mem

structure LLQOptData where
  vers : UInt16
  llqOp : UInt16
  err : UInt16
  id : List UInt8
  llqlease : UInt32
  id_length : id.length = 8

/-- `rdataOPT`, for the two kinds of options that the code knows. -/
inductive RDataOPT
  | llq (optlen : UInt16) (data : LLQOptData)
  | lease (optlen : UInt16) (updatelease : UInt32)

namespace RDataOPT

variable (pf : Platform)

def bytes : RDataOPT → List UInt8
  | llq optlen data =>
    pf.order.bytes 2 kDNSOptLLQ ++ (pf.order.bytes 2 optlen.toNat ++
      (pf.order.bytes 2 data.vers.toNat ++ (pf.order.bytes 2 data.llqOp.toNat ++
        (pf.order.bytes 2 data.err.toNat ++ (data.id ++ pf.order.bytes 4 data.llqlease.toNat)))))
  | lease optlen updatelease =>
    pf.order.bytes 2 kDNSOptLease ++ (pf.order.bytes 2 optlen.toNat ++
      pf.order.bytes 4 updatelease.toNat)

def wireLength : RDataOPT → ℕ
  | llq _ _ => 4 + llqOptLen
  | lease _ _ => 8

def seconds : RDataOPT → ℕ
  | llq _ data => data.llqlease.toNat
  | lease _ updatelease => updatelease.toNat

theorem length_bytes (op : RDataOPT) : (op.bytes pf).length = op.wireLength := by
  cases op with
  | llq optlen data => simp [bytes, wireLength, data.id_length, llqOptLen]
  | lease optlen updatelease => simp [bytes, wireLength]

theorem wireLength_pos (op : RDataOPT) : 0 < op.wireLength := by
  cases op <;> simp [wireLength]

theorem wireLength_two_le (op : RDataOPT) : op.wireLength + 2 ≤ sizeofRdataOPT := by
  cases op <;> simp [wireLength, llqOptLen, sizeofRdataOPT]

end RDataOPT

/-- The rdata has the options in the slots from `o` on, as `getOptRdata` puts them there. -/
def LaidOut (pf : Platform) (rd : Mem) : ℕ → List RDataOPT → Prop
  | _, [] => True
  | o, op :: ops => rd.Holds o (op.bytes pf) ∧ LaidOut pf rd (o + sizeofRdataOPT) ops

def wireLengths (ops : List RDataOPT) : ℕ := (ops.map RDataOPT.wireLength).sum

/-- Wherever there is room for the options of the record in a packet, `putOptRData` writes
bytes there from which `getOptRdata` gets the options `ops` in any storage. -/
def OptionsReturn (pf : Platform) (rr : ResourceRecord) (ops : List RDataOPT) : Prop :=
  ∀ (m : Mem) (ptr limit : ℕ), ptr + rr.rdlength.toNat ≤ limit →
    ∃ m', putOptRData pf m ptr limit rr = (some (ptr + rr.rdlength.toNat), m') ∧ ∀ rd : Mem, ∃ rd',
        (getOptRdata pf ptr (ptr + rr.rdlength.toNat) rr.rdlength.toNat rd).run m' =
          (some (ptr + rr.rdlength.toNat), rd') ∧ LaidOut pf rd' 0 ops

section

variable {pf : Platform} {rr : ResourceRecord} {op : RDataOPT} {ops : List RDataOPT} {rd : Mem}

/-! ### One option -/

theorem val_of_holds_bytes {v o : ℕ} {bs : List UInt8} (hv : v < 256 ^ 2)
    (h : rd.Holds o (pf.order.bytes 2 v ++ bs)) : pf.order.val (rd.read o 2) = v := by
  rw [(holds_append.mp h).1.read_eq (length_bytes _ _ _), val_bytes_of _ hv]

section

variable (hlen : rr.rdlength.toNat = op.wireLength) (h : rr.rdata.Holds 0 (op.bytes pf))
include hlen h

theorem options_of_laidOut : SingleOption pf rr ∧ optLease pf rr = op.seconds ∧
      ∃ bs, Options pf rr.rdata rr.rdlength.toNat 0 bs := by
  rw [hlen]
  cases op with
  | llq optlen data =>
    have hcode := val_of_holds_bytes (by decide) h
    have hlease : rr.rdata.Holds 18 (pf.order.bytes 4 data.llqlease.toNat) := by
      have hrest := h
      simp only [RDataOPT.bytes, holds_append, length_bytes, data.id_length] at hrest
      exact hrest.2.2.2.2.2.2
    refine ⟨.inl ⟨UInt16.toNat_inj.mp hlen, hcode⟩, ?_, _,
      .llq (RDataOPT.wireLength_pos _) hcode .nil⟩
    rw [optLease, if_pos hcode, hlease.read_eq (length_bytes _ _ _)]
    exact val_bytes_of _ data.llqlease.toNat_lt
  | lease optlen updatelease =>
    have hcode := val_of_holds_bytes (by decide) h
    have hlease : rr.rdata.Holds 4 (pf.order.bytes 4 updatelease.toNat) := by
      have hrest := h
      simp only [RDataOPT.bytes, holds_append, length_bytes] at hrest
      exact hrest.2.2
    refine ⟨.inr ⟨UInt16.toNat_inj.mp hlen, hcode⟩, ?_, _,
      .lease (RDataOPT.wireLength_pos _) hcode .nil⟩
    rw [optLease, hcode, if_neg (by decide), hlease.read_eq (length_bytes _ _ _)]
    exact val_bytes_of _ updatelease.toNat_lt

theorem optionsReturn_single (hlease : op.seconds ≤ pf.maxSeconds) : OptionsReturn pf rr [op] := by
  obtain ⟨hone, hseconds, bs, hbs⟩ := options_of_laidOut hlen h
  have hbslen : bs.length = rr.rdlength.toNat := by
    have := hbs.length
    omega
  intro m ptr limit hroom
  rcases putOpt_outcome (m := m) hbs (show ptr ≤ limit by omega)
    (show rr.rdlength.toNat < 0 + (rr.rdlength.toNat + 1) by omega) with ⟨-, hput⟩ | ⟨hno, -⟩
  · rw [hbslen] at hput
    refine ⟨_, hput, fun rd => ?_⟩
    obtain ⟨cs, hrun, -, hcs⟩ := getOpt_of_options hbs hone (holds_write m ptr bs)
    refine ⟨rd.write 0 cs, hrun, ?_, trivial⟩
    rw [hcs.mpr (hseconds.trans_le hlease), h.read_eq (by rw [RDataOPT.length_bytes, hlen])]
    exact holds_write _ _ _
  · omega

end

/-! ### More than one option -/

def slots (pf : Platform) (ops : List RDataOPT) : Mem := fun a =>
  match ops[a / sizeofRdataOPT]? with
  | some op => (op.bytes pf).getD (a % sizeofRdataOPT) 0
  | none => 0

theorem slots_apply {k i : ℕ} (hop : ops[k]? = some op) (hi : i < sizeofRdataOPT) :
    slots pf ops (k * sizeofRdataOPT + i) = (op.bytes pf).getD i 0 := by
  have hdiv : (k * sizeofRdataOPT + i) / sizeofRdataOPT = k := by
    rw [sizeofRdataOPT] at hi ⊢
    omega
  have hmod : (k * sizeofRdataOPT + i) % sizeofRdataOPT = i := by
    rw [sizeofRdataOPT] at hi ⊢
    omega
  rw [slots, hdiv, hop]
  rw [hmod]

theorem laidOut_slots {k : ℕ} {all : List RDataOPT} (h : all.drop k = ops) :
    LaidOut pf (slots pf all) (k * sizeofRdataOPT) ops := by
  induction ops generalizing k with
  | nil => trivial
  | cons op ops ih =>
    have hop : all[k]? = some op := by
      rw [← head?_drop, h]
      rfl
    refine ⟨ext_getElem? fun i => ?_, ?_⟩
    · by_cases hi : i < (op.bytes pf).length
      · have hslot : i < sizeofRdataOPT := by
          have := op.wireLength_two_le
          rw [op.length_bytes] at hi
          omega
        rw [getElem?_read _ hi, slots_apply hop hslot, getD_eq_getElem _ _ hi,
          getElem?_eq_getElem hi]
      · rw [getElem?_eq_none (by simpa using hi), getElem?_eq_none (by omega)]
    · have hnext := ih (k := k + 1) (by rw [← tail_drop, h, tail_cons])
      rwa [add_mul, one_mul] at hnext

/-- `putOptRData` finds no option behind the first one. -/
theorem putOptRData_slots {m : Mem} {ptr limit : ℕ} (hmore : op.wireLength < rr.rdlength.toNat)
    (hrd : rr.rdata = slots pf (op :: ops)) : (putOptRData pf m ptr limit rr).1 = none := by
  have hzero : pf.order.val (rr.rdata.read op.wireLength 2) = 0 := by
    have hslot := op.wireLength_two_le
    have hat (i : ℕ) (hi : op.wireLength ≤ i) (hi' : i < sizeofRdataOPT) : rr.rdata i = 0 := by
      have happ : slots pf (op :: ops) (0 * sizeofRdataOPT + i) = (op.bytes pf).getD i 0 :=
        slots_apply (by rfl) hi'
      rw [zero_mul, zero_add] at happ
      rw [hrd, happ, getD_eq_default _ _ (by rw [op.length_bytes]; exact hi)]
    rw [read_succ, read_succ, read_zero, hat _ le_rfl (by omega), hat _ (by omega) (by omega)]
    cases pf.order <;> decide
  have hfirst : rr.rdata.Holds 0 (op.bytes pf) := by
    have hlaid : LaidOut pf (slots pf (op :: ops)) (0 * sizeofRdataOPT) (op :: ops) :=
      laidOut_slots rfl
    rw [hrd]
    exact hlaid.1
  -- The second turn of the loop stands at the zeros behind the first option.
  have hsecond (fuel ptr : ℕ) (m : Mem) :
      (putOptRDataFrom pf limit rr.rdlength.toNat rr.rdata fuel op.wireLength ptr m).1 = none := by
    cases fuel with
    | zero => rfl
    | succ fuel =>
      rw [putOptRDataFrom, if_pos hmore]
      split
      · rfl
      · rw [hzero, if_neg (by decide), if_neg (by decide)]
  have hpos : 0 < rr.rdlength.toNat := op.wireLength_pos.trans hmore
  rw [putOptRData, putOptRDataFrom, if_pos hpos]
  split
  · rfl
  cases op with
  | llq optlen data =>
    have hcode := val_of_holds_bytes (by decide) hfirst
    rw [hcode, if_pos rfl]
    split
    · rfl
    · exact hsecond _ _ _
  | lease optlen updatelease =>
    have hcode := val_of_holds_bytes (by decide) hfirst
    rw [hcode, if_neg (by decide), if_pos rfl]
    split
    · rfl
    · exact hsecond _ _ _

/-- The options of a record come back, whatever its storage held before, exactly if there is
one of them. -/
theorem optionsReturn_iff (pf : Platform) (ops : List RDataOPT) (hne : ops ≠ [])
    (hlease : ∀ op ∈ ops, op.seconds ≤ pf.maxSeconds) (hlen : wireLengths ops < 2 ^ 16) :
    (∀ rr : ResourceRecord, rr.rdlength.toNat = wireLengths ops → LaidOut pf rr.rdata 0 ops →
      OptionsReturn pf rr ops) ↔ ops.length = 1 := by
  constructor
  · intro h
    by_contra hmany
    match ops, hne with
    | [op], _ => exact hmany rfl
    | op :: op' :: ops, _ =>
      obtain ⟨rr, hrdlength, hrd⟩ : ∃ rr : ResourceRecord,
          rr.rdlength.toNat = wireLengths (op :: op' :: ops) ∧
            rr.rdata = slots pf (op :: op' :: ops) :=
        ⟨⟨0, none, slots pf [], 0, 0, 0, UInt16.ofNat (wireLengths (op :: op' :: ops)), 0, 0, 0,
          slots pf (op :: op' :: ops)⟩, UInt16.toNat_ofNat_of_lt' hlen, rfl⟩
      have hlaid : LaidOut pf (slots pf (op :: op' :: ops)) (0 * sizeofRdataOPT)
          (op :: op' :: ops) := laidOut_slots rfl
      rw [zero_mul, ← hrd] at hlaid
      obtain ⟨m', hput, -⟩ := h rr hrdlength hlaid (slots pf []) 0 _ le_rfl
      have hmore : op.wireLength < rr.rdlength.toNat := by
        have := op'.wireLength_pos
        rw [hrdlength, wireLengths, map_cons, map_cons, sum_cons, sum_cons]
        omega
      have hnone : (putOptRData pf (slots pf []) 0 (0 + rr.rdlength.toNat) rr).1 = none :=
        putOptRData_slots hmore hrd
      rw [hput] at hnone
      cases hnone
  · intro hone
    obtain ⟨op, rfl⟩ := List.length_eq_one_iff.mp hone
    intro rr hrdlength hlaid
    refine optionsReturn_single ?_ hlaid.1 (hlease op mem_cons_self)
    rw [hrdlength, wireLengths, map_singleton, sum_singleton]

def hourLease : RDataOPT := .lease 4 3600

def leaseRecord (n : ℕ) : ResourceRecord :=
  ⟨0, none, ofList [], 41, 0, 0, UInt16.ofNat (8 * n), 0, 0, 0,
    slots littlePlatform (List.replicate n hourLease)⟩

theorem optionsReturn_oneLease : OptionsReturn littlePlatform (leaseRecord 1) [hourLease] :=
  (optionsReturn_iff littlePlatform [hourLease] (by simp) (by simp [hourLease]; decide)
    (by decide)).mpr rfl (leaseRecord 1) rfl ⟨by decide, trivial⟩

theorem not_optionsReturn_twoLeases :
    (leaseRecord 2).rdlength.toNat = wireLengths [hourLease, hourLease] ∧
    LaidOut littlePlatform (leaseRecord 2).rdata 0 [hourLease, hourLease] ∧
    ¬OptionsReturn littlePlatform (leaseRecord 2) [hourLease, hourLease] := by
  refine ⟨rfl, ⟨by decide, by decide, trivial⟩, fun h => ?_⟩
  obtain ⟨m, hput, -⟩ := h (ofList []) 0 16 le_rfl
  have hnone : (putOptRData littlePlatform (ofList []) 0 16 (leaseRecord 2)).1 = none := by
    decide
  rw [hput] at hnone
  cases hnone

end

end Hexley.Dns
