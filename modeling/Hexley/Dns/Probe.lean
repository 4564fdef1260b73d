import Hexley.Dns.PutRecord

/-!
The tie-break between two hosts that probe for the same name.

Each host compares its own record with the record of the other: first the
class, then the type, and then the rdata, byte by byte as it stands on the
wire. The bytes are written into two buffers of 256 bytes on the stack.

Rdata that does not fit is not an error for `CompareRData`. A null pointer for
the end of the buffer makes the loop see no bytes at all, and a name that is
cut off at the end of a label looks like a shorter name. `fitted` says what is
left of the wire form in a buffer, and the tie-break is that of the
lexicographic order on what is left (`probeResult_neg_iff`).
-/

namespace Hexley.Dns

open Lib List Mem Option

/-! ### The comparison -/

def compareBuffer : ℕ := 256

/-- The loop of `CompareRData`: the first position from `i` on where the data differ or one
of them ends. -/
def compareFrom (our pkt : Mem) (ourend pktend : ℕ) : ℕ → ℕ → ℕ
  | 0, i => i
  | fuel + 1, i =>
    if i < ourend ∧ i < pktend ∧ our i = pkt i then compareFrom our pkt ourend pktend fuel (i + 1)
    else i

/-- What `CompareRData` returns when the loop has stopped at `i`. -/
def compareAt (our pkt : Mem) (ourend pktend i : ℕ) : ℤ :=
  if ourend ≤ i ∧ pktend ≤ i then 0
  else if ourend ≤ i then -1
  else if pktend ≤ i then 1
  else if our i < pkt i then -1
  else if pkt i < our i then 1
  else -1

section

variable (pf : Platform)

/-- `CompareRData`, with the contents of the two buffers on the stack. A null pointer for
the end of the data lies before every position. -/
def compareRData (ourdata pktdata : Mem) (our pkt : ResourceRecord) : ℤ :=
  let ourend := putRData pf false ourdata 0 compareBuffer our
  let pktend := putRData pf false pktdata 0 compareBuffer pkt
  let i := compareFrom ourend.2 pktend.2 (ourend.1.getD 0) (pktend.1.getD 0) (compareBuffer + 1) 0
  compareAt ourend.2 pktend.2 (ourend.1.getD 0) (pktend.1.getD 0) i

/-- The result that `ResolveSimultaneousProbe` acts on: our record is given up if it is
negative. -/
def probeResult (ourdata pktdata : Mem) (our pkt : ResourceRecord) : ℤ :=
  let result : ℤ := our.rrclass.toNat - pkt.rrclass.toNat
  if result ≠ 0 then result
  else
    let result : ℤ := our.rrtype.toNat - pkt.rrtype.toNat
    if result ≠ 0 then result
    else compareRData pf ourdata pktdata our pkt

end

section Lexicographic

variable {our pkt : Mem} {ourend pktend : ℕ}

theorem read_of_lt {m : Mem} {i stop : ℕ} (h : i < stop) :
    m.read i (stop - i) = m i :: m.read (i + 1) (stop - (i + 1)) := by
  rw [show stop - i = stop - (i + 1) + 1 by omega, read_succ]

def Compares (result : ℤ) (xs ys : List UInt8) : Prop :=
  (result < 0 ↔ xs < ys) ∧ (0 < result ↔ ys < xs)

theorem compareAt_stop {i : ℕ} (hour : i ≤ ourend) (hpkt : i ≤ pktend)
    (hstop : ¬(i < ourend ∧ i < pktend ∧ our i = pkt i)) :
    Compares (compareAt our pkt ourend pktend i) (our.read i (ourend - i))
      (pkt.read i (pktend - i)) := by
  unfold Compares compareAt
  rcases eq_or_lt_of_le hour with rfl | hour
  · rcases eq_or_lt_of_le hpkt with rfl | hpkt
    · simp
    · rw [if_neg (by omega), if_pos le_rfl, Nat.sub_self, read_zero, read_of_lt hpkt]
      simp
  · rcases eq_or_lt_of_le hpkt with rfl | hpkt
    · rw [if_neg (by omega), if_neg (by omega), if_pos le_rfl, Nat.sub_self, read_zero,
        read_of_lt hour]
      simp
    · have hne : our i ≠ pkt i := fun h => hstop ⟨hour, hpkt, h⟩
      rw [if_neg (by omega), if_neg (by omega), if_neg (by omega), read_of_lt hour, read_of_lt hpkt,
        cons_lt_cons_iff, cons_lt_cons_iff]
      rcases UInt8.lt_or_lt_of_ne hne with hlt | hlt <;>
        simp [hlt, hne, UInt8.lt_asymm hlt, hne.symm]

/-- The loop and what is returned after it compare the two data in lexicographic order. -/
theorem compareAt_compareFrom {fuel i : ℕ} (hour : i ≤ ourend) (hpkt : i ≤ pktend)
    (hfuel : ourend < i + fuel) :
    Compares (compareAt our pkt ourend pktend (compareFrom our pkt ourend pktend fuel i))
      (our.read i (ourend - i)) (pkt.read i (pktend - i)) := by
  induction fuel generalizing i with
  | zero => omega
  | succ fuel ih =>
    rw [compareFrom]
    by_cases hstop : i < ourend ∧ i < pktend ∧ our i = pkt i
    · have hnext := ih (i := i + 1) (by omega) (by omega) (by omega)
      rw [if_pos hstop, read_of_lt hstop.1, read_of_lt hstop.2.1, hstop.2.2]
      simpa [Compares, cons_lt_cons_iff] using hnext
    · rw [if_neg hstop]
      exact compareAt_stop hour hpkt hstop

end Lexicographic

/-! ### What is left in a buffer -/

/-- What is left of a name in `n` bytes. If a label ends before the last byte, the root is
put there instead of the rest of the name. -/
def fitName : ℕ → List (List UInt8) → Option (List UInt8)
  | n, [] => if 0 < n then some [0] else none
  | n, l :: ls =>
    if n ≤ 1 then if 0 < n then some [0] else none
    else if n ≤ l.length + 1 then none
    else (fitName (n - (l.length + 1)) ls).map ((UInt8.ofNat l.length :: l) ++ ·)

def fitted : ℕ → List Seg → Option (List UInt8)
  | _, [] => some []
  | n, .bytes bs :: segs =>
    if bs.length ≤ n then (fitted (n - bs.length) segs).map (bs ++ ·) else none
  | n, .name d :: segs =>
    (fitName n d.labels).bind fun bs => (fitted (n - bs.length) segs).map (bs ++ ·)

theorem fitName_of_le {n : ℕ} {ls : List (List UInt8)} (hls : LabelsFit ls)
    (h : (wire ls).length < n) : fitName n ls = some (wire ls ++ [0]) := by
  induction ls generalizing n with
  | nil =>
    rw [fitName, if_pos (Nat.zero_lt_of_lt h)]
    rfl
  | cons l ls ih =>
    rw [label_cons] at h ⊢
    rw [length_append, length_cons] at h
    rw [fitName, if_neg (by omega), if_neg (by omega), ih hls.tail (by omega), map_some,
      append_assoc]

theorem fitted_of_le {n : ℕ} {segs : List Seg} (h : segLength segs ≤ n) :
    fitted n segs = some (segBytes segs) := by
  induction segs generalizing n with
  | nil => rfl
  | cons seg segs ih =>
    cases seg with
    | bytes bs =>
      rw [segLength] at h
      rw [fitted, if_pos (by omega), ih (by omega)]
      rfl
    | name d =>
      have hlen := d.length_bytes
      rw [segLength] at h
      rw [fitted, fitName_of_le d.labelsFit (by omega), ← DomainName.bytes, bind_some,
        ih (by omega)]
      rfl

def Fits (r : Option (List UInt8)) (m : Mem) (ptr : ℕ) (x : Option ℕ × Mem) : Prop :=
  match r with
  | none => x.1 = none
  | some bs => x = (some (ptr + bs.length), m.write ptr bs)

variable {pf : Platform}

section Fits

variable {m nm : Mem} {ptr limit start : ℕ} {rr : ResourceRecord} {segs : List Seg}
  {x : Option ℕ × Mem} {r : Option (List UInt8)} {bs : List UInt8} {n : ℕ} {ls : List (List UInt8)}
  {d : DomainName}

theorem Fits.map_append (h : Fits r (m.write ptr bs) (ptr + bs.length) x) :
    Fits (r.map (bs ++ ·)) m ptr x := by
  cases r with
  | none => exact h
  | some cs =>
    rw [h]
    change _ = (some (ptr + (bs ++ cs).length), m.write ptr (bs ++ cs))
    rw [write_append, length_append, add_assoc]

theorem fits_bytes (hn : bs.length = n) (hptr : ptr ≤ limit) :
    Fits (fitted (limit - ptr) [.bytes bs]) m ptr
      (if ptr + n > limit then (none, m) else (some (ptr + n), m.write ptr bs)) := by
  subst hn
  rw [fitted]
  by_cases hfit : bs.length ≤ limit - ptr
  · rw [if_pos hfit, if_neg (by omega)]
    refine Fits.map_append ?_
    simp [fitted, Fits]
  · rw [if_neg hfit, if_pos (by omega)]
    rfl

theorem fits_putLabelsFrom {fuel np searchlimit : ℕ} (hls : LabelsFit ls)
    (hnm : nm.Holds np (wire ls ++ [0]))
    (hnp : np + (wire ls).length < start + maxDomainName) (hptr : ptr ≤ limit)
    (hfuel : (wire ls).length < fuel) : Fits (fitName (limit - ptr) ls) m ptr
      (putLabelsFrom false searchlimit limit nm start fuel np ptr m) := by
  induction ls generalizing fuel np ptr m with
  | nil =>
    rcases fuel with _ | fuel
    · omega
    have hz : nm np = 0 := (holds_cons.mp hnm).1
    rw [putLabelsFrom, if_neg fun hc => hc.1 hz, fitName]
    split
    · rw [if_pos (by omega)]
      rfl
    · rw [if_neg (by omega)]
      rfl
  | cons l ls ih =>
    rcases fuel with _ | fuel
    · omega
    obtain ⟨hpos, hle⟩ := hls l mem_cons_self
    obtain ⟨hl, hnext⟩ := labelAt_of_labels hnm
    rw [length_label_cons] at hnp hfuel
    rw [fitName, putLabelsFrom]
    by_cases hroom : limit - ptr ≤ 1
    · have hstop : ¬(nm np ≠ 0 ∧ ptr + 1 < limit) := by omega
      rw [if_pos hroom, if_neg hstop]
      by_cases hlast : 0 < limit - ptr
      · rw [if_pos hlast, if_pos (by omega)]
        rfl
      · rw [if_neg hlast, if_neg (by omega)]
        rfl
    · have hgo : nm np ≠ 0 ∧ ptr + 1 < limit := ⟨hl.first_ne_zero hpos hle, by omega⟩
      rw [if_neg hroom, if_pos hgo, hl.toNat_first hle, if_neg (not_lt.mpr hle)]
      by_cases hfit : limit - ptr ≤ l.length + 1
      · rw [if_pos hfit, if_neg (by omega), if_neg Bool.false_ne_true]
        rw [if_pos (by omega)]
        rfl
      · have hrest := ih (m := m.write ptr (UInt8.ofNat l.length :: l)) hls.tail hnext
          (by omega) (show ptr + (l.length + 1) ≤ limit by omega)
          (show _ < fuel by omega)
        rw [if_neg hfit, if_neg (by omega), if_neg Bool.false_ne_true]
        rw [if_neg (by omega), hl.read_eq length_cons]
        refine Fits.map_append ?_
        rw [show limit - ptr - (l.length + 1) = limit - (ptr + (l.length + 1)) by omega,
          show ptr + 1 + l.length = ptr + (l.length + 1) by omega]
        exact hrest

theorem fits_putLabels (hnm : NameAt nm start d) (hptr : ptr ≤ limit) :
    Fits (fitName (limit - ptr) d.labels) m ptr
      (putDomainNameAsLabels false m ptr limit nm start) := by
  have hlen := d.length_lt
  exact fits_putLabelsFrom d.labelsFit hnm (by omega) hptr (by omega)

theorem length_le_of_fitName (h : fitName n ls = some bs) : bs.length ≤ n := by
  induction ls generalizing n bs with
  | nil =>
    rw [fitName] at h
    split at h
    · cases h
      exact Nat.succ_le_of_lt (by assumption)
    · cases h
  | cons l ls ih =>
    rw [fitName] at h
    split at h
    · split at h
      · cases h
        exact Nat.succ_le_of_lt (by assumption)
      · cases h
    split at h
    · cases h
    obtain ⟨cs, hcs, rfl⟩ := map_eq_some_iff.mp h
    have := ih hcs
    rw [length_append, length_cons]
    omega

theorem length_le_of_fitted (h : fitted n segs = some bs) : bs.length ≤ n := by
  induction segs generalizing n bs with
  | nil =>
    cases h
    exact Nat.zero_le n
  | cons seg segs ih =>
    cases seg with
    | bytes cs =>
      rw [fitted] at h
      split at h
      · obtain ⟨ds, hds, rfl⟩ := map_eq_some_iff.mp h
        have := ih hds
        rw [length_append]
        omega
      · cases h
    | name d =>
      obtain ⟨cs, hcs, h⟩ := bind_eq_some_iff.mp h
      obtain ⟨ds, hds, rfl⟩ := map_eq_some_iff.mp h
      have := length_le_of_fitName hcs
      have := ih hds
      rw [length_append]
      omega

theorem fits_name_cons (hnm : NameAt nm start d) (hptr : ptr ≤ limit)
    (hx : ∀ p m', putDomainNameAsLabels false m ptr limit nm start = (p, m') →
      p.elim (x.1 = none) fun p => p ≤ limit → Fits (fitted (limit - p) segs) m' p x) :
    Fits (fitted (limit - ptr) (.name d :: segs)) m ptr x := by
  have hname := fits_putLabels (m := m) hnm hptr
  rw [fitted]
  cases hfit : fitName (limit - ptr) d.labels with
  | none =>
    rw [hfit] at hname
    exact hx none _ (Prod.ext hname rfl)
  | some bs =>
    have hle := length_le_of_fitName hfit
    rw [hfit] at hname
    refine Fits.map_append ?_
    rw [Nat.sub_sub]
    exact hx (some (ptr + bs.length)) _ hname (by omega)

theorem fits_name (hnm : NameAt nm start d) (hptr : ptr ≤ limit) :
    Fits (fitted (limit - ptr) [.name d]) m ptr
      (putDomainNameAsLabels false m ptr limit nm start) := by
  refine fits_name_cons hnm hptr fun p m' hx => ?_
  rw [hx]
  cases p with
  | none => rfl
  | some p => simp [fitted, Fits]

theorem fits_bytes_cons (hbs : ptr + bs.length ≤ limit)
    (h : Fits (fitted (limit - (ptr + bs.length)) segs) (m.write ptr bs) (ptr + bs.length) x) :
    Fits (fitted (limit - ptr) (.bytes bs :: segs)) m ptr x := by
  rw [fitted, if_pos (by omega), Nat.sub_sub]
  exact Fits.map_append h

/-- `putRData` without compression writes what fits. No check of a length before a field is
in the way in a buffer of at least seven bytes. -/
theorem fits_putRData (hform : WireForm pf rr (layoutOf rr.rrtype) segs) (hptr : ptr + 7 ≤ limit) :
    Fits (fitted (limit - ptr) segs) m ptr (putRData pf false m ptr limit rr) := by
  have hle : ptr ≤ limit := by omega
  unfold putRData
  generalize layoutOf rr.rrtype = layout at hform
  cases hform with
  | a hn | aaaa hn =>
    rw [if_neg (not_not.mpr hn)]
    exact fits_bytes (length_read _ _ _) hle
  | raw hn | hinfo hn | unknown hn => exact fits_bytes (length_read _ _ _) hle
  | name hd => exact fits_name hd hle
  | mx hd =>
    dsimp only
    rw [if_neg (by omega)]
    refine fits_bytes_cons (by rw [length_wire16]; omega) ?_
    rw [length_wire16]
    exact fits_name hd (by omega)
  | srv hd =>
    have hlen : (wire16 pf rr.rdata 0 ++ wire16 pf rr.rdata 2 ++ rr.rdata.read 4 2).length = 6 := by
      simp
    dsimp only
    rw [if_neg (by omega)]
    refine fits_bytes_cons (by rw [hlen]; omega) ?_
    exact fits_name hd (by omega)
  | rp hd he =>
    refine fits_name_cons hd hle fun p m' hy => ?_
    dsimp only
    rw [hy]
    cases p with
    | none => rfl
    | some p => exact fits_name he
  | px hd he =>
    dsimp only
    rw [if_neg (by omega)]
    refine fits_bytes_cons (by rw [length_wire16]; omega) ?_
    rw [length_wire16]
    refine fits_name_cons hd (by omega) fun p m' hy => ?_
    rw [hy]
    cases p with
    | none => rfl
    | some p => exact fits_name he
  | soa hd he =>
    refine fits_name_cons hd hle fun p m' hy => ?_
    dsimp only
    rw [hy]
    cases p with
    | none => rfl
    | some p =>
      refine fun hp => fits_name_cons he hp fun p' m'' hy' => ?_
      dsimp only
      rw [hy']
      cases p' with
      | none => rfl
      | some p' => exact fits_bytes (by simp [soaWire])
  | @opt bs hbs =>
    rw [putOptRData, fitted]
    rcases putOpt_outcome (m := m) hbs hle
      (show _ < 0 + (rr.rdlength.toNat + 1) by omega) with ⟨hroom, hx⟩ | ⟨hroom, hnone, -⟩
    · rw [if_pos (by omega), hx]
      refine Fits.map_append ?_
      simp [fitted, Fits]
    · rw [if_neg (by omega)]
      exact hnone

end Fits

/-! ### Two hosts -/

structure ProbeRecord where
  rrclass : UInt16
  rrtype : UInt16
  rdata : List Seg

namespace ProbeRecord

/-- The record `rr` of a host, its own or one from a packet, is the record `P`. -/
def Held (P : ProbeRecord) (pf : Platform) (rr : ResourceRecord) : Prop :=
  rr.rrclass = P.rrclass ∧ rr.rrtype = P.rrtype ∧ WireForm pf rr (layoutOf rr.rrtype) P.rdata

def wire (P : ProbeRecord) : UInt16 × UInt16 × List UInt8 :=
  (P.rrclass, P.rrtype, segBytes P.rdata)

def kept (P : ProbeRecord) : List UInt8 := (fitted compareBuffer P.rdata).getD []

/-- The order of the classes, then of the types, then of what is left of the rdata. -/
def Precedes (P Q : ProbeRecord) : Prop :=
  P.rrclass < Q.rrclass ∨ P.rrclass = Q.rrclass ∧
    (P.rrtype < Q.rrtype ∨ P.rrtype = Q.rrtype ∧ P.kept < Q.kept)

theorem length_kept_le (P : ProbeRecord) : P.kept.length ≤ compareBuffer := by
  unfold kept
  cases hfit : fitted compareBuffer P.rdata with
  | none => exact Nat.zero_le _
  | some bs => exact length_le_of_fitted hfit

theorem kept_of_le {P : ProbeRecord} (h : segLength P.rdata ≤ compareBuffer) :
    P.kept = segBytes P.rdata := by
  rw [kept, fitted_of_le h]
  rfl

theorem precedes_or_precedes {P Q : ProbeRecord}
    (h : (P.rrclass, P.rrtype, P.kept) ≠ (Q.rrclass, Q.rrtype, Q.kept)) :
    P.Precedes Q ∨ Q.Precedes P := by
  by_contra hnone
  obtain ⟨hPQ, hQP⟩ := not_or.mp hnone
  have hclass : P.rrclass = Q.rrclass :=
    UInt16.le_antisymm (UInt16.not_lt.mp fun hlt => hQP (.inl hlt))
      (UInt16.not_lt.mp fun hlt => hPQ (.inl hlt))
  have htype : P.rrtype = Q.rrtype :=
    UInt16.le_antisymm (UInt16.not_lt.mp fun hlt => hQP (.inr ⟨hclass.symm, .inl hlt⟩))
      (UInt16.not_lt.mp fun hlt => hPQ (.inr ⟨hclass, .inl hlt⟩))
  have hkept : P.kept = Q.kept :=
    List.le_antisymm (fun hlt => hQP (.inr ⟨hclass.symm, .inr ⟨htype.symm, hlt⟩⟩))
      fun hlt => hPQ (.inr ⟨hclass, .inr ⟨htype, hlt⟩⟩)
  exact h (by rw [hclass, htype, hkept])

end ProbeRecord

section Hosts

variable {P Q : ProbeRecord} {our pkt : ResourceRecord}

theorem ProbeRecord.Held.putRData {rr : ResourceRecord} (h : P.Held pf rr) (m : Mem) :
    ((putRData pf false m 0 compareBuffer rr).1.getD 0) = P.kept.length ∧
      (putRData pf false m 0 compareBuffer rr).2.read 0 P.kept.length = P.kept := by
  have hfits := fits_putRData (m := m) h.2.2 (show 0 + 7 ≤ compareBuffer by decide)
  rw [Nat.sub_zero] at hfits
  unfold ProbeRecord.kept
  cases hfit : fitted compareBuffer P.rdata with
  | none =>
    rw [hfit] at hfits
    exact ⟨by rw [hfits]; rfl, rfl⟩
  | some bs =>
    rw [hfit] at hfits
    rw [hfits]
    exact ⟨zero_add _, m.read_write 0 bs⟩

/-- `CompareRData` compares what is left of the rdata in lexicographic order. -/
theorem compareRData_sign (hour : P.Held pf our) (hpkt : Q.Held pf pkt) (ourdata pktdata : Mem) :
    Compares (compareRData pf ourdata pktdata our pkt) P.kept Q.kept := by
  obtain ⟨hourend, hourread⟩ := hour.putRData ourdata
  obtain ⟨hpktend, hpktread⟩ := hpkt.putRData pktdata
  have hle := P.length_kept_le
  have h : (compareAt _ _ _ _ (compareFrom (putRData pf false ourdata 0 compareBuffer our).2
      (putRData pf false pktdata 0 compareBuffer pkt).2 P.kept.length Q.kept.length
      (compareBuffer + 1) 0) < 0 ↔ _) ∧ _ :=
    compareAt_compareFrom (Nat.zero_le _) (Nat.zero_le _) (by omega)
  rw [Nat.sub_zero, Nat.sub_zero, hourread, hpktread] at h
  unfold compareRData
  dsimp only
  rw [hourend, hpktend]
  exact h

theorem probeResult_sign (hour : P.Held pf our) (hpkt : Q.Held pf pkt) (ourdata pktdata : Mem) :
    (probeResult pf ourdata pktdata our pkt < 0 ↔ P.Precedes Q) ∧
      (0 < probeResult pf ourdata pktdata our pkt ↔ Q.Precedes P) := by
  obtain ⟨hneg, hpos⟩ := compareRData_sign hour hpkt ourdata pktdata
  unfold probeResult ProbeRecord.Precedes
  rw [hour.1, hour.2.1, hpkt.1, hpkt.2.1]
  simp only [UInt16.lt_iff_toNat_lt, ← UInt16.toNat_inj]
  split
  · omega
  · split
    · omega
    · rw [hneg, hpos]
      have hclass : P.rrclass.toNat = Q.rrclass.toNat := by omega
      have htype : P.rrtype.toNat = Q.rrtype.toNat := by omega
      simp [hclass, htype]

/-- The tie-break between the records `P` and `Q` is decided: if they differ, exactly one of
the two hosts gives its record up, and no host takes records that differ for the same. -/
def Decided (P Q : ProbeRecord) (result result' : ℤ) : Prop :=
  (P.wire ≠ Q.wire → Xor (result < 0) (result' < 0)) ∧ (result = 0 ∨ result' = 0 → P.wire = Q.wire)

/-- The tie-break between two hosts, each with its own record and the record of the other
from a packet, is decided if and only if records that differ still differ in what the buffers
keep of them. -/
theorem probeResult_decided_iff {pf' : Platform} {our' pkt' : ResourceRecord}
    (hour : P.Held pf our) (hpkt : Q.Held pf pkt) (hour' : Q.Held pf' our')
    (hpkt' : P.Held pf' pkt') (ourdata pktdata ourdata' pktdata' : Mem) :
    Decided P Q (probeResult pf ourdata pktdata our pkt)
        (probeResult pf' ourdata' pktdata' our' pkt') ↔ (P.wire ≠ Q.wire →
        (P.rrclass, P.rrtype, P.kept) ≠ (Q.rrclass, Q.rrtype, Q.kept)) := by
  obtain ⟨hneg, hpos⟩ := probeResult_sign hour hpkt ourdata pktdata
  obtain ⟨hneg', hpos'⟩ := probeResult_sign hour' hpkt' ourdata' pktdata'
  constructor
  · rintro ⟨hxor, -⟩ hne heq
    obtain ⟨hclass, htype, hkept⟩ : P.rrclass = Q.rrclass ∧ P.rrtype = Q.rrtype ∧
        P.kept = Q.kept := by simpa using heq
    have hself : ¬(P.Precedes Q ∨ Q.Precedes P) := by
      simp [ProbeRecord.Precedes, hclass, htype, hkept, List.lt_irrefl]
    rcases hxor hne with ⟨h, -⟩ | ⟨h, -⟩
    · exact hself (.inl (hneg.mp h))
    · exact hself (.inr (hneg'.mp h))
  · intro hkept
    constructor
    · intro hne
      rcases ProbeRecord.precedes_or_precedes (hkept hne) with h | h
      · exact .inl ⟨hneg.mpr h, lt_asymm (hpos'.mpr h)⟩
      · exact .inr ⟨hneg'.mpr h, lt_asymm (hpos.mpr h)⟩
    · intro hzero
      by_contra hne
      rcases ProbeRecord.precedes_or_precedes (hkept hne) with h | h
      · have := hneg.mpr h
        have := hpos'.mpr h
        omega
      · have := hpos.mpr h
        have := hneg'.mpr h
        omega

theorem kept_ne_of_fits (hP : segLength P.rdata ≤ compareBuffer)
    (hQ : segLength Q.rdata ≤ compareBuffer) (hne : P.wire ≠ Q.wire) :
    (P.rrclass, P.rrtype, P.kept) ≠ (Q.rrclass, Q.rrtype, Q.kept) := by
  rwa [ProbeRecord.kept_of_le hP, ProbeRecord.kept_of_le hQ]

/-! ### A tie-break that is decided, and one that is not -/

def addressProbe (addr : List UInt8) : ProbeRecord := ⟨1, 1, [.bytes addr]⟩

theorem addressProbe_decided : (addressProbe [10, 0, 0, 1]).Held littlePlatform
      (rootRecord 1 4 (ofList [10, 0, 0, 1])) ∧
    Decided (addressProbe [10, 0, 0, 1]) (addressProbe [10, 0, 0, 2])
      (probeResult littlePlatform (ofList []) (ofList [])
        (rootRecord 1 4 (ofList [10, 0, 0, 1])) (rootRecord 1 4 (ofList [10, 0, 0, 2])))
      (probeResult ⟨.big, 1000, by decide⟩ (ofList []) (ofList [])
        (rootRecord 1 4 (ofList [10, 0, 0, 2])) (rootRecord 1 4 (ofList [10, 0, 0, 1]))) :=
  ⟨⟨rfl, rfl, .a rfl⟩, (probeResult_decided_iff ⟨rfl, rfl, .a rfl⟩ ⟨rfl, rfl, .a rfl⟩
    ⟨rfl, rfl, .a rfl⟩ ⟨rfl, rfl, .a rfl⟩ _ _ _ _).mpr fun hne =>
      kept_ne_of_fits (by decide) (by decide) hne⟩

def longText (b : UInt8) : ResourceRecord := rootRecord 16 257 fun _ => b

def longTextProbe (b : UInt8) : ProbeRecord := ⟨1, 16, [.bytes ((longText b).rdata.read 0 257)]⟩

/-- Neither of two long records fits into its buffer, so that both hosts find no bytes to
compare and keep their records. -/
theorem longText_not_decided : (longTextProbe 0).Held littlePlatform (longText 0) ∧
    (longTextProbe 1).Held littlePlatform (longText 1) ∧
    ¬Decided (longTextProbe 0) (longTextProbe 1)
      (probeResult littlePlatform (ofList []) (ofList []) (longText 0) (longText 1))
      (probeResult littlePlatform (ofList []) (ofList []) (longText 1) (longText 0)) := by
  refine ⟨⟨rfl, rfl, .raw (by decide)⟩, ⟨rfl, rfl, .raw (by decide)⟩, fun h => ?_⟩
  have hzero : probeResult littlePlatform (ofList []) (ofList []) (longText 0)
      (longText 1) = 0 := by decide +kernel
  exact absurd (h.2 (.inl hzero)) (by decide +kernel)

end Hosts

end Hexley.Dns
