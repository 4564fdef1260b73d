import Hexley.Dns.NameEquality
import Hexley.Dns.PutRecord

/-!
A record that is written and parsed again.

The writer puts the segments of a record into the message, and the parser takes
pieces out of it (`Unpacks`). For every layout but PX the pieces are read from
the segments, and `SameRDataBody` holds of them exactly if the names that are
read are those of the segments (`sameRDataBody_iff`). The parser of PX records
starts the first name at the preference, so that what it reads is not what was
written.

A name that is compressed is read back exactly if its rest is still there, at
the position that the writer found it at, when the record is complete.
-/

namespace Hexley.Dns

open Lib List Mem Endian

/-! ### Pieces from segments -/

section Pieces

variable {pf : Platform} {m rd : Mem} {rr : ResourceRecord} {r n p o : ℕ}
  {pieces : List (ℕ × List UInt8)}

theorem hostNumber_wire16 (h : m.Holds p (wire16 pf rd o)) : hostNumber pf m p 2 = rd.read o 2 := by
  have hlt : pf.order.val (rd.read o 2) < 256 ^ 2 := by
    simpa using pf.order.val_lt (rd.read o 2)
  rw [hostNumber, h.read_eq (length_wire16 _ _), wire16, val_bytes_of _ hlt,
    bytes_val _ (length_read _ _ _)]

theorem val_wire32 (h : m.Holds p (wire32 pf rd o)) :
    big.val (m.read p 4) = pf.order.val (rd.read o 4) := by
  have hlt : pf.order.val (rd.read o 4) < 256 ^ 4 := by
    simpa using pf.order.val_lt (rd.read o 4)
  rw [h.read_eq (length_wire32 _ _), wire32, val_bytes_of _ hlt]

theorem hostNumber_wire32 (h : m.Holds p (wire32 pf rd o)) : hostNumber pf m p 4 = rd.read o 4 := by
  rw [hostNumber, val_wire32 h, bytes_val _ (length_read _ _ _)]

theorem length_soaWire : (soaWire pf rd).length = 0x14 := by
  simp [soaWire]

theorem hostNumbers_soaWire (h : m.Holds p (soaWire pf rd)) :
    hostNumber pf m p 4 ++ hostNumber pf m (p + 4) 4 ++ hostNumber pf m (p + 8) 4 ++
      hostNumber pf m (p + 12) 4 ++ hostNumber pf m (p + 16) 4 = rd.read soaNumbers 20 := by
  simp only [soaWire, holds_append, length_append, length_wire32] at h
  obtain ⟨⟨⟨⟨h₀, h₁⟩, h₂⟩, h₃⟩, h₄⟩ := h
  rw [hostNumber_wire32 h₀, hostNumber_wire32 h₁, hostNumber_wire32 h₂, hostNumber_wire32 h₃,
    hostNumber_wire32 h₄, ← read_add, ← read_add, ← read_add, ← read_add]

variable {layout : RDLayout} {segs : List Seg} {d e : DomainName} {q stop ptr : ℕ}

/-- The name is read, up to the case of letters. -/
def ReadAs (m : Mem) (stop p q : ℕ) (d : DomainName) : Prop :=
  ∃ e, NameRead m stop p q e ∧ e.SameAs d

def SegsRead (m : Mem) (stop : ℕ) : ℕ → List Seg → ℕ → Prop
  | p, [], q => p = q
  | p, .bytes bs :: segs, q => m.Holds p bs ∧ SegsRead m stop (p + bs.length) segs q
  | p, .name d :: segs, q => ∃ p', ReadAs m stop p p' d ∧ SegsRead m stop p' segs q

theorem readAs_iff (h : NameRead m stop p q e) : ReadAs m stop p n d ↔ q = n ∧ e.SameAs d := by
  constructor
  · rintro ⟨e', he', hsame⟩
    refine ⟨h.ends.unique he'.ends, ?_⟩
    rwa [DomainName.SameAs, h.spelled.unique he'.spelled]
  · rintro ⟨rfl, hsame⟩
    exact ⟨e, h, hsame⟩

theorem WireForm.unpacks (hform : WireForm pf rr layout segs)
    (hread : SegsRead m (r + n) r segs (r + n)) (hopt : layout ≠ .opt) (hpx : layout ≠ .px) :
    ∃ pieces, Unpacks pf m r n layout pieces := by
  cases hform with
  | a hn | aaaa hn =>
    simp only [SegsRead, length_read] at hread
    exact ⟨_, by constructor; omega⟩
  | raw hn | hinfo hn | unknown hn =>
    simp only [SegsRead, length_read] at hread
    exact ⟨_, by constructor; omega⟩
  | name hd =>
    obtain ⟨p', ⟨e, he, -⟩, rfl⟩ := hread
    exact ⟨_, .name he⟩
  | mx hd =>
    simp only [SegsRead, length_wire16] at hread
    obtain ⟨hbs, p', ⟨e, he, -⟩, rfl⟩ := hread
    exact ⟨_, .mx (by have := he.lt; omega) he⟩
  | srv hd =>
    simp only [SegsRead, length_append, length_wire16, length_read] at hread
    obtain ⟨hbs, p', ⟨e, he, -⟩, rfl⟩ := hread
    exact ⟨_, .srv (by have := he.lt; omega) he⟩
  | rp hd he =>
    obtain ⟨p, ⟨d', hd', -⟩, p', ⟨e', he', -⟩, rfl⟩ := hread
    exact ⟨_, .rp hd' he'⟩
  | px hd he => exact absurd rfl hpx
  | soa hd he =>
    simp only [SegsRead, length_soaWire] at hread
    obtain ⟨p, ⟨d', hd', -⟩, p', ⟨e', he', -⟩, hbs, hend⟩ := hread
    exact ⟨_, .soa hd' he' hend⟩
  | opt hbs => exact absurd rfl hopt

theorem WireForm.flat (hform : WireForm pf rr layout segs)
    (hflat : isFlat layout) : ∃ bs, segs = [.bytes bs] ∧ rr.rdlength.toNat = bs.length := by
  cases hform with
  | a hn | aaaa hn => exact ⟨_, rfl, by rw [hn, length_read]; rfl⟩
  | raw | hinfo | unknown => exact ⟨_, rfl, (length_read _ _ _).symm⟩
  | opt hbs => exact ⟨_, rfl, by rw [← hbs.length, zero_add]⟩
  | name | mx | srv | rp | px | soa => cases hflat

theorem WireForm.form_ne_nil (hform : WireForm pf rr layout segs) (hflat : ¬isFlat layout) :
    segForm m r segs ≠ [] := by
  have hwire (o : ℕ) : wire16 pf rr.rdata o ≠ [] :=
    ne_nil_of_length_pos (by rw [length_wire16]; decide)
  cases hform with
  | a | aaaa | raw | hinfo | unknown | opt => exact absurd rfl hflat
  | name | mx | srv | rp | px | soa => simp [segForm, Seg.form, hwire, nameForm_ne_nil]

variable {bs : List UInt8}

/-- The rdata that is unpacked from the segments of a record is that of the record exactly if
the names that are read are those of the segments. -/
theorem sameRDataBody_iff {m₀ : Mem} (hform : WireForm pf rr (layoutOf rr.rrtype) segs)
    (hunpacks : Unpacks pf m r n (layoutOf rr.rrtype) pieces)
    (hrd : ∀ x ∈ pieces, rd.Holds x.1 x.2) (hpx : layoutOf rr.rrtype ≠ .px)
    (hbs : m.Holds r (segForm m₀ r segs)) (hn : (segForm m₀ r segs).length = n) :
    sameRDataBody rr rd = true ↔ SegsRead m (r + n) r segs (r + n) := by
  have hname {o : ℕ} {d e : DomainName} (hd : NameAt rr.rdata o d) (he : (o, e.bytes) ∈ pieces) :
      sameDomainName rr.rdata o rd o = true ↔ e.SameAs d :=
    (hd.same_iff (hrd _ he)).trans ⟨Eq.symm, Eq.symm⟩
  have hbytes {o k : ℕ} {cs : List UInt8} (h : (o, cs) ∈ pieces) (hcs : rr.rdata.read o k = cs) :
      decide (rr.rdata.read o k = rd.read o k) = true := by
    rw [(hrd _ h).read_eq (by rw [← hcs, length_read]), hcs]
    exact decide_eq_true rfl
  unfold sameRDataBody
  generalize layoutOf rr.rrtype = layout at hform hunpacks hpx ⊢
  cases hunpacks with
  | a | aaaa =>
    cases hform with
    | _ hlen =>
      rw [segForm, segForm, Seg.form, append_nil] at hbs hn
      refine iff_of_true (hbytes (.head _) ?_) ⟨hbs, by rw [SegsRead, hn]⟩
      rw [hlen]
      exact (hbs.read_eq (length_read _ _ _)).symm
  | raw | hinfo | unknown =>
    cases hform
    rw [segForm, segForm, Seg.form, append_nil] at hbs hn
    exact iff_of_true (hbytes (.head _) (hbs.read_eq hn).symm) ⟨hbs, by rw [SegsRead, hn]⟩
  | name he =>
    cases hform with
    | name hd => simp [SegsRead, readAs_iff he, hname hd (.head _)]
  | mx _ he =>
    cases hform with
    | mx hd =>
      have hnumber : m.Holds r (wire16 pf rr.rdata 0) := (holds_append.mp hbs).1
      simp [SegsRead, readAs_iff he, hname hd (.tail _ (.head _)), hnumber,
        hbytes (.head _) (hostNumber_wire16 hnumber).symm]
  | srv _ he =>
    cases hform with
    | srv hd =>
      have hhead : m.Holds r (wire16 pf rr.rdata 0 ++ wire16 pf rr.rdata 2 ++ rr.rdata.read 4 2) :=
        (holds_append.mp hbs).1
      have hread : rr.rdata.read 0 6 =
          hostNumber pf m r 2 ++ hostNumber pf m (r + 2) 2 ++ m.read (r + 4) 2 := by
        simp only [holds_append, length_append, length_wire16] at hhead
        rw [hostNumber_wire16 hhead.1.1, hostNumber_wire16 hhead.1.2,
          hhead.2.read_eq (length_read _ _ _), ← read_add, ← read_add]
      simp [-append_assoc, SegsRead, readAs_iff he, hname hd (.tail _ (.head _)), hhead,
        hbytes (.head _) hread]
  | rp hd' he' =>
    cases hform with
    | rp hd he =>
      simp [SegsRead, readAs_iff hd', readAs_iff he', hname hd (.head _),
        hname he (.tail _ (.head _))]
  | px => exact absurd rfl hpx
  | @soa _ _ _ q hd' he' hq =>
    cases hform with
    | soa hd he =>
      have hnumbers : m.Holds q (soaWire pf rr.rdata) := by
        simp only [segForm, Seg.form, append_nil, holds_append, length_append,
          length_soaWire] at hbs hn
        convert hbs.2.2 using 1
        omega
      simp [SegsRead, readAs_iff hd', readAs_iff he', hname hd (.head _),
        hname he (.tail _ (.head _)), hnumbers, length_soaWire, hq,
        hbytes (.tail _ (.tail _ (.head _))) (hostNumbers_soaWire hnumbers).symm]

/-- The rdata is one option: an LLQ option or an update lease option. -/
def SingleOption (pf : Platform) (rr : ResourceRecord) : Prop :=
  (rr.rdlength = 22 ∧ pf.order.val (rr.rdata.read 0 2) = kDNSOptLLQ) ∨
    (rr.rdlength = 8 ∧ pf.order.val (rr.rdata.read 0 2) = kDNSOptLease)

def optLease (pf : Platform) (rr : ResourceRecord) : ℕ :=
  if pf.order.val (rr.rdata.read 0 2) = kDNSOptLLQ then pf.order.val (rr.rdata.read 18 4)
  else pf.order.val (rr.rdata.read 4 4)

theorem bytes_min_iff {k M : ℕ} {cs : List UInt8} (hk : cs.length = k) :
    pf.order.bytes k (min (pf.order.val cs) M) = cs ↔ pf.order.val cs ≤ M := by
  have hlt := pf.order.val_lt cs
  rw [hk] at hlt
  constructor
  · intro h
    have hval := congrArg pf.order.val h
    rw [val_bytes_of _ ((Nat.min_le_left _ _).trans_lt hlt)] at hval
    exact min_eq_left_iff.mp hval
  · intro h
    rw [Nat.min_eq_left h, bytes_val _ hk]

/-- An LLQ option survives, unless its lease is cut. -/
theorem llqOption_iff (h : m.Holds r (llqWire pf rd 0)) :
    llqOption pf m r = rd.read 0 (4 + llqOptLen) ↔ pf.order.val (rd.read 18 4) ≤ pf.maxSeconds := by
  simp only [llqWire, holds_append, length_append, length_wire16, length_read] at h
  obtain ⟨⟨h₀, h₂⟩, ⟨⟨⟨h₄, h₆⟩, h₈⟩, h₁₀⟩, h₁₈⟩ := h
  have hread : llqOption pf m r =
      rd.read 0 18 ++ pf.order.bytes 4 (min (pf.order.val (rd.read 18 4)) pf.maxSeconds) := by
    rw [llqOption, hostNumber_wire16 h₀, hostNumber_wire16 h₂, hostNumber_wire16 h₄,
      hostNumber_wire16 h₆, hostNumber_wire16 h₈, h₁₀.read_eq (length_read _ _ _), val_wire32 h₁₈,
      ← append_assoc, ← append_assoc, ← append_assoc, ← append_assoc, ← read_add, ← read_add,
      ← read_add, ← read_add, ← read_add]
  rw [hread, show 4 + llqOptLen = 18 + 4 from rfl, read_add, append_right_inj, zero_add]
  exact bytes_min_iff (length_read _ _ _)

theorem leaseOption_iff (h : m.Holds r (leaseWire pf rd 0)) :
    leaseOption pf m r = rd.read 0 8 ↔ pf.order.val (rd.read 4 4) ≤ pf.maxSeconds := by
  simp only [leaseWire, holds_append, length_append, length_wire16] at h
  obtain ⟨⟨h₀, h₂⟩, h₄⟩ := h
  rw [leaseOption, hostNumber_wire16 h₀, hostNumber_wire16 h₂, val_wire32 h₄, ← read_add,
    show 8 = 2 + 2 + 4 from rfl, read_add rd 0 (2 + 2), append_right_inj]
  exact bytes_min_iff (length_read _ _ _)

theorem Options.eq_nil (h : Options pf rd n n bs) : bs = [] := by
  have := h.length
  exact List.length_eq_zero_iff.mp (by omega)

theorem val_of_wire16 {v : ℕ} (h : m.Holds r (wire16 pf rd 0 ++ bs))
    (hv : pf.order.val (rd.read 0 2) = v) (hlt : v < 256 ^ 2) :
    big.val (m.read r 2) = v := by
  rw [(holds_append.mp h).1.read_eq (length_wire16 _ _), wire16, hv, val_bytes_of _ hlt]

theorem getOpt_of_options (hbs : Options pf rr.rdata rr.rdlength.toNat 0 bs)
    (hone : SingleOption pf rr) (hread : m.Holds r bs) :
    ∃ cs, (getOptRdata pf r (r + rr.rdlength.toNat) rr.rdlength.toNat rd).run m =
        (some (r + rr.rdlength.toNat), rd.write 0 cs) ∧ cs.length = rr.rdlength.toNat ∧
      (cs = rr.rdata.read 0 rr.rdlength.toNat ↔ optLease pf rr ≤ pf.maxSeconds) := by
  rcases hone with ⟨hn, hcode⟩ | ⟨hn, hcode⟩
  · rw [hn] at hbs ⊢
    cases hbs with
    | lease ho hcode' => exact absurd (hcode.symm.trans hcode') (by decide)
    | llq ho hcode' rest =>
      rw [Options.eq_nil rest, append_nil] at hread
      have hwire : big.val (m.read r 2) = kDNSOptLLQ := by
        exact val_of_wire16 hread hcode (by decide)
      refine ⟨llqOption pf m r, ?_, length_llqOption, ?_⟩
      · change (getOptRdata pf r (r + 22) 22 rd).run m = _
        rw [getOpt_llq (by decide) (by decide) hwire (.inr (by decide)), getOptRdataFrom,
          if_neg (by decide)]
        rfl
      · rw [optLease, if_pos hcode]
        exact llqOption_iff hread
  · rw [hn] at hbs ⊢
    cases hbs with
    | llq ho hcode' => exact absurd (hcode.symm.trans hcode') (by decide)
    | lease ho hcode' rest =>
      rw [Options.eq_nil rest, append_nil] at hread
      have hwire : big.val (m.read r 2) = kDNSOptLease := by
        exact val_of_wire16 hread hcode (by decide)
      refine ⟨leaseOption pf m r, ?_, length_leaseOption, ?_⟩
      · change (getOptRdata pf r (r + 8) 8 rd).run m = _
        rw [getOpt_lease (by decide) (by decide) hwire (.inr (by decide)), getOptRdataFrom,
          if_neg (by decide)]
        rfl
      · rw [optLease, hcode, if_neg (by decide)]
        exact leaseOption_iff hread

/-- The rdata is kept, and is that of the record. -/
def RDataReturns (pf : Platform) (m : Mem) (r n : ℕ) (rr b : ResourceRecord) : Prop :=
  ∃ b', (getRDataOrNone pf r (r + n) n b).run m = (true, b') ∧ sameRDataBody rr b'.rdata = true

theorem rdataOrNone_kept {b b' : ResourceRecord}
    (h : (getRDataOrNone pf r (r + n) n b).run m = (true, b')) :
    b' = { b with rdlength := b'.rdlength, rdata := b'.rdata } := by
  unfold getRDataOrNone at h
  split at h
  · cases h
    rfl
  · by_cases hopt : layoutOf b.rrtype = .opt
    · rw [getRData_of_opt hopt] at h
      cases h
      rfl
    · obtain ⟨pieces, hunpacks⟩ := unpacks_of_getRData hopt (congrArg Prod.fst h)
      rw [getRData_of_unpacks hunpacks] at h
      cases h
      rfl

theorem rdataReturns_iff {b : ResourceRecord} {m₀ : Mem}
    (hform : WireForm pf rr (layoutOf rr.rrtype) segs) (hpx : layoutOf rr.rrtype ≠ .px)
    (hone : layoutOf rr.rrtype = .opt → SingleOption pf rr)
    (htype : b.rrtype = rr.rrtype) (hbs : m.Holds r (segForm m₀ r segs))
    (hn : (segForm m₀ r segs).length = n) : RDataReturns pf m r n rr b ↔
      SegsRead m (r + n) r segs (r + n) ∧
        (layoutOf rr.rrtype = .opt → optLease pf rr ≤ pf.maxSeconds) := by
  have hflat (hflat : isFlat (layoutOf rr.rrtype)) :
      SegsRead m (r + n) r segs (r + n) ∧ rr.rdlength.toNat = n ∧
        ∃ cs, segs = [.bytes cs] ∧ m.Holds r cs := by
    obtain ⟨cs, rfl, hlen⟩ := hform.flat hflat
    rw [segForm, segForm, Seg.form, append_nil] at hbs hn
    exact ⟨⟨hbs, by rw [SegsRead, hn]⟩, hlen.trans hn, cs, rfl, hbs⟩
  unfold RDataReturns getRDataOrNone
  by_cases hopt : layoutOf rr.rrtype = .opt
  · obtain ⟨hsegs, rfl, cs, rfl, hcs⟩ := hflat (by rw [hopt]; rfl)
    have hbody (rd : Mem) : sameRDataBody rr rd = true ↔
        rd.read 0 rr.rdlength.toNat = rr.rdata.read 0 rr.rdlength.toNat :=
      (sameRDataBody_flat_iff (by rw [hopt]; rfl)).trans ⟨Eq.symm, Eq.symm⟩
    obtain ⟨cs', hrun, hlen, hlease⟩ : ∃ cs', (getOptRdata pf r (r + rr.rdlength.toNat)
        rr.rdlength.toNat b.rdata).run m = (some (r + rr.rdlength.toNat), b.rdata.write 0 cs') ∧
          cs'.length = rr.rdlength.toNat ∧
          (cs' = rr.rdata.read 0 rr.rdlength.toNat ↔ optLease pf rr ≤ pf.maxSeconds) := by
      rw [hopt] at hform
      cases hform with
      | opt hoptions => exact getOpt_of_options hoptions (hone hopt) hcs
    have hsome : ¬(b.rrclass = kDNSQClassANY ∧ rr.rdlength.toNat = 0) := by
      rintro ⟨-, hzero⟩
      rcases hone hopt with ⟨hn, -⟩ | ⟨hn, -⟩ <;> rw [hn] at hzero <;> cases hzero
    rw [if_neg hsome, getRData_of_opt (htype ▸ hopt), withOptions, hrun]
    simp only [Prod.mk.injEq, true_and, exists_eq_left', hbody,
      (b.rdata.holds_write 0 cs').read_eq hlen, hlease]
    exact ⟨fun h => ⟨hsegs, fun _ => h⟩, fun h => h.2 hopt⟩
  · rw [and_iff_left fun h => absurd h hopt]
    have hbody {pieces : List (ℕ × List UInt8)}
        (hunpacks : Unpacks pf m r n (layoutOf rr.rrtype) pieces) :
        sameRDataBody rr (patch b.rdata pieces) = true ↔ SegsRead m (r + n) r segs (r + n) :=
      sameRDataBody_iff hform hunpacks (fun x hx => holds_patch hunpacks.ascending hx) hpx hbs hn
    by_cases hnone : b.rrclass = kDNSQClassANY ∧ n = 0
    · have hflat' : isFlat (layoutOf rr.rrtype) := by
        by_contra hflat'
        exact hform.form_ne_nil hflat' (length_eq_zero_iff.mp (hn.trans hnone.2))
      obtain ⟨hsegs, hlen, -⟩ := hflat hflat'
      rw [if_pos hnone]
      refine iff_of_true ⟨_, rfl, (sameRDataBody_flat_iff hflat').mpr ?_⟩ hsegs
      rw [hlen, hnone.2]
      rfl
    · rw [if_neg hnone]
      constructor
      · rintro ⟨b', hrun, hsame⟩
        obtain ⟨pieces, hunpacks⟩ := unpacks_of_getRData (htype ▸ hopt) (congrArg Prod.fst hrun)
        rw [getRData_of_unpacks hunpacks] at hrun
        cases hrun
        exact (hbody (htype ▸ hunpacks)).mp hsame
      · intro hread
        obtain ⟨pieces, hunpacks⟩ := hform.unpacks hread hopt hpx
        rw [getRData_of_unpacks (htype ▸ hunpacks)]
        exact ⟨_, rfl, (hbody hunpacks).mpr hread⟩

end Pieces

/-! ### The record as a whole -/

variable (pf : Platform) (m : Mem) (ptr : ℕ) (count : Option Section) (rr : ResourceRecord)
  (ttl : UInt32) (d : DomainName) (segs : List Seg)

/-- Parsing the record at `ptr` gives `rr` back. -/
def Returns (ptr stop : ℕ) (interfaceID : Option ℕ) (recordType : UInt8)
    (buffer rr : ResourceRecord) : Prop :=
  ∃ rr', (getLargeResourceRecord pf ptr stop interfaceID recordType buffer).run m =
      (some stop, rr') ∧
    nameBytes rr'.name 0 = nameBytes rr.name 0 ∧ rr'.rrtype = rr.rrtype ∧
    rr'.rrclass = rr.rrclass &&& kDNSClassMask ∧ sameRDataBody rr rr'.rdata = true

/-- Writing the record and parsing what was written gives the record back. -/
def RoundTrips (limit : ℕ) (interfaceID : Option ℕ) (recordType : UInt8)
    (buffer : ResourceRecord) : Prop :=
  ∃ stop m', putResourceRecordTTLWithLimit pf m ptr count rr ttl limit = (some stop, m') ∧
    Returns pf m' ptr stop interfaceID recordType buffer rr

/-- The message behind a record that was written, and its end. -/
def recordAfter : Mem :=
  bumpCount pf count
    (m.write ptr (recordBytes rr ttl (nameForm m ptr d) (rdataForm m ptr rr ttl d segs)))

def recordStop : ℕ :=
  ptr + (nameForm m ptr d).length + 10 + (rdataForm m ptr rr ttl d segs).length

/-- The names in segments that were put at `ptr` of `m` are kept, up to the case of letters. -/
def SegsKept (m' : Mem) (stop : ℕ) : Mem → ℕ → List Seg → Prop
  | _, _, [] => True
  | m, ptr, seg :: segs => (∀ d, seg = .name d → NameKept lowerLabel m' stop m ptr d) ∧
      SegsKept m' stop (m.write ptr (seg.form m ptr)) (ptr + (seg.form m ptr).length) segs

/-- What it takes for a record to survive, besides a valid name and valid rdata. -/
structure Survives (pf : Platform) (m : Mem) (ptr : ℕ) (count : Option Section)
    (rr : ResourceRecord) (ttl : UInt32) (limit : ℕ) (d : DomainName) (segs : List Seg) : Prop where
  registered : rr.recordType ≠ kDNSRecordTypeUnregistered
  /-- The fixed part of a record may not end at the limit, even if the rdata is empty. -/
  room : ptr + (nameForm m ptr d).length + 10 < limit
  name : NameKept id (recordAfter pf m ptr count rr ttl d segs) (recordStop m ptr rr ttl d segs)
    m ptr d
  rdata : SegsKept (recordAfter pf m ptr count rr ttl d segs) (recordStop m ptr rr ttl d segs)
    (withRecordHead m ptr rr ttl (nameForm m ptr d)) (ptr + (nameForm m ptr d).length + 10) segs
  optClass : layoutOf rr.rrtype = .opt →
    rr.rrclass &&& kDNSClassMask = UInt16.ofNat normalMaxDNSMessageData
  optLease : layoutOf rr.rrtype = .opt → optLease pf rr ≤ pf.maxSeconds

section Record

variable {pf : Platform} {m m' : Mem} {ptr limit stop p n : ℕ} {rr : ResourceRecord}
  {d : DomainName}
  {segs : List Seg} {ttl : UInt32}

theorem headerAt_of_holds {cs : List UInt8} (pf : Platform) (interfaceID : Option ℕ)
    (hn : n < 65536)
    (h : m.Holds p (recordHead rr ttl ++ (big.bytes 2 n ++ cs))) :
    (headerAt pf m p interfaceID).rrtype = rr.rrtype ∧
      (headerAt pf m p interfaceID).rrclass = wireClass rr &&& kDNSClassMask ∧
      (headerAt pf m p interfaceID).pktrdlength = n := by
  simp only [recordHead, holds_append, length_append, length_bytes] at h
  obtain ⟨⟨⟨htype, hclass⟩, -⟩, hlength, -⟩ := h
  have hval {q v : ℕ} (hq : m.Holds q (big.bytes 2 v)) (hv : v < 65536) :
      big.val (m.read q 2) = v := by
    rw [hq.read_eq (length_bytes _ _ _), val_bytes_of _ hv]
  simp only [headerAt, getRecordHeader, Rd.run_bind, Rd.run_number, Rd.run_pure]
  rw [hval htype rr.rrtype.toNat_lt, hval hclass (wireClass rr).toNat_lt, hval hlength hn]
  simp

theorem wireClass_iff : wireClass rr &&& kDNSClassMask = rr.rrclass &&& kDNSClassMask ↔
    (layoutOf rr.rrtype = .opt →
      rr.rrclass &&& kDNSClassMask = UInt16.ofNat normalMaxDNSMessageData) := by
  unfold wireClass
  split
  · next h => exact ⟨fun heq _ => heq.symm, fun heq => (heq h).symm⟩
  · next h => exact iff_of_true rfl fun h' => absurd h' h

theorem segsKept_iff (hbs : m'.Holds ptr (segForm m ptr segs))
    (hstop : ptr + (segForm m ptr segs).length ≤ stop)
    (hmax : ptr + (segForm m ptr segs).length ≤ 0x4000) : SegsKept m' stop m ptr segs ↔
      SegsRead m' stop ptr segs (ptr + (segForm m ptr segs).length) := by
  induction segs generalizing m ptr with
  | nil => simp [SegsKept, SegsRead, segForm]
  | cons seg segs ih =>
    rw [segForm] at hbs hstop hmax ⊢
    obtain ⟨hseg, hrest⟩ := holds_append.mp hbs
    rw [length_append, ← add_assoc] at hstop hmax ⊢
    rw [SegsKept, ih hrest hstop hmax]
    cases seg with
    | bytes bs => simp [SegsRead, Seg.form, show m'.Holds ptr bs from hseg]
    | name d =>
      rw [Seg.form] at hseg hstop hmax ⊢
      obtain ⟨hread, hkept⟩ := nameKept_iff lowerLabel hseg (show _ ≤ stop by omega) (by omega)
      rw [SegsRead]
      constructor
      · rintro ⟨h, hsegs⟩
        obtain ⟨ls, hls, hsame⟩ := hkept.mp (h d rfl)
        obtain ⟨e, rfl⟩ := hls.exists_name
        exact ⟨_, ⟨e, hread e hls, hsame⟩, hsegs⟩
      · rintro ⟨p', ⟨e, he, hsame⟩, hsegs⟩
        obtain rfl := he.ends.unique (hread e he.spelled).ends
        refine ⟨fun d' h => ?_, hsegs⟩
        cases h
        exact hkept.mpr ⟨_, he.spelled, hsame⟩

theorem returns_iff {e : DomainName} {h : RecordHeader} {interfaceID : Option ℕ}
    (hname : NameAt rr.name 0 d) (he : NameRead m stop ptr p e)
    (hh : headerAt pf m p interfaceID = h) (hend : p + 10 + h.pktrdlength = stop)
    (recordType : UInt8) (buffer : ResourceRecord) :
    Returns pf m ptr stop interfaceID recordType buffer rr ↔
      e.labels = d.labels ∧ h.rrtype = rr.rrtype ∧ h.rrclass = rr.rrclass &&& kDNSClassMask ∧
        RDataReturns pf m (p + 10) h.pktrdlength rr (withHeader h interfaceID e buffer) := by
  subst hend
  unfold Returns RDataReturns
  rcases hx : (getRDataOrNone pf (p + 10) (p + 10 + h.pktrdlength) h.pktrdlength
    (withHeader h interfaceID e buffer)).run m with ⟨kept, b⟩
  rw [getLarge_of he hh le_rfl hx, hname.nameBytes]
  rcases kept with _ | _
  · simp
  have hb := rdataOrNone_kept hx
  have hsame : nameBytes b.name 0 = d.bytes ↔ e.labels = d.labels := by
    have hwritten : nameBytes b.name 0 = e.bytes := by
      rw [hb]
      exact NameAt.nameBytes (buffer.name.holds_write 0 e.bytes)
    rw [hwritten]
    exact ⟨labels_eq_of_bytes, fun h => by rw [DomainName.bytes, h, DomainName.bytes]⟩
  have htype : b.rrtype = h.rrtype := by rw [hb]; rfl
  have hclass : b.rrclass = h.rrclass := by rw [hb]; rfl
  rw [← hsame, ← htype, ← hclass]
  constructor
  · rintro ⟨rr', hrun, hrest⟩
    cases hrun
    obtain ⟨hname', htype', hclass', hbody⟩ := hrest
    exact ⟨hname', htype', hclass', b, rfl, hbody⟩
  · rintro ⟨hname', htype', hclass', b', hb', hbody⟩
    cases hb'
    exact ⟨_, rfl, hname', htype', hclass', hbody⟩

/-- What the parser makes of a record that was written. -/
theorem parses_iff (interfaceID : Option ℕ) (recordType : UInt8) (buffer : ResourceRecord)
    {bs cs : List UInt8} (hname : NameAt rr.name 0 d)
    (hform : WireForm pf rr (layoutOf rr.rrtype) segs) (hpx : layoutOf rr.rrtype ≠ .px)
    (hone : layoutOf rr.rrtype = .opt → SingleOption pf rr) (hbs : nameForm m ptr d = bs)
    (hcs : rdataForm m ptr rr ttl d segs = cs) (hholds : m'.Holds ptr (recordBytes rr ttl bs cs))
    (hstop : ptr + bs.length + 10 + cs.length = stop) (hmax : stop ≤ 0x4000) :
    Returns pf m' ptr stop interfaceID recordType buffer rr ↔ NameKept id m' stop m ptr d ∧
        SegsKept m' stop (withRecordHead m ptr rr ttl bs) (ptr + bs.length + 10) segs ∧
        wireClass rr &&& kDNSClassMask = rr.rrclass &&& kDNSClassMask ∧
        (layoutOf rr.rrtype = .opt → optLease pf rr ≤ pf.maxSeconds) := by
  rw [rdataForm, hbs] at hcs
  subst hcs
  obtain ⟨hname', hrest⟩ := holds_append.mp hholds
  obtain ⟨htype, hclass, hlength⟩ := headerAt_of_holds pf interfaceID (by omega) hrest
  have hrdata := (holds_append.mp (holds_append.mp hrest).2).2
  rw [length_recordHead, length_bytes] at hrdata
  change m'.Holds (ptr + bs.length + 10) _ at hrdata
  obtain ⟨hread, hkept⟩ := nameKept_iff id (hbs ▸ hname')
    (hbs ▸ show ptr + bs.length ≤ stop by omega)
    (show ptr ≤ 0x4000 by omega)
  rw [hbs] at hread
  have hreturns (e : DomainName) (he : Spelled m' stop ptr 0 e.labels) :
      Returns pf m' ptr stop interfaceID recordType buffer rr ↔ e.labels = d.labels ∧
        SegsKept m' stop (withRecordHead m ptr rr ttl bs) (ptr + bs.length + 10) segs ∧
        wireClass rr &&& kDNSClassMask = rr.rrclass &&& kDNSClassMask ∧
        (layoutOf rr.rrtype = .opt → optLease pf rr ≤ pf.maxSeconds) := by
    rw [returns_iff hname (hread e he) rfl (by rw [hlength, hstop]) recordType buffer, hclass,
      hlength, rdataReturns_iff hform hpx hone htype hrdata rfl, hstop,
      segsKept_iff hrdata hstop.le (hstop.trans_le hmax), hstop]
    tauto
  constructor
  · intro h
    obtain ⟨p, e, he, -⟩ := nameRead_of_getLarge (congrArg Prod.fst h.choose_spec.1)
    obtain ⟨hlabels, hrest⟩ := (hreturns e he.spelled).mp h
    exact ⟨hkept.mpr ⟨_, he.spelled, by rw [hlabels]⟩, hrest⟩
  · rintro ⟨hkeep, hrest⟩
    obtain ⟨ls, hls, hsame⟩ := hkept.mp hkeep
    rw [map_id, map_id] at hsame
    exact (hreturns d (hsame ▸ hls)).mpr ⟨rfl, hrest⟩

/-- A valid record that the message has room for comes back just if it survives. -/
theorem roundTrips_iff (count : Option Section) (interfaceID : Option ℕ) (recordType : UInt8)
    (buffer : ResourceRecord) (hname : NameAt rr.name 0 d)
    (hform : WireForm pf rr (layoutOf rr.rrtype) segs) (hpx : layoutOf rr.rrtype ≠ .px)
    (hone : layoutOf rr.rrtype = .opt → SingleOption pf rr) (hptr : sizeofDNSMessageHeader ≤ ptr)
    (hlimit : limit ≤ sizeofDNSMessageHeader + absoluteMaxDNSMessageData)
    (hroom : ptr + d.bytes.length + 10 + segLength segs ≤ limit) :
    RoundTrips pf m ptr count rr ttl limit interfaceID recordType buffer ↔
      Survives pf m ptr count rr ttl limit d segs := by
  have hmax : limit ≤ 8952 := hlimit
  have hlen := length_nameForm_le m ptr d
  by_cases hregistered : rr.recordType = kDNSRecordTypeUnregistered
  · refine iff_of_false ?_ fun h => h.registered hregistered
    rintro ⟨stop, m', hput, rr', hrun, -⟩
    rw [putResourceRecordTTLWithLimit, if_pos hregistered] at hput
    cases hput
    obtain ⟨p, e, he, -⟩ := nameRead_of_getLarge (congrArg Prod.fst hrun)
    exact absurd he.lt (lt_irrefl ptr)
  have huncut : RecordUncut limit m ptr rr ttl d segs := segsUncut_of_room (by omega)
  rcases putRecord_outcome count ttl hregistered hname hform huncut rfl rfl rfl with
    ⟨-, hle, hfixed, hput⟩ | ⟨hnone, -, hwhy⟩
  · have hholds : (recordAfter pf m ptr count rr ttl d segs).Holds ptr _ :=
      (m.holds_write ptr _).congr fun x hx =>
        bumpCount_eqOn count (not_mem_headerCounts (hptr.trans hx.1))
    have hreturns := parses_iff interfaceID recordType buffer hname hform hpx hone rfl rfl
      hholds rfl (by omega)
    rw [wireClass_iff] at hreturns
    constructor
    · rintro ⟨stop, m', hput', h⟩
      cases hput.symm.trans hput'
      obtain ⟨hkept, hsegs, hclass, hlease⟩ := hreturns.mp h
      exact ⟨hregistered, hfixed, hkept, hsegs, hclass, hlease⟩
    · intro h
      exact ⟨_, _, hput, hreturns.mpr ⟨h.name, h.rdata, h.optClass, h.optLease⟩⟩
  · refine iff_of_false ?_ fun h => ?_
    · rintro ⟨stop, m', hput, -⟩
      rw [hput] at hnone
      cases hnone
    · have hfixed := h.room
      rcases hwhy hpx with hfull | hfull <;> omega

/-! ### A record that survives, and one that does not -/

/-- A message with a question for `a.` -/
def questionMessage : Mem :=
  ofList [0, 0, 0, 0, 1, 0, 0, 0, 0, 0, 0, 0, 1, 97, 0, 0, 1, 0, 1]

def subdomain : DomainName := ⟨[[98], [97]], by decide, by decide, by decide⟩

def mxRecord : ResourceRecord :=
  { rootRecord 15 7 (ofList [10, 0, 1, 98, 1, 97, 0]) with name := ofList subdomain.bytes }

/-- The name is written as `b` and a pointer to the question, and the exchange as a pointer to
the name. -/
theorem mxRecord_roundTrips : nameForm questionMessage 19 subdomain = [1, 98, 0xC0, 12] ∧
    rdataForm questionMessage 19 mxRecord 120 subdomain
      [.bytes [0, 10], .name subdomain] = [0, 10, 0xC0, 19] ∧
    RoundTrips littlePlatform questionMessage 19 (some .answers) mxRecord 120 1452 none 0
      emptyRecord ∧
    Survives littlePlatform questionMessage 19 (some .answers) mxRecord 120 1452 subdomain
      [.bytes [0, 10], .name subdomain] := by
  have hexchange : NameAt mxRecord.rdata afterPreference subdomain := by decide +kernel
  have hreturns : RoundTrips littlePlatform questionMessage 19 (some .answers) mxRecord 120 1452
      none 0 emptyRecord :=
    ⟨37, _, Prod.ext (by decide +kernel) rfl, _, Prod.ext (by decide +kernel) rfl,
      by decide +kernel, by decide +kernel, by decide +kernel, by decide +kernel⟩
  refine ⟨by decide +kernel, by decide +kernel, hreturns, ?_⟩
  exact (roundTrips_iff _ _ _ _ (by decide +kernel) (.mx hexchange) (by decide)
    (absurd · (by decide)) (by decide) (by decide) (by decide)).mp hreturns

def pxRecord : ResourceRecord :=
  rootRecord 26 8 ((ofList [10, 0, 1, 97, 0]).write pxMapx400 [1, 98, 0])

/-- The parser takes the first byte of the preference for the root, and the second for the
length of a label that the rdata has no room for. -/
theorem pxRecord_not_roundTrips : NameAt pxRecord.name 0 rootName ∧
    WireForm littlePlatform pxRecord .px
      [.bytes (wire16 littlePlatform pxRecord.rdata 0), .name (oneByteName 97),
        .name (oneByteName 98)] ∧
    ¬RoundTrips littlePlatform (ofList []) 12 (some .answers) pxRecord 120 1452 none 0
      emptyRecord := by
  have hmap822 : NameAt pxRecord.rdata afterPreference (oneByteName 97) := by decide +kernel
  have hmapx400 : NameAt pxRecord.rdata pxMapx400 (oneByteName 98) := by decide +kernel
  refine ⟨by decide +kernel, .px hmap822 hmapx400, ?_⟩
  rintro ⟨stop, m', hput, rr', hparse, -⟩
  have hstop : (putResourceRecordTTLWithLimit littlePlatform (ofList []) 12 (some .answers)
      pxRecord 120 1452).1 = some 31 := by decide +kernel
  rw [hput] at hstop
  obtain rfl : stop = 31 := Option.some.inj hstop
  have hnone : ((getLargeResourceRecord littlePlatform 12 31 none 0 emptyRecord).run
      (putResourceRecordTTLWithLimit littlePlatform (ofList []) 12 (some .answers)
        pxRecord 120 1452).2).1 = none := by decide +kernel
  rw [hput, hparse] at hnone
  cases hnone

end Record

end Hexley.Dns
