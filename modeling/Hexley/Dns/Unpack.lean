import Hexley.Dns.ParseBounds

/-!
What the record parser makes of a message, said without the parser.

The rdata of a record is put into the record buffer as a few pieces, each a
run of bytes at a fixed offset, and everything between the pieces keeps what
was there before. `Unpacks` is the relation between the rdata on the wire and
the pieces, one case for each layout, and `getRData` stores exactly these
pieces (`getRData_of_unpacks`, `unpacks_of_getRData`). OPT records are apart,
because the parser keeps them even when it cannot make sense of them.
-/

namespace Hexley.Dns

open Lib List Rd Endian

structure NameRead (m : Mem) (stop ptr p : ℕ) (d : DomainName) : Prop where
  lt : ptr < stop
  spelled : Spelled m stop ptr 0 d.labels
  ends : NameEnd m stop ptr 0 p

def hostNumber (pf : Platform) (m : Mem) (p n : ℕ) : List UInt8 :=
  pf.order.bytes n (big.val (m.read p n))

inductive Unpacks (pf : Platform) (m : Mem) (r n : ℕ) :
    RDLayout → List (ℕ × List UInt8) → Prop
  | a (hn : n = 4) : Unpacks pf m r n .a [(0, m.read r 4)]
  | aaaa (hn : n = 16) : Unpacks pf m r n .aaaa [(0, m.read r 16)]
  | raw (hn : n ≤ maximumRDSize) : Unpacks pf m r n .raw [(0, m.read r n)]
  | hinfo (hn : n ≤ maximumRDSize) : Unpacks pf m r n .hinfo [(0, m.read r n)]
  | unknown (hn : n ≤ maximumRDSize) : Unpacks pf m r n .unknown [(0, m.read r n)]
  | name {d : DomainName} (hd : NameRead m (r + n) r (r + n) d) :
      Unpacks pf m r n .name [(0, d.bytes)]
  | mx {d : DomainName} (hn : 3 ≤ n) (hd : NameRead m (r + n) (r + 2) (r + n) d) :
      Unpacks pf m r n .mx [(0, hostNumber pf m r 2), (afterPreference, d.bytes)]
  | srv {d : DomainName} (hn : 7 ≤ n) (hd : NameRead m (r + n) (r + 6) (r + n) d) :
      Unpacks pf m r n .srv
        [(0, hostNumber pf m r 2 ++ hostNumber pf m (r + 2) 2 ++ m.read (r + 4) 2),
          (srvTarget, d.bytes)]
  | rp {d e : DomainName} {p : ℕ} (hd : NameRead m (r + n) r p d)
      (he : NameRead m (r + n) p (r + n) e) :
      Unpacks pf m r n .rp [(0, d.bytes), (secondName, e.bytes)]
  | px {d e : DomainName} {p : ℕ} (hn : 4 ≤ n) (hd : NameRead m (r + n) r p d)
      (he : NameRead m (r + n) p (r + n) e) :
      Unpacks pf m r n .px
        [(0, hostNumber pf m r 2), (afterPreference, d.bytes), (pxMapx400, e.bytes)]
  | soa {d e : DomainName} {p q : ℕ} (hd : NameRead m (r + n) r p d)
      (he : NameRead m (r + n) p q e) (hq : q + 0x14 = r + n) :
      Unpacks pf m r n .soa
        [(0, d.bytes), (secondName, e.bytes), (soaNumbers, hostNumber pf m q 4 ++
          hostNumber pf m (q + 4) 4 ++ hostNumber pf m (q + 8) 4 ++ hostNumber pf m (q + 12) 4 ++
          hostNumber pf m (q + 16) 4)]

def patch (rd : Mem) (pieces : List (ℕ × List UInt8)) : Mem :=
  pieces.foldl (fun rd piece => rd.write piece.1 piece.2) rd

@[simp] theorem patch_nil (rd : Mem) : patch rd [] = rd := rfl

@[simp] theorem patch_cons (rd : Mem) (piece : ℕ × List UInt8) (pieces : List (ℕ × List UInt8)) :
    patch rd (piece :: pieces) = patch (rd.write piece.1 piece.2) pieces := rfl

def Ascending (pieces : List (ℕ × List UInt8)) : Prop :=
  pieces.Pairwise fun x y => x.1 + x.2.length ≤ y.1

variable {pieces : List (ℕ × List UInt8)} {m : Mem} {stop ptr p r n : ℕ} {d : DomainName}
  {pf : Platform} {rr : ResourceRecord}

variable {rd : Mem}

theorem patch_holds_of_later {o : ℕ} {bs : List UInt8} (h : rd.Holds o bs)
    (hlater : ∀ x ∈ pieces, o + bs.length ≤ x.1) : (patch rd pieces).Holds o bs := by
  induction pieces generalizing rd with
  | nil => exact h
  | cons x pieces ih =>
    exact ih (h.write (.inl (hlater x mem_cons_self))) fun y hy => hlater y (mem_cons_of_mem x hy)

theorem holds_patch (hasc : Ascending pieces) {x : ℕ × List UInt8} (hx : x ∈ pieces) :
    (patch rd pieces).Holds x.1 x.2 := by
  induction pieces generalizing rd with
  | nil => cases hx
  | cons y pieces ih =>
    obtain ⟨hy, hasc⟩ := List.pairwise_cons.mp hasc
    rcases List.mem_cons.mp hx with rfl | hx
    · rw [patch_cons]
      exact patch_holds_of_later (rd.holds_write x.1 x.2) hy
    · exact ih hasc hx

theorem patch_of_gap {q : ℕ} (hgap : ∀ x ∈ pieces, q < x.1 ∨ x.1 + x.2.length ≤ q) :
    patch rd pieces q = rd q := by
  induction pieces generalizing rd with
  | nil => rfl
  | cons x pieces ih =>
    rw [patch_cons, ih fun y hy => hgap y (mem_cons_of_mem x hy)]
    exact (hgap x mem_cons_self).elim Mem.write_of_lt Mem.write_of_le

def setsLength : RDLayout → Bool
  | .raw | .hinfo | .unknown => true
  | _ => false

def unpacked (n : ℕ) (rr : ResourceRecord) (pieces : List (ℕ × List UInt8)) : ResourceRecord :=
  { rr with
    rdlength := if setsLength (layoutOf rr.rrtype) then UInt16.ofNat n else rr.rdlength
    rdata := patch rr.rdata pieces }

section Names

variable {base : ℕ} {dst : Mem} {pos np : ℕ} {ls : List (List UInt8)}

theorem Spelled.labelsFit (h : Spelled m stop pos np ls) : LabelsFit ls := by
  induction h with
  | root hz => exact nofun
  | label hl rest ih =>
    have hpos := toNat_pos hl.ne_zero
    have hlt := labelKind_label_iff.mp hl.kind
    intro l hl'
    rcases List.mem_cons.mp hl' with rfl | hl'
    · rw [Mem.length_read]
      exact ⟨hpos, Nat.le_of_lt_succ hlt⟩
    · exact ih l hl'
  | pointer hp rest ih => exact ih

theorem Spelled.length_lt (h : Spelled m stop pos np ls) (hnp : np < maxDomainName) :
    np + (wire ls).length < maxDomainName := by
  induction h with
  | root hz => exact hnp
  | label hl rest ih =>
    have := ih hl.room
    rw [length_label_cons, Mem.length_read]
    omega
  | pointer hp rest ih => exact ih hnp

theorem Spelled.exists_name (h : Spelled m stop ptr 0 ls) : ∃ d : DomainName, d.labels = ls := by
  have hlt := h.length_lt (by decide)
  rw [length_label] at hlt
  exact ⟨⟨ls, fun l hl => (h.labelsFit l hl).1, fun l hl => (h.labelsFit l hl).2, by omega⟩, rfl⟩

theorem NameSpans.nameRead (h : NameSpans m stop ptr p) : ∃ d, NameRead m stop ptr p d := by
  obtain ⟨ls, hls⟩ := h.spelled
  obtain ⟨d, rfl⟩ := hls.exists_name
  exact ⟨d, h.lt, hls, h.ends⟩

theorem NameRead.nameSpans (h : NameRead m stop ptr p d) : NameSpans m stop ptr p :=
  ⟨h.lt, ⟨_, h.spelled⟩, h.ends⟩

theorem name_of_nameRead (h : NameRead m stop ptr p d) :
    (getDomainName ptr stop dst base).run m = (some p, dst.write base d.bytes) := by
  have hsome : ((getDomainName ptr stop dst base).run m).1 = some p := name_spans.mpr h.nameSpans
  exact Prod.ext hsome (getDomainName_snd hsome h.spelled)

theorem nameField_of (h : NameRead m stop ptr p d) : (getNameField ptr stop base rr).run m =
      (some p, { rr with rdata := rr.rdata.write base d.bytes }) := by
  rw [getNameField, run_bind, name_of_nameRead h]
  rfl

theorem getNameField_cases (rr : ResourceRecord) : (∃ p d, NameRead m stop ptr p d) ∨
      ∃ rr', (getNameField ptr stop base rr).run m = (none, rr') := by
  rcases hrun : (getNameField ptr stop base rr).run m with ⟨_ | p, rr'⟩
  · exact .inr ⟨rr', rfl⟩
  · have hp : NameSpans m stop ptr p := nameField_spans.mp (congrArg Prod.fst hrun)
    exact .inl ⟨p, hp.nameRead⟩

end Names

theorem getRData_of_unpacks (h : Unpacks pf m r n (layoutOf rr.rrtype) pieces) :
    (getRData pf r (r + n) n rr).run m = (true, unpacked n rr pieces) := by
  unfold getRData unpacked
  generalize layoutOf rr.rrtype = layout at h ⊢
  cases h with
  | a hn => simp [hn, setsLength]
  | aaaa hn => simp [hn, setsLength]
  | raw hn | hinfo hn | unknown hn =>
    rw [if_neg (not_lt.mpr hn)]
    simp [setsLength]
  | name hd =>
    rw [run_bind, nameField_of hd]
    simp [setsLength]
  | mx hn hd =>
    rw [if_neg (not_lt.mpr hn), run_bind, run_bind, nameField_of hd]
    simp [setsLength, hostNumber]
  | srv hn hd =>
    rw [if_neg (not_lt.mpr hn), run_bind, run_bind, run_bind, run_bind, nameField_of hd]
    simp [setsLength, hostNumber]
  | rp hd he =>
    rw [run_bind, nameField_of hd]
    rw [run_bind, nameField_of he]
    simp [setsLength]
  | px hn hd he =>
    rw [if_neg (not_lt.mpr hn), run_bind, run_bind, nameField_of hd]
    rw [run_bind, nameField_of he]
    simp [setsLength, hostNumber]
  | soa hd he hq =>
    rw [run_bind, nameField_of hd]
    rw [run_bind, nameField_of he]
    simp [hq, setsLength, hostNumber]

theorem nameRead_of_last {base : ℕ} (hkept : ((getNameField ptr stop base rr >>= fun next =>
      (pure (decide (next.1 = some stop), next.2) : Rd (Bool × ResourceRecord))).run m).1 = true) :
    ∃ d, NameRead m stop ptr stop d := by
  rw [run_bind, run_pure, decide_eq_true_iff] at hkept
  exact (nameField_spans.mp hkept).nameRead

theorem unpacks_of_getRData (hopt : layoutOf rr.rrtype ≠ .opt)
    (hkept : ((getRData pf r (r + n) n rr).run m).1 = true) :
    ∃ pieces, Unpacks pf m r n (layoutOf rr.rrtype) pieces := by
  unfold getRData at hkept
  generalize layoutOf rr.rrtype = layout at hopt hkept ⊢
  cases layout with
  | opt => exact absurd rfl hopt
  | a | aaaa | raw | hinfo | unknown =>
    dsimp only at hkept
    split at hkept
    · cases hkept
    · exact ⟨_, by constructor; omega⟩
  | name =>
    obtain ⟨d, hd⟩ := nameRead_of_last hkept
    exact ⟨_, .name hd⟩
  | mx =>
    dsimp only at hkept
    split at hkept
    · cases hkept
    · obtain ⟨d, hd⟩ := nameRead_of_last hkept
      exact ⟨_, .mx (by omega) hd⟩
  | srv =>
    dsimp only at hkept
    split at hkept
    · cases hkept
    · obtain ⟨d, hd⟩ := nameRead_of_last hkept
      exact ⟨_, .srv (by omega) hd⟩
  | rp =>
    rw [run_bind] at hkept
    rcases getNameField_cases rr with ⟨p, d, hd⟩ | ⟨rr', hrun⟩
    · rw [nameField_of hd] at hkept
      obtain ⟨e, he⟩ := nameRead_of_last hkept
      exact ⟨_, .rp hd he⟩
    · rw [hrun] at hkept
      cases hkept
  | px =>
    dsimp only at hkept
    split at hkept
    · cases hkept
    · rw [run_bind, run_bind] at hkept
      rcases getNameField_cases { rr with
        rdata := rr.rdata.write 0 (pf.order.bytes 2 ((number r 2).run m)) } with
        ⟨p, d, hd⟩ | ⟨rr', hrun⟩
      · rw [nameField_of hd] at hkept
        obtain ⟨e, he⟩ := nameRead_of_last hkept
        exact ⟨_, .px (by omega) hd he⟩
      · rw [hrun] at hkept
        cases hkept
  | soa =>
    rw [run_bind] at hkept
    rcases getNameField_cases rr with ⟨p, d, hd⟩ | ⟨rr', hrun⟩
    swap
    · rw [hrun] at hkept
      cases hkept
    rw [nameField_of hd] at hkept
    rw [run_bind] at hkept
    rcases getNameField_cases
      { rr with rdata := rr.rdata.write 0 d.bytes } with ⟨q, e, he⟩ | ⟨rr', hrun⟩
    swap
    · rw [hrun] at hkept
      cases hkept
    rw [nameField_of he] at hkept
    dsimp only at hkept
    split at hkept
    · cases hkept
    · exact ⟨_, .soa hd he (by omega)⟩

theorem length_hostNumber (p k : ℕ) : (hostNumber pf m p k).length = k :=
  length_bytes pf.order k _

theorem Unpacks.ascending {layout : RDLayout} (h : Unpacks pf m r n layout pieces) :
    Ascending pieces := by
  have hle (d : DomainName) : d.bytes.length ≤ 255 := d.length_bytes_le
  cases h <;> simp only [Ascending, pairwise_cons, mem_cons, not_mem_nil, or_false,
    forall_eq_or_imp, forall_eq, false_implies, implies_true, and_true, List.Pairwise.nil,
    length_hostNumber, length_append, Mem.length_read, secondName, soaNumbers, afterPreference,
    pxMapx400, srvTarget, zero_add, le_refl]
  case rp d e p hd he => exact Nat.le_succ_of_le (hle d)
  case px d e p hn hd he => exact ⟨⟨trivial, by decide⟩, by have := hle d; omega⟩
  case soa d e p q hd he hq => exact ⟨⟨by have := hle d; omega, by have := hle d; omega⟩,
    by have := hle e; omega⟩

/-! ### The first option -/

def llqOption (pf : Platform) (m : Mem) (r : ℕ) : List UInt8 :=
  hostNumber pf m r 2 ++ hostNumber pf m (r + 2) 2 ++
    (hostNumber pf m (r + 4) 2 ++ hostNumber pf m (r + 6) 2 ++ hostNumber pf m (r + 8) 2 ++
      m.read (r + 10) 8 ++ pf.order.bytes 4 (min (big.val (m.read (r + 18) 4)) pf.maxSeconds))

def leaseOption (pf : Platform) (m : Mem) (r : ℕ) : List UInt8 :=
  hostNumber pf m r 2 ++ hostNumber pf m (r + 2) 2 ++
    pf.order.bytes 4 (min (big.val (m.read (r + 4) 4)) pf.maxSeconds)

theorem length_llqOption : (llqOption pf m r).length = 4 + llqOptLen := by
  simp [llqOption, length_hostNumber, llqOptLen]

theorem length_leaseOption : (leaseOption pf m r).length = 8 := by
  simp [leaseOption, length_hostNumber]

theorem unsignedDiff_short {len : ℕ} (hn : n ≤ 65535) (hlen : len ≤ 18) :
    unsignedDiff (r + n) (r + 4) < len ↔ 4 ≤ n ∧ n < 4 + len := by
  rw [unsignedDiff_lt_iff (by omega) (by omega) hlen]
  omega

theorem write_option (rd : Mem) {as bs : List UInt8} (has : as.length = 2) (hbs : bs.length = 2)
    (cs : List UInt8) :
    ((rd.write 0 as).write (0 + 2) bs).write (0 + 4) cs = rd.write 0 (as ++ bs ++ cs) := by
  rw [Mem.write_append, Mem.write_append, length_append, has, hbs]

theorem getOpt_llq (hn : 0 < n) (hn' : n ≤ 65535)
    (hcode : big.val (m.read r 2) = kDNSOptLLQ) (hroom : n < 4 ∨ 4 + llqOptLen ≤ n) :
    (getOptRdata pf r (r + n) n rd).run m = (getOptRdataFrom pf (r + n) n n (r + 4 + llqOptLen)
      (4 + llqOptLen) sizeofRdataOPT (rd.write 0 (llqOption pf m r))).run m := by
  rw [getOptRdata, getOptRdataFrom, if_pos ⟨hn, by decide⟩, if_neg (by decide), run_bind,
    run_bind, run_number]
  rw [if_pos hcode, if_neg (by rw [unsignedDiff_short hn' (by decide)]; omega)]
  simp only [run_bind, run_number, run_bytes]
  rw [write_option rd (length_bytes _ _ _) (length_bytes _ _ _), zero_add, zero_add]
  rfl

theorem getOpt_lease (hn : 0 < n) (hn' : n ≤ 65535)
    (hcode : big.val (m.read r 2) = kDNSOptLease) (hroom : n < 4 ∨ 8 ≤ n) :
    (getOptRdata pf r (r + n) n rd).run m = (getOptRdataFrom pf (r + n) n n (r + 8) 8 sizeofRdataOPT
        (rd.write 0 (leaseOption pf m r))).run m := by
  have hllq : big.val (m.read r 2) ≠ kDNSOptLLQ := by rw [hcode]; decide
  rw [getOptRdata, getOptRdataFrom, if_pos ⟨hn, by decide⟩, if_neg (by decide), run_bind,
    run_bind, run_number]
  rw [if_neg hllq, if_pos hcode, if_neg (by rw [unsignedDiff_short hn' (by decide)]; omega)]
  simp only [run_bind, run_number]
  rw [write_option rd (length_bytes _ _ _) (length_bytes _ _ _), zero_add, zero_add]
  rfl

def withOptions (pf : Platform) (m : Mem) (r n : ℕ) (rr : ResourceRecord) : ResourceRecord :=
  let x := (getOptRdata pf r (r + n) n rr.rdata).run m
  { rr with rdlength := if x.1.isSome then UInt16.ofNat n else rr.rdlength, rdata := x.2 }

theorem getRData_of_opt (hlayout : layoutOf rr.rrtype = .opt) :
    (getRData pf r (r + n) n rr).run m = (true, withOptions pf m r n rr) := by
  rw [getRData, hlayout]
  rw [run_bind]
  rfl

section Record

variable {interfaceID : Option ℕ} {recordType : UInt8}

def headerAt (pf : Platform) (m : Mem) (p : ℕ) (interfaceID : Option ℕ) : RecordHeader :=
  (getRecordHeader pf p interfaceID).run m

def withHeader (h : RecordHeader) (interfaceID : Option ℕ) (d : DomainName)
    (rr : ResourceRecord) : ResourceRecord :=
  { rr with
    interfaceID := interfaceID
    name := rr.name.write 0 d.bytes
    rrtype := h.rrtype
    rrclass := h.rrclass
    rroriginalttl := h.rroriginalttl }

theorem getLarge_of {h : RecordHeader} {x : Bool × ResourceRecord}
    (hd : NameRead m stop ptr p d) (hh : headerAt pf m p interfaceID = h)
    (hend : p + 10 + h.pktrdlength ≤ stop)
    (hx : (getRDataOrNone pf (p + 10) (p + 10 + h.pktrdlength) h.pktrdlength
      (withHeader h interfaceID d rr)).run m = x) :
    (getLargeResourceRecord pf ptr stop interfaceID recordType rr).run m =
      if x.1 then (some (p + 10 + h.pktrdlength), completeRecord pf h.unique recordType x.2)
      else (none, x.2) := by
  subst hh hx
  rw [getLargeResourceRecord, run_bind, name_of_nameRead hd]
  dsimp only
  rw [if_neg (by omega), run_bind]
  change run m (if p + 10 + (headerAt pf m p interfaceID).pktrdlength > stop then _ else _) = _
  rw [if_neg (by omega), run_bind]
  rfl

theorem nameRead_of_getLarge {q : ℕ}
    (h : ((getLargeResourceRecord pf ptr stop interfaceID recordType rr).run m).1 = some q) :
    ∃ p d, NameRead m stop ptr p d ∧ p + 10 + (headerAt pf m p interfaceID).pktrdlength ≤ stop := by
  rw [getLargeResourceRecord, run_bind] at h
  rcases hrun : (getDomainName ptr stop rr.name 0).run m with ⟨_ | p, name⟩
  · rw [hrun] at h
    cases h
  · have hp : NameSpans m stop ptr p := name_spans.mp (congrArg Prod.fst hrun)
    obtain ⟨d, hd⟩ := hp.nameRead
    refine ⟨p, d, hd, ?_⟩
    rw [hrun] at h
    dsimp only at h
    split at h
    · cases h
    · rw [run_bind] at h
      by_contra hlong
      have hlong' : p + 10 + ((getRecordHeader pf p interfaceID).run m).pktrdlength > stop :=
        not_le.mp hlong
      rw [if_pos hlong'] at h
      cases h

end Record

end Hexley.Dns
