import Hexley.Dns.NameEquality
import Hexley.Dns.Unpack

/-!
What the record that `GetLargeResourceRecord` delivers has of the record that
was in the buffer before.

The buffer `m->rec` is used again for every record and is not cleared. The
parser writes over the parts that it needs, and a part that it reads without
having written it comes from the previous record. This happens in three
places. `GetRDLength` returns the length in the buffer when the class is ANY,
and computes the length of an HINFO record from two counts that the packet
may not have. The case for OPT records leaves the length alone when the
options are malformed, and spreads several options over the buffer without
filling the space between them. And the hash of a record that has no rdata is
computed from the rdata of the previous one.

The rdata in memory has the size that the layout gives it, with undefined
bytes behind every name, while `rdlength` counts the bytes on the wire. The
bytes that it counts are `rdataBytes`. They are the first `rdlength` bytes of
the memory unless there are two names (`rdataInMemory`).
-/

namespace Hexley.Dns

open Lib List Mem UInt16

/-- The bytes of the rdata that `rdlength` counts: the fields of the layout, and
of a name only the name. -/
def rdataBytes (rr : ResourceRecord) : List UInt8 :=
  match layoutOf rr.rrtype with
  | .name => nameBytes rr.rdata 0
  | .soa => nameBytes rr.rdata 0 ++ nameBytes rr.rdata secondName ++ rr.rdata.read soaNumbers 20
  | .mx => rr.rdata.read 0 2 ++ nameBytes rr.rdata afterPreference
  | .rp => nameBytes rr.rdata 0 ++ nameBytes rr.rdata secondName
  | .px => rr.rdata.read 0 2 ++ nameBytes rr.rdata afterPreference ++ nameBytes rr.rdata pxMapx400
  | .srv => rr.rdata.read 0 6 ++ nameBytes rr.rdata srvTarget
  | .a | .raw | .hinfo | .aaaa | .opt | .unknown => rr.rdata.read 0 rr.rdlength.toNat

/-- The first `rdlength` bytes of the rdata in memory. -/
def rdataInMemory (rr : ResourceRecord) : List UInt8 := rr.rdata.read 0 rr.rdlength.toNat

/-- Two results of the parser agree on the position and on the record, of whose
rdata `view` is what counts. -/
structure SameRecord (view : ResourceRecord → List UInt8) (x y : Option ℕ × ResourceRecord) :
    Prop where
  position : x.1 = y.1
  name : nameBytes x.2.name 0 = nameBytes y.2.name 0
  rrtype : x.2.rrtype = y.2.rrtype
  rrclass : x.2.rrclass = y.2.rrclass
  rroriginalttl : x.2.rroriginalttl = y.2.rroriginalttl
  rdlength : x.2.rdlength = y.2.rdlength
  rdata : view x.2 = view y.2
  namehash : x.2.namehash = y.2.namehash
  rdatahash : x.2.rdatahash = y.2.rdatahash

/-- The parser delivers the same record for any two previous contents of the
buffer. -/
def BufferIndependent (view : ResourceRecord → List UInt8) (pf : Platform) (m : Mem)
    (ptr stop : ℕ) (interfaceID : Option ℕ) (recordType : UInt8) : Prop :=
  ∀ rr rr', SameRecord view
    ((getLargeResourceRecord pf ptr stop interfaceID recordType rr).run m)
    ((getLargeResourceRecord pf ptr stop interfaceID recordType rr').run m)

def StringsFit (m : Mem) (r n : ℕ) : Prop :=
  2 + (m r).toNat ≤ n ∧ 2 + (m r).toNat + (m (r + 1 + (m r).toNat)).toNat ≤ n

/-- There is one option, and it fills the rdata; or the rdata is too short for
the header of an option, which is then taken from the bytes behind it. -/
def OneOption (m : Mem) (r n : ℕ) : Prop :=
  n = 0 ∨ (Endian.big.val (m.read r 2) = kDNSOptLLQ ∧ (n < 4 ∨ n = 4 + llqOptLen)) ∨
    (Endian.big.val (m.read r 2) = kDNSOptLease ∧ (n < 4 ∨ n = 8))

/-- The rdata of `n` bytes at `r` says everything about the record. -/
def RDataDetermined (m : Mem) (r n : ℕ) (rrclass : UInt16) : RDLayout → Prop
  | .raw | .unknown => True
  | .a | .aaaa => rrclass = kDNSQClassANY → n = 0
  | .name | .soa | .mx | .rp | .px | .srv => rrclass ≠ kDNSQClassANY
  | .hinfo => rrclass = kDNSQClassANY ∨ StringsFit m r n
  | .opt => OneOption m r n

variable {pf : Platform} {m : Mem} {stop ptr p q : ℕ} {interfaceID : Option ℕ} {recordType : UInt8}
  {rr₀ a b : ResourceRecord} {r n : ℕ} {rrclass : UInt16} {layout : RDLayout} {unique : Bool}
  {next : Option ℕ} {d : DomainName} {h : RecordHeader} {view : ResourceRecord → List UInt8}
  {body : ResourceRecord → ResourceRecord} {pieces : List (ℕ × List UInt8)} {bs : List UInt8}
  {k : UInt16}

theorem RDataDetermined.flat_or_ne (hdet : RDataDetermined m r n rrclass layout) :
    rrclass ≠ kDNSQClassANY ∨ isFlat layout := by
  cases layout with
  | a | raw | hinfo | aaaa | opt | unknown => exact .inr rfl
  | name | soa | mx | rp | px | srv => exact .inl hdet

/-! ### The computed fields -/

@[simp] theorem complete_rdlength :
    (completeRecord pf unique recordType a).rdlength = getRDLength a false := rfl

theorem complete_rdatahash : (completeRecord pf unique recordType a).rdatahash =
      rDataHashValue pf { a with rdlength := getRDLength a false } :=
  setNew_rdatahash pf { a with namehash := domainNameHashValue a.name 0 }

structure SameHead (a b : ResourceRecord) : Prop where
  name : ∃ d, NameAt a.name 0 d ∧ NameAt b.name 0 d
  rrtype : a.rrtype = b.rrtype
  rrclass : a.rrclass = b.rrclass
  rroriginalttl : a.rroriginalttl = b.rroriginalttl

theorem SameHead.sameRecord (h : SameHead a b)
    (hlen : getRDLength a false = getRDLength b false)
    (hview : view (completeRecord pf unique recordType a) =
      view (completeRecord pf unique recordType b))
    (hhash : rDataHashValue pf { a with rdlength := getRDLength a false } =
      rDataHashValue pf { b with rdlength := getRDLength b false }) :
    SameRecord view (next, completeRecord pf unique recordType a)
      (next, completeRecord pf unique recordType b) := by
  obtain ⟨d, ha, hb⟩ := h.name
  exact
    { position := rfl
      name := ha.nameBytes.trans hb.nameBytes.symm
      rrtype := h.rrtype
      rrclass := h.rrclass
      rroriginalttl := h.rroriginalttl
      rdlength := hlen
      rdata := hview
      namehash := ha.hash hb
      rdatahash := by rw [complete_rdatahash, complete_rdatahash, hhash] }

theorem rdataBytes_of_flat (hflat : isFlat (layoutOf a.rrtype)) :
    rdataBytes a = rdataInMemory a := by
  unfold rdataBytes rdataInMemory
  generalize layoutOf a.rrtype = layout at hflat ⊢
  cases layout with
  | a | raw | hinfo | aaaa | opt | unknown => rfl
  | name | soa | mx | rp | px | srv => cases hflat

theorem SameHead.sameRecord_of_flat (h : SameHead a b) (hflat : isFlat (layoutOf a.rrtype))
    (hla : getRDLength a false = k) (hlb : getRDLength b false = k) (hk : k.toNat ≤ bs.length)
    (ha : a.rdata.Holds 0 bs) (hb : b.rdata.Holds 0 bs) :
    SameRecord rdataBytes (next, completeRecord pf unique recordType a)
      (next, completeRecord pf unique recordType b) := by
  have hflat' : isFlat (layoutOf b.rrtype) := h.rrtype ▸ hflat
  have heq := (ha.eqOn hb).mono (Set.Ico_subset_Ico_right (Nat.add_le_add_left hk 0))
  refine h.sameRecord (hla.trans hlb.symm) ?_ ?_
  · rw [rdataBytes_of_flat (a := completeRecord pf unique recordType a) hflat,
      rdataBytes_of_flat (a := completeRecord pf unique recordType b) hflat', rdataInMemory,
      rdataInMemory, complete_rdlength, complete_rdlength, hla, hlb]
    exact read_congr heq
  · rw [rdataHash_of_flat (a := { a with rdlength := getRDLength a false }) hflat,
      rdataHash_of_flat (a := { b with rdlength := getRDLength b false }) hflat', hla, hlb]
    rw [zero_add] at heq
    exact dataHash_congr heq

def namesOf : RDLayout → List ℕ
  | .name => [0]
  | .soa | .rp => [0, secondName]
  | .mx => [afterPreference]
  | .px => [afterPreference, pxMapx400]
  | .srv => [srvTarget]
  | .a | .raw | .hinfo | .aaaa | .opt | .unknown => []

def numbersOf : RDLayout → ℕ × ℕ
  | .soa => (soaNumbers, 20)
  | .mx | .px => (0, 2)
  | .srv => (0, 6)
  | _ => (0, 0)

theorem SameHead.sameRecord_of_names (h : SameHead a b) (hclass : a.rrclass ≠ kDNSQClassANY)
    (hflat : ¬isFlat (layoutOf a.rrtype))
    (hnames : ∀ o ∈ namesOf (layoutOf a.rrtype), ∃ d, NameAt a.rdata o d ∧ NameAt b.rdata o d)
    (hnumbers : a.rdata.read (numbersOf (layoutOf a.rrtype)).1 (numbersOf (layoutOf a.rrtype)).2 =
      b.rdata.read (numbersOf (layoutOf a.rrtype)).1 (numbersOf (layoutOf a.rrtype)).2) :
    SameRecord rdataBytes (next, completeRecord pf unique recordType a)
      (next, completeRecord pf unique recordType b) := by
  have hname {o : ℕ} (ho : o ∈ namesOf (layoutOf a.rrtype)) :
      compressedDomainNameLength a.rdata o none = compressedDomainNameLength b.rdata o none ∧
        nameBytes a.rdata o = nameBytes b.rdata o ∧
        domainNameHashValue a.rdata o = domainNameHashValue b.rdata o := by
    obtain ⟨d, ha, hb⟩ := hnames o ho
    exact ⟨by rw [ha.length, hb.length], by rw [ha.nameBytes, hb.nameBytes], ha.hash hb⟩
  refine h.sameRecord ?_ ?_ ?_
  · rw [rdLength_of_ne hclass, rdLength_of_ne (h.rrclass ▸ hclass), ← h.rrtype]
    generalize layoutOf a.rrtype = layout at hflat hname ⊢
    cases layout with
    | a | raw | hinfo | aaaa | opt | unknown => exact absurd rfl hflat
    | name | mx | srv =>
      dsimp only
      rw [(hname (by simp [namesOf])).1]
    | soa | rp | px =>
      dsimp only
      rw [(hname (by simp [namesOf])).1, (hname (by simp [namesOf])).1]
  · change rdataBytes { a with rdlength := _ } = rdataBytes { b with rdlength := _ }
    unfold rdataBytes
    rw [← h.rrtype]
    generalize layoutOf a.rrtype = layout at hflat hname hnumbers ⊢
    cases layout with
    | a | raw | hinfo | aaaa | opt | unknown => exact absurd rfl hflat
    | name => exact (hname (by simp [namesOf])).2.1
    | rp =>
      rw [(hname (by simp [namesOf])).2.1, (hname (by simp [namesOf])).2.1]
    | mx | srv =>
      dsimp only [numbersOf] at hnumbers ⊢
      rw [(hname (by simp [namesOf])).2.1, hnumbers]
    | px | soa =>
      dsimp only [numbersOf] at hnumbers ⊢
      rw [(hname (by simp [namesOf])).2.1, (hname (by simp [namesOf])).2.1, hnumbers]
  · unfold rDataHashValue
    rw [← h.rrtype]
    generalize layoutOf a.rrtype = layout at hflat hname hnumbers ⊢
    cases layout with
    | a | raw | hinfo | aaaa | opt | unknown => exact absurd rfl hflat
    | name | mx | srv => exact (hname (by simp [namesOf])).2.2
    | rp | px =>
      dsimp only
      rw [(hname (by simp [namesOf])).2.2, (hname (by simp [namesOf])).2.2]
    | soa =>
      have hfield (k : ℕ) (hk : k + 4 ≤ 20) :
          field32 pf a.rdata (soaNumbers + k) = field32 pf b.rdata (soaNumbers + k) :=
        field32_congr hnumbers (Nat.le_add_right _ k) (by simp only [numbersOf]; omega)
      rw [show field32 pf a.rdata soaNumbers = field32 pf b.rdata soaNumbers from
        hfield 0 (by decide), hfield 4 (by decide), hfield 8 (by decide), hfield 12 (by decide),
        hfield 16 (by decide), (hname (by simp [namesOf])).2.2, (hname (by simp [namesOf])).2.2]

/-! ### Rdata that says everything -/

theorem toNat_ofNat_of_le (hn : n ≤ maximumRDSize) : (ofNat n).toNat = n :=
  toNat_ofNat_of_lt' (hn.trans_lt (by decide))

theorem write_read_apply {rd : Mem} {k : ℕ} (hk : k < n) :
    rd.write 0 (m.read r n) k = m (r + k) := by
  have := congrArg (fun l => l[k]?) (rd.holds_write 0 (m.read r n))
  simpa only [length_read, getElem?_read _ hk, zero_add, Option.some.injEq] using this

theorem rdLength_hinfo (hclass : a.rrclass ≠ kDNSQClassANY) (hl : layoutOf a.rrtype = .hinfo) :
    getRDLength (unpacked n a [(0, m.read r n)]) false =
      ofNat (2 + (a.rdata.write 0 (m.read r n) 0).toNat + (a.rdata.write 0 (m.read r n)
        (1 + (a.rdata.write 0 (m.read r n) 0).toNat)).toNat) := by
  have hclass' : (unpacked n a [(0, m.read r n)]).rrclass ≠ kDNSQClassANY := hclass
  rw [rdLength_of_ne hclass', show layoutOf (unpacked n a _).rrtype = .hinfo from hl]
  rfl

theorem rdLength_of_sets (hset : setsLength (layoutOf a.rrtype))
    (hlen : a.rrclass = kDNSQClassANY ∨ layoutOf a.rrtype ≠ .hinfo) :
    getRDLength (unpacked n a pieces) false = ofNat n := by
  have hrd : (unpacked n a pieces).rdlength = ofNat n := if_pos hset
  by_cases hany : (unpacked n a pieces).rrclass = kDNSQClassANY
  · rw [rdLength_of_any hany, hrd]
  have hne := hlen.resolve_left hany
  rw [rdLength_of_ne hany, hrd, show layoutOf (unpacked n a _).rrtype = layoutOf a.rrtype from rfl]
  generalize layoutOf a.rrtype = layout at hset hne ⊢
  cases layout with
  | raw | unknown => rfl
  | hinfo => exact absurd rfl hne
  | a | name | soa | mx | rp | px | aaaa | srv | opt => cases hset

theorem Unpacks.name_mem (h : Unpacks pf m r n layout pieces) {o : ℕ} (ho : o ∈ namesOf layout) :
    ∃ d : DomainName, (o, d.bytes) ∈ pieces := by
  cases h with
  | a | aaaa | raw | hinfo | unknown => cases ho
  | name =>
    obtain rfl := List.mem_singleton.1 ho
    exact ⟨_, mem_cons_self⟩
  | mx | srv =>
    obtain rfl := List.mem_singleton.1 ho
    exact ⟨_, mem_cons_of_mem _ mem_cons_self⟩
  | rp | soa =>
    rcases (List.mem_cons.1 ho).imp_right List.mem_singleton.1 with rfl | rfl
    · exact ⟨_, mem_cons_self⟩
    · exact ⟨_, mem_cons_of_mem _ mem_cons_self⟩
  | px =>
    rcases (List.mem_cons.1 ho).imp_right List.mem_singleton.1 with rfl | rfl
    · exact ⟨_, mem_cons_of_mem _ mem_cons_self⟩
    · exact ⟨_, mem_cons_of_mem _ (mem_cons_of_mem _ mem_cons_self)⟩

theorem Unpacks.number_mem (h : Unpacks pf m r n layout pieces) (hflat : ¬isFlat layout) :
    (numbersOf layout).2 = 0 ∨
      ∃ bs, ((numbersOf layout).1, bs) ∈ pieces ∧ bs.length = (numbersOf layout).2 := by
  cases h with
  | a | aaaa | raw | hinfo | unknown => exact absurd rfl hflat
  | name | rp => exact .inl rfl
  | mx | px => exact .inr ⟨_, mem_cons_self, length_hostNumber r 2⟩
  | srv => exact .inr ⟨_, mem_cons_self, by simp [length_hostNumber, numbersOf]⟩
  | soa =>
    exact .inr ⟨_, mem_cons_of_mem _ (mem_cons_of_mem _ mem_cons_self),
      by simp [length_hostNumber, numbersOf]⟩

theorem SameHead.sameRecord_of_unpacks (h : SameHead a b)
    (hu : Unpacks pf m r n (layoutOf a.rrtype) pieces)
    (hdet : RDataDetermined m r n a.rrclass (layoutOf a.rrtype)) :
    SameRecord rdataBytes (next, completeRecord pf unique recordType (unpacked n a pieces))
      (next, completeRecord pf unique recordType (unpacked n b pieces)) := by
  have hhead : SameHead (unpacked n a pieces) (unpacked n b pieces) :=
    ⟨h.name, h.rrtype, h.rrclass, h.rroriginalttl⟩
  by_cases hflat : isFlat (layoutOf a.rrtype)
  swap
  · have hpiece (rd : Mem) {x : ℕ × List UInt8} (hx : x ∈ pieces) :
        (patch rd pieces).Holds x.1 x.2 := holds_patch hu.ascending hx
    refine hhead.sameRecord_of_names (hdet.flat_or_ne.resolve_right hflat) hflat (fun o ho => ?_) ?_
    · obtain ⟨d, hd⟩ := hu.name_mem ho
      exact ⟨d, hpiece _ hd, hpiece _ hd⟩
    · rcases hu.number_mem hflat with hz | ⟨bs, hbs, hk⟩
      · rw [show layoutOf (unpacked n a pieces).rrtype = layoutOf a.rrtype from rfl, hz]
        rfl
      · exact ((hpiece _ hbs).read_eq hk).trans ((hpiece _ hbs).read_eq hk).symm
  -- The other layouts have one piece, whose length is the same for both.
  have hpiece {bs : List UInt8} {k : UInt16} (hp : pieces = [(0, bs)]) (hk : k.toNat ≤ bs.length)
      (hlen : ∀ rr : ResourceRecord, rr.rrclass = a.rrclass →
        layoutOf rr.rrtype = layoutOf a.rrtype → getRDLength (unpacked n rr pieces) false = k) :
      SameRecord rdataBytes (next, completeRecord pf unique recordType (unpacked n a pieces))
        (next, completeRecord pf unique recordType (unpacked n b pieces)) := by
    subst hp
    exact hhead.sameRecord_of_flat hflat (hlen a rfl rfl) (hlen b h.rrclass.symm (by rw [h.rrtype]))
      hk (a.rdata.holds_write 0 bs) (b.rdata.holds_write 0 bs)
  have hsets (hn : n ≤ maximumRDSize) (hset : setsLength (layoutOf a.rrtype))
      (hlen : a.rrclass = kDNSQClassANY ∨ layoutOf a.rrtype ≠ .hinfo)
      (hp : pieces = [(0, m.read r n)]) :
      SameRecord rdataBytes (next, completeRecord pf unique recordType (unpacked n a pieces))
        (next, completeRecord pf unique recordType (unpacked n b pieces)) :=
    hpiece hp (by rw [toNat_ofNat_of_le hn, length_read]) fun rr hc hl =>
      rdLength_of_sets (hl ▸ hset) (hc ▸ hl ▸ hlen)
  generalize layoutOf a.rrtype = layout at hu hdet hflat hpiece hsets
  cases hu with
  | name | mx | srv | rp | px | soa => cases hflat
  | a hn | aaaa hn =>
    have hclass : a.rrclass ≠ kDNSQClassANY := fun hc => by have := hdet hc; omega
    refine hpiece (k := ofNat n) rfl (by rw [hn, length_read]; exact le_rfl) fun rr hc hl => ?_
    refine (rdLength_of_ne (by exact hc ▸ hclass)).trans ?_
    rw [show layoutOf (unpacked n rr _).rrtype = _ from hl, hn]
    rfl
  | raw hn | unknown hn => exact hsets hn rfl (.inr nofun) rfl
  | hinfo hn =>
    rcases hdet with hany | hfit
    · exact hsets hn rfl (.inl hany) rfl
    by_cases hany : a.rrclass = kDNSQClassANY
    · exact hsets hn rfl (.inl hany) rfl
    have hfirst := hfit.1
    refine hpiece (k := ofNat (2 + (m r).toNat + (m (r + 1 + (m r).toNat)).toNat)) rfl ?_
      fun rr hc hl => ?_
    · rw [toNat_ofNat_of_le (hfit.2.trans hn), length_read]
      exact hfit.2
    · rw [rdLength_hinfo (hc ▸ hany) hl, write_read_apply (by omega), add_zero,
        write_read_apply (by omega), add_assoc r]

/-! ### Options -/

theorem getOptRdataFrom_of_lt {limit fuel ptr nread opt q : ℕ} {rd : Mem} (hq : q < opt) :
    ((getOptRdataFrom pf limit n fuel ptr nread opt rd).run m).2 q = rd q := by
  induction fuel generalizing ptr nread opt rd with
  | zero => rfl
  | succ fuel ih =>
    -- Each turn stores a header at `opt` and a payload at `opt + 4`.
    have hwrite (o : ℕ) (ho : opt ≤ o) (rd : Mem) (bs : List UInt8) : rd.write o bs q = rd q :=
      write_of_lt (by omega)
    rw [getOptRdataFrom]
    split
    swap
    · rfl
    split
    · rfl
    rw [Rd.run_bind, Rd.run_bind]
    split
    · split
      · exact (hwrite _ (by omega) _ _).trans (hwrite _ le_rfl _ _)
      · simp only [Rd.run_bind]
        rw [ih (by omega), hwrite _ (by omega), hwrite _ (by omega), hwrite _ le_rfl]
    · split
      · split
        · exact (hwrite _ (by omega) _ _).trans (hwrite _ le_rfl _ _)
        · rw [Rd.run_bind, ih (by omega), hwrite _ (by omega), hwrite _ (by omega), hwrite _ le_rfl]
      · exact (hwrite _ (by omega) _ _).trans (hwrite _ le_rfl _ _)

theorem getOptRdata_eq_none (hn : 0 < n) (hn' : n ≤ 65535)
    (hllq : Endian.big.val (m.read r 2) = kDNSOptLLQ → 4 ≤ n ∧ n < 4 + llqOptLen)
    (hlease : Endian.big.val (m.read r 2) = kDNSOptLease → 4 ≤ n ∧ n < 8) (rd : Mem) :
    ((getOptRdata pf r (r + n) n rd).run m).1 = none := by
  rw [getOptRdata, getOptRdataFrom, if_pos ⟨hn, by decide⟩, if_neg (by decide), Rd.run_bind,
    Rd.run_bind, Rd.run_number]
  by_cases hcode : Endian.big.val (m.read r 2) = kDNSOptLLQ
  · rw [if_pos hcode, if_pos ((unsignedDiff_short hn' (by decide)).mpr (hllq hcode))]
    rfl
  rw [if_neg hcode]
  by_cases hcode' : Endian.big.val (m.read r 2) = kDNSOptLease
  · rw [if_pos hcode', if_pos ((unsignedDiff_short hn' (by decide)).mpr (hlease hcode'))]
    rfl
  · rw [if_neg hcode']
    rfl

theorem getOpt_of_one (pf : Platform) (hn' : n ≤ 65535) (h : OneOption m r n) :
    ∃ (q : ℕ) (bs : List UInt8), n ≤ bs.length ∧
      ∀ rd, (getOptRdata pf r (r + n) n rd).run m = (some q, rd.write 0 bs) := by
  rcases eq_zero_or_pos n with rfl | hn
  · refine ⟨r, [], le_rfl, fun rd => ?_⟩
    refine Prod.ext rfl (funext fun q => ?_)
    exact (write_of_le (show 0 + ([] : List UInt8).length ≤ q from Nat.zero_le q)).symm
  -- After the first option the loop ends, since the rdata is used up.
  obtain ⟨fuel, hfuel⟩ : ∃ fuel, n = fuel + 1 := ⟨n - 1, by omega⟩
  have hends (ptr nread : ℕ) (rd : Mem) (hnread : n ≤ nread) :
      (getOptRdataFrom pf (r + n) n n ptr nread sizeofRdataOPT rd).run m = (some ptr, rd) := by
    have hdone : ¬(nread < n ∧ sizeofRdataOPT < maximumRDSize - sizeofRdataOPT) := by omega
    rw [hfuel, getOptRdataFrom, ← hfuel, if_neg hdone]
    rfl
  rcases h with hz | ⟨hcode, hlen⟩ | ⟨hcode, hlen⟩
  · omega
  · have hle : n ≤ 4 + llqOptLen := by unfold llqOptLen at hlen ⊢; omega
    refine ⟨r + 4 + llqOptLen, llqOption pf m r, by rwa [length_llqOption], fun rd => ?_⟩
    rw [getOpt_llq hn hn' hcode (by omega)]
    exact hends _ _ _ hle
  · have hle : n ≤ 8 := by omega
    refine ⟨r + 8, leaseOption pf m r, by rwa [length_leaseOption], fun rd => ?_⟩
    rw [getOpt_lease hn hn' hcode (by omega)]
    exact hends _ _ _ hle

/-- Otherwise the parser gives up, or it leaves a byte of the rdata as it was. -/
theorem getOpt_of_not_one (hn' : n ≤ 65535) (h : ¬OneOption m r n) :
    (∀ rd, ((getOptRdata pf r (r + n) n rd).run m).1 = none) ∨
      ∃ k, 2 ≤ k ∧ k < n ∧ ∀ rd, ((getOptRdata pf r (r + n) n rd).run m).2 k = rd k := by
  have hn : 0 < n := pos_of_ne_zero fun hz => h (.inl hz)
  have hnext (ptr nread k : ℕ) (rd : Mem) (bs : List UInt8) (hk : bs.length ≤ k)
      (hk' : k < sizeofRdataOPT) :
      ((getOptRdataFrom pf (r + n) n n ptr nread sizeofRdataOPT (rd.write 0 bs)).run m).2 k =
        rd k := by
    rw [getOptRdataFrom_of_lt hk']
    exact write_of_le (by omega)
  by_cases hllq : Endian.big.val (m.read r 2) = kDNSOptLLQ ∧ 4 + llqOptLen ≤ n
  · have hlt : 4 + llqOptLen < n := lt_of_le_of_ne hllq.2 fun heq =>
      h (.inr (.inl ⟨hllq.1, .inr heq.symm⟩))
    refine .inr ⟨4 + llqOptLen, by decide, hlt, fun rd => ?_⟩
    rw [getOpt_llq hn hn' hllq.1 (.inr hllq.2), hnext _ _ _ _ _ length_llqOption.le (by decide)]
  by_cases hlease : Endian.big.val (m.read r 2) = kDNSOptLease ∧ 8 ≤ n
  · have hlt : 8 < n := lt_of_le_of_ne hlease.2 fun heq =>
      h (.inr (.inr ⟨hlease.1, .inr heq.symm⟩))
    refine .inr ⟨8, by decide, hlt, fun rd => ?_⟩
    rw [getOpt_lease hn hn' hlease.1 (.inr hlease.2),
      hnext _ _ _ _ _ length_leaseOption.le (by decide)]
  · refine .inl (getOptRdata_eq_none hn hn' (fun hc => ⟨?_, ?_⟩) fun hc => ⟨?_, ?_⟩)
    · exact not_lt.mp fun hlt => h (.inr (.inl ⟨hc, .inl hlt⟩))
    · exact not_le.mp fun hle => hllq ⟨hc, hle⟩
    · exact not_lt.mp fun hlt => h (.inr (.inr ⟨hc, .inl hlt⟩))
    · exact not_le.mp fun hle => hlease ⟨hc, hle⟩

/-! ### Two records that were in the buffer -/

def staleRecord (b : UInt8) : ResourceRecord :=
  { emptyRecord with rdlength := b.toUInt16, rdata := fun _ => b }

/-- A buffer that is empty but for one byte of the rdata. -/
def staleByte (q : ℕ) : ResourceRecord := { emptyRecord with rdata := (Mem.ofList []).write q [1] }

/-- The byte to set, for the hash of a record with names to show it. -/
def hashedByte : RDLayout → ℕ
  | .soa => soaNumbers
  | .mx | .px => afterPreference
  | .srv => srvTarget
  | _ => 0

/-- The hash of a record with names is taken from bytes that the buffer has,
even if the packet has none. -/
theorem staleByte_hash_ne (pf : Platform) (hflat : ¬isFlat (layoutOf a.rrtype))
    (htype : b.rrtype = a.rrtype) (ha : a.rdata = emptyRecord.rdata)
    (hb : b.rdata = (staleByte (hashedByte (layoutOf a.rrtype))).rdata) :
    rDataHashValue pf a ≠ rDataHashValue pf b := by
  unfold rDataHashValue
  rw [htype, ha, hb]
  generalize layoutOf a.rrtype = layout at hflat ⊢
  cases layout with
  | a | raw | hinfo | aaaa | opt | unknown => exact absurd rfl hflat
  | name | mx | rp | px | srv =>
    dsimp only
    decide +kernel
  | soa =>
    dsimp only [field32]
    cases pf.order with
    | big => decide +kernel
    | little => decide +kernel

/-! ### The three ways to fill the buffer -/

/-- The record that is delivered with `body` does not show what was in the buffer. -/
def Independent (view : ResourceRecord → List UInt8) (pf : Platform) (unique : Bool)
    (recordType : UInt8) (p : Option ℕ) (body : ResourceRecord → ResourceRecord) : Prop :=
  ∀ rr rr', SameRecord view (p, completeRecord pf unique recordType (body rr))
    (p, completeRecord pf unique recordType (body rr'))

theorem Independent.rdlength (hsame : Independent view pf unique recordType next body)
    (rr rr' : ResourceRecord) : getRDLength (body rr) false = getRDLength (body rr') false := by
  have h := (hsame rr rr').rdlength
  rwa [complete_rdlength, complete_rdlength] at h

theorem Independent.rdata (hsame : Independent view pf unique recordType next body)
    (hview : ∀ rr, view (completeRecord pf unique recordType (body rr)) =
      rdataInMemory (completeRecord pf unique recordType (body rr))) (rr rr' : ResourceRecord) :
    Set.EqOn (body rr).rdata (body rr').rdata
      (Set.Ico 0 (0 + (getRDLength (body rr) false).toNat)) := by
  have h := (hsame rr rr').rdata
  rw [hview, hview, rdataInMemory, rdataInMemory, complete_rdlength, complete_rdlength,
    ← hsame.rdlength rr rr'] at h
  exact eqOn_of_read_eq h

theorem sameHead_withHeader (h : RecordHeader) (interfaceID : Option ℕ) (d : DomainName)
    (rr rr' : ResourceRecord) :
    SameHead (withHeader h interfaceID d rr) (withHeader h interfaceID d rr') :=
  ⟨⟨d, rr.name.holds_write 0 d.bytes, rr'.name.holds_write 0 d.bytes⟩, rfl, rfl, rfl⟩

theorem independent_of_none (hclass : h.rrclass = kDNSQClassANY)
    (hflat : isFlat (layoutOf h.rrtype)) :
    Independent rdataBytes pf unique recordType next fun rr =>
      { withHeader h interfaceID d rr with rdlength := 0 } := by
  intro rr rr'
  have hhead : SameHead { withHeader h interfaceID d rr with rdlength := 0 }
      { withHeader h interfaceID d rr' with rdlength := 0 } :=
    ⟨(sameHead_withHeader h interfaceID d rr rr').name, rfl, rfl, rfl⟩
  have hlen (rr : ResourceRecord) :
      getRDLength { withHeader h interfaceID d rr with rdlength := 0 } false = 0 :=
    rdLength_of_any hclass false
  exact hhead.sameRecord_of_flat hflat (hlen rr) (hlen rr') le_rfl (holds_nil _ 0) (holds_nil _ 0)

theorem flat_of_none (hsame : Independent view pf unique recordType next fun rr =>
      { withHeader h interfaceID d rr with rdlength := 0 }) : isFlat (layoutOf h.rrtype) := by
  by_contra hflat
  have hhash := (hsame emptyRecord (staleByte (hashedByte (layoutOf h.rrtype)))).rdatahash
  rw [complete_rdatahash, complete_rdatahash] at hhash
  refine absurd hhash (staleByte_hash_ne pf ?_ ?_ ?_ ?_)
  · exact hflat
  · rfl
  · rfl
  · rfl

theorem not_any_of_unpacked (hset : setsLength (layoutOf h.rrtype) = false)
    (hsame : Independent view pf unique recordType next fun rr =>
      unpacked n (withHeader h interfaceID d rr) pieces) : h.rrclass ≠ kDNSQClassANY := by
  intro hclass
  have hlen (rr : ResourceRecord) :
      getRDLength (unpacked n (withHeader h interfaceID d rr) pieces) false = rr.rdlength := by
    have hany : (unpacked n (withHeader h interfaceID d rr) pieces).rrclass = kDNSQClassANY :=
      hclass
    rw [rdLength_of_any hany, unpacked]
    refine if_neg ?_
    rw [show layoutOf (withHeader h _ _ _).rrtype = layoutOf h.rrtype from rfl, hset]
    decide
  have hrd := hsame.rdlength (staleRecord 0) (staleRecord 1)
  rw [hlen, hlen] at hrd
  exact absurd hrd (by decide)

theorem stringsFit_of_unpacked (hclass : h.rrclass ≠ kDNSQClassANY)
    (hlayout : layoutOf h.rrtype = .hinfo)
    (hview : ∀ rr, isFlat (layoutOf rr.rrtype) → view rr = rdataInMemory rr)
    (hsame : Independent view pf unique recordType next fun rr =>
      unpacked n (withHeader h interfaceID d rr) [(0, m.read r n)]) : StringsFit m r n := by
  have hout {rd : Mem} {k : ℕ} (hk : n ≤ k) : rd.write 0 (m.read r n) k = rd k :=
    write_of_le (by rwa [length_read, zero_add])
  have hlen (rr : ResourceRecord) :
      getRDLength (unpacked n (withHeader h interfaceID d rr) [(0, m.read r n)]) false =
        ofNat (2 + (rr.rdata.write 0 (m.read r n) 0).toNat + (rr.rdata.write 0 (m.read r n)
          (1 + (rr.rdata.write 0 (m.read r n) 0).toNat)).toNat) := rdLength_hinfo hclass hlayout
  have hrd := hsame.rdlength (staleRecord 0) (staleRecord 1)
  rw [hlen, hlen] at hrd
  have hsmall {x y : ℕ} (hx : x < 65536) (hy : y < 65536) (h : ofNat x = ofNat y) :
      x = y := by
    have := congrArg toNat h
    rwa [toNat_ofNat_of_lt' hx, toNat_ofNat_of_lt' hy] at this
  have hd := (m r).toNat_lt
  -- The first count is in the packet, then the second, then all that they count.
  rcases eq_zero_or_pos n with rfl | hn
  · simp only [hout (Nat.zero_le _)] at hrd
    exact absurd hrd (by decide)
  rw [write_read_apply hn, write_read_apply hn, add_zero] at hrd
  rcases lt_or_ge (1 + (m r).toNat) n with hn' | hn'
  swap
  · rw [hout hn', hout hn'] at hrd
    have := hsmall (by simp [staleRecord]; omega) (by simp [staleRecord]; omega) hrd
    simp [staleRecord] at this
  have hd' := (m (r + (1 + (m r).toNat))).toNat_lt
  refine ⟨by omega, not_lt.mp fun hlt => ?_⟩
  rw [add_assoc r] at hlt
  have hflat : isFlat (layoutOf h.rrtype) := by rw [hlayout]; rfl
  have hdata := hsame.rdata (fun rr => hview _ hflat) (staleRecord 0) (staleRecord 1)
  rw [hlen, write_read_apply hn, add_zero, write_read_apply hn',
    toNat_ofNat_of_lt' (show 2 + _ + _ < 65536 by omega)] at hdata
  have hbyte : (staleRecord 0).rdata.write 0 (m.read r n) n =
      (staleRecord 1).rdata.write 0 (m.read r n) n := hdata ⟨Nat.zero_le n, by omega⟩
  rw [hout le_rfl, hout le_rfl] at hbyte
  exact absurd hbyte (by simp [staleRecord])

theorem rdLength_of_opt (hlayout : layoutOf a.rrtype = .opt) :
    getRDLength a false = a.rdlength := by
  by_cases hclass : a.rrclass = kDNSQClassANY
  · exact rdLength_of_any hclass false
  · rw [rdLength_of_ne hclass, hlayout]

theorem independent_of_one (hn : n ≤ 65535) (hlayout : layoutOf h.rrtype = .opt)
    (hone : OneOption m r n) : Independent rdataBytes pf unique recordType next fun rr =>
      withOptions pf m r n (withHeader h interfaceID d rr) := by
  intro rr rr'
  obtain ⟨q, bs, hbs, hrun⟩ := getOpt_of_one pf hn hone
  have hlen (rr : ResourceRecord) :
      getRDLength (withOptions pf m r n (withHeader h interfaceID d rr)) false = ofNat n := by
    rw [rdLength_of_opt hlayout]
    simp [withOptions, hrun]
  have hdata (rr : ResourceRecord) :
      (withOptions pf m r n (withHeader h interfaceID d rr)).rdata.Holds 0 bs := by
    simp [withOptions, hrun, holds_write]
  have hhead : SameHead (withOptions pf m r n (withHeader h interfaceID d rr))
      (withOptions pf m r n (withHeader h interfaceID d rr')) :=
    ⟨(sameHead_withHeader h interfaceID d rr rr').name, rfl, rfl, rfl⟩
  refine hhead.sameRecord_of_flat ?_ (hlen rr) (hlen rr') ?_ (hdata rr) (hdata rr')
  · change isFlat (layoutOf h.rrtype)
    rw [hlayout]
    rfl
  · rwa [toNat_ofNat_of_lt' (show n < 65536 by omega)]

theorem one_of_withOptions (hn : n ≤ 65535) (hlayout : layoutOf h.rrtype = .opt)
    (hview : ∀ rr, isFlat (layoutOf rr.rrtype) → view rr = rdataInMemory rr)
    (hsame : Independent view pf unique recordType next fun rr =>
      withOptions pf m r n (withHeader h interfaceID d rr)) : OneOption m r n := by
  by_contra hone
  have hlen (rr : ResourceRecord) :
      getRDLength (withOptions pf m r n (withHeader h interfaceID d rr)) false =
        if ((getOptRdata pf r (r + n) n rr.rdata).run m).1.isSome then ofNat n
        else rr.rdlength := rdLength_of_opt hlayout
  have hrd := hsame.rdlength (staleRecord 0) (staleRecord 1)
  rw [hlen, hlen] at hrd
  rcases getOpt_of_not_one hn hone with hnone | ⟨k, hk, hkn, hrun⟩
  · rw [hnone, hnone] at hrd
    simp [staleRecord] at hrd
  have hne (b : UInt8) (hb : b.toNat ≤ 1) : ofNat n ≠ b.toUInt16 := by
    intro heq
    have := congrArg toNat heq
    rw [toNat_ofNat_of_lt' (show n < 65536 by omega), UInt8.toNat_toUInt16] at this
    omega
  -- The lengths agree only if both runs take the one of the packet.
  by_cases hsome₀ : ((getOptRdata pf r (r + n) n (staleRecord 0).rdata).run m).1.isSome
  swap
  · rw [if_neg hsome₀] at hrd
    split at hrd
    · exact hne 0 (by decide) hrd.symm
    · exact absurd hrd (by decide)
  by_cases hsome₁ : ((getOptRdata pf r (r + n) n (staleRecord 1).rdata).run m).1.isSome
  swap
  · rw [if_pos hsome₀, if_neg hsome₁] at hrd
    exact hne 1 (by decide) hrd
  have hflat : isFlat (layoutOf h.rrtype) := by rw [hlayout]; rfl
  have hdata := hsame.rdata (fun rr => hview _ hflat) (staleRecord 0) (staleRecord 1)
  rw [hlen, if_pos hsome₀, toNat_ofNat_of_lt' (show n < 65536 by omega)] at hdata
  have hbyte : ((getOptRdata pf r (r + n) n (staleRecord 0).rdata).run m).2 k =
      ((getOptRdata pf r (r + n) n (staleRecord 1).rdata).run m).2 k :=
    hdata ⟨Nat.zero_le k, by omega⟩
  rw [hrun, hrun] at hbyte
  exact absurd hbyte (by simp [staleRecord])

/-! ### The first bytes of the memory -/

theorem read_nameLength (rd : Mem) (o : ℕ) (ho : o ≤ 6) :
    rd.read 0 (ofNat (o + compressedDomainNameLength rd o none)).toNat =
      rd.read 0 o ++ nameBytes rd o := by
  have hle : compressedDomainNameLength rd o none ≤ 256 := compressedNameLength_le
  rw [toNat_ofNat_of_lt' (show o + _ < 65536 by omega), read_add, zero_add]
  rfl

/-- With at most one name, which is then the last field, the rdata is in one piece. -/
theorem rdataInMemory_eq (hclass : a.rrclass ≠ kDNSQClassANY ∨ isFlat (layoutOf a.rrtype))
    (hsecond : ¬hasSecondName (layoutOf a.rrtype)) :
    rdataInMemory (completeRecord pf unique recordType a) =
      rdataBytes (completeRecord pf unique recordType a) := by
  by_cases hflat : isFlat (layoutOf a.rrtype)
  · have hflat' : isFlat (layoutOf (completeRecord pf unique recordType a).rrtype) := hflat
    exact (rdataBytes_of_flat hflat').symm
  have hclass := hclass.resolve_right hflat
  change a.rdata.read 0 (getRDLength a false).toNat = rdataBytes { a with rdlength := _ }
  rw [rdLength_of_ne hclass]
  unfold rdataBytes
  generalize layoutOf a.rrtype = layout at hflat hsecond ⊢
  cases layout with
  | a | raw | hinfo | aaaa | opt | unknown => exact absurd rfl hflat
  | soa | rp | px => exact absurd rfl hsecond
  | name =>
    have := read_nameLength a.rdata 0 (by decide)
    rwa [zero_add, read_zero, nil_append] at this
  | mx => exact read_nameLength a.rdata 2 (by decide)
  | srv => exact read_nameLength a.rdata 6 (by decide)

/-- Behind the first of two names the memory has bytes that no packet sets, and
the length is large enough to reach them. -/
theorem not_second_of_unpacked {ps : List (ℕ × List UInt8)}
    (hclass : h.rrclass ≠ kDNSQClassANY) (hu : Unpacks pf m r n (layoutOf h.rrtype) ps)
    (hsame : Independent rdataInMemory pf unique recordType next fun rr =>
      unpacked n (withHeader h interfaceID d rr) ps) : ¬hasSecondName (layoutOf h.rrtype) := by
  intro hsecond
  have hdata := hsame.rdata (fun _ => rfl) (staleRecord 0) (staleRecord 1)
  have hgap (g : ℕ) (hg : g < (getRDLength (unpacked n (withHeader h interfaceID d
      (staleRecord 0)) ps) false).toNat) (hps : ∀ x ∈ ps, g < x.1 ∨ x.1 + x.2.length ≤ g) :
      False := by
    have hbyte : patch (staleRecord 0).rdata ps g = patch (staleRecord 1).rdata ps g :=
      hdata ⟨Nat.zero_le g, by omega⟩
    rw [patch_of_gap hps, patch_of_gap hps] at hbyte
    exact absurd hbyte (by simp [staleRecord])
  have hclass' : (unpacked n (withHeader h interfaceID d (staleRecord 0)) ps).rrclass ≠
    kDNSQClassANY := hclass
  have hname {d' : DomainName} {o : ℕ} (hx : (o, d'.bytes) ∈ ps) : compressedDomainNameLength
      (unpacked n (withHeader h interfaceID d (staleRecord 0)) ps).rdata o none =
        d'.bytes.length := by
    have hat : NameAt (unpacked n (withHeader h interfaceID d (staleRecord 0)) ps).rdata o d' :=
      holds_patch hu.ascending hx
    exact hat.length
  rw [rdLength_of_ne hclass', show layoutOf (unpacked n (withHeader h interfaceID d
    (staleRecord 0)) ps).rrtype = layoutOf h.rrtype from rfl] at hgap
  generalize layoutOf h.rrtype = layout at hu hsecond hgap
  have hle (d : DomainName) : d.bytes.length ≤ 255 := d.length_bytes_le
  have hpos (d : DomainName) : 0 < d.bytes.length := d.length_bytes_pos
  cases hu with
  | a | aaaa | raw | hinfo | unknown | name | mx | srv => cases hsecond
  | @rp d₁ d₂ | @soa d₁ d₂ =>
    have h₁ := hle d₁
    have h₂ := hle d₂
    have h₃ := hpos d₂
    refine hgap d₁.bytes.length ?_ ?_
    · rw [hname mem_cons_self, hname (mem_cons_of_mem _ mem_cons_self),
        toNat_ofNat_of_lt' (show _ < 65536 by omega)]
      omega
    · simp only [forall_mem_cons, secondName, soaNumbers, not_mem_nil, false_imp_iff, implies_true,
        and_true]
      omega
  | @px d₁ d₂ =>
    have h₁ := hle d₁
    have h₂ := hle d₂
    have h₃ := hpos d₂
    refine hgap (2 + d₁.bytes.length) ?_ ?_
    · rw [hname (mem_cons_of_mem _ mem_cons_self),
        hname (mem_cons_of_mem _ (mem_cons_of_mem _ mem_cons_self)),
        toNat_ofNat_of_lt' (show _ + _ + _ < 65536 by omega)]
      omega
    · simp only [forall_mem_cons, length_hostNumber, afterPreference, pxMapx400]
      exact ⟨.inr (by omega), .inr (by omega), .inl (by omega), forall_mem_nil _⟩

/-! ### The parser -/

/-- How the parser fills the buffer when it succeeds, as a function of what was
there. -/
inductive Filled (pf : Platform) (m : Mem) (r n : ℕ) (h : RecordHeader) (interfaceID : Option ℕ)
    (d : DomainName) : (ResourceRecord → ResourceRecord) → Prop
  | none (hclass : h.rrclass = kDNSQClassANY) (hn : n = 0) :
      Filled pf m r n h interfaceID d
        fun rr => { withHeader h interfaceID d rr with rdlength := 0 }
  | options (hlayout : layoutOf h.rrtype = .opt) :
      Filled pf m r n h interfaceID d fun rr => withOptions pf m r n (withHeader h interfaceID d rr)
  | pieces {ps : List (ℕ × List UInt8)} (hsome : h.rrclass = kDNSQClassANY → n ≠ 0)
      (hu : Unpacks pf m r n (layoutOf h.rrtype) ps) :
      Filled pf m r n h interfaceID d fun rr => unpacked n (withHeader h interfaceID d rr) ps

theorem filled_of_getLarge (hname : NameSpans m stop ptr p)
    (hsucc : ((getLargeResourceRecord pf ptr stop interfaceID recordType rr₀).run m).1 = some q) :
    ∃ d body, Filled pf m (p + 10) (headerAt pf m p interfaceID).pktrdlength
        (headerAt pf m p interfaceID) interfaceID d body ∧
      ∀ rr, (getLargeResourceRecord pf ptr stop interfaceID recordType rr).run m =
        (some (p + 10 + (headerAt pf m p interfaceID).pktrdlength),
          completeRecord pf (headerAt pf m p interfaceID).unique recordType (body rr)) := by
  obtain ⟨p', d, hd, hend⟩ := nameRead_of_getLarge hsucc
  obtain rfl : p' = p := hd.ends.unique hname.ends
  generalize hh : headerAt pf m p' interfaceID = h at hend ⊢
  by_cases hany : h.rrclass = kDNSQClassANY ∧ h.pktrdlength = 0
  · refine ⟨d, _, .none hany.1 hany.2, fun rr => ?_⟩
    rw [getLarge_of hd hh hend (congrArg (Rd.run m) (if_pos hany))]
    rfl
  have hdata (rr : ResourceRecord) : getRDataOrNone pf (p' + 10) (p' + 10 + h.pktrdlength)
      h.pktrdlength (withHeader h interfaceID d rr) = getRData pf (p' + 10)
        (p' + 10 + h.pktrdlength) h.pktrdlength (withHeader h interfaceID d rr) := if_neg hany
  by_cases hopt : layoutOf h.rrtype = .opt
  · refine ⟨d, _, .options hopt, fun rr => ?_⟩
    rw [getLarge_of hd hh hend ((congrArg (Rd.run m) (hdata rr)).trans (getRData_of_opt hopt))]
    rfl
  · have hkept : ((getRData pf (p' + 10) (p' + 10 + h.pktrdlength) h.pktrdlength
        (withHeader h interfaceID d rr₀)).run m).1 = true := by
      by_contra hkept
      rw [getLarge_of hd hh hend (congrArg (Rd.run m) (hdata rr₀)), if_neg hkept] at hsucc
      cases hsucc
    obtain ⟨ps, hps⟩ := unpacks_of_getRData hopt hkept
    refine ⟨d, _, .pieces (fun hc hn => hany ⟨hc, hn⟩) hps, fun rr => ?_⟩
    rw [getLarge_of hd hh hend ((congrArg (Rd.run m) (hdata rr)).trans (getRData_of_unpacks hps))]
    rfl

theorem Filled.independent (hf : Filled pf m r n h interfaceID d body) (hn : n ≤ 65535)
    (hdet : RDataDetermined m r n h.rrclass (layoutOf h.rrtype)) :
    Independent rdataBytes pf unique recordType (some q) body := by
  cases hf with
  | none hclass _ =>
    refine independent_of_none hclass ?_
    generalize layoutOf h.rrtype = layout at hdet ⊢
    cases layout with
    | a | raw | hinfo | aaaa | opt | unknown => rfl
    | name | soa | mx | rp | px | srv => exact absurd hclass hdet
  | options hlayout =>
    rw [hlayout] at hdet
    exact independent_of_one hn hlayout hdet
  | pieces _ hu =>
    intro rr rr'
    exact (sameHead_withHeader h interfaceID d rr rr').sameRecord_of_unpacks hu hdet

theorem Filled.determined (hf : Filled pf m r n h interfaceID d body) (hn : n ≤ 65535)
    (hview : ∀ rr, isFlat (layoutOf rr.rrtype) → view rr = rdataInMemory rr)
    (hsame : Independent view pf unique recordType (some q) body) :
    RDataDetermined m r n h.rrclass (layoutOf h.rrtype) := by
  cases hf with
  | none hclass hz =>
    have hflat := flat_of_none hsame
    generalize layoutOf h.rrtype = layout at hflat ⊢
    cases layout with
    | a | aaaa => exact fun _ => hz
    | raw | unknown => trivial
    | hinfo => exact .inl hclass
    | opt => exact .inl hz
    | name | soa | mx | rp | px | srv => cases hflat
  | options hlayout =>
    rw [hlayout]
    exact one_of_withOptions hn hlayout hview hsame
  | pieces hsome hu =>
    have hany (hset : setsLength (layoutOf h.rrtype) = false) : h.rrclass ≠ kDNSQClassANY :=
      not_any_of_unpacked hset hsame
    generalize hl : layoutOf h.rrtype = layout at hu hany
    cases hu with
    | a | aaaa => exact fun hc => absurd hc (hany rfl)
    | raw | unknown => trivial
    | hinfo =>
      refine or_iff_not_imp_left.mpr fun hc => ?_
      exact stringsFit_of_unpacked hc hl hview hsame
    | name | soa | mx | rp | px | srv => exact hany rfl

theorem not_isFlat_of_hasSecondName (hsecond : hasSecondName layout) :
    ¬isFlat layout := by
  cases layout with
  | soa | rp | px => exact Bool.false_ne_true
  | a | raw | hinfo | aaaa | opt | unknown | name | mx | srv => cases hsecond

section

variable (hf : Filled pf m r n h interfaceID d body)
  (hdet : RDataDetermined m r n h.rrclass (layoutOf h.rrtype))
include hf hdet

theorem Filled.rdataInMemory_eq (hsecond : ¬hasSecondName (layoutOf h.rrtype))
    (rr : ResourceRecord) :
    rdataInMemory (completeRecord pf unique recordType (body rr)) =
      rdataBytes (completeRecord pf unique recordType (body rr)) := by
  have hkeeps : (body rr).rrtype = h.rrtype ∧ (body rr).rrclass = h.rrclass := by
    cases hf with
    | none | options | pieces => exact ⟨rfl, rfl⟩
  refine Dns.rdataInMemory_eq ?_ ?_
  · rw [hkeeps.1, hkeeps.2]
    exact hdet.flat_or_ne
  · rwa [hkeeps.1]

theorem Filled.not_hasSecondName
    (hsame : Independent rdataInMemory pf unique recordType (some q) body) :
    ¬hasSecondName (layoutOf h.rrtype) := by
  intro hsecond
  have hclass := hdet.flat_or_ne.resolve_right (not_isFlat_of_hasSecondName hsecond)
  cases hf with
  | none hany _ => exact hclass hany
  | options hlayout =>
    rw [hlayout] at hsecond
    cases hsecond
  | pieces _ hu => exact not_second_of_unpacked hclass hu hsame hsecond

end

/-- The record that is delivered is the same for any two previous contents of the
buffer exactly when the header and the rdata determine it. The first bytes of
the memory are the same when, in addition, there are not two names. -/
theorem getLargeResourceRecord_bufferIndependent_iff (hname : NameSpans m stop ptr p)
    (hsucc : ((getLargeResourceRecord pf ptr stop interfaceID recordType rr₀).run m).1 = some q) :
    (BufferIndependent rdataBytes pf m ptr stop interfaceID recordType ↔
      RDataDetermined m (p + 10) (Endian.big.val (m.read (p + 8) 2))
        (ofNat (Endian.big.val (m.read (p + 2) 2)) &&& kDNSClassMask)
        (layoutOf (ofNat (Endian.big.val (m.read p 2))))) ∧
    (BufferIndependent rdataInMemory pf m ptr stop interfaceID recordType ↔
      RDataDetermined m (p + 10) (Endian.big.val (m.read (p + 8) 2))
        (ofNat (Endian.big.val (m.read (p + 2) 2)) &&& kDNSClassMask)
        (layoutOf (ofNat (Endian.big.val (m.read p 2)))) ∧
      ¬hasSecondName (layoutOf (ofNat (Endian.big.val (m.read p 2))))) := by
  obtain ⟨htype, hclass, hlen⟩ := header_run pf m p interfaceID
  rw [← htype, ← hclass, ← hlen]
  have hn : (headerAt pf m p interfaceID).pktrdlength ≤ 65535 := hlen.trans_le number_le
  obtain ⟨d, body, hf, hrun⟩ := filled_of_getLarge hname hsucc
  change (_ ↔ RDataDetermined m (p + 10) (headerAt pf m p interfaceID).pktrdlength
    (headerAt pf m p interfaceID).rrclass (layoutOf (headerAt pf m p interfaceID).rrtype)) ∧
    (_ ↔ RDataDetermined m (p + 10) (headerAt pf m p interfaceID).pktrdlength
      (headerAt pf m p interfaceID).rrclass (layoutOf (headerAt pf m p interfaceID).rrtype) ∧
      ¬hasSecondName (layoutOf (headerAt pf m p interfaceID).rrtype))
  generalize headerAt pf m p interfaceID = h at hn hf hrun ⊢
  simp only [BufferIndependent, hrun]
  refine ⟨⟨hf.determined hn fun rr => rdataBytes_of_flat, hf.independent hn⟩, ?_, ?_⟩
  · intro hsame
    have hdet := hf.determined hn (fun _ _ => rfl) hsame
    exact ⟨hdet, hf.not_hasSecondName hdet hsame⟩
  · rintro ⟨hdet, hsecond⟩ rr rr'
    have hsame : SameRecord rdataBytes (_, completeRecord pf h.unique recordType (body rr))
        (some (p + 10 + h.pktrdlength), _) := hf.independent hn hdet rr rr'
    exact { hsame with
      rdata := (hf.rdataInMemory_eq hdet hsecond rr).trans
        (hsame.rdata.trans (hf.rdataInMemory_eq hdet hsecond rr').symm) }

def oneRecord (header rdata : List UInt8) : Mem :=
  Mem.ofList (List.replicate 13 0 ++ header ++ rdata)

def addressMessage : Mem := oneRecord [0, 1, 0, 1, 0, 0, 0, 0, 0, 4] [10, 0, 0, 1]

theorem addressMessage_bufferIndependent : NameSpans addressMessage 27 12 13 ∧
    ((getLargeResourceRecord littlePlatform 12 27 none 0 emptyRecord).run addressMessage).1 =
      some 27 ∧ BufferIndependent rdataBytes littlePlatform addressMessage 12 27 none 0 := by
  have hrun : ((getDomainName 12 27 emptyRecord.name 0).run addressMessage).1 = some 13 := by
    decide +kernel
  have hname : NameSpans addressMessage 27 12 13 := name_spans.mp hrun
  have hsucc : ((getLargeResourceRecord littlePlatform 12 27 none 0 emptyRecord).run
      addressMessage).1 = some 27 := by decide +kernel
  refine ⟨hname, hsucc, ?_⟩
  exact (getLargeResourceRecord_bufferIndependent_iff hname hsucc).1.mpr
    fun hc => absurd hc (by decide +kernel)

def unknownOptionMessage : Mem := oneRecord [0, 41, 0, 1, 0, 0, 0, 0, 0, 4] [0, 7, 0, 0]

def cutStringMessage : Mem := oneRecord [0, 13, 0, 1, 0, 0, 0, 0, 0, 1] [5]

def anyClassMessage : Mem := oneRecord [0, 1, 0, 255, 0, 0, 0, 0, 0, 4] [10, 0, 0, 1]

def anyClassEmptyMessage : Mem := oneRecord [0, 12, 0, 255, 0, 0, 0, 0, 0, 0] []

theorem getLargeResourceRecord_not_bufferIndependent :
    (((getLargeResourceRecord littlePlatform 12 27 none 0 emptyRecord).run
        unknownOptionMessage).1 = some 27 ∧
      ¬BufferIndependent rdataBytes littlePlatform unknownOptionMessage 12 27 none 0) ∧
    (((getLargeResourceRecord littlePlatform 12 24 none 0 emptyRecord).run
        cutStringMessage).1 = some 24 ∧
      ¬BufferIndependent rdataBytes littlePlatform cutStringMessage 12 24 none 0) ∧
    (((getLargeResourceRecord littlePlatform 12 27 none 0 emptyRecord).run
        anyClassMessage).1 = some 27 ∧
      ¬BufferIndependent rdataBytes littlePlatform anyClassMessage 12 27 none 0) ∧
    (((getLargeResourceRecord littlePlatform 12 23 none 0 emptyRecord).run
        anyClassEmptyMessage).1 = some 23 ∧
      ¬BufferIndependent rdataBytes littlePlatform anyClassEmptyMessage 12 23 none 0) := by
  refine ⟨⟨by decide +kernel, fun h => ?_⟩, ⟨by decide +kernel, fun h => ?_⟩,
    ⟨by decide +kernel, fun h => ?_⟩, by decide +kernel, fun h => ?_⟩
  · exact absurd (h (staleRecord 0) (staleRecord 1)).rdlength (by decide +kernel)
  · exact absurd (h (staleRecord 0) (staleRecord 1)).rdlength (by decide +kernel)
  · exact absurd (h (staleRecord 0) (staleRecord 1)).rdlength (by decide +kernel)
  · exact absurd (h emptyRecord (staleByte 0)).rdatahash (by decide +kernel)

end Hexley.Dns
