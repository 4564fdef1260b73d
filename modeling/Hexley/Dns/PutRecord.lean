import Hexley.Dns.PutName

/-!
How rdata is written.

On the wire, rdata is a sequence of segments, each of them bytes or a name.
`WireForm` gives the segments of a valid record, one case for each layout.
`Written` says that a run of bytes is a way to write the segments at a
position, with the names compressed or not, and collects the bytes that were
compared for the compression. `putRData` writes the segments as `segForm` gives
them, which is one of these ways, or it fails (`putRData_outcome`).
-/

namespace Hexley.Dns

open Lib List Mem Endian

inductive Seg
  | bytes (bs : List UInt8)
  | name (d : DomainName)

def segLength : List Seg → ℕ
  | [] => 0
  | .bytes bs :: segs => bs.length + segLength segs
  | .name d :: segs => d.bytes.length + segLength segs

def segBytes : List Seg → List UInt8
  | [] => []
  | .bytes bs :: segs => bs ++ segBytes segs
  | .name d :: segs => d.bytes ++ segBytes segs

def soaWire (pf : Platform) (rd : Mem) : List UInt8 :=
  wire32 pf rd soaNumbers ++ wire32 pf rd (soaNumbers + 4) ++ wire32 pf rd (soaNumbers + 8) ++
    wire32 pf rd (soaNumbers + 12) ++ wire32 pf rd (soaNumbers + 16)

def llqWire (pf : Platform) (rd : Mem) (o : ℕ) : List UInt8 :=
  wire16 pf rd o ++ wire16 pf rd (o + 2) ++ (wire16 pf rd (o + 4) ++ wire16 pf rd (o + 6) ++
    wire16 pf rd (o + 8) ++ rd.read (o + 10) 8 ++ wire32 pf rd (o + 18))

def leaseWire (pf : Platform) (rd : Mem) (o : ℕ) : List UInt8 :=
  wire16 pf rd o ++ wire16 pf rd (o + 2) ++ wire32 pf rd (o + 4)

/-- The rdata from `o` up to `n` is a sequence of options, and these are its bytes on the
wire. -/
inductive Options (pf : Platform) (rd : Mem) (n : ℕ) : ℕ → List UInt8 → Prop
  | nil : Options pf rd n n []
  | llq {o : ℕ} {bs : List UInt8} (ho : o < n) (hcode : pf.order.val (rd.read o 2) = kDNSOptLLQ)
      (rest : Options pf rd n (o + 4 + llqOptLen) bs) : Options pf rd n o (llqWire pf rd o ++ bs)
  | lease {o : ℕ} {bs : List UInt8} (ho : o < n)
      (hcode : pf.order.val (rd.read o 2) = kDNSOptLease)
      (rest : Options pf rd n (o + 8) bs) : Options pf rd n o (leaseWire pf rd o ++ bs)

/-- The rdata of a record is valid, and these are its segments. -/
inductive WireForm (pf : Platform) (rr : ResourceRecord) : RDLayout → List Seg → Prop
  | a (hn : rr.rdlength = 4) : WireForm pf rr .a [.bytes (rr.rdata.read 0 4)]
  | aaaa (hn : rr.rdlength = 16) : WireForm pf rr .aaaa [.bytes (rr.rdata.read 0 16)]
  | raw (hn : rr.rdlength.toNat ≤ maximumRDSize) :
      WireForm pf rr .raw [.bytes (rr.rdata.read 0 rr.rdlength.toNat)]
  | hinfo (hn : rr.rdlength.toNat ≤ maximumRDSize) :
      WireForm pf rr .hinfo [.bytes (rr.rdata.read 0 rr.rdlength.toNat)]
  | unknown (hn : rr.rdlength.toNat ≤ maximumRDSize) :
      WireForm pf rr .unknown [.bytes (rr.rdata.read 0 rr.rdlength.toNat)]
  | name {d : DomainName} (hd : NameAt rr.rdata 0 d) : WireForm pf rr .name [.name d]
  | mx {d : DomainName} (hd : NameAt rr.rdata afterPreference d) :
      WireForm pf rr .mx [.bytes (wire16 pf rr.rdata 0), .name d]
  | srv {d : DomainName} (hd : NameAt rr.rdata srvTarget d) :
      WireForm pf rr .srv
        [.bytes (wire16 pf rr.rdata 0 ++ wire16 pf rr.rdata 2 ++ rr.rdata.read 4 2), .name d]
  | rp {d e : DomainName} (hd : NameAt rr.rdata 0 d) (he : NameAt rr.rdata secondName e) :
      WireForm pf rr .rp [.name d, .name e]
  | px {d e : DomainName} (hd : NameAt rr.rdata afterPreference d)
      (he : NameAt rr.rdata pxMapx400 e) :
      WireForm pf rr .px [.bytes (wire16 pf rr.rdata 0), .name d, .name e]
  | soa {d e : DomainName} (hd : NameAt rr.rdata 0 d) (he : NameAt rr.rdata secondName e) :
      WireForm pf rr .soa [.name d, .name e, .bytes (soaWire pf rr.rdata)]
  | opt {bs : List UInt8} (hbs : Options pf rr.rdata rr.rdlength.toNat 0 bs) :
      WireForm pf rr .opt [.bytes bs]

/-- A name that was put at `pos`, with the buffer in which its labels were searched and the
bytes that were compared if they were found. -/
structure NameEntry where
  pos : ℕ
  name : DomainName
  buffer : Mem
  compared : Set ℕ

/-- The bytes `bs` are a way to write the segments at `ptr`; the names in it are `es`. -/
inductive Written : Mem → ℕ → List Seg → List UInt8 → List NameEntry → Prop
  | nil {m : Mem} {ptr : ℕ} : Written m ptr [] [] []
  | bytes {m : Mem} {ptr : ℕ} {bs cs : List UInt8} {segs : List Seg} {es : List NameEntry}
      (rest : Written (m.write ptr bs) (ptr + bs.length) segs cs es) :
      Written m ptr (.bytes bs :: segs) (bs ++ cs) es
  | name {m : Mem} {ptr : ℕ} {d : DomainName} {bs cs : List UInt8} {segs : List Seg}
      {s : Set ℕ} {es : List NameEntry} (hd : NameWritten m ptr d.labels bs s)
      (rest : Written (m.write ptr bs) (ptr + bs.length) segs cs es) :
      Written m ptr (.name d :: segs) (bs ++ cs) (⟨ptr, d, m, s⟩ :: es)

/-- The bytes that a segment is written as at `ptr`. -/
def Seg.form (m : Mem) (ptr : ℕ) : Seg → List UInt8
  | .bytes bs => bs
  | .name d => nameForm m ptr d

def segForm : Mem → ℕ → List Seg → List UInt8
  | _, _, [] => []
  | m, ptr, seg :: segs =>
    seg.form m ptr ++ segForm (m.write ptr (seg.form m ptr)) (ptr + (seg.form m ptr).length) segs

/-- No name in the segments is cut at `limit` when they are written at `ptr`. -/
def SegsUncut (limit : ℕ) : Mem → ℕ → List Seg → Prop
  | _, _, [] => True
  | m, ptr, seg :: segs => (∀ d, seg = .name d → Uncut limit ptr d) ∧
      SegsUncut limit (m.write ptr (seg.form m ptr)) (ptr + (seg.form m ptr).length) segs

variable {pf : Platform} {m m' : Mem} {ptr stop : ℕ} {rr : ResourceRecord} {segs : List Seg}
  {bs : List UInt8} {d : DomainName} {es : List NameEntry}

section Put

variable {limit : ℕ} {rd : Mem} {n : ℕ}

@[simp] theorem length_wire16 (rd : Mem) (p : ℕ) : (wire16 pf rd p).length = 2 :=
  length_bytes _ _ _

@[simp] theorem length_wire32 (rd : Mem) (p : ℕ) : (wire32 pf rd p).length = 4 :=
  length_bytes _ _ _

theorem length_llqWire (rd : Mem) (o : ℕ) : (llqWire pf rd o).length = 4 + llqOptLen := by
  simp [llqWire, llqOptLen]

theorem length_leaseWire (rd : Mem) (o : ℕ) : (leaseWire pf rd o).length = 8 := by
  simp [leaseWire]

theorem Options.length {o : ℕ} (h : Options pf rd n o bs) : o + bs.length = n := by
  induction h with
  | nil => rfl
  | llq ho hcode rest ih =>
    rw [length_append, length_llqWire]
    omega
  | lease ho hcode rest ih =>
    rw [length_append, length_leaseWire]
    omega

def Puts (limit : ℕ) (m : Mem) (ptr : ℕ) (segs : List Seg) (x : Option ℕ × Mem) : Prop :=
  x = (some (ptr + (segForm m ptr segs).length), m.write ptr (segForm m ptr segs)) ∧
    (∃ es, Written m ptr segs (segForm m ptr segs) es) ∧ ptr + (segForm m ptr segs).length ≤ limit

/-- What a function that writes has done: it wrote the segments, or it had too little room
and left the message before `ptr` alone. A function that is not `exact` asks for more room than
the segments need. -/
def PutsOrFails (exact : Prop) (limit : ℕ) (m : Mem) (ptr : ℕ) (segs : List Seg)
    (x : Option ℕ × Mem) : Prop :=
  Puts limit m ptr segs x ∨
    (x.1 = none ∧ Set.EqOn m x.2 (Set.Iio ptr) ∧ (exact → limit < ptr + segLength segs))

variable {exact : Prop} {x : Option ℕ × Mem}

theorem puts_nil (hptr : ptr ≤ limit) : PutsOrFails exact limit m ptr [] (some ptr, m) :=
  .inl ⟨by rw [segForm, write_nil]; rfl, ⟨[], .nil⟩, hptr⟩

theorem eqOn_below_of_write (h : Set.EqOn (m.write ptr bs) m' (Set.Iio (ptr + n))) :
    Set.EqOn m m' (Set.Iio ptr) :=
  fun _ ha => (eqOn_below ha).trans (h (Nat.lt_add_right _ ha))

theorem PutsOrFails.cons {seg : Seg} (hbs : seg.form m ptr = bs)
    (hlen : bs.length + segLength segs ≤ segLength (seg :: segs))
    (hseg : ∀ cs es, Written (m.write ptr bs) (ptr + bs.length) segs cs es →
      ∃ es', Written m ptr (seg :: segs) (bs ++ cs) es')
    (h : PutsOrFails exact limit (m.write ptr bs) (ptr + bs.length) segs x) :
    PutsOrFails exact limit m ptr (seg :: segs) x := by
  rcases h with ⟨hx, ⟨es, hw⟩, hle⟩ | ⟨hnone, heq, hroom⟩
  · refine .inl ?_
    rw [Puts, segForm, hbs, write_append, length_append, ← add_assoc]
    exact ⟨hx, hseg _ es hw, hle⟩
  · exact .inr ⟨hnone, eqOn_below_of_write heq, fun he => by have := hroom he; omega⟩

theorem PutsOrFails.cons_bytes
    (h : PutsOrFails exact limit (m.write ptr bs) (ptr + bs.length) segs x) :
    PutsOrFails exact limit m ptr (.bytes bs :: segs) x :=
  h.cons rfl le_rfl fun _ _ hw => ⟨_, .bytes hw⟩

theorem PutsOrFails.cons_name {s : Set ℕ} (hd : NameWritten m ptr d.labels bs s)
    (hbs : bs = nameForm m ptr d)
    (h : PutsOrFails exact limit (m.write ptr bs) (ptr + bs.length) segs x) :
    PutsOrFails exact limit m ptr (.name d :: segs) x :=
  h.cons hbs.symm (Nat.add_le_add_right (hbs ▸ length_nameForm_le m ptr d) _)
    fun _ _ hw => ⟨_, .name hd hw⟩

theorem puts_bytes (hn : bs.length = n) (hroom : ptr + n ≤ limit) :
    PutsOrFails exact limit m ptr [.bytes bs] (some (ptr + n), m.write ptr bs) := by
  rw [← hn] at hroom ⊢
  exact (puts_nil hroom).cons_bytes

theorem putsOrFails_bytes (hn : bs.length = n) : PutsOrFails exact limit m ptr [.bytes bs]
      (if ptr + n > limit then (none, m) else (some (ptr + n), m.write ptr bs)) := by
  split
  · refine .inr ⟨rfl, fun _ _ => rfl, fun _ => ?_⟩
    rw [segLength, hn]
    omega
  · exact puts_bytes hn (by omega)

theorem puts_name_cons {y : Option ℕ × Mem} (hname : NameOutcome true limit m ptr d y)
    (huncut : SegsUncut limit m ptr (.name d :: segs))
    (hfail : ∀ m', y = (none, m') → x = (none, m'))
    (hnext : ∀ bs, y = (some (ptr + bs.length), m.write ptr bs) → bs = nameForm m ptr d →
      SegsUncut limit (m.write ptr bs) (ptr + bs.length) segs → ptr + bs.length ≤ limit →
      PutsOrFails exact limit (m.write ptr bs) (ptr + bs.length) segs x) :
    PutsOrFails exact limit m ptr (.name d :: segs) x := by
  cases hname with
  | @written bs s hw hle hc hform =>
    obtain rfl := hform rfl
    exact (hnext _ rfl rfl huncut.2 hle).cons_name hw rfl
  | cut hd hne hend => exact absurd hend (huncut.1 d rfl _ _ hd hne)
  | failed heq hroom =>
    rw [hfail _ rfl]
    refine .inr ⟨rfl, heq, fun _ => ?_⟩
    rw [segLength]
    omega

theorem puts_name {nm : Mem} {start : ℕ} (hnm : NameAt nm start d)
    (huncut : SegsUncut limit m ptr [.name d]) :
    PutsOrFails exact limit m ptr [.name d] (putDomainNameAsLabels true m ptr limit nm start) :=
  puts_name_cons (putLabels_outcome true hnm) huncut (fun _ => id) fun _ hy _ _ hle =>
    hy ▸ puts_nil hle

theorem putOpt_outcome {o fuel : ℕ} (h : Options pf rd n o bs) (hptr : ptr ≤ limit)
    (hfuel : n < o + fuel) : (ptr + bs.length ≤ limit ∧ putOptRDataFrom pf limit n rd fuel o ptr m =
        (some (ptr + bs.length), m.write ptr bs)) ∨
      (limit < ptr + bs.length ∧ (putOptRDataFrom pf limit n rd fuel o ptr m).1 = none ∧
        Set.EqOn m (putOptRDataFrom pf limit n rd fuel o ptr m).2 (Set.Iio ptr)) := by
  induction h generalizing fuel ptr m with
  | nil =>
    rcases fuel with _ | fuel
    · omega
    rw [putOptRDataFrom, if_neg (lt_irrefl n), write_nil]
    exact .inl ⟨hptr, rfl⟩
  | @llq o bs ho hcode rest ih =>
    rcases fuel with _ | fuel
    · omega
    have hhead : (wire16 pf rd o ++ wire16 pf rd (o + 2)).length = 4 := by simp
    have hone : m.write ptr (llqWire pf rd o) = _ := write_append m ptr _ _
    rw [hhead] at hone
    rw [length_append, length_llqWire, write_append, length_llqWire, putOptRDataFrom, if_pos ho]
    split
    · exact .inr ⟨by omega, rfl, fun _ _ => rfl⟩
    rw [hcode, if_pos rfl]
    split
    · exact .inr ⟨by omega, rfl, eqOn_below⟩
    rw [← hone, add_assoc ptr 4 llqOptLen, ← add_assoc ptr (4 + llqOptLen)]
    exact (ih (show ptr + (4 + llqOptLen) ≤ limit by omega) (by omega)).imp_right
      fun ⟨hroom, hnone, heq⟩ => ⟨hroom, hnone, eqOn_below_of_write heq⟩
  | @lease o bs ho hcode rest ih =>
    rcases fuel with _ | fuel
    · omega
    have hhead : (wire16 pf rd o ++ wire16 pf rd (o + 2)).length = 4 := by simp
    have hone : m.write ptr (leaseWire pf rd o) = _ := write_append m ptr _ _
    rw [hhead] at hone
    rw [length_append, length_leaseWire, write_append, length_leaseWire, putOptRDataFrom, if_pos ho]
    split
    · exact .inr ⟨by omega, rfl, fun _ _ => rfl⟩
    rw [hcode, if_neg (by decide), if_pos rfl]
    split
    · exact .inr ⟨by omega, rfl, eqOn_below⟩
    rw [← hone, ← add_assoc ptr 8]
    exact (ih (show ptr + 8 ≤ limit by omega) (by omega)).imp_right
      fun ⟨hroom, hnone, heq⟩ => ⟨hroom, hnone, eqOn_below_of_write heq⟩

theorem putRData_outcome (hform : WireForm pf rr (layoutOf rr.rrtype) segs)
    (hptr : ptr ≤ limit) (huncut : SegsUncut limit m ptr segs) :
    PutsOrFails (layoutOf rr.rrtype ≠ .px) limit m ptr segs (putRData pf true m ptr limit rr) := by
  unfold putRData
  generalize layoutOf rr.rrtype = layout at hform
  cases hform with
  | a hn | aaaa hn =>
    rw [if_neg (not_not.mpr hn)]
    exact putsOrFails_bytes (length_read _ _ _)
  | raw hn | hinfo hn | unknown hn => exact putsOrFails_bytes (length_read _ _ _)
  | name hd => exact puts_name hd huncut
  | @mx d hd =>
    have hpos := d.length_bytes_pos
    dsimp only
    split
    · refine .inr ⟨rfl, fun _ _ => rfl, fun _ => ?_⟩
      simp only [segLength, length_wire16]
      omega
    · exact (puts_name hd huncut.2).cons_bytes
  | @srv d hd =>
    have hpos := d.length_bytes_pos
    have hlen : (wire16 pf rr.rdata 0 ++ wire16 pf rr.rdata 2 ++ rr.rdata.read 4 2).length = 6 := by
      simp
    dsimp only
    split
    · refine .inr ⟨rfl, fun _ _ => rfl, fun _ => ?_⟩
      rw [segLength, segLength, segLength, hlen]
      omega
    · exact (puts_name hd huncut.2).cons_bytes
  | rp hd he =>
    refine puts_name_cons (putLabels_outcome true hd) huncut (fun m' hy => ?_)
      fun bs hy _ huncut' _ => ?_
    · dsimp only
      rw [hy]
    · dsimp only
      rw [hy]
      exact puts_name he huncut'
  | @px d e hd he =>
    dsimp only
    split
    · exact .inr ⟨rfl, fun _ _ => rfl, fun h => absurd rfl h⟩
    · refine (puts_name_cons (putLabels_outcome true hd) huncut.2
        (fun m' hy => ?_) fun bs hy _ huncut' _ => ?_).cons_bytes
      · rw [Seg.form, length_wire16] at hy
        rw [hy]
      · rw [Seg.form, length_wire16] at hy huncut' ⊢
        rw [hy]
        exact puts_name he huncut'
  | soa hd he =>
    refine puts_name_cons (putLabels_outcome true hd) huncut (fun m' hy => ?_)
      fun bs hy _ huncut' _ => ?_
    · dsimp only
      rw [hy]
    · dsimp only
      rw [hy]
      refine puts_name_cons (putLabels_outcome true he) huncut' (fun m' hy' => ?_)
        fun bs' hy' _ _ _ => ?_
      · dsimp only
        rw [hy']
      · dsimp only
        rw [hy']
        exact putsOrFails_bytes (by simp [soaWire])
  | opt hbs =>
    rw [putOptRData]
    rcases putOpt_outcome (m := m) hbs hptr
      (show _ < 0 + (rr.rdlength.toNat + 1) by omega) with ⟨hroom, hx⟩ | ⟨hroom, hnone, heq⟩
    · rw [hx]
      exact puts_bytes rfl hroom
    · exact .inr ⟨hnone, heq, fun _ => hroom⟩

def bumpCount (pf : Platform) (count : Option Section) (m : Mem) : Mem :=
  count.elim m (incrementCount pf m)

def recordBytes (rr : ResourceRecord) (ttl : UInt32) (bs cs : List UInt8) : List UInt8 :=
  bs ++ (recordHead rr ttl ++ (big.bytes 2 cs.length ++ cs))

@[simp] theorem length_recordHead (ttl : UInt32) : (recordHead rr ttl).length = 8 := by
  simp [recordHead]

/-- The message while the rdata of a record is written: the name and the head of the
record are there, the length of the rdata is not. -/
def withRecordHead (m : Mem) (ptr : ℕ) (rr : ResourceRecord) (ttl : UInt32)
    (bs : List UInt8) : Mem :=
  (m.write ptr bs).write (ptr + bs.length) (recordHead rr ttl)

/-- The bytes `bs` and `cs` are a way to write the name and the rdata of a record at `ptr`;
the names in it are `es`. -/
def RecordWritten (m : Mem) (ptr : ℕ) (rr : ResourceRecord) (ttl : UInt32) (d : DomainName)
    (segs : List Seg) (bs cs : List UInt8) (es : List NameEntry) : Prop :=
  ∃ s es', NameWritten m ptr d.labels bs s ∧
    Written (withRecordHead m ptr rr ttl bs) (ptr + bs.length + 10) segs cs es' ∧
    es = ⟨ptr, d, m, s⟩ :: es'

/-- The bytes that the rdata of the record is written as. -/
def rdataForm (m : Mem) (ptr : ℕ) (rr : ResourceRecord) (ttl : UInt32) (d : DomainName)
    (segs : List Seg) : List UInt8 :=
  segForm (withRecordHead m ptr rr ttl (nameForm m ptr d))
    (ptr + (nameForm m ptr d).length + 10) segs

/-- No name in the rdata of the record is cut at `limit`. -/
def RecordUncut (limit : ℕ) (m : Mem) (ptr : ℕ) (rr : ResourceRecord) (ttl : UInt32)
    (d : DomainName) (segs : List Seg) : Prop :=
  SegsUncut limit (withRecordHead m ptr rr ttl (nameForm m ptr d))
    (ptr + (nameForm m ptr d).length + 10) segs

/-- What `PutResourceRecordTTLWithLimit` does: it writes the record, or it has too little room
and leaves the message before `ptr` alone. -/
theorem putRecord_outcome (count : Option Section) (ttl : UInt32)
    (hregistered : rr.recordType ≠ kDNSRecordTypeUnregistered) (hname : NameAt rr.name 0 d)
    (hform : WireForm pf rr (layoutOf rr.rrtype) segs)
    (huncut : RecordUncut limit m ptr rr ttl d segs)
    (hx : putResourceRecordTTLWithLimit pf m ptr count rr ttl limit = x) {bs cs : List UInt8}
    (hbs : nameForm m ptr d = bs) (hcs : rdataForm m ptr rr ttl d segs = cs) :
    ((∃ es, RecordWritten m ptr rr ttl d segs bs cs es) ∧
        ptr + bs.length + 10 + cs.length ≤ limit ∧ ptr + bs.length + 10 < limit ∧
        x = (some (ptr + bs.length + 10 + cs.length),
          bumpCount pf count (m.write ptr (recordBytes rr ttl bs cs)))) ∨
      (x.1 = none ∧ Set.EqOn m x.2 (Set.Iio ptr) ∧ (layoutOf rr.rrtype ≠ .px →
        limit < ptr + d.bytes.length + 10 + segLength segs ∨ limit ≤ ptr + bs.length + 10)) := by
  have hput : NameOutcome true limit m ptr d _ := putLabels_outcome true hname
  rw [putResourceRecordTTLWithLimit, if_neg hregistered] at hx
  generalize putDomainNameAsLabels true m ptr limit rr.name 0 = y at hput hx
  subst hx
  cases hput with
  | failed heq hroom => exact .inr ⟨rfl, heq, fun _ => .inl (by omega)⟩
  | cut hd hne hend =>
    dsimp only
    rw [if_pos (by omega)]
    refine .inr ⟨rfl, eqOn_below, fun _ => .inl ?_⟩
    rw [d.bytes_eq hd, length_append]
    omega
  | @written bs' s hw hle hc hname =>
    obtain rfl : bs' = bs := (hname rfl).trans hbs
    have hlen := length_nameForm_le m ptr d
    rw [hbs] at hlen
    dsimp only
    split
    · exact .inr ⟨rfl, eqOn_below, fun _ => .inr (by omega)⟩
    rw [← withRecordHead]
    rw [RecordUncut, hbs] at huncut
    rw [rdataForm, hbs] at hcs
    have hdata := putRData_outcome hform (show ptr + bs'.length + 10 ≤ limit by omega) huncut
    rcases hdata with ⟨hput, ⟨es, hw'⟩, hle'⟩ | ⟨hnone, heq, hroom⟩
    · rw [hcs] at hput hw' hle'
      refine .inl ⟨⟨_, s, es, hw, hw', rfl⟩, hle', by omega, ?_⟩
      rw [hput]
      dsimp only
      have hsub : ptr + bs'.length + 10 + cs.length - (ptr + bs'.length) - 10 = cs.length := by
        omega
      have hjoin := write_write_append (withRecordHead m ptr rr ttl bs') (ptr + bs'.length + 8)
        (big.bytes 2 cs.length) cs
      have hwhole : m.write ptr (recordBytes rr ttl bs' cs) =
          (withRecordHead m ptr rr ttl bs').write (ptr + bs'.length + 8)
            (big.bytes 2 cs.length ++ cs) := by
        rw [recordBytes, write_append, write_append, length_recordHead, withRecordHead]
      rw [hsub, hwhole, ← hjoin]
      cases count <;> rfl
    · refine .inr ?_
      generalize putRData pf true (withRecordHead m ptr rr ttl bs') (ptr + bs'.length + 10) limit rr
        = z at hnone heq
      obtain ⟨z, m'⟩ := z
      obtain rfl : z = none := hnone
      exact ⟨rfl, eqOn_below_of_write (eqOn_below_of_write heq),
        fun hpx => .inl (by have := hroom hpx; omega)⟩

theorem segsUncut_of_room (hroom : ptr + segLength segs ≤ limit) : SegsUncut limit m ptr segs := by
  induction segs generalizing m ptr with
  | nil => trivial
  | cons seg segs ih =>
    cases seg with
    | bytes bs =>
      rw [segLength] at hroom
      exact ⟨nofun, ih (by rw [Seg.form]; omega)⟩
    | name d =>
      have := length_nameForm_le m ptr d
      rw [segLength] at hroom
      exact ⟨fun _ h => by cases h; exact uncut_of_room (by omega), ih (by rw [Seg.form]; omega)⟩

end Put

/-! ### What stays as it is -/

/-- However the segments are written at `ptr`, no byte of `F` is compared for it, and no
byte behind the message. -/
def SegsClean (F : Set ℕ) : Mem → ℕ → List Seg → Prop
  | _, _, [] => True
  | m, ptr, .bytes bs :: segs => SegsClean F (m.write ptr bs) (ptr + bs.length) segs
  | m, ptr, .name d :: segs => ∀ bs s, NameWritten m ptr d.labels bs s →
      (∀ x ∈ s, x < ptr ∧ x ∉ F) ∧ SegsClean F (m.write ptr bs) (ptr + bs.length) segs

section Read

variable {F : Set ℕ}

theorem eqOn_of_write (heq : Set.EqOn m m' {x | x < ptr ∧ x ∉ F}) (hbs : m'.Holds ptr bs) :
    Set.EqOn (m.write ptr bs) m' {x | x < ptr + bs.length ∧ x ∉ F} := by
  rintro x ⟨hlt, hF⟩
  rcases lt_or_ge x ptr with hx | hx
  · rw [write_of_lt hx]
    exact heq ⟨hx, hF⟩
  · exact (m.holds_write ptr bs).eqOn hbs ⟨hx, hlt⟩

end Read

/-! ### Records -/

/-- The four counts of the header, which are not final while the message is built. -/
def headerCounts : Set ℕ := Set.Ico 4 12

theorem not_mem_headerCounts {x : ℕ} (hx : sizeofDNSMessageHeader ≤ x) : x ∉ headerCounts :=
  fun hc => absurd hc.2 (not_lt.mpr hx)

/-- However the record is written at `ptr`, no byte is compared that changes later: not the
counts, not the length of its rdata, and not the bytes behind the message. -/
def RecordClean (m : Mem) (ptr : ℕ) (rr : ResourceRecord) (ttl : UInt32) (d : DomainName)
    (segs : List Seg) : Prop :=
  ∀ bs s, NameWritten m ptr d.labels bs s → (∀ x ∈ s, x < ptr ∧ x ∉ headerCounts) ∧
      SegsClean (headerCounts ∪ Set.Ico (ptr + bs.length + 8) (ptr + bs.length + 10))
        (withRecordHead m ptr rr ttl bs) (ptr + bs.length + 10) segs

section Record

variable {ttl : UInt32} {cs : List UInt8}

theorem bumpCount_eqOn (count : Option Section) :
    Set.EqOn m (bumpCount pf count m) {x | x ∉ headerCounts} := by
  cases count with
  | none => exact fun _ _ => rfl
  | some s =>
    refine (write_eqOn m fun x hx => ?_).symm
    rw [length_bytes]
    have hx : ¬(4 ≤ x ∧ x < 12) := hx
    cases s <;> simp only [Section.offset] <;> omega

theorem holds_of_recordBytes (hm' : m'.Holds ptr (recordBytes rr ttl bs cs))
    (heq : Set.EqOn m m' {x | x < ptr ∧ x ∉ headerCounts}) :
    m'.Holds ptr bs ∧ m'.Holds (ptr + bs.length + 10) cs ∧
      Set.EqOn (withRecordHead m ptr rr ttl bs) m' {x | x < ptr + bs.length + 10 ∧
        x ∉ headerCounts ∪ Set.Ico (ptr + bs.length + 8) (ptr + bs.length + 10)} := by
  obtain ⟨hbs, hrest⟩ := Mem.holds_append.mp hm'
  obtain ⟨hhead, hrest⟩ := Mem.holds_append.mp hrest
  obtain ⟨hlength, hcs⟩ := Mem.holds_append.mp hrest
  refine ⟨hbs, hcs, ?_⟩
  rintro x ⟨hx, hF⟩
  refine eqOn_of_write (eqOn_of_write heq hbs) hhead ⟨?_, fun hc => hF (.inl hc)⟩
  by_contra hx'
  exact hF (.inr ⟨not_lt.mp hx', hx⟩)

end Record

end Hexley.Dns
