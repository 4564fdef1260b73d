import Hexley.Dns.NameEquality
import Mathlib.Data.List.Basic

/-!
Service names, as they are put together and taken apart.

The name of a service instance is its label in front of the two labels of
the service type and the domain. `ConstructServiceName` puts the parts into
one name and looks at the characters of the type and at the total length on
the way. `DeconstructServiceName` copies the parts back out; it looks at the
total length too, but with a test of its own, one byte stricter.

The functions that log a text when they give up return the text here.
-/

namespace Hexley.Dns

open Lib List Mem UInt8 DomainName

/-- The loop of `AppendDomainName`, with `ptr` bytes of the name in place. -/
def appendDomainNameFrom (lim : ℕ) (append : Mem) : ℕ → ℕ → ℕ → Mem → Option ℕ × Mem
  | 0, _, _, name => (none, name)
  | fuel + 1, src, ptr, name =>
    if append src = 0 then (some ptr, name)
    else if ptr + 1 + (append src).toNat > lim then (none, name)
    else
      let label := append.read src ((append src).toNat + 1)
      appendDomainNameFrom lim append fuel (src + label.length) (ptr + label.length)
        (name.write ptr (label ++ [0]))

def appendDomainName (name append : Mem) : Option ℕ × Mem :=
  appendDomainNameFrom (maxDomainName - 1) append maxDomainName 0
    (compressedDomainNameLength name 0 none - 1) name

variable (m : Mem) (p : ℕ) (fqdn : Mem) (dst : ℕ) (type : Mem) (name : Option Mem)

def validTransportProtocol : Bool :=
  m p = 4 && m (p + 1) = 0x5F && ((m (p + 2) ||| 0x20 = 0x75 && m (p + 3) ||| 0x20 = 0x64) ||
      (m (p + 2) ||| 0x20 = 0x74 && m (p + 3) ||| 0x20 = 0x63)) &&
    m (p + 4) ||| 0x20 = 0x70

def localdomain : Mem := ofList [5, 0x6C, 0x6F, 0x63, 0x61, 0x6C]

def localArpa : Mem := ofList [5, 0x6C, 0x6F, 0x63, 0x61, 0x6C, 4, 0x61, 0x72, 0x70, 0x61]

def servicesDnsSd : Mem :=
  ofList [9, 0x5F, 0x73, 0x65, 0x72, 0x76, 0x69, 0x63, 0x65, 0x73,
    7, 0x5F, 0x64, 0x6E, 0x73, 0x2D, 0x73, 0x64, 4, 0x5F, 0x75, 0x64, 0x70]

def subTypeLabel : List UInt8 := [4, 0x5F, 0x73, 0x75, 0x62]

def legalLabelAt : Bool := m p ≠ 0 && m p < 0x40

/-- The start of `ConstructServiceName` if there is no instance name: a subtype
is put in front of the type. Returns the end of what was written, and where
the type begins. -/
def putSubType (fqdn type : Mem) : ℕ × ℕ × Mem :=
  let s₁ := 1 + (type 0).toNat
  let s₂ := s₁ + 1 + (type s₁).toNat
  if legalLabelAt type 0 && legalLabelAt type s₁ && legalLabelAt type s₂ &&
      type (s₂ + 1 + (type s₂).toNat) = 0 then
    let written := type.read 0 s₁ ++ subTypeLabel
    let dst := if sameDomainName type 0 servicesDnsSd 0 then s₁ else written.length
    (dst, s₁, fqdn.write 0 written)
  else (0, 0, fqdn)

def putInstance : Except String (ℕ × Mem) :=
  match name with
  | none => .ok (dst, fqdn)
  | some name =>
    if name 0 = 0 then .ok (dst, fqdn)
    else if name 0 ≥ 0x40 then .error "Service instance name too long"
    else .ok (dst + 1 + (name 0).toNat, fqdn.write dst (name.read 0 (1 + (name 0).toNat)))

/-- The `i`-th character of an application protocol name of `len` characters is allowed. -/
def protocolChar (src len i : ℕ) : Bool :=
  let c := type (src + i)
  mdnsIsLetter c || mdnsIsDigit c || ((c = 0x2D || c = 0x5F) && 2 < i && i < len)

/-- The rest of `ConstructServiceName`: the type that begins at `src` is put at
`dst`, and the domain behind it. -/
def putTypeAndDomain (src : ℕ) (domain : Mem) : Except String (ℕ × Mem) :=
  let len := (type src).toNat
  let src' := src + 1 + len
  let len' := (type src').toNat
  if len < 2 ∨ len ≥ 0x40 ∨ (len > 15 ∧ ¬sameDomainName domain 0 localdomain 0) then
    .error ("Application protocol name must be underscore plus 1-14 characters. " ++
      "See <http://www.dns-sd.org/ServiceTypes.html>")
  else if type (src + 1) ≠ 0x5F then
    .error "Application protocol name must begin with underscore"
  else if ¬(List.range' 2 (len - 1)).all (protocolChar type src len) then
    .error "Application protocol name must contain only letters, digits, and hyphens"
  else if ¬validTransportProtocol type src' then
    .error "Transport protocol name must be _udp or _tcp"
  else if type (src' + 1 + len') ≠ 0 then .error "Service type must have only two labels"
  else
    let written := type.read src (1 + len) ++ type.read src' (1 + len')
    let fqdn := fqdn.write dst (written ++ [0])
    if domain 0 = 0 then .error "Service domain must be non-empty"
    else if sameDomainName domain 0 localArpa 0 then
      .error "Illegal domain \"local.arpa.\" Use \"local.\" (or empty string)"
    else
      match appendDomainName fqdn domain with
      | (none, _) => .error "Service domain too long"
      | (some dst, fqdn) => .ok (dst, fqdn)

/-- `ConstructServiceName`: the position behind the labels and the name, or the text
that is logged. -/
def constructServiceName (type domain : Mem) : Except String (ℕ × Mem) :=
  let start := if name.isNone then putSubType fqdn type else (0, 0, fqdn)
  match putInstance start.2.2 start.1 name with
  | .error text => .error text
  | .ok (dst, fqdn) => putTypeAndDomain fqdn dst type start.2.1 domain

/-- The loop of `DeconstructServiceName` over the labels of the domain. -/
def extractDomainFrom (fqdn : Mem) (max : ℕ) : ℕ → ℕ → ℕ → Mem → Except String Mem
  | 0, _, _, _ => .error "DeconstructServiceName: Total service domain too long"
  | fuel + 1, src, dst, domain =>
    let len := (fqdn src).toNat
    if fqdn src = 0 then .ok (domain.write dst [0])
    else if len ≥ 0x40 then .error "DeconstructServiceName: Label in service domain too long"
    else if src + 1 + len + 1 ≥ max then
      .error "DeconstructServiceName: Total service domain too long"
    else
      extractDomainFrom fqdn max fuel (src + 1 + len) (dst + 1 + len)
        (domain.write dst (fqdn.read src (1 + len)))

/-- `DeconstructServiceName`: the instance name, the type and the domain, each written over
what was in the caller's storage, or the text that is logged. -/
def deconstructServiceName (fqdn name type domain : Mem) : Except String (Mem × Mem × Mem) :=
  let len := (fqdn 0).toNat
  let src₁ := 1 + len
  let len₁ := (fqdn src₁).toNat
  let src₂ := src₁ + 1 + len₁
  let len₂ := (fqdn src₂).toNat
  if fqdn 0 = 0 then .error "DeconstructServiceName: FQDN empty!"
  else if len ≥ 0x40 then .error "DeconstructServiceName: Instance name too long"
  else if fqdn src₁ = 0 then .error "DeconstructServiceName: FQDN contains only one label!"
  else if len₁ ≥ 0x40 then .error "DeconstructServiceName: Application protocol name too long"
  else if fqdn (src₁ + 1) ≠ 0x5F then
    .error "DeconstructServiceName: No _ at start of application protocol"
  else if fqdn src₂ = 0 then .error "DeconstructServiceName: FQDN contains only two labels!"
  else
    match extractDomainFrom fqdn maxDomainName maxDomainName (src₂ + 1 + len₂) 0 domain with
    | .error text => .error text
    | .ok domain =>
      .ok (name.write 0 (fqdn.read 0 (1 + len)),
        type.write 0 (fqdn.read src₁ (1 + len₁) ++ fqdn.read src₂ (1 + len₂) ++ [0]), domain)

/-! ### `AppendDomainName` -/

variable {src fuel : ℕ} {ls : List (List UInt8)}

section

variable {name append : Mem} {q ptr lim : ℕ} {pre : List UInt8}

theorem appendName_some (hls : LabelsFit ls) (happend : append.Holds src (wire ls ++ [0]))
    (hname : name.Holds 0 (pre ++ [0])) (hptr : pre.length = ptr) (hlim : ptr ≤ lim) {r : Mem}
    (h : appendDomainNameFrom lim append fuel src ptr name = (some q, r)) :
    q = ptr + (wire ls).length ∧ q ≤ lim ∧ r.Holds 0 (pre ++ wire ls ++ [0]) := by
  induction ls generalizing fuel src ptr name pre with
  | nil =>
    cases fuel with
    | zero => cases h
    | succ fuel =>
      have hz : append src = 0 := (holds_cons.mp happend).1
      rw [appendDomainNameFrom, if_pos hz] at h
      cases h
      exact ⟨rfl, hlim, by simpa [wire] using hname⟩
  | cons l ls ih =>
    cases fuel with
    | zero => cases h
    | succ fuel =>
      obtain ⟨hpos, hle⟩ := hls l mem_cons_self
      obtain ⟨hlabel, hrest⟩ := holds_label_cons.mp happend
      have hlen := toNat_of_label hle hlabel
      rw [appendDomainNameFrom, if_neg (ne_zero_of_label hpos hle hlabel), hlen,
        add_comm l.length 1, read_label hlabel] at h
      by_cases hroom : ptr + 1 + l.length > lim
      · rw [if_pos hroom] at h
        cases h
      rw [if_neg hroom] at h
      dsimp only at h
      rw [length_cons, add_comm l.length 1, ← add_assoc, ← add_assoc] at h
      have hname' : (name.write ptr (ofNat l.length :: l ++ [0])).Holds 0
          (pre ++ (ofNat l.length :: l) ++ [0]) := by
        rw [append_assoc, holds_append]
        refine ⟨(holds_append.mp hname).1.write (by omega), ?_⟩
        rw [zero_add, hptr]
        exact holds_write _ _ _
      obtain ⟨hq, hle', hr⟩ := ih hls.tail hrest hname' (by simp; omega) (by omega) h
      rw [label_cons]
      refine ⟨by rw [hq]; simp; omega, hle', ?_⟩
      rwa [← append_assoc pre]

theorem appendDomainName_some {e : DomainName} {r : Mem} (hls : LabelsFit ls)
    (hname : name.Holds 0 (wire ls ++ [0])) (hlen : (wire ls).length < maxDomainName)
    (happend : NameAt append 0 e) (h : appendDomainName name append = (some q, r)) :
    (wire (ls ++ e.labels)).length < maxDomainName ∧ r.Holds 0 (wire (ls ++ e.labels) ++ [0]) := by
  have hend : compressedDomainNameLengthFrom name 0 none maxDomainName 0 =
      0 + (wire ls).length + 1 :=
    compressed_of_holds hls (by rwa [zero_add]) (by omega) hlen
  rw [appendDomainName, compressedDomainNameLength, Option.filter_none, hend] at h
  obtain ⟨hq, hle, hr⟩ := appendName_some e.labelsFit happend hname (by omega)
    (by rw [maxDomainName] at hlen ⊢; omega) h
  rw [label_append]
  refine ⟨?_, hr⟩
  rw [length_append, maxDomainName] at *
  omega

end

/-! ### `ConstructServiceName` -/

theorem putTypeAndDomain_ok {fqdn type domain r : Mem} {q : ℕ}
    {t e : DomainName} (hls : LabelsFit ls) (hlen : (wire ls).length ≤ maxDomainLabel + 1)
    (hfqdn : fqdn.Holds 0 (wire ls)) (htype : NameAt type 0 t) (htwo : t.labels.length = 2)
    (hdomain : NameAt domain 0 e)
    (h : putTypeAndDomain fqdn (wire ls).length type 0 domain = .ok (q, r)) :
    type 1 = 0x5F ∧ e.labels ≠ [] ∧ (wire (ls ++ t.labels ++ e.labels)).length < maxDomainName ∧
      r.Holds 0 (wire (ls ++ t.labels ++ e.labels) ++ [0]) := by
  obtain ⟨a, b, hab⟩ := List.length_eq_two.mp htwo
  have hfit := t.labelsFit
  rw [NameAt, bytes, hab] at htype
  rw [hab] at hfit ⊢
  obtain ⟨ha, hrest⟩ := holds_label_cons.mp htype
  obtain ⟨hb, hroot⟩ := holds_label_cons.mp hrest
  have hlea := (hfit a (by simp)).2
  have hleb := (hfit b (by simp)).2
  rw [putTypeAndDomain] at h
  simp only [toNat_of_label hlea ha, toNat_of_label hleb hb, read_label ha, read_label hb] at h
  split at h
  · cases h
  split at h
  · cases h
  rename_i hunderscore
  split at h
  · cases h
  split at h
  · cases h
  split at h
  · cases h
  split at h
  · cases h
  rename_i hne
  split at h
  · cases h
  have hlabels : fqdn.write (wire ls).length ((ofNat a.length :: a ++ ofNat b.length :: b) ++ [0]) =
        fqdn.write (wire ls).length (wire [a, b] ++ [0]) := by
    simp [wire]
  rw [hlabels] at h
  have hname : (fqdn.write (wire ls).length (wire [a, b] ++ [0])).Holds 0
      (wire (ls ++ [a, b]) ++ [0]) := by
    rw [label_append, append_assoc, holds_append, zero_add]
    exact ⟨hfqdn.write (by omega), holds_write _ _ _⟩
  have hshort : (wire (ls ++ [a, b])).length < maxDomainName := by
    rw [label_append, length_append, length_label [a, b], maxDomainName]
    simp only [map_cons, map_nil, sum_cons, sum_nil]
    rw [maxDomainLabel] at *
    omega
  have hfit' : LabelsFit (ls ++ [a, b]) := fun l hl =>
    (List.mem_append.mp hl).elim (hls l) (hfit l)
  rcases happ : appendDomainName
      (fqdn.write (wire ls).length (wire [a, b] ++ [0])) domain with ⟨_ | dst, r'⟩
  · rw [happ] at h
    cases h
  · rw [happ] at h
    cases h
    refine ⟨not_not.mp hunderscore, fun hnil => hne ?_,
      appendDomainName_some hfit' hname hshort hdomain happ⟩
    rw [NameAt, bytes, hnil] at hdomain
    exact (holds_cons.mp hdomain).1

/-! ### `DeconstructServiceName` -/

section

variable {fqdn domain : Mem} {dst max : ℕ}

section

variable (hls : LabelsFit ls) (hfqdn : fqdn.Holds src (wire ls ++ [0]))
include hls hfqdn

theorem extractDomainFrom_ok (hfuel : (wire ls).length < fuel)
    (hmax : src + (wire ls).length + 1 < max) :
    extractDomainFrom fqdn max fuel src dst domain = .ok (domain.write dst (wire ls ++ [0])) := by
  induction ls generalizing fuel src dst domain with
  | nil =>
    rcases fuel with _ | fuel
    · omega
    have hz : fqdn src = 0 := (holds_cons.mp hfqdn).1
    rw [extractDomainFrom]
    rw [if_pos hz]
    rfl
  | cons l ls ih =>
    rcases fuel with _ | fuel
    · omega
    obtain ⟨hpos, hle⟩ := hls l mem_cons_self
    obtain ⟨hlabel, hrest⟩ := holds_label_cons.mp hfqdn
    have hlen : (wire (l :: ls)).length = 1 + l.length + (wire ls).length := by
      rw [length_label_cons, add_comm l.length 1]
    rw [extractDomainFrom]
    rw [if_neg (ne_zero_of_label hpos hle hlabel), toNat_of_label hle hlabel,
      if_neg (by rw [maxDomainLabel] at hle; omega), if_neg (by omega), read_label hlabel,
      ih hls.tail hrest (by omega) (by omega), label_cons, append_assoc,
      write_append domain dst (ofNat l.length :: l), length_cons,
      add_assoc dst 1, add_comm 1 l.length]

theorem extractDomainFrom_error (hne : ls ≠ []) (hmax : max ≤ src + (wire ls).length + 1) :
    ∃ text, extractDomainFrom fqdn max fuel src dst domain = .error text := by
  induction ls generalizing fuel src dst domain with
  | nil => exact absurd rfl hne
  | cons l ls ih =>
    cases fuel with
    | zero => exact ⟨_, rfl⟩
    | succ fuel =>
      obtain ⟨hpos, hle⟩ := hls l mem_cons_self
      obtain ⟨hlabel, hrest⟩ := holds_label_cons.mp hfqdn
      have hlen : (wire (l :: ls)).length = 1 + l.length + (wire ls).length := by
        rw [length_label_cons, add_comm l.length 1]
      rw [extractDomainFrom]
      rw [if_neg (ne_zero_of_label hpos hle hlabel), toNat_of_label hle hlabel,
        if_neg (by rw [maxDomainLabel] at hle; omega)]
      split
      · exact ⟨_, rfl⟩
      rename_i hroom
      cases ls with
      | nil =>
        have hzero : (wire []).length = 0 := rfl
        omega
      | cons l' ls' => exact ih hls.tail hrest (by simp) (by omega)

end

theorem parts_of_holds {name type : Mem} {l a b : List UInt8} (hfit : LabelsFit (l :: a :: b :: ls))
    (hfqdn : fqdn.Holds 0 (wire (l :: a :: b :: ls) ++ [0]))
    (hunderscore : fqdn (1 + l.length + 1) = 0x5F) : deconstructServiceName fqdn name type domain =
      match extractDomainFrom fqdn maxDomainName maxDomainName (wire [l, a, b]).length 0 domain with
      | .error text => .error text
      | .ok domain => .ok (name.write 0 (ofNat l.length :: l),
          type.write 0 (wire [a, b] ++ [0]), domain) := by
  obtain ⟨hl, hfqdn⟩ := holds_label_cons.mp hfqdn
  obtain ⟨ha, hfqdn⟩ := holds_label_cons.mp hfqdn
  obtain ⟨hb, hfqdn⟩ := holds_label_cons.mp hfqdn
  rw [zero_add] at ha hb
  obtain ⟨hposl, hlel⟩ := hfit l (by simp)
  obtain ⟨hposa, hlea⟩ := hfit a (by simp)
  obtain ⟨hposb, hleb⟩ := hfit b (by simp)
  have hlen : 1 + l.length + 1 + a.length + 1 + b.length = (wire [l, a, b]).length := by
    rw [length_label]
    simp only [map_cons, map_nil, sum_cons, sum_nil]
    omega
  have hbytes : ofNat a.length :: a ++ ofNat b.length :: b ++ [0] = wire [a, b] ++ [0] := by
    simp [wire]
  rw [deconstructServiceName]
  rw [toNat_of_label hlel hl, toNat_of_label hlea ha, toNat_of_label hleb hb,
    if_neg (ne_zero_of_label hposl hlel hl), if_neg (by rw [maxDomainLabel] at hlel; omega),
    if_neg (ne_zero_of_label hposa hlea ha), if_neg (by rw [maxDomainLabel] at hlea; omega),
    if_neg (not_not.mpr hunderscore), if_neg (ne_zero_of_label hposb hleb hb),
    read_label hl, read_label ha, read_label hb, hlen, hbytes]

end

/-! ### Both -/

/-- `DeconstructServiceName` gives the instance name `nm`, the type `t` and the domain `e`,
whatever was in the storage. -/
def RestoresParts (fqdn nm : Mem) (t e : DomainName) : Prop :=
  ∀ name type domain : Mem, ∃ name' type' domain',
    deconstructServiceName fqdn name type domain = .ok (name', type', domain') ∧
    name'.Holds 0 (nm.read 0 (1 + (nm 0).toNat)) ∧ NameAt type' 0 t ∧ NameAt domain' 0 e

theorem putInstance_ok {fqdn nm r : Mem} {dst q : ℕ} (hnm : nm 0 ≠ 0)
    (h : putInstance fqdn dst (some nm) = .ok (q, r)) :
    ∃ l, nm.read 0 (1 + (nm 0).toNat) = ofNat l.length :: l ∧ l.length = (nm 0).toNat ∧
      0 < l.length ∧ l.length ≤ maxDomainLabel ∧ q = dst + (wire [l]).length ∧
      r = fqdn.write dst (wire [l]) := by
  have hlen : (nm.read 1 (nm 0).toNat).length = (nm 0).toNat := length_read _ _ _
  have hread : nm.read 0 (1 + (nm 0).toNat) =
      ofNat (nm.read 1 (nm 0).toNat).length :: nm.read 1 (nm 0).toNat := by
    rw [hlen, UInt8.ofNat_toNat, add_comm, read_succ]
  have hpos : 0 < (nm 0).toNat := pos_of_ne_zero fun hz => hnm (UInt8.toNat_inj.mp hz)
  rw [putInstance, if_neg hnm] at h
  split at h
  · cases h
  rename_i hsmall
  have hle : (nm 0).toNat ≤ maxDomainLabel :=
    Nat.le_of_lt_succ (Nat.lt_of_not_le fun hc => hsmall (le_iff_toNat_le.mpr hc))
  have hbytes : nm.read 0 (1 + (nm 0).toNat) = wire [nm.read 1 (nm 0).toNat] := by
    rw [hread]
    simp [wire]
  cases h
  refine ⟨_, hread, hlen, hpos.trans_eq hlen.symm, hlen.trans_le hle, ?_, by rw [hbytes]⟩
  rw [← hbytes, length_read, add_assoc]

theorem restoresParts_iff {r nm : Mem} {t e : DomainName} {l a b : List UInt8}
    (hread : nm.read 0 (1 + (nm 0).toNat) = ofNat l.length :: l) (ht : t.labels = [a, b])
    (hfit : LabelsFit (l :: a :: b :: e.labels)) (hne : e.labels ≠ [])
    (hr : r.Holds 0 (wire (l :: a :: b :: e.labels) ++ [0]))
    (hunderscore : r (1 + l.length + 1) = 0x5F) :
    RestoresParts r nm t e ↔ l.length + t.bytes.length + e.bytes.length < maxDomainName := by
  have htb : t.bytes = wire [a, b] ++ [0] := by rw [bytes, ht]
  have hthree : wire [l, a, b] = wire [l] ++ wire [a, b] :=
    label_append [l] [a, b]
  have htotal : l.length + t.bytes.length + e.bytes.length =
      (wire [l, a, b]).length + (wire e.labels).length + 1 := by
    rw [hthree, htb, bytes, length_append, length_append, length_append,
      length_singleton, length_label [l], map_singleton, sum_singleton]
    omega
  have hdomain : r.Holds (wire [l, a, b]).length (wire e.labels ++ [0]) := by
    have hsplit : l :: a :: b :: e.labels = [l, a, b] ++ e.labels := rfl
    rw [hsplit, label_append, append_assoc, holds_append, zero_add] at hr
    exact hr.2
  rw [htotal]
  refine ⟨fun hrest => ?_, fun hroom name type domain => ?_⟩
  · by_contra hlong
    obtain ⟨name', type', domain', hok, -⟩ := hrest nm nm nm
    rw [parts_of_holds hfit hr hunderscore] at hok
    split at hok
    · cases hok
    rename_i hextract
    obtain ⟨text, htext⟩ := extractDomainFrom_error e.labelsFit hdomain hne (Nat.le_of_not_lt hlong)
    rw [htext] at hextract
    cases hextract
  · have hfuel : (wire e.labels).length < maxDomainName := by omega
    rw [parts_of_holds hfit hr hunderscore, extractDomainFrom_ok e.labelsFit hdomain hfuel hroom]
    refine ⟨_, _, _, rfl, ?_, ?_, holds_write _ _ _⟩
    · rw [hread]
      exact holds_write _ _ _
    · rw [NameAt, htb]
      exact holds_write _ _ _

/-- What a name was constructed from comes back from it exactly if the name is shorter than
the longest one that is valid. -/
theorem constructServiceName_restoresParts_iff {fqdn nm type domain r : Mem} {q : ℕ}
    {t e : DomainName} (hnm : nm 0 ≠ 0) (htype : NameAt type 0 t) (htwo : t.labels.length = 2)
    (hdomain : NameAt domain 0 e)
    (h : constructServiceName fqdn (some nm) type domain = .ok (q, r)) : RestoresParts r nm t e ↔
      (nm 0).toNat + t.bytes.length + e.bytes.length < maxDomainName := by
  rw [constructServiceName, Option.isNone_some, if_neg Bool.false_ne_true] at h
  split at h
  · cases h
  rename_i hinstance
  obtain ⟨l, hread, hlen, hpos, hle, rfl, rfl⟩ := putInstance_ok hnm hinstance
  have hfitl : LabelsFit [l] := fun l' hl' => List.mem_singleton.mp hl' ▸ ⟨hpos, hle⟩
  have hshort : (wire [l]).length ≤ maxDomainLabel + 1 := by
    rw [length_label, map_singleton, sum_singleton]
    exact Nat.succ_le_succ hle
  rw [zero_add] at h
  obtain ⟨hunderscore, hne, -, hr⟩ :=
    putTypeAndDomain_ok hfitl hshort (holds_write _ _ _) htype htwo hdomain h
  obtain ⟨a, b, hab⟩ := List.length_eq_two.mp htwo
  have hfit : LabelsFit (l :: a :: b :: e.labels) := by
    intro l' hl'
    have hmem : l' ∈ [l] ++ t.labels ++ e.labels := by simpa [hab] using hl'
    rcases List.mem_append.mp hmem with hmem | hmem
    · exact (List.mem_append.mp hmem).elim (hfitl l') (t.labelsFit l')
    · exact e.labelsFit l' hmem
  rw [hab] at hr
  rw [← hlen]
  refine restoresParts_iff hread hab hfit hne hr ?_
  -- The second byte of the application protocol is the one that was tested in the type.
  have ha := (holds_label_cons.mp (holds_label_cons.mp hr).2).1
  rw [NameAt, bytes, hab] at htype
  have hta := (holds_label_cons.mp htype).1
  have hpos : 1 < (ofNat a.length :: a).length := Nat.succ_lt_succ (hfit a (by simp)).1
  have hra := ha.getElem? hpos
  rw [hta.getElem? hpos, zero_add] at hra
  rw [← Option.some.inj hra]
  exact hunderscore

def longInstance : Mem := ofList (63 :: letters 63)

def tcpType : DomainName :=
  ⟨[[0x5F, 0x61], [0x5F, 0x74, 0x63, 0x70]], by decide, by decide, by decide⟩

def longDomain (n : ℕ) (hpos : 0 < n) (hle : n ≤ 54) : DomainName where
  labels := [letters 63, letters 63, letters n]
  label_pos := by simp [letters, hpos]
  label_le := by simp [letters, maxDomainLabel]; omega
  length_le := by simp [letters, maxDomainName]; omega

def longServiceName (domain : DomainName) : Except String (ℕ × Mem) :=
  constructServiceName (ofList []) (some longInstance) (ofList tcpType.bytes) (ofList domain.bytes)

theorem exists_ok_of_toBool {ε α : Type} {x : Except ε α} (h : x.toBool = true) :
    ∃ a, x = .ok a := by
  cases x with
  | error e => cases h
  | ok a => exact ⟨a, rfl⟩

theorem restoresParts_longDomain :
    ∃ q r, longServiceName (longDomain 52 (by decide) (by decide)) = .ok (q, r) ∧
      RestoresParts r longInstance tcpType (longDomain 52 (by decide) (by decide)) := by
  have hok : (longServiceName (longDomain 52 (by decide) (by decide))).toBool = true := by
    decide +kernel
  obtain ⟨⟨q, r⟩, h⟩ := exists_ok_of_toBool hok
  exact ⟨q, r, h, (constructServiceName_restoresParts_iff (by decide) (nameAt_ofList _) rfl
    (nameAt_ofList _) h).mpr (by decide +kernel)⟩

theorem not_restoresParts_longDomain :
    ∃ q r, longServiceName (longDomain 53 (by decide) (by decide)) = .ok (q, r) ∧
      ¬RestoresParts r longInstance tcpType (longDomain 53 (by decide) (by decide)) := by
  have hok : (longServiceName (longDomain 53 (by decide) (by decide))).toBool = true := by
    decide +kernel
  have hno : ((longServiceName (longDomain 53 (by decide) (by decide))).bind fun x =>
      deconstructServiceName x.2 longInstance longInstance longInstance).toBool = false := by
    decide +kernel
  obtain ⟨⟨q, r⟩, h⟩ := exists_ok_of_toBool hok
  refine ⟨q, r, h, fun hrest => ?_⟩
  obtain ⟨name, type, domain, hparts, -⟩ := hrest longInstance longInstance longInstance
  rw [h, Except.bind, hparts] at hno
  cases hno

end Hexley.Dns
