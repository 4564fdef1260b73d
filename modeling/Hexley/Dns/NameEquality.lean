import Hexley.Dns.RData

/-!
Equality of names and of rdata, and the hashes that are tested before it.

`SameDomainName` compares two names label by label and ignores the case of
ASCII letters, and `DomainNameHashValue` runs over the bytes in pairs, without
regard to where a label ends. That they agree comes down to one fact about
bytes: `lower` leaves the length bytes alone and makes no byte zero, so that
the names that are the same have the same bytes in lower case
(`DomainName.SameAs.bytes`), and the hash sees no others.

The rdata of a record is compared piece by piece as its type says. Each piece
is a name or a run of bytes, and the hash is the sum of the hashes of some of
the pieces.
-/

namespace Hexley.Dns

open Lib List Mem UInt8 DomainName

def lowerLabel (l : List UInt8) : List UInt8 := l.map lower

/-- The names are equal label by label, without regard to the case of ASCII letters. -/
def DomainName.SameAs (d e : DomainName) : Prop := d.labels.map lowerLabel = e.labels.map lowerLabel

instance (d e : DomainName) : Decidable (d.SameAs e) :=
  inferInstanceAs (Decidable (d.labels.map lowerLabel = e.labels.map lowerLabel))

theorem DomainName.sameAs_equivalence : Equivalence DomainName.SameAs where
  refl _ := rfl
  symm h := h.symm
  trans h h' := h.trans h'

/-- What the type of a record asks of its rdata: an address has its length, two
strings fill the rdata, and a name is a valid one. -/
def ValidRData (rr : ResourceRecord) : Prop :=
  let isName (p : ℕ) := ∃ d, NameAt rr.rdata p d
  match layoutOf rr.rrtype with
  | .a => rr.rdlength = 4
  | .aaaa => rr.rdlength = 16
  | .hinfo =>
    rr.rdlength = UInt16.ofNat (2 + (rr.rdata 0).toNat + (rr.rdata (1 + (rr.rdata 0).toNat)).toNat)
  | .name => isName 0
  | .soa | .rp => isName 0 ∧ isName secondName
  | .mx => isName afterPreference
  | .px => isName afterPreference ∧ isName pxMapx400
  | .srv => isName srvTarget
  | .raw | .opt | .unknown => True

/-! ### Lower case -/

theorem lower_eq_zero_iff {b : UInt8} : lower b = 0 ↔ b = 0 := by
  rw [lower]
  split
  case isTrue h =>
    have h₁ := le_iff_toNat_le.mp h.1
    have h₂ := le_iff_toNat_le.mp h.2
    rw [← UInt8.toNat_inj, ← UInt8.toNat_inj, UInt8.toNat_add]
    simp only [reduceToNat] at h₁ h₂ ⊢
    omega
  case isFalse => exact Iff.rfl

theorem lower_of_lt {b : UInt8} (h : b.toNat < 64) : lower b = b := by
  refine if_neg fun hc => ?_
  have h₁ : 65 ≤ b.toNat := le_iff_toNat_le.mp hc.1
  omega

section Labels

variable {ls ls' : List (List UInt8)}

theorem map_lower_label_cons {l : List UInt8} (h : l.length ≤ maxDomainLabel) :
    (wire (l :: ls)).map lower = ofNat l.length :: (lowerLabel l ++ (wire ls).map lower) := by
  have hlt : (ofNat l.length).toNat < 64 := by
    rw [toNat_label h]
    exact Nat.lt_succ_of_le h
  rw [label_cons, map_append, map_cons, lower_of_lt hlt]
  rfl

theorem map_lower_labelBytes (hls : LabelsFit ls) (hls' : LabelsFit ls')
    (h : ls.map lowerLabel = ls'.map lowerLabel) :
    (wire ls).map lower = (wire ls').map lower := by
  induction ls generalizing ls' with
  | nil =>
    rw [map_nil, eq_comm, map_eq_nil_iff] at h
    rw [h]
  | cons l ls ih =>
    cases ls' with
    | nil => cases h
    | cons l' ls' =>
      rw [map_cons, map_cons, cons.injEq] at h
      have hlen : l.length = l'.length := by
        have := congrArg length h.1
        rwa [lowerLabel, lowerLabel, length_map, length_map] at this
      rw [map_lower_label_cons (hls l mem_cons_self).2,
        map_lower_label_cons (hls' l' mem_cons_self).2, ih hls.tail hls'.tail h.2, h.1, hlen]

end Labels

theorem DomainName.SameAs.bytes {d e : DomainName} (h : d.SameAs e) :
    d.bytes.map lower = e.bytes.map lower := by
  rw [DomainName.bytes, DomainName.bytes, map_append, map_append,
    map_lower_labelBytes d.labelsFit e.labelsFit h]

section

variable {m m' : Mem} {p q : ℕ} {d e : DomainName}

/-! ### The comparison -/

theorem sameDomainLabel_iff {l l' : List UInt8} (hl : l.length ≤ maxDomainLabel)
    (hl' : l'.length ≤ maxDomainLabel) (hp : m.Holds p (ofNat l.length :: l))
    (hq : m'.Holds q (ofNat l'.length :: l')) :
    sameDomainLabel m p m' q = true ↔ lowerLabel l = lowerLabel l' := by
  obtain ⟨hp₁, hp⟩ := holds_cons.mp hp
  obtain ⟨hq₁, hq⟩ := holds_cons.mp hq
  rw [sameDomainLabel, decide_eq_true_iff, hp₁, hq₁, toNat_label hl, hp.read_eq rfl]
  refine ⟨fun ⟨_, hlen, h⟩ => ?_, fun h => ?_⟩
  · have hlen' : l'.length = l.length := by
      rw [← toNat_label hl, hlen, toNat_label hl']
    rw [hq.read_eq hlen'] at h
    exact h
  · have hlen : l'.length = l.length := by
      have := congrArg length h
      rw [lowerLabel, lowerLabel, length_map, length_map] at this
      exact this.symm
    rw [hq.read_eq hlen, hlen]
    exact ⟨hl, rfl, h⟩

theorem sameDomainLabel_of_ne (h : m p ≠ m' q) : sameDomainLabel m p m' q = false :=
  decide_eq_false fun hc => h hc.2.1

theorem sameDomainNameFrom_iff {ls ls' : List (List UInt8)} {max fuel : ℕ} (hls : LabelsFit ls)
    (hls' : LabelsFit ls') (hp : m.Holds p (wire ls ++ [0]))
    (hq : m'.Holds q (wire ls' ++ [0])) (hmax : p + (wire ls).length < max)
    (hfuel : (wire ls).length < fuel) :
    sameDomainNameFrom m m' max fuel p q = true ↔ ls.map lowerLabel = ls'.map lowerLabel := by
  induction ls generalizing ls' p q fuel with
  | nil =>
    rcases fuel with _ | fuel
    · omega
    have hz : m p = 0 := (holds_cons.mp hp).1
    cases ls' with
    | nil =>
      have hz' : m' q = 0 := (holds_cons.mp hq).1
      rw [sameDomainNameFrom, if_pos ⟨hz, hz'⟩]
      simp
    | cons l' ls' =>
      obtain ⟨hpos, hle⟩ := hls' l' mem_cons_self
      have hq₁ : m' q = ofNat l'.length := (holds_cons.mp hq).1
      have hne : m' q ≠ 0 := hq₁ ▸ label_ne_zero hpos hle
      rw [sameDomainNameFrom, if_neg fun hc => hne hc.2,
        sameDomainLabel_of_ne (hz.trans_ne hne.symm)]
      simp
  | cons l ls ih =>
    rcases fuel with _ | fuel
    · omega
    obtain ⟨hpos, hle⟩ := hls l mem_cons_self
    have hlen := toNat_label hle
    rw [label_cons] at hp hmax hfuel
    rw [append_assoc] at hp
    simp only [cons_append, length_cons, length_append] at hmax hfuel
    obtain ⟨hlab, hrest⟩ := holds_append.mp hp
    have hp₁ : m p = ofNat l.length := (holds_cons.mp hlab).1
    have hne : m p ≠ 0 := hp₁ ▸ label_ne_zero hpos hle
    rw [sameDomainNameFrom, if_neg fun hc => hne hc.1, hp₁, hlen, if_neg (by omega)]
    cases ls' with
    | nil =>
      have hz' : m' q = 0 := (holds_cons.mp hq).1
      rw [sameDomainLabel_of_ne (hz' ▸ hne)]
      simp
    | cons l' ls' =>
      obtain ⟨hpos', hle'⟩ := hls' l' mem_cons_self
      rw [label_cons, append_assoc] at hq
      obtain ⟨hlab', hrest'⟩ := holds_append.mp hq
      have hq₁ : m' q = ofNat l'.length := (holds_cons.mp hlab').1
      have hsame := sameDomainLabel_iff hle hle' hlab hlab'
      rw [length_cons, add_comm l.length 1, ← add_assoc] at hrest
      rw [length_cons, add_comm l'.length 1, ← add_assoc] at hrest'
      have hfuel' : (wire ls).length < fuel := by omega
      have hnext := ih hls.tail hls'.tail hrest hrest' (by omega) hfuel'
      rw [hq₁, toNat_label hle', map_cons, map_cons, cons.injEq, ← hsame, ← hnext]
      split <;> simp_all

theorem NameAt.same_iff (h : NameAt m p d) (h' : NameAt m' q e) :
    sameDomainName m p m' q = true ↔ d.SameAs e := by
  have hle := d.length_lt
  exact sameDomainNameFrom_iff d.labelsFit e.labelsFit h h' (by omega) (by omega)

theorem nameAt_ofList (d : DomainName) : NameAt (ofList d.bytes) 0 d := holds_ofList d.bytes

/-! ### The hash of a name -/

theorem nameHash_lower {z fuel i : ℕ} {sum : UInt32} (hz : m (p + z) = 0)
    (heq : ∀ k ≤ z, lower (m (p + k)) = lower (m' (q + k))) (hi : i ≤ z) :
    domainNameHashFrom m fuel (p + i) sum = domainNameHashFrom m' fuel (q + i) sum := by
  have hzero : ∀ k ≤ z, (m (p + k) = 0 ↔ m' (q + k) = 0) := fun k hk => by
    rw [← lower_eq_zero_iff, heq k hk, lower_eq_zero_iff]
  induction fuel generalizing i sum with
  | zero => rfl
  | succ fuel ih =>
    rw [domainNameHashFrom, domainNameHashFrom, heq i hi]
    by_cases hc : m (p + i) = 0
    · have hc' := (hzero i hi).mp hc
      simp only [hc, hc', ne_eq, not_true_eq_false, false_and, if_false]
    have hlt : i + 1 ≤ z := by
      rcases lt_or_eq_of_le hi with h | rfl
      · exact h
      · exact absurd hz hc
    have hc' : m' (q + i) ≠ 0 := fun h => hc ((hzero i hi).mpr h)
    by_cases hd : m (p + (i + 1)) = 0
    · have hd' := (hzero (i + 1) hlt).mp hd
      simp only [add_assoc, hd, hd', hc, hc', ne_eq, not_true_eq_false, and_false, if_false,
        not_false_eq_true, if_true]
    have hd' : m' (q + (i + 1)) ≠ 0 := fun h => hd ((hzero (i + 1) hlt).mpr h)
    have hlt' : i + 2 ≤ z := by
      rcases lt_or_eq_of_le hlt with h | rfl
      · exact h
      · exact absurd hz hd
    rw [if_pos ⟨hc, hd⟩, if_pos ⟨hc', hd'⟩, add_assoc p i 1, add_assoc q i 1,
      heq (i + 1) hlt, add_assoc p i 2, add_assoc q i 2, ih hlt']

theorem NameAt.hash_eq (h : NameAt m p d) (h' : NameAt m' q e) (hsame : d.SameAs e) :
    domainNameHashValue m p = domainNameHashValue m' q := by
  have hbytes := hsame.bytes
  have hlen : d.bytes.length = e.bytes.length := by simpa using congrArg List.length hbytes
  have hm := holds_append.mp h
  have hzero := (holds_cons.mp hm.2).1
  refine nameHash_lower (i := 0) hzero (fun k hk => ?_) (Nat.zero_le _)
  have hk' : k < d.bytes.length := by
    rw [d.length_bytes]
    omega
  have hb := congrArg (fun l => l[k]?) hbytes
  simpa only [getElem?_map, Mem.Holds.getElem? h hk', Mem.Holds.getElem? h' (hlen ▸ hk'),
    Option.map_some, Option.some.injEq] using hb

theorem NameAt.hash (h : NameAt m p d) (h' : NameAt m' q d) :
    domainNameHashValue m p = domainNameHashValue m' q :=
  h.hash_eq h' rfl

theorem hash_of_sameName (h : ∃ d, NameAt m p d) (h' : ∃ e, NameAt m' q e)
    (hsame : sameDomainName m p m' q = true) :
    domainNameHashValue m p = domainNameHashValue m' q := by
  obtain ⟨d, hd⟩ := h
  obtain ⟨e, he⟩ := h'
  exact hd.hash_eq he ((hd.same_iff he).mp hsame)

end

/-! ### The hash of rdata -/

section

variable {pf : Platform} {rr rr' : ResourceRecord}

theorem dataHash_congr {m m' : Mem} {n fuel i : ℕ} {sum : UInt32}
    (h : Set.EqOn m m' (Set.Ico 0 n)) :
    dataHashFrom m n fuel i sum = dataHashFrom m' n fuel i sum := by
  induction fuel generalizing i sum with
  | zero => rfl
  | succ fuel ih =>
    rw [dataHashFrom, dataHashFrom]
    by_cases hi : i + 1 < n
    · rw [if_pos hi, if_pos hi, ih, h ⟨Nat.zero_le _, by omega⟩, h ⟨Nat.zero_le _, hi⟩]
    rw [if_neg hi, if_neg hi]
    by_cases hi' : i < n
    · rw [if_pos hi', if_pos hi', h ⟨Nat.zero_le _, hi'⟩]
    · rw [if_neg hi', if_neg hi']

theorem field32_congr {m m' : Mem} {p n q : ℕ} (h : m.read p n = m'.read p n) (hp : p ≤ q)
    (hq : q + 4 ≤ p + n) : field32 pf m q = field32 pf m' q := by
  have heq := (eqOn_of_read_eq h).mono (Set.Ico_subset_Ico hp hq)
  rw [field32, field32, read_congr heq]

/-- `SetNewRData` keeps the length of valid rdata that is compared as plain bytes. -/
theorem ValidRData.getRDLength_eq (h : ValidRData rr) (hflat : isFlat (layoutOf rr.rrtype)) :
    getRDLength rr false = rr.rdlength := by
  by_cases hclass : rr.rrclass = kDNSQClassANY
  · exact rdLength_of_any hclass false
  rw [rdLength_of_ne hclass]
  unfold ValidRData at h
  cases hl : layoutOf rr.rrtype <;> rw [hl] at h hflat <;> first | exact h.symm | rfl | cases hflat

theorem rdataHash_of_flat {a : ResourceRecord} (hflat : isFlat (layoutOf a.rrtype)) :
    rDataHashValue pf a = dataHashFrom a.rdata a.rdlength.toNat (a.rdlength.toNat + 1) 0 0 := by
  unfold rDataHashValue
  generalize layoutOf a.rrtype = layout at hflat ⊢
  cases layout with
  | a | raw | hinfo | aaaa | opt | unknown => rfl
  | name | soa | mx | rp | px | srv => cases hflat

theorem sameRDataBody_flat_iff {rd : Mem} (hflat : isFlat (layoutOf rr.rrtype)) :
    sameRDataBody rr rd = true ↔
      rr.rdata.read 0 rr.rdlength.toNat = rd.read 0 rr.rdlength.toNat := by
  unfold sameRDataBody
  cases hl : layoutOf rr.rrtype <;> rw [hl] at hflat <;>
    first | exact decide_eq_true_iff | cases hflat

theorem rdataHash_of_not_flat {n : UInt16} (hflat : ¬isFlat (layoutOf rr.rrtype)) :
    rDataHashValue pf { rr with rdlength := n } = rDataHashValue pf rr := by
  unfold rDataHashValue
  cases hl : layoutOf rr.rrtype <;> rw [hl] at hflat <;> first | rfl | exact absurd rfl hflat

theorem rdataHash_eq_of_names (htype : rr.rrtype = rr'.rrtype)
    (hflat : ¬isFlat (layoutOf rr.rrtype))
    (hv : ValidRData rr) (hv' : ValidRData rr') (hsame : sameRDataBody rr rr'.rdata = true) :
    rDataHashValue pf rr = rDataHashValue pf rr':= by
  unfold ValidRData at hv hv'
  unfold sameRDataBody at hsame
  unfold rDataHashValue
  rw [← htype] at hv' ⊢
  cases hl : layoutOf rr.rrtype <;> rw [hl] at hv hv' hsame hflat
  case name => exact hash_of_sameName hv hv' hsame
  case mx =>
    rw [Bool.and_eq_true] at hsame
    exact hash_of_sameName hv hv' hsame.2
  case srv =>
    rw [Bool.and_eq_true] at hsame
    exact hash_of_sameName hv hv' hsame.2
  case rp =>
    rw [Bool.and_eq_true] at hsame
    exact congrArg₂ (· + ·) (hash_of_sameName hv.1 hv'.1 hsame.1)
      (hash_of_sameName hv.2 hv'.2 hsame.2)
  case px =>
    rw [Bool.and_eq_true, Bool.and_eq_true] at hsame
    exact congrArg₂ (· + ·) (hash_of_sameName hv.1 hv'.1 hsame.1.2)
      (hash_of_sameName hv.2 hv'.2 hsame.2)
  case soa =>
    rw [Bool.and_eq_true, Bool.and_eq_true, decide_eq_true_iff] at hsame
    obtain ⟨⟨hnumbers, hmname⟩, hrname⟩ := hsame
    rw [field32_congr hnumbers le_rfl (by decide), field32_congr hnumbers (by decide) (by decide),
      field32_congr hnumbers (by decide) (by decide),
      field32_congr hnumbers (by decide) (by decide),
      field32_congr hnumbers (by decide)
        (by decide), hash_of_sameName hv.1 hv'.1 hmname, hash_of_sameName hv.2 hv'.2 hrname]
  all_goals exact absurd rfl hflat

theorem rdatahash_of_same (htype : rr.rrtype = rr'.rrtype) (hlen : rr.rdlength = rr'.rdlength)
    (hv : ValidRData rr) (hv' : ValidRData rr') (hsame : sameRDataBody rr rr'.rdata = true) :
    (setNewRData pf rr).rdatahash = (setNewRData pf rr').rdatahash := by
  rw [setNew_rdatahash, setNew_rdatahash]
  by_cases hflat : isFlat (layoutOf rr.rrtype)
  · have hflat' : isFlat (layoutOf rr'.rrtype) := htype ▸ hflat
    rw [hv.getRDLength_eq hflat, hv'.getRDLength_eq hflat', rdataHash_of_flat hflat,
      rdataHash_of_flat hflat', ← hlen]
    have heq := eqOn_of_read_eq ((sameRDataBody_flat_iff hflat).mp hsame)
    exact dataHash_congr (by rwa [zero_add] at heq)
  · have hflat' : ¬isFlat (layoutOf rr'.rrtype) := htype ▸ hflat
    rw [rdataHash_of_not_flat hflat, rdataHash_of_not_flat hflat']
    exact rdataHash_eq_of_names htype hflat hv hv' hsame

/-- The hashes that the code tests before it compares names or rdata never tell apart what
is the same. -/
theorem hashes_sound (pf : Platform) : Equivalence (fun d e : DomainName =>
      sameDomainName (ofList d.bytes) 0 (ofList e.bytes) 0 = true) ∧
    (∀ (m m' : Mem) (p q : ℕ) (d e : DomainName), NameAt m p d → NameAt m' q e →
      (sameDomainName m p m' q = true ↔ d.labels.map lowerLabel = e.labels.map lowerLabel) ∧
      (sameDomainName m p m' q = true → domainNameHashValue m p = domainNameHashValue m' q)) ∧
    (∀ rr rr' : ResourceRecord, rr.rrtype = rr'.rrtype → rr.rdlength = rr'.rdlength →
      ValidRData rr → ValidRData rr' → sameRDataBody rr rr'.rdata = true →
      (setNewRData pf rr).rdatahash = (setNewRData pf rr').rdatahash) := by
  refine ⟨?_, fun m m' p q d e hd he => ⟨hd.same_iff he, fun hsame => ?_⟩,
    fun rr rr' htype hlen hv hv' hsame => rdatahash_of_same htype hlen hv hv' hsame⟩
  · have hiff : ∀ d e : DomainName,
        sameDomainName (ofList d.bytes) 0 (ofList e.bytes) 0 = true ↔ d.SameAs e :=
      fun d e => (nameAt_ofList d).same_iff (nameAt_ofList e)
    simp only [hiff]
    exact sameAs_equivalence
  · exact hd.hash_eq he ((hd.same_iff he).mp hsame)

def rootName : DomainName := ⟨[], by simp, by simp, by decide⟩

def oneByteName (b : UInt8) : DomainName :=
  ⟨[[b]], by simp, by simp [maxDomainLabel], by simp [maxDomainName]⟩

def letters (n : ℕ) : List UInt8 := replicate n 0x61

theorem hashes_sound_letter :
    sameDomainName (ofList (oneByteName 0x41).bytes) 0 (ofList (oneByteName 0x61).bytes) 0 =
      true ∧ domainNameHashValue (ofList (oneByteName 0x41).bytes) 0 =
      domainNameHashValue (ofList (oneByteName 0x61).bytes) 0 := by
  have hsame := (hashes_sound ⟨.little, 1000, by decide⟩).2.1 _ _ 0 0 _ _
    (nameAt_ofList (oneByteName 0x41)) (nameAt_ofList (oneByteName 0x61))
  exact ⟨hsame.1.mpr (by decide), hsame.2 (hsame.1.mpr (by decide))⟩

end

end Hexley.Dns
