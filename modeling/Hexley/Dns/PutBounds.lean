import Hexley.Dns.Probe

/-!
How the writers keep to their limits.

Three results about the functions that put names and records into a
message. The first two are about bounds that are off by one byte. When a
label ends right before the last byte of the room, `putDomainNameAsLabels`
puts the root label there and takes the name for complete, and
`FindCompressionPointer` looks at the byte at `end` for the root label of a
name whose last label ends there. In both cases the inputs for which this
happens are described exactly.

The third one is about the frame. `WritesWithin` says that a writer leaves
everything outside of its room alone. There is one rule for a store and one
for a writer that goes on behind another, and the rdata of every type is
put together with these two.
-/

namespace Hexley.Dns

open Lib List Mem Endian

/-! ### A whole name or nothing -/

def AllOrNothing (m : Mem) (ptr limit : ℕ) (d : DomainName) (x : Option ℕ × Mem) : Prop :=
  x.1 = none ∨ x = (some (ptr + d.bytes.length), m.write ptr d.bytes) ∧ ptr + d.bytes.length ≤ limit

variable {m nm m' : Mem} {ptr limit : ℕ} {d : DomainName}

section WholeName

variable {start : ℕ}

theorem fitName_cut {ls₁ ls₂ : List (List UInt8)} (hls : LabelsFit ls₁) (hne : ls₂ ≠ []) :
    fitName ((wire ls₁).length + 1) (ls₁ ++ ls₂) = some (wire ls₁ ++ [0]) := by
  induction ls₁ with
  | nil =>
    cases ls₂ with
    | nil => exact absurd rfl hne
    | cons l ls => rfl
  | cons l ls₁ ih =>
    have hlen : (wire (l :: ls₁)).length = l.length + 1 + (wire ls₁).length := by
      rw [length_label_cons]
    rw [hlen, cons_append, fitName, if_neg (by omega), if_neg (by omega),
      show l.length + 1 + (wire ls₁).length + 1 - (l.length + 1) = (wire ls₁).length + 1 by omega,
      ih hls.tail, label_cons, Option.map_some, append_assoc]

/-- Without compression, a name is written as a whole or not at all exactly when none of its
labels but the last ends before the last byte of the room. -/
theorem putDomainNameAsLabels_allOrNothing_iff (m nm : Mem) (ptr limit start : ℕ)
    (d : DomainName) (hnm : NameAt nm start d) (hptr : ptr ≤ limit) :
    AllOrNothing m ptr limit d (putDomainNameAsLabels false m ptr limit nm start) ↔
      Uncut limit ptr d := by
  constructor
  · intro h ls₁ ls₂ hd hne hend
    have hfit : LabelsFit ls₁ := fun l hl => d.labelsFit l (hd ▸ mem_append_left ls₂ hl)
    have hfits : Fits (fitName (limit - ptr) d.labels) m ptr _ := fits_putLabels hnm hptr
    rw [show limit - ptr = (wire ls₁).length + 1 by omega, hd, fitName_cut hfit hne] at hfits
    have hx : putDomainNameAsLabels false m ptr limit nm start =
      (some (ptr + (wire ls₁ ++ [0]).length), m.write ptr (wire ls₁ ++ [0])) := hfits
    rw [hx] at h
    rcases h with h | ⟨-, hroom⟩
    · cases h
    · exact uncut_of_room hroom ls₁ ls₂ hd hne hend
  · intro huncut
    have h : NameOutcome false limit m ptr d _ := putLabels_outcome false hnm
    generalize putDomainNameAsLabels false m ptr limit nm start = x at h
    cases h with
    | written hw hle hc =>
      rw [hc rfl] at hle ⊢
      exact .inr ⟨rfl, hle⟩
    | cut hd hne hend => exact absurd hend (huncut _ _ hd hne)
    | failed heq hroom => exact .inl rfl

end WholeName

def twoLabels : DomainName where
  labels := [[97], [98]]
  label_pos := by decide
  label_le := by decide
  length_le := by decide

theorem twoLabels_allOrNothing :
    AllOrNothing (ofList []) 12 17 twoLabels (putDomainNameAsLabels false (ofList []) 12 17
      (ofList [1, 97, 1, 98, 0]) 0) :=
  (putDomainNameAsLabels_allOrNothing_iff (ofList []) (ofList [1, 97, 1, 98, 0]) 12 17 0
    twoLabels (by unfold NameAt; decide) (by decide)).mpr (uncut_of_room (by decide))

/-- In three bytes of room `a.b.` is cut to `a.`, and the position behind it is returned. -/
theorem twoLabels_cut :
    (putDomainNameAsLabels false (ofList []) 12 15 (ofList [1, 97, 1, 98, 0]) 0).1 = some 15 ∧
      ((putDomainNameAsLabels false (ofList []) 12 15 (ofList [1, 97, 1, 98, 0]) 0).2.read
        12 3) = [1, 97, 0] ∧ twoLabels.bytes = [1, 97, 1, 98, 0] := by
  decide

/-! ### What a compression pointer leads to -/

section Compression

variable {stop targ np r : ℕ} {ls : List (List UInt8)} {s : Set ℕ}

/-- The name is found at `r`, and the bytes that make it up lie before `stop`. -/
def FoundBefore (m : Mem) (stop r : ℕ) (ls : List (List UInt8)) : Prop :=
  ∃ s, Matched m stop r ls s ∧ ∀ x ∈ s, x < stop

def FoundAcross (m : Mem) (stop r : ℕ) (ls : List (List UInt8)) : Prop :=
  ∃ s, Matched m stop r ls s ∧ stop ∈ s

theorem matchesNameFrom_of_matched {fuel : ℕ} (h : Matched m stop targ ls s) (hls : LabelsFit ls)
    (hnm : nm.Holds np (wire ls ++ [0])) (hfuel : ls.length ≤ fuel) :
    matchesNameFrom m stop nm fuel targ np = true := by
  induction h generalizing fuel np with
  | @last targ l hlt hl hz =>
    obtain _ | fuel := fuel
    · exact absurd hfuel (Nat.not_succ_le_zero _)
    obtain ⟨hat, hnext⟩ := labelAt_of_labels hnm
    unfold matchesNameFrom
    rw [hat.toNat_first (hls l mem_cons_self).2, if_pos ⟨hlt, (labelAt_iff hat).mpr hl⟩,
      if_pos (holds_cons.mp hnext).1]
    exact decide_eq_true hz
  | @next targ l l' ls s hlt hl rest ih =>
    obtain _ | fuel := fuel
    · exact absurd hfuel (Nat.not_succ_le_zero _)
    obtain ⟨hat, hnext⟩ := labelAt_of_labels hnm
    obtain ⟨hpos', hle'⟩ := hls.tail l' mem_cons_self
    unfold matchesNameFrom
    rw [hat.toNat_first (hls l mem_cons_self).2, if_pos ⟨hlt, (labelAt_iff hat).mpr hl⟩,
      if_neg ((labelAt_of_labels hnext).1.first_ne_zero hpos' hle'), rest.labelKind hls.tail]
    exact ih hls.tail hnext (Nat.le_of_succ_le_succ hfuel)
  | @jump targ l l' ls s hlt hl hk hback rest ih =>
    obtain _ | fuel := fuel
    · exact absurd hfuel (Nat.not_succ_le_zero _)
    obtain ⟨hat, hnext⟩ := labelAt_of_labels hnm
    obtain ⟨hpos', hle'⟩ := hls.tail l' mem_cons_self
    have hkind := rest.labelKind hls.tail
    unfold target at hback hkind
    unfold matchesNameFrom
    rw [hat.toNat_first (hls l mem_cons_self).2, if_pos ⟨by omega, (labelAt_iff hat).mpr hl⟩,
      if_neg ((labelAt_of_labels hnext).1.first_ne_zero hpos' hle'), hk]
    rw [if_neg (by omega), if_neg (by omega), if_neg (not_not.mpr hkind)]
    exact ih hls.tail hnext (Nat.le_of_succ_le_succ hfuel)

theorem Matched.unique {s' : Set ℕ} (h : Matched m stop targ ls s) (hls : LabelsFit ls)
    (h' : Matched m stop targ ls s') : s = s' := by
  induction h generalizing s' with
  | last => cases h' with | last => rfl
  | next _ _ rest ih =>
    cases h' with
    | next _ _ rest' => rw [ih hls.tail rest']
    | jump _ _ hk => exact absurd ((rest.labelKind hls.tail).symm.trans hk) (by decide)
  | jump _ _ hk _ rest ih =>
    cases h' with
    | next _ _ rest' => exact absurd ((rest'.labelKind hls.tail).symm.trans hk) (by decide)
    | jump _ _ _ _ rest' => rw [ih hls.tail rest']

theorem Matched.not_spelled (h : Matched m stop targ ls s) (hls : LabelsFit ls) (hs : stop ∈ s)
    (ls' : List (List UInt8)) : ¬Spelled m stop targ np ls' := by
  have hlabel {targ np : ℕ} {l : List UInt8} {ls ls' : List (List UInt8)} (hl : LabelAt m targ l)
      (hls : LabelsFit (l :: ls)) (hspelled : Spelled m stop targ np ls') :
      targ + 1 + l.length < stop ∧
        ∃ ls'', Spelled m stop (targ + 1 + l.length) (np + 1 + l.length) ls'' := by
    obtain ⟨hpos, hle⟩ := hls l mem_cons_self
    have hlen := hl.toNat_first hle
    cases hspelled with
    | root hz => exact absurd hz (hl.first_ne_zero hpos hle)
    | label hfits rest =>
      have hin := hfits.inside
      rw [hlen] at hin rest
      exact ⟨hin, _, rest⟩
    | pointer hp => exact absurd ((hl.labelKind hle).symm.trans hp.kind) (by decide)
  intro hspelled
  induction h generalizing np ls' with
  | last hlt hl => exact absurd hs.2 (not_le.mpr (hlabel hl hls hspelled).1)
  | @next targ l l' ls s hlt hl rest ih =>
    obtain ⟨-, ls'', hrest⟩ := hlabel hl hls hspelled
    have hs' : stop ∈ s := hs.resolve_left fun hs => by have := hs.2; omega
    exact ih hls.tail hs' ls'' hrest
  | @jump targ l l' ls s hlt hl hk hback rest ih =>
    obtain ⟨-, ls'', hrest⟩ := hlabel hl hls hspelled
    have hs' : stop ∈ s := hs.resolve_left fun hs => by have := hs.2; omega
    cases hrest with
    | root hz => exact absurd hz (ne_zero_of_pointer hk)
    | label hfits => exact absurd (hfits.kind.symm.trans hk) (by decide)
    | pointer _ hrest => exact ih hls.tail hs' _ hrest

theorem findFrom_of_matches {result : ℕ} (hr : r ≤ result)
    (hmatch : matchesNameFrom m stop nm maxDomainName r np = true) :
    ∃ r', findCompressionPointerFrom m stop nm np result = some r' ∧ r ≤ r' := by
  induction result with
  | zero =>
    obtain rfl : r = 0 := Nat.le_zero.mp hr
    exact ⟨0, by rw [findCompressionPointerFrom, if_pos hmatch], le_rfl⟩
  | succ result ih =>
    rw [findCompressionPointerFrom]
    split
    · exact ⟨result + 1, rfl, hr⟩
    · next hno =>
      refine ih (Nat.le_of_lt_succ (lt_of_le_of_ne hr ?_))
      rintro rfl
      exact hno hmatch

theorem length_le_label (ls : List (List UInt8)) : ls.length ≤ (wire ls).length := by
  induction ls with
  | nil => exact Nat.zero_le _
  | cons l ls ih =>
    rw [length_label_cons, length_cons]
    omega

theorem find_of_matched (hnm : NameAt nm np d) (h : Matched m stop r d.labels s) :
    ∃ r', findCompressionPointer m stop nm np = some r' ∧ r ≤ r' := by
  have hcount : d.labels.length ≤ maxDomainName := by
    have hlen := d.length_lt
    have := length_le_label d.labels
    omega
  have hmatch := matchesNameFrom_of_matched h d.labelsFit hnm hcount
  -- The first label of a match lies before `stop`, so the search starts behind it.
  obtain ⟨l, ls, hd, hlt⟩ : ∃ l ls, d.labels = l :: ls ∧ r + l.length < stop := by
    generalize d.labels = ls at h
    cases h with
    | last hlt | next hlt => exact ⟨_, _, rfl, hlt⟩
    | jump hlt => exact ⟨_, _, rfl, by omega⟩
  obtain ⟨hpos, hle⟩ := d.labelsFit l (hd ▸ mem_cons_self)
  have hat : LabelAt nm np l := by
    rw [NameAt, DomainName.bytes, hd] at hnm
    exact (labelAt_of_labels hnm).1
  have hlen := hat.toNat_first hle
  have hstart : ¬(nm np = 0 ∨ stop < (nm np).toNat + 1) :=
    not_or.mpr ⟨hat.first_ne_zero hpos hle, by omega⟩
  rw [findCompressionPointer, if_neg hstart]
  exact findFrom_of_matches (by omega) hmatch

theorem Spelled.exists_nameEnd (h : Spelled m stop targ np ls) : ∃ p, NameEnd m stop targ np p := by
  induction h with
  | root hz => exact ⟨_, .root hz⟩
  | label hl rest ih =>
    obtain ⟨p, hp⟩ := ih
    exact ⟨p, .label hl hp⟩
  | pointer hp => exact ⟨_, .pointer hp.kind⟩

def DecodesBefore (m : Mem) (stop r : ℕ) (d : DomainName) : Prop :=
  r < stop ∧ ∀ m', Set.EqOn m m' (Set.Iio stop) → ∀ dst base, ∃ p,
    (getDomainName r stop dst base).run m' = (some p, dst.write base d.bytes)

theorem FoundBefore.decodesBefore (h : FoundBefore m stop r d.labels) :
    DecodesBefore m stop r d := by
  obtain ⟨s, hmatch, hs⟩ := h
  refine ⟨hs r hmatch.mem_first, fun m' heq dst base => ?_⟩
  have hlen := d.length_lt
  have hspelled : Spelled m' stop r 0 d.labels :=
    (hmatch.congr (heq.mono hs)).spelled d.labelsFit hs (by omega)
  obtain ⟨p, hend⟩ := hspelled.exists_nameEnd
  exact ⟨p, name_of_nameRead ⟨hs r hmatch.mem_first, hspelled, hend⟩⟩

theorem FoundAcross.not_decodesBefore {d' : DomainName} (h : FoundAcross m stop r d.labels) :
    ¬DecodesBefore m stop r d' := by
  obtain ⟨s, hmatch, hs⟩ := h
  rintro ⟨-, hdecodes⟩
  obtain ⟨p, hp⟩ := hdecodes m (fun _ _ => rfl) m 0
  obtain ⟨-, ⟨ls, hls⟩, -⟩ := name_eq_some_iff.mp (congrArg Prod.fst hp)
  exact hmatch.not_spelled d.labelsFit hs ls hls

theorem foundBefore_or_foundAcross (h : Matched m stop r ls s) :
    FoundBefore m stop r ls ∨ FoundAcross m stop r ls := by
  by_cases hs : stop ∈ s
  · exact .inr ⟨s, h, hs⟩
  · refine .inl ⟨s, h, fun x hx => lt_of_le_of_ne (h.le x hx) ?_⟩
    rintro rfl
    exact hs hx

/-- A position that `FindCompressionPointer` returns leads to the name in the bytes before
`stop`, exactly when every place where the name is found with the byte at `stop` for its root
label is followed by one where it is found before `stop`. -/
theorem findCompressionPointer_sound_iff (m nm : Mem) (stop np : ℕ) (d : DomainName)
    (hnm : NameAt nm np d) :
    (∀ r, findCompressionPointer m stop nm np = some r → DecodesBefore m stop r d) ↔
      ∀ r, FoundAcross m stop r d.labels → ∃ r', r < r' ∧ FoundBefore m stop r' d.labels := by
  have hfound {r : ℕ} (h : findCompressionPointer m stop nm np = some r) :
      FoundBefore m stop r d.labels ∨ FoundAcross m stop r d.labels := by
    obtain ⟨-, -, s, hs⟩ := exists_matched_of_find d.labelsFit hnm h
    exact foundBefore_or_foundAcross hs
  constructor
  · intro hsound r hacross
    obtain ⟨s, hmatch, hs⟩ := hacross
    obtain ⟨r', hr', hle⟩ := find_of_matched hnm hmatch
    have hbefore : FoundBefore m stop r' d.labels :=
      (hfound hr').resolve_right fun h => h.not_decodesBefore (hsound r' hr')
    refine ⟨r', lt_of_le_of_ne hle ?_, hbefore⟩
    rintro rfl
    obtain ⟨s', hmatch', hs'⟩ := hbefore
    rw [hmatch'.unique d.labelsFit hmatch] at hs'
    exact absurd (hs' stop hs) (lt_irrefl _)
  · intro hcond r hr
    rcases hfound hr with hbefore | hacross
    · exact hbefore.decodesBefore
    · obtain ⟨r', hlt, s, hmatch, -⟩ := hcond r hacross
      obtain ⟨r'', hr'', hle⟩ := find_of_matched hnm hmatch
      rw [hr] at hr''
      cases hr''
      omega

end Compression

def oneLabel : DomainName where
  labels := [[97]]
  label_pos := by decide
  label_le := by decide
  length_le := by decide

def labelAtEnd : Mem := ofList [0, 0, 0, 0, 0, 0, 0, 0, 0, 0, 0, 0, 1, 97, 0]

/-- With the zero byte behind the label in the message, the name is found in it. -/
theorem labelAtEnd_sound : findCompressionPointer labelAtEnd 15 (ofList [1, 97, 0]) 0 = some 12 ∧
      DecodesBefore labelAtEnd 15 12 oneLabel := by
  have hfind : findCompressionPointer labelAtEnd 15 (ofList [1, 97, 0]) 0 = some 12 := by
    decide +kernel
  refine ⟨hfind, (findCompressionPointer_sound_iff labelAtEnd (ofList [1, 97, 0]) 15 0 oneLabel
    (by decide)).mpr ?_ 12 hfind⟩
  rintro r ⟨s, hmatch, hs⟩
  cases hmatch with
  | last hlt hl hz =>
    have hend := hs.2
    rw [length_singleton] at hlt hend
    obtain rfl : r = 13 := by omega
    exact absurd (holds_cons.mp hl).1 (by decide)

/-- If the message ends with the label, the pointer leads to what is no name. -/
theorem labelAtEnd_unsound : findCompressionPointer labelAtEnd 14 (ofList [1, 97, 0]) 0 = some 12 ∧
      ((getDomainName 12 14 (ofList []) 0).run labelAtEnd).1 = none := by
  decide +kernel

/-! ### What the writers change -/

structure WritesWithin (m : Mem) (ptr limit : ℕ) (x : Option ℕ × Mem) : Prop where
  frame : ∀ a, a < ptr ∨ limit ≤ a → x.2 a = m a
  position : ∀ p, x.1 = some p → ptr ≤ p ∧ p ≤ limit

section Frame

variable {pf : Platform} {bs : List UInt8} {x y : Option ℕ × Mem} {n : ℕ} {rr : ResourceRecord}

theorem within_none : WritesWithin m ptr limit (none, m) := ⟨fun _ _ => rfl, nofun⟩

theorem within_some (hptr : ptr ≤ limit) : WritesWithin m ptr limit (some ptr, m) := by
  refine ⟨fun _ _ => rfl, ?_⟩
  rintro p ⟨⟩
  exact ⟨le_rfl, hptr⟩

theorem WritesWithin.store (hn : bs.length ≤ n) (hroom : ptr + n ≤ limit)
    (h : WritesWithin (m.write ptr bs) (ptr + n) limit x) : WritesWithin m ptr limit x := by
  refine ⟨fun a ha => ?_, fun p hp => ?_⟩
  · rw [h.frame a (by omega)]
    rcases ha with ha | ha
    · exact write_of_lt ha
    · exact write_of_le (by omega)
  · have := h.position p hp
    omega

theorem within_write (hn : bs.length ≤ n) (hroom : ptr + n ≤ limit) :
    WritesWithin m ptr limit (some (ptr + n), m.write ptr bs) :=
  .store hn hroom (within_some hroom)

theorem WritesWithin.bind (hy : WritesWithin m ptr limit y)
    (hnone : ∀ m', y = (none, m') → x = (none, m'))
    (hsome : ∀ p m', y = (some p, m') → p ≤ limit → WritesWithin m' p limit x) :
    WritesWithin m ptr limit x := by
  obtain ⟨_ | p, m'⟩ := y
  · rw [hnone m' rfl]
    exact hy
  · obtain ⟨hle, hle'⟩ := hy.position p rfl
    have h := hsome p m' rfl hle'
    refine ⟨fun a ha => ?_, fun q hq => ?_⟩
    · have hm' : m' a = m a := hy.frame a ha
      rw [h.frame a (by omega), hm']
    · have := h.position q hq
      omega

variable (compress : Bool)

theorem within_putLabelsFrom (searchlimit start fuel np : ℕ) :
    WritesWithin m ptr limit (putLabelsFrom compress searchlimit limit nm start fuel np ptr m) := by
  induction fuel generalizing np ptr m with
  | zero => exact within_none
  | succ fuel ih =>
    rw [putLabelsFrom]
    split
    · next hloop =>
      dsimp only
      split
      · exact within_none
      split
      · exact within_none
      split
      · exact within_write le_rfl hloop.2
      · split
        · exact within_none
        · have hlabel : (nm.read np ((nm np).toNat + 1)).length ≤ (nm np).toNat + 1 :=
            (length_read ..).le
          refine .store hlabel (by omega) ?_
          rw [show ptr + 1 + (nm np).toNat = ptr + ((nm np).toNat + 1) by omega]
          exact ih _
    · split
      · next hlast => exact within_write le_rfl hlast
      · exact within_none

theorem within_putLabels (start : ℕ) :
    WritesWithin m ptr limit (putDomainNameAsLabels compress m ptr limit nm start) :=
  within_putLabelsFrom compress ptr start (maxDomainName + 1) start

theorem within_putOpt {rdlength nput fuel : ℕ} {rd : Mem} (hptr : ptr ≤ limit) :
    WritesWithin m ptr limit (putOptRDataFrom pf limit rdlength rd fuel nput ptr m) := by
  induction fuel generalizing nput ptr m with
  | zero => exact within_none
  | succ fuel ih =>
    have hhead : (wire16 pf rd nput ++ wire16 pf rd (nput + 2)).length ≤ 4 := by
      simp [length_wire16]
    rw [putOptRDataFrom]
    split
    swap
    · exact within_some hptr
    split
    · exact within_none
    dsimp only
    refine .store hhead (by omega) ?_
    split
    · split
      · exact within_none
      · refine .store (n := llqOptLen) ?_ (by omega) (ih (by omega))
        simp [length_wire16, length_wire32, llqOptLen]
    · split
      · split
        · exact within_none
        · exact .store (length_wire32 rd _).le (by omega) (ih (by omega))
      · exact within_none

theorem within_putRData (rr : ResourceRecord) (hptr : ptr ≤ limit) :
    WritesWithin m ptr limit (putRData pf compress m ptr limit rr) := by
  have hname {m : Mem} {ptr : ℕ} (p : ℕ) :
      WritesWithin m ptr limit (putDomainNameAsLabels compress m ptr limit rr.rdata p) :=
    within_putLabels compress p
  have hpreference : (wire16 pf rr.rdata 0).length ≤ 2 := (length_wire16 rr.rdata 0).le
  unfold putRData
  dsimp only
  split
  · split
    · exact within_none
    split
    · exact within_none
    · exact within_write (length_read ..).le (by omega)
  · exact hname 0
  · refine (hname 0).bind (fun m' h => by rw [h]) fun p m' h _ => ?_
    rw [h]
    dsimp only
    refine (hname secondName).bind (fun m'' h => by rw [h]) fun q m'' h _ => ?_
    rw [h]
    dsimp only
    split
    · exact within_none
    · refine within_write ?_ (by omega)
      simp [length_wire32]
  iterate 3
    · split
      · exact within_none
      · exact within_write (length_read ..).le (by omega)
  · split
    · exact within_none
    · exact .store hpreference (by omega) (hname afterPreference)
  · refine (hname 0).bind (fun m' h => by rw [h]) fun p m' h _ => ?_
    rw [h]
    exact hname secondName
  · split
    · exact within_none
    · refine .store hpreference (by omega) ?_
      refine (hname afterPreference).bind (fun m' h => by rw [h]) fun p m' h _ => ?_
      rw [h]
      exact hname pxMapx400
  · split
    · exact within_none
    split
    · exact within_none
    · exact within_write (length_read ..).le (by omega)
  · split
    · exact within_none
    · refine .store (n := 6) ?_ (by omega) (hname srvTarget)
      simp [length_wire16]
  · exact within_putOpt hptr

/-! ### The counts -/

theorem countOf_congr (s : Section) (h : ∀ a, a < sizeofDNSMessageHeader → m' a = m a) :
    countOf pf m' s = countOf pf m s := by
  rw [countOf, countOf, read_congr]
  intro a ha
  refine h a ?_
  have := ha.2
  cases s <;> simp only [Section.offset, sizeofDNSMessageHeader] at this ⊢ <;> omega

theorem countOf_incrementCount (s s' : Section) : countOf pf (incrementCount pf m s) s' =
      if s = s' then (countOf pf m s + 1) % 2 ^ 16 else countOf pf m s' := by
  split
  · next h =>
    subst h
    rw [countOf, incrementCount, read_write_len (length_bytes ..),
      val_bytes, countOf, show 256 ^ 2 = 2 ^ 16 from rfl]
  · next h =>
    rw [countOf, incrementCount, read_write_off, countOf]
    rw [length_bytes]
    cases s <;> cases s' <;> simp only [Section.offset] <;> first | omega | exact absurd rfl h

/-- What `PutResourceRecordTTLWithLimit` has done to the message when it returns `x`. -/
structure RecordEffect (pf : Platform) (m : Mem) (ptr : ℕ) (count : Option Section)
    (rr : ResourceRecord) (limit : ℕ) (x : Option ℕ × Mem) : Prop where
  /-- Besides the count, nothing is written outside of the room. -/
  frame : ∀ a, a < ptr ∨ limit ≤ a →
    (∀ s, count = some s → a ≠ s.offset ∧ a ≠ s.offset + 1) → x.2 a = m a
  /-- The position stays where it is only for a record that is not registered. -/
  unmoved : x.1 = some ptr ↔ rr.recordType = kDNSRecordTypeUnregistered
  /-- If there is no new position, the counts are as they were. -/
  refused : x.1 = none ∨ x.1 = some ptr → ∀ s, countOf pf x.2 s = countOf pf m s
  /-- A new position is in the room, and the count is one more. -/
  put : ∀ p, x.1 = some p → p ≠ ptr → p ≤ limit ∧ ∀ s, countOf pf x.2 s =
      if count = some s then (countOf pf m s + 1) % 2 ^ 16 else countOf pf m s
  /-- The rdata starts ten bytes behind the name and ends at the position. Its length is in
  the last two of the ten bytes; in a message, which has 8952 bytes, it fits there. -/
  length : ∀ p, x.1 = some p → p ≠ ptr →
    ∃ q, (putDomainNameAsLabels true m ptr limit rr.name 0).1 = some q ∧ q + 10 ≤ p ∧
      (limit ≤ ptr + 2 ^ 16 → big.val (x.2.read (q + 8) 2) = p - (q + 10))

theorem recordEffect_count {p q : ℕ} (count : Option Section) (hptr : sizeofDNSMessageHeader ≤ ptr)
    (hregistered : rr.recordType ≠ kDNSRecordTypeUnregistered)
    (hframe : ∀ a, a < ptr ∨ limit ≤ a → m' a = m a) (hp : p ≤ limit)
    (hq : (putDomainNameAsLabels true m ptr limit rr.name 0).1 = some q) (hptrq : ptr ≤ q)
    (hqp : q + 10 ≤ p) (hlen : m'.Holds (q + 8) (big.bytes 2 (p - q - 10))) :
    RecordEffect pf m ptr count rr limit (some p, bumpCount pf count m') := by
  have hbelow (a : ℕ) (ha : a < sizeofDNSMessageHeader) : m' a = m a :=
    hframe a (.inl (ha.trans_le hptr))
  have hne : p ≠ ptr := by omega
  refine ⟨fun a ha hcount => ?_, ?_, ?_, fun p' hp' _ => ?_, fun p' hp' _ => ?_⟩
  · cases count with
    | none => exact hframe a ha
    | some s =>
      obtain ⟨h₀, h₁⟩ := hcount s rfl
      change incrementCount pf m' s a = m a
      rw [incrementCount, ← hframe a ha]
      refine write_eqOn m' (s := {a}) (fun x hx => ?_) rfl
      rw [length_bytes, Set.mem_singleton_iff.mp hx]
      omega
  · exact iff_of_false (fun h => hne (Option.some.inj h)) hregistered
  · rintro (h | h)
    · cases h
    · exact absurd (Option.some.inj h) hne
  · cases hp'
    refine ⟨hp, fun s => ?_⟩
    cases count with
    | none => exact countOf_congr s hbelow
    | some s' =>
      change countOf pf (incrementCount pf m' s') s = _
      rw [countOf_incrementCount, countOf_congr s' hbelow, countOf_congr s hbelow]
      by_cases hs : s' = s
      · rw [if_pos hs, if_pos (congrArg some hs), hs]
      · rw [if_neg hs, if_neg fun h => hs (Option.some.inj h)]
  · cases hp'
    refine ⟨q, hq, hqp, fun hlimit => ?_⟩
    have hkept : Set.EqOn m' (bumpCount pf count m') (Set.Ico (q + 8) (q + 8 + 2)) := by
      refine (bumpCount_eqOn count).mono fun a ha => ?_
      have := ha.1
      unfold sizeofDNSMessageHeader at hptr
      exact fun hc => absurd hc.2 (by omega)
    have hread : (bumpCount pf count m').read (q + 8) 2 = big.bytes 2 (p - q - 10) := by
      rw [← read_congr hkept]
      exact hlen.read_eq (length_bytes ..)
    rw [hread, val_bytes_of _ (by omega)]
    omega

theorem recordEffect_none (count : Option Section) (hptr : sizeofDNSMessageHeader ≤ ptr)
    (hregistered : rr.recordType ≠ kDNSRecordTypeUnregistered)
    (hframe : ∀ a, a < ptr ∨ limit ≤ a → m' a = m a) :
    RecordEffect pf m ptr count rr limit (none, m') := by
  refine ⟨fun a ha _ => hframe a ha, iff_of_false nofun hregistered, fun _ s => ?_, nofun, nofun⟩
  exact countOf_congr s fun a ha => hframe a (.inl (ha.trans_le hptr))

end Frame

/-- For every record, `PutResourceRecordTTLWithLimit` keeps to its room, puts the length of the
rdata in front of it, and counts the record exactly when it has put it. -/
theorem putResourceRecordTTLWithLimit_effect (pf : Platform) (m : Mem) (ptr : ℕ)
    (count : Option Section) (rr : ResourceRecord) (ttl : UInt32) (limit : ℕ)
    (hptr : sizeofDNSMessageHeader ≤ ptr) : RecordEffect pf m ptr count rr limit
      (putResourceRecordTTLWithLimit pf m ptr count rr ttl limit) := by
  by_cases hregistered : rr.recordType = kDNSRecordTypeUnregistered
  · rw [putResourceRecordTTLWithLimit, if_pos hregistered]
    refine ⟨fun _ _ _ => rfl, iff_of_true rfl hregistered, fun _ _ => rfl, ?_, ?_⟩
    all_goals
      rintro p ⟨⟩ hne
      exact absurd rfl hne
  have hname : WritesWithin m ptr limit (putDomainNameAsLabels true m ptr limit rr.name 0) :=
    within_putLabels true 0
  rw [putResourceRecordTTLWithLimit, if_neg hregistered]
  rcases hy : putDomainNameAsLabels true m ptr limit rr.name 0 with ⟨_ | q, m₁⟩
  · rw [hy] at hname
    exact recordEffect_none count hptr hregistered hname.frame
  rw [hy] at hname
  have hptrq : ptr ≤ q := (hname.position q rfl).1
  dsimp only
  split
  · exact recordEffect_none count hptr hregistered hname.frame
  have hdata : WritesWithin (m₁.write q (recordHead rr ttl)) (q + 10) limit
      (putRData pf true (m₁.write q (recordHead rr ttl)) (q + 10) limit rr) :=
    within_putRData true rr (by omega)
  rcases hz : putRData pf true (m₁.write q (recordHead rr ttl)) (q + 10) limit rr with ⟨y, m₂⟩
  rw [hz] at hdata
  -- The name, the head and the rdata together change nothing outside of the room.
  have hall : WritesWithin m ptr limit (y, m₂) := by
    refine hname.bind (fun _ h => ?_) fun p m' h _ => ?_
    · cases h
    · cases h
      exact .store (show (recordHead rr ttl).length ≤ 10 by simp) (by omega) hdata
  obtain _ | p := y
  · exact recordEffect_none count hptr hregistered hall.frame
  obtain ⟨hqp, hp⟩ := hdata.position p rfl
  have heffect : RecordEffect pf m ptr count rr limit (some p, bumpCount pf count
      (m₂.write (q + 8) (big.bytes 2 (p - q - 10)))) := by
    refine recordEffect_count count hptr hregistered (fun a ha => ?_) hp (by rw [hy]) hptrq hqp
      (holds_write ..)
    rw [← show m₂ a = m a from hall.frame a ha]
    rcases ha with ha | ha
    · exact write_of_lt (by omega)
    · exact write_of_le (by rw [length_bytes]; omega)
  cases count <;> exact heffect

theorem addressRecord_effect :
    (putResourceRecordTTLWithLimit littlePlatform (ofList []) 12 (some .answers)
        (rootRecord 1 4 (ofList [10, 0, 0, 1])) 120 1452).1 = some 27 ∧
      RecordEffect littlePlatform (ofList []) 12 (some .answers)
        (rootRecord 1 4 (ofList [10, 0, 0, 1])) 1452
        (putResourceRecordTTLWithLimit littlePlatform (ofList []) 12 (some .answers)
          (rootRecord 1 4 (ofList [10, 0, 0, 1])) 120 1452) :=
  ⟨by decide +kernel, putResourceRecordTTLWithLimit_effect littlePlatform (ofList []) 12
    (some .answers) (rootRecord 1 4 (ofList [10, 0, 0, 1])) 120 1452 (by decide)⟩

end Hexley.Dns
