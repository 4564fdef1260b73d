import Hexley.Dns.Put
import Hexley.Dns.Unpack

/-!
How a name is written, and what it takes to read it back.

`putDomainNameAsLabels` copies the labels of a name one by one, until the rest
of the name is found in the part of the message that is there already. Then it
writes a pointer to that place (`nameForm`). `Matched` says that the rest of a
name is found at a position, and gives the set of the bytes that were compared
for that: labels, the pointers between them, and the zero byte at the end.

As long as these bytes and the bytes that were written stay as they are, the
name is read back (`NameWritten.nameRead`). It is read back exactly if its rest
is still spelled at that place (`nameKept_iff`).
-/

namespace Hexley.Dns

open Lib List Mem DomainName UInt8

def LabelAt (m : Mem) (p : ℕ) (l : List UInt8) : Prop := m.Holds p (ofNat l.length :: l)

/-- The labels are found at `targ` before `stop`, and the bytes that had to be
compared are `s`. -/
inductive Matched (m : Mem) (stop : ℕ) : ℕ → List (List UInt8) → Set ℕ → Prop
  | last {targ : ℕ} {l : List UInt8} (hlt : targ + l.length < stop) (hl : LabelAt m targ l)
      (hz : m (targ + 1 + l.length) = 0) :
      Matched m stop targ [l] (Set.Icc targ (targ + 1 + l.length))
  | next {targ : ℕ} {l l' : List UInt8} {ls : List (List UInt8)} {s : Set ℕ}
      (hlt : targ + l.length < stop) (hl : LabelAt m targ l)
      (rest : Matched m stop (targ + 1 + l.length) (l' :: ls) s) :
      Matched m stop targ (l :: l' :: ls) (Set.Icc targ (targ + l.length) ∪ s)
  | jump {targ : ℕ} {l l' : List UInt8} {ls : List (List UInt8)} {s : Set ℕ}
      (hlt : targ + 1 + l.length + 1 < stop) (hl : LabelAt m targ l)
      (hk : labelKind (m (targ + 1 + l.length)) = .pointer)
      (hback : target m (targ + 1 + l.length) ≤ targ + 1 + l.length)
      (rest : Matched m stop (target m (targ + 1 + l.length)) (l' :: ls) s) :
      Matched m stop targ (l :: l' :: ls) (Set.Icc targ (targ + 1 + l.length + 1) ∪ s)

variable {m nm m' : Mem} {stop targ np : ℕ} {l : List UInt8} {ls : List (List UInt8)} {s : Set ℕ}

theorem labelAt_iff (hl : LabelAt nm np l) :
    m.read targ (l.length + 1) = nm.read np (l.length + 1) ↔ LabelAt m targ l := by
  rw [hl.read_eq (by simp)]
  exact Iff.rfl

theorem LabelAt.toNat_first (hl : LabelAt m targ l) (hle : l.length ≤ maxDomainLabel) :
    (m targ).toNat = l.length := by
  rw [(holds_cons.mp hl).1, toNat_label hle]

theorem LabelAt.first_ne_zero (hl : LabelAt m targ l) (hpos : 0 < l.length)
    (hle : l.length ≤ maxDomainLabel) : m targ ≠ 0 := by
  rw [(holds_cons.mp hl).1]
  exact label_ne_zero hpos hle

theorem labelAt_of_labels (hnm : nm.Holds np (wire (l :: ls) ++ [0])) :
    LabelAt nm np l ∧ nm.Holds (np + 1 + l.length) (wire ls ++ [0]) := by
  rw [label_cons, append_assoc, holds_append] at hnm
  rwa [add_assoc, add_comm 1]

theorem exists_matched_of_from {fuel : ℕ} (hls : LabelsFit ls) (hne : ls ≠ [])
    (hnm : nm.Holds np (wire ls ++ [0]))
    (hmatch : matchesNameFrom m stop nm fuel targ np = true) : ∃ s, Matched m stop targ ls s := by
  induction ls generalizing fuel targ np with
  | nil => exact absurd rfl hne
  | cons l ls ih =>
    obtain _ | fuel := fuel
    · cases hmatch
    obtain ⟨hpos, hle⟩ := hls l mem_cons_self
    obtain ⟨hl, hnext⟩ := labelAt_of_labels hnm
    unfold matchesNameFrom at hmatch
    dsimp only at hmatch
    rw [hl.toNat_first hle] at hmatch
    split at hmatch
    swap
    · cases hmatch
    rename_i hcond
    obtain ⟨hlt, hread⟩ := hcond
    have hat : LabelAt m targ l := (labelAt_iff hl).mp hread
    cases ls with
    | nil =>
      have hz : nm (np + 1 + l.length) = 0 := (holds_cons.mp hnext).1
      rw [if_pos hz, decide_eq_true_iff] at hmatch
      exact ⟨_, .last hlt hat hmatch⟩
    | cons l' ls =>
      obtain ⟨hpos', hle'⟩ := hls l' (by simp)
      have hrest (t : ℕ) (h : matchesNameFrom m stop nm fuel t (np + 1 + l.length) = true) :
          ∃ s, Matched m stop t (l' :: ls) s :=
        ih hls.tail (cons_ne_nil _ _) hnext h
      rw [if_neg ((labelAt_of_labels hnext).1.first_ne_zero hpos' hle')] at hmatch
      cases hk : labelKind (m (targ + 1 + l.length)) with
      | label =>
        rw [hk] at hmatch
        obtain ⟨s, hs⟩ := hrest _ hmatch
        exact ⟨_, .next hlt hat hs⟩
      | extended | illegal =>
        rw [hk] at hmatch
        cases hmatch
      | pointer =>
        rw [hk] at hmatch
        dsimp only at hmatch
        split at hmatch
        · cases hmatch
        split at hmatch
        · cases hmatch
        split at hmatch
        · cases hmatch
        obtain ⟨s, hs⟩ := hrest _ hmatch
        exact ⟨_, .jump (by omega) hat hk (by unfold target; omega) hs⟩

theorem findFrom_some {result r : ℕ} (h : findCompressionPointerFrom m stop nm np result = some r) :
    r ≤ result ∧ matchesNameFrom m stop nm maxDomainName r np = true := by
  induction result with
  | zero =>
    rw [findCompressionPointerFrom] at h
    split at h
    · cases h
      exact ⟨le_rfl, by assumption⟩
    · cases h
  | succ result ih =>
    rw [findCompressionPointerFrom] at h
    split at h
    · cases h
      exact ⟨le_rfl, by assumption⟩
    · obtain ⟨hle, hmatch⟩ := ih h
      exact ⟨Nat.le_succ_of_le hle, hmatch⟩

/-- A position that `FindCompressionPointer` returns lies before the end, and the
name is found there. -/
theorem exists_matched_of_find {r : ℕ} (hls : LabelsFit ls) (hnm : nm.Holds np (wire ls ++ [0]))
    (h : findCompressionPointer m stop nm np = some r) :
    r < stop ∧ ls ≠ [] ∧ ∃ s, Matched m stop r ls s := by
  unfold findCompressionPointer at h
  split at h
  · cases h
  rename_i hcond
  obtain ⟨hz, hlt⟩ := not_or.mp hcond
  obtain ⟨hle, hmatch⟩ := findFrom_some h
  have hne : ls ≠ [] := by
    rintro rfl
    exact hz (holds_cons.mp hnm).1
  exact ⟨by omega, hne, exists_matched_of_from hls hne hnm hmatch⟩

/-! ### What the search depends on -/

section

variable {nm' : Mem} {np' : ℕ} (hnm : nm.Holds np (wire ls ++ [0]))
  (hnm' : nm'.Holds np' (wire ls ++ [0]))
include hnm hnm'

theorem first_eq_of_labels : nm np = nm' np' := by
  cases ls with
  | nil => rw [(holds_cons.mp hnm).1, (holds_cons.mp hnm').1]
  | cons l ls => rw [(holds_cons.mp (labelAt_of_labels hnm).1).1,
      (holds_cons.mp (labelAt_of_labels hnm').1).1]

theorem matchesFrom_congr {fuel : ℕ} (hls : LabelsFit ls) (hne : ls ≠ []) :
    matchesNameFrom m stop nm fuel targ np = matchesNameFrom m stop nm' fuel targ np' := by
  induction ls generalizing fuel targ np np' with
  | nil => exact absurd rfl hne
  | cons l ls ih =>
    obtain _ | fuel := fuel
    · rfl
    have hle := (hls l mem_cons_self).2
    obtain ⟨hl, hnext⟩ := labelAt_of_labels hnm
    obtain ⟨hl', hnext'⟩ := labelAt_of_labels hnm'
    unfold matchesNameFrom
    dsimp only
    rw [hl.toNat_first hle, hl'.toNat_first hle, hl.read_eq (by simp), hl'.read_eq (by simp),
      first_eq_of_labels hnext hnext']
    cases ls with
    | nil => rw [if_pos (holds_cons.mp hnext').1, if_pos (holds_cons.mp hnext').1]
    | cons l' ls => simp only [ih hnext hnext' hls.tail (cons_ne_nil _ _)]

theorem find_congr (hls : LabelsFit ls) (hne : ls ≠ []) :
    findCompressionPointer m stop nm np = findCompressionPointer m stop nm' np' := by
  have hfrom (result : ℕ) : findCompressionPointerFrom m stop nm np result =
      findCompressionPointerFrom m stop nm' np' result := by
    induction result <;>
      simp only [findCompressionPointerFrom, matchesFrom_congr hnm hnm' hls hne, *]
  rw [findCompressionPointer, findCompressionPointer, first_eq_of_labels hnm hnm', hfrom]

end

/-! ### Reading a match back -/

section Matched

variable {stop' : ℕ}

theorem Matched.mem_first (h : Matched m stop targ ls s) : targ ∈ s := by
  cases h with
  | last => exact ⟨le_rfl, by omega⟩
  | next | jump => exact .inl ⟨le_rfl, by omega⟩

theorem Matched.le (h : Matched m stop targ ls s) : ∀ x ∈ s, x ≤ stop := by
  induction h with
  | last hlt hl hz =>
    intro x hx
    have := hx.2
    omega
  | next hlt hl rest ih | jump hlt hl hk hback rest ih =>
    rintro x (hx | hx)
    · exact (hx.2.trans_lt hlt).le
    · exact ih x hx

theorem LabelAt.congr (h : LabelAt m targ l)
    (heq : Set.EqOn m m' (Set.Icc targ (targ + l.length))) :
    LabelAt m' targ l := by
  refine Mem.Holds.congr h (heq.mono ?_)
  intro x hx
  exact ⟨hx.1, Nat.le_of_lt_succ hx.2⟩

theorem Matched.congr (h : Matched m stop targ ls s) (heq : Set.EqOn m m' s) :
    Matched m' stop targ ls s := by
  induction h with
  | last hlt hl hz =>
    refine .last hlt (hl.congr (heq.mono (Set.Icc_subset_Icc_right (by omega)))) ?_
    rw [← heq ⟨by omega, le_rfl⟩, hz]
  | next hlt hl rest ih =>
    exact .next hlt (hl.congr (heq.mono Set.subset_union_left))
      (ih (heq.mono Set.subset_union_right))
  | @jump targ l l' ls s hlt hl hk hback rest ih =>
    have heq₁ := heq.mono Set.subset_union_left
    have hfirst : m (targ + 1 + l.length) = m' (targ + 1 + l.length) := heq₁ ⟨by omega, by omega⟩
    have htarget : target m (targ + 1 + l.length) = target m' (targ + 1 + l.length) := by
      rw [target, target, hfirst, heq₁ ⟨by omega, le_rfl⟩]
    have hrest := ih (heq.mono Set.subset_union_right)
    rw [htarget] at hrest hback
    exact .jump hlt (hl.congr (heq₁.mono (Set.Icc_subset_Icc_right (by omega))))
      (hfirst ▸ hk) hback hrest

theorem LabelAt.labelFits (h : LabelAt m targ l) (hpos : 0 < l.length)
    (hle : l.length ≤ maxDomainLabel) (hinside : targ + 1 + l.length < stop)
    (hroom : np + 1 + l.length < maxDomainName) : LabelFits m stop targ np := by
  have hlen := h.toNat_first hle
  refine ⟨h.first_ne_zero hpos hle, ?_, by rwa [hlen], by rwa [hlen]⟩
  rw [labelKind_label_iff, hlen]
  exact Nat.lt_succ_of_le hle

theorem LabelAt.labelKind (h : LabelAt m targ l) (hle : l.length ≤ maxDomainLabel) :
    labelKind (m targ) = .label := by
  rw [labelKind_label_iff, h.toNat_first hle]
  exact Nat.lt_succ_of_le hle

theorem Matched.labelKind (h : Matched m stop targ ls s) (hls : LabelsFit ls) :
    labelKind (m targ) = .label := by
  cases h with
  | last _ hl | next _ hl | jump _ hl => exact hl.labelKind (hls _ mem_cons_self).2

theorem LabelAt.spelled (h : LabelAt m targ l) (hpos : 0 < l.length)
    (hle : l.length ≤ maxDomainLabel)
    (hinside : targ + 1 + l.length < stop) (hroom : np + 1 + l.length < maxDomainName)
    (rest : Spelled m stop (targ + 1 + l.length) (np + 1 + l.length) ls) :
    Spelled m stop targ np (l :: ls) := by
  have hlen := h.toNat_first hle
  have hspelled : Spelled m stop targ np (m.read (targ + 1) (m targ).toNat :: ls) :=
    .label (h.labelFits hpos hle hinside hroom) (by rwa [hlen])
  rwa [hlen, (holds_cons.mp h).2] at hspelled

theorem LabelAt.of_spelled (h : LabelAt m targ l) (hpos : 0 < l.length)
    (hle : l.length ≤ maxDomainLabel) (hs : Spelled m stop targ np ls) :
    ∃ ls', ls = l :: ls' ∧ Spelled m stop (targ + 1 + l.length) (np + 1 + l.length) ls' := by
  cases hs with
  | root hz => exact absurd hz (h.first_ne_zero hpos hle)
  | label hl rest =>
    rw [h.toNat_first hle] at rest ⊢
    exact ⟨_, by rw [(holds_cons.mp h).2], rest⟩
  | pointer hp => exact absurd ((h.labelKind hle).symm.trans hp.kind) (by decide)

theorem Matched.spelled (h : Matched m stop targ ls s) (hls : LabelsFit ls)
    (hs : ∀ x ∈ s, x < stop') (hnp : np + (wire ls).length < maxDomainName) :
    Spelled m stop' targ np ls := by
  induction h generalizing np with
  | @last targ l hlt hl hz =>
    obtain ⟨hpos, hle⟩ := hls l mem_cons_self
    simp only [length_label_cons] at hnp
    exact hl.spelled hpos hle (hs _ ⟨by omega, le_rfl⟩) (by omega) (.root hz)
  | @next targ l l' ls s hlt hl rest ih =>
    obtain ⟨hpos, hle⟩ := hls l mem_cons_self
    rw [length_label_cons] at hnp
    exact hl.spelled hpos hle (hs _ (.inr rest.mem_first)) (by omega)
      (ih hls.tail (fun x hx => hs x (.inr hx)) (by omega))
  | @jump targ l l' ls s hlt hl hk hback rest ih =>
    obtain ⟨hpos, hle⟩ := hls l mem_cons_self
    rw [length_label_cons] at hnp
    exact hl.spelled hpos hle (hs _ (.inl ⟨by omega, by omega⟩)) (by omega)
      (.pointer ⟨hk, hs _ (.inr rest.mem_first), rest.labelKind hls.tail⟩
        (ih hls.tail (fun x hx => hs x (.inr hx)) (by omega)))

end Matched

/-! ### Writing a name -/

/-- The bytes `bs` are a way to write the labels at `ptr`. If they end with a
pointer, the bytes that were compared are `s`. -/
inductive NameWritten (m : Mem) (ptr : ℕ) (ls : List (List UInt8)) : List UInt8 → Set ℕ → Prop
  | whole : NameWritten m ptr ls (wire ls ++ [0]) ∅
  | pointer {ls₁ ls₂ : List (List UInt8)} {r : ℕ} {s : Set ℕ} (hls : ls = ls₁ ++ ls₂)
      (hne : ls₂ ≠ []) (hr : r < ptr)
      (hs : Matched (m.write ptr (wire ls₁)) ptr r ls₂ s) :
      NameWritten m ptr ls (wire ls₁ ++ pointerBytes r) s

/-- The labels `ls₂` of a name are put at `ptr` behind the labels `ls₁`: the first rest of the
name that is found in the message is given by the labels before it and the position. -/
def compressionFrom (m : Mem) (ptr : ℕ) (ls₁ : List (List UInt8)) :
    List (List UInt8) → Option (List (List UInt8) × ℕ)
  | [] => none
  | l :: ls₂ =>
    match findCompressionPointer (m.write ptr (wire ls₁)) ptr
        (ofList (wire (l :: ls₂) ++ [0])) 0 with
    | some r => some (ls₁, r)
    | none => compressionFrom m ptr (ls₁ ++ [l]) ls₂

def compression (m : Mem) (ptr : ℕ) (d : DomainName) : Option (List (List UInt8) × ℕ) :=
  compressionFrom m ptr [] d.labels

/-- The bytes that a name is written as at `ptr`, with compression. -/
def nameForm (m : Mem) (ptr : ℕ) (d : DomainName) : List UInt8 :=
  match compression m ptr d with
  | some (ls₁, r) => wire ls₁ ++ pointerBytes r
  | none => d.bytes

section Writing

variable {ptr limit start : ℕ} {d : DomainName} {bs : List UInt8} {ls₁ ls₂ : List (List UInt8)}

theorem DomainName.labelsFit_right (hd : d.labels = ls₁ ++ ls₂) : LabelsFit ls₂ :=
  fun l hl => d.labelsFit l (hd ▸ mem_append_right ls₁ hl)

theorem DomainName.bytes_eq (hd : d.labels = ls₁ ++ ls₂) :
    d.bytes = wire ls₁ ++ (wire ls₂ ++ [0]) := by
  rw [bytes, hd, label_append, append_assoc]

theorem two_le_length_label (hls : LabelsFit ls) (hne : ls ≠ []) : 2 ≤ (wire ls).length := by
  cases ls with
  | nil => exact absurd rfl hne
  | cons l ls =>
    have := (hls l mem_cons_self).1
    rw [length_label_cons]
    omega

/-- What can become of a name that is put at `ptr`. Besides being written or having no room,
it can be cut: if a label ends before the last byte of the room, the root is put there. -/
inductive NameOutcome (compress : Bool) (limit : ℕ) (m : Mem) (ptr : ℕ) (d : DomainName) :
    Option ℕ × Mem → Prop
  | written {bs : List UInt8} {s : Set ℕ} (hw : NameWritten m ptr d.labels bs s)
      (hle : ptr + bs.length ≤ limit) (hc : compress = false → bs = d.bytes)
      (hform : compress = true → bs = nameForm m ptr d) :
      NameOutcome compress limit m ptr d (some (ptr + bs.length), m.write ptr bs)
  | cut {ls₁ ls₂ : List (List UInt8)} (hd : d.labels = ls₁ ++ ls₂) (hne : ls₂ ≠ [])
      (hend : ptr + (wire ls₁).length + 1 = limit) :
      NameOutcome compress limit m ptr d (some limit, m.write ptr (wire ls₁ ++ [0]))
  | failed {m' : Mem} (heq : Set.EqOn m m' (Set.Iio ptr))
      (hroom : limit < ptr + d.bytes.length) : NameOutcome compress limit m ptr d (none, m')

theorem eqOn_below : Set.EqOn m (m.write ptr bs) (Set.Iio ptr) := fun _ hx => (write_of_lt hx).symm

theorem putLabelsFrom_outcome {fuel : ℕ} (compress : Bool) (hd : d.labels = ls₁ ++ ls₂)
    (hnm : NameAt nm start d) (hfuel : (wire ls₂).length < fuel)
    (hfrom : compress = true → compression m ptr d = compressionFrom m ptr ls₁ ls₂) :
    NameOutcome compress limit m ptr d
      (putLabelsFrom compress ptr limit nm start fuel (start + (wire ls₁).length)
        (ptr + (wire ls₁).length) (m.write ptr (wire ls₁))) := by
  induction ls₂ generalizing ls₁ fuel with
  | nil =>
    have hbytes := d.bytes_eq hd
    have hrest : nm (start + (wire ls₁).length) = 0 := by
      rw [NameAt, hbytes] at hnm
      exact (holds_cons.mp (holds_append.mp hnm).2).1
    rcases fuel with _ | fuel
    · omega
    rw [putLabelsFrom, if_neg fun hc => hc.1 hrest]
    have hsum : d.bytes.length = (wire ls₁).length + 1 := by rw [hbytes, length_append]; rfl
    split
    · have h : NameOutcome compress limit m ptr d
          (some (ptr + d.bytes.length), m.write ptr d.bytes) :=
        .written .whole (show ptr + d.bytes.length ≤ limit by omega) (fun _ => rfl)
          fun hc => by rw [nameForm, hfrom hc, compressionFrom]
      rw [hbytes, write_append, length_append] at h
      exact h
    · refine .failed eqOn_below ?_
      omega
  | cons l ls₂ ih =>
    have hbytes := d.bytes_eq hd
    have hfit := d.labelsFit_right hd
    have hlen := d.length_bytes_le
    have hrest : nm.Holds (start + (wire ls₁).length) (wire (l :: ls₂) ++ [0]) := by
      rw [NameAt, hbytes] at hnm
      exact (holds_append.mp hnm).2
    have hcons : (wire (l :: ls₂)).length = l.length + 1 + (wire ls₂).length := by
      rw [length_label_cons]
    have hsum : d.bytes.length = (wire ls₁).length + (l.length + 1 + (wire ls₂).length + 1) := by
      rw [hbytes, length_append, length_append, hcons, length_singleton]
    rcases fuel with _ | fuel
    · omega
    obtain ⟨hpos, hle⟩ := hfit l mem_cons_self
    have hat := (labelAt_of_labels hrest).1
    by_cases hroom : ptr + (wire ls₁).length + 1 < limit
    swap
    · rw [putLabelsFrom, if_neg fun hc => hroom hc.2]
      split
      · have hend : ptr + (wire ls₁).length + 1 = limit := by omega
        have h : NameOutcome compress limit m ptr d _ := .cut hd (cons_ne_nil l ls₂) hend
        rw [write_append] at h
        rw [hend]
        exact h
      · refine .failed eqOn_below ?_
        omega
    rw [putLabelsFrom, if_pos ⟨hat.first_ne_zero hpos hle, hroom⟩]
    rw [hat.toNat_first hle, if_neg (not_lt.mpr hle), if_neg (by omega)]
    have hsearch : findCompressionPointer (m.write ptr (wire ls₁)) ptr
        (ofList (wire (l :: ls₂) ++ [0])) 0 = findCompressionPointer
          (m.write ptr (wire ls₁)) ptr nm (start + (wire ls₁).length) :=
      find_congr (holds_ofList _) hrest hfit (cons_ne_nil _ _)
    cases hfind : if compress = true then findCompressionPointer (m.write ptr (wire ls₁))
        ptr nm (start + (wire ls₁).length) else none with
    | some r =>
      have hcomp : compress = true := by
        by_contra hc
        rw [if_neg hc] at hfind
        cases hfind
      rw [if_pos hcomp] at hfind
      obtain ⟨hr, hne, s, hs⟩ := exists_matched_of_find hfit hrest hfind
      have hlen₂ : (wire ls₁ ++ pointerBytes r).length = (wire ls₁).length + 2 :=
        length_append
      have h : NameOutcome compress limit m ptr d (some _, m.write ptr _) :=
        .written (.pointer hd hne hr hs) (by omega)
          (fun hc => absurd (hc.symm.trans hcomp) Bool.false_ne_true)
          fun hc => by rw [nameForm, hfrom hc, compressionFrom, hsearch, hfind]
      rw [write_append, hlen₂] at h
      exact h
    | none =>
      have hnext : wire (ls₁ ++ [l]) = wire ls₁ ++ (ofNat l.length :: l) := by
        simp [wire]
      have hnextlen : (wire (ls₁ ++ [l])).length = (wire ls₁).length + 1 + l.length := by
        rw [hnext, length_append, length_cons]
        omega
      dsimp only
      split
      · refine .failed eqOn_below ?_
        omega
      rw [hat.read_eq (by simp)]
      have hd' : d.labels = ls₁ ++ [l] ++ ls₂ := by simp [hd]
      have h := ih hd' (show _ < fuel by omega) fun hc => by
        rw [if_pos hc] at hfind
        rw [hfrom hc, compressionFrom, hsearch, hfind]
      rw [hnext, write_append, ← hnext, hnextlen] at h
      simp only [← add_assoc] at h
      exact h

theorem putLabels_outcome (compress : Bool) (hnm : NameAt nm start d) :
    NameOutcome compress limit m ptr d (putDomainNameAsLabels compress m ptr limit nm start) := by
  have hlen := d.length_lt
  have h : NameOutcome compress limit m ptr d (putLabelsFrom _ ptr _ _ _ _ _ _ _) :=
    putLabelsFrom_outcome compress (nil_append d.labels).symm hnm
      (show _ < maxDomainName + 1 by omega) fun _ => rfl
  rwa [show wire [] = [] from rfl, write_nil] at h

/-- A label of the name does not end before the last byte of the room, unless it is the last
label. -/
def Uncut (limit ptr : ℕ) (d : DomainName) : Prop :=
  ∀ ls₁ ls₂, d.labels = ls₁ ++ ls₂ → ls₂ ≠ [] → ptr + (wire ls₁).length + 1 ≠ limit

theorem uncut_of_room (hroom : ptr + d.bytes.length ≤ limit) : Uncut limit ptr d := by
  intro ls₁ ls₂ hd hne hend
  have := two_le_length_label (d.labelsFit_right hd) hne
  rw [d.bytes_eq hd, length_append, length_append] at hroom
  omega

theorem compressionFrom_some {r : ℕ} {ls₁' : List (List UInt8)} (hd : d.labels = ls₁ ++ ls₂)
    (h : compressionFrom m ptr ls₁ ls₂ = some (ls₁', r)) :
    ∃ ls₂', d.labels = ls₁' ++ ls₂' ∧ ls₂' ≠ [] ∧ r < ptr := by
  induction ls₂ generalizing ls₁ with
  | nil => cases h
  | cons l ls₂ ih =>
    rw [compressionFrom] at h
    split at h
    · next hfind =>
      cases h
      exact ⟨_, hd, cons_ne_nil l ls₂,
        (exists_matched_of_find (d.labelsFit_right hd) (holds_ofList _) hfind).1⟩
    · exact ih (by simp [hd]) h

section Labels

variable {pos : ℕ} (hls : LabelsFit ls₁) (hm : m.Holds pos (wire ls₁))
  (hpos : pos + (wire ls₁).length < stop) (hnp : np + (wire ls₁).length < maxDomainName)
include hls hm hpos hnp

/-- Labels that stand in the message are read before everything else. -/
theorem spelled_append : Spelled m stop pos np ls ↔ ∃ ls₂, ls = ls₁ ++ ls₂ ∧
    Spelled m stop (pos + (wire ls₁).length) (np + (wire ls₁).length) ls₂ := by
  induction ls₁ generalizing pos np ls with
  | nil => simp [wire]
  | cons l ls₁ ih =>
    obtain ⟨hlpos, hlle⟩ := hls l mem_cons_self
    obtain ⟨hat, hrest⟩ := holds_append.mp hm
    rw [length_label_cons] at hpos hnp ⊢
    rw [length_cons, add_comm l.length, ← add_assoc] at hrest
    have ih' (ls : List (List UInt8)) := @ih (np + 1 + l.length) ls (pos + 1 + l.length) hls.tail
      hrest (by omega) (by omega)
    rw [add_comm l.length 1, ← add_assoc, ← add_assoc, ← add_assoc, ← add_assoc]
    constructor
    · intro h
      obtain ⟨ls', rfl, hs⟩ := LabelAt.of_spelled hat hlpos hlle h
      obtain ⟨ls₂, rfl, hs'⟩ := (ih' ls').mp hs
      exact ⟨ls₂, rfl, hs'⟩
    · rintro ⟨ls₂, rfl, hs⟩
      exact LabelAt.spelled hat hlpos hlle (by omega) (by omega) ((ih' _).mpr ⟨ls₂, rfl, hs⟩)

theorem nameEnd_append {p : ℕ}
    (h : NameEnd m stop (pos + (wire ls₁).length) (np + (wire ls₁).length) p) :
    NameEnd m stop pos np p := by
  induction ls₁ generalizing pos np with
  | nil => exact h
  | cons l ls₁ ih =>
    obtain ⟨hlpos, hlle⟩ := hls l mem_cons_self
    obtain ⟨hat, hrest⟩ := holds_append.mp hm
    rw [length_label_cons] at hpos hnp
    rw [length_label_cons, add_comm l.length 1, ← add_assoc, ← add_assoc, ← add_assoc,
      ← add_assoc] at h
    rw [length_cons, add_comm l.length, ← add_assoc] at hrest
    refine .label (LabelAt.labelFits hat hlpos hlle (by omega) (by omega)) ?_
    rw [LabelAt.toNat_first hat hlle]
    exact ih hls.tail hrest (by omega) (by omega) h

end Labels

theorem pointerBytes_target {p r : ℕ} (hr : r < 0x4000) (hm : m.Holds p (pointerBytes r)) :
    labelKind (m p) = .pointer ∧ target m p = r := by
  obtain ⟨hfirst, hsecond⟩ := holds_cons.mp hm
  have hsecond := (holds_cons.mp hsecond).1
  have hhi : (ofNat (r / 256)).toNat = r / 256 :=
    toNat_ofNat_of_lt' (show r / 256 < 256 by omega)
  have hor : (0xC0 ||| ofNat (r / 256)).toNat = 192 + r / 256 := by
    rw [UInt8.toNat_or, hhi]
    exact (Nat.two_pow_add_eq_or_of_lt (i := 6) (show r / 256 < 2 ^ 6 by omega) 3).symm
  have hlo : (ofNat r).toNat = r % 256 := toNat_ofNat'
  refine ⟨?_, ?_⟩
  · rw [hfirst, labelKind_pointer_iff, hor]
    omega
  · rw [target, hfirst, hsecond, pointerOffset, hor, hlo]
    omega

/-- The bytes of a name that end with a pointer to `r`, and what is read from them. -/
theorem spelled_pointer {pos r : ℕ} (ls : List (List UInt8)) (hls : LabelsFit ls₁)
    (hbs : m.Holds pos (wire ls₁ ++ pointerBytes r))
    (hpos : pos + (wire ls₁).length + 2 ≤ stop)
    (hnp : (wire ls₁).length < maxDomainName) (hr : r < stop) (hr' : r < 0x4000) :
    NameEnd m stop pos 0 (pos + (wire ls₁).length + 2) ∧
      (Spelled m stop pos 0 ls ↔ ∃ ls₂, ls = ls₁ ++ ls₂ ∧ labelKind (m r) = .label ∧
        Spelled m stop r (wire ls₁).length ls₂) := by
  obtain ⟨hlabels, hpointer⟩ := holds_append.mp hbs
  obtain ⟨hkind, htarget⟩ := pointerBytes_target hr' hpointer
  refine ⟨nameEnd_append hls hlabels (by omega) (by omega) (.pointer hkind), ?_⟩
  rw [spelled_append hls hlabels (by omega) (by omega), zero_add]
  refine exists_congr fun ls₂ => and_congr_right fun _ => ⟨fun h => ?_, fun ⟨hlabel, h⟩ => ?_⟩
  · cases h with
    | root hz => exact absurd hz (ne_zero_of_pointer hkind)
    | label hl => exact absurd (hl.kind.symm.trans hkind) (by decide)
    | pointer hp rest =>
      rw [← htarget]
      exact ⟨hp.label, rest⟩
  · rw [← htarget] at hr hlabel h
    exact .pointer ⟨hkind, hr, hlabel⟩ h

theorem nameRead_whole (hbs : m.Holds ptr d.bytes) (hstop : ptr + d.bytes.length ≤ stop) :
    NameRead m stop ptr (ptr + d.bytes.length) d := by
  have hlen := d.length_lt
  rw [bytes, length_append, length_singleton] at hstop ⊢
  obtain ⟨hlabels, hzero⟩ := holds_append.mp hbs
  have hz : m (ptr + (wire d.labels).length) = 0 := (holds_cons.mp hzero).1
  exact ⟨by omega, (spelled_append d.labelsFit hlabels (by omega) (by omega)).mpr
    ⟨[], (append_nil _).symm, .root hz⟩,
    nameEnd_append d.labelsFit hlabels (by omega) (by omega) (.root hz)⟩

theorem DomainName.fit_left (hd : d.labels = ls₁ ++ ls₂) :
    LabelsFit ls₁ ∧ (wire ls₁).length + (wire ls₂).length < maxDomainName := by
  have hlen := d.length_lt
  rw [hd, label_append, length_append] at hlen
  exact ⟨fun l hl => d.labelsFit l (hd ▸ mem_append_left ls₂ hl), by omega⟩

theorem NameWritten.nameRead (h : NameWritten m ptr d.labels bs s) (hs : ∀ x ∈ s, x < ptr)
    (hbs : m'.Holds ptr bs) (heq : Set.EqOn m m' s) (hstop : ptr + bs.length ≤ stop)
    (hptr : ptr ≤ 0x4000) : NameRead m' stop ptr (ptr + bs.length) d := by
  cases h with
  | whole => exact nameRead_whole hbs hstop
  | @pointer ls₁ ls₂ r _ hls hne hr hmatch =>
    have htwo : (pointerBytes r).length = 2 := rfl
    rw [length_append, ← add_assoc, htwo] at hstop ⊢
    obtain ⟨hfit₁, hlen⟩ := d.fit_left hls
    have hfit₂ : LabelsFit ls₂ := d.labelsFit_right hls
    -- The bytes that were compared lie before the name, so they are those of `m`.
    have hmatch' : Matched m' ptr r ls₂ s := by
      refine hmatch.congr fun x hx => ?_
      rw [write_of_lt (hs x hx)]
      exact heq hx
    obtain ⟨hend, hspelled⟩ := spelled_pointer d.labels hfit₁ hbs hstop
      (by omega) (by omega) (by omega)
    refine ⟨by omega, hspelled.mpr ⟨ls₂, hls, hmatch'.labelKind hfit₂, ?_⟩, hend⟩
    exact hmatch'.spelled hfit₂ (fun x hx => (hs x hx).trans_le (by omega)) hlen

/-! ### What is kept of a name -/

/-- A name was put at `ptr` of `m`. Where its rest was found, the message `m'` that ends at `stop`
has labels that agree with it in what `f` makes of them. -/
def NameKept (f : List UInt8 → List UInt8) (m' : Mem) (stop : ℕ) (m : Mem) (ptr : ℕ)
    (d : DomainName) : Prop :=
  ∀ ls₁ r, compression m ptr d = some (ls₁, r) → labelKind (m' r) = .label ∧
    ∃ ls, Spelled m' stop r (wire ls₁).length ls ∧ (ls₁ ++ ls).map f = d.labels.map f

theorem nameForm_cases (m : Mem) (ptr : ℕ) (d : DomainName) :
    (compression m ptr d = none ∧ nameForm m ptr d = d.bytes) ∨
      ∃ ls₁ ls₂ r, compression m ptr d = some (ls₁, r) ∧ d.labels = ls₁ ++ ls₂ ∧ ls₂ ≠ [] ∧
        r < ptr ∧ nameForm m ptr d = wire ls₁ ++ pointerBytes r := by
  unfold nameForm
  cases h : compression m ptr d with
  | none => exact .inl ⟨rfl, rfl⟩
  | some x =>
    obtain ⟨ls₂, hd, hne, hr⟩ := compressionFrom_some (nil_append d.labels).symm h
    exact .inr ⟨x.1, ls₂, x.2, rfl, hd, hne, hr, rfl⟩

theorem nameForm_ne_nil : nameForm m ptr d ≠ [] := by
  rcases nameForm_cases m ptr d with ⟨-, hform⟩ | ⟨ls₁, ls₂, r, -, -, -, -, hform⟩ <;>
    rw [hform] <;> simp [bytes, pointerBytes]

theorem length_nameForm_le (m : Mem) (ptr : ℕ) (d : DomainName) :
    (nameForm m ptr d).length ≤ d.bytes.length := by
  rcases nameForm_cases m ptr d with ⟨-, hform⟩ | ⟨ls₁, ls₂, r, -, hd, hne, -, hform⟩
  · rw [hform]
  · have := two_le_length_label (d.labelsFit_right hd) hne
    rw [hform, d.bytes_eq hd]
    simp only [length_append, pointerBytes, length_cons, length_nil]
    omega

theorem nameKept_iff (f : List UInt8 → List UInt8) (hbs : m'.Holds ptr (nameForm m ptr d))
    (hstop : ptr + (nameForm m ptr d).length ≤ stop) (hptr : ptr ≤ 0x4000) :
    (∀ e : DomainName, Spelled m' stop ptr 0 e.labels →
      NameRead m' stop ptr (ptr + (nameForm m ptr d).length) e) ∧
      (NameKept f m' stop m ptr d ↔
        ∃ ls, Spelled m' stop ptr 0 ls ∧ ls.map f = d.labels.map f) := by
  unfold NameKept
  rcases nameForm_cases m ptr d with ⟨hnone, hform⟩ | ⟨ls₁, ls₂, r, hsome, hd, hne, hr, hform⟩
  · rw [hform] at hbs hstop ⊢
    have hread := nameRead_whole hbs hstop
    refine ⟨fun e he => ⟨hread.lt, he, hread.ends⟩, fun _ => ⟨_, hread.spelled, rfl⟩, ?_⟩
    rintro - ls₁ r hsome
    rw [hnone] at hsome
    cases hsome
  · have htwo : (pointerBytes r).length = 2 := rfl
    rw [hform] at hbs hstop ⊢
    rw [length_append, ← add_assoc, htwo] at hstop ⊢
    obtain ⟨hfit, hlen⟩ := d.fit_left hd
    have hread (ls : List (List UInt8)) := spelled_pointer ls hfit hbs hstop
      (by omega) (by omega) (by omega)
    refine ⟨fun e he => ⟨by omega, he, (hread []).1⟩, fun h => ?_, ?_⟩
    · obtain ⟨hlabel, ls, hls, hsame⟩ := h ls₁ r hsome
      exact ⟨_, (hread _).2.mpr ⟨ls, rfl, hlabel, hls⟩, hsame⟩
    · rintro ⟨ls, hls, hsame⟩ ls₁' r' h
      obtain ⟨rfl, rfl⟩ : ls₁ = ls₁' ∧ r = r' := by
        rw [hsome] at h
        cases h
        exact ⟨rfl, rfl⟩
      obtain ⟨ls₂', rfl, hlabel, hls⟩ := (hread ls).2.mp hls
      exact ⟨hlabel, ls₂', hls, hsame⟩

theorem labels_eq_of_bytes {e : DomainName} (h : e.bytes = d.bytes) : e.labels = d.labels := by
  have hstop : 0 + d.bytes.length ≤ d.bytes.length := by omega
  have he : NameRead (ofList d.bytes) d.bytes.length 0 _ e :=
    nameRead_whole (h ▸ holds_ofList d.bytes) (h ▸ hstop)
  exact he.spelled.unique (nameRead_whole (holds_ofList d.bytes) hstop).spelled

end Writing

end Hexley.Dns
