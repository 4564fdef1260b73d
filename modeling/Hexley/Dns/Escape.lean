import Hexley.Dns.Text

/-!
The text of a name, and the way back.

`ConvertDomainNameToCString_withescape` writes every label followed by a dot.
A dot or an escape character in a label gets the escape character in front of
it, and a control character or a space is written as three decimal digits.
Whatever follows in the text, the scanner reads back the byte that was written
(`textChar_escapeByte`), so that the text of a name denotes its labels. The
text has at most four characters for a byte, and four labels at least are
needed for the longest name, which gives the size of the buffer.
-/

namespace Hexley.Dns

open Lib List UInt8 Mem DomainName

def maxEscapedDomainName : ℕ := 1005

/-- What `ConvertDomainLabelToCString_withescape` writes for one byte of the label. -/
def escapeByte (esc c : UInt8) : List UInt8 :=
  if esc ≠ 0 ∧ (c = dot ∨ c = esc) then [esc, c]
  else if esc ≠ 0 ∧ c ≤ 0x20 then
    [esc, ofNat (0x30 + c.toNat / 100), ofNat (0x30 + c.toNat / 10 % 10),
      ofNat (0x30 + c.toNat % 10)]
  else [c]

/-- `ConvertDomainLabelToCString_withescape`, on the label at `src`. -/
def convertDomainLabelToCString (nm : Mem) (src : ℕ) (out : Mem) (ptr : ℕ) (esc : UInt8) :
    Option ℕ × Mem :=
  let len := (nm src).toNat
  if len > maxDomainLabel then (none, out)
  else
    let text := (nm.read (src + 1) len).flatMap (escapeByte esc)
    (some (ptr + text.length), out.write ptr (text ++ [0]))

/-- The loop of `ConvertDomainNameToCString_withescape`, and the zero behind the text. -/
def convertLabelsFrom (nm : Mem) (esc : UInt8) (max : ℕ) : ℕ → ℕ → ℕ → Mem → Option ℕ × Mem
  | 0, _, _, out => (none, out)
  | fuel + 1, src, ptr, out =>
    if nm src = 0 then (some (ptr + 1), out.write ptr [0])
    else if src + 1 + (nm src).toNat ≥ max then (none, out)
    else
      match convertDomainLabelToCString nm src out ptr esc with
      | (none, out) => (none, out)
      | (some ptr, out) =>
        convertLabelsFrom nm esc max fuel (src + 1 + (nm src).toNat) (ptr + 1) (out.write ptr [dot])

/-- `ConvertDomainNameToCString_withescape`. The root is written as a dot. -/
def convertDomainNameToCString (nm out : Mem) (esc : UInt8) : Option ℕ × Mem :=
  if nm 0 = 0 then convertLabelsFrom nm esc maxDomainName maxDomainName 0 1 (out.write 0 [dot])
  else convertLabelsFrom nm esc maxDomainName maxDomainName 0 0 out

/-! ### Bytes -/

def labelText (l : List UInt8) : List UInt8 := l.flatMap (escapeByte backslash)

def labelsText (ls : List (List UInt8)) : List UInt8 := ls.flatMap fun l => labelText l ++ [dot]

theorem mdnsIsDigit_ofNat {n : ℕ} (h : n < 10) :
    mdnsIsDigit (ofNat (0x30 + n)) = true ∧ (ofNat (0x30 + n)).toNat = 0x30 + n := by
  have hn : (ofNat (0x30 + n)).toNat = 0x30 + n := toNat_ofNat_of_lt' (by
    have : (0x30 + n) < 256 := by omega
    exact this)
  refine ⟨?_, hn⟩
  rw [mdnsIsDigit, Bool.and_eq_true, decide_eq_true_iff, decide_eq_true_iff,
    le_iff_toNat_le, le_iff_toNat_le, hn]
  simp only [reduceToNat]
  omega

variable (b : UInt8)

theorem escape_backslash : escapeByte backslash b = if b = dot ∨ b = backslash then [backslash, b]
      else if b ≤ 0x20 then
        [backslash, ofNat (0x30 + b.toNat / 100), ofNat (0x30 + b.toNat / 10 % 10),
          ofNat (0x30 + b.toNat % 10)]
      else [b] := by
  have hne : backslash ≠ 0 := by decide
  simp only [escapeByte, hne, ne_eq, not_false_eq_true, true_and]

theorem textChar_escapeByte (rest : List UInt8) :
    TextChar (escapeByte backslash b ++ rest) b rest := by
  rw [escape_backslash]
  split
  case isTrue h =>
    have hdec : startsDecimal (b :: rest) = false := by
      have hno : mdnsIsDigit b = false := by
        rcases h with rfl | rfl
        · decide
        · decide
      match rest with
      | [] => rfl
      | [_] => rfl
      | _ :: _ :: _ => simp [startsDecimal, hno]
    exact .escaped hdec
  case isFalse h =>
    split
    case isTrue hle =>
      have hb : b.toNat < 100 := lt_of_le_of_lt (le_iff_toNat_le.mp hle) (by decide)
      obtain ⟨h₀, e₀⟩ := mdnsIsDigit_ofNat (n := b.toNat / 100) (by omega)
      obtain ⟨h₁, e₁⟩ := mdnsIsDigit_ofNat (n := b.toNat / 10 % 10) (by omega)
      obtain ⟨h₂, e₂⟩ := mdnsIsDigit_ofNat (n := b.toNat % 10) (by omega)
      have hval : decimalValue (ofNat (0x30 + b.toNat / 100))
          (ofNat (0x30 + b.toNat / 10 % 10)) (ofNat (0x30 + b.toNat % 10)) = b.toNat := by
        rw [decimalValue, e₀, e₁, e₂]
        omega
      have hdec : startsDecimal (ofNat (0x30 + b.toNat / 100) ::
          ofNat (0x30 + b.toNat / 10 % 10) :: ofNat (0x30 + b.toNat % 10) :: rest) =
            true := by
        rw [startsDecimal, h₀, h₁, h₂, hval]
        simp only [Bool.true_and, decide_eq_true_eq]
        omega
      have hchar := TextChar.decimal hdec
      rwa [hval, UInt8.ofNat_toNat] at hchar
    case isFalse =>
      exact .plain (fun hc => h (.inl hc)) fun hc => h (.inr hc)

theorem length_escapeByte_le : (escapeByte backslash b).length ≤ 4 := by
  rw [escape_backslash]
  split
  · exact Nat.le_add_left 2 2
  · split
    · exact le_rfl
    · exact Nat.le_add_left 1 3

theorem zero_notMem_escapeByte : 0 ∉ escapeByte backslash b := by
  rw [escape_backslash]
  split
  case isTrue h => rcases h with rfl | rfl <;> decide
  case isFalse h =>
    split
    case isTrue hle =>
      have hb : b.toNat < 100 := lt_of_le_of_lt (le_iff_toNat_le.mp hle) (by decide)
      have hne {n : ℕ} (hn : n < 10) : (0 : UInt8) ≠ ofNat (0x30 + n) := fun hc => by
        have := (mdnsIsDigit_ofNat hn).1
        rw [← hc] at this
        exact absurd this (by decide)
      simp only [mem_cons, not_mem_nil, or_false, not_or]
      exact ⟨by decide, hne (by omega), hne (by omega), hne (by omega)⟩
    case isFalse hlt =>
      rw [mem_singleton]
      rintro rfl
      exact hlt (by decide)

/-! ### Labels -/

variable {ls : List (List UInt8)}

theorem textLabel_labelText (l rest : List UInt8) : TextLabel (labelText l ++ rest) l rest := by
  induction l with
  | nil => exact .nil
  | cons b l ih =>
    rw [labelText, flatMap_cons, append_assoc]
    exact .cons (textChar_escapeByte b _) ih

theorem labelsText_cons (l : List UInt8) :
    labelsText (l :: ls) = labelText l ++ dot :: labelsText ls := by
  simp [labelsText]

theorem denotes_labelsText (hls : LabelsFit ls) : Denotes (labelsText ls) ls := by
  induction ls with
  | nil => exact .nil
  | cons l ls ih =>
    rw [labelsText_cons]
    exact .more (textLabel_labelText l _)
      (List.length_pos_iff.mp (hls l mem_cons_self).1) (ih hls.tail)

theorem not_misread_labelsText {r : ℕ} (hls : LabelsFit ls) (hr : (wire ls).length ≤ r) :
    ¬Misread (labelsText ls) r := by
  induction ls generalizing r with
  | nil => exact misread_of_ends (.inl rfl)
  | cons l ls ih =>
    rw [length_label_cons] at hr
    rw [labelsText_cons, misread_iff_of_ends (textLabel_labelText l _) (.inr ⟨_, rfl⟩) (by omega)]
    exact fun h => ih hls.tail (by omega) h.2.2

theorem zero_notMem_labelsText : 0 ∉ labelsText ls := by
  simp only [labelsText, labelText, mem_flatMap, mem_append, mem_singleton, not_exists,
    not_and, not_or]
  exact fun l _ => ⟨fun b _ => zero_notMem_escapeByte b, by decide⟩

theorem length_labelText_le (l : List UInt8) : (labelText l).length ≤ 4 * l.length := by
  induction l with
  | nil => exact le_rfl
  | cons b l ih =>
    have hb := length_escapeByte_le b
    rw [labelText, flatMap_cons, length_append, length_cons]
    rw [labelText] at ih
    omega

theorem length_labelsText_le (ls : List (List UInt8)) :
    (labelsText ls).length + 3 * ls.length ≤ 4 * (wire ls).length := by
  induction ls with
  | nil => exact le_rfl
  | cons l ls ih =>
    have hl := length_labelText_le l
    rw [labelsText_cons, length_label_cons, length_append, length_cons, length_cons]
    omega

theorem length_labelBytes_le (hls : LabelsFit ls) : (wire ls).length ≤ 64 * ls.length := by
  induction ls with
  | nil => exact le_rfl
  | cons l ls ih =>
    have hl : l.length ≤ 63 := (hls l mem_cons_self).2
    have hrest := ih hls.tail
    rw [length_label_cons, length_cons]
    omega

theorem DomainName.length_labelsText_lt (d : DomainName) :
    (labelsText d.labels).length < maxEscapedDomainName := by
  have htext := length_labelsText_le d.labels
  have hlabels := length_labelBytes_le d.labelsFit
  have hbytes := d.length_lt
  rw [maxDomainName] at hbytes
  rw [maxEscapedDomainName]
  omega

/-! ### The conversion -/

section

variable {nm out : Mem} {src ptr max fuel : ℕ}

theorem convertLabels_of_holds (hls : LabelsFit ls)
    (hnm : nm.Holds src (wire ls ++ [0])) (hmax : src + (wire ls).length < max)
    (hfuel : (wire ls).length < fuel) : convertLabelsFrom nm backslash max fuel src ptr out =
      (some (ptr + (labelsText ls).length + 1), out.write ptr (labelsText ls ++ [0])) := by
  induction ls generalizing fuel src ptr out with
  | nil =>
    rcases fuel with _ | fuel
    · omega
    rw [convertLabelsFrom, if_pos (holds_cons.mp hnm).1]
    rfl
  | cons l ls ih =>
    rcases fuel with _ | fuel
    · omega
    obtain ⟨hpos, hle⟩ := hls l mem_cons_self
    obtain ⟨hlabel, hrest⟩ := holds_label_cons.mp hnm
    have hlen := toNat_of_label hle hlabel
    have hread : nm.read (src + 1) l.length = l := (holds_cons.mp hlabel).2
    have hconvert : convertDomainLabelToCString nm src out ptr backslash =
        (some (ptr + (labelText l).length), out.write ptr (labelText l ++ [0])) := by
      rw [convertDomainLabelToCString, hlen, if_neg (not_lt.mpr hle), hread]
      rfl
    have hwrite : (out.write ptr (labelText l ++ [0])).write (ptr + (labelText l).length) [dot] =
        out.write ptr (labelText l ++ [dot]) := by
      have hlen : [(0 : UInt8)].length ≤ [dot].length := le_rfl
      rw [write_append, write_write _ hlen, ← write_append]
    rw [length_label_cons] at hmax hfuel
    rw [convertLabelsFrom, if_neg (ne_zero_of_label hpos hle hlabel), hlen,
      if_neg (by omega), hconvert]
    dsimp only
    have htext : labelsText (l :: ls) = (labelText l ++ [dot]) ++ labelsText ls := by
      rw [labelsText_cons, append_cons]
    rw [hwrite, ih hls.tail hrest (by omega) (by omega), htext,
      append_assoc (labelText l ++ [dot]), write_append out ptr (labelText l ++ [dot]),
      length_append, length_append, length_singleton]
    congr 2
    omega

theorem convertName_of_nameAt {d : DomainName} (hnm : NameAt nm 0 d) (hne : d.labels ≠ []) :
    convertDomainNameToCString nm out backslash =
      (some ((labelsText d.labels).length + 1), out.write 0 (labelsText d.labels ++ [0])) := by
  have hbytes := d.length_lt
  have hfirst : nm 0 ≠ 0 := by
    rw [NameAt, bytes] at hnm
    have hfit := d.labelsFit
    cases hls : d.labels with
    | nil => exact absurd hls hne
    | cons l ls =>
      rw [hls] at hnm hfit
      obtain ⟨hpos, hle⟩ := hfit l mem_cons_self
      exact ne_zero_of_label hpos hle (holds_label_cons.mp hnm).1
  rw [convertDomainNameToCString, if_neg hfirst,
    convertLabels_of_holds d.labelsFit hnm (by omega) (by omega), zero_add]

/-- The text of a name fits into the buffer that the source gives it, and the name comes back
from it. -/
theorem makeDomainName_convertDomainName (nm out name : Mem) (d : DomainName)
    (hnm : NameAt nm 0 d) (hne : d.labels ≠ []) : ∃ (text : List UInt8) (out' : Mem),
      convertDomainNameToCString nm out backslash = (some (text.length + 1), out') ∧
      out' = out.write 0 (text ++ [0]) ∧ text.length + 1 ≤ maxEscapedDomainName ∧
      CString out' text ∧
      ((makeDomainNameFromDNSNameString name).run out').1 = some d.bytes.length ∧
      NameAt ((makeDomainNameFromDNSNameString name).run out').2 0 d ∧
      (makeDomainNameFromDNSNameString name).ReadsBelow out' (text.length + 1) := by
  have hbytes := d.length_lt
  have htext : CString (out.write 0 (labelsText d.labels ++ [0])) (labelsText d.labels) :=
    ⟨holds_write _ _ _, zero_notMem_labelsText⟩
  have hroom : (wire d.labels).length ≤ maxDomainName - rootName.bytes.length :=
    Nat.le_sub_of_add_le hbytes
  have happends : Appends (makeDomainNameFromDNSNameString name)
      (out.write 0 (labelsText d.labels ++ [0])) (labelsText d.labels) rootName :=
    (appends_name_iff (d := rootName) (holds_write name 0 [0]) htext).mpr
      (not_misread_labelsText d.labelsFit hroom)
  obtain ⟨hresult, hstored⟩ := happends.stored d.labels d (denotes_labelsText d.labelsFit) rfl
  exact ⟨labelsText d.labels, _, convertName_of_nameAt hnm hne, rfl,
    d.length_labelsText_lt, htext, hresult, hstored, happends.reads⟩

theorem makeDomainName_convertDomainName_dot : ∃ (text : List UInt8) (out : Mem),
      convertDomainNameToCString (ofList (oneByteName dot).bytes) (ofList []) backslash =
        (some (text.length + 1), out) ∧
      NameAt ((makeDomainNameFromDNSNameString (ofList [])).run out).2 0 (oneByteName dot) := by
  obtain ⟨text, out, hconvert, -, -, -, -, hname, -⟩ :=
    makeDomainName_convertDomainName _ (ofList []) (ofList []) (oneByteName dot)
      (nameAt_ofList _) (by decide)
  exact ⟨text, out, hconvert, hname⟩

end

end Hexley.Dns
