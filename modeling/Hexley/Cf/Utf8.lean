import Hexley.Lib.Loop
import Hexley.Lib.Unicode

/-!
`__CFToUTF8` and `__CFFromUTF8` with no flags set.

The input is the list of the units or bytes that the caller gives, and a
read at an index outside of it is a fault. The output is what has been
stored so far, and a store past the room that the caller gives is a fault
too. A room of zero asks for the lengths only, and nothing is stored.

`__CFToUTF8` hands the room that is left to `__CFToUTF8Core` in a
`uint32_t`, which is one word shorter than the length it was computed from
on a 64-bit machine.
-/

namespace Hexley.Cf

open Lib List UInt16

/-! ### From UTF-16 -/

def cfUTF8BytesToWriteForCharacter (ch : ℕ) : ℕ :=
  if ch < 0x80 then 1
  else if ch < 0x800 then 2
  else if ch < 0x10000 then 3
  else if ch < 0x200000 then 4
  else if ch < 0x4000000 then 5
  else if ch ≤ 0x7FFFFFFF then 6
  else 0

def firstByteMark : ℕ → ℕ
  | 2 => 0xC0
  | 3 => 0xE0
  | 4 => 0xF0
  | 5 => 0xF8
  | 6 => 0xFC
  | _ => 0x00

/-- The `switch` of `__CFToUTF8Core`, which stores the last byte first:
`after` are the bytes that have been stored. -/
def spreadBytes (mark : ℕ) : ℕ → ℕ → List UInt8 → List UInt8
  | 0, _, after => after
  | 1, ch, after => UInt8.ofNat (ch ||| mark) :: after
  | n + 2, ch, after =>
    spreadBytes mark (n + 1) (ch >>> 6) (UInt8.ofNat ((ch ||| 0x80) &&& 0xBF) :: after)

def kReplacementCharacter : ℕ := 0xFFFD

/-- `__CFToUTF8Core`: the bytes it stores, none if there is no room. -/
def cfToUTF8Core (ch maxByteLen : ℕ) : List UInt8 :=
  let bytesToWrite := cfUTF8BytesToWriteForCharacter ch
  let n := if bytesToWrite = 0 then 2 else bytesToWrite
  let ch := if bytesToWrite = 0 then kReplacementCharacter else ch
  if maxByteLen < n then [] else spreadBytes (firstByteMark n) n ch []

def store {β : Type} (room : ℕ) (out more : List β) : Option (List β) :=
  if out.length + more.length ≤ room then some (out ++ more) else none

structure Conversion (β : Type) where
  pos : ℕ
  used : ℕ
  out : List β
  deriving DecidableEq

/-- The result of a conversion that consumes `input` and stores `output`. -/
def Conversion.whole {α β : Type} (input : List α) (output : List β) : Conversion β :=
  ⟨input.length, output.length, output⟩

/-- The condition of both loops: there is input left, and room for output
unless only the lengths are asked for. -/
def Conversion.going {β : Type} (len room : ℕ) (s : Conversion β) : Bool :=
  s.pos < len ∧ (room = 0 ∨ s.used < room)

/-- The test for surrogates: the character that starts with the unit `ch`
just before `pos` and where it ends, or nothing if the conversion has to
stop. -/
def pairSurrogates (units : List UInt16) (pos ch : ℕ) : Option (Option (ℕ × ℕ)) :=
  if ch ≥ 0xD800 then
    if ch ≤ 0xDBFF then
      if pos < units.length then do
        let low ← units[pos]?
        if low.toNat ≥ 0xDC00 ∧ low.toNat ≤ 0xDFFF then
          some (some (((ch - 0xD800) <<< 10) + (low.toNat - 0xDC00) + 0x10000, pos + 1))
        else some none
      else some none
    else if ch ≤ 0xDFFF then some none
    else some (some (ch, pos))
  else some (some (ch, pos))

def toUTF8Step (units : List UInt16) (maxByteLen : ℕ) (s : Conversion UInt8) :
    Option (Bool × Conversion UInt8) := do
  let unit ← units[s.pos]?
  let ch := unit.toNat
  if ch < 0x80 then
    if maxByteLen = 0 then some (true, { s with pos := s.pos + 1, used := s.used + 1 })
    else do
      let out ← store maxByteLen s.out [UInt8.ofNat ch]
      some (true, ⟨s.pos + 1, s.used + 1, out⟩)
  else
    match ← pairSurrogates units (s.pos + 1) ch with
    | none => some (false, s)
    | some (ch, pos) =>
      if maxByteLen = 0 then
        let bytesWritten := cfUTF8BytesToWriteForCharacter ch
        if bytesWritten = 0 then
          some (false, { s with pos := pos - if ch < 0x10000 then 1 else 2 })
        else some (true, { s with pos := pos, used := s.used + bytesWritten })
      else
        let bytes := cfToUTF8Core ch ((maxByteLen - s.used) % 2 ^ 32)
        if bytes = [] then
          some (false, { s with pos := pos - if ch < 0x10000 then 1 else 2 })
        else do
          let out ← store maxByteLen s.out bytes
          some (true, ⟨pos, s.used + bytes.length, out⟩)

def cfToUTF8 (units : List UInt16) (maxByteLen : ℕ) : Option (Conversion UInt8) :=
  checkedWhile (Conversion.going units.length maxByteLen) (toUTF8Step units maxByteLen)
    (units.length + 1) ⟨0, 0, []⟩

/-! ### From UTF-8 -/

def trailingBytesForUTF8 (b : UInt8) : ℕ :=
  if b.toNat < 0xC0 then 0
  else if b.toNat < 0xE0 then 1
  else if b.toNat < 0xF0 then 2
  else if b.toNat < 0xF8 then 3
  else if b.toNat < 0xFC then 4
  else 5

def offsetsFromUTF8 : ℕ → ℕ
  | 0 => 0x00000000
  | 1 => 0x00003080
  | 2 => 0x000E2080
  | 3 => 0x03C82080
  | 4 => 0xFA082080
  | _ => 0x82082080

/-- The loop of `__CFIsLegalUTF8` over the `n` bytes behind `source`, from
the last to the first. -/
def trailLegal (bytes : List UInt8) (source : ℕ) : ℕ → Option Bool
  | 0 => some true
  | n + 1 => do
      let b ← bytes[source + (n + 1)]?
      if (b.toNat &&& 0xC0) ≠ 0x80 then some false else trailLegal bytes source n

variable (bytes : List UInt8)

/-- The tests of `__CFIsLegalUTF8` on the first byte. The second one is read
only for the four first bytes that restrict it. -/
def headLegal (source : ℕ) (head : UInt8) : Option Bool :=
  if head.toNat ≥ 0x80 ∧ head.toNat < 0xC2 ∨ head.toNat > 0xF4 then some false
  else if head.toNat = 0xE0 then do
    let second ← bytes[source + 1]?
    some (¬second.toNat < 0xA0)
  else if head.toNat = 0xED then do
    let second ← bytes[source + 1]?
    some (¬second.toNat > 0x9F)
  else if head.toNat = 0xF0 then do
    let second ← bytes[source + 1]?
    some (¬second.toNat < 0x90)
  else if head.toNat = 0xF4 then do
    let second ← bytes[source + 1]?
    some (¬second.toNat > 0x8F)
  else some true

def cfIsLegalUTF8 (source length : ℕ) : Option Bool :=
  if length > 4 then some false
  else do
    let head ← bytes[source]?
    let trail ← trailLegal bytes source (length - 1)
    if trail then headLegal bytes source head else some false

/-- The `switch` of `__CFFromUTF8`, which adds up `extra + 1` bytes. -/
def gatherBytes (bytes : List UInt8) (source : ℕ) : ℕ → ℕ → Option ℕ
  | 0, ch => do
      let b ← bytes[source]?
      some (ch + b.toNat)
  | extra + 1, ch => do
      let b ← bytes[source]?
      gatherBytes bytes (source + 1) extra ((ch + b.toNat) <<< 6)

/-- The test of `__CFFromUTF8` on a sequence with `extra` trailing bytes. -/
def sequenceLegal (source extra : ℕ) : Option Bool :=
  if extra > 3 then some false else cfIsLegalUTF8 bytes source (extra + 1)

/-- The value of a sequence whose bytes add up to `sum`, a `uint32_t`. -/
def sequenceValue (extra sum : ℕ) : ℕ := (sum + 0x100000000 - offsetsFromUTF8 extra) % 0x100000000

variable (maxCharLen : ℕ)

/-- The part of the loop of `__CFFromUTF8` that stores the character `ch`,
which ends at `pos`. -/
def putCharacter (s : Conversion UInt16) (pos ch : ℕ) : Option (Bool × Conversion UInt16) :=
  if ch ≤ 0xFFFF then
    if ch ≥ 0xD800 ∧ ch ≤ 0xDFFF then some (false, s)
    else if maxCharLen = 0 then some (true, { s with pos := pos, used := s.used + 1 })
    else do
      let out ← store maxCharLen s.out [ofNat ch]
      some (true, ⟨pos, s.used + 1, out⟩)
  else if ch > 0x10FFFF then some (false, s)
  else if maxCharLen = 0 then some (true, { s with pos := pos, used := s.used + 2 })
  -- The cursor has moved past the character although it is not stored.
  else if s.used + 2 > maxCharLen then some (false, { s with pos := pos })
  else do
    let ch := ch - 0x10000
    let out ← store maxCharLen s.out [ofNat ((ch >>> 10) + 0xD800), ofNat ((ch &&& 0x3FF) + 0xDC00)]
    some (true, ⟨pos, s.used + 2, out⟩)

/-- The body of the loop of `__CFFromUTF8`. The number of bytes that are
left is the number of those behind `pos`. -/
def fromUTF8Step (s : Conversion UInt16) : Option (Bool × Conversion UInt16) := do
  let head ← bytes[s.pos]?
  let extra := trailingBytesForUTF8 head
  if extra > bytes.length - s.pos - 1 then some (false, s)
  else
    let legal ← sequenceLegal bytes s.pos extra
    if legal then
      let sum ← gatherBytes bytes s.pos extra 0
      putCharacter maxCharLen s (s.pos + (extra + 1)) (sequenceValue extra sum)
    else if head = 0xA9 then
      if maxCharLen = 0 then some (true, { s with pos := s.pos + 1, used := s.used + 1 })
      else
        let out ← store maxCharLen s.out [ofNat kReplacementCharacter]
        some (true, ⟨s.pos + 1, s.used + 1, out⟩)
    else some (false, s)

def cfFromUTF8 : Option (Conversion UInt16) :=
  checkedWhile (Conversion.going bytes.length maxCharLen) (fromUTF8Step bytes maxCharLen)
    (bytes.length + 1) ⟨0, 0, []⟩

/-! ### Bits -/

theorem or_and_trail (x : ℕ) : (x ||| 0x80) &&& 0xBF = x % 64 + 0x80 := by
  have hsmall : ∀ y : Fin 64, y.val ||| 0x80 = y.val + 0x80 := by decide
  have hmask : (0xBF : ℕ) = 0x3F ||| 0x80 := rfl
  rw [hmask, ← Nat.or_and_distrib_right]
  have hmod : x &&& 0x3F = x % 64 := Nat.and_two_pow_sub_one_eq_mod x 6
  rw [hmod]
  exact hsmall ⟨x % 64, Nat.mod_lt _ (by decide)⟩

theorem and_continuation (b : UInt8) :
    (b.toNat &&& 0xC0) = 0x80 ↔ 0x80 ≤ b.toNat ∧ b.toNat < 0xC0 := by
  have hall : ∀ n : Fin 256, (n.val &&& 0xC0) = 0x80 ↔ 0x80 ≤ n.val ∧ n.val < 0xC0 := by
    decide +kernel
  exact hall ⟨b.toNat, b.toNat_lt⟩

/-! ### One character in UTF-8 -/

theorem bytesToWrite_eq (c : Char) :
    cfUTF8BytesToWriteForCharacter c.toNat = (String.utf8EncodeChar c).length := by
  have hc := Char.toNat_cases c
  unfold cfUTF8BytesToWriteForCharacter
  rcases utf8_cases c with ⟨hv, b₀, hb, -⟩ | ⟨hv, hv', b₀, b₁, hb, -⟩ |
      ⟨hv, hv', b₀, b₁, b₂, hb, -⟩ | ⟨hv, b₀, b₁, b₂, b₃, hb, -⟩ <;>
    rw [hb] <;> simp only [length_cons, length_nil] <;> grind

theorem cfToUTF8Core_eq (c : Char) (maxByteLen : ℕ) : cfToUTF8Core c.toNat maxByteLen =
      if maxByteLen < (String.utf8EncodeChar c).length then [] else String.utf8EncodeChar c := by
  have hc := Char.toNat_cases c
  have hpos : (String.utf8EncodeChar c).length ≠ 0 :=
    (length_pos_iff.mpr (prefixCode_utf8.ne_nil c)).ne'
  have hmark₂ : ∀ x < 32, x ||| 0xC0 = x + 0xC0 := by decide
  have hmark₃ : ∀ x < 16, x ||| 0xE0 = x + 0xE0 := by decide
  have hmark₄ : ∀ x < 8, x ||| 0xF0 = x + 0xF0 := by decide
  rw [cfToUTF8Core]
  simp only [bytesToWrite_eq c, if_neg hpos]
  split
  · rfl
  refine (utf8EncodeChar_eq ?_).symm
  rw [utf8Values]
  rcases utf8_cases c with ⟨hv, _, hb, -⟩ | ⟨hv, hv', _, _, hb, -⟩ |
      ⟨hv, hv', _, _, _, hb, -⟩ | ⟨hv, _, _, _, _, hb, -⟩ <;>
    simp only [hb, length_cons, length_nil, firstByteMark, spreadBytes, map_cons, map_nil,
      or_and_trail, UInt8.toNat_ofNat', Nat.shiftRight_eq_div_pow, Nat.div_div_eq_div_mul,
      Nat.or_zero]
  · rw [if_pos hv, Nat.mod_eq_of_lt (by omega)]
  · rw [if_neg (by omega), if_pos hv', hmark₂ _ (by omega)]
    simp
    omega
  · rw [if_neg (by omega), if_neg (by omega), if_pos hv', hmark₃ _ (by omega)]
    simp
    omega
  · rw [if_neg (by omega), if_neg (by omega), if_neg (by omega), hmark₄ _ (by omega)]
    simp
    omega

theorem prefix_tail {α : Type} {xs bs : List α} {b : α} {pos : ℕ} (h : b :: bs <+: xs.drop pos) :
    xs[pos]? = some b ∧ bs <+: xs.drop (pos + 1) := by
  obtain ⟨rest, hrest⟩ := h
  constructor
  · rw [← Nat.add_zero pos, ← getElem?_drop, ← hrest]
    rfl
  · rw [← drop_drop, ← hrest]
    exact prefix_append bs rest

/-! ### Conversion to UTF-8 -/

variable {room pos : ℕ} {c : Char}

section ToUTF8

variable {units : List UInt16} {s : Conversion UInt8} {cs : List Char}

theorem pairSurrogates_char {u : UInt16} (hc : utf16EncodeChar c <+: units.drop pos)
    (hu : units[pos]? = some u) : (c.toNat < 0x80 → u.toNat = c.toNat) ∧
      (0x80 ≤ c.toNat → ¬u.toNat < 0x80 ∧ pairSurrogates units (pos + 1) u.toNat =
        some (some (c.toNat, pos + (utf16EncodeChar c).length))) := by
  have hvalid := Char.toNat_cases c
  rcases utf16_cases c with ⟨hlt, v, hv, hn⟩ | ⟨hge, v, w, hv, hn, hm⟩ <;> rw [hv] at hc ⊢ <;>
    obtain ⟨hu', htail⟩ := prefix_tail hc <;> obtain rfl := Option.some.inj (hu.symm.trans hu')
  · refine ⟨fun _ => hn, fun hbig => ⟨by omega, ?_⟩⟩
    unfold pairSurrogates
    split_ifs <;> simp [hn] <;> omega
  · have hw := (prefix_tail htail).1
    have hlt := (List.getElem?_eq_some_iff.mp hw).1
    refine ⟨fun hsmall => by omega, fun _ => ⟨by omega, ?_⟩⟩
    rw [pairSurrogates, if_pos (by omega), if_pos (by omega), if_pos hlt, hw]
    simp only [Option.bind_eq_bind, Option.bind_some]
    rw [if_pos (by omega), Nat.shiftLeft_eq]
    simp
    omega

theorem toUTF8Step_stop (hpos : s.pos < units.length)
    (hstop : ∀ c, ¬utf16EncodeChar c <+: units.drop s.pos) :
    toUTF8Step units room s = some (false, s) := by
  have hu : units[s.pos]? = some units[s.pos] := getElem?_eq_getElem hpos
  have hdrop : units.drop s.pos = units[s.pos] :: units.drop (s.pos + 1) :=
    drop_eq_getElem_cons hpos
  generalize units[s.pos] = u at hu hdrop
  have hbits := u.toNat_lt
  -- A unit that is not a surrogate is a character.
  have hsur : 0xD800 ≤ u.toNat ∧ u.toNat ≤ 0xDFFF := by
    by_contra hno
    obtain ⟨c, hc⟩ := exists_char (n := u.toNat) (by omega)
    refine hstop c ?_
    rw [utf16_singleton hc.symm, hdrop]
    exact ⟨_, rfl⟩
  -- So is a high surrogate with a low one behind it.
  have hpair : pairSurrogates units (s.pos + 1) u.toNat = some none := by
    unfold pairSurrogates
    rw [if_pos hsur.1]
    split
    · split
      · have hv : units[s.pos + 1]? = some units[s.pos + 1] := getElem?_eq_getElem ‹_›
        have hdrop' : units.drop (s.pos + 1) = units[s.pos + 1] :: units.drop (s.pos + 1 + 1) :=
          drop_eq_getElem_cons ‹_›
        generalize units[s.pos + 1] = v at hv hdrop'
        rw [hv]
        simp only [Option.bind_eq_bind, Option.bind_some]
        rw [if_neg]
        rintro ⟨hlo, hhi⟩
        obtain ⟨c, hc⟩ := exists_char
          (n := (u.toNat - 0xD800) * 0x400 + (v.toNat - 0xDC00) + 0x10000) (by omega)
        refine hstop c ?_
        rw [utf16EncodeChar_eq_pair hsur.1 hlo hhi hc, hdrop, hdrop']
        exact ⟨_, rfl⟩
      · rfl
    · rw [if_pos hsur.2]
  rw [toUTF8Step, hu]
  simp only [Option.bind_eq_bind, Option.bind_some]
  rw [if_neg (by omega), hpair]
  rfl

theorem exists_unit_of_prefix (hc : utf16EncodeChar c <+: units.drop pos) :
    ∃ u, units[pos]? = some u := by
  have hlen := hc.length_le
  have hpos := length_pos_iff.mpr (prefixCode_utf16.ne_nil c)
  rw [length_drop] at hlen
  exact ⟨_, getElem?_eq_getElem (show pos < units.length by omega)⟩

theorem toUTF8Step_char (hc : utf16EncodeChar c <+: units.drop s.pos) (hout : s.out.length = s.used)
    (hroom : s.used < room) : toUTF8Step units room s =
      if c.toNat < 0x80 ∨ (String.utf8EncodeChar c).length ≤ (room - s.used) % 2 ^ 32 then
        some (true, ⟨s.pos + (utf16EncodeChar c).length,
          s.used + (String.utf8EncodeChar c).length, s.out ++ String.utf8EncodeChar c⟩)
      else some (false, s) := by
  obtain ⟨u, hu⟩ := exists_unit_of_prefix hc
  obtain ⟨hsmall, hbig⟩ := pairSurrogates_char hc hu
  have hne : ¬room = 0 := by omega
  rw [toUTF8Step, hu]
  simp only [Option.bind_eq_bind, Option.bind_some, if_neg hne]
  rcases lt_or_ge c.toNat 0x80 with hlt | hge
  · have hval := hsmall hlt
    have hb : String.utf8EncodeChar c = [UInt8.ofNat u.toNat] := by
      refine utf8EncodeChar_eq ?_
      simp [utf8Values, hval, hlt]
      omega
    have hfits : s.used + 1 ≤ room := hroom
    simp [hval, hlt, store, hout, hb, hfits, utf16_singleton hval]
  · obtain ⟨hnot, hpair⟩ := hbig hge
    rw [if_neg hnot, hpair]
    simp only [Option.bind_some, cfToUTF8Core_eq]
    by_cases hfit : (String.utf8EncodeChar c).length ≤ (room - s.used) % 2 ^ 32
    · have hfits : s.used + (String.utf8EncodeChar c).length ≤ room := by omega
      simp only [not_lt.mpr hfit, hfit, prefixCode_utf8.ne_nil c, store, hout, hfits, if_true,
        if_false, or_true, Option.bind_some]
    · have hback :
          s.pos + (utf16EncodeChar c).length - (if c.toNat < 0x10000 then 1 else 2) = s.pos := by
        rcases utf16_cases c with ⟨hlt, v, hv, -⟩ | ⟨hge', v, w, hv, -⟩
        · simp [hv, hlt]
        · simp [hv, not_lt.mpr hge']
      simp only [not_le.mp hfit, hfit, if_true, hback, not_lt.mpr hge, or_self, if_false]

theorem toUTF8Step_count (hc : utf16EncodeChar c <+: units.drop s.pos) :
    toUTF8Step units 0 s = some (true, { s with
        pos := s.pos + (utf16EncodeChar c).length
        used := s.used + (String.utf8EncodeChar c).length }) := by
  obtain ⟨u, hu⟩ := exists_unit_of_prefix hc
  obtain ⟨hsmall, hbig⟩ := pairSurrogates_char hc hu
  have hsize := bytesToWrite_eq c
  rw [toUTF8Step, hu]
  simp only [Option.bind_eq_bind, Option.bind_some]
  rcases lt_or_ge c.toNat 0x80 with hlt | hge
  · have hval := hsmall hlt
    have hone : utf16EncodeChar c = [u] := utf16_singleton hval
    rw [cfUTF8BytesToWriteForCharacter, if_pos hlt] at hsize
    rw [if_pos (by omega), if_pos trivial, hone, ← hsize]
    rfl
  · obtain ⟨hnot, hpair⟩ := hbig hge
    have hpos : (String.utf8EncodeChar c).length ≠ 0 :=
      (length_pos_iff.mpr (prefixCode_utf8.ne_nil c)).ne'
    rw [if_neg hnot, hpair]
    simp only [Option.bind_some, if_true, hsize, if_neg hpos]

/-- The characters for which the room that `__CFToUTF8Core` is told of is
enough, when `used` bytes have been stored. -/
def fitting (room : ℕ) : ℕ → List Char → List Char
  | _, [] => []
  | used, c :: cs =>
    if used < room ∧
        (c.toNat < 0x80 ∨ (String.utf8EncodeChar c).length ≤ (room - used) % 2 ^ 32) then
      c :: fitting room (used + (String.utf8EncodeChar c).length) cs
    else []

theorem toUTF8_loop (hne : room = 0 → cs = []) {fuel : ℕ}
    (hlong : Longest utf16EncodeChar (units.drop s.pos) cs) (hout : s.out.length = s.used)
    (hfuel : units.length - s.pos < fuel) :
    checkedWhile (Conversion.going units.length room) (toUTF8Step units room) fuel s =
      some ⟨s.pos + (utf16 (fitting room s.used cs)).length,
        s.used + (utf8 (fitting room s.used cs)).length,
        s.out ++ utf8 (fitting room s.used cs)⟩ := by
  induction cs generalizing s fuel with
  | nil =>
    rcases fuel with _ | fuel
    · omega
    have hdone : fitting room s.used [] = [] := rfl
    simp only [hdone, utf8, utf16, flatMap_nil, length_nil, Nat.add_zero, append_nil]
    by_cases hc : s.pos < units.length ∧ (room = 0 ∨ s.used < room)
    · refine while_break (decide_eq_true hc) (toUTF8Step_stop hc.1 fun c => ?_)
      simpa using hlong.stops c
    · exact while_exit (decide_eq_false hc)
  | cons c cs ih =>
    rcases fuel with _ | fuel
    · omega
    obtain ⟨u, hu⟩ := exists_unit_of_prefix hlong.head
    have hpos : s.pos < units.length := (List.getElem?_eq_some_iff.mp hu).1
    have hlen := length_pos_iff.mpr (prefixCode_utf16.ne_nil c)
    replace hne : room ≠ 0 := fun hz => cons_ne_nil c cs (hne hz)
    rw [fitting]
    by_cases hroom : s.used < room
    · have hcond : s.going units.length room = true := decide_eq_true ⟨hpos, .inr hroom⟩
      have hstep := toUTF8Step_char hlong.head hout hroom
      by_cases hfit : c.toNat < 0x80 ∨ (String.utf8EncodeChar c).length ≤ (room - s.used) % 2 ^ 32
      · rw [if_pos hfit] at hstep
        have hnext := hlong.tail
        rw [drop_drop] at hnext
        rw [while_continue hcond hstep, ih (absurd · hne) hnext
          (by rw [length_append, hout]) (show units.length - (s.pos + _) < fuel by omega),
          if_pos ⟨hroom, hfit⟩]
        simp only [utf8, utf16, flatMap_cons, length_append, append_assoc, Nat.add_assoc]
      · rw [if_neg hfit] at hstep
        rw [while_break hcond hstep, if_neg fun hand => hfit hand.2]
        simp [utf8, utf16]
    · have hcond : s.going units.length room = false :=
        decide_eq_false fun hand => hroom (hand.2.resolve_left hne)
      rw [while_exit hcond, if_neg fun hand => hroom hand.1]
      simp [utf8, utf16]

theorem cfToUTF8_count : ∃ s, cfToUTF8 units 0 = some s := by
  refine (while_rule (fun _ => True) (fun _ => True) (fun s => units.length - s.pos)
    (fun s _ hcond => ?_) (fun _ _ _ => trivial) trivial (by simp)).imp fun _ h => h.1
  have hpos := (of_decide_eq_true hcond).1
  by_cases hchar : ∃ c, utf16EncodeChar c <+: units.drop s.pos
  · obtain ⟨c, hc⟩ := hchar
    have hlen := length_pos_iff.mpr (prefixCode_utf16.ne_nil c)
    exact .inl ⟨_, toUTF8Step_count hc, trivial, by simp only; omega⟩
  · exact .inr ⟨_, toUTF8Step_stop hpos (not_exists.mp hchar), trivial⟩

theorem cfToUTF8_eq (hne : room = 0 → cs = []) (hlong : Longest utf16EncodeChar units cs) :
    cfToUTF8 units room = some (.whole (utf16 (fitting room 0 cs)) (utf8 (fitting room 0 cs))) := by
  rw [cfToUTF8, toUTF8_loop hne (s := ⟨0, 0, []⟩) hlong rfl (by simp)]
  simp [Conversion.whole]

end ToUTF8

/-! ### Conversion from UTF-8 -/

section FromUTF8

variable {bytes : List UInt8} {s : Conversion UInt16} {b₀ b₁ : UInt8} {bs : List UInt8} {n : ℕ}
  {b : UInt8}

def Trail (b : UInt8) : Prop := 0x80 ≤ b.toNat ∧ b.toNat < 0xC0

instance (b : UInt8) : Decidable (Trail b) := inferInstanceAs (Decidable (_ ∧ _))

theorem trailLegal_succ (hb : bytes[pos + (n + 1)]? = some b) :
    trailLegal bytes pos (n + 1) = if Trail b then trailLegal bytes pos n else some false := by
  have hand := and_continuation b
  rw [trailLegal, hb]
  simp only [Option.bind_eq_bind, Option.bind_some]
  by_cases ht : Trail b
  · rw [if_neg (not_not.mpr (hand.mpr ht)), if_pos ht]
  · rw [if_pos fun heq => ht (hand.mp heq), if_neg ht]

theorem headLegal_one (hlead : b₀.toNat < 0xC0) :
    headLegal bytes pos b₀ = some (decide (b₀.toNat < 0x80)) := by
  unfold headLegal
  split
  · simp only [Option.some.injEq, Bool.false_eq, decide_eq_false_iff_not]
    omega
  · rw [if_neg (by omega), if_neg (by omega), if_neg (by omega), if_neg (by omega)]
    simp only [Option.some.injEq, Bool.true_eq, decide_eq_true_eq]
    omega

def SecondLegal (b₀ b₁ : UInt8) : Prop :=
  0xC2 ≤ b₀.toNat ∧ b₀.toNat ≤ 0xF4 ∧ (b₀.toNat = 0xE0 → 0xA0 ≤ b₁.toNat) ∧
    (b₀.toNat = 0xED → b₁.toNat ≤ 0x9F) ∧ (b₀.toNat = 0xF0 → 0x90 ≤ b₁.toNat) ∧
    (b₀.toNat = 0xF4 → b₁.toNat ≤ 0x8F)

instance (b₀ b₁ : UInt8) : Decidable (SecondLegal b₀ b₁) := inferInstanceAs (Decidable (_ ∧ _))

theorem headLegal_more (h₁ : bytes[pos + 1]? = some b₁) (hlead : 0xC0 ≤ b₀.toNat) :
    headLegal bytes pos b₀ = some (decide (SecondLegal b₀ b₁)) := by
  unfold headLegal
  simp only [h₁, Option.bind_eq_bind, Option.bind_some]
  by_cases hs : SecondLegal b₀ b₁
  · rw [decide_eq_true hs]
    unfold SecondLegal at hs
    split_ifs <;> simp <;> omega
  · rw [decide_eq_false hs]
    unfold SecondLegal at hs
    split_ifs <;> simp <;> omega

theorem legal_one (h₀ : bytes[pos]? = some b₀) (hlead : b₀.toNat < 0xC0) :
    cfIsLegalUTF8 bytes pos 1 = some (decide (b₀.toNat < 0x80)) := by
  rw [cfIsLegalUTF8, if_neg (by decide), h₀]
  exact headLegal_one hlead

theorem trailLegal_eq (h : bs <+: bytes.drop (pos + 1)) :
    trailLegal bytes pos bs.length = some (decide (∀ b ∈ bs, Trail b)) := by
  induction bs using reverseRecOn with
  | nil => simp [trailLegal]
  | append_singleton bs b ih =>
    have hb : bytes[pos + (bs.length + 1)]? = some b := by
      obtain ⟨rest, hrest⟩ := h
      rw [← Nat.add_assoc, Nat.add_right_comm, ← getElem?_drop, ← hrest]
      simp
    rw [length_append, length_singleton, trailLegal_succ hb, ih ((prefix_append _ _).trans h)]
    by_cases ht : Trail b <;> simp [ht, or_imp, forall_and]

theorem legal_more (h : b₀ :: b₁ :: bs <+: bytes.drop pos) (hlen : bs.length ≤ 2)
    (hlead : 0xC0 ≤ b₀.toNat) : cfIsLegalUTF8 bytes pos (bs.length + 2) =
      some (decide ((∀ b ∈ b₁ :: bs, Trail b) ∧ SecondLegal b₀ b₁)) := by
  obtain ⟨h₀, htail⟩ := prefix_tail h
  rw [cfIsLegalUTF8, if_neg (by omega), h₀]
  simp only [Option.bind_eq_bind, Option.bind_some, headLegal_more (prefix_tail htail).1 hlead]
  rw [show bs.length + 2 - 1 = (b₁ :: bs).length from rfl, trailLegal_eq htail]
  rw [Bool.decide_and]
  cases decide (∀ b ∈ b₁ :: bs, Trail b) <;> rfl

theorem gatherBytes_eq {ch : ℕ} (h : b₀ :: bs <+: bytes.drop pos) :
    gatherBytes bytes pos bs.length ch =
      some (bs.foldl (fun sum b => sum * 64 + b.toNat) (ch + b₀.toNat)) := by
  induction bs generalizing b₀ pos ch with
  | nil => simp [gatherBytes, (prefix_tail h).1]
  | cons b₁ bs ih =>
    obtain ⟨h₀, htail⟩ := prefix_tail h
    simp [gatherBytes, h₀, ih htail, Nat.shiftLeft_eq]

theorem decode_char (hc : String.utf8EncodeChar c <+: bytes.drop pos) :
    ∃ b₀ extra sum, bytes[pos]? = some b₀ ∧ trailingBytesForUTF8 b₀ = extra ∧ extra ≤ 3 ∧
      (String.utf8EncodeChar c).length = extra + 1 ∧
      cfIsLegalUTF8 bytes pos (extra + 1) = some true ∧ gatherBytes bytes pos extra 0 = some sum ∧
      sequenceValue extra sum = c.toNat := by
  have hvalid := Char.toNat_cases c
  rcases utf8_cases c with ⟨hv, b₀, hb, h₀⟩ | ⟨hv, hv', b₀, b₁, hb, h₀, h₁⟩ |
      ⟨hv, hv', b₀, b₁, b₂, hb, h₀, h₁, h₂⟩ | ⟨hv, b₀, b₁, b₂, b₃, hb, h₀, h₁, h₂, h₃⟩ <;>
    rw [hb] at hc ⊢
  · refine ⟨b₀, 0, _, (prefix_tail hc).1, ?_, by decide, rfl, ?_, gatherBytes_eq hc, ?_⟩
    · grind [trailingBytesForUTF8]
    · rw [legal_one (prefix_tail hc).1 (by omega), decide_eq_true (by omega)]
    · simp [sequenceValue, offsetsFromUTF8]
      omega
  all_goals
    refine ⟨b₀, _, _, (prefix_tail hc).1, ?_, ?_, rfl,
      (legal_more hc (by simp) (by omega)).trans ?_, gatherBytes_eq hc, ?_⟩
    · grind [trailingBytesForUTF8]
    · simp
    · simp [Trail, SecondLegal]
      omega
    · simp [sequenceValue, offsetsFromUTF8]
      omega

theorem drop_eq_cons {l : ℕ} (hb : bytes[l]? = some b) :
    bytes.drop l = b :: bytes.drop (l + 1) := by
  obtain ⟨hlt, rfl⟩ := List.getElem?_eq_some_iff.mp hb
  exact drop_eq_getElem_cons hlt

theorem exists_char_of_legal (hn : n ≤ 3) (h₀ : bytes[pos]? = some b₀)
    (htrail : trailingBytesForUTF8 b₀ = n) (hlen : pos + n < bytes.length)
    (hlegal : cfIsLegalUTF8 bytes pos (n + 1) = some true) :
    ∃ c, String.utf8EncodeChar c <+: bytes.drop pos := by
  unfold trailingBytesForUTF8 at htrail
  obtain ⟨bs, hbs, rfl⟩ : ∃ bs, b₀ :: bs <+: bytes.drop pos ∧ bs.length = n := by
    refine ⟨(bytes.drop (pos + 1)).take n, ?_, by simp; omega⟩
    rw [drop_eq_cons h₀, prefix_cons_inj]
    exact take_prefix n _
  suffices h : ∃ c : Char, (b₀ :: bs).map UInt8.toNat = utf8Values c.toNat by
    obtain ⟨c, hc⟩ := h
    exact ⟨c, by rwa [utf8EncodeChar_eq hc]⟩
  match bs with
  | [] =>
    rw [length_nil, legal_one h₀ (by grind)] at hlegal
    simp only [Option.some.injEq, decide_eq_true_eq] at hlegal
    obtain ⟨c, hc⟩ := exists_char (n := b₀.toNat) (by omega)
    exact ⟨c, by simp [hc, utf8Values, hlegal]⟩
  | [b₁] =>
    have hlead : 0xC0 ≤ b₀.toNat ∧ b₀.toNat < 0xE0 := by grind
    have h := (legal_more hbs (by simp) hlead.1).symm.trans hlegal
    simp [Trail, SecondLegal] at h
    obtain ⟨c, hc⟩ := exists_char (n := (b₀.toNat - 0xC0) * 64 + (b₁.toNat - 0x80)) (by omega)
    refine ⟨c, ?_⟩
    rw [utf8Values, if_neg (by omega), if_pos (by omega)]
    simp
    omega
  | [b₁, b₂] =>
    have hlead : 0xE0 ≤ b₀.toNat ∧ b₀.toNat < 0xF0 := by grind
    have h := (legal_more hbs (by simp) (by omega)).symm.trans hlegal
    simp [Trail, SecondLegal] at h
    obtain ⟨c, hc⟩ := exists_char
      (n := (b₀.toNat - 0xE0) * 4096 + (b₁.toNat - 0x80) * 64 + (b₂.toNat - 0x80)) (by omega)
    refine ⟨c, ?_⟩
    rw [utf8Values, if_neg (by omega), if_neg (by omega), if_pos (by omega)]
    simp
    omega
  | [b₁, b₂, b₃] =>
    have hlead : 0xF0 ≤ b₀.toNat ∧ b₀.toNat < 0xF8 := by grind
    have h := (legal_more hbs (by simp) (by omega)).symm.trans hlegal
    simp [Trail, SecondLegal] at h
    obtain ⟨c, hc⟩ := exists_char (n := (b₀.toNat - 0xF0) * 262144 + (b₁.toNat - 0x80) * 4096 +
      (b₂.toNat - 0x80) * 64 + (b₃.toNat - 0x80)) (by omega)
    refine ⟨c, ?_⟩
    rw [utf8Values, if_neg (by omega), if_neg (by omega), if_neg (by omega)]
    simp
    omega

theorem trailLegal_defined (hlen : pos + n < bytes.length) :
    ∃ legal, trailLegal bytes pos n = some legal := by
  have hn : ((bytes.drop (pos + 1)).take n).length = n := by simp; omega
  have htake := take_prefix n (bytes.drop (pos + 1))
  exact ⟨_, hn ▸ trailLegal_eq htake⟩

theorem cfIsLegalUTF8_defined (hn : n ≤ 3) (h₀ : bytes[pos]? = some b₀)
    (htrail : trailingBytesForUTF8 b₀ = n) (hlen : pos + n < bytes.length) :
    ∃ legal, cfIsLegalUTF8 bytes pos (n + 1) = some legal := by
  obtain ⟨trail, ht⟩ := trailLegal_defined hlen
  rw [cfIsLegalUTF8, if_neg (by omega), h₀]
  simp only [Option.bind_eq_bind, Option.bind_some, Nat.add_sub_cancel, ht]
  split
  · rcases lt_or_ge b₀.toNat 0xC0 with hlead | hlead
    · exact ⟨_, headLegal_one hlead⟩
    · have hmore : 0 < n := by
        unfold trailingBytesForUTF8 at htrail
        split_ifs at htrail <;> omega
      exact ⟨_, headLegal_more (getElem?_eq_getElem (by omega)) hlead⟩
  · exact ⟨_, rfl⟩

/-- Where no character lies the conversion stops, or takes a byte `A9` for
the replacement character. -/
theorem fromUTF8Step_stop (hpos : s.pos < bytes.length)
    (hstop : ∀ c, ¬String.utf8EncodeChar c <+: bytes.drop s.pos) (h₀ : bytes[s.pos]? = some b₀)
    (hout : room ≠ 0 → s.out.length = s.used ∧ s.used < room) : fromUTF8Step bytes room s =
      if b₀ = 0xA9 then
        some (true, ⟨s.pos + 1, s.used + 1,
          if room = 0 then s.out else s.out ++ [ofNat kReplacementCharacter]⟩)
      else some (false, s) := by
  rw [fromUTF8Step, h₀]
  simp only [Option.bind_eq_bind, Option.bind_some]
  by_cases hmore : trailingBytesForUTF8 b₀ > bytes.length - s.pos - 1
  · have hne : b₀ ≠ 0xA9 := by
      rintro rfl
      exact absurd hmore (by simp [trailingBytesForUTF8])
    rw [if_pos hmore, if_neg hne]
  · have hlegal : sequenceLegal bytes s.pos (trailingBytesForUTF8 b₀) = some false := by
      unfold sequenceLegal
      split
      · rfl
      · obtain ⟨legal, hl⟩ := cfIsLegalUTF8_defined (not_lt.mp ‹_›) h₀ rfl (by omega)
        cases legal with
        | false => exact hl
        | true =>
          obtain ⟨c, hc⟩ := exists_char_of_legal (not_lt.mp ‹_›) h₀ rfl (by omega) hl
          exact absurd hc (hstop c)
    rw [if_neg hmore, hlegal]
    simp only [Option.bind_some]
    rw [if_neg (by decide)]
    split
    · by_cases hz : room = 0
      · rw [if_pos hz, if_pos hz]
      · obtain ⟨hlen, hroom⟩ := hout hz
        rw [if_neg hz, if_neg hz, store, if_pos (by rw [hlen]; exact hroom)]
        rfl
    · rfl

theorem putCharacter_char (hout : room ≠ 0 → s.out.length = s.used ∧ s.used < room) :
    putCharacter room s pos c.toNat = if room = 0 ∨ s.used + (utf16EncodeChar c).length ≤ room then
        some (true, ⟨pos, s.used + (utf16EncodeChar c).length,
          if room = 0 then s.out else s.out ++ utf16EncodeChar c⟩)
      else some (false, { s with pos := pos }) := by
  have hvalid := Char.toNat_cases c
  unfold putCharacter
  rcases utf16_cases c with ⟨hlt, u, hu, hn⟩ | ⟨hge, u, v, hu, hn, hm⟩
  · rw [if_pos (by omega), if_neg (by omega), hu, ← hn, UInt16.ofNat_toNat]
    by_cases hz : room = 0
    · simp [hz]
    · obtain ⟨hlen, hroom⟩ := hout hz
      simp [hz, store, hlen, Nat.succ_le_of_lt hroom]
  · have hunits : [ofNat ((c.toNat - 0x10000) >>> 10 + 0xD800),
        ofNat (((c.toNat - 0x10000) &&& 0x3FF) + 0xDC00)] = [u, v] := by
      have hmod : (c.toNat - 0x10000) &&& 0x3FF = (c.toNat - 0x10000) % 0x400 :=
        Nat.and_two_pow_sub_one_eq_mod _ 10
      rw [hmod, Nat.shiftRight_eq_div_pow, ← hn, ← hm, UInt16.ofNat_toNat, UInt16.ofNat_toNat]
    rw [if_neg (by omega), if_neg (by omega), hu]
    simp only [hunits]
    by_cases hz : room = 0
    · simp [hz]
    · obtain ⟨hlen, hroom⟩ := hout hz
      by_cases hfit : s.used + 2 ≤ room
      · simp [hz, store, hlen, hfit, not_lt.mpr hfit]
      · simp [hz, hfit, not_le.mp hfit]

theorem fromUTF8Step_char (hc : String.utf8EncodeChar c <+: bytes.drop s.pos)
    (hout : room ≠ 0 → s.out.length = s.used ∧ s.used < room) : fromUTF8Step bytes room s =
      if room = 0 ∨ s.used + (utf16EncodeChar c).length ≤ room then
        some (true, ⟨s.pos + (String.utf8EncodeChar c).length, s.used + (utf16EncodeChar c).length,
          if room = 0 then s.out else s.out ++ utf16EncodeChar c⟩)
      else some (false, { s with pos := s.pos + (String.utf8EncodeChar c).length }) := by
  obtain ⟨b₀, extra, sum, h₀, htrail, hle, hlen, hlegal, hsum, hch⟩ := decode_char hc
  have hfits := hc.length_le
  rw [length_drop, hlen] at hfits
  have hseq : sequenceLegal bytes s.pos extra = some true := by
    rw [sequenceLegal, if_neg (by omega), hlegal]
  have hstep : fromUTF8Step bytes room s =
      putCharacter room s (s.pos + (extra + 1)) (sequenceValue extra sum) := by
    have hmore : ¬trailingBytesForUTF8 b₀ > bytes.length - s.pos - 1 := by
      omega
    unfold fromUTF8Step
    rw [h₀, Option.bind_eq_bind, Option.bind_some, if_neg hmore, htrail, hseq]
    simp only [Option.bind_eq_bind, Option.bind_some, if_true]
    rw [hsum, Option.bind_some]
  generalize sequenceValue extra sum = ch at hch hstep
  subst hch
  rw [hstep, hlen]
  exact putCharacter_char hout

/-- The loop from any point at which characters lie, if there is room for
all of them and no byte `A9` behind them. -/
theorem fromUTF8_loop (ds : List Char) {fuel : ℕ}
    (hlong : Longest String.utf8EncodeChar (bytes.drop s.pos) ds) (hout : s.out.length = s.used)
    (hroom : s.used + (utf16 ds).length ≤ room) (hA9 : ¬utf8 ds ++ [0xA9] <+: bytes.drop s.pos)
    (hfuel : bytes.length - s.pos < fuel) :
    checkedWhile (Conversion.going bytes.length room) (fromUTF8Step bytes room) fuel s =
      some ⟨s.pos + (utf8 ds).length, s.used + (utf16 ds).length, s.out ++ utf16 ds⟩ := by
  induction ds generalizing s fuel with
  | nil =>
    rcases fuel with _ | fuel
    · omega
    simp only [utf8, utf16, flatMap_nil, length_nil, Nat.add_zero, append_nil]
    cases hcond : s.going bytes.length room with
    | false => exact while_exit hcond
    | true =>
      obtain ⟨hpos, hor⟩ := of_decide_eq_true hcond
      have h₀ : bytes[s.pos]? = some bytes[s.pos] := getElem?_eq_getElem hpos
      refine while_break hcond ?_
      rw [fromUTF8Step_stop hpos (fun c => by simpa using hlong.stops c) h₀
        fun hne => ⟨hout, hor.resolve_left hne⟩, if_neg]
      intro heq
      refine hA9 ?_
      rw [drop_eq_cons h₀, heq]
      exact ⟨_, rfl⟩
  | cons c ds ih =>
    rcases fuel with _ | fuel
    · omega
    have hlen := length_pos_iff.mpr (prefixCode_utf16.ne_nil c)
    have hlen' := length_pos_iff.mpr (prefixCode_utf8.ne_nil c)
    have hpre := hlong.head.length_le
    have hnext := hlong.tail
    rw [drop_drop] at hnext
    rw [length_drop] at hpre
    simp only [utf16, flatMap_cons, length_append] at hroom
    have hcond : s.going bytes.length room = true := decide_eq_true ⟨by omega, .inr (by omega)⟩
    have hstep : fromUTF8Step bytes room s = _ :=
      fromUTF8Step_char hlong.head fun _ => ⟨hout, by omega⟩
    rw [if_pos (.inr (by omega)), if_neg (by omega)] at hstep
    rw [while_continue hcond hstep, ih hnext (by rw [length_append, hout])
      (by simp only [utf16]; omega) ?_ (show bytes.length - (s.pos + _) < fuel by omega)]
    · simp only [utf8, utf16, flatMap_cons, length_append, append_assoc, Nat.add_assoc]
    · intro hpre'
      obtain ⟨rest, hrest⟩ := hlong.head
      rw [← drop_drop, ← hrest, drop_left] at hpre'
      refine hA9 ?_
      rw [← hrest, utf8, flatMap_cons, append_assoc]
      exact (prefix_append_right_inj _).mpr hpre'

/-- Whatever the bytes and the room are, the conversion ends, reads only the
bytes it was given and stores no more than it has room for. -/
theorem cfFromUTF8_defined : ∃ s, cfFromUTF8 bytes room = some s := by
  refine (while_rule (fun s : Conversion UInt16 => room ≠ 0 → s.out.length = s.used)
    (fun _ => True) (fun s => bytes.length - s.pos) (fun s hlen hcond => ?_) (fun _ _ _ => trivial)
    (fun _ => rfl) (by simp)).imp fun _ h => h.1
  obtain ⟨hpos, hor⟩ := of_decide_eq_true hcond
  have hout : room ≠ 0 → s.out.length = s.used ∧ s.used < room :=
    fun hne => ⟨hlen hne, hor.resolve_left hne⟩
  by_cases hchar : ∃ c, String.utf8EncodeChar c <+: bytes.drop s.pos
  · obtain ⟨c, hc⟩ := hchar
    have hlen' := length_pos_iff.mpr (prefixCode_utf8.ne_nil c)
    rw [fromUTF8Step_char hc hout]
    by_cases hfit : room = 0 ∨ s.used + (utf16EncodeChar c).length ≤ room
    · rw [if_pos hfit]
      exact .inl ⟨_, rfl, fun hne => by simp [hne, hlen hne], by simp only; omega⟩
    · rw [if_neg hfit]
      exact .inr ⟨_, rfl, trivial⟩
  · rw [fromUTF8Step_stop hpos (not_exists.mp hchar) (getElem?_eq_getElem hpos) hout]
    by_cases hA9 : bytes[s.pos] = 0xA9
    · rw [if_pos hA9]
      exact .inl ⟨_, rfl, fun hne => by simp [hne, hlen hne], by simp only; omega⟩
    · rw [if_neg hA9]
      exact .inr ⟨_, rfl, trivial⟩

/-- What `__CFFromUTF8` makes of bytes that are well formed as far as `ds`
goes, if there is room and no byte `A9` follows. -/
theorem cfFromUTF8_eq {ds : List Char} (hlong : Longest String.utf8EncodeChar bytes ds)
    (hroom : (utf16 ds).length ≤ room) (hA9 : ¬utf8 ds ++ [0xA9] <+: bytes) :
    cfFromUTF8 bytes room = some ⟨(utf8 ds).length, (utf16 ds).length, utf16 ds⟩ := by
  rw [cfFromUTF8, fromUTF8_loop ds (s := ⟨0, 0, []⟩) hlong rfl (by simpa using hroom) hA9 (by simp)]
  simp

end FromUTF8

/-! ### Both directions -/

/-- The room that `__CFToUTF8Core` is told of, a `uint32_t`, is enough for
every character outside of ASCII, when `used` bytes have been stored. -/
def RoomSeen (room : ℕ) : ℕ → List Char → Prop
  | _, [] => True
  | used, c :: cs =>
    (c.toNat < 0x80 ∨ (String.utf8EncodeChar c).length ≤ (room - used) % 2 ^ 32) ∧
      RoomSeen room (used + (String.utf8EncodeChar c).length) cs

theorem fitting_eq_iff {used : ℕ} {cs : List Char} (hroom : used + (utf8 cs).length ≤ room) :
    fitting room used cs = cs ↔ RoomSeen room used cs := by
  induction cs generalizing used with
  | nil => exact iff_of_true rfl trivial
  | cons c cs ih =>
    have hpos := length_pos_iff.mpr (prefixCode_utf8.ne_nil c)
    simp only [utf8, flatMap_cons, length_append] at hroom
    rw [fitting, RoomSeen]
    by_cases hfit : c.toNat < 0x80 ∨ (String.utf8EncodeChar c).length ≤ (room - used) % 2 ^ 32
    · rw [if_pos ⟨by omega, hfit⟩, cons_inj_right, ih (by simp only [utf8]; omega)]
      exact ⟨fun h => ⟨hfit, h⟩, fun h => h.2⟩
    · rw [if_neg fun hand => hfit hand.2]
      exact iff_of_false (by simp) fun h => hfit h.1

theorem cfToUTF8_whole_iff {units : List UInt16} {cs : List Char}
    (hlong : Longest utf16EncodeChar units cs) (hroom : (utf8 cs).length ≤ room) :
    cfToUTF8 units room = some (.whole (utf16 cs) (utf8 cs)) ↔ RoomSeen room 0 cs := by
  have hne : room = 0 → cs = [] := fun hz => by
    have hnil : utf8 cs = utf8 [] := length_eq_zero_iff.mp (by omega)
    exact prefixCode_utf8.flatMap_inj hnil
  rw [cfToUTF8_eq hne hlong, ← fitting_eq_iff (by simpa using hroom)]
  refine ⟨fun h => ?_, fun h => by rw [h]⟩
  exact prefixCode_utf8.flatMap_inj (congrArg Conversion.out (Option.some.inj h))

/-- With room for it, `__CFToUTF8` converts the longest part of the units
that has no unpaired surrogate if and only if the room that is left is seen
at every character outside of ASCII, and `__CFFromUTF8` converts the longest
well-formed part of the bytes, if no byte `A9` stands where a sequence would
have to start behind it. Each undoes the other. With any room both end, and
neither reads or stores outside of the given lengths. -/
theorem utf8_conversion (units : List UInt16) (bytes : List UInt8) (room : ℕ) :
    ∃ cs ds, Longest utf16EncodeChar units cs ∧ Longest String.utf8EncodeChar bytes ds ∧
      ((utf8 cs).length ≤ room →
        (cfToUTF8 units room = some (.whole (utf16 cs) (utf8 cs)) ↔ RoomSeen room 0 cs)) ∧
      ((utf16 ds).length ≤ room → ¬utf8 ds ++ [0xA9] <+: bytes →
        cfFromUTF8 bytes room = some (.whole (utf8 ds) (utf16 ds))) ∧ ((utf16 cs).length ≤ room →
        cfFromUTF8 (utf8 cs) room = some (.whole (utf8 cs) (utf16 cs))) ∧ ((utf8 ds).length ≤ room →
        (cfToUTF8 (utf16 ds) room = some (.whole (utf16 ds) (utf8 ds)) ↔ RoomSeen room 0 ds)) ∧
      (cfToUTF8 units room).isSome ∧ (cfFromUTF8 bytes room).isSome := by
  obtain ⟨cs, hcs⟩ := exists_longest prefixCode_utf16 units
  obtain ⟨ds, hds⟩ := exists_longest prefixCode_utf8 bytes
  refine ⟨cs, ds, hcs, hds, cfToUTF8_whole_iff hcs, cfFromUTF8_eq hds, fun hroom => ?_,
    cfToUTF8_whole_iff (longest_self prefixCode_utf16 ds), ?_, ?_⟩
  · refine cfFromUTF8_eq (longest_self prefixCode_utf8 cs) hroom fun hpre => ?_
    have hlen := hpre.length_le
    rw [length_append, length_cons] at hlen
    omega
  · by_cases hz : room = 0
    · obtain ⟨s, hs⟩ := @cfToUTF8_count units
      rw [hz, hs]
      rfl
    · rw [cfToUTF8_eq (absurd · hz) hcs]
      rfl
  · obtain ⟨s, hs⟩ := cfFromUTF8_defined
    rw [hs]
    rfl

/-- With room for four gigabytes the room that is left is taken for none,
and the conversion of a letter with an accent stops before it starts. -/
theorem cfToUTF8_not_whole : Longest utf16EncodeChar [0xE9] ['é'] ∧ (utf8 ['é']).length ≤ 2 ^ 32 ∧
      cfToUTF8 [0xE9] (2 ^ 32) ≠ some (.whole (utf16 ['é']) (utf8 ['é'])) := by
  refine ⟨longest_self prefixCode_utf16 ['é'], by decide, ?_⟩
  decide +kernel

/-- The characters that fit are as many as there is room for. -/
theorem fitting_spec (hroom : room < 2 ^ 32) {used : ℕ} (hused : used ≤ room) (cs : List Char) :
    fitting room used cs <+: cs ∧ used + (utf8 (fitting room used cs)).length ≤ room ∧
      ∀ c, fitting room used cs ++ [c] <+: cs →
        room < used + (utf8 (fitting room used cs ++ [c])).length := by
  induction cs generalizing used with
  | nil => exact ⟨prefix_rfl, hused, fun c hc => absurd hc.length_le (by simp)⟩
  | cons c cs ih =>
    have hpos := length_pos_iff.mpr (prefixCode_utf8.ne_nil c)
    have hone : c.toNat < 0x80 → (String.utf8EncodeChar c).length = 1 := by
      intro hc
      rcases utf8_cases c with ⟨-, b, hb, -⟩ | ⟨hle, -⟩ | ⟨hle, -⟩ | ⟨hle, -⟩
      · rw [hb]
        rfl
      all_goals omega
    rw [fitting, Nat.mod_eq_of_lt (by omega)]
    split_ifs with hfit
    · have hused' : used + (String.utf8EncodeChar c).length ≤ room := by omega
      obtain ⟨hpre, hlen, hnext⟩ := ih hused'
      simp only [utf8, cons_append, cons_prefix_cons, true_and, flatMap_cons, length_append,
        ← Nat.add_assoc] at hlen hnext ⊢
      exact ⟨hpre, hlen, hnext⟩
    · refine ⟨by simp, hused, fun d hd => ?_⟩
      obtain ⟨rfl, -⟩ := cons_prefix_cons.mp hd
      simp only [utf8, nil_append, flatMap_singleton]
      omega

/-- With any room that is not zero and is a `uint32_t`, `__CFToUTF8` stores the
encoding of whole characters, as many as there is room for. -/
theorem cfToUTF8_fits (units : List UInt16) (hpos : 0 < room) (hroom : room < 2 ^ 32) :
    ∃ cs, cfToUTF8 units room = some (.whole (utf16 cs) (utf8 cs)) ∧ utf16 cs <+: units ∧
      (utf8 cs).length ≤ room ∧
      ∀ c, utf16 (cs ++ [c]) <+: units → room < (utf8 (cs ++ [c])).length := by
  obtain ⟨cs, hlong⟩ := exists_longest prefixCode_utf16 units
  obtain ⟨hpre, hlen, hnext⟩ := fitting_spec hroom (Nat.zero_le room) cs
  refine ⟨_, cfToUTF8_eq (absurd · hpos.ne') hlong, ?_, by simpa using hlen, fun c hc => ?_⟩
  · obtain ⟨ds, hds⟩ := hpre
    refine .trans ⟨utf16 ds, ?_⟩ hlong.isPrefix
    rw [utf16, utf16, ← flatMap_append, hds]
  · simpa using hnext c (hlong.isPrefix_of_isPrefix prefixCode_utf16 hc)

/-- There is no room for the second character, which has two bytes. -/
theorem cfToUTF8_fits_two : ∃ cs, cfToUTF8 [0x41, 0xE9] 2 = some (.whole (utf16 cs) (utf8 cs)) ∧
    (utf8 cs).length ≤ 2 :=
  let ⟨cs, hcs, _, hlen, _⟩ := cfToUTF8_fits [0x41, 0xE9] (by decide : 0 < 2) (by decide)
  ⟨cs, hcs, hlen⟩

end Hexley.Cf
