import Hexley.Lib.PrefixCode
import Mathlib

/-!
UTF-8 and UTF-16.

Lean's `Char` is a Unicode scalar value, and `String.utf8EncodeChar` its
standard UTF-8 form. The UTF-16 form is given here. Both are codes in which
no code word starts another, so that "the longest well-formed part of a
string" is `Longest` of the code.
-/

namespace Hexley.Lib

open String UInt16

def utf16EncodeChar (c : Char) : List UInt16 :=
  if c.toNat < 0x10000 then [ofNat c.toNat]
  else
    [ofNat ((c.toNat - 0x10000) / 0x400 + 0xD800), ofNat ((c.toNat - 0x10000) % 0x400 + 0xDC00)]

def utf8 (cs : List Char) : List UInt8 := cs.flatMap utf8EncodeChar

def utf16 (cs : List Char) : List UInt16 := cs.flatMap utf16EncodeChar

theorem Char.toNat_cases (c : Char) : c.toNat < 0xD800 ∨ 0xDFFF < c.toNat ∧ c.toNat < 0x110000 :=
  c.valid

theorem exists_char {n : ℕ} (hn : n < 0xD800 ∨ 0xDFFF < n ∧ n < 0x110000) :
    ∃ c : Char, c.toNat = n :=
  ⟨Char.ofNatAux n hn, by simp [Char.ofNatAux, Char.toNat]⟩

theorem prefixCode_utf8 : PrefixCode utf8EncodeChar where
  ne_nil c := utf8EncodeChar_ne_nil
  unique := by
    rintro a b l ⟨l₁, rfl⟩ ⟨l₂, hl⟩
    have ha := ByteArray.utf8DecodeChar?_utf8EncodeChar_append (b := l₁.toByteArray) (c := a)
    have hb := ByteArray.utf8DecodeChar?_utf8EncodeChar_append (b := l₂.toByteArray) (c := b)
    rw [← List.toByteArray_append] at ha hb
    rw [hl, ha] at hb
    exact Option.some.inj hb

theorem utf8_cases (c : Char) :
    (c.toNat < 0x80 ∧ ∃ b₀ : UInt8, utf8EncodeChar c = [b₀] ∧ b₀.toNat = c.toNat) ∨
    (0x80 ≤ c.toNat ∧ c.toNat < 0x800 ∧ ∃ b₀ b₁ : UInt8, utf8EncodeChar c = [b₀, b₁] ∧
      b₀.toNat = c.toNat / 64 + 0xC0 ∧ b₁.toNat = c.toNat % 64 + 0x80) ∨
    (0x800 ≤ c.toNat ∧ c.toNat < 0x10000 ∧ ∃ b₀ b₁ b₂ : UInt8,
      utf8EncodeChar c = [b₀, b₁, b₂] ∧ b₀.toNat = c.toNat / 4096 + 0xE0 ∧
      b₁.toNat = c.toNat / 64 % 64 + 0x80 ∧ b₂.toNat = c.toNat % 64 + 0x80) ∨
    0x10000 ≤ c.toNat ∧ ∃ b₀ b₁ b₂ b₃ : UInt8, utf8EncodeChar c = [b₀, b₁, b₂, b₃] ∧
      b₀.toNat = c.toNat / 262144 + 0xF0 ∧ b₁.toNat = c.toNat / 4096 % 64 + 0x80 ∧
      b₂.toNat = c.toNat / 64 % 64 + 0x80 ∧ b₃.toNat = c.toNat % 64 + 0x80 := by
  have hc := Char.toNat_cases c
  have hv : c.val.toNat = c.toNat := rfl
  unfold utf8EncodeChar
  simp only [hv]
  split
  · exact .inl ⟨by omega, _, rfl, by rw [UInt8.toNat_ofNat']; omega⟩
  split
  · refine .inr (.inl ⟨by omega, by omega, _, _, rfl, ?_, ?_⟩) <;> rw [UInt8.toNat_ofNat'] <;> omega
  split
  · refine .inr (.inr (.inl ⟨by omega, by omega, _, _, _, rfl, ?_, ?_, ?_⟩)) <;>
      rw [UInt8.toNat_ofNat'] <;> omega
  · refine .inr (.inr (.inr ⟨by omega, _, _, _, _, rfl, ?_, ?_, ?_, ?_⟩)) <;>
      rw [UInt8.toNat_ofNat'] <;> omega

def utf8Values (n : ℕ) : List ℕ :=
  if n < 0x80 then [n]
  else if n < 0x800 then [n / 64 + 0xC0, n % 64 + 0x80]
  else if n < 0x10000 then [n / 4096 + 0xE0, n / 64 % 64 + 0x80, n % 64 + 0x80]
  else [n / 262144 + 0xF0, n / 4096 % 64 + 0x80, n / 64 % 64 + 0x80, n % 64 + 0x80]

theorem utf8EncodeChar_eq {c : Char} {bs : List UInt8}
    (h : bs.map UInt8.toNat = utf8Values c.toNat) : utf8EncodeChar c = bs := by
  have hinj : Function.Injective UInt8.toNat := fun a b h => UInt8.toNat_inj.mp h
  refine List.map_injective_iff.mpr hinj ?_
  rw [h, utf8Values]
  rcases utf8_cases c with ⟨hv, b₀, hb, h₀⟩ | ⟨hv, hv', b₀, b₁, hb, h₀, h₁⟩ |
      ⟨hv, hv', b₀, b₁, b₂, hb, h₀, h₁, h₂⟩ | ⟨hv, b₀, b₁, b₂, b₃, hb, h₀, h₁, h₂, h₃⟩ <;>
    grind

theorem utf16_cases (c : Char) :
    (c.toNat < 0x10000 ∧ ∃ u : UInt16, utf16EncodeChar c = [u] ∧ u.toNat = c.toNat) ∨
      0x10000 ≤ c.toNat ∧ ∃ u v : UInt16, utf16EncodeChar c = [u, v] ∧
        u.toNat = (c.toNat - 0x10000) / 0x400 + 0xD800 ∧
        v.toNat = (c.toNat - 0x10000) % 0x400 + 0xDC00 := by
  have hc := Char.toNat_cases c
  unfold utf16EncodeChar
  split
  · refine .inl ⟨‹_›, _, rfl, ?_⟩
    rw [toNat_ofNat', Nat.mod_eq_of_lt (by omega)]
  · refine .inr ⟨by omega, _, _, rfl, ?_, ?_⟩ <;>
      rw [toNat_ofNat', Nat.mod_eq_of_lt (by omega)]

theorem utf16_singleton {c : Char} {u : UInt16} (hu : u.toNat = c.toNat) :
    utf16EncodeChar c = [u] := by
  have hlt := u.toNat_lt
  rcases utf16_cases c with ⟨-, v, hv, hn⟩ | ⟨hge, -⟩
  · rw [hv, UInt16.toNat_inj.mp (hn.trans hu.symm)]
  · omega

theorem utf16EncodeChar_eq_pair {c : Char} {u v : UInt16} (hu : 0xD800 ≤ u.toNat)
    (hv : 0xDC00 ≤ v.toNat) (hv' : v.toNat ≤ 0xDFFF)
    (hc : c.toNat = (u.toNat - 0xD800) * 0x400 + (v.toNat - 0xDC00) + 0x10000) :
    utf16EncodeChar c = [u, v] := by
  rcases utf16_cases c with ⟨hlt, -⟩ | ⟨-, u', v', huv, hn, hm⟩
  · omega
  · rw [huv, UInt16.toNat_inj.mp (show u'.toNat = u.toNat by omega),
      UInt16.toNat_inj.mp (show v'.toNat = v.toNat by omega)]

theorem prefixCode_utf16 : PrefixCode utf16EncodeChar where
  ne_nil c := by
    rcases utf16_cases c with ⟨-, u, hu, -⟩ | ⟨-, u, v, hu, -⟩ <;> simp [hu]
  unique := by
    rintro a b l ⟨l₁, rfl⟩ ⟨l₂, hl⟩
    have hvalid := Char.toNat_cases a
    have hvalid' := Char.toNat_cases b
    refine Char.toNat_inj.mp ?_
    rcases utf16_cases a with ⟨ha, u, hu, hn⟩ | ⟨ha, u, v, hu, hn, hm⟩ <;>
      rcases utf16_cases b with ⟨hb, u', hu', hn'⟩ | ⟨hb, u', v', hu', hn', hm'⟩ <;>
      rw [hu, hu'] at hl <;> simp only [List.cons_append, List.nil_append, List.cons.injEq] at hl
    · rw [← hn, ← hn', hl.1]
    · rw [← hl.1] at hn
      omega
    · rw [← hl.1] at hn
      omega
    · rw [← hl.1] at hn
      rw [← hl.2.1] at hm
      omega

end Hexley.Lib
