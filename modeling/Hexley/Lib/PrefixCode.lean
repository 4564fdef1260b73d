import Mathlib.Data.List.Infix
import Mathlib.Tactic.Common

/-!
Codes in which no code word starts another.

A text over such a code is read from left to right without looking ahead,
and what a reader accepts of any string is settled by it: the code words
that lie at the front of the string, one after the other, for as long as
there is one. `Longest` says that a list of symbols is that part, and
`Longest.isPrefix` that every other text at the front of the string is the
beginning of it.
-/

namespace Hexley.Lib

open List

variable {α β : Type*}

/-- The code words are not empty, and at most one of them lies at the front
of a string. -/
structure PrefixCode (enc : α → List β) : Prop where
  ne_nil : ∀ a, enc a ≠ []
  unique : ∀ {a b : α} {l : List β}, enc a <+: l → enc b <+: l → a = b

/-- The text `as` lies at the front of `l`, and no code word lies behind it. -/
structure Longest (enc : α → List β) (l : List β) (as : List α) : Prop where
  isPrefix : as.flatMap enc <+: l
  stops : ∀ a, ¬as.flatMap enc ++ enc a <+: l

section

variable {enc : α → List β} {l : List β} {as bs : List α}

theorem longest_nil (hstop : ∀ a, ¬enc a <+: l) : Longest enc l [] :=
  ⟨by simp, fun a => by simpa using hstop a⟩

theorem Longest.cons {a : α} (hlong : Longest enc l as) : Longest enc (enc a ++ l) (a :: as) := by
  refine ⟨?_, fun b hb => ?_⟩
  · exact (prefix_append_right_inj _).mpr hlong.isPrefix
  · rw [flatMap_cons, append_assoc, prefix_append_right_inj] at hb
    exact hlong.stops b hb

theorem Longest.head {a : α} (hlong : Longest enc l (a :: as)) : enc a <+: l :=
  (prefix_append _ _).trans hlong.isPrefix

theorem Longest.tail {a : α} (hlong : Longest enc l (a :: as)) :
    Longest enc (l.drop (enc a).length) as := by
  obtain ⟨l, rfl⟩ := hlong.head
  rw [drop_left]
  refine ⟨?_, fun b hb => hlong.stops b ?_⟩
  · exact (prefix_append_right_inj _).mp hlong.isPrefix
  · rw [flatMap_cons, append_assoc]
    exact (prefix_append_right_inj _).mpr hb

section

variable (hcode : PrefixCode enc)
include hcode

theorem Longest.isPrefix_of_isPrefix (hlong : Longest enc l as)
    (hbs : bs.flatMap enc <+: l) : bs <+: as := by
  induction bs generalizing l as with
  | nil => exact nil_prefix
  | cons b bs ih =>
    have hb : enc b <+: l := (prefix_append _ _).trans hbs
    cases as with
    | nil => exact absurd hb (by simpa using hlong.stops b)
    | cons a as =>
      obtain rfl : a = b := hcode.unique hlong.head hb
      refine List.cons_prefix_cons.mpr ⟨rfl, ih hlong.tail ?_⟩
      obtain ⟨l, rfl⟩ := hb
      rw [drop_left]
      exact (prefix_append_right_inj _).mp hbs

theorem exists_longest (l : List β) : ∃ as, Longest enc l as := by
  induction hn : l.length using Nat.strong_induction_on generalizing l with
  | _ n ih =>
    by_cases hstop : ∀ a, ¬enc a <+: l
    · exact ⟨[], longest_nil hstop⟩
    · push Not at hstop
      obtain ⟨a, l, rfl⟩ := hstop
      have hpos := List.length_pos_iff.mpr (hcode.ne_nil a)
      rw [length_append] at hn
      obtain ⟨as, has⟩ := ih l.length (by omega) l rfl
      exact ⟨a :: as, has.cons⟩

theorem longest_self (as : List α) : Longest enc (as.flatMap enc) as := by
  refine ⟨prefix_rfl, fun a ha => ?_⟩
  have hlen := ha.length_le
  rw [length_append] at hlen
  have hpos := List.length_pos_iff.mpr (hcode.ne_nil a)
  omega

/-- A text is read in one way only. -/
theorem PrefixCode.flatMap_inj (h : as.flatMap enc = bs.flatMap enc) : as = bs := by
  have hle : as <+: bs := (longest_self hcode bs).isPrefix_of_isPrefix hcode (by rw [h])
  have hge : bs <+: as := (longest_self hcode as).isPrefix_of_isPrefix hcode (by rw [h])
  exact hle.eq_of_length_le hge.length_le

end

end

end Hexley.Lib
