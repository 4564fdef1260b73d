import Hexley.Dns.NameEquality

/-!
Names as text.

In the text of a name the labels are separated by dots, and a backslash takes
the next character as it is or stands in front of three decimal digits.
`AppendDNSNameString` reads such a text and appends its labels to a name. It
is a program that reads the text (`Rd`), so that what it reads behind the
terminating zero is part of what it does.

`Denotes` says which labels a text stands for. The scanner goes through the
same labels in the same order as long as two things do not happen
(`Misread`): a backslash in front of the terminating zero takes the zero as
its character, and when the room of the name is used up the character at
which the scanner stands is skipped as if it were a dot.
-/

namespace Hexley.Dns

open Lib List Rd Mem UInt8

def dot : UInt8 := 0x2E

def backslash : UInt8 := 0x5C

def decimalValue (d₀ d₁ d₂ : UInt8) : ℕ :=
  (d₀.toNat - 0x30) * 100 + (d₁.toNat - 0x30) * 10 + (d₂.toNat - 0x30)

/-! ### The scanner -/

/-- What the inner loop of `AppendDNSNameString` takes at `cstr` as a character, and where it
goes on. -/
def takeChar (cstr : ℕ) : Rd (UInt8 × ℕ) := do
  let c ← byte cstr
  if c ≠ backslash then pure (c, cstr + 1)
  else do
    let d₀ ← byte (cstr + 1)
    if mdnsIsDigit d₀ then do
      let d₁ ← byte (cstr + 2)
      if mdnsIsDigit d₁ then do
        let d₂ ← byte (cstr + 3)
        if mdnsIsDigit d₂ ∧ decimalValue d₀ d₁ d₂ ≤ 255 then
          pure (ofNat (decimalValue d₀ d₁ d₂), cstr + 4)
        else pure (d₀, cstr + 2)
      else pure (d₀, cstr + 2)
    else pure (d₀, cstr + 2)

/-- The inner loop of `AppendDNSNameString`: where it stops in the text and in the name. -/
def copyLabelFrom (lim : ℕ) : ℕ → ℕ → ℕ → Mem → Rd (ℕ × ℕ × Mem)
  | 0, cstr, ptr, name => pure (cstr, ptr, name)
  | fuel + 1, cstr, ptr, name => do
      let c ← byte cstr
      if c ≠ 0 ∧ c ≠ dot ∧ ptr < lim then do
        let x ← takeChar cstr
        copyLabelFrom lim fuel x.2 (ptr + 1) (name.write ptr [x.1])
      else pure (cstr, ptr, name)

/-- The outer loop of `AppendDNSNameString` and what comes after it. Every turn writes at
least the length byte of a label. -/
def appendLabelsFrom (lim : ℕ) : ℕ → ℕ → ℕ → Mem → Rd (Option ℕ × Mem)
  | 0, _, _, name => pure (none, name)
  | fuel + 1, cstr, ptr, name => do
      let c ← byte cstr
      if c ≠ 0 ∧ ptr < lim then
        if c = dot then pure (none, name)
        else do
          let x ← copyLabelFrom lim maxDomainName cstr (ptr + 1) name
          let c ← byte x.1
          if x.2.1 - ptr - 1 > maxDomainLabel then pure (none, x.2.2)
          else
            appendLabelsFrom lim fuel (if c ≠ 0 then x.1 + 1 else x.1) x.2.1
              (x.2.2.write ptr [ofNat (x.2.1 - ptr - 1)])
      else do
        let c ← byte cstr
        pure (if c ≠ 0 then none else some (ptr + 1), name.write ptr [0])

/-- `AppendDNSNameString`, with the text at the start of the memory that is read. -/
def appendDNSNameString (name : Mem) : Rd (Option ℕ × Mem) :=
  appendLabelsFrom (maxDomainName - 1) maxDomainName 0
    (compressedDomainNameLength name 0 none - 1) name

def makeDomainNameFromDNSNameString (name : Mem) : Rd (Option ℕ × Mem) :=
  appendDNSNameString (name.write 0 [0])

/-! ### What a text stands for -/

def startsDecimal : List UInt8 → Bool
  | d₀ :: d₁ :: d₂ :: _ =>
    mdnsIsDigit d₀ && mdnsIsDigit d₁ && mdnsIsDigit d₂ && decimalValue d₀ d₁ d₂ ≤ 255
  | _ => false

inductive TextChar : List UInt8 → UInt8 → List UInt8 → Prop
  | plain {c : UInt8} {t : List UInt8} (hdot : c ≠ dot) (hesc : c ≠ backslash) :
      TextChar (c :: t) c t
  | escaped {c : UInt8} {t : List UInt8} (h : startsDecimal (c :: t) = false) :
      TextChar (backslash :: c :: t) c t
  | decimal {d₀ d₁ d₂ : UInt8} {t : List UInt8}
      (h : startsDecimal (d₀ :: d₁ :: d₂ :: t) = true) :
      TextChar (backslash :: d₀ :: d₁ :: d₂ :: t) (ofNat (decimalValue d₀ d₁ d₂)) t

inductive TextLabel : List UInt8 → List UInt8 → List UInt8 → Prop
  | nil {t : List UInt8} : TextLabel t [] t
  | cons {t t' t'' l : List UInt8} {b : UInt8} (first : TextChar t b t')
      (rest : TextLabel t' l t'') : TextLabel t (b :: l) t''

/-- A text is the text of these labels: none of them is empty, dots are between them, and
there may be one at the end. -/
inductive Denotes : List UInt8 → List (List UInt8) → Prop
  | nil : Denotes [] []
  | last {t l : List UInt8} (h : TextLabel t l []) (hne : l ≠ []) : Denotes t [l]
  | more {t t' l : List UInt8} {ls : List (List UInt8)} (h : TextLabel t l (dot :: t'))
      (hne : l ≠ []) (rest : Denotes t' ls) : Denotes t (l :: ls)

structure CString (m : Mem) (s : List UInt8) : Prop where
  holds : m.Holds 0 (s ++ [0])
  noZero : 0 ∉ s

/-- What a program that appends the text `s` to the name `d` should do. -/
structure Appends (x : Rd (Option ℕ × Mem)) (m : Mem) (s : List UInt8) (d : DomainName) :
    Prop where
  /-- It succeeds exactly for the texts of labels that fit behind the name. -/
  accepts_iff : (x.run m).1.isSome = true ↔
    ∃ ls, Denotes s ls ∧ ∃ e : DomainName, e.labels = d.labels ++ ls
  /-- Then the name is followed by the labels, and the result is the end of it. -/
  stored : ∀ (ls : List (List UInt8)) (e : DomainName), Denotes s ls → e.labels = d.labels ++ ls →
    (x.run m).1 = some e.bytes.length ∧ NameAt (x.run m).2 0 e
  /-- Nothing behind the terminating zero is read. -/
  reads : x.ReadsBelow m (s.length + 1)

/-- The scanner goes wrong on a text with room for `r` bytes. -/
inductive Misread : List UInt8 → ℕ → Prop
  /-- There is room for the character of a backslash, and the text ends behind it. -/
  | cut {t l : List UInt8} {r : ℕ} (h : TextLabel t l [backslash]) (hroom : l.length + 1 < r) :
      Misread t r
  /-- The room is used up, and one character is left. -/
  | full {t l : List UInt8} {c : UInt8} {r : ℕ} (h : TextLabel t l [c]) (hc : c ≠ dot)
      (hroom : l.length + 1 = r) (hle : l.length ≤ maxDomainLabel) : Misread t r
  /-- There is room for the first label, and it goes wrong behind it. -/
  | more {t t' l : List UInt8} {r : ℕ} (h : TextLabel t l (dot :: t')) (hne : l ≠ [])
      (hle : l.length ≤ maxDomainLabel) (hroom : l.length + 1 ≤ r)
      (rest : Misread t' (r - (l.length + 1))) : Misread t r

/-! ### The grammar reads a text in one way -/

variable {t t' l : List UInt8} {b : UInt8} {ls : List (List UInt8)} {m name : Mem} {p lim ptr r : ℕ}

section Grammar

variable {t₁ t₂ l₁ l₂ : List UInt8} {b' : UInt8}

def Ends (t : List UInt8) : Prop := t = [] ∨ ∃ t', t = dot :: t'

theorem TextChar.not_ends (h : TextChar t b t') : ¬Ends t := by
  rintro (rfl | ⟨t, rfl⟩)
  · cases h
  · cases h with
    | plain hdot => exact hdot rfl

theorem TextChar.ne_backslash (h : TextChar t b t') : t ≠ [backslash] := by
  rintro rfl
  cases h with
  | plain hdot hesc => exact hesc rfl

theorem TextChar.unique (h : TextChar t b t₁) (h' : TextChar t b' t₂) : b = b' ∧ t₁ = t₂ := by
  cases h with
  | plain hdot hesc =>
    cases h' with
    | plain => exact ⟨rfl, rfl⟩
    | escaped | decimal => exact absurd rfl hesc
  | escaped h =>
    cases h' with
    | plain hdot hesc => exact absurd rfl hesc
    | escaped => exact ⟨rfl, rfl⟩
    | decimal h' => exact absurd (h.symm.trans h') Bool.false_ne_true
  | decimal h =>
    cases h' with
    | plain hdot hesc => exact absurd rfl hesc
    | escaped h' => exact absurd (h'.symm.trans h) Bool.false_ne_true
    | decimal => exact ⟨rfl, rfl⟩

theorem textChar_cases (h : ¬Ends t) : t = [backslash] ∨ ∃ b t', TextChar t b t' := by
  cases t with
  | nil => exact absurd (.inl rfl) h
  | cons c t =>
    have hdot : c ≠ dot := fun hc => h (.inr ⟨t, by rw [hc]⟩)
    by_cases hesc : c = backslash
    · subst hesc
      cases t with
      | nil => exact .inl rfl
      | cons d₀ t =>
        cases hdec : startsDecimal (d₀ :: t) with
        | false => exact .inr ⟨_, _, .escaped hdec⟩
        | true =>
          match t, hdec with
          | d₁ :: d₂ :: t, hdec => exact .inr ⟨_, _, .decimal hdec⟩
    · exact .inr ⟨_, _, .plain hdot hesc⟩

theorem TextLabel.compare (h : TextLabel t l₁ t₁) (h' : TextLabel t l₂ t₂) :
    (∃ k, l₂ = l₁ ++ k ∧ TextLabel t₁ k t₂) ∨ ∃ k, l₁ = l₂ ++ k ∧ TextLabel t₂ k t₁ := by
  induction h generalizing l₂ with
  | nil => exact .inl ⟨l₂, rfl, h'⟩
  | cons first rest ih =>
    cases h' with
    | nil => exact .inr ⟨_, rfl, .cons first rest⟩
    | cons first' rest' =>
      obtain ⟨rfl, rfl⟩ := first.unique first'
      rcases ih rest' with ⟨k, rfl, hk⟩ | ⟨k, rfl, hk⟩
      · exact .inl ⟨k, rfl, hk⟩
      · exact .inr ⟨k, rfl, hk⟩

theorem TextLabel.of_ends (h : TextLabel t l t') (hends : Ends t) : l = [] ∧ t = t' := by
  cases h with
  | nil => exact ⟨rfl, rfl⟩
  | cons first => exact absurd hends first.not_ends

theorem TextLabel.of_backslash (h : TextLabel [backslash] l t') : l = [] ∧ t' = [backslash] := by
  cases h with
  | nil => exact ⟨rfl, rfl⟩
  | cons first => exact absurd rfl first.ne_backslash

theorem TextLabel.compare_ends (h : TextLabel t l₁ t₁) (h' : TextLabel t l₂ t₂)
    (hends : Ends t₂) : ∃ k, l₂ = l₁ ++ k ∧ TextLabel t₁ k t₂ := by
  rcases h.compare h' with hk | ⟨k, rfl, hk⟩
  · exact hk
  · obtain ⟨rfl, rfl⟩ := hk.of_ends hends
    exact ⟨[], by simp, .nil⟩

theorem TextLabel.unique (h : TextLabel t l₁ t₁) (h' : TextLabel t l₂ t₂) (hends : Ends t₁)
    (hends' : Ends t₂) : l₁ = l₂ ∧ t₁ = t₂ := by
  obtain ⟨k, rfl, hk⟩ := h.compare_ends h' hends'
  obtain ⟨rfl, rfl⟩ := hk.of_ends hends
  exact ⟨by simp, rfl⟩

theorem Denotes.cases_ne (h : Denotes t ls) (hne : t ≠ []) :
    ∃ l t' ls', TextLabel t l t' ∧ Ends t' ∧ l ≠ [] ∧ ls = l :: ls' ∧ Denotes t'.tail ls' := by
  cases h with
  | nil => exact absurd rfl hne
  | last h hl => exact ⟨_, _, _, h, .inl rfl, hl, rfl, .nil⟩
  | more h hl rest => exact ⟨_, _, _, h, .inr ⟨_, rfl⟩, hl, rfl, rest⟩

theorem denotes_iff (h : TextLabel t l t') (hends : Ends t') (hne : t ≠ []) :
    Denotes t ls ↔ l ≠ [] ∧ ∃ ls', ls = l :: ls' ∧ Denotes t'.tail ls' := by
  refine ⟨fun hd => ?_, fun ⟨hl, ls', hls, hd⟩ => ?_⟩
  · obtain ⟨l₁, t₁, ls', h₁, hends₁, hl₁, rfl, hd⟩ := hd.cases_ne hne
    obtain ⟨rfl, rfl⟩ := h.unique h₁ hends hends₁
    exact ⟨hl₁, ls', rfl, hd⟩
  · subst hls
    rcases hends with rfl | ⟨t'', rfl⟩
    · cases hd with
      | nil => exact .last h hl
      | last h' hl' => exact absurd (h'.of_ends (.inl rfl)).1 hl'
      | more h' hl' => exact absurd (h'.of_ends (.inl rfl)).1 hl'
    · exact .more h hl hd

theorem Denotes.length_lt (h : Denotes t ls) (hl : TextLabel t l t') (hends : ¬Ends t') :
    ∃ l₁ ls', ls = l₁ :: ls' ∧ l.length < l₁.length := by
  have hne : t ≠ [] := by
    rintro rfl
    obtain ⟨-, rfl⟩ := hl.of_ends (.inl rfl)
    exact hends (.inl rfl)
  obtain ⟨l₁, t₁, ls', h₁, hends₁, -, rfl, -⟩ := h.cases_ne hne
  obtain ⟨k, rfl, hk⟩ := hl.compare_ends h₁ hends₁
  refine ⟨_, _, rfl, ?_⟩
  cases k with
  | nil =>
    cases hk
    exact absurd hends₁ hends
  | cons b k => rw [length_append, length_cons]; omega

theorem not_ends_singleton {c : UInt8} (hc : c ≠ dot) : ¬Ends [c] := by
  rintro (h | ⟨t, h⟩)
  · cases h
  · exact hc (List.cons.inj h).1

end Grammar

/-! ### The text in memory -/

structure TextAt (m : Mem) (p : ℕ) (t : List UInt8) : Prop where
  holds : m.Holds p (t ++ [0])
  noZero : 0 ∉ t

section

variable {c : UInt8}

theorem TextAt.zero (h : TextAt m p t) : m (p + t.length) = 0 :=
  (holds_cons.mp (holds_append.mp h.holds).2).1

theorem TextAt.first (h : TextAt m p (c :: t)) : m p = c := (holds_cons.mp h.holds).1

theorem TextAt.ne_zero (h : TextAt m p (c :: t)) : c ≠ 0 := fun hc => h.noZero (hc ▸ mem_cons_self)

theorem TextAt.tail (h : TextAt m p (c :: t)) : TextAt m (p + 1) t where
  holds := (holds_cons.mp h.holds).2
  noZero := fun hc => h.noZero (mem_cons_of_mem c hc)

/-! ### One character -/

section TakeChar

variable {cstr : ℕ}

theorem takeChar_escaped (h : m cstr = backslash)
    (hdec : ¬(mdnsIsDigit (m (cstr + 1)) ∧ mdnsIsDigit (m (cstr + 2)) ∧ mdnsIsDigit (m (cstr + 3)) ∧
      decimalValue (m (cstr + 1)) (m (cstr + 2)) (m (cstr + 3)) ≤ 255)) :
    (takeChar cstr).run m = (m (cstr + 1), cstr + 2) := by
  by_cases h₀ : mdnsIsDigit (m (cstr + 1))
  · by_cases h₁ : mdnsIsDigit (m (cstr + 2))
    · have h₂ : ¬(mdnsIsDigit (m (cstr + 3)) ∧
          decimalValue (m (cstr + 1)) (m (cstr + 2)) (m (cstr + 3)) ≤ 255) :=
        fun hc => hdec ⟨h₀, h₁, hc⟩
      simp [takeChar, h, h₀, h₁, h₂]
    · simp [takeChar, h, h₀, h₁]
  · simp [takeChar, h, h₀]

theorem takeChar_reads (hp : p ∈ (takeChar cstr).reads m) :
    p = cstr ∨ p = cstr + 1 ∧ m cstr = backslash ∨ p = cstr + 2 ∧ mdnsIsDigit (m (cstr + 1)) ∨
      p = cstr + 3 ∧ mdnsIsDigit (m (cstr + 1)) ∧ mdnsIsDigit (m (cstr + 2)) := by
  by_cases h : m cstr = backslash
  · by_cases h₀ : mdnsIsDigit (m (cstr + 1))
    · by_cases h₁ : mdnsIsDigit (m (cstr + 2))
      · by_cases h₂ : mdnsIsDigit (m (cstr + 3)) ∧
          decimalValue (m (cstr + 1)) (m (cstr + 2)) (m (cstr + 3)) ≤ 255
        · simpa [takeChar, h, h₀, h₁, h₂] using hp
        · simpa [takeChar, h, h₀, h₁, h₂] using hp
      · simpa [takeChar, h, h₀, h₁] using hp
    · simpa [takeChar, h, h₀] using hp
  · refine .inl ?_
    simpa [takeChar, h] using hp

end TakeChar

theorem TextAt.lt_of_digit {k : ℕ} (h : TextAt m p t) (hk : k ≤ t.length)
    (hdigit : mdnsIsDigit (m (p + k))) : k < t.length := by
  refine lt_of_le_of_ne hk fun hc => ?_
  rw [hc, h.zero] at hdigit
  exact absurd hdigit (by decide)

theorem takeChar_readsBelow (h : TextAt m p t) (hends : ¬Ends t) :
    (takeChar p).ReadsBelow m (p + t.length + 1) := by
  cases t with
  | nil => exact absurd (.inl rfl) hends
  | cons c t =>
    intro q hq
    rw [length_cons]
    rcases takeChar_reads hq with rfl | ⟨rfl, -⟩ | ⟨rfl, h₀⟩ | ⟨rfl, h₀, h₁⟩
    · omega
    · omega
    · have := h.tail.lt_of_digit (Nat.zero_le _) h₀
      omega
    · have hpos := h.tail.lt_of_digit (Nat.zero_le _) h₀
      have := h.tail.lt_of_digit (k := 1) hpos h₁
      omega

theorem TextAt.startsDecimal_iff (h : TextAt m p t) (hne : t ≠ []) :
    startsDecimal t = true ↔ mdnsIsDigit (m p) ∧ mdnsIsDigit (m (p + 1)) ∧
      mdnsIsDigit (m (p + 2)) ∧ decimalValue (m p) (m (p + 1)) (m (p + 2)) ≤ 255 := by
  have hno : mdnsIsDigit 0 = false := by decide
  match t, hne with
  | [d₀], _ =>
    have hz : m (p + 1) = 0 := h.zero
    simp [startsDecimal, hz, hno]
  | [d₀, d₁], _ =>
    have hz : m (p + 2) = 0 := h.zero
    simp [startsDecimal, hz, hno]
  | d₀ :: d₁ :: d₂ :: t, _ =>
    rw [h.first, h.tail.first, h.tail.tail.first, startsDecimal]
    simp only [Bool.and_eq_true, decide_eq_true_eq, and_assoc]

theorem takeChar_of_textChar (h : TextAt m p t) (hc : TextChar t b t') :
    ∃ p', (takeChar p).run m = (b, p') ∧ p' + t'.length = p + t.length ∧ TextAt m p' t' := by
  cases hc with
  | plain hdot hesc =>
    exact ⟨p + 1, by simp [takeChar, h.first, hesc], by rw [length_cons]; omega, h.tail⟩
  | escaped hdec =>
    have hno := (h.tail.startsDecimal_iff (by simp)).not.mp (by rw [hdec]; simp)
    rw [takeChar_escaped h.first hno, h.tail.first]
    exact ⟨_, rfl, by simp only [length_cons]; omega, h.tail.tail⟩
  | decimal hdec =>
    obtain ⟨h₀, h₁, h₂, hval⟩ := (h.tail.startsDecimal_iff (by simp)).mp hdec
    have hrun : (takeChar p).run m =
        (ofNat (decimalValue (m (p + 1)) (m (p + 2)) (m (p + 3))), p + 4) := by
      simp [takeChar, h.first, h₀, h₁, h₂, hval]
    rw [hrun, h.tail.first, show m (p + 2) = _ from h.tail.tail.first,
      show m (p + 3) = _ from h.tail.tail.tail.first]
    exact ⟨_, rfl, by simp only [length_cons]; omega, h.tail.tail.tail.tail⟩

/-- The scanner takes the terminating zero as the character of a backslash in front of it. -/
theorem takeChar_backslash (h : TextAt m p [backslash]) : (takeChar p).run m = (0, p + 2) := by
  have hz : m (p + 1) = 0 := h.zero
  rw [takeChar_escaped h.first fun hc => absurd hc.1 (by rw [hz]; decide), hz]

/-! ### One label -/

section CopyLabel

variable {fuel : ℕ}

theorem copyLabelFrom_stop (fuel : ℕ) (name : Mem) (h : ¬(m p ≠ 0 ∧ m p ≠ dot ∧ ptr < lim)) :
    (copyLabelFrom lim (fuel + 1) p ptr name).run m = (p, ptr, name) ∧
      (copyLabelFrom lim (fuel + 1) p ptr name).reads m = [p] := by
  rw [copyLabelFrom, run_bind, reads_bind, run_byte, if_neg h]
  exact ⟨rfl, rfl⟩

theorem copyLabelFrom_turn (fuel : ℕ) (name : Mem) {p' : ℕ}
    (h : m p ≠ 0 ∧ m p ≠ dot ∧ ptr < lim) (hx : (takeChar p).run m = (b, p')) :
    (copyLabelFrom lim (fuel + 1) p ptr name).run m =
        (copyLabelFrom lim fuel p' (ptr + 1) (name.write ptr [b])).run m ∧
      (copyLabelFrom lim (fuel + 1) p ptr name).reads m = p :: ((takeChar p).reads m ++
        (copyLabelFrom lim fuel p' (ptr + 1) (name.write ptr [b])).reads m) := by
  rw [copyLabelFrom, run_bind, reads_bind, run_byte, if_pos h, run_bind, reads_bind, hx]
  exact ⟨rfl, rfl⟩

/-- What the inner loop does on the rest `t` of a text at `p`, with room for `r` bytes. -/
inductive LabelScan (m : Mem) (x : Rd (ℕ × ℕ × Mem)) (p : ℕ) (t : List UInt8) (ptr r : ℕ)
    (name : Mem) : Prop
  /-- It copies a label up to its end, or as much of it as there is room for. -/
  | stops {l t' : List UInt8} {p' : ℕ} (hl : TextLabel t l t') (hle : l.length ≤ r)
      (hend : Ends t' ∨ l.length = r)
      (hrun : x.run m = (p', ptr + l.length, name.write ptr l))
      (hpos : p' + t'.length = p + t.length) (htext : TextAt m p' t')
      (hreads : x.ReadsBelow m (p + t.length + 1))
  /-- It gets to a backslash in front of the terminating zero, and leaves the text. -/
  | overruns {l : List UInt8} (hl : TextLabel t l [backslash]) (hlt : l.length < r)
      (hread : p + t.length + 1 ∈ x.reads m)

theorem labelScan_copyLabelFrom (htext : TextAt m p t) (hfuel : r < fuel) :
    LabelScan m (copyLabelFrom (ptr + r) fuel p ptr name) p t ptr r name := by
  induction fuel generalizing p t ptr r name with
  | zero => exact absurd hfuel (Nat.not_lt_zero _)
  | succ fuel ih =>
    -- The loop is left before the first character.
    have hstop (h : ¬(m p ≠ 0 ∧ m p ≠ dot ∧ ptr < ptr + r)) (hend : Ends t ∨ 0 = r) :
        LabelScan m (copyLabelFrom (ptr + r) (fuel + 1) p ptr name) p t ptr r name := by
      obtain ⟨hrun, hreads⟩ := copyLabelFrom_stop fuel name h
      refine .stops .nil (Nat.zero_le r) hend (by rw [hrun, write_nil]; rfl) rfl htext ?_
      intro q hq
      rw [hreads, mem_singleton] at hq
      omega
    by_cases hends : Ends t
    · refine hstop (fun h => ?_) (.inl hends)
      rcases hends with rfl | ⟨t', rfl⟩
      · exact h.1 htext.zero
      · exact h.2.1 htext.first
    cases r with
    | zero => exact hstop (fun h => absurd h.2.2 (lt_irrefl ptr)) (.inr rfl)
    | succ r =>
      have hcond : m p ≠ 0 ∧ m p ≠ dot ∧ ptr < ptr + (r + 1) := by
        cases t with
        | nil => exact absurd (.inl rfl) hends
        | cons c t =>
          rw [htext.first]
          exact ⟨htext.ne_zero, fun hc => hends (.inr ⟨t, by rw [hc]⟩), by omega⟩
      rcases textChar_cases hends with rfl | ⟨b, t', hchar⟩
      · -- The character of the backslash is the zero, and the next turn looks behind it.
        obtain ⟨-, hreads⟩ := copyLabelFrom_turn fuel name hcond (takeChar_backslash htext)
        refine .overruns .nil (Nat.succ_pos r) ?_
        rcases fuel with _ | fuel
        · omega
        rw [hreads, copyLabelFrom, reads_bind, reads_byte]
        simp
      · obtain ⟨p', hx, hpos, htext'⟩ := takeChar_of_textChar htext hchar
        obtain ⟨hrun, hreads⟩ := copyLabelFrom_turn fuel name hcond hx
        rw [← Nat.succ_add_eq_add_succ ptr r] at hrun hreads ⊢
        have hrest : LabelScan m
            (copyLabelFrom (ptr + 1 + r) fuel p' (ptr + 1) (name.write ptr [b])) p' t' (ptr + 1)
            r (name.write ptr [b]) := ih htext' (Nat.lt_of_succ_lt_succ hfuel)
        cases hrest with
        | stops hl hle hend hrun' hpos' htext'' hreads' =>
          refine .stops (.cons hchar hl) (Nat.succ_le_succ hle) ?_ ?_ (hpos'.trans hpos) htext'' ?_
          · exact hend.imp_right (congrArg (· + 1))
          · rw [hrun, hrun', length_cons, Nat.succ_add_eq_add_succ]
            exact congrArg (fun w => (_, _, w)) (write_append name ptr [b] _).symm
          · rw [Rd.ReadsBelow, hreads, forall_mem_cons, forall_mem_append, ← hpos]
            exact ⟨by omega, hpos ▸ takeChar_readsBelow htext hends, hreads'⟩
        | overruns hl hlt hread =>
          refine .overruns (.cons hchar hl) (Nat.succ_lt_succ hlt) ?_
          rw [hreads, ← hpos]
          exact mem_cons_of_mem p (mem_append_right _ hread)

end CopyLabel

theorem TextAt.skip (h : TextAt m p t) : TextAt m (if m p ≠ 0 then p + 1 else p) t.tail ∧
      (if m p ≠ 0 then p + 1 else p) + t.tail.length = p + t.length := by
  cases t with
  | nil =>
    have hz : m p = 0 := h.zero
    rw [if_neg (not_not.mpr hz)]
    exact ⟨h, rfl⟩
  | cons c t =>
    rw [if_pos (by rw [h.first]; exact h.ne_zero)]
    exact ⟨h.tail, by rw [tail_cons, length_cons]; omega⟩

end

/-! ### When the scanner goes wrong -/

theorem misread_of_ends (hends : Ends t) : ¬Misread t r := by
  intro h
  cases h with
  | cut h =>
    obtain ⟨-, rfl⟩ := h.of_ends hends
    exact not_ends_singleton (by decide) hends
  | full h hc =>
    obtain ⟨-, rfl⟩ := h.of_ends hends
    exact not_ends_singleton hc hends
  | more h hne => exact hne (h.of_ends hends).1

theorem misread_zero : ¬Misread t 0 := by
  intro h
  cases h with
  | cut h hroom => exact Nat.not_lt_zero _ hroom
  | full h hc hroom => exact Nat.succ_ne_zero _ hroom
  | more h hne hle hroom => exact Nat.not_succ_le_zero _ hroom

/-- A label that is read to its end is not where the scanner goes wrong. -/
theorem misread_iff_of_ends (h : TextLabel t l t') (hends : Ends t') (hroom : l.length + 1 ≤ r) :
    Misread t r ↔ l ≠ [] ∧ l.length ≤ maxDomainLabel ∧ Misread t'.tail (r - (l.length + 1)) := by
  refine ⟨fun hm => ?_, fun ⟨hne, hle, hm⟩ => ?_⟩
  · cases hm with
    | cut h₁ =>
      obtain ⟨k, -, hk⟩ := h₁.compare_ends h hends
      obtain ⟨-, rfl⟩ := hk.of_backslash
      exact absurd hends (not_ends_singleton (by decide))
    | full h₁ hc hroom₁ =>
      obtain ⟨k, rfl, hk⟩ := h₁.compare_ends h hends
      rw [length_append] at hroom
      obtain rfl : k = [] := eq_nil_of_length_eq_zero (by omega)
      cases hk
      exact absurd hends (not_ends_singleton hc)
    | more h₁ hne hle hroom₁ rest =>
      obtain ⟨rfl, rfl⟩ := h₁.unique h (.inr ⟨_, rfl⟩) hends
      exact ⟨hne, hle, rest⟩
  · rcases hends with rfl | ⟨t'', rfl⟩
    · exact absurd hm (misread_of_ends (.inl rfl))
    · exact .more h hne hle hroom hm

/-- When the room is used up inside a label, the scanner goes wrong if one character is left. -/
theorem misread_iff_of_full (h : TextLabel t l t') (hends : ¬Ends t') (hroom : l.length + 1 = r) :
    Misread t r ↔ l.length ≤ maxDomainLabel ∧ t'.tail = [] := by
  refine ⟨fun hm => ?_, fun ⟨hle, ht'⟩ => ?_⟩
  · cases hm with
    | cut h₁ hroom₁ =>
      rcases h₁.compare h with ⟨k, rfl, hk⟩ | ⟨k, rfl, -⟩
      · obtain ⟨rfl, -⟩ := hk.of_backslash
        rw [append_nil] at hroom
        omega
      · rw [length_append] at hroom₁
        omega
    | full h₁ hc hroom₁ hle =>
      rcases h₁.compare h with ⟨k, rfl, hk⟩ | ⟨k, rfl, hk⟩
      · rw [length_append] at hroom
        obtain rfl : k = [] := eq_nil_of_length_eq_zero (by omega)
        cases hk
        exact ⟨by simpa using hle, rfl⟩
      · rw [length_append] at hroom₁
        obtain rfl : k = [] := eq_nil_of_length_eq_zero (by omega)
        cases hk
        exact ⟨by simpa using hle, rfl⟩
    | more h₁ hne hle hroom₁ =>
      obtain ⟨k, rfl, hk⟩ := h.compare_ends h₁ (.inr ⟨_, rfl⟩)
      rw [length_append] at hroom₁
      obtain rfl : k = [] := eq_nil_of_length_eq_zero (by omega)
      cases hk
      exact absurd (.inr ⟨_, rfl⟩) hends
  · cases t' with
    | nil => exact absurd (.inl rfl) hends
    | cons c t'' =>
      subst ht'
      exact .full h (fun hc => hends (.inr ⟨[], by rw [hc]⟩)) hroom hle

def TextFits (t : List UInt8) (r : ℕ) : Prop :=
  ∃ ls, Denotes t ls ∧ LabelsFit ls ∧ (wire ls).length ≤ r

theorem textFits_nil : TextFits [] r := ⟨[], .nil, by simp [LabelsFit], Nat.zero_le r⟩

theorem textFits_iff_of_ends (h : TextLabel t l t') (hends : Ends t') (hnot : ¬Ends t)
    (hroom : l.length + 1 ≤ r) :
    TextFits t r ↔ l.length ≤ maxDomainLabel ∧ TextFits t'.tail (r - (l.length + 1)) := by
  have hne : t ≠ [] := fun ht => hnot (.inl ht)
  have hl : l ≠ [] := by
    rintro rfl
    cases h
    exact hnot hends
  constructor
  · rintro ⟨ls, hd, hfit, hlen⟩
    obtain ⟨-, ls', rfl, hd'⟩ := (denotes_iff h hends hne).mp hd
    rw [length_label_cons] at hlen
    exact ⟨(hfit l mem_cons_self).2, ls', hd', hfit.tail, by omega⟩
  · rintro ⟨hle, ls', hd', hfit, hlen⟩
    refine ⟨l :: ls', (denotes_iff h hends hne).mpr ⟨hl, ls', rfl, hd'⟩, ?_, ?_⟩
    · intro l' hl'
      rcases List.mem_cons.mp hl' with rfl | hl'
      · exact ⟨List.length_pos_iff.mpr hl, hle⟩
      · exact hfit l' hl'
    · rw [length_label_cons]
      omega

theorem not_textFits_of_full (h : TextLabel t l t') (hends : ¬Ends t') (hroom : l.length + 1 = r) :
    ¬TextFits t r := by
  rintro ⟨ls, hd, -, hlen⟩
  obtain ⟨l₁, ls', rfl, hlt⟩ := hd.length_lt h hends
  rw [length_label_cons] at hlen
  omega

theorem not_textFits_of_dot (hends : Ends t) (hne : t ≠ []) : ¬TextFits t r := by
  rintro ⟨ls, hd, -, -⟩
  obtain ⟨l, t', ls', h, -, hl, -⟩ := hd.cases_ne hne
  exact hl (h.of_ends hends).1

theorem not_textFits_zero (hne : t ≠ []) : ¬TextFits t 0 := by
  rintro ⟨ls, hd, -, hlen⟩
  obtain ⟨l, t', ls', -, -, -, rfl, -⟩ := hd.cases_ne hne
  rw [length_label_cons] at hlen
  omega

/-! ### All labels -/

section

variable {x : Rd (Option ℕ × Mem)}

/-- What the scanner does with the rest `t` of a text at `p` when it does not go wrong. -/
inductive Scanned (m : Mem) (x : Rd (Option ℕ × Mem)) (p : ℕ) (t : List UInt8) (ptr r : ℕ)
    (name : Mem) : Prop
  | accepted {ls : List (List UInt8)} (hd : Denotes t ls) (hfit : LabelsFit ls)
      (hroom : (wire ls).length ≤ r)
      (hrun : x.run m = (some (ptr + (wire ls).length + 1), name.write ptr (wire ls ++ [0])))
      (hreads : x.ReadsBelow m (p + t.length + 1))
  | refused (hno : ¬TextFits t r) (hrun : (x.run m).1 = none)
      (hreads : x.ReadsBelow m (p + t.length + 1))

/-- The scanner leaves the text, or accepts a text that does not fit. -/
def WronglyScanned (m : Mem) (x : Rd (Option ℕ × Mem)) (p : ℕ) (t : List UInt8) (r : ℕ) : Prop :=
  p + t.length + 1 ∈ x.reads m ∨ ((x.run m).1.isSome = true ∧ ¬TextFits t r)

def ScansAs (m : Mem) (x : Rd (Option ℕ × Mem)) (p : ℕ) (t : List UInt8) (ptr r : ℕ) (name : Mem) :
    Prop :=
  (Misread t r → WronglyScanned m x p t r) ∧ (¬Misread t r → Scanned m x p t ptr r name)

theorem appendLabels_exit (fuel : ℕ) (h : ¬(m p ≠ 0 ∧ ptr < lim)) :
    (appendLabelsFrom lim (fuel + 1) p ptr name).run m =
        (if m p ≠ 0 then none else some (ptr + 1), name.write ptr [0]) ∧
      (appendLabelsFrom lim (fuel + 1) p ptr name).reads m = [p, p] := by
  rw [appendLabelsFrom, run_bind, reads_bind, run_byte, if_neg h]
  exact ⟨rfl, rfl⟩

theorem appendLabelsFrom_dot (fuel : ℕ) (h : m p = dot) (hptr : ptr < lim) :
    (appendLabelsFrom lim (fuel + 1) p ptr name).run m = (none, name) ∧
      (appendLabelsFrom lim (fuel + 1) p ptr name).reads m = [p] := by
  have hc : m p ≠ 0 ∧ ptr < lim := ⟨by rw [h]; decide, hptr⟩
  rw [appendLabelsFrom, run_bind, reads_bind, run_byte, if_pos hc, if_pos h]
  exact ⟨rfl, rfl⟩

section Turn

variable {p' n : ℕ} {name' : Mem} (fuel : ℕ) (h : m p ≠ 0 ∧ ptr < lim) (hdot : m p ≠ dot)
  (hx : (copyLabelFrom lim maxDomainName p (ptr + 1) name).run m = (p', ptr + 1 + n, name'))

include h hdot hx

theorem appendLabelsFrom_long (hlong : n > maxDomainLabel) :
    (appendLabelsFrom lim (fuel + 1) p ptr name).run m = (none, name') ∧
      (appendLabelsFrom lim (fuel + 1) p ptr name).reads m =
        p :: ((copyLabelFrom lim maxDomainName p (ptr + 1) name).reads m ++ [p']) := by
  have hn : ptr + 1 + n - ptr - 1 > maxDomainLabel := by omega
  rw [appendLabelsFrom, run_bind, reads_bind, run_byte, if_pos h, if_neg hdot,
    run_bind, reads_bind, hx, run_bind, reads_bind, if_pos hn]
  exact ⟨rfl, rfl⟩

theorem appendLabelsFrom_turn (hle : n ≤ maxDomainLabel) :
    (appendLabelsFrom lim (fuel + 1) p ptr name).run m =
        (appendLabelsFrom lim fuel (if m p' ≠ 0 then p' + 1 else p') (ptr + 1 + n)
          (name'.write ptr [ofNat n])).run m ∧
      (appendLabelsFrom lim (fuel + 1) p ptr name).reads m =
        p :: ((copyLabelFrom lim maxDomainName p (ptr + 1) name).reads m ++ p' ::
          (appendLabelsFrom lim fuel (if m p' ≠ 0 then p' + 1 else p') (ptr + 1 + n)
            (name'.write ptr [ofNat n])).reads m) := by
  have hn : ptr + 1 + n - ptr - 1 = n := by omega
  rw [appendLabelsFrom, run_bind, reads_bind, run_byte, if_pos h, if_neg hdot,
    run_bind, reads_bind, hx, run_bind, reads_bind]
  rw [hn, if_neg (not_lt.mpr hle)]
  exact ⟨rfl, rfl⟩

end Turn

theorem mem_reads_append (fuel : ℕ) (h : m p ≠ 0 ∧ ptr < lim) (hdot : m p ≠ dot) {q : ℕ}
    (hq : q ∈ (copyLabelFrom lim maxDomainName p (ptr + 1) name).reads m) :
    q ∈ (appendLabelsFrom lim (fuel + 1) p ptr name).reads m := by
  rw [appendLabelsFrom, reads_bind, run_byte, if_pos h, if_neg hdot, reads_bind]
  exact mem_append_right _ (mem_append_left _ hq)

theorem write_label_labels (l : List UInt8) (ls : List (List UInt8)) :
    (((name.write (ptr + 1) l).write ptr [ofNat l.length]).write (ptr + 1 + l.length)
      (wire ls ++ [0])) = name.write ptr (wire (l :: ls) ++ [0]) := by
  have hlabel := write_write_append name ptr [ofNat l.length] l
  rw [length_singleton] at hlabel
  rw [hlabel, label_cons, append_assoc, singleton_append,
    write_append name ptr (ofNat l.length :: l), length_cons, add_assoc ptr 1,
    add_comm 1 l.length]

theorem scan_turn {fuel k p' : ℕ} (hcond : m p ≠ 0 ∧ ptr < ptr + 1 + k)
    (hdot : m p ≠ dot) (hnot : ¬Ends t) (hl : TextLabel t l t') (hle : l.length ≤ k)
    (hend : Ends t' ∨ l.length = k)
    (hrun : (copyLabelFrom (ptr + 1 + k) maxDomainName p (ptr + 1) name).run m =
      (p', ptr + 1 + l.length, name.write (ptr + 1) l))
    (hpos : p' + t'.length = p + t.length) (htext : TextAt m p' t')
    (hreads : (copyLabelFrom (ptr + 1 + k) maxDomainName p (ptr + 1) name).ReadsBelow m
      (p + t.length + 1))
    (ih : ∀ (p : ℕ) (t : List UInt8) (ptr r : ℕ) (name : Mem), TextAt m p t → r < fuel →
      r < maxDomainName → ScansAs m (appendLabelsFrom (ptr + r) fuel p ptr name) p t ptr r name)
    (hk : k < fuel) (hk' : k < maxDomainName) :
    ScansAs m (appendLabelsFrom (ptr + 1 + k) (fuel + 1) p ptr name) p t ptr (k + 1) name := by
  have hstop : p < p + t.length + 1 := by omega
  have hstop' : p' < p + t.length + 1 := by omega
  by_cases hlong : l.length > maxDomainLabel
  · -- The label is too long, whether it was copied to its end or not.
    obtain ⟨hout, hread⟩ := appendLabelsFrom_long fuel hcond hdot hrun hlong
    have hboth : ¬Misread t (k + 1) ∧ ¬TextFits t (k + 1) := by
      by_cases hends : Ends t'
      · rw [misread_iff_of_ends hl hends (by omega), textFits_iff_of_ends hl hends hnot (by omega)]
        exact ⟨fun hc => absurd hc.2.1 (Nat.not_le_of_lt hlong),
          fun hc => absurd hc.1 (Nat.not_le_of_lt hlong)⟩
      · have hfull : l.length + 1 = k + 1 := congrArg (· + 1) (hend.resolve_left hends)
        rw [misread_iff_of_full hl hends hfull]
        exact ⟨fun hc => absurd hc.1 (Nat.not_le_of_lt hlong), not_textFits_of_full hl hends hfull⟩
    refine ⟨fun hc => absurd hc hboth.1, fun _ => .refused hboth.2 (by rw [hout]) ?_⟩
    rw [Rd.ReadsBelow, hread, forall_mem_cons, forall_mem_append, forall_mem_singleton]
    exact ⟨hstop, hreads, hstop'⟩
  obtain ⟨hnext, hpos'⟩ := htext.skip
  obtain ⟨hout, hread⟩ := appendLabelsFrom_turn fuel hcond hdot hrun (Nat.le_of_not_lt hlong)
  have hlim : ptr + 1 + l.length + (k - l.length) = ptr + 1 + k := by omega
  have hrest := ih _ _ (ptr + 1 + l.length) (k - l.length)
    ((name.write (ptr + 1) l).write ptr [ofNat l.length]) hnext (by omega) (by omega)
  rw [hlim] at hrest
  obtain ⟨y, hy⟩ : ∃ y, y = appendLabelsFrom (ptr + 1 + k) fuel (if m p' ≠ 0 then p' + 1 else p')
    (ptr + 1 + l.length) ((name.write (ptr + 1) l).write ptr [ofNat l.length]) := ⟨_, rfl⟩
  rw [← hy] at hout hread hrest
  rw [ScansAs, WronglyScanned, hout, hread]
  rw [ScansAs, WronglyScanned, hpos', hpos] at hrest
  have hbelow (hbelow : y.ReadsBelow m (p + t.length + 1)) :
      (appendLabelsFrom (ptr + 1 + k) (fuel + 1) p ptr name).ReadsBelow m (p + t.length + 1) := by
    rw [Rd.ReadsBelow, hread, forall_mem_cons, forall_mem_append, forall_mem_cons]
    exact ⟨hstop, hreads, hstop', hbelow⟩
  by_cases hends : Ends t'
  · have hmis := misread_iff_of_ends hl hends (r := k + 1) (by omega)
    have hfits := textFits_iff_of_ends hl hends hnot (r := k + 1) (by omega)
    rw [Nat.add_sub_add_right] at hmis hfits
    have hl' : l ≠ [] := by
      rintro rfl
      cases hl
      exact hnot hends
    refine ⟨fun hm => ?_, fun hm => ?_⟩
    · rcases hrest.1 (hmis.mp hm).2.2 with hover | ⟨hsome, hno⟩
      · exact .inl (mem_cons_of_mem _ (mem_append_right _ (mem_cons_of_mem _ hover)))
      · exact .inr ⟨hsome, fun hc => hno (hfits.mp hc).2⟩
    · have hm' : ¬Misread t'.tail (k - l.length) := fun hc =>
        hm (hmis.mpr ⟨hl', Nat.le_of_not_lt hlong, hc⟩)
      cases hrest.2 hm' with
      | accepted hd hfit hroom hrun' hreads' =>
        have hne : t ≠ [] := fun ht => hnot (.inl ht)
        rw [hpos', hpos] at hreads'
        refine .accepted ((denotes_iff hl hends hne).mpr ⟨hl', _, rfl, hd⟩) ?_ ?_ ?_
          (hbelow hreads')
        · intro l₁ hl₁
          rcases List.mem_cons.mp hl₁ with rfl | hl₁
          · exact ⟨List.length_pos_iff.mpr hl', Nat.le_of_not_lt hlong⟩
          · exact hfit l₁ hl₁
        · rw [length_label_cons]
          omega
        · rw [hout, hrun', write_label_labels, length_label_cons]
          congr 2
          omega
      | refused hno hrun' hreads' =>
        rw [hpos', hpos] at hreads'
        exact .refused (fun hc => hno (hfits.mp hc).2) (by rw [hout, hrun']) (hbelow hreads')
  · have hfull : l.length = k := hend.resolve_left hends
    have hno := not_textFits_of_full hl hends (congrArg (· + 1) hfull)
    have hmis := misread_iff_of_full hl hends (congrArg (· + 1) hfull)
    have hzero : k - l.length = 0 := by omega
    rw [hzero] at hrest
    have hscan := hrest.2 misread_zero
    refine ⟨fun hm => .inr ⟨?_, hno⟩, fun hm => ?_⟩
    · -- Nothing is left behind the character that is skipped, so the text is accepted.
      have htail := (hmis.mp hm).2
      cases hscan with
      | accepted hd hfit hroom hrun' => rw [hrun']; rfl
      | refused hno' => exact absurd (htail ▸ textFits_nil) hno'
    · cases hscan with
      | accepted hd hfit hroom =>
        have htail : t'.tail ≠ [] := fun ht => hm (hmis.mpr ⟨Nat.le_of_not_lt hlong, ht⟩)
        exact absurd ⟨_, hd, hfit, hroom⟩ (not_textFits_zero htail)
      | refused hno' hrun' hreads' =>
        rw [hpos', hpos] at hreads'
        exact .refused hno (by rw [hout, hrun']) (hbelow hreads')

theorem appendLabelsFrom_scan {fuel : ℕ} (htext : TextAt m p t) (hfuel : r < fuel)
    (hr : r < maxDomainName) :
    ScansAs m (appendLabelsFrom (ptr + r) fuel p ptr name) p t ptr r name := by
  induction fuel generalizing p t ptr r name with
  | zero => exact absurd hfuel (Nat.not_lt_zero _)
  | succ fuel ih =>
    have hbelow {x : Rd (Option ℕ × Mem)} (hx : ∀ q ∈ x.reads m, q = p) :
        x.ReadsBelow m (p + t.length + 1) := fun q hq => by
      have := hx q hq
      omega
    by_cases hnil : t = []
    · subst hnil
      have hz : m p = 0 := htext.zero
      obtain ⟨hrun, hreads⟩ := appendLabels_exit fuel fun h : m p ≠ 0 ∧ ptr < ptr + r => h.1 hz
      rw [if_neg (not_not.mpr hz)] at hrun
      exact ⟨fun h => absurd h (misread_of_ends (.inl rfl)), fun _ =>
        .accepted .nil (by simp [LabelsFit]) (Nat.zero_le r) hrun (by simp [Rd.ReadsBelow, hreads])⟩
    have hne : m p ≠ 0 := by
      cases t with
      | nil => exact absurd rfl hnil
      | cons c t =>
        rw [htext.first]
        exact htext.ne_zero
    cases r with
    | zero =>
      obtain ⟨hrun, hreads⟩ := appendLabels_exit fuel
        fun h : m p ≠ 0 ∧ ptr < ptr + 0 => absurd h.2 (lt_irrefl ptr)
      rw [if_pos hne] at hrun
      exact ⟨fun h => absurd h misread_zero, fun _ =>
        .refused (not_textFits_zero hnil) (by rw [hrun]) (hbelow (by rw [hreads]; simp))⟩
    | succ k =>
      rw [add_comm k 1, ← add_assoc]
      have hcond : m p ≠ 0 ∧ ptr < ptr + 1 + k := ⟨hne, by omega⟩
      by_cases hends : Ends t
      · have hdot : m p = dot := by
          obtain rfl | ⟨t', rfl⟩ := hends
          · exact absurd rfl hnil
          · exact htext.first
        obtain ⟨hrun, hreads⟩ := appendLabelsFrom_dot fuel hdot hcond.2
        exact ⟨fun h => absurd h (misread_of_ends hends), fun _ =>
          .refused (not_textFits_of_dot hends hnil) (by rw [hrun]) (hbelow (by simp [hreads]))⟩
      · have hdot : m p ≠ dot := by
          cases t with
          | nil => exact absurd rfl hnil
          | cons c t =>
            rw [htext.first]
            exact fun hc => hends (.inr ⟨t, by rw [hc]⟩)
        have hscan : LabelScan m (copyLabelFrom (ptr + 1 + k) maxDomainName p (ptr + 1) name)
            p t (ptr + 1) k name := labelScan_copyLabelFrom htext (by omega)
        rw [add_comm 1 k]
        cases hscan with
        | stops hl hle hend hrun hpos htext' hreads =>
          exact scan_turn hcond hdot hends hl hle hend hrun hpos htext' hreads
            (fun p t ptr r name h h' h'' => ih h h' h'') (by omega) (by omega)
        | overruns hl hlt hread =>
          have hm : Misread t (k + 1) := .cut hl (Nat.succ_lt_succ hlt)
          exact ⟨fun _ => .inl (mem_reads_append fuel hcond hdot hread), fun h => absurd hm h⟩

end

/-! ### The functions -/

section

variable {s : List UInt8} {d : DomainName}

theorem Denotes.unique {ls' : List (List UInt8)} (h : Denotes s ls) (h' : Denotes s ls') :
    ls = ls' := by
  induction h generalizing ls' with
  | nil =>
    cases h' with
    | nil => rfl
    | last h hne => exact absurd (h.of_ends (.inl rfl)).1 hne
    | more h hne => exact absurd (h.of_ends (.inl rfl)).1 hne
  | last h hne =>
    have ht := fun ht => hne (TextLabel.of_ends h (.inl ht)).1
    obtain ⟨-, ls₁, rfl, hnil⟩ := (denotes_iff h (.inl rfl) ht).mp h'
    cases hnil with
    | nil => rfl
    | last h hne => exact absurd (h.of_ends (.inl rfl)).1 hne
    | more h hne => exact absurd (h.of_ends (.inl rfl)).1 hne
  | more h hne rest ih =>
    have ht := fun ht => hne (TextLabel.of_ends h (.inl ht)).1
    obtain ⟨-, ls₁, rfl, hd⟩ := (denotes_iff h (.inr ⟨_, rfl⟩) ht).mp h'
    rw [ih hd]

theorem exists_name_append : (∃ e : DomainName, e.labels = d.labels ++ ls) ↔
      LabelsFit ls ∧ (wire ls).length ≤ maxDomainName - d.bytes.length := by
  have hd := d.length_bytes_le
  have hdb := d.length_bytes
  constructor
  · rintro ⟨e, he⟩
    have hlen := e.length_bytes_le
    rw [DomainName.bytes, he, label_append, length_append, length_append, length_singleton] at hlen
    exact ⟨fun l hl => e.labelsFit l (he ▸ mem_append_right _ hl), by omega⟩
  · rintro ⟨hfit, hlen⟩
    have hall : LabelsFit (d.labels ++ ls) := fun l hl =>
      (List.mem_append.mp hl).elim (d.labelsFit l) (hfit l)
    refine ⟨⟨d.labels ++ ls, fun l hl => (hall l hl).1, fun l hl => (hall l hl).2, ?_⟩, rfl⟩
    rw [← length_label, label_append, length_append]
    omega

theorem CString.textAt (h : CString m s) : TextAt m 0 s := ⟨h.holds, h.noZero⟩

theorem appends_name_iff (hname : NameAt name 0 d) (hs : CString m s) :
    Appends (appendDNSNameString name) m s d ↔ ¬Misread s (maxDomainName - d.bytes.length) := by
  have hd := d.length_bytes_le
  have hdb := d.length_bytes
  obtain ⟨r, hr⟩ : ∃ r, r = maxDomainName - d.bytes.length := ⟨_, rfl⟩
  have hlim : (wire d.labels).length + r = maxDomainName - 1 := by omega
  have hptr : d.bytes.length - 1 = (wire d.labels).length := by omega
  have hx : appendDNSNameString name = appendLabelsFrom ((wire d.labels).length + r)
      maxDomainName 0 (wire d.labels).length name := by
    rw [hlim, ← hptr, ← hname.length]
    rfl
  have hscan : ScansAs m (appendDNSNameString name) 0 s (wire d.labels).length r name := by
    rw [hx]
    exact appendLabelsFrom_scan hs.textAt (by omega) (by omega)
  rw [← hr]
  have hfits : TextFits s r ↔ ∃ ls, Denotes s ls ∧ ∃ e : DomainName, e.labels = d.labels ++ ls := by
    simp only [TextFits, exists_name_append, hr]
  refine ⟨fun h hm => ?_, fun hm => ?_⟩
  · rcases hscan.1 hm with hover | ⟨hsome, hno⟩
    · have := h.reads _ hover
      omega
    · exact hno (hfits.mpr (h.accepts_iff.mp hsome))
  · cases hscan.2 hm with
    | @accepted ls hd' hfit hroom hrun hreads =>
      refine ⟨?_, fun ls' e hls' he => ?_, by rwa [zero_add] at hreads⟩
      · rw [hrun, ← hfits]
        exact ⟨fun _ => ⟨_, hd', hfit, hroom⟩, fun _ => rfl⟩
      · obtain rfl := hd'.unique hls'
        have hbytes : e.bytes = wire d.labels ++ (wire ls ++ [0]) := by
          rw [DomainName.bytes, he, label_append, append_assoc]
        rw [hrun, NameAt, hbytes, holds_append, zero_add]
        refine ⟨?_, (holds_append.mp hname).1.write (by omega), holds_write _ _ _⟩
        simp only [length_append, length_singleton]
        rfl
    | refused hno hrun hreads =>
      refine ⟨?_, fun ls' e hls' he => ?_, by rwa [zero_add] at hreads⟩
      · rw [hrun, ← hfits]
        exact ⟨fun hc => absurd hc Bool.false_ne_true, fun hc => absurd hc hno⟩
      · exact absurd (hfits.mpr ⟨ls', hls', e, he⟩) hno

/-- The functions do what they should on exactly the texts that are not misread, with the
room that the name leaves. -/
theorem dnsNameString_iff (name m : Mem) (s : List UInt8) (d : DomainName)
    (hname : NameAt name 0 d) (hs : CString m s) :
    (Appends (appendDNSNameString name) m s d ↔ ¬Misread s (maxDomainName - d.bytes.length)) ∧
    (Appends (makeDomainNameFromDNSNameString name) m s rootName ↔
      ¬Misread s (maxDomainName - 1)) :=
  ⟨appends_name_iff hname hs, appends_name_iff (d := rootName) (holds_write name 0 [0]) hs⟩

def plainText : List UInt8 := [0x61, 0x2E]

theorem dnsNameString_plainText :
    Appends (makeDomainNameFromDNSNameString (ofList [])) (ofList plainText) plainText
      rootName := by
  have hlabel : TextLabel plainText [0x61] [dot] := .cons (.plain (by decide) (by decide)) .nil
  have hno : ¬Misread plainText (maxDomainName - 1) := by
    rw [misread_iff_of_ends hlabel (.inr ⟨[], rfl⟩) (by decide)]
    exact fun h => misread_of_ends (.inl rfl) h.2.2
  exact (dnsNameString_iff (ofList []) (ofList plainText) plainText rootName (by decide)
    ⟨by decide, by decide⟩).2.mpr hno

def cutText : List UInt8 := [0x61, 0x5C]

def almostFullName : DomainName where
  labels := [letters 63, letters 63, letters 63, letters 60]
  label_pos := by simp [letters]
  label_le := by simp [letters, maxDomainLabel]
  length_le := by simp [letters, maxDomainName]

theorem dnsNameString_misreads :
    ¬Appends (makeDomainNameFromDNSNameString (ofList [])) (ofList cutText) cutText rootName ∧
    ¬Appends (appendDNSNameString (ofList almostFullName.bytes)) (ofList [0x61]) [0x61]
      almostFullName := by
  constructor
  · intro h
    have hread : 3 ∈ (makeDomainNameFromDNSNameString (ofList [])).reads
        (ofList cutText) := by decide +kernel
    exact absurd (h.reads 3 hread) (by decide)
  · intro h
    have hsome : ((appendDNSNameString (ofList almostFullName.bytes)).run
        (ofList [0x61])).1.isSome = true := by decide +kernel
    obtain ⟨ls, hd, e, he⟩ := h.accepts_iff.mp hsome
    have hlabel : TextLabel [0x61] [0x61] [] := .cons (.plain (by decide) (by decide)) .nil
    obtain rfl : ls = [[0x61]] := hd.unique (.last hlabel (by simp))
    have hroom := (exists_name_append.mp ⟨e, he⟩).2
    exact absurd hroom (by decide +kernel)

end

end Hexley.Dns
