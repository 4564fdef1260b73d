import Hexley.Dns.Put
import Hexley.Dns.Unpack

/-!
The loop over labels comes to an end, and the sections of a message.

A compression pointer may lead anywhere in the message, so the position of
the walk says nothing about how long it will go on. What decreases is the
room that is left in the name: a pointer must lead to a label, and a label
takes room. `NameLoop` is the loop of `getDomainName` without a bound on
its turns, and every run of it is shown to end with the result that the
bounded one has.

The second half is about the functions that look for a section. They step
over questions and records with `skipQuestion` and `skipResourceRecord`,
which know less about a record than the parsers do. A position that a
parser reaches is the one at which the skipping function arrives, and this
is carried over the entries of a section to the three sections.
-/

namespace Hexley.Dns

open Lib Rd

/-! ### The loop over labels -/

/-- The loop of `getDomainName` from its state on: the position, the bytes of the name that
are there, the position behind the first pointer and the storage of the name. A derivation
is a run that ends with the given result. -/
inductive NameLoop (m : Mem) (stop base : ℕ) : ℕ → ℕ → Option ℕ → Mem → Option ℕ × Mem → Prop
  | root {pos np : ℕ} {nextbyte : Option ℕ} {dst : Mem} (hz : m pos = 0) :
      NameLoop m stop base pos np nextbyte dst (some (nextbyte.getD (pos + 1)), dst)
  | label {pos np : ℕ} {nextbyte : Option ℕ} {dst : Mem} {r : Option ℕ × Mem}
      (hl : LabelFits m stop pos np)
      (rest : NameLoop m stop base (pos + 1 + (m pos).toNat) (np + 1 + (m pos).toNat) nextbyte
        (dst.write (base + np) (m pos :: m.read (pos + 1) (m pos).toNat ++ [0])) r) :
      NameLoop m stop base pos np nextbyte dst r
  | pointer {pos np : ℕ} {nextbyte : Option ℕ} {dst : Mem} {r : Option ℕ × Mem}
      (hp : PointerFits m stop pos)
      (rest : NameLoop m stop base (target m pos) np (some (nextbyte.getD (pos + 2))) dst r) :
      NameLoop m stop base pos np nextbyte dst r
  | stuck {pos np : ℕ} {nextbyte : Option ℕ} {dst : Mem} (hs : Stuck m stop pos np) :
      NameLoop m stop base pos np nextbyte dst (none, dst)

section Loop

variable {m : Mem} {stop base pos np : ℕ} {nextbyte : Option ℕ} {dst : Mem}

theorem nameLoop_nameFrom {fuel : ℕ} (hfuel : turns m pos np < fuel) :
    NameLoop m stop base pos np nextbyte dst
      ((getDomainNameFrom stop base fuel pos np nextbyte dst).run m) := by
  induction fuel generalizing pos np nextbyte dst with
  | zero => omega
  | succ fuel ih =>
    rcases walk_cases m stop pos np with hz | hl | hp | hs
    · rw [(nameFrom_root hz).1]
      exact .root hz
    · have hturns := turns_label hl
      rw [(nameFrom_label hl).1]
      exact .label hl (ih (by omega))
    · have hturns := turns_pointer np hp
      rw [(nameFrom_pointer hp).1]
      exact .pointer hp (ih (by omega))
    · rw [(nameFrom_stuck hs).1]
      exact .stuck hs

theorem NameLoop.unique {r r' : Option ℕ × Mem} (h : NameLoop m stop base pos np nextbyte dst r)
    (h' : NameLoop m stop base pos np nextbyte dst r') : r = r' := by
  induction h with
  | root hz =>
    cases h' with
    | root => rfl
    | label hl => exact absurd hz hl.ne_zero
    | pointer hp => exact absurd hz (ne_zero_of_pointer hp.kind)
    | stuck hs => exact absurd hz hs.ne_zero
  | label hl rest ih =>
    cases h' with
    | root hz => exact absurd hz hl.ne_zero
    | label _ rest' => exact ih rest'
    | pointer hp => exact absurd (hl.kind.symm.trans hp.kind) (by decide)
    | stuck hs => exact absurd hl hs.no_label
  | pointer hp rest ih =>
    cases h' with
    | root hz => exact absurd hz (ne_zero_of_pointer hp.kind)
    | label hl => exact absurd (hl.kind.symm.trans hp.kind) (by decide)
    | pointer _ rest' => exact ih rest'
    | stuck hs => exact absurd hp hs.no_pointer
  | stuck hs =>
    cases h' with
    | root hz => exact absurd hz hs.ne_zero
    | label hl => exact absurd hl hs.no_label
    | pointer hp => exact absurd hp hs.no_pointer
    | stuck => rfl

/-- Whatever the bytes of the message are, the loop of `getDomainName` comes to an end, with
the result of the function; and a name that it stores is a valid one, whose labels have one
to 63 bytes and which takes at most 255 bytes with its root label. -/
theorem getDomainName_total (m : Mem) (ptr stop : ℕ) (dst : Mem) (base : ℕ) :
    (ptr < stop → ∀ r, NameLoop m stop base ptr 0 none (dst.write base [0]) r ↔
      r = (getDomainName ptr stop dst base).run m) ∧
    (stop ≤ ptr → (getDomainName ptr stop dst base).run m = (none, dst)) ∧
    ∀ p, ((getDomainName ptr stop dst base).run m).1 = some p →
      ∃ d : DomainName, NameAt ((getDomainName ptr stop dst base).run m).2 base d := by
  refine ⟨fun hptr r => ?_, fun hptr => ?_, fun p hp => ?_⟩
  · have hturns := turns_le m ptr 0
    have hloop : NameLoop m stop base ptr 0 none (dst.write base [0])
        ((getDomainName ptr stop dst base).run m) := by
      rw [getDomainName, if_neg (not_le.mpr hptr)]
      refine nameLoop_nameFrom ?_
      unfold maxDomainName at hturns ⊢
      omega
    constructor
    · intro h
      exact h.unique hloop
    · rintro rfl
      exact hloop
  · rw [getDomainName, if_pos hptr]
    rfl
  · have hspans : NameSpans m stop ptr p := name_spans.mp hp
    obtain ⟨d, hd⟩ := hspans.nameRead
    rw [name_of_nameRead hd]
    exact ⟨d, Mem.holds_write dst base d.bytes⟩

end Loop

/-! ### Looking for a section -/

def skipQuestion (ptr stop : ℕ) : Rd (Option ℕ) := do
  match ← skipDomainName ptr stop with
  | none => pure none
  | some ptr => if ptr + 4 > stop then pure none else pure (some (ptr + 4))

/-- The loop over a section of `n` entries, which stops when the position is null. -/
def skipEntries (skip : ℕ → Rd (Option ℕ)) : ℕ → Option ℕ → Rd (Option ℕ)
  | 0, ptr => pure ptr
  | _ + 1, none => pure none
  | n + 1, some ptr => do skipEntries skip n (← skip ptr)

/-- `skipResourceRecord` at a position that may be null. The null pointer is not within the
boundaries of the packet. -/
def skipResourceRecordAt (stop : ℕ) : Option ℕ → Rd (Option ℕ)
  | none => pure none
  | some ptr => skipResourceRecord ptr stop

/-- The loop over a section of `n` records that does not look at the position. -/
def skipAllRecords (stop : ℕ) : ℕ → Option ℕ → Rd (Option ℕ)
  | 0, ptr => pure ptr
  | n + 1, ptr => do skipAllRecords stop n (← skipResourceRecordAt stop ptr)

section Locate

variable (pf : Platform)

def getCount (s : Section) : Rd ℕ := do
  let count ← bytes s.offset 2
  pure (pf.order.val count)

def locateAnswers (stop : ℕ) : Rd (Option ℕ) := do
  let numQuestions ← getCount pf .questions
  skipEntries (skipQuestion · stop) numQuestions (some sizeofDNSMessageHeader)

def locateAuthorities (stop : ℕ) : Rd (Option ℕ) := do
  let ptr ← locateAnswers pf stop
  let numAnswers ← getCount pf .answers
  skipEntries (skipResourceRecord · stop) numAnswers ptr

/-- `LocateAdditionals`. Its loop goes on when the position is null. -/
def locateAdditionals (stop : ℕ) : Rd (Option ℕ) := do
  let ptr ← locateAuthorities pf stop
  let numAuthorities ← getCount pf .authorities
  skipAllRecords stop numAuthorities ptr

/-- What a caller of `GetLargeResourceRecord` passes for one record. -/
structure RecordStorage where
  interfaceID : Option ℕ
  recordType : UInt8
  largecr : ResourceRecord

def parseEntries {α : Type} (parse : α → ℕ → Rd (Option ℕ)) : List α → Option ℕ → Rd (Option ℕ)
  | [], ptr => pure ptr
  | _ :: _, none => pure none
  | a :: as, some ptr => do parseEntries parse as (← parse a ptr)

def parseQuestions (stop : ℕ) (questions : List (Option ℕ)) : Rd (Option ℕ) :=
  parseEntries (fun interfaceID ptr => do pure (← getQuestion ptr stop interfaceID).1) questions
    (some sizeofDNSMessageHeader)

def parseRecords (stop : ℕ) (records : List RecordStorage) (ptr : Option ℕ) : Rd (Option ℕ) :=
  parseEntries (fun r ptr => do
    pure (← getLargeResourceRecord pf ptr stop r.interfaceID r.recordType r.largecr).1) records ptr

end Locate

section Skipping

variable {pf : Platform} {m : Mem} {stop ptr p : ℕ} {interfaceID start : Option ℕ}
  {questions : List (Option ℕ)}

theorem skip_of_nameSpans (h : NameSpans m stop ptr p) : (skipDomainName ptr stop).run m = some p :=
  skipName_eq_some.mpr ⟨h.lt, h.ends⟩

theorem skip_of_name {dst : Mem} {base : ℕ}
    (h : ((getDomainName ptr stop dst base).run m).1 = some p) :
    (skipDomainName ptr stop).run m = some p :=
  skip_of_nameSpans (name_spans.mp h)

theorem skipQuestion_of_get (h : ((getQuestion ptr stop interfaceID).run m).1 = some p) :
    (skipQuestion ptr stop).run m = some p := by
  rw [getQuestion, run_bind] at h
  rcases hrun : (getDomainName ptr stop (Mem.ofList []) 0).run m with ⟨_ | q, qname⟩
  · rw [hrun] at h
    cases h
  · have hskip : (skipDomainName ptr stop).run m = some q := skip_of_name (congrArg Prod.fst hrun)
    rw [hrun] at h
    dsimp only at h
    rw [skipQuestion, run_bind, hskip]
    dsimp only
    split at h
    · cases h
    · next hroom =>
      rw [if_neg hroom]
      simpa using h

theorem skip_of_getLarge {recordType : UInt8} {rr : ResourceRecord}
    (h : ((getLargeResourceRecord pf ptr stop interfaceID recordType rr).run m).1 = some p) :
    (skipResourceRecord ptr stop).run m = some p := by
  obtain ⟨q, d, hd, hend⟩ := nameRead_of_getLarge h
  have hskip : (skipDomainName ptr stop).run m = some q := skip_of_nameSpans hd.nameSpans
  have hlen : Endian.big.val (m.read (q + 8) 2) = (headerAt pf m q interfaceID).pktrdlength := by
    simp [headerAt, getRecordHeader]
  rw [getLarge_of hd rfl hend rfl] at h
  split at h
  · rw [skipResourceRecord, run_bind, hskip]
    dsimp only
    rw [if_neg (by omega), run_bind, run_number, hlen, if_neg (by omega)]
    exact h
  · cases h

theorem skipEntries_none (skip : ℕ → Rd (Option ℕ)) (n : ℕ) :
    (skipEntries skip n none).run m = none := by
  cases n <;> rfl

theorem parseEntries_none {α : Type} (parse : α → ℕ → Rd (Option ℕ)) (as : List α) :
    (parseEntries parse as none).run m = none := by
  cases as <;> rfl

theorem skip_of_parseEntries {α : Type} {parse : α → ℕ → Rd (Option ℕ)} {skip : ℕ → Rd (Option ℕ)}
    (hskip : ∀ a ptr p, (parse a ptr).run m = some p → (skip ptr).run m = some p) {as : List α}
    (h : (parseEntries parse as start).run m = some p) :
    (skipEntries skip as.length start).run m = some p := by
  induction as generalizing start with
  | nil => exact h
  | cons a as ih =>
    cases start with
    | none => cases h
    | some ptr =>
      rw [parseEntries, run_bind] at h
      rw [List.length_cons, skipEntries, run_bind]
      cases hnext : (parse a ptr).run m with
      | none =>
        rw [hnext, parseEntries_none] at h
        cases h
      | some q =>
        rw [hskip a ptr q hnext, ← hnext]
        exact ih h

/-- A null position stays null when it is passed on, so the test can be left out. -/
theorem skipAllRecords_eq (n : ℕ) (start : Option ℕ) : (skipAllRecords stop n start).run m =
      (skipEntries (skipResourceRecord · stop) n start).run m := by
  induction n generalizing start with
  | zero => rfl
  | succ n ih =>
    rw [skipAllRecords, run_bind, ih]
    cases start with
    | none => exact skipEntries_none _ n
    | some ptr =>
      rw [skipEntries, run_bind]
      rfl

theorem getCount_run (s : Section) : (getCount pf s).run m = countOf pf m s := by
  simp [getCount, countOf]

theorem answers_of_parse (hq : questions.length = countOf pf m .questions)
    (h : (parseQuestions stop questions).run m = some p) :
    (locateAnswers pf stop).run m = some p := by
  rw [locateAnswers, run_bind, getCount_run, ← hq]
  refine skip_of_parseEntries (fun interfaceID ptr p hp => ?_) h
  rw [run_bind] at hp
  exact skipQuestion_of_get hp

theorem skip_of_parseRecords {records : List RecordStorage}
    (h : (parseRecords pf stop records start).run m = some p) :
    (skipEntries (skipResourceRecord · stop) records.length start).run m = some p := by
  refine skip_of_parseEntries (fun r ptr p hp => ?_) h
  rw [run_bind] at hp
  exact skip_of_getLarge hp

theorem authorities_of_parse {answers : List RecordStorage} {q : ℕ}
    (hq : questions.length = countOf pf m .questions) (ha : answers.length = countOf pf m .answers)
    (hparse : (parseQuestions stop questions).run m = some q)
    (h : (parseRecords pf stop answers (some q)).run m = some p) :
    (locateAuthorities pf stop).run m = some p := by
  rw [locateAuthorities, run_bind, answers_of_parse hq hparse, run_bind, getCount_run, ← ha]
  exact skip_of_parseRecords h

theorem additionals_of_parse {answers authorities : List RecordStorage} {q r : ℕ}
    (hq : questions.length = countOf pf m .questions) (ha : answers.length = countOf pf m .answers)
    (hau : authorities.length = countOf pf m .authorities)
    (hparse : (parseQuestions stop questions).run m = some q)
    (hans : (parseRecords pf stop answers (some q)).run m = some r)
    (h : (parseRecords pf stop authorities (some r)).run m = some p) :
    (locateAdditionals pf stop).run m = some p := by
  rw [locateAdditionals, run_bind, authorities_of_parse hq ha hparse hans, run_bind,
    getCount_run, ← hau, skipAllRecords_eq]
  exact skip_of_parseRecords h

/-- The skipping parser agrees with the full one, entry by entry, and the functions that look
for a section find it where parsing everything in front of it ends. -/
theorem skip_agrees (pf : Platform) (m : Mem) (stop : ℕ) :
    (∀ ptr dst base p, ((getDomainName ptr stop dst base).run m).1 = some p →
      (skipDomainName ptr stop).run m = some p) ∧
    (∀ ptr interfaceID p, ((getQuestion ptr stop interfaceID).run m).1 = some p →
      (skipQuestion ptr stop).run m = some p) ∧ (∀ ptr interfaceID recordType rr p,
      ((getLargeResourceRecord pf ptr stop interfaceID recordType rr).run m).1 = some p →
      (skipResourceRecord ptr stop).run m = some p) ∧
    ∀ questions : List (Option ℕ), questions.length = countOf pf m .questions →
      ∀ q, (parseQuestions stop questions).run m = some q → (locateAnswers pf stop).run m = some q ∧
        ∀ answers : List RecordStorage, answers.length = countOf pf m .answers →
          ∀ r, (parseRecords pf stop answers (some q)).run m = some r →
            (locateAuthorities pf stop).run m = some r ∧
            ∀ authorities : List RecordStorage, authorities.length = countOf pf m .authorities →
              ∀ p, (parseRecords pf stop authorities (some r)).run m = some p →
                (locateAdditionals pf stop).run m = some p := by
  refine ⟨fun _ _ _ _ h => skip_of_name h, fun _ _ _ h => skipQuestion_of_get h,
    fun _ _ _ _ _ h => skip_of_getLarge h, ?_⟩
  intro questions hq q hparse
  refine ⟨answers_of_parse hq hparse, ?_⟩
  intro answers ha r hans
  refine ⟨authorities_of_parse hq ha hparse hans, ?_⟩
  intro authorities hau p h
  exact additionals_of_parse hq ha hau hparse hans h

end Skipping

end Hexley.Dns
