import Hexley.Dns.NameWalk

/-!
Which bytes of a message the parsers read.

The parsers check a position before they read there, with two exceptions.
The second byte of a compression pointer is read, or stepped over, without a
check, and so is the header of an option, of which the rdata may hold only
one byte. `RecordFits` and the conditions before it say on the bytes of the
message that neither happens at its end, and the parsers keep to the message
exactly when this is so.
-/

namespace Hexley.Dns

open Lib Rd Endian Prod

/-- A program reads only below `stop`, and a position that it returns is not
past it. -/
structure InBounds {α : Type} (m : Mem) (stop : ℕ) (x : Rd α) (position : α → Option ℕ) :
    Prop where
  reads : x.ReadsBelow m stop
  le : ∀ p, position (x.run m) = some p → p ≤ stop

inductive LabelStep (m : Mem) (stop : ℕ) : ℕ × ℕ → ℕ × ℕ → Prop
  | label {pos np : ℕ} (hl : LabelFits m stop pos np) :
      LabelStep m stop (pos, np) (pos + 1 + (m pos).toNat, np + 1 + (m pos).toNat)

/-- The compression pointer that ends the name, if one does, has both its bytes
before `stop`. -/
def FirstPointerFits (m : Mem) (stop : ℕ) (start : ℕ × ℕ) : Prop :=
  ∀ c, Relation.ReflTransGen (LabelStep m stop) start c →
    labelKind (m c.1) = .pointer → c.1 + 2 ≤ stop

/-- The pointers of the name at `ptr`, which may go up to `stop`, lie before `top`. -/
def NameFits (m : Mem) (stop top ptr : ℕ) : Prop :=
  ptr < stop → PointersFit m stop top (ptr, 0)

structure NameSpans (m : Mem) (stop ptr p : ℕ) : Prop where
  lt : ptr < stop
  spelled : ∃ ls, Spelled m stop ptr 0 ls
  ends : NameEnd m stop ptr 0 p

/-- The options that come up: with `o` bytes of the rdata behind and `k` options
read, the next one is complete. -/
inductive OptionStep (m : Mem) (r limit n : ℕ) : ℕ × ℕ → ℕ × ℕ → Prop
  | llq {o k : ℕ} (ho : o < n) (hk : k * sizeofRdataOPT < maximumRDSize - sizeofRdataOPT)
      (hmax : o + 4 ≤ maximumRDSize) (hcode : big.val (m.read (r + o) 2) = kDNSOptLLQ)
      (hlen : r + o + 4 ≤ limit → r + o + 4 + llqOptLen ≤ limit) :
      OptionStep m r limit n (o, k) (o + 4 + llqOptLen, k + 1)
  | lease {o k : ℕ} (ho : o < n) (hk : k * sizeofRdataOPT < maximumRDSize - sizeofRdataOPT)
      (hmax : o + 4 ≤ maximumRDSize) (hcode : big.val (m.read (r + o) 2) = kDNSOptLease)
      (hlen : r + o + 4 ≤ limit → r + o + 8 ≤ limit) :
      OptionStep m r limit n (o, k) (o + 8, k + 1)

/-- The header of the option at `c` lies before `top`, and so does the payload
that is read after a header that the rdata cuts off. -/
def OptionFits (m : Mem) (r limit n top : ℕ) (c : ℕ × ℕ) : Prop :=
  c.1 < n → c.2 * sizeofRdataOPT < maximumRDSize - sizeofRdataOPT → c.1 + 4 ≤ maximumRDSize →
    r + c.1 + 4 ≤ top ∧ (limit < r + c.1 + 4 →
      (big.val (m.read (r + c.1) 2) = kDNSOptLLQ → r + c.1 + 4 + llqOptLen ≤ top) ∧
      (big.val (m.read (r + c.1) 2) = kDNSOptLease → r + c.1 + 8 ≤ top))

/-- The options that come up in the rdata lie before `top`. -/
def OptionsFit (m : Mem) (r limit n top : ℕ) : Prop :=
  ∀ c, Relation.ReflTransGen (OptionStep m r limit n) (0, 0) c → OptionFits m r limit n top c

def firstName (layout : RDLayout) (n : ℕ) : Option ℕ :=
  match layout with
  | .name | .soa | .rp => some 0
  | .mx => if n < 3 then none else some 2
  | .px => if n < 4 then none else some 0
  | .srv => if n < 7 then none else some 6
  | .a | .raw | .hinfo | .aaaa | .opt | .unknown => none

def hasSecondName : RDLayout → Bool
  | .soa | .rp | .px => true
  | _ => false

def RDataFits (m : Mem) (top r n : ℕ) (layout : RDLayout) : Prop :=
  (∀ k, firstName layout n = some k → NameFits m (r + n) top (r + k) ∧
    (hasSecondName layout → ∀ p, NameSpans m (r + n) (r + k) p → NameFits m (r + n) top p)) ∧
  (layout = .opt → OptionsFit m r (r + n) n top)

def RecordFits (m : Mem) (stop ptr : ℕ) : Prop :=
  NameFits m stop stop ptr ∧ ∀ p, NameSpans m stop ptr p → p + 10 ≤ stop →
    p + 10 + big.val (m.read (p + 8) 2) ≤ stop →
    ¬(UInt16.ofNat (big.val (m.read (p + 2) 2)) &&& kDNSClassMask = kDNSQClassANY ∧
      big.val (m.read (p + 8) 2) = 0) →
    RDataFits m stop (p + 10) (big.val (m.read (p + 8) 2))
      (layoutOf (UInt16.ofNat (big.val (m.read p 2))))

variable {m : Mem} {stop top ptr p r n : ℕ} {rr : ResourceRecord} {pf : Platform}

section Names

variable {dst : Mem} {base : ℕ}

theorem name_spans :
    ((getDomainName ptr stop dst base).run m).1 = some p ↔ NameSpans m stop ptr p :=
  name_eq_some_iff.trans ⟨fun ⟨h₁, h₂, h₃⟩ => ⟨h₁, h₂, h₃⟩, fun ⟨h₁, h₂, h₃⟩ => ⟨h₁, h₂, h₃⟩⟩

theorem nameField_below (htop : stop ≤ top) :
    (getNameField ptr stop base rr).ReadsBelow m top ↔ NameFits m stop top ptr := by
  rw [getNameField, below_bind, name_below htop]
  exact and_iff_left below_pure

theorem nameField_spans :
    ((getNameField ptr stop base rr).run m).1 = some p ↔ NameSpans m stop ptr p := by
  rw [getNameField, run_bind]
  exact name_spans

theorem firstPointerFits_iff {pos np : ℕ} (hpos : pos < stop) (hend : NameEnd m stop pos np p) :
    FirstPointerFits m stop (pos, np) ↔ p ≤ stop := by
  unfold FirstPointerFits
  induction hend with
  | @root pos np hz =>
    rw [reach_of_no_step (by
      rintro c ⟨hl⟩
      exact hl.ne_zero hz)]
    exact iff_of_true (fun hk => absurd hz (ne_zero_of_pointer hk)) hpos
  | @label pos np p hl rest ih =>
    rw [reach_of_step (LabelStep.label hl) (by rintro c ⟨hl'⟩; rfl), ih hl.inside]
    exact and_iff_right fun hk => absurd (hl.kind.symm.trans hk) (by decide)
  | @pointer pos np hk =>
    rw [reach_of_no_step (by
      rintro c ⟨hl⟩
      exact absurd (hl.kind.symm.trans hk) (by decide))]
    exact ⟨fun h => h hk, fun h _ => h⟩

end Names

theorem unsignedDiff_lt_iff {limit x len : ℕ} (h₁ : x ≤ limit + 4) (h₂ : limit ≤ x + 65535)
    (hlen : len ≤ 18) : unsignedDiff limit x < len ↔ x ≤ limit ∧ limit < x + len := by
  unfold unsignedDiff
  omega

theorem OptionStep.unique {limit : ℕ} {a b c : ℕ × ℕ} (hb : OptionStep m r limit n a b)
    (hc : OptionStep m r limit n a c) : c = b := by
  cases hb with
  | llq _ _ _ hcode =>
    cases hc with
    | llq => rfl
    | lease _ _ _ hcode' => exact absurd (hcode.symm.trans hcode') (by decide)
  | lease _ _ _ hcode =>
    cases hc with
    | llq _ _ _ hcode' => exact absurd (hcode.symm.trans hcode') (by decide)
    | lease => rfl

theorem payload_below {α : Type} {x : Rd α} {y : α} {len o k : ℕ} {next : ℕ × ℕ} (hlen : len ≤ 18)
    (ho : o < n) (hn : n ≤ 65535) (htop : r + n ≤ top)
    (hfits : OptionFits m r (r + n) n top (o, k) ↔
      r + o + 4 ≤ top ∧ (r + n < r + o + 4 → r + o + 4 + len ≤ top))
    (hstep : (r + o + 4 ≤ r + n → r + o + 4 + len ≤ r + n) → OptionStep m r (r + n) n (o, k) next)
    (hback : ∀ c, OptionStep m r (r + n) n (o, k) c → r + o + 4 ≤ r + n → r + o + 4 + len ≤ r + n)
    (hx : x.ReadsBelow m top ↔ r + o + 4 + len ≤ top ∧
      ∀ c, Relation.ReflTransGen (OptionStep m r (r + n) n) next c →
        OptionFits m r (r + n) n top c) :
    (r + o + 2 ≤ top ∧ r + o + 2 + 2 ≤ top ∧
      (if unsignedDiff (r + n) (r + o + 4) < len then pure y else x).ReadsBelow m top) ↔
      ∀ c, Relation.ReflTransGen (OptionStep m r (r + n) n) (o, k) c →
        OptionFits m r (r + n) n top c := by
  have hdiff : unsignedDiff (r + n) (r + o + 4) < len ↔ _ :=
    unsignedDiff_lt_iff (by omega) (by omega) hlen
  by_cases hshort : unsignedDiff (r + n) (r + o + 4) < len
  · have hcut := hdiff.mp hshort
    rw [if_pos hshort, reach_of_no_step fun c hc => by have := hback c hc hcut.1; omega, hfits]
    simp
    omega
  · have hnext := hstep (by omega)
    rw [if_neg hshort, hx, reach_of_step hnext fun c hc => hnext.unique hc, hfits]
    exact ⟨fun h => ⟨by omega, h.2.2.2⟩, fun h => ⟨by omega, by omega, by omega, h.2⟩⟩

theorem getOptFrom_below (hn : n ≤ 65535) (htop : r + n ≤ top) {fuel o k : ℕ} {rd : Mem}
    (hfuel : n - o < fuel) :
    (getOptRdataFrom pf (r + n) n fuel (r + o) o (k * sizeofRdataOPT) rd).ReadsBelow m top ↔
      ∀ c, Relation.ReflTransGen (OptionStep m r (r + n) n) (o, k) c →
        OptionFits m r (r + n) n top c := by
  induction fuel generalizing o k rd with
  | zero => omega
  | succ fuel ih =>
    rw [getOptRdataFrom]
    by_cases hguard : o < n ∧ k * sizeofRdataOPT < maximumRDSize - sizeofRdataOPT
    swap
    · rw [if_neg hguard, reach_of_no_step (by
        rintro c (⟨ho, hk⟩ | ⟨ho, hk⟩) <;> exact hguard ⟨ho, hk⟩)]
      exact iff_of_true below_pure fun ho hk => absurd ⟨ho, hk⟩ hguard
    rw [if_pos hguard]
    obtain ⟨ho, hk⟩ := hguard
    by_cases hmax : o + 4 > maximumRDSize
    · rw [if_pos hmax, reach_of_no_step (by rintro c (⟨_, _, h⟩ | ⟨_, _, h⟩) <;> omega)]
      exact iff_of_true below_pure fun _ _ h => by simp only at h; omega
    have hmax' := not_lt.mp hmax
    rw [if_neg hmax, below_bind, below_bind, below_number, below_number]
    simp only [run_number, OfNat.ofNat_ne_zero, false_or]
    have hfits : OptionFits m r (r + n) n top (o, k) ↔ r + o + 4 ≤ top ∧ (r + n < r + o + 4 →
        (big.val (m.read (r + o) 2) = kDNSOptLLQ → r + o + 4 + llqOptLen ≤ top) ∧
        (big.val (m.read (r + o) 2) = kDNSOptLease → r + o + 8 ≤ top)) :=
      ⟨fun h => h ho hk hmax', fun h _ _ _ => h⟩
    have hne : kDNSOptLLQ ≠ kDNSOptLease := by decide
    by_cases hllq : big.val (m.read (r + o) 2) = kDNSOptLLQ
    · rw [if_pos hllq]
      refine payload_below (by decide) ho hn htop (by simp [hfits, hllq, hne])
        (.llq ho hk hmax' hllq) ?_ ?_
      · rintro c (⟨_, _, _, _, hlen⟩ | ⟨_, _, _, hcode, _⟩)
        · exact hlen
        · exact absurd (hllq.symm.trans hcode) hne
      · simp [← Nat.succ_mul, add_assoc, ih (show n - (o + (4 + llqOptLen)) < fuel by omega)]
        have hlen : llqOptLen = 18 := rfl
        exact ⟨fun ⟨_, _, _, _, h, hc⟩ => ⟨h, hc⟩,
          fun ⟨h, hc⟩ => ⟨by omega, by omega, by omega, by omega, h, hc⟩⟩
    rw [if_neg hllq]
    by_cases hlease : big.val (m.read (r + o) 2) = kDNSOptLease
    · rw [if_pos hlease]
      refine payload_below (by decide) ho hn htop (by simp [hfits, hlease, hne.symm])
        (.lease ho hk hmax' hlease) ?_ ?_
      · rintro c (⟨_, _, _, hcode, _⟩ | ⟨_, _, _, _, hlen⟩)
        · exact absurd hcode hllq
        · exact hlen
      · simp [← Nat.succ_mul, add_assoc, ih (show n - (o + 8) < fuel by omega)]
    · rw [if_neg hlease, reach_of_no_step (by
        rintro c (⟨_, _, _, hcode, _⟩ | ⟨_, _, _, hcode, _⟩)
        · exact hllq hcode
        · exact hlease hcode), hfits]
      simp [hllq, hlease]
      omega

theorem getOptRdata_readsBelow (hn : n ≤ 65535) (htop : r + n ≤ top) {rd : Mem} :
    (getOptRdata pf r (r + n) n rd).ReadsBelow m top ↔ OptionsFit m r (r + n) n top := by
  have h : (getOptRdataFrom pf (r + n) n (n + 1) (r + 0) 0 (0 * sizeofRdataOPT) rd).ReadsBelow m
      top ↔ OptionsFit m r (r + n) n top := getOptFrom_below hn htop (Nat.lt_succ_self n)
  rwa [zero_mul] at h

section Record

theorem twoNames_below {base : ℕ} {g : Option ℕ × ResourceRecord → Rd (Bool × ResourceRecord)}
    (htop : stop ≤ top) (hnone : ∀ rr, (g (none, rr)).ReadsBelow m top)
    (hsome : ∀ p rr, (g (some p, rr)).ReadsBelow m top ↔ NameFits m stop top p) :
    (getNameField ptr stop base rr >>= g).ReadsBelow m top ↔
      NameFits m stop top ptr ∧ ∀ p, NameSpans m stop ptr p → NameFits m stop top p := by
  rw [below_bind, nameField_below htop]
  refine and_congr_right fun _ => ?_
  have hspans (p : ℕ) : ((getNameField ptr stop base rr).run m).1 = some p ↔
      NameSpans m stop ptr p := nameField_spans
  rcases hrun : (getNameField ptr stop base rr).run m with ⟨_ | p, rr'⟩
  · refine iff_of_true (hnone _) fun p hp => ?_
    have hp' := (hspans p).mpr hp
    rw [hrun] at hp'
    cases hp'
  · have hp : NameSpans m stop ptr p := (hspans p).mp (by rw [hrun])
    rw [hsome]
    exact ⟨fun h p' hp' => hp.ends.unique hp'.ends ▸ h, fun h => h p hp⟩

theorem getRData_readsBelow (hn : n ≤ 65535) (htop : r + n ≤ top) :
    (getRData pf r (r + n) n rr).ReadsBelow m top ↔ RDataFits m top r n (layoutOf rr.rrtype) := by
  unfold getRData RDataFits
  cases layoutOf rr.rrtype with
  | a | aaaa | raw | hinfo | unknown =>
    refine iff_of_true ?_ (by simp [firstName])
    dsimp only
    split
    · exact below_pure
    · simp
      omega
  | name => simp [nameField_below htop, firstName, hasSecondName]
  | soa =>
    simp only [firstName, hasSecondName, Option.some.injEq, forall_eq', add_zero,
      reduceCtorEq, false_implies, and_true, true_implies]
    refine twoNames_below htop (fun rr' => below_pure) fun p rr' => ?_
    rw [below_bind, nameField_below htop]
    refine and_iff_left ?_
    split
    · exact below_pure
    · split
      · exact below_pure
      · simp
        omega
  | rp =>
    simp only [firstName, hasSecondName, Option.some.injEq, forall_eq', add_zero,
      reduceCtorEq, false_implies, and_true, true_implies]
    refine twoNames_below htop (fun rr' => below_pure) fun p rr' => ?_
    simp [nameField_below htop]
  | mx =>
    by_cases h3 : n < 3
    · simp [firstName, h3]
    · have : r + 2 ≤ top := by omega
      simp [firstName, hasSecondName, nameField_below htop, h3, this]
  | srv =>
    by_cases h7 : n < 7
    · simp [firstName, h7]
    · have : r + 2 ≤ top ∧ r + 4 ≤ top ∧ r + 6 ≤ top := by omega
      simp [firstName, hasSecondName, nameField_below htop, h7, this]
  | px =>
    by_cases h4 : n < 4
    · simp [firstName, h4]
    · simp only [firstName, hasSecondName, h4, if_false, Option.some.injEq, forall_eq',
        add_zero, reduceCtorEq, false_implies, and_true, true_implies]
      rw [below_bind, and_iff_right (below_number.mpr (.inr (by omega)))]
      refine twoNames_below htop (fun rr' => below_pure) fun p rr' => ?_
      simp [nameField_below htop]
  | opt => simp [getOptRdata_readsBelow hn htop, firstName]

variable {interfaceID : Option ℕ}

theorem getUnique_readsBelow {rrclass : ℕ} (hstop : 2 < stop) :
    (getUnique rrclass interfaceID).ReadsBelow m stop := by
  unfold getUnique
  split
  · exact below_pure
  · split
    · exact below_pure
    · exact below_bind.mpr ⟨readsBelow_byte.mpr hstop, below_pure⟩

theorem NameFits.ends (h : NameFits m stop stop ptr) (hp : NameSpans m stop ptr p) : p ≤ stop :=
  hp.ends.le hp.lt (h hp.lt)

theorem number_le : big.val (m.read p 2) ≤ 65535 := by
  have h := val_lt big (m.read p 2)
  rw [Mem.length_read] at h
  omega

theorem header_run (pf : Platform) (m : Mem) (p : ℕ) (interfaceID : Option ℕ) :
    ((getRecordHeader pf p interfaceID).run m).rrtype = UInt16.ofNat (big.val (m.read p 2)) ∧
      ((getRecordHeader pf p interfaceID).run m).rrclass =
        UInt16.ofNat (big.val (m.read (p + 2) 2)) &&& kDNSClassMask ∧
      ((getRecordHeader pf p interfaceID).run m).pktrdlength = big.val (m.read (p + 8) 2) := by
  simp [getRecordHeader]

theorem header_below (hstop : p + 10 ≤ stop) :
    (getRecordHeader pf p interfaceID).ReadsBelow m stop := by
  have hunique (rrclass : ℕ) : (getUnique rrclass interfaceID).ReadsBelow m stop :=
    getUnique_readsBelow (by omega)
  simp [getRecordHeader, hunique]
  omega

/-- The parser of records keeps to the message exactly when the pointers and the
option headers in it do. -/
theorem getLarge_below {recordType : UInt8} :
    (getLargeResourceRecord pf ptr stop interfaceID recordType rr).ReadsBelow m stop ↔
      RecordFits m stop ptr := by
  unfold getLargeResourceRecord RecordFits
  rw [below_bind, name_below le_rfl]
  refine and_congr_right fun _ => ?_
  have hspans (p : ℕ) : ((getDomainName ptr stop rr.name 0).run m).1 = some p ↔
      NameSpans m stop ptr p := name_spans
  rcases hrun : (getDomainName ptr stop rr.name 0).run m with ⟨_ | p, name⟩
  · refine iff_of_true below_pure fun p hp => ?_
    have hp' := (hspans p).mpr hp
    rw [hrun] at hp'
    cases hp'
  have hp : NameSpans m stop ptr p := (hspans p).mp (by rw [hrun])
  have honly {Q : ℕ → Prop} : (∀ p', NameSpans m stop ptr p' → Q p') ↔ Q p :=
    ⟨fun h => h p hp, fun h p' hp' => hp.ends.unique hp'.ends ▸ h⟩
  rw [honly]
  dsimp only
  by_cases hhead : p + 10 > stop
  · rw [if_pos hhead]
    exact iff_of_true below_pure fun h => by omega
  rw [if_neg hhead, below_bind, and_iff_right (header_below (by omega))]
  obtain ⟨htype, hclass, hlen⟩ := header_run pf m p interfaceID
  rw [← htype, ← hclass, ← hlen]
  have hn : ((getRecordHeader pf p interfaceID).run m).pktrdlength ≤ 65535 :=
    hlen.trans_le number_le
  set h := (getRecordHeader pf p interfaceID).run m
  by_cases hlong : p + 10 + h.pktrdlength > stop
  · rw [if_pos hlong]
    exact iff_of_true below_pure fun _ h => by omega
  rw [if_neg hlong, below_bind, and_iff_left below_pure, getRDataOrNone]
  by_cases hany : h.rrclass = kDNSQClassANY ∧ h.pktrdlength = 0
  · rw [if_pos hany]
    exact iff_of_true below_pure fun _ _ h => absurd hany h
  · rw [if_neg hany, getRData_readsBelow hn (by omega)]
    exact ⟨fun h _ _ _ => h, fun h => h (by omega) (by omega) hany⟩

theorem getLarge_le {recordType : UInt8}
    (h : ((getLargeResourceRecord pf ptr stop interfaceID recordType rr).run m).1 = some p) :
    p ≤ stop := by
  unfold getLargeResourceRecord at h
  rw [run_bind] at h
  dsimp only at h
  split at h
  · cases h
  · split at h
    · cases h
    · rw [run_bind] at h
      split at h
      · cases h
      · rw [run_bind] at h
        split at h
        · cases h
          omega
        · cases h

end Record

theorem NameEnd.of_labelSteps {a c : ℕ × ℕ} (h : Relation.ReflTransGen (LabelStep m stop) a c)
    (hk : labelKind (m c.1) = .pointer) : NameEnd m stop a.1 a.2 (c.1 + 2) := by
  induction h using Relation.ReflTransGen.head_induction_on with
  | refl => exact .pointer hk
  | head hstep _ ih =>
    obtain ⟨hl⟩ := hstep
    exact .label hl ih

theorem name_inBounds {dst : Mem} {base : ℕ} :
    InBounds m stop (getDomainName ptr stop dst base) fst ↔ NameFits m stop stop ptr :=
  ⟨fun h => (name_below le_rfl).mp h.reads, fun h =>
    ⟨(name_below le_rfl).mpr h, fun _ hp => h.ends (name_spans.mp hp)⟩⟩

theorem skipName_inBounds : InBounds m stop (skipDomainName ptr stop) id ↔
      (ptr < stop → FirstPointerFits m stop (ptr, 0)) := by
  constructor
  · intro h hptr c hc hk
    exact h.le _ (skipName_eq_some.mpr ⟨hptr, NameEnd.of_labelSteps hc hk⟩)
  · intro h
    refine ⟨skipName_below le_rfl, fun p hp => ?_⟩
    obtain ⟨hptr, hend⟩ := skipName_eq_some.mp hp
    exact (firstPointerFits_iff hptr hend).mp (h hptr)

theorem question_inBounds {interfaceID : Option ℕ} :
    InBounds m stop (getQuestion ptr stop interfaceID) fst ↔ NameFits m stop stop ptr := by
  unfold getQuestion
  refine ⟨fun h => (name_below le_rfl).mp (below_bind.mp h.reads).1, fun h =>
    ⟨below_bind.mpr ⟨(name_below le_rfl).mpr h, ?_⟩, fun p hp => ?_⟩⟩
  · dsimp only
    split
    · exact below_pure
    · split
      · exact below_pure
      · simp
        omega
  · rw [run_bind] at hp
    dsimp only at hp
    split at hp
    · cases hp
    · split at hp
      · cases hp
      · cases hp
        omega

theorem skipRecord_inBounds : InBounds m stop (skipResourceRecord ptr stop) id := by
  unfold skipResourceRecord
  constructor
  · refine below_bind.mpr ⟨skipName_below le_rfl, ?_⟩
    split
    · exact below_pure
    · split
      · exact below_pure
      · refine below_bind.mpr ⟨below_number.mpr (.inr (by omega)), ?_⟩
        split <;> exact below_pure
  · intro q hq
    rw [run_bind, id_eq] at hq
    split at hq
    · cases hq
    · split at hq
      · cases hq
      · rw [run_bind] at hq
        split at hq
        · cases hq
        · cases hq
          omega

/-- The parsers read only the message, and return positions inside it, exactly
when no compression pointer and no option header that they come to is cut
off by its end. Records are always skipped inside the message. -/
theorem parsers_inBounds_iff (pf : Platform) (m : Mem) (stop ptr base : ℕ) (dst : Mem)
    (interfaceID : Option ℕ) (recordType : UInt8) (rr : ResourceRecord) :
    (InBounds m stop (getDomainName ptr stop dst base) fst ↔ NameFits m stop stop ptr) ∧
    (InBounds m stop (skipDomainName ptr stop) id ↔
      (ptr < stop → FirstPointerFits m stop (ptr, 0))) ∧
    (InBounds m stop (getQuestion ptr stop interfaceID) fst ↔ NameFits m stop stop ptr) ∧
    InBounds m stop (skipResourceRecord ptr stop) id ∧
    (InBounds m stop (getLargeResourceRecord pf ptr stop interfaceID recordType rr) fst ↔
      RecordFits m stop ptr) :=
  ⟨name_inBounds, skipName_inBounds, question_inBounds,
    skipRecord_inBounds, fun h => getLarge_below.mp h.reads, fun h =>
      ⟨getLarge_below.mpr h, fun _ hp => getLarge_le hp⟩⟩

/-! ### Two messages that are left -/

def cutPointer : Mem := Mem.ofList (List.replicate 12 0 ++ [0xC0])

def cutOption : Mem :=
  Mem.ofList (List.replicate 12 0 ++ [0, 0, 41, 0, 0, 0, 0, 0, 0, 0, 1, 0])

/-- The record buffer as it is after `mDNSPlatformMemZero`. -/
def emptyRecord : ResourceRecord where
  recordType := 0
  interfaceID := none
  name := Mem.ofList []
  rrtype := 0
  rrclass := 0
  rroriginalttl := 0
  rdlength := 0
  rdestimate := 0
  namehash := 0
  rdatahash := 0
  rdata := Mem.ofList []

def littlePlatform : Platform := ⟨.little, 1000, by decide⟩

def rootRecord (rrtype rdlength : UInt16) (rdata : Mem) : ResourceRecord :=
  { emptyRecord with
    recordType := 2
    rrtype := rrtype
    rrclass := 1
    rdlength := rdlength
    rdata := rdata }

theorem parsers_not_inBounds : ¬InBounds cutPointer 13 (getDomainName 12 13 (Mem.ofList []) 0) fst ∧
    ¬InBounds cutPointer 13 (skipDomainName 12 13) id ∧
    ¬InBounds cutPointer 13 (getQuestion 12 13 none) fst ∧ ¬InBounds cutOption 24
      (getLargeResourceRecord ⟨.little, 1000, by decide⟩ 12 24 none 0 emptyRecord) fst := by
  refine ⟨fun h => ?_, fun h => ?_, fun h => ?_, fun h => ?_⟩
  · exact absurd (h.reads 13 (by decide +kernel)) (by decide)
  · exact absurd (h.le 14 (by decide +kernel)) (by decide)
  · exact absurd (h.reads 13 (by decide +kernel)) (by decide)
  · exact absurd (h.reads 24 (by decide +kernel)) (by decide)

end Hexley.Dns
