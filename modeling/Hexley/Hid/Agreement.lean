import Hexley.Hid.Descriptor

/-!
The parsing pass stays inside of what the counting pass has reserved.

The counting pass knows nothing of the flags that pair the two halves of a
range, and it takes every report ID for a new one. What it tallies is an
upper bound all the same. It is enough to compare, after each item, the
parser with the counters at that point (`Agrees`): most counts are equal,
the number of reports is at most the number of report IDs, and twice the
number of entries of a ranged array, with the half that waits, is at most
twice the single items plus the halves that were seen (`Fits`).

The counters only grow, except for the two nestings, so that the counters
at every point are covered by the sizes at the end (`Reserved`).
-/

namespace Hexley.Hid

open Lib Outcome Option

variable {c c' : Counters} {z : Sizes} {s : Parser} {item : HIDItem}

/-! ### The counters against the reserved sizes -/

structure Reserved (c : Counters) (z : Sizes) : Prop where
  collections : c.collectionCount ≤ z.collections
  reportItems : c.reportItemCount ≤ z.reportItems
  reports : c.reportCount ≤ z.reports
  usageItems : 2 * c.usages + c.usageRanges ≤ 2 * z.usageItems
  stringItems : 2 * c.strings + c.stringRanges ≤ 2 * z.stringItems
  desigItems : 2 * c.desigs + c.desigRanges ≤ 2 * z.desigItems
  collectionStack : c.maxCollectionNesting ≤ z.collectionStack
  globalsStack : c.maxGlobalsNesting ≤ z.globalsStack

theorem Counters.reserved_sizes (h : c.sizes = some z) : Reserved c z := by
  unfold Counters.sizes at h
  split_ifs at h with hbad
  injection h with h
  subst h
  constructor <;> dsimp only <;> omega

theorem Reserved.of_countMainItem {tag : Option MainTag}
    (hc : countMainItem c tag = some c') (h : Reserved c' z) : Reserved c z := by
  unfold countMainItem at hc
  split at hc
  case h_2 =>
    split_ifs at hc
    injection hc with hc
    subst hc
    exact { h with }
  case h_1 =>
    injection hc with hc
    subst hc
    exact { h with
      collections := Nat.le_of_succ_le h.collections
      collectionStack := Nat.le_trans (Nat.le_max_left _ _) h.collectionStack }
  case h_6 =>
    injection hc with hc
    exact hc ▸ h
  all_goals
    injection hc with hc
    subst hc
    exact { h with reportItems := Nat.le_of_succ_le h.reportItems }

theorem Reserved.of_countGlobalItem {tag : Option GlobalTag}
    (hc : countGlobalItem c tag = some c') (h : Reserved c' z) : Reserved c z := by
  unfold countGlobalItem at hc
  split at hc
  case h_1 =>
    injection hc with hc
    subst hc
    exact { h with reports := Nat.le_of_succ_le h.reports }
  case h_2 =>
    injection hc with hc
    subst hc
    exact { h with globalsStack := Nat.le_trans (Nat.le_max_left _ _) h.globalsStack }
  case h_3 =>
    split_ifs at hc
    injection hc with hc
    subst hc
    exact { h with }
  case h_4 =>
    injection hc with hc
    exact hc ▸ h

theorem Reserved.of_countLocalItem {tag : Option LocalTag}
    (h : Reserved (countLocalItem c tag) z) : Reserved c z := by
  obtain _ | tag := tag
  · exact h
  have husage := h.usageItems
  have hstring := h.stringItems
  have hdesig := h.desigItems
  cases tag <;> simp only [countLocalItem] at husage hstring hdesig <;> exact { h with
      usageItems := by omega
      stringItems := by omega
      desigItems := by omega }

theorem Reserved.of_countItem (hc : countItem c item = some c') (h : Reserved c' z) :
    Reserved c z := by
  unfold countItem at hc
  split at hc
  · exact h.of_countMainItem hc
  · exact h.of_countGlobalItem hc
  · injection hc with hc
    subst hc
    exact h.of_countLocalItem
  · injection hc with hc
    exact hc ▸ h

theorem Reserved.of_countItems {items : List HIDItem} (hc : countItems c items = some c')
    (h : Reserved c' z) : Reserved c z := by
  induction items generalizing c with
  | nil =>
    injection hc with hc
    exact hc ▸ h
  | cons item items ih =>
    obtain ⟨c₁, h₁, h₂⟩ := bind_eq_some_iff.mp hc
    exact (ih h₂).of_countItem h₁

/-! ### Ranged arrays -/

structure Fits (size : ℕ) (tally : ℕ) (length count : ℕ) (haveMin haveMax : Bool) : Prop where
  length_eq : length = size
  oneHalf : (haveMin && haveMax) = false
  covered : 2 * count + haveMin.toNat + haveMax.toNat ≤ tally

namespace Fits

variable {size tally tally' : ℕ}

variable {length count : ℕ} {haveMin haveMax : Bool}

section

variable (h : Fits size tally length count haveMin haveMax)
include h

theorem room_single (hroom : tally + 2 ≤ 2 * size) : count < length := by
  have := h.length_eq
  have := h.covered
  omega

theorem single (ht : tally + 2 = tally') :
    Fits size tally' length (count + 1) haveMin haveMax where
  length_eq := h.length_eq
  oneHalf := h.oneHalf
  covered := by
    have := h.covered
    omega

theorem room_range (hhalf : haveMin = true ∨ haveMax = true) (hroom : tally + 1 ≤ 2 * size) :
    count < length := by
  have := h.length_eq
  have hcov := h.covered
  rcases hhalf with rfl | rfl <;> simp only [Bool.toNat_true] at hcov <;> omega

theorem range (hhalf : haveMin = true ∨ haveMax = true) (ht : tally + 1 = tally') :
    Fits size tally' length (count + 1) false false where
  length_eq := h.length_eq
  oneHalf := rfl
  covered := by
    have hcov := h.covered
    rcases hhalf with rfl | rfl <;>
      simp only [Bool.toNat_true, Bool.toNat_false] at hcov ⊢ <;> omega

theorem halfMin (hmax : haveMax = false)
    (ht : tally + 1 = tally') : Fits size tally' length count true haveMax where
  length_eq := h.length_eq
  oneHalf := by simp [hmax]
  covered := by
    have hcov := h.covered
    simp only [Bool.toNat_true] at hcov ⊢
    omega

theorem halfMax (hmin : haveMin = false)
    (ht : tally + 1 = tally') : Fits size tally' length count haveMin true where
  length_eq := h.length_eq
  oneHalf := by simp [hmin]
  covered := by
    have hcov := h.covered
    simp only [Bool.toNat_true] at hcov ⊢
    omega

end

end Fits

def Usages.Fits (u : Usages) (size tally : ℕ) : Prop :=
  Hid.Fits size tally u.items.length u.count u.haveMin u.haveMax

def Indices.Fits (x : Indices) (size tally : ℕ) : Prop :=
  Hid.Fits size tally x.items.length x.count x.haveMin x.haveMax

section

variable {u : Usages} {x : Indices} {globals : HIDGlobalItems}

section

variable (hu : u.Fits size tally)
include hu

theorem addUsage_ensures (ht : tally + 2 = tally') (hroom : tally' ≤ 2 * size) :
    (addUsage u globals item).Ensures fun u => u.Fits size tally' := by
  have hlt := Hid.Fits.room_single hu (by omega)
  apply ensures_load hlt
  intro entry _
  apply ensures_store hlt
  have hset := Hid.Fits.single hu ht
  exact ensures_pure (by simpa [Usages.Fits] using hset)

section

variable (ht : tally + 1 = tally') (hroom : tally' ≤ 2 * size)
include ht hroom

theorem usageRange_ensures (hhalf : u.haveMin = true ∨ u.haveMax = true) (page : Word)
    (thisHalf waitingHalf : HIDUsageItem → HIDUsageItem) :
    (addUsageRange u page thisHalf waitingHalf).Ensures fun r =>
      r.2 = .success → r.1.Fits size tally' := by
  have hlt := Hid.Fits.room_range hu hhalf (by omega)
  apply ensures_load hlt
  intro entry _
  apply ensures_store hlt
  dsimp only
  -- the entry may turn out to be bad, but it has been taken in any case
  split_ifs
  · exact ensures_pure nofun
  · apply ensures_store (by simpa using hlt)
    exact ensures_pure nofun
  · apply ensures_store (by simpa using hlt)
    have hrange := Hid.Fits.range hu hhalf ht
    exact ensures_pure fun _ => by simpa [Usages.Fits] using hrange

theorem usageMinimum_ensures :
    (usageMinimum u globals item).Ensures fun r => r.2 = .success → r.1.Fits size tally' := by
  unfold usageMinimum
  split_ifs with hmax
  · exact usageRange_ensures hu ht hroom (.inr hmax) _ _ _
  · exact ensures_pure fun _ => Hid.Fits.halfMin hu (by simpa using hmax) ht

theorem usageMaximum_ensures :
    (usageMaximum u globals item).Ensures fun r => r.2 = .success → r.1.Fits size tally' := by
  unfold usageMaximum
  split_ifs with hmin
  · exact usageRange_ensures hu ht hroom (.inl hmin) _ _ _
  · exact ensures_pure fun _ => Hid.Fits.halfMax hu (by simpa using hmin) ht

end

end

section

variable (hx : x.Fits size tally)
include hx

theorem addIndex_ensures (ht : tally + 2 = tally') (hroom : tally' ≤ 2 * size) (value : Word) :
    (addIndex x value).Ensures fun x => x.Fits size tally' := by
  have hlt := Hid.Fits.room_single hx (by omega)
  apply ensures_load hlt
  intro entry _
  apply ensures_store hlt
  have hset := Hid.Fits.single hx ht
  exact ensures_pure (by simpa [Indices.Fits] using hset)

section

variable (ht : tally + 1 = tally') (hroom : tally' ≤ 2 * size)
include ht hroom

theorem indexRange_ensures (hhalf : x.haveMin = true ∨ x.haveMax = true) (minimum maximum : Word) :
    (addIndexRange x minimum maximum).Ensures fun x => x.Fits size tally' := by
  have hlt := Hid.Fits.room_range hx hhalf (by omega)
  apply ensures_load hlt
  intro entry _
  apply ensures_store hlt
  have hrange := Hid.Fits.range hx hhalf ht
  exact ensures_pure (by simpa [Indices.Fits] using hrange)

theorem indexMinimum_ensures (value : Word) :
    (indexMinimum x value).Ensures fun x => x.Fits size tally' := by
  unfold indexMinimum
  split_ifs with hmax
  · exact indexRange_ensures hx ht hroom (.inr hmax) _ _
  · exact ensures_pure (Hid.Fits.halfMin hx (by simpa using hmax) ht)

theorem indexMaximum_ensures (value : Word) :
    (indexMaximum x value).Ensures fun x => x.Fits size tally' := by
  unfold indexMaximum
  split_ifs with hmin
  · exact indexRange_ensures hx ht hroom (.inl hmin) _ _
  · exact ensures_pure (Hid.Fits.halfMax hx (by simpa using hmin) ht)

end

end

end

/-! ### The parser against the counters -/

/-- Every report index that is in force, on the stack of globals or in a
report item is below the number of reports. -/
structure Parser.ReportIndices (s : Parser) : Prop where
  current : s.globals.reportIndex < s.reportCount
  stacked : ∀ i < s.globalsNesting, ∀ g, s.globalsStack[i]? = some g →
    g.reportIndex < s.reportCount
  stored : ∀ i < s.reportItemCount, ∀ r, s.reportItems[i]? = some r →
    r.globals.reportIndex < s.reportCount

/-- The parser after some items and the counters after the same items, over
the reserved sizes `z`. -/
structure Agrees (c : Counters) (z : Sizes) (s : Parser) : Prop where
  collections : s.collections.length = z.collections
  collectionCount : s.collectionCount = c.collectionCount
  reportItems : s.reportItems.length = z.reportItems
  reportItemCount : s.reportItemCount = c.reportItemCount
  reports : s.reports.length = z.reports
  reportCount : s.reportCount ≤ c.reportCount
  usages : s.usages.Fits z.usageItems (2 * c.usages + c.usageRanges)
  strings : s.strings.Fits z.stringItems (2 * c.strings + c.stringRanges)
  desigs : s.desigs.Fits z.desigItems (2 * c.desigs + c.desigRanges)
  collectionStack : s.collectionStack.length = z.collectionStack
  collectionNesting : s.collectionNesting = c.collectionNesting
  collectionDepth : s.collectionNesting ≤ z.collectionStack
  globalsStack : s.globalsStack.length = z.globalsStack
  globalsNesting : s.globalsNesting = c.globalsNesting
  globalsDepth : s.globalsNesting ≤ z.globalsStack
  parent : s.parent < s.collectionCount
  parents : ∀ i < s.collectionNesting, ∀ p, s.collectionStack[i]? = some p →
    p < s.collectionCount
  indices : s.ReportIndices

/-- What an item must leave behind: the report indices are good in any case,
and the parser agrees with the counters if it goes on. -/
def Good (c : Counters) (z : Sizes) (r : Parser × OSStatus) : Prop :=
  r.1.ReportIndices ∧ (r.2 = .success → Agrees c z r.1)

theorem Agrees.good (h : Agrees c z s) : Good c z (s, .success) := ⟨h.indices, fun _ => h⟩

theorem forall_set_of_le {α : Type} {P : α → Prop} {xs : List α} {n : ℕ} {a : α} (ha : P a)
    (h : ∀ i < n, ∀ x, xs[i]? = some x → P x) :
    ∀ i < n + 1, ∀ x, (xs.set n a)[i]? = some x → P x := by
  intro i hi x hx
  rcases Nat.lt_or_eq_of_le (Nat.lt_succ_iff.mp hi) with hlt | rfl
  · rw [List.getElem?_set_ne (by omega)] at hx
    exact h i hlt x hx
  · rw [List.getElem?_set_self' ] at hx
    obtain ⟨_, _, rfl⟩ := map_eq_some_iff.mp hx
    exact ha

theorem localItem_ensures (hs : Agrees c z s)
    (hz : Reserved (countLocalItem c (LocalTag.ofTag item.tag)) z) :
    (hidProcessLocalItem s item).Ensures (Good (countLocalItem c (LocalTag.ofTag item.tag)) z) := by
  unfold hidProcessLocalItem
  have husage := hz.usageItems
  have hstring := hz.stringItems
  have hdesig := hz.desigItems
  generalize LocalTag.ofTag item.tag = tag at *
  obtain _ | tag := tag
  · exact hs.good
  cases tag <;> simp only [countLocalItem] at husage hstring hdesig ⊢
  case usage =>
    apply ensures_bind (addUsage_ensures hs.usages (by omega) husage)
    intro u hu
    exact Agrees.good { hs with usages := hu, indices := { hs.indices with } }
  case usageMinimum =>
    apply ensures_bind (usageMinimum_ensures hs.usages (by omega) husage)
    intro r hr
    exact ⟨{ hs.indices with },
      fun hok => { hs with usages := hr hok, indices := { hs.indices with } }⟩
  case usageMaximum =>
    apply ensures_bind (usageMaximum_ensures hs.usages (by omega) husage)
    intro r hr
    exact ⟨{ hs.indices with },
      fun hok => { hs with usages := hr hok, indices := { hs.indices with } }⟩
  case designatorIndex =>
    apply ensures_bind (addIndex_ensures hs.desigs (by omega) hdesig _)
    intro x hx
    exact Agrees.good { hs with desigs := hx, indices := { hs.indices with } }
  case designatorMinimum =>
    apply ensures_bind (indexMinimum_ensures hs.desigs (by omega) hdesig _)
    intro x hx
    exact Agrees.good { hs with desigs := hx, indices := { hs.indices with } }
  case designatorMaximum =>
    apply ensures_bind (indexMaximum_ensures hs.desigs (by omega) hdesig _)
    intro x hx
    exact Agrees.good { hs with desigs := hx, indices := { hs.indices with } }
  case stringIndex =>
    apply ensures_bind (addIndex_ensures hs.strings (by omega) hstring _)
    intro x hx
    exact Agrees.good { hs with strings := hx, indices := { hs.indices with } }
  case stringMinimum =>
    apply ensures_bind (indexMinimum_ensures hs.strings (by omega) hstring _)
    intro x hx
    exact Agrees.good { hs with strings := hx, indices := { hs.indices with } }
  case stringMaximum =>
    apply ensures_bind (indexMaximum_ensures hs.strings (by omega) hstring _)
    intro x hx
    exact Agrees.good { hs with strings := hx, indices := { hs.indices with } }
  case setDelimiter => exact hs.good

/-! ### Global items -/

theorem findReport_ensures {reports : List HIDReportSizes} {reportID : Word} {i remaining : ℕ}
    (h : i + remaining ≤ reports.length) :
    (findReport reports reportID i remaining).Ensures fun j => j ≤ i + remaining := by
  induction remaining generalizing i with
  | zero => exact ensures_pure (Nat.le_refl i)
  | succ remaining ih =>
    apply ensures_load (by omega)
    intro report _
    split_ifs
    · refine (ih (by omega)).mono ?_
      intro j hj
      omega
    · exact ensures_pure (by omega)

section

variable (hs : Agrees c z s)
include hs

theorem setReportID_ensures (reportID : Word)
    (hz : c.reportCount + 1 ≤ z.reports) : (setReportID s reportID).Ensures
      (Agrees { c with reportCount := c.reportCount + 1 } z) := by
  have hcount := hs.reportCount
  have hlen := hs.reports
  apply ensures_bind (findReport_ensures (by omega))
  intro j hj
  split_ifs with hnew
  · -- a new ID: every index that was good stays good, as the number grows
    apply ensures_store (by omega)
    exact {
      hs with
      reports := by simpa using hs.reports
      reportCount := Nat.succ_le_succ hcount
      indices := {
        current := by dsimp only; omega
        stacked := fun i hi g hg => Nat.lt_succ_of_lt (hs.indices.stacked i hi g hg)
        stored := fun i hi r hr => Nat.lt_succ_of_lt (hs.indices.stored i hi r hr) } }
  · exact {
      hs with
      reportCount := Nat.le_succ_of_le hcount
      indices := {
        hs.indices with
        current := by dsimp only; omega } }

theorem pushGlobals_ensures {m : ℕ} (hm : c.globalsNesting + 1 ≤ m)
    (hz : m ≤ z.globalsStack) : (pushGlobals s).Ensures
      (Agrees { c with globalsNesting := c.globalsNesting + 1, maxGlobalsNesting := m } z) := by
  have hnest := hs.globalsNesting
  have hlen := hs.globalsStack
  apply ensures_store (by omega)
  exact {
    hs with
    globalsStack := by simpa using hlen
    globalsNesting := by dsimp only; omega
    globalsDepth := by dsimp only; omega
    indices := {
      hs.indices with
      stacked := forall_set_of_le hs.indices.current hs.indices.stacked } }

theorem popGlobals_ensures (hpos : c.globalsNesting ≠ 0) :
    (popGlobals s).Ensures (Agrees { c with globalsNesting := c.globalsNesting - 1 } z) := by
  have hnest := hs.globalsNesting
  have hdepth := hs.globalsDepth
  have hlen := hs.globalsStack
  unfold popGlobals
  split
  case h_1 h0 => omega
  case h_2 n hn =>
    apply ensures_load (by omega)
    intro g hg
    exact {
      hs with
      globalsNesting := by dsimp only; omega
      globalsDepth := by dsimp only; omega
      indices := {
        hs.indices with
        current := hs.indices.stacked n (by omega) g hg
        stacked := by
          intro i hi
          dsimp only at hi
          exact hs.indices.stacked i (by omega) } }

/-- The global items that are not about reports or the stack set a field
that no bound depends on. -/
theorem Agrees.setGlobals {g : HIDGlobalItems}
    (hg : g.reportIndex = s.globals.reportIndex) : Agrees c z { s with globals := g } :=
  { hs with indices := { hs.indices with current := hg ▸ hs.indices.current } }

theorem globalItem_ensures (hc : countGlobalItem c (GlobalTag.ofTag item.tag) = some c')
    (hz : Reserved c' z) :
    (hidProcessGlobalItem s item).Ensures (Agrees c' z) := by
  unfold hidProcessGlobalItem
  generalize GlobalTag.ofTag item.tag = tag at *
  obtain _ | tag := tag
  · injection hc with hc
    exact hc ▸ hs
  cases tag <;> simp only [countGlobalItem] at hc ⊢
  case reportID =>
    injection hc with hc
    subst hc
    exact setReportID_ensures hs _ hz.reports
  case push =>
    injection hc with hc
    subst hc
    exact pushGlobals_ensures hs (Nat.le_max_right _ _) hz.globalsStack
  case pop =>
    split_ifs at hc with h0
    injection hc with hc
    subst hc
    exact popGlobals_ensures hs h0
  all_goals
    injection hc with hc
    subst hc
    exact hs.setGlobals rfl

/-! ### Main items -/

theorem collection_ensures {m : ℕ}
    (hcol : c.collectionCount + 1 ≤ z.collections) (hm : c.collectionNesting + 1 ≤ m)
    (hz : m ≤ z.collectionStack) : (hidProcessCollection s item).Ensures (Agrees { c with
        collectionCount := c.collectionCount + 1
        collectionNesting := c.collectionNesting + 1
        maxCollectionNesting := m } z) := by
  have hcount := hs.collectionCount
  have hparent := hs.parent
  have hnest := hs.collectionNesting
  have hlen := hs.collections
  have hstack := hs.collectionStack
  apply ensures_load (by omega)
  intro old _
  apply ensures_store (by omega)
  apply ensures_load (by simp only [List.length_set]; omega)
  intro parent _
  apply ensures_store (by simp only [List.length_set]; omega)
  apply ensures_store (by omega)
  exact {
    hs with
    collections := by simpa using hlen
    collectionCount := by dsimp only; omega
    collectionStack := by simpa using hstack
    collectionNesting := by dsimp only; omega
    collectionDepth := by dsimp only; omega
    parent := Nat.lt_succ_self _
    parents := by
      apply forall_set_of_le (P := fun p => p < s.collectionCount + 1) (by omega)
      intro i hi p hp
      exact Nat.lt_succ_of_lt (hs.parents i hi p hp)
    usages := hs.usages
    indices := { hs.indices with } }

theorem endCollection_ensures (hpos : c.collectionNesting ≠ 0)
    (hcol : c.collectionCount ≤ z.collections) : (hidProcessEndCollection s).Ensures
      (Agrees { c with collectionNesting := c.collectionNesting - 1 } z) := by
  have hcount := hs.collectionCount
  have hparent := hs.parent
  have hnest := hs.collectionNesting
  have hdepth := hs.collectionDepth
  have hlen := hs.collections
  have hstack := hs.collectionStack
  apply ensures_load (by omega)
  intro collection _
  apply ensures_store (by omega)
  split
  case h_1 h0 => omega
  case h_2 n hn =>
    apply ensures_load (by omega)
    intro p hp
    exact {
      hs with
      collections := by simpa using hlen
      collectionNesting := by dsimp only; omega
      collectionDepth := by dsimp only; omega
      parent := hs.parents n (by omega) p hp
      parents := by
        intro i hi
        dsimp only at hi
        exact hs.parents i (by omega)
      indices := { hs.indices with } }

end

@[simp] theorem check_reportIndex (s : Parser) (r : HIDReportItem) :
    (realityCheck s r).1.globals.reportIndex = r.globals.reportIndex := by
  simp only [realityCheck]
  split_ifs <;> rfl

theorem finishItem_ensures (hs : Agrees c z s) {r : HIDReportItem} {reportType : ReportType}
    (hr : r.globals.reportIndex = s.globals.reportIndex)
    (hitems : c.reportItemCount + 1 ≤ z.reportItems) (hreports : c.reportCount ≤ z.reports) :
    (finishReportItem s r reportType).Ensures
      (Agrees { c with reportItemCount := c.reportItemCount + 1 } z) := by
  have hcount := hs.reportItemCount
  have hlen := hs.reportItems
  have hreport := hs.reports
  have hreportCount := hs.reportCount
  have hcurrent := hs.indices.current
  apply ensures_load (by omega)
  intro report _
  apply ensures_store (by omega)
  apply ensures_store (by omega)
  exact {
    hs with
    reportItems := by simpa using hlen
    reportItemCount := by dsimp only; omega
    reports := by simpa using hreport
    usages := hs.usages
    strings := hs.strings
    desigs := hs.desigs
    indices := {
      hs.indices with
      stored := forall_set_of_le (by dsimp only; omega) hs.indices.stored } }

theorem reportItem_ensures (hs : Agrees c z s) {reportType : ReportType}
    (hitems : c.reportItemCount + 1 ≤ z.reportItems) (hreports : c.reportCount ≤ z.reports) :
    (hidProcessReportItem s item reportType).Ensures
      (Good { c with reportItemCount := c.reportItemCount + 1 } z) := by
  have hcount := hs.reportItemCount
  have hlen := hs.reportItems
  apply ensures_load (by omega)
  intro old _
  have hindex := check_reportIndex s
    { old with dataModes := item.unsignedValue, globals := s.globals }
  generalize realityCheck s { old with dataModes := item.unsignedValue, globals := s.globals } = p
    at hindex ⊢
  dsimp only at hindex ⊢
  split_ifs with hstrict
  · apply ensures_store (by omega)
    refine ensures_pure ⟨{ hs.indices with stored := ?_ }, fun hok => absurd hok hstrict.1⟩
    apply forall_set_of_le _ hs.indices.stored
    rw [hindex]
    exact hs.indices.current
  · apply ensures_bind (finishItem_ensures hs hindex hitems hreports)
    intro s' hs'
    exact ensures_pure hs'.good

theorem mainItem_ensures (hs : Agrees c z s)
    (hc : countMainItem c (MainTag.ofTag item.tag) = some c') (hz : Reserved c' z) :
    (hidProcessMainItem s item).Ensures (Good c' z) := by
  unfold hidProcessMainItem
  generalize MainTag.ofTag item.tag = tag at *
  obtain _ | tag := tag
  · injection hc with hc
    exact hc ▸ hs.good
  cases tag <;> simp only [countMainItem] at hc ⊢
  case collection =>
    injection hc with hc
    subst hc
    apply ensures_bind
      (collection_ensures hs hz.collections (Nat.le_max_right _ _) hz.collectionStack)
    intro s' hs'
    exact ensures_pure hs'.good
  case endCollection =>
    split_ifs at hc with h0
    injection hc with hc
    subst hc
    apply ensures_bind (endCollection_ensures hs h0 hz.collections)
    intro s' hs'
    exact ensures_pure hs'.good
  all_goals
    injection hc with hc
    subst hc
    exact reportItem_ensures hs hz.reportItems hz.reports

/-! ### The whole pass -/

theorem processItem_ensures (hs : Agrees c z s) (hc : countItem c item = some c')
    (hz : Reserved c' z) : (processItem s item).Ensures (Good c' z) := by
  unfold processItem
  unfold countItem at hc
  split at hc
  · exact mainItem_ensures hs hc hz
  · apply ensures_bind (globalItem_ensures hs hc hz)
    intro s' hs'
    exact ensures_pure hs'.good
  · injection hc with hc
    subst hc
    exact localItem_ensures hs hz
  · injection hc with hc
    exact hc ▸ hs.good

/-- All items: the induction is on the items that are left, with the
counters and the parser at the same point. -/
theorem processItems_ensures {items : List HIDItem} (hs : Agrees c z s)
    (hc : countItems c items = some c') (hz : Reserved c' z) :
    (processItems s items).Ensures (Good c' z) := by
  induction items generalizing c s with
  | nil =>
    injection hc with hc
    exact hc ▸ hs.good
  | cons item items ih =>
    obtain ⟨c₁, h₁, h₂⟩ := bind_eq_some_iff.mp hc
    apply ensures_bind (processItem_ensures hs h₁ (hz.of_countItems h₂))
    intro r hr
    dsimp only
    split_ifs with hok
    · exact ih (hr.2 hok) h₂
    · exact ensures_pure ⟨hr.1, fun h => absurd h hok⟩

theorem agrees_init (flags : Word) : Agrees {} z { Parser.init flags z with
      collections := (Parser.init flags z).collections.set 0 {}
      reports := (Parser.init flags z).reports.set 0 {} } where
  collections := by simp [Parser.init]
  collectionCount := rfl
  reportItems := by simp [Parser.init]
  reportItemCount := rfl
  reports := by simp [Parser.init]
  reportCount := Nat.le_refl 1
  usages := ⟨by simp [Parser.init], rfl, Nat.zero_le _⟩
  strings := ⟨by simp [Parser.init], rfl, Nat.zero_le _⟩
  desigs := ⟨by simp [Parser.init], rfl, Nat.zero_le _⟩
  collectionStack := by simp [Parser.init]
  collectionNesting := rfl
  collectionDepth := Nat.zero_le _
  globalsStack := by simp [Parser.init]
  globalsNesting := rfl
  globalsDepth := Nat.zero_le _
  parent := Nat.zero_lt_one
  parents := nofun
  indices := ⟨Nat.zero_lt_one, nofun, nofun⟩

theorem countItems_append {items₁ items₂ : List HIDItem}
    (h : countItems c (items₁ ++ items₂) = some c') :
    ∃ c₁, countItems c items₁ = some c₁ ∧ countItems c₁ items₂ = some c' := by
  induction items₁ generalizing c with
  | nil => exact ⟨c, rfl, h⟩
  | cons item items ih =>
    obtain ⟨c₁, h₁, h₂⟩ := bind_eq_some_iff.mp h
    obtain ⟨c₂, h₃, h₄⟩ := ih h₂
    exact ⟨c₂, bind_eq_some_iff.mpr ⟨c₁, h₁, h₃⟩, h₄⟩

/-- If the counting pass accepts a sequence of items, then the parsing pass
over it, and over any beginning of it, makes every access inside of the
reserved arrays and stacks, never pops an empty stack, and has at its end
every report index that it has stored below the number of reports. -/
theorem hidParseDescriptor_inBounds (flags : Word) (items : List HIDItem) (z : Sizes)
    (h : hidCountDescriptorItems items = some z) (items' : List HIDItem) (hpre : items' <+: items) :
    (hidParseDescriptor flags z items').Ensures fun r => r.1.ReportIndices := by
  obtain ⟨c, hc, hsizes⟩ := bind_eq_some_iff.mp h
  obtain ⟨rest, rfl⟩ := hpre
  obtain ⟨c', hc', hrest⟩ := countItems_append hc
  have hz : Reserved c' z := (Counters.reserved_sizes hsizes).of_countItems hrest
  have hzero : Reserved {} z := hz.of_countItems hc'
  have hcol : 1 ≤ z.collections := hzero.collections
  have hrep : 1 ≤ z.reports := hzero.reports
  -- the virtual collection and the default report
  apply ensures_store (by simp only [Parser.init, List.length_replicate]; omega)
  apply ensures_store (by simp only [Parser.init, List.length_replicate]; omega)
  apply ensures_bind (processItems_ensures (agrees_init flags) hc' hz)
  rintro ⟨s, status⟩ ⟨hindices, hagrees⟩
  dsimp only at hindices hagrees ⊢
  split_ifs with hstatus
  · exact ensures_pure hindices
  · have hlen := (hagrees (by simpa using hstatus)).collections
    apply ensures_load (by omega)
    intro collection _
    apply ensures_store (by omega)
    exact ensures_pure { hindices with }

def twoReports : List HIDItem :=
  [ ⟨1, .global, 0, 1, 1⟩, ⟨1, .local, 0, 2, 2⟩, ⟨1, .main, 0x0A, 1, 1⟩,
    ⟨1, .global, 8, 1, 1⟩, ⟨0, .global, 0x0A, 0, 0⟩, ⟨1, .local, 2, 3, 3⟩, ⟨1, .local, 1, 1, 1⟩,
    ⟨1, .global, 7, 8, 8⟩, ⟨1, .global, 9, 3, 3⟩, ⟨1, .main, 8, 2, 2⟩,
    ⟨1, .global, 8, 2, 2⟩, ⟨1, .main, 9, 2, 2⟩, ⟨0, .global, 0x0B, 0, 0⟩,
    ⟨0, .main, 0x0C, 0, 0⟩ ]

theorem hidParseDescriptor_inBounds_twoReports :
    hidCountDescriptorItems twoReports = some ⟨2, 2, 3, 2, 0, 0, 1, 1⟩ ∧
      (hidParseDescriptor 1 ⟨2, 2, 3, 2, 0, 0, 1, 1⟩ twoReports).Ensures
        fun r => r.1.ReportIndices :=
  ⟨by decide, hidParseDescriptor_inBounds 1 twoReports _ (by decide) _ (List.prefix_refl _)⟩

end Hexley.Hid
