import Mathlib.Data.List.Basic
import Hexley.Lib.Outcome

/-!
The two passes of the HID report descriptor parser.

A descriptor is a sequence of items that a device sends. The first pass,
`HIDCountDescriptorItems`, only tallies the tags and reserves one block of
memory for all of the arrays that the second pass, `HIDParseDescriptor`,
fills. The second pass trusts these sizes: it has no test of its own before
it writes an entry or pushes or pops one of its two stacks.

Here an array is the list of its reserved cells, so that a write past its
end is a `fault`, and so is a pop of an empty stack. A report of a bad
descriptor is an `OSStatus` beside the state that has been reached. Words of
the machine are bit vectors. Indices and counts of entries are numbers.
-/

namespace Hexley.Hid

open Lib Outcome List

abbrev Word := BitVec 32

/-! ### Items -/

inductive ItemType
  | main | global | «local» | long
  deriving DecidableEq

structure HIDItem where
  byteCount : ℕ
  itemType : ItemType
  tag : ℕ
  signedValue : Word
  unsignedValue : Word
  deriving DecidableEq

inductive MainTag
  | input | output | collection | feature | endCollection
  deriving DecidableEq

/-- The values of `kHIDTagInput` and the other tags of main items. -/
def MainTag.ofTag : ℕ → Option MainTag
  | 8 => some .input
  | 9 => some .output
  | 0x0A => some .collection
  | 0x0B => some .feature
  | 0x0C => some .endCollection
  | _ => none

inductive GlobalTag
  | usagePage | logicalMinimum | logicalMaximum | physicalMinimum | physicalMaximum
  | unitExponent | unit | reportSize | reportID | reportCount | push | pop
  deriving DecidableEq

def GlobalTag.ofTag : ℕ → Option GlobalTag
  | 0 => some .usagePage
  | 1 => some .logicalMinimum
  | 2 => some .logicalMaximum
  | 3 => some .physicalMinimum
  | 4 => some .physicalMaximum
  | 5 => some .unitExponent
  | 6 => some .unit
  | 7 => some .reportSize
  | 8 => some .reportID
  | 9 => some .reportCount
  | 0x0A => some .push
  | 0x0B => some .pop
  | _ => none

inductive LocalTag
  | usage | usageMinimum | usageMaximum
  | designatorIndex | designatorMinimum | designatorMaximum
  | stringIndex | stringMinimum | stringMaximum | setDelimiter
  deriving DecidableEq

def LocalTag.ofTag : ℕ → Option LocalTag
  | 0 => some .usage
  | 1 => some .usageMinimum
  | 2 => some .usageMaximum
  | 3 => some .designatorIndex
  | 4 => some .designatorMinimum
  | 5 => some .designatorMaximum
  | 7 => some .stringIndex
  | 8 => some .stringMinimum
  | 9 => some .stringMaximum
  | 0x0A => some .setDelimiter
  | _ => none

/-! ### The counting pass -/

/-- The counters of `HIDCountDescriptorItems`. -/
structure Counters where
  collectionCount : ℕ := 1
  reportItemCount : ℕ := 0
  usages : ℕ := 0
  usageRanges : ℕ := 0
  strings : ℕ := 0
  stringRanges : ℕ := 0
  desigs : ℕ := 0
  desigRanges : ℕ := 0
  reportCount : ℕ := 1
  globalsNesting : ℕ := 0
  maxGlobalsNesting : ℕ := 0
  collectionNesting : ℕ := 0
  maxCollectionNesting : ℕ := 0
  deriving DecidableEq

def countMainItem (c : Counters) : Option MainTag → Option Counters
  | some .collection =>
    some { c with
      collectionCount := c.collectionCount + 1
      collectionNesting := c.collectionNesting + 1
      maxCollectionNesting := max c.maxCollectionNesting (c.collectionNesting + 1) }
  | some .endCollection =>
    if c.collectionNesting = 0 then none
    else some { c with collectionNesting := c.collectionNesting - 1 }
  | some .input | some .output | some .feature =>
    some { c with reportItemCount := c.reportItemCount + 1 }
  | none => some c

def countGlobalItem (c : Counters) : Option GlobalTag → Option Counters
  | some .reportID => some { c with reportCount := c.reportCount + 1 }
  | some .push =>
    some { c with
      globalsNesting := c.globalsNesting + 1
      maxGlobalsNesting := max c.maxGlobalsNesting (c.globalsNesting + 1) }
  | some .pop =>
    if c.globalsNesting = 0 then none
    else some { c with globalsNesting := c.globalsNesting - 1 }
  | _ => some c

def countLocalItem (c : Counters) : Option LocalTag → Counters
  | some .usage => { c with usages := c.usages + 1 }
  | some .usageMinimum | some .usageMaximum => { c with usageRanges := c.usageRanges + 1 }
  | some .stringIndex => { c with strings := c.strings + 1 }
  | some .stringMinimum | some .stringMaximum => { c with stringRanges := c.stringRanges + 1 }
  | some .designatorIndex => { c with desigs := c.desigs + 1 }
  | some .designatorMinimum | some .designatorMaximum =>
    { c with desigRanges := c.desigRanges + 1 }
  | _ => c

/-- One turn of the loop. It is left with an error, `none`, at the end of a
collection that was never begun and at a pop without a push. -/
def countItem (c : Counters) (item : HIDItem) : Option Counters :=
  match item.itemType with
  | .main => countMainItem c (MainTag.ofTag item.tag)
  | .global => countGlobalItem c (GlobalTag.ofTag item.tag)
  | .local => some (countLocalItem c (LocalTag.ofTag item.tag))
  | .long => some c

def countItems (c : Counters) : List HIDItem → Option Counters
  | [] => some c
  | item :: items => (countItem c item).bind fun c => countItems c items

structure Sizes where
  collections : ℕ
  reportItems : ℕ
  reports : ℕ
  usageItems : ℕ
  stringItems : ℕ
  desigItems : ℕ
  collectionStack : ℕ
  globalsStack : ℕ
  deriving DecidableEq

def Counters.sizes (c : Counters) : Option Sizes :=
  if c.collectionNesting ≠ 0 ∨ c.collectionCount = 1 ∨ c.reportItemCount = 0
      ∨ c.usageRanges % 2 = 1 ∨ c.stringRanges % 2 = 1 ∨ c.desigRanges % 2 = 1 then
    none
  else
    some {
      collections := c.collectionCount
      reportItems := c.reportItemCount
      reports := c.reportCount
      usageItems := c.usages + c.usageRanges / 2
      stringItems := c.strings + c.stringRanges / 2
      desigItems := c.desigs + c.desigRanges / 2
      collectionStack := c.maxCollectionNesting
      globalsStack := c.maxGlobalsNesting }

def hidCountDescriptorItems (items : List HIDItem) : Option Sizes :=
  (countItems {} items).bind Counters.sizes

/-! ### The parsed descriptor -/

structure HIDGlobalItems where
  usagePage : Word := 0
  logicalMinimum : Word := 0
  logicalMaximum : Word := 0
  physicalMinimum : Word := 0
  physicalMaximum : Word := 0
  unitExponent : Word := 0
  units : Word := 0
  reportSize : Word := 0
  reportID : Word := 0
  reportCount : Word := 0
  reportIndex : ℕ := 0
  deriving DecidableEq

structure HIDReportSizes where
  reportID : Word := 0
  inputBitCount : Word := 0
  outputBitCount : Word := 0
  featureBitCount : Word := 0
  deriving DecidableEq

structure HIDCollection where
  data : Word := 0
  usagePage : Word := 0
  firstUsageItem : ℕ := 0
  usageItemCount : ℕ := 0
  firstReportItem : ℕ := 0
  reportItemCount : ℕ := 0
  parent : ℕ := 0
  children : ℕ := 0
  firstChild : ℕ := 0
  nextSibling : ℕ := 0
  deriving DecidableEq

inductive ReportType
  | input | output | feature
  deriving DecidableEq

structure HIDReportItem where
  reportType : ReportType := .input
  globals : HIDGlobalItems := {}
  startBit : Word := 0
  parent : ℕ := 0
  dataModes : Word := 0
  firstUsageItem : ℕ := 0
  usageItemCount : ℕ := 0
  firstStringItem : ℕ := 0
  stringItemCount : ℕ := 0
  firstDesigItem : ℕ := 0
  desigItemCount : ℕ := 0
  reversed : Bool := false
  deriving DecidableEq

structure HIDUsageItem where
  isRange : Bool := false
  usagePage : Word := 0
  usage : Word := 0
  usageMinimum : Word := 0
  usageMaximum : Word := 0
  deriving DecidableEq

structure HIDStringItem where
  isRange : Bool := false
  index : Word := 0
  minimum : Word := 0
  maximum : Word := 0
  deriving DecidableEq

/-- The usage array, with the half of a range that waits for its other half
and the first entry that no main item has claimed. -/
structure Usages where
  items : List HIDUsageItem
  count : ℕ := 0
  first : ℕ := 0
  haveMin : Bool := false
  haveMax : Bool := false
  rangePage : Word := 0
  minimum : Word := 0
  maximum : Word := 0

structure Indices where
  items : List HIDStringItem
  count : ℕ := 0
  first : ℕ := 0
  haveMin : Bool := false
  haveMax : Bool := false
  minimum : Word := 0
  maximum : Word := 0

inductive OSStatus
  | success
  | invalidRangePage
  | invertedUsageRange
  | badLogicalMinimum
  | badLogicalMaximum
  | invertedLogicalRange
  | unmatchedUsageRange
  | unmatchedStringRange
  | unmatchedDesignatorRange
  | invertedPhysicalRange
  deriving DecidableEq

structure Parser where
  flags : Word
  collections : List HIDCollection
  collectionCount : ℕ
  reportItems : List HIDReportItem
  reportItemCount : ℕ
  reports : List HIDReportSizes
  reportCount : ℕ
  usages : Usages
  strings : Indices
  desigs : Indices
  collectionStack : List ℕ
  collectionNesting : ℕ
  globalsStack : List HIDGlobalItems
  globalsNesting : ℕ
  globals : HIDGlobalItems
  parent : ℕ
  sibling : ℕ

/-! ### Local items -/

/-- The page and the usage that an item names: an item of four bytes brings
its own page. -/
def usagePair (globals : HIDGlobalItems) (item : HIDItem) : Word × Word :=
  if item.byteCount = 4 then (item.unsignedValue >>> 16, item.unsignedValue &&& 0xFFFF)
  else (globals.usagePage, item.unsignedValue)

def addUsage (u : Usages) (globals : HIDGlobalItems) (item : HIDItem) : Outcome Usages := do
  let entry ← load u.items u.count
  let (page, usage) := usagePair globals item
  let items ← store u.items u.count { entry with isRange := false, usagePage := page, usage }
  return { u with items, count := u.count + 1 }

/-- The entry of a range whose two halves have been seen. The entry is taken
and gets the half of this item first; then the pages are compared, the
waiting half is filled in, and the order of the halves is looked at. -/
def addUsageRange (u : Usages) (page : Word) (thisHalf waitingHalf : HIDUsageItem → HIDUsageItem) :
    Outcome (Usages × OSStatus) := do
  let entry ← load u.items u.count
  let half := thisHalf { entry with isRange := true, usagePage := page }
  let items ← store u.items u.count half
  if page ≠ u.rangePage then return ({ u with items, count := u.count + 1 }, .invalidRangePage)
  let whole := waitingHalf half
  let items ← store items u.count whole
  if whole.usageMaximum.slt whole.usageMinimum then
    return ({ u with items, count := u.count + 1 }, .invertedUsageRange)
  return ({ u with items, count := u.count + 1, haveMin := false, haveMax := false }, .success)

def usageMinimum (u : Usages) (globals : HIDGlobalItems) (item : HIDItem) :
    Outcome (Usages × OSStatus) :=
  let (page, usage) := usagePair globals item
  if u.haveMax then
    addUsageRange u page (fun entry => { entry with usageMinimum := usage })
      (fun entry => { entry with usageMaximum := u.maximum })
  else return ({ u with rangePage := page, minimum := usage, haveMin := true }, .success)

def usageMaximum (u : Usages) (globals : HIDGlobalItems) (item : HIDItem) :
    Outcome (Usages × OSStatus) :=
  let (page, usage) := usagePair globals item
  if u.haveMin then
    addUsageRange u page (fun entry => { entry with usageMaximum := usage })
      (fun entry => { entry with usageMinimum := u.minimum })
  else return ({ u with rangePage := page, maximum := usage, haveMax := true }, .success)

variable (x : Indices)

/-- `kHIDTagStringIndex` and `kHIDTagDesignatorIndex`. -/
def addIndex (value : Word) : Outcome Indices := do
  let entry ← load x.items x.count
  let items ← store x.items x.count { entry with isRange := false, index := value }
  return { x with items, count := x.count + 1 }

def addIndexRange (minimum maximum : Word) : Outcome Indices := do
  let entry ← load x.items x.count
  let items ← store x.items x.count { entry with isRange := true, minimum, maximum }
  return { x with items, count := x.count + 1, haveMin := false, haveMax := false }

/-- `kHIDTagStringMinimum` and `kHIDTagDesignatorMinimum`. -/
def indexMinimum (value : Word) : Outcome Indices :=
  if x.haveMax then addIndexRange x value x.maximum
  else return { x with minimum := value, haveMin := true }

/-- `kHIDTagStringMaximum` and `kHIDTagDesignatorMaximum`. -/
def indexMaximum (value : Word) : Outcome Indices :=
  if x.haveMin then addIndexRange x x.minimum value
  else return { x with maximum := value, haveMax := true }

variable (s : Parser)

variable (item : HIDItem)

def hidProcessLocalItem : Outcome (Parser × OSStatus) :=
  match LocalTag.ofTag item.tag with
  | some .usage => do
      let usages ← addUsage s.usages s.globals item
      return ({ s with usages }, .success)
  | some .usageMinimum => do
      let (usages, status) ← usageMinimum s.usages s.globals item
      return ({ s with usages }, status)
  | some .usageMaximum => do
      let (usages, status) ← usageMaximum s.usages s.globals item
      return ({ s with usages }, status)
  | some .designatorIndex => do
      let desigs ← addIndex s.desigs item.unsignedValue
      return ({ s with desigs }, .success)
  | some .designatorMinimum => do
      let desigs ← indexMinimum s.desigs item.unsignedValue
      return ({ s with desigs }, .success)
  | some .designatorMaximum => do
      let desigs ← indexMaximum s.desigs item.unsignedValue
      return ({ s with desigs }, .success)
  | some .stringIndex => do
      let strings ← addIndex s.strings item.unsignedValue
      return ({ s with strings }, .success)
  | some .stringMinimum => do
      let strings ← indexMinimum s.strings item.unsignedValue
      return ({ s with strings }, .success)
  | some .stringMaximum => do
      let strings ← indexMaximum s.strings item.unsignedValue
      return ({ s with strings }, .success)
  | some .setDelimiter | none => return (s, .success)

/-! ### Global items -/

/-- The search for a report ID, from the entry `i` on, among the next
`remaining` entries. It ends behind the last one if there is none. -/
def findReport (reports : List HIDReportSizes) (reportID : Word) (i : ℕ) : ℕ → Outcome ℕ
  | 0 => return i
  | remaining + 1 => do
      let report ← load reports i
      if report.reportID ≠ reportID then findReport reports reportID (i + 1) remaining
      else return i

/-- A report ID that is new gets an entry, which starts with the eight bits
of the ID itself. -/
def setReportID (reportID : Word) : Outcome Parser := do
  let reportIndex ← findReport s.reports reportID 0 s.reportCount
  let globals := { s.globals with reportID, reportIndex }
  if reportIndex = s.reportCount then
    let reports ← store s.reports s.reportCount
      { reportID, inputBitCount := 8, outputBitCount := 8, featureBitCount := 8 }
    return { s with reports, reportCount := s.reportCount + 1, globals }
  else
    return { s with globals }

def pushGlobals : Outcome Parser := do
  let globalsStack ← store s.globalsStack s.globalsNesting s.globals
  return { s with globalsStack, globalsNesting := s.globalsNesting + 1 }

def popGlobals : Outcome Parser :=
  match s.globalsNesting with
  | 0 => .fault
  | n + 1 => do
      let globals ← load s.globalsStack n
      return { s with globals, globalsNesting := n }

def hidProcessGlobalItem : Outcome Parser :=
  match GlobalTag.ofTag item.tag with
  | some .usagePage =>
    return { s with globals := { s.globals with usagePage := item.unsignedValue } }
  | some .logicalMinimum =>
    return { s with globals := { s.globals with logicalMinimum := item.signedValue } }
  | some .logicalMaximum =>
    return { s with globals := { s.globals with logicalMaximum := item.signedValue } }
  | some .physicalMinimum =>
    return { s with globals := { s.globals with physicalMinimum := item.signedValue } }
  | some .physicalMaximum =>
    return { s with globals := { s.globals with physicalMaximum := item.signedValue } }
  | some .unitExponent =>
    return { s with globals := { s.globals with unitExponent := item.signedValue } }
  | some .unit => return { s with globals := { s.globals with units := item.unsignedValue } }
  | some .reportSize =>
    return { s with globals := { s.globals with reportSize := item.unsignedValue } }
  | some .reportID => setReportID s item.unsignedValue
  | some .reportCount =>
    return { s with globals := { s.globals with reportCount := item.unsignedValue } }
  | some .push => pushGlobals s
  | some .pop => popGlobals s
  | none => return s

/-! ### Main items -/

def hidProcessCollection : Outcome Parser := do
  let iCollection := s.collectionCount
  let old ← load s.collections iCollection
  let collections ← store s.collections iCollection { old with
      data := item.unsignedValue
      firstUsageItem := s.usages.first
      usageItemCount := s.usages.count - s.usages.first
      children := 0
      nextSibling := s.sibling
      firstChild := 0
      usagePage := s.globals.usagePage
      firstReportItem := s.reportItemCount
      parent := s.parent }
  let parent ← load collections s.parent
  let collections ← store collections s.parent
    { parent with firstChild := iCollection, children := parent.children + 1 }
  let collectionStack ← store s.collectionStack s.collectionNesting s.parent
  return { s with
    collections
    collectionCount := s.collectionCount + 1
    usages := { s.usages with first := s.usages.count }
    sibling := 0
    parent := iCollection
    collectionStack
    collectionNesting := s.collectionNesting + 1 }

def hidProcessEndCollection : Outcome Parser := do
  let collection ← load s.collections s.parent
  let collections ← store s.collections s.parent
    { collection with reportItemCount := s.reportItemCount - collection.firstReportItem }
  match s.collectionNesting with
  | 0 => .fault
  | n + 1 =>
    let iCollection ← load s.collectionStack n
    return { s with
      collections, collectionNesting := n, sibling := s.parent, parent := iCollection }

/-- The largest value of a field of `reportSize` bits, which never reaches
the sign bit. -/
def realMax (reportSize : Word) : Word :=
  (1 <<< (if 32 ≤ reportSize.toNat then 31 else reportSize.toNat)) - 1

/-- The first of several errors is the one that counts. -/
def OSStatus.orElse (error : OSStatus) (c : Bool) (other : OSStatus) : OSStatus :=
  if error = .success ∧ c then other else error

/-- The reality check of a report item: values out of range are replaced,
and the first thing that was wrong is remembered. -/
def realityCheck (r : HIDReportItem) : HIDReportItem × OSStatus :=
  let g := r.globals
  let max := realMax g.reportSize
  let error := OSStatus.success
  let error := error.orElse (max.slt g.logicalMinimum) .badLogicalMinimum
  let g := if max.slt g.logicalMinimum then { g with logicalMinimum := 0 } else g
  let error := error.orElse (max.slt g.logicalMaximum) .badLogicalMaximum
  let g := if max.slt g.logicalMaximum then { g with logicalMaximum := max } else g
  let reversed := g.logicalMaximum.slt g.logicalMinimum
  let error := error.orElse reversed .invertedLogicalRange
  let g := if reversed then
      { g with logicalMaximum := g.logicalMinimum, logicalMinimum := g.logicalMaximum }
    else g
  let error := error.orElse (s.usages.haveMin || s.usages.haveMax) .unmatchedUsageRange
  let error := error.orElse (s.strings.haveMin || s.strings.haveMax) .unmatchedStringRange
  let error := error.orElse (s.desigs.haveMin || s.desigs.haveMax) .unmatchedDesignatorRange
  let error := error.orElse (g.physicalMaximum.slt g.physicalMinimum) .invertedPhysicalRange
  let g := if g.physicalMaximum.sle g.physicalMinimum then
      { g with physicalMinimum := g.logicalMinimum, physicalMaximum := g.logicalMaximum }
    else g
  ({ r with globals := g, reversed }, error)

def HIDReportSizes.bitCount (r : HIDReportSizes) : ReportType → Word
  | .input => r.inputBitCount
  | .output => r.outputBitCount
  | .feature => r.featureBitCount

def HIDReportSizes.addBits (r : HIDReportSizes) (bits : Word) : ReportType → HIDReportSizes
  | .input => { r with inputBitCount := r.inputBitCount + bits }
  | .output => { r with outputBitCount := r.outputBitCount + bits }
  | .feature => { r with featureBitCount := r.featureBitCount + bits }

/-- The part of `HIDProcessReportItem` behind the check for strict errors. -/
def finishReportItem (r : HIDReportItem) (reportType : ReportType) : Outcome Parser := do
  let report ← load s.reports r.globals.reportIndex
  let reportItems ← store s.reportItems s.reportItemCount { r with
      reportType
      startBit := report.bitCount reportType
      parent := s.parent
      firstUsageItem := s.usages.first
      usageItemCount := s.usages.count - s.usages.first
      firstStringItem := s.strings.first
      stringItemCount := s.strings.count - s.strings.first
      firstDesigItem := s.desigs.first
      desigItemCount := s.desigs.count - s.desigs.first }
  let reports ← store s.reports r.globals.reportIndex
    (report.addBits (r.globals.reportSize * r.globals.reportCount) reportType)
  return { s with
    reportItems
    reportItemCount := s.reportItemCount + 1
    reports
    usages := { s.usages with first := s.usages.count }
    strings := { s.strings with first := s.strings.count }
    desigs := { s.desigs with first := s.desigs.count } }

def kHIDFlagStrictErrorChecking : Word := 1

def hidProcessReportItem (reportType : ReportType) : Outcome (Parser × OSStatus) := do
  let old ← load s.reportItems s.reportItemCount
  let (r, error) := realityCheck s
    { old with dataModes := item.unsignedValue, globals := s.globals }
  if error ≠ .success ∧ s.flags &&& kHIDFlagStrictErrorChecking ≠ 0 then
    -- the entry has been taken and is left half filled
    let reportItems ← store s.reportItems s.reportItemCount r
    return ({ s with reportItems, reportItemCount := s.reportItemCount + 1 }, error)
  else
    let s ← finishReportItem s r reportType
    return (s, .success)

def hidProcessMainItem : Outcome (Parser × OSStatus) :=
  match MainTag.ofTag item.tag with
  | some .collection => do
      let s ← hidProcessCollection s item
      return (s, .success)
  | some .endCollection => do
      let s ← hidProcessEndCollection s
      return (s, .success)
  | some .input => hidProcessReportItem s item .input
  | some .output => hidProcessReportItem s item .output
  | some .feature => hidProcessReportItem s item .feature
  | none => return (s, .success)

/-! ### The parsing pass -/

def processItem : Outcome (Parser × OSStatus) :=
  match item.itemType with
  | .main => hidProcessMainItem s item
  | .global => do
      let s ← hidProcessGlobalItem s item
      return (s, .success)
  | .local => hidProcessLocalItem s item
  | .long => return (s, .success)

/-- The loop of `HIDParseDescriptor`, which ends at the first error. -/
def processItems (s : Parser) : List HIDItem → Outcome (Parser × OSStatus)
  | [] => return (s, .success)
  | item :: items => do
      let (s, status) ← processItem s item
      if status = .success then processItems s items else return (s, status)

def Parser.init (flags : Word) (z : Sizes) : Parser where
  flags
  collections := replicate z.collections {}
  collectionCount := 1
  reportItems := replicate z.reportItems {}
  reportItemCount := 0
  reports := replicate z.reports {}
  reportCount := 1
  usages := { items := replicate z.usageItems {} }
  strings := { items := replicate z.stringItems {} }
  desigs := { items := replicate z.desigItems {} }
  collectionStack := replicate z.collectionStack 0
  collectionNesting := 0
  globalsStack := replicate z.globalsStack {}
  globalsNesting := 0
  globals := {}
  parent := 0
  sibling := 0

/-- The entry of the virtual collection and of the default report are
written first; at the end the virtual collection learns how many report
items there are. -/
def hidParseDescriptor (flags : Word) (z : Sizes) (items : List HIDItem) :
    Outcome (Parser × OSStatus) := do
  let s := Parser.init flags z
  let collections ← store s.collections 0 {}
  let reports ← store s.reports 0 {}
  let (s, status) ← processItems { s with collections, reports } items
  if status ≠ .success then return (s, status)
  let collection ← load s.collections 0
  let collections ← store s.collections 0 { collection with reportItemCount := s.reportItemCount }
  return ({ s with collections }, status)

end Hexley.Hid
