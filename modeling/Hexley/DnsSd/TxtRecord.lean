import Hexley.Lib.Bytes
import Hexley.Lib.Machine
import Mathlib.Data.List.Basic
import Mathlib.Logic.Function.Basic

/-!
The TXT records of `dnssd_clientlib.c`.

A record is a buffer with length-prefixed items, `key` or `key=value`. What
it is for is a map from keys, in which case does not matter, to values, or
to nothing for a key without a value. That map is `TxtMap`, and the ghost
that connects it with the bytes is the list of items.

Two things keep the record from being that map. `TXTRecordSetValue` removes
the old item before it knows that there is room for the new one, so a call
that fails can lose the value. And only `TXTRecordSetValue` checks its key:
a search for a key that has an equals sign in it can find the item of a
shorter key, whose value starts like the rest.
-/

namespace Hexley.DnsSd

open Lib List Mem Function UInt8 Option

def equalsSign : UInt8 := 0x3D

def toLower (b : UInt8) : UInt8 := if 0x41 ≤ b.toNat ∧ b.toNat ≤ 0x5A then b + 0x20 else b

/-- Two keys are one key if they differ in case only. -/
def foldKey (key : List UInt8) : List UInt8 := key.map toLower

/-- `TXTRecordRefRealType`. Whether the buffer came from `malloc` matters
only for its release. -/
structure TxtRecord where
  buffer : Mem
  buflen : ℕ
  datalen : ℕ

/-- The loop of `InternalTXTRecordSearch`. The key is a C string, so that
`strncasecmp` on as many bytes as it has compares all of them. -/
def searchFrom (buffer : Mem) (e : ℕ) (key : List UInt8) : ℕ → ℕ → Option ℕ
  | 0, _ => none
  | fuel + 1, x =>
    if x < e then
      let p := x + (1 + (buffer x).toNat)
      if p ≤ e ∧ key.length ≤ (buffer x).toNat ∧
          foldKey key = foldKey (buffer.read (x + 1) key.length) ∧
          (key.length = (buffer x).toNat ∨ buffer (x + 1 + key.length) = equalsSign) then some x
      else searchFrom buffer e key fuel p
    else none

/-- `InternalTXTRecordSearch`. Every pass moves the cursor. -/
def internalTXTRecordSearch (txtLen : ℕ) (txtRecord : Mem) (key : List UInt8) : Option ℕ :=
  searchFrom txtRecord txtLen key txtLen 0

def txtRecordCreate (bufferLen : UInt16) (buffer : Option Mem) : TxtRecord where
  buffer := buffer.getD (ofList [])
  buflen := if buffer.isSome then bufferLen.toNat else 0
  datalen := 0

def txtRecordRemoveValue (t : TxtRecord) (key : List UInt8) : Bool × TxtRecord :=
  match internalTXTRecordSearch t.datalen t.buffer key with
  | none => (false, t)
  | some item =>
    let itemlen := 1 + (t.buffer item).toNat
    let remainder := t.datalen - (item + itemlen)
    (true, { t with
        buffer := t.buffer.write item (t.buffer.read (item + itemlen) remainder)
        datalen := t.datalen - itemlen })

inductive ErrorType
  | noError
  | noMemory
  | invalid
  deriving DecidableEq

def keyCharacter (k : UInt8) : Bool := ¬(k.toNat < 0x20 ∨ k.toNat > 0x7E ∨ k = equalsSign)

def itemBytes (key : List UInt8) (value : Option (List UInt8)) : List UInt8 :=
  let body := key ++ match value with
    | none => []
    | some v => equalsSign :: v
  ofNat body.length :: body

/-- The length of an item with its length byte, `keyvalsize`. -/
def keyvalsize (key : List UInt8) (value : Option (List UInt8)) : ℕ :=
  1 + key.length + match value with
    | none => 0
    | some v => 1 + v.length

/-- `TXTRecordSetValue`. The last argument is what `malloc` returns if it is
called: a block with any contents, or nothing. -/
def txtRecordSetValue (t : TxtRecord) (key : List UInt8) (value : Option (List UInt8))
    (malloc : Option Mem) : ErrorType × TxtRecord :=
  if ¬key.all keyCharacter then (.invalid, t)
  else if key.length < 1 ∨ keyvalsize key value > 255 then (.invalid, t)
  else
    let t := (txtRecordRemoveValue t key).2
    let newlen := t.datalen + keyvalsize key value
    let append (t : TxtRecord) : TxtRecord :=
      { t with buffer := t.buffer.write t.datalen (itemBytes key value), datalen := newlen }
    if newlen > t.buflen then
      if newlen > 0xFFFF then (.invalid, t)
      else
        match malloc with
        | none => (.noMemory, t)
        | some block =>
          (.noError, append ⟨block.write 0 (t.buffer.read 0 t.datalen), newlen, t.datalen⟩)
    else (.noError, append t)

def txtRecordContainsKey (t : TxtRecord) (key : List UInt8) : Bool :=
  (internalTXTRecordSearch t.datalen t.buffer key).isSome

/-- `TXTRecordGetValuePtr`: the pointer it returns, and the length at
`valueLen`. -/
def valuePtr (t : TxtRecord) (key : List UInt8) : Option (ℕ × ℕ) := do
  let item ← internalTXTRecordSearch t.datalen t.buffer key
  if (t.buffer item).toNat ≤ key.length then none
  else some (item + 1 + key.length + 1, (t.buffer item).toNat - (key.length + 1))

/-- The bytes at the pointer that `TXTRecordGetValuePtr` returns. -/
def txtRecordGetValuePtr (t : TxtRecord) (key : List UInt8) : Option (List UInt8) :=
  (valuePtr t key).map fun v => t.buffer.read v.1 v.2

/-! ### The map -/

/-- What a record stands for: for every key, in lower case, nothing if it is
absent, and otherwise its value if it has one. -/
abbrev TxtMap := List UInt8 → Option (Option (List UInt8))

/-- An operation on a record. The keys are C strings. -/
inductive Op
  | set (key : List UInt8) (value : Option (List UInt8)) (malloc : Option Mem)
  | remove (key : List UInt8)

def Op.run (t : TxtRecord) : Op → TxtRecord
  | .set key value malloc => (txtRecordSetValue t key value malloc).2
  | .remove key => (txtRecordRemoveValue t key).2

/-- What an operation ought to do to the map: a successful set stores the
value, a removal makes the key absent, and a failure changes nothing. -/
def Op.apply (t : TxtRecord) (m : TxtMap) : Op → TxtMap
  | .set key value malloc =>
    if (txtRecordSetValue t key value malloc).1 = .noError then
      update m (foldKey key) (some value)
    else m
  | .remove key => update m (foldKey key) none

abbrev Tracked := TxtRecord × TxtMap

def Op.step (s : Tracked) (op : Op) : Tracked := (op.run s.1, op.apply s.1 s.2)

/-- An item: a key that `TXTRecordSetValue` accepts, and its value. -/
structure Item where
  key : List UInt8
  value : Option (List UInt8)
  legal : key.all keyCharacter = true
  nonempty : 1 ≤ key.length
  short : keyvalsize key value ≤ 255

def Item.bytes (i : Item) : List UInt8 := itemBytes i.key i.value

def valueOf (items : List Item) : TxtMap := fun k =>
  (items.find? fun i => foldKey i.key = k).map Item.value

/-- The data of the record are these items, no two of which have the same
key. -/
structure Consists (t : TxtRecord) (items : List Item) : Prop where
  holds : t.buffer.Holds 0 (items.flatMap Item.bytes)
  datalen_eq : t.datalen = (items.flatMap Item.bytes).length
  distinct : items.Pairwise fun i j => foldKey i.key ≠ foldKey j.key

/-- A record is the map `m`: it consists of items with distinct keys, it
does not exceed its buffer, and for every key without an equals sign the
two functions that read it answer as the map does. -/
structure IsMap (t : TxtRecord) (m : TxtMap) : Prop where
  wellFormed : ∃ items, Consists t items
  datalen_le : t.datalen ≤ t.buflen
  contains : ∀ key, equalsSign ∉ key → txtRecordContainsKey t key = (m (foldKey key)).isSome
  value : ∀ key, equalsSign ∉ key → txtRecordGetValuePtr t key = (m (foldKey key)).join

/-! ### Keys and items -/

theorem toLower_eq_equalsSign {b : UInt8} (hb : toLower b = equalsSign) : b = equalsSign := by
  have hall : ∀ n : Fin 256, toLower (ofNat n.val) = equalsSign →
      ofNat n.val = equalsSign := by decide +kernel
  have := hall ⟨b.toNat, b.toNat_lt⟩
  simp only [UInt8.ofNat_toNat] at this
  exact this hb

@[simp] theorem length_foldKey (key : List UInt8) : (foldKey key).length = key.length :=
  length_map _

namespace Item

variable (i : Item)

def body : List UInt8 := i.key ++ match i.value with
  | none => []
  | some v => equalsSign :: v

theorem bytes_eq : i.bytes = ofNat i.body.length :: i.body := rfl

theorem length_body : i.body.length + 1 = keyvalsize i.key i.value := by
  unfold body keyvalsize
  cases i.value <;> simp <;> omega

theorem length_bytes : i.bytes.length = keyvalsize i.key i.value := by
  rw [bytes_eq, length_cons, length_body]

theorem bytes_pos : 1 ≤ i.bytes.length := by
  rw [bytes_eq, length_cons]
  omega

theorem length_body_lt : i.body.length < 256 := by
  have hlen := i.length_body
  have hshort := i.short
  omega

theorem equalsSign_notMem : equalsSign ∉ i.key := by
  intro hmem
  have hlegal := all_eq_true.mp i.legal _ hmem
  exact absurd hlegal (by decide)

end Item

theorem matches_iff {k rest key : List UInt8} (hk : equalsSign ∉ k)
    (hrest : ∀ b ∈ rest.head?, b = equalsSign) (hkey : equalsSign ∉ key) :
    (key.length ≤ (k ++ rest).length ∧ foldKey key = foldKey ((k ++ rest).take key.length) ∧
      (key.length = (k ++ rest).length ∨ (k ++ rest)[key.length]? = some equalsSign)) ↔
      foldKey k = foldKey key := by
  constructor
  · rintro ⟨hle, hfold, hend⟩
    rw [length_append] at hle hend
    rcases lt_trichotomy key.length k.length with hlt | heq | hgt
    · -- The key of the item goes on, and there is no equals sign in it.
      rw [getElem?_append_left hlt] at hend
      exact absurd (mem_of_getElem? (hend.resolve_left (by omega))) hk
    · rw [hfold, take_left' heq.symm]
    · -- The search key has an equals sign where the item has it.
      cases rest with
      | nil => simp at hle; omega
      | cons b rest =>
        have hget := congrArg (·[k.length]?) hfold
        simp only [foldKey, getElem?_map, getElem?_take_of_lt hgt, hrest b rfl,
          getElem?_append_right (le_refl _), Nat.sub_self, getElem?_cons_zero,
          getElem?_eq_getElem hgt, map_some, some.injEq] at hget
        exact absurd (toLower_eq_equalsSign hget ▸ getElem_mem hgt) hkey
  · intro hfold
    have hlen : k.length = key.length := by
      have := congrArg length hfold
      simpa using this
    rw [take_left' hlen, length_append, ← hlen, getElem?_append_right (le_refl _), Nat.sub_self]
    refine ⟨by omega, hfold.symm, ?_⟩
    cases rest with
    | nil => exact .inl rfl
    | cons b rest => exact .inr (congrArg some (hrest b rfl))

/-! ### The search -/

variable {key : List UInt8} {t : TxtRecord} {items : List Item}

section Search

variable {buffer : Mem} {x e fuel : ℕ} {i : Item}

theorem searchFrom_item {k rest : List UInt8} (hk : equalsSign ∉ k)
    (hrest : ∀ b ∈ rest.head?, b = equalsSign) (hbody : buffer.Holds (x + 1) (k ++ rest))
    (hlen : (buffer x).toNat = (k ++ rest).length) (he : x + (1 + (buffer x).toNat) ≤ e)
    (hkey : equalsSign ∉ key) : searchFrom buffer e key (fuel + 1) x =
      if foldKey k = foldKey key then some x
      else searchFrom buffer e key fuel (x + (1 + (buffer x).toNat)) := by
  have hiff := matches_iff hk hrest hkey
  rw [← hlen] at hiff
  rw [searchFrom, if_pos (by omega)]
  refine if_congr ?_ rfl rfl
  rw [← hiff, and_iff_right he]
  refine and_congr_right fun hle => ?_
  rw [hbody.read_take (by omega)]
  refine and_congr_right fun _ => or_congr_right' fun hne => ?_
  rw [hbody.getElem? (by omega), some.injEq]

theorem searchFrom_cons (hi : buffer.Holds x i.bytes) (he : x + i.bytes.length ≤ e)
    (hkey : equalsSign ∉ key) : searchFrom buffer e key (fuel + 1) x =
      if foldKey i.key = foldKey key then some x
      else searchFrom buffer e key fuel (x + i.bytes.length) := by
  obtain ⟨hlen, hbody⟩ := holds_cons.mp hi
  have hnat : (buffer x).toNat = i.body.length := by
    rw [hlen]
    exact toNat_ofNat_of_lt' i.length_body_lt
  have hbytes : i.bytes.length = 1 + (buffer x).toNat := by
    rw [i.bytes_eq, length_cons, add_comm, hnat]
  rw [hbytes] at he ⊢
  refine searchFrom_item i.equalsSign_notMem ?_ hbody hnat he hkey
  cases i.value <;> simp

theorem searchFrom_append {as bs : List Item} (hitems : items = as ++ i :: bs)
    (hm : buffer.Holds x (items.flatMap Item.bytes))
    (he : e = x + (items.flatMap Item.bytes).length) (hkey : equalsSign ∉ key)
    (hbefore : ∀ j ∈ as, foldKey j.key ≠ foldKey key) (hi : foldKey i.key = foldKey key)
    (hfuel : (items.flatMap Item.bytes).length ≤ fuel) :
    searchFrom buffer e key fuel x = some (x + (as.flatMap Item.bytes).length) := by
  subst hitems
  induction as generalizing x fuel with
  | nil =>
    rw [nil_append, flatMap_cons] at hm he hfuel
    rw [length_append] at he hfuel
    have hpos := i.bytes_pos
    rcases fuel with _ | fuel
    · omega
    rw [searchFrom_cons (holds_append.mp hm).1 (by omega) hkey, if_pos hi]
    rfl
  | cons j as ih =>
    rw [cons_append, flatMap_cons] at hm he hfuel
    rw [length_append] at he hfuel
    have hpos := j.bytes_pos
    rcases fuel with _ | fuel
    · omega
    obtain ⟨hj, hrest⟩ := holds_append.mp hm
    rw [searchFrom_cons hj (by omega) hkey, if_neg (hbefore j (.head _)),
      ih (fun j' hj' => hbefore j' (.tail _ hj')) hrest (by omega) (by omega), flatMap_cons,
      length_append, add_assoc]

theorem searchFrom_none (hm : buffer.Holds x (items.flatMap Item.bytes))
    (he : e = x + (items.flatMap Item.bytes).length) (hkey : equalsSign ∉ key)
    (hno : ∀ j ∈ items, foldKey j.key ≠ foldKey key) : searchFrom buffer e key fuel x = none := by
  induction items generalizing x fuel with
  | nil =>
    cases fuel with
    | zero => rfl
    | succ fuel =>
      rw [searchFrom, if_neg]
      simp only [flatMap_nil, length_nil, add_zero] at he
      omega
  | cons j items ih =>
    cases fuel with
    | zero => rfl
    | succ fuel =>
      rw [flatMap_cons, length_append] at he
      rw [flatMap_cons, holds_append] at hm
      rw [searchFrom_cons hm.1 (by omega) hkey, if_neg (hno j (.head _))]
      exact ih hm.2 (by omega) fun j' hj' => hno j' (.tail _ hj')

end Search

/-! ### Lookup -/

theorem Consists.search (ht : Consists t items) (hkey : equalsSign ∉ key) :
    (internalTXTRecordSearch t.datalen t.buffer key = none ∧
      ∀ j ∈ items, foldKey j.key ≠ foldKey key) ∨
    ∃ as i bs, items = as ++ i :: bs ∧ foldKey i.key = foldKey key ∧
      (∀ j ∈ as ++ bs, foldKey j.key ≠ foldKey key) ∧
      internalTXTRecordSearch t.datalen t.buffer key = some (as.flatMap Item.bytes).length := by
  cases hfind : items.find? fun i => foldKey i.key = foldKey key with
  | none =>
    have hno : ∀ j ∈ items, foldKey j.key ≠ foldKey key := by
      simpa using find?_eq_none.mp hfind
    exact .inl ⟨searchFrom_none ht.holds (by rw [ht.datalen_eq, zero_add]) hkey hno, hno⟩
  | some i =>
    obtain ⟨hi, as, bs, hitems, hbefore⟩ := find?_eq_some_iff_append.mp hfind
    have hi' : foldKey i.key = foldKey key := of_decide_eq_true hi
    have hbefore' : ∀ j ∈ as, foldKey j.key ≠ foldKey key := by simpa using hbefore
    have hdistinct := ht.distinct
    rw [hitems, pairwise_append] at hdistinct
    have hafter : ∀ j ∈ bs, foldKey j.key ≠ foldKey key := by
      intro j hj heq
      exact rel_of_pairwise_cons hdistinct.2.1 hj (hi'.trans heq.symm)
    refine .inr ⟨as, i, bs, hitems, hi', fun j hj => ?_, ?_⟩
    · exact (mem_append.mp hj).elim (hbefore' j) (hafter j)
    · rw [internalTXTRecordSearch, searchFrom_append hitems ht.holds
        (by rw [ht.datalen_eq, zero_add]) hkey hbefore' hi' ht.datalen_eq.ge, zero_add]

theorem valueOf_eq_none (hno : ∀ j ∈ items, foldKey j.key ≠ foldKey key) :
    valueOf items (foldKey key) = none := by
  rw [valueOf, find?_eq_none.mpr (by simpa using hno), map_none]

theorem valueOf_append {as bs : List Item} {i : Item} (hi : foldKey i.key = foldKey key)
    (hno : ∀ j ∈ as, foldKey j.key ≠ foldKey key) :
    valueOf (as ++ i :: bs) (foldKey key) = some i.value := by
  rw [valueOf, find?_append, find?_eq_none.mpr (by simpa using hno),
    find?_cons_of_pos (by simpa using hi)]
  rfl

theorem read_item {i : Item} {x : ℕ} {buffer : Mem} (hi : buffer.Holds x i.bytes)
    (hlen : i.key.length = key.length) :
    (if (buffer x).toNat ≤ key.length then none
      else some (x + 1 + key.length + 1, (buffer x).toNat - (key.length + 1))).map
        (fun v => buffer.read v.1 v.2) = i.value := by
  obtain ⟨hx, hbody⟩ := holds_cons.mp hi
  have hnat : (buffer x).toNat = i.body.length := by
    rw [hx]
    exact toNat_ofNat_of_lt' i.length_body_lt
  have hsize := i.length_body
  unfold keyvalsize at hsize
  cases hv : i.value with
  | none =>
    rw [hv] at hsize
    rw [if_pos (by simp only at hsize; omega), map_none]
  | some v =>
    rw [hv] at hsize
    simp only at hsize
    have hbody' : buffer.Holds (x + 1) (i.key ++ equalsSign :: v) := by
      have : buffer.Holds (x + 1) i.body := hbody
      rwa [Item.body, hv] at this
    obtain ⟨-, hrest⟩ := holds_append.mp hbody'
    obtain ⟨-, hval⟩ := holds_cons.mp hrest
    rw [if_neg (by omega), map_some, ← hlen, hval.read_eq (by omega)]

theorem Consists.lookup (ht : Consists t items) (hkey : equalsSign ∉ key) :
    txtRecordContainsKey t key = (valueOf items (foldKey key)).isSome ∧
      txtRecordGetValuePtr t key = (valueOf items (foldKey key)).join := by
  unfold txtRecordContainsKey txtRecordGetValuePtr valuePtr
  rcases ht.search hkey with ⟨hnone, hno⟩ | ⟨as, i, bs, hitems, hi, hother, hsome⟩
  · rw [hnone, valueOf_eq_none hno]
    exact ⟨rfl, rfl⟩
  · have hlen : i.key.length = key.length := by
      have := congrArg length hi
      simpa using this
    have hholds := ht.holds
    rw [hitems, flatMap_append, flatMap_cons, holds_append, holds_append] at hholds
    have hread := read_item hholds.2.1 hlen
    rw [zero_add] at hread
    rw [hsome, hitems, valueOf_append hi fun j hj => hother j (mem_append_left _ hj)]
    exact ⟨rfl, hread⟩

/-! ### Removing and appending -/

theorem valueOf_remove {as bs : List Item} {i : Item} (hi : foldKey i.key = foldKey key)
    (hother : ∀ j ∈ as ++ bs, foldKey j.key ≠ foldKey key) :
    valueOf (as ++ bs) = update (valueOf (as ++ i :: bs)) (foldKey key) none := by
  funext k
  rcases eq_or_ne k (foldKey key) with rfl | hk
  · rw [update_self, valueOf_eq_none hother]
  · rw [update_of_ne hk, valueOf, valueOf, find?_append, find?_append,
      find?_cons_of_neg (by simpa [hi] using hk.symm)]

theorem valueOf_concat {i : Item} (hother : ∀ j ∈ items, foldKey j.key ≠ foldKey i.key) :
    valueOf (items ++ [i]) = update (valueOf items) (foldKey i.key) (some i.value) := by
  funext k
  rcases eq_or_ne k (foldKey i.key) with rfl | hk
  · rw [update_self, valueOf_append rfl hother]
  · rw [update_of_ne hk, valueOf, valueOf, find?_append,
      find?_cons_of_neg (by simpa using hk.symm), find?_nil, or_none]

theorem Consists.remove (ht : Consists t items) (hkey : equalsSign ∉ key) :
    ∃ items', Consists (txtRecordRemoveValue t key).2 items' ∧
      (txtRecordRemoveValue t key).2.buflen = t.buflen ∧
      (txtRecordRemoveValue t key).2.datalen ≤ t.datalen ∧
      (∀ j ∈ items', foldKey j.key ≠ foldKey key) ∧
      valueOf items' = update (valueOf items) (foldKey key) none := by
  unfold txtRecordRemoveValue
  rcases ht.search hkey with ⟨hnone, hno⟩ | ⟨as, i, bs, hitems, hi, hother, hsome⟩
  · rw [hnone]
    refine ⟨items, ht, rfl, le_rfl, hno, ?_⟩
    rw [← valueOf_eq_none hno, update_eq_self]
  · have hholds := ht.holds
    have hlen := ht.datalen_eq
    have hdistinct := ht.distinct
    rw [hitems, flatMap_append, flatMap_cons] at hholds hlen
    rw [length_append, length_append] at hlen
    rw [holds_append, holds_append, zero_add] at hholds
    obtain ⟨has, hitem, hbs⟩ := hholds
    have hbyte : 1 + (t.buffer (as.flatMap Item.bytes).length).toNat = i.bytes.length := by
      rw [(holds_cons.mp hitem).1, i.bytes_eq, length_cons, add_comm]
      exact congrArg (· + 1) (toNat_ofNat_of_lt' i.length_body_lt)
    have hrest : t.datalen - ((as.flatMap Item.bytes).length + i.bytes.length) =
        (bs.flatMap Item.bytes).length := by omega
    rw [hsome]
    simp only [hbyte, hrest, hbs.read_eq rfl]
    refine ⟨as ++ bs, ⟨?_, ?_, ?_⟩, trivial, by omega, hother, ?_⟩
    · rw [flatMap_append, holds_append, zero_add]
      exact ⟨has.write (.inl (by simp)), holds_write _ _ _⟩
    · simp only [flatMap_append, length_append]
      omega
    · rw [hitems] at hdistinct
      exact hdistinct.sublist (List.Sublist.append_left (sublist_cons_self _ _) _)
    · rw [hitems, valueOf_remove hi hother]

theorem Consists.concat (ht : Consists t items) (i : Item)
    (hother : ∀ j ∈ items, foldKey j.key ≠ foldKey i.key) (buflen : ℕ) :
    Consists ⟨t.buffer.write t.datalen i.bytes, buflen, t.datalen + keyvalsize i.key i.value⟩
      (items ++ [i]) where
  holds := by
    rw [flatMap_append, holds_append, zero_add, flatMap_singleton, ← ht.datalen_eq]
    exact ⟨ht.holds.write (.inl (by rw [ht.datalen_eq, zero_add])), holds_write _ _ _⟩
  datalen_eq := by
    rw [flatMap_append, length_append, flatMap_singleton, ← ht.datalen_eq, i.length_bytes]
  distinct := by
    rw [pairwise_append]
    refine ⟨ht.distinct, pairwise_singleton _ _, fun j hj i' hi' => ?_⟩
    rw [mem_singleton.mp hi']
    exact hother j hj

theorem Consists.move (ht : Consists t items) (block : Mem) (buflen : ℕ) :
    Consists ⟨block.write 0 (t.buffer.read 0 t.datalen), buflen, t.datalen⟩ items where
  holds := by
    rw [ht.holds.read_eq ht.datalen_eq.symm]
    exact holds_write block 0 _
  datalen_eq := ht.datalen_eq
  distinct := ht.distinct

/-! ### Runs -/

/-- An operation under which the record stays the map: a key that is to be
removed has no equals sign, and a key that is to be set anew has room in the
place of its item. -/
def Op.Safe (t : TxtRecord) : Op → Prop
  | .set key value malloc =>
    key.all keyCharacter = true → 1 ≤ key.length → keyvalsize key value ≤ 255 →
      ∀ item, internalTXTRecordSearch t.datalen t.buffer key = some item →
        let newlen := t.datalen - (1 + (t.buffer item).toNat) + keyvalsize key value
        newlen ≤ t.buflen ∨ newlen ≤ 0xFFFF ∧ malloc.isSome = true
  | .remove key => equalsSign ∉ key

def SafeStep (s s' : Tracked) : Prop := ∃ op : Op, op.Safe s.1 ∧ s' = op.step s

/-- The record consists of items that stand for the map, and they fit into
the buffer. -/
def Represented (s : Tracked) : Prop :=
  ∃ items, Consists s.1 items ∧ s.1.datalen ≤ s.1.buflen ∧ valueOf items = s.2

variable {s : Tracked} {value : Option (List UInt8)}

theorem Represented.isMap (hs : Represented s) : IsMap s.1 s.2 := by
  obtain ⟨items, hitems, hle, hval⟩ := hs
  rw [← hval]
  exact ⟨⟨items, hitems⟩, hle, fun key hkey => (hitems.lookup hkey).1,
    fun key hkey => (hitems.lookup hkey).2⟩

theorem represented_remove (hs : Represented s) (hkey : equalsSign ∉ key) :
    Represented (Op.step s (.remove key)) := by
  obtain ⟨items, hitems, hle, hval⟩ := hs
  obtain ⟨items', hitems', hbuf, hdata, -, hval'⟩ := hitems.remove hkey
  refine ⟨items', hitems', ?_, ?_⟩
  · simp only [Op.step, Op.run, hbuf]
    omega
  · rw [hval', hval]
    rfl

/-- A set with a key that is accepted: the key is removed, and if there is
room the new item is put behind the others, in the buffer or a new one. -/
theorem txtRecordSetValue_room (malloc : Option Mem) (hlegal : key.all keyCharacter = true)
    (hsize : ¬(key.length < 1 ∨ keyvalsize key value > 255)) {removed : TxtRecord} {newlen : ℕ}
    (hremoved : (txtRecordRemoveValue t key).2 = removed)
    (hnew : removed.datalen + keyvalsize key value = newlen) :
    if newlen ≤ removed.buflen ∨ newlen ≤ 0xFFFF ∧ malloc.isSome = true then
      ∃ t', (t' = removed ∨ ∃ block : Mem,
          t' = ⟨block.write 0 (removed.buffer.read 0 removed.datalen), newlen, removed.datalen⟩) ∧
        newlen ≤ t'.buflen ∧ txtRecordSetValue t key value malloc =
          (.noError, ⟨t'.buffer.write t'.datalen (itemBytes key value), t'.buflen, newlen⟩)
    else (txtRecordSetValue t key value malloc).1 ≠ .noError ∧
      (txtRecordSetValue t key value malloc).2 = removed := by
  rw [txtRecordSetValue, if_neg (not_not.mpr hlegal), if_neg hsize]
  simp only [hremoved, hnew]
  by_cases hroom : newlen > removed.buflen
  swap
  · rw [if_neg hroom, if_pos (.inl (by omega))]
    exact ⟨removed, .inl rfl, by omega, rfl⟩
  rw [if_pos hroom]
  by_cases hbig : newlen > 0xFFFF
  · rw [if_pos hbig, if_neg (by omega)]
    exact ⟨ErrorType.noConfusion, rfl⟩
  rw [if_neg hbig]
  cases malloc with
  | none =>
    rw [if_neg (by rintro (h | h); exacts [hroom.not_ge h, absurd h.2 (by decide)])]
    exact ⟨ErrorType.noConfusion, rfl⟩
  | some block =>
    rw [if_pos (.inr ⟨by omega, rfl⟩)]
    exact ⟨_, .inr ⟨block, rfl⟩, le_rfl, rfl⟩

/-- A set that succeeds stores the value. -/
theorem Consists.set (ht : Consists t items) (malloc : Option Mem)
    (hlegal : key.all keyCharacter = true)
    (hsize : ¬(key.length < 1 ∨ keyvalsize key value > 255)) {newlen : ℕ}
    (hnew : (txtRecordRemoveValue t key).2.datalen + keyvalsize key value = newlen)
    (hroom : newlen ≤ (txtRecordRemoveValue t key).2.buflen ∨
      newlen ≤ 0xFFFF ∧ malloc.isSome = true) :
    ∃ items', Consists (txtRecordSetValue t key value malloc).2 items' ∧
      (txtRecordSetValue t key value malloc).1 = .noError ∧
      (txtRecordSetValue t key value malloc).2.datalen ≤
        (txtRecordSetValue t key value malloc).2.buflen ∧
      valueOf items' = update (valueOf items) (foldKey key) (some value) := by
  have hkey : equalsSign ∉ key := fun hmem => absurd (all_eq_true.mp hlegal _ hmem) (by decide)
  obtain ⟨items', hitems', -, -, hother, hval⟩ := ht.remove hkey
  let i : Item := ⟨key, value, hlegal, by omega, by omega⟩
  have hstored : valueOf (items' ++ [i]) = update (valueOf items) (foldKey key) (some value) := by
    rw [valueOf_concat (i := i) hother, hval, update_idem]
  have hset := txtRecordSetValue_room malloc hlegal hsize rfl hnew
  rw [if_pos hroom] at hset
  obtain ⟨t', rfl | ⟨block, rfl⟩, hle, heq⟩ := hset <;> rw [heq, ← hnew] <;>
    refine ⟨items' ++ [i], ?_, rfl, hnew ▸ hle, hstored⟩
  · exact hitems'.concat i hother _
  · exact (hitems'.move block 0).concat i hother _

theorem represented_set (hs : Represented s) {malloc : Option Mem}
    (hsafe : (Op.set key value malloc).Safe s.1) :
    Represented (Op.step s (.set key value malloc)) := by
  obtain ⟨items, hitems, hle, hval⟩ := hs
  have hsame (herr : txtRecordSetValue s.1 key value malloc = (.invalid, s.1)) :
      Represented (Op.step s (.set key value malloc)) := by
    simp only [Op.step, Op.run, Op.apply, herr]
    exact ⟨items, hitems, hle, hval⟩
  by_cases hlegal : key.all keyCharacter = true
  swap
  · exact hsame (if_pos hlegal)
  by_cases hsize : key.length < 1 ∨ keyvalsize key value > 255
  · refine hsame ?_
    rw [txtRecordSetValue, if_neg (not_not.mpr hlegal), if_pos hsize]
  have hset := txtRecordSetValue_room malloc hlegal hsize (t := s.1) rfl rfl
  split_ifs at hset with hroom
  · obtain ⟨items', hitems', hok, hle', hval'⟩ := hitems.set malloc hlegal hsize rfl hroom
    refine ⟨items', hitems', hle', ?_⟩
    rw [hval', hval]
    exact (if_pos hok).symm
  · -- The set has failed, so the key was not there and nothing was removed.
    have hkeep : (txtRecordRemoveValue s.1 key).2 = s.1 := by
      cases hsearch : internalTXTRecordSearch s.1.datalen s.1.buffer key with
      | none => rw [txtRecordRemoveValue, hsearch]
      | some item =>
        rw [txtRecordRemoveValue, hsearch] at hroom
        exact absurd (hsafe hlegal (by omega) (by omega) item hsearch) hroom
    refine ⟨items, ?_, ?_, ?_⟩ <;>
      simp only [Op.step, Op.run, Op.apply, hset.2, hkeep, if_neg hset.1]
    exacts [hitems, hle, hval]

/-- In every run of operations that are safe when they are called, a record
that was created stays the map of what was last set and not removed. -/
theorem isMap_of_reach (bufferLen : UInt16) (buffer : Option Mem) (s : Tracked)
    (hreach : Relation.ReflTransGen SafeStep (txtRecordCreate bufferLen buffer, fun _ => none) s) :
    IsMap s.1 s.2 := by
  refine Represented.isMap (invariant_of_reach ?_ ?_ hreach)
  · rintro s t hs ⟨op, hsafe, rfl⟩
    cases op with
    | set key value malloc => exact represented_set hs hsafe
    | remove key => exact represented_remove hs hsafe
  · exact ⟨[], ⟨holds_nil _ _, rfl, List.Pairwise.nil⟩, Nat.zero_le _, rfl⟩

/-- In a record without storage of its own the key `a` is set, set anew to a
longer value and removed, and `b` stays. -/
theorem isMap_of_reach_removed : ∃ s, s = [Op.set [0x61] (some [0x78]) (some (ofList [])),
      .set [0x61] (some [0x78, 0x79]) (some (ofList [])), .set [0x62] none (some (ofList [])),
      .remove [0x41]].foldl Op.step (txtRecordCreate 0 none, fun _ => none) ∧
    txtRecordContainsKey s.1 [0x61] = false ∧ txtRecordContainsKey s.1 [0x62] = true ∧
    IsMap s.1 s.2 := by
  refine ⟨_, rfl, by decide +kernel, by decide +kernel, isMap_of_reach 0 none _
    (.tail (.tail (.tail (.single ⟨_, ?_, rfl⟩) ⟨_, ?_, rfl⟩) ⟨_, ?_, rfl⟩) ⟨_, ?_, rfl⟩)⟩
  · exact fun _ _ _ item h => by cases h
  · exact fun _ _ _ item _ =>
      .inr ⟨(Nat.add_le_add_right (Nat.sub_le _ _) _).trans (by decide +kernel), rfl⟩
  · exact fun _ _ _ item _ =>
      .inr ⟨(Nat.add_le_add_right (Nat.sub_le _ _) _).trans (by decide +kernel), rfl⟩
  · exact fun h => absurd h (by decide)

/-- The key `a` is set to `x`, and setting it to `xy` fails for want of
memory: it is lost. The key `a` is set to `=x`, and removing the key `a=`
removes it. -/
theorem isMap_not_of_set : (∃ s, s = [Op.set [0x61] (some [0x78]) (some (ofList [])),
          .set [0x61] (some [0x78, 0x79]) none].foldl
        Op.step (txtRecordCreate 0 none, fun _ => none) ∧ ¬IsMap s.1 s.2) ∧
      ∃ s, s = [Op.set [0x61] (some [0x3D, 0x78]) (some (ofList [])), .remove [0x61, 0x3D]].foldl
        Op.step (txtRecordCreate 0 none, fun _ => none) ∧ ¬IsMap s.1 s.2 := by
  refine ⟨⟨_, rfl, fun hmap => ?_⟩, ⟨_, rfl, fun hmap => ?_⟩⟩ <;>
    exact absurd (hmap.contains [0x61] (by decide)) (by decide +kernel)

end Hexley.DnsSd
