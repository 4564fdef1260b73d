import Hexley.DnsSd.TxtRecord
import Mathlib.Data.List.TakeWhile

/-!
The items of a TXT record, one by one.

`TXTRecordGetItemAtIndex` walks the same bytes as the search for a key, and
for keys without an equals sign the first item it returns with that key is
the one the search finds, in a record that ends in the middle of an item
too. It hands the key out as a C string, though, so an item with a zero
byte in its key is enumerated under the part before that byte, under which
the search does not find it.

The second part is about the order of the steps of `TXTRecordSetValue`: the
old item goes before it is known whether there is room for the new one.
-/

namespace Hexley.DnsSd

open Lib List Mem UInt16 Option

def bodyAt (txtRecord : Mem) (p : ℕ) : List UInt8 :=
  txtRecord.read (p + 1) (txtRecord p).toNat

def keyAt (txtRecord : Mem) (p : ℕ) : List UInt8 :=
  (bodyAt txtRecord p).takeWhile (· ≠ equalsSign)

/-- The loop of `TXTRecordGetItemAtIndex` that finds the requested item. -/
def findItem (txtRecord : Mem) (e : ℕ) : ℕ → ℕ → ℕ
  | 0, p => p
  | n + 1, p => if p < e then findItem txtRecord e n (p + (1 + (txtRecord p).toNat)) else p

/-- What `TXTRecordGetItemAtIndex` stores: the bytes at `key` with the
terminator, the pointer at `value` and the length at `valueLen`. -/
structure ItemAtIndex where
  key : List UInt8
  value : Option ℕ
  valueLen : ℕ
  deriving DecidableEq

variable (t : TxtRecord)

def txtRecordGetItemAtIndex (itemIndex keyBufLen : ℕ) : Except ErrorType ItemAtIndex :=
  let p := findItem t.buffer t.datalen itemIndex 0
  if p < t.datalen ∧ p + (1 + (t.buffer p).toNat) ≤ t.datalen then
    let len := (keyAt t.buffer p).length
    if keyBufLen ≤ len then .error .noMemory
    else
      let key := t.buffer.read (p + 1) len ++ [0]
      if p + 1 + len < p + (1 + (t.buffer p).toNat) then
        .ok ⟨key, some (p + 1 + len + 1), (t.buffer p).toNat - (len + 1)⟩
      else .ok ⟨key, none, 0⟩
  else .error .invalid

def countItems (txtRecord : Mem) (e : ℕ) : ℕ → ℕ → UInt16 → ℕ × UInt16
  | 0, p, count => (p, count)
  | fuel + 1, p, count =>
    if p < e then countItems txtRecord e fuel (p + (1 + (txtRecord p).toNat)) (count + 1)
    else (p, count)

def txtRecordGetCount : UInt16 :=
  let (p, count) := countItems t.buffer t.datalen t.datalen 0 0
  if p > t.datalen then 0 else count

def cString (bytes : List UInt8) : List UInt8 := bytes.takeWhile (· ≠ 0)

/-- The items from index `i` on are asked for, `n` of them at most, up to
the first one whose key is `key` but for the case of letters. -/
def scanItems (t : TxtRecord) (keyBufLen : ℕ) (key : List UInt8) : ℕ → ℕ → Option ItemAtIndex
  | 0, _ => none
  | n + 1, i =>
    match txtRecordGetItemAtIndex t i keyBufLen with
    | .error _ => none
    | .ok item =>
      if foldKey (cString item.key) = foldKey key then some item
      else scanItems t keyBufLen key n (i + 1)

def KeysWithoutNul : Prop :=
  ∀ i, let p := findItem t.buffer t.datalen i 0
    p + (1 + (t.buffer p).toNat) ≤ t.datalen → 0 ∉ keyAt t.buffer p

/-- The data are strings of at most 255 bytes, each behind its length. -/
def WellFormed : Prop :=
  ∃ strings : List (List UInt8), (∀ s ∈ strings, s.length ≤ 255) ∧
    t.buffer.read 0 t.datalen = strings.flatMap fun s => UInt8.ofNat s.length :: s

/-! ### The walk over the items -/

section Walk

variable {txtRecord : Mem} {e p : ℕ}

theorem bodyAt_eq (txtRecord : Mem) (p : ℕ) : ∃ rest,
    bodyAt txtRecord p = keyAt txtRecord p ++ rest ∧ equalsSign ∉ keyAt txtRecord p ∧
      ∀ b ∈ rest.head?, b = equalsSign := by
  refine ⟨(bodyAt txtRecord p).dropWhile (· ≠ equalsSign), List.takeWhile_append_dropWhile.symm,
    fun hmem => by simpa using List.mem_takeWhile_imp hmem, fun b hb => ?_⟩
  have hhead := head?_dropWhile_not (· ≠ equalsSign) (bodyAt txtRecord p)
  rw [mem_def.mp hb] at hhead
  simpa using hhead

theorem length_keyAt_le (txtRecord : Mem) (p : ℕ) :
    (keyAt txtRecord p).length ≤ (txtRecord p).toNat :=
  (List.takeWhile_prefix _).length_le.trans_eq (length_read _ _ _)

theorem findItem_of_le (h : e ≤ p) (n : ℕ) : findItem txtRecord e n p = p := by
  cases n with
  | zero => rfl
  | succ n => exact if_neg (by omega)

theorem findItem_succ (n : ℕ) : findItem txtRecord e (n + 1) p =
      if findItem txtRecord e n p < e then
        findItem txtRecord e n p + (1 + (txtRecord (findItem txtRecord e n p)).toNat)
      else findItem txtRecord e n p := by
  induction n generalizing p with
  | zero => rfl
  | succ n ih =>
    rw [findItem]
    by_cases hp : p < e
    · rw [if_pos hp, ih, findItem, if_pos hp]
    · rw [if_neg hp, findItem_of_le (by omega), if_neg hp]

theorem length_le_flatMap_strings (strings : List (List UInt8)) :
    strings.length ≤ (strings.flatMap fun s => UInt8.ofNat s.length :: s).length := by
  induction strings with
  | nil => exact le_rfl
  | cons s strings ih =>
    rw [flatMap_cons, length_append, length_cons, length_cons]
    omega

/-- Over strings behind their lengths the count is their number, and the
items that are found and complete are those before the end. -/
theorem walk_strings {strings : List (List UInt8)} (hshort : ∀ s ∈ strings, s.length ≤ 255)
    (hm : txtRecord.Holds p (strings.flatMap fun s => UInt8.ofNat s.length :: s))
    (he : e = p + (strings.flatMap fun s => UInt8.ofNat s.length :: s).length) :
    (∀ fuel count, (strings.flatMap fun s => UInt8.ofNat s.length :: s).length ≤ fuel →
      countItems txtRecord e fuel p count = (e, count + ofNat strings.length)) ∧
    ∀ n, (findItem txtRecord e n p < e ∧ findItem txtRecord e n p +
      (1 + (txtRecord (findItem txtRecord e n p)).toNat) ≤ e) ↔ n < strings.length := by
  induction strings generalizing p with
  | nil =>
    have hp : e = p := he
    refine ⟨fun fuel count _ => ?_, fun n => ?_⟩
    · rw [hp]
      cases fuel with
      | zero => exact Prod.ext rfl (UInt16.add_zero _).symm
      | succ fuel => exact (if_neg (lt_irrefl p)).trans (Prod.ext rfl (UInt16.add_zero _).symm)
    · rw [findItem_of_le hp.le]
      exact ⟨fun h => absurd h.1 (by omega), fun h => absurd h (Nat.not_lt_zero n)⟩
  | cons s strings ih =>
    rw [flatMap_cons, length_append, length_cons] at he
    obtain ⟨hs, hrest⟩ := holds_append.mp hm
    have hlen : (txtRecord p).toNat = s.length := by
      rw [(holds_cons.mp hs).1]
      exact UInt8.toNat_ofNat_of_lt' (Nat.lt_succ_of_le (hshort s mem_cons_self))
    have hlt : p < e := by omega
    rw [length_cons, ← hlen, add_comm _ 1] at hrest
    obtain ⟨hcount, hfind⟩ := ih (forall_mem_cons.mp hshort).2 hrest (by omega)
    refine ⟨fun fuel count hfuel => ?_, fun n => ?_⟩
    · rw [flatMap_cons, length_append, length_cons] at hfuel
      rcases fuel with _ | fuel
      · omega
      rw [countItems, if_pos hlt, hcount fuel _ (by omega), length_cons, ofNat_add,
        UInt16.add_assoc, UInt16.add_comm 1]
      rfl
    · cases n with
      | zero =>
        rw [findItem, hlen]
        exact ⟨fun _ => Nat.succ_pos _, fun _ => ⟨hlt, by omega⟩⟩
      | succ n =>
        rw [findItem, if_pos hlt, hfind n, length_cons]
        omega

end Walk

/-! ### Lookup and enumeration -/

section Lookup

variable {t : TxtRecord} {key : List UInt8} {keyBufLen : ℕ}

theorem itemAtIndex_ok {i p : ℕ} (hp : findItem t.buffer t.datalen i 0 = p)
    (hlt : p < t.datalen) (he : p + (1 + (t.buffer p).toNat) ≤ t.datalen)
    (hbuf : 256 ≤ keyBufLen) (hnul : 0 ∉ keyAt t.buffer p) :
    ∃ item, txtRecordGetItemAtIndex t i keyBufLen = .ok item ∧ cString item.key = keyAt t.buffer p ∧
      item.value.map (·, item.valueLen) =
        if (t.buffer p).toNat ≤ (keyAt t.buffer p).length then none
        else some (p + 1 + (keyAt t.buffer p).length + 1,
          (t.buffer p).toNat - ((keyAt t.buffer p).length + 1)) := by
  obtain ⟨rest, hbody, -, -⟩ := bodyAt_eq t.buffer p
  have hlen := length_keyAt_le t.buffer p
  have hread : t.buffer.read (p + 1) (keyAt t.buffer p).length = keyAt t.buffer p := by
    have hholds : t.buffer.Holds (p + 1) (bodyAt t.buffer p) := holds_read _ _ _
    rw [hbody] at hholds
    exact (holds_append.mp hholds).1
  have hkey : cString (keyAt t.buffer p ++ [0]) = keyAt t.buffer p := by
    rw [cString, takeWhile_append_of_pos fun b hb => ?_]
    · simp
    · simpa using fun h : b = 0 => hnul (h ▸ hb)
  have hbyte := (t.buffer p).toNat_lt
  simp only [txtRecordGetItemAtIndex, hp, hread]
  rw [if_pos ⟨hlt, he⟩, if_neg (by omega)]
  by_cases hval : (t.buffer p).toNat ≤ (keyAt t.buffer p).length
  · rw [if_neg (by omega), if_pos hval]
    exact ⟨_, rfl, hkey, rfl⟩
  · rw [if_pos (by omega), if_neg hval]
    exact ⟨_, rfl, hkey, rfl⟩

theorem itemAtIndex_isOk (hbuf : 256 ≤ keyBufLen) (i : ℕ) :
    (∃ item, txtRecordGetItemAtIndex t i keyBufLen = .ok item) ↔
      findItem t.buffer t.datalen i 0 < t.datalen ∧ findItem t.buffer t.datalen i 0 +
        (1 + (t.buffer (findItem t.buffer t.datalen i 0)).toNat) ≤ t.datalen := by
  have hlen := length_keyAt_le t.buffer (findItem t.buffer t.datalen i 0)
  have hbyte := (t.buffer (findItem t.buffer t.datalen i 0)).toNat_lt
  rw [txtRecordGetItemAtIndex]
  split
  · rw [if_neg (by omega)]
    refine ⟨fun _ => ‹_›, fun _ => ?_⟩
    split <;> exact ⟨_, rfl⟩
  · exact ⟨fun ⟨_, h⟩ => (nomatch h), fun h => absurd h ‹_›⟩

/-- The search from an item on and the enumeration from its index on meet
the same items. The item the search finds is the one the enumeration
returns. -/
theorem searchFrom_eq_scanItems (hbuf : 256 ≤ keyBufLen) (hkey : equalsSign ∉ key)
    (hnul : KeysWithoutNul t) {fuel n i p : ℕ} (hp : findItem t.buffer t.datalen i 0 = p)
    (hfuel : t.datalen ≤ p + fuel) (hn : t.datalen ≤ p + n) :
    (searchFrom t.buffer t.datalen key fuel p).map (fun x =>
        if (t.buffer x).toNat ≤ key.length then none
        else some (x + 1 + key.length + 1, (t.buffer x).toNat - (key.length + 1))) =
      (scanItems t keyBufLen key n i).map fun item => item.value.map (·, item.valueLen) := by
  induction fuel generalizing n i p with
  | zero =>
    -- The walk is at the end of the data.
    cases n with
    | zero => rfl
    | succ n =>
      rw [scanItems, txtRecordGetItemAtIndex, if_neg (by rw [hp]; omega)]
      rfl
  | succ fuel ih =>
    by_cases hlt : p < t.datalen
    swap
    · have hend : scanItems t keyBufLen key n i = none := by
        cases n with
        | zero => rfl
        | succ n => rw [scanItems, txtRecordGetItemAtIndex, if_neg (by rw [hp]; omega)]
      rw [searchFrom, if_neg hlt, hend]
      rfl
    rcases n with _ | n
    · omega
    have hnext : findItem t.buffer t.datalen (i + 1) 0 = _ := findItem_succ i
    rw [hp, if_pos hlt] at hnext
    by_cases he : p + (1 + (t.buffer p).toNat) ≤ t.datalen
    · obtain ⟨rest, hbody, hsign, hrest⟩ := bodyAt_eq t.buffer p
      have hlen : (t.buffer p).toNat = (keyAt t.buffer p ++ rest).length := by
        rw [← hbody, bodyAt, length_read]
      obtain ⟨item, hitem, hstring, hvalue⟩ := itemAtIndex_ok hp hlt he hbuf (hp ▸ hnul i (hp ▸ he))
      rw [searchFrom_item hsign hrest (hbody ▸ holds_read _ _ _) hlen he hkey, scanItems, hitem]
      simp only [hstring]
      by_cases heq : foldKey (keyAt t.buffer p) = foldKey key
      · have hsame : (keyAt t.buffer p).length = key.length := by
          have := congrArg List.length heq
          simpa using this
        rw [if_pos heq, if_pos heq, map_some, map_some, hvalue, hsame]
      · rw [if_neg heq, if_neg heq]
        exact ih hnext (by omega) (by omega)
    · -- The item goes beyond the end, and both stop.
      have hend : searchFrom t.buffer t.datalen key fuel (p + (1 + (t.buffer p).toNat)) = none := by
        cases fuel with
        | zero => rfl
        | succ fuel => exact if_neg (by omega)
      rw [searchFrom, if_pos hlt, if_neg (fun h => he h.1), hend, scanItems,
        txtRecordGetItemAtIndex, if_neg (by rw [hp]; omega)]
      rfl

end Lookup

/-- The two functions that look for a key, in a record without zero bytes in
its keys, give the answer of the first item with that key; a well-formed
record has as many items as `TXTRecordGetCount` says. -/
theorem lookup_eq_scanItems (t : TxtRecord) (hlen : t.datalen < 2 ^ 16) (keyBufLen : ℕ)
    (hbuf : 256 ≤ keyBufLen) : (KeysWithoutNul t → ∀ key, equalsSign ∉ key → ∀ n, t.datalen ≤ n →
      txtRecordContainsKey t key = (scanItems t keyBufLen key n 0).isSome ∧
        valuePtr t key = (scanItems t keyBufLen key n 0).bind fun item =>
          item.value.map (·, item.valueLen)) ∧
      (WellFormed t → ∀ i, (∃ item, txtRecordGetItemAtIndex t i keyBufLen = .ok item) ↔
        i < (txtRecordGetCount t).toNat) := by
  refine ⟨fun hnul key hkey n hn => ?_, fun ⟨strings, hshort, hdata⟩ i => ?_⟩
  · have hsame := searchFrom_eq_scanItems (i := 0) hbuf hkey hnul rfl
      (show t.datalen ≤ 0 + t.datalen by omega) (show t.datalen ≤ 0 + n by omega)
    constructor
    · have := congrArg Option.isSome hsame
      rwa [Option.isSome_map, Option.isSome_map] at this
    · have hvalue := congrArg (Option.bind · id) hsame
      simp only [Option.bind_map] at hvalue
      exact hvalue
  · have hsize : t.datalen = (strings.flatMap fun s => UInt8.ofNat s.length :: s).length := by
      rw [← hdata, length_read]
    have hholds : t.buffer.Holds 0 (strings.flatMap fun s => UInt8.ofNat s.length :: s) :=
      hdata ▸ holds_read _ _ _
    obtain ⟨hcount, hfind⟩ := walk_strings hshort hholds (hsize.trans (zero_add _).symm)
    have hle := length_le_flatMap_strings strings
    have hnum : txtRecordGetCount t = ofNat strings.length := by
      rw [txtRecordGetCount, hcount _ 0 hsize.ge]
      exact (if_neg (lt_irrefl _)).trans (UInt16.zero_add _)
    rw [hnum, toNat_ofNat_of_lt' (lt_of_le_of_lt (hle.trans_eq hsize.symm) hlen), ← hfind i]
    exact itemAtIndex_isOk hbuf i

/-- The item `a=x` and then one that is cut off. -/
theorem lookup_eq_scanItems_cut : valuePtr ⟨ofList [3, 0x61, 0x3D, 0x78, 9], 5, 5⟩ [0x41] =
      (scanItems ⟨ofList [3, 0x61, 0x3D, 0x78, 9], 5, 5⟩ 256 [0x41] 5 0).bind
        fun item => item.value.map (·, item.valueLen) := by
  refine ((lookup_eq_scanItems ⟨ofList [3, 0x61, 0x3D, 0x78, 9], 5, 5⟩ (by decide) 256
    le_rfl).1 (fun i => ?_) [0x41] (by decide) 5 le_rfl).2
  match i with
  | 0 | 1 => decide
  | i + 2 =>
    have hend : findItem (ofList [3, 0x61, 0x3D, 0x78, 9]) 5 (i + 2) 0 = 14 :=
      findItem_of_le (by decide) i
    simp only [hend]
    exact fun hle => absurd hle (by decide)

/-- The item `a` with a zero byte behind it is enumerated as `a`, and the
search for `a` does not find it. -/
theorem lookup_ne_scanItems_nul : txtRecordContainsKey ⟨ofList [2, 0x61, 0], 3, 3⟩ [0x61] = false ∧
      (scanItems ⟨ofList [2, 0x61, 0], 3, 3⟩ 256 [0x61] 3 0).isSome = true := by
  decide

/-! ### A set that fails -/

theorem searchFrom_le {buffer : Mem} {e : ℕ} {key : List UInt8} {fuel x item : ℕ}
    (h : searchFrom buffer e key fuel x = some item) : item + (1 + (buffer item).toNat) ≤ e := by
  induction fuel generalizing x with
  | zero => cases h
  | succ fuel ih =>
    simp only [searchFrom] at h
    split_ifs at h with hlt hmatch
    · cases h
      exact hmatch.1
    · exact ih h

/-- A set that fails leaves the data of the record as they were if and only
if, when there is an item with the key, the new one has room in its place:
in the buffer, or in a new one that can be had. -/
theorem txtRecordSetValue_failed_iff (t : TxtRecord) (key : List UInt8)
    (value : Option (List UInt8)) (malloc : Option Mem) :
    ((txtRecordSetValue t key value malloc).1 ≠ .noError →
      (txtRecordSetValue t key value malloc).2.buffer.read 0
          (txtRecordSetValue t key value malloc).2.datalen = t.buffer.read 0 t.datalen) ↔
    (key.all keyCharacter = true → 1 ≤ key.length → keyvalsize key value ≤ 255 →
      ∀ item, internalTXTRecordSearch t.datalen t.buffer key = some item →
        let newlen := t.datalen - (1 + (t.buffer item).toNat) + keyvalsize key value
        newlen ≤ t.buflen ∨ newlen ≤ 0xFFFF ∧ malloc.isSome = true) := by
  by_cases hlegal : key.all keyCharacter = true
  swap
  · rw [txtRecordSetValue, if_pos hlegal]
    exact ⟨fun _ h => absurd h hlegal, fun _ _ => rfl⟩
  by_cases hsize : key.length < 1 ∨ keyvalsize key value > 255
  · rw [txtRecordSetValue, if_neg (not_not.mpr hlegal), if_pos hsize]
    exact ⟨fun _ _ hne hshort => by omega, fun _ _ => rfl⟩
  cases hsearch : internalTXTRecordSearch t.datalen t.buffer key with
  | none =>
    have hsame : (txtRecordRemoveValue t key).2 = t := by rw [txtRecordRemoveValue, hsearch]
    have hset := txtRecordSetValue_room malloc hlegal hsize hsame rfl
    refine ⟨fun _ _ _ _ item h => (by cases h), fun _ herr => ?_⟩
    split_ifs at hset
    · obtain ⟨_, _, _, heq⟩ := hset
      exact absurd (congrArg Prod.fst heq) herr
    · rw [hset.2]
  | some item =>
    have hle := searchFrom_le hsearch
    have hremoved := txtRecordRemoveValue.eq_1 t key
    rw [hsearch] at hremoved
    have hset := txtRecordSetValue_room malloc hlegal hsize (congrArg Prod.snd hremoved) rfl
    simp only [some.injEq, forall_eq', hlegal, forall_const]
    split_ifs at hset with hroom
    · obtain ⟨_, _, _, heq⟩ := hset
      exact ⟨fun _ _ _ => hroom, fun _ herr => absurd (congrArg Prod.fst heq) herr⟩
    · refine ⟨fun hkeep => ?_, fun h => absurd (h (by omega) (by omega)) hroom⟩
      -- The data are shorter by the old item.
      have := congrArg List.length (hkeep hset.1)
      rw [length_read, length_read, hset.2] at this
      dsimp only at this
      omega

/-- The record `a=x` has no room for `a=xy`: the set fails, and `a` is
gone. -/
theorem txtRecordSetValue_failed_full :
    ∃ t s, t = (⟨ofList [3, 0x61, 0x3D, 0x78], 4, 4⟩ : TxtRecord) ∧
      s = txtRecordSetValue t [0x61] (some [0x78, 0x79]) none ∧ s.1 = .noMemory ∧
      s.2.buffer.read 0 s.2.datalen ≠ t.buffer.read 0 t.datalen :=
  ⟨_, _, rfl, rfl, by decide, by decide⟩

end Hexley.DnsSd
