import Hexley.Cf.BinaryPlist.Create

/-!
Bounds of the functions that read from a buffer that was accepted.

An object and an element of an array are read within the bounds, whatever
the buffer contains. In a dictionary the search for a key looks at the
marker of each key it comes to. The offset of a key whose reference is not
below the number of objects is `UINT64_MAX`, and the marker is then looked
for at the byte in front of the buffer. So the search stays in bounds if and
only if it comes to no such reference.
-/

namespace Hexley.Cf.BinaryPlist

open Lib Outcome Buffer

variable {b : Buffer} {t : Trailer} {skip ptr off : ℕ} {s s' : ReadState}

def InBounds {α : Type} (o : Outcome α) : Prop := o ≠ .fault ∧ o ≠ .exhausted

theorem inBounds_ok {α : Type} (a : α) : InBounds (.ok a) := ⟨nofun, nofun⟩

theorem inBounds_failed {α : Type} : InBounds (.failed : Outcome α) := ⟨nofun, nofun⟩

theorem inBounds_bind_ofOption {α : Type} {o : Outcome (Option α)} :
    InBounds (o >>= Outcome.ofOption) ↔ InBounds o := by
  cases o with
  | ok found =>
    refine iff_of_true ?_ (inBounds_ok found)
    cases found with
    | none => exact inBounds_failed
    | some a => exact inBounds_ok a
  | failed => exact iff_of_true inBounds_failed inBounds_failed
  | fault => exact iff_of_false (fun h => h.1 rfl) fun h => h.1 rfl
  | exhausted => exact iff_of_false (fun h => h.2 rfl) fun h => h.2 rfl

theorem inBounds_of_ensures {α : Type} {o : Outcome α} {Q : α → Prop} (h : o.Ensures Q) :
    InBounds o := by
  constructor
  · rintro rfl
    exact h
  · rintro rfl
    exact h

theorem inBounds_of_ends {α : Type} {r : Outcome α × ReadState} {Q : α → ReadState → Prop}
    {F : ReadState → Prop} (h : Ends r Q F) : InBounds r.1 := by
  obtain ⟨o, s⟩ := r
  constructor
  · rintro rfl
    exact h
  · rintro rfl
    exact h

/-- A frame for every offset among the objects is enough for all calls. -/
theorem object2_inBounds (ht : Accepted b t) {frames : ℕ}
    (hframes : 17 + t.offsetTableOffset ≤ frames) (option : Mutability) (start : ℕ)
    (objects : Option (List (ℕ × Plist))) :
    Ends (createObject2 b t option frames 0 start ⟨objects, none⟩) (fun _ _ => True)
      fun _ => True := by
  have hC (off : ℕ) (_ : Relation.ReflTransGen (Refers b t) start off)
      (h : IsContainer b t off) : off ∈ Finset.range t.offsetTableOffset := by
    have hrange := h.1
    exact Finset.mem_range.mpr (by omega)
  refine (object2_top_ends ht inherited_true hC ?_ fun _ _ _ => trivial).mono
    (fun _ _ _ => trivial) fun _ _ => trivial
  rwa [Finset.card_range]

theorem valueFromArray_ensures (ht : Accepted b t) (start : ℕ) (idx : ℤ) :
    (getOffsetForValueFromArray2 b t start idx).Ensures fun _ => True := by
  have hlen := ht.length
  have hlast := lastPtr_eq ht
  refine ensures_require fun hrange => ?_
  have hptr : b.ptr start = b.base + start := ptr_eq (by omega)
  rw [hptr, deref_eq (by omega), ok_bind]
  refine ensures_require fun _ => ?_
  refine ensures_bind (readCount_ensures ht _ (by omega) (by omega)) fun r _ => ?_
  refine ensures_require fun _ => ?_
  refine ensures_option fun byteCnt _ => ?_
  refine ensures_option fun extent _ => ?_
  refine ensures_require fun _ => ?_
  exact (refAt_ensures ht _).mono fun _ _ => trivial

/-! ### The search for a key -/

def refAt (b : Buffer) (t : Trailer) (ptr i : ℕ) : ℕ :=
  bigEndian ((b.bytes.drop (ptr - b.base + i * t.objectRefSize)).take t.objectRefSize)

theorem readDictionary_ensures (ht : Accepted b t) (start : ℕ) :
    (readDictionary b t start).Ensures fun r =>
      b.base + 8 ≤ r.1 ∧ r.1 + 2 * r.2 * t.objectRefSize ≤ b.base + t.offsetTableOffset := by
  have hlen := ht.length
  have hlast := lastPtr_eq ht
  refine ensures_require fun hrange => ?_
  have hptr : b.ptr start = b.base + start := ptr_eq (by omega)
  rw [hptr, deref_eq (by omega), ok_bind]
  refine ensures_require fun _ => ?_
  refine ensures_bind (readCount_ensures ht _ (by omega) (by omega)) fun r hr => ?_
  refine ensures_option fun cnt' hcnt' => ?_
  rw [checkMul_some] at hcnt'
  refine ensures_option fun byteCnt hbyteCnt => ?_
  rw [checkMul_some] at hbyteCnt
  refine ensures_option fun extent hextent => ?_
  rw [checkPtrAdd_some] at hextent
  refine ensures_require fun hend => ?_
  have htwo : 2 * (cnt' / 2) = cnt' := by omega
  refine ensures_ok ⟨by dsimp only at hr ⊢; omega, ?_⟩
  rw [htwo, ← hbyteCnt.2]
  omega

theorem getOffsetOfRefAt_eq (ht : Accepted b t) {i : ℕ} (hptr : b.base + 8 ≤ ptr)
    (hend : ptr + (i + 1) * t.objectRefSize ≤ b.base + t.offsetTableOffset) :
    (t.numObjects ≤ refAt b t ptr i ∧
        getOffsetOfRefAt b t (ptr + i * t.objectRefSize) = .ok maxOffset) ∨
      (refAt b t ptr i < t.numObjects ∧ ∃ off < t.offsetTableOffset,
        getOffsetOfRefAt b t (ptr + i * t.objectRefSize) = .ok off) := by
  have hlen := ht.length
  rw [Nat.succ_mul] at hend
  obtain ⟨p, rfl⟩ : ∃ p, ptr = b.base + p := Nat.exists_eq_add_of_le (by omega)
  unfold getOffsetOfRefAt
  rw [ptr_eq (by omega), ptr_eq (by omega), if_neg (by omega), add_assoc,
    derefs_eq (by omega), ok_bind]
  unfold refAt
  rw [Nat.add_sub_cancel_left]
  by_cases hnum : t.numObjects ≤ bigEndian ((b.bytes.drop (p + i * t.objectRefSize)).take
      t.objectRefSize)
  · exact .inl ⟨hnum, if_pos hnum⟩
  · refine .inr ⟨not_le.mp hnum, _, ht.offset_lt _ (not_le.mp hnum), ?_⟩
    have hle := Nat.mul_le_mul_right t.offsetIntSize (not_le.mp hnum)
    rw [Nat.succ_mul] at hle
    rw [if_neg hnum, ptr_eq (by omega), derefs_eq (by omega), ok_bind]

theorem deref_maxOffset : b.deref (b.ptr maxOffset) = .fault := by
  have hlow := b.low
  refine if_neg ?_
  unfold ptr maxOffset
  omega

variable {equal : Plist → Plist → Bool} {frames : ℕ} {key : Plist}

theorem testKey_maxOffset (s : ReadState) :
    (testKey b t equal frames key maxOffset s).1 = .fault := by
  rw [testKey, deref_maxOffset]

theorem testKey_ends (ht : Accepted b t) (hframes : 17 + t.offsetTableOffset ≤ frames)
    (hoff : off < t.offsetTableOffset) (objects : Option (List (ℕ × Plist))) :
    ∃ test s', testKey b t equal frames key off ⟨objects, none⟩ = (.ok test, s') := by
  have hlen := ht.length
  have hptr : b.ptr off = b.base + off := ptr_eq (by omega)
  unfold testKey
  rw [hptr, deref_eq (by omega)]
  dsimp only
  split
  · split_ifs
    · exact ⟨_, _, rfl⟩
    · cases hadd : checkPtrAdd (b.base + off) (b.bytes[off].toNat % 16) with
      | none => exact ⟨_, _, rfl⟩
      | some extent =>
        rw [checkPtrAdd_some] at hadd
        rw [ptr_eq (show t.offsetTableOffset ≤ _ by omega)]
        dsimp only
        split_ifs with hend
        · exact ⟨_, _, rfl⟩
        · rw [add_assoc, derefs_eq (by omega)]
          exact ⟨_, _, rfl⟩
  · have hends := object2_inBounds ht hframes .immutable off objects
    generalize createObject2 b t .immutable frames 0 off ⟨objects, none⟩ = r at hends
    obtain ⟨o, s'⟩ := r
    cases o with
    | ok pl =>
      dsimp only
      split_ifs <;> exact ⟨_, _, rfl⟩
    | failed => exact ⟨_, _, rfl⟩
    | fault => exact hends.elim
    | exhausted => exact hends.elim

theorem searchKeys_miss (hget : getOffsetOfRefAt b t ptr = .ok off)
    (htest : testKey b t equal frames key off { s with set := none } = (.ok .miss, s')) (n : ℕ) :
    searchKeys b t equal frames key skip (n + 1) ptr s =
      searchKeys b t equal frames key skip n (ptr + t.objectRefSize) s' := by
  rw [searchKeys, hget]
  dsimp only
  rw [htest]

theorem searchKeys_stop (ht : Accepted b t) {test : KeyTest}
    (hget : getOffsetOfRefAt b t ptr = .ok off)
    (htest : testKey b t equal frames key off { s with set := none } = (.ok test, s'))
    (hne : test ≠ .miss) (n : ℕ) : InBounds (searchKeys b t equal frames key skip (n + 1) ptr s).1 ∧
      (searchKeys b t equal frames key skip (n + 1) ptr s).1 ≠ .ok none := by
  rw [searchKeys, hget]
  dsimp only
  rw [htest]
  cases test with
  | miss => exact absurd rfl hne
  | bad => exact ⟨inBounds_failed, nofun⟩
  | hit =>
    have hvalue := refAt_ensures ht (ptr + skip)
    generalize getOffsetOfRefAt b t (ptr + skip) = value at hvalue
    cases value with
    | ok voffset => exact ⟨inBounds_ok _, nofun⟩
    | failed => exact ⟨inBounds_failed, nofun⟩
    | fault => exact hvalue.elim
    | exhausted => exact hvalue.elim

theorem searchKeys_fault (hget : getOffsetOfRefAt b t ptr = .ok maxOffset) (n : ℕ)
    (s : ReadState) : (searchKeys b t equal frames key skip (n + 1) ptr s).1 = .fault := by
  have htest : (testKey b t equal frames key maxOffset { s with set := none }).1 = .fault :=
    testKey_maxOffset _
  rw [searchKeys, hget]
  dsimp only
  generalize testKey b t equal frames key maxOffset _ = r at htest
  obtain ⟨o, s'⟩ := r
  cases htest
  rfl

theorem searchKeys_inBounds_iff (ht : Accepted b t)
    (hframes : 17 + t.offsetTableOffset ≤ frames) (skip : ℕ) {n : ℕ}
    (hptr : b.base + 8 ≤ ptr) (hend : ptr + n * t.objectRefSize ≤ b.base + t.offsetTableOffset)
    (s : ReadState) : InBounds (searchKeys b t equal frames key skip n ptr s).1 ↔
      ∀ i < n, (searchKeys b t equal frames key skip i ptr s).1 = .ok none →
        refAt b t ptr i < t.numObjects := by
  induction n generalizing ptr s with
  | zero =>
    exact ⟨fun _ i hi => absurd hi (Nat.not_lt_zero i), fun _ => inBounds_ok none⟩
  | succ n ih =>
    rw [Nat.succ_mul] at hend
    have hfirst : _ ∨ (refAt b t ptr 0 < t.numObjects ∧ _) := getOffsetOfRefAt_eq ht hptr (by omega)
    rw [zero_mul, add_zero] at hfirst
    rcases hfirst with ⟨hbad, hget⟩ | ⟨hgood, off, hoff, hget⟩
    · constructor
      · rintro ⟨hfault, -⟩
        exact absurd (searchKeys_fault hget n s) hfault
      · intro h
        exact absurd (h 0 (Nat.succ_pos n) rfl) (not_lt.mpr hbad)
    · obtain ⟨test, s', htest⟩ : ∃ test s',
          testKey b t equal frames key off ⟨s.objects, none⟩ = (.ok test, s') :=
        testKey_ends ht hframes hoff s.objects
      by_cases hmiss : test = .miss
      · subst hmiss
        have hshift (i : ℕ) : refAt b t (ptr + t.objectRefSize) i = refAt b t ptr (i + 1) := by
          unfold refAt
          rw [Nat.succ_mul]
          congr 3
          omega
        rw [searchKeys_miss hget htest, ih (by omega) (by omega)]
        constructor
        · intro h i hi hnone
          cases i with
          | zero => exact hgood
          | succ i =>
            rw [searchKeys_miss hget htest] at hnone
            rw [← hshift]
            exact h i (by omega) hnone
        · intro h i hi hnone
          rw [hshift]
          refine h (i + 1) (by omega) ?_
          rw [searchKeys_miss hget htest]
          exact hnone
      · refine ⟨fun _ i hi hnone => ?_, fun _ => (searchKeys_stop ht hget htest hmiss n).1⟩
        cases i with
        | zero => exact hgood
        | succ i => exact absurd hnone (searchKeys_stop ht hget htest hmiss i).2

/-! ### The three functions -/

/-- The search for the key in the dictionary at `start` comes to no
reference that is not below the number of objects: whenever the keys before
a reference are not the right one, the reference is valid. -/
def KeyRefsValid (b : Buffer) (t : Trailer) (equal : Plist → Plist → Bool) (frames start : ℕ)
    (key : Plist) (objects : Option (List (ℕ × Plist))) : Prop :=
  key.isPrimitive = true → ∀ ptr cnt, readDictionary b t start = .ok (ptr, cnt) → ∀ i < cnt,
    (searchKeys b t equal frames key (cnt * t.objectRefSize) i ptr ⟨objects, none⟩).1 = .ok none →
      refAt b t ptr i < t.numObjects

theorem dictionary2_inBounds_iff (ht : Accepted b t) (hframes : 17 + t.offsetTableOffset ≤ frames)
    (start : ℕ) (objects : Option (List (ℕ × Plist))) :
    InBounds (getOffsetForValueFromDictionary2 b t equal frames start key objects) ↔
      KeyRefsValid b t equal frames start key objects := by
  have hhead := readDictionary_ensures ht start
  unfold getOffsetForValueFromDictionary2 KeyRefsValid
  by_cases hkey : key.isPrimitive = true
  swap
  · rw [require_false hkey]
    exact ⟨fun _ h => absurd h hkey, fun _ => inBounds_failed⟩
  rw [require_true hkey, ok_bind]
  generalize readDictionary b t start = head at hhead
  cases head with
  | fault => exact hhead.elim
  | exhausted => exact hhead.elim
  | failed =>
    refine ⟨fun _ _ ptr cnt h => ?_, fun _ => inBounds_failed⟩
    exact nomatch h
  | ok r =>
    obtain ⟨ptr, cnt⟩ := r
    obtain ⟨hlow, hhigh⟩ :
        b.base + 8 ≤ ptr ∧ ptr + 2 * cnt * t.objectRefSize ≤ b.base + t.offsetTableOffset := hhead
    have hend : ptr + cnt * t.objectRefSize ≤ b.base + t.offsetTableOffset := by
      rw [mul_assoc] at hhigh
      omega
    rw [ok_bind]
    rw [inBounds_bind_ofOption, searchKeys_inBounds_iff ht hframes _ hlow hend]
    constructor
    · intro h _ ptr' cnt' heq
      obtain ⟨rfl, rfl⟩ := heq
      exact h
    · intro h
      exact h hkey ptr cnt rfl

/-- For a buffer that is accepted, an object and an element of an array are
read within the bounds, whatever the buffer, the offset, the index and the
cache, and a value of a dictionary if and only if the search for its key
comes to no reference that is not valid. -/
theorem readers_inBounds_iff {marker : UInt8} {top : ℕ}
    (htop : getTopLevelInfo b = .ok (marker, top, t)) (option : Mutability)
    (equal : Plist → Plist → Bool) (start : ℕ) (idx : ℤ) (key : Plist)
    (objects : Option (List (ℕ × Plist))) (frames : ℕ)
    (hframes : 17 + t.offsetTableOffset ≤ frames) :
    InBounds (createObject2 b t option frames 0 start ⟨objects, none⟩).1 ∧
      InBounds (getOffsetForValueFromArray2 b t start idx) ∧
      (InBounds (getOffsetForValueFromDictionary2 b t equal frames start key objects) ↔
        KeyRefsValid b t equal frames start key objects) := by
  have ht := accepted_of_info htop
  exact ⟨inBounds_of_ends (object2_inBounds ht hframes option start objects),
    inBounds_of_ensures (valueFromArray_ensures ht start idx),
    dictionary2_inBounds_iff ht hframes start objects⟩

/-- A dictionary with one key, the reference to which is `ref`, and the only
object is the dictionary itself. -/
def oneKey (ref : UInt8) : Buffer where
  base := 4096
  bytes := magic00 ++ [0xD1, ref, 0x00] ++ [0x08] ++
    [0, 0, 0, 0, 0, 0, 1, 1, 0, 0, 0, 0, 0, 0, 0, 1, 0, 0, 0, 0, 0, 0, 0, 0,
      0, 0, 0, 0, 0, 0, 0, 11]
  low := low_page
  fits := by
    simp only [List.length_append, List.length_cons, List.length_nil, magic00]
    decide

/-- The dictionary that is its own key is searched within the bounds. -/
theorem readers_inBounds_oneKey :
    InBounds (getOffsetForValueFromDictionary2 (oneKey 0) ⟨1, 1, 1, 0, 11⟩ (fun _ _ => false) 28 8
      (.string [0x61]) none) := by
  have htop : getTopLevelInfo (oneKey 0) = .ok (0xD1, 8, ⟨1, 1, 1, 0, 11⟩) := by decide +kernel
  refine (readers_inBounds_iff htop .immutable _ 8 0 _ none 28 (by decide)).2.2.mpr ?_
  intro _ ptr cnt hread i hi _
  have hhead : readDictionary (oneKey 0) ⟨1, 1, 1, 0, 11⟩ 8 = .ok (4096 + 9, 1) := by
    decide +kernel
  rw [hhead, Outcome.ok.injEq, Prod.mk.injEq] at hread
  obtain ⟨rfl, rfl⟩ := hread
  obtain rfl : i = 0 := by omega
  decide +kernel

/-- The buffer whose only key has the reference 1, where there is only one
object, is accepted, and the search for a key looks at the byte in front of
it. -/
theorem readers_not_inBounds : getTopLevelInfo (oneKey 1) = .ok (0xD1, 8, ⟨1, 1, 1, 0, 11⟩) ∧
      getOffsetForValueFromDictionary2 (oneKey 1) ⟨1, 1, 1, 0, 11⟩ (fun _ _ => false) 28 8
        (.string [0x61]) none = .fault := by
  refine ⟨by decide +kernel, ?_⟩
  rfl

end Hexley.Cf.BinaryPlist
