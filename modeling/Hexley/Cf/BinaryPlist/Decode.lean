import Hexley.Cf.BinaryPlist.Layout

/-!
What the reader makes of the bytes of an object.

One lemma for each function of the reader says what it returns where the
writer has put an integer, a count, a reference or an object.
-/

namespace Hexley.Cf.BinaryPlist

open Lib List Outcome Endian UInt8 Kind Buffer

/-! ### Bytes -/

theorem bigEndian_eq (xs : List UInt8) : bigEndian xs = big.val xs % 2 ^ 64 := by
  induction xs using List.reverseRecOn with
  | nil => rfl
  | append_singleton xs x ih =>
    have hstep : bigEndian (xs ++ [x]) = (bigEndian xs * 256 + x.toNat) % 2 ^ 64 := by
      unfold bigEndian
      rw [foldl_append]
      rfl
    rw [hstep, ih, val_big_concat]
    omega

theorem bigEndian_bytes {n v : ℕ} (hn : v < 256 ^ n) (hv : v < 2 ^ 64) :
    bigEndian (big.bytes n v) = v := by
  rw [bigEndian_eq, val_bytes_of _ hn, Nat.mod_eq_of_lt hv]

theorem bigEndian_append_bytes (xs : List UInt8) {v : ℕ} (hv : v < 2 ^ 64) :
    bigEndian (xs ++ big.bytes 8 v) = v := by
  rw [bigEndian_eq, val_big_append, length_bytes, val_bytes_of _ (show v < 256 ^ 8 from hv)]
  omega

theorem swappedTail_eq {size nbytes : ℕ} (h : nbytes ≤ size) (v : ℕ) :
    swappedTail size nbytes v = big.bytes nbytes v := drop_big_bytes h v

theorem bigEndian_swapped {size nbytes v : ℕ} (h : nbytes ≤ size) (hn : v < 256 ^ nbytes)
    (hv : v < 2 ^ 64) : bigEndian (swappedTail size nbytes v) = v := by
  rw [swappedTail_eq h, bigEndian_bytes hn hv]

theorem intWidth_lt (n : ℕ) : intWidth n < 4 := by
  unfold intWidth
  split_ifs <;> omega

theorem pow_intWidth_le (n : ℕ) : 2 ^ intWidth n ≤ 8 := by
  unfold intWidth
  split_ifs <;> decide

theorem lt_pow_intWidth {n : ℕ} (hn : n < 2 ^ 64) : n < 256 ^ 2 ^ intWidth n := by
  unfold intWidth
  split_ifs <;> omega

theorem length_encodeInt (n : ℕ) : (encodeInt n).length = 1 + 2 ^ intWidth n := by
  rw [encodeInt, length_cons, length_swapped (pow_intWidth_le n), add_comm]

theorem toNat_countMarker {marker : ℕ} (hm : marker ≤ 0xF0) (count : ℕ) :
    (countMarker marker count).toNat = marker + if count < 15 then count else 0xf := by
  refine toNat_ofNat_of_lt' ?_
  split_ifs
  · change _ < 256
    omega
  · change _ < 256
    omega

theorem kindOf_congr {m m' : UInt8} (h : m.toNat / 16 = m'.toNat / 16) : of m = of m' := by
  unfold of
  rw [h]

theorem kindOf_marker (marker : UInt8) (hm : marker.toNat ≤ 0xF0)
    (hm' : marker.toNat % 16 = 0) (count : ℕ) :
    of (countMarker marker.toNat count) = of marker := by
  refine kindOf_congr ?_
  rw [toNat_countMarker hm]
  split_ifs <;> omega

namespace Buffer

variable {b : Buffer} {off : ℕ} {xs : List UInt8}

theorem derefs_segment (h : SegmentAt b.bytes off xs) :
    b.derefs (b.base + off) xs.length = .ok xs := by
  rw [derefs_eq h.le, h.take_drop]

theorem deref_segment {x : UInt8} (h : SegmentAt b.bytes off (x :: xs)) :
    b.deref (b.base + off) = .ok x := by
  rw [deref, if_pos (Nat.le_add_right _ _), Nat.add_sub_cancel_left, h.getElem?]

end Buffer

structure Among (b : Buffer) (t : Trailer) (off : ℕ) (xs : List UInt8) : Prop where
  segment : SegmentAt b.bytes off xs
  low : 8 ≤ off
  high : off + xs.length ≤ t.offsetTableOffset

section

variable {t : Trailer} {ys : List UInt8}

theorem Among.left (h : Among b t off (xs ++ ys)) : Among b t off xs where
  segment := (segmentAt_append.mp h.segment).1
  low := h.low
  high := by
    have hhigh := h.high
    rw [length_append] at hhigh
    omega

theorem Among.right (h : Among b t off (xs ++ ys)) : Among b t (off + xs.length) ys where
  segment := (segmentAt_append.mp h.segment).2
  low := le_trans h.low (Nat.le_add_right _ _)
  high := by
    have hhigh := h.high
    rw [length_append] at hhigh
    omega

theorem Among.tail {x : UInt8} (h : Among b t off (x :: xs)) : Among b t (off + 1) xs := by
  have h' : Among b t off ([x] ++ xs) := h
  exact h'.right

end

/-! ### The functions of the reader -/

theorem checkPtrAdd_ok {p a : ℕ} (h : p + a < 2 ^ 64) :
    Outcome.ofOption (checkPtrAdd p a) = .ok (p + a) := by
  rw [checkPtrAdd_some.mpr ⟨h, rfl⟩]
  rfl

theorem checkMul_ok {x y : ℕ} (h : x * y < 2 ^ 64) :
    Outcome.ofOption (checkMul x y) = .ok (x * y) := by
  rw [checkMul_some.mpr ⟨h, rfl⟩]
  rfl

section

variable {t : Trailer} (ht : Accepted b t)

include ht

theorem Among.bound (h : Among b t off xs) :
    b.base + off + xs.length < 2 ^ 64 ∧ b.base + off + xs.length ≤ lastPtr b t + 1 ∧
      lastPtr b t + 1 = b.base + t.offsetTableOffset := by
  have hfits := b.fits
  have hhigh := h.high
  have hlen := ht.length
  have hnine := ht.offsetTableOffset
  rw [lastPtr_eq ht]
  omega

theorem readInt_encodeInt {n : ℕ} (hn : n < 2 ^ 64) (h : Among b t off (encodeInt n)) :
    readInt b (b.base + off) (lastPtr b t) = .ok (n, b.base + off + (encodeInt n).length) := by
  have hbound := h.bound ht
  have hlen := length_encodeInt n
  have hwidth := intWidth_lt n
  have hpow := pow_intWidth_le n
  have hmarker : (UInt8.ofNat (0x10 + intWidth n)).toNat = 0x10 + intWidth n :=
    UInt8.toNat_ofNat_of_lt' (show _ < 256 by omega)
  have hxs : (swappedTail 8 (2 ^ intWidth n) n).length = 2 ^ intWidth n := length_swapped hpow n
  have htail := derefs_segment h.tail.segment
  rw [hxs] at htail
  unfold readInt
  rw [require_true (by omega), ok_bind, deref_segment h.segment,
    ok_bind, hmarker, require_true (by omega), ok_bind,
    show (0x10 + intWidth n) % 16 = intWidth n by omega]
  dsimp only
  rw [checkPtrAdd_ok (by omega), ok_bind, require_true (by omega),
    ok_bind, add_assoc b.base, htail, ok_bind,
    bigEndian_swapped hpow (lt_pow_intWidth hn) hn, hlen]
  simp only [add_assoc]

theorem readFixed_eq {marker : UInt8} (h : Among b t off (marker :: xs)) :
    readFixed b t (b.base + off) xs.length = .ok xs := by
  have hbound := h.bound ht
  rw [length_cons] at hbound
  unfold readFixed
  rw [checkPtrAdd_ok (by omega), ok_bind, checkPtrAdd_ok (by omega),
    ok_bind, require_true (by omega), ok_bind, add_assoc]
  exact derefs_segment h.tail.segment

theorem readCount_encodeCount {marker count : ℕ} (hm : marker ≤ 0xF0) (hm' : marker % 16 = 0)
    (hcount : count ≤ longMax) (h : Among b t off (encodeCount marker count)) :
    readCount b t (countMarker marker count) (b.base + off) =
      .ok (count, b.base + off + (encodeCount marker count).length) := by
  have hbound := h.bound ht
  have hmarker := toNat_countMarker hm count
  unfold readCount
  rw [hmarker]
  unfold encodeCount at h hbound ⊢
  rw [length_cons] at hbound ⊢
  rw [checkPtrAdd_ok (by omega), ok_bind]
  by_cases hsmall : count < 15
  · rw [if_pos hsmall, if_neg (by omega), if_neg (by omega),
      show (marker + count) % 16 = count by omega]
    rfl
  · have hlong : count < 2 ^ 64 := by
      unfold longMax at hcount
      omega
    have hint := h.tail
    rw [if_pos (not_lt.mp hsmall)] at hint ⊢
    rw [if_neg hsmall, if_pos (by omega), add_assoc b.base,
      readInt_encodeInt ht hlong hint, ok_bind]
    dsimp only
    rw [require_true (by omega), ok_bind]
    congr 2
    omega

theorem readCounted_eq {marker : ℕ} (hm : marker ≤ 0xF0) (hm' : marker % 16 = 0)
    (hlong : xs.length ≤ longMax) (h : Among b t off (encodeCount marker xs.length ++ xs)) :
    readCounted b t (countMarker marker xs.length) (b.base + off) = .ok xs := by
  have hbound := h.right.bound ht
  unfold readCounted
  rw [readCount_encodeCount ht hm hm' hlong h.left, ok_bind]
  dsimp only
  rw [add_assoc b.base, checkPtrAdd_ok (by omega), ok_bind, require_true (by omega), ok_bind]
  exact derefs_segment h.right.segment

theorem readCountedUnits_eq {marker count : ℕ} (hm : marker ≤ 0xF0) (hm' : marker % 16 = 0)
    (hlong : count ≤ longMax) (hxs : xs.length = count * 2)
    (h : Among b t off (encodeCount marker count ++ xs)) :
    readCountedUnits b t (countMarker marker count) (b.base + off) = .ok xs := by
  have hbound := h.right.bound ht
  unfold readCountedUnits
  rw [readCount_encodeCount ht hm hm' hlong h.left, ok_bind]
  dsimp only
  rw [add_assoc b.base, checkPtrAdd_ok (by omega), ok_bind,
    checkPtrAdd_ok (by omega), ok_bind, require_true (by omega),
    ok_bind, checkMul_ok (by omega), ok_bind, ← hxs]
  exact derefs_segment h.right.segment

/-! ### Primitive objects -/

theorem readLeaf_int {marker : UInt8} {width : ℕ} (hwidth : width ≤ 4)
    (hmarker : marker.toNat = 0x10 + width) (hxs : xs.length = 2 ^ width)
    (h : Among b t off (marker :: xs)) :
    readLeaf b t marker (b.base + off) = .ok (.int (intValue xs)) := by
  have hbound := h.bound ht
  have hkind : of marker = of 0x10 := by
    refine kindOf_congr ?_
    change _ = 1
    omega
  have hpow : 2 ^ width ≤ 2 ^ 4 := Nat.pow_le_pow_right (by decide) hwidth
  rw [length_cons, hxs] at hbound
  have htail := derefs_segment h.tail.segment
  rw [hxs] at htail
  unfold readLeaf
  rw [hkind, hmarker, show (0x10 + width) % 16 = width by omega]
  change (Outcome.ofOption (checkPtrAdd (b.base + off) 1) >>= _) = _
  rw [checkPtrAdd_ok (by omega), ok_bind]
  dsimp only
  rw [checkPtrAdd_ok (by omega), ok_bind, require_true (by omega),
    ok_bind, require_true (by omega), ok_bind, add_assoc, htail, ok_bind]

end

theorem intValue_int (v : BitVec 64) :
    intValue (swappedTail 8 (2 ^ intWidth v.toNat) v.toNat) = v.toInt := by
  have hlt := v.isLt
  have hpow := pow_intWidth_le v.toNat
  unfold intValue
  rw [length_swapped hpow, if_neg (by omega),
    bigEndian_swapped hpow (lt_pow_intWidth hlt) hlt, BitVec.toInt_eq_toNat_cond]
  split_ifs <;> omega

theorem intValue_int128 {v : BitVec 128} (hv : v.toNat < 2 ^ 64) :
    intValue (big.bytes 8 (v.toNat / 2 ^ 64) ++ big.bytes 8 (v.toNat % 2 ^ 64)) = v.toInt := by
  unfold intValue
  rw [length_append, length_bytes, length_bytes, if_pos (by decide),
    bigEndian_append_bytes _ (Nat.mod_lt _ (by decide)), Nat.mod_eq_of_lt hv,
    BitVec.toInt_eq_toNat_cond, if_pos (by omega)]

theorem map_ofNat_of_isASCII {units : List UInt16} (h : isASCII units = true) :
    (units.map fun u => UInt8.ofNat u.toNat).map (fun x => UInt16.ofNat x.toNat) = units := by
  rw [map_map]
  conv_rhs => rw [← map_id units]
  refine map_congr_left fun u hu => ?_
  have hlt : u.toNat < 0x80 := by simpa using List.all_eq_true.mp h u hu
  change UInt16.ofNat (UInt8.ofNat u.toNat).toNat = u
  rw [toNat_ofNat_of_lt' (show _ < 256 by omega), UInt16.ofNat_toNat]

theorem bigEndianUnits_flatMap (units : List UInt16) :
    bigEndianUnits (units.flatMap fun u => big.bytes 2 u.toNat) = units := by
  induction units with
  | nil => rfl
  | cons u units ih =>
    have hlt := u.toNat_lt
    have hbytes : big.bytes 2 u.toNat =
        [UInt8.ofNat (u.toNat / 256 % 256), UInt8.ofNat (u.toNat % 256)] := rfl
    rw [flatMap_cons, hbytes, cons_append, cons_append, nil_append,
      bigEndianUnits, ih, toNat_ofNat_of_lt' (Nat.mod_lt _ (by decide)),
      toNat_ofNat_of_lt' (Nat.mod_lt _ (by decide)),
      show u.toNat / 256 % 256 * 256 + u.toNat % 256 = u.toNat by omega, UInt16.ofNat_toNat]

theorem length_flatMap_units (units : List UInt16) :
    (units.flatMap fun u => big.bytes 2 u.toNat).length = units.length * 2 := by
  induction units with
  | nil => rfl
  | cons u units ih =>
    rw [flatMap_cons, length_append, ih, length_bytes, length_cons]
    omega

/-- The objects that the reader reads back as they were: a number that is
stored with 128 bits has no sign and needs only 64, and a key is no
container. -/
def Heap.Readable (h : Heap) : Obj → Prop
  | .null => False
  | .set _ => False
  | .int128 v => v.toNat < 2 ^ 64
  | .dict entries => ∀ e ∈ entries, (h.obj e.1).isContainer = false
  | _ => True

section

variable {t : Trailer} (hlong : t.offsetTableOffset ≤ longMax)

include hlong

theorem Among.length_le {xs : List UInt8} (h : Among b t off xs) : xs.length ≤ longMax := by
  have hhigh := h.high
  omega

variable (ht : Accepted b t)

include ht

theorem readLeaf_encode {hp : Heap} {st : FlattenState} {refSize : ℕ} {o : Obj}
    (hread : hp.Readable o) (hleaf : o.isContainer = false)
    (h : Among b t off (o.encode st refSize)) (pl : ℕ → Plist) :
    ∃ marker xs, o.encode st refSize = marker :: xs ∧ (of marker).isContainer = false ∧
      readLeaf b t marker (b.base + off) = .ok (o.value pl) := by
  cases o with
  | null => exact hread.elim
  | array items => exact nomatch hleaf
  | set items => exact nomatch hleaf
  | dict entries => exact nomatch hleaf
  | bool v =>
    refine ⟨_, [], rfl, ?_⟩
    cases v with
    | true => exact ⟨rfl, rfl⟩
    | false => exact ⟨rfl, rfl⟩
  | int v =>
    have hwidth := intWidth_lt v.toNat
    have hmarker : (UInt8.ofNat (0x10 + intWidth v.toNat)).toNat = 0x10 + intWidth v.toNat :=
      UInt8.toNat_ofNat_of_lt' (show _ < 256 by omega)
    refine ⟨_, _, rfl, ?_, ?_⟩
    · have hkind : of (ofNat (0x10 + intWidth v.toNat)) = of 0x10 := by
        refine kindOf_congr ?_
        change _ = 1
        omega
      rw [hkind]
      rfl
    · rw [readLeaf_int ht (by omega) hmarker (length_swapped (pow_intWidth_le _) _) h, intValue_int]
      rfl
  | int128 v =>
    refine ⟨_, _, rfl, rfl, ?_⟩
    rw [readLeaf_int ht le_rfl rfl (by simp) h, intValue_int128 hread]
    rfl
  | real32 bits | real64 bits | date bits =>
    refine ⟨_, _, rfl, rfl, ?_⟩
    have hfixed := readFixed_eq ht h
    exact congrArg (· >>= _) hfixed
  | uid v =>
    have hlt := v.toNat_lt
    have hpow := pow_intWidth_le v.toNat
    have hpos := Nat.two_pow_pos (intWidth v.toNat)
    have hmarker : (UInt8.ofNat (0x80 + (2 ^ intWidth v.toNat - 1))).toNat =
        0x80 + (2 ^ intWidth v.toNat - 1) := UInt8.toNat_ofNat_of_lt' (show _ < 256 by omega)
    have hkind : of (ofNat (0x80 + (2 ^ intWidth v.toNat - 1))) = of 0x80 := by
      refine kindOf_congr ?_
      change _ = 8
      omega
    have hfixed := readFixed_eq ht h
    rw [length_swapped hpow] at hfixed
    refine ⟨_, _, rfl, by rw [hkind]; rfl, ?_⟩
    unfold readLeaf
    rw [hkind, hmarker]
    rw [show (0x80 + (2 ^ intWidth v.toNat - 1)) % 16 + 1 = 2 ^ intWidth v.toNat by omega, hfixed,
      ok_bind, bigEndian_swapped hpow (lt_pow_intWidth (by omega)) (by omega),
      require_true (by omega)]
    rfl
  | data xs =>
    have hkind : of (countMarker 0x40 xs.length) = .data :=
        kindOf_marker 0x40 (by decide) (by decide) xs.length
    refine ⟨_, _, rfl, by rw [hkind]; rfl, ?_⟩
    unfold readLeaf
    rw [hkind]
    rw [readCounted_eq ht (by decide) (by decide) (h.right.length_le hlong) h]
    rfl
  | string units =>
    unfold Obj.encode at h ⊢
    dsimp only at h ⊢
    split_ifs at h ⊢ with hascii
    · have hcount : (units.map fun u => UInt8.ofNat u.toNat).length = units.length := length_map _
      have hkind : of (countMarker 0x50 units.length) = .asciiString :=
        kindOf_marker 0x50 (by decide) (by decide) units.length
      refine ⟨_, _, rfl, by rw [hkind]; rfl, ?_⟩
      unfold readLeaf
      rw [hkind]
      dsimp only
      rw [← hcount] at h ⊢
      rw [readCounted_eq ht (by decide) (by decide) (h.right.length_le hlong) h,
        ok_bind, map_ofNat_of_isASCII hascii]
      rfl
    · have hcount := length_flatMap_units units
      have hright := h.right.length_le hlong
      have hkind : of (countMarker 0x60 units.length) = .unicode16String :=
        kindOf_marker 0x60 (by decide) (by decide) units.length
      refine ⟨_, _, rfl, by rw [hkind]; rfl, ?_⟩
      unfold readLeaf
      rw [hkind]
      rw [readCountedUnits_eq ht (by decide) (by decide) (by omega) hcount h, ok_bind,
        bigEndianUnits_flatMap]
      rfl

end

end Hexley.Cf.BinaryPlist
