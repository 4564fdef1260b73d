import Hexley.Cf.BinaryPlist.Read

/-!
Which bytes the reader of binary property lists looks at.

Everything that it computes from the contents of the buffer is tested
before it is used as an address, with one exception. A reference that is
not valid has the offset `UINT64_MAX`. `__CFBinaryPlistCreateObject2` tests
the offset it is given, and `__CFBinaryPlistGetOffsetForValueFromArray2`
hands it on, but `__CFBinaryPlistGetOffsetForValueFromDictionary2` looks at
the marker of a key before anything else.
-/

namespace Hexley.Cf.BinaryPlist

open Lib Outcome Buffer

/-! ### Reading a block -/

namespace Buffer

variable {b : Buffer} {t : Trailer}

theorem ptr_eq {off : ℕ} (h : off ≤ b.bytes.length) : b.ptr off = b.base + off := by
  have hfits := b.fits
  exact Nat.mod_eq_of_lt (by omega)

theorem deref_eq {i : ℕ} (h : i < b.bytes.length) : b.deref (b.base + i) = .ok b.bytes[i] := by
  rw [deref, if_pos (Nat.le_add_right _ _), Nat.add_sub_cancel_left, List.getElem?_eq_getElem h]

theorem derefs_eq {i n : ℕ} (h : i + n ≤ b.bytes.length) :
    b.derefs (b.base + i) n = .ok ((b.bytes.drop i).take n) := by
  induction n generalizing i with
  | zero => rw [List.take_zero]; rfl
  | succ n ih =>
    have hi : i < b.bytes.length := by omega
    rw [derefs, deref_eq hi, ok_bind, add_assoc, ih (by omega), ok_bind,
      List.drop_eq_getElem_cons hi, List.take_succ_cons]

theorem derefs_ensures {p n : ℕ} (hp : b.base ≤ p) (h : p + n ≤ b.base + b.bytes.length) :
    (b.derefs p n).Ensures fun xs => xs.length = n := by
  obtain ⟨i, rfl⟩ := Nat.exists_eq_add_of_le hp
  rw [derefs_eq (by omega)]
  refine ensures_ok ?_
  rw [List.length_take, List.length_drop]
  omega

end Buffer

theorem checkPtrAdd_some {p a q : ℕ} : checkPtrAdd p a = some q ↔ p + a < 2 ^ 64 ∧ q = p + a := by
  unfold checkPtrAdd
  split_ifs with h
  · simp only [false_iff]
    omega
  · rw [Option.some.injEq]
    omega

theorem checkMul_some {x y z : ℕ} : checkMul x y = some z ↔ x * y < 2 ^ 64 ∧ z = x * y := by
  unfold checkMul
  split_ifs with h0 h
  · rw [h0, zero_mul, Option.some.injEq]
    omega
  · have hlt := (Nat.div_lt_iff_lt_mul (Nat.pos_of_ne_zero h0)).mp h
    rw [mul_comm] at hlt
    simp only [false_iff]
    omega
  · have hle := (Nat.le_div_iff_mul_le (Nat.pos_of_ne_zero h0)).mp (not_lt.mp h)
    rw [mul_comm] at hle
    rw [Option.some.injEq]
    omega

/-! ### Buffers that are accepted -/

/-- What `__CFBinaryPlistGetTopLevelInfo` has tested: the objects, the
offset table and the trailer make up the buffer, and the offsets in the
table are those of objects. -/
structure Accepted (b : Buffer) (t : Trailer) : Prop where
  offsetTableOffset : 9 ≤ t.offsetTableOffset
  objectRefSize : 1 ≤ t.objectRefSize ∧ t.objectRefSize < 256
  offsetIntSize : 1 ≤ t.offsetIntSize
  numObjects : 1 ≤ t.numObjects
  length : b.bytes.length = t.offsetTableOffset + t.numObjects * t.offsetIntSize + trailerSize
  offset_lt : ∀ i < t.numObjects,
    bigEndian ((b.bytes.drop (t.offsetTableOffset + i * t.offsetIntSize)).take t.offsetIntSize) <
      t.offsetTableOffset

theorem checkOffsets_ok {n p : ℕ} (ht : 1 ≤ t.offsetTableOffset)
    (hp : p + n * t.offsetIntSize ≤ b.bytes.length) (h : checkOffsets b t n (b.base + p) = .ok ())
    (i : ℕ) (hi : i < n) :
    bigEndian ((b.bytes.drop (p + i * t.offsetIntSize)).take t.offsetIntSize) <
      t.offsetTableOffset := by
  induction n generalizing p i with
  | zero => exact absurd hi (Nat.not_lt_zero i)
  | succ n ih =>
    rw [Nat.succ_mul] at hp
    rw [checkOffsets, derefs_eq (by omega), ok_bind, bind_eq_ok] at h
    obtain ⟨_, hlt, hrest⟩ := h
    rw [require_eq_ok] at hlt
    cases i with
    | zero =>
      rw [zero_mul, add_zero]
      omega
    | succ i =>
      rw [Nat.succ_mul, add_comm (i * _), ← add_assoc]
      exact ih (by omega) (by rwa [add_assoc] at hrest) i (by omega)

theorem bigEndian_singleton_lt (xs : List UInt8) : bigEndian (xs.take 1) < 256 := by
  cases xs with
  | nil => decide
  | cons x xs =>
    have hx := x.toNat_lt
    change (0 * 256 + x.toNat) % 2 ^ 64 < 256
    omega

theorem accepted_of_info {marker : UInt8} {off : ℕ} (h : getTopLevelInfo b = .ok (marker, off, t)) :
    Accepted b t := by
  unfold getTopLevelInfo at h
  simp only [bind_eq_ok, require_eq_ok] at h
  obtain ⟨_, hlen, header, -, _, -, trail, -, t', htrail, _, hcons, _, hoffsets, xs, -, _, -, m, -,
    hresult⟩ := h
  simp only [Outcome.ok.injEq, Prod.mk.injEq] at hresult
  obtain ⟨-, -, rfl⟩ := hresult
  obtain ⟨hnum, htable, hone, htop, hnine, -, hint, href, -, -, hsum, -, -⟩ := hcons
  have hlength : b.bytes.length =
      t'.offsetTableOffset + t'.numObjects * t'.offsetIntSize + trailerSize := by omega
  refine ⟨by omega, ⟨by omega, ?_⟩, by omega, by omega, hlength, ?_⟩
  · cases hr : readTrailer trail with
    | none =>
      rw [hr] at htrail
      exact absurd htrail (by simp [Outcome.ofOption])
    | some t'' =>
      rw [hr] at htrail
      obtain rfl : t'' = t' := by simpa [Outcome.ofOption] using htrail
      unfold readTrailer at hr
      split_ifs at hr
      rw [Option.some.injEq] at hr
      rw [← hr]
      exact bigEndian_singleton_lt _
  · rw [ptr_eq (by omega)] at hoffsets
    exact checkOffsets_ok (by omega) (by omega) hoffsets

section

variable (ht : Accepted b t) {p : ℕ}

include ht

theorem lastPtr_eq : lastPtr b t = b.base + (t.offsetTableOffset - 1) := by
  have hlen := ht.length
  exact ptr_eq (by omega)

theorem lastPtr_lt : lastPtr b t + 1 + trailerSize ≤ b.base + b.bytes.length := by
  have hlen := ht.length
  have hnine := ht.offsetTableOffset
  rw [lastPtr_eq ht]
  omega

/-! ### The parts of an object -/

theorem readInt_ensures (hp : b.base ≤ p) :
    (readInt b p (lastPtr b t)).Ensures fun r => p < r.2 ∧ r.2 ≤ lastPtr b t + 1 := by
  have hlast := lastPtr_lt ht
  refine ensures_require fun hle => ?_
  obtain ⟨i, rfl⟩ := Nat.exists_eq_add_of_le hp
  rw [deref_eq (by omega), ok_bind]
  refine ensures_require fun _ => ?_
  refine ensures_option fun extent hextent => ?_
  rw [checkPtrAdd_some] at hextent
  refine ensures_require fun hend => ?_
  refine ensures_bind (derefs_ensures (by omega) (by omega)) fun xs _ => ?_
  exact ensures_ok ⟨by omega, by omega⟩

theorem readFixed_ensures (hp : b.base ≤ p) (size : ℕ) :
    (readFixed b t p size).Ensures fun xs => xs.length = size := by
  have hlast := lastPtr_lt ht
  refine ensures_option fun q hq => ?_
  rw [checkPtrAdd_some] at hq
  refine ensures_option fun extent hextent => ?_
  rw [checkPtrAdd_some] at hextent
  refine ensures_require fun hend => ?_
  exact derefs_ensures (by omega) (by omega)

variable (marker : UInt8)

section

variable (hp : b.base ≤ p) (hp' : p ≤ lastPtr b t)
include hp hp'

theorem readCount_ensures :
    (readCount b t marker p).Ensures fun r => p < r.2 ∧ r.2 ≤ lastPtr b t + 1 := by
  refine ensures_option fun q hq => ?_
  rw [checkPtrAdd_some] at hq
  split_ifs
  · refine ensures_bind (readInt_ensures ht (by omega)) fun r hr => ?_
    refine ensures_require fun _ => ?_
    exact ensures_ok ⟨by omega, hr.2⟩
  · exact ensures_ok ⟨by omega, by omega⟩

theorem counted_ensures : (readCounted b t marker p).Ensures fun _ => True := by
  have hlast := lastPtr_lt ht
  refine ensures_bind (readCount_ensures ht marker hp hp') fun r hr => ?_
  refine ensures_option fun extent hextent => ?_
  rw [checkPtrAdd_some] at hextent
  refine ensures_require fun hend => ?_
  exact (derefs_ensures (by omega) (by omega)).mono fun _ _ => trivial

theorem units_ensures : (readCountedUnits b t marker p).Ensures fun _ => True := by
  have hlast := lastPtr_lt ht
  refine ensures_bind (readCount_ensures ht marker hp hp') fun r hr => ?_
  refine ensures_option fun extent hextent => ?_
  refine ensures_option fun extent' hextent' => ?_
  rw [checkPtrAdd_some] at hextent hextent'
  refine ensures_require fun hend => ?_
  refine ensures_option fun byteCnt hbyteCnt => ?_
  rw [checkMul_some] at hbyteCnt
  exact (derefs_ensures (by omega) (by omega)).mono fun _ _ => trivial

theorem readLeaf_ensures : (readLeaf b t marker p).Ensures fun _ => True := by
  have hlast := lastPtr_lt ht
  unfold readLeaf
  split
  · split_ifs <;> trivial
  · refine ensures_option fun q hq => ?_
    rw [checkPtrAdd_some] at hq
    refine ensures_option fun extent hextent => ?_
    rw [checkPtrAdd_some] at hextent
    refine ensures_require fun hend => ?_
    refine ensures_require fun _ => ?_
    exact ensures_bind (derefs_ensures (by omega) (by omega)) fun _ _ => trivial
  · split_ifs
    · exact ensures_bind (readFixed_ensures ht hp 4) fun _ _ => trivial
    · exact ensures_bind (readFixed_ensures ht hp 8) fun _ _ => trivial
    · trivial
  · split_ifs
    · exact ensures_bind (readFixed_ensures ht hp 8) fun _ _ => trivial
    · trivial
  · exact ensures_bind (counted_ensures ht marker hp hp') fun _ _ => trivial
  · exact ensures_bind (counted_ensures ht marker hp hp') fun _ _ => trivial
  · exact ensures_bind (units_ensures ht marker hp hp') fun _ _ => trivial
  · refine ensures_bind (readFixed_ensures ht hp _) fun _ _ => ?_
    exact ensures_require fun _ => trivial
  · trivial

theorem readContainer_ensures : (readContainer b t marker p).Ensures fun _ => True := by
  refine ensures_bind (readCount_ensures ht marker hp hp') fun r hr => ?_
  refine ensures_option fun cnt' _ => ?_
  refine ensures_option fun byteCnt _ => ?_
  refine ensures_option fun extent _ => ?_
  refine ensures_require fun _ => ?_
  exact ensures_option fun _ _ => trivial

end

theorem refAt_ensures (p : ℕ) :
    (getOffsetOfRefAt b t p).Ensures fun off => off = maxOffset ∨ off < t.offsetTableOffset := by
  have hlen := ht.length
  have hnine := ht.offsetTableOffset
  unfold getOffsetOfRefAt
  rw [ptr_eq (by omega), ptr_eq (by omega)]
  split_ifs with hout
  · exact ensures_ok (.inl rfl)
  · refine ensures_bind (derefs_ensures (by omega) (by omega)) fun ref _ => ?_
    split_ifs with hnum
    · exact ensures_ok (.inl rfl)
    · have hentry : t.offsetTableOffset + bigEndian ref * t.offsetIntSize + t.offsetIntSize ≤
          b.bytes.length := by
        have hle := Nat.mul_le_mul_right t.offsetIntSize (not_le.mp hnum)
        rw [Nat.succ_mul] at hle
        omega
      rw [ptr_eq (by omega), derefs_eq hentry, ok_bind]
      exact ensures_ok (.inr (ht.offset_lt _ (not_le.mp hnum)))

end

end Hexley.Cf.BinaryPlist
