import Hexley.Cf.BinaryPlist.Flatten
import Hexley.Cf.BinaryPlist.Bounds
import Hexley.Lib.Segment

/-!
The stream that `__CFBinaryPlistWriteToStream` makes.

Every object is written as its `encode`, and the stream is the header, the
objects one after the other, the offset table and the trailer. The buffer
does not show: what is in the stream and in the buffer together grows by
just the bytes that are written.
-/

namespace Hexley.Cf.BinaryPlist

open Lib List WriteBuffer Endian

/-! ### The buffer -/

namespace WriteBuffer

theorem length_eq (buf : WriteBuffer) : buf.length = buf.bufferFlush.length := by
  rw [bufferFlush, length_append]
  rfl

@[simp] theorem flush_write (buf : WriteBuffer) (bytes : List UInt8) :
    (buf.bufferWrite bytes).bufferFlush = buf.bufferFlush ++ bytes := by
  unfold bufferWrite
  split_ifs with hzero hlong hfull
  · rw [List.length_eq_zero_iff.mp hzero, append_nil]
  · simp only [bufferFlush, append_nil]
  · simp only [bufferFlush, append_assoc, take_append_drop]
  · -- The buffer is not full, so all bytes have been copied.
    have hroom := buf.room
    have hall : bytes.take (buf.copyLen bytes) = bytes := by
      rw [take_eq_self_iff]
      rw [length_append, length_take] at hfull
      unfold copyLen at hfull ⊢
      omega
    simp only [bufferFlush, hall, append_assoc]

end WriteBuffer

/-! ### Objects -/

def encodeInt (n : ℕ) : List UInt8 :=
  UInt8.ofNat (0x10 + intWidth n) :: swappedTail 8 (2 ^ intWidth n) n

variable (buf : WriteBuffer) (marker count : ℕ) (st : FlattenState)

def encodeCount : List UInt8 :=
  countMarker marker count :: if 15 ≤ count then encodeInt count else []

def encodeRefs (refSize : ℕ) (list : List ℕ) : List UInt8 :=
  list.flatMap fun p => swappedTail 4 refSize (st.refOf p)

def Obj.encode (refSize : ℕ) : Obj → List UInt8
  | .string units =>
    if isASCII units then
      encodeCount 0x50 units.length ++ units.map fun u => UInt8.ofNat u.toNat
    else encodeCount 0x60 units.length ++ units.flatMap fun u => big.bytes 2 u.toNat
  | .real32 bits => 0x22 :: big.bytes 4 bits.toNat
  | .real64 bits => 0x23 :: big.bytes 8 bits.toNat
  | .int128 v =>
    0x14 :: (big.bytes 8 (v.toNat / 2 ^ 64) ++ big.bytes 8 (v.toNat % 2 ^ 64))
  | .int v => encodeInt v.toNat
  | .uid v =>
    UInt8.ofNat (0x80 + (2 ^ intWidth v.toNat - 1)) ::
      swappedTail 8 (2 ^ intWidth v.toNat) v.toNat
  | .bool v => [if v then 0x09 else 0x08]
  | .data xs => encodeCount 0x40 xs.length ++ xs
  | .date bits => 0x33 :: big.bytes 8 bits.toNat
  | .dict entries =>
    encodeCount 0xD0 entries.length ++
      encodeRefs st refSize (entries.map Prod.fst ++ entries.map Prod.snd)
  | .array items => encodeCount 0xA0 items.length ++ encodeRefs st refSize items
  | .null => []
  | .set _ => []

def Obj.Writable : Obj → Prop
  | .null => False
  | .set _ => False
  | _ => True

@[simp] theorem bufferFlush_appendInt (n : ℕ) :
    (appendInt buf n).bufferFlush = buf.bufferFlush ++ encodeInt n := by
  unfold appendInt encodeInt
  simp

@[simp] theorem flush_appendCount :
    (appendCount buf marker count).bufferFlush = buf.bufferFlush ++ encodeCount marker count := by
  unfold appendCount encodeCount
  split_ifs <;> simp

variable {refSize n : ℕ}

theorem appendRefs_eq (hsize : refSize ≤ 4) (list : List ℕ) (buf : WriteBuffer) :
    ∃ buf', appendRefs st refSize list buf = .ok buf' ∧
      buf'.bufferFlush = buf.bufferFlush ++ encodeRefs st refSize list := by
  induction list generalizing buf with
  | nil => exact ⟨buf, rfl, (append_nil _).symm⟩
  | cons p list ih =>
    obtain ⟨buf', hrun, hflush⟩ := ih (buf.bufferWrite (swappedTail 4 refSize (st.refOf p)))
    refine ⟨buf', ?_, ?_⟩
    · rw [appendRefs, if_neg (by omega), hrun]
    · rw [hflush, flush_write, append_assoc]
      rfl

theorem writeObject_eq (hsize : refSize ≤ 4) (buf : WriteBuffer) {o : Obj}
    (ho : o.Writable) : ∃ buf', writeObject st refSize buf o = .ok buf' ∧
      buf'.bufferFlush = buf.bufferFlush ++ o.encode st refSize := by
  cases o with
  | null => exact ho.elim
  | set items => exact ho.elim
  | array items =>
    obtain ⟨buf', hrun, hflush⟩ := appendRefs_eq st hsize items (appendCount buf 0xA0 _)
    refine ⟨buf', hrun, ?_⟩
    rw [hflush, flush_appendCount, append_assoc]
    rfl
  | dict entries =>
    obtain ⟨buf', hrun, hflush⟩ := appendRefs_eq st hsize
      (entries.map Prod.fst ++ entries.map Prod.snd) (appendCount buf 0xD0 entries.length)
    refine ⟨buf', hrun, ?_⟩
    rw [hflush, flush_appendCount, append_assoc]
    rfl
  | string units =>
    unfold writeObject Obj.encode
    dsimp only
    split_ifs with hascii
    · exact ⟨_, rfl, by simp⟩
    · exact ⟨_, rfl, by simp⟩
  | uid v => exact ⟨_, rfl, by simp [appendUID, Obj.encode]⟩
  | _ => exact ⟨_, rfl, by simp [Obj.encode]⟩

theorem writeObjects_eq (h : Heap) (st : FlattenState) (hsize : refSize ≤ 4) {list : List ℕ}
    (hlist : ∀ p ∈ list, (h.obj p).Writable) (buf : WriteBuffer) (offsets : List ℕ) :
    ∃ buf', writeObjects h st refSize list buf offsets =
        .ok (buf', offsets ++ (List.range list.length).map fun i =>
          buf.length + startOf (list.map fun p => (h.obj p).encode st refSize) i) ∧
      buf'.bufferFlush =
        buf.bufferFlush ++ (list.map fun p => (h.obj p).encode st refSize).flatten := by
  induction list generalizing buf offsets with
  | nil => exact ⟨buf, by simp [writeObjects], by simp⟩
  | cons p list ih =>
    obtain ⟨buf₁, hrun₁, hflush₁⟩ := writeObject_eq st hsize buf (hlist p mem_cons_self)
    obtain ⟨buf₂, hrun₂, hflush₂⟩ :=
      ih (forall_mem_cons.mp hlist).2 buf₁ (offsets ++ [buf.length])
    have hlength : buf₁.length = buf.length + ((h.obj p).encode st refSize).length := by
      rw [length_eq, length_eq, hflush₁, length_append]
    refine ⟨buf₂, ?_, ?_⟩
    · rw [writeObjects, hrun₁, Outcome.ok_bind, hrun₂, append_assoc, length_cons,
        range_succ_eq_map, map_cons, map_cons, map_map, startOf_zero]
      simp only [singleton_append, add_zero, hlength, Function.comp_def,
        startOf_cons_succ, Nat.succ_eq_add_one, add_assoc]
    · rw [hflush₂, hflush₁, map_cons, flatten_cons, append_assoc]

/-! ### Sizes -/

theorem byteWidth_spec {rounds : ℕ} (hn : n < 256 ^ rounds) :
    byteWidthLoop rounds n ≤ rounds ∧ n < 256 ^ byteWidthLoop rounds n := by
  induction rounds generalizing n with
  | zero => exact ⟨le_rfl, hn⟩
  | succ rounds ih =>
    unfold byteWidthLoop
    split_ifs with hzero
    · subst hzero
      exact ⟨Nat.zero_le _, Nat.one_pos⟩
    · obtain ⟨hle, hlt⟩ := ih (Nat.div_lt_of_lt_mul (by rwa [pow_succ'] at hn))
      refine ⟨Nat.succ_le_succ hle, ?_⟩
      exact (Nat.div_lt_iff_lt_mul (by decide)).mp hlt

theorem byteWidthLoop_le {rounds k : ℕ} (hn : n < 256 ^ k) : byteWidthLoop rounds n ≤ k := by
  induction rounds generalizing n k with
  | zero => exact Nat.zero_le k
  | succ rounds ih =>
    unfold byteWidthLoop
    split_ifs with hzero
    · exact Nat.zero_le k
    · cases k with
      | zero => omega
      | succ k => exact Nat.succ_le_succ (ih (Nat.div_lt_of_lt_mul (by rwa [pow_succ'] at hn)))

theorem byteWidth_pos (hn : n ≠ 0) : 1 ≤ byteWidth n := by
  unfold byteWidth byteWidthLoop
  rw [if_neg hn]
  omega

theorem lt_pow_byteWidth (hn : n < 2 ^ 64) : n < 256 ^ byteWidth n :=
  (byteWidth_spec (show n < 256 ^ 8 from hn)).2

theorem byteWidth_le_eight (hn : n < 2 ^ 64) : byteWidth n ≤ 8 :=
  (byteWidth_spec (show n < 256 ^ 8 from hn)).1

@[simp] theorem length_swapped {size nbytes : ℕ} (h : nbytes ≤ size) (v : ℕ) :
    (swappedTail size nbytes v).length = nbytes := by
  rw [swappedTail, length_drop, length_bytes]
  omega

/-! ### The stream -/

section

variable (h : Heap) (st : FlattenState)

def pieces : List (List UInt8) :=
  st.objlist.map fun p => (h.obj p).encode st (byteWidth st.objlist.length)

def trailerOf : Trailer where
  offsetIntSize := byteWidth (8 + (pieces h st).flatten.length)
  objectRefSize := byteWidth st.objlist.length
  numObjects := st.objlist.length
  topObject := 0
  offsetTableOffset := 8 + (pieces h st).flatten.length

def offsetOf (i : ℕ) : ℕ := 8 + startOf (pieces h st) i

def entries : List (List UInt8) :=
  (List.range st.objlist.length).map fun i =>
    swappedTail 8 (trailerOf h st).offsetIntSize (offsetOf h st i)

def streamOf : List UInt8 :=
  magic00 ++ (pieces h st).flatten ++ (entries h st).flatten ++ (trailerOf h st).bytes

end

theorem foldl_bufferWrite (f : ℕ → List UInt8) (offsets : List ℕ) (buf : WriteBuffer) :
    (offsets.foldl (fun buf off => buf.bufferWrite (f off)) buf).bufferFlush =
      buf.bufferFlush ++ (offsets.map f).flatten := by
  induction offsets generalizing buf with
  | nil => simp
  | cons off offsets ih =>
    rw [foldl_cons, ih, flush_write, append_assoc]
    rfl

theorem writeToStream_eq {cfEqual : Plist → Plist → Bool} {h : Heap} {frames p : ℕ}
    {st : FlattenState} (hflatten : flattenPlist cfEqual h frames p .empty = .ok st)
    (hcount : st.objlist.length < 2 ^ 32) (hw : ∀ q ∈ st.objlist, (h.obj q).Writable) :
    writeToStream cfEqual h frames p = .ok (streamOf h st) := by
  have hsize : byteWidth st.objlist.length ≤ 4 := byteWidthLoop_le hcount
  obtain ⟨buf, hrun, hflush⟩ :=
    writeObjects_eq h st hsize hw (empty.bufferWrite magic00) []
  have hstart : (empty.bufferWrite magic00).length = 8 := by
    rfl
  have hbuf : buf.bufferFlush = magic00 ++ (pieces h st).flatten := by
    rw [hflush, flush_write]
    rfl
  have hlength : buf.length = 8 + (pieces h st).flatten.length := by
    rw [length_eq, hbuf, length_append]
    rfl
  unfold writeToStream
  rw [hflatten, Outcome.ok_bind]
  dsimp only
  rw [hrun, Outcome.ok_bind]
  rw [flush_write, foldl_bufferWrite, hbuf, hlength, hstart, nil_append, map_map]
  rfl

end Hexley.Cf.BinaryPlist
