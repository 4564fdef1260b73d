import Hexley.Launchd.Layout

/-!
Unpacking what was packed.

The decoder turns the wire form of an object into the form of its machine,
in place. The induction follows the tree. For one object it says that the
offset moves by the packed size, that the descriptors of the object are
taken from the list in order, and that no other byte changes; the loop over
the children adds that the slots below the children lead to them.

`Represents` is what the callers of the decoder see of the result: it
follows the pointers and does not know where the children lie.
-/

namespace Hexley.Launchd

open Lib Mem Endian Set LaidOutAll Host UnpackState List

/-! ### Reading fields of the wire form -/

section Fields

variable {h : Host} {m : Mem} {o : ℕ}

theorem typeAt_of_laidOut {d : LaunchData} (hd : LaidOut .wire m o d) :
    typeAt m o = some d.type := by
  unfold LaidOut at hd
  have hread : m.read o 8 = big.bytes 8 d.type.code := hd.1
  rw [typeAt, hread, val_bytes_of _ d.type.code_lt, DataType.ofCode_code]

theorem countAt_of_read {n : ℕ} (hn : n < h.modulus)
    (hread : m.read (o + countField) 8 = big.bytes 8 n) : countAt h m o = n := by
  have h8 : n < 256 ^ 8 := by rcases h.modulus_eq with hm | hm <;> omega
  rw [countAt, hread, val_bytes_of _ h8, wrap_of_lt hn]

/-- The descriptor that stands for none has the same bytes in both orders,
and no other has. -/
theorem bytes_noFd (e : Endian) (n : UInt32) :
    big.bytes 4 n.toNat = e.bytes 4 noFd.toNat ↔ n = noFd := by
  have hsame : e.bytes 4 noFd.toNat = big.bytes 4 noFd.toNat := by cases e <;> decide
  rw [hsame]
  constructor
  · intro heq
    have hval := congrArg big.val heq
    rw [val_bytes_of _ n.toNat_lt, val_bytes_of _ noFd.toNat_lt] at hval
    exact UInt32.toNat_inj.mp hval
  · rintro rfl
    rfl

end Fields

/-! ### One object and its children -/

/-- Decoding moves the offset by `size` and uses up the descriptors `fds`. -/
structure Advances (size : ℕ) (fds : List UInt32) (s s' : UnpackState) : Prop where
  dataOffset_eq : s'.dataOffset = s.dataOffset + size
  fdOffset_eq : s'.fdOffset = s.fdOffset + fds.length

section Unpack

variable {h : Host} {size : ℕ} {fds : List UInt32}

theorem read_rewritten (m : Mem) (e : Endian) (o n v t : ℕ) :
    ((m.write (o + valueField) (e.bytes n v)).write o (e.bytes 8 t)).read o 8 = e.bytes 8 t ∧
      ((m.write (o + valueField) (e.bytes n v)).write o (e.bytes 8 t)).read (o + valueField) n =
        e.bytes n v := by
  constructor
  · exact read_write ..
  · rw [read_write_off _ (.inr (by simp [valueField])), Endian.read_write ..]

theorem rewritten_eqOn (m : Mem) (e : Endian) {o n v t : ℕ} (hn : n ≤ 8)
    (hsize : sizeofData ≤ size) :
    EqOn ((m.write (o + valueField) (e.bytes n v)).write o (e.bytes 8 t)) m
      (Set.Ico o (o + size))ᶜ := by
  simp only [sizeofData] at hsize
  refine (write_compl _ le_rfl ?_).trans (write_compl _ (by omega) ?_)
  · simp only [length_bytes]
    omega
  · simp only [length_bytes, valueField]
    omega

theorem unpackBlob_laidOut (hfit : h.base + size ≤ h.modulus) {s : UnpackState} {t : DataType}
    {o cnt need pad : ℕ} (hoff : s.dataOffset = o + sizeofData) (hneed : need ≤ pad)
    (hsize : o + sizeofData + pad ≤ size) :
    ∃ s', unpackBlob h size o t cnt need pad s = .ok (some o, s') ∧
      s'.dataOffset = o + (sizeofData + pad) ∧ s'.fdOffset = s.fdOffset ∧
      s'.data.read o 8 = h.order.bytes 8 t.code ∧
      s'.data.read (o + valueField) h.word = h.pointer (some (o + sizeofData)) ∧
      s'.data.read (o + countField) 8 = h.order.bytes 8 cnt ∧
      s'.data.read (o + sizeofData) need = s.data.read (o + sizeofData) need ∧
      EqOn s'.data s.data (Set.Ico o (o + (sizeofData + pad)))ᶜ := by
  have hb := h.base_ge
  have hw := h.word_le
  have hsz : sizeofData = 24 := rfl
  rw [unpackBlob, sub_of_le (by omega) (by omega), if_neg (by omega), wrap_of_lt (by omega), hoff]
  refine ⟨_, rfl, ?_, rfl, read_write .., ?_, ?_, ?_, ?_⟩
  · simp only [store_dataOffset, moveTo_dataOffset]
    omega
  · exact (read_write_off _ (.inr (by simp [valueField]))).trans
      ((read_write_off _ (.inl (by simp only [valueField, countField]; omega))).trans
        (read_write_len (h.length_pointer _)))
  · exact (read_write_off _ (.inr (by simp [countField]))).trans (read_write ..)
  · refine (read_write_off _ (.inr ?_)).trans
      ((read_write_off _ (.inr ?_)).trans (read_write_off _ (.inr ?_))) <;>
      simp only [length_bytes, length_pointer, countField, valueField] <;> omega
  · refine (write_compl _ le_rfl ?_).trans ((write_compl _ ?_ ?_).trans (write_compl _ ?_ ?_)) <;>
      simp only [length_bytes, length_pointer, countField, valueField] <;> omega

theorem round_of_le (hfit : h.base + size ≤ h.modulus) {o x : ℕ}
    (hle : o + (sizeofData + roundTo64BitWordSize x) ≤ size) :
    x ≤ roundTo64BitWordSize x ∧ h.wrap x = x ∧ h.round x = roundTo64BitWordSize x := by
  have hx := le_roundTo64 x
  have hb := h.base_ge
  have hwrap : h.wrap x = x := wrap_of_lt (by omega)
  exact ⟨hx, hwrap, by rw [Host.round_eq (by omega), hwrap]⟩

theorem drop_add_length {l a b : List UInt32} {k : ℕ} (hl : l.drop k = a ++ b) :
    l.drop (k + a.length) = b := by
  rw [← drop_drop, hl, drop_left]

/-- A descriptor: `-1` stays, any other is replaced by the next one received. -/
theorem unpackScalar_fd {s : UnpackState} {o : ℕ} {n : UInt32} {rest : List UInt32}
    (hread : s.data.read (o + valueField) 4 = big.bytes 4 n.toNat)
    (hfds : fds.drop s.fdOffset = emitted (.fd n) ++ rest) :
    unpackScalar h fds o .fd s = s ∧ n = noFd ∨
      unpackScalar h fds o .fd s = { s.store (o + valueField) (h.order.bytes 4 n.toNat) with
        fdOffset := s.fdOffset + 1 } ∧ n ≠ noFd := by
  by_cases hn : n = noFd
  · refine .inl ⟨?_, hn⟩
    simp only [unpackScalar, hread]
    rw [if_neg (not_not.mpr ((bytes_noFd h.order n).mpr hn))]
  · refine .inr ⟨?_, hn⟩
    have hnext : fds[s.fdOffset]? = some n := by
      rw [emitted, if_neg hn] at hfds
      simpa using congrArg head? hfds
    simp only [unpackScalar, hread, hnext]
    rw [if_pos (mt (bytes_noFd h.order n).mp hn)]

/-- The state in which the children of a container with `n` children are
read. -/
def containerState (h : Host) (s : UnpackState) (n : ℕ) : UnpackState :=
  (s.store (s.dataOffset + valueField) (h.pointer (some (s.dataOffset + sizeofData)))).moveTo
    (s.dataOffset + sizeofData + n * 8)

theorem container_dataOffset (h : Host) (s : UnpackState) (n : ℕ) :
    (containerState h s n).dataOffset = s.dataOffset + sizeofData + n * 8 := rfl

theorem containerState_eqOn (h : Host) (s : UnpackState) (n : ℕ) :
    EqOn (containerState h s n).data s.data
      (Set.Ico s.dataOffset (s.dataOffset + sizeofData))ᶜ := by
  have hw := h.word_le
  refine write_compl _ (by omega) ?_
  simp only [length_pointer, valueField, sizeofData]
  omega

theorem container_ret (hfit : h.base + size ≤ h.modulus) {fuel n len : ℕ}
    {t : DataType} {s s₁ : UnpackState} (hdr : s.dataOffset + sizeofData ≤ size)
    (ht : typeAt s.data s.dataOffset = some t) (hc : t.isContainer = true)
    (hcnt : countAt h s.data s.dataOffset = n)
    (hroom : s.dataOffset + sizeofData + n * 8 ≤ size)
    (hrun : unpackElems h size fds fuel (s.dataOffset + sizeofData) n 0
      (containerState h s n) = .ok (true, s₁)) (hframe : EqOn s₁.data (containerState h s n).data
      (Set.Ico (s.dataOffset + sizeofData + 0 * h.word) (s.dataOffset + sizeofData + n * 8) ∪
        Set.Ico (s.dataOffset + sizeofData + n * 8) len)ᶜ) :
    ∃ s', unpackFrom h size fds (fuel + 1) s = .ok (some s.dataOffset, s') ∧
      s'.dataOffset = s₁.dataOffset ∧ s'.fdOffset = s₁.fdOffset ∧
      s'.data.read s.dataOffset 8 = h.order.bytes 8 t.code ∧
      s'.data.read (s.dataOffset + valueField) h.word =
        h.pointer (some (s.dataOffset + sizeofData)) ∧
      s'.data.read (s.dataOffset + countField) 8 = h.order.bytes 8 n ∧
      EqOn s'.data s₁.data (Set.Ico s.dataOffset (s.dataOffset + sizeofData))ᶜ := by
  have hw := h.word_le
  have hb := h.base_ge
  have hwrap : h.wrap (n * 8) = n * 8 := wrap_of_lt (by omega)
  have hdem := demand_container (h := h) hc n
  have hskip := skip_container (h := h) hc n
  rw [unpack_container hfit hdr ht hc (by rw [hcnt, hdem, hwrap]; exact hroom), hcnt, hskip, hwrap]
  rw [containerState] at hrun
  rw [hrun]
  refine ⟨_, rfl, rfl, rfl, ?_, ?_, ?_, ?_⟩
  · exact read_write ..
  · refine (read_write_off _ (.inr (by simp [valueField]))).trans
      ((read_write_off _ (.inl ?_)).trans ((read_congr (hframe.mono fun a ha => ?_)).trans
        (read_write_len (h.length_pointer _))))
    · simp only [valueField, countField]
      omega
    · simp only [valueField, sizeofData, mem_compl_iff, mem_union, mem_Ico] at ha ⊢
      omega
  · exact (read_write_off _ (.inr (by simp [countField]))).trans (read_write ..)
  · refine (write_compl _ le_rfl ?_).trans (write_compl _ (by omega) ?_) <;>
      simp only [length_bytes, countField, sizeofData] <;> omega

mutual
theorem unpack_laidOut (d : LaunchData) (hfit : h.base + size ≤ h.modulus) {fuel : ℕ}
    {s : UnpackState} {rest : List UInt32} (hd : LaidOut .wire s.data s.dataOffset d)
    (hsize : s.dataOffset + packedSize d ≤ size) (hfds : fds.drop s.fdOffset = emitted d ++ rest)
    (hfuel : size - s.dataOffset + 2 ≤ fuel) :
    ∃ s', unpackFrom h size fds fuel s = .ok (some s.dataOffset, s') ∧
      Advances (packedSize d) (emitted d) s s' ∧ LaidOut (.host h) s'.data s.dataOffset d ∧
      EqOn s'.data s.data (Set.Ico s.dataOffset (s.dataOffset + packedSize d))ᶜ := by
  have hb := h.base_ge
  have hge := packedSize_ge d
  have htype := typeAt_of_laidOut hd
  have hdr : s.dataOffset + sizeofData ≤ size := by omega
  rcases fuel with _ | fuel
  · omega
  cases d with
  | integer n =>
    have hv : s.data.read (s.dataOffset + valueField) 8 = big.bytes 8 n.toNat := hd.2
    have hn : n.toNat < 256 ^ 8 := n.toNat_lt
    rw [unpack_plain hfit hdr htype rfl]
    simp only [unpackPlain, unpackScalar, LaunchData.type, moveTo_data, hv, val_bytes_of _ hn]
    exact ⟨_, rfl, ⟨rfl, rfl⟩, read_rewritten _ _ _ _ _ _, rewritten_eqOn _ _ le_rfl hge⟩
  | bool n | errno n =>
    have hv : s.data.read (s.dataOffset + valueField) 4 = big.bytes 4 n.toNat := hd.2
    have hn : n.toNat < 256 ^ 4 := n.toNat_lt
    rw [unpack_plain hfit hdr htype rfl]
    simp only [unpackPlain, unpackScalar, LaunchData.type, moveTo_data, hv, val_bytes_of _ hn]
    exact ⟨_, rfl, ⟨rfl, rfl⟩, read_rewritten _ _ _ _ _ _, rewritten_eqOn _ _ (by omega) hge⟩
  | real x =>
    rw [unpack_plain hfit hdr htype rfl]
    exact ⟨_, rfl, ⟨rfl, rfl⟩, ⟨(read_rewritten _ _ _ _ _ _).1, trivial⟩,
      rewritten_eqOn _ _ le_rfl hge⟩
  | machport n =>
    rw [unpack_plain hfit hdr htype rfl]
    refine ⟨_, rfl, ⟨rfl, rfl⟩, ⟨read_write .., trivial⟩, ?_⟩
    exact write_compl _ le_rfl (by simp [packedSize, sizeofData])
  | fd n =>
    have hv : s.data.read (s.dataOffset + valueField) 4 = big.bytes 4 n.toNat := hd.2
    rw [unpack_plain hfit hdr htype rfl]
    simp only [unpackPlain, LaunchData.type]
    rcases unpackScalar_fd (h := h) (s := s.moveTo (s.dataOffset + sizeofData)) hv hfds with
      ⟨hsc, hn⟩ | ⟨hsc, hn⟩
    · rw [hsc]
      refine ⟨_, rfl, ⟨rfl, by simp [emitted, hn]⟩, ⟨?_, ?_⟩, ?_⟩
      · exact read_write ..
      · refine (read_write_off _ (.inr (by simp [valueField]))).trans (hv.trans ?_)
        rw [hn]
        exact (bytes_noFd h.order noFd).mpr rfl
      · exact write_compl _ le_rfl (by simp [packedSize, sizeofData])
    · rw [hsc]
      exact ⟨_, rfl, ⟨rfl, by simp [emitted, hn]⟩, read_rewritten _ _ _ _ _ _,
        rewritten_eqOn _ _ (by omega) hge⟩
  | string c | opaqueData c =>
    obtain ⟨-, -, hc, hbytes⟩ := hd
    simp only [packedSize] at hsize
    obtain ⟨hround, hwrap, hpad⟩ := round_of_le hfit hsize
    rw [unpack_plain hfit hdr htype rfl, countAt_of_read (by omega) hc]
    simp only [unpackPlain, LaunchData.type, hpad, hwrap]
    obtain ⟨s', hrun, hoff, hfd, hty, hptr, hcnt, hpay, hframe⟩ :=
      unpackBlob_laidOut (s := s.moveTo (s.dataOffset + sizeofData)) hfit rfl hround (by omega)
    exact ⟨s', hrun, ⟨hoff, hfd⟩, ⟨hty, hptr, hcnt, hpay.trans hbytes⟩, hframe⟩
  | dictionary ds | array ds =>
    obtain ⟨-, -, hc, hall⟩ := hd
    simp only [packedSize, sizeofData] at hsize
    have hcnt : countAt h s.data s.dataOffset = ds.length := countAt_of_read (by omega) hc
    have hoff := container_dataOffset h s ds.length
    have hframe := containerState_eqOn h s ds.length
    have hall₀ := congr hall (hframe.mono fun a ha => by
      simp only [sizeofData, mem_compl_iff, mem_union, mem_Ico] at ha ⊢
      omega)
    simp only [sizeofData] at hoff
    obtain ⟨s₁, hrun, hadv, hlaid, hframe₁⟩ := unpackElems_laidOut ds hfit
      (s.dataOffset + sizeofData) (i := 0) (zero_add _)
      (by simp only [sizeofData]; omega) hall₀ (by omega) hfds
      (by omega : size - (containerState h s ds.length).dataOffset + 3 ≤ fuel)
    obtain ⟨s', hrun', hoff', hfd', hty, hptr, hcount, hframe'⟩ :=
      container_ret hfit hdr htype (by rfl) hcnt (by simp only [sizeofData]; omega) hrun hframe₁
    refine ⟨s', hrun', ⟨?_, ?_⟩, ⟨hty, hptr, hcount, ?_⟩, ?_⟩
    · rw [hoff', hadv.dataOffset_eq, hoff, packedSize, sizeofData]
      omega
    · exact hfd'.trans hadv.fdOffset_eq
    · rw [zero_mul] at hlaid
      refine congr hlaid (hframe'.mono fun a ha => ?_)
      simp only [sizeofData, mem_compl_iff, mem_union, mem_Ico] at ha ⊢
      omega
    · refine (hframe'.mono fun a ha => ?_).trans
        ((hframe₁.mono fun a ha => ?_).trans (hframe.mono fun a ha => ?_)) <;>
        simp only [hoff, packedSize, sizeofData, mem_compl_iff, mem_union,
          mem_Ico] at ha ⊢ <;> omega

theorem unpackElems_laidOut (ds : List LaunchData) (hfit : h.base + size ≤ h.modulus) (arr : ℕ)
    {fuel cnt i : ℕ} {s : UnpackState} {rest : List UInt32} (hi : i + ds.length = cnt)
    (hslots : arr + cnt * 8 ≤ s.dataOffset) (hds : LaidOutAll .wire s.data arr s.dataOffset ds)
    (hsize : s.dataOffset + packedSizes ds ≤ size)
    (hfds : fds.drop s.fdOffset = emittedAll ds ++ rest) (hfuel : size - s.dataOffset + 3 ≤ fuel) :
    ∃ s', unpackElems h size fds fuel arr cnt i s = .ok (true, s') ∧
      Advances (packedSizes ds) (emittedAll ds) s s' ∧
      LaidOutAll (.host h) s'.data (arr + i * h.word) s.dataOffset ds ∧
      EqOn s'.data s.data (Set.Ico (arr + i * h.word) (arr + cnt * 8) ∪
        Set.Ico s.dataOffset (s.dataOffset + packedSizes ds))ᶜ := by
  have hw := h.word_le
  cases ds with
  | nil =>
    rw [unpackElems.eq_def, if_neg (by simp at hi; omega)]
    exact ⟨s, rfl, ⟨rfl, rfl⟩, trivial, fun _ _ => rfl⟩
  | cons d ds =>
    obtain ⟨-, hd, hall⟩ := hds
    have hge := packedSize_ge d
    have hiw : i * h.word ≤ i * 8 := Nat.mul_le_mul_left i hw
    simp only [packedSizes, emittedAll, length_cons, append_assoc, sizeofData] at hsize hfds hi hge
    rcases fuel with _ | fuel
    · omega
    obtain ⟨s₁, hrun, hadv, hlaid, hframe⟩ :=
      unpack_laidOut d hfit hd (by omega) hfds (by omega : size - s.dataOffset + 2 ≤ fuel)
    have hoff := hadv.dataOffset_eq
    rw [unpackElems, if_pos (by omega), hrun]
    simp only [Outcome.andThen]
    rw [if_neg (by omega)]
    set s₂ := s₁.store (arr + i * h.word) (h.pointer (some s.dataOffset)) with hs₂
    have hoff₂ : s₂.dataOffset = s.dataOffset + packedSize d := hoff
    have hstore : EqOn s₂.data s₁.data (Set.Ico (arr + i * h.word) (arr + cnt * 8))ᶜ := by
      refine write_eqOn _ fun a ha => ?_
      simp only [mem_compl_iff, mem_Ico, length_pointer] at ha ⊢
      omega
    have hall₂ : LaidOutAll .wire s₂.data arr s₂.dataOffset ds := by
      rw [hoff₂]
      refine (congr (hall.wire_slot (s.dataOffset + packedSize d))
        ((hstore.mono fun a ha => ?_).trans (hframe.mono fun a ha => ?_))).wire_slot arr <;>
        simp only [mem_compl_iff, mem_union, mem_Ico] at ha ⊢ <;> omega
    obtain ⟨s₃, hrun₃, hadv₃, hlaid₃, hframe₃⟩ := unpackElems_laidOut ds hfit arr
      (i := i + 1) (s := s₂) (show i + 1 + ds.length = cnt by omega) (by omega) hall₂ (by omega)
      (by rw [← drop_add_length hfds, ← hadv.fdOffset_eq]; rfl)
      (by omega : size - s₂.dataOffset + 3 ≤ fuel)
    have hnext : arr + (i + 1) * h.word = arr + i * h.word + h.word := by
      rw [Nat.succ_mul]
      omega
    rw [hnext, hoff₂] at hlaid₃ hframe₃
    refine ⟨s₃, hrun₃, ⟨?_, ?_⟩, ⟨?_, ?_, hlaid₃⟩, ?_⟩
    · rw [hadv₃.dataOffset_eq, hoff₂, packedSizes, add_assoc]
    · rw [hadv₃.fdOffset_eq, show s₂.fdOffset = s₁.fdOffset from rfl, hadv.fdOffset_eq, emittedAll,
        length_append, add_assoc]
    · refine (read_congr (hframe₃.mono fun a ha => ?_)).trans (read_write_len (h.length_pointer _))
      simp only [mem_compl_iff, mem_union, mem_Ico] at ha ⊢
      omega
    · refine LaidOut.congr hlaid
        ((hframe₃.mono fun a ha => ?_).trans (hstore.mono fun a ha => ?_)) <;>
        simp only [mem_compl_iff, mem_union, mem_Ico] at ha ⊢ <;> omega
    · refine (hframe₃.mono fun a ha => ?_).trans
        ((hstore.mono fun a ha => ?_).trans (hframe.mono fun a ha => ?_)) <;>
        simp only [packedSizes, mem_compl_iff, mem_union, mem_Ico] at ha ⊢ <;> omega
end

end Unpack

/-! ### The tree that a caller sees -/

def pointerAt (h : Host) (m : Mem) (p : ℕ) : ℕ := h.order.val (m.read p h.word) - h.base

mutual
def Represents (h : Host) (m : Mem) (p : ℕ) (d : LaunchData) : Prop :=
  h.order.val (m.read p 8) = d.type.code ∧
    match d with
    | .integer n | .real n => h.order.val (m.read (p + valueField) 8) = n.toNat
    | .bool n | .errno n | .machport n | .fd n => h.order.val (m.read (p + valueField) 4) = n.toNat
    | .string c =>
      h.order.val (m.read (p + countField) 8) = c.bytes.length ∧
        m.read (pointerAt h m (p + valueField)) (c.bytes.length + 1) = c.bytes ++ [0]
    | .opaqueData bs =>
      h.order.val (m.read (p + countField) 8) = bs.length ∧
        m.read (pointerAt h m (p + valueField)) bs.length = bs
    | .dictionary ds | .array ds =>
      h.order.val (m.read (p + countField) 8) = ds.length ∧
        RepresentsAll h m (pointerAt h m (p + valueField)) ds

def RepresentsAll (h : Host) (m : Mem) (slot : ℕ) (ds : List LaunchData) : Prop :=
  match ds with
  | [] => True
  | d :: ds => Represents h m (pointerAt h m slot) d ∧ RepresentsAll h m (slot + h.word) ds
end

theorem pointerAt_of_link {h : Host} {m : Mem} {p q : ℕ} (hq : h.base + q < h.modulus)
    (hl : Form.Link (.host h) m p q) : pointerAt h m p = q := by
  have hread : m.read p h.word = h.order.bytes h.word (h.base + q) := hl
  rw [pointerAt, hread, val_bytes_of _ hq, Nat.add_sub_cancel_left]

mutual
/-- An object is carried in full if there is no real in it, whose value goes
through two floating-point conversions, and no Mach port, which is not
packed. -/
def LaunchData.Carried : LaunchData → Prop
  | .dictionary ds | .array ds => CarriedAll ds
  | .real _ | .machport _ => False
  | .fd _ | .integer _ | .bool _ | .string _ | .opaqueData _ | .errno _ => True

def CarriedAll : List LaunchData → Prop
  | [] => True
  | d :: ds => d.Carried ∧ CarriedAll ds
end

mutual
theorem LaidOut.represents {h : Host} {m : Mem} {o : ℕ} {d : LaunchData} (hcar : d.Carried)
    (hd : LaidOut (.host h) m o d) (hfit : h.base + o + packedSize d ≤ h.modulus) :
    Represents h m o d := by
  have h64 : h.modulus ≤ 256 ^ 8 := by rcases h.modulus_eq with hm | hm <;> omega
  unfold LaidOut at hd
  unfold Represents
  refine ⟨by rw [hd.1]; exact val_bytes_of _ d.type.code_lt, ?_⟩
  cases d with
  | real n | machport n => exact hcar.elim
  | integer n | bool n | errno n | fd n => exact (congrArg _ hd.2).trans (val_bytes_of _ n.toNat_lt)
  | string c =>
    obtain ⟨-, hl, hc, hbytes⟩ := hd
    have hround := le_roundTo64 (c.bytes.length + 1)
    simp only [packedSize, sizeofData] at hfit hl
    refine ⟨(congrArg _ hc).trans (val_bytes_of _ (by omega)), ?_⟩
    rw [pointerAt_of_link (by omega) hl]
    exact hbytes
  | opaqueData bs =>
    obtain ⟨-, hl, hc, hbytes⟩ := hd
    have hround := le_roundTo64 bs.length
    simp only [packedSize, sizeofData] at hfit hl
    refine ⟨(congrArg _ hc).trans (val_bytes_of _ (by omega)), ?_⟩
    -- Where there is no payload its address may be one past the last.
    rcases eq_zero_or_pos bs.length with hzero | hpos
    · rw [length_eq_zero_iff.mp hzero]
      rfl
    · rw [pointerAt_of_link (by omega) hl]
      exact hbytes
  | dictionary ds | array ds =>
    obtain ⟨-, hl, hc, hall⟩ := hd
    have hsizes := packedSizes_ge ds
    simp only [packedSize, sizeofData] at hfit hl hall hsizes
    refine ⟨(congrArg _ hc).trans (val_bytes_of _ (by omega)), ?_⟩
    rcases eq_zero_or_pos ds.length with hzero | hpos
    · rw [length_eq_zero_iff.mp hzero]
      trivial
    · rw [pointerAt_of_link (by omega) hl]
      exact LaidOutAll.represents hcar hall (by omega)

theorem LaidOutAll.represents {h : Host} {m : Mem} {slot o : ℕ} {ds : List LaunchData}
    (hcar : CarriedAll ds) (hds : LaidOutAll (.host h) m slot o ds)
    (hfit : h.base + o + packedSizes ds ≤ h.modulus) :
    RepresentsAll h m slot ds := by
  cases ds with
  | nil => trivial
  | cons d ds =>
    obtain ⟨hl, hd, hall⟩ := hds
    have hge := packedSize_ge d
    simp only [packedSizes, sizeofData] at hfit hge
    refine ⟨?_, LaidOutAll.represents hcar.2 hall (by omega)⟩
    rw [pointerAt_of_link (by omega) hl]
    exact LaidOut.represents hcar.1 hd (by omega)
end

mutual
theorem laidOut_drop_iff {m : Mem} {p o : ℕ} {d : LaunchData} :
    LaidOut .wire (m.drop p) o d ↔ LaidOut .wire m (p + o) d := by
  unfold LaidOut
  simp only [read_drop, ← add_assoc]
  refine and_congr_right fun _ => ?_
  cases d with
  | dictionary ds | array ds =>
    refine and_congr_right fun _ => and_congr_right fun _ => ?_
    rw [laidOutAll_drop_iff, add_assoc p, add_assoc p]
    exact ⟨fun hall => hall.wire_slot _, fun hall => hall.wire_slot _⟩
  | _ => exact Iff.rfl

theorem laidOutAll_drop_iff {m : Mem} {p slot o : ℕ} {ds : List LaunchData} :
    LaidOutAll .wire (m.drop p) slot o ds ↔ LaidOutAll .wire m slot (p + o) ds := by
  cases ds with
  | nil => exact Iff.rfl
  | cons d ds =>
    rw [LaidOutAll, LaidOutAll, add_assoc]
    exact and_congr_right fun _ => and_congr laidOut_drop_iff laidOutAll_drop_iff
end

/-- Packing returns zero or a size within the buffer. In the second case
unpacking the packed bytes, on any machine that has a place for them, gives
the tree back, stops at the end of the bytes, and takes exactly the
descriptors that packing collected. -/
theorem launchDataUnpack_launchDataPack (h : Host) (d : LaunchData) (hcar : d.Carried)
    (hres : d.Resident h) (len : ℕ) (hlen : len < h.modulus) (dst : ℕ) (buf : Mem)
    (fds : List UInt32) :
    (launchDataPack h d dst len ⟨buf, some fds⟩).1 = 0 ∨
      (launchDataPack h d dst len ⟨buf, some fds⟩).1 ≤ len ∧
      ∃ sent, (launchDataPack h d dst len ⟨buf, some fds⟩).2.fds = some (fds ++ sent) ∧
        ∀ h' : Host, h'.base + (launchDataPack h d dst len ⟨buf, some fds⟩).1 ≤ h'.modulus →
          ∃ s', launchDataUnpack h' ((launchDataPack h d dst len ⟨buf, some fds⟩).2.buf.drop dst)
              (launchDataPack h d dst len ⟨buf, some fds⟩).1 (fds ++ sent) 0 fds.length =
                .ok (some 0, s') ∧ s'.dataOffset = (launchDataPack h d dst len ⟨buf, some fds⟩).1 ∧
            s'.fdOffset = (fds ++ sent).length ∧ Represents h' s'.data 0 d := by
  rcases pack_fst d hres hlen dst ⟨buf, some fds⟩ with ⟨hroom, hsize⟩ | ⟨-, hzero⟩
  swap
  · exact .inl hzero
  obtain ⟨hlaid, -, hfds⟩ := pack_laidOut d hres hlen dst ⟨buf, some fds⟩ hroom
  rw [hsize]
  refine .inr ⟨hroom, emitted d, hfds, fun h' hfit => ?_⟩
  have hwire : LaidOut .wire
      (Mem.drop (launchDataPack h d dst len ⟨buf, some fds⟩).2.buf dst) 0 d :=
        laidOut_drop_iff.mpr hlaid
  obtain ⟨s', hrun, hadv, hlaid', -⟩ := unpack_laidOut d hfit (s := ⟨_, 0, fds.length⟩) hwire
    (zero_add _).le (show (fds ++ emitted d).drop fds.length = emitted d ++ [] by simp)
    (show packedSize d - 0 + 2 ≤ packedSize d + 2 by omega)
  refine ⟨s', hrun, ?_, ?_, hlaid'.represents hcar (by simpa using hfit)⟩
  · simpa using hadv.dataOffset_eq
  · simpa using hadv.fdOffset_eq

/-- A dictionary with one descriptor makes the trip. -/
theorem launchDataUnpack_launchDataPack_dictionary :
    ∃ sent s', (launchDataPack (littleHost 8 (.inr rfl))
        (.dictionary [.string ⟨[0x73], by decide⟩, .fd 5]) 0 200
        ⟨Mem.ofList [], some []⟩).2.fds = some ([] ++ sent) ∧
      launchDataUnpack (littleHost 4 (.inl rfl)) (Mem.drop (launchDataPack (littleHost 8 (.inr rfl))
          (.dictionary [.string ⟨[0x73], by decide⟩, .fd 5]) 0 200
          ⟨Mem.ofList [], some []⟩).2.buf 0) (launchDataPack (littleHost 8 (.inr rfl))
          (.dictionary [.string ⟨[0x73], by decide⟩, .fd 5]) 0 200
          ⟨Mem.ofList [], some []⟩).1 ([] ++ sent) 0 0 = .ok (some 0, s') ∧
      Represents (littleHost 4 (.inl rfl)) s'.data 0
        (.dictionary [.string ⟨[0x73], by decide⟩, .fd 5]) := by
  have hres : LaunchData.Resident (littleHost 8 (.inr rfl))
      (.dictionary [.string ⟨[0x73], by decide⟩, .fd 5]) :=
    ⟨show 1 + 1 + sizeofData + 8 ≤ 256 ^ 8 by decide, trivial, trivial⟩
  have hcar : LaunchData.Carried (.dictionary [.string ⟨[0x73], by decide⟩, .fd 5]) :=
    ⟨trivial, trivial, trivial⟩
  obtain ⟨-, sent, hfds, hunpack⟩ := (launchDataUnpack_launchDataPack (littleHost 8 (.inr rfl)) _
    hcar hres 200 (by decide) 0 (Mem.ofList []) []).resolve_left (by decide +kernel)
  obtain ⟨s', hrun, -, -, hrep⟩ := hunpack (littleHost 4 (.inl rfl)) (by decide +kernel)
  exact ⟨sent, s', hfds, hrun, hrep⟩

end Hexley.Launchd
