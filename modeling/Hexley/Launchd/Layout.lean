import Hexley.Launchd.Bounds

/-!
How a `launch_data` object lies in a buffer, and that the packer lays it
out that way.

An object takes `packedSize` bytes and `LaidOut` says what they are, for
two forms of the same bytes: the form in which they are sent, with every
field in network order and the pointers undefined, and the form in which
the decoder leaves them on a machine, with the fields in its byte order and
the pointers filled in. One predicate covers both, so that the facts that
do not depend on the form (chiefly that it is a matter of these bytes only)
are proved once.
-/

namespace Hexley.Launchd

open Lib Mem Endian PackState Set

inductive Form
  | wire
  | host (h : Host)

namespace Form

def order : Form → Endian
  | wire => .big
  | host h => h.order

/-- The distance of two slots of a container. On the wire it does not
matter, since the slots are empty. -/
def word : Form → ℕ
  | wire => 8
  | host h => h.word

def Link (f : Form) (m : Mem) (p q : ℕ) : Prop :=
  match f with
  | wire => True
  | host h => m.read p h.word = h.pointer (some q)

theorem word_le (f : Form) : f.word ≤ 8 := by
  cases f with
  | wire => exact le_refl 8
  | host h => exact h.word_le

theorem Link.congr {f : Form} {m m' : Mem} {p q : ℕ} (hl : f.Link m p q)
    (hm : EqOn m' m (Ico p (p + 8))) : f.Link m' p q := by
  cases f with
  | wire => trivial
  | host h =>
    have hsub : Ico p (p + h.word) ⊆ Ico p (p + 8) :=
      Ico_subset_Ico_right (by have := h.word_le; omega)
    rw [Link, read_congr (hm.mono hsub)]
    exact hl

end Form

mutual
def packedSize : LaunchData → ℕ
  | .dictionary ds | .array ds => sizeofData + ds.length * 8 + packedSizes ds
  | .string c => sizeofData + roundTo64BitWordSize (c.bytes.length + 1)
  | .opaqueData bs => sizeofData + roundTo64BitWordSize bs.length
  | .fd _ | .integer _ | .real _ | .bool _ | .errno _ | .machport _ => sizeofData

def packedSizes : List LaunchData → ℕ
  | [] => 0
  | d :: ds => packedSize d + packedSizes ds
end

mutual
def emitted : LaunchData → List UInt32
  | .dictionary ds | .array ds => emittedAll ds
  | .fd n => if n = noFd then [] else [n]
  | .string _ | .opaqueData _ | .integer _ | .real _ | .bool _ | .errno _ | .machport _ => []

def emittedAll : List LaunchData → List UInt32
  | [] => []
  | d :: ds => emitted d ++ emittedAll ds
end

mutual
/-- The bytes of `m` from `o` on are the object `d` in the form `f`. The
value of a real or of a Mach port does not make the trip, so nothing is
said of it. -/
def LaidOut (f : Form) (m : Mem) (o : ℕ) (d : LaunchData) : Prop :=
  m.read o 8 = f.order.bytes 8 d.type.code ∧
    match d with
    | .integer n => m.read (o + valueField) 8 = f.order.bytes 8 n.toNat
    | .real _ | .machport _ => True
    | .bool n | .errno n | .fd n => m.read (o + valueField) 4 = f.order.bytes 4 n.toNat
    | .string c =>
      f.Link m (o + valueField) (o + sizeofData) ∧
        m.read (o + countField) 8 = f.order.bytes 8 c.bytes.length ∧
        m.read (o + sizeofData) (c.bytes.length + 1) = c.bytes ++ [0]
    | .opaqueData bs =>
      f.Link m (o + valueField) (o + sizeofData) ∧
        m.read (o + countField) 8 = f.order.bytes 8 bs.length ∧
        m.read (o + sizeofData) bs.length = bs
    | .dictionary ds | .array ds =>
      f.Link m (o + valueField) (o + sizeofData) ∧
        m.read (o + countField) 8 = f.order.bytes 8 ds.length ∧
        LaidOutAll f m (o + sizeofData) (o + sizeofData + ds.length * 8) ds

/-- The objects `ds` lie one after the other from `o` on, and the slots from
`slot` on lead to them. -/
def LaidOutAll (f : Form) (m : Mem) (slot o : ℕ) (ds : List LaunchData) : Prop :=
  match ds with
  | [] => True
  | d :: ds =>
    f.Link m slot o ∧ LaidOut f m o d ∧ LaidOutAll f m (slot + f.word) (o + packedSize d) ds
end

theorem packedSize_ge (d : LaunchData) : sizeofData ≤ packedSize d := by
  cases d <;> simp only [packedSize] <;> omega

theorem packedSizes_ge (ds : List LaunchData) : sizeofData * ds.length ≤ packedSizes ds := by
  induction ds with
  | nil => simp
  | cons d ds ih =>
    have hd := packedSize_ge d
    simp only [packedSizes, List.length_cons, Nat.mul_succ]
    omega

theorem payload_le (o x : ℕ) : o + sizeofData + x ≤ o + (sizeofData + roundTo64BitWordSize x) := by
  have := le_roundTo64 x
  omega

mutual
theorem LaidOut.congr {f : Form} {m m' : Mem} {o : ℕ} {d : LaunchData} (hd : LaidOut f m o d)
    (hm : EqOn m' m (Ico o (o + packedSize d))) : LaidOut f m' o d := by
  have hge := packedSize_ge d
  have hread (p n : ℕ) (hp : o ≤ p) (hn : p + n ≤ o + packedSize d) : m'.read p n = m.read p n :=
    read_congr (hm.mono (Ico_subset_Ico hp hn))
  have hlink (p q : ℕ) (hp : o ≤ p) (hn : p + 8 ≤ o + packedSize d) (hl : f.Link m p q) :
      f.Link m' p q := hl.congr (hm.mono (Ico_subset_Ico hp hn))
  simp only [sizeofData] at hge
  unfold LaidOut at hd ⊢
  refine ⟨(hread _ _ (by omega) (by omega)).trans hd.1, ?_⟩
  cases d with
  | real x | machport n => trivial
  | integer n | bool n | errno n | fd n =>
    exact (hread _ _ (by omega) (by simp only [valueField]; omega)).trans hd.2
  | string c | opaqueData c =>
    obtain ⟨-, hl, hc, hb⟩ := hd
    exact ⟨hlink _ _ (by omega) (by simp only [valueField]; omega) hl,
      (hread _ _ (by omega) (by simp only [countField]; omega)).trans hc,
      (hread _ _ (by omega) (payload_le _ _)).trans hb⟩
  | dictionary ds | array ds =>
    obtain ⟨-, hl, hc, hall⟩ := hd
    refine ⟨hlink _ _ (by omega) (by simp only [valueField]; omega) hl,
      (hread _ _ (by omega) (by simp only [countField]; omega)).trans hc,
      LaidOutAll.congr hall (hm.mono fun a ha => ?_)⟩
    simp only [packedSize, sizeofData, mem_union, mem_Ico] at ha ⊢
    omega

theorem LaidOutAll.congr {f : Form} {m m' : Mem} {slot o : ℕ} {ds : List LaunchData}
    (hds : LaidOutAll f m slot o ds)
    (hm : EqOn m' m (Ico slot (slot + ds.length * 8) ∪ Ico o (o + packedSizes ds))) :
    LaidOutAll f m' slot o ds := by
  cases ds with
  | nil => trivial
  | cons d ds =>
    obtain ⟨hl, hd, hall⟩ := hds
    have hw := f.word_le
    simp only [List.length_cons, packedSizes] at hm
    refine ⟨hl.congr (hm.mono fun a ha => ?_), LaidOut.congr hd (hm.mono fun a ha => ?_),
      LaidOutAll.congr hall (hm.mono fun a ha => ?_)⟩
    all_goals
      simp only [mem_union, mem_Ico] at ha ⊢
      omega
end

theorem LaidOutAll.wire_slot {m : Mem} {slot o : ℕ} {ds : List LaunchData}
    (hds : LaidOutAll .wire m slot o ds) (slot' : ℕ) : LaidOutAll .wire m slot' o ds := by
  induction ds generalizing slot slot' o with
  | nil => trivial
  | cons d ds ih =>
    obtain ⟨-, hd, hall⟩ := hds
    exact ⟨trivial, hd, ih hall _⟩

/-! ### Packing -/

mutual
/-- The bytes of every string and of all opaque data have a place in the
memory of the machine, next to the object they belong to and away from the
null address. -/
def LaunchData.Resident (h : Host) : LaunchData → Prop
  | .dictionary ds | .array ds => ResidentAll h ds
  | .string c => c.bytes.length + 1 + sizeofData + 8 ≤ h.modulus
  | .opaqueData bs => bs.length + sizeofData + 8 ≤ h.modulus
  | .fd _ | .integer _ | .real _ | .bool _ | .errno _ | .machport _ => True

def ResidentAll (h : Host) : List LaunchData → Prop
  | [] => True
  | d :: ds => d.Resident h ∧ ResidentAll h ds
end

variable (s : PackState)

@[simp] theorem PackState.pushFd_buf (n : UInt32) : (s.pushFd n).buf = s.buf := by
  unfold pushFd
  split <;> rfl

theorem PackState.pushFd_fds (n : UInt32) :
    (s.pushFd n).fds = s.fds.map (· ++ emitted (.fd n)) := by
  unfold pushFd
  by_cases hn : n = noFd
  · simp [emitted, hn]
  · simp [emitted, hn]

section Pack

variable {h : Host}

theorem wrap_add_round {n : ℕ} (hn : n + sizeofData + 8 ≤ h.modulus) :
    h.wrap (sizeofData + h.round n) = sizeofData + roundTo64BitWordSize n := by
  have hr := roundTo64_le n
  have hw : h.wrap n = n := Host.wrap_of_lt (by omega)
  rw [Host.round_eq (by rw [hw]; simp only [sizeofData] at hn; omega), hw,
    Host.wrap_of_lt (by omega)]

/-- The room for the pointers of a container with `n` children. If it wraps
around, the children alone are too large for any buffer. -/
theorem wrap_slots {len n size : ℕ} (hlen : len < h.modulus) (hsize : sizeofData * n ≤ size) :
    h.wrap (sizeofData + n * 8) = sizeofData + n * 8 ∨ len < size := by
  by_cases hn : sizeofData + n * 8 < h.modulus
  · exact .inl (Host.wrap_of_lt hn)
  · simp only [sizeofData] at hn hsize
    rcases h.modulus_eq with hm | hm <;> rw [hm] at hlen hn <;> omega

mutual
theorem pack_fst (d : LaunchData) (hres : d.Resident h) {len : ℕ}
    (hlen : len < h.modulus) (dst : ℕ) (s : PackState) :
    packedSize d ≤ len ∧ (launchDataPack h d dst len s).1 = packedSize d ∨
      len < packedSize d ∧ (launchDataPack h d dst len s).1 = 0 := by
  have hge := packedSize_ge d
  rw [launchDataPack]
  by_cases hroom : sizeofData > len
  · rw [if_pos hroom]
    exact .inr ⟨by omega, rfl⟩
  rw [if_neg hroom]
  cases d with
  | integer n | real n | bool n | errno n | machport n | fd n => exact .inl ⟨not_lt.mp hroom, rfl⟩
  | string c | opaqueData c =>
    simp only [packedSize, wrap_add_round hres]
    split
    · exact .inr ⟨by omega, rfl⟩
    · exact .inl ⟨by omega, rfl⟩
  | dictionary ds | array ds =>
    have hsize := packedSizes_ge ds
    have hle : h.wrap (sizeofData + ds.length * 8) ≤ sizeofData + ds.length * 8 :=
      Nat.mod_le _ _
    simp only [packedSize]
    split
    · exact .inr ⟨by omega, rfl⟩
    · have hall := packElems_fst ds hres hlen (dst + sizeofData + h.wrap (ds.length * 8))
        (not_lt.mp ‹_›)
      rcases wrap_slots hlen hsize with hw | hbig
      · rw [hw] at hall ⊢
        exact hall _
      · exact .inr ⟨by omega, ((hall _).resolve_left fun hfit => by omega).2⟩

theorem packElems_fst (ds : List LaunchData) (hres : ResidentAll h ds) {len : ℕ}
    (hlen : len < h.modulus) (dst : ℕ) {total : ℕ} (htotal : total ≤ len) (s : PackState) :
    total + packedSizes ds ≤ len ∧ (packElems h ds dst len total s).1 = total + packedSizes ds ∨
      len < total + packedSizes ds ∧ (packElems h ds dst len total s).1 = 0 := by
  cases ds with
  | nil => exact .inl ⟨htotal, rfl⟩
  | cons d ds =>
    have hge := packedSize_ge d
    simp only [sizeofData] at hge
    rw [packElems, packedSizes]
    rcases pack_fst d hres.1 (by omega : len - total < h.modulus) dst s with
      ⟨hd, hr⟩ | ⟨hd, hr⟩
    · rw [hr, if_neg (by omega), Host.wrap_of_lt (by omega), ← add_assoc]
      exact packElems_fst ds hres.2 hlen _ (by omega) _
    · rw [hr, if_pos rfl]
      exact .inr ⟨by omega, rfl⟩
end

/-- Packing changes `size` bytes from `dst` on and appends `fds` to the
descriptors. -/
structure PackFrame (dst size : ℕ) (fds : List UInt32) (s s' : PackState) : Prop where
  buf_eq : EqOn s'.buf s.buf (Ico dst (dst + size))ᶜ
  fds_eq : s'.fds = s.fds.map (· ++ fds)

theorem PackFrame.put {dst size p : ℕ} {fds : List UInt32} {bs : List UInt8} {s s' : PackState}
    (hf : PackFrame dst size fds s s') (hp : dst ≤ p) (hle : p + bs.length ≤ dst + size) :
    PackFrame dst size fds s (s'.put p bs) :=
  ⟨(write_compl _ hp hle).trans hf.buf_eq, hf.fds_eq⟩

theorem PackFrame.refl (dst size : ℕ) (s : PackState) : PackFrame dst size [] s s :=
  ⟨fun _ _ => rfl, by simp⟩

theorem read_header {m : Mem} {o : ℕ} (t n : ℕ) :
    (((m.write o (big.bytes 8 t)).write (o + countField) (big.bytes 8 n)).read o 8 =
        big.bytes 8 t) ∧
      ((m.write o (big.bytes 8 t)).write (o + countField) (big.bytes 8 n)).read
        (o + countField) 8 = big.bytes 8 n := by
  rw [read_write_off _ (.inl (by simp only [countField]; omega))]
  exact ⟨Endian.read_write .., Endian.read_write ..⟩

theorem packBlob_laidOut (s : PackState) (dst t n : ℕ) (bs : List UInt8) :
    let s' := ((s.put dst (big.bytes 8 t)).put (dst + countField)
      (big.bytes 8 n)).put (dst + sizeofData) bs
    s'.buf.read dst 8 = big.bytes 8 t ∧ s'.buf.read (dst + countField) 8 = big.bytes 8 n ∧
      ∀ size, dst + sizeofData + bs.length ≤ dst + size → PackFrame dst size [] s s' := by
  obtain ⟨htype, hcount⟩ := @read_header s.buf dst t n
  refine ⟨(read_write_off _ (.inl ?_)).trans htype,
    (read_write_off _ (.inl ?_)).trans hcount, fun size hsize => ?_⟩
  · simp only [sizeofData]
    omega
  · simp only [sizeofData, countField]
    omega
  · simp only [sizeofData] at hsize
    refine (((PackFrame.refl _ _ s).put (by omega) ?_).put (by omega) ?_).put (by omega) hsize <;>
      simp only [length_bytes, countField] <;> omega

mutual
theorem pack_laidOut (d : LaunchData) (hres : d.Resident h) {len : ℕ}
    (hlen : len < h.modulus) (dst : ℕ) (s : PackState) (hroom : packedSize d ≤ len) :
    LaidOut .wire (launchDataPack h d dst len s).2.buf dst d ∧
      PackFrame dst (packedSize d) (emitted d) s (launchDataPack h d dst len s).2 := by
  have hge := packedSize_ge d
  have hty (bs : List UInt8) : ((s.buf.write dst (big.bytes 8 d.type.code)).write
      (dst + valueField) bs).read dst 8 = big.bytes 8 d.type.code := by
    rw [read_write_off _ (.inl (by simp only [valueField]; omega)), Endian.read_write]
  rw [launchDataPack, if_neg (by omega)]
  cases d with
  | integer n | bool n | errno n =>
    refine ⟨⟨hty _, Endian.read_write ..⟩, ?_⟩
    refine ((PackFrame.refl _ _ s).put (by omega) ?_).put (by omega) ?_ <;>
      simp [packedSize, sizeofData, valueField]
  | real x =>
    refine ⟨⟨hty _, trivial⟩, ?_⟩
    refine ((PackFrame.refl _ _ s).put (by omega) ?_).put (by omega) ?_ <;>
      simp [packedSize, sizeofData, valueField]
  | machport n =>
    refine ⟨⟨Endian.read_write .., trivial⟩, ?_⟩
    refine (PackFrame.refl _ _ s).put (by omega) ?_
    simp [packedSize, sizeofData]
  | fd n =>
    simp only [pushFd_buf]
    refine ⟨⟨hty _, Endian.read_write ..⟩, ?_, ?_⟩
    · rw [pushFd_buf]
      refine (((PackFrame.refl _ _ s).put (by omega) ?_).put (by omega) ?_).buf_eq <;>
        simp [packedSize, sizeofData, valueField]
    · exact pushFd_fds _ _
  | string c | opaqueData c =>
    simp only [packedSize] at hroom
    simp only [wrap_add_round hres, LaunchData.type]
    rw [if_neg (by omega)]
    have hblob := packBlob_laidOut s dst
    refine ⟨⟨(hblob _ _ _).1, trivial, (hblob _ _ _).2.1, read_write_len (by simp)⟩,
      (hblob _ _ _).2.2 _ ?_⟩
    simpa [packedSize] using payload_le dst _
  | dictionary ds | array ds =>
    have hsize := packedSizes_ge ds
    simp only [packedSize] at hroom
    have hw : h.wrap (sizeofData + ds.length * 8) = sizeofData + ds.length * 8 :=
      (wrap_slots hlen hsize).resolve_right (by omega)
    simp only [hw, Host.wrap_of_lt (show ds.length * 8 < h.modulus by omega)]
    rw [if_neg (by omega)]
    obtain ⟨htype, hcount⟩ := read_header (m := s.buf) (o := dst) (LaunchData.type _).code ds.length
    obtain ⟨hall, hframe, hfds⟩ := packElems_laidOut ds hres hlen (dst + sizeofData)
      (dst + sizeofData + ds.length * 8) _
      ((s.put dst (big.bytes 8 (LaunchData.type _).code)).put (dst + countField)
        (big.bytes 8 ds.length)) hroom
    have hread (p : ℕ) (hp : p + 8 ≤ dst + sizeofData) :=
      read_congr (hframe.mono fun a (ha : a ∈ Ico p (p + 8)) => by
        simp only [mem_compl_iff, mem_Ico] at ha ⊢
        omega)
    refine ⟨⟨(hread _ (by simp only [sizeofData]; omega)).trans htype, trivial,
      (hread _ (by simp only [sizeofData, countField]; omega)).trans hcount, hall⟩, ?_, hfds⟩
    refine (hframe.mono fun a ha => ?_).trans
      (((PackFrame.refl dst _ s).put (by omega) ?_).put (by omega) ?_).buf_eq
    · simp only [packedSize, mem_compl_iff, mem_Ico] at ha ⊢
      omega
    · simp only [packedSize, sizeofData, length_bytes]
      omega
    · simp only [packedSize, sizeofData, countField, length_bytes]
      omega

theorem packElems_laidOut (ds : List LaunchData) (hres : ResidentAll h ds) {len : ℕ}
    (hlen : len < h.modulus) (slot dst total : ℕ) (s : PackState)
    (hroom : total + packedSizes ds ≤ len) :
    LaidOutAll .wire (packElems h ds dst len total s).2.buf slot dst ds ∧
      PackFrame dst (packedSizes ds) (emittedAll ds) s (packElems h ds dst len total s).2 := by
  cases ds with
  | nil => exact ⟨trivial, PackFrame.refl _ _ s⟩
  | cons d ds =>
    have hge := packedSize_ge d
    simp only [packedSizes, sizeofData] at hroom hge
    obtain ⟨hd, hbuf, hfds⟩ :=
      pack_laidOut d hres.1 (show len - total < h.modulus by omega) dst s (by omega)
    have hr := ((pack_fst d hres.1 (show len - total < h.modulus by omega) dst s).resolve_right
      fun hno => by omega).2
    rw [packElems, hr, if_neg (by omega), Host.wrap_of_lt (by omega)]
    obtain ⟨hall, hbuf', hfds'⟩ := packElems_laidOut ds hres.2 hlen (slot + 8) (dst + packedSize d)
      (total + packedSize d) (launchDataPack h d dst (len - total) s).2 (by omega)
    refine ⟨⟨trivial, LaidOut.congr hd (hbuf'.mono fun a ha => ?_), hall⟩, ?_, ?_⟩
    · simp only [mem_compl_iff, mem_Ico] at ha ⊢
      omega
    · refine (hbuf'.mono fun a ha => ?_).trans (hbuf.mono fun a ha => ?_) <;>
        simp only [packedSizes, mem_compl_iff, mem_Ico] at ha ⊢ <;> omega
    · rw [hfds', hfds, emittedAll]
      simp [Option.map_map, Function.comp_def]
end

end Pack

end Hexley.Launchd
