import Hexley.Launchd.Unpack

/-!
Where the decoder goes in the buffer, and when it stays inside.

`Parses n o o'` and `Starts n o p` describe the raw bytes of a message
and say nothing of the decoder: the first that `n` complete elements lie
between `o` and `o'`, the second that an element header at `p` comes up
when `n` elements are read from `o` on. The decoder is safe exactly when
every header that comes up passes `ElementFits`, which fails in two ways
only: the padding of a string or of opaque data reaches past the end of
the buffer, or the eight bytes for each child of a container add up to a
multiple of the word size and there is no room for even one pointer.

The decoder rewrites the buffer while it reads it. That never matters for
what it reads next: a store always goes below the current offset, so the
bytes from the offset on are those of the message, and this is the part
of the invariant that the step lemmas carry as `EqOn _ _ (Ici _)`.
-/

namespace Hexley.Launchd

open Lib UnpackState Host Endian Mem Set Outcome

/-! ### The arithmetic of `size_t` -/

namespace Host

variable {h : Host} {a b x : ℕ}

theorem modulus_eq (h : Host) : h.modulus = 2 ^ 32 ∨ h.modulus = 2 ^ 64 := by
  rcases h.word_eq with hw | hw <;> simp [modulus, hw]

theorem word_le (h : Host) : h.word ≤ 8 := by
  rcases h.word_eq with hw | hw <;> omega

theorem wrap_of_lt (hx : x < h.modulus) : h.wrap x = x := Nat.mod_eq_of_lt hx

theorem wrap_lt (h : Host) (x : ℕ) : h.wrap x < h.modulus :=
  Nat.mod_lt _ (by rcases h.modulus_eq with hm | hm <;> omega)

theorem sub_of_le (hba : b ≤ a) (ha : a < h.modulus) : h.sub a b = a - b := by
  rw [sub, wrap, show a + h.modulus - b = a - b + h.modulus by omega, Nat.add_mod_right]
  exact Nat.mod_eq_of_lt (by omega)

/-- Past the end the remaining size is taken for a huge number. -/
theorem sub_of_lt (hab : a < b) (hb : b ≤ a + h.modulus) : h.sub a b = a + h.modulus - b :=
  wrap_of_lt (by omega)

/-- The wrap-around of the sum that is rounded does not show. -/
theorem round_eq (hx : h.wrap x + 7 < h.modulus) : h.round x = roundTo64BitWordSize (h.wrap x) := by
  have : h.wrap (x + 7) = h.wrap x + 7 := by
    rw [wrap, Nat.add_mod]
    rcases h.modulus_eq with hm | hm <;>
      exact (congrArg (· % _) (by rw [Nat.mod_eq_of_lt (a := 7) (by omega)]; rfl)).trans
        (Nat.mod_eq_of_lt hx)
  rw [round, this, roundTo64BitWordSize]

end Host

theorem le_roundTo64 (x : ℕ) : x ≤ roundTo64BitWordSize x := by
  unfold roundTo64BitWordSize; omega

theorem roundTo64_le (x : ℕ) : roundTo64BitWordSize x ≤ x + 7 := by
  unfold roundTo64BitWordSize; omega

/-! ### The message as the peer wrote it -/

def typeAt (m : Mem) (o : ℕ) : Option DataType :=
  DataType.ofCode (big.val (m.read o 8))

def countAt (h : Host) (m : Mem) (o : ℕ) : ℕ :=
  h.wrap (big.val (m.read (o + countField) 8))

/-- How many bytes after its header an object of type `t` with count `cnt`
must find in the buffer. -/
def demand (h : Host) (t : DataType) (cnt : ℕ) : ℕ :=
  match t with
  | .dictionary | .array => h.wrap (cnt * 8)
  | .string => h.wrap (cnt + 1)
  | .opaqueData => cnt
  | _ => 0

def skip (h : Host) (t : DataType) (cnt : ℕ) : ℕ :=
  match t with
  | .dictionary | .array => h.wrap (cnt * 8)
  | .string => h.round (cnt + 1)
  | .opaqueData => h.round cnt
  | _ => 0

section

variable {h : Host} {t : DataType} (hc : t.isContainer = true) (cnt : ℕ)
include hc cnt

theorem demand_container : demand h t cnt = h.wrap (cnt * 8) := by
  cases t <;> first | rfl | cases hc

theorem skip_container : skip h t cnt = h.wrap (cnt * 8) := by
  cases t <;> first | rfl | cases hc

end

inductive Parses (h : Host) (m : Mem) (size : ℕ) : ℕ → ℕ → ℕ → Prop
  | nil (o : ℕ) : Parses h m size 0 o o
  | plain {n o o' : ℕ} {t : DataType} (hdr : o + sizeofData ≤ size)
      (ht : typeAt m o = some t) (hc : t.isContainer = false)
      (hd : o + sizeofData + demand h t (countAt h m o) ≤ size)
      (hs : o + sizeofData + skip h t (countAt h m o) ≤ size)
      (rest : Parses h m size n (o + sizeofData + skip h t (countAt h m o)) o') :
      Parses h m size (n + 1) o o'
  | container {n o o₁ o' : ℕ} {t : DataType} (hdr : o + sizeofData ≤ size)
      (ht : typeAt m o = some t) (hc : t.isContainer = true)
      (hd : o + sizeofData + demand h t (countAt h m o) ≤ size)
      (children : Parses h m size (countAt h m o) (o + sizeofData + skip h t (countAt h m o)) o₁)
      (rest : Parses h m size n o₁ o') :
      Parses h m size (n + 1) o o'

inductive Starts (h : Host) (m : Mem) (size : ℕ) : ℕ → ℕ → ℕ → Prop
  | here (n o : ℕ) : Starts h m size (n + 1) o o
  | next {n o o₁ p : ℕ} (first : Parses h m size 1 o o₁) (rest : Starts h m size n o₁ p) :
      Starts h m size (n + 1) o p
  | child {n o p : ℕ} {t : DataType} (hdr : o + sizeofData ≤ size)
      (ht : typeAt m o = some t) (hc : t.isContainer = true)
      (hd : o + sizeofData + demand h t (countAt h m o) ≤ size)
      (inner : Starts h m size (countAt h m o) (o + sizeofData + skip h t (countAt h m o)) p) :
      Starts h m size (n + 1) o p

/-- The object at `p`, if its header is there and has a known type, keeps
inside the buffer: the padding of a string or of opaque data does, and a
container whose room for pointers wraps around to nothing has at least the
first slot left. -/
def ElementFits (h : Host) (m : Mem) (size p : ℕ) : Prop :=
  p + sizeofData ≤ size → ∀ t, typeAt m p = some t →
    if t.isContainer then
      countAt h m p ≠ 0 → h.wrap (countAt h m p * 8) = 0 → p + sizeofData + h.word ≤ size
    else
      p + sizeofData + demand h t (countAt h m p) ≤ size →
        p + sizeofData + skip h t (countAt h m p) ≤ size

/-! ### One step of the decoder -/

variable (s : UnpackState)

@[simp] theorem UnpackState.store_data (p : ℕ) (bs : List UInt8) :
    (s.store p bs).data = s.data.write p bs := rfl

@[simp] theorem UnpackState.store_dataOffset (p : ℕ) (bs : List UInt8) :
    (s.store p bs).dataOffset = s.dataOffset := rfl

@[simp] theorem UnpackState.store_fdOffset (p : ℕ) (bs : List UInt8) :
    (s.store p bs).fdOffset = s.fdOffset := rfl

@[simp] theorem UnpackState.moveTo_data (o : ℕ) : (s.moveTo o).data = s.data := rfl

@[simp] theorem UnpackState.moveTo_dataOffset (o : ℕ) : (s.moveTo o).dataOffset = o := rfl

@[simp] theorem UnpackState.moveTo_fdOffset (o : ℕ) : (s.moveTo o).fdOffset = s.fdOffset := rfl

@[simp] theorem Host.length_pointer (h : Host) (p : Option ℕ) : (h.pointer p).length = h.word := by
  cases p <;> simp [pointer]

section Steps

variable {h : Host} {s : UnpackState} {t : DataType} (hfit : h.base + size ≤ h.modulus)

/-- The offset is past the end already: the test for room does not notice,
and the header is read outside the buffer. -/
theorem unpackFrom_over (hlt : size < s.dataOffset) (hle : s.dataOffset ≤ size + 7) :
    unpackFrom h size fds (fuel + 1) s = .fault := by
  have hm := h.modulus_eq
  have hsub : ¬h.sub size s.dataOffset < sizeofData := by
    rw [sub_of_lt hlt (by omega), sizeofData]
    rcases hm with hm | hm <;> omega
  rw [unpackFrom, if_neg hsub, if_pos (by unfold sizeofData; omega)]

include hfit

theorem unpack_short (hle : s.dataOffset ≤ size) (hlt : size < s.dataOffset + sizeofData) :
    unpackFrom h size fds (fuel + 1) s = .ok (none, s) := by
  have hb := h.base_ge
  rw [unpackFrom, sub_of_le hle (by omega), if_pos (by omega)]

section

variable (hdr : s.dataOffset + sizeofData ≤ size)
include hdr

theorem unpackFrom_badType (ht : typeAt s.data s.dataOffset = none) :
    unpackFrom h size fds (fuel + 1) s = .ok (none, s.moveTo (s.dataOffset + sizeofData)) := by
  have hb := h.base_ge
  rw [typeAt] at ht
  rw [unpackFrom, sub_of_le (by omega) (by omega), if_neg (by omega), if_neg (by omega),
    wrap_of_lt (by omega)]
  simp only [moveTo_data, ht]

section

variable (ht : typeAt s.data s.dataOffset = some t)
include ht

theorem unpack_plain (hc : t.isContainer = false) : unpackFrom h size fds (fuel + 1) s =
      unpackPlain h size fds s.dataOffset t (countAt h s.data s.dataOffset)
        (s.moveTo (s.dataOffset + sizeofData)) := by
  have hb := h.base_ge
  rw [typeAt] at ht
  rw [unpackFrom, sub_of_le (by omega) (by omega), if_neg (by omega), if_neg (by omega),
    wrap_of_lt (by omega)]
  simp only [moveTo_data, ht, hc, Bool.false_eq_true, if_false, countAt]

theorem unpack_container (hc : t.isContainer = true)
    (hd : s.dataOffset + sizeofData + demand h t (countAt h s.data s.dataOffset) ≤ size) :
    unpackFrom h size fds (fuel + 1) s = (unpackElems h size fds fuel (s.dataOffset + sizeofData)
        (countAt h s.data s.dataOffset) 0 ((s.store (s.dataOffset + valueField)
          (h.pointer (some (s.dataOffset + sizeofData)))).moveTo
            (s.dataOffset + sizeofData + skip h t (countAt h s.data s.dataOffset)))).andThen
        fun (complete, s') =>
          if complete then
            finish h s.dataOffset t (s'.store (s.dataOffset + countField)
              (h.order.bytes 8 (countAt h s.data s.dataOffset)))
          else .ok (none, s') := by
  have hb := h.base_ge
  rw [typeAt] at ht
  rw [demand_container hc] at hd
  rw [skip_container hc]
  simp only [countAt] at hd ⊢
  rw [unpackFrom, sub_of_le (by omega) (by omega), if_neg (by omega), if_neg (by omega),
    wrap_of_lt (x := s.dataOffset + sizeofData) (by omega)]
  simp only [moveTo_data, ht, hc, if_true, moveTo_dataOffset]
  refine (if_neg ?_).trans ?_
  · rw [sub_of_le (by omega) (by omega)]
    omega
  · rw [wrap_of_lt (x := s.dataOffset + sizeofData + _) (by omega)]
    rfl

theorem container_short (hc : t.isContainer = true)
    (hd : size < s.dataOffset + sizeofData + demand h t (countAt h s.data s.dataOffset)) :
    unpackFrom h size fds (fuel + 1) s = .ok (none, s.moveTo (s.dataOffset + sizeofData)) := by
  have hb := h.base_ge
  rw [typeAt] at ht
  rw [demand_container hc] at hd
  simp only [countAt] at hd
  rw [unpackFrom, sub_of_le (by omega) (by omega), if_neg (by omega), if_neg (by omega),
    wrap_of_lt (x := s.dataOffset + sizeofData) (by omega)]
  simp only [moveTo_data, ht, hc, if_true, moveTo_dataOffset]
  refine if_pos ?_
  rw [sub_of_le (by omega) (by omega)]
  omega

end

end

theorem unpackPlain_short {r cnt : ℕ} (hle : s.dataOffset ≤ size)
    (hd : size < s.dataOffset + demand h t cnt) (hc : t.isContainer = false) :
    unpackPlain h size fds r t cnt s = .ok (none, s) := by
  have hb := h.base_ge
  cases t <;> simp only [DataType.isContainer, Bool.true_eq_false, demand, add_zero] at hc hd
  case string | opaqueData =>
    simp only [unpackPlain]
    rw [unpackBlob, sub_of_le hle (by omega), if_pos (by omega)]
  all_goals omega

theorem skip_le_demand {cnt : ℕ} (hcnt : cnt < h.modulus)
    (hd : demand h t cnt ≤ size) : skip h t cnt ≤ demand h t cnt + 7 := by
  have hb := h.base_ge
  cases t <;> simp only [skip, demand] at hd ⊢ <;> try omega
  case string =>
    rw [Host.round_eq (by omega)]
    exact roundTo64_le _
  case opaqueData =>
    rw [round_eq (by rw [wrap_of_lt hcnt]; omega), wrap_of_lt hcnt]
    exact roundTo64_le _

omit hfit in
theorem unpackScalar_frame (r : ℕ) :
    EqOn (unpackScalar h fds r t s).data s.data (Ici (r + sizeofData)) ∧
      (unpackScalar h fds r t s).dataOffset = s.dataOffset := by
  have hstore (n v : ℕ) (hn : n ≤ 8) : EqOn (s.store (r + valueField) (h.order.bytes n v)).data
      s.data (Ici (r + sizeofData)) := by
    refine write_eqOn _ fun a ha => ?_
    simp only [mem_Ici, sizeofData, valueField, length_bytes] at ha ⊢
    omega
  have hsame : EqOn s.data s.data (Ici (r + sizeofData)) := fun _ _ => rfl
  cases t <;> unfold unpackScalar
  case fd =>
    dsimp only
    split
    · split
      · exact ⟨hstore _ _ (by omega), rfl⟩
      · exact ⟨hsame, rfl⟩
    · exact ⟨hsame, rfl⟩
  case integer | real | bool | errno => exact ⟨hstore _ _ (by omega), rfl⟩
  all_goals exact ⟨hsame, rfl⟩

/-- A plain object whose payload is there. The offset moves to the end of
the padding, wherever that is. -/
theorem unpackPlain_ret (fds : List UInt32) {r cnt : ℕ} (hcnt : cnt < h.modulus)
    (hr : s.dataOffset = r + sizeofData) (hd : s.dataOffset + demand h t cnt ≤ size)
    (hc : t.isContainer = false) : ∃ s', unpackPlain h size fds r t cnt s = .ok (some r, s') ∧
      s'.dataOffset = s.dataOffset + skip h t cnt ∧
      EqOn s'.data s.data (Ici (r + sizeofData)) := by
  have hb := h.base_ge
  have hw := h.word_le
  have hskip := skip_le_demand hfit hcnt (by omega : demand h t cnt ≤ size)
  have hstore (s : UnpackState) (p : ℕ) (bs : List UInt8) (hp : p + bs.length ≤ r + sizeofData) :
      EqOn (s.store p bs).data s.data (Ici (r + sizeofData)) :=
    write_eqOn _ fun a ha => .inr (hp.trans ha)
  have hblob (need : ℕ) (hneed : s.dataOffset + need ≤ size) :
      ∃ s', unpackBlob h size r t cnt need (skip h t cnt) s = .ok (some r, s') ∧
        s'.dataOffset = s.dataOffset + skip h t cnt ∧
        EqOn s'.data s.data (Ici (r + sizeofData)) := by
    rw [unpackBlob, sub_of_le (by omega) (by omega), if_neg (by omega), wrap_of_lt (by omega)]
    refine ⟨_, rfl, rfl, ?_⟩
    refine (hstore _ _ _ ?_).trans ((hstore _ _ _ ?_).trans (hstore _ _ _ ?_))
    · simp [sizeofData]
    · simp [sizeofData, countField]
    · simp only [length_pointer, sizeofData, valueField]
      omega
  have hscalar : ∃ s', finish h r t (unpackScalar h fds r t s) = .ok (some r, s') ∧
      s'.dataOffset = s.dataOffset ∧ EqOn s'.data s.data (Ici (r + sizeofData)) := by
    obtain ⟨hframe, hoff⟩ := unpackScalar_frame r
    exact ⟨_, rfl, hoff, (hstore _ _ _ (by simp [sizeofData])).trans hframe⟩
  cases t <;> simp only [DataType.isContainer, Bool.true_eq_false] at hc
  case string => exact hblob _ hd
  case opaqueData => exact hblob _ hd
  all_goals simpa only [unpackPlain, skip, add_zero] using hscalar

end Steps

/-! ### What the bytes say is unambiguous -/

section Walk

variable {h : Host} {n o' : ℕ}

theorem Parses.le (hp : Parses h m size n o o') : o + 24 * n ≤ o' := by
  induction hp with
  | nil => omega
  | plain hdr ht hc hd hs rest ih => simp only [sizeofData] at ih; omega
  | container hdr ht hc hd children rest ihc ihr => simp only [sizeofData] at ihc; omega

theorem Parses.cons {o₁ : ℕ} (first : Parses h m size 1 o o₁) (rest : Parses h m size n o₁ o') :
    Parses h m size (n + 1) o o' := by
  cases first with
  | plain hdr ht hc hd hs nil =>
    cases nil
    exact .plain hdr ht hc hd hs rest
  | container hdr ht hc hd children nil =>
    cases nil
    exact .container hdr ht hc hd children rest

theorem Parses.uncons (hp : Parses h m size (n + 1) o o') :
    ∃ o₁, Parses h m size 1 o o₁ ∧ Parses h m size n o₁ o' := by
  cases hp with
  | plain hdr ht hc hd hs rest => exact ⟨_, .plain hdr ht hc hd hs (.nil _), rest⟩
  | container hdr ht hc hd children rest =>
    exact ⟨_, .container hdr ht hc hd children (.nil _), rest⟩

theorem Parses.demand_le {t : DataType} (hp : Parses h m size (n + 1) o o')
    (ht : typeAt m o = some t) : o + sizeofData + demand h t (countAt h m o) ≤ size := by
  cases hp with
  | plain _ ht' _ hd | container _ ht' _ hd =>
    cases ht.symm.trans ht'
    exact hd

theorem Parses.children {t : DataType} (hp : Parses h m size 1 o o')
    (ht : typeAt m o = some t) (hc : t.isContainer = true) :
    Parses h m size (countAt h m o) (o + sizeofData + skip h t (countAt h m o)) o' := by
  cases hp with
  | plain _ ht' hc' =>
    cases ht.symm.trans ht'
    cases hc'.symm.trans hc
  | container _ ht' _ _ children rest =>
    cases ht.symm.trans ht'
    cases rest
    exact children

section

variable {t : DataType} (hdr : o + sizeofData ≤ size) (ht : typeAt m o = some t)
include hdr ht

theorem elementFits_plain (hc : t.isContainer = false) :
    ElementFits h m size o ↔ (o + sizeofData + demand h t (countAt h m o) ≤ size →
      o + sizeofData + skip h t (countAt h m o) ≤ size) := by
  simp [ElementFits, hdr, ht, hc]

theorem elementFits_container (hc : t.isContainer = true) :
    ElementFits h m size o ↔ (countAt h m o ≠ 0 → h.wrap (countAt h m o * 8) = 0 →
      o + sizeofData + h.word ≤ size) := by
  simp [ElementFits, hdr, ht, hc]

end

theorem Parses.unique {o'' : ℕ} (hp : Parses h m size n o o') (hq : Parses h m size n o o'') :
    o' = o'' := by
  induction hp generalizing o'' with
  | nil =>
    cases hq
    rfl
  | plain hdr ht hc hd hs rest ih =>
    cases hq with
    | plain _ ht' _ _ _ rest' =>
      cases ht.symm.trans ht'
      exact ih rest'
    | container _ ht' hc' _ _ _ =>
      cases ht.symm.trans ht'
      cases hc.symm.trans hc'
  | container hdr ht hc hd children rest ihc ihr =>
    cases hq with
    | plain _ ht' hc' _ _ _ =>
      cases ht.symm.trans ht'
      cases hc'.symm.trans hc
    | container _ ht' _ _ children' rest' =>
      cases ht.symm.trans ht'
      cases ihc children'
      exact ihr rest'

def AllFit (h : Host) (m : Mem) (size n o : ℕ) : Prop :=
  ∀ p, Starts h m size n o p → ElementFits h m size p

theorem allFit_zero : AllFit h m size 0 o := by
  intro p hp
  cases hp

theorem allFit_succ : AllFit h m size (n + 1) o ↔
    AllFit h m size 1 o ∧ ∀ o₁, Parses h m size 1 o o₁ → AllFit h m size n o₁ := by
  constructor
  · refine fun hall => ⟨fun p hp => ?_, fun o₁ first p hp => hall p (.next first hp)⟩
    cases hp with
    | here => exact hall _ (.here _ _)
    | next first rest => cases rest
    | child hdr ht hc hd inner => exact hall p (.child hdr ht hc hd inner)
  · rintro ⟨hone, hrest⟩ p hp
    cases hp with
    | here => exact hone _ (.here _ _)
    | next first rest => exact hrest _ first p rest
    | child hdr ht hc hd inner => exact hone p (.child hdr ht hc hd inner)

theorem allFit_one_of_plain
    (hno : ∀ t, typeAt m o = some t → t.isContainer = true → o + sizeofData ≤ size →
      size < o + sizeofData + demand h t (countAt h m o)) :
    AllFit h m size 1 o ↔ ElementFits h m size o := by
  refine ⟨fun hall => hall o (.here _ _), fun hfits p hp => ?_⟩
  cases hp with
  | here => exact hfits
  | next first rest => cases rest
  | child hdr ht hc hd inner => exact absurd hd (by have := hno _ ht hc hdr; omega)

theorem allFit_one_container {t : DataType} (hdr : o + sizeofData ≤ size)
    (ht : typeAt m o = some t) (hc : t.isContainer = true)
    (hd : o + sizeofData + demand h t (countAt h m o) ≤ size) :
    AllFit h m size 1 o ↔ ElementFits h m size o ∧
      AllFit h m size (countAt h m o) (o + sizeofData + skip h t (countAt h m o)) := by
  constructor
  · exact fun hall => ⟨hall o (.here _ _), fun p hp => hall p (.child hdr ht hc hd hp)⟩
  · rintro ⟨hfits, hinner⟩ p hp
    cases hp with
    | here => exact hfits
    | next first rest => cases rest
    | child _ ht' _ _ inner =>
      cases ht.symm.trans ht'
      exact hinner p inner

end Walk

/-! ### The whole run -/

/-- How reading `n` objects from `o` on ends: all of them were there, or one
was not, and then every header fits; or some header does not fit, and then
either a byte outside the buffer is touched or the offset that is left
behind is past the end. `full` and `cut` are the results that stand for
"all there" and "not all there". -/
inductive Verdict (h : Host) (m : Mem) (size n o : ℕ) {α : Type} (full cut : α) : Run α → Prop
  | complete (s : UnpackState) (hp : Parses h m size n o s.dataOffset) (hle : s.dataOffset ≤ size)
      (hm : EqOn s.data m (Ici s.dataOffset)) (hall : AllFit h m size n o) :
      Verdict h m size n o full cut (.ok (full, s))
  | incomplete (s : UnpackState) (hp : ∀ o', ¬Parses h m size n o o') (hle : s.dataOffset ≤ size)
      (hall : AllFit h m size n o) : Verdict h m size n o full cut (.ok (cut, s))
  | overran (s : UnpackState) (hlt : size < s.dataOffset) (hle : s.dataOffset ≤ size + 7)
      (hall : ¬AllFit h m size n o) : Verdict h m size n o full cut (.ok (full, s))
  | faulted (hall : ¬AllFit h m size n o) : Verdict h m size n o full cut .fault

section Runs

variable {h : Host} {s : UnpackState} {m' : Mem}

theorem typeAt_congr (hm : EqOn m m' (Ici o)) : typeAt m o = typeAt m' o := by
  rw [typeAt, typeAt, read_congr (hm.mono Ico_subset_Ici_self)]

theorem countAt_congr (hm : EqOn m m' (Ici o)) : countAt h m o = countAt h m' o := by
  have hsub : Ico (o + countField) (o + countField + 8) ⊆ Ici o :=
    fun a ha => le_trans (Nat.le_add_right _ _) ha.1
  rw [countAt, countAt, read_congr (hm.mono hsub)]

theorem countAt_lt (h : Host) (m : Mem) (o : ℕ) : countAt h m o < h.modulus := h.wrap_lt _

theorem not_parses_of_short {o o' n : ℕ} (hlt : size < o + sizeofData) :
    ¬Parses h m size (n + 1) o o' := by
  intro hp
  cases hp <;> omega

theorem elementFits_of_short {p : ℕ} (hlt : size < p + sizeofData) :
    ElementFits h m size p := fun hdr => by omega

/-- Eight bytes for each of some children are room for the first pointer,
unless the product wraps around to zero. -/
theorem wrap_mul_eight (cnt : ℕ) : h.wrap (cnt * 8) = 0 ∨ 8 ≤ h.wrap (cnt * 8) := by
  unfold wrap
  rcases h.modulus_eq with hm | hm <;> rw [hm] <;> omega

theorem verdict_elems {arr cnt i : ℕ} (hi : i < cnt)
    (harr : arr + 24 * i ≤ s.dataOffset) (hslot : i = 0 → arr + h.word ≤ size)
    (hle : s.dataOffset ≤ size) (hfuel : 2 ≤ fuel)
    (hfirst : Verdict h m size 1 s.dataOffset (some s.dataOffset) none
      (unpackFrom h size fds fuel s))
    (hrest : ∀ s' : UnpackState, arr + 24 * (i + 1) ≤ s'.dataOffset → s'.dataOffset ≤ size →
      s.dataOffset + 24 ≤ s'.dataOffset → EqOn s'.data m (Ici s'.dataOffset) →
      Verdict h m size (cnt - (i + 1)) s'.dataOffset true false
        (unpackElems h size fds fuel arr cnt (i + 1) s')) :
    Verdict h m size (cnt - i) s.dataOffset true false
      (unpackElems h size fds (fuel + 1) arr cnt i s) := by
  have hw := h.word_le
  have hiw : i * h.word ≤ i * 8 := Nat.mul_le_mul_left i hw
  rw [unpackElems, if_pos hi, show cnt - i = cnt - (i + 1) + 1 by omega]
  generalize unpackFrom h size fds fuel s = run at hfirst
  cases hfirst with
  | complete s' hp hle' hm' hone =>
    have hlen := hp.le
    simp only [andThen]
    rw [if_neg (by omega)]
    have hm'' : EqOn (s'.store (arr + i * h.word) (h.pointer (some s.dataOffset))).data m
        (Ici s'.dataOffset) := by
      refine (write_eqOn _ fun a ha => .inr ?_).trans hm'
      have ha' : s'.dataOffset ≤ a := ha
      simp only [length_pointer]
      omega
    have hv := hrest (s'.store (arr + i * h.word) (h.pointer (some s.dataOffset)))
      (by simp only [store_dataOffset]; omega) hle' (by simpa using hlen) hm''
    have hiff : AllFit h m size (cnt - (i + 1) + 1) s.dataOffset ↔
        AllFit h m size (cnt - (i + 1)) s'.dataOffset := by
      rw [allFit_succ]
      refine ⟨fun hall => hall.2 _ hp, fun hall => ⟨hone, fun o₁ hp' => ?_⟩⟩
      rwa [← hp.unique hp']
    generalize unpackElems h size fds fuel arr cnt (i + 1) _ = run at hv
    cases hv with
    | complete s'' hp'' hle'' hm'' hall =>
      exact .complete _ (hp.cons hp'') hle'' hm'' (hiff.mpr hall)
    | incomplete s'' hno hle'' hall =>
      refine .incomplete _ (fun o' hp' => ?_) hle'' (hiff.mpr hall)
      obtain ⟨o₁, hfst, hrst⟩ := hp'.uncons
      rw [← hp.unique hfst] at hrst
      exact hno _ hrst
    | overran s'' hlt hle'' hall => exact .overran _ hlt hle'' fun hall' => hall (hiff.mp hall')
    | faulted hall => exact .faulted fun hall' => hall (hiff.mp hall')
  | incomplete s' hno hle' hone =>
    simp only [andThen]
    have hroom : ¬size < arr + i * h.word + h.word := by
      rcases eq_zero_or_pos i with rfl | hpos
      · omega
      · omega
    rw [if_neg hroom]
    refine .incomplete _ (fun o' hp' => ?_) hle' (allFit_succ.mpr ⟨hone, fun o₁ hp' => ?_⟩)
    · obtain ⟨o₁, hfst, -⟩ := hp'.uncons
      exact hno _ hfst
    · exact absurd hp' (hno o₁)
  | overran s' hlt hle' hone =>
    have hnot : ¬AllFit h m size (cnt - (i + 1) + 1) s.dataOffset := fun hall =>
      hone (allFit_succ.mp hall).1
    simp only [andThen]
    split
    · exact .faulted hnot
    -- The next object would be read from past the end; if there is none, the loop ends there.
    · obtain ⟨fuel, rfl⟩ : ∃ k, fuel = k + 2 := ⟨fuel - 2, by omega⟩
      rw [unpackElems]
      split
      · rw [unpackFrom_over (by simpa using hlt) (by simpa using hle')]
        exact .faulted hnot
      · exact .overran _ (by simpa using hlt) (by simpa using hle') hnot
  | faulted hone => exact .faulted fun hall => hone (allFit_succ.mp hall).1

variable (hfit : h.base + size ≤ h.modulus)
include hfit

section

variable {t : DataType} (hdr : s.dataOffset + sizeofData ≤ size)
  (hm : EqOn s.data m (Ici s.dataOffset)) (ht : typeAt m s.dataOffset = some t)
include hdr hm ht

theorem verdict_plain (hc : t.isContainer = false) :
    Verdict h m size 1 s.dataOffset (some s.dataOffset) none
      (unpackFrom h size fds (fuel + 1) s) := by
  have hall : AllFit h m size 1 s.dataOffset ↔ ElementFits h m size s.dataOffset := by
    refine allFit_one_of_plain fun t' ht' hc' => ?_
    cases ht.symm.trans ht'
    cases hc.symm.trans hc'
  rw [elementFits_plain hdr ht hc] at hall
  have hcnt := countAt_lt h m s.dataOffset
  rw [unpack_plain hfit hdr ((typeAt_congr hm).trans ht) hc, countAt_congr hm]
  by_cases hd : s.dataOffset + sizeofData + demand h t (countAt h m s.dataOffset) ≤ size
  · obtain ⟨s', hs', hoff, hframe⟩ := unpackPlain_ret hfit fds
      (s := s.moveTo (s.dataOffset + sizeofData)) hcnt rfl hd hc
    rw [hs']
    simp only [moveTo_dataOffset, moveTo_data] at hoff hframe
    by_cases hs : s.dataOffset + sizeofData + skip h t (countAt h m s.dataOffset) ≤ size
    · refine .complete _ ?_ (by omega) (fun a ha => ?_) (hall.mpr fun _ => hs)
      · rw [hoff]
        exact .plain hdr ht hc hd hs (.nil _)
      · simp only [mem_Ici] at ha
        exact (hframe (show _ ≤ a by omega)).trans (hm (show _ ≤ a by omega))
    · have hskip := skip_le_demand hfit hcnt
        (by omega : demand h t (countAt h m s.dataOffset) ≤ size)
      exact .overran _ (by omega) (by omega) fun hfits => hs (hall.mp hfits hd)
  · rw [unpackPlain_short hfit hdr (by simpa using hd) hc]
    exact .incomplete _ (fun o' hp => hd (hp.demand_le ht)) hdr (hall.mpr fun hd' => absurd hd' hd)

theorem verdict_container (hc : t.isContainer = true) (hfuel : size - s.dataOffset + 1 ≤ fuel)
    (hloop : ∀ arr cnt (s : UnpackState), arr ≤ s.dataOffset → s.dataOffset ≤ size →
      (cnt ≠ 0 → arr + h.word ≤ size) → EqOn s.data m (Ici s.dataOffset) →
      size - s.dataOffset + 3 ≤ fuel →
      Verdict h m size cnt s.dataOffset true false (unpackElems h size fds fuel arr cnt 0 s)) :
    Verdict h m size 1 s.dataOffset (some s.dataOffset) none
      (unpackFrom h size fds (fuel + 1) s) := by
  have hw := h.word_le
  have hsz : sizeofData = 24 := rfl
  have ht' := (typeAt_congr hm).trans ht
  have hcnt := countAt_congr (h := h) hm
  have hskip := skip_container (h := h) hc (countAt h m s.dataOffset)
  have hdem := demand_container (h := h) hc (countAt h m s.dataOffset)
  have hfits := elementFits_container (h := h) hdr ht hc
  by_cases hd : s.dataOffset + sizeofData + demand h t (countAt h m s.dataOffset) ≤ size
  swap
  · rw [container_short hfit hdr ht' hc (by rw [hcnt]; omega)]
    refine .incomplete _ (fun o' hp => hd (hp.demand_le ht)) hdr
      ((allFit_one_of_plain fun t' ht'' _ _ => ?_).mpr (hfits.mpr fun _ hzero => ?_))
    · cases ht.symm.trans ht''
      omega
    · rw [hdem, hzero] at hd
      exact absurd hdr hd
  rw [unpack_container hfit hdr ht' hc (by rw [hcnt]; exact hd), hcnt]
  have hall := allFit_one_container hdr ht hc hd
  set s₀ := (s.store (s.dataOffset + valueField)
    (h.pointer (some (s.dataOffset + sizeofData)))).moveTo
      (s.dataOffset + sizeofData + skip h t (countAt h m s.dataOffset)) with hs₀
  have hoff : s₀.dataOffset = s.dataOffset + sizeofData + skip h t (countAt h m s.dataOffset) := rfl
  have hm₀ : EqOn s₀.data m (Ici s₀.dataOffset) := by
    intro a ha
    simp only [mem_Ici] at ha
    refine (write_of_le ?_).trans (hm (show _ ≤ a by omega))
    simp only [length_pointer, valueField]
    omega
  -- The first slot is there, or the container does not fit and storing there faults.
  by_cases hslot : countAt h m s.dataOffset ≠ 0 → s.dataOffset + sizeofData + h.word ≤ size
  · replace hfits := hfits.mpr fun hne _ => hslot hne
    have hv := hloop (s.dataOffset + sizeofData) (countAt h m s.dataOffset) s₀
      (by omega) (by omega) hslot hm₀ (by omega)
    generalize unpackElems h size fds fuel _ _ 0 s₀ = run at hv
    cases hv with
    | complete s' hp hle hm' hin =>
      have hle' := hp.le
      refine .complete _ (.container hdr ht hc hd hp (.nil _)) hle ?_ (hall.mpr ⟨hfits, hin⟩)
      intro a ha
      have ha' : s'.dataOffset ≤ a := ha
      refine ((write_of_le ?_).trans (write_of_le ?_)).trans (hm' ha) <;>
        simp only [length_bytes, countField] <;> omega
    | incomplete s' hp hle hin =>
      exact .incomplete _ (fun o' hone => hp _ (hone.children ht hc)) hle (hall.mpr ⟨hfits, hin⟩)
    | overran s' hlt hle hin => exact .overran _ hlt hle fun hone => hin (hall.mp hone).2
    | faulted hin => exact .faulted fun hone => hin (hall.mp hone).2
  · push Not at hslot
    obtain ⟨hne, hroom⟩ := hslot
    have hzero : h.wrap (countAt h m s.dataOffset * 8) = 0 := by
      rcases wrap_mul_eight (countAt h m s.dataOffset) with h0 | h8
      · exact h0
      · omega
    have hnot : ¬AllFit h m size 1 s.dataOffset := by
      intro hone
      have := hfits.mp (hall.mp hone).1 hne hzero
      omega
    obtain ⟨fuel, rfl⟩ : ∃ k, fuel = k + 2 := ⟨fuel - 2, by omega⟩
    rw [unpackElems, if_pos (by omega), unpack_short hfit (by omega) (by omega)]
    simp only [andThen]
    rw [if_pos (by omega)]
    exact .faulted hnot

end

/-- The induction on the fuel behind every result about the decoder: one
object, and the rest of the objects of a container. -/
theorem verdict_fuel (fuel : ℕ) :
    (∀ s : UnpackState, s.dataOffset ≤ size → EqOn s.data m (Ici s.dataOffset) →
      size - s.dataOffset + 2 ≤ fuel →
      Verdict h m size 1 s.dataOffset (some s.dataOffset) none (unpackFrom h size fds fuel s)) ∧
    ∀ arr cnt i (s : UnpackState), arr + 24 * i ≤ s.dataOffset → s.dataOffset ≤ size →
      (i < cnt → i = 0 → arr + h.word ≤ size) → EqOn s.data m (Ici s.dataOffset) →
      size - s.dataOffset + 3 ≤ fuel → Verdict h m size (cnt - i) s.dataOffset true false
        (unpackElems h size fds fuel arr cnt i s) := by
  induction fuel with
  | zero => exact ⟨fun s _ _ hf => by omega, fun arr cnt i s _ _ _ _ hf => by omega⟩
  | succ fuel ih =>
    obtain ⟨ihFrom, ihElems⟩ := ih
    constructor
    · intro s hle hm hf
      by_cases hdr : s.dataOffset + sizeofData ≤ size
      swap
      · rw [unpack_short hfit hle (by omega)]
        exact .incomplete _ (fun o' => not_parses_of_short (by omega)) hle
          ((allFit_one_of_plain fun _ _ _ hdr' => absurd hdr' hdr).mpr
            (elementFits_of_short (by omega)))
      cases ht : typeAt m s.dataOffset with
      | none =>
        rw [unpackFrom_badType hfit hdr ((typeAt_congr hm).trans ht)]
        have hno : ∀ t, typeAt m s.dataOffset ≠ some t := fun t ht' => by
          rw [ht] at ht'
          cases ht'
        refine .incomplete _ (fun o' hp => ?_) hdr
          ((allFit_one_of_plain fun t ht' => absurd ht' (hno t)).mpr
            fun _ t ht' => absurd ht' (hno t))
        cases hp with
        | plain _ ht' => exact hno _ ht'
        | container _ ht' => exact hno _ ht'
      | some t =>
        cases hc : t.isContainer with
        | false => exact verdict_plain hfit hdr hm ht hc
        | true =>
          refine verdict_container hfit hdr hm ht hc (by omega) fun arr cnt s' ha hle' h0 hm' hf' =>
            ?_
          exact ihElems arr cnt 0 s' (by omega) hle' (fun hpos _ => h0 (by omega)) hm' hf'
    · intro arr cnt i s harr hle hslot hm hf
      by_cases hi : i < cnt
      · refine verdict_elems hi harr (hslot hi) hle (by omega) (ihFrom s hle hm (by omega))
          fun s' harr' hle' hlen hm' => ?_
        exact ihElems arr cnt (i + 1) s' harr' hle' (fun _ h0 => by omega) hm' (by omega)
      · rw [unpackElems, if_neg hi, show cnt - i = 0 by omega]
        exact .complete _ (.nil _) hle hm allFit_zero

/-- How `launch_data_unpack` ends, whatever the buffer holds. -/
theorem unpack_verdict (data : Mem) (fds : List UInt32) {off : ℕ} (hoff : off ≤ size) (fdOff : ℕ) :
    Verdict h data size 1 off (some off) none (launchDataUnpack h data size fds off fdOff) :=
  (verdict_fuel hfit (size + 2)).1 ⟨data, off, fdOff⟩ hoff (fun _ _ => rfl) (by simp)

end Runs

/-! ### Safety -/

/-- Only bytes of the buffer were touched, and after an object was returned
the offset is inside the buffer or at its end. -/
def InBounds (size : ℕ) (run : Run (Option ℕ)) : Prop :=
  run.Ensures fun x => x.1.isSome = true → x.2.dataOffset ≤ size

instance (size : ℕ) : DecidablePred (InBounds size)
  | .ok _ => inferInstanceAs (Decidable (_ → _))
  | .failed => .isTrue trivial
  | .fault | .exhausted => .isFalse id

/-- The decoder kept to the received bytes, and no more of them were taken
off the count than it held. -/
def RecvStep.InBounds (recvlen : ℕ) : RecvStep → Prop
  | .fault => False
  | .needMoreData | .badRpc => True
  | .deliver _ _ lh => lh.recvlen < recvlen

/-- The tests that `launchd_msg_recv` makes before it decodes. -/
def Launch.ReadyToUnpack (lh : Launch) : Prop :=
  sizeofHeader ≤ lh.recvlen ∧ big.val (lh.recvbuf.read 0 8) = launchMsgHeaderMagic ∧
    sizeofHeader < big.val (lh.recvbuf.read 8 8) ∧
    big.val (lh.recvbuf.read 8 8) ≤ lh.recvlen

section Safety

variable {h : Host}

theorem Verdict.inBounds_iff {m : Mem} {o p : ℕ} {run : Run (Option ℕ)}
    (hv : Verdict h m size 1 o (some p) none run) : InBounds size run ↔ AllFit h m size 1 o := by
  cases hv with
  | complete s hp hle hm hall => exact iff_of_true (fun _ => hle) hall
  | incomplete s hp hle hall => exact iff_of_true Bool.noConfusion hall
  | overran s hlt hle hall => exact iff_of_false (fun hin => hlt.not_ge (hin rfl)) hall
  | faulted hall => exact iff_of_false id hall

theorem recv_of_not_ready {lh : Launch} (hr : ¬lh.ReadyToUnpack) :
    launchdMsgRecv h lh = .needMoreData ∨ launchdMsgRecv h lh = .badRpc := by
  unfold launchdMsgRecv
  by_cases hlen : lh.recvlen < sizeofHeader
  · exact .inl (if_pos hlen)
  rw [if_neg hlen]
  by_cases hbad : big.val (lh.recvbuf.read 0 8) ≠ launchMsgHeaderMagic ∨
      big.val (lh.recvbuf.read 8 8) ≤ sizeofHeader
  · exact .inr (if_pos hbad)
  by_cases hmore : lh.recvlen < big.val (lh.recvbuf.read 8 8)
  · exact .inl ((if_neg hbad).trans (if_pos hmore))
  · push Not at hbad
    exact absurd ⟨not_lt.mp hlen, hbad.1, hbad.2, not_lt.mp hmore⟩ hr

/-- The count of the bytes left is right exactly when the decoder kept to
the buffer: once the offset is past the end the difference wraps around. -/
theorem recv_inBounds_of_ready {lh : Launch}
    (hfit : h.base + lh.recvlen ≤ h.modulus) (hr : lh.ReadyToUnpack) :
    (launchdMsgRecv h lh).InBounds lh.recvlen ↔ AllFit h lh.recvbuf lh.recvlen 1 sizeofHeader := by
  obtain ⟨hlen, hmagic, htmp, hle⟩ := hr
  have hb := h.base_ge
  have hv := unpack_verdict hfit lh.recvbuf lh.recvfds hlen 0
  unfold launchdMsgRecv
  rw [if_neg (by omega)]
  rw [if_neg (by rintro (hne | hshort); exacts [hne hmagic, absurd hshort (by omega)]),
    if_neg (by omega)]
  generalize launchDataUnpack h lh.recvbuf lh.recvlen lh.recvfds sizeofHeader 0 = run at hv
  cases hv with
  | complete s hp hle' hm hall =>
    have hlen := hp.le
    have hsub : h.sub lh.recvlen s.dataOffset = lh.recvlen - s.dataOffset :=
      sub_of_le hle' (by omega)
    refine iff_of_true ?_ hall
    simp only [RecvStep.InBounds, hsub]
    omega
  | incomplete s hp hle' hall => exact iff_of_true trivial hall
  | overran s hlt hle' hall =>
    have hsub : h.sub lh.recvlen s.dataOffset = lh.recvlen + h.modulus - s.dataOffset :=
      sub_of_lt hlt (by omega)
    refine iff_of_false ?_ hall
    simp only [RecvStep.InBounds, hsub]
    omega
  | faulted hall => exact iff_of_false id hall

/-- The decoder keeps to the buffer, and the receiver subtracts no more than
it holds, exactly when every object header that comes up fits. -/
theorem launchDataUnpack_inBounds_iff (h : Host) (size : ℕ) (hfit : h.base + size ≤ h.modulus) :
    (∀ (data : Mem) (fds : List UInt32) (off fdOff : ℕ), off ≤ size →
      (InBounds size (launchDataUnpack h data size fds off fdOff) ↔
        ∀ p, Starts h data size 1 off p → ElementFits h data size p)) ∧
    ∀ (recvbuf : Mem) (recvfds : List UInt32),
      ((launchdMsgRecv h ⟨recvbuf, size, recvfds⟩).InBounds size ↔
        (Launch.ReadyToUnpack ⟨recvbuf, size, recvfds⟩ →
          ∀ p, Starts h recvbuf size 1 sizeofHeader p → ElementFits h recvbuf size p)) := by
  refine ⟨fun data fds off fdOff hoff => ?_, fun recvbuf recvfds => ?_⟩
  · exact (unpack_verdict hfit data fds hoff fdOff).inBounds_iff
  · by_cases hr : Launch.ReadyToUnpack ⟨recvbuf, size, recvfds⟩
    · rw [recv_inBounds_of_ready hfit hr]
      exact ⟨fun hall _ => hall, fun hall => hall hr⟩
    · refine iff_of_true ?_ fun hr' => absurd hr' hr
      rcases recv_of_not_ready (h := h) hr with hrun | hrun <;> rw [hrun] <;> exact trivial

end Safety

def littleHost (word : ℕ) (hw : word = 4 ∨ word = 8) : Host where
  word := word
  word_eq := hw
  order := .little
  base := 4096
  base_ge := by decide
  big2hostDouble := id

/-- The condition can be met: a buffer of 24 bytes has a place in memory. -/
theorem launchDataUnpack_inBounds_iff_integer :
    (littleHost 8 (.inr rfl)).base + 24 ≤ (littleHost 8 (.inr rfl)).modulus ∧ 0 ≤ 24 ∧ (InBounds 24
          (launchDataUnpack (littleHost 8 (.inr rfl)) (ofList [0, 0, 0, 0, 0, 0, 0, 4]) 24 [] 0 0) ↔
        ∀ p, Starts (littleHost 8 (.inr rfl)) (ofList [0, 0, 0, 0, 0, 0, 0, 4]) 24 1 0 p →
          ElementFits (littleHost 8 (.inr rfl)) (ofList [0, 0, 0, 0, 0, 0, 0, 4]) 24 p) :=
  ⟨by decide, by decide, (launchDataUnpack_inBounds_iff _ 24 (by decide)).1 _ _ _ _ (by decide)⟩

/-- An empty string at the end of a buffer of 25 bytes leaves the offset at
32, and an array of `2 ^ 61` objects (`2 ^ 29` on a 32-bit machine) at the
end of a buffer of 24 bytes has its first pointer stored past the end. -/
theorem launchDataUnpack_not_inBounds : ¬InBounds 25
        (launchDataUnpack (littleHost 8 (.inr rfl)) (ofList [0, 0, 0, 0, 0, 0, 0, 7]) 25 [] 0 0) ∧
      ¬InBounds 24 (launchDataUnpack (littleHost 8 (.inr rfl))
        (ofList [0, 0, 0, 0, 0, 0, 0, 2, 0, 0, 0, 0, 0, 0, 0, 0, 0x20]) 24 [] 0 0) ∧
      ¬InBounds 24 (launchDataUnpack (littleHost 4 (.inl rfl))
        (ofList [0, 0, 0, 0, 0, 0, 0, 2, 0, 0, 0, 0, 0, 0, 0, 0, 0, 0, 0, 0, 0x20]) 24 [] 0 0) := by
  decide +kernel

end Hexley.Launchd
