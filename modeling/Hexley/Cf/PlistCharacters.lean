import Hexley.Lib.Outcome
import Hexley.Lib.Unicode

/-!
`_plistAppendCharacters` of the writer for XML property lists.

The ASCII characters at the front are copied through a buffer of 400 bytes
and what follows them is left to `CFStringCreateExternalRepresentation`.
The loop that fills the buffer starts at the first character in every round,
and only the test against `curLoc` stops it. A second round therefore puts
everything that has been flushed into the buffer once more, and runs over
its end.
-/

namespace Hexley.Cf.PlistWriter

open Lib Outcome List UInt16

def bufLen : ℕ := 400

def fillBuffer (curLoc : ℕ) : List UInt16 → ℕ → List UInt8 → Outcome (ℕ × List UInt8)
  | [], cnt, buf => pure (cnt, buf)
  | ch :: chars, cnt, buf =>
    -- `cnt - curLoc` is negative as long as `cnt` is at what has been flushed.
    if cnt < curLoc + bufLen ∧ ch.toNat < 128 then
      if buf.length < bufLen then fillBuffer curLoc chars (cnt + 1) (buf ++ [ch.toUInt8])
      else fault
    else pure (cnt, buf)

/-- The rounds of `_plistAppendCharacters`: how far they come, and the data with what they have
flushed. -/
def flushASCII (chars : List UInt16) : ℕ → ℕ → List UInt8 → Outcome (ℕ × List UInt8)
  | 0, _, _ => exhausted
  | rounds + 1, curLoc, mData => do
      let (cnt, buf) ← fillBuffer curLoc chars 0 []
      let (curLoc, mData) :=
        if cnt > curLoc then (cnt, mData ++ buf.take (cnt - curLoc)) else (curLoc, mData)
      if ∃ ch ∈ chars[curLoc]?, ch.toNat < 128 then flushASCII chars rounds curLoc mData
      else pure (curLoc, mData)

/-- `_plistAppendCharacters`. What `CFStringCreateExternalRepresentation` makes of a string in
UTF-8 is a parameter; if it makes nothing, nothing is appended. -/
def plistAppendCharacters (externalRepresentation : List UInt16 → Option (List UInt8))
    (mData : List UInt8) (chars : List UInt16) : Outcome (List UInt8) := do
  let (curLoc, mData) ← flushASCII chars (chars.length + 1) 0 mData
  if curLoc < chars.length then
    pure (mData ++ (externalRepresentation (chars.drop curLoc)).getD [])
  else pure mData

section Buffer

variable {curLoc cnt : ℕ} {xs ys : List UInt16} {buf mData : List UInt8}

theorem fillBuffer_append (hxs : ∀ x ∈ xs, x.toNat < 128) (hcnt : cnt + xs.length ≤ curLoc + bufLen)
    (hbuf : buf.length + xs.length ≤ bufLen) : fillBuffer curLoc (xs ++ ys) cnt buf =
      fillBuffer curLoc ys (cnt + xs.length) (buf ++ xs.map toUInt8) := by
  induction xs generalizing cnt buf with
  | nil => simp
  | cons x xs ih =>
    obtain ⟨hx, hxs⟩ := forall_mem_cons.mp hxs
    rw [length_cons] at hcnt hbuf
    rw [cons_append, fillBuffer, if_pos ⟨by omega, hx⟩, if_pos (by omega),
      ih hxs (by omega) (by rw [length_append, length_singleton]; omega)]
    simp [Nat.add_right_comm]
    rfl

theorem fillBuffer_stop (h : cnt < curLoc + bufLen → ∀ y ∈ ys.head?, 128 ≤ y.toNat) :
    fillBuffer curLoc ys cnt buf = .ok (cnt, buf) := by
  cases ys with
  | nil => rfl
  | cons y ys =>
    refine if_neg fun ⟨hcnt, hy⟩ => ?_
    exact absurd (h hcnt y rfl) (not_le.mpr hy)

theorem flushASCII_first (rounds : ℕ) (hxs : ∀ x ∈ xs, x.toNat < 128) (hle : xs.length ≤ bufLen)
    (hys : xs.length < bufLen → ∀ y ∈ ys.head?, 128 ≤ y.toNat) :
    flushASCII (xs ++ ys) (rounds + 1) 0 mData =
      if ∃ y ∈ ys.head?, y.toNat < 128 then
        flushASCII (xs ++ ys) rounds xs.length (mData ++ xs.map toUInt8)
      else .ok (xs.length, mData ++ xs.map toUInt8) := by
  have hfill : fillBuffer 0 (xs ++ ys) 0 [] = .ok (xs.length, xs.map toUInt8) := by
    rw [fillBuffer_append hxs (by omega) (by simpa using hle), fillBuffer_stop (by simpa using hys)]
    simp
  have hhead : (xs ++ ys)[xs.length]? = ys.head? := by
    rw [getElem?_append_right (Nat.le_refl _), Nat.sub_self, head?_eq_getElem?]
  rw [flushASCII, hfill, ok_bind]
  cases xs <;> simp_all [pure_eq, take_of_length_le]

theorem flushASCII_long (hxs : ∀ x ∈ xs, x.toNat < 128) (hlen : bufLen < xs.length) :
    flushASCII (xs ++ ys) ((xs ++ ys).length + 1) 0 mData = fault := by
  have hlen' : (xs.take bufLen).length = bufLen := by
    rw [length_take, Nat.min_eq_left (Nat.le_of_lt hlen)]
  have hfull : ¬((xs.take bufLen).map toUInt8).length < bufLen := by
    rw [length_map, hlen']
    exact lt_irrefl _
  have hxs' : ∀ x ∈ xs.take bufLen, x.toNat < 128 := fun x hx => hxs x (mem_of_mem_take hx)
  have hy := hxs _ (getElem_mem hlen)
  have hsplit : xs ++ ys = xs.take bufLen ++ xs[bufLen] :: (xs.drop (bufLen + 1) ++ ys) := by
    rw [← cons_append, ← drop_eq_getElem_cons hlen, ← append_assoc, take_append_drop]
  obtain ⟨rounds, hrounds⟩ : ∃ rounds, (xs ++ ys).length = rounds + 1 :=
    Nat.exists_eq_succ_of_ne_zero (by rw [length_append]; omega)
  rw [hrounds, hsplit, flushASCII_first _ hxs' hlen'.le (fun h => absurd hlen' h.ne),
    if_pos ⟨_, rfl, hy⟩, flushASCII, fillBuffer_append hxs' (by omega) (by simp),
    fillBuffer,
    if_pos ⟨by rw [hlen']; decide, hy⟩, nil_append, if_neg hfull, fault_bind]

end Buffer

section Characters

variable {cs : List Char}

theorem utf16_ascii (h : ∀ c ∈ cs, c.toNat < 128) : (utf16 cs).length = cs.length ∧
    (∀ x ∈ utf16 cs, x.toNat < 128) ∧ (utf16 cs).map toUInt8 = utf8 cs := by
  induction cs with
  | nil => exact ⟨rfl, nofun, rfl⟩
  | cons c cs ih =>
    obtain ⟨hc, hcs⟩ := forall_mem_cons.mp h
    obtain ⟨hlen, hall, hmap⟩ := ih hcs
    have hunit : utf16EncodeChar c = [ofNat c.toNat] := if_pos (by omega)
    have hbyte : String.utf8EncodeChar c = [UInt8.ofNat c.toNat] := utf8EncodeChar_eq (by
      simp [utf8Values, hc]
      omega)
    have hcons : utf16 (c :: cs) = ofNat c.toNat :: utf16 cs := by
      rw [utf16, flatMap_cons, hunit]; rfl
    refine ⟨by rw [hcons, length_cons, hlen, length_cons], ?_, ?_⟩
    · rw [hcons, forall_mem_cons]
      exact ⟨by simp; omega, hall⟩
    · rw [hcons, map_cons, hmap, utf8, utf8, flatMap_cons, hbyte]
      simp

theorem head_utf16 (h : ∀ c ∈ cs.head?, 128 ≤ c.toNat) : ∀ y ∈ (utf16 cs).head?, 128 ≤ y.toNat := by
  cases cs with
  | nil => nofun
  | cons c cs =>
    have hc := h c rfl
    rcases utf16_cases c with ⟨-, u, hu, hn⟩ | ⟨-, u, v, hu, hn, -⟩
    all_goals
      rw [utf16, flatMap_cons, hu]
      rintro y ⟨⟩
      omega

end Characters

def asciiFront (cs : List Char) : List Char := cs.takeWhile (·.toNat < 128)

/-- For every text in UTF-16, in whatever data it is appended to: the characters are copied inside
the buffer and the UTF-8 form of the text is appended, exactly if there are at most 400 ASCII
characters at its front. -/
theorem plistAppendCharacters_iff {externalRepresentation : List UInt16 → Option (List UInt8)}
    (hrep : ∀ cs, externalRepresentation (utf16 cs) = some (utf8 cs)) (mData : List UInt8)
    (cs : List Char) :
    plistAppendCharacters externalRepresentation mData (utf16 cs) = .ok (mData ++ utf8 cs) ↔
      (asciiFront cs).length ≤ 400 := by
  have hsplit : cs = asciiFront cs ++ cs.dropWhile (·.toNat < 128) :=
    takeWhile_append_dropWhile.symm
  have hfront : ∀ c ∈ asciiFront cs, c.toNat < 128 := fun c hc =>
    of_decide_eq_true (all_eq_true.mp all_takeWhile c hc)
  have hrest : ∀ c ∈ (cs.dropWhile (·.toNat < 128)).head?, 128 ≤ c.toNat := by
    intro c hc
    have hstop := head?_dropWhile_not (fun c : Char => c.toNat < 128) cs
    rw [Option.mem_def.mp hc] at hstop
    exact not_lt.mp (of_decide_eq_false hstop)
  generalize asciiFront cs = front at hsplit hfront
  generalize cs.dropWhile (·.toNat < 128) = rest at hsplit hrest
  subst hsplit
  obtain ⟨hlen, hall, hmap⟩ := utf16_ascii hfront
  have hhead := head_utf16 hrest
  have happend : utf16 (front ++ rest) = utf16 front ++ utf16 rest := flatMap_append
  have happend' : utf8 (front ++ rest) = utf8 front ++ utf8 rest := flatMap_append
  rw [plistAppendCharacters, happend, happend', ← hlen]
  by_cases hle : (utf16 front).length ≤ 400
  · refine iff_of_true ?_ hle
    have hstop : ¬∃ y ∈ (utf16 rest).head?, y.toNat < 128 := fun ⟨y, hy, hlt⟩ =>
      absurd (hhead y hy) (not_le.mpr hlt)
    rw [flushASCII_first _ hall hle fun _ => hhead, if_neg hstop, ok_bind, hmap]
    simp only [drop_left, hrep, Option.getD_some, length_append, pure_eq, append_assoc]
    cases rest with
    | nil => simp [utf8, utf16]
    | cons c rest =>
      have hpos := length_pos_iff.mpr (prefixCode_utf16.ne_nil c)
      rw [if_pos]
      rw [utf16, utf16, flatMap_cons, length_append]
      omega
  · refine iff_of_false ?_ hle
    have hlt : 400 < (utf16 front).length := not_le.mp hle
    rw [flushASCII_long hall hlt]
    nofun

theorem plistAppendCharacters_accent : ∃ rep : List UInt16 → Option (List UInt8),
    (∀ cs, rep (utf16 cs) = some (utf8 cs)) ∧
      plistAppendCharacters rep [] (utf16 ['a', 'é']) = .ok ([] ++ utf8 ['a', 'é']) := by
  classical
  have hrep (cs : List Char) : (if h : ∃ ds, utf16 ds = utf16 cs then some (utf8 h.choose)
      else none) = some (utf8 cs) := by
    have hex : ∃ ds, utf16 ds = utf16 cs := ⟨cs, rfl⟩
    rw [dif_pos hex, prefixCode_utf16.flatMap_inj hex.choose_spec]
  exact ⟨fun units => if h : ∃ ds, utf16 ds = units then some (utf8 h.choose) else none, hrep,
    (plistAppendCharacters_iff hrep [] ['a', 'é']).mpr (by decide)⟩

theorem plistAppendCharacters_overrun :
    plistAppendCharacters (fun _ => none) [] (utf16 (replicate 401 'a')) = fault := by
  decide +kernel

end Hexley.Cf.PlistWriter
