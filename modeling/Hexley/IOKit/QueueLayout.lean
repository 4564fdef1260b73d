import Hexley.IOKit.DataQueue

/-!
How the entries of a queue lie in its memory.

The entries that are waiting lie one behind the other from the head to the
tail, or they go on at the start of the queue with the first entry that did
not fit in front of its end. Then the tail is in front of the head, and the
size of that entry stands where it would have been, if there is room for it.

The consumer takes the first entry out, and the producer writes to free
memory and then puts the tail behind what it has written. The lemmas here
say what these do to the layout.
-/

namespace Hexley.IOKit

open Lib List Mem

variable {b : Entry}

section Encode

variable (e : Endian)

def encode (b : Entry) : List UInt8 := e.bytes headerSize b.length ++ b

def encodeAll (bs : List Entry) : List UInt8 := bs.flatMap (encode e)

variable {e} {bs cs : List Entry}

@[simp] theorem length_encode : (encode e b).length = headerSize + b.length := by
  rw [encode, length_append, Endian.length_bytes]

@[simp] theorem encodeAll_nil : encodeAll e [] = [] := rfl

@[simp] theorem encodeAll_cons : encodeAll e (b :: bs) = encode e b ++ encodeAll e bs :=
  flatMap_cons

@[simp] theorem encodeAll_one : encodeAll e [b] = encode e b := by
  rw [encodeAll_cons, encodeAll_nil, append_nil]

@[simp] theorem encodeAll_append : encodeAll e (bs ++ cs) = encodeAll e bs ++ encodeAll e cs :=
  flatMap_append

theorem length_encodeAll_eq_zero_iff : (encodeAll e bs).length = 0 ↔ bs = [] := by
  cases bs with
  | nil => exact iff_of_true rfl rfl
  | cons b bs =>
    refine iff_of_false ?_ (cons_ne_nil b bs)
    rw [encodeAll_cons, length_append, length_encode, headerSize]
    omega

end Encode

structure Flat (e : Endian) (q : Queue) (pending : List Entry) : Prop where
  tail_le : q.tail ≤ q.queueSize
  tail_eq : q.tail = q.head + (encodeAll e pending).length
  holds : q.queue.Holds q.head (encodeAll e pending)

/-- The entries `bs` lie at the head, and `b` and `bs'` at the start of the queue. -/
structure Wrapped (e : Endian) (q : Queue) (bs : List Entry) (b : Entry) (bs' : List Entry) :
    Prop where
  tail_lt : q.tail < q.head
  end_le : q.head + (encodeAll e bs).length ≤ q.queueSize
  holds : q.queue.Holds q.head (encodeAll e bs)
  beyond : q.queueSize < q.head + (encodeAll e bs).length + (headerSize + b.length)
  lt : q.head + (encodeAll e bs).length + (headerSize + b.length) < 2 ^ 32
  mark : q.head + (encodeAll e bs).length + headerSize ≤ q.queueSize →
    q.queue.Holds (q.head + (encodeAll e bs).length) (e.bytes headerSize b.length)
  tail_eq : q.tail = (encodeAll e (b :: bs')).length
  holds_start : q.queue.Holds 0 (encodeAll e (b :: bs'))

def Stored (e : Endian) (q : Queue) (pending : List Entry) : Prop :=
  Flat e q pending ∨ ∃ bs b bs', pending = bs ++ b :: bs' ∧ Wrapped e q bs b bs'

def Queue.first (q : Queue) (b : Entry) : ℕ :=
  if q.head + (headerSize + b.length) ≤ q.queueSize then q.head else 0

section Layout

variable {e : Endian} {q : Queue} {pending bs bs' : List Entry}

theorem Flat.head_le (h : Flat e q pending) : q.head ≤ q.tail := by
  rw [h.tail_eq]
  exact Nat.le_add_right _ _

theorem Stored.head_eq_tail_iff (h : Stored e q pending) : q.head = q.tail ↔ pending = [] := by
  rcases h with h | ⟨bs, b, bs', rfl, h⟩
  · rw [← length_encodeAll_eq_zero_iff (e := e), h.tail_eq]
    omega
  · refine iff_of_false h.tail_lt.ne' ?_
    simp

theorem Stored.head_le (h : Stored e q pending) : q.head ≤ q.queueSize := by
  rcases h with h | ⟨bs, b, bs', rfl, h⟩
  · exact h.head_le.trans h.tail_le
  · exact (Nat.le_add_right _ _).trans h.end_le

theorem Stored.tail_le (h : Stored e q pending) : q.tail ≤ q.queueSize := by
  rcases h with h | ⟨bs, b, bs', rfl, h⟩
  · exact h.tail_le
  · have := h.tail_lt
    have := h.end_le
    omega

theorem size_eq {p n : ℕ} (h : q.queue.Holds p (e.bytes headerSize n)) (hn : n < 2 ^ 32) :
    q.size e p = n := by
  rw [Queue.size, h.read_eq (Endian.length_bytes e headerSize n)]
  exact Endian.val_bytes_of e hn

/-! ### The first entry -/

structure First (e : Endian) (q : Queue) (b : Entry) : Prop where
  lt : q.head + (headerSize + b.length) < 2 ^ 32
  size : q.head + headerSize ≤ q.queueSize → q.size e q.head = b.length
  holds : q.queue.Holds (q.first b) (encode e b)

theorem holds_encodeAll_cons {p : ℕ} (h : q.queue.Holds p (encodeAll e (b :: pending))) :
    q.queue.Holds p (encode e b) ∧
      q.queue.Holds (p + (headerSize + b.length)) (encodeAll e pending) := by
  rwa [encodeAll_cons, holds_append, length_encode] at h

section

variable (h : Stored e q (b :: pending))
include h

/-- The first entry lies at the head or, if it does not fit there, at the start of the queue. The
others are stored behind it. -/
theorem Stored.uncons : q.queue.Holds (q.first b) (encode e b) ∧
    Stored e { q with head := q.first b + (headerSize + b.length) } pending ∧
    (q.first b = q.head ∧ q.head + (headerSize + b.length) ≤ q.queueSize ∧
        (q.head ≤ q.tail → q.head + (headerSize + b.length) ≤ q.tail) ∨
      q.first b = 0 ∧ q.tail < q.head ∧ headerSize + b.length ≤ q.tail ∧
        q.head + (headerSize + b.length) < 2 ^ 32 ∧ (q.head + headerSize ≤ q.queueSize →
          q.queue.Holds q.head (e.bytes headerSize b.length))) := by
  rcases h with h | ⟨bs, c, bs', heq, h⟩
  · obtain ⟨hb, hrest⟩ := holds_encodeAll_cons h.holds
    have hlen := h.tail_eq
    have htail := h.tail_le
    rw [encodeAll_cons, length_append, length_encode] at hlen
    have hfirst : q.first b = q.head := if_pos (by omega)
    rw [hfirst]
    exact ⟨hb, .inl ⟨htail, by dsimp only; omega, hrest⟩, .inl ⟨rfl, by omega, fun _ => by omega⟩⟩
  have htail := h.tail_lt
  have hend := h.end_le
  have hlen := h.tail_eq
  rw [encodeAll_cons, length_append, length_encode] at hlen
  cases bs with
  | nil =>
    obtain ⟨rfl, rfl⟩ := List.cons.inj heq
    obtain ⟨hb, hrest⟩ := holds_encodeAll_cons h.holds_start
    have hbeyond := h.beyond
    have hlt := h.lt
    have hmark := h.mark
    rw [encodeAll_nil, length_nil, add_zero] at hbeyond hlt hend hmark
    have hfirst : q.first b = 0 := if_neg (by omega)
    rw [hfirst]
    exact ⟨hb, .inl ⟨by dsimp only; omega, by dsimp only; omega, hrest⟩,
      .inr ⟨rfl, htail, by omega, hlt, hmark⟩⟩
  | cons b' bs =>
    obtain ⟨rfl, rfl⟩ := List.cons.inj heq
    obtain ⟨hb, hrest⟩ := holds_encodeAll_cons h.holds
    have hsum : q.head + (encodeAll e (b :: bs)).length =
        q.head + (headerSize + b.length) + (encodeAll e bs).length := by
      rw [encodeAll_cons, length_append, length_encode]
      omega
    rw [hsum] at hend
    have hfirst : q.first b = q.head := if_pos (by omega)
    rw [hfirst]
    exact ⟨hb, .inr ⟨bs, c, bs', rfl, by dsimp only; omega, hend, hrest, hsum ▸ h.beyond,
        hsum ▸ h.lt, hsum ▸ h.mark, h.tail_eq, h.holds_start⟩,
      .inl ⟨rfl, by omega, fun hflat => absurd htail (not_lt.mpr hflat)⟩⟩

theorem Stored.first (hsize : q.queueSize < 2 ^ 32) : First e q b := by
  obtain ⟨hb, -, ⟨hfirst, hfits, -⟩ | ⟨-, -, -, hlt, hmark⟩⟩ := h.uncons
  · refine ⟨by omega, fun _ => size_eq ?_ (by omega), hb⟩
    rw [← hfirst]
    exact (holds_append.mp hb).1
  · exact ⟨hlt, fun hroom => size_eq (hmark hroom) (by omega), hb⟩

theorem Stored.pop : Stored e { q with head := q.first b + (headerSize + b.length) } pending :=
  h.uncons.2.1

theorem Stored.first_add : (q.head ≤ q.tail → q.head ≤ q.first b + (headerSize + b.length) ∧
        q.first b + (headerSize + b.length) ≤ q.tail) ∧
      (q.tail < q.head → q.head ≤ q.first b + (headerSize + b.length) ∨
        q.first b + (headerSize + b.length) ≤ q.tail) := by
  obtain ⟨-, -, ⟨hfirst, -, hflat⟩ | ⟨hfirst, hlt, hle, -⟩⟩ := h.uncons
  · rw [hfirst]
    omega
  · rw [hfirst]
    omega

end

/-! ### Free memory -/

def Free (q : Queue) (p n : ℕ) : Prop :=
  (q.head ≤ q.tail → q.tail ≤ p ∨ p + n ≤ q.head) ∧ (q.tail < q.head → q.tail ≤ p ∧ p + n ≤ q.head)

theorem Stored.write (h : Stored e q pending) {p : ℕ} {data : List UInt8}
    (hfree : Free q p data.length) : Stored e { q with queue := q.queue.write p data } pending := by
  rcases h with h | ⟨bs, b, bs', rfl, h⟩
  · have hlen := h.tail_eq
    have := hfree.1 h.head_le
    exact .inl ⟨h.tail_le, hlen, h.holds.write (by omega)⟩
  · have hlen := h.tail_eq
    obtain ⟨hlow, hhigh⟩ := hfree.2 h.tail_lt
    refine .inr ⟨bs, b, bs', rfl, h.tail_lt, h.end_le, ?_, h.beyond, h.lt, fun hroom => ?_,
      hlen, ?_⟩
    · exact h.holds.write (.inr hhigh)
    · exact (h.mark hroom).write (.inr (by omega))
    · exact h.holds_start.write (.inl (by omega))

/-! ### One more entry -/

theorem Stored.push (h : Stored e q pending) (hb : q.queue.Holds q.tail (encode e b))
    (hflat : q.head ≤ q.tail → q.tail + (headerSize + b.length) ≤ q.queueSize)
    (hwrapped : q.tail < q.head → q.tail + (headerSize + b.length) < q.head) :
    Stored e { q with tail := q.tail + (headerSize + b.length) } (pending ++ [b]) := by
  rcases h with h | ⟨bs, c, bs', rfl, h⟩
  · refine .inl ⟨hflat h.head_le, ?_, ?_⟩
    · have hlen := h.tail_eq
      rw [encodeAll_append, length_append, encodeAll_one, length_encode]
      dsimp only
      omega
    · rw [encodeAll_append, encodeAll_one, holds_append, ← h.tail_eq]
      exact ⟨h.holds, hb⟩
  · refine .inr ⟨bs, c, bs' ++ [b], by rw [append_assoc]; rfl, hwrapped h.tail_lt, h.end_le,
      h.holds, h.beyond, h.lt, h.mark, ?_, ?_⟩
    · have hlen := h.tail_eq
      rw [← cons_append, encodeAll_append, length_append, encodeAll_one, length_encode]
      dsimp only
      omega
    · rw [← cons_append, encodeAll_append, encodeAll_one, holds_append, ← h.tail_eq, zero_add]
      exact ⟨h.holds_start, hb⟩

theorem Stored.pushStart (h : Stored e q pending) (hflat : q.head ≤ q.tail)
    (hb : q.queue.Holds 0 (encode e b)) (hlt : headerSize + b.length < q.head)
    (hbeyond : q.queueSize < q.tail + (headerSize + b.length))
    (hsum : q.tail + (headerSize + b.length) < 2 ^ 32) (hmark : q.tail + headerSize ≤ q.queueSize →
      q.queue.Holds q.tail (e.bytes headerSize b.length)) :
    Stored e { q with tail := headerSize + b.length } (pending ++ [b]) := by
  rcases h with h | ⟨bs, c, bs', rfl, h⟩
  · have hlen := h.tail_eq
    have htail := h.tail_le
    refine .inr ⟨pending, b, [], rfl, hlt, by dsimp only; omega, h.holds, ?_, ?_, ?_, ?_, ?_⟩
    · rw [← hlen]
      exact hbeyond
    · rw [← hlen]
      exact hsum
    · rw [← hlen]
      exact hmark
    · rw [encodeAll_one, length_encode]
    · rw [encodeAll_one]
      exact hb
  · exact absurd h.tail_lt (not_lt.mpr hflat)

end Layout

end Hexley.IOKit
