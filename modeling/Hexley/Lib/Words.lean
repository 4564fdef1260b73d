import Hexley.Lib.Bytes

/-!
Arrays of 64-bit words in byte memories.

A word is eight bytes in the byte order of the machine. An array of words is
read as a list, and adding one array to another word by word is the one loop
over arrays that programs here have.
-/

namespace Hexley.Lib

open List

abbrev Word64 := BitVec 64

namespace Mem

variable (e : Endian)

def zero : Mem := fun _ => 0

def word (m : Mem) (p : ℕ) : Word64 := BitVec.ofNat 64 (e.val (m.read p 8))

def setWord (m : Mem) (p : ℕ) (w : Word64) : Mem := m.write p (e.bytes 8 w.toNat)

def words (m : Mem) : ℕ → ℕ → List Word64
  | _, 0 => []
  | p, n + 1 => m.word e p :: words m (p + 8) n

/-- The `n` words of `new` from `q` on are added to those of `m` from `p` on. -/
def addWords (m : Mem) (p : ℕ) (new : Mem) (q : ℕ) : ℕ → Mem
  | 0 => m
  | n + 1 =>
    let m' := addWords m p new q n
    m'.setWord e (p + 8 * n) (m'.word e (p + 8 * n) + new.word e (q + 8 * n))

variable {e} {m m' new : Mem} {p q n k : ℕ} {w : Word64}

theorem word_setWord : (m.setWord e p w).word e p = w := by
  rw [word, setWord, read_write_len (Endian.length_bytes e 8 _),
    Endian.val_bytes_of e w.isLt, BitVec.ofNat_toNat, BitVec.setWidth_eq]

theorem read_setWord_off (h : q + n ≤ p ∨ p + 8 ≤ q) : (m.setWord e p w).read q n = m.read q n := by
  refine read_write_off m ?_
  rwa [Endian.length_bytes]

theorem word_congr (h : m.read p 8 = m'.read q 8) : m.word e p = m'.word e q := by
  rw [word, word, h]

@[simp] theorem length_words : (m.words e p n).length = n := by
  induction n generalizing p with
  | zero => rfl
  | succ n ih => rw [words, length_cons, ih]

theorem words_congr (h : m.read p (8 * n) = m'.read q (8 * n)) :
    m.words e p n = m'.words e q n := by
  induction n generalizing p q with
  | zero => rfl
  | succ n ih =>
    rw [Nat.mul_succ, add_comm, read_add, read_add] at h
    obtain ⟨hfirst, hrest⟩ := append_inj h (by rw [length_read, length_read])
    rw [words, words, word_congr hfirst, ih hrest]

theorem words_succ_eq_append : m.words e p (n + 1) = m.words e p n ++ [m.word e (p + 8 * n)] := by
  induction n generalizing p with
  | zero => rfl
  | succ n ih =>
    rw [words, ih, words, cons_append, Nat.mul_succ, add_comm (8 * n) 8, add_assoc]

theorem read_addWords_off {r : ℕ} (h : r + k ≤ p ∨ p + 8 * n ≤ r) :
    (m.addWords e p new q n).read r k = m.read r k := by
  induction n with
  | zero => rfl
  | succ n ih =>
    rw [addWords, read_setWord_off (by omega)]
    exact ih (by omega)

theorem words_addWords : (m.addWords e p new q n).words e p n =
      List.zipWith (· + ·) (m.words e p n) (new.words e q n) := by
  induction n with
  | zero => rfl
  | succ n ih =>
    have hlow : (m.addWords e p new q (n + 1)).words e p n = (m.addWords e p new q n).words e p n :=
      words_congr (read_setWord_off (.inl le_rfl))
    have hlast : (m.addWords e p new q n).word e (p + 8 * n) = m.word e (p + 8 * n) :=
      word_congr (read_addWords_off (.inr le_rfl))
    rw [words_succ_eq_append, words_succ_eq_append, words_succ_eq_append, hlow, ih,
      zipWith_append (by rw [length_words, length_words]), addWords, word_setWord, hlast]
    rfl

theorem words_zero : zero.words e p n = List.replicate n 0 := by
  have hword (p : ℕ) : zero.word e p = 0 := by
    cases e <;> rfl
  induction n generalizing p with
  | zero => rfl
  | succ n ih => rw [words, hword, ih, replicate_succ]

theorem words_add : m.words e p (n + k) = m.words e p n ++ m.words e (p + 8 * n) k := by
  induction n generalizing p with
  | zero => rw [zero_add]; rfl
  | succ n ih =>
    rw [add_right_comm, words, ih, words, cons_append, Nat.mul_succ, add_comm (8 * n) 8, add_assoc]

theorem headD_words (h : 0 < n) (d : Word64) : (m.words e p n).headD d = m.word e p := by
  cases n with
  | zero => exact absurd h (lt_irrefl 0)
  | succ n => rfl

theorem take_words : (m.words e p (n + k)).take n = m.words e p n := by
  rw [words_add, take_left' length_words]

theorem drop_words : (m.words e p (n + k)).drop n = m.words e (p + 8 * n) k := by
  rw [words_add, drop_left' length_words]

end Mem

end Hexley.Lib
