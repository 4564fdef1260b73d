import Mathlib.Data.List.GetD
import Mathlib.Data.List.Induction
import Mathlib.Data.Set.Function
import Mathlib.Order.Interval.Set.Basic
import Mathlib.Tactic.Common
import Mathlib.Tactic.Ring

/-!
Byte memories and the integers stored in them.

A memory is a total function from offsets to bytes. What a program may
touch of it is not a property of the memory but of the accesses, so no
length is attached here: a bounds check is part of the model of the
program that makes it. Two memories are compared on a range with
`Set.EqOn`, and every store comes with the two facts a proof needs of it,
what it puts at the range it covers and that it leaves everything else
alone.

Integers are stored as a fixed number of bytes in one of the two byte
orders. A program that converts between host order and network order is
modelled with the byte order of the host as a parameter, and the two
conversion laws (`Endian.val_bytes`, `Endian.bytes_val`) are all that is
ever used of it.
-/

namespace Hexley.Lib

open List

abbrev Mem := ℕ → UInt8

namespace Mem

def read (m : Mem) : ℕ → ℕ → List UInt8
  | _, 0 => []
  | p, n + 1 => m p :: read m (p + 1) n

def write (m : Mem) (p : ℕ) (bs : List UInt8) : Mem :=
  fun a => if a < p then m a else bs.getD (a - p) (m a)

@[simp] theorem read_zero (m : Mem) (p : ℕ) : m.read p 0 = [] := rfl

theorem read_succ (m : Mem) (p n : ℕ) : m.read p (n + 1) = m p :: m.read (p + 1) n := rfl

@[simp] theorem length_read (m : Mem) (p n : ℕ) : (m.read p n).length = n := by
  induction n generalizing p with
  | zero => rfl
  | succ n ih => simp [read_succ, ih]

theorem read_add (m : Mem) (p a b : ℕ) : m.read p (a + b) = m.read p a ++ m.read (p + a) b := by
  induction a generalizing p with
  | zero => simp
  | succ a ih =>
    rw [show a + 1 + b = (a + b) + 1 by omega, read_succ, read_succ, ih,
      show p + 1 + a = p + (a + 1) by omega]
    rfl

variable {m : Mem} {p n : ℕ}

theorem read_eq_take_append {k : ℕ} (hk : k ≤ n) :
    m.read p n = (m.read p n).take k ++ m.read (p + k) (n - k) := by
  obtain ⟨r, rfl⟩ := Nat.exists_eq_add_of_le hk
  rw [read_add, take_left' (length_read m p k), Nat.add_sub_cancel_left]

theorem getElem?_read (m : Mem) {i : ℕ} (h : i < n) : (m.read p n)[i]? = some (m (p + i)) := by
  induction n generalizing p i with
  | zero => omega
  | succ n ih =>
    cases i with
    | zero => simp [read_succ]
    | succ i =>
      rw [read_succ, getElem?_cons_succ, ih (by omega), show p + 1 + i = p + (i + 1) by omega]

variable {m' : Mem}

theorem read_congr (h : Set.EqOn m m' (Set.Ico p (p + n))) : m.read p n = m'.read p n := by
  induction n generalizing p with
  | zero => rfl
  | succ n ih =>
    rw [read_succ, read_succ, h ⟨le_refl p, by omega⟩,
      ih (h.mono (Set.Ico_subset_Ico (by omega) (by omega)))]

theorem eqOn_of_read_eq (h : m.read p n = m'.read p n) : Set.EqOn m m' (Set.Ico p (p + n)) := by
  intro a ha
  have hi : a - p < n := by have := ha.1; have := ha.2; omega
  have := congrArg (fun l => l[a - p]?) h
  simp only [getElem?_read _ hi, Option.some.injEq] at this
  rwa [show p + (a - p) = a by have := ha.1; omega] at this

variable {a : ℕ} {bs : List UInt8}

theorem write_of_lt (h : a < p) : m.write p bs a = m a := if_pos h

theorem write_of_le (h : p + bs.length ≤ a) : m.write p bs a = m a := by
  rw [write, if_neg (by omega), getD_eq_default _ _ (by omega)]

theorem write_apply (h : p ≤ a) (h' : a - p < bs.length) : m.write p bs a = bs[a - p] := by
  rw [write, if_neg (by omega), getD_eq_getElem _ _ h']

theorem write_eqOn (m : Mem) {s : Set ℕ}
    (h : ∀ a ∈ s, a < p ∨ p + bs.length ≤ a) : Set.EqOn (m.write p bs) m s := fun a ha =>
  (h a ha).elim write_of_lt write_of_le

variable {q : ℕ}

theorem write_compl (m : Mem) (h : q ≤ p)
    (h' : p + bs.length ≤ q + n) : Set.EqOn (m.write p bs) m (Set.Ico q (q + n))ᶜ := by
  refine write_eqOn m fun a ha => ?_
  simp only [Set.mem_compl_iff, Set.mem_Ico] at ha
  omega

@[simp] theorem read_write (m : Mem) (p : ℕ) (bs : List UInt8) :
    (m.write p bs).read p bs.length = bs := by
  refine ext_getElem? fun i => ?_
  by_cases hi : i < bs.length
  · rw [getElem?_read _ hi, write_apply (by omega) (by omega), getElem?_eq_getElem hi]
    simp
  · rw [getElem?_eq_none (by simpa using hi), getElem?_eq_none (by omega)]

theorem read_write_len (h : bs.length = n) : (m.write p bs).read p n = bs := by
  subst h; exact read_write m p bs

theorem read_write_off (m : Mem)
    (h : q + n ≤ p ∨ p + bs.length ≤ q) : (m.write p bs).read q n = m.read q n := by
  refine read_congr (write_eqOn m fun a ha => ?_)
  have := ha.1
  have := ha.2
  omega

@[simp] theorem write_nil (m : Mem) (p : ℕ) : m.write p [] = m := by
  ext a
  simp [write]

theorem write_append (m : Mem) (p : ℕ) (bs cs : List UInt8) :
    m.write p (bs ++ cs) = (m.write p bs).write (p + bs.length) cs := by
  funext a
  rcases lt_or_ge a p with h | h
  · rw [write_of_lt h, write_of_lt (by omega), write_of_lt h]
  rcases lt_or_ge a (p + bs.length) with h' | h'
  · rw [write_apply h (by simp; omega), write_of_lt h', write_apply h (by omega),
      getElem_append_left]
  rcases lt_or_ge a (p + bs.length + cs.length) with h'' | h''
  · rw [write_apply h (by simp; omega), write_apply h' (by omega), getElem_append_right (by omega)]
    congr 1
    omega
  · rw [write_of_le (by simp; omega), write_of_le h'', write_of_le h']

theorem write_write (m : Mem) {cs : List UInt8} (h : bs.length ≤ cs.length) :
    (m.write p bs).write p cs = m.write p cs := by
  funext a
  rcases lt_or_ge a p with ha | ha
  · rw [write_of_lt ha, write_of_lt ha, write_of_lt ha]
  rcases lt_or_ge a (p + cs.length) with ha' | ha'
  · rw [write_apply ha (by omega), write_apply ha (by omega)]
  · rw [write_of_le ha', write_of_le ha', write_of_le (by omega)]

theorem write_write_append (m : Mem) (p : ℕ) (bs cs : List UInt8) :
    (m.write (p + bs.length) cs).write p bs = m.write p (bs ++ cs) := by
  rw [write_append]
  funext a
  rcases lt_or_ge a (p + bs.length) with h | h
  · rw [write_of_lt h]
    rcases lt_or_ge a p with h' | h'
    · rw [write_of_lt h', write_of_lt h', write_of_lt h]
    · rw [write_apply h' (by omega), write_apply h' (by omega)]
  · rw [write_of_le h]
    rcases lt_or_ge a (p + bs.length + cs.length) with h' | h'
    · rw [write_apply h (by omega), write_apply h (by omega)]
    · rw [write_of_le h', write_of_le h', write_of_le h]

/-! ### What a memory holds -/

def Holds (m : Mem) (p : ℕ) (bs : List UInt8) : Prop := m.read p bs.length = bs

instance (m : Mem) (p : ℕ) (bs : List UInt8) : Decidable (m.Holds p bs) :=
  inferInstanceAs (Decidable (_ = _))

@[simp] theorem holds_nil (m : Mem) (p : ℕ) : m.Holds p [] := rfl

theorem holds_read (m : Mem) (p n : ℕ) : m.Holds p (m.read p n) := by
  rw [Holds, length_read]

theorem Holds.read_eq (h : m.Holds p bs) (hn : bs.length = n) : m.read p n = bs := hn ▸ h

theorem holds_append {as : List UInt8} :
    m.Holds p (as ++ bs) ↔ m.Holds p as ∧ m.Holds (p + as.length) bs := by
  rw [Holds, length_append, read_add]
  refine ⟨fun h => append_inj h (length_read _ _ _), fun ⟨ha, hb⟩ => ?_⟩
  rw [ha.read_eq rfl, hb.read_eq rfl]

theorem holds_cons {b : UInt8} : m.Holds p (b :: bs) ↔ m p = b ∧ m.Holds (p + 1) bs := by
  rw [Holds, length_cons, read_succ, List.cons.injEq, Holds]

theorem Holds.read_take {k : ℕ} (h : m.Holds p bs)
    (hk : k ≤ bs.length) : m.read p k = bs.take k := by
  have hall : m.read p bs.length = bs := h
  obtain ⟨r, hr⟩ := Nat.exists_eq_add_of_le hk
  rw [hr, read_add] at hall
  rw [← hall, take_left' (length_read m p k)]

theorem Holds.getElem? {i : ℕ} (h : m.Holds p bs)
    (hi : i < bs.length) : bs[i]? = some (m (p + i)) := by
  have hall : m.read p bs.length = bs := h
  rw [← getElem?_read m hi, hall]

theorem Holds.congr (h : m.Holds p bs)
    (heq : Set.EqOn m m' (Set.Ico p (p + bs.length))) : m'.Holds p bs :=
  (read_congr heq).symm.trans h

theorem Holds.eqOn (h : m.Holds p bs)
    (h' : m'.Holds p bs) : Set.EqOn m m' (Set.Ico p (p + bs.length)) :=
  eqOn_of_read_eq (h.trans (Eq.symm h'))

theorem holds_write (m : Mem) (p : ℕ) (bs : List UInt8) : (m.write p bs).Holds p bs :=
  read_write m p bs

theorem Holds.write {cs : List UInt8} (h : m.Holds p bs)
    (hdis : p + bs.length ≤ q ∨ q + cs.length ≤ p) : (m.write q cs).Holds p bs :=
  (read_write_off m hdis).trans h

theorem holds_write_iff {cs : List UInt8} (hdis : p + bs.length ≤ q ∨ q + cs.length ≤ p) :
    (m.write q cs).Holds p bs ↔ m.Holds p bs := by
  rw [Holds, read_write_off m hdis, Holds]

def ofList (bs : List UInt8) : Mem := fun a => bs.getD a 0

theorem holds_ofList (bs : List UInt8) : (ofList bs).Holds 0 bs := by
  refine ext_getElem? fun i => ?_
  by_cases hi : i < bs.length
  · rw [getElem?_read _ hi, zero_add, ofList, getD_eq_getElem _ _ hi, getElem?_eq_getElem hi]
  · rw [getElem?_eq_none (by simpa using hi), getElem?_eq_none (by omega)]

def drop (m : Mem) (p : ℕ) : Mem := fun a => m (p + a)

@[simp] theorem drop_apply (m : Mem) (p a : ℕ) : m.drop p a = m (p + a) := rfl

theorem read_drop (m : Mem) (p q n : ℕ) : (m.drop p).read q n = m.read (p + q) n := by
  induction n generalizing q with
  | zero => rfl
  | succ n ih => rw [read_succ, read_succ, ih, drop_apply, add_assoc p q 1]

theorem read_ofList_read {size : ℕ} (h : p + n ≤ size) :
    (ofList (m.read q size)).read p n = m.read (q + p) n := by
  rw [← read_drop]
  refine read_congr fun a ha => ?_
  have ha' : a < size := ha.2.trans_le h
  rw [ofList, getD_eq_getElem?_getD, getElem?_read m ha', Option.getD_some, drop_apply]

end Mem

/-! ### Integers in bytes -/

inductive Endian
  | big
  | little
  deriving DecidableEq, Repr

def leBytes : ℕ → ℕ → List UInt8
  | 0, _ => []
  | n + 1, v => UInt8.ofNat (v % 256) :: leBytes n (v / 256)

def leVal : List UInt8 → ℕ
  | [] => 0
  | b :: bs => b.toNat + 256 * leVal bs

@[simp] theorem length_leBytes (n v : ℕ) : (leBytes n v).length = n := by
  induction n generalizing v with
  | zero => rfl
  | succ n ih => simp [leBytes, ih]

theorem leVal_leBytes (n v : ℕ) : leVal (leBytes n v) = v % 256 ^ n := by
  induction n generalizing v with
  | zero => simp [leBytes, leVal, Nat.mod_one]
  | succ n ih =>
    have hb : (UInt8.ofNat (v % 256)).toNat = v % 256 := by simp
    rw [leBytes, leVal, ih, hb, pow_succ', Nat.mod_mul]

theorem take_leBytes {k n : ℕ} (h : k ≤ n) (v : ℕ) : (leBytes n v).take k = leBytes k v := by
  induction k generalizing n v with
  | zero => rfl
  | succ k ih =>
    cases n with
    | zero => exact absurd h (Nat.not_succ_le_zero k)
    | succ n => rw [leBytes, take_succ_cons, ih (Nat.le_of_succ_le_succ h), leBytes]

theorem leVal_lt (bs : List UInt8) : leVal bs < 256 ^ bs.length := by
  induction bs with
  | nil => simp [leVal]
  | cons b bs ih =>
    have hb := b.toNat_lt
    rw [leVal, length_cons, pow_succ]
    omega

theorem leBytes_leVal (bs : List UInt8) : leBytes bs.length (leVal bs) = bs := by
  induction bs with
  | nil => rfl
  | cons b bs ih =>
    have hb := b.toNat_lt
    rw [length_cons, leBytes, leVal, show (b.toNat + 256 * leVal bs) / 256 = leVal bs by omega,
      show (b.toNat + 256 * leVal bs) % 256 = b.toNat by omega, ih, UInt8.ofNat_toNat]

namespace Endian

variable (e : Endian) (n v : ℕ) (bs : List UInt8)

def bytes : List UInt8 :=
  match e with
  | big => (leBytes n v).reverse
  | little => leBytes n v

def val : ℕ :=
  match e with
  | big => leVal bs.reverse
  | little => leVal bs

@[simp] theorem val_big_concat (b : UInt8) : big.val (bs ++ [b]) = big.val bs * 256 + b.toNat := by
  rw [val, reverse_append, reverse_singleton, singleton_append, leVal, val]
  omega

theorem val_big_append (bs cs : List UInt8) :
    big.val (bs ++ cs) = big.val bs * 256 ^ cs.length + big.val cs := by
  induction cs using List.reverseRecOn with
  | nil => simp [val, leVal]
  | append_singleton cs c ih =>
    rw [← append_assoc, val_big_concat, val_big_concat, ih, length_append,
      length_singleton, pow_succ]
    ring

@[simp] theorem length_bytes : (e.bytes n v).length = n := by
  cases e <;> simp [bytes]

theorem read_write (m : Mem) (p n v : ℕ) : (m.write p (e.bytes n v)).read p n = e.bytes n v :=
  Mem.read_write_len (length_bytes e n v)

@[simp] theorem val_bytes : e.val (e.bytes n v) = v % 256 ^ n := by
  cases e <;> simp [bytes, val, leVal_leBytes]

theorem val_bytes_of {n v : ℕ} (h : v < 256 ^ n) : e.val (e.bytes n v) = v := by
  rw [val_bytes, Nat.mod_eq_of_lt h]

theorem drop_big_bytes {k n : ℕ} (h : k ≤ n) (v : ℕ) :
    (big.bytes n v).drop (n - k) = big.bytes k v := by
  rw [bytes, drop_reverse, length_leBytes, Nat.sub_sub_self h, take_leBytes h, bytes]

theorem val_lt : e.val bs < 256 ^ bs.length := by
  cases e
  · simpa [val] using leVal_lt bs.reverse
  · exact leVal_lt bs

theorem bytes_val {n : ℕ} {bs : List UInt8} (h : bs.length = n) : e.bytes n (e.val bs) = bs := by
  subst h
  cases e
  · have := leBytes_leVal bs.reverse
    rw [length_reverse] at this
    simp [bytes, val, this]
  · exact leBytes_leVal bs

end Endian

end Hexley.Lib
