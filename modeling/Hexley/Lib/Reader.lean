import Hexley.Lib.Bytes

/-!
Programs that read a byte memory.

A decoder is judged by two things, what it returns and which bytes it
looks at. `Rd` keeps both: a program is a tree of reads, `run` gives its
result on a memory and `reads` the addresses it looked at on the way. That
the result depends on nothing but these bytes is then true of every program
(`run_congr`) and need not be shown of any decoder.

The two are computed together by the equations for `pure`, `bind` and the
reads, which are tagged for `simp`, so that a decoder written in `do`
notation is unfolded by naming it.
-/

namespace Hexley.Lib

/-- A program that reads bytes and ends with an `α`. -/
inductive Rd (α : Type)
  | done (a : α)
  | read (p : ℕ) (k : UInt8 → Rd α)

namespace Rd

variable {α β : Type} {m m' : Mem}

def andThen (x : Rd α) (f : α → Rd β) : Rd β :=
  match x with
  | done a => f a
  | read p k => read p fun b => (k b).andThen f

instance : Monad Rd where
  pure := done
  bind := andThen

def run (m : Mem) : Rd α → α
  | done a => a
  | read p k => (k (m p)).run m

def reads (m : Mem) : Rd α → List ℕ
  | done _ => []
  | read p k => p :: (k (m p)).reads m

def byte (p : ℕ) : Rd UInt8 := read p done

def bytes (p : ℕ) : ℕ → Rd (List UInt8)
  | 0 => pure []
  | n + 1 => do
      let b ← byte p
      let bs ← bytes (p + 1) n
      pure (b :: bs)

variable (p n : ℕ)

def number : Rd ℕ := do
  let bs ← bytes p n
  pure (Endian.big.val bs)

@[simp] theorem run_pure (a : α) : (pure a : Rd α).run m = a := rfl

@[simp] theorem reads_pure (a : α) : (pure a : Rd α).reads m = [] := rfl

@[simp] theorem run_byte (p : ℕ) : (byte p).run m = m p := rfl

@[simp] theorem reads_byte (p : ℕ) : (byte p).reads m = [p] := rfl

@[simp] theorem run_bind (x : Rd α) (f : α → Rd β) : (x >>= f).run m = (f (x.run m)).run m := by
  induction x with
  | done a => rfl
  | read p k ih => exact ih (m p)

@[simp] theorem reads_bind (x : Rd α) (f : α → Rd β) :
    (x >>= f).reads m = x.reads m ++ (f (x.run m)).reads m := by
  induction x with
  | done a => rfl
  | read p k ih =>
    exact congrArg _ (ih (m p))

@[simp] theorem run_bytes : (bytes p n).run m = m.read p n := by
  induction n generalizing p with
  | zero => rfl
  | succ n ih => simp [bytes, ih, Mem.read_succ]

@[simp] theorem reads_bytes : (bytes p n).reads m = List.range' p n := by
  induction n generalizing p with
  | zero => rfl
  | succ n ih => simp [bytes, ih, List.range'_succ]

@[simp] theorem run_number : (number p n).run m = Endian.big.val (m.read p n) := by
  simp [number]

@[simp] theorem reads_number : (number p n).reads m = List.range' p n := by
  simp [number]

def ReadsBelow (m : Mem) (stop : ℕ) (x : Rd α) : Prop := ∀ p ∈ x.reads m, p < stop

@[simp] theorem below_bind {x : Rd α} {f : α → Rd β} {stop : ℕ} :
    (x >>= f).ReadsBelow m stop ↔ x.ReadsBelow m stop ∧ (f (x.run m)).ReadsBelow m stop := by
  simp only [ReadsBelow, reads_bind, List.mem_append]
  exact ⟨fun h => ⟨fun p hp => h p (.inl hp), fun p hp => h p (.inr hp)⟩,
    fun h p hp => hp.elim (h.1 p) (h.2 p)⟩

@[simp] theorem below_pure {a : α} {stop : ℕ} : (pure a : Rd α).ReadsBelow m stop := by
  simp [ReadsBelow]

@[simp] theorem readsBelow_byte {p stop : ℕ} : (byte p).ReadsBelow m stop ↔ p < stop := by
  simp [ReadsBelow]

@[simp] theorem below_bytes {p n stop : ℕ} :
    (bytes p n).ReadsBelow m stop ↔ n = 0 ∨ p + n ≤ stop := by
  simp only [ReadsBelow, reads_bytes, List.mem_range'_1]
  constructor
  · intro h
    rcases eq_zero_or_pos n with hn | hn
    · exact .inl hn
    · have := h (p + n - 1) ⟨by omega, by omega⟩
      omega
  · rintro (rfl | h) q hq <;> omega

@[simp] theorem below_number {p n stop : ℕ} :
    (number p n).ReadsBelow m stop ↔ n = 0 ∨ p + n ≤ stop := by
  rw [ReadsBelow, reads_number, ← below_bytes (m := m), ReadsBelow, reads_bytes]

end Rd

end Hexley.Lib
