import Hexley.Dtrace.Aggregate
import Hexley.Lib.Fold
import Mathlib.Algebra.Order.Ring.Int
import Mathlib.Data.BitVec

/-!
What the aggregating actions make of several values.

A value is an array of words: one for `count`, `sum`, `min` and `max`, a
count and a sum for `avg`, and one for every bucket for `quantize` and
`lquantize`, where the buckets of the last stand behind a word that says how
many there are. `combine` says what two values of an action come to, and
`Action.fold` what a list of them does.

The functions of the code do the same to arrays in memory, as long as the
array that is merged into has a value in it. A slot that is still zero is
no value for `lquantize`, and for `min` and `max` it is a value that was
never traced. `foldl_onWords_zero_iff` says when it makes no difference.
-/

namespace Hexley.Dtrace

open Lib List Mem Aggregate

namespace Aggregate

/-- What two values come to. -/
def combine : Aggregate → List Word64 → List Word64 → List Word64
  | .count => zipWith (· + ·)
  | .min => zipWith (pick BitVec.toInt)
  | .max => zipWith (pick fun w => -w.toInt)
  | .lquantize => fun xs ys => xs.take 1 ++ zipWith (· + ·) (xs.drop 1) (ys.drop 1)

/-- The values have `n` words. Those of `lquantize` all start with `arg`. -/
def IsValue (f : Aggregate) (n : ℕ) (arg : Word64) (v : List Word64) : Prop :=
  v.length = n ∧
    match f with
    | .count => True
    | .min | .max => n = 1
    | .lquantize => v.headD 0 = arg ∧ lquantizeLevels arg + 3 = n

def onWords : Aggregate → List Word64 → List Word64 → List Word64
  | .count => zipWith (· + ·)
  | .min => zipWith (pick BitVec.toInt)
  | .max => zipWith (pick fun w => -w.toInt)
  | .lquantize => fun xs ys =>
    let k := lquantizeLevels (xs.headD 0) + 2
    xs.take 1 ++ (zipWith (· + ·) ((xs.drop 1).take k) ((ys.drop 1).take k) ++ xs.drop (1 + k))

def Fits (f : Aggregate) (n : ℕ) (xs : List Word64) : Prop :=
  match f with
  | .count => True
  | .min | .max => n = 1
  | .lquantize => lquantizeLevels (xs.headD 0) + 3 ≤ n

/-- Values are combined right from a start with zeros: one of them is not worse than zero, or
there are no more levels than a zero stands for. -/
def ZeroNeutral (f : Aggregate) (vs : List (List Word64)) : Prop :=
  match f with
  | .count => True
  | .min => ∃ v ∈ vs, ∃ w ∈ v, w.toInt ≤ 0
  | .max => ∃ v ∈ vs, ∃ w ∈ v, 0 ≤ w.toInt
  | .lquantize => ∀ v ∈ vs, v.headD 0 = 0

end Aggregate

/-- How the values of an action are combined. -/
def Action.kind : Action → Aggregate
  | .min => .min
  | .max => .max
  | .lquantize => .lquantize
  | _ => .count

def Action.fold (action : Action) (n : ℕ) (vs : List (List Word64)) : List Word64 :=
  fold1 action.kind.combine (replicate n 0) vs

variable {f : Aggregate} {n : ℕ}

theorem kind_eq {action : Action} (h : action.aggregate = some f) : action.kind = f := by
  cases action <;> cases h <;> rfl

/-! ### In memory -/

section Memory

variable {e : Endian} {existing new : Mem} {p q : ℕ} {better : Word64 → Word64 → Bool} {r k : ℕ}

theorem words_replaceIf {g : Word64 → ℤ}
    (hbetter : ∀ new old, better new old = true ↔ g new < g old) :
    (replaceIf e existing p new q better).words e p 1 =
      zipWith (pick g) (existing.words e p 1) (new.words e q 1) := by
  change [_] = [_]
  congr 1
  rw [replaceIf, pick]
  by_cases h : g (new.word e q) < g (existing.word e p)
  · rw [if_pos ((hbetter _ _).mpr h), if_pos h, word_setWord]
  · rw [if_neg (mt (hbetter _ _).mp h), if_neg h]

theorem read_replaceIf (h : r + k ≤ p ∨ p + 8 ≤ r) :
    (replaceIf e existing p new q better).read r k = existing.read r k := by
  rw [replaceIf]
  split
  · exact read_setWord_off h
  · rfl

theorem words_lquantize (hk : lquantizeLevels (existing.word e p) + 2 = k) (r : ℕ) :
    (dtAggregateLquantize e existing p new q).words e p (1 + (k + r)) = existing.words e p 1 ++
        (zipWith (· + ·) (existing.words e (p + 8) k) (new.words e (q + 8) k) ++
          existing.words e (p + 8 + 8 * k) r) := by
  have hfirst : (existing.addWords e (p + 8) new (q + 8) k).words e p 1 = existing.words e p 1 :=
    words_congr (read_addWords_off (.inl le_rfl))
  have hrest : (existing.addWords e (p + 8) new (q + 8) k).words e (p + 8 + 8 * k) r =
      existing.words e (p + 8 + 8 * k) r :=
    words_congr (read_addWords_off (.inr le_rfl))
  rw [dtAggregateLquantize, hk, words_add, words_add, hfirst, mul_one, words_addWords, hrest]

theorem fits_lquantize (h : Aggregate.Fits .lquantize n (existing.words e p n)) :
    lquantizeLevels (existing.word e p) + 3 ≤ n := by
  have hle : lquantizeLevels ((existing.words e p n).headD 0) + 3 ≤ n := h
  rwa [headD_words (by omega)] at hle

theorem words_run (new : Mem) (q : ℕ) (h : f.Fits n (existing.words e p n)) :
    (f.run e existing p new q (8 * n)).words e p n =
      f.onWords (existing.words e p n) (new.words e q n) := by
  cases f with
  | count =>
    rw [run, dtAggregateCount, Nat.mul_div_cancel_left n (by decide : 0 < 8)]
    exact words_addWords
  | min =>
    obtain rfl : n = 1 := h
    exact words_replaceIf fun _ _ => BitVec.slt_iff_toInt_lt
  | max =>
    obtain rfl : n = 1 := h
    refine words_replaceIf fun new old => ?_
    rw [BitVec.slt_iff_toInt_lt, neg_lt_neg_iff]
  | lquantize =>
    have hlevels := fits_lquantize h
    set k := lquantizeLevels (existing.word e p) + 2 with hk
    obtain ⟨r, rfl⟩ : ∃ r, n = 1 + (k + r) := ⟨n - (1 + k), by omega⟩
    rw [onWords]
    dsimp only
    rw [headD_words (by omega), ← hk, take_words, drop_words, drop_words, take_words, take_words,
      ← drop_drop, drop_words, drop_words]
    exact words_lquantize hk.symm r

theorem read_run (h : f.Fits n (existing.words e p n)) (hr : r + k ≤ p ∨ p + 8 * n ≤ r) :
    (f.run e existing p new q (8 * n)).read r k = existing.read r k := by
  cases f with
  | count =>
    rw [run, dtAggregateCount, Nat.mul_div_cancel_left n (by decide : 0 < 8)]
    exact read_addWords_off hr
  | min | max =>
    obtain rfl : n = 1 := h
    rw [run]
    exact read_replaceIf hr
  | lquantize =>
    have hlevels := fits_lquantize h
    exact read_addWords_off (by omega)

end Memory

/-! ### As lists -/

section Lists

variable {arg : Word64} {u v w : List Word64} {vs : List (List Word64)}

theorem take_one_of_pos {xs : List Word64} (h : 0 < xs.length) : xs.take 1 = [xs.headD 0] := by
  cases xs with
  | nil => exact absurd h (lt_irrefl 0)
  | cons x xs => rfl

theorem headD_take_one_append {xs ys : List Word64} (h : 0 < xs.length) :
    (xs.take 1 ++ ys).headD 0 = xs.headD 0 := by
  rw [take_one_of_pos h]
  rfl

theorem headD_replicate_zero : (replicate n (0 : Word64)).headD 0 = 0 := by
  cases n <;> rfl

theorem Aggregate.IsValue.fits (h : f.IsValue n arg v) : f.Fits n v := by
  obtain ⟨-, h⟩ := h
  cases f with
  | count => trivial
  | min | max => exact h
  | lquantize =>
    rw [Aggregate.Fits, h.1]
    exact h.2.le

theorem Aggregate.IsValue.fits_zero (h : f.IsValue n arg v) : f.Fits n (replicate n 0) := by
  obtain ⟨-, h⟩ := h
  cases f with
  | count => trivial
  | min | max => exact h
  | lquantize =>
    have hzero : lquantizeLevels 0 = 0 := rfl
    rw [Aggregate.Fits, headD_replicate_zero, hzero]
    omega

theorem Aggregate.Fits.onWords (h : f.Fits n u) (hu : u.length = n) (hv : v.length = n) :
    f.Fits n (f.onWords u v) ∧ (f.onWords u v).length = n := by
  cases f with
  | count => exact ⟨trivial, by rw [onWords, length_zipWith, hu, hv, Nat.min_self]⟩
  | min | max => exact ⟨h, by rw [onWords, length_zipWith, hu, hv, Nat.min_self]⟩
  | lquantize =>
    have hle : lquantizeLevels (u.headD 0) + 3 ≤ n := h
    rw [onWords, Aggregate.Fits]
    rw [headD_take_one_append (by omega)]
    refine ⟨hle, ?_⟩
    simp only [length_append, length_take, length_zipWith, length_drop, hu, hv]
    omega

theorem onWords_eq_combine (hu : f.IsValue n arg u) (hv : v.length = n) :
    f.onWords u v = f.combine u v := by
  cases f with
  | count | min | max => rfl
  | lquantize =>
    obtain ⟨hlen, hhead, hn⟩ := hu
    rw [onWords, combine]
    dsimp only
    have hall {l : List Word64} (hl : l.length = n) :
        (l.drop 1).take (lquantizeLevels arg + 2) = l.drop 1 := by
      refine take_of_length_le ?_
      rw [length_drop]
      omega
    have hrest : u.drop (1 + (lquantizeLevels arg + 2)) = [] := by
      refine drop_eq_nil_of_le ?_
      omega
    rw [hhead, hall hlen, hall hv, hrest, append_nil]

theorem Aggregate.IsValue.combine (hu : f.IsValue n arg u) (hv : f.IsValue n arg v) :
    f.IsValue n arg (f.combine u v) := by
  have hlen : (f.combine u v).length = n := by
    rw [← onWords_eq_combine hu hv.1]
    exact (hu.fits.onWords hu.1 hv.1).2
  refine ⟨hlen, ?_⟩
  obtain ⟨hlenu, hu⟩ := hu
  cases f with
  | count => trivial
  | min | max => exact hu
  | lquantize =>
    refine ⟨?_, hu.2⟩
    rw [combine, headD_take_one_append (by omega)]
    exact hu.1

theorem neg_toInt_injective : Function.Injective fun w : Word64 => -w.toInt :=
  fun _ _ h => BitVec.toInt_inj.mp (neg_inj.mp h)

theorem toInt_injective : Function.Injective (BitVec.toInt : Word64 → ℤ) :=
  fun _ _ h => BitVec.toInt_inj.mp h

theorem combine_comm (hu : f.IsValue n arg u) (hv : f.IsValue n arg v) :
    f.combine u v = f.combine v u := by
  cases f with
  | count => exact zipWith_comm_of_comm BitVec.add_comm
  | min => exact zipWith_comm_of_comm (pick_comm toInt_injective)
  | max => exact zipWith_comm_of_comm (pick_comm neg_toInt_injective)
  | lquantize =>
    obtain ⟨hlenu, hheadu, hn⟩ := hu
    obtain ⟨hlenv, hheadv, -⟩ := hv
    change u.take 1 ++ _ = v.take 1 ++ _
    rw [take_one_of_pos (by omega), take_one_of_pos (by omega), hheadu, hheadv,
      zipWith_comm_of_comm BitVec.add_comm]

theorem combine_right_comm (u v w : List Word64) :
    f.combine (f.combine u v) w = f.combine (f.combine u w) v := by
  have hadd (a b c : Word64) : a + b + c = a + c + b := add_right_comm a b c
  cases f with
  | count => exact zipWith_right_comm hadd u v w
  | min => exact zipWith_right_comm (pick_right_comm toInt_injective) u v w
  | max => exact zipWith_right_comm (pick_right_comm neg_toInt_injective) u v w
  | lquantize =>
    cases u with
    | nil => rfl
    | cons x xs => exact congrArg (x :: ·) (zipWith_right_comm hadd xs (v.drop 1) (w.drop 1))

theorem fold_perm {action : Action} (haction : action.aggregate = some f)
    {us : List (List Word64)} (h : us.Perm vs) (hus : ∀ u ∈ us, f.IsValue n arg u) :
    action.fold n us = action.fold n vs := by
  unfold Action.fold
  rw [kind_eq haction]
  exact fold1_perm (fun _ _ => combine_comm) combine_right_comm h hus

theorem foldl_onWords_eq (hv : f.IsValue n arg v) (hvs : ∀ u ∈ vs, f.IsValue n arg u) :
    vs.foldl f.onWords v = vs.foldl f.combine v := by
  induction vs generalizing v with
  | nil => rfl
  | cons u vs ih =>
    rw [forall_mem_cons] at hvs
    rw [foldl_cons, foldl_cons, onWords_eq_combine hv hvs.1.1, ih (hv.combine hvs.1) hvs.2]

theorem foldl_pick_zero_iff {g : Word64 → ℤ} (hg : Function.Injective g)
    (hvs : ∀ u ∈ v :: vs, u.length = 1) :
    (v :: vs).foldl (zipWith (pick g)) [0] = vs.foldl (zipWith (pick g)) v ↔
      ∃ u ∈ v :: vs, ∃ x ∈ u, g x ≤ g 0 := by
  obtain ⟨as, has⟩ := exists_eq_map_singleton hvs
  cases as with
  | nil => exact nomatch has
  | cons a as =>
    obtain ⟨rfl, rfl⟩ := cons.inj has
    have hall := foldl_zipWith_singleton (pick g) 0 (a :: as)
    rw [map_cons] at hall
    rw [hall, foldl_zipWith_singleton, cons.injEq, and_iff_left rfl, foldl_pick_start_iff hg]
    simp

theorem lquantize_head (hu : 0 < u.length) :
    (vs.foldl (onWords .lquantize) u).headD 0 = u.headD 0 := by
  induction vs generalizing u with
  | nil => rfl
  | cons v vs ih =>
    have hhead : (onWords .lquantize u v).headD 0 = u.headD 0 := headD_take_one_append hu
    have hpos : 0 < (onWords .lquantize u v).length := by
      rw [onWords]
      rw [length_append, length_take]
      omega
    rw [foldl_cons, ih hpos, hhead]

/-- Merging values into an array of zeros is combining them if and only if the zeros make no
difference. -/
theorem foldl_onWords_zero_iff (hv : f.IsValue n arg v) (hvs : ∀ u ∈ vs, f.IsValue n arg u) :
    (v :: vs).foldl f.onWords (replicate n 0) = vs.foldl f.combine v ↔ f.ZeroNeutral (v :: vs) := by
  have hall : ∀ u ∈ v :: vs, f.IsValue n arg u := forall_mem_cons.mpr ⟨hv, hvs⟩
  cases f with
  | count =>
    have hfirst : onWords .count (replicate n 0) v = v := by
      rw [← hv.1]
      exact zipWith_replicate_left BitVec.zero_add v
    rw [foldl_cons, hfirst, foldl_onWords_eq hv hvs]
    exact iff_of_true rfl trivial
  | min =>
    obtain rfl : n = 1 := hv.2
    exact foldl_pick_zero_iff toInt_injective fun u hu => (hall u hu).1
  | max =>
    obtain rfl : n = 1 := hv.2
    refine (foldl_pick_zero_iff neg_toInt_injective fun u hu => (hall u hu).1).trans ?_
    simp [Aggregate.ZeroNeutral]
  | lquantize =>
    obtain ⟨hlen, hhead, hn⟩ := hv
    have hneutral : Aggregate.ZeroNeutral .lquantize (v :: vs) ↔ arg = 0 := by
      constructor
      · intro h
        rw [← hhead]
        exact h v mem_cons_self
      · rintro rfl u hu
        exact (hall u hu).2.1
    rw [hneutral]
    constructor
    · intro h
      have hfold : Aggregate.IsValue .lquantize n arg (vs.foldl (combine .lquantize) v) :=
        foldlRecOn vs _ ⟨hlen, hhead, hn⟩ fun _ hu w hw => hu.combine (hvs w hw)
      rw [← hfold.2.1, ← h, lquantize_head (by rw [length_replicate]; omega)]
      exact headD_replicate_zero
    · rintro rfl
      have hzero : Aggregate.IsValue .lquantize n 0 (replicate n 0) :=
        ⟨length_replicate, headD_replicate_zero, hn⟩
      rw [foldl_onWords_eq hzero hall, foldl_cons]
      congr 1
      -- An array of zeros in front of a value without levels is neutral.
      cases v with
      | nil => rw [length_nil] at hlen; omega
      | cons x xs =>
        obtain rfl : x = 0 := hhead
        rw [← hlen, length_cons, replicate_succ]
        exact congrArg (0 :: ·) (zipWith_replicate_left BitVec.zero_add xs)

end Lists

end Hexley.Dtrace
