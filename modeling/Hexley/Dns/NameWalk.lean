import Hexley.Dns.Parse
import Hexley.Lib.Machine

/-!
The walk over the labels of a name in a message.

`getDomainName` and `skipDomainName` are loops with many exits. What a turn
of the loop can do is said once, by the four equations for a turn
(`nameFrom_root`, `_label`, `_pointer`, `_stuck`), and everything
else about the two functions is derived from these.

The walk itself is described on the bytes of the message alone. `Spelled`
says which labels are read from a position on, `NameEnd` where the name
ends in the message (behind the root label or behind the first compression
pointer), and `NameStep` which positions come up.
-/

namespace Hexley.Dns

open Lib List Rd

section Walk

variable (m : Mem) (stop : ℕ)

/-- A label at `pos` is inside the message and there is room for it in the
name, of which `np` bytes are used. -/
structure LabelFits (pos np : ℕ) : Prop where
  ne_zero : m pos ≠ 0
  kind : labelKind (m pos) = .label
  inside : pos + 1 + (m pos).toNat < stop
  room : np + 1 + (m pos).toNat < maxDomainName

def target (pos : ℕ) : ℕ := pointerOffset (m pos) (m (pos + 1))

/-- A compression pointer at `pos` leads to a label in the message. -/
structure PointerFits (pos : ℕ) : Prop where
  kind : labelKind (m pos) = .pointer
  inside : target m pos < stop
  label : labelKind (m (target m pos)) = .label

inductive NameStep : ℕ × ℕ → ℕ × ℕ → Prop
  | label {pos np : ℕ} (hl : LabelFits m stop pos np) :
      NameStep (pos, np) (pos + 1 + (m pos).toNat, np + 1 + (m pos).toNat)
  | pointer {pos np : ℕ} (hp : PointerFits m stop pos) : NameStep (pos, np) (target m pos, np)

/-- From `pos` on, with `np` bytes of the name behind, the labels `ls` are read. -/
inductive Spelled : ℕ → ℕ → List (List UInt8) → Prop
  | root {pos np : ℕ} (hz : m pos = 0) : Spelled pos np []
  | label {pos np : ℕ} {ls : List (List UInt8)} (hl : LabelFits m stop pos np)
      (rest : Spelled (pos + 1 + (m pos).toNat) (np + 1 + (m pos).toNat) ls) :
      Spelled pos np (m.read (pos + 1) (m pos).toNat :: ls)
  | pointer {pos np : ℕ} {ls : List (List UInt8)} (hp : PointerFits m stop pos)
      (rest : Spelled (target m pos) np ls) : Spelled pos np ls

inductive NameEnd : ℕ → ℕ → ℕ → Prop
  | root {pos np : ℕ} (hz : m pos = 0) : NameEnd pos np (pos + 1)
  | label {pos np p : ℕ} (hl : LabelFits m stop pos np)
      (rest : NameEnd (pos + 1 + (m pos).toNat) (np + 1 + (m pos).toNat) p) : NameEnd pos np p
  | pointer {pos np : ℕ} (hk : labelKind (m pos) = .pointer) : NameEnd pos np (pos + 2)

end Walk

section

variable {m : Mem} {stop pos np : ℕ} {b : UInt8} {ls : List (List UInt8)} {p ptr top : ℕ}

theorem labelKind_label_iff : labelKind b = .label ↔ b.toNat < 64 := by
  have hb := b.toNat_lt
  obtain h | h | h | h : b.toNat / 64 = 0 ∨ b.toNat / 64 = 1 ∨ b.toNat / 64 = 2 ∨
      b.toNat / 64 = 3 := by omega
  all_goals simp only [labelKind, h, reduceCtorEq, true_iff, false_iff]; omega

theorem labelKind_pointer_iff : labelKind b = .pointer ↔ 192 ≤ b.toNat := by
  have hb := b.toNat_lt
  obtain h | h | h | h : b.toNat / 64 = 0 ∨ b.toNat / 64 = 1 ∨ b.toNat / 64 = 2 ∨
      b.toNat / 64 = 3 := by omega
  all_goals simp only [labelKind, h, reduceCtorEq, true_iff, false_iff]; omega

theorem ne_zero_of_pointer (h : labelKind b = .pointer) : b ≠ 0 := by
  rintro rfl
  cases h

theorem toNat_pos (h : b ≠ 0) : 0 < b.toNat :=
  pos_of_ne_zero fun h0 => h (UInt8.toNat_inj.mp h0)

structure Stuck (m : Mem) (stop pos np : ℕ) : Prop where
  ne_zero : m pos ≠ 0
  no_label : ¬LabelFits m stop pos np
  no_pointer : ¬PointerFits m stop pos

theorem walk_cases (m : Mem) (stop pos np : ℕ) :
    m pos = 0 ∨ LabelFits m stop pos np ∨ PointerFits m stop pos ∨ Stuck m stop pos np := by
  by_cases hz : m pos = 0
  · exact .inl hz
  by_cases hl : LabelFits m stop pos np
  · exact .inr (.inl hl)
  by_cases hp : PointerFits m stop pos
  · exact .inr (.inr (.inl hp))
  · exact .inr (.inr (.inr ⟨hz, hl, hp⟩))

/-! ### One turn of the loop -/

variable {base fuel : ℕ} {nextbyte : Option ℕ} {dst : Mem}

theorem nameFrom_root (hz : m pos = 0) :
    (getDomainNameFrom stop base (fuel + 1) pos np nextbyte dst).run m =
        (some (nextbyte.getD (pos + 1)), dst) ∧
      (getDomainNameFrom stop base (fuel + 1) pos np nextbyte dst).reads m = [pos] := by
  simp [getDomainNameFrom, hz]

theorem nameFrom_label (hl : LabelFits m stop pos np) :
    (getDomainNameFrom stop base (fuel + 1) pos np nextbyte dst).run m =
        (getDomainNameFrom stop base fuel (pos + 1 + (m pos).toNat)
          (np + 1 + (m pos).toNat) nextbyte
          (dst.write (base + np) (m pos :: m.read (pos + 1) (m pos).toNat ++ [0]))).run m ∧
      (getDomainNameFrom stop base (fuel + 1) pos np nextbyte dst).reads m =
        pos :: (List.range' (pos + 1) (m pos).toNat ++
          (getDomainNameFrom stop base fuel (pos + 1 + (m pos).toNat) (np + 1 + (m pos).toNat)
            nextbyte (dst.write (base + np) (m pos :: m.read (pos + 1) (m pos).toNat ++ [0]))).reads
              m) := by
  have hin := not_le.mpr hl.inside
  have hroom := not_le.mpr hl.room
  simp [getDomainNameFrom, hl.ne_zero, hl.kind, hin, hroom]

theorem nameFrom_pointer (hp : PointerFits m stop pos) :
    (getDomainNameFrom stop base (fuel + 1) pos np nextbyte dst).run m =
        (getDomainNameFrom stop base fuel (target m pos) np
          (some (nextbyte.getD (pos + 2))) dst).run
          m ∧ (getDomainNameFrom stop base (fuel + 1) pos np nextbyte dst).reads m =
        pos :: (pos + 1) :: target m pos ::
          (getDomainNameFrom stop base fuel (target m pos) np (some (nextbyte.getD (pos + 2)))
            dst).reads m := by
  have hin := not_le.mpr hp.inside
  have hlab := hp.label
  unfold target at hin hlab
  simp [getDomainNameFrom, ne_zero_of_pointer hp.kind, hp.kind, hin, hlab, target]

theorem nameFrom_stuck (hs : Stuck m stop pos np) :
    (getDomainNameFrom stop base (fuel + 1) pos np nextbyte dst).run m = (none, dst) ∧
      (getDomainNameFrom stop base (fuel + 1) pos np nextbyte dst).reads m =
        pos :: (if labelKind (m pos) = .pointer then
          (pos + 1) :: (if target m pos < stop then [target m pos] else []) else []) := by
  obtain ⟨hz, hl, hp⟩ := hs
  cases hk : labelKind (m pos) with
  | label =>
    by_cases hin : pos + 1 + (m pos).toNat < stop
    · have hroom : maxDomainName ≤ np + 1 + (m pos).toNat :=
        not_lt.mp fun hroom => hl ⟨hz, hk, hin, hroom⟩
      simp [getDomainNameFrom, hz, hk, not_le.mpr hin, hroom]
    · simp [getDomainNameFrom, hz, hk, not_lt.mp hin]
  | extended => simp [getDomainNameFrom, hz, hk]
  | illegal => simp [getDomainNameFrom, hz, hk]
  | pointer =>
    by_cases hin : target m pos < stop
    · have hlab : labelKind (m (target m pos)) ≠ .label := fun hlab => hp ⟨hk, hin, hlab⟩
      unfold target at hin hlab ⊢
      simp [getDomainNameFrom, hz, hk, not_le.mpr hin, hlab]
    · rw [if_pos rfl, if_neg hin]
      unfold target at hin
      simp [getDomainNameFrom, hz, hk, not_lt.mp hin]

/-! ### The whole walk -/

/-- The turns of the loop that are left at `pos`. A pointer leads to a label, and a
label takes at least two bytes of the name. -/
def turns (m : Mem) (pos np : ℕ) : ℕ :=
  maxDomainName - 1 - np + if labelKind (m pos) = .pointer then 1 else 0

theorem turns_le (m : Mem) (pos np : ℕ) : turns m pos np ≤ maxDomainName := by
  unfold turns maxDomainName
  split <;> omega

theorem turns_label (hl : LabelFits m stop pos np) :
    turns m (pos + 1 + (m pos).toNat) (np + 1 + (m pos).toNat) < turns m pos np := by
  have hpos := toNat_pos hl.ne_zero
  have hroom := hl.room
  unfold turns
  split <;> omega

theorem turns_pointer (np : ℕ) (hp : PointerFits m stop pos) :
    turns m (target m pos) np < turns m pos np := by
  have hk : ¬labelKind (m (target m pos)) = .pointer := by rw [hp.label]; decide
  unfold turns
  rw [if_pos hp.kind, if_neg hk]
  omega

theorem write_root_append (m : Mem) (base : ℕ) (as bs : List UInt8) :
    (m.write base (as ++ [0])).write (base + as.length) (bs ++ [0]) =
      m.write base (as ++ bs ++ [0]) := by
  rw [Mem.write_append m base as [0], Mem.write_write _ (by simp), ← Mem.write_append, append_assoc]

theorem nameFrom_of_spelled (hs : Spelled m stop pos np ls) (hfuel : turns m pos np < fuel)
    (nextbyte : Option ℕ) (as : List UInt8) (has : as.length = np) : ∃ p, NameEnd m stop pos np p ∧
      (getDomainNameFrom stop base fuel pos np nextbyte (dst.write base (as ++ [0]))).run m =
        (some (nextbyte.getD p), dst.write base (as ++ wire ls ++ [0])) := by
  induction hs generalizing fuel nextbyte as with
  | @root pos np hz =>
    rcases fuel with _ | fuel
    · omega
    refine ⟨pos + 1, .root hz, ?_⟩
    rw [(nameFrom_root hz).1]
    simp [wire]
  | @label pos np ls hl rest ih =>
    rcases fuel with _ | fuel
    · omega
    have hturns := turns_label hl
    have hbytes : wire (m.read (pos + 1) (m pos).toNat :: ls) =
        (m pos :: m.read (pos + 1) (m pos).toNat) ++ wire ls := by
      rw [label_cons, Mem.length_read, UInt8.ofNat_toNat]
    rw [(nameFrom_label hl).1, ← has, write_root_append, has]
    obtain ⟨p, hend, hrun⟩ := ih (show _ < fuel by omega) nextbyte
      (as ++ (m pos :: m.read (pos + 1) (m pos).toNat)) (by simp [has]; omega)
    refine ⟨p, .label hl hend, ?_⟩
    rw [hrun, hbytes, append_assoc as]
  | @pointer pos np ls hp rest ih =>
    rcases fuel with _ | fuel
    · omega
    have hturns := turns_pointer np hp
    rw [(nameFrom_pointer hp).1]
    obtain ⟨p, -, hrun⟩ := ih (show _ < fuel by omega) (some (nextbyte.getD (pos + 2))) as has
    exact ⟨pos + 2, .pointer hp.kind, hrun⟩

theorem spelled_of_nameFrom
    (hrun : ((getDomainNameFrom stop base fuel pos np nextbyte dst).run m).1 = some p) :
    ∃ ls, Spelled m stop pos np ls := by
  induction fuel generalizing pos np nextbyte dst with
  | zero => cases hrun
  | succ fuel ih =>
    rcases walk_cases m stop pos np with hz | hl | hp | hs
    · exact ⟨[], .root hz⟩
    · rw [(nameFrom_label hl).1] at hrun
      obtain ⟨ls, hls⟩ := ih hrun
      exact ⟨_, .label hl hls⟩
    · rw [(nameFrom_pointer hp).1] at hrun
      obtain ⟨ls, hls⟩ := ih hrun
      exact ⟨ls, .pointer hp hls⟩
    · rw [(nameFrom_stuck hs).1] at hrun
      cases hrun

theorem Spelled.unique {ls' : List (List UInt8)} (h : Spelled m stop pos np ls)
    (h' : Spelled m stop pos np ls') : ls = ls' := by
  induction h generalizing ls' with
  | root hz =>
    cases h' with
    | root => rfl
    | label hl => exact absurd hz hl.ne_zero
    | pointer hp => exact absurd hz (ne_zero_of_pointer hp.kind)
  | label hl rest ih =>
    cases h' with
    | root hz => exact absurd hz hl.ne_zero
    | label _ rest' => rw [ih rest']
    | pointer hp => exact absurd (hl.kind.symm.trans hp.kind) (by decide)
  | pointer hp rest ih =>
    cases h' with
    | root hz => exact absurd hz (ne_zero_of_pointer hp.kind)
    | label hl => exact absurd (hl.kind.symm.trans hp.kind) (by decide)
    | pointer _ rest' => exact ih rest'

theorem NameEnd.unique {p' : ℕ} (h : NameEnd m stop pos np p) (h' : NameEnd m stop pos np p') :
    p = p' := by
  induction h with
  | root hz =>
    cases h' with
    | root => rfl
    | label hl => exact absurd hz hl.ne_zero
    | pointer hk => exact absurd hz (ne_zero_of_pointer hk)
  | label hl rest ih =>
    cases h' with
    | root hz => exact absurd hz hl.ne_zero
    | label _ rest' => exact ih rest'
    | pointer hk => exact absurd (hl.kind.symm.trans hk) (by decide)
  | pointer hk =>
    cases h' with
    | root hz => exact absurd hz (ne_zero_of_pointer hk)
    | label hl => exact absurd (hl.kind.symm.trans hk) (by decide)
    | pointer => rfl

/-- `getDomainName` succeeds exactly on what is spelled out in the message. -/
theorem name_eq_some_iff : ((getDomainName ptr stop dst base).run m).1 = some p ↔
      ptr < stop ∧ (∃ ls, Spelled m stop ptr 0 ls) ∧ NameEnd m stop ptr 0 p := by
  unfold getDomainName
  by_cases hptr : ptr ≥ stop
  · rw [if_pos hptr]
    exact iff_of_false (by simp) fun h => absurd h.1 (not_lt.mpr hptr)
  rw [if_neg hptr]
  have hturns := turns_le m ptr 0
  have hfuel : turns m ptr 0 < 2 * maxDomainName := by unfold maxDomainName at hturns ⊢; omega
  constructor
  · intro hrun
    obtain ⟨ls, hls⟩ := spelled_of_nameFrom hrun
    obtain ⟨p', hend, hrun'⟩ := nameFrom_of_spelled hls hfuel none [] rfl
    rw [nil_append] at hrun'
    rw [hrun'] at hrun
    cases hrun
    exact ⟨not_le.mp hptr, ⟨ls, hls⟩, hend⟩
  · rintro ⟨-, ⟨ls, hls⟩, hend⟩
    obtain ⟨p', hend', hrun'⟩ := nameFrom_of_spelled hls hfuel none [] rfl
    rw [nil_append] at hrun'
    rw [hrun', ← hend.unique hend']
    rfl

theorem getDomainName_snd (hrun : ((getDomainName ptr stop dst base).run m).1 = some p)
    (hls : Spelled m stop ptr 0 ls) :
    ((getDomainName ptr stop dst base).run m).2 = dst.write base (wire ls ++ [0]) := by
  have hptr := (name_eq_some_iff.mp hrun).1
  have hturns := turns_le m ptr 0
  have hfuel : turns m ptr 0 < 2 * maxDomainName := by unfold maxDomainName at hturns ⊢; omega
  obtain ⟨p', -, hrun'⟩ := nameFrom_of_spelled hls hfuel none [] rfl
  rw [getDomainName, if_neg (not_le.mpr hptr)]
  rw [nil_append] at hrun'
  rw [hrun']
  rfl

/-! ### What the walk reads -/

theorem NameStep.unique_of_label (hl : LabelFits m stop pos np) (c : ℕ × ℕ)
    (hc : NameStep m stop (pos, np) c) : c = (pos + 1 + (m pos).toNat, np + 1 + (m pos).toNat) := by
  cases hc with
  | label => rfl
  | pointer hp => exact absurd (hl.kind.symm.trans hp.kind) (by decide)

theorem NameStep.unique_of_pointer (hp : PointerFits m stop pos) (c : ℕ × ℕ)
    (hc : NameStep m stop (pos, np) c) : c = (target m pos, np) := by
  cases hc with
  | label hl => exact absurd (hl.kind.symm.trans hp.kind) (by decide)
  | pointer => rfl

theorem NameStep.none_of_root (hz : m pos = 0) (c : ℕ × ℕ) : ¬NameStep m stop (pos, np) c := by
  intro hc
  cases hc with
  | label hl => exact hl.ne_zero hz
  | pointer hp => exact ne_zero_of_pointer hp.kind hz

theorem NameStep.none_of_stuck (hs : Stuck m stop pos np) (c : ℕ × ℕ) :
    ¬NameStep m stop (pos, np) c := by
  intro hc
  cases hc with
  | label hl => exact hs.no_label hl
  | pointer hp => exact hs.no_pointer hp

/-- Every compression pointer that comes up from `(pos, np)` on has both its
bytes before `top`. -/
def PointersFit (m : Mem) (stop top : ℕ) (start : ℕ × ℕ) : Prop :=
  ∀ c, Relation.ReflTransGen (NameStep m stop) start c →
    labelKind (m c.1) = .pointer → c.1 + 2 ≤ top

theorem nameFrom_below (htop : stop ≤ top) (hpos : pos < stop) (hfuel : turns m pos np < fuel) :
    (getDomainNameFrom stop base fuel pos np nextbyte dst).ReadsBelow m top ↔
      PointersFit m stop top (pos, np) := by
  induction fuel generalizing pos np nextbyte dst with
  | zero => omega
  | succ fuel ih =>
    unfold Rd.ReadsBelow PointersFit
    rcases walk_cases m stop pos np with hz | hl | hp | hs
    · rw [(nameFrom_root hz).2, reach_of_no_step (NameStep.none_of_root hz)]
      simp only [mem_singleton, forall_eq]
      exact iff_of_true (by omega) fun hk => absurd hz (ne_zero_of_pointer hk)
    · have hk : labelKind (m pos) ≠ .pointer := by rw [hl.kind]; decide
      have hturns := turns_label hl
      have hin := hl.inside
      rw [(nameFrom_label hl).2, forall_mem_cons, forall_mem_append,
        reach_of_step (NameStep.label hl) (NameStep.unique_of_label hl)]
      have hlabel : ∀ p ∈ List.range' (pos + 1) (m pos).toNat, p < top := by
        intro p hp
        rw [mem_range'_1] at hp
        omega
      exact ⟨fun h => ⟨fun hk' => absurd hk' hk, (ih hin (by omega)).mp h.2.2⟩,
        fun h => ⟨by omega, hlabel, (ih hin (by omega)).mpr h.2⟩⟩
    · have hturns := turns_pointer np hp
      have hin := hp.inside
      rw [(nameFrom_pointer hp).2, forall_mem_cons, forall_mem_cons,
        forall_mem_cons, reach_of_step (NameStep.pointer hp) (NameStep.unique_of_pointer hp)]
      exact ⟨fun h => ⟨fun _ => h.2.1, (ih hin (by omega)).mp h.2.2.2⟩,
        fun h => ⟨by omega, h.1 hp.kind, by omega, (ih hin (by omega)).mpr h.2⟩⟩
    · rw [(nameFrom_stuck hs).2, reach_of_no_step (NameStep.none_of_stuck hs)]
      by_cases hk : labelKind (m pos) = .pointer
      · rw [if_pos hk, forall_mem_cons, forall_mem_cons]
        have htarget : ∀ p ∈ (if target m pos < stop then [target m pos] else []), p < top := by
          intro p hp
          split at hp
          · rw [mem_singleton] at hp
            omega
          · cases hp
        exact ⟨fun h _ => h.2.1, fun h => ⟨by omega, h hk, htarget⟩⟩
      · rw [if_neg hk]
        exact iff_of_true (by simpa using by omega) fun hk' => absurd hk' hk

theorem name_below (htop : stop ≤ top) : (getDomainName ptr stop dst base).ReadsBelow m top ↔
      (ptr < stop → PointersFit m stop top (ptr, 0)) := by
  have hturns := turns_le m ptr 0
  unfold getDomainName
  by_cases hptr : ptr ≥ stop
  · rw [if_pos hptr]
    exact iff_of_true below_pure fun h => absurd h (not_lt.mpr hptr)
  · rw [if_neg hptr, nameFrom_below htop (not_le.mp hptr)
      (by unfold maxDomainName at hturns ⊢; omega)]
    exact ⟨fun h _ => h, fun h => h (not_le.mp hptr)⟩

theorem NameEnd.le (h : NameEnd m stop pos np p) (hpos : pos < stop)
    (hfit : PointersFit m stop stop (pos, np)) : p ≤ stop := by
  induction h with
  | root hz => exact hpos
  | label hl rest ih => exact ih hl.inside fun c hc => hfit c (.head (.label hl) hc)
  | pointer hk => exact hfit _ .refl hk

/-! ### Skipping a name -/

theorem skipNameFrom_below (htop : stop ≤ top) (hpos : pos < stop) :
    (skipDomainNameFrom stop fuel pos np).ReadsBelow m top := by
  induction fuel generalizing pos np with
  | zero => exact below_pure
  | succ fuel ih =>
    refine below_bind.mpr ⟨readsBelow_byte.mpr (by omega), ?_⟩
    split
    · exact below_pure
    · split
      · split
        · exact below_pure
        · split
          · exact below_pure
          · exact ih (by omega)
      · exact below_pure
      · exact below_pure
      · exact below_pure

theorem skipNameFrom_eq_some (hfuel : maxDomainName - 1 - np < fuel) :
    (skipDomainNameFrom stop fuel pos np).run m = some p ↔ NameEnd m stop pos np p := by
  induction fuel generalizing pos np with
  | zero => omega
  | succ fuel ih =>
    rw [skipDomainNameFrom, run_bind, run_byte]
    by_cases hz : m pos = 0
    · rw [if_pos hz, run_pure]
      exact ⟨fun h => Option.some.inj h ▸ .root hz,
        fun h => congrArg some ((NameEnd.root hz).unique h)⟩
    rw [if_neg hz]
    by_cases hl : LabelFits m stop pos np
    · have hroom := hl.room
      rw [hl.kind]
      rw [if_neg (not_le.mpr hl.inside), if_neg (not_le.mpr hl.room), ih (by omega)]
      refine ⟨fun h => .label hl h, fun h => ?_⟩
      cases h with
      | root hz' => exact absurd hz' hz
      | label _ rest => exact rest
      | pointer hk => exact absurd (hl.kind.symm.trans hk) (by decide)
    · cases hk : labelKind (m pos) with
      | pointer =>
        exact ⟨fun h => Option.some.inj h ▸ .pointer hk,
          fun h => congrArg some ((NameEnd.pointer hk).unique h)⟩
      | label =>
        have hnone : (if pos + 1 + (m pos).toNat ≥ stop then pure none
            else if np + 1 + (m pos).toNat ≥ maxDomainName then pure none
            else skipDomainNameFrom stop fuel (pos + 1 + (m pos).toNat)
              (np + 1 + (m pos).toNat) : Rd (Option ℕ)).run m = none := by
          split
          · rfl
          · split
            · rfl
            · exact absurd ⟨hz, hk, by omega, by omega⟩ hl
        rw [hnone]
        refine iff_of_false (by simp) fun h => ?_
        cases h with
        | root hz' => exact hz hz'
        | label hl' => exact hl hl'
        | pointer hk' => exact absurd (hk.symm.trans hk') (by decide)
      | extended | illegal =>
        refine iff_of_false (by simp) fun h => ?_
        cases h with
        | root hz' => exact hz hz'
        | label hl' => exact hl hl'
        | pointer hk' => exact absurd (hk.symm.trans hk') (by decide)

theorem skipName_below (htop : stop ≤ top) : (skipDomainName ptr stop).ReadsBelow m top := by
  unfold skipDomainName
  split
  · exact below_pure
  · exact skipNameFrom_below htop (by omega)

theorem skipName_eq_some :
    (skipDomainName ptr stop).run m = some p ↔ ptr < stop ∧ NameEnd m stop ptr 0 p := by
  unfold skipDomainName
  by_cases hptr : ptr ≥ stop
  · rw [if_pos hptr]
    exact iff_of_false (by simp) fun h => absurd h.1 (not_lt.mpr hptr)
  · rw [if_neg hptr, skipNameFrom_eq_some (by unfold maxDomainName; omega)]
    exact ⟨fun h => ⟨not_le.mp hptr, h⟩, fun h => h.2⟩

end

end Hexley.Dns
