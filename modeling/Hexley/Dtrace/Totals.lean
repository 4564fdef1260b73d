import Hexley.Dtrace.Hash

/-!
Aggregations are the fold of their records.

For each key that came up there should be one entry. Its total should be
what the action makes of the values of all records with the key, in
whatever order they are taken, and the slot of a CPU what it makes of the
values of the records of that CPU.

This is so for the totals, for the slot of the CPU that the first record is
from, and for every slot of an action that adds. The other slots start as
zeros. A `min` that is positive on its CPU is then lost behind the zero, as
is a negative `max`, and an `lquantize` has no levels to add up.
-/

namespace Hexley.Dtrace

open Lib List

section

variable (hdl : Handle)

def SlotsRight (h : HashEnt) (r : Item) (items : List Item) : Prop :=
  hdl.percpu = true → ∃ percpu, h.percpu = some percpu ∧ percpu.length = hdl.maxCpus ∧
    ∀ (c : ℕ) (slot : Mem), percpu[c]? = some slot →
      slot.words hdl.endian 0 (r.agg.value.size / 8) =
        r.agg.value.action.fold (r.agg.value.size / 8) (valuesOf hdl.endian c items)

/-- The table is right for the key `k`. -/
def Aggregated (hash : AHash) (items : List Item) (k : List (List UInt8)) : Prop :=
  (withKey k items = [] → ∀ h ∈ hash.ents, h.key ≠ k) ∧ ∀ r rest, withKey k items = r :: rest →
      ∃ i h, hash.ents[i]? = some h ∧ h.key = k ∧ i ∈ hash.all ∧
        (∀ (j : ℕ) (h' : HashEnt), hash.ents[j]? = some h' → h'.key = k → j = i) ∧
        (∀ vs, vs.Perm ((r :: rest).map fun r => r.value hdl.endian) →
          r.agg.valueOf hdl.endian h.data = r.agg.value.action.fold (r.agg.value.size / 8) vs) ∧
        SlotsRight hdl h r (r :: rest)

/-- If there are slots, the records with the key that are not from the CPU of the first one are
such that a start with zeros makes no difference. -/
def ZeroSafe (items : List Item) (k : List (List UInt8)) : Prop :=
  hdl.percpu = true → ∀ r rest, withKey k items = r :: rest → ∀ c, c < hdl.maxCpus → c ≠ r.cpu →
      valuesOf hdl.endian c rest = [] ∨
        r.agg.value.action.kind.ZeroNeutral (valuesOf hdl.endian c rest)

end

section Proof

variable {hdl : Handle} {varid : RecDesc} {h : HashEnt} {r : Item} {rest items : List Item}
  {hash : AHash} {arg : Word64} {f : Aggregate}

theorem valuesOf_cons {c : ℕ} : valuesOf hdl.endian c (r :: rest) =
      if r.cpu = c then r.value hdl.endian :: valuesOf hdl.endian c rest
      else valuesOf hdl.endian c rest := by
  unfold valuesOf
  by_cases h : r.cpu = c <;> simp [h]

theorem slot_iff (hf : r.agg.value.action.aggregate = some f)
    (hvalue : ∀ t ∈ r :: rest, f.IsValue (r.agg.value.size / 8) arg (t.value hdl.endian)) (c : ℕ) :
    (valuesOf hdl.endian c rest).foldl f.onWords
        (if r.cpu = c then r.value hdl.endian else replicate (r.agg.value.size / 8) 0) =
      r.agg.value.action.fold (r.agg.value.size / 8) (valuesOf hdl.endian c (r :: rest)) ↔
    (c ≠ r.cpu → valuesOf hdl.endian c rest = [] ∨
      r.agg.value.action.kind.ZeroNeutral (valuesOf hdl.endian c rest)) := by
  rw [forall_mem_cons] at hvalue
  have hvals : ∀ v ∈ valuesOf hdl.endian c rest, f.IsValue (r.agg.value.size / 8) arg v := by
    intro v hv
    obtain ⟨t, ht, rfl⟩ := mem_map.mp hv
    exact hvalue.2 t (mem_filter.mp ht).1
  rw [valuesOf_cons, Action.fold, kind_eq hf]
  by_cases hc : r.cpu = c
  · rw [if_pos hc, if_pos hc, foldl_onWords_eq hvalue.1 hvals]
    exact iff_of_true rfl fun hne => absurd hc.symm hne
  · rw [if_neg hc, if_neg hc, imp_iff_right (Ne.symm hc)]
    cases hvs : valuesOf hdl.endian c rest with
    | nil => exact iff_of_true rfl (.inl rfl)
    | cons v vs =>
      rw [hvs, forall_mem_cons] at hvals
      rw [fold1, foldl_onWords_zero_iff hvals.1 hvals.2]
      exact (or_iff_right (cons_ne_nil v vs)).symm

section

variable (hd : Describes hdl h r rest)
  (hvalue : ∀ t ∈ r :: rest, h.aggregate.IsValue (r.agg.value.size / 8) arg (t.value hdl.endian))
include hd hvalue

theorem Describes.slotsRight_iff :
    SlotsRight hdl h r (r :: rest) ↔ (hdl.percpu = true → ∀ c, c < hdl.maxCpus → c ≠ r.cpu →
        valuesOf hdl.endian c rest = [] ∨
          r.agg.value.action.kind.ZeroNeutral (valuesOf hdl.endian c rest)) := by
  refine imp_congr_right fun hpercpu => ?_
  obtain ⟨percpu, hsome⟩ := Option.isSome_iff_exists.mp (hd.kept.trans hpercpu)
  obtain ⟨hlen, hslots⟩ := hd.percpu percpu hsome
  constructor
  · rintro ⟨percpu', hsome', -, hright⟩ c hc
    obtain rfl := Option.some.inj (hsome.symm.trans hsome')
    have hslot : percpu[c]? = some percpu[c] := getElem?_eq_getElem (by omega)
    refine (slot_iff hd.aggregate hvalue c).mp ?_
    rw [← hslots c _ hslot, hright c _ hslot]
  · intro hsafe
    refine ⟨percpu, hsome, hlen, fun c slot hslot => ?_⟩
    have hc : c < hdl.maxCpus := hlen ▸ (List.getElem?_eq_some_iff.mp hslot).1
    rw [hslots c slot hslot]
    exact (slot_iff hd.aggregate hvalue c).mpr (hsafe c hc)

/-- The total of an entry is the fold of the values, in any order. -/
theorem Describes.total_eq {vs : List (List Word64)}
    (hvs : vs.Perm ((r :: rest).map fun r => r.value hdl.endian)) :
    r.agg.valueOf hdl.endian h.data = r.agg.value.action.fold (r.agg.value.size / 8) vs := by
  have hall : ∀ v ∈ (r :: rest).map fun r => r.value hdl.endian,
      h.aggregate.IsValue (r.agg.value.size / 8) arg v := by
    intro v hv
    obtain ⟨t, ht, rfl⟩ := mem_map.mp hv
    exact hvalue t ht
  rw [fold_perm hd.aggregate hvs fun v hv => hall v (hvs.mem_iff.mp hv), hd.total,
    Action.fold, kind_eq hd.aggregate]
  rw [map_cons, forall_mem_cons] at hall
  exact foldl_onWords_eq hall.1 hall.2

end

theorem Table.aggregated_iff (ht : Table hdl varid hash items)
    (hcons : Consistent hdl.endian varid items) (k : List (List UInt8)) :
    Aggregated hdl hash items k ↔ ZeroSafe hdl items k := by
  have hnone : withKey k items = [] → ∀ h ∈ hash.ents, h.key ≠ k := by
    intro hno h hmem hkey
    obtain ⟨i, hi⟩ := mem_iff_getElem?.mp hmem
    obtain ⟨r, rest, hrs, -⟩ := ht.ent i h hi
    rw [hkey, hno] at hrs
    exact nomatch hrs
  unfold Aggregated ZeroSafe
  rw [and_iff_right hnone]
  cases hrs : withKey k items with
  | nil => exact iff_of_true nofun fun _ => nofun
  | cons r rest =>
    obtain ⟨hr, hrkey⟩ := mem_withKey.mp (hrs ▸ mem_cons_self : r ∈ withKey k items)
    obtain ⟨h, hmem, hkey⟩ := ht.complete r hr
    obtain ⟨i, hi⟩ := mem_iff_getElem?.mp hmem
    obtain ⟨r', rest', hrs', hd⟩ := ht.ent i h hi
    rw [hkey, hrkey, hrs] at hrs'
    obtain ⟨rfl, rfl⟩ := cons.inj hrs'
    obtain ⟨arg, harg⟩ := hcons.value r hr
    rw [kind_eq hd.aggregate] at harg
    have hvalue : ∀ t ∈ r :: rest,
        h.aggregate.IsValue (r.agg.value.size / 8) arg (t.value hdl.endian) := by
      intro t ht'
      obtain ⟨hitem, htkey⟩ := mem_withKey.mp (hrs ▸ ht')
      exact harg t hitem (htkey.trans hrkey.symm)
    have hslots := hd.slotsRight_iff hvalue
    constructor
    · intro hright hpercpu r' rest' heq
      obtain ⟨rfl, rfl⟩ := cons.inj heq
      obtain ⟨j, h', hj, hkey', -, -, -, hslots'⟩ := hright r rest rfl
      obtain rfl := ht.distinct i j h h' hi hj (hkey.trans (hrkey.trans hkey'.symm))
      obtain rfl := Option.some.inj (hi.symm.trans hj)
      exact hslots.mp hslots' hpercpu
    · intro hsafe r' rest' heq
      obtain ⟨rfl, rfl⟩ := cons.inj heq
      refine ⟨i, h, hi, hkey.trans hrkey, ?_, ?_, fun vs => hd.total_eq hvalue, ?_⟩
      · rw [ht.all, mem_reverse, mem_range]
        exact (List.getElem?_eq_some_iff.mp hi).1
      · intro j h' hj hkey'
        exact ht.distinct j i h' h hj hi (hkey'.trans (hkey.trans hrkey).symm)
      · exact hslots.mpr fun hpercpu => hsafe hpercpu r rest rfl

end Proof

/-- After every sequence of calls: one more call ends, at the end of its buffer or with an
error, and the table is right for a key exactly if the zeros in the slots make no difference. -/
theorem aggregations_fold_iff {hdl : Handle} {varid : RecDesc} {hash : AHash} {items : List Item}
    (h : Run hdl varid hash items) (hcons : Consistent hdl.endian varid items) :
    (∀ (call : Call) (chunks : List Chunk), call.Ok hdl varid chunks →
      ∃ ret, dtAggregateHashCpu hdl call hash = some ret ∧
        (ret.rval = none → ret.offs = call.size)) ∧
      ∀ k, Aggregated hdl hash items k ↔ ZeroSafe hdl items k := by
  have ht := h.table hcons
  refine ⟨fun call chunks hok => ?_, ht.aggregated_iff hcons⟩
  obtain ⟨ret, hret, -, hend⟩ := hashCpu_table hok fun _ => ht
  exact ⟨ret, hret, hend⟩

/-! ### Two CPUs -/

variable (action : Action)

def oneWord : AggDesc := ⟨16, [⟨.other 0, 4, 4⟩], ⟨action, 8, 8⟩⟩

def twoCpus : Handle :=
  ⟨.little, fun id => if id = 1 then some (oneWord action) else none, false, true, 2⟩

def smallRecord (v : UInt8) : List UInt8 := [1, 0, 0, 0, 7, 0, 0, 0, v, 0, 0, 0, 0, 0, 0, 0]

def smallCall (cpu : ℕ) (v : UInt8) : Call :=
  ⟨cpu, 16, .ofList (smallRecord v), true, fun _ => ⟨true, fun _ _ => none, fun _ _ => none,
    fun _ => none, []⟩⟩

def smallItems : List Item :=
  [(smallCall 0 5).item (twoCpus action) 0 (smallRecord 5) (oneWord action),
    (smallCall 1 7).item (twoCpus action) 0 (smallRecord 7) (oneWord action)]

theorem oneWord_words : (oneWord action).value.size / 8 = 1 :=
  Nat.div_self (by decide : 0 < 8)

section

variable {action : Action} (haction : action = .count ∨ action = .min)
include haction

theorem smallCall_ok (cpu : ℕ) (hcpu : cpu < 2) (v : UInt8) :
    (smallCall cpu v).Ok (twoCpus action) ⟨.other 0, 4, 4⟩ [.record (smallRecord v)] := by
  refine ⟨hcpu, rfl, rfl, fun bytes hmem => ?_⟩
  obtain rfl : bytes = smallRecord v := Chunk.record.inj (mem_singleton.mp hmem)
  refine ⟨oneWord action, ⟨(by decide : (1 : ℕ) ≠ 0), rfl, rfl, ?_, ?_, 0, ?_⟩⟩
  · exact ⟨(by decide : 4 ≤ 16), rfl, by simp [oneWord], by simp [oneWord, RecDesc.Disjoint],
      by simp [oneWord, Action.symbolBytes], by rw [oneWord_words]; rfl⟩
  · rcases haction with rfl | rfl <;> rfl
  · refine ⟨Mem.length_words, ?_⟩
    rcases haction with rfl | rfl
    · trivial
    · exact oneWord_words _

theorem smallItems_consistent :
    Consistent (twoCpus action).endian ⟨.other 0, 4, 4⟩ (smallItems action) := by
  have hagg : ∀ r ∈ smallItems action, r.agg = oneWord action := by
    intro r hr
    simp only [smallItems, mem_cons, not_mem_nil, or_false] at hr
    rcases hr with rfl | rfl <;> rfl
  refine ⟨fun r hr r' hr' _ _ => (hagg r hr).trans (hagg r' hr').symm, fun r hr => ⟨0, ?_⟩⟩
  intro r' hr' _
  rw [hagg r hr]
  have hlen : (r'.value (twoCpus action).endian).length = 1 := by
    rw [length_value, hagg r' hr', oneWord_words]
  rcases haction with rfl | rfl
  · exact ⟨hlen, trivial⟩
  · exact ⟨hlen, rfl⟩

theorem exists_run_smallItems :
    ∃ hash, Run (twoCpus action) ⟨.other 0, 4, 4⟩ hash (smallItems action) := by
  have hoffs : ((dtAggregateHashCpu (twoCpus action) (smallCall 0 5) .empty).bind fun ret =>
      (dtAggregateHashCpu (twoCpus action) (smallCall 1 7) ret.hash).map fun ret' =>
        (ret.offs, ret'.offs)) = some (16, 16) := by
    rcases haction with rfl | rfl <;> decide +kernel
  obtain ⟨ret, hret, hoffs⟩ := Option.bind_eq_some_iff.mp hoffs
  obtain ⟨ret', hret', hoffs⟩ := Option.map_eq_some_iff.mp hoffs
  obtain ⟨h₁, h₂⟩ := Prod.mk.inj hoffs
  have hrun := Run.call (.call .init _ _ (smallCall_ok haction 0 (by decide) 5) hret) _ _
    (smallCall_ok haction 1 (by decide) 7) hret'
  rw [h₁, h₂] at hrun
  exact ⟨ret'.hash, hrun⟩

end

/-- A `count` is right on both CPUs. -/
theorem count_aggregated : ∃ hash, Run (twoCpus .count) ⟨.other 0, 4, 4⟩ hash (smallItems .count) ∧
      Aggregated (twoCpus .count) hash (smallItems .count) [[7, 0, 0, 0]] := by
  obtain ⟨hash, hrun⟩ := exists_run_smallItems (.inl rfl)
  refine ⟨hash, hrun, ?_⟩
  refine ((aggregations_fold_iff hrun (smallItems_consistent (.inl rfl))).2 _).mpr ?_
  intro _ r rest hrs c _ _
  obtain ⟨rfl, -⟩ := cons.inj hrs
  exact .inr trivial

/-- The `min` of the second CPU is zero although its only value is 7. -/
theorem min_not_aggregated : ∃ hash, Run (twoCpus .min) ⟨.other 0, 4, 4⟩ hash (smallItems .min) ∧
      Consistent (twoCpus .min).endian ⟨.other 0, 4, 4⟩ (smallItems .min) ∧
        ¬Aggregated (twoCpus .min) hash (smallItems .min) [[7, 0, 0, 0]] := by
  obtain ⟨hash, hrun⟩ := exists_run_smallItems (.inr rfl)
  have hcons := smallItems_consistent (.inr rfl)
  refine ⟨hash, hrun, hcons, fun hright => ?_⟩
  have hsafe := ((hrun.table hcons).aggregated_iff hcons _).mp hright rfl _ _ rfl 1 (by decide)
    (by decide)
  rcases hsafe with hnil | ⟨v, hv, w, hw, hle⟩
  · exact nomatch hnil
  · obtain rfl := mem_singleton.mp hv
    obtain rfl := mem_singleton.mp hw
    exact absurd hle (by decide)

end Hexley.Dtrace
