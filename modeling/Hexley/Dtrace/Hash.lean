import Hexley.Dtrace.Buffer

/-!
The table after any sequence of calls.

An entry of the table stands for the records with one key, the first of
which it was made from. `Describes` says what it has in it: the key, the
values of all these records merged in turn and, for each CPU, those of its
own records, merged into the first value if that was from this CPU and into
zeros if not. `Table` says that there is one such entry for each key that
came up. Hashing a record keeps this up.

Merging is then compared with combining, and this is where the zeros matter.
-/

namespace Hexley.Dtrace

open Lib List Function

def HashEnt.key (h : HashEnt) : List (List UInt8) := h.desc.keyOf h.data

def withKey (k : List (List UInt8)) (items : List Item) : List Item :=
  items.filter fun r => r.key = k

def valuesOf (e : Endian) (c : ℕ) (items : List Item) : List (List Word64) :=
  (items.filter fun r => r.cpu = c).map fun r => r.value e

/-- The records that were hashed are those of one program: records that have the same variable
ID, and the same size or the same key, have the same layout, and the values of one variable
belong together. -/
structure Consistent (e : Endian) (varid : RecDesc) (items : List Item) : Prop where
  agg : ∀ r ∈ items, ∀ r' ∈ items,
    r.addr.read varid.offset varid.size = r'.addr.read varid.offset varid.size →
      r.agg.size = r'.agg.size ∨ r.key = r'.key → r.agg = r'.agg
  value : ∀ r ∈ items, ∃ arg, ∀ r' ∈ items, r'.key = r.key →
    r.agg.value.action.kind.IsValue (r.agg.value.size / 8) arg (r'.value e)

/-- The tables that sequences of calls make, with the records that the calls came past. -/
inductive Run (hdl : Handle) (varid : RecDesc) : AHash → List Item → Prop
  | init : Run hdl varid .empty []
  | call {hash : AHash} {items : List Item} {ret : Return} (h : Run hdl varid hash items)
      (call : Call) (chunks : List Chunk) (hok : call.Ok hdl varid chunks)
      (hret : dtAggregateHashCpu hdl call hash = some ret) :
      Run hdl varid ret.hash (items ++ call.items hdl ret.offs 0 chunks)

/-! ### What an entry has in it -/

/-- The entry stands for the record `r` and the records `rest` behind it. -/
structure Describes (hdl : Handle) (h : HashEnt) (r : Item) (rest : List Item) : Prop where
  desc : h.desc = r.agg
  key : h.key = r.key
  size : h.size = r.agg.size
  hashval : h.hashval = hashBytes 0 r.key.flatten
  aggregate : r.agg.value.action.aggregate = some h.aggregate
  total : r.agg.valueOf hdl.endian h.data =
    (rest.map fun r => r.value hdl.endian).foldl h.aggregate.onWords (r.value hdl.endian)
  kept : h.percpu.isSome = hdl.percpu
  percpu : ∀ percpu, h.percpu = some percpu → percpu.length = hdl.maxCpus ∧
    ∀ (c : ℕ) (slot : Mem), percpu[c]? = some slot →
      slot.words hdl.endian 0 (r.agg.value.size / 8) =
        (valuesOf hdl.endian c rest).foldl h.aggregate.onWords
          (if r.cpu = c then r.value hdl.endian else replicate (r.agg.value.size / 8) 0)

/-- The table has one entry for each key that came up. -/
structure Table (hdl : Handle) (varid : RecDesc) (hash : AHash) (items : List Item) : Prop where
  desc : ∀ r ∈ items, r.agg.Ok varid
  chains : ∀ ndx i, i ∈ hash.chains ndx ↔
    ∃ h, hash.ents[i]? = some h ∧ h.hashval.toNat % ahashSize = ndx
  all : hash.all = (range hash.ents.length).reverse
  ent : ∀ (i : ℕ) (h : HashEnt), hash.ents[i]? = some h →
    ∃ r rest, withKey h.key items = r :: rest ∧ Describes hdl h r rest
  distinct : ∀ (i j : ℕ) (h h' : HashEnt), hash.ents[i]? = some h → hash.ents[j]? = some h' →
    h.key = h'.key → i = j
  complete : ∀ r ∈ items, ∃ h ∈ hash.ents, h.key = r.key

variable {hdl : Handle} {varid : RecDesc} {h : HashEnt} {r s : Item} {rest : List Item}

section Merge

variable {arg : Word64} {f : Aggregate}

theorem length_value : (r.value hdl.endian).length = r.agg.value.size / 8 := Mem.length_words

theorem Aggregate.Fits.foldl {n : ℕ} {u : List Word64} {vs : List (List Word64)} (h : f.Fits n u)
    (hu : u.length = n) (hvs : ∀ v ∈ vs, v.length = n) :
    f.Fits n (vs.foldl f.onWords u) ∧ (vs.foldl f.onWords u).length = n := by
  induction vs generalizing u with
  | nil => exact ⟨h, hu⟩
  | cons v vs ih =>
    rw [forall_mem_cons] at hvs
    obtain ⟨hfits, hlen⟩ := h.onWords hu hvs.1
    exact ih hfits hlen hvs.2

theorem keyOf_run {m new : Mem} {q : ℕ} (hok : r.agg.Ok varid)
    (hfits : f.Fits (r.agg.value.size / 8) (r.agg.valueOf hdl.endian m)) :
    r.agg.keyOf (f.run hdl.endian m r.agg.value.offset new q r.agg.value.size) = r.agg.keyOf m := by
  refine map_congr_left fun k hk => ?_
  have hdisj := (pairwise_cons.mp hok.disjoint).1 k hk
  unfold RecDesc.Disjoint at hdisj
  rw [← hok.value]
  exact read_run hfits (by omega)

theorem valuesOf_append {c : ℕ} : valuesOf hdl.endian c (rest ++ [s]) =
      valuesOf hdl.endian c rest ++ if s.cpu = c then [s.value hdl.endian] else [] := by
  unfold valuesOf
  by_cases h : s.cpu = c <;> simp [h]

theorem length_of_mem_valuesOf {n c : ℕ} (h : ∀ t ∈ rest, (t.value hdl.endian).length = n) :
    ∀ v ∈ valuesOf hdl.endian c rest, v.length = n := by
  intro v hv
  obtain ⟨t, ht, rfl⟩ := mem_map.mp hv
  exact h t (mem_filter.mp ht).1

theorem Describes.merge (hd : Describes hdl h r rest) (hok : r.agg.Ok varid) (hagg : s.agg = r.agg)
    (hvalue : h.aggregate.IsValue (r.agg.value.size / 8) arg (r.value hdl.endian))
    (hrest : ∀ t ∈ rest, (t.value hdl.endian).length = r.agg.value.size / 8) :
    Describes hdl (h.merge hdl s.cpu s.agg s.addr) r (rest ++ [s]) := by
  have hsvalue : s.value hdl.endian = r.agg.valueOf hdl.endian s.addr := by
    rw [Item.value, hagg]
  have hfits : h.aggregate.Fits (r.agg.value.size / 8) (r.agg.valueOf hdl.endian h.data) := by
    rw [hd.total]
    refine (hvalue.fits.foldl hvalue.1 fun v hv => ?_).1
    obtain ⟨t, ht, rfl⟩ := mem_map.mp hv
    exact hrest t ht
  have hdesc : (h.merge hdl s.cpu s.agg s.addr).desc = r.agg := hd.desc
  have hkey : (h.merge hdl s.cpu s.agg s.addr).key = h.key := by
    rw [HashEnt.key, hdesc, HashEnt.key, hd.desc, HashEnt.merge, hagg]
    exact keyOf_run hok hfits
  refine ⟨hdesc, hkey.trans hd.key, hd.size, hd.hashval, hd.aggregate, ?_, ?_, ?_⟩
  · rw [map_append, foldl_append]
    change _ = h.aggregate.onWords (foldl h.aggregate.onWords _ _) (s.value hdl.endian)
    rw [← hd.total, hsvalue, HashEnt.merge, hagg]
    have hrun := words_run s.addr r.agg.value.offset hfits
    rw [hok.value] at hrun
    exact hrun
  · rw [← hd.kept, HashEnt.merge]
    exact Option.isSome_map
  · intro percpu hpercpu
    obtain ⟨old, hold, rfl⟩ := Option.map_eq_some_iff.mp hpercpu
    obtain ⟨hlen, hslots⟩ := hd.percpu old hold
    refine ⟨by rw [length_modify, hlen], fun c slot hslot => ?_⟩
    rw [getElem?_modify] at hslot
    obtain ⟨slot', hslot', rfl⟩ := Option.map_eq_some_iff.mp hslot
    rw [valuesOf_append, foldl_append]
    by_cases hc : s.cpu = c
    · rw [if_pos hc, if_pos hc, hagg]
      change _ = h.aggregate.onWords (foldl h.aggregate.onWords _ _) (s.value hdl.endian)
      have hstart : h.aggregate.Fits (r.agg.value.size / 8) (if r.cpu = c then
          r.value hdl.endian else replicate (r.agg.value.size / 8) 0) ∧
          (if r.cpu = c then r.value hdl.endian
            else replicate (r.agg.value.size / 8) 0).length = r.agg.value.size / 8 := by
        split
        · exact ⟨hvalue.fits, hvalue.1⟩
        · exact ⟨hvalue.fits_zero, length_replicate⟩
      have hfits' := (hstart.1.foldl hstart.2 (length_of_mem_valuesOf (c := c) hrest)).1
      rw [← hslots c slot' hslot'] at hfits' ⊢
      have hrun := words_run s.addr r.agg.value.offset hfits'
      rw [hok.value] at hrun
      rw [hsvalue]
      exact hrun
    · rw [if_neg hc, if_neg hc]
      exact hslots c slot' hslot'

theorem describes_newEnt (hok : s.agg.Ok varid) (hf : s.agg.value.action.aggregate = some f) :
    Describes hdl (newEnt hdl s.cpu s.agg s.addr (hashBytes 0 s.key.flatten) f) s [] := by
  have hinside : s.agg.value.offset + 8 * (s.agg.value.size / 8) ≤ s.agg.size := by
    rw [hok.value]
    exact hok.inside _ mem_cons_self
  refine ⟨rfl, ?_, rfl, rfl, hf, ?_, ?_, ?_⟩
  · refine map_congr_left fun k hk => ?_
    rw [newEnt, Mem.read_ofList_read (hok.inside k (mem_cons_of_mem _ hk)), zero_add]
  · refine Mem.words_congr ?_
    rw [newEnt, Mem.read_ofList_read hinside, zero_add]
  · cases hpercpu : hdl.percpu <;> simp [newEnt, hpercpu]
  · intro percpu hpercpu
    rw [newEnt] at hpercpu
    split at hpercpu
    · obtain rfl := Option.some.inj hpercpu
      refine ⟨by rw [length_map, length_range], fun c slot hslot => ?_⟩
      rw [getElem?_map] at hslot
      obtain ⟨j, hj, rfl⟩ := Option.map_eq_some_iff.mp hslot
      obtain ⟨hlt, hcj⟩ := List.getElem?_eq_some_iff.mp hj
      rw [getElem_range] at hcj
      subst hcj
      change _ = if s.cpu = c then _ else _
      by_cases hc : c = s.cpu
      · rw [if_pos hc, if_pos hc.symm]
        refine Mem.words_congr ?_
        rw [hok.value, Mem.read_ofList_read (by rw [zero_add]), add_zero]
      · rw [if_neg hc, if_neg (Ne.symm hc), Mem.words_zero]
    · exact nomatch hpercpu

end Merge

/-! ### One more record -/

section Step

variable {items : List Item} {hash : AHash} {k : List (List UInt8)}

theorem head_keyOf {agg : AggDesc} (hok : agg.Ok varid) (m : Mem) :
    (agg.keyOf m).head? = some (m.read varid.offset varid.size) := by
  rw [AggDesc.keyOf, head?_map, hok.varid]
  rfl

theorem Consistent.mono {items' : List Item} (h : Consistent hdl.endian varid (items ++ items')) :
    Consistent hdl.endian varid items where
  agg r hr r' hr' := h.agg r (mem_append_left _ hr) r' (mem_append_left _ hr')
  value r hr := by
    obtain ⟨arg, harg⟩ := h.value r (mem_append_left _ hr)
    exact ⟨arg, fun r' hr' => harg r' (mem_append_left _ hr')⟩

theorem Consistent.agg_eq (h : Consistent hdl.endian varid items) (hr : r ∈ items) (hs : s ∈ items)
    (hrok : r.agg.Ok varid) (hsok : s.agg.Ok varid) (hkey : r.key = s.key) : r.agg = s.agg := by
  refine h.agg r hr s hs ?_ (.inr hkey)
  have hhead := congrArg head? hkey
  rw [Item.key, Item.key, head_keyOf hrok, head_keyOf hsok] at hhead
  exact Option.some.inj hhead

theorem Describes.matchesKey_iff (hd : Describes hdl h r rest)
    (hcons : Consistent hdl.endian varid items)
    (hr : r ∈ items) (hs : s ∈ items) (hrok : r.agg.Ok varid) (hsok : s.agg.Ok varid) :
    h.matchesKey s.agg s.addr (hashBytes 0 s.key.flatten) = true ↔ h.key = s.key := by
  have hdata : h.key = r.agg.keyOf h.data := by rw [HashEnt.key, hd.desc]
  unfold HashEnt.matchesKey
  simp only [Bool.and_eq_true, decide_eq_true_eq, all_eq_true, beq_iff_eq]
  constructor
  · rintro ⟨⟨-, hsize⟩, hbytes⟩
    have hvarid : r.addr.read varid.offset varid.size = s.addr.read varid.offset varid.size := by
      have hhead := congrArg head? (hdata.symm.trans hd.key)
      rw [Item.key, head_keyOf hrok, head_keyOf hrok] at hhead
      rw [hbytes varid (mem_of_mem_head? hsok.varid), Option.some.inj hhead]
    have hagg : r.agg = s.agg := hcons.agg r hr s hs hvarid (.inl (hd.size.symm.trans hsize))
    rw [hdata, hagg]
    exact map_congr_left fun k hk => (hbytes k hk).symm
  · intro hkey
    have hagg := hcons.agg_eq hr hs hrok hsok (hd.key.symm.trans hkey)
    refine ⟨⟨?_, ?_⟩, fun k hk => ?_⟩
    · rw [hd.hashval, ← hd.key, hkey]
    · rw [hd.size, hagg]
    · rw [hdata, hagg] at hkey
      exact (map_inj_left.mp hkey k hk).symm

theorem withKey_append :
    withKey k (items ++ [s]) = withKey k items ++ if s.key = k then [s] else [] := by
  unfold withKey
  by_cases h : s.key = k <;> simp [h]

theorem mem_withKey : r ∈ withKey k items ↔ r ∈ items ∧ r.key = k := by
  rw [withKey, mem_filter, decide_eq_true_eq]

section Found

variable (ht : Table hdl varid hash items) (hcons : Consistent hdl.endian varid (items ++ [s]))
  (hsok : s.agg.Ok varid) {i : ℕ}

include ht hcons hsok

theorem Table.matchesKey_iff (hi : hash.ents[i]? = some h) :
    h.matchesKey s.agg s.addr (hashBytes 0 s.key.flatten) = true ↔ h.key = s.key := by
  obtain ⟨r, rest, hrs, hd⟩ := ht.ent i h hi
  have hr : r ∈ items := (mem_withKey.mp (hrs ▸ mem_cons_self)).1
  exact hd.matchesKey_iff hcons (mem_append_left _ hr)
    (mem_append_right _ (mem_singleton_self s)) (ht.desc r hr) hsok

theorem Table.find_eq_some {chain : List ℕ}
    (hfind : hash.find s.agg s.addr (hashBytes 0 s.key.flatten) chain = some i) :
    ∃ h, hash.ents[i]? = some h ∧ h.key = s.key := by
  have hmatch := find?_some hfind
  cases hi : hash.ents[i]? with
  | none => rw [hi] at hmatch; exact nomatch hmatch
  | some h =>
    rw [hi] at hmatch
    exact ⟨h, rfl, (ht.matchesKey_iff hcons hsok hi).mp hmatch⟩

theorem Table.find_eq_none (hfind : hash.find s.agg s.addr (hashBytes 0 s.key.flatten)
      (hash.chains ((hashBytes 0 s.key.flatten).toNat % ahashSize)) = none) :
    ∀ h ∈ hash.ents, h.key ≠ s.key := by
  intro h hmem hkey
  obtain ⟨i, hi⟩ := mem_iff_getElem?.mp hmem
  obtain ⟨r, rest, -, hd⟩ := ht.ent i h hi
  have hchain : i ∈ hash.chains ((hashBytes 0 s.key.flatten).toNat % ahashSize) :=
    (ht.chains _ i).mpr ⟨h, hi, by rw [hd.hashval, ← hd.key, hkey]⟩
  have hno := find?_eq_none.mp hfind i hchain
  rw [hi] at hno
  exact hno ((ht.matchesKey_iff hcons hsok hi).mpr hkey)

theorem Table.describes_merge (hi : hash.ents[i]? = some h) (hkey : h.key = s.key) :
    ∃ r rest, withKey h.key items = r :: rest ∧
      Describes hdl (h.merge hdl s.cpu s.agg s.addr) r (rest ++ [s]) ∧ h.key = r.key := by
  obtain ⟨r, rest, hrs, hd⟩ := ht.ent i h hi
  have hmem : ∀ t ∈ r :: rest, t ∈ items ++ [s] ∧ t.key = r.key := by
    intro t ht
    obtain ⟨hitem, htkey⟩ := mem_withKey.mp (hrs ▸ ht)
    exact ⟨mem_append_left _ hitem, htkey.trans hd.key⟩
  have hr := hmem r mem_cons_self
  have hrok : r.agg.Ok varid := ht.desc r (mem_withKey.mp (hrs ▸ mem_cons_self)).1
  have hagg : s.agg = r.agg :=
    hcons.agg_eq (mem_append_right _ (mem_singleton_self s)) hr.1 hsok hrok (hkey.symm.trans hd.key)
  obtain ⟨arg, harg⟩ := hcons.value r hr.1
  rw [kind_eq hd.aggregate] at harg
  have hrest : ∀ t ∈ rest, (t.value hdl.endian).length = r.agg.value.size / 8 := fun t ht =>
    have ht' := hmem t (mem_cons_of_mem _ ht)
    (harg t ht'.1 ht'.2).1
  exact ⟨r, rest, hrs, hd.merge hrok hagg (harg r hr.1 rfl) hrest, hd.key⟩

theorem Table.merge (hi : hash.ents[i]? = some h) (hkey : h.key = s.key) :
    Table hdl varid { hash with ents := hash.ents.modify i (HashEnt.merge hdl s.cpu s.agg s.addr) }
      (items ++ [s]) := by
  obtain ⟨r, rest, hrs, hd, hrkey⟩ := ht.describes_merge hcons hsok hi hkey
  have hkey' : (h.merge hdl s.cpu s.agg s.addr).key = h.key := hd.key.trans hrkey.symm
  -- Every entry is as it was or the one that is merged into, which keeps its key and its value.
  have hcases (j : ℕ) : (hash.ents.modify i (HashEnt.merge hdl s.cpu s.agg s.addr))[j]? =
      if j = i then some (h.merge hdl s.cpu s.agg s.addr) else hash.ents[j]? := by
    rw [getElem?_modify]
    by_cases hj : i = j
    · subst hj
      rw [if_pos rfl, hi]
      exact congrArg some (if_pos rfl)
    · rw [if_neg (Ne.symm hj)]
      simp [hj]
  have hsame (j : ℕ) (P : List (List UInt8) → Word64 → Prop) :
      (∃ h', (hash.ents.modify i (HashEnt.merge hdl s.cpu s.agg s.addr))[j]? = some h' ∧
        P h'.key h'.hashval) ↔ ∃ h', hash.ents[j]? = some h' ∧ P h'.key h'.hashval := by
    rw [hcases]
    split
    · next heq =>
      subst heq
      have hval : (h.merge hdl s.cpu s.agg s.addr).hashval = h.hashval := rfl
      simp [hi, hkey', hval]
    · rfl
  constructor
  · exact fun r hr => (mem_append.mp hr).elim (ht.desc r) fun hr => mem_singleton.mp hr ▸ hsok
  · intro ndx j
    rw [ht.chains]
    exact (hsame j fun _ hashval => hashval.toNat % ahashSize = ndx).symm
  · rw [length_modify]
    exact ht.all
  · intro j h' hj
    rw [hcases] at hj
    split at hj
    · obtain rfl := Option.some.inj hj
      refine ⟨r, rest ++ [s], ?_, hd⟩
      rw [withKey_append, hkey', hrs, if_pos hkey.symm]
      rfl
    · next hne =>
      obtain ⟨r', rest', hrs', hd'⟩ := ht.ent j h' hj
      have hother : s.key ≠ h'.key := fun heq => hne (ht.distinct j i h' h hj hi (heq ▸ hkey.symm))
      exact ⟨r', rest', by rw [withKey_append, if_neg hother, append_nil, hrs'], hd'⟩
  · intro j k hj hk hjh hkh heq
    obtain ⟨h₁, h₁i, h₁key⟩ := (hsame j fun key _ => key = hj.key).mp ⟨hj, hjh, rfl⟩
    obtain ⟨h₂, h₂i, h₂key⟩ := (hsame k fun key _ => key = hk.key).mp ⟨hk, hkh, rfl⟩
    exact ht.distinct j k h₁ h₂ h₁i h₂i (h₁key.trans (heq.trans h₂key.symm))
  · intro t ht'
    have hold : ∃ h₀ ∈ hash.ents, h₀.key = t.key := by
      rcases mem_append.mp ht' with hmem | hmem
      · exact ht.complete t hmem
      · rw [mem_singleton.mp hmem]
        exact ⟨h, mem_of_getElem? hi, hkey⟩
    obtain ⟨h₀, hmem, htkey⟩ := hold
    obtain ⟨j, hj⟩ := mem_iff_getElem?.mp hmem
    obtain ⟨h', hj', hkey₀⟩ := (hsame j fun key _ => key = t.key).mpr ⟨h₀, hj, htkey⟩
    exact ⟨h', mem_of_getElem? hj', hkey₀⟩

end Found

theorem Table.insert (ht : Table hdl varid hash items) {f : Aggregate} (hsok : s.agg.Ok varid)
    (hf : s.agg.value.action.aggregate = some f) (hnew : ∀ h ∈ hash.ents, h.key ≠ s.key) :
    Table hdl varid (hash.insert (newEnt hdl s.cpu s.agg s.addr (hashBytes 0 s.key.flatten) f)
        ((hashBytes 0 s.key.flatten).toNat % ahashSize)) (items ++ [s]) := by
  have hd : Describes hdl (newEnt hdl s.cpu s.agg s.addr (hashBytes 0 s.key.flatten) f) s [] :=
    describes_newEnt hsok hf
  set h := newEnt hdl s.cpu s.agg s.addr (hashBytes 0 s.key.flatten) f with hh
  have hcases (j : ℕ) : (hash.ents ++ [h])[j]? =
      if j = hash.ents.length then some h else hash.ents[j]? := by
    split
    · next hj => rw [hj, getElem?_concat_length]
    · next hj =>
      rcases Nat.lt_or_gt_of_ne hj with hlt | hgt
      · exact getElem?_append_left hlt
      · rw [getElem?_eq_none hgt.le, getElem?_eq_none]
        rw [length_append, length_singleton]
        omega
  have hlt {j : ℕ} {h' : HashEnt} (hj : hash.ents[j]? = some h') : j < hash.ents.length :=
    (List.getElem?_eq_some_iff.mp hj).1
  constructor
  · exact fun r hr => (mem_append.mp hr).elim (ht.desc r) fun hr => mem_singleton.mp hr ▸ hsok
  · intro ndx j
    change j ∈ update hash.chains _ _ ndx ↔ ∃ h', (hash.ents ++ [h])[j]? = some h' ∧ _
    rw [hcases]
    have hold := ht.chains ndx j
    by_cases hj : j = hash.ents.length
    · have hnone : j ∉ hash.chains ndx := fun hmem =>
        have ⟨_, hh', _⟩ := hold.mp hmem
        hj.not_lt (hlt hh')
      rw [if_pos hj]
      by_cases hndx : ndx = (hashBytes 0 s.key.flatten).toNat % ahashSize
      · rw [hndx, update_self, hj]
        exact iff_of_true mem_cons_self ⟨h, rfl, rfl⟩
      · rw [update_of_ne hndx]
        refine iff_of_false hnone ?_
        rintro ⟨h', hh', heq⟩
        obtain rfl := Option.some.inj hh'
        exact hndx heq.symm
    · rw [if_neg hj, ← hold]
      by_cases hndx : ndx = (hashBytes 0 s.key.flatten).toNat % ahashSize
      · rw [hndx, update_self, mem_cons, or_iff_right hj]
      · rw [update_of_ne hndx]
  · change hash.ents.length :: hash.all = (range (hash.ents ++ [h]).length).reverse
    rw [length_append, length_singleton, range_succ, reverse_append, ht.all]
    rfl
  · intro j h' hj
    change (hash.ents ++ [h])[j]? = some h' at hj
    rw [hcases] at hj
    split at hj
    · obtain rfl := Option.some.inj hj
      have hnone : withKey h.key items = [] := by
        refine filter_eq_nil_iff.mpr fun t ht' heq => ?_
        obtain ⟨h₀, hmem, hkey⟩ := ht.complete t ht'
        exact hnew h₀ hmem (hkey.trans ((of_decide_eq_true heq).trans hd.key))
      exact ⟨s, [], by rw [withKey_append, hnone, if_pos hd.key.symm]; rfl, hd⟩
    · obtain ⟨r, rest, hrs, hd'⟩ := ht.ent j h' hj
      have hother : s.key ≠ h'.key := (hnew h' (mem_of_getElem? hj)).symm
      exact ⟨r, rest, by rw [withKey_append, if_neg hother, append_nil, hrs], hd'⟩
  · intro j k hj hk hjh hkh heq
    change (hash.ents ++ [h])[j]? = some hj at hjh
    change (hash.ents ++ [h])[k]? = some hk at hkh
    rw [hcases] at hjh hkh
    split at hjh
    · next hjlen =>
      obtain rfl := Option.some.inj hjh
      split at hkh
      · next hklen => exact hjlen.trans hklen.symm
      · exact absurd (heq.symm.trans hd.key) (hnew hk (mem_of_getElem? hkh))
    · split at hkh
      · obtain rfl := Option.some.inj hkh
        exact absurd (heq.trans hd.key) (hnew hj (mem_of_getElem? hjh))
      · exact ht.distinct j k hj hk hjh hkh heq
  · intro t ht'
    rcases mem_append.mp ht' with hmem | hmem
    · obtain ⟨h₀, hmem, hkey⟩ := ht.complete t hmem
      exact ⟨h₀, mem_append_left _ hmem, hkey⟩
    · rw [mem_singleton.mp hmem]
      exact ⟨h, mem_append_right _ (mem_singleton_self h), hd.key⟩

theorem table_empty : Table hdl varid .empty [] where
  desc := nofun
  chains _ _ := iff_of_false not_mem_nil fun ⟨_, hi, _⟩ => nomatch hi
  all := rfl
  ent _ _ hi := nomatch hi
  distinct _ _ _ _ hi := nomatch hi
  complete := nofun

theorem Table.allocated (ht : Table hdl varid hash items) (allocated : Bool) :
    Table hdl varid { hash with allocated } items :=
  ⟨ht.desc, ht.chains, ht.all, ht.ent, ht.distinct, ht.complete⟩

variable {agg : AggDesc} {hash' : AHash} {call : Call}

theorem hash_eq_of_errno {cpu : ℕ} {addr : Mem} {turn : Turn} {err : Errno}
    (h : hashRecord hdl cpu agg addr turn hash = (some err, hash')) : hash' = hash := by
  unfold hashRecord at h
  dsimp only at h
  split at h
  · exact nomatch (Prod.ext_iff.mp h).1
  · split at h
    · exact (Prod.ext_iff.mp h).2.symm
    · split at h
      · exact (Prod.ext_iff.mp h).2.symm
      · exact nomatch (Prod.ext_iff.mp h).1

theorem Table.hashRecord (ht : Table hdl varid hash items) {bytes : List UInt8} {offs : ℕ}
    (hok : RecordOk hdl varid bytes agg)
    (hcons : Consistent hdl.endian varid (items ++ [call.item hdl offs bytes agg]))
    (h : hashRecord hdl call.cpu agg (.ofList bytes) (call.turn offs) hash = (none, hash')) :
    Table hdl varid hash' (items ++ [call.item hdl offs bytes agg]) := by
  set s := call.item hdl offs bytes agg with hs
  have hval : (hashKey hdl (call.turn offs) agg.keys (.ofList bytes) 0).2 =
      hashBytes 0 s.key.flatten :=
    hashKey_hashval hok.desc.symbol (pairwise_cons.mp hok.desc.disjoint).2
  unfold Dtrace.hashRecord at h
  dsimp only at h
  rw [hval] at h
  split at h
  · next i hfind =>
    obtain ⟨e, hi, hkey⟩ := ht.find_eq_some hcons hok.desc hfind
    obtain rfl := (Prod.ext_iff.mp h).2
    exact ht.merge hcons hok.desc hi hkey
  · next hfind =>
    split at h
    · exact nomatch (Prod.ext_iff.mp h).1
    · split at h
      · exact nomatch (Prod.ext_iff.mp h).1
      · next f hf =>
        obtain rfl := (Prod.ext_iff.mp h).2
        exact ht.insert hok.desc hf (ht.find_eq_none hcons hok.desc hfind)

/-- Every call ends, and keeps a table with an entry for each key. -/
theorem hashCpu_table {chunks : List Chunk} (hok : call.Ok hdl varid chunks)
    (ht : Consistent hdl.endian varid items → Table hdl varid hash items) :
    ∃ ret, dtAggregateHashCpu hdl call hash = some ret ∧
      (Consistent hdl.endian varid (items ++ call.items hdl ret.offs 0 chunks) →
        Table hdl varid ret.hash (items ++ call.items hdl ret.offs 0 chunks)) ∧
      (ret.rval = none → ret.offs = call.size) := by
  refine hashCpu_keeps
    (P := fun hash items => Consistent hdl.endian varid items → Table hdl varid hash items)
    (fun offs bytes agg hash items hrecord hP => ?_) hok ht fun hcons => (ht hcons).allocated true
  split
  · next hash' h => exact fun hcons => (hP hcons.mono).hashRecord hrecord hcons h
  · next err hash' h =>
    rw [hash_eq_of_errno h]
    exact hP

theorem Run.table (h : Run hdl varid hash items) (hcons : Consistent hdl.endian varid items) :
    Table hdl varid hash items := by
  induction h with
  | init => exact table_empty
  | @call hash items ret h call chunks hok hret ih =>
    obtain ⟨ret', hret', hP, -⟩ := hashCpu_table hok ih
    obtain rfl := Option.some.inj (hret.symm.trans hret')
    exact hP hcons

end Step

end Hexley.Dtrace
