import Hexley.Dtrace.Combine

/-!
The records of a buffer.

A buffer is a sequence of records with filler between them. Each record has
the layout that the description of its aggregation says, and the first thing
in its key is the ID of the variable that is aggregated, which stands at the
same place in all of them.

The walk over a buffer comes to its records one after the other and ends
behind the last, or at a record that cannot be hashed. `hashCpuFrom_keeps`
is the rule for what holds between the table and the records that the walk
has come past.
-/

namespace Hexley.Dtrace

open Lib List

def RecDesc.Disjoint (r r' : RecDesc) : Prop :=
  r.offset + r.size ≤ r'.offset ∨ r'.offset + r'.size ≤ r.offset

def Action.symbolBytes : Action → ℕ
  | .usym | .umod => 16
  | .sym | .mod => 8
  | _ => 0

/-- A description as the compiler makes them, where `varid` is the record of the variable ID. -/
structure AggDesc.Ok (varid : RecDesc) (agg : AggDesc) : Prop where
  id_le : 4 ≤ agg.size
  varid : agg.keys.head? = some varid
  inside : ∀ r ∈ agg.value :: agg.keys, r.offset + r.size ≤ agg.size
  disjoint : (agg.value :: agg.keys).Pairwise RecDesc.Disjoint
  symbol : ∀ r ∈ agg.keys, r.action.symbolBytes ≤ r.size
  value : 8 * (agg.value.size / 8) = agg.value.size

/-! ### What a change of the key leaves alone -/

section Key

variable {hdl : Handle} {turn : Turn} {rec : RecDesc} {recs : List RecDesc} {addr : Mem} {q n : ℕ}
  {hashval : Word64}

theorem read_normalise (hsize : rec.action.symbolBytes ≤ rec.size)
    (h : q + n ≤ rec.offset ∨ rec.offset + rec.size ≤ q) :
    (normalise hdl turn rec addr).read q n = addr.read q n := by
  have hprocess (lookup : Word64 → Word64 → Option Word64) (hsize : 16 ≤ rec.size) :
      (resolveInProcess hdl lookup addr rec.offset).read q n = addr.read q n := by
    unfold resolveInProcess
    split
    · rfl
    split
    · rfl
    · exact Mem.read_setWord_off (by omega)
  unfold normalise
  split
  · next haction =>
    rw [haction] at hsize
    exact hprocess turn.usym hsize
  · next haction =>
    rw [haction] at hsize
    exact hprocess turn.umod hsize
  · next haction =>
    rw [haction] at hsize
    replace hsize : 8 ≤ rec.size := hsize
    unfold dtAggregateSym
    split
    · rfl
    · exact Mem.read_setWord_off (by omega)
  · next haction =>
    rw [haction] at hsize
    replace hsize : 8 ≤ rec.size := hsize
    unfold dtAggregateMod
    split
    · rfl
    split
    · rfl
    · exact Mem.read_setWord_off (by omega)
  · rfl

theorem read_hashKey (hsize : ∀ r ∈ recs, r.action.symbolBytes ≤ r.size)
    (h : ∀ r ∈ recs, q + n ≤ r.offset ∨ r.offset + r.size ≤ q) :
    (hashKey hdl turn recs addr hashval).1.read q n = addr.read q n := by
  induction recs generalizing addr hashval with
  | nil => rfl
  | cons r recs ih =>
    rw [forall_mem_cons] at hsize h
    rw [hashKey, ih hsize.2 h.2, read_normalise hsize.1 h.1]

theorem hashBytes_append (hashval : Word64) (bs cs : List UInt8) :
    hashBytes hashval (bs ++ cs) = hashBytes (hashBytes hashval bs) cs := foldl_append

theorem hashKey_hashval (hsize : ∀ r ∈ recs, r.action.symbolBytes ≤ r.size)
    (hdisj : recs.Pairwise RecDesc.Disjoint) : (hashKey hdl turn recs addr hashval).2 =
      hashBytes hashval (recs.flatMap fun r =>
        (hashKey hdl turn recs addr hashval).1.read r.offset r.size) := by
  induction recs generalizing addr hashval with
  | nil => rfl
  | cons r recs ih =>
    rw [forall_mem_cons] at hsize
    rw [pairwise_cons] at hdisj
    rw [hashKey, flatMap_cons, hashBytes_append, read_hashKey hsize.2 hdisj.1]
    exact ih hsize.2 hdisj.2

end Key

/-! ### Buffers -/

inductive Chunk
  | filler
  | record (bytes : List UInt8)

def Chunk.bytes (e : Endian) : Chunk → List UInt8
  | .filler => e.bytes 4 0
  | .record bytes => bytes

structure Item where
  cpu : ℕ
  agg : AggDesc
  /-- The record, with the addresses in its key resolved. -/
  addr : Mem

def AggDesc.keyOf (agg : AggDesc) (m : Mem) : List (List UInt8) :=
  agg.keys.map fun r => m.read r.offset r.size

def AggDesc.valueOf (agg : AggDesc) (e : Endian) (m : Mem) : List Word64 :=
  m.words e agg.value.offset (agg.value.size / 8)

def Item.key (r : Item) : List (List UInt8) := r.agg.keyOf r.addr

def Item.value (r : Item) (e : Endian) : List Word64 := r.agg.valueOf e r.addr

structure RecordOk (hdl : Handle) (varid : RecDesc) (bytes : List UInt8) (agg : AggDesc) :
    Prop where
  id : hdl.endian.val (bytes.take 4) ≠ 0
  lookup : hdl.aggs (hdl.endian.val (bytes.take 4)) = some agg
  length : bytes.length = agg.size
  desc : agg.Ok varid
  aggregating : agg.value.action.aggregate.isSome
  value : ∃ arg, agg.value.action.kind.IsValue (agg.value.size / 8) arg
    (agg.valueOf hdl.endian (.ofList bytes))

structure Call.Ok (hdl : Handle) (varid : RecDesc) (call : Call) (chunks : List Chunk) : Prop where
  cpu : call.cpu < hdl.maxCpus
  size : call.size = (chunks.flatMap (Chunk.bytes hdl.endian)).length
  data : call.data.Holds 0 (chunks.flatMap (Chunk.bytes hdl.endian))
  records : ∀ bytes, Chunk.record bytes ∈ chunks → ∃ agg, RecordOk hdl varid bytes agg

def Call.item (hdl : Handle) (call : Call) (offs : ℕ) (bytes : List UInt8) (agg : AggDesc) : Item :=
  ⟨call.cpu, agg, (hashKey hdl (call.turn offs) agg.keys (.ofList bytes) 0).1⟩

def Call.items (hdl : Handle) (call : Call) (stop : ℕ) : ℕ → List Chunk → List Item
  | _, [] => []
  | offs, .filler :: chunks => call.items hdl stop (offs + 4) chunks
  | offs, .record bytes :: chunks =>
    if offs < stop then
      (hdl.aggs (hdl.endian.val (bytes.take 4))).toList.map (call.item hdl offs bytes) ++
        call.items hdl stop (offs + bytes.length) chunks
    else []

/-! ### The walk -/

section Walk

variable {hdl : Handle} {varid : RecDesc} {call : Call} {chunks : List Chunk}
  {P : AHash → List Item → Prop} {hash : AHash} {items : List Item}

theorem items_of_le {stop offs : ℕ} (h : stop ≤ offs) : call.items hdl stop offs chunks = [] := by
  induction chunks generalizing offs with
  | nil => rfl
  | cons chunk chunks ih =>
    cases chunk with
    | filler => exact ih (by omega)
    | record bytes => exact if_neg (not_lt.mpr h)

theorem length_le_bytes
    (h : ∀ bytes, Chunk.record bytes ∈ chunks → ∃ agg, RecordOk hdl varid bytes agg) :
    chunks.length ≤ (chunks.flatMap (Chunk.bytes hdl.endian)).length := by
  induction chunks with
  | nil => exact le_rfl
  | cons chunk chunks ih =>
    have hrest := ih fun bytes hmem => h bytes (mem_cons_of_mem _ hmem)
    have hchunk : 1 ≤ (chunk.bytes hdl.endian).length := by
      cases chunk with
      | filler => exact (Endian.length_bytes hdl.endian 4 0).symm ▸ (by decide)
      | record bytes =>
        obtain ⟨agg, hok⟩ := h bytes mem_cons_self
        have hlen := hok.length
        have hfour := hok.desc.id_le
        change 1 ≤ bytes.length
        omega
    rw [flatMap_cons, length_append, length_cons]
    omega

variable (hstep : ∀ offs bytes agg hash items, RecordOk hdl varid bytes agg → P hash items →
    match hashRecord hdl call.cpu agg (.ofList bytes) (call.turn offs) hash with
    | (none, hash') => P hash' (items ++ [call.item hdl offs bytes agg])
    | (some _, hash') => P hash' items)
include hstep

theorem hashCpuFrom_keeps {turns offs : ℕ}
    (hrecords : ∀ bytes, Chunk.record bytes ∈ chunks → ∃ agg, RecordOk hdl varid bytes agg)
    (hsize : call.size = offs + (chunks.flatMap (Chunk.bytes hdl.endian)).length)
    (hdata : call.data.Holds offs (chunks.flatMap (Chunk.bytes hdl.endian)))
    (hturns : chunks.length ≤ turns) (hP : P hash items) :
    ∃ ret, hashCpuFrom hdl call turns offs hash = some ret ∧ offs ≤ ret.offs ∧
      P ret.hash (items ++ call.items hdl ret.offs offs chunks) ∧
        (ret.rval = none → ret.offs = call.size) := by
  induction chunks generalizing turns offs hash items with
  | nil =>
    rw [flatMap_nil, length_nil, add_zero] at hsize
    refine ⟨⟨none, offs, hash⟩, ?_, le_rfl, ?_, fun _ => hsize.symm⟩
    · cases turns <;> exact if_neg (by omega)
    · rwa [Call.items, append_nil]
  | cons chunk chunks ih =>
    rw [length_cons] at hturns
    rcases turns with _ | turns
    · omega
    have hturns' : chunks.length ≤ turns := Nat.le_of_succ_le_succ hturns
    rw [flatMap_cons, length_append] at hsize
    rw [flatMap_cons, Mem.holds_append] at hdata
    obtain ⟨hchunk, hdata⟩ := hdata
    have hrecords' : ∀ bytes, Chunk.record bytes ∈ chunks → ∃ agg, RecordOk hdl varid bytes agg :=
      fun bytes hmem => hrecords bytes (mem_cons_of_mem _ hmem)
    cases chunk with
    | filler =>
      have hlen : (Chunk.filler.bytes hdl.endian).length = 4 := Endian.length_bytes _ 4 0
      rw [hlen] at hsize hdata
      have hid : hdl.endian.val (call.data.read offs 4) = 0 := by
        rw [hchunk.read_eq hlen]
        exact Endian.val_bytes _ 4 0
      obtain ⟨ret, hret, hle, hPret, hend⟩ := ih hrecords' (by omega) hdata hturns' hP
      refine ⟨ret, ?_, by omega, hPret, hend⟩
      rw [hashCpuFrom, if_pos (by omega)]
      rw [if_pos hid, hret]
    | record bytes =>
      obtain ⟨agg, hok⟩ := hrecords bytes mem_cons_self
      change call.data.Holds offs bytes at hchunk
      change call.data.Holds (offs + bytes.length) _ at hdata
      change call.size = offs + (bytes.length + _) at hsize
      have hlen := hok.length
      have hfour := hok.desc.id_le
      have hid : call.data.read offs 4 = bytes.take 4 := hchunk.read_take (by omega)
      have hstep := hstep offs bytes agg hash items hok hP
      rw [hashCpuFrom, if_pos (by omega)]
      rw [hid, if_neg hok.id, hok.lookup]
      dsimp only
      rw [hchunk.read_eq hlen]
      cases hres : hashRecord hdl call.cpu agg (.ofList bytes) (call.turn offs) hash with
      | mk err hash' =>
        rw [hres] at hstep
        cases err with
        | some err =>
          refine ⟨⟨some err, offs, hash'⟩, rfl, le_rfl, ?_, nofun⟩
          rw [items_of_le le_rfl, append_nil]
          exact hstep
        | none =>
          obtain ⟨ret, hret, hle, hPret, hend⟩ := ih hrecords' (by omega) hdata hturns' hstep
          refine ⟨ret, ?_, by omega, ?_, hend⟩
          · rw [← hlen]
            exact hret
          · rw [Call.items, if_pos (by omega), hok.lookup, ← append_assoc]
            exact hPret

theorem hashCpu_keeps (hok : call.Ok hdl varid chunks) (hP : P hash items)
    (hP' : P { hash with allocated := true } items) :
    ∃ ret, dtAggregateHashCpu hdl call hash = some ret ∧
      P ret.hash (items ++ call.items hdl ret.offs 0 chunks) ∧
        (ret.rval = none → ret.offs = call.size) := by
  rw [dtAggregateHashCpu]
  split
  · refine ⟨_, rfl, ?_, nofun⟩
    rwa [items_of_le le_rfl, append_nil]
  · have hturns : chunks.length ≤ call.size := by
      rw [hok.size]
      exact length_le_bytes hok.records
    obtain ⟨ret, hret, -, hPret, hend⟩ := hashCpuFrom_keeps hstep hok.records
      (by rw [zero_add]; exact hok.size) hok.data hturns hP'
    exact ⟨ret, hret, hPret, hend⟩

end Walk

end Hexley.Dtrace
