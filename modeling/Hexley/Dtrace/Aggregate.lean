import Hexley.Lib.Words

/-!
Gathering the aggregations of DTrace.

The kernel keeps the aggregations of each CPU in a buffer of its own. A
record of a buffer has the ID of its aggregation, the key and, last, what the
aggregating action has made of the values that were traced under the key.
`dt_aggregate_hash_cpu` walks over such a buffer and collects its records in
a hash table: the first record of a key becomes an entry, and every later one
is merged into the entry. If the data of each CPU is wanted as well, an entry
has a slot for each CPU, and the record is also merged into the slot of the
CPU that the buffer is from.

A record is changed in the buffer where its key has an address that can be
replaced by that of a symbol or module. Nothing reads the record there again,
so that the buffer itself is not part of the result here.

What the surroundings do is an input for each record: whether memory can be
had, and what addresses are resolved to.
-/

namespace Hexley.Dtrace

open Lib

/-- `dtrd_action`, as far as actions are told apart. -/
inductive Action
  | count
  | sum
  | min
  | max
  | avg
  | quantize
  | lquantize
  | usym
  | umod
  | sym
  | mod
  | other (kind : ℕ)
  deriving DecidableEq

structure RecDesc where
  action : Action
  offset : ℕ
  size : ℕ
  deriving DecidableEq

structure AggDesc where
  size : ℕ
  keys : List RecDesc
  value : RecDesc
  deriving DecidableEq

structure Module where
  textVa : Word64
  textSize : Word64

structure Handle where
  endian : Endian
  aggs : ℕ → Option AggDesc
  vector : Bool
  percpu : Bool
  maxCpus : ℕ

structure Turn where
  alloc : Bool
  /-- The value of the symbol of a process that an address belongs to. -/
  usym : Word64 → Word64 → Option Word64
  /-- The start of the mapping of a process that an address belongs to. -/
  umod : Word64 → Word64 → Option Word64
  sym : Word64 → Option Word64
  modules : List Module

section Normalise

variable (hdl : Handle) (turn : Turn)

/-- The common shape of `dt_aggregate_usym` and `dt_aggregate_umod`. -/
def resolveInProcess (lookup : Word64 → Word64 → Option Word64) (data : Mem) (p : ℕ) : Mem :=
  if hdl.vector then data
  else
    match lookup (data.word hdl.endian p) (data.word hdl.endian (p + 8)) with
    | none => data
    | some pc => data.setWord hdl.endian (p + 8) pc

variable (data : Mem)

def dtAggregateUsym (p : ℕ) : Mem := resolveInProcess hdl turn.usym data p

def dtAggregateUmod (p : ℕ) : Mem := resolveInProcess hdl turn.umod data p

def dtAggregateSym (p : ℕ) : Mem :=
  match turn.sym (data.word hdl.endian p) with
  | none => data
  | some pc => data.setWord hdl.endian p pc

def dtAggregateMod (p : ℕ) : Mem :=
  if hdl.vector then data
  else
    match turn.modules.find? fun dm => data.word hdl.endian p - dm.textVa < dm.textSize with
    | none => data
    | some dm => data.setWord hdl.endian p dm.textVa

def normalise (rec : RecDesc) (addr : Mem) : Mem :=
  match rec.action with
  | .usym => dtAggregateUsym hdl turn addr rec.offset
  | .umod => dtAggregateUmod hdl turn addr rec.offset
  | .sym => dtAggregateSym hdl turn addr rec.offset
  | .mod => dtAggregateMod hdl turn addr rec.offset
  | _ => addr

/-- The loop that adds the bytes of a record to the hash value. A `char` is signed. -/
def hashBytes (hashval : Word64) (bytes : List UInt8) : Word64 :=
  bytes.foldl (fun hashval b => hashval + b.toBitVec.signExtend 64) hashval

/-- The loop over the records of the key: what the record is changed to, and its hash value. -/
def hashKey : List RecDesc → Mem → Word64 → Mem × Word64
  | [], addr, hashval => (addr, hashval)
  | rec :: recs, addr, hashval =>
    let addr := normalise hdl turn rec addr
    hashKey recs addr (hashBytes hashval (addr.read rec.offset rec.size))

end Normalise

/-! ### The aggregating functions -/

/-- The functions that `dtahe_aggregate` points to. -/
inductive Aggregate
  | count
  | min
  | max
  | lquantize
  deriving DecidableEq

/-- `DTRACE_LQUANTIZE_LEVELS`. The kernel's header with it is not among the
sources; the proofs use only that zero has no levels. -/
def lquantizeLevels (arg : Word64) : ℕ := (arg >>> 32).toNat % 2 ^ 16

section Functions

variable (e : Endian) (existing : Mem) (p : ℕ) (new : Mem) (q : ℕ)

/-- `dt_aggregate_count` for the words of `existing` at `p` and those of `new` at `q`. -/
def dtAggregateCount (size : ℕ) : Mem := existing.addWords e p new q (size / 8)

/-- The common shape of `dt_aggregate_min` and `dt_aggregate_max`. -/
def replaceIf (better : Word64 → Word64 → Bool) : Mem :=
  if better (new.word e q) (existing.word e p) then existing.setWord e p (new.word e q)
  else existing

def dtAggregateMin : Mem := replaceIf e existing p new q fun new old => new.slt old

def dtAggregateMax : Mem := replaceIf e existing p new q fun new old => old.slt new

/-- `dt_aggregate_lquantize`. The number of levels is taken from what is there. -/
def dtAggregateLquantize : Mem :=
  existing.addWords e (p + 8) new (q + 8) (lquantizeLevels (existing.word e p) + 2)

def Aggregate.run (f : Aggregate) (size : ℕ) : Mem :=
  match f with
  | .count => dtAggregateCount e existing p new q size
  | .min => dtAggregateMin e existing p new q
  | .max => dtAggregateMax e existing p new q
  | .lquantize => dtAggregateLquantize e existing p new q

end Functions

/-- The switch over the action of the last record. Any other action is an error. -/
def Action.aggregate : Action → Option Aggregate
  | .min => some .min
  | .max => some .max
  | .lquantize => some .lquantize
  | .count | .sum | .avg | .quantize => some .count
  | _ => none

/-! ### The hash table -/

structure HashEnt where
  hashval : Word64
  size : ℕ
  desc : AggDesc
  data : Mem
  percpu : Option (List Mem)
  aggregate : Aggregate

/-- `dt_ahash_t`. The entries stand in the order in which they were made, and a pointer to one
is its position there. -/
structure AHash where
  allocated : Bool
  ents : List HashEnt
  chains : ℕ → List ℕ
  all : List ℕ

def ahashSize : ℕ := 32779

def AHash.empty : AHash := ⟨false, [], fun _ => [], []⟩

def HashEnt.matchesKey (h : HashEnt) (agg : AggDesc) (addr : Mem) (hashval : Word64) : Bool :=
  h.hashval = hashval && h.size = agg.size &&
    agg.keys.all fun rec => addr.read rec.offset rec.size == h.data.read rec.offset rec.size

def AHash.find (hash : AHash) (agg : AggDesc) (addr : Mem) (hashval : Word64)
    (chain : List ℕ) : Option ℕ :=
  chain.find? fun i => (hash.ents[i]?).any fun h => h.matchesKey agg addr hashval

section Record

variable (hdl : Handle) (cpu : ℕ) (agg : AggDesc) (addr : Mem)

def HashEnt.merge (h : HashEnt) : HashEnt :=
  { h with
    data := h.aggregate.run hdl.endian h.data agg.value.offset addr agg.value.offset agg.value.size
    percpu := h.percpu.map fun percpu => percpu.modify cpu fun data =>
      h.aggregate.run hdl.endian data 0 addr agg.value.offset agg.value.size }

def newEnt (hashval : Word64) (f : Aggregate) : HashEnt where
  hashval := hashval
  size := agg.size
  desc := agg
  data := .ofList (addr.read 0 agg.size)
  percpu :=
    if hdl.percpu then
      some ((List.range hdl.maxCpus).map fun j =>
        if j = cpu then .ofList (addr.read agg.value.offset agg.value.size) else .zero)
    else none
  aggregate := f

def AHash.insert (hash : AHash) (h : HashEnt) (ndx : ℕ) : AHash :=
  { hash with
    ents := hash.ents ++ [h]
    chains := Function.update hash.chains ndx (hash.ents.length :: hash.chains ndx)
    all := hash.ents.length :: hash.all }

inductive Errno
  | nomem
  | badAgg
  | lookup
  deriving DecidableEq

def hashRecord (turn : Turn) (hash : AHash) : Option Errno × AHash :=
  let (addr, hashval) := hashKey hdl turn agg.keys addr 0
  let ndx := hashval.toNat % ahashSize
  match hash.find agg addr hashval (hash.chains ndx) with
  | some i => (none, { hash with ents := hash.ents.modify i (HashEnt.merge hdl cpu agg addr) })
  | none =>
    if ¬turn.alloc then (some .nomem, hash)
    else
      match agg.value.action.aggregate with
      | none => (some .badAgg, hash)
      | some f => (none, hash.insert (newEnt hdl cpu agg addr hashval f) ndx)

end Record

/-! ### The function -/

structure Call where
  cpu : ℕ
  size : ℕ
  data : Mem
  /-- The memory for the table can be had. -/
  table : Bool
  /-- The turn of the record at an offset. -/
  turn : ℕ → Turn

structure Return where
  rval : Option Errno
  offs : ℕ
  hash : AHash

def hashCpuFrom (hdl : Handle) (call : Call) : ℕ → ℕ → AHash → Option Return
  | 0, offs, hash => if offs < call.size then none else some ⟨none, offs, hash⟩
  | turns + 1, offs, hash =>
    if offs < call.size then
      let id := hdl.endian.val (call.data.read offs 4)
      -- `DTRACE_AGGIDNONE` is filler.
      if id = 0 then hashCpuFrom hdl call turns (offs + 4) hash
      else
        match hdl.aggs id with
        | none => some ⟨some .lookup, offs, hash⟩
        | some agg =>
          let addr := Mem.ofList (call.data.read offs agg.size)
          match hashRecord hdl call.cpu agg addr (call.turn offs) hash with
          | (some err, hash) => some ⟨some err, offs, hash⟩
          | (none, hash) => hashCpuFrom hdl call turns (offs + agg.size) hash
    else some ⟨none, offs, hash⟩

def dtAggregateHashCpu (hdl : Handle) (call : Call) (hash : AHash) : Option Return :=
  if ¬hash.allocated ∧ ¬call.table then some ⟨some .nomem, 0, hash⟩
  else hashCpuFrom hdl call call.size 0 { hash with allocated := true }

end Hexley.Dtrace
