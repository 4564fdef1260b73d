import Hexley.DnsInfo.Create
import Hexley.Lib.Footprint

/-!
Expanding a DNS configuration (configd, `dnsinfo_copy.c`).

The client gets the buffer of the configuration, with as many zero bytes
behind it as the configuration says, and makes the structures it has asked
for in place. Numbers are put into the order of the host. Arrays of
pointers are taken one after the other from the bytes at the end, and the
pointers lead to the data of the attributes.

Addresses have 64 bits. The buffer is a region of the memory, and a load or
store outside of it is a fault. A returned `NULL` is the outcome `failed`.
The two loops go on as long as there are bytes for a header. They get the
number of turns that they may take.
-/

namespace Hexley.DnsInfo

open Lib Endian Shape

def signed (v : ℕ) : ℤ := if v < 2 ^ 31 then v else v - 2 ^ 32

def move (p : ℕ) (d : ℤ) : ℕ := ((p + d) % 2 ^ 64).toNat

structure Expansion where
  mem : Mem
  padding : ℕ
  nPadding : ℕ

section

variable (host : Endian) (g : Region)

variable (buf : ℕ) (fuel : ℕ) (m : Mem) (x : Expansion)

/-- A number of `n` bytes is put from network order into the order of the
host. -/
def ntoh (p n : ℕ) : Outcome (ℕ × Mem) := do
  let bs ← g.load m p n
  let m ← g.store m p (host.bytes n (big.val bs))
  return (big.val bs, m)

/-- `add_list`. The address of the list is stored at `list`. -/
def addList (count size list : ℕ) : Outcome Expansion := do
  let need := count * size % 2 ^ 32
  Outcome.require (need ≤ x.nPadding)
  let mem ← g.store x.mem list (host.bytes 8 (if need = 0 then 0 else x.padding))
  return { mem, padding := move x.padding (signed need), nPadding := x.nPadding - need }

/-- A count at `count` is put into the order of the host, and the list for it
is added, with its address at `list`. -/
def expandList (count list : ℕ) : Outcome (ℕ × Expansion) := do
  let (n, mem) ← ntoh host g x.mem count 4
  let x ← addList host g { x with mem } n 8 list
  return (n, x)

structure Counts where
  nNameserver : ℕ
  nSearch : ℕ
  nSortaddr : ℕ
  deriving DecidableEq

def expandFields (buf : ℕ) : Outcome (Counts × Expansion) := do
  let mem ← g.store x.mem buf (host.bytes 8 0)
  let (nNameserver, x) ← expandList host g { x with mem } (buf + 8) (buf + 12)
  let (_, mem) ← ntoh host g x.mem (buf + 20) 2
  let (nSearch, x) ← expandList host g { x with mem } (buf + 24) (buf + 28)
  let (nSortaddr, x) ← expandList host g x (buf + 36) (buf + 40)
  let mem ← g.store x.mem (buf + 48) (host.bytes 8 0)
  let (_, mem) ← ntoh host g mem (buf + 56) 4
  let (_, mem) ← ntoh host g mem (buf + 60) 4
  return (⟨nNameserver, nSearch, nSortaddr⟩, { x with mem })

def setEntry (list n q : ℕ) : Outcome Mem := do
  let bs ← g.load m list 8
  g.store m (move (host.val bs) (8 * signed n)) (host.bytes 8 q)

def expandAttribute (n : Counts) (a : ℕ) : Outcome (Mem × Counts) := do
  let bs ← g.load m a 4
  let attributeType := big.val bs
  if attributeType = attributeDomain then
    let m ← g.store m buf (host.bytes 8 (a + 8))
    return (m, n)
  else if attributeType = attributeAddress then
    let m ← setEntry host g m (buf + 12) n.nNameserver (a + 8)
    return (m, { n with nNameserver := (n.nNameserver + 1) % 2 ^ 32 })
  else if attributeType = attributeSearch then
    let m ← setEntry host g m (buf + 28) n.nSearch (a + 8)
    return (m, { n with nSearch := (n.nSearch + 1) % 2 ^ 32 })
  else if attributeType = attributeSortaddr then
    let m ← setEntry host g m (buf + 40) n.nSortaddr (a + 8)
    return (m, { n with nSortaddr := (n.nSortaddr + 1) % 2 ^ 32 })
  else if attributeType = attributeOptions then
    let m ← g.store m (buf + 48) (host.bytes 8 (a + 8))
    return (m, n)
  else return (m, n)

def resolverLoop (buf : ℕ) : ℕ → Mem → Counts → ℕ → ℕ → Outcome (Mem × Counts)
  | 0, _, _, _, _ => .exhausted
  | fuel + 1, m, n, a, nAttribute =>
    if 8 ≤ nAttribute then do
      let bs ← g.load m (a + 4) 4
      let attributeLength := big.val bs
      let (m, n) ← expandAttribute host g buf m n a
      resolverLoop buf fuel m n (move a (signed attributeLength))
        ((nAttribute + 2 ^ 32 - attributeLength) % 2 ^ 32)
    else .ok (m, n)

/-- `expand_resolver`. The resolver is where its buffer is. -/
def expandResolver (buf nBuf : ℕ) : Outcome Expansion := do
  Outcome.require (100 ≤ nBuf)
  let (counts, x) ← expandFields host g x buf
  let bs ← g.load x.mem (buf + 96) 4
  Outcome.require (nBuf - 100 = big.val bs)
  let (mem, n) ← resolverLoop host g buf fuel x.mem ⟨0, 0, 0⟩ (buf + 100) (nBuf - 100)
  Outcome.require (n = counts)
  return { x with mem }

def configLoop (buf : ℕ) : ℕ → Expansion → ℕ → ℕ → ℕ → Outcome (Expansion × ℕ)
  | 0, _, _, _, _ => .exhausted
  | fuel + 1, x, nResolver, a, nAttribute =>
    if 8 ≤ nAttribute then do
      let length ← g.load x.mem (a + 4) 4
      let attributeLength := big.val length
      let bs ← g.load x.mem a 4
      let (x, nResolver) ←
        if big.val bs = attributeResolver then do
          let x ← expandResolver host g fuel x (a + 8) ((attributeLength + 2 ^ 32 - 8) % 2 ^ 32)
          let mem ← setEntry host g x.mem (buf + 4) nResolver (a + 8)
          pure ({ x with mem }, (nResolver + 1) % 2 ^ 32)
        else pure (x, nResolver)
      configLoop buf fuel x nResolver (move a (signed attributeLength))
        ((nAttribute + 2 ^ 32 - attributeLength) % 2 ^ 32)
    else .ok (x, nResolver)

/-- `expand_config`, for the buffer at the start of the region. -/
def expandConfig : Outcome Expansion := do
  let buf := g.base
  let attributes ← g.load m (buf + 44) 4
  let padding ← g.load m (buf + 48) 4
  let nAttribute := big.val attributes
  let (count, x) ← expandList host g
    { mem := m, padding := buf + 52 + nAttribute, nPadding := big.val padding } buf (buf + 4)
  let (x, nResolver) ← configLoop host g buf fuel x 0 (buf + 52) nAttribute
  Outcome.require (nResolver = count)
  return x

end

/-! ### The expanded configuration -/

def ListAt {α : Type} (host : Endian) (At : Shape α) (m : Mem) (s : Set ℕ) (count list : ℕ)
    (xs : List α) : Prop :=
  m.HoldsIn s count (host.bytes 4 xs.length) ∧
    ∃ l < 2 ^ 64, m.HoldsIn s list (host.bytes 8 l) ∧ pointers host At m s l xs

structure ResolverAt (host : Endian) (m : Mem) (s : Set ℕ) (p : ℕ) (r : Resolver) : Prop where
  domain : option host (bytes CString.stored) m s p r.domain
  nameserver : ListAt host (bytes Sockaddr.bytes) m s (p + 8) (p + 12) r.nameservers
  port : m.HoldsIn s (p + 20) (host.bytes 2 r.port.toNat)
  search : ListAt host (bytes CString.stored) m s (p + 24) (p + 28) r.search
  sortaddr : ListAt host (bytes Sortaddr.bytes) m s (p + 36) (p + 40) r.sortaddrs
  options : option host (bytes CString.stored) m s (p + 48) r.options
  timeout : m.HoldsIn s (p + 56) (host.bytes 4 r.timeout.toNat)
  searchOrder : m.HoldsIn s (p + 60) (host.bytes 4 r.searchOrder.toNat)

def ConfigAt (host : Endian) (m : Mem) (s : Set ℕ) (p : ℕ) (rs : List Resolver) : Prop :=
  ListAt host (ResolverAt host) m s p (p + 4) rs

/-- The region in which a configuration is expanded: the buffer at `base` and
the padding that it records. -/
def regionOf (base : ℕ) (config : Buf ConfigFields) : Region :=
  ⟨base, (configBytes config).length + config.fields.nPadding⟩

/-- The configuration is built and expanded, wherever its buffer is, into the
resolvers that the calls describe, and all of the recorded padding and
nothing else is used for that. -/
def RoundTrips (resolvers : List (List Call)) : Prop :=
  ∃ config, build resolvers = .ok config ∧ ∀ (host : Endian) (base : ℕ) (m : Mem), 0 < base →
      base + (regionOf base config).size < 2 ^ 64 →
      m.Holds base (configBytes config ++ List.replicate config.fields.nPadding 0) →
      ∃ fuel x, expandConfig host (regionOf base config) fuel m = .ok x ∧
        ConfigAt host x.mem (Set.Ico base (base + (regionOf base config).size)) base
          (resolvers.map resolverOf) ∧
        x.nPadding = 0 ∧ x.padding = base + (regionOf base config).size

end Hexley.DnsInfo
