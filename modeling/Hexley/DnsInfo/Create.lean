import Hexley.Lib.Bytes
import Hexley.Lib.Outcome
import Mathlib.Tactic.IntervalCases

/-!
Building a DNS configuration (configd, `dnsinfo_create.c`).

A resolver is built in a buffer of its own, a structure of fixed size with
attributes behind it. The finished buffer is one attribute of the
configuration, which is again a structure with attributes behind it. All
numbers are stored in network order. A header in front of each attribute
has its type and its length, header included, and the data is padded with
zeros to a multiple of four.

The configuration also counts the bytes that will be needed to expand it,
for the arrays of pointers that the client is given.

The model keeps a buffer as its fields, the number of bytes that are
allocated, and the bytes of the attributes. Lengths are computed with 32
bits, and a copy beyond what is allocated is a fault.
-/

namespace Hexley.DnsInfo

open Lib List Endian

/-! ### What is configured -/

@[ext]
structure CString where
  bytes : List UInt8
  zero_notMem : 0 ∉ bytes

instance : DecidableEq CString := fun s t =>
  decidable_of_iff (s.bytes = t.bytes) CString.ext_iff.symm

def CString.stored (s : CString) : List UInt8 := s.bytes ++ [0]

/-- A `struct sockaddr`: its first byte is its length. -/
structure Sockaddr where
  bytes : List UInt8
  length_eq : bytes.head?.map UInt8.toNat = some bytes.length
  deriving DecidableEq

def Sockaddr.saLen (s : Sockaddr) : ℕ := (s.bytes.headD 0).toNat

/-- A `dns_sortaddr_t`, an address and a mask of four bytes each. -/
structure Sortaddr where
  bytes : List UInt8
  length_eq : bytes.length = 8
  deriving DecidableEq

structure Resolver where
  domain : Option CString
  nameservers : List Sockaddr
  port : UInt16
  search : List CString
  sortaddrs : List Sortaddr
  options : Option CString
  timeout : UInt32
  searchOrder : UInt32
  deriving DecidableEq

def Resolver.empty : Resolver := ⟨none, [], 0, [], [], none, 0, 0⟩

/-! ### Buffers -/

structure Buf (σ : Type) where
  fields : σ
  nAttribute : ℕ
  allocated : ℕ
  attributes : List UInt8
  deriving DecidableEq

/-- The fields of a `dns_resolver_t` that are set while it is built. -/
structure ResolverFields where
  nNameserver : ℕ
  port : ℕ
  nSearch : ℕ
  nSortaddr : ℕ
  timeout : ℕ
  searchOrder : ℕ
  deriving DecidableEq

/-- The fields of a `_dns_config_buf_t` that are set while it is built. -/
structure ConfigFields where
  nResolver : ℕ
  nPadding : ℕ
  deriving DecidableEq

def roundup (a size : ℕ) : ℕ :=
  if a &&& (size - 1) ≠ 0 then 1 + (a ||| (size - 1)) else a

/-- `config_add_attribute` and `_dns_resolver_add_attribute`, for a structure
of `structSize` bytes in a buffer of `initialSize` bytes at first. -/
def addAttribute {σ : Type} (structSize initialSize : ℕ) (buf : Buf σ)
    (attributeType attributeLength : ℕ) (data : List UInt8) : Outcome (Buf σ) :=
  let oldLen := buf.nAttribute
  let roundedLength := roundup attributeLength 4 % 2 ^ 32
  let newLen := (8 + roundedLength) % 2 ^ 32
  let newSize := (structSize + oldLen + newLen) % 2 ^ 32
  let allocated := if newSize > initialSize then newSize else buf.allocated
  -- the index of the loop that fills up with zeros is an `int`
  if structSize + oldLen + 8 + max attributeLength roundedLength ≤ allocated ∧
      (attributeLength < roundedLength → attributeLength < 2 ^ 31) then
    .ok
      { fields := buf.fields
        nAttribute := (oldLen + newLen) % 2 ^ 32
        allocated
        attributes := buf.attributes.take oldLen ++
          (big.bytes 4 attributeType ++ big.bytes 4 newLen ++
            data.take attributeLength ++
            replicate (roundedLength - attributeLength) 0) }
  else .fault

/-! ### Resolvers -/

def attributeDomain : ℕ := 10
def attributeAddress : ℕ := 11
def attributeSearch : ℕ := 12
def attributeSortaddr : ℕ := 13
def attributeOptions : ℕ := 14

/-- `_dns_resolver_create`. -/
def resolverCreate : Buf ResolverFields := ⟨⟨0, 0, 0, 0, 0, 0⟩, 0, 1024, []⟩

/-- `_dns_resolver_add_attribute`. -/
def resolverAddAttribute : Buf ResolverFields → ℕ → ℕ → List UInt8 →
    Outcome (Buf ResolverFields) :=
  addAttribute 100 1024

variable (resolver : Buf ResolverFields)

def setDomain (domain : CString) : Outcome (Buf ResolverFields) :=
  resolverAddAttribute resolver attributeDomain ((domain.bytes.length + 1) % 2 ^ 32) domain.stored

def addNameserver (nameserver : Sockaddr) :
    Outcome (Buf ResolverFields) :=
  let fields := { resolver.fields with
    nNameserver := (resolver.fields.nNameserver + 1) % 2 ^ 32 }
  resolverAddAttribute { resolver with fields } attributeAddress nameserver.saLen
    nameserver.bytes

def setPort (port : UInt16) : Outcome (Buf ResolverFields) :=
  .ok { resolver with fields := { resolver.fields with port := port.toNat } }

def addSearch (search : CString) : Outcome (Buf ResolverFields) :=
  let fields := { resolver.fields with nSearch := (resolver.fields.nSearch + 1) % 2 ^ 32 }
  resolverAddAttribute { resolver with fields } attributeSearch
    ((search.bytes.length + 1) % 2 ^ 32) search.stored

def addSortaddr (sortaddr : Sortaddr) :
    Outcome (Buf ResolverFields) :=
  let fields := { resolver.fields with nSortaddr := (resolver.fields.nSortaddr + 1) % 2 ^ 32 }
  resolverAddAttribute { resolver with fields } attributeSortaddr 8 sortaddr.bytes

def setOptions (options : CString) :
    Outcome (Buf ResolverFields) :=
  resolverAddAttribute resolver attributeOptions ((options.bytes.length + 1) % 2 ^ 32)
    options.stored

def setTimeout (timeout : UInt32) :
    Outcome (Buf ResolverFields) :=
  .ok { resolver with fields := { resolver.fields with timeout := timeout.toNat } }

def setOrder (order : UInt32) : Outcome (Buf ResolverFields) :=
  .ok { resolver with fields := { resolver.fields with searchOrder := order.toNat } }

/-- The bytes of a `_dns_resolver_buf_t`. Pointers, gaps and reserved fields
are zero. -/
def resolverBytes : List UInt8 :=
  replicate 8 0 ++
    (big.bytes 4 resolver.fields.nNameserver ++ (replicate 8 0 ++
    (big.bytes 2 resolver.fields.port ++ (replicate 2 0 ++
    (big.bytes 4 resolver.fields.nSearch ++ (replicate 8 0 ++
    (big.bytes 4 resolver.fields.nSortaddr ++ (replicate 16 0 ++
    (big.bytes 4 resolver.fields.timeout ++
    (big.bytes 4 resolver.fields.searchOrder ++ (replicate 32 0 ++
    (big.bytes 4 resolver.nAttribute ++ resolver.attributes))))))))))))

/-! ### Configurations -/

def attributeResolver : ℕ := 1

/-- `_dns_configuration_create`. -/
def configurationCreate : Buf ConfigFields := ⟨⟨0, 0⟩, 0, 8192, []⟩

/-- The space for the pointers to a resolver, to its name servers, to its
search domains and to its sort addresses. -/
def resolverPadding : ℕ :=
  (8 + resolver.fields.nNameserver * 8 + resolver.fields.nSearch * 8 +
    resolver.fields.nSortaddr * 8) % 2 ^ 32

/-- `_dns_configuration_add_resolver`. -/
def addResolver (config : Buf ConfigFields) (resolver : Buf ResolverFields) :
    Outcome (Buf ConfigFields) :=
  let fields : ConfigFields :=
    { nResolver := (config.fields.nResolver + 1) % 2 ^ 32
      nPadding := (config.fields.nPadding + resolverPadding resolver) % 2 ^ 32 }
  addAttribute 52 8192 { config with fields } attributeResolver
    ((100 + resolver.nAttribute) % 2 ^ 32) (resolverBytes resolver)

def configBytes (config : Buf ConfigFields) : List UInt8 :=
  big.bytes 4 config.fields.nResolver ++ (replicate 40 0 ++
    (big.bytes 4 config.nAttribute ++
    (big.bytes 4 config.fields.nPadding ++ config.attributes)))

/-! ### Programs that build -/

inductive Call
  | setDomain (domain : CString)
  | addNameserver (nameserver : Sockaddr)
  | setPort (port : UInt16)
  | addSearch (search : CString)
  | addSortaddr (sortaddr : Sortaddr)
  | setOptions (options : CString)
  | setTimeout (timeout : UInt32)
  | setOrder (order : UInt32)

def Call.run (resolver : Buf ResolverFields) : Call → Outcome (Buf ResolverFields)
  | .setDomain domain => DnsInfo.setDomain resolver domain
  | .addNameserver nameserver => DnsInfo.addNameserver resolver nameserver
  | .setPort port => DnsInfo.setPort resolver port
  | .addSearch search => DnsInfo.addSearch resolver search
  | .addSortaddr sortaddr => DnsInfo.addSortaddr resolver sortaddr
  | .setOptions options => DnsInfo.setOptions resolver options
  | .setTimeout timeout => DnsInfo.setTimeout resolver timeout
  | .setOrder order => DnsInfo.setOrder resolver order

def Call.apply (r : Resolver) : Call → Resolver
  | .setDomain domain => { r with domain := some domain }
  | .addNameserver nameserver => { r with nameservers := r.nameservers ++ [nameserver] }
  | .setPort port => { r with port }
  | .addSearch search => { r with search := r.search ++ [search] }
  | .addSortaddr sortaddr => { r with sortaddrs := r.sortaddrs ++ [sortaddr] }
  | .setOptions options => { r with options := some options }
  | .setTimeout timeout => { r with timeout }
  | .setOrder order => { r with searchOrder := order }

def resolverOf (calls : List Call) : Resolver := calls.foldl Call.apply .empty

def runCalls : Buf ResolverFields → List Call → Outcome (Buf ResolverFields)
  | resolver, [] => .ok resolver
  | resolver, call :: calls => do
      let resolver ← call.run resolver
      runCalls resolver calls

def addResolvers : Buf ConfigFields → List (List Call) → Outcome (Buf ConfigFields)
  | config, [] => .ok config
  | config, calls :: resolvers => do
      let resolver ← runCalls resolverCreate calls
      let config ← addResolver config resolver
      addResolvers config resolvers

def build (resolvers : List (List Call)) : Outcome (Buf ConfigFields) :=
  addResolvers configurationCreate resolvers

/-! ### What is built -/

theorem roundup_four (a : ℕ) : roundup a 4 = (a + 3) / 4 * 4 := by
  have hmod : a &&& (4 - 1) = a % 4 := Nat.and_two_pow_sub_one_eq_mod a 2
  have hor : a ||| (4 - 1) = 4 * (a / 4) + 3 := by
    have hlow : a % 4 ||| 3 = 3 := by
      have hlt : a % 4 < 4 := Nat.mod_lt a (by decide)
      interval_cases a % 4 <;> rfl
    have hsplit : 2 ^ 2 * (a / 4) + a % 4 = 2 ^ 2 * (a / 4) ||| a % 4 :=
      Nat.two_pow_add_eq_or_of_lt (Nat.mod_lt a (by decide)) (a / 4)
    have hjoin : 2 ^ 2 * (a / 4) + 3 = 2 ^ 2 * (a / 4) ||| 3 :=
      Nat.two_pow_add_eq_or_of_lt (by decide) (a / 4)
    calc a ||| (4 - 1) = (2 ^ 2 * (a / 4) ||| a % 4) ||| 3 := by
          rw [← hsplit, show 2 ^ 2 * (a / 4) + a % 4 = a by omega]
      _ = 2 ^ 2 * (a / 4) + 3 := by rw [Nat.or_assoc, hlow, ← hjoin]
  unfold roundup
  split_ifs with h <;> omega

def attributeBytes (attributeType : ℕ) (data : List UInt8) : List UInt8 :=
  big.bytes 4 attributeType ++ (big.bytes 4 (8 + roundup data.length 4) ++
    (data ++ replicate (roundup data.length 4 - data.length) 0))

theorem length_attribute (attributeType : ℕ) (data : List UInt8) :
    (attributeBytes attributeType data).length = 8 + roundup data.length 4 := by
  have h := roundup_four data.length
  simp only [attributeBytes, length_append, length_bytes, length_replicate]
  omega

section

variable {σ : Type} {structSize initialSize : ℕ} {buf : Buf σ} {data : List UInt8}

theorem addAttribute_eq (attributeType : ℕ) (hlen : buf.nAttribute = buf.attributes.length)
    (halloc : initialSize ≤ buf.allocated) (hdata : data.length < 2 ^ 31)
    (hsize : structSize + buf.attributes.length + (8 + roundup data.length 4) < 2 ^ 32) :
    ∃ allocated, initialSize ≤ allocated ∧
      addAttribute structSize initialSize buf attributeType data.length data = .ok
          { fields := buf.fields
            nAttribute := buf.attributes.length + (8 + roundup data.length 4)
            allocated
            attributes := buf.attributes ++ attributeBytes attributeType data } := by
  have hround := roundup_four data.length
  unfold addAttribute
  simp (disch := omega) only [hlen, Nat.mod_eq_of_lt, take_length]
  generalize hnewAlloc :
    (if structSize + buf.attributes.length + (8 + roundup data.length 4) > initialSize then
      structSize + buf.attributes.length + (8 + roundup data.length 4) else buf.allocated) =
    allocated
  have hallocated : initialSize ≤ allocated ∧
      structSize + buf.attributes.length + (8 + roundup data.length 4) ≤ allocated := by
    split_ifs at hnewAlloc <;> omega
  refine ⟨allocated, hallocated.1, ?_⟩
  rw [if_pos ⟨by omega, fun _ => hdata⟩]
  simp only [attributeBytes, append_assoc]

end

def Call.bytes : Call → List UInt8
  | .setDomain domain => attributeBytes attributeDomain domain.stored
  | .addNameserver nameserver => attributeBytes attributeAddress nameserver.bytes
  | .setPort _ => []
  | .addSearch search => attributeBytes attributeSearch search.stored
  | .addSortaddr sortaddr => attributeBytes attributeSortaddr sortaddr.bytes
  | .setOptions options => attributeBytes attributeOptions options.stored
  | .setTimeout _ => []
  | .setOrder _ => []

def callsBytes (calls : List Call) : List UInt8 := calls.flatMap Call.bytes

@[simp] theorem callsBytes_nil : callsBytes [] = [] := rfl

@[simp] theorem callsBytes_cons (call : Call) (calls : List Call) :
    callsBytes (call :: calls) = call.bytes ++ callsBytes calls :=
  flatMap_cons

def Resolver.entries (r : Resolver) : ℕ :=
  r.nameservers.length + r.search.length + r.sortaddrs.length

structure FieldsOf (fields : ResolverFields) (r : Resolver) : Prop where
  nNameserver : fields.nNameserver = r.nameservers.length
  port : fields.port = r.port.toNat
  nSearch : fields.nSearch = r.search.length
  nSortaddr : fields.nSortaddr = r.sortaddrs.length
  timeout : fields.timeout = r.timeout.toNat
  searchOrder : fields.searchOrder = r.searchOrder.toNat

structure Built (buf : Buf ResolverFields) (r : Resolver) (bytes : List UInt8) : Prop where
  fields : FieldsOf buf.fields r
  nAttribute : buf.nAttribute = bytes.length
  allocated : 1024 ≤ buf.allocated
  attributes : buf.attributes = bytes
  entries : 12 * r.entries ≤ bytes.length

theorem built_create : Built resolverCreate .empty [] :=
  ⟨⟨rfl, rfl, rfl, rfl, rfl, rfl⟩, rfl, le_refl _, rfl, le_refl _⟩

theorem CString.length_stored (s : CString) : s.stored.length = s.bytes.length + 1 := by
  simp [CString.stored]

theorem Sockaddr.saLen_eq (s : Sockaddr) : s.saLen = s.bytes.length := by
  obtain ⟨bytes, h⟩ := s
  cases bytes with
  | nil => simp at h
  | cons b bs => simpa [Sockaddr.saLen] using h

theorem Sockaddr.length_pos (s : Sockaddr) : 0 < s.bytes.length := by
  obtain ⟨bytes, h⟩ := s
  cases bytes with
  | nil => simp at h
  | cons b bs => simp

section

variable {buf : Buf ResolverFields} {r : Resolver} {bytes : List UInt8} {fields : ResolverFields}
  {r' : Resolver}

theorem Built.addAttribute (h : Built buf r bytes) (hfields : FieldsOf fields r')
    (hentries : r'.entries ≤ r.entries + 1) (attributeType : ℕ) {data : List UInt8}
    {attributeLength : ℕ} (hlength : attributeLength = data.length) (hpos : 0 < data.length)
    (hsize : 100 + (bytes ++ attributeBytes attributeType data).length < 2 ^ 31) :
    ∃ buf', resolverAddAttribute { buf with fields } attributeType attributeLength data =
        .ok buf' ∧ Built buf' r' (bytes ++ attributeBytes attributeType data) := by
  have hround := roundup_four data.length
  have hold := h.entries
  have hnew : (bytes ++ attributeBytes attributeType data).length =
      bytes.length + (8 + roundup data.length 4) := by
    rw [length_append, length_attribute]
  have hlen : buf.nAttribute = buf.attributes.length := by rw [h.nAttribute, h.attributes]
  obtain ⟨allocated, halloc, heq⟩ := @addAttribute_eq _ 100 1024 { buf with fields } data
    attributeType hlen h.allocated (by omega) (by rw [h.attributes]; omega)
  refine ⟨_, by rw [hlength]; exact heq, hfields, ?_, halloc, ?_, by omega⟩
  · rw [hnew, h.attributes]
  · rw [h.attributes]

theorem Built.setFields (h : Built buf r bytes) (hfields : FieldsOf fields r')
    (hentries : r'.entries = r.entries) : Built { buf with fields } r' (bytes ++ []) := by
  rw [append_nil]
  exact ⟨hfields, h.nAttribute, h.allocated, h.attributes, by rw [hentries]; exact h.entries⟩

theorem CString.length_mod {s : CString} (h : s.stored.length < 2 ^ 32) :
    (s.bytes.length + 1) % 2 ^ 32 = s.stored.length := by
  rw [s.length_stored] at h ⊢
  exact Nat.mod_eq_of_lt h

theorem length_le_attribute (attributeType : ℕ) (data : List UInt8) :
    data.length ≤ (attributeBytes attributeType data).length := by
  have hround := roundup_four data.length
  rw [length_attribute]
  omega

theorem Call.run_built (h : Built buf r bytes) (call : Call)
    (hsize : 100 + (bytes ++ call.bytes).length < 2 ^ 31) :
    ∃ buf', call.run buf = .ok buf' ∧ Built buf' (call.apply r) (bytes ++ call.bytes) := by
  have hf := h.fields
  have hentries := h.entries
  have hbytes : bytes.length + call.bytes.length < 2 ^ 31 := by
    rw [length_append] at hsize
    omega
  have hstring : ∀ (s : CString) (attributeType : ℕ),
      call.bytes = attributeBytes attributeType s.stored →
      (s.bytes.length + 1) % 2 ^ 32 = s.stored.length ∧ 0 < s.stored.length := by
    intro s attributeType hs
    have hle := length_le_attribute attributeType s.stored
    have hpos := s.length_stored
    rw [hs] at hbytes
    exact ⟨CString.length_mod (by omega), by omega⟩
  unfold Resolver.entries at hentries
  cases call with
  | setDomain domain =>
    obtain ⟨hlen, hpos⟩ := hstring domain _ rfl
    refine h.addAttribute ?_ ?_ _ hlen hpos hsize
    · exact ⟨hf.1, hf.2, hf.3, hf.4, hf.5, hf.6⟩
    · exact Nat.le_succ _
  | addNameserver nameserver =>
    refine h.addAttribute ?_ ?_ _ nameserver.saLen_eq nameserver.length_pos hsize
    · exact ⟨by simp [apply, hf.1]; omega, hf.2, hf.3, hf.4, hf.5, hf.6⟩
    · simp [apply, Resolver.entries]
      omega
  | setPort port => exact ⟨_, rfl, h.setFields ⟨hf.1, rfl, hf.3, hf.4, hf.5, hf.6⟩ rfl⟩
  | addSearch search =>
    obtain ⟨hlen, hpos⟩ := hstring search _ rfl
    refine h.addAttribute ?_ ?_ _ hlen hpos hsize
    · exact ⟨hf.1, hf.2, by simp [apply, hf.3]; omega, hf.4, hf.5, hf.6⟩
    · simp [apply, Resolver.entries]
      omega
  | addSortaddr sortaddr =>
    have hlen := sortaddr.length_eq
    refine h.addAttribute ?_ ?_ _ hlen.symm (by omega) hsize
    · exact ⟨hf.1, hf.2, hf.3, by simp [apply, hf.4]; omega, hf.5, hf.6⟩
    · simp [apply, Resolver.entries]
      omega
  | setOptions options =>
    obtain ⟨hlen, hpos⟩ := hstring options _ rfl
    refine h.addAttribute ?_ ?_ _ hlen hpos hsize
    · exact ⟨hf.1, hf.2, hf.3, hf.4, hf.5, hf.6⟩
    · exact Nat.le_succ _
  | setTimeout timeout => exact ⟨_, rfl, h.setFields ⟨hf.1, hf.2, hf.3, hf.4, rfl, hf.6⟩ rfl⟩
  | setOrder order => exact ⟨_, rfl, h.setFields ⟨hf.1, hf.2, hf.3, hf.4, hf.5, rfl⟩ rfl⟩

theorem runCalls_built (h : Built buf r bytes) (calls : List Call)
    (hsize : 100 + (bytes ++ callsBytes calls).length < 2 ^ 31) :
    ∃ buf', runCalls buf calls = .ok buf' ∧
      Built buf' (calls.foldl Call.apply r) (bytes ++ callsBytes calls) := by
  induction calls generalizing buf r bytes with
  | nil => exact ⟨buf, rfl, by simpa using h⟩
  | cons call calls ih =>
    rw [callsBytes_cons, ← append_assoc] at hsize ⊢
    obtain ⟨buf₁, hrun, hbuilt⟩ := call.run_built h (by
      rw [length_append] at hsize
      omega)
    obtain ⟨buf', hcalls, hbuilt'⟩ := ih hbuilt hsize
    exact ⟨buf', by rw [runCalls, hrun]; exact hcalls, hbuilt'⟩

end

/-! ### The image of a configuration -/

def resolverImage (r : Resolver) (bytes : List UInt8) : List UInt8 :=
  resolverBytes
    { fields :=
        { nNameserver := r.nameservers.length
          port := r.port.toNat
          nSearch := r.search.length
          nSortaddr := r.sortaddrs.length
          timeout := r.timeout.toNat
          searchOrder := r.searchOrder.toNat }
      nAttribute := bytes.length
      allocated := 0
      attributes := bytes }

theorem Built.resolverBytes_eq {buf : Buf ResolverFields} {r : Resolver} {bytes : List UInt8}
    (h : Built buf r bytes) : resolverBytes buf = resolverImage r bytes := by
  have hf := h.fields
  simp only [resolverImage, resolverBytes, hf.1, hf.2, hf.3, hf.4, hf.5, hf.6, h.nAttribute,
    h.attributes]

theorem length_resolver (r : Resolver) (bytes : List UInt8) :
    (resolverImage r bytes).length = 100 + bytes.length := by
  simp only [resolverImage, resolverBytes, length_append, length_bytes, length_replicate]
  omega

variable (calls : List Call)

def resolverAttribute : List UInt8 :=
  attributeBytes attributeResolver (resolverImage (resolverOf calls) (callsBytes calls))

variable (resolvers : List (List Call))

def configAttributes : List UInt8 :=
  resolvers.flatMap resolverAttribute

@[simp] theorem attributes_nil : configAttributes [] = [] := rfl

@[simp] theorem attributes_cons (resolvers : List (List Call)) :
    configAttributes (calls :: resolvers) = resolverAttribute calls ++ configAttributes resolvers :=
  flatMap_cons

def paddingOf : ℕ :=
  (resolvers.map fun calls => 8 + 8 * (resolverOf calls).entries).sum

@[simp] theorem paddingOf_nil : paddingOf [] = 0 := rfl

@[simp] theorem paddingOf_cons (resolvers : List (List Call)) :
    paddingOf (calls :: resolvers) = 8 + 8 * (resolverOf calls).entries + paddingOf resolvers :=
  rfl

/-- The lengths of all attributes can be stored: an attribute is shorter than
`2 ^ 31` bytes, and the configuration is shorter than `2 ^ 32`. -/
def Fits : Prop :=
  (∀ calls ∈ resolvers, (resolverAttribute calls).length < 2 ^ 31) ∧
    52 + (configAttributes resolvers).length < 2 ^ 32

instance (resolvers : List (List Call)) : Decidable (Fits resolvers) :=
  inferInstanceAs (Decidable (_ ∧ _))

structure ConfigBuilt (config : Buf ConfigFields) (done : List (List Call)) : Prop where
  nResolver : config.fields.nResolver = done.length
  nPadding : config.fields.nPadding = paddingOf done
  nAttribute : config.nAttribute = (configAttributes done).length
  allocated : 8192 ≤ config.allocated
  attributes : config.attributes = configAttributes done

section

variable {calls : List Call} (hsize : (resolverAttribute calls).length < 2 ^ 31)
include hsize

theorem runCalls_create : ∃ buf, runCalls resolverCreate calls = .ok buf ∧
      Built buf (resolverOf calls) (callsBytes calls) := by
  have hround := roundup_four (100 + (callsBytes calls).length)
  rw [resolverAttribute, length_attribute, length_resolver] at hsize
  exact runCalls_built built_create calls (by rw [nil_append]; omega)

/-- Pointers take less than the attributes they lead to. -/
theorem padding_lt :
    8 + 8 * (resolverOf calls).entries + 100 ≤ (resolverAttribute calls).length := by
  obtain ⟨buf, -, hbuilt⟩ := runCalls_create hsize
  have hround := roundup_four (100 + (callsBytes calls).length)
  have hentries := hbuilt.entries
  rw [resolverAttribute, length_attribute, length_resolver]
  omega

end

theorem paddingOf_le {resolvers : List (List Call)}
    (hsize : ∀ calls ∈ resolvers, (resolverAttribute calls).length < 2 ^ 31) :
    paddingOf resolvers + 100 * resolvers.length ≤ (configAttributes resolvers).length := by
  induction resolvers with
  | nil => simp
  | cons calls resolvers ih =>
    have hfirst := padding_lt (hsize calls mem_cons_self)
    have hrest := ih (forall_mem_cons.mp hsize).2
    rw [paddingOf_cons, attributes_cons, length_append, length_cons]
    omega

theorem attributes_append (xs ys : List (List Call)) :
    configAttributes (xs ++ ys) = configAttributes xs ++ configAttributes ys :=
  flatMap_append

theorem paddingOf_append (xs ys : List (List Call)) :
    paddingOf (xs ++ ys) = paddingOf xs + paddingOf ys := by
  simp only [paddingOf, map_append, sum_append]

theorem ConfigBuilt.addResolver {config : Buf ConfigFields} {done : List (List Call)}
    (h : ConfigBuilt config done) {calls : List Call} (hfits : Fits (done ++ [calls]))
    {resolver : Buf ResolverFields}
    (hbuilt : Built resolver (resolverOf calls) (callsBytes calls)) :
    ∃ config', DnsInfo.addResolver config resolver = .ok config' ∧
      ConfigBuilt config' (done ++ [calls]) := by
  have hcalls : (resolverAttribute calls).length < 2 ^ 31 := hfits.1 calls (by simp)
  have htotal := hfits.2
  have hpads := paddingOf_le hfits.1
  have hround := roundup_four (100 + (callsBytes calls).length)
  have hsize : (resolverAttribute calls).length =
      8 + roundup (100 + (callsBytes calls).length) 4 := by
    rw [resolverAttribute, length_attribute, length_resolver]
  have hnew : configAttributes (done ++ [calls]) =
      configAttributes done ++ resolverAttribute calls := by simp [attributes_append]
  have hnew' : paddingOf (done ++ [calls]) =
      paddingOf done + (8 + 8 * (resolverOf calls).entries) := by simp [paddingOf_append]
  rw [hnew, length_append] at htotal hpads
  rw [hnew', length_append, length_singleton] at hpads
  have hf := hbuilt.fields
  have hpadding : resolverPadding resolver = 8 + 8 * (resolverOf calls).entries := by
    unfold resolverPadding Resolver.entries
    rw [hf.nNameserver, hf.nSearch, hf.nSortaddr]
    unfold Resolver.entries at hpads
    omega
  have hlen : config.nAttribute = config.attributes.length := by
    rw [h.nAttribute, h.attributes]
  have hlength : (100 + resolver.nAttribute) % 2 ^ 32 =
      (resolverImage (resolverOf calls) (callsBytes calls)).length := by
    rw [hbuilt.nAttribute, length_resolver]
    omega
  let fields : ConfigFields :=
    { nResolver := (config.fields.nResolver + 1) % 2 ^ 32
      nPadding := (config.fields.nPadding + resolverPadding resolver) % 2 ^ 32 }
  have hadd : DnsInfo.addResolver config resolver =
      addAttribute 52 8192 { config with fields } attributeResolver
        (resolverImage (resolverOf calls) (callsBytes calls)).length
        (resolverImage (resolverOf calls) (callsBytes calls)) := by
    rw [← hlength, ← hbuilt.resolverBytes_eq]
    rfl
  obtain ⟨allocated, halloc, heq⟩ := @addAttribute_eq ConfigFields 52 8192
    { config with fields } (resolverImage (resolverOf calls) (callsBytes calls))
    attributeResolver hlen h.allocated (by rw [length_resolver]; omega)
    (by rw [h.attributes, length_resolver]; omega)
  refine ⟨_, hadd.trans heq, ?_, ?_, ?_, halloc, ?_⟩
  · change (config.fields.nResolver + 1) % 2 ^ 32 = _
    rw [h.nResolver, length_append, length_singleton]
    omega
  · change (config.fields.nPadding + resolverPadding resolver) % 2 ^ 32 = _
    rw [h.nPadding, hpadding, hnew']
    omega
  · rw [h.attributes, hnew, length_append, hsize, length_resolver]
  · rw [h.attributes, hnew]
    rfl

theorem Fits.of_append {xs ys : List (List Call)} (h : Fits (xs ++ ys)) : Fits xs := by
  refine ⟨fun calls hcalls => h.1 calls (mem_append_left _ hcalls), ?_⟩
  have htotal := h.2
  rw [attributes_append, length_append] at htotal
  omega

theorem addResolvers_built {config : Buf ConfigFields} {done : List (List Call)}
    (h : ConfigBuilt config done) {resolvers : List (List Call)}
    (hfits : Fits (done ++ resolvers)) : ∃ config', addResolvers config resolvers = .ok config' ∧
      ConfigBuilt config' (done ++ resolvers) := by
  induction resolvers generalizing config done with
  | nil => exact ⟨config, rfl, by simpa using h⟩
  | cons calls resolvers ih =>
    have hfits' : Fits ((done ++ [calls]) ++ resolvers) := by simpa using hfits
    obtain ⟨resolver, hrun, hbuilt⟩ := runCalls_create (hfits.1 calls (by simp))
    obtain ⟨config₁, hadd, hconfig₁⟩ := h.addResolver hfits'.of_append hbuilt
    obtain ⟨config', hrest, hconfig'⟩ := ih hconfig₁ hfits'
    refine ⟨config', ?_, by simpa using hconfig'⟩
    rw [addResolvers, hrun, Outcome.ok_bind, hadd]
    exact hrest

def configImage : List UInt8 :=
  big.bytes 4 resolvers.length ++ (replicate 40 0 ++
    (big.bytes 4 (configAttributes resolvers).length ++
    (big.bytes 4 (paddingOf resolvers) ++ configAttributes resolvers)))

theorem build_eq {resolvers : List (List Call)} (hfits : Fits resolvers) :
    ∃ config, build resolvers = .ok config ∧ configBytes config = configImage resolvers ∧
      config.fields.nPadding = paddingOf resolvers := by
  have hcreate : ConfigBuilt configurationCreate [] := ⟨rfl, rfl, rfl, le_refl _, rfl⟩
  obtain ⟨config, hrun, h⟩ := addResolvers_built hcreate hfits
  rw [nil_append] at h
  refine ⟨config, hrun, ?_, h.nPadding⟩
  simp only [configBytes, configImage, h.nResolver, h.nAttribute, h.nPadding, h.attributes]

end Hexley.DnsInfo
