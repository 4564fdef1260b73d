import Hexley.DnsInfo.Expand

/-!
A configuration that is built is expanded into what it was built from.

The image of a configuration is known byte by byte. The expansion stores
only into the pointers and numbers of the structures and into the padding,
so the data of the attributes stays, and what has been expanded is not
touched again. The lists are taken from the padding in the order in which
the builder has counted them, so that nothing is left and nothing is
missing.
-/

namespace Hexley.DnsInfo

open Lib List Mem Endian Outcome Shape Set Region Call CString

/-! ### What depends on what -/

variable {α : Type} {At : Shape α} {host : Endian} {m' : Mem} {g : Region} {q : ℕ}

section

variable {m : Mem} {s t : Set ℕ}

theorem ListAt.congr (hAt : Shape.Local At) {count list : ℕ} {xs : List α}
    (h : ListAt host At m s count list xs) (heq : EqOn m m' s) (hst : s ⊆ t) :
    ListAt host At m' t count list xs := by
  obtain ⟨hcount, l, hlt, hl, hxs⟩ := h
  exact ⟨hcount.congr heq hst, l, hlt, hl.congr heq hst, pointers_local hAt hxs heq hst⟩

theorem resolverAt_local : Shape.Local (ResolverAt host) := by
  intro m m' s t p r h heq hst
  have hstring : Shape.Local (option host (bytes stored)) :=
    option_local (bytes_local _)
  exact
    { domain := hstring h.domain heq hst
      nameserver := h.nameserver.congr (bytes_local _) heq hst
      port := h.port.congr heq hst
      search := h.search.congr (bytes_local _) heq hst
      sortaddr := h.sortaddr.congr (bytes_local _) heq hst
      options := hstring h.options heq hst
      timeout := h.timeout.congr heq hst
      searchOrder := h.searchOrder.congr heq hst }

end

/-! ### Single steps -/

section

variable {m : Mem} {p v n : ℕ}

theorem move_signed (hv : v < 2 ^ 31) (hp : p + v < 2 ^ 64) : move p (signed v) = p + v := by
  unfold move signed
  omega

theorem ntoh_eq (hown : g.Owns p n) (h : m.Holds p (big.bytes n v)) (hv : v < 256 ^ n) :
    ntoh host g m p n = .ok (v, m.write p (host.bytes n v)) := by
  unfold ntoh
  rw [load_bytes hown h, ok_bind, val_bytes_of _ hv, store_bytes hown]
  rfl

def listAddress (n p : ℕ) : ℕ := if n = 0 then 0 else p

theorem addList_eq {pad nPad list : ℕ} (hown : g.Owns list 8) (hn : 8 * n ≤ nPad)
    (hsmall : 8 * n < 2 ^ 31) (hpad : pad + 8 * n < 2 ^ 64) :
    addList host g ⟨m, pad, nPad⟩ n 8 list =
      .ok ⟨m.write list (host.bytes 8 (listAddress n pad)), pad + 8 * n, nPad - 8 * n⟩ := by
  have hneed : n * 8 % 2 ^ 32 = 8 * n := by omega
  have hzero : (8 * n = 0) = (n = 0) := propext (by omega)
  unfold addList
  simp only [hneed, hzero]
  rw [require_true hn, ok_bind, store_bytes hown, ok_bind, move_signed hsmall hpad]
  rfl

theorem expandList_eq {pad nPad count list : ℕ} (hcount : g.Owns count 4)
    (hlist : g.Owns list 8) (h : m.Holds count (big.bytes 4 n)) (hn : 8 * n ≤ nPad)
    (hsmall : 8 * n < 2 ^ 31) (hpad : pad + 8 * n < 2 ^ 64) :
    expandList host g ⟨m, pad, nPad⟩ count list =
      .ok (n, ⟨(m.write count (host.bytes 4 n)).write list (host.bytes 8 (listAddress n pad)),
        pad + 8 * n, nPad - 8 * n⟩) := by
  unfold expandList
  rw [ntoh_eq hcount h (by omega), ok_bind]
  dsimp only
  rw [addList_eq hlist hn hsmall hpad]
  rfl

theorem setEntry_eq {list l : ℕ} (hlist : g.Owns list 8) (h : m.Holds list (host.bytes 8 l))
    (hl : l + 8 * n < 2 ^ 64) (hn : n < 2 ^ 31) (hown : g.Owns (l + 8 * n) 8) :
    setEntry host g m list n q = .ok (m.write (l + 8 * n) (host.bytes 8 q)) := by
  have hmove : move l (8 * signed n) = l + 8 * n := by
    unfold move signed
    omega
  unfold setEntry
  rw [load_bytes hlist h, ok_bind, val_bytes_of _ (by omega), hmove, store_bytes hown]

end

/-! ### The fields of a resolver -/

theorem holds_resolverImage {m : Mem} {p : ℕ} {r : Resolver} {bytes : List UInt8}
    (h : m.Holds p (resolverImage r bytes)) :
    m.Holds (p + 8) (big.bytes 4 r.nameservers.length) ∧
      m.Holds (p + 20) (big.bytes 2 r.port.toNat) ∧
      m.Holds (p + 24) (big.bytes 4 r.search.length) ∧
      m.Holds (p + 36) (big.bytes 4 r.sortaddrs.length) ∧
      m.Holds (p + 56) (big.bytes 4 r.timeout.toNat) ∧
      m.Holds (p + 60) (big.bytes 4 r.searchOrder.toNat) ∧
      m.Holds (p + 96) (big.bytes 4 bytes.length) ∧ m.Holds (p + 100) bytes := by
  simp only [resolverImage, resolverBytes, holds_append, length_bytes,
    length_replicate, add_assoc, Nat.reduceAdd] at h
  obtain ⟨-, h8, -, h20, -, h24, -, h36, -, h56, h60, -, h96, h100⟩ := h
  exact ⟨h8, h20, h24, h36, h56, h60, h96, h100⟩

structure Prepared (host : Endian) (m : Mem) (p : ℕ) (r : Resolver) (pad : ℕ) : Prop where
  domain : m.Holds p (host.bytes 8 0)
  nNameserver : m.Holds (p + 8) (host.bytes 4 r.nameservers.length)
  nameserver : m.Holds (p + 12) (host.bytes 8 (listAddress r.nameservers.length pad))
  port : m.Holds (p + 20) (host.bytes 2 r.port.toNat)
  nSearch : m.Holds (p + 24) (host.bytes 4 r.search.length)
  search : m.Holds (p + 28)
    (host.bytes 8 (listAddress r.search.length (pad + 8 * r.nameservers.length)))
  nSortaddr : m.Holds (p + 36) (host.bytes 4 r.sortaddrs.length)
  sortaddr : m.Holds (p + 40) (host.bytes 8 (listAddress r.sortaddrs.length
    (pad + 8 * r.nameservers.length + 8 * r.search.length)))
  options : m.Holds (p + 48) (host.bytes 8 0)
  timeout : m.Holds (p + 56) (host.bytes 4 r.timeout.toNat)
  searchOrder : m.Holds (p + 60) (host.bytes 4 r.searchOrder.toNat)

def countsOf (r : Resolver) : Counts :=
  ⟨r.nameservers.length, r.search.length, r.sortaddrs.length⟩

theorem expandFields_eq {g : Region} {m : Mem} {p pad nPad : ℕ} {r : Resolver}
    {bytes : List UInt8} (hown : g.Owns p 100) (h : m.Holds p (resolverImage r bytes))
    (hpads : 8 * r.entries ≤ nPad) (hsmall : 8 * r.entries < 2 ^ 31)
    (hend : pad + 8 * r.entries < 2 ^ 64) : ∃ m', expandFields host g ⟨m, pad, nPad⟩ p =
        .ok (countsOf r, ⟨m', pad + 8 * r.entries, nPad - 8 * r.entries⟩) ∧
      Prepared host m' p r pad ∧ EqOn m' m (Set.Ico p (p + 64))ᶜ := by
  obtain ⟨h8, h20, h24, h36, h56, h60, -, -⟩ := holds_resolverImage h
  have hentries : r.entries = r.nameservers.length + r.search.length + r.sortaddrs.length := rfl
  have hport := r.port.toNat_lt
  have htimeout := r.timeout.toNat_lt
  have horder := r.searchOrder.toNat_lt
  have hsub : ∀ i n, i + n ≤ 100 → g.Owns (p + i) n := fun i n hi =>
    ⟨Nat.le_trans hown.1 (Nat.le_add_right _ _), by have := hown.2; omega⟩
  apply Exists.intro
  refine ⟨?_, ?_, ?_⟩
  · unfold expandFields
    dsimp only
    rw [store_bytes, ok_bind, expandList_eq (n := r.nameservers.length), ok_bind]
    rw [ntoh_eq (v := r.port.toNat), ok_bind]
    dsimp only
    rw [expandList_eq (n := r.search.length), ok_bind]
    rw [expandList_eq (n := r.sortaddrs.length), ok_bind]
    rw [store_bytes, ok_bind, ntoh_eq (v := r.timeout.toNat), ok_bind]
    rw [ntoh_eq (v := r.searchOrder.toNat), ok_bind, hentries, mul_add, mul_add,
      ← add_assoc, ← add_assoc, ← Nat.sub_sub, ← Nat.sub_sub]
    · rfl
    -- nothing is stored behind a number that is still in network order
    all_goals first
      | omega
      | exact hsub _ _ (by omega)
      | exact hsub 0 8 (by omega)
      | simpa [holds_write_iff]
  · constructor
    all_goals repeat first | exact holds_write _ _ _ | refine Mem.Holds.write ?_ (by simp)
  · repeat refine (write_compl _ (by omega) (by simp)).trans ?_
    exact eqOn_refl _ _

/-! ### The attributes of a resolver -/

structure Room (g : Region) (p e pad N S A : ℕ) : Prop where
  pos : 0 < p
  base_le : g.base ≤ p
  attributes : p + 100 ≤ e
  lists : e ≤ pad
  size : pad + 8 * (N + S + A) ≤ g.base + g.size
  address : g.base + g.size < 2 ^ 64
  count : N + S + A < 2 ^ 31

structure Lists (host : Endian) (m : Mem) (p pad N S A : ℕ) : Prop where
  nameserver : m.Holds (p + 12) (host.bytes 8 (listAddress N pad))
  search : m.Holds (p + 28) (host.bytes 8 (listAddress S (pad + 8 * N)))
  sortaddr : m.Holds (p + 40) (host.bytes 8 (listAddress A (pad + 8 * N + 8 * S)))

structure Attached (host : Endian) (m : Mem) (p e pad N S : ℕ) (r : Resolver) : Prop where
  domain : option host (bytes stored) m
    (Set.Ico p (p + 8) ∪ Set.Ico (p + 100) e) p r.domain
  nameserver : pointers host (bytes Sockaddr.bytes) m
    (Set.Ico pad (pad + 8 * r.nameservers.length) ∪ Set.Ico (p + 100) e) pad r.nameservers
  search : pointers host (bytes stored) m
    (Set.Ico (pad + 8 * N) (pad + 8 * N + 8 * r.search.length) ∪ Set.Ico (p + 100) e)
    (pad + 8 * N) r.search
  sortaddr : pointers host (bytes Sortaddr.bytes) m
    (Set.Ico (pad + 8 * N + 8 * S) (pad + 8 * N + 8 * S + 8 * r.sortaddrs.length) ∪
      Set.Ico (p + 100) e)
    (pad + 8 * N + 8 * S) r.sortaddrs
  options : option host (bytes stored) m
    (Set.Ico (p + 48) (p + 56) ∪ Set.Ico (p + 100) e) (p + 48) r.options

def slots (p pad N S A : ℕ) : Set ℕ :=
  Set.Ico p (p + 8) ∪ Set.Ico (p + 48) (p + 56) ∪ Set.Ico pad (pad + 8 * (N + S + A))

section

variable {m : Mem} {p e pad N S A : ℕ} {r : Resolver} {x : α} {t : ℕ} {data : List UInt8}

theorem eqOn_write {w a b c d : ℕ} (h : b ≤ w ∨ w + 8 ≤ a) (h' : d ≤ w ∨ w + 8 ≤ c) :
    EqOn m (m.write w (host.bytes 8 q)) (Set.Ico a b ∪ Set.Ico c d) := by
  refine (write_eqOn m ?_).symm
  rintro x (hx | hx)
  all_goals
    have hlow := hx.1
    have hhigh := hx.2
    rw [length_bytes]
    omega

theorem option_write (hAt : Shape.Local At) {w c d : ℕ} (hq : 0 < q) (hq' : q < 2 ^ 64)
    (hdis : w + 8 ≤ c) (hx : At m (Set.Ico c d) q x) :
    option host At (m.write w (host.bytes 8 q)) (Set.Ico w (w + 8) ∪ Set.Ico c d) w
      (some x) :=
  Shape.option_write hAt (by omega) hq' (fun _ ha => .inr (le_trans hdis ha.1)) hx

theorem pointers_write (hAt : Shape.Local At) {l c d : ℕ} {xs : List α}
    (h : pointers host At m (Set.Ico l (l + 8 * xs.length) ∪ Set.Ico c d) l xs) (hdis : d ≤ l)
    (hq : q < 2 ^ 64) (hx : At m (Set.Ico c d) q x) :
    pointers host At (m.write (l + 8 * xs.length) (host.bytes 8 q))
      (Set.Ico l (l + 8 * (xs ++ [x]).length) ∪ Set.Ico c d) l (xs ++ [x]) :=
  Shape.pointers_write hAt h (fun a ha => .inl (by have := ha.2; omega)) hq hx

theorem eqOn_slots {w : ℕ} (h : Set.Ico w (w + 8) ⊆ slots p pad N S A) :
    EqOn (m.write w (host.bytes 8 q)) m (slots p pad N S A)ᶜ := by
  refine write_eqOn m fun a ha => ?_
  rw [length_bytes]
  by_contra hcon
  exact ha (h ⟨by omega, by omega⟩)

theorem holds_attribute (h : m.Holds q (attributeBytes t data)) : m.Holds q (big.bytes 4 t) ∧
      m.Holds (q + 4) (big.bytes 4 (8 + roundup data.length 4)) ∧ m.Holds (q + 8) data := by
  simp only [attributeBytes, holds_append, length_bytes, add_assoc, Nat.reduceAdd] at h
  exact ⟨h.1, h.2.1, h.2.2.1⟩

theorem listAddress_of_pos {n l : ℕ} (h : 0 < n) : listAddress n l = l := if_neg (by omega)

structure AttributeAt (m : Mem) (p e q t : ℕ) (data : List UInt8) : Prop where
  header : m.Holds q (big.bytes 4 t)
  data : m.HoldsIn (Set.Ico (p + 100) e) (q + 8) data
  low : p + 100 ≤ q
  high : q + 8 ≤ e

theorem attributeAt_of (h : m.Holds q (attributeBytes t data)) (hlow : p + 100 ≤ q)
    (hhigh : q + (attributeBytes t data).length ≤ e) : AttributeAt m p e q t data:= by
  obtain ⟨hheader, -, hdata⟩ := holds_attribute h
  have hround := roundup_four data.length
  rw [length_attribute] at hhigh
  refine ⟨hheader, hdata.holdsIn ?_, hlow, by omega⟩
  exact Set.Ico_subset_Ico (by omega) (by omega)

theorem Room.owns (room : Room g p e pad N S A) {w n : ℕ} (h : p ≤ w)
    (h' : w + n ≤ pad + 8 * (N + S + A)) : g.Owns w n :=
  ⟨le_trans room.base_le h, le_trans h' room.size⟩

theorem Room.load_type (room : Room g p e pad N S A) (h : AttributeAt m p e q t data) :
    g.load m q 4 = .ok (big.bytes 4 t) := by
  have hlow := h.low
  have hhigh := h.high
  have hlists := room.lists
  exact load_bytes (room.owns (by omega) (by omega)) h.header

/-! ### One attribute -/

theorem option_string_local : Shape.Local (option host (bytes stored)) :=
  option_local (bytes_local _)

theorem pointers_bytes_local {β : Type} {f : β → List UInt8} :
    Shape.Local (pointers host (bytes f)) :=
  pointers_local (bytes_local f)

theorem unwritten (hAt : Shape.Local At) {w v a b c d l : ℕ}
    (h : At m (Set.Ico a b ∪ Set.Ico c d) l x) (hw : b ≤ w ∨ w + 8 ≤ a) (hw' : d ≤ w ∨ w + 8 ≤ c) :
    At (m.write w (host.bytes 8 v)) (Set.Ico a b ∪ Set.Ico c d) l x :=
  hAt h (eqOn_write hw hw') subset_rfl

theorem Attached.write (h : Attached host m p e pad N S r) {w v : ℕ} (hp : p + 100 ≤ e) (he : e ≤ w)
    (hN : pad + 8 * r.nameservers.length ≤ w)
    (hS : pad + 8 * N + 8 * r.search.length ≤ w ∨ w + 8 ≤ pad + 8 * N)
    (hA : pad + 8 * N + 8 * S + 8 * r.sortaddrs.length ≤ w ∨ w + 8 ≤ pad + 8 * N + 8 * S) :
    Attached host (m.write w (host.bytes 8 v)) p e pad N S r where
  domain := unwritten option_string_local h.domain (by omega) (.inl he)
  nameserver := unwritten pointers_bytes_local h.nameserver (.inl hN) (.inl he)
  search := unwritten pointers_bytes_local h.search hS (.inl he)
  sortaddr := unwritten pointers_bytes_local h.sortaddr hA (.inl he)
  options := unwritten option_string_local h.options (by omega) (.inl he)

section

variable (h : Attached host m p e pad N S r) (room : Room g p e pad N S A)
include h room

theorem Attached.setDomain {domain : CString}
    (hat : AttributeAt m p e q attributeDomain domain.stored) :
    Attached host (m.write p (host.bytes 8 (q + 8))) p e pad N S
      { r with domain := some domain } := by
  obtain ⟨-, -, hattributes, hlists, hsize, haddress, -⟩ := room
  have hq := hat.high
  exact
    { domain := option_write (bytes_local _) (by omega) (by omega) (by omega) hat.data
      nameserver := unwritten pointers_bytes_local h.nameserver (by omega) (by omega)
      search := unwritten pointers_bytes_local h.search (by omega) (by omega)
      sortaddr := unwritten pointers_bytes_local h.sortaddr (by omega) (by omega)
      options := unwritten option_string_local h.options (by omega) (by omega) }

theorem Attached.addNameserver (hN : r.nameservers.length < N) {nameserver : Sockaddr}
    (hat : AttributeAt m p e q attributeAddress nameserver.bytes) :
    Attached host (m.write (pad + 8 * r.nameservers.length) (host.bytes 8 (q + 8))) p e pad N S
      { r with nameservers := r.nameservers ++ [nameserver] } := by
  obtain ⟨-, -, hattributes, hlists, hsize, haddress, -⟩ := room
  have hq := hat.high
  exact { h.write hattributes (by omega) (by omega) (by omega) (by omega) with
    nameserver := pointers_write (bytes_local _) h.nameserver (by omega) (by omega) hat.data }

theorem Attached.addSearch (hN : r.nameservers.length ≤ N) (hS : r.search.length < S)
    {search : CString}
    (hat : AttributeAt m p e q attributeSearch search.stored) :
    Attached host (m.write (pad + 8 * N + 8 * r.search.length) (host.bytes 8 (q + 8))) p e pad N
      S { r with search := r.search ++ [search] } := by
  obtain ⟨-, -, hattributes, hlists, hsize, haddress, -⟩ := room
  have hq := hat.high
  exact { h.write hattributes (by omega) (by omega) (by omega) (by omega) with
    search := pointers_write (bytes_local _) h.search (by omega) (by omega) hat.data }

theorem Attached.addSortaddr (hN : r.nameservers.length ≤ N) (hS : r.search.length ≤ S)
    {sortaddr : Sortaddr} (hat : AttributeAt m p e q attributeSortaddr sortaddr.bytes) :
    Attached host
      (m.write (pad + 8 * N + 8 * S + 8 * r.sortaddrs.length) (host.bytes 8 (q + 8))) p e pad N S
      { r with sortaddrs := r.sortaddrs ++ [sortaddr] } := by
  obtain ⟨-, -, hattributes, hlists, hsize, haddress, -⟩ := room
  have hq := hat.high
  exact { h.write hattributes (by omega) (by omega) (by omega) (by omega) with
    sortaddr := pointers_write (bytes_local _) h.sortaddr (by omega) (by omega) hat.data }

theorem Attached.setOptions {options : CString}
    (hat : AttributeAt m p e q attributeOptions options.stored) :
    Attached host (m.write (p + 48) (host.bytes 8 (q + 8))) p e pad N S
      { r with options := some options } := by
  obtain ⟨-, -, hattributes, hlists, hsize, haddress, -⟩ := room
  have hq := hat.high
  exact
    { domain := unwritten option_string_local h.domain (by omega) (by omega)
      nameserver := unwritten pointers_bytes_local h.nameserver (by omega) (by omega)
      search := unwritten pointers_bytes_local h.search (by omega) (by omega)
      sortaddr := unwritten pointers_bytes_local h.sortaddr (by omega) (by omega)
      options := option_write (bytes_local _) (by omega) (by omega) (by omega) hat.data }

end

theorem Room.setEntry (room : Room g p e pad N S A) {list l n i : ℕ}
    (hlist : list + 8 ≤ p + 100) (hp : p ≤ list) (h : m.Holds list (host.bytes 8 (listAddress n l)))
    (hi : i < n) (hl : pad ≤ l) (hn : l + 8 * n ≤ pad + 8 * (N + S + A)) :
    DnsInfo.setEntry host g m list i (q + 8) = .ok (m.write (l + 8 * i) (host.bytes 8 (q + 8))) ∧
      EqOn (m.write (l + 8 * i) (host.bytes 8 (q + 8))) m (slots p pad N S A)ᶜ := by
  obtain ⟨-, -, hattributes, hlists, hsize, haddress, hcount⟩ := id room
  rw [listAddress_of_pos (by omega)] at h
  refine ⟨setEntry_eq (room.owns hp (by omega)) h (by omega) (by omega)
    (room.owns (by omega) (by omega)), eqOn_slots (Set.Subset.trans ?_ subset_union_right)⟩
  exact Set.Ico_subset_Ico (by omega) (by omega)

theorem Room.store (room : Room g p e pad N S A) {w : ℕ} (hp : p ≤ w) (hw : w + 8 ≤ p + 100) :
    g.store m w (host.bytes 8 (q + 8)) = .ok (m.write w (host.bytes 8 (q + 8))) := by
  obtain ⟨-, -, hattributes, hlists, -, -, -⟩ := id room
  exact store_bytes (room.owns hp (by omega))

theorem Call.expand_attached (room : Room g p e pad N S A) (lists : Lists host m p pad N S A)
    (h : Attached host m p e pad N S r) (call : Call) (hpresent : call.bytes ≠ [])
    (hlow : p + 100 ≤ q) (hhigh : q + call.bytes.length ≤ e) (hbytes : m.Holds q call.bytes)
    (hN : (call.apply r).nameservers.length ≤ N) (hS : (call.apply r).search.length ≤ S)
    (hA : (call.apply r).sortaddrs.length ≤ A) :
    ∃ m', expandAttribute host g p m (countsOf r) q = .ok (m', countsOf (call.apply r)) ∧
      Attached host m' p e pad N S (call.apply r) ∧ EqOn m' m (slots p pad N S A)ᶜ := by
  have hcount := room.count
  cases call with
  | setDomain domain =>
    have hat := attributeAt_of hbytes hlow hhigh
    refine ⟨_, ?_, h.setDomain room hat, eqOn_slots (subset_union_left.trans
      subset_union_left)⟩
    rw [expandAttribute, room.load_type hat, room.store (le_refl p) (by omega)]
    rfl
  | addNameserver nameserver =>
    have hat := attributeAt_of hbytes hlow hhigh
    rw [apply, length_append, length_singleton] at hN
    obtain ⟨hentry, heq⟩ := room.setEntry (by omega) (by omega) lists.nameserver
      (show r.nameservers.length < N by omega) (le_refl _) (by omega)
    refine ⟨_, ?_, h.addNameserver room (by omega) hat, heq⟩
    rw [expandAttribute, room.load_type hat, countsOf, hentry,
      Nat.mod_eq_of_lt (show r.nameservers.length + 1 < 2 ^ 32 by omega), countsOf, apply,
      length_append]
    rfl
  | setPort port => exact absurd rfl hpresent
  | addSearch search =>
    have hat := attributeAt_of hbytes hlow hhigh
    rw [apply, length_append, length_singleton] at hS
    obtain ⟨hentry, heq⟩ := room.setEntry (by omega) (by omega) lists.search
      (show r.search.length < S by omega) (by omega) (by omega)
    refine ⟨_, ?_, h.addSearch room hN (by omega) hat, heq⟩
    rw [expandAttribute, room.load_type hat, countsOf, hentry,
      Nat.mod_eq_of_lt (show r.search.length + 1 < 2 ^ 32 by omega), countsOf, apply,
      length_append]
    rfl
  | addSortaddr sortaddr =>
    have hat := attributeAt_of hbytes hlow hhigh
    rw [apply, length_append, length_singleton] at hA
    obtain ⟨hentry, heq⟩ := room.setEntry (by omega) (by omega) lists.sortaddr
      (show r.sortaddrs.length < A by omega) (by omega) (by omega)
    refine ⟨_, ?_, h.addSortaddr room hN hS hat, heq⟩
    rw [expandAttribute, room.load_type hat, countsOf, hentry,
      Nat.mod_eq_of_lt (show r.sortaddrs.length + 1 < 2 ^ 32 by omega), countsOf, apply,
      length_append]
    rfl
  | setOptions options =>
    have hat := attributeAt_of hbytes hlow hhigh
    refine ⟨_, ?_, h.setOptions room hat, eqOn_slots (subset_union_right.trans
      subset_union_left)⟩
    rw [expandAttribute, room.load_type hat, room.store (show p ≤ p + 48 by omega) (by omega)]
    rfl
  | setTimeout timeout => exact absurd rfl hpresent
  | setOrder order => exact absurd rfl hpresent

/-! ### All attributes -/

theorem Call.bytes_eq (call : Call) : (∃ t data, call.bytes = attributeBytes t data) ∨
      call.bytes = [] ∧ ∀ r : Resolver, ∃ port timeout searchOrder,
        call.apply r = { r with port, timeout, searchOrder } := by
  cases call with
  | setPort port => exact .inr ⟨rfl, fun r => ⟨port, r.timeout, r.searchOrder, rfl⟩⟩
  | setTimeout timeout => exact .inr ⟨rfl, fun r => ⟨r.port, timeout, r.searchOrder, rfl⟩⟩
  | setOrder order => exact .inr ⟨rfl, fun r => ⟨r.port, r.timeout, order, rfl⟩⟩
  | setDomain domain => exact .inl ⟨_, _, rfl⟩
  | addNameserver nameserver => exact .inl ⟨_, _, rfl⟩
  | addSearch search => exact .inl ⟨_, _, rfl⟩
  | addSortaddr sortaddr => exact .inl ⟨_, _, rfl⟩
  | setOptions options => exact .inl ⟨_, _, rfl⟩

def Below (r r' : Resolver) : Prop :=
  r.nameservers.length ≤ r'.nameservers.length ∧ r.search.length ≤ r'.search.length ∧
    r.sortaddrs.length ≤ r'.sortaddrs.length

theorem below_apply (r : Resolver) (call : Call) : Below r (call.apply r) := by
  cases call <;> simp [Below, apply]

theorem below_foldl (r : Resolver) (calls : List Call) : Below r (calls.foldl apply r) := by
  induction calls generalizing r with
  | nil => exact ⟨le_refl _, le_refl _, le_refl _⟩
  | cons call calls ih =>
    have h₁ := below_apply r call
    have h₂ := ih (call.apply r)
    exact ⟨le_trans h₁.1 h₂.1, le_trans h₁.2.1 h₂.2.1, le_trans h₁.2.2 h₂.2.2⟩

theorem Lists.congr (h : Lists host m p pad N S A) (hp : p + 100 ≤ pad)
    (heq : EqOn m' m (slots p pad N S A)ᶜ) : Lists host m' p pad N S A := by
  have hfield : ∀ {i v : ℕ}, 8 ≤ i → i + 8 ≤ 48 → m.Holds (p + i) (host.bytes 8 v) →
      m'.Holds (p + i) (host.bytes 8 v) := by
    intro i v hi hi' hv
    refine hv.of_eqOn_compl heq fun a ha ha' => ?_
    rw [length_bytes] at ha'
    simp only [slots, mem_union, mem_Ico]
    omega
  exact ⟨hfield (by omega) (by omega) h.nameserver, hfield (by omega) (by omega) h.search,
    hfield (by omega) (by omega) h.sortaddr⟩

theorem resolverLoop_attached (room : Room g p e pad N S A) (lists : Lists host m p pad N S A)
    (h : Attached host m p e pad N S r) {calls : List Call} {fuel : ℕ}
    (hbytes : m.Holds q (callsBytes calls)) (hlow : p + 100 ≤ q)
    (hend : q + (callsBytes calls).length = e) (hsmall : (callsBytes calls).length < 2 ^ 31)
    (hN : (calls.foldl apply r).nameservers.length ≤ N)
    (hS : (calls.foldl apply r).search.length ≤ S)
    (hA : (calls.foldl apply r).sortaddrs.length ≤ A) (hfuel : calls.length < fuel) :
    ∃ m', resolverLoop host g p fuel m (countsOf r) q (callsBytes calls).length =
        .ok (m', countsOf (calls.foldl apply r)) ∧
      Attached host m' p e pad N S (calls.foldl apply r) ∧
      EqOn m' m (slots p pad N S A)ᶜ := by
  induction calls generalizing m r q fuel with
  | nil =>
    obtain ⟨fuel, rfl⟩ : ∃ n, fuel = n + 1 := ⟨fuel - 1, by simp at hfuel; omega⟩
    exact ⟨m, rfl, h, eqOn_refl _ _⟩
  | cons call calls ih =>
    have hbelow := below_foldl (call.apply r) calls
    rw [foldl_cons] at hN hS hA ⊢
    rw [length_cons] at hfuel
    rw [callsBytes_cons] at hbytes hend hsmall ⊢
    rcases call.bytes_eq with ⟨t, data, hcall⟩ | ⟨hnil, hnumbers⟩
    · rcases fuel with _ | fuel
      · omega
      obtain ⟨hhead, htail⟩ := Mem.holds_append.mp hbytes
      rw [length_append] at hend hsmall ⊢
      have hlen : call.bytes.length = 8 + roundup data.length 4 := by
        rw [hcall, length_attribute]
      have hlists := room.lists
      have haddress := room.address
      have hsize := room.size
      obtain ⟨m₁, hstep, hattached, heq⟩ := expand_attached room lists h call
        (fun hnil => by rw [hnil] at hlen; simp at hlen; omega) hlow (by omega) hhead
        (le_trans hbelow.1 hN) (le_trans hbelow.2.1 hS) (le_trans hbelow.2.2 hA)
      have hload : g.load m (q + 4) 4 = .ok (big.bytes 4 call.bytes.length) := by
        rw [hcall] at hhead
        obtain ⟨-, hlength, -⟩ := holds_attribute hhead
        rw [hlen]
        exact load_bytes (room.owns (by omega) (by omega)) hlength
      have htail₁ : m₁.Holds (q + call.bytes.length) (callsBytes calls) := by
        refine htail.of_eqOn_compl heq fun a hlow hhigh => ?_
        simp only [slots, mem_union, mem_Ico]
        omega
      obtain ⟨m', hloop, hattached', heq'⟩ := ih (lists.congr (by omega) heq) hattached htail₁
        (by omega) (by omega) (by omega) hN hS hA (Nat.lt_of_succ_lt_succ hfuel)
      refine ⟨m', ?_, hattached', heq'.trans heq⟩
      rw [resolverLoop, if_pos (by omega), hload, ok_bind]
      rw [val_bytes_of _ (by omega), hstep, ok_bind]
      rw [move_signed (by omega) (by omega),
        show (call.bytes.length + (callsBytes calls).length + 2 ^ 32 - call.bytes.length) %
          2 ^ 32 = (callsBytes calls).length by omega]
      exact hloop
    · -- nothing in the buffer, and no pointer of the resolver has changed
      rw [hnil, nil_append] at hbytes hend hsmall ⊢
      obtain ⟨port, timeout, searchOrder, happly⟩ := hnumbers r
      rw [happly] at hN hS hA ⊢
      have h' : Attached host m p e pad N S { r with port, timeout, searchOrder } :=
        ⟨h.domain, h.nameserver, h.search, h.sortaddr, h.options⟩
      exact ih lists h' hbytes hlow hend hsmall hN hS hA (by omega)

/-! ### A resolver -/

theorem listAt_of_pointers {s : Set ℕ} {count list l : ℕ} {xs : List α}
    (hcount : m.HoldsIn s count (host.bytes 4 xs.length))
    (hlist : m.HoldsIn s list (host.bytes 8 (listAddress xs.length l))) (hl : l < 2 ^ 64)
    (h : pointers host At m s l xs) : ListAt host At m s count list xs := by
  cases xs with
  | nil => exact ⟨hcount, 0, by omega, hlist, pointers_nil⟩
  | cons x xs => exact ⟨hcount, l, hl, hlist, h⟩

theorem Prepared.attached {full : Resolver} (h : Prepared host m p full pad) :
    Attached host m p e pad N S .empty := by
  have hslot : ∀ {w : ℕ}, m.Holds w (host.bytes 8 0) →
      m.HoldsIn (Set.Ico w (w + 8) ∪ Set.Ico (p + 100) e) w (host.bytes 8 0) := by
    intro w hw
    refine hw.holdsIn ?_
    rw [length_bytes]
    exact subset_union_left
  exact
    { domain := ⟨0, by omega, hslot h.domain, rfl⟩
      nameserver := pointers_nil
      search := pointers_nil
      sortaddr := pointers_nil
      options := ⟨0, by omega, hslot h.options, rfl⟩ }

theorem Attached.resolverAt (room : Room g p e pad r.nameservers.length r.search.length
      r.sortaddrs.length) (h : Attached host m p e pad r.nameservers.length r.search.length r)
    {m₁ : Mem} (hprepared : Prepared host m₁ p r pad)
    (heq : EqOn m m₁ (slots p pad r.nameservers.length r.search.length r.sortaddrs.length)ᶜ) :
    ResolverAt host m (Set.Ico p e ∪ Set.Ico pad (pad + 8 * r.entries)) p r := by
  obtain ⟨hpos, hbase, hattributes, hlists, hsize, haddress, hcount⟩ := room
  have hentries : r.entries = r.nameservers.length + r.search.length + r.sortaddrs.length := rfl
  -- a field that is not a pointer that has been set is as it was
  have hfield : ∀ {i : ℕ} {bs : List UInt8}, m₁.Holds (p + i) bs →
      8 ≤ i ∧ i + bs.length ≤ 48 ∨ 56 ≤ i ∧ i + bs.length ≤ 100 →
      m.HoldsIn (Set.Ico p e ∪ Set.Ico pad (pad + 8 * r.entries)) (p + i) bs := by
    intro i bs hi hrange
    refine (hi.of_eqOn_compl heq fun a hlow hhigh => ?_).holdsIn ?_
    · simp only [slots, mem_union, mem_Ico]
      omega
    · exact (Set.Ico_subset_Ico (by omega) (by omega)).trans subset_union_left
  have hdata : Set.Ico (p + 100) e ⊆ Set.Ico p e := Set.Ico_subset_Ico_left (by omega)
  have hpads : ∀ {a b : ℕ}, pad ≤ a → b ≤ pad + 8 * r.entries → Set.Ico a b ∪ Set.Ico (p + 100) e ⊆
        Set.Ico p e ∪ Set.Ico pad (pad + 8 * r.entries) := fun ha hb =>
    union_subset ((Set.Ico_subset_Ico ha hb).trans subset_union_right)
      (hdata.trans subset_union_left)
  have hslot : ∀ {i : ℕ}, i + 8 ≤ 100 → Set.Ico (p + i) (p + i + 8) ∪ Set.Ico (p + 100) e ⊆
      Set.Ico p e ∪ Set.Ico pad (pad + 8 * r.entries) := fun hi =>
    (union_subset (Set.Ico_subset_Ico (by omega) (by omega)) hdata).trans
      subset_union_left
  exact
    { domain := option_string_local h.domain (eqOn_refl _ _) (@hslot 0 (by omega))
      nameserver := listAt_of_pointers (hfield hprepared.nNameserver (by simp))
        (hfield hprepared.nameserver (by simp)) (by omega)
        (pointers_bytes_local h.nameserver (eqOn_refl _ _) (hpads (by omega) (by omega)))
      port := hfield hprepared.port (by simp)
      search := listAt_of_pointers (hfield hprepared.nSearch (by simp))
        (hfield hprepared.search (by simp)) (by omega)
        (pointers_bytes_local h.search (eqOn_refl _ _) (hpads (by omega) (by omega)))
      sortaddr := listAt_of_pointers (hfield hprepared.nSortaddr (by simp))
        (hfield hprepared.sortaddr (by simp)) (by omega)
        (pointers_bytes_local h.sortaddr (eqOn_refl _ _) (hpads (by omega) (by omega)))
      options := option_string_local h.options (eqOn_refl _ _) (hslot (by omega))
      timeout := hfield hprepared.timeout (by simp)
      searchOrder := hfield hprepared.searchOrder (by simp) }

theorem expandResolver_eq {calls : List Call} {nPad fuel : ℕ} (hr : resolverOf calls = r)
    (room : Room g p (p + 100 + (callsBytes calls).length) pad r.nameservers.length
      r.search.length r.sortaddrs.length) (hbytes : m.Holds p (resolverImage r (callsBytes calls)))
    (hsmall : (callsBytes calls).length < 2 ^ 31) (hpads : 8 * r.entries ≤ nPad)
    (hentries : 8 * r.entries < 2 ^ 31) (hfuel : calls.length < fuel) :
    ∃ m', expandResolver host g fuel ⟨m, pad, nPad⟩ p (100 + (callsBytes calls).length) =
        .ok ⟨m', pad + 8 * r.entries, nPad - 8 * r.entries⟩ ∧
      ResolverAt host m' (Set.Ico p (p + 100 + (callsBytes calls).length) ∪
        Set.Ico pad (pad + 8 * r.entries)) p r ∧
      EqOn m' m (Set.Ico p (p + 64) ∪ Set.Ico pad (pad + 8 * r.entries))ᶜ := by
  obtain ⟨hpos, hbase, hattributes, hlists, hsize, haddress, hcount⟩ := id room
  have hdef : r.entries = r.nameservers.length + r.search.length + r.sortaddrs.length := rfl
  obtain ⟨m₁, hfields, hprepared, heq₁⟩ := @expandFields_eq host g m p pad nPad r _
    (room.owns (by omega) (by omega)) hbytes hpads hentries (by omega)
  obtain ⟨-, -, -, -, -, -, h96, h100⟩ := holds_resolverImage hbytes
  have hkeep : ∀ {i : ℕ} {bs : List UInt8}, 64 ≤ i → m.Holds (p + i) bs → m₁.Holds (p + i) bs := by
    intro i bs hi h
    refine h.of_eqOn_compl heq₁ fun a hlow _ => ?_
    simp only [mem_Ico]
    omega
  have hlists₁ : Lists host m₁ p pad r.nameservers.length r.search.length r.sortaddrs.length :=
    ⟨hprepared.nameserver, hprepared.search, hprepared.sortaddr⟩
  have hr' : calls.foldl apply .empty = r := hr
  obtain ⟨m', hloop, hattached, heq⟩ := resolverLoop_attached room hlists₁ hprepared.attached
    (hkeep (by omega) h100) (le_refl _) rfl hsmall (by rw [hr']) (by rw [hr'])
    (by rw [hr']) hfuel
  rw [hr'] at hloop hattached
  refine ⟨m', ?_, hattached.resolverAt room hprepared heq, ?_⟩
  · unfold expandResolver
    rw [require_true (by omega), ok_bind, hfields, ok_bind]
    dsimp only
    rw [load_bytes (room.owns (by omega) (by omega)) (hkeep (by omega) h96),
      ok_bind, val_bytes_of _ (by omega), Nat.add_sub_cancel_left, require_true rfl, ok_bind]
    have hzero : (⟨0, 0, 0⟩ : Counts) = countsOf .empty := rfl
    rw [hzero, hloop, ok_bind]
    rw [require_true rfl]
    rfl
  · refine (heq.mono ?_).trans (heq₁.mono ?_)
    · intro a ha
      simp only [slots, mem_compl_iff, mem_union, mem_Ico] at ha ⊢
      omega
    · intro a ha
      simp only [mem_compl_iff, mem_union, mem_Ico] at ha ⊢
      omega

/-! ### The configuration -/

variable (calls : List Call)

theorem four_dvd_calls : 4 ∣ (callsBytes calls).length := by
  induction calls with
  | nil => exact Nat.dvd_zero 4
  | cons call calls ih =>
    rw [callsBytes_cons, length_append]
    refine Nat.dvd_add ?_ ih
    rcases call.bytes_eq with ⟨t, data, hcall⟩ | ⟨hnil, -⟩
    · have hround := roundup_four data.length
      rw [hcall, length_attribute]
      omega
    · rw [hnil]
      exact Nat.dvd_zero 4

theorem length_resolverAttribute :
    (resolverAttribute calls).length = 108 + (callsBytes calls).length := by
  have hround := roundup_four (100 + (callsBytes calls).length)
  have hdvd := four_dvd_calls calls
  rw [resolverAttribute, length_attribute, length_resolver]
  omega

variable (resolvers : List (List Call))

def listsOf : ℕ :=
  (resolvers.map fun calls => 8 * (resolverOf calls).entries).sum

@[simp] theorem listsOf_cons (resolvers : List (List Call)) :
    listsOf (calls :: resolvers) = 8 * (resolverOf calls).entries + listsOf resolvers :=
  rfl

theorem paddingOf_eq :
    paddingOf resolvers = 8 * resolvers.length + listsOf resolvers := by
  induction resolvers with
  | nil => rfl
  | cons calls resolvers ih =>
    rw [paddingOf_cons, listsOf_cons, length_cons, ih]
    omega

def ResolversAt (host : Endian) (m : Mem) (base q E n pad : ℕ) (done : List Resolver) : Prop :=
  pointers host (ResolverAt host) m
    (Set.Ico E (E + 8 * done.length) ∪
      (Set.Ico (base + 52) q ∪ Set.Ico (E + 8 * n) pad)) E done

theorem ResolversAt.addResolver {base q E n pad nPad fuel : ℕ} {done : List Resolver}
    {calls : List Call} (hr : resolverOf calls = r)
    (h : ResolversAt host m base q E n pad done) (hg : g.base = base) (hbase : 0 < base)
    (hq : base + 52 ≤ q) (hend : q + (resolverAttribute calls).length ≤ E)
    (hn : done.length < n) (hpad : E + 8 * n ≤ pad) (hsize : pad + 8 * r.entries ≤ g.base + g.size)
    (haddress : g.base + g.size < 2 ^ 64) (hfits : (resolverAttribute calls).length < 2 ^ 31)
    (hcount : n < 2 ^ 31) (hnPad : 8 * r.entries ≤ nPad)
    (hfuel : calls.length < fuel) (hlist : m.Holds (base + 4) (host.bytes 8 (listAddress n E)))
    (hbytes : m.Holds q (resolverAttribute calls)) :
    ∃ m₁ m₂, expandResolver host g fuel ⟨m, pad, nPad⟩ (q + 8) (100 + (callsBytes calls).length) =
        .ok ⟨m₁, pad + 8 * r.entries, nPad - 8 * r.entries⟩ ∧
      setEntry host g m₁ (base + 4) done.length (q + 8) = .ok m₂ ∧
      ResolversAt host m₂ base (q + (resolverAttribute calls).length) E n
        (pad + 8 * r.entries) (done ++ [r]) ∧
      EqOn m₂ m (Set.Ico q (q + (resolverAttribute calls).length) ∪
        Set.Ico E (pad + 8 * r.entries))ᶜ := by
  have hpads := padding_lt hfits
  rw [hr] at hpads
  have hlen := length_resolverAttribute calls
  have hentries : r.entries = r.nameservers.length + r.search.length + r.sortaddrs.length := rfl
  obtain ⟨-, -, hdata⟩ := holds_attribute hbytes
  rw [hr] at hdata
  have room : Room g (q + 8) (q + 8 + 100 + (callsBytes calls).length) pad r.nameservers.length
      r.search.length r.sortaddrs.length :=
    ⟨by omega, by omega, by omega, by omega, by omega, by omega, by omega⟩
  obtain ⟨m₁, hexpand, hresolver, heq⟩ := @expandResolver_eq host g m (q + 8) pad r calls nPad
    fuel hr room hdata (by omega) hnPad (by omega) hfuel
  -- the address of the list and the resolvers that are done are not touched
  have hlist₁ : m₁.Holds (base + 4) (host.bytes 8 E) := by
    rw [listAddress_of_pos (by omega)] at hlist
    refine hlist.of_eqOn_compl heq fun a _ hhigh => ?_
    rw [length_bytes] at hhigh
    simp only [mem_union, mem_Ico]
    omega
  have hold : pointers host (ResolverAt host) m₁ (Set.Ico E (E + 8 * done.length) ∪
      (Set.Ico (base + 52) (q + (resolverAttribute calls).length) ∪
        Set.Ico (E + 8 * n) (pad + 8 * r.entries))) E done := by
    refine pointers_local resolverAt_local h (fun a ha => (heq ?_).symm) ?_
    · simp only [mem_compl_iff, mem_union, mem_Ico] at ha ⊢
      omega
    · intro a ha
      simp only [mem_union, mem_Ico] at ha ⊢
      omega
  have hnew : ResolverAt host m₁
      (Set.Ico (base + 52) (q + (resolverAttribute calls).length) ∪
        Set.Ico (E + 8 * n) (pad + 8 * r.entries)) (q + 8)
      r := by
    refine resolverAt_local hresolver (eqOn_refl _ _) fun a ha => ?_
    simp only [mem_union, mem_Ico] at ha ⊢
    omega
  refine ⟨m₁, m₁.write (E + 8 * done.length) (host.bytes 8 (q + 8)), hexpand, ?_, ?_, ?_⟩
  · exact setEntry_eq ⟨by omega, by omega⟩ hlist₁ (by omega) (by omega) ⟨by omega, by omega⟩
  · refine Shape.pointers_write resolverAt_local hold (fun a ha => ?_) (by omega) hnew
    simp only [mem_union, mem_Ico] at ha
    omega
  · refine (write_eqOn m₁ fun a ha => ?_).trans (heq.mono fun a ha => ?_)
    · rw [length_bytes]
      simp only [mem_compl_iff, mem_union, mem_Ico] at ha
      omega
    · simp only [mem_compl_iff, mem_union, mem_Ico] at ha ⊢
      omega

theorem configLoop_resolver {base q length rest pad nPad fuel k : ℕ} {m₁ m₂ : Mem}
    {pad' nPad' : ℕ} (hload : g.load m (q + 4) 4 = .ok (big.bytes 4 length))
    (hload' : g.load m q 4 = .ok (big.bytes 4 attributeResolver)) (hlow : 8 ≤ length)
    (hlength : length < 2 ^ 31) (hq : q + length < 2 ^ 64) (hrest : length + rest < 2 ^ 32)
    (hk : k + 1 < 2 ^ 32)
    (hexpand : expandResolver host g fuel ⟨m, pad, nPad⟩ (q + 8) (length - 8) =
      .ok ⟨m₁, pad', nPad'⟩) (hentry : setEntry host g m₁ (base + 4) k (q + 8) = .ok m₂) :
    configLoop host g base (fuel + 1) ⟨m, pad, nPad⟩ k q (length + rest) =
      configLoop host g base fuel ⟨m₂, pad', nPad'⟩ (k + 1) (q + length) rest := by
  have hval : big.val (big.bytes 4 length) = length := val_bytes_of _ (by omega)
  have hval' : big.val (big.bytes 4 attributeResolver) = attributeResolver :=
    val_bytes_of _ (by decide)
  have hbuf : (length + 2 ^ 32 - 8) % 2 ^ 32 = length - 8 := by omega
  have hnext : (length + rest + 2 ^ 32 - length) % 2 ^ 32 = rest := by omega
  have hcount : (k + 1) % 2 ^ 32 = k + 1 := Nat.mod_eq_of_lt hk
  have hlarge : 8 ≤ length + rest := by omega
  rw [configLoop, if_pos hlarge, hload, ok_bind, hval, hload', ok_bind, hval',
    if_pos rfl, hbuf, hexpand, ok_bind, hentry, ok_bind, pure_eq,
    ok_bind, hcount, move_signed hlength hq, hnext]

theorem configLoop_eq {base q E n pad nPad fuel : ℕ} {done resolvers : List (List Call)}
    (hg : g.base = base) (hq : base + 52 ≤ q) (hbase : 0 < base)
    (hend : q + (configAttributes resolvers).length = E) (hn : n = done.length + resolvers.length)
    (hpad : E + 8 * n ≤ pad) (hsize : pad + listsOf resolvers ≤ g.base + g.size)
    (haddress : g.base + g.size < 2 ^ 64)
    (hfits : ∀ calls ∈ resolvers, (resolverAttribute calls).length < 2 ^ 31)
    (hsmall : (configAttributes resolvers).length < 2 ^ 32) (hcount : n < 2 ^ 31)
    (hnPad : listsOf resolvers ≤ nPad) (hfuel : resolvers.length < fuel)
    (hfuel' : ∀ calls ∈ resolvers, calls.length + resolvers.length < fuel)
    (hlist : m.Holds (base + 4) (host.bytes 8 (listAddress n E)))
    (hbytes : m.Holds q (configAttributes resolvers))
    (hdone : ResolversAt host m base q E n pad (done.map resolverOf)) :
    ∃ m', configLoop host g base fuel ⟨m, pad, nPad⟩ done.length q
          (configAttributes resolvers).length =
        .ok (⟨m', pad + listsOf resolvers, nPad - listsOf resolvers⟩, n) ∧
      ResolversAt host m' base E E n (pad + listsOf resolvers)
        ((done ++ resolvers).map resolverOf) ∧
      EqOn m' m (Set.Ico (base + 52) (pad + listsOf resolvers))ᶜ := by
  induction resolvers generalizing m done q pad nPad fuel with
  | nil =>
    obtain ⟨fuel, rfl⟩ : ∃ k, fuel = k + 1 := ⟨fuel - 1, by simp at hfuel; omega⟩
    subst hend hn
    refine ⟨m, rfl, ?_, eqOn_refl _ _⟩
    rw [append_nil]
    exact hdone
  | cons calls resolvers ih =>
    rcases fuel with _ | fuel
    · omega
    have hcalls : (resolverAttribute calls).length < 2 ^ 31 := hfits calls mem_cons_self
    have hfuel₁ := hfuel' calls mem_cons_self
    have hlen := length_resolverAttribute calls
    rw [attributes_cons] at hend hsmall hbytes ⊢
    rw [length_append] at hend hsmall ⊢
    rw [listsOf_cons] at hsize hnPad ⊢
    rw [length_cons] at hn hfuel hfuel₁
    obtain ⟨hhead, htail⟩ := Mem.holds_append.mp hbytes
    obtain ⟨htype, hlength, -⟩ := holds_attribute hhead
    rw [← length_attribute attributeResolver] at hlength
    obtain ⟨m₁, m₂, hexpand, hentry, hdone₂, heq⟩ :=
      @ResolversAt.addResolver host g m _ base q E n pad nPad fuel _ calls rfl hdone hg hbase
        hq (by omega) (by rw [length_map]; omega) hpad (by omega) haddress hcalls hcount
        (by omega) (by omega) hlist hhead
    rw [length_map] at hentry
    have hlist₂ : m₂.Holds (base + 4) (host.bytes 8 (listAddress n E)) := by
      refine hlist.of_eqOn_compl heq fun a _ hhigh => ?_
      rw [length_bytes] at hhigh
      simp only [mem_union, mem_Ico]
      omega
    have htail₂ : m₂.Holds (q + (resolverAttribute calls).length)
        (configAttributes resolvers) := by
      refine htail.of_eqOn_compl heq fun a hlow hhigh => ?_
      simp only [mem_union, mem_Ico]
      omega
    have hmap : done.map resolverOf ++ [resolverOf calls] =
        (done ++ [calls]).map resolverOf := by simp
    rw [hmap] at hdone₂
    obtain ⟨m', hloop, hdone', heq'⟩ := @ih m₂ _ (pad + 8 * (resolverOf calls).entries)
      (nPad - 8 * (resolverOf calls).entries) fuel (done ++ [calls])
      (by omega) (by omega) (by simp; omega) (by omega) (by omega)
      (forall_mem_cons.mp hfits).2 (by omega) (by omega) (by omega)
      (fun c hc => by
        have := hfuel' c (mem_cons_of_mem _ hc)
        rw [length_cons] at this
        omega) hlist₂ htail₂ hdone₂
    have happend : done ++ calls :: resolvers = done ++ [calls] ++ resolvers := by simp
    refine ⟨m', ?_, ?_, ?_⟩
    · have hload : g.load m (q + 4) 4 = .ok (big.bytes 4 (resolverAttribute calls).length) :=
        load_bytes ⟨by omega, by omega⟩ hlength
      have hload' : g.load m q 4 = .ok (big.bytes 4 attributeResolver) :=
        load_bytes ⟨by omega, by omega⟩ htype
      have hbuf : (resolverAttribute calls).length - 8 = 100 + (callsBytes calls).length := by
        omega
      have hstep := @configLoop_resolver host g m base q _ (configAttributes resolvers).length
        pad nPad fuel done.length m₁ m₂ _ _ hload hload' (by omega) hcalls (by omega) (by omega)
        (by omega) (by rw [hbuf]; exact hexpand) hentry
      rw [hstep, ← add_assoc, ← Nat.sub_sub]
      simpa using hloop
    · rw [happend, ← add_assoc]
      exact hdone'
    · refine (heq'.mono fun a ha => ?_).trans (heq.mono fun a ha => ?_)
      · simp only [mem_compl_iff, mem_Ico] at ha ⊢
        omega
      · simp only [mem_compl_iff, mem_union, mem_Ico] at ha ⊢
        omega

theorem length_configImage :
    (configImage resolvers).length = 52 + (configAttributes resolvers).length := by
  simp only [configImage, length_append, length_bytes, length_replicate]
  omega

theorem holds_configImage {base : ℕ} {resolvers : List (List Call)}
    (h : m.Holds base (configImage resolvers)) :
    m.Holds base (big.bytes 4 resolvers.length) ∧
      m.Holds (base + 44) (big.bytes 4 (configAttributes resolvers).length) ∧
      m.Holds (base + 48) (big.bytes 4 (paddingOf resolvers)) ∧
      m.Holds (base + 52) (configAttributes resolvers) := by
  simp only [configImage, holds_append, length_bytes, length_replicate,
    add_assoc, Nat.reduceAdd] at h
  exact ⟨h.1, h.2.2.1, h.2.2.2.1, h.2.2.2.2⟩

theorem expandConfig_eq {resolvers : List (List Call)} (hfits : Fits resolvers) (hbase : 0 < g.base)
    (hsize : g.size = 52 + (configAttributes resolvers).length + paddingOf resolvers)
    (haddress : g.base + g.size < 2 ^ 64) (hbytes : m.Holds g.base (configImage resolvers)) :
    ∃ fuel m', expandConfig host g fuel m = .ok ⟨m', g.base + g.size, 0⟩ ∧
      ConfigAt host m' (Set.Ico g.base (g.base + g.size)) g.base (resolvers.map resolverOf) := by
  obtain ⟨base, size⟩ := g
  dsimp only at hbase hsize haddress hbytes ⊢
  obtain ⟨h0, h44, h48, h52⟩ := holds_configImage hbytes
  have hpads := paddingOf_le hfits.1
  have hpadding := paddingOf_eq resolvers
  have htotal := hfits.2
  obtain ⟨E, hE⟩ : ∃ E, E = base + 52 + (configAttributes resolvers).length := ⟨_, rfl⟩
  obtain ⟨m₁, hexpand, hcount₁, hlist₁, h52₁⟩ : ∃ m₁, expandList host ⟨base, size⟩
        ⟨m, E, paddingOf resolvers⟩ base (base + 4) =
        .ok (resolvers.length, ⟨m₁, E + 8 * resolvers.length, listsOf resolvers⟩) ∧
      m₁.Holds base (host.bytes 4 resolvers.length) ∧
      m₁.Holds (base + 4) (host.bytes 8 (listAddress resolvers.length E)) ∧
      m₁.Holds (base + 52) (configAttributes resolvers) := by
    rw [show listsOf resolvers = paddingOf resolvers - 8 * resolvers.length by omega]
    exact ⟨_, expandList_eq ⟨le_refl _, by dsimp only; omega⟩
      ⟨by dsimp only; omega, by dsimp only; omega⟩ h0 (by omega) (by omega) (by omega),
      (holds_write _ _ _).write (by simp), holds_write _ _ _, (h52.write (by simp)).write (by simp)⟩
  have hfuel : ∀ calls ∈ resolvers, calls.length + resolvers.length <
      resolvers.flatten.length + resolvers.length + 1 := by
    intro calls hcalls
    have := (sublist_flatten_of_mem hcalls).length_le
    omega
  obtain ⟨m', hloop, hdone, heq⟩ := @configLoop_eq host ⟨base, size⟩ m₁ base (base + 52) E
    resolvers.length (E + 8 * resolvers.length) (listsOf resolvers)
    (resolvers.flatten.length + resolvers.length + 1) [] resolvers
    rfl (le_refl _) hbase hE.symm (by simp) (le_refl _) (by dsimp only; omega) haddress
    hfits.1 (by omega) (by omega) (le_refl _) (by omega) hfuel hlist₁ h52₁
    pointers_nil
  have hend : E + 8 * resolvers.length + listsOf resolvers = base + size := by omega
  rw [hend] at hloop hdone heq
  rw [Nat.sub_self] at hloop
  refine ⟨resolvers.flatten.length + resolvers.length + 1, m', ?_, ?_⟩
  · unfold expandConfig
    dsimp only
    rw [load_bytes ⟨by dsimp only; omega, by dsimp only; omega⟩ h44, ok_bind,
      load_bytes ⟨by dsimp only; omega, by dsimp only; omega⟩ h48, ok_bind,
      val_bytes_of _ (by omega), val_bytes_of _ (by omega), ← hE, hexpand, ok_bind]
    rw [length_nil] at hloop
    rw [hloop, ok_bind]
    rw [require_true rfl]
    rfl
  · have hkeep : ∀ {i : ℕ} {bs : List UInt8}, m₁.Holds (base + i) bs → i + bs.length ≤ 52 →
        m'.HoldsIn (Set.Ico base (base + size)) (base + i) bs := by
      intro i bs hi hle
      refine (hi.of_eqOn_compl heq fun a _ hhigh => ?_).holdsIn
        (Set.Ico_subset_Ico (by omega) (by omega))
      simp only [mem_Ico]
      omega
    refine listAt_of_pointers (@hkeep 0 _ ?_ ?_) (hkeep ?_ (by simp))
      (show E < 2 ^ 64 by omega) ?_
    · rw [length_map]
      exact hcount₁
    · simp
    · rw [length_map]
      exact hlist₁
    · refine pointers_local resolverAt_local hdone (eqOn_refl _ _) fun a ha => ?_
      simp only [nil_append, length_map, mem_union, mem_Ico] at ha ⊢
      omega

end

/-- A configuration whose lengths can be stored is expanded into what it was
built from. -/
theorem roundTrips_of_fits {resolvers : List (List Call)} (hfits : Fits resolvers) :
    RoundTrips resolvers := by
  obtain ⟨config, hbuild, himage, hpadding⟩ := build_eq hfits
  refine ⟨config, hbuild, fun host base m hbase haddress hbytes => ?_⟩
  rw [himage] at hbytes
  obtain ⟨hconfig, -⟩ := Mem.holds_append.mp hbytes
  have hsize : (regionOf base config).size =
      52 + (configAttributes resolvers).length + paddingOf resolvers := by
    rw [regionOf, himage, length_configImage, hpadding]
  obtain ⟨fuel, m', hexpand, hat⟩ := @expandConfig_eq host (regionOf base config) m resolvers
    hfits hbase hsize haddress hconfig
  exact ⟨fuel, _, hexpand, hat, rfl, rfl⟩

/-- A resolver for `b.c` with two name servers, a search domain and a sort
address, and one for which only the port is set. -/
theorem roundTrips_two : RoundTrips
      [[.setDomain ⟨[0x62, 0x2E, 0x63], by decide⟩, .addNameserver ⟨[3, 2, 9], by decide⟩,
          .setTimeout 30, .addSearch ⟨[0x61], by decide⟩, .addNameserver ⟨[2, 2], by decide⟩,
          .addSortaddr ⟨[10, 0, 0, 0, 255, 0, 0, 0], by decide⟩, .setOrder 7], [.setPort 53]] :=
  roundTrips_of_fits (by decide +kernel)

def letters (n : ℕ) : CString :=
  ⟨List.replicate n 0x61, fun h => absurd (eq_of_mem_replicate h) (by decide)⟩

theorem length_letters (n : ℕ) : (letters n).stored.length = n + 1 := by
  rw [length_stored, letters, length_replicate]

def blank : Buf ResolverFields := ⟨⟨0, 0, 0, 0, 0, 0⟩, 8, 1024, [0, 0, 0, 10, 0, 0, 0, 8]⟩

/-- Nothing is stored of a domain whose length is taken to be zero. -/
theorem runCalls_letters {n : ℕ} (h : (n + 1) % 2 ^ 32 = 0) :
    runCalls resolverCreate [.setDomain (letters n)] = .ok blank := by
  have hlen : ((letters n).bytes.length + 1) % 2 ^ 32 = 0 := by
    rw [← length_stored, length_letters, h]
  have hzero : ∀ data, resolverAddAttribute resolverCreate attributeDomain 0 data = .ok blank :=
    fun _ => rfl
  rw [runCalls, run, setDomain, hlen, hzero]
  rfl

theorem size_of_letters {n : ℕ} (h : (n + 1) % 2 ^ 32 = 0) {config : Buf ConfigFields}
    (hbuild : build [[.setDomain (letters n)]] = .ok config) (base : ℕ) :
    (regionOf base config).size = 176 := by
  rw [build, addResolvers, runCalls_letters h, ok_bind] at hbuild
  have hadd : addResolver configurationCreate blank =
      .ok ⟨⟨1, 8⟩, 116, 8192, attributeBytes attributeResolver (resolverBytes blank)⟩ := by
    decide +kernel
  rw [hadd, ok_bind, addResolvers] at hbuild
  rw [← Outcome.ok.inj hbuild]
  simp only [regionOf, configBytes, resolverBytes, blank, length_attribute, roundup_four,
    length_append, length_bytes, length_replicate, length_cons, length_nil]

/-- A domain of `2 ^ 32 - 1` characters does not come back. -/
theorem not_roundTrips_letters : ¬RoundTrips [[.setDomain (letters (2 ^ 32 - 1))]] := by
  rintro ⟨config, hbuild, h⟩
  have hsize : (regionOf 4096 config).size = 176 := size_of_letters (by norm_num) hbuild 4096
  obtain ⟨fuel, x, -, hconfig, -⟩ := h .little 4096
    ((Mem.ofList []).write 4096 (configBytes config ++ List.replicate config.fields.nPadding 0))
    (by decide) (by rw [hsize]; decide) (holds_write _ _ _)
  obtain ⟨-, l, -, -, hresolvers⟩ := hconfig
  obtain ⟨p, -, -, hresolver⟩ := hresolvers 0 _ rfl
  obtain ⟨q, -, -, -, hdomain⟩ := hresolver.domain
  have hsub : Set.Ico q (q + (letters (2 ^ 32 - 1)).stored.length) ⊆
      Set.Ico 4096 (4096 + (regionOf 4096 config).size) := hdomain.1
  rw [hsize, length_letters] at hsub
  have hlast := (hsub (⟨by omega, by omega⟩ :
    q + (2 ^ 32 - 1) ∈ Set.Ico q (q + (2 ^ 32 - 1 + 1)))).2
  omega

end Hexley.DnsInfo
