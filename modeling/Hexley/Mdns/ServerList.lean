import Hexley.Dns.NameEquality

/-!
The list of DNS servers, `mDNS_AddDNSServer` of `uDNS.c` and what
`uDNS_SetupDNSConfig` of `mDNS.c` does to the list.

All servers are marked for deletion, the platform adds those of the current
configuration, which takes the mark from a server that is there already, and the
servers that are still marked are freed. A server is told from others by its
interface, address, port and domain. Only the first server that is not disabled
can lose its mark, so two servers with the same identity are not both left.
-/

namespace Hexley.Mdns

open Lib Dns List

/-- An `mDNSAddr`. -/
inductive Addr
  | none
  | ipv4 (v4 : BitVec 32)
  | ipv6 (v6 : BitVec 128)
  deriving DecidableEq

inductive TestState
  | untested
  | passed
  | failed
  | disabled
  deriving DecidableEq

/-- The arguments of `mDNS_AddDNSServer`, with the name that the domain is. -/
structure ServerSpec where
  interface : ℕ
  addr : Addr
  port : UInt16
  domain : Mem
  name : DomainName
  isName : NameAt domain 0 name

/-- A `DNSServer` of the list, with its two flags. -/
structure DNSServer where
  spec : ServerSpec
  flagDelete : Bool
  flagNew : Bool
  teststate : TestState

def ServerSpec.same (p c : ServerSpec) : Bool :=
  p.interface = c.interface && p.addr = c.addr && p.port = c.port &&
    sameDomainName p.domain 0 c.domain 0

/-- `mDNS_AddDNSServer`. There may be no memory for a new server. -/
def addDNSServer (c : ServerSpec) (memory : Bool) : List DNSServer → List DNSServer
  | [] => if memory then [⟨c, false, true, .untested⟩] else []
  | p :: next =>
    if p.teststate ≠ .disabled ∧ p.spec.same c = true then { p with flagDelete := false } :: next
    else p :: addDNSServer c memory next

/-- The loop at the end of `uDNS_SetupDNSConfig`. -/
def freeMarked : List DNSServer → List DNSServer
  | [] => []
  | p :: next =>
    if p.flagDelete then freeMarked next else { p with flagNew := false } :: freeMarked next

def mark (p : DNSServer) : DNSServer := { p with flagDelete := true }

/-- What `uDNS_SetupDNSConfig` makes of the list, when the platform adds `config`. -/
def setupDNSConfig (config : List (ServerSpec × Bool)) (servers : List DNSServer) :
    List DNSServer :=
  freeMarked (config.foldl (fun servers c => addDNSServer c.1 c.2 servers) (servers.map mark))

/-- What servers are told apart by. -/
def ServerSpec.ident (c : ServerSpec) : ℕ × Addr × UInt16 × List (List UInt8) :=
  (c.interface, c.addr, c.port, c.name.labels.map lowerLabel)

def DNSServer.Enabled (p : DNSServer) : Prop := p.teststate ≠ .disabled

variable {p q : DNSServer} {l : List DNSServer} {c : ServerSpec × Bool}
  {config done : List (ServerSpec × Bool)}

theorem same_iff {p c : ServerSpec} : p.same c = true ↔ p.ident = c.ident := by
  simp only [ServerSpec.same, ServerSpec.ident, Bool.and_eq_true, decide_eq_true_eq,
    p.isName.same_iff c.isName, DomainName.SameAs, Prod.mk.injEq, and_assoc]

/-- Of the servers that are not disabled and have the same identity, only the first can
be without a mark. -/
def FirstKept (l : List DNSServer) : Prop :=
  l.Pairwise fun p q => p.Enabled → q.flagDelete = false → p.spec.ident ≠ q.spec.ident

/-- The list `l'` is `l` with `r` added, or with `r` in the place of a server of `l`. -/
structure Adds (l l' : List DNSServer) (memory : Bool) (r : DNSServer) : Prop where
  sub : ∀ q ∈ l', q = r ∨ q ∈ l
  keeps : ∀ q ∈ l, q.flagDelete = false → q ∈ l'
  added : memory = true → r ∈ l'
  first : FirstKept l → FirstKept l'

theorem exists_adds (c : ServerSpec) (memory : Bool) (l : List DNSServer) :
    ∃ r : DNSServer, r.Enabled ∧ r.flagDelete = false ∧ r.spec.ident = c.ident ∧
      Adds l (addDNSServer c memory l) memory r := by
  induction l with
  | nil =>
    refine ⟨⟨c, false, true, .untested⟩, nofun, rfl, rfl, ?_⟩
    cases memory <;> constructor <;> simp [addDNSServer, FirstKept]
  | cons p next ih =>
    rw [addDNSServer]
    split
    next hp =>
      have hident := same_iff.mp hp.2
      refine ⟨{ p with flagDelete := false }, hp.1, rfl, hident, ?_, ?_, fun _ => mem_cons_self, ?_⟩
      · exact fun q hq => (mem_cons.mp hq).imp_right (mem_cons_of_mem p)
      · rintro q hq hdel
        rcases mem_cons.mp hq with rfl | hq
        · exact mem_cons.mpr (.inl (by rw [← hdel]))
        · exact mem_cons_of_mem _ hq
      · exact fun h => pairwise_cons.mpr (pairwise_cons.mp h)
    next hp =>
      obtain ⟨r, hr, hdel, hident, h⟩ := ih
      refine ⟨r, hr, hdel, hident, ?_, ?_, fun hm => mem_cons_of_mem _ (h.added hm), ?_⟩
      · intro q hq
        rcases mem_cons.mp hq with rfl | hq
        · exact .inr mem_cons_self
        · exact (h.sub q hq).imp_right (mem_cons_of_mem p)
      · rintro q hq hkept
        rcases mem_cons.mp hq with rfl | hq
        · exact mem_cons_self
        · exact mem_cons_of_mem _ (h.keeps q hq hkept)
      · intro hfirst
        obtain ⟨hp', hnext⟩ := pairwise_cons.mp hfirst
        refine pairwise_cons.mpr ⟨fun q hq he hkept => ?_, h.first hnext⟩
        rcases h.sub q hq with rfl | hq
        · exact fun heq => hp ⟨he, same_iff.mpr (heq.trans hident)⟩
        · exact hp' q hq he hkept

/-- The list when the part `done` of the configuration has been added. -/
structure Current (done : List (ServerSpec × Bool)) (l : List DNSServer) : Prop where
  enabled : ∀ p ∈ l, p.flagDelete = false → p.Enabled
  first : FirstKept l
  sound : ∀ p ∈ l, p.flagDelete = false → ∃ c ∈ done, p.spec.ident = c.1.ident
  complete : ∀ c ∈ done, c.2 = true → ∃ p ∈ l, p.flagDelete = false ∧ p.spec.ident = c.1.ident

theorem Current.add (h : Current done l) (c : ServerSpec × Bool) :
    Current (done ++ [c]) (addDNSServer c.1 c.2 l) := by
  obtain ⟨r, hr, hdel, hident, hadds⟩ := exists_adds c.1 c.2 l
  refine ⟨fun p hp hkept => ?_, hadds.first h.first, fun p hp hkept => ?_, fun c' hc' hm => ?_⟩
  · rcases hadds.sub p hp with rfl | hp
    · exact hr
    · exact h.enabled p hp hkept
  · rcases hadds.sub p hp with rfl | hp
    · exact ⟨c, mem_append_right _ mem_cons_self, hident⟩
    · exact (h.sound p hp hkept).imp fun c' hc' => ⟨mem_append_left _ hc'.1, hc'.2⟩
  · rcases mem_append.mp hc' with hc' | hc'
    · obtain ⟨q, hq, hkept, heq⟩ := h.complete c' hc' hm
      exact ⟨q, hadds.keeps q hq hkept, hkept, heq⟩
    · obtain rfl := mem_singleton.mp hc'
      exact ⟨r, hadds.added hm, hdel, hident⟩

theorem Current.adds (config : List (ServerSpec × Bool)) (h : Current done l) :
    Current (done ++ config) (config.foldl (fun l c => addDNSServer c.1 c.2 l) l) := by
  induction config generalizing done l with
  | nil => simpa using h
  | cons c config ih => simpa using ih (h.add c)

theorem current_mark (servers : List DNSServer) : Current [] (servers.map mark) where
  enabled := by simp [mark]
  first := pairwise_map.mpr (pairwise_of_forall fun p q _ hq => absurd hq (by simp [mark]))
  sound := by simp [mark]
  complete := nofun

theorem freeMarked_eq (l : List DNSServer) :
    freeMarked l = (l.filter (!·.flagDelete)).map fun p => { p with flagNew := false } := by
  induction l with
  | nil => rfl
  | cons p next ih => cases hp : p.flagDelete <;> simp [freeMarked, hp, ih]

/-- The list is as the configuration says. -/
structure Configured (config : List (ServerSpec × Bool)) (l : List DNSServer) : Prop where
  enabled : ∀ p ∈ l, p.Enabled
  flags : ∀ p ∈ l, p.flagDelete = false ∧ p.flagNew = false
  distinct : (l.map fun p => p.spec.ident).Nodup
  sound : ∀ p ∈ l, ∃ c ∈ config, p.spec.ident = c.1.ident
  complete : ∀ c ∈ config, c.2 = true → ∃ p ∈ l, p.spec.ident = c.1.ident

theorem Current.configured (h : Current config l) : Configured config (freeMarked l) := by
  rw [freeMarked_eq]
  have hmem : ∀ p, p ∈ l.filter (!·.flagDelete) ↔ p ∈ l ∧ p.flagDelete = false := by simp
  refine ⟨?_, ?_, ?_, ?_, fun c hc hm => ?_⟩
  · rw [forall_mem_map]
    exact fun p hp => h.enabled p ((hmem p).mp hp).1 ((hmem p).mp hp).2
  · rw [forall_mem_map]
    exact fun p hp => ⟨((hmem p).mp hp).2, rfl⟩
  · rw [map_map, nodup_iff_pairwise_ne, pairwise_map]
    refine (h.first.filter _).imp_of_mem fun hp hq hne => ?_
    exact hne (h.enabled _ ((hmem _).mp hp).1 ((hmem _).mp hp).2) ((hmem _).mp hq).2
  · rw [forall_mem_map]
    exact fun p hp => h.sound p ((hmem p).mp hp).1 ((hmem p).mp hp).2
  · obtain ⟨p, hp, hkept, hident⟩ := h.complete c hc hm
    exact ⟨_, mem_map.mpr ⟨p, (hmem p).mpr ⟨hp, hkept⟩, rfl⟩, hident⟩

/-- The mark that a server has when the servers `added` have been added. -/
def remark (added : List (ServerSpec × Bool)) (p : DNSServer) : DNSServer :=
  { p with flagDelete := added.all fun c => decide (p.spec.ident ≠ c.1.ident) }

theorem addDNSServer_remark (added : List (ServerSpec × Bool)) (he : ∀ p ∈ l, p.Enabled)
    (hd : (l.map fun p => p.spec.ident).Nodup)
    (hc : c.2 = true → ∃ p ∈ l, p.spec.ident = c.1.ident) :
    addDNSServer c.1 c.2 (l.map (remark added)) = l.map (remark (added ++ [c])) := by
  induction l with
  | nil => cases hmem : c.2 <;> simp_all [addDNSServer]
  | cons p next ih =>
    have hnext := nodup_cons.mp hd
    rw [map_cons, map_cons, addDNSServer]
    by_cases hp : p.spec.ident = c.1.ident
    · have hrest : ∀ q ∈ next, remark added q = remark (added ++ [c]) q := by
        intro q hq
        have hne : q.spec.ident ≠ c.1.ident := fun heq =>
          hnext.1 (mem_map.mpr ⟨q, hq, heq.trans hp.symm⟩)
        simp [remark, hne]
      rw [if_pos ⟨he p mem_cons_self, same_iff.mpr hp⟩, map_congr_left hrest]
      simp [remark, hp]
    · rw [if_neg fun h => hp (same_iff.mp h.2)]
      have hsame : remark added p = remark (added ++ [c]) p := by simp [remark, hp]
      rw [hsame, ih (fun q hq => he q (mem_cons_of_mem _ hq)) hnext.2 fun hmem => ?_]
      obtain ⟨q, hq, heq⟩ := hc hmem
      rcases mem_cons.mp hq with rfl | hq
      · exact absurd heq hp
      · exact ⟨q, hq, heq⟩

theorem Configured.adds (h : Configured config l) (added rest : List (ServerSpec × Bool))
    (hsplit : added ++ rest = config) :
    rest.foldl (fun l c => addDNSServer c.1 c.2 l) (l.map (remark added)) =
      l.map (remark config) := by
  induction rest generalizing added with
  | nil => simp [← hsplit]
  | cons c rest ih =>
    have hc := h.complete c (by simp [← hsplit])
    rw [foldl_cons, addDNSServer_remark added h.enabled h.distinct hc]
    exact ih (added ++ [c]) (by simpa using hsplit)

theorem Configured.freeMarked_remark (h : Configured config l) :
    freeMarked (l.map (remark config)) = l := by
  have hkept : ∀ p ∈ l, remark config p = p := by
    intro p hp
    obtain ⟨c, hc, hident⟩ := h.sound p hp
    have hall : (config.all fun c => decide (p.spec.ident ≠ c.1.ident)) = false :=
      all_eq_false.mpr ⟨c, hc, by simpa using hident⟩
    rw [remark, hall, ← (h.flags p hp).1]
  rw [map_congr_left hkept, map_id', freeMarked_eq, filter_eq_self.mpr fun p hp => ?_]
  · exact (map_congr_left fun p hp => by rw [← (h.flags p hp).2]).trans (map_id' l)
  · simp [h.flags p hp]

/-- Whatever the list was, `uDNS_SetupDNSConfig` leaves the servers of the
configuration, each of them once and without a flag. A server is missing only if
there was no memory for it. Another call with the same configuration changes
nothing, if memory is there for the same servers. -/
theorem setupDNSConfig_configured (config : List (ServerSpec × Bool)) (servers : List DNSServer) :
    Configured config (setupDNSConfig config servers) ∧
      setupDNSConfig config (setupDNSConfig config servers) = setupDNSConfig config servers := by
  have h : Configured config (setupDNSConfig config servers) :=
    ((current_mark servers).adds config).configured
  refine ⟨h, ?_⟩
  -- before the platform adds anything, every server is marked
  have hmark : (setupDNSConfig config servers).map mark =
      (setupDNSConfig config servers).map (remark []) := rfl
  conv_lhs => rw [setupDNSConfig, hmark, h.adds [] config rfl, h.freeMarked_remark]

end Hexley.Mdns
