import Hexley.Mdns.ServerList
import Mathlib.Data.List.Rotate

/-!
The choice of a DNS server for a name, `GetServerForName` of `mDNS.c`.

The loop counts labels and skips as many of the name as it has more than the
domain of the server. On a valid name the labels that are left are a suffix
of its labels, so the comparison asks whether the domain is a suffix of the
name, and the strict comparison of the counts keeps the first of the longest.
Servers that fit equally well take turns if queries are not answered.
-/

namespace Hexley.Mdns

open Lib Dns List

def countLabelsFrom (m : Mem) : ℕ → ℕ → ℕ
  | 0, _ => 0
  | fuel + 1, ptr => if m ptr = 0 then 0 else countLabelsFrom m fuel (ptr + (m ptr).toNat + 1) + 1

/-- `CountLabels`. The bytes of a name bound the number of its labels. -/
def countLabels (m : Mem) (d : ℕ) : ℕ := countLabelsFrom m maxDomainName d

def skipLeadingLabels (m : Mem) : ℕ → ℕ → ℕ
  | d, 0 => d
  | d, skip + 1 => if m d = 0 then d else skipLeadingLabels m (d + 1 + (m d).toNat) skip

/-- The loop of `GetServerForName`. A pointer to a server is the list from
there on. -/
def getServerFrom (m : Mem) (name ncount : ℕ) :
    List DNSServer → Option (List DNSServer) → ℤ → Option (List DNSServer)
  | [], curmatch, _ => curmatch
  | p :: next, curmatch, curmatchlen =>
    let scount := countLabels p.spec.domain 0
    if p.flagDelete = false ∧ ncount ≥ scount ∧ scount > curmatchlen ∧
        sameDomainName m (skipLeadingLabels m name (ncount - scount)) p.spec.domain 0 = true then
      getServerFrom m name ncount next (some (p :: next)) scount
    else getServerFrom m name ncount next curmatch curmatchlen

variable (s : DNSServer) (servers : List DNSServer)

/-- `GetServerForName` for the name at `name`, which is not `NULL`. -/
def getServerForName (m : Mem) (name : ℕ) : Option (List DNSServer) :=
  getServerFrom m name (countLabels m name) servers none (-1)

/-- The server may be asked for the name: it is not to be deleted, and its
domain is a suffix of the name, label by label and without regard to case. -/
def DNSServer.Serves (d : DomainName) : Prop :=
  s.flagDelete = false ∧ s.spec.name.labels.map lowerLabel <:+ d.labels.map lowerLabel

def DNSServer.labelCount : ℕ := s.spec.name.labels.length

/-- Of the servers `seen`, which `rest` follow, `curmatch` is the first of
those that serve the name with the most labels, or there is none. -/
def Chosen (d : DomainName) (seen rest : List DNSServer) (curmatch : Option (List DNSServer)) :
    Prop :=
  (curmatch = none ∧ ∀ t ∈ seen, ¬t.Serves d) ∨
    ∃ before s after, seen = before ++ s :: after ∧ curmatch = some (s :: after ++ rest) ∧
      s.Serves d ∧ (∀ t ∈ before, t.Serves d → t.labelCount < s.labelCount) ∧
      ∀ t ∈ after, t.Serves d → t.labelCount ≤ s.labelCount

/-! ### Labels -/

variable {m : Mem} {p : ℕ} {d : DomainName}

section Labels

variable {ls : List (List UInt8)}

theorem countLabels_of_holds {fuel : ℕ} (hls : LabelsFit ls) (hm : m.Holds p (wire ls ++ [0]))
    (hfuel : (wire ls).length < fuel) : countLabelsFrom m fuel p = ls.length := by
  induction ls generalizing p fuel with
  | nil =>
    rcases fuel with _ | fuel
    · omega
    exact if_pos (Mem.holds_cons.mp hm).1
  | cons l ls ih =>
    obtain ⟨hpos, hle⟩ := hls l mem_cons_self
    obtain ⟨hl, hrest⟩ := holds_label_cons.mp hm
    rcases fuel with _ | fuel
    · omega
    rw [label_cons, length_append, length_cons] at hfuel
    rw [countLabelsFrom, if_neg (ne_zero_of_label hpos hle hl),
      toNat_of_label hle hl, add_right_comm, ih hls.tail hrest (by omega), length_cons]

theorem countLabels_eq (h : NameAt m p d) : countLabels m p = d.labels.length := by
  have hle := d.length_lt
  exact countLabels_of_holds d.labelsFit h (by omega)

theorem holds_skipLeadingLabels (hls : LabelsFit ls) (hm : m.Holds p (wire ls ++ [0])) (k : ℕ) :
    m.Holds (skipLeadingLabels m p k) (wire (ls.drop k) ++ [0]) := by
  induction ls generalizing p k with
  | nil =>
    cases k with
    | zero => exact hm
    | succ k =>
      rw [skipLeadingLabels, if_pos (Mem.holds_cons.mp hm).1]
      exact hm
  | cons l ls ih =>
    obtain ⟨hpos, hle⟩ := hls l mem_cons_self
    obtain ⟨hl, hrest⟩ := holds_label_cons.mp hm
    cases k with
    | zero => exact hm
    | succ k =>
      rw [skipLeadingLabels, if_neg (ne_zero_of_label hpos hle hl), toNat_of_label hle hl]
      exact ih hls.tail hrest k

def dropLabels (d : DomainName) (k : ℕ) : DomainName where
  labels := d.labels.drop k
  label_pos l hl := d.label_pos l (mem_of_mem_drop hl)
  label_le l hl := d.label_le l (mem_of_mem_drop hl)
  length_le := by
    have hle := d.length_le
    rw [← take_append_drop k d.labels, map_append, sum_append] at hle
    omega

theorem serves_iff (h : NameAt m p d) (s : DNSServer) :
    (s.flagDelete = false ∧ countLabels m p ≥ countLabels s.spec.domain 0 ∧
      sameDomainName m (skipLeadingLabels m p (countLabels m p - countLabels s.spec.domain 0))
        s.spec.domain 0 = true) ↔ s.Serves d := by
  rw [countLabels_eq h, countLabels_eq s.spec.isName,
    NameAt.same_iff (d := dropLabels d (d.labels.length - s.spec.name.labels.length))
      (holds_skipLeadingLabels d.labelsFit h _) s.spec.isName, DNSServer.Serves, suffix_iff_eq_drop,
    length_map, length_map, ← map_drop]
  refine and_congr_right fun _ => ⟨fun hsame => hsame.2.symm, fun hsame => ⟨?_, hsame.symm⟩⟩
  have hlen := congrArg length hsame
  rw [length_map, length_map, length_drop] at hlen
  omega

end Labels

/-! ### The loop -/

section Loop

variable {seen rest : List DNSServer} {s : DNSServer} {curmatch : Option (List DNSServer)}

def matchLength : Option (List DNSServer) → ℤ
  | some (s :: _) => s.labelCount
  | _ => -1

theorem Chosen.replace (h : Chosen d seen (s :: rest) curmatch) (hs : s.Serves d)
    (hlt : matchLength curmatch < s.labelCount) :
    Chosen d (seen ++ [s]) rest (some (s :: rest)) := by
  refine .inr ⟨seen, s, [], rfl, rfl, hs, fun t ht hserves => ?_, fun t ht => nomatch ht⟩
  rcases h with ⟨-, hnone⟩ | ⟨before, s', after, rfl, rfl, -, hbefore, hafter⟩
  · exact absurd hserves (hnone t ht)
  · have hlt' : s'.labelCount < s.labelCount := by simpa [matchLength] using hlt
    rcases mem_append.mp ht with hin | hin
    · exact (hbefore t hin hserves).trans hlt'
    · rcases mem_cons.mp hin with rfl | hin
      · exact hlt'
      · exact (hafter t hin hserves).trans_lt hlt'

theorem Chosen.keep (h : Chosen d seen (s :: rest) curmatch)
    (hs : s.Serves d → s.labelCount ≤ matchLength curmatch) :
    Chosen d (seen ++ [s]) rest curmatch := by
  rcases h with ⟨rfl, hnone⟩ | ⟨before, s', after, rfl, rfl, hs', hbefore, hafter⟩
  · refine .inl ⟨rfl, fun t ht hserves => ?_⟩
    rcases mem_append.mp ht with hin | hin
    · exact hnone t hin hserves
    · have := hs (mem_singleton.mp hin ▸ hserves)
      simp [matchLength] at this
      omega
  · refine .inr ⟨before, s', after ++ [s], by simp, by simp, hs', hbefore, fun t ht hserves => ?_⟩
    rcases mem_append.mp ht with hin | hin
    · exact hafter t hin hserves
    · obtain rfl := mem_singleton.mp hin
      simpa [matchLength] using hs hserves

theorem getServerFrom_chosen (h : NameAt m p d) (hcur : Chosen d seen rest curmatch) :
    Chosen d (seen ++ rest) []
      (getServerFrom m p (countLabels m p) rest curmatch (matchLength curmatch)) := by
  induction rest generalizing seen curmatch with
  | nil => rwa [append_nil]
  | cons s rest ih =>
    have hiff := serves_iff h s
    have hcount : countLabels s.spec.domain 0 = s.labelCount := countLabels_eq s.spec.isName
    rw [append_cons, getServerFrom]
    simp only [hcount] at hiff ⊢
    split_ifs with htest
    · exact ih (hcur.replace (hiff.mp ⟨htest.1, htest.2.1, htest.2.2.2⟩) htest.2.2.1)
    · refine ih (hcur.keep fun hs => ?_)
      obtain ⟨hflag, hle, hsame⟩ := hiff.mpr hs
      by_contra hlt
      exact htest ⟨hflag, hle, by omega, hsame⟩

end Loop

/-- `GetServerForName` returns the first server among those that serve the
name with the most labels, and `NULL` exactly if none does. -/
theorem getServerForName_chosen (m : Mem) (name : ℕ) (d : DomainName)
    (h : NameAt m name d) : Chosen d servers [] (getServerForName servers m name) := by
  have hstart : Chosen d [] servers none := .inl ⟨rfl, fun _ ht => absurd ht not_mem_nil⟩
  exact getServerFrom_chosen h hstart

/-- The name `a.b.c`. -/
def abcName : DomainName := ⟨[[0x61], [0x62], [0x63]], by decide, by decide, by decide⟩

/-- A server for the name without its first `k` labels. -/
def abcServer (k port : ℕ) (flagDelete : Bool) : DNSServer where
  spec := ⟨0, .ipv4 1, UInt16.ofNat port, _, dropLabels abcName k, nameAt_ofList _⟩
  flagDelete := flagDelete
  flagNew := false
  teststate := .untested

def abcServers : List DNSServer :=
  [abcServer 3 1 false, abcServer 0 2 true, abcServer 1 3 false, abcServer 2 4 false,
    abcServer 1 5 false]

/-- A server for the whole name is to be deleted. Of the two for `b.c` the first is chosen. -/
theorem getServerForName_chosen_abc :
    getServerForName abcServers (Mem.ofList abcName.bytes) 0 = some (abcServers.drop 2) ∧
      Chosen abcName abcServers [] (getServerForName abcServers (Mem.ofList abcName.bytes) 0) :=
  ⟨rfl, getServerForName_chosen abcServers _ 0 abcName (nameAt_ofList abcName)⟩

/-! ### The next server for a question -/

/-- The loop of `PushDNSServerToEnd`. The list from a server on tells which it is by its
length. -/
def unlink (qDNSServer : List DNSServer) : List DNSServer → List DNSServer
  | [] => []
  | p :: next =>
    if (p :: next).length = qDNSServer.length then unlink qDNSServer next
    else p :: unlink qDNSServer next

def pushDNSServerToEnd : Option (List DNSServer) → List DNSServer
  | none => servers
  | some qDNSServer => unlink qDNSServer servers ++ qDNSServer.take 1

/-- What `uDNS_CheckCurrentQuestion` does to the servers and to the server of the question,
when too many of its queries were not answered. -/
def nextServer (m : Mem) (qname : ℕ) (s : List DNSServer × Option (List DNSServer)) :
    List DNSServer × Option (List DNSServer) :=
  let servers := pushDNSServerToEnd s.1 s.2
  (servers, getServerForName servers m qname)

instance (s : DNSServer) (d : DomainName) : Decidable (s.Serves d) :=
  inferInstanceAs (Decidable (_ ∧ _))

/-- None of the servers serves the name with more labels. -/
def Best (d : DomainName) (s : DNSServer) : Prop :=
  s.Serves d ∧ ∀ t ∈ servers, t.Serves d → t.labelCount ≤ s.labelCount

instance (servers : List DNSServer) (d : DomainName) : DecidablePred (Best servers d) :=
  fun _ => inferInstanceAs (Decidable (_ ∧ _))

section Push

variable {servers l : List DNSServer} {k : ℕ}

theorem unlink_of_length_lt {q : List DNSServer} (h : l.length < q.length) : unlink q l = l := by
  induction l with
  | nil => rfl
  | cons p next ih =>
    rw [unlink, if_neg h.ne, ih (Nat.lt_of_succ_lt h)]

theorem unlink_append (before after : List DNSServer) (s : DNSServer) :
    unlink (s :: after) (before ++ s :: after) = before ++ after := by
  induction before with
  | nil => rw [nil_append, unlink, if_pos rfl, unlink_of_length_lt (Nat.lt_succ_self _), nil_append]
  | cons p before ih =>
    rw [cons_append, unlink, if_neg (by simp; omega), ih, cons_append]

theorem getServerForName_best (h : NameAt m p d) (hl : l.Perm servers) :
    getServerForName l m p = none ∧ l.filter (Best servers d) = [] ∨
      ∃ before s after, l = before ++ s :: after ∧ getServerForName l m p = some (s :: after) ∧
        Best servers d s ∧ before.filter (Best servers d) = [] := by
  have hstart : Chosen d [] l none := .inl ⟨rfl, nofun⟩
  rcases getServerFrom_chosen h hstart with ⟨heq, hnone⟩ | ⟨before, s, after, rfl, heq, hs, hb, ha⟩
  · exact .inl ⟨heq, by simpa using fun t ht hbest => hnone t ht hbest.1⟩
  · have hbest : Best servers d s := by
      refine ⟨hs, fun t ht hserves => ?_⟩
      rcases mem_append.mp (hl.mem_iff.mpr ht) with ht | ht
      · exact (hb t ht hserves).le
      · rcases mem_cons.mp ht with rfl | ht
        · exact le_rfl
        · exact ha t ht hserves
    have hbefore : before.filter (Best servers d) = [] := by
      refine filter_eq_nil_iff.mpr fun t ht hbest' => ?_
      have hbest' : Best servers d t := of_decide_eq_true hbest'
      have hmem : s ∈ servers := hl.mem_iff.mp (mem_append_right _ mem_cons_self)
      exact absurd (hbest'.2 s hmem hs) (hb t ht hbest'.1).not_ge
    exact .inr ⟨before, s, after, rfl, heq.trans (by rw [append_nil]), hbest, hbefore⟩

/-- The servers and the server of the question after `k` changes. -/
structure Round (servers : List DNSServer) (m : Mem) (p : ℕ) (d : DomainName) (k : ℕ)
    (s : List DNSServer × Option (List DNSServer)) : Prop where
  perm : s.1.Perm servers
  chosen : s.2 = getServerForName s.1 m p
  turn : s.1.filter (Best servers d) = (servers.filter (Best servers d)).rotate k

theorem Round.next {s : List DNSServer × Option (List DNSServer)} (h : NameAt m p d)
    (hs : Round servers m p d k s) : Round servers m p d (k + 1) (nextServer m p s) := by
  obtain ⟨l, q⟩ := s
  obtain rfl : q = getServerForName l m p := hs.chosen
  have hturn := hs.turn
  suffices hpush : (pushDNSServerToEnd l (getServerForName l m p)).Perm l ∧
      (pushDNSServerToEnd l (getServerForName l m p)).filter (Best servers d) =
        (l.filter (Best servers d)).rotate 1 from
    ⟨hpush.1.trans hs.perm, rfl, by rw [nextServer, hpush.2, hturn, rotate_rotate]⟩
  rcases getServerForName_best h hs.perm with ⟨heq, hnil⟩ |
    ⟨before, s, after, rfl, heq, hbest, hbefore⟩
  · rw [heq, hnil]
    exact ⟨.refl l, hnil⟩
  · have hpush : pushDNSServerToEnd (before ++ s :: after) (some (s :: after)) =
        before ++ (after ++ [s]) := by
      rw [pushDNSServerToEnd, unlink_append, append_assoc]
      rfl
    rw [heq, hpush]
    exact ⟨.append_left before (perm_append_singleton s after), by simp [hbefore, hbest]⟩

/-- The servers that serve the name of a question with the most labels take turns, in the
order of the list, whatever other servers stand between them, and none is lost. -/
theorem nextServer_turns (servers : List DNSServer) (m : Mem) (qname : ℕ) (d : DomainName)
    (h : NameAt m qname d) (k : ℕ) :
    let best := servers.filter (Best servers d)
    let s := (nextServer m qname)^[k] (servers, getServerForName servers m qname)
    s.1.Perm servers ∧ s.2.bind head? = best[k % best.length]? := by
  intro best s
  have hround : Round servers m qname d k s := by
    induction k with
    | zero => exact ⟨.refl servers, rfl, (rotate_zero _).symm⟩
    | succ k ih =>
      rw [show s = _ from Function.iterate_succ_apply' ..]
      exact ih.next h
  refine ⟨hround.perm, ?_⟩
  have hhead : s.2.bind head? = (best.rotate k).head? := by
    rw [hround.chosen, ← hround.turn]
    rcases getServerForName_best h hround.perm with ⟨heq, hnil⟩ |
      ⟨before, t, after, hl, heq, hbest, hbefore⟩
    · rw [heq, hnil]
      rfl
    · rw [heq, hl]
      simp [hbefore, hbest]
  rw [hhead, ← rotate_mod]
  rcases best.eq_nil_or_concat with hnil | ⟨_, _, hcons⟩
  · rw [hnil]
    rfl
  · exact head?_rotate (Nat.mod_lt _ (by simp [hcons]))

end Push

/-- After one change the second of the servers for `b.c` is asked. -/
theorem nextServer_turns_second : (nextServer (Mem.ofList abcName.bytes) 0 (abcServers,
      getServerForName abcServers (Mem.ofList abcName.bytes) 0)).2.bind head? =
        some (abcServer 1 5 false) :=
  (nextServer_turns abcServers _ 0 abcName (nameAt_ofList abcName) 1).2

end Hexley.Mdns
