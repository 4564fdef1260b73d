import Hexley.Lib.Expansion
import Hexley.Lib.Outcome
import Mathlib.Order.Nat

/-!
The dependency graph of a kernel extension.

A graph has an array of pointers to its entries, and each entry an array of
pointers to its direct dependencies. An entry is only ever made to be put at
the end of the graph, so that a pointer to it is its position there. The
arrays grow by doubling. The model keeps the capacity that the code goes by
and the number of cells that the last `malloc` has provided apart, since the
code sets the one before it knows of the other. A write to a cell that is
not there is a `fault`, and so is every use of an entry that was freed.

Whether a `malloc` succeeds is an input of each call.
-/

namespace Hexley.Kext

open Lib Outcome List

abbrev CString := List UInt8

/-- `dgraph_entry_t`, as far as the graph goes. -/
structure Entry where
  name : CString
  isKernelComponent : UInt8
  loadedAddress : ℕ
  dependenciesCapacity : ℕ
  dependenciesRoom : ℕ
  dependencies : List ℕ
  freed : Bool
  deriving DecidableEq

structure DGraph where
  capacity : ℕ
  room : ℕ
  graph : List Entry
  deriving DecidableEq

def initialCapacity : ℕ := 5

def kmodMaxName : ℕ := 64

def dgraphInit : DGraph := ⟨initialCapacity, initialCapacity, []⟩

/-- Which of the calls of `malloc` in `dgraph_add_dependent` succeed. -/
structure Mallocs where
  newgraph : Bool
  newEntry : Bool
  expectedKmodName : Bool
  expectedKmodVers : Bool
  name : Bool
  dependencies : Bool
  deriving DecidableEq

/-- The arguments that `dgraph_add_dependent` and `dgraph_add_dependency` have in common. -/
structure Kmod where
  name : CString
  expectedKmodName : CString
  loadAddress : ℕ
  isKernelComponent : UInt8
  deriving DecidableEq

namespace DGraph

def entry (g : DGraph) (p : ℕ) : Outcome Entry := do
  let e ← load g.graph p
  if e.freed then fault else pure e

def setEntry (g : DGraph) (p : ℕ) (e : Entry) : DGraph := { g with graph := g.graph.set p e }

end DGraph

/-- The loop of `dgraph_find_dependent` over the entries from the `i`-th on. -/
def findDependentFrom (name : CString) : List Entry → ℕ → Outcome (Option ℕ)
  | [], _ => pure none
  | e :: es, i =>
    if e.freed then fault
    else if name = e.name then pure (some i)
    else findDependentFrom name es (i + 1)

variable (g : DGraph)

def dgraphFindDependent (name : CString) : Outcome (Option ℕ) :=
  findDependentFrom name g.graph 0

variable (newlist : Bool) (mallocs : Mallocs) (p : ℕ) (kmod : Kmod)

/-- The part of `dgraph_add_dependent` for an entry that is there. -/
def updateDependent (p : ℕ) (found : Entry) : Option ℕ × DGraph :=
  if found.isKernelComponent ≠ kmod.isKernelComponent then (none, g)
  else if kmod.loadAddress = 0 then (some p, g)
  else if found.loadedAddress = 0 then
    (some p, g.setEntry p { found with loadedAddress := kmod.loadAddress })
  else if found.loadedAddress ≠ kmod.loadAddress then (none, g)
  else (some p, g)

def newEntry : Entry where
  name := kmod.name
  isKernelComponent := kmod.isKernelComponent
  loadedAddress := kmod.loadAddress
  dependenciesCapacity := initialCapacity
  dependenciesRoom := initialCapacity
  dependencies := []
  freed := false

/-- The part of `dgraph_add_dependent` that makes room for an entry. The flag says whether the
call goes on. -/
def growGraph : Outcome (Bool × DGraph) :=
  if g.graph.length = g.capacity then
    let g' := { g with capacity := g.capacity * 2 }
    if ¬mallocs.newgraph then pure (false, g')
    else if g.capacity > g.room then fault
    else pure (true, { g' with room := g'.capacity })
  else pure (true, g)

def appendDependent : Outcome (Option ℕ × DGraph) :=
  if kmod.expectedKmodName.length > kmodMaxName - 1 then pure (none, g)
  else if ¬mallocs.newEntry ∨ ¬mallocs.expectedKmodName ∨ ¬mallocs.expectedKmodVers ∨
      ¬mallocs.name then
    -- What has been allocated for the entry is freed again.
    pure (none, g)
  else if g.graph.length ≥ g.room then fault
  else if ¬mallocs.dependencies then
    -- The entry is freed, but it stays in the graph.
    pure (none, { g with graph := g.graph ++ [{ newEntry kmod with freed := true }] })
  else pure (some g.graph.length, { g with graph := g.graph ++ [newEntry kmod] })

def dgraphAddDependent : Outcome (Option ℕ × DGraph) := do
  match ← dgraphFindDependent g kmod.name with
  | some p => do
      let found ← g.entry p
      pure (updateDependent g kmod p found)
  | none => do
      let (more, g) ← growGraph g mallocs
      if more then appendDependent g mallocs kmod else pure (none, g)

def growDependencies : Outcome (Bool × DGraph) := do
  let e ← g.entry p
  if e.dependencies.length = e.dependenciesCapacity then
    let e' := { e with dependenciesCapacity := e.dependenciesCapacity * 2 }
    if ¬newlist then pure (false, g.setEntry p e')
    else if e.dependenciesCapacity > e.dependenciesRoom then fault
    else pure (true, g.setEntry p { e' with dependenciesRoom := e'.dependenciesCapacity })
  else pure (true, g)

def fillDependency (p dependency : ℕ) : Outcome (Option ℕ × DGraph) :=
  if dependency = p then pure (none, g)
  else do
    let e ← g.entry p
    if dependency ∈ e.dependencies then pure (some dependency, g)
    else if e.dependencies.length ≥ e.dependenciesRoom then fault
    else
      pure (some dependency, g.setEntry p { e with dependencies := e.dependencies ++ [dependency] })

def dgraphAddDependency : Outcome (Option ℕ × DGraph) := do
  let (more, g) ← growDependencies g newlist p
  if more then do
    let (dependency, g) ← dgraphAddDependent g mallocs kmod
    match dependency with
    | none => pure (none, g)
    | some dependency => fillDependency g p dependency
  else pure (none, g)

/-! ### Calls -/

inductive Call
  | dependent (mallocs : Mallocs) (kmod : Kmod)
  | dependency (newlist : Bool) (mallocs : Mallocs) (current : ℕ) (kmod : Kmod)

namespace Call

def run (g : DGraph) : Call → Outcome (Option ℕ × DGraph)
  | dependent mallocs kmod => dgraphAddDependent g mallocs kmod
  | dependency newlist mallocs current kmod => dgraphAddDependency g newlist mallocs current kmod

def Valid (g : DGraph) : Call → Prop
  | dependent _ _ => True
  | dependency _ _ current _ => current < g.graph.length

def Allocates : Call → Prop
  | dependent mallocs _ => mallocs.newgraph = true ∧ mallocs.dependencies = true
  | dependency newlist mallocs _ _ =>
    newlist = true ∧ mallocs.newgraph = true ∧ mallocs.dependencies = true

end Call

/-- The graphs that are built by calls that meet the condition. -/
inductive Built (allowed : Call → Prop) : DGraph → Prop
  | init : Built allowed dgraphInit
  | call {g g' : DGraph} {r : Option ℕ} (h : Built allowed g) (c : Call) (hvalid : c.Valid g)
      (hallowed : allowed c) (hrun : c.run g = .ok (r, g')) : Built allowed g'

/-! ### What every call keeps -/

/-- An entry whose arrays are what the code takes them for, in a graph of `n` entries. -/
structure Entry.Sound (n : ℕ) (e : Entry) : Prop where
  live : e.freed = false
  room : e.dependenciesCapacity = e.dependenciesRoom
  room_pos : 0 < e.dependenciesRoom
  length_le : e.dependencies.length ≤ e.dependenciesRoom
  lt : ∀ d ∈ e.dependencies, d < n

/-- A graph whose arrays are what the code takes them for. -/
structure DGraph.Sound (g : DGraph) : Prop where
  room : g.capacity = g.room
  room_pos : 0 < g.room
  length_le : g.graph.length ≤ g.room
  entry : ∀ e ∈ g.graph, e.Sound g.graph.length

section Sound

variable {g : DGraph} {p : ℕ} {e : Entry} {mallocs : Mallocs} {kmod : Kmod}

theorem sound_dgraphInit : dgraphInit.Sound := ⟨rfl, by decide, by decide, nofun⟩

theorem Entry.Sound.mono {n n' : ℕ} (h : e.Sound n) (hn : n ≤ n') : e.Sound n' :=
  ⟨h.live, h.room, h.room_pos, h.length_le, fun d hd => (h.lt d hd).trans_le hn⟩

theorem DGraph.Sound.entry_eq (h : g.Sound) (hp : g.graph[p]? = some e) : g.entry p = .ok e := by
  have hlive := (h.entry e (mem_of_getElem? hp)).live
  rw [DGraph.entry, load_eq_ok hp, ok_bind, hlive]
  rfl

theorem DGraph.Sound.setEntry (h : g.Sound) (he : e.Sound g.graph.length) :
    (g.setEntry p e).Sound := by
  have hlen : (g.setEntry p e).graph.length = g.graph.length := length_set
  refine ⟨h.room, h.room_pos, hlen ▸ h.length_le, fun e' he' => ?_⟩
  rw [hlen]
  rcases mem_or_eq_of_mem_set he' with he' | rfl
  · exact h.entry e' he'
  · exact he

theorem ensures_findFrom {n : ℕ} (name : CString) {es : List Entry} (i : ℕ)
    (h : ∀ e ∈ es, e.Sound n) :
    ∃ r, findDependentFrom name es i = .ok r ∧ ∀ p, r = some p → i ≤ p ∧ p < i + es.length := by
  induction es generalizing i with
  | nil => exact ⟨none, rfl, nofun⟩
  | cons e es ih =>
    have hlive := (h e mem_cons_self).live
    rw [findDependentFrom, hlive, if_neg Bool.false_ne_true, length_cons]
    split
    · refine ⟨some i, rfl, ?_⟩
      rintro p ⟨⟩
      omega
    · obtain ⟨r, hr, hp⟩ := ih (i + 1) (forall_mem_cons.mp h).2
      refine ⟨r, hr, fun p hrp => ?_⟩
      have := hp p hrp
      omega

/-- What a call hands back: a sound graph, at least as large, and an entry of it or nothing. -/
def Good (n : ℕ) (x : Option ℕ × DGraph) : Prop :=
  x.2.Sound ∧ n ≤ x.2.graph.length ∧ ∀ p, x.1 = some p → p < x.2.graph.length

def SameLists (g g' : DGraph) : Prop :=
  ∀ (p : ℕ) (e : Entry), g.graph[p]? = some e → ∃ e', g'.graph[p]? = some e' ∧
    e'.dependencies = e.dependencies ∧ e'.dependenciesRoom = e.dependenciesRoom

theorem SameLists.refl (g : DGraph) : SameLists g g := fun _ e he => ⟨e, he, rfl, rfl⟩

theorem sameLists_setEntry {e' : Entry} (hp : g.graph[p]? = some e)
    (hdeps : e'.dependencies = e.dependencies) (hroom : e'.dependenciesRoom = e.dependenciesRoom) :
    SameLists g (g.setEntry p e') := by
  intro q f hf
  have hlt : p < g.graph.length := (List.getElem?_eq_some_iff.mp hp).1
  change ∃ f', (g.graph.set p e')[q]? = some f' ∧ _
  by_cases hq : p = q
  · subst hq
    cases hp.symm.trans hf
    exact ⟨e', getElem?_set_self hlt, hdeps, hroom⟩
  · rw [getElem?_set_ne hq]
    exact ⟨f, hf, rfl, rfl⟩

theorem sameLists_update (hp : g.graph[p]? = some e) :
    SameLists g (updateDependent g kmod p e).2 := by
  unfold updateDependent
  split
  · exact .refl g
  split
  · exact .refl g
  split
  · exact sameLists_setEntry hp rfl rfl
  split
  · exact .refl g
  · exact .refl g

theorem good_updateDependent (h : g.Sound) (hp : g.graph[p]? = some e) :
    Good g.graph.length (updateDependent g kmod p e) := by
  have hlt : p < g.graph.length := (List.getElem?_eq_some_iff.mp hp).1
  have he := h.entry e (mem_of_getElem? hp)
  have hnone : Good g.graph.length (none, g) := ⟨h, le_rfl, nofun⟩
  have hsome : Good g.graph.length (some p, g) := by
    refine ⟨h, le_rfl, ?_⟩
    rintro q ⟨⟩
    exact hlt
  unfold updateDependent
  split
  · exact hnone
  split
  · exact hsome
  split
  · have hlen : (g.setEntry p { e with loadedAddress := kmod.loadAddress }).graph.length =
        g.graph.length := length_set
    refine ⟨h.setEntry ⟨he.live, he.room, he.room_pos, he.length_le, he.lt⟩, hlen.ge, ?_⟩
    rintro q ⟨⟩
    exact hlt.trans_eq hlen.symm
  split
  · exact hnone
  · exact hsome

theorem growGraph_eq (h : g.Sound) (hmalloc : mallocs.newgraph = true) :
    ∃ g', growGraph g mallocs = .ok (true, g') ∧ g'.Sound ∧ g'.graph = g.graph ∧
      g'.graph.length < g'.room := by
  have hroom := h.room
  have hpos := h.room_pos
  have hle := h.length_le
  unfold growGraph
  by_cases hfull : g.graph.length = g.capacity
  · rw [if_pos hfull, if_neg (not_not.mpr hmalloc), if_neg (by omega)]
    refine ⟨_, rfl, ⟨rfl, ?_, ?_, h.entry⟩, rfl, ?_⟩
    · change 0 < g.capacity * 2
      omega
    · change g.graph.length ≤ g.capacity * 2
      omega
    · change g.graph.length < g.capacity * 2
      omega
  · rw [if_neg hfull]
    exact ⟨g, rfl, h, rfl, by omega⟩

theorem sound_newEntry (n : ℕ) : (newEntry kmod).Sound n :=
  ⟨rfl, rfl, show 0 < initialCapacity by decide, Nat.zero_le _, nofun⟩

theorem ensures_appendDependent (h : g.Sound) (hroom : g.graph.length < g.room)
    (hmalloc : mallocs.dependencies = true) :
    ∃ x, appendDependent g mallocs kmod = .ok x ∧ Good g.graph.length x ∧ SameLists g x.2 := by
  have hnone : Good g.graph.length (none, g) := ⟨h, le_rfl, nofun⟩
  unfold appendDependent
  split
  · exact ⟨_, rfl, hnone, .refl g⟩
  split
  · exact ⟨_, rfl, hnone, .refl g⟩
  rw [if_neg (not_le.mpr hroom)]
  have hlen : (g.graph ++ [newEntry kmod]).length = g.graph.length + 1 := by
    rw [length_append, length_singleton]
  refine ⟨_, rfl, ⟨⟨h.room, h.room_pos, ?_, fun e he => ?_⟩, ?_, ?_⟩, fun p e he => ?_⟩
  · exact hlen.trans_le hroom
  · rw [hlen]
    rcases List.mem_append.mp he with he | he
    · exact (h.entry e he).mono (Nat.le_succ _)
    · rw [List.mem_singleton.mp he]
      exact sound_newEntry _
  · rw [hlen]
    exact Nat.le_succ _
  · rintro p ⟨⟩
    rw [hlen]
    exact Nat.lt_succ_self _
  · have hlt : p < g.graph.length := (List.getElem?_eq_some_iff.mp he).1
    exact ⟨e, by rw [getElem?_append_left hlt, he], rfl, rfl⟩

theorem ensures_addDependent (h : g.Sound)
    (hgraph : mallocs.newgraph = true) (hdeps : mallocs.dependencies = true) :
    ∃ x, dgraphAddDependent g mallocs kmod = .ok x ∧ Good g.graph.length x ∧ SameLists g x.2 := by
  obtain ⟨r, hr, hfound⟩ := ensures_findFrom kmod.name 0 h.entry
  unfold dgraphAddDependent dgraphFindDependent
  rw [hr, ok_bind]
  cases r with
  | some p =>
    obtain ⟨-, hlt⟩ := hfound p rfl
    rw [Nat.zero_add] at hlt
    have hp : g.graph[p]? = some g.graph[p] := getElem?_eq_getElem hlt
    dsimp only
    rw [h.entry_eq hp, ok_bind]
    exact ⟨_, rfl, good_updateDependent h hp, sameLists_update hp⟩
  | none =>
    obtain ⟨g', hg', hsound, hsame, hroom⟩ := growGraph_eq h hgraph
    obtain ⟨x, hx, hgood, hlists⟩ := ensures_appendDependent hsound hroom hdeps
    rw [hsame] at hgood
    unfold SameLists at hlists ⊢
    rw [hsame] at hlists
    rw [hg', ok_bind]
    exact ⟨x, hx, hgood, hlists⟩

theorem growDependencies_eq (h : g.Sound) (hp : p < g.graph.length) :
    ∃ g', growDependencies g true p = .ok (true, g') ∧ g'.Sound ∧
      ∃ e, g'.graph[p]? = some e ∧ e.dependencies.length < e.dependenciesRoom := by
  have hget : g.graph[p]? = some g.graph[p] := getElem?_eq_getElem hp
  have he := h.entry _ (mem_of_getElem? hget)
  have hroom := he.room
  have hpos := he.room_pos
  have hle := he.length_le
  rw [growDependencies, h.entry_eq hget, ok_bind]
  by_cases hfull : g.graph[p].dependencies.length = g.graph[p].dependenciesCapacity
  · rw [if_pos hfull, if_neg (not_not.mpr rfl), if_neg (by omega)]
    refine ⟨_, rfl, h.setEntry ⟨he.live, rfl, ?_, ?_, he.lt⟩, _, getElem?_set_self hp, ?_⟩
    · change 0 < g.graph[p].dependenciesCapacity * 2
      omega
    · change g.graph[p].dependencies.length ≤ g.graph[p].dependenciesCapacity * 2
      omega
    · change g.graph[p].dependencies.length < g.graph[p].dependenciesCapacity * 2
      omega
  · rw [if_neg hfull]
    exact ⟨g, rfl, h, _, hget, by omega⟩

theorem ensures_fillDependency {d : ℕ} (h : g.Sound) (he : g.graph[p]? = some e)
    (hroom : e.dependencies.length < e.dependenciesRoom) (hd : d < g.graph.length) :
    ∃ x, fillDependency g p d = .ok x ∧ x.2.Sound := by
  have hsound := h.entry e (mem_of_getElem? he)
  unfold fillDependency
  split
  · exact ⟨_, rfl, h⟩
  rw [h.entry_eq he, ok_bind]
  split
  · exact ⟨_, rfl, h⟩
  rw [if_neg (not_le.mpr hroom)]
  refine ⟨_, rfl, h.setEntry ⟨hsound.live, hsound.room, hsound.room_pos, ?_, ?_⟩⟩
  · rw [length_append]
    exact hroom
  · intro d' hd'
    rcases List.mem_append.mp hd' with hd' | hd'
    · exact hsound.lt d' hd'
    · rw [List.mem_singleton.mp hd']
      exact hd

theorem ensures_addDependency (h : g.Sound) (hp : p < g.graph.length)
    (hgraph : mallocs.newgraph = true) (hdeps : mallocs.dependencies = true) :
    ∃ x, dgraphAddDependency g true mallocs p kmod = .ok x ∧ x.2.Sound := by
  obtain ⟨g₁, hg₁, hsound₁, e, he, hroom⟩ := growDependencies_eq h hp
  obtain ⟨⟨r, g₂⟩, hg₂, ⟨hsound₂, -, hlt⟩, hlists⟩ := ensures_addDependent hsound₁ hgraph hdeps
  unfold dgraphAddDependency
  rw [hg₁, ok_bind]
  dsimp only
  rw [if_pos rfl, hg₂, ok_bind]
  cases r with
  | none => exact ⟨_, rfl, hsound₂⟩
  | some d =>
    -- The call that found the dependency has left the list of the dependent alone.
    obtain ⟨e', he', hsame, hsame'⟩ := hlists p e he
    rw [← hsame, ← hsame'] at hroom
    exact ensures_fillDependency hsound₂ he' hroom (hlt d rfl)

theorem ensures_run (h : g.Sound) {c : Call} (hvalid : c.Valid g) (halloc : c.Allocates) :
    ∃ x, c.run g = .ok x ∧ x.2.Sound := by
  cases c with
  | dependent mallocs kmod =>
    obtain ⟨x, hx, hgood, -⟩ := ensures_addDependent h halloc.1 halloc.2
    exact ⟨x, hx, hgood.1⟩
  | dependency newlist mallocs current kmod =>
    obtain ⟨rfl, hgraph, hdeps⟩ := halloc
    exact ensures_addDependency h hvalid hgraph hdeps

theorem Built.sound (h : Built Call.Allocates g) : g.Sound := by
  induction h with
  | init => exact sound_dgraphInit
  | call h c hvalid hallowed hrun ih =>
    obtain ⟨x, hx, hsound⟩ := ensures_run ih hvalid hallowed
    rw [hrun] at hx
    cases hx
    exact hsound

end Sound

end Hexley.Kext
