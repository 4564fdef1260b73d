import Hexley.Kext.Graph
import Mathlib.Data.List.Perm.Subperm

/-!
The order in which the entries of a dependency graph are loaded.

`dgraph_establish_load_order` expands a list from the root of the graph,
with an entry as often as it comes up, and then reads the list backwards and
drops what it has already. The buffer for the list starts with a cell for
every entry and every dependency of the graph and is doubled when the
dependencies of an entry do not fit. Doubling once is enough, because no
entry has more dependencies than the buffer had cells at the start.

A circle of dependencies makes the list grow without end. The code gives up
on lists of more than 255 entries, which also refuses graphs without a
circle that have too many paths.
-/

namespace Hexley.Kext

open Lib Outcome List

/-! ### The root -/

/-- The inner loops of `dgraph_find_root`: no entry from the `i`-th on, other than the
candidate itself, depends on the candidate. -/
def isCandidateFrom (candidate : ℕ) : List Entry → ℕ → Outcome Bool
  | [], _ => pure true
  | e :: es, i =>
    if candidate = i then isCandidateFrom candidate es (i + 1)
    else if e.freed then fault
    else if candidate ∈ e.dependencies then pure false
    else isCandidateFrom candidate es (i + 1)

/-- The outer loop of `dgraph_find_root`. A second root is an error. -/
def findRootFrom (g : DGraph) : List ℕ → Option ℕ → Outcome (Option ℕ)
  | [], root => pure root
  | candidate :: candidates, root => do
      let isCandidate ← isCandidateFrom candidate g.graph 0
      if isCandidate then
        if root.isSome then pure none else findRootFrom g candidates (some candidate)
      else findRootFrom g candidates root

def dgraphFindRoot (g : DGraph) : Outcome (Option ℕ) :=
  findRootFrom g (range g.graph.length) none

/-! ### The order -/

/-- Which of the allocations of `dgraph_establish_load_order` succeed. -/
structure OrderMallocs where
  backwardLoadOrder : Bool
  /-- The call of `realloc` when the entry at the given position is scanned. -/
  realloc : ℕ → Bool
  loadOrder : Bool

/-- The dependencies of an entry are put at the end of the list, which has `room` cells. -/
def appendDependencies (room : ℕ) : List ℕ → List ℕ → Outcome (List ℕ)
  | [], list => pure list
  | d :: ds, list => if list.length < room then appendDependencies room ds (list ++ [d]) else fault

def maxListLength : ℕ := 255

/-- The loop of `fill_backward_load_order`. A list of more than 255 entries is refused, so that
there are at most 256 turns. -/
def fillBackwardFrom (g : DGraph) (realloc : ℕ → Bool) : ℕ → ℕ → ℕ → List ℕ → Outcome (List ℕ)
  | 0, scanIndex, _, list => if scanIndex < list.length then failed else pure list
  | turns + 1, scanIndex, listLength, list =>
    if scanIndex < list.length then
      if list.length > maxListLength then failed
      else do
        let p ← load list scanIndex
        let scanEntry ← g.entry p
        let listLength ←
          if list.length + scanEntry.dependencies.length > listLength then
            if realloc scanIndex then pure (listLength * 2) else failed
          else pure listLength
        let list ← appendDependencies listLength scanEntry.dependencies list
        fillBackwardFrom g realloc turns (scanIndex + 1) listLength list
    else pure list

def fillBackwardLoadOrder (g : DGraph) (realloc : ℕ → Bool) (listLength firstEntry : ℕ) :
    Outcome (List ℕ) :=
  if listLength = 0 then failed
  else fillBackwardFrom g realloc (maxListLength + 1) 0 listLength [firstEntry]

def countDependencies : List Entry → ℕ → Outcome ℕ
  | [], total => pure total
  | e :: es, total =>
    if e.freed then fault else countDependencies es (total + e.dependencies.length)

/-- The loop that puts the entries of the backward list into the order, which has `room`
cells. -/
def reverseInto (room : ℕ) : List ℕ → List ℕ → Outcome (List ℕ)
  | [], order => pure order
  | e :: es, order =>
    if e ∈ order then reverseInto room es order
    else if order.length < room then reverseInto room es (order ++ [e])
    else fault

/-- `dgraph_establish_load_order` for a graph with the given root: the cells of `load_order`,
those that are not filled being null. -/
def dgraphEstablishLoadOrder (g : DGraph) (root : ℕ) (mallocs : OrderMallocs) :
    Outcome (List (Option ℕ)) := do
  let total ← countDependencies g.graph g.graph.length
  if total = 0 then pure []
  else if ¬mallocs.backwardLoadOrder then failed
  else do
    let backward ← fillBackwardLoadOrder g mallocs.realloc total root
    if ¬mallocs.loadOrder then failed
    else do
      let order ← reverseInto g.graph.length backward.reverse []
      pure (order.map some ++ replicate (g.graph.length - order.length) none)

def DGraph.deps (g : DGraph) (p : ℕ) : List ℕ := (g.graph[p]?.map Entry.dependencies).getD []

section Root

variable {g : DGraph}

theorem isCandidateFrom_eq_ok {n : ℕ} (candidate : ℕ) {es : List Entry} (i : ℕ)
    (h : ∀ e ∈ es, e.Sound n) : ∃ b, isCandidateFrom candidate es i = .ok b := by
  induction es generalizing i with
  | nil => exact ⟨true, rfl⟩
  | cons e es ih =>
    have hrest := ih (i + 1) (forall_mem_cons.mp h).2
    rw [isCandidateFrom, (h e mem_cons_self).live, if_neg Bool.false_ne_true]
    split
    · exact hrest
    · split
      · exact ⟨false, rfl⟩
      · exact hrest

theorem findRootFrom_eq_ok (h : g.Sound) {candidates : List ℕ} (root : Option ℕ) {P : ℕ → Prop}
    (hroot : ∀ p, root = some p → P p) (hP : ∀ p ∈ candidates, P p) :
    ∃ r, findRootFrom g candidates root = .ok r ∧ ∀ p, r = some p → P p := by
  induction candidates generalizing root with
  | nil => exact ⟨root, rfl, hroot⟩
  | cons c cs ih =>
    have hP' : ∀ p ∈ cs, P p := (forall_mem_cons.mp hP).2
    obtain ⟨b, hb⟩ := isCandidateFrom_eq_ok c 0 h.entry
    rw [findRootFrom, hb, ok_bind]
    cases b with
    | false => exact ih root hroot hP'
    | true =>
      cases root with
      | some q => exact ⟨none, rfl, nofun⟩
      | none =>
        refine ih (some c) ?_ hP'
        rintro p ⟨⟩
        exact hP c mem_cons_self

theorem dgraphFindRoot_eq_ok (h : g.Sound) :
    ∃ r, dgraphFindRoot g = .ok r ∧ ∀ p, r = some p → p < g.graph.length :=
  findRootFrom_eq_ok h none nofun fun _ hp => mem_range.mp hp

end Root

section Order

variable {g : DGraph} {root : ℕ}

theorem DGraph.deps_eq {p : ℕ} {e : Entry} (hp : g.graph[p]? = some e) :
    g.deps p = e.dependencies := by
  rw [DGraph.deps, hp]
  rfl

theorem countDependencies_eq {n : ℕ} {es : List Entry} (total : ℕ) (h : ∀ e ∈ es, e.Sound n) :
    countDependencies es total = .ok (total + (es.map fun e => e.dependencies.length).sum) := by
  induction es generalizing total with
  | nil => rfl
  | cons e es ih =>
    rw [countDependencies, (h e mem_cons_self).live, if_neg Bool.false_ne_true,
      ih _ (forall_mem_cons.mp h).2, map_cons, sum_cons, add_assoc]

theorem appendDependencies_eq {room : ℕ} {ds list : List ℕ} (h : list.length + ds.length ≤ room) :
    appendDependencies room ds list = .ok (list ++ ds) := by
  induction ds generalizing list with
  | nil => rw [appendDependencies, append_nil]; rfl
  | cons d ds ih =>
    rw [length_cons] at h
    rw [appendDependencies, if_pos (by omega),
      ih (by rw [length_append, length_singleton]; omega), append_assoc]
    rfl

/-- What can come of the loop: a list that was scanned to its end, or a failure because the buffer
could not be grown or because there are too many paths. -/
def Fills (g : DGraph) (root : ℕ) (realloc : ℕ → Bool) (x : Outcome (List ℕ)) : Prop :=
  (∃ list, x = .ok list ∧ Expansion g.deps root list.length list ∧
    (∀ p ∈ list, p < g.graph.length) ∧ list.length ≤ maxListLength) ∨
  x = failed ∧ ((∃ i, realloc i = false) ∨ ∃ n, maxListLength < pathCount g.deps n [root])

theorem fills_fillBackward (h : g.Sound) (realloc : ℕ → Bool) (turns : ℕ) {k room : ℕ}
    {list : List ℕ} (hlist : Expansion g.deps root k list) (hlt : ∀ p ∈ list, p < g.graph.length)
    (hroom : list.length ≤ room) (hmax : ∀ e ∈ g.graph, e.dependencies.length ≤ room)
    (hturns : maxListLength < k + turns)
    (hmore : k < list.length ∨ list.length ≤ maxListLength) :
    Fills g root realloc (fillBackwardFrom g realloc turns k room list) := by
  have hlong (hlong : list.length > maxListLength) : Fills g root realloc failed :=
    .inr ⟨rfl, .inr ⟨_, hlong.trans_le hlist.length_le⟩⟩
  have hle := hlist.le_length
  induction turns generalizing k room list with
  | zero =>
    rw [fillBackwardFrom, if_pos (by omega)]
    exact hlong (by omega)
  | succ turns ih =>
    rw [fillBackwardFrom]
    split
    swap
    · next hend =>
      have hk : k = list.length := le_antisymm hle (not_lt.mp hend)
      exact .inl ⟨list, rfl, hk ▸ hlist, hlt, hmore.resolve_left hend⟩
    next hscan =>
    split
    · next hgt => exact hlong hgt
    have hp : list[k] < g.graph.length := hlt _ (getElem_mem hscan)
    have he : g.graph[list[k]]? = some g.graph[list[k]] := getElem?_eq_getElem hp
    have hmem : g.graph[list[k]] ∈ g.graph := getElem_mem hp
    rw [load_eq_ok (getElem?_eq_getElem hscan), ok_bind, h.entry_eq he, ok_bind]
    have hnext : Expansion g.deps root (k + 1) (list ++ g.graph[list[k]].dependencies) := by
      rw [← DGraph.deps_eq he]
      exact .scan hlist (getElem?_eq_getElem hscan)
    have hlt' : ∀ q ∈ list ++ g.graph[list[k]].dependencies, q < g.graph.length := by
      intro q hq
      rcases mem_append.mp hq with hq | hq
      · exact hlt q hq
      · exact (h.entry _ hmem).lt q hq
    have hdeps := hmax _ hmem
    -- With the buffer as it is or doubled, the dependencies fit.
    have hgo {room' : ℕ} (hle' : room ≤ room')
        (hfit : list.length + g.graph[list[k]].dependencies.length ≤ room') :
        Fills g root realloc (do
          let list ← appendDependencies room' g.graph[list[k]].dependencies list
          fillBackwardFrom g realloc turns (k + 1) room' list) := by
      rw [appendDependencies_eq hfit, ok_bind]
      have hlen : (list ++ g.graph[list[k]].dependencies).length = _ := length_append
      exact ih hnext hlt' (by omega) (fun e he => (hmax e he).trans hle') (by omega) (by omega)
        (fun hgt => .inr ⟨rfl, .inr ⟨_, hgt.trans_le hnext.length_le⟩⟩) hnext.le_length
    split
    · split
      · exact hgo (by omega) (by omega)
      · next hrealloc => exact .inr ⟨rfl, .inl ⟨k, eq_false_of_ne_true hrealloc⟩⟩
    · exact hgo le_rfl (by omega)

theorem reverseInto_eq {n : ℕ} {es order : List ℕ} (hnodup : order.Nodup)
    (horder : ∀ p ∈ order, p < n) (hes : ∀ p ∈ es, p < n) :
    reverseInto n es order = .ok (keepFirst order es) ∧ (keepFirst order es).length ≤ n := by
  have hbound {l : List ℕ} (hl : l.Nodup) (hlt : ∀ p ∈ l, p < n) : l.length ≤ n := by
    have hsub : l ⊆ range n := fun p hp => mem_range.mpr (hlt p hp)
    have := (hl.subperm hsub).length_le
    rwa [length_range] at this
  induction es generalizing order with
  | nil => exact ⟨rfl, hbound hnodup horder⟩
  | cons e es ih =>
    have hes' : ∀ p ∈ es, p < n := (forall_mem_cons.mp hes).2
    rw [reverseInto, keepFirst]
    split
    · exact ih hnodup horder hes'
    · next hnew =>
      have hnodup' : (order ++ [e]).Nodup :=
        nodup_append_comm.mp (nodup_cons.mpr ⟨hnew, hnodup⟩)
      have horder' : ∀ p ∈ order ++ [e], p < n := by
        intro p hp
        rcases mem_append.mp hp with hp | hp
        · exact horder p hp
        · rw [mem_singleton.mp hp]
          exact hes e mem_cons_self
      have hlen := hbound hnodup' horder'
      rw [length_append, length_singleton] at hlen
      rw [if_pos (Nat.lt_of_succ_le hlen)]
      exact ih hnodup' horder' hes'

/-- The order that is established, in an array with a cell for every entry. -/
def Establishes (g : DGraph) (root : ℕ) (loadOrder : List (Option ℕ)) : Prop :=
  ∃ order, loadOrder = order.map some ++ replicate (g.graph.length - order.length) none ∧
    order.length ≤ g.graph.length ∧ IsLoadOrder g.deps root order

theorem establish_cases (h : g.Sound) (hroot : root < g.graph.length) (mallocs : OrderMallocs) :
    (∃ loadOrder, dgraphEstablishLoadOrder g root mallocs = .ok loadOrder ∧
      Establishes g root loadOrder ∧ ∀ n, pathCount g.deps n [root] ≤ maxListLength) ∨
    dgraphEstablishLoadOrder g root mallocs = failed ∧ (mallocs = ⟨true, fun _ => true, true⟩ →
      ∃ n, maxListLength < pathCount g.deps n [root]) := by
  rw [dgraphEstablishLoadOrder, countDependencies_eq _ h.entry, ok_bind]
  set total := g.graph.length + (g.graph.map fun e => e.dependencies.length).sum with htotal
  have hmax : ∀ e ∈ g.graph, e.dependencies.length ≤ total := by
    intro e he
    have := single_le_sum (fun _ _ => Nat.zero_le _) _
      (mem_map_of_mem (f := fun e : Entry => e.dependencies.length) he)
    omega
  rw [if_neg (by omega)]
  split
  · next hmalloc => exact .inr ⟨rfl, by rintro rfl; exact absurd rfl hmalloc⟩
  rw [fillBackwardLoadOrder, if_neg (by omega)]
  have hstart : [root].length ≤ total := by
    rw [length_singleton]
    omega
  obtain ⟨list, hfill, hexp, hlt, hlen⟩ | ⟨hfill, hwhy⟩ :=
    fills_fillBackward h mallocs.realloc (maxListLength + 1) .start
      (fun p hp => by rwa [mem_singleton.mp hp]) hstart hmax (by omega)
      (.inl (length_pos_of_mem mem_cons_self))
  · rw [hfill, ok_bind]
    split
    · next hmalloc => exact .inr ⟨rfl, by rintro rfl; exact absurd rfl hmalloc⟩
    obtain ⟨horder, hle⟩ := reverseInto_eq nodup_nil nofun fun p hp => hlt p (mem_reverse.mp hp)
    rw [horder, ok_bind]
    exact .inl ⟨_, rfl, ⟨_, rfl, hle, hexp.isLoadOrder⟩, fun n => (hexp.pathCount_le n).trans hlen⟩
  · rw [hfill]
    refine .inr ⟨rfl, ?_⟩
    rintro rfl
    exact hwhy.resolve_left fun ⟨i, hi⟩ => nomatch hi

end Order

/-- For every graph that is built by calls whose arrays are allocated: no further call of this
kind writes outside of an array; a root that is found is an entry of the graph; and the load
order of an entry is established in its array, or the function fails, as it does if there is
a circle. -/
theorem load_order_sound {g : DGraph} (h : Built Call.Allocates g) :
    (∀ c : Call, c.Valid g → c.Allocates → ∃ x, c.run g = .ok x) ∧
    (∃ r, dgraphFindRoot g = .ok r ∧ ∀ p, r = some p → p < g.graph.length) ∧
    ∀ root, root < g.graph.length → ∀ mallocs,
      (dgraphEstablishLoadOrder g root mallocs).Ensures (Establishes g root) ∧
      ((∃ e, Relation.ReflTransGen (DependsOn g.deps) root e ∧
          Relation.TransGen (DependsOn g.deps) e e) →
        dgraphEstablishLoadOrder g root mallocs = failed) := by
  have hsound := h.sound
  refine ⟨fun c hvalid halloc => ?_, dgraphFindRoot_eq_ok hsound, fun root hroot mallocs => ?_⟩
  · obtain ⟨x, hx, -⟩ := ensures_run hsound hvalid halloc
    exact ⟨x, hx⟩
  obtain ⟨loadOrder, hok, hestablishes, -⟩ | ⟨hfailed, -⟩ := establish_cases hsound hroot mallocs
  · rw [hok]
    refine ⟨hestablishes, ?_⟩
    rintro ⟨e, hreach, hcycle⟩
    obtain ⟨order, -, -, horder⟩ := hestablishes
    exact absurd hcycle (horder.acyclic ((horder.mem_iff e).mpr hreach))
  · rw [hfailed]
    exact ⟨trivial, fun _ => rfl⟩

def allMallocs : Mallocs := ⟨true, true, true, true, true, true⟩

def letterKmod (letter : UInt8) : Kmod := ⟨[letter], [letter], 0, 0⟩

def pairGraph : DGraph :=
  { capacity := 5, room := 5,
    graph := [{ newEntry (letterKmod 97) with dependencies := [1] }, newEntry (letterKmod 98)] }

theorem built_pairGraph : Built Call.Allocates pairGraph := by
  have hfirst : Built Call.Allocates ⟨5, 5, [newEntry (letterKmod 97)]⟩ :=
    .call .init (.dependent allMallocs (letterKmod 97)) trivial ⟨rfl, rfl⟩ (r := some 0) rfl
  exact .call hfirst (.dependency true allMallocs 0 (letterKmod 98)) Nat.zero_lt_one
    ⟨rfl, rfl, rfl⟩ (r := some 1) (by decide)

/-- `b` is loaded before `a`. -/
theorem pairGraph_load_order :
    dgraphEstablishLoadOrder pairGraph 0 ⟨true, fun _ => true, true⟩ = .ok [some 1, some 0] ∧
      Establishes pairGraph 0 [some 1, some 0] := by
  have hresult :
      dgraphEstablishLoadOrder pairGraph 0 ⟨true, fun _ => true, true⟩ = .ok [some 1, some 0] := by
    decide +kernel
  have h := ((load_order_sound built_pairGraph).2.2 0 (by decide) ⟨true, fun _ => true, true⟩).1
  exact ⟨hresult, h⟩

def letterGraph (n : ℕ) : DGraph :=
  { capacity := 5, room := 5,
    graph := (range n).map fun i => newEntry (letterKmod (UInt8.ofNat (97 + i))) }

theorem run_letterGraph : ∀ i < 5,
    (Call.dependent allMallocs (letterKmod (UInt8.ofNat (97 + i)))).run (letterGraph i) =
      .ok (some i, letterGraph (i + 1)) := by
  decide +kernel

theorem built_letterGraph {n : ℕ} (hn : n ≤ 5) : Built (fun _ => True) (letterGraph n) := by
  induction n with
  | zero => exact .init
  | succ n ih =>
    have hrun := run_letterGraph n hn
    exact .call (ih (Nat.le_of_succ_le hn)) (.dependent _ _) trivial trivial hrun

/-- If the array for a sixth entry is not allocated, the capacity is doubled all the same, and
the next call writes behind the array that is still there. -/
theorem failed_growth_faults : Built (fun _ => True) { letterGraph 5 with capacity := 10 } ∧
      (Call.dependent allMallocs (letterKmod 103)).run { letterGraph 5 with capacity := 10 } =
        fault := by
  have hfailing : (Call.dependent { allMallocs with newgraph := false } (letterKmod 102)).run
      (letterGraph 5) = .ok (none, { letterGraph 5 with capacity := 10 }) := by
    decide +kernel
  exact ⟨.call (built_letterGraph le_rfl) (.dependent _ _) trivial trivial hfailing,
    by decide +kernel⟩

/-! ### Graphs with too many paths -/

/-- The load order of the graph is established, if memory suffices. -/
def GivesLoadOrder (g : DGraph) (root : ℕ) : Prop :=
  ∃ order, dgraphEstablishLoadOrder g root ⟨true, fun _ => true, true⟩ = .ok order ∧
    Establishes g root order

/-- For every graph that is built by calls whose arrays are allocated: the load order is
established exactly if there are at most 255 paths from the root, few as the entries may be. -/
theorem givesLoadOrder_iff_paths {g : DGraph} {root : ℕ} (h : Built Call.Allocates g)
    (hroot : root < g.graph.length) :
    GivesLoadOrder g root ↔ ∀ n, pathCount g.deps n [root] ≤ 255 := by
  obtain ⟨order, hok, hestablishes, hle⟩ | ⟨hfailed, hmany⟩ :=
    establish_cases h.sound hroot ⟨true, fun _ => true, true⟩
  · exact iff_of_true ⟨order, hok, hestablishes⟩ hle
  · obtain ⟨n, hn⟩ := hmany rfl
    refine iff_of_false ?_ fun hle => absurd (hle n) (not_le.mpr hn)
    rintro ⟨order, hok, -⟩
    cases hfailed.symm.trans hok

theorem pairGraph_givesLoadOrder_iff : 0 < pairGraph.graph.length ∧
    (GivesLoadOrder pairGraph 0 ↔ ∀ n, pathCount pairGraph.deps n [0] ≤ 255) :=
  ⟨by decide, givesLoadOrder_iff_paths built_pairGraph (by decide)⟩

def ladderCall : ℕ → Call
  | 0 => .dependent allMallocs (letterKmod 0)
  | i + 1 => .dependency true allMallocs (i / 2) (letterKmod (UInt8.ofNat (i / 2 + 1 + i % 2)))

def ladder : ℕ → DGraph
  | 0 => dgraphInit
  | i + 1 =>
    match (ladderCall i).run (ladder i) with
    | .ok (_, g) => g
    | _ => ladder i

theorem lt_length_ladder : ∀ i < 22, i / 2 < (ladder (i + 1)).graph.length := by decide +kernel

theorem built_ladder {n : ℕ} (hn : n ≤ 23) : Built Call.Allocates (ladder n) := by
  induction n with
  | zero => exact .init
  | succ n ih =>
    have hbuilt := ih (Nat.le_of_succ_le hn)
    rw [ladder]
    split
    · next hrun =>
      cases n with
      | zero => exact .call hbuilt (ladderCall 0) trivial ⟨rfl, rfl⟩ hrun
      | succ i =>
        have hvalid := lt_length_ladder i (by omega)
        exact .call hbuilt (ladderCall (i + 1)) hvalid ⟨rfl, rfl, rfl⟩ hrun
    · exact hbuilt

theorem lt_of_mem_ladder {p q : ℕ} (h : q ∈ (ladder 23).deps p) : p < q := by
  have hall : ∀ p < 13, ∀ q ∈ (ladder 23).deps p, p < q := by decide +kernel
  have hlen : (ladder 23).graph.length = 13 := by decide +kernel
  by_cases hp : p < 13
  · exact hall p hp q h
  · rw [DGraph.deps, getElem?_eq_none (by omega)] at h
    cases h

/-- The graph of 13 entries has no circle and a single root, and is refused. -/
theorem not_givesLoadOrder_ladder : Built Call.Allocates (ladder 23) ∧
    dgraphFindRoot (ladder 23) = .ok (some 0) ∧
    (∀ e, ¬Relation.TransGen (DependsOn (ladder 23).deps) e e) ∧ ¬GivesLoadOrder (ladder 23) 0 := by
  refine ⟨built_ladder le_rfl, by decide +kernel, fun e he => ?_, ?_⟩
  · have hlt := Relation.TransGen.mono (fun _ _ => lt_of_mem_ladder) e e he
    rw [Relation.transGen_eq_self] at hlt
    exact lt_irrefl e hlt
  · have hfailed : dgraphEstablishLoadOrder (ladder 23) 0 ⟨true, fun _ => true, true⟩ = failed := by
      decide +kernel
    rintro ⟨order, horder, -⟩
    cases hfailed.symm.trans horder

end Hexley.Kext
