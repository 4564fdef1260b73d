import Hexley.Cf.BinaryPlist.Decode
import Mathlib.Logic.Relation

/-!
A property list that is written and read again.

`Laid` is what the reader needs to know of the bytes that the writer has
made: where the objects of the list are, and that the offset table says so.
From it, an object of the list is read back as `readBack`, in which a
pointer leads to the object that stands for the one it points to. That is
equal to the property list that was written.

The induction is on the rank of the object. It carries what is in the cache
and on the path: the cache holds objects as they are read back, and on the
path are only containers of a greater rank, so that no object is taken for
a part of itself.
-/

namespace Hexley.Cf.BinaryPlist

open Lib List Outcome Buffer ReadState Obj FlattenState

structure Laid (h : Heap) (st : FlattenState) (b : Buffer) (t : Trailer) (offs : ℕ → ℕ) :
    Prop where
  accepted : Accepted b t
  long : t.offsetTableOffset ≤ longMax
  numObjects : t.numObjects = st.objlist.length
  refSize : t.objectRefSize ≤ 4
  count : st.objlist.length < 256 ^ t.objectRefSize
  object : ∀ i q, st.objlist[i]? = some q → Among b t (offs i) ((h.obj q).encode st t.objectRefSize)
  entry : ∀ i < st.objlist.length,
    bigEndian ((b.bytes.drop (t.offsetTableOffset + i * t.offsetIntSize)).take t.offsetIntSize) =
      offs i
  inj : ∀ i j, i < st.objlist.length → j < st.objlist.length → offs i = offs j → i = j

variable {h : Heap} {st : FlattenState} {b : Buffer} {t : Trailer} {offs : ℕ → ℕ}
  {cfEqual : Plist → Plist → Bool} {p : ℕ}

section

variable (hl : Laid h st b t offs) {off : ℕ} {ps : List ℕ}

include hl

/-! ### Containers -/

theorem Laid.count_lt : st.objlist.length < 2 ^ 32 := by
  have hle : 256 ^ t.objectRefSize ≤ 256 ^ 4 := Nat.pow_le_pow_right (by decide) hl.refSize
  exact lt_of_lt_of_le hl.count hle

theorem refAt_swapped {r : ℕ} (hr : r < st.objlist.length)
    (h : Among b t off (swappedTail 4 t.objectRefSize r)) :
    getOffsetOfRefAt b t (b.base + off) = .ok (offs r) := by
  have ht := hl.accepted
  have hlen := ht.length
  have hbound := h.bound ht
  have hlow := h.low
  have hcount := hl.count_lt
  rw [length_swapped hl.refSize] at hbound
  have href := derefs_segment h.segment
  rw [length_swapped hl.refSize] at href
  have hnum : r < t.numObjects := by
    rw [hl.numObjects]
    exact hr
  have hentry : t.offsetTableOffset + r * t.offsetIntSize + t.offsetIntSize ≤ b.bytes.length := by
    have hle := Nat.mul_le_mul_right t.offsetIntSize hnum
    rw [Nat.succ_mul] at hle
    omega
  unfold getOffsetOfRefAt
  rw [ptr_eq (by omega), ptr_eq (by omega), if_neg (by omega), href, ok_bind,
    bigEndian_swapped hl.refSize (lt_trans hr hl.count) (by omega), if_neg (by omega),
    ptr_eq (by omega), derefs_eq hentry, ok_bind, hl.entry r hr]

theorem length_encodeRefs (ps : List ℕ) :
    (encodeRefs st t.objectRefSize ps).length = ps.length * t.objectRefSize := by
  induction ps with
  | nil => exact (zero_mul _).symm
  | cons p ps ih =>
    unfold encodeRefs at ih ⊢
    rw [flatMap_cons, length_append, ih, length_swapped hl.refSize,
      length_cons, Nat.succ_mul, add_comm]

theorem readContainer_encode {marker : UInt8} (hm : marker.toNat ≤ 0xF0)
    (hm' : marker.toNat % 16 = 0)
    {count : ℕ} (hps : ps.length = if Kind.of marker = .dict then count * 2 else count)
    (hfits : ps.length * 8 < 2 ^ 64)
    (h : Among b t off (encodeCount marker.toNat count ++ encodeRefs st t.objectRefSize ps)) :
    readContainer b t (countMarker marker.toNat count) (b.base + off) =
      .ok (b.base + off + (encodeCount marker.toNat count).length, ps.length) := by
  have ht := hl.accepted
  have hbound := h.right.bound ht
  have hlength := length_encodeRefs hl ps
  have hpos := ht.objectRefSize.1
  have hmul : ps.length * 1 ≤ ps.length * t.objectRefSize := Nat.mul_le_mul_left _ hpos
  have hright := h.right.length_le hl.long
  have hcount : count ≤ longMax := by
    split_ifs at hps <;> omega
  have hcnt : Outcome.ofOption (if Kind.of marker = .dict then checkMul count 2 else some count) =
      .ok ps.length := by
    split_ifs at hps ⊢
    · rw [checkMul_ok (by omega), hps]
    · rw [hps]
      rfl
  unfold readContainer
  rw [readCount_encodeCount ht hm hm' hcount h.left, ok_bind]
  dsimp only
  rw [kindOf_marker marker hm hm', hcnt, ok_bind, checkMul_ok (by omega),
    ok_bind, ← hlength, add_assoc b.base, checkPtrAdd_ok (by omega),
    ok_bind, require_true (by omega), ok_bind, checkMul_ok hfits]
  rfl

theorem readRefs_encodeRefs {create : ℕ → ReadState → Outcome Plist × ReadState} {V : ℕ → Plist}
    {Good : ReadState → Prop} (hrefs : ∀ c ∈ ps, st.refOf c < st.objlist.length)
    (hcreate : ∀ c ∈ ps, ∀ s, Good s → ∃ s', create (offs (st.refOf c)) s = (.ok (V c), s') ∧
      Good s')
    {keys : ℕ} (hkeys : ∀ c ∈ ps.take keys, (V c).isPrimitive = true)
    (h : Among b t off (encodeRefs st t.objectRefSize ps)) (list : List Plist) {s : ReadState}
    (hs : Good s) : ∃ s', readRefs b t create ps.length keys (b.base + off) list s =
      (.ok (list ++ ps.map V), s') ∧ Good s' := by
  induction ps generalizing off keys list s with
  | nil =>
    rw [map_nil, append_nil]
    exact ⟨s, rfl, hs⟩
  | cons p ps ih =>
    obtain ⟨s₁, hrun₁, hs₁⟩ := hcreate p mem_cons_self s hs
    have h' : Among b t off (swappedTail 4 t.objectRefSize (st.refOf p) ++
        encodeRefs st t.objectRefSize ps) := h
    have hright := h'.right
    rw [length_swapped hl.refSize] at hright
    have hkeys' : ∀ c ∈ ps.take (keys - 1), (V c).isPrimitive = true := by
      intro c hc
      cases keys with
      | zero => exact nomatch hc
      | succ keys => exact hkeys c (mem_cons_of_mem p hc)
    have hkey : ¬(0 < keys ∧ ¬(V p).isPrimitive = true) := by
      rintro ⟨hpos, hnot⟩
      refine hnot (hkeys p ?_)
      obtain ⟨k, rfl⟩ := Nat.exists_eq_succ_of_ne_zero (Nat.pos_iff_ne_zero.mp hpos)
      exact mem_cons_self
    obtain ⟨s₂, hrun₂, hs₂⟩ := ih (forall_mem_cons.mp hrefs).2
      (forall_mem_cons.mp hcreate).2 hkeys' hright (list ++ [V p]) hs₁
    refine ⟨s₂, ?_, hs₂⟩
    rw [length_cons, readRefs, refAt_swapped hl (hrefs p mem_cons_self) h'.left]
    dsimp only
    rw [hrun₁]
    dsimp only
    rw [if_neg hkey, add_assoc, hrun₂, append_assoc]
    rfl

end

/-! ### What is read back -/

/-- The object that is read for the one at `c`. -/
def FlattenState.rep (st : FlattenState) (c : ℕ) : ℕ := (st.objlist[st.refOf c]?).getD c

def Heap.height (h : Heap) (p : ℕ) : ℕ := if (h.obj p).isContainer then h.rank p else 0

/-- The property list that is read back for the object at `p`, as deep as
`n`. -/
def readBackAt (h : Heap) (st : FlattenState) : ℕ → ℕ → Plist
  | 0, _ => .null
  | n + 1, p => (h.obj p).value fun c => readBackAt h st n (st.rep c)

def readBack (h : Heap) (st : FlattenState) (p : ℕ) : Plist :=
  readBackAt h st (h.height p + 1) p

structure Listed (cfEqual : Plist → Plist → Bool) (h : Heap) (st : FlattenState) : Prop where
  inv : st.Inv cfEqual h fun p => h.Readable (h.obj p)
  closed : ∀ q ∈ st.objlist, ∀ c ∈ (h.obj q).flattened, ∃ r, st.objtable c = some r
  count : st.objlist.length < 2 ^ 32

variable {o : Obj}

theorem Heap.Readable.children_eq (ho : h.Readable o) : o.children = o.flattened := by
  cases o with
  | set items => exact ho.elim
  | _ => rfl

theorem Heap.Readable.writable (ho : h.Readable o) : o.Writable := by
  cases o with
  | null => exact ho.elim
  | set items => exact ho.elim
  | _ => trivial

theorem Obj.container_of_child {c : ℕ} (hc : c ∈ o.children) : o.isContainer = true := by
  cases o with
  | array | set | dict => rfl
  | _ => exact nomatch hc

theorem Obj.value_of_plain (ho : o.isContainer = false) (f g : ℕ → Plist) :
    o.value f = o.value g := by
  apply value_congr
  intro c hc
  rw [container_of_child hc] at ho
  exact nomatch ho

namespace Listed

variable (hst : Listed cfEqual h st) {c : ℕ}

include hst

section

variable (hp : p ∈ st.objlist)
include hp

section

variable (hc : c ∈ (h.obj p).children)
include hc

theorem rep_spec : st.objlist[st.refOf c]? = some (st.rep c) ∧ Stands cfEqual h c (st.rep c) := by
  rw [(hst.inv.holds p hp).children_eq] at hc
  obtain ⟨r, hr⟩ := hst.closed p hp c hc
  obtain ⟨q, hq, hstands⟩ := hst.inv.ref c r hr
  have hlt := (List.getElem?_eq_some_iff.mp hq).1
  have hcount := hst.count
  have href : st.refOf c = r := by
    rw [refOf, hr]
    exact Nat.mod_eq_of_lt (show r < 2 ^ 32 by omega)
  have hrep : st.rep c = q := by
    rw [rep, href, hq]
    rfl
  rw [hrep, href]
  exact ⟨hq, hstands⟩

theorem rep_mem : st.rep c ∈ st.objlist :=
  mem_of_getElem? (hst.rep_spec hp hc).1

theorem height_rep_lt : h.height (st.rep c) < h.height p := by
  have hrank := h.rank_lt p c hc
  have hheight : h.height p = h.rank p := if_pos (container_of_child hc)
  rw [hheight]
  rcases (hst.rep_spec hp hc).2 with hsame | ⟨-, hleaf, -⟩
  · rw [hsame]
    unfold Heap.height
    split_ifs <;> omega
  · unfold Heap.height
    rw [hleaf]
    exact Nat.zero_lt_of_lt hrank

end

theorem readBackAt_eq {m n : ℕ} (hm : h.height p < m)
    (hn : h.height p < n) : readBackAt h st m p = readBackAt h st n p := by
  induction m generalizing n p with
  | zero => exact absurd hm (Nat.not_lt_zero _)
  | succ m ih =>
    cases n with
    | zero => exact absurd hn (Nat.not_lt_zero _)
    | succ n =>
      apply value_congr
      intro c hc
      have hlt := hst.height_rep_lt hp hc
      exact ih (hst.rep_mem hp hc) (by omega) (by omega)

theorem readBack_eq : readBack h st p = (h.obj p).value fun c => readBack h st (st.rep c) := by
  apply value_congr
  intro c hc
  exact hst.readBackAt_eq (hst.rep_mem hp hc) (hst.height_rep_lt hp hc) (Nat.lt_succ_self _)

theorem equal_readBack : (h.plist p).Equal cfEqual (readBack h st p) := by
  induction hn : h.rank p using Nat.strong_induction_on generalizing p with
  | _ n ih =>
    subst hn
    have hchild (c : ℕ) (hc : c ∈ (h.obj p).children) :
        (h.plist c).Equal cfEqual (readBack h st (st.rep c)) := by
      obtain ⟨-, hsame | ⟨hleaf, hleaf', hequal⟩⟩ := hst.rep_spec hp hc
      · have hmem := hst.rep_mem hp hc
        rw [hsame] at hmem ⊢
        exact ih _ (h.rank_lt p c hc) hmem rfl
      · have hread : readBack h st (st.rep c) = h.plist (st.rep c) := by
          exact value_of_plain hleaf' _ _
        rw [hread]
        apply Plist.Equal.primitive
        · exact isPrimitive_value hleaf _
        · exact isPrimitive_value hleaf' _
        · exact hequal
    rw [hst.readBack_eq hp, h.plist_eq]
    have hread := hst.inv.holds p hp
    cases ho : h.obj p with
    | array items =>
      rw [ho] at hchild
      apply Plist.Equal.array
      · rw [length_map, length_map]
      · intro i hx hy
        rw [getElem_map, getElem_map]
        exact hchild _ (getElem_mem _)
    | set items =>
      rw [ho] at hread
      exact hread.elim
    | dict entries =>
      rw [ho] at hchild
      apply Plist.Equal.dict
      · rw [length_map, length_map]
      · intro i hx hy
        rw [getElem_map, getElem_map]
        exact hchild _ (mem_append_left _ (mem_map_of_mem (getElem_mem _)))
      · rw [length_map, length_map]
      · intro i hx hy
        rw [getElem_map, getElem_map]
        exact hchild _ (mem_append_right _ (mem_map_of_mem (getElem_mem _)))
    | _ => exact Plist.Equal.same _

end

end Listed

/-! ### Reading an object -/

theorem encode_container {refSize : ℕ} (hread : h.Readable o) (hcontainer : o.isContainer = true) :
    ∃ (marker : UInt8) (count : ℕ), marker.toNat ≤ 0xF0 ∧ marker.toNat % 16 = 0 ∧
      (Kind.of marker).isContainer = true ∧
      o.encode st refSize = encodeCount marker.toNat count ++ encodeRefs st refSize o.children ∧
      (o.children.length = if Kind.of marker = .dict then count * 2 else count) ∧
      (∀ pl, makeContainer (countMarker marker.toNat count) (o.children.map pl) = o.value pl) ∧
      ∀ c ∈ o.children.take (if Kind.of marker = .dict then o.children.length / 2 else 0),
        (h.obj c).isContainer = false := by
  cases o with
  | array items =>
    refine ⟨0xA0, items.length, by decide, by decide, rfl, rfl, rfl, fun pl => ?_, ?_⟩
    · unfold makeContainer
      rw [kindOf_marker 0xA0 (by decide) (by decide)]
      rfl
    · intro c hc
      exact nomatch hc
  | dict entries =>
    have hlength : (dict entries).children.length = entries.length * 2 := by
      unfold children
      rw [length_append, length_map, length_map]
      omega
    have hhalf : entries.length * 2 / 2 = (entries.map Prod.fst).length := by
      rw [length_map]
      omega
    refine ⟨0xD0, entries.length, by decide, by decide, rfl, rfl, hlength, fun pl => ?_, ?_⟩
    · unfold makeContainer
      rw [kindOf_marker 0xD0 (by decide) (by decide)]
      rw [length_map, hlength, hhalf, ← map_take, ← map_drop]
      unfold children
      rw [take_left, drop_left, map_map, map_map]
      rfl
    · intro c hc
      have hkeys : c ∈ entries.map Prod.fst := by
        rw [hlength] at hc
        change c ∈ take (entries.length * 2 / 2) _ at hc
        rw [hhalf] at hc
        unfold children at hc
        rwa [take_left] at hc
      obtain ⟨e, he, rfl⟩ := mem_map.mp hkeys
      exact hread e he
  | set items => exact hread.elim
  | _ => exact nomatch hcontainer

section

variable (h : Heap) (st : FlattenState) (offs : ℕ → ℕ)

def CacheSound (s : ReadState) : Prop :=
  ∀ off pl, s.cached off = some pl →
    ∃ i q, st.objlist[i]? = some q ∧ offs i = off ∧ pl = readBack h st q

def PathAbove (s : ReadState) (n : ℕ) : Prop :=
  ∀ path, s.set = some path → ∀ o ∈ path,
    ∃ i q, st.objlist[i]? = some q ∧ offs i = o ∧ n < h.height q

end

section

variable {s : ReadState} {i : ℕ} {s' : ReadState}

theorem CacheSound.keep (hs : CacheSound h st offs s) (keeps : Bool)
    (hp : st.objlist[i]? = some p) :
    CacheSound h st offs (s.keep keeps (offs i) (readBack h st p)) := by
  intro off pl hpl
  unfold ReadState.keep at hpl
  split_ifs at hpl
  · unfold cached at hpl
    cases hobjects : s.objects with
    | none =>
      rw [hobjects] at hpl
      exact nomatch hpl
    | some objects =>
      rw [hobjects] at hpl
      rw [Option.map_some, Option.bind_some, lookup_cons] at hpl
      split at hpl
      · rename_i heq
        cases hpl
        exact ⟨i, p, hp, (beq_iff_eq.mp heq).symm, rfl⟩
      · refine hs off pl ?_
        rw [cached, hobjects]
        exact hpl
  · exact hs off pl hpl

theorem CacheSound.congr (hs : CacheSound h st offs s) (hobjects : s'.objects = s.objects) :
    CacheSound h st offs s' := by
  intro off pl hpl
  unfold cached at hpl
  rw [hobjects] at hpl
  exact hs off pl hpl

variable (hl : Laid h st b t offs) (hst : Listed cfEqual h st)

include hl

theorem Laid.eq_of_offs_eq {j q : ℕ} (hp : st.objlist[i]? = some p)
    (hq : st.objlist[j]? = some q) (hoff : offs i = offs j) : p = q := by
  have hi := (List.getElem?_eq_some_iff.mp hp).1
  have hj := (List.getElem?_eq_some_iff.mp hq).1
  rw [hl.inj i j hi hj hoff, hq] at hp
  exact (Option.some.inj hp).symm

theorem PathAbove.onPath_eq_false (hp : st.objlist[i]? = some p)
    (hpath : PathAbove h st offs s (h.height p)) : s.onPath (offs i) = false := by
  unfold onPath
  cases hset : s.set with
  | none => rfl
  | some path =>
    rw [decide_eq_false_iff_not]
    intro hon
    obtain ⟨j, q, hq, hoff, hlt⟩ := hpath path hset _ hon
    rw [hl.eq_of_offs_eq hp hq hoff.symm] at hlt
    exact lt_irrefl _ hlt

omit hl in
theorem PathAbove.enter {curDepth n : ℕ} (hp : st.objlist[i]? = some p)
    (hpath : PathAbove h st offs s (h.height p)) (hset : s'.set = (s.enter (offs i) curDepth).set)
    (hlt : n < h.height p) : PathAbove h st offs s' n := by
  intro path hpath' o ho
  have hcases : o = offs i ∨ ∃ path', s.set = some path' ∧ o ∈ path' := by
    rw [hset] at hpath'
    unfold ReadState.enter at hpath'
    cases hold : s.set with
    | none =>
      rw [hold] at hpath'
      split_ifs at hpath'
      · cases hpath'
        exact .inl (mem_singleton.mp ho)
      · rw [hold] at hpath'
        exact nomatch hpath'
    | some path' =>
      rw [hold] at hpath'
      cases hpath'
      split_ifs at ho
      · exact .inr ⟨path', rfl, ho⟩
      · refine (mem_cons.mp ho).imp_right fun ho' => ?_
        exact ⟨path', rfl, ho'⟩
  rcases hcases with rfl | ⟨path', hold, ho'⟩
  · exact ⟨i, p, hp, rfl, hlt⟩
  · obtain ⟨j, q, hq, hoff, habove⟩ := hpath path' hold o ho'
    exact ⟨j, q, hq, hoff, hlt.trans habove⟩

include hst

/-- An object of the list is read back, from the cache or from the
buffer. -/
theorem createObject2_readBack (option : Mutability) {frames curDepth : ℕ}
    (hp : st.objlist[i]? = some p) (hframes : h.height p < frames)
    (hcache : CacheSound h st offs s) (hpath : PathAbove h st offs s (h.height p)) :
    ∃ s', createObject2 b t option frames curDepth (offs i) s = (.ok (readBack h st p), s') ∧
      CacheSound h st offs s' ∧ s'.set = s.set := by
  induction frames generalizing curDepth i p s with
  | zero => exact absurd hframes (Nat.not_lt_zero _)
  | succ frames ih =>
    have ht := hl.accepted
    have hmem := mem_of_getElem? hp
    have hread := hst.inv.holds p hmem
    have hobject := hl.object i p hp
    have hlow := hobject.low
    have hhigh := hobject.high
    have hlen := ht.length
    rw [createObject2]
    cases hc : s.cached (offs i) with
    | some pl =>
      obtain ⟨j, q, hq, hoff, rfl⟩ := hcache _ _ hc
      rw [hl.eq_of_offs_eq hp hq hoff.symm]
      exact ⟨s, rfl, hcache, rfl⟩
    | none =>
      have hout := PathAbove.onPath_eq_false hl hp hpath
      rw [hout, if_neg (by simp), ptr_eq (by omega)]
      by_cases hcontainer : (h.obj p).isContainer = true
      · -- A container: its head, the loop over the references, and what is made of them.
        obtain ⟨marker, count, hm, hm', hkind, hencode, hps, hmake, hkeys⟩ :
            ∃ (marker : UInt8) (count : ℕ), _ ∧ _ ∧ _ ∧
              (h.obj p).encode st t.objectRefSize = _ ∧ _ :=
          encode_container hread hcontainer
        rw [hencode] at hobject hhigh
        have hfirst : Among b t (offs i) (countMarker marker.toNat count :: _) := hobject
        have hpos := hfirst.high
        rw [length_cons] at hpos
        rw [if_neg (by omega), deref_segment hfirst.segment]
        dsimp only
        rw [kindOf_marker marker hm hm', if_pos hkind,
          readContainer_encode hl hm hm' hps (h.fits p) hobject]
        dsimp only
        have hchild (c : ℕ) (hc : c ∈ (h.obj p).children) (s' : ReadState)
            (hs' : CacheSound h st offs s' ∧ s'.set = (s.enter (offs i) curDepth).set) :
            ∃ s'', createObject2 b t option frames (curDepth + 1) (offs (st.refOf c)) s' =
                (.ok (readBack h st (st.rep c)), s'') ∧
              CacheSound h st offs s'' ∧ s''.set = (s.enter (offs i) curDepth).set := by
          obtain ⟨hrep, -⟩ := hst.rep_spec hmem hc
          have hlt := hst.height_rep_lt hmem hc
          obtain ⟨s'', hrun, hcache'', hset''⟩ :=
            ih hrep (by omega) hs'.1 (PathAbove.enter hp hpath hs'.2 hlt)
          exact ⟨s'', hrun, hcache'', hset''.trans hs'.2⟩
        have hrefs (c : ℕ) (hc : c ∈ (h.obj p).children) : st.refOf c < st.objlist.length :=
          (List.getElem?_eq_some_iff.mp (hst.rep_spec hmem hc).1).1
        have hprimitive (c : ℕ) (hc : c ∈ (h.obj p).children.take
            (if Kind.of marker = .dict then (h.obj p).children.length / 2 else 0)) :
            (readBack h st (st.rep c)).isPrimitive = true := by
          have hc' := mem_of_mem_take hc
          apply isPrimitive_value
          rcases (hst.rep_spec hmem hc').2 with hsame | ⟨-, hleaf, -⟩
          · rw [hsame]
            exact hkeys c hc
          · exact hleaf
        obtain ⟨s', hrun, hcache', hset'⟩ := readRefs_encodeRefs hl hrefs hchild hprimitive
          hobject.right [] ⟨hcache.congr (s.objects_enter _ _), rfl⟩
        rw [add_assoc, hrun]
        dsimp only
        rw [nil_append, hmake, ← hst.readBack_eq hmem]
        refine ⟨_, rfl, (hcache'.congr (s'.objects_leave _ _)).keep _ hp, ?_⟩
        rw [set_keep]
        exact set_leave hout hset'
      · -- A primitive object.
        obtain ⟨marker, xs, hencode, hkind, hleaf⟩ := readLeaf_encode hl.long ht hread
          (Bool.eq_false_iff.mpr hcontainer) hobject fun c => readBack h st (st.rep c)
        rw [hencode] at hobject hhigh
        rw [length_cons] at hhigh
        rw [if_neg (by omega), deref_segment hobject.segment]
        dsimp only
        rw [if_neg (by rw [hkind]; exact Bool.false_ne_true), hleaf]
        rw [← hst.readBack_eq hmem]
        exact ⟨_, rfl, hcache.keep _ hp, set_keep _ _ _ _⟩

end

/-! ### The stream as a buffer -/

theorem readTrailer_bytes (hint : t.offsetIntSize < 256)
    (href : t.objectRefSize < 256) (hnum : t.numObjects < 2 ^ 64) (htop : t.topObject < 2 ^ 64)
    (htable : t.offsetTableOffset < 2 ^ 64) : readTrailer t.bytes = some t := by
  have hbyte {n : ℕ} (hn : n < 256) : bigEndian [UInt8.ofNat n] = n := by
    change (0 * 256 + (UInt8.ofNat n).toNat) % 2 ^ 64 = n
    rw [UInt8.toNat_ofNat_of_lt' hn]
    omega
  have hzero : t.bytes.take 6 = replicate 6 0 := rfl
  have hint' : (t.bytes.drop 6).take 1 = [UInt8.ofNat t.offsetIntSize] := rfl
  have href' : (t.bytes.drop 7).take 1 = [UInt8.ofNat t.objectRefSize] := rfl
  have hnum' : (t.bytes.drop 8).take 8 = Endian.big.bytes 8 t.numObjects := rfl
  have htop' : (t.bytes.drop 16).take 8 = Endian.big.bytes 8 t.topObject := rfl
  have htable' : (t.bytes.drop 24).take 8 = Endian.big.bytes 8 t.offsetTableOffset := rfl
  unfold readTrailer
  rw [if_pos hzero, hint', href', hbyte hint, hbyte href, hnum', bigEndian_bytes hnum hnum, htop',
    bigEndian_bytes htop htop, htable', bigEndian_bytes htable htable]

theorem length_trailerBytes (t : Trailer) : t.bytes.length = trailerSize := by
  simp [Trailer.bytes, trailerSize]

theorem checkOffsets_eq_ok {n : ℕ} (ht : 1 ≤ t.offsetTableOffset)
    (hp : p + n * t.offsetIntSize ≤ b.bytes.length)
    (h : ∀ i < n, bigEndian ((b.bytes.drop (p + i * t.offsetIntSize)).take t.offsetIntSize) <
      t.offsetTableOffset) : checkOffsets b t n (b.base + p) = .ok () := by
  induction n generalizing p with
  | zero => rfl
  | succ n ih =>
    rw [Nat.succ_mul] at hp
    have hfirst := h 0 (Nat.succ_pos n)
    rw [zero_mul, add_zero] at hfirst
    rw [checkOffsets, derefs_eq (by omega), ok_bind, require_true (by omega), ok_bind, add_assoc]
    apply ih (by omega)
    intro i hi
    have hnext := h (i + 1) (Nat.succ_lt_succ hi)
    rwa [Nat.succ_mul, add_comm (i * _), ← add_assoc] at hnext

theorem encode_ne_nil {refSize : ℕ} (ho : o.Writable) : o.encode st refSize ≠ [] := by
  cases o with
  | null => exact ho.elim
  | set items => exact ho.elim
  | string units =>
    unfold encode
    dsimp only
    split_ifs <;> exact cons_ne_nil _ _
  | _ => exact cons_ne_nil _ _

theorem length_entries (hint : (trailerOf h st).offsetIntSize ≤ 8) :
    ∀ entry ∈ entries h st, entry.length = (trailerOf h st).offsetIntSize := by
  intro entry hentry
  obtain ⟨i, -, rfl⟩ := mem_map.mp hentry
  exact length_swapped hint _

theorem streamOf_segments (hint : (trailerOf h st).offsetIntSize ≤ 8) :
    SegmentAt (streamOf h st) 0 magic00 ∧ SegmentAt (streamOf h st) 8 (pieces h st).flatten ∧
      SegmentAt (streamOf h st) (trailerOf h st).offsetTableOffset (entries h st).flatten ∧
      SegmentAt (streamOf h st)
        ((trailerOf h st).offsetTableOffset + st.objlist.length * (trailerOf h st).offsetIntSize)
        (trailerOf h st).bytes ∧ (streamOf h st).length = (trailerOf h st).offsetTableOffset +
        st.objlist.length * (trailerOf h st).offsetIntSize + trailerSize := by
  have hcount : (entries h st).length = st.objlist.length := by
    rw [entries, length_map, length_range]
  have hentries : (entries h st).flatten.length =
      st.objlist.length * (trailerOf h st).offsetIntSize := by
    rw [← startOf_length, startOf_eq_mul (length_entries hint) le_rfl, hcount]
  have hall : SegmentAt (streamOf h st) 0 (streamOf h st) := ⟨[], [], (append_nil _).symm, rfl⟩
  obtain ⟨hthree, htrailer⟩ := segmentAt_append.mp hall
  obtain ⟨htwo, htable⟩ := segmentAt_append.mp hthree
  obtain ⟨hone, hpieces⟩ := segmentAt_append.mp htwo
  have htableOffset : 0 + (magic00 ++ (pieces h st).flatten).length =
      (trailerOf h st).offsetTableOffset := by
    rw [length_append, zero_add]
    rfl
  rw [length_append, hentries, ← add_assoc, htableOffset] at htrailer
  rw [htableOffset] at htable
  refine ⟨hone, hpieces, htable, htrailer, ?_⟩
  have hlast : (trailerOf h st).bytes.length = trailerSize := length_trailerBytes _
  rw [streamOf, length_append, length_append, hentries, hlast, ← htableOffset, zero_add]

section

variable (hst : Listed cfEqual h st)

include hst

theorem pieces_ne_nil : ∀ piece ∈ pieces h st, piece ≠ [] := by
  intro piece hpiece
  obtain ⟨p, hp, rfl⟩ := mem_map.mp hpiece
  exact encode_ne_nil (hst.inv.holds p hp).writable

theorem offsetOf_lt {i : ℕ} (hi : i < st.objlist.length) :
    offsetOf h st i < (trailerOf h st).offsetTableOffset := by
  have hlength : (pieces h st).length = st.objlist.length := length_map _
  have hlt := startOf_lt (pieces_ne_nil hst) (hi.trans_eq hlength.symm) le_rfl
  rw [startOf_length] at hlt
  exact Nat.add_lt_add_left hlt 8

variable (hb : b.bytes = streamOf h st) (hfirst : st.objlist[0]? = some p)
  (hlong : (streamOf h st).length ≤ longMax)

omit hst in
theorem tableOffset_le : (trailerOf h st).offsetTableOffset ≤ (streamOf h st).length := by
  unfold streamOf
  rw [length_append, length_append, length_append]
  change 8 + _ ≤ 8 + _ + _ + _
  omega

include hfirst hlong

theorem trailerOf_sizes : 9 ≤ (trailerOf h st).offsetTableOffset ∧ 1 ≤ st.objlist.length ∧
      (1 ≤ (trailerOf h st).offsetIntSize ∧ (trailerOf h st).offsetIntSize ≤ 8 ∧
        (trailerOf h st).offsetTableOffset < 256 ^ (trailerOf h st).offsetIntSize) ∧
      1 ≤ (trailerOf h st).objectRefSize ∧ (trailerOf h st).objectRefSize ≤ 4 ∧
      st.objlist.length < 256 ^ (trailerOf h st).objectRefSize := by
  have hone := (List.getElem?_eq_some_iff.mp hfirst).1
  have hcount := hst.count
  have hnine : 8 + 0 < (trailerOf h st).offsetTableOffset := offsetOf_lt hst hone
  have htable : (trailerOf h st).offsetTableOffset < 2 ^ 64 := by
    have hle : _ ≤ (streamOf h st).length := tableOffset_le
    unfold longMax at hlong
    omega
  exact ⟨hnine, hone, ⟨byteWidth_pos (by omega), byteWidth_le_eight htable,
    lt_pow_byteWidth htable⟩, byteWidth_pos (by omega), byteWidthLoop_le hcount,
    lt_pow_byteWidth (by omega)⟩

include hb

theorem bigEndian_entry {i : ℕ} (hi : i < st.objlist.length) :
    bigEndian ((b.bytes.drop ((trailerOf h st).offsetTableOffset +
      i * (trailerOf h st).offsetIntSize)).take (trailerOf h st).offsetIntSize) =
      offsetOf h st i := by
  obtain ⟨-, -, ⟨-, hint, hwidth⟩, -, -, -⟩ := trailerOf_sizes hst hfirst hlong
  obtain ⟨-, -, htable, -, -⟩ := streamOf_segments hint
  have hlt := offsetOf_lt hst hi
  have hentry : (entries h st)[i]? =
      some (swappedTail 8 (trailerOf h st).offsetIntSize (offsetOf h st i)) := by
    rw [entries, getElem?_map, getElem?_range hi]
    rfl
  have hle : i ≤ (entries h st).length := (List.getElem?_eq_some_iff.mp hentry).1.le
  have hsegment := htable.trans (segmentAt_flatten hentry)
  rw [startOf_eq_mul (length_entries hint) hle, ← hb] at hsegment
  have htake := hsegment.take_drop
  have hle' : _ ≤ (streamOf h st).length := tableOffset_le
  rw [length_swapped hint] at htake
  unfold longMax at hlong
  rw [htake, bigEndian_swapped hint (hlt.trans hwidth) (by omega)]

theorem info_streamOf : ∃ marker, getTopLevelInfo b = .ok (marker, 8, trailerOf h st) := by
  obtain ⟨hnine, hone, ⟨hint, hint', hwidth⟩, href, href', hcount⟩ :=
    trailerOf_sizes hst hfirst hlong
  obtain ⟨hmagic, -, -, htrailer, hlength⟩ := streamOf_segments hint'
  have hentry {i : ℕ} (hi : i < st.objlist.length) := bigEndian_entry hst hb hfirst hlong hi
  have hnum : (trailerOf h st).numObjects = st.objlist.length := rfl
  have htop : (trailerOf h st).topObject = 0 := rfl
  rw [← hb] at hmagic htrailer hlength hlong
  have hlong' := hlong
  unfold longMax at hlong'
  have htrail := derefs_segment htrailer
  have hheader := derefs_segment hmagic
  rw [length_trailerBytes] at htrail
  have hpow (k : ℕ) : 2 ^ (8 * k) = 256 ^ k := by rw [Nat.pow_mul]
  have hmul : st.objlist.length * 1 ≤ st.objlist.length * (trailerOf h st).offsetIntSize :=
    Nat.mul_le_mul_left _ hint
  have hmul' : 1 * (trailerOf h st).offsetIntSize ≤
      st.objlist.length * (trailerOf h st).offsetIntSize := Nat.mul_le_mul_right _ hone
  have hconsistent : (trailerOf h st).Consistent b.bytes.length := by
    unfold Trailer.Consistent
    rw [hnum, htop, hpow, hpow]
    exact ⟨by omega, by omega, by omega, by omega, by omega, by omega, by omega, by omega,
      by omega, by omega, by omega, by omega, by omega⟩
  have hbase : b.ptr 0 = b.base + 0 := ptr_eq (Nat.zero_le _)
  have hfirst' := hentry (show 0 < st.objlist.length from hone)
  rw [zero_mul, add_zero] at hfirst'
  have height : offsetOf h st 0 = 8 := rfl
  have hchecked : checkOffsets b (trailerOf h st) st.objlist.length
      (b.base + (trailerOf h st).offsetTableOffset) = .ok () := by
    apply checkOffsets_eq_ok (by omega) (by omega)
    intro i hi
    rw [hentry hi]
    exact offsetOf_lt hst hi
  refine ⟨b.bytes.get ⟨8, by omega⟩, ?_⟩
  unfold getTopLevelInfo
  dsimp only
  rw [require_true (by unfold trailerSize at *; omega), ok_bind, hbase]
  change (b.derefs (b.base + 0) magic00.length >>= _) = _
  rw [hheader, ok_bind, require_true (.inl rfl), ok_bind,
    ptr_eq (by omega), show b.bytes.length - trailerSize =
      (trailerOf h st).offsetTableOffset + st.objlist.length * (trailerOf h st).offsetIntSize
      by omega, htrail, ok_bind, readTrailer_bytes (by omega) (by omega)
      (by rw [hnum]; omega) (by rw [htop]; omega) (by omega)]
  change (Outcome.require _ >>= _) = _
  rw [require_true hconsistent, ok_bind, hnum, ptr_eq (by omega), hchecked,
    ok_bind, htop, zero_mul, add_zero, ptr_eq (by omega),
    derefs_eq (by omega), ok_bind, hfirst', height,
    require_true (by omega), ok_bind, ptr_eq (by omega), deref_eq (by omega)]
  rfl

theorem laid_streamOf : Laid h st b (trailerOf h st) (offsetOf h st) := by
  obtain ⟨marker, hinfo⟩ := info_streamOf hst hb hfirst hlong
  have ht := accepted_of_info hinfo
  obtain ⟨-, -, ⟨-, hint, -⟩, -, href, hcount⟩ := trailerOf_sizes hst hfirst hlong
  obtain ⟨-, hpieces, -, -, -⟩ := streamOf_segments hint
  refine ⟨ht, tableOffset_le.trans hlong, rfl, href, hcount, fun i q hq => ?_,
    fun i hi => bigEndian_entry hst hb hfirst hlong hi, fun i j hi hj hoff => ?_⟩
  · have hpiece : (pieces h st)[i]? =
        some ((h.obj q).encode st (trailerOf h st).objectRefSize) := by
      rw [pieces, getElem?_map, hq]
      rfl
    have hsegment := segmentAt_flatten hpiece
    have hend := hsegment.le
    refine ⟨?_, Nat.le_add_right 8 _, ?_⟩
    · rw [hb]
      exact hpieces.trans hsegment
    · change 8 + _ + _ ≤ 8 + _
      omega
  · -- Two objects of the list do not start at the same place.
    have hlength : (pieces h st).length = st.objlist.length := length_map _
    have hstart : startOf (pieces h st) i = startOf (pieces h st) j := add_left_cancel hoff
    by_contra hne
    rcases Nat.lt_or_gt_of_ne hne with hlt | hlt
    all_goals
      have := startOf_lt (pieces_ne_nil hst) hlt (by omega)
      omega

end

/-! ### The round trip -/

/-- The objects that are part of the one at `p`. -/
def Heap.Reaches (h : Heap) (p q : ℕ) : Prop :=
  Relation.ReflTransGen (fun p c => c ∈ (h.obj p).children) p q

/-- Every property list, with whatever sharing in memory, whose objects can
be read back (no number that is stored with 128 bits has a sign or needs
more than 64) and of which less than `2 ^ 32` are listed, is written, and if
the stream is not longer than a `CFIndex` can say, it is accepted and read
back as an equal property list. -/
theorem createObject2_writeToStream (cfEqual : Plist → Plist → Bool) (h : Heap) (root : ℕ)
    (hread : ∀ p, h.Reaches root p → h.Readable (h.obj p)) (frames : ℕ)
    (hframes : h.rank root < frames)
    (hcount : ∀ st, flattenPlist cfEqual h frames root .empty = .ok st →
      st.objlist.length < 2 ^ 32) : ∃ bytes, writeToStream cfEqual h frames root = .ok bytes ∧
      ∀ b : Buffer, b.bytes = bytes → bytes.length ≤ longMax →
        ∃ marker t, getTopLevelInfo b = .ok (marker, 8, t) ∧
          ∀ (option : Mutability) (objects : Option (List (ℕ × Plist))) (frames' : ℕ),
            objects = none ∨ objects = some [] → h.rank root < frames' →
            ∃ pl s, createObject2 b t option frames' 0 8 ⟨objects, none⟩ = (.ok pl, s) ∧
              (h.plist root).Equal cfEqual pl := by
  have hclosed (p : ℕ) (hp : h.Reaches root p) (c : ℕ) (hc : c ∈ (h.obj p).flattened) :
      h.Reaches root c := hp.tail (child_of_flattened hc)
  obtain ⟨st, hrun, -, hmeets⟩ : ∃ st, flattenPlist cfEqual h frames root .empty = .ok st ∧ _ :=
    flatten_meets hclosed hframes Relation.ReflTransGen.refl _
  have hsmall := hcount st hrun
  obtain ⟨hinv, hnew, -⟩ := hmeets hsmall inv_empty
  have hfirst := flattenPlist_first hclosed Relation.ReflTransGen.refl hframes hrun
  have hst : Listed cfEqual h st :=
    { inv := ⟨hinv.ref, hinv.member, hinv.found, fun q hq => hread q (hinv.holds q hq)⟩
      closed := by
        intro q hq c hc
        obtain ⟨i, hi⟩ := mem_iff_getElem?.mp hq
        exact hnew i q (Nat.zero_le i) hi c hc
      count := hsmall }
  refine ⟨streamOf h st, ?_, fun b hb hlong => ?_⟩
  · exact writeToStream_eq hrun hsmall fun q hq => (hst.inv.holds q hq).writable
  · obtain ⟨marker, hinfo⟩ := info_streamOf hst hb hfirst hlong
    refine ⟨marker, trailerOf h st, hinfo, fun option objects frames' hobjects hframes' => ?_⟩
    have hcache : CacheSound h st (offsetOf h st) ⟨objects, none⟩ := by
      intro off pl hpl
      rcases hobjects with rfl | rfl <;> exact nomatch hpl
    have hheight : h.height root ≤ h.rank root := by
      unfold Heap.height
      split_ifs <;> omega
    obtain ⟨s, hcreate, -, -⟩ := createObject2_readBack (laid_streamOf hst hb hfirst hlong) hst
      option hfirst (show h.height root < frames' by omega) hcache fun _ hset => nomatch hset
    exact ⟨_, s, hcreate, hst.equal_readBack (mem_of_getElem? hfirst)⟩

def sharing : Heap where
  obj p := if p = 0 then .array [1, 1] else .string [0xE9]
  rank p := if p = 0 then 1 else 0
  rank_lt := by
    intro p c hc
    split_ifs at hc
    · rename_i hp
      simp only [children, mem_cons, not_mem_nil, or_false, or_self] at hc
      simp [hc, hp]
    · exact nomatch hc
  fits := by
    intro p
    split_ifs <;> decide

/-- The array is written, and read back as it was. -/
theorem createObject2_writeToStream_sharing :
    ∃ bytes, writeToStream (fun _ _ => false) sharing 2 0 = .ok bytes ∧
      ∀ b : Buffer, b.bytes = bytes → bytes.length ≤ longMax →
        ∃ marker t s, getTopLevelInfo b = .ok (marker, 8, t) ∧
          createObject2 b t .immutable 2 0 8 ⟨none, none⟩ =
            (.ok (.array [.string [0xE9], .string [0xE9]]), s) := by
  have hread (p : ℕ) (_ : sharing.Reaches 0 p) : sharing.Readable (sharing.obj p) := by
    unfold sharing
    dsimp only
    split_ifs <;> trivial
  have hcount (st : FlattenState)
      (hst : flattenPlist (fun _ _ => false) sharing 2 0 .empty = .ok st) :
      st.objlist.length < 2 ^ 32 := by
    cases hst
    decide
  obtain ⟨bytes, hwrite, hbuffer⟩ :=
    createObject2_writeToStream (fun _ _ => false) sharing 0 hread 2 (by decide) hcount
  refine ⟨bytes, hwrite, fun b hb hlong => ?_⟩
  obtain ⟨marker, t, hinfo, hcreate⟩ := hbuffer b hb hlong
  obtain ⟨pl, s, hrun, hequal⟩ := hcreate .immutable none 2 (.inl rfl) (by decide)
  have hsame : sharing.plist 0 = pl := hequal.eq fun _ _ h => absurd h Bool.false_ne_true
  refine ⟨marker, t, s, hinfo, ?_⟩
  rw [hrun, ← hsame]
  rfl

/-- A number that is stored with 128 bits and needs them. -/
def wide : Heap where
  obj _ := .int128 (BitVec.ofNat 128 (2 ^ 64))
  rank _ := 0
  rank_lt _ _ hc := nomatch hc
  fits _ := by decide

def wideBuffer : Buffer where
  base := 4096
  bytes := magic00 ++ [0x14, 0, 0, 0, 0, 0, 0, 0, 1, 0, 0, 0, 0, 0, 0, 0, 0] ++ [8] ++
    [0, 0, 0, 0, 0, 0, 1, 1, 0, 0, 0, 0, 0, 0, 0, 1, 0, 0, 0, 0, 0, 0, 0, 0,
      0, 0, 0, 0, 0, 0, 0, 25]
  low := low_page
  fits := by
    simp only [length_append, length_cons, length_nil, magic00]
    decide

/-- The number `2 ^ 64` is read back as zero. -/
theorem createObject2_not_writeToStream : wide.plist 0 = .int (2 ^ 64) ∧
      writeToStream (fun _ _ => false) wide 1 0 = .ok wideBuffer.bytes ∧
      getTopLevelInfo wideBuffer = .ok (0x14, 8, ⟨1, 1, 1, 0, 25⟩) ∧
      createObject2 wideBuffer ⟨1, 1, 1, 0, 25⟩ .immutable 1 0 8 ⟨none, none⟩ =
        (.ok (.int 0), ⟨none, none⟩) := by
  refine ⟨rfl, ?_, ?_, rfl⟩ <;> decide +kernel

end Hexley.Cf.BinaryPlist
