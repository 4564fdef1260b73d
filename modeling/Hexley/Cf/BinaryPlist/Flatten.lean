import Hexley.Cf.BinaryPlist.Write
import Mathlib.Data.List.Infix

/-!
The list of objects that `_flattenPlist` makes.

A pointer that has been met has a place in the list, and at the place there
is the object itself or, if it is no container, one that is equal to it
(`Stands`). What is added to the list by a call is closed: all that the new
objects hold has been met when the call returns. Both are kept by each call
as long as places fit into 32 bits.
-/

namespace Hexley.Cf.BinaryPlist

open Lib List FlattenState Obj

/-- Property lists that differ only in primitive objects that are equal. -/
inductive Plist.Equal (cfEqual : Plist → Plist → Bool) : Plist → Plist → Prop
  | same (pl : Plist) : Equal cfEqual pl pl
  | primitive {a b : Plist} (ha : a.isPrimitive) (hb : b.isPrimitive) (h : cfEqual b a) :
      Equal cfEqual a b
  | array {xs ys : List Plist} (hlen : xs.length = ys.length)
      (h : ∀ i (hx : i < xs.length) (hy : i < ys.length), Equal cfEqual xs[i] ys[i]) :
      Equal cfEqual (.array xs) (.array ys)
  | dict {ks ls xs ys : List Plist} (hkeys : ks.length = ls.length)
      (hk : ∀ i (hx : i < ks.length) (hy : i < ls.length), Equal cfEqual ks[i] ls[i])
      (hvalues : xs.length = ys.length)
      (hv : ∀ i (hx : i < xs.length) (hy : i < ys.length), Equal cfEqual xs[i] ys[i]) :
      Equal cfEqual (.dict ks xs) (.dict ls ys)

/-- If only the same primitive objects are equal, so are only the same
property lists. -/
theorem Plist.Equal.eq {cfEqual : Plist → Plist → Bool}
    (hcf : ∀ a b, cfEqual b a = true → a = b) {a b : Plist} (h : a.Equal cfEqual b) : a = b := by
  induction h with
  | same pl => rfl
  | primitive _ _ h => exact hcf _ _ h
  | array hlen _ ih => rw [ext_getElem hlen ih]
  | dict hkeys _ hvalues _ ihk ihv =>
    rw [ext_getElem hkeys ihk, ext_getElem hvalues ihv]

/-! ### The property list of an object -/

theorem Obj.value_congr {o : Obj} {f g : ℕ → Plist} (h : ∀ c ∈ o.children, f c = g c) :
    o.value f = o.value g := by
  cases o with
  | array items => exact congrArg Plist.array (map_congr_left h)
  | set items => exact congrArg Plist.set (map_congr_left h)
  | dict entries =>
    have hkeys (e : ℕ × ℕ) (he : e ∈ entries) : f e.1 = g e.1 :=
      h _ (mem_append_left _ (mem_map_of_mem he))
    have hvalues (e : ℕ × ℕ) (he : e ∈ entries) : f e.2 = g e.2 :=
      h _ (mem_append_right _ (mem_map_of_mem he))
    exact congrArg₂ Plist.dict (map_congr_left hkeys) (map_congr_left hvalues)
  | _ => rfl

namespace Heap

variable (h : Heap)

theorem plistAt_eq {m n p : ℕ} (hm : h.rank p < m) (hn : h.rank p < n) :
    h.plistAt m p = h.plistAt n p := by
  induction m generalizing n p with
  | zero => exact absurd hm (Nat.not_lt_zero _)
  | succ m ih =>
    cases n with
    | zero => exact absurd hn (Nat.not_lt_zero _)
    | succ n =>
      refine value_congr fun c hc => ?_
      have hlt := h.rank_lt p c hc
      exact ih (by omega) (by omega)

theorem plist_eq (p : ℕ) : h.plist p = (h.obj p).value h.plist := by
  refine value_congr fun c hc => ?_
  exact h.plistAt_eq (h.rank_lt p c hc) (Nat.lt_succ_self _)

end Heap

def Obj.isContainer : Obj → Bool
  | .array _ => true
  | .set _ => true
  | .dict _ => true
  | _ => false

theorem Obj.isContainer_of_which {o : Obj} {w : UniquingSet} (h : o.which = some w) :
    o.isContainer = false := by
  cases o with
  | array items => exact nomatch h
  | set items => exact nomatch h
  | dict entries => exact nomatch h
  | _ => rfl

theorem Obj.isPrimitive_value {o : Obj} (h : o.isContainer = false) (pl : ℕ → Plist) :
    (o.value pl).isPrimitive = true := by
  cases o with
  | array items => exact nomatch h
  | set items => exact nomatch h
  | dict entries => exact nomatch h
  | _ => rfl

theorem Obj.child_of_flattened {o : Obj} {c : ℕ} (h : c ∈ o.flattened) : c ∈ o.children := by
  cases o with
  | array items => exact h
  | dict entries => exact h
  | _ => exact nomatch h

/-! ### States -/

section

variable (cfEqual : Plist → Plist → Bool) (h : Heap)

/-- The object at `q` can be written for the one at `p`. -/
def Stands (p q : ℕ) : Prop :=
  q = p ∨ (h.obj p).isContainer = false ∧ (h.obj q).isContainer = false ∧
    cfEqual (h.plist q) (h.plist p) = true

structure FlattenState.Inv (P : ℕ → Prop) (st : FlattenState) : Prop where
  ref : ∀ p r, st.objtable p = some r → ∃ q, st.objlist[r]? = some q ∧ Stands cfEqual h p q
  member : ∀ w, ∀ q ∈ st.uniquingsets w, (h.obj q).which = some w ∧
    ∃ r, st.objtable q = some r ∧ st.objlist[r]? = some q
  found : ∀ p r, st.objtable p = some r → (h.obj p).which.isSome → (st.unique cfEqual h p).isSome
  holds : ∀ q ∈ st.objlist, P q

end

structure FlattenState.Later (st st' : FlattenState) : Prop where
  objlist : st.objlist <+: st'.objlist
  objtable : ∀ p r, st.objtable p = some r → st'.objtable p = some r

/-- What the objects that are new in `st'` hold has been met. -/
def FlattenState.Closed (h : Heap) (st st' : FlattenState) : Prop :=
  ∀ i q, st.objlist.length ≤ i → st'.objlist[i]? = some q → ∀ c ∈ (h.obj q).flattened,
    ∃ r, st'.objtable c = some r

namespace FlattenState

variable {cfEqual : Plist → Plist → Bool} {h : Heap}

variable {P : ℕ → Prop} {st st' st'' : FlattenState}

theorem inv_empty : empty.Inv cfEqual h P where
  ref := fun _ _ h => nomatch h
  member := fun _ _ h => nomatch h
  found := fun _ _ h => nomatch h
  holds := fun _ h => nomatch h

theorem Later.refl (st : FlattenState) : st.Later st := ⟨prefix_refl _, fun _ _ h => h⟩

theorem Later.trans (h : st.Later st') (h' : st'.Later st'') : st.Later st'' where
  objlist := h.objlist.trans h'.objlist
  objtable := fun p r hr => h'.objtable p r (h.objtable p r hr)

theorem Later.length_le (h : st.Later st') : st.objlist.length ≤ st'.objlist.length :=
  h.objlist.length_le

theorem Later.getElem? (h : st.Later st') {i q : ℕ} (hi : st.objlist[i]? = some q) :
    st'.objlist[i]? = some q := by
  obtain ⟨rest, hrest⟩ := h.objlist
  rw [← hrest]
  exact getElem?_append_left (List.getElem?_eq_some_iff.mp hi).1 ▸ hi

theorem closed_refl : Closed h st st := by
  intro i q hi hq
  have hlt := (List.getElem?_eq_some_iff.mp hq).1
  omega

theorem Closed.trans (hc : Closed h st st') (hlater : st'.Later st'') (hc' : Closed h st' st'') :
    Closed h st st'' := by
  intro i q hi hq c hmem
  by_cases hnew : st'.objlist.length ≤ i
  · exact hc' i q hnew hq c hmem
  · have hold : st'.objlist[i]? = some q := by
      obtain ⟨rest, hrest⟩ := hlater.objlist
      rw [← hrest, getElem?_append_left (by omega)] at hq
      exact hq
    obtain ⟨r, hr⟩ := hc i q hi hold c hmem
    exact ⟨r, hlater.objtable c r hr⟩

/-! ### One place more -/

@[simp] theorem objlist_addRef (p r : ℕ) : (st.addRef p r).objlist = st.objlist := by
  unfold addRef
  split <;> rfl

@[simp] theorem uniquingsets_addRef (st : FlattenState) (p r : ℕ) :
    (st.addRef p r).uniquingsets = st.uniquingsets := by
  unfold addRef
  split <;> rfl

theorem objtable_addRef (st : FlattenState) (p r c : ℕ) : (st.addRef p r).objtable c =
      if c = p then some ((st.objtable p).getD r) else st.objtable c := by
  unfold addRef
  cases hp : st.objtable p with
  | some r' =>
    split_ifs with hc
    · rw [hc]
      exact hp
    · rfl
  | none =>
    dsimp only
    rw [Function.update_apply]
    rfl

theorem later_addRef (p r : ℕ) : st.Later (st.addRef p r) where
  objlist := by rw [objlist_addRef]
  objtable := by
    intro c r' hc
    rw [objtable_addRef]
    split_ifs with heq
    · rw [← heq, hc]
      rfl
    · exact hc

theorem unique_addRef (p r c : ℕ) : (st.addRef p r).unique cfEqual h c = st.unique cfEqual h c := by
  unfold unique
  rw [uniquingsets_addRef]

theorem Inv.addRef (hinv : st.Inv cfEqual h P) {p r q : ℕ} (hq : st.objlist[r]? = some q)
    (hstands : Stands cfEqual h p q)
    (hfound : (h.obj p).which.isSome → (st.unique cfEqual h p).isSome) :
    (st.addRef p r).Inv cfEqual h P where
  ref := by
    intro c r' hc
    rw [objlist_addRef]
    rw [objtable_addRef] at hc
    split_ifs at hc with heq
    · rw [heq]
      cases hp : st.objtable p with
      | none =>
        rw [hp] at hc
        cases hc
        exact ⟨q, hq, hstands⟩
      | some r'' =>
        rw [hp] at hc
        cases hc
        exact hinv.ref p r'' hp
    · exact hinv.ref c r' hc
  member := by
    intro w c hc
    rw [uniquingsets_addRef] at hc
    obtain ⟨hwhich, r', hr', hplace⟩ := hinv.member w c hc
    refine ⟨hwhich, r', (later_addRef p r).objtable c r' hr', ?_⟩
    rw [objlist_addRef]
    exact hplace
  found := by
    intro c r' hc hwhich
    rw [unique_addRef]
    rw [objtable_addRef] at hc
    split_ifs at hc with heq
    · rw [heq] at hwhich ⊢
      exact hfound hwhich
    · exact hinv.found c r' hc hwhich
  holds := by
    rw [objlist_addRef]
    exact hinv.holds

/-! ### A new object -/

def push (st : FlattenState) (which : Option UniquingSet) (p : ℕ) : FlattenState :=
  { objlist := st.objlist ++ [p]
    objtable := st.objtable
    uniquingsets := fun w =>
      if which = some w then st.uniquingsets w ++ [p] else st.uniquingsets w }

theorem append_eq (st : FlattenState) (which : Option UniquingSet) (p : ℕ) :
    st.append which p = (st.push which p).addRef p (st.objlist.length % 2 ^ 32) := rfl

theorem later_append (st : FlattenState) (which : Option UniquingSet) (p : ℕ) :
    st.Later (st.append which p) := by
  have hpush : st.Later (st.push which p) := ⟨prefix_append _ _, fun _ _ h => h⟩
  exact hpush.trans (later_addRef p _)

theorem objlist_append (st : FlattenState) (which : Option UniquingSet) (p : ℕ) :
    (st.append which p).objlist = st.objlist ++ [p] := by
  rw [append_eq, objlist_addRef]
  rfl

theorem objtable_append (st : FlattenState) (which : Option UniquingSet) (p : ℕ) :
    ∃ r, (st.append which p).objtable p = some r := by
  rw [append_eq, objtable_addRef, if_pos rfl]
  exact ⟨_, rfl⟩

theorem unique_append_isSome {p c : ℕ}
    (hc : (st.unique cfEqual h c).isSome ∨ c = p ∧ (h.obj p).which.isSome) :
    ((st.append (h.obj p).which p).unique cfEqual h c).isSome := by
  rw [append_eq, unique_addRef]
  unfold unique at hc ⊢
  unfold push
  cases hw : (h.obj c).which with
  | none =>
    rw [hw] at hc
    rcases hc with hc | ⟨rfl, hc⟩
    · exact nomatch hc
    · rw [hw] at hc
      exact nomatch hc
  | some w =>
    rw [hw] at hc
    dsimp only at hc ⊢
    rw [find?_isSome] at hc ⊢
    rcases hc with ⟨q, hq, heq⟩ | ⟨rfl, -⟩
    · refine ⟨q, ?_, heq⟩
      split_ifs with hset
      · exact mem_append_left _ hq
      · exact hq
    · rw [hw, if_pos rfl]
      exact ⟨c, mem_append_right _ (mem_singleton_self c), by simp⟩

theorem Inv.append (hinv : st.Inv cfEqual h P) {p : ℕ} (hp : P p)
    (hunique : st.unique cfEqual h p = none) (hfits : st.objlist.length < 2 ^ 32) :
    (st.append (h.obj p).which p).Inv cfEqual h P:= by
  have hnew (hwhich : (h.obj p).which.isSome) : st.objtable p = none := by
    refine Option.eq_none_iff_forall_ne_some.mpr fun r hr => ?_
    have hfound := hinv.found p r hr hwhich
    rw [hunique] at hfound
    exact nomatch hfound
  have hlater := later_append st (h.obj p).which p
  have hend : (st.append (h.obj p).which p).objlist[st.objlist.length]? = some p := by
    rw [objlist_append, getElem?_concat_length]
  have htable (c r : ℕ) (hc : (st.append (h.obj p).which p).objtable c = some r) :
      st.objtable c = some r ∨ c = p ∧ r = st.objlist.length := by
    rw [append_eq, objtable_addRef] at hc
    split_ifs at hc with heq
    · have hpush : (st.push (h.obj p).which p).objtable p = st.objtable p := rfl
      rw [hpush, Nat.mod_eq_of_lt hfits] at hc
      cases hold : st.objtable p with
      | none =>
        rw [hold] at hc
        cases hc
        exact .inr ⟨heq, rfl⟩
      | some r' =>
        rw [hold] at hc
        cases hc
        rw [heq]
        exact .inl hold
    · exact .inl hc
  constructor
  · intro c r hc
    rcases htable c r hc with hold | ⟨rfl, rfl⟩
    · obtain ⟨q, hq, hstands⟩ := hinv.ref c r hold
      exact ⟨q, hlater.getElem? hq, hstands⟩
    · exact ⟨c, hend, .inl rfl⟩
  · intro w c hc
    have hmem : c ∈ st.uniquingsets w ∨ (h.obj p).which = some w ∧ c = p := by
      rw [append_eq, uniquingsets_addRef] at hc
      change c ∈ (if (h.obj p).which = some w then _ else _) at hc
      split_ifs at hc with hw
      · rcases mem_append.mp hc with hold | hlast
        · exact .inl hold
        · exact .inr ⟨hw, mem_singleton.mp hlast⟩
      · exact .inl hc
    rcases hmem with hold | ⟨hw, rfl⟩
    · obtain ⟨hwhich, r, hr, hplace⟩ := hinv.member w c hold
      exact ⟨hwhich, r, hlater.objtable c r hr, hlater.getElem? hplace⟩
    · refine ⟨hw, st.objlist.length, ?_, hend⟩
      have hnone := hnew (by rw [hw]; rfl)
      have hpush : (st.push (h.obj c).which c).objtable c = none := hnone
      rw [append_eq, objtable_addRef, if_pos rfl, hpush, Nat.mod_eq_of_lt hfits]
      rfl
  · intro c r hc hwhich
    refine unique_append_isSome ?_
    rcases htable c r hc with hold | ⟨rfl, -⟩
    · exact .inl (hinv.found c r hold hwhich)
    · exact .inr ⟨rfl, hwhich⟩
  · intro q hq
    rw [objlist_append] at hq
    rcases mem_append.mp hq with hold | hlast
    · exact hinv.holds q hold
    · rw [mem_singleton.mp hlast]
      exact hp

end FlattenState

/-! ### The calls -/

variable {P : ℕ → Prop} {frames p : ℕ}

/-- What a call or a series of calls does for the pointers in `ps`. -/
def FlattenState.Meets (cfEqual : Plist → Plist → Bool) (h : Heap) (P : ℕ → Prop)
    (st st' : FlattenState) (ps : List ℕ) : Prop :=
  st.Later st' ∧ (st'.objlist.length < 2 ^ 32 → st.Inv cfEqual h P →
    st'.Inv cfEqual h P ∧ Closed h st st' ∧ ∀ p ∈ ps, ∃ r, st'.objtable p = some r)

open FlattenState

theorem foldlM_meets {call : FlattenState → ℕ → Outcome FlattenState} {ps : List ℕ}
    (hcall : ∀ p ∈ ps, ∀ st, ∃ st', call st p = .ok st' ∧ st.Meets cfEqual h P st' [p])
    (st : FlattenState) : ∃ st', ps.foldlM call st = .ok st' ∧ st.Meets cfEqual h P st' ps := by
  induction ps generalizing st with
  | nil => exact ⟨st, rfl, Later.refl st, fun _ hinv => ⟨hinv, closed_refl, nofun⟩⟩
  | cons p ps ih =>
    obtain ⟨st₁, hrun₁, hlater₁, hmeets₁⟩ := hcall p mem_cons_self st
    obtain ⟨st₂, hrun₂, hlater₂, hmeets₂⟩ := ih (forall_mem_cons.mp hcall).2 st₁
    refine ⟨st₂, ?_, hlater₁.trans hlater₂, fun hfits hinv => ?_⟩
    · rw [foldlM_cons, hrun₁, Outcome.ok_bind, hrun₂]
    · have hle := hlater₂.length_le
      obtain ⟨hinv₁, hclosed₁, hmet₁⟩ := hmeets₁ (by omega) hinv
      obtain ⟨hinv₂, hclosed₂, hmet₂⟩ := hmeets₂ hfits hinv₁
      refine ⟨hinv₂, hclosed₁.trans hlater₂ hclosed₂, fun q hq => ?_⟩
      rcases mem_cons.mp hq with rfl | hq
      · obtain ⟨r, hr⟩ := hmet₁ q mem_cons_self
        exact ⟨r, hlater₂.objtable q r hr⟩
      · exact hmet₂ q hq

theorem meets_alias {st : FlattenState} {q : ℕ} (hunique : st.unique cfEqual h p = some q) :
    st.Meets cfEqual h P (if q ≠ p then st.addRef p (st.refOf q) else st) [p] := by
  obtain ⟨w, hw, hq, hequal⟩ : ∃ w, (h.obj p).which = some w ∧ q ∈ st.uniquingsets w ∧
      (q = p ∨ cfEqual (h.plist q) (h.plist p) = true) := by
    unfold unique at hunique
    cases hw : (h.obj p).which with
    | none =>
      rw [hw] at hunique
      exact nomatch hunique
    | some w =>
      rw [hw] at hunique
      refine ⟨w, rfl, mem_of_find?_eq_some hunique, ?_⟩
      have htest := find?_some hunique
      rw [Bool.or_eq_true, decide_eq_true_eq] at htest
      refine htest.imp_right fun hequal => ?_
      cases w with
      | number =>
        unfold UniquingSet.equal at hequal
        split_ifs at hequal with hfloat
        exact hequal
      | _ => exact hequal
  split_ifs with hne
  · refine ⟨later_addRef p _, fun hfits hinv => ?_⟩
    obtain ⟨hwhich, r, hr, hplace⟩ := hinv.member w q hq
    have href : st.refOf q = r := by
      rw [objlist_addRef] at hfits
      have hlt := (List.getElem?_eq_some_iff.mp hplace).1
      rw [refOf, hr]
      exact Nat.mod_eq_of_lt (show r < 2 ^ 32 by omega)
    have hstands : Stands cfEqual h p q :=
      .inr ⟨isContainer_of_which hw, isContainer_of_which hwhich, hequal.resolve_left hne⟩
    rw [href]
    refine ⟨hinv.addRef hplace hstands fun _ => ?_, ?_, ?_⟩
    · rw [hunique]
      rfl
    · intro i q' hi hq'
      rw [objlist_addRef] at hq'
      have hlt := (List.getElem?_eq_some_iff.mp hq').1
      omega
    · intro p' hp'
      rw [mem_singleton.mp hp', objtable_addRef, if_pos rfl]
      exact ⟨_, rfl⟩
  · refine ⟨Later.refl st, fun _ hinv => ⟨hinv, closed_refl, fun p' hp' => ?_⟩⟩
    obtain ⟨-, r, hr, -⟩ := hinv.member w q hq
    rw [mem_singleton.mp hp', ← not_not.mp hne]
    exact ⟨r, hr⟩

theorem meets_append {st st' : FlattenState} (hp : P p) (hunique : st.unique cfEqual h p = none)
    (hrest : (st.append (h.obj p).which p).Meets cfEqual h P st' (h.obj p).flattened) :
    st.Meets cfEqual h P st' [p] := by
  obtain ⟨hlater, hmeets⟩ := hrest
  have hlater₁ := later_append st (h.obj p).which p
  refine ⟨hlater₁.trans hlater, fun hfits hinv => ?_⟩
  have hle := hlater.length_le
  rw [objlist_append, length_append, length_singleton] at hle
  obtain ⟨hinv', hclosed, hmet⟩ := hmeets hfits (hinv.append hp hunique (by omega))
  refine ⟨hinv', ?_, ?_⟩
  · intro i q hi hq c hc
    by_cases hfirst : i = st.objlist.length
    · have hplace : st'.objlist[i]? = some p := by
        refine hlater.getElem? ?_
        rw [hfirst, objlist_append, getElem?_concat_length]
      rw [hplace] at hq
      cases hq
      exact hmet c hc
    · refine hclosed i q ?_ hq c hc
      rw [objlist_append, length_append, length_singleton]
      omega
  · intro p' hp'
    rw [mem_singleton.mp hp']
    obtain ⟨r, hr⟩ := objtable_append st (h.obj p).which p
    exact ⟨r, hlater.objtable p r hr⟩

/-- With a frame for every container on the way down, `_flattenPlist`
returns, and has met the object and all that it holds. -/
theorem flatten_meets (hP : ∀ p, P p → ∀ c ∈ (h.obj p).flattened, P c) (hframes : h.rank p < frames)
    (hp : P p) (st : FlattenState) :
    ∃ st', flattenPlist cfEqual h frames p st = .ok st' ∧ st.Meets cfEqual h P st' [p] := by
  induction frames generalizing p st with
  | zero => exact absurd hframes (Nat.not_lt_zero _)
  | succ frames ih =>
    unfold flattenPlist
    cases hunique : st.unique cfEqual h p with
    | some q => exact ⟨_, rfl, meets_alias hunique⟩
    | none =>
      have hcall (c : ℕ) (hc : c ∈ (h.obj p).flattened) (st : FlattenState) :
          ∃ st', flattenPlist cfEqual h frames c st = .ok st' ∧ st.Meets cfEqual h P st' [c] := by
        have hrank := h.rank_lt p c (child_of_flattened hc)
        exact ih (by omega) (hP p hp c hc) st
      obtain ⟨st', hrun, hmeets⟩ := foldlM_meets hcall (st.append (h.obj p).which p)
      exact ⟨st', hrun, meets_append hp hunique hmeets⟩

theorem flattenPlist_first {st' : FlattenState} (hP : ∀ p, P p → ∀ c ∈ (h.obj p).flattened, P c)
    (hp : P p) (hrank : h.rank p < frames)
    (hrun : flattenPlist cfEqual h frames p .empty = .ok st') :
    st'.objlist[0]? = some p := by
  rcases frames with _ | frames
  · omega
  have hunique : empty.unique cfEqual h p = none := by
    unfold unique
    split <;> rfl
  unfold flattenPlist at hrun
  rw [hunique] at hrun
  have hcall (c : ℕ) (hc : c ∈ (h.obj p).flattened) (st : FlattenState) :
      ∃ st', flattenPlist cfEqual h frames c st = .ok st' ∧ st.Meets cfEqual h P st' [c] := by
    have hlt := h.rank_lt p c (child_of_flattened hc)
    exact flatten_meets hP (by omega) (hP p hp c hc) st
  obtain ⟨st'', hrun', hlater, -⟩ :=
    foldlM_meets hcall (empty.append (h.obj p).which p)
  rw [hrun'] at hrun
  cases hrun
  refine hlater.getElem? ?_
  rfl

end Hexley.Cf.BinaryPlist
