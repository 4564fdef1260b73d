import Mathlib

/-!
Sets and dictionaries as lists.

A set is the list of its elements without repetition, so that it can be
gone through, and a dictionary is an association list without repeated
keys, `AList` of Mathlib. A quantity of a dictionary is the sum of what its
entries contribute. It changes by the contribution of the entry that is put
in or taken out.
-/

namespace Hexley.Lib

open List AList

variable {α β : Type}

@[ext] structure ListSet (α : Type) where
  toList : List α
  nodup : toList.Nodup

namespace ListSet

instance : EmptyCollection (ListSet α) := ⟨⟨[], nodup_nil⟩⟩

instance : Membership α (ListSet α) := ⟨fun s a => a ∈ s.toList⟩

variable {s : ListSet α} {a b : α}

theorem mem_toList : a ∈ s.toList ↔ a ∈ s := Iff.rfl

@[simp] theorem notMem_empty : a ∉ (∅ : ListSet α) := not_mem_nil

@[simp] theorem toList_empty : (∅ : ListSet α).toList = [] := rfl

theorem eq_empty_iff : s = ∅ ↔ ∀ a, a ∉ s := by
  constructor
  · rintro rfl a
    exact notMem_empty
  · intro h
    obtain ⟨l, hl⟩ := s
    obtain rfl : l = [] := List.eq_nil_iff_forall_not_mem.mpr h
    rfl

variable [DecidableEq α]

instance : DecidableEq (ListSet α) := fun s t =>
  decidable_of_iff (s.toList = t.toList) (by cases s; cases t; simp)

instance (a : α) (s : ListSet α) : Decidable (a ∈ s) := inferInstanceAs (Decidable (a ∈ s.toList))

def add (s : ListSet α) (a : α) : ListSet α := ⟨s.toList.insert a, s.nodup.insert⟩

def remove (s : ListSet α) (a : α) : ListSet α := ⟨s.toList.erase a, s.nodup.erase a⟩

@[simp] theorem mem_add : b ∈ s.add a ↔ b = a ∨ b ∈ s := mem_insert_iff

@[simp] theorem mem_remove : b ∈ s.remove a ↔ b ≠ a ∧ b ∈ s := s.nodup.mem_erase_iff

theorem remove_of_notMem (h : a ∉ s) : s.remove a = s := ListSet.ext (erase_of_not_mem h)

@[simp] theorem remove_empty (a : α) : (∅ : ListSet α).remove a = ∅ := remove_of_notMem notMem_empty

theorem mem_foldl_remove (l : List α) : b ∈ l.foldl remove s ↔ b ∈ s ∧ b ∉ l := by
  induction l generalizing s with
  | nil => simp
  | cons a l ih =>
    rw [foldl_cons, ih, mem_remove, mem_cons, not_or]
    tauto

theorem foldl_remove_toList (s : ListSet α) : s.toList.foldl remove s = ∅ :=
  eq_empty_iff.mpr fun _ h => ((mem_foldl_remove _).mp h).2 ((mem_foldl_remove _).mp h).1

end ListSet

/-! ### Dictionaries -/

abbrev Dict (α β : Type) := AList (fun _ : α => β)

namespace Dict

variable {d : Dict α β} {a a' : α} {b b' : β} (f : α → β → ℕ)

def sum (d : Dict α β) (f : α → β → ℕ) : ℕ := (d.entries.map fun e => f e.1 e.2).sum

@[simp] theorem sum_empty : sum (∅ : Dict α β) f = 0 := rfl

variable [DecidableEq α]

theorem lookup_of_entry (h : ⟨a, b⟩ ∈ d.entries) : d.lookup a = some b :=
  mem_lookup_iff.mpr h

theorem sum_erase (h : d.lookup a = some b) : sum (d.erase a) f + f a b = sum d f := by
  have hmem : a ∈ d.entries.keys := mem_keys.mp (lookup_isSome.mp (by simp [h]))
  obtain ⟨b', l₁, l₂, -, hl, herase⟩ := exists_of_kerase hmem
  have hb : b' = b := by
    have hb' : d.lookup a = some b' := lookup_of_entry (by rw [hl]; simp)
    exact Option.some.inj (hb'.symm.trans h)
  subst hb
  have hd : (d.erase a).entries = l₁ ++ l₂ := herase
  unfold sum
  rw [hd, hl]
  simp only [List.map_append, map_cons, sum_append, sum_cons]
  omega

theorem sum_insert_of_none (h : d.lookup a = none) (b : β) :
    sum (d.insert a b) f = f a b + sum d f := by
  have hmem : a ∉ d := lookup_eq_none.mp h
  unfold sum
  rw [entries_insert_of_notMem hmem]
  simp

theorem sum_insert (h : d.lookup a = some b) (b' : β) :
    sum (d.insert a b') f + f a b = sum d f + f a b' := by
  have herase := sum_erase f h
  have hentries : sum (d.insert a b') f = f a b' + sum (d.erase a) f := by
    rfl
  omega

theorem sum_eq_length (hle : ∀ a b, d.lookup a = some b → f a b ≤ 1) {l : List α} (hl : l.Nodup)
    (hmem : ∀ a, a ∈ l ↔ ∃ b, d.lookup a = some b ∧ f a b = 1) : sum d f = l.length := by
  have hcount : ∀ es : List (Sigma fun _ : α => β), (∀ e ∈ es, f e.1 e.2 ≤ 1) →
      (es.map fun e => f e.1 e.2).sum =
        ((es.filter fun e => f e.1 e.2 = 1).map Sigma.fst).length := by
    intro es hes
    induction es with
    | nil => rfl
    | cons e es ih =>
      have he := hes e mem_cons_self
      have ih := ih (forall_mem_cons.mp hes).2
      rw [map_cons, sum_cons, ih, filter_cons]
      split_ifs with hone
      · rw [map_cons, length_cons]
        have := of_decide_eq_true hone
        omega
      · have : f e.1 e.2 ≠ 1 := fun h => hone (decide_eq_true h)
        omega
  have hsum := hcount d.entries fun ⟨a, b⟩ he => hle a b (lookup_of_entry he)
  refine hsum.trans (List.Perm.length_eq ?_)
  have hnodup : ((d.entries.filter fun e => f e.1 e.2 = 1).map Sigma.fst).Nodup :=
    d.nodupKeys.sublist filter_sublist
  rw [perm_ext_iff_of_nodup hnodup hl]
  intro a
  rw [hmem, mem_map]
  constructor
  · rintro ⟨⟨a', b⟩, he, rfl⟩
    obtain ⟨he, hone⟩ := List.mem_filter.mp he
    exact ⟨b, lookup_of_entry he, of_decide_eq_true hone⟩
  · rintro ⟨b, hb, hone⟩
    exact ⟨⟨a, b⟩, List.mem_filter.mpr ⟨mem_lookup_iff.mp hb, decide_eq_true hone⟩, rfl⟩

/-- A pass over the entries of a dictionary. What holds of the keys that have
been passed holds of all of them in the end. -/
theorem foldl_entries {σ : Type} (d : Dict α β) (step : σ → α → β → σ) (P : List α → σ → Prop)
    {s : σ} (h : P [] s) (hstep : ∀ done s a b, d.lookup a = some b → a ∉ done → P done s →
      P (a :: done) (step s a b)) : ∃ done, (∀ a, a ∈ done ↔ a ∈ d) ∧
      P done (d.entries.foldl (fun s e => step s e.1 e.2) s) := by
  -- the entries that are left have no key that has been passed
  have hpass : ∀ (l : List (Sigma fun _ : α => β)) (done : List α) (s : σ),
      (∀ e ∈ l, d.lookup e.1 = some e.2) → l.NodupKeys → (∀ e ∈ l, e.1 ∉ done) → P done s →
      P (l.keys.reverse ++ done) (l.foldl (fun s e => step s e.1 e.2) s) := by
    intro l
    induction l with
    | nil => exact fun done s _ _ _ h => h
    | cons e l ih =>
      intro done s hlookup hnodup hleft h
      have hnodup' := List.nodupKeys_cons.mp hnodup
      rw [foldl_cons, keys_cons, reverse_cons, append_assoc]
      refine ih (e.1 :: done) _ (forall_mem_cons.mp hlookup).2 hnodup'.2 (fun e' he' hmem => ?_)
        (hstep done s e.1 e.2 (hlookup e mem_cons_self) (hleft e mem_cons_self) h)
      rcases List.mem_cons.mp hmem with heq | hmem
      · exact hnodup'.1 (heq ▸ mem_keys_of_mem he')
      · exact hleft e' (mem_cons_of_mem _ he') hmem
  refine ⟨d.entries.keys.reverse ++ [], ?_, hpass d.entries [] s
    (fun e he => lookup_of_entry he) d.nodupKeys (fun _ _ => not_mem_nil) h⟩
  intro a
  rw [append_nil, mem_reverse]
  exact mem_keys.symm

end Dict

end Hexley.Lib
