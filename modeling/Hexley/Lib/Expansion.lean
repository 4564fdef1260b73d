import Mathlib.Algebra.Order.BigOperators.Group.List
import Mathlib.Algebra.Order.Ring.Nat
import Mathlib.Data.List.Nodup
import Mathlib.Logic.Relation
import Mathlib.Tactic.Common

/-!
Putting the nodes of a graph into an order by expanding a list.

The list starts with one node. Its entries are scanned in turn, and the
neighbours of the entry that is scanned are put at the end, whether they are
there already or not. If the scan ever catches up with the end, the list
holds every node that can be reached, and behind the last occurrence of a
node there is an occurrence of each of its neighbours. Read backwards, and
with only the first occurrence of each node kept, the list is an order in
which every node comes behind its neighbours.

The list has an entry for every path from the first node, so that it can be
long even if the graph is small.
-/

namespace Hexley.Lib

open List

variable {α : Type} (deps : α → List α) (root : α)

/-- The list after `k` of its entries have been scanned. -/
inductive Expansion : ℕ → List α → Prop
  | start : Expansion 0 [root]
  | scan {k : ℕ} {l : List α} {e : α} (h : Expansion k l) (he : l[k]? = some e) :
      Expansion (k + 1) (l ++ deps e)

def DependsOn (a b : α) : Prop := b ∈ deps a

/-- The list has every node that can be reached from the root once, behind all of its
neighbours. -/
structure IsLoadOrder (order : List α) : Prop where
  nodup : order.Nodup
  mem_iff : ∀ e, e ∈ order ↔ Relation.ReflTransGen (DependsOn deps) root e
  before : ∀ e ∈ order, ∃ l₁ l₂, order = l₁ ++ e :: l₂ ∧ ∀ d ∈ deps e, d ∈ l₁

variable {deps root} {k : ℕ} {l : List α}

section

variable (h : Expansion deps root k l)
include h

theorem Expansion.root_mem : root ∈ l := by
  induction h with
  | start => exact mem_singleton_self root
  | scan h he ih => exact mem_append_left _ ih

theorem Expansion.le_length : k ≤ l.length := by
  induction h with
  | start => exact Nat.zero_le _
  | scan h he ih =>
    have := (List.getElem?_eq_some_iff.mp he).1
    rw [length_append]
    omega

theorem Expansion.reach : ∀ e ∈ l, Relation.ReflTransGen (DependsOn deps) root e := by
  induction h with
  | start =>
    intro e he
    rw [mem_singleton.mp he]
  | @scan k l s h hs ih =>
    intro e he
    rcases mem_append.mp he with he | he
    · exact ih e he
    · exact (ih s (mem_of_getElem? hs)).tail he

theorem Expansion.later {l₁ l₂ : List α} {e d : α}
    (hl : l = l₁ ++ e :: l₂) (hk : l₁.length < k) (hd : d ∈ deps e) : d ∈ l₂ := by
  induction h generalizing l₁ l₂ with
  | start => omega
  | @scan k l s h hs ih =>
    have hkl : k < l.length := (List.getElem?_eq_some_iff.mp hs).1
    -- The entry is in the old part of the list, since it was scanned.
    obtain ⟨l₃, rfl, rfl⟩ : ∃ l₃, l = l₁ ++ e :: l₃ ∧ l₂ = l₃ ++ deps s := by
      rw [append_eq_append_iff] at hl
      rcases hl with ⟨as, has, -⟩ | ⟨bs, hbs, hrest⟩
      · exact absurd (congrArg length has) (by rw [length_append]; omega)
      · cases bs with
        | nil =>
          rw [append_nil] at hbs
          rw [hbs] at hkl
          omega
        | cons b bs =>
          rw [cons_append, cons.injEq] at hrest
          exact ⟨bs, by rw [hbs, hrest.1], hrest.2⟩
    rcases Nat.lt_or_eq_of_le (Nat.lt_succ_iff.mp hk) with hlt | heq
    · exact mem_append_left _ (ih rfl hlt)
    · rw [← heq, getElem?_append_right (Nat.le_refl _), Nat.sub_self] at hs
      cases hs
      exact mem_append_right _ hd

end

/-! ### Counting paths -/

section Paths

variable (deps)

/-- The number of paths of at most `n` nodes that start at a node of the list. -/
def pathCount : ℕ → List α → ℕ
  | 0, _ => 0
  | n + 1, l => (l.map fun e => 1 + pathCount n (deps e)).sum

theorem pathCount_append (n : ℕ) (l l' : List α) :
    pathCount deps n (l ++ l') = pathCount deps n l + pathCount deps n l' := by
  cases n <;> simp [pathCount]

theorem pathCount_cons (n : ℕ) (e : α) (l : List α) : pathCount deps (n + 1) (e :: l) =
    1 + pathCount deps n (deps e) + pathCount deps (n + 1) l := by
  simp [pathCount]

theorem pathCount_le_succ (n : ℕ) (l : List α) : pathCount deps n l ≤ pathCount deps (n + 1) l := by
  induction n generalizing l with
  | zero => exact Nat.zero_le _
  | succ n ih => exact sum_le_sum fun e _ => Nat.add_le_add_left (ih (deps e)) 1

variable {deps}

theorem Expansion.pathCount_bounds (h : Expansion deps root k l) (n : ℕ) :
    pathCount deps n [root] ≤ k + pathCount deps n (l.drop k) ∧
      k + pathCount deps n (l.drop k) ≤ pathCount deps (n + k) [root] := by
  induction h generalizing n with
  | start => simp
  | @scan k l e h he ih =>
    obtain ⟨hk, rfl⟩ := List.getElem?_eq_some_iff.mp he
    rw [drop_append_of_le_length (show k + 1 ≤ l.length from hk), pathCount_append]
    rw [drop_eq_getElem_cons hk] at ih
    constructor
    · cases n with
      | zero => exact Nat.zero_le _
      | succ n =>
        have hcons := pathCount_cons deps n l[k] (l.drop (k + 1))
        have hdeps := pathCount_le_succ deps n (deps l[k])
        have hold := (ih (n + 1)).1
        omega
    · have hcons := pathCount_cons deps n l[k] (l.drop (k + 1))
      have hrest := pathCount_le_succ deps n (l.drop (k + 1))
      have hold := (ih (n + 1)).2
      rw [add_assoc, add_comm 1 k] at hold
      omega

theorem Expansion.length_le (h : Expansion deps root k l) :
    l.length ≤ pathCount deps (1 + k) [root] := by
  have hone : pathCount deps 1 (l.drop k) = l.length - k := by simp [pathCount]
  have hbound := (h.pathCount_bounds 1).2
  omega

theorem Expansion.pathCount_le (h : Expansion deps root l.length l) (n : ℕ) :
    pathCount deps n [root] ≤ l.length := by
  have hbound := (h.pathCount_bounds n).1
  have hnil : pathCount deps n [] = 0 := by cases n <;> rfl
  rwa [drop_length, hnil] at hbound

end Paths

/-! ### Keeping first occurrences -/

section KeepFirst

variable [DecidableEq α]

def keepFirst : List α → List α → List α
  | acc, [] => acc
  | acc, e :: es => keepFirst (if e ∈ acc then acc else acc ++ [e]) es

theorem keepFirst_append (acc as bs : List α) :
    keepFirst acc (as ++ bs) = keepFirst (keepFirst acc as) bs := by
  induction as generalizing acc with
  | nil => rfl
  | cons a as ih => exact ih _

theorem prefix_keepFirst (acc as : List α) : acc <+: keepFirst acc as := by
  induction as generalizing acc with
  | nil => exact prefix_refl acc
  | cons a as ih =>
    refine List.IsPrefix.trans ?_ (ih _)
    split
    · exact prefix_refl acc
    · exact prefix_append acc [a]

theorem mem_keepFirst (acc as : List α) {e : α} : e ∈ keepFirst acc as ↔ e ∈ acc ∨ e ∈ as := by
  induction as generalizing acc with
  | nil => simp [keepFirst]
  | cons a as ih =>
    rw [keepFirst, ih, mem_cons]
    split
    · next h =>
      constructor
      · rintro (he | he)
        · exact .inl he
        · exact .inr (.inr he)
      · rintro (he | rfl | he)
        · exact .inl he
        · exact .inl h
        · exact .inr he
    · rw [mem_append, mem_singleton, or_assoc]

theorem nodup_keepFirst {acc : List α} (h : acc.Nodup) (as : List α) :
    (keepFirst acc as).Nodup := by
  induction as generalizing acc with
  | nil => exact h
  | cons a as ih =>
    refine ih ?_
    split
    · exact h
    · next ha => exact nodup_append_comm.mp (nodup_cons.mpr ⟨ha, h⟩)

theorem keepFirst_split {l₁ : List α} (l₂ : List α) {e : α} (he : e ∉ l₁) :
    ∃ l₃, keepFirst [] (l₁ ++ e :: l₂) = keepFirst [] l₁ ++ e :: l₃ := by
  have hnot : e ∉ keepFirst [] l₁ := fun h => ((mem_keepFirst [] l₁).mp h).elim nofun he
  obtain ⟨l₃, hl₃⟩ := prefix_keepFirst (keepFirst [] l₁ ++ [e]) l₂
  refine ⟨l₃, ?_⟩
  rw [keepFirst_append, keepFirst, if_neg hnot, ← hl₃, append_assoc]
  rfl

theorem Expansion.isLoadOrder (h : Expansion deps root l.length l) :
    IsLoadOrder deps root (keepFirst [] l.reverse) := by
  have hmem (e : α) : e ∈ keepFirst [] l.reverse ↔ e ∈ l := by
    rw [mem_keepFirst, mem_reverse]
    exact ⟨fun he => he.resolve_left nofun, .inr⟩
  -- Where an entry is for the last time, its neighbours are all behind it.
  have hbefore (e : α) (he : e ∈ l) :
      ∃ l₁ l₂, keepFirst [] l.reverse = l₁ ++ e :: l₂ ∧ ∀ d ∈ deps e, d ∈ l₁ := by
    obtain ⟨as, bs, hrev, hnot⟩ := eq_append_cons_of_mem (mem_reverse.mpr he)
    have hl : l = bs.reverse ++ e :: as.reverse := by
      rw [← reverse_reverse l, hrev, reverse_append, reverse_cons, append_assoc]
      rfl
    obtain ⟨cs, hcs⟩ := keepFirst_split bs hnot
    rw [hrev]
    refine ⟨keepFirst [] as, cs, hcs, fun d hd => (mem_keepFirst [] as).mpr (.inr ?_)⟩
    refine mem_reverse.mp (h.later hl ?_ hd)
    rw [hl, length_append, length_cons]
    omega
  refine ⟨nodup_keepFirst nodup_nil _, fun e => ?_, fun e he => hbefore e ((hmem e).mp he)⟩
  rw [hmem]
  refine ⟨h.reach e, fun hreach => ?_⟩
  induction hreach with
  | refl => exact h.root_mem
  | tail _ hstep ih =>
    obtain ⟨l₁, l₂, hsplit, hdeps⟩ := hbefore _ ih
    rw [← hmem, hsplit]
    exact mem_append_left _ (hdeps _ hstep)

end KeepFirst

theorem IsLoadOrder.acyclic {order : List α} (h : IsLoadOrder deps root order) {e : α}
    (he : e ∈ order) : ¬Relation.TransGen (DependsOn deps) e e := by
  classical
  have hstep {a b : α} (ha : a ∈ order) (hab : DependsOn deps a b) :
      b ∈ order ∧ order.idxOf b < order.idxOf a := by
    obtain ⟨l₁, l₂, hsplit, hdeps⟩ := h.before a ha
    have hnodup := h.nodup
    rw [hsplit] at hnodup ⊢
    have hb : b ∈ l₁ := hdeps b hab
    have hnot : a ∉ l₁ := fun ha' =>
      (nodup_append.mp hnodup).2.2 a ha' a mem_cons_self rfl
    refine ⟨mem_append_left _ hb, ?_⟩
    rw [idxOf_append_of_mem hb, idxOf_append_of_notMem hnot, idxOf_cons_self]
    exact Nat.lt_add_right _ (idxOf_lt_length_of_mem hb)
  have hrun {b : α} (hab : Relation.TransGen (DependsOn deps) e b) :
      b ∈ order ∧ order.idxOf b < order.idxOf e := by
    induction hab with
    | single hab => exact hstep he hab
    | tail _ hbc ih =>
      obtain ⟨hc, hlt⟩ := hstep ih.1 hbc
      exact ⟨hc, Nat.lt_trans hlt ih.2⟩
  exact fun hcycle => Nat.lt_irrefl _ (hrun hcycle).2

end Hexley.Lib
