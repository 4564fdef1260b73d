import Hexley.Configd.Invariant

/-!
Reading the store.

`__SCDynamicStoreCopyMultiple` collects the data of keys and of all keys that match
patterns. For a pattern that some session watches it does not look through the
store, but takes the list that is kept for the pattern. The list also has the keys
that were removed since the lock was taken, which have no data.
-/

namespace Hexley.Configd

open Lib List State Tables AList

variable {K P D : Type} [DecidableEq K] [DecidableEq P]

section

variable (env : Env K P D) (t : Tables K P D)

/-- `__SCDynamicStoreCopyValue`. Nothing stands for `kSCStatusNoKey`. -/
def copyValue (key : K) : Option D := (t.entry key).data

/-- `patternCopyMatches`, which is `__SCDynamicStoreCopyKeyList` for a pattern. -/
def patternCopyMatches (pattern : P) : Option (List K) :=
  (t.patternFind env pattern).map PInfo.keys

def addSpecificKey (dict : Dict K D) (key : K) : Dict K D :=
  match copyValue t key with
  | some data => if key ∈ dict then dict else dict.insert key data
  | none => dict

def addSpecificPattern (dict : Dict K D) (pattern : P) : Dict K D :=
  match patternCopyMatches env t pattern with
  | some found => found.foldl (addSpecificKey t) dict
  | none => dict

def copyMultiple (keys : List K) (patterns : List P) : Dict K D :=
  patterns.foldl (addSpecificPattern env t) (keys.foldl (addSpecificKey t) ∅)

end

variable {env : Env K P D} {t : Tables K P D} {s : State K P D} {dict : Dict K D} {Q : K → Prop}

def Matches (env : Env K P D) (pattern : P) (k : K) : Prop :=
  ∃ regex, env.compile pattern = some regex ∧ regex k = true

/-- The dictionary has the data of these keys. -/
def Copies (t : Tables K P D) (Q : K → Prop) (dict : Dict K D) : Prop :=
  ∀ k data, dict.lookup k = some data ↔ Q k ∧ copyValue t k = some data

omit [DecidableEq P] in
theorem Copies.addSpecificKey (h : Copies t Q dict) (key : K) :
    Copies t (fun k => Q k ∨ k = key) (addSpecificKey t dict key) := by
  intro k data
  have hk := h k data
  unfold Configd.addSpecificKey
  by_cases hkey : k = key
  · subst hkey
    cases hvalue : copyValue t k with
    | none => simp_all
    | some value =>
      by_cases hmem : k ∈ dict
      · obtain ⟨old, hold⟩ := Option.isSome_iff_exists.mp (lookup_isSome.mpr hmem)
        have := (h k old).mp hold
        simp_all
      · simp_all [lookup_insert]
  · cases copyValue t key with
    | none => simp [hk, hkey]
    | some value => by_cases hmem : key ∈ dict <;> simp [hmem, hk, hkey, lookup_insert_ne hkey]

omit [DecidableEq P] in
theorem Copies.foldl (h : Copies t Q dict) (keys : List K) :
    Copies t (fun k => Q k ∨ k ∈ keys) (keys.foldl (Configd.addSpecificKey t) dict) := by
  induction keys generalizing dict Q with
  | nil => simpa using h
  | cons key keys ih => simpa [or_assoc] using ih (h.addSpecificKey key)

variable {patterns : Sid → ListSet P} {pattern : P}

/-- A pattern that can be compiled has a list, which has the keys with data that match,
and no key that does not match or is not held. -/
theorem exists_patternCopyMatches (hs : Sound env t patterns) (hc : t.Complete)
    {regex : K → Bool} (hregex : env.compile pattern = some regex) :
    ∃ found, patternCopyMatches env t pattern = some found ∧ found.Nodup ∧
      (∀ k ∈ found, regex k = true ∧ t.Held k) ∧
      ∀ k, regex k = true → copyValue t k ≠ none → k ∈ found := by
  obtain ⟨pInfo, hfind, hfound⟩ : ∃ pInfo, t.patternFind env pattern = some pInfo ∧
      ∀ k, pInfo.regex k = true → copyValue t k ≠ none → k ∈ pInfo.keys := by
    unfold patternFind
    cases hlookup : t.patternData.lookup pattern with
    | some pInfo => exact ⟨pInfo, rfl, fun k hk hdata => hc pattern pInfo hlookup k hk (.inl hdata)⟩
    | none =>
      refine ⟨_, by rw [patternNew, hregex]; rfl, fun k hk hdata => mem_filter.mpr ⟨?_, ?_⟩⟩
      · rw [← AList.mem_keys, ← AList.lookup_isSome]
        by_contra hnone
        exact hdata (by simp [copyValue, entry, Option.not_isSome_iff_eq_none.mp hnone,
          Entry.empty])
      · simpa [Option.isSome_iff_ne_none] using ⟨hdata, hk⟩
  obtain ⟨-, hcompiled, hnodup, hlisted⟩ := hs.find hfind
  obtain rfl := Option.some.inj (hregex.symm.trans hcompiled)
  exact ⟨pInfo.keys, by rw [patternCopyMatches, hfind]; rfl, hnodup, hlisted, hfound⟩

theorem Copies.addSpecificPattern (hs : Sound env t patterns) (hc : t.Complete)
    (h : Copies t Q dict) (pattern : P) :
    Copies t (fun k => Q k ∨ Matches env pattern k) (addSpecificPattern env t dict pattern) := by
  unfold Configd.addSpecificPattern
  cases hregex : env.compile pattern with
  | none =>
    have hnone : patternCopyMatches env t pattern = none := by
      refine Option.map_eq_none_iff.mpr
        (Option.eq_none_iff_forall_ne_some.mpr fun pInfo hfind => ?_)
      cases hregex.symm.trans (hs.find hfind).2.1
    simpa [hnone, Matches, hregex] using h
  | some regex =>
    obtain ⟨found, heq, -, hlisted, hfound⟩ := exists_patternCopyMatches hs hc hregex
    rw [heq]
    intro k data
    refine (h.foldl found k data).trans (and_congr_left fun hdata => or_congr_right ?_)
    exact ⟨fun hk => ⟨regex, hregex, (hlisted k hk).1⟩,
      fun ⟨regex', hregex', hk⟩ => hfound k (Option.some.inj (hregex.symm.trans hregex') ▸ hk)
        (hdata ▸ nofun)⟩

theorem copies_patterns (hs : Sound env t patterns) (hc : t.Complete) (h : Copies t Q dict)
    (l : List P) : Copies t (fun k => Q k ∨ ∃ pattern ∈ l, Matches env pattern k)
      (l.foldl (Configd.addSpecificPattern env t) dict) := by
  induction l generalizing dict Q with
  | nil => simpa using h
  | cons pattern l ih => simpa [or_assoc] using ih (h.addSpecificPattern hs hc pattern)

/-- In every state between two turns, in runs in which every pattern that is added is
fresh and no holder of the lock dies, `__SCDynamicStoreCopyMultiple` returns the data of
the keys that are asked for by name or match one of the patterns, and nothing else. -/
theorem copyMultiple_lookup (h : Reachable env (fun s i => Careful env s i ∧ NoAbort s i) s)
    (keys : List K) (patterns : List P) (k : K) (data : D) :
    (copyMultiple env s.tables keys patterns).lookup k = some data ↔
      (k ∈ keys ∨ ∃ pattern ∈ patterns, Matches env pattern k) ∧
        copyValue s.tables k = some data := by
  have hagrees := agrees_of_reachable (fun _ _ hi => hi.2) h
  have hempty : Copies s.tables (fun _ => False) ∅ := fun k data => by simp
  have hkeys := hempty.foldl keys
  simp only [false_or] at hkeys
  exact copies_patterns hagrees.sound (complete_of_reachable h) hkeys patterns k data

/-- When nobody holds the lock, the list that is kept for a pattern is what a search of
the store finds: the keys with data that match, each of them once. -/
theorem patternCopyMatches_exact
    (h : Reachable env (fun s i => Careful env s i ∧ NoAbort s i) s) (hfree : s.storeLocked = 0)
    {regex : K → Bool} (hregex : env.compile pattern = some regex) :
    ∃ found, patternCopyMatches env s.tables pattern = some found ∧ found.Nodup ∧
      ∀ k, k ∈ found ↔ regex k = true ∧ copyValue s.tables k ≠ none := by
  have hagrees := agrees_of_reachable (fun _ _ hi => hi.2) h
  have hinv : Inv env s := h.of_moves (c := True) (fun _ _ hi => ⟨fun _ => hi.1, hi.2⟩)
    inv_initial fun _ _ hs => hs.move
  obtain ⟨found, heq, hnodup, hlisted, hfound⟩ :=
    exists_patternCopyMatches hagrees.sound (complete_of_reachable h) hregex
  refine ⟨found, heq, hnodup, fun k => ⟨fun hk => ?_, fun hk => hfound k hk.1 hk.2⟩⟩
  obtain ⟨hmatch, hdata | hdeferred⟩ := hlisted k hk
  · exact ⟨hmatch, hdata⟩
  · rw [(hinv.idle hfree).deferredRemovals] at hdeferred
    cases hdeferred

/-- A session that watches a pattern, and the keys 2 and 5. -/
def watchedState : State ℕ ℕ ℕ :=
  run sampleEnv .initial [.opens 7 0 false, .request 7 (.notifyAddPattern 3),
    .request 7 (.set 5 1), .request 7 (.set 2 1)]

theorem reachable_watchedState :
    Reachable sampleEnv (fun s i => Careful sampleEnv s i ∧ NoAbort s i) watchedState :=
  reachable_run ⟨⟨trivial, trivial⟩, ⟨fun _ _ _ _ hk => absurd hk not_mem_nil, trivial⟩,
    ⟨trivial, trivial⟩, ⟨trivial, trivial⟩, trivial⟩

theorem copyMultiple_lookup_watched :
    (copyMultiple sampleEnv watchedState.tables [] [3]).lookup 5 = some 1 :=
  (copyMultiple_lookup reachable_watchedState [] [3] 5 1).mpr
    ⟨.inr ⟨3, mem_cons_self, _, rfl, rfl⟩, rfl⟩

theorem patternCopyMatches_exact_watched : ∃ found,
    patternCopyMatches sampleEnv watchedState.tables 3 = some found ∧ found.Nodup ∧
      ∀ k, k ∈ found ↔ decide (3 ≤ k) = true ∧ copyValue watchedState.tables k ≠ none :=
  patternCopyMatches_exact reachable_watchedState rfl rfl

end Hexley.Configd
