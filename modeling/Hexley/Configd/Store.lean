import Hexley.Lib.Collections
import Hexley.Lib.Fold

/-!
The tables of the dynamic store (configd, `_SCD.c` and `pattern.c`).

For each key the store has its data, the session whose key it is if it is a
session key, and the sessions that watch it, each with a count of its
references. For each pattern that is watched there are the sessions that
watch it and the keys that match it: those that have data, and those whose
data has been removed since the lock was taken.

The tables are copied when the lock is taken and swapped back when the
holder of the lock dies, so they are kept together with the keys that have
changed, the keys whose removal from the match lists is deferred, and the
session keys that have been removed.

A session is known by the number of its port. The regular expressions are
left open: a pattern is compiled to a test of keys, or cannot be compiled.
-/

namespace Hexley.Configd

open Lib List AList Option

abbrev Sid := ℕ

/-- What is not part of the server: the compiler of patterns, whether a value
is a date, and the value that a key is given to be notified. -/
structure Env (K P D : Type) where
  compile : P → Option (K → Bool)
  isDate : D → Bool
  trueValue : D

structure Entry (D : Type) where
  data : Option D
  session : Option Sid
  /-- `kSCDWatchers` and `kSCDWatcherRefs`. -/
  watchers : Dict Sid ℕ

namespace Entry

variable {D : Type}

def empty : Entry D := ⟨none, none, ∅⟩

def isEmpty (e : Entry D) : Bool :=
  e.data.isNone && e.session.isNone && e.watchers.entries.isEmpty

theorem eq_empty {e : Entry D} (h : e.isEmpty = true) : e = empty := by
  obtain ⟨data, session, watchers⟩ := e
  simp only [isEmpty, Bool.and_eq_true, isNone_iff_eq_none, List.isEmpty_iff] at h
  obtain ⟨⟨rfl, rfl⟩, hw⟩ := h
  have : watchers = ∅ := ext hw
  rw [this, empty]

def refs (e : Entry D) (sid : Sid) : ℕ := (e.watchers.lookup sid).getD 0

end Entry

structure PInfo (K : Type) where
  regex : K → Bool
  sessions : List Sid
  keys : List K

namespace PInfo

variable {K : Type} [DecidableEq K]

def withKey (pInfo : PInfo K) (key : K) : PInfo K :=
  if pInfo.regex key then { pInfo with keys := pInfo.keys ++ [key] } else pInfo

def withoutKey (pInfo : PInfo K) (key : K) : PInfo K :=
  { pInfo with keys := pInfo.keys.erase key }

end PInfo

/-- The tables that are copied when the lock is taken. -/
structure Tables (K P D : Type) where
  storeData : Dict K (Entry D)
  patternData : Dict P (PInfo K)
  changedKeys : ListSet K
  deferredRemovals : ListSet K
  removedSessionKeys : ListSet (Sid × K)
  /-- A record that the server does not keep: the keys whose data has been
  stored or removed since the lock was taken. -/
  writes : List K

namespace Tables

variable {K P D : Type} [DecidableEq K]

def empty : Tables K P D := ⟨∅, ∅, ∅, ∅, ∅, []⟩

variable (t : Tables K P D)

def entry (k : K) : Entry D :=
  (t.storeData.lookup k).getD .empty

def put (k : K) (e : Entry D) : Tables K P D :=
  { t with storeData := if e.isEmpty then t.storeData.erase k else t.storeData.insert k e }

def write (k : K) (e : Entry D) : Tables K P D :=
  { t.put k e with writes := k :: t.writes }

def addWatcher (sid : Sid) (watchedKey : K) : Tables K P D :=
  let e := t.entry watchedKey
  match e.watchers.lookup sid with
  | none => t.put watchedKey { e with watchers := e.watchers.insert sid 1 }
  | some refCnt => t.put watchedKey { e with watchers := e.watchers.insert sid (refCnt + 1) }

def removeWatcher (sid : Sid) (watchedKey : K) : Tables K P D :=
  let e := t.entry watchedKey
  match e.watchers.lookup sid with
  | none => t
  | some refCnt =>
    if refCnt - 1 > 0 then
      t.put watchedKey { e with watchers := e.watchers.insert sid (refCnt - 1) }
    else t.put watchedKey { e with watchers := e.watchers.erase sid }

/-! ### Patterns -/

section

variable [DecidableEq P]

variable (t : Tables K P D)

def setPattern (pattern : P) (pInfo : PInfo K) : Tables K P D :=
  { t with patternData := t.patternData.insert pattern pInfo }

def dropPattern (pattern : P) : Tables K P D :=
  { t with patternData := t.patternData.erase pattern }

variable (env : Env K P D)

def patternNew (t : Tables K P D) (pattern : P) : Option (PInfo K) :=
  (env.compile pattern).map fun regex =>
    { regex
      sessions := []
      keys := t.storeData.keys.filter fun k => (t.entry k).data.isSome && regex k }

/-- `patternCopy`, or `patternNew` if the pattern is not known. -/
def patternFind (t : Tables K P D) (pattern : P) : Option (PInfo K) :=
  match t.patternData.lookup pattern with
  | some pInfo => some pInfo
  | none => t.patternNew env pattern

def patternAddSession (t : Tables K P D) (pattern : P) (sid : Sid) : Option (Tables K P D) :=
  (t.patternFind env pattern).map fun pInfo =>
    let pInfo := { pInfo with sessions := pInfo.sessions ++ [sid] }
    pInfo.keys.foldl (fun t matchingKey => t.addWatcher sid matchingKey)
      (t.setPattern pattern pInfo)

/-- `patternRemoveSession`. It fails if there is no such pattern, or if other
sessions watch the pattern but not this one. -/
def patternRemoveSession (pattern : P) (sid : Sid) : Option (Tables K P D) :=
  match t.patternData.lookup pattern with
  | none => none
  | some pInfo =>
    let t := pInfo.keys.foldl (fun t matchingKey => t.removeWatcher sid matchingKey) t
    if pInfo.sessions.length > 1 then
      if sid ∈ pInfo.sessions then
        some (t.setPattern pattern { pInfo with sessions := pInfo.sessions.erase sid })
      else none
    else some (t.dropPattern pattern)

def addKeyForPattern (storeKey : K) (t : Tables K P D) (pattern : P)
    (pInfo : PInfo K) : Tables K P D :=
  if pInfo.regex storeKey then
    let t := pInfo.sessions.foldl (fun t sid => t.addWatcher sid storeKey) t
    t.setPattern pattern { pInfo with keys := pInfo.keys ++ [storeKey] }
  else t

variable (key : K)

def patternAddKey : Tables K P D :=
  t.patternData.entries.foldl (fun t e => addKeyForPattern key t e.1 e.2) t

def removeKeyFromPattern (storeKey : K) (t : Tables K P D) (pattern : P)
    (pInfo : PInfo K) : Tables K P D :=
  if storeKey ∈ pInfo.keys then
    let t := pInfo.sessions.foldl (fun t sid => t.removeWatcher sid storeKey) t
    t.setPattern pattern { pInfo with keys := pInfo.keys.erase storeKey }
  else t

def patternRemoveKey : Tables K P D :=
  t.patternData.entries.foldl (fun t e => removeKeyFromPattern key t e.1 e.2) t

/-- The end of `__SCDynamicStoreSetValue`: the dictionary is stored, a new key
is matched with the patterns unless it was removed under the same lock, and
the key is marked as changed. -/
def setEntry (newDict : Entry D) (newEntry : Bool) : Tables K P D :=
  let t := t.write key newDict
  let t :=
    if newEntry then
      if key ∈ t.deferredRemovals then
        { t with deferredRemovals := t.deferredRemovals.remove key }
      else t.patternAddKey key
    else t
  { t with changedKeys := t.changedKeys.add key }

/-- The end of `__SCDynamicStoreRemoveValue`, for a key that has data. -/
def removeEntry : Tables K P D :=
  let dict := t.entry key
  let t :=
    { t with
      changedKeys := t.changedKeys.add key
      deferredRemovals := t.deferredRemovals.add key }
  let t :=
    match dict.session with
    | some owner => { t with removedSessionKeys := t.removedSessionKeys.add (owner, key) }
    | none => t
  t.write key { dict with data := none, session := none }

def processDeferredRemovals : Tables K P D :=
  let t := t.deferredRemovals.toList.foldl (fun t key => t.patternRemoveKey key) t
  { t with deferredRemovals := ∅ }

end

/-! ### What the operations on entries do -/

variable {t t' t'' : Tables K P D} {sid sid' : Sid} {k k' : K}

@[simp] theorem entry_put (e : Entry D) :
    (t.put k e).entry k' = if k' = k then e else t.entry k' := by
  unfold put entry
  by_cases he : e.isEmpty = true
  · rw [if_pos he]
    by_cases hk : k' = k
    · subst hk
      rw [if_pos rfl, lookup_erase, Entry.eq_empty he]
      rfl
    · rw [if_neg hk, lookup_erase_ne hk]
  · rw [if_neg he]
    by_cases hk : k' = k
    · subst hk
      rw [if_pos rfl, lookup_insert]
      rfl
    · rw [if_neg hk, lookup_insert_ne hk]

def refs (t : Tables K P D) (sid : Sid) (k : K) : ℕ := (t.entry k).refs sid

def Positive (t : Tables K P D) : Prop :=
  ∀ k sid n, (t.entry k).watchers.lookup sid = some n → 0 < n

structure SameData (t t' : Tables K P D) : Prop where
  data : ∀ k, (t'.entry k).data = (t.entry k).data
  session : ∀ k, (t'.entry k).session = (t.entry k).session
  changedKeys : t'.changedKeys = t.changedKeys
  deferredRemovals : t'.deferredRemovals = t.deferredRemovals
  removedSessionKeys : t'.removedSessionKeys = t.removedSessionKeys
  writes : t'.writes = t.writes
  positive : t.Positive → t'.Positive

theorem SameData.refl (t : Tables K P D) : SameData t t :=
  ⟨fun _ => rfl, fun _ => rfl, rfl, rfl, rfl, rfl, id⟩

theorem SameData.trans (h : SameData t t') (h' : SameData t' t'') : SameData t t'' :=
  ⟨fun k => (h'.data k).trans (h.data k), fun k => (h'.session k).trans (h.session k),
    h'.changedKeys.trans h.changedKeys, h'.deferredRemovals.trans h.deferredRemovals,
    h'.removedSessionKeys.trans h.removedSessionKeys, h'.writes.trans h.writes,
    h'.positive ∘ h.positive⟩

structure SameButWatchers (t t' : Tables K P D) : Prop extends SameData t t' where
  patternData : t'.patternData = t.patternData

theorem SameButWatchers.refl (t : Tables K P D) : SameButWatchers t t := ⟨.refl t, rfl⟩

theorem SameButWatchers.trans (h : SameButWatchers t t') (h' : SameButWatchers t' t'') :
    SameButWatchers t t'' :=
  ⟨h.toSameData.trans h'.toSameData, h'.patternData.trans h.patternData⟩

theorem same_foldl {α : Type} {f : Tables K P D → α → Tables K P D}
    (hf : ∀ t a, SameButWatchers t (f t a)) (l : List α) (t : Tables K P D) :
    SameButWatchers t (l.foldl f t) :=
  foldl_along .refl (fun _ _ _ => .trans) hf l t

theorem sameButWatchers_put {w : Dict Sid ℕ}
    (hpos : t.Positive → (t.put k { t.entry k with watchers := w }).Positive) :
    SameButWatchers t (t.put k { t.entry k with watchers := w }) := by
  refine ⟨⟨fun k' => ?_, fun k' => ?_, rfl, rfl, rfl, rfl, hpos⟩, rfl⟩ <;>
    rcases eq_or_ne k' k with rfl | hk <;> simp [*]

theorem addWatcher_eq : t.addWatcher sid k = t.put k { t.entry k with
        watchers := (t.entry k).watchers.insert sid (t.refs sid k + 1) } := by
  unfold addWatcher refs Entry.refs
  dsimp only
  cases (t.entry k).watchers.lookup sid with
  | none => rfl
  | some n => rfl

theorem same_addWatcher (t : Tables K P D) (sid : Sid) (k : K) :
    SameButWatchers t (t.addWatcher sid k) := by
  rw [addWatcher_eq]
  refine sameButWatchers_put fun h k' sid' n hn => ?_
  rw [entry_put] at hn
  split_ifs at hn
  · rcases eq_or_ne sid' sid with rfl | hs
    · rw [lookup_insert, some.injEq] at hn
      omega
    · rw [lookup_insert_ne hs] at hn
      exact h k sid' n hn
  · exact h k' sid' n hn

theorem lookup_removeWatcher : ((t.removeWatcher sid k).entry k').watchers.lookup sid' =
      if sid' = sid ∧ k' = k then
        ((t.entry k).watchers.lookup sid).bind fun n => if n - 1 > 0 then some (n - 1) else none
      else (t.entry k').watchers.lookup sid' := by
  unfold removeWatcher
  dsimp only
  cases hlookup : (t.entry k).watchers.lookup sid with
  | none =>
    split_ifs with h
    · rw [h.1, h.2, hlookup]
      rfl
    · rfl
  | some n =>
    dsimp only [bind_some]
    rcases eq_or_ne k' k with rfl | hk
    · rcases eq_or_ne sid' sid with rfl | hs
      · split_ifs <;> simp_all [lookup_erase]
      · split_ifs <;> simp_all [lookup_insert_ne hs, lookup_erase_ne hs]
    · split_ifs <;> simp_all

theorem same_removeWatcher (t : Tables K P D) (sid : Sid) (k : K) :
    SameButWatchers t (t.removeWatcher sid k) := by
  have hpos : t.Positive → (t.removeWatcher sid k).Positive := fun h k' sid' n hn => by
    rw [lookup_removeWatcher] at hn
    split_ifs at hn
    · obtain ⟨m, -, hm⟩ := bind_eq_some_iff.mp hn
      split_ifs at hm with hcnt
      exact some.inj hm ▸ hcnt
    · exact h k' sid' n hn
  revert hpos
  unfold removeWatcher
  dsimp only
  cases (t.entry k).watchers.lookup sid with
  | none => exact fun _ => .refl t
  | some n =>
    dsimp only
    split_ifs <;> exact sameButWatchers_put

theorem refs_addWatcher : (t.addWatcher sid k).refs sid' k' =
      t.refs sid' k' + if sid' = sid ∧ k' = k then 1 else 0 := by
  rw [addWatcher_eq]
  unfold refs Entry.refs
  by_cases hk : k' = k
  · subst hk
    by_cases hs : sid' = sid
    · subst hs
      simp
    · simp [hs, lookup_insert_ne hs]
  · simp [hk]

theorem refs_removeWatcher : (t.removeWatcher sid k).refs sid' k' =
      t.refs sid' k' - if sid' = sid ∧ k' = k then 1 else 0 := by
  rw [refs, Entry.refs, lookup_removeWatcher]
  split_ifs with h
  · obtain ⟨rfl, rfl⟩ := h
    unfold refs Entry.refs
    cases (t.entry k').watchers.lookup sid' with
    | none => rfl
    | some n =>
      dsimp only [bind_some]
      split_ifs
      · rfl
      · simp; omega
  · rfl

/-! ### Passes over keys and sessions -/

section

variable {α : Type} [DecidableEq α] {b : Prop} [Decidable b] {a : α}
  {f : Tables K P D → α → Tables K P D}

theorem refs_foldl {op : ℕ → ℕ → ℕ} (hzero : ∀ n, op n 0 = n)
    (hop : ∀ n m m', op (op n m) m' = op n (m + m'))
    (hf : ∀ t x, (f t x).refs sid k = op (t.refs sid k) (if b ∧ a = x then 1 else 0)) (l : List α) :
    (l.foldl f t).refs sid k = op (t.refs sid k) (if b then l.count a else 0) := by
  induction l generalizing t with
  | nil => simp [hzero]
  | cons x l ih =>
    rw [foldl_cons, ih, hf, hop]
    congr 1
    rcases eq_or_ne a x with rfl | hx
    · split_ifs <;> simp_all [add_comm]
    · rw [count_cons_of_ne hx.symm]
      simp [hx]

end

variable (keys : List K) (p : P) (key : K) (sessions : List Sid)

theorem refs_addWatcher_keys : (keys.foldl (fun t k => t.addWatcher sid k) t).refs sid' k' =
      t.refs sid' k' + if sid' = sid then keys.count k' else 0 :=
  refs_foldl add_zero add_assoc (fun _ _ => refs_addWatcher) keys

theorem refs_foldl_keys : (keys.foldl (fun t k => t.removeWatcher sid k) t).refs sid' k' =
      t.refs sid' k' - if sid' = sid then keys.count k' else 0 :=
  refs_foldl Nat.sub_zero Nat.sub_sub (fun _ _ => refs_removeWatcher) keys

theorem refs_addWatcher_sessions :
    (sessions.foldl (fun t sid => t.addWatcher sid k) t).refs sid' k' =
      t.refs sid' k' + if k' = k then sessions.count sid' else 0 :=
  refs_foldl add_zero add_assoc (fun _ _ => by simp only [refs_addWatcher, and_comm]) sessions

theorem refs_foldl_sessions : (sessions.foldl (fun t sid => t.removeWatcher sid k) t).refs sid' k' =
      t.refs sid' k' - if k' = k then sessions.count sid' else 0 :=
  refs_foldl Nat.sub_zero Nat.sub_sub (fun _ _ => by simp only [refs_removeWatcher, and_comm])
    sessions

/-! ### The references that come from patterns -/

def share (sid : Sid) (k : K) (pInfo : PInfo K) : ℕ :=
  pInfo.sessions.count sid * pInfo.keys.count k

def via (t : Tables K P D) (sid : Sid) (k : K) : ℕ :=
  Dict.sum t.patternData fun _ pInfo => share sid k pInfo

structure Gains (t t' : Tables K P D) : Prop extends SameData t t' where
  counts : ∀ sid k, ∃ c, t'.refs sid k = t.refs sid k + c ∧ t'.via sid k = t.via sid k + c

structure Loses (t t' : Tables K P D) : Prop extends SameData t t' where
  counts : ∀ sid k, ∃ c, t'.refs sid k = t.refs sid k - c ∧ t'.via sid k + c = t.via sid k

theorem Gains.refl (t : Tables K P D) : Gains t t := ⟨.refl t, fun _ _ => ⟨0, rfl, rfl⟩⟩

theorem Gains.trans (h : Gains t t') (h' : Gains t' t'') : Gains t t'' := by
  refine ⟨h.toSameData.trans h'.toSameData, fun sid k => ?_⟩
  obtain ⟨c, hrefs, hvia⟩ := h.counts sid k
  obtain ⟨c', hrefs', hvia'⟩ := h'.counts sid k
  exact ⟨c + c', by omega, by omega⟩

theorem Loses.refl (t : Tables K P D) : Loses t t := ⟨.refl t, fun _ _ => ⟨0, rfl, rfl⟩⟩

theorem Loses.trans (h : Loses t t') (h' : Loses t' t'') : Loses t t'' := by
  refine ⟨h.toSameData.trans h'.toSameData, fun sid k => ?_⟩
  obtain ⟨c, hrefs, hvia⟩ := h.counts sid k
  obtain ⟨c', hrefs', hvia'⟩ := h'.counts sid k
  exact ⟨c + c', by omega, by omega⟩

theorem SameButWatchers.via_eq (h : SameButWatchers t t') : t'.via sid k = t.via sid k := by
  unfold via
  rw [h.patternData]

variable [DecidableEq P] {pattern : P} {pInfo : PInfo K}

@[simp] theorem refs_setPattern (t : Tables K P D) (pattern : P)
    (pInfo : PInfo K) : (t.setPattern pattern pInfo).refs sid k = t.refs sid k :=
  rfl

@[simp] theorem refs_dropPattern (t : Tables K P D) (pattern : P) :
    (t.dropPattern pattern).refs sid k = t.refs sid k :=
  rfl

theorem sameData_setPattern : SameData t (t.setPattern pattern pInfo) :=
  ⟨fun _ => rfl, fun _ => rfl, rfl, rfl, rfl, rfl, id⟩

theorem sameData_dropPattern : SameData t (t.dropPattern pattern) :=
  ⟨fun _ => rfl, fun _ => rfl, rfl, rfl, rfl, rfl, id⟩

omit [DecidableEq K] in
theorem lookup_setPattern (t : Tables K P D) (pattern p : P) (pInfo : PInfo K) :
    (t.setPattern pattern pInfo).patternData.lookup p =
      if p = pattern then some pInfo else t.patternData.lookup p := by
  unfold setPattern
  split_ifs with h
  · rw [h, lookup_insert]
  · rw [lookup_insert_ne h]

omit [DecidableEq K] in
theorem lookup_dropPattern : (t.dropPattern pattern).patternData.lookup p =
      if p = pattern then none else t.patternData.lookup p := by
  unfold dropPattern
  split_ifs with h
  · rw [h, lookup_erase]
  · rw [lookup_erase_ne h]

theorem via_setPattern (sid : Sid) (k : K) (h : t.patternData.lookup pattern = some pInfo)
    (pInfo' : PInfo K) : (t.setPattern pattern pInfo').via sid k + share sid k pInfo =
      t.via sid k + share sid k pInfo' :=
  Dict.sum_insert (fun _ pInfo => share sid k pInfo) h pInfo'

theorem via_setPattern_of_none (h : t.patternData.lookup pattern = none) :
    (t.setPattern pattern pInfo).via sid k = share sid k pInfo + t.via sid k :=
  Dict.sum_insert_of_none (fun _ pInfo => share sid k pInfo) h pInfo

theorem via_dropPattern (sid : Sid) (k : K) (h : t.patternData.lookup pattern = some pInfo) :
    (t.dropPattern pattern).via sid k + share sid k pInfo = t.via sid k :=
  Dict.sum_erase (fun _ pInfo => share sid k pInfo) h

/-! ### A key comes and goes -/

omit [DecidableEq K] in
theorem foldl_patterns {step : Tables K P D → P → PInfo K → Tables K P D} {f : PInfo K → PInfo K}
    (R : Tables K P D → Tables K P D → Prop) (hrefl : ∀ t, R t t)
    (htrans : ∀ t t' t'', R t t' → R t' t'' → R t t'')
    (hstep : ∀ t pattern pInfo, t.patternData.lookup pattern = some pInfo →
      R t (step t pattern pInfo))
    (hlookup : ∀ t pattern pInfo p, t.patternData.lookup pattern = some pInfo →
      (step t pattern pInfo).patternData.lookup p =
        if p = pattern then some (f pInfo) else t.patternData.lookup p) :
    R t (t.patternData.entries.foldl (fun t e => step t e.1 e.2) t) ∧ ∀ p,
      (t.patternData.entries.foldl (fun t e => step t e.1 e.2) t).patternData.lookup p =
        (t.patternData.lookup p).map f := by
  -- the patterns that have been passed have new information, the others have the old
  obtain ⟨done, hdone, hrel, hdata⟩ := Dict.foldl_entries t.patternData step
    (fun done t' => R t t' ∧ ∀ p, t'.patternData.lookup p =
      if p ∈ done then (t.patternData.lookup p).map f else t.patternData.lookup p)
    ⟨hrefl t, fun p => by simp⟩
    (by
      rintro done t' pattern pInfo h hnew ⟨hrel, hdata⟩
      have h' : t'.patternData.lookup pattern = some pInfo := by
        rw [hdata, if_neg hnew, h]
      refine ⟨htrans _ _ _ hrel (hstep _ _ _ h'), fun p => ?_⟩
      rw [hlookup _ _ _ _ h', hdata]
      rcases eq_or_ne p pattern with rfl | hp
      · simp [h]
      · simp [hp])
  refine ⟨hrel, fun p => ?_⟩
  rw [hdata p]
  split_ifs with hp
  · rfl
  · rw [lookup_eq_none.mpr fun hmem => hp ((hdone p).mpr hmem)]
    rfl

theorem gains_addKeyForPattern (h : t.patternData.lookup pattern = some pInfo) :
    Gains t (addKeyForPattern key t pattern pInfo) := by
  unfold addKeyForPattern
  split_ifs with hregex
  · have hsame := same_foldl (fun t sid => same_addWatcher t sid key) pInfo.sessions t
    rw [← hsame.patternData] at h
    refine ⟨hsame.toSameData.trans sameData_setPattern, fun sid k =>
      ⟨if k = key then pInfo.sessions.count sid else 0, ?_, ?_⟩⟩
    · rw [refs_setPattern, refs_addWatcher_sessions]
    · have hvia := via_setPattern sid k h { pInfo with keys := pInfo.keys ++ [key] }
      rw [hsame.via_eq] at hvia
      have hshare : share sid k { pInfo with keys := pInfo.keys ++ [key] } =
          share sid k pInfo + if k = key then pInfo.sessions.count sid else 0 := by
        unfold share
        rw [count_append, Nat.mul_add, count_singleton]
        rcases eq_or_ne k key with rfl | hk
        · simp
        · simp [hk, hk.symm]
      dsimp only
      omega
  · exact .refl t

theorem lookup_addKeyForPattern (h : t.patternData.lookup pattern = some pInfo) :
    (addKeyForPattern key t pattern pInfo).patternData.lookup p =
      if p = pattern then some (pInfo.withKey key) else t.patternData.lookup p := by
  unfold addKeyForPattern PInfo.withKey
  split_ifs with hregex hp hp
  · rw [lookup_setPattern, if_pos hp]
  · have hsame := same_foldl (fun t sid => same_addWatcher t sid key) pInfo.sessions t
    rw [lookup_setPattern, if_neg hp, hsame.patternData]
  · rw [hp, h]
  · rfl

/-- `patternAddKey` appends the key to the list of each pattern that it
matches, and makes the sessions of these patterns its watchers. -/
theorem addKey_spec (t : Tables K P D) (key : K) : Gains t (t.patternAddKey key) ∧ ∀ p,
      (t.patternAddKey key).patternData.lookup p =
        (t.patternData.lookup p).map fun pInfo => pInfo.withKey key :=
  foldl_patterns Gains .refl (fun _ _ _ => Gains.trans)
    (fun _ _ _ h => gains_addKeyForPattern key h)
    (fun _ _ _ p h => lookup_addKeyForPattern p key h)

theorem loses_removeKey (h : t.patternData.lookup pattern = some pInfo) :
    Loses t (removeKeyFromPattern key t pattern pInfo) := by
  unfold removeKeyFromPattern
  split_ifs with hmem
  · have hsame := same_foldl (fun t sid => same_removeWatcher t sid key) pInfo.sessions t
    rw [← hsame.patternData] at h
    refine ⟨hsame.toSameData.trans sameData_setPattern, fun sid k =>
      ⟨if k = key then pInfo.sessions.count sid else 0, ?_, ?_⟩⟩
    · rw [refs_setPattern, refs_foldl_sessions]
    · have hvia := via_setPattern sid k h { pInfo with keys := pInfo.keys.erase key }
      rw [hsame.via_eq] at hvia
      have hshare : share sid k { pInfo with keys := pInfo.keys.erase key } +
          (if k = key then pInfo.sessions.count sid else 0) = share sid k pInfo := by
        unfold share
        rcases eq_or_ne k key with rfl | hk
        · obtain ⟨n, hn⟩ := Nat.exists_eq_add_of_lt (List.count_pos_iff.mpr hmem)
          rw [count_erase_self, if_pos rfl, hn]
          simp [Nat.mul_add]
        · rw [count_erase_of_ne hk, if_neg hk, add_zero]
      dsimp only
      omega
  · exact .refl t

theorem lookup_removeKey (h : t.patternData.lookup pattern = some pInfo) :
    (removeKeyFromPattern key t pattern pInfo).patternData.lookup p =
      if p = pattern then some (pInfo.withoutKey key) else t.patternData.lookup p := by
  unfold removeKeyFromPattern PInfo.withoutKey
  split_ifs with hmem hp hp
  · rw [lookup_setPattern, if_pos hp]
  · have hsame := same_foldl (fun t sid => same_removeWatcher t sid key) pInfo.sessions t
    rw [lookup_setPattern, if_neg hp, hsame.patternData]
  · rw [hp, h, erase_of_not_mem hmem]
  · rfl

/-- `patternRemoveKey` takes the key out of the lists of the patterns, and the
sessions of these patterns lose a reference to it. -/
theorem patternRemoveKey_spec (t : Tables K P D) (key : K) :
    Loses t (t.patternRemoveKey key) ∧ ∀ p, (t.patternRemoveKey key).patternData.lookup p =
        (t.patternData.lookup p).map fun pInfo => pInfo.withoutKey key :=
  foldl_patterns Loses .refl (fun _ _ _ => Loses.trans) (fun _ _ _ h => loses_removeKey key h)
    (fun _ _ _ p h => lookup_removeKey p key h)

theorem deferred_spec (t : Tables K P D) :
    Loses { t with deferredRemovals := ∅ } t.processDeferredRemovals ∧ ∀ p,
      t.processDeferredRemovals.patternData.lookup p = (t.patternData.lookup p).map fun pInfo =>
          { pInfo with keys := pInfo.keys.diff t.deferredRemovals.toList } := by
  have hpass : ∀ (l : List K) (t : Tables K P D),
      Loses t (l.foldl (fun t key => t.patternRemoveKey key) t) ∧ ∀ p,
        (l.foldl (fun t key => t.patternRemoveKey key) t).patternData.lookup p =
          (t.patternData.lookup p).map fun pInfo => { pInfo with keys := pInfo.keys.diff l } := by
    intro l
    induction l with
    | nil => exact fun t => ⟨.refl t, fun p => by simp⟩
    | cons key l ih =>
      intro t
      obtain ⟨hloses, hlookup⟩ := t.patternRemoveKey_spec key
      obtain ⟨hloses', hlookup'⟩ := ih (t.patternRemoveKey key)
      refine ⟨hloses.trans hloses', fun p => ?_⟩
      rw [foldl_cons, hlookup', hlookup, Option.map_map]
      simp only [diff_cons]
      rfl
  obtain ⟨hloses, hlookup⟩ := hpass t.deferredRemovals.toList t
  exact ⟨⟨⟨hloses.data, hloses.session, hloses.changedKeys, rfl, hloses.removedSessionKeys,
    hloses.writes, hloses.positive⟩, hloses.counts⟩, hlookup⟩

/-! ### A session without patterns -/

def Unlisted (t : Tables K P D) (sid : Sid) : Prop :=
  ∀ p pInfo, t.patternData.lookup p = some pInfo → sid ∉ pInfo.sessions

def KeepsUnlisted (sid : Sid) (t t' : Tables K P D) : Prop :=
  t.Unlisted sid → t'.Unlisted sid ∧
    ∀ k, (t'.entry k).watchers.lookup sid = (t.entry k).watchers.lookup sid

theorem KeepsUnlisted.trans (h : KeepsUnlisted sid t t') (h' : KeepsUnlisted sid t' t'') :
    KeepsUnlisted sid t t'' := fun hsid => by
  obtain ⟨hsid', hlookup⟩ := h hsid
  obtain ⟨hsid'', hlookup'⟩ := h' hsid'
  exact ⟨hsid'', fun k => (hlookup' k).trans (hlookup k)⟩

omit [DecidableEq P] in
theorem watchers_foldl_remove {sessions : List Sid} (hsid : sid ∉ sessions) :
    ((sessions.foldl (fun t sid => t.removeWatcher sid k') t).entry k).watchers.lookup sid =
      (t.entry k).watchers.lookup sid := by
  induction sessions generalizing t with
  | nil => rfl
  | cons sid' sessions ih =>
    obtain ⟨hne, hsid⟩ := not_or.mp (mt List.mem_cons.mpr hsid)
    rw [foldl_cons, ih hsid, lookup_removeWatcher, if_neg fun h => hne h.1]

theorem keepsUnlisted_removeKey (h : t.patternData.lookup pattern = some pInfo) :
    KeepsUnlisted sid t (removeKeyFromPattern key t pattern pInfo) := by
  intro hsid
  refine ⟨fun p q hq => ?_, fun k => ?_⟩
  · rw [lookup_removeKey p key h] at hq
    split_ifs at hq with hp
    · obtain rfl := some.inj hq
      exact hsid pattern pInfo h
    · exact hsid p q hq
  · unfold removeKeyFromPattern
    split_ifs
    · exact watchers_foldl_remove (hsid pattern pInfo h)
    · rfl

theorem keepsUnlisted_deferred (t : Tables K P D) (sid : Sid) :
    KeepsUnlisted sid t t.processDeferredRemovals := by
  have hkey : ∀ (t : Tables K P D) (key : K),
      KeepsUnlisted sid t (t.patternRemoveKey key) := fun t key =>
    (foldl_patterns (KeepsUnlisted sid) (fun _ hsid => ⟨hsid, fun _ => rfl⟩)
      (fun _ _ _ => KeepsUnlisted.trans) (fun _ _ _ h => keepsUnlisted_removeKey key h)
      (fun _ _ _ p h => lookup_removeKey p key h)).1
  exact foldl_along (R := KeepsUnlisted sid) (fun _ hsid => ⟨hsid, fun _ => rfl⟩)
    (fun _ _ _ => KeepsUnlisted.trans) hkey t.deferredRemovals.toList t

/-! ### A session comes and goes -/

theorem share_append_session (sid' sid : Sid) (k : K) (pInfo : PInfo K) :
    share sid' k { pInfo with sessions := pInfo.sessions ++ [sid] } =
      share sid' k pInfo + if sid' = sid then pInfo.keys.count k else 0 := by
  unfold share
  rw [count_append, Nat.add_mul, count_singleton]
  rcases eq_or_ne sid' sid with rfl | hs
  · simp
  · simp [hs, hs.symm]

theorem share_erase_session (sid' : Sid) (k : K) (h : sid ∈ pInfo.sessions) :
    share sid' k { pInfo with sessions := pInfo.sessions.erase sid } +
      (if sid' = sid then pInfo.keys.count k else 0) = share sid' k pInfo := by
  unfold share
  rcases eq_or_ne sid' sid with rfl | hs
  · obtain ⟨n, hn⟩ := Nat.exists_eq_add_of_lt (List.count_pos_iff.mpr h)
    rw [count_erase_self, if_pos rfl, hn]
    simp [Nat.add_mul]
  · rw [count_erase_of_ne hs, if_neg hs, add_zero]

variable {env : Env K P D}

theorem via_setPattern_of_find (sid' : Sid) (k : K) (h : t.patternFind env pattern = some pInfo) :
    (t.setPattern pattern { pInfo with sessions := pInfo.sessions ++ [sid] }).via sid' k =
      t.via sid' k + if sid' = sid then pInfo.keys.count k else 0 := by
  have hshare := share_append_session sid' sid k pInfo
  unfold patternFind at h
  cases hlookup : t.patternData.lookup pattern with
  | some pInfo' =>
    rw [hlookup, some.injEq] at h
    subst h
    have := via_setPattern sid' k hlookup { pInfo' with sessions := pInfo'.sessions ++ [sid] }
    omega
  | none =>
    rw [hlookup] at h
    obtain ⟨regex, -, rfl⟩ := map_eq_some_iff.mp h
    rw [via_setPattern_of_none hlookup, hshare]
    simp [share, add_comm]

/-- `patternAddSession` adds the session to the pattern, and makes it a watcher
of the keys of the pattern. -/
theorem addSession_spec (h : t.patternAddSession env pattern sid = some t') :
    ∃ pInfo, t.patternFind env pattern = some pInfo ∧ Gains t t' ∧ ∀ p, t'.patternData.lookup p =
        if p = pattern then some { pInfo with sessions := pInfo.sessions ++ [sid] }
        else t.patternData.lookup p := by
  obtain ⟨pInfo, hfind, rfl⟩ := map_eq_some_iff.mp h
  have hsame := same_foldl (fun t k => same_addWatcher t sid k)
    pInfo.keys (t.setPattern pattern { pInfo with sessions := pInfo.sessions ++ [sid] })
  refine ⟨pInfo, hfind, ⟨sameData_setPattern.trans hsame.toSameData, fun sid' k =>
    ⟨if sid' = sid then pInfo.keys.count k else 0, ?_, ?_⟩⟩, fun p => ?_⟩
  · rw [refs_addWatcher_keys, refs_setPattern]
  · rw [hsame.via_eq, via_setPattern_of_find sid' k hfind]
  · rw [hsame.patternData, lookup_setPattern]

/-- `patternRemoveSession` takes a session out that watches the pattern, and the
session loses a reference to each key of the pattern. The last session takes
the pattern with it. -/
theorem removeSession_spec (h : t.patternData.lookup pattern = some pInfo)
    (hmem : sid ∈ pInfo.sessions) :
    ∃ t', t.patternRemoveSession pattern sid = some t' ∧ Loses t t' ∧ ∀ p, t'.patternData.lookup p =
        if p = pattern then
          if pInfo.sessions.length > 1 then
            some { pInfo with sessions := pInfo.sessions.erase sid }
          else none
        else t.patternData.lookup p := by
  have hsame : SameButWatchers t (pInfo.keys.foldl (fun t k => t.removeWatcher sid k) t) :=
    same_foldl (fun t k => same_removeWatcher t sid k) pInfo.keys t
  have h' := h
  rw [← hsame.patternData] at h'
  unfold patternRemoveSession
  rw [h]
  dsimp only
  split_ifs with hlen
  · refine ⟨_, rfl, ⟨hsame.toSameData.trans sameData_setPattern, fun sid' k =>
      ⟨if sid' = sid then pInfo.keys.count k else 0, ?_, ?_⟩⟩, fun p => ?_⟩
    · rw [refs_setPattern, refs_foldl_keys]
    · have hvia := via_setPattern sid' k h' { pInfo with sessions := pInfo.sessions.erase sid }
      rw [hsame.via_eq] at hvia
      have := share_erase_session sid' k hmem
      omega
    · rw [lookup_setPattern, hsame.patternData]
  · have hsessions : pInfo.sessions = [sid] := by
      obtain ⟨other, hother⟩ := List.length_eq_one_iff.mp
        (le_antisymm (by omega) (length_pos_of_mem hmem))
      rw [hother, mem_singleton] at hmem
      rw [hother, hmem]
    refine ⟨_, rfl, ⟨hsame.toSameData.trans sameData_dropPattern, fun sid' k =>
      ⟨if sid' = sid then pInfo.keys.count k else 0, ?_, ?_⟩⟩, fun p => ?_⟩
    · rw [refs_dropPattern, refs_foldl_keys]
    · have hvia := via_dropPattern sid' k h'
      rw [hsame.via_eq] at hvia
      have hshare : share sid' k pInfo = if sid' = sid then pInfo.keys.count k else 0 := by
        unfold share
        rw [hsessions, count_singleton]
        rcases eq_or_ne sid' sid with rfl | hs
        · simp
        · simp [hs, hs.symm]
      omega
    · rw [lookup_dropPattern, hsame.patternData]

theorem removeSession_frame (h : t.patternRemoveSession pattern sid = some t') :
    SameData t t' ∧ ∀ p ≠ pattern, t'.patternData.lookup p = t.patternData.lookup p := by
  unfold patternRemoveSession at h
  split at h
  · cases h
  next pInfo hlookup =>
    have hsame := same_foldl (fun t k => same_removeWatcher t sid k) pInfo.keys t
    split_ifs at h <;> obtain rfl := some.inj h
    · refine ⟨hsame.toSameData.trans sameData_setPattern, fun p hp => ?_⟩
      rw [lookup_setPattern, if_neg hp, hsame.patternData]
    · refine ⟨hsame.toSameData.trans sameData_dropPattern, fun p hp => ?_⟩
      rw [lookup_dropPattern, if_neg hp, hsame.patternData]

end Tables

end Hexley.Configd
