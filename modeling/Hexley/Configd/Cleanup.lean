import Hexley.Configd.Invariant

/-!
What closing the session of a holder of the lock does to the tables.

The watches of the session are taken back one by one, its session keys are
removed, and the lock is released. Each stage is described for tables of any
kind, since the tables that are put back when the holder dies need not agree
with the watches that are taken back.
-/

namespace Hexley.Configd

open Lib Relation State List Tables Option

variable {K P D : Type} [DecidableEq K] {env : Env K P D} {s s' : State K P D} {sid : Sid}

/-! ### Session keys -/

namespace Tables

variable {t t' : Tables K P D} {keys : List K}

def removeOwn (sid : Sid) (t : Tables K P D) (keys : List K) : Tables K P D :=
  keys.foldl (fun t key => if (t.entry key).session = some sid then t.removeEntry key else t) t

structure Removed (sid : Sid) (keys : List K) (t t' : Tables K P D) : Prop where
  data : ∀ k, (t'.entry k).data =
    if k ∈ keys ∧ (t.entry k).session = some sid then none else (t.entry k).data
  session : ∀ k, (t'.entry k).session =
    if k ∈ keys ∧ (t.entry k).session = some sid then none else (t.entry k).session
  watchers : ∀ k, (t'.entry k).watchers = (t.entry k).watchers
  patternData : t'.patternData = t.patternData
  deferredRemovals : ∀ k, k ∈ t'.deferredRemovals ↔
    k ∈ t.deferredRemovals ∨ (k ∈ keys ∧ (t.entry k).session = some sid)

theorem removed_removeOwn (sid : Sid) (t : Tables K P D) (keys : List K) :
    Removed sid keys t (t.removeOwn sid keys) := by
  induction keys generalizing t with
  | nil => exact ⟨fun _ => by simp [removeOwn], fun _ => by simp [removeOwn], fun _ => rfl, rfl,
      fun _ => by simp [removeOwn]⟩
  | cons key keys ih =>
    have hcons : t.removeOwn sid (key :: keys) =
        (if (t.entry key).session = some sid then t.removeEntry key else t).removeOwn sid keys :=
      rfl
    rw [hcons]
    split_ifs with hown
    · have h := ih (t.removeEntry key)
      have hentry := t.entry_removeEntry key
      obtain ⟨removed, heq⟩ := t.removeEntry_eq key
      refine ⟨fun k => ?_, fun k => ?_, fun k => ?_, ?_, fun k => ?_⟩
      · rw [h.data, hentry]
        by_cases hk : k = key
        · simp [hk, hown]
        · simp [hk]
      · rw [h.session, hentry]
        by_cases hk : k = key
        · simp [hk, hown]
        · simp [hk]
      · rw [h.watchers, hentry]
        split_ifs with hk
        · rw [hk]
        · rfl
      · rw [h.patternData, heq]
        rfl
      · rw [h.deferredRemovals, hentry]
        have hdeferred : (t.removeEntry key).deferredRemovals = t.deferredRemovals.add key := by
          rw [heq]
          rfl
        rw [hdeferred, ListSet.mem_add]
        by_cases hk : k = key
        · simp [hk, hown]
        · simp [hk]
    · have h := ih t
      have hskip : ∀ k, (k ∈ key :: keys ∧ (t.entry k).session = some sid) ↔
          (k ∈ keys ∧ (t.entry k).session = some sid) := by
        intro k
        rw [mem_cons]
        constructor
        · rintro ⟨rfl | hk, hmine⟩
          · exact absurd hmine hown
          · exact ⟨hk, hmine⟩
        · rintro ⟨hk, hmine⟩
          exact ⟨.inr hk, hmine⟩
      refine ⟨fun k => ?_, fun k => ?_, h.watchers, h.patternData, fun k => ?_⟩
      · simp only [hskip]
        exact h.data k
      · simp only [hskip]
        exact h.session k
      · simp only [hskip]
        exact h.deferredRemovals k

theorem Removed.refs_eq (h : Removed sid keys t t') (sid' : Sid) (k : K) :
    t'.refs sid' k = t.refs sid' k := by
  unfold refs Entry.refs
  rw [h.watchers]

theorem Removed.via_eq (h : Removed sid keys t t') (sid' : Sid) (k : K) :
    t'.via sid' k = t.via sid' k := by
  unfold via
  rw [h.patternData]

/-! ### The commit -/

variable [DecidableEq P]

def committed (t : Tables K P D) : Tables K P D :=
  { { t with changedKeys := ∅ }.processDeferredRemovals with
    removedSessionKeys := ∅, writes := [] }

theorem data_committed (k : K) : (t.committed.entry k).data = (t.entry k).data :=
  (deferred_spec { t with changedKeys := ∅ }).1.data k

theorem lookup_committed (p : P) :
    t.committed.patternData.lookup p = (t.patternData.lookup p).map fun pInfo =>
      { pInfo with keys := pInfo.keys.diff t.deferredRemovals.toList } :=
  (deferred_spec { t with changedKeys := ∅ }).2 p

theorem counts_committed (t : Tables K P D) (sid : Sid) (k : K) :
    ∃ c, t.committed.refs sid k = t.refs sid k - c ∧ t.committed.via sid k + c = t.via sid k :=
  (deferred_spec { t with changedKeys := ∅ }).1.counts sid k

theorem sessionsOf_committed (p : P) : t.committed.sessionsOf p = t.sessionsOf p := by
  unfold sessionsOf
  rw [lookup_committed]
  cases t.patternData.lookup p <;> rfl

end Tables

/-! ### Keys that are watched by name -/

theorem tables_foldl_removeKey (l : List K) (hnodup : l.Nodup)
    (hl : ∀ key ∈ l, key ∈ s.keysOf sid) :
    (l.foldl (fun s key => (s.removeWatchedKey sid key).2) s).tables =
      l.foldl (fun t key => t.removeWatcher sid key) s.tables := by
  induction l generalizing s with
  | nil => rfl
  | cons key l ih =>
    obtain ⟨hkey, hnodup⟩ := List.nodup_cons.mp hnodup
    have htables : (s.removeWatchedKey sid key).2.tables = s.tables.removeWatcher sid key := by
      rw [removeKey_eq, if_pos (hl key mem_cons_self)]
    rw [foldl_cons, foldl_cons, ih hnodup, htables]
    intro other hother
    rw [keysOf_removeKey, if_pos rfl, ListSet.mem_remove]
    exact ⟨fun heq => hkey (heq ▸ hother), hl other (mem_cons_of_mem _ hother)⟩

theorem refs_removeAllKeys (s : State K P D) (sid sid' : Sid) (k : K) :
    (s.removeAllKeys sid).tables.refs sid' k =
      s.tables.refs sid' k - if sid' = sid ∧ k ∈ s.keysOf sid then 1 else 0 := by
  unfold removeAllKeys
  rw [tables_foldl_removeKey _ (s.keysOf sid).nodup fun _ => id, refs_foldl_keys]
  have hcount : (s.keysOf sid).toList.count k = if k ∈ s.keysOf sid then 1 else 0 :=
    (s.keysOf sid).nodup.count
  split_ifs <;> simp_all

theorem patterns_removeAll : (s.removeAllKeys sid).tables.patternData = s.tables.patternData := by
  unfold removeAllKeys
  rw [tables_foldl_removeKey _ (s.keysOf sid).nodup fun _ => id]
  exact (same_foldl (fun t key => same_removeWatcher t sid key) _ _).patternData

theorem fault_removeAllKeys : (s.removeAllKeys sid).fault = s.fault := by
  unfold removeAllKeys
  generalize (s.keysOf sid).toList = l
  induction l generalizing s with
  | nil => rfl
  | cons key l ih => rw [foldl_cons, ih, fault_removeKey]

theorem removeKeys_empty (h : s.keysOf sid = ∅) : s.removeAllKeys sid = s := by
  unfold removeAllKeys
  rw [h]
  rfl

variable [DecidableEq P]

theorem removeKeys_of_holder (h : s.Holder sid) (hmarked : s.tables.Marked) (keys : List K) :
    s.removeSessionKeys sid keys = { s with tables := s.tables.removeOwn sid keys } := by
  induction keys generalizing s with
  | nil => rfl
  | cons key keys ih =>
    have hone : (if (s.tables.entry key).session = some sid
        then (s.removeValue sid key).2 else s) =
        { s with tables := if (s.tables.entry key).session = some sid
          then s.tables.removeEntry key else s.tables } := by
      split_ifs with hown
      · rw [remove_of_holder key h]
        unfold removeBody
        have hdata := hmarked key (by simp [hown])
        rw [if_neg fun hnone => hdata (isNone_iff_eq_none.mp hnone)]
      · rfl
    have hmarked' : (if (s.tables.entry key).session = some sid
        then s.tables.removeEntry key else s.tables).Marked := by
      split_ifs
      · exact hmarked.removeEntry key
      · exact hmarked
    obtain ⟨t, ht⟩ : ∃ t, (if (s.tables.entry key).session = some sid
        then s.tables.removeEntry key else s.tables) = t := ⟨_, rfl⟩
    rw [ht] at hone hmarked'
    have hrest := ih (s := { s with tables := t }) h hmarked'
    unfold State.removeSessionKeys at hrest ⊢
    rw [foldl_cons, hone, hrest, ← ht]
    rfl

theorem closeKeys_of_holder (h : s.Holder sid) (hmarked : s.tables.Marked)
    {info : Info K} (hinfo : s.sessionData sid = some info) : ∃ saved, s.closeSessionKeys sid =
      { s with tables := s.tables.removeOwn sid info.sessionKeys, saved := saved } := by
  unfold closeSessionKeys
  rw [hinfo]
  dsimp only
  split_ifs with hkeys hlocked
  · rw [hkeys]
    exact ⟨s.saved, rfl⟩
  · rw [removeKeys_of_holder h hmarked]
    obtain ⟨t, ht⟩ := removeKeys_locked
      (s := { s with tables := s.tables.removeOwn sid info.sessionKeys }.swap) hlocked
      info.sessionKeys
    rw [ht]
    exact ⟨t, rfl⟩
  · exact absurd h.1 hlocked

/-! ### Patterns -/

def TakenBack (sid : Sid) (before after : Option (PInfo K)) : Prop :=
  ∃ pInfo, before = some pInfo ∧ (sid ∈ pInfo.sessions ∨ (pInfo.sessions.length ≤ 1 ∧ after = none))

theorem takenBack_of_remove {t t' : Tables K P D} {pattern : P}
    (h : t.patternRemoveSession pattern sid = some t') :
    TakenBack sid (t.patternData.lookup pattern) (t'.patternData.lookup pattern) := by
  unfold patternRemoveSession at h
  cases hlookup : t.patternData.lookup pattern with
  | none =>
    rw [hlookup] at h
    cases h
  | some pInfo =>
    rw [hlookup] at h
    dsimp only at h
    refine ⟨pInfo, rfl, ?_⟩
    split_ifs at h with hlen hmem
    · exact .inl hmem
    · obtain rfl := some.inj h
      refine .inr ⟨by omega, ?_⟩
      rw [lookup_dropPattern, if_pos rfl]

theorem foldl_removePattern (l : List P) (hnodup : l.Nodup) (hl : ∀ p ∈ l, p ∈ s.patternsOf sid) :
    (∀ p ∉ l, (l.foldl (fun s p => (s.removeWatchedPattern sid p).2) s).tables.patternData.lookup
        p = s.tables.patternData.lookup p) ∧
      ((l.foldl (fun s p => (s.removeWatchedPattern sid p).2) s).fault = false →
        s.fault = false ∧ ∀ p ∈ l, TakenBack sid (s.tables.patternData.lookup p)
          ((l.foldl (fun s p => (s.removeWatchedPattern sid p).2)
            s).tables.patternData.lookup p)) := by
  induction l generalizing s with
  | nil => exact ⟨fun _ _ => rfl, fun h => ⟨h, fun _ hp => by cases hp⟩⟩
  | cons pattern l ih =>
    obtain ⟨hpattern, hnodup⟩ := List.nodup_cons.mp hnodup
    obtain ⟨hrest, hfault⟩ := ih (s := (s.removeWatchedPattern sid pattern).2) hnodup (by
      intro other hother
      rw [patterns_removePattern, if_pos rfl, ListSet.mem_remove]
      exact ⟨fun heq => hpattern (heq ▸ hother), hl other (mem_cons_of_mem _ hother)⟩)
    rw [foldl_cons]
    refine ⟨fun p hp => ?_, fun hno => ?_⟩
    · obtain ⟨hne, hp⟩ := not_or.mp (mt List.mem_cons.mpr hp)
      rw [hrest p hp, lookup_removePattern_ne hne]
    · obtain ⟨hno', htaken⟩ := hfault hno
      rw [removePattern_eq, if_pos (hl pattern mem_cons_self)] at hno'
      obtain ⟨hs, hsome⟩ := Bool.or_eq_false_iff.mp hno'
      refine ⟨hs, fun p hp => ?_⟩
      rcases List.mem_cons.mp hp with rfl | hp
      · rw [hrest p hpattern]
        cases hremove : s.tables.patternRemoveSession p sid with
        | none =>
          rw [hremove] at hsome
          cases hsome
        | some t =>
          have htables : (s.removeWatchedPattern sid p).2.tables = t := by
            rw [removePattern_eq, if_pos (hl p mem_cons_self), hremove]
            rfl
          rw [htables]
          exact takenBack_of_remove hremove
      · have hne : p ≠ pattern := fun heq => hpattern (heq ▸ hp)
        have := htaken p hp
        rwa [lookup_removePattern_ne hne] at this

def KeepsLists (t t' : Tables K P D) : Prop :=
  ∀ p pInfo', t'.patternData.lookup p = some pInfo' →
    ∃ pInfo, t.patternData.lookup p = some pInfo ∧ pInfo'.keys = pInfo.keys

theorem keepsLists_removePattern (s : State K P D) (sid : Sid) (pattern : P) :
    KeepsLists s.tables (s.removeWatchedPattern sid pattern).2.tables := by
  intro p pInfo' hp'
  by_cases hp : p = pattern
  · subst hp
    rw [removePattern_eq] at hp'
    split_ifs at hp' with hmem
    · unfold patternRemoveSession at hp'
      cases hlookup : s.tables.patternData.lookup p with
      | none =>
        rw [hlookup] at hp'
        exact absurd (hlookup.symm.trans hp') (some_ne_none pInfo').symm
      | some pInfo =>
        rw [hlookup] at hp'
        dsimp only at hp'
        refine ⟨pInfo, rfl, ?_⟩
        split_ifs at hp' with hlen hsid
        · rw [getD_some, lookup_setPattern, if_pos rfl] at hp'
          exact (some.inj hp') ▸ rfl
        · rw [getD_none, hlookup] at hp'
          exact (some.inj hp') ▸ rfl
        · rw [getD_some, lookup_dropPattern, if_pos rfl] at hp'
          cases hp'
    · exact ⟨pInfo', hp', rfl⟩
  · rw [lookup_removePattern_ne hp] at hp'
    exact ⟨pInfo', hp', rfl⟩

theorem keepsLists_removeAll (s : State K P D) (sid : Sid) :
    KeepsLists s.tables (s.removeAllPatterns sid).tables := by
  unfold removeAllPatterns
  generalize (s.patternsOf sid).toList = l
  induction l generalizing s with
  | nil => exact fun p pInfo hp => ⟨pInfo, hp, rfl⟩
  | cons pattern l ih =>
    intro p pInfo' hp'
    obtain ⟨pInfo₁, hp₁, hkeys₁⟩ := ih (s.removeWatchedPattern sid pattern).2 p pInfo' hp'
    obtain ⟨pInfo, hp, hkeys⟩ := keepsLists_removePattern s sid pattern p pInfo₁ hp₁
    exact ⟨pInfo, hp, hkeys₁.trans hkeys⟩

theorem sound_removeAllPatterns (h : s.tables.Sound env s.patternsOf) :
    (s.removeAllPatterns sid).tables.Sound env (s.removeAllPatterns sid).patternsOf ∧
      s.tables.Loses (s.removeAllPatterns sid).tables ∧
      (s.removeAllPatterns sid).fault = s.fault := by
  unfold removeAllPatterns
  generalize (s.patternsOf sid).toList = l
  induction l generalizing s with
  | nil => exact ⟨h, .refl _, rfl⟩
  | cons pattern l ih =>
    obtain ⟨hsound₁, hloses₁, hfault₁, -⟩ := sound_removePattern h pattern
    obtain ⟨hsound, hloses, hfault⟩ := ih hsound₁
    exact ⟨hsound, hloses₁.trans hloses, hfault.trans hfault₁⟩

/-! ### The cleanup -/

def unwatched (s : State K P D) (sid : Sid) : State K P D :=
  (s.swap.removeAllKeys sid).removeAllPatterns sid

theorem removePatterns_empty (h : s.patternsOf sid = ∅) : s.removeAllPatterns sid = s := by
  unfold removeAllPatterns
  rw [h]
  rfl

theorem unwatched_spec (s : State K P D) (sid : Sid) :
    SameButWatches s.swap (unwatched s sid) ∧ (unwatched s sid).keysOf sid = ∅ ∧
      (unwatched s sid).patternsOf sid = ∅ ∧
      ∀ sid', sid' ≠ sid → (unwatched s sid).sessions sid' = s.sessions sid' := by
  obtain ⟨hsame₁, hkeys₁, -⟩ := s.swap.removeAllKeys_spec sid
  obtain ⟨hsame₂, hpatterns₂, hkeys₂⟩ := (s.swap.removeAllKeys sid).removePatterns_spec sid
  have hsame := hsame₁.trans hsame₂
  refine ⟨hsame.toSameButWatches, ?_, hpatterns₂, hsame.others⟩
  unfold unwatched
  rw [hkeys₂, hkeys₁]

theorem cleanup_eq (h : s.Holder sid) :
    s.cleanupSession sid = ((unwatched s sid).close sid).removeSession sid := by
  obtain ⟨session, hsession, hlocked⟩ := isLocked_iff.mp h.2
  obtain ⟨-, hkeys, hpatterns, -⟩ := unwatched_spec s sid
  unfold cleanupSession
  rw [hsession]
  dsimp only
  rw [if_pos (by simp [h.1, hlocked])]
  unfold close
  dsimp only
  rw [removeKeys_empty hkeys, removePatterns_empty hpatterns]
  rfl

theorem cleanupSession_of_holder (h : s.Holder sid) (hmarked : s.saved.Marked) {info : Info K}
    (hinfo : s.sessionData sid = some info) :
    ∃ u : State K P D, s.cleanupSession sid = (u.commit sid).removeSession sid ∧
      u.tables = (unwatched s sid).tables.removeOwn sid info.sessionKeys ∧
      u.sessions = (unwatched s sid).sessions ∧ u.fault = (unwatched s sid).fault := by
  obtain ⟨hsame, hkeys, hpatterns, -⟩ := unwatched_spec s sid
  rw [cleanup_eq h]
  set v := unwatched s sid
  have hheld : v.Holder sid := (SameLock.holder hsame.toSameLock).mpr h
  have hcancel : (v.notifyCancel sid).2 =
      { v with needsNotification := v.needsNotification.remove sid } := by
    obtain ⟨session, hsession, -⟩ := isLocked_iff.mp hheld.2
    unfold notifyCancel
    rw [hsession]
  have hinfo' : v.sessionData sid = some info := by
    rw [hsame.sessionData]
    exact hinfo
  obtain ⟨saved, hclose⟩ := closeKeys_of_holder
    (s := { v with needsNotification := v.needsNotification.remove sid }) hheld
    (hsame.data.marked hmarked) hinfo'
  refine ⟨{ v with
    needsNotification := v.needsNotification.remove sid
    tables := v.tables.removeOwn sid info.sessionKeys
    saved := saved }, ?_, rfl, rfl, rfl⟩
  unfold close
  dsimp only
  rw [removeKeys_empty hkeys, removePatterns_empty hpatterns, hcancel, hclose]
  have hheld' : State.Holder { v with
      needsNotification := v.needsNotification.remove sid
      tables := v.tables.removeOwn sid info.sessionKeys
      saved := saved } sid := hheld
  rw [if_pos hheld'.2, unlock_of_once hheld' (by simp)]

end Hexley.Configd
