import Hexley.Configd.Watch

/-!
The notifications of changes.

When the outermost lock is released, each key that has changed is put on the
list of each session that watches it, before the removals that have been
deferred are done. So a key that has been removed is still in the lists of the
patterns that match it, and is reported to the sessions that watch it through
a pattern. The history says what should be reported: the list of a session has
the keys that were stored or removed under a lock that was released while the
session watched them, since the session fetched its changes the last time.
-/

namespace Hexley.Configd

open Lib Relation State Function Tables

variable {K P D : Type} {env : Env K P D} {c : Prop} {s s' : State K P D} {sid : Sid}
  {t t' : Tables K P D}

/-! ### Lists of changes -/

variable (sessionData : Sid → Option (Info K))

def changesIn (sid : Sid) : List K :=
  match sessionData sid with
  | some info => info.changedKeys
  | none => []

theorem changesIn_eq :
    changesIn sessionData sid = ((sessionData sid).map Info.changedKeys).getD [] := by
  unfold changesIn
  cases sessionData sid <;> rfl

theorem changesOf_eq : s.changesOf sid = changesIn s.sessionData sid := by
  rfl

/-! ### Who watches a key -/

/-- A key is watched by name or through a pattern that matches it. -/
def Watches (env : Env K P D) (keys : ListSet K) (patterns : ListSet P) (k : K) : Prop :=
  k ∈ keys ∨ ∃ p ∈ patterns, ∃ regex, env.compile p = some regex ∧ regex k = true

/-! ### Keys that have been written -/

/-- The keys that have changed are those that have been stored or removed. -/
def Tables.Written (t : Tables K P D) : Prop :=
  ∀ k, k ∈ t.changedKeys ↔ k ∈ t.writes

/-! ### What should be reported -/

/-- A key has been stored or removed under a lock that was released while the
session watched the key, since the session fetched its changes or was closed.
The newest event is the first. -/
def Reported (env : Env K P D) (sid : Sid) (k : K) : List (Event K P) → Prop
  | [] => False
  | .committed writes keys patterns :: history =>
    (k ∈ writes ∧ Watches env (keys sid) (patterns sid) k) ∨ Reported env sid k history
  | .fetched sid' :: history => sid' ≠ sid ∧ Reported env sid k history
  | .closed sid' :: history => sid' ≠ sid ∧ Reported env sid k history

structure Reports (env : Env K P D) (s : State K P D) : Prop where
  written : s.tables.Written
  reported : ∀ sid k, k ∈ s.changesOf sid ↔ Reported env sid k s.history

theorem reports_initial : Reports env (State.initial : State K P D) where
  written _ := ⟨fun h => (by cases h), fun h => (by cases h)⟩
  reported _ _ := ⟨fun h => (by cases h), fun h => (by cases h)⟩

theorem Reports.of_same (h : Reports env s) (hwritten : s'.tables.Written)
    (hchanges : ∀ sid, s'.changesOf sid = s.changesOf sid) (hhistory : s'.history = s.history) :
    Reports env s' where
  written := hwritten
  reported sid k := by
    rw [hchanges, hhistory]
    exact h.reported sid k

theorem changesOf_of_data (h : s'.sessionData = s.sessionData) (sid : Sid) :
    s'.changesOf sid = s.changesOf sid := by
  rw [changesOf_eq, changesOf_eq, h]

theorem Reports.copyNotifiedKeys (h : Reports env s) (sid : Sid) :
    Reports env (s.copyNotifiedKeys sid).2 := by
  have htables : (s.copyNotifiedKeys sid).2.tables = s.tables := by
    obtain ⟨_, _, heq⟩ := notifiedKeys_eq s sid
    exact heq ▸ rfl
  cases hsession : s.sessions sid with
  | none =>
    unfold State.copyNotifiedKeys
    rw [hsession]
    exact h
  | some session =>
    have hhistory : (s.copyNotifiedKeys sid).2.history = .fetched sid :: s.history := by
      unfold State.copyNotifiedKeys
      rw [hsession]
      dsimp only
      cases s.sessionData sid with
      | none => rfl
      | some info =>
        dsimp only
        split_ifs <;> rfl
    have hchanges : ∀ sid', (s.copyNotifiedKeys sid).2.changesOf sid' =
        if sid' = sid then [] else s.changesOf sid' := by
      intro sid'
      simp only [changesOf_eq, changesIn_eq]
      unfold State.copyNotifiedKeys
      rw [hsession]
      dsimp only
      cases hinfo : s.sessionData sid with
      | none =>
        split_ifs with hsid
        · rw [hsid]
          simp [hinfo]
        · rfl
      | some info =>
        dsimp only
        by_cases hsid : sid' = sid
        · subst hsid
          rw [if_pos rfl]
          split_ifs with hempty hkeep
          · simp [hinfo, hempty]
          · simp
          · simp
        · split_ifs
          · rfl
          · simp [hsid]
          · simp [hsid]
    refine ⟨htables ▸ h.written, fun sid' k => ?_⟩
    rw [hchanges, hhistory]
    change _ ↔ sid ≠ sid' ∧ Reported env sid' k s.history
    split_ifs with hsid
    · simp [hsid]
    · rw [h.reported]
      simp [Ne.symm hsid]

theorem Reports.removeSession (h : Reports env s) (sid : Sid) :
    Reports env (s.removeSession sid) := by
  refine ⟨h.written, fun sid' k => ?_⟩
  change _ ↔ sid ≠ sid' ∧ Reported env sid' k s.history
  rw [← h.reported]
  simp only [changesOf_eq, changesIn_eq]
  unfold State.removeSession
  by_cases hsid : sid' = sid
  · simp [hsid]
  · simp [hsid, Ne.symm hsid]

theorem changesOf_configopen (s : State K P D) (sid : Sid) (uid : ℕ) (own : Bool) (sid' : Sid) :
    (s.configopen sid uid own).changesOf sid' = s.changesOf sid' := by
  unfold configopen
  cases s.sessions sid with
  | some session => rfl
  | none =>
    simp only [changesOf_eq, changesIn_eq]
    by_cases hsid : sid' = sid
    · subst hsid
      rw [update_self]
      cases s.sessionData sid' <;> rfl
    · rw [update_of_ne hsid]

variable [DecidableEq K]

theorem mem_changes_watcher (key k : K) (r : (Sid → Option (Info K)) × ListSet Sid)
    (watcher : Sid) : k ∈ changesIn (notifyWatcher key r watcher).1 sid ↔
      k ∈ changesIn r.1 sid ∨ (k = key ∧ sid = watcher) := by
  unfold notifyWatcher changesIn
  dsimp only
  by_cases hsid : sid = watcher
  · subst hsid
    rw [update_self]
    cases r.1 sid with
    | none => simp
    | some info =>
      split_ifs with hmem
      · simp only [and_true]
        exact ⟨.inl, fun h => h.elim id fun heq => heq ▸ hmem⟩
      · simp
  · simp [hsid]

theorem mem_changes_foldl (key k : K) (watchers : List Sid)
    (r : (Sid → Option (Info K)) × ListSet Sid) :
    k ∈ changesIn (watchers.foldl (notifyWatcher key) r).1 sid ↔
      k ∈ changesIn r.1 sid ∨ (k = key ∧ sid ∈ watchers) := by
  induction watchers generalizing r with
  | nil => simp
  | cons watcher watchers ih =>
    rw [List.foldl_cons, ih, mem_changes_watcher, List.mem_cons, or_assoc, ← and_or_left]

theorem mem_changes_watchers (t : Tables K P D)
    (r : (Sid → Option (Info K)) × ListSet Sid) (k : K) :
    k ∈ changesIn (notifyWatchers t r).1 sid ↔
      k ∈ changesIn r.1 sid ∨ (k ∈ t.changedKeys ∧ sid ∈ (t.entry k).watchers.keys) := by
  have hpass : ∀ (l : List K) (r : (Sid → Option (Info K)) × ListSet Sid), k ∈ changesIn
          (l.foldl (fun r key => (t.entry key).watchers.keys.foldl (notifyWatcher key) r) r).1
          sid ↔
        k ∈ changesIn r.1 sid ∨ (k ∈ l ∧ sid ∈ (t.entry k).watchers.keys) := by
    intro l
    induction l with
    | nil => simp
    | cons key l ih =>
      intro r
      rw [List.foldl_cons, ih, mem_changes_foldl, List.mem_cons, or_assoc, or_and_right]
      constructor
      · rintro (h | ⟨rfl, h⟩ | h)
        · exact .inl h
        · exact .inr (.inl ⟨rfl, h⟩)
        · exact .inr (.inr h)
      · rintro (h | ⟨rfl, h⟩ | h)
        · exact .inl h
        · exact .inr (.inl ⟨rfl, h⟩)
        · exact .inr (.inr h)
  exact hpass t.changedKeys.toList r

theorem mem_watchers_iff (h : t.Positive) (k : K) (sid : Sid) :
    sid ∈ (t.entry k).watchers.keys ↔ 0 < t.refs sid k := by
  rw [← AList.mem_keys, ← AList.lookup_isSome]
  unfold refs Entry.refs
  cases hlookup : (t.entry k).watchers.lookup sid with
  | none => simp
  | some n => simpa using h k sid n hlookup

theorem Tables.SameData.written (h : t.SameData t') (hwritten : t.Written) :
    t'.Written := fun k => by
  rw [h.changedKeys, h.writes]
  exact hwritten k

theorem Tables.Written.of_add (hwritten : t.Written) (key : K)
    (hchanged : t'.changedKeys = t.changedKeys.add key) (hwrites : t'.writes = key :: t.writes) :
    t'.Written:= fun k => by
  rw [hchanged, hwrites, ListSet.mem_add, List.mem_cons, hwritten k]

theorem Tables.Written.removeEntry (hwritten : t.Written) (key : K) :
    (t.removeEntry key).Written := by
  obtain ⟨removed, heq⟩ := t.removeEntry_eq key
  rw [heq]
  exact hwritten.of_add key rfl rfl

theorem Reports.of_sameBut (h : Reports env s) (hsame : SameButWatches s s') : Reports env s' :=
  h.of_same (hsame.data.written h.written) (changesOf_of_data hsame.sessionData) hsame.history

theorem changesOf_addSessionKey (key : K)
    (sid' : Sid) : (s.addSessionKey sid key).changesOf sid' = s.changesOf sid' := by
  unfold addSessionKey
  cases hinfo : s.sessionData sid with
  | none => rfl
  | some info =>
    rw [changesOf_eq, changesOf_eq, changesIn_eq, changesIn_eq]
    by_cases hsid : sid' = sid
    · rw [hsid, hinfo]
      simp
    · simp [hsid]

/-! ### Commits and moves -/

variable [DecidableEq P]

theorem changesIn_cleanupKey (removedKeys : List (Sid × K)) :
    changesIn (removedKeys.foldl cleanupRemovedSessionKey sessionData) sid =
      changesIn sessionData sid := by
  induction removedKeys generalizing sessionData with
  | nil => rfl
  | cons removedKey removedKeys ih =>
    rw [List.foldl_cons, ih, changesIn_eq, changesIn_eq]
    unfold cleanupRemovedSessionKey
    by_cases hsid : sid = removedKey.1
    · rw [hsid, update_self, Option.map_map]
      rfl
    · rw [update_of_ne hsid]

theorem mem_changesOf_commit (holder : Sid) (k : K) : k ∈ (s.commit holder).changesOf sid ↔
      k ∈ s.changesOf sid ∨
        (k ∈ s.tables.changedKeys ∧ sid ∈ (s.tables.entry k).watchers.keys) := by
  rw [changesOf_eq, changesOf_eq]
  unfold commit
  rw [changesIn_cleanupKey, mem_changes_watchers]

theorem Agrees.mem_watchers_iff (h : Agrees env s) (hcomplete : s.tables.Complete) {k : K}
    (hheld : s.tables.Held k) (sid : Sid) : sid ∈ (s.tables.entry k).watchers.keys ↔
      Watches env (s.keysOf sid) (s.patternsOf sid) k := by
  rw [Configd.mem_watchers_iff h.sound.positive, h.counted, h.sound.via_eq]
  have hlist : ∀ p ∈ s.patternsOf sid, (k ∈ s.tables.listOf p ↔
      ∃ regex, env.compile p = some regex ∧ regex k = true) := by
    intro p hp
    obtain ⟨pInfo, hinfo, -⟩ := h.sound.lookup_of_mem hp
    have hcompile := h.sound.compiled p pInfo hinfo
    unfold listOf
    rw [hinfo]
    constructor
    · intro hk
      exact ⟨pInfo.regex, hcompile, (h.sound.listed p pInfo hinfo k hk).1⟩
    · rintro ⟨regex, hregex, hmatch⟩
      obtain rfl := Option.some.inj (hcompile.symm.trans hregex)
      exact hcomplete p pInfo hinfo k hmatch hheld
  have hpatterns : (0 < (s.patternsOf sid).toList.countP fun p => k ∈ s.tables.listOf p) ↔
      ∃ p ∈ s.patternsOf sid, ∃ regex, env.compile p = some regex ∧ regex k = true := by
    rw [List.countP_pos_iff]
    constructor
    · rintro ⟨p, hp, hk⟩
      exact ⟨p, hp, (hlist p hp).mp (of_decide_eq_true hk)⟩
    · rintro ⟨p, hp, hk⟩
      exact ⟨p, hp, decide_eq_true ((hlist p hp).mpr hk)⟩
  unfold Watches
  rw [← hpatterns]
  split_ifs with hname
  · simp only [hname, true_or, iff_true]
    omega
  · simp [hname]

theorem Tables.Written.setEntry (hwritten : t.Written) (key : K) (e : Entry D) (newEntry : Bool) :
    (t.setEntry key e newEntry).Written := by
  have hgains := (addKey_spec (t.write key e) key).1
  refine hwritten.of_add key ?_ ?_
  · unfold Tables.setEntry
    dsimp only
    split_ifs
    · rfl
    · rw [hgains.changedKeys]
      rfl
    · rfl
  · unfold Tables.setEntry
    dsimp only
    split_ifs
    · rfl
    · rw [hgains.writes]
      rfl
    · rfl

theorem written_work (h : s.tables.Written) (hwork : s.Work sid s') : s'.tables.Written := by
  cases hwork with
  | set own key value =>
    unfold setBody
    cases hmanage : s.manageSessionKeys sid own key value with
    | none => exact h
    | some r =>
      obtain ⟨removed, htables⟩ := (managed_of_eq_some hmanage).tables
      have hr : r.1.tables.Written := by
        rw [htables]
        exact h
      exact hr.setEntry key r.2 _
  | remove key =>
    unfold removeBody
    split_ifs
    · exact h
    · exact h.removeEntry key

theorem changesOf_work (hwork : s.Work sid s') (sid' : Sid) :
    s'.changesOf sid' = s.changesOf sid' := by
  cases hwork with
  | set own key value =>
    unfold setBody
    cases hmanage : s.manageSessionKeys sid own key value with
    | none => rfl
    | some r =>
      change r.1.changesOf sid' = s.changesOf sid'
      rcases manageKeys_cases hmanage with ⟨-, hr, -⟩ | ⟨hr, -⟩ | ⟨owner, -, -, hr, -⟩
      · rw [hr, changesOf_addSessionKey]
      · rw [hr]
      · rw [hr]
        rfl
  | remove key =>
    unfold removeBody
    split_ifs <;> rfl

theorem Reports.commit (h : Reports env s) (hagrees : Agrees env s)
    (hcomplete : s.tables.Complete) (holder : Sid) : Reports env (s.commit holder) where
  written k := by
    have hchanged : (s.commit holder).tables.changedKeys = ∅ :=
      (deferred_spec { s.tables with changedKeys := ∅ }).1.changedKeys
    rw [hchanged]
    exact ⟨fun hk => (by cases hk), fun hk => (by cases hk)⟩
  reported sid k := by
    rw [mem_changesOf_commit, h.reported]
    change _ ↔ (k ∈ s.tables.writes ∧ Watches env (s.keysOf sid) (s.patternsOf sid) k) ∨
      Reported env sid k s.history
    rw [or_comm, ← h.written k]
    refine or_congr_left (and_congr_right fun hk => ?_)
    exact hagrees.mem_watchers_iff hcomplete (hagrees.sound.changed k hk) sid

theorem Reports.move (h : Reports env s) (hagrees : Agrees env s) (hcomplete : s.tables.Complete)
    (hmove : Move env c s s') : Reports env s' := by
  cases hmove with
  | take sid htake => exact h.of_same h.written (changesOf_of_data rfl) rfl
  | work s' sid hheld hwork =>
    exact h.of_same (written_work h.written hwork) (changesOf_work hwork) hwork.sameOutside.history
  | commit sid hheld => exact h.commit hagrees hcomplete sid
  | addWatchedKey sid key =>
    exact h.of_sameBut (rewatches_addKey key).toSameButWatches
  | removeWatchedKey sid key =>
    exact h.of_sameBut (rewatches_removeKey key).toSameButWatches
  | addWatchedPattern sid pattern hfresh =>
    exact h.of_sameBut (rewatches_addPattern env pattern).toSameButWatches
  | removeWatchedPattern sid pattern =>
    exact h.of_sameBut (rewatches_dropPattern pattern).toSameButWatches
  | copyNotifiedKeys sid => exact h.copyNotifiedKeys sid
  | notifyCancel sid =>
    obtain ⟨_, -, heq⟩ := notifyCancel_eq s sid
    exact heq ▸ h.of_same h.written (changesOf_of_data rfl) rfl
  | configopen sid uid own =>
    refine h.of_same (tables_configopen s sid uid own ▸ h.written)
      (changesOf_configopen s sid uid own) ?_
    unfold configopen
    cases s.sessions sid <;> rfl
  | removeSession sid hkeys hpatterns hlock hpending => exact h.removeSession sid
  | pushNotifications => exact h.of_same h.written (changesOf_of_data rfl) rfl
  | saved saved => exact h.of_same h.written (changesOf_of_data rfl) rfl
  | fault sid hsession hinfo => exact h.of_same h.written (changesOf_of_data rfl) rfl

/-- In all runs without the death of a holder of the lock, in which no request
adds a pattern that is not known and matches a key whose removal is deferred,
no change is lost and none is invented: a key is on the list of changes of a
session exactly if it has been stored or removed under a lock that was released
while the session watched it, since the session fetched its changes. -/
theorem changes_exact (h : Reachable env (fun s i => Careful env s i ∧ NoAbort s i) s)
    (sid : Sid) (k : K) : k ∈ s.changesOf sid ↔ Reported env sid k s.history := by
  have hall : Agrees env s ∧ s.tables.Complete ∧ Reports env s := by
    refine h.of_moves (Q := fun s => Agrees env s ∧ s.tables.Complete ∧ Reports env s) (c := True)
      (fun s i hi => ⟨fun _ => hi.1, hi.2⟩) ⟨agrees_initial, complete_initial, reports_initial⟩ ?_
    rintro s s' ⟨hagrees, hcomplete, hreports⟩ hmove
    have hkeeps := hagrees.move hmove
    exact ⟨hkeeps.agrees, hkeeps.complete trivial hcomplete, hreports.move hagrees hcomplete hmove⟩
  exact hall.2.2.reported sid k

/-- A key is stored and removed under one lock. It is reported to a session that
watches it through a pattern. -/
theorem changes_exact_removed : Reported sampleEnv 7 5 (run sampleEnv .initial
      [.opens 7 0 false, .request 7 (.notifyAddPattern 3), .request 7 .lock,
        .request 7 (.set 5 1), .request 7 (.remove 5), .request 7 .unlock]).history := by
  refine (changes_exact (reachable_run ?_) 7 5).mp (by decide)
  have hfresh : Fresh sampleEnv (run sampleEnv .initial [.opens 7 0 false]) 3 :=
    fun _ _ _ _ hk => by cases hk
  exact ⟨⟨trivial, trivial⟩, ⟨hfresh, trivial⟩, ⟨trivial, trivial⟩, ⟨trivial, trivial⟩,
    ⟨trivial, trivial⟩, ⟨trivial, trivial⟩, trivial⟩

/-- A session removes the key 5 under its lock, adds a pattern that matches it,
stores it again, and releases the lock. The change is not reported to it. -/
theorem stored_again_not_reported : Reachable sampleEnv NoAbort (run sampleEnv .initial
        [.opens 7 0 false, .request 7 (.set 5 1), .request 7 .lock, .request 7 (.remove 5),
          .request 7 (.notifyAddPattern 3), .request 7 (.set 5 2), .request 7 .unlock]) ∧
      Reported sampleEnv 7 5 (run sampleEnv .initial
        [.opens 7 0 false, .request 7 (.set 5 1), .request 7 .lock, .request 7 (.remove 5),
          .request 7 (.notifyAddPattern 3), .request 7 (.set 5 2), .request 7 .unlock]).history ∧
      5 ∉ (run sampleEnv .initial
        [.opens 7 0 false, .request 7 (.set 5 1), .request 7 .lock, .request 7 (.remove 5),
          .request 7 (.notifyAddPattern 3), .request 7 (.set 5 2), .request 7 .unlock]).changesOf
            7 := by
  refine ⟨reachable_run ⟨trivial, trivial, trivial, trivial, trivial, trivial, trivial, trivial⟩,
    .inl ⟨by decide, .inr ⟨3, by decide, _, rfl, by decide⟩⟩, by decide⟩

end Hexley.Configd
