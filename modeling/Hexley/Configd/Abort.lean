import Hexley.Configd.Cleanup

/-!
The death of a session that holds the lock.

When the holder of the lock dies, the tables that were copied when the lock was
taken are put back, and the session is closed. But what the session watches is
not copied, so the watches that it had when it died are taken back from tables
that may not have them. This leaves no trace exactly if the session has the
patterns that it had when it took the lock, still watches by name what it
watched then, and has all of its session keys on its list.

While the store is locked the run loop serves only its holder, and clients that
open a session.
-/

namespace Hexley.Configd

open Lib Relation State

variable {K P D : Type} {env : Env K P D} {s₀ s s' : State K P D} {sid : Sid}

/-! ### Under a lock -/

structure SameOthers (sid : Sid) (s s' : State K P D) : Prop where
  saved : s'.saved = s.saved
  sessions : ∀ sid', sid' ≠ sid → s'.sessions sid' = s.sessions sid'

theorem SameOthers.refl (sid : Sid) (s : State K P D) : SameOthers sid s s :=
  ⟨rfl, fun _ _ => rfl⟩

theorem keysOf_of_sessions {sid' : Sid} (h : s'.sessions sid' = s.sessions sid') :
    s'.keysOf sid' = s.keysOf sid' ∧ s'.patternsOf sid' = s.patternsOf sid' := by
  unfold keysOf patternsOf
  rw [h]
  exact ⟨rfl, rfl⟩

variable [DecidableEq K] [DecidableEq P]

/-- The input is served: in the mode of a locked store only the port of the
holder and the port of the server are. -/
def Served (s : State K P D) : Input K P D → Prop
  | .opens _ _ _ => True
  | .request sid _ => 0 < s.storeLocked → s.isLocked sid = true
  | .dies sid => 0 < s.storeLocked → s.isLocked sid = true

/-- The states between two turns while a session holds the lock that it took in
the state `s₀`. -/
inductive Under (env : Env K P D) (s₀ : State K P D) (sid : Sid) :
    State K P D → Prop
  | taken (h : s₀.MayTake sid) : Under env s₀ sid (step env s₀ (.request sid .lock))
  | turn {s : State K P D} (i : Input K P D) (h : Under env s₀ sid s)
      (hserved : Served s i) (hheld : (step env s i).Holder sid) : Under env s₀ sid (step env s i)

structure Holding (env : Env K P D) (s₀ : State K P D) (sid : Sid)
    (s : State K P D) : Prop where
  holder : s.Holder sid
  saved : s.saved = s₀.tables
  keys : ∀ sid', sid' ≠ sid → s.keysOf sid' = s₀.keysOf sid'
  patterns : ∀ sid', sid' ≠ sid → s.patternsOf sid' = s₀.patternsOf sid'
  inv : Inv env s
  idle : s₀.tables.Idle

theorem sameOthers_of_transacts (hheld : s.Holder sid) (h : Transacts sid s s') :
    SameOthers sid s s' := by
  cases h with
  | refused => exact .refl sid s
  | held s' _ hwork =>
    have hsame := hwork.sameOutside
    exact ⟨hsame.saved, fun sid' _ => by rw [hsame.sessions]⟩
  | taken s' htake => exact absurd htake.1 (ne_of_gt hheld.1)

variable (env) in
theorem sameOthers_handle (hheld : s.Holder sid) (r : Request K P D)
    (hr : r.keepsLock = true) : SameOthers sid s (handle env sid s r).2 := by
  have hwatches {s'} (h : Rewatches sid s s') : SameOthers sid s s' := ⟨h.saved, h.others⟩
  cases r with
  | close => cases hr
  | lock => cases hr
  | unlock => cases hr
  | set | add | addSession | remove | touch | notify | setMultiple =>
    exact sameOthers_of_transacts hheld (transacts_handle env s sid _ rfl)
  | notifyAddKey key => exact hwatches (rewatches_addKey key)
  | notifyAddPattern pattern => exact hwatches (rewatches_addPattern env pattern)
  | notifyRemoveKey key => exact hwatches (rewatches_removeKey key)
  | notifyRemovePattern pattern => exact hwatches (rewatches_dropPattern pattern)
  | notifySet keys patterns =>
    exact hwatches (rewatches_setKeys keys patterns)
  | notifyChanges =>
    obtain ⟨_, _, heq⟩ := notifiedKeys_eq s sid
    exact heq ▸ ⟨rfl, fun _ _ => rfl⟩
  | notifyCancel =>
    obtain ⟨_, -, heq⟩ := notifyCancel_eq s sid
    exact heq ▸ ⟨rfl, fun _ _ => rfl⟩

theorem Holding.turn (h : Holding env s₀ sid s) {i : Input K P D}
    (hserved : Served s i) (hheld : (step env s i).Holder sid) :
    Holding env s₀ sid (step env s i) := by
  have hlock := h.inv.lock
  cases i with
  | opens sid' uid own =>
    have hwatches := sameWatches_configopen s sid' uid own
    have hsaved : (s.configopen sid' uid own).saved = s.saved := by
      unfold configopen
      cases s.sessions sid' <;> rfl
    refine ⟨hheld, hsaved.trans h.saved, fun sid₁ hne => ?_, fun sid₁ hne => ?_,
      h.inv.moves (moves_step (c := False) _ False.elim trivial), h.idle⟩
    · exact (congrFun hwatches.keys sid₁).trans (h.keys sid₁ hne)
    · exact (congrFun hwatches.patterns sid₁).trans (h.patterns sid₁ hne)
  | request sid' r =>
    obtain rfl := hlock.unique sid' sid (hserved h.holder.1) h.holder.2
    have hinv : Inv env (step env s (.request sid' r)) :=
      h.inv.moves (moves_step (c := False) _ False.elim trivial)
    have hsame : SameOthers sid' s (handle env sid' s r).2 := by
      cases hkeeps : r.keepsLock with
      | true => exact sameOthers_handle env h.holder r hkeeps
      | false =>
        have hheld' : (handle env sid' s r).2.Holder sid' := hheld
        cases r with
        | close =>
          exfalso
          have hfree : (s.configclose sid').2.isLocked sid' = false := by
            obtain ⟨session, hsession, -⟩ := isLocked_iff.mp h.holder.2
            unfold configclose
            rw [hsession]
            exact isLocked_remove
          exact absurd hheld'.2 (by simpa [handle] using hfree)
        | lock =>
          have htake : ¬ s.MayTake sid' := fun htake =>
            absurd htake.1 (ne_of_gt h.holder.1)
          have heq : (s.lock sid' false).2 = s := (lock_of_refused (by simp) htake).2
          change SameOthers sid' s (s.lock sid' false).2
          rw [heq]
          exact .refl sid' s
        | unlock =>
          exfalso
          have heq : (s.unlock sid' false).2 = s.commit sid' := by
            rw [unlock_of_once h.holder (by simp)]
          have hpos : 0 < (s.unlock sid' false).2.storeLocked := hheld'.1
          rw [heq] at hpos
          exact absurd hpos (lt_irrefl 0)
        | _ => cases hkeeps
    have hkeys := fun sid₁ (hne : sid₁ ≠ sid') => keysOf_of_sessions (hsame.sessions sid₁ hne)
    exact ⟨hheld, hsame.saved.trans h.saved, fun sid₁ hne => (hkeys sid₁ hne).1.trans
      (h.keys sid₁ hne), fun sid₁ hne => (hkeys sid₁ hne).2.trans (h.patterns sid₁ hne), hinv,
      h.idle⟩
  | dies sid' =>
    exfalso
    obtain rfl := hlock.unique sid' sid (hserved h.holder.1) h.holder.2
    have hfree : (s.cleanupSession sid').isLocked sid' = false := by
      rw [cleanup_eq h.holder]
      exact isLocked_remove
    have htrue : (s.cleanupSession sid').isLocked sid' = true := hheld.2
    rw [hfree] at htrue
    cases htrue

/-- While the session holds the lock the copies are the tables of the state in
which it took the lock, and the other sessions watch what they watched then. -/
theorem Under.holding (h : Under env s₀ sid s) (hinv : Inv env s₀) : Holding env s₀ sid s := by
  induction h with
  | taken htake =>
    have heq : step env s₀ (.request sid .lock) = (s₀.take sid).pushNotifications := by
      change (s₀.lock sid false).2.pushNotifications = _
      rw [lock_of_mayTake false htake]
    have hwatches := sameWatches_take s₀ sid
    have hheld := holder_take htake
    rw [heq]
    have hmoves : Moves env False s₀ (s₀.take sid).pushNotifications :=
      .tail (.single (.take s₀ sid htake)) (.pushNotifications _)
    exact ⟨hheld, rfl, fun sid' _ => congrFun hwatches.keys sid',
      fun sid' _ => congrFun hwatches.patterns sid', hinv.moves hmoves, hinv.idle htake.1⟩
  | turn i h hserved hheld ih => exact ih.turn hserved hheld

/-! ### What should be left -/

/-- The session that took the lock in `s₀` has left no trace in `s'`. -/
structure Clean (s₀ : State K P D) (sid : Sid) (s' : State K P D) :
    Prop where
  /-- The session keys of the session are gone, all other data are as they were. -/
  data : ∀ k, (s'.tables.entry k).data =
    if (s₀.tables.entry k).session = some sid then none else (s₀.tables.entry k).data
  /-- No key has the session as a watcher, and it is not among the sessions of a
  pattern. -/
  names : ¬ s'.tables.Names sid
  /-- No notification of the session is pending, and it has no entry. -/
  pending : sid ∉ s'.needsNotification ∧ s'.sessionData sid = none
  /-- What the others watch. -/
  keys : ∀ sid', sid' ≠ sid → s'.keysOf sid' = s₀.keysOf sid'
  patterns : ∀ sid', sid' ≠ sid → s'.patternsOf sid' = s₀.patternsOf sid'
  /-- The others are among the sessions of the same patterns. -/
  sessions : ∀ sid', sid' ≠ sid → ∀ p,
    (s'.tables.sessionsOf p).count sid' = (s₀.tables.sessionsOf p).count sid'
  /-- The patterns of the others have lost the session keys only. -/
  lists : ∀ sid', sid' ≠ sid → ∀ p ∈ s₀.patternsOf sid', ∀ k, k ∈ s'.tables.listOf p ↔
    k ∈ s₀.tables.listOf p ∧ (s₀.tables.entry k).session ≠ some sid
  /-- The references of the others are as they were, but for those to session keys
  that came from patterns. -/
  refs : ∀ sid', sid' ≠ sid → ∀ k, s'.tables.refs sid' k =
    if (s₀.tables.entry k).session = some sid then (if k ∈ s₀.keysOf sid' then 1 else 0)
    else s₀.tables.refs sid' k
  /-- No entry was used that is not there. -/
  fault : s'.fault = false

/-- What the session watches when it dies fits the tables that are put back: it
has the patterns that it had when it took the lock, it still watches by name
what it watched then, and the keys that were marked as its session keys are on
its list. -/
structure Restorable (s₀ : State K P D) (sid : Sid) (s : State K P D) :
    Prop where
  patterns : ∀ p, p ∈ s.patternsOf sid ↔ p ∈ s₀.patternsOf sid
  keys : ∀ k ∈ s₀.keysOf sid, k ∈ s.keysOf sid
  sessionKeys : ∀ k, (s₀.tables.entry k).session = some sid → k ∈ s.sessionKeysOf sid

/-! ### The tables after the cleanup -/

section

variable (h : Holding env s₀ sid s) (hinv : Inv env s₀)

include h

theorem Holding.sameData : s₀.tables.SameData (unwatched s sid).tables := by
  have hdata := (unwatched_spec s sid).1.data
  change s.saved.SameData _ at hdata
  rwa [h.saved] at hdata

include hinv

theorem Holding.cleanup : ∃ keys, s.sessionKeysOf sid = keys ∧
    (s.cleanupSession sid).tables = ((unwatched s sid).tables.removeOwn sid keys).committed ∧
    (s.cleanupSession sid).fault = (unwatched s sid).fault ∧
    ∀ sid', sid' ≠ sid → (s.cleanupSession sid).sessions sid' = s.sessions sid' := by
  obtain ⟨info, hinfo, -⟩ := h.inv.named sid (holder_open h.holder)
  obtain ⟨u, hu, htables, hsessions, hfault⟩ := cleanupSession_of_holder h.holder
    (h.saved ▸ hinv.marked) hinfo
  refine ⟨info.sessionKeys, ?_, ?_, ?_, fun sid' hne => ?_⟩
  · unfold sessionKeysOf
    rw [hinfo]
  · rw [hu, ← htables]
    rfl
  · rw [hu, ← hfault]
    rfl
  · rw [hu]
    have hremove : ((u.commit sid).removeSession sid).sessions sid' =
      (u.commit sid).sessions sid' :=
      Function.update_of_ne hne _ _
    have hcommit : (u.commit sid).sessions sid' = u.sessions sid' := Function.update_of_ne hne _ _
    rw [hremove, hcommit, hsessions]
    exact (unwatched_spec s sid).2.2.2 sid' hne

theorem Holding.data_cleanup (k : K) : ((s.cleanupSession sid).tables.entry k).data =
    if k ∈ s.sessionKeysOf sid ∧ (s₀.tables.entry k).session = some sid then none
    else (s₀.tables.entry k).data := by
  obtain ⟨keys, hkeys, htables, -⟩ := h.cleanup hinv
  rw [htables, Tables.data_committed, (Tables.removed_removeOwn sid _ keys).data,
    h.sameData.data, h.sameData.session, hkeys]

theorem Holding.sessionsOf_cleanup (p : P) :
    (s.cleanupSession sid).tables.sessionsOf p = (unwatched s sid).tables.sessionsOf p := by
  obtain ⟨keys, -, htables, -⟩ := h.cleanup hinv
  rw [htables, Tables.sessionsOf_committed]
  unfold Tables.sessionsOf
  rw [(Tables.removed_removeOwn sid _ keys).patternData]

omit hinv in
/-- The patterns that the session does not watch when it dies stay as they were
when it took the lock. Without a fault, those that it watches were there. -/
theorem Holding.lookup_unwatched :
    (∀ p, p ∉ s.patternsOf sid → (unwatched s sid).tables.patternData.lookup p =
        s₀.tables.patternData.lookup p) ∧ ((unwatched s sid).fault = false → ∀ p ∈ s.patternsOf sid,
        TakenBack sid (s₀.tables.patternData.lookup p)
          ((unwatched s sid).tables.patternData.lookup p)) := by
  obtain ⟨-, -, hpatterns⟩ := s.swap.removeAllKeys_spec sid
  have hdata : (s.swap.removeAllKeys sid).tables.patternData = s₀.tables.patternData := by
    rw [patterns_removeAll, ← h.saved]
    rfl
  have hsid : (s.swap.removeAllKeys sid).patternsOf sid = s.patternsOf sid := congrFun hpatterns sid
  obtain ⟨hrest, htaken⟩ := foldl_removePattern (s := s.swap.removeAllKeys sid)
    ((s.swap.removeAllKeys sid).patternsOf sid).toList
    ((s.swap.removeAllKeys sid).patternsOf sid).nodup fun _ => id
  rw [hdata, hsid] at hrest htaken
  refine ⟨fun p hp => ?_, fun hfault p hp => ?_⟩
  · unfold unwatched removeAllPatterns
    rw [hsid]
    exact hrest p hp
  · unfold unwatched removeAllPatterns at hfault ⊢
    rw [hsid] at hfault ⊢
    exact (htaken hfault).2 p hp

end

variable {t : Tables K P D}

omit [DecidableEq K] in
theorem Tables.lookup_of_sessionsOf {p : P} (h : sid ∈ t.sessionsOf p) :
    ∃ pInfo, t.patternData.lookup p = some pInfo ∧ sid ∈ pInfo.sessions := by
  unfold Tables.sessionsOf at h
  cases hlookup : t.patternData.lookup p with
  | none =>
    rw [hlookup] at h
    cases h
  | some pInfo =>
    rw [hlookup] at h
    exact ⟨pInfo, rfl, h⟩

theorem Tables.Sound.mem_sessionsOf_iff {patterns : Sid → ListSet P} (h : t.Sound env patterns)
    (p : P) (sid : Sid) : sid ∈ t.sessionsOf p ↔ p ∈ patterns sid := by
  rw [← List.count_pos_iff, h.sessions]
  split_ifs with hp <;> simp [hp]

theorem Holding.patterns_of_clean (h : Holding env s₀ sid s) (hinv : Inv env s₀)
    (hclean : Clean s₀ sid (s.cleanupSession sid)) (p : P) :
    p ∈ s.patternsOf sid ↔ p ∈ s₀.patternsOf sid := by
  have hsound := hinv.agrees.sound
  obtain ⟨hrest, htaken⟩ := h.lookup_unwatched
  have hsessions := h.sessionsOf_cleanup hinv p
  constructor
  · intro hp
    obtain ⟨-, -, -, hfault, -⟩ := h.cleanup hinv
    obtain ⟨pInfo, hinfo, hmem | ⟨hlen, hnone⟩⟩ := htaken (hfault ▸ hclean.fault) p hp
    · rw [← hsound.mem_sessionsOf_iff, Tables.sessionsOf_lookup hinfo]
      exact hmem
    · -- the pattern has been forgotten, so nobody else watched it
      by_contra hno
      obtain ⟨sid', hsid'⟩ := List.exists_mem_of_ne_nil _ (hsound.watched p pInfo hinfo)
      have hmem : sid' ∈ s₀.tables.sessionsOf p := by
        rw [Tables.sessionsOf_lookup hinfo]
        exact hsid'
      have hne : sid' ≠ sid := by
        rintro rfl
        exact hno ((hsound.mem_sessionsOf_iff p sid').mp hmem)
      have hcount := hclean.sessions sid' hne p
      have hgone : (unwatched s sid).tables.sessionsOf p = [] := by
        unfold Tables.sessionsOf
        rw [hnone]
      rw [hsessions, hgone] at hcount
      exact absurd (List.count_pos_iff.mpr hmem) (by rw [← hcount]; simp)
  · intro hp
    by_contra hno
    have hmem := (hsound.mem_sessionsOf_iff p sid).mpr hp
    obtain ⟨pInfo, hinfo, hmem⟩ := Tables.lookup_of_sessionsOf hmem
    have hstays : sid ∈ (s.cleanupSession sid).tables.sessionsOf p := by
      rw [hsessions, Tables.sessionsOf_lookup ((hrest p hno).trans hinfo)]
      exact hmem
    obtain ⟨pInfo', hinfo', hmem'⟩ := Tables.lookup_of_sessionsOf hstays
    exact hclean.names (.inr ⟨p, pInfo', hinfo', hmem'⟩)

/-! ### Sessions with the same patterns -/

theorem Tables.Sound.congr {patterns patterns' : Sid → ListSet P} (h : t.Sound env patterns)
    (hpatterns : ∀ sid p, p ∈ patterns' sid ↔ p ∈ patterns sid) : t.Sound env patterns':=
  { h with
    sessions := fun p sid => by
      rw [h.sessions]
      simp only [hpatterns] }

section

variable (h : Holding env s₀ sid s) (hinv : Inv env s₀)
  (hpatterns : ∀ p, p ∈ s.patternsOf sid ↔ p ∈ s₀.patternsOf sid)

include h hinv hpatterns

theorem Holding.sound_unwatched : (unwatched s sid).tables.Sound env (unwatched s sid).patternsOf ∧
      (s.swap.removeAllKeys sid).tables.Loses (unwatched s sid).tables ∧
      (unwatched s sid).fault = false := by
  obtain ⟨hsame, -, hsame'⟩ := s.swap.removeAllKeys_spec sid
  have hbut : s₀.tables.SameButWatchers (s.swap.removeAllKeys sid).tables := by
    rw [← h.saved]
    exact ⟨hsame.data, patterns_removeAll⟩
  have hsound : (s.swap.removeAllKeys sid).tables.Sound env
      (s.swap.removeAllKeys sid).patternsOf := by
    refine (hbut.sound hinv.agrees.sound).congr fun sid' p => ?_
    rw [hsame']
    change p ∈ s.patternsOf sid' ↔ _
    by_cases hne : sid' = sid
    · rw [hne]
      exact hpatterns p
    · rw [h.patterns sid' hne]
  obtain ⟨hsound', hloses, hfault⟩ := sound_removeAllPatterns hsound
  refine ⟨hsound', hloses, hfault.trans ?_⟩
  rw [fault_removeAllKeys]
  exact h.inv.fault

theorem Holding.via_unwatched (k : K) : (unwatched s sid).tables.via sid k = 0 := by
  rw [(h.sound_unwatched hinv hpatterns).1.via_eq, (unwatched_spec s sid).2.2.1]
  rfl

omit hpatterns in
theorem Holding.refs_saved (sid' : Sid) (k : K) :
    (s.swap.removeAllKeys sid).tables.via sid' k = s₀.tables.via sid' k ∧
      s.swap.tables.refs sid' k = (if k ∈ s₀.keysOf sid' then 1 else 0) + s₀.tables.via sid' k := by
  constructor
  · unfold Tables.via
    rw [patterns_removeAll, ← h.saved]
    rfl
  · rw [← hinv.agrees.counted, ← h.saved]
    rfl

/-- The references of the session that are left: those by name that it has
dropped since it took the lock. -/
theorem Holding.refs_unwatched (k : K) : (unwatched s sid).tables.refs sid k =
    if k ∈ s₀.keysOf sid ∧ k ∉ s.keysOf sid then 1 else 0 := by
  obtain ⟨c, hrefs, hvia⟩ := (h.sound_unwatched hinv hpatterns).2.1.counts sid k
  have hzero := h.via_unwatched hinv hpatterns k
  obtain ⟨hvia₀, hrefs₀⟩ := h.refs_saved hinv sid k
  have hrefs₁ := refs_removeAllKeys s.swap sid sid k
  have hkeys : s.swap.keysOf sid = s.keysOf sid := rfl
  rw [hkeys, hrefs₀] at hrefs₁
  by_cases h₀ : k ∈ s₀.keysOf sid <;> by_cases h₁ : k ∈ s.keysOf sid <;>
    simp only [h₀, h₁, and_true, and_false, not_true, not_false_iff, if_true,
      if_false] at hrefs₁ ⊢ <;> omega

theorem Holding.refs_unwatched_of_ne {sid' : Sid} (hne : sid' ≠ sid) (k : K) :
    (unwatched s sid).tables.refs sid' k = (if k ∈ (unwatched s sid).keysOf sid' then 1 else 0) +
        (unwatched s sid).tables.via sid' k := by
  obtain ⟨c, hrefs, hvia⟩ := (h.sound_unwatched hinv hpatterns).2.1.counts sid' k
  obtain ⟨hvia₀, hrefs₀⟩ := h.refs_saved hinv sid' k
  have hrefs₁ := refs_removeAllKeys s.swap sid sid' k
  rw [if_neg fun hboth => hne hboth.1] at hrefs₁
  have hkeys : (unwatched s sid).keysOf sid' = s₀.keysOf sid' :=
    (keysOf_of_sessions ((unwatched_spec s sid).2.2.2 sid' hne)).1.trans (h.keys sid' hne)
  rw [hkeys]
  omega

theorem Holding.keys_of_clean (hclean : Clean s₀ sid (s.cleanupSession sid)) {k : K}
    (hk : k ∈ s₀.keysOf sid) : k ∈ s.keysOf sid := by
  by_contra hno
  obtain ⟨keys, -, htables, -⟩ := h.cleanup hinv
  have hremoved := Tables.removed_removeOwn sid (unwatched s sid).tables keys
  obtain ⟨c, hrefs, hvia⟩ := Tables.counts_committed
    ((unwatched s sid).tables.removeOwn sid keys) sid k
  rw [hremoved.refs_eq, h.refs_unwatched hinv hpatterns, if_pos ⟨hk, hno⟩] at hrefs
  rw [hremoved.via_eq, h.via_unwatched hinv hpatterns] at hvia
  refine hclean.names (.inl ⟨k, ?_⟩)
  rw [htables, ← AList.mem_keys, ← AList.lookup_isSome]
  by_contra hnone
  have hzero : ((unwatched s sid).tables.removeOwn sid keys).committed.refs sid k = 0 := by
    unfold Tables.refs Entry.refs
    rw [Option.not_isSome_iff_eq_none.mp hnone]
    rfl
  omega

end

/-! ### Sessions that leave no trace -/

section

variable (h : Holding env s₀ sid s) (hinv : Inv env s₀) (hrestorable : Restorable s₀ sid s)

include h hinv hrestorable

theorem Holding.inv_unwatched : Inv env (unwatched s sid) := by
  obtain ⟨hsame, hkeys, hpatterns, -⟩ := unwatched_spec s sid
  obtain ⟨hsound, -, hfault⟩ := h.sound_unwatched hinv hrestorable.patterns
  have hswap : SameLock s s.swap := sameLock_of_eq rfl rfl
  have hlock : SameLock s (unwatched s sid) := hswap.trans hsame.toSameLock
  refine ⟨h.inv.lock.of_sameLock hlock, ⟨hsound, fun sid' k => ?_⟩, fun hfree => ?_,
    h.sameData.marked hinv.marked, fun sid' hopen => ?_, fun sid' hsid' => ?_, hfault⟩
  · by_cases hne : sid' = sid
    · rw [hne, h.refs_unwatched hinv hrestorable.patterns,
        h.via_unwatched hinv hrestorable.patterns, hkeys,
        if_neg fun hboth => hboth.2 (hrestorable.keys k hboth.1), if_neg ListSet.notMem_empty]
    · exact h.refs_unwatched_of_ne hinv hrestorable.patterns hne k
  · rw [hlock.storeLocked] at hfree
    exact absurd h.holder.1 (by omega)
  · rw [hsame.sessionData]
    exact h.inv.named sid' ((SameLock.open_iff hlock).mp hopen)
  · rw [hsame.needsNotification] at hsid'
    exact (SameLock.open_iff hlock).mpr (h.inv.pending sid' hsid')

theorem Holding.inv_cleanup : Inv env (s.cleanupSession sid) := by
  rw [cleanup_eq h.holder]
  have hopen : (unwatched s sid).sessions sid ≠ none :=
    holder_open ((SameLock.holder (unwatched_spec s sid).1.toSameLock).mpr h.holder)
  have hmoves : Moves env False (unwatched s sid)
      (((unwatched s sid).close sid).removeSession sid) := moves_removeSession hopen
  exact (h.inv_unwatched hinv hrestorable).moves hmoves

theorem Holding.lists_cleanup {p : P} {sid' : Sid}
    (hp : p ∈ (s.cleanupSession sid).patternsOf sid') (k : K) :
    k ∈ (s.cleanupSession sid).tables.listOf p ↔
      k ∈ s₀.tables.listOf p ∧ (s₀.tables.entry k).session ≠ some sid := by
  obtain ⟨keys, hkeys, htables, -⟩ := h.cleanup hinv
  have hremoved := Tables.removed_removeOwn sid (unwatched s sid).tables keys
  obtain ⟨pInfo', hinfo', -⟩ := (h.inv_cleanup hinv hrestorable).agrees.sound.lookup_of_mem hp
  -- the list before the commit, which is the list when the lock was taken
  have hbefore := hinfo'
  rw [htables, Tables.lookup_committed, hremoved.patternData] at hbefore
  obtain ⟨pInfo₁, hinfo₁, rfl⟩ := Option.map_eq_some_iff.mp hbefore
  obtain ⟨pInfo, hinfo, hsame⟩ := keepsLists_removeAll _ sid p pInfo₁ hinfo₁
  have hinfo₀ : s₀.tables.patternData.lookup p = some pInfo := by
    rw [← hinfo, patterns_removeAll, ← h.saved]
    rfl
  have hnodup : pInfo₁.keys.Nodup :=
    (h.inv_unwatched hinv hrestorable).agrees.sound.nodup p pInfo₁ hinfo₁
  have hdeferred : k ∈ ((unwatched s sid).tables.removeOwn sid keys).deferredRemovals ↔
      (s₀.tables.entry k).session = some sid := by
    rw [hremoved.deferredRemovals, h.sameData.deferredRemovals, h.idle.deferredRemovals,
      h.sameData.session]
    constructor
    · rintro (hno | ⟨-, hown⟩)
      · exact absurd hno ListSet.notMem_empty
      · exact hown
    · intro hown
      exact .inr ⟨hkeys ▸ hrestorable.sessionKeys k hown, hown⟩
  unfold Tables.listOf
  rw [hinfo', hinfo₀]
  rw [hnodup.mem_sdiff_iff, hsame, ListSet.mem_toList, hdeferred]

theorem Holding.clean : Clean s₀ sid (s.cleanupSession sid) := by
  have hfinal := h.inv_cleanup hinv hrestorable
  obtain ⟨-, -, -, -, hsessions⟩ := h.cleanup hinv
  have hgone : (s.cleanupSession sid).sessions sid = none ∧
      (s.cleanupSession sid).sessionData sid = none := by
    rw [cleanup_eq h.holder]
    exact ⟨Function.update_self _ _ _, Function.update_self _ _ _⟩
  have hkeys : ∀ sid', sid' ≠ sid → (s.cleanupSession sid).keysOf sid' = s₀.keysOf sid' :=
    fun sid' hne => (keysOf_of_sessions (hsessions sid' hne)).1.trans (h.keys sid' hne)
  have hpatterns : ∀ sid', sid' ≠ sid →
      (s.cleanupSession sid).patternsOf sid' = s₀.patternsOf sid' :=
    fun sid' hne => (keysOf_of_sessions (hsessions sid' hne)).2.trans (h.patterns sid' hne)
  have hlists : ∀ sid', sid' ≠ sid → ∀ p ∈ s₀.patternsOf sid', ∀ k,
      k ∈ (s.cleanupSession sid).tables.listOf p ↔
        k ∈ s₀.tables.listOf p ∧ (s₀.tables.entry k).session ≠ some sid :=
    fun sid' hne p hp k => h.lists_cleanup hinv hrestorable (hpatterns sid' hne ▸ hp) k
  refine ⟨fun k => ?_, ?_, ⟨fun hsid => hfinal.pending sid hsid hgone.1, hgone.2⟩, hkeys,
    hpatterns, fun sid' hne p => ?_, hlists, fun sid' hne k => ?_, hfinal.fault⟩
  · rw [h.data_cleanup hinv]
    by_cases hown : (s₀.tables.entry k).session = some sid
    · rw [if_pos ⟨hrestorable.sessionKeys k hown, hown⟩, if_pos hown]
    · rw [if_neg fun hboth => hown hboth.2, if_neg hown]
  · refine hfinal.agrees.not_names ?_ ?_
    · unfold keysOf
      rw [hgone.1]
    · unfold patternsOf
      rw [hgone.1]
  · rw [hfinal.agrees.sound.sessions, hinv.agrees.sound.sessions, hpatterns sid' hne]
  · rw [hfinal.agrees.counted, hfinal.agrees.sound.via_eq, hkeys sid' hne, hpatterns sid' hne]
    by_cases hown : (s₀.tables.entry k).session = some sid
    · rw [if_pos hown, List.countP_eq_zero.mpr, add_zero]
      intro p hp hmem
      exact ((hlists sid' hne p hp k).mp (of_decide_eq_true hmem)).2 hown
    · rw [if_neg hown, hinv.agrees.counted, hinv.agrees.sound.via_eq]
      congr 1
      refine List.countP_congr fun p hp => ?_
      rw [decide_eq_true_eq, decide_eq_true_eq, hlists sid' hne p hp k]
      exact and_iff_left hown

end

/-! ### Runs -/

/-- The states between the turns of all runs in which a session that dies while
it holds the lock can be taken back. -/
inductive Run (env : Env K P D) : State K P D → Prop
  | initial : Run env .initial
  | turn {s : State K P D} (i : Input K P D) (h : Run env s)
      (hserved : Served s i) (hno : NoAbort s i) : Run env (step env s i)
  | abort {s₀ s : State K P D} (sid : Sid) (h₀ : Run env s₀)
      (h : Under env s₀ sid s) (hrestorable : Restorable s₀ sid s) :
      Run env (step env s (.dies sid))

theorem Run.inv (h : Run env s) : Inv env s := by
  induction h with
  | initial => exact inv_initial
  | turn i h hserved hno ih => exact ih.moves (moves_step (c := False) i False.elim hno)
  | abort sid h₀ h hrestorable ih =>
    have hclean := (h.holding ih).inv_cleanup ih hrestorable
    exact hclean.move (.pushNotifications (c := False) _)

/-- A session takes the lock in a state of a run and dies while it holds it. The
cleanup leaves no trace of it exactly if the session has the patterns that it
had when it took the lock, still watches by name what it watched then, and has
the keys that were marked as its session keys on its list. -/
theorem cleanup_clean_iff (h₀ : Run env s₀) (h : Under env s₀ sid s) :
    Clean s₀ sid (s.cleanupSession sid) ↔ Restorable s₀ sid s := by
  have hinv := h₀.inv
  have hold := h.holding hinv
  constructor
  · intro hclean
    have hpatterns := hold.patterns_of_clean hinv hclean
    refine ⟨hpatterns, fun k hk => hold.keys_of_clean hinv hpatterns hclean hk, fun k hown => ?_⟩
    by_contra hno
    have hdata := hclean.data k
    rw [hold.data_cleanup hinv, if_neg fun hboth => hno hboth.1, if_pos hown] at hdata
    exact hinv.marked k (by simp [hown]) hdata
  · exact hold.clean hinv

/-- A session with a session key changes another key and watches a third one
under its lock, and dies. -/
theorem cleanup_clean_watched : Clean (run sampleEnv .initial
        [.opens 7 0 false, .request 7 (.set 5 1), .request 7 (.addSession 9 1)]) 7
      ((run sampleEnv .initial
        [.opens 7 0 false, .request 7 (.set 5 1), .request 7 (.addSession 9 1), .request 7 .lock,
          .request 7 (.set 5 2), .request 7 (.notifyAddKey 4)]).cleanupSession 7) := by
  have h₀ : Run sampleEnv (run sampleEnv .initial
      [.opens 7 0 false, .request 7 (.set 5 1), .request 7 (.addSession 9 1)]) :=
    .turn _ (.turn _ (.turn _ .initial trivial trivial) (fun h => absurd h (by decide)) trivial)
      (fun h => absurd h (by decide)) trivial
  have h : Under sampleEnv (run sampleEnv .initial
        [.opens 7 0 false, .request 7 (.set 5 1), .request 7 (.addSession 9 1)]) 7
      (run sampleEnv .initial
        [.opens 7 0 false, .request 7 (.set 5 1), .request 7 (.addSession 9 1), .request 7 .lock,
          .request 7 (.set 5 2), .request 7 (.notifyAddKey 4)]) :=
    .turn _ (.turn _ (.taken ⟨rfl, _, rfl, rfl⟩) (fun _ => by decide)
      ⟨by decide, by decide⟩) (fun _ => by decide) ⟨by decide, by decide⟩
  refine (cleanup_clean_iff h₀ h).mpr
    ⟨fun p => Iff.rfl, fun k hk => (by cases hk), fun k hown => ?_⟩
  have hstored : (run sampleEnv .initial [.opens 7 0 false, .request 7 (.set 5 1),
        .request 7 (.addSession 9 1)]).tables.storeData.keys = [9, 5] := by decide
  have hk : k ∈ [9, 5] := by
    rw [← hstored, ← AList.mem_keys, ← AList.lookup_isSome]
    by_contra hnone
    unfold Tables.entry at hown
    rw [Option.not_isSome_iff_eq_none.mp hnone] at hown
    cases hown
  rcases List.mem_pair.mp hk with rfl | rfl
  · decide
  · exact absurd hown (by decide)

/-- A session adds a pattern under its lock and dies. The pattern is not in the
tables that are put back, and its entry is used. -/
theorem new_pattern_not_clean : Run sampleEnv (run sampleEnv .initial [.opens 7 0 false]) ∧
      Under sampleEnv (run sampleEnv .initial [.opens 7 0 false]) 7 (run sampleEnv .initial
          [.opens 7 0 false, .request 7 .lock, .request 7 (.notifyAddPattern 3)]) ∧
      ¬ Clean (run sampleEnv .initial [.opens 7 0 false]) 7 ((run sampleEnv .initial
          [.opens 7 0 false, .request 7 .lock,
            .request 7 (.notifyAddPattern 3)]).cleanupSession 7) := by
  refine ⟨.turn _ .initial trivial trivial, .turn _ (.taken ⟨rfl, _, rfl, rfl⟩)
    (fun _ => by decide) ⟨by decide, by decide⟩, fun hclean => ?_⟩
  exact absurd hclean.fault (by decide)

end Hexley.Configd
