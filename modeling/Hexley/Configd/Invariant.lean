import Hexley.Configd.Notify

/-!
The invariant of the server.

Beside the discipline of the lock and the agreement of the tables with what is
watched: nothing is left of a lock that has been released, a session key has
data, the entry of a session that is open is there, and notifications are
pending only for sessions that are open. So no entry is used that is not there,
in all runs without the death of a holder of the lock.
-/

namespace Hexley.Configd

open Lib Relation State Function Tables Option

variable {K P D : Type} {env : Env K P D} {c : Prop} {s s' : State K P D} {sid : Sid}

def Named (sessionData : Sid → Option (Info K)) (sid : Sid) : Prop :=
  ∃ info, sessionData sid = some info ∧ info.named = true

theorem named_copyNotifiedKeys (s : State K P D) (sid : Sid) {sid' : Sid}
    (h : Named s.sessionData sid') : Named (s.copyNotifiedKeys sid).2.sessionData sid' := by
  unfold copyNotifiedKeys
  cases s.sessions sid with
  | none => exact h
  | some session =>
    dsimp only
    cases hinfo : s.sessionData sid with
    | none => exact h
    | some info =>
      dsimp only
      split_ifs with hempty hkeep
      · exact h
      · by_cases hsid : sid' = sid
        · subst hsid
          obtain ⟨info', hinfo', hname⟩ := h
          obtain rfl := some.inj (hinfo.symm.trans hinfo')
          exact ⟨_, update_self _ _ _, hname⟩
        · obtain ⟨info', hinfo', hname⟩ := h
          exact ⟨info', (update_of_ne hsid _ _).trans hinfo', hname⟩
      · obtain ⟨info', hinfo', hname⟩ := h
        by_cases hsid : sid' = sid
        · subst hsid
          obtain rfl := some.inj (hinfo.symm.trans hinfo')
          simp [hname] at hkeep
        · exact ⟨info', (update_of_ne hsid _ _).trans hinfo', hname⟩

theorem SameLock.open_iff (h : SameLock s s') : s'.sessions sid ≠ none ↔ s.sessions sid ≠ none := by
  have hmap := h.session sid
  cases hs : s.sessions sid <;> cases hs' : s'.sessions sid <;> simp_all

theorem holder_open (h : s.Holder sid) : s.sessions sid ≠ none := by
  obtain ⟨session, hsession, -⟩ := isLocked_iff.mp h.2
  rw [hsession]
  exact some_ne_none session

theorem open_modify (s : State K P D) (sid : Sid) (f : Session K P → Session K P) (sid' : Sid) :
    (s.modifySession sid f).sessions sid' ≠ none ↔ s.sessions sid' ≠ none := by
  rw [sessions_modify]
  split_ifs with h
  · rw [h, ne_eq, map_eq_none_iff]
  · rfl

variable [DecidableEq K] (t : Tables K P D)

structure Tables.Idle (t : Tables K P D) : Prop where
  changedKeys : t.changedKeys = ∅
  deferredRemovals : t.deferredRemovals = ∅
  removedSessionKeys : t.removedSessionKeys = ∅

def Tables.Marked : Prop :=
  ∀ k, (t.entry k).session ≠ none → (t.entry k).data ≠ none

/-! ### Data -/

theorem Tables.SameData.idle {t t' : Tables K P D} (h : t.SameData t') (hidle : t.Idle) : t'.Idle :=
  ⟨h.changedKeys.trans hidle.changedKeys, h.deferredRemovals.trans hidle.deferredRemovals,
    h.removedSessionKeys.trans hidle.removedSessionKeys⟩

theorem Tables.SameData.marked {t t' : Tables K P D} (h : t.SameData t')
    (hmarked : t.Marked) : t'.Marked := fun k => by
  rw [h.data, h.session]
  exact hmarked k

theorem Tables.entry_removeEntry (key k : K) : (t.removeEntry key).entry k =
      if k = key then { t.entry key with data := none, session := none } else t.entry k := by
  obtain ⟨removed, heq⟩ := t.removeEntry_eq key
  rw [heq, entry_write]
  rfl

theorem Tables.Marked.removeEntry {t : Tables K P D} (h : t.Marked) (key : K) :
    (t.removeEntry key).Marked := by
  intro k
  rw [entry_removeEntry]
  split_ifs
  · exact fun hno => absurd rfl hno
  · exact h k

/-! ### Entries of sessions -/

theorem named_addSessionKey (hnamed : Named s.sessionData sid) (key : K) {sid' : Sid}
    (h : Named s.sessionData sid') : Named (s.addSessionKey sid key).sessionData sid' ∧
      (s.addSessionKey sid key).fault = s.fault := by
  obtain ⟨info, hinfo, hname⟩ := hnamed
  unfold addSessionKey
  rw [hinfo]
  refine ⟨?_, rfl⟩
  by_cases hsid : sid' = sid
  · subst hsid
    exact ⟨_, update_self _ _ _, hname⟩
  · obtain ⟨info', hinfo', hname'⟩ := h
    exact ⟨info', (update_of_ne hsid _ _).trans hinfo', hname'⟩

theorem named_notifyWatchers {r : (Sid → Option (Info K)) × ListSet Sid} (h : Named r.1 sid) :
    Named (notifyWatchers t r).1 sid := by
  have hwatcher : ∀ (key : K) (r : (Sid → Option (Info K)) × ListSet Sid) (watcher : Sid),
      Named r.1 sid → Named (notifyWatcher key r watcher).1 sid := by
    rintro key r watcher ⟨info, hinfo, hname⟩
    unfold notifyWatcher
    by_cases hsid : sid = watcher
    · subst hsid
      rw [hinfo]
      exact ⟨_, update_self _ _ _, hname⟩
    · exact ⟨info, (update_of_ne hsid _ _).trans hinfo, hname⟩
  have hwatchers : ∀ (key : K) (l : List Sid) (r : (Sid → Option (Info K)) × ListSet Sid),
      Named r.1 sid → Named (l.foldl (notifyWatcher key) r).1 sid := by
    intro key l
    induction l with
    | nil => exact fun r h => h
    | cons watcher l ih => exact fun r h => ih _ (hwatcher key r watcher h)
  have hkeys : ∀ (l : List K) (r : (Sid → Option (Info K)) × ListSet Sid), Named r.1 sid →
      Named (l.foldl (fun r key => (t.entry key).watchers.keys.foldl (notifyWatcher key) r)
        r).1 sid := by
    intro l
    induction l with
    | nil => exact fun r h => h
    | cons key l ih => exact fun r h => ih _ (hwatchers key _ r h)
  exact hkeys _ r h

theorem fault_addWatchedKey (key : K) : (s.addWatchedKey sid key).2.fault = s.fault := by
  rw [addKey_eq]
  split_ifs <;> rfl

theorem fault_removeKey (key : K) : (s.removeWatchedKey sid key).2.fault = s.fault := by
  rw [removeKey_eq]
  split_ifs <;> rfl

/-! ### The invariant -/

variable [DecidableEq P]

structure Inv (env : Env K P D) (s : State K P D) : Prop where
  lock : LockOk s
  agrees : Agrees env s
  idle : s.storeLocked = 0 → s.tables.Idle
  marked : s.tables.Marked
  named : ∀ sid, s.sessions sid ≠ none → Named s.sessionData sid
  pending : ∀ sid ∈ s.needsNotification, s.sessions sid ≠ none
  fault : s.fault = false

theorem inv_initial : Inv env (State.initial : State K P D) where
  lock := lockOk_initial
  agrees := agrees_initial
  idle _ := ⟨rfl, rfl, rfl⟩
  marked _ h := absurd rfl h
  named _ h := absurd rfl h
  pending _ h := by cases h
  fault := rfl

theorem Tables.entry_setEntry (key k : K) (e : Entry D) (newEntry : Bool) :
    ((t.setEntry key e newEntry).entry k).data = (if k = key then e else t.entry k).data ∧
      ((t.setEntry key e newEntry).entry k).session =
        (if k = key then e else t.entry k).session := by
  have hgains := (addKey_spec (t.write key e) key).1
  rw [← entry_write]
  unfold setEntry
  dsimp only
  split_ifs
  · exact ⟨rfl, rfl⟩
  · exact ⟨hgains.data k, hgains.session k⟩
  · exact ⟨rfl, rfl⟩

theorem Tables.Marked.setEntry {t : Tables K P D} (h : t.Marked) (key : K)
    {e : Entry D} (hdata : e.data ≠ none) (newEntry : Bool) :
    (t.setEntry key e newEntry).Marked := by
  intro k
  obtain ⟨hd, hs⟩ := t.entry_setEntry key k e newEntry
  rw [hd, hs]
  split_ifs
  · exact fun _ => hdata
  · exact h k

theorem marked_work (h : s.tables.Marked) (hwork : s.Work sid s') : s'.tables.Marked := by
  cases hwork with
  | set own key value =>
    unfold setBody
    cases hmanage : s.manageSessionKeys sid own key value with
    | none => exact h
    | some r =>
      have hmanaged := managed_of_eq_some hmanage
      obtain ⟨removed, htables⟩ := hmanaged.tables
      have hr : r.1.tables.Marked := by
        rw [htables]
        exact h
      exact hr.setEntry key (by simp [hmanaged.data]) _
  | remove key =>
    unfold removeBody
    split_ifs
    · exact h
    · exact h.removeEntry key

theorem named_work (hnamed : Named s.sessionData sid) (hwork : s.Work sid s') {sid' : Sid}
    (h : Named s.sessionData sid') : Named s'.sessionData sid' ∧ s'.fault = s.fault := by
  cases hwork with
  | set own key value =>
    unfold setBody
    cases hmanage : s.manageSessionKeys sid own key value with
    | none => exact ⟨h, rfl⟩
    | some r =>
      change Named r.1.sessionData sid' ∧ r.1.fault = s.fault
      rcases manageKeys_cases hmanage with ⟨-, hr, -⟩ | ⟨hr, -⟩ | ⟨owner, -, -, hr, -⟩
      · rw [hr]
        exact named_addSessionKey hnamed key h
      · rw [hr]
        exact ⟨h, rfl⟩
      · rw [hr]
        exact ⟨h, rfl⟩
  | remove key =>
    unfold removeBody
    split_ifs <;> exact ⟨h, rfl⟩

theorem named_cleanupKey {sessionData : Sid → Option (Info K)}
    (removedKeys : List (Sid × K)) (h : Named sessionData sid) :
    Named (removedKeys.foldl cleanupRemovedSessionKey sessionData) sid := by
  induction removedKeys generalizing sessionData with
  | nil => exact h
  | cons removedKey removedKeys ih =>
    refine ih ?_
    obtain ⟨info, hinfo, hname⟩ := h
    unfold cleanupRemovedSessionKey
    by_cases hsid : sid = removedKey.1
    · rw [← hsid, hinfo]
      exact ⟨_, update_self _ _ _, hname⟩
    · exact ⟨info, (update_of_ne hsid _ _).trans hinfo, hname⟩

/-! ### Watchers -/

theorem Agrees.not_names (h : Agrees env s) (hkeys : s.keysOf sid = ∅)
    (hpatterns : s.patternsOf sid = ∅) : ¬ s.tables.Names sid := by
  rintro (⟨k, hk⟩ | ⟨p, pInfo, hp, hmem⟩)
  · have hpos := (Configd.mem_watchers_iff h.sound.positive k sid).mp hk
    rw [h.counted, h.sound.via_eq, hkeys, hpatterns] at hpos
    simp at hpos
  · have hcount := h.sound.sessions p sid
    rw [sessionsOf_lookup hp, hpatterns] at hcount
    have hpos := List.count_pos_iff.mpr hmem
    rw [if_neg ListSet.notMem_empty] at hcount
    omega

theorem Agrees.open_of_watcher (h : Agrees env s) {k : K}
    (hk : sid ∈ (s.tables.entry k).watchers.keys) : s.sessions sid ≠ none := by
  intro hnone
  have hkeys : s.keysOf sid = ∅ := by
    unfold keysOf
    rw [hnone]
  have hpatterns : s.patternsOf sid = ∅ := by
    unfold patternsOf
    rw [hnone]
  exact h.not_names hkeys hpatterns (.inl ⟨k, hk⟩)

/-! ### Moves -/

theorem Inv.of_sameBut (h : Inv env s) (hsame : SameButWatches s s')
    (hagrees : Agrees env s') (hfault : s'.fault = s.fault) : Inv env s' where
  lock := h.lock.of_sameLock hsame.toSameLock
  agrees := hagrees
  idle hfree := hsame.data.idle (h.idle (hsame.storeLocked ▸ hfree))
  marked := hsame.data.marked h.marked
  named sid hopen := by
    rw [hsame.sessionData]
    exact h.named sid ((SameLock.open_iff hsame.toSameLock).mp hopen)
  pending sid hsid := by
    rw [hsame.needsNotification] at hsid
    exact (SameLock.open_iff hsame.toSameLock).mpr (h.pending sid hsid)
  fault := hfault.trans h.fault

theorem fault_addWatchedPattern (pattern : P) :
    (s.addWatchedPattern env sid pattern).2.fault = s.fault := by
  rw [addPattern_eq]
  split_ifs
  · rfl
  · cases s.tables.patternAddSession env pattern sid <;> rfl

section

variable (h : Inv env s)
include h

theorem Inv.work (hheld : s.Holder sid) (hwork : s.Work sid s')
    (hlock : LockOk s') (hagrees : Agrees env s') : Inv env s' := by
  have hsame := hwork.sameOutside
  have hnamed := h.named sid (holder_open hheld)
  refine ⟨hlock, hagrees, fun hfree => ?_, marked_work h.marked hwork, fun sid' hopen => ?_,
    fun sid' hsid => ?_, ?_⟩
  · rw [hsame.storeLocked] at hfree
    exact absurd hheld.1 (by omega)
  · rw [hsame.sessions] at hopen
    exact (named_work hnamed hwork (h.named sid' hopen)).1
  · rw [hsame.needsNotification] at hsid
    rw [hsame.sessions]
    exact h.pending sid' hsid
  · rw [(named_work hnamed hwork hnamed).2]
    exact h.fault

theorem Inv.commit (hheld : s.Holder sid) (hagrees : Agrees env (s.commit sid)) :
    Inv env (s.commit sid) := by
  obtain ⟨hloses, -⟩ := deferred_spec { s.tables with changedKeys := ∅ }
  have hopen : ∀ sid', (s.commit sid).sessions sid' ≠ none ↔ s.sessions sid' ≠ none :=
    open_modify s sid _
  refine ⟨lockOk_commit h.lock hheld, hagrees, fun _ => ⟨hloses.changedKeys, rfl, rfl⟩,
    fun k hk => ?_, fun sid' hsid' => ?_, fun sid' hsid' => ?_, h.fault⟩
  · have hmarked := (hloses.toSameData.marked h.marked) k
    exact hmarked hk
  · refine named_cleanupKey _ (named_notifyWatchers s.tables ?_)
    exact h.named sid' ((hopen sid').mp hsid')
  · have hmem : sid' ∈ (notifyWatchers s.tables (s.sessionData, s.needsNotification)).2 := hsid'
    rw [needs_notifyWatchers] at hmem
    rw [hopen]
    rcases hmem with hold | ⟨k, -, hk⟩
    · exact h.pending sid' hold
    · exact h.agrees.open_of_watcher hk

theorem Inv.copyNotifiedKeys (sid : Sid)
    (hagrees : Agrees env (s.copyNotifiedKeys sid).2) : Inv env (s.copyNotifiedKeys sid).2 := by
  have hnamed (sid' : Sid) (hopen : s.sessions sid' ≠ none) :=
    named_copyNotifiedKeys s sid (h.named sid' hopen)
  have hlock := h.lock.of_sameLock (sameLock_copyKeys s sid)
  obtain ⟨_, _, heq⟩ := notifiedKeys_eq s sid
  rw [heq] at hnamed hlock hagrees ⊢
  exact ⟨hlock, hagrees, h.idle, h.marked, hnamed, h.pending, h.fault⟩

theorem Inv.configopen (sid : Sid) (uid : ℕ) (own : Bool)
    (hlock : LockOk (s.configopen sid uid own))
    (hagrees : Agrees env (s.configopen sid uid own)) :
    Inv env (s.configopen sid uid own) := by
  unfold State.configopen at hlock hagrees ⊢
  cases hsession : s.sessions sid with
  | some session => exact h
  | none =>
    rw [hsession] at hlock hagrees
    refine ⟨hlock, hagrees, h.idle, h.marked, fun sid' hopen => ?_, fun sid' hsid' => ?_, h.fault⟩
    · dsimp only at hopen ⊢
      by_cases hsid : sid' = sid
      · subst hsid
        exact ⟨_, update_self _ _ _, rfl⟩
      · rw [update_of_ne hsid] at hopen
        obtain ⟨info, hinfo, hname⟩ := h.named sid' hopen
        exact ⟨info, (update_of_ne hsid _ _).trans hinfo, hname⟩
    · dsimp only
      by_cases hsid : sid' = sid
      · rw [hsid, update_self]
        exact some_ne_none _
      · rw [update_of_ne hsid]
        exact h.pending sid' hsid'

theorem Inv.removeSession (hkeys : s.keysOf sid = ∅)
    (hpatterns : s.patternsOf sid = ∅) (hpending : sid ∈ s.needsNotification → s.tables.Names sid)
    (hlock : LockOk (s.removeSession sid)) (hagrees : Agrees env (s.removeSession sid)) :
    Inv env (s.removeSession sid) := by
  refine ⟨hlock, hagrees, h.idle, h.marked, fun sid' hopen => ?_, fun sid' hsid' => ?_, h.fault⟩
  · by_cases hsid : sid' = sid
    · exact absurd (hsid ▸ update_self _ _ _) hopen
    · have hsession : (s.removeSession sid).sessions sid' = s.sessions sid' :=
        update_of_ne hsid _ _
      rw [hsession] at hopen
      obtain ⟨info, hinfo, hname⟩ := h.named sid' hopen
      exact ⟨info, (update_of_ne hsid _ _).trans hinfo, hname⟩
  · have hne : sid' ≠ sid := by
      rintro rfl
      exact h.agrees.not_names hkeys hpatterns (hpending hsid')
    have hsession : (s.removeSession sid).sessions sid' = s.sessions sid' :=
      update_of_ne hne _ _
    rw [hsession]
    exact h.pending sid' hsid'

theorem Inv.pushNotifications (hlock : LockOk s.pushNotifications)
    (hagrees : Agrees env s.pushNotifications) : Inv env s.pushNotifications := by
  refine ⟨hlock, hagrees, h.idle, h.marked, h.named, fun sid' hsid' => ?_, ?_⟩
  · exact absurd hsid' ListSet.notMem_empty
  · change (s.fault || s.needsNotification.toList.any fun sid => (s.sessions sid).isNone) = false
    rw [h.fault, Bool.false_or, List.any_eq_false]
    intro sid' hsid' hnone
    exact h.pending sid' hsid' (isNone_iff_eq_none.mp hnone)

theorem Inv.move (hmove : Move env c s s') : Inv env s' := by
  have hlock := lockOk_move h.lock hmove
  have hagrees := (h.agrees.move hmove).agrees
  cases hmove with
  | take sid htake =>
    have hopen := open_modify s sid fun session => { session with locked := true }
    exact ⟨hlock, hagrees, fun hfree => absurd hfree Nat.one_ne_zero, h.marked,
      fun sid' hsid' => h.named sid' ((hopen sid').mp hsid'),
      fun sid' hsid' => (hopen sid').mpr (h.pending sid' hsid'), h.fault⟩
  | work s' sid hheld hwork => exact h.work hheld hwork hlock hagrees
  | commit sid hheld => exact h.commit hheld hagrees
  | addWatchedKey sid key =>
    exact h.of_sameBut (rewatches_addKey key).toSameButWatches hagrees (fault_addWatchedKey key)
  | removeWatchedKey sid key =>
    exact h.of_sameBut (rewatches_removeKey key).toSameButWatches hagrees (fault_removeKey key)
  | addWatchedPattern sid pattern hfresh =>
    exact h.of_sameBut (rewatches_addPattern env pattern).toSameButWatches hagrees
      (fault_addWatchedPattern pattern)
  | removeWatchedPattern sid pattern =>
    exact h.of_sameBut (rewatches_dropPattern pattern).toSameButWatches hagrees
      (sound_removePattern h.agrees.sound pattern).2.2.1
  | copyNotifiedKeys sid => exact h.copyNotifiedKeys sid hagrees
  | notifyCancel sid =>
    obtain ⟨pending, hpending, heq⟩ := notifyCancel_eq s sid
    rw [heq] at hlock hagrees ⊢
    exact ⟨hlock, hagrees, h.idle, h.marked, h.named,
      fun sid' hsid' => h.pending sid' (hpending sid' hsid'), h.fault⟩
  | configopen sid uid own =>
    exact h.configopen sid uid own hlock hagrees
  | removeSession sid hkeys hpatterns hfree hpending =>
    exact h.removeSession hkeys hpatterns hpending hlock hagrees
  | pushNotifications => exact h.pushNotifications hlock hagrees
  | saved saved =>
    exact ⟨hlock, hagrees, h.idle, h.marked, h.named, h.pending, h.fault⟩
  | fault sid hsession hinfo =>
    obtain ⟨info, hinfo', -⟩ := h.named sid hsession
    exact absurd (hinfo.symm.trans hinfo') (some_ne_none info).symm

theorem Inv.moves (hmoves : Moves env c s s') : Inv env s' :=
  invariant_of_reach (fun _ _ h hmove => h.move hmove) h hmoves

end

/-- In every state between two turns, if no holder of the lock has died, no entry
was used that is not there, nothing is left of a lock that has been released, and
a session that is not open is neither a watcher of a key nor among the sessions of
a pattern. -/
theorem reachable_consistent (h : Reachable env NoAbort s) :
    s.fault = false ∧ (s.storeLocked = 0 → s.tables.Idle) ∧
      ∀ sid, s.sessions sid = none → ¬ s.tables.Names sid := by
  have hinv : Inv env s := Reachable.of_moves (c := False)
    (fun _ _ hallowed => ⟨False.elim, hallowed⟩) inv_initial (fun _ _ hs => hs.move) h
  refine ⟨hinv.fault, hinv.idle, fun sid hclosed => hinv.agrees.not_names ?_ ?_⟩
  · simp only [keysOf, hclosed]
  · simp only [patternsOf, hclosed]

theorem reachable_consistent_closed : ¬ (run sampleEnv .initial [.opens 7 0 true,
    .request 7 (.notifyAddPattern 3), .request 7 (.set 5 1), .request 7 .close]).tables.Names 7 :=
  (reachable_consistent (by
    exact reachable_run ⟨trivial, trivial, trivial, trivial, trivial⟩)).2.2 7 rfl

end Hexley.Configd
