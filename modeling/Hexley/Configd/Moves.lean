import Hexley.Configd.Handlers

/-!
What a turn of the server is made of.

Every turn is a sequence of moves: the lock is taken, work is done by its
holder, the work is committed, a watch is added or dropped, and so on. What
is kept by each move is kept by every turn, and no later module looks into a
handler again. The one turn that is not a sequence of moves is the death of
the holder of the lock, which puts the copies back.

One move has a guard that is asked for only in some runs, those where `c`
holds: a pattern that is not known must not match a key whose removal is
deferred.
-/

namespace Hexley.Configd

open Lib Relation List

variable {K P D : Type} {Q : State K P D → Prop} {p : P} {inputs : List (Input K P D)}

open State

variable {env : Env K P D} {c : Prop} {s s' : State K P D} {sid : Sid}

theorem sameWatches_lock (s : State K P D) (sid : Sid) : SameWatches s (s.lock sid false).2 := by
  by_cases htake : s.MayTake sid
  · rw [lock_of_mayTake false htake]
    exact sameWatches_take s sid
  · rw [(lock_of_refused (by simp) htake).2]
    exact sameWatches_of rfl

theorem notMem_needs_cancel (hopen : s.sessions sid ≠ none) :
    sid ∉ (s.notifyCancel sid).2.needsNotification := by
  unfold notifyCancel
  cases hsession : s.sessions sid with
  | none => exact absurd hsession hopen
  | some session => exact fun h => (ListSet.mem_remove.mp h).1 rfl

theorem foldl_andThen {α : Type} {f : α → State K P D → Status × State K P D}
    {skip : α → Prop} [DecidablePred skip] (l : List α)
    (hf : ∀ a ∈ l, ¬ skip a → ∀ s, Q s → Q (f a s).2) {r : Status × State K P D}
    (h : Q r.2) : Q (l.foldl (fun r a => if skip a then r else andThen (f a) r) r).2 := by
  induction l generalizing r with
  | nil => exact h
  | cons a l ih =>
    rw [foldl_cons]
    refine ih (forall_mem_cons.mp hf).2 ?_
    split_ifs with hskip
    · exact h
    · unfold andThen
      split_ifs
      · exact h
      · exact hf a mem_cons_self hskip r.2 h

variable [DecidableEq K]

theorem needs_notifyWatchers (t : Tables K P D)
    (r : (Sid → Option (Info K)) × ListSet Sid) : sid ∈ (notifyWatchers t r).2 ↔
      sid ∈ r.2 ∨ ∃ k ∈ t.changedKeys, sid ∈ (t.entry k).watchers.keys := by
  have hwatchers : ∀ (key : K) (l : List Sid) (r : (Sid → Option (Info K)) × ListSet Sid),
      sid ∈ (l.foldl (notifyWatcher key) r).2 ↔ sid ∈ r.2 ∨ sid ∈ l := by
    intro key l
    induction l with
    | nil => simp
    | cons watcher l ih =>
      intro r
      rw [foldl_cons, ih, mem_cons]
      unfold notifyWatcher
      rw [ListSet.mem_add, or_assoc, or_left_comm]
  have hkeys : ∀ (l : List K) (r : (Sid → Option (Info K)) × ListSet Sid),
      sid ∈ (l.foldl (fun r key => (t.entry key).watchers.keys.foldl (notifyWatcher key) r) r).2 ↔
        sid ∈ r.2 ∨ ∃ k ∈ l, sid ∈ (t.entry k).watchers.keys := by
    intro l
    induction l with
    | nil => simp
    | cons key l ih =>
      intro r
      rw [foldl_cons, ih, hwatchers, or_assoc]
      simp
  exact hkeys t.changedKeys.toList r

theorem patternData_addKey (key : K) :
    (s.addWatchedKey sid key).2.tables.patternData = s.tables.patternData := by
  rw [addKey_eq]
  split_ifs
  · rfl
  · exact (Tables.same_addWatcher _ _ _).patternData

theorem patternData_removeKey (key : K) :
    (s.removeWatchedKey sid key).2.tables.patternData = s.tables.patternData := by
  rw [removeKey_eq]
  split_ifs
  · exact (Tables.same_removeWatcher _ _ _).patternData
  · rfl

variable [DecidableEq P]

/-- A pattern that is not known does not match a key whose removal is deferred. -/
def Fresh (env : Env K P D) (s : State K P D) (pattern : P) : Prop :=
  s.tables.patternData.lookup pattern = none →
    ∀ regex, env.compile pattern = some regex → ∀ k ∈ s.tables.deferredRemovals, regex k = false

/-- The input adds only patterns that are fresh. -/
def Careful (env : Env K P D) (s : State K P D) : Input K P D → Prop
  | .request _ (.notifyAddPattern pattern) => Fresh env s pattern
  | .request sid (.notifySet _ patterns) =>
    ∀ pattern ∈ patterns, pattern ∉ s.patternsOf sid → Fresh env s pattern
  | _ => True

def Tables.Names (t : Tables K P D) (sid : Sid) : Prop :=
  (∃ k, sid ∈ (t.entry k).watchers.keys) ∨
    ∃ p pInfo, t.patternData.lookup p = some pInfo ∧ sid ∈ pInfo.sessions

/-- What a turn of the server is made of. If `c` holds, only fresh patterns are
added. -/
inductive Move (env : Env K P D) (c : Prop) :
    State K P D → State K P D → Prop
  | take (s : State K P D) (sid : Sid) (h : s.MayTake sid) : Move env c s (s.take sid)
  | work (s s' : State K P D) (sid : Sid) (h : s.Holder sid) (hwork : s.Work sid s') :
      Move env c s s'
  | commit (s : State K P D) (sid : Sid) (h : s.Holder sid) :
      Move env c s (s.commit sid)
  | addWatchedKey (s : State K P D) (sid : Sid) (key : K) :
      Move env c s (s.addWatchedKey sid key).2
  | removeWatchedKey (s : State K P D) (sid : Sid) (key : K) :
      Move env c s (s.removeWatchedKey sid key).2
  | addWatchedPattern (s : State K P D) (sid : Sid) (pattern : P)
      (hfresh : c → Fresh env s pattern) : Move env c s (s.addWatchedPattern env sid pattern).2
  | removeWatchedPattern (s : State K P D) (sid : Sid) (pattern : P) :
      Move env c s (s.removeWatchedPattern sid pattern).2
  | copyNotifiedKeys (s : State K P D) (sid : Sid) :
      Move env c s (s.copyNotifiedKeys sid).2
  | notifyCancel (s : State K P D) (sid : Sid) : Move env c s (s.notifyCancel sid).2
  | configopen (s : State K P D) (sid : Sid) (uid : ℕ) (own : Bool) :
      Move env c s (s.configopen sid uid own)
  | removeSession (s : State K P D) (sid : Sid) (hkeys : s.keysOf sid = ∅)
      (hpatterns : s.patternsOf sid = ∅) (hlock : ¬ s.Holder sid)
      (hpending : sid ∈ s.needsNotification → s.tables.Names sid) :
      Move env c s (s.removeSession sid)
  | pushNotifications (s : State K P D) : Move env c s s.pushNotifications
  | saved (s : State K P D) (saved : Tables K P D) :
      Move env c s { s with saved := saved }
  | fault (s : State K P D) (sid : Sid) (hsession : s.sessions sid ≠ none)
      (hinfo : s.sessionData sid = none) : Move env c s { s with fault := true }

abbrev Moves (env : Env K P D) (c : Prop) : State K P D → State K P D → Prop :=
  ReflTransGen (Move env c)

theorem moves_of_works (hs : s.Holder sid) (h : Works sid s s') : Moves env c s s' := by
  induction h with
  | refl => exact .refl
  | tail hab hw ih => exact ih.tail (.work _ _ sid (Works.holder hab hs) hw)

theorem moves_of_transacts (h : Transacts sid s s') : Moves env c s s' := by
  cases h with
  | refused hfree htake => exact .refl
  | held s' h hwork => exact moves_of_works h hwork
  | taken s' h hwork =>
    have hheld := holder_take h
    exact ((ReflTransGen.single (.take s sid h)).trans (moves_of_works hheld hwork)).tail
      (.commit s' sid (Works.holder hwork hheld))

theorem moves_foldl {α : Type} {f : State K P D → α → State K P D}
    (hf : ∀ s a, Moves env c s (f s a)) (l : List α) (s : State K P D) :
    Moves env c s (l.foldl f s) := by
  induction l generalizing s with
  | nil => exact .refl
  | cons a l ih => exact (hf s a).trans (ih (f s a))

theorem moves_lock (s : State K P D) (sid : Sid) : Moves env c s (s.lock sid false).2 := by
  by_cases htake : s.MayTake sid
  · rw [lock_of_mayTake false htake]
    exact .single (.take s sid htake)
  · rw [(lock_of_refused (by simp) htake).2]

theorem moves_unlock : Moves env c s (s.unlock sid false).2 := by
  by_cases hheld : s.Holder sid
  · rw [unlock_of_once hheld (by simp)]
    exact .single (.commit s sid hheld)
  · rw [unlock_of_other hheld]

variable (env c) in
theorem moves_removeKeys (s : State K P D) (sid : Sid) (keys : List K) :
    Moves env c s (s.removeSessionKeys sid keys) ∧
      SameWatches s (s.removeSessionKeys sid keys) := by
  unfold removeSessionKeys
  induction keys generalizing s with
  | nil => exact ⟨.refl, sameWatches_of rfl⟩
  | cons key keys ih =>
    rw [foldl_cons]
    split_ifs
    · have h : Transacts sid s (s.removeValue sid key).2 :=
        transacts_lock (fun s _ => .single (.remove s key)) s
      obtain ⟨hmoves, hwatches⟩ := ih (s.removeValue sid key).2
      exact ⟨(moves_of_transacts h).trans hmoves, h.sameWatches.trans hwatches⟩
    · exact ih s

theorem removeKeys_of_refused (hheld : ¬ s.Holder sid) (htake : ¬ s.MayTake sid)
    (keys : List K) : s.removeSessionKeys sid keys = s := by
  unfold removeSessionKeys
  induction keys with
  | nil => rfl
  | cons key keys ih =>
    have hremove : (s.removeValue sid key).2 = s := by
      have h : Transacts sid s (s.removeValue sid key).2 :=
        transacts_lock (fun s _ => .single (.remove s key)) s
      generalize (s.removeValue sid key).2 = s' at h ⊢
      cases h with
      | refused => rfl
      | held s' h => exact absurd h hheld
      | taken s' h => exact absurd h htake
    rw [foldl_cons, hremove, ite_self, ih]

theorem closeKeys_eq (s : State K P D) (sid : Sid) :
    (∃ t u fault, s.closeSessionKeys sid = { s with tables := t, saved := u, fault := fault }) ∨
      ∃ t, s.closeSessionKeys sid = { s.take sid with tables := t } := by
  unfold closeSessionKeys
  cases s.sessionData sid with
  | none => exact .inl ⟨_, _, _, rfl⟩
  | some info =>
    dsimp only
    split_ifs with hkeys hlocked
    · exact .inl ⟨_, _, _, rfl⟩
    · obtain ⟨t, ht⟩ := removeKeys_locked hlocked info.sessionKeys
      obtain ⟨t', ht'⟩ := removeKeys_locked
        (s := { s with tables := t }.swap) hlocked info.sessionKeys
      rw [ht, ht']
      exact .inl ⟨_, _, _, rfl⟩
    · by_cases htake : s.MayTake sid
      · obtain ⟨t, ht⟩ := removeKeys_locked (s := s.take sid) Nat.one_pos info.sessionKeys
        rw [lock_of_mayTake false htake, ht]
        exact .inr ⟨t, rfl⟩
      · rw [(lock_of_refused (by simp) htake).2,
          removeKeys_of_refused (fun hheld => hlocked hheld.1) htake]
        exact .inl ⟨_, _, _, rfl⟩

theorem needs_closeKeys : (s.closeSessionKeys sid).needsNotification = s.needsNotification := by
  rcases closeKeys_eq s sid with ⟨_, _, _, heq⟩ | ⟨_, heq⟩ <;> exact heq ▸ rfl

variable (env c) in
theorem moves_closeSessionKeys (hopen : s.sessions sid ≠ none) :
    Moves env c s (s.closeSessionKeys sid) ∧ SameWatches s (s.closeSessionKeys sid) := by
  unfold closeSessionKeys
  cases hinfo : s.sessionData sid with
  | none => exact ⟨.single (.fault s sid hopen hinfo), sameWatches_of rfl⟩
  | some info =>
    dsimp only
    split_ifs with hkeys hlocked
    · exact ⟨.refl, sameWatches_of rfl⟩
    · obtain ⟨hmoves, hwatches⟩ := moves_removeKeys env c s sid info.sessionKeys
      obtain ⟨t, ht⟩ := removeKeys_locked hlocked info.sessionKeys
      obtain ⟨t', ht'⟩ := removeKeys_locked
        (s := { s with tables := t }.swap) hlocked info.sessionKeys
      rw [ht] at hmoves ⊢
      rw [ht']
      exact ⟨hmoves.tail (.saved _ t'), sameWatches_of rfl⟩
    · obtain ⟨hmoves, hwatches⟩ := moves_removeKeys env c (s.lock sid false).2 sid info.sessionKeys
      exact ⟨(moves_lock s sid).trans hmoves, (sameWatches_lock s sid).trans hwatches⟩

/-! ### Notifications that are pending -/

/-- Who is a watcher before the removals that are deferred are done is a watcher
of a key afterwards, or is among the sessions of a pattern. -/
theorem names_deferred {t : Tables K P D} {k : K}
    (h : sid ∈ (t.entry k).watchers.keys) : t.processDeferredRemovals.Names sid := by
  by_cases hsid : t.Unlisted sid
  · obtain ⟨-, hkept⟩ := t.keepsUnlisted_deferred sid hsid
    refine .inl ⟨k, ?_⟩
    rw [← AList.mem_keys, ← AList.lookup_isSome] at h ⊢
    rwa [hkept]
  · unfold Tables.Unlisted at hsid
    push Not at hsid
    obtain ⟨p, pInfo, hp, hmem⟩ := hsid
    refine .inr ⟨p, { pInfo with keys := pInfo.keys.diff t.deferredRemovals.toList }, ?_, hmem⟩
    rw [(Tables.deferred_spec t).2, hp]
    rfl

theorem names_of_mem_needs_commit {holder : Sid}
    (h : sid ∈ (s.commit holder).needsNotification) (hnot : sid ∉ s.needsNotification) :
    (s.commit holder).tables.Names sid := by
  have hmem : sid ∈ (notifyWatchers s.tables (s.sessionData, s.needsNotification)).2 := h
  rw [needs_notifyWatchers] at hmem
  obtain ⟨k, -, hk⟩ := hmem.resolve_left hnot
  exact names_deferred (t := { s.tables with changedKeys := ∅ }) hk

variable (env c) in
theorem moves_close (hopen : s.sessions sid ≠ none) :
    Moves env c s (s.close sid) ∧ (s.close sid).keysOf sid = ∅ ∧
      (s.close sid).patternsOf sid = ∅ ∧ ¬ (s.close sid).Holder sid ∧
      (sid ∈ (s.close sid).needsNotification → (s.close sid).tables.Names sid) := by
  obtain ⟨hsame₁, hkeys₁, hpatterns₁⟩ := s.removeAllKeys_spec sid
  obtain ⟨hsame₂, hpatterns₂, hkeys₂⟩ := (s.removeAllKeys sid).removePatterns_spec sid
  have hmoves₁ : Moves env c s (s.removeAllKeys sid) :=
    moves_foldl (fun s key => .single (.removeWatchedKey s sid key)) _ s
  have hmoves₂ : Moves env c (s.removeAllKeys sid) ((s.removeAllKeys sid).removeAllPatterns sid) :=
    moves_foldl (fun s p => .single (.removeWatchedPattern s sid p)) _ _
  set s₂ := (s.removeAllKeys sid).removeAllPatterns sid with hs₂
  have hopen₂ : s₂.sessions sid ≠ none := by
    have := (hsame₁.trans hsame₂).session sid
    intro hnone
    rw [hnone] at this
    cases hs : s.sessions sid with
    | none => exact hopen hs
    | some session => simp [hs] at this
  obtain ⟨s₃, hs₃⟩ : ∃ s₃, (s₂.notifyCancel sid).2 = s₃ := ⟨_, rfl⟩
  have hmoves₃ : Moves env c s₂ s₃ := hs₃ ▸ .single (.notifyCancel s₂ sid)
  have hsessions₃ : s₃.sessions = s₂.sessions := by
    rw [← hs₃]
    unfold notifyCancel
    cases s₂.sessions sid <;> rfl
  obtain ⟨hmoves₄, hwatches₄⟩ := moves_closeSessionKeys env c
    (show s₃.sessions sid ≠ none by rw [hsessions₃]; exact hopen₂)
  have hwatches := (sameWatches_of hsessions₃).trans hwatches₄
  have hmoves := ((hmoves₁.trans hmoves₂).trans hmoves₃).trans hmoves₄
  have hclose : s.close sid = if (s₃.closeSessionKeys sid).isLocked sid then
      ((s₃.closeSessionKeys sid).unlock sid false).2 else s₃.closeSessionKeys sid := by
    rw [← hs₃]
    rfl
  have hpending : sid ∉ (s₃.closeSessionKeys sid).needsNotification := by
    rw [needs_closeKeys, ← hs₃]
    exact notMem_needs_cancel hopen₂
  set s₄ := s₃.closeSessionKeys sid
  have hkeys : s₄.keysOf sid = ∅ := by rw [hwatches.keys, hkeys₂, hkeys₁]
  have hpatterns : s₄.patternsOf sid = ∅ := by rw [hwatches.patterns, hpatterns₂]
  rw [hclose]
  split_ifs with hlocked
  · by_cases hheld : s₄.Holder sid
    · rw [unlock_of_once hheld (by simp)]
      have hcommit := sameWatches_commit s₄ sid
      refine ⟨hmoves.tail (.commit s₄ sid hheld), ?_, ?_, fun h => absurd h.1 (lt_irrefl 0),
        fun h => names_of_mem_needs_commit h hpending⟩
      · rw [hcommit.keys, hkeys]
      · rw [hcommit.patterns, hpatterns]
    · rw [unlock_of_other hheld]
      exact ⟨hmoves, hkeys, hpatterns, hheld, fun h => absurd h hpending⟩
  · exact ⟨hmoves, hkeys, hpatterns, fun h => hlocked h.2, fun h => absurd h hpending⟩

theorem moves_removeSession (hopen : s.sessions sid ≠ none) :
    Moves env c s ((s.close sid).removeSession sid) := by
  obtain ⟨hmoves, hkeys, hpatterns, hheld, hpending⟩ := moves_close env c hopen
  exact hmoves.tail (.removeSession _ sid hkeys hpatterns hheld hpending)

/-! ### The keys and patterns that are to be watched -/

variable {pattern : P}

omit [DecidableEq K] in
theorem Fresh.mono (h : Fresh env s pattern)
    (hdeferred : s'.tables.deferredRemovals = s.tables.deferredRemovals)
    (hknown : s'.tables.patternData.lookup pattern = none →
      s.tables.patternData.lookup pattern = none) : Fresh env s' pattern := by
  intro hnone regex hregex k hk
  rw [hdeferred] at hk
  exact h (hknown hnone) regex hregex k hk

theorem lookup_addPattern_none
    (h : (s.addWatchedPattern env sid pattern).2.tables.patternData.lookup p = none) :
    s.tables.patternData.lookup p = none := by
  rw [addPattern_eq] at h
  split_ifs at h
  · exact h
  · cases hadd : s.tables.patternAddSession env pattern sid with
    | none =>
      rw [hadd] at h
      exact h
    | some t =>
      rw [hadd] at h
      obtain ⟨pInfo, -, -, hlookup⟩ := Tables.addSession_spec hadd
      have h' : t.patternData.lookup p = none := h
      rw [hlookup] at h'
      split_ifs at h'
      exact h'

theorem lookup_removePattern_ne (hp : p ≠ pattern) :
    (s.removeWatchedPattern sid pattern).2.tables.patternData.lookup p =
      s.tables.patternData.lookup p := by
  rw [removePattern_eq]
  split_ifs
  · cases hremove : s.tables.patternRemoveSession pattern sid with
    | none => rfl
    | some t => exact (Tables.removeSession_frame hremove).2 _ hp
  · rfl

/-- The patterns of the session that are taken off first are not those that are
added, so what is fresh in the beginning is fresh when it is added. -/
theorem moves_setKeys (keys : List K) (patterns : List P)
    (hfresh : c → ∀ p ∈ patterns, p ∉ s.patternsOf sid → Fresh env s p) :
    Moves env c s (s.setNotificationKeys env sid keys patterns).2 := by
  unfold setNotificationKeys
  cases hsession : s.sessions sid with
  | none => exact .refl
  | some session =>
    have hold : s.patternsOf sid = session.patterns := by
      unfold patternsOf
      rw [hsession]
    rw [hold] at hfresh
    -- what is kept: moves have led here, and what was fresh is fresh
    let Q := fun s' : State K P D =>
      Moves env c s s' ∧ (c → ∀ p ∈ patterns, p ∉ session.patterns → Fresh env s' p)
    have hP : Q s := ⟨.refl, hfresh⟩
    suffices Q _ from this.1
    refine foldl_andThen patterns (fun p hp hnew s' h => ?_)
      (foldl_andThen _ (fun p hp hnew s' h => ?_) (foldl_andThen keys (fun key _ _ s' h => ?_)
          (foldl_andThen _ (fun key _ _ s' h => ?_) hP)))
    · exact ⟨h.1.tail (.addWatchedPattern s' sid p fun hc => h.2 hc p hp hnew),
        fun hc q hq hqnew => (h.2 hc q hq hqnew).mono
          (rewatches_addPattern env p).data.deferredRemovals lookup_addPattern_none⟩
    · refine ⟨h.1.tail (.removeWatchedPattern s' sid p), fun hc q hq hqnew =>
        (h.2 hc q hq hqnew).mono (rewatches_dropPattern p).data.deferredRemovals fun hnone => ?_⟩
      have hne : q ≠ p := fun heq => hqnew (heq ▸ hp)
      rwa [lookup_removePattern_ne hne] at hnone
    · exact ⟨h.1.tail (.addWatchedKey s' sid key), fun hc q hq hqnew =>
        (h.2 hc q hq hqnew).mono (rewatches_addKey key).data.deferredRemovals
          fun hnone => by rwa [patternData_addKey] at hnone⟩
    · exact ⟨h.1.tail (.removeWatchedKey s' sid key), fun hc q hq hqnew =>
        (h.2 hc q hq hqnew).mono (rewatches_removeKey key).data.deferredRemovals
          fun hnone => by rwa [patternData_removeKey] at hnone⟩

/-! ### Turns -/

theorem moves_handle (r : Request K P D)
    (hcareful : c → Careful env s (.request sid r)) : Moves env c s (handle env sid s r).2 := by
  cases r with
  | close =>
    unfold handle configclose
    cases hsession : s.sessions sid with
    | none => exact .refl
    | some session => exact moves_removeSession (by simp [hsession])
  | lock => exact moves_lock s sid
  | unlock => exact moves_unlock
  | set | add | addSession | remove | touch | notify | setMultiple =>
    exact moves_of_transacts (transacts_handle env s sid _ rfl)
  | notifyAddKey key => exact .single (.addWatchedKey s sid key)
  | notifyAddPattern pattern => exact .single (.addWatchedPattern s sid pattern hcareful)
  | notifyRemoveKey key => exact .single (.removeWatchedKey s sid key)
  | notifyRemovePattern pattern => exact .single (.removeWatchedPattern s sid pattern)
  | notifySet keys patterns => exact moves_setKeys keys patterns hcareful
  | notifyChanges => exact .single (.copyNotifiedKeys s sid)
  | notifyCancel => exact .single (.notifyCancel s sid)

def NoAbort (s : State K P D) : Input K P D → Prop
  | .dies sid => ¬ s.Holder sid
  | _ => True

/-- Every turn of the server is a sequence of moves, unless the holder of the
lock dies. -/
theorem moves_step (i : Input K P D) (hcareful : c → Careful env s i)
    (habort : NoAbort s i) : Moves env c s (step env s i) := by
  refine ReflTransGen.tail ?_ (.pushNotifications _)
  cases i with
  | opens sid uid own =>
    exact .single (.configopen s sid uid own)
  | request sid r => exact moves_handle r hcareful
  | dies sid =>
    change Moves env c s (s.cleanupSession sid)
    unfold cleanupSession
    cases hsession : s.sessions sid with
    | none => exact .refl
    | some session =>
      have hno : ¬ (decide (s.storeLocked > 0) && session.locked) = true := by
        rw [Bool.and_eq_true, decide_eq_true_eq]
        exact fun h => habort ⟨h.1, isLocked_iff.mpr ⟨session, hsession, h.2⟩⟩
      dsimp only
      rw [if_neg hno]
      exact moves_removeSession (by simp [hsession])

def Turn (env : Env K P D) (allowed : State K P D → Input K P D → Prop)
    (s s' : State K P D) : Prop :=
  ∃ i, allowed s i ∧ s' = step env s i

def Reachable (env : Env K P D) (allowed : State K P D → Input K P D → Prop) : State K P D → Prop :=
  ReflTransGen (Turn env allowed) State.initial

variable {allowed : State K P D → Input K P D → Prop}

theorem Reachable.step (h : Reachable env allowed s) {i : Input K P D} (hi : allowed s i) :
    Reachable env allowed (step env s i) :=
  ReflTransGen.tail h ⟨i, hi, rfl⟩

def run (env : Env K P D) (s : State K P D) (inputs : List (Input K P D)) : State K P D :=
  inputs.foldl (Configd.step env) s

def AllowedFrom (env : Env K P D) (allowed : State K P D → Input K P D → Prop) :
    State K P D → List (Input K P D) → Prop
  | _, [] => True
  | s, i :: inputs => allowed s i ∧ AllowedFrom env allowed (Configd.step env s i) inputs

theorem Reachable.run (h : Reachable env allowed s) (hinputs : AllowedFrom env allowed s inputs) :
    Reachable env allowed (run env s inputs) := by
  induction inputs generalizing s with
  | nil => exact h
  | cons i inputs ih => exact ih (h.step hinputs.1) hinputs.2

theorem reachable_run (hinputs : AllowedFrom env allowed State.initial inputs) :
    Reachable env allowed (run env State.initial inputs) :=
  Reachable.run .refl hinputs

/-- What holds in the beginning and is kept by every move holds in every state
that is reached without the death of a holder of the lock. -/
theorem Reachable.of_moves (hallowed : ∀ s i, allowed s i → (c → Careful env s i) ∧ NoAbort s i)
    (hinitial : Q State.initial) (hmove : ∀ s s', Q s → Move env c s s' → Q s')
    (h : Reachable env allowed s) : Q s :=
  invariant_of_reach (fun s s' hs ⟨i, hi, hs'⟩ => by
    obtain ⟨hcareful, habort⟩ := hallowed s i hi
    exact invariant_of_reach hmove hs (hs' ▸ moves_step i hcareful habort)) hinitial h

end Hexley.Configd
