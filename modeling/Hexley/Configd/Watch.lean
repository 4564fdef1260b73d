import Hexley.Configd.Agreement
import Hexley.Configd.Lock

/-!
The watchers of the dynamic store.

In every run without the death of a holder of the lock, the tables are sound
and counted for what the sessions watch, also between the requests of a
session that holds the lock. The lists of the patterns have all keys that they
should have if no request adds a pattern that is not known and matches a key
whose removal is deferred: such a pattern gets a list without the key, and if
the key is stored again under the same lock it is not matched with the
patterns.
-/

namespace Hexley.Configd

open Lib Relation State Tables

variable {K P D : Type} {env : Env K P D} {c : Prop} {s s' : State K P D} {sid : Sid}

theorem sameWatches_update (session : Option (Session K P))
    (hs' : s'.sessions = Function.update s.sessions sid session)
    (hkeys : s.keysOf sid = ∅) (hpatterns : s.patternsOf sid = ∅)
    (hnew : ∀ x, session = some x → x.keys = ∅ ∧ x.patterns = ∅) : SameWatches s s' := by
  have hsession : ∀ sid', s'.sessions sid' = if sid' = sid then session else s.sessions sid' :=
    fun sid' => by rw [hs', Function.update_apply]
  constructor
  · funext sid'
    by_cases heq : sid' = sid
    · rw [heq, hkeys]
      unfold keysOf
      rw [hsession, if_pos rfl]
      cases session with
      | none => rfl
      | some x => exact (hnew x rfl).1
    · unfold keysOf
      rw [hsession, if_neg heq]
  · funext sid'
    by_cases heq : sid' = sid
    · rw [heq, hpatterns]
      unfold patternsOf
      rw [hsession, if_pos rfl]
      cases session with
      | none => rfl
      | some x => exact (hnew x rfl).2
    · unfold patternsOf
      rw [hsession, if_neg heq]

theorem sameWatches_configopen (s : State K P D) (sid : Sid) (uid : ℕ)
    (own : Bool) : SameWatches s (s.configopen sid uid own) := by
  unfold configopen
  cases hsession : s.sessions sid with
  | some session => exact sameWatches_of rfl
  | none =>
    refine sameWatches_update _ rfl ?_ ?_ fun x hx => ?_
    · unfold keysOf
      rw [hsession]
    · unfold patternsOf
      rw [hsession]
    · obtain rfl := Option.some.inj hx
      exact ⟨rfl, rfl⟩

theorem tables_configopen (s : State K P D) (sid : Sid) (uid : ℕ)
    (own : Bool) : (s.configopen sid uid own).tables = s.tables := by
  unfold configopen
  cases s.sessions sid <;> rfl

variable [DecidableEq K] [DecidableEq P]

/-- The tables agree with what the sessions watch. -/
structure Agrees (env : Env K P D) (s : State K P D) : Prop where
  sound : s.tables.Sound env s.patternsOf
  counted : s.tables.Counted s.keysOf

theorem agrees_initial : Agrees env (State.initial : State K P D) where
  sound :=
    { positive := fun _ _ _ h => by cases h
      sessions := fun _ _ => rfl
      watched := fun _ _ h => by cases h
      compiled := fun _ _ h => by cases h
      nodup := fun _ _ h => by cases h
      listed := fun _ _ h => by cases h
      deferred := fun _ h => by cases h
      changed := fun _ h => by cases h }
  counted _ _ := rfl

theorem complete_initial : (State.initial : State K P D).tables.Complete := fun _ _ h => by cases h

/-- What a move keeps: the tables agree with what is watched, and if `c` holds
the lists of the patterns stay complete. -/
structure KeepsAgreement (env : Env K P D) (c : Prop) (s s' : State K P D) :
    Prop where
  agrees : Agrees env s'
  complete : c → s.tables.Complete → s'.tables.Complete

section

variable (h : Agrees env s)
include h

theorem Agrees.of_keeps (hkeeps : Tables.Keeps env s.patternsOf s.tables s'.tables)
    (hsame : SameWatches s s') :
    KeepsAgreement env c s s' where
  agrees :=
    { sound := hsame.patterns ▸ hkeeps.sound
      counted := hsame.keys ▸ hkeeps.counted s.keysOf h.counted }
  complete _ := hkeeps.complete

theorem Agrees.of_tables (htables : s'.tables = s.tables)
    (hsame : SameWatches s s') : KeepsAgreement env c s s' := by
  refine h.of_keeps ?_ hsame
  rw [htables]
  exact ⟨h.sound, fun _ => id, id⟩

/-! ### Moves -/

theorem Agrees.keeps_work (hwork : s.Work sid s') :
    Tables.Keeps env s.patternsOf s.tables s'.tables := by
  cases hwork with
  | set own key value =>
    unfold setBody
    cases hmanage : s.manageSessionKeys sid own key value with
    | none => exact ⟨h.sound, fun _ => id, id⟩
    | some r =>
      obtain ⟨s₁, newDict⟩ := r
      obtain ⟨-, ⟨removed, htables⟩, hdata, hwatchers⟩ := managed_of_eq_some hmanage
      have hkeeps : Tables.Keeps env s.patternsOf s.tables s₁.tables := by
        rw [htables]
        exact Tables.SameHeld.keeps ⟨fun _ => rfl, rfl, fun _ => id⟩ h.sound
          h.sound.deferred h.sound.changed fun _ => id
      have hentry : s.tables.entry key = s₁.tables.entry key := by
        rw [htables]
        rfl
      rw [hentry] at hwatchers ⊢
      exact hkeeps.trans (keeps_setEntry hkeeps.sound (by simp [hdata]) hwatchers)
  | remove key =>
    unfold removeBody
    split_ifs with hnone
    · exact ⟨h.sound, fun _ => id, id⟩
    · exact keeps_removeEntry h.sound fun hno => hnone (by rw [hno]; rfl)

theorem Agrees.addWatchedKey (sid : Sid) (key : K) :
    KeepsAgreement env c s (s.addWatchedKey sid key).2 := by
  rw [addKey_eq]
  split_ifs with hout
  · exact h.of_tables rfl (sameWatches_of rfl)
  · obtain ⟨hopen, hnew⟩ := not_or.mp hout
    have hsame := same_addWatcher s.tables sid key
    refine ⟨⟨?_, ?_⟩, fun _ hc => hsame.complete hc hsame.patternData⟩
    · refine (congrArg (Tables.Sound env _) ?_).mpr (hsame.sound h.sound)
      exact patternsOf_modify_same (by intro; rfl)
    · refine counted_addWatcher h.counted (fun sid' => ?_) hnew
      exact keysOf_modify (g := fun l => l.add key) (by intro; rfl)
        (fun hno => absurd hno (by simpa using hopen)) sid'

theorem Agrees.removeWatchedKey (sid : Sid) (key : K) :
    KeepsAgreement env c s (s.removeWatchedKey sid key).2 := by
  have hkeys := s.keysOf_removeKey sid key
  have hpatterns := s.patternsOf_removeKey sid key
  rw [removeKey_eq] at hkeys hpatterns ⊢
  split_ifs at hkeys hpatterns ⊢ with hold
  · have hsame := same_removeWatcher s.tables sid key
    refine ⟨⟨?_, ?_⟩, fun _ hc => hsame.complete hc hsame.patternData⟩
    · rw [hpatterns]
      exact hsame.sound h.sound
    · exact counted_removeWatcher h.counted hkeys hold
  · exact h.of_tables rfl (sameWatches_of rfl)

theorem Agrees.addWatchedPattern (sid : Sid) (pattern : P) (hfresh : c → Fresh env s pattern) :
    KeepsAgreement env c s (s.addWatchedPattern env sid pattern).2 := by
  rw [addPattern_eq]
  split_ifs with hout
  · exact h.of_tables rfl (sameWatches_of rfl)
  · obtain ⟨hopen, hnew⟩ := not_or.mp hout
    cases hadd : s.tables.patternAddSession env pattern sid with
    | none => exact h.of_tables rfl (sameWatches_of rfl)
    | some t =>
      obtain ⟨-, -, hgains, -⟩ := addSession_spec hadd
      refine ⟨⟨?_, ?_⟩, fun hc hcomplete =>
        complete_addSession hcomplete hadd (hfresh hc)⟩
      · refine h.sound.patternAddSession hadd (fun sid' => ?_) hnew
        exact patternsOf_modify (g := fun l => l.add pattern) (by intro; rfl)
          (fun hno => absurd hno (by simpa using hopen)) sid'
      · refine (congrArg (Tables.Counted t) ?_).mpr (hgains.counted h.counted)
        exact keysOf_modify_same (by intro; rfl)

end

theorem sound_removePattern (h : s.tables.Sound env s.patternsOf) (pattern : P) :
    (s.removeWatchedPattern sid pattern).2.tables.Sound env
        (s.removeWatchedPattern sid pattern).2.patternsOf ∧
      s.tables.Loses (s.removeWatchedPattern sid pattern).2.tables ∧
      (s.removeWatchedPattern sid pattern).2.fault = s.fault ∧
      (s.tables.Complete → (s.removeWatchedPattern sid pattern).2.tables.Complete) := by
  have hpatterns := s.patterns_removePattern sid pattern
  rw [removePattern_eq] at hpatterns ⊢
  split_ifs at hpatterns ⊢ with hold
  · obtain ⟨t, ht, hloses, hsound, hcomplete⟩ := h.patternRemoveSession hpatterns hold
    rw [ht] at hpatterns ⊢
    exact ⟨hsound, hloses, Bool.or_false s.fault, hcomplete⟩
  · exact ⟨h, .refl _, rfl, id⟩

theorem Agrees.removeWatchedPattern (h : Agrees env s) (sid : Sid) (pattern : P) :
    KeepsAgreement env c s (s.removeWatchedPattern sid pattern).2 := by
  obtain ⟨hsound, hloses, -, hcomplete⟩ := sound_removePattern h.sound pattern
  refine ⟨⟨hsound, ?_⟩, fun _ => hcomplete⟩
  rw [keysOf_removePattern]
  exact hloses.counted h.counted

theorem Agrees.move (h : Agrees env s) (hmove : Move env c s s') : KeepsAgreement env c s s' := by
  cases hmove with
  | take sid htake => exact h.of_tables rfl (sameWatches_take s sid)
  | work s' sid hheld hwork =>
    exact h.of_keeps (h.keeps_work hwork) (sameWatches_of hwork.sameOutside.sessions)
  | commit sid hheld =>
    exact h.of_keeps (keeps_commit h.sound) (sameWatches_commit s sid)
  | addWatchedKey sid key => exact h.addWatchedKey sid key
  | removeWatchedKey sid key => exact h.removeWatchedKey sid key
  | addWatchedPattern sid pattern hfresh => exact h.addWatchedPattern sid pattern hfresh
  | removeWatchedPattern sid pattern => exact h.removeWatchedPattern sid pattern
  | copyNotifiedKeys sid =>
    obtain ⟨_, _, heq⟩ := notifiedKeys_eq s sid
    exact heq ▸ h.of_tables rfl (sameWatches_of rfl)
  | notifyCancel sid =>
    obtain ⟨_, -, heq⟩ := notifyCancel_eq s sid
    exact heq ▸ h.of_tables rfl (sameWatches_of rfl)
  | configopen sid uid own =>
    exact h.of_tables (tables_configopen s sid uid own) (sameWatches_configopen s sid uid own)
  | removeSession sid hkeys hpatterns hlock hpending =>
    exact h.of_tables rfl (sameWatches_update none rfl hkeys hpatterns fun x hx => by cases hx)
  | pushNotifications => exact h.of_tables rfl (sameWatches_of rfl)
  | saved saved => exact h.of_tables rfl (sameWatches_of rfl)
  | fault sid hsession hinfo => exact h.of_tables rfl (sameWatches_of rfl)

/-! ### Runs -/

/-- The tables agree with what is watched in all runs without the death of a
holder of the lock. -/
theorem agrees_of_reachable {allowed : State K P D → Input K P D → Prop}
    (hallowed : ∀ s i, allowed s i → NoAbort s i) (h : Reachable env allowed s) : Agrees env s :=
  h.of_moves (c := False) (fun s i hi => ⟨False.elim, hallowed s i hi⟩) agrees_initial
    fun _ _ hs hmove => (hs.move hmove).agrees

/-- The lists are complete in all runs in which every pattern that is added is
fresh. -/
theorem complete_of_reachable
    (h : Reachable env (fun s i => Careful env s i ∧ NoAbort s i) s) : s.tables.Complete := by
  have hboth : Agrees env s ∧ s.tables.Complete := by
    refine h.of_moves (Q := fun s => Agrees env s ∧ s.tables.Complete) (c := True)
      (fun s i hi => ⟨fun _ => hi.1, hi.2⟩) ⟨agrees_initial, complete_initial⟩ ?_
    rintro s s' ⟨hagrees, hcomplete⟩ hmove
    have hkeeps := hagrees.move hmove
    exact ⟨hkeeps.agrees, hkeeps.complete trivial hcomplete⟩
  exact hboth.2

/-- A session watches a key as often as it should: once if it watches the key by
name, and once for each of its patterns with the key in its list. The list of
a pattern has the keys that match it and have data or a removal that is
deferred. -/
structure Accounted (env : Env K P D) (s : State K P D) : Prop where
  refs : ∀ sid k, s.tables.refs sid k = (if k ∈ s.keysOf sid then 1 else 0) +
      (s.patternsOf sid).toList.countP fun p => k ∈ s.tables.listOf p
  lists : ∀ p pInfo, s.tables.patternData.lookup p = some pInfo →
    pInfo.keys.Nodup ∧ ∃ regex, env.compile p = some regex ∧ ∀ k, k ∈ pInfo.keys ↔
      regex k = true ∧ ((s.tables.entry k).data ≠ none ∨ k ∈ s.tables.deferredRemovals)

/-- In all runs without the death of a holder of the lock, in which no request
adds a pattern that is not known and matches a key whose removal is deferred,
the watchers are accounted for in every state between two turns. -/
theorem watches_accounted (h : Reachable env (fun s i => Careful env s i ∧ NoAbort s i) s) :
    Accounted env s := by
  have hagrees := agrees_of_reachable (fun _ _ hi => hi.2) h
  have hcomplete := complete_of_reachable h
  refine ⟨fun sid k => ?_, fun p pInfo hp => ⟨hagrees.sound.nodup p pInfo hp, pInfo.regex,
    hagrees.sound.compiled p pInfo hp, fun k => ⟨hagrees.sound.listed p pInfo hp k, ?_⟩⟩⟩
  · rw [hagrees.counted, hagrees.sound.via_eq]
  · rintro ⟨hregex, hheld⟩
    exact hcomplete p pInfo hp k hregex hheld

/-- A session removes the key 2 under its lock and adds a pattern that does not
match it. The pattern has the key 5 in its list. -/
theorem watches_accounted_locked : Accounted sampleEnv (run sampleEnv .initial
        [.opens 7 0 false, .request 7 (.set 5 1), .request 7 (.set 2 1), .request 7 .lock,
          .request 7 (.remove 2), .request 7 (.notifyAddPattern 3)]) ∧ (run sampleEnv .initial
        [.opens 7 0 false, .request 7 (.set 5 1), .request 7 (.set 2 1), .request 7 .lock,
          .request 7 (.remove 2), .request 7 (.notifyAddPattern 3)]).tables.refs 7 5 = 1 := by
  refine ⟨watches_accounted (reachable_run ?_), by decide⟩
  have hfresh : Fresh sampleEnv (run sampleEnv .initial
      [.opens 7 0 false, .request 7 (.set 5 1), .request 7 (.set 2 1), .request 7 .lock,
        .request 7 (.remove 2)]) 3 := by
    intro _ regex hregex k hk
    obtain rfl := Option.some.inj hregex
    have hdeferred : k ∈ [2] := hk
    rw [List.mem_singleton.mp hdeferred]
    rfl
  exact ⟨⟨trivial, trivial⟩, ⟨trivial, trivial⟩, ⟨trivial, trivial⟩, ⟨trivial, trivial⟩,
    ⟨trivial, trivial⟩, ⟨hfresh, trivial⟩, trivial⟩

/-- A session removes the key 5 under its lock, adds a pattern that matches it,
and stores it again. The list of the pattern is empty. -/
theorem stored_again_not_accounted : Reachable sampleEnv NoAbort (run sampleEnv .initial
        [.opens 7 0 false, .request 7 (.set 5 1), .request 7 .lock, .request 7 (.remove 5),
          .request 7 (.notifyAddPattern 3), .request 7 (.set 5 2)]) ∧
      ¬ Accounted sampleEnv (run sampleEnv .initial
        [.opens 7 0 false, .request 7 (.set 5 1), .request 7 .lock, .request 7 (.remove 5),
          .request 7 (.notifyAddPattern 3), .request 7 (.set 5 2)]) := by
  refine ⟨reachable_run ⟨trivial, trivial, trivial, trivial, trivial, trivial, trivial⟩, ?_⟩
  intro h
  generalize hs : run sampleEnv .initial
    [.opens 7 0 false, .request 7 (.set 5 1), .request 7 .lock, .request 7 (.remove 5),
      .request 7 (.notifyAddPattern 3), .request 7 (.set 5 2)] = s at h
  have hlist : (s.tables.patternData.lookup 3).map PInfo.keys = some [] := by
    rw [← hs]
    decide
  have hdata : (s.tables.entry 5).data = some 2 := by
    rw [← hs]
    decide
  obtain ⟨pInfo, hp, hkeys⟩ := Option.map_eq_some_iff.mp hlist
  obtain ⟨-, regex, hregex, hmem⟩ := h.lists 3 pInfo hp
  obtain rfl := Option.some.inj hregex
  have h5 : 5 ∈ pInfo.keys := (hmem 5).mpr ⟨rfl, .inl (by rw [hdata]; exact Option.some_ne_none 2)⟩
  rw [hkeys] at h5
  cases h5

end Hexley.Configd
