import Hexley.Configd.Store

/-!
When the tables agree with what the sessions watch.

The tables are sound if the sessions of each pattern are those that watch it,
and its list has only keys that match it and are held: that have data, or
whose removal is deferred. They are complete if the list has all of these.
They are counted if each session has one reference to a key for its name and
one for each of its patterns with the key in the list.

The operations on the tables keep these, given how what is watched changes.
Completeness is kept by all of them but one: a pattern that is not known gets
a list of the keys that have data, so it must not match a key whose removal
is deferred.
-/

namespace Hexley.Configd

open Lib List Option ListSet

namespace Tables

variable {K P D : Type} {env : Env K P D}
  {t t' : Tables K P D} {keys : Sid → ListSet K} {patterns : Sid → ListSet P}
  {sid : Sid} {key : K} {pattern : P} {e : Entry D} {k : K} {keys' : Sid → ListSet K}
  {pInfo : PInfo K}

theorem mem_withKey (pInfo : PInfo K) (key k : K) : k ∈ (pInfo.withKey key).keys ↔
    k ∈ pInfo.keys ∨ (k = key ∧ pInfo.regex key = true) := by
  unfold PInfo.withKey
  split_ifs with hregex <;> simp [hregex]

theorem regex_withKey (pInfo : PInfo K) : (pInfo.withKey key).regex = pInfo.regex := by
  unfold PInfo.withKey
  split_ifs <;> rfl

variable [DecidableEq K]

def Held (t : Tables K P D) (k : K) : Prop :=
  (t.entry k).data ≠ none ∨ k ∈ t.deferredRemovals

def Counted (t : Tables K P D) (keys : Sid → ListSet K) : Prop :=
  ∀ sid k, t.refs sid k = (if k ∈ keys sid then 1 else 0) + t.via sid k

theorem Gains.counted (h : Gains t t') (hc : t.Counted keys) : t'.Counted keys := by
  intro sid k
  obtain ⟨c, hrefs, hvia⟩ := h.counts sid k
  have := hc sid k
  omega

theorem Loses.counted (h : Loses t t') (hc : t.Counted keys) : t'.Counted keys := by
  intro sid k
  obtain ⟨c, hrefs, hvia⟩ := h.counts sid k
  have := hc sid k
  omega

theorem SameData.held_iff (h : SameData t t') (k : K) : t'.Held k ↔ t.Held k := by
  unfold Held
  rw [h.data, h.deferredRemovals]

structure SameHeld (t t' : Tables K P D) : Prop where
  watchers : ∀ k, (t'.entry k).watchers = (t.entry k).watchers
  patternData : t'.patternData = t.patternData
  held : ∀ k, t.Held k → t'.Held k

theorem SameHeld.refs_eq (h : SameHeld t t') (sid : Sid) (k : K) :
    t'.refs sid k = t.refs sid k := by
  unfold refs Entry.refs
  rw [h.watchers]

theorem SameHeld.counted (h : SameHeld t t') (hc : t.Counted keys) : t'.Counted keys := by
  intro sid k
  unfold via
  rw [h.refs_eq, h.patternData]
  exact hc sid k

theorem entry_write (k : K) (e : Entry D) :
    (t.write key e).entry k = if k = key then e else t.entry k :=
  entry_put e

theorem sameHeld_write (hdata : e.data ≠ none) (hwatchers : e.watchers = (t.entry key).watchers) :
    SameHeld t (t.write key e) := by
  refine ⟨fun k => ?_, rfl, fun k hk => ?_⟩
  · rw [entry_write]
    split_ifs with h
    · rw [hwatchers, h]
    · rfl
  · unfold Held at hk ⊢
    rw [entry_write]
    split_ifs with h
    · exact .inl hdata
    · exact hk

theorem held_write (h : (t.write key e).Held k) : k = key ∨ t.Held k := by
  unfold Held at h ⊢
  rw [entry_write] at h
  split_ifs at h with hk
  · exact .inl hk
  · exact .inr h

theorem data_write_self (e : Entry D) : ((t.write key e).entry key).data = e.data := by
  rw [entry_write, if_pos rfl]

theorem held_write_self (hdata : e.data ≠ none) : (t.write key e).Held key :=
  .inl (by rwa [data_write_self])

theorem data_write_of_ne (hk : k ≠ key) : ((t.write key e).entry k).data = (t.entry k).data := by
  rw [entry_write, if_neg hk]

theorem removeEntry_eq (t : Tables K P D) (key : K) : ∃ removed, t.removeEntry key = { t with
        changedKeys := t.changedKeys.add key
        deferredRemovals := t.deferredRemovals.add key
        removedSessionKeys := removed }.write key
          { t.entry key with data := none, session := none } := by
  unfold removeEntry
  dsimp only
  cases (t.entry key).session with
  | none => exact ⟨_, rfl⟩
  | some owner => exact ⟨_, rfl⟩

theorem counted_addWatcher (hc : t.Counted keys)
    (hkeys : ∀ sid', keys' sid' = if sid' = sid then (keys sid).add key else keys sid')
    (hnew : key ∉ keys sid) : (t.addWatcher sid key).Counted keys' := by
  intro sid' k
  rw [refs_addWatcher, (same_addWatcher t sid key).via_eq, hc, hkeys]
  by_cases hsid : sid' = sid
  · subst hsid
    by_cases hk : k = key
    · subst hk
      simp [hnew]
      omega
    · simp [hk]
  · simp [hsid]

theorem counted_removeWatcher (hc : t.Counted keys)
    (hkeys : ∀ sid', keys' sid' = if sid' = sid then (keys sid).remove key else keys sid')
    (hold : key ∈ keys sid) : (t.removeWatcher sid key).Counted keys' := by
  intro sid' k
  rw [refs_removeWatcher, (same_removeWatcher t sid key).via_eq, hc, hkeys]
  by_cases hsid : sid' = sid
  · subst hsid
    by_cases hk : k = key
    · subst hk
      simp [hold]
    · simp [hk]
  · simp [hsid]

variable [DecidableEq P]

def sessionsOf (t : Tables K P D) (p : P) : List Sid :=
  match t.patternData.lookup p with
  | some pInfo => pInfo.sessions
  | none => []

def listOf (t : Tables K P D) (p : P) : List K :=
  match t.patternData.lookup p with
  | some pInfo => pInfo.keys
  | none => []

/-- The tables are sound for what the sessions watch. -/
structure Sound (env : Env K P D) (t : Tables K P D)
    (patterns : Sid → ListSet P) : Prop where
  positive : t.Positive
  sessions : ∀ p sid, (t.sessionsOf p).count sid = if p ∈ patterns sid then 1 else 0
  watched : ∀ p pInfo, t.patternData.lookup p = some pInfo → pInfo.sessions ≠ []
  compiled : ∀ p pInfo, t.patternData.lookup p = some pInfo → env.compile p = some pInfo.regex
  nodup : ∀ p pInfo, t.patternData.lookup p = some pInfo → pInfo.keys.Nodup
  listed : ∀ p pInfo, t.patternData.lookup p = some pInfo → ∀ k ∈ pInfo.keys,
    pInfo.regex k = true ∧ t.Held k
  deferred : ∀ k ∈ t.deferredRemovals, (t.entry k).data = none
  changed : ∀ k ∈ t.changedKeys, t.Held k

def Complete (t : Tables K P D) : Prop :=
  ∀ p pInfo, t.patternData.lookup p = some pInfo → ∀ k, pInfo.regex k = true → t.Held k →
    k ∈ pInfo.keys

/-! ### The data change -/

theorem Sound.of_map {f : PInfo K → PInfo K} (hs : Sound env t patterns)
    (hlookup : ∀ p, t'.patternData.lookup p = (t.patternData.lookup p).map f)
    (hf : ∀ pInfo, (f pInfo).sessions = pInfo.sessions ∧ (f pInfo).regex = pInfo.regex)
    (hpositive : t'.Positive)
    (hnodup : ∀ p pInfo, t.patternData.lookup p = some pInfo → (f pInfo).keys.Nodup)
    (hlisted : ∀ p pInfo, t.patternData.lookup p = some pInfo → ∀ k ∈ (f pInfo).keys,
      pInfo.regex k = true ∧ t'.Held k)
    (hdeferred : ∀ k ∈ t'.deferredRemovals, (t'.entry k).data = none)
    (hchanged : ∀ k ∈ t'.changedKeys, t'.Held k) : Sound env t' patterns := by
  -- what is known about a pattern comes from what was known
  have hback : ∀ p pInfo', t'.patternData.lookup p = some pInfo' →
      ∃ pInfo, t.patternData.lookup p = some pInfo ∧ f pInfo = pInfo' := fun p pInfo' hp =>
    map_eq_some_iff.mp ((hlookup p).symm.trans hp)
  refine ⟨hpositive, fun p sid => ?_, fun p pInfo' hp' => ?_, fun p pInfo' hp' => ?_,
    fun p pInfo' hp' => ?_, fun p pInfo' hp' k hk => ?_, hdeferred, hchanged⟩
  · rw [← hs.sessions p sid]
    unfold sessionsOf
    rw [hlookup]
    cases t.patternData.lookup p with
    | none => rfl
    | some pInfo => exact congrArg (List.count sid) (hf pInfo).1
  all_goals obtain ⟨pInfo, hp, rfl⟩ := hback p pInfo' hp'
  · rw [(hf pInfo).1]
    exact hs.watched p pInfo hp
  · rw [(hf pInfo).2]
    exact hs.compiled p pInfo hp
  · exact hnodup p pInfo hp
  · rw [(hf pInfo).2]
    exact hlisted p pInfo hp k hk

theorem SameHeld.sound (h : SameHeld t t') (hs : Sound env t patterns)
    (hdeferred : ∀ k ∈ t'.deferredRemovals, (t'.entry k).data = none)
    (hchanged : ∀ k ∈ t'.changedKeys, t'.Held k) : Sound env t' patterns := by
  refine hs.of_map (f := id) (fun p => ?_) (fun _ => ⟨rfl, rfl⟩) (fun k sid n hn => ?_)
    hs.nodup (fun p pInfo hp k hk => ?_) hdeferred hchanged
  · rw [h.patternData, Option.map_id, id]
  · exact hs.positive k sid n (h.watchers k ▸ hn)
  · obtain ⟨hregex, hheld⟩ := hs.listed p pInfo hp k hk
    exact ⟨hregex, h.held k hheld⟩

theorem SameHeld.complete (h : SameHeld t t') (hc : t.Complete)
    (hheld : ∀ k, t'.Held k → t.Held k) : t'.Complete :=
  fun p pInfo hp k hregex hk => hc p pInfo (h.patternData ▸ hp) k hregex (hheld k hk)

theorem Sound.patternAddKey (hs : Sound env t patterns) (hheld : t.Held key)
    (hnew : ∀ p pInfo, t.patternData.lookup p = some pInfo → key ∉ pInfo.keys) :
    Sound env (t.patternAddKey key) patterns := by
  obtain ⟨hgains, hlookup⟩ := t.addKey_spec key
  refine hs.of_map hlookup (fun pInfo => ⟨?_, regex_withKey pInfo⟩)
    (hgains.positive hs.positive) (fun p pInfo hp => ?_) (fun p pInfo hp k hk => ?_)
    (fun k hk => ?_) (fun k hk => ?_)
  · unfold PInfo.withKey
    split_ifs <;> rfl
  · unfold PInfo.withKey
    split_ifs
    · exact (hs.nodup p pInfo hp).append (nodup_singleton key)
        (List.disjoint_singleton.mpr (hnew p pInfo hp))
    · exact hs.nodup p pInfo hp
  · rw [hgains.held_iff]
    rcases (mem_withKey pInfo key k).mp hk with hk | ⟨rfl, hregex⟩
    · exact hs.listed p pInfo hp k hk
    · exact ⟨hregex, hheld⟩
  · rw [hgains.data]
    exact hs.deferred k (hgains.deferredRemovals ▸ hk)
  · rw [hgains.held_iff]
    exact hs.changed k (hgains.changedKeys ▸ hk)

theorem complete_patternAddKey
    (hc : ∀ p pInfo, t.patternData.lookup p = some pInfo → ∀ k, pInfo.regex k = true →
      t.Held k → k ≠ key → k ∈ pInfo.keys) : (t.patternAddKey key).Complete := by
  obtain ⟨hgains, hlookup⟩ := t.addKey_spec key
  intro p pInfo' hp' k hregex hheld
  rw [hlookup] at hp'
  obtain ⟨pInfo, hp, rfl⟩ := map_eq_some_iff.mp hp'
  rw [hgains.held_iff] at hheld
  rw [regex_withKey] at hregex
  rw [mem_withKey]
  by_cases hk : k = key
  · exact .inr ⟨hk, hk ▸ hregex⟩
  · exact .inl (hc p pInfo hp k hregex hheld hk)

structure Keeps (env : Env K P D) (patterns : Sid → ListSet P)
    (t t' : Tables K P D) : Prop where
  sound : Sound env t' patterns
  counted : ∀ keys, t.Counted keys → t'.Counted keys
  complete : t.Complete → t'.Complete

theorem Keeps.trans {t'' : Tables K P D} (h : Keeps env patterns t t')
    (h' : Keeps env patterns t' t'') : Keeps env patterns t t'' :=
  ⟨h'.sound, fun keys hc => h'.counted keys (h.counted keys hc),
    fun hc => h'.complete (h.complete hc)⟩

theorem SameHeld.keeps (h : SameHeld t t') (hs : Sound env t patterns)
    (hdeferred : ∀ k ∈ t'.deferredRemovals, (t'.entry k).data = none)
    (hchanged : ∀ k ∈ t'.changedKeys, t'.Held k) (hheld : ∀ k, t'.Held k → t.Held k) :
    Keeps env patterns t t' :=
  ⟨h.sound hs hdeferred hchanged, fun _ => h.counted, fun hc => h.complete hc hheld⟩

theorem keeps_addChanged (hs : Sound env t patterns) (hheld : t.Held key) :
    Keeps env patterns t { t with changedKeys := t.changedKeys.add key } := by
  refine SameHeld.keeps ⟨fun _ => rfl, rfl, fun _ => id⟩ hs hs.deferred (fun k hk => ?_) fun _ => id
  rcases mem_add.mp hk with rfl | hk
  · exact hheld
  · exact hs.changed k hk

section

variable (hs : Sound env t patterns) (hdata : e.data ≠ none)
  (hwatchers : e.watchers = (t.entry key).watchers)
include hs hdata hwatchers

theorem keeps_write (hold : (t.entry key).data ≠ none) : Keeps env patterns t (t.write key e) := by
  have hwrite := sameHeld_write (t := t) hdata hwatchers
  refine hwrite.keeps hs (fun k hk => ?_) (fun k hk => hwrite.held k (hs.changed k hk))
    (fun k hk => ?_)
  · have hne : k ≠ key := fun h => hold (h ▸ hs.deferred k hk)
    rw [data_write_of_ne hne]
    exact hs.deferred k hk
  · rcases held_write hk with rfl | hk
    · exact .inl hold
    · exact hk

theorem keeps_write_deferred (hdeferred : key ∈ t.deferredRemovals) : Keeps env patterns t
      { t.write key e with deferredRemovals := t.deferredRemovals.remove key } := by
  have hwrite := sameHeld_write (t := t) hdata hwatchers
  have hheld : ∀ k, (t.write key e).Held k →
      { t.write key e with deferredRemovals := t.deferredRemovals.remove key }.Held k := by
    rintro k (hk | hk)
    · exact .inl hk
    · by_cases hne : k = key
      · refine .inl (ne_of_eq_of_ne ?_ hdata)
        rw [hne]
        exact data_write_self e
      · exact .inr (mem_remove.mpr ⟨hne, hk⟩)
  have hsame : SameHeld t
      { t.write key e with deferredRemovals := t.deferredRemovals.remove key } :=
    ⟨hwrite.watchers, rfl, fun k hk => hheld k (hwrite.held k hk)⟩
  refine hsame.keeps hs (fun k hk => ?_) (fun k hk => hsame.held k (hs.changed k hk))
    (fun k hk => ?_)
  · obtain ⟨hne, hk⟩ := mem_remove.mp hk
    refine (data_write_of_ne hne).trans (hs.deferred k hk)
  · rcases hk with hk | hk
    · rcases held_write (.inl hk) with rfl | hk
      · exact .inr hdeferred
      · exact hk
    · exact .inr (mem_remove.mp hk).2

theorem keeps_write_new (hfree : ¬ t.Held key) :
    Keeps env patterns t ((t.write key e).patternAddKey key) := by
  have hwrite := sameHeld_write (t := t) hdata hwatchers
  have hsound : Sound env (t.write key e) patterns := by
    refine hwrite.sound hs (fun k hk => ?_) (fun k hk => hwrite.held k (hs.changed k hk))
    have hne : k ≠ key := fun h => hfree (.inr (h ▸ hk))
    exact (data_write_of_ne hne).trans (hs.deferred k hk)
  have hnew : ∀ p pInfo, t.patternData.lookup p = some pInfo → key ∉ pInfo.keys :=
    fun p pInfo hp hmem => hfree (hs.listed p pInfo hp key hmem).2
  refine ⟨hsound.patternAddKey (held_write_self hdata) hnew, fun keys hc =>
    (addKey_spec _ key).1.counted (hwrite.counted hc), fun hc =>
    complete_patternAddKey fun p pInfo hp k hregex hheld hne => ?_⟩
  rcases held_write hheld with rfl | hheld
  · exact absurd rfl hne
  · exact hc p pInfo hp k hregex hheld

theorem keeps_setEntry : Keeps env patterns t (t.setEntry key e (t.entry key).data.isNone) := by
  unfold setEntry
  cases hnew : (t.entry key).data with
  | some old =>
    have hkeeps := keeps_write hs hdata hwatchers (by simp [hnew])
    exact hkeeps.trans (keeps_addChanged hkeeps.sound (held_write_self hdata))
  | none =>
    simp only [isNone_none, if_true]
    split_ifs with hdeferred
    · have hkeeps := keeps_write_deferred hs hdata hwatchers hdeferred
      refine hkeeps.trans (keeps_addChanged hkeeps.sound (.inl ?_))
      exact ne_of_eq_of_ne (data_write_self e) hdata
    · have hfree : ¬ t.Held key := by
        rintro (h | h)
        · exact h hnew
        · exact hdeferred h
      have hkeeps := keeps_write_new hs hdata hwatchers hfree
      refine hkeeps.trans (keeps_addChanged hkeeps.sound ?_)
      rw [(addKey_spec _ key).1.held_iff]
      exact held_write_self hdata

end

/-! ### The data are removed -/

theorem keeps_removeEntry (hs : Sound env t patterns) (hdata : (t.entry key).data ≠ none) :
    Keeps env patterns t (t.removeEntry key) := by
  obtain ⟨removed, heq⟩ := t.removeEntry_eq key
  have hentry : ∀ k, (t.removeEntry key).entry k =
      if k = key then { t.entry key with data := none, session := none } else t.entry k := by
    intro k
    rw [heq, entry_write]
    rfl
  have hdeferred : (t.removeEntry key).deferredRemovals = t.deferredRemovals.add key := by
    rw [heq]
    rfl
  have hheld : ∀ k, (t.removeEntry key).Held k ↔ t.Held k := by
    intro k
    unfold Held
    rw [hentry, hdeferred, mem_add]
    split_ifs with hk
    · rw [hk]
      simp [hdata]
    · simp [hk]
  have hsame : SameHeld t (t.removeEntry key) := by
    refine ⟨fun k => ?_, by rw [heq]; rfl, fun k => (hheld k).mpr⟩
    rw [hentry]
    split_ifs with hk
    · rw [hk]
    · rfl
  refine hsame.keeps hs (fun k hk => ?_) (fun k hk => ?_) fun k => (hheld k).mp
  · rw [hentry]
    split_ifs with hne
    · rfl
    · rw [hdeferred, mem_add] at hk
      exact hs.deferred k (hk.resolve_left hne)
  · rw [hheld]
    have hchanged : (t.removeEntry key).changedKeys = t.changedKeys.add key := by
      rw [heq]
      rfl
    rw [hchanged, mem_add] at hk
    rcases hk with rfl | hk
    · exact .inl hdata
    · exact hs.changed k hk

/-! ### Keys are watched -/

theorem SameButWatchers.sound (h : SameButWatchers t t') (hs : Sound env t patterns) :
    Sound env t' patterns := by
  refine hs.of_map (f := id) (fun p => ?_) (fun _ => ⟨rfl, rfl⟩) (h.positive hs.positive)
    hs.nodup (fun p pInfo hp k hk => ?_) (fun k hk => ?_) (fun k hk => ?_)
  · rw [h.patternData, Option.map_id, id]
  · rw [h.held_iff]
    exact hs.listed p pInfo hp k hk
  · rw [h.data]
    exact hs.deferred k (h.deferredRemovals ▸ hk)
  · rw [h.held_iff]
    exact hs.changed k (h.changedKeys ▸ hk)

theorem SameData.complete (h : SameData t t') (hc : t.Complete)
    (hp : t'.patternData = t.patternData) : t'.Complete := fun p pInfo hlookup k hregex hk =>
  hc p pInfo (hp ▸ hlookup) k hregex ((h.held_iff k).mp hk)

/-! ### Patterns are watched -/

omit [DecidableEq K] in
theorem sessionsOf_lookup (h : t.patternData.lookup pattern = some pInfo) :
    t.sessionsOf pattern = pInfo.sessions := by
  unfold sessionsOf
  rw [h]

theorem Sound.find (hs : Sound env t patterns) (h : t.patternFind env pattern = some pInfo) :
    (∀ sid, pInfo.sessions.count sid = if pattern ∈ patterns sid then 1 else 0) ∧
      env.compile pattern = some pInfo.regex ∧ pInfo.keys.Nodup ∧
      ∀ k ∈ pInfo.keys, pInfo.regex k = true ∧ t.Held k := by
  unfold patternFind at h
  cases hlookup : t.patternData.lookup pattern with
  | some old =>
    rw [hlookup] at h
    obtain rfl := some.inj h
    refine ⟨fun sid => ?_, hs.compiled pattern old hlookup, hs.nodup pattern old hlookup,
      hs.listed pattern old hlookup⟩
    rw [← hs.sessions, sessionsOf_lookup hlookup]
  | none =>
    rw [hlookup] at h
    obtain ⟨regex, hregex, rfl⟩ := map_eq_some_iff.mp h
    refine ⟨fun sid => ?_, hregex, t.storeData.keys_nodup.filter _, fun k hk => ?_⟩
    · rw [← hs.sessions]
      unfold sessionsOf
      rw [hlookup]
    · obtain ⟨-, hk⟩ := List.mem_filter.mp hk
      obtain ⟨hsome, hmatch⟩ := Bool.and_eq_true_iff.mp hk
      exact ⟨hmatch, .inl (isSome_iff_ne_none.mp hsome)⟩

theorem Sound.patternAddSession (hs : Sound env t patterns) {patterns' : Sid → ListSet P}
    (h : t.patternAddSession env pattern sid = some t') (hpatterns : ∀ sid', patterns' sid' =
      if sid' = sid then (patterns sid).add pattern else patterns sid')
    (hnew : pattern ∉ patterns sid) : Sound env t' patterns' := by
  obtain ⟨pInfo, hfind, hgains, hlookup⟩ := addSession_spec h
  obtain ⟨hsessions, hcompiled, hnodup, hlisted⟩ := hs.find hfind
  refine ⟨hgains.positive hs.positive, fun p sid' => ?_, fun p q hq => ?_, fun p q hq => ?_,
    fun p q hq => ?_, fun p q hq k hk => ?_, fun k hk => ?_, fun k hk => ?_⟩
  · rw [hpatterns]
    unfold sessionsOf
    rw [hlookup]
    by_cases hp : p = pattern
    · subst hp
      rw [if_pos rfl]
      rw [count_append, hsessions, count_singleton]
      by_cases hsid : sid' = sid
      · subst hsid
        simp [hnew]
      · simp [hsid, Ne.symm hsid]
    · have hold := hs.sessions p sid'
      unfold sessionsOf at hold
      split_ifs <;> simp_all
  all_goals
    first
    | rw [hlookup] at hq
    | skip
  · split_ifs at hq with hp
    · obtain rfl := some.inj hq
      exact append_ne_nil_of_right_ne_nil _ (cons_ne_nil sid [])
    · exact hs.watched p q hq
  · split_ifs at hq with hp
    · obtain rfl := some.inj hq
      rw [hp]
      exact hcompiled
    · exact hs.compiled p q hq
  · split_ifs at hq with hp
    · obtain rfl := some.inj hq
      exact hnodup
    · exact hs.nodup p q hq
  · rw [hgains.held_iff]
    split_ifs at hq with hp
    · obtain rfl := some.inj hq
      exact hlisted k hk
    · exact hs.listed p q hq k hk
  · rw [hgains.data]
    exact hs.deferred k (hgains.deferredRemovals ▸ hk)
  · rw [hgains.held_iff]
    exact hs.changed k (hgains.changedKeys ▸ hk)

theorem complete_addSession (hc : t.Complete) (h : t.patternAddSession env pattern sid = some t')
    (hfresh : t.patternData.lookup pattern = none →
      ∀ regex, env.compile pattern = some regex → ∀ k ∈ t.deferredRemovals, regex k = false) :
    t'.Complete := by
  obtain ⟨pInfo, hfind, hgains, hlookup⟩ := addSession_spec h
  intro p q hq k hregex hheld
  rw [hgains.held_iff] at hheld
  rw [hlookup] at hq
  split_ifs at hq with hp
  · obtain rfl := some.inj hq
    unfold patternFind at hfind
    cases hold : t.patternData.lookup pattern with
    | some old =>
      rw [hold] at hfind
      obtain rfl := some.inj hfind
      exact hc pattern old hold k hregex hheld
    | none =>
      rw [hold] at hfind
      obtain ⟨regex, hcompile, rfl⟩ := map_eq_some_iff.mp hfind
      rcases hheld with hdata | hdeferred
      · have hmem : k ∈ t.storeData.keys := by
          rw [← AList.mem_keys, ← AList.lookup_isSome]
          by_contra hno
          refine hdata ?_
          unfold entry
          rw [not_isSome_iff_eq_none.mp hno]
          rfl
        refine List.mem_filter.mpr ⟨hmem, Bool.and_eq_true_iff.mpr ⟨?_, hregex⟩⟩
        exact isSome_iff_ne_none.mpr hdata
      · have hno := hfresh hold regex hcompile k hdeferred
        exact absurd (hregex.symm.trans hno) Bool.noConfusion
  · exact hc p q hq k hregex hheld

section

variable (hs : Sound env t patterns)
include hs

theorem Sound.lookup_of_mem (h : pattern ∈ patterns sid) :
    ∃ pInfo, t.patternData.lookup pattern = some pInfo ∧ sid ∈ pInfo.sessions := by
  have hcount := hs.sessions pattern sid
  rw [if_pos h] at hcount
  unfold sessionsOf at hcount
  cases hlookup : t.patternData.lookup pattern with
  | none =>
    rw [hlookup] at hcount
    cases hcount
  | some pInfo =>
    rw [hlookup] at hcount
    exact ⟨pInfo, rfl, List.count_pos_iff.mp (hcount ▸ Nat.one_pos)⟩

theorem Sound.patternRemoveSession {patterns' : Sid → ListSet P}
    (hpatterns : ∀ sid', patterns' sid' =
      if sid' = sid then (patterns sid).remove pattern else patterns sid')
    (hold : pattern ∈ patterns sid) :
    ∃ t', t.patternRemoveSession pattern sid = some t' ∧ Loses t t' ∧ Sound env t' patterns' ∧
      (t.Complete → t'.Complete) := by
  obtain ⟨pInfo, hinfo, hmem⟩ := hs.lookup_of_mem hold
  obtain ⟨t', ht', hloses, hlookup⟩ := removeSession_spec hinfo hmem
  -- the pattern keeps its list and loses the session, or is forgotten
  have hback : ∀ p q, t'.patternData.lookup p = some q →
      (p = pattern ∧ q = { pInfo with sessions := pInfo.sessions.erase sid } ∧
        1 < pInfo.sessions.length) ∨ t.patternData.lookup p = some q := by
    intro p q hq
    rw [hlookup] at hq
    split_ifs at hq with hp hlen
    · exact .inl ⟨hp, (some.inj hq).symm, hlen⟩
    · exact .inr hq
  have hsessions : t'.sessionsOf pattern = pInfo.sessions.erase sid := by
    unfold sessionsOf
    rw [hlookup, if_pos rfl]
    split_ifs with hlen
    · rfl
    · have : (pInfo.sessions.erase sid).length = 0 := by
        rw [length_erase_of_mem hmem]
        omega
      exact (List.length_eq_zero_iff.mp this).symm
  refine ⟨t', ht', hloses, ⟨hloses.positive hs.positive, fun p sid' => ?_, fun p q hq => ?_,
    fun p q hq => ?_, fun p q hq => ?_, fun p q hq k hk => ?_, fun k hk => ?_, fun k hk => ?_⟩,
    fun hc p q hq k hregex hheld => ?_⟩
  · rw [hpatterns]
    by_cases hp : p = pattern
    · subst hp
      have hcount := hs.sessions p sid'
      rw [sessionsOf_lookup hinfo] at hcount
      rw [hsessions]
      by_cases hsid : sid' = sid
      · subst hsid
        rw [count_erase_self, hcount]
        simp [hold]
      · rw [count_erase_of_ne hsid, hcount, if_neg hsid]
    · have hold' := hs.sessions p sid'
      unfold sessionsOf at hold' ⊢
      split_ifs <;> simp_all
  · rcases hback p q hq with ⟨rfl, rfl, hlen⟩ | hq
    · intro hnil
      have hlength := length_erase_of_mem hmem
      have hzero : (pInfo.sessions.erase sid).length = 0 := congrArg List.length hnil
      omega
    · exact hs.watched p q hq
  · rcases hback p q hq with ⟨rfl, rfl, -⟩ | hq
    · exact hs.compiled p pInfo hinfo
    · exact hs.compiled p q hq
  · rcases hback p q hq with ⟨rfl, rfl, -⟩ | hq
    · exact hs.nodup p pInfo hinfo
    · exact hs.nodup p q hq
  · rw [hloses.held_iff]
    rcases hback p q hq with ⟨rfl, rfl, -⟩ | hq
    · exact hs.listed p pInfo hinfo k hk
    · exact hs.listed p q hq k hk
  · rw [hloses.data]
    exact hs.deferred k (hloses.deferredRemovals ▸ hk)
  · rw [hloses.held_iff]
    exact hs.changed k (hloses.changedKeys ▸ hk)
  · rw [hloses.held_iff] at hheld
    rcases hback p q hq with ⟨rfl, rfl, -⟩ | hq
    · exact hc p pInfo hinfo k hregex hheld
    · exact hc p q hq k hregex hheld

/-! ### The changes are committed -/

theorem keeps_commit :
    Keeps env patterns t { { t with changedKeys := ∅ }.processDeferredRemovals with
      removedSessionKeys := ∅, writes := [] } := by
  obtain ⟨hloses, hlookup⟩ := deferred_spec { t with changedKeys := ∅ }
  have hdata : ∀ k, (({ t with changedKeys := ∅ } :
      Tables K P D).processDeferredRemovals.entry k).data = (t.entry k).data :=
    hloses.data
  have hdeferred : ({ t with changedKeys := ∅ } :
      Tables K P D).processDeferredRemovals.deferredRemovals = ∅ :=
    hloses.deferredRemovals
  have hchanged : ({ t with changedKeys := ∅ } :
      Tables K P D).processDeferredRemovals.changedKeys = ∅ := hloses.changedKeys
  have hpositive : ({ t with changedKeys := ∅ } :
      Tables K P D).processDeferredRemovals.Positive := hloses.positive hs.positive
  have hcounted : ∀ keys, t.Counted keys → ({ t with changedKeys := ∅ } :
      Tables K P D).processDeferredRemovals.Counted keys := fun _ hc =>
    hloses.counted hc
  have hmem : ∀ p pInfo, t.patternData.lookup p = some pInfo → ∀ k,
      k ∈ pInfo.keys.diff t.deferredRemovals.toList ↔
        k ∈ pInfo.keys ∧ k ∉ t.deferredRemovals := fun p pInfo hp k =>
    (hs.nodup p pInfo hp).mem_sdiff_iff
  refine ⟨hs.of_map hlookup (fun _ => ⟨rfl, rfl⟩) hpositive (fun p pInfo hp => ?_)
    (fun p pInfo hp k hk => ?_) (fun k hk => ?_) (fun k hk => ?_), hcounted,
    fun hc p pInfo' hp' k hregex hheld => ?_⟩
  · exact (hs.nodup p pInfo hp).diff
  · obtain ⟨hk, hnot⟩ := (hmem p pInfo hp k).mp hk
    obtain ⟨hregex, hheld⟩ := hs.listed p pInfo hp k hk
    refine ⟨hregex, .inl ?_⟩
    have := hheld.resolve_right hnot
    rw [← hdata] at this
    exact this
  · rw [hdeferred] at hk
    cases hk
  · rw [hchanged] at hk
    cases hk
  · obtain ⟨pInfo, hp, rfl⟩ := map_eq_some_iff.mp ((hlookup p).symm.trans hp')
    have hhas : (t.entry k).data ≠ none := by
      rw [← hdata]
      refine hheld.resolve_right fun hk => ?_
      rw [hdeferred] at hk
      cases hk
    refine (hmem p pInfo hp k).mpr ⟨hc p pInfo hp k hregex (.inl hhas), fun hk => ?_⟩
    exact hhas (hs.deferred k hk)

/-! ### The references that are counted -/

/-- The references that come from patterns are as many as the session has
patterns with the key in their lists. -/
theorem Sound.via_eq (sid : Sid) (k : K) :
    t.via sid k = (patterns sid).toList.countP fun p => k ∈ t.listOf p := by
  have hshare : ∀ p pInfo, t.patternData.lookup p = some pInfo →
      share sid k pInfo = if p ∈ patterns sid ∧ k ∈ pInfo.keys then 1 else 0 := by
    intro p pInfo hp
    have hcount := hs.sessions p sid
    rw [sessionsOf_lookup hp] at hcount
    unfold share
    rw [hcount, (hs.nodup p pInfo hp).count]
    split_ifs <;> simp_all
  rw [countP_eq_length_filter]
  refine Dict.sum_eq_length _ (fun p pInfo hp => ?_) ((patterns sid).nodup.filter _) fun p => ?_
  · rw [hshare p pInfo hp]
    split_ifs <;> simp
  · rw [mem_filter, decide_eq_true_eq]
    constructor
    · rintro ⟨hp, hk⟩
      obtain ⟨pInfo, hinfo, -⟩ := hs.lookup_of_mem hp
      refine ⟨pInfo, hinfo, ?_⟩
      unfold listOf at hk
      rw [hinfo] at hk
      rw [hshare p pInfo hinfo, if_pos ⟨hp, hk⟩]
    · rintro ⟨pInfo, hinfo, hone⟩
      rw [hshare p pInfo hinfo] at hone
      have hboth : p ∈ patterns sid ∧ k ∈ pInfo.keys := by
        by_contra hno
        rw [if_neg hno] at hone
        cases hone
      refine ⟨hboth.1, ?_⟩
      unfold listOf
      rw [hinfo]
      exact hboth.2

end

end Tables

end Hexley.Configd
