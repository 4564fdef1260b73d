import Hexley.Configd.Server
import Hexley.Lib.Machine

/-!
What the handlers do: transactions and watches.

A handler that changes data takes the lock, works, and gives the lock back.
If the session has the lock already, only the work is left of this: the
count goes up and comes down again. If nobody has it, the handler takes it,
works and commits. In all other cases it does nothing.

A handler that adds or drops a watch leaves the data and the lock alone.
-/

namespace Hexley.Configd

open Lib Relation Option

variable {K P D : Type}

namespace State

variable {s s' : State K P D} {sid : Sid}

/-! ### The lock and the watches of a session -/

def Holder (s : State K P D) (sid : Sid) : Prop :=
  0 < s.storeLocked ∧ s.isLocked sid = true

theorem isLocked_iff :
    s.isLocked sid = true ↔ ∃ session, s.sessions sid = some session ∧ session.locked = true := by
  unfold isLocked
  cases s.sessions sid <;> simp

def withCount (s : State K P D) (n : ℕ) : State K P D :=
  { s with storeLocked := n }

structure SameOutside (s s' : State K P D) : Prop where
  saved : s'.saved = s.saved
  sessions : s'.sessions = s.sessions
  storeLocked : s'.storeLocked = s.storeLocked
  needsNotification : s'.needsNotification = s.needsNotification
  history : s'.history = s.history

theorem SameOutside.refl (s : State K P D) : SameOutside s s := ⟨rfl, rfl, rfl, rfl, rfl⟩

theorem lock_of_holder (h : s.Holder sid) :
    s.lock sid true = (.ok, s.withCount (s.storeLocked + 1)) := by
  obtain ⟨session, hsession, hlocked⟩ := isLocked_iff.mp h.2
  unfold lock
  rw [hsession]
  dsimp only
  rw [if_pos h.1, hlocked]
  rfl

def MayTake (s : State K P D) (sid : Sid) : Prop :=
  s.storeLocked = 0 ∧ ∃ session, s.sessions sid = some session ∧ session.callerEUID = 0

theorem holder_take (h : s.MayTake sid) : (s.take sid).Holder sid := by
  obtain ⟨-, session, hsession, -⟩ := h
  refine ⟨Nat.one_pos, ?_⟩
  simp [isLocked, take, modifySession, hsession]

theorem lock_of_mayTake (recursive : Bool) (h : s.MayTake sid) :
    s.lock sid recursive = (.ok, s.take sid) := by
  obtain ⟨hfree, session, hsession, hroot⟩ := h
  unfold lock
  rw [hsession]
  simp [hfree, hroot]

theorem lock_of_refused {recursive : Bool} (hheld : recursive = true → ¬ s.Holder sid)
    (htake : ¬ s.MayTake sid) : (s.lock sid recursive).1 ≠ .ok ∧ (s.lock sid recursive).2 = s := by
  unfold lock
  cases hsession : s.sessions sid with
  | none => simp
  | some session =>
    dsimp only
    split_ifs with hcount hlocked heuid
    · rw [Bool.and_eq_true] at hlocked
      exact absurd ⟨hcount, isLocked_iff.mpr ⟨session, hsession, hlocked.1⟩⟩ (hheld hlocked.2)
    · simp
    · simp
    · exact absurd ⟨by omega, session, hsession, by simpa using heuid⟩ htake

theorem sessions_modify (sid' : Sid) (f : Session K P → Session K P) :
    (s.modifySession sid f).sessions sid' =
      if sid' = sid then (s.sessions sid).map f else s.sessions sid' :=
  Function.update_apply _ _ _ _

structure SameLock (s s' : State K P D) : Prop where
  storeLocked : s'.storeLocked = s.storeLocked
  session : ∀ sid, (s'.sessions sid).map (fun session => (session.locked, session.callerEUID)) =
    (s.sessions sid).map fun session => (session.locked, session.callerEUID)

theorem SameLock.refl (s : State K P D) : SameLock s s := ⟨rfl, fun _ => rfl⟩

theorem SameLock.trans {s'' : State K P D} (h : SameLock s s') (h' : SameLock s' s'') :
    SameLock s s'' :=
  ⟨h'.storeLocked.trans h.storeLocked, fun sid => (h'.session sid).trans (h.session sid)⟩

theorem sameLock_modifySession {f : Session K P → Session K P}
    (hf : ∀ session, ((f session).locked, (f session).callerEUID) =
      (session.locked, session.callerEUID)) : SameLock s (s.modifySession sid f) := by
  refine ⟨rfl, fun sid' => ?_⟩
  rw [sessions_modify]
  split_ifs with h
  · rw [h, Option.map_map]
    congr 1
    funext session
    exact hf session
  · rfl

theorem SameLock.isLocked (h : SameLock s s') (sid : Sid) : s'.isLocked sid = s.isLocked sid := by
  have hsession := h.session sid
  unfold State.isLocked
  cases hs : s.sessions sid <;> cases hs' : s'.sessions sid <;> simp_all

theorem SameLock.holder (h : SameLock s s') : s'.Holder sid ↔ s.Holder sid := by
  unfold Holder
  rw [h.storeLocked, h.isLocked]

theorem notifiedKeys_eq (s : State K P D) (sid : Sid) :
    ∃ (sessionData : Sid → Option (Info K)) (history : List (Event K P)),
      (s.copyNotifiedKeys sid).2 = { s with sessionData, history } := by
  unfold copyNotifiedKeys
  cases s.sessions sid with
  | none => exact ⟨_, _, rfl⟩
  | some session =>
    dsimp only
    cases s.sessionData sid with
    | none => exact ⟨_, _, rfl⟩
    | some info =>
      dsimp only
      split_ifs <;> exact ⟨_, _, rfl⟩

theorem notifyCancel_eq (s : State K P D) (sid : Sid) :
    ∃ pending : ListSet Sid, (∀ sid' ∈ pending, sid' ∈ s.needsNotification) ∧
      (s.notifyCancel sid).2 = { s with needsNotification := pending } := by
  unfold notifyCancel
  cases s.sessions sid with
  | none => exact ⟨s.needsNotification, fun _ => id, rfl⟩
  | some session => exact ⟨_, fun _ h => (ListSet.mem_remove.mp h).2, rfl⟩

section

variable {f : Session K P → Session K P}

theorem keysOf_modify
    {g : ListSet K → ListSet K} (hf : ∀ session, (f session).keys = g session.keys)
    (hg : s.sessions sid = none → g ∅ = ∅) (sid' : Sid) : (s.modifySession sid f).keysOf sid' =
      if sid' = sid then g (s.keysOf sid) else s.keysOf sid' := by
  unfold keysOf
  rw [sessions_modify]
  split_ifs with h
  · cases hsession : s.sessions sid with
    | none => exact (hg hsession).symm
    | some session => exact hf session
  · rfl

theorem patternsOf_modify {g : ListSet P → ListSet P}
    (hf : ∀ session, (f session).patterns = g session.patterns)
    (hg : s.sessions sid = none → g ∅ = ∅) (sid' : Sid) : (s.modifySession sid f).patternsOf sid' =
      if sid' = sid then g (s.patternsOf sid) else s.patternsOf sid' := by
  unfold patternsOf
  rw [sessions_modify]
  split_ifs with h
  · cases hsession : s.sessions sid with
    | none => exact (hg hsession).symm
    | some session => exact hf session
  · rfl

theorem keysOf_modify_same (hf : ∀ session, (f session).keys = session.keys) :
    (s.modifySession sid f).keysOf = s.keysOf := by
  funext sid'
  rw [keysOf_modify (g := id) hf fun _ => rfl]
  split_ifs with h
  · rw [h, id]
  · rfl

theorem patternsOf_modify_same (hf : ∀ session, (f session).patterns = session.patterns) :
    (s.modifySession sid f).patternsOf = s.patternsOf := by
  funext sid'
  rw [patternsOf_modify (g := id) hf fun _ => rfl]
  split_ifs with h
  · rw [h, id]
  · rfl

end

structure SameWatches (s s' : State K P D) : Prop where
  keys : s'.keysOf = s.keysOf
  patterns : s'.patternsOf = s.patternsOf

theorem sameWatches_of (h : s'.sessions = s.sessions) : SameWatches s s' := by
  constructor
  · unfold keysOf
    rw [h]
  · unfold patternsOf
    rw [h]

theorem SameWatches.trans {s'' : State K P D} (h : SameWatches s s')
    (h' : SameWatches s' s'') : SameWatches s s'' :=
  ⟨h'.keys.trans h.keys, h'.patterns.trans h.patterns⟩

theorem sameWatches_modify {f : Session K P → Session K P}
    (hkeys : ∀ session, (f session).keys = session.keys)
    (hpatterns : ∀ session, (f session).patterns = session.patterns) :
    SameWatches s (s.modifySession sid f) :=
  ⟨keysOf_modify_same hkeys, patternsOf_modify_same hpatterns⟩

theorem sameWatches_take (s : State K P D) (sid : Sid) : SameWatches s (s.take sid) :=
  (sameWatches_modify (by intro; rfl) (by intro; rfl)).trans (sameWatches_of rfl)

/-! ### Session keys and watched keys -/

variable [DecidableEq K]

section

variable (n : ℕ)

theorem addSessionKey_withCount (key : K) :
    (s.withCount n).addSessionKey sid key = (s.addSessionKey sid key).withCount n := by
  unfold addSessionKey withCount
  cases s.sessionData sid <;> rfl

variable (key : K)

theorem sameOutside_addKey : SameOutside s (s.addSessionKey sid key) := by
  unfold addSessionKey
  cases s.sessionData sid <;> exact ⟨rfl, rfl, rfl, rfl, rfl⟩

theorem tables_addSessionKey : (s.addSessionKey sid key).tables = s.tables := by
  unfold addSessionKey
  cases s.sessionData sid <;> rfl

theorem manageKeys_withCount (own : Bool) (key : K) (value : D) :
    (s.withCount n).manageSessionKeys sid own key value =
      (s.manageSessionKeys sid own key value).map fun r => (r.1.withCount n, r.2) := by
  unfold manageSessionKeys
  rw [addSessionKey_withCount]
  cases own with
  | true =>
    by_cases hnew : (s.tables.entry key).data = none <;>
      by_cases hown : (s.tables.entry key).session = some sid <;> simp [withCount, hnew, hown]
  | false =>
    dsimp only [withCount]
    cases (s.tables.entry key).session with
    | none => rfl
    | some owner =>
      simp only [Bool.false_eq_true, if_false]
      split_ifs <;> rfl

structure Managed (key : K) (value : D) (s s' : State K P D)
    (newDict : Entry D) : Prop where
  outside : SameOutside s s'
  tables : ∃ removed, s'.tables = { s.tables with removedSessionKeys := removed }
  data : newDict.data = some value
  watchers : newDict.watchers = (s.tables.entry key).watchers

section

variable {own : Bool} {key : K} {value : D} {newDict : Entry D}
  (h : s.manageSessionKeys sid own key value = some (s', newDict))
include h

theorem manageKeys_cases : ((s.tables.entry key).data = none ∧ s' = s.addSessionKey sid key ∧
      newDict = { s.tables.entry key with data := some value, session := some sid }) ∨
    (s' = s ∧ newDict = { s.tables.entry key with data := some value }) ∨
    ∃ owner, (s.tables.entry key).session = some owner ∧ owner ≠ sid ∧ s' = { s with tables :=
        { s.tables with removedSessionKeys := s.tables.removedSessionKeys.add (owner, key) } } ∧
      newDict = { s.tables.entry key with data := some value, session := none } := by
  unfold manageSessionKeys at h
  cases own with
  | true =>
    simp only [if_true] at h
    split_ifs at h with hnew hown
    · obtain ⟨rfl, rfl⟩ := Prod.mk.inj (some.inj h)
      exact .inl ⟨isNone_iff_eq_none.mp hnew, rfl, rfl⟩
    · obtain ⟨rfl, rfl⟩ := Prod.mk.inj (some.inj h)
      exact .inr (.inl ⟨rfl, rfl⟩)
  | false =>
    simp only [Bool.false_eq_true, if_false] at h
    cases hsession : (s.tables.entry key).session with
    | none =>
      rw [hsession] at h
      obtain ⟨rfl, rfl⟩ := Prod.mk.inj (some.inj h)
      exact .inr (.inl ⟨rfl, by rw [← hsession]⟩)
    | some owner =>
      rw [hsession] at h
      dsimp only at h
      split_ifs at h with hother
      · obtain ⟨rfl, rfl⟩ := Prod.mk.inj (some.inj h)
        exact .inr (.inr ⟨owner, rfl,
          of_decide_eq_true (Bool.and_eq_true_iff.mp hother).2, rfl, rfl⟩)
      · obtain ⟨rfl, rfl⟩ := Prod.mk.inj (some.inj h)
        exact .inr (.inl ⟨rfl, by rw [← hsession]⟩)

theorem managed_of_eq_some : Managed key value s s' newDict := by
  rcases manageKeys_cases h with ⟨-, rfl, rfl⟩ | ⟨rfl, rfl⟩ | ⟨owner, -, -, rfl, rfl⟩
  · exact ⟨sameOutside_addKey key, ⟨_, tables_addSessionKey key⟩, rfl, rfl⟩
  · exact ⟨.refl s', ⟨_, rfl⟩, rfl, rfl⟩
  · exact ⟨⟨rfl, rfl, rfl, rfl, rfl⟩, ⟨_, rfl⟩, rfl, rfl⟩

end

theorem removeBody_withCount (key : K) :
    ((s.withCount n).removeBody key).2 = (s.removeBody key).2.withCount n := by
  unfold removeBody withCount
  split_ifs <;> rfl

structure SameButWatches (s s' : State K P D) : Prop extends SameLock s s' where
  data : s.tables.SameData s'.tables
  saved : s'.saved = s.saved
  sessionData : s'.sessionData = s.sessionData
  needsNotification : s'.needsNotification = s.needsNotification
  history : s'.history = s.history

theorem SameButWatches.refl (s : State K P D) : SameButWatches s s :=
  ⟨.refl s, .refl _, rfl, rfl, rfl, rfl⟩

theorem SameButWatches.trans {s'' : State K P D} (h : SameButWatches s s')
    (h' : SameButWatches s' s'') : SameButWatches s s'' :=
  ⟨h.toSameLock.trans h'.toSameLock, h.data.trans h'.data, h'.saved.trans h.saved,
    h'.sessionData.trans h.sessionData, h'.needsNotification.trans h.needsNotification,
    h'.history.trans h.history⟩

/-- What the session `sid` watches is changed, and the other sessions stay. -/
structure Rewatches (sid : Sid) (s s' : State K P D) : Prop
    extends SameButWatches s s' where
  others : ∀ sid', sid' ≠ sid → s'.sessions sid' = s.sessions sid'

theorem Rewatches.refl (sid : Sid) (s : State K P D) : Rewatches sid s s :=
  ⟨.refl s, fun _ _ => rfl⟩

theorem Rewatches.trans {s'' : State K P D} (h : Rewatches sid s s')
    (h' : Rewatches sid s' s'') : Rewatches sid s s'' :=
  ⟨h.toSameButWatches.trans h'.toSameButWatches,
    fun sid' hne => (h'.others sid' hne).trans (h.others sid' hne)⟩

theorem rewatches_modify {f : Session K P → Session K P}
    (hf : ∀ session, ((f session).locked, (f session).callerEUID) =
      (session.locked, session.callerEUID)) {t : Tables K P D}
    (ht : s.tables.SameData t) (fault : Bool) :
    Rewatches sid s { s.modifySession sid f with tables := t, fault := fault } :=
  ⟨⟨⟨rfl, (sameLock_modifySession hf).session⟩, ht, rfl, rfl, rfl, rfl⟩,
    fun _ hne => Function.update_of_ne hne _ _⟩

theorem addKey_eq : (s.addWatchedKey sid key).2 =
      if (s.sessions sid).isNone ∨ key ∈ s.keysOf sid then s
      else
        { s.modifySession sid fun session => { session with keys := session.keys.add key } with
          tables := s.tables.addWatcher sid key } := by
  unfold addWatchedKey keysOf
  cases s.sessions sid with
  | none => rfl
  | some session =>
    simp only [isNone_some, Bool.false_eq_true, false_or]
    split_ifs <;> rfl

theorem removeKey_eq : (s.removeWatchedKey sid key).2 = if key ∈ s.keysOf sid then
        { s.modifySession sid fun session => { session with keys := session.keys.remove key } with
          tables := s.tables.removeWatcher sid key }
      else s := by
  unfold removeWatchedKey keysOf
  cases s.sessions sid with
  | none => simp
  | some session =>
    dsimp only
    split_ifs <;> rfl

theorem rewatches_addKey : Rewatches sid s (s.addWatchedKey sid key).2 := by
  rw [addKey_eq]
  split_ifs
  · exact .refl sid s
  · exact rewatches_modify (by intro; rfl) (Tables.same_addWatcher _ _ _).toSameData _

theorem rewatches_removeKey : Rewatches sid s (s.removeWatchedKey sid key).2 := by
  rw [removeKey_eq]
  split_ifs
  · exact rewatches_modify (by intro; rfl) (Tables.same_removeWatcher _ _ _).toSameData _
  · exact .refl sid s

theorem keysOf_removeKey (s : State K P D) (sid : Sid) (key : K) (sid' : Sid) :
    (s.removeWatchedKey sid key).2.keysOf sid' =
      if sid' = sid then (s.keysOf sid).remove key else s.keysOf sid' := by
  rw [removeKey_eq]
  by_cases hmem : key ∈ s.keysOf sid
  · rw [if_pos hmem]
    exact keysOf_modify (g := fun l => l.remove key) (by intro; rfl) (by simp) sid'
  · rw [if_neg hmem, ListSet.remove_of_notMem hmem]
    split_ifs with hsid <;> simp [hsid]

theorem patternsOf_removeKey (s : State K P D) (sid : Sid) (key : K) :
    (s.removeWatchedKey sid key).2.patternsOf = s.patternsOf := by
  rw [removeKey_eq]
  split_ifs
  · exact patternsOf_modify_same (by intro; rfl)
  · rfl

theorem foldl_remove_spec {α β : Type} [DecidableEq α] {step : State K P D → α → State K P D}
    {f : State K P D → ListSet α} {g : State K P D → β}
    (hstep : ∀ s a, Rewatches sid s (step s a)) (hf : ∀ s a, f (step s a) = (f s).remove a)
    (hg : ∀ s a, g (step s a) = g s) (s : State K P D) :
    Rewatches sid s ((f s).toList.foldl step s) ∧ f ((f s).toList.foldl step s) = ∅ ∧
      g ((f s).toList.foldl step s) = g s := by
  have hpass (l : List α) (s : State K P D) : Rewatches sid s (l.foldl step s) ∧
      f (l.foldl step s) = l.foldl ListSet.remove (f s) ∧ g (l.foldl step s) = g s := by
    induction l generalizing s with
    | nil => exact ⟨.refl sid s, rfl, rfl⟩
    | cons a l ih =>
      obtain ⟨hsame, hdropped, hkept⟩ := ih (step s a)
      rw [hf] at hdropped
      exact ⟨(hstep s a).trans hsame, hdropped, hkept.trans (hg s a)⟩
  obtain ⟨hsame, hdropped, hkept⟩ := hpass (f s).toList s
  exact ⟨hsame, hdropped.trans (ListSet.foldl_remove_toList _), hkept⟩

theorem removeAllKeys_spec (s : State K P D) (sid : Sid) :
    Rewatches sid s (s.removeAllKeys sid) ∧ (s.removeAllKeys sid).keysOf sid = ∅ ∧
      (s.removeAllKeys sid).patternsOf = s.patternsOf :=
  foldl_remove_spec (f := fun s => s.keysOf sid) (g := patternsOf)
    (fun _ key => rewatches_removeKey key)
    (fun s key => (keysOf_removeKey s sid key sid).trans (if_pos rfl))
    (fun s key => patternsOf_removeKey s sid key) s

end

/-! ### Work under the lock -/

variable [DecidableEq P] (n : ℕ) (key : K)

inductive Work (sid : Sid) : State K P D → State K P D → Prop
  | set (s : State K P D) (own : Bool) (key : K) (value : D) :
      Work sid s (s.setBody sid own key value).2
  | remove (s : State K P D) (key : K) : Work sid s (s.removeBody key).2

theorem setBody_withCount (own : Bool) (key : K) (value : D) :
    ((s.withCount n).setBody sid own key value).2 =
      (s.setBody sid own key value).2.withCount n := by
  unfold setBody
  rw [manageKeys_withCount]
  cases s.manageSessionKeys sid own key value with
  | none => rfl
  | some r => rfl

theorem Work.withCount (h : Work sid s s') : Work sid (s.withCount n) (s'.withCount n) := by
  cases h with
  | set own key value =>
    rw [← setBody_withCount]
    exact .set _ own key value
  | remove key =>
    rw [← removeBody_withCount]
    exact .remove _ key

theorem Work.sameOutside (h : Work sid s s') : SameOutside s s' := by
  cases h with
  | set own key value =>
    unfold setBody
    cases hmanage : s.manageSessionKeys sid own key value with
    | none => exact .refl s
    | some r =>
      have h := (managed_of_eq_some hmanage).outside
      exact ⟨h.saved, h.sessions, h.storeLocked, h.needsNotification, h.history⟩
  | remove key =>
    unfold removeBody
    split_ifs
    · exact .refl s
    · exact ⟨rfl, rfl, rfl, rfl, rfl⟩

abbrev Works (sid : Sid) : State K P D → State K P D → Prop :=
  ReflTransGen (Work sid)

theorem Works.sameOutside (h : Works sid s s') : SameOutside s s' := by
  induction h with
  | refl => exact .refl s
  | tail _ hw ih =>
    have hw := hw.sameOutside
    exact ⟨hw.saved.trans ih.saved, hw.sessions.trans ih.sessions,
      hw.storeLocked.trans ih.storeLocked, hw.needsNotification.trans ih.needsNotification,
      hw.history.trans ih.history⟩

theorem Works.withCount (h : Works sid s s') : Works sid (s.withCount n) (s'.withCount n) := by
  induction h with
  | refl => exact .refl
  | tail _ hw ih => exact ih.tail (hw.withCount n)

theorem Works.holder (h : Works sid s s') (hs : s.Holder sid) : s'.Holder sid := by
  unfold Holder isLocked
  rw [h.sameOutside.storeLocked, h.sameOutside.sessions]
  exact hs

def IsWork (sid : Sid) (body : State K P D → Status × State K P D) : Prop :=
  ∀ s, s.Holder sid → Works sid s (body s).2

theorem unlock_of_holder (h : s.Holder sid) (hcount : 1 < s.storeLocked) :
    s.unlock sid true = (.ok, s.withCount (s.storeLocked - 1)) := by
  obtain ⟨session, hsession, hlocked⟩ := isLocked_iff.mp h.2
  have hpos : ¬ s.storeLocked = 0 := by omega
  unfold unlock
  rw [hsession]
  dsimp only
  rw [hlocked]
  simp [hpos, hcount, State.withCount]

theorem unlock_of_once {recursive : Bool} (h : s.Holder sid)
    (hcount : recursive = true → s.storeLocked = 1) :
    s.unlock sid recursive = (.ok, s.commit sid) := by
  obtain ⟨session, hsession, hlocked⟩ := isLocked_iff.mp h.2
  have hpos : ¬ s.storeLocked = 0 := ne_of_gt h.1
  unfold unlock
  rw [hsession]
  dsimp only
  rw [hlocked]
  cases recursive with
  | true => simp [hcount rfl]
  | false => simp [hpos]

theorem unlock_of_other {recursive : Bool} (h : ¬ s.Holder sid) :
    (s.unlock sid recursive).2 = s := by
  unfold unlock
  cases hsession : s.sessions sid with
  | none => rfl
  | some session =>
    dsimp only
    rw [if_pos]
    by_contra hcon
    simp only [Bool.or_eq_true, decide_eq_true_eq, Bool.not_eq_true', not_or,
      Bool.not_eq_false] at hcon
    exact h ⟨Nat.pos_of_ne_zero hcon.1, isLocked_iff.mpr ⟨session, hsession, hcon.2⟩⟩

theorem IsWork.withLock {body : State K P D → Status × State K P D}
    (hbody : IsWork sid body) : IsWork sid (withLock sid body) := by
  intro s hs
  have hs' : (s.withCount (s.storeLocked + 1)).Holder sid := ⟨Nat.succ_pos _, hs.2⟩
  have hwork := hbody _ hs'
  have hcount := hwork.sameOutside.storeLocked
  unfold State.withLock
  rw [lock_of_holder hs]
  dsimp only
  rw [if_neg (by simp), unlock_of_holder (hwork.holder hs')
    (by rw [hcount]; exact Nat.succ_lt_succ hs.1), hcount]
  exact hwork.withCount s.storeLocked

theorem IsWork.trans {f g : State K P D → Status × State K P D}
    (hf : IsWork sid f) (hg : IsWork sid g) : IsWork sid fun s => g (f s).2 :=
  fun s hs => (hf s hs).trans (hg _ ((hf s hs).holder hs))

theorem IsWork.foldl {α : Type} {f : α → State K P D → Status × State K P D}
    (hf : ∀ a, IsWork sid (f a)) (l : List α) (hs : s.Holder sid) :
    Works sid s (l.foldl (fun s a => (f a s).2) s) := by
  induction l generalizing s with
  | nil => exact .refl
  | cons a l ih => exact (hf a s hs).trans (ih ((hf a s hs).holder hs))

theorem isWork_setValue (own : Bool) (key : K) (value : D) :
    IsWork sid fun s : State K P D => s.setValue sid own key value :=
  IsWork.withLock fun s _ => .single (.set s own key value)

theorem isWork_removeValue :
    IsWork sid fun s : State K P D => s.removeValue sid key :=
  IsWork.withLock fun s _ => .single (.remove s key)

theorem isWork_addBody (own : Bool) (key : K) (value : D) :
    IsWork sid fun s : State K P D =>
      if (s.tables.entry key).data.isSome then (.keyExists, s)
      else s.setValue sid own key value := by
  intro s hs
  dsimp only
  split_ifs
  · exact .refl
  · exact isWork_setValue own key value s hs

variable (env : Env K P D)

theorem isWork_touchBody (own : Bool) (key : K) (now : D) : IsWork sid fun s : State K P D =>
      let value := match (s.tables.entry key).data with
        | none => now
        | some value => if env.isDate value then now else value
      (.ok, (s.setValue sid own key value).2) :=
  fun s hs => isWork_setValue own key _ s hs

theorem isWork_notifyBody (own : Bool) (key : K) :
    IsWork sid fun s : State K P D =>
      match (s.tables.entry key).data with
      | none =>
        let s := (s.setValue sid own key env.trueValue).2
        (.ok, (s.removeValue sid key).2)
      | some value => (.ok, (s.setValue sid own key value).2) := by
  intro s hs
  dsimp only
  cases (s.tables.entry key).data with
  | none =>
    exact (isWork_setValue own key env.trueValue).trans (isWork_removeValue key) s hs
  | some value => exact isWork_setValue own key value s hs

theorem isWork_setMultipleBody (own : Bool)
    (keysToSet : List (K × D)) (keysToRemove keysToNotify : List K) :
    IsWork sid fun s : State K P D =>
      let s := keysToSet.foldl (fun s kv => (s.setValue sid own kv.1 kv.2).2) s
      let s := keysToRemove.foldl (fun s key => (s.removeValue sid key).2) s
      let s := keysToNotify.foldl (fun s key => (s.notifyValue env sid own key).2) s
      (.ok, s) := by
  intro s hs
  have hset := IsWork.foldl (fun kv : K × D => isWork_setValue own kv.1 kv.2) keysToSet hs
  have hremove := IsWork.foldl isWork_removeValue keysToRemove (hset.holder hs)
  have hnotify := IsWork.foldl (fun key => (isWork_notifyBody env own key).withLock)
    keysToNotify (hremove.holder (hset.holder hs))
  exact hset.trans (hremove.trans hnotify)

/-! ### Transactions -/

/-- A change of data: it is refused, it is done by the holder of the lock, or it
is done under a lock that is taken for it. -/
inductive Transacts (sid : Sid) (s : State K P D) : State K P D → Prop
  | refused (hfree : ¬ s.Holder sid) (htake : ¬ s.MayTake sid) : Transacts sid s s
  | held (s' : State K P D) (h : s.Holder sid) (hwork : Works sid s s') :
      Transacts sid s s'
  | taken (s' : State K P D) (h : s.MayTake sid) (hwork : Works sid (s.take sid) s') :
      Transacts sid s (s'.commit sid)

theorem transacts_lock {body : State K P D → Status × State K P D}
    (hbody : IsWork sid body) (s : State K P D) :
    Transacts sid s (withLock sid body s).2 := by
  by_cases hheld : s.Holder sid
  · exact .held _ hheld (hbody.withLock s hheld)
  by_cases htake : s.MayTake sid
  · have hwork := hbody _ (holder_take htake)
    have hcount : (body (s.take sid)).2.storeLocked = 1 := hwork.sameOutside.storeLocked
    unfold withLock
    rw [lock_of_mayTake true htake]
    dsimp only
    rw [if_neg (by simp), unlock_of_once (hwork.holder (holder_take htake)) fun _ => hcount]
    exact .taken _ htake hwork
  · obtain ⟨hstatus, hsame⟩ := lock_of_refused (fun _ => hheld) htake
    unfold withLock
    rw [if_pos hstatus, hsame]
    exact .refused hheld htake

/-! ### Watches -/

variable (pattern : P)

theorem addPattern_eq : (s.addWatchedPattern env sid pattern).2 =
      if (s.sessions sid).isNone ∨ pattern ∈ s.patternsOf sid then s
      else
        match s.tables.patternAddSession env pattern sid with
        | none => s
        | some tables =>
          { s.modifySession sid fun session =>
              { session with patterns := session.patterns.add pattern } with
            tables := tables } := by
  unfold addWatchedPattern patternsOf
  cases s.sessions sid with
  | none => rfl
  | some session =>
    simp only [isNone_some, Bool.false_eq_true, false_or]
    split_ifs
    · rfl
    · cases s.tables.patternAddSession env pattern sid <;> rfl

theorem removePattern_eq : (s.removeWatchedPattern sid pattern).2 =
      if pattern ∈ s.patternsOf sid then
        { s.modifySession sid fun session =>
            { session with patterns := session.patterns.remove pattern } with
          tables := (s.tables.patternRemoveSession pattern sid).getD s.tables
          fault := s.fault || (s.tables.patternRemoveSession pattern sid).isNone }
      else s := by
  unfold removeWatchedPattern patternsOf
  cases s.sessions sid with
  | none => simp
  | some session =>
    dsimp only
    split_ifs
    · cases h : s.tables.patternRemoveSession pattern sid <;> simp [modifySession, h]
    · rfl

theorem rewatches_addPattern : Rewatches sid s (s.addWatchedPattern env sid pattern).2 := by
  rw [addPattern_eq]
  split_ifs
  · exact .refl sid s
  · cases h : s.tables.patternAddSession env pattern sid with
    | none => exact .refl sid s
    | some tables =>
      obtain ⟨_, -, hgains, -⟩ := Tables.addSession_spec h
      exact rewatches_modify (by intro; rfl) hgains.toSameData _

theorem rewatches_dropPattern : Rewatches sid s (s.removeWatchedPattern sid pattern).2 := by
  rw [removePattern_eq]
  split_ifs
  · refine rewatches_modify (by intro; rfl) ?_ _
    cases h : s.tables.patternRemoveSession pattern sid with
    | none => exact .refl _
    | some tables => exact (Tables.removeSession_frame h).1
  · exact .refl sid s

/-! ### What is watched -/

theorem sameWatches_commit (s : State K P D) (sid : Sid) : SameWatches s (s.commit sid) :=
  (sameWatches_modify (by intro; rfl) (by intro; rfl)).trans (sameWatches_of rfl)

theorem Transacts.sameWatches (h : Transacts sid s s') : SameWatches s s' := by
  cases h with
  | refused => exact sameWatches_of rfl
  | held s' h hwork => exact sameWatches_of hwork.sameOutside.sessions
  | taken s' h hwork =>
    exact (sameWatches_take s sid).trans
      ((sameWatches_of hwork.sameOutside.sessions).trans (sameWatches_commit s' sid))

theorem patterns_removePattern (s : State K P D) (sid : Sid)
    (pattern : P) (sid' : Sid) : (s.removeWatchedPattern sid pattern).2.patternsOf sid' =
      if sid' = sid then (s.patternsOf sid).remove pattern else s.patternsOf sid' := by
  rw [removePattern_eq]
  by_cases hmem : pattern ∈ s.patternsOf sid
  · rw [if_pos hmem]
    exact patternsOf_modify (g := fun l => l.remove pattern) (by intro; rfl) (by simp) sid'
  · rw [if_neg hmem, ListSet.remove_of_notMem hmem]
    split_ifs with hsid <;> simp [hsid]

theorem keysOf_removePattern (pattern : P) :
    (s.removeWatchedPattern sid pattern).2.keysOf = s.keysOf := by
  rw [removePattern_eq]
  split_ifs
  · exact keysOf_modify_same (by intro; rfl)
  · rfl

theorem removePatterns_spec (s : State K P D) (sid : Sid) :
    Rewatches sid s (s.removeAllPatterns sid) ∧ (s.removeAllPatterns sid).patternsOf sid = ∅ ∧
      (s.removeAllPatterns sid).keysOf = s.keysOf :=
  foldl_remove_spec (f := fun s => s.patternsOf sid) (g := keysOf)
    (fun _ pattern => rewatches_dropPattern pattern)
    (fun s pattern => (patterns_removePattern s sid pattern sid).trans (if_pos rfl))
    (fun _ pattern => keysOf_removePattern pattern) s

/-! ### The session keys of a session that closes -/

theorem remove_of_holder (key : K) (h : s.Holder sid) :
    (s.removeValue sid key).2 = (s.removeBody key).2 := by
  have hcount : ((s.withCount (s.storeLocked + 1)).removeBody key).2 =
      (s.removeBody key).2.withCount (s.storeLocked + 1) := removeBody_withCount _ key
  have hwork : Work sid s (s.removeBody key).2 := .remove s key
  have hlocked := hwork.sameOutside.storeLocked
  have hheld : ((s.removeBody key).2.withCount (s.storeLocked + 1)).Holder sid :=
    ⟨Nat.succ_pos _, (Works.holder (.single hwork) h).2⟩
  unfold removeValue withLock
  rw [lock_of_holder h]
  dsimp only
  rw [if_neg (by simp), hcount, unlock_of_holder hheld (Nat.succ_lt_succ h.1)]
  rw [← hlocked]
  rfl

theorem removeKeys_locked (hlocked : 0 < s.storeLocked) (keys : List K) :
    ∃ t, s.removeSessionKeys sid keys = { s with tables := t } := by
  induction keys generalizing s with
  | nil => exact ⟨s.tables, rfl⟩
  | cons key keys ih =>
    have hone : ∃ t, (if (s.tables.entry key).session = some sid
        then (s.removeValue sid key).2 else s) = { s with tables := t } := by
      split_ifs
      · by_cases hheld : s.Holder sid
        · rw [remove_of_holder key hheld]
          unfold removeBody
          split_ifs
          · exact ⟨s.tables, rfl⟩
          · exact ⟨_, rfl⟩
        · have htake : ¬ s.MayTake sid := fun h => absurd h.1 (ne_of_gt hlocked)
          obtain ⟨hstatus, hsame⟩ := lock_of_refused (fun _ => hheld) htake
          refine ⟨s.tables, ?_⟩
          unfold removeValue withLock
          rw [if_pos hstatus, hsame]
      · exact ⟨s.tables, rfl⟩
    obtain ⟨t, ht⟩ := hone
    obtain ⟨t', ht'⟩ := ih (s := { s with tables := t }) hlocked
    exact ⟨t', by
      unfold removeSessionKeys at ht' ⊢
      rw [List.foldl_cons, ht, ht']⟩

end State

/-! ### Requests -/

variable [DecidableEq K] [DecidableEq P]

def Request.changesData : Request K P D → Bool
  | .set _ _ | .add _ _ | .addSession _ _ | .remove _ | .touch _ _ | .notify _ => true
  | .setMultiple _ _ _ => true
  | _ => false

open State in
theorem transacts_handle (env : Env K P D) (s : State K P D) (sid : Sid)
    (r : Request K P D) (hr : r.changesData = true) :
    Transacts sid s (handle env sid s r).2 := by
  cases r with
  | set key value => exact transacts_lock (fun s _ => .single (.set s _ key value)) s
  | add key value => exact transacts_lock (isWork_addBody _ key value) s
  | addSession key value => exact transacts_lock (isWork_addBody true key value) s
  | remove key => exact transacts_lock (fun s _ => .single (.remove s key)) s
  | touch key now => exact transacts_lock (isWork_touchBody env _ key now) s
  | notify key => exact transacts_lock (isWork_notifyBody env _ key) s
  | setMultiple keysToSet keysToRemove keysToNotify =>
    exact transacts_lock (isWork_setMultipleBody env _ keysToSet keysToRemove keysToNotify) s
  | _ => cases hr

end Hexley.Configd
