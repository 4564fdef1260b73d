import Hexley.Configd.Invariant

/-!
Transactions.

To the clients the store is a map from keys to data, in which a key may belong
to a session. A request for data changes this map if the session has the lock or
can take it. While a session holds the lock, the requests of this session are all
that changes the map, whatever the other sessions do in between.
-/

namespace Hexley.Configd

open Lib Relation State Function Tables Option

variable {K P D : Type} [DecidableEq K] [DecidableEq P]

/-- The data of each key, and the session that the key belongs to. -/
abbrev Content (K D : Type) := K → Option D × Option Sid

def Tables.content (t : Tables K P D) : Content K D :=
  fun k => ((t.entry k).data, (t.entry k).session)

namespace Content

variable (sid : Sid) (own : Bool)

variable (c : Content K D) (key : K) (value : D)

/-- A session that uses session keys owns the keys it adds, and may not store into
the keys of others. Any other session takes a key away from its owner. -/
def set : Content K D :=
  match c key with
  | (none, owner) => update c key (some value, if own then some sid else owner)
  | (some _, owner) =>
    if own ∧ owner ≠ some sid then c
    else update c key (some value, if owner = some sid then owner else none)

def add : Content K D :=
  if (c key).1.isSome then c else c.set sid own key value

def remove : Content K D :=
  if (c key).1.isNone then c else update c key (none, none)

def touch (isDate : D → Bool) (c : Content K D) (key : K) (now : D) : Content K D :=
  c.set sid own key <|
    match (c key).1 with
    | none => now
    | some value => if isDate value then now else value

def notify (trueValue : D) (c : Content K D) (key : K) : Content K D :=
  match (c key).1 with
  | none => (c.set sid own key trueValue).remove key
  | some value => c.set sid own key value

end Content

/-- What a request does to the map if it is not refused. -/
def Request.apply (env : Env K P D) (sid : Sid) (own : Bool)
    (c : Content K D) : Request K P D → Content K D
  | .set key value => c.set sid own key value
  | .add key value => c.add sid own key value
  | .addSession key value => c.add sid true key value
  | .remove key => c.remove key
  | .touch key now => c.touch sid own env.isDate key now
  | .notify key => c.notify sid own env.trueValue key
  | .setMultiple keysToSet keysToRemove keysToNotify =>
    keysToNotify.foldl (Content.notify sid own env.trueValue) (keysToRemove.foldl Content.remove
        (keysToSet.foldl (fun c kv => c.set sid own kv.1 kv.2) c))
  | _ => c

variable {env : Env K P D} {s s' : State K P D} {sid sid' : Sid}
  {body body' : State K P D → Status × State K P D}
  {f f' : Content K D → Content K D}

/-! ### Requests for data -/

/-- Under the lock of the session, the code does this to the map. -/
structure Does (sid : Sid) (body : State K P D → Status × State K P D)
    (f : Content K D → Content K D) : Prop where
  work : IsWork sid body
  content : ∀ s, s.Holder sid → (body s).2.tables.content = f s.tables.content

/-- It does so under a lock that is taken for it, too. -/
structure Acts (sid : Sid) (act : State K P D → Status × State K P D)
    (f : Content K D → Content K D) : Prop extends Does sid act f where
  take : ∀ s, s.MayTake sid → (act s).2.tables.content = f s.tables.content

theorem content_commit : (s.commit sid).tables.content = s.tables.content :=
  have hsame := (deferred_spec { s.tables with changedKeys := ∅ }).1.toSameData
  funext fun k => Prod.ext (hsame.data k) (hsame.session k)

theorem Does.withLock (h : Does sid body f) : Acts sid (withLock sid body) f := by
  refine ⟨⟨h.work.withLock, fun s hs => ?_⟩, fun s htake => ?_⟩
  · have hs' : (s.withCount (s.storeLocked + 1)).Holder sid := ⟨Nat.succ_pos _, hs.2⟩
    have hwork := h.work _ hs'
    unfold State.withLock
    rw [lock_of_holder hs]
    dsimp only
    rw [if_neg (by simp), unlock_of_holder (hwork.holder hs')
      (by rw [hwork.sameOutside.storeLocked]; exact Nat.succ_lt_succ hs.1)]
    exact h.content _ hs'
  · have hs' := holder_take htake
    have hwork := h.work _ hs'
    unfold State.withLock
    rw [lock_of_mayTake true htake]
    dsimp only
    rw [if_neg (by simp), unlock_of_once (hwork.holder hs') fun _ => hwork.sameOutside.storeLocked]
    exact content_commit.trans (h.content _ hs')

theorem Does.trans (h : Does sid body f) (h' : Does sid body' f') :
    Does sid (fun s => body' (body s).2) fun c => f' (f c) :=
  ⟨h.work.trans h'.work, fun s hs => by
    rw [h'.content _ ((h.work s hs).holder hs), h.content s hs]⟩

theorem Does.foldl {α : Type} {body : α → State K P D → Status × State K P D}
    {f : Content K D → α → Content K D} (h : ∀ a, Does sid (body a) fun c => f c a)
    (l : List α) : Does sid (fun s => (.ok, l.foldl (fun s a => (body a s).2) s))
      fun c => l.foldl f c := by
  refine ⟨fun s hs => IsWork.foldl (fun a => (h a).work) l hs, fun s hs => ?_⟩
  induction l generalizing s with
  | nil => rfl
  | cons a l ih =>
    refine (ih _ (((h a).work s hs).holder hs)).trans ?_
    rw [(h a).content s hs, List.foldl_cons]

variable (own : Bool) (key : K) (value : D)

theorem content_setEntry (t : Tables K P D) (newDict : Entry D) (newEntry : Bool) :
    (t.setEntry key newDict newEntry).content =
      update t.content key (newDict.data, newDict.session) := by
  funext k
  obtain ⟨hdata, hsession⟩ := entry_setEntry t key k newDict newEntry
  unfold Tables.content
  rw [update_apply, hdata, hsession]
  split_ifs <;> rfl

theorem acts_setValue : Acts sid (fun s : State K P D =>
    s.setValue sid own key value) fun c => c.set sid own key value := by
  refine Does.withLock ⟨fun s _ => .single (.set s own key value), fun s _ => ?_⟩
  have hc : s.tables.content key = ((s.tables.entry key).data, (s.tables.entry key).session) := rfl
  unfold setBody manageSessionKeys Content.set
  rw [hc]
  -- the cases are those of `manageSessionKeys`
  cases own <;> rcases hdata : (s.tables.entry key).data with _ | old <;>
    rcases hsession : (s.tables.entry key).session with _ | owner <;>
    try by_cases hown : owner = sid
  all_goals simp [*, content_setEntry, tables_addSessionKey]
  rfl

theorem acts_removeValue : Acts sid (fun s : State K P D => s.removeValue sid key)
    fun c => c.remove key := by
  refine Does.withLock ⟨fun s _ => .single (.remove s key), fun s _ => funext fun k => ?_⟩
  unfold removeBody Content.remove Tables.content
  split_ifs
  · rfl
  · simp only [entry_removeEntry, update_apply]
    split_ifs <;> rfl

theorem acts_addValue : Acts sid (fun s : State K P D =>
    s.addValue sid own key value) fun c => c.add sid own key value := by
  refine Does.withLock ⟨isWork_addBody own key value, fun s hs => ?_⟩
  have hset := (acts_setValue own key value).content s hs
  by_cases hkey : (s.tables.entry key).data.isSome
  · simp [Content.add, Tables.content, hkey]
  · simpa [Content.add, Tables.content, hkey] using hset

variable (env) in
theorem acts_notifyValue : Acts sid (fun s : State K P D =>
      s.notifyValue env sid own key)
    fun c => c.notify sid own env.trueValue key := by
  refine Does.withLock ⟨isWork_notifyBody env own key, fun s hs => ?_⟩
  unfold Content.notify
  change _ = match (s.tables.entry key).data with | none => _ | some value => _
  cases (s.tables.entry key).data with
  | none =>
    exact ((acts_setValue own key env.trueValue).trans (acts_removeValue key).toDoes).content s hs
  | some value => exact (acts_setValue own key value).content s hs

variable (env s sid) in
theorem exists_acts (r : Request K P D) (hr : r.changesData = true) : ∃ act,
    handle env sid s r = act s ∧
      Acts sid act fun c => r.apply env sid (s.useSessionKeys sid) c := by
  cases r with
  | set key value => exact ⟨_, rfl, acts_setValue _ key value⟩
  | add key value => exact ⟨_, rfl, acts_addValue _ key value⟩
  | addSession key value => exact ⟨_, rfl, acts_addValue true key value⟩
  | remove key => exact ⟨_, rfl, acts_removeValue key⟩
  | touch key now =>
    exact ⟨_, rfl, Does.withLock ⟨isWork_touchBody env _ key now,
      fun s hs => (acts_setValue _ key _).content s hs⟩⟩
  | notify key => exact ⟨_, rfl, acts_notifyValue env _ key⟩
  | setMultiple keysToSet keysToRemove keysToNotify =>
    have hset : ∀ kv : K × D, Does sid (fun s : State K P D =>
        s.setValue sid _ kv.1 kv.2) _ := fun kv =>
      (acts_setValue (s.useSessionKeys sid) kv.1 kv.2).toDoes
    exact ⟨_, rfl, Does.withLock (((Does.foldl hset keysToSet).trans
      (Does.foldl (fun key => (acts_removeValue key).toDoes) keysToRemove)).trans
        (Does.foldl (fun key => (acts_notifyValue env _ key).toDoes) keysToNotify))⟩
  | _ => cases hr

/-- In every state of the server, a request for data of a session that has the lock
or can take it does to the map what it says. Any other is refused, and leaves the
server as it was. -/
theorem request_refines (env : Env K P D) (sid : Sid) (s : State K P D)
    {r : Request K P D} (hr : r.changesData = true) :
    (s.Holder sid ∨ s.MayTake sid → (handle env sid s r).2.tables.content =
        r.apply env sid (s.useSessionKeys sid) s.tables.content) ∧
      (¬(s.Holder sid ∨ s.MayTake sid) → (handle env sid s r).2 = s) := by
  obtain ⟨act, heq, hact⟩ := exists_acts env s sid r hr
  refine ⟨fun h => ?_, fun h => ?_⟩
  · rw [heq]
    exact h.elim (hact.content s) (hact.take s)
  · exact Blocked.transacts (not_or.mp h) (transacts_handle env s sid r hr)

theorem request_refines_set : (handle sampleEnv 7 (step sampleEnv .initial (.opens 7 0 true))
    (.set 5 1)).2.tables.content 5 = (some 1, some 7) :=
  congrFun ((request_refines sampleEnv 7 _ (r := .set 5 1) rfl).1 (.inr ⟨rfl, _, rfl, rfl⟩)) 5

/-! ### The other sessions -/

/-- The entry of the session and the map are as they were. -/
structure Apart (sid : Sid) (s s' : State K P D) : Prop where
  session : s'.sessions sid = s.sessions sid
  content : s'.tables.content = s.tables.content

omit [DecidableEq P] in
theorem apart_of_rewatches (h : Rewatches sid' s s') (hne : sid ≠ sid') : Apart sid s s' :=
  ⟨h.others sid hne, funext fun k => Prod.ext (h.data.data k) (h.data.session k)⟩

theorem Blocked.apart_close (h : Blocked s sid') (hne : sid ≠ sid') :
    Apart sid s ((s.close sid').removeSession sid') := by
  obtain ⟨hsame₁, -, -⟩ := s.removeAllKeys_spec sid'
  obtain ⟨hsame₂, -, -⟩ := (s.removeAllKeys sid').removePatterns_spec sid'
  obtain ⟨pending, -, hcancel⟩ :=
    notifyCancel_eq ((s.removeAllKeys sid').removeAllPatterns sid') sid'
  have hsame := hsame₁.trans hsame₂
  have hblocked := (h.of_sameLock hsame.toSameLock).of_sameLock (sameLock_cancel _ sid')
  obtain ⟨fault, hfault⟩ := hblocked.closeSessionKeys
  obtain ⟨hsession, hcontent⟩ := apart_of_rewatches hsame hne
  unfold State.close
  dsimp only
  rw [unlock_of_other (by rw [hfault]; exact hblocked.1), ite_self, hfault, hcancel]
  exact ⟨(update_of_ne hne _ _).trans hsession, hcontent⟩

theorem Blocked.apart_handle (h : Blocked s sid') (hne : sid ≠ sid')
    (r : Request K P D) : Apart sid s (handle env sid' s r).2 := by
  have hself : ∀ {s'}, s' = s → Apart sid s s' := fun heq => heq ▸ ⟨rfl, rfl⟩
  by_cases hr : r.changesData = true
  · exact hself (h.transacts (transacts_handle env s sid' r hr))
  cases r with
  | close =>
    change Apart sid s (s.configclose sid').2
    unfold configclose
    cases s.sessions sid' with
    | none => exact hself rfl
    | some session => exact h.apart_close hne
  | lock => exact hself (lock_of_refused (by simp) h.2).2
  | unlock => exact hself (unlock_of_other h.1)
  | notifyAddKey key => exact apart_of_rewatches (rewatches_addKey key) hne
  | notifyAddPattern pattern => exact apart_of_rewatches (rewatches_addPattern env pattern) hne
  | notifyRemoveKey key => exact apart_of_rewatches (rewatches_removeKey key) hne
  | notifyRemovePattern pattern => exact apart_of_rewatches (rewatches_dropPattern pattern) hne
  | notifySet keys patterns => exact apart_of_rewatches (rewatches_setKeys keys patterns) hne
  | notifyChanges =>
    obtain ⟨_, _, heq⟩ := notifiedKeys_eq s sid'
    exact (heq.symm ▸ ⟨rfl, rfl⟩ : Apart sid s (s.copyNotifiedKeys sid').2)
  | notifyCancel =>
    obtain ⟨_, -, heq⟩ := notifyCancel_eq s sid'
    exact (heq.symm ▸ ⟨rfl, rfl⟩ : Apart sid s (s.notifyCancel sid').2)
  | _ => exact absurd rfl hr

theorem Blocked.apart_cleanup (h : Blocked s sid') (hne : sid ≠ sid') :
    Apart sid s (s.cleanupSession sid') := by
  unfold cleanupSession
  cases hopen : s.sessions sid' with
  | none => exact ⟨rfl, rfl⟩
  | some session =>
    have hfree : ¬(s.storeLocked > 0 && session.locked) = true := fun hb => by
      simp only [decide_eq_true_eq, Bool.and_eq_true] at hb
      exact h.1 ⟨hb.1, isLocked_iff.mpr ⟨session, hopen, hb.2⟩⟩
    dsimp only
    rw [if_neg hfree]
    exact h.apart_close hne

/-! ### Runs -/

/-- The inputs of the other sessions, and the requests for data of this one. -/
def Input.Within (sid : Sid) : Input K P D → Prop
  | .opens _ _ _ => True
  | .request sid' r => sid' = sid → r.changesData = true
  | .dies sid' => sid ≠ sid'

def Input.apply (env : Env K P D) (sid : Sid) (own : Bool)
    (c : Content K D) : Input K P D → Content K D
  | .request sid' r => if sid' = sid then r.apply env sid own c else c
  | _ => c

variable {session : Session K P} {i : Input K P D}

theorem sessions_of_transacts (h : s.Holder sid) (ht : Transacts sid s s') :
    s'.sessions = s.sessions := by
  cases ht with
  | refused => rfl
  | held s' _ hwork => exact hwork.sameOutside.sessions
  | taken s' htake => exact absurd htake.1 h.1.ne'

variable (env) in
/-- A turn of the server while the session holds the lock. -/
theorem content_step (hlock : LockOk s) (hsession : s.sessions sid = some session)
    (hlocked : session.locked = true) (hi : i.Within sid) :
    (step env s i).sessions sid = some session ∧ (step env s i).tables.content =
      i.apply env sid session.useSessionKeys s.tables.content := by
  have hheld : s.isLocked sid = true := isLocked_iff.mpr ⟨session, hsession, hlocked⟩
  have hholder : s.Holder sid := ⟨hlock.taken sid hheld, hheld⟩
  have hblocked : ∀ sid', sid ≠ sid' → Blocked s sid' := fun sid' hne =>
    hlock.blocked (.inl ⟨hholder.1, Bool.eq_false_iff.mpr fun hl =>
      hne (hlock.unique sid sid' hheld hl)⟩)
  have hapart : ∀ s', Apart sid s s' → s'.sessions sid = some session ∧
      s'.tables.content = s.tables.content := fun s' h => ⟨h.session.trans hsession, h.content⟩
  cases i with
  | opens sid' uid own =>
    refine hapart (s.configopen sid' uid own) ⟨?_, ?_⟩
    · unfold configopen
      cases hopen : s.sessions sid' with
      | some _ => rfl
      | none => exact update_of_ne (fun heq => by simp [← heq, hsession] at hopen) _ _
    · rw [tables_configopen]
  | request sid' r =>
    by_cases hsid : sid' = sid
    · subst hsid
      have hr : r.changesData = true := hi rfl
      have hsame := sessions_of_transacts hholder (transacts_handle env s sid' r hr)
      have huses : s.useSessionKeys sid' = session.useSessionKeys := by
        simp only [State.useSessionKeys, hsession]
      obtain ⟨act, heq, hact⟩ := exists_acts env s sid' r hr
      refine ⟨(congrFun hsame sid').trans hsession, ?_⟩
      rw [Input.apply, if_pos rfl, ← huses]
      change (handle env sid' s r).2.tables.content = _
      rw [heq]
      exact hact.content s hholder
    · rw [Input.apply, if_neg hsid]
      exact hapart (handle env sid' s r).2
        ((hblocked sid' (Ne.symm hsid)).apart_handle (Ne.symm hsid) r)
  | dies sid' => exact hapart (s.cleanupSession sid') ((hblocked sid' hi).apart_cleanup hi)

/-- Whatever the other sessions do while a session holds the lock, the map is what
the requests of the holder make of it, one after the other. -/
theorem transaction_isolated (h : Reachable env (fun _ _ => True) s)
    (hsession : s.sessions sid = some session) (hlocked : session.locked = true)
    {inputs : List (Input K P D)} (hinputs : ∀ i ∈ inputs, i.Within sid) :
    (run env s inputs).tables.content =
      inputs.foldl (Input.apply env sid session.useSessionKeys) s.tables.content := by
  induction inputs generalizing s with
  | nil => rfl
  | cons i inputs ih =>
    obtain ⟨hi, hinputs⟩ := List.forall_mem_cons.mp hinputs
    obtain ⟨hsession', hcontent⟩ :=
      content_step env (lockOk_of_reachable h) hsession hlocked hi
    rw [List.foldl_cons, ← hcontent]
    exact ih (h.step trivial) hsession' hinputs

/-- Two sessions of root, one of which has the lock. -/
def lockedState : State ℕ ℕ ℕ :=
  run sampleEnv .initial [.opens 7 0 false, .opens 8 0 false, .request 7 .lock]

theorem transaction_isolated_two : (run sampleEnv lockedState
    [.request 7 (.set 5 1), .request 8 (.set 5 2), .dies 8]).tables.content 5 = (some 1, none) := by
  have hreach : Reachable sampleEnv (fun _ _ => True) lockedState :=
    reachable_run ⟨trivial, trivial, trivial, trivial⟩
  have hsession : lockedState.sessions 7 = some ⟨0, true, false, ∅, ∅⟩ := rfl
  exact congrFun (transaction_isolated hreach hsession rfl (by
    simp [Input.Within, Request.changesData])) 5

end Hexley.Configd
