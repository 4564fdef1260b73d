import Hexley.Configd.Moves

/-!
The discipline of the lock.

Between two turns the count of the lock is one if a session holds it and
zero if none does, whatever the requests were and whoever has died. A session
that can neither take the lock nor take it again is blocked: each of its
requests leaves the data as they are and the lock where it is.
-/

namespace Hexley.Configd

open Lib Relation Option

variable {K P D : Type} {env : Env K P D} {c : Prop} {s s' : State K P D} {sid sid' : Sid}

open State

/-- The count of the lock and the marks of the sessions agree. -/
structure LockOk (s : State K P D) : Prop where
  /-- No nested lock is left. -/
  count : s.storeLocked ≤ 1
  /-- Somebody holds a lock that is taken. -/
  held : 0 < s.storeLocked → ∃ sid, s.isLocked sid = true
  /-- A lock that somebody holds is taken. -/
  taken : ∀ sid, s.isLocked sid = true → 0 < s.storeLocked
  /-- Nobody else holds it. -/
  unique : ∀ sid sid', s.isLocked sid = true → s.isLocked sid' = true → sid = sid'
  /-- The holder is root. -/
  root : ∀ sid session, s.sessions sid = some session → session.locked = true →
    session.callerEUID = 0

theorem lockOk_initial : LockOk (State.initial : State K P D) where
  count := Nat.zero_le 1
  held h := absurd h (lt_irrefl 0)
  taken _ h := by cases h
  unique _ _ h := by cases h
  root _ _ h := by cases h

theorem LockOk.congr (h : LockOk s) (hcount : s'.storeLocked = s.storeLocked)
    (hlocked : ∀ sid, s'.isLocked sid = s.isLocked sid)
    (hroot : ∀ sid session, s'.sessions sid = some session → session.locked = true →
      session.callerEUID = 0) : LockOk s' where
  count := hcount ▸ h.count
  held hpos := by
    simp only [hlocked]
    exact h.held (hcount ▸ hpos)
  taken sid hsid := hcount ▸ h.taken sid (hlocked sid ▸ hsid)
  unique sid sid' hsid hsid' := h.unique sid sid' (hlocked sid ▸ hsid) (hlocked sid' ▸ hsid')
  root := hroot

theorem LockOk.of_sameLock (h : LockOk s) (hsame : SameLock s s') : LockOk s' := by
  refine h.congr hsame.storeLocked hsame.isLocked fun sid session hsession hlocked => ?_
  have hview := hsame.session sid
  rw [hsession] at hview
  obtain ⟨old, hold, heq⟩ := map_eq_some_iff.mp hview.symm
  obtain ⟨hl, he⟩ := Prod.mk.inj heq
  exact he ▸ h.root sid old hold (hl.trans hlocked)

theorem isLocked_modify (s : State K P D) (sid sid' : Sid) (b : Bool) :
    (s.modifySession sid fun session => { session with locked := b }).isLocked sid' =
      if sid' = sid then b && (s.sessions sid).isSome else s.isLocked sid' := by
  unfold isLocked
  rw [sessions_modify]
  split_ifs with h
  · cases s.sessions sid <;> simp
  · rfl

theorem lockOk_take (h : LockOk s) (htake : s.MayTake sid) : LockOk (s.take sid) := by
  obtain ⟨hfree, session, hsession, hroot⟩ := htake
  have hnone : ∀ sid, s.isLocked sid = false := fun sid' => by
    rw [Bool.eq_false_iff]
    exact fun hl => absurd (h.taken sid' hl) (by omega)
  have hlocked : ∀ sid', (s.take sid).isLocked sid' = true ↔ sid' = sid := fun sid' => by
    refine Eq.congr_left (isLocked_modify s sid sid' true) |>.trans ?_
    split_ifs with heq
    · simp [heq, hsession]
    · simp [heq, hnone]
  refine ⟨le_refl 1, fun _ => ⟨sid, (hlocked sid).mpr rfl⟩, fun _ _ => Nat.one_pos,
    fun sid₁ sid₂ h₁ h₂ => ((hlocked sid₁).mp h₁).trans ((hlocked sid₂).mp h₂).symm,
    fun sid' session' hsession' hl => ?_⟩
  obtain rfl := (hlocked sid').mp (isLocked_iff.mpr ⟨session', hsession', hl⟩)
  have hmod : (s.take sid').sessions sid' = _ :=
    sessions_modify sid' fun session => { session with locked := true }
  rw [if_pos rfl, hsession] at hmod
  obtain rfl := some.inj (hsession'.symm.trans hmod)
  exact hroot

theorem sameLock_of_eq (hcount : s'.storeLocked = s.storeLocked) (h : s'.sessions = s.sessions) :
    SameLock s s' :=
  ⟨hcount, fun sid => by rw [h]⟩

theorem sameLock_copyKeys (s : State K P D) (sid : Sid) :
    SameLock s (s.copyNotifiedKeys sid).2 := by
  obtain ⟨_, _, heq⟩ := notifiedKeys_eq s sid
  exact heq ▸ sameLock_of_eq rfl rfl

theorem sameLock_cancel (s : State K P D) (sid : Sid) : SameLock s (s.notifyCancel sid).2 := by
  obtain ⟨_, -, heq⟩ := notifyCancel_eq s sid
  exact heq ▸ sameLock_of_eq rfl rfl

theorem lockOk_update (h : LockOk s) (session : Option (Session K P))
    (hold : s.isLocked sid = false) (hnew : ∀ x, session = some x → x.locked = false)
    (hs' : s'.sessions = Function.update s.sessions sid session)
    (hcount : s'.storeLocked = s.storeLocked) : LockOk s' := by
  have hsession : ∀ sid', s'.sessions sid' = if sid' = sid then session else s.sessions sid' :=
    fun sid' => by rw [hs', Function.update_apply]
  refine h.congr hcount (fun sid' => ?_) fun sid' x hx hl => ?_
  · unfold isLocked at hold ⊢
    rw [hsession]
    split_ifs with heq
    · rw [heq, hold]
      cases session with
      | none => rfl
      | some x => exact hnew x rfl
    · rfl
  · rw [hsession] at hx
    split_ifs at hx
    · rw [hnew x hx] at hl
      cases hl
    · exact h.root sid' x hx hl

/-! ### Sessions that are blocked -/

/-- The session can neither take the lock nor take it again. -/
def Blocked (s : State K P D) (sid : Sid) : Prop :=
  ¬ s.Holder sid ∧ ¬ s.MayTake sid

theorem SameLock.mayTake (h : SameLock s s') : s'.MayTake sid → s.MayTake sid := by
  rintro ⟨hfree, session, hsession, hroot⟩
  have hview := h.session sid
  rw [hsession] at hview
  obtain ⟨old, hold, heq⟩ := map_eq_some_iff.mp hview.symm
  exact ⟨h.storeLocked ▸ hfree, old, hold, (Prod.mk.inj heq).2.trans hroot⟩

theorem Blocked.of_sameLock (h : Blocked s sid) (hsame : SameLock s s') : Blocked s' sid :=
  ⟨fun hheld => h.1 (hsame.holder.mp hheld), fun htake => h.2 (SameLock.mayTake hsame htake)⟩

theorem isLocked_remove : (s.removeSession sid).isLocked sid = false := by
  unfold isLocked removeSession
  simp

theorem isLocked_remove_of_ne (hne : sid' ≠ sid) :
    (s.removeSession sid).isLocked sid' = s.isLocked sid' := by
  have hsession : (s.removeSession sid).sessions sid' = s.sessions sid' :=
    Function.update_of_ne hne _ _
  unfold isLocked
  rw [hsession]

theorem LockOk.blocked (h : LockOk s) (hout : (0 < s.storeLocked ∧ s.isLocked sid = false) ∨
      ∃ session, s.sessions sid = some session ∧ session.callerEUID ≠ 0) : Blocked s sid := by
  rcases hout with ⟨hpos, hlocked⟩ | ⟨session, hsession, heuid⟩
  · exact ⟨fun hheld => by simp [hheld.2] at hlocked, fun htake => absurd htake.1 (by omega)⟩
  · refine ⟨fun hheld => ?_, fun ⟨_, session', hsession', hroot⟩ => ?_⟩
    · obtain ⟨session', hsession', hlocked⟩ := isLocked_iff.mp hheld.2
      obtain rfl := some.inj (hsession.symm.trans hsession')
      exact heuid (h.root sid session hsession hlocked)
    · obtain rfl := some.inj (hsession.symm.trans hsession')
      exact heuid hroot

/-! ### The discipline -/

/-- The lock is taken at most once, and exactly if one session and no other is
marked as its holder. -/
def Disciplined (s : State K P D) : Prop :=
  s.storeLocked ≤ 1 ∧ (0 < s.storeLocked ↔ ∃! sid, s.isLocked sid = true)

theorem LockOk.disciplined (h : LockOk s) : Disciplined s := by
  refine ⟨h.count, fun hpos => ?_, fun ⟨sid, hsid, _⟩ => h.taken sid hsid⟩
  obtain ⟨sid, hsid⟩ := h.held hpos
  exact ⟨sid, hsid, fun sid' hsid' => h.unique sid' sid hsid' hsid⟩

variable [DecidableEq K]

structure LeavesData (s s' : State K P D) : Prop extends SameLock s s' where
  data : ∀ k, (s'.tables.entry k).data = (s.tables.entry k).data

theorem leavesData_of (h : Rewatches sid s s') : LeavesData s s' := ⟨h.toSameLock, h.data.data⟩

/-! ### Turns -/

variable [DecidableEq P]

theorem lockOk_commit (h : LockOk s) (hheld : s.Holder sid) : LockOk (s.commit sid) := by
  have hnone : ∀ sid', (s.commit sid).isLocked sid' = false := fun sid' => by
    refine (isLocked_modify s sid sid' false).trans ?_
    split_ifs with heq
    · rfl
    · rw [Bool.eq_false_iff]
      exact fun hl => heq (h.unique sid' sid hl hheld.2)
  refine ⟨Nat.zero_le 1, fun hpos => absurd hpos (lt_irrefl 0), fun sid' hl => ?_,
    fun sid' _ hl _ => ?_, fun sid' session hsession hl => ?_⟩
  · exact absurd hl (by simp [hnone])
  · exact absurd hl (by simp [hnone])
  · exact absurd (isLocked_iff.mpr ⟨session, hsession, hl⟩) (by simp [hnone])

theorem lockOk_move (h : LockOk s) (hmove : Move env c s s') : LockOk s' := by
  cases hmove with
  | take sid htake => exact lockOk_take h htake
  | work s' sid hheld hwork =>
    exact h.of_sameLock (sameLock_of_eq hwork.sameOutside.storeLocked hwork.sameOutside.sessions)
  | commit sid hheld => exact lockOk_commit h hheld
  | addWatchedKey sid key =>
    exact h.of_sameLock (rewatches_addKey key).toSameLock
  | removeWatchedKey sid key =>
    exact h.of_sameLock (rewatches_removeKey key).toSameLock
  | addWatchedPattern sid pattern =>
    exact h.of_sameLock (rewatches_addPattern env pattern).toSameLock
  | removeWatchedPattern sid pattern =>
    exact h.of_sameLock (rewatches_dropPattern pattern).toSameLock
  | copyNotifiedKeys sid => exact h.of_sameLock (sameLock_copyKeys s sid)
  | notifyCancel sid => exact h.of_sameLock (sameLock_cancel s sid)
  | configopen sid uid own =>
    unfold configopen
    cases hsession : s.sessions sid with
    | some session => exact h
    | none =>
      refine lockOk_update h _ ?_ (fun x hx => ?_) rfl rfl
      · unfold isLocked
        rw [hsession]
      · exact some.inj hx ▸ rfl
  | removeSession sid hkeys hpatterns hlock hpending =>
    refine lockOk_update h none ?_ (fun x hx => by cases hx) rfl rfl
    rw [Bool.eq_false_iff]
    exact fun hl => hlock ⟨h.taken sid hl, hl⟩
  | pushNotifications => exact h.of_sameLock (sameLock_of_eq rfl rfl)
  | saved saved => exact h.of_sameLock (sameLock_of_eq rfl rfl)
  | fault sid hsession hinfo => exact h.of_sameLock (sameLock_of_eq rfl rfl)

theorem lockOk_moves (h : LockOk s) (hmoves : Moves env c s s') : LockOk s' :=
  invariant_of_reach (fun _ _ h hmove => lockOk_move h hmove) h hmoves

/-- The discipline is kept by every turn, the death of the holder included. -/
theorem lockOk_step (h : LockOk s) (i : Input K P D) : LockOk (step env s i) := by
  by_cases habort : NoAbort s i
  · exact lockOk_moves h (moves_step (c := False) i False.elim habort)
  · cases i with
    | opens sid uid own => exact absurd trivial habort
    | request sid r => exact absurd trivial habort
    | dies sid =>
      -- the copies are put back, and the session is closed by moves
      have hheld : s.Holder sid := not_not.mp habort
      obtain ⟨session, hsession, hlocked⟩ := isLocked_iff.mp hheld.2
      have hswap : LockOk s.swap := h.of_sameLock (sameLock_of_eq rfl rfl)
      have hmoves : Moves env False s.swap ((s.swap.close sid).removeSession sid) :=
        moves_removeSession (by simp [swap, hsession])
      have hserve : serve env s (.dies sid) = (s.swap.close sid).removeSession sid := by
        change s.cleanupSession sid = _
        unfold cleanupSession
        rw [hsession]
        simp [hheld.1, hlocked]
      have hclosed := lockOk_moves hswap hmoves
      rw [← hserve] at hclosed
      exact hclosed.of_sameLock (sameLock_of_eq rfl rfl)

theorem lockOk_of_reachable {allowed : State K P D → Input K P D → Prop}
    (h : Reachable env allowed s) : LockOk s :=
  invariant_of_reach (fun _ _ hs ⟨i, _, hs'⟩ => hs' ▸ lockOk_step hs i) lockOk_initial h

theorem Blocked.transacts (h : Blocked s sid) (ht : Transacts sid s s') : s' = s := by
  cases ht with
  | refused => rfl
  | held s' hheld => exact absurd hheld h.1
  | taken s' htake => exact absurd htake h.2

theorem rewatches_setKeys (keys : List K) (patterns : List P) :
    Rewatches sid s (s.setNotificationKeys env sid keys patterns).2 := by
  unfold setNotificationKeys
  cases s.sessions sid with
  | none => exact .refl sid s
  | some session =>
    refine foldl_andThen patterns (Q := Rewatches sid s) (fun p _ _ s' h => h.trans ?_)
      (foldl_andThen _ (fun p _ _ s' h => h.trans ?_)
        (foldl_andThen keys (fun key _ _ s' h => h.trans ?_)
          (foldl_andThen _ (fun key _ _ s' h => h.trans ?_) (.refl sid s))))
    · exact rewatches_addPattern env p
    · exact rewatches_dropPattern p
    · exact rewatches_addKey key
    · exact rewatches_removeKey key

theorem Blocked.removeSessionKeys (h : Blocked s sid) (keys : List K) :
    s.removeSessionKeys sid keys = s :=
  removeKeys_of_refused h.1 h.2 keys

theorem Blocked.closeSessionKeys (h : Blocked s sid) :
    ∃ fault, s.closeSessionKeys sid = { s with fault := fault } := by
  unfold State.closeSessionKeys
  cases s.sessionData sid with
  | none => exact ⟨true, rfl⟩
  | some info =>
    refine ⟨s.fault, ?_⟩
    have hswap : Blocked s.swap sid := h.of_sameLock (sameLock_of_eq rfl rfl)
    dsimp only
    split_ifs with hkeys hlocked
    · rfl
    · rw [h.removeSessionKeys, hswap.removeSessionKeys]
      rfl
    · rw [(lock_of_refused (by simp) h.2).2, h.removeSessionKeys]

theorem Blocked.close (h : Blocked s sid) : LeavesData s (s.close sid) := by
  obtain ⟨hsame₁, -, -⟩ := s.removeAllKeys_spec sid
  obtain ⟨hsame₂, -, -⟩ := (s.removeAllKeys sid).removePatterns_spec sid
  set s₂ := (s.removeAllKeys sid).removeAllPatterns sid with hs₂
  have hsame := hsame₁.trans hsame₂
  have hcancel := sameLock_cancel s₂ sid
  have htables : (s₂.notifyCancel sid).2.tables = s₂.tables := by
    unfold notifyCancel
    cases s₂.sessions sid <;> rfl
  set s₃ := (s₂.notifyCancel sid).2 with hs₃
  have h₃ : Blocked s₃ sid := (h.of_sameLock hsame.toSameLock).of_sameLock hcancel
  obtain ⟨fault, hfault⟩ := h₃.closeSessionKeys
  have h₄ : ¬ (s₃.closeSessionKeys sid).Holder sid := by
    rw [hfault]
    exact h₃.1
  have hclose : s.close sid = { s₃ with fault := fault } := by
    change (if (s₃.closeSessionKeys sid).isLocked sid then
      ((s₃.closeSessionKeys sid).unlock sid false).2 else s₃.closeSessionKeys sid) = _
    rw [unlock_of_other h₄, ite_self, hfault]
  rw [hclose]
  refine ⟨(hsame.toSameLock.trans hcancel).trans (sameLock_of_eq rfl rfl), fun k => ?_⟩
  rw [htables, hsame.data.data]

/-! ### Requests -/

/-- The requests that are not about the lock itself and do not end the session. -/
def Request.keepsLock : Request K P D → Bool
  | .close | .lock | .unlock => false
  | _ => true

variable (env s sid) in
/-- What changes data is a transaction, all other requests leave the data. -/
theorem transacts_or_leaves (r : Request K P D) (hr : r.keepsLock = true) :
    Transacts sid s (handle env sid s r).2 ∨ LeavesData s (handle env sid s r).2 := by
  cases r with
  | close => cases hr
  | lock => cases hr
  | unlock => cases hr
  | set | add | addSession | remove | touch | notify | setMultiple =>
    exact .inl (transacts_handle env s sid _ rfl)
  | notifyAddKey key => exact .inr (leavesData_of (rewatches_addKey key))
  | notifyAddPattern pattern =>
    exact .inr (leavesData_of (rewatches_addPattern env pattern))
  | notifyRemoveKey key =>
    exact .inr (leavesData_of (rewatches_removeKey key))
  | notifyRemovePattern pattern =>
    exact .inr (leavesData_of (rewatches_dropPattern pattern))
  | notifySet keys patterns =>
    exact .inr (leavesData_of (rewatches_setKeys keys patterns))
  | notifyChanges =>
    obtain ⟨_, _, heq⟩ := notifiedKeys_eq s sid
    exact .inr (heq.symm ▸ ⟨sameLock_of_eq rfl rfl, fun _ => rfl⟩ :
      LeavesData s (s.copyNotifiedKeys sid).2)
  | notifyCancel =>
    obtain ⟨_, -, heq⟩ := notifyCancel_eq s sid
    exact .inr (heq.symm ▸ ⟨sameLock_of_eq rfl rfl, fun _ => rfl⟩ :
      LeavesData s (s.notifyCancel sid).2)

theorem LockOk.sameLock_of_transacts (h : LockOk s) (ht : Transacts sid s s') :
    s'.storeLocked = s.storeLocked ∧ ∀ sid', s'.isLocked sid' = s.isLocked sid' := by
  cases ht with
  | refused => exact ⟨rfl, fun _ => rfl⟩
  | held s' hheld hwork =>
    have hsame := hwork.sameOutside
    exact ⟨hsame.storeLocked, (sameLock_of_eq hsame.storeLocked hsame.sessions).isLocked⟩
  | taken s' htake hwork =>
    have hsame := hwork.sameOutside
    have hnone : ∀ sid', s.isLocked sid' = false := fun sid' => by
      rw [Bool.eq_false_iff]
      exact fun hl => absurd (h.taken sid' hl) (by rw [htake.1]; exact lt_irrefl 0)
    refine ⟨htake.1.symm, fun sid' => ?_⟩
    refine (isLocked_modify s' sid sid' false).trans ?_
    rw [hnone]
    split_ifs with heq
    · rfl
    · have hlocked : s'.isLocked sid' = (s.take sid).isLocked sid' := by
        unfold isLocked
        rw [hsame.sessions]
      rw [hlocked]
      refine (isLocked_modify s sid sid' true).trans ?_
      rw [if_neg heq, hnone]

theorem LockOk.handle_of_blocked (h : LockOk s) (hblocked : Blocked s sid) (r : Request K P D) :
    (∀ k, ((handle env sid s r).2.tables.entry k).data = (s.tables.entry k).data) ∧
      (handle env sid s r).2.isLocked sid = false := by
  have hfree : s.isLocked sid = false := by
    rw [Bool.eq_false_iff]
    exact fun hl => hblocked.1 ⟨h.taken sid hl, hl⟩
  cases hkeeps : r.keepsLock with
  | true =>
    rcases transacts_or_leaves env s sid r hkeeps with ht | hl
    · rw [hblocked.transacts ht]
      exact ⟨fun _ => rfl, hfree⟩
    · exact ⟨hl.data, (hl.isLocked sid).trans hfree⟩
  | false =>
    cases r with
    | close =>
      change (∀ k, ((s.configclose sid).2.tables.entry k).data = _) ∧
        (s.configclose sid).2.isLocked sid = false
      unfold configclose
      cases hsession : s.sessions sid with
      | none => exact ⟨fun _ => rfl, hfree⟩
      | some session =>
        exact ⟨fun k => hblocked.close.data k, isLocked_remove⟩
    | lock =>
      have hsame : (s.lock sid false).2 = s := (lock_of_refused (by simp) hblocked.2).2
      change (∀ k, ((s.lock sid false).2.tables.entry k).data = _) ∧
        (s.lock sid false).2.isLocked sid = false
      rw [hsame]
      exact ⟨fun _ => rfl, hfree⟩
    | unlock =>
      have hsame : (s.unlock sid false).2 = s := unlock_of_other hblocked.1
      change (∀ k, ((s.unlock sid false).2.tables.entry k).data = _) ∧
        (s.unlock sid false).2.isLocked sid = false
      rw [hsame]
      exact ⟨fun _ => rfl, hfree⟩
    | _ => cases hkeeps

theorem isLocked_closeKeys (hne : sid' ≠ sid) :
    (s.closeSessionKeys sid).isLocked sid' = s.isLocked sid' := by
  rcases closeKeys_eq s sid with ⟨_, _, _, heq⟩ | ⟨_, heq⟩
  · exact heq ▸ rfl
  · rw [heq]
    refine (isLocked_modify s sid sid' true).trans ?_
    rw [if_neg hne]

theorem isLocked_close (hne : sid' ≠ sid) : (s.close sid).isLocked sid' = s.isLocked sid' := by
  obtain ⟨hsame₁, -, -⟩ := s.removeAllKeys_spec sid
  obtain ⟨hsame₂, -, -⟩ := (s.removeAllKeys sid).removePatterns_spec sid
  have hcancel := sameLock_cancel ((s.removeAllKeys sid).removeAllPatterns sid) sid
  set s₃ := (((s.removeAllKeys sid).removeAllPatterns sid).notifyCancel sid).2 with hs₃
  have hsame : s₃.isLocked sid' = s.isLocked sid' :=
    ((hsame₁.trans hsame₂).toSameLock.trans hcancel).isLocked sid'
  have hclose : s.close sid = if (s₃.closeSessionKeys sid).isLocked sid then
      ((s₃.closeSessionKeys sid).unlock sid false).2 else s₃.closeSessionKeys sid := rfl
  rw [← hsame, ← isLocked_closeKeys (s := s₃) hne, hclose]
  split_ifs with hlocked
  · by_cases hheld : (s₃.closeSessionKeys sid).Holder sid
    · rw [unlock_of_once hheld (by simp)]
      refine (isLocked_modify _ sid sid' false).trans ?_
      rw [if_neg hne]
    · rw [unlock_of_other hheld]
  · rfl

/-- In every state between two turns of a run, with any inputs, the lock is
disciplined. It is so again when a request returns: a request that is not
about the lock leaves it where it was, and one that closes a session leaves
that session without it and all others as they were. A request of a session
that does not hold a lock that is taken, or is not root, changes no data and
does not take the lock. -/
theorem lock_discipline (h : Reachable env (fun _ _ => True) s) : Disciplined s ∧ ∀ sid r,
      Disciplined (handle env sid s r).2 ∧
      (r.keepsLock = true → (handle env sid s r).2.storeLocked = s.storeLocked ∧
        ∀ sid', (handle env sid s r).2.isLocked sid' = s.isLocked sid') ∧
      (r = .close → (handle env sid s r).2.isLocked sid = false ∧
        ∀ sid', sid' ≠ sid → (handle env sid s r).2.isLocked sid' = s.isLocked sid') ∧
      ((0 < s.storeLocked ∧ s.isLocked sid = false) ∨
          (∃ session, s.sessions sid = some session ∧ session.callerEUID ≠ 0) →
        (∀ k, ((handle env sid s r).2.tables.entry k).data = (s.tables.entry k).data) ∧
          (handle env sid s r).2.isLocked sid = false) := by
  have hok := lockOk_of_reachable h
  refine ⟨hok.disciplined, fun sid r => ⟨?_, fun hkeeps => ?_, ?_, fun hout =>
    hok.handle_of_blocked (hok.blocked hout) r⟩⟩
  · exact (lockOk_moves hok (moves_handle (c := False) r False.elim)).disciplined
  · rcases transacts_or_leaves env s sid r hkeeps with ht | hl
    · exact hok.sameLock_of_transacts ht
    · exact ⟨hl.storeLocked, hl.isLocked⟩
  · rintro rfl
    change (s.configclose sid).2.isLocked sid = false ∧
      ∀ sid', sid' ≠ sid → (s.configclose sid).2.isLocked sid' = s.isLocked sid'
    unfold configclose
    cases hsession : s.sessions sid with
    | none =>
      refine ⟨?_, fun _ _ => rfl⟩
      unfold isLocked
      rw [hsession]
    | some session =>
      exact ⟨isLocked_remove, fun sid' hne =>
        (isLocked_remove_of_ne hne).trans (isLocked_close hne)⟩

/-- A session of root has opened and taken the lock. -/
theorem lock_discipline_held : Reachable sampleEnv (fun _ _ => True)
        (step sampleEnv (step sampleEnv .initial (.opens 7 0 false)) (.request 7 .lock)) ∧
      Disciplined (step sampleEnv (step sampleEnv .initial (.opens 7 0 false)) (.request 7 .lock)) ∧
      0 < (step sampleEnv (step sampleEnv .initial (.opens 7 0 false))
        (.request 7 .lock)).storeLocked := by
  have hreach : Reachable sampleEnv (fun _ _ => True)
      (step sampleEnv (step sampleEnv .initial (.opens 7 0 false)) (.request 7 .lock)) :=
    (Reachable.step (Reachable.step .refl trivial) trivial)
  exact ⟨hreach, (lock_discipline hreach).1, by decide⟩

end Hexley.Configd
