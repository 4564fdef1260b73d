import Mathlib.Data.List.Nodup
import Mathlib.Data.List.TakeWhile
import Mathlib.Logic.Function.Basic
import Mathlib.Tactic.Common

/-!
Delivery of events to a list of questions that the receivers change.

`CacheRecordAdd`, `CacheRecordDeferredAdd` and `CacheRecordRmv` walk along
the list of questions up to `NewQuestions` and call the client of every
question that the record answers. A client may stop and start questions.
The place of the walk is kept in `CurrentQuestion`, and
`mDNS_StopQuery_internal` moves it on when the question there is stopped.

Behind a call the walk goes on by one question if `CurrentQuestion` still
is the question of the call. A question that was stopped and started again
has the same address, so it can be met there once more, behind the end of
the walk.
-/

namespace Hexley.Mdns

open List

/-! ### The list of questions -/

/-- The questions by address, the two pointers into their list, and the questions that the
record answers. -/
structure Questions where
  list : List ℕ
  currentQuestion : Option ℕ
  newQuestions : Option ℕ
  answers : ℕ → Bool

def nextIn (l : List ℕ) (q : ℕ) : Option ℕ := (l.dropWhile (· ≠ q)).tail.head?

variable (loop : Loop) (clients : ℕ → ℕ → Callback) (s : Questions) (q : ℕ)

/-- `mDNS_StopQuery_internal`. A question that is not in the list is an error. -/
def Questions.stop : Questions :=
  if q ∈ s.list then
    { s with
      list := s.list.erase q
      currentQuestion :=
        if s.currentQuestion = some q then nextIn s.list q else s.currentQuestion
      newQuestions := if s.newQuestions = some q then nextIn s.list q else s.newQuestions }
  else s

/-- `mDNS_StartQuery_internal`. A question that is in the list already is an error. -/
def Questions.start (answers : Bool) : Questions :=
  if q ∈ s.list then s
  else
    { s with
      list := s.list ++ [q]
      newQuestions := if s.newQuestions = none then some q else s.newQuestions
      answers := Function.update s.answers q answers }

/-- What a client does. A question that is started is one that the record answers, or not. The
calls for cached records, by address, do nothing to the questions. -/
inductive Op
  | stop (q : ℕ)
  | start (q : ℕ) (answers : Bool)
  | reconfirm (r : ℕ) (interval : UInt32)
  | purge (r : ℕ)

def Questions.apply : Op → Questions
  | .stop q => s.stop q
  | .start q answers => s.start q answers
  | .reconfirm _ _ => s
  | .purge _ => s

/-- A call of a client, and whether a CNAME referral is followed behind it. The question is
then started again under another name. -/
structure Callback where
  ops : List Op
  referral : Option Bool

/-- `AnswerCurrentQuestionWithResourceRecord`. -/
def Questions.answer (c : Callback) (q : ℕ) : Questions :=
  let s := c.ops.foldl Questions.apply s
  match c.referral with
  | some answers => if s.currentQuestion = some q then (s.stop q).start q answers else s
  | none => s

def Questions.advance : Questions :=
  if s.currentQuestion = some q then { s with currentQuestion := nextIn s.list q } else s

/-- The loop, with the number of calls so far. It gives the questions that were called, in
order. -/
def deliverFrom (clients : ℕ → ℕ → Callback) : ℕ → ℕ → Questions → Option (List ℕ)
  | fuel, k, s =>
    match s.currentQuestion with
    | none => some []
    | some q =>
      if s.newQuestions = some q then some []
      else
        match fuel with
        | 0 => none
        | fuel + 1 =>
          if s.answers q then
            (deliverFrom clients fuel (k + 1) ((s.answer (clients k q) q).advance q)).map (q :: ·)
          else deliverFrom clients fuel k (s.advance q)

inductive Loop
  /-- `CacheRecordAdd`, with `rr->DelayDelivery`. -/
  | add (delayDelivery : Int32)
  /-- `CacheRecordDeferredAdd`. -/
  | deferredAdd
  /-- `CacheRecordRmv`, with `rr->resrec.rdata->MaxRDLength`, which is zero for a negative
  answer. -/
  | rmv (maxRDLength : UInt16)

def Loop.active : Loop → Bool
  | .add delayDelivery => delayDelivery = 0
  | .deferredAdd => true
  | .rmv maxRDLength => maxRDLength ≠ 0

/-- The questions that get the event. The walk has as many turns as there are questions. One
without events delivers what none at all does. -/
def Loop.deliver : Option (List ℕ) :=
  deliverFrom clients s.list.length 0 { s with
      currentQuestion := s.list.head?
      answers := fun q => loop.active && s.answers q }

/-! ### What is to be delivered -/

def stopsOf : List Op → List ℕ
  | [] => []
  | .stop q :: ops => q :: stopsOf ops
  | _ :: ops => stopsOf ops

/-- Of the questions that are there at first, those that the record answers and that no call
before has stopped, in order. -/
def expected (clients : ℕ → ℕ → Callback) (answers : ℕ → Bool) : List ℕ → ℕ → List ℕ → List ℕ
  | [], _, _ => []
  | q :: qs, k, stopped =>
    if q ∉ stopped ∧ answers q then
      q :: expected clients answers qs (k + 1) (stopped ++ stopsOf (clients k q).ops)
    else expected clients answers qs k stopped

def Questions.old : List ℕ := s.list.takeWhile fun q => s.newQuestions ≠ some q

/-- The pointer to the new questions is null or points into the list. -/
structure Questions.WellFormed (s : Questions) : Prop where
  nodup : s.list.Nodup
  newQuestions : ∀ q, s.newQuestions = some q → q ∈ s.list

/-- The events go to the questions that are to have them. -/
def Delivers : Prop :=
  loop.deliver clients s = some (expected clients (fun q => loop.active && s.answers q) s.old 0 [])

/-! ### The walk -/

/-- The walk has passed `pre`, is to visit `pend`, and ends at `post`. -/
structure Walk (answers : ℕ → Bool) (s : Questions) (pre pend post : List ℕ) : Prop where
  list : s.list = pre ++ (pend ++ post)
  nodup : s.list.Nodup
  new : s.newQuestions = post.head?
  current : pend ≠ [] → s.currentQuestion = pend.head?
  done : pend = [] → s.currentQuestion = none ∨ s.currentQuestion = s.newQuestions
  answers : ∀ q ∈ pend, s.answers q = answers q

section

variable {answers : ℕ → Bool} {s : Questions} {pre pend post : List ℕ} {q : ℕ} {l : List ℕ}

theorem nextIn_append {l₁ l₂ : List ℕ} (h : (l₁ ++ q :: l₂).Nodup) :
    nextIn (l₁ ++ q :: l₂) q = l₂.head? := by
  have hq : ∀ x ∈ l₁, decide (x ≠ q) = true := fun x hx =>
    decide_eq_true ((nodup_append.1 h).2.2 x hx q mem_cons_self)
  rw [nextIn, dropWhile_append_of_pos hq]
  simp

theorem filter_bne_of_notMem (h : q ∉ l) : l.filter (· != q) = l :=
  filter_eq_self.2 fun _ hx => bne_iff_ne.2 fun he => h (he ▸ hx)

theorem filter_bne_cons_self (h : q ∉ l) : (q :: l).filter (· != q) = l := by
  rw [filter_cons_of_neg (by simp), filter_bne_of_notMem h]

section

variable (h : Walk answers s pre pend post)
include h

theorem Walk.stop (q : ℕ) : Walk answers (s.stop q) (pre.filter (· != q)) (pend.filter (· != q))
      (post.filter (· != q)) := by
  have hnodup := h.nodup
  rw [h.list] at hnodup
  obtain ⟨-, hrest, -⟩ := nodup_append.1 hnodup
  obtain ⟨hpend, hpost, hdisj⟩ := nodup_append.1 hrest
  unfold Questions.stop
  split
  · refine ⟨?_, h.nodup.erase q, ?_, ?_, ?_, fun x hx => h.answers x (mem_of_mem_filter hx)⟩
    · rw [h.nodup.erase_eq_filter, h.list, filter_append, filter_append]
    · dsimp only
      rw [h.new]
      cases post with
      | nil => rfl
      | cons y ys =>
        by_cases hy : y = q
        · subst hy
          rw [h.list, ← append_assoc, head?_cons, if_pos rfl, nextIn_append (by rwa [append_assoc]),
            filter_bne_cons_self (nodup_cons.1 hpost).1]
        · rw [head?_cons, if_neg (by simpa using hy), filter_cons_of_pos (by simpa)]
          rfl
    all_goals
      cases pend with
      | nil => ?_
      | cons p ps => ?_
    · exact fun hne => absurd rfl hne
    · intro hne
      rw [h.current (cons_ne_nil p ps), head?_cons]
      by_cases hp : p = q
      · subst hp
        rw [filter_bne_cons_self (nodup_cons.1 hpend).1] at hne ⊢
        rw [cons_append] at hnodup
        rw [if_pos rfl, h.list, cons_append, nextIn_append hnodup, head?_append]
        cases ps with
        | nil => exact absurd rfl hne
        | cons x xs => rfl
      · rw [if_neg (by simpa using hp), filter_cons_of_pos (by simpa)]
        rfl
    · intro _
      rcases h.done rfl with hnone | hnew
      · exact .inl (by rw [hnone]; rfl)
      · exact .inr (by rw [hnew])
    · intro hnil
      have hp : p = q := by
        by_contra hp
        rw [filter_cons_of_pos (by simpa)] at hnil
        exact absurd hnil (cons_ne_nil _ _)
      subst hp
      rw [filter_bne_cons_self (nodup_cons.1 hpend).1] at hnil
      subst hnil
      have hnew : post.head? ≠ some p := fun he =>
        hdisj p mem_cons_self p (mem_of_head? he) rfl
      right
      rw [cons_append] at hnodup
      rw [h.current (cons_ne_nil p []), head?_cons, if_pos rfl, h.list,
        cons_append, nextIn_append hnodup, h.new, if_neg hnew]
      rfl
  · next hq =>
    rw [h.list, mem_append, mem_append, not_or, not_or] at hq
    rwa [filter_bne_of_notMem hq.1, filter_bne_of_notMem hq.2.1, filter_bne_of_notMem hq.2.2]

theorem Walk.start (q : ℕ) (b : Bool) :
    ∃ post', Walk answers (s.start q b) pre pend post' ∧ ∀ x ∈ post', x ∈ post ∨ x = q := by
  unfold Questions.start
  split
  · exact ⟨post, h, fun x => .inl⟩
  · next hq =>
    refine ⟨post ++ [q], ⟨?_, ?_, ?_, h.current, fun hnil => ?_, fun x hx => ?_⟩, by simp⟩
    · simp [h.list]
    · exact nodup_append.2 ⟨h.nodup, nodup_singleton q, fun x hx y hy he =>
        hq (mem_singleton.1 hy ▸ he ▸ hx)⟩
    · rw [h.new]
      cases post <;> rfl
    · rcases h.done hnil with hnone | hnew
      · exact .inl hnone
      · rw [hnew]
        cases s.newQuestions with
        | none => exact .inl rfl
        | some x => exact .inr rfl
    · have hne : x ≠ q := by
        rintro rfl
        exact hq (h.list ▸ mem_append_right _ (mem_append_left _ hx))
      dsimp only
      rw [Function.update_of_ne hne]
      exact h.answers x hx

theorem Walk.ops (ops : List Op) : ∃ pre' post', Walk answers (ops.foldl Questions.apply s) pre'
        (pend.filter (· ∉ stopsOf ops)) post' ∧
      ∀ x ∈ post', x ∈ post ∨ ∃ b, Op.start x b ∈ ops := by
  induction ops generalizing s pre pend post with
  | nil => exact ⟨pre, post, by simpa [stopsOf] using h, fun x => .inl⟩
  | cons op ops ih =>
    cases op with
    | stop q =>
      have hpend : pend.filter (· ∉ stopsOf (.stop q :: ops)) =
          (pend.filter (· != q)).filter (· ∉ stopsOf ops) := by
        rw [filter_filter]
        refine filter_congr fun x _ => ?_
        by_cases hx : x = q <;> simp [stopsOf, hx]
      obtain ⟨pre', post', hwalk, hpost⟩ := ih (h.stop q)
      exact ⟨pre', post', hpend ▸ hwalk, fun x hx => (hpost x hx).imp
        mem_of_mem_filter fun ⟨b, hb⟩ => ⟨b, mem_cons_of_mem _ hb⟩⟩
    | start q b =>
      obtain ⟨post₁, hstart, hpost₁⟩ := h.start q b
      obtain ⟨pre', post', hwalk, hpost⟩ := ih hstart
      refine ⟨pre', post', hwalk, fun x hx => ?_⟩
      rcases hpost x hx with hx | ⟨b', hb'⟩
      · rcases hpost₁ x hx with hx | rfl
        · exact .inl hx
        · exact .inr ⟨b, mem_cons_self⟩
      · exact .inr ⟨b', mem_cons_of_mem _ hb'⟩
    | reconfirm _ _ | purge _ =>
      obtain ⟨pre', post', hwalk, hpost⟩ := ih h
      exact ⟨pre', post', hwalk, fun x hx => (hpost x hx).imp_right
        fun ⟨b, hb⟩ => ⟨b, mem_cons_of_mem _ hb⟩⟩

end

theorem Walk.advance (h : Walk answers s pre (q :: pend) post) :
    Walk answers (s.advance q) (pre ++ [q]) pend post := by
  have hnodup := h.nodup
  rw [h.list, cons_append] at hnodup
  have hnext : nextIn s.list q = (pend ++ post).head? := by
    rw [h.list, cons_append, nextIn_append hnodup]
  have hcurrent : s.currentQuestion = some q := h.current (cons_ne_nil q pend)
  rw [Questions.advance, if_pos hcurrent, hnext]
  refine ⟨by simp [h.list], h.nodup, h.new, fun hne => ?_, fun hnil => .inr ?_,
    (forall_mem_cons.mp h.answers).2⟩
  · cases pend with
    | nil => exact absurd rfl hne
    | cons p ps => rfl
  · subst hnil
    exact h.new.symm

theorem Walk.current_ne (h : Walk answers s pre pend post) (hpend : q ∉ pend) (hpost : q ∉ post) :
    s.currentQuestion ≠ some q := by
  intro hcur
  cases pend with
  | nil =>
    rcases h.done rfl with hnone | hnew
    · exact absurd (hnone.symm.trans hcur) nofun
    · exact hpost (mem_of_head? (h.new.symm.trans (hnew.symm.trans hcur)))
  | cons p ps =>
    exact hpend (mem_of_head? ((h.current (cons_ne_nil p ps)).symm.trans hcur))

/-- A whole turn, in which the client does not start its own question again. -/
theorem Walk.turn (h : Walk answers s pre (q :: pend) post) {c : Callback}
    (hc : ∀ b, Op.start q b ∉ c.ops) : ∃ pre' post', Walk answers ((s.answer c q).advance q) pre'
      (pend.filter (· ∉ stopsOf c.ops)) post' := by
  have hnodup := h.nodup
  rw [h.list, nodup_append, cons_append, nodup_cons, mem_append, not_or] at hnodup
  obtain ⟨pre', post', hwalk, hpost⟩ := h.ops c.ops
  have hq : q ∉ post' := fun hmem => (hpost q hmem).elim hnodup.2.1.1.2 fun ⟨b, hb⟩ => hc b hb
  have hrest : q ∉ pend.filter (· ∉ stopsOf c.ops) := fun hmem =>
    hnodup.2.1.1.1 (mem_of_mem_filter hmem)
  unfold Questions.answer
  generalize c.ops.foldl Questions.apply s = t at hwalk ⊢
  by_cases hstopped : q ∈ stopsOf c.ops
  · -- the question was stopped, and the walk is not at a question of its address
    rw [filter_cons_of_neg (by simpa)] at hwalk
    have hcurrent := hwalk.current_ne hrest hq
    have hsame : (match c.referral with
        | some answers => if t.currentQuestion = some q then (t.stop q).start q answers else t
        | none => t) = t := by
      cases c.referral with
      | none => rfl
      | some b => exact if_neg hcurrent
    rw [hsame, Questions.advance, if_neg hcurrent]
    exact ⟨pre', post', hwalk⟩
  · rw [filter_cons_of_pos (by simpa)] at hwalk
    cases c.referral with
    | none => exact ⟨_, _, hwalk.advance⟩
    | some b =>
      -- the referral stops the question at the walk and starts it behind the end
      have hcurrent : t.currentQuestion = some q := hwalk.current (cons_ne_nil q _)
      dsimp only
      rw [if_pos hcurrent]
      have hstop := hwalk.stop q
      rw [filter_bne_cons_self hrest] at hstop
      obtain ⟨post'', hstart, -⟩ := hstop.start q b
      have hmoved : ((t.stop q).start q b).currentQuestion ≠ some q := by
        have hsame : ((t.stop q).start q b).currentQuestion = (t.stop q).currentQuestion := by
          unfold Questions.start
          split <;> rfl
        rw [hsame]
        exact hstop.current_ne hrest (by simp)
      rw [Questions.advance, if_neg hmoved]
      exact ⟨_, _, hstart⟩

theorem deliverFrom_eq {clients : ℕ → ℕ → Callback}
    (hclients : ∀ k q b, Op.start q b ∉ (clients k q).ops) (qs : List ℕ) {stopped : List ℕ}
    {fuel k : ℕ} (h : Walk answers s pre (qs.filter (· ∉ stopped)) post)
    (hfuel : qs.length ≤ fuel) :
    deliverFrom clients fuel k s = some (expected clients answers qs k stopped) := by
  induction qs generalizing s pre post stopped fuel k with
  | nil =>
    unfold deliverFrom
    rcases h.done rfl with hnone | hnew
    · rw [hnone]
      rfl
    · rw [hnew]
      cases s.newQuestions <;> simp [expected]
  | cons q qs ih =>
    rw [length_cons] at hfuel
    by_cases hq : q ∈ stopped
    · rw [filter_cons_of_neg (by simpa)] at h
      rw [expected, if_neg fun hand => hand.1 hq]
      exact ih h (by omega)
    · rcases fuel with _ | fuel
      · omega
      rw [filter_cons_of_pos (by simpa)] at h
      have hcurrent : s.currentQuestion = some q := h.current (cons_ne_nil q _)
      have hnew : s.newQuestions ≠ some q := by
        have hnodup := h.nodup
        rw [h.list, nodup_append, cons_append, nodup_cons, mem_append, not_or] at hnodup
        rw [h.new]
        exact fun he => hnodup.2.1.1.2 (mem_of_head? he)
      rw [deliverFrom, hcurrent]
      dsimp only
      rw [if_neg hnew, h.answers q mem_cons_self, expected]
      by_cases hans : answers q
      · obtain ⟨pre', post', hwalk⟩ := h.turn (hclients k q)
        rw [filter_filter] at hwalk
        have hfilter : qs.filter (· ∉ stopped ++ stopsOf (clients k q).ops) =
            qs.filter fun x => decide (x ∉ stopsOf (clients k q).ops) && decide (x ∉ stopped) :=
          filter_congr fun x _ => by simp [Bool.and_comm]
        rw [if_pos hans, if_pos ⟨hq, hans⟩, ih (hfilter ▸ hwalk) (by omega)]
        rfl
      · rw [if_neg hans, if_neg fun hand => hans hand.2]
        exact ih h.advance (by omega)

end

theorem Questions.WellFormed.exists_new {s : Questions} (h : s.WellFormed) :
    ∃ post, s.list = s.old ++ post ∧ s.newQuestions = post.head? := by
  refine ⟨s.list.dropWhile fun q => s.newQuestions ≠ some q, takeWhile_append_dropWhile.symm, ?_⟩
  cases hdrop : s.list.dropWhile fun q => s.newQuestions ≠ some q with
  | nil =>
    refine Option.eq_none_iff_forall_ne_some.2 fun q hq => ?_
    exact of_decide_eq_true (dropWhile_eq_nil_iff.1 hdrop q (h.newQuestions q hq)) hq
  | cons q qs =>
    have hhead := head?_dropWhile_not (fun q => decide (s.newQuestions ≠ some q)) s.list
    rw [hdrop] at hhead
    exact not_not.1 (of_decide_eq_false hhead)

/-- If no client starts the question again that it is called for, each event goes to the
questions that are to have it, once and in order. -/
theorem delivers_of_clients
    (hs : s.WellFormed) (hclients : ∀ k q b, Op.start q b ∉ (clients k q).ops) :
    Delivers loop clients s := by
  obtain ⟨post, hlist, hnew⟩ := hs.exists_new
  have hfilter : s.old.filter (· ∉ ([] : List ℕ)) = s.old := by simp
  have hwalk : Walk (fun q => loop.active && s.answers q) { s with
        currentQuestion := s.list.head?
        answers := fun q => loop.active && s.answers q } [] (s.old.filter (· ∉ ([] : List ℕ)))
      post := by
    rw [hfilter]
    refine ⟨hlist, hs.nodup, hnew, fun hne => ?_, fun hnil => .inr ?_, fun q _ => rfl⟩
    · rw [hlist, head?_append_of_ne_nil _ hne]
    · rw [hlist, hnil, hnew]
      rfl
  refine deliverFrom_eq hclients s.old hwalk ?_
  rw [hlist, length_append]
  exact Nat.le_add_right _ _

/-- A client of three questions that stops its own question and starts another one. -/
theorem delivers_of_clients_stopping :
    Delivers .deferredAdd (fun _ q => ⟨[.stop q, .start (q + 3) true], none⟩)
      ⟨[0, 1, 2], none, some 2, fun _ => true⟩ :=
  delivers_of_clients _ _ _ ⟨by decide, by decide⟩ (by simp)

/-- The first of two questions is stopped and started again by its client, the second is stopped,
and a third is started. It gets the event that the first got, as the walk is taken past the first
one, which is behind the end of the walk now. -/
theorem not_delivers_restarted : ¬Delivers .deferredAdd
      (fun _ q => ⟨if q = 0 then [.stop 0, .start 0 true, .stop 1, .start 2 true] else [], none⟩)
      ⟨[0, 1], none, none, fun _ => true⟩ := by
  unfold Delivers
  decide

end Hexley.Mdns
