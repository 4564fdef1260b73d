import Hexley.IOKit.QueueLayout
import Hexley.Lib.Machine

/-!
Every interleaving of a producer and a consumer.

What holds in every state has three parts. `Core` is about the queue and
what happened: the entries that were put in and not taken out lie in the
queue, and the consumer has got the others. `ProducerOk` and `ConsumerOk`
say what each program may rely on at its next access. The producer works
with a head that may be old, and relies on the head not having gone back
behind it (`Saw`). The consumer relies on the first entry being where it has
found it. Neither is disturbed by what the other does.

All of this needs the sum of the tail and the size of a new entry to be a
32-bit number. If it is not, an entry that does not fit is taken for one
that does.
-/

namespace Hexley.IOKit

open Lib List Option

structure Got.IsOf (g : Got) (b : Entry) : Prop where
  size : g.size = b.length
  data : ∀ d, g.data = some d → d = b

structure Core (e : Endian) (q : Queue) (accepted : List Entry) (taken : List Got)
    (foundEmpty : List ℕ) (returned : List (ℕ × Bool)) : Prop where
  size : q.queueSize < 2 ^ 32
  taken_le : taken.length ≤ accepted.length
  order : ∀ (i : ℕ) (g : Got) (b : Entry), taken[i]? = some g → accepted[i]? = some b → g.IsOf b
  stored : Stored e q (accepted.drop taken.length)
  /-- When the queue was found empty, all entries had been taken out. -/
  empty : ∀ k ∈ foundEmpty, k ≤ taken.length
  returned_lt : ∀ x ∈ returned, x.1 < accepted.length
  /-- No notification was sent for an entry only if it had been taken out. -/
  silent : ∀ k ∈ foundEmpty, (k, false) ∈ returned → k < taken.length

/-- An entry that may be put in: it fits in the queue, and its size can be added to the tail. -/
structure CallOk (q : Queue) (data : Entry) : Prop where
  fits : headerSize + data.length ≤ q.queueSize
  lt : q.tail + (headerSize + data.length) < 2 ^ 32

structure Saw (q : Queue) (head : ℕ) : Prop where
  flat : head ≤ q.tail → q.head ≤ q.tail ∧ head ≤ q.head
  wrapped : q.tail < head → q.tail < q.head → head ≤ q.head
  le : head ≤ q.queueSize

def Chosen (q : Queue) (l : Enqueue) (n : ℕ) : Prop :=
  match l.place with
  | .atTail => (l.head ≤ q.tail → q.tail + n ≤ q.queueSize) ∧
    (q.tail < l.head → q.tail + n < l.head)
  | .atStart => l.head ≤ q.tail ∧ q.queueSize < q.tail + n ∧ n < l.head

structure LocalsOk (q : Queue) (l : Enqueue) : Prop where
  call : CallOk q l.data
  saw : Saw q l.head
  tail : l.tail = q.tail
  chosen : Chosen q l (headerSize + l.data.length)

def ProducerOk (e : Endian) (q : Queue) (accepted taken : ℕ) (foundEmpty : List ℕ) : Producer → Prop
  | .idle => True
  | .notify index => index < accepted
  | .readHead data => CallOk q data
  | .readTail data head => CallOk q data ∧ Saw q head
  | .writeData l => LocalsOk q l
  | .writeSize l => LocalsOk q l ∧ q.queue.Holds (l.entry + headerSize) l.data
  | .writeMark l => LocalsOk q l ∧ l.place = .atStart ∧ q.queue.Holds l.entry (encode e l.data)
  | .readTailAgain l =>
    LocalsOk q l ∧ l.place = .atTail ∧ q.queue.Holds l.entry (encode e l.data)
  | .writeTail l newTail =>
    LocalsOk q l ∧ q.queue.Holds l.entry (encode e l.data) ∧
      newTail = l.entry + (headerSize + l.data.length) ∧
      (l.place = .atStart → q.tail + headerSize ≤ q.queueSize →
        q.queue.Holds q.tail (e.bytes headerSize l.data.length))
  | .readHeadAgain tail index =>
    index < accepted ∧ (index ∈ foundEmpty → index < taken ∨ q.head = tail ∧ taken = index)

/-- What the consumer relies on, where `pending` are the entries that are waiting. -/
def ConsumerOk (q : Queue) (pending : List Entry) : Consumer → Prop
  | .idle | .readHead _ => True
  | .readTail _ head => head = q.head
  | .readHeadOffset _ => pending ≠ []
  | .readHeadSize _ headOffset => headOffset = q.head ∧ pending ≠ []
  | .readEntrySize _ entry => ∃ b, pending.head? = some b ∧ entry = q.first b
  | .readData entry entrySize newHeadOffset =>
    ∃ b, pending.head? = some b ∧ entry = q.first b ∧ entrySize = b.length ∧
      newHeadOffset = q.first b + (headerSize + b.length)
  | .writeHead newHeadOffset got =>
    ∃ b, pending.head? = some b ∧ newHeadOffset = q.first b + (headerSize + b.length) ∧ got.IsOf b

structure Inv (e : Endian) (s : State) : Prop where
  core : Core e s.q s.accepted s.taken s.foundEmpty s.returned
  producer : ProducerOk e s.q s.accepted.length s.taken.length s.foundEmpty s.producer
  consumer : ConsumerOk s.q (s.accepted.drop s.taken.length) s.consumer

theorem add32_eq {a b : ℕ} (h : a + b < 2 ^ 32) : add32 a b = a + b := Nat.mod_eq_of_lt h

theorem sub32_eq {a b : ℕ} (h : b ≤ a) (ha : a < 2 ^ 32) : sub32 a b = a - b := by
  rw [sub32, show a + 2 ^ 32 - b = a - b + 2 ^ 32 by omega, Nat.add_mod_right,
    Nat.mod_eq_of_lt (by omega)]

/-! ### The consumer -/

variable {e : Endian} {s : State} {q : Queue} {pending accepted : List Entry} {foundEmpty : List ℕ}
  {taken : List Got} {returned : List (ℕ × Bool)}

section Consumer

variable {b : Entry}

theorem Saw.pop {head : ℕ} (h : Saw q head) (hstored : Stored e q (b :: pending)) :
    Saw { q with head := q.first b + (headerSize + b.length) } head := by
  obtain ⟨hflat, hwrapped⟩ := hstored.first_add
  refine ⟨fun hle => ?_, fun hlt hlt' => ?_, h.le⟩
  · obtain ⟨hhead, hle'⟩ := h.flat hle
    obtain ⟨hforth, hback⟩ := hflat hhead
    exact ⟨hback, hle'.trans hforth⟩
  · dsimp only at hlt hlt' ⊢
    rcases lt_or_ge q.tail q.head with hq | hq
    · have := h.wrapped hlt hq
      omega
    · omega

theorem LocalsOk.pop {l : Enqueue} (h : LocalsOk q l) (hstored : Stored e q (b :: pending)) :
    LocalsOk { q with head := q.first b + (headerSize + b.length) } l :=
  ⟨⟨h.call.fits, h.call.lt⟩, h.saw.pop hstored, h.tail, h.chosen⟩

theorem ProducerOk.pop {accepted taken : ℕ} {p : Producer}
    (h : ProducerOk e q accepted taken foundEmpty p) (hstored : Stored e q (b :: pending)) :
    ProducerOk e { q with head := q.first b + (headerSize + b.length) } accepted (taken + 1)
      foundEmpty p := by
  cases p with
  | idle => trivial
  | notify => exact h
  | readHead data => exact ⟨h.fits, h.lt⟩
  | readTail data head => exact ⟨⟨h.1.fits, h.1.lt⟩, h.2.pop hstored⟩
  | writeData l => exact LocalsOk.pop h hstored
  | writeSize l => exact ⟨h.1.pop hstored, h.2⟩
  | writeMark l => exact ⟨h.1.pop hstored, h.2⟩
  | readTailAgain l => exact ⟨h.1.pop hstored, h.2⟩
  | writeTail l newTail => exact ⟨h.1.pop hstored, h.2⟩
  | readHeadAgain tail index =>
    refine ⟨h.1, fun hmem => .inl ?_⟩
    have := h.2 hmem
    omega

theorem Core.exists_stored (h : Core e q accepted taken foundEmpty returned)
    (hhead : (accepted.drop taken.length).head? = some b) :
    ∃ rest, accepted.drop taken.length = b :: rest ∧ Stored e q (b :: rest) := by
  obtain ⟨rest, hdrop⟩ := head?_eq_some_iff.mp hhead
  exact ⟨rest, hdrop, hdrop ▸ h.stored⟩

theorem Core.pop {got : Got} (h : Core e q accepted taken foundEmpty returned)
    (hhead : (accepted.drop taken.length).head? = some b) (hgot : got.IsOf b) :
    Core e { q with head := q.first b + (headerSize + b.length) } accepted (taken ++ [got])
      foundEmpty returned := by
  obtain ⟨pending, hdrop, hstored⟩ := h.exists_stored hhead
  have hb : accepted[taken.length]? = some b := head?_drop.symm.trans hhead
  have hrest : accepted.drop (taken.length + 1) = pending := by
    rw [← drop_drop, hdrop]
    rfl
  refine ⟨h.size, ?_, ?_, ?_, ?_, ?_, ?_⟩
  · rw [length_append, length_singleton]
    exact (List.getElem?_eq_some_iff.mp hb).1
  · intro i g c hg hc
    rcases lt_trichotomy i taken.length with hi | rfl | hi
    · rw [getElem?_append_left hi] at hg
      exact h.order i g c hg hc
    · rw [getElem?_concat_length] at hg
      obtain rfl := some.inj hg
      obtain rfl := some.inj (hb.symm.trans hc)
      exact hgot
    · rw [getElem?_eq_none (by rw [length_append, length_singleton]; omega)] at hg
      exact nomatch hg
  · rw [length_append, length_singleton, hrest]
    exact hstored.pop
  · intro k hk
    rw [length_append]
    exact Nat.le_add_right_of_le (h.empty k hk)
  · exact h.returned_lt
  · intro k hk hsilent
    rw [length_append]
    exact Nat.lt_add_right _ (h.silent k hk hsilent)

theorem First.wraps_iff (h : First e q b) : (add32 q.head headerSize > q.queueSize ∨
        add32 (add32 q.head (q.size e q.head)) headerSize > q.queueSize) ↔
      ¬q.head + (headerSize + b.length) ≤ q.queueSize := by
  have hlt := h.lt
  rw [add32_eq (by omega)]
  by_cases hroom : q.head + headerSize ≤ q.queueSize
  · rw [h.size hroom, add32_eq (a := q.head) (by omega), add32_eq (by omega)]
    omega
  · exact iff_of_true (.inl (by omega)) (by omega)

theorem First.size_first (h : First e q b) : q.size e (q.first b) = b.length :=
  size_eq (Mem.holds_append.mp h.holds).1 (by have := h.lt; omega)

theorem First.data (h : First e q b) : q.queue.Holds (q.first b + headerSize) b := by
  have hholds := h.holds
  rw [encode, Mem.holds_append, Endian.length_bytes] at hholds
  exact hholds.2

theorem consumerOk_next (hfirst : First e q b) (hhead : pending.head? = some b) (req : Request) :
    ConsumerOk q pending (req.next (q.first b) b.length) := by
  have hsum : add32 (add32 (q.first b) b.length) headerSize =
      q.first b + (headerSize + b.length) := by
    have hlt := hfirst.lt
    have hle : q.first b ≤ q.head := by
      rw [Queue.first]
      split
      · exact le_rfl
      · exact Nat.zero_le _
    rw [add32_eq (a := q.first b) (by omega), add32_eq (by omega)]
    omega
  unfold Request.next
  rw [hsum]
  split
  · split
    · trivial
    · split
      · exact ⟨b, hhead, rfl, rfl, rfl⟩
      · trivial
  · exact ⟨b, hhead, rfl, rfl, by rintro _ ⟨⟩⟩

theorem Core.findEmpty (h : Core e q accepted taken foundEmpty returned)
    (heq : q.head = q.tail) : Core e q accepted taken (accepted.length :: foundEmpty) returned := by
  have hall : accepted.length ≤ taken.length :=
    drop_eq_nil_iff.mp (h.stored.head_eq_tail_iff.mp heq)
  refine ⟨h.size, h.taken_le, h.order, h.stored, ?_, h.returned_lt, ?_⟩
  · exact forall_mem_cons.mpr ⟨hall, h.empty⟩
  · rw [forall_mem_cons]
    exact ⟨fun hmem => absurd (h.returned_lt _ hmem) (lt_irrefl _), h.silent⟩

theorem ProducerOk.findEmpty {accepted taken : ℕ} {p : Producer}
    (h : ProducerOk e q accepted taken foundEmpty p) :
    ProducerOk e q accepted taken (accepted :: foundEmpty) p := by
  cases p with
  | readHeadAgain tail index =>
    refine ⟨h.1, fun hmem => h.2 ?_⟩
    exact (mem_cons.mp hmem).resolve_left h.1.ne
  | _ => exact h

theorem inv_consume (h : Inv e s) : Inv e (consume e s) := by
  obtain ⟨core, producer, consumer⟩ := h
  unfold consume
  cases hc : s.consumer with
  | idle => exact ⟨core, producer, consumer⟩
  | readHead req => exact ⟨core, producer, rfl⟩
  | readTail req head =>
    rw [hc] at consumer
    obtain rfl : head = s.q.head := consumer
    dsimp only
    split
    · next hne =>
      exact ⟨core, producer, fun hnil => hne (core.stored.head_eq_tail_iff.mpr hnil)⟩
    · next heq => exact ⟨core.findEmpty (not_not.mp heq), producer.findEmpty, trivial⟩
  | readHeadOffset req =>
    rw [hc] at consumer
    exact ⟨core, producer, rfl, consumer⟩
  | readHeadSize req headOffset =>
    rw [hc] at consumer
    obtain ⟨rfl, hne⟩ := consumer
    obtain ⟨b, rest, hdrop⟩ := exists_cons_of_ne_nil hne
    have hstored := core.stored
    rw [hdrop] at hstored
    have hwraps := (hstored.first core.size).wraps_iff
    have hhead : (s.accepted.drop s.taken.length).head? = some b := by rw [hdrop]; rfl
    dsimp only
    split
    · next hwrap =>
      refine ⟨core, producer, b, hhead, ?_⟩
      rw [Queue.first, if_neg (hwraps.mp hwrap)]
    · next hstay =>
      refine ⟨core, producer, b, hhead, ?_⟩
      rw [Queue.first, if_pos (not_not.mp (mt hwraps.mpr hstay))]
  | readEntrySize req entry =>
    rw [hc] at consumer
    obtain ⟨b, hhead, rfl⟩ := consumer
    obtain ⟨rest, -, hstored⟩ := core.exists_stored hhead
    have hfirst := hstored.first core.size
    dsimp only
    rw [hfirst.size_first]
    exact ⟨core, producer, consumerOk_next hfirst hhead req⟩
  | readData entry entrySize newHeadOffset =>
    rw [hc] at consumer
    obtain ⟨b, hhead, rfl, rfl, rfl⟩ := consumer
    obtain ⟨rest, -, hstored⟩ := core.exists_stored hhead
    refine ⟨core, producer, b, hhead, rfl, rfl, ?_⟩
    rintro d ⟨⟩
    exact (hstored.first core.size).data
  | writeHead newHeadOffset got =>
    rw [hc] at consumer
    obtain ⟨b, hhead, rfl, hgot⟩ := consumer
    obtain ⟨rest, -, hstored⟩ := core.exists_stored hhead
    refine ⟨core.pop hhead hgot, ?_, trivial⟩
    rw [length_append, length_singleton]
    exact producer.pop hstored

end Consumer

/-! ### The producer -/

section Producer

variable {l : Enqueue} {c : Consumer}

theorem CallOk.entrySize_eq {data : Entry} (h : CallOk q data) :
    add32 data.length headerSize = headerSize + data.length := by
  have := h.lt
  rw [add32_eq (by omega), add_comm]

theorem chosen_of_choosePlace {data : Entry} {head : ℕ} {place : Place} (hcall : CallOk q data)
    (h : choosePlace q.queueSize head q.tail (add32 data.length headerSize) = some place) :
    Chosen q ⟨data, head, q.tail, place⟩ (headerSize + data.length) := by
  rw [hcall.entrySize_eq, choosePlace, add32_eq hcall.lt] at h
  split at h
  · next hge =>
    split at h
    · next hfits =>
      obtain rfl := some.inj h
      exact ⟨fun _ => hfits, fun hlt => absurd hge (not_le.mpr hlt)⟩
    · next hfits =>
      split at h
      · next hroom =>
        obtain rfl := some.inj h
        exact ⟨hge, not_le.mp hfits, hroom⟩
      · exact nomatch h
  · next hlt =>
    split at h
    · next hroom =>
      obtain rfl := some.inj h
      refine ⟨fun hge => absurd hge hlt, fun _ => ?_⟩
      change q.tail + _ < head
      omega
    · exact nomatch h

theorem LocalsOk.free (h : LocalsOk q l) : Free q l.entry (headerSize + l.data.length) := by
  have hchosen := h.chosen
  have hflat := h.saw.flat
  have hwrapped := h.saw.wrapped
  have htail := h.tail
  unfold Chosen at hchosen
  unfold Enqueue.entry Free
  cases hplace : l.place with
  | atTail =>
    rw [hplace] at hchosen
    dsimp only at hchosen ⊢
    omega
  | atStart =>
    rw [hplace] at hchosen
    dsimp only at hchosen ⊢
    omega

theorem Free.mono {p n p' n' : ℕ} (h : Free q p n) (hp : p ≤ p') (hn : p' + n' ≤ p + n) :
    Free q p' n' := by
  unfold Free at h ⊢
  omega

/-- The memory behind the tail is free as long as the entries are not at the start. -/
theorem Free.mark (h : q.head ≤ q.tail) (n : ℕ) : Free q q.tail n :=
  ⟨fun _ => .inl le_rfl, fun hlt => absurd h (not_le.mpr hlt)⟩

theorem ConsumerOk.write (h : ConsumerOk q pending c) (queue : Mem) :
    ConsumerOk { q with queue } pending c := by
  cases c <;> exact h

theorem LocalsOk.write (h : LocalsOk q l) (queue : Mem) : LocalsOk { q with queue } l :=
  ⟨⟨h.call.fits, h.call.lt⟩, ⟨h.saw.flat, h.saw.wrapped, h.saw.le⟩, h.tail, h.chosen⟩

theorem Core.write (h : Core e q accepted taken foundEmpty returned) {p : ℕ}
    {data : List UInt8} (hfree : Free q p data.length) :
    Core e { q with queue := q.queue.write p data } accepted taken foundEmpty returned :=
  ⟨h.size, h.taken_le, h.order, h.stored.write hfree, h.empty, h.returned_lt, h.silent⟩

theorem ConsumerOk.push (h : ConsumerOk q pending c) (tail : ℕ) (b : Entry) :
    ConsumerOk { q with tail } (pending ++ [b]) c := by
  have hne : pending ++ [b] ≠ [] := append_ne_nil_of_right_ne_nil _ (cons_ne_nil b [])
  have hhead {a : Entry} (ha : pending.head? = some a) : (pending ++ [b]).head? = some a := by
    rw [head?_append, ha]
    rfl
  cases c with
  | readHeadOffset => exact hne
  | readHeadSize => exact ⟨h.1, hne⟩
  | readEntrySize => exact h.imp fun a ha => ⟨hhead ha.1, ha.2⟩
  | readData => exact h.imp fun a ha => ⟨hhead ha.1, ha.2⟩
  | writeHead => exact h.imp fun a ha => ⟨hhead ha.1, ha.2⟩
  | _ => exact h

theorem LocalsOk.stored (h : LocalsOk q l) (hstored : Stored e q pending)
    (hdata : q.queue.Holds l.entry (encode e l.data))
    (hmark : l.place = .atStart → q.tail + headerSize ≤ q.queueSize →
      q.queue.Holds q.tail (e.bytes headerSize l.data.length)) :
    Stored e { q with tail := l.entry + (headerSize + l.data.length) } (pending ++ [l.data]) := by
  have hchosen := h.chosen
  have hflat := h.saw.flat
  have hwrapped := h.saw.wrapped
  have htail := h.tail
  unfold Chosen at hchosen
  unfold Enqueue.entry at hdata ⊢
  cases hplace : l.place with
  | atTail =>
    rw [hplace] at hchosen hdata
    rw [htail] at hdata ⊢
    refine hstored.push hdata ?_ ?_
    · intro hle
      by_cases hl : l.head ≤ q.tail
      · exact hchosen.1 hl
      · have := h.saw.le
        omega
    · intro hlt
      by_cases hl : l.head ≤ q.tail
      · exact absurd (hflat hl).1 (not_le.mpr hlt)
      · omega
  | atStart =>
    rw [hplace] at hchosen hdata
    obtain ⟨hle, hbeyond, hroom⟩ := hchosen
    obtain ⟨hheadTail, hhead⟩ := hflat hle
    rw [zero_add]
    exact hstored.pushStart hheadTail hdata (by omega) hbeyond h.call.lt (hmark hplace)

theorem Core.push (h : Core e q accepted taken foundEmpty returned) {tail : ℕ}
    {b : Entry} (hstored : Stored e { q with tail } (accepted.drop taken.length ++ [b])) :
    Core e { q with tail } (accepted ++ [b]) taken foundEmpty returned := by
  have hlen : (accepted ++ [b]).length = accepted.length + 1 := by
    rw [length_append, length_singleton]
  refine ⟨h.size, ?_, ?_, ?_, h.empty, ?_, h.silent⟩
  · exact hlen ▸ h.taken_le.trans (Nat.le_succ _)
  · intro i g c hg hc
    have hi : i < accepted.length := (List.getElem?_eq_some_iff.mp hg).1.trans_le h.taken_le
    rw [getElem?_append_left hi] at hc
    exact h.order i g c hg hc
  · rwa [drop_append_of_le_length h.taken_le]
  · intro x hx
    exact hlen ▸ (h.returned_lt x hx).trans (Nat.lt_succ_self _)

theorem Core.return (h : Core e q accepted taken foundEmpty returned) {index : ℕ}
    {sent : Bool} (hindex : index < accepted.length)
    (hsilent : sent = false → index ∈ foundEmpty → index < taken.length) :
    Core e q accepted taken foundEmpty (returned ++ [(index, sent)]) := by
  refine ⟨h.size, h.taken_le, h.order, h.stored, h.empty, ?_, ?_⟩
  · intro x hx
    rcases mem_append.mp hx with hx | hx
    · exact h.returned_lt x hx
    · rw [mem_singleton.mp hx]
      exact hindex
  · intro k hk hmem
    rcases mem_append.mp hmem with hmem | hmem
    · exact h.silent k hk hmem
    · obtain ⟨rfl, rfl⟩ := Prod.mk.inj (mem_singleton.mp hmem)
      exact hsilent rfl hk

theorem inv_produce (h : Inv e s) : Inv e (produce e s) := by
  obtain ⟨core, producer, consumer⟩ := h
  unfold produce
  cases hp : s.producer with
  | idle => exact ⟨core, producer, consumer⟩
  | readHead data =>
    rw [hp] at producer
    refine ⟨core, ⟨producer, ?_⟩, consumer⟩
    exact ⟨fun hle => ⟨hle, le_rfl⟩, fun _ _ => le_rfl, core.stored.head_le⟩
  | readTail data head =>
    rw [hp] at producer
    obtain ⟨hcall, hsaw⟩ := producer
    dsimp only
    split
    · next place hplace =>
      exact ⟨core, ⟨hcall, hsaw, rfl, chosen_of_choosePlace hcall hplace⟩, consumer⟩
    · exact ⟨core, trivial, consumer⟩
  | writeData l =>
    rw [hp] at producer
    have hl : LocalsOk s.q l := producer
    refine ⟨core.write (hl.free.mono (Nat.le_add_right _ _) (Nat.add_assoc _ _ _).le),
      ⟨hl.write _, ?_⟩, consumer.write _⟩
    exact Mem.holds_write _ _ _
  | writeSize l =>
    rw [hp] at producer
    obtain ⟨hl, hdata⟩ := producer
    have hfree : Free s.q l.entry (e.bytes headerSize l.data.length).length := by
      rw [Endian.length_bytes]
      exact hl.free.mono le_rfl (by omega)
    have hholds : (s.q.queue.write l.entry (e.bytes headerSize l.data.length)).Holds l.entry
        (encode e l.data) := by
      rw [encode, Mem.holds_append, Endian.length_bytes]
      exact ⟨Mem.holds_write _ _ _, hdata.write (.inr (by rw [Endian.length_bytes]))⟩
    refine ⟨core.write hfree, ?_, consumer.write _⟩
    dsimp only
    cases hplace : l.place with
    | atTail => exact ⟨hl.write _, hplace, hholds⟩
    | atStart =>
      have hentry : l.entry = 0 := by rw [Enqueue.entry, hplace]
      have hsize : l.entrySize = l.entry + (headerSize + l.data.length) := by
        rw [hentry, zero_add]
        exact hl.call.entrySize_eq
      rw [hl.tail, sub32_eq core.stored.tail_le core.size]
      dsimp only
      split
      · exact ⟨hl.write _, hplace, hholds⟩
      · next hno =>
        refine ⟨hl.write _, hholds, hsize, fun _ hroom => absurd ?_ hno⟩
        change s.q.tail + headerSize ≤ s.q.queueSize at hroom
        omega
  | writeMark l =>
    rw [hp] at producer
    obtain ⟨hl, hplace, hdata⟩ := producer
    have hchosen := hl.chosen
    rw [Chosen, hplace] at hchosen
    obtain ⟨hle, hbeyond, hroom⟩ := hchosen
    obtain ⟨hheadTail, hhead⟩ := hl.saw.flat hle
    have hentry : l.entry = 0 := by rw [Enqueue.entry, hplace]
    have htail := hl.tail
    refine ⟨core.write (htail ▸ Free.mark hheadTail _), ⟨hl.write _, ?_, ?_, ?_⟩, consumer.write _⟩
    · refine hdata.write (.inl ?_)
      rw [hentry, length_encode]
      omega
    · rw [hentry, zero_add]
      exact hl.call.entrySize_eq
    · intro _ _
      change (s.q.queue.write l.tail _).Holds s.q.tail _
      rw [htail]
      exact Mem.holds_write _ _ _
  | readTailAgain l =>
    rw [hp] at producer
    obtain ⟨hl, hplace, hdata⟩ := producer
    have hentry : l.entry = s.q.tail := by rw [Enqueue.entry, hplace, hl.tail]
    refine ⟨core, ⟨hl, hdata, ?_, fun hstart => ?_⟩, consumer⟩
    · rw [hentry, Enqueue.entrySize, hl.call.entrySize_eq, add32_eq hl.call.lt]
    · cases hplace.symm.trans hstart
  | writeTail l newTail =>
    rw [hp] at producer
    obtain ⟨hl, hdata, rfl, hmark⟩ := producer
    have hstored := hl.stored core.stored hdata hmark
    have hlen : (s.accepted ++ [l.data]).length = s.accepted.length + 1 := by
      rw [length_append, length_singleton]
    refine ⟨core.push hstored, ?_, ?_⟩
    · dsimp only
      rw [hlen]
      split
      · exact Nat.lt_succ_self _
      · refine ⟨Nat.lt_succ_self _, fun hmem => .inr ?_⟩
        -- The queue was empty, and the consumer has done nothing since.
        have hall := core.empty _ hmem
        have hempty := core.stored.head_eq_tail_iff.mpr (drop_eq_nil_of_le hall)
        exact ⟨hempty.trans hl.tail.symm, le_antisymm core.taken_le hall⟩
    · rw [drop_append_of_le_length core.taken_le]
      exact consumer.push _ _
  | readHeadAgain tail index =>
    rw [hp] at producer
    obtain ⟨hindex, hempty⟩ := producer
    dsimp only
    split
    · exact ⟨core, hindex, consumer⟩
    · next hne =>
      refine ⟨core.return hindex fun _ hmem => ?_, trivial, consumer⟩
      exact (hempty hmem).resolve_right fun heq => hne heq.1
  | notify index =>
    rw [hp] at producer
    exact ⟨core.return producer (by rintro ⟨⟩), trivial, consumer⟩

end Producer

/-! ### Runs -/

def Fits (s : State) (data : Entry) : Prop := headerSize + data.length ≤ s.q.queueSize

def FitsExactly (s : State) (data : Entry) : Prop :=
  Fits s data ∧ s.q.tail + (headerSize + data.length) < 2 ^ 32

def Request.Accepts (req : Request) (n : ℕ) : Prop :=
  req.data = true → ∃ dataSize, req.dataSize = some dataSize ∧ n ≤ dataSize

/-- What the queue promises, in one state. -/
structure Delivers (e : Endian) (s : State) : Prop where
  /-- What the consumer has got are the first of the entries that were put in. -/
  taken_le : s.taken.length ≤ s.accepted.length
  order : ∀ (i : ℕ) (g : Got) (b : Entry), s.taken[i]? = some g → s.accepted[i]? = some b → g.IsOf b
  /-- The other entries are in the queue. -/
  intact : Stored e s.q (s.accepted.drop s.taken.length)
  /-- The consumer gets the next of them when it asks for it. -/
  obtains : ∀ (req : Request) (b : Entry), s.consumer = .idle →
    s.accepted[s.taken.length]? = some b → req.Accepts b.length →
      ∃ g : Got, ((consume e)^[7] { s with consumer := .readHead req }).taken = s.taken ++ [g] ∧
        g.IsOf b ∧ (req.data = true → g.data = some b)
  /-- When it found the queue empty, it had got everything. -/
  empty : ∀ k ∈ s.foundEmpty, k ≤ s.taken.length
  /-- After that, the enqueue of the next entry has sent a notification, or the entry had been
  taken out already. -/
  notified : ∀ k ∈ s.foundEmpty, (k, false) ∈ s.returned → k < s.taken.length

section Runs

variable {s' : State}

theorem inv_step (hstep : Step e FitsExactly s s') (h : Inv e s) : Inv e s' := by
  cases hstep with
  | enqueue data hidle hallowed =>
    exact ⟨h.core, ⟨hallowed.1, hallowed.2⟩, h.consumer⟩
  | produce => exact inv_produce h
  | dequeue req hidle => exact ⟨h.core, h.producer, trivial⟩
  | consume => exact inv_consume h

theorem inv_init {queueSize : ℕ} (hsize : queueSize < 2 ^ 32) (queue : Mem) :
    Inv e (.init queueSize queue) := by
  refine ⟨⟨hsize, le_rfl, nofun, ?_, nofun, nofun, nofun⟩, trivial, trivial⟩
  exact .inl ⟨Nat.zero_le _, rfl, rfl⟩

theorem Inv.obtains (h : Inv e s) {req : Request} {b : Entry}
    (hb : s.accepted[s.taken.length]? = some b) (hreq : req.Accepts b.length) :
    ∃ g : Got, ((consume e)^[7] { s with consumer := .readHead req }).taken = s.taken ++ [g] ∧
      g.IsOf b ∧ (req.data = true → g.data = some b) := by
  obtain ⟨rest, -, hstored⟩ := h.core.exists_stored (head?_drop.trans hb)
  have hfirst := hstored.first h.core.size
  have hne : s.q.head ≠ s.q.tail := fun heq => nomatch hstored.head_eq_tail_iff.mp heq
  have htail : consume e { s with consumer := .readTail req s.q.head } =
      { s with consumer := .readHeadOffset req } := if_pos hne
  have hheadSize : consume e { s with consumer := .readHeadSize req s.q.head } =
      { s with consumer := .readEntrySize req (s.q.first b) } := by
    rw [Queue.first]
    by_cases hwrap : s.q.head + (headerSize + b.length) ≤ s.q.queueSize
    · rw [if_pos hwrap]
      exact if_neg fun hc => hfirst.wraps_iff.mp hc hwrap
    · rw [if_neg hwrap]
      exact if_pos (hfirst.wraps_iff.mpr hwrap)
  have hentrySize : consume e { s with consumer := .readEntrySize req (s.q.first b) } =
      { s with consumer := req.next (s.q.first b) b.length } := by
    rw [consume]
    dsimp only
    rw [hfirst.size_first]
  have hfive : (consume e)^[5] { s with consumer := .readHead req } =
      { s with consumer := req.next (s.q.first b) b.length } := by
    change consume e (consume e (consume e (consume e { s with
      consumer := .readTail req s.q.head }))) = _
    rw [htail]
    change consume e (consume e { s with consumer := .readHeadSize req s.q.head }) = _
    rw [hheadSize, hentrySize]
  rw [Function.iterate_add_apply (consume e) 2 5, hfive, Request.next]
  cases hdata : req.data with
  | false => exact ⟨⟨b.length, none⟩, rfl, ⟨rfl, nofun⟩, nofun⟩
  | true =>
    obtain ⟨dataSize, hdataSize, hle⟩ := hreq hdata
    have hread : s.q.queue.read (s.q.first b + headerSize) b.length = b := hfirst.data
    rw [if_pos rfl, hdataSize]
    dsimp only
    rw [if_pos hle]
    refine ⟨⟨b.length, some b⟩, ?_, ⟨rfl, fun d hd => (some.inj hd).symm⟩, fun _ => rfl⟩
    change s.taken ++ [_] = _
    rw [hread]

end Runs

/-- In every state of every interleaving in which each entry that is put in can be added to the
tail, the queue delivers what was put in. -/
theorem dataQueue_delivers {e : Endian} {queueSize : ℕ} {queue : Mem} {s : State}
    (hsize : queueSize < 2 ^ 32)
    (h : Relation.ReflTransGen (Step e FitsExactly) (.init queueSize queue) s) : Delivers e s := by
  have hinv : Inv e s := invariant_of_reach (fun _ _ hs hstep => inv_step hstep hs)
    (inv_init hsize queue) h
  have core := hinv.core
  exact ⟨core.taken_le, core.order, core.stored, fun _ _ _ hb hreq => hinv.obtains hb hreq,
    core.empty, core.silent⟩

/-! ### Two runs -/

/-- What a call that puts an entry at the tail leaves behind. -/
structure PutIn (s : State) (data : Entry) (s' : State) : Prop where
  queueSize : s'.q.queueSize = s.q.queueSize
  head : s'.q.head = s.q.head
  tail : s'.q.tail = add32 s.q.tail (add32 data.length headerSize)
  producer : s'.producer = .idle
  consumer : s'.consumer = s.consumer
  accepted : s'.accepted = s.accepted ++ [data]
  taken : s'.taken = s.taken

theorem exists_putIn (e : Endian) (allowed : State → Entry → Prop) {data : Entry}
    (hidle : s.producer = .idle) (hallowed : allowed s data)
    (hplace : choosePlace s.q.queueSize s.q.head s.q.tail (add32 data.length headerSize) =
      some .atTail) : ∃ s', Relation.ReflTransGen (Step e allowed) s s' ∧ PutIn s data s' := by
  set l : Enqueue := ⟨data, s.q.head, s.q.tail, .atTail⟩ with hl
  have hchoose : produce e { s with producer := .readTail data s.q.head } =
      { s with producer := .writeData l } := by
    rw [produce]
    dsimp only
    rw [hplace]
  have hcall : Relation.ReflTransGen (Step e allowed) s { s with producer := .writeData l } := by
    refine .tail (.tail (.tail .refl (.enqueue data hidle hallowed)) (.produce _)) ?_
    rw [← hchoose]
    exact .produce _
  -- The data, the size and the tail are written.
  have hwrite := (((hcall.tail (.produce _)).tail (.produce _)).tail (.produce _)).tail (.produce _)
  refine ⟨_, hwrite.tail (.produce _), ?_⟩
  by_cases hempty : s.q.head = s.q.tail
  · have hnotify : (produce e (produce e (produce e (produce e { s with
        producer := .writeData l })))).producer = .notify s.accepted.length := if_pos hempty
    rw [produce, hnotify]
    exact ⟨rfl, rfl, rfl, rfl, rfl, rfl, rfl⟩
  · have hagain : (produce e (produce e (produce e (produce e { s with
        producer := .writeData l })))).producer = .readHeadAgain s.q.tail s.accepted.length :=
      if_neg hempty
    rw [produce, hagain]
    change PutIn s data (if s.q.head = s.q.tail then _ else _)
    rw [if_neg hempty]
    exact ⟨rfl, rfl, rfl, rfl, rfl, rfl, rfl⟩

variable {allowed : State → Entry → Prop}

theorem run_produce (n : ℕ) : Relation.ReflTransGen (Step e allowed) s ((produce e)^[n] s) := by
  induction n with
  | zero => exact .refl
  | succ n ih => exact Function.iterate_succ_apply' (produce e) n s ▸ ih.tail (.produce _)

theorem run_consume (n : ℕ) : Relation.ReflTransGen (Step e allowed) s ((consume e)^[n] s) := by
  induction n with
  | zero => exact .refl
  | succ n ih => exact Function.iterate_succ_apply' (consume e) n s ▸ ih.tail (.consume _)

def small : State := .init 16 fun _ => 0

/-- The queue of 16 bytes in which an entry of ten has been put. -/
def oneEntry : State :=
  (produce .little)^[7] { small with producer := .readHead [1, 2, 3, 4, 5, 6] }

theorem run_oneEntry : Relation.ReflTransGen (Step .little FitsExactly) small oneEntry :=
  .trans (.single (.enqueue _ rfl (by simp [FitsExactly, Fits, small, State.init, headerSize])))
    (run_produce 7)

/-- The entry is taken out, and the next one goes to the start of the queue. -/
theorem small_delivers : ∃ s, Relation.ReflTransGen (Step .little FitsExactly) small s ∧
    s.accepted = [[1, 2, 3, 4, 5, 6], [7, 8, 9]] ∧
    s.taken = [⟨6, some [1, 2, 3, 4, 5, 6]⟩] ∧ s.q.head = 10 ∧ s.q.tail = 7 ∧
    Delivers .little s := by
  have htaken := run_oneEntry.trans (.trans (.single (.dequeue ⟨true, some 6⟩ rfl)) (run_consume 7))
  have hrun := htaken.trans (.trans (.single (.enqueue [7, 8, 9] rfl
    ⟨(by decide : 7 ≤ 16), (by decide : 10 + 7 < 2 ^ 32)⟩)) (run_produce 8))
  exact ⟨_, hrun, rfl, rfl, rfl, rfl, dataQueue_delivers (by decide) hrun⟩

def halfSize : ℕ := 2 ^ 31

def halfEntry : Entry := replicate (halfSize - headerSize) 0

theorem entrySize_halfEntry : add32 halfEntry.length headerSize = halfSize := by
  rw [halfEntry, length_replicate]
  decide

/-- Two entries that fill the queue each are put in, and then the consumer finds it empty. -/
theorem half_not_delivers :
    ∃ s, Relation.ReflTransGen (Step .little Fits) (.init halfSize fun _ => 0) s ∧
      ¬Delivers .little s := by
  have hfits {s : State} (hs : s.q.queueSize = halfSize) : Fits s halfEntry := by
    rw [Fits, hs, halfEntry, length_replicate]
    decide
  have hfirst : Fits (.init halfSize fun _ => 0) halfEntry := hfits rfl
  obtain ⟨s₁, hrun₁, hput₁⟩ := exists_putIn .little Fits rfl hfirst
    (by rw [entrySize_halfEntry]; decide)
  have hsize₁ : s₁.q.queueSize = halfSize := hput₁.queueSize
  have hhead₁ : s₁.q.head = 0 := hput₁.head
  have htail₁ : s₁.q.tail = halfSize := by
    rw [hput₁.tail, entrySize_halfEntry]
    decide
  obtain ⟨s₂, hrun₂, hput₂⟩ := exists_putIn .little Fits hput₁.producer (hfits hsize₁)
    (by rw [entrySize_halfEntry, hsize₁, hhead₁, htail₁]; decide)
  have hhead₂ : s₂.q.head = 0 := hput₂.head.trans hhead₁
  -- The sum of the tail and the size of the second entry is zero.
  have htail₂ : s₂.q.tail = 0 := by
    rw [hput₂.tail, entrySize_halfEntry, htail₁]
    decide
  have haccepted : s₂.accepted = [halfEntry, halfEntry] := by
    rw [hput₂.accepted, hput₁.accepted]
    rfl
  have htaken : s₂.taken = [] := hput₂.taken.trans hput₁.taken
  have hidle : s₂.consumer = .idle := hput₂.consumer.trans hput₁.consumer
  have hfinds : consume .little { s₂ with consumer := .readTail ⟨false, none⟩ s₂.q.head } =
      { s₂ with consumer := .idle, foundEmpty := s₂.accepted.length :: s₂.foundEmpty } :=
    if_neg (not_not.mpr (hhead₂.trans htail₂.symm))
  have hcall := (hrun₁.trans hrun₂).tail (.dequeue ⟨false, none⟩ hidle)
  refine ⟨_, (hcall.tail (.consume _)).tail (.consume _), fun hdelivers => ?_⟩
  have hempty := hdelivers.empty
  change ∀ k ∈ (consume .little { s₂ with
    consumer := .readTail ⟨false, none⟩ s₂.q.head }).foundEmpty, k ≤ (consume .little { s₂ with
      consumer := .readTail ⟨false, none⟩ s₂.q.head }).taken.length at hempty
  rw [hfinds] at hempty
  have hle := hempty s₂.accepted.length mem_cons_self
  rw [htaken, haccepted] at hle
  exact absurd hle (by decide)

/-- The bytes of the queue that the next access of the consumer reads. -/
def Consumer.Reads (x : ℕ) : Consumer → Prop
  | .readHeadSize _ headOffset => headOffset ≤ x ∧ x < headOffset + headerSize
  | .readEntrySize _ entry => entry ≤ x ∧ x < entry + headerSize
  | .readData entry entrySize _ => entry + headerSize ≤ x ∧ x < entry + headerSize + entrySize
  | _ => False

/-- All these bytes belong to the first entry, or to its mark. -/
theorem Stored.reads_not_free (h : Stored e q (b :: pending)) {p n x : ℕ} (hfree : Free q p n)
    (hx : q.first b ≤ x ∧ x < q.first b + (headerSize + b.length) ∨
      q.head ≤ x ∧ x < q.head + headerSize) : x < p ∨ p + n ≤ x := by
  obtain ⟨-, -, hfirst⟩ := h.uncons
  unfold Free at hfree
  omega

theorem ConsumerOk.reads {c : Consumer} {x : ℕ} (h : ConsumerOk q pending c) (hx : c.Reads x) :
    ∃ b, pending.head? = some b ∧ (q.first b ≤ x ∧ x < q.first b + (headerSize + b.length) ∨
      q.head ≤ x ∧ x < q.head + headerSize) := by
  cases c with
  | readHeadSize req headOffset =>
    obtain ⟨rfl, hne⟩ := h
    obtain ⟨b, rest, rfl⟩ := exists_cons_of_ne_nil hne
    exact ⟨b, rfl, .inr hx⟩
  | readEntrySize req entry =>
    obtain ⟨b, hb, rfl⟩ := h
    exact ⟨b, hb, .inl ⟨hx.1, by have := hx.2; omega⟩⟩
  | readData entry entrySize newHeadOffset =>
    obtain ⟨b, hb, rfl, rfl, -⟩ := h
    exact ⟨b, hb, .inl ⟨by have := hx.1; omega, by have := hx.2; omega⟩⟩
  | _ => exact hx.elim

/-- The two programs do not race for the memory of the queue: in every state of
every run, the next access of the producer leaves the bytes that the next access of
the consumer reads. -/
theorem dataQueue_raceFree {e : Endian} {queueSize : ℕ} {queue : Mem} {s : State}
    (hsize : queueSize < 2 ^ 32)
    (h : Relation.ReflTransGen (Step e FitsExactly) (.init queueSize queue) s) {x : ℕ}
    (hx : s.consumer.Reads x) : (produce e s).q.queue x = s.q.queue x := by
  obtain ⟨core, producer, consumer⟩ : Inv e s :=
    invariant_of_reach (fun _ _ h hstep => inv_step hstep h) (inv_init hsize queue) h
  obtain ⟨b, hb, hx⟩ := consumer.reads hx
  obtain ⟨rest, -, hstored⟩ := core.exists_stored hb
  have hwrite : ∀ {p data}, Free s.q p (length data) → (s.q.queue.write p data) x = s.q.queue x :=
    fun hfree => (hstored.reads_not_free hfree hx).elim Mem.write_of_lt Mem.write_of_le
  unfold produce
  cases hp : s.producer with
  | writeData l =>
    rw [hp] at producer
    have hl : LocalsOk s.q l := producer
    exact hwrite (hl.free.mono (Nat.le_add_right _ _) (Nat.add_assoc _ _ _).le)
  | writeSize l =>
    rw [hp] at producer
    refine hwrite (producer.1.free.mono le_rfl ?_)
    rw [Endian.length_bytes]
    omega
  | writeMark l =>
    rw [hp] at producer
    obtain ⟨hl, hplace, -⟩ := producer
    have hchosen := hl.chosen
    rw [Chosen, hplace] at hchosen
    exact hwrite (hl.tail ▸ Free.mark (hl.saw.flat hchosen.1).1 _)
  | readTail data head =>
    dsimp only
    split <;> rfl
  | readHeadAgain tail index =>
    dsimp only
    split <;> rfl
  | _ => rfl

/-- The consumer is about to read the size of the first entry while the producer
is about to write the data of the second one, which it does. -/
theorem dataQueue_raceFree_size : ∃ s, Relation.ReflTransGen (Step .little FitsExactly) small s ∧
    s.q.queue 14 = 0 ∧ (produce .little s).q.queue 14 = 7 ∧
    ∀ x < 4, (produce .little s).q.queue x = s.q.queue x := by
  have hread := run_oneEntry.trans (.trans (.single (.dequeue ⟨true, some 6⟩ rfl)) (run_consume 3))
  have hrun := hread.trans (.trans (.single (.enqueue [7, 8] rfl
    ⟨(by decide : 6 ≤ 16), (by decide : 10 + 6 < 2 ^ 32)⟩)) (run_produce 2))
  exact ⟨_, hrun, rfl, rfl, fun x hx => dataQueue_raceFree (by decide) hrun ⟨Nat.zero_le x, hx⟩⟩

end Hexley.IOKit
