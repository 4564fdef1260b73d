import Hexley.Launchd.Send
import Mathlib.Data.List.Forall2

/-!
`launchd_msg_recv`: how messages are put together again from the pieces in
which a stream arrives.

Descriptors are passed beside the bytes of a stream, and they arrive with
the byte they were sent with. So the stream is a list of cells, a byte and
the descriptors that come with it, and a piece of the stream is a list of
cells too. `launchd_msg_send` attaches the descriptors of a message to its
first byte.

The buffer is parsed in place and a message is dropped by moving the rest
of the buffer to its start. Between two passes the buffer holds the cells
received and not yet delivered (`Pending`), and one pass either delivers
the message they start with or waits, if they are only the beginning of
one. That is all that the theorem about a whole run uses.
-/

namespace Hexley.Launchd

open Lib List Mem Endian

/-- One byte of the stream and the descriptors passed with it. -/
structure Cell where
  byte : UInt8
  fds : List UInt32

inductive Recvmsg
  | failed
  /-- The control message was cut: `MSG_CTRUNC`. -/
  | truncated
  /-- These cells arrived. None at all means that the peer is gone. -/
  | got (cells : List Cell)

/-- How a call of `launchd_msg_recv` ends. -/
inductive RecvEnd
  | failed
  | econnreset
  | econnaborted
  | ebadrpc
  | eagain
  | fault
  | spent
  /-- It returned `0`. -/
  | ok
  deriving DecidableEq

/-- A call of the callback: the object at `rmsg` of the buffer. -/
structure Delivery where
  host : Host
  buf : Mem
  rmsg : ℕ

/-- What one or more calls of `launchd_msg_recv` come to. -/
structure RecvResult where
  deliveries : List Delivery
  ends : List RecvEnd
  lh : Launch

def recvLoop (h : Host) : ℕ → Launch → RecvResult
  | 0, lh => ⟨[], [.spent], lh⟩
  | fuel + 1, lh =>
    if lh.recvlen = 0 then ⟨[], [.ok], lh⟩
    else
      match launchdMsgRecv h lh with
      | .needMoreData => ⟨[], [.eagain], lh⟩
      | .badRpc => ⟨[], [.ebadrpc], lh⟩
      | .fault => ⟨[], [.fault], lh⟩
      | .deliver rmsg buf lh =>
        let r := recvLoop h fuel lh
        { r with deliveries := ⟨h, buf, rmsg⟩ :: r.deliveries }

/-- The part of the buffer that `recvmsg` may fill. -/
def recvRoom : ℕ := 8 * 1024

/-- The connection after `recvmsg` has stored the cells. -/
def Launch.store (lh : Launch) (cells : List Cell) : Launch where
  recvbuf := lh.recvbuf.write lh.recvlen (cells.map Cell.byte)
  recvlen := lh.recvlen + cells.length
  recvfds := lh.recvfds ++ cells.flatMap Cell.fds

/-- A call of `launchd_msg_recv`, on a machine on which `reallocf` puts the
buffer at the address that `h` gives. -/
def recvCall (h : Host) (lh : Launch) : Recvmsg → RecvResult
  | .failed => ⟨[], [.failed], lh⟩
  | .truncated => ⟨[], [.econnaborted], lh⟩
  | .got [] => ⟨[], [.econnreset], lh⟩
  | .got (c :: cs) => recvLoop h ((lh.store (c :: cs)).recvlen + 1) (lh.store (c :: cs))

/-- Calls of `launchd_msg_recv` one after the other, each with the place of
its buffer and the cells that arrive. -/
def recvCalls (lh : Launch) : List (Host × List Cell) → RecvResult
  | [] => ⟨[], [], lh⟩
  | (h, cells) :: calls =>
    let r := recvCall h lh (.got cells)
    let r' := recvCalls r.lh calls
    ⟨r.deliveries ++ r'.deliveries, r.ends ++ r'.ends, r'.lh⟩

/-- Every buffer that `reallocf` returns has a place in memory. -/
def Placed (lh : Launch) : List (Host × List Cell) → Prop
  | [] => True
  | (h, cells) :: calls =>
    h.base + (lh.recvlen + recvRoom) ≤ h.modulus ∧ Placed (recvCall h lh (.got cells)).lh calls

/-- A message that was packed, and the connection it was sent on. -/
structure Message where
  sender : Host
  lh : Sender
  data : LaunchData
  /-- The message has a place in the memory of the sender. -/
  resident : data.Resident sender
  /-- `launch_data_pack` did not return zero. -/
  packed : (launchDataPack sender data lh.sendbuf goodEnoughSize ⟨lh.heap, some []⟩).1 ≠ 0

def Message.bytes (m : Message) : List UInt8 := frame m.sender m.data m.lh

def Message.cells (m : Message) : List Cell :=
  match m.bytes with
  | [] => []
  | b :: bs => ⟨b, emitted m.data⟩ :: bs.map (⟨·, []⟩)

def Message.DeliveredBy (m : Message) (r : Delivery) : Prop := Represents r.host r.buf r.rmsg m.data

/-! ### A message on the stream -/

namespace Message

variable (m : Message)

theorem packedSize_le : packedSize m.data ≤ goodEnoughSize := by
  have hmod := goodEnoughSize_lt m.sender
  rcases pack_fst m.data m.resident (show goodEnoughSize < _ by omega)
    m.lh.sendbuf ⟨m.lh.heap, some []⟩ with
    ⟨hroom, -⟩ | ⟨-, hzero⟩
  · exact hroom
  · exact absurd hzero m.packed

theorem length_bytes : m.bytes.length = sizeofHeader + packedSize m.data := by
  rw [bytes, frame, length_append, length_header, payload, length_read]

theorem map_byte_cells : m.cells.map Cell.byte = m.bytes := by
  unfold cells
  split <;> simp_all [Function.comp_def]

theorem length_cells : m.cells.length = sizeofHeader + packedSize m.data := by
  rw [← m.length_bytes, ← m.map_byte_cells, length_map]

theorem fds_cells : m.cells.flatMap Cell.fds = emitted m.data := by
  have hlen := m.length_bytes
  unfold cells
  split
  · simp_all [sizeofHeader]
    omega
  · simp [flatMap_map]

theorem laidOut {buf : Mem} (hb : buf.Holds 0 m.bytes) : LaidOut .wire buf sizeofHeader m.data := by
  have hmod := goodEnoughSize_lt m.sender
  obtain ⟨hlaid, -⟩ := pack_laidOut m.data m.resident (show goodEnoughSize < _ by omega)
    m.lh.sendbuf ⟨m.lh.heap, some []⟩ m.packedSize_le
  rw [bytes, frame, holds_append, length_header] at hb
  have hpay : Mem.read _ m.lh.sendbuf (packedSize m.data) = _ :=
    (hb.2.read_eq (length_read _ _ _)).symm
  have hmoved := laidOut_drop_iff (o := 0).mpr hlaid
  refine laidOut_drop_iff (p := sizeofHeader) (o := 0).mp (hmoved.congr ?_)
  refine eqOn_of_read_eq ?_
  rw [read_drop, read_drop]
  simpa using hpay.symm

theorem read_header {buf : Mem} {k : ℕ} (hk : sizeofHeader ≤ k)
    (hb : buf.Holds 0 (m.bytes.take k)) : big.val (buf.read 0 8) = launchMsgHeaderMagic ∧
      Endian.big.val (buf.read 8 8) = packedSize m.data + sizeofHeader := by
  have hsize := m.packedSize_le
  rw [bytes, frame, take_append, take_of_length_le (by simpa using hk),
    holds_append, launchMsgHeader, holds_append, Endian.length_bytes] at hb
  obtain ⟨⟨hmagic, hlen⟩, -⟩ := hb
  rw [hmagic.read_eq (Endian.length_bytes _ _ _), hlen.read_eq (Endian.length_bytes _ _ _)]
  refine ⟨val_bytes_of _ (by decide), val_bytes_of _ ?_⟩
  simp only [goodEnoughSize, sizeofHeader] at hsize ⊢
  omega

end Message

/-! ### One pass -/

/-- The connection holds the cells that were received and not delivered. -/
structure Pending (lh : Launch) (cells : List Cell) : Prop where
  length_eq : lh.recvlen = cells.length
  holds : lh.recvbuf.Holds 0 (cells.map Cell.byte)
  fds_eq : lh.recvfds = cells.flatMap Cell.fds

theorem Pending.store {lh : Launch} {p : List Cell} (hp : Pending lh p) (cells : List Cell) :
    Pending (lh.store cells) (p ++ cells) where
  length_eq := by rw [Launch.store, hp.length_eq, length_append]
  holds := by
    rw [map_append, holds_append, length_map, zero_add, ← hp.length_eq]
    refine ⟨hp.holds.write (.inl ?_), holds_write _ _ _⟩
    rw [length_map, hp.length_eq, zero_add]
  fds_eq := by rw [Launch.store, hp.fds_eq, flatMap_append]

section Pass

variable {h : Host} {lh : Launch} {m : Message}

theorem launchdMsgRecv_of_lt {p rest : List Cell} (hp : Pending lh p)
    (hcells : p ++ rest = m.cells) (hrest : rest ≠ []) : launchdMsgRecv h lh = .needMoreData := by
  have hlen : p.length < sizeofHeader + packedSize m.data := by
    have hpos := length_pos_iff.mpr hrest
    have := congrArg length hcells
    rw [length_append, m.length_cells] at this
    omega
  unfold launchdMsgRecv
  by_cases hshort : lh.recvlen < sizeofHeader
  · exact if_pos hshort
  · have hbytes : lh.recvbuf.Holds 0 (m.bytes.take p.length) := by
      rw [← m.map_byte_cells, ← hcells, map_append, take_left' (length_map _)]
      exact hp.holds
    rw [hp.length_eq] at hshort
    obtain ⟨hmagic, htmplen⟩ := m.read_header (not_lt.mp hshort) hbytes
    rw [if_neg (by rwa [hp.length_eq])]
    rw [hmagic, htmplen, if_neg (by rintro (hne | hle); exacts [hne rfl, absurd hle (by omega)]),
      if_pos (by rw [hp.length_eq]; omega)]

theorem launchdMsgRecv_deliver {p : List Cell} (hp : Pending lh (m.cells ++ p))
    (hfit : h.base + lh.recvlen ≤ h.modulus) :
    ∃ buf lh', launchdMsgRecv h lh = .deliver sizeofHeader buf lh' ∧
      LaidOut (.host h) buf sizeofHeader m.data ∧ Pending lh' p := by
  have hlen : lh.recvlen = sizeofHeader + packedSize m.data + p.length := by
    rw [hp.length_eq, length_append, m.length_cells]
  have hge := packedSize_ge m.data
  have hbase := h.base_ge
  obtain ⟨hbytes, hrest⟩ := Mem.holds_append.mp (map_append ▸ hp.holds)
  rw [m.map_byte_cells] at hbytes hrest
  rw [m.length_bytes, zero_add] at hrest
  obtain ⟨hmagic, htmplen⟩ := m.read_header (k := sizeofHeader + packedSize m.data)
    (by omega) (by rwa [take_of_length_le m.length_bytes.le])
  have hfds : lh.recvfds = emitted m.data ++ p.flatMap Cell.fds := by
    rw [hp.fds_eq, flatMap_append, m.fds_cells]
  obtain ⟨s, hrun, hadv, hlaid, hframe⟩ := unpack_laidOut m.data hfit
    (s := ⟨lh.recvbuf, sizeofHeader, 0⟩) (m.laidOut hbytes)
    (show sizeofHeader + packedSize m.data ≤ lh.recvlen by omega)
    (show lh.recvfds.drop 0 = _ by rw [drop_zero, hfds])
    (show lh.recvlen - sizeofHeader + 2 ≤ lh.recvlen + 2 by omega)
  have hoff : s.dataOffset = sizeofHeader + packedSize m.data := hadv.dataOffset_eq
  have hfdoff : s.fdOffset = (emitted m.data).length := by simpa using hadv.fdOffset_eq
  have hleft : h.sub lh.recvlen s.dataOffset = p.length := by
    rw [Host.sub_of_le (by omega) (by omega)]
    omega
  simp only [sizeofData] at hge
  refine ⟨s.data, ⟨s.data.write 0 (s.data.read s.dataOffset p.length), p.length,
    lh.recvfds.drop s.fdOffset⟩, ?_, hlaid, rfl, ?_, ?_⟩
  · unfold launchdMsgRecv
    rw [if_neg (by omega)]
    rw [hmagic, htmplen, if_neg (by rintro (hne | hle); exacts [hne rfl, absurd hle (by omega)]),
      if_neg (by omega), launchDataUnpack, hrun]
    simp only [hleft]
  · have hkept : s.data.read s.dataOffset p.length = p.map Cell.byte := by
      rw [← hrest.read_eq (length_map _), hoff]
      refine read_congr (hframe.mono fun a ha => ?_)
      simp only [Set.mem_Ico, Set.mem_compl_iff] at ha ⊢
      omega
    rw [hkept]
    exact holds_write s.data 0 _
  · rw [hfdoff, hfds, drop_left]

end Pass

/-! ### One call -/

/-- The cells `p` in the buffer were the messages `ms`, which are now
delivered, and after them the beginning `p'` of what is still to come. -/
structure Consumes (p : List Cell) (ms : List Message) (p' : List Cell) (r : RecvResult) :
    Prop where
  cells_eq : p = ms.flatMap Message.cells ++ p'
  delivered : List.Forall₂ Message.DeliveredBy ms r.deliveries
  ends : ∀ e ∈ r.ends, e = .ok ∨ e = .eagain
  pending : Pending r.lh p'

variable {lh : Launch} {p : List Cell} {ms : List Message}

/-- Messages or the beginning of a message lie at the front of the stream:
the loop delivers the messages. If nothing is still to come, it empties the
buffer. -/
theorem recvLoop_consumes {h : Host} {rest : List Cell} (ms : List Message)
    (hcar : ∀ m ∈ ms, m.data.Carried) {fuel : ℕ} (hp : Pending lh p)
    (hcells : p ++ rest = ms.flatMap Message.cells) (hfit : h.base + lh.recvlen ≤ h.modulus)
    (hfuel : lh.recvlen < fuel) :
    ∃ ds ms' p', ms = ds ++ ms' ∧ Consumes p ds p' (recvLoop h fuel lh) ∧
      (rest = [] → p' = []) := by
  induction ms generalizing lh p fuel with
  | nil =>
    obtain ⟨rfl, -⟩ := append_eq_nil_iff.mp hcells
    rcases fuel with _ | fuel
    · omega
    have hstop : recvLoop h (fuel + 1) lh = ⟨[], [.ok], lh⟩ := if_pos hp.length_eq
    refine ⟨[], [], [], rfl, ?_, fun _ => rfl⟩
    rw [hstop]
    exact ⟨rfl, .nil, by simp, hp⟩
  | cons m ms ih =>
    rcases fuel with _ | fuel
    · omega
    rcases eq_or_ne p [] with rfl | hne
    · have hstop : recvLoop h (fuel + 1) lh = ⟨[], [.ok], lh⟩ := if_pos hp.length_eq
      refine ⟨[], m :: ms, [], rfl, ?_, fun _ => rfl⟩
      rw [hstop]
      exact ⟨rfl, .nil, by simp, hp⟩
    have hlen : lh.recvlen ≠ 0 := by
      rw [hp.length_eq]
      exact (length_pos_iff.mpr hne).ne'
    rw [recvLoop, if_neg hlen]
    rw [flatMap_cons] at hcells
    -- Either the message is not complete, or it lies at the front of the buffer.
    have hsplit : (∃ a, a ≠ [] ∧ p ++ a = m.cells ∧ rest = a ++ ms.flatMap Message.cells) ∨
        ∃ c, p = m.cells ++ c ∧ c ++ rest = ms.flatMap Message.cells := by
      rcases append_eq_append_iff.mp hcells with ⟨a, ha, hrest⟩ | ⟨c, hc, hrest⟩
      · rcases eq_or_ne a [] with rfl | hane
        · exact .inr ⟨[], by simpa using ha.symm, by simpa using hrest⟩
        · exact .inl ⟨a, hane, ha.symm, hrest⟩
      · exact .inr ⟨c, hc, hrest.symm⟩
    rcases hsplit with ⟨a, hane, ha, hrest⟩ | ⟨c, rfl, hrest⟩
    · rw [launchdMsgRecv_of_lt hp ha hane]
      refine ⟨[], m :: ms, p, rfl, ⟨rfl, .nil, by simp, hp⟩, fun hnil => ?_⟩
      rw [hrest] at hnil
      exact absurd (append_eq_nil_iff.mp hnil).1 hane
    · obtain ⟨buf, lh', hstep, hlaid, hp'⟩ := launchdMsgRecv_deliver hp hfit
      have hshort : lh.recvlen = m.cells.length + lh'.recvlen := by
        rw [hp.length_eq, hp'.length_eq, length_append]
      have hsize := m.length_cells
      simp only [sizeofHeader] at hsize
      obtain ⟨ds, ms', p', rfl, hcons, hend⟩ := ih (fun m' hm' => hcar m' (.tail m hm')) hp' hrest
        (by omega) (show lh'.recvlen < fuel by omega)
      rw [hstep]
      refine ⟨m :: ds, ms', p', rfl, ⟨?_, ?_, hcons.ends, hcons.pending⟩, hend⟩
      · rw [hcons.cells_eq, flatMap_cons, append_assoc]
      · refine .cons (hlaid.represents (hcar m (.head _)) ?_) hcons.delivered
        simp only [sizeofHeader]
        omega

/-! ### All calls -/

theorem cells_eq_nil (hms : ms.flatMap Message.cells = []) : ms = [] := by
  cases ms with
  | nil => rfl
  | cons m ms =>
    have hlen := congrArg length hms
    rw [flatMap_cons, length_append, m.length_cells, sizeofHeader] at hlen
    simp at hlen

theorem recvCalls_consumes (calls : List (Host × List Cell)) (hgot : ∀ c ∈ calls, c.2 ≠ [])
    (hroom : ∀ c ∈ calls, c.2.length ≤ recvRoom) (hcar : ∀ m ∈ ms, m.data.Carried)
    (hp : Pending lh p) (hend : calls = [] → p = [])
    (hcells : p ++ calls.flatMap Prod.snd = ms.flatMap Message.cells) (hplaced : Placed lh calls) :
    Consumes (ms.flatMap Message.cells) ms [] (recvCalls lh calls) := by
  induction calls generalizing ms lh p with
  | nil =>
    obtain rfl := hend rfl
    obtain rfl := cells_eq_nil hcells.symm
    exact ⟨rfl, .nil, by simp [recvCalls], hp⟩
  | cons call calls ih =>
    obtain ⟨h, cells⟩ := call
    obtain ⟨hfit, hplaced'⟩ := hplaced
    have hle : cells.length ≤ recvRoom := hroom _ (.head _)
    obtain ⟨c, cs, rfl⟩ := exists_cons_of_ne_nil (hgot _ (.head _))
    rw [flatMap_cons, ← append_assoc] at hcells
    have hlen : (lh.store (c :: cs)).recvlen = lh.recvlen + (c :: cs).length := rfl
    obtain ⟨ds, ms', p', rfl, hcons, hnil⟩ := recvLoop_consumes (h := h) ms hcar
      (hp.store (c :: cs)) hcells (by omega) (Nat.lt_succ_self _)
    rw [hcons.cells_eq, append_assoc, flatMap_append, append_cancel_left_eq] at hcells
    have hrest := ih (fun c' hc' => hgot c' (.tail _ hc')) (fun c' hc' => hroom c' (.tail _ hc'))
      (fun m hm => hcar m (mem_append_right _ hm)) hcons.pending
      (fun hcalls => hnil (by rw [hcalls]; rfl)) hcells hplaced'
    refine ⟨(append_nil _).symm, rel_append hcons.delivered hrest.delivered, ?_, hrest.pending⟩
    intro e he
    exact (mem_append.mp he).elim (hcons.ends e) (hrest.ends e)

/-- However a stream of messages is cut into pieces, the receiver delivers
these messages in order, once each, and is left with an empty buffer. -/
theorem recvCalls_reassembles (ms : List Message) (hcar : ∀ m ∈ ms, m.data.Carried)
    (calls : List (Host × List Cell)) (hcut : calls.flatMap Prod.snd = ms.flatMap Message.cells)
    (hgot : ∀ c ∈ calls, c.2 ≠ []) (hroom : ∀ c ∈ calls, c.2.length ≤ recvRoom) (recvbuf : Mem)
    (hplaced : Placed ⟨recvbuf, 0, []⟩ calls) :
    List.Forall₂ Message.DeliveredBy ms (recvCalls ⟨recvbuf, 0, []⟩ calls).deliveries ∧
      (recvCalls ⟨recvbuf, 0, []⟩ calls).lh.recvlen = 0 ∧
      (recvCalls ⟨recvbuf, 0, []⟩ calls).lh.recvfds = [] ∧
      ∀ e ∈ (recvCalls ⟨recvbuf, 0, []⟩ calls).ends, e = .ok ∨ e = .eagain := by
  have hp : Pending ⟨recvbuf, 0, []⟩ [] := ⟨rfl, holds_nil _ _, rfl⟩
  obtain ⟨-, hdel, hends, hpend⟩ :=
    recvCalls_consumes calls hgot hroom hcar hp (fun _ => rfl) hcut hplaced
  exact ⟨hdel, hpend.length_eq, hpend.fds_eq, hends⟩

def descriptorMessage : Message where
  sender := littleHost 8 (.inr rfl)
  lh := zeroSender
  data := .fd 5
  resident := trivial
  packed := by decide +kernel

def portMessage : Message where
  sender := littleHost 8 (.inr rfl)
  lh := zeroSender
  data := .machport 5
  resident := trivial
  packed := by decide +kernel

/-- A message that arrives in two pieces, on a machine with another word
size. -/
theorem recvCalls_reassembles_descriptor : List.Forall₂ Message.DeliveredBy [descriptorMessage]
      (recvCalls ⟨Mem.ofList [], 0, []⟩ [(littleHost 4 (.inl rfl), descriptorMessage.cells.take 11),
          (littleHost 4 (.inl rfl), descriptorMessage.cells.drop 11)]).deliveries := by
  refine (recvCalls_reassembles [descriptorMessage] ?_ _ ?_ ?_ ?_ _ ?_).1
  · simp [descriptorMessage, LaunchData.Carried]
  · simp
  · simp only [mem_cons, not_mem_nil, or_false, forall_eq_or_imp, forall_eq]
    exact ⟨ne_nil_of_length_pos (by decide +kernel), ne_nil_of_length_pos (by decide +kernel)⟩
  · decide +kernel
  · exact ⟨by decide +kernel, by decide +kernel, trivial⟩

/-- A Mach port does not make the trip: the receiver is handed what the
buffer of the sender held before. -/
theorem recvCalls_not_reassembles : ¬List.Forall₂ Message.DeliveredBy [portMessage]
      (recvCalls ⟨Mem.ofList [], 0, []⟩
        [(littleHost 4 (.inl rfl), portMessage.cells)]).deliveries := by
  intro hall
  obtain ⟨r, rs, hdel, -, heq⟩ := forall₂_cons_left_iff.mp hall
  have hzero : ∀ r ∈ (recvCalls ⟨Mem.ofList [], 0, []⟩
      [(littleHost 4 (.inl rfl), portMessage.cells)]).deliveries,
      r.host.order.val (r.buf.read (r.rmsg + valueField) 4) = 0 := by decide +kernel
  have hfive : r.host.order.val (r.buf.read (r.rmsg + valueField) 4) = (5 : UInt32).toNat := hdel.2
  rw [hzero r (by rw [heq]; exact .head _)] at hfive
  exact absurd hfive (by decide)

end Hexley.Launchd
