import Hexley.Launchd.RoundTrip

/-!
`launchd_msg_send` and the loop of `launch_msg_internal` that calls it
until a message is out.

The header of a message is a local variable of the first call. Only the
payload is in the buffer of the connection, so what a retry can send is
decided by what the first call left there. The first call takes the size
of the header off the count that the socket reports, as a signed number,
and uses the difference both to count what is left and to find where it
starts. When the socket takes less than a header the difference is
negative, and the rest of the message is taken from the bytes in front of
the buffer. These belong to the heap, which is why the sender is modelled
with the memory around its buffer.
-/

namespace Hexley.Launchd

open Lib List Mem

variable (len : ℕ) (h : Host) (d : LaunchData) (lh : Sender)

def Host.ofInt (x : ℤ) : ℕ := (x % h.modulus).toNat

/-- The sending half of `struct _launch`, with the memory around the
buffer. -/
structure Sender where
  heap : Mem
  sendbuf : ℕ
  sendlen : ℕ
  sendfds : List UInt32

inductive Sendmsg
  /-- It failed with `EAGAIN`. -/
  | eagain
  | sent (r : ℕ)

structure Sent where
  bytes : List UInt8
  rights : List (List UInt32)
  deriving DecidableEq

inductive SendStep
  | fault
  | enomem
  /-- `sendmsg` never reports the count that was assumed. -/
  | excluded
  /-- It returned, with `0` if nothing is left to be sent and with `EAGAIN`
  otherwise. -/
  | ret (done : Bool) (lh : Sender) (out : Sent)

def goodEnoughSize : ℕ := 10 * 1024 * 1024

/-- The room for descriptors in `sendfds`, which is four kilobytes. -/
def sendfdsRoom : ℕ := 1024

def launchMsgHeader : List UInt8 :=
  Endian.big.bytes 8 launchMsgHeaderMagic ++ Endian.big.bytes 8 len

/-- The control messages that go with the descriptors `fds`. -/
def rightsOf (fds : List UInt32) : List (List UInt32) := if fds = [] then [] else [fds]

/-- What `lh` is left with when `sendlen` bytes at `src` are still to be
sent: they are moved to the start of the buffer. -/
def Sender.keep (src sendlen : ℕ) : Sender where
  heap := if sendlen > 0 then lh.heap.write lh.sendbuf (lh.heap.read src sendlen) else lh.heap
  sendbuf := lh.sendbuf
  sendlen := sendlen
  sendfds := []

/-- The part of `launchd_msg_send` after the buffers have been set up. The
bytes `hdr` are those of `lmh` if there is a message and none if there is
not. -/
def sendVector (hdr : List UInt8) (lh : Sender) : Sendmsg → SendStep
  | .eagain => .ret false lh ⟨[], []⟩
  | .sent n =>
    let iov := hdr ++ lh.heap.read lh.sendbuf lh.sendlen
    if n = 0 ∨ iov.length < n then .excluded
    else
      let r : ℤ := (n : ℤ) - hdr.length
      let sendlen := h.ofInt (lh.sendlen - r)
      .ret (sendlen = 0) (lh.keep (lh.sendbuf + r).toNat sendlen) ⟨iov.take n, rightsOf lh.sendfds⟩

/-- `launchd_msg_send`. With a message the buffer of `lh` is the one that
`malloc` has just returned. -/
def launchdMsgSend (d : Option LaunchData) (lh : Sender) (o : Sendmsg) : SendStep :=
  match d with
  | none => sendVector h [] lh o
  | some d =>
    let r := launchDataPack h d lh.sendbuf goodEnoughSize ⟨lh.heap, some []⟩
    let fds := r.2.fds.getD []
    if sendfdsRoom < fds.length then .fault
    else if r.1 = 0 then .enomem
    else
      sendVector h (launchMsgHeader (r.1 + sizeofHeader))
        { heap := r.2.buf, sendbuf := lh.sendbuf, sendlen := r.1, sendfds := fds } o

inductive SendEnd
  | fault
  | enomem
  | excluded
  /-- No more is known of what `sendmsg` reports. -/
  | unfinished
  | completed (out : Sent)

/-- The `do` loop of `launch_msg_internal`, with what has gone out so far. -/
def retrySend (h : Host) (lh : Sender) (out : Sent) : List Sendmsg → SendEnd
  | [] => .unfinished
  | o :: os =>
    match launchdMsgSend h none lh o with
    | .fault => .fault
    | .enomem => .enomem
    | .excluded => .excluded
    | .ret true _ more => .completed ⟨out.bytes ++ more.bytes, out.rights ++ more.rights⟩
    | .ret false lh more => retrySend h lh ⟨out.bytes ++ more.bytes, out.rights ++ more.rights⟩ os

/-- The sending of a message by `launch_msg_internal`, for the reports of
`sendmsg` in turn. -/
def sendMessage : List Sendmsg → SendEnd
  | [] => .unfinished
  | o :: os =>
    match launchdMsgSend h (some d) lh o with
    | .fault => .fault
    | .enomem => .enomem
    | .excluded => .excluded
    | .ret true _ out => .completed out
    | .ret false lh out => retrySend h lh out os

def payload : List UInt8 :=
  (launchDataPack h d lh.sendbuf goodEnoughSize ⟨lh.heap, some []⟩).2.buf.read lh.sendbuf
    (packedSize d)

def frame : List UInt8 :=
  launchMsgHeader (packedSize d + sizeofHeader) ++ payload h d lh

theorem goodEnoughSize_lt : goodEnoughSize + sizeofHeader < h.modulus := by
  rcases h.modulus_eq with hm | hm <;> rw [hm] <;> decide

/-! ### One call -/

@[simp] theorem length_header : (launchMsgHeader len).length = sizeofHeader := by
  simp [launchMsgHeader, sizeofHeader]

section Send

variable {h : Host} {hdr : List UInt8} {lh : Sender}

variable {n : ℕ}

theorem Host.ofInt_natCast {x : ℤ} (hx : x = n) (hn : n < h.modulus) : h.ofInt x = n := by
  rw [Host.ofInt, hx, Int.emod_eq_of_lt (Int.natCast_nonneg n) (by omega), Int.toNat_natCast]

theorem Sender.read_keep (lh : Sender) (src sendlen : ℕ) :
    (lh.keep src sendlen).heap.read lh.sendbuf sendlen = lh.heap.read src sendlen := by
  unfold Sender.keep
  rcases eq_zero_or_pos sendlen with hz | hpos
  · rw [hz, read_zero, read_zero]
  · simp only [if_pos hpos]
    exact read_write_len (length_read _ _ _)

/-- A call to which the socket reports `n` bytes. What is left then lies
`n` bytes past the place where a header in front of the buffer would
start. -/
theorem sendVector_sent (hlen : hdr.length + lh.sendlen < h.modulus) (hn : 0 < n)
    (hle : n ≤ hdr.length + lh.sendlen) : sendVector h hdr lh (.sent n) =
      .ret (n = hdr.length + lh.sendlen)
        (lh.keep (lh.sendbuf + n - hdr.length) (hdr.length + lh.sendlen - n))
        ⟨(hdr ++ lh.heap.read lh.sendbuf lh.sendlen).take n, rightsOf lh.sendfds⟩ := by
  have hrest : h.ofInt (lh.sendlen - ((n : ℤ) - hdr.length)) = hdr.length + lh.sendlen - n :=
    Host.ofInt_natCast (by omega) (by omega)
  have hsrc : ((lh.sendbuf : ℤ) + ((n : ℤ) - hdr.length)).toNat = lh.sendbuf + n - hdr.length := by
    omega
  have hdone : (hdr.length + lh.sendlen - n = 0) = (n = hdr.length + lh.sendlen) :=
    propext ⟨fun hz => by omega, fun hz => by omega⟩
  have hvalid : ¬(n = 0 ∨ (hdr ++ lh.heap.read lh.sendbuf lh.sendlen).length < n) := by
    rw [length_append, length_read]
    omega
  simp only [sendVector, if_neg hvalid, hrest, hsrc, hdone]

/-- A count that is not excluded is at most what was offered. -/
theorem sendVector_excluded (hn : ¬(0 < n ∧ n ≤ hdr.length + lh.sendlen)) :
    sendVector h hdr lh (.sent n) = .excluded := by
  simp only [sendVector]
  rw [if_pos]
  rw [length_append, length_read]
  omega

/-! ### Retries -/

variable {out : Sent} {os : List Sendmsg}

/-- However often the socket is full and however little it takes, the
retries send what was in the buffer, and pass the descriptors once. -/
theorem retrySend_completed {out' : Sent} (hlen : lh.sendlen < h.modulus)
    (hrun : retrySend h lh out os = .completed out') :
    out' = ⟨out.bytes ++ lh.heap.read lh.sendbuf lh.sendlen,
      out.rights ++ rightsOf lh.sendfds⟩ := by
  induction os generalizing lh out with
  | nil => exact absurd hrun (by simp [retrySend])
  | cons o os ih =>
    cases o with
    | eagain =>
      have hstep := ih hlen hrun
      simpa using hstep
    | sent n =>
      by_cases hn : 0 < n ∧ n ≤ ([] : List UInt8).length + lh.sendlen
      swap
      · rw [retrySend, launchdMsgSend, sendVector_excluded hn] at hrun
        exact absurd hrun (by simp)
      have hcall : sendVector h [] lh (.sent n) = _ :=
        sendVector_sent (by simpa using hlen) hn.1 hn.2
      simp only [length_nil, Nat.zero_add, Nat.sub_zero, nil_append] at hcall hn
      have hsplit : lh.heap.read lh.sendbuf lh.sendlen =
          (lh.heap.read lh.sendbuf lh.sendlen).take n ++
            lh.heap.read (lh.sendbuf + n) (lh.sendlen - n) := read_eq_take_append hn.2
      rw [retrySend, launchdMsgSend, hcall] at hrun
      by_cases hdone : n = lh.sendlen
      · simp only [hdone, decide_true, SendEnd.completed.injEq] at hrun
        rw [← hrun, take_of_length_le (by simp)]
      · simp only [hdone, decide_false] at hrun
        have hkeep := lh.read_keep (lh.sendbuf + n) (lh.sendlen - n)
        have hstep := ih (show lh.sendlen - n < h.modulus by omega) hrun
        rw [hstep, Sent.mk.injEq, append_assoc]
        refine ⟨congrArg _ ?_, by simp [Sender.keep, rightsOf]⟩
        conv_rhs => rw [hsplit]
        exact congrArg _ hkeep

/-! ### A whole message -/

variable {d : LaunchData}

theorem msgSend_some (hres : d.Resident h) {o : Sendmsg} {done : Bool}
    {lh' : Sender} (hcall : launchdMsgSend h (some d) lh o = .ret done lh' out) :
    packedSize d ≤ goodEnoughSize ∧ ∃ heap : Mem, Set.EqOn heap lh.heap (Set.Iio lh.sendbuf) ∧
        heap.read lh.sendbuf (packedSize d) = payload h d lh ∧
        sendVector h (launchMsgHeader (packedSize d + sizeofHeader))
          ⟨heap, lh.sendbuf, packedSize d, emitted d⟩ o = .ret done lh' out := by
  have hmod : goodEnoughSize < h.modulus := by
    have := goodEnoughSize_lt h
    omega
  rcases pack_fst d hres hmod lh.sendbuf ⟨lh.heap, some []⟩ with
    ⟨hroom, hsize⟩ | ⟨-, hzero⟩
  swap
  · simp only [launchdMsgSend, hzero] at hcall
    split at hcall <;> exact absurd hcall (by simp)
  obtain ⟨-, hbuf, hfds⟩ := pack_laidOut d hres hmod lh.sendbuf ⟨lh.heap, some []⟩ hroom
  have hge := packedSize_ge d
  simp only [sizeofData] at hge
  refine ⟨hroom, _, hbuf.mono fun a ha => ?_, rfl, ?_⟩
  · simp only [Set.mem_Iio, Set.mem_compl_iff, Set.mem_Ico] at ha ⊢
    omega
  · simp only [launchdMsgSend, hfds, hsize] at hcall
    split at hcall
    · exact absurd hcall (by simp)
    · rw [if_neg (by omega)] at hcall
      simpa using hcall

/-- After `EAGAIN` at the first call the header is gone, and the retries
send the payload only. -/
theorem sendMessage_eagain (hres : d.Resident h)
    (hrun : sendMessage h d lh (.eagain :: os) = .completed out) :
    out = ⟨payload h d lh, rightsOf (emitted d)⟩ := by
  rw [sendMessage] at hrun
  cases hcall : launchdMsgSend h (some d) lh .eagain with
  | fault | enomem | excluded => exact absurd hrun (by simp [hcall])
  | ret done lh' first =>
    obtain ⟨hroom, heap, -, hpay, hvec⟩ := msgSend_some hres hcall
    have hmod := goodEnoughSize_lt h
    obtain ⟨rfl, rfl, rfl⟩ := hvec
    rw [hcall] at hrun
    have hout := retrySend_completed (show packedSize d < h.modulus by omega) hrun
    rw [hout, hpay]
    rfl

/-- After the first call took `n` bytes the retries send what lies `n`
bytes past the place where a header in front of the buffer would start. -/
theorem sendMessage_sent (hres : d.Resident h)
    (hrun : sendMessage h d lh (.sent n :: os) = .completed out) :
    n ≤ sizeofHeader + packedSize d ∧ ∃ heap : Mem, Set.EqOn heap lh.heap (Set.Iio lh.sendbuf) ∧
        heap.read lh.sendbuf (packedSize d) = payload h d lh ∧
        out = ⟨(frame h d lh).take n ++ heap.read (lh.sendbuf + n - sizeofHeader)
            (sizeofHeader + packedSize d - n), rightsOf (emitted d)⟩ := by
  rw [sendMessage] at hrun
  cases hcall : launchdMsgSend h (some d) lh (.sent n) with
  | fault | enomem | excluded => exact absurd hrun (by simp [hcall])
  | ret done lh' first =>
    obtain ⟨hroom, heap, hbelow, hpay, hvec⟩ := msgSend_some hres hcall
    have hmod := goodEnoughSize_lt h
    by_cases hn : 0 < n ∧ n ≤ sizeofHeader + packedSize d
    swap
    · rw [sendVector_excluded (by rwa [length_header])] at hvec
      exact absurd hvec (by simp)
    rw [sendVector_sent (by simp only [length_header]; omega) hn.1 (by simpa using hn.2)] at hvec
    simp only [length_header, hpay, SendStep.ret.injEq] at hvec
    obtain ⟨hdone, hlh, hfirst⟩ := hvec
    refine ⟨hn.2, heap, hbelow, hpay, ?_⟩
    rw [hcall] at hrun
    cases done with
    | true =>
      have hall : n = sizeofHeader + packedSize d := of_decide_eq_true hdone
      simp only [SendEnd.completed.injEq] at hrun
      rw [← hrun, ← hfirst, hall, Nat.sub_self, read_zero, append_nil]
      rfl
    | false =>
      have hout := retrySend_completed (by rw [← hlh]; simp only [Sender.keep]; omega) hrun
      rw [hout, ← hlh, ← hfirst, Sent.mk.injEq, frame]
      exact ⟨congrArg _ (Sender.read_keep _ _ _), by simp [Sender.keep, rightsOf]⟩

/-- The first report of `sendmsg` lets the whole header out: at least the
header is taken, or the heap in front of the buffer happens to hold the
rest of it. -/
def HeaderLeaves (d : LaunchData) (lh : Sender) : Sendmsg → Prop
  | .eagain => False
  | .sent n =>
    sizeofHeader ≤ n ∨ lh.heap.read (lh.sendbuf - (sizeofHeader - n)) (sizeofHeader - n) =
        (launchMsgHeader (packedSize d + sizeofHeader)).drop n

/-- Once a message is out, the stream has its header and its payload and
its descriptors were passed once, if and only if the first call got the
header out. -/
theorem sendMessage_frame_iff (h : Host) (d : LaunchData) (hres : d.Resident h) (lh : Sender)
    (hbuf : sizeofHeader ≤ lh.sendbuf) (o : Sendmsg) (os : List Sendmsg) (out : Sent)
    (hrun : sendMessage h d lh (o :: os) = .completed out) :
    out = ⟨frame h d lh, rightsOf (emitted d)⟩ ↔ HeaderLeaves d lh o := by
  have hlen : (payload h d lh).length = packedSize d := length_read _ _ _
  cases o with
  | eagain =>
    rw [sendMessage_eagain hres hrun]
    refine iff_of_false (fun heq => ?_) id
    have hbytes := congrArg (fun s : Sent => s.bytes.length) heq
    simp [frame, hlen, sizeofHeader] at hbytes
  | sent n =>
    obtain ⟨hle, heap, hbelow, hpay, hout⟩ := sendMessage_sent hres hrun
    rw [hout, Sent.mk.injEq, eq_self, and_true]
    rcases lt_or_ge n sizeofHeader with hshort | hlong
    · have hread : heap.read (lh.sendbuf + n - sizeofHeader) (sizeofHeader + packedSize d - n) =
          lh.heap.read (lh.sendbuf - (sizeofHeader - n)) (sizeofHeader - n) ++ payload h d lh := by
        rw [show lh.sendbuf + n - sizeofHeader = lh.sendbuf - (sizeofHeader - n) by omega,
          show sizeofHeader + packedSize d - n = sizeofHeader - n + packedSize d by omega, read_add,
          show lh.sendbuf - (sizeofHeader - n) + (sizeofHeader - n) = lh.sendbuf by omega, hpay]
        refine congrArg (· ++ _) (read_congr (hbelow.mono fun a ha => ?_))
        simp only [Set.mem_Ico, Set.mem_Iio] at ha ⊢
        omega
      rw [hread, frame, take_append_of_le_length (by simp; omega), ← append_assoc, append_left_inj]
      conv_lhs => rhs; rw [← take_append_drop n (launchMsgHeader _)]
      rw [append_right_inj]
      exact ⟨.inr, fun hleaves => hleaves.resolve_left (by omega)⟩
    · refine iff_of_true ?_ (.inl hlong)
      obtain ⟨k, rfl⟩ : ∃ k, n = sizeofHeader + k := ⟨n - sizeofHeader, by omega⟩
      have hlast : payload h d lh =
          (payload h d lh).take k ++ heap.read (lh.sendbuf + k) (packedSize d - k) := by
        rw [← hpay]
        exact read_eq_take_append (by omega)
      rw [frame, take_append, length_header, Nat.add_sub_cancel_left,
        take_of_length_le (by simp), append_assoc]
      rw [show lh.sendbuf + (sizeofHeader + k) - sizeofHeader = lh.sendbuf + k by
          omega,
        show sizeofHeader + packedSize d - (sizeofHeader + k) = packedSize d - k by omega, ← hlast]

end Send

def zeroSender : Sender where
  heap := Mem.ofList []
  sendbuf := 4096
  sendlen := 0
  sendfds := []

/-- A message that leaves in two pieces, the first of which ends in the
payload. -/
theorem sendMessage_frame_fd :
    sendMessage (littleHost 8 (.inr rfl)) (.fd 5) zeroSender [.sent 20, .eagain, .sent 20] =
        .completed ⟨frame (littleHost 8 (.inr rfl)) (.fd 5) zeroSender, rightsOf [5]⟩ ↔
      HeaderLeaves (.fd 5) zeroSender (.sent 20) := by
  have hrun : sendMessage (littleHost 8 (.inr rfl)) (.fd 5) zeroSender
      [.sent 20, .eagain, .sent 20] =
        .completed ⟨frame (littleHost 8 (.inr rfl)) (.fd 5) zeroSender,
        rightsOf [5]⟩ := by rfl
  have hiff := sendMessage_frame_iff (littleHost 8 (.inr rfl)) (.fd 5) trivial zeroSender
    (by decide) (.sent 20) [.eagain, .sent 20] _ hrun
  exact ⟨fun _ => hiff.mp rfl, fun _ => hrun⟩

/-- If the socket is full at first the stream has no header, and if it takes
one byte at first the rest of the header is replaced by the heap. -/
theorem sendMessage_not_frame :
    (∃ out, sendMessage (littleHost 8 (.inr rfl)) (.fd 5) zeroSender [.eagain, .sent 24] =
        .completed out ∧ out ≠ ⟨frame (littleHost 8 (.inr rfl)) (.fd 5) zeroSender, rightsOf [5]⟩) ∧
      ∃ out, sendMessage (littleHost 8 (.inr rfl)) (.fd 5) zeroSender [.sent 1, .sent 39] =
        .completed out ∧
          out ≠ ⟨frame (littleHost 8 (.inr rfl)) (.fd 5) zeroSender, rightsOf [5]⟩ := by
  refine ⟨⟨_, rfl, ?_⟩, ⟨_, rfl, ?_⟩⟩ <;> decide +kernel

end Hexley.Launchd
