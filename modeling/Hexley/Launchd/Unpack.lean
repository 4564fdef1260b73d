import Hexley.Launchd.Pack
import Hexley.Lib.Outcome

/-!
`launch_data_unpack`, which parses a packed object in place, and the part
of `launchd_msg_recv` that calls it.

The counts and lengths come from the peer. They are 64-bit numbers on the
wire, cut to `size_t` when they are read, and everything the decoder
computes from them wraps around at the size of the machine word.

An access to a byte at or beyond `data_size` ends the run with
`Outcome.fault`, so that "the decoder stays inside the buffer" is the
statement that a run does not end that way. The recursion is on a fuel
argument. Every element the decoder gets past is at least 24 bytes long
and lies inside the buffer, so the fuel that `launchDataUnpack` provides
is never used up (`unpack_verdict`).
-/

namespace Hexley.Launchd

open Lib Endian

/-- What the decoder changes: the buffer, `*data_offset` and `*fdoffset`. -/
structure UnpackState where
  data : Mem
  dataOffset : ℕ
  fdOffset : ℕ

variable (s : UnpackState) (h : Host)

def UnpackState.store (p : ℕ) (bs : List UInt8) : UnpackState :=
  { s with data := s.data.write p bs }

def UnpackState.moveTo (o : ℕ) : UnpackState := { s with dataOffset := o }

/-- A value and what the decoder has changed. -/
abbrev Run (α : Type) := Outcome (α × UnpackState)

/-- The end of `launch_data_unpack`: the type is put in host order. -/
def finish (r : ℕ) (t : DataType) (s : UnpackState) : Run (Option ℕ) :=
  .ok (some r, s.store r (h.order.bytes 8 t.code))

/-- The scalar cases of `launch_data_unpack`, which rewrite the value field
of the object at `r`. -/
def unpackScalar (fds : List UInt32) (r : ℕ) (t : DataType) (s : UnpackState) :
    UnpackState :=
  match t with
  | .fd =>
    if s.data.read (r + valueField) 4 ≠ h.order.bytes 4 noFd.toNat then
      match fds[s.fdOffset]? with
      | some fd =>
        { s.store (r + valueField) (h.order.bytes 4 fd.toNat) with fdOffset := s.fdOffset + 1 }
      | none => s
    else s
  | .integer =>
    s.store (r + valueField)
      (h.order.bytes 8 (big.val (s.data.read (r + valueField) 8)))
  | .real =>
    s.store (r + valueField)
      (h.order.bytes 8 (h.big2hostDouble (h.order.val (s.data.read (r + valueField) 8))))
  | .bool | .errno =>
    s.store (r + valueField)
      (h.order.bytes 4 (big.val (s.data.read (r + valueField) 4)))
  | _ => s

/-- The string and opaque cases of `launch_data_unpack`: `need` bytes must
follow the header of the object at `r`, and `skip` bytes are stepped over. -/
def unpackBlob (size r : ℕ) (t : DataType) (cnt need skip : ℕ) (s : UnpackState) :
    Run (Option ℕ) :=
  if h.sub size s.dataOffset < need then .ok (none, s)
  else
    finish h r t
      (((s.store (r + valueField) (h.pointer (some s.dataOffset))).store
        (r + countField) (h.order.bytes 8 cnt)).moveTo (h.wrap (s.dataOffset + skip)))

/-- The cases of `launch_data_unpack` for objects without children. -/
def unpackPlain (size : ℕ) (fds : List UInt32) (r : ℕ) (t : DataType) (cnt : ℕ)
    (s : UnpackState) : Run (Option ℕ) :=
  match t with
  | .string => unpackBlob h size r t cnt (h.wrap (cnt + 1)) (h.round (cnt + 1)) s
  | .opaqueData => unpackBlob h size r t cnt cnt (h.round cnt) s
  | _ => finish h r t (unpackScalar h fds r t s)

mutual
/-- `launch_data_unpack`: the offset of the object, or `none` for a null
result. `size` is `data_size`. -/
def unpackFrom (h : Host) (size : ℕ) (fds : List UInt32) (fuel : ℕ) (s : UnpackState) :
    Run (Option ℕ) :=
  match fuel with
  | 0 => .exhausted
  | fuel + 1 =>
    let r := s.dataOffset
    if h.sub size r < sizeofData then .ok (none, s)
    -- From here on the code uses the fields of the object at `r`.
    else if size < r + sizeofData then .fault
    else
      let s := s.moveTo (h.wrap (r + sizeofData))
      let cnt := h.wrap (big.val (s.data.read (r + countField) 8))
      match DataType.ofCode (big.val (s.data.read r 8)) with
      | none => .ok (none, s)
      | some t =>
        if t.isContainer then
          if h.sub size s.dataOffset < h.wrap (cnt * 8) then .ok (none, s)
          else
            (unpackElems h size fds fuel s.dataOffset cnt 0
              ((s.store (r + valueField) (h.pointer (some s.dataOffset))).moveTo
                (h.wrap (s.dataOffset + h.wrap (cnt * 8))))).andThen fun (complete, s) =>
              if complete then finish h r t (s.store (r + countField) (h.order.bytes 8 cnt))
              else .ok (none, s)
        else unpackPlain h size fds r t cnt s

/-- The loop of `launch_data_unpack` over the children of a container:
children `i` up to `cnt` are still to be parsed, and the pointers to them
go to the slots from `arr` on. The result says whether all of them were
there. -/
def unpackElems (h : Host) (size : ℕ) (fds : List UInt32) (fuel arr cnt i : ℕ) (s : UnpackState) :
    Run Bool :=
  if i < cnt then
    match fuel with
    | 0 => .exhausted
    | fuel + 1 =>
      (unpackFrom h size fds fuel s).andThen fun (p, s) =>
        if size < arr + i * h.word + h.word then .fault
        else
          match p with
          | none => .ok (false, s.store (arr + i * h.word) (h.pointer p))
          | some _ =>
            unpackElems h size fds fuel arr cnt (i + 1)
              (s.store (arr + i * h.word) (h.pointer p))
  else .ok (true, s)
end

def launchDataUnpack (data : Mem) (size : ℕ) (fds : List UInt32)
    (dataOffset fdOffset : ℕ) : Run (Option ℕ) :=
  unpackFrom h size fds (size + 2) ⟨data, dataOffset, fdOffset⟩

/-! ### Receiving a message -/

/-- The receiving half of `struct _launch`. -/
structure Launch where
  recvbuf : Mem
  recvlen : ℕ
  recvfds : List UInt32

def launchMsgHeaderMagic : ℕ := 0xD2FEA02366B39A41

def sizeofHeader : ℕ := 16

/-- What one pass of the loop of `launchd_msg_recv` does. -/
inductive RecvStep
  /-- The message is not complete: `EAGAIN`. -/
  | needMoreData
  /-- The message is not well formed: `EBADRPC`. -/
  | badRpc
  | fault
  /-- The object at `rmsg` of the rewritten buffer is handed to the
  callback, and the bytes and descriptors of the message are dropped. -/
  | deliver (rmsg : ℕ) (buf : Mem) (lh : Launch)

/-- One pass of the loop of `launchd_msg_recv`, with a callback that leaves
the connection open. -/
def launchdMsgRecv (lh : Launch) : RecvStep :=
  if lh.recvlen < sizeofHeader then .needMoreData
  else
    let tmplen := big.val (lh.recvbuf.read 8 8)
    if big.val (lh.recvbuf.read 0 8) ≠ launchMsgHeaderMagic ∨
        tmplen ≤ sizeofHeader then .badRpc
    else if lh.recvlen < tmplen then .needMoreData
    else
      match launchDataUnpack h lh.recvbuf lh.recvlen lh.recvfds sizeofHeader 0 with
      | .fault | .exhausted => .fault
      | .failed | .ok (none, _) => .badRpc
      | .ok (some rmsg, s) =>
        let n := h.sub lh.recvlen s.dataOffset
        .deliver rmsg s.data
          { recvbuf := s.data.write 0 (s.data.read s.dataOffset n)
            recvlen := n
            recvfds := lh.recvfds.drop s.fdOffset }

end Hexley.Launchd
