import Magneto.Model

/-!
# The Thrift protocol

`ProtocolWriteThrift` and `ProtocolReadThrift`: a frame is its size in network order and
a body, which begins with the header of a message. The binary protocol of the Thrift
library, which writes and reads that header, is a parameter; an exception of it is no
result.
-/

namespace Magneto.Thrift

open IOHelper (SockIn SockOut readNonBlock writeVecNonBlock)
open Word (beNat beBytes narrow)

def kMinSizeBuf : ℕ := 9
def kMaxSizeBuf : ℕ := 8 * 2 ^ 20

def headerSize : ℕ := 4

inductive Direction
  | kRequest | kReply | kOneway
  deriving DecidableEq, Repr

inductive MessageType
  | call | reply | oneway | other
  deriving DecidableEq, Repr

/-- What `readMessageBegin` reads, and the number of bytes it has consumed. -/
structure MessageBegin where
  fn : List UInt8
  mtype : MessageType
  seqid : ℤ
  sizeFunc : ℕ
  deriving DecidableEq, Repr

structure TBinaryProtocol where
  writeMessageBegin : List UInt8 → MessageType → ℤ → Option (List UInt8)
  readMessageBegin : List UInt8 → Option MessageBegin

structure Params where
  fn : List UInt8
  dir : Direction
  seqid : ℤ
  deriving DecidableEq, Repr

/-- `size_all_` is in network order; `tmp_iovs_` are the slices still to be written, and are
`refused` when one of them has a length below zero. -/
structure Writer where
  structBytes : List UInt8
  params : Params
  sizeAll : List UInt8
  iovs : List (List UInt8)
  refused : Bool
  deriving DecidableEq, Repr

def Writer.reset (w : Writer) (buf : List UInt8 × Params) : Writer :=
  { w with structBytes := buf.1, params := buf.2 }

def messageType : Direction → MessageType
  | .kRequest => .call
  | .kReply => .reply
  | .kOneway => .oneway

def Writer.encode (p : TBinaryProtocol) (w : Writer) : Bool × Writer :=
  match p.writeMessageBegin w.params.fn (messageType w.params.dir) w.params.seqid with
  | none => (false, w)
  | some bufProto =>
    let sizeAll := beBytes headerSize (bufProto.length + w.structBytes.length)
    (true, { w with
      sizeAll := sizeAll, iovs := [sizeAll, bufProto, w.structBytes], refused := false })

/-- The number of bytes left, in the `int` that `Write` returns it in. -/
def bytesLeft : List (List UInt8) → ℤ
  | [] => 0
  | [iov] => narrow iov.length
  | [iov₀, iov₁] => narrow (iov₀.length + iov₁.length : ℕ)
  | iov₀ :: iov₁ :: iov₂ :: _ => narrow (iov₀.length + iov₁.length + iov₂.length : ℕ)

def Writer.write (w : Writer) (out : SockOut) : WriteCall Writer :=
  if w.refused then ⟨-2, w, []⟩
  else
    let c := writeVecNonBlock w.iovs out
    ⟨if 0 < c.ret then bytesLeft c.iovs else if c.ret = 0 then Protocol.kEnd else c.ret,
      { w with iovs := c.iovs, refused := c.refused }, c.put⟩

structure Reader where
  buffer : List UInt8
  readHeader : Bool
  sizeBody : ℕ
  structBytes : List UInt8
  fn : List UInt8
  dir : Direction
  seqid : ℤ
  deriving DecidableEq, Repr

def Reader.reset (r : Reader) : Reader := { r with buffer := [], readHeader := true }

def Reader.data (r : Reader) : List UInt8 := r.structBytes

def Reader.size (r : Reader) : ℕ := r.structBytes.length

/-- An iteration of the loop of `Read` after the size is complete. -/
def Reader.readBody (hasBytesRead : Bool) (r : Reader) (got : List UInt8) (s : SockIn) :
    ReadCall Reader :=
  let bytesLeft := r.sizeBody - r.buffer.length
  let c := readNonBlock bytesLeft s
  if 0 < c.ret then
    ⟨narrow (bytesLeft - c.ret), { r with buffer := r.buffer ++ c.got }, got ++ c.got⟩
  else if c.ret = 0 then ⟨if hasBytesRead then narrow bytesLeft else Protocol.kEnd, r, got⟩
  else ⟨c.ret, r, got⟩

/-- The iterations of the loop of `Read` on the size: each reads a byte or is the last. -/
def Reader.readLoop : ℕ → Bool → Reader → List UInt8 → SockIn → ReadCall Reader
  | 0, _, r, got, _ => ⟨Protocol.kEnd, r, got⟩
  | k + 1, hasBytesRead, r, got, s =>
    let bytesLeft := headerSize - r.buffer.length
    let c := readNonBlock bytesLeft s
    if 0 < c.ret then
      let buffer := r.buffer ++ c.got
      if buffer.length = headerSize then
        readBody true { r with buffer := [], readHeader := false, sizeBody := beNat buffer }
          (got ++ c.got) c.rest
      else readLoop k true { r with buffer := buffer } (got ++ c.got) c.rest
    else if c.ret = 0 then ⟨if hasBytesRead then narrow bytesLeft else Protocol.kEnd, r, got⟩
    else ⟨c.ret, r, got⟩

def Reader.read (r : Reader) (s : SockIn) : ReadCall Reader :=
  if r.readHeader then readLoop headerSize false r [] s else readBody false r [] s

def direction : MessageType → Option Direction
  | .call => some .kRequest
  | .reply => some .kReply
  | .oneway => some .kOneway
  | .other => none

def Reader.decode (readMessageBegin : List UInt8 → Option MessageBegin) (r : Reader) :
    Bool × Reader :=
  if r.buffer.length < kMinSizeBuf ∨ kMaxSizeBuf < r.buffer.length then (false, r)
  else match readMessageBegin r.buffer with
    | none => (false, r)
    | some m =>
      let r := { r with fn := m.fn, seqid := m.seqid }
      match direction m.mtype with
      | none => (false, r)
      | some dir => (true, { r with dir := dir, structBytes := r.buffer.drop m.sizeFunc })

end Magneto.Thrift
