import Magneto.Model
import Magneto.RedisParser

/-!
# The Redis protocol

`ProtocolWriteRedis` and `ProtocolReadRedis`. Both take C strings where they are
given bytes: the writer reads its buffer up to the first NUL, wherever that is,
and the reader appends each chunk up to its first NUL.
-/

namespace Magneto.Redis

open IOHelper (SockIn SockOut readNonBlock)

/-- A slice and the memory that follows it. -/
structure Slice where
  data : List UInt8
  beyond : List UInt8
  deriving DecidableEq, Repr

def cString (bs : List UInt8) : List UInt8 := bs.takeWhile (· ≠ 0)

structure Writer where
  input : List UInt8
  out : List UInt8
  outPos : ℕ
  deriving DecidableEq, Repr

def Writer.reset (w : Writer) (buf : Slice) : Writer :=
  { w with input := cString (buf.data ++ buf.beyond), outPos := 0 }

def Writer.encode (w : Writer) : Bool × Writer :=
  match RedisParser.parseCmd w.input with
  | some out => (true, { w with out := out })
  | none => (false, w)

def Writer.write (w : Writer) (out : SockOut) : WriteCall Writer :=
  let c := IOHelper.writeNonBlock (w.out.drop w.outPos) out
  if 0 < c.1 then
    let outPos := w.outPos + c.2.length
    ⟨Word.narrow ((w.out.length : ℤ) - outPos), { w with outPos := outPos }, c.2⟩
  else ⟨if c.1 = 0 then Protocol.kEnd else c.1, w, c.2⟩

def kTmpBufSize : ℕ := 100

structure Reader where
  reply : List UInt8
  out : List UInt8
  deriving DecidableEq, Repr

def Reader.reset (_ : Reader) : Reader := ⟨[], []⟩

/-- The loop of `Read`: whether the socket failed, the reply so far and the bytes taken.
A full chunk is followed by another one. -/
def readChunks : ℕ → List UInt8 → List UInt8 → SockIn → Bool × List UInt8 × List UInt8
  | 0, reply, got, _ => (true, reply, got)
  | k + 1, reply, got, s =>
    let c := readNonBlock kTmpBufSize s
    if 0 ≤ c.ret then
      let reply := reply ++ cString c.got
      if c.ret < kTmpBufSize then (true, reply, got ++ c.got)
      else readChunks k reply (got ++ c.got) c.rest
    else (false, reply, got)

def pendingBytes : SockIn → ℕ
  | [] => 0
  | .data bs :: rest => bs.length + pendingBytes rest
  | .fail _ :: rest => pendingBytes rest

def Reader.read (r : Reader) (s : SockIn) : ReadCall Reader :=
  match readChunks (pendingBytes s + 1) r.reply [] s with
  | (false, reply, got) => ⟨-1, { r with reply := reply }, got⟩
  | (true, reply, got) =>
    let p := (RedisParser.parseReply reply r.out).1
    ⟨p.ret, ⟨reply, p.out⟩, got⟩

def Reader.decode (r : Reader) : Bool × Reader := (true, r)

def Reader.data (r : Reader) : List UInt8 := r.out
def Reader.size (r : Reader) : ℕ := r.out.length

def protocols : Protocols where
  Buf := Slice
  Writer := Writer
  Reader := Reader
  newWriter _ := ⟨[], [], 0⟩
  newReader _ := ⟨[], []⟩
  resetWriter := Writer.reset
  encode := Writer.encode
  write := Writer.write
  resetReader := Reader.reset
  read := Reader.read
  decode := Reader.decode

end Magneto.Redis
