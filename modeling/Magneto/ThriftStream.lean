import Magneto.FramedRead
import Magneto.FramedWrite
import Magneto.Lib.Machine
import Magneto.Thrift

/-!
# A Thrift message over a connection

A message is written with a `ProtocolWriteThrift`, `Reset`, `Encode` and `Write`
until 0, and read with a `ProtocolReadThrift`, `Reset`, `Read` until 0 and
`Decode`. The connection keeps the bytes in order; how many of them a call takes
or finds is arbitrary, as long as it is not none. The frame is sent as it is when
every `writev` leaves the bytes in the vector that did not go out.
-/

namespace Magneto.Thrift

open IOHelper (SockIn SockOut Astray keeps keepsAll writeVecNonBlock)
open Word (beNat beBytes narrow)

/-- The library reads back what it wrote and returns the number of bytes of it. -/
def TBinaryProtocol.Inverts (p : TBinaryProtocol) : Prop :=
  ∀ fn mtype seqid header rest, p.writeMessageBegin fn mtype seqid = some header →
    p.readMessageBegin (header ++ rest) = some ⟨fn, mtype, seqid, header.length⟩

def TBinaryProtocol.LongEnough (p : TBinaryProtocol) : Prop :=
  ∀ fn mtype seqid header, p.writeMessageBegin fn mtype seqid = some header →
    kMinSizeBuf ≤ header.length

structure Receiver where
  reader : Reader
  wire : List UInt8
  decoded : Option Bool
  deriving DecidableEq, Repr

def Receiver.Finds (r : Receiver) (found : List (List UInt8)) : Prop :=
  r.decoded = none ∧ found.head?.getD [] ≠ [] ∧ found.flatten <+: r.wire

def Receiver.round (p : TBinaryProtocol) (r : Receiver) (found : List (List UInt8)) : Receiver :=
  let c := r.reader.read (found.map .data)
  let wire := r.wire.drop c.got.length
  if c.ret = 0 then
    let d := c.reader.decode p.readMessageBegin
    ⟨d.2, wire, some d.1⟩
  else ⟨c.reader, wire, none⟩

def receiver (p : TBinaryProtocol) : Machine Receiver (List (List UInt8)) where
  enabled := Receiver.Finds
  next := Receiver.round p

def frame (body : List UInt8) : List UInt8 := beBytes headerSize body.length ++ body

def bodySize (bs : List UInt8) : ℕ := beNat (bs.take headerSize)

inductive Holds (all : List UInt8) (r : Reader) : Prop
  | header (hr : r.readHeader = true) (hbuffer : r.buffer = all) (h : all.length < headerSize)
  | body (hr : r.readHeader = false) (hbuffer : r.buffer = all.drop headerSize)
      (h : headerSize ≤ all.length) (hsize : r.sizeBody = bodySize all)
      (hle : all.length ≤ headerSize + bodySize all)

theorem bodySize_append {bs cs : List UInt8} (h : headerSize ≤ bs.length) :
    bodySize (bs ++ cs) = bodySize bs := by
  rw [bodySize, List.take_append_of_le_length h, bodySize]

def framed : FramedReader Reader where
  headerSize := headerSize
  bodySize := bodySize
  readHeader := Reader.readHeader
  buffer := Reader.buffer
  bodyLeft r := r.sizeBody - r.buffer.length
  push r g := { r with buffer := r.buffer ++ g }
  start r bs := { r with buffer := [], readHeader := false, sizeBody := beNat bs }
  Holds := Holds
  bodySize_append := bodySize_append
  holds_header := by
    intro all r h hr
    cases h with
    | header _ hbuffer h => exact ⟨by rw [hbuffer], h⟩
    | body hr' => rw [hr'] at hr; cases hr
  holds_body := by
    intro all r h hr
    cases h with
    | header hr' => rw [hr'] at hr; cases hr
    | body _ hbuffer h hsize hle =>
      refine ⟨h, hle, ?_⟩
      rw [hbuffer, hsize, List.length_drop]
      omega
  holds_push := by
    intro all r g h hheader hbody
    cases h with
    | header hr hbuffer h => exact ⟨.header hr (by rw [hbuffer]) (hheader hr), rfl⟩
    | body hr hbuffer h hsize hle =>
      have happ : bodySize (all ++ g) = bodySize all := bodySize_append h
      refine ⟨.body hr ?_ ?_ (hsize.trans happ.symm) (happ.symm ▸ hbody hr), rfl⟩
      · rw [hbuffer, List.drop_append_of_le_length h]
      · rw [List.length_append]
        omega
  holds_start := by
    intro all r g h hr hfull
    cases h with
    | header _ hbuffer h =>
      have htake : (all ++ g).take headerSize = all ++ g := List.take_of_length_le hfull.le
      refine ⟨.body rfl ?_ hfull.ge ?_ ?_, rfl⟩
      · exact (List.drop_of_length_le hfull.le).symm
      · rw [bodySize, htake, hbuffer]
      · rw [hfull]
        exact Nat.le_add_right _ _
    | body hr' => rw [hr'] at hr; cases hr

theorem readLoop_eq (k : ℕ) (hasBytesRead : Bool) (r : Reader) (got : List UInt8) (s : SockIn) :
    Reader.readLoop k hasBytesRead r got s = framed.readLoop k hasBytesRead r got s := by
  induction k generalizing hasBytesRead r got s with
  | zero => rfl
  | succ k ih =>
    simp only [Reader.readLoop, FramedReader.readLoop, ih]
    rfl

theorem read_eq (r : Reader) (s : SockIn) : r.read s = framed.read r s := by
  unfold Reader.read FramedReader.read
  rw [readLoop_eq]
  rfl

theorem bytesLeft_eq {iovs : List (List UInt8)} (h : iovs.length ≤ 3) :
    bytesLeft iovs = narrow iovs.flatten.length := by
  match iovs, h with
  | [], _ => rfl
  | [iov], _ => simp [bytesLeft]
  | [iov₀, iov₁], _ => simp [bytesLeft]
  | [iov₀, iov₁, iov₂], _ => simp [bytesLeft, add_assoc]

structure Ready (w : Writer) (outs : List SockOut) : Prop where
  refused : w.refused = false
  slots : w.iovs.length ≤ 3
  small : w.iovs.flatten.length < 2 ^ 31
  keeps : keepsAll w.iovs outs = true

theorem write_of_not_refused {w : Writer} (h : w.refused = false) (out : SockOut) : w.write out =
    let c := writeVecNonBlock w.iovs out
    ⟨if 0 < c.ret then bytesLeft c.iovs else if c.ret = 0 then Protocol.kEnd else c.ret,
      { w with iovs := c.iovs, refused := c.refused }, c.put⟩ := by
  rw [Writer.write, h]
  rfl

theorem Ready.takes {w : Writer} {out : SockOut} {outs : List SockOut} (h : Ready w (out :: outs))
    (hout : out.Takes) (hleft : w.iovs.flatten ≠ []) :
    (w.write out).put ≠ [] ∧
      (w.write out).put ++ (w.write out).writer.iovs.flatten = w.iovs.flatten ∧
      (w.write out).ret = (w.write out).writer.iovs.flatten.length ∧
      Ready (w.write out).writer outs := by
  have hall := h.keeps
  simp only [keepsAll, Bool.and_eq_true] at hall
  have hputs := IOHelper.putsPrefix_of_keeps hall.1
  have hpos := hputs.ret_pos hout hleft h.small
  have hslots := hputs.slices.trans h.slots
  have hlen := congrArg List.length hputs.flatten
  rw [List.length_append] at hlen
  have hsmall : (writeVecNonBlock w.iovs out).iovs.flatten.length < 2 ^ 31 := by
    have hlt := h.small
    omega
  rw [write_of_not_refused h.refused]
  refine ⟨(hputs.takes hout hleft).1, hputs.flatten, ?_, ?_, hslots, hsmall, hall.2⟩
  · refine (if_pos hpos).trans ((bytesLeft_eq hslots).trans ?_)
    exact Word.narrow_of_mem (Int.natCast_nonneg _) (by omega)
  · exact (IOHelper.writeVec_keeps hall.1 []).2.2.1

def framedWriter : FramedWriter Writer where
  iovs := Writer.iovs
  write := Writer.write
  Ready := Ready
  takes := Ready.takes

def Writer.writeAll (w : Writer) (outs : List SockOut) :
    Option (Writer × List UInt8 × List SockOut) :=
  framedWriter.writeAll w outs

theorem frame_length (body : List UInt8) : (frame body).length = headerSize + body.length := by
  rw [frame, List.length_append, Word.beBytes_length]

theorem frame_small {body : List UInt8} (h : body.length ≤ kMaxSizeBuf) :
    (frame body).length < 2 ^ 31 := by
  have hmax : kMaxSizeBuf < 2 ^ 31 - 4 := by decide
  rw [frame_length]
  simp only [headerSize]
  omega

theorem writeAll_frame {w : Writer} {body : List UInt8} {outs : List SockOut}
    (hready : Ready w outs) (hflat : w.iovs.flatten = frame body) (houts : ∀ out ∈ outs, out.Takes)
    (hlen : (frame body).length ≤ outs.length) :
    ∃ w' rest, w.writeAll outs = some (w', frame body, rest) := by
  have hne : w.iovs.flatten ≠ [] := by
    rw [hflat, ← List.length_pos_iff, frame_length]
    exact Nat.add_pos_left (by decide) _
  obtain ⟨w', used, rest, hw, -, -⟩ := FramedWriter.writeAll_eq (f := framedWriter) (w := w)
    hready hne houts (hflat ▸ hlen)
  exact ⟨w', rest, hflat ▸ hw⟩

theorem bytesLeft_eq_zero {iovs : List (List UInt8)} (hs : iovs.length ≤ 3)
    (hlt : iovs.flatten.length < 2 ^ 32) (h : bytesLeft iovs = 0) : iovs.flatten = [] := by
  rw [bytesLeft_eq hs, Word.narrow_natCast_eq_zero hlt] at h
  exact List.length_eq_zero_iff.mp h

section astray

variable {w : Writer} {r : Writer × List UInt8 × List SockOut} {all sent : List UInt8}
  {out : SockOut} {outs : List SockOut}

theorem writeAll_cons (w : Writer) (out : SockOut) (outs : List SockOut) :
    w.writeAll (out :: outs) =
      if (w.write out).ret = 0 then some ((w.write out).writer, (w.write out).put, outs)
      else if 0 < (w.write out).ret then
        ((w.write out).writer.writeAll outs).map fun r => (r.1, (w.write out).put ++ r.2.1, r.2.2)
      else none := rfl

theorem writeAll_cons_some (hnot : w.refused = false) (hw : w.writeAll (out :: outs) = some r) :
    let c := writeVecNonBlock w.iovs out
    0 < c.ret ∧ ((w.write out).ret = 0 ∧ r.2.1 = c.put ∨
      ∃ r', Writer.writeAll { w with iovs := c.iovs, refused := c.refused } outs = some r' ∧
        r.2.1 = c.put ++ r'.2.1) := by
  have hcall := write_of_not_refused hnot out
  have hpos : ¬ (w.write out).ret < 0 → 0 < (writeVecNonBlock w.iovs out).ret := by
    intro hneg
    by_contra hle
    rw [hcall] at hneg
    dsimp only at hneg
    rw [if_neg hle] at hneg
    split_ifs at hneg
    · exact hneg (by decide)
    · omega
  rw [writeAll_cons] at hw
  by_cases hzero : (w.write out).ret = 0
  · rw [if_pos hzero] at hw
    refine ⟨hpos (by omega), .inl ⟨hzero, ?_⟩⟩
    rw [← Option.some.inj hw, hcall]
  · rw [if_neg hzero] at hw
    by_cases hret : 0 < (w.write out).ret
    · rw [if_pos hret] at hw
      obtain ⟨r', hr', rfl⟩ := Option.map_eq_some_iff.mp hw
      refine ⟨hpos (by omega), .inr ⟨r', ?_, ?_⟩⟩
      · rw [hcall] at hr'
        exact hr'
      · rw [hcall]
    · rw [if_neg hret] at hw
      cases hw

theorem write_ret_zero (hnot : w.refused = false)
    (hslots : (writeVecNonBlock w.iovs out).iovs.length ≤ 3)
    (hsmall : (writeVecNonBlock w.iovs out).iovs.flatten.length < 2 ^ 32)
    (hret : (w.write out).ret = 0) : (writeVecNonBlock w.iovs out).iovs.flatten = [] := by
  rw [write_of_not_refused hnot] at hret
  dsimp only at hret
  split_ifs at hret with hpos hzero
  · exact bytesLeft_eq_zero hslots hsmall hret
  · exact absurd hret (by decide)
  · exact absurd hret hzero

theorem writeAll_astray (hall : all.length < 2 ^ 32) (h : Astray all sent w.iovs)
    (hnot : w.refused = false) (hw : w.writeAll outs = some r) : sent ++ r.2.1 ≠ all := by
  induction outs generalizing w sent r with
  | nil => cases hw
  | cons out outs ih =>
    have hnil : Astray all (sent ++ []) w.iovs := by rwa [List.append_nil]
    obtain ⟨hnext, href⟩ := hnil.writeVec out
    obtain ⟨-, ⟨hzero, hput⟩ | ⟨r', hr', hput⟩⟩ := writeAll_cons_some hnot hw
    · rw [hput]
      exact hnext.not_all_of_done
        (write_ret_zero hnot hnext.slots_le (hnext.small.trans_lt hall) hzero)
    · rw [hput, ← List.append_assoc]
      exact ih (w := { w with iovs := _, refused := _ }) hnext href hr'

theorem writeAll_not_keeps (hall : all.length < 2 ^ 32) (hflat : sent ++ w.iovs.flatten = all)
    (hslots : w.iovs.length ≤ 3) (hnot : w.refused = false)
    (hkeeps : keepsAll w.iovs outs = false) (hw : w.writeAll outs = some r) :
    sent ++ r.2.1 ≠ all := by
  induction outs generalizing w sent r with
  | nil => cases hw
  | cons out outs ih =>
    simp only [keepsAll, Bool.and_eq_false_iff] at hkeeps
    obtain ⟨hpos, hcont⟩ := writeAll_cons_some hnot hw
    cases hcall : keeps w.iovs out with
    | true =>
      have hrest := hkeeps.resolve_left (by simp [hcall])
      obtain ⟨hput, hlen, href, -⟩ := IOHelper.writeVec_keeps hcall []
      have hlen' := congrArg List.length hput
      have hlen'' := congrArg List.length hflat
      simp only [List.nil_append, List.length_append] at hlen' hlen''
      rcases hcont with ⟨hzero, -⟩ | ⟨r', hr', hsent⟩
      · -- all was sent, so that no answer is left that could lead astray
        have hsmall : (writeVecNonBlock w.iovs out).iovs.flatten.length < 2 ^ 32 := by
          unfold writeVecNonBlock
          omega
        have hdone := write_ret_zero hnot (hlen.trans hslots) hsmall hzero
        rw [IOHelper.keepsAll_of_flatten_nil hdone] at hrest
        cases hrest
      · rw [hsent, ← List.append_assoc]
        refine ih (w := { w with iovs := _, refused := _ }) ?_ (hlen.trans hslots) href hrest hr'
        change sent ++ (writeVecNonBlock w.iovs out).put ++
          (writeVecNonBlock w.iovs out).iovs.flatten = all
        rw [List.append_assoc, ← hflat]
        exact congrArg (sent ++ ·) hput
    | false =>
      have hall' : sent ++ ([] ++ w.iovs.flatten) = all := by rwa [List.nil_append]
      have hbad := IOHelper.writeVec_not_keeps hslots hall' hcall
      rcases hbad with ⟨-, hret⟩ | ⟨hastray, href⟩
      · change (writeVecNonBlock w.iovs out).ret = -2 at hret
        omega
      change Astray all (sent ++ (writeVecNonBlock w.iovs out).put)
        (writeVecNonBlock w.iovs out).iovs at hastray
      rcases hcont with ⟨hzero, hsent⟩ | ⟨r', hr', hsent⟩
      · rw [hsent]
        exact hastray.not_all_of_done (write_ret_zero hnot hastray.slots_le
          (hastray.small.trans_lt hall) hzero)
      · rw [hsent, ← List.append_assoc]
        exact writeAll_astray hall hastray href hr'

end astray

structure Decoded (params : Params) (structBytes : List UInt8) (r : Reader) : Prop where
  fn : r.fn = params.fn
  dir : r.dir = params.dir
  seqid : r.seqid = params.seqid
  data : r.data = structBytes
  size : r.size = structBytes.length

section message

variable {p : TBinaryProtocol} {params : Params} {structBytes header next : List UInt8}

theorem frame_whole {body : List UInt8} (h : body.length < 2 ^ 32) :
    (frame body).length = headerSize + bodySize (frame body) := by
  have hsize : (beBytes headerSize body.length).length = headerSize := Word.beBytes_length _ _
  rw [frame_length, bodySize, frame, List.take_left' hsize, Word.beNat_beBytes (by exact h)]

theorem direction_messageType (dir : Direction) : direction (messageType dir) = some dir := by
  cases dir <;> rfl

theorem encode_iovs (w : Writer) (structBytes : List UInt8)
    (hheader : p.writeMessageBegin params.fn (messageType params.dir) params.seqid = some header) :
    ((w.reset (structBytes, params)).encode p).1 = true ∧
      ((w.reset (structBytes, params)).encode p).2.iovs =
        [beBytes headerSize (header.length + structBytes.length), header, structBytes] ∧
      ((w.reset (structBytes, params)).encode p).2.refused = false := by
  simp only [Writer.encode, Writer.reset, hheader]
  exact ⟨trivial, trivial, trivial⟩

theorem decode_frame (hinverts : p.Inverts) (hmin : p.LongEnough)
    (hheader : p.writeMessageBegin params.fn (messageType params.dir) params.seqid = some header)
    (hsize : (header ++ structBytes).length ≤ kMaxSizeBuf) {r : Reader}
    (h : Holds (frame (header ++ structBytes)) r) :
    (r.decode p.readMessageBegin).1 = true ∧
      Decoded params structBytes (r.decode p.readMessageBegin).2 := by
  have hbuffer : r.buffer = header ++ structBytes := by
    cases h with
    | header hr hbuffer hlt =>
      rw [frame_length] at hlt
      omega
    | body hr hbuffer =>
      rw [hbuffer, frame, List.drop_left' (Word.beBytes_length _ _)]
  have hlong := hmin _ _ _ _ hheader
  have hbounds : ¬((header ++ structBytes).length < kMinSizeBuf ∨
      kMaxSizeBuf < (header ++ structBytes).length) := by
    rw [List.length_append] at hsize ⊢
    omega
  simp only [Reader.decode, hbuffer, if_neg hbounds, hinverts _ _ _ _ structBytes hheader,
    direction_messageType]
  exact ⟨trivial, rfl, rfl, rfl, List.drop_left, congrArg List.length List.drop_left⟩

inductive Receiving (params : Params) (structBytes body next : List UInt8) (r : Receiver) : Prop
  | amid {all left : List UInt8} (hholds : Holds all r.reader) (hwhole : all ++ left = frame body)
      (hmore : left ≠ []) (hwire : r.wire = left ++ next) (hdecoded : r.decoded = none)
  | finished (hdecoded : r.decoded = some true) (hwire : r.wire = next)
      (hmessage : Decoded params structBytes r.reader)

theorem Receiving.reads {body all left : List UInt8} {r : Receiver} {found : List (List UInt8)}
    (hbody : body.length ≤ kMaxSizeBuf) (hholds : Holds all r.reader)
    (hwhole : all ++ left = frame body) (hmore : left ≠ []) (hwire : r.wire = left ++ next)
    (hfinds : r.Finds found) :
    framed.Reads all left found (r.reader.read (found.map .data)) ∧
      Holds (all ++ (r.reader.read (found.map .data)).got)
        (r.reader.read (found.map .data)).reader := by
  have hmax : kMaxSizeBuf < 2 ^ 32 := by decide
  rw [read_eq]
  exact FramedReader.Holds.reads (f := framed) hholds hwhole (frame_whole (by omega))
    (frame_small hbody) hmore (hwire ▸ hfinds.2.2) hfinds.2.1

theorem receiving_round (hinverts : p.Inverts) (hmin : p.LongEnough)
    (hheader : p.writeMessageBegin params.fn (messageType params.dir) params.seqid = some header)
    (hsize : (header ++ structBytes).length ≤ kMaxSizeBuf) {r : Receiver}
    {found : List (List UInt8)}
    (h : Receiving params structBytes (header ++ structBytes) next r) (hfinds : r.Finds found) :
    Receiving params structBytes (header ++ structBytes) next (r.round p found) ∧
      (r.round p found).wire.length < r.wire.length := by
  cases h with
  | finished hdecoded => rw [hfinds.1] at hdecoded; cases hdecoded
  | @amid all left hholds hwhole hmore hwire hdecoded =>
    obtain ⟨hreads, hholds'⟩ := Receiving.reads hsize hholds hwhole hmore hwire hfinds
    simp only [Receiver.round]
    generalize r.reader.read (found.map .data) = c at hreads hholds' ⊢
    have hlast := hreads.last
    obtain ⟨left', rfl⟩ := hreads.within
    have hdrop : r.wire.drop c.got.length = left' ++ next := by
      rw [hwire, List.append_assoc, List.drop_left]
    have hless : (r.wire.drop c.got.length).length < r.wire.length := by
      have hpos := List.length_pos_iff.mpr hreads.some
      rw [hdrop, hwire]
      simp only [List.length_append]
      omega
    by_cases h0 : c.ret = 0
    · obtain rfl : left' = [] := by simpa using hlast.mp h0
      rw [if_pos h0]
      rw [List.append_nil] at hwhole
      rw [hwhole] at hholds'
      obtain ⟨hok, hmessage⟩ := decode_frame hinverts hmin hheader hsize hholds'
      exact ⟨.finished (congrArg some hok) hdrop hmessage, hless⟩
    · rw [if_neg h0]
      refine ⟨.amid hholds' (by rw [List.append_assoc, hwhole]) ?_ hdrop rfl, hless⟩
      rintro rfl
      exact h0 (hlast.mpr (List.append_nil _).symm)

structure Received (params : Params) (structBytes sent next : List UInt8) (calls : ℕ)
    (r : Receiver) : Prop where
  progress : calls + r.wire.length ≤ (sent ++ next).length
  amid : r.decoded = none → ∃ left, left ≠ [] ∧ left <:+ sent ∧ r.wire = left ++ next ∧
    ∀ found, r.Finds found → (r.reader.read (found.map .data)).got ≠ [] ∧
      (r.reader.read (found.map .data)).got <+: left ∧
      0 ≤ (r.reader.read (found.map .data)).ret ∧
      ((r.reader.read (found.map .data)).ret = 0 ↔ (r.reader.read (found.map .data)).got = left)
  finished : ∀ ok, r.decoded = some ok →
    ok = true ∧ r.wire = next ∧ Decoded params structBytes r.reader

/-- `Reset`, `Encode` and `Write` put the frame of the message on the wire and return 0 at its
end; however a receiver then finds the bytes, each of its calls of `Read` takes a byte of the
message at least and none that follows it, and returns 0 exactly when it took the last one, and
`Decode` gives the message. -/
def RoundTrip (p : TBinaryProtocol) (w : Writer) (r₀ : Reader) (params : Params)
    (structBytes header next : List UInt8) (outs : List SockOut) : Prop :=
  ((w.reset (structBytes, params)).encode p).1 = true ∧
    ∃ w' rest, ((w.reset (structBytes, params)).encode p).2.writeAll outs =
        some (w', frame (header ++ structBytes), rest) ∧
      ∀ rounds, (receiver p).Admits ⟨r₀.reset, frame (header ++ structBytes) ++ next, none⟩ rounds →
        Received params structBytes (frame (header ++ structBytes)) next rounds.length
          ((receiver p).exec ⟨r₀.reset, frame (header ++ structBytes) ++ next, none⟩ rounds)

theorem received (hinverts : p.Inverts) (hmin : p.LongEnough) (r₀ : Reader)
    (hheader : p.writeMessageBegin params.fn (messageType params.dir) params.seqid = some header)
    (hsize : (header ++ structBytes).length ≤ kMaxSizeBuf) {rounds : List (List (List UInt8))}
    (hadm : (receiver p).Admits ⟨r₀.reset, frame (header ++ structBytes) ++ next, none⟩ rounds) :
    Received params structBytes (frame (header ++ structBytes)) next rounds.length
      ((receiver p).exec ⟨r₀.reset, frame (header ++ structBytes) ++ next, none⟩ rounds) := by
  have hstart : Receiving params structBytes (header ++ structBytes) next
      ⟨r₀.reset, frame (header ++ structBytes) ++ next, none⟩ := by
    have hnil : ([] : List UInt8).length < headerSize := by decide
    refine .amid (.header rfl rfl hnil) (List.nil_append _) ?_ rfl rfl
    rw [← List.length_pos_iff, frame_length]
    exact Nat.add_pos_left (by decide) _
  obtain ⟨hrecv, hprogress⟩ := (receiver p).invariant_measure (fun r => r.wire.length)
    (fun _ _ hr hfinds => receiving_round hinverts hmin hheader hsize hr hfinds) hstart hadm
  refine ⟨hprogress, ?_, ?_⟩
  · intro hnone
    cases hrecv with
    | finished hdecoded => rw [hnone] at hdecoded; cases hdecoded
    | @amid all left hholds hwhole hmore hwire hdecoded =>
      refine ⟨left, hmore, ⟨all, hwhole⟩, hwire, fun found hfinds => ?_⟩
      obtain ⟨hreads, -⟩ := Receiving.reads hsize hholds hwhole hmore hwire hfinds
      exact ⟨hreads.some, hreads.within, hreads.ret ▸ Int.natCast_nonneg _, hreads.last⟩
  · intro ok hsome
    cases hrecv with
    | finished hdecoded hwire hmessage =>
      exact ⟨Option.some.inj (hsome.symm.trans hdecoded), hwire, hmessage⟩
    | amid hholds hwhole hmore hwire hdecoded => rw [hdecoded] at hsome; cases hsome

end message

/-- A message makes the round trip exactly when every `writev` leaves those bytes of the size,
the header and the struct in the vector that did not go out. -/
theorem roundTrip_iff (p : TBinaryProtocol) (hinverts : p.Inverts) (hmin : p.LongEnough)
    (w : Writer) (r₀ : Reader) (params : Params) (structBytes header next : List UInt8)
    (hheader : p.writeMessageBegin params.fn (messageType params.dir) params.seqid = some header)
    (hsize : (header ++ structBytes).length ≤ kMaxSizeBuf) (outs : List SockOut)
    (houts : ∀ out ∈ outs, out.Takes)
    (hlen : headerSize + (header ++ structBytes).length ≤ outs.length) :
    RoundTrip p w r₀ params structBytes header next outs ↔
      keepsAll [beBytes headerSize (header.length + structBytes.length), header, structBytes] outs =
        true := by
  obtain ⟨hok, hiovs, hnot⟩ := encode_iovs w structBytes hheader
  have hflat : ((w.reset (structBytes, params)).encode p).2.iovs.flatten =
      frame (header ++ structBytes) := by
    rw [hiovs, frame, List.length_append]
    simp
  have hsmall := frame_small hsize
  have hslots : ((w.reset (structBytes, params)).encode p).2.iovs.length ≤ 3 := by simp [hiovs]
  rw [← hiovs]
  constructor
  · rintro ⟨-, w', rest, hw, -⟩
    by_contra hkeeps
    have hall : [] ++ ((w.reset (structBytes, params)).encode p).2.iovs.flatten =
        frame (header ++ structBytes) := by
      rw [List.nil_append, hflat]
    exact writeAll_not_keeps (hsmall.trans (by decide)) hall hslots hnot
      (Bool.not_eq_true _ ▸ hkeeps) hw rfl
  · intro hkeeps
    obtain ⟨w', rest, hw⟩ := writeAll_frame ⟨hnot, hslots, hflat ▸ hsmall, hkeeps⟩ hflat houts
      (frame_length (header ++ structBytes) ▸ hlen)
    exact ⟨hok, w', rest, hw, fun rounds hadm => received hinverts hmin r₀ hheader hsize hadm⟩

def typeByte : MessageType → UInt8
  | .call => 1
  | .reply => 2
  | .other => 3
  | .oneway => 4

def typeOf (b : UInt8) : MessageType :=
  if b = 1 then .call else if b = 2 then .reply else if b = 4 then .oneway else .other

/-- The strict form of the binary protocol: a version with the type of the message, the
length of the name, the name and the sequence id. -/
def strictProtocol : TBinaryProtocol where
  writeMessageBegin fn mtype seqid :=
    if fn.length < 2 ^ 31 ∧ -2 ^ 31 ≤ seqid ∧ seqid < 2 ^ 31 then
      some ([128, 1, 0, typeByte mtype] ++
        (beBytes 4 fn.length ++ (fn ++ beBytes 4 (seqid % 2 ^ 32).toNat)))
    else none
  readMessageBegin
    | 128 :: 1 :: 0 :: b :: bs =>
      let n := beNat (bs.take 4)
      let seqid := ((bs.drop 4).drop n).take 4
      if seqid.length = 4 then
        some ⟨(bs.drop 4).take n, typeOf b, narrow (beNat seqid), 12 + n⟩
      else none
    | _ => none

theorem typeOf_typeByte (mtype : MessageType) : typeOf (typeByte mtype) = mtype := by
  cases mtype <;> rfl

theorem narrow_emod {v : ℤ} (h0 : -2 ^ 31 ≤ v) (h1 : v < 2 ^ 31) :
    narrow ((v % 2 ^ 32).toNat : ℕ) = v := by
  have hnonneg : 0 ≤ v % 2 ^ 32 := Int.emod_nonneg _ (by norm_num)
  rw [Int.toNat_of_nonneg hnonneg]
  unfold narrow
  rw [Int.bmod_def]
  norm_num at h0 h1 ⊢
  omega

theorem strictProtocol_inverts : strictProtocol.Inverts := by
  intro fn mtype seqid header rest h
  simp only [strictProtocol] at h ⊢
  split_ifs at h with hbounds
  obtain rfl := Option.some.inj h
  obtain ⟨hfn, hlo, hhi⟩ := hbounds
  have hn : beNat (beBytes 4 fn.length) = fn.length := Word.beNat_beBytes (by norm_num; omega)
  have hseqid : beNat (beBytes 4 (seqid % 2 ^ 32).toNat) = (seqid % 2 ^ 32).toNat :=
    Word.beNat_beBytes (by norm_num; omega)
  have h4 : ∀ m, (beBytes 4 m).length = 4 := Word.beBytes_length 4
  simp only [List.cons_append, List.nil_append, List.append_assoc, List.take_left' (h4 _),
    List.drop_left' (h4 _), hn, List.take_left, List.drop_left, h4, if_true, hseqid,
    typeOf_typeByte, narrow_emod hlo hhi, List.length_cons, List.length_append]
  congr 2
  omega

theorem strictProtocol_longEnough : strictProtocol.LongEnough := by
  intro fn mtype seqid header h
  simp only [strictProtocol] at h
  split_ifs at h with hbounds
  obtain rfl := Option.some.inj h
  simp only [List.length_append, Word.beBytes_length, List.length_cons, kMinSizeBuf]
  omega

instance (r : Receiver) (found : List (List UInt8)) : Decidable (r.Finds found) :=
  inferInstanceAs (Decidable (_ ∧ _ ∧ _))

instance (p : TBinaryProtocol) (r : Receiver) (found : List (List UInt8)) :
    Decidable ((receiver p).enabled r found) :=
  inferInstanceAs (Decidable (r.Finds found))

def ping : Params := ⟨[112, 105, 110, 103], .kOneway, -7⟩

def pingFrame : List UInt8 :=
  [0, 0, 0, 17, 128, 1, 0, 4, 0, 0, 0, 4, 112, 105, 110, 103, 255, 255, 255, 249, 8]

/-- A message over a socket that takes two bytes at a time; its end is found together
with a byte that follows it. -/
theorem roundTrip_iff_ping :
    let r := (receiver strictProtocol).exec
      ⟨Reader.reset ⟨[1], false, 3, [], [], .kReply, 0⟩, pingFrame ++ [0], none⟩
      [[[0, 0, 0]], [[17, 128, 1], [0, 4]],
        [[0, 4, 0, 0, 0, 4, 112, 105, 110, 103, 255, 255, 255, 249, 8, 0]]]
    r.decoded = some true ∧ r.wire = [0] ∧ Decoded ping [8] r.reader := by
  obtain ⟨-, w', rest, -, hall⟩ := (roundTrip_iff strictProtocol strictProtocol_inverts
    strictProtocol_longEnough ⟨[], ⟨[], .kReply, 0⟩, [], [], false⟩
    ⟨[1], false, 3, [], [], .kReply, 0⟩ ping [8] _ [0] rfl (by decide)
    (List.replicate 21 [.took 2]) (fun out ho => ⟨1, [], List.eq_of_mem_replicate ho, by simp⟩)
    (by decide)).mpr (by decide)
  have hdecoded : ((receiver strictProtocol).exec
      ⟨Reader.reset ⟨[1], false, 3, [], [], .kReply, 0⟩, pingFrame ++ [0], none⟩
      [[[0, 0, 0]], [[17, 128, 1], [0, 4]],
        [[0, 4, 0, 0, 0, 4, 112, 105, 110, 103, 255, 255, 255, 249, 8, 0]]]).decoded =
      some true := by decide
  obtain ⟨-, hwire, hmessage⟩ := (hall _ (by decide)).finished true hdecoded
  exact ⟨hdecoded, hwire, hmessage⟩

/-- A socket that takes five bytes at a time takes the first byte of the header with the size; it
is sent twice, and the byte of the struct is not sent. -/
theorem fiveAtATime_not_roundTrip :
    ¬ ∀ (p : TBinaryProtocol), p.Inverts → p.LongEnough → ∀ (w : Writer) (r₀ : Reader)
      (params : Params) (structBytes header next : List UInt8),
      p.writeMessageBegin params.fn (messageType params.dir) params.seqid = some header →
      (header ++ structBytes).length ≤ kMaxSizeBuf → ∀ outs : List SockOut,
      (∀ out ∈ outs, out.Takes) → headerSize + (header ++ structBytes).length ≤ outs.length →
      RoundTrip p w r₀ params structBytes header next outs := by
  intro h
  obtain ⟨-, w', rest, hwrite, -⟩ := h strictProtocol strictProtocol_inverts
    strictProtocol_longEnough ⟨[], ⟨[], .kReply, 0⟩, [], [], false⟩
    ⟨[1], false, 3, [], [], .kReply, 0⟩ ping [8] _ [0] rfl (by decide)
    (List.replicate 21 [.took 5]) (fun out ho => ⟨4, [], List.eq_of_mem_replicate ho, by simp⟩)
    (by decide)
  have hsent : (Writer.writeAll (Writer.encode strictProtocol
      (Writer.reset ⟨[], ⟨[], .kReply, 0⟩, [], [], false⟩ ([8], ping))).2
        (List.replicate 21 [.took 5])).map (fun x => x.2.1) ≠ some pingFrame := by decide
  rw [hwrite] at hsent
  have hframe : frame ([128, 1, 0, 4, 0, 0, 0, 4, 112, 105, 110, 103, 255, 255, 255, 249] ++ [8]) =
      pingFrame := by decide
  exact hsent (congrArg some hframe)

end Magneto.Thrift
