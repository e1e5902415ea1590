import Magneto.Rapid
import Magneto.FramedWrite
import Magneto.Lib.Machine

/-!
# Frames one after another over a connection

A sender writes its messages with one `ProtocolWriteRapid`, `Reset`, `Encode`
and `Write` until 0 for each. A receiver repeats `Read`, `Decode` and `Reset` on
one `ProtocolReadRapid`. The connection keeps the bytes in order; how many of
them a call takes or finds is arbitrary, as long as it is not none. The routine
that writes a vector is any that puts a prefix of it on the wire.
-/

namespace Magneto.Rapid

open IOHelper (SockOut SendResult WritesPrefix writeVecInOrder)
open Word (narrow)

section sender

variable (wv : List (List UInt8) → SockOut → SendResult)

def Writer.writeAll (w : Writer) : List SockOut → Option (Writer × List UInt8 × List SockOut)
  | [] => none
  | out :: outs =>
    let c := w.writeBy wv out
    if c.ret = 0 then some (c.writer, c.put, outs)
    else if 0 < c.ret then
      (c.writer.writeAll outs).map fun r => (r.1, c.put ++ r.2.1, r.2.2)
    else none

/-- The bytes that sending the messages one after another puts on the connection. -/
def Writer.sendAll (w : Writer) : List (List UInt8) → List SockOut → Option (List UInt8)
  | [], _ => some []
  | buf :: bufs, outs =>
    let e := (w.reset buf).encode
    if e.1 then
      (e.2.writeAll wv outs).bind fun r => (r.1.sendAll bufs r.2.2).map (r.2.1 ++ ·)
    else none

end sender

structure Receiver where
  reader : Reader
  wire : List UInt8
  bufs : List (List UInt8)

def Receiver.Finds (r : Receiver) (found : List (List UInt8)) : Prop :=
  found.head?.getD [] ≠ [] ∧ found.flatten <+: r.wire

def Receiver.round (r : Receiver) (found : List (List UInt8)) : Receiver :=
  let c := r.reader.read (found.map .data)
  let wire := r.wire.drop c.got.length
  if c.ret = 0 then
    let d := c.reader.decode
    ⟨d.2.reset, wire, if d.1 then r.bufs ++ [d.2.data] else r.bufs⟩
  else ⟨c.reader, wire, r.bufs⟩

def receiver : Machine Receiver (List (List UInt8)) where
  enabled := Receiver.Finds
  next := Receiver.round

theorem frame_length (buf : List UInt8) : (frame buf).length = headerSize + buf.length := by
  simp only [frame, encodeHeader, headerSize, List.length_append, Word.beBytes_length]

theorem field_encodeHeader (n : ℕ) : field 0 2 (encodeHeader n) = Word.beBytes 2 kMagic ∧
    field 2 2 (encodeHeader n) = Word.beBytes 2 0 ∧
    field 4 4 (encodeHeader n) = Word.beBytes 4 n := by
  have h2 : (Word.beBytes 2 kMagic ++ Word.beBytes 2 0).length = 4 := by simp
  refine ⟨?_, ?_, ?_⟩
  · rw [field, List.drop_zero, encodeHeader, List.append_assoc, List.take_left' (by simp)]
  · rw [field, encodeHeader, List.append_assoc, List.drop_left' (by simp),
      List.take_left' (by simp)]
  · rw [field, encodeHeader, List.drop_left' h2, List.take_of_length_le (by simp)]

theorem frameSize_frame {buf : List UInt8} (h : buf.length < 2 ^ 32) :
    frameSize (frame buf) = buf.length := by
  have hlen : 4 + 4 ≤ (encodeHeader buf.length).length := by simp [encodeHeader]
  rw [frameSize, frame, field_append hlen, (field_encodeHeader _).2.2,
    Word.beNat_beBytes (by simpa using h)]

theorem parse_frame {buf : List UInt8} (h : buf.length < 2 ^ 32) :
    parse (frame buf) = some buf := by
  have hlen : (encodeHeader buf.length).length = headerSize := by
    simp [encodeHeader, headerSize]
  have hfield : ∀ i k, i + k ≤ headerSize →
      field i k (frame buf) = field i k (encodeHeader buf.length) := by
    intro i k hik
    exact field_append (hlen ▸ hik)
  have hmagic : Word.beNat (field 0 2 (frame buf)) = kMagic := by
    rw [hfield 0 2 (by simp [headerSize]), (field_encodeHeader _).1]
    exact Word.beNat_beBytes (by norm_num [kMagic])
  have hversion : Word.beNat (field 2 2 (frame buf)) ≤ kMaxVersion := by
    rw [hfield 2 2 (by simp [headerSize]), (field_encodeHeader _).2.1,
      Word.beNat_beBytes (by norm_num)]
    exact Nat.zero_le _
  rw [parse, if_pos ⟨by rw [frameSize_frame h, frame_length], hmagic, hversion⟩, frame,
    List.drop_left' hlen]

theorem frameSize_eq_of_le {all buf next : List UInt8} (h : all <+: frame buf ++ next)
    (hlen : headerSize ≤ all.length) (hbuf : buf.length < 2 ^ 32) :
    frameSize all = buf.length := by
  have hle : headerSize ≤ (frame buf).length := by
    rw [frame_length]
    omega
  exact (FramedReader.bodySize_eq_of_begins (f := framed) h hlen hle).trans (frameSize_frame hbuf)

def expects (bs : List UInt8) : ℕ :=
  if bs.length < headerSize then headerSize - bs.length
  else headerSize + frameSize bs - bs.length

structure Advances (all : List UInt8) (found : List (List UInt8)) (c : ReadCall Reader) :
    Prop where
  got : c.got <+: found.flatten
  ret : c.ret = expects (all ++ c.got)

structure Midframe (buf all left : List UInt8) (r : Reader) : Prop where
  holds : Holds all r
  whole : all ++ left = frame buf
  more : left ≠ []

theorem frame_whole {buf : List UInt8} (h : buf.length < 2 ^ 31 - 8) :
    (frame buf).length = framed.headerSize + framed.bodySize (frame buf) := by
  have hsize : frameSize (frame buf) = buf.length := frameSize_frame (by omega)
  rw [frame_length]
  exact congrArg (headerSize + ·) hsize.symm

theorem Midframe.raw {buf all left : List UInt8} {r : Reader} (h : Midframe buf all left r)
    (hbuf : buf.length < 2 ^ 31 - 8) : Raw all r := by
  refine ⟨h.holds, fun hr => ?_⟩
  cases h.holds with
  | header => cases hr
  | body hge hlen hdrop hsize hle hdec =>
    refine hdec.resolve_right fun hfull => ?_
    have hpre : all <+: frame buf ++ [] := by
      rw [List.append_nil]
      exact ⟨left, h.whole⟩
    have hwhole := congrArg List.length h.whole
    have hleft := List.length_pos_iff.mpr h.more
    rw [frameSize_eq_of_le hpre hge (by omega)] at hfull
    rw [List.length_append, frame_length] at hwhole
    omega

theorem Midframe.framed_reads {buf all left next wire : List UInt8} {r : Reader}
    {found : List (List UInt8)} (h : Midframe buf all left r) (hbuf : buf.length < 2 ^ 31 - 8)
    (hwire : wire = left ++ next) (hfound : found.flatten <+: wire)
    (hsome : found.head?.getD [] ≠ []) :
    framed.Reads all left found (r.read (found.map .data)) := by
  have hlen : (frame buf).length < 2 ^ 31 := by
    rw [frame_length]
    simp only [headerSize]
    omega
  rw [read_eq]
  exact (FramedReader.Holds.reads (f := framed) (h.raw hbuf) h.whole (frame_whole hbuf) hlen h.more
    (hwire ▸ hfound) hsome).1

theorem Midframe.read {buf all left next wire : List UInt8} {r : Reader}
    {found : List (List UInt8)} (h : Midframe buf all left r) (hbuf : buf.length < 2 ^ 31 - 8)
    (hwire : wire = left ++ next) (hfound : found.flatten <+: wire)
    (hsome : found.head?.getD [] ≠ []) :
    (r.read (found.map .data)).got ≠ [] ∧ Advances all found (r.read (found.map .data)) :=
  have hreads := h.framed_reads hbuf hwire hfound hsome
  ⟨hreads.some, hreads.found, hreads.ret⟩

/-- What a call of `Read` does in the middle of a frame: it takes bytes of this
frame only, and returns 0 exactly when it took the last one. -/
structure Reads (buf left : List UInt8) (found : List (List UInt8)) (c : ReadCall Reader) :
    Prop where
  some : c.got ≠ []
  found : c.got <+: found.flatten
  within : c.got <+: left
  ret : 0 ≤ c.ret
  last : c.ret = 0 ↔ c.got = left
  decodes : c.ret = 0 → c.reader.decode.1 = true ∧ c.reader.decode.2.data = buf ∧
    c.reader.decode.2.size = buf.length

theorem Midframe.reads {buf all left next wire : List UInt8} {r : Reader}
    {found : List (List UInt8)} (h : Midframe buf all left r) (hbuf : buf.length < 2 ^ 31 - 8)
    (hwire : wire = left ++ next) (hfound : found.flatten <+: wire)
    (hsome : found.head?.getD [] ≠ []) :
    Reads buf left found (r.read (found.map .data)) := by
  have hreads := h.framed_reads hbuf hwire hfound hsome
  have hspec := read_spec h.holds (found.map .data)
  generalize r.read (found.map .data) = c at hreads hspec
  have hnonneg : 0 ≤ c.ret := hreads.ret ▸ Int.natCast_nonneg _
  refine ⟨hreads.some, hreads.found, hreads.within, hnonneg, hreads.last, fun h0 => ?_⟩
  obtain ⟨hread, hfull, hraw⟩ := hspec.whole h0
  obtain ⟨hholds, hparse⟩ := decode_spec hspec.holds hread hfull hraw
  have hall : all ++ c.got = frame buf := by rw [hreads.last.mp h0, h.whole]
  rw [hall, parse_frame (by omega)] at hparse
  split_ifs at hparse with hok
  have hdata : buf = c.reader.decode.2.data := Option.some.inj hparse
  have hge : headerSize ≤ (all ++ c.got).length := hfull.ge.trans' (Nat.le_add_right _ _)
  refine ⟨hok, hdata.symm, (hholds.size_eq hge).trans ?_⟩
  rw [hall, frameSize_frame (by omega)]

inductive Receiving (bufs : List (List UInt8)) (r : Receiver) : Prop
  | finished (hbufs : r.bufs = bufs) (hwire : r.wire = [])
  | amid {buf all left : List UInt8} {next : List (List UInt8)}
      (hbufs : bufs = r.bufs ++ buf :: next) (hmid : Midframe buf all left r.reader)
      (hwire : r.wire = left ++ (next.map frame).flatten)

theorem receiving_of_holds {bufs : List (List UInt8)} (rest : List (List UInt8)) {r : Receiver}
    (hbufs : bufs = r.bufs ++ rest) (hholds : Holds [] r.reader)
    (hwire : r.wire = (rest.map frame).flatten) : Receiving bufs r := by
  cases rest with
  | nil => exact .finished (by simpa using hbufs.symm) (by simpa using hwire)
  | cons buf next =>
    refine .amid hbufs ⟨hholds, List.nil_append _, ?_⟩ (by simpa using hwire)
    rw [← List.length_pos_iff, frame_length]
    exact Nat.add_pos_left (by decide) _

theorem receiving_round {bufs : List (List UInt8)} {r : Receiver} {found : List (List UInt8)}
    (hsmall : ∀ buf ∈ bufs, buf.length < 2 ^ 31 - 8) (h : Receiving bufs r)
    (hfinds : r.Finds found) :
    Receiving bufs (r.round found) ∧ (r.round found).wire.length < r.wire.length := by
  obtain ⟨hsome, hfound⟩ := hfinds
  cases h with
  | finished hbufs hwire =>
    rw [hwire, List.prefix_nil] at hfound
    match found, hsome, hfound with
    | (b :: bs) :: rest, _, hnil => simp at hnil
  | @amid buf all left next hbufs hmid hwire =>
    have hbuf : buf.length < 2 ^ 31 - 8 := hsmall buf (by simp [hbufs])
    have hreads := hmid.reads hbuf hwire hfound hsome
    have hspec := read_spec hmid.holds (found.map .data)
    simp only [Receiver.round]
    generalize r.reader.read (found.map .data) = c at hreads hspec ⊢
    obtain ⟨left', rfl⟩ := hreads.within
    have hdrop : r.wire.drop c.got.length = left' ++ (next.map frame).flatten := by
      rw [hwire, List.append_assoc, List.drop_left]
    have hless : (r.wire.drop c.got.length).length < r.wire.length := by
      have hpos := List.length_pos_iff.mpr hreads.some
      rw [hwire]
      simp only [List.length_drop, List.length_append]
      omega
    by_cases h0 : c.ret = 0
    · obtain ⟨hok, hdata, -⟩ := hreads.decodes h0
      obtain rfl : left' = [] := by simpa using hreads.last.mp h0
      rw [if_pos h0, if_pos hok, hdata]
      refine ⟨receiving_of_holds next (by simpa using hbufs) ?_ (by simpa using hdrop),
        hless⟩
      exact holds_reset c.reader.decode.2
    · rw [if_neg h0]
      refine ⟨.amid hbufs ⟨hspec.holds, ?_, ?_⟩ hdrop, hless⟩
      · rw [List.append_assoc, hmid.whole]
      · rintro rfl
        exact h0 (hreads.last.mpr (by simp))

theorem receiving_exec {bufs : List (List UInt8)} {r : Receiver} {rounds : List (List (List UInt8))}
    (hsmall : ∀ buf ∈ bufs, buf.length < 2 ^ 31 - 8) (h : Receiving bufs r)
    (hadm : receiver.Admits r rounds) :
    Receiving bufs (receiver.exec r rounds) ∧
      rounds.length + (receiver.exec r rounds).wire.length ≤ r.wire.length :=
  receiver.invariant_measure (fun r => r.wire.length)
    (fun _ _ hr hfinds => receiving_round hsmall hr hfinds) h hadm

theorem bytesLeft_eq {iovs : List (List UInt8)} (h : iovs.length ≤ 2) :
    bytesLeft iovs = narrow iovs.flatten.length := by
  match iovs, h with
  | [], _ => rfl
  | [iov], _ => simp [bytesLeft]
  | [iov₀, iov₁], _ => simp [bytesLeft]

section sender

variable {wv : List (List UInt8) → SockOut → SendResult}

def framedWriter (hwv : WritesPrefix wv) : FramedWriter Writer where
  iovs := Writer.iovs
  write := Writer.writeBy wv
  Ready w _ := w.iovs.length ≤ 2 ∧ w.iovs.flatten.length < 2 ^ 31
  takes := by
    rintro w out outs ⟨hslices, hsmall⟩ hout hleft
    have hputs := hwv w.iovs out
    have hpos := hputs.ret_pos hout hleft hsmall
    have hlen := congrArg List.length hputs.flatten
    rw [List.length_append] at hlen
    refine ⟨(hputs.takes hout hleft).1, hputs.flatten, ?_, hputs.slices.trans hslices, ?_⟩
    · refine (if_pos hpos).trans ((bytesLeft_eq (hputs.slices.trans hslices)).trans ?_)
      exact Word.narrow_of_mem (Int.natCast_nonneg _) (by omega)
    · exact (by omega : (wv w.iovs out).iovs.flatten.length < 2 ^ 31)

theorem writeAll_framed (hwv : WritesPrefix wv) (w : Writer) (outs : List SockOut) :
    w.writeAll wv outs = (framedWriter hwv).writeAll w outs := by
  induction outs generalizing w with
  | nil => rfl
  | cons out outs ih =>
    simp only [Writer.writeAll, FramedWriter.writeAll, ih]
    rfl

theorem writeAll_eq (hwv : WritesPrefix wv) {buf : List UInt8} {outs : List SockOut} (w : Writer)
    (hbuf : buf.length < 2 ^ 31 - 8) (houts : ∀ out ∈ outs, out.Takes)
    (hlen : (frame buf).length ≤ outs.length) :
    ∃ w' used rest, (w.reset buf).encode.2.writeAll wv outs = some (w', frame buf, rest) ∧
      outs = used ++ rest ∧ used.length ≤ (frame buf).length := by
  have hflat : (w.reset buf).encode.2.iovs.flatten = frame buf := by simp [encode_reset, frame]
  have hframe := frame_length buf
  simp only [headerSize] at hframe
  rw [writeAll_framed hwv, ← hflat]
  refine FramedWriter.writeAll_eq (f := framedWriter hwv) ⟨le_rfl, ?_⟩ ?_ houts ?_
  · exact hflat ▸ (by omega)
  · exact hflat ▸ List.length_pos_iff.mp (by omega)
  · exact hflat ▸ hlen

theorem sendAll_eq (hwv : WritesPrefix wv) {bufs : List (List UInt8)} {outs : List SockOut}
    (w : Writer) (hsmall : ∀ buf ∈ bufs, buf.length < 2 ^ 31 - 8) (houts : ∀ out ∈ outs, out.Takes)
    (hlen : (bufs.map frame).flatten.length ≤ outs.length) :
    w.sendAll wv bufs outs = some (bufs.map frame).flatten := by
  induction bufs generalizing w outs with
  | nil => rfl
  | cons buf bufs ih =>
    simp only [List.map_cons, List.flatten_cons, List.length_append] at hlen
    obtain ⟨w', used, rest, hw, hused, hulen⟩ := writeAll_eq hwv w (hsmall buf (by simp)) houts
      (by omega)
    have hrest := congrArg List.length hused
    rw [List.length_append] at hrest
    have hih : w'.sendAll wv bufs rest = _ := ih w'
      (fun b hb => hsmall b (List.mem_cons_of_mem _ hb))
      (fun o ho => houts o (by rw [hused]; exact List.mem_append_right _ ho)) (by omega)
    have hok : (w.reset buf).encode.1 = true := rfl
    simp only [Writer.sendAll, hok, if_true, hw, Option.bind_some, hih, Option.map_some,
      List.map_cons, List.flatten_cons]

end sender

/-- Messages sent one after another are received one after another, however the
socket takes and gives the bytes. A call of `Read` takes bytes of one frame, is
positive until it took the last and then 0, and `Decode` gives the message; each
call takes a byte at least, and when no byte is left every message was received. -/
theorem sendAll_received {wv : List (List UInt8) → SockOut → SendResult} (hwv : WritesPrefix wv)
    (w : Writer) (r₀ : Reader) (bufs : List (List UInt8)) (outs : List SockOut)
    (hsmall : ∀ buf ∈ bufs, buf.length < 2 ^ 31 - 8) (houts : ∀ out ∈ outs, out.Takes)
    (hlen : (bufs.map frame).flatten.length ≤ outs.length) :
    ∃ wire, w.sendAll wv bufs outs = some wire ∧
      ∀ rounds, receiver.Admits ⟨r₀.reset, wire, []⟩ rounds →
        let r := receiver.exec ⟨r₀.reset, wire, []⟩ rounds
        rounds.length + r.wire.length ≤ wire.length ∧
        (r.wire = [] → r.bufs = bufs) ∧
        (r.wire ≠ [] → ∃ buf left next, bufs = r.bufs ++ buf :: next ∧ left ≠ [] ∧
          left <:+ frame buf ∧ r.wire = left ++ (next.map frame).flatten ∧
          ∀ found, r.Finds found → Reads buf left found (r.reader.read (found.map .data))) := by
  refine ⟨_, sendAll_eq hwv w hsmall houts hlen, fun rounds hadm => ?_⟩
  have hstart : Receiving bufs ⟨r₀.reset, (bufs.map frame).flatten, []⟩ :=
    receiving_of_holds bufs rfl (holds_reset r₀) rfl
  obtain ⟨hrecv, hcount⟩ := receiving_exec hsmall hstart hadm
  refine ⟨hcount, ?_⟩
  cases hrecv with
  | finished hbufs hwire => exact ⟨fun _ => hbufs, fun hne => absurd hwire hne⟩
  | @amid buf all left next hbufs hmid hwire =>
    refine ⟨fun hnil => ?_, fun _ => ⟨buf, left, next, hbufs, hmid.more, ⟨all, hmid.whole⟩,
      hwire, fun found hfinds => ?_⟩⟩
    · rw [hwire, List.append_eq_nil_iff] at hnil
      exact absurd hnil.1 hmid.more
    · have hbuf : buf ∈ bufs := by
        rw [hbufs]
        exact List.mem_append_right _ List.mem_cons_self
      exact hmid.reads (hsmall buf hbuf) hwire hfinds.2 hfinds.1

instance (r : Receiver) (found : List (List UInt8)) : Decidable (r.Finds found) :=
  inferInstanceAs (Decidable (_ ∧ _))

instance (r : Receiver) (found : List (List UInt8)) : Decidable (receiver.enabled r found) :=
  inferInstanceAs (Decidable (r.Finds found))

/-- Two messages over a socket that takes three bytes at a time; the end of the
first frame is found together with the beginning of the second. -/
theorem sendAll_received_two :
    let r := receiver.exec ⟨⟨[], true⟩, frame [7] ++ frame [], []⟩
      [[[229, 140, 0]], [[0, 0, 0], [0, 1], [7, 229]], [[229, 140, 0, 0, 0, 0, 0, 0]]]
    Writer.new.sendAll writeVecInOrder [[7], []] (List.replicate 17 [.took 3]) =
      some (frame [7] ++ frame []) ∧ r.wire = [] ∧ r.bufs = [[7], []] := by
  obtain ⟨wire, hwire, hall⟩ := sendAll_received IOHelper.writeVecInOrder_prefix .new ⟨[], true⟩
    [[7], []] (List.replicate 17 [.took 3]) (by simp)
    (fun out ho => ⟨2, [], List.eq_of_mem_replicate ho, by simp⟩) (by decide)
  have hframes : Writer.new.sendAll writeVecInOrder [[7], []] (List.replicate 17 [.took 3]) =
      some (frame [7] ++ frame []) := by decide
  obtain rfl := Option.some.inj (hwire.symm.trans hframes)
  have hempty : (receiver.exec ⟨⟨[], true⟩, frame [7] ++ frame [], []⟩
      [[[229, 140, 0]], [[0, 0, 0], [0, 1], [7, 229]],
        [[229, 140, 0, 0, 0, 0, 0, 0]]]).wire = [] := by decide
  exact ⟨hframes, hempty, (hall _ (by decide)).2.1 hempty⟩

end Magneto.Rapid
