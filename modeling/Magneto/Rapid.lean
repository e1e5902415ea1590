import Magneto.FramedRead
import Magneto.WriteVec

/-!
# The Rapid protocol

`ProtocolWriteRapid` and `ProtocolReadRapid`. The host is little-endian: the
reader turns the fields of the header to host order in its buffer, `size` when
the header is complete and the other two in `Decode`. A reader `Holds` the bytes
it was given since its `Reset`. A writer is `Sending` the header and the buffer,
in order or with a part of the buffer a second time. Two slots never leave a
length below zero, so that the vector is never refused.
-/

namespace Magneto.Rapid

open IOHelper (SockIn SockOut SendResult readNonBlock writeVecNonBlock AlignedAll iovsAfter)
open Word (beNat leNat beBytes narrow)

def kMagic : ℕ := 58764
def kMaxVersion : ℕ := 10

def headerSize : ℕ := 8

def field (i k : ℕ) (bs : List UInt8) : List UInt8 := (bs.drop i).take k

def ntohAt (i k : ℕ) (bs : List UInt8) : List UInt8 :=
  bs.take i ++ (field i k bs).reverse ++ bs.drop (i + k)

/-- The bytes `htons` and `htonl` leave in the three fields of the header. -/
def encodeHeader (size : ℕ) : List UInt8 := beBytes 2 kMagic ++ beBytes 2 0 ++ beBytes 4 size

def frame (buf : List UInt8) : List UInt8 := encodeHeader buf.length ++ buf

structure Writer where
  buf : List UInt8
  header : List UInt8
  iovs : List (List UInt8)
  deriving DecidableEq, Repr

def Writer.new : Writer := ⟨[], List.replicate headerSize 0, []⟩

def Writer.reset (w : Writer) (buf : List UInt8) : Writer :=
  { w with buf := buf, iovs := [w.header, buf] }

def Writer.encode (w : Writer) : Bool × Writer :=
  let header := encodeHeader w.buf.length
  (true, { w with header := header, iovs := w.iovs.set 0 header })

def bytesLeft : List (List UInt8) → ℤ
  | [] => 0
  | [iov] => narrow iov.length
  | iov₀ :: iov₁ :: _ => narrow (iov₀.length + iov₁.length : ℕ)

def Writer.writeBy (wv : List (List UInt8) → SockOut → SendResult) (w : Writer) (out : SockOut) :
    WriteCall Writer :=
  let c := wv w.iovs out
  ⟨if 0 < c.ret then bytesLeft c.iovs else if c.ret = 0 then Protocol.kEnd else c.ret,
    { w with iovs := c.iovs }, c.put⟩

def Writer.write (w : Writer) (out : SockOut) : WriteCall Writer := w.writeBy writeVecNonBlock out

structure Reader where
  buffer : List UInt8
  readHeader : Bool
  deriving DecidableEq, Repr

def Reader.reset (_ : Reader) : Reader := ⟨[], true⟩

def Reader.size (r : Reader) : ℕ := leNat (field 4 4 r.buffer)

def Reader.data (r : Reader) : List UInt8 := (r.buffer.drop headerSize).take r.size

/-- An iteration of the loop of `Read` after the header is complete. -/
def Reader.readBody (hasBytesRead : Bool) (r : Reader) (got : List UInt8) (s : SockIn) :
    ReadCall Reader :=
  let bytesLeft := headerSize + r.size - r.buffer.length
  let c := readNonBlock bytesLeft s
  if 0 < c.ret then
    ⟨narrow (bytesLeft - c.ret), { r with buffer := r.buffer ++ c.got }, got ++ c.got⟩
  else if c.ret = 0 then ⟨if hasBytesRead then narrow bytesLeft else Protocol.kEnd, r, got⟩
  else ⟨c.ret, r, got⟩

/-- The iterations of the loop of `Read` on the header: each reads a byte or is the last. -/
def Reader.readLoop : ℕ → Bool → Reader → List UInt8 → SockIn → ReadCall Reader
  | 0, _, r, got, _ => ⟨Protocol.kEnd, r, got⟩
  | k + 1, hasBytesRead, r, got, s =>
    let bytesLeft := headerSize - r.buffer.length
    let c := readNonBlock bytesLeft s
    if 0 < c.ret then
      let buffer := r.buffer ++ c.got
      if buffer.length = headerSize then
        readBody true ⟨ntohAt 4 4 buffer, false⟩ (got ++ c.got) c.rest
      else readLoop k true { r with buffer := buffer } (got ++ c.got) c.rest
    else if c.ret = 0 then ⟨if hasBytesRead then narrow bytesLeft else Protocol.kEnd, r, got⟩
    else ⟨c.ret, r, got⟩

def Reader.read (r : Reader) (s : SockIn) : ReadCall Reader :=
  if r.readHeader then readLoop headerSize false r [] s else readBody false r [] s

def Reader.decode (r : Reader) : Bool × Reader :=
  let r := { r with buffer := ntohAt 2 2 (ntohAt 0 2 r.buffer) }
  (leNat (field 0 2 r.buffer) = kMagic ∧ leNat (field 2 2 r.buffer) ≤ kMaxVersion, r)

def protocols : Protocols where
  Buf := List UInt8
  Writer := Writer
  Reader := Reader
  newWriter _ := .new
  newReader _ := ⟨[], true⟩
  resetWriter := Writer.reset
  encode := Writer.encode
  write := Writer.write
  resetReader := Reader.reset
  read := Reader.read
  decode := Reader.decode

instance : DecidableEq protocols.Buf := inferInstanceAs (DecidableEq (List UInt8))

instance : DecidableEq protocols.Writer := inferInstanceAs (DecidableEq Writer)

instance : DecidableEq protocols.Reader := inferInstanceAs (DecidableEq Reader)

def frameSize (bs : List UInt8) : ℕ := beNat (field 4 4 bs)

def parse (bs : List UInt8) : Option (List UInt8) :=
  if bs.length = headerSize + frameSize bs ∧ beNat (field 0 2 bs) = kMagic ∧
      beNat (field 2 2 bs) ≤ kMaxVersion then
    some (bs.drop headerSize)
  else none

section fields

variable {i j k m : ℕ} {bs cs : List UInt8}

theorem ntohAt_length (h : i + k ≤ bs.length) : (ntohAt i k bs).length = bs.length := by
  simp only [ntohAt, field, List.length_append, List.length_take, List.length_reverse,
    List.length_drop]
  omega

theorem field_ntohAt_self (h : i + k ≤ bs.length) :
    field i k (ntohAt i k bs) = (field i k bs).reverse := by
  have hi : (bs.take i).length = i := by simp; omega
  have hk : (field i k bs).reverse.length = k := by simp [field]; omega
  rw [field, ntohAt, List.append_assoc, List.drop_append_of_le_length (by omega),
    List.drop_eq_nil_of_le (by omega), List.nil_append, List.take_append_of_le_length (by omega),
    List.take_of_length_le (by omega)]

theorem field_ntohAt_of_le (h : j + m ≤ i) (hi : i ≤ bs.length) :
    field j m (ntohAt i k bs) = field j m bs := by
  have hlen : (bs.take i).length = i := by simp; omega
  simp only [field, ntohAt, List.append_assoc]
  rw [List.drop_append_of_le_length (by omega), List.take_append_of_le_length (by simp; omega),
    List.drop_take, List.take_take, min_eq_left (by omega)]

theorem drop_ntohAt_of_ge (h : i + k ≤ j) (hk : i + k ≤ bs.length) :
    (ntohAt i k bs).drop j = bs.drop j := by
  have hlen : (bs.take i ++ (field i k bs).reverse).length = i + k := by
    simp [field]
    omega
  rw [ntohAt, List.drop_append, List.drop_eq_nil_of_le (by omega), List.nil_append, hlen,
    List.drop_drop]
  congr 1
  omega

theorem field_ntohAt_of_ge (h : i + k ≤ j) (hk : i + k ≤ bs.length) :
    field j m (ntohAt i k bs) = field j m bs := by
  rw [field, drop_ntohAt_of_ge h hk, field]

theorem field_append (h : i + k ≤ bs.length) : field i k (bs ++ cs) = field i k bs := by
  rw [field, List.drop_append_of_le_length (by omega),
    List.take_append_of_le_length (by simp; omega), field]

theorem frameSize_append (h : headerSize ≤ bs.length) :
    frameSize (bs ++ cs) = frameSize bs := by
  rw [frameSize, field_append h, frameSize]

theorem frameSize_lt (h : headerSize ≤ bs.length) : frameSize bs < 2 ^ 32 := by
  have hlen : (field 4 4 bs).length = 4 := by
    simp only [field, List.length_take, List.length_drop, headerSize] at h ⊢
    omega
  have := Word.beNat_lt (field 4 4 bs)
  rw [hlen] at this
  exact this

end fields

inductive Holds (all : List UInt8) : Reader → Prop
  | header (h : all.length < headerSize) : Holds all ⟨all, true⟩
  | body {bs : List UInt8} (h : headerSize ≤ all.length) (hlen : bs.length = all.length)
      (hdrop : bs.drop headerSize = all.drop headerSize)
      (hsize : leNat (field 4 4 bs) = frameSize all)
      (hle : all.length ≤ headerSize + frameSize all)
      (hraw : bs.take 4 = all.take 4 ∨ all.length = headerSize + frameSize all) :
      Holds all ⟨bs, false⟩

theorem holds_reset (r : Reader) : Holds [] r.reset := .header (by simp [headerSize])

theorem Holds.size_eq {all : List UInt8} {r : Reader} (h : Holds all r)
    (hlen : headerSize ≤ all.length) : r.size = frameSize all := by
  cases h with
  | header h => omega
  | body h hbs hdrop hsize hle hraw => exact hsize

theorem take_ntohAt {all : List UInt8} (h : headerSize ≤ all.length) :
    (ntohAt 4 4 all).take 4 = all.take 4 := by
  have h4 : 4 ≤ all.length := Nat.le_trans (by decide) h
  exact field_ntohAt_of_le (j := 0) (m := 4) le_rfl h4

theorem holds_header {all : List UInt8} (h : all.length = headerSize) :
    Holds all ⟨ntohAt 4 4 all, false⟩ := by
  have h8 : 4 + 4 ≤ all.length := h.ge
  refine .body h.ge (ntohAt_length h8) (drop_ntohAt_of_ge le_rfl h8) ?_ ?_
    (.inl (take_ntohAt h.ge))
  · rw [field_ntohAt_self h8, Word.leNat_reverse]
    rfl
  · rw [h]
    exact Nat.le_add_right _ _

structure ReadSpec (all : List UInt8) (c : ReadCall Reader) : Prop where
  holds : Holds (all ++ c.got) c.reader
  whole : c.ret = 0 → c.reader.readHeader = false ∧
    (all ++ c.got).length = headerSize + frameSize (all ++ c.got) ∧
    c.reader.buffer.take 4 = (all ++ c.got).take 4

structure Raw (all : List UInt8) (r : Reader) : Prop where
  holds : Holds all r
  raw : r.readHeader = false → r.buffer.take 4 = all.take 4

theorem Raw.push {all g bs : List UInt8} (h : Raw all ⟨bs, false⟩)
    (hle : (all ++ g).length ≤ headerSize + frameSize all) : Raw (all ++ g) ⟨bs ++ g, false⟩ := by
  obtain ⟨hholds, hraw⟩ := h
  have hraw : bs.take 4 = all.take 4 := hraw rfl
  cases hholds with
  | body hge hlen hdrop hsize hle' hdec =>
    have h8 : 8 ≤ all.length := hge
    have hfs : frameSize (all ++ g) = frameSize all := frameSize_append hge
    have h4 : (bs ++ g).take 4 = (all ++ g).take 4 := by
      rw [List.take_append_of_le_length (by omega), List.take_append_of_le_length (by omega), hraw]
    refine ⟨.body ?_ ?_ ?_ ?_ (hfs.symm ▸ hle) (.inl h4), fun _ => h4⟩
    · rw [List.length_append]
      omega
    · rw [List.length_append, List.length_append, hlen]
    · rw [List.drop_append_of_le_length (by omega), List.drop_append_of_le_length hge, hdrop]
    · rw [hfs, field_append (by omega), hsize]

def framed : FramedReader Reader where
  headerSize := headerSize
  bodySize := frameSize
  readHeader := Reader.readHeader
  buffer := Reader.buffer
  bodyLeft r := headerSize + r.size - r.buffer.length
  push r g := { r with buffer := r.buffer ++ g }
  start _ bs := ⟨ntohAt 4 4 bs, false⟩
  Holds := Raw
  bodySize_append := frameSize_append
  holds_header := by
    rintro all r ⟨hholds, -⟩ hr
    cases hholds with
    | header h => exact ⟨rfl, h⟩
    | body => cases hr
  holds_body := by
    rintro all r ⟨hholds, -⟩ hr
    cases hholds with
    | header => cases hr
    | body h hlen hdrop hsize hle => exact ⟨h, hle, by rw [Reader.size, hsize, hlen]⟩
  holds_push := by
    rintro all ⟨bs, readHeader⟩ g h hheader hbody
    cases readHeader with
    | true =>
      cases h.holds with
      | header => exact ⟨⟨.header (hheader rfl), by simp⟩, rfl⟩
    | false => exact ⟨h.push (hbody rfl), rfl⟩
  holds_start := by
    rintro all ⟨bs, readHeader⟩ g ⟨hholds, -⟩ hr hfull
    cases hholds with
    | header => exact ⟨⟨holds_header hfull, fun _ => take_ntohAt hfull.ge⟩, rfl⟩
    | body => cases hr

theorem readLoop_eq (k : ℕ) (hasBytesRead : Bool) (r : Reader)
    (got : List UInt8) (s : SockIn) :
    Reader.readLoop k hasBytesRead r got s = framed.readLoop k hasBytesRead r got s := by
  induction k generalizing hasBytesRead r got s with
  | zero => rfl
  | succ k ih =>
    simp only [Reader.readLoop, FramedReader.readLoop, ih]
    rfl

theorem read_eq (r : Reader) (s : SockIn) : r.read s = framed.read r s := by
  unfold Reader.read FramedReader.read
  rw [readLoop_eq]
  rfl

theorem framed_expects_lt (all : List UInt8) : framed.expects all < 2 ^ 32 := by
  unfold FramedReader.expects
  split_ifs with hlt
  · exact (Nat.sub_le _ _).trans_lt (by decide)
  · have hge : headerSize ≤ all.length := not_lt.mp hlt
    have hsize := frameSize_lt hge
    change headerSize + frameSize all - all.length < 2 ^ 32
    omega

theorem framed_expects_eq_zero {all : List UInt8} {r : Reader} (h : Holds all r) :
    framed.expects all = 0 ↔ r.readHeader = false ∧ all.length = headerSize + frameSize all := by
  have hexp : framed.expects all = if all.length < headerSize then headerSize - all.length
      else headerSize + frameSize all - all.length := rfl
  cases h with
  | header hlt =>
    rw [hexp, if_pos hlt]
    simp only [Bool.true_eq_false, false_and, iff_false]
    omega
  | body hge hlen hdrop hsize hle hdec =>
    rw [hexp, if_neg (not_lt.mpr hge)]
    simp only [true_and]
    omega

theorem readSpec_of_raw {all : List UInt8} {r : Reader} (h : Raw all r) (s : SockIn) :
    ReadSpec all (r.read s) := by
  rw [read_eq]
  have hout := FramedReader.read_outcome (f := framed) h s
  refine ⟨hout.holds.holds, fun hret => ?_⟩
  cases hout.returns with
  | left hleft =>
    have hzero := (Word.narrow_natCast_eq_zero (framed_expects_lt _)).mp (hleft.symm.trans hret)
    obtain ⟨hbody, hfull⟩ := (framed_expects_eq_zero hout.holds.holds).mp hzero
    exact ⟨hbody, hfull, hout.holds.raw hbody⟩
  | nothing hnone => exact absurd (hnone.symm.trans hret) (by decide)
  | failed hneg => omega

theorem read_of_bodyLeft_zero {r : Reader} (hr : r.readHeader = false)
    (hleft : headerSize + r.size - r.buffer.length = 0) (s : SockIn) :
    (r.read s).ret ≠ 0 ∧ (r.read s).reader = r ∧ (r.read s).got = [] := by
  have hpos : ¬0 < (readNonBlock 0 s).ret := fun hpos => by
    have hret := IOHelper.readNonBlock_ret_pos hpos
    have hgot := IOHelper.readNonBlock_got_length 0 s
    omega
  simp only [Reader.read, hr, Reader.readBody, hleft, if_neg hpos, Bool.false_eq_true, if_false]
  split_ifs with hzero
  · have hend : Protocol.kEnd ≠ 0 := by decide
    exact ⟨hend, rfl, rfl⟩
  · exact ⟨hzero, rfl, rfl⟩

theorem read_spec {all : List UInt8} {r : Reader} (h : Holds all r) (s : SockIn) :
    ReadSpec all (r.read s) := by
  by_cases hraw : r.readHeader = false → r.buffer.take 4 = all.take 4
  · exact readSpec_of_raw ⟨h, hraw⟩ s
  · -- a reader that has decoded its frame asks for no byte
    obtain ⟨hr, hne⟩ : r.readHeader = false ∧ r.buffer.take 4 ≠ all.take 4 := by
      simpa only [not_forall, exists_prop] using hraw
    cases h with
    | header => cases hr
    | @body bs hge hlen hdrop hsize hle hdec =>
      have hfull := hdec.resolve_left hne
      have hleft : headerSize + Reader.size ⟨bs, false⟩ - bs.length = 0 := by
        rw [Reader.size, hsize, hlen, hfull, Nat.sub_self]
      obtain ⟨hret, hreader, hgot⟩ := read_of_bodyLeft_zero (r := ⟨bs, false⟩) rfl hleft s
      refine ⟨?_, fun h0 => absurd h0 hret⟩
      rw [hreader, hgot, List.append_nil]
      exact .body hge hlen hdrop hsize hle hdec

/-- `Decode` of a whole frame: it succeeds exactly on a well-formed one, and the
reader then exposes the message. -/
theorem decode_spec {all : List UInt8} {r : Reader} (h : Holds all r)
    (hread : r.readHeader = false) (hfull : all.length = headerSize + frameSize all)
    (hraw : r.buffer.take 4 = all.take 4) :
    Holds all r.decode.2 ∧
      parse all = if r.decode.1 then some r.decode.2.data else none := by
  cases h with
  | header h => cases hread
  | body h hlen hdrop hsize hle hdec =>
  rename_i bs
  have h8 : 8 ≤ bs.length := hlen ▸ h
  have hlen₁ : (ntohAt 0 2 bs).length = bs.length := ntohAt_length (by omega)
  have hlen₂ : (ntohAt 2 2 (ntohAt 0 2 bs)).length = bs.length :=
    (ntohAt_length (by omega)).trans hlen₁
  have hdrop₂ : ∀ j, 4 ≤ j → (ntohAt 2 2 (ntohAt 0 2 bs)).drop j = bs.drop j := by
    intro j hj
    rw [drop_ntohAt_of_ge (by omega) (by omega), drop_ntohAt_of_ge (by omega) (by omega)]
  have hfield₂ : field 4 4 (ntohAt 2 2 (ntohAt 0 2 bs)) = field 4 4 bs := by
    rw [field, hdrop₂ 4 le_rfl, field]
  have hholds : Holds all ⟨ntohAt 2 2 (ntohAt 0 2 bs), false⟩ :=
    .body h (hlen₂.trans hlen) ((hdrop₂ _ (by simp [headerSize])).trans hdrop)
      (by rw [hfield₂, hsize]) hle (.inr hfull)
  refine ⟨hholds, ?_⟩
  have hfld : ∀ i k, i + k ≤ 4 → field i k bs = field i k all := by
    intro i k hik
    have : field i k (bs.take 4) = field i k (all.take 4) := congrArg (field i k) hraw
    simpa [field, List.drop_take, List.take_take, Nat.min_eq_left (show k ≤ 4 - i by omega)]
      using this
  have hmagic : leNat (field 0 2 (ntohAt 2 2 (ntohAt 0 2 bs))) = beNat (field 0 2 all) := by
    rw [field_ntohAt_of_le (by omega) (by omega), field_ntohAt_self (by omega),
      Word.leNat_reverse, hfld 0 2 (by omega)]
  have hversion : leNat (field 2 2 (ntohAt 2 2 (ntohAt 0 2 bs))) = beNat (field 2 2 all) := by
    rw [field_ntohAt_self (by omega), Word.leNat_reverse,
      field_ntohAt_of_ge (by omega) (by omega), hfld 2 2 (by omega)]
  have hcheck : (Reader.decode ⟨bs, false⟩).1 = true ↔
      beNat (field 0 2 all) = kMagic ∧ beNat (field 2 2 all) ≤ kMaxVersion := by
    rw [← hmagic, ← hversion]
    exact decide_eq_true_iff
  have hdata : Reader.data ⟨ntohAt 2 2 (ntohAt 0 2 bs), false⟩ = all.drop headerSize := by
    rw [Reader.data, Reader.size, hfield₂, hsize, hdrop₂ _ (by simp [headerSize]), hdrop,
      List.take_of_length_le]
    rw [List.length_drop]
    omega
  rw [parse]
  by_cases hok : (Reader.decode ⟨bs, false⟩).1 = true
  · rw [if_pos hok, if_pos ⟨hfull, hcheck.mp hok⟩]
    exact congrArg some hdata.symm
  · rw [if_neg hok, if_neg fun hp => hok (hcheck.mpr hp.2)]

theorem encode_reset (w : Writer) (buf : List UInt8) : (w.reset buf).encode =
    (true, ⟨buf, encodeHeader buf.length, [encodeHeader buf.length, buf]⟩) := rfl

theorem bytesLeft_eq_zero {iovs : List (List UInt8)} (hs : iovs.length ≤ 2)
    (hlt : iovs.flatten.length < 2 ^ 32) (h : bytesLeft iovs = 0) : iovs.flatten = [] := by
  rcases iovs with _ | ⟨iov₀, _ | ⟨iov₁, _ | ⟨iov₂, iovs⟩⟩⟩
  · rfl
  · simp only [bytesLeft] at h
    rw [Word.narrow_natCast_eq_zero (by simpa using hlt)] at h
    simpa using h
  · simp only [bytesLeft] at h
    rw [Word.narrow_natCast_eq_zero (by simpa using hlt)] at h
    simpa using h
  · simp at hs

/-- No `writev` of these calls takes the rest of the header together with a part of the buffer
that is neither empty nor all of it. -/
def SentInOrder (buf : List UInt8) (outs : List SockOut) : Prop :=
  AlignedAll [encodeHeader buf.length, buf] outs

instance (buf : protocols.Buf) (outs : List SockOut) : Decidable (SentInOrder buf outs) :=
  inferInstanceAs (Decidable (AlignedAll _ _))

inductive Sending (buf : List UInt8) (outs : List SockOut) (sent : List UInt8) (w : Writer) : Prop
  | inOrder (h : SentInOrder buf outs) (rest : sent ++ w.iovs.flatten = frame buf)
      (slots : w.iovs.length ≤ 2)
      (after : w.iovs = iovsAfter [encodeHeader buf.length, buf] outs)
  | again (h : ¬ SentInOrder buf outs) (slots : w.iovs.length ≤ 1)
      (small : w.iovs.flatten.length ≤ (frame buf).length)
      (long : (frame buf).length < sent.length + w.iovs.flatten.length)

theorem sending_encode (w : Writer) (buf : List UInt8) :
    Sending buf [] [] (w.reset buf).encode.2 :=
  .inOrder trivial (by simp [encode_reset, frame]) (by simp [encode_reset]) rfl

theorem Sending.slots_le {buf sent : List UInt8} {outs : List SockOut} {w : Writer}
    (h : Sending buf outs sent w) : w.iovs.length ≤ 2 := by
  cases h with
  | inOrder h rest slots => exact slots
  | again h slots => exact slots.trans one_le_two

theorem Sending.small {buf sent : List UInt8} {outs : List SockOut} {w : Writer}
    (h : Sending buf outs sent w) : w.iovs.flatten.length ≤ (frame buf).length := by
  cases h with
  | inOrder h rest =>
    have hlen := congrArg List.length rest
    rw [List.length_append] at hlen
    omega
  | again h slots small => exact small

theorem Sending.write {buf sent : List UInt8} {outs : List SockOut} {w : Writer}
    (h : Sending buf outs sent w) (out : SockOut) :
    Sending buf (outs ++ [out]) (sent ++ (w.write out).put) (w.write out).writer := by
  change Sending buf (outs ++ [out]) (sent ++ (writeVecNonBlock w.iovs out).put)
    { w with iovs := (writeVecNonBlock w.iovs out).iovs }
  cases h with
  | inOrder h rest slots after =>
    have hlen := congrArg List.length rest
    rw [List.length_append] at hlen
    by_cases halign : IOHelper.Aligned w.iovs out
    · obtain ⟨hflat, hslots⟩ := IOHelper.writeVec_inOrder [] w.iovs out
      rw [IOHelper.writeVecNonBlock_aligned halign]
      refine .inOrder ?_ ?_ (hslots.trans slots) ?_
      · exact (IOHelper.alignedAll_concat _ _ _).mpr ⟨h, after ▸ halign⟩
      · rw [List.append_assoc, ← rest]
        exact congrArg (sent ++ ·) hflat
      · rw [IOHelper.iovsAfter_concat, ← after]
    · obtain ⟨hslots, hsmall, hlong⟩ := IOHelper.writeVec_pair slots halign []
      refine .again ?_ hslots ?_ ?_
      · intro hall
        exact halign (after ▸ ((IOHelper.alignedAll_concat _ _ _).mp hall).2)
      · exact hsmall.trans (by omega)
      · rw [List.length_nil, Nat.zero_add] at hlong
        change (frame buf).length < (sent ++ (writeVecNonBlock w.iovs out).put).length +
          (writeVecNonBlock w.iovs out).iovs.flatten.length
        rw [List.length_append]
        unfold writeVecNonBlock
        omega
  | again h slots small long =>
    have halign : IOHelper.Aligned w.iovs out := by
      match hw : w.iovs, slots with
      | [], _ =>
        cases out with
        | nil => trivial
        | cons answer out => cases answer <;> simp [IOHelper.Aligned]
      | [iov], _ => exact IOHelper.aligned_single iov out
    obtain ⟨hflat, hslots⟩ := IOHelper.writeVec_inOrder [] w.iovs out
    have hlen := congrArg List.length hflat
    simp only [List.nil_append, List.length_append] at hlen
    rw [IOHelper.writeVecNonBlock_aligned halign]
    change Sending _ _ (sent ++ (IOHelper.writeVec _ [] w.iovs out).put)
      { w with iovs := (IOHelper.writeVec _ [] w.iovs out).iovs }
    refine .again ?_ (hslots.trans slots) ?_ ?_
    · exact fun hall => h ((IOHelper.alignedAll_concat _ _ _).mp hall).1
    · dsimp only
      omega
    · rw [List.length_append]
      dsimp only
      omega

theorem Sending.write_eq_zero {buf sent : List UInt8} {outs : List SockOut} {w : Writer}
    (h : Sending buf outs sent w) {out : SockOut} (hsize : (frame buf).length < 2 ^ 32)
    (hret : (w.write out).ret = 0) : (w.write out).writer.iovs.flatten = [] := by
  have hnext := h.write out
  have hsmall := hnext.small
  have hslots := hnext.slots_le
  change (if 0 < (writeVecNonBlock w.iovs out).ret then
    bytesLeft (writeVecNonBlock w.iovs out).iovs else _) = (0 : ℤ) at hret
  split_ifs at hret with hpos hzero
  · exact bytesLeft_eq_zero hslots (hsmall.trans_lt hsize) hret
  · exact absurd hret (by decide)
  · exact absurd hret hzero

/-- What a writer has sent when nothing is left is the frame exactly when it sent in order. -/
theorem Sending.sent_eq_iff {buf sent : List UInt8} {outs : List SockOut} {w : Writer}
    (h : Sending buf outs sent w) (hdone : w.iovs.flatten = []) :
    sent = frame buf ↔ SentInOrder buf outs := by
  cases h with
  | inOrder h rest =>
    rw [hdone, List.append_nil] at rest
    exact iff_of_true rest h
  | again h slots small long =>
    rw [hdone, List.length_nil, Nat.add_zero] at long
    refine iff_of_false (fun heq => ?_) h
    rw [heq] at long
    exact lt_irrefl _ long

end Magneto.Rapid
