import Magneto.RapidStream

/-!
# The codes that Read returns

The size that a header announces has 32 bits and `Read` returns the number of
bytes that are left as an `int`. What it returns means what `protocol.h` says
for the sizes that fit one.
-/

namespace Magneto.Rapid

open IOHelper (SockIn readNonBlock)
open Word (narrow)

/-- The readers that `Reset` and calls of `Read` that leave bytes to be read can
reach, with the bytes they have received. -/
inductive Intermediate : List UInt8 → Reader → Prop
  | reset (r : Reader) : Intermediate [] r.reset
  | read {all : List UInt8} {r : Reader} {s : SockIn} : Intermediate all r → 0 < (r.read s).ret →
    Intermediate (all ++ (r.read s).got) (r.read s).reader

def Failed (r : Reader) (s : SockIn) : Prop := ∃ x ∈ framed.recvs r s, x < 0

def Whole (bs : List UInt8) : Prop :=
  headerSize ≤ bs.length ∧ bs.length = headerSize + frameSize bs

structure Codes (all : List UInt8) (r : Reader) (s : SockIn) : Prop where
  zero : (r.read s).ret = 0 ↔ Whole (all ++ (r.read s).got) ∧ ¬Failed r s
  positive : ¬Whole (all ++ (r.read s).got) → (r.read s).got ≠ [] → ¬Failed r s →
    0 < (r.read s).ret
  negative : (r.read s).ret < 0 → Failed r s ∨ (r.read s).got = []

def Announces (size : ℕ) (bs : List UInt8) : Prop := headerSize ≤ bs.length → frameSize bs = size

theorem whole_iff {all : List UInt8} {r : Reader} (h : Holds all r) :
    Whole all ↔ framed.expects all = 0 := by
  rw [framed_expects_eq_zero h]
  constructor
  · rintro ⟨hge, hfull⟩
    cases h with
    | header hlt => omega
    | body => exact ⟨rfl, hfull⟩
  · rintro ⟨-, hfull⟩
    exact ⟨hfull ▸ Nat.le_add_right _ _, hfull⟩

theorem Intermediate.spec {all : List UInt8} {r : Reader} (h : Intermediate all r) :
    Raw all r ∧ framed.expects all ≠ 0 := by
  induction h with
  | reset r => exact ⟨⟨holds_reset r, fun hr => by cases hr⟩, by decide⟩
  | @read all r s _ hpos ih =>
    rw [read_eq] at hpos ⊢
    have hout := FramedReader.read_outcome (f := framed) ih.1 s
    refine ⟨hout.holds, fun hzero => ?_⟩
    cases hout.returns with
    | left hret =>
      rw [hzero] at hret
      rw [hret] at hpos
      exact absurd hpos (by decide)
    | nothing hret =>
      rw [hret] at hpos
      exact absurd hpos (by decide)
    | failed hret => omega

theorem expects_lt_of_announces {size : ℕ} {bs : List UInt8} (h : Announces size bs)
    (hsize : size < 2 ^ 31) : framed.expects bs < 2 ^ 31 := by
  unfold FramedReader.expects
  split_ifs with hlt
  · exact (Nat.sub_le _ _).trans_lt (by decide)
  · have hge : headerSize ≤ bs.length := not_lt.mp hlt
    have hbs := h hge
    change headerSize + frameSize bs - bs.length < 2 ^ 31
    omega

theorem codes_of_small {size : ℕ} (hsize : size < 2 ^ 31) {all : List UInt8} {r : Reader}
    (h : Intermediate all r) (s : SockIn) (hann : Announces size (all ++ (r.read s).got)) :
    Codes all r s := by
  obtain ⟨hraw, hmore⟩ := h.spec
  have hlt := expects_lt_of_announces hann hsize
  have hout := FramedReader.read_outcome (f := framed) hraw s
  rw [← read_eq] at hout
  have hwhole := whole_iff hout.holds.holds
  cases hout.returns with
  | left hret hsome hrecvs =>
    have hfailed : ¬Failed r s := fun ⟨x, hx, hneg⟩ => absurd hneg (not_lt.mpr (hrecvs x hx))
    have hret : (r.read s).ret = framed.expects (all ++ (r.read s).got) :=
      hret.trans (Word.narrow_natCast_eq_iff.mpr hlt)
    refine ⟨?_, fun hnot _ _ => ?_, fun hneg => ?_⟩
    · rw [hret, hwhole, Nat.cast_eq_zero]
      exact (and_iff_left hfailed).symm
    · rw [hwhole] at hnot
      rw [hret]
      exact Int.natCast_pos.mpr (Nat.pos_of_ne_zero hnot)
    · omega
  | nothing hret hhas hgot hrecvs =>
    refine ⟨?_, fun _ hne => absurd hgot hne, fun _ => .inr hgot⟩
    refine iff_of_false (by rw [hret]; decide) fun hw => hmore ?_
    rw [hgot, List.append_nil] at hw hwhole
    exact hwhole.mp hw.1
  | failed hret hrecvs =>
    exact ⟨iff_of_false hret.ne fun hw => hw.2 hrecvs, fun _ _ hnot => absurd hrecvs hnot,
      fun _ => .inl hrecvs⟩

theorem frameSize_encodeHeader {size : ℕ} (h : size < 2 ^ 32) :
    frameSize (encodeHeader size) = size := by
  rw [frameSize, (field_encodeHeader size).2.2, Word.beNat_beBytes h]

theorem read_encodeHeader {size : ℕ} (h : size < 2 ^ 32) (r : Reader) :
    (r.reset.read [.data (encodeHeader size)]).ret = narrow size ∧
      (r.reset.read [.data (encodeHeader size)]).got = encodeHeader size := by
  have hlen : (encodeHeader size).length = headerSize := by simp [encodeHeader, headerSize]
  have hrecv : readNonBlock headerSize [.data (encodeHeader size)] =
      ⟨headerSize, encodeHeader size, []⟩ := by
    simp [readNonBlock, hlen, Word.intMax, headerSize, List.take_of_length_le]
  have hpos : (0 : ℤ) < headerSize := by decide
  have hbody : Reader.size ⟨ntohAt 4 4 (encodeHeader size), false⟩ = size := by
    rw [(holds_header hlen).size_eq hlen.ge, frameSize_encodeHeader h]
  have hleft : headerSize + Reader.size ⟨ntohAt 4 4 (encodeHeader size), false⟩ -
      (ntohAt 4 4 (encodeHeader size)).length = size := by
    rw [hbody, ntohAt_length hlen.ge, hlen, Nat.add_sub_cancel_left]
  have hread : r.reset.read [.data (encodeHeader size)] =
      Reader.readBody true ⟨ntohAt 4 4 (encodeHeader size), false⟩ (encodeHeader size) [] := by
    have hsucc : headerSize = 7 + 1 := rfl
    rw [Reader.read, Reader.reset, if_pos rfl, hsucc, Reader.readLoop]
    simp only [List.length_nil, Nat.sub_zero, hrecv, if_pos hpos, List.nil_append, if_pos hlen]
  have hnone : readNonBlock size [] = ⟨0, [], []⟩ := rfl
  rw [hread]
  simp only [Reader.readBody, hleft, hnone, lt_irrefl, if_false, if_true, and_self]

theorem narrow_neg {n : ℕ} (h : 2 ^ 31 ≤ n) (h' : n < 2 ^ 32) : narrow n < 0 := by
  unfold narrow
  rw [Int.bmod_def]
  norm_num at h h' ⊢
  omega

theorem not_failed_of_data {all : List UInt8} {r : Reader} (h : Raw all r)
    (found : List (List UInt8)) : ¬Failed r (found.map .data) := by
  intro hfailed
  obtain ⟨code, hcode⟩ :=
    (FramedReader.read_outcome (f := framed) h (found.map .data)).fails hfailed
  obtain ⟨bs, -, hbs⟩ := List.mem_map.mp hcode
  cases hbs

/-- A size that does not fit an `int`, announced by a header that arrives alone. -/
theorem not_codes_of_large {size : ℕ} (hsize : 2 ^ 31 ≤ size) (h : size < 2 ^ 32) (r : Reader) :
    ¬Codes [] r.reset [.data (encodeHeader size)] := by
  intro hcodes
  obtain ⟨hret, hgot⟩ := read_encodeHeader h r
  have hraw := (Intermediate.reset r).spec.1
  rcases hcodes.negative (hret ▸ narrow_neg hsize h) with hfailed | hnil
  · exact not_failed_of_data hraw [encodeHeader size] hfailed
  · rw [hgot] at hnil
    exact absurd (congrArg List.length hnil) (by simp [encodeHeader])

/-- The codes of all calls on a frame are right, however its bytes arrive, exactly
when its size fits an `int`. -/
theorem codes_iff (size : ℕ) (hsize : size < 2 ^ 32) :
    (∀ all r s, Intermediate all r → Announces size (all ++ (r.read s).got) → Codes all r s) ↔
      size < 2 ^ 31 := by
  constructor
  · intro h
    by_contra hlarge
    refine not_codes_of_large (not_lt.mp hlarge) hsize ⟨[], true⟩ ?_
    refine h _ _ _ (.reset _) fun _ => ?_
    rw [(read_encodeHeader hsize _).2, List.nil_append, frameSize_encodeHeader hsize]
  · intro hsmall all r s h hann
    exact codes_of_small hsmall h s hann

theorem codes_iff_seven :
    Codes [] (Reader.reset ⟨[], true⟩) [.data (encodeHeader 7 ++ [1, 2])] :=
  (codes_iff 7 (by decide)).mpr (by decide) _ _ _ (.reset _) (by unfold Announces; decide)

/-- A header that announces `2 ^ 32 - 100` bytes: `Read` returns `kEnd` when it has
read eight bytes and nothing has failed. -/
theorem codes_wide :
    (Reader.read (Reader.reset ⟨[], true⟩) [.data (encodeHeader (2 ^ 32 - 100))]).ret =
        Protocol.kEnd ∧
      ¬Codes [] (Reader.reset ⟨[], true⟩) [.data (encodeHeader (2 ^ 32 - 100))] :=
  ⟨by decide, not_codes_of_large (by decide) (by decide) _⟩

end Magneto.Rapid
