import Magneto.Model

/-!
# Readers of frames

A frame is a header of a fixed size, which tells the size of the body, and the
body. Rapid and Thrift read it with the same loop and keep it in different ways:
what they hold of a frame is a relation, and what a call of `Read` does is a
matter of the bytes held.
-/

namespace Magneto

open IOHelper (SockIn readNonBlock)
open Word (narrow)

def IOHelper.SockIn.bytes : SockIn → List UInt8
  | [] => []
  | .fail _ :: rest => bytes rest
  | .data bs :: rest => bs ++ bytes rest

theorem IOHelper.SockIn.bytes_data (found : List (List UInt8)) :
    SockIn.bytes (found.map .data) = found.flatten := by
  induction found with
  | nil => rfl
  | cons bs found ih => rw [List.map_cons, bytes, ih, List.flatten_cons]

theorem IOHelper.readNonBlock_bytes (count : ℕ) (s : SockIn) :
    (readNonBlock count s).got ++ (readNonBlock count s).rest.bytes = s.bytes := by
  match s with
  | [] => rfl
  | .fail code :: rest => rfl
  | .data bs :: rest =>
    simp only [readNonBlock, SockIn.bytes]
    split_ifs with hle
    · rw [List.take_of_length_le hle]
    · rw [SockIn.bytes, ← List.append_assoc, List.take_append_drop]

theorem IOHelper.readNonBlock_fail (count : ℕ) (s : SockIn) :
    ((readNonBlock count s).ret < 0 → ∃ code, Arrival.fail code ∈ s) ∧
      ∀ code, Arrival.fail code ∈ (readNonBlock count s).rest → Arrival.fail code ∈ s := by
  match s with
  | [] => exact ⟨fun h => absurd h (lt_irrefl 0), fun code h => h⟩
  | .fail code :: rest =>
    exact ⟨fun _ => ⟨code, List.mem_cons_self⟩, fun code h => List.mem_cons_of_mem _ h⟩
  | .data bs :: rest =>
    refine ⟨fun h => absurd h (not_lt.mpr (Int.natCast_nonneg _)), fun code h => ?_⟩
    simp only [readNonBlock] at h
    split_ifs at h with hle
    · exact List.mem_cons_of_mem _ h
    · rcases List.mem_cons.mp h with h | h
      · cases h
      · exact List.mem_cons_of_mem _ h

/-- A reader of frames, as `Read` uses it, and what it `Holds` of a frame. -/
structure FramedReader (R : Type) where
  headerSize : ℕ
  bodySize : List UInt8 → ℕ
  readHeader : R → Bool
  buffer : R → List UInt8
  bodyLeft : R → ℕ
  push : R → List UInt8 → R
  -- what the reader becomes with the last bytes of the header
  start : R → List UInt8 → R
  Holds : List UInt8 → R → Prop
  bodySize_append : ∀ {bs cs}, headerSize ≤ bs.length → bodySize (bs ++ cs) = bodySize bs
  holds_header : ∀ {all r}, Holds all r → readHeader r = true →
    (buffer r).length = all.length ∧ all.length < headerSize
  holds_body : ∀ {all r}, Holds all r → readHeader r = false →
    headerSize ≤ all.length ∧ all.length ≤ headerSize + bodySize all ∧
      bodyLeft r = headerSize + bodySize all - all.length
  holds_push : ∀ {all r g}, Holds all r →
    (readHeader r = true → (all ++ g).length < headerSize) →
    (readHeader r = false → (all ++ g).length ≤ headerSize + bodySize all) →
    Holds (all ++ g) (push r g) ∧ readHeader (push r g) = readHeader r
  holds_start : ∀ {all r g}, Holds all r → readHeader r = true →
    (all ++ g).length = headerSize →
    Holds (all ++ g) (start r (buffer r ++ g)) ∧ readHeader (start r (buffer r ++ g)) = false

namespace FramedReader

variable {R : Type} (f : FramedReader R)

def readBody (hasBytesRead : Bool) (r : R) (got : List UInt8) (s : SockIn) : ReadCall R :=
  let bytesLeft := f.bodyLeft r
  let c := readNonBlock bytesLeft s
  if 0 < c.ret then ⟨narrow (bytesLeft - c.ret), f.push r c.got, got ++ c.got⟩
  else if c.ret = 0 then ⟨if hasBytesRead then narrow bytesLeft else Protocol.kEnd, r, got⟩
  else ⟨c.ret, r, got⟩

def readLoop : ℕ → Bool → R → List UInt8 → SockIn → ReadCall R
  | 0, _, r, got, _ => ⟨Protocol.kEnd, r, got⟩
  | k + 1, hasBytesRead, r, got, s =>
    let bytesLeft := f.headerSize - (f.buffer r).length
    let c := readNonBlock bytesLeft s
    if 0 < c.ret then
      if (f.buffer r ++ c.got).length = f.headerSize then
        f.readBody true (f.start r (f.buffer r ++ c.got)) (got ++ c.got) c.rest
      else readLoop k true (f.push r c.got) (got ++ c.got) c.rest
    else if c.ret = 0 then ⟨if hasBytesRead then narrow bytesLeft else Protocol.kEnd, r, got⟩
    else ⟨c.ret, r, got⟩

def read (r : R) (s : SockIn) : ReadCall R :=
  if f.readHeader r then f.readLoop f.headerSize false r [] s else f.readBody false r [] s

def recvsBody (r : R) (s : SockIn) : List ℤ := [(readNonBlock (f.bodyLeft r) s).ret]

def recvsLoop : ℕ → R → SockIn → List ℤ
  | 0, _, _ => []
  | k + 1, r, s =>
    let c := readNonBlock (f.headerSize - (f.buffer r).length) s
    if 0 < c.ret then
      if (f.buffer r ++ c.got).length = f.headerSize then
        c.ret :: f.recvsBody (f.start r (f.buffer r ++ c.got)) c.rest
      else c.ret :: recvsLoop k (f.push r c.got) c.rest
    else [c.ret]

def recvs (r : R) (s : SockIn) : List ℤ :=
  if f.readHeader r then f.recvsLoop f.headerSize r s else f.recvsBody r s

def expects (bs : List UInt8) : ℕ :=
  if bs.length < f.headerSize then f.headerSize - bs.length
  else f.headerSize + f.bodySize bs - bs.length

/-- How a call of `Read` can return. It converts the number of bytes that are left. -/
inductive Returns (all g : List UInt8) (hasBytesRead : Bool) (recvs : List ℤ) (ret : ℤ) : Prop
  | left (hret : ret = narrow (f.expects (all ++ g))) (hsome : hasBytesRead = true ∨ g ≠ [])
      (hrecvs : ∀ x ∈ recvs, 0 ≤ x)
  | nothing (hret : ret = Protocol.kEnd) (hhas : hasBytesRead = false) (hg : g = [])
      (hrecvs : ∀ x ∈ recvs, 0 ≤ x)
  | failed (hret : ret < 0) (hrecvs : ∃ x ∈ recvs, x < 0)

structure Outcome (all g : List UInt8) (hasBytesRead : Bool) (s : SockIn) (recvs : List ℤ)
    (ret : ℤ) (r : R) : Prop where
  holds : f.Holds (all ++ g) r
  bytes : g <+: s.bytes
  first : 0 < (readNonBlock (f.expects all) s).ret → g ≠ []
  fails : (∃ x ∈ recvs, x < 0) → ∃ code, IOHelper.Arrival.fail code ∈ s
  returns : f.Returns all g hasBytesRead recvs ret

section outcome

variable {f} {all : List UInt8} {r : R}

theorem bodyLeft_eq (h : f.Holds all r) (hr : f.readHeader r = false) :
    f.bodyLeft r = f.expects all := by
  obtain ⟨hge, -, hleft⟩ := f.holds_body h hr
  rw [hleft, expects, if_neg (not_lt.mpr hge)]

theorem headerLeft_eq (h : f.Holds all r) (hr : f.readHeader r = true) :
    f.headerSize - (f.buffer r).length = f.expects all := by
  obtain ⟨hbuffer, hlt⟩ := f.holds_header h hr
  rw [hbuffer, expects, if_pos hlt]

theorem Outcome.stop {hasBytesRead : Bool} {s : SockIn} {ret : ℤ} (h : f.Holds all r)
    (hpos : ¬ 0 < (readNonBlock (f.expects all) s).ret)
    (hret : ret = if (readNonBlock (f.expects all) s).ret = 0 then
      (if hasBytesRead then narrow (f.expects all) else Protocol.kEnd)
      else (readNonBlock (f.expects all) s).ret) :
    f.Outcome all [] hasBytesRead s [(readNonBlock (f.expects all) s).ret] ret r := by
  refine ⟨by rwa [List.append_nil], List.nil_prefix, fun hp => absurd hp hpos, ?_, ?_⟩
  · rintro ⟨x, hx, hneg⟩
    obtain rfl := List.mem_singleton.mp hx
    exact (IOHelper.readNonBlock_fail _ s).1 hneg
  · split_ifs at hret with hzero hhas
    · exact .left (by rw [hret, List.append_nil]) (.inl hhas) (by simp [hzero])
    · exact .nothing hret (by simpa using hhas) rfl (by simp [hzero])
    · have hneg : (readNonBlock (f.expects all) s).ret < 0 := by omega
      exact .failed (hret ▸ hneg) ⟨_, List.mem_singleton_self _, hneg⟩

theorem Outcome.more {hasBytesRead : Bool} {s : SockIn} {g : List UInt8} {recvs : List ℤ}
    {ret : ℤ} (hpos : 0 < (readNonBlock (f.expects all) s).ret)
    (h : f.Outcome (all ++ (readNonBlock (f.expects all) s).got) g true
      (readNonBlock (f.expects all) s).rest recvs ret r) :
    f.Outcome all ((readNonBlock (f.expects all) s).got ++ g) hasBytesRead s
      ((readNonBlock (f.expects all) s).ret :: recvs) ret r := by
  have hgot : (readNonBlock (f.expects all) s).got ≠ [] := by
    rw [IOHelper.readNonBlock_ret_pos hpos] at hpos
    exact List.length_pos_iff.mp (by omega)
  have hbytes := IOHelper.readNonBlock_bytes (f.expects all) s
  obtain ⟨-, hrest⟩ := IOHelper.readNonBlock_fail (f.expects all) s
  generalize readNonBlock (f.expects all) s = c at hpos hgot hbytes hrest h
  have hne : c.got ++ g ≠ [] := fun hnil => hgot (List.append_eq_nil_iff.mp hnil).1
  refine ⟨by simpa using h.holds, ?_, fun _ => hne, ?_, ?_⟩
  · rw [← hbytes]
    exact (List.prefix_append_right_inj _).mpr h.bytes
  · rintro ⟨x, hx, hneg⟩
    rcases List.mem_cons.mp hx with rfl | hx
    · omega
    · obtain ⟨code, hcode⟩ := h.fails ⟨x, hx, hneg⟩
      exact ⟨code, hrest code hcode⟩
  · cases h.returns with
    | left hret hsome hrecvs =>
      exact .left (by rw [hret, List.append_assoc]) (.inr hne)
        (List.forall_mem_cons.mpr ⟨hpos.le, hrecvs⟩)
    | nothing hret hhas hg hrecvs => cases hhas
    | failed hret hrecvs =>
      obtain ⟨x, hx, hneg⟩ := hrecvs
      exact .failed hret ⟨x, List.mem_cons_of_mem _ hx, hneg⟩

theorem readBody_outcome (hasBytesRead : Bool) (got : List UInt8) (s : SockIn)
    (h : f.Holds all r) (hr : f.readHeader r = false) :
    ∃ g, (f.readBody hasBytesRead r got s).got = got ++ g ∧
      f.Outcome all g hasBytesRead s (f.recvsBody r s) (f.readBody hasBytesRead r got s).ret
        (f.readBody hasBytesRead r got s).reader := by
  obtain ⟨hge, hle, -⟩ := f.holds_body h hr
  simp only [readBody, recvsBody, bodyLeft_eq h hr]
  by_cases hpos : 0 < (readNonBlock (f.expects all) s).ret
  · have hret := IOHelper.readNonBlock_ret_pos hpos
    have hlen := IOHelper.readNonBlock_got_length (f.expects all) s
    have hgot : (readNonBlock (f.expects all) s).got ≠ [] := by
      rw [hret] at hpos
      exact List.length_pos_iff.mp (by omega)
    have hbytes := IOHelper.readNonBlock_bytes (f.expects all) s
    have hall : f.expects all = f.headerSize + f.bodySize all - all.length :=
      if_neg (not_lt.mpr hge)
    rw [if_pos hpos]
    generalize readNonBlock (f.expects all) s = c at hpos hret hlen hgot hbytes
    have hall' : f.expects (all ++ c.got) = f.expects all - c.got.length := by
      rw [hall, expects, List.length_append, if_neg (by omega), f.bodySize_append hge]
      omega
    have hlen' : (all ++ c.got).length ≤ f.headerSize + f.bodySize all := by
      rw [List.length_append]
      omega
    obtain ⟨hholds, -⟩ := f.holds_push (g := c.got) h (by simp [hr]) fun _ => hlen'
    refine ⟨c.got, rfl, hholds, ⟨_, hbytes⟩, fun _ => hgot, ?_, .left ?_ (.inr hgot) ?_⟩
    · rintro ⟨x, hx, hneg⟩
      obtain rfl := List.mem_singleton.mp hx
      omega
    · rw [hall', hret, Int.ofNat_sub hlen]
    · exact List.forall_mem_singleton.mpr hpos.le
  · rw [if_neg hpos]
    refine ⟨[], ?_, ?_⟩
    · split_ifs <;> simp
    · split_ifs with hzero hhas
      · exact .stop h hpos (by simp [hzero, hhas])
      · exact .stop h hpos (by simp [hzero, hhas])
      · exact .stop h hpos (by simp [hzero])

theorem readLoop_outcome (k : ℕ) (hasBytesRead : Bool) (got : List UInt8) (s : SockIn)
    (h : f.Holds all r) (hr : f.readHeader r = true) (hk : f.headerSize - all.length ≤ k) :
    ∃ g, (f.readLoop k hasBytesRead r got s).got = got ++ g ∧
      f.Outcome all g hasBytesRead s (f.recvsLoop k r s)
        (f.readLoop k hasBytesRead r got s).ret (f.readLoop k hasBytesRead r got s).reader := by
  obtain ⟨hbuffer, hlt⟩ := f.holds_header h hr
  induction k generalizing all r hasBytesRead got s with
  | zero => omega
  | succ k ih =>
    simp only [readLoop, recvsLoop, headerLeft_eq h hr]
    by_cases hpos : 0 < (readNonBlock (f.expects all) s).ret
    · have hret := IOHelper.readNonBlock_ret_pos hpos
      have hlen := IOHelper.readNonBlock_got_length (f.expects all) s
      have hall : f.expects all = f.headerSize - all.length := if_pos hlt
      rw [if_pos hpos, if_pos hpos]
      set g := (readNonBlock (f.expects all) s).got with hg
      have hsum : (f.buffer r ++ g).length = (all ++ g).length := by
        rw [List.length_append, List.length_append, hbuffer]
      have happ : (all ++ g).length = all.length + g.length := List.length_append
      rw [hsum]
      by_cases hfull : (all ++ g).length = f.headerSize
      · obtain ⟨hholds, hbody⟩ := f.holds_start h hr hfull
        rw [if_pos hfull, if_pos hfull]
        obtain ⟨g', hg', hout⟩ := readBody_outcome true (got ++ g)
          (readNonBlock (f.expects all) s).rest hholds hbody
        exact ⟨g ++ g', by rw [hg', List.append_assoc], hout.more hpos⟩
      · obtain ⟨hholds, hheader⟩ := f.holds_push (g := g) h (fun _ => by omega) (by simp [hr])
        obtain ⟨hbuffer', hlt'⟩ := f.holds_header hholds (hheader.trans hr)
        rw [if_neg hfull, if_neg hfull]
        obtain ⟨g', hg', hout⟩ := ih true (got ++ g) (readNonBlock (f.expects all) s).rest
          hholds (hheader.trans hr) (by omega) hbuffer' hlt'
        exact ⟨g ++ g', by rw [hg', List.append_assoc], hout.more hpos⟩
    · rw [if_neg hpos, if_neg hpos]
      refine ⟨[], ?_, ?_⟩
      · split_ifs <;> simp
      · split_ifs with hzero hhas
        · exact .stop h hpos (by simp [hzero, hhas])
        · exact .stop h hpos (by simp [hzero, hhas])
        · exact .stop h hpos (by simp [hzero])

theorem read_outcome (h : f.Holds all r) (s : SockIn) :
    f.Outcome all (f.read r s).got false s (f.recvs r s) (f.read r s).ret (f.read r s).reader := by
  have key : ∃ g, (f.read r s).got = [] ++ g ∧
      f.Outcome all g false s (f.recvs r s) (f.read r s).ret (f.read r s).reader := by
    unfold read recvs
    by_cases hr : f.readHeader r = true
    · rw [if_pos hr, if_pos hr]
      exact readLoop_outcome _ false [] s h hr (Nat.sub_le _ _)
    · rw [if_neg hr, if_neg hr]
      exact readBody_outcome false [] s h (by simpa using hr)
  obtain ⟨g, hg, hout⟩ := key
  rwa [hg, List.nil_append]

end outcome

section stream

variable {f} {all frame left next : List UInt8} {r : R} {found : List (List UInt8)}

variable (f) in
structure Reads (all left : List UInt8) (found : List (List UInt8)) (c : ReadCall R) : Prop where
  some : c.got ≠ []
  found : c.got <+: found.flatten
  within : c.got <+: left
  ret : c.ret = f.expects (all ++ c.got)
  last : c.ret = 0 ↔ c.got = left

theorem bodySize_eq_of_begins (h : all <+: frame ++ next) (hge : f.headerSize ≤ all.length)
    (hframe : f.headerSize ≤ frame.length) : f.bodySize all = f.bodySize frame := by
  obtain ⟨rest, hrest⟩ := h
  calc f.bodySize all = f.bodySize (all ++ rest) := (f.bodySize_append hge).symm
    _ = f.bodySize (frame ++ next) := by rw [hrest]
    _ = f.bodySize frame := f.bodySize_append hframe

theorem length_le_of_begins (h : f.Holds all r) (hpre : all <+: frame ++ next)
    (hfull : frame.length = f.headerSize + f.bodySize frame) : all.length ≤ frame.length := by
  by_cases hr : f.readHeader r = true
  · have hlt := (f.holds_header h hr).2
    omega
  · obtain ⟨hge, hle, -⟩ := f.holds_body h (by simpa using hr)
    rwa [bodySize_eq_of_begins hpre hge (by omega), ← hfull] at hle

theorem expects_of_begins (hpre : all <+: frame)
    (hfull : frame.length = f.headerSize + f.bodySize frame) :
    f.expects all ≤ frame.length ∧ (f.expects all = 0 ↔ all.length = frame.length) := by
  have hle := hpre.length_le
  unfold expects
  split_ifs with hlt
  · omega
  · have hnil : all <+: frame ++ [] := by rwa [List.append_nil]
    rw [bodySize_eq_of_begins hnil (by omega) (by omega)]
    omega

theorem Outcome.got_ne_nil {g : List UInt8} {hasBytesRead : Bool} {recvs : List ℤ} {ret : ℤ}
    (h : f.Outcome all g hasBytesRead (found.map .data) recvs ret r) (hexp : f.expects all ≠ 0)
    (hsome : found.head?.getD [] ≠ []) : g ≠ [] := by
  refine h.first ?_
  obtain ⟨-, -, -, hret⟩ := IOHelper.readNonBlock_data (f.expects all) found
  rw [hret]
  exact_mod_cast List.length_pos_iff.mpr
    (IOHelper.readNonBlock_got_ne_nil (Nat.pos_of_ne_zero hexp) hsome)

theorem Outcome.ret_eq {g : List UInt8} {hasBytesRead : Bool} {recvs : List ℤ} {ret : ℤ}
    (h : f.Outcome all g hasBytesRead (found.map .data) recvs ret r) (hg : g ≠ [])
    (hsmall : f.expects (all ++ g) < 2 ^ 31) : ret = f.expects (all ++ g) := by
  cases h.returns with
  | left hret => rw [hret, Word.narrow_of_mem (by omega) (by omega)]
  | nothing hret hhas hnil => exact absurd hnil hg
  | failed hret hrecvs =>
    obtain ⟨code, hcode⟩ := h.fails hrecvs
    obtain ⟨bs, -, hbs⟩ := List.mem_map.mp hcode
    cases hbs

theorem Holds.reads (h : f.Holds all r) (hframe : all ++ left = frame)
    (hfull : frame.length = f.headerSize + f.bodySize frame) (hsmall : frame.length < 2 ^ 31)
    (hleft : left ≠ []) (hfound : found.flatten <+: left ++ next)
    (hsome : found.head?.getD [] ≠ []) :
    f.Reads all left found (f.read r (found.map .data)) ∧
      f.Holds (all ++ (f.read r (found.map .data)).got) (f.read r (found.map .data)).reader := by
  have hout := read_outcome h (found.map .data)
  generalize f.read r (found.map .data) = c at hout
  have hgot : c.got <+: found.flatten := IOHelper.SockIn.bytes_data found ▸ hout.bytes
  have hpos := List.length_pos_iff.mpr hleft
  have hlen := congrArg List.length hframe
  rw [List.length_append] at hlen
  have hexp : f.expects all ≠ 0 := fun h0 => by
    have := (expects_of_begins ⟨left, hframe⟩ hfull).2.mp h0
    omega
  have hne : c.got ≠ [] := hout.got_ne_nil hexp hsome
  have hall : all ++ c.got <+: frame ++ next := by
    rw [← hframe, List.append_assoc]
    exact (List.prefix_append_right_inj _).mpr (hgot.trans hfound)
  have hle := length_le_of_begins hout.holds hall hfull
  rw [List.length_append] at hle
  have hwithin : c.got <+: left :=
    List.prefix_of_prefix_length_le (hgot.trans hfound) (List.prefix_append _ _) (by omega)
  have hpre : all ++ c.got <+: frame := by
    rw [← hframe]
    exact (List.prefix_append_right_inj _).mpr hwithin
  obtain ⟨hbound, hzero⟩ := expects_of_begins hpre hfull
  have hret : c.ret = f.expects (all ++ c.got) := hout.ret_eq hne (by omega)
  refine ⟨⟨hne, hgot, hwithin, hret, ?_⟩, hout.holds⟩
  have hiff : c.ret = 0 ↔ f.expects (all ++ c.got) = 0 := by omega
  rw [hiff, hzero, List.length_append]
  constructor
  · intro hsum
    exact hwithin.eq_of_length (by omega)
  · rintro rfl
    omega

end stream

end FramedReader

end Magneto
