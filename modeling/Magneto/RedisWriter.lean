import Magneto.Redis
import Magneto.RedisCmd
import Mathlib.Algebra.BigOperators.Group.List.Basic
import Mathlib.Algebra.GroupWithZero.Nat

/-!
# Requests on the wire

`Reset`, `Encode` and `Write` until 0, with a socket that takes any number of bytes at
a time. The request goes out as the command that the C string at its start encodes.
-/

namespace Magneto.RedisParser

theorem decimal_crlf_inj {m n : ℕ} {x y : List UInt8}
    (h : decimal m ++ (crlf ++ x) = decimal n ++ (crlf ++ y)) : m = n ∧ x = y := by
  have hdigits := congrArg (List.takeWhile isDigit) h
  have htake : ∀ k z, (decimal k ++ (crlf ++ z)).takeWhile isDigit = decimal k := fun k z =>
    takeWhile_isDigit (fun _ => isDigit_of_mem_decimal) _
  rw [htake, htake] at hdigits
  have hvalue := congrArg digitsValue hdigits
  rw [digitsValue_decimal, digitsValue_decimal] at hvalue
  subst hvalue
  exact ⟨rfl, List.append_cancel_left (List.append_cancel_left h)⟩

theorem respSeg_inj {p q x y : List UInt8} (h : respSeg p ++ x = respSeg q ++ y) :
    p = q ∧ x = y := by
  simp only [respSeg, List.append_assoc] at h
  obtain ⟨hlen, hrest⟩ := decimal_crlf_inj (List.append_cancel_left h)
  obtain ⟨rfl, hcrlf⟩ := List.append_inj hrest hlen
  exact ⟨rfl, List.append_cancel_left hcrlf⟩

theorem flatMap_respSeg_inj {ps qs : List (List UInt8)}
    (h : ps.flatMap respSeg = qs.flatMap respSeg) : ps = qs := by
  have hne : ∀ p x, respSeg p ++ x ≠ [] := by
    intro p x
    simp [respSeg, ascii]
  induction ps generalizing qs with
  | nil =>
    cases qs with
    | nil => rfl
    | cons q qs =>
      rw [List.flatMap_nil, List.flatMap_cons] at h
      exact absurd h.symm (hne q _)
  | cons p ps ih =>
    cases qs with
    | nil =>
      rw [List.flatMap_nil, List.flatMap_cons] at h
      exact absurd h (hne p _)
    | cons q qs =>
      rw [List.flatMap_cons, List.flatMap_cons] at h
      obtain ⟨rfl, hrest⟩ := respSeg_inj h
      rw [ih hrest]

theorem length_le_respCmd (segs : List (List UInt8)) : segs.length ≤ (respCmd segs).length := by
  have hflat : segs.length ≤ (segs.flatMap respSeg).length := by
    induction segs with
    | nil => simp
    | cons seg segs ih =>
      have hpos : 0 < (respSeg seg).length := by simp [respSeg, ascii]
      rw [List.flatMap_cons, List.length_append, List.length_cons]
      omega
  rw [respCmd, List.length_append]
  omega

theorem parseCmd_eq_some_iff {s : List UInt8} {segs : List (List UInt8)} (hne : segs ≠ [])
    (hlen : (respCmd segs).length ≤ 2 ^ 31) :
    parseCmd s = some (respCmd segs) ↔ cutSegs (s.splitOn kSep) = some segs := by
  have hcount := (length_le_respCmd segs).trans hlen
  have hmod : segs.length % 2 ^ 32 = segs.length := Nat.mod_eq_of_lt (by omega)
  rw [parseCmd_cut]
  split_ifs with hnil
  · subst hnil
    refine iff_of_false (by simp) fun h => hne ?_
    exact (Option.some.inj h).symm
  · constructor
    · intro h
      obtain ⟨segs', hcut, heq⟩ := Option.map_eq_some_iff.mp h
      rw [hcut]
      simp only [respCmd, List.append_assoc] at heq
      obtain ⟨-, hflat⟩ := decimal_crlf_inj (List.append_cancel_left heq)
      rw [flatMap_respSeg_inj hflat]
    · intro h
      rw [h, Option.map_some, hmod]
      rfl

theorem pieces_ne_nil {s : List UInt8} (hne : s ≠ []) : pieces s ≠ [] := by
  unfold pieces
  cases hsep : s.findIdx? (· = kSep) with
  | none =>
    rw [splitOn_of_none hsep, if_neg (by simpa using hne)]
    exact List.cons_ne_nil _ _
  | some n =>
    rw [splitOn_at_sep hsep, List.dropLast_cons_of_ne_nil (List.splitOn_ne_nil _ _)]
    split_ifs <;> exact List.cons_ne_nil _ _

end Magneto.RedisParser

namespace Magneto.Redis

open IOHelper (SockOut writeNonBlock writeBuf)
open RedisParser (respCmd pieces Splits cutSegs kSep parseCmd)
open Word (narrow intMax)

variable {w : Writer} {cmd : List UInt8} {out : SockOut} {outs : List SockOut}

def Writer.writes (w : Writer) : List SockOut → List ℤ × Writer × List UInt8
  | [] => ([], w, [])
  | out :: outs =>
    let c := w.write out
    if 0 < c.ret then
      let r := c.writer.writes outs
      (c.ret :: r.1, r.2.1, c.put ++ r.2.2)
    else ([c.ret], c.writer, c.put)

def took (out : SockOut) : ℕ := (out.map fun | .took n => n | .fail => 0).sum

/-- Each `write` takes at least a byte, and a `WriteNonBlock` takes at most as many as it can
report. -/
structure Accepts (out : SockOut) : Prop where
  some : out ≠ []
  each : ∀ answer ∈ out, ∃ n, answer = .took (n + 1)
  fits : took out ≤ intMax

/-- The calls of `Write` for a command: they return positive values until its end and 0 there, and
the command is what they have put on the wire. -/
def Delivers (w : Writer) (cmd : List UInt8) : Prop :=
  ∀ outs : List SockOut, (∀ out ∈ outs, Accepts out) →
    let c := w.writes outs
    (cmd.length ≤ (outs.map took).sum →
        (∃ rets, c.1 = rets ++ [0] ∧ ∀ ret ∈ rets, 0 < ret) ∧ c.2.2 = cmd) ∧
      ((outs.map took).sum < cmd.length → c.1.length = outs.length ∧ (∀ ret ∈ c.1, 0 < ret) ∧
        c.2.2 = cmd.take (outs.map took).sum)

theorem writeBuf_eq (put bs : List UInt8) (hne : bs ≠ [])
    (hout : ∀ answer ∈ out, ∃ n, answer = .took (n + 1)) :
    writeBuf put bs out =
      (narrow (put ++ bs.take (took out)).length, put ++ bs.take (took out)) := by
  induction out generalizing put bs with
  | nil => simp [writeBuf, took]
  | cons answer out ih =>
    obtain ⟨⟨n, rfl⟩, hrest⟩ := List.forall_mem_cons.mp hout
    have hpos := List.length_pos_iff.mpr hne
    have htook : took (.took (n + 1) :: out) = n + 1 + took out := by simp [took]
    rw [htook]
    simp only [writeBuf]
    rw [if_neg (by omega)]
    split_ifs with hall
    · rw [List.take_of_length_le (by omega)]
    · have hmin : min (n + 1) bs.length = n + 1 := by omega
      have hdrop : bs.drop (n + 1) ≠ [] := by
        rw [← List.length_pos_iff, List.length_drop]
        omega
      rw [hmin, ih _ _ hdrop hrest, List.append_assoc, ← List.take_add]

theorem Accepts.pos (h : Accepts out) : 0 < took out := by
  obtain ⟨answer, rest, rfl⟩ := List.exists_cons_of_ne_nil h.some
  obtain ⟨n, rfl⟩ := h.each answer List.mem_cons_self
  simp [took]

theorem write_accept (hout : Accepts out) (hpos : w.outPos < w.out.length) :
    w.write out =
      let k := min (took out) (w.out.length - w.outPos)
      ⟨narrow ((w.out.length : ℤ) - (w.outPos + k : ℕ)), { w with outPos := w.outPos + k },
        (w.out.drop w.outPos).take k⟩ := by
  have hlen : (w.out.drop w.outPos).length = w.out.length - w.outPos := List.length_drop
  have hne : w.out.drop w.outPos ≠ [] := by
    rw [← List.length_pos_iff]
    omega
  have htake : (w.out.drop w.outPos).take (took out) =
      (w.out.drop w.outPos).take (min (took out) (w.out.length - w.outPos)) := by
    rw [← hlen, List.take_eq_take_min]
  have hput : ((w.out.drop w.outPos).take (took out)).length =
      min (took out) (w.out.length - w.outPos) := by
    rw [List.length_take, hlen]
  have hcall : writeNonBlock (w.out.drop w.outPos) out =
      (((min (took out) (w.out.length - w.outPos) : ℕ) : ℤ),
        (w.out.drop w.outPos).take (took out)) := by
    have hfits := hout.fits
    simp only [intMax] at hfits
    rw [writeNonBlock, writeBuf_eq _ _ hne hout.each, List.nil_append, hput,
      Word.narrow_of_mem (Int.natCast_nonneg _) (by omega)]
  have htook := hout.pos
  rw [Writer.write, hcall]
  simp only [hput]
  rw [if_pos (by omega), htake]

theorem write_end (hout : Accepts out) (hpos : w.outPos < w.out.length)
    (hle : w.out.length - w.outPos ≤ took out) :
    w.write out = ⟨0, { w with outPos := w.out.length }, w.out.drop w.outPos⟩ := by
  have hall : w.outPos + (w.out.length - w.outPos) = w.out.length := by omega
  rw [write_accept hout hpos]
  simp only [min_eq_right hle, hall, sub_self]
  rw [List.take_of_length_le (by rw [List.length_drop])]
  rfl

theorem write_some (hout : Accepts out) (hlt : took out < w.out.length - w.outPos) :
    w.write out =
      ⟨narrow ((w.out.length - (w.outPos + took out) : ℕ)),
        { w with outPos := w.outPos + took out }, (w.out.drop w.outPos).take (took out)⟩ := by
  rw [write_accept hout (by omega)]
  simp only [min_eq_left hlt.le]
  rw [Nat.cast_sub (by omega)]

theorem writes_cons_pos {out : SockOut} (h : 0 < (w.write out).ret) :
    w.writes (out :: outs) = ((w.write out).ret :: ((w.write out).writer.writes outs).1,
      ((w.write out).writer.writes outs).2.1,
      (w.write out).put ++ ((w.write out).writer.writes outs).2.2) := by
  simp only [Writer.writes, if_pos h]

theorem writes_cons_stop {out : SockOut} (h : ¬ 0 < (w.write out).ret) :
    w.writes (out :: outs) = ([(w.write out).ret], (w.write out).writer, (w.write out).put) := by
  simp only [Writer.writes, if_neg h]

theorem writes_spec (houts : ∀ out ∈ outs, Accepts out) (hpos : w.outPos < w.out.length)
    (hlong : w.out.length - w.outPos ≤ 2 ^ 31) :
    let c := w.writes outs
    (w.out.length - w.outPos ≤ (outs.map took).sum →
        (∃ rets, c.1 = rets ++ [0] ∧ ∀ ret ∈ rets, 0 < ret) ∧ c.2.2 = w.out.drop w.outPos) ∧
      ((outs.map took).sum < w.out.length - w.outPos → c.1.length = outs.length ∧
        (∀ ret ∈ c.1, 0 < ret) ∧ c.2.2 = (w.out.drop w.outPos).take (outs.map took).sum) := by
  induction outs generalizing w with
  | nil => simp [Writer.writes]; omega
  | cons out outs ih =>
    obtain ⟨hout, houts⟩ := List.forall_mem_cons.mp houts
    have htook := hout.pos
    rw [List.map_cons, List.sum_cons]
    by_cases hle : w.out.length - w.outPos ≤ took out
    · have hwrite := write_end hout hpos hle
      rw [writes_cons_stop (by rw [hwrite]; simp), hwrite]
      refine ⟨fun _ => ⟨⟨[], rfl, by simp⟩, rfl⟩, fun hlt => by omega⟩
    · have hwrite := write_some (w := w) hout (by omega)
      have hret : narrow ((w.out.length - (w.outPos + took out) : ℕ)) =
          (w.out.length - (w.outPos + took out) : ℕ) := Word.narrow_natCast_eq_iff.mpr (by omega)
      rw [hret] at hwrite
      rw [writes_cons_pos (by rw [hwrite]; simp only; omega), hwrite]
      have hrest := ih (w := { w with outPos := w.outPos + took out }) houts
        (show w.outPos + took out < w.out.length by omega)
        (show w.out.length - (w.outPos + took out) ≤ 2 ^ 31 by omega)
      obtain ⟨hdone, hmore⟩ := hrest
      dsimp only at hdone hmore ⊢
      have hdrop : w.out.drop (w.outPos + took out) = (w.out.drop w.outPos).drop (took out) :=
        List.drop_drop.symm
      constructor
      · intro hsum
        obtain ⟨⟨rets, hrets, hall⟩, hwire⟩ := hdone (by omega)
        refine ⟨⟨_ :: rets, by rw [hrets]; rfl, ?_⟩, ?_⟩
        · exact List.forall_mem_cons.mpr ⟨by omega, hall⟩
        · rw [hwire, hdrop, List.take_append_drop]
      · intro hsum
        obtain ⟨hlen, hall, hwire⟩ := hmore (by omega)
        refine ⟨by rw [List.length_cons, List.length_cons, hlen], ?_, ?_⟩
        · exact List.forall_mem_cons.mpr ⟨by omega, hall⟩
        · rw [hwire, hdrop, ← List.take_add]

theorem writes_append (outs' : List SockOut) (h : ∀ ret ∈ (w.writes outs).1, 0 < ret) :
    w.writes (outs ++ outs') =
      ((w.writes outs).1 ++ ((w.writes outs).2.1.writes outs').1,
        ((w.writes outs).2.1.writes outs').2.1,
        (w.writes outs).2.2 ++ ((w.writes outs).2.1.writes outs').2.2) := by
  induction outs generalizing w with
  | nil => rfl
  | cons out outs ih =>
    by_cases hpos : 0 < (w.write out).ret
    · rw [writes_cons_pos hpos] at h ⊢
      obtain ⟨-, hall⟩ := List.forall_mem_cons.mp h
      rw [List.cons_append, writes_cons_pos hpos, ih hall]
      simp
    · rw [writes_cons_stop hpos] at h
      exact absurd (h _ (List.mem_singleton_self _)) hpos

theorem write_past_end (hout : Accepts out) (hpos : ¬ w.outPos < w.out.length) :
    w.write out = ⟨Protocol.kEnd, w, []⟩ := by
  have hnil : w.out.drop w.outPos = [] := List.drop_eq_nil_of_le (not_lt.mp hpos)
  obtain ⟨answer, rest, rfl⟩ := List.exists_cons_of_ne_nil hout.some
  obtain ⟨n, rfl⟩ := hout.each answer List.mem_cons_self
  simp only [Writer.write, hnil, writeNonBlock, writeBuf, List.length_nil, Nat.min_zero]
  rfl

theorem write_tracks (w : Writer) (hout : Accepts out) :
    (w.write out).writer = { w with outPos := w.outPos + (w.write out).put.length } ∧
      (w.write out).put <+: w.out.drop w.outPos := by
  by_cases hpos : w.outPos < w.out.length
  · rw [write_accept hout hpos]
    dsimp only
    have hlen : ((w.out.drop w.outPos).take (min (took out) (w.out.length - w.outPos))).length =
        min (took out) (w.out.length - w.outPos) := by
      rw [List.length_take, List.length_drop, min_assoc, min_self]
    exact ⟨by rw [hlen], List.take_prefix _ _⟩
  · rw [write_past_end hout hpos]
    exact ⟨rfl, List.nil_prefix⟩

/-- Whatever the socket takes, the cursor stands behind what went out. -/
theorem writes_tracks (w : Writer) (houts : ∀ out ∈ outs, Accepts out) :
    (w.writes outs).2.1 = { w with outPos := w.outPos + (w.writes outs).2.2.length } ∧
      (w.writes outs).2.2 <+: w.out.drop w.outPos := by
  induction outs generalizing w with
  | nil => exact ⟨rfl, List.nil_prefix⟩
  | cons out outs ih =>
    obtain ⟨hout, houts⟩ := List.forall_mem_cons.mp houts
    obtain ⟨hwriter, hput⟩ := write_tracks w hout
    by_cases hpos : 0 < (w.write out).ret
    · obtain ⟨hstate, hwire⟩ := ih (w.write out).writer houts
      rw [writes_cons_pos hpos]
      dsimp only
      constructor
      · rw [hstate, List.length_append]
        simp only [hwriter, Nat.add_assoc]
      · obtain ⟨rest, hrest⟩ := hput
        have hdrop : (w.write out).writer.out.drop (w.write out).writer.outPos = rest := by
          rw [hwriter]
          dsimp only
          rw [← List.drop_drop, ← hrest, List.drop_left]
        rw [hdrop] at hwire
        rw [← hrest]
        exact (List.prefix_append_right_inj _).mpr hwire
    · rw [writes_cons_stop hpos]
      exact ⟨hwriter, hput⟩

def ones (m : ℕ) : List SockOut := List.replicate m [.took 1]

theorem accepts_took {n : ℕ} (hn : n < intMax) : Accepts [.took (n + 1)] :=
  ⟨by simp, by simp, by simp only [took, List.map_singleton, List.sum_singleton]; omega⟩

theorem ones_accepts {m : ℕ} : ∀ out ∈ ones m, Accepts out := by
  intro out hout
  obtain rfl := List.eq_of_mem_replicate hout
  exact accepts_took (by decide)

theorem ones_sum (m : ℕ) : ((ones m).map took).sum = m := by simp [ones, took]

theorem ones_concat {m : ℕ} (hout : Accepts out) : (∀ o ∈ ones m ++ [out], Accepts o) ∧
    ((ones m ++ [out]).map took).sum = m + took out := by
  refine ⟨fun o ho => ?_, ?_⟩
  · rcases List.mem_append.mp ho with ho | ho
    · exact ones_accepts o ho
    · rwa [List.mem_singleton.mp ho]
  · rw [List.map_append, List.sum_append, ones_sum, List.map_singleton, List.sum_singleton]

theorem Delivers.ones (h : Delivers w cmd) (h0 : w.outPos = 0) {m : ℕ} (hm : m < cmd.length)
    (out : SockOut) :
    w.out.take m = cmd.take m ∧ m ≤ w.out.length ∧
      w.writes (ones m ++ [out]) =
        ((w.writes (ones m)).1 ++ ({ w with outPos := m }.writes [out]).1,
          ({ w with outPos := m }.writes [out]).2.1,
          w.out.take m ++ ({ w with outPos := m }.writes [out]).2.2) := by
  obtain ⟨-, hmore⟩ := h (Redis.ones m) ones_accepts
  obtain ⟨-, hall, hwire⟩ := hmore (by rwa [ones_sum])
  obtain ⟨hstate, hpre⟩ := writes_tracks w (ones_accepts (m := m))
  rw [ones_sum] at hwire
  have hlen : (cmd.take m).length = m := List.length_take_of_le hm.le
  rw [hwire, h0, List.drop_zero] at hpre
  rw [hwire, h0, hlen, Nat.zero_add] at hstate
  have htake : w.out.take m = cmd.take m := by
    rw [List.prefix_iff_eq_take.mp hpre, hlen]
  refine ⟨htake, ?_, ?_⟩
  · have hle := hpre.length_le
    omega
  · rw [writes_append _ hall, hstate, hwire, htake]

theorem writes_one (w : Writer) (out : SockOut) :
    w.writes [out] = ([(w.write out).ret], (w.write out).writer, (w.write out).put) := by
  by_cases hpos : 0 < (w.write out).ret
  · rw [writes_cons_pos hpos]
    simp [Writer.writes]
  · rw [writes_cons_stop hpos]

/-- Byte by byte to the last one, and then two at once: no more than the command is there. -/
theorem Delivers.out_eq (h : Delivers w cmd) (h0 : w.outPos = 0) (hne : cmd ≠ []) :
    w.out = cmd := by
  have hpos := List.length_pos_iff.mpr hne
  obtain ⟨m, hm⟩ : ∃ m, cmd.length = m + 1 := ⟨cmd.length - 1, by omega⟩
  have htwo : Accepts [.took 2] := accepts_took (by decide)
  obtain ⟨htake, hle, hones⟩ := h.ones h0 (show m < cmd.length by omega) [.took 2]
  obtain ⟨haccepts, hsum⟩ := ones_concat (m := m) htwo
  obtain ⟨hdone, -⟩ := h _ haccepts
  rw [hones, writes_one, hsum] at hdone
  obtain ⟨-, hwire⟩ := hdone (by rw [hm]; exact Nat.add_le_add_left (by decide) m)
  dsimp only at hwire
  have hlen := congrArg List.length hwire
  rw [List.length_append, List.length_take_of_le hle, hm] at hlen
  have hlt : m < w.out.length := by
    obtain ⟨-, hpre⟩ := write_tracks { w with outPos := m } htwo
    have := hpre.length_le
    rw [List.length_drop] at this
    dsimp only at this
    omega
  rw [write_accept (w := { w with outPos := m }) htwo hlt] at hlen hwire
  have htook : took [.took 2] = 2 := rfl
  dsimp only at hlen hwire
  rw [htook] at hlen hwire
  rw [List.length_take, List.length_drop] at hlen
  have hall : w.out.length = m + 1 := by omega
  rw [hall, Nat.add_sub_cancel_left, min_eq_right (by decide), ← List.take_add, ← hall,
    List.take_length] at hwire
  exact hwire

theorem Delivers.length_le (h : Delivers w cmd) (h0 : w.outPos = 0) (hne : cmd ≠ []) :
    cmd.length ≤ 2 ^ 31 := by
  have hout := h.out_eq h0 hne
  by_contra hlong
  obtain ⟨m, hm⟩ : ∃ m, cmd.length = m + 1 + 2 ^ 31 := ⟨cmd.length - 2 ^ 31 - 1, by omega⟩
  have hone : Accepts [.took 1] := accepts_took (by decide)
  have htook : took [.took 1] = 1 := rfl
  obtain ⟨-, -, hones⟩ := h.ones h0 (show m < cmd.length by omega) [.took 1]
  obtain ⟨haccepts, hsum⟩ := ones_concat (m := m) hone
  obtain ⟨-, hmore⟩ := h _ haccepts
  rw [hones, writes_one, hsum, htook] at hmore
  obtain ⟨-, hall, -⟩ := hmore (by omega)
  have hret := hall _ (List.mem_append_right _ (List.mem_singleton_self _))
  rw [write_some (w := { w with outPos := m }) hone (by dsimp only; rw [hout, htook]; omega)]
    at hret
  dsimp only at hret
  rw [hout, hm, htook, Nat.add_sub_cancel_left] at hret
  exact absurd hret (by decide)

theorem delivers_iff (h0 : w.outPos = 0) (hne : cmd ≠ []) :
    Delivers w cmd ↔ w.out = cmd ∧ cmd.length ≤ 2 ^ 31 := by
  constructor
  · intro h
    exact ⟨h.out_eq h0 hne, h.length_le h0 hne⟩
  · rintro ⟨hout, hlong⟩ outs houts
    have hpos := List.length_pos_iff.mpr hne
    have hspec := writes_spec (w := w) houts (by rw [h0, hout]; exact hpos) (by rw [hout]; omega)
    rw [h0, hout, Nat.sub_zero, List.drop_zero] at hspec
    exact hspec

def Sends (w : Writer) (buf : Slice) (cmd : List UInt8) : Prop :=
  (w.reset buf).encode.1 = true ∧ Delivers (w.reset buf).encode.2 cmd

def Requests (w : Writer) (buf : Slice) (cmd : List UInt8) : Prop :=
  Sends w buf cmd ∧ ∀ outs, Sends ((w.reset buf).encode.2.writes outs).2.1 buf cmd

theorem sends_iff (w : Writer) (buf : Slice) (hne : cmd ≠ []) :
    Sends w buf cmd ↔
      parseCmd (cString (buf.data ++ buf.beyond)) = some cmd ∧ cmd.length ≤ 2 ^ 31 := by
  unfold Sends Writer.encode Writer.reset
  cases hparse : parseCmd (cString (buf.data ++ buf.beyond)) with
  | none => simp
  | some out =>
    dsimp only
    rw [and_iff_right rfl, delivers_iff rfl hne, Option.some.injEq]

theorem respCmd_ne_nil (segs : List (List UInt8)) : respCmd segs ≠ [] := by
  simp [respCmd, RedisParser.ascii]

/-- The request of a slice goes out as it is exactly when the bytes up to the first NUL are cut
into the segments of the slice, and what remains of the command is in the range of an `int`. -/
theorem requests_iff (w : Writer) (buf : Slice) (hne : buf.data ≠ []) :
    Requests w buf (respCmd (pieces buf.data)) ↔
      cutSegs ((cString (buf.data ++ buf.beyond)).splitOn kSep) = some (pieces buf.data) ∧
        (respCmd (pieces buf.data)).length ≤ 2 ^ 31 := by
  have hcmd := respCmd_ne_nil (pieces buf.data)
  unfold Requests
  simp only [sends_iff _ buf hcmd, forall_const, and_self]
  refine and_congr_left fun hlen => ?_
  exact RedisParser.parseCmd_eq_some_iff (RedisParser.pieces_ne_nil hne) hlen

theorem requests_iff_terminated : Requests ⟨[], [], 0⟩ ⟨RedisParser.ascii "get\x01k", [0]⟩
    (respCmd [RedisParser.ascii "get", RedisParser.ascii "k"]) :=
  (requests_iff ⟨[], [], 0⟩ ⟨RedisParser.ascii "get\x01k", [0]⟩ (by decide)).mpr
    ⟨by decide, by decide⟩

/-- The byte that follows the slice `get\x01k` in memory is sent with it. -/
theorem requests_unterminated :
    ¬ ∀ (w : Writer) (buf : Slice), buf.data ≠ [] → Splits buf.data →
      Requests w buf (respCmd (pieces buf.data)) := by
  intro h
  have hsends := (h ⟨[], [], 0⟩ ⟨RedisParser.ascii "get\x01k", [120, 0]⟩ (by decide)
    (by decide)).1
  exact absurd ((sends_iff _ _ (respCmd_ne_nil _)).mp hsends).1 (by decide)

end Magneto.Redis
