import Magneto.RedisText

/-!
# A bulk segment inside a reply

`ParseReplySeg_` searches and counts from the `$` at which it starts, except that
it compares the end of the number with the third byte of the whole reply. So a
segment behind other bytes is parsed as one that stands alone unless the
comparison decides.
-/

namespace Magneto.RedisParser

variable {p s pat out : List UInt8}

theorem find_append_left (p s : List UInt8) (hpat : pat ≠ []) (i : ℕ) :
    find pat (p ++ s) (p.length + i) = (find pat s i).map (p.length + ·) := by
  have hdrop : ∀ k, (p ++ s).drop (p.length + k) = s.drop k := fun k => by
    rw [← List.drop_drop, List.drop_left]
  ext k
  rw [find_eq_some_iff hpat, Option.map_eq_some_iff]
  constructor
  · rintro ⟨hle, hat, hfirst⟩
    obtain ⟨d, rfl⟩ : ∃ d, k = p.length + d := ⟨k - p.length, by omega⟩
    refine ⟨d, (find_eq_some_iff hpat).mpr ⟨by omega, hdrop d ▸ hat, fun j hj hlt => ?_⟩, rfl⟩
    exact hdrop j ▸ hfirst (p.length + j) (by omega) (by omega)
  · rintro ⟨d, hd, rfl⟩
    obtain ⟨hle, hat, hfirst⟩ := (find_eq_some_iff hpat).mp hd
    refine ⟨by omega, (hdrop d).symm ▸ hat, fun j hj hlt => ?_⟩
    obtain ⟨e, rfl⟩ : ∃ e, j = p.length + e := ⟨j - p.length, by omega⟩
    exact (hdrop e).symm ▸ hfirst e (by omega) (by omega)

/-- What `ParseReplySeg_` makes of a segment, given whether the comparison of the end of
the number rejects it. -/
def parseSeg (s : List UInt8) (rejects : Bool) (out : List UInt8) : Parsed :=
  match find crlf s 0 with
  | none => ⟨1, none, out⟩
  | some idxCr =>
    let n := strtol (s.drop 1)
    if n.1 = -1 then ⟨0, some (idxCr + 2), out ++ ascii "__null"⟩
    else if n.1 = longMax ∨ n.1 = longMin ∨ rejects = true ∨ n.1 ≤ 0 then ⟨-1, none, out⟩
    else
      match find crlf s (idxCr + 1) with
      | none => ⟨1, none, out⟩
      | some idxSecondCr =>
        if Word.narrow ((idxSecondCr : ℤ) - idxCr - 2) ≠ n.1 then ⟨-1, none, out⟩
        else ⟨0, some (idxSecondCr + 2), out ++ (s.drop (idxCr + 2)).take n.1.toNat⟩

theorem parseReplySeg_append (p s out : List UInt8) :
    parseReplySeg (p ++ s) p.length out =
      parseSeg s (p.length + 1 + (strtol (s.drop 1)).2 = 3) out := by
  have hcrlf : crlf ≠ [] := List.cons_ne_nil _ _
  have hdrop : ∀ k, (p ++ s).drop (p.length + k) = s.drop k := fun k => by
    rw [← List.drop_drop, List.drop_left]
  unfold parseReplySeg parseSeg
  have hfirst := find_append_left p s hcrlf 0
  rw [Nat.add_zero] at hfirst
  rw [hfirst, hdrop 1]
  cases find crlf s 0 with
  | none => rfl
  | some idxCr =>
    have hsecond := find_append_left p s hcrlf (idxCr + 1)
    have hsize : ∀ k, p.length + k + 2 - p.length = k + 2 := fun k => by omega
    simp only [Option.map_some, hsize, decide_eq_true_eq]
    rw [Nat.add_assoc p.length idxCr 1, Nat.add_assoc p.length idxCr 2, hsecond, hdrop]
    cases find crlf s (idxCr + 1) with
    | none => rfl
    | some idxSecondCr =>
      have hdist : ((p.length + idxSecondCr : ℕ) : ℤ) - (p.length + idxCr : ℕ) - 2 =
          (idxSecondCr : ℤ) - idxCr - 2 := by
        omega
      simp only [Option.map_some, hsize, hdist]

theorem parseReplySeg_zero (s out : List UInt8) :
    parseReplySeg s 0 out = parseSeg s (1 + (strtol (s.drop 1)).2 = 3) out := by
  have h := parseReplySeg_append [] s out
  rwa [List.nil_append, List.length_nil, Nat.zero_add] at h

theorem strtol_consumed (h : (strtol s).1 ≠ 0) : 0 < (strtol s).2 := by
  have key : ∀ (ds : List UInt8) (v : ℤ) (k : ℕ),
      (if ds = [] then ((0 : ℤ), 0) else (v, k + ds.length)).1 ≠ 0 →
        0 < (if ds = [] then ((0 : ℤ), 0) else (v, k + ds.length)).2 := by
    intro ds v k h
    split_ifs at h ⊢ with hnil
    · exact absurd rfl h
    · exact Nat.add_pos_right k (List.length_pos_iff.mpr hnil)
  exact key _ _ _ h

/-- The line is complete and its number is positive and in the range of `strtol`, so
that nothing but the comparison can reject it. -/
def Compared (s : List UInt8) : Prop :=
  (find crlf s 0).isSome ∧ 0 < (strtol (s.drop 1)).1 ∧ (strtol (s.drop 1)).1 ≠ longMax

def Mismatched (s : List UInt8) : Prop :=
  ∃ idxCr ∈ find crlf s 0, ∃ idxSecondCr ∈ find crlf s (idxCr + 1),
    Word.narrow ((idxSecondCr : ℤ) - idxCr - 2) ≠ (strtol (s.drop 1)).1

theorem parseSeg_true (h : Compared s) (out : List UInt8) :
    parseSeg s true out = ⟨-1, none, out⟩ := by
  obtain ⟨hline, hpos, -⟩ := h
  obtain ⟨idxCr, hidx⟩ := Option.isSome_iff_exists.mp hline
  have hnull : (strtol (s.drop 1)).1 ≠ -1 := by omega
  simp only [parseSeg, hidx, if_neg hnull, true_or, or_true, if_true]

theorem parseSeg_false (h : Compared s) (out : List UInt8) :
    parseSeg s false out = ⟨-1, none, out⟩ ↔ Mismatched s := by
  obtain ⟨hline, hpos, hmax⟩ := h
  obtain ⟨idxCr, hidx⟩ := Option.isSome_iff_exists.mp hline
  have hmin : longMin < 0 := by decide
  have hnull : (strtol (s.drop 1)).1 ≠ -1 := by omega
  have hrest : ¬((strtol (s.drop 1)).1 = longMax ∨ (strtol (s.drop 1)).1 = longMin ∨
      false = true ∨ (strtol (s.drop 1)).1 ≤ 0) := by
    rintro (heq | heq | heq | heq)
    · exact hmax heq
    · omega
    · cases heq
    · omega
  simp only [parseSeg, Mismatched, hidx, if_neg hnull, if_neg hrest, Option.mem_some_iff,
    exists_eq_left']
  cases find crlf s (idxCr + 1) with
  | none => simp
  | some idxSecondCr =>
    dsimp only
    split_ifs with hdist
    · exact iff_of_true rfl ⟨idxSecondCr, rfl, hdist⟩
    · refine iff_of_false (by simp) ?_
      rintro ⟨k, hk, hne⟩
      obtain rfl := Option.some.inj hk
      exact hdist hne

theorem parseSeg_not_compared (h : ¬Compared s) (b c : Bool) (out : List UInt8) :
    parseSeg s b out = parseSeg s c out := by
  unfold parseSeg
  unfold Compared at h
  cases hidx : find crlf s 0 with
  | none => rfl
  | some idxCr =>
    have hstop : ∀ b : Bool, (strtol (s.drop 1)).1 = longMax ∨ (strtol (s.drop 1)).1 = longMin ∨
        b = true ∨ (strtol (s.drop 1)).1 ≤ 0 := by
      intro b
      by_contra hgo
      simp only [not_or, not_le] at hgo
      exact h ⟨by rw [hidx]; rfl, hgo.2.2.2, hgo.1⟩
    simp only [if_pos (hstop b), if_pos (hstop c)]

theorem parseSeg_eq_iff (s out : List UInt8) {b c : Bool} (hbc : b ≠ c) :
    parseSeg s b out = parseSeg s c out ↔ ¬Compared s ∨ Mismatched s := by
  by_cases h : Compared s
  · rw [or_iff_right (not_not.mpr h), ← parseSeg_false h out]
    cases b with
    | true =>
      obtain rfl : c = false := by simpa using hbc.symm
      rw [parseSeg_true h, eq_comm]
    | false =>
      obtain rfl : c = true := by simpa using hbc.symm
      rw [parseSeg_true h]
  · exact iff_of_true (parseSeg_not_compared h b c out) (.inl h)

def EndsAtThird (p s : List UInt8) : Prop :=
  (strtol (s.drop 1)).2 = 2 ∨ p.length = 1 ∧ (strtol (s.drop 1)).2 = 1

/-- A segment is parsed behind a prefix as it is parsed alone, exactly when there is no
prefix, the comparison is not made, its outcome is no and no, or the segment is rejected in
any case. -/
theorem parseReplySeg_offset_iff (p s out : List UInt8) :
    parseReplySeg (p ++ s) p.length out = parseReplySeg s 0 out ↔
      p = [] ∨ ¬EndsAtThird p s ∨ ¬Compared s ∨ Mismatched s := by
  rw [parseReplySeg_append, parseReplySeg_zero]
  by_cases hsame : decide (p.length + 1 + (strtol (s.drop 1)).2 = 3) =
      decide (1 + (strtol (s.drop 1)).2 = 3)
  · refine iff_of_true (by rw [hsame]) ?_
    rw [decide_eq_decide] at hsame
    by_cases hnumber : 0 < (strtol (s.drop 1)).1
    · have hpos := strtol_consumed hnumber.ne'
      by_cases hp : p = []
      · exact .inl hp
      · have hlen := List.length_pos_iff.mpr hp
        refine .inr (.inl fun hends => ?_)
        unfold EndsAtThird at hends
        omega
    · exact .inr (.inr (.inl fun hcompared => hnumber hcompared.2.1))
  · rw [parseSeg_eq_iff s out hsame]
    rw [decide_eq_decide] at hsame
    constructor
    · exact fun h => .inr (.inr h)
    · rintro (rfl | hends | h)
      · exact absurd (by rw [List.length_nil, Nat.zero_add]) hsame
      · refine .inl fun hcompared => hends ?_
        have hpos := strtol_consumed hcompared.2.1.ne'
        unfold EndsAtThird
        omega
      · exact h

/-- A segment of ten bytes is rejected alone and accepted behind the line of a multi-bulk. -/
theorem parseReplySeg_tenBytes :
    parseReplySeg (ascii "$10\r\n0123456789\r\n") 0 [] = ⟨-1, none, []⟩ ∧
      parseReplySeg (ascii "*1\r\n" ++ ascii "$10\r\n0123456789\r\n") (ascii "*1\r\n").length [] =
        ⟨0, some 17, ascii "0123456789"⟩ := by
  decide

end Magneto.RedisParser
