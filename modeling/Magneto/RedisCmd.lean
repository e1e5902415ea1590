import Magneto.RedisText
import Mathlib.Data.List.Infix

/-!
# Commands

`ParseCmd` cuts a request at the separators and writes each segment with its length.
The lengths and the number of segments are 32-bit; a length that is a multiple of
2^32 ends the command.
-/

namespace Magneto.RedisParser

def respSeg (seg : List UInt8) : List UInt8 :=
  ascii "$" ++ decimal seg.length ++ crlf ++ seg ++ crlf

def respCmd (segs : List (List UInt8)) : List UInt8 :=
  ascii "*" ++ decimal segs.length ++ crlf ++ segs.flatMap respSeg

/-- The pieces of a request between separators; a separator at its end adds no piece. -/
def pieces (s : List UInt8) : List (List UInt8) :=
  if (s.splitOn kSep).getLast? = some [] then (s.splitOn kSep).dropLast else s.splitOn kSep

def Splits (s : List UInt8) : Prop := s.head? ≠ some kSep ∧ ¬ [kSep, kSep] <:+: s

instance (s : List UInt8) : Decidable (Splits s) := inferInstanceAs (Decidable (_ ∧ _))

/-- What the loop makes of the pieces, with lengths of 32 bits. -/
def cutSegs : List (List UInt8) → Option (List (List UInt8))
  | [] => some []
  | p :: ps =>
    if p = [] ∧ ps ≠ [] then none
    else if p.length % 2 ^ 32 = 0 then some []
    else (cutSegs ps).map (p.take (p.length % 2 ^ 32) :: ·)

variable {s rest result : List UInt8} {k n numSegs : ℕ}

theorem split_at_sep (h : rest.findIdx? (· = kSep) = some n) :
    rest = rest.take n ++ kSep :: rest.drop (n + 1) ∧ kSep ∉ rest.take n ∧ n < rest.length := by
  obtain ⟨hlt, hat, hfirst⟩ := List.findIdx?_eq_some_iff_getElem.mp h
  have hsep : rest[n] = kSep := of_decide_eq_true hat
  refine ⟨?_, fun hmem => ?_, hlt⟩
  · rw [← hsep, List.getElem_cons_drop, List.take_append_drop]
  · obtain ⟨i, hi, he⟩ := List.mem_iff_getElem.mp hmem
    rw [List.length_take] at hi
    rw [List.getElem_take] at he
    exact hfirst i (by omega) (decide_eq_true he)

theorem splitOn_at_sep (h : rest.findIdx? (· = kSep) = some n) :
    rest.splitOn kSep = rest.take n :: (rest.drop (n + 1)).splitOn kSep := by
  obtain ⟨hsplit, hnot, -⟩ := split_at_sep h
  conv_lhs => rw [hsplit]
  rw [List.splitOn_append_cons_self_of_not_mem hnot]

theorem splitOn_of_none (h : rest.findIdx? (· = kSep) = none) : rest.splitOn kSep = [rest] := by
  refine List.splitOn_eq_singleton fun hmem => ?_
  have hall := List.findIdx?_eq_none_iff.mp h kSep hmem
  simp at hall

theorem encodeSeg_eq (h : n ≤ rest.length) : encodeSeg n rest = respSeg (rest.take n) := by
  rw [encodeSeg, respSeg, List.length_take_of_le h]

theorem cutSegs_cons {p : List UInt8} {ps : List (List UInt8)} (h : p ≠ [] ∨ ps = []) :
    cutSegs (p :: ps) = if p.length % 2 ^ 32 = 0 then some []
      else (cutSegs ps).map (p.take (p.length % 2 ^ 32) :: ·) := by
  rw [cutSegs, if_neg]
  rintro ⟨hp, hps⟩
  exact h.elim (· hp) hps

theorem parseCmdLoop_eq (hk : rest.length < k) (hn : numSegs < 2 ^ 32) :
    parseCmdLoop k rest numSegs result = (cutSegs (rest.splitOn kSep)).map fun segs =>
      ((numSegs + segs.length) % 2 ^ 32, result ++ segs.flatMap respSeg) := by
  induction k generalizing rest numSegs result with
  | zero => omega
  | succ k ih =>
    have hstop : numSegs % 2 ^ 32 = numSegs := Nat.mod_eq_of_lt hn
    rw [parseCmdLoop]
    cases hsep : rest.findIdx? (· = kSep) with
    | none =>
      rw [splitOn_of_none hsep, cutSegs_cons (.inr rfl)]
      dsimp only
      split_ifs with hlen
      · simp only [Option.map_some, List.length_nil, Nat.add_zero, hstop, List.flatMap_nil,
          List.append_nil]
      · rw [encodeSeg_eq (Nat.mod_le _ _), cutSegs]
        simp
    | some n =>
      obtain ⟨-, -, hlt⟩ := split_at_sep hsep
      have hlen : (rest.take n).length = n := List.length_take_of_le hlt.le
      rw [splitOn_at_sep hsep]
      cases n with
      | zero => simp [cutSegs]
      | succ n =>
        have hne : rest.take (n + 1) ≠ [] := by
          rw [← List.length_pos_iff, hlen]
          omega
        rw [cutSegs_cons (.inl hne), hlen]
        change (if (n + 1) % 2 ^ 32 = 0 then some (numSegs, result)
          else parseCmdLoop k (rest.drop (n + 1 + 1)) ((numSegs + 1) % 2 ^ 32)
            (result ++ encodeSeg ((n + 1) % 2 ^ 32) rest)) = _
        split_ifs with hzero
        · simp only [Option.map_some, List.length_nil, Nat.add_zero, hstop, List.flatMap_nil,
            List.append_nil]
        · have hle := Nat.mod_le (n + 1) (2 ^ 32)
          rw [ih (by rw [List.length_drop]; omega) (Nat.mod_lt _ (by decide)), Option.map_map,
            encodeSeg_eq (by omega), List.take_take, min_eq_left hle]
          congr 1
          funext segs
          simp [Nat.add_assoc, Nat.add_comm 1]

theorem parseCmd_cut (s : List UInt8) : parseCmd s =
    if s = [] then none
    else (cutSegs (s.splitOn kSep)).map fun segs =>
      ascii "*" ++ decimal (segs.length % 2 ^ 32) ++ crlf ++ segs.flatMap respSeg := by
  rw [parseCmd, parseCmdLoop_eq (Nat.lt_succ_self _) (by decide), Option.map_map]
  simp [Function.comp_def]

theorem splits_of_not_mem (h : kSep ∉ s) : Splits s :=
  ⟨fun hhead => h (List.mem_of_mem_head? hhead), fun hin => h (hin.subset List.mem_cons_self)⟩

theorem splits_append {seg : List UInt8} (hne : seg ≠ []) (hseg : kSep ∉ seg) :
    Splits (seg ++ kSep :: rest) ↔ Splits rest := by
  have hhead : (seg ++ kSep :: rest).head? ≠ some kSep := by
    rw [List.head?_append_of_ne_nil _ hne]
    exact fun h => hseg (List.mem_of_mem_head? h)
  have htwo : [kSep, kSep] <:+: seg ++ kSep :: rest ↔
      rest.head? = some kSep ∨ [kSep, kSep] <:+: rest := by
    have hcons : [kSep, kSep] <:+: kSep :: rest ↔
        rest.head? = some kSep ∨ [kSep, kSep] <:+: rest := by
      rw [List.infix_cons_iff, List.cons_prefix_cons, and_iff_right rfl]
      cases rest with
      | nil => simp
      | cons b rest => simp [List.cons_prefix_cons, eq_comm]
    rw [← hcons]
    constructor
    · intro h
      rcases List.infix_append_iff.mp h with hin | hin | ⟨l₁, l₂, hl, hsuf, hpre⟩
      · exact absurd (hin.subset List.mem_cons_self) hseg
      · exact hin
      · cases l₁ with
        | nil =>
          rw [List.nil_append] at hl
          rw [hl]
          exact hpre.isInfix
        | cons b l₁ =>
          obtain rfl : kSep = b := (List.cons.inj hl).1
          exact absurd (hsuf.subset List.mem_cons_self) hseg
    · exact fun h => h.trans (List.suffix_append _ _).isInfix
  unfold Splits
  rw [and_iff_right hhead, htwo, not_or]

theorem splits_iff : Splits s ↔ ∀ p ∈ (s.splitOn kSep).dropLast, p ≠ [] := by
  generalize hlen : s.length = len
  induction len using Nat.strongRecOn generalizing s with
  | ind len ih =>
    cases hsep : s.findIdx? (· = kSep) with
    | none =>
      have hnot : kSep ∉ s := by
        intro hmem
        have hall := List.findIdx?_eq_none_iff.mp hsep kSep hmem
        simp at hall
      rw [splitOn_of_none hsep]
      exact iff_of_true (splits_of_not_mem hnot) (by simp)
    | some n =>
      obtain ⟨hsplit, hnot, hlt⟩ := split_at_sep hsep
      rw [splitOn_at_sep hsep, List.dropLast_cons_of_ne_nil (List.splitOn_ne_nil _ _),
        List.forall_mem_cons, ← ih (s.drop (n + 1)).length (by rw [List.length_drop]; omega) rfl]
      by_cases hne : s.take n = []
      · rw [hne, List.nil_append] at hsplit
        refine iff_of_false (fun h => h.1 ?_) fun h => h.1 hne
        rw [hsplit]
        rfl
      · rw [and_iff_right hne]
        conv_lhs => rw [hsplit]
        exact splits_append hne hnot

theorem cutSegs_short {ps : List (List UInt8)} (hne : ps ≠ [])
    (hshort : ∀ p ∈ ps, p.length < 2 ^ 32) :
    cutSegs ps = if ∀ p ∈ ps.dropLast, p ≠ [] then
        some (if ps.getLast? = some [] then ps.dropLast else ps)
      else none := by
  induction ps with
  | nil => exact absurd rfl hne
  | cons p ps ih =>
    obtain ⟨hp, hshort⟩ := List.forall_mem_cons.mp hshort
    have hmod : p.length % 2 ^ 32 = p.length := Nat.mod_eq_of_lt hp
    cases ps with
    | nil =>
      rw [cutSegs_cons (.inr rfl), hmod, List.take_length, cutSegs]
      cases p <;> simp
    | cons q ps =>
      simp only [List.dropLast_cons_cons, List.getLast?_cons_cons, List.forall_mem_cons]
      by_cases hnil : p = []
      · rw [cutSegs, if_pos ⟨hnil, List.cons_ne_nil _ _⟩, if_neg fun h => h.1 hnil]
      · have hpos : p.length ≠ 0 := fun h => hnil (List.length_eq_zero_iff.mp h)
        rw [cutSegs_cons (.inl hnil), hmod, if_neg hpos, List.take_length,
          ih (List.cons_ne_nil _ _) hshort]
        simp only [ne_eq, hnil, not_false_eq_true, true_and]
        split_ifs <;> rfl

theorem length_intercalate_cons (p : List UInt8) (ps : List (List UInt8)) :
    p.length + ([kSep].intercalate ps).length ≤ ([kSep].intercalate (p :: ps)).length := by
  cases ps with
  | nil => simp
  | cons q ps =>
    rw [List.intercalate_cons_cons, List.length_append, List.length_append]
    omega

theorem length_le_of_mem_splitOn {p : List UInt8} (h : p ∈ s.splitOn kSep) :
    p.length ≤ s.length := by
  have hmem : ∀ ps : List (List UInt8), p ∈ ps → p.length ≤ ([kSep].intercalate ps).length := by
    intro ps hp
    induction ps with
    | nil => cases hp
    | cons q ps ih =>
      have hcons := length_intercalate_cons q ps
      rcases List.mem_cons.mp hp with rfl | hp
      · omega
      · exact (ih hp).trans (by omega)
  have hle := hmem _ h
  rwa [List.intercalate_splitOn] at hle

theorem cutSegs_length_le {ps segs : List (List UInt8)} (h : cutSegs ps = some segs) :
    segs.length ≤ ([kSep].intercalate ps).length := by
  induction ps generalizing segs with
  | nil =>
    obtain rfl := Option.some.inj h
    simp
  | cons p ps ih =>
    have hcons := length_intercalate_cons p ps
    rw [cutSegs] at h
    split_ifs at h with hnil hzero
    · obtain rfl := Option.some.inj h
      simp
    · obtain ⟨segs', hsegs, rfl⟩ := Option.map_eq_some_iff.mp h
      have hle := ih hsegs
      rw [List.length_cons]
      omega

theorem cutSegs_splitOn (hlen : s.length < 2 ^ 32) :
    cutSegs (s.splitOn kSep) = if Splits s then some (pieces s) else none := by
  have hcut := cutSegs_short (List.splitOn_ne_nil kSep s) fun p hp =>
    (length_le_of_mem_splitOn hp).trans_lt hlen
  simp only [← splits_iff] at hcut
  exact hcut

theorem length_pieces_le (hlen : s.length < 2 ^ 32) (h : Splits s) :
    (pieces s).length ≤ s.length := by
  have hcut := cutSegs_splitOn hlen
  rw [if_pos h] at hcut
  have hle := cutSegs_length_le hcut
  rwa [List.intercalate_splitOn] at hle

/-- A request is encoded exactly if it is not empty and has no empty piece before its end. -/
theorem parseCmd_eq (s : List UInt8) (hlen : s.length < 2 ^ 32) :
    parseCmd s = if s ≠ [] ∧ s.head? ≠ some kSep ∧ ¬ [kSep, kSep] <:+: s then
        some (respCmd (pieces s))
      else none := by
  change _ = if s ≠ [] ∧ Splits s then _ else _
  rw [parseCmd_cut, cutSegs_splitOn hlen]
  by_cases hnil : s = []
  · rw [if_pos hnil, if_neg fun h => h.1 hnil]
  by_cases hsplits : Splits s
  · have hcount := (length_pieces_le hlen hsplits).trans_lt hlen
    rw [if_neg hnil, if_pos hsplits, if_pos ⟨hnil, hsplits⟩, Option.map_some,
      Nat.mod_eq_of_lt hcount]
    rfl
  · rw [if_neg hnil, if_neg hsplits, if_neg fun h => hsplits h.2, Option.map_none]

theorem parseCmd_eq_trailing : parseCmd (ascii "get\x01k\x01") =
    some (respCmd [ascii "get", ascii "k"]) := by
  rw [parseCmd_eq _ (by decide), if_pos (by decide)]
  rfl

end Magneto.RedisParser
