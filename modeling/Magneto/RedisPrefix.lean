import Magneto.RedisLocal
import Magneto.RedisStream

/-!
# Beginnings of a reply

A beginning of a reply ends before a line end that the parser looks for, so the parser
asks for more. Texts and values may hold a CR or an LF of their own.
-/

namespace Magneto.RedisParser

variable {a : Value} {v pre q p out : List UInt8} {idx j start : ℕ}

def Clear (bs : List UInt8) : Prop := NoCrlf bs ∧ 36 ∉ bs

/-- The text of an integer is a number in RESP; the parser does not look at it. -/
def Reply.Clear : Reply → Prop
  | multiBulk answers => ∀ l, answers = some l →
    l ≠ [] ∧ ∀ a ∈ l, ∀ v, a = some v → v ≠ [] ∧ RedisParser.Clear v
  | bulk value => ∀ v, value = some v → RedisParser.Clear v
  | integer text => NoCrlf text
  | status text => RedisParser.Clear text
  | error text => RedisParser.Clear text

/-- A search is in vain where what it finds in the whole text is cut off. -/
theorem find_prefix {full pat : List UInt8} (hpat : pat ≠ []) (hp : p <+: full)
    (h : find pat full start = some j) (hlen : p.length < j + pat.length) :
    find pat p start = none := by
  cases hfind : find pat p start with
  | none => rfl
  | some i =>
    obtain ⟨hi, hat, -⟩ := (find_eq_some_iff hpat).mp hfind
    have hbound : i + pat.length ≤ p.length := by
      have hle := hat.length_le
      rw [List.length_drop] at hle
      have := List.length_pos_iff.mpr hpat
      omega
    have htake : p.take p.length = full.take p.length := by
      rw [List.take_length]
      exact List.prefix_iff_eq_take.mp hp
    have hfull := find_congr htake hpat hbound hfind
    obtain rfl := Option.some.inj (h.symm.trans hfull)
    omega

theorem length_crlf : crlf.length = 2 := rfl

theorem parseReplySeg_short (ha : Framed a) (htaken : Taken a) (hpre : 2 < pre.length)
    (hq : q <+: encodeValue a) (hlen : q.length < (encodeValue a).length) :
    (parseReplySeg (pre ++ q) pre.length out).ret = 1 := by
  have hfull : pre ++ q <+: pre ++ (encodeValue a ++ []) := by
    rw [List.append_nil]
    exact (List.prefix_append_right_inj pre).mpr hq
  by_cases hline : q.length < (valueLine a).length + 2
  · have hfind := find_prefix (by decide) hfull (find_valueLine a pre []) (by
      rw [List.length_append, length_crlf]
      omega)
    simp only [parseReplySeg, hfind]
  · cases a with
    | none =>
      rw [length_encodeValue, valueBody, List.length_nil] at hlen
      omega
    | some v =>
      obtain ⟨rest, rfl⟩ : valueLine (some v) ++ crlf <+: q := by
        refine List.prefix_of_prefix_length_le ⟨valueBody (some v), ?_⟩ hq ?_
        · rw [encodeValue, List.append_assoc]
        · rw [List.length_append, length_crlf]
          omega
      have hsplit : pre ++ (valueLine (some v) ++ crlf ++ rest) =
          (pre ++ valueLine (some v)) ++ (crlf ++ rest) := by simp
      have hnoCrlf : NoCrlf ((pre ++ valueLine (some v)).drop pre.length) := by
        rw [List.drop_left]
        exact noCrlf_of_not_mem (cr_not_mem_valueLine _)
      have hcr : find crlf (pre ++ (valueLine (some v) ++ crlf ++ rest)) pre.length =
          some (pre.length + (valueLine (some v)).length) := by
        rw [hsplit, find_crlf (by simp) hnoCrlf, List.length_append]
      have hnum : strtol ((pre ++ (valueLine (some v) ++ crlf ++ rest)).drop (pre.length + 1)) =
          (min longMax v.length, (decimal v.length).length) := by
        rw [List.drop_length_add_append, List.append_assoc]
        exact strtol_decimal _ _
      have hsecond := find_prefix (by decide) hfull (find_valueEnd (ha v rfl) pre []) (by
        rw [length_encodeValue, valueBody] at hlen
        simp only [List.length_append, length_crlf] at hlen ⊢
        omega)
      have hlong : v.length < 2 ^ 31 := htaken.2 v rfl
      have hpos : 0 < v.length := List.length_pos_iff.mpr fun h => htaken.1 (by rw [h])
      have hdigits := List.length_pos_iff.mpr (decimal_ne_nil v.length)
      have hbad : ¬ (min longMax (v.length : ℤ) = longMax ∨ min longMax (v.length : ℤ) = longMin ∨
          pre.length + 1 + (decimal v.length).length = 3 ∨ min longMax (v.length : ℤ) ≤ 0) := by
        rw [min_longMax_of_ne (min_longMax_ne hlong)]
        unfold longMax longMin
        omega
      simp only [parseReplySeg, hcr, hnum, min_longMax_ne_null, ↓reduceIte, hbad, hsecond]

theorem parseAnswers_short {answers : List Value} {size : ℕ} (hframed : ∀ a ∈ answers, Framed a)
    (htaken : ∀ a ∈ answers, Taken a) (hspaced : Spaced answers) (hpre : 2 < pre.length)
    (hidx : idx ≤ pre.length) (hd : 36 ∉ pre.drop idx)
    (hq : q <+: answers.flatMap encodeValue)
    (hlen : q.length < (answers.flatMap encodeValue).length) :
    (parseAnswers (pre ++ q) answers.length idx size out).ret = 1 := by
  induction answers generalizing pre q idx size out with
  | nil => simp at hlen
  | cons a answers ih =>
    obtain ⟨ha, hframed⟩ := List.forall_mem_cons.mp hframed
    obtain ⟨hta, htaken⟩ := List.forall_mem_cons.mp htaken
    rw [List.flatMap_cons] at hq hlen
    rw [List.length_cons]
    by_cases hwhole : (encodeValue a).length ≤ q.length
    · obtain ⟨rest, rfl⟩ := List.prefix_of_prefix_length_le (List.prefix_append _ _) hq hwhole
      rw [List.prefix_append_right_inj] at hq
      rw [List.length_append, List.length_append, Nat.add_lt_add_iff_left] at hlen
      have hcons := (parseAnswers_cons ha hpre hidx hd size answers.length rest
        out).resolve_right fun h => h.1 hta
      rw [hcons.2, ← List.append_assoc]
      cases answers with
      | nil => simp at hlen
      | cons b answers =>
        have hpos := length_encodeValue_pos a
        obtain ⟨hda, hspaced⟩ := hspaced.cons
        refine ih hframed htaken hspaced (by simp; omega) (by simp; omega) ?_ hq hlen
        rwa [drop_length_encodeValue]
    · have hqa : q <+: encodeValue a :=
        List.prefix_of_prefix_length_le hq (List.prefix_append _ _) (by omega)
      cases q with
      | nil =>
        have hnone : find [36] (pre ++ []) idx = none :=
          find_prefix (List.cons_ne_nil _ _)
            ((List.prefix_append_right_inj pre).mpr List.nil_prefix) (find_dollar hidx hd a [])
            (by simp)
        simp only [parseAnswers, hnone]
      | cons b q =>
        obtain rfl : b = 36 := by
          rw [encodeValue_eq_cons] at hqa
          exact (List.cons_prefix_cons.mp hqa).1
        have hdollar : find [36] (pre ++ (36 :: q)) idx = some pre.length := find_append hidx hd
        have hshort : (parseReplySeg (pre ++ 36 :: q) pre.length out).ret = 1 :=
          parseReplySeg_short ha hta hpre hqa (by omega)
        simp only [parseAnswers, hdollar, hshort]
        rfl

namespace Reply

variable {r : Reply}

theorem noCrlf_cons {b : UInt8} (hb : b ≠ 13) (hv : NoCrlf v) : NoCrlf (b :: v) := by
  intro h
  rcases List.infix_cons_iff.mp h with hpre | hin
  · exact hb (List.cons_prefix_cons.mp hpre).1.symm
  · exact hv hin

theorem Clear.noCrlf_line (hr : r.Clear) : NoCrlf r.line := by
  cases r with
  | multiBulk answers => exact noCrlf_of_not_mem (cr_not_mem_countLine answers)
  | bulk value => exact noCrlf_of_not_mem (cr_not_mem_valueLine value)
  | integer text => exact noCrlf_cons (by decide) hr
  | status text => exact noCrlf_cons (by decide) hr.1
  | error text => exact noCrlf_cons (by decide) hr.1

theorem parseReply_line_short (hr : r.Clear) (hne : p ≠ []) (hp : p <+: r.encode)
    (hlen : p.length < r.line.length + 2) : (parseReply p out).1.ret = 1 := by
  have hfind := find_prefix (by decide) hp (find_crlf (Nat.zero_le _) hr.noCrlf_line r.body) hlen
  cases p with
  | nil => exact absurd rfl hne
  | cons b p => simp only [parseReply, hfind]

theorem parseReply_value_short (hv : NoCrlf v) (hlong : v.length < 2 ^ 31)
    (hp : (bulk (some v)).line ++ (crlf ++ q) <+: (bulk (some v)).encode)
    (hlen : q.length < v.length + 2) :
    (parseReply ((bulk (some v)).line ++ (crlf ++ q)) out).1.ret = 1 := by
  have hend := find_bulkEnd hv []
  rw [List.append_nil] at hend
  have hfind := find_prefix (by decide) hp hend (by
    simp only [List.length_append, length_crlf]
    omega)
  rw [parseReply_bulk, parseBulk_some, if_neg (min_longMax_ne hlong), hfind]

theorem length_le_encode {answers : List Value} :
    answers.length ≤ (answers.flatMap encodeValue).length := by
  induction answers with
  | nil => simp
  | cons a answers ih =>
    have hpos := length_encodeValue_pos a
    rw [List.flatMap_cons, List.length_append, List.length_cons]
    omega

theorem parseReply_answers_short {answers : List Value} (hr : (multiBulk (some answers)).Clear)
    (hlong : (multiBulk (some answers)).encode.length < 2 ^ 31)
    (hq : q <+: answers.flatMap encodeValue)
    (hlen : q.length < (answers.flatMap encodeValue).length) :
    (parseReply ((multiBulk (some answers)).line ++ (crlf ++ q)) out).1.ret = 1 := by
  obtain ⟨hne, hall⟩ := hr answers rfl
  have hbody : (answers.flatMap encodeValue).length < 2 ^ 31 := by
    rw [encode, body, List.length_append, List.length_append] at hlong
    omega
  have hcount : answers.length < 2 ^ 31 := length_le_encode.trans_lt hbody
  have htaken : ∀ a ∈ answers, Taken a := by
    intro a ha
    refine ⟨fun hnil => (hall a ha [] hnil).1 rfl, fun v hv => ?_⟩
    have hle := length_le_flatMap ha
    rw [hv, length_encodeValue, valueBody, List.length_append] at hle
    omega
  have hspaced : Spaced answers := spaced_iff.mpr fun a ha v hv =>
    (hall a (List.dropLast_subset _ ha) v hv).2.2
  rw [parseReply_multiBulk, parseMultiBulk_some (List.length_pos_iff.mpr hne),
    if_neg (min_longMax_ne hcount), rounds, if_pos (by exact_mod_cast hcount), Int.toNat_natCast,
    ← List.append_assoc]
  exact parseAnswers_short (fun a ha v hv => (hall a ha v hv).2.1) htaken hspaced
    (length_line_crlf answers) (Nat.zero_le _) (dollar_not_mem_line answers) hq hlen

/-- The parser asks for more at every beginning of a reply. -/
theorem parseReply_prefix (hr : r.Clear) (hlong : r.encode.length < 2 ^ 31) (hne : p ≠ [])
    (hp : p <+: r.encode) (hlen : p.length < r.encode.length) (out : List UInt8) :
    (parseReply p out).1.ret = 1 := by
  by_cases hshort : p.length < r.line.length + 2
  · exact parseReply_line_short hr hne hp hshort
  · obtain ⟨q, rfl, hq⟩ := exists_of_line_le hp (by omega)
    have hbody : q.length < r.body.length := by
      simp only [encode, List.length_append] at hlen
      omega
    cases r with
    | multiBulk answers =>
      cases answers with
      | none => simp [body] at hbody
      | some answers => exact parseReply_answers_short hr hlong hq hbody
    | bulk value =>
      cases value with
      | none => simp [body, valueBody] at hbody
      | some v =>
        rw [body, valueBody, List.length_append, length_crlf] at hbody
        refine parseReply_value_short (hr v rfl).1 ?_ hp hbody
        simp only [encode, body, valueBody, List.length_append] at hlong
        omega
    | integer text => simp [body] at hbody
    | status text => simp [body] at hbody
    | error text => simp [body] at hbody

/-- A value that begins with an LF and ends with a CR, cut before the LF of its line end. -/
theorem parseReply_prefix_lineFeed :
    (parseReply (ascii "*2\r\n$3\r\n\na\r\r") []).1.ret = 1 := by
  refine parseReply_prefix (r := multiBulk (some [some [10, 97, 13], none])) ?_ (by decide)
    (by decide) (by decide) (by decide) []
  rintro l hl
  obtain rfl := Option.some.inj hl
  refine ⟨by decide, fun a ha v hv => ?_⟩
  subst hv
  obtain rfl : v = [10, 97, 13] := by simpa using ha
  exact ⟨by decide, by unfold NoCrlf; decide, by decide⟩

end Reply

end Magneto.RedisParser
