import Magneto.RedisText

/-!
# Well-formed replies

The replies of a Redis server and what `ParseReply` does with their bytes: with
the whole reply, and with a proper beginning of it. Every reply is a line, of
which the first byte says what follows it, and a body that may be empty.
-/

namespace Magneto.RedisParser

/-- The value of a bulk reply or of an answer; the null value is `none`. -/
abbrev Value := Option (List UInt8)

inductive Reply
  | multiBulk (answers : Option (List Value))
  | bulk (value : Value)
  | integer (text : List UInt8)
  | status (text : List UInt8)
  | error (text : List UInt8)
  deriving DecidableEq, Repr

def valueLine : Value → List UInt8
  | none => ascii "$-1"
  | some v => 36 :: decimal v.length

def valueBody : Value → List UInt8
  | none => []
  | some v => v ++ crlf

def encodeValue (a : Value) : List UInt8 := valueLine a ++ (crlf ++ valueBody a)

namespace Reply

def line : Reply → List UInt8
  | multiBulk none => ascii "*-1"
  | multiBulk (some answers) => 42 :: decimal answers.length
  | bulk value => valueLine value
  | integer text => 58 :: text
  | status text => 43 :: text
  | error text => 45 :: text

def body : Reply → List UInt8
  | multiBulk (some answers) => answers.flatMap encodeValue
  | bulk value => valueBody value
  | _ => []

def encode (r : Reply) : List UInt8 := r.line ++ (crlf ++ r.body)

end Reply

def Plain (bs : List UInt8) : Prop := ∀ b ∈ bs, b ≠ 0 ∧ b ≠ 13 ∧ b ≠ 10 ∧ b ≠ 36

def AnswerOk (a : Value) : Prop := ∀ v, a = some v → v ≠ [] ∧ Plain v

/-- The text of an integer is a number in RESP; the parser does not look at it. -/
def Reply.WellFormed : Reply → Prop
  | multiBulk answers => ∀ l, answers = some l → ∀ a ∈ l, AnswerOk a
  | bulk value => ∀ v, value = some v → Plain v
  | integer text => Plain text
  | status text => Plain text
  | error text => Plain text

def shown (a : Value) : List UInt8 := a.getD (ascii "__null")

section value

variable {a : Value} {v pre post out : List UInt8}

theorem Plain.not_mem_cr (h : Plain v) : 13 ∉ v := fun hb => (h 13 hb).2.1 rfl

theorem Plain.not_mem_nul (h : Plain v) : 0 ∉ v := fun hb => (h 0 hb).1 rfl

theorem Plain.not_mem_dollar (h : Plain v) : 36 ∉ v := fun hb => (h 36 hb).2.2.2 rfl

theorem plain_decimal (n : ℕ) : Plain (decimal n) := by
  intro b hb
  have hd := isDigit_of_mem_decimal hb
  exact ⟨ne_of_isDigit hd (by decide), ne_of_isDigit hd (by decide), ne_of_isDigit hd (by decide),
    ne_of_isDigit hd (by decide)⟩

theorem cr_not_mem_valueLine (a : Value) : 13 ∉ valueLine a := by
  cases a with
  | none => decide
  | some v => exact List.not_mem_cons_of_ne_of_not_mem (by decide) (plain_decimal _).not_mem_cr

theorem find_valueLine (a : Value) (pre post : List UInt8) :
    find crlf (pre ++ (encodeValue a ++ post)) pre.length =
      some (pre.length + (valueLine a).length) := by
  have hsplit : pre ++ (encodeValue a ++ post) =
      (pre ++ valueLine a) ++ (crlf ++ (valueBody a ++ post)) := by
    simp [encodeValue]
  rw [hsplit, find_crlf (by simp) (by simpa using noCrlf_of_not_mem (cr_not_mem_valueLine a)),
    List.length_append]

theorem NoCrlf.cons_lf (hv : NoCrlf v) : NoCrlf (10 :: v) := by
  intro h
  rcases List.infix_cons_iff.mp h with hpre | hin
  · simp [crlf] at hpre
  · exact hv hin

theorem find_valueEnd (hv : NoCrlf v) (pre post : List UInt8) :
    find crlf (pre ++ (encodeValue (some v) ++ post))
        (pre.length + (valueLine (some v)).length + 1) =
      some (pre.length + (valueLine (some v)).length + 2 + v.length) := by
  have hsplit : pre ++ (encodeValue (some v) ++ post) =
      (pre ++ valueLine (some v) ++ crlf ++ v) ++ (crlf ++ post) := by
    simp [encodeValue, valueBody]
  have hdrop : (pre ++ valueLine (some v) ++ crlf ++ v).drop
      (pre.length + (valueLine (some v)).length + 1) = 10 :: v := by
    rw [← List.length_append, List.append_assoc _ crlf v, List.drop_length_add_append]
    rfl
  rw [hsplit, find_crlf]
  · simp only [List.length_append, crlf, List.length_cons, List.length_nil]
  · simp only [List.length_append, crlf, List.length_cons, List.length_nil]
    omega
  · rw [hdrop]
    exact hv.cons_lf

theorem drop_value (a : Value) (pre post : List UInt8) :
    (pre ++ (encodeValue a ++ post)).drop (pre.length + 1) =
      (valueLine a).tail ++ (crlf ++ (valueBody a ++ post)) := by
  rw [List.drop_length_add_append, encodeValue, List.append_assoc, List.append_assoc]
  cases a <;> rfl

theorem length_encodeValue (a : Value) :
    (encodeValue a).length = (valueLine a).length + 2 + (valueBody a).length := by
  rw [encodeValue, List.length_append, List.length_append, Nat.add_assoc]
  rfl

theorem drop_valueLine (a : Value) (pre post : List UInt8) :
    (pre ++ (encodeValue a ++ post)).drop (pre.length + (valueLine a).length + 2) =
      valueBody a ++ post := by
  rw [Nat.add_assoc, List.drop_length_add_append, encodeValue, List.append_assoc,
    List.drop_length_add_append]
  rfl

theorem parseReplySeg_null (pre post out : List UInt8) :
    parseReplySeg (pre ++ (encodeValue none ++ post)) pre.length out =
      ⟨0, some (encodeValue none).length, out ++ shown none⟩ := by
  have hnum : strtol ((valueLine none).tail ++ (crlf ++ (valueBody none ++ post))) = (-1, 2) :=
    strtol_null _
  have hsize : pre.length + (valueLine none).length + 2 - pre.length =
      (encodeValue none).length := by
    rw [length_encodeValue, valueBody, List.length_nil]
    omega
  simp only [parseReplySeg, find_valueLine, drop_value, hnum, ↓reduceIte, hsize]
  rfl

theorem parseReplySeg_some (hv : NoCrlf v) (hne : v ≠ []) (hpre : 2 < pre.length)
    (post out : List UInt8) :
    parseReplySeg (pre ++ (encodeValue (some v) ++ post)) pre.length out =
      if v.length < 2 ^ 31 then ⟨0, some (encodeValue (some v)).length, out ++ v⟩
      else ⟨-1, none, out⟩ := by
  have hnum : strtol ((valueLine (some v)).tail ++ (crlf ++ (valueBody (some v) ++ post))) =
      (min longMax v.length, (decimal v.length).length) := strtol_decimal _ _
  have hpos : 0 < v.length := List.length_pos_iff.mpr hne
  have hmin : 0 < min longMax (v.length : ℤ) := lt_min (by decide) (by exact_mod_cast hpos)
  have hend : pre.length + 1 + (decimal v.length).length ≠ 3 := by
    have := List.length_pos_iff.mpr (decimal_ne_nil v.length)
    omega
  have hdiff : ((pre.length + (valueLine (some v)).length + 2 + v.length : ℕ) : ℤ) -
      (pre.length + (valueLine (some v)).length : ℕ) - 2 = v.length := by
    push_cast
    omega
  have hsize : pre.length + (valueLine (some v)).length + 2 + v.length + 2 - pre.length =
      (encodeValue (some v)).length := by
    rw [length_encodeValue, valueBody, List.length_append, crlf, List.length_cons,
      List.length_singleton]
    omega
  simp only [parseReplySeg, find_valueLine, drop_value, hnum, find_valueEnd hv, hdiff,
    min_longMax_ne_null, min_longMax_ne_longMin, hend, ↓reduceIte, not_le.mpr hmin, or_false, hsize,
    drop_valueLine]
  by_cases hlt : v.length < 2 ^ 31
  · have hmax := min_longMax_ne hlt
    rw [if_pos hlt, if_neg hmax, min_longMax_of_ne hmax,
      if_neg (not_not.mpr (Word.narrow_natCast_eq_iff.mpr hlt)), Int.toNat_natCast, valueBody,
      List.append_assoc, List.take_left]
  · rw [if_neg hlt]
    split_ifs with hmax hnarrow
    · rfl
    · rfl
    · rw [min_longMax_of_ne hmax] at hnarrow
      exact absurd (Word.narrow_natCast_eq_iff.mp (not_not.mp hnarrow)) hlt

def AnswerFits (a : Value) : Prop := ∀ v, a = some v → v.length < 2 ^ 31

def Framed (a : Value) : Prop := ∀ v, a = some v → NoCrlf v

def Taken (a : Value) : Prop := a ≠ some [] ∧ AnswerFits a

theorem Plain.noCrlf (h : Plain v) : NoCrlf v := noCrlf_of_not_mem h.not_mem_cr

theorem AnswerOk.framed (h : AnswerOk a) : Framed a := fun v hv => (h v hv).2.noCrlf

theorem AnswerOk.taken_iff (h : AnswerOk a) : Taken a ↔ AnswerFits a :=
  and_iff_right fun he => (h [] he).1 rfl

theorem parseReplySeg_empty (pre post out : List UInt8) :
    parseReplySeg (pre ++ (encodeValue (some []) ++ post)) pre.length out = ⟨-1, none, out⟩ := by
  have hnum : strtol ((valueLine (some [])).tail ++ (crlf ++ (valueBody (some []) ++ post))) =
      (min longMax (0 : ℕ), (decimal 0).length) := strtol_decimal 0 _
  simp only [parseReplySeg, find_valueLine, drop_value, hnum]
  simp [longMax]

theorem parseReplySeg_value (ha : Framed a) (hpre : 2 < pre.length) (post out : List UInt8) :
    Taken a ∧ parseReplySeg (pre ++ (encodeValue a ++ post)) pre.length out =
        ⟨0, some (encodeValue a).length, out ++ shown a⟩ ∨
      ¬ Taken a ∧ parseReplySeg (pre ++ (encodeValue a ++ post)) pre.length out =
        ⟨-1, none, out⟩ := by
  cases a with
  | none => exact .inl ⟨by simp [Taken, AnswerFits], parseReplySeg_null pre post out⟩
  | some v =>
    by_cases hne : v = []
    · subst hne
      exact .inr ⟨fun h => h.1 rfl, parseReplySeg_empty pre post out⟩
    · have hseg := parseReplySeg_some (ha v rfl) hne hpre post out
      by_cases hlt : v.length < 2 ^ 31
      · rw [if_pos hlt] at hseg
        exact .inl ⟨by simpa [Taken, AnswerFits, hne] using hlt, hseg⟩
      · rw [if_neg hlt] at hseg
        exact .inr ⟨by simpa [Taken, AnswerFits, hne] using hlt, hseg⟩

theorem dollar_not_mem_tail (ha : AnswerOk a) : 36 ∉ (encodeValue a).tail := by
  cases a with
  | none => decide
  | some v =>
    have hv := (ha v rfl).2.not_mem_dollar
    have hn := (plain_decimal v.length).not_mem_dollar
    simp [encodeValue, valueLine, valueBody, crlf, hv, hn]

theorem spaced_of_ok {answers : List Value} (h : ∀ a ∈ answers, AnswerOk a) :
    ∀ a ∈ answers.dropLast, 36 ∉ (encodeValue a).tail :=
  fun a ha => dollar_not_mem_tail (h a ((List.dropLast_subset _) ha))

theorem find_dollar {idx : ℕ} (hidx : idx ≤ pre.length) (hd : 36 ∉ pre.drop idx) (a : Value)
    (post : List UInt8) : find [36] (pre ++ (encodeValue a ++ post)) idx = some pre.length := by
  have hcons : encodeValue a ++ post = 36 :: [] ++ ((encodeValue a).tail ++ post) := by
    cases a <;> rfl
  rw [hcons]
  exact find_append hidx hd

theorem parseAnswers_cons {idx : ℕ} (ha : Framed a) (hpre : 2 < pre.length)
    (hidx : idx ≤ pre.length) (hd : 36 ∉ pre.drop idx) (size k : ℕ) (post out : List UInt8) :
    Taken a ∧ parseAnswers (pre ++ (encodeValue a ++ post)) (k + 1) idx size out =
        parseAnswers (pre ++ (encodeValue a ++ post)) k (pre.length + 1) (encodeValue a).length
          (if k = 0 then out ++ shown a else out ++ shown a ++ [kSep]) ∨
      ¬ Taken a ∧
        parseAnswers (pre ++ (encodeValue a ++ post)) (k + 1) idx size out = ⟨-1, none, out⟩ := by
  rcases parseReplySeg_value ha hpre post out with ⟨htaken, hseg⟩ | ⟨htaken, hseg⟩
  · left
    refine ⟨htaken, ?_⟩
    simp [parseAnswers, find_dollar hidx hd, hseg]
  · right
    refine ⟨htaken, ?_⟩
    simp [parseAnswers, find_dollar hidx hd, hseg]

theorem drop_length_encodeValue (pre : List UInt8) (a : Value) :
    (pre ++ encodeValue a).drop (pre.length + 1) = (encodeValue a).tail := by
  rw [List.drop_length_add_append, List.drop_one]

theorem length_encodeValue_pos (a : Value) : 0 < (encodeValue a).length := by
  rw [length_encodeValue]
  omega

/-- The search for the next `$` starts right after the last one, so that the
answers before the last must not hold one. -/
def Spaced (answers : List Value) : Prop := ∀ a ∈ answers.dropLast, 36 ∉ (encodeValue a).tail

theorem Spaced.cons {b : Value} {answers : List Value} (h : Spaced (a :: b :: answers)) :
    36 ∉ (encodeValue a).tail ∧ Spaced (b :: answers) := by
  unfold Spaced at h ⊢
  rw [List.dropLast_cons_cons] at h
  exact List.forall_mem_cons.mp h

theorem parseAnswers_fits {answers : List Value} {idx size : ℕ} (hne : answers ≠ [])
    (hframed : ∀ a ∈ answers, Framed a) (htaken : ∀ a ∈ answers, Taken a)
    (hspaced : Spaced answers) (hpre : 2 < pre.length) (hidx : idx ≤ pre.length)
    (hd : 36 ∉ pre.drop idx) :
    parseAnswers (pre ++ (answers.flatMap encodeValue ++ post)) answers.length idx size out =
      ⟨0, some (pre ++ answers.flatMap encodeValue).length,
        out ++ [kSep].intercalate (answers.map shown)⟩ := by
  induction answers generalizing pre idx size out with
  | nil => exact absurd rfl hne
  | cons a answers ih =>
    obtain ⟨ha, hframed⟩ := List.forall_mem_cons.mp hframed
    obtain ⟨hta, htaken⟩ := List.forall_mem_cons.mp htaken
    have hcons := (parseAnswers_cons ha hpre hidx hd size answers.length
      (answers.flatMap encodeValue ++ post) out).resolve_right fun h => h.1 hta
    rw [List.flatMap_cons, List.length_cons, List.append_assoc, hcons.2]
    cases answers with
    | nil => simp [parseAnswers]
    | cons b answers =>
      have hpos := length_encodeValue_pos a
      obtain ⟨hda, hspaced⟩ := hspaced.cons
      rw [if_neg (by simp), ← List.append_assoc pre]
      rw [ih (by simp) hframed htaken hspaced (by simp; omega) (by simp; omega)]
      · simp [List.intercalate_cons_cons]
      · rwa [drop_length_encodeValue]

theorem parseAnswers_not_fits {answers : List Value} {idx size : ℕ}
    (hframed : ∀ a ∈ answers, Framed a) (hbad : ∃ a ∈ answers, ¬ Taken a)
    (hspaced : Spaced answers) (hpre : 2 < pre.length) (hidx : idx ≤ pre.length)
    (hd : 36 ∉ pre.drop idx) :
    (parseAnswers (pre ++ (answers.flatMap encodeValue ++ post)) answers.length idx size
      out).ret = -1 := by
  induction answers generalizing pre idx size out with
  | nil => simp at hbad
  | cons a answers ih =>
    obtain ⟨ha, hframed⟩ := List.forall_mem_cons.mp hframed
    rw [List.flatMap_cons, List.length_cons, List.append_assoc]
    rcases parseAnswers_cons ha hpre hidx hd size answers.length
      (answers.flatMap encodeValue ++ post) out with ⟨hta, hcons⟩ | ⟨-, hcons⟩
    · have hrest : ∃ b ∈ answers, ¬ Taken b := by
        obtain ⟨b, hb, hnot⟩ := hbad
        rcases List.mem_cons.mp hb with rfl | hb
        · exact absurd hta hnot
        · exact ⟨b, hb, hnot⟩
      rw [hcons, ← List.append_assoc pre]
      cases answers with
      | nil => simp at hrest
      | cons b answers =>
        have hpos := length_encodeValue_pos a
        obtain ⟨hda, hspaced⟩ := hspaced.cons
        refine ih hframed hrest hspaced (by simp; omega) (by simp; omega) ?_
        rwa [drop_length_encodeValue]
    · rw [hcons]

end value

theorem parseAnswers_ret_ne_zero {reply : List UInt8} {k idx : ℕ} (size : ℕ) (out : List UInt8)
    (hidx : idx ≤ reply.length) (hk : reply.length < k + idx) :
    (parseAnswers reply k idx size out).ret ≠ 0 := by
  induction k generalizing idx size out with
  | zero => omega
  | succ k ih =>
    rw [parseAnswers]
    cases hfind : find [36] reply idx with
    | none => simp
    | some d =>
      have hd := find_bound hfind
      rw [List.length_singleton] at hd
      by_cases hret : (parseReplySeg reply d out).ret = 0
      · simp only [hret, ne_eq, not_true_eq_false, ↓reduceIte]
        exact ih _ _ (by omega) (by omega)
      · simp [hret]

section after

variable {reply : List UInt8}

def Parsed.after (out : List UInt8) (p : Parsed) : Parsed := { p with out := out ++ p.out }

theorem parseReplySeg_after (start : ℕ) (out out' : List UInt8) :
    parseReplySeg reply start (out ++ out') = (parseReplySeg reply start out').after out := by
  unfold parseReplySeg Parsed.after
  split
  · rfl
  · dsimp only
    split_ifs
    · simp
    · rfl
    · split
      · rfl
      · split_ifs
        · rfl
        · simp

theorem parseAnswers_after (reply : List UInt8) (k idx size : ℕ) (out out' : List UInt8) :
    parseAnswers reply k idx size (out ++ out') =
      (parseAnswers reply k idx size out').after out := by
  induction k generalizing idx size out' with
  | zero => rfl
  | succ k ih =>
    rw [parseAnswers, parseAnswers]
    cases find [36] reply idx with
    | none => rfl
    | some d =>
      simp only [parseReplySeg_after, Parsed.after, List.append_assoc]
      by_cases hret : (parseReplySeg reply d out').ret = 0
      · have hout : (if k = 0 then out ++ (parseReplySeg reply d out').out
            else out ++ ((parseReplySeg reply d out').out ++ [kSep])) =
            out ++ if k = 0 then (parseReplySeg reply d out').out
              else (parseReplySeg reply d out').out ++ [kSep] := by
          split_ifs <;> rfl
        simp only [hret, ne_eq, not_true_eq_false, ↓reduceIte]
        rw [hout]
        exact ih _ _ _
      · simp [hret]

theorem prefix_parseAnswers_out (k idx size : ℕ) (out : List UInt8) :
    out <+: (parseAnswers reply k idx size out).out := by
  have hafter := parseAnswers_after reply k idx size out []
  rw [List.append_nil] at hafter
  rw [hafter]
  exact List.prefix_append _ _

theorem parseMultiBulk_after (idxCr : ℕ) (out : List UInt8) :
    parseMultiBulk reply idxCr out = (parseMultiBulk reply idxCr []).after out := by
  unfold parseMultiBulk
  dsimp only
  split_ifs
  · simp [Parsed.after]
  · rfl
  · simp [Parsed.after]
  · rw [List.append_assoc, parseAnswers_after]
    rfl

theorem parseBulk_after (idxCr : ℕ) (out : List UInt8) :
    parseBulk reply idxCr out = (parseBulk reply idxCr []).after out := by
  unfold parseBulk
  dsimp only
  split_ifs
  · simp [Parsed.after]
  · rfl
  · split
    · simp [Parsed.after]
    · split_ifs
      · simp [Parsed.after]
      · simp [Parsed.after]

theorem parseReply_after (reply out : List UInt8) :
    (parseReply reply out).1 = (parseReply reply []).1.after out := by
  unfold parseReply
  split
  · simp [Parsed.after]
  · split
    · simp [Parsed.after]
    · split_ifs
      · exact parseMultiBulk_after _ out
      · exact parseBulk_after _ out
      · simp [Parsed.after]
      · simp [Parsed.after]
      · simp [Parsed.after]
      · simp [Parsed.after]

end after

namespace Reply

variable {r : Reply} {out : List UInt8}

/-- The numbers in a reply are in the range of the parser's variables; it takes no empty
multi-bulk reply. -/
def Fits : Reply → Prop
  | multiBulk (some answers) =>
    0 < answers.length ∧ answers.length < 2 ^ 31 ∧ ∀ a ∈ answers, AnswerFits a
  | bulk (some v) => v.length + 2 < 2 ^ 31
  | _ => True

def decoded : Reply → List UInt8
  | multiBulk none => ascii "0"
  | multiBulk (some answers) =>
    decimal answers.length ++ [kSep] ++ [kSep].intercalate (answers.map shown)
  | bulk none => ascii "0"
  | bulk (some v) => ascii "1" ++ [kSep] ++ v
  | integer text => ascii "1" ++ [kSep] ++ text
  | status _ => ascii "0"
  | error _ => ascii "__null"

theorem cr_not_mem_countLine (answers : Option (List Value)) : 13 ∉ (multiBulk answers).line := by
  cases answers with
  | none => decide
  | some answers =>
    exact List.not_mem_cons_of_ne_of_not_mem (by decide) (plain_decimal _).not_mem_cr

theorem cr_not_mem_line (hw : r.WellFormed) : 13 ∉ r.line := by
  cases r with
  | multiBulk answers => exact cr_not_mem_countLine answers
  | bulk value => exact cr_not_mem_valueLine value
  | integer text => exact List.not_mem_cons_of_ne_of_not_mem (by decide) (Plain.not_mem_cr hw)
  | status text => exact List.not_mem_cons_of_ne_of_not_mem (by decide) (Plain.not_mem_cr hw)
  | error text => exact List.not_mem_cons_of_ne_of_not_mem (by decide) (Plain.not_mem_cr hw)

theorem find_line (hw : r.WellFormed) (rest : List UInt8) :
    find crlf (r.line ++ (crlf ++ rest)) 0 = some r.line.length :=
  find_crlf (Nat.zero_le _) (noCrlf_of_not_mem (cr_not_mem_line hw)) rest

theorem parseReply_cons {b : UInt8} {bs : List UInt8} {idxCr : ℕ}
    (hfind : find crlf (b :: bs) 0 = some idxCr) (out : List UInt8) :
    (parseReply (b :: bs) out).1 =
      if b = 42 then parseMultiBulk (b :: bs) idxCr out
      else if b = 36 then parseBulk (b :: bs) idxCr out
      else if b = 58 then
        ⟨0, some (idxCr + 2), out ++ ascii "1" ++ [kSep] ++ bs.take (idxCr - 1)⟩
      else if b = 43 then ⟨0, some (idxCr + 2), out ++ ascii "0"⟩
      else if b = 45 then ⟨0, some (idxCr + 2), out ++ ascii "__null"⟩
      else ⟨-1, none, out⟩ := by
  simp only [parseReply, hfind]
  split_ifs <;> rfl

theorem parseReply_multiBulk (answers : Option (List Value)) (rest out : List UInt8) :
    (parseReply ((multiBulk answers).line ++ (crlf ++ rest)) out).1 =
      parseMultiBulk ((multiBulk answers).line ++ (crlf ++ rest)) (multiBulk answers).line.length
        out := by
  have hfind := find_crlf (Nat.zero_le _) (noCrlf_of_not_mem (cr_not_mem_countLine answers)) rest
  cases answers with
  | none => exact (parseReply_cons hfind out).trans (if_pos rfl)
  | some answers => exact (parseReply_cons hfind out).trans (if_pos rfl)

theorem parseReply_bulk (value : Value) (rest out : List UInt8) :
    (parseReply ((bulk value).line ++ (crlf ++ rest)) out).1 =
      parseBulk ((bulk value).line ++ (crlf ++ rest)) (bulk value).line.length out := by
  have hfind := find_crlf (Nat.zero_le _) (noCrlf_of_not_mem (cr_not_mem_valueLine value)) rest
  have hne : ¬ (36 : UInt8) = 42 := by decide
  cases value with
  | none => exact (parseReply_cons hfind out).trans ((if_neg hne).trans (if_pos rfl))
  | some v => exact (parseReply_cons hfind out).trans ((if_neg hne).trans (if_pos rfl))

theorem strtol_nullLine (rest : List UInt8) :
    strtol (ascii "-1" ++ (crlf ++ rest)) = (-1, 2) := strtol_null _

theorem strtol_line (n : ℕ) (rest : List UInt8) :
    strtol (decimal n ++ (crlf ++ rest)) = (min longMax n, (decimal n).length) :=
  strtol_decimal _ _

theorem parseBulk_null (rest out : List UInt8) :
    parseBulk ((bulk none).line ++ (crlf ++ rest)) (bulk none).line.length out =
      ⟨0, some ((bulk none).line.length + 2), out ++ ascii "0"⟩ := by
  have hdrop : ((bulk none).line ++ (crlf ++ rest)).drop 1 = ascii "-1" ++ (crlf ++ rest) := rfl
  simp only [parseBulk, hdrop, strtol_nullLine]
  simp [longMax, longMin]

theorem parseMultiBulk_null (rest out : List UInt8) :
    parseMultiBulk ((multiBulk none).line ++ (crlf ++ rest)) (multiBulk none).line.length out =
      ⟨0, some ((multiBulk none).line.length + 2), out ++ ascii "0"⟩ := by
  have hdrop : ((multiBulk none).line ++ (crlf ++ rest)).drop 1 = ascii "-1" ++ (crlf ++ rest) :=
    rfl
  simp only [parseMultiBulk, hdrop, strtol_nullLine]
  simp [longMax, longMin]

theorem substr_natCast (s : List UInt8) (pos n : ℕ) : substr s pos n = (s.drop pos).take n := by
  rw [substr, if_neg (by omega), Int.toNat_natCast]

theorem parseBulk_some (v rest out : List UInt8) :
    parseBulk ((bulk (some v)).line ++ (crlf ++ rest)) (bulk (some v)).line.length out =
      if min longMax (v.length : ℤ) = longMax then ⟨-1, none, out⟩
      else
        match find crlf ((bulk (some v)).line ++ (crlf ++ rest))
          ((bulk (some v)).line.length + 1) with
        | none => ⟨1, none, out⟩
        | some idx =>
          if Word.narrow ((idx : ℤ) - (bulk (some v)).line.length) ≠ 2 + v.length then
            ⟨-1, none, out⟩
          else ⟨0, some (idx + 2), out ++ ascii "1" ++ [kSep] ++ rest.take v.length⟩ := by
  have hdrop : ((bulk (some v)).line ++ (crlf ++ rest)).drop 1 =
      decimal v.length ++ (crlf ++ rest) := rfl
  have hpos : (decimal v.length).length ≠ 0 := by simp [decimal_ne_nil]
  have hbody : ((bulk (some v)).line ++ (crlf ++ rest)).drop ((bulk (some v)).line.length + 2) =
      rest := by
    rw [List.drop_length_add_append]
    rfl
  simp only [parseBulk, hdrop, strtol_line, hpos, min_longMax_ne_longMin, min_longMax_ne_null,
    or_false, ↓reduceIte]
  split_ifs with hmax
  · rfl
  · cases find crlf ((bulk (some v)).line ++ (crlf ++ rest))
      ((bulk (some v)).line.length + 1) with
    | none => rfl
    | some idx => simp only [min_longMax_of_ne hmax, substr_natCast, hbody]

theorem find_bulkEnd {v : List UInt8} (hv : NoCrlf v) (post : List UInt8) :
    find crlf ((bulk (some v)).encode ++ post) ((bulk (some v)).line.length + 1) =
      some ((bulk (some v)).line.length + 2 + v.length) := by
  have h := find_valueEnd hv [] post
  simpa [encode, body, line, encodeValue] using h

theorem parseBulk_encode {v : List UInt8} (hv : NoCrlf v) (post out : List UInt8) :
    parseBulk ((bulk (some v)).encode ++ post) (bulk (some v)).line.length out =
      if v.length + 2 < 2 ^ 31 then
        ⟨0, some (bulk (some v)).encode.length, out ++ (bulk (some v)).decoded⟩
      else ⟨-1, none, out⟩ := by
  have hdiff : (((bulk (some v)).line.length + 2 + v.length : ℕ) : ℤ) -
      (bulk (some v)).line.length = (v.length + 2 : ℕ) := by
    push_cast
    omega
  have hsum : (2 : ℤ) + v.length = (v.length + 2 : ℕ) := by
    push_cast
    omega
  have hbulk := parseBulk_some v (v ++ (crlf ++ post)) out
  have hsplit : (bulk (some v)).line ++ (crlf ++ (v ++ (crlf ++ post))) =
      (bulk (some v)).encode ++ post := by
    simp [encode, body, valueBody]
  rw [hsplit, find_bulkEnd hv] at hbulk
  simp only [hdiff, hsum, List.take_left, ne_eq, Word.narrow_natCast_eq_iff] at hbulk
  rw [hbulk]
  by_cases hlt : v.length + 2 < 2 ^ 31
  · have hmax : min longMax (v.length : ℤ) ≠ longMax := min_longMax_ne (by omega)
    have hsize : (bulk (some v)).line.length + 2 + v.length + 2 =
        (bulk (some v)).encode.length := by
      simp [encode, body, valueBody, crlf]
      omega
    rw [if_neg hmax, if_neg (not_not.mpr hlt), if_pos hlt, hsize]
    simp [decoded]
  · rw [if_pos hlt, if_neg hlt, ite_self]

theorem parseMultiBulk_some {answers : List Value} (hpos : 0 < answers.length)
    (rest out : List UInt8) :
    parseMultiBulk ((multiBulk (some answers)).line ++ (crlf ++ rest))
        (multiBulk (some answers)).line.length out =
      if min longMax (answers.length : ℤ) = longMax then ⟨-1, none, out⟩
      else parseAnswers ((multiBulk (some answers)).line ++ (crlf ++ rest))
        (rounds ((multiBulk (some answers)).line ++ (crlf ++ rest)) answers.length) 0 0
        (out ++ decimal answers.length ++ [kSep]) := by
  have hdrop : ((multiBulk (some answers)).line ++ (crlf ++ rest)).drop 1 =
      decimal answers.length ++ (crlf ++ rest) := rfl
  have hdigits : (decimal answers.length).length ≠ 0 := by simp [decimal_ne_nil]
  have hmin : 0 < min longMax (answers.length : ℤ) :=
    lt_min (by decide) (by exact_mod_cast hpos)
  simp only [parseMultiBulk, hdrop, strtol_line, hdigits, min_longMax_ne_longMin,
    min_longMax_ne_null, or_false, ↓reduceIte, not_le.mpr hmin]
  split_ifs with hmax
  · rfl
  · rw [min_longMax_of_ne hmax, Int.toNat_natCast]

theorem parseMultiBulk_empty (rest out : List UInt8) :
    (parseMultiBulk ((multiBulk (some [])).line ++ (crlf ++ rest))
      (multiBulk (some [])).line.length out).ret = -1 := by
  have hdrop : ((multiBulk (some [])).line ++ (crlf ++ rest)).drop 1 =
      decimal 0 ++ (crlf ++ rest) := rfl
  simp only [parseMultiBulk, hdrop, strtol_line]
  simp [longMax]

theorem parseMultiBulk_rounds {answers : List Value} (hpos : 0 < answers.length)
    (hlt : answers.length < 2 ^ 31) (post out : List UInt8) :
    parseMultiBulk ((multiBulk (some answers)).encode ++ post)
        (multiBulk (some answers)).line.length out =
      parseAnswers ((multiBulk (some answers)).line ++ crlf ++
          (answers.flatMap encodeValue ++ post))
        answers.length 0 0 (out ++ decimal answers.length ++ [kSep]) := by
  have hmulti := parseMultiBulk_some hpos (answers.flatMap encodeValue ++ post) out
  rw [if_neg (min_longMax_ne hlt), rounds, if_pos (by exact_mod_cast hlt), Int.toNat_natCast]
    at hmulti
  rw [encode, body, List.append_assoc, List.append_assoc, hmulti, List.append_assoc _ crlf]

theorem dollar_not_mem_line (answers : List Value) :
    36 ∉ ((multiBulk (some answers)).line ++ crlf).drop 0 := by
  simp [line, crlf, (plain_decimal answers.length).not_mem_dollar]

theorem length_line_crlf (answers : List Value) :
    2 < ((multiBulk (some answers)).line ++ crlf).length := by
  simp [line, crlf]

theorem parseMultiBulk_fits {answers : List Value} (hframed : ∀ a ∈ answers, Framed a)
    (hspaced : Spaced answers) (htaken : ∀ a ∈ answers, Taken a) (hpos : 0 < answers.length)
    (hlt : answers.length < 2 ^ 31) (post out : List UInt8) :
    parseMultiBulk ((multiBulk (some answers)).encode ++ post)
        (multiBulk (some answers)).line.length out =
      ⟨0, some (multiBulk (some answers)).encode.length,
        out ++ (multiBulk (some answers)).decoded⟩ := by
  rw [parseMultiBulk_rounds hpos hlt, parseAnswers_fits (List.length_pos_iff.mp hpos) hframed
    htaken hspaced (length_line_crlf answers) (Nat.zero_le _) (dollar_not_mem_line answers)]
  simp [encode, decoded, body]

theorem parseReply_encode (hw : r.WellFormed) (hfits : r.Fits) (out : List UInt8) :
    (parseReply r.encode out).1 = ⟨0, some r.encode.length, out ++ r.decoded⟩ := by
  cases r with
  | multiBulk answers =>
    refine (parseReply_multiBulk _ _ out).trans ?_
    cases answers with
    | none => exact parseMultiBulk_null [] out
    | some answers =>
      obtain ⟨hpos, hlt, hall⟩ := hfits
      have hok := hw answers rfl
      have hmulti := parseMultiBulk_fits (fun a ha => (hok a ha).framed) (spaced_of_ok hok)
        (fun a ha => (hok a ha).taken_iff.mpr (hall a ha)) hpos hlt [] out
      rwa [List.append_nil] at hmulti
  | bulk value =>
    refine (parseReply_bulk _ _ out).trans ?_
    cases value with
    | none => exact parseBulk_null [] out
    | some v =>
      have hbulk := parseBulk_encode (hw v rfl).noCrlf [] out
      rw [List.append_nil] at hbulk
      exact hbulk.trans (if_pos hfits)
  | integer text =>
    refine (parseReply_cons (find_line hw []) out).trans ?_
    simp [encode, body, line, decoded, crlf]
  | status text =>
    refine (parseReply_cons (find_line hw []) out).trans ?_
    simp [encode, body, line, decoded, crlf]
  | error text =>
    refine (parseReply_cons (find_line hw []) out).trans ?_
    simp [encode, body, line, decoded, crlf]

theorem parseMultiBulk_not_fits {answers : List Value} (hok : ∀ a ∈ answers, AnswerOk a)
    (hfits : ¬ (multiBulk (some answers)).Fits) (out : List UInt8) :
    (parseMultiBulk (multiBulk (some answers)).encode (multiBulk (some answers)).line.length
      out).ret ≠ 0 := by
  rcases answers.length.eq_zero_or_pos with hzero | hpos
  · obtain rfl := List.length_eq_zero_iff.mp hzero
    rw [encode, parseMultiBulk_empty]
    decide
  by_cases hlt : answers.length < 2 ^ 31
  · have hbad : ∃ a ∈ answers, ¬ Taken a := by
      by_contra! hall
      exact hfits ⟨hpos, hlt, fun a ha => (hok a ha).taken_iff.mp (hall a ha)⟩
    have hrounds := parseMultiBulk_rounds hpos hlt [] out
    rw [List.append_nil] at hrounds
    rw [hrounds, parseAnswers_not_fits (fun a ha => (hok a ha).framed) hbad (spaced_of_ok hok)
      (length_line_crlf answers) (Nat.zero_le _) (dollar_not_mem_line answers)]
    decide
  · have hrounds : ¬ (answers.length : ℤ) < 2 ^ 31 := by exact_mod_cast hlt
    have hmulti := parseMultiBulk_some hpos (answers.flatMap encodeValue) out
    rw [encode]
    refine hmulti ▸ ?_
    split_ifs with hmax
    · simp
    · rw [rounds, if_neg hrounds]
      exact parseAnswers_ret_ne_zero _ _ (Nat.zero_le _) (by omega)

theorem parseReply_not_fits (hw : r.WellFormed) (hfits : ¬ r.Fits) (out : List UInt8) :
    (parseReply r.encode out).1.ret ≠ 0 := by
  cases r with
  | multiBulk answers =>
    cases answers with
    | none => exact absurd trivial hfits
    | some answers =>
      rw [encode, parseReply_multiBulk, ← encode]
      exact parseMultiBulk_not_fits (hw answers rfl) hfits out
  | bulk value =>
    cases value with
    | none => exact absurd trivial hfits
    | some v =>
      have hlong : ¬ v.length + 2 < 2 ^ 31 := hfits
      have hbulk := parseBulk_encode (hw v rfl).noCrlf [] out
      rw [List.append_nil, if_neg hlong] at hbulk
      rw [encode, parseReply_bulk, ← encode, hbulk]
      simp
  | integer text => exact absurd trivial hfits
  | status text => exact absurd trivial hfits
  | error text => exact absurd trivial hfits

theorem parseReply_ret_iff (hw : r.WellFormed) (out : List UInt8) :
    (parseReply r.encode out).1.ret = 0 ↔ r.Fits := by
  constructor
  · intro hret
    by_contra hfits
    exact parseReply_not_fits hw hfits out hret
  · intro hfits
    rw [parseReply_encode hw hfits]

theorem dropLast_prefix_of_lt {p l rest : List UInt8} (hp : p <+: l ++ rest)
    (hlen : p.length < l.length + 2) : p.dropLast <+: l := by
  refine List.prefix_of_prefix_length_le ((List.dropLast_prefix p).trans hp)
    (List.prefix_append l rest) ?_
  rw [List.length_dropLast]
  omega

theorem parseReply_short (hw : r.WellFormed) {p : List UInt8} (hne : p ≠ [])
    (hp : p <+: r.encode) (hlen : p.length < r.line.length + 2) (out : List UInt8) :
    (parseReply p out).1 = ⟨1, none, out⟩ := by
  have hline : p.dropLast <+: r.line := dropLast_prefix_of_lt hp hlen
  have hfind : find crlf p 0 = none :=
    find_crlf_eq_none fun hmem => cr_not_mem_line hw (hline.subset (by simpa using hmem))
  cases p with
  | nil => exact absurd rfl hne
  | cons b p => simp only [parseReply, hfind]

theorem parseReply_bulk_short {v : List UInt8} (hw : (bulk (some v)).WellFormed)
    (hfits : (bulk (some v)).Fits) {q : List UInt8} (hq : q <+: v ++ crlf)
    (hlen : q.length < v.length + 2) (out : List UInt8) :
    (parseReply ((bulk (some v)).line ++ (crlf ++ q)) out).1 = ⟨1, none, out⟩ := by
  have hlt : v.length + 2 < 2 ^ 31 := hfits
  have hmax : min longMax (v.length : ℤ) ≠ longMax := min_longMax_ne (by omega)
  have hvalue : q.dropLast <+: v := dropLast_prefix_of_lt hq hlen
  have hfind : find crlf ((bulk (some v)).line ++ (crlf ++ q))
      ((bulk (some v)).line.length + 1) = none := by
    apply find_crlf_eq_none
    rw [List.drop_length_add_append]
    intro hmem
    have hcons : 13 ∈ (10 :: q).dropLast := hmem
    cases q with
    | nil => simp at hcons
    | cons b q =>
      rw [List.dropLast_cons_cons] at hcons
      have hmem := (List.mem_cons.mp hcons).resolve_left (by decide)
      exact (hw v rfl).not_mem_cr (hvalue.subset hmem)
  rw [parseReply_bulk, parseBulk_some, if_neg hmax, hfind]

theorem parseReply_multiBulk_out {answers : List Value} (hfits : (multiBulk (some answers)).Fits)
    (q : List UInt8) :
    (parseReply ((multiBulk (some answers)).line ++ (crlf ++ q)) []).1.out ≠ [] := by
  obtain ⟨hpos, hlt, -⟩ := hfits
  have hmax := min_longMax_ne hlt
  rw [parseReply_multiBulk, parseMultiBulk_some hpos, if_neg hmax]
  intro hout
  have hnil := List.prefix_nil.mp (hout ▸ prefix_parseAnswers_out _ _ _ _)
  simp at hnil

end Reply

end Magneto.RedisParser
