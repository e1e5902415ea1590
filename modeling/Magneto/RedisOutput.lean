import Magneto.RedisPrefix

/-!
# What a multi-bulk reply leaves in the output

`ParseReply` writes the number of the elements and then each element behind a
separator. It writes the null element as a text of its own, and it stops at an
element whose length does not fit an `int`. What was written so far stays in the
output.
-/

namespace Magneto.RedisParser

open Reply

def ElementOk (a : Value) : Prop :=
  ∀ v, a = some v → v ≠ [] ∧ ∀ b ∈ v, b ≠ kSep ∧ b ≠ 13 ∧ b ≠ 10 ∧ b ≠ 36

instance decidableElementOk : ∀ a, Decidable (ElementOk a)
  | none => isTrue fun v hv => by cases hv
  | some v =>
    haveI : Decidable (∀ b ∈ v, b ≠ kSep ∧ b ≠ 13 ∧ b ≠ 10 ∧ b ≠ 36) := List.decidableBAll _ v
    decidable_of_iff (v ≠ [] ∧ ∀ b ∈ v, b ≠ kSep ∧ b ≠ 13 ∧ b ≠ 10 ∧ b ≠ 36)
      ⟨fun h w hw => Option.some.inj hw ▸ h, fun h => h v rfl⟩

/-- The length of the element fits the `int` to which the parser converts it. -/
def short (a : Value) : Bool := (a.getD []).length < 2 ^ 31

def written (l : List Value) : List (List UInt8) := (l.takeWhile short).map shown

section element

variable {a : Value}

theorem ElementOk.framed (h : ElementOk a) : Framed a := fun v hv =>
  noCrlf_of_not_mem fun hmem => ((h v hv).2 13 hmem).2.1 rfl

theorem ElementOk.dollar_not_mem_tail (h : ElementOk a) : 36 ∉ (encodeValue a).tail := by
  cases a with
  | none => decide
  | some v =>
    have hv : 36 ∉ v := fun hmem => ((h v rfl).2 36 hmem).2.2.2 rfl
    have hn := (plain_decimal v.length).not_mem_dollar
    simp [encodeValue, valueLine, valueBody, crlf, hv, hn]

theorem ElementOk.taken_iff (h : ElementOk a) : Taken a ↔ short a = true := by
  cases a with
  | none => simp [Taken, AnswerFits, short]
  | some v =>
    have hne := (h v rfl).1
    simp [Taken, AnswerFits, short, hne]

theorem ElementOk.shown (h : ElementOk a) : shown a ≠ [] ∧ kSep ∉ shown a := by
  cases a with
  | none => decide
  | some v => exact ⟨(h v rfl).1, fun hmem => ((h v rfl).2 kSep hmem).1 rfl⟩

end element

theorem find_dollar_none {reply : List UInt8} {idx : ℕ} (h : 36 ∉ reply.drop idx) :
    find [36] reply idx = none := by
  cases hfind : find [36] reply idx with
  | none => rfl
  | some k =>
    obtain ⟨hle, hat, -⟩ := (find_eq_some_iff (List.cons_ne_nil _ _)).mp hfind
    obtain ⟨rest, hrest⟩ := hat
    refine absurd ?_ h
    have hdrop : reply.drop k <:+ reply.drop idx := by
      obtain ⟨d, rfl⟩ := Nat.le.dest hle
      rw [← List.drop_drop]
      exact List.drop_suffix _ _
    exact hdrop.subset (hrest ▸ List.mem_cons_self)

/-- What the loop over the answers leaves in the output, where `k` rounds are left. -/
def valuePieces (k : ℕ) (l : List Value) : List (List UInt8) :=
  written l ++ if (written l).length = k then [] else [[]]

theorem written_length_le (l : List Value) : (written l).length ≤ l.length := by
  rw [written, List.length_map]
  exact (List.takeWhile_sublist _).length_le

theorem valuePieces_ne_nil {k : ℕ} (hk : k ≠ 0) (l : List Value) : valuePieces k l ≠ [] := by
  unfold valuePieces
  intro hnil
  obtain ⟨hnil, htail⟩ := List.append_eq_nil_iff.mp hnil
  rw [hnil, List.length_nil, if_neg (Ne.symm hk)] at htail
  cases htail

theorem parseAnswers_valuePieces {pre : List UInt8} {l : List Value} {k idx size : ℕ}
    (hok : ∀ a ∈ l, ElementOk a) (hk : l.length ≤ k) (hpre : 2 < pre.length)
    (hidx : idx ≤ pre.length) (hd : 36 ∉ pre.drop idx) (out : List UInt8) :
    (parseAnswers (pre ++ l.flatMap encodeValue) k idx size out).out =
      out ++ [kSep].intercalate (valuePieces k l) := by
  induction l generalizing pre k idx size out with
  | nil =>
    cases k with
    | zero => simp [parseAnswers, valuePieces, written]
    | succ k =>
      have hnone : find [36] pre idx = none := find_dollar_none hd
      simp [parseAnswers, hnone, valuePieces, written]
  | cons a l ih =>
    obtain ⟨ha, hok⟩ := List.forall_mem_cons.mp hok
    rw [List.length_cons] at hk
    obtain ⟨k, rfl⟩ : ∃ m, k = m + 1 := ⟨k - 1, by omega⟩
    have hle := written_length_le l
    rw [List.flatMap_cons]
    rcases parseAnswers_cons ha.framed hpre hidx hd size k (l.flatMap encodeValue) out with
      ⟨htaken, hcons⟩ | ⟨htaken, hcons⟩
    · have hshort := ha.taken_iff.mp htaken
      have hwritten : written (a :: l) = shown a :: written l := by
        rw [written, List.takeWhile_cons_of_pos hshort, List.map_cons, written]
      have hpieces : valuePieces (k + 1) (a :: l) = shown a :: valuePieces k l := by
        simp only [valuePieces, hwritten, List.length_cons, Nat.add_right_cancel_iff,
          List.cons_append]
      rw [hcons, hpieces, ← List.append_assoc pre]
      rw [ih hok (by omega) (by rw [List.length_append]; omega)
        (by have := length_encodeValue_pos a; rw [List.length_append]; omega)
        (drop_length_encodeValue pre a ▸ ha.dollar_not_mem_tail)]
      by_cases hzero : k = 0
      · have hnil : valuePieces k l = [] := by
          subst hzero
          obtain rfl : l = [] := List.length_eq_zero_iff.mp (by omega)
          rfl
        rw [if_pos hzero, hnil, List.intercalate_nil, List.append_nil, List.intercalate_singleton]
      · rw [if_neg hzero, List.intercalate_cons_of_ne_nil (valuePieces_ne_nil hzero l)]
        simp
    · have hshort : ¬short a = true := fun h => htaken (ha.taken_iff.mpr h)
      have hwritten : written (a :: l) = [] := by
        rw [written, List.takeWhile_cons_of_neg hshort, List.map_nil]
      rw [hcons, valuePieces, hwritten]
      simp

theorem valuePieces_of_lt {l : List Value} {k : ℕ} (h : l.length < k) :
    valuePieces k l = valuePieces (l.length + 1) l := by
  have hle := written_length_le l
  rw [valuePieces, valuePieces, if_neg (by omega), if_neg (by omega)]

def outputPieces (l : List Value) : List (List UInt8) :=
  decimal l.length :: valuePieces (if l.length < 2 ^ 31 then l.length else l.length + 1) l

theorem valuePieces_rounds {l : List Value} {reply : List UInt8} (h : l.length ≤ reply.length) :
    l.length ≤ rounds reply l.length ∧ valuePieces (rounds reply l.length) l =
      valuePieces (if l.length < 2 ^ 31 then l.length else l.length + 1) l := by
  unfold rounds
  by_cases hlt : l.length < 2 ^ 31
  · have hcast : (l.length : ℤ) < 2 ^ 31 := by exact_mod_cast hlt
    rw [if_pos hlt, if_pos hcast, Int.toNat_natCast]
    exact ⟨le_rfl, rfl⟩
  · have hcast : ¬(l.length : ℤ) < 2 ^ 31 := by exact_mod_cast hlt
    rw [if_neg hlt, if_neg hcast]
    exact ⟨by omega, valuePieces_of_lt (by omega)⟩

theorem parseReply_output {l : List Value} (hne : l ≠ []) (hok : ∀ a ∈ l, ElementOk a)
    (hlen : (multiBulk (some l)).encode.length < 2 ^ 63) (out : List UInt8) :
    (parseReply (multiBulk (some l)).encode out).1.out =
      out ++ [kSep].intercalate (outputPieces l) := by
  have hpos := List.length_pos_iff.mpr hne
  have hcount : l.length ≤ (l.flatMap encodeValue).length := length_le_encode
  have hline := length_line_crlf l
  rw [encode, body, ← List.append_assoc, List.length_append] at hlen
  have hmax : min longMax (l.length : ℤ) ≠ longMax := by
    unfold longMax
    omega
  have hmulti := parseMultiBulk_some hpos (l.flatMap encodeValue) out
  rw [if_neg hmax] at hmulti
  have hreply : l.length ≤
      ((multiBulk (some l)).line ++ crlf ++ l.flatMap encodeValue).length := by
    rw [List.length_append]
    omega
  obtain ⟨hrounds, hpieces⟩ := valuePieces_rounds hreply
  have hnil := valuePieces_ne_nil
    (k := if l.length < 2 ^ 31 then l.length else l.length + 1) (by split_ifs <;> omega) l
  rw [encode, parseReply_multiBulk, body, hmulti, ← List.append_assoc,
    parseAnswers_valuePieces hok hrounds hline (Nat.zero_le _) (dollar_not_mem_line l), hpieces,
    outputPieces, List.intercalate_cons_of_ne_nil hnil]
  simp

theorem valuePieces_inj {k : ℕ} {l₁ l₂ : List Value} (h₁ : [] ∉ written l₁) (h₂ : [] ∉ written l₂)
    (h : valuePieces k l₁ = valuePieces k l₂) : written l₁ = written l₂ := by
  unfold valuePieces at h
  split_ifs at h
  · simpa using h
  · rw [List.append_nil] at h
    exact absurd (h ▸ List.mem_append_right _ (List.mem_singleton_self [])) h₁
  · rw [List.append_nil] at h
    exact absurd (h ▸ List.mem_append_right _ (List.mem_singleton_self [])) h₂
  · exact List.append_cancel_right h

theorem sep_not_mem_decimal (n : ℕ) : kSep ∉ decimal n := fun hmem =>
  ne_of_isDigit (isDigit_of_mem_decimal hmem) (by decide) rfl

theorem written_ok {l : List Value} (hok : ∀ a ∈ l, ElementOk a) :
    ∀ w ∈ written l, w ≠ [] ∧ kSep ∉ w := by
  intro w hw
  obtain ⟨a, ha, rfl⟩ := List.mem_map.mp hw
  exact (hok a ((List.takeWhile_sublist _).subset ha)).shown

theorem sep_not_mem_outputPieces {l : List Value} (hok : ∀ a ∈ l, ElementOk a) :
    ∀ w ∈ outputPieces l, kSep ∉ w := by
  have hpieces : ∀ k, ∀ w ∈ valuePieces k l, kSep ∉ w := by
    intro k w hw
    rcases List.mem_append.mp hw with hw | hw
    · exact (written_ok hok w hw).2
    · split_ifs at hw
      · cases hw
      · rw [List.mem_singleton.mp hw]
        exact List.not_mem_nil
  exact List.forall_mem_cons.mpr ⟨sep_not_mem_decimal _, hpieces _⟩

/-- Two multi-bulk replies leave the same output exactly when they have the same number
of elements and agree on the elements before the first one that is too long, where a
null element counts as the text that is written for it. -/
theorem parseReply_output_iff_written (l₁ l₂ : List Value) (hne₁ : l₁ ≠ []) (hne₂ : l₂ ≠ [])
    (hok₁ : ∀ a ∈ l₁, ElementOk a) (hok₂ : ∀ a ∈ l₂, ElementOk a)
    (hlen₁ : (multiBulk (some l₁)).encode.length < 2 ^ 63)
    (hlen₂ : (multiBulk (some l₂)).encode.length < 2 ^ 63) (out : List UInt8) :
    (parseReply (multiBulk (some l₁)).encode out).1.out =
        (parseReply (multiBulk (some l₂)).encode out).1.out ↔
      l₁.length = l₂.length ∧ written l₁ = written l₂ := by
  rw [parseReply_output hne₁ hok₁ hlen₁, parseReply_output hne₂ hok₂ hlen₂,
    List.append_cancel_left_eq]
  constructor
  · intro h
    have hsplit := congrArg (List.splitOn kSep) h
    rw [List.splitOn_intercalate _ (sep_not_mem_outputPieces hok₁) (List.cons_ne_nil _ _),
      List.splitOn_intercalate _ (sep_not_mem_outputPieces hok₂) (List.cons_ne_nil _ _)] at hsplit
    obtain ⟨hdecimal, hpieces⟩ := List.cons.inj hsplit
    have hvalue := congrArg digitsValue hdecimal
    rw [digitsValue_decimal, digitsValue_decimal] at hvalue
    rw [hvalue] at hpieces
    exact ⟨hvalue, valuePieces_inj (fun hmem => (written_ok hok₁ _ hmem).1 rfl)
      (fun hmem => (written_ok hok₂ _ hmem).1 rfl) hpieces⟩
  · rintro ⟨hlength, hwritten⟩
    rw [outputPieces, outputPieces, valuePieces, valuePieces, hlength, hwritten]

theorem written_of_short {l : List Value} (h : ∀ a ∈ l, short a = true) :
    written l = l.map shown := by
  rw [written, List.takeWhile_eq_self_iff.mpr h]

/-- Two multi-bulk replies whose elements fit the parser leave the same output exactly when they
agree, a null element being the text that is written for it. -/
theorem parseReply_output_iff (l₁ l₂ : List Value) (hne₁ : l₁ ≠ []) (hne₂ : l₂ ≠ [])
    (hok₁ : ∀ a ∈ l₁, ElementOk a) (hok₂ : ∀ a ∈ l₂, ElementOk a)
    (hshort₁ : ∀ a ∈ l₁, short a = true) (hshort₂ : ∀ a ∈ l₂, short a = true)
    (hlen₁ : (multiBulk (some l₁)).encode.length < 2 ^ 63)
    (hlen₂ : (multiBulk (some l₂)).encode.length < 2 ^ 63) (out : List UInt8) :
    (parseReply (multiBulk (some l₁)).encode out).1.out =
        (parseReply (multiBulk (some l₂)).encode out).1.out ↔
      l₁.map shown = l₂.map shown := by
  rw [parseReply_output_iff_written l₁ l₂ hne₁ hne₂ hok₁ hok₂ hlen₁ hlen₂ out,
    written_of_short hshort₁, written_of_short hshort₂, and_iff_right_iff_imp]
  intro h
  simpa using congrArg List.length h

theorem parseReply_output_iff_null :
    (parseReply (multiBulk (some [none, some (ascii "a")])).encode []).1.out =
      (parseReply (multiBulk (some [some (ascii "__null"), some (ascii "a")])).encode []).1.out :=
  (parseReply_output_iff [none, some (ascii "a")] [some (ascii "__null"), some (ascii "a")]
    (by decide) (by decide) (by decide) (by decide) (by decide) (by decide) (by decide) (by decide)
    []).mpr (by decide)

theorem elementOk_replicate {n : ℕ} (hn : n ≠ 0) {b : UInt8}
    (hb : b ≠ kSep ∧ b ≠ 13 ∧ b ≠ 10 ∧ b ≠ 36) : ElementOk (some (List.replicate n b)) := by
  intro v hv
  obtain rfl := Option.some.inj hv
  refine ⟨fun hnil => hn (List.replicate_eq_nil_iff b |>.mp hnil), fun x hx => ?_⟩
  rw [List.eq_of_mem_replicate hx]
  exact hb

theorem replicate_ne {n : ℕ} (hn : n ≠ 0) {b c : UInt8} (hbc : b ≠ c) :
    List.replicate n b ≠ List.replicate n c := by
  intro h
  have hmem : b ∈ List.replicate n b := List.mem_replicate.mpr ⟨hn, rfl⟩
  exact hbc (List.eq_of_mem_replicate (h ▸ hmem))

theorem parseReply_output_long {n : ℕ} (hn : 2 ^ 31 ≤ n) (hn' : n < 2 ^ 32) {b : UInt8}
    (hb : b ≠ kSep ∧ b ≠ 13 ∧ b ≠ 10 ∧ b ≠ 36) (out : List UInt8) :
    (parseReply (multiBulk (some [some (List.replicate n b)])).encode out).1.out =
      out ++ [kSep].intercalate [decimal 1, []] := by
  have hok : ∀ a ∈ [some (List.replicate n b)], ElementOk a :=
    List.forall_mem_singleton.mpr (elementOk_replicate (by omega) hb)
  have hlong : ¬short (some (List.replicate n b)) = true := by simp [short]; omega
  have hwritten : written [some (List.replicate n b)] = [] := by
    rw [written, List.takeWhile_cons_of_neg hlong, List.map_nil]
  have hdigits : (decimal n).length ≤ 10 := by
    rw [decimal, List.length_map, Nat.length_toDigits_le_iff (by decide) (by decide)]
    exact hn'.trans (by decide)
  have hlen : (multiBulk (some [some (List.replicate n b)])).encode.length < 2 ^ 63 := by
    have hone : (decimal 1).length = 1 := rfl
    simp only [encode, line, body, encodeValue, valueLine, valueBody, List.flatMap_singleton,
      List.length_append, List.length_cons, List.length_nil, List.length_replicate, length_crlf,
      hone]
    omega
  rw [parseReply_output (List.cons_ne_nil _ _) hok hlen, outputPieces, valuePieces, hwritten]
  rfl

/-- Elements that differ and leave the same output: a null element and its text, and two
elements that are too long. -/
theorem parseReply_output_collides :
    (ElementOk none ∧ ElementOk (some (ascii "__null")) ∧
        (parseReply (multiBulk (some [none])).encode []).1.out =
          (parseReply (multiBulk (some [some (ascii "__null")])).encode []).1.out) ∧
      ElementOk (some (List.replicate (2 ^ 31) 97)) ∧
      ElementOk (some (List.replicate (2 ^ 31) 98)) ∧
      (List.replicate (2 ^ 31) 97 : List UInt8) ≠ List.replicate (2 ^ 31) 98 ∧
      (parseReply (multiBulk (some [some (List.replicate (2 ^ 31) 97)])).encode []).1.out =
        (parseReply (multiBulk (some [some (List.replicate (2 ^ 31) 98)])).encode []).1.out := by
  have hpos : (2 ^ 31 : ℕ) ≠ 0 := by norm_num
  refine ⟨⟨by decide, by decide, by decide⟩, elementOk_replicate hpos (by decide),
    elementOk_replicate hpos (by decide), replicate_ne hpos (by decide), ?_⟩
  rw [parseReply_output_long le_rfl (by norm_num) (by decide),
    parseReply_output_long le_rfl (by norm_num) (by decide)]

end Magneto.RedisParser
