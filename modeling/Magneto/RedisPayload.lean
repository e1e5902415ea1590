import Magneto.RedisReply

/-!
# Payloads of any bytes

The parser looks for the end of a value instead of counting its bytes, and for
the next `$` right after the last one. A bulk reply is therefore taken only if
no line ends inside it, and a multi-bulk reply only if no answer is empty and
no answer but the last one holds a `$`.
-/

namespace Magneto.RedisParser

open Reply

section bulk

variable {v post out : List UInt8}

theorem find_inside (h : ¬ NoCrlf v) (post : List UInt8) :
    ∃ k, (bulk (some v)).line.length < k ∧ k ≤ (bulk (some v)).line.length + v.length ∧
      find crlf ((bulk (some v)).encode ++ post) ((bulk (some v)).line.length + 1) = some k := by
  obtain ⟨a, b, hv⟩ := not_not.mp h
  have hdrop : ((bulk (some v)).encode ++ post).drop
      ((bulk (some v)).line.length + (2 + a.length)) = crlf ++ (b ++ (crlf ++ post)) := by
    have hsplit : (bulk (some v)).encode ++ post =
        (bulk (some v)).line ++ ((crlf ++ a) ++ (crlf ++ (b ++ (crlf ++ post)))) := by
      simp [encode, body, valueBody, ← hv]
    have hlen : 2 + a.length = (crlf ++ a).length := by simp [crlf]; omega
    rw [hsplit, List.drop_length_add_append, hlen, List.drop_left]
  have hlen : v.length = a.length + 2 + b.length := by
    rw [← hv]
    simp [crlf]
    omega
  obtain ⟨k, hk, hfind⟩ := find_le (by decide)
    (show (bulk (some v)).line.length + 1 ≤ (bulk (some v)).line.length + (2 + a.length) by omega)
    ⟨_, hdrop.symm⟩
  have hbound := (find_bound hfind).1
  exact ⟨k, by omega, by omega, hfind⟩

theorem parseBulk_inside (h : ¬ NoCrlf v) (hlen : v.length < 2 ^ 31) (post out : List UInt8) :
    (parseBulk ((bulk (some v)).encode ++ post) (bulk (some v)).line.length out).ret ≠ 0 := by
  obtain ⟨k, hlt, hle, hfind⟩ := find_inside h post
  have hbulk := parseBulk_some v (v ++ (crlf ++ post)) out
  have hsplit : (bulk (some v)).line ++ (crlf ++ (v ++ (crlf ++ post))) =
      (bulk (some v)).encode ++ post := by
    simp [encode, body, valueBody]
  have hnarrow : Word.narrow ((k : ℤ) - (bulk (some v)).line.length) =
      (k : ℤ) - (bulk (some v)).line.length := Word.narrow_of_mem (by omega) (by omega)
  rw [hsplit, hfind, if_neg (min_longMax_ne hlen)] at hbulk
  dsimp only at hbulk
  rw [hnarrow, if_pos (by omega)] at hbulk
  rw [hbulk]
  simp

/-- A bulk reply is decoded exactly when no line ends inside its value and the
distance of the two line ends around it is in the range of an `int`. -/
theorem parseReply_bulk_iff (v post out : List UInt8) (hlen : v.length < 2 ^ 31) :
    (parseReply ((bulk (some v)).encode ++ post) out).1 =
        ⟨0, some (bulk (some v)).encode.length, out ++ ascii "1" ++ [kSep] ++ v⟩ ↔
      NoCrlf v ∧ v.length + 2 < 2 ^ 31 := by
  have hparse : (parseReply ((bulk (some v)).encode ++ post) out).1 =
      parseBulk ((bulk (some v)).encode ++ post) (bulk (some v)).line.length out := by
    rw [encode, List.append_assoc, List.append_assoc]
    exact parseReply_bulk (some v) _ out
  rw [hparse]
  by_cases hv : NoCrlf v
  · rw [parseBulk_encode hv, and_iff_right hv]
    constructor
    · intro h
      by_contra hlong
      rw [if_neg hlong] at h
      simp at h
    · intro hlt
      rw [if_pos hlt]
      simp [decoded]
  · refine iff_of_false (fun h => parseBulk_inside hv hlen post out ?_) fun h => hv h.1
    rw [h]

theorem parseReply_bulk_lineFeed :
    (parseReply ((bulk (some (ascii "a\rb\n"))).encode ++ ascii "+") []).1 =
      ⟨0, some (bulk (some (ascii "a\rb\n"))).encode.length,
        [] ++ ascii "1" ++ [kSep] ++ ascii "a\rb\n"⟩ :=
  (parseReply_bulk_iff (ascii "a\rb\n") (ascii "+") [] (by decide)).mpr
    ⟨by unfold NoCrlf; decide, by decide⟩

theorem parseReply_bulk_lineEnd :
    (ascii "a\r\nb").length < 2 ^ 31 ∧
      (parseReply ((bulk (some (ascii "a\r\nb"))).encode ++ []) []).1 ≠
        ⟨0, some (bulk (some (ascii "a\r\nb"))).encode.length,
          [] ++ ascii "1" ++ [kSep] ++ ascii "a\r\nb"⟩ := by
  decide

end bulk

section loop

variable {reply out : List UInt8} {start idx size k : ℕ}

inductive SegCase (reply : List UInt8) (start : ℕ) (out : List UInt8) : Parsed → Prop
  | null {idxCr : ℕ} (hcr : find crlf reply start = some idxCr)
      (hn : (strtol (reply.drop (start + 1))).1 = -1) :
      SegCase reply start out ⟨0, some (idxCr + 2 - start), out ++ ascii "__null"⟩
  | value {idxCr idxSecondCr : ℕ} (hcr : find crlf reply start = some idxCr)
      (hn : (strtol (reply.drop (start + 1))).1 ≠ -1)
      (hpos : 0 < (strtol (reply.drop (start + 1))).1)
      (hmax : (strtol (reply.drop (start + 1))).1 ≠ longMax)
      (hsecond : find crlf reply (idxCr + 1) = some idxSecondCr)
      (hlen : Word.narrow ((idxSecondCr : ℤ) - idxCr - 2) = (strtol (reply.drop (start + 1))).1) :
      SegCase reply start out ⟨0, some (idxSecondCr + 2 - start),
        out ++ (reply.drop (idxCr + 2)).take (strtol (reply.drop (start + 1))).1.toNat⟩

theorem parseReplySeg_cases (h : (parseReplySeg reply start out).ret = 0) :
    SegCase reply start out (parseReplySeg reply start out) := by
  unfold parseReplySeg at h ⊢
  cases hcr : find crlf reply start with
  | none =>
    rw [hcr] at h
    cases h
  | some idxCr =>
    simp only [hcr] at h ⊢
    split_ifs at h ⊢ with hn hbad
    · exact .null hcr hn
    · cases h
    · simp only [not_or, not_le] at hbad
      cases hsecond : find crlf reply (idxCr + 1) with
      | none =>
        rw [hsecond] at h
        cases h
      | some idxSecondCr =>
        simp only [hsecond] at h ⊢
        split_ifs at h ⊢ with hlen
        · cases h
        · exact .value hcr hn hbad.2.2.2 hbad.1 hsecond (not_not.mp hlen)

theorem parseReplySeg_eq (h : (parseReplySeg reply start out).ret = 0) :
    ∃ len segOut, parseReplySeg reply start out = ⟨0, some len, segOut⟩ := by
  have hseg := parseReplySeg_cases h
  generalize parseReplySeg reply start out = seg at hseg
  cases hseg <;> exact ⟨_, _, rfl⟩

theorem parseAnswers_succ (h : (parseAnswers reply (k + 1) idx size out).ret = 0) :
    ∃ d len segOut, find [36] reply idx = some d ∧
      parseReplySeg reply d out = ⟨0, some len, segOut⟩ ∧
      parseAnswers reply (k + 1) idx size out =
        parseAnswers reply k (d + 1) len (if k = 0 then segOut else segOut ++ [kSep]) := by
  rw [parseAnswers] at h ⊢
  cases hd : find [36] reply idx with
  | none =>
    rw [hd] at h
    cases h
  | some d =>
    simp only [hd] at h ⊢
    by_cases hret : (parseReplySeg reply d out).ret = 0
    · obtain ⟨len, segOut, hseg⟩ := parseReplySeg_eq hret
      exact ⟨d, len, segOut, rfl, hseg, by simp [hseg]⟩
    · rw [if_pos hret] at h
      exact absurd h hret

theorem singleton_prefix_drop_iff {b : UInt8} {j : ℕ} :
    [b] <+: reply.drop j ↔ reply[j]? = some b := by
  rw [← List.head?_drop]
  cases reply.drop j with
  | nil => simp
  | cons c l => simp [eq_comm]

theorem count_dollar {d S : ℕ} (hd : find [36] reply idx = some d) (hS : d < S) :
    ((reply.take S).drop idx).count 36 = ((reply.take S).drop (d + 1)).count 36 + 1 := by
  obtain ⟨hidx, hat, hfirst⟩ := (find_eq_some_iff (List.cons_ne_nil _ _)).mp hd
  rw [singleton_prefix_drop_iff] at hat
  have hlen : d < (reply.take S).length := by
    obtain ⟨hlt, -⟩ := List.getElem?_eq_some_iff.mp hat
    rw [List.length_take]
    omega
  have hget : (reply.take S)[d] = 36 := by
    have h := List.getElem?_eq_getElem hlen
    rw [List.getElem?_take_of_lt hS, hat] at h
    exact (Option.some.inj h).symm
  have hsplit : (reply.take S).drop idx =
      ((reply.take S).drop idx).take (d - idx) ++ 36 :: (reply.take S).drop (d + 1) := by
    have hdrop : ((reply.take S).drop idx).drop (d - idx) = 36 :: (reply.take S).drop (d + 1) := by
      rw [List.drop_drop, Nat.add_sub_cancel' hidx, List.drop_eq_getElem_cons hlen, hget]
    rw [← hdrop, List.take_append_drop]
  have hnone : 36 ∉ ((reply.take S).drop idx).take (d - idx) := by
    intro hmem
    obtain ⟨i, hi, he⟩ := List.mem_iff_getElem.mp hmem
    rw [List.getElem_take, List.getElem_drop, List.getElem_take] at he
    rw [List.length_take] at hi
    refine hfirst (idx + i) (by omega) (by omega) (singleton_prefix_drop_iff.mpr ?_)
    rw [← he]
    exact List.getElem?_eq_getElem _
  rw [hsplit, List.count_append, List.count_eq_zero.mpr hnone, List.count_cons_self, Nat.zero_add]

theorem dollar_lt {S : ℕ} {d : ℕ} (hd : find [36] reply idx = some d)
    (hcount : 0 < ((reply.take S).drop idx).count 36) : d < S := by
  obtain ⟨i, hi, he⟩ := List.mem_iff_getElem.mp (List.count_pos_iff.mp hcount)
  rw [List.getElem_drop, List.getElem_take] at he
  rw [List.length_drop, List.length_take] at hi
  have hat : [36] <+: reply.drop (idx + i) := by
    rw [singleton_prefix_drop_iff, ← he]
    exact List.getElem?_eq_getElem _
  have hle := find_min (List.cons_ne_nil _ _) hd (Nat.le_add_right idx i) hat
  omega

theorem parseAnswers_last {S : ℕ} (hcount : k + 1 ≤ ((reply.take S).drop idx).count 36)
    (h : (parseAnswers reply (k + 1) idx size out).ret = 0) :
    ∃ d len segOut out', d < S ∧ reply[d]? = some 36 ∧
      parseReplySeg reply d out' = ⟨0, some len, segOut⟩ ∧
      parseAnswers reply (k + 1) idx size out = ⟨0, some (d + len), segOut⟩ := by
  induction k generalizing idx size out with
  | zero =>
    obtain ⟨d, len, segOut, hd, hseg, heq⟩ := parseAnswers_succ h
    have hat := ((find_eq_some_iff (List.cons_ne_nil _ _)).mp hd).2.1
    refine ⟨d, len, segOut, out, dollar_lt hd (by omega), singleton_prefix_drop_iff.mp hat, hseg,
      ?_⟩
    rw [heq, parseAnswers, if_pos rfl, Nat.add_right_comm, Nat.add_sub_cancel]
  | succ k ih =>
    obtain ⟨d, len, segOut, hd, hseg, heq⟩ := parseAnswers_succ h
    rw [heq] at h ⊢
    have hlt : d < S := dollar_lt hd (by omega)
    have hless := count_dollar hd hlt
    exact ih (by omega) h

/-- An answer that starts before the last frame `36 :: t` of a reply ends too
early, or the frame is null and the answer is the line of the frame itself. -/
theorem parseReplySeg_before {pre t post : List UInt8} {a : Value} {d len : ℕ}
    {segOut : List UInt8}
    (hreply : reply = pre ++ (crlf ++ (36 :: t ++ (crlf ++ (valueBody a ++ post)))))
    (hd : d < pre.length + 2) (hat : reply[d]? = some 36)
    (hseg : parseReplySeg reply d out = ⟨0, some len, segOut⟩) :
    d + len < pre.length + 2 + (36 :: t ++ (crlf ++ valueBody a)).length ∨
      a = none ∧ d + len = pre.length + 2 + (36 :: t ++ (crlf ++ valueBody a)).length ∧
        find crlf reply d = some pre.length ∧ (strtol (reply.drop (d + 1))).1 ≠ -1 ∧
        segOut = out ++ (36 :: t ++ (crlf ++ post)).take (Word.narrow (t.length + 1)).toNat := by
  have hend : (36 :: t ++ (crlf ++ valueBody a)).length = t.length + 3 + (valueBody a).length := by
    simp [crlf]
    omega
  have hfirst : crlf <+: reply.drop pre.length := by
    rw [hreply, List.drop_left]
    exact List.prefix_append _ _
  have hline : crlf <+: reply.drop (pre.length + 3 + t.length) := by
    have hsplit : reply = (pre ++ (crlf ++ 36 :: t)) ++ (crlf ++ (valueBody a ++ post)) := by
      simp [hreply]
    have hlen : pre.length + 3 + t.length = (pre ++ (crlf ++ 36 :: t)).length := by
      simp [crlf]
      omega
    rw [hsplit, hlen, List.drop_left]
    exact List.prefix_append _ _
  have hlt : d < pre.length := by
    by_contra hge
    obtain rfl | rfl : d = pre.length ∨ d = pre.length + 1 := by omega
    · simp [hreply, crlf] at hat
    · rw [hreply, List.getElem?_append_right (by omega)] at hat
      simp [crlf] at hat
  rw [hend]
  have hret : (parseReplySeg reply d out).ret = 0 := by rw [hseg]
  have hcase := parseReplySeg_cases hret
  rw [hseg] at hcase
  cases hcase with
  | @null idxCr hcr hn =>
    have hle := find_min (by decide) hcr hlt.le hfirst
    have hbound := (find_bound hcr).1
    left
    omega
  | @value idxCr idxSecondCr hcr hn hpos hmax hsecond hlen =>
    have hle := find_min (by decide) hcr hlt.le hfirst
    have hle' := find_min (by decide) hsecond (by omega) hline
    have hbound := (find_bound hcr).1
    have hbound' := (find_bound hsecond).1
    cases a with
    | some v =>
      left
      simp only [valueBody, List.length_append, crlf, List.length_cons, List.length_nil]
      omega
    | none =>
      have hbody : (valueBody none).length = 0 := rfl
      rw [hbody, Nat.add_zero]
      rcases Nat.lt_or_ge idxSecondCr (pre.length + 3 + t.length) with hlt' | hge
      · left
        omega
      · -- the line end before the frame is the first of the two
        have hfirst' : idxCr = pre.length := by
          by_contra hne
          have hnext := find_min (by decide) hsecond (by omega) hfirst
          omega
        have hdiff : (idxSecondCr : ℤ) - idxCr - 2 = t.length + 1 := by omega
        have hdrop : reply.drop (idxCr + 2) = 36 :: t ++ (crlf ++ post) := by
          rw [hreply, hfirst', List.drop_length_add_append]
          simp [crlf, valueBody]
        right
        refine ⟨rfl, by omega, hfirst' ▸ hcr, hn, ?_⟩
        rw [← hlen, hdiff, hdrop]

end loop

section answers

variable {a : Value} {answers front : List Value} {post out : List UInt8}

theorem encodeValue_eq_cons (a : Value) :
    encodeValue a = 36 :: (valueLine a).tail ++ (crlf ++ valueBody a) := by
  cases a <;> rfl

theorem count_dollar_encodeValue (a : Value) :
    (encodeValue a).count 36 = (encodeValue a).tail.count 36 + 1 := by
  rw [encodeValue_eq_cons, List.cons_append, List.count_cons_self, List.tail_cons]

theorem length_le_count_dollar (answers : List Value) :
    answers.length ≤ (answers.flatMap encodeValue).count 36 := by
  induction answers with
  | nil => exact Nat.zero_le _
  | cons a answers ih =>
    have ha := count_dollar_encodeValue a
    rw [List.length_cons, List.flatMap_cons, List.count_append]
    omega

theorem length_lt_count_dollar (h : ∃ a ∈ answers, 36 ∈ (encodeValue a).tail) :
    answers.length < (answers.flatMap encodeValue).count 36 := by
  induction answers with
  | nil => simp at h
  | cons a answers ih =>
    have ha := count_dollar_encodeValue a
    rw [List.length_cons, List.flatMap_cons, List.count_append]
    obtain ⟨b, hb, hmem⟩ := h
    rcases List.mem_cons.mp hb with rfl | hb
    · have hpos := List.count_pos_iff.mpr hmem
      have hrest := length_le_count_dollar answers
      omega
    · have hrest := ih ⟨b, hb, hmem⟩
      omega

theorem encodeValue_ends (a : Value) : ∃ w, encodeValue a = w ++ crlf := by
  cases a with
  | none => exact ⟨valueLine none, rfl⟩
  | some v => exact ⟨valueLine (some v) ++ (crlf ++ v), by simp [encodeValue, valueBody]⟩

theorem answers_end (l : List UInt8) (front : List Value) :
    ∃ w, l ++ crlf ++ front.flatMap encodeValue = w ++ crlf := by
  rcases List.eq_nil_or_concat' front with rfl | ⟨front, a, rfl⟩
  · exact ⟨l, by simp⟩
  · obtain ⟨w, hw⟩ := encodeValue_ends a
    exact ⟨l ++ crlf ++ front.flatMap encodeValue ++ w, by simp [hw]⟩

theorem intercalate_concat (l : List (List UInt8)) (x : List UInt8) :
    ∃ w, [kSep].intercalate (l ++ [x]) = w ++ x := by
  induction l with
  | nil => exact ⟨[], by simp⟩
  | cons y l ih =>
    obtain ⟨w, hw⟩ := ih
    cases l with
    | nil => exact ⟨y ++ [kSep], by simp [List.intercalate_cons_cons]⟩
    | cons z l =>
      refine ⟨y ++ [kSep] ++ w, ?_⟩
      rw [List.cons_append, List.cons_append, List.intercalate_cons_cons, ← List.cons_append, hw]
      simp

/-- With a `$` inside an answer before the last one, the last answer is looked for too early. -/
theorem parseMultiBulk_not_spaced (hne : answers ≠ []) (hspaced : ¬ Spaced answers)
    (hlt : answers.length < 2 ^ 31) (post out : List UInt8) :
    parseMultiBulk ((multiBulk (some answers)).encode ++ post)
        (multiBulk (some answers)).line.length out ≠
      ⟨0, some (multiBulk (some answers)).encode.length,
        out ++ (multiBulk (some answers)).decoded⟩ := by
  obtain ⟨front, a, rfl⟩ := (List.eq_nil_or_concat' answers).resolve_left hne
  intro h
  obtain ⟨w, hw⟩ := answers_end (multiBulk (some (front ++ [a]))).line front
  have hbad : ∃ b ∈ front, 36 ∈ (encodeValue b).tail := by
    simpa [Spaced] using hspaced
  have hreply : (multiBulk (some (front ++ [a]))).line ++ crlf ++
      ((front ++ [a]).flatMap encodeValue ++ post) =
        w ++ (crlf ++ (36 :: (valueLine a).tail ++ (crlf ++ (valueBody a ++ post)))) := by
    rw [List.flatMap_append, List.append_assoc (front.flatMap encodeValue), ← List.append_assoc, hw]
    simp [encodeValue_eq_cons a]
  have hsize : (multiBulk (some (front ++ [a]))).encode.length =
      w.length + 2 + (36 :: (valueLine a).tail ++ (crlf ++ valueBody a)).length := by
    have hlen := congrArg List.length hw
    rw [← encodeValue_eq_cons]
    simp only [encode, body, List.length_append, List.flatMap_append, List.flatMap_cons,
      List.flatMap_nil, List.append_nil] at hlen ⊢
    simp only [crlf, List.length_cons, List.length_nil] at hlen ⊢
    omega
  rw [parseMultiBulk_rounds (by simp) hlt, hreply, List.length_append, List.length_singleton] at h
  have hret := congrArg Parsed.ret h
  have hcount : front.length + 1 ≤ (((w ++ (crlf ++ (36 :: (valueLine a).tail ++
      (crlf ++ (valueBody a ++ post))))).take (w.length + 2)).drop 0).count 36 := by
    have htake : (w ++ (crlf ++ (36 :: (valueLine a).tail ++
        (crlf ++ (valueBody a ++ post))))).take (w.length + 2) = w ++ crlf := by
      rw [List.take_length_add_append]
      rfl
    have hdollars := length_lt_count_dollar hbad
    rw [List.drop_zero, htake, ← hw, List.count_append]
    omega
  obtain ⟨d, len, segOut, out', hd, hat, hseg, heq⟩ := parseAnswers_last hcount hret
  rw [heq] at h
  obtain ⟨-, hsome, hout⟩ := Parsed.mk.inj h
  have hlen := Option.some.inj hsome
  rcases parseReplySeg_before rfl hd hat hseg with hbefore | ⟨rfl, -, -, -, hline⟩
  · omega
  · have hthree : (Word.narrow (((valueLine none).tail.length : ℤ) + 1)).toNat = 3 := by decide
    obtain ⟨x, hx⟩ := intercalate_concat (front.map shown) (shown none)
    have hleft : segOut = (out' ++ [36, 45]) ++ [49] := by
      rw [hline, hthree, List.append_assoc]
      rfl
    have hright : segOut = (out ++ decimal (front.length + 1) ++ [kSep] ++ x ++ ascii "__nul") ++
        [108] := by
      have hnull : shown none = ascii "__nul" ++ [108] := rfl
      rw [hout, decoded, List.map_append, List.map_singleton, hx, hnull]
      simp
    have hlast := List.append_inj_right' (hleft.symm.trans hright) rfl
    exact absurd hlast (by decide)

theorem length_le_flatMap (h : a ∈ answers) :
    (encodeValue a).length ≤ (answers.flatMap encodeValue).length := by
  obtain ⟨l₁, l₂, rfl⟩ := List.append_of_mem h
  simp only [List.flatMap_append, List.flatMap_cons, List.length_append]
  omega

theorem spaced_iff : Spaced answers ↔ ∀ a ∈ answers.dropLast, ∀ v, a = some v → 36 ∉ v := by
  unfold Spaced
  refine forall₂_congr fun a _ => ?_
  cases a with
  | none => exact iff_of_true (by decide) (by simp)
  | some v =>
    have hn := (plain_decimal v.length).not_mem_dollar
    simp [encodeValue, valueLine, valueBody, crlf, hn]

/-- A multi-bulk reply without line ends in its answers is decoded exactly when
no answer is empty and no answer but the last one holds a `$`. -/
theorem parseReply_multiBulk_iff (answers : List Value) (hne : answers ≠ [])
    (hframed : ∀ a ∈ answers, Framed a)
    (hlen : (multiBulk (some answers)).encode.length < 2 ^ 31) (post out : List UInt8) :
    (parseReply ((multiBulk (some answers)).encode ++ post) out).1 =
        ⟨0, some (multiBulk (some answers)).encode.length,
          out ++ (decimal answers.length ++ [kSep] ++ [kSep].intercalate (answers.map shown))⟩ ↔
      (∀ a ∈ answers, a ≠ some []) ∧ ∀ a ∈ answers.dropLast, ∀ v, a = some v → 36 ∉ v := by
  have hparse : (parseReply ((multiBulk (some answers)).encode ++ post) out).1 =
      parseMultiBulk ((multiBulk (some answers)).encode ++ post)
        (multiBulk (some answers)).line.length out := by
    rw [encode, List.append_assoc, List.append_assoc]
    exact parseReply_multiBulk (some answers) _ out
  have hbody : (answers.flatMap encodeValue).length < 2 ^ 31 := by
    rw [encode, body, List.length_append, List.length_append] at hlen
    omega
  have hpos : 0 < answers.length := List.length_pos_iff.mpr hne
  have hlt : answers.length < 2 ^ 31 := by
    have hcount := length_le_count_dollar answers
    have hle := List.count_le_length (l := answers.flatMap encodeValue) (a := (36 : UInt8))
    omega
  have htaken : ∀ a ∈ answers, Taken a ↔ a ≠ some [] := by
    intro a ha
    refine and_iff_left ?_
    rintro v rfl
    have hle := length_le_flatMap ha
    rw [length_encodeValue, valueBody, List.length_append] at hle
    omega
  rw [hparse, ← spaced_iff]
  by_cases hspaced : Spaced answers
  · rw [and_iff_left hspaced]
    constructor
    · intro h
      by_contra! hempty
      obtain ⟨a, ha, hnil⟩ := hempty
      have hbad : ∃ a ∈ answers, ¬ Taken a := ⟨a, ha, fun ht => (htaken a ha).mp ht hnil⟩
      have hret : (parseAnswers ((multiBulk (some answers)).line ++ crlf ++
          (answers.flatMap encodeValue ++ post)) answers.length 0 0
          (out ++ decimal answers.length ++ [kSep])).ret = -1 :=
        parseAnswers_not_fits hframed hbad hspaced (length_line_crlf answers) (Nat.zero_le _)
          (dollar_not_mem_line answers)
      rw [← parseMultiBulk_rounds hpos hlt, h] at hret
      cases hret
    · intro h
      exact parseMultiBulk_fits hframed hspaced (fun a ha => (htaken a ha).mpr (h a ha)) hpos hlt
        post out
  · exact iff_of_false (parseMultiBulk_not_spaced hne hspaced hlt post out)
      fun h => hspaced h.2

/-- A `$` in the last answer does no harm, and neither do a lone CR and LF. -/
theorem parseReply_multiBulk_lastDollar :
    (parseReply ((multiBulk (some [none, some (ascii "a\r"), some (ascii "b$1")])).encode ++
        ascii "+") []).1 =
      ⟨0, some (multiBulk (some [none, some (ascii "a\r"), some (ascii "b$1")])).encode.length,
        [] ++ (decimal 3 ++ [kSep] ++
          [kSep].intercalate [shown none, ascii "a\r", ascii "b$1"])⟩ :=
  (parseReply_multiBulk_iff [none, some (ascii "a\r"), some (ascii "b$1")] (by decide)
    (by
      intro a ha v hv
      subst hv
      simp only [List.mem_cons, List.not_mem_nil, or_false, reduceCtorEq, false_or,
        Option.some.injEq] at ha
      obtain rfl | rfl := ha
      all_goals
        unfold NoCrlf
        decide) (by decide) (ascii "+") []).mpr
    ⟨by decide, by decide⟩

theorem parseReply_multiBulk_empty :
    (multiBulk (some [some []])).encode.length < 2 ^ 31 ∧
      (parseReply ((multiBulk (some [some []])).encode ++ []) []).1 ≠
        ⟨0, some (multiBulk (some [some []])).encode.length,
          [] ++ (decimal 1 ++ [kSep] ++ [kSep].intercalate [[]])⟩ := by
  decide

end answers

end Magneto.RedisParser
