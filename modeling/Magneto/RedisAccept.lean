import Magneto.RedisPayload

/-!
# What the parser accepts

The grammar of replies as bytes, and for each reply that `ParseReply` takes when
the bytes it counts are one: the numbers of the reply are written right up to
the end of their line, each answer starts where the one before it ends, and the
lengths fit an `int`. The parser checks none of these.
-/

namespace Magneto.RedisParser

def announced : Value → ℤ
  | none => -1
  | some v => v.length

inductive IsValue : List UInt8 → Prop
  | mk {t : List UInt8} {a : Value} (h : IsNumber t (announced a)) :
      IsValue (36 :: t ++ (crlf ++ valueBody a))

inductive IsReply : List UInt8 → Prop
  | integer {t : List UInt8} {n : ℤ} (h : IsNumber t n) : IsReply (58 :: t ++ crlf)
  | status {t : List UInt8} (h : NoCrlf t) : IsReply (43 :: t ++ crlf)
  | error {t : List UInt8} (h : NoCrlf t) : IsReply (45 :: t ++ crlf)
  | bulk {w : List UInt8} (h : IsValue w) : IsReply w
  | nullMultiBulk {t : List UInt8} (h : IsNumber t (-1)) : IsReply (42 :: t ++ crlf)
  | multiBulk {t : List UInt8} {ws : List (List UInt8)} (h : IsNumber t ws.length)
      (hws : ∀ w ∈ ws, IsValue w) : IsReply (42 :: t ++ (crlf ++ ws.flatten))

section lines

variable {reply t rest post : List UInt8} {n : ℤ} {start s c : ℕ}

theorem IsNumber.plain (h : IsNumber t n) : Plain t := by
  have hdigit : ∀ b : UInt8, isDigit b = true → b ≠ 0 ∧ b ≠ 13 ∧ b ≠ 10 ∧ b ≠ 36 := fun b hb =>
    ⟨ne_of_isDigit hb (by decide), ne_of_isDigit hb (by decide), ne_of_isDigit hb (by decide),
      ne_of_isDigit hb (by decide)⟩
  cases h with
  | nonneg hne hds => exact fun b hb => hdigit b (hds b hb)
  | neg hne hds => exact List.forall_mem_cons.mpr ⟨by decide, fun b hb => hdigit b (hds b hb)⟩

theorem find_crlf_drop {w : List UInt8} (h : reply.drop s = w ++ (crlf ++ rest)) (hw : NoCrlf w) :
    find crlf reply s = some (s + w.length) := by
  have hle : s ≤ reply.length := by
    by_contra hlt
    rw [List.drop_eq_nil_of_le (by omega)] at h
    simp [crlf] at h
  have hlen : (reply.take s).length = s := List.length_take_of_le hle
  have hsplit : reply = (reply.take s ++ w) ++ (crlf ++ rest) := by
    rw [List.append_assoc, ← h, List.take_append_drop]
  have hfind : find crlf ((reply.take s ++ w) ++ (crlf ++ rest)) s =
      some (reply.take s ++ w).length :=
    find_crlf (by simp [hlen]) (by rwa [List.drop_left' hlen]) rest
  rwa [← hsplit, List.length_append, hlen] at hfind

def lineStop (reply : List UInt8) (start : ℕ) : ℕ := (find crlf reply start).getD reply.length

def lineText (reply : List UInt8) (start : ℕ) : List UInt8 :=
  (reply.take (lineStop reply start)).drop (start + 1)

theorem lineStop_of_find (h : find crlf reply start = some c) : lineStop reply start = c := by
  rw [lineStop, h, Option.getD_some]

theorem drop_of_find {pat : List UInt8} (hpat : pat ≠ []) (h : find pat reply start = some c) :
    ∃ rest, reply.drop start = (reply.take c).drop start ++ (pat ++ rest) := by
  obtain ⟨hle, ⟨rest, hrest⟩, -⟩ := (find_eq_some_iff hpat).mp h
  have hdrop : reply.drop c = (reply.drop start).drop (c - start) := by
    rw [List.drop_drop, Nat.add_sub_cancel' hle]
  exact ⟨rest, by rw [hrest, hdrop, List.drop_take, List.take_append_drop]⟩

theorem lt_of_find_crlf {b : UInt8} (hb : reply[start]? = some b) (hne : b ≠ 13)
    (h : find crlf reply start = some c) : start < c := by
  obtain ⟨hle, hat, -⟩ := (find_eq_some_iff (by decide)).mp h
  refine lt_of_le_of_ne hle ?_
  rintro rfl
  obtain ⟨hlt, hget⟩ := List.getElem?_eq_some_iff.mp hb
  rw [List.drop_eq_getElem_cons hlt, hget, crlf, List.cons_prefix_cons] at hat
  exact hne hat.1.symm

theorem next_line_le {c' : ℕ} (h : find crlf reply start = some c)
    (h' : find crlf reply (c + 1) = some c') : c + 2 ≤ c' := by
  obtain ⟨-, ⟨rest, hrest⟩, -⟩ := (find_eq_some_iff (by decide)).mp h
  have hb : reply[c + 1]? = some 10 := by
    rw [← List.getElem?_drop, ← hrest]
    rfl
  exact lt_of_find_crlf hb (by decide) h'

theorem drop_line {b : UInt8} (hb : reply[start]? = some b) (hne : b ≠ 13)
    (h : find crlf reply start = some c) :
    ∃ rest, reply.drop start = (b :: lineText reply start) ++ (crlf ++ rest) ∧
      start + (b :: lineText reply start).length = c ∧ reply.drop (c + 2) = rest := by
  obtain ⟨rest, hrest⟩ := drop_of_find (by decide) h
  obtain ⟨hlt, hget⟩ := List.getElem?_eq_some_iff.mp hb
  have hlc := lt_of_find_crlf hb hne h
  have hcl := (find_bound h).2
  have htake : start < (reply.take c).length := by
    rw [List.length_take]
    omega
  have hline : reply.drop start = (b :: lineText reply start) ++ (crlf ++ rest) := by
    rw [hrest, lineText, lineStop_of_find h, List.drop_eq_getElem_cons htake, List.getElem_take,
      hget]
  have hstop : start + (b :: lineText reply start).length = c := by
    rw [List.length_cons, lineText, lineStop_of_find h, List.length_drop, List.length_take]
    omega
  refine ⟨rest, hline, hstop, ?_⟩
  rw [← hstop, Nat.add_assoc, ← List.drop_drop, hline, List.drop_length_add_append]
  rfl

end lines

section values

variable {reply w out segOut : List UInt8} {off start len : ℕ}

def valueStop (reply : List UInt8) (start : ℕ) : ℕ :=
  if (strtol (reply.drop (start + 1))).1 = -1 then lineStop reply start + 2
  else lineStop reply (lineStop reply start + 1) + 2

/-- What the parser leaves unchecked of a value: that its length is a number up to the
end of the line, and that the length it measures, with `off` bytes of line ends, is an `int`. -/
def StrictValue (off : ℕ) (reply : List UInt8) (start : ℕ) : Prop :=
  (∃ n, IsNumber (lineText reply start) n) ∧
    ((strtol (reply.drop (start + 1))).1 = -1 ∨
      lineStop reply (lineStop reply start + 1) + off < lineStop reply start + 2 + 2 ^ 31)

inductive ValueCase (off : ℕ) (reply : List UInt8) (start : ℕ) : Prop
  | null {idxCr : ℕ} (hcr : find crlf reply start = some idxCr)
      (hn : (strtol (reply.drop (start + 1))).1 = -1)
  | value {idxCr idxSecondCr : ℕ} (hcr : find crlf reply start = some idxCr)
      (hn : (strtol (reply.drop (start + 1))).1 ≠ -1)
      (hmax : (strtol (reply.drop (start + 1))).1 ≠ longMax)
      (hsecond : find crlf reply (idxCr + 1) = some idxSecondCr)
      (hlen : Word.narrow ((idxSecondCr : ℤ) - idxCr - 2 + off) =
        (strtol (reply.drop (start + 1))).1 + off)

theorem parseReplySeg_valueCase (h : parseReplySeg reply start out = ⟨0, some len, segOut⟩) :
    ValueCase 0 reply start ∧ start + len = valueStop reply start := by
  have hcase := parseReplySeg_cases (show (parseReplySeg reply start out).ret = 0 by rw [h])
  rw [h] at hcase
  cases hcase with
  | null hcr hn =>
    refine ⟨.null hcr hn, ?_⟩
    have hbound := find_bound hcr
    rw [valueStop, if_pos hn, lineStop_of_find hcr]
    omega
  | value hcr hn hpos hmax hsecond hlen =>
    refine ⟨.value hcr hn hmax hsecond (by simpa using hlen), ?_⟩
    have hbound := find_bound hcr
    have hbound' := find_bound hsecond
    rw [valueStop, if_neg hn, lineStop_of_find hcr, lineStop_of_find hsecond]
    omega

theorem narrow_le_of_nonneg {n : ℤ} (h : 0 ≤ n) : Word.narrow n ≤ n := by
  unfold Word.narrow
  rw [Int.bmod_def]
  norm_num
  omega

theorem eq_of_narrow_eq {g v : ℕ} (h : Word.narrow (g + off : ℕ) = (v : ℤ) + off) (hle : g ≤ v) :
    g = v ∧ g + off < 2 ^ 31 := by
  have hnarrow := narrow_le_of_nonneg (Int.natCast_nonneg (g + off))
  have hgv : g = v := by
    push_cast at h hnarrow
    omega
  refine ⟨hgv, Word.narrow_natCast_eq_iff.mp (h.trans ?_)⟩
  push_cast
  omega

theorem line_of_isNumber {b : UInt8} {t rest : List UInt8} {n : ℤ} (hb : b ≠ 13)
    (h : IsNumber t n) (hline : reply.drop start = (b :: t) ++ (crlf ++ rest)) :
    find crlf reply start = some (start + (b :: t).length) ∧ lineText reply start = t ∧
      (strtol (reply.drop (start + 1))).1 = max longMin (min longMax n) := by
  have hcr : find crlf reply start = some (start + (b :: t).length) :=
    find_crlf_drop hline (noCrlf_of_not_mem
      (List.not_mem_cons_of_ne_of_not_mem hb.symm h.plain.not_mem_cr))
  have hdrop : reply.drop (start + 1) = t ++ 13 :: 10 :: rest := by
    rw [← List.drop_drop, hline]
    rfl
  have hlength : start + (b :: t).length - (start + 1) = t.length := by
    rw [List.length_cons]
    omega
  refine ⟨hcr, ?_, ?_⟩
  · rw [lineText, lineStop_of_find hcr, List.drop_take, hdrop, hlength, List.take_left]
  · rw [hdrop, strtol_number h]

theorem valueStop_of_isValue (hcase : ValueCase off reply start) (hw : IsValue w)
    (hat : w <+: reply.drop start) :
    StrictValue off reply start ∧ start + w.length = valueStop reply start := by
  obtain ⟨post, hpost⟩ := hat
  cases hw with
  | @mk t a h =>
    have hline : reply.drop start = (36 :: t) ++ (crlf ++ (valueBody a ++ post)) := by
      rw [← hpost]
      simp
    obtain ⟨hcr, htext, hnum⟩ := line_of_isNumber (by decide) h hline
    cases a with
    | none =>
      have hnull : (strtol (reply.drop (start + 1))).1 = -1 := by
        rw [hnum]
        rfl
      refine ⟨⟨⟨-1, htext ▸ h⟩, .inl hnull⟩, ?_⟩
      rw [valueStop, if_pos hnull, lineStop_of_find hcr]
      simp [crlf, valueBody]
      omega
    | some v =>
      have hclamp : (strtol (reply.drop (start + 1))).1 = min longMax v.length := by
        rw [hnum, announced]
        exact max_eq_right (le_trans (by decide) (min_longMax_nonneg v.length))
      cases hcase with
      | null hcr hn => exact absurd (hclamp.symm.trans hn) (min_longMax_ne_null _)
      | @value _ idxSecondCr hcr' hn hmax hsecond hlen =>
        obtain rfl := Option.some.inj (hcr.symm.trans hcr')
        rw [hclamp] at hmax
        rw [hclamp, min_longMax_of_ne hmax] at hlen
        have hend : crlf <+: reply.drop (start + (36 :: t).length + 2 + v.length) := by
          have hsplit : reply.drop start = (36 :: t ++ (crlf ++ v)) ++ (crlf ++ post) := by
            simp [hline, valueBody]
          have hlength : start + (36 :: t).length + 2 + v.length =
              start + (36 :: t ++ (crlf ++ v)).length := by
            simp only [List.length_append, crlf, List.length_cons, List.length_nil]
            omega
          rw [hlength, ← List.drop_drop, hsplit, List.drop_left]
          exact List.prefix_append _ _
        have hle : start + (36 :: t).length + 1 ≤ start + (36 :: t).length + 2 + v.length := by
          omega
        have hk := find_min (by decide) hsecond hle hend
        obtain ⟨g, hg⟩ := Nat.exists_eq_add_of_le (next_line_le hcr hsecond)
        have hdiff : (idxSecondCr : ℤ) - (start + (36 :: t).length : ℕ) - 2 + off =
            (g + off : ℕ) := by
          push_cast
          omega
        rw [hdiff] at hlen
        obtain ⟨hgv, hlt⟩ := eq_of_narrow_eq hlen (by omega)
        refine ⟨⟨⟨v.length, htext ▸ h⟩, .inr ?_⟩, ?_⟩
        · rw [lineStop_of_find hcr, lineStop_of_find hsecond]
          omega
        · rw [valueStop, if_neg hn, lineStop_of_find hcr, lineStop_of_find hsecond, hg, hgv]
          simp only [valueBody, List.length_append, crlf, List.length_cons, List.length_nil]
          omega

theorem isValue_of_strict (hat : reply[start]? = some 36) (hcase : ValueCase off reply start)
    (hstrict : StrictValue off reply start) :
    ∃ w, IsValue w ∧ w <+: reply.drop start ∧ start + w.length = valueStop reply start := by
  obtain ⟨⟨n, hnumber⟩, hgap⟩ := hstrict
  cases hcase with
  | null hcr hn =>
    obtain ⟨rest, hline, hstop, -⟩ := drop_line hat (by decide) hcr
    obtain ⟨-, -, hnum⟩ := line_of_isNumber (by decide) hnumber hline
    have hminus : n = -1 := by
      rw [hnum] at hn
      unfold longMin longMax at hn
      omega
    subst hminus
    refine ⟨_, IsValue.mk (a := none) hnumber, ?_, ?_⟩
    · rw [hline, valueBody, List.append_nil, ← List.append_assoc]
      exact List.prefix_append _ _
    · rw [valueStop, if_pos hn, lineStop_of_find hcr, ← hstop]
      simp [crlf, valueBody]
      omega
  | @value c c' hcr hn hmax hsecond hlen =>
    obtain ⟨rest, hline, hstop, hrest⟩ := drop_line hat (by decide) hcr
    obtain ⟨-, -, hnum⟩ := line_of_isNumber (by decide) hnumber hline
    have hlt := hgap.resolve_left hn
    rw [lineStop_of_find hcr, lineStop_of_find hsecond] at hlt
    obtain ⟨g, hg⟩ := Nat.exists_eq_add_of_le (next_line_le hcr hsecond)
    have hdiff : (c' : ℤ) - c - 2 + off = (g + off : ℕ) := by
      push_cast
      omega
    have hnat : n = g := by
      rw [hdiff, Word.narrow_natCast_eq_iff.mpr (by omega), hnum] at hlen
      unfold longMin longMax at hlen
      push_cast at hlen
      omega
    obtain ⟨-, ⟨rest', hrest'⟩, -⟩ := (find_eq_some_iff (by decide)).mp hsecond
    have hbody : rest = rest.take g ++ (crlf ++ rest') := by
      rw [hrest', hg, ← List.drop_drop, hrest, List.take_append_drop]
    have hlength : (rest.take g).length = g := by
      have hbound := (find_bound hsecond).2
      rw [List.length_take, ← hrest, List.length_drop]
      omega
    rw [hnat, ← hlength] at hnumber
    refine ⟨_, IsValue.mk (a := some (rest.take g)) hnumber, ⟨rest', ?_⟩, ?_⟩
    · rw [hline]
      conv_rhs => rw [hbody]
      simp [valueBody]
    · rw [valueStop, if_neg hn, lineStop_of_find hcr, lineStop_of_find hsecond, hg, ← hstop]
      simp only [valueBody, List.length_append, crlf, List.length_cons, List.length_nil, hlength]
      omega

end values

section answers

variable {reply out out' w : List UInt8} {d idx k s size stop : ℕ}

def NullLine (reply : List UInt8) (s : ℕ) : Prop :=
  ∃ t, IsNumber t (-1) ∧ 36 :: t ++ crlf <+: reply.drop s

/-- What the loop over the answers leaves unchecked: that the `$` it finds is at `s`, where the
answer before ends. When it misses the last answer, the line it takes may still be a null one. -/
def StrictAnswers (reply : List UInt8) : ℕ → ℕ → ℕ → Prop
  | 0, _, _ => True
  | k + 1, idx, s => ∃ d, find [36] reply idx = some d ∧
      (d = s ∧ StrictValue 0 reply d ∧ StrictAnswers reply k (d + 1) (valueStop reply d) ∨
        d ≠ s ∧ k = 0 ∧ NullLine reply s ∧ (strtol (reply.drop (d + 1))).1 ≠ -1)

def Values (reply : List UInt8) (s m stop : ℕ) : Prop :=
  ∃ ws : List (List UInt8), ws.length = m ∧ (∀ w ∈ ws, IsValue w) ∧
    ws.flatten <+: reply.drop s ∧ s + ws.flatten.length = stop

theorem append_prefix_iff {u l : List UInt8} :
    w ++ u <+: l ↔ w <+: l ∧ u <+: l.drop w.length := by
  constructor
  · rintro ⟨post, rfl⟩
    refine ⟨⟨u ++ post, by simp⟩, ⟨post, ?_⟩⟩
    rw [List.append_assoc, List.drop_left]
  · rintro ⟨⟨rest, rfl⟩, post, hpost⟩
    rw [List.drop_left] at hpost
    exact ⟨post, by simp [hpost]⟩

theorem values_succ {m : ℕ} : Values reply s (m + 1) stop ↔
    ∃ w, IsValue w ∧ w <+: reply.drop s ∧ Values reply (s + w.length) m stop := by
  constructor
  · rintro ⟨ws, hlen, hws, hat, hstop⟩
    obtain ⟨w, ws, rfl⟩ := List.exists_cons_of_length_eq_add_one hlen
    obtain ⟨hw, hws⟩ := List.forall_mem_cons.mp hws
    rw [List.flatten_cons, append_prefix_iff, List.drop_drop] at hat
    rw [List.flatten_cons, List.length_append, ← Nat.add_assoc] at hstop
    exact ⟨w, hw, hat.1, ws, Nat.succ.inj hlen, hws, hat.2, hstop⟩
  · rintro ⟨w, hw, hat, ws, rfl, hws, hat', rfl⟩
    refine ⟨w :: ws, rfl, List.forall_mem_cons.mpr ⟨hw, hws⟩, ?_, ?_⟩
    · rw [List.flatten_cons, append_prefix_iff, List.drop_drop]
      exact ⟨hat, hat'⟩
    · rw [List.flatten_cons, List.length_append, Nat.add_assoc]

theorem values_zero : Values reply s 0 stop ↔ s = stop := by
  constructor
  · rintro ⟨ws, hlen, -, -, rfl⟩
    rw [List.length_eq_zero_iff.mp hlen]
    rfl
  · rintro rfl
    exact ⟨[], rfl, by simp, List.nil_prefix, rfl⟩

theorem IsValue.head (h : IsValue w) (hat : w <+: reply.drop s) : reply[s]? = some 36 := by
  obtain ⟨post, hpost⟩ := hat
  cases h
  rw [← List.head?_drop, ← hpost]
  rfl

theorem values_succ_of_valueCase {m : ℕ} (hat : reply[s]? = some 36)
    (hcase : ValueCase 0 reply s) : Values reply s (m + 1) stop ↔
      StrictValue 0 reply s ∧ Values reply (valueStop reply s) m stop := by
  rw [values_succ]
  constructor
  · rintro ⟨w, hw, hpre, hrest⟩
    obtain ⟨hstrict, hend⟩ := valueStop_of_isValue hcase hw hpre
    exact ⟨hstrict, hend ▸ hrest⟩
  · rintro ⟨hstrict, hrest⟩
    obtain ⟨w, hw, hpre, hend⟩ := isValue_of_strict hat hcase hstrict
    exact ⟨w, hw, hpre, hend ▸ hrest⟩

theorem find_crlf_between {c start : ℕ} (h : find crlf reply start = some c) (hle : start ≤ d)
    (hdc : d ≤ c) : find crlf reply d = some c := by
  obtain ⟨-, hat, hfirst⟩ := (find_eq_some_iff (by decide)).mp h
  exact (find_eq_some_iff (by decide)).mpr
    ⟨hdc, hat, fun j hj hlt => hfirst j (hle.trans hj) hlt⟩

theorem dollar_lt_crlf {e : ℕ} (hat : crlf <+: reply.drop e) (hd : reply[d]? = some 36)
    (hlt : d < e + 2) : d < e := by
  obtain ⟨rest, hrest⟩ := hat
  by_contra hge
  obtain rfl | rfl : d = e ∨ d = e + 1 := by omega
  · rw [← List.head?_drop, ← hrest] at hd
    cases hd
  · rw [← List.getElem?_drop, ← hrest] at hd
    cases hd

/-- The loop over the answers before a round: the last answer ends with the line end at `e`, and
the line end is the first one after each `$` that the search has left to find before it. -/
structure AnswersInv (reply : List UInt8) (idx e : ℕ) : Prop where
  le : idx ≤ e + 2
  ends : crlf <+: reply.drop e
  line : ∀ d, idx ≤ d → d < e → reply[d]? = some 36 → find crlf reply d = some e

theorem answersInv_of_find {c start : ℕ} (h : find crlf reply start = some c)
    (hidx : start ≤ idx) (hle : idx ≤ c + 2) : AnswersInv reply idx c where
  le := hle
  ends := ((find_eq_some_iff (by decide)).mp h).2.1
  line _ hd hlt _ := find_crlf_between h (hidx.trans hd) hlt.le

theorem answersInv_value (hat : reply[s]? = some 36) (hcase : ValueCase 0 reply s)
    (hstrict : StrictValue 0 reply s) :
    ∃ e, valueStop reply s = e + 2 ∧ AnswersInv reply (s + 1) e := by
  obtain ⟨⟨n, hnumber⟩, -⟩ := hstrict
  cases hcase with
  | @null c hcr hn =>
    have hlt := lt_of_find_crlf hat (by decide) hcr
    refine ⟨c, ?_, answersInv_of_find hcr (Nat.le_succ s) (by omega)⟩
    rw [valueStop, if_pos hn, lineStop_of_find hcr]
  | @value c c' hcr hn hmax hsecond hlen =>
    have hlt := lt_of_find_crlf hat (by decide) hcr
    have hnext := next_line_le hcr hsecond
    refine ⟨c', ?_, by omega, ((find_eq_some_iff (by decide)).mp hsecond).2.1, ?_⟩
    · rw [valueStop, if_neg hn, lineStop_of_find hcr, lineStop_of_find hsecond]
    · intro d hd hlt' hdollar
      refine find_crlf_between hsecond ?_ hlt'.le
      by_contra hge
      have hends := ((find_eq_some_iff (by decide)).mp hcr).2.1
      have hdc := dollar_lt_crlf hends hdollar (by omega)
      -- the line of the length holds a number, which has no `$`
      refine hnumber.plain.not_mem_dollar (List.mem_iff_getElem?.mpr ⟨d - (s + 1), ?_⟩)
      rw [lineText, lineStop_of_find hcr, List.getElem?_drop, Nat.add_sub_cancel' hd,
        List.getElem?_take_of_lt hdc, hdollar]

theorem dollar_lt_of_ne (hd : find [36] reply idx = some d) (hs : reply[s]? = some 36)
    (hidx : idx ≤ s) (hne : d ≠ s) : d < s := by
  have hle := find_min (List.cons_ne_nil _ _) hd hidx (singleton_prefix_drop_iff.mpr hs)
  omega

theorem split_at_crlf {e : ℕ} {post : List UInt8} (hends : crlf <+: reply.drop e)
    (hw : reply.drop (e + 2) = post) :
    reply = reply.take e ++ (crlf ++ post) ∧ (reply.take e).length = e := by
  obtain ⟨rest, hrest⟩ := hends
  have hle : e ≤ reply.length := by
    by_contra hlt
    rw [List.drop_eq_nil_of_le (by omega)] at hrest
    simp [crlf] at hrest
  have hpost : post = rest := by
    rw [← hw, ← List.drop_drop, ← hrest]
    rfl
  exact ⟨by rw [hpost, hrest, List.take_append_drop], List.length_take_of_le hle⟩

theorem values_one_of_missed {e len : ℕ} {segOut : List UInt8} (hinv : AnswersInv reply idx e)
    (hd : find [36] reply idx = some d) (hne : d ≠ e + 2)
    (hseg : parseReplySeg reply d out = ⟨0, some len, segOut⟩) :
    Values reply (e + 2) 1 (d + len) ↔
      NullLine reply (e + 2) ∧ (strtol (reply.drop (d + 1))).1 ≠ -1 := by
  obtain ⟨hidx, hat, -⟩ := (find_eq_some_iff (List.cons_ne_nil _ _)).mp hd
  rw [singleton_prefix_drop_iff] at hat
  constructor
  · intro h
    obtain ⟨w, hw, ⟨post, hpost⟩, hstop⟩ := values_succ.mp h
    rw [values_zero] at hstop
    have hlt := dollar_lt_of_ne hd (hw.head ⟨post, hpost⟩) hinv.le hne
    obtain ⟨hsplit, hlen⟩ := split_at_crlf hinv.ends hpost.symm
    cases hw with
    | @mk t a h =>
      have hreply : reply = reply.take e ++
          (crlf ++ (36 :: t ++ (crlf ++ (valueBody a ++ post)))) := by
        rw [hsplit]
        simp [hlen]
      rcases parseReplySeg_before hreply (by rwa [hlen]) hat hseg with
        hbefore | ⟨rfl, -, -, hn, -⟩
      · rw [hlen] at hbefore
        omega
      · exact ⟨⟨t, h, post, by rw [← hpost]; simp [valueBody]⟩, hn⟩
  · rintro ⟨⟨t, ht, post, hpost⟩, hn⟩
    have hline : reply.drop (e + 2) = (36 :: t) ++ (crlf ++ post) := by
      rw [← hpost]
      simp
    have hdollar : reply[e + 2]? = some 36 := by
      rw [← List.head?_drop, hline]
      rfl
    have hlt := dollar_lt_crlf hinv.ends hat (dollar_lt_of_ne hd hdollar hinv.le hne)
    have hcr := hinv.line d hidx hlt hat
    have hsecond : find crlf reply (e + 1) = some (e + 2 + (36 :: t).length) := by
      obtain ⟨rest, hrest⟩ := hinv.ends
      have hdrop : reply.drop (e + 1) = (10 :: 36 :: t) ++ (crlf ++ post) := by
        have hnext : reply.drop (e + 2) = rest := by
          rw [← List.drop_drop, ← hrest]
          rfl
        rw [← List.drop_drop, ← hrest, ← hnext, hline]
        rfl
      rw [find_crlf_drop hdrop (noCrlf_of_not_mem (by simp [ht.plain.not_mem_cr])),
        List.length_cons]
      congr 1
      omega
    obtain ⟨-, hstop⟩ := parseReplySeg_valueCase hseg
    rw [hstop, valueStop, if_neg hn, lineStop_of_find hcr, lineStop_of_find hsecond]
    refine values_succ.mpr ⟨_, IsValue.mk (a := none) ht, ⟨post, ?_⟩, values_zero.mpr ?_⟩
    · rw [hline]
      simp [valueBody]
    · simp [crlf, valueBody]
      omega

theorem IsValue.ends (h : IsValue w) : ∃ u, w = u ++ crlf := by
  cases h with
  | @mk t a h =>
    cases a with
    | none => exact ⟨36 :: t, by simp [valueBody]⟩
    | some v => exact ⟨36 :: t ++ (crlf ++ v), by simp [valueBody]⟩

theorem values_concat {m : ℕ} : Values reply s (m + 1) stop ↔
    ∃ mid w, Values reply s m mid ∧ IsValue w ∧ w <+: reply.drop mid ∧ mid + w.length = stop := by
  induction m generalizing s with
  | zero =>
    simp only [values_succ, values_zero]
    constructor
    · rintro ⟨w, hw, hat, hstop⟩
      exact ⟨s, w, rfl, hw, hat, hstop⟩
    · rintro ⟨_, w, rfl, hw, hat, hstop⟩
      exact ⟨w, hw, hat, hstop⟩
  | succ m ih =>
    rw [values_succ]
    constructor
    · rintro ⟨f, hf, hfat, hrest⟩
      obtain ⟨mid, w, hmid, hw⟩ := ih.mp hrest
      exact ⟨mid, w, values_succ.mpr ⟨f, hf, hfat, hmid⟩, hw⟩
    · rintro ⟨mid, w, hmid, hw⟩
      obtain ⟨f, hf, hfat, hrest⟩ := values_succ.mp hmid
      exact ⟨f, hf, hfat, ih.mpr ⟨mid, w, hrest, hw⟩⟩

theorem values_ends {m e : ℕ} (hends : crlf <+: reply.drop e)
    (h : Values reply (e + 2) m stop) : ∃ e' ≥ e, stop = e' + 2 ∧ crlf <+: reply.drop e' := by
  cases m with
  | zero => exact ⟨e, le_rfl, (values_zero.mp h).symm, hends⟩
  | succ m =>
    obtain ⟨mid, w, ⟨ws, -, -, -, rfl⟩, hw, ⟨post, hpost⟩, rfl⟩ := values_concat.mp h
    obtain ⟨u, rfl⟩ := hw.ends
    refine ⟨e + 2 + ws.flatten.length + u.length, by omega, ?_, post, ?_⟩
    · rw [List.length_append, Nat.add_assoc _ u.length]
      rfl
    · rw [← List.drop_drop, ← hpost, List.append_assoc, List.drop_left]

def dollars (reply : List UInt8) (i j : ℕ) : ℕ := ((reply.take j).drop i).count 36

theorem dollars_add {i j l : ℕ} (hij : i ≤ j) (hjl : j ≤ l) :
    dollars reply i l = dollars reply i j + dollars reply j l := by
  have hsplit : (reply.take l).drop i = (reply.take j).drop i ++ (reply.take l).drop j := by
    conv_lhs => rw [← List.take_append_drop (j - i) ((reply.take l).drop i)]
    rw [List.drop_drop, Nat.add_sub_cancel' hij, ← List.drop_take, List.take_take,
      Nat.min_eq_left hjl]
  rw [dollars, hsplit, List.count_append]
  rfl

theorem dollars_pos {j : ℕ} (hs : reply[s]? = some 36) (hsj : s < j) : 0 < dollars reply s j := by
  refine List.count_pos_iff.mpr (List.mem_iff_getElem?.mpr ⟨0, ?_⟩)
  rw [List.getElem?_drop, Nat.add_zero, List.getElem?_take_of_lt hsj, hs]

theorem values_dollars {m : ℕ} (h : Values reply s m stop) :
    s ≤ stop ∧ m ≤ dollars reply s stop := by
  induction m generalizing s with
  | zero => exact ⟨(values_zero.mp h).le, Nat.zero_le _⟩
  | succ m ih =>
    obtain ⟨w, hw, hat, hrest⟩ := values_succ.mp h
    obtain ⟨hle, hcount⟩ := ih hrest
    have hpos : 0 < w.length := by
      cases hw
      simp
    have hfirst := dollars_pos (hw.head hat) (Nat.lt_add_of_pos_right hpos)
    rw [dollars_add (Nat.le_add_right s w.length) hle]
    omega

theorem not_values_of_missed {e : ℕ} (hinv : AnswersInv reply idx e)
    (hd : find [36] reply idx = some d) (hne : d ≠ e + 2)
    (h : parseAnswers reply (k + 1 + 1) idx size out = ⟨0, some stop, out'⟩) :
    ¬ Values reply (e + 2) (k + 1 + 1) stop := by
  intro hvalues
  obtain ⟨mid, f, hmid, hf, ⟨post, hpost⟩, rfl⟩ := values_concat.mp hvalues
  obtain ⟨mid', f', hmid', hf', ⟨post', hpost'⟩, rfl⟩ := values_concat.mp hmid
  obtain ⟨e', he', rfl, hends'⟩ := values_ends hinv.ends hmid'
  obtain ⟨e'', he'', hstop, hends⟩ := values_ends hinv.ends hmid
  have hdollar : reply[e + 2]? = some 36 := by
    obtain ⟨w, hw, hat, -⟩ := values_succ.mp hvalues
    exact hw.head hat
  have hdollar' : reply[e' + 2]? = some 36 := hf'.head ⟨post', hpost'⟩
  have hcount : k + 1 + 1 ≤ dollars reply idx (e' + 2 + 1) := by
    have hfirst := count_dollar hd (dollar_lt_of_ne hd hdollar hinv.le hne)
    have hmiddle := (values_dollars hmid').2
    have hlast := dollars_pos hdollar' (Nat.lt_succ_self (e' + 2))
    have hle := hinv.le
    rw [dollars_add (show idx ≤ e' + 2 by omega) (Nat.le_succ _),
      dollars_add hinv.le (show e + 2 ≤ e' + 2 by omega)]
    unfold dollars at hmiddle hlast ⊢
    omega
  obtain ⟨d', len, segOut, out'', hd', hat', hseg, heq⟩ :=
    parseAnswers_last hcount (by rw [h])
  have hsize := Option.some.inj (congrArg Parsed.size (h.symm.trans heq))
  rw [hstop] at hpost
  obtain ⟨hsplit, hlen⟩ := split_at_crlf hends hpost.symm
  cases hf with
  | @mk t a hnum =>
    have hreply : reply = reply.take e'' ++
        (crlf ++ (36 :: t ++ (crlf ++ (valueBody a ++ post)))) := by
      rw [hsplit]
      simp [hlen]
    have hpos : 0 < f'.length := by
      cases hf'
      simp
    rcases parseReplySeg_before hreply (by omega) hat' hseg with
      hbefore | ⟨-, -, hcr, hn, -⟩
    · rw [hlen] at hbefore
      omega
    · rw [hlen] at hcr
      rcases Nat.lt_or_ge d' (e' + 2) with hlt | hge
      · have hlt' := dollar_lt_crlf hends' hat' hlt
        have hle := find_min (by decide) hcr hlt'.le hends'
        omega
      · obtain rfl : d' = e' + 2 := by omega
        cases hf' with
        | @mk t' a' hnum' =>
          have hline : reply.drop (e' + 2) = (36 :: t') ++ (crlf ++ (valueBody a' ++ post')) := by
            rw [← hpost']
            simp
          obtain ⟨hfind, -, hread⟩ := line_of_isNumber (by decide) hnum' hline
          have hcr' := Option.some.inj (hcr.symm.trans hfind)
          cases a' with
          | none =>
            rw [hread] at hn
            exact hn rfl
          | some v =>
            simp only [valueBody, List.length_append, crlf, List.length_cons, List.length_nil]
              at hstop hcr'
            omega

theorem strictAnswers_succ (hd : find [36] reply idx = some d) :
    StrictAnswers reply (k + 1) idx s ↔
      d = s ∧ StrictValue 0 reply d ∧ StrictAnswers reply k (d + 1) (valueStop reply d) ∨
        d ≠ s ∧ k = 0 ∧ NullLine reply s ∧ (strtol (reply.drop (d + 1))).1 ≠ -1 := by
  simp [StrictAnswers, hd]

/-- The answers that the loop takes are values and nothing else when nothing unchecked is
wrong with them. -/
theorem values_iff_strict {e : ℕ} (hinv : AnswersInv reply idx e)
    (h : parseAnswers reply (k + 1) idx size out = ⟨0, some stop, out'⟩) :
    Values reply (e + 2) (k + 1) stop ↔ StrictAnswers reply (k + 1) idx (e + 2) := by
  induction k generalizing idx size out e with
  | zero =>
    obtain ⟨d, len, segOut, hd, hseg, heq⟩ := parseAnswers_succ (by rw [h])
    obtain ⟨hcase, hstop⟩ := parseReplySeg_valueCase hseg
    have hsize : stop = d + len := by
      rw [h, parseAnswers, Parsed.mk.injEq, Option.some.injEq] at heq
      omega
    rw [strictAnswers_succ hd]
    by_cases hs : d = e + 2
    · subst hs
      have hat := ((find_eq_some_iff (List.cons_ne_nil _ _)).mp hd).2.1
      rw [values_succ_of_valueCase (singleton_prefix_drop_iff.mp hat) hcase, values_zero]
      simp [StrictAnswers, hsize, hstop]
    · rw [hsize, values_one_of_missed hinv hd hs hseg]
      simp [hs]
  | succ k ih =>
    obtain ⟨d, len, segOut, hd, hseg, heq⟩ := parseAnswers_succ (by rw [h])
    obtain ⟨hcase, -⟩ := parseReplySeg_valueCase hseg
    rw [strictAnswers_succ hd]
    by_cases hs : d = e + 2
    · subst hs
      have hat := singleton_prefix_drop_iff.mp ((find_eq_some_iff (List.cons_ne_nil _ _)).mp hd).2.1
      have hstep : StrictValue 0 reply (e + 2) →
          (Values reply (valueStop reply (e + 2)) (k + 1) stop ↔
            StrictAnswers reply (k + 1) (e + 2 + 1) (valueStop reply (e + 2))) := by
        intro hstrict
        obtain ⟨e', he', hinv'⟩ := answersInv_value hat hcase hstrict
        rw [he']
        exact ih hinv' (heq.symm.trans h)
      rw [values_succ_of_valueCase hat hcase, and_congr_right hstep]
      simp
    · simp [not_values_of_missed hinv hd hs h, hs]

end answers

section replies

variable {reply out out' w : List UInt8} {c k m s : ℕ}

def StrictReply (reply : List UInt8) : Prop :=
  (reply.head? = some 58 → ∃ n, IsNumber (lineText reply 0) n) ∧
    (reply.head? = some 36 → StrictValue 2 reply 0) ∧
    (reply.head? = some 42 → (∃ n, IsNumber (lineText reply 0) n) ∧
      ((strtol (reply.drop 1)).1 = -1 ∨
        StrictAnswers reply (strtol (reply.drop 1)).1.toNat 0 (lineStop reply 0 + 2)))

theorem isReply_integer_iff : IsReply (58 :: w) ↔ ∃ t n, IsNumber t n ∧ w = t ++ crlf := by
  constructor
  · intro h
    generalize hv : 58 :: w = v at h
    cases h with
    | integer h => exact ⟨_, _, h, (List.cons.inj hv).2⟩
    | bulk h =>
      cases h
      cases hv
    | _ => cases hv
  · rintro ⟨t, n, h, rfl⟩
    exact .integer h

theorem isReply_bulk_iff : IsReply (36 :: w) ↔ IsValue (36 :: w) := by
  refine ⟨fun h => ?_, .bulk⟩
  generalize hv : 36 :: w = v at h
  cases h with
  | bulk h => exact h
  | _ => cases hv

theorem isReply_multiBulk_iff : IsReply (42 :: w) ↔ ∃ t u n, IsNumber t n ∧ w = t ++ (crlf ++ u) ∧
    (n = -1 ∧ u = [] ∨
      ∃ ws : List (List UInt8), n = ws.length ∧ (∀ w ∈ ws, IsValue w) ∧ u = ws.flatten) := by
  constructor
  · intro h
    generalize hv : 42 :: w = v at h
    cases h with
    | nullMultiBulk h => exact ⟨_, [], _, h, by simpa using (List.cons.inj hv).2, .inl ⟨rfl, rfl⟩⟩
    | multiBulk h hws => exact ⟨_, _, _, h, (List.cons.inj hv).2, .inr ⟨_, rfl, hws, rfl⟩⟩
    | bulk h =>
      cases h
      cases hv
    | _ => cases hv
  · rintro ⟨t, u, n, h, rfl, ⟨rfl, rfl⟩ | ⟨ws, rfl, hws, rfl⟩⟩
    · exact .nullMultiBulk h
    · exact .multiBulk h hws

theorem parseBulk_valueCase (hcr : find crlf reply 0 = some c)
    (h : parseBulk reply c out = ⟨0, some k, out'⟩) :
    ValueCase 2 reply 0 ∧ k = valueStop reply 0 := by
  unfold parseBulk at h
  simp only at h
  split_ifs at h with hbad hn
  · cases h
  · refine ⟨.null hcr hn, ?_⟩
    rw [valueStop, if_pos hn, lineStop_of_find hcr]
    exact (Option.some.inj (congrArg Parsed.size h)).symm
  · simp only [not_or] at hbad
    cases hsecond : find crlf reply (c + 1) with
    | none =>
      rw [hsecond] at h
      cases h
    | some c' =>
      simp only [hsecond] at h
      split_ifs at h with hlen
      · cases h
      · refine ⟨.value hcr hn hbad.1 hsecond ?_, ?_⟩
        · have htwo : (c' : ℤ) - c - 2 + (2 : ℕ) = c' - c := Int.sub_add_cancel _ 2
          rw [htwo, not_not.mp hlen, add_comm]
          rfl
        · rw [valueStop, if_neg hn, lineStop_of_find hcr, lineStop_of_find hsecond]
          exact (Option.some.inj (congrArg Parsed.size h)).symm

theorem valueStop_le {off : ℕ} (h : ValueCase off reply s) : valueStop reply s ≤ reply.length := by
  cases h with
  | null hcr hn =>
    rw [valueStop, if_pos hn, lineStop_of_find hcr]
    exact (find_bound hcr).2
  | value hcr hn hmax hsecond hlen =>
    rw [valueStop, if_neg hn, lineStop_of_find hcr, lineStop_of_find hsecond]
    exact (find_bound hsecond).2

theorem parseAnswers_le {idx size : ℕ} (hsize : idx + size ≤ reply.length + 1)
    (h : parseAnswers reply m idx size out = ⟨0, some k, out'⟩) : k ≤ reply.length := by
  induction m generalizing idx size out with
  | zero =>
    have hk : idx + size - 1 = k := Option.some.inj (congrArg Parsed.size h)
    omega
  | succ m ih =>
    obtain ⟨d, len, segOut, -, hseg, heq⟩ := parseAnswers_succ (by rw [h])
    obtain ⟨hcase, hstop⟩ := parseReplySeg_valueCase hseg
    have hle := valueStop_le hcase
    exact ih (by omega) (heq.symm.trans h)

theorem isValue_take_iff (hat : reply[0]? = some 36) (hcase : ValueCase 2 reply 0) :
    IsValue (reply.take (valueStop reply 0)) ↔ StrictValue 2 reply 0 := by
  constructor
  · intro h
    exact (valueStop_of_isValue hcase h (List.take_prefix _ _)).1
  · intro hstrict
    obtain ⟨w, hw, hpre, hlen⟩ := isValue_of_strict hat hcase hstrict
    rw [Nat.zero_add] at hlen
    have htake : w = reply.take w.length := List.prefix_iff_eq_take.mp hpre
    rwa [← hlen, ← htake]

theorem isReply_take_bulk (hat : reply[0]? = some 36) :
    IsReply (reply.take (valueStop reply 0)) ↔ IsValue (reply.take (valueStop reply 0)) := by
  obtain ⟨j, hj⟩ : ∃ j, valueStop reply 0 = j + 1 := by
    unfold valueStop
    split_ifs <;> exact ⟨_, rfl⟩
  obtain ⟨b, bs, rfl⟩ := List.exists_cons_of_ne_nil (l := reply) (by rintro rfl; cases hat)
  obtain rfl : b = 36 := Option.some.inj hat
  rw [hj, List.take_succ_cons, isReply_bulk_iff]

theorem isReply_take_iff (hat : reply[0]? = some 42) (hcr : find crlf reply 0 = some c)
    (hk : k ≤ reply.length) : IsReply (reply.take k) ↔
      ∃ n, IsNumber (lineText reply 0) n ∧
        (n = -1 ∧ k = c + 2 ∨ ∃ m : ℕ, n = m ∧ Values reply (c + 2) m k) := by
  obtain ⟨rest, hline, hstop, hrest⟩ := drop_line hat (by decide) hcr
  rw [List.drop_zero] at hline
  rw [Nat.zero_add] at hstop
  constructor
  · intro h
    obtain ⟨w, hw⟩ : ∃ w, reply.take k = 42 :: w := by
      cases k with
      | zero =>
        rw [List.take_zero] at h
        cases h with
        | bulk h => cases h
      | succ k => exact ⟨_, by rw [hline, List.cons_append, List.take_succ_cons]⟩
    rw [hw] at h
    obtain ⟨t, u, n, ht, rfl, hu⟩ := isReply_multiBulk_iff.mp h
    have hsplit : reply = (42 :: t) ++ (crlf ++ (u ++ reply.drop k)) := by
      conv_lhs => rw [← List.take_append_drop k reply, hw]
      simp
    have hlen : k = (42 :: t).length + 2 + u.length := by
      rw [← List.length_take_of_le hk, hw]
      simp [crlf]
      omega
    obtain ⟨hfind, htext, -⟩ := line_of_isNumber (by decide) ht
      (show reply.drop 0 = _ from hsplit)
    obtain rfl := Option.some.inj (hcr.symm.trans hfind)
    refine ⟨n, htext ▸ ht, ?_⟩
    rcases hu with ⟨rfl, rfl⟩ | ⟨ws, rfl, hws, rfl⟩
    · exact .inl ⟨rfl, by simpa using hlen⟩
    · refine .inr ⟨ws.length, rfl, ws, rfl, hws, ⟨reply.drop k, ?_⟩, by omega⟩
      conv_rhs => rw [hsplit]
      rw [Nat.zero_add, List.drop_length_add_append]
      rfl
  · rintro ⟨n, hn, hvalues⟩
    obtain ⟨u, ⟨post, hpost⟩, rfl, hu⟩ : ∃ u, u <+: rest ∧ c + 2 + u.length = k ∧
        (n = -1 ∧ u = [] ∨
          ∃ ws : List (List UInt8), n = ws.length ∧ (∀ w ∈ ws, IsValue w) ∧ u = ws.flatten) := by
      rcases hvalues with ⟨hnull, rfl⟩ | ⟨m, rfl, ws, rfl, hws, hpre, hend⟩
      · exact ⟨[], List.nil_prefix, rfl, .inl ⟨hnull, rfl⟩⟩
      · exact ⟨ws.flatten, hrest ▸ hpre, hend, .inr ⟨ws, rfl, hws, rfl⟩⟩
    have hsplit : reply = (42 :: (lineText reply 0 ++ (crlf ++ u))) ++ post :=
      hline.trans (by simp [← hpost])
    have htake : reply.take (c + 2 + u.length) = 42 :: (lineText reply 0 ++ (crlf ++ u)) := by
      conv_lhs => rw [hsplit]
      refine List.take_left' ?_
      rw [← hstop]
      simp [crlf]
      omega
    rw [htake, isReply_multiBulk_iff]
    exact ⟨_, u, n, hn, rfl, hu⟩

theorem parseMultiBulk_strict_iff (hat : reply[0]? = some 42) (hcr : find crlf reply 0 = some c)
    (h : parseMultiBulk reply c out = ⟨0, some k, out'⟩) :
    k ≤ reply.length ∧ (IsReply (reply.take k) ↔ (∃ n, IsNumber (lineText reply 0) n) ∧
      ((strtol (reply.drop 1)).1 = -1 ∨
        StrictAnswers reply (strtol (reply.drop 1)).1.toNat 0 (lineStop reply 0 + 2))) := by
  obtain ⟨rest, hline, -, -⟩ := drop_line hat (by decide) hcr
  have hread : ∀ {n : ℤ}, IsNumber (lineText reply 0) n →
      (strtol (reply.drop 1)).1 = max longMin (min longMax n) :=
    fun hn => (line_of_isNumber (by decide) hn hline).2.2
  unfold parseMultiBulk at h
  simp only at h
  split_ifs at h with hbad hn hneg
  · cases h
  · have hk : c + 2 = k := Option.some.inj (congrArg Parsed.size h)
    have hle : k ≤ reply.length := hk ▸ (find_bound hcr).2
    refine ⟨hle, ?_⟩
    rw [isReply_take_iff hat hcr hle]
    constructor
    · rintro ⟨n, hnum, -⟩
      exact ⟨⟨n, hnum⟩, .inl hn⟩
    · rintro ⟨⟨n, hnum⟩, -⟩
      have hread := hread hnum
      refine ⟨n, hnum, .inl ⟨?_, hk.symm⟩⟩
      unfold longMin longMax at hread
      omega
  · cases h
  · have hle : k ≤ reply.length := parseAnswers_le (by omega) h
    refine ⟨hle, ?_⟩
    rw [isReply_take_iff hat hcr hle]
    have hsmall : (strtol (reply.drop 1)).1 < 2 ^ 31 := by
      by_contra hlarge
      rw [rounds, if_neg hlarge] at h
      exact parseAnswers_ret_ne_zero _ _ (Nat.zero_le _) (by omega) (congrArg Parsed.ret h)
    obtain ⟨m, hm⟩ : ∃ m : ℕ, (strtol (reply.drop 1)).1 = (m + 1 : ℕ) :=
      ⟨(strtol (reply.drop 1)).1.toNat - 1, by omega⟩
    rw [rounds, if_pos hsmall, hm, Int.toNat_natCast] at h
    have hiff := values_iff_strict (answersInv_of_find hcr le_rfl (Nat.zero_le _)) h
    rw [hm, Int.toNat_natCast, lineStop_of_find hcr, ← hiff]
    have hvalue : ∀ {n : ℤ}, IsNumber (lineText reply 0) n → n = (m + 1 : ℕ) := by
      intro n hnum
      have hread := hread hnum
      unfold longMin longMax at hread
      omega
    constructor
    · rintro ⟨n, hnum, ⟨rfl, -⟩ | ⟨m', rfl, hvalues⟩⟩
      · exact absurd (hvalue hnum) (by omega)
      · have hcount := hvalue hnum
        refine ⟨⟨_, hnum⟩, .inr ?_⟩
        rwa [Int.natCast_inj.mp hcount] at hvalues
    · rintro ⟨⟨n, hnum⟩, hnull | hvalues⟩
      · omega
      · exact ⟨n, hnum, .inr ⟨m + 1, hvalue hnum, hvalues⟩⟩

theorem take_line {b : UInt8} (hat : reply[0]? = some b) (hb : b ≠ 13)
    (hcr : find crlf reply 0 = some c) :
    reply.take (c + 2) = b :: (lineText reply 0 ++ crlf) ∧ NoCrlf (lineText reply 0) := by
  obtain ⟨rest, hline, hstop, -⟩ := drop_line hat hb hcr
  rw [List.drop_zero] at hline
  rw [Nat.zero_add] at hstop
  constructor
  · have hsplit : reply = (b :: (lineText reply 0 ++ crlf)) ++ rest := hline.trans (by simp)
    conv_lhs => rw [hsplit]
    refine List.take_left' ?_
    rw [← hstop]
    simp [crlf]
  · rintro ⟨p, q, hpq⟩
    have hpre : crlf <+: reply.drop (b :: p).length := by
      have hsplit : reply = (b :: p) ++ (crlf ++ (q ++ (crlf ++ rest))) :=
        hline.trans (by simp [← hpq])
      conv_rhs => rw [hsplit]
      rw [List.drop_left]
      exact List.prefix_append _ _
    have hle := find_min (by decide) hcr (Nat.zero_le _) hpre
    rw [← hstop, ← hpq] at hle
    simp only [List.length_append, crlf, List.length_cons, List.length_nil] at hle
    omega

/-- A reply that the parser takes lies in the buffer, and it is one reply exactly when nothing that
the parser leaves unchecked is wrong with it. -/
theorem parseReply_isReply_iff (reply out : List UInt8) (k : ℕ)
    (hret : (parseReply reply out).1.ret = 0) (hsize : (parseReply reply out).1.size = some k) :
    k ≤ reply.length ∧ IsReply (reply.take k) ↔ StrictReply reply := by
  cases reply with
  | nil => cases hret
  | cons b bs =>
    cases hcr : find crlf (b :: bs) 0 with
    | none =>
      simp only [parseReply, hcr] at hret
      cases hret
    | some c =>
      have hparse := Reply.parseReply_cons hcr out
      generalize (parseReply (b :: bs) out).1 = parsed at hret hsize hparse
      obtain ⟨ret, size, out'⟩ := parsed
      obtain rfl := hret
      obtain rfl := hsize
      have hhead : (b :: bs).head? = some b := rfl
      have hat : (b :: bs)[0]? = some b := rfl
      have hle : c + 2 ≤ (b :: bs).length := (find_bound hcr).2
      simp only [StrictReply, hhead, Option.some.injEq]
      split_ifs at hparse with h42 h36 h58 h43 h45
      · subst h42
        obtain ⟨hle, hiff⟩ := parseMultiBulk_strict_iff hat hcr hparse.symm
        rw [and_iff_right hle, hiff]
        simp
      · subst h36
        obtain ⟨hcase, rfl⟩ := parseBulk_valueCase hcr hparse.symm
        rw [and_iff_right (valueStop_le hcase), isReply_take_bulk hat, isValue_take_iff hat hcase]
        simp
      · subst h58
        obtain rfl : k = c + 2 := Option.some.inj (congrArg Parsed.size hparse)
        rw [and_iff_right hle, (take_line hat (by decide) hcr).1, isReply_integer_iff]
        simp
      · subst h43
        obtain rfl : k = c + 2 := Option.some.inj (congrArg Parsed.size hparse)
        obtain ⟨htake, htext⟩ := take_line hat (by decide) hcr
        rw [and_iff_right hle, htake]
        exact iff_of_true (.status htext) (by simp)
      · subst h45
        obtain rfl : k = c + 2 := Option.some.inj (congrArg Parsed.size hparse)
        obtain ⟨htake, htext⟩ := take_line hat (by decide) hcr
        rw [and_iff_right hle, htake]
        exact iff_of_true (.error htext) (by simp)
      · cases hparse

theorem parseReply_isReply_twoAnswers :
    16 ≤ (ascii "*2\r\n$1\r\na\r\n$-1\r\n+").length ∧
      IsReply ((ascii "*2\r\n$1\r\na\r\n$-1\r\n+").take 16) := by
  have hone : IsNumber [49] 1 := .nonneg (by decide) (by simp [isDigit])
  have htwo : IsNumber [50] 2 := .nonneg (by decide) (by simp [isDigit])
  have hnull : IsNumber [45, 49] (-1) := .neg (by decide) (by simp [isDigit])
  refine (parseReply_isReply_iff _ [] 16 (by decide) (by decide)).mpr
    ⟨fun h => absurd h (by decide), fun h => absurd h (by decide),
      fun _ => ⟨⟨2, htwo⟩, .inr ⟨4, by decide, .inl ⟨by decide, ?_, ?_⟩⟩⟩⟩
  · exact ⟨⟨1, hone⟩, .inr (by decide)⟩
  · exact ⟨11, by decide, .inl ⟨by decide, ⟨⟨-1, hnull⟩, .inl (by decide)⟩, trivial⟩⟩

/-- The parser takes `*1\r\n:5\r\n$1\r\na\r\n` as one answer, although it holds two other
replies. -/
theorem parseReply_skips_integer :
    (parseReply (ascii "*1\r\n:5\r\n$1\r\na\r\n") []).1 = ⟨0, some 15, ascii "1\x01a"⟩ ∧
      ¬ IsReply ((ascii "*1\r\n:5\r\n$1\r\na\r\n").take 15) := by
  refine ⟨by decide, ?_⟩
  have hcr : find crlf (ascii "*1\r\n:5\r\n$1\r\na\r\n") 0 = some 2 := by decide
  rw [isReply_take_iff rfl hcr (by decide)]
  rintro ⟨n, -, ⟨-, hk⟩ | ⟨m, -, hvalues⟩⟩
  · cases hk
  · cases m with
    | zero => cases values_zero.mp hvalues
    | succ m =>
      obtain ⟨w, hw, hat, -⟩ := values_succ.mp hvalues
      have hcolon : (ascii "*1\r\n:5\r\n$1\r\na\r\n")[4]? = some 58 := by decide
      rw [hw.head hat] at hcolon
      cases hcolon

end replies

end Magneto.RedisParser
