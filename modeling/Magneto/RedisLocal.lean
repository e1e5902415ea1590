import Magneto.RedisAccept
import Mathlib.Data.List.Infix
import Mathlib.Data.List.TakeWhile

/-!
# What the parser looks at

`ParseReply` searches and reads numbers in the whole buffer. Whether its answer depends
on the bytes of the reply alone is a matter of where the searches and the numbers stop.
-/

namespace Magneto.RedisParser

section congr

variable {a b pat : List UInt8} {c d e j k start : ℕ}

theorem prefix_drop_take (h : d + pat.length ≤ k) :
    pat <+: a.drop d ↔ pat <+: (a.take k).drop d := by
  rw [List.prefix_iff_eq_take, List.prefix_iff_eq_take, List.drop_take, List.take_take,
    min_eq_left (by omega)]

theorem find_congr (hab : a.take k = b.take k) (hpat : pat ≠ []) (hj : j + pat.length ≤ k)
    (h : find pat a start = some j) : find pat b start = some j := by
  have hat : ∀ i ≤ j, (pat <+: a.drop i ↔ pat <+: b.drop i) := by
    intro i hi
    rw [prefix_drop_take (by omega : i + pat.length ≤ k), hab, ← prefix_drop_take (by omega)]
  rw [find_eq_some_iff hpat] at h ⊢
  obtain ⟨hle, hfound, hfirst⟩ := h
  exact ⟨hle, (hat j le_rfl).mp hfound, fun i hi hlt hb => hfirst i hi hlt ((hat i hlt.le).mpr hb)⟩

theorem find_crlf_congr (hab : a.take k = b.take k) (hj : j + 2 ≤ k)
    (h : find crlf a start = some j) : find crlf b start = some j :=
  find_congr hab (by decide) hj h

theorem getElem?_congr (hab : a.take k = b.take k) (hd : d < k) : a[d]? = b[d]? := by
  rw [← List.getElem?_take_of_lt hd, hab, List.getElem?_take_of_lt hd]

theorem strtol_blank (h : ∀ b ∈ a, isSpace b = true) : strtol a = (0, 0) := by
  have hspaces : a.takeWhile isSpace = a := List.takeWhile_eq_self_iff.mpr h
  simp [strtol, hspaces]

theorem takeWhile_isDigit_crlf (w x : List UInt8) :
    (w ++ (crlf ++ x)).takeWhile isDigit = w.takeWhile isDigit := by
  induction w with
  | nil => simp [crlf, isDigit]
  | cons b w ih =>
    simp only [List.cons_append, List.takeWhile_cons, ih]

theorem exists_first_not_space {w : List UInt8} (hw : ∃ b ∈ w, isSpace b = false) :
    ∃ spaces first rest, w = spaces ++ first :: rest ∧ (∀ b ∈ spaces, isSpace b = true) ∧
      isSpace first = false := by
  obtain ⟨byte, hbyte, hspace⟩ := hw
  have hne : w.dropWhile isSpace ≠ [] := by
    intro hnil
    have hall := List.dropWhile_eq_nil_iff.mp hnil byte hbyte
    rw [hspace] at hall
    cases hall
  obtain ⟨first, rest, hrest⟩ := List.exists_cons_of_ne_nil hne
  have hfirst := List.head_dropWhile_not isSpace hne
  simp only [hrest, List.head_cons] at hfirst
  refine ⟨w.takeWhile isSpace, first, rest, ?_, fun b => List.mem_takeWhile_imp, hfirst⟩
  rw [← hrest, List.takeWhile_append_dropWhile]

theorem strtol_append_crlf {w : List UInt8} (hw : ∃ b ∈ w, isSpace b = false) (x : List UInt8) :
    strtol (w ++ (crlf ++ x)) = strtol (w ++ (crlf ++ [])) := by
  obtain ⟨spaces, first, rest, rfl, hspaces, hfirst⟩ := exists_first_not_space hw
  have htake : ∀ z, (spaces ++ first :: rest ++ z).takeWhile isSpace = spaces := by
    intro z
    rw [List.append_assoc, List.takeWhile_append_of_pos hspaces]
    simp [hfirst]
  have hdrop : ∀ z, (spaces ++ first :: rest ++ z).drop spaces.length = first :: rest ++ z := by
    intro z
    rw [List.append_assoc, List.drop_left]
  have hdigits : ∀ z (signed : Prop) [Decidable signed],
      ((first :: (rest ++ (crlf ++ z))).drop (if signed then 1 else 0)).takeWhile isDigit =
        ((first :: rest).drop (if signed then 1 else 0)).takeWhile isDigit := by
    intro z signed _
    split_ifs
    · exact takeWhile_isDigit_crlf rest z
    · exact takeWhile_isDigit_crlf (first :: rest) z
  simp only [strtol, htake, hdrop, List.cons_append, List.head?_cons, hdigits]

theorem take_line_end (hends : crlf <+: a.drop e) : a.take (e + 2) = a.take e ++ crlf := by
  obtain ⟨rest, hrest⟩ := hends
  rw [List.take_add, ← hrest]
  rfl

/-- The number that `strtol` reads after the byte at `start` begins before `stop`. -/
def NumberBefore (reply : List UInt8) (start stop : ℕ) : Prop :=
  ∃ b ∈ (reply.take stop).drop (start + 1), isSpace b = false

theorem NumberBefore.on_line (hends : crlf <+: a.drop e) (h : NumberBefore a d (e + 2)) :
    d + 1 ≤ e ∧ ∃ b ∈ (a.take e).drop (d + 1), isSpace b = false := by
  obtain ⟨byte, hbyte, hspace⟩ := h
  have hcrlf : byte ∉ crlf := by
    intro hmem
    rcases List.mem_cons.mp hmem with rfl | hmem
    · cases hspace
    · obtain rfl := List.mem_singleton.mp hmem
      cases hspace
  rw [take_line_end hends, List.drop_append, List.mem_append] at hbyte
  have hmem := hbyte.resolve_right fun hmem => hcrlf (List.mem_of_mem_drop hmem)
  refine ⟨?_, byte, hmem, hspace⟩
  have hpos := List.length_pos_of_mem hmem
  rw [List.length_drop, List.length_take] at hpos
  omega

theorem drop_of_take_eq (hends : crlf <+: a.drop e) (hd : d ≤ e)
    (hab : a.take (e + 2) = b.take (e + 2)) :
    b.drop d = (a.take e).drop d ++ (crlf ++ b.drop (e + 2)) := by
  have hlen : e ≤ a.length := by
    have h := hends.length_le
    rw [List.length_drop] at h
    simp only [crlf, List.length_cons] at h
    omega
  conv_lhs => rw [← List.take_append_drop (e + 2) b, ← hab, take_line_end hends]
  rw [List.append_assoc, List.drop_append_of_le_length (by rw [List.length_take]; omega)]

theorem strtol_congr (hends : crlf <+: a.drop e) (hab : a.take (e + 2) = b.take (e + 2))
    (hnum : NumberBefore a d (e + 2)) : strtol (a.drop (d + 1)) = strtol (b.drop (d + 1)) := by
  obtain ⟨hd, hline⟩ := hnum.on_line hends
  rw [drop_of_take_eq hends hd rfl, drop_of_take_eq hends hd hab,
    strtol_append_crlf hline (a.drop _), strtol_append_crlf hline (b.drop _)]

theorem take_drop_congr {i n : ℕ} (hab : a.take k = b.take k) (h : i + n ≤ k) :
    (a.drop i).take n = (b.drop i).take n := by
  have hread : ∀ l : List UInt8, (l.drop i).take n = ((l.take k).drop i).take n := by
    intro l
    rw [List.drop_take, List.take_take, min_eq_left (by omega)]
  rw [hread a, hread b, hab]

theorem parseReplySeg_congr {len : ℕ} {out segOut : List UInt8} (hends : crlf <+: a.drop e)
    (hab : a.take (e + 2) = b.take (e + 2)) (hnum : NumberBefore a d (e + 2))
    (h : parseReplySeg a d out = ⟨0, some len, segOut⟩) (hlen : d + len ≤ e + 2) :
    parseReplySeg b d out = ⟨0, some len, segOut⟩ := by
  have hstr := strtol_congr hends hab hnum
  have hcase := parseReplySeg_cases (show (parseReplySeg a d out).ret = 0 by rw [h])
  rw [← h]
  rw [h] at hcase
  cases hcase with
  | @null c hcr hn =>
    have hbound := find_bound hcr
    have hcr' := find_crlf_congr hab (by omega : c + 2 ≤ e + 2) hcr
    simp only [parseReplySeg, hcr, hcr', ← hstr, hn, ↓reduceIte]
  | @value c c' hcr hn hpos hmax hsecond hnarrow =>
    have hbound := find_bound hcr
    have hnext := next_line_le hcr hsecond
    have hcr' := find_crlf_congr hab (by omega : c + 2 ≤ e + 2) hcr
    have hsecond' := find_crlf_congr hab (by omega : c' + 2 ≤ e + 2) hsecond
    have hle := narrow_le_of_nonneg (show (0 : ℤ) ≤ (c' : ℤ) - c - 2 by omega)
    have hbody := take_drop_congr hab (show c + 2 + (strtol (a.drop (d + 1))).1.toNat ≤ e + 2 by
      omega)
    simp only [parseReplySeg, hcr, hcr', hsecond, hsecond', ← hstr, hbody]

end congr

section loop

variable {a b out out' : List UInt8} {d e idx k last m size : ℕ}

theorem dollars_self (a : List UInt8) (d : ℕ) : dollars a d d = 0 := by
  rw [dollars, List.drop_of_length_le (List.length_take_le d a), List.count_nil]

theorem dollars_take (h : d ≤ k) : dollars (a.take k) idx d = dollars a idx d := by
  rw [dollars, dollars, List.take_take, min_eq_left h]

theorem dollars_find (hd : find [36] a idx = some d) (hlt : d < last) :
    dollars a idx last = dollars a (d + 1) last + 1 := count_dollar hd hlt

theorem lt_valueStop (hd : d < a.length) : d < valueStop a d := by
  have hline : ∀ start, d ≤ start → d ≤ lineStop a start := by
    intro start hle
    unfold lineStop
    cases hfind : find crlf a start with
    | none => exact hd.le
    | some c => exact hle.trans (find_bound hfind).1
  have hfirst := hline d le_rfl
  have hsecond := hline (lineStop a d + 1) (by omega)
  unfold valueStop
  split_ifs <;> omega

theorem numberBefore_of_dollar (hlast : a[last]? = some 36) (hd : d < last) (hlt : last < k) :
    NumberBefore a d k := by
  refine ⟨36, List.mem_iff_getElem?.mpr ⟨last - (d + 1), ?_⟩, by decide⟩
  rw [List.getElem?_drop, Nat.add_sub_cancel' hd, List.getElem?_take_of_lt hlt, hlast]

theorem parseAnswers_end (h : parseAnswers a (m + 1) idx size out = ⟨0, some k, out'⟩) :
    ∃ last, idx ≤ last ∧ a[last]? = some 36 ∧ dollars a idx (last + 1) = m + 1 ∧
      ValueCase 0 a last ∧ valueStop a last = k := by
  induction m generalizing idx size out with
  | zero =>
    obtain ⟨d, len, segOut, hd, hseg, heq⟩ := parseAnswers_succ (by rw [h])
    obtain ⟨hidx, hat, -⟩ := (find_eq_some_iff (List.cons_ne_nil _ _)).mp hd
    obtain ⟨hcase, hstop⟩ := parseReplySeg_valueCase hseg
    have hcount := dollars_find hd (Nat.lt_succ_self d)
    rw [dollars_self] at hcount
    have hk : d + 1 + len - 1 = k := Option.some.inj (congrArg Parsed.size (heq.symm.trans h))
    exact ⟨d, hidx, singleton_prefix_drop_iff.mp hat, hcount, hcase, by omega⟩
  | succ m ih =>
    obtain ⟨d, len, segOut, hd, -, heq⟩ := parseAnswers_succ (by rw [h])
    obtain ⟨last, hle, hlast, hcount, hcase, hstop⟩ := ih (heq.symm.trans h)
    have hidx := (find_bound hd).1
    refine ⟨last, by omega, hlast, ?_, hcase, hstop⟩
    have hmore := dollars_find hd (show d < last + 1 by omega)
    omega

theorem parseAnswers_seg (h : (parseAnswers a m idx size out).ret = 0) (he : a[e]? = some 36)
    (hidx : idx ≤ e) (hcount : dollars a idx (e + 1) ≤ m) :
    ∃ out' len segOut, parseReplySeg a e out' = ⟨0, some len, segOut⟩ := by
  induction m generalizing idx size out with
  | zero =>
    have hpos : 0 < dollars a e (e + 1) := dollars_pos he (Nat.lt_succ_self e)
    have hadd : dollars a idx (e + 1) = _ := dollars_add hidx (Nat.le_succ e)
    omega
  | succ m ih =>
    obtain ⟨d, len, segOut, hd, hseg, heq⟩ := parseAnswers_succ h
    by_cases hne : d = e
    · subst hne
      exact ⟨out, len, segOut, hseg⟩
    · have hlt := dollar_lt_of_ne hd he hidx hne
      have hmore := dollars_find hd (show d < e + 1 by omega)
      exact ih (heq ▸ h) (by omega) (by omega)

theorem parseAnswers_congr (hends : crlf <+: a.drop e) (hab : a.take (e + 2) = b.take (e + 2))
    (hlast : a[last]? = some 36) (hnum : NumberBefore a last (e + 2))
    (hall : ∀ d, idx ≤ d → d ≤ last → a[d]? = some 36 → valueStop a d ≤ e + 2)
    (hcount : dollars a idx (last + 1) = m)
    (h : parseAnswers a m idx size out = ⟨0, some k, out'⟩) :
    parseAnswers b m idx size out = ⟨0, some k, out'⟩ := by
  induction m generalizing idx size out with
  | zero => exact h
  | succ m ih =>
    obtain ⟨d, len, segOut, hd, hseg, heq⟩ := parseAnswers_succ (by rw [h])
    obtain ⟨hidx, hat, -⟩ := (find_eq_some_iff (List.cons_ne_nil _ _)).mp hd
    have hdle : d < last + 1 := dollar_lt hd (by unfold dollars at hcount; omega)
    have hmore := dollars_find hd hdle
    obtain ⟨hlen, -⟩ := List.getElem?_eq_some_iff.mp hlast
    have hend := hall d hidx (by omega) (singleton_prefix_drop_iff.mp hat)
    have hlt := lt_valueStop (show d < a.length by omega)
    have hnumber : NumberBefore a d (e + 2) := by
      rcases (Nat.lt_succ_iff.mp hdle).eq_or_lt with rfl | hbefore
      · exact hnum
      · -- the number of an answer before the last one ends at the last `$` or before it
        have hstop := hall last (by omega) le_rfl hlast
        exact numberBefore_of_dollar hlast hbefore ((lt_valueStop hlen).trans_le hstop)
    have hd' : find [36] b idx = some d :=
      find_congr hab (List.cons_ne_nil _ _) (by rw [List.length_singleton]; omega) hd
    have hseg' := parseReplySeg_congr hends hab hnumber hseg
      ((parseReplySeg_valueCase hseg).2.trans_le hend)
    have hrest := ih (fun d' hle => hall d' (by omega)) (by omega) (heq.symm.trans h)
    rw [parseAnswers, hd']
    simp only [hseg', ne_eq, not_true_eq_false, ↓reduceIte, Option.getD_some]
    exact hrest

end loop

section replies

variable {a b out out' : List UInt8} {c d e k off : ℕ}

def LastAnswer (reply : List UInt8) (last : ℕ) : Prop :=
  reply[last]? = some 36 ∧ (dollars reply 0 (last + 1) : ℤ) = (strtol (reply.drop 1)).1

def AnswersContained (reply : List UInt8) : Prop :=
  if (strtol (reply.drop 1)).1 = -1 then NumberBefore reply 0 (valueStop reply 0)
  else ∃ last, LastAnswer reply last ∧ NumberBefore reply last (valueStop reply last) ∧
    ∀ d < last, reply[d]? = some 36 → valueStop reply d ≤ valueStop reply last

/-- All that the parser looks at belongs to the reply. -/
def SelfContained (reply : List UInt8) : Prop :=
  (reply.head? = some 43 → ascii "PONG" <:+: lineText reply 0) ∧
    (reply.head? = some 36 →
      NumberBefore reply 0 (valueStop reply 0) ∧ -1 ≤ (strtol (reply.drop 1)).1) ∧
    (reply.head? = some 42 → AnswersContained reply)

theorem ValueCase.ends (h : ValueCase off a d) :
    ∃ e, valueStop a d = e + 2 ∧ crlf <+: a.drop e := by
  cases h with
  | null hcr hn =>
    refine ⟨_, ?_, ((find_eq_some_iff (by decide)).mp hcr).2.1⟩
    rw [valueStop, if_pos hn, lineStop_of_find hcr]
  | value hcr hn hmax hsecond hlen =>
    refine ⟨_, ?_, ((find_eq_some_iff (by decide)).mp hsecond).2.1⟩
    rw [valueStop, if_neg hn, lineStop_of_find hcr, lineStop_of_find hsecond]

theorem strtol_take_eq (h : ¬ NumberBefore a d k) : strtol ((a.take k).drop (d + 1)) = (0, 0) := by
  refine strtol_blank fun byte hbyte => ?_
  by_contra hspace
  exact h ⟨byte, hbyte, Bool.eq_false_iff.mpr hspace⟩

theorem valueStop_congr (hab : a.take k = b.take k) (hcase : ValueCase off b d)
    (hstr : strtol (a.drop (d + 1)) = strtol (b.drop (d + 1))) (hle : valueStop b d ≤ k) :
    valueStop a d = valueStop b d := by
  cases hcase with
  | null hcr hn =>
    rw [valueStop, if_pos hn, lineStop_of_find hcr] at hle
    have hcr' := find_crlf_congr hab.symm hle hcr
    rw [valueStop, valueStop, hstr, if_pos hn, if_pos hn, lineStop_of_find hcr,
      lineStop_of_find hcr']
  | value hcr hn hmax hsecond hlen =>
    have hnext := next_line_le hcr hsecond
    rw [valueStop, if_neg hn, lineStop_of_find hcr, lineStop_of_find hsecond] at hle
    have hcr' := find_crlf_congr hab.symm (by omega) hcr
    have hsecond' := find_crlf_congr hab.symm hle hsecond
    rw [valueStop, valueStop, hstr, if_neg hn, if_neg hn, lineStop_of_find hcr,
      lineStop_of_find hcr', lineStop_of_find hsecond, lineStop_of_find hsecond']

theorem parseMultiBulk_cases (h : parseMultiBulk a c out = ⟨0, some k, out'⟩) :
    (strtol (a.drop 1)).1 = -1 ∧ k = c + 2 ∨
      ∃ m : ℕ, (strtol (a.drop 1)).1 = (m + 1 : ℕ) ∧ m + 1 < 2 ^ 31 ∧
        parseAnswers a (m + 1) 0 0 (out ++ decimal (m + 1) ++ [kSep]) = ⟨0, some k, out'⟩ := by
  unfold parseMultiBulk at h
  simp only at h
  split_ifs at h with hbad hn hneg
  · cases h
  · exact .inl ⟨hn, (Option.some.inj (congrArg Parsed.size h)).symm⟩
  · cases h
  · right
    have hsmall : (strtol (a.drop 1)).1 < 2 ^ 31 := by
      by_contra hlarge
      rw [rounds, if_neg hlarge] at h
      exact parseAnswers_ret_ne_zero _ _ (Nat.zero_le _) (by omega) (congrArg Parsed.ret h)
    obtain ⟨m, hm⟩ : ∃ m : ℕ, (strtol (a.drop 1)).1 = (m + 1 : ℕ) :=
      ⟨(strtol (a.drop 1)).1.toNat - 1, by omega⟩
    rw [rounds, if_pos hsmall, hm, Int.toNat_natCast] at h
    exact ⟨m, hm, by omega, h⟩

theorem parseMultiBulk_congr (hstr : strtol (a.drop 1) = strtol (b.drop 1))
    (hsmall : (strtol (a.drop 1)).1 < 2 ^ 31)
    (hanswers : 0 < (strtol (a.drop 1)).1 →
      parseAnswers b (strtol (a.drop 1)).1.toNat 0 0
          (out ++ decimal (strtol (a.drop 1)).1.toNat ++ [kSep]) =
        parseAnswers a (strtol (a.drop 1)).1.toNat 0 0
          (out ++ decimal (strtol (a.drop 1)).1.toNat ++ [kSep])) :
    parseMultiBulk b c out = parseMultiBulk a c out := by
  unfold parseMultiBulk
  simp only [← hstr]
  split_ifs with hbad hn hneg
  · rfl
  · rfl
  · rfl
  · rw [rounds, rounds, if_pos hsmall, if_pos hsmall, hanswers (not_le.mp hneg)]

theorem dollars_inj {d' : ℕ} (hd : a[d]? = some 36) (hd' : a[d']? = some 36)
    (h : dollars a 0 (d + 1) = dollars a 0 (d' + 1)) : d = d' := by
  have hlt : ∀ {x y : ℕ}, a[y]? = some 36 → x < y → dollars a 0 (x + 1) < dollars a 0 (y + 1) := by
    intro x y hy hxy
    have hadd : dollars a 0 (y + 1) = _ := dollars_add (Nat.zero_le y) (Nat.le_succ y)
    have hmore : dollars a 0 y = _ := dollars_add (Nat.zero_le (x + 1)) hxy
    have hpos : 0 < dollars a y (y + 1) := dollars_pos hy (Nat.lt_succ_self y)
    omega
  rcases Nat.lt_trichotomy d d' with hdd | hdd | hdd
  · have := hlt hd' hdd
    omega
  · exact hdd
  · have := hlt hd hdd
    omega

theorem dollar_pos {last : ℕ} (hat : a[0]? = some 42) (hlast : a[last]? = some 36) : 0 < last := by
  rcases last.eq_zero_or_pos with rfl | hpos
  · rw [hat] at hlast
    cases hlast
  · exact hpos

theorem strtol_answers {last : ℕ} (hat : a[0]? = some 42) (hlast : a[last]? = some 36)
    (hlt : last < e + 2) (hends : crlf <+: a.drop e) (hab : a.take (e + 2) = b.take (e + 2)) :
    strtol (a.drop 1) = strtol (b.drop 1) :=
  strtol_congr hends hab (numberBefore_of_dollar hlast (dollar_pos hat hlast) hlt)

theorem parseMultiBulk_local (hat : a[0]? = some 42) (hcr : find crlf a 0 = some c)
    (h : parseMultiBulk a c out = ⟨0, some k, out'⟩) (hab : a.take k = b.take k)
    (hself : AnswersContained a) : parseMultiBulk b c out = ⟨0, some k, out'⟩ := by
  unfold AnswersContained at hself
  rcases parseMultiBulk_cases h with ⟨hn, rfl⟩ | ⟨m, hm, hsmall, hanswers⟩
  · rw [if_pos hn, valueStop, if_pos hn, lineStop_of_find hcr] at hself
    have hends := ((find_eq_some_iff (by decide)).mp hcr).2.1
    rw [← h]
    exact parseMultiBulk_congr (strtol_congr hends hab hself) (by omega) (by omega)
  · rw [if_neg (by omega)] at hself
    obtain ⟨last, ⟨hlast, hcount⟩, hnum, hall⟩ := hself
    obtain ⟨last', -, hlast', hcount', hcase, hstop⟩ := parseAnswers_end hanswers
    obtain rfl : last = last' := dollars_inj hlast hlast' (by omega)
    obtain ⟨e, hend, hends⟩ := hcase.ends
    obtain rfl : e + 2 = k := hend.symm.trans hstop
    obtain ⟨hlen, -⟩ := List.getElem?_eq_some_iff.mp hlast
    have hlt := lt_valueStop hlen
    rw [hstop] at hnum hall hlt
    have hcongr := parseAnswers_congr hends hab hlast hnum (fun d _ hle hd => by
      rcases hle.eq_or_lt with rfl | hdl
      · exact hstop.le
      · exact hall d hdl hd) hcount' hanswers
    rw [← h]
    refine parseMultiBulk_congr (strtol_answers hat hlast hlt hends hab) (by omega) fun _ => ?_
    rw [hm, Int.toNat_natCast, hcongr, hanswers]

theorem answersContained_of_take (hat : a[0]? = some 42) (hcr : find crlf a 0 = some c)
    (h : parseMultiBulk a c out = ⟨0, some k, out'⟩)
    (htake : parseMultiBulk (a.take k) c out = ⟨0, some k, out'⟩) : AnswersContained a := by
  unfold AnswersContained
  have hab : a.take k = (a.take k).take k := by rw [List.take_take, min_self]
  rcases parseMultiBulk_cases h with ⟨hn, rfl⟩ | ⟨m, hm, hsmall, hanswers⟩
  · rw [if_pos hn, valueStop, if_pos hn, lineStop_of_find hcr]
    by_contra hnum
    have hzero := strtol_take_eq hnum
    rw [Nat.zero_add] at hzero
    simp only [parseMultiBulk, hzero, or_true, ↓reduceIte] at htake
    cases htake
  · rw [if_neg (by omega)]
    obtain ⟨last, -, hlast, hcount, hcase, hstop⟩ := parseAnswers_end hanswers
    obtain ⟨e, hend, hends⟩ := hcase.ends
    obtain rfl : e + 2 = k := hend.symm.trans hstop
    obtain ⟨hlen, -⟩ := List.getElem?_eq_some_iff.mp hlast
    have hlt := lt_valueStop hlen
    rw [hstop] at hlt
    have hstr := strtol_answers hat hlast hlt hends hab
    have htaken : ∀ d ≤ last, a[d]? = some 36 → ∃ out' len segOut,
        parseReplySeg (a.take (e + 2)) d out' = ⟨0, some len, segOut⟩ := by
      intro d hle hd
      rcases parseMultiBulk_cases htake with ⟨hnull, -⟩ | ⟨m', hm', -, htaken⟩
      · rw [← hstr, hm] at hnull
        cases hnull
      · have hsame : m = m' := by
          rw [← hstr, hm] at hm'
          omega
        have hmono : dollars a 0 (last + 1) = _ :=
          dollars_add (Nat.zero_le (d + 1)) (Nat.succ_le_succ hle)
        refine parseAnswers_seg (congrArg Parsed.ret htaken) ?_ (Nat.zero_le d) ?_
        · rw [List.getElem?_take_of_lt (by omega), hd]
        · rw [dollars_take (by omega)]
          omega
    refine ⟨last, ⟨hlast, by omega⟩, ?_, fun d hdl hd => ?_⟩
    · rw [hstop]
      by_contra hnum
      have hzero := strtol_take_eq hnum
      obtain ⟨out₁, len, segOut, hseg⟩ := htaken last le_rfl hlast
      have hseg' := parseReplySeg_cases (show (parseReplySeg _ _ _).ret = 0 by rw [hseg])
      rw [hseg] at hseg'
      cases hseg' with
      | null hcr hn =>
        rw [hzero] at hn
        cases hn
      | value hcr hn hpos =>
        rw [hzero] at hpos
        cases hpos
    · obtain ⟨out₁, len, segOut, hseg⟩ := htaken d hdl.le hd
      obtain ⟨hcase', -⟩ := parseReplySeg_valueCase hseg
      have hle := (valueStop_le hcase').trans (List.length_take_le _ _)
      have hstr' := strtol_congr hends hab (numberBefore_of_dollar hlast hdl hlt)
      rw [valueStop_congr hab hcase' hstr' hle, hstop]
      exact hle

theorem parseBulk_out (h : parseBulk a c out = ⟨0, some k, out'⟩)
    (hn : (strtol (a.drop 1)).1 ≠ -1) :
    out' = out ++ ascii "1" ++ [kSep] ++ substr a (c + 2) (strtol (a.drop 1)).1 := by
  unfold parseBulk at h
  simp only [hn, ↓reduceIte] at h
  split_ifs at h with hbad
  · cases h
  · cases hsecond : find crlf a (c + 1) with
    | none =>
      rw [hsecond] at h
      cases h
    | some c' =>
      simp only [hsecond] at h
      split_ifs at h
      · cases h
      · exact (congrArg Parsed.out h).symm

theorem parseBulk_local (hcr : find crlf a 0 = some c)
    (h : parseBulk a c out = ⟨0, some k, out'⟩) (hab : a.take k = b.take k)
    (hnum : NumberBefore a 0 (valueStop a 0)) (hle : -1 ≤ (strtol (a.drop 1)).1) :
    parseBulk b c out = ⟨0, some k, out'⟩ := by
  obtain ⟨hcase, rfl⟩ := parseBulk_valueCase hcr h
  obtain ⟨e, hend, hends⟩ := hcase.ends
  rw [hend] at hnum hab
  have hstr := strtol_congr hends hab hnum
  rw [← h]
  cases hcase with
  | null hcr' hn => simp only [parseBulk, ← hstr, hn, ↓reduceIte]
  | @value c₁ c' hcr' hn hmax hsecond hlen =>
    obtain rfl := Option.some.inj (hcr.symm.trans hcr')
    have hnext := next_line_le hcr hsecond
    rw [valueStop, if_neg hn, lineStop_of_find hcr, lineStop_of_find hsecond] at hend
    rw [Nat.zero_add] at hn hlen
    have hsecond' := find_crlf_congr hab (by omega) hsecond
    have hnarrow := narrow_le_of_nonneg (show (0 : ℤ) ≤ (c' : ℤ) - c - 2 + (2 : ℕ) by omega)
    have hbody := take_drop_congr hab (show c + 2 + (strtol (a.drop 1)).1.toNat ≤ e + 2 by omega)
    have hnonneg : ¬ (strtol (a.drop 1)).1 < 0 := by omega
    simp only [parseBulk, hsecond, hsecond', ← hstr, substr, hnonneg, ↓reduceIte, hbody]

theorem numberBefore_of_take (hcr : find crlf a 0 = some c)
    (h : parseBulk a c out = ⟨0, some k, out'⟩)
    (htake : parseBulk (a.take k) c out = ⟨0, some k, out'⟩) :
    NumberBefore a 0 (valueStop a 0) := by
  obtain ⟨hcase, rfl⟩ := parseBulk_valueCase hcr h
  by_contra hnum
  have hzero := strtol_take_eq hnum
  rw [Nat.zero_add] at hzero
  simp only [parseBulk, hzero, or_true, ↓reduceIte] at htake
  cases htake

/-- With a negative length the value is all that follows, to the end of the buffer. -/
theorem length_of_longer (hcr : find crlf a 0 = some c)
    (h : parseBulk a c out = ⟨0, some k, out'⟩) (hnum : NumberBefore a 0 (valueStop a 0))
    (hlong : parseBulk (a ++ [0]) c out = ⟨0, some k, out'⟩) :
    -1 ≤ (strtol (a.drop 1)).1 := by
  by_contra hlt
  obtain ⟨hcase, rfl⟩ := parseBulk_valueCase hcr h
  have hstop := valueStop_le hcase
  obtain ⟨e, hend, hends⟩ := hcase.ends
  rw [hend] at hnum
  have hab : a.take (e + 2) = (a ++ [0]).take (e + 2) :=
    (List.take_append_of_le_length (by omega)).symm
  have hstr := strtol_congr hends hab hnum
  rw [Nat.zero_add] at hstr
  have hout := (parseBulk_out h (by omega)).symm.trans (parseBulk_out hlong (by rw [← hstr]; omega))
  have hneg : (strtol (a.drop 1)).1 < 0 := by omega
  have hbound : c + 2 ≤ a.length := (find_bound hcr).2
  rw [← hstr, substr, substr, if_pos hneg, if_pos hneg,
    List.drop_append_of_le_length hbound] at hout
  have hlen := congrArg List.length hout
  simp only [List.length_append, List.length_singleton] at hlen
  omega

theorem parseBulk_local_iff (hcr : find crlf a 0 = some c)
    (h : parseBulk a c out = ⟨0, some k, out'⟩)
    (htake : ∀ s, a.take k = (a.take k ++ s).take k) :
    (∀ s, parseBulk (a.take k ++ s) c out = ⟨0, some k, out'⟩) ↔
      NumberBefore a 0 (valueStop a 0) ∧ -1 ≤ (strtol (a.drop 1)).1 := by
  constructor
  · intro hall
    have htaken := hall []
    rw [List.append_nil] at htaken
    have hnum := numberBefore_of_take hcr h htaken
    -- one byte more than the buffer shows whether the value runs to its end
    have hlong := hall (a.drop k ++ [0])
    rw [← List.append_assoc, List.take_append_drop] at hlong
    exact ⟨hnum, length_of_longer hcr h hnum hlong⟩
  · rintro ⟨hnum, hlen⟩ s
    exact parseBulk_local hcr h (htake s) hnum hlen

theorem parseMultiBulk_local_iff (hat : a[0]? = some 42) (hcr : find crlf a 0 = some c)
    (h : parseMultiBulk a c out = ⟨0, some k, out'⟩)
    (htake : ∀ s, a.take k = (a.take k ++ s).take k) :
    (∀ s, parseMultiBulk (a.take k ++ s) c out = ⟨0, some k, out'⟩) ↔ AnswersContained a := by
  constructor
  · intro hall
    have htaken := hall []
    rw [List.append_nil] at htaken
    exact answersContained_of_take hat hcr h htaken
  · intro hself s
    exact parseMultiBulk_local hat hcr h (htake s) hself

theorem infix_of_append_crlf {t word : List UInt8} (hcr : 13 ∉ word) (hlf : 10 ∉ word)
    (hne : word ≠ []) (h : word <:+: t ++ crlf) : word <:+: t := by
  have hcrlf : ∀ {w : List UInt8}, w <:+: crlf → w <:+: word → w = [] := by
    intro w hw hin
    rw [List.eq_nil_iff_forall_not_mem]
    intro b hb
    rcases List.mem_cons.mp (hw.subset hb) with rfl | hmem
    · exact hcr (hin.subset hb)
    · obtain rfl := List.mem_singleton.mp hmem
      exact hlf (hin.subset hb)
  rcases List.infix_append_iff.mp h with hin | hin | ⟨w₁, w₂, rfl, hw₁, hw₂⟩
  · exact hin
  · exact absurd (hcrlf hin (List.infix_refl _)) hne
  · obtain rfl := hcrlf hw₂.isInfix (List.suffix_append w₁ w₂).isInfix
    rw [List.append_nil]
    exact hw₁.isInfix

theorem isSome_find_iff {word l : List UInt8} (hne : word ≠ []) :
    (find word l 0).isSome ↔ word <:+: l := by
  constructor
  · intro h
    obtain ⟨j, hj⟩ := Option.isSome_iff_exists.mp h
    obtain ⟨-, hat, -⟩ := (find_eq_some_iff hne).mp hj
    exact hat.isInfix.trans (List.drop_suffix j l).isInfix
  · rintro ⟨pre, post, rfl⟩
    have hat : word <+: (pre ++ word ++ post).drop pre.length := by
      rw [List.append_assoc, List.drop_left]
      exact List.prefix_append _ _
    obtain ⟨j, -, hj⟩ := find_le hne (Nat.zero_le _) hat
    rw [hj]
    rfl

theorem isPong_iff (hat : a[0]? = some 43) :
    5 ≤ a.length ∧ (find (ascii "PONG") a 0).isSome ↔ ascii "PONG" <:+: a.drop 1 := by
  rw [isSome_find_iff (by decide)]
  cases a with
  | nil => cases hat
  | cons x l =>
    obtain rfl := Option.some.inj hat
    constructor
    · rintro ⟨-, hin⟩
      exact (List.infix_cons_iff.mp hin).resolve_left (by simp [ascii])
    · intro hin
      have hlen := hin.length_le
      simp only [List.drop_one, List.tail_cons] at hin hlen
      change 4 ≤ l.length at hlen
      exact ⟨by simpa using hlen, List.infix_cons hin⟩

theorem parseReply_at {x : UInt8} (hat : a[0]? = some x) (hcr : find crlf a 0 = some c)
    (out : List UInt8) : parseReply a out =
      (if x = 42 then parseMultiBulk a c out
        else if x = 36 then parseBulk a c out
        else if x = 58 then
          ⟨0, some (c + 2), out ++ ascii "1" ++ [kSep] ++ (a.drop 1).take (c - 1)⟩
        else if x = 43 then ⟨0, some (c + 2), out ++ ascii "0"⟩
        else if x = 45 then ⟨0, some (c + 2), out ++ ascii "__null"⟩
        else ⟨-1, none, out⟩,
      decide (x = 43 ∧ ascii "PONG" <:+: a.drop 1)) := by
  have hpong : decide (x = 43 ∧ ascii "PONG" <:+: a.drop 1) =
      decide (x = 43 ∧ 5 ≤ a.length ∧ (find (ascii "PONG") a 0).isSome) := by
    apply decide_eq_decide.mpr
    refine and_congr_right fun hx => ?_
    rw [isPong_iff (hx ▸ hat)]
  rw [hpong]
  cases a with
  | nil => cases hat
  | cons y l =>
    obtain rfl := Option.some.inj hat
    simp only [parseReply, hcr]
    split_ifs <;> simp_all

theorem parseReply_bounds {x : UInt8} (hat : a[0]? = some x) (hcr : find crlf a 0 = some c)
    (h : (parseReply a out).1 = ⟨0, some k, out'⟩) : c + 2 ≤ k ∧ k ≤ a.length := by
  have hbound : c + 2 ≤ a.length := (find_bound hcr).2
  have hfirst : ∀ {e : ℕ}, crlf <+: a.drop e → c ≤ e :=
    fun hends => find_min (by decide) hcr (Nat.zero_le _) hends
  have hvalue : ∀ {off d : ℕ}, ValueCase off a d → c + 2 ≤ valueStop a d ∧
      valueStop a d ≤ a.length := by
    intro off d hcase
    obtain ⟨e, hend, hends⟩ := hcase.ends
    exact ⟨by have := hfirst hends; omega, valueStop_le hcase⟩
  rw [parseReply_at hat hcr] at h
  split_ifs at h
  · rcases parseMultiBulk_cases h with ⟨-, rfl⟩ | ⟨m, -, -, hanswers⟩
    · exact ⟨le_rfl, hbound⟩
    · obtain ⟨last, -, -, -, hcase, rfl⟩ := parseAnswers_end hanswers
      exact hvalue hcase
  · obtain ⟨hcase, rfl⟩ := parseBulk_valueCase hcr h
    exact hvalue hcase
  · obtain rfl : c + 2 = k := Option.some.inj (congrArg Parsed.size h)
    exact ⟨le_rfl, hbound⟩
  · obtain rfl : c + 2 = k := Option.some.inj (congrArg Parsed.size h)
    exact ⟨le_rfl, hbound⟩
  · obtain rfl : c + 2 = k := Option.some.inj (congrArg Parsed.size h)
    exact ⟨le_rfl, hbound⟩
  · cases h

theorem pong_local_iff (hat : a[0]? = some 43) (hcr : find crlf a 0 = some c) :
    (∀ s, ascii "PONG" <:+: (a.take (c + 2) ++ s).drop 1 ↔ ascii "PONG" <:+: a.drop 1) ↔
      ascii "PONG" <:+: lineText a 0 := by
  have htake := (take_line hat (by decide) hcr).1
  have hdrop : ∀ s, (a.take (c + 2) ++ s).drop 1 = lineText a 0 ++ crlf ++ s := by
    intro s
    rw [htake]
    rfl
  constructor
  · intro h
    -- followed by nothing, and followed by the word itself
    have hthere := (h (ascii "PONG")).mp (by rw [hdrop]; exact List.infix_append_right)
    have hline := (h []).mpr hthere
    rw [hdrop, List.append_nil] at hline
    exact infix_of_append_crlf (by decide) (by decide) (by decide) hline
  · intro hline s
    refine iff_of_true ?_ ?_
    · rw [hdrop, List.append_assoc]
      exact List.infix_append_of_infix_left hline
    · refine hline.trans (List.IsPrefix.isInfix ?_)
      rw [lineText, List.drop_take]
      exact List.take_prefix _ _

/-- The parser gives the same answer on the bytes of the reply, whatever follows them, exactly when
all that it looks at belongs to the reply. -/
theorem parseReply_local_iff (reply out : List UInt8) (k : ℕ)
    (hret : (parseReply reply out).1.ret = 0) (hsize : (parseReply reply out).1.size = some k) :
    (∀ s, parseReply (reply.take k ++ s) out = parseReply reply out) ↔ SelfContained reply := by
  obtain ⟨out', hparse⟩ : ∃ out', (parseReply reply out).1 = ⟨0, some k, out'⟩ :=
    ⟨(parseReply reply out).1.out, by rw [← hret, ← hsize]⟩
  cases hcr : find crlf reply 0 with
  | none =>
    cases reply with
    | nil => cases hret
    | cons b bs =>
      simp only [parseReply, hcr] at hret
      cases hret
  | some c =>
    obtain ⟨x, hat⟩ : ∃ x, reply[0]? = some x := by
      cases reply with
      | nil => cases hret
      | cons b bs => exact ⟨b, rfl⟩
    have hhead : reply.head? = some x := List.head?_eq_getElem? ▸ hat
    obtain ⟨hck, hle⟩ := parseReply_bounds hat hcr hparse
    have htake : ∀ s, reply.take k = (reply.take k ++ s).take k := fun s =>
      (List.take_left' (List.length_take_of_le hle)).symm
    have hat' : ∀ s, (reply.take k ++ s)[0]? = some x := fun s =>
      (getElem?_congr (htake s) (by omega)).symm.trans hat
    have hcr' : ∀ s, find crlf (reply.take k ++ s) 0 = some c := fun s =>
      find_crlf_congr (htake s) hck hcr
    simp only [parseReply_at (hat' _) (hcr' _), parseReply_at hat hcr, SelfContained, hhead,
      Option.some.injEq, Prod.mk.injEq, decide_eq_decide]
    rw [parseReply_at hat hcr] at hparse
    split_ifs at hparse with h42 h36 h58 h43 h45
    · subst h42
      have hdiff : (42 : UInt8) ≠ 43 ∧ (42 : UInt8) ≠ 36 := by decide
      replace hparse : parseMultiBulk reply c out = ⟨0, some k, out'⟩ := hparse
      simp only [↓reduceIte, hdiff, hparse, false_and, and_true, IsEmpty.forall_iff, true_and,
        forall_const]
      exact parseMultiBulk_local_iff hat hcr hparse htake
    · subst h36
      have hdiff : (36 : UInt8) ≠ 43 ∧ (36 : UInt8) ≠ 42 := by decide
      replace hparse : parseBulk reply c out = ⟨0, some k, out'⟩ := hparse
      simp only [↓reduceIte, hdiff, hparse, false_and, and_true, IsEmpty.forall_iff, true_and,
        forall_const]
      exact parseBulk_local_iff hcr hparse htake
    · subst h58
      have hdiff : (58 : UInt8) ≠ 43 ∧ (58 : UInt8) ≠ 42 ∧ (58 : UInt8) ≠ 36 := by decide
      simp only [↓reduceIte, hdiff, false_and, and_true, IsEmpty.forall_iff]
      refine iff_of_true (fun s => ?_) trivial
      rw [take_drop_congr (htake s) (by omega)]
    · subst h43
      have hdiff : (43 : UInt8) ≠ 42 ∧ (43 : UInt8) ≠ 36 ∧ (43 : UInt8) ≠ 58 := by decide
      obtain rfl : c + 2 = k := Option.some.inj (congrArg Parsed.size hparse)
      simp only [↓reduceIte, hdiff, and_true, IsEmpty.forall_iff, true_and, forall_const]
      exact pong_local_iff hat hcr
    · subst h45
      simp only [↓reduceIte, h42, h36, h58, h43, false_and, and_true, IsEmpty.forall_iff,
        implies_true]
    · cases hparse

theorem parseReply_local_twoAnswers :
    SelfContained (ascii "*2\r\n$1\r\na\r\n$-1\r\n+") ∧
      ∀ s, parseReply (ascii "*2\r\n$1\r\na\r\n$-1\r\n" ++ s) [] =
        parseReply (ascii "*2\r\n$1\r\na\r\n$-1\r\n+") [] := by
  have hcontained : SelfContained (ascii "*2\r\n$1\r\na\r\n$-1\r\n+") := by
    refine ⟨fun h => absurd h (by decide), fun h => absurd h (by decide), fun _ => ?_⟩
    rw [AnswersContained, if_neg (by decide)]
    exact ⟨11, ⟨by decide, by decide⟩, ⟨45, by decide, by decide⟩, by decide⟩
  refine ⟨hcontained, ?_⟩
  exact (parseReply_local_iff (ascii "*2\r\n$1\r\na\r\n$-1\r\n+") [] 16 (by decide)
    (by decide)).mpr hcontained

/-- `+OK\r\n` is taken for a `PONG` when one follows it. -/
theorem parseReply_pong_follows :
    ¬ ∀ reply s out k, (parseReply reply out).1.ret = 0 →
      (parseReply reply out).1.size = some k →
      parseReply (reply.take k ++ s) out = parseReply reply out := by
  intro h
  exact absurd (h (ascii "+OK\r\n") (ascii "+PONG\r\n") [] 5 (by decide) (by decide)) (by decide)

end replies

end Magneto.RedisParser
