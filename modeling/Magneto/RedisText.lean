import Magneto.RedisParser

/-!
# Searches and numbers in a reply

Where `find` finds the end of a line or a `$`, and that `strtol` reads back what
`sprintf` has written.
-/

namespace Magneto.RedisParser

section find

variable {c d : UInt8} {pat w pre post reply : List UInt8} {i start : ℕ}

theorem findAt_eq_some_iff (hpat : pat ≠ []) {k : ℕ} : findAt pat w i = some k ↔
    i ≤ k ∧ pat <+: w.drop (k - i) ∧ ∀ j < k - i, ¬ pat <+: w.drop j := by
  induction w generalizing i with
  | nil => simp [findAt, hpat]
  | cons b w ih =>
    rw [findAt]
    split_ifs with hpre
    · rw [List.isPrefixOf_iff_prefix] at hpre
      constructor
      · intro hk
        obtain rfl := Option.some.inj hk
        simpa using hpre
      · rintro ⟨hle, -, hfirst⟩
        by_contra hne
        exact hfirst 0 (by have : i ≠ k := fun he => hne (congrArg some he); omega) hpre
    · rw [List.isPrefixOf_iff_prefix] at hpre
      rw [ih]
      constructor
      · rintro ⟨hle, hat, hfirst⟩
        obtain ⟨d, rfl⟩ : ∃ d, k = i + 1 + d := ⟨k - (i + 1), by omega⟩
        have hk : i + 1 + d - i = d + 1 := by omega
        rw [Nat.add_sub_cancel_left] at hat hfirst
        rw [hk]
        refine ⟨by omega, hat, fun j hj => ?_⟩
        cases j with
        | zero => exact hpre
        | succ j => exact hfirst j (by omega)
      · rintro ⟨hle, hat, hfirst⟩
        obtain ⟨d, rfl⟩ : ∃ d, k = i + d := ⟨k - i, by omega⟩
        rw [Nat.add_sub_cancel_left] at hat hfirst
        cases d with
        | zero => exact absurd hat hpre
        | succ d =>
          have hk : i + (d + 1) - (i + 1) = d := by omega
          rw [hk]
          exact ⟨by omega, hat, fun j hj => hfirst (j + 1) (by omega)⟩

theorem find_eq_some_iff (hpat : pat ≠ []) {k : ℕ} : find pat reply start = some k ↔
    start ≤ k ∧ pat <+: reply.drop k ∧ ∀ j, start ≤ j → j < k → ¬ pat <+: reply.drop j := by
  unfold find
  split_ifs with hle
  · rw [findAt_eq_some_iff hpat]
    refine and_congr_right fun hk => ?_
    rw [List.drop_drop, Nat.add_sub_cancel' hk]
    refine and_congr_right fun _ => ⟨fun h j hj hlt => ?_, fun h j hlt => ?_⟩
    · have := h (j - start) (by omega)
      rwa [List.drop_drop, Nat.add_sub_cancel' hj] at this
    · rw [List.drop_drop]
      exact h (start + j) (by omega) (by omega)
  · refine iff_of_false (by simp) ?_
    rintro ⟨hk, hat, -⟩
    rw [List.drop_of_length_le (by omega)] at hat
    exact hpat (List.prefix_nil.mp hat)

theorem find_le (hpat : pat ≠ []) {j : ℕ} (hj : start ≤ j) (h : pat <+: reply.drop j) :
    ∃ k ≤ j, find pat reply start = some k := by
  classical
  have hex : ∃ k, start ≤ k ∧ pat <+: reply.drop k := ⟨j, hj, h⟩
  refine ⟨Nat.find hex, Nat.find_min' hex ⟨hj, h⟩, (find_eq_some_iff hpat).mpr ?_⟩
  exact ⟨(Nat.find_spec hex).1, (Nat.find_spec hex).2,
    fun k hk hlt hat => Nat.find_min hex hlt ⟨hk, hat⟩⟩

theorem find_min (hpat : pat ≠ []) {j k : ℕ} (h : find pat reply start = some k) (hj : start ≤ j)
    (hat : pat <+: reply.drop j) : k ≤ j := by
  by_contra hlt
  exact ((find_eq_some_iff hpat).mp h).2.2 j hj (by omega) hat

theorem find_bound {k : ℕ} (h : find (c :: pat) reply start = some k) :
    start ≤ k ∧ k + (c :: pat).length ≤ reply.length := by
  obtain ⟨hk, hat, -⟩ := (find_eq_some_iff (List.cons_ne_nil c pat)).mp h
  have hlen := hat.length_le
  rw [List.length_drop, List.length_cons] at hlen
  rw [List.length_cons]
  omega

theorem find_append (hstart : start ≤ pre.length) (h : c ∉ pre.drop start) :
    find (c :: pat) (pre ++ (c :: pat ++ post)) start = some pre.length := by
  refine (find_eq_some_iff (List.cons_ne_nil c pat)).mpr ⟨hstart, ?_, fun j hj hlt hat => h ?_⟩
  · rw [List.drop_left]
    exact List.prefix_append _ _
  · rw [List.drop_append_of_le_length hlt.le, List.drop_eq_getElem_cons hlt,
      List.cons_append] at hat
    have hc : c = pre[j] := (List.cons_prefix_cons.mp hat).1
    have hmem : pre[j] ∈ pre.drop start := by
      rw [List.mem_drop_iff_getElem]
      exact ⟨j - start, by omega, by simp only [Nat.add_sub_cancel' hj]⟩
    exact hc ▸ hmem

def NoCrlf (bs : List UInt8) : Prop := ¬ crlf <:+: bs

theorem noCrlf_of_not_mem (h : 13 ∉ w) : NoCrlf w :=
  fun hin => h (hin.subset List.mem_cons_self)

theorem find_crlf (hstart : start ≤ pre.length) (h : NoCrlf (pre.drop start)) (post : List UInt8) :
    find crlf (pre ++ (crlf ++ post)) start = some pre.length := by
  refine (find_eq_some_iff (by decide)).mpr ⟨hstart, ?_, fun j hj hlt hat => ?_⟩
  · rw [List.drop_left]
    exact List.prefix_append _ _
  · rw [List.drop_append_of_le_length hlt.le] at hat
    have hsuffix : pre.drop j <:+ pre.drop start := by
      rw [← Nat.add_sub_cancel' hj, ← List.drop_drop]
      exact List.drop_suffix _ _
    rcases Nat.lt_or_ge (pre.drop j).length 2 with hshort | hlong
    · -- the CR would be the last byte, and what follows it is the next CR
      have hone : (pre.drop j).length = 1 := by
        rw [List.length_drop] at hshort ⊢
        omega
      obtain ⟨b, hb⟩ := List.length_eq_one_iff.mp hone
      rw [hb] at hat
      simp [crlf] at hat
    · have hpre := List.prefix_of_prefix_length_le hat (List.prefix_append (pre.drop j) _) hlong
      exact h (hpre.isInfix.trans hsuffix.isInfix)

theorem find_crlf_eq_none (h : 13 ∉ (reply.drop start).dropLast) :
    find crlf reply start = none := by
  cases hfind : find crlf reply start with
  | none => rfl
  | some k =>
    obtain ⟨hk, ⟨post, hat⟩, -⟩ := (find_eq_some_iff (by decide)).mp hfind
    have hsplit : reply.drop start = (reply.drop start).take (k - start) ++ (13 :: 10 :: post) := by
      have hdrop : (reply.drop start).drop (k - start) = 13 :: 10 :: post := by
        rw [List.drop_drop, Nat.add_sub_cancel' hk]
        exact hat.symm
      rw [← hdrop, List.take_append_drop]
    rw [hsplit, List.dropLast_append_of_ne_nil (List.cons_ne_nil _ _)] at h
    exact absurd (List.mem_append_right _ List.mem_cons_self) h

end find

section decimal

variable {b : UInt8} {post : List UInt8}

theorem digit_toNat {n : ℕ} (h : n < 10) :
    (UInt8.ofNat (Nat.digitChar n).toNat).toNat = 48 + n := by
  rw [Nat.toNat_digitChar_of_lt_ten h, UInt8.toNat_ofNat']
  omega

theorem decimal_eq (n : ℕ) : decimal n =
    (if n < 10 then [] else decimal (n / 10)) ++ [UInt8.ofNat (Nat.digitChar (n % 10)).toNat] := by
  unfold decimal
  rw [Nat.toDigits_eq_if (by decide)]
  split_ifs with h
  · simp [Nat.mod_eq_of_lt h]
  · simp

theorem decimal_ne_nil (n : ℕ) : decimal n ≠ [] := by simp [decimal]

theorem isDigit_of_mem_decimal {n : ℕ} (h : b ∈ decimal n) : isDigit b = true := by
  induction n using Nat.strongRecOn with
  | ind n ih =>
    rw [decimal_eq, List.mem_append] at h
    rcases h with h | h
    · split_ifs at h with hn
      · simp at h
      · exact ih (n / 10) (by omega) h
    · have hb := digit_toNat (Nat.mod_lt n (by decide : 0 < 10))
      rw [← List.mem_singleton.mp h] at hb
      simp only [isDigit, UInt8.le_iff_toNat_le, Bool.decide_and, Bool.and_eq_true,
        decide_eq_true_eq]
      have hmod := Nat.mod_lt n (by decide : 0 < 10)
      constructor
      · show 48 ≤ b.toNat
        omega
      · show b.toNat ≤ 57
        omega

theorem digitsValue_decimal (n : ℕ) : digitsValue (decimal n) = n := by
  induction n using Nat.strongRecOn with
  | ind n ih =>
    have hd := digit_toNat (Nat.mod_lt n (by decide : 0 < 10))
    rw [decimal_eq, digitsValue, List.foldl_append]
    split_ifs with hn
    · simp only [List.foldl_nil, List.foldl_cons, hd]
      omega
    · have hdiv := ih (n / 10) (by omega)
      rw [digitsValue] at hdiv
      simp only [List.foldl_nil, List.foldl_cons, hd, hdiv]
      omega

theorem isSpace_of_isDigit (h : isDigit b = true) : isSpace b = false := by
  simp only [isDigit, isSpace, UInt8.le_iff_toNat_le, ← UInt8.toNat_inj, decide_eq_true_eq,
    decide_eq_false_iff_not] at h ⊢
  change 48 ≤ b.toNat ∧ b.toNat ≤ 57 at h
  change ¬ (b.toNat = 32 ∨ 9 ≤ b.toNat ∧ b.toNat ≤ 13)
  omega

theorem ne_of_isDigit {x : UInt8} (h : isDigit b = true) (hx : isDigit x = false) : b ≠ x := by
  rintro rfl
  rw [h] at hx
  cases hx

inductive IsNumber : List UInt8 → ℤ → Prop
  | nonneg {ds : List UInt8} (hne : ds ≠ []) (hds : ∀ b ∈ ds, isDigit b = true) :
      IsNumber ds (digitsValue ds)
  | neg {ds : List UInt8} (hne : ds ≠ []) (hds : ∀ b ∈ ds, isDigit b = true) :
      IsNumber (45 :: ds) (-digitsValue ds)

theorem takeWhile_isDigit {ds : List UInt8} (hds : ∀ b ∈ ds, isDigit b = true)
    (post : List UInt8) :
    (ds ++ 13 :: post).takeWhile isDigit = ds := by
  rw [List.takeWhile_append_of_pos hds]
  simp [isDigit]

/-- A number that the end of the line follows is read as a whole, and saturates. -/
theorem strtol_number {t : List UInt8} {n : ℤ} (h : IsNumber t n) (post : List UInt8) :
    strtol (t ++ 13 :: post) = (max longMin (min longMax n), t.length) := by
  cases h with
  | nonneg hne hds =>
    have htake := takeWhile_isDigit hds post
    have hclamp : max longMin (min longMax (digitsValue t : ℤ)) = min longMax (digitsValue t) := by
      unfold longMin longMax
      omega
    rw [hclamp]
    cases t with
    | nil => exact absurd rfl hne
    | cons d ds =>
      have hd := hds d List.mem_cons_self
      have hspace : (d :: ds ++ 13 :: post).takeWhile isSpace = [] := by
        simp [isSpace_of_isDigit hd]
      have hminus : d ≠ 45 := ne_of_isDigit hd (by decide)
      have hplus : d ≠ 43 := ne_of_isDigit hd (by decide)
      have hhead : (d :: ds ++ 13 :: post).head? = some d := rfl
      simp only [strtol, hspace, List.length_nil, List.drop_zero, hhead, Option.some.injEq, hminus,
        hplus, or_self, ↓reduceIte, htake, hne, Nat.zero_add]
  | @neg ds hne hds =>
    have htake := takeWhile_isDigit hds post
    have hclamp : max longMin (min longMax (-(digitsValue ds : ℤ))) =
        max longMin (-digitsValue ds) := by
      unfold longMin longMax
      omega
    have hspace : (45 :: ds ++ 13 :: post).takeWhile isSpace = [] := by simp [isSpace]
    have hhead : (45 :: ds ++ 13 :: post).head? = some 45 := rfl
    have hdrop : (45 :: ds ++ 13 :: post).drop 1 = ds ++ 13 :: post := rfl
    simp only [strtol, hspace, List.length_nil, List.drop_zero, hhead, true_or, ↓reduceIte, hdrop,
      htake, hne, hclamp, Nat.zero_add, List.length_cons, Nat.add_comm 1]

theorem isNumber_decimal (n : ℕ) : IsNumber (decimal n) n := by
  have h := IsNumber.nonneg (decimal_ne_nil n) fun b => isDigit_of_mem_decimal
  rwa [digitsValue_decimal] at h

theorem strtol_decimal (n : ℕ) (post : List UInt8) :
    strtol (decimal n ++ 13 :: post) = (min longMax n, (decimal n).length) := by
  have hclamp : max longMin (min longMax (n : ℤ)) = min longMax n := by
    unfold longMin longMax
    omega
  rw [strtol_number (isNumber_decimal n), hclamp]

theorem strtol_null (post : List UInt8) : strtol (45 :: 49 :: 13 :: post) = (-1, 2) :=
  strtol_number (IsNumber.neg (List.cons_ne_nil 49 []) (by simp [isDigit])) post

/-- `strtol` saturates: a length or a number of answers is read back as it is, or as `LONG_MAX`. -/
theorem min_longMax_of_ne {n : ℕ} (h : min longMax (n : ℤ) ≠ longMax) :
    min longMax (n : ℤ) = n :=
  (min_choice longMax (n : ℤ)).resolve_left h

theorem min_longMax_ne {n : ℕ} (h : n < 2 ^ 31) : min longMax (n : ℤ) ≠ longMax := by
  unfold longMax
  omega

theorem min_longMax_nonneg (n : ℕ) : 0 ≤ min longMax (n : ℤ) := by
  unfold longMax
  omega

theorem min_longMax_ne_longMin (n : ℕ) : min longMax (n : ℤ) ≠ longMin := by
  have hnonneg := min_longMax_nonneg n
  unfold longMin
  omega

theorem min_longMax_ne_null (n : ℕ) : min longMax (n : ℤ) ≠ -1 := by
  have hnonneg := min_longMax_nonneg n
  omega

end decimal

end Magneto.RedisParser
