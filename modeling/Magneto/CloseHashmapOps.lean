import Magneto.CloseHashmapSpec

/-!
# The operations of the closed hash map

What each operation does to the map of entries and to the slots that are still
empty, and what a loop that erases while it iterates leaves.
-/

namespace Magneto

namespace CloseHashmap

variable {Key Val : Type*} {m : CloseHashmap Key Val} {key k : Key} {val v : Val} {pos q : ℕ}
  {item : HashItem Key Val}

def emptySlots (m : CloseHashmap Key Val) : Finset ℕ :=
  (Finset.range m.sizeArray).filter fun pos => (m.items pos).key.isNone

theorem usedSlots_setItem (hlt : pos < m.sizeArray) {num : ℕ} :
    (m.setItem pos item num).usedSlots =
      if item.val?.isSome then Insert.insert pos m.usedSlots else m.usedSlots.erase pos := by
  ext q
  have hmem : q ∈ (m.setItem pos item num).usedSlots ↔
      q < m.sizeArray ∧ ((m.setItem pos item num).items q).val?.isSome := by
    rw [usedSlots, Finset.mem_filter, Finset.mem_range]
    rfl
  have hmem' : q ∈ m.usedSlots ↔ q < m.sizeArray ∧ (m.items q).val?.isSome := by
    rw [usedSlots, Finset.mem_filter, Finset.mem_range]
  rw [hmem]
  by_cases hq : q = pos
  · subst hq
    rw [items_setItem_self]
    split_ifs with hsome
    · exact iff_of_true ⟨hlt, hsome⟩ (Finset.mem_insert_self _ _)
    · exact iff_of_false (fun h => hsome h.2) (Finset.notMem_erase _ _)
  · rw [items_setItem_of_ne hq, ← hmem']
    split_ifs
    · exact ⟨Finset.mem_insert_of_mem, fun h => (Finset.mem_insert.mp h).resolve_left hq⟩
    · exact ⟨fun h => Finset.mem_erase.mpr ⟨hq, h⟩, Finset.mem_of_mem_erase⟩

theorem emptySlots_setItem (hkey : item.key.isNone = false) {num : ℕ} :
    (m.setItem pos item num).emptySlots = m.emptySlots.erase pos := by
  ext q
  have hmem : q ∈ (m.setItem pos item num).emptySlots ↔
      q < m.sizeArray ∧ ((m.setItem pos item num).items q).key.isNone := by
    rw [emptySlots, Finset.mem_filter, Finset.mem_range]
    rfl
  have hmem' : q ∈ m.emptySlots ↔ q < m.sizeArray ∧ (m.items q).key.isNone := by
    rw [emptySlots, Finset.mem_filter, Finset.mem_range]
  rw [hmem, Finset.mem_erase, hmem']
  by_cases hq : q = pos
  · subst hq
    rw [items_setItem_self, hkey]
    exact iff_of_false (fun h => Bool.false_ne_true h.2) fun h => h.1 rfl
  · rw [items_setItem_of_ne hq]
    exact ⟨fun h => ⟨hq, h⟩, And.right⟩

theorem room_of_emptySlots (h : 0 < m.emptySlots.card) (key : Key) : m.Room key := by
  obtain ⟨pos, hpos⟩ := Finset.card_pos.mp h
  rw [emptySlots, Finset.mem_filter, Finset.mem_range] at hpos
  refine .inr ⟨pos, hpos.1, ?_⟩
  cases hi : m.items pos with
  | empty => rfl
  | used k v =>
    rw [hi] at hpos
    cases hpos.2
  | erased k v =>
    rw [hi] at hpos
    cases hpos.2

theorem pair?_eq_some : item.pair? = some (key, val) ↔ item = .used key val := by
  cases item with
  | empty => exact iff_of_false (nomatch ·) (nomatch ·)
  | used k v => exact ⟨fun h => by cases h; rfl, fun h => by cases h; rfl⟩
  | erased k v => exact iff_of_false (nomatch ·) (nomatch ·)

theorem mem_entries : (key, val) ∈ m.entries ↔
    ∃ pos < m.sizeArray, m.items pos = .used key val := by
  unfold entries
  rw [List.mem_filterMap]
  refine exists_congr fun pos => ?_
  rw [List.mem_range, pair?_eq_some]

theorem usedSlots_card : m.usedSlots.card = m.entries.length := by
  have hlist : m.usedSlots =
      ((List.range m.sizeArray).filter fun pos => (m.items pos).pair?.isSome).toFinset := by
    ext pos
    rw [usedSlots, Finset.mem_filter, Finset.mem_range, List.mem_toFinset, List.mem_filter,
      List.mem_range]
    cases m.items pos <;> rfl
  rw [hlist, List.toFinset_card_of_nodup (List.nodup_range.filter _), entries,
    List.length_filterMap_eq_countP, List.countP_eq_length_filter]

theorem notMem_emptySlots (hi : m.items pos = .used key v) : pos ∉ m.emptySlots := by
  rw [emptySlots, Finset.mem_filter, hi]
  exact fun hin => Bool.false_ne_true hin.2

variable [DecidableEq Key]

/-- Only the home slot can be found with an erased item in it. -/
theorem home_of_erased (hget : m.getItem key = some pos) (hi : m.items pos = .erased k v) :
    pos = m.home key ∧ k = key := by
  unfold getItem at hget
  split_ifs at hget with hhome
  · cases hget
    rw [hi] at hhome
    exact ⟨rfl, (of_decide_eq_true hhome).symm⟩
  · by_cases hsize : 0 < m.sizeArray
    · have hstop := (probe_eq_some hsize hget).2
      rw [hi] at hstop
      cases hstop
    · obtain h0 : m.sizeArray = 0 := by omega
      rw [h0] at hget
      cases hget

namespace Sound

theorem get_eq_none_of_getItem (hget : m.getItem key = none) : m.get key = none := by
  rw [CloseHashmap.get, hget]
  rfl

theorem get_of_getItem (hget : m.getItem key = some pos) : m.get key = (m.items pos).val? := by
  rw [CloseHashmap.get, hget, Option.bind_some]

theorem used_or_room (h : m.Sound) (hget : m.getItem key = some pos) :
    (∃ v, m.items pos = .used key v) ∨ (m.items pos).val? = none ∧ m.Room key := by
  obtain ⟨hlt, hhome⟩ := getItem_eq_some h.size hget
  cases hi : m.items pos with
  | empty => exact .inr ⟨rfl, .inr ⟨pos, hlt, hi⟩⟩
  | used k v =>
    rw [hi] at hhome
    rw [of_decide_eq_true hhome]
    exact .inl ⟨v, rfl⟩
  | erased k v =>
    obtain ⟨rfl, rfl⟩ := home_of_erased hget hi
    exact .inr ⟨rfl, .inl (by rw [hi]; rfl)⟩

theorem not_room_of_full (h : m.Sound) (hfull : m.sizeArray = m.numElm)
    (hnone : m.get key = none) : ¬ m.Room key := by
  have hused : ∀ pos < m.sizeArray, (m.items pos).val?.isSome := by
    intro pos hpos
    have hcard : m.usedSlots.card = (Finset.range m.sizeArray).card := by
      rw [Finset.card_range, hfull, h.num]
    exact Finset.filter_card_eq hcard pos (Finset.mem_range.mpr hpos)
  rintro (hkey | ⟨pos, hpos, hempty⟩)
  · have hlt : m.home key < m.sizeArray := Nat.mod_lt _ h.size
    cases hi : m.items (m.home key) with
    | empty =>
      rw [hi] at hkey
      cases hkey
    | used k v =>
      rw [hi] at hkey
      cases hkey
      rw [h.get_eq_some.mpr ⟨_, hlt, hi⟩] at hnone
      cases hnone
    | erased k v =>
      have := hused _ hlt
      rw [hi] at this
      cases this
  · have := hused pos hpos
    rw [hempty] at this
    cases this

theorem insert_cases (h : m.Sound) (key : Key) (val : Val) :
    ((m.get key ≠ none ∨ ¬ m.Room key) ∧ m.insert key val = (false, m)) ∨
      ∃ pos, m.getItem key = some pos ∧ (m.get key = none ∧ m.Room key) ∧
        (m.items pos).val? = none ∧
        m.insert key val = (true, m.setItem pos (.used key val) (m.numElm + 1)) := by
  by_cases hfull : m.sizeArray = m.numElm
  · refine .inl ⟨?_, if_pos hfull⟩
    by_cases hnone : m.get key = none
    · exact .inr (h.not_room_of_full hfull hnone)
    · exact .inl hnone
  · cases hget : m.getItem key with
    | none =>
      refine .inl ⟨.inr (h.ne_empty_of_getItem hget), ?_⟩
      rw [CloseHashmap.insert, if_neg hfull, hget]
    | some pos =>
      have hval := get_of_getItem hget
      obtain ⟨v, hi⟩ | ⟨hnone, hroom⟩ := h.used_or_room hget
      · refine .inl ⟨.inl ?_, ?_⟩
        · rw [hval, hi]
          exact Option.some_ne_none v
        · rw [CloseHashmap.insert, if_neg hfull, hget]
          dsimp only
          rw [hi]
      · refine .inr ⟨pos, rfl, ⟨hval.trans hnone, hroom⟩, hnone, ?_⟩
        rw [CloseHashmap.insert, if_neg hfull, hget]
        dsimp only
        cases hi : m.items pos with
        | empty => rfl
        | used k v =>
          rw [hi] at hnone
          cases hnone
        | erased k v => rfl

theorem erase_cases (h : m.Sound) (key : Key) :
    (m.get key = none ∧ m.erase key = (false, m)) ∨
      ∃ pos v, m.getItem key = some pos ∧ m.items pos = .used key v ∧
        m.erase key = (true, m.setItem pos (.erased key v) (m.numElm - 1)) := by
  cases hget : m.getItem key with
  | none =>
    refine .inl ⟨get_eq_none_of_getItem hget, ?_⟩
    rw [CloseHashmap.erase, hget]
  | some pos =>
    obtain ⟨v, hi⟩ | ⟨hnone, -⟩ := h.used_or_room hget
    · refine .inr ⟨pos, v, rfl, hi, ?_⟩
      rw [CloseHashmap.erase, hget]
      dsimp only
      rw [hi]
      exact if_pos rfl
    · refine .inl ⟨(get_of_getItem hget).trans hnone, ?_⟩
      rw [CloseHashmap.erase, hget]
      dsimp only
      cases hi : m.items pos with
      | empty => rfl
      | used k v =>
        rw [hi] at hnone
        cases hnone
      | erased k v => rfl

theorem modify_cases (h : m.Sound) (key : Key) (f : Val → Val) :
    (m.get key = none ∧ m.modify key f = m) ∨
      ∃ pos v, m.getItem key = some pos ∧ m.items pos = .used key v ∧
        m.modify key f = m.setItem pos (.used key (f v)) m.numElm := by
  cases hget : m.getItem key with
  | none =>
    refine .inl ⟨get_eq_none_of_getItem hget, ?_⟩
    rw [CloseHashmap.modify, hget]
  | some pos =>
    obtain ⟨v, hi⟩ | ⟨hnone, -⟩ := h.used_or_room hget
    · refine .inr ⟨pos, v, rfl, hi, ?_⟩
      rw [CloseHashmap.modify, hget]
      dsimp only
      rw [hi]
    · refine .inl ⟨(get_of_getItem hget).trans hnone, ?_⟩
      rw [CloseHashmap.modify, hget]
      dsimp only
      cases hi : m.items pos with
      | empty => rfl
      | used k v =>
        rw [hi] at hnone
        cases hnone
      | erased k v => rfl

theorem setErased (h : m.Sound) (hpos : m.getItem key = some pos)
    (hi : m.items pos = .used key v) :
    (m.setItem pos (.erased key v) (m.numElm - 1)).Sound ∧
      (m.setItem pos (.erased key v) (m.numElm - 1)).get = Function.update m.get key none := by
  obtain ⟨hlt, -⟩ := getItem_eq_some h.size hpos
  have hmem : pos ∈ m.usedSlots := by
    rw [usedSlots, Finset.mem_filter, Finset.mem_range, hi]
    exact ⟨hlt, rfl⟩
  have hsound : (m.setItem pos (.erased key v) (m.numElm - 1)).Sound := by
    refine ⟨h.size, h.coprime, fun q hq k w hw => ?_, ?_⟩
    · have hqp : q ≠ pos := by
        rintro rfl
        rw [items_setItem_self] at hw
        cases hw
      rw [items_setItem_of_ne hqp] at hw
      have hhit := h.hit q hq k w hw
      refine getItem_setItem_of_ne hhit hqp (decide_eq_false ?_)
      rintro rfl
      rw [hpos] at hhit
      exact hqp (Option.some.inj hhit).symm
    · rw [usedSlots_setItem hlt]
      change m.numElm - 1 = (m.usedSlots.erase pos).card
      rw [Finset.card_erase_of_mem hmem, h.num]
  refine ⟨hsound, funext fun k => Option.ext fun w => ?_⟩
  rw [hsound.get_eq_some]
  by_cases hk : k = key
  · subst hk
    rw [Function.update_self]
    refine iff_of_false ?_ (nomatch ·)
    rintro ⟨q, hq, hw⟩
    have hqp : q ≠ pos := by
      rintro rfl
      rw [items_setItem_self] at hw
      cases hw
    rw [items_setItem_of_ne hqp] at hw
    have hhit := h.hit q hq k w hw
    rw [hpos] at hhit
    exact hqp (Option.some.inj hhit).symm
  · rw [Function.update_of_ne hk, h.get_eq_some]
    constructor
    · rintro ⟨q, hq, hw⟩
      have hqp : q ≠ pos := by
        rintro rfl
        rw [items_setItem_self] at hw
        cases hw
      exact ⟨q, hq, (items_setItem_of_ne hqp).symm.trans hw⟩
    · rintro ⟨q, hq, hw⟩
      have hqp : q ≠ pos := by
        rintro rfl
        rw [hi] at hw
        cases hw
        exact hk rfl
      exact ⟨q, hq, (items_setItem_of_ne hqp).trans hw⟩

theorem nodup_entries (h : m.Sound) : (m.entries.map Prod.fst).Nodup := by
  rw [List.Nodup, List.pairwise_map, entries, List.pairwise_filterMap]
  refine List.nodup_range.imp_of_mem fun {pos pos'} hpos hpos' hne => ?_
  rintro ⟨key, val⟩ hentry ⟨_, val'⟩ hentry' rfl
  have hhit := h.hit pos (List.mem_range.mp hpos) _ _ (pair?_eq_some.mp hentry)
  rw [h.hit pos' (List.mem_range.mp hpos') _ _ (pair?_eq_some.mp hentry')] at hhit
  exact hne (Option.some.inj hhit).symm

theorem insertUsed (h : m.Sound) (hpos : m.getItem key = some pos)
    (hnone : (m.items pos).val? = none) :
    (m.setItem pos (.used key val) (m.numElm + 1)).Sound ∧
      (m.setItem pos (.used key val) (m.numElm + 1)).get =
        Function.update m.get key (some val) := by
  obtain ⟨hlt, -⟩ := getItem_eq_some h.size hpos
  refine h.setUsed hpos ?_
  have hmem : pos ∉ m.usedSlots := by
    rw [usedSlots, Finset.mem_filter, hnone]
    exact fun hin => Bool.false_ne_true hin.2
  rw [usedSlots_setItem hlt]
  change m.numElm + 1 = (Insert.insert pos m.usedSlots).card
  rw [Finset.card_insert_of_notMem hmem, h.num]

theorem insert_eq_true (h : m.Sound) :
    (m.insert key val).1 = true ↔ m.get key = none ∧ m.Room key := by
  obtain ⟨hno, heq⟩ | ⟨pos, -, hroom, -, heq⟩ := h.insert_cases key val
  · rw [heq]
    refine iff_of_false Bool.false_ne_true fun hyes => ?_
    exact hno.elim (fun hne => hne hyes.1) fun hfull => hfull hyes.2
  · rw [heq]
    exact iff_of_true rfl hroom

theorem insert (h : m.Sound) (key : Key) (val : Val) :
    (m.insert key val).2.Sound ∧ (m.insert key val).2.get =
      if (m.insert key val).1 then Function.update m.get key (some val) else m.get := by
  obtain ⟨-, heq⟩ | ⟨pos, hpos, -, hnone, heq⟩ := h.insert_cases key val
  · rw [heq]
    exact ⟨h, rfl⟩
  · rw [heq]
    exact h.insertUsed hpos hnone

theorem erase_eq_true (h : m.Sound) : (m.erase key).1 = true ↔ m.get key ≠ none := by
  obtain ⟨hnone, heq⟩ | ⟨pos, v, hpos, hi, heq⟩ := h.erase_cases key
  · rw [heq, hnone]
    exact iff_of_false Bool.false_ne_true fun hne => hne rfl
  · rw [heq, get_of_getItem hpos, hi]
    exact iff_of_true rfl (Option.some_ne_none v)

theorem erase (h : m.Sound) (key : Key) :
    (m.erase key).2.Sound ∧ (m.erase key).2.get = Function.update m.get key none := by
  obtain ⟨hnone, heq⟩ | ⟨pos, v, hpos, hi, heq⟩ := h.erase_cases key
  · rw [heq]
    exact ⟨h, (Function.update_eq_self_iff.mpr hnone.symm).symm⟩
  · rw [heq]
    exact h.setErased hpos hi

theorem modify (h : m.Sound) (key : Key) (f : Val → Val) :
    (m.modify key f).Sound ∧
      (m.modify key f).get = Function.update m.get key ((m.get key).map f) := by
  obtain ⟨hnone, heq⟩ | ⟨pos, v, hpos, hi, heq⟩ := h.modify_cases key f
  · rw [heq, hnone]
    exact ⟨h, (Function.update_eq_self_iff.mpr hnone.symm).symm⟩
  · obtain ⟨hlt, -⟩ := getItem_eq_some h.size hpos
    rw [heq, get_of_getItem hpos, hi]
    refine h.setUsed hpos ?_
    have hmem : pos ∈ m.usedSlots := by
      rw [usedSlots, Finset.mem_filter, Finset.mem_range, hi]
      exact ⟨hlt, rfl⟩
    rw [usedSlots_setItem hlt]
    change m.numElm = (Insert.insert pos m.usedSlots).card
    rw [Finset.insert_eq_of_mem hmem, h.num]

theorem emptySlots_insert (h : m.Sound) (key : Key) (val : Val) :
    m.emptySlots.card ≤
      (m.insert key val).2.emptySlots.card + if (m.insert key val).1 then 1 else 0 := by
  obtain ⟨-, heq⟩ | ⟨pos, -, -, -, heq⟩ := h.insert_cases key val
  · rw [heq]
    exact Nat.le_refl _
  · rw [heq, emptySlots_setItem rfl]
    change m.emptySlots.card ≤ (m.emptySlots.erase pos).card + 1
    have hpred : m.emptySlots.card - 1 ≤ (m.emptySlots.erase pos).card :=
      Finset.pred_card_le_card_erase
    omega

theorem emptySlots_erase (h : m.Sound) (key : Key) :
    (m.erase key).2.emptySlots = m.emptySlots := by
  obtain ⟨-, heq⟩ | ⟨pos, v, -, hi, heq⟩ := h.erase_cases key
  · rw [heq]
  · rw [heq, emptySlots_setItem rfl, Finset.erase_eq_of_notMem (notMem_emptySlots hi)]

theorem emptySlots_modify (h : m.Sound) (key : Key) (f : Val → Val) :
    (m.modify key f).emptySlots = m.emptySlots := by
  obtain ⟨-, heq⟩ | ⟨pos, v, -, hi, heq⟩ := h.modify_cases key f
  · rw [heq]
  · rw [heq, emptySlots_setItem rfl, Finset.erase_eq_of_notMem (notMem_emptySlots hi)]

end Sound

section Sweep

variable {σ : Type*} {keep : Key → Bool} {drop : σ → Key × Val → σ}

/-- What the loop leaves in a slot that it has passed. -/
def swept (keep : Key → Bool) : HashItem Key Val → HashItem Key Val
  | .used k v => if keep k then .used k v else .erased k v
  | item => item

omit [DecidableEq Key] in
theorem swept_eq_used : swept keep item = .used key val ↔
    item = .used key val ∧ keep key = true := by
  cases item with
  | empty => exact iff_of_false (nomatch ·) fun h => nomatch h.1
  | erased k v => exact iff_of_false (nomatch ·) fun h => nomatch h.1
  | used k v =>
    unfold swept
    dsimp only
    split_ifs with hk
    · exact ⟨fun h => ⟨h, by cases h; exact hk⟩, And.left⟩
    · refine iff_of_false (nomatch ·) ?_
      rintro ⟨⟨⟩, hkey⟩
      exact hk hkey

variable (keep drop)

theorem Sound.sweep_range (h : m.Sound) (s : σ) {n : ℕ} (hn : n ≤ m.sizeArray) :
    ∃ m' : CloseHashmap Key Val,
      (List.range n).foldl (sweepSlot keep drop) (s, m) =
        ((((List.range n).filterMap fun pos => (m.items pos).pair?).filter
          fun e => !keep e.1).foldl drop s, m') ∧
      m'.Sound ∧ m'.sizeArray = m.sizeArray ∧ m'.emptySlots = m.emptySlots ∧
      ∀ q, m'.items q = if q < n then swept keep (m.items q) else m.items q := by
  induction n with
  | zero => exact ⟨m, rfl, h, rfl, rfl, fun q => (if_neg (Nat.not_lt_zero q)).symm⟩
  | succ n ih =>
    obtain ⟨m', hfold, hsound, hsize, hempty, hitems⟩ := ih (Nat.le_of_succ_le hn)
    have hnow : m'.items n = m.items n := by rw [hitems, if_neg (Nat.lt_irrefl n)]
    -- a slot that stays as it is has been passed when it is its own `swept`
    have hsame (hself : swept keep (m.items n) = m.items n) (q : ℕ) :
        m'.items q = if q < n + 1 then swept keep (m.items q) else m.items q := by
      rw [hitems]
      obtain hlt | heq | hgt := Nat.lt_trichotomy q n
      · rw [if_pos hlt, if_pos (by omega)]
      · subst heq
        rw [if_neg (Nat.lt_irrefl q), if_pos (Nat.lt_succ_self q), hself]
      · rw [if_neg (by omega), if_neg (by omega)]
    rw [List.range_succ, List.foldl_append, hfold, List.filterMap_append, List.filter_append,
      List.foldl_append]
    cases hi : m.items n with
    | empty =>
      refine ⟨m', ?_, hsound, hsize, hempty, hsame (by rw [hi]; rfl)⟩
      simp [sweepSlot, hnow, hi, HashItem.pair?]
    | erased k v =>
      refine ⟨m', ?_, hsound, hsize, hempty, hsame (by rw [hi]; rfl)⟩
      simp [sweepSlot, hnow, hi, HashItem.pair?]
    | used k v =>
      by_cases hk : keep k = true
      · refine ⟨m', ?_, hsound, hsize, hempty, hsame (by rw [hi]; exact if_pos hk)⟩
        simp [sweepSlot, hnow, hi, HashItem.pair?, hk]
      · have hget : m'.getItem k = some n := hsound.hit n (by omega) k v (hnow.trans hi)
        have herase : m'.erase k = (true, m'.setItem n (.erased k v) (m'.numElm - 1)) := by
          rw [CloseHashmap.erase, hget]
          dsimp only
          rw [hnow, hi]
          exact if_pos rfl
        refine ⟨(m'.erase k).2, ?_, (hsound.erase k).1, ?_, ?_, fun q => ?_⟩
        · simp [sweepSlot, hnow, hi, HashItem.pair?, hk]
        · rw [herase]
          exact hsize
        · rw [hsound.emptySlots_erase, hempty]
        · rw [herase]
          obtain hlt | heq | hgt := Nat.lt_trichotomy q n
          · rw [items_setItem_of_ne (by omega), hitems, if_pos hlt, if_pos (by omega)]
          · subst heq
            rw [items_setItem_self, if_pos (Nat.lt_succ_self q), hi]
            exact (if_neg hk).symm
          · rw [items_setItem_of_ne (by omega), hitems, if_neg (by omega), if_neg (by omega)]

theorem Sound.sweep (h : m.Sound) (s : σ) :
    (m.sweep keep drop s).1 = (m.entries.filter fun e => !keep e.1).foldl drop s ∧
      (m.sweep keep drop s).2.Sound ∧ (m.sweep keep drop s).2.emptySlots = m.emptySlots ∧
      (m.sweep keep drop s).2.get = fun key => if keep key then m.get key else none := by
  obtain ⟨m', hfold, hsound, hsize, hempty, hitems⟩ :=
    h.sweep_range keep drop s (Nat.le_refl m.sizeArray)
  have hsweep : m.sweep keep drop s =
      ((m.entries.filter fun e => !keep e.1).foldl drop s, m') := hfold
  rw [hsweep]
  refine ⟨rfl, hsound, hempty, funext fun key => Option.ext fun val => ?_⟩
  rw [hsound.get_eq_some, hsize]
  have hiff : (∃ pos < m.sizeArray, m'.items pos = .used key val) ↔
      m.get key = some val ∧ keep key = true := by
    rw [h.get_eq_some, ← exists_and_right]
    refine exists_congr fun pos => ?_
    rw [and_assoc]
    refine and_congr_right fun hlt => ?_
    rw [hitems, if_pos hlt, swept_eq_used]
  rw [hiff]
  split_ifs with hk
  · exact and_iff_left hk
  · exact iff_of_false (fun hand => hk hand.2) (nomatch ·)

end Sweep

end CloseHashmap

end Magneto
