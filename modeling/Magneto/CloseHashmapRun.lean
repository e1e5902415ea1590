import Magneto.CloseHashmapOps

/-!
# Runs of the closed hash map

What a run of operations answers. An erased slot that is not the home of its
key is never used again, so the answers are those of a finite map only while
as many slots are left as there are entries to be made.
-/

namespace Magneto

namespace CloseHashmap

variable {Key Val : Type*} {m : CloseHashmap Key Val} [DecidableEq Key]

omit [DecidableEq Key] in
theorem eq_of_init {n : ℕ} {hash : Key → ℕ} (h : init n hash = some m) :
    m = ⟨n, hash, fun _ => .empty, 0⟩ := by
  unfold init at h
  split_ifs at h
  exact (Option.some.inj h).symm

omit [DecidableEq Key] in
theorem emptySlots_of_init {n : ℕ} {hash : Key → ℕ} (h : init n hash = some m) :
    m.emptySlots.card = n := by
  have hall : m.emptySlots = Finset.range n := by
    rw [eq_of_init h]
    exact Finset.filter_true_of_mem fun _ _ => rfl
  rw [hall, Finset.card_range]

theorem sound_of_init {n : ℕ} {hash : Key → ℕ} (h : init n hash = some m) :
    m.Sound ∧ m.get = fun _ => none := by
  have hitems (pos : ℕ) : m.items pos = .empty := by rw [eq_of_init h]
  have hsound : m.Sound := by
    refine ⟨Nat.pos_of_ne_zero fun h0 => ?_, fun p hp => coprime_of_init h hp, ?_, ?_⟩
    · have hcop := coprime_of_init h (p := 53) (by decide)
      rw [h0] at hcop
      exact absurd hcop (by decide)
    · intro pos _ k v hi
      rw [hitems] at hi
      cases hi
    · have hnone : m.usedSlots = ∅ := by
        refine Finset.filter_eq_empty_iff.mpr fun pos _ => ?_
        rw [hitems]
        exact Bool.false_ne_true
      rw [hnone, eq_of_init h]
      rfl
  refine ⟨hsound, funext fun key => Option.eq_none_iff_forall_ne_some.mpr fun val hget => ?_⟩
  obtain ⟨pos, -, hi⟩ := hsound.get_eq_some.mp hget
  rw [hitems] at hi
  cases hi

inductive Op (Key Val : Type*)
  | insert (key : Key) (val : Val)
  | erase (key : Key)
  | modify (key : Key) (f : Val → Val)

namespace Op

def onTable (m : CloseHashmap Key Val) : Op Key Val → Bool × CloseHashmap Key Val
  | insert key val => m.insert key val
  | erase key => m.erase key
  | modify key f => ((m.get key).isSome, m.modify key f)

def onMap (map : Key → Option Val) : Op Key Val → Bool × (Key → Option Val)
  | insert key val =>
    ((map key).isNone, if (map key).isNone then Function.update map key (some val) else map)
  | erase key => ((map key).isSome, Function.update map key none)
  | modify key f => ((map key).isSome, Function.update map key ((map key).map f))

def Fits (m : CloseHashmap Key Val) : Op Key Val → Prop
  | insert key _ => m.Room key
  | _ => True

def adds (map : Key → Option Val) : Op Key Val → Bool
  | insert key _ => (map key).isNone
  | _ => false

theorem onMap_of_false {map : Key → Option Val} {op : Op Key Val}
    (h : (op.onMap map).1 = false) : (op.onMap map).2 = map := by
  cases op with
  | insert key val => exact if_neg (Bool.eq_false_iff.mp h)
  | erase key =>
    have hnone : map key = none := Option.isNone_iff_eq_none.mp (Option.isSome_eq_false_iff.mp h)
    exact Function.update_eq_self_iff.mpr hnone.symm
  | modify key f =>
    have hnone : map key = none := Option.isNone_iff_eq_none.mp (Option.isSome_eq_false_iff.mp h)
    refine Function.update_eq_self_iff.mpr ?_
    rw [hnone, Option.map_none]

end Op

theorem Sound.onTable (h : m.Sound) (op : Op Key Val) :
    (op.onTable m).2.Sound ∧
      ((op.onTable m).1 = true ↔ (op.onMap m.get).1 = true ∧ op.Fits m) ∧
      (op.onTable m).2.get = if (op.onTable m).1 then (op.onMap m.get).2 else m.get := by
  cases op with
  | insert key val =>
    obtain ⟨hsound, hget⟩ := h.insert key val
    have hiff : (m.insert key val).1 = true ↔ (m.get key).isNone = true ∧ m.Room key := by
      rw [Option.isNone_iff_eq_none]
      exact h.insert_eq_true
    refine ⟨hsound, hiff, hget.trans ?_⟩
    by_cases hyes : (m.insert key val).1 = true
    · have hnew : (Op.insert key val).onMap m.get = (_, Function.update m.get key (some val)) :=
        Prod.ext rfl (if_pos (hiff.mp hyes).1)
      rw [hnew, if_pos hyes]
      exact (if_pos hyes).symm
    · rw [if_neg hyes]
      exact (if_neg hyes).symm
  | erase key =>
    obtain ⟨hsound, hget⟩ := h.erase key
    have hiff : (m.erase key).1 = true ↔ (m.get key).isSome = true := by
      rw [Option.isSome_iff_ne_none]
      exact h.erase_eq_true
    refine ⟨hsound, hiff.trans (and_iff_left trivial).symm, hget.trans ?_⟩
    by_cases hyes : (m.erase key).1 = true
    · exact (if_pos hyes).symm
    · have hfalse : ((Op.erase key).onMap m.get).1 = false :=
        Bool.eq_false_iff.mpr (hiff.not.mp hyes)
      exact (Op.onMap_of_false hfalse).trans (if_neg hyes).symm
  | modify key f =>
    obtain ⟨hsound, hget⟩ := h.modify key f
    refine ⟨hsound, (and_iff_left trivial).symm, hget.trans ?_⟩
    by_cases hyes : (m.get key).isSome = true
    · exact (if_pos hyes).symm
    · have hfalse : ((Op.modify key f).onMap m.get).1 = false := Bool.eq_false_iff.mpr hyes
      exact (Op.onMap_of_false hfalse).trans (if_neg hyes).symm

def exec (m : CloseHashmap Key Val) (ops : List (Op Key Val)) : CloseHashmap Key Val :=
  ops.foldl (fun m op => (op.onTable m).2) m

theorem Sound.exec (h : m.Sound) (ops : List (Op Key Val)) : (m.exec ops).Sound := by
  induction ops generalizing m with
  | nil => exact h
  | cons op ops ih => exact ih (h.onTable op).1

/-- After any run from `Init`, an operation answers what it would answer on the map of entries,
and changes it so, except that an insertion is refused if the table has no slot for its key; the
iterator shows every entry once, and `Size` counts them. -/
theorem exec_onTable {n : ℕ} {hash : Key → ℕ} (hinit : init n hash = some m)
    (ops : List (Op Key Val)) (op : Op Key Val) :
    ((op.onTable (m.exec ops)).1 = true ↔
        (op.onMap (m.exec ops).get).1 = true ∧ op.Fits (m.exec ops)) ∧
      (op.onTable (m.exec ops)).2.get =
        (if (op.onTable (m.exec ops)).1 then (op.onMap (m.exec ops).get).2
        else (m.exec ops).get) ∧
      (∀ key val, (key, val) ∈ (m.exec ops).entries ↔ (m.exec ops).get key = some val) ∧
      ((m.exec ops).entries.map Prod.fst).Nodup ∧
      (m.exec ops).numElm = (m.exec ops).entries.length := by
  have hsound := (sound_of_init hinit).1.exec ops
  obtain ⟨-, hanswer, hget⟩ := hsound.onTable op
  refine ⟨hanswer, hget, fun key val => ?_, hsound.nodup_entries, ?_⟩
  · rw [mem_entries, hsound.get_eq_some]
  · rw [hsound.num, usedSlots_card]

def twoSlots : CloseHashmap ℕ ℕ := ⟨2, id, fun _ => .empty, 0⟩

/-- The slot that the second key has taken and left is not its home. -/
def takenAndLeft : List (Op ℕ ℕ) := [.insert 0 10, .insert 2 20, .erase 2]

theorem exec_onTable_takenAndLeft : init 2 id = some twoSlots ∧
    ((Op.insert 4 30).onTable (twoSlots.exec takenAndLeft)).1 = false ∧
    ((Op.insert 4 30).onMap (twoSlots.exec takenAndLeft).get).1 = true ∧
    ¬ (Op.insert 4 30).Fits (twoSlots.exec takenAndLeft) := by
  have hinit : init 2 id = some twoSlots := rfl
  refine ⟨hinit, by decide, by decide, fun hfits => ?_⟩
  have hyes := (exec_onTable hinit takenAndLeft (.insert 4 30)).1.mpr ⟨by decide, hfits⟩
  exact absurd hyes (by decide)

def answers : CloseHashmap Key Val → List (Op Key Val) → List Bool × (Key → Option Val)
  | m, [] => ([], m.get)
  | m, op :: ops =>
    let r := answers (op.onTable m).2 ops
    ((op.onTable m).1 :: r.1, r.2)

def mapAnswers : (Key → Option Val) → List (Op Key Val) → List Bool × (Key → Option Val)
  | map, [] => ([], map)
  | map, op :: ops =>
    let r := mapAnswers (op.onMap map).2 ops
    ((op.onMap map).1 :: r.1, r.2)

def added : (Key → Option Val) → List (Op Key Val) → ℕ
  | _, [] => 0
  | map, op :: ops => (if op.adds map then 1 else 0) + added (op.onMap map).2 ops

theorem Sound.emptySlots_onTable (h : m.Sound) (op : Op Key Val) :
    m.emptySlots.card ≤ (op.onTable m).2.emptySlots.card + if op.adds m.get then 1 else 0 := by
  cases op with
  | insert key val =>
    refine (h.emptySlots_insert key val).trans (Nat.add_le_add_left ?_ _)
    split_ifs with hyes hadds
    · exact Nat.le_refl 1
    · exact absurd (Option.isNone_iff_eq_none.mpr (h.insert_eq_true.mp hyes).1) hadds
    · exact Nat.zero_le 1
    · exact Nat.le_refl 0
  | erase key => exact Nat.le_of_eq (congrArg Finset.card (h.emptySlots_erase key)).symm
  | modify key f => exact Nat.le_of_eq (congrArg Finset.card (h.emptySlots_modify key f)).symm

theorem Sound.answers (h : m.Sound) {ops : List (Op Key Val)}
    (hroom : added m.get ops ≤ m.emptySlots.card) :
    m.answers ops = mapAnswers m.get ops := by
  induction ops generalizing m with
  | nil => rfl
  | cons op ops ih =>
    obtain ⟨hsound, hanswer, hget⟩ := h.onTable op
    have hempty := h.emptySlots_onTable op
    have hroom' : (if op.adds m.get then 1 else 0) + added (op.onMap m.get).2 ops ≤
      m.emptySlots.card := hroom
    have hfits (hyes : (op.onMap m.get).1 = true) : op.Fits m := by
      cases op with
      | insert key val =>
        have hadds : (Op.insert key val).adds m.get = true := hyes
        rw [hadds, if_pos rfl] at hroom'
        exact room_of_emptySlots (by omega) key
      | erase key => trivial
      | modify key f => trivial
    have hsame : (op.onTable m).1 = (op.onMap m.get).1 :=
      Bool.eq_iff_iff.mpr (hanswer.trans (and_iff_left_of_imp hfits))
    have hmap : (op.onTable m).2.get = (op.onMap m.get).2 := by
      rw [hget, hsame]
      cases hyes : (op.onMap m.get).1 with
      | true => rfl
      | false => exact (Op.onMap_of_false hyes).symm
    rw [CloseHashmap.answers, mapAnswers, hsame, ← hmap]
    rw [ih hsound (by rw [hmap]; omega)]

/-- The map of a run that makes no more entries than the table has slots is exact, whatever is
erased between. -/
theorem answers_of_init {n : ℕ} {hash : Key → ℕ} (hinit : init n hash = some m)
    {ops : List (Op Key Val)} (hroom : added (fun _ => none) ops ≤ n) :
    m.answers ops = mapAnswers (fun _ => none) ops := by
  obtain ⟨hsound, hget⟩ := sound_of_init hinit
  rw [← hget] at hroom ⊢
  refine hsound.answers ?_
  rwa [emptySlots_of_init hinit]

theorem answers_of_init_takenAndLeft : added (fun _ => none) takenAndLeft ≤ 2 ∧
    twoSlots.answers takenAndLeft = mapAnswers (fun _ => none) takenAndLeft := by
  have hinit : init 2 id = some twoSlots := rfl
  exact ⟨by decide, answers_of_init hinit (by decide)⟩

end CloseHashmap

end Magneto
