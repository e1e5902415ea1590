import Magneto.HeapSpec
import Mathlib.Data.Int.Order.Basic

/-!
# Runs of the heap

What each operation of the heap does to the map of signs, and a run of
operations beside that map: a caller updates and erases only signs it was given
and has not erased since.
-/

namespace Magneto

namespace HeapBase

open HeapOrder (Ordered Holed)

variable {Val K : Type*} {h : HeapBase Val} {sign i : ℕ} {v w : Val}

theorem placed_init (fresh : ℕ → HeapItem Val) {n : ℕ} (hn : 1 ≤ n) :
    (init fresh n).Placed :=
  ⟨hn, fun _ hi => hi, fun _ _ _ _ he => he, fun i h1 hi => by
    have h0 : i ≤ 0 := hi
    omega⟩

theorem contents_setVal (hv : h.contents sign = some w) :
    (h.setVal sign v).contents = Function.update h.contents sign (some v) := by
  funext s
  rw [contents_eq_some_iff_index] at hv
  by_cases hs : s = sign
  · subst hs
    rw [Function.update_self, contents_eq_some_iff_index, index_setVal, item_setVal_self]
    exact ⟨hv.1, rfl⟩
  · rw [Function.update_of_ne hs]
    unfold contents
    rw [index_setVal, item_setVal_of_ne hs]
    rfl

theorem position_of_contents (hv : h.contents sign = some v) :
    1 ≤ (h.nodes sign).index ∧ (h.nodes sign).index ≤ h.numItems ∧
      h.heapItems (h.nodes sign).index = sign :=
  (contents_eq_some_iff_index.mp hv).1

namespace Placed

theorem setVal (hp : h.Placed) (node : ℕ) (val : Val) : (h.setVal node val).Placed :=
  ⟨hp.room, hp.allocated, hp.distinct, fun i h1 hn => by
    rw [index_setVal]
    exact hp.index i h1 hn⟩

theorem resize (hp : h.Placed) : h.resize.Placed := by
  have hroom := hp.room
  have hsize : h.resize.sizeContainer = 2 * h.sizeContainer := rfl
  have hold : ∀ i, i < h.sizeContainer → h.resize.heapItems i = h.heapItems i := by
    intro i hi
    exact if_neg (by omega)
  have hnew : ∀ i, h.sizeContainer ≤ i → i < 2 * h.sizeContainer → h.resize.heapItems i = i :=
    fun i hi hlt => if_pos ⟨hi, hlt⟩
  refine ⟨?_, fun i hi => ?_, fun i j hi hj he => ?_, fun i h1 hn => ?_⟩
  · have hnum : h.resize.numItems = h.numItems := rfl
    omega
  · rw [hsize] at hi ⊢
    obtain hlt | hge := Nat.lt_or_ge i h.sizeContainer
    · have := hp.allocated i hlt
      rw [hold i hlt]
      omega
    · rw [hnew i hge hi]
      exact hi
  · rw [hsize] at hi hj
    obtain hilt | hige := Nat.lt_or_ge i h.sizeContainer <;>
      obtain hjlt | hjge := Nat.lt_or_ge j h.sizeContainer
    · rw [hold i hilt, hold j hjlt] at he
      exact hp.distinct i j hilt hjlt he
    · have := hp.allocated i hilt
      rw [hold i hilt, hnew j hjge hj] at he
      omega
    · have := hp.allocated j hjlt
      rw [hnew i hige hi, hold j hjlt] at he
      omega
    · rwa [hnew i hige hi, hnew j hjge hj] at he
  · have hn' : i ≤ h.numItems := hn
    rw [hold i (by omega)]
    exact hp.index i h1 hn'

theorem grown (hp : h.Placed) : ∃ g : HeapBase Val,
    g = (if h.numItems + 1 = h.sizeContainer then h.resize else h) ∧ g.Placed ∧
      g.numItems = h.numItems ∧ g.numItems + 1 < g.sizeContainer ∧ g.nodes = h.nodes ∧
        ∀ i, i ≤ h.numItems → g.heapItems i = h.heapItems i := by
  have hroom := hp.room
  refine ⟨_, rfl, ?_⟩
  split_ifs with hfull
  · refine ⟨hp.resize, rfl, ?_, rfl, fun i hi => if_neg (by omega)⟩
    have hnum : h.resize.numItems = h.numItems := rfl
    have hsize : h.resize.sizeContainer = 2 * h.sizeContainer := rfl
    omega
  · exact ⟨hp, rfl, by omega, rfl, fun i _ => rfl⟩

theorem append {g : HeapBase Val} (hp : g.Placed) (hroom : g.numItems + 1 < g.sizeContainer)
    (v : Val) :
    let node := g.heapItems (g.numItems + 1)
    let g' := ({ g with numItems := g.numItems + 1 }.setVal node v).move (g.numItems + 1) node
    g'.Placed ∧ g.contents node = none ∧
      g'.contents = Function.update g.contents node (some v) := by
  intro node g'
  have hne : ∀ i, i ≤ g.numItems → g.heapItems i ≠ node := by
    intro i hi he
    have := hp.distinct i (g.numItems + 1) (by omega) hroom he
    omega
  have hitems : g'.heapItems = g.heapItems := Function.update_eq_self _ _
  have hindex : (g'.nodes node).index = g.numItems + 1 := index_move_self _ _
  have hval : g'.item node = v := by
    rw [item_move, item_setVal_self]
  have hindexOf : ∀ s, s ≠ node → (g'.nodes s).index = (g.nodes s).index := by
    intro s hs
    rw [index_move_of_ne hs, index_setVal]
  have hvalOf : ∀ s, s ≠ node → g'.item s = g.item s := by
    intro s hs
    rw [item_move, item_setVal_of_ne hs]
    rfl
  have hplaced : g'.Placed := by
    refine ⟨hroom, fun i hi => ?_, fun i j hi hj he => ?_, fun i h1 hn => ?_⟩
    · rw [hitems]
      exact hp.allocated i hi
    · rw [hitems] at he
      exact hp.distinct i j hi hj he
    · have hn' : i ≤ g.numItems + 1 := hn
      rw [hitems]
      obtain rfl | hlt := Nat.eq_or_lt_of_le hn'
      · exact hindex
      · rw [hindexOf _ (hne i (by omega))]
        exact hp.index i h1 (by omega)
  refine ⟨hplaced, ?_, funext fun s => Option.ext fun u => ?_⟩
  · rw [Option.eq_none_iff_forall_ne_some]
    intro u hu
    obtain ⟨i, _, hi, he, _⟩ := hp.contents_eq_some.mp hu
    exact hne i hi he
  · rw [hplaced.contents_eq_some, hitems]
    by_cases hs : s = node
    · subst hs
      rw [Function.update_self, hval]
      constructor
      · rintro ⟨_, _, _, _, rfl⟩
        rfl
      · rintro ⟨⟩
        exact ⟨g.numItems + 1, by omega, Nat.le_refl _, rfl, rfl⟩
    · rw [Function.update_of_ne hs, hp.contents_eq_some, hvalOf s hs]
      constructor
      · rintro ⟨i, h1, hi, rfl, hu⟩
        have hi' : i ≤ g.numItems + 1 := hi
        have hlast : i ≠ g.numItems + 1 := by
          rintro rfl
          exact hs rfl
        exact ⟨i, h1, by omega, rfl, hu⟩
      · rintro ⟨i, h1, hi, he, hu⟩
        exact ⟨i, h1, Nat.le_succ_of_le hi, he, hu⟩

end Placed

theorem nodes_cut : (h.cut sign).nodes = Function.update h.nodes
    ((h.cut sign).heapItems (h.nodes sign).index)
    { h.nodes ((h.cut sign).heapItems (h.nodes sign).index) with
      index := (h.nodes sign).index } := rfl

@[simp] theorem numItems_cut : (h.cut sign).numItems = h.numItems - 1 := rfl

@[simp] theorem sizeContainer_cut : (h.cut sign).sizeContainer = h.sizeContainer := rfl

theorem item_cut (node : ℕ) : (h.cut sign).item node = h.item node := by
  unfold item
  rw [nodes_cut]
  by_cases hs : node = (h.cut sign).heapItems (h.nodes sign).index
  · rw [← hs, Function.update_self]
  · rw [Function.update_of_ne hs]

theorem heapItems_cut (hat : h.heapItems (h.nodes sign).index = sign) :
    (h.cut sign).heapItems = h.heapItems ∘ Equiv.swap (h.nodes sign).index h.numItems := by
  funext i
  have hcut : (h.cut sign).heapItems = Function.update
      (Function.update h.heapItems (h.nodes sign).index (h.heapItems h.numItems))
      h.numItems sign := rfl
  rw [hcut, Function.comp_apply]
  by_cases hin : i = h.numItems
  · rw [hin, Function.update_self, Equiv.swap_apply_right, hat]
  · rw [Function.update_of_ne hin]
    by_cases hik : i = (h.nodes sign).index
    · rw [hik, Function.update_self, Equiv.swap_apply_left]
    · rw [Function.update_of_ne hik, Equiv.swap_apply_of_ne_of_ne hik hin]

theorem heapItems_cut_of_ne (hat : h.heapItems (h.nodes sign).index = sign)
    (hi : i ≠ (h.nodes sign).index) (hn : i < h.numItems) :
    (h.cut sign).heapItems i = h.heapItems i := by
  rw [heapItems_cut hat, Function.comp_apply, Equiv.swap_apply_of_ne_of_ne hi (by omega)]

theorem swap_lt {n j k : ℕ} (hj : j < n) (hk : k < n) (hi : i < n) : Equiv.swap j k i < n := by
  rw [Equiv.swap_apply_def]
  split_ifs
  · exact hk
  · exact hj
  · exact hi

namespace Placed

theorem cut (hp : h.Placed) (hv : h.contents sign = some v) : (h.cut sign).Placed := by
  obtain ⟨h1, hn, hat⟩ := position_of_contents hv
  have hroom := hp.room
  have hlt : ∀ i, i < h.sizeContainer →
      Equiv.swap (h.nodes sign).index h.numItems i < h.sizeContainer :=
    fun i hi => swap_lt (by omega) (by omega) hi
  have hdistinct : ∀ i j, i < h.sizeContainer → j < h.sizeContainer →
      (h.cut sign).heapItems i = (h.cut sign).heapItems j → i = j := by
    intro i j hi hj he
    rw [heapItems_cut hat] at he
    exact (Equiv.swap _ _).injective (hp.distinct _ _ (hlt i hi) (hlt j hj) he)
  refine ⟨?_, fun i hi => ?_, hdistinct, fun i hi1 hi => ?_⟩
  · rw [numItems_cut, sizeContainer_cut]
    omega
  · rw [heapItems_cut hat]
    exact hp.allocated _ (hlt i hi)
  · rw [numItems_cut] at hi
    rw [nodes_cut]
    by_cases hik : i = (h.nodes sign).index
    · rw [hik, Function.update_self]
    · have hne : (h.cut sign).heapItems i ≠ (h.cut sign).heapItems (h.nodes sign).index := by
        intro he
        exact hik (hdistinct _ _ (by omega) (by omega) he)
      rw [Function.update_of_ne hne, heapItems_cut_of_ne hat hik (by omega)]
      exact hp.index i hi1 (by omega)

theorem contents_cut (hp : h.Placed) (hv : h.contents sign = some v) :
    (h.cut sign).contents = Function.update h.contents sign none := by
  obtain ⟨h1, hn, hat⟩ := position_of_contents hv
  have hroom := hp.room
  have hcut := hp.cut hv
  have hlast : (h.cut sign).heapItems h.numItems = sign := by
    rw [heapItems_cut hat, Function.comp_apply, Equiv.swap_apply_right, hat]
  funext s
  refine Option.ext fun u => ?_
  rw [hcut.contents_eq_some, numItems_cut, item_cut]
  by_cases hs : s = sign
  · subst hs
    rw [Function.update_self]
    constructor
    · rintro ⟨i, _, hi, he, _⟩
      have hin := hcut.distinct i h.numItems (by rw [sizeContainer_cut]; omega)
        hroom (he.trans hlast.symm)
      omega
    · rintro ⟨⟩
  · rw [Function.update_of_ne hs, hp.contents_eq_some]
    constructor
    · rintro ⟨i, hi1, hi, he, hu⟩
      refine ⟨Equiv.swap (h.nodes sign).index h.numItems i, ?_, ?_, ?_, hu⟩
      · rw [Equiv.swap_apply_def]
        split_ifs <;> omega
      · exact Nat.le_of_lt_succ (swap_lt (by omega) (by omega) (by omega))
      · rw [← he, heapItems_cut hat, Function.comp_apply]
    · rintro ⟨i, hi1, hi, he, hu⟩
      have hik : i ≠ (h.nodes sign).index := by
        rintro rfl
        exact hs (he.symm.trans hat)
      by_cases hin : i = h.numItems
      · refine ⟨(h.nodes sign).index, h1, by omega, ?_, hu⟩
        rw [heapItems_cut hat, Function.comp_apply, Equiv.swap_apply_left, ← hin, he]
      · exact ⟨i, hi1, by omega, by rw [heapItems_cut_of_ne hat hik (by omega), he], hu⟩

end Placed

section Operations

variable [LinearOrder K] {feature : Val → K}

theorem sound_init (fresh : ℕ → HeapItem Val) {n : ℕ} (hn : 1 ≤ n) :
    (init fresh n).Sound feature :=
  { placed_init fresh hn with
    ordered := fun i h1 hi => by
      have h0 : i ≤ 0 := hi
      omega }

namespace Sound

theorem insert (hs : h.Sound feature) (v : Val) :
    (h.insert feature v).1.Sound feature ∧ h.contents (h.insert feature v).2 = none ∧
      (h.insert feature v).1.contents =
        Function.update h.contents (h.insert feature v).2 (some v) := by
  obtain ⟨g, hg, hp, hnum, hroom, hnodes, hitems⟩ := hs.toPlaced.grown
  obtain ⟨happ, hnone, hcont⟩ := hp.append hroom v
  have hins : h.insert feature v =
      (({ g with numItems := g.numItems + 1 }.setVal (g.heapItems (g.numItems + 1)) v).upstairs
        feature (g.heapItems (g.numItems + 1)) (g.numItems + 1),
        g.heapItems (g.numItems + 1)) := by
    rw [hg]
    rfl
  have hsame : g.contents = h.contents := by
    funext s
    refine Option.ext fun u => ?_
    rw [hp.contents_eq_some, hs.contents_eq_some, hnum]
    have hitem : g.item s = h.item s := by rw [item, hnodes, item]
    rw [hitem]
    constructor
    · rintro ⟨i, h1, hi, he, hu⟩
      exact ⟨i, h1, hi, by rw [← hitems i hi, he], hu⟩
    · rintro ⟨i, h1, hi, he, hu⟩
      exact ⟨i, h1, hi, by rw [hitems i hi, he], hu⟩
  have hr := rearranged_upstairs feature happ (by omega) (Nat.le_refl _)
  have hord : Ordered ((({ g with numItems := g.numItems + 1 }.setVal
      (g.heapItems (g.numItems + 1)) v).upstairs feature (g.heapItems (g.numItems + 1))
        (g.numItems + 1)).keys feature) (g.numItems + 1) := by
    refine ordered_upstairs feature ?_ (fun c hc hck => ?_) (Nat.le_refl _)
    · refine (hnum ▸ hs.ordered : Ordered _ g.numItems).holed_succ fun i hi => ?_
      have hne : g.heapItems i ≠ g.heapItems (g.numItems + 1) := by
        intro he
        have := hp.distinct i (g.numItems + 1) (by omega) hroom he
        omega
      have hkey : (HeapBase.setVal { g with numItems := g.numItems + 1 }
          (g.heapItems (g.numItems + 1)) v).item (g.heapItems i) = h.item (h.heapItems i) := by
        rw [item_setVal_of_ne hne, hitems i (by omega)]
        exact congrArg (fun nodes : ℕ → HeapItem Val => (nodes (h.heapItems i)).val) hnodes
      exact congrArg feature hkey
    · have hc' : c ≤ g.numItems + 1 := hc
      omega
  rw [hins, ← hsame]
  exact ⟨⟨hr.placed, by rw [hr.numItems]; exact hord⟩, hnone, hr.contents.trans hcont⟩

theorem update (hs : h.Sound feature) (hv : h.contents sign = some w) (v : Val) :
    (h.update feature sign v).Sound feature ∧
      (h.update feature sign v).contents = Function.update h.contents sign (some v) := by
  obtain ⟨h1, hn, hat⟩ := position_of_contents hv
  have hholed : Holed ((h.setVal sign v).keys feature) (h.setVal sign v).numItems
      (h.nodes sign).index := by
    refine hs.ordered.holed fun i hi hin => ?_
    have hne : h.heapItems i ≠ sign := by
      intro he
      have hroom := hs.room
      exact hi (hs.distinct _ _ (by omega) (by omega) (he.trans hat.symm))
    exact congrArg feature (item_setVal_of_ne hne)
  obtain ⟨hr, hsound⟩ := (hs.toPlaced.setVal sign v).adjustNode h1 hholed
  exact ⟨hsound, hr.contents.trans (contents_setVal hv)⟩

theorem erase (hs : h.Sound feature) (hv : h.contents sign = some v) :
    (h.erase feature sign).Sound feature ∧
      (h.erase feature sign).contents = Function.update h.contents sign none ∧
        (h.erase feature sign).numItems = h.numItems - 1 := by
  obtain ⟨h1, hn, hat⟩ := position_of_contents hv
  have hnum : h.numItems ≠ 0 := by omega
  have hholed : Holed ((h.cut sign).keys feature) (h.cut sign).numItems
      (h.nodes sign).index := by
    refine (hs.ordered.mono (Nat.sub_le _ 1)).holed fun i hi hin => ?_
    unfold keys
    rw [heapItems_cut_of_ne hat hi (by omega), item_cut]
  obtain ⟨hr, hsound⟩ := (hs.toPlaced.cut hv).adjustNode h1 hholed
  have herase : h.erase feature sign = (h.cut sign).adjustNode feature (h.nodes sign).index :=
    if_neg hnum
  rw [herase]
  exact ⟨hsound, hr.contents.trans (hs.toPlaced.contents_cut hv), hr.numItems⟩

theorem contents_root (hs : h.Sound feature) (hn : h.numItems ≠ 0) :
    h.contents (h.heapItems 1) = some (h.item (h.heapItems 1)) :=
  hs.contents_heapItems (Nat.le_refl 1) (Nat.one_le_iff_ne_zero.mpr hn)

theorem root_le (hs : h.Sound feature) (hv : h.contents sign = some v) :
    feature (h.item (h.heapItems 1)) ≤ feature v := by
  obtain ⟨i, h1, hn, rfl, rfl⟩ := hs.contents_eq_some.mp hv
  exact hs.ordered.root_le h1 hn

omit [LinearOrder K] in
theorem contents_of_empty (hn : h.numItems = 0) (sign : ℕ) : h.contents sign = none := by
  rw [Option.eq_none_iff_forall_ne_some]
  intro v hv
  have hpos := position_of_contents hv
  omega

theorem top_eq_none (hs : h.Sound feature) : h.top = none ↔ ∀ sign, h.contents sign = none := by
  unfold HeapBase.top
  split_ifs with hn
  · exact ⟨fun _ => contents_of_empty hn, fun _ => rfl⟩
  · refine ⟨(nomatch ·), fun hall => ?_⟩
    have hroot := hs.contents_root hn
    rw [hall] at hroot
    cases hroot

theorem of_top (hs : h.Sound feature) (ht : h.top = some v) :
    h.contents (h.heapItems 1) = some v ∧
      ∀ sign w, h.contents sign = some w → feature v ≤ feature w := by
  unfold HeapBase.top at ht
  split_ifs at ht with hn
  cases ht
  exact ⟨hs.contents_root hn, fun sign w hw => hs.root_le hw⟩

theorem updateTop (hs : h.Sound feature) (hn : h.numItems ≠ 0) (v : Val) :
    (h.updateTop feature v).Sound feature ∧ (h.updateTop feature v).contents =
      Function.update h.contents (h.heapItems 1) (some v) := by
  have hidx : (h.nodes (h.heapItems 1)).index = 1 :=
    hs.index 1 (Nat.le_refl 1) (Nat.one_le_iff_ne_zero.mpr hn)
  have htop : h.updateTop feature v = h.update feature (h.heapItems 1) v := by
    unfold HeapBase.updateTop HeapBase.update
    rw [if_neg hn, hidx]
  rw [htop]
  exact hs.update (hs.contents_root hn) v

omit [LinearOrder K] in
theorem clear (hp : h.Placed) : h.clear.Placed :=
  ⟨Nat.lt_of_le_of_lt (Nat.zero_le _) hp.room, hp.allocated, hp.distinct, fun i h1 hi => by
    have h0 : i ≤ 0 := hi
    omega⟩

end Sound

end Operations

inductive Op (Val : Type*)
  | insert (val : Val)
  | update (sign : ℕ) (val : Val)
  | updateTop (val : Val)
  | erase (sign : ℕ)
  | pop
  | clear
  deriving DecidableEq, Repr

structure Used (Val : Type*) where
  heap : HeapBase Val
  held : ℕ → Option Val

namespace Used

variable [LinearOrder K] (feature : Val → K)

def Enabled (u : Used Val) : Op Val → Prop
  | .update sign _ => (u.held sign).isSome
  | .erase sign => (u.held sign).isSome
  | _ => True

instance (u : Used Val) : ∀ op, Decidable (u.Enabled op)
  | .insert _ => inferInstanceAs (Decidable True)
  | .update sign _ => inferInstanceAs (Decidable ((u.held sign).isSome = true))
  | .updateTop _ => inferInstanceAs (Decidable True)
  | .erase sign => inferInstanceAs (Decidable ((u.held sign).isSome = true))
  | .pop => inferInstanceAs (Decidable True)
  | .clear => inferInstanceAs (Decidable True)

def setRoot (u : Used Val) (val : Option Val) : ℕ → Option Val :=
  if u.heap.numItems = 0 then u.held else Function.update u.held (u.heap.heapItems 1) val

def next (u : Used Val) : Op Val → Used Val
  | .insert val =>
    let r := u.heap.insert feature val
    ⟨r.1, Function.update u.held r.2 (some val)⟩
  | .update sign val =>
    ⟨u.heap.update feature sign val, Function.update u.held sign (some val)⟩
  | .updateTop val => ⟨u.heap.updateTop feature val, u.setRoot (some val)⟩
  | .erase sign => ⟨u.heap.erase feature sign, Function.update u.held sign none⟩
  | .pop => ⟨u.heap.pop feature, u.setRoot none⟩
  | .clear => ⟨u.heap.clear, fun _ => none⟩

def machine : Machine (Used Val) (Op Val) where
  enabled := Enabled
  next := next feature

instance (u : Used Val) (op : Op Val) : Decidable ((machine feature).enabled u op) :=
  inferInstanceAs (Decidable (u.Enabled op))

def init (fresh : ℕ → HeapItem Val) (initSizeHeap : ℕ) : Used Val :=
  ⟨.init fresh initSizeHeap, fun _ => none⟩

def Refines (u : Used Val) : Prop := u.heap.Sound feature ∧ u.heap.contents = u.held

variable {feature} {u : Used Val}

theorem Refines.next {op : Op Val} (hu : u.Refines feature) (he : u.Enabled op) :
    (u.next feature op).Refines feature := by
  obtain ⟨hs, hc⟩ := hu
  cases op with
  | insert val =>
    obtain ⟨hsound, -, hcont⟩ := hs.insert val
    exact ⟨hsound, by rw [Used.next, hcont, hc]⟩
  | update sign val =>
    obtain ⟨w, hw⟩ := Option.isSome_iff_exists.mp he
    obtain ⟨hsound, hcont⟩ := hs.update (hc ▸ hw) val
    exact ⟨hsound, by rw [Used.next, hcont, hc]⟩
  | updateTop val =>
    by_cases hn : u.heap.numItems = 0
    · rw [Used.next, HeapBase.updateTop, setRoot, if_pos hn, if_pos hn]
      exact ⟨hs, hc⟩
    · obtain ⟨hsound, hcont⟩ := hs.updateTop hn val
      exact ⟨hsound, by rw [Used.next, hcont, setRoot, if_neg hn, hc]⟩
  | erase sign =>
    obtain ⟨w, hw⟩ := Option.isSome_iff_exists.mp he
    obtain ⟨hsound, hcont, -⟩ := hs.erase (hc ▸ hw)
    exact ⟨hsound, by rw [Used.next, hcont, hc]⟩
  | pop =>
    by_cases hn : u.heap.numItems = 0
    · rw [Used.next, HeapBase.pop, HeapBase.erase, setRoot, if_pos hn, if_pos hn]
      exact ⟨hs, hc⟩
    · obtain ⟨hsound, hcont, -⟩ := hs.erase (hs.contents_root hn)
      exact ⟨hsound, by rw [Used.next, HeapBase.pop, hcont, setRoot, if_neg hn, hc]⟩
  | clear =>
    refine ⟨⟨Sound.clear hs.toPlaced, fun i h1 hi => ?_⟩, funext (Sound.contents_of_empty rfl)⟩
    have h0 : i ≤ 0 := hi
    omega

theorem refines_init (fresh : ℕ → HeapItem Val) {n : ℕ} (hn : 1 ≤ n) :
    (init fresh n).Refines feature :=
  ⟨sound_init fresh hn, funext (Sound.contents_of_empty rfl)⟩

theorem refines_exec (fresh : ℕ → HeapItem Val) {n : ℕ} (hn : 1 ≤ n) {ops : List (Op Val)}
    (hops : (machine feature).Admits (init fresh n) ops) :
    ((machine feature).exec (init fresh n) ops).Refines feature :=
  (machine feature).invariant (fun _ _ hu he => Refines.next hu he) (refines_init fresh hn) hops

/-- After any run the heap holds exactly the values its user holds signs of, a new value gets
a sign not in use, and the top is one of the least values held. -/
theorem exec_contents (fresh : ℕ → HeapItem Val) {n : ℕ} (hn : 1 ≤ n) {ops : List (Op Val)}
    (hops : (machine feature).Admits (init fresh n) ops) :
    let u := (machine feature).exec (init fresh n) ops
    u.heap.contents = u.held ∧ (∀ val, u.held (u.heap.insert feature val).2 = none) ∧
      (u.heap.top = none ↔ ∀ sign, u.held sign = none) ∧
        ∀ v, u.heap.top = some v → u.held (u.heap.heapItems 1) = some v ∧
          ∀ sign w, u.held sign = some w → feature v ≤ feature w := by
  intro u
  obtain ⟨hs, hc⟩ := refines_exec fresh hn hops
  refine ⟨hc, fun val => ?_, ?_, fun v hv => ?_⟩
  · rw [← hc]
    exact (hs.insert val).2.1
  · rw [← hc]
    exact hs.top_eq_none
  · rw [← hc]
    exact hs.of_top hv

theorem exec_contents_seven :
    let u := (machine (id : ℤ → ℤ)).exec (init (fun _ => ⟨0, 0⟩) 2)
      [.insert 5, .insert 3, .insert 4, .update 1 2, .erase 2, .pop, .insert 7];
    u.heap.contents = u.held ∧ (∀ val, u.held (u.heap.insert id val).2 = none) ∧
      (u.heap.top = none ↔ ∀ sign, u.held sign = none) ∧
        ∀ v, u.heap.top = some v → u.held (u.heap.heapItems 1) = some v ∧
          ∀ sign w, u.held sign = some w → v ≤ w :=
  exec_contents (fun _ => ⟨0, 0⟩) (by decide) (by decide +kernel)

end Used

end HeapBase

end Magneto
