import Magneto.ConnsSelect
import Magneto.Lib.KeyedSum
import Mathlib.Algebra.Order.BigOperators.Group.Finset

/-!
# When every selection succeeds

A service can be selected from in every health state, after every history of
failures and for every random value exactly when it has a remote and, if the
selection is weighted, the remotes of every address together weigh something and
the total, at full health, fits an `int`. Sums wrap around like a `size_t`.
-/

namespace Magneto

open KeyedSum

namespace ConnsMgr

variable {m : ConnsMgr} {service : Service} {failRemotes : List Remote}

/-- `GetRemote_` returns a remote of the service, whatever the health marks, the
remotes that failed before and the value of `rand_r`. -/
def SafeToSelect (service : Service) : Prop :=
  ∀ m : ConnsMgr, m.HealthOk → (∀ r ∈ service.remotes, (m.conns r.addr).isSome) →
    ∀ failRemotes : List Remote, (∀ f ∈ failRemotes, f ∈ service.remotes) →
      ∀ rand < 2 ^ 31, ∃ ref r, (m.getRemote service failRemotes rand).1 = some ref ∧
        ref.deref (m.getRemote service failRemotes rand).2.tmpRemotes = some r ∧
        r ∈ service.remotes

/-- The weights at every address add up to something, and to at most what an
`int` can hold after the multiplication with a full health mark. -/
def WeightsOk {κ : Type} [DecidableEq κ] (weights : List (κ × ℕ)) : Prop :=
  (∀ a ∈ keys weights, 0 < total weights a % 2 ^ 64) ∧
    100 * ∑ a ∈ keys weights, total weights a % 2 ^ 64 < 2 ^ 31

def addrWeights (remotes : List Remote) : List (Addr × ℕ) :=
  remotes.map fun r => (r.addr, r.weight)

theorem mem_keys_addrWeights {remotes : List Remote} {a : Addr} :
    a ∈ keys (addrWeights remotes) ↔ ∃ r ∈ remotes, r.addr = a := by
  simp [mem_keys, addrWeights]

theorem narrow_narrow_add (a b : ℤ) : Word.narrow (Word.narrow a + b) = Word.narrow (a + b) :=
  Int.bmod_add_bmod

theorem narrow_lt (n : ℤ) : Word.narrow n < 2 ^ 31 := by
  unfold Word.narrow
  exact Int.bmod_lt (by decide)

theorem narrow_mod (n : ℕ) : Word.narrow ((n % 2 ^ 64 : ℕ) : ℤ) = Word.narrow n := by
  have hmod : ((n : ℤ) % ((2 ^ 64 : ℕ) : ℤ)) % ((2 ^ 32 : ℕ) : ℤ) = n % ((2 ^ 32 : ℕ) : ℤ) :=
    Int.emod_emod_of_dvd _ (by decide)
  unfold Word.narrow
  rw [Int.bmod_def, Int.bmod_def, Int.natCast_mod, hmod]

theorem pickWeight_isSome {ws : List ℕ} {random weight : ℤ} {i : ℕ}
    (hweight : Word.narrow weight = weight) (hle : weight ≤ random)
    (hlt : random < Word.narrow (weight + ws.sum)) :
    (pickWeight random ws weight i).isSome := by
  induction ws generalizing weight i with
  | nil =>
    simp only [List.sum_nil, Nat.cast_zero, add_zero, hweight] at hlt
    omega
  | cons w ws ih =>
    rw [pickWeight]
    split_ifs with h
    · rfl
    · refine ih ?_ (not_lt.mp h) ?_
      · simpa using narrow_narrow_add (weight + w) 0
      · rw [narrow_narrow_add, add_assoc]
        simpa using hlt

theorem pickWeight_eq_none {ws : List ℕ} {random weight : ℤ} {i : ℕ} (h : 2 ^ 31 - 1 ≤ random) :
    pickWeight random ws weight i = none := by
  induction ws generalizing weight i with
  | nil => rfl
  | cons w ws ih =>
    have hlt := narrow_lt (weight + w)
    rw [pickWeight, if_neg (by omega)]
    exact ih

/-- A remote is found for every random value exactly when the total, as a
`size_t`, is a positive `int`. -/
theorem pick_isSome_iff (ws : List ℕ) :
    (∀ rand < 2 ^ 31, (pick ws (ws.sum % 2 ^ 64) rand).isSome) ↔
      0 < ws.sum % 2 ^ 64 ∧ ws.sum % 2 ^ 64 < 2 ^ 31 := by
  constructor
  · intro h
    have hlast := h (2 ^ 31 - 1) (by decide)
    have hzero : ws.sum % 2 ^ 64 ≠ 0 := by
      intro hzero
      rw [pick, if_pos hzero] at hlast
      cases hlast
    refine ⟨Nat.pos_of_ne_zero hzero, ?_⟩
    by_contra hge
    have hmod : (2 ^ 31 - 1) % (ws.sum % 2 ^ 64) = 2 ^ 31 - 1 := Nat.mod_eq_of_lt (by omega)
    rw [pick, if_neg hzero, hmod, Word.narrow_natCast_eq_iff.mpr (by decide),
      pickWeight_eq_none (by norm_num)] at hlast
    cases hlast
  · rintro ⟨hpos, hlt⟩ rand -
    have hmod : rand % (ws.sum % 2 ^ 64) < ws.sum % 2 ^ 64 := Nat.mod_lt _ hpos
    rw [pick, if_neg hpos.ne', Word.narrow_natCast_eq_iff.mpr (hmod.trans hlt)]
    refine pickWeight_isSome (by decide) (Int.natCast_nonneg _) ?_
    rw [zero_add, ← narrow_mod, Word.narrow_natCast_eq_iff.mpr hlt]
    exact_mod_cast hmod

theorem pickWeight_lt {ws : List ℕ} {random weight : ℤ} {i j : ℕ}
    (h : pickWeight random ws weight i = some j) : j < i + ws.length := by
  induction ws generalizing weight i with
  | nil => cases h
  | cons w ws ih =>
    rw [pickWeight] at h
    rw [List.length_cons]
    split_ifs at h
    · obtain rfl := Option.some.inj h
      omega
    · have := ih h
      omega

theorem pick_lt {ws : List ℕ} {weightAll rand j : ℕ} (h : pick ws weightAll rand = some j) :
    j < ws.length := by
  rw [pick] at h
  split_ifs at h
  simpa using pickWeight_lt h

theorem healthWeights_length {rs : List Remote} {ws : List ℕ}
    (h : m.healthWeights rs = some ws) : ws.length = rs.length := by
  induction rs generalizing ws with
  | nil =>
    obtain rfl := Option.some.inj h
    rfl
  | cons r rs ih =>
    simp only [healthWeights] at h
    split at h
    · next hws =>
      obtain rfl := Option.some.inj h
      rw [List.length_cons, List.length_cons, ih hws]
    · cases h

theorem elem_deref {i : ℕ} (hi : i < service.remotes.length) (tmpRemotes : List Remote) :
    ∃ r, (RemoteRef.elem service i).deref tmpRemotes = some r ∧ r ∈ service.remotes :=
  ⟨service.remotes[i], List.getElem?_eq_getElem hi, List.getElem_mem hi⟩

theorem anyRemote_deref {rand : ℕ} {ref : RemoteRef} (h : anyRemote service rand = some ref)
    (tmpRemotes : List Remote) : ∃ r, ref.deref tmpRemotes = some r ∧ r ∈ service.remotes := by
  rw [anyRemote] at h
  split_ifs at h with hne
  obtain rfl := Option.some.inj h
  exact elem_deref (Nat.mod_lt _ (List.length_pos_iff.mpr hne)) _

theorem getRemote_deref {rand : ℕ} {ref : RemoteRef}
    (h : (m.getRemote service failRemotes rand).1 = some ref) :
    ∃ r, ref.deref (m.getRemote service failRemotes rand).2.tmpRemotes = some r ∧
      r ∈ service.remotes := by
  unfold getRemote at h ⊢
  cases hs : service.serviceStrategy with
  | kInvalid =>
    rw [hs] at h
    cases h
  | kNormal =>
    simp only [hs, getRemoteNormal] at h ⊢
    split at h
    · next i hi =>
      obtain rfl := Option.some.inj h
      exact elem_deref (List.findIdx?_eq_some_iff_getElem.mp hi).1 _
    · exact anyRemote_deref h _
  | kWeight =>
    simp only [hs, getRemoteWeight] at h ⊢
    split_ifs at h ⊢ with hguys
    · obtain ⟨i, hi, rfl⟩ := Option.map_eq_some_iff.mp h
      exact elem_deref (by simpa using pick_lt hi) _
    · split at h
      · cases h
      · next ws hws =>
        have hlen := healthWeights_length hws
        split_ifs at h ⊢ with hnil
        · obtain ⟨j, hj, rfl⟩ := Option.map_eq_some_iff.mp h
          have hj' : j < (refill service failRemotes).length := hlen ▸ pick_lt hj
          exact ⟨_, List.getElem?_eq_getElem hj', (mem_refill.mp (List.getElem_mem hj')).1⟩
        · exact anyRemote_deref h _

theorem refill_eq_filter {U : Finset Addr}
    (hU : ∀ r ∈ service.remotes, ¬ Among failRemotes r ↔ r.addr ∈ U) :
    refill service failRemotes = service.remotes.filter fun r => r.addr ∈ U := by
  refine List.filter_congr fun r hr => ?_
  rw [Bool.eq_iff_iff, decide_eq_true_iff, ← hU r hr, Bool.not_eq_true', failedBefore_eq_false_iff]

theorem untriedWeight_mod {U : Finset Addr} {marks : Addr → ℕ}
    (hU : ∀ r ∈ service.remotes, ¬ Among failRemotes r ↔ r.addr ∈ U)
    (hmarks : ∀ r ∈ service.remotes, m.markOf r = marks r.addr) :
    m.untriedWeight service failRemotes % 2 ^ 64 =
      (∑ a ∈ U, total (addrWeights service.remotes) a % 2 ^ 64 * marks a) % 2 ^ 64 := by
  have hmap : (refill service failRemotes).map m.healthWeight =
      ((addrWeights service.remotes).filter fun x => x.1 ∈ U).map fun x => x.2 * marks x.1 := by
    rw [refill_eq_filter hU, addrWeights, List.filter_map, List.map_map]
    refine List.map_congr_left fun r hr => ?_
    have hr := (List.mem_filter.mp hr).1
    simp only [healthWeight, Function.comp_apply, hmarks r hr]
  rw [untriedWeight_eq, hmap, sum_filter_mul, sum_mod_mul]

theorem getRemote_weight (hs : service.serviceStrategy = .kWeight) (rand : ℕ) :
    m.getRemote service failRemotes rand = m.getRemoteWeight service failRemotes rand := by
  rw [getRemote, hs]

theorem getRemoteNormal_isSome (hne : service.remotes ≠ []) (rand : ℕ) :
    (m.getRemoteNormal service failRemotes rand).isSome := by
  rw [getRemoteNormal]
  split
  · rfl
  · obtain ⟨r, -, -, hany⟩ := anyRemote_isSome hne rand
    rw [hany]
    rfl

theorem weights_sum_mod (h : WeightsOk (addrWeights service.remotes)) :
    (service.remotes.map Remote.weight).sum % 2 ^ 64 =
      ∑ a ∈ keys (addrWeights service.remotes), total (addrWeights service.remotes) a % 2 ^ 64 := by
  have hfilter : (addrWeights service.remotes).filter
      (fun x => x.1 ∈ keys (addrWeights service.remotes)) = addrWeights service.remotes := by
    refine List.filter_eq_self.mpr fun x hx => decide_eq_true ?_
    exact mem_keys.mpr ⟨x, hx, rfl⟩
  have hsum := sum_filter_mul (addrWeights service.remotes) (keys (addrWeights service.remotes))
    fun _ => 1
  have hmap : (addrWeights service.remotes).map (fun x => x.2 * 1) =
      service.remotes.map Remote.weight := by simp [addrWeights]
  rw [hfilter, hmap] at hsum
  rw [hsum, sum_mod_mul]
  simp only [mul_one]
  exact Nat.mod_eq_of_lt (by have := h.2; omega)

theorem exists_addr (hne : service.remotes ≠ []) :
    (keys (addrWeights service.remotes)).Nonempty := by
  obtain ⟨r, hr⟩ := List.exists_mem_of_ne_nil _ hne
  exact ⟨r.addr, mem_keys_addrWeights.mpr ⟨r, hr, rfl⟩⟩

theorem getRemoteWeight_isSome_healthy (hguys : m.unhealthyGuys = [])
    (hall : service.weightAll = (service.remotes.map Remote.weight).sum % 2 ^ 64)
    (hne : service.remotes ≠ []) (h : WeightsOk (addrWeights service.remotes)) {rand : ℕ}
    (hrand : rand < 2 ^ 31) : (m.getRemoteWeight service failRemotes rand).1.isSome := by
  have hpos : 0 < ∑ a ∈ keys (addrWeights service.remotes),
      total (addrWeights service.remotes) a % 2 ^ 64 :=
    Finset.sum_pos h.1 (exists_addr hne)
  have hbound := h.2
  rw [getRemoteWeight, if_pos hguys, Option.isSome_map, hall]
  refine (pick_isSome_iff _).mpr ?_ rand hrand
  rw [weights_sum_mod h]
  omega

def untried (service : Service) (failRemotes : List Remote) : Finset Addr :=
  (keys (addrWeights service.remotes)).filter fun a => ∀ f ∈ failRemotes, a ≠ f.addr

theorem not_among_iff {r : Remote} (hr : r ∈ service.remotes) :
    ¬ Among failRemotes r ↔ r.addr ∈ untried service failRemotes := by
  have hkey : r.addr ∈ keys (addrWeights service.remotes) :=
    mem_keys_addrWeights.mpr ⟨r, hr, rfl⟩
  simp [Among, untried, Remote.eqRemote, hkey]

theorem untriedWeight_bounds (hok : m.HealthOk)
    (hconns : ∀ r ∈ service.remotes, (m.conns r.addr).isSome)
    (h : WeightsOk (addrWeights service.remotes))
    (hfresh : ∃ r ∈ service.remotes, ¬ Among failRemotes r) :
    0 < m.untriedWeight service failRemotes % 2 ^ 64 ∧
      m.untriedWeight service failRemotes % 2 ^ 64 < 2 ^ 31 := by
  obtain ⟨r, hr, hfresh⟩ := hfresh
  let marks (a : Addr) : ℕ := ((m.conns a).map PoolConnsPerRemote.healthMark).getD 0
  have hmarks : ∀ a ∈ keys (addrWeights service.remotes), 1 ≤ marks a ∧ marks a ≤ 100 := by
    intro a ha
    obtain ⟨r, hr, rfl⟩ := mem_keys_addrWeights.mp ha
    exact hok.markOf (hconns r hr)
  have hsub : untried service failRemotes ⊆ keys (addrWeights service.remotes) :=
    Finset.filter_subset _ _
  have hmod : m.untriedWeight service failRemotes % 2 ^ 64 =
      (∑ a ∈ untried service failRemotes,
        total (addrWeights service.remotes) a % 2 ^ 64 * marks a) % 2 ^ 64 :=
    untriedWeight_mod (fun r hr => not_among_iff hr) fun _ _ => rfl
  have hle : ∑ a ∈ untried service failRemotes,
      total (addrWeights service.remotes) a % 2 ^ 64 * marks a ≤
        100 * ∑ a ∈ keys (addrWeights service.remotes),
          total (addrWeights service.remotes) a % 2 ^ 64 := by
    rw [Finset.mul_sum]
    refine (Finset.sum_le_sum_of_subset hsub).trans (Finset.sum_le_sum fun a ha => ?_)
    rw [Nat.mul_comm]
    exact Nat.mul_le_mul_right _ (hmarks a ha).2
  have hpos : 0 < ∑ a ∈ untried service failRemotes,
      total (addrWeights service.remotes) a % 2 ^ 64 * marks a := by
    refine Finset.sum_pos (fun a ha => ?_) ⟨r.addr, (not_among_iff hr).mp hfresh⟩
    exact Nat.mul_pos (h.1 a (hsub ha)) (hmarks a (hsub ha)).1
  have hbound := h.2
  rw [hmod, Nat.mod_eq_of_lt (by omega)]
  omega

theorem getRemoteWeight_isSome_degraded (hok : m.HealthOk) (hguys : m.unhealthyGuys ≠ [])
    (hconns : ∀ r ∈ service.remotes, (m.conns r.addr).isSome) (hne : service.remotes ≠ [])
    (h : WeightsOk (addrWeights service.remotes)) {rand : ℕ} (hrand : rand < 2 ^ 31) :
    (m.getRemoteWeight service failRemotes rand).1.isSome := by
  rw [getRemoteWeight_unhealthy hguys hconns]
  by_cases hnil : refill service failRemotes = []
  · obtain ⟨r, -, -, hany⟩ := anyRemote_isSome hne rand
    rw [if_neg (not_not.mpr hnil), hany]
    rfl
  · obtain ⟨r, hr⟩ := List.exists_mem_of_ne_nil _ hnil
    obtain ⟨hr, hfresh⟩ := mem_refill.mp hr
    have hbound := untriedWeight_bounds hok hconns h ⟨r, hr, hfresh⟩
    rw [if_pos hnil, Option.isSome_map, ← sum_healthWeight_mod]
    refine (pick_isSome_iff _).mpr ?_ rand hrand
    rw [sum_healthWeight_mod]
    exact hbound

def withMarks (addrs : List Addr) (marks : Addr → ℕ) : ConnsMgr where
  longConnKeepaliveSec := 0
  conns a := if a ∈ addrs then some ⟨⟨a, 0, 0, 0, 0, 0⟩, marks a, [], fun _ => 0⟩ else none
  unhealthyGuys := (addrs.filter fun a => marks a ≠ 100).map fun a => ⟨a, 0, 0, 0, 0, 0⟩
  tmpRemotes := []
  tmpWeights := []

theorem withMarks_conns {addrs : List Addr} {a : Addr} (ha : a ∈ addrs) (marks : Addr → ℕ) :
    (withMarks addrs marks).conns a = some ⟨⟨a, 0, 0, 0, 0, 0⟩, marks a, [], fun _ => 0⟩ := by
  simp only [withMarks, if_pos ha]

theorem withMarks_healthOk {addrs : List Addr} (hnodup : addrs.Nodup) {marks : Addr → ℕ}
    (hmarks : ∀ a ∈ addrs, 1 ≤ marks a ∧ marks a ≤ 100) : (withMarks addrs marks).HealthOk := by
  refine ⟨fun a => ?_, ?_, fun a p hp => ?_⟩
  · simp only [withMarks, List.mem_map, List.mem_filter, PoolConnsPerRemote.kFullMarkHealth]
    by_cases ha : a ∈ addrs
    · simp [ha]
    · simp [ha]
  · simpa [withMarks, Function.comp_def] using hnodup.filter _
  · simp only [withMarks] at hp
    split_ifs at hp with ha
    obtain rfl := Option.some.inj hp
    exact hmarks a ha

theorem SafeToSelect.sum_bounds (h : SafeToSelect service)
    (hs : service.serviceStrategy = .kWeight) {addrs : List Addr} (hnodup : addrs.Nodup)
    (marks : Addr → ℕ) (hmarks : ∀ a ∈ addrs, 1 ≤ marks a ∧ marks a ≤ 100)
    (hguy : ∃ a ∈ addrs, marks a ≠ 100) (haddrs : ∀ r ∈ service.remotes, r.addr ∈ addrs)
    {U : Finset Addr} (hU : U ⊆ keys (addrWeights service.remotes)) (hne : U.Nonempty) :
    0 < (∑ a ∈ U, total (addrWeights service.remotes) a % 2 ^ 64 * marks a) % 2 ^ 64 ∧
      (∑ a ∈ U, total (addrWeights service.remotes) a % 2 ^ 64 * marks a) % 2 ^ 64 < 2 ^ 31 := by
  let fails : List Remote := service.remotes.filter fun r => r.addr ∉ U
  have hconns : ∀ r ∈ service.remotes, ((withMarks addrs marks).conns r.addr).isSome := by
    intro r hr
    rw [withMarks_conns (haddrs r hr)]
    rfl
  have hguys : (withMarks addrs marks).unhealthyGuys ≠ [] := by
    obtain ⟨a, ha, hne⟩ := hguy
    exact List.ne_nil_of_mem (List.mem_map_of_mem
      (List.mem_filter.mpr ⟨ha, decide_eq_true hne⟩))
  have hfresh : ∀ r ∈ service.remotes, ¬ Among fails r ↔ r.addr ∈ U := by
    intro r hr
    simp only [Among, not_exists, not_and, fails, List.mem_filter, Remote.eqRemote,
      decide_eq_true_eq, and_imp]
    constructor
    · intro hall
      by_contra hnot
      exact hall r hr hnot rfl
    · intro hmem f _ hf he
      exact hf (he ▸ hmem)
  have hmark : ∀ r ∈ service.remotes, (withMarks addrs marks).markOf r = marks r.addr := by
    intro r hr
    rw [markOf, withMarks_conns (haddrs r hr)]
    rfl
  have hnil : refill service fails ≠ [] := by
    obtain ⟨a, ha⟩ := hne
    obtain ⟨r, hr, rfl⟩ := mem_keys_addrWeights.mp (hU ha)
    exact List.ne_nil_of_mem (mem_refill.mpr ⟨hr, (hfresh r hr).mpr ha⟩)
  rw [← untriedWeight_mod hfresh hmark, ← sum_healthWeight_mod]
  refine (pick_isSome_iff _).mp fun rand hrand => ?_
  obtain ⟨ref, r, href, -⟩ := h _ (withMarks_healthOk hnodup hmarks) hconns fails
    (fun f hf => (List.mem_filter.mp hf).1) rand hrand
  rw [getRemote_weight hs, getRemoteWeight_unhealthy hguys hconns, if_pos hnil,
    ← sum_healthWeight_mod] at href
  obtain ⟨j, hj, -⟩ := Option.map_eq_some_iff.mp href
  rw [hj]
  rfl

instance : Infinite Addr := Infinite.of_injective (fun n => ⟨n, 0⟩) fun _ _ h => (Addr.mk.inj h).1

def addrsOf (service : Service) : List Addr := (service.remotes.map Remote.addr).dedup

theorem mem_addrsOf {r : Remote} (hr : r ∈ service.remotes) : r.addr ∈ addrsOf service :=
  List.mem_dedup.mpr (List.mem_map_of_mem hr)

theorem SafeToSelect.remotes_ne_nil (h : SafeToSelect service) : service.remotes ≠ [] := by
  intro hnil
  obtain ⟨-, r, -, -, hr⟩ := h (new 0) (new_healthOk 0) (by simp [hnil]) [] (by simp) 0 (by decide)
  rw [hnil] at hr
  cases hr

theorem SafeToSelect.strategy (h : SafeToSelect service) :
    service.serviceStrategy = .kNormal ∨ service.serviceStrategy = .kWeight := by
  have hok : (withMarks (addrsOf service) fun _ => 100).HealthOk :=
    withMarks_healthOk (List.nodup_dedup _) fun _ _ => ⟨by decide, le_rfl⟩
  have hconns : ∀ r ∈ service.remotes,
      ((withMarks (addrsOf service) fun _ => 100).conns r.addr).isSome := by
    intro r hr
    rw [withMarks_conns (mem_addrsOf hr)]
    rfl
  obtain ⟨ref, -, href, -⟩ := h _ hok hconns [] (by simp) 0 (by decide)
  cases hs : service.serviceStrategy with
  | kNormal => exact .inl rfl
  | kWeight => exact .inr rfl
  | kInvalid =>
    rw [getRemote, hs] at href
    cases href

theorem SafeToSelect.total_bounds (h : SafeToSelect service)
    (hs : service.serviceStrategy = .kWeight) {a : Addr}
    (ha : a ∈ keys (addrWeights service.remotes)) :
    0 < total (addrWeights service.remotes) a % 2 ^ 64 ∧
      total (addrWeights service.remotes) a % 2 ^ 64 < 2 ^ 31 := by
  obtain ⟨r, hr, rfl⟩ := mem_keys_addrWeights.mp ha
  have hbounds := h.sum_bounds hs (List.nodup_dedup _) (fun _ => 1)
    (fun _ _ => ⟨le_rfl, by decide⟩) ⟨r.addr, mem_addrsOf hr, by decide⟩
    (fun _ hr => mem_addrsOf hr) (Finset.singleton_subset_iff.mpr ha)
    (Finset.singleton_nonempty _)
  simpa using hbounds

theorem SafeToSelect.sum_lt (h : SafeToSelect service)
    (hs : service.serviceStrategy = .kWeight) {U : Finset Addr}
    (hU : U ⊆ keys (addrWeights service.remotes)) :
    100 * ∑ a ∈ U, total (addrWeights service.remotes) a % 2 ^ 64 < 2 ^ 31 := by
  obtain ⟨other, hother⟩ := Infinite.exists_notMem_finset (keys (addrWeights service.remotes))
  let marks (a : Addr) : ℕ := if a = other then 50 else 100
  have hmarks : ∀ a, 1 ≤ marks a ∧ marks a ≤ 100 := by
    intro a
    simp only [marks]
    split_ifs <;> decide
  have hnot : other ∉ addrsOf service := by
    intro hmem
    obtain ⟨r, hr, he⟩ := List.mem_map.mp (List.mem_dedup.mp hmem)
    exact hother (mem_keys_addrWeights.mpr ⟨r, hr, he⟩)
  induction U using Finset.induction_on with
  | empty => simp
  | insert a U ha ih =>
    have hbounds := h.sum_bounds hs (List.nodup_cons.mpr ⟨hnot, List.nodup_dedup _⟩)
      marks (fun a _ => hmarks a) ⟨other, List.mem_cons_self, by simp [marks]⟩
      (fun r hr => List.mem_cons_of_mem _ (mem_addrsOf hr)) hU (Finset.insert_nonempty a U)
    have hfull : ∑ b ∈ insert a U, total (addrWeights service.remotes) b % 2 ^ 64 * marks b =
        100 * ∑ b ∈ insert a U, total (addrWeights service.remotes) b % 2 ^ 64 := by
      rw [Finset.mul_sum]
      refine Finset.sum_congr rfl fun b hb => ?_
      have hne : b ≠ other := fun he => hother (he ▸ hU hb)
      rw [Nat.mul_comm]
      simp only [marks, if_neg hne]
    have hprev := ih ((Finset.subset_insert a U).trans hU)
    have hnew := (h.total_bounds hs (hU (Finset.mem_insert_self a U))).2
    rw [hfull, Finset.sum_insert ha] at hbounds
    rw [Finset.sum_insert ha]
    rw [Nat.mod_eq_of_lt (by omega)] at hbounds
    exact hbounds.2

theorem safeToSelect_iff
    (hall : service.weightAll = (service.remotes.map Remote.weight).sum % 2 ^ 64) :
    SafeToSelect service ↔ service.remotes ≠ [] ∧
      (service.serviceStrategy = .kNormal ∨
        service.serviceStrategy = .kWeight ∧ WeightsOk (addrWeights service.remotes)) := by
  constructor
  · intro h
    refine ⟨h.remotes_ne_nil, h.strategy.imp_right fun hs => ⟨hs, fun a ha => ?_, ?_⟩⟩
    · exact (h.total_bounds hs ha).1
    · exact h.sum_lt hs subset_rfl
  · rintro ⟨hne, hstrategy⟩ m hok hconns fails - rand hrand
    have hsome : (m.getRemote service fails rand).1.isSome := by
      rcases hstrategy with hs | ⟨hs, hweights⟩
      · rw [getRemote, hs]
        exact getRemoteNormal_isSome hne rand
      · rw [getRemote_weight hs]
        by_cases hguys : m.unhealthyGuys = []
        · exact getRemoteWeight_isSome_healthy hguys hall hne hweights hrand
        · exact getRemoteWeight_isSome_degraded hok hguys hconns hne hweights hrand
    obtain ⟨ref, href⟩ := Option.isSome_iff_exists.mp hsome
    obtain ⟨r, hr⟩ := getRemote_deref href
    exact ⟨ref, r, href, hr⟩

end ConnsMgr

end Magneto
