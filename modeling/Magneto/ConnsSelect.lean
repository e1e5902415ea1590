import Magneto.ConnsCalls
import Magneto.Lib.WeightedChoice
import Mathlib.Algebra.BigOperators.Ring.List
import Mathlib.Algebra.Order.BigOperators.Group.List

/-!
# Which remote is selected

`GetRemoteWeight_` and `GetRemoteNormal_` as functions of the random value. As
long as the total of the weights fits an `int`, the loop over cumulative weights
is the exact weighted choice of its residue. A remote that was just reported
makes the set of unhealthy remotes non-empty, so that a weighted retry goes to
the branch that leaves out the failed remotes.
-/

namespace Magneto.ConnsMgr

open WeightedChoice

variable {m : ConnsMgr} {service : Service} {failRemotes : List Remote}

def markOf (m : ConnsMgr) (r : Remote) : ℕ :=
  ((m.conns r.addr).map PoolConnsPerRemote.healthMark).getD 0

def healthWeight (m : ConnsMgr) (r : Remote) : ℕ := r.weight * m.markOf r

def untriedRemotes (service : Service) (failRemotes : List Remote) : List Remote :=
  service.remotes.filter fun r => ¬ Among failRemotes r

def untriedWeight (m : ConnsMgr) (service : Service) (failRemotes : List Remote) : ℕ :=
  ((untriedRemotes service failRemotes).map m.healthWeight).sum

theorem refill_eq : refill service failRemotes = untriedRemotes service failRemotes := by
  refine List.filter_congr fun r _ => ?_
  rw [Bool.eq_iff_iff, Bool.not_eq_true', failedBefore_eq_false_iff, decide_eq_true_iff]

theorem untriedWeight_eq (m : ConnsMgr) : m.untriedWeight service failRemotes =
    ((refill service failRemotes).map m.healthWeight).sum := by
  rw [refill_eq, untriedWeight]

theorem mem_refill {r : Remote} :
    r ∈ refill service failRemotes ↔ r ∈ service.remotes ∧ ¬ Among failRemotes r := by
  rw [refill, List.mem_filter, Bool.not_eq_true', failedBefore_eq_false_iff]

theorem pickWeight_eq_choose {ws : List ℕ} {weight random i : ℕ} (h : weight + ws.sum < 2 ^ 31)
    (hle : weight ≤ random) :
    pickWeight random ws weight i = (choose ws (random - weight)).map (· + i) := by
  induction ws generalizing weight i with
  | nil => rfl
  | cons w ws ih =>
    rw [List.sum_cons] at h
    have hsum : Word.narrow ((weight : ℤ) + w) = ((weight + w : ℕ) : ℤ) := by
      rw [← Nat.cast_add]
      exact Word.narrow_natCast_eq_iff.mpr (by omega)
    simp only [pickWeight, choose, hsum, Nat.cast_lt]
    by_cases hlt : random < weight + w
    · rw [if_pos hlt, if_pos (by omega), Option.map_some, Nat.zero_add]
    · have hshift : (fun j => j + (i + 1)) = (fun j => j + i) ∘ (fun j => j + 1) := by
        funext j
        simp only [Function.comp_apply]
        omega
      rw [if_neg hlt, if_neg (by omega), ih (by omega) (by omega), Option.map_map, Nat.sub_add_eq,
        hshift]

theorem pick_eq_choose {ws : List ℕ} (hpos : 0 < ws.sum) (hlt : ws.sum < 2 ^ 31) (rand : ℕ) :
    pick ws ws.sum rand = choose ws (rand % ws.sum) := by
  have hmod : rand % ws.sum < ws.sum := Nat.mod_lt _ hpos
  have hnarrow : Word.narrow ((rand % ws.sum : ℕ) : ℤ) = ((rand % ws.sum : ℕ) : ℤ) :=
    Word.narrow_natCast_eq_iff.mpr (hmod.trans hlt)
  rw [pick, if_neg hpos.ne', hnarrow]
  simpa using pickWeight_eq_choose (i := 0) (by simpa using hlt) (Nat.zero_le (rand % ws.sum))

theorem choose_mod_isSome {ws : List ℕ} (hpos : 0 < ws.sum) (rand : ℕ) :
    (choose ws (rand % ws.sum)).isSome :=
  (choose_isSome_iff _ _).mpr (Nat.mod_lt _ hpos)

theorem getRemoteWeight_healthy (hguys : m.unhealthyGuys = [])
    (hall : service.weightAll = (service.remotes.map Remote.weight).sum)
    (hpos : 0 < service.weightAll) (hlt : service.weightAll < 2 ^ 31) (rand : ℕ) :
    m.getRemoteWeight service failRemotes rand =
      ((choose (service.remotes.map Remote.weight) (rand % service.weightAll)).map
        (.elem service), m) := by
  rw [getRemoteWeight, if_pos hguys]
  rw [hall] at hpos hlt ⊢
  rw [pick_eq_choose hpos hlt]

theorem healthWeights_eq {rs : List Remote} (hconns : ∀ r ∈ rs, (m.conns r.addr).isSome) :
    m.healthWeights rs = some (rs.map fun r => m.healthWeight r % 2 ^ 64) := by
  induction rs with
  | nil => rfl
  | cons r rs ih =>
    obtain ⟨p, hp⟩ := Option.isSome_iff_exists.mp (hconns r List.mem_cons_self)
    have hrest := ih fun r' hr' => hconns r' (List.mem_cons_of_mem _ hr')
    have hw : m.healthWeight r = r.weight * p.healthMark := by
      simp [healthWeight, markOf, hp]
    simp only [healthWeights, hp, hrest, hw, List.map_cons]

def refilled (m : ConnsMgr) (service : Service) (failRemotes : List Remote) : ConnsMgr :=
  { m with
    tmpRemotes := refill service failRemotes
    tmpWeights := (refill service failRemotes).map fun r => m.healthWeight r % 2 ^ 64 }

theorem healthWeights_refilled {rs : List Remote} (tmpRemotes : List Remote) :
    healthWeights { m with tmpRemotes := tmpRemotes, tmpWeights := [] } rs =
      m.healthWeights rs := by
  induction rs with
  | nil => rfl
  | cons r rs ih => simp only [healthWeights, ih]

theorem sum_healthWeight_mod (m : ConnsMgr) (service : Service) (failRemotes : List Remote) :
    ((refill service failRemotes).map fun r => m.healthWeight r % 2 ^ 64).sum % 2 ^ 64 =
      m.untriedWeight service failRemotes % 2 ^ 64 := by
  rw [untriedWeight_eq, List.sum_nat_mod _ (2 ^ 64), List.sum_nat_mod (List.map m.healthWeight _)]
  simp only [List.map_map, Function.comp_def, Nat.mod_mod]

theorem getRemoteWeight_unhealthy (hguys : m.unhealthyGuys ≠ [])
    (hconns : ∀ r ∈ service.remotes, (m.conns r.addr).isSome) (rand : ℕ) :
    m.getRemoteWeight service failRemotes rand =
      (if refill service failRemotes ≠ [] then
        (pick ((refill service failRemotes).map fun r => m.healthWeight r % 2 ^ 64)
          (m.untriedWeight service failRemotes % 2 ^ 64) rand).map .tmp
      else anyRemote service rand, m.refilled service failRemotes) := by
  have hweights : m.healthWeights (refill service failRemotes) =
      some ((refill service failRemotes).map fun r => m.healthWeight r % 2 ^ 64) :=
    healthWeights_eq fun r hr => hconns r (mem_refill.mp hr).1
  rw [getRemoteWeight, if_neg hguys]
  simp only [healthWeights_refilled, hweights, sum_healthWeight_mod]
  by_cases hnil : refill service failRemotes = []
  · simp [hnil, refilled]
  · simp [hnil, refilled]

theorem refill_ne_nil (hpos : 0 < m.untriedWeight service failRemotes) :
    refill service failRemotes ≠ [] := by
  intro hnil
  simp [untriedWeight_eq, hnil] at hpos

theorem getRemoteWeight_degraded (hguys : m.unhealthyGuys ≠ [])
    (hconns : ∀ r ∈ service.remotes, (m.conns r.addr).isSome)
    (hpos : 0 < m.untriedWeight service failRemotes)
    (hlt : m.untriedWeight service failRemotes < 2 ^ 31) (rand : ℕ) :
    m.getRemoteWeight service failRemotes rand =
      ((choose ((untriedRemotes service failRemotes).map m.healthWeight)
        (rand % m.untriedWeight service failRemotes)).map .tmp,
        m.refilled service failRemotes) := by
  have hexact : (refill service failRemotes).map (fun r => m.healthWeight r % 2 ^ 64) =
      (refill service failRemotes).map m.healthWeight := by
    refine List.map_congr_left fun r hr => Nat.mod_eq_of_lt ?_
    have hle : m.healthWeight r ≤ m.untriedWeight service failRemotes :=
      List.single_le_sum (fun _ _ => Nat.zero_le _) _ (List.mem_map_of_mem (refill_eq ▸ hr))
    omega
  rw [getRemoteWeight_unhealthy hguys hconns, if_pos (refill_ne_nil hpos), hexact,
    Nat.mod_eq_of_lt (hlt.trans (by decide)), refill_eq, untriedWeight]
  rw [untriedWeight] at hpos hlt
  rw [pick_eq_choose hpos hlt]

theorem anyRemote_isSome (hne : service.remotes ≠ []) (rand : ℕ) :
    ∃ r, r ∈ service.remotes ∧
      service.remotes[rand % service.remotes.length]? = some r ∧
      anyRemote service rand = some (.elem service (rand % service.remotes.length)) := by
  have hlen : rand % service.remotes.length < service.remotes.length :=
    Nat.mod_lt _ (List.length_pos_iff.mpr hne)
  refine ⟨service.remotes[rand % service.remotes.length], List.getElem_mem hlen,
    List.getElem?_eq_getElem hlen, ?_⟩
  rw [anyRemote, if_neg hne]

theorem refill_eq_nil_iff :
    refill service failRemotes = [] ↔ ∀ r ∈ service.remotes, Among failRemotes r := by
  simp [refill_eq, untriedRemotes]

theorem getRemoteWeight_allFailed (hguys : m.unhealthyGuys ≠ [])
    (hfailed : refill service failRemotes = []) (rand : ℕ) :
    m.getRemoteWeight service failRemotes rand =
      (anyRemote service rand, m.refilled service failRemotes) := by
  rw [getRemoteWeight, if_neg hguys]
  simp only [hfailed, healthWeights, refilled, List.map_nil, ne_eq, not_true, if_false]

theorem tmp_deref {r : Remote} {j : ℕ} :
    (RemoteRef.tmp j).deref (m.refilled service failRemotes).tmpRemotes = some r ↔
      (refill service failRemotes)[j]? = some r := Iff.rfl

def residuesTo (m : ConnsMgr) (service : Service) (failRemotes : List Remote) (total : ℕ)
    (ref : RemoteRef) : Finset ℕ :=
  (Finset.range total).filter fun k => (m.getRemoteWeight service failRemotes k).1 = some ref

theorem map_injective_eq_some {α β : Type} {f : α → β} (hf : Function.Injective f)
    {o : Option α} {a : α} : o.map f = some (f a) ↔ o = some a := by
  rw [Option.map_eq_some_iff]
  constructor
  · rintro ⟨b, hb, he⟩
    rw [hb, hf he]
  · intro h
    exact ⟨a, h, rfl⟩

theorem residuesTo_card {ws : List ℕ} {total j w : ℕ} {f : ℕ → RemoteRef}
    (hf : Function.Injective f) (htotal : ws.sum = total)
    (hget : ∀ k, (m.getRemoteWeight service failRemotes k).1 = (choose ws (k % total)).map f)
    (hw : ws[j]? = some w) : (m.residuesTo service failRemotes total (f j)).card = w := by
  have heq : m.residuesTo service failRemotes total (f j) =
      (Finset.range ws.sum).filter fun k => choose ws k = some j := by
    ext k
    simp only [residuesTo, Finset.mem_filter, Finset.mem_range, hget, htotal]
    refine and_congr_right fun hk => ?_
    rw [Nat.mod_eq_of_lt hk, map_injective_eq_some hf]
  rw [heq, card_choose hw]

/-- Weighted selection is exactly proportional: to the weights while every remote
is healthy, and otherwise, among the remotes that did not fail before, to the
weights times the health marks. -/
theorem getRemoteWeight_proportional (m : ConnsMgr) (service : Service)
    (failRemotes : List Remote) :
    (m.unhealthyGuys = [] →
      service.weightAll = (service.remotes.map Remote.weight).sum →
      0 < service.weightAll → service.weightAll < 2 ^ 31 →
      (∀ rand, (m.getRemoteWeight service failRemotes rand).1 ≠ none ∧
        m.getRemoteWeight service failRemotes rand =
          m.getRemoteWeight service failRemotes (rand % service.weightAll)) ∧
      ∀ i r, service.remotes[i]? = some r →
        (m.residuesTo service failRemotes service.weightAll (.elem service i)).card = r.weight) ∧
    (m.unhealthyGuys ≠ [] → (∀ r ∈ service.remotes, (m.conns r.addr).isSome) →
      (∃ r ∈ service.remotes, ¬ Among failRemotes r) →
      0 < m.untriedWeight service failRemotes → m.untriedWeight service failRemotes < 2 ^ 31 →
      (∀ rand, (m.getRemoteWeight service failRemotes rand).1 ≠ none ∧
        m.getRemoteWeight service failRemotes rand =
          m.getRemoteWeight service failRemotes (rand % m.untriedWeight service failRemotes) ∧
        ∀ ref r, (m.getRemoteWeight service failRemotes rand).1 = some ref →
          ref.deref (m.getRemoteWeight service failRemotes rand).2.tmpRemotes = some r →
          r ∈ service.remotes ∧ ¬ Among failRemotes r) ∧
      ∀ j r, (untriedRemotes service failRemotes)[j]? = some r →
        (m.residuesTo service failRemotes (m.untriedWeight service failRemotes) (.tmp j)).card =
          r.weight * m.markOf r) ∧
    (m.unhealthyGuys ≠ [] → service.remotes ≠ [] →
      (∀ r ∈ service.remotes, Among failRemotes r) →
      ∀ rand, (m.getRemoteWeight service failRemotes rand).1 ≠ none) := by
  refine ⟨?_, ?_, ?_⟩
  · intro hguys hall hpos hlt
    have hget : ∀ rand, m.getRemoteWeight service failRemotes rand = _ :=
      getRemoteWeight_healthy hguys hall hpos hlt
    refine ⟨fun rand => ⟨?_, ?_⟩, fun i r hr => ?_⟩
    · rw [hget, Option.ne_none_iff_isSome, Option.isSome_map, hall]
      exact choose_mod_isSome (hall ▸ hpos) rand
    · rw [hget, hget, Nat.mod_mod]
    · refine residuesTo_card (fun a b h => (RemoteRef.elem.inj h).2) hall.symm
        (fun k => by rw [hget]) ?_
      rw [List.getElem?_map, hr, Option.map_some]
  · intro hguys hconns _ hpos hlt
    have hget := getRemoteWeight_degraded hguys hconns hpos hlt
    refine ⟨fun rand => ⟨?_, ?_, fun ref r href hr => ?_⟩, fun j r hr => ?_⟩
    · rw [hget, Option.ne_none_iff_isSome, Option.isSome_map]
      exact choose_mod_isSome hpos rand
    · rw [hget, hget, Nat.mod_mod]
    · rw [hget] at href hr
      obtain ⟨j, -, rfl⟩ := Option.map_eq_some_iff.mp href
      exact mem_refill.mp (List.mem_of_getElem? (tmp_deref.mp hr))
    · refine residuesTo_card (fun a b h => RemoteRef.tmp.inj h) rfl (fun k => by rw [hget]) ?_
      rw [List.getElem?_map, hr, Option.map_some, healthWeight]
  · intro hguys hne hfailed rand
    obtain ⟨r, -, -, hany⟩ := anyRemote_isSome hne rand
    rw [getRemoteWeight_allFailed hguys (refill_eq_nil_iff.mpr hfailed), hany]
    exact Option.some_ne_none _

def heavyRemote : Remote := { remoteAt 2 with weight := 3 }

def weighted (strategy : ServiceStrategy) : Service :=
  ⟨0, "s", .kRapid, strategy, [remoteAt 1, heavyRemote], 4, 0⟩

theorem getRemoteWeight_proportional_weighted :
    ((new 10).residuesTo (weighted .kWeight) [] 4 (.elem (weighted .kWeight) 1)).card = 3 ∧
      ((calls.exec (.new 10) failedRun).residuesTo (weighted .kWeight) [] 350 (.tmp 0)).card =
        1 * 50 := by
  have hhealthy := (getRemoteWeight_proportional (new 10) (weighted .kWeight) []).1
    rfl rfl (by decide) (by decide)
  have hfailed := (getRemoteWeight_proportional (calls.exec (.new 10) failedRun)
    (weighted .kWeight) []).2.1 (by decide) (by decide) (by decide) (by decide) (by decide)
  exact ⟨hhealthy.2 1 _ rfl, hfailed.2 0 _ rfl⟩

theorem reportStatus_conns (m : ConnsMgr) (remote : Remote) (status : Bool) (a : Addr) :
    (m.reportStatus remote status).conns a =
      if a = remote.addr then (m.conns a).map (·.reportStatus status) else m.conns a := by
  unfold reportStatus
  cases hc : m.conns remote.addr with
  | none =>
    by_cases ha : a = remote.addr
    · simp [ha, hc]
    · simp [ha]
  | some p =>
    by_cases ha : a = remote.addr
    · subst ha
      simp only [if_pos, hc, Option.map_some]
      split_ifs <;> simp [setPool]
    · simp only [if_neg ha]
      split_ifs <;> simp [setPool, ha]

theorem reportStatus_guys_ne_nil (h : m.HealthOk) {r : Remote} (hr : (m.conns r.addr).isSome) :
    (m.reportStatus r false).unhealthyGuys ≠ [] := by
  obtain ⟨p, hp⟩ := Option.isSome_iff_exists.mp hr
  have hmark := h.marks _ p hp
  have hlow : (p.reportStatus false).healthMark ≠ PoolConnsPerRemote.kFullMarkHealth := by
    simp only [PoolConnsPerRemote.reportStatus, PoolConnsPerRemote.kFullMarkHealth] at hmark ⊢
    rw [if_neg Bool.false_ne_true]
    omega
  have hconns : (m.reportStatus r false).conns r.addr = some (p.reportStatus false) := by
    rw [reportStatus_conns, if_pos rfl, hp, Option.map_some]
  obtain ⟨guy, hguy, -⟩ := ((reportStatus_healthOk h r false).unhealthy r.addr).mpr
    ⟨_, hconns, hlow⟩
  exact List.ne_nil_of_mem hguy

theorem HealthOk.markOf (h : m.HealthOk) {r : Remote} (hr : (m.conns r.addr).isSome) :
    1 ≤ m.markOf r ∧ m.markOf r ≤ PoolConnsPerRemote.kFullMarkHealth := by
  obtain ⟨p, hp⟩ := Option.isSome_iff_exists.mp hr
  simpa [ConnsMgr.markOf, hp] using h.marks _ p hp

theorem untriedWeight_le (h : m.HealthOk)
    (hconns : ∀ r ∈ service.remotes, (m.conns r.addr).isSome) :
    m.untriedWeight service failRemotes ≤ 100 * (service.remotes.map Remote.weight).sum := by
  have hsub : m.untriedWeight service failRemotes ≤ (service.remotes.map m.healthWeight).sum :=
    (List.filter_sublist.map _).sum_le_sum fun _ _ => Nat.zero_le _
  refine hsub.trans ?_
  rw [← List.sum_map_mul_left]
  refine List.sum_le_sum fun r hr => ?_
  rw [healthWeight, Nat.mul_comm]
  exact Nat.mul_le_mul_right _ (h.markOf (hconns r hr)).2

theorem untriedWeight_pos (h : m.HealthOk)
    (hconns : ∀ r ∈ service.remotes, (m.conns r.addr).isSome)
    (hweight : ∀ r ∈ service.remotes, 1 ≤ r.weight) (hne : refill service failRemotes ≠ []) :
    0 < m.untriedWeight service failRemotes := by
  obtain ⟨r, hr⟩ := List.exists_mem_of_ne_nil _ hne
  have hmem := (mem_refill.mp hr).1
  calc 0 < m.healthWeight r := Nat.mul_pos (hweight r hmem) (h.markOf (hconns r hmem)).1
    _ ≤ m.untriedWeight service failRemotes :=
      List.single_le_sum (fun _ _ => Nat.zero_le _) _ (List.mem_map_of_mem (refill_eq ▸ hr))

theorem getRemoteWeight_avoids (h : m.HealthOk) (hguys : m.unhealthyGuys ≠ [])
    (hconns : ∀ r ∈ service.remotes, (m.conns r.addr).isSome)
    (hweight : ∀ r ∈ service.remotes, 1 ≤ r.weight)
    (hsum : 100 * (service.remotes.map Remote.weight).sum < 2 ^ 31)
    (hne : service.remotes ≠ []) (rand : ℕ) :
    ∃ ref remote, (m.getRemoteWeight service failRemotes rand).1 = some ref ∧
      ref.deref (m.getRemoteWeight service failRemotes rand).2.tmpRemotes = some remote ∧
      remote ∈ service.remotes ∧
      ((∃ q ∈ service.remotes, ¬ Among failRemotes q) →
        ¬ Among failRemotes remote) := by
  by_cases hnil : refill service failRemotes = []
  · obtain ⟨r, hr, hget, hany⟩ := anyRemote_isSome hne rand
    rw [getRemoteWeight_allFailed hguys hnil, hany]
    refine ⟨_, r, rfl, hget, hr, ?_⟩
    rintro ⟨q, hq, hfresh⟩
    exact absurd (refill_eq_nil_iff.mp hnil q hq) hfresh
  · have hpos := untriedWeight_pos h hconns hweight hnil
    have hlt : m.untriedWeight service failRemotes < 2 ^ 31 :=
      (untriedWeight_le h hconns).trans_lt hsum
    rw [getRemoteWeight_degraded hguys hconns hpos hlt]
    obtain ⟨j, hj⟩ := Option.isSome_iff_exists.mp (choose_mod_isSome hpos rand)
    have hj' : j < (refill service failRemotes).length := by
      rw [refill_eq]
      simpa using choose_lt_length hj
    have hmem := mem_refill.mp (List.getElem_mem hj')
    refine ⟨.tmp j, (refill service failRemotes)[j], ?_, ?_, hmem.1, fun _ => hmem.2⟩
    · rw [untriedWeight, hj, Option.map_some]
    · exact tmp_deref.mpr (List.getElem?_eq_getElem hj')

/-- A weighted retry avoids the failed remotes: after the failure of `r` was
reported, whatever was reported before, the next selection for the service gives
one of its remotes, and one that did not fail before if there is one. -/
theorem calls_weighted_retry (longConnKeepaliveSec : ℤ) (cs : List Call)
    (hcs : calls.Admits (.new longConnKeepaliveSec) cs) (service : Service)
    (hstrategy : service.serviceStrategy = .kWeight)
    (hconns : ∀ r ∈ service.remotes,
      ((calls.exec (.new longConnKeepaliveSec) cs).conns r.addr).isSome)
    (hweight : ∀ r ∈ service.remotes, 1 ≤ r.weight)
    (hsum : 100 * (service.remotes.map Remote.weight).sum < 2 ^ 31)
    (fails : List Remote) (r : Remote) (hr : r ∈ service.remotes) (rand : ℕ) :
    let m := calls.exec (.new longConnKeepaliveSec) (cs ++ [.reportStatus r false])
    ∃ ref remote, (m.getRemote service (fails ++ [r]) rand).1 = some ref ∧
      ref.deref (m.getRemote service (fails ++ [r]) rand).2.tmpRemotes = some remote ∧
      remote ∈ service.remotes ∧
      ((∃ q ∈ service.remotes, ¬ Among (fails ++ [r]) q) →
        ¬ Among (fails ++ [r]) remote) := by
  have hok : (calls.exec (.new longConnKeepaliveSec) cs).HealthOk :=
    calls.invariant (I := HealthOk) (fun m c hm _ => call_healthOk hm c) (new_healthOk _) hcs
  rw [Machine.exec_append]
  generalize calls.exec (.new longConnKeepaliveSec) cs = m at hconns hok
  intro m'
  have hm' : m' = m.reportStatus r false := rfl
  have hconns' : ∀ q ∈ service.remotes, (m'.conns q.addr).isSome := by
    intro q hq
    rw [hm', reportStatus_conns]
    split_ifs
    · rw [Option.isSome_map]
      exact hconns q hq
    · exact hconns q hq
  have hget : ∀ fails rand, m'.getRemote service fails rand =
      m'.getRemoteWeight service fails rand := by
    intro fails rand
    rw [getRemote, hstrategy]
  rw [hget]
  exact getRemoteWeight_avoids (hm' ▸ reportStatus_healthOk hok r false)
    (hm' ▸ reportStatus_guys_ne_nil hok (hconns r hr)) hconns' hweight hsum
    (List.ne_nil_of_mem hr) rand

/-- The first remote failed in another talk and is the only one left for this talk. -/
theorem calls_weighted_retry_failedRun :
    ∃ ref remote,
      ((calls.exec (.new 10) (failedRun ++ [.reportStatus heavyRemote false])).getRemote
        (weighted .kWeight) ([] ++ [heavyRemote]) 7).1 = some ref ∧
      ref.deref ((calls.exec (.new 10) (failedRun ++ [.reportStatus heavyRemote false])).getRemote
        (weighted .kWeight) ([] ++ [heavyRemote]) 7).2.tmpRemotes = some remote ∧
      remote ∈ (weighted .kWeight).remotes ∧
      ((∃ q ∈ (weighted .kWeight).remotes, ¬ Among ([] ++ [heavyRemote]) q) →
        ¬ Among ([] ++ [heavyRemote]) remote) :=
  calls_weighted_retry 10 failedRun (by decide) (weighted .kWeight) rfl (by decide) (by decide)
    (by decide) [] heavyRemote (by decide) 7

/-- `GetRemoteNormal_` looks for a remote of this kind first. -/
def Fresh (m : ConnsMgr) (failRemotes : List Remote) (r : Remote) : Prop :=
  m.isHealthy r = true ∧ ¬ Among failRemotes r

instance (m : ConnsMgr) (failRemotes : List Remote) (r : Remote) :
    Decidable (m.Fresh failRemotes r) := inferInstanceAs (Decidable (_ ∧ _))

/-- The first healthy remote that did not fail before is returned if there is
one, and otherwise no remote that failed before as long as another one exists. -/
structure AvoidsFailed (m : ConnsMgr) (service : Service) (failRemotes : List Remote)
    (result : Option RemoteRef) : Prop where
  first : ∀ i r, service.remotes[i]? = some r → m.Fresh failRemotes r →
    (∀ j q, j < i → service.remotes[j]? = some q → ¬ m.Fresh failRemotes q) →
    result = some (.elem service i)
  otherwise : (∀ r ∈ service.remotes, ¬ m.Fresh failRemotes r) →
    (∃ r ∈ service.remotes, ¬ Among failRemotes r) →
    ∃ ref r, result = some ref ∧ ref.deref m.tmpRemotes = some r ∧ r ∈ service.remotes ∧
      ¬ Among failRemotes r

theorem fresh_iff {r : Remote} :
    (m.isHealthy r && !failedBefore r failRemotes) = true ↔ m.Fresh failRemotes r := by
  rw [Bool.and_eq_true, Bool.not_eq_true', failedBefore_eq_false_iff, Fresh]

theorem getRemoteNormal_of_first {i : ℕ} {r : Remote} (hr : service.remotes[i]? = some r)
    (hfresh : m.Fresh failRemotes r)
    (hfirst : ∀ j q, j < i → service.remotes[j]? = some q → ¬ m.Fresh failRemotes q)
    (rand : ℕ) : m.getRemoteNormal service failRemotes rand = some (.elem service i) := by
  have hidx : service.remotes.findIdx?
      (fun r => m.isHealthy r && !failedBefore r failRemotes) = some i := by
    obtain ⟨hlt, rfl⟩ := List.getElem?_eq_some_iff.mp hr
    refine List.findIdx?_eq_some_iff_getElem.mpr ⟨hlt, fresh_iff.mpr hfresh, fun j hj => ?_⟩
    have hj' : j < service.remotes.length := hj.trans hlt
    rw [fresh_iff]
    exact hfirst j _ hj (List.getElem?_eq_getElem hj')
  rw [getRemoteNormal, hidx]

theorem getRemoteNormal_of_none (hnone : ∀ r ∈ service.remotes, ¬ m.Fresh failRemotes r)
    (rand : ℕ) : m.getRemoteNormal service failRemotes rand = anyRemote service rand := by
  have hidx : service.remotes.findIdx?
      (fun r => m.isHealthy r && !failedBefore r failRemotes) = none := by
    refine List.findIdx?_eq_none_iff.mpr fun r hr => ?_
    rw [Bool.eq_false_iff, Ne, fresh_iff]
    exact hnone r hr
  rw [getRemoteNormal, hidx]

/-- A normal retry avoids the failed remotes exactly when some remote is healthy
and untried, or every remote failed before, or the random index falls on a
remote that did not. -/
theorem getRemoteNormal_avoids_iff (m : ConnsMgr) (service : Service)
    (hne : service.remotes ≠ []) (failRemotes : List Remote) (rand : ℕ) :
    AvoidsFailed m service failRemotes (m.getRemoteNormal service failRemotes rand) ↔
      (∃ r ∈ service.remotes, m.isHealthy r = true ∧ ¬ Among failRemotes r) ∨
      (∀ r ∈ service.remotes, Among failRemotes r) ∨
      ∃ r, service.remotes[rand % service.remotes.length]? = some r ∧
        ¬ Among failRemotes r := by
  obtain ⟨r, hr, hget, hany⟩ := anyRemote_isSome hne rand
  constructor
  · intro h
    by_contra! hcon
    obtain ⟨hnone, ⟨q, hq, hq'⟩, hbad⟩ := hcon
    have hnone' : ∀ r ∈ service.remotes, ¬ m.Fresh failRemotes r :=
      fun r hr hfresh => hfresh.2 (hnone r hr hfresh.1)
    obtain ⟨ref, r', href, hderef, -, hok⟩ := h.otherwise hnone' ⟨q, hq, hq'⟩
    rw [getRemoteNormal_of_none hnone', hany] at href
    obtain rfl := Option.some.inj href
    exact hok (hbad r' hderef)
  · intro h
    refine ⟨fun i r hr hf hfirst => getRemoteNormal_of_first hr hf hfirst rand, ?_⟩
    rintro hnone ⟨q, hq, hq'⟩
    rcases h with ⟨r', hr', hf⟩ | hall | ⟨r', hr', hf⟩
    · exact absurd hf (hnone r' hr')
    · exact absurd (hall q hq) hq'
    · exact ⟨.elem service (rand % service.remotes.length), r',
        (getRemoteNormal_of_none hnone rand).trans hany, hr', List.mem_of_getElem? hr', hf⟩

theorem getRemoteNormal_avoids_failedRun :
    AvoidsFailed (calls.exec (.new 10) failedRun) (weighted .kNormal) [heavyRemote]
      ((calls.exec (.new 10) failedRun).getRemoteNormal (weighted .kNormal) [heavyRemote] 0) :=
  (getRemoteNormal_avoids_iff _ (weighted .kNormal) (by decide) [heavyRemote] 0).mpr
    (.inr (.inr ⟨remoteAt 1, rfl, by decide⟩))

/-- The only untried remote is unhealthy and the random index falls on the failed one. -/
theorem getRemoteNormal_returns_failed :
    (weighted .kNormal).remotes ≠ [] ∧
      ¬ Among [heavyRemote] (remoteAt 1) ∧
      ¬ AvoidsFailed (calls.exec (.new 10) failedRun) (weighted .kNormal) [heavyRemote]
        ((calls.exec (.new 10) failedRun).getRemoteNormal (weighted .kNormal) [heavyRemote] 1) := by
  refine ⟨by decide, by decide, fun h => ?_⟩
  obtain ⟨ref, r, href, hderef, -, hok⟩ := h.otherwise (by decide)
    ⟨remoteAt 1, by decide, by decide⟩
  obtain rfl : ref = .elem (weighted .kNormal) 1 := (Option.some.inj href).symm
  obtain rfl := Option.some.inj hderef
  exact hok (by decide)

end Magneto.ConnsMgr
