import Magneto.ConnsSafe

/-!
# Remotes without a pool

`GetFd_` creates the pool of the remote that was selected if there is none, while
`GetRemoteWeight_` reads the mark of every remote that did not fail before, through the
pool it expects. A configuration can drop the pool of a remote whose service is still in
use by a talk, so that the selection goes wrong as soon as some remote is unhealthy.
-/

namespace Magneto.ConnsMgr

variable {m : ConnsMgr} {service : Service} {failRemotes : List Remote}

/-- `GetFd` returns, whatever comes from `rand_r`, `CheckConn` and `Connect`, what the pool of a
remote of the service gives, and the remote has a pool afterwards. -/
def Returns (m : ConnsMgr) (service : Service) (failRemotes : List Remote) : Prop :=
  ∀ rand < 2 ^ 31, ∀ env, ∃ ref m' remote,
    m.getFd service failRemotes rand env = some (ref, (m.pool remote).get env, m') ∧
      ref.deref m'.tmpRemotes = some remote ∧ remote ∈ service.remotes ∧
      (m'.conns remote.addr).isSome

def Drawable (weights : List ℕ) : Prop :=
  0 < weights.sum % 2 ^ 64 ∧ weights.sum % 2 ^ 64 < 2 ^ 31

instance (weights : List ℕ) : Decidable (Drawable weights) :=
  inferInstanceAs (Decidable (_ ∧ _))

/-- While some remote is unhealthy, every remote of a weighted service that did not fail before
has a pool; and the weights that are drawn from add up to an `int`. -/
def Selectable (m : ConnsMgr) (service : Service) (failRemotes : List Remote) : Prop :=
  service.serviceStrategy = .kWeight →
    (m.unhealthyGuys = [] → Drawable (service.remotes.map Remote.weight)) ∧
    (m.unhealthyGuys ≠ [] → refill service failRemotes ≠ [] →
      (∀ r ∈ refill service failRemotes, (m.conns r.addr).isSome) ∧
        Drawable ((refill service failRemotes).map m.healthWeight))

instance (m : ConnsMgr) (service : Service) (failRemotes : List Remote) :
    Decidable (m.Selectable service failRemotes) :=
  inferInstanceAs (Decidable (_ → _))

theorem getFd_of_ref {rand : ℕ} {ref : RemoteRef}
    (href : (m.getRemote service failRemotes rand).1 = some ref) (env : ConnEnv) :
    ∃ m' remote, m.getFd service failRemotes rand env =
        some (ref, (m.pool remote).get env, m') ∧
      ref.deref m'.tmpRemotes = some remote ∧ remote ∈ service.remotes ∧
      (m'.conns remote.addr).isSome := by
  obtain ⟨remote, hderef, hmem⟩ := getRemote_deref href
  have hconns := (getRemote_spec m service failRemotes rand).1
  generalize hr : m.getRemote service failRemotes rand = r at href hderef hconns
  have hpool : r.2.pool remote = m.pool remote := by rw [pool, pool, hconns]
  refine ⟨r.2.setPool remote.addr ((m.pool remote).get env).pool, remote, ?_, hderef, hmem, ?_⟩
  · simp only [getFd, hr, href, hderef, Option.bind_some, Option.map_some, getFdOf, hpool]
  · simp [setPool]

theorem returns_iff : m.Returns service failRemotes ↔
    ∀ rand < 2 ^ 31, (m.getRemote service failRemotes rand).1.isSome := by
  constructor
  · intro h rand hrand
    obtain ⟨ref, m', remote, hg, -⟩ := h rand hrand ⟨false, (0, false)⟩
    simp only [getFd] at hg
    obtain ⟨ref', href, -⟩ := Option.bind_eq_some_iff.mp hg
    rw [href]
    rfl
  · intro h rand hrand env
    obtain ⟨ref, href⟩ := Option.isSome_iff_exists.mp (h rand hrand)
    exact ⟨ref, getFd_of_ref href env⟩

theorem healthWeights_isSome_iff {rs : List Remote} :
    (m.healthWeights rs).isSome ↔ ∀ r ∈ rs, (m.conns r.addr).isSome := by
  constructor
  · induction rs with
    | nil => simp
    | cons r rs ih =>
      intro h
      simp only [healthWeights] at h
      split at h
      · next p ws hp hws =>
        rw [List.forall_mem_cons, hp]
        exact ⟨rfl, ih (by rw [hws]; rfl)⟩
      · cases h
  · intro h
    rw [healthWeights_eq h]
    rfl

theorem getRemoteWeight_absent (hguys : m.unhealthyGuys ≠ [])
    (habsent : ¬ ∀ r ∈ refill service failRemotes, (m.conns r.addr).isSome) (rand : ℕ) :
    (m.getRemoteWeight service failRemotes rand).1 = none := by
  have hnone : m.healthWeights (refill service failRemotes) = none := by
    rw [← Option.not_isSome_iff_eq_none, healthWeights_isSome_iff]
    exact habsent
  rw [getRemoteWeight, if_neg hguys]
  simp only [healthWeights_refilled, hnone]

theorem getRemoteWeight_present (hguys : m.unhealthyGuys ≠ [])
    (hne : refill service failRemotes ≠ [])
    (hconns : ∀ r ∈ refill service failRemotes, (m.conns r.addr).isSome) (rand : ℕ) :
    (m.getRemoteWeight service failRemotes rand).1 =
      (pick ((refill service failRemotes).map fun r => m.healthWeight r % 2 ^ 64)
        (((refill service failRemotes).map fun r => m.healthWeight r % 2 ^ 64).sum % 2 ^ 64)
        rand).map .tmp := by
  rw [getRemoteWeight, if_neg hguys]
  simp only [healthWeights_refilled, healthWeights_eq hconns]
  rw [if_pos (by simpa using hne)]

theorem getRemoteWeight_isSome_iff (hne : service.remotes ≠ [])
    (hall : service.weightAll = (service.remotes.map Remote.weight).sum % 2 ^ 64)
    (hs : service.serviceStrategy = .kWeight) :
    (∀ rand < 2 ^ 31, (m.getRemoteWeight service failRemotes rand).1.isSome) ↔
      m.Selectable service failRemotes := by
  rw [Selectable, forall_prop_of_true hs]
  by_cases hguys : m.unhealthyGuys = []
  · have hget : ∀ rand, (m.getRemoteWeight service failRemotes rand).1.isSome =
        (pick (service.remotes.map Remote.weight)
          ((service.remotes.map Remote.weight).sum % 2 ^ 64) rand).isSome := by
      intro rand
      rw [getRemoteWeight, if_pos hguys, Option.isSome_map, hall]
    simp only [hget, hguys, forall_const, ne_eq, not_true, IsEmpty.forall_iff, and_true]
    exact pick_isSome_iff _
  by_cases hnil : refill service failRemotes = []
  · refine iff_of_true (fun rand _ => ?_) ⟨fun h => absurd h hguys, fun _ h => absurd hnil h⟩
    obtain ⟨r, -, -, hany⟩ := anyRemote_isSome hne rand
    rw [getRemoteWeight_allFailed hguys hnil, hany]
    rfl
  by_cases hconns : ∀ r ∈ refill service failRemotes, (m.conns r.addr).isSome
  · simp only [getRemoteWeight_present hguys hnil hconns, Option.isSome_map, hguys, hnil, ne_eq,
      not_false_eq_true, forall_const, IsEmpty.forall_iff, true_and]
    rw [pick_isSome_iff, sum_healthWeight_mod, untriedWeight_eq]
    exact (and_iff_right hconns).symm
  · refine iff_of_false (fun h => ?_) fun h => hconns (h.2 hguys hnil).1
    have hsome := h 0 (by decide)
    rw [getRemoteWeight_absent hguys hconns] at hsome
    cases hsome

structure Usable (service : Service) : Prop where
  remotes : service.remotes ≠ []
  strategy : service.serviceStrategy ≠ .kInvalid
  weightAll : service.weightAll = (service.remotes.map Remote.weight).sum % 2 ^ 64

instance (service : Service) : Decidable (Usable service) :=
  decidable_of_iff (service.remotes ≠ [] ∧ service.serviceStrategy ≠ .kInvalid ∧
      service.weightAll = (service.remotes.map Remote.weight).sum % 2 ^ 64)
    ⟨fun h => ⟨h.1, h.2.1, h.2.2⟩, fun h => ⟨h.remotes, h.strategy, h.weightAll⟩⟩

theorem returns_iff_selectable (h : Usable service) :
    m.Returns service failRemotes ↔ m.Selectable service failRemotes := by
  rw [returns_iff]
  cases hs : service.serviceStrategy with
  | kInvalid => exact absurd hs h.strategy
  | kNormal =>
    refine iff_of_true (fun rand _ => ?_) fun hw => by rw [hs] at hw; cases hw
    rw [getRemote, hs]
    exact getRemoteNormal_isSome h.remotes rand
  | kWeight =>
    simp only [getRemote_weight hs]
    exact getRemoteWeight_isSome_iff h.remotes h.weightAll hs

def Safe (m : ConnsMgr) : Call → Prop
  | .getFd service failRemotes rand _ =>
    rand < 2 ^ 31 ∧ Usable service ∧ m.Selectable service failRemotes
  | c => c.Distinct

instance (m : ConnsMgr) : ∀ c, Decidable (m.Safe c)
  | .configRemotes remotes => inferInstanceAs (Decidable (Call.configRemotes remotes).Distinct)
  | .getFd _ _ _ _ => inferInstanceAs (Decidable (_ ∧ _))
  | .freeFd _ _ _ => inferInstanceAs (Decidable True)
  | .reportStatus _ _ => inferInstanceAs (Decidable True)

def safeCalls : Machine ConnsMgr Call where
  enabled := Safe
  next := calls.next

instance (m : ConnsMgr) (c : Call) : Decidable (safeCalls.enabled m c) :=
  inferInstanceAs (Decidable (m.Safe c))

theorem Safe.callable {c : Call} (h : m.Safe c) : m.Callable c := by
  cases c with
  | configRemotes remotes => exact ⟨rfl, h⟩
  | freeFd remote fd now => exact ⟨rfl, trivial⟩
  | reportStatus remote status => exact ⟨rfl, trivial⟩
  | getFd service failRemotes rand env =>
    obtain ⟨hrand, hservice, hsel⟩ := h
    obtain ⟨ref, m', remote, hg, -⟩ := (returns_iff_selectable hservice).mpr hsel rand hrand env
    refine ⟨?_, trivial⟩
    rw [call, hg]
    rfl

/-- A sequence of calls in which every service is selectable when `GetFd` is called for it runs
to its end; and in every state that calls reach, `GetFd` returns a result for a remote of the
service exactly when the service is selectable. -/
theorem calls_returns_iff (longConnKeepaliveSec : ℤ) (cs : List Call) :
    (safeCalls.Admits (.new longConnKeepaliveSec) cs →
      calls.Admits (.new longConnKeepaliveSec) cs) ∧
    (calls.Admits (.new longConnKeepaliveSec) cs →
      ∀ service failRemotes, Usable service →
        ((calls.exec (.new longConnKeepaliveSec) cs).Returns service failRemotes ↔
          (calls.exec (.new longConnKeepaliveSec) cs).Selectable service failRemotes)) := by
  refine ⟨?_, fun _ service failRemotes hservice => returns_iff_selectable hservice⟩
  generalize new longConnKeepaliveSec = m
  intro hsafe
  induction cs generalizing m with
  | nil => trivial
  | cons c cs ih => exact ⟨hsafe.1.callable, ih _ hsafe.2⟩

def droppedRun : List Call := failedRun ++ [.configRemotes [remoteAt 1]]

theorem calls_returns_iff_failedRun :
    (calls.exec (.new 10) failedRun).Returns (weighted .kWeight) [remoteAt 1] ∧
      ¬ (calls.exec (.new 10) droppedRun).Returns (weighted .kWeight) [remoteAt 1] := by
  constructor
  · have hruns := (calls_returns_iff 10 failedRun).1 (by decide)
    rw [(calls_returns_iff 10 failedRun).2 hruns _ _ (by decide)]
    decide
  · have hruns := (calls_returns_iff 10 droppedRun).1 (by decide)
    rw [(calls_returns_iff 10 droppedRun).2 hruns _ _ (by decide)]
    decide

/-- The retry of a talk of the old configuration looks for the pool that was deleted. -/
theorem droppedRemote_absent : ¬ ∀ (longConnKeepaliveSec : ℤ) (cs : List Call),
    calls.Admits (.new longConnKeepaliveSec) cs → ∀ service failRemotes, Usable service →
      (∀ r ∈ service.remotes, 0 < r.weight) →
      (calls.exec (.new longConnKeepaliveSec) cs).Returns service failRemotes := by
  intro h
  obtain ⟨ref, m', remote, hg, -⟩ := h 10 droppedRun (by decide) (weighted .kWeight) [remoteAt 1]
    (by decide) (by decide) 0 (by decide) ⟨true, (5, false)⟩
  have hnone : ((calls.exec (.new 10) droppedRun).getFd (weighted .kWeight) [remoteAt 1] 0
      ⟨true, (5, false)⟩).isSome = false := by decide
  rw [hg] at hnone
  cases hnone

end Magneto.ConnsMgr
