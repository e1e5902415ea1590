import Mathlib.Data.List.Basic

/-!
# Executable transition machines and their runs

A machine has an enabling predicate and a total next-state function, so a run
is a list of labels and its final state can be evaluated. A guarded machine
restricts the enabled labels of another; its runs are the runs all of whose
steps meet the guard. Every safety result about a program is obtained from
`Machine.invariant`, which asks only what one enabled step preserves.
-/

structure Machine (σ ε : Type*) where
  enabled : σ → ε → Prop
  next : σ → ε → σ

namespace Machine

variable {σ ε : Type*} (M : Machine σ ε)

def exec (s : σ) (es : List ε) : σ := es.foldl M.next s

/-- Every label is enabled in the state it is executed in. -/
def Admits : σ → List ε → Prop
  | _, [] => True
  | s, e :: es => M.enabled s e ∧ Admits (M.next s e) es

instance decidableAdmits [∀ s e, Decidable (M.enabled s e)] :
    ∀ (s : σ) (es : List ε), Decidable (M.Admits s es)
  | _, [] => inferInstanceAs (Decidable True)
  | s, e :: es =>
    haveI := decidableAdmits (M.next s e) es
    inferInstanceAs (Decidable (M.enabled s e ∧ M.Admits (M.next s e) es))

/-- What one enabled step preserves, a whole run preserves. -/
theorem invariant {I : σ → Prop} (step : ∀ s e, I s → M.enabled s e → I (M.next s e))
    {s : σ} (hs : I s) {es : List ε} (hes : M.Admits s es) : I (M.exec s es) := by
  induction es generalizing s with
  | nil => exact hs
  | cons e es ih => exact ih (step s e hs hes.1) hes.2

theorem invariant_measure {I : σ → Prop} (μ : σ → ℕ)
    (step : ∀ s e, I s → M.enabled s e → I (M.next s e) ∧ μ (M.next s e) < μ s)
    {s : σ} (hs : I s) {es : List ε} (hes : M.Admits s es) :
    I (M.exec s es) ∧ es.length + μ (M.exec s es) ≤ μ s := by
  induction es generalizing s with
  | nil => exact ⟨hs, Nat.le_of_eq (Nat.zero_add _)⟩
  | cons e es ih =>
    obtain ⟨hnext, hless⟩ := step s e hs hes.1
    obtain ⟨hexec, hlen⟩ := ih hnext hes.2
    refine ⟨hexec, ?_⟩
    have hlen' : es.length + μ (M.exec s (e :: es)) ≤ μ (M.next s e) := hlen
    rw [List.length_cons]
    omega

theorem exists_exec_of_measure {I goal : σ → Prop} {kind : ε → Prop} (μ : σ → ℕ)
    (step : ∀ s, I s → ¬ goal s →
      ∃ e, kind e ∧ M.enabled s e ∧ I (M.next s e) ∧ μ (M.next s e) < μ s) {s : σ} (hs : I s) :
    ∃ es : List ε, (∀ e ∈ es, kind e) ∧ M.Admits s es ∧ I (M.exec s es) ∧ goal (M.exec s es) := by
  induction hn : μ s using Nat.strongRecOn generalizing s with
  | ind n ih =>
    by_cases hg : goal s
    · exact ⟨[], fun _ he => (nomatch he), trivial, hs, hg⟩
    · obtain ⟨e, hkind, he, hnext, hless⟩ := step s hs hg
      obtain ⟨es, hall, hes, hI, hgoal⟩ := ih _ (hn ▸ hless) hnext rfl
      exact ⟨e :: es, List.forall_mem_cons.mpr ⟨hkind, hall⟩, ⟨he, hes⟩, hI, hgoal⟩

theorem exec_append (s : σ) (es es' : List ε) :
    M.exec s (es ++ es') = M.exec (M.exec s es) es' := by
  rw [exec, List.foldl_append, exec, exec]

theorem admits_append {s : σ} {es es' : List ε} :
    M.Admits s (es ++ es') ↔ M.Admits s es ∧ M.Admits (M.exec s es) es' := by
  induction es generalizing s with
  | nil => simp [Admits, exec]
  | cons e es ih =>
    simp only [List.cons_append, Admits, ih]
    exact and_assoc.symm

def Reaches (s : σ) (es : List ε) (s' : σ) : Prop := M.Admits s es ∧ M.exec s es = s'

variable {M} in
theorem Reaches.append {s s' s'' : σ} {es es' : List ε} (h : M.Reaches s es s')
    (h' : M.Reaches s' es' s'') : M.Reaches s (es ++ es') s'' := by
  obtain ⟨hadm, rfl⟩ := h
  exact ⟨(M.admits_append).mpr ⟨hadm, h'.1⟩, (M.exec_append s es es').trans h'.2⟩

def guarded (C : σ → ε → Prop) : Machine σ ε where
  enabled s e := M.enabled s e ∧ C s e
  next := M.next

theorem admits_guarded {I : σ → Prop} {C D : σ → ε → Prop}
    (step : ∀ s e, I s → M.enabled s e → C s e → I (M.next s e) ∧ D s e) {s : σ} (hs : I s)
    {es : List ε} (hes : (M.guarded C).Admits s es) : (M.guarded D).Admits s es := by
  induction es generalizing s with
  | nil => trivial
  | cons e es ih =>
    obtain ⟨⟨he, hguard⟩, hrest⟩ := hes
    obtain ⟨hnext, hD⟩ := step s e hs he hguard
    exact ⟨⟨he, hD⟩, ih hnext hrest⟩

/-- Where a step from a state with an invariant has a property only if it meets a guard, and
keeps the invariant if it does, the runs that have the property in every state are the runs of
the guarded machine. -/
theorem forall_take_iff_guarded {I P : σ → Prop} {C : σ → ε → Prop} (hP : ∀ s, I s → P s)
    (only : ∀ s e, I s → M.enabled s e → P (M.next s e) → C s e)
    (step : ∀ s e, I s → M.enabled s e → C s e → I (M.next s e)) {s : σ} (hs : I s)
    {es : List ε} (hes : M.Admits s es) :
    (∀ n, P (M.exec s (es.take n))) ↔ (M.guarded C).Admits s es := by
  induction es generalizing s with
  | nil =>
    refine ⟨fun _ => trivial, fun _ n => ?_⟩
    rw [List.take_nil]
    exact hP s hs
  | cons e es ih =>
    constructor
    · intro h
      have hguard : C s e := only s e hs hes.1 (h 1)
      have hnext := step s e hs hes.1 hguard
      exact ⟨⟨hes.1, hguard⟩, (ih hnext hes.2).mp fun n => h (n + 1)⟩
    · rintro ⟨⟨-, hguard⟩, hrest⟩ n
      have hnext := step s e hs hes.1 hguard
      cases n with
      | zero => exact hP s hs
      | succ n => exact (ih hnext hes.2).mpr hrest n

/-- Where a step preserves an invariant exactly when it meets a guard, the runs that keep the
invariant in every state are the runs of the guarded machine. -/
theorem forall_take_iff {I : σ → Prop} {C : σ → ε → Prop}
    (step : ∀ s e, I s → M.enabled s e → (I (M.next s e) ↔ C s e)) {s : σ} (hs : I s)
    {es : List ε} (hes : M.Admits s es) :
    (∀ n, I (M.exec s (es.take n))) ↔ (M.guarded C).Admits s es :=
  M.forall_take_iff_guarded (fun _ => id) (fun s e hI he => (step s e hI he).mp)
    (fun s e hI he => (step s e hI he).mpr) hs hes

end Machine
