import Mathlib.Data.List.Perm.Basic
import Mathlib.Data.List.Nodup
import Mathlib.Logic.Function.Basic

/-!
# A ledger of resources that are opened, passed on and closed

A resource may be opened again after it was closed, so a ledger counts its
openings and logs every closing with the opening it ends. A ledger is sound when
every opening was closed once or is the last one and has one holder. Passing a
resource on, closing it and opening it keep a ledger sound.
-/

structure Ledger (η ρ : Type*) where
  held : η → List ρ
  opens : ρ → ℕ
  closed : List (ρ × ℕ)

namespace Ledger

variable {η ρ : Type*} {l l' : Ledger η ρ}

def IsOpen (l : Ledger η ρ) (r : ρ) : Prop := l.opens r ≠ 0 ∧ (r, l.opens r) ∉ l.closed

/-- The ledger adds up, with at most one open resource in nobody's hands. -/
structure Sound (l : Ledger η ρ) (loose : Option ρ) : Prop where
  nodup : ∀ h, (l.held h).Nodup
  exclusive : ∀ r h h', r ∈ l.held h → r ∈ l.held h' → h = h'
  held_open : ∀ r h, r ∈ l.held h → l.IsOpen r
  closed_nodup : l.closed.Nodup
  closed_le : ∀ c ∈ l.closed, c.2 ≤ l.opens c.1
  accounted : ∀ r n, 1 ≤ n → n ≤ l.opens r →
    (r, n) ∈ l.closed ∨ n = l.opens r ∧ (loose = some r ∨ ∃ h, r ∈ l.held h)
  loose_free : ∀ r, loose = some r → l.IsOpen r ∧ ∀ h, r ∉ l.held h

theorem Sound.initial (hheld : ∀ h, l.held h = []) (hopens : ∀ r, l.opens r = 0)
    (hclosed : l.closed = []) : l.Sound none where
  nodup h := hheld h ▸ List.nodup_nil
  exclusive r h h' hr := absurd (hheld h ▸ hr) List.not_mem_nil
  held_open r h hr := absurd (hheld h ▸ hr) List.not_mem_nil
  closed_nodup := hclosed ▸ List.nodup_nil
  closed_le c hc := absurd (hclosed ▸ hc) List.not_mem_nil
  accounted r n h1 hn := absurd (Nat.le_trans h1 (hopens r ▸ hn)) (Nat.not_succ_le_zero 0)
  loose_free := by
    rintro _ ⟨⟩

/-- Where one opening of a resource is: with one holder, or closed, once each. -/
theorem Sound.settled [DecidableEq ρ] (hl : l.Sound none) {r : ρ} {n : ℕ} (h1 : 1 ≤ n)
    (hn : n ≤ l.opens r) :
    (l.opens r = n ∧ (r, n) ∉ l.closed ∧ ∃ h, (l.held h).count r = 1 ∧
        ∀ h', r ∈ l.held h' → h' = h) ∨
      l.closed.count (r, n) = 1 ∧ ¬ (l.opens r = n ∧ ∃ h, r ∈ l.held h) := by
  rcases hl.accounted r n h1 hn with hclosed | ⟨rfl, hnone | ⟨h, hh⟩⟩
  · refine .inr ⟨List.count_eq_one_of_mem hl.closed_nodup hclosed, ?_⟩
    rintro ⟨rfl, h, hh⟩
    exact (hl.held_open r h hh).2 hclosed
  · cases hnone
  · exact .inl ⟨rfl, (hl.held_open r h hh).2, h, List.count_eq_one_of_mem (hl.nodup h) hh,
      fun h' hh' => hl.exclusive r h' h hh' hh⟩

theorem Sound.isOpen_iff (hl : l.Sound none) (r : ρ) : l.IsOpen r ↔ ∃ h, r ∈ l.held h := by
  refine ⟨fun ho => ?_, fun ⟨h, hh⟩ => hl.held_open r h hh⟩
  rcases hl.accounted r _ (Nat.one_le_iff_ne_zero.mpr ho.1) (Nat.le_refl _) with
    hc | ⟨-, hnone | hh⟩
  · exact absurd hc ho.2
  · cases hnone
  · exact hh

theorem Sound.take [DecidableEq η] (hl : l.Sound none) {h : η} {r : ρ}
    (hh : (l.held h).Perm (r :: l'.held h)) (hother : ∀ h', h' ≠ h → l'.held h' = l.held h')
    (ho : l'.opens = l.opens) (hc : l'.closed = l.closed) : l'.Sound (some r) := by
  obtain ⟨hnot, hnodup⟩ := List.nodup_cons.mp (hh.nodup_iff.mp (hl.nodup h))
  have hr : r ∈ l.held h := hh.symm.subset List.mem_cons_self
  have hsub : ∀ r' h', r' ∈ l'.held h' → r' ∈ l.held h' := by
    intro r' h' hr'
    by_cases he : h' = h
    · subst he
      exact hh.symm.subset (List.mem_cons_of_mem _ hr')
    · rwa [← hother h' he]
  have hopen : ∀ r', l'.IsOpen r' ↔ l.IsOpen r' := fun r' => by rw [IsOpen, IsOpen, ho, hc]
  exact {
    nodup := by
      intro h'
      by_cases he : h' = h
      · rwa [he]
      · rw [hother h' he]
        exact hl.nodup h'
    exclusive := fun r' h₁ h₂ h₁' h₂' => hl.exclusive r' h₁ h₂ (hsub r' h₁ h₁') (hsub r' h₂ h₂')
    held_open := fun r' h' hr' => (hopen r').mpr (hl.held_open r' h' (hsub r' h' hr'))
    closed_nodup := hc ▸ hl.closed_nodup
    closed_le := fun c hc' => ho ▸ hl.closed_le c (hc ▸ hc')
    accounted := by
      intro r' n h1 hn
      rw [hc, ho]
      rcases hl.accounted r' n h1 (ho ▸ hn) with hcl | ⟨he, hnone | ⟨h', hr'⟩⟩
      · exact .inl hcl
      · cases hnone
      · refine .inr ⟨he, ?_⟩
        by_cases heq : h' = h
        · subst heq
          rcases List.mem_cons.mp (hh.subset hr') with rfl | hr''
          · exact .inl rfl
          · exact .inr ⟨h', hr''⟩
        · exact .inr ⟨h', by rwa [hother h' heq]⟩
    loose_free := by
      rintro _ ⟨rfl⟩
      refine ⟨(hopen r).mpr (hl.held_open r h hr), fun h' hr' => ?_⟩
      obtain rfl := hl.exclusive r h' h (hsub r h' hr') hr
      exact hnot hr' }

theorem Sound.give [DecidableEq η] {r : ρ} (hl : l.Sound (some r)) {h : η}
    (hh : (l'.held h).Perm (r :: l.held h)) (hother : ∀ h', h' ≠ h → l'.held h' = l.held h')
    (ho : l'.opens = l.opens) (hc : l'.closed = l.closed) : l'.Sound none := by
  obtain ⟨hropen, hfree⟩ := hl.loose_free r rfl
  have hmem : ∀ r' h', r' ∈ l'.held h' ↔ r' = r ∧ h' = h ∨ r' ∈ l.held h' := by
    intro r' h'
    by_cases he : h' = h
    · subst he
      simp [hh.mem_iff]
    · simp [hother h' he, he]
  have hopen : ∀ r', l'.IsOpen r' ↔ l.IsOpen r' := fun r' => by rw [IsOpen, IsOpen, ho, hc]
  exact {
    nodup := by
      intro h'
      by_cases he : h' = h
      · rw [he]
        exact hh.nodup_iff.mpr (List.nodup_cons.mpr ⟨hfree h, hl.nodup h⟩)
      · rw [hother h' he]
        exact hl.nodup h'
    exclusive := by
      intro r' h₁ h₂ h₁' h₂'
      rcases (hmem r' h₁).mp h₁' with ⟨rfl, rfl⟩ | h₁' <;>
        rcases (hmem r' h₂).mp h₂' with ⟨he, rfl⟩ | h₂'
      · rfl
      · exact absurd h₂' (hfree h₂)
      · exact absurd (he ▸ h₁') (hfree h₁)
      · exact hl.exclusive r' h₁ h₂ h₁' h₂'
    held_open := by
      intro r' h' hr'
      rcases (hmem r' h').mp hr' with ⟨rfl, -⟩ | hr'
      · exact (hopen r').mpr hropen
      · exact (hopen r').mpr (hl.held_open r' h' hr')
    closed_nodup := hc ▸ hl.closed_nodup
    closed_le := fun c hc' => ho ▸ hl.closed_le c (hc ▸ hc')
    accounted := by
      intro r' n h1 hn
      rw [hc, ho]
      rcases hl.accounted r' n h1 (ho ▸ hn) with hcl | ⟨he, hloose | ⟨h', hr'⟩⟩
      · exact .inl hcl
      · obtain rfl := Option.some.inj hloose
        exact .inr ⟨he, .inr ⟨h, (hmem r h).mpr (.inl ⟨rfl, rfl⟩)⟩⟩
      · exact .inr ⟨he, .inr ⟨h', (hmem r' h').mpr (.inr hr')⟩⟩
    loose_free := by
      rintro _ ⟨⟩ }

theorem Sound.close {r : ρ} (hl : l.Sound (some r)) (hh : l'.held = l.held)
    (ho : l'.opens = l.opens) (hc : l'.closed = l.closed ++ [(r, l.opens r)]) :
    l'.Sound none := by
  obtain ⟨hropen, hfree⟩ := hl.loose_free r rfl
  exact {
    nodup := fun h => hh ▸ hl.nodup h
    exclusive := fun r' h₁ h₂ h₁' h₂' => hl.exclusive r' h₁ h₂ (hh ▸ h₁') (hh ▸ h₂')
    held_open := by
      intro r' h hr'
      rw [hh] at hr'
      have hopen := hl.held_open r' h hr'
      refine ⟨ho ▸ hopen.1, ?_⟩
      rw [ho, hc, List.mem_append, List.mem_singleton, Prod.mk.injEq]
      rintro (hmem | ⟨rfl, -⟩)
      · exact hopen.2 hmem
      · exact hfree h hr'
    closed_nodup := by
      rw [hc]
      refine List.nodup_append.mpr ⟨hl.closed_nodup, List.nodup_singleton _, ?_⟩
      rintro c hmem c' hmem' rfl
      rw [List.mem_singleton.mp hmem'] at hmem
      exact hropen.2 hmem
    closed_le := by
      intro c hc'
      rw [hc] at hc'
      rw [ho]
      rcases List.mem_append.mp hc' with hmem | hmem
      · exact hl.closed_le c hmem
      · obtain rfl := List.mem_singleton.mp hmem
        exact Nat.le_refl _
    accounted := by
      intro r' n h1 hn
      rw [ho] at hn ⊢
      rw [hc, hh, List.mem_append, List.mem_singleton]
      rcases hl.accounted r' n h1 hn with hcl | ⟨rfl, hloose | hheld⟩
      · exact .inl (.inl hcl)
      · obtain rfl := Option.some.inj hloose
        exact .inl (.inr rfl)
      · exact .inr ⟨rfl, .inr hheld⟩
    loose_free := by
      rintro _ ⟨⟩ }

theorem Sound.open [DecidableEq ρ] (hl : l.Sound none) {r : ρ} (hr : ¬ l.IsOpen r)
    (hh : l'.held = l.held) (ho : l'.opens = Function.update l.opens r (l.opens r + 1))
    (hc : l'.closed = l.closed) : l'.Sound (some r) := by
  have hfree : ∀ h, r ∉ l.held h := fun h hmem => hr (hl.held_open r h hmem)
  have hne : ∀ r', r' ≠ r → l'.opens r' = l.opens r' := fun r' h => by
    rw [ho, Function.update_of_ne h]
  have hself : l'.opens r = l.opens r + 1 := by rw [ho, Function.update_self]
  have hnew : (r, l.opens r + 1) ∉ l.closed := fun hmem =>
    Nat.not_succ_le_self _ (hl.closed_le _ hmem)
  exact {
    nodup := fun h => hh ▸ hl.nodup h
    exclusive := fun r' h₁ h₂ h₁' h₂' => hl.exclusive r' h₁ h₂ (hh ▸ h₁') (hh ▸ h₂')
    held_open := by
      intro r' h hr'
      rw [hh] at hr'
      rw [IsOpen, hne r' fun he => hfree h (he ▸ hr'), hc]
      exact hl.held_open r' h hr'
    closed_nodup := hc ▸ hl.closed_nodup
    closed_le := by
      intro c hc'
      rw [hc] at hc'
      have hle := hl.closed_le c hc'
      by_cases he : c.1 = r
      · rw [he] at hle ⊢
        rw [hself]
        exact Nat.le_succ_of_le hle
      · rw [hne _ he]
        exact hle
    accounted := by
      intro r' n h1 hn
      rw [hc, hh]
      by_cases he : r' = r
      · subst he
        rw [hself] at hn ⊢
        rcases Nat.lt_or_ge (l.opens r') n with hlt | hge
        · exact .inr ⟨Nat.le_antisymm hn hlt, .inl rfl⟩
        · rcases hl.accounted r' n h1 hge with hcl | ⟨-, hnone | ⟨h, hmem⟩⟩
          · exact .inl hcl
          · cases hnone
          · exact absurd hmem (hfree h)
      · rw [hne r' he] at hn ⊢
        rcases hl.accounted r' n h1 hn with hcl | ⟨heq, hnone | hheld⟩
        · exact .inl hcl
        · cases hnone
        · exact .inr ⟨heq, .inr hheld⟩
    loose_free := by
      rintro _ ⟨rfl⟩
      refine ⟨⟨?_, ?_⟩, fun h => hh ▸ hfree h⟩
      · rw [hself]
        exact Nat.succ_ne_zero _
      · rw [hself, hc]
        exact hnew }

end Ledger
