import Mathlib.Data.Option.Basic

/-!
# Custody of resources

A book says which holder holds which resource, and gives an origin to holders
and resources. It is sound when no resource has two holders and every holder
has the origin of what it holds. The two rules say what a step may do: holders
let go of resources, or one holder gets one resource that nobody else keeps.
-/

structure Custody (η ρ α : Type*) where
  holds : η → ρ → Prop
  place : η → Option α
  origin : ρ → Option α

namespace Custody

variable {η ρ α : Type*} {c c' : Custody η ρ α}

structure Sound (c : Custody η ρ α) : Prop where
  exclusive : ∀ r h h', c.holds h r → c.holds h' r → h = h'
  agree : ∀ h r, c.holds h r → ∃ a, c.place h = some a ∧ c.origin r = some a

structure Kept (c c' : Custody η ρ α) (h : η) (r : ρ) : Prop where
  holds : c.holds h r
  place : c'.place h = c.place h
  origin : c'.origin r = c.origin r

theorem Sound.keep (hc : c.Sound) (hk : ∀ h r, c'.holds h r → Kept c c' h r) : c'.Sound where
  exclusive := fun r h h' hr hr' => hc.exclusive r h h' (hk h r hr).holds (hk h' r hr').holds
  agree := by
    intro h r hr
    obtain ⟨a, hp, ho⟩ := hc.agree h r (hk h r hr).holds
    exact ⟨a, (hk h r hr).place.trans hp, (hk h r hr).origin.trans ho⟩

theorem Sound.give (hc : c.Sound) (h₀ : η) (r₀ : ρ) (a : α)
    (hk : ∀ h r, c'.holds h r → h = h₀ ∧ r = r₀ ∨ r ≠ r₀ ∧ Kept c c' h r)
    (hp : c'.place h₀ = some a) (ho : c'.origin r₀ = some a) : c'.Sound where
  exclusive := by
    intro r h h' hr hr'
    rcases hk h r hr with ⟨rfl, rfl⟩ | ⟨hne, hold⟩ <;>
      rcases hk h' r hr' with ⟨rfl, he⟩ | ⟨hne', hold'⟩
    · rfl
    · exact absurd rfl hne'
    · exact absurd he hne
    · exact hc.exclusive r h h' hold.holds hold'.holds
  agree := by
    intro h r hr
    rcases hk h r hr with ⟨rfl, rfl⟩ | ⟨-, hold⟩
    · exact ⟨a, hp, ho⟩
    · obtain ⟨b, hp', ho'⟩ := hc.agree h r hold.holds
      exact ⟨b, hold.place.trans hp', hold.origin.trans ho'⟩

end Custody
