import Mathlib.Data.List.Forall2

/-!
# Lists related element by element

Two lists correspond when their elements are related in order. Selecting related elements on both
sides keeps the correspondence, and two lists that correspond to a third correspond to each other.
-/
namespace MessagePass.RelatedLists

variable {α β γ : Type*} {R : α → β → Prop} {as : List α} {bs : List β}

theorem forall₂_filter {S : α → β → Prop} {p : α → Prop} {q : β → Prop} [DecidablePred p]
    [DecidablePred q] (h : List.Forall₂ R as bs) (hiff : ∀ a b, R a b → (p a ↔ q b))
    (hkeep : ∀ a b, R a b → p a → S a b) :
    List.Forall₂ S (as.filter fun a => p a) (bs.filter fun b => q b) := by
  induction h with
  | nil => exact .nil
  | @cons a b as bs hab _ ih =>
    by_cases hp : p a
    · have hq := (hiff a b hab).mp hp
      simpa [hp, hq] using ⟨hkeep a b hab hp, ih⟩
    · have hq := (hiff a b hab).not.mp hp
      simpa [hp, hq] using ih

theorem exists_of_mem_left (h : List.Forall₂ R as bs) {a : α} (ha : a ∈ as) :
    ∃ b ∈ bs, R a b := by
  induction h with
  | nil => cases ha
  | cons hab _ ih =>
    rcases List.mem_cons.mp ha with rfl | ha
    · exact ⟨_, List.mem_cons_self, hab⟩
    · obtain ⟨b, hb, hR⟩ := ih ha
      exact ⟨b, List.mem_cons_of_mem _ hb, hR⟩

theorem forall₂_of_common {R' : α → γ → Prop} {S : β → γ → Prop} {cs : List γ}
    (h : List.Forall₂ R as bs) (h' : List.Forall₂ R' as cs)
    (hboth : ∀ a b c, R a b → R' a c → S b c) : List.Forall₂ S bs cs := by
  induction h generalizing cs with
  | nil => cases h'; exact .nil
  | cons hab _ ih =>
    cases h' with
    | cons hac hrest => exact .cons (hboth _ _ _ hab hac) (ih hrest)

end MessagePass.RelatedLists
