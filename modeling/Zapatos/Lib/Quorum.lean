import Mathlib

namespace Quorum

variable {α : Type} [DecidableEq α] (w : α → ℕ)

-- Two sets that each hold more than two thirds of the weight share a member outside any set
-- holding less than a third of it.
theorem exists_mem_inter_not_mem {total : ℕ} {A B F : Finset α}
    (hAB : ∑ a ∈ A ∪ B, w a ≤ total) (hF : 3 * ∑ a ∈ F, w a < total)
    (hA : total * 2 / 3 + 1 ≤ ∑ a ∈ A, w a) (hB : total * 2 / 3 + 1 ≤ ∑ a ∈ B, w a) :
    ∃ a ∈ A, a ∈ B ∧ a ∉ F := by
  by_contra hne
  have hsub : A ∩ B ⊆ F := fun a ha => by
    by_contra haF
    exact hne ⟨a, (Finset.mem_inter.mp ha).1, (Finset.mem_inter.mp ha).2, haF⟩
  have hinter : ∑ a ∈ A ∪ B, w a + ∑ a ∈ A ∩ B, w a = ∑ a ∈ A, w a + ∑ a ∈ B, w a :=
    Finset.sum_union_inter
  have hle : ∑ a ∈ A ∩ B, w a ≤ ∑ a ∈ F, w a := Finset.sum_le_sum_of_subset hsub
  omega

end Quorum
