import Mathlib.Algebra.BigOperators.Group.Finset.Basic
import Mathlib.Data.Fintype.Card

/-!
# Additive checksums

Two words whose cells have the same sum over a set of places cannot differ in
exactly one of these places.
-/

namespace RaspiOrbSlam.Foundation

variable {ι M : Type*} [DecidableEq ι] [DecidableEq M]

/-- The places where two words differ. -/
def differing [Fintype ι] (f g : ι → M) : Finset ι := Finset.univ.filter fun i => f i ≠ g i

variable [AddCancelCommMonoid M]

/-- A difference inside the summed places comes with a second one. -/
theorem exists_second_difference {places : Finset ι} {f g : ι → M}
    (hsum : ∑ i ∈ places, f i = ∑ i ∈ places, g i) {i : ι} (hi : i ∈ places)
    (hne : f i ≠ g i) : ∃ j ∈ places, j ≠ i ∧ f j ≠ g j := by
  by_contra hall
  push Not at hall
  apply hne
  have hrest : ∑ j ∈ places.erase i, f j = ∑ j ∈ places.erase i, g j := by
    apply Finset.sum_congr rfl
    intro j hj
    exact hall j (Finset.mem_of_mem_erase hj) (Finset.ne_of_mem_erase hj)
  rw [← Finset.add_sum_erase places f hi, ← Finset.add_sum_erase places g hi, hrest] at hsum
  exact add_right_cancel hsum

theorem two_le_card_differing [Fintype ι] {places : Finset ι} {f g : ι → M}
    (hsum : ∑ i ∈ places, f i = ∑ i ∈ places, g i) {i : ι} (hi : i ∈ places)
    (hne : f i ≠ g i) : 2 ≤ (differing f g).card := by
  obtain ⟨j, _, hji, hj⟩ := exists_second_difference hsum hi hne
  have hpair : ({i, j} : Finset ι) ⊆ differing f g := by
    intro k hk
    rcases Finset.mem_insert.mp hk with rfl | hk
    · exact Finset.mem_filter.mpr ⟨Finset.mem_univ _, hne⟩
    · rw [Finset.mem_singleton.mp hk]
      exact Finset.mem_filter.mpr ⟨Finset.mem_univ _, hj⟩
  calc
    2 = ({i, j} : Finset ι).card := (Finset.card_pair hji.symm).symm
    _ ≤ (differing f g).card := Finset.card_le_card hpair

end RaspiOrbSlam.Foundation
