import Mathlib.Algebra.BigOperators.Group.Finset.Piecewise
import Mathlib.Tactic.Abel

/-!
# Sums over parties, one of which changes

A ledger sums what each party holds: a multiset of items, or a count. When a
step changes what one party holds and leaves the others as they were, the
sum changes by that party's difference (`sum_add_eq_of_eq_off`); a count of
the parties with some property changes the same way
(`card_filter_add_eq_of_iff_off`).
-/

namespace Ledger

variable {ι M : Type*} [DecidableEq ι] [AddCommMonoid M]

/-- Changing the summand at `i` alone changes the sum by the difference. -/
theorem sum_add_eq_of_eq_off {s : Finset ι} {i : ι} (hi : i ∈ s) {f g : ι → M}
    (h : ∀ j ∈ s, j ≠ i → g j = f j) : ∑ j ∈ s, g j + f i = ∑ j ∈ s, f j + g i := by
  have hrest : ∑ j ∈ s.erase i, g j = ∑ j ∈ s.erase i, f j := Finset.sum_congr rfl fun j hj =>
    h j (Finset.mem_of_mem_erase hj) (Finset.ne_of_mem_erase hj)
  rw [← Finset.add_sum_erase s g hi, ← Finset.add_sum_erase s f hi, hrest]
  abel

theorem card_filter_add_eq_of_iff_off [Fintype ι] {i : ι} {P Q : ι → Prop} [DecidablePred P] [DecidablePred Q]
    (h : ∀ j, j ≠ i → (Q j ↔ P j)) :
    (Finset.univ.filter Q).card + (if P i then 1 else 0) = (Finset.univ.filter P).card + (if Q i then 1 else 0) := by
  rw [Finset.card_filter, Finset.card_filter]
  exact sum_add_eq_of_eq_off (Finset.mem_univ i) fun j _ hj => if_congr (h j hj) rfl rfl

end Ledger
