/-
# Sylar.Lib.Census — counting the processes that are in a stage.

A counter that a program keeps with `++` on entering a stage and `--` on leaving it is right
exactly when it equals the number of processes in that stage.  `census p f` is that number for the
process table `f : ι → α` and the stage predicate `p`; the lemmas say how it moves from one table to
the next when one process moves, which is all an invariant about such a counter needs.
-/
import Mathlib.Data.Fintype.Card

namespace Sylar.Lib

variable {ι α : Type*} [Fintype ι] (p : α → Prop) [DecidablePred p]

/-- The number of processes of the table `f` that satisfy `p`. -/
def census (f : ι → α) : Nat := (Finset.univ.filter fun i => p (f i)).card

variable {p} {f g : ι → α}

/-- Nobody enters and nobody leaves. -/
theorem census_congr (h : ∀ i, p (g i) ↔ p (f i)) : census p g = census p f := by
  unfold census
  rw [Finset.filter_congr fun i _ => h i]

/-- Process `i` enters the stage. -/
theorem census_enter [DecidableEq ι] {i : ι} (hf : ¬ p (f i)) (hg : p (g i))
    (h : ∀ j, j ≠ i → (p (g j) ↔ p (f j))) : census p g = census p f + 1 := by
  have hinsert : (Finset.univ.filter fun j => p (g j))
      = insert i (Finset.univ.filter fun j => p (f j)) := by
    ext j
    by_cases hj : j = i
    · simp [hj, hg]
    · simp [hj, h j hj]
  unfold census
  rw [hinsert, Finset.card_insert_of_notMem (by simp [hf])]

/-- Process `i` leaves it. -/
theorem census_leave [DecidableEq ι] {i : ι} (hf : p (f i)) (hg : ¬ p (g i))
    (h : ∀ j, j ≠ i → (p (g j) ↔ p (f j))) : census p f = census p g + 1 :=
  census_enter hg hf fun j hj => (h j hj).symm

/-- An empty stage: nobody is in it. -/
theorem census_eq_zero : census p f = 0 ↔ ∀ i, ¬ p (f i) := by
  simp [census, Finset.card_eq_zero, Finset.filter_eq_empty_iff]

end Sylar.Lib
