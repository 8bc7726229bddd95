/-
# Sylar.Lib.Variant — systems that come to rest.

A `Variant` for some of the steps of a system is an invariant of these steps with a number that each of
them lowers.  So a run of such steps is bounded by the number it starts from (`Variant.bounded`), and goes
on to a state in which none of them is left to take (`Variant.exists_rest`): whoever is to move next, the
system comes to rest.

Where the number is a sum over processes, `sum_move` says what the move of one of them does to it.
-/
import Sylar.Lib.Transition
import Mathlib.Algebra.BigOperators.Group.Finset.Basic

namespace Sylar.Lib

/-- One process moves: the others contribute what they did. -/
theorem sum_move {ι : Type*} [Fintype ι] {f g : ι → Nat} (t : ι) (h : ∀ u, u ≠ t → g u = f u) :
    (∑ u, g u) + f t = (∑ u, f u) + g t := by
  classical
  have hrest : (∑ u ∈ Finset.univ.erase t, g u) = ∑ u ∈ Finset.univ.erase t, f u :=
    Finset.sum_congr rfl fun u hu => h u (Finset.ne_of_mem_erase hu)
  have hg := Finset.add_sum_erase Finset.univ g (Finset.mem_univ t)
  have hf := Finset.add_sum_erase Finset.univ f (Finset.mem_univ t)
  omega

namespace System

variable {σ : Type*} {α : Type*}

/-- The steps that meet `C` keep `I`, and lower `μ`. -/
structure Variant (M : System σ α) (C : σ → α → Prop) (I : σ → Prop) (μ : σ → Nat) : Prop where
  keep : ∀ {s a s'}, I s → C s a → M.step s a = some s' → I s'
  lower : ∀ {s a s'}, I s → C s a → M.step s a = some s' → μ s' < μ s

/-- No step that meets `C` is left to take. -/
def AtRest (M : System σ α) (C : σ → α → Prop) (s : σ) : Prop := ∀ a, C s a → M.step s a = none

variable {M : System σ α} {C : σ → α → Prop} {I : σ → Prop} {μ : σ → Nat}

/-- **A run is bounded** by the number it starts from. -/
theorem Variant.bounded (h : M.Variant C I μ) {s s' : σ} {as : List α} (hs : I s)
    (hc : M.Along C s as) (hrun : M.exec s as = some s') : I s' ∧ as.length + μ s' ≤ μ s := by
  induction as generalizing s with
  | nil =>
      obtain rfl := Option.some.inj hrun
      exact ⟨hs, by simp⟩
  | cons a as ih =>
      obtain ⟨s₁, hstep, hrest⟩ := Option.bind_eq_some_iff.mp hrun
      obtain ⟨hs', hle⟩ := ih (h.keep hs hc.1 hstep) (hc.2 s₁ hstep) hrest
      have hlt := h.lower hs hc.1 hstep
      refine ⟨hs', ?_⟩
      rw [List.length_cons]
      omega

/-- **The system comes to rest.** -/
theorem Variant.exists_rest (h : M.Variant C I μ) {s : σ} (hs : I s) :
    ∃ as s', M.Along C s as ∧ M.exec s as = some s' ∧ M.AtRest C s' := by
  by_cases hrest : M.AtRest C s
  · exact ⟨[], s, trivial, rfl, hrest⟩
  · unfold AtRest at hrest
    push Not at hrest
    obtain ⟨a, ha, hne⟩ := hrest
    obtain ⟨s₁, hstep⟩ := Option.ne_none_iff_exists'.mp hne
    obtain ⟨as, s', hal, hrun, hend⟩ := h.exists_rest (h.keep hs ha hstep)
    refine ⟨a :: as, s', ⟨ha, fun t ht => ?_⟩, by rw [exec_cons, hstep]; exact hrun, hend⟩
    obtain rfl := Option.some.inj (hstep.symm.trans ht)
    exact hal
termination_by μ s
decreasing_by exact h.lower hs ha hstep

end System

end Sylar.Lib
