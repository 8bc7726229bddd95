/-
# Sylar.Lib.Transition — guarded transition systems and what holds along their runs.

A system is a predicate on start states and a guarded, executable step function: `step s a` is
`some s'` when action `a` is enabled in `s`, and `none` otherwise.  Every choice the outside world
makes (which thread moves, what a system call answers) is part of the action, so one definition
serves the proofs and the replay of a concrete schedule.

A run may be restricted by a *step condition* `C s a`, read before the step is taken.
`ReachableWhen C` are the states of the runs all of whose steps meet `C`; `Reachable` is the
unrestricted case.  The rules below are the induction principles every invariant of a system goes
through, and the bridge from a replayed action list to reachability.
-/
import Mathlib.Data.List.Induction

namespace Sylar.Lib

universe u v

/-- A transition system over states `σ` and actions `α`. -/
structure System (σ : Type u) (α : Type v) where
  init : σ → Prop
  step : σ → α → Option σ

/-- The step to `s`, if its guard holds. -/
def guarded {σ : Type u} (p : Prop) [Decidable p] (s : σ) : Option σ := if p then some s else none

@[simp] theorem guarded_eq_some {σ : Type u} {p : Prop} [Decidable p] {s s' : σ} :
    guarded p s = some s' ↔ p ∧ s = s' := by
  unfold guarded
  split
  · rename_i hp
    simp [hp]
  · rename_i hp
    simp [hp]

namespace System

variable {σ : Type u} {α : Type v} (M : System σ α)

/-! ## Reachability under a step condition -/

/-- The states of runs all of whose steps meet `C` in the state they are taken from. -/
inductive ReachableWhen (C : σ → α → Prop) : σ → Prop
  | init {s : σ} : M.init s → ReachableWhen C s
  | step {s s' : σ} {a : α} :
      ReachableWhen C s → C s a → M.step s a = some s' → ReachableWhen C s'

/-- The states of all runs. -/
def Reachable : σ → Prop := M.ReachableWhen (fun _ _ => True)

variable {M} {C D : σ → α → Prop}

/-- A run that meets a condition meets every weaker one. -/
theorem ReachableWhen.mono (h : ∀ s a, C s a → D s a) {s : σ} (hs : M.ReachableWhen C s) :
    M.ReachableWhen D s := by
  induction hs with
  | init h0 => exact .init h0
  | step _ hc hstep ih => exact .step ih (h _ _ hc) hstep

theorem ReachableWhen.reachable {s : σ} (hs : M.ReachableWhen C s) : M.Reachable s :=
  hs.mono fun _ _ _ => trivial

/-- **The invariant rule.** A predicate that holds at the start and survives every admitted step
holds in every state of every admitted run. -/
theorem ReachableWhen.invariant {P : σ → Prop} (h0 : ∀ s, M.init s → P s)
    (hstep : ∀ s a s', P s → C s a → M.step s a = some s' → P s')
    {s : σ} (hs : M.ReachableWhen C s) : P s := by
  induction hs with
  | init h => exact h0 _ h
  | step _ hc hst ih => exact hstep _ _ _ ih hc hst

/-- The invariant rule relative to an invariant `Q` that is already known. -/
theorem ReachableWhen.invariant_of {P Q : σ → Prop} (hQ : ∀ s, M.ReachableWhen C s → Q s)
    (h0 : ∀ s, M.init s → P s)
    (hstep : ∀ s a s', Q s → P s → C s a → M.step s a = some s' → P s')
    {s : σ} (hs : M.ReachableWhen C s) : P s := by
  induction hs with
  | init h => exact h0 _ h
  | step hr hc hst ih => exact hstep _ _ _ (hQ _ hr) ih hc hst

/-- The invariant rule for unrestricted runs. -/
theorem Reachable.invariant {P : σ → Prop} (h0 : ∀ s, M.init s → P s)
    (hstep : ∀ s a s', P s → M.step s a = some s' → P s') {s : σ} (hs : M.Reachable s) : P s :=
  ReachableWhen.invariant h0 (fun s a s' hp _ => hstep s a s' hp) hs

/-! ## Replaying an action list -/

variable (M)

/-- Replay `as` from `s`; `none` if an action on the way is not enabled. -/
def exec : σ → List α → Option σ
  | s, [] => some s
  | s, a :: as => (M.step s a).bind fun s' => exec s' as

/-- The actions of a replay each meet `C` in the state they are taken from. -/
def Along (C : σ → α → Prop) : σ → List α → Prop
  | _, [] => True
  | s, a :: as => C s a ∧ ∀ s' ∈ M.step s a, Along C s' as

instance decidableAlong [∀ s a, Decidable (C s a)] :
    ∀ (s : σ) (as : List α), Decidable (M.Along C s as)
  | _, [] => isTrue trivial
  | s, a :: as =>
      have : ∀ s', Decidable (M.Along C s' as) := fun s' => decidableAlong s' as
      match h : M.step s a with
      | none => decidable_of_iff (C s a) (by simp [Along, h])
      | some t => decidable_of_iff (C s a ∧ M.Along C t as) (by simp [Along, h])

variable {M}

@[simp] theorem exec_nil (s : σ) : M.exec s [] = some s := rfl

@[simp] theorem exec_cons (s : σ) (a : α) (as : List α) :
    M.exec s (a :: as) = (M.step s a).bind fun s' => M.exec s' as := rfl

/-- A replay of `as ++ bs` is a replay of `as` followed by one of `bs`. -/
theorem exec_append_eq_some {s s' : σ} {as bs : List α} :
    M.exec s (as ++ bs) = some s' ↔ ∃ t, M.exec s as = some t ∧ M.exec t bs = some s' := by
  induction as generalizing s with
  | nil => simp
  | cons a as ih =>
      rw [List.cons_append, exec_cons, exec_cons]
      cases h : M.step s a with
      | none => simp
      | some t => exact ih

/-- A conditioned replay stays inside the conditioned runs. -/
theorem ReachableWhen.exec {s s' : σ} (hs : M.ReachableWhen C s) :
    ∀ {l : List α}, M.Along C s l → M.exec s l = some s' → M.ReachableWhen C s' := by
  intro l
  induction l generalizing s with
  | nil =>
      intro _ h
      exact (Option.some.inj h) ▸ hs
  | cons a l ih =>
      intro hc h
      obtain ⟨t, ht, hrest⟩ := Option.bind_eq_some_iff.mp h
      exact ih (.step hs hc.1 ht) (hc.2 t ht) hrest

/-- Every replay meets the trivial condition. -/
theorem along_true (s : σ) (as : List α) : M.Along (fun _ _ => True) s as := by
  induction as generalizing s with
  | nil => trivial
  | cons a as ih => exact ⟨trivial, fun s' _ => ih s'⟩

/-- A replay in two parts meets the condition in both. -/
theorem along_append {s : σ} {as bs : List α} (h : M.Along C s (as ++ bs)) :
    M.Along C s as ∧ ∀ s', M.exec s as = some s' → M.Along C s' bs := by
  induction as generalizing s with
  | nil => exact ⟨trivial, fun s' hs => Option.some.inj hs ▸ h⟩
  | cons a as ih =>
      refine ⟨⟨h.1, fun t ht => (ih (h.2 t ht)).1⟩, fun s' hs => ?_⟩
      obtain ⟨t, ht, hrest⟩ := Option.bind_eq_some_iff.mp hs
      exact (ih (h.2 t ht)).2 s' hrest

/-- A replay that does not meet the condition has a first action that violates it. -/
theorem exists_violation {as : List α} {s s' : σ} (h : M.exec s as = some s')
    (hc : ¬ M.Along C s as) :
    ∃ bs a cs t t', as = bs ++ a :: cs ∧ M.exec s bs = some t ∧ M.step t a = some t' ∧
      ¬ C t a := by
  induction as generalizing s with
  | nil => exact absurd trivial hc
  | cons a as ih =>
      obtain ⟨t, ht, hrest⟩ := Option.bind_eq_some_iff.mp h
      by_cases ha : C s a
      · have hc' : ¬ M.Along C t as := fun hal => hc ⟨ha, fun u hu => by
          obtain rfl : t = u := Option.some.inj (ht.symm.trans hu)
          exact hal⟩
        obtain ⟨bs, b, cs, u, u', rfl, hbs, hstep, hb⟩ := ih hrest hc'
        exact ⟨a :: bs, b, cs, u, u', rfl, by simp [ht, hbs], hstep, hb⟩
      · exact ⟨[], a, as, s, t, rfl, rfl, ht, ha⟩

/-- **The history rule.** What holds of the empty history and survives every admitted step, together
with the state it leads to, holds of every admitted history. -/
theorem history {P : List α → σ → Prop} {s₀ : σ} (h0 : P [] s₀)
    (hstep : ∀ as s a s', M.exec s₀ as = some s → P as s → C s a → M.step s a = some s' →
      P (as ++ [a]) s')
    {as : List α} {s : σ} (hc : M.Along C s₀ as) (h : M.exec s₀ as = some s) : P as s := by
  induction as using List.reverseRecOn generalizing s with
  | nil =>
      obtain rfl := Option.some.inj h
      exact h0
  | append_singleton as a ih =>
      obtain ⟨t, ht, hlast⟩ := exec_append_eq_some.mp h
      obtain ⟨hpre, hpost⟩ := along_append hc
      obtain ⟨s', hs', hend⟩ := Option.bind_eq_some_iff.mp hlast
      obtain rfl := Option.some.inj hend
      exact hstep as t a s' ht (ih hpre ht) (hpost t ht).1 hs'

/-- **The cause rule.** What does not hold at the start, and comes to hold by steps of the kind `X`
only, has such a step behind it. -/
theorem exists_cause {G : σ → Prop} {X : σ → α → Prop} {s₀ : σ} (h0 : ¬ G s₀)
    (hstep : ∀ bs s a s', M.exec s₀ bs = some s → C s a → M.step s a = some s' → G s' →
      G s ∨ X s a)
    {as : List α} {s : σ} (hc : M.Along C s₀ as) (h : M.exec s₀ as = some s) (hg : G s) :
    ∃ bs a cs s₁, as = bs ++ a :: cs ∧ M.exec s₀ bs = some s₁ ∧ X s₁ a := by
  have hall : G s → ∃ bs a cs s₁, as = bs ++ a :: cs ∧ M.exec s₀ bs = some s₁ ∧ X s₁ a := by
    refine history (P := fun as s =>
      G s → ∃ bs a cs s₁, as = bs ++ a :: cs ∧ M.exec s₀ bs = some s₁ ∧ X s₁ a) ?_ ?_ hc h
    · exact fun hg₀ => absurd hg₀ h0
    · intro bs s₁ a s₂ hbs ih hca hst hg₂
      rcases hstep bs s₁ a s₂ hbs hca hst hg₂ with hg₁ | hx
      · -- the cause lies further back
        obtain ⟨bs', b, cs, t, rfl, hrest⟩ := ih hg₁
        exact ⟨bs', b, cs ++ [a], t, by simp, hrest⟩
      · exact ⟨bs, a, [], s₁, rfl, hbs, hx⟩
  exact hall hg

/-- **The exact rule.** Where a step from a good state leads to a good state exactly under `C`, a
replay from a good state passes through good states only, iff it meets `C` throughout.  `I` is what may
be used of the good states besides, and need not survive a step to a bad one. -/
theorem throughout_iff {I P : σ → Prop}
    (hI : ∀ s a s', I s → P s → C s a → M.step s a = some s' → I s')
    (hP : ∀ s a s', I s → P s → M.step s a = some s' → (P s' ↔ C s a)) {as : List α} {s t : σ}
    (hi : I s) (hp : P s) (h : M.exec s as = some t) :
    (∀ bs u, bs <+: as → M.exec s bs = some u → P u) ↔ M.Along C s as := by
  induction as generalizing s with
  | nil =>
      refine iff_of_true (fun bs u hbs hu => ?_) trivial
      obtain rfl := List.prefix_nil.mp hbs
      exact Option.some.inj hu ▸ hp
  | cons a as ih =>
      obtain ⟨s₁, hs₁, hrest⟩ := Option.bind_eq_some_iff.mp h
      have hstep := hP s a s₁ hi hp hs₁
      have htail := fun hp₁ => ih (hI s a s₁ hi hp (hstep.mp hp₁) hs₁) hp₁ hrest
      constructor
      · intro hall
        have hp₁ : P s₁ := hall [a] s₁ (by simp) (by simp [hs₁])
        refine ⟨hstep.mp hp₁, fun s' hs' => ?_⟩
        obtain rfl := Option.some.inj (hs₁.symm.trans hs')
        refine (htail hp₁).mp fun bs u hbs hu => hall (a :: bs) u ?_ ?_
        · exact List.cons_prefix_cons.mpr ⟨rfl, hbs⟩
        · rw [exec_cons, hs₁]
          exact hu
      · rintro ⟨hc, hal⟩ bs u hbs hu
        cases bs with
        | nil => exact Option.some.inj hu ▸ hp
        | cons b bs =>
            obtain ⟨rfl, hbs'⟩ := List.cons_prefix_cons.mp hbs
            rw [exec_cons, hs₁] at hu
            exact (htail (hstep.mpr hc)).mpr (hal s₁ hs₁) bs u hbs' hu

/-- The end of a replay from a start state is reachable. -/
theorem reachable_of_exec {s s' : σ} {l : List α} (h0 : M.init s)
    (h : M.exec s l = some s') : M.Reachable s' :=
  ReachableWhen.exec (.init h0) (along_true s l) h

end System

end Sylar.Lib
