/-
# Sylar.Lib.Refine — objects that realize a specification.

A `Spec` prescribes an object's calls: which answer a call has in a state, and which state follows.  It
may say nothing about a call, which is then not to be made.  A `Machine` (`Sylar.Lib.Registry`) realizes
a specification over an abstraction function if it answers every call the specification speaks of,
answers as prescribed, and answers nothing else.

`Realizes.run_iff` carries that over to histories.  Where the specification is functional, the histories
of the machine are those of the specification, call by call and answer by answer.

A program that may come to a sudden end is a loop in `Option`; `foldlM_rel` is the induction for two of
them that go in step.
-/
import Sylar.Lib.Registry

namespace Sylar.Lib

/-- `S t o r t'`: in `t` the call `o` may answer `r`, and leads to `t'`. -/
abbrev Spec (τ ο ρ : Type*) := τ → ο → ρ → τ → Prop

variable {σ τ ο ρ : Type*}

namespace Spec

/-- A history of calls with their answers. -/
inductive Run (S : Spec τ ο ρ) : τ → List ο → List ρ → τ → Prop
  | nil {t} : Run S t [] [] t
  | cons {t t₁ t' o r os rs} : S t o r t₁ → Run S t₁ os rs t' → Run S t (o :: os) (r :: rs) t'

/-- Every call has at most one answer. -/
def Functional (S : Spec τ ο ρ) : Prop :=
  ∀ ⦃t o r r' t₁ t₂⦄, S t o r t₁ → S t o r' t₂ → r = r' ∧ t₁ = t₂

end Spec

/-- What a machine answers, as a specification. -/
def Machine.spec (M : Machine σ ο ρ) : Spec σ ο ρ := fun s o r s' => M.call s o = some (s', r)

theorem Machine.run_of_spec {M : Machine σ ο ρ} {s s' : σ} {os : List ο} {rs : List ρ}
    (h : M.spec.Run s os rs s') : M.run s os = some (s', rs) := by
  induction h with
  | nil => rfl
  | cons hcall _ ih =>
      have hcall : M.call _ _ = some (_, _) := hcall
      simp [Machine.run, hcall, ih]

/-- `M` realizes `S` in the states that meet `I`. -/
structure Realizes (M : Machine σ ο ρ) (S : Spec τ ο ρ) (I : σ → Prop) (abs : σ → τ) : Prop where
  /-- What is answered is prescribed, ... -/
  sound : ∀ {s o s' r}, I s → M.call s o = some (s', r) → I s' ∧ S (abs s) o r (abs s')
  /-- ... and what is prescribed is answered. -/
  total : ∀ {s o r t}, I s → S (abs s) o r t → (M.call s o).isSome = true

namespace Realizes

variable {M : Machine σ ο ρ} {S : Spec τ ο ρ} {I : σ → Prop} {abs : σ → τ}

/-- A history of the machine is one of the specification. -/
theorem run (h : Realizes M S I abs) {s s' : σ} {os : List ο} {rs : List ρ} (hs : I s)
    (hrun : M.run s os = some (s', rs)) : I s' ∧ S.Run (abs s) os rs (abs s') := by
  induction os generalizing s rs with
  | nil =>
      cases hrun
      exact ⟨hs, .nil⟩
  | cons o os ih =>
      cases hcall : M.call s o with
      | none => simp [Machine.run, hcall] at hrun
      | some x =>
          simp only [Machine.run, hcall, Option.map_eq_some_iff] at hrun
          obtain ⟨⟨s₁, rs₁⟩, hrest, heq⟩ := hrun
          obtain ⟨rfl, rfl⟩ := Prod.mk.inj heq
          obtain ⟨hs₁, hspec⟩ := h.sound hs hcall
          obtain ⟨hs', hspecs⟩ := ih hs₁ hrest
          exact ⟨hs', .cons hspec hspecs⟩

/-- A history of the specification is gone through by the machine. -/
theorem exists_run (h : Realizes M S I abs) (hS : S.Functional) {s : σ} {os : List ο} {rs : List ρ}
    {t : τ} (hs : I s) (hrun : S.Run (abs s) os rs t) :
    ∃ s', M.run s os = some (s', rs) ∧ abs s' = t := by
  induction os generalizing s rs with
  | nil =>
      cases hrun
      exact ⟨s, rfl, rfl⟩
  | cons o os ih =>
      cases hrun with
      | cons hspec hspecs =>
          obtain ⟨⟨s₁, r₁⟩, hcall⟩ := Option.isSome_iff_exists.mp (h.total hs hspec)
          obtain ⟨hs₁, hspec₁⟩ := h.sound hs hcall
          obtain ⟨rfl, rfl⟩ := hS hspec₁ hspec
          obtain ⟨s', hrest, rfl⟩ := ih hs₁ hspecs
          exact ⟨s', by simp [Machine.run, hcall, hrest], rfl⟩

/-- **The histories of the machine are those of the specification.** -/
theorem run_iff (h : Realizes M S I abs) (hS : S.Functional) {s : σ} (hs : I s) (os : List ο)
    (rs : List ρ) (t : τ) :
    (∃ s', M.run s os = some (s', rs) ∧ abs s' = t) ↔ S.Run (abs s) os rs t := by
  constructor
  · rintro ⟨s', hrun, rfl⟩
    exact (h.run hs hrun).2
  · exact h.exists_run hS hs

end Realizes

/-! ## Loops that may break off -/

section Loop

variable {α β : Type*}

/-- Two loops over one list go in step: they break off together, or end in related states. -/
theorem foldlM_rel {R : σ → τ → Prop} {f : σ → α → Option σ} {g : τ → α → Option τ} {xs : List α}
    (hstep : ∀ a ∈ xs, ∀ s t, R s t → Option.Rel R (f s a) (g t a)) {s : σ} {t : τ} (h : R s t) :
    Option.Rel R (xs.foldlM f s) (xs.foldlM g t) := by
  induction xs generalizing s t with
  | nil => exact .some h
  | cons a xs ih =>
      rw [List.foldlM_cons, List.foldlM_cons]
      have hround := hstep a List.mem_cons_self s t h
      generalize f s a = x at hround ⊢
      generalize g t a = y at hround ⊢
      cases hround with
      | none => exact .none
      | some h' => exact ih (fun b hb => hstep b (List.mem_cons_of_mem a hb)) h'

theorem rel_mono {R R' : σ → τ → Prop} (hR : ∀ s t, R s t → R' s t) {x : Option σ} {y : Option τ}
    (h : Option.Rel R x y) : Option.Rel R' x y := by
  cases h with
  | none => exact .none
  | some h => exact .some (hR _ _ h)

/-- A loop over lists, each of which is a loop. -/
theorem foldlM_flatMap (f : α → List β) (g : τ → β → Option τ) (xs : List α) (t : τ) :
    (xs.flatMap f).foldlM g t = xs.foldlM (fun t a => (f a).foldlM g t) t := by
  induction xs generalizing t with
  | nil => rfl
  | cons a xs ih =>
      rw [List.flatMap_cons, List.foldlM_append, List.foldlM_cons]
      exact congrArg _ (funext ih)

end Loop

end Sylar.Lib
