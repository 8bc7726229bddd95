/-
# Sylar.Lib.Registry — call/return objects, and the get-or-create registry.

`Machine` is an object whose methods either fault (`none`) or return a new state and a result.
`Machine.agree_iff` is the refinement rule for a pair of machines: if the calls that meet a
condition `ok` are simulated and every other call faults, then the two machines agree on a history
exactly when every call of it meets `ok`.

`Registry` is the abstract object that hands out one handle per key: `get` looks a key up, and with
`create` set makes a fresh handle where there is none; `del` forgets the key.  Keys outside `valid`
are never present and both methods ignore them.  Its three laws (a call on one key leaves the
others alone; a handle stays until its `del`; a plain `get` answers null exactly on an absent key)
are what "a partial map from keys to handles" means for a user of the object.
-/
import Mathlib.Logic.Function.Basic

namespace Sylar.Lib

/-! ## Call/return objects -/

/-- Methods `ο` with results `ρ` over states `σ`; `none` is a fault. -/
structure Machine (σ ο ρ : Type*) where
  call : σ → ο → Option (σ × ρ)

namespace Machine

variable {σ τ ο ρ : Type*}

/-- A history of calls, with the results in call order. -/
def run (M : Machine σ ο ρ) : σ → List ο → Option (σ × List ρ)
  | s, [] => some (s, [])
  | s, o :: os =>
      match M.call s o with
      | none => none
      | some (s', r) => (M.run s' os).map fun p => (p.1, r :: p.2)

/-- `M` and `A` run the whole history without a fault, with the same results, into states related
by `R`. -/
def Agree (M : Machine σ ο ρ) (A : Machine τ ο ρ) (R : σ → τ → Prop) (s : σ) (t : τ)
    (os : List ο) : Prop :=
  ∃ s' t' rs, M.run s os = some (s', rs) ∧ A.run t os = some (t', rs) ∧ R s' t'

variable {M : Machine σ ο ρ} {A : Machine τ ο ρ} {R : σ → τ → Prop} {ok : ο → Prop}

theorem agree_nil {s : σ} {t : τ} (h : R s t) : M.Agree A R s t [] := ⟨s, t, [], rfl, rfl, h⟩

/-- One simulated call in front of an agreeing history. -/
theorem agree_cons {s s₁ : σ} {t t₁ : τ} {o : ο} {r : ρ} {os : List ο}
    (hM : M.call s o = some (s₁, r)) (hA : A.call t o = some (t₁, r)) :
    M.Agree A R s t (o :: os) ↔ M.Agree A R s₁ t₁ os := by
  constructor
  · rintro ⟨s', t', rs, hs, ht, hR⟩
    simp only [run, hM, hA, Option.map_eq_some_iff] at hs ht
    obtain ⟨⟨s'', rs'⟩, hs, heq⟩ := hs
    obtain ⟨⟨t'', rs''⟩, ht, heq'⟩ := ht
    simp only [Prod.mk.injEq] at heq heq'
    obtain ⟨rfl, rfl⟩ := heq
    obtain ⟨rfl, hrs⟩ := heq'
    have hrs : rs'' = rs' := (List.cons.inj hrs).2
    exact ⟨s'', t'', rs', hs, hrs ▸ ht, hR⟩
  · rintro ⟨s', t', rs, hs, ht, hR⟩
    exact ⟨s', t', r :: rs, by simp [run, hM, hs], by simp [run, hA, ht], hR⟩

/-- **The refinement rule.** The machines agree on a history iff every call of it is `ok`. -/
theorem agree_iff
    (hsim : ∀ s t o, R s t → ok o →
      ∃ s' t' r, M.call s o = some (s', r) ∧ A.call t o = some (t', r) ∧ R s' t')
    (hfault : ∀ s t o, R s t → ¬ ok o → M.call s o = none)
    {s : σ} {t : τ} (h : R s t) (os : List ο) :
    M.Agree A R s t os ↔ ∀ o ∈ os, ok o := by
  induction os generalizing s t with
  | nil => exact ⟨fun _ o ho => absurd ho (by simp), fun _ => agree_nil h⟩
  | cons o os ih =>
      by_cases hok : ok o
      · obtain ⟨s', t', r, hs, ht, hR⟩ := hsim s t o h hok
        rw [agree_cons hs ht, ih hR, List.forall_mem_cons]
        exact ⟨fun h => ⟨hok, h⟩, And.right⟩
      · constructor
        · rintro ⟨s', t', rs, hs, -, -⟩
          simp [run, hfault s t o h hok] at hs
        · exact fun hall => absurd (hall o (by simp)) hok

end Machine

/-! ## The get-or-create registry -/

/-- The calls of a registry over keys `K`. -/
inductive RegistryCall (K : Type*)
  | get (k : K) (create : Bool)
  | del (k : K)
  deriving DecidableEq, Repr

/-- The key a call is about. -/
def RegistryCall.key {K : Type*} : RegistryCall K → K
  | .get k _ => k
  | .del k => k

/-- A partial map from keys to handles, and the supply of fresh handles. -/
structure Registry (K : Type*) where
  entry : K → Option Nat
  fresh : Nat

namespace Registry

variable {K : Type*} [DecidableEq K]

/-- The empty registry. -/
def empty : Registry K := ⟨fun _ => none, 0⟩

/-- One call: the new registry and the handle answered (`none` is null). -/
def call (valid : K → Bool) (m : Registry K) : RegistryCall K → Registry K × Option Nat
  | .get k create =>
      match m.entry k with
      | some p => (m, some p)
      | none =>
          if create && valid k then
            (⟨Function.update m.entry k (some m.fresh), m.fresh + 1⟩, some m.fresh)
          else (m, none)
  | .del k => (if valid k then ⟨Function.update m.entry k none, m.fresh⟩ else m, none)

/-- The registry as an object; its methods never fault. -/
def machine (valid : K → Bool) : Machine (Registry K) (RegistryCall K) (Option Nat) :=
  ⟨fun m o => some (m.call valid o)⟩

variable {valid : K → Bool} {m : Registry K}

/-- A call on one key leaves what is held for every other key as it was. -/
theorem call_frame {o : RegistryCall K} {k : K} (h : k ≠ o.key) :
    (m.call valid o).1.entry k = m.entry k := by
  cases o with
  | get k' create =>
      simp only [RegistryCall.key] at h
      cases hm : m.entry k' with
      | some p => simp only [call, hm]
      | none =>
          simp only [call, hm]
          split
          · exact Function.update_of_ne h _ _
          · rfl
  | del k' =>
      simp only [RegistryCall.key] at h
      simp only [call]
      split
      · exact Function.update_of_ne h _ _
      · rfl

/-- What `get` answers is what it leaves in the map: a later `get` answers the same handle. -/
theorem call_get_entry {k : K} {create : Bool} :
    (m.call valid (.get k create)).1.entry k = (m.call valid (.get k create)).2 := by
  cases h : m.entry k with
  | some p => simp only [call, h]
  | none =>
      simp only [call, h]
      split
      · exact Function.update_self k (some m.fresh) m.entry
      · exact h

/-- A creating `get` on a valid key always answers a handle. -/
theorem call_create_isSome {k : K} (hk : valid k = true) :
    (m.call valid (.get k true)).2.isSome = true := by
  simp only [call]
  cases m.entry k with
  | some p => rfl
  | none => simp [hk]

/-- A plain `get` answers null exactly on an absent key. -/
theorem call_get_none {k : K} : (m.call valid (.get k false)).2 = none ↔ m.entry k = none := by
  simp only [call]
  cases m.entry k <;> simp

/-- A handle stays with its key through every history without a `del` of that key. -/
theorem entry_persists {k : K} {p : Nat} (h : m.entry k = some p) {os : List (RegistryCall K)}
    (hdel : RegistryCall.del k ∉ os) {m' : Registry K} {rs : List (Option Nat)}
    (hrun : (machine valid).run m os = some (m', rs)) : m'.entry k = some p := by
  induction os generalizing m rs with
  | nil =>
      simp only [Machine.run, Option.some.injEq, Prod.mk.injEq] at hrun
      exact hrun.1 ▸ h
  | cons o os ih =>
      simp only [Machine.run, machine, Option.map_eq_some_iff] at hrun
      obtain ⟨⟨m'', rs'⟩, hrun, heq⟩ := hrun
      obtain ⟨rfl, -⟩ := Prod.mk.inj heq
      refine ih ?_ (fun hmem => hdel (List.mem_cons_of_mem _ hmem)) hrun
      by_cases hk : k = o.key
      · cases o with
        | get k' create =>
            obtain rfl : k = k' := hk
            rw [call_get_entry]
            simp only [call, h]
        | del k' =>
            obtain rfl : k = k' := hk
            exact absurd (by simp) hdel
      · rw [call_frame hk, h]

end Registry

end Sylar.Lib
