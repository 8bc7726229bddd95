/-
# Sylar.Config.Setters — calls of `setValue` in several threads (`ConfigVar::setValue`).

A call compares and tells the listeners under the read lock, lets go of it, and stores under the write
lock.  The store is one step here, as nobody else gets at the variable meanwhile; the calls of the
listeners are steps of their own, since other readers may come in between.

Two calls that differ from the value there is may both tell their new values before either stores.
Where they do not (`Alone`) every listener hears of each value once and in order, and what it heard last
is the value of the variable (`tracks_of_alone`).
-/
import Sylar.Config.ConfigVar
import Sylar.Lib.Transition
import Mathlib.Logic.Function.Basic

namespace Sylar.Config

/-- Where a thread is in `setValue`. -/
inductive Phase (T : Type)
  | idle
  /-- Under the read lock, with the listeners that are still to be called. -/
  | notifying (v : T) (todo : List Nat)
  /-- Between the two locks. -/
  | leaving (v : T)
  deriving DecidableEq

/-- The keys of `m_cbs`. -/
structure Listeners where
  keys : List Nat
  nodup : keys.Nodup

/-- A variable and the threads that set it. -/
structure Setters (ι T : Type) where
  m_val : T
  /-- How many hold the read lock. -/
  readers : Nat
  phase : ι → Phase T
  /-- What each listener was told: `old_value` and `new_value`. -/
  seen : Nat → List (T × T)

/-- Steps of a thread. -/
inductive SetAct (ι T : Type)
  /-- The read lock and the comparison. -/
  | setValue (t : ι) (v : T)
  | call (t : ι)
  | unlock (t : ι)
  | store (t : ι)

namespace Setters

variable {ι T : Type} [DecidableEq ι]

def goto (t : ι) (p : Phase T) (s : Setters ι T) : Setters ι T :=
  { s with phase := Function.update s.phase t p }

@[simp] theorem goto_m_val (t : ι) (p : Phase T) (s : Setters ι T) : (s.goto t p).m_val = s.m_val := rfl

@[simp] theorem goto_seen (t : ι) (p : Phase T) (s : Setters ι T) : (s.goto t p).seen = s.seen := rfl

@[simp] theorem goto_phase_self (t : ι) (p : Phase T) (s : Setters ι T) :
    (s.goto t p).phase t = p := Function.update_self ..

theorem goto_phase_ne {t u : ι} (h : u ≠ t) (p : Phase T) (s : Setters ι T) :
    (s.goto t p).phase u = s.phase u := Function.update_of_ne h ..

/-- One step. -/
def step (eq : T → T → Bool) (cbs : Listeners) (s : Setters ι T) : SetAct ι T → Option (Setters ι T)
  | .setValue t v =>
      match s.phase t with
      | .idle =>
          -- nobody stores between two steps, so the read lock is there to be had
          if eq v s.m_val then some s
          else some ({ s with readers := s.readers + 1 }.goto t (.notifying v cbs.keys))
      | _ => none
  | .call t =>
      match s.phase t with
      | .notifying v (k :: todo) =>
          some ({ s with seen := Function.update s.seen k (s.seen k ++ [(s.m_val, v)]) }.goto t
            (.notifying v todo))
      | _ => none
  | .unlock t =>
      match s.phase t with
      | .notifying v [] => some ({ s with readers := s.readers - 1 }.goto t (.leaving v))
      | _ => none
  | .store t =>
      match s.phase t with
      | .leaving v => if s.readers = 0 then some ({ s with m_val := v }.goto t .idle) else none
      | _ => none

/-- The runs of any number of threads over a variable that begins with `v₀`. -/
def system (eq : T → T → Bool) (cbs : Listeners) (v₀ : T) : Lib.System (Setters ι T) (SetAct ι T) where
  init s := s.m_val = v₀ ∧ s.readers = 0 ∧ (∀ t, s.phase t = .idle) ∧ ∀ k, s.seen k = []
  step := step eq cbs

/-- No call is in progress. -/
def Quiet (s : Setters ι T) : Prop := ∀ t, s.phase t = .idle

end Setters

/-! ## What a listener was told -/

section Told

variable {T : Type} {v₀ : T}

/-- Each `old_value` is the `new_value` before it, and the first is `v₀`. -/
def Chained : T → List (T × T) → Prop
  | _, [] => True
  | v₀, (old_value, new_value) :: told => old_value = v₀ ∧ Chained new_value told

/-- The last `new_value`, or `v₀`. -/
def lastTold : T → List (T × T) → T
  | v₀, [] => v₀
  | _, (_, new_value) :: told => lastTold new_value told

@[simp] theorem lastTold_append (told : List (T × T)) (old_value new_value : T) :
    lastTold v₀ (told ++ [(old_value, new_value)]) = new_value := by
  induction told generalizing v₀ with
  | nil => rfl
  | cons x told ih => exact ih

/-- The chain goes on from what was told last. -/
theorem chained_append {told : List (T × T)} {old_value new_value : T} :
    Chained v₀ (told ++ [(old_value, new_value)]) ↔
      Chained v₀ told ∧ old_value = lastTold v₀ told := by
  induction told generalizing v₀ with
  | nil => simp [Chained, lastTold]
  | cons x told ih =>
      rw [List.cons_append, Chained, Chained, lastTold, ih, and_assoc]

end Told

namespace Setters

variable {ι T : Type} [DecidableEq ι] {eq : T → T → Bool} {cbs : Listeners} {v₀ : T}
  {s s' : Setters ι T}

/-- What the listeners are for: each has heard of every change in order, and knows the value when no
call is in progress. -/
structure Tracks (cbs : Listeners) (v₀ : T) (s : Setters ι T) : Prop where
  chained : ∀ k ∈ cbs.keys, Chained v₀ (s.seen k)
  current : s.Quiet → ∀ k ∈ cbs.keys, lastTold v₀ (s.seen k) = s.m_val

/-- A call that finds another value begins when no call is in progress. -/
def Alone (eq : T → T → Bool) (s : Setters ι T) : SetAct ι T → Prop
  | .setValue _ v => eq v s.m_val = true ∨ s.Quiet
  | .call _ | .unlock _ | .store _ => True

/-- One call is in progress; `todo` has yet to hear of its value. -/
structure Busy (cbs : Listeners) (v₀ : T) (t : ι) (v : T) (todo : List Nat) (s : Setters ι T) :
    Prop where
  others : ∀ u, u ≠ t → s.phase u = .idle
  nodup : todo.Nodup
  told : ∀ k ∈ cbs.keys, k ∉ todo → lastTold v₀ (s.seen k) = v
  untold : ∀ k ∈ todo, lastTold v₀ (s.seen k) = s.m_val

/-- How far the call of `t` is. -/
inductive Progress (cbs : Listeners) (v₀ : T) (s : Setters ι T) : Prop
  | quiet (hidle : s.Quiet) (current : ∀ k ∈ cbs.keys, lastTold v₀ (s.seen k) = s.m_val)
  | notifying {t : ι} {v : T} {todo : List Nat} (hphase : s.phase t = .notifying v todo)
      (busy : s.Busy cbs v₀ t v todo)
  | leaving {t : ι} {v : T} (hphase : s.phase t = .leaving v) (busy : s.Busy cbs v₀ t v [])

/-- The invariant of the runs in which calls are alone. -/
structure Inv (cbs : Listeners) (v₀ : T) (s : Setters ι T) : Prop where
  chained : ∀ k ∈ cbs.keys, Chained v₀ (s.seen k)
  progress : s.Progress cbs v₀

omit [DecidableEq ι] in
theorem Inv.tracks (h : s.Inv cbs v₀) : s.Tracks cbs v₀ := by
  refine ⟨h.chained, ?_⟩
  intro hquiet
  cases h.progress with
  | quiet _ current => exact current
  | notifying hphase _ =>
      rw [hquiet] at hphase
      cases hphase
  | leaving hphase _ =>
      rw [hquiet] at hphase
      cases hphase

omit [DecidableEq ι] in
/-- The thread that is at work is the one whose call is in progress. -/
theorem Busy.eq_of_phase {t u : ι} {v : T} {todo : List Nat} (h : s.Busy cbs v₀ t v todo)
    (hu : s.phase u ≠ .idle) : u = t := by
  by_contra hne
  exact hu (h.others u hne)

omit [DecidableEq ι] in
/-- There is one call in progress, so a thread that tells is the one that tells. -/
theorem Inv.busy_of_notifying {t : ι} {v : T} {todo : List Nat} (h : s.Inv cbs v₀)
    (ht : s.phase t = .notifying v todo) : s.Busy cbs v₀ t v todo := by
  have hne : s.phase t ≠ .idle := by
    rw [ht]
    nofun
  cases h.progress with
  | quiet hidle _ => exact absurd (hidle t) hne
  | notifying hphase busy =>
      obtain rfl := busy.eq_of_phase hne
      rw [ht] at hphase
      cases hphase
      exact busy
  | leaving hphase busy =>
      obtain rfl := busy.eq_of_phase hne
      rw [ht] at hphase
      cases hphase

omit [DecidableEq ι] in
theorem Inv.busy_of_leaving {t : ι} {v : T} (h : s.Inv cbs v₀) (ht : s.phase t = .leaving v) :
    s.Busy cbs v₀ t v [] := by
  have hne : s.phase t ≠ .idle := by
    rw [ht]
    nofun
  cases h.progress with
  | quiet hidle _ => exact absurd (hidle t) hne
  | notifying hphase busy =>
      obtain rfl := busy.eq_of_phase hne
      rw [ht] at hphase
      cases hphase
  | leaving hphase busy =>
      obtain rfl := busy.eq_of_phase hne
      rw [ht] at hphase
      cases hphase
      exact busy

/-- A call that finds another value begins. -/
theorem Inv.begin (h : s.Inv cbs v₀) (hquiet : s.Quiet) (t : ι) (v : T) :
    ({ s with readers := s.readers + 1 }.goto t (.notifying v cbs.keys)).Inv cbs v₀ := by
  refine ⟨h.chained, .notifying (goto_phase_self ..) ⟨?_, cbs.nodup, ?_, ?_⟩⟩
  · intro u hu
    rw [goto_phase_ne hu]
    exact hquiet u
  · intro k hk hnot
    exact absurd hk hnot
  · exact (h.tracks).current hquiet

/-- It tells one listener more. -/
theorem Inv.call {t : ι} {v : T} {k : Nat} {todo : List Nat} (h : s.Inv cbs v₀)
    (ht : s.phase t = .notifying v (k :: todo)) :
    ({ s with seen := Function.update s.seen k (s.seen k ++ [(s.m_val, v)]) }.goto t
      (.notifying v todo)).Inv cbs v₀ := by
  have busy := h.busy_of_notifying ht
  obtain ⟨hk, hnodup⟩ := List.nodup_cons.mp busy.nodup
  -- it was told last what is still stored, and hears of that as the old value
  have hlast : lastTold v₀ (s.seen k) = s.m_val := busy.untold k List.mem_cons_self
  refine ⟨?_, .notifying (goto_phase_self ..) ⟨?_, hnodup, ?_, ?_⟩⟩
  · intro j hj
    by_cases hjk : j = k
    · subst hjk
      simpa [chained_append, hlast] using h.chained j hj
    · simpa [hjk] using h.chained j hj
  · intro u hu
    rw [goto_phase_ne hu]
    exact busy.others u hu
  · intro j hj hnot
    by_cases hjk : j = k
    · subst hjk
      simp
    · simpa [hjk] using busy.told j hj (by simp [hjk, hnot])
  · intro j hj
    have hjk : j ≠ k := fun he => hk (he ▸ hj)
    simpa [hjk] using busy.untold j (List.mem_cons_of_mem k hj)

/-- It has told everyone. -/
theorem Inv.unlock {t : ι} {v : T} (h : s.Inv cbs v₀) (ht : s.phase t = .notifying v []) :
    ({ s with readers := s.readers - 1 }.goto t (.leaving v)).Inv cbs v₀ := by
  have busy := h.busy_of_notifying ht
  refine ⟨h.chained, .leaving (goto_phase_self ..) ⟨?_, busy.nodup, busy.told, busy.untold⟩⟩
  intro u hu
  rw [goto_phase_ne hu]
  exact busy.others u hu

/-- It stores what it told. -/
theorem Inv.store {t : ι} {v : T} (h : s.Inv cbs v₀) (ht : s.phase t = .leaving v) :
    ({ s with m_val := v }.goto t .idle).Inv cbs v₀ := by
  have busy := h.busy_of_leaving ht
  refine ⟨h.chained, .quiet ?_ ?_⟩
  · intro u
    by_cases hu : u = t
    · rw [hu, goto_phase_self]
    · rw [goto_phase_ne hu]
      exact busy.others u hu
  · intro k hk
    exact busy.told k hk List.not_mem_nil

/-- **One step keeps the invariant**, if a call that differs begins alone. -/
theorem Inv.step {a : SetAct ι T} (h : s.Inv cbs v₀) (hc : s.Alone eq a)
    (hstep : s.step eq cbs a = some s') : s'.Inv cbs v₀ := by
  cases a with
  | setValue t v =>
      simp only [Setters.step] at hstep
      split at hstep
      · split at hstep
        · exact Option.some.inj hstep ▸ h
        · rename_i hne
          exact Option.some.inj hstep ▸ h.begin (hc.resolve_left hne) t v
      · cases hstep
  | call t =>
      simp only [Setters.step] at hstep
      split at hstep
      · rename_i ht
        exact Option.some.inj hstep ▸ h.call ht
      · cases hstep
  | unlock t =>
      simp only [Setters.step] at hstep
      split at hstep
      · rename_i ht
        exact Option.some.inj hstep ▸ h.unlock ht
      · cases hstep
  | store t =>
      simp only [Setters.step] at hstep
      split at hstep
      · rename_i ht
        split at hstep
        · exact Option.some.inj hstep ▸ h.store ht
        · cases hstep
      · cases hstep

omit [DecidableEq ι] in
theorem Inv.start (hval : s.m_val = v₀) (hidle : s.Quiet) (hseen : ∀ k, s.seen k = []) :
    s.Inv cbs v₀ := by
  constructor
  · intro k _
    rw [hseen k]
    trivial
  · refine .quiet hidle ?_
    intro k _
    rw [hseen k, hval]
    rfl

/-- **Listeners track the variable** in every run in which a call that finds another value begins when
no call is in progress. -/
theorem tracks_of_alone (h : (system eq cbs v₀).ReachableWhen (Alone eq) s) : s.Tracks cbs v₀ := by
  have hinv : s.Inv cbs v₀ := by
    refine h.invariant ?_ ?_
    · rintro s ⟨hval, _, hidle, hseen⟩
      exact .start hval hidle hseen
    · intro s a s' hinv hc hstep
      exact hinv.step hc hstep
  exact hinv.tracks

/-! ## One thread alone -/

/-- The state of the threads and a variable without them. -/
structure Matches {S : Type} (var : ConfigVar T S) (s : Setters ι T) : Prop where
  m_val : s.m_val = var.m_val
  seen : ∀ k, s.seen k = (var.notified.filter fun c => c.1 = k).map Prod.snd

/-- The calls of the listeners, one after the other. -/
theorem exec_calls (eq : T → T → Bool) (cbs : Listeners) (v₀ : T) {t : ι} {v : T} {todo : List Nat}
    (ht : s.phase t = .notifying v todo) :
    ∃ s', (system eq cbs v₀).exec s (todo.map fun _ => .call t) = some s' ∧
      s'.phase = Function.update s.phase t (.notifying v []) ∧ s'.m_val = s.m_val ∧
      s'.readers = s.readers ∧
      ∀ k, s'.seen k = s.seen k ++ (todo.filter fun j => j = k).map fun _ => (s.m_val, v) := by
  induction todo generalizing s with
  | nil =>
      refine ⟨s, rfl, ?_, rfl, rfl, ?_⟩
      · rw [← ht, Function.update_eq_self]
      · intro k
        exact (List.append_nil _).symm
  | cons j todo ih =>
      have hround : (system eq cbs v₀).step s (.call t)
          = some ({ s with seen := Function.update s.seen j (s.seen j ++ [(s.m_val, v)]) }.goto t
            (.notifying v todo)) := by
        simp only [system, Setters.step, ht]
      obtain ⟨s', hexec, hphase, hval, hreaders, hseen⟩ := ih
        (s := { s with seen := Function.update s.seen j (s.seen j ++ [(s.m_val, v)]) }.goto t
          (.notifying v todo)) (goto_phase_self ..)
      refine ⟨s', ?_, ?_, hval, hreaders, ?_⟩
      · rw [List.map_cons, Lib.System.exec_cons, hround]
        exact hexec
      · rw [hphase]
        exact Function.update_idem ..
      · intro k
        rw [hseen k]
        by_cases hk : j = k
        · subst hk
          simp
        · have hkj : k ≠ j := fun he => hk he.symm
          simp [hk, hkj]

/-- The last reader lets go and stores. -/
theorem exec_leave (eq : T → T → Bool) (cbs : Listeners) (v₀ : T) {t : ι} {v : T}
    (ht : s.phase t = .notifying v []) (hreaders : s.readers = 1) :
    (system eq cbs v₀).exec s [.unlock t, .store t] =
      some { s with m_val := v, readers := 0, phase := Function.update s.phase t .idle } := by
  simp [system, Setters.step, goto, ht, hreaders]

/-- **A call that nobody disturbs** is `ConfigVar.setValue`, with listeners that return. -/
theorem exec_setValue {S : Type} {type : ValueType T} {var var' : ConfigVar T S} {r r' : S} {v : T}
    (hkeys : var.m_cbs.map Prod.fst = cbs.keys) (h : s.Matches var) (hquiet : s.Quiet)
    (hreaders : s.readers = 0) (hset : var.setValue type v r = .returned (var', r')) (t : ι) :
    ∃ as s', (system type.eq cbs v₀).exec s as = some s' ∧ s'.Matches var' ∧ s'.Quiet := by
  cases heq : type.eq v var.m_val with
  | true =>
      rw [ConfigVar.setValue_eq heq] at hset
      cases hset
      refine ⟨[.setValue t v], s, ?_, h, hquiet⟩
      simp [system, Setters.step, hquiet t, h.m_val, heq]
  | false =>
      obtain ⟨-, hval, hnotified⟩ := ConfigVar.setValue_returned heq hset
      have hbegin : (system type.eq cbs v₀).step s (.setValue t v)
          = some ({ s with readers := s.readers + 1 }.goto t (.notifying v cbs.keys)) := by
        simp [system, Setters.step, hquiet t, h.m_val, heq]
      obtain ⟨s₁, hexec, hphase, -, hreaders₁, hseen⟩ := exec_calls
        (s := { s with readers := s.readers + 1 }.goto t (.notifying v cbs.keys)) type.eq cbs v₀
        (goto_phase_self ..)
      have hlast : s₁.phase t = .notifying v [] := by
        rw [hphase]
        exact Function.update_self ..
      have hone : s₁.readers = 1 := by
        rw [hreaders₁, goto, hreaders]
      refine ⟨.setValue t v :: ((cbs.keys.map fun _ => .call t) ++ [.unlock t, .store t]),
        { s₁ with m_val := v, readers := 0, phase := Function.update s₁.phase t .idle },
        ?_, ⟨?_, ?_⟩, ?_⟩
      · rw [Lib.System.exec_cons, hbegin]
        exact Lib.System.exec_append_eq_some.mpr ⟨s₁, hexec, exec_leave _ _ _ hlast hone⟩
      · exact hval.symm
      · intro k
        have hcalls : ((calls var.m_cbs var.m_val v).filter fun c => c.1 = k).map Prod.snd
            = (cbs.keys.filter fun j => j = k).map fun _ => (s.m_val, v) := by
          rw [calls, ← hkeys, List.filter_map, List.filter_map, List.map_map, List.map_map, h.m_val]
          rfl
        rw [hnotified, List.filter_append, List.map_append, hcalls, ← h.seen k]
        exact hseen k
      · intro u
        by_cases hu : u = t
        · rw [hu]
          exact Function.update_self ..
        · show Function.update s₁.phase t _ u = _
          rw [Function.update_of_ne hu, hphase, Function.update_of_ne hu]
          exact (goto_phase_ne hu _ _).trans (hquiet u)

/-- Two threads over a variable that begins with 0 and has one listener. -/
def fromZero : Setters Bool Nat where
  m_val := 0
  readers := 0
  phase _ := .idle
  seen _ := []

def oneListener : Listeners := ⟨[1], by decide⟩

theorem fromZero_init : (system (fun a b : Nat => a == b) oneListener 0).init fromZero :=
  ⟨rfl, rfl, fun _ => rfl, fun _ => rfl⟩

instance (s : Setters Bool Nat) : Decidable s.Quiet :=
  decidable_of_iff (s.phase false = .idle ∧ s.phase true = .idle) (by simp [Quiet])

instance (s : Setters Bool Nat) : DecidablePred (s.Alone fun a b => a == b) := fun a => by
  cases a <;> unfold Alone <;> infer_instance

/-- One thread sets 1; the other one comes in with the value there is, and later with 2. -/
def oneByOne : List (SetAct Bool Nat) :=
  [.setValue true 1, .setValue false 0, .call true, .unlock true, .store true, .setValue false 2,
    .call false, .unlock false, .store false]

theorem tracks_oneByOne : ∃ s,
    (system (fun a b => a == b) oneListener 0).exec fromZero oneByOne = some s ∧
      s.Tracks oneListener 0 ∧ s.m_val = 2 :=
  ⟨_, rfl, tracks_of_alone (.exec (.init fromZero_init) (l := oneByOne) (by decide) rfl), rfl⟩

/-- Both tell their values before either stores, and they store the other way round. -/
def atOnce : List (SetAct Bool Nat) :=
  [.setValue true 1, .setValue false 2, .call true, .call false, .unlock true, .unlock false,
    .store false, .store true]

/-- The second value is told as one that comes after 0, and in the end the listener has heard of 2
last where the variable is 1. -/
theorem atOnce_loses_track :
    ∃ s, (system (fun a b => a == b) oneListener 0).exec fromZero atOnce = some s ∧ s.Quiet ∧
      s.seen 1 = [(0, 1), (0, 2)] ∧ s.m_val = 1 ∧ ¬ Chained 0 (s.seen 1) ∧
      lastTold 0 (s.seen 1) ≠ s.m_val := by
  refine ⟨_, rfl, ?_, rfl, rfl, ?_, ?_⟩
  · intro t
    cases t <;> rfl
  · rintro ⟨-, h, -⟩
    cases h
  · decide

end Setters

end Sylar.Config
