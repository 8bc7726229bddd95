/-
# Sylar.Fd.Publish — threads that ask for one descriptor's context at the same time
(`FdManager::get` in `sylar/fd_manager.cpp`).

`get(fd, true)` looks under the read lock, lets go of it, and creates under the write lock.  It does not
look again, so a thread that has found the slot empty replaces what another one has put there in
between.  The context is the place of the descriptor's flags and timeouts; the callers of before keep
the old one, and whatever they set is lost on the others.

All callers have the same context exactly as long as every creation finds the slot still empty
(`one_context_iff`).
-/
import Sylar.Fd.FdManager
import Sylar.Lib.Transition

namespace Sylar.Fd

open Lib (guarded)

/-- The manager, the threads in `get(fd, true)`, and what their calls have returned. -/
structure Getters (T : Type) where
  fds : FdManager
  /-- Between the two locks. -/
  creating : T → Bool
  returned : List Nat

/-- A step of a thread: the section under the read lock, the section under the write lock, and the
setting of members through a context it has. -/
inductive GetAct (T : Type)
  | look (t : T)
  | create (t : T)
  | store (p : Nat) (ctx : FdCtx)
  deriving DecidableEq, Repr

namespace Getters

variable {T : Type} [DecidableEq T]

/-- The context the manager holds. -/
def entry (s : Getters T) (fd : Int) : Option Nat := (slot s.fds.m_datas fd).join

/-- Take a step. -/
def step (fd : Int) (s : Getters T) : GetAct T → Option (Getters T)
  | .look t =>
      if s.creating t then none
      else
        match s.fds.get fd false with
        | none => none
        | some (_, some p) => some { s with returned := s.returned ++ [p] }
        | some (_, none) => some { s with creating := Function.update s.creating t true }
  | .create t =>
      if s.creating t then
        match s.fds.create fd with
        | some (fds, some p) =>
            some { fds := fds, creating := Function.update s.creating t false
                   returned := s.returned ++ [p] }
        | _ => none
      else none
  | .store p ctx =>
      guarded (p ∈ s.returned) { s with fds := { s.fds with heap := s.fds.heap.set p ctx } }

end Getters

/-- Any threads that ask for `fd`, which may have a context already; nobody calls `del(fd)`. -/
def getters (T : Type) [DecidableEq T] (fd : Int) : Lib.System (Getters T) (GetAct T) where
  init s := 0 ≤ fd ∧ fd < 64 ∧ (∃ a, Represents s.fds a) ∧ (∀ t, s.creating t = false) ∧
    s.returned = []
  step s a := s.step fd a

namespace Getters

variable {T : Type} [DecidableEq T] {fd : Int} {s s' : Getters T}

/-- **All calls have returned the context there is.** -/
def OneContext (fd : Int) (s : Getters T) : Prop := ∀ p ∈ s.returned, s.entry fd = some p

/-- A creation finds the slot as empty as the look before it. -/
def FoundEmpty (fd : Int) (s : Getters T) : GetAct T → Prop
  | .create _ => s.entry fd = none
  | .look _ | .store .. => True

instance (s : Getters T) : DecidablePred (FoundEmpty fd s) := fun a => by
  unfold FoundEmpty
  cases a with
  | create => exact inferInstanceAs (Decidable (_ = _))
  | look | store => exact isTrue trivial

/-! ## The two sections -/

/-- What a step does. -/
inductive Steps (fd : Int) (s : Getters T) : GetAct T → Getters T → Prop
  | found {t p} : s.entry fd = some p →
      Steps fd s (.look t) { s with returned := s.returned ++ [p] }
  | empty {t} : s.entry fd = none →
      Steps fd s (.look t) { s with creating := Function.update s.creating t true }
  | create {t fds} : s.creating t = true → s.fds.create fd = some (fds, some s.fds.heap.length) →
      Steps fd s (.create t)
        { fds := fds, creating := Function.update s.creating t false
          returned := s.returned ++ [s.fds.heap.length] }
  | store {p ctx} : p ∈ s.returned →
      Steps fd s (.store p ctx) { s with fds := { s.fds with heap := s.fds.heap.set p ctx } }

theorem steps {a : GetAct T} (h : s.step fd a = some s') : Steps fd s a s' := by
  cases a with
  | look t =>
      simp only [step] at h
      split at h
      · cases h
      · rw [get_plain] at h
        cases hslot : slot s.fds.m_datas fd with
        | none =>
            rw [hslot] at h
            cases h
        | some q =>
            have hentry : s.entry fd = q := by
              unfold entry
              rw [hslot]
              rfl
            rw [hslot] at h
            cases q with
            | none => exact Option.some.inj h ▸ .empty hentry
            | some p => exact Option.some.inj h ▸ .found hentry
  | create t =>
      simp only [step] at h
      split at h
      · rename_i ht
        split at h
        · rename_i fds p hcreate
          obtain ⟨i, -, hp, -⟩ := create_eq_some hcreate
          obtain rfl := Option.some.inj hp
          exact Option.some.inj h ▸ .create ht hcreate
        · cases h
      · cases h
  | store p ctx =>
      obtain ⟨hp, rfl⟩ := Lib.guarded_eq_some.mp h
      exact .store hp

/-- With nobody in between, the two sections are one call of `get(fd, true)`. -/
theorem sections_eq_get {t : T} (hidx : index s.fds.m_datas fd = some fd.toNat)
    (ht : s.creating t = false) :
    ∃ s' p, s.fds.get fd true = some (s'.fds, some p) ∧ s'.returned = s.returned ++ [p] ∧
      ((getters T fd).exec s [.look t] = some s' ∨
        (getters T fd).exec s [.look t, .create t] = some s') := by
  have hlt : ¬ (s.fds.m_datas.length : Int) ≤ fd := by
    intro hbig
    rw [index_of_big hbig] at hidx
    cases hidx
  have hslot : slot s.fds.m_datas fd = some (s.fds.m_datas[fd.toNat]?).join := by
    unfold slot
    rw [if_neg hlt, hidx]
    rfl
  cases hp : (s.fds.m_datas[fd.toNat]?).join with
  | some p =>
      refine ⟨{ s with returned := s.returned ++ [p] }, p, ?_, rfl, .inl ?_⟩
      · simp [FdManager.get, hlt, hidx, hp]
      · simp [getters, step, ht, get_plain, hslot, hp]
  | none =>
      obtain ⟨fds, hcreate⟩ : ∃ fds, s.fds.create fd = some (fds, some s.fds.heap.length) :=
        ⟨_, create_of_index hidx⟩
      refine ⟨⟨fds, Function.update (Function.update s.creating t true) t false,
        s.returned ++ [s.fds.heap.length]⟩, s.fds.heap.length, ?_, rfl, .inr ?_⟩
      · simp [FdManager.get, hlt, hidx, hp, hcreate]
      · simp [getters, step, ht, get_plain, hslot, hp, hcreate]

/-! ## Runs -/

/-- What the runs keep besides: a thread that is about to replace a context has had it returned to
somebody. -/
structure Inv (fd : Int) (s : Getters T) : Prop where
  inside : index s.fds.m_datas fd = some fd.toNat
  known : ∀ p, s.entry fd = some p → p < s.fds.heap.length
  told : ∀ t p, s.creating t = true → s.entry fd = some p → p ∈ s.returned

theorem inv_init (h : (getters T fd).init s) : s.Inv fd := by
  obtain ⟨h0, hlt, ⟨a, hrep⟩, hidle, -⟩ := h
  have hsize := hrep.size
  have hidx : index s.fds.m_datas fd = some fd.toNat := index_of_lt h0 (by omega)
  refine ⟨hidx, fun p hp => ?_, fun t p ht => ?_⟩
  · have hentry : a.entry fd = some p := by
      rw [hrep.entry_of_lt h0, ← hp]
      unfold entry slot
      rw [if_neg (by omega), hidx]
      rfl
    exact hrep.lt_fresh hentry
  · rw [hidle t] at ht
    cases ht

omit [DecidableEq T] in
/-- What a creation leaves in the slot. -/
theorem entry_create {fds : FdManager} (h : s.fds.create fd = some (fds, some s.fds.heap.length)) :
    (slot fds.m_datas fd).join = some s.fds.heap.length ∧
      fds.heap.length = s.fds.heap.length + 1 ∧
      fds.m_datas.length = s.fds.m_datas.length := by
  obtain ⟨i, hidx, -, rfl⟩ := create_eq_some h
  refine ⟨?_, by simp, by simp⟩
  rw [slot_set hidx, if_pos rfl]
  rfl

/-- A step to a good state keeps the rest. -/
theorem Inv.step {a : GetAct T} (h : s.Inv fd) (hc : FoundEmpty fd s a) (hst : Steps fd s a s') :
    s'.Inv fd := by
  cases hst with
  | found hp =>
      exact ⟨h.inside, h.known, fun u q hu hq => List.mem_append_left _ (h.told u q hu hq)⟩
  | empty hnone =>
      refine ⟨h.inside, h.known, fun u q _ hq => ?_⟩
      exact absurd (hq.symm.trans hnone) (by simp)
  | create ht hcreate =>
      obtain ⟨hentry, hheap, hsize⟩ := entry_create hcreate
      have hp : ∀ q, (slot _ fd).join = some q → q = s.fds.heap.length := fun q hq =>
        Option.some.inj (hq.symm.trans hentry)
      refine ⟨?_, fun q hq => ?_, fun u q _ hq => ?_⟩
      · have hin := h.inside
        unfold index at hin ⊢
        rw [hsize]
        exact hin
      · rw [hp q hq, hheap]
        omega
      · rw [hp q hq]
        exact List.mem_append_right _ (List.mem_singleton_self _)
  | store hp =>
      refine ⟨h.inside, fun q hq => ?_, h.told⟩
      show q < (s.fds.heap.set _ _).length
      rw [List.length_set]
      exact h.known q hq

/-- **A step keeps all callers together iff it replaces nothing.** -/
theorem oneContext_step_iff {a : GetAct T} (h : s.Inv fd) (hone : s.OneContext fd)
    (hst : Steps fd s a s') : s'.OneContext fd ↔ FoundEmpty fd s a := by
  cases hst with
  | found hp =>
      refine iff_of_true (fun q hq => ?_) trivial
      rcases List.mem_append.mp hq with hold | hnew
      · exact hone q hold
      · obtain rfl := List.mem_singleton.mp hnew
        exact hp
  | empty => exact iff_of_true hone trivial
  | store => exact iff_of_true hone trivial
  | @create t fds ht hcreate =>
      obtain ⟨hentry, -, -⟩ := entry_create hcreate
      constructor
      · intro hall
        show s.entry fd = none
        cases hold : s.entry fd with
        | none => rfl
        | some q =>
            -- somebody has been given `q`, and it is not in the slot any more
            have hq : (slot fds.m_datas fd).join = some q :=
              hall q (List.mem_append_left _ (h.told t q ht hold))
            have hlt := h.known q hold
            obtain rfl := Option.some.inj (hentry.symm.trans hq)
            omega
      · intro hnone q hq
        rcases List.mem_append.mp hq with hold | hnew
        · exact absurd ((hone q hold).symm.trans hnone) (by simp)
        · obtain rfl := List.mem_singleton.mp hnew
          exact hentry

/-- **`one_context_iff`** — any number of threads, in any interleaving: the calls have all returned the
same context, in every state of the run, exactly if every creation found the slot empty. -/
theorem one_context_iff {T : Type} [DecidableEq T] (fd : Int) (as : List (GetAct T))
    (s t : Getters T) (hs : (getters T fd).init s) (h : (getters T fd).exec s as = some t) :
    (∀ bs u, bs <+: as → (getters T fd).exec s bs = some u → u.OneContext fd) ↔
      (getters T fd).Along (FoundEmpty fd) s as := by
  have hnobody : s.OneContext fd := by
    intro p hp
    rw [hs.2.2.2.2] at hp
    cases hp
  exact Lib.System.throughout_iff (I := Inv fd)
    (fun s a s' hi _ hc hst => hi.step hc (steps hst))
    (fun s a s' hi hp hst => oneContext_step_iff hi hp (steps hst)) (inv_init hs) hnobody h

/-- Two threads, and a table without contexts. -/
def noContext : Getters Bool :=
  { fds := .new socketKernel, creating := fun _ => false, returned := [] }

theorem noContext_init : (getters Bool 3).init noContext :=
  ⟨by decide, by decide, ⟨_, represents_new _⟩, fun _ => rfl, rfl⟩

/-- One after the other. -/
theorem one_context_in_turn : ∃ s, (getters Bool 3).exec noContext
      [.look true, .create true, .look false] = some s ∧ s.OneContext 3 := by
  refine ⟨_, rfl, ?_⟩
  exact (one_context_iff 3 [.look true, .create true, .look false] noContext _ noContext_init rfl).mpr
    (by decide) _ _ (List.prefix_refl _) rfl

/-- Both look before either creates: the first one's context is replaced, and so is the mode it has set
through it. -/
theorem context_replaced :
    (¬ ∀ s : Getters Bool, (getters Bool 3).Reachable s → s.OneContext 3) ∧
    ∃ s, (getters Bool 3).exec noContext [.look true, .look false, .create true,
        .store 0 { FdCtx.untouched 3 with m_userNonblock := true }, .create false] = some s ∧
      s.returned = [0, 1] ∧ s.entry 3 = some 1 ∧
      (s.fds.heap[0]?).map FdCtx.m_userNonblock = some true ∧
      (s.fds.heap[1]?).map FdCtx.m_userNonblock = some false := by
  refine ⟨fun h => ?_, _, rfl, by decide, by decide, by decide, by decide⟩
  have hrun : ∃ s, (getters Bool 3).exec noContext
      [.look true, .look false, .create true, .create false] = some s ∧ s.returned = [0, 1] ∧
      s.entry 3 = some 1 := ⟨_, rfl, by decide, by decide⟩
  obtain ⟨s, hs, hret, hentry⟩ := hrun
  have hzero : s.entry 3 = some 0 :=
    h s (Lib.System.reachable_of_exec noContext_init hs) 0 (by simp [hret])
  rw [hentry] at hzero
  cases hzero

end Getters

end Sylar.Fd
