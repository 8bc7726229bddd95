/-
# Sylar.Worker.Plain — the threads of a plain `Scheduler` (`sylar/scheduler.cpp`).

Where nothing is overridden, `tickle` does nothing, `idle` logs a line and returns, and `stopping`
reads the two flags, the queue and `m_activeThreadCount` under the lock.  A `Plain` is the scheduler's
state with what these functions share.  `schedule` calls and new fibers come at any time, and `stop`
raises the flags at any time; what else `stop` does is in `Sylar.Worker.Stop`.
-/
import Sylar.Scheduler.Run

namespace Sylar.Worker

open Scheduler (Sched Pc Job)
open Lib (guarded)

variable {ι : Type}

/-- A plain `Scheduler` and its threads. -/
structure Plain (ι : Type) where
  sched : Sched ι
  /-- The thread is between the `++` and the `--` of the counter of its branch of `run`. -/
  counted : ι → Bool
  m_activeThreadCount : Nat
  m_idleThreadCount : Nat
  m_stopping : Bool
  m_autostop : Bool

/-- A step of a plain scheduler. -/
inductive PlainAct (ι : Type)
  /-- A step of `Scheduler::run`, a `schedule` call or the creation of a fiber. -/
  | run (a : Scheduler.Act ι)
  /-- `++` and `--` of `m_activeThreadCount` or `m_idleThreadCount`. -/
  | count (t : ι)
  | uncount (t : ι)
  /-- `stop` raises the flags. -/
  | stop
  deriving DecidableEq

namespace Plain

/-- `Scheduler::stopping`. -/
def stopping (s : Plain ι) : Bool :=
  s.m_autostop && s.m_stopping && s.sched.m_fibers.isEmpty && s.m_activeThreadCount == 0

/-- The scheduler's steps that are taken here: the counters are in step with the branches of `run`,
an idle function only returns, and nobody calls `swapIn` from outside. -/
def Admits (s : Plain ι) : Scheduler.Act ι → Prop
  | .enterRun t | .scan t | .dispatch t | .readState t | .settle t => s.counted t = false
  | .assertState t | .setExec t | .switchBack t => s.counted t = true
  | .move t m => s.counted t = true ∧ (s.sched.pc t = .inside .idle → m = .finish)
  | .schedule _ | .newFiber _ => True
  | .swapIn _ _ => False

instance (s : Plain ι) : DecidablePred s.Admits
  | .enterRun t | .scan t | .dispatch t | .readState t | .settle t =>
      inferInstanceAs (Decidable (s.counted t = false))
  | .assertState t | .setExec t | .switchBack t => inferInstanceAs (Decidable (s.counted t = true))
  | .move t m => inferInstanceAs (Decidable
      (s.counted t = true ∧ (s.sched.pc t = .inside .idle → m = .finish)))
  | .schedule _ | .newFiber _ => isTrue trivial
  | .swapIn _ _ => isFalse id

/-- `++` of the counter of the branch `j`. -/
def up (s : Plain ι) (j : Job) : Plain ι :=
  if j = .idle then { s with m_idleThreadCount := s.m_idleThreadCount + 1 }
  else { s with m_activeThreadCount := s.m_activeThreadCount + 1 }

/-- `--` of the counter of the branch `j`. -/
def down (s : Plain ι) (j : Job) : Plain ι :=
  if j = .idle then { s with m_idleThreadCount := s.m_idleThreadCount - 1 }
  else { s with m_activeThreadCount := s.m_activeThreadCount - 1 }

variable [DecidableEq ι]

/-- Note whether thread `t` is counted. -/
def mark (s : Plain ι) (t : ι) (b : Bool) : Plain ι :=
  { s with counted := Function.update s.counted t b }

/-- One step; `none` when it is not enabled. -/
def step (tid : ι → Int) (s : Plain ι) : PlainAct ι → Option (Plain ι)
  | .run a =>
      if s.Admits a then
        ((Scheduler.scheduler tid).step s.sched a).map fun q => { s with sched := q }
      else none
  | .count t =>
      match s.sched.pc t with
      | .swapIn j => guarded (s.counted t = false) ((s.up j).mark t true)
      | _ => none
  | .uncount t =>
      match s.sched.pc t with
      | .post j => guarded (s.counted t = true) ((s.down j).mark t false)
      | _ => none
  | .stop => some { s with m_autostop := true, m_stopping := true }

/-- A new scheduler. -/
def initial : Plain ι :=
  { sched := .initial, counted := fun _ => false, m_activeThreadCount := 0, m_idleThreadCount := 0
    m_stopping := true, m_autostop := false }

end Plain

/-- The threads of a plain scheduler, the id of `t` being `tid t`. -/
def plain [DecidableEq ι] (tid : ι → Int) : Lib.System (Plain ι) (PlainAct ι) where
  init s := s = .initial
  step s a := if s.sched.fault.isSome then none else s.step tid a

namespace Plain

variable [DecidableEq ι] {tid : ι → Int} {s s' : Plain ι}

/-! ## What a step can do -/

section Frame

variable (s : Plain ι) (t : ι) (b : Bool) (j : Job)

@[simp] theorem mark_sched : (s.mark t b).sched = s.sched := rfl
@[simp] theorem mark_autostop : (s.mark t b).m_autostop = s.m_autostop := rfl
@[simp] theorem mark_stopping : (s.mark t b).m_stopping = s.m_stopping := rfl

omit [DecidableEq ι] in
@[simp] theorem up_sched : (s.up j).sched = s.sched := by
  unfold up
  split <;> rfl

omit [DecidableEq ι] in
@[simp] theorem down_sched : (s.down j).sched = s.sched := by
  unfold down
  split <;> rfl

omit [DecidableEq ι] in
@[simp] theorem up_flags : (s.up j).m_autostop = s.m_autostop ∧ (s.up j).m_stopping = s.m_stopping := by
  unfold up
  split <;> exact ⟨rfl, rfl⟩

omit [DecidableEq ι] in
@[simp] theorem down_flags :
    (s.down j).m_autostop = s.m_autostop ∧ (s.down j).m_stopping = s.m_stopping := by
  unfold down
  split <;> exact ⟨rfl, rfl⟩

end Frame

/-- **What each step does.** -/
inductive Steps (tid : ι → Int) (s : Plain ι) : PlainAct ι → Plain ι → Prop
  | run {a q} : s.Admits a → (Scheduler.scheduler tid).step s.sched a = some q →
      Steps tid s (.run a) { s with sched := q }
  | count {t j} : s.sched.pc t = .swapIn j → s.counted t = false →
      Steps tid s (.count t) ((s.up j).mark t true)
  | uncount {t j} : s.sched.pc t = .post j → s.counted t = true →
      Steps tid s (.uncount t) ((s.down j).mark t false)
  | stop : Steps tid s .stop { s with m_autostop := true, m_stopping := true }

theorem steps {a : PlainAct ι} (h : (plain tid).step s a = some s') : Steps tid s a s' := by
  simp only [plain] at h
  split at h
  · cases h
  · cases a with
    | run a =>
        simp only [step] at h
        split at h
        · rename_i ha
          obtain ⟨q, hq, rfl⟩ := Option.map_eq_some_iff.mp h
          exact .run ha hq
        · cases h
    | count t =>
        simp only [step] at h
        split at h
        · rename_i j hpc
          obtain ⟨hno, rfl⟩ := Lib.guarded_eq_some.mp h
          exact .count hpc hno
        · cases h
    | uncount t =>
        simp only [step] at h
        split at h
        · rename_i j hpc
          obtain ⟨hyes, rfl⟩ := Lib.guarded_eq_some.mp h
          exact .uncount hpc hyes
        · cases h
    | stop => exact Option.some.inj h ▸ .stop

/-- **Seen through `sched`, a run of a plain scheduler is a run of `Scheduler::run`.** -/
theorem sched_of_reachable (hs : (plain tid).Reachable s) :
    (Scheduler.scheduler tid).Reachable s.sched := by
  refine Lib.System.Reachable.invariant
    (P := fun s => (Scheduler.scheduler tid).Reachable s.sched) ?_ (fun s a s' ih h => ?_) hs
  · rintro s rfl
    exact .init rfl
  · cases steps h with
    | run ha hq => exact .step ih trivial hq
    | count hpc hno =>
        rw [mark_sched, up_sched]
        exact ih
    | uncount hpc hyes =>
        rw [mark_sched, down_sched]
        exact ih
    | stop => exact ih

end Plain

end Sylar.Worker
