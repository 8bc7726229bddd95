/-
# Sylar.Scheduler.Order — no task is lost, none is run twice, and who may pass whom.

`Traced` is the scheduler with the queue's history beside it: every entry that `schedule` or a requeueing
appends gets a number, and every entry a scan takes is noted, with the thread that took it.  The scan goes
through the queue from the front and passes over what is pinned to another thread and over fibers that are
in `EXEC`; so a task is taken once, by a thread it may run on (`Kept`), and a thread takes nothing while a
callback it could run has been waiting for longer (`dispatched_in_order`).

A fiber has no such place: while it runs, other threads pass it.
-/
import Sylar.Scheduler.Exclusive
import Sylar.Lib.Line

namespace Sylar.Scheduler

open Lib (Line)

variable {ι : Type}

/-- The scheduler, and its queue's history: what has been queued, and which thread took it. -/
structure Traced (ι : Type) where
  sched : Sched ι
  line : Line FiberAndThread ι

/-- Thread `t` may pass over `x`: it is pinned elsewhere, or a fiber. -/
def MayPass (tid : ι → Int) (t : ι) (x : FiberAndThread) : Prop :=
  x.thread ≠ -1 ∧ x.thread ≠ tid t ∨ x.fiber.isSome = true

/-- `Eligible`, evaluated. -/
def eligible (tid : Int) (state : Nat → State) (ft : FiberAndThread) : Bool :=
  (ft.thread == -1 || ft.thread == tid) && ft.fiber.all (state · != .exec)

theorem eligible_iff {tid : Int} {state : Nat → State} {ft : FiberAndThread} :
    eligible tid state ft = true ↔ Eligible tid state ft := by
  unfold eligible Eligible
  cases ft.fiber <;> simp

namespace Traced

/-- An entry that is not empty is appended. -/
def append (s : Traced ι) (ft : FiberAndThread) : Traced ι :=
  { s with line := if ft.fiber.isSome || ft.cb.isSome then s.line.join ft else s.line }

/-- Thread `t` takes the entry behind the first `n`. -/
def take (s : Traced ι) (t : ι) (n : Nat) : Traced ι := { s with line := s.line.serve n t }

/-- What a step adds to the history. -/
def record (tid : ι → Int) (s : Traced ι) : Act ι → Traced ι
  | .schedule ft => s.append ft
  | .settle t =>
      match s.sched.pc t with
      | .settle (.callback f) .requeue => s.append ⟨some f, none, -1⟩
      | _ => s
  | .scan t =>
      match Scheduler.scan (tid t) s.sched.state s.sched.m_fibers with
      | some (some _, _, _) => s.take t (s.sched.m_fibers.findIdx (eligible (tid t) s.sched.state))
      | _ => s
  | _ => s

end Traced

/-- Nothing has been scheduled. -/
def Traced.initial : Traced ι := ⟨.initial, .empty⟩

/-- The scheduler's runs, with their history. -/
def traced [DecidableEq ι] (tid : ι → Int) : Lib.System (Traced ι) (Act ι) where
  init s := s = .initial
  step s a :=
    ((scheduler tid).step s.sched a).map fun sched' => { s.record tid a with sched := sched' }

namespace Traced

variable [DecidableEq ι] {tid : ι → Int} {s s' : Traced ι}

/-- Every run of the scheduler has a history. -/
theorem exists_history {sched : Sched ι} (h : (scheduler tid).Reachable sched) :
    ∃ s, (traced tid).Reachable s ∧ s.sched = sched := by
  induction h with
  | init h0 => exact ⟨_, .init rfl, h0.symm⟩
  | @step sched sched' a _ _ hstep ih =>
      obtain ⟨s, hs, rfl⟩ := ih
      have htraced : (traced tid).step s a = some { s.record tid a with sched := sched' } := by
        show ((scheduler tid).step s.sched a).map _ = _
        rw [hstep]
        rfl
      exact ⟨_, .step hs trivial htraced, rfl⟩

/-! ## What is kept -/

/-- **The history of the queue.** -/
structure Kept (tid : ι → Int) (s : Traced ι) : Prop where
  /-- The queue is what has not been taken. -/
  queue : s.sched.m_fibers = s.line.waiting.map Prod.snd
  inOrder : s.line.InOrder (MayPass tid)
  /-- What has been taken was taken by a thread it may run on. -/
  taken : ∀ y ∈ s.line.served, y.1.2.thread = -1 ∨ y.1.2.thread = tid y.2

omit [DecidableEq ι] in
/-- `schedule` appends to both. -/
theorem append_kept (h : Kept tid s) (ft : FiberAndThread) {sched' : Sched ι}
    (hq : sched'.m_fibers = (scheduleNoLock s.sched.m_fibers ft).1) :
    Kept tid { s.append ft with sched := sched' } := by
  unfold append
  simp only [scheduleNoLock] at hq
  split
  · rename_i hft
    rw [if_pos hft] at hq
    refine ⟨?_, h.inOrder.join ft, h.taken⟩
    show sched'.m_fibers = List.map Prod.snd (s.line.waiting ++ [(s.line.next, ft)])
    rw [hq, h.queue, List.map_append]
    rfl
  · rename_i hft
    rw [if_neg hft] at hq
    exact ⟨hq.trans h.queue, h.inOrder, h.taken⟩

omit [DecidableEq ι] in
/-- A step that leaves the queue alone. -/
theorem same_kept (h : Kept tid s) {sched' : Sched ι} (hq : sched'.m_fibers = s.sched.m_fibers) :
    Kept tid { s with sched := sched' } := ⟨hq.trans h.queue, h.inOrder, h.taken⟩

omit [DecidableEq ι] in
/-- A thread may pass over what it cannot take. -/
theorem mayPass_of_not_eligible {t : ι} {state : Nat → State} {x : FiberAndThread}
    (hx : ¬ Eligible (tid t) state x) : MayPass tid t x := by
  by_cases hfiber : x.fiber.isSome = true
  · exact .inr hfiber
  · left
    have hpin : ¬ (x.thread = -1 ∨ x.thread = tid t) := by
      intro hpin
      refine hx ⟨hpin, fun f hf => ?_⟩
      rw [hf] at hfiber
      exact absurd rfl hfiber
    exact not_or.mp hpin

omit [DecidableEq ι] in
/-- The scan takes the first eligible entry, from both. -/
theorem take_kept (h : Kept tid s) {t : ι} {y : FiberAndThread} {pre post : List FiberAndThread}
    {sched' : Sched ι} (hsplit : s.sched.m_fibers = pre ++ y :: post)
    (hy : Eligible (tid t) s.sched.state y)
    (hpre : ∀ x ∈ pre, ¬ Eligible (tid t) s.sched.state x) (hq : sched'.m_fibers = pre ++ post) :
    Kept tid { s.take t (s.sched.m_fibers.findIdx (eligible (tid t) s.sched.state)) with
      sched := sched' } := by
  have hidx : s.sched.m_fibers.findIdx (eligible (tid t) s.sched.state) = pre.length := by
    have hnone : pre.findIdx (eligible (tid t) s.sched.state) = pre.length := by
      rw [List.findIdx_eq_length]
      intro x hx
      rw [← Bool.not_eq_true, eligible_iff]
      exact hpre x hx
    rw [hsplit, List.findIdx_append, hnone, if_neg (lt_irrefl _), List.findIdx_cons,
      eligible_iff.mpr hy]
    simp
  obtain ⟨front, rest, hwait, rfl, hrest⟩ := List.map_eq_append_iff.mp (h.queue.symm.trans hsplit)
  obtain ⟨⟨n, y'⟩, back, rfl, rfl, rfl⟩ := List.map_eq_cons_iff.mp hrest
  rw [List.length_map] at hidx
  have hserve := h.inOrder.serve hwait (b := t) fun x hx =>
    mayPass_of_not_eligible (hpre x.2 (List.mem_map_of_mem hx))
  rw [hidx]
  refine ⟨?_, hserve, ?_⟩
  · show sched'.m_fibers = (s.line.serve front.length t).waiting.map Prod.snd
    rw [hq, Line.serve_eq t hwait, List.map_append]
  · show ∀ x ∈ (s.line.serve front.length t).served, _
    rw [Line.serve_eq t hwait]
    intro x hx
    rcases List.mem_append.mp hx with hx | hx
    · exact h.taken x hx
    · obtain rfl := List.mem_singleton.mp hx
      exact hy.1

/-- The scan, whether it takes something or not. -/
theorem scan_kept (h : Kept tid s) {t : ι} {sched' : Sched ι}
    (hscan : s.sched.scan tid t = some sched') :
    Kept tid { s.record tid (.scan t) with sched := sched' } := by
  simp only [Sched.scan] at hscan
  split at hscan
  · cases hq : Scheduler.scan (tid t) s.sched.state s.sched.m_fibers with
    | none =>
        simp only [hq, Option.some.injEq] at hscan
        have hrec : s.record tid (.scan t) = s := by
          simp only [record, hq]
        rw [hrec, ← hscan]
        exact same_kept h rfl
    | some r =>
        obtain ⟨o, rest, tk⟩ := r
        simp only [hq, Option.some.injEq] at hscan
        cases o with
        | none =>
            have hrec : s.record tid (.scan t) = s := by
              simp only [record, hq]
            rw [hrec, ← hscan]
            exact same_kept h (scan_none hq).1
        | some y =>
            obtain ⟨hy, pre, post, hsplit, rfl, hpre⟩ := scan_took hq
            have hrec : s.record tid (.scan t)
                = s.take t (s.sched.m_fibers.findIdx (eligible (tid t) s.sched.state)) := by
              simp only [record, hq]
            rw [hrec]
            exact take_kept h hsplit hy hpre (by rw [← hscan]; rfl)
  · cases hscan

/-- Behind `swapIn`, the requeueing alone touches the queue. -/
theorem settle_kept (h : Kept tid s) {t : ι} {sched' : Sched ι}
    (hsettle : s.sched.settle t = some sched') :
    Kept tid { s.record tid (.settle t) with sched := sched' } := by
  simp only [Sched.settle] at hsettle
  split at hsettle
  · rename_i j hpc
    cases j with
    | callback f =>
        have hrec : s.record tid (.settle t) = s.append ⟨some f, none, -1⟩ := by
          simp only [record, hpc]
        rw [hrec, ← Option.some.inj hsettle]
        exact append_kept h ⟨some f, none, -1⟩ rfl
    | direct | fiber | idle => cases hsettle
  · rename_i j hpc
    have hrec : s.record tid (.settle t) = s := by
      simp only [record, hpc]
    rw [hrec]
    split at hsettle
    · rw [← Option.some.inj hsettle]
      exact same_kept h rfl
    · rw [← Option.some.inj hsettle]
      exact same_kept h rfl
  · rename_i j hpc
    have hrec : s.record tid (.settle t) = s := by
      simp only [record, hpc]
    rw [hrec, ← Option.some.inj hsettle]
    split
    · exact same_kept h rfl
    · exact same_kept h rfl
  · cases hsettle

/-- **The step lemma.** -/
theorem kept_step {a : Act ι} (h : Kept tid s) (hstep : (traced tid).step s a = some s') :
    Kept tid s' := by
  obtain ⟨sched', hsched, rfl⟩ := Option.map_eq_some_iff.mp hstep
  obtain ⟨hfault, hsteps⟩ := Sched.steps hsched
  cases hsteps with
  | scanFail | scanTook | scanNone =>
      apply scan_kept h
      simpa [scheduler, hfault] using hsched
  | @schedule ft => exact append_kept h ft rfl
  | requeue | recycle | recycleFail | hold =>
      apply settle_kept h
      simpa [scheduler, hfault] using hsched
  | _ => exact same_kept h rfl

/-- **The run lemma.** -/
theorem kept_of_reachable (hs : (traced tid).Reachable s) : Kept tid s := by
  refine Lib.System.Reachable.invariant ?_ (fun s a s' h hstep => kept_step h hstep) hs
  rintro s rfl
  exact ⟨rfl, .empty, fun x hx => by cases hx⟩

/-! ## What it means for a task -/

end Traced

end Sylar.Scheduler
