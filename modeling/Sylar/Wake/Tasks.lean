/-
# Sylar.Wake.Tasks — tasks, and the references that wake their fibers.

A callback task runs on the `cb_fiber` of the worker that took it.  The code inside may leave a
reference to that fiber in an `EventContext` (`addEvent` without a callback) or in the function a
hooked sleep binds for its timer; both bring it back to the queue, `triggerEvent` directly and the
timer through a task of its own that calls the function.  So the threads of `Scheduler::run`, the
event operations of `IOManager` and the sleep timers run side by side here, the first two by their
own definitions.

The fields from `queue` on are read by no step: they number the tasks a fiber carries, and remember
for every reference the task it was made for and for every task the thread it was scheduled with.
-/
import Sylar.Scheduler.Run
import Sylar.IO.Ledger

namespace Sylar.Wake

open Sylar.Scheduler
open Sylar.IO (IOManager Op Reg Ret Work)
open Sylar.IO.Ledger (sent_of_fired)

variable {ι : Type}

/-- A reference to a fiber, and the number of the task it was made for. -/
@[ext]
structure Wakeup where
  fiber : Nat
  task : Nat
  deriving DecidableEq, Repr

/-- The scheduler, its events and its sleep timers. -/
structure Tasks (ι : Type) where
  sched : Sched ι
  io : IOManager Unit Wakeup Callback
  /-- The callbacks of the sleep timers in `m_timers`. -/
  timers : List Callback
  /-- The functions `std::bind(schedule, iom, fiber, -1)` that have not been called. -/
  bound : List (Callback × Wakeup)
  /-- The functions there have been. -/
  known : List Callback
  /-- `m_fibers`, with the task each entry was made for. -/
  queue : List (FiberAndThread × Nat)
  /-- The task the entry was made for that a thread has taken. -/
  taken : ι → Nat
  /-- The number of callbacks `run` has put on a fiber. -/
  task : Nat → Nat
  /-- The thread the task of a fiber was scheduled with, once it was. -/
  pin : Nat → Option Int
  /-- The task has been scheduled with another thread since. -/
  loose : Nat → Bool

/-- One step of the scheduler's threads, one call of an event operation by a thread, or one step of
a sleep timer's life. -/
inductive TaskAct (ι : Type)
  | run (a : Act ι)
  | event (t : ι) (op : Op Unit Nat Callback)
  /-- A hooked sleep, up to its `YieldToHold`. -/
  | addTimer (t : ι) (cb : Callback)
  /-- `listExpiredCb` and `schedule(cbs.begin(), cbs.end())`, for one callback. -/
  | expire (cb : Callback)
  /-- The bound function, run as a task. -/
  | call (t : ι)
  deriving DecidableEq

/-- The shared fiber whose code a thread executes: what `Fiber::GetThis()` names there. -/
def running (s : Sched ι) (t : ι) : Option Nat :=
  match s.pc t with
  | .inside j => j.fiber?
  | _ => none

/-- The queue entry of what `triggerEvent` schedules; a callback is a task yet to be numbered. -/
def entryOf : Work Wakeup Callback → FiberAndThread × Nat
  | .fiber w => (⟨some w.fiber, none, -1⟩, w.task)
  | .cb c => (⟨none, some c, -1⟩, 0)

namespace Tasks

/-- Write down that `ft` has been queued, for task `n`. -/
def note (s : Tasks ι) (ft : FiberAndThread) (n : Nat) : Tasks ι :=
  { s with
    queue := if ft.fiber.isSome || ft.cb.isSome then s.queue ++ [(ft, n)] else s.queue
    pin := fun f => if ft.fiber = some f then some ((s.pin f).getD ft.thread) else s.pin f
    loose := fun f => s.loose f || (ft.fiber = some f && (s.pin f).any (· ≠ ft.thread)) }

/-- `schedule`, of an entry made for task `n`. -/
def schedule (s : Tasks ι) (ft : FiberAndThread) (n : Nat) : Tasks ι :=
  { s with sched := s.sched.push ft }.note ft n

/-- One `schedule` after the other. -/
def scheduleAll (s : Tasks ι) : List (FiberAndThread × Nat) → Tasks ι
  | [] => s
  | (ft, n) :: rest => (s.schedule ft n).scheduleAll rest

/-- Fiber `f` has been given a new callback, by an entry that named `thread`. -/
def start (s : Tasks ι) (f : Nat) (thread : Int) : Tasks ι :=
  { s with
    task := Function.update s.task f (s.task f + 1)
    pin := Function.update s.pin f (some thread)
    loose := Function.update s.loose f false }

/-- The bound function thread `t` executes, if it has not called `schedule` yet. -/
def boundAt (s : Tasks ι) (t : ι) : Option (Callback × Wakeup) :=
  (running s.sched t).bind fun g =>
    ((s.sched.fibers (.shared g)).m_cb).bind fun cb => s.bound.find? (·.1 = cb)

/-- The function belongs to no sleep timer. -/
def User (s : Tasks ι) (cb : Callback) : Prop := ∀ p ∈ s.bound, p.1 ≠ cb

instance (s : Tasks ι) : DecidablePred s.User := fun cb =>
  inferInstanceAs (Decidable (∀ p ∈ s.bound, p.1 ≠ cb))

/-- Nobody but its timer has a bound function, and it does nothing before its call. -/
def Admits (s : Tasks ι) : Act ι → Prop
  | .move t _ => s.boundAt t = none
  | .schedule ft => ∀ cb ∈ ft.cb, s.User cb
  | .newFiber o => ∀ cb ∈ o, s.User cb
  | _ => True

instance (s : Tasks ι) : DecidablePred s.Admits
  | .move t _ => inferInstanceAs (Decidable (s.boundAt t = none))
  | .schedule ft => inferInstanceAs (Decidable (∀ cb ∈ ft.cb, s.User cb))
  | .newFiber o => inferInstanceAs (Decidable (∀ cb ∈ o, s.User cb))
  | .enterRun _ | .scan _ | .dispatch _ | .assertState _ | .setExec _ | .switchBack _
  | .readState _ | .settle _ | .swapIn _ _ => isTrue trivial

/-- Thread `t` can make the call: `addEvent` without a callback is about the fiber it runs. -/
def Calls (s : Tasks ι) (t : ι) : Op Unit Nat Callback → Prop
  | .addEvent _ _ (some cb) _ _ => s.User cb
  | .addEvent _ _ none who _ =>
      running s.sched t = some who.fiber ∧ who.state = s.sched.state who.fiber
  | _ => True

instance (s : Tasks ι) (t : ι) : DecidablePred (s.Calls t)
  | .addEvent _ _ (some cb) _ _ => inferInstanceAs (Decidable (s.User cb))
  | .addEvent _ _ none who _ => inferInstanceAs (Decidable
      (running s.sched t = some who.fiber ∧ who.state = s.sched.state who.fiber))
  | .delEvent .. | .cancelEvent .. | .cancelAll .. | .idleEvent .. => isTrue trivial

/-- The functions a call hands over. -/
def functions : Op Unit Nat Callback → List Callback
  | .addEvent _ _ (some cb) _ _ => [cb]
  | _ => []

/-- The call, with the fiber numbered by its task. -/
def numbered (s : Tasks ι) (op : Op Unit Nat Callback) : Op Unit Wakeup Callback :=
  op.map (fun f => ⟨f, s.task f⟩) id

variable [DecidableEq ι]

/-- The scan takes the entry. -/
def takes (tid : ι → Int) (s : Tasks ι) (t : ι) (e : FiberAndThread × Nat) : Bool :=
  (e.1.thread = -1 ∨ e.1.thread = tid t) && e.1.fiber.all fun f => s.sched.state f ≠ .exec

/-- What a step of the scheduler's threads to `c` adds to the notes. -/
def follow (tid : ι → Int) (s : Tasks ι) (a : Act ι) (c : Sched ι) : Tasks ι :=
  let s' := { s with sched := c }
  match a with
  | .scan t =>
      { s' with
        queue := s.queue.eraseP (s.takes tid t)
        taken := Function.update s.taken t (((s.queue.find? (s.takes tid t)).map Prod.snd).getD 0) }
  | .dispatch t =>
      match s.sched.pc t, c.pc t with
      | .dispatch ft, .swapIn (.callback f) => s'.start f ft.thread
      | _, _ => s'
  | .settle t =>
      match s.sched.pc t with
      | .settle (.callback f) .requeue => s'.note ⟨some f, none, -1⟩ (s.task f)
      | _ => s'
  | .schedule ft => { s' with known := ft.cb.toList ++ s.known }.note ft ((ft.fiber.map s.task).getD 0)
  | .newFiber o => { s' with known := o.toList ++ s.known }
  | _ => s'

/-- One step; a failed assertion has no successor. -/
def step (tid : ι → Int) (s : Tasks ι) : TaskAct ι → Option (Tasks ι)
  | .run a =>
      if s.Admits a then ((scheduler tid).step s.sched a).map (s.follow tid a) else none
  | .event t op =>
      if s.sched.fault = none ∧ s.Calls t op then
        match s.io.call (s.numbered op) with
        | .error _ => none
        | .ok (io, _) =>
            some ({ s with io := io, known := functions op ++ s.known }.scheduleAll
              ((io.books.scheduled.drop s.io.books.scheduled.length).map fun p : Unit × Work Wakeup Callback => entryOf p.2))
      else none
  | .addTimer t cb =>
      (running s.sched t).bind fun f =>
        Lib.guarded (s.sched.fault = none ∧ cb ∉ s.known)
          { s with
            timers := s.timers ++ [cb]
            bound := s.bound ++ [(cb, ⟨f, s.task f⟩)]
            known := cb :: s.known }
  | .expire cb =>
      Lib.guarded (s.sched.fault = none ∧ cb ∈ s.timers)
        ({ s with timers := s.timers.erase cb }.schedule ⟨none, some cb, -1⟩ 0)
  | .call t =>
      (s.boundAt t).bind fun p =>
        Lib.guarded (s.sched.fault = none)
          ({ s with bound := s.bound.filter (·.1 ≠ p.1) }.schedule
            ⟨some p.2.fiber, none, -1⟩ p.2.task)

/-- Nothing has happened yet; function 0 is `Scheduler::idle`. -/
def initial : Tasks ι :=
  ⟨.initial, .initial, [], [], [0], [], fun _ => 0, fun _ => 0, fun _ => none, fun _ => false⟩

end Tasks

/-- All interleavings. -/
def tasks [DecidableEq ι] (tid : ι → Int) : Lib.System (Tasks ι) (TaskAct ι) where
  init s := s = .initial
  step s a := s.step tid a

namespace Tasks

/-! ## What a step can do -/

section Frame

variable (s : Tasks ι) (l : List (FiberAndThread × Nat))

@[simp] theorem scheduleAll_task : (s.scheduleAll l).task = s.task := by
  induction l generalizing s with
  | nil => rfl
  | cons e l ih => exact ih _

theorem scheduleAll_sched : ∃ q, (s.scheduleAll l).sched = { s.sched with m_fibers := q } := by
  induction l generalizing s with
  | nil => exact ⟨s.sched.m_fibers, rfl⟩
  | cons e l ih =>
      obtain ⟨q, hq⟩ := ih (s.schedule e.1 e.2)
      exact ⟨q, hq⟩

end Frame

variable [DecidableEq ι] {tid : ι → Int} {s s' : Tasks ι} {t : ι} {f n : Nat}

/-- The steps, by what lets them happen. -/
inductive Moves (tid : ι → Int) (s : Tasks ι) : TaskAct ι → Tasks ι → Prop
  | run {a c} : s.Admits a → (scheduler tid).step s.sched a = some c →
      Moves tid s (.run a) (s.follow tid a c)
  | event {t op io rt} : s.sched.fault = none → s.Calls t op →
      s.io.call (s.numbered op) = .ok (io, rt) →
      Moves tid s (.event t op)
        ({ s with io := io, known := functions op ++ s.known }.scheduleAll
          ((io.books.scheduled.drop s.io.books.scheduled.length).map
            fun p : Unit × Work Wakeup Callback => entryOf p.2))
  | addTimer {t cb f} : s.sched.fault = none → running s.sched t = some f → cb ∉ s.known →
      Moves tid s (.addTimer t cb)
        { s with
          timers := s.timers ++ [cb]
          bound := s.bound ++ [(cb, ⟨f, s.task f⟩)]
          known := cb :: s.known }
  | expire {cb} : s.sched.fault = none → cb ∈ s.timers →
      Moves tid s (.expire cb) ({ s with timers := s.timers.erase cb }.schedule ⟨none, some cb, -1⟩ 0)
  | call {t p} : s.sched.fault = none → s.boundAt t = some p →
      Moves tid s (.call t)
        ({ s with bound := s.bound.filter (·.1 ≠ p.1) }.schedule
          ⟨some p.2.fiber, none, -1⟩ p.2.task)

theorem moves {a : TaskAct ι} (h : (tasks tid).step s a = some s') : Moves tid s a s' := by
  have h : s.step tid a = some s' := h
  cases a with
  | run a =>
      simp only [step] at h
      split at h
      · rename_i hadm
        obtain ⟨c, hc, rfl⟩ := Option.map_eq_some_iff.mp h
        exact .run hadm hc
      · cases h
  | event t op =>
      simp only [step] at h
      split at h
      · rename_i hguard
        split at h
        · cases h
        · rename_i io rt hcall
          exact Option.some.inj h ▸ .event hguard.1 hguard.2 hcall
      · cases h
  | addTimer t cb =>
      obtain ⟨f, hf, hrest⟩ := Option.bind_eq_some_iff.mp h
      obtain ⟨⟨hfault, hcb⟩, rfl⟩ := Lib.guarded_eq_some.mp hrest
      exact .addTimer hfault hf hcb
  | expire cb =>
      obtain ⟨⟨hfault, hcb⟩, rfl⟩ := Lib.guarded_eq_some.mp h
      exact .expire hfault hcb
  | call t =>
      obtain ⟨p, hp, hrest⟩ := Option.bind_eq_some_iff.mp h
      obtain ⟨hfault, rfl⟩ := Lib.guarded_eq_some.mp hrest
      exact .call hfault hp

theorem Moves.fault {a : TaskAct ι} (h : Moves tid s a s') : s.sched.fault = none := by
  cases h with
  | run hadm hc => exact (Sched.steps hc).1
  | event hfault | addTimer hfault | expire hfault | call hfault => exact hfault

/-- What is no step of the scheduler's threads changes nothing of the scheduler but its queue. -/
theorem moves_sched {a : TaskAct ι} (h : Moves tid s a s') :
    (∃ b c, a = .run b ∧ s.Admits b ∧ (scheduler tid).step s.sched b = some c ∧
      s' = s.follow tid b c) ∨ ∃ q, s'.sched = { s.sched with m_fibers := q } := by
  cases h with
  | run hadm hc => exact .inl ⟨_, _, rfl, hadm, hc, rfl⟩
  | @event t op io rt =>
      exact .inr (scheduleAll_sched { s with io := io, known := functions op ++ s.known } _)
  | addTimer | expire | call => exact .inr ⟨_, rfl⟩

/-! ## The notes follow the queue -/

omit [DecidableEq ι] in
theorem takes_iff {e : FiberAndThread × Nat} :
    s.takes tid t e = true ↔ Eligible (tid t) s.sched.state e.1 := by
  unfold takes Eligible
  cases e.1.fiber <;> simp

omit [DecidableEq ι] in
/-- A scan that takes an entry takes the first numbered one as well. -/
theorem scan_queue {ft : FiberAndThread} {rest : List FiberAndThread} {tk : Bool}
    (hq : s.queue.map Prod.fst = s.sched.m_fibers)
    (h : Scheduler.scan (tid t) s.sched.state s.sched.m_fibers = some (some ft, rest, tk)) :
    ∃ n, (ft, n) ∈ s.queue ∧ s.queue.find? (s.takes tid t) = some (ft, n) ∧
      (s.queue.eraseP (s.takes tid t)).map Prod.fst = rest := by
  obtain ⟨hft, pre, post, hsplit, rfl, hpre⟩ := scan_took h
  rw [hsplit] at hq
  obtain ⟨l₁, l₂, hl, rfl, hl₂⟩ := List.map_eq_append_iff.mp hq
  obtain ⟨⟨ft', n⟩, l₃, rfl, rfl, rfl⟩ := List.map_eq_cons_iff.mp hl₂
  have hnone : ∀ e ∈ l₁, ¬ s.takes tid t e = true := fun e he htk =>
    hpre e.1 (List.mem_map_of_mem he) (takes_iff.mp htk)
  have hsome : s.takes tid t (ft', n) = true := takes_iff.mpr hft
  refine ⟨n, ?_, ?_, ?_⟩
  · rw [hl]
    simp
  · rw [hl, List.find?_append, List.find?_eq_none.mpr hnone, List.find?_cons_of_pos hsome]
    rfl
  · rw [hl, List.eraseP_append_right _ hnone, List.eraseP_cons_of_pos hsome, List.map_append]

omit [DecidableEq ι] in
/-- A scan that takes nothing leaves the numbered queue alone. -/
theorem scan_queue_none (hq : s.queue.map Prod.fst = s.sched.m_fibers)
    (h : ∀ ft ∈ s.sched.m_fibers, ¬ Eligible (tid t) s.sched.state ft) :
    s.queue.eraseP (s.takes tid t) = s.queue := by
  apply List.eraseP_of_forall_not
  intro e he htk
  exact h e.1 (hq ▸ List.mem_map_of_mem he) (takes_iff.mp htk)

/-! ## What refers to a fiber exists -/

/-- What an event operation registers and schedules, it was asked to register or had registered. -/
theorem call_spec {m m' : IOManager Unit Wakeup Callback} {op : Op Unit Wakeup Callback}
    {rt : Ret} (hm : m.WF) (h : m.call op = .ok (m', rt)) :
    m'.WF ∧ (∀ r ∈ m'.regs, r ∈ m.regs ∨ r ∈ op.request) ∧
      ∀ p ∈ m'.books.scheduled.drop m.books.scheduled.length,
        ∃ r, (r ∈ m.regs ∨ r ∈ op.request) ∧ r.work = p.2 := by
  have heffect : ∃ added deleted fired, IOManager.CallEffect m m' added deleted fired ∧
      ∀ r ∈ added, r ∈ op.request := by
    cases IOManager.call_outcome hm h with
    | failed _ _ heff _ => exact ⟨[], [], [], heff, fun r hr => by cases hr⟩
    | done added deleted fired _ heff hfills =>
        exact ⟨added, deleted, fired, heff, fun r hr => hfills.1 ▸ hr⟩
  obtain ⟨added, deleted, fired, heff, hadded⟩ := heffect
  have hsource : ∀ r, r ∈ m.regs ++ added → r ∈ m.regs ∨ r ∈ op.request := by
    intro r hr
    exact (List.mem_append.mp hr).imp_right (hadded r)
  obtain ⟨out, hout, hfired⟩ := heff.sent
  refine ⟨heff.wf, ?_, ?_⟩
  · intro r hr
    exact hsource r (heff.regs.mem_iff.mpr (List.mem_append_left _ hr))
  · intro p hp
    rw [hout, List.drop_left] at hp
    obtain ⟨r, hr, -, hwork⟩ := (sent_of_fired hfired).2 p hp
    refine ⟨r, hsource r (heff.regs.mem_iff.mpr ?_), hwork⟩
    exact List.mem_append_right _ (List.mem_append_right _ hr)

omit [DecidableEq ι] in
/-- A fiber that a call asks to wake is the one the caller runs, for the task it carries. -/
theorem request_spec {op : Op Unit Nat Callback} (hcalls : s.Calls t op)
    {r : Reg Unit Wakeup Callback} (hr : r ∈ (s.numbered op).request) {w : Wakeup}
    (hw : r.work = .fiber w) : running s.sched t = some w.fiber ∧ w.task = s.task w.fiber := by
  cases op with
  | addEvent fd event cb who ok =>
      obtain rfl := List.mem_singleton.mp hr
      cases cb with
      | some c => cases hw
      | none =>
          obtain rfl := Work.fiber.inj hw
          exact ⟨hcalls.1, rfl⟩
  | delEvent | cancelEvent | cancelAll | idleEvent => cases hr

/-- The parts of the state fit together. -/
structure Consistent (tid : ι → Int) (s : Tasks ι) : Prop where
  base : (scheduler tid).Reachable s.sched
  io : s.io.WF
  queue : s.sched.fault = none → s.queue.map Prod.fst = s.sched.m_fibers
  event : ∀ r ∈ s.io.regs, ∀ w, r.work = .fiber w → w.fiber < s.sched.nextFiber
  bound : ∀ p ∈ s.bound, p.2.fiber < s.sched.nextFiber

theorem next_le {a : Act ι} {b c : Sched ι} (h : Sched.Steps tid b a c) :
    b.nextFiber ≤ c.nextFiber := by
  cases h <;> simp

theorem Consistent.running_lt (h : Consistent tid s) (hf : running s.sched t = some f) :
    f < s.sched.nextFiber := by
  apply (Sched.wf_of_reachable h.base).pc t f
  unfold running at hf
  split at hf
  · rename_i j hpc
    rw [hpc]
    exact hf
  · cases hf

omit [DecidableEq ι] in
theorem note_queue {c : Sched ι} {ft : FiberAndThread} {queue : List (FiberAndThread × Nat)}
    (hq : s.queue = queue) (h : queue.map Prod.fst = c.m_fibers) :
    (s.note ft n).queue.map Prod.fst = (c.push ft).m_fibers := by
  subst hq
  simp only [note, Sched.push, scheduleNoLock]
  split
  · rw [List.map_append, h]
    rfl
  · exact h

theorem Consistent.schedule (h : Consistent tid s) (hfault : s.sched.fault = none)
    {ft : FiberAndThread} (hft : ∀ f, ft.fiber = some f → f < s.sched.nextFiber) (n : Nat) :
    Consistent tid (s.schedule ft n) where
  base := by
    refine .step h.base trivial (a := .schedule ft) ?_
    have hall : ft.fiber.all (· < s.sched.nextFiber) = true := by
      cases hf : ft.fiber with
      | none => rfl
      | some f => simpa using hft f hf
    simp only [scheduler, hfault, Option.isSome_none, Bool.false_eq_true, if_false, Sched.schedule,
      if_pos hall]
    rfl
  io := h.io
  queue := fun _ => note_queue rfl (h.queue hfault)
  event := h.event
  bound := h.bound

theorem Consistent.scheduleAll (h : Consistent tid s) (hfault : s.sched.fault = none)
    {l : List (FiberAndThread × Nat)}
    (hl : ∀ e ∈ l, ∀ f, e.1.fiber = some f → f < s.sched.nextFiber) :
    Consistent tid (s.scheduleAll l) := by
  induction l generalizing s with
  | nil => exact h
  | cons e l ih =>
      apply ih (h.schedule hfault (hl e List.mem_cons_self) e.2) hfault
      intro e' he'
      exact hl e' (List.mem_cons_of_mem _ he')

/-- What the scheduler's threads do to the queue is noted, unless an assertion fails. -/
theorem follow_queue {a : Act ι} {c : Sched ι} (hq : s.queue.map Prod.fst = s.sched.m_fibers)
    (h : Sched.Steps tid s.sched a c) (hfault : c.fault = none) :
    (s.follow tid a c).queue.map Prod.fst = c.m_fibers := by
  have hdispatch : ∀ t, (s.follow tid (.dispatch t) c).queue = s.queue := by
    intro t
    simp only [Tasks.follow]
    split <;> rfl
  cases h with
  | @scanTook t ft pre post tk hpc hsplit hft hscan =>
      obtain ⟨n, -, -, herase⟩ := scan_queue hq hscan
      exact herase
  | @scanNone t hpc hnone => exact (congrArg _ (scan_queue_none hq hnone)).trans hq
  | @requeue t f hpc =>
      simp only [Tasks.follow, hpc]
      exact note_queue rfl hq
  | @schedule ft hft => exact note_queue rfl hq
  | recycle hpc hres | hold hpc ho =>
      simp only [Tasks.follow, hpc]
      exact hq
  | fiber | reuse | fresh | idle | finished => rw [hdispatch]; exact hq
  | scanFail | reuseFail | assertFail | never | yieldFail | recycleFail => cases hfault
  | enterRun | assertPass | exec | leave | switchBack | done | callback | idleBack | newFiber
  | swapIn => exact hq

theorem follow_frame (tid : ι → Int) (s : Tasks ι) (a : Act ι) (c : Sched ι) :
    (s.follow tid a c).sched = c ∧ (s.follow tid a c).io = s.io ∧ (s.follow tid a c).bound = s.bound := by
  cases a with
  | dispatch t | settle t =>
      simp only [Tasks.follow]
      split <;> exact ⟨rfl, rfl, rfl⟩
  | _ => exact ⟨rfl, rfl, rfl⟩

theorem Consistent.follow (h : Consistent tid s) {a : Act ι} {c : Sched ι}
    (hc : (scheduler tid).step s.sched a = some c) : Consistent tid (s.follow tid a c) := by
  obtain ⟨hnone, hsteps⟩ := Sched.steps hc
  obtain ⟨hsched, hio, hbound⟩ := follow_frame tid s a c
  refine ⟨?_, ?_, ?_, ?_, ?_⟩
  · rw [hsched]
    exact .step h.base trivial hc
  · rw [hio]
    exact h.io
  · rw [hsched]
    exact follow_queue (h.queue hnone) hsteps
  · rw [hsched, hio]
    intro r hr w hw
    exact Nat.lt_of_lt_of_le (h.event r hr w hw) (next_le hsteps)
  · rw [hsched, hbound]
    intro p hp
    exact Nat.lt_of_lt_of_le (h.bound p hp) (next_le hsteps)

omit [DecidableEq ι] in
/-- The bound function a thread executes is one of them. -/
theorem mem_of_boundAt {p : Callback × Wakeup} (h : s.boundAt t = some p) : p ∈ s.bound := by
  obtain ⟨g, -, hrest⟩ := Option.bind_eq_some_iff.mp h
  obtain ⟨cb, -, hfind⟩ := Option.bind_eq_some_iff.mp hrest
  exact List.mem_of_find?_eq_some hfind

/-- A scheduled fiber comes from a reference to it. -/
theorem entryOf_fiber {w : Work Wakeup Callback} (h : (entryOf w).1.fiber = some f) :
    ∃ x, w = .fiber x ∧ x.fiber = f ∧ x.task = (entryOf w).2 := by
  cases w with
  | cb c => cases h
  | fiber x => exact ⟨x, rfl, Option.some.inj h, rfl⟩

theorem Consistent.moves (h : Consistent tid s) {a : TaskAct ι} (hm : Moves tid s a s') :
    Consistent tid s' := by
  cases hm with
  | run hadm hc => exact h.follow hc
  | @event t op io rt hfault hcalls hcall =>
      obtain ⟨hwf, hregs, hsent⟩ := call_spec h.io hcall
      have hlt : ∀ r, r ∈ s.io.regs ∨ r ∈ (s.numbered op).request → ∀ w, r.work = .fiber w →
          w.fiber < s.sched.nextFiber := by
        intro r hr w hw
        rcases hr with hr | hr
        · exact h.event r hr w hw
        · exact h.running_lt (request_spec hcalls hr hw).1
      have hcons : Consistent tid { s with io := io, known := functions op ++ s.known } :=
        ⟨h.base, hwf, h.queue, fun r hr => hlt r (hregs r hr), h.bound⟩
      refine hcons.scheduleAll hfault ?_
      intro e he f hf
      obtain ⟨p, hp, rfl⟩ := List.mem_map.mp he
      obtain ⟨r, hr, hwork⟩ := hsent p hp
      obtain ⟨w, hw, rfl, -⟩ := entryOf_fiber hf
      exact hlt r hr w (hwork.trans hw)
  | @addTimer t cb f hfault hf hcb =>
      refine ⟨h.base, h.io, h.queue, h.event, ?_⟩
      intro p hp
      rcases List.mem_append.mp hp with hp | hp
      · exact h.bound p hp
      · rw [List.mem_singleton.mp hp]
        exact h.running_lt hf
  | @expire cb hfault hcb =>
      have hcons : Consistent tid { s with timers := s.timers.erase cb } :=
        ⟨h.base, h.io, h.queue, h.event, h.bound⟩
      refine hcons.schedule hfault ?_ 0
      intro f hf
      cases hf
  | @call t p hfault hp =>
      have hcons : Consistent tid { s with bound := s.bound.filter (·.1 ≠ p.1) } :=
        ⟨h.base, h.io, h.queue, h.event, fun q hq => h.bound q (List.mem_of_mem_filter hq)⟩
      refine hcons.schedule hfault ?_ p.2.task
      intro f hf
      obtain rfl : p.2.fiber = f := Option.some.inj hf
      exact h.bound p (mem_of_boundAt hp)

omit [DecidableEq ι] in
theorem initial_regs : (initial : Tasks ι).io.regs = [] := IOManager.regs_initial

/-- **Every run here is a run of the scheduler**, with the same threads, queue and fibers. -/
theorem consistent_of_reachable (hs : (tasks tid).Reachable s) : Consistent tid s := by
  refine Lib.System.Reachable.invariant (P := Consistent tid) ?_ ?_ hs
  · rintro s rfl
    refine ⟨.init rfl, IOManager.wf_initial, fun _ => rfl, ?_, ?_⟩
    · intro r hr
      rw [initial_regs] at hr
      cases hr
    · intro p hp
      cases hp
  · intro s a s' h hstep
    exact h.moves (Tasks.moves hstep)

/-! ## References -/

/-- Where a reference to a fiber can be. -/
inductive Refers (s : Tasks ι) : Wakeup → Prop
  | queue {e f} : e ∈ s.queue → e.1.fiber = some f → Refers s ⟨f, e.2⟩
  | taken {u ft f} : s.sched.pc u = .dispatch ft → ft.fiber = some f → Refers s ⟨f, s.taken u⟩
  | event {r w} : r ∈ s.io.regs → r.work = .fiber w → Refers s w
  | bound {p} : p ∈ s.bound → Refers s p.2

/-- The step makes a reference to fiber `f`: from inside it, from `run` behind it, or by name. -/
def Creates (s : Tasks ι) (f : Nat) : TaskAct ι → Prop
  | .run (.schedule ft) => ft.fiber = some f
  | .run (.settle t) => s.sched.pc t = .settle (.callback f) .requeue
  | .event t _ | .addTimer t _ => running s.sched t = some f
  | _ => False

omit [DecidableEq ι] in
theorem note_mem {ft : FiberAndThread} {e : FiberAndThread × Nat} (he : e ∈ (s.note ft n).queue) :
    e ∈ s.queue ∨ e = (ft, n) := by
  simp only [note] at he
  split at he
  · exact (List.mem_append.mp he).imp_right List.mem_singleton.mp
  · exact .inl he

omit [DecidableEq ι] in
theorem scheduleAll_refers {l : List (FiberAndThread × Nat)} {w : Wakeup}
    (hw : (s.scheduleAll l).Refers w) :
    s.Refers w ∨ ∃ e ∈ l, e.1.fiber = some w.fiber ∧ w.task = e.2 := by
  induction l generalizing s with
  | nil => exact .inl hw
  | cons e l ih =>
      rcases ih hw with hw | ⟨e', he', hrest⟩
      · cases hw with
        | @queue e' f he hf =>
            rcases note_mem he with he | rfl
            · exact .inl (.queue he hf)
            · exact .inr ⟨e, List.mem_cons_self, hf, rfl⟩
        | taken hpc hf => exact .inl (.taken hpc hf)
        | event hr hw => exact .inl (.event hr hw)
        | bound hp => exact .inl (.bound hp)
      · exact .inr ⟨e', List.mem_cons_of_mem _ he', hrest⟩

theorem follow_mem {a : Act ι} {c : Sched ι} {e : FiberAndThread × Nat}
    (he : e ∈ (s.follow tid a c).queue) :
    e ∈ s.queue ∨ ∀ f, e.1.fiber = some f → s.Creates f (.run a) ∧ e.2 = s.task f := by
  cases a with
  | scan t => exact .inl (List.mem_of_mem_eraseP he)
  | dispatch t =>
      simp only [follow] at he
      split at he <;> exact .inl he
  | settle t =>
      simp only [follow] at he
      split at he
      · rename_i f hpc
        refine (note_mem he).imp_right ?_
        rintro rfl g hg
        obtain rfl : f = g := Option.some.inj hg
        exact ⟨hpc, rfl⟩
      · exact .inl he
  | schedule ft =>
      refine (note_mem he).imp_right ?_
      rintro rfl f hf
      have hf : ft.fiber = some f := hf
      refine ⟨hf, ?_⟩
      show (ft.fiber.map s.task).getD 0 = _
      rw [hf]
      rfl
  | enterRun | assertState | setExec | move | switchBack | readState | newFiber | swapIn =>
      exact .inl he

theorem taken_step {a : Act ι} {c : Sched ι} (h : Consistent tid s) (hnone : s.sched.fault = none)
    (hc : Sched.Steps tid s.sched a c) {u : ι} {ft : FiberAndThread}
    (hpc : c.pc u = .dispatch ft) (hf : ft.fiber = some f) :
    s.Refers ⟨f, (s.follow tid a c).taken u⟩ := by
  have hkept : s.sched.pc u = .dispatch ft → (s.follow tid a c).taken u = s.taken u →
      s.Refers ⟨f, (s.follow tid a c).taken u⟩ := by
    intro hold htaken
    rw [htaken]
    exact .taken hold hf
  have htaken : (∀ t, a ≠ .scan t) → (s.follow tid a c).taken = s.taken := by
    intro ha
    cases a with
    | scan t => exact absurd rfl (ha t)
    | dispatch t | settle t =>
        simp only [follow]
        split <;> rfl
    | _ => rfl
  cases hc with
  | @scanTook t ft' pre post tk hscanPc hsplit hft hscan =>
      by_cases hut : u = t
      · subst hut
        obtain ⟨n, hn, hfind, -⟩ := scan_queue (h.queue hnone) hscan
        obtain rfl : ft' = ft := by simpa using hpc
        have hnum : (s.follow tid (.scan u)
            ({ s.sched with m_fibers := pre ++ post }.goto u (.dispatch ft'))).taken u = n := by
          simp [follow, hfind]
        rw [hnum]
        exact .queue hn hf
      · exact hkept (by simpa [hut] using hpc) (Function.update_of_ne hut ..)
  | @scanNone t hscanPc hnone =>
      by_cases hut : u = t
      · subst hut
        obtain rfl : FiberAndThread.empty = ft := by simpa using hpc
        cases hf
      · exact hkept (by simpa [hut] using hpc) (Function.update_of_ne hut ..)
  | @scanFail t hscanPc =>
      have hpc : s.sched.pc u = .dispatch ft := hpc
      have hut : u ≠ t := by
        rintro rfl
        rw [hscanPc] at hpc
        cases hpc
      exact hkept hpc (Function.update_of_ne hut ..)
  | @enterRun t hold => exact hkept (by grind) (by rw [htaken (by simp)])
  | _ => exact hkept (by grind) (by rw [htaken (by simp)])

/-- **Where references come from**: the step has made them, for the task the fiber carries, or they
were there before. -/
theorem refers_step {a : TaskAct ι} (h : Consistent tid s) (hm : Moves tid s a s') {w : Wakeup}
    (hw : s'.Refers w) : s.Refers w ∨ s.Creates w.fiber a ∧ w.task = s.task w.fiber := by
  cases hm with
  | @run a c hadm hc =>
      obtain ⟨hnone, hsteps⟩ := Sched.steps hc
      obtain ⟨hsched, hio, hbound⟩ := follow_frame tid s a c
      cases hw with
      | queue he hf => 
          rcases follow_mem he with he | hnew
          · exact .inl (.queue he hf)
          · exact .inr (hnew _ hf)
      | taken hpc hf => exact .inl (taken_step h hnone hsteps (hsched ▸ hpc) hf)
      | event hr hw => exact .inl (.event (hio ▸ hr) hw)
      | bound hp => exact .inl (.bound (hbound ▸ hp))
  | @event t op io rt hfault hcalls hcall =>
      obtain ⟨hwf, hregs, hsent⟩ := call_spec h.io hcall
      have hsource : ∀ r, r ∈ s.io.regs ∨ r ∈ (s.numbered op).request → ∀ w, r.work = .fiber w →
          s.Refers w ∨ running s.sched t = some w.fiber ∧ w.task = s.task w.fiber := by
        intro r hr w hw
        rcases hr with hr | hr
        · exact .inl (.event hr hw)
        · exact .inr (request_spec hcalls hr hw)
      rcases scheduleAll_refers hw with hw | ⟨e, he, hf, htask⟩
      · cases hw with
        | queue he hf => exact .inl (.queue he hf)
        | taken hpc hf => exact .inl (.taken hpc hf)
        | event hr hw => exact hsource _ (hregs _ hr) _ hw
        | bound hp => exact .inl (.bound hp)
      · obtain ⟨p, hp, rfl⟩ := List.mem_map.mp he
        obtain ⟨r, hr, hwork⟩ := hsent p hp
        obtain ⟨x, hx, hfib, hnum⟩ := entryOf_fiber hf
        obtain rfl : x = w := Wakeup.ext hfib (hnum.trans htask.symm)
        exact hsource r hr x (hwork.trans hx)
  | @addTimer t cb f hfault hf hcb =>
      cases hw with
      | queue he hf => exact .inl (.queue he hf)
      | taken hpc hf => exact .inl (.taken hpc hf)
      | event hr hw => exact .inl (.event hr hw)
      | bound hp =>
          rcases List.mem_append.mp hp with hp | hp
          · exact .inl (.bound hp)
          · rw [List.mem_singleton.mp hp]
            exact .inr ⟨hf, rfl⟩
  | @expire cb hfault hcb =>
      rcases scheduleAll_refers (l := [(⟨none, some cb, -1⟩, 0)]) hw with hw | ⟨e, he, hf, -⟩
      · cases hw with
        | queue he hf => exact .inl (.queue he hf)
        | taken hpc hf => exact .inl (.taken hpc hf)
        | event hr hw => exact .inl (.event hr hw)
        | bound hp => exact .inl (.bound hp)
      · rw [List.mem_singleton.mp he] at hf
        cases hf
  | @call t p hfault hp =>
      rcases scheduleAll_refers (l := [(⟨some p.2.fiber, none, -1⟩, p.2.task)]) hw with
        hw | ⟨e, he, hf, htask⟩
      · cases hw with
        | queue he hf => exact .inl (.queue he hf)
        | taken hpc hf => exact .inl (.taken hpc hf)
        | event hr hw => exact .inl (.event hr hw)
        | bound hp => exact .inl (.bound (List.mem_of_mem_filter hp))
      · rw [List.mem_singleton.mp he] at hf htask
        obtain rfl : p.2 = w := Wakeup.ext (Option.some.inj hf) htask.symm
        exact .inl (.bound (mem_of_boundAt hp))

end Tasks

end Sylar.Wake
