/-
# Sylar.Scheduler.Run — threads running `Scheduler::run`, and the fibers they switch to.

Every thread is at a program point `Pc`.  A worker scans the queue, dispatches what it took, enters
`swapIn` (its assertion, then `m_state = EXEC` and the switch), is inside the fiber until the fiber
switches out, and does the bookkeeping of the branch of `run` it came from: one step for reading the
state, one for acting on it.  A thread outside `run` may call `swapIn` directly, which has no
bookkeeping.  `schedule` calls and new fibers may come at any time, from anywhere.

What is shared is the queue and the fibers.  The idle fiber of a thread belongs to that thread alone
(`Ref.idle`); all others are known by number (`Ref.shared`) and may be named by anyone.

A failed assertion sets `fault`, after which nothing moves.
-/
import Sylar.Scheduler.Queue
import Sylar.Lib.Transition
import Mathlib.Logic.Function.Basic

namespace Sylar.Scheduler

variable {ι : Type}

/-! ## Program points -/

/-- A reference to a fiber. -/
inductive Ref (ι : Type)
  | shared (f : Nat)
  | idle (t : ι)
  deriving DecidableEq

/-- What a thread resumes, by the branch of `run` it is in; `direct` is a call from outside. -/
inductive Job
  | direct (f : Nat)
  | fiber (f : Nat)
  | callback (f : Nat)
  | idle
  deriving DecidableEq, Repr

/-- The fiber a job of thread `t` is about. -/
def Job.ref (t : ι) : Job → Ref ι
  | .direct f | .fiber f | .callback f => .shared f
  | .idle => .idle t

/-- What the post-switch code of `run` has decided to do. -/
inductive Settle
  /-- `schedule(cb_fiber); cb_fiber.reset();` -/
  | requeue
  /-- `cb_fiber->reset(nullptr);` -/
  | recycle
  /-- `m_state = HOLD;` and, in the callback branch, `cb_fiber.reset();` -/
  | hold
  deriving DecidableEq, Repr

/-- Where a thread is. -/
inductive Pc
  /-- Not in `run`. -/
  | outside
  /-- Before the locked scan. -/
  | scan
  /-- Behind it, with what it took. -/
  | dispatch (ft : FiberAndThread)
  /-- At the entry of `swapIn`. -/
  | swapIn (j : Job)
  /-- Behind its assertion, before `m_state = EXEC`. -/
  | setExec (j : Job)
  /-- In the fiber. -/
  | inside (j : Job)
  /-- In the fiber's `swapOut`, before the switch; the fiber will continue at `c`. -/
  | leaving (j : Job) (c : Ctx)
  /-- Back from `swapIn`. -/
  | post (j : Job)
  /-- Behind the test of the state. -/
  | settle (j : Job) (todo : Settle)
  /-- `run` has returned. -/
  | finished
  deriving DecidableEq, Repr

/-- The assertions on the way. -/
inductive Fault
  /-- `it->fiber || it->cb` in the scan. -/
  | emptyTask
  /-- `m_state != EXEC` in `swapIn`. -/
  | swapInExec
  /-- `m_state == EXEC` in `YieldToHold`. -/
  | yieldNotExec
  /-- The state test of `Fiber::reset`. -/
  | resetBusy
  /-- The end of `MainFunc`. -/
  | neverReach
  deriving DecidableEq, Repr

/-- The state of all threads and fibers. -/
structure Sched (ι : Type) where
  m_fibers : List FiberAndThread
  fibers : Ref ι → Fiber
  /-- The number the next fiber will get. -/
  nextFiber : Nat
  pc : ι → Pc
  /-- The local `cb_fiber` of a thread's `run`. -/
  cb_fiber : ι → Option Nat
  fault : Option Fault

/-- How the code inside a fiber goes on. -/
inductive Move
  | yieldToReady
  | yieldToHold
  /-- The bare `swapOut` at the end of an idle round. -/
  | swapOut
  /-- The callback returns. -/
  | finish
  /-- The callback throws, or is empty and the call throws. -/
  | throw
  deriving DecidableEq, Repr

/-- One step of one thread, a `schedule` call or the creation of a fiber. -/
inductive Act (ι : Type)
  | enterRun (t : ι)
  | scan (t : ι)
  | dispatch (t : ι)
  | assertState (t : ι)
  | setExec (t : ι)
  | move (t : ι) (m : Move)
  | switchBack (t : ι)
  | readState (t : ι)
  | settle (t : ι)
  | schedule (ft : FiberAndThread)
  | newFiber (cb : Option Callback)
  | swapIn (t : ι) (f : Nat)
  deriving DecidableEq

namespace Sched

/-- The state of a shared fiber. -/
def state (s : Sched ι) (f : Nat) : State := (s.fibers (.shared f)).m_state

variable [DecidableEq ι]

/-! ## Steps -/

/-- Move thread `t`. -/
def goto (s : Sched ι) (t : ι) (pc : Pc) : Sched ι := { s with pc := Function.update s.pc t pc }

/-- Write a fiber. -/
def put (s : Sched ι) (r : Ref ι) (f : Fiber) : Sched ι :=
  { s with fibers := Function.update s.fibers r f }

/-- Assign `cb_fiber` of thread `t`. -/
def setCb (s : Sched ι) (t : ι) (o : Option Nat) : Sched ι :=
  { s with cb_fiber := Function.update s.cb_fiber t o }

/-- A failed assertion. -/
def fail (s : Sched ι) (e : Fault) : Sched ι := { s with fault := some e }

/-- `new Fiber(cb, 0, true)`. -/
def alloc (s : Sched ι) (cb : Option Callback) : Sched ι :=
  { s.put (.shared s.nextFiber) (.new cb) with nextFiber := s.nextFiber + 1 }

/-- `schedule`: what it does to the queue. -/
def push (s : Sched ι) (ft : FiberAndThread) : Sched ι :=
  { s with m_fibers := (scheduleNoLock s.m_fibers ft).1 }

/-- `schedule(begin, end)`: what it does to the queue. -/
def pushAll (s : Sched ι) (fts : List FiberAndThread) : Sched ι :=
  { s with m_fibers := (scheduleRange s.m_fibers fts).1 }

/-- `run` is entered: `new Fiber(std::bind(&Scheduler::idle, this), 0, true)`. -/
def enterRun (s : Sched ι) (t : ι) : Option (Sched ι) :=
  match s.pc t with
  | .outside => some (((s.put (.idle t) (.new (some 0))).setCb t none).goto t .scan)
  | _ => none

/-- The locked scan. -/
def scan (tid : ι → Int) (s : Sched ι) (t : ι) : Option (Sched ι) :=
  match s.pc t with
  | .scan =>
      match Scheduler.scan (tid t) s.state s.m_fibers with
      | none => some (s.fail .emptyTask)
      | some (o, rest, _) =>
          some ({ s with m_fibers := rest }.goto t (.dispatch (o.getD .empty)))
  | _ => none

/-- The callback branch up to `swapIn`. -/
def dispatchCb (s : Sched ι) (t : ι) (cb : Callback) : Sched ι :=
  match s.cb_fiber t with
  | some f =>
      match (s.fibers (.shared f)).reset (some cb) with
      | none => s.fail .resetBusy
      | some g => (s.put (.shared f) g).goto t (.swapIn (.callback f))
  | none =>
      ((s.alloc (some cb)).setCb t (some s.nextFiber)).goto t (.swapIn (.callback s.nextFiber))

/-- The idle branch up to `swapIn`. -/
def dispatchIdle (s : Sched ι) (t : ι) : Sched ι :=
  if (s.fibers (.idle t)).m_state = .term then s.goto t .finished
  else s.goto t (.swapIn .idle)

/-- The choice of the branch. -/
def dispatch (s : Sched ι) (t : ι) : Option (Sched ι) :=
  match s.pc t with
  | .dispatch ft =>
      match ft.fiber with
      | some f =>
          if s.state f ≠ .term ∨ s.state f ≠ .except then some (s.goto t (.swapIn (.fiber f)))
          else
            match ft.cb with
            | some cb => some (s.dispatchCb t cb)
            | none => some (s.dispatchIdle t)
      | none =>
          match ft.cb with
          | some cb => some (s.dispatchCb t cb)
          | none => some (s.dispatchIdle t)
  | _ => none

/-- The assertion of `swapIn`. -/
def assertState (s : Sched ι) (t : ι) : Option (Sched ι) :=
  match s.pc t with
  | .swapIn j =>
      if (s.fibers (j.ref t)).m_state = .exec then some (s.fail .swapInExec)
      else some (s.goto t (.setExec j))
  | _ => none

/-- `m_state = EXEC` and the switch to where the fiber was left. -/
def setExec (s : Sched ι) (t : ι) : Option (Sched ι) :=
  match s.pc t with
  | .setExec j =>
      let s' := s.put (j.ref t) ((s.fibers (j.ref t)).setState .exec)
      if (s.fibers (j.ref t)).m_ctx = .ended then some (s'.fail .neverReach)
      else some (s'.goto t (.inside j))
  | _ => none

/-- The code inside a fiber up to its `swapOut`.  An idle function leaves by a bare `swapOut` or
ends; without a callback the call in `MainFunc` throws. -/
def move (s : Sched ι) (t : ι) (m : Move) : Option (Sched ι) :=
  match s.pc t with
  | .inside j =>
      let r := j.ref t
      let f := s.fibers r
      match m with
      | .yieldToReady =>
          if j ≠ .idle ∧ f.m_cb.isSome then
            some ((s.put r (f.setState .ready)).goto t (.leaving j .atReady))
          else none
      | .yieldToHold =>
          if j ≠ .idle ∧ f.m_cb.isSome then
            if f.m_state = .exec then some (s.goto t (.leaving j .atHold))
            else some (s.fail .yieldNotExec)
          else none
      | .swapOut => if j = .idle then some (s.goto t (.leaving j .atHold)) else none
      | .finish =>
          if f.m_cb.isSome then some ((s.put r f.finish).goto t (.leaving j .ended)) else none
      | .throw => some ((s.put r (f.setState .except)).goto t (.leaving j .ended))
  | _ => none

/-- The switch back to the resumer saves where the fiber is. -/
def switchBack (s : Sched ι) (t : ι) : Option (Sched ι) :=
  match s.pc t with
  | .leaving j c => some ((s.put (j.ref t) ((s.fibers (j.ref t)).save c)).goto t (.post j))
  | _ => none

/-- What the callback branch does for the state it reads. -/
def callbackTodo (st : State) : Settle :=
  if st = .ready then .requeue else if st = .except ∨ st = .term then .recycle else .hold

/-- The post-switch test of the state. -/
def readState (s : Sched ι) (t : ι) : Option (Sched ι) :=
  match s.pc t with
  | .post (.direct _) => some (s.goto t .outside)
  | .post (.fiber _) => some (s.goto t .scan)
  | .post (.callback f) => some (s.goto t (.settle (.callback f) (callbackTodo (s.state f))))
  | .post .idle =>
      let st := (s.fibers (.idle t)).m_state
      if st ≠ .term ∧ st ≠ .except then some (s.goto t (.settle .idle .hold))
      else some (s.goto t .scan)
  | _ => none

/-- The post-switch write. -/
def settle (s : Sched ι) (t : ι) : Option (Sched ι) :=
  match s.pc t with
  | .settle j .requeue =>
      match j with
      | .callback f => some (((s.push ⟨some f, none, -1⟩).setCb t none).goto t .scan)
      | _ => none
  | .settle j .recycle =>
      match (s.fibers (j.ref t)).reset none with
      | none => some (s.fail .resetBusy)
      | some g => some ((s.put (j.ref t) g).goto t .scan)
  | .settle j .hold =>
      let s' := s.put (j.ref t) ((s.fibers (j.ref t)).setState .hold)
      some ((if j = .idle then s' else s'.setCb t none).goto t .scan)
  | _ => none

/-- A direct `swapIn` of a fiber by a thread outside `run`. -/
def swapIn (s : Sched ι) (t : ι) (f : Nat) : Option (Sched ι) :=
  match s.pc t with
  | .outside => if f < s.nextFiber then some (s.goto t (.swapIn (.direct f))) else none
  | _ => none

/-- `schedule`, of a fiber that exists or a callback. -/
def schedule (s : Sched ι) (ft : FiberAndThread) : Option (Sched ι) :=
  if ft.fiber.all (· < s.nextFiber) then some (s.push ft) else none

end Sched

/-- No task, no fiber, and every thread outside `run`. -/
def Sched.initial : Sched ι :=
  ⟨[], fun _ => .new none, 0, fun _ => .outside, fun _ => none, none⟩

/-- A scheduler whose thread `t` has the id `tid t`. -/
def scheduler [DecidableEq ι] (tid : ι → Int) : Lib.System (Sched ι) (Act ι) where
  init s := s = .initial
  step s a :=
    if s.fault.isSome then none
    else
      match a with
      | .enterRun t => s.enterRun t
      | .scan t => s.scan tid t
      | .dispatch t => s.dispatch t
      | .assertState t => s.assertState t
      | .setExec t => s.setExec t
      | .move t m => s.move t m
      | .switchBack t => s.switchBack t
      | .readState t => s.readState t
      | .settle t => s.settle t
      | .schedule ft => s.schedule ft
      | .newFiber cb => some (s.alloc cb)
      | .swapIn t f => s.swapIn t f

/-! ## What a step can do -/

namespace Sched

section Frame

variable [DecidableEq ι] (s : Sched ι) (t u : ι) (r q : Ref ι) (g : Fiber) (pc : Pc)
  (o : Option Nat) (cb : Option Callback)

@[simp, grind =] theorem goto_pc : (s.goto t pc).pc u = if u = t then pc else s.pc u :=
  Function.update_apply ..
@[simp, grind =] theorem goto_fibers : (s.goto t pc).fibers q = s.fibers q := rfl
@[simp, grind =] theorem goto_queue : (s.goto t pc).m_fibers = s.m_fibers := rfl
@[simp, grind =] theorem goto_next : (s.goto t pc).nextFiber = s.nextFiber := rfl
@[simp, grind =] theorem goto_cb : (s.goto t pc).cb_fiber u = s.cb_fiber u := rfl
@[simp, grind =] theorem goto_fault : (s.goto t pc).fault = s.fault := rfl
@[simp, grind =] theorem put_pc : (s.put r g).pc u = s.pc u := rfl
@[simp, grind =] theorem put_fibers :
    (s.put r g).fibers q = if q = r then g else s.fibers q := Function.update_apply ..
@[simp, grind =] theorem put_queue : (s.put r g).m_fibers = s.m_fibers := rfl
@[simp, grind =] theorem put_next : (s.put r g).nextFiber = s.nextFiber := rfl
@[simp, grind =] theorem put_cb : (s.put r g).cb_fiber u = s.cb_fiber u := rfl
@[simp, grind =] theorem put_fault : (s.put r g).fault = s.fault := rfl
@[simp, grind =] theorem setCb_pc : (s.setCb t o).pc u = s.pc u := rfl
@[simp, grind =] theorem setCb_fibers : (s.setCb t o).fibers q = s.fibers q := rfl
@[simp, grind =] theorem setCb_queue : (s.setCb t o).m_fibers = s.m_fibers := rfl
@[simp, grind =] theorem setCb_next : (s.setCb t o).nextFiber = s.nextFiber := rfl
@[simp, grind =] theorem setCb_cb :
    (s.setCb t o).cb_fiber u = if u = t then o else s.cb_fiber u := Function.update_apply ..
@[simp, grind =] theorem setCb_fault : (s.setCb t o).fault = s.fault := rfl
@[simp, grind =] theorem alloc_pc : (s.alloc cb).pc u = s.pc u := rfl
@[simp, grind =] theorem alloc_fibers : (s.alloc cb).fibers q
    = if q = .shared s.nextFiber then .new cb else s.fibers q := Function.update_apply ..
@[simp, grind =] theorem alloc_queue : (s.alloc cb).m_fibers = s.m_fibers := rfl
@[simp, grind =] theorem alloc_next : (s.alloc cb).nextFiber = s.nextFiber + 1 := rfl
@[simp, grind =] theorem alloc_cb : (s.alloc cb).cb_fiber u = s.cb_fiber u := rfl
@[simp, grind =] theorem alloc_fault : (s.alloc cb).fault = s.fault := rfl

end Frame

section Push

variable (s : Sched ι) (e : Fault) (ft : FiberAndThread) (u : ι) (q : Ref ι)

@[simp, grind =] theorem fail_pc : (s.fail e).pc u = s.pc u := rfl
@[simp, grind =] theorem fail_fibers : (s.fail e).fibers q = s.fibers q := rfl
@[simp, grind =] theorem fail_queue : (s.fail e).m_fibers = s.m_fibers := rfl
@[simp, grind =] theorem fail_next : (s.fail e).nextFiber = s.nextFiber := rfl
@[simp, grind =] theorem fail_cb : (s.fail e).cb_fiber u = s.cb_fiber u := rfl
@[simp, grind =] theorem fail_fault : (s.fail e).fault = some e := rfl
@[simp, grind =] theorem push_pc : (s.push ft).pc u = s.pc u := rfl
@[simp, grind =] theorem push_fibers : (s.push ft).fibers q = s.fibers q := rfl
@[simp, grind =] theorem push_next : (s.push ft).nextFiber = s.nextFiber := rfl
@[simp, grind =] theorem push_cb : (s.push ft).cb_fiber u = s.cb_fiber u := rfl
@[simp, grind =] theorem push_fault : (s.push ft).fault = s.fault := rfl

end Push

/-- `schedule(begin, end)` is one `schedule` after the other. -/
theorem pushAll_cons (s : Sched ι) (ft : FiberAndThread) (fts : List FiberAndThread) :
    s.pushAll (ft :: fts) = (s.push ft).pushAll fts := rfl

/-- How a move leaves the fiber `f` of job `j`: as `g`, to continue at `c`. -/
inductive Leaves (j : Job) (f : Fiber) : Move → Fiber → Ctx → Prop
  | ready : j ≠ .idle → Leaves j f .yieldToReady (f.setState .ready) .atReady
  | hold : j ≠ .idle → f.m_state = .exec → Leaves j f .yieldToHold f .atHold
  | idle : j = .idle → Leaves j f .swapOut f .atHold
  | finish : Leaves j f .finish f.finish .ended
  | throw : Leaves j f .throw (f.setState .except) .ended

variable [DecidableEq ι]

/-- **What each step does**, with what is known before it. -/
inductive Steps (tid : ι → Int) (s : Sched ι) : Act ι → Sched ι → Prop
  | enterRun {t} : s.pc t = .outside →
      Steps tid s (.enterRun t) (((s.put (.idle t) (.new (some 0))).setCb t none).goto t .scan)
  | scanFail {t} : s.pc t = .scan → Steps tid s (.scan t) (s.fail .emptyTask)
  | scanTook {t ft pre post tk} : s.pc t = .scan → s.m_fibers = pre ++ ft :: post →
      Eligible (tid t) s.state ft →
      Scheduler.scan (tid t) s.state s.m_fibers = some (some ft, pre ++ post, tk) →
      Steps tid s (.scan t) ({ s with m_fibers := pre ++ post }.goto t (.dispatch ft))
  | scanNone {t} : s.pc t = .scan → (∀ ft ∈ s.m_fibers, ¬ Eligible (tid t) s.state ft) →
      Steps tid s (.scan t) (s.goto t (.dispatch .empty))
  | fiber {t ft f} : s.pc t = .dispatch ft → ft.fiber = some f →
      Steps tid s (.dispatch t) (s.goto t (.swapIn (.fiber f)))
  | reuse {t ft cb f} : s.pc t = .dispatch ft → ft.fiber = none → ft.cb = some cb →
      s.cb_fiber t = some f → Fiber.Resettable (s.fibers (.shared f)).m_state →
      Steps tid s (.dispatch t)
        ((s.put (.shared f) (.new (some cb))).goto t (.swapIn (.callback f)))
  | reuseFail {t} : Steps tid s (.dispatch t) (s.fail .resetBusy)
  | fresh {t ft cb} : s.pc t = .dispatch ft → ft.fiber = none → ft.cb = some cb →
      Steps tid s (.dispatch t)
        (((s.alloc (some cb)).setCb t (some s.nextFiber)).goto t (.swapIn (.callback s.nextFiber)))
  | idle {t ft} : s.pc t = .dispatch ft → ft.fiber = none → ft.cb = none →
      (s.fibers (.idle t)).m_state ≠ .term → Steps tid s (.dispatch t) (s.goto t (.swapIn .idle))
  | finished {t ft} : s.pc t = .dispatch ft → ft.fiber = none → ft.cb = none →
      (s.fibers (.idle t)).m_state = .term → Steps tid s (.dispatch t) (s.goto t .finished)
  | assertFail {t j} : s.pc t = .swapIn j → (s.fibers (j.ref t)).m_state = .exec →
      Steps tid s (.assertState t) (s.fail .swapInExec)
  | assertPass {t j} : s.pc t = .swapIn j → (s.fibers (j.ref t)).m_state ≠ .exec →
      Steps tid s (.assertState t) (s.goto t (.setExec j))
  | never {t j} : s.pc t = .setExec j → (s.fibers (j.ref t)).m_ctx = .ended →
      Steps tid s (.setExec t)
        ((s.put (j.ref t) ((s.fibers (j.ref t)).setState .exec)).fail .neverReach)
  | exec {t j} : s.pc t = .setExec j → (s.fibers (j.ref t)).m_ctx ≠ .ended →
      Steps tid s (.setExec t)
        ((s.put (j.ref t) ((s.fibers (j.ref t)).setState .exec)).goto t (.inside j))
  | leave {t j m g c} : s.pc t = .inside j → Leaves j (s.fibers (j.ref t)) m g c →
      Steps tid s (.move t m) ((s.put (j.ref t) g).goto t (.leaving j c))
  | yieldFail {t} : Steps tid s (.move t .yieldToHold) (s.fail .yieldNotExec)
  | switchBack {t j c} : s.pc t = .leaving j c →
      Steps tid s (.switchBack t)
        ((s.put (j.ref t) ((s.fibers (j.ref t)).save c)).goto t (.post j))
  | done {t j pc} : s.pc t = .post j → (pc = .outside ∧ (∃ f, j = .direct f) ∨ pc = .scan) →
      (∀ f, j ≠ .callback f) → (j = .idle → Fiber.Ended (s.fibers (.idle t)).m_state) →
      Steps tid s (.readState t) (s.goto t pc)
  | callback {t f} : s.pc t = .post (.callback f) →
      Steps tid s (.readState t) (s.goto t (.settle (.callback f) (callbackTodo (s.state f))))
  | idleBack {t} : s.pc t = .post .idle → ¬ Fiber.Ended (s.fibers (.idle t)).m_state →
      Steps tid s (.readState t) (s.goto t (.settle .idle .hold))
  | requeue {t f} : s.pc t = .settle (.callback f) .requeue →
      Steps tid s (.settle t) (((s.push ⟨some f, none, -1⟩).setCb t none).goto t .scan)
  | recycle {t j} : s.pc t = .settle j .recycle →
      Fiber.Resettable (s.fibers (j.ref t)).m_state →
      Steps tid s (.settle t) ((s.put (j.ref t) (.new none)).goto t .scan)
  | recycleFail {t} : Steps tid s (.settle t) (s.fail .resetBusy)
  | hold {t j o} : s.pc t = .settle j .hold → (o = none ∨ o = s.cb_fiber t) →
      Steps tid s (.settle t)
        (((s.put (j.ref t) ((s.fibers (j.ref t)).setState .hold)).setCb t o).goto t .scan)
  | schedule {ft} : (∀ f, ft.fiber = some f → f < s.nextFiber) →
      Steps tid s (.schedule ft) (s.push ft)
  | newFiber {cb} : Steps tid s (.newFiber cb) (s.alloc cb)
  | swapIn {t f} : s.pc t = .outside → f < s.nextFiber →
      Steps tid s (.swapIn t f) (s.goto t (.swapIn (.direct f)))

variable {tid : ι → Int} {s s' : Sched ι} {t : ι}

theorem dispatchCb_steps {ft : FiberAndThread} {cb : Callback} (hpc : s.pc t = .dispatch ft)
    (hf : ft.fiber = none) (hcb : ft.cb = some cb) : Steps tid s (.dispatch t) (s.dispatchCb t cb) := by
  rw [dispatchCb]
  cases h : s.cb_fiber t with
  | none => exact .fresh hpc hf hcb
  | some f =>
      dsimp only
      cases hr : (s.fibers (.shared f)).reset (some cb) with
      | none => exact .reuseFail
      | some g =>
          obtain ⟨hres, rfl⟩ := Fiber.reset_eq_some.mp hr
          exact .reuse hpc hf hcb h hres

theorem dispatchIdle_steps {ft : FiberAndThread} (hpc : s.pc t = .dispatch ft)
    (hf : ft.fiber = none) (hcb : ft.cb = none) : Steps tid s (.dispatch t) (s.dispatchIdle t) := by
  rw [dispatchIdle]
  split
  · rename_i hst
    exact .finished hpc hf hcb hst
  · rename_i hst
    exact .idle hpc hf hcb hst

theorem dispatch_steps (h : s.dispatch t = some s') : Steps tid s (.dispatch t) s' := by
  simp only [dispatch] at h
  split at h
  · rename_i ft hpc
    cases hf : ft.fiber with
    | some f =>
        -- the guard of the source is true of every state
        have hguard : s.state f ≠ .term ∨ s.state f ≠ .except := by
          cases s.state f <;> simp
        simp only [hf, if_pos hguard, Option.some.injEq] at h
        exact h ▸ .fiber hpc hf
    | none =>
        cases hcb : ft.cb with
        | some cb =>
            simp only [hf, hcb, Option.some.injEq] at h
            exact h ▸ dispatchCb_steps hpc hf hcb
        | none =>
            simp only [hf, hcb, Option.some.injEq] at h
            exact h ▸ dispatchIdle_steps hpc hf hcb
  · cases h

theorem scan_steps (h : s.scan tid t = some s') : Steps tid s (.scan t) s' := by
  simp only [scan] at h
  split at h
  · rename_i hpc
    cases hq : Scheduler.scan (tid t) s.state s.m_fibers with
    | none =>
        simp only [hq, Option.some.injEq] at h
        exact h ▸ .scanFail hpc
    | some r =>
        obtain ⟨o, rest, tk⟩ := r
        simp only [hq, Option.some.injEq] at h
        subst h
        cases o with
        | none =>
            obtain ⟨rfl, hnone⟩ := scan_none hq
            exact .scanNone hpc hnone
        | some ft =>
            obtain ⟨hft, pre, post, hsplit, rfl, -⟩ := scan_took hq
            exact .scanTook hpc hsplit hft hq
  · cases h

theorem move_steps {m : Move} (h : s.move t m = some s') : Steps tid s (.move t m) s' := by
  simp only [move] at h
  split at h
  · rename_i j hpc
    have hself : s.put (j.ref t) (s.fibers (j.ref t)) = s := by
      simp only [put, Function.update_eq_self]
    cases m with
    | yieldToReady =>
        simp only at h
        split at h
        · rename_i hj
          exact Option.some.inj h ▸ .leave hpc (.ready hj.1)
        · cases h
    | yieldToHold =>
        simp only at h
        split at h
        · rename_i hj
          split at h
          · rename_i hexec
            have : Steps tid s _ _ := Steps.leave hpc (.hold hj.1 hexec)
            rw [hself] at this
            exact Option.some.inj h ▸ this
          · exact Option.some.inj h ▸ .yieldFail
        · cases h
    | swapOut =>
        simp only at h
        split at h
        · rename_i hj
          have : Steps tid s _ _ := Steps.leave hpc (.idle hj)
          rw [hself] at this
          exact Option.some.inj h ▸ this
        · cases h
    | finish =>
        simp only at h
        split at h
        · exact Option.some.inj h ▸ .leave hpc .finish
        · cases h
    | throw => exact Option.some.inj h ▸ .leave hpc .throw
  · cases h

theorem readState_steps (h : s.readState t = some s') : Steps tid s (.readState t) s' := by
  simp only [readState] at h
  split at h
  · rename_i f hpc
    exact Option.some.inj h ▸ .done hpc (.inl ⟨rfl, f, rfl⟩) (fun f h => by cases h)
      (fun h => by cases h)
  · rename_i f hpc
    exact Option.some.inj h ▸ .done hpc (.inr rfl) (fun f h => by cases h) (fun h => by cases h)
  · rename_i f hpc
    exact Option.some.inj h ▸ .callback hpc
  · rename_i hpc
    split at h
    · rename_i hst
      refine Option.some.inj h ▸ .idleBack hpc ?_
      simpa [Fiber.Ended, not_or] using hst
    · rename_i hst
      refine Option.some.inj h ▸ .done hpc (.inr rfl) (fun f h => by cases h) fun _ => ?_
      simp only [Fiber.Ended]
      by_contra hne
      exact hst (not_or.mp hne)
  · cases h

theorem settle_steps (h : s.settle t = some s') : Steps tid s (.settle t) s' := by
  simp only [settle] at h
  split at h
  · rename_i j hpc
    cases j with
    | callback f => exact Option.some.inj h ▸ .requeue hpc
    | direct | fiber | idle => cases h
  · rename_i j hpc
    cases hr : (s.fibers (j.ref t)).reset none with
    | none =>
        simp only [hr, Option.some.injEq] at h
        exact h ▸ .recycleFail
    | some g =>
        obtain ⟨hres, rfl⟩ := Fiber.reset_eq_some.mp hr
        simp only [hr, Option.some.injEq] at h
        exact h ▸ .recycle hpc hres
  · rename_i j hpc
    simp only [Option.some.injEq] at h
    subst h
    split
    · have : Steps tid s _ _ := Steps.hold hpc (.inr rfl)
      have hself : (s.put (j.ref t) ((s.fibers (j.ref t)).setState .hold)).setCb t (s.cb_fiber t)
          = s.put (j.ref t) ((s.fibers (j.ref t)).setState .hold) := by
        simp only [setCb, put, Function.update_eq_self]
      rwa [hself] at this
    · exact .hold hpc (.inl rfl)
  · cases h

/-- **The inversion lemma** every invariant of the scheduler goes through. -/
theorem steps {a : Act ι} (h : (scheduler tid).step s a = some s') :
    s.fault = none ∧ Steps tid s a s' := by
  simp only [scheduler] at h
  split at h
  · cases h
  · rename_i hfault
    refine ⟨by simpa using hfault, ?_⟩
    cases a with
    | enterRun t =>
        simp only [enterRun] at h
        split at h
        · rename_i hpc
          exact Option.some.inj h ▸ .enterRun hpc
        · cases h
    | scan t => exact scan_steps h
    | dispatch t => exact dispatch_steps h
    | assertState t =>
        simp only [assertState] at h
        split at h
        · rename_i j hpc
          split at h
          · rename_i hst
            exact Option.some.inj h ▸ .assertFail hpc hst
          · rename_i hst
            exact Option.some.inj h ▸ .assertPass hpc hst
        · cases h
    | setExec t =>
        simp only [setExec] at h
        split at h
        · rename_i j hpc
          split at h
          · rename_i hctx
            exact Option.some.inj h ▸ .never hpc hctx
          · rename_i hctx
            exact Option.some.inj h ▸ .exec hpc hctx
        · cases h
    | move t m => exact move_steps h
    | switchBack t =>
        simp only [switchBack] at h
        split at h
        · rename_i j c hpc
          exact Option.some.inj h ▸ .switchBack hpc
        · cases h
    | readState t => exact readState_steps h
    | settle t => exact settle_steps h
    | schedule ft =>
        simp only [schedule] at h
        split at h
        · rename_i hft
          refine Option.some.inj h ▸ .schedule fun f hf => ?_
          simpa [hf] using hft
        · cases h
    | newFiber cb => exact Option.some.inj h ▸ .newFiber
    | swapIn t f =>
        simp only [swapIn] at h
        split at h
        · rename_i hpc
          split at h
          · rename_i hlt
            exact Option.some.inj h ▸ .swapIn hpc hlt
          · cases h
        · cases h

/-! ## Every fiber named exists -/

end Sched

/-- The shared fiber a job is about. -/
@[grind]
def Job.fiber? : Job → Option Nat
  | .direct f | .fiber f | .callback f => some f
  | .idle => none

/-- The shared fiber a thread names at its program point. -/
@[grind]
def Pc.fiber? : Pc → Option Nat
  | .dispatch ft => ft.fiber
  | .swapIn j | .setExec j | .inside j | .leaving j _ | .post j | .settle j _ => j.fiber?
  | .outside | .scan | .finished => none

/-- The job a thread is at. -/
@[grind]
def Pc.job? : Pc → Option Job
  | .swapIn j | .setExec j | .inside j | .leaving j _ | .post j | .settle j _ => some j
  | .outside | .scan | .dispatch _ | .finished => none

namespace Sched

variable [DecidableEq ι] {tid : ι → Int} {s s' : Sched ι}

/-- What the queue, the locals and the program points name has been created, and the queue has no
empty entry. -/
structure WF (s : Sched ι) : Prop where
  queue : ∀ ft ∈ s.m_fibers, ∀ f, ft.fiber = some f → f < s.nextFiber
  cb : ∀ t f, s.cb_fiber t = some f → f < s.nextFiber
  pc : ∀ t f, (s.pc t).fiber? = some f → f < s.nextFiber
  nonEmpty : NonEmpty s.m_fibers

omit [DecidableEq ι] in
theorem mem_push {ft x : FiberAndThread} (h : x ∈ (s.push ft).m_fibers) :
    x ∈ s.m_fibers ∨ x = ft := by
  simp only [push, scheduleNoLock] at h
  split at h
  · simpa using h
  · exact .inl h

/-- What is queued was, or is queued by `run` behind a yield or by `schedule`. -/
theorem queue_back {a : Act ι} {ft : FiberAndThread} (h : Steps tid s a s')
    (hft : ft ∈ s'.m_fibers) : ft ∈ s.m_fibers ∨ a = .schedule ft ∨ ∃ t f, a = .settle t ∧
      s.pc t = .settle (.callback f) .requeue ∧ ft = ⟨some f, none, -1⟩ := by
  cases h with
  | @scanTook t x pre post tk hpc hsplit =>
      left
      rw [hsplit]
      rcases List.mem_append.mp (show ft ∈ pre ++ post from hft) with hx | hx
      · exact List.mem_append_left _ hx
      · exact List.mem_append_right _ (List.mem_cons_of_mem _ hx)
  | @requeue t f hpc =>
      rcases mem_push (show ft ∈ (s.push ⟨some f, none, -1⟩).m_fibers from hft) with hx | rfl
      · exact .inl hx
      · exact .inr (.inr ⟨t, f, rfl, hpc, rfl⟩)
  | @schedule x hx =>
      rcases mem_push hft with hold | rfl
      · exact .inl hold
      · exact .inr (.inl rfl)
  | _ => exact .inl hft

/-- What a thread has taken it had before, or its scan has just found for it. -/
theorem took_back {a : Act ι} {ft : FiberAndThread} {u : ι} (h : Steps tid s a s')
    (hu : s'.pc u = .dispatch ft) : s.pc u = .dispatch ft ∨ ft = .empty ∨
      ft ∈ s.m_fibers ∧ Eligible (tid u) s.state ft := by
  cases h with
  | @scanTook t x pre post tk hpc hsplit hx => grind
  | _ => grind

theorem nonEmpty_step {a : Act ι} (hs : NonEmpty s.m_fibers) (h : Steps tid s a s') :
    NonEmpty s'.m_fibers := by
  cases h with
  | @scanTook t ft pre post tk hpc hq hft hscan =>
      intro x hx
      rw [hq] at hs
      rcases List.mem_append.mp (show x ∈ pre ++ post from hx) with hx | hx
      · exact hs x (List.mem_append_left _ hx)
      · exact hs x (List.mem_append_right _ (List.mem_cons_of_mem _ hx))
  | @requeue t f => exact nonEmpty_schedule hs ⟨some f, none, -1⟩
  | @schedule ft => exact nonEmpty_schedule hs ft
  | _ => exact hs

/-- Entries are added by `schedule` and by the requeueing only. -/
theorem queued_step {a : Act ι} (hs : WF s) (h : Steps tid s a s') :
    ∀ ft ∈ s'.m_fibers, ∀ f, ft.fiber = some f → f < s'.nextFiber := by
  intro ft hft f hf
  have hq := hs.queue
  have hcb := hs.cb
  have hpc := hs.pc
  cases h <;> grind [mem_push]

/-- A `cb_fiber` is one of before, or new. -/
theorem local_step {a : Act ι} (hs : WF s) (h : Steps tid s a s') :
    ∀ t f, s'.cb_fiber t = some f → f < s'.nextFiber := by
  intro t f hf
  have hcb := hs.cb
  cases h <;> grind

/-- A program point takes its fiber from the queue or from a `cb_fiber`. -/
theorem place_step {a : Act ι} (hs : WF s) (h : Steps tid s a s') :
    ∀ t f, (s'.pc t).fiber? = some f → f < s'.nextFiber := by
  intro t f hf
  have hq := hs.queue
  have hcb := hs.cb
  have hpc := hs.pc
  cases h <;> grind [FiberAndThread.empty]

theorem wf_step {a : Act ι} (hs : WF s) (h : Steps tid s a s') : WF s' where
  queue := queued_step hs h
  cb := local_step hs h
  pc := place_step hs h
  nonEmpty := nonEmpty_step hs.nonEmpty h

theorem wf_of_reachable (hs : (scheduler tid).Reachable s) : WF s := by
  refine Lib.System.Reachable.invariant ?_ (fun s a s' hwf h => wf_step hwf (steps h).2) hs
  rintro s rfl
  exact ⟨fun _ h => (by cases h), fun _ _ h => (by cases h), fun _ _ h => (by cases h),
    fun _ h => (by cases h)⟩

end Sched

end Sylar.Scheduler
