/-
# Sylar.Worker.Pool — the threads of an `IOManager` (`sylar/iomanager.cpp` over `sylar/scheduler.cpp`).

`IOManager` overrides three functions of `Scheduler`: `tickle` writes a byte to a pipe if a thread is
idle, `stopping` reads the timer set, the queue and the event counter one after the other, and `idle`
polls.  A `Pool` is the scheduler's state with what these functions share: the two thread counters,
the pipe, the timer set, the registered events with their counter, and the stop flags.

A thread's place is its program point in `Sylar.Scheduler.Run` refined by a `Stage`: where it is in
`idle` or `stopping`, and whether the counter of its branch of `run` is up.  What a thread still has
to do for a `tickle()` call is kept apart (`Tickle`).  Every step of the scheduler that this manager
can take is a step of the pool (`Act.run`); the others are those of the overrides, and of the calls
other threads and running tasks make, which are in progress in any number.

`sched_of_reachable`: seen through `sched`, a run of the pool is a run of the scheduler.
-/
import Sylar.Scheduler.Run
import Sylar.Timers.TimeManager

namespace Sylar.Worker

open Scheduler (Callback FiberAndThread Sched Pc Job scheduleNoLock scheduleRange)
open Timers (TimeManager maxU64)
open Lib (guarded)

variable {ι : Type}

/-! ## Places -/

/-- Where a thread is, besides its program point. -/
inductive Stage
  /-- Nowhere else. -/
  | rest
  /-- Between the `++` and the `--` of the counter of its branch of `run`. -/
  | counted
  /-- In `stopping`, before `getNextTimer`. -/
  | timer
  /-- In `stopping`, before `Scheduler::stopping`. -/
  | queue
  /-- In `stopping`, before `m_pendingEventCount == 0`. -/
  | events
  /-- `stopping` has answered true, and `idle` is about to return. -/
  | stop
  /-- In `epoll_wait`. -/
  | blocked
  /-- Behind it; `tick` says that the pipe is among the events. -/
  | woken (tick : Bool)
  /-- Behind `listExpiredCb`. -/
  | expired (cbs : List (Option Callback)) (tick : Bool)
  /-- In the loop over the events. -/
  | handle (tick : Bool)
  /-- In the loop that reads the pipe. -/
  | drain
  /-- Behind `triggerEvent`, before `--m_pendingEventCount`. -/
  | triggered (tick : Bool)
  deriving DecidableEq, Repr

/-- What is left of a `tickle()` call. -/
inductive Tickle
  | none
  /-- All of it. -/
  | call
  /-- The `write`: `hasIdleThreads()` was true. -/
  | write
  deriving DecidableEq, Repr

/-- The state of an `IOManager` and its threads. -/
structure Pool (ι : Type) where
  sched : Sched ι
  stage : ι → Stage
  owes : ι → Tickle
  tm : TimeManager
  m_activeThreadCount : Nat
  m_idleThreadCount : Nat
  m_stopping : Bool
  m_autostop : Bool
  /-- The bytes in the tickle pipe. -/
  pipe : Nat
  m_pendingEventCount : Nat
  /-- What the registered events will schedule. -/
  events : List FiberAndThread
  /-- `addEvent` calls between `++m_pendingEventCount` and the write of `events`. -/
  adding : List FiberAndThread
  /-- `delEvent` calls between `--m_pendingEventCount` and the write of `events`. -/
  deleting : List FiberAndThread
  /-- `cancelEvent` and `cancelAll` calls between `triggerEvent` and `--m_pendingEventCount`. -/
  cancelling : Nat
  /-- `schedule` calls of other threads and of tasks, before their `tickle()`. -/
  owing : Nat
  /-- The same, before its `write`. -/
  writing : Nat
  /-- `tickle()` calls of `stop` and `onTimerInsertedAtFront`. -/
  notices : Nat
  /-- The same, before the `write`. -/
  noticeWrites : Nat

/-- A step of the pool. -/
inductive Act (ι : Type)
  /-- A step of `Scheduler::run`. -/
  | run (a : Scheduler.Act ι)
  /-- `++` and `--` of `m_activeThreadCount` or `m_idleThreadCount`. -/
  | count (t : ι)
  | uncount (t : ι)
  /-- The two halves of `tickle` on a worker. -/
  | tickleBy (t : ι)
  | writeBy (t : ι)
  /-- The three reads of `stopping`, and its call from `stop`. -/
  | callStopping (t : ι)
  | readTimer (t : ι) (now : UInt64)
  | readQueue (t : ι)
  | readEvents (t : ι)
  /-- `idle` from `epoll_wait` on. -/
  | wake (t : ι) (tick : Bool)
  | expire (t : ι) (now : UInt64) (tmp : Nat)
  | hand (t : ι)
  | tickled (t : ι)
  | drain (t : ι)
  | trigger (t : ι) (n : Nat)
  | decrement (t : ι)
  /-- `schedule`, from outside or from a task, and its `tickle`. -/
  | push (ft : FiberAndThread)
  | tickle
  | write
  /-- `stop`, and the `tickle` of a notice. -/
  | stop (threads : Nat)
  | notice
  | noticeWrite
  /-- A call on a timer. -/
  | timerCall (c : TimeManager.Call)
  /-- The two halves of `addEvent`, `delEvent` and `cancelEvent`. -/
  | beginAdd (ft : FiberAndThread)
  | endAdd (n : Nat)
  | beginDel (n : Nat)
  | endDel (n : Nat)
  | cancel (n : Nat)
  | cancelled
  deriving DecidableEq

namespace Pool

/-! ## Steps -/

/-- `hasIdleThreads`. -/
def hasIdleThreads (s : Pool ι) : Bool := 0 < s.m_idleThreadCount

/-- `Scheduler::stopping`; `m_mutex` keeps the queue as it is between its reads. -/
def schedStopping (s : Pool ι) : Bool :=
  s.m_autostop && s.m_stopping && s.sched.m_fibers.isEmpty && s.m_activeThreadCount == 0

/-- What the post-switch code is about to push. -/
def requeues (s : Pool ι) (t : ι) : Bool :=
  match s.sched.pc t with
  | .settle _ .requeue => true
  | _ => false

/-- `tickle_me` of the next scan of `t`. -/
def tickleMe (tid : ι → Int) (s : Pool ι) (t : ι) : Bool :=
  (Scheduler.scan (tid t) s.sched.state s.sched.m_fibers).any fun r => r.2.2

/-- The scheduler's steps this manager's threads take here.  `schedule` has its own steps (`push`),
and nobody calls `swapIn` from outside. -/
def Admits (s : Pool ι) : Scheduler.Act ι → Prop
  | .enterRun t => s.stage t = .rest
  | .scan t | .dispatch t | .readState t | .settle t => s.stage t = .rest ∧ s.owes t = .none
  | .assertState t | .setExec t | .switchBack t => s.stage t = .counted
  | .move t .swapOut => s.stage t = .handle false ∧ s.owes t = .none
  | .move t .finish => s.stage t = .counted ∨ s.stage t = .stop
  | .move t _ => s.stage t = .counted
  | .newFiber _ => True
  | .schedule _ | .swapIn _ _ => False

instance (s : Pool ι) : DecidablePred s.Admits
  | .enterRun t => inferInstanceAs (Decidable (s.stage t = .rest))
  | .scan t | .dispatch t | .readState t | .settle t =>
      inferInstanceAs (Decidable (s.stage t = .rest ∧ s.owes t = .none))
  | .assertState t | .setExec t | .switchBack t =>
      inferInstanceAs (Decidable (s.stage t = .counted))
  | .move t .swapOut => inferInstanceAs (Decidable (s.stage t = .handle false ∧ s.owes t = .none))
  | .move t .finish => inferInstanceAs (Decidable (s.stage t = .counted ∨ s.stage t = .stop))
  | .move t .yieldToReady | .move t .yieldToHold | .move t .throw =>
      inferInstanceAs (Decidable (s.stage t = .counted))
  | .newFiber _ => isTrue trivial
  | .schedule _ | .swapIn _ _ => isFalse id

variable [DecidableEq ι]

/-- Move thread `t` to a stage. -/
def goto (s : Pool ι) (t : ι) (st : Stage) : Pool ι :=
  { s with stage := Function.update s.stage t st }

/-- Assign what thread `t` owes. -/
def owe (s : Pool ι) (t : ι) (k : Tickle) : Pool ι := { s with owes := Function.update s.owes t k }

/-- The pool behind a step of the scheduler. -/
def behind (tid : ι → Int) (s : Pool ι) (a : Scheduler.Act ι) (sched : Sched ι) : Pool ι :=
  let s' := { s with sched := sched }
  match a with
  | .scan t => s'.owe t (if s.tickleMe tid t then .call else .none)
  | .settle t => s'.owe t (if s.requeues t && s.sched.m_fibers.isEmpty then .call else .none)
  | .setExec t => s'.goto t (if sched.pc t = .inside .idle then .timer else .counted)
  | .move t _ => s'.goto t .counted
  | _ => s'

/-- `stopping` answers false: `idle` goes on to `epoll_wait`, `stop` goes on. -/
def decline (s : Pool ι) (t : ι) : Pool ι :=
  s.goto t (if s.sched.pc t = .inside .idle then .blocked else .rest)

/-- `stopping` answers true. -/
def accept (s : Pool ι) (t : ι) : Pool ι :=
  s.goto t (if s.sched.pc t = .inside .idle then .stop else .rest)

/-- A `schedule` call by another thread: the push, and whether a `tickle()` is to come. -/
def schedule (s : Pool ι) (ft : FiberAndThread) : Option (Pool ι) :=
  (s.sched.schedule ft).map fun sched =>
    { s with sched := sched, owing := s.owing + (scheduleNoLock s.sched.m_fibers ft).2.toNat }

/-- The `schedule` of worker `t`. -/
def scheduleBy (s : Pool ι) (t : ι) (ft : FiberAndThread) : Option (Pool ι) :=
  (s.sched.schedule ft).map fun sched =>
    { s with sched := sched }.owe t
      (if (scheduleNoLock s.sched.m_fibers ft).2 then .call else .none)

/-- The entries of the callbacks `cbs`. -/
def entriesOf (cbs : List (Option Callback)) : List FiberAndThread :=
  cbs.map fun cb => ⟨none, cb, -1⟩

/-- `++` of the counter of the branch `j`. -/
def up (s : Pool ι) (j : Job) : Pool ι :=
  { s with
    m_idleThreadCount := if j = .idle then s.m_idleThreadCount + 1 else s.m_idleThreadCount
    m_activeThreadCount :=
      if j = .idle then s.m_activeThreadCount else s.m_activeThreadCount + 1 }

/-- `--` of the counter of the branch `j`. -/
def down (s : Pool ι) (j : Job) : Pool ι :=
  { s with
    m_idleThreadCount := if j = .idle then s.m_idleThreadCount - 1 else s.m_idleThreadCount
    m_activeThreadCount :=
      if j = .idle then s.m_activeThreadCount else s.m_activeThreadCount - 1 }

/-- One step; `none` when it is not enabled. -/
def step (tid : ι → Int) (s : Pool ι) : Act ι → Option (Pool ι)
  | .run a =>
      if s.Admits a then ((Scheduler.scheduler tid).step s.sched a).map (s.behind tid a) else none
  | .count t =>
      match s.sched.pc t with
      | .swapIn j => guarded (s.stage t = .rest) ((s.up j).goto t .counted)
      | _ => none
  | .uncount t =>
      match s.sched.pc t with
      | .post j => guarded (s.stage t = .counted) ((s.down j).goto t .rest)
      | _ => none
  | .tickleBy t =>
      guarded (s.owes t = .call) (s.owe t (if s.hasIdleThreads then .write else .none))
  | .writeBy t => guarded (s.owes t = .write) { s.owe t .none with pipe := s.pipe + 1 }
  | .callStopping t =>
      guarded (s.stage t = .rest ∧ (s.sched.pc t = .outside ∨ s.sched.pc t = .finished))
        (s.goto t .timer)
  | .readTimer t now =>
      let r := s.tm.getNextTimer now
      let s' := { s with tm := r.1 }
      guarded (s.stage t = .timer) (if r.2 = maxU64 then s'.goto t .queue else s'.decline t)
  | .readQueue t =>
      guarded (s.stage t = .queue) (if s.schedStopping then s.goto t .events else s.decline t)
  | .readEvents t =>
      guarded (s.stage t = .events)
        (if s.m_pendingEventCount = 0 then s.accept t else s.decline t)
  | .wake t tick =>
      guarded (s.stage t = .blocked ∧ (tick = true → 0 < s.pipe)) (s.goto t (.woken tick))
  | .expire t now tmp =>
      match s.stage t with
      | .woken tick =>
          let r := s.tm.listExpiredCb now tmp
          some ({ s with tm := r.1 }.goto t (.expired r.2 tick))
      | _ => none
  | .hand t =>
      match s.stage t with
      | .expired cbs tick =>
          let s' := { s with sched := s.sched.pushAll (entriesOf cbs) }
          some ((s'.goto t (.handle tick)).owe t
            (if (scheduleRange s.sched.m_fibers (entriesOf cbs)).2 then .call else .none))
      | _ => none
  | .tickled t => guarded (s.stage t = .handle true ∧ s.owes t = .none) (s.goto t .drain)
  | .drain t =>
      guarded (s.stage t = .drain)
        (if 0 < s.pipe then { s with pipe := s.pipe - 1 } else s.goto t (.handle false))
  | .trigger t n =>
      match s.stage t, s.events[n]? with
      | .handle tick, some ft =>
          if s.owes t = .none then
            ({ s with events := s.events.eraseIdx n }.goto t (.triggered tick)).scheduleBy t ft
          else none
      | _, _ => none
  | .decrement t =>
      match s.stage t with
      | .triggered tick =>
          guarded (s.owes t = .none)
            ({ s with m_pendingEventCount := s.m_pendingEventCount - 1 }.goto t (.handle tick))
      | _ => none
  | .push ft => s.schedule ft
  | .tickle =>
      guarded (0 < s.owing)
        { s with owing := s.owing - 1, writing := s.writing + s.hasIdleThreads.toNat }
  | .write =>
      guarded (0 < s.writing) { s with writing := s.writing - 1, pipe := s.pipe + 1 }
  | .stop threads =>
      some { s with m_autostop := true, m_stopping := true, notices := s.notices + threads }
  | .notice =>
      guarded (0 < s.notices)
        { s with notices := s.notices - 1
                 noticeWrites := s.noticeWrites + s.hasIdleThreads.toNat }
  | .noticeWrite =>
      guarded (0 < s.noticeWrites)
        { s with noticeWrites := s.noticeWrites - 1, pipe := s.pipe + 1 }
  | .timerCall c =>
      (s.tm.call c).map fun r => { s with tm := r.1, notices := s.notices + r.2.toNat }
  | .beginAdd ft =>
      guarded (ft.fiber.all (· < s.sched.nextFiber) = true)
        { s with m_pendingEventCount := s.m_pendingEventCount + 1, adding := s.adding ++ [ft] }
  | .endAdd n =>
      (s.adding[n]?).map fun ft =>
        { s with adding := s.adding.eraseIdx n, events := s.events ++ [ft] }
  | .beginDel n =>
      (s.events[n]?).map fun ft =>
        { s with m_pendingEventCount := s.m_pendingEventCount - 1
                 events := s.events.eraseIdx n
                 deleting := s.deleting ++ [ft] }
  | .endDel n =>
      guarded (n < s.deleting.length) { s with deleting := s.deleting.eraseIdx n }
  | .cancel n =>
      (s.events[n]?).bind fun ft =>
        { s with events := s.events.eraseIdx n, cancelling := s.cancelling + 1 }.schedule ft
  | .cancelled =>
      guarded (0 < s.cancelling)
        { s with cancelling := s.cancelling - 1
                 m_pendingEventCount := s.m_pendingEventCount - 1 }

/-- A new manager, at any clock reading. -/
def initial (now : UInt64) : Pool ι :=
  { sched := .initial, stage := fun _ => .rest, owes := fun _ => .none, tm := .new now
    m_activeThreadCount := 0, m_idleThreadCount := 0, m_stopping := true, m_autostop := false
    pipe := 0, m_pendingEventCount := 0, events := [], adding := [], deleting := []
    cancelling := 0, owing := 0, writing := 0, notices := 0, noticeWrites := 0 }

end Pool

/-- The threads of an `IOManager`, the id of `t` being `tid t`. -/
def pool [DecidableEq ι] (tid : ι → Int) : Lib.System (Pool ι) (Act ι) where
  init s := ∃ now, s = .initial now
  step s a := if s.sched.fault.isSome then none else s.step tid a

/-! ## What a step can do -/

namespace Pool

section Frame

variable [DecidableEq ι] (s : Pool ι) (t u : ι) (st : Stage) (k : Tickle) (j : Job)

@[simp, grind =] theorem goto_stage : (s.goto t st).stage u = if u = t then st else s.stage u :=
  Function.update_apply ..
@[simp, grind =] theorem owe_owes : (s.owe t k).owes u = if u = t then k else s.owes u :=
  Function.update_apply ..
@[simp, grind =] theorem goto_sched : (s.goto t st).sched = s.sched := rfl
@[simp, grind =] theorem goto_pipe : (s.goto t st).pipe = s.pipe := rfl
@[simp, grind =] theorem goto_owing : (s.goto t st).owing = s.owing := rfl
@[simp, grind =] theorem goto_writing : (s.goto t st).writing = s.writing := rfl
@[simp, grind =] theorem goto_tm : (s.goto t st).tm = s.tm := rfl
@[simp, grind =] theorem goto_active :
    (s.goto t st).m_activeThreadCount = s.m_activeThreadCount := rfl
@[simp, grind =] theorem goto_pending :
    (s.goto t st).m_pendingEventCount = s.m_pendingEventCount := rfl
@[simp, grind =] theorem goto_autostop : (s.goto t st).m_autostop = s.m_autostop := rfl
@[simp, grind =] theorem goto_events : (s.goto t st).events = s.events := rfl
@[simp, grind =] theorem goto_adding : (s.goto t st).adding = s.adding := rfl
@[simp, grind =] theorem goto_cancelling : (s.goto t st).cancelling = s.cancelling := rfl
@[simp, grind =] theorem owe_stage : (s.owe t k).stage u = s.stage u := rfl
@[simp, grind =] theorem owe_sched : (s.owe t k).sched = s.sched := rfl
@[simp, grind =] theorem owe_pipe : (s.owe t k).pipe = s.pipe := rfl
@[simp, grind =] theorem owe_owing : (s.owe t k).owing = s.owing := rfl
@[simp, grind =] theorem owe_writing : (s.owe t k).writing = s.writing := rfl
@[simp, grind =] theorem owe_tm : (s.owe t k).tm = s.tm := rfl
@[simp, grind =] theorem owe_active :
    (s.owe t k).m_activeThreadCount = s.m_activeThreadCount := rfl
@[simp, grind =] theorem owe_pending :
    (s.owe t k).m_pendingEventCount = s.m_pendingEventCount := rfl
@[simp, grind =] theorem owe_autostop : (s.owe t k).m_autostop = s.m_autostop := rfl
@[simp, grind =] theorem owe_events : (s.owe t k).events = s.events := rfl
@[simp, grind =] theorem owe_adding : (s.owe t k).adding = s.adding := rfl
@[simp, grind =] theorem owe_cancelling : (s.owe t k).cancelling = s.cancelling := rfl

end Frame

section Counters

variable (s : Pool ι) (j : Job) (u : ι)

@[simp, grind =] theorem up_stage : (s.up j).stage u = s.stage u := rfl
@[simp, grind =] theorem up_sched : (s.up j).sched = s.sched := rfl
@[simp, grind =] theorem up_autostop : (s.up j).m_autostop = s.m_autostop := rfl
@[simp, grind =] theorem down_autostop : (s.down j).m_autostop = s.m_autostop := rfl
@[simp, grind =] theorem down_stage : (s.down j).stage u = s.stage u := rfl
@[simp, grind =] theorem down_sched : (s.down j).sched = s.sched := rfl

end Counters

variable [DecidableEq ι]

/-- **What each step does**, with what is known before it.  What a worker owes for a `tickle()` is
left open. -/
inductive Steps (tid : ι → Int) (s : Pool ι) : Act ι → Pool ι → Prop
  | run {a sched} : s.Admits a → (Scheduler.scheduler tid).step s.sched a = some sched →
      Steps tid s (.run a) (s.behind tid a sched)
  | count {t j} : s.sched.pc t = .swapIn j → s.stage t = .rest →
      Steps tid s (.count t) ((s.up j).goto t .counted)
  | uncount {t j} : s.sched.pc t = .post j → s.stage t = .counted →
      Steps tid s (.uncount t) ((s.down j).goto t .rest)
  | tickleBy {t k} : Steps tid s (.tickleBy t) (s.owe t k)
  | writeBy {t} : Steps tid s (.writeBy t) { s.owe t .none with pipe := s.pipe + 1 }
  | callStopping {t} : s.stage t = .rest →
      (s.sched.pc t = .outside ∨ s.sched.pc t = .finished) →
      Steps tid s (.callStopping t) (s.goto t .timer)
  | noTimer {t now} : s.stage t = .timer → (s.tm.getNextTimer now).2 = maxU64 →
      Steps tid s (.readTimer t now) ({ s with tm := (s.tm.getNextTimer now).1 }.goto t .queue)
  | someTimer {t now} : s.stage t = .timer →
      Steps tid s (.readTimer t now) ({ s with tm := (s.tm.getNextTimer now).1 }.decline t)
  | noTask {t} : s.stage t = .queue → s.schedStopping = true →
      Steps tid s (.readQueue t) (s.goto t .events)
  | someTask {t} : s.stage t = .queue → Steps tid s (.readQueue t) (s.decline t)
  | noEvent {t} : s.stage t = .events → s.m_pendingEventCount = 0 →
      Steps tid s (.readEvents t) (s.accept t)
  | someEvent {t} : s.stage t = .events → Steps tid s (.readEvents t) (s.decline t)
  | wake {t tick} : s.stage t = .blocked → Steps tid s (.wake t tick) (s.goto t (.woken tick))
  | expire {t now tmp tick} : s.stage t = .woken tick →
      Steps tid s (.expire t now tmp) ({ s with tm := (s.tm.listExpiredCb now tmp).1 }.goto t
        (.expired (s.tm.listExpiredCb now tmp).2 tick))
  | hand {t cbs tick k} : s.stage t = .expired cbs tick →
      Steps tid s (.hand t)
        (({ s with sched := s.sched.pushAll (entriesOf cbs) }.goto t (.handle tick)).owe t k)
  | tickled {t} : s.stage t = .handle true → Steps tid s (.tickled t) (s.goto t .drain)
  | drain {t} : s.stage t = .drain → Steps tid s (.drain t) { s with pipe := s.pipe - 1 }
  | drained {t} : s.stage t = .drain → Steps tid s (.drain t) (s.goto t (.handle false))
  | trigger {t n tick ft k} : s.stage t = .handle tick → s.events[n]? = some ft →
      (∀ f, ft.fiber = some f → f < s.sched.nextFiber) →
      Steps tid s (.trigger t n) ({ s.goto t (.triggered tick) with
        sched := s.sched.push ft, events := s.events.eraseIdx n }.owe t k)
  | decrement {t tick} : s.stage t = .triggered tick →
      Steps tid s (.decrement t)
        ({ s with m_pendingEventCount := s.m_pendingEventCount - 1 }.goto t (.handle tick))
  | push {ft} : (∀ f, ft.fiber = some f → f < s.sched.nextFiber) →
      Steps tid s (.push ft) { s with
        sched := s.sched.push ft, owing := s.owing + s.sched.m_fibers.isEmpty.toNat }
  | tickle : 0 < s.owing → Steps tid s .tickle
      { s with owing := s.owing - 1, writing := s.writing + s.hasIdleThreads.toNat }
  | write : Steps tid s .write { s with writing := s.writing - 1, pipe := s.pipe + 1 }
  | stop {n} : Steps tid s (.stop n)
      { s with m_autostop := true, m_stopping := true, notices := s.notices + n }
  | notice : Steps tid s .notice
      { s with notices := s.notices - 1
               noticeWrites := s.noticeWrites + s.hasIdleThreads.toNat }
  | noticeWrite : Steps tid s .noticeWrite
      { s with noticeWrites := s.noticeWrites - 1, pipe := s.pipe + 1 }
  | timerCall {c tm front} : s.tm.call c = some (tm, front) →
      Steps tid s (.timerCall c) { s with tm := tm, notices := s.notices + front.toNat }
  | beginAdd {ft} : Steps tid s (.beginAdd ft)
      { s with m_pendingEventCount := s.m_pendingEventCount + 1, adding := s.adding ++ [ft] }
  | endAdd {n ft} : s.adding[n]? = some ft → Steps tid s (.endAdd n)
      { s with adding := s.adding.eraseIdx n, events := s.events ++ [ft] }
  | beginDel {n ft} : s.events[n]? = some ft → Steps tid s (.beginDel n)
      { s with m_pendingEventCount := s.m_pendingEventCount - 1
               events := s.events.eraseIdx n
               deleting := s.deleting ++ [ft] }
  | endDel {n} : Steps tid s (.endDel n) { s with deleting := s.deleting.eraseIdx n }
  | cancel {n ft} : s.events[n]? = some ft → (∀ f, ft.fiber = some f → f < s.sched.nextFiber) →
      Steps tid s (.cancel n) { s with
        sched := s.sched.push ft, owing := s.owing + s.sched.m_fibers.isEmpty.toNat
        events := s.events.eraseIdx n, cancelling := s.cancelling + 1 }
  | cancelled : 0 < s.cancelling → Steps tid s .cancelled
      { s with cancelling := s.cancelling - 1
               m_pendingEventCount := s.m_pendingEventCount - 1 }

variable {tid : ι → Int} {s s' : Pool ι}

omit [DecidableEq ι] in
/-- A `schedule` that goes through pushes its entry. -/
theorem schedule_eq_some {q q' : Sched ι} {ft : FiberAndThread} :
    q.schedule ft = some q' ↔ (∀ f, ft.fiber = some f → f < q.nextFiber) ∧ q' = q.push ft := by
  unfold Sched.schedule
  cases hf : ft.fiber with
  | none => simp [eq_comm]
  | some f => simp [eq_comm]

/-- The steps of `idle`'s loop over the events that trigger one. -/
theorem trigger_steps {t : ι} {n : Nat} (h : s.step tid (.trigger t n) = some s') :
    Steps tid s (.trigger t n) s' := by
  simp only [step] at h
  split at h
  · rename_i tick ft hst hev
    split at h
    · simp only [scheduleBy, goto_sched, Option.map_eq_some_iff, schedule_eq_some] at h
      obtain ⟨_, ⟨hf, rfl⟩, rfl⟩ := h
      exact .trigger hst hev hf
    · cases h
  · cases h

theorem read_steps {t : ι} {now : UInt64} (h : s.step tid (.readTimer t now) = some s') :
    Steps tid s (.readTimer t now) s' := by
  simp only [step, Lib.guarded_eq_some] at h
  obtain ⟨hst, rfl⟩ := h
  split
  · rename_i hmax
    exact .noTimer hst hmax
  · exact .someTimer hst

omit [DecidableEq ι] in
/-- The second read of `stopping` asks for `m_autostop`. -/
theorem autostop_of_schedStopping (h : s.schedStopping = true) : s.m_autostop = true := by
  unfold schedStopping at h
  simp only [Bool.and_eq_true] at h
  exact h.1.1.1

theorem run_steps {a : Scheduler.Act ι} (h : s.step tid (.run a) = some s') :
    Steps tid s (.run a) s' := by
  simp only [step] at h
  split at h
  · rename_i ha
    obtain ⟨sched, hs, rfl⟩ := Option.map_eq_some_iff.mp h
    exact .run ha hs
  · cases h

theorem count_steps {t : ι} (h : s.step tid (.count t) = some s') : Steps tid s (.count t) s' := by
  simp only [step] at h
  split at h
  · rename_i j hpc
    obtain ⟨hst, rfl⟩ := Lib.guarded_eq_some.mp h
    exact .count hpc hst
  · cases h

theorem uncount_steps {t : ι} (h : s.step tid (.uncount t) = some s') :
    Steps tid s (.uncount t) s' := by
  simp only [step] at h
  split at h
  · rename_i j hpc
    obtain ⟨hst, rfl⟩ := Lib.guarded_eq_some.mp h
    exact .uncount hpc hst
  · cases h

theorem readQueue_steps {t : ι} (h : s.step tid (.readQueue t) = some s') :
    Steps tid s (.readQueue t) s' := by
  obtain ⟨hst, rfl⟩ := Lib.guarded_eq_some.mp h
  split
  · rename_i hq
    exact .noTask hst hq
  · exact .someTask hst

theorem readEvents_steps {t : ι} (h : s.step tid (.readEvents t) = some s') :
    Steps tid s (.readEvents t) s' := by
  obtain ⟨hst, rfl⟩ := Lib.guarded_eq_some.mp h
  split
  · rename_i hp
    exact .noEvent hst hp
  · exact .someEvent hst

theorem expire_steps {t : ι} {now : UInt64} {tmp : Nat}
    (h : s.step tid (.expire t now tmp) = some s') : Steps tid s (.expire t now tmp) s' := by
  simp only [step] at h
  split at h
  · rename_i tick hst
    exact Option.some.inj h ▸ .expire hst
  · cases h

theorem hand_steps {t : ι} (h : s.step tid (.hand t) = some s') : Steps tid s (.hand t) s' := by
  simp only [step] at h
  split at h
  · rename_i cbs tick hst
    exact Option.some.inj h ▸ .hand hst
  · cases h

theorem drain_steps {t : ι} (h : s.step tid (.drain t) = some s') : Steps tid s (.drain t) s' := by
  obtain ⟨hst, rfl⟩ := Lib.guarded_eq_some.mp h
  split
  · exact .drain hst
  · exact .drained hst

theorem decrement_steps {t : ι} (h : s.step tid (.decrement t) = some s') :
    Steps tid s (.decrement t) s' := by
  simp only [step] at h
  split at h
  · rename_i tick hst
    obtain ⟨-, rfl⟩ := Lib.guarded_eq_some.mp h
    exact .decrement hst
  · cases h

theorem push_steps {ft : FiberAndThread} (h : s.step tid (.push ft) = some s') :
    Steps tid s (.push ft) s' := by
  simp only [step, schedule, Option.map_eq_some_iff, schedule_eq_some] at h
  obtain ⟨_, ⟨hf, rfl⟩, rfl⟩ := h
  exact .push hf

theorem cancel_steps {n : Nat} (h : s.step tid (.cancel n) = some s') :
    Steps tid s (.cancel n) s' := by
  obtain ⟨ft, hft, hs⟩ := Option.bind_eq_some_iff.mp h
  simp only [schedule, Option.map_eq_some_iff, schedule_eq_some] at hs
  obtain ⟨_, ⟨hf, rfl⟩, rfl⟩ := hs
  exact .cancel hft hf

/-- **The inversion lemma** every invariant of the pool goes through. -/
theorem steps {a : Act ι} (h : (pool tid).step s a = some s') :
    s.sched.fault = none ∧ Steps tid s a s' := by
  simp only [pool] at h
  split at h
  · cases h
  rename_i hfault
  refine ⟨by simpa using hfault, ?_⟩
  cases a with
  | trigger t n => exact trigger_steps h
  | readTimer t now => exact read_steps h
  | run a => exact run_steps h
  | count t => exact count_steps h
  | uncount t => exact uncount_steps h
  | readQueue t => exact readQueue_steps h
  | readEvents t => exact readEvents_steps h
  | expire t now tmp => exact expire_steps h
  | hand t => exact hand_steps h
  | drain t => exact drain_steps h
  | decrement t => exact decrement_steps h
  | push ft => exact push_steps h
  | cancel n => exact cancel_steps h
  | tickleBy t =>
      obtain ⟨-, rfl⟩ := Lib.guarded_eq_some.mp h
      exact .tickleBy
  | writeBy t =>
      obtain ⟨-, rfl⟩ := Lib.guarded_eq_some.mp h
      exact .writeBy
  | callStopping t =>
      obtain ⟨⟨hst, hpc⟩, rfl⟩ := Lib.guarded_eq_some.mp h
      exact .callStopping hst hpc
  | wake t tick =>
      obtain ⟨⟨hst, -⟩, rfl⟩ := Lib.guarded_eq_some.mp h
      exact .wake hst
  | tickled t =>
      obtain ⟨⟨hst, -⟩, rfl⟩ := Lib.guarded_eq_some.mp h
      exact .tickled hst
  | tickle =>
      obtain ⟨ho, rfl⟩ := Lib.guarded_eq_some.mp h
      exact .tickle ho
  | write =>
      obtain ⟨-, rfl⟩ := Lib.guarded_eq_some.mp h
      exact .write
  | stop n => exact Option.some.inj h ▸ .stop
  | notice =>
      obtain ⟨-, rfl⟩ := Lib.guarded_eq_some.mp h
      exact .notice
  | noticeWrite =>
      obtain ⟨-, rfl⟩ := Lib.guarded_eq_some.mp h
      exact .noticeWrite
  | timerCall c =>
      obtain ⟨⟨tm, front⟩, hc, rfl⟩ := Option.map_eq_some_iff.mp h
      exact .timerCall hc
  | beginAdd ft =>
      obtain ⟨-, rfl⟩ := Lib.guarded_eq_some.mp h
      exact .beginAdd
  | endAdd n =>
      obtain ⟨ft, hft, rfl⟩ := Option.map_eq_some_iff.mp h
      exact .endAdd hft
  | beginDel n =>
      obtain ⟨ft, hft, rfl⟩ := Option.map_eq_some_iff.mp h
      exact .beginDel hft
  | endDel n =>
      obtain ⟨-, rfl⟩ := Lib.guarded_eq_some.mp h
      exact .endDel
  | cancelled =>
      obtain ⟨hc, rfl⟩ := Lib.guarded_eq_some.mp h
      exact .cancelled hc

/-! ## The scheduler inside -/

/-- A `schedule` is a step of the scheduler. -/
theorem push_reachable {q : Sched ι} {ft : FiberAndThread} (hfault : q.fault = none)
    (hf : ∀ f, ft.fiber = some f → f < q.nextFiber) (hq : (Scheduler.scheduler tid).Reachable q) :
    (Scheduler.scheduler tid).Reachable (q.push ft) := by
  have hstep : (Scheduler.scheduler tid).step q (.schedule ft) = some (q.push ft) := by
    show (if q.fault.isSome then none else q.schedule ft) = _
    rw [hfault]
    exact schedule_eq_some.mpr ⟨hf, rfl⟩
  exact .step hq trivial hstep

/-- So is each push of `schedule(begin, end)`. -/
theorem pushAll_reachable {cbs : List (Option Callback)} {q : Sched ι} (hfault : q.fault = none)
    (hq : (Scheduler.scheduler tid).Reachable q) :
    (Scheduler.scheduler tid).Reachable (q.pushAll (entriesOf cbs)) := by
  induction cbs generalizing q with
  | nil => exact hq
  | cons cb cbs ih =>
      rw [entriesOf, List.map_cons, Sched.pushAll_cons]
      exact ih hfault (push_reachable hfault (fun f hf => by cases hf) hq)

theorem behind_sched (a : Scheduler.Act ι) (sched : Sched ι) :
    (s.behind tid a sched).sched = sched := by
  cases a <;> rfl

theorem behind_autostop (a : Scheduler.Act ι) (sched : Sched ι) :
    (s.behind tid a sched).m_autostop = s.m_autostop := by
  cases a <;> rfl

theorem behind_active (a : Scheduler.Act ι) (sched : Sched ι) :
    (s.behind tid a sched).m_activeThreadCount = s.m_activeThreadCount := by
  cases a <;> rfl

theorem behind_pending (a : Scheduler.Act ι) (sched : Sched ι) :
    (s.behind tid a sched).m_pendingEventCount = s.m_pendingEventCount := by
  cases a <;> rfl

theorem behind_events (a : Scheduler.Act ι) (sched : Sched ι) :
    (s.behind tid a sched).events = s.events := by
  cases a <;> rfl

theorem behind_adding (a : Scheduler.Act ι) (sched : Sched ι) :
    (s.behind tid a sched).adding = s.adding := by
  cases a <;> rfl

theorem behind_cancelling (a : Scheduler.Act ι) (sched : Sched ι) :
    (s.behind tid a sched).cancelling = s.cancelling := by
  cases a <;> rfl

theorem behind_tm (a : Scheduler.Act ι) (sched : Sched ι) : (s.behind tid a sched).tm = s.tm := by
  cases a <;> rfl

/-- **Seen through `sched`, a run of the pool is a run of the scheduler**, so what holds in every run
of `Scheduler::run` holds here. -/
theorem sched_of_reachable (hs : (pool tid).Reachable s) :
    (Scheduler.scheduler tid).Reachable s.sched := by
  refine Lib.System.Reachable.invariant (P := fun s => (Scheduler.scheduler tid).Reachable s.sched)
    ?_ (fun s a s' ih h => ?_) hs
  · rintro s ⟨now, rfl⟩
    exact .init rfl
  · obtain ⟨hfault, h⟩ := steps h
    cases h with
    | run ha hstep =>
        rw [behind_sched]
        exact .step ih trivial hstep
    | hand hst => exact pushAll_reachable hfault ih
    | trigger hst hev hf => exact push_reachable hfault hf ih
    | push hf => exact push_reachable hfault hf ih
    | cancel hev hf => exact push_reachable hfault hf ih
    | _ => exact ih

theorem wf_of_reachable (hs : (pool tid).Reachable s) : Sched.WF s.sched :=
  Sched.wf_of_reachable (sched_of_reachable hs)

/-- Nobody resumes a fiber from outside `run`. -/
def NoDirect (s : Pool ι) : Prop := ∀ t f, (s.sched.pc t).job? ≠ some (.direct f)

theorem noDirect_run {a : Scheduler.Act ι} {sched : Sched ι} (ha : s.Admits a)
    (h : Sched.Steps tid s.sched a sched) (hs : s.NoDirect) :
    ∀ t f, (sched.pc t).job? ≠ some (.direct f) := by
  intro u f hu
  have hold := hs u f
  cases h with
  | swapIn => exact ha
  | _ => grind [Pc.job?, NoDirect]

theorem noDirect_of_reachable (hs : (pool tid).Reachable s) : s.NoDirect := by
  refine Lib.System.Reachable.invariant (P := NoDirect) ?_ (fun s a s' ih h => ?_) hs
  · rintro s ⟨now, rfl⟩ t f h
    cases h
  · obtain ⟨-, h⟩ := steps h
    cases h with
    | run ha hstep =>
        intro t f
        rw [behind_sched]
        exact noDirect_run ha (Sched.steps hstep).2 ih t f
    | _ => exact ih

/-- Between `++` and `--` of the counter of its branch, outside the loop of `idle`. -/
@[grind]
def Countable : Pc → Prop
  | .swapIn _ | .setExec _ | .leaving _ _ | .post _ => True
  | .inside j => j ≠ .idle
  | .outside | .scan | .dispatch _ | .settle _ _ | .finished => False

/-- Surely between the two. -/
@[grind]
def Counted : Pc → Prop
  | .setExec _ | .inside _ | .leaving _ _ => True
  | .outside | .scan | .dispatch _ | .swapIn _ | .post _ | .settle _ _ | .finished => False

/-- The program points a thread can be at, by its stage. -/
@[grind]
def Fits (pc : Pc) : Stage → Prop
  | .rest => ¬ Counted pc
  | .counted => Countable pc
  | .timer | .queue | .events => pc = .inside .idle ∨ pc = .outside ∨ pc = .finished
  | .stop | .blocked | .woken _ | .expired _ _ | .handle _ | .drain | .triggered _ =>
      pc = .inside .idle

theorem fits_run {a : Scheduler.Act ι} {sched : Sched ι} (ha : s.Admits a)
    (h : Sched.Steps tid s.sched a sched) (hs : ∀ t, Fits (s.sched.pc t) (s.stage t)) :
    ∀ t, Fits ((s.behind tid a sched).sched.pc t) ((s.behind tid a sched).stage t) := by
  intro u
  have hold := hs u
  cases h with
  | schedule | swapIn => exact ha.elim
  | _ => grind [behind, Admits]

theorem fits_step {a : Act ι} (h : Steps tid s a s')
    (hs : ∀ t, Fits (s.sched.pc t) (s.stage t)) : ∀ t, Fits (s'.sched.pc t) (s'.stage t) := by
  cases h with
  | run ha hstep => exact fits_run ha (Sched.steps hstep).2 hs
  | _ =>
      intro u
      have hold := hs u
      grind [decline, accept, Sched.pushAll]

/-- **Stage and program point fit** in every run. -/
theorem fits_of_reachable (hs : (pool tid).Reachable s) (t : ι) :
    Fits (s.sched.pc t) (s.stage t) := by
  refine Lib.System.Reachable.invariant (P := fun s => ∀ t, Fits (s.sched.pc t) (s.stage t))
    ?_ (fun s a s' ih h => fits_step (steps h).2 ih) hs t
  rintro s ⟨now, rfl⟩ t
  exact id

end Pool

end Sylar.Worker
