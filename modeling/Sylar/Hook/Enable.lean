/-
# Sylar.Hook.Enable — `t_hook_enable` and `t_scheduler` over the life of several schedulers.

Two thread-locals decide what a hooked function does: `t_hook_enable` (`sylar/hook.cpp`) says whether
it is hooked at all, and `t_scheduler` (`sylar/scheduler.cpp`) is what it then takes for its
`IOManager`, without a check.  `Scheduler::run` sets both.  The constructor sets the second alone where
`use_caller` is true, the destructor clears the second alone on the thread that runs it, and nothing
clears the first.

A `Process` is its threads with these two variables and its scheduler objects with what decides when
`run` is entered and left: the root fiber, the threads, and whether `stop` has come back.  What is in
the queue is left to the outside, as the answer of `stopping` and as the moment at which `run` ends.

`hooked_of_reachable` says what a run must avoid for the hook never to meet anything but a live
`IOManager`: a plain scheduler's `run`, and the end of an `IOManager` whose root fiber has run.  Both
do break it (`hook_outlives`).
-/
import Sylar.Lib.Transition
import Sylar.Scheduler.Fiber
import Mathlib.Logic.Function.Basic

namespace Sylar.Hook

open Scheduler (State)
open Lib (guarded)

variable {τ : Type}

/-! ## Threads and objects -/

/-- The class of a scheduler object. -/
inductive Kind
  | scheduler
  | ioManager
  deriving DecidableEq, Repr

/-- A `Scheduler` object. -/
structure Object (τ : Type) where
  kind : Kind
  /-- `none` for `-1`. -/
  m_rootThread : Option τ
  /-- The state of `m_rootFiber`, if there is one. -/
  m_rootFiber : Option State
  m_threadCount : Nat
  m_threads : List τ
  /-- The thread that is in `stop`, past the assertions. -/
  inStop : Option τ
  /-- `stop` has come back, and `start` has not been called since. -/
  stopped : Bool
  /-- Constructed and not destroyed. -/
  alive : Bool
  deriving DecidableEq

/-- Where a thread of the process is. -/
inductive Place
  /-- Not created yet. -/
  | absent
  /-- A thread of the program. -/
  | user
  /-- Created by `start`, before `run`. -/
  | starting (o : Nat)
  /-- In `run`, or in a task. -/
  | running (o : Nat)
  | gone
  deriving DecidableEq, Repr

/-- A thread with its thread-locals. -/
structure Thread where
  t_hook_enable : Bool
  /-- The object pointed to; `none` for null. -/
  t_scheduler : Option Nat
  place : Place
  deriving DecidableEq, Repr

/-- The threads and the scheduler objects, the next one of which is made at `nextObject`. -/
structure Process (τ : Type) where
  object : Nat → Object τ
  nextObject : Nat
  thread : τ → Thread

/-- What a process does with its schedulers. -/
inductive Act (τ : Type)
  /-- `Scheduler(threads, use_caller)` or `IOManager(threads, use_caller)` on thread `t`; the latter
  starts the threads `ts`. -/
  | construct (t : τ) (kind : Kind) (threads : Nat) (use_caller : Bool) (ts : List τ)
  /-- `start`, with the threads it makes. -/
  | start (o : Nat) (ts : List τ)
  /-- A started thread enters `run`. -/
  | enterRun (t : τ)
  /-- It returns from `run`, and ends. -/
  | leaveRun (t : τ)
  /-- Thread `t` calls `stop`, up to the joins or into the root fiber; `answer` is what `stopping`
  says. -/
  | stop (t : τ) (o : Nat) (answer : Bool)
  /-- The root fiber returns from `run`. -/
  | leaveRoot (o : Nat)
  /-- The joins of `stop` are over. -/
  | join (o : Nat)
  /-- The destructor, on thread `t`. -/
  | destroy (t : τ) (o : Nat)
  deriving DecidableEq

namespace Process

/-- `IOManager::GetThis`: the `dynamic_cast` is null if the object is a plain scheduler. -/
def getThis (p : Process τ) (t : τ) : Option Nat :=
  (p.thread t).t_scheduler.filter fun o => (p.object o).kind = .ioManager

/-- **Hooked calls find an `IOManager`**: on a thread with the hook on, `IOManager::GetThis` is one
that is alive. -/
def Hooked (p : Process τ) : Prop :=
  ∀ t, (p.thread t).t_hook_enable = true → ∃ o, p.getThis t = some o ∧ (p.object o).alive = true

/-- The thread can call something. -/
def Acts (p : Process τ) (t : τ) : Prop :=
  (p.thread t).place = .user ∨ ∃ o, (p.thread t).place = .running o

instance (p : Process τ) (t : τ) : Decidable (p.Acts t) :=
  match h : (p.thread t).place with
  | .user => isTrue (.inl h)
  | .running o => isTrue (.inr ⟨o, h⟩)
  | .absent | .starting _ | .gone => isFalse (by simp [Acts, h])

/-- Write an object. -/
def put (p : Process τ) (o : Nat) (obj : Object τ) : Process τ :=
  { p with object := Function.update p.object o obj }

/-- `stop` may return at once: no threads besides the caller's, and `m_rootFiber` in `TERM` or
`INIT`. -/
def mayReturn (p : Process τ) (o : Nat) : Bool :=
  (p.object o).m_threadCount = 0 &&
    (p.object o).m_rootFiber.any fun st => st = .term || st = .init

variable [DecidableEq τ]

/-- Write a thread. -/
def setThread (p : Process τ) (t : τ) (th : Thread) : Process τ :=
  { p with thread := Function.update p.thread t th }

/-- `set_hook_enable(true); setThis();` on thread `t`: nothing is called in between. -/
def run (p : Process τ) (t : τ) (o : Nat) : Process τ :=
  p.setThread t { p.thread t with t_hook_enable := true, t_scheduler := some o }

/-- `start`: the new threads have thread-locals of their own. -/
def start (p : Process τ) (o : Nat) (ts : List τ) : Option (Process τ) :=
  guarded ((p.object o).m_threads = [] ∧ ts.length = (p.object o).m_threadCount ∧ ts.Nodup ∧
      ∀ t ∈ ts, (p.thread t).place = .absent)
    { p.put o { p.object o with m_threads := ts, stopped := false } with
      thread := fun t => if t ∈ ts then ⟨false, none, .starting o⟩ else p.thread t }

/-- The members as the constructor of `Scheduler` leaves them. -/
def newObject (t : τ) (kind : Kind) (threads : Nat) (use_caller : Bool) : Object τ :=
  { kind := kind
    m_rootThread := if use_caller then some t else none
    m_rootFiber := if use_caller then some .init else none
    m_threadCount := if use_caller then threads - 1 else threads
    m_threads := []
    inStop := none
    stopped := false
    alive := true }

/-- Make an object. -/
def make (p : Process τ) (obj : Object τ) : Process τ :=
  { p.put p.nextObject obj with nextObject := p.nextObject + 1 }

/-- The constructor of `Scheduler`; `none` where an assertion fails. -/
def construct (p : Process τ) (t : τ) (kind : Kind) (threads : Nat) (use_caller : Bool) :
    Option (Process τ) :=
  let p' := p.make (newObject t kind threads use_caller)
  if threads = 0 then none
  else if use_caller then
    guarded ((p.thread t).t_scheduler = none)
      (p'.setThread t { p.thread t with t_scheduler := some p.nextObject })
  else some p'

/-- `stop` up to the joins, or up to the entry of `run` in the root fiber; `none` where an assertion
fails. -/
def stop (p : Process τ) (t : τ) (o : Nat) (answer : Bool) : Option (Process τ) :=
  let obj := p.object o
  if p.mayReturn o && answer then some (p.put o { obj with stopped := true })
  else if obj.m_rootThread.isSome = decide ((p.thread t).t_scheduler = some o) then
    match obj.m_rootFiber with
    | none => some (p.put o { obj with inStop := some t })
    | some .init => some ((p.put o { obj with inStop := some t, m_rootFiber := some .exec }).run t o)
    | some _ => none
  else none

/-- `~Scheduler` on thread `t`. -/
def destroy (p : Process τ) (t : τ) (o : Nat) : Process τ :=
  let p' := p.put o { p.object o with alive := false }
  if (p.thread t).t_scheduler = some o then
    p'.setThread t { p.thread t with t_scheduler := none }
  else p'

/-- Take a step.  `~IOManager` calls `stop` first, and a thread that joins itself does not come
back. -/
def step (p : Process τ) : Act τ → Option (Process τ)
  | .construct t kind threads use_caller ts =>
      if p.Acts t then
        match kind with
        | .scheduler => p.construct t kind threads use_caller
        | .ioManager => (p.construct t kind threads use_caller).bind fun p' => p'.start p.nextObject ts
      else none
  | .start o ts => if (p.object o).alive then p.start o ts else none
  | .enterRun t =>
      match (p.thread t).place with
      | .starting o => some (p.setThread t ⟨true, some o, .running o⟩)
      | _ => none
  | .leaveRun t =>
      match (p.thread t).place with
      | .running _ => some (p.setThread t ⟨false, none, .gone⟩)
      | _ => none
  | .stop t o answer => if (p.object o).alive ∧ p.Acts t then p.stop t o answer else none
  | .leaveRoot o =>
      guarded ((p.object o).m_rootFiber = some .exec)
        (p.put o { p.object o with m_rootFiber := some .term })
  | .join o =>
      match (p.object o).inStop with
      | none => none
      | some t =>
          guarded ((p.object o).m_rootFiber ≠ some .exec ∧ t ∉ (p.object o).m_threads ∧
              ∀ u ∈ (p.object o).m_threads, (p.thread u).place = .gone)
            (p.put o { p.object o with m_threads := [], inStop := none, stopped := true })
  | .destroy t o =>
      guarded ((p.object o).alive = true ∧ p.Acts t ∧
          ((p.object o).kind = .ioManager → (p.object o).stopped = true ∧ (p.object o).inStop = none))
        (p.destroy t o)

/-- No object yet. -/
def noObject : Object τ :=
  { kind := .scheduler, m_rootThread := none, m_rootFiber := none, m_threadCount := 0, m_threads := []
    inStop := none, stopped := false, alive := false }

/-- A process whose own threads are `user`. -/
def initial (user : τ → Bool) : Process τ :=
  { object := fun _ => noObject
    nextObject := 0
    thread := fun t => ⟨false, none, if user t then .user else .absent⟩ }

end Process

/-- A process that makes, runs, stops and destroys schedulers. -/
def process [DecidableEq τ] : Lib.System (Process τ) (Act τ) where
  init p := ∃ user, p = .initial user
  step p a := p.step a

namespace Process

/-! ## The condition -/

/-- The step neither runs a plain scheduler nor destroys an `IOManager` whose root fiber has run. -/
def Keeps (p : Process τ) : Act τ → Prop
  | .enterRun t => ∀ o, (p.thread t).place = .starting o → (p.object o).kind = .ioManager
  | .stop _ o answer =>
      (p.mayReturn o && answer) = true ∨ (p.object o).m_rootFiber = none ∨
        (p.object o).kind = .ioManager
  | .destroy _ o =>
      (p.object o).kind = .ioManager →
        (p.object o).m_rootFiber = none ∨ (p.object o).m_rootFiber = some .init
  | _ => True

instance (p : Process τ) : DecidablePred p.Keeps
  | .enterRun t =>
      match h : (p.thread t).place with
      | .starting o => decidable_of_iff ((p.object o).kind = .ioManager) (by simp [Keeps, h])
      | .absent | .user | .running _ | .gone => isTrue (by simp [Keeps, h])
  | .stop _ o answer => inferInstanceAs (Decidable
      ((p.mayReturn o && answer) = true ∨ (p.object o).m_rootFiber = none ∨
        (p.object o).kind = .ioManager))
  | .destroy _ o => inferInstanceAs (Decidable
      ((p.object o).kind = .ioManager →
        (p.object o).m_rootFiber = none ∨ (p.object o).m_rootFiber = some .init))
  | .construct .. | .start .. | .leaveRun _ | .leaveRoot _ | .join _ => isTrue trivial

/-- The root fiber has been resumed. -/
def RootRan (p : Process τ) (o : Nat) : Prop := ∃ st, (p.object o).m_rootFiber = some st ∧ st ≠ .init

/-- What holds in every run that keeps to the condition. -/
structure Inv (p : Process τ) : Prop where
  /-- The hook is on where `run` of a live `IOManager` is on, or has been. -/
  hook : ∀ t, (p.thread t).t_hook_enable = true → ∃ o, (p.thread t).t_scheduler = some o ∧
    (p.object o).kind = .ioManager ∧ (p.object o).alive = true ∧
      (t ∈ (p.object o).m_threads ∧ (p.thread t).place = .running o ∨ p.RootRan o)
  starting : ∀ t o, (p.thread t).place = .starting o → o < p.nextObject ∧
    ((p.object o).kind = .ioManager → (p.object o).alive = true ∧ t ∈ (p.object o).m_threads)
  unmade : ∀ o, p.nextObject ≤ o → (p.object o).alive = false
  alone : ∀ o, (p.object o).m_threadCount = 0 → (p.object o).m_threads = []
  stopped : ∀ o, (p.object o).stopped = true → (p.object o).m_threads = []

/-! ## The invariant -/

section Frame

variable (p : Process τ) (o q : Nat) (obj : Object τ) (t u : τ) (th : Thread)

@[simp] theorem put_object : (p.put o obj).object q = if q = o then obj else p.object q :=
  Function.update_apply ..
@[simp] theorem put_thread : (p.put o obj).thread = p.thread := rfl

variable [DecidableEq τ]

@[simp] theorem setThread_thread :
    (p.setThread t th).thread u = if u = t then th else p.thread u := Function.update_apply ..
@[simp] theorem setThread_object : (p.setThread t th).object = p.object := rfl

end Frame

variable {p p' : Process τ} {o : Nat} {t : τ} {th : Thread}

/-- A write to an object that changes neither its class nor whether it is alive, forgets only threads
that are gone, and does not take the root fiber back. -/
theorem inv_put (obj : Object τ) (hs : Inv p) (hkind : obj.kind = (p.object o).kind)
    (halive : obj.alive = (p.object o).alive)
    (hthreads : ∀ u ∈ (p.object o).m_threads, u ∈ obj.m_threads ∨ (p.thread u).place = .gone)
    (hroot : p.RootRan o → ∃ st, obj.m_rootFiber = some st ∧ st ≠ .init)
    (halone : obj.m_threadCount = 0 → obj.m_threads = [])
    (hstopped : obj.stopped = true → obj.m_threads = []) : Inv (p.put o obj) where
  hook u hu := by
    obtain ⟨q, hq, hio, hlive, hheld⟩ := hs.hook u hu
    refine ⟨q, hq, ?_⟩
    simp only [put_object, put_thread, RootRan]
    by_cases hqo : q = o
    · subst hqo
      rw [if_pos rfl, hkind, halive]
      refine ⟨hio, hlive, ?_⟩
      rcases hheld with ⟨hmem, hpc⟩ | hran
      · rcases hthreads u hmem with hmem | hgone
        · exact .inl ⟨hmem, hpc⟩
        · rw [hpc] at hgone
          cases hgone
      · exact .inr (hroot hran)
    · rw [if_neg hqo]
      exact ⟨hio, hlive, hheld⟩
  starting u q hq := by
    obtain ⟨hlt, hold⟩ := hs.starting u q hq
    refine ⟨hlt, ?_⟩
    simp only [put_object]
    by_cases hqo : q = o
    · subst hqo
      rw [if_pos rfl, hkind, halive]
      intro hio
      obtain ⟨hlive, hmem⟩ := hold hio
      refine ⟨hlive, (hthreads u hmem).resolve_right fun hgone => ?_⟩
      rw [put_thread, hgone] at hq
      cases hq
    · rw [if_neg hqo]
      exact hold
  unmade q hq := by
    have := hs.unmade q hq
    simp only [put_object]
    split
    · rename_i hqo
      rw [halive, ← hqo]
      exact this
    · exact this
  alone q := by
    simp only [put_object]
    split
    · exact halone
    · exact hs.alone q
  stopped q := by
    simp only [put_object]
    split
    · exact hstopped
    · exact hs.stopped q

/-- The end of an object that no thread with the hook on has for its scheduler. -/
theorem inv_dead (hs : Inv p)
    (hhook : ∀ u, (p.thread u).t_hook_enable = true → (p.thread u).t_scheduler ≠ some o)
    (hstart : (p.object o).kind = .ioManager → (p.object o).m_threads = []) :
    Inv (p.put o { p.object o with alive := false }) where
  hook u hu := by
    obtain ⟨q, hq, hheld⟩ := hs.hook u hu
    have hqo : q ≠ o := fun h => hhook u hu (h ▸ hq)
    refine ⟨q, hq, ?_⟩
    simpa only [put_object, put_thread, RootRan, if_neg hqo] using hheld
  starting u q hq := by
    obtain ⟨hlt, hold⟩ := hs.starting u q hq
    refine ⟨hlt, ?_⟩
    simp only [put_object]
    by_cases hqo : q = o
    · subst hqo
      rw [if_pos rfl]
      intro hio
      have hmem := (hold hio).2
      rw [hstart hio] at hmem
      cases hmem
    · rw [if_neg hqo]
      exact hold
  unmade q hq := by
    simp only [put_object]
    split
    · rfl
    · exact hs.unmade q hq
  alone q := by
    simp only [put_object]
    split
    · exact hs.alone o
    · exact hs.alone q
  stopped q := by
    simp only [put_object]
    split
    · exact hs.stopped o
    · exact hs.stopped q

/-- A new object without threads. -/
theorem inv_make (obj : Object τ) (hs : Inv p) (hnone : obj.m_threads = []) : Inv (p.make obj) where
  hook u hu := by
    obtain ⟨q, hq, hio, hlive, hheld⟩ := hs.hook u hu
    have hqo : q ≠ p.nextObject := by
      rintro rfl
      rw [hs.unmade _ (Nat.le_refl _)] at hlive
      cases hlive
    refine ⟨q, hq, ?_⟩
    simp only [make, put_object, put_thread, RootRan, if_neg hqo]
    exact ⟨hio, hlive, hheld⟩
  starting u q hq := by
    obtain ⟨hlt, hold⟩ := hs.starting u q hq
    have hqo : q ≠ p.nextObject := Nat.ne_of_lt hlt
    refine ⟨Nat.lt_succ_of_lt hlt, ?_⟩
    simpa only [make, put_object, if_neg hqo] using hold
  unmade q hq := by
    have hle : p.nextObject + 1 ≤ q := hq
    have hqo : q ≠ p.nextObject := by omega
    simp only [make, put_object, if_neg hqo]
    exact hs.unmade q (by omega)
  alone q := by
    simp only [make, put_object]
    split
    · exact fun _ => hnone
    · exact hs.alone q
  stopped q := by
    simp only [make, put_object]
    split
    · exact fun _ => hnone
    · exact hs.stopped q

variable [DecidableEq τ]

/-- A write to a thread. -/
theorem inv_setThread (hs : Inv p)
    (hhook : th.t_hook_enable = true → ∃ o, th.t_scheduler = some o ∧
      (p.object o).kind = .ioManager ∧ (p.object o).alive = true ∧
        (t ∈ (p.object o).m_threads ∧ th.place = .running o ∨ p.RootRan o))
    (hstart : ∀ o, th.place = .starting o → o < p.nextObject ∧
      ((p.object o).kind = .ioManager → (p.object o).alive = true ∧ t ∈ (p.object o).m_threads)) :
    Inv (p.setThread t th) where
  hook u hu := by
    simp only [setThread_thread] at hu ⊢
    by_cases hut : u = t
    · subst hut
      rw [if_pos rfl] at hu ⊢
      exact hhook hu
    · rw [if_neg hut] at hu ⊢
      exact hs.hook u hu
  starting u q hq := by
    simp only [setThread_thread] at hq
    by_cases hut : u = t
    · subst hut
      rw [if_pos rfl] at hq
      exact hstart q hq
    · rw [if_neg hut] at hq
      exact hs.starting u q hq
  unmade := hs.unmade
  alone := hs.alone
  stopped := hs.stopped

/-- `set_hook_enable(true); setThis();` in an `IOManager` whose root fiber runs. -/
theorem inv_run (hs : Inv p) (hio : (p.object o).kind = .ioManager)
    (hlive : (p.object o).alive = true) (hran : p.RootRan o) : Inv (p.run t o) := by
  apply inv_setThread hs
  · intro _
    exact ⟨o, rfl, hio, hlive, .inr hran⟩
  · intro q hq
    exact hs.starting t q hq

theorem inv_start {ts : List τ} (hs : Inv p) (h : p.start o ts = some p')
    (hlive : (p.object o).alive = true) : Inv p' := by
  obtain ⟨⟨hnone, hlen, -, hnew⟩, rfl⟩ := Lib.guarded_eq_some.mp h
  have hmade : o < p.nextObject := by
    by_contra hle
    rw [hs.unmade o (by omega)] at hlive
    cases hlive
  constructor
  · intro u hu
    by_cases hin : u ∈ ts
    · simp only [if_pos hin] at hu
      cases hu
    · simp only [if_neg hin] at hu ⊢
      obtain ⟨q, hq, hio, hlive', hheld⟩ := hs.hook u hu
      refine ⟨q, hq, ?_⟩
      simp only [put_object, RootRan]
      by_cases hqo : q = o
      · subst hqo
        rw [if_pos rfl]
        refine ⟨hio, hlive', .inr ?_⟩
        rcases hheld with ⟨hmem, -⟩ | hran
        · rw [hnone] at hmem
          cases hmem
        · exact hran
      · rw [if_neg hqo]
        exact ⟨hio, hlive', hheld⟩
  · intro u q hq
    simp only [put_object]
    by_cases hin : u ∈ ts
    · simp only [if_pos hin, Place.starting.injEq] at hq
      subst hq
      rw [if_pos rfl]
      exact ⟨hmade, fun _ => ⟨hlive, hin⟩⟩
    · simp only [if_neg hin] at hq
      obtain ⟨hlt, hold⟩ := hs.starting u q hq
      refine ⟨hlt, fun hio => ?_⟩
      by_cases hqo : q = o
      · subst hqo
        rw [if_pos rfl] at hio
        have hmem := (hold hio).2
        rw [hnone] at hmem
        cases hmem
      · rw [if_neg hqo] at hio ⊢
        exact hold hio
  · intro q hq
    simp only [put_object]
    split
    · rename_i hqo
      exact absurd hmade (Nat.not_lt.mpr (hqo ▸ hq))
    · exact hs.unmade q hq
  · intro q
    simp only [put_object]
    split
    · intro hzero
      exact List.eq_nil_of_length_eq_zero (hlen.trans hzero)
    · exact hs.alone q
  · intro q
    simp only [put_object]
    split
    · intro h
      cases h
    · exact hs.stopped q

/-- The constructor does not touch a thread with the hook on: with `use_caller` it asserts that the
thread has no scheduler. -/
theorem inv_construct {kind : Kind} {threads : Nat} {use_caller : Bool} (hs : Inv p)
    (h : p.construct t kind threads use_caller = some p') :
    Inv p' ∧ (p'.object p.nextObject).alive = true := by
  unfold construct at h
  simp only at h
  split at h
  · cases h
  · split at h
    · obtain ⟨hnull, rfl⟩ := Lib.guarded_eq_some.mp h
      have hmake := inv_make (newObject t kind threads use_caller) hs rfl
      refine ⟨?_, by simp [make, newObject]⟩
      apply inv_setThread hmake
      · intro hon
        obtain ⟨q, hq, -⟩ := hs.hook t hon
        rw [hnull] at hq
        cases hq
      · intro q hq
        exact hmake.starting t q hq
    · cases h
      exact ⟨inv_make _ hs rfl, by simp [make, newObject]⟩

theorem inv_stop {answer : Bool} (hs : Inv p) (hlive : (p.object o).alive = true)
    (hc : p.Keeps (.stop t o answer)) (h : p.stop t o answer = some p') : Inv p' := by
  unfold stop at h
  simp only at h
  split at h
  · -- the early return: the scheduler has no threads to wait for
    rename_i hreturn
    cases h
    have hzero : (p.object o).m_threadCount = 0 := by
      simp only [mayReturn, Bool.and_eq_true, decide_eq_true_eq] at hreturn
      exact hreturn.1.1
    exact inv_put _ hs rfl rfl (fun u hu => .inl hu) id (hs.alone o) fun _ => hs.alone o hzero
  · rename_i hreturn
    split at h
    · split at h
      · cases h
        exact inv_put _ hs rfl rfl (fun u hu => .inl hu) id (hs.alone o) (hs.stopped o)
      · -- the caller's thread enters `run` in the root fiber, and stays the scheduler's for good
        rename_i hinit
        cases h
        have hio : (p.object o).kind = .ioManager := by
          rcases hc with hyes | hnull | hio
          · exact absurd hyes hreturn
          · rw [hinit] at hnull
            cases hnull
          · exact hio
        have hput := inv_put { p.object o with inStop := some t, m_rootFiber := some .exec } hs rfl rfl
          (fun u hu => .inl hu) (fun _ => ⟨.exec, rfl, by decide⟩) (hs.alone o) (hs.stopped o)
        apply inv_run hput
        · simpa using hio
        · simpa using hlive
        · exact ⟨.exec, by simp, by decide⟩
      · cases h
    · cases h

/-- What the destructor leaves behind is no concern of the hook, if the root fiber has not run. -/
theorem inv_destroy (hs : Inv p) (hc : p.Keeps (.destroy t o))
    (hstopped : (p.object o).kind = .ioManager → (p.object o).stopped = true) :
    Inv (p.destroy t o) := by
  have hoff : ∀ u, (p.thread u).t_hook_enable = true → (p.thread u).t_scheduler ≠ some o := by
    intro u hu ho
    obtain ⟨q, hq, hio, -, hheld⟩ := hs.hook u hu
    obtain rfl : q = o := Option.some.inj (hq.symm.trans ho)
    rcases hheld with ⟨hmem, -⟩ | ⟨st, hst, hran⟩
    · -- `stop` has joined the threads
      rw [hs.stopped q (hstopped hio)] at hmem
      cases hmem
    · rcases hc hio with hnull | hinit
      · rw [hnull] at hst
        cases hst
      · exact hran (Option.some.inj (hst.symm.trans hinit))
  have hdead := inv_dead hs hoff fun hio => hs.stopped o (hstopped hio)
  unfold destroy
  simp only
  split
  · rename_i ho
    apply inv_setThread hdead
    · intro hon
      exact absurd ho (hoff t hon)
    · intro q hq
      exact hdead.starting t q hq
  · exact hdead

/-- **Every step that keeps to the condition keeps the invariant.** -/
theorem inv_step {a : Act τ} (hs : Inv p) (hc : p.Keeps a) (h : p.step a = some p') : Inv p' := by
  cases a with
  | construct t kind threads use_caller ts =>
      simp only [step] at h
      split at h
      · cases kind with
        | scheduler => exact (inv_construct hs h).1
        | ioManager =>
            obtain ⟨q, hq, hstart⟩ := Option.bind_eq_some_iff.mp h
            obtain ⟨hinv, hlive⟩ := inv_construct hs hq
            exact inv_start hinv hstart hlive
      · cases h
  | start o ts =>
      simp only [step] at h
      split at h
      · rename_i hlive
        exact inv_start hs h hlive
      · cases h
  | enterRun t =>
      simp only [step] at h
      split at h
      · rename_i o ho
        cases h
        obtain ⟨hlive, hmem⟩ := (hs.starting t o ho).2 (hc o ho)
        apply inv_setThread hs
        · intro _
          exact ⟨o, rfl, hc o ho, hlive, .inl ⟨hmem, rfl⟩⟩
        · intro q hq
          cases hq
      · cases h
  | leaveRun t =>
      simp only [step] at h
      split at h
      · cases h
        apply inv_setThread hs
        · intro hon
          cases hon
        · intro q hq
          cases hq
      · cases h
  | stop t o answer =>
      simp only [step] at h
      split at h
      · rename_i hcall
        exact inv_stop hs hcall.1 hc h
      · cases h
  | leaveRoot o =>
      obtain ⟨-, rfl⟩ := Lib.guarded_eq_some.mp h
      exact inv_put _ hs rfl rfl (fun u hu => .inl hu) (fun _ => ⟨.term, rfl, by decide⟩) (hs.alone o)
        (hs.stopped o)
  | join o =>
      simp only [step] at h
      split at h
      · cases h
      · obtain ⟨⟨-, -, hgone⟩, rfl⟩ := Lib.guarded_eq_some.mp h
        exact inv_put _ hs rfl rfl (fun u hu => .inr (hgone u hu)) id (fun _ => rfl) fun _ => rfl
  | destroy t o =>
      obtain ⟨⟨-, -, hstopped⟩, rfl⟩ := Lib.guarded_eq_some.mp h
      exact inv_destroy hs hc fun hio => (hstopped hio).1

theorem inv_of_reachable (hs : process.ReachableWhen Keeps p) : Inv p := by
  refine hs.invariant ?_ fun p a p' ih hc h => inv_step ih hc h
  rintro p ⟨user, rfl⟩
  constructor
  · intro t h
    cases h
  · intro t o h
    simp only [initial] at h
    split at h <;> cases h
  · exact fun _ _ => rfl
  · exact fun _ _ => rfl
  · exact fun _ _ => rfl

/-- **Hooked calls always find an `IOManager`**, in every run in which no plain scheduler runs and no
`IOManager` is destroyed whose root fiber has run. -/
theorem hooked_of_reachable (hs : process.ReachableWhen Keeps p) : p.Hooked := by
  intro t ht
  obtain ⟨o, ho, hio, hlive, -⟩ := (inv_of_reachable hs).hook t ht
  refine ⟨o, ?_, hlive⟩
  unfold getThis
  rw [ho, Option.filter_some, if_pos (by simpa using hio)]

/-- An `IOManager` with a thread of its own, in whose tasks something is hooked. -/
def ownThread : List (Act Bool) := [.construct false .ioManager 1 false [true], .enterRun true]

theorem hooked_ownThread :
    ((process.exec (.initial not) ownThread).get (by decide)).Hooked :=
  hooked_of_reachable (Lib.System.ReachableWhen.exec (.init ⟨not, rfl⟩) (l := ownThread) (by decide)
    (Option.some_get _).symm)

/-- An `IOManager` on the caller's thread, which has tasks when it is destroyed. -/
def callerRuns : List (Act Unit) :=
  [.construct () .ioManager 1 true [], .stop () 0 false, .leaveRoot 0, .join 0, .destroy () 0]

/-- A plain scheduler on the caller's thread, which has tasks when it is stopped. -/
def plainRuns : List (Act Unit) := [.construct () .scheduler 1 true [], .stop () 0 false]

/-- **The hook outlives the `IOManager`**: behind its destructor the caller's thread has the hook on
and no scheduler.  And it meets a plain scheduler in the tasks of one. -/
theorem hook_outlives :
    (∃ p : Process Unit, process.Reachable p ∧ (p.thread ()).t_hook_enable = true ∧
      (p.thread ()).t_scheduler = none ∧ (p.object 0).alive = false ∧ ¬ p.Hooked) ∧
    ∃ p : Process Unit, process.Reachable p ∧ (p.thread ()).t_hook_enable = true ∧
      (p.thread ()).t_scheduler = some 0 ∧ (p.object 0).alive = true ∧ p.getThis () = none ∧
        ¬ p.Hooked := by
  have hcaller : (process.exec (.initial fun _ : Unit => true) callerRuns).map
      (fun p => (p.thread (), (p.object 0).alive, p.getThis ()))
      = some (⟨true, none, .user⟩, false, none) := by decide
  have hplain : (process.exec (.initial fun _ : Unit => true) plainRuns).map
      (fun p => (p.thread (), (p.object 0).alive, p.getThis ()))
      = some (⟨true, some 0, .user⟩, true, none) := by decide
  obtain ⟨p, hp, hend⟩ := Option.map_eq_some_iff.mp hcaller
  obtain ⟨q, hq, hend'⟩ := Option.map_eq_some_iff.mp hplain
  simp only [Prod.mk.injEq] at hend hend'
  obtain ⟨hth, hdead, hnull⟩ := hend
  obtain ⟨hth', hlive, hnull'⟩ := hend'
  refine ⟨⟨p, Lib.System.reachable_of_exec ⟨_, rfl⟩ hp, by rw [hth], by rw [hth], hdead, fun h => ?_⟩,
    q, Lib.System.reachable_of_exec ⟨_, rfl⟩ hq, by rw [hth'], by rw [hth'], hlive, hnull',
    fun h => ?_⟩
  · obtain ⟨o, ho, -⟩ := h () (by rw [hth])
    rw [hnull] at ho
    cases ho
  · obtain ⟨o, ho, -⟩ := h () (by rw [hth'])
    rw [hnull'] at ho
    cases ho

end Process

end Sylar.Hook
