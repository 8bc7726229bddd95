/-
# Sylar.Scheduler.Current — the fiber a thread thinks it runs (`sylar/fiber.cpp`, `sylar/scheduler.cpp`).

A switch does two things that nothing ties together: it writes `t_fiber`, and it exchanges machine
contexts through the `m_ctx` of two fibers.  A context is modelled by the fiber whose execution it
continues, so that a `m_ctx` may hold the execution of another fiber than its own.

`swapIn` saves the caller into the thread's scheduler fiber or its main fiber, by the kind of the fiber
that is resumed, and not by who calls.  `swapOut` switches to the same place, but always names the main
fiber.  On a thread of the pool the two are one fiber, and on the caller's thread they are not.

`switching` are all threads and fibers under the operations that touch any of this, where fibers are
resumed by the main and the scheduler fiber of a thread only.  `t_fiber` is right throughout a run
exactly if no fiber swaps out that a scheduler fiber other than the main fiber has resumed, and no fiber
is resumed whose `m_ctx` has been overwritten (`named_throughout_iff`).
-/
import Sylar.Scheduler.Fiber
import Sylar.Lib.Transition
import Mathlib.Logic.Function.Basic

namespace Sylar.Scheduler

open Lib (guarded)

/-! ## Threads and fibers -/

/-- How a fiber came about: as the first fiber of a thread, as the `m_rootFiber` of a scheduler made on a
thread, or in any other way. -/
inductive Kind
  | main (t : Nat)
  | root (t : Nat)
  | plain
  /-- The root fiber of a scheduler that has been destroyed. -/
  | gone
  deriving DecidableEq, Repr

/-- The thread-local variables, and what the thread does: the fiber whose context it executes, and the
one that has resumed it. -/
structure ThreadLocals where
  t_fiber : Nat
  t_thread_fiber : Nat
  t_scheduler_fiber : Option Nat
  running : Nat
  resumer : Nat
  deriving DecidableEq, Repr

/-- The fibers by number, with the members a switch reads or writes, and the threads that have one. -/
structure Threads where
  kind : Nat → Option Kind
  m_runInScheduler : Nat → Bool
  /-- The fiber whose execution the context in `m_ctx` continues. -/
  m_ctx : Nat → Nat
  m_state : Nat → State
  thread : Nat → Option ThreadLocals

namespace Threads

/-- `swapcontext(&oucp->m_ctx, &ucp->m_ctx)` on the thread `t`, with its locals as they are then. -/
def swapcontext (s : Threads) (t : Nat) (x : ThreadLocals) (oucp ucp : Nat) : Threads :=
  let m_ctx := Function.update s.m_ctx oucp x.running
  { s with
    m_ctx := m_ctx
    thread := Function.update s.thread t (some { x with running := m_ctx ucp }) }

/-- The fiber that a switch to or from `f` goes through: `Scheduler::GetMainFiber()` or
`t_thread_fiber`. -/
def through (s : Threads) (x : ThreadLocals) (f : Nat) : Option Nat :=
  if s.m_runInScheduler f then x.t_scheduler_fiber else some x.t_thread_fiber

/-- The thread runs its main fiber or its scheduler fiber. -/
def MayResume (x : ThreadLocals) : Prop :=
  x.running = x.t_thread_fiber ∨ x.t_scheduler_fiber = some x.running

instance (x : ThreadLocals) : Decidable (MayResume x) :=
  inferInstanceAs (Decidable (x.running = x.t_thread_fiber ∨ x.t_scheduler_fiber = some x.running))

/-- A fiber with a stack of its own; a root fiber is known to its scheduler only, which resumes it on the
thread it was made on. -/
def Resumable (s : Threads) (t f : Nat) : Prop := s.kind f = some .plain ∨ s.kind f = some (.root t)

instance (s : Threads) (t f : Nat) : Decidable (s.Resumable t f) :=
  inferInstanceAs (Decidable (s.kind f = some .plain ∨ s.kind f = some (.root t)))

/-- `f->swapIn()`, which asserts that `f` is not in `EXEC`; the end of `MainFunc` is not resumed. -/
def swapIn (s : Threads) (t f : Nat) : Option Threads :=
  (s.thread t).bind fun x => (s.through x f).bind fun g =>
    guarded (MayResume x ∧ s.Resumable t f ∧ s.m_state f ≠ .exec ∧ ¬ Fiber.Ended (s.m_state f))
      ({ s with m_state := Function.update s.m_state f .exec }.swapcontext t
        { x with t_fiber := f, resumer := x.running } g f)

/-- `cur->swapOut()`. -/
def swapOut (s : Threads) (t cur : Nat) : Option Threads :=
  (s.thread t).bind fun x => (s.through x cur).map fun g =>
    s.swapcontext t { x with t_fiber := x.t_thread_fiber } cur g

/-- `m_state = ..`. -/
def setState (s : Threads) (f : Nat) (st : State) : Threads :=
  { s with m_state := Function.update s.m_state f st }

/-- A new fiber. -/
def make (s : Threads) (f : Nat) (kind : Kind) (run_in_scheduler : Bool) (st : State) : Threads :=
  { s with
    kind := Function.update s.kind f (some kind)
    m_runInScheduler := Function.update s.m_runInScheduler f run_in_scheduler
    m_ctx := Function.update s.m_ctx f f
    m_state := Function.update s.m_state f st }

/-- What threads do. -/
inductive Act
  /-- `Fiber::GetThis` on a thread that has no fiber yet. -/
  | getThis (t m : Nat)
  | newFiber (f : Nat) (run_in_scheduler : Bool)
  /-- `Scheduler::Scheduler` with `use_caller`, behind its `GetThis`. -/
  | useCaller (t r : Nat)
  /-- `Scheduler::~Scheduler` on the thread `t`, which has made it. -/
  | destroy (t : Nat)
  /-- The beginning of `Scheduler::run` on a thread of the pool, behind its `GetThis`. -/
  | run (t : Nat)
  | swapIn (t f : Nat)
  | yieldToReady (t : Nat)
  | yieldToHold (t : Nat)
  /-- The end of `MainFunc`; `st` is `TERM` or `EXCEPT`. -/
  | mainFunc (t : Nat) (st : State)
  /-- `m_state = HOLD` in `Scheduler::run`. -/
  | hold (f : Nat)
  | reset (f : Nat)
  deriving DecidableEq, Repr

/-- A step; `none` also stands for the end of the process, by an assertion or a null pointer. -/
def step (s : Threads) : Act → Option Threads
  | .getThis t m =>
      guarded ((s.thread t).isNone ∧ (s.kind m).isNone)
        { s.make m (.main t) false .exec with
          thread := Function.update s.thread t (some ⟨m, m, none, m, m⟩) }
  | .newFiber f run_in_scheduler =>
      guarded (s.kind f).isNone (s.make f .plain run_in_scheduler .init)
  | .useCaller t r =>
      (s.thread t).bind fun x =>
        guarded (x.t_scheduler_fiber.isNone ∧ (s.kind r).isNone)
          { s.make r (.root t) false .init with
            thread := Function.update s.thread t (some { x with t_scheduler_fiber := some r }) }
  -- `t_scheduler_fiber` dangles from here on; who destroys it is not to go back through it
  | .destroy t =>
      (s.thread t).bind fun x => x.t_scheduler_fiber.bind fun r =>
        guarded (s.kind r = some (.root t) ∧ Fiber.Resettable (s.m_state r) ∧ x.running ≠ r ∧
            s.m_runInScheduler x.running = false)
          { s with
            kind := Function.update s.kind r (some .gone)
            thread := Function.update s.thread t (some { x with t_scheduler_fiber := none }) }
  | .run t =>
      (s.thread t).bind fun x =>
        guarded (x.t_scheduler_fiber.isNone ∧ x.running = x.t_thread_fiber)
          { s with
            thread := Function.update s.thread t (some { x with t_scheduler_fiber := some x.t_fiber }) }
  | .swapIn t f => s.swapIn t f
  | .yieldToReady t =>
      (s.thread t).bind fun x => (s.setState x.t_fiber .ready).swapOut t x.t_fiber
  | .yieldToHold t =>
      (s.thread t).bind fun x =>
        if s.m_state x.t_fiber = .exec then s.swapOut t x.t_fiber else none
  | .mainFunc t st =>
      (s.thread t).bind fun x =>
        if s.Resumable t x.running ∧ Fiber.Ended st then
          (s.setState x.running st).swapOut t x.running
        else none
  | .hold f => guarded (s.kind f = some .plain) (s.setState f .hold)
  | .reset f =>
      guarded (s.kind f = some .plain ∧ Fiber.Resettable (s.m_state f))
        { s.setState f .init with m_ctx := Function.update s.m_ctx f f }

/-- `t_fiber` names the fiber whose context is executing, on every thread. -/
def Named (s : Threads) : Prop := ∀ t x, s.thread t = some x → x.t_fiber = x.running

/-- A fiber that swaps out was resumed by the main fiber of its thread (which may itself swap out, to
itself), and one that is resumed has its own context. -/
def Careful (s : Threads) : Act → Prop
  | .swapIn _ f => s.m_ctx f = f
  | .yieldToReady t | .yieldToHold t | .mainFunc t _ => ∀ x ∈ s.thread t,
      x.running = x.t_thread_fiber ∨ x.resumer = x.t_thread_fiber
  | .getThis .. | .newFiber .. | .useCaller .. | .destroy _ | .run _ | .hold _ | .reset _ => True

instance (s : Threads) : DecidablePred s.Careful
  | .swapIn _ f => inferInstanceAs (Decidable (s.m_ctx f = f))
  | .yieldToReady t | .yieldToHold t | .mainFunc t _ => inferInstanceAs (Decidable
      (∀ x ∈ s.thread t, x.running = x.t_thread_fiber ∨ x.resumer = x.t_thread_fiber))
  | .getThis .. | .newFiber .. | .useCaller .. | .destroy _ | .run _ | .hold _ | .reset _ =>
      isTrue trivial

/-- Before the first thread. -/
def empty : Threads := ⟨fun _ => none, fun _ => false, id, fun _ => .init, fun _ => none⟩

end Threads

/-- All sequences of steps, of any threads and fibers. -/
def switching : Lib.System Threads Threads.Act where
  init s := s = .empty
  step s a := s.step a

namespace Threads

variable {s s' : Threads} {t f g : Nat} {x : ThreadLocals}

/-! ## What a good run keeps -/

/-- The fiber stays with the thread: its first one, or the root fiber of a scheduler made on it. -/
def OfThread (s : Threads) (t f : Nat) : Prop := s.kind f = some (.main t) ∨ s.kind f = some (.root t)

/-- What holds besides, as long as `t_fiber` is right. -/
structure Good (s : Threads) : Prop where
  main : ∀ t x, s.thread t = some x →
    s.kind x.t_thread_fiber = some (.main t) ∧ s.m_runInScheduler x.t_thread_fiber = false
  root : ∀ t f, s.kind f = some (.root t) → s.m_runInScheduler f = false
  scheduler : ∀ t x r, s.thread t = some x → x.t_scheduler_fiber = some r →
    r = x.t_thread_fiber ∨ s.kind r = some (.root t)
  /-- A fiber that moves between threads has its own context. -/
  own : ∀ f, s.kind f = some .plain → s.m_ctx f = f
  place : ∀ t x, s.thread t = some x → x.running = x.t_thread_fiber ∨ s.Resumable t x.running
  /-- Where the running fiber will switch to is saved who has resumed it. -/
  back : ∀ t x, s.thread t = some x → x.running ≠ x.t_thread_fiber →
    ∃ g, s.through x x.running = some g ∧ s.m_ctx g = x.resumer

/-- Two threads have no such fiber in common. -/
theorem OfThread.eq {t' : Nat} (h : s.OfThread t f) (h' : s.OfThread t' f) : t = t' := by
  rcases h with h | h
  · rcases h' with h' | h'
    · rw [h] at h'
      cases h'
      rfl
    · rw [h] at h'
      cases h'
  · rcases h' with h' | h'
    · rw [h] at h'
      cases h'
    · rw [h] at h'
      cases h'
      rfl

/-- A switch goes through a fiber of the thread. -/
theorem Good.through_ofThread (h : s.Good) (hx : s.thread t = some x) (hg : s.through x f = some g) :
    s.OfThread t g := by
  unfold through at hg
  split at hg
  · rcases h.scheduler t x g hx hg with rfl | hroot
    · exact .inl (h.main t x hx).1
    · exact .inr hroot
  · obtain rfl := Option.some.inj hg
    exact .inl (h.main t x hx).1

/-- It goes through another fiber than the one that is resumed. -/
theorem Good.through_ne (h : s.Good) (hx : s.thread t = some x) (hf : s.Resumable t f)
    (hg : s.through x f = some g) : f ≠ g := by
  rintro rfl
  rcases hf with hplain | hroot
  · rcases h.through_ofThread hx hg with hmain | hroot
    · rw [hplain] at hmain
      cases hmain
    · rw [hplain] at hroot
      cases hroot
  · -- a root fiber is resumed through the main fiber
    unfold through at hg
    rw [h.root t f hroot, if_neg (by simp)] at hg
    have hmain := (h.main t x hx).1
    rw [Option.some.inj hg, hroot] at hmain
    cases hmain

/-- The fiber a thread runs stays with no other thread. -/
theorem Good.running_away (h : s.Good) (hx : s.thread t = some x) {t' : Nat} (ht : t' ≠ t) :
    ¬ s.OfThread t' x.running := by
  intro hof
  rcases h.place t x hx with hmain | hplain | hroot
  · refine ht (hof.eq (.inl ?_))
    rw [hmain]
    exact (h.main t x hx).1
  · rcases hof with hof | hof
    · rw [hplain] at hof
      cases hof
    · rw [hplain] at hof
      cases hof
  · exact ht (hof.eq (.inr hroot))

theorem setState_good (h : s.Good) (f : Nat) (st : State) : (s.setState f st).Good :=
  ⟨h.main, h.root, h.scheduler, h.own, h.place, h.back⟩

/-- Whose locals are looked up, behind an update: the thread's whose locals were written, or another's. -/
theorem thread_cases {threads : Nat → Option ThreadLocals} {t t' : Nat} {y z : ThreadLocals}
    (hz : Function.update threads t (some y) t' = some z) :
    t' = t ∧ z = y ∨ t' ≠ t ∧ threads t' = some z := by
  by_cases ht : t' = t
  · subst ht
    rw [Function.update_self] at hz
    exact .inl ⟨rfl, (Option.some.inj hz).symm⟩
  · rw [Function.update_of_ne ht] at hz
    exact .inr ⟨ht, hz⟩

/-- A switch that keeps the thread's two fibers, and writes no `m_ctx` of another thread's. -/
theorem swapcontext_good (h : s.Good) (hx : s.thread t = some x) {y : ThreadLocals} {a b : Nat}
    (hmain : y.t_thread_fiber = x.t_thread_fiber)
    (hsched : y.t_scheduler_fiber = x.t_scheduler_fiber)
    (haway : ∀ t', t' ≠ t → ¬ s.OfThread t' a) (hown : s.kind a = some .plain → y.running = a)
    (hplace : Function.update s.m_ctx a y.running b = x.t_thread_fiber ∨
      s.Resumable t (Function.update s.m_ctx a y.running b))
    (hback : Function.update s.m_ctx a y.running b ≠ x.t_thread_fiber →
      ∃ g, s.through x (Function.update s.m_ctx a y.running b) = some g ∧
        Function.update s.m_ctx a y.running g = y.resumer) :
    (s.swapcontext t y a b).Good := by
  have hthread : ∀ t' z, (s.swapcontext t y a b).thread t' = some z →
      t' = t ∧ z = { y with running := Function.update s.m_ctx a y.running b } ∨
        t' ≠ t ∧ s.thread t' = some z := fun _ _ => thread_cases
  refine ⟨?_, h.root, ?_, ?_, ?_, ?_⟩
  · intro t' z hz
    rcases hthread t' z hz with ⟨rfl, rfl⟩ | ⟨-, hz⟩
    · show s.kind y.t_thread_fiber = _ ∧ s.m_runInScheduler y.t_thread_fiber = false
      rw [hmain]
      exact h.main t' x hx
    · exact h.main t' z hz
  · intro t' z r hz hr
    rcases hthread t' z hz with ⟨rfl, rfl⟩ | ⟨-, hz⟩
    · have hr' : x.t_scheduler_fiber = some r := hsched ▸ hr
      show r = y.t_thread_fiber ∨ _
      rw [hmain]
      exact h.scheduler t' x r hx hr'
    · exact h.scheduler t' z r hz hr
  · intro f hf
    show Function.update s.m_ctx a y.running f = f
    by_cases hfa : f = a
    · subst hfa
      rw [Function.update_self]
      exact hown hf
    · rw [Function.update_of_ne hfa]
      exact h.own f hf
  · intro t' z hz
    rcases hthread t' z hz with ⟨rfl, rfl⟩ | ⟨-, hz⟩
    · show _ = y.t_thread_fiber ∨ _
      rw [hmain]
      exact hplace
    · exact h.place t' z hz
  · intro t' z hz hne
    rcases hthread t' z hz with ⟨rfl, rfl⟩ | ⟨ht, hold⟩
    · have hne' : Function.update s.m_ctx a y.running b ≠ x.t_thread_fiber := hmain ▸ hne
      obtain ⟨g, hg, hctx⟩ := hback hne'
      refine ⟨g, ?_, hctx⟩
      unfold through at hg ⊢
      show (if s.m_runInScheduler _ = true then y.t_scheduler_fiber else some y.t_thread_fiber)
        = some g
      rw [hmain, hsched]
      exact hg
    · obtain ⟨g, hg, hctx⟩ := h.back t' z hold hne
      refine ⟨g, hg, ?_⟩
      show Function.update s.m_ctx a y.running g = _
      rw [Function.update_of_ne]
      · exact hctx
      · rintro rfl
        exact haway t' ht (h.through_ofThread hold hg)

/-- Behind a switch the names are right iff they are on the thread that has switched. -/
theorem named_swapcontext_iff (hnamed : s.Named) {y : ThreadLocals} {a b : Nat} :
    (s.swapcontext t y a b).Named ↔ y.t_fiber = Function.update s.m_ctx a y.running b := by
  constructor
  · intro h
    exact h t _ (Function.update_self ..)
  · intro h t' z hz
    rcases thread_cases hz with ⟨rfl, rfl⟩ | ⟨-, hold⟩
    · exact h
    · exact hnamed t' z hold

/-- `swapIn` names the fiber it resumes, and resumes what is in its `m_ctx`. -/
theorem swapIn_exact (h : s.Good) (hnamed : s.Named) (hstep : s.swapIn t f = some s') :
    (s'.Named ↔ s.m_ctx f = f) ∧ (s.m_ctx f = f → s'.Good) := by
  obtain ⟨x, hx, hrest⟩ := Option.bind_eq_some_iff.mp hstep
  obtain ⟨g, hg, hrest⟩ := Option.bind_eq_some_iff.mp hrest
  obtain ⟨⟨-, hf, -, -⟩, rfl⟩ := Lib.guarded_eq_some.mp hrest
  have hne := h.through_ne hx hf hg
  have hgood : (s.setState f .exec).Good := setState_good h f .exec
  have hkept : Function.update s.m_ctx g x.running f = s.m_ctx f := Function.update_of_ne hne ..
  have hof : s.OfThread t g := h.through_ofThread hx hg
  refine ⟨?_, ?_⟩
  · refine (named_swapcontext_iff (s := s.setState f .exec) hnamed).trans ?_
    show f = Function.update s.m_ctx g x.running f ↔ _
    rw [hkept]
    exact eq_comm
  · intro hown
    refine swapcontext_good (x := x) hgood hx rfl rfl ?_ ?_ ?_ ?_
    · intro t' ht hof'
      exact ht (hof'.eq hof)
    · intro hplain
      have hplain' : s.kind g = some .plain := hplain
      rcases hof with hof | hof
      · rw [hplain'] at hof
        cases hof
      · rw [hplain'] at hof
        cases hof
    · refine .inr ?_
      show s.Resumable t (Function.update s.m_ctx g x.running f)
      rw [hkept, hown]
      exact hf
    · intro _
      refine ⟨g, ?_, Function.update_self ..⟩
      show s.through x (Function.update s.m_ctx g x.running f) = some g
      rw [hkept, hown]
      exact hg

/-- `swapOut` names the main fiber, and resumes who has resumed the running one. -/
theorem swapOut_exact (h : s.Good) (hnamed : s.Named) (hx : s.thread t = some x)
    (hstep : s.swapOut t x.running = some s') :
    (s'.Named ↔ x.running = x.t_thread_fiber ∨ x.resumer = x.t_thread_fiber) ∧ (s'.Named → s'.Good) := by
  obtain ⟨x', hx', hrest⟩ := Option.bind_eq_some_iff.mp hstep
  obtain rfl : x = x' := Option.some.inj (hx.symm.trans hx')
  obtain ⟨g, hg, rfl⟩ := Option.map_eq_some_iff.mp hrest
  have hiff : (s.swapcontext t { x with t_fiber := x.t_thread_fiber } x.running g).Named
      ↔ x.t_thread_fiber = Function.update s.m_ctx x.running x.running g :=
    named_swapcontext_iff hnamed
  refine ⟨?_, ?_⟩
  · rw [hiff]
    by_cases hmain : x.running = x.t_thread_fiber
    · -- the main fiber switches to itself
      have hself : g = x.running := by
        unfold through at hg
        rw [hmain, (h.main t x hx).2, if_neg (by simp)] at hg
        rw [hmain]
        exact (Option.some.inj hg).symm
      rw [hself, Function.update_self]
      simp [hmain]
    · obtain ⟨g', hg', hctx⟩ := h.back t x hx hmain
      obtain rfl : g = g' := Option.some.inj (hg.symm.trans hg')
      have hne := h.through_ne hx ((h.place t x hx).resolve_left hmain) hg
      rw [Function.update_of_ne (Ne.symm hne), hctx]
      simp [hmain, eq_comm]
  · intro hafter
    have hend := hiff.mp hafter
    refine swapcontext_good (x := x) h hx rfl rfl (fun t' ht => h.running_away hx ht) (fun _ => rfl)
      (.inl hend.symm) ?_
    intro hne
    exact absurd hend.symm hne

/-! ## New threads and fibers -/

/-- A new fiber changes nothing for the ones there are. -/
theorem make_good (h : s.Good) (hnew : s.kind f = none) {k : Kind} {b : Bool} {st : State}
    (hroot : ∀ t', k = .root t' → b = false) : (s.make f k b st).Good := by
  have hne : ∀ g k', s.kind g = some k' → g ≠ f := by
    rintro g k' hg rfl
    rw [hnew] at hg
    cases hg
  have hkind : ∀ g k', s.kind g = some k' → (s.make f k b st).kind g = some k' := by
    intro g k' hg
    show Function.update s.kind f _ g = _
    rw [Function.update_of_ne (hne g k' hg), hg]
  have hflag : ∀ g k', s.kind g = some k' →
      (s.make f k b st).m_runInScheduler g = s.m_runInScheduler g := fun g k' hg =>
    Function.update_of_ne (hne g k' hg) ..
  refine ⟨?_, ?_, ?_, ?_, ?_, ?_⟩
  · intro t x hx
    obtain ⟨hmain, hrun⟩ := h.main t x hx
    exact ⟨hkind _ _ hmain, (hflag _ _ hmain).trans hrun⟩
  · intro t g hg
    have hg' : Function.update s.kind f (some k) g = some (.root t) := hg
    show Function.update s.m_runInScheduler f b g = false
    by_cases hgf : g = f
    · subst hgf
      rw [Function.update_self] at hg' ⊢
      exact hroot t (Option.some.inj hg')
    · rw [Function.update_of_ne hgf] at hg' ⊢
      exact h.root t g hg'
  · intro t x r hx hr
    exact (h.scheduler t x r hx hr).imp_right (hkind r _)
  · intro g hg
    have hg' : Function.update s.kind f (some k) g = some .plain := hg
    show Function.update s.m_ctx f f g = g
    by_cases hgf : g = f
    · subst hgf
      exact Function.update_self ..
    · rw [Function.update_of_ne hgf] at hg' ⊢
      exact h.own g hg'
  · intro t x hx
    refine (h.place t x hx).imp_right fun hres => ?_
    exact hres.imp (hkind _ _) (hkind _ _)
  · intro t x hx hrun
    obtain ⟨g, hg, hctx⟩ := h.back t x hx hrun
    have hold : ∃ k', s.kind x.running = some k' := by
      rcases (h.place t x hx).resolve_left hrun with hk | hk
      · exact ⟨_, hk⟩
      · exact ⟨_, hk⟩
    obtain ⟨k', hk'⟩ := hold
    have hgk : ∃ k'', s.kind g = some k'' := by
      rcases h.through_ofThread hx hg with hk | hk
      · exact ⟨_, hk⟩
      · exact ⟨_, hk⟩
    obtain ⟨k'', hk''⟩ := hgk
    refine ⟨g, ?_, ?_⟩
    · unfold through at hg ⊢
      rw [hflag _ _ hk']
      exact hg
    · show Function.update s.m_ctx f f g = _
      rw [Function.update_of_ne (hne g k'' hk'')]
      exact hctx

/-- A thread gets its scheduler fiber. -/
theorem scheduler_good (h : s.Good) (hx : s.thread t = some x) (hnone : x.t_scheduler_fiber = none)
    {r : Nat} (hr : r = x.t_thread_fiber ∨ s.kind r = some (.root t)) :
    ({ s with
        thread := Function.update s.thread t (some { x with t_scheduler_fiber := some r }) } :
      Threads).Good := by
  refine ⟨?_, h.root, ?_, h.own, ?_, ?_⟩
  · intro t' z hz
    rcases thread_cases hz with ⟨rfl, rfl⟩ | ⟨-, hold⟩
    · exact h.main t' x hx
    · exact h.main t' z hold
  · intro t' z r' hz hr'
    rcases thread_cases hz with ⟨rfl, rfl⟩ | ⟨-, hold⟩
    · obtain rfl : r = r' := Option.some.inj hr'
      exact hr
    · exact h.scheduler t' z r' hold hr'
  · intro t' z hz
    rcases thread_cases hz with ⟨rfl, rfl⟩ | ⟨-, hold⟩
    · exact h.place t' x hx
    · exact h.place t' z hold
  · intro t' z hz hrun
    rcases thread_cases hz with ⟨rfl, rfl⟩ | ⟨-, hold⟩
    · obtain ⟨g, hg, hctx⟩ := h.back t' x hx hrun
      refine ⟨g, ?_, hctx⟩
      -- without a scheduler fiber, the running fiber was resumed through the main one
      unfold through at hg ⊢
      rw [hnone] at hg
      split at hg
      · cases hg
      · rename_i hflag
        rw [if_neg hflag]
        exact hg
    · exact h.back t' z hold hrun

/-- A thread gets its first fiber. -/
theorem getThis_good (h : s.Good) (hnew : s.kind f = none) :
    ({ s.make f (.main t) false .exec with
        thread := Function.update s.thread t (some ⟨f, f, none, f, f⟩) } : Threads).Good := by
  have hmake : (s.make f (.main t) false .exec).Good :=
    make_good h hnew fun t' ht => (by cases ht)
  refine ⟨?_, hmake.root, ?_, hmake.own, ?_, ?_⟩
  · intro t' z hz
    rcases thread_cases hz with ⟨rfl, rfl⟩ | ⟨-, hold⟩
    · exact ⟨Function.update_self .., Function.update_self ..⟩
    · exact hmake.main t' z hold
  · intro t' z r hz hr
    rcases thread_cases hz with ⟨rfl, rfl⟩ | ⟨-, hold⟩
    · cases hr
    · exact hmake.scheduler t' z r hold hr
  · intro t' z hz
    rcases thread_cases hz with ⟨rfl, rfl⟩ | ⟨-, hold⟩
    · exact .inl rfl
    · exact hmake.place t' z hold
  · intro t' z hz hrun
    rcases thread_cases hz with ⟨rfl, rfl⟩ | ⟨-, hold⟩
    · exact absurd rfl hrun
    · exact hmake.back t' z hold hrun

/-- A thread's scheduler is destroyed, and its root fiber with it. -/
theorem destroy_good (h : s.Good) (hx : s.thread t = some x) {r : Nat}
    (hr : s.kind r = some (.root t)) (hrun : x.running ≠ r)
    (hplain : s.m_runInScheduler x.running = false) :
    ({ s with
        kind := Function.update s.kind r (some .gone)
        thread := Function.update s.thread t (some { x with t_scheduler_fiber := none }) } :
      Threads).Good := by
  have hkind : ∀ f k, s.kind f = some k → k ≠ .root t →
      Function.update s.kind r (some Kind.gone) f = some k := by
    intro f k hf hk
    rw [Function.update_of_ne, hf]
    rintro rfl
    exact hk (Option.some.inj (hf.symm.trans hr))
  have hback : ∀ f k, Function.update s.kind r (some Kind.gone) f = some k → k ≠ .gone →
      s.kind f = some k := by
    intro f k hf hk
    by_cases hfr : f = r
    · subst hfr
      rw [Function.update_self] at hf
      exact absurd (Option.some.inj hf).symm hk
    · rwa [Function.update_of_ne hfr] at hf
  refine ⟨?_, ?_, ?_, ?_, ?_, ?_⟩
  · intro t' z hz
    rcases thread_cases hz with ⟨rfl, rfl⟩ | ⟨-, hold⟩
    · obtain ⟨hmain, hflag⟩ := h.main t' x hx
      exact ⟨hkind _ _ hmain nofun, hflag⟩
    · obtain ⟨hmain, hflag⟩ := h.main t' z hold
      exact ⟨hkind _ _ hmain nofun, hflag⟩
  · intro t' f hf
    exact h.root t' f (hback f _ hf nofun)
  · intro t' z r' hz hr'
    rcases thread_cases hz with ⟨rfl, rfl⟩ | ⟨ht, hold⟩
    · cases hr'
    · -- the scheduler fiber of another thread is another fiber
      refine (h.scheduler t' z r' hold hr').imp_right fun hroot => hkind _ _ hroot ?_
      rintro ⟨⟩
      exact ht rfl
  · intro f hf
    exact h.own f (hback f _ hf nofun)
  · intro t' z hz
    rcases thread_cases hz with ⟨rfl, rfl⟩ | ⟨ht, hold⟩
    · refine (h.place t' x hx).imp_right fun hres => ?_
      show Function.update s.kind r (some .gone) x.running = some .plain ∨
        Function.update s.kind r (some .gone) x.running = some (.root t')
      rw [Function.update_of_ne hrun]
      exact hres
    · refine (h.place t' z hold).imp_right ?_
      rintro (hk | hk)
      · exact .inl (hkind _ _ hk nofun)
      · refine .inr (hkind _ _ hk ?_)
        rintro ⟨⟩
        exact ht rfl
  · intro t' z hz hne
    rcases thread_cases hz with ⟨rfl, rfl⟩ | ⟨-, hold⟩
    · obtain ⟨g, hg, hctx⟩ := h.back t' x hx hne
      refine ⟨g, ?_, hctx⟩
      -- the running fiber goes back through the main fiber
      unfold through at hg ⊢
      rw [hplain, if_neg (by simp)] at hg
      show (if s.m_runInScheduler x.running = true then _ else _) = _
      rw [hplain, if_neg (by simp)]
      exact hg
    · exact h.back t' z hold hne

/-- `reset` gives a fiber of its own stack its own context. -/
theorem reset_good (h : s.Good) (hplain : s.kind f = some .plain) :
    ({ s.setState f .init with m_ctx := Function.update s.m_ctx f f } : Threads).Good := by
  refine ⟨h.main, h.root, h.scheduler, ?_, h.place, ?_⟩
  · intro g hg
    show Function.update s.m_ctx f f g = g
    by_cases hgf : g = f
    · subst hgf
      exact Function.update_self ..
    · rw [Function.update_of_ne hgf]
      exact h.own g hg
  · intro t x hx hrun
    obtain ⟨g, hg, hctx⟩ := h.back t x hx hrun
    refine ⟨g, hg, ?_⟩
    show Function.update s.m_ctx f f g = _
    rw [Function.update_of_ne]
    · exact hctx
    · rintro rfl
      rcases h.through_ofThread hx hg with hof | hof
      · rw [hplain] at hof
        cases hof
      · rw [hplain] at hof
        cases hof

/-! ## Runs -/

/-- Locals that still name what runs. -/
theorem named_locals {u : Threads} {y : ThreadLocals} (hnamed : s.Named) (hx : s.thread t = some x)
    (hu : u.thread = Function.update s.thread t (some y))
    (hy : y.t_fiber = x.t_fiber ∧ y.running = x.running) : u.Named := by
  intro t' z hz
  rw [hu] at hz
  rcases thread_cases hz with ⟨rfl, rfl⟩ | ⟨-, hold⟩
  · rw [hy.1, hy.2]
    exact hnamed t' x hx
  · exact hnamed t' z hold

/-- A swap out of the running fiber, whatever its state has been set to. -/
theorem swapOut_careful {u : Threads} (h : u.Good) (hnamed : u.Named) (hx : u.thread t = some x)
    (hstep : u.swapOut t x.running = some s') :
    (s'.Named ↔ ∀ z ∈ u.thread t, z.running = z.t_thread_fiber ∨ z.resumer = z.t_thread_fiber) ∧
      ((∀ z ∈ u.thread t, z.running = z.t_thread_fiber ∨ z.resumer = z.t_thread_fiber) →
        s'.Good) := by
  obtain ⟨hiff, hgood⟩ := swapOut_exact h hnamed hx hstep
  have hone : (∀ z ∈ u.thread t, z.running = z.t_thread_fiber ∨ z.resumer = z.t_thread_fiber)
      ↔ x.running = x.t_thread_fiber ∨ x.resumer = x.t_thread_fiber := by
    rw [hx]
    simp
  rw [hone]
  exact ⟨hiff, fun hcare => hgood (hiff.mpr hcare)⟩

/-- **The step lemma.** -/
theorem step_exact {a : Act} (h : s.Good) (hnamed : s.Named) (hstep : s.step a = some s') :
    (s'.Named ↔ s.Careful a) ∧ (s.Careful a → s'.Good) := by
  -- a step that switches nothing keeps the names, and needs no care
  have hquiet : ∀ {u : Threads}, u.Named → u.Good →
      (u.Named ↔ True) ∧ (True → u.Good) := fun hn hg => ⟨iff_of_true hn trivial, fun _ => hg⟩
  cases a with
  | getThis t m =>
      obtain ⟨⟨-, hnew⟩, rfl⟩ := Lib.guarded_eq_some.mp hstep
      refine hquiet ?_ (getThis_good h (Option.isNone_iff_eq_none.mp hnew))
      intro t' z hz
      rcases thread_cases hz with ⟨rfl, rfl⟩ | ⟨-, hold⟩
      · rfl
      · exact hnamed t' z hold
  | newFiber f run_in_scheduler =>
      obtain ⟨hnew, rfl⟩ := Lib.guarded_eq_some.mp hstep
      exact hquiet hnamed (make_good h (Option.isNone_iff_eq_none.mp hnew) fun t' ht => (by cases ht))
  | useCaller t r =>
      obtain ⟨x, hx, hrest⟩ := Option.bind_eq_some_iff.mp hstep
      obtain ⟨⟨hnone, hnew⟩, rfl⟩ := Lib.guarded_eq_some.mp hrest
      have hmake : (s.make r (.root t) false .init).Good :=
        make_good h (Option.isNone_iff_eq_none.mp hnew) fun _ _ => rfl
      refine hquiet ?_ (scheduler_good hmake hx (Option.isNone_iff_eq_none.mp hnone)
        (.inr (Function.update_self ..)))
      exact named_locals hnamed hx rfl ⟨rfl, rfl⟩
  | destroy t =>
      obtain ⟨x, hx, hrest⟩ := Option.bind_eq_some_iff.mp hstep
      obtain ⟨r, -, hrest⟩ := Option.bind_eq_some_iff.mp hrest
      obtain ⟨⟨hroot, -, hrun, hplain⟩, rfl⟩ := Lib.guarded_eq_some.mp hrest
      refine hquiet ?_ (destroy_good h hx hroot hrun hplain)
      exact named_locals hnamed hx rfl ⟨rfl, rfl⟩
  | run t =>
      obtain ⟨x, hx, hrest⟩ := Option.bind_eq_some_iff.mp hstep
      obtain ⟨⟨hnone, hmain⟩, rfl⟩ := Lib.guarded_eq_some.mp hrest
      refine hquiet ?_ (scheduler_good h hx (Option.isNone_iff_eq_none.mp hnone)
        (.inl ((hnamed t x hx).trans hmain)))
      exact named_locals hnamed hx rfl ⟨rfl, rfl⟩
  | swapIn t f => exact swapIn_exact h hnamed hstep
  | yieldToReady t =>
      obtain ⟨x, hx, hrest⟩ := Option.bind_eq_some_iff.mp hstep
      rw [hnamed t x hx] at hrest
      exact swapOut_careful (u := s.setState x.running .ready) (setState_good h _ _) hnamed hx hrest
  | yieldToHold t =>
      obtain ⟨x, hx, hrest⟩ := Option.bind_eq_some_iff.mp hstep
      split at hrest
      · rw [hnamed t x hx] at hrest
        exact swapOut_careful h hnamed hx hrest
      · cases hrest
  | mainFunc t st =>
      obtain ⟨x, hx, hrest⟩ := Option.bind_eq_some_iff.mp hstep
      split at hrest
      · exact swapOut_careful (u := s.setState x.running st) (setState_good h _ _) hnamed hx hrest
      · cases hrest
  | hold f =>
      obtain ⟨-, rfl⟩ := Lib.guarded_eq_some.mp hstep
      exact hquiet hnamed (setState_good h f .hold)
  | reset f =>
      obtain ⟨⟨hplain, -⟩, rfl⟩ := Lib.guarded_eq_some.mp hstep
      exact hquiet hnamed (reset_good h hplain)

theorem good_empty : empty.Good := by
  refine ⟨?_, ?_, ?_, ?_, ?_, ?_⟩
  · intro t x hx
    cases hx
  · intro t f hf
    cases hf
  · intro t x r hx
    cases hx
  · intro f hf
    cases hf
  · intro t x hx
    cases hx
  · intro t x hx
    cases hx

/-- **`Fiber::GetThis` names the running fiber**, throughout a run of any threads and fibers, iff each of
its switches is careful. -/
theorem named_throughout_iff {as : List Act} {u : Threads} (hrun : switching.exec .empty as = some u) :
    (∀ bs s, bs <+: as → switching.exec .empty bs = some s → s.Named)
      ↔ switching.Along Careful .empty as := by
  refine Lib.System.throughout_iff (M := switching) (I := Good) ?_ ?_ good_empty ?_ hrun
  · intro s a s' h hnamed hcare hstep
    exact (step_exact h hnamed hstep).2 hcare
  · intro s a s' h hnamed hstep
    exact (step_exact h hnamed hstep).1
  · intro t x hx
    cases hx

/-- Thread 0 has a scheduler of its own, and uses a fiber besides; thread 1 is of the pool.  In the end
thread 0 has another scheduler. -/
def poolRun : List Act :=
  [.getThis 0 10, .useCaller 0 11, .newFiber 20 true, .newFiber 21 false, .swapIn 0 21,
    .getThis 1 12, .run 1, .swapIn 1 20, .yieldToReady 0, .yieldToHold 1, .hold 20, .swapIn 0 11,
    .swapIn 1 20, .mainFunc 1 .term, .mainFunc 0 .term, .destroy 0, .useCaller 0 13, .swapIn 0 13]

theorem named_throughout_pool :
    let s := (switching.exec .empty poolRun).get (by decide)
    s.Named := by
  intro s
  have hrun : switching.exec .empty poolRun = some s := (Option.some_get _).symm
  exact (named_throughout_iff hrun).mpr (by decide) poolRun s (List.prefix_refl _) hrun

/-- The root fiber runs a task, which waits. -/
def callerRun : List Act :=
  [.getThis 0 10, .useCaller 0 11, .newFiber 20 true, .swapIn 0 11, .swapIn 0 20, .yieldToHold 0]

/-- The main fiber runs a task past the root fiber, which is started afterwards. -/
def pastRun : List Act :=
  [.getThis 0 10, .useCaller 0 11, .newFiber 20 true, .swapIn 0 20, .yieldToReady 0, .swapIn 0 11]

/-- After the first the root fiber runs under the name of the main fiber; after the second the main fiber
runs under the name of the root fiber. -/
theorem not_named :
    (∃ s x, switching.exec .empty callerRun = some s ∧ s.thread 0 = some x ∧ x.running = 11 ∧
      x.t_fiber = 10 ∧ ¬ s.Named) ∧
    ∃ s x, switching.exec .empty pastRun = some s ∧ s.thread 0 = some x ∧ x.running = 10 ∧
      x.t_fiber = 11 ∧ ¬ s.Named := by
  refine ⟨⟨_, _, rfl, rfl, rfl, rfl, ?_⟩, ⟨_, _, rfl, rfl, rfl, rfl, ?_⟩⟩
  · intro h
    exact absurd (h 0 _ rfl) (by decide)
  · intro h
    exact absurd (h 0 _ rfl) (by decide)

end Threads

end Sylar.Scheduler
