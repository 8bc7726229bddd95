/-
# Sylar.Worker.Stop — calling `Scheduler::stop` twice.

`stop` raises the flags, tickles the threads, resumes `m_rootFiber` if the scheduler was made with
`use_caller`, so that the caller's thread runs `run` to its end, and joins the other threads.  A
second call is meant to fall out at the top: with the root fiber in `INIT` or `TERM` and `stopping`
true it returns at once.  But that way out is only for `m_threadCount == 0`, and it is closed where
`stopping` answers false.  Past it the root fiber is resumed whatever its state is, and behind its end
there is the `never reach` assertion (`stopped_twice`).

`Threads` is what `stop` uses of a scheduler: its threads as a system, and the virtual functions; a
plain scheduler and an `IOManager` are two instances.  Over it `Manager` is the object with the
thread that calls `stop`, which may be any thread.  `stop_twice` says when a second call changes
nothing.
-/
import Sylar.Worker.Stopping
import Sylar.Worker.Leaving

namespace Sylar.Worker

open Scheduler (Fiber Sched Pc Job)
open Timers (TimeManager maxU64)
open Lib (census guarded)

/-! ## The threads of a scheduler, as `stop` sees them -/

/-- A scheduler's threads and virtual functions, with what `stop` relies on. -/
structure Threads (ι σ α : Type) where
  system : Lib.System σ α
  pc : σ → ι → Pc
  /-- The thread that enters `run` in the step. -/
  enters : α → Option ι
  /-- `m_autostop = true; m_stopping = true;`.  `m_stopping` is never false. -/
  raise : σ → σ
  tickle : σ → σ
  stopping : UInt64 → σ → Bool
  /-- What a call of `stopping` writes. -/
  look : σ → σ
  /-- What is true of the threads in every run. -/
  Good : σ → Prop
  /-- The flags are up. -/
  Raised : σ → Prop
  init_good : ∀ s, system.init s → Good s ∧ ∀ t, pc s t = .outside
  step_good : ∀ s a s', Good s → system.step s a = some s' → Good s'
  step_raised : ∀ s a s', Raised s → system.step s a = some s' → Raised s'
  step_outside : ∀ s a s' t, system.step s a = some s' → pc s t = .outside →
    pc s' t = .outside ∨ enters a = some t
  step_finished : ∀ s a s' t, system.step s a = some s' → pc s t = .finished → pc s' t = .finished
  raise_good : ∀ s, Good s → Good (raise s) ∧ Raised (raise s) ∧ pc (raise s) = pc s
  raise_raised : ∀ s, Raised s → raise s = s
  tickle_good : ∀ s, Good s → Good (tickle s) ∧ (Raised s → Raised (tickle s)) ∧ pc (tickle s) = pc s
  look_good : ∀ s, Good s → Good (look s) ∧ (Raised s → Raised (look s)) ∧ pc (look s) = pc s
  /-- Nobody is idle when nobody is in `run`, and then `tickle` does nothing. -/
  tickle_gone : ∀ s, Good s → (∀ t, pc s t = .outside ∨ pc s t = .finished) → tickle s = s

/-! ## `stop` -/

/-- Where the thread that calls `stop` is. -/
inductive StopPc (ι : Type)
  | outside
  | entry
  /-- Before the first `stopping()`. -/
  | early
  /-- Before the assertion about `GetThis()`. -/
  | caller
  /-- In the loop that calls `tickle()`, so often. -/
  | tickles (n : Nat)
  /-- Before `m_rootFiber->swapIn()`. -/
  | root
  /-- In the root fiber. -/
  | inRoot
  /-- Before `thrs.swap(m_threads)`. -/
  | swap
  | join (thrs : List ι)
  /-- Before the last `stopping()`. -/
  | last
  | returned
  deriving DecidableEq

/-- The assertions on the way. -/
inductive StopFault
  /-- `GetThis() == this`, or `!=`. -/
  | wrongThread
  /-- `m_state != EXEC` in `swapIn`. -/
  | swapInExec
  /-- The end of `MainFunc`. -/
  | neverReach
  deriving DecidableEq, Repr

/-- A scheduler object, and the thread that calls `stop`. -/
structure Manager (ι σ : Type) where
  workers : σ
  m_threadCount : Nat
  /-- All threads started so far. -/
  started : List ι
  m_threads : List ι
  /-- Null unless the scheduler was made with `use_caller`. -/
  m_rootFiber : Option Fiber
  /-- `GetThis() == this` on the calling thread. -/
  isThis : Bool
  pc : StopPc ι
  /-- How often `m_rootFiber` has been resumed. -/
  resumed : Nat
  fault : Option StopFault

namespace Manager

variable {ι σ α : Type}

/-- `Scheduler::Scheduler(threads, use_caller)`, with its threads. -/
def new (workers : σ) (threads : Nat) (use_caller isThis : Bool) : Manager ι σ where
  workers := workers
  m_threadCount := if use_caller then threads - 1 else threads
  started := []
  m_threads := []
  m_rootFiber := if use_caller then some (.new (some 0)) else none
  isThis := isThis
  pc := .outside
  resumed := 0
  fault := none

/-- `m_rootFiber && m_threadCount == 0 && (TERM || INIT)`. -/
def mayReturn (m : Manager ι σ) : Bool :=
  m.m_threadCount = 0 && m.m_rootFiber.any fun f => f.m_state = .term || f.m_state = .init

/-- One step of the thread in `stop`, the clock reading `now`; `root` is the caller's thread as a
worker.  A join waits for its thread, and so does the caller for its own `run`. -/
def stopStep (T : Threads ι σ α) (root : ι) (now : UInt64) (m : Manager ι σ) :
    Option (Manager ι σ) :=
  if m.fault.isSome then none
  else
    match m.pc with
    | .outside | .returned => none
    | .entry =>
        some { m with workers := T.raise m.workers, pc := if m.mayReturn then .early else .caller }
    | .early =>
        some { m with
          workers := T.look m.workers
          pc := if T.stopping now m.workers then .returned else .caller }
    | .caller =>
        if m.m_rootFiber.isSome = m.isThis then
          some { m with pc := .tickles (m.m_threadCount + m.m_rootFiber.isSome.toNat) }
        else some { m with fault := some .wrongThread }
    | .tickles (n + 1) => some { m with workers := T.tickle m.workers, pc := .tickles n }
    | .tickles 0 => some { m with pc := if m.m_rootFiber.isSome then .root else .swap }
    | .root =>
        match m.m_rootFiber with
        | none => none
        | some f =>
            if f.m_state = .exec then some { m with fault := some .swapInExec }
            else
              let m' := { m with m_rootFiber := some (f.setState .exec), resumed := m.resumed + 1 }
              if f.m_ctx = .ended then some { m' with fault := some .neverReach }
              else some { m' with pc := .inRoot }
    | .inRoot =>
        guarded (T.pc m.workers root = .finished)
          { m with m_rootFiber := m.m_rootFiber.map fun f => f.finish.save .ended, pc := .swap }
    | .swap => some { m with m_threads := [], pc := .join m.m_threads }
    | .join [] => some { m with pc := .last }
    | .join (t :: thrs) => guarded (T.pc m.workers t = .finished) { m with pc := .join thrs }
    | .last => some { m with workers := T.look m.workers, pc := .returned }

/-- What may happen around the first call of `stop`. -/
inductive Step (ι α : Type)
  /-- A step of the threads, or of anybody else who uses the scheduler. -/
  | work (a : α)
  /-- `start`, with the threads it makes. -/
  | start (ts : List ι)
  /-- `stop` is called. -/
  | stop
  /-- And goes on. -/
  | go (now : UInt64)
  deriving DecidableEq

/-- A thread enters `run` if it has been started, and the caller's does inside the root fiber. -/
def MayEnter [DecidableEq ι] (root : ι) (m : Manager ι σ) (o : Option ι) : Prop :=
  ∀ t, o = some t → t ∈ m.started ∨ t = root ∧ m.pc = .inRoot

instance [DecidableEq ι] (root : ι) (m : Manager ι σ) : DecidablePred (m.MayEnter root)
  | none => isTrue fun t ht => by cases ht
  | some t => decidable_of_iff (t ∈ m.started ∨ t = root ∧ m.pc = .inRoot) (by simp [MayEnter])

/-- Take a step. -/
def step [DecidableEq ι] (T : Threads ι σ α) (root : ι) (m : Manager ι σ) :
    Step ι α → Option (Manager ι σ)
  | .work a =>
      if m.MayEnter root (T.enters a) then
        (T.system.step m.workers a).map fun w => { m with workers := w }
      else none
  | .start ts =>
      guarded (m.pc = .outside ∧ m.m_threads = [] ∧ ts.length = m.m_threadCount ∧
          ∀ t ∈ ts, t ≠ root ∧ t ∉ m.started)
        { m with started := ts ++ m.started, m_threads := ts }
  | .stop => guarded (m.pc = .outside) { m with pc := .entry }
  | .go now => m.stopStep T root now

end Manager

/-- A scheduler from its construction to the end of the first call of `stop`, and on. -/
def manager {ι σ α : Type} [DecidableEq ι] (T : Threads ι σ α) (root : ι) :
    Lib.System (Manager ι σ) (Manager.Step ι α) where
  init m := ∃ w threads use_caller isThis, T.system.init w ∧ 0 < threads ∧
    m = .new w threads use_caller isThis
  step m a := m.step T root a

namespace Manager

variable {ι σ α : Type} {T : Threads ι σ α} {root : ι} {m m' : Manager ι σ} {now : UInt64}

/-- The calling thread on its own for `n` steps. -/
def runStop (T : Threads ι σ α) (root : ι) (now : UInt64) : Nat → Manager ι σ → Option (Manager ι σ)
  | 0, m => some m
  | n + 1, m => (m.stopStep T root now).bind (runStop T root now n)

/-- **A second call of `stop` does nothing**: it returns, no assertion fails, the root fiber is not
resumed and the object is as before, up to what `stopping` writes. -/
def Again (T : Threads ι σ α) (root : ι) (now : UInt64) (m : Manager ι σ) : Prop :=
  ∃ n, runStop T root now n { m with pc := .entry } = some { m with workers := T.look m.workers }

/-! ## What a step of `stop` can do -/

/-- **What each step of the calling thread does.** -/
inductive Goes (T : Threads ι σ α) (root : ι) (now : UInt64) (m : Manager ι σ) : Manager ι σ → Prop
  | entry : m.pc = .entry → Goes T root now m
      { m with workers := T.raise m.workers, pc := if m.mayReturn then .early else .caller }
  | early : m.pc = .early → Goes T root now m
      { m with
        workers := T.look m.workers
        pc := if T.stopping now m.workers then .returned else .caller }
  | caller : m.pc = .caller → m.m_rootFiber.isSome = m.isThis → Goes T root now m
      { m with pc := .tickles (m.m_threadCount + m.m_rootFiber.isSome.toNat) }
  | tickle {n} : m.pc = .tickles (n + 1) → Goes T root now m
      { m with workers := T.tickle m.workers, pc := .tickles n }
  | tickled : m.pc = .tickles 0 → Goes T root now m
      { m with pc := if m.m_rootFiber.isSome then .root else .swap }
  | swapIn {f} : m.pc = .root → m.m_rootFiber = some f → f.m_ctx ≠ .ended → Goes T root now m
      { m with m_rootFiber := some (f.setState .exec), resumed := m.resumed + 1, pc := .inRoot }
  | back : m.pc = .inRoot → T.pc m.workers root = .finished → Goes T root now m
      { m with m_rootFiber := m.m_rootFiber.map fun f => f.finish.save .ended, pc := .swap }
  | swap : m.pc = .swap → Goes T root now m { m with m_threads := [], pc := .join m.m_threads }
  | join {t thrs} : m.pc = .join (t :: thrs) → T.pc m.workers t = .finished →
      Goes T root now m { m with pc := .join thrs }
  | joined : m.pc = .join [] → Goes T root now m { m with pc := .last }
  | last : m.pc = .last → Goes T root now m
      { m with workers := T.look m.workers, pc := .returned }
  | fail {e} : m.pc = .caller ∨ m.pc = .root → Goes T root now m { m with fault := some e }
  | never {f} : m.pc = .root → m.m_rootFiber = some f → Goes T root now m
      { m with
        m_rootFiber := some (f.setState .exec)
        resumed := m.resumed + 1
        fault := some .neverReach }

theorem goes (h : m.stopStep T root now = some m') :
    m.fault = none ∧ Goes T root now m m' := by
  unfold stopStep at h
  split at h
  · cases h
  rename_i hfault
  refine ⟨by simpa using hfault, ?_⟩
  split at h
  · cases h
  · cases h
  · rename_i hpc
    exact Option.some.inj h ▸ .entry hpc
  · rename_i hpc
    exact Option.some.inj h ▸ .early hpc
  · rename_i hpc
    split at h
    · rename_i hthis
      exact Option.some.inj h ▸ .caller hpc hthis
    · exact Option.some.inj h ▸ .fail (.inl hpc)
  · rename_i n hpc
    exact Option.some.inj h ▸ .tickle hpc
  · rename_i hpc
    exact Option.some.inj h ▸ .tickled hpc
  · rename_i hpc
    split at h
    · cases h
    rename_i f hf
    split at h
    · exact Option.some.inj h ▸ .fail (.inr hpc)
    · split at h
      · exact Option.some.inj h ▸ .never hpc hf
      · rename_i hctx
        exact Option.some.inj h ▸ .swapIn hpc hf hctx
  · rename_i hpc
    obtain ⟨hend, rfl⟩ := Lib.guarded_eq_some.mp h
    exact .back hpc hend
  · rename_i hpc
    exact Option.some.inj h ▸ .swap hpc
  · rename_i hpc
    exact Option.some.inj h ▸ .joined hpc
  · rename_i t thrs hpc
    obtain ⟨hend, rfl⟩ := Lib.guarded_eq_some.mp h
    exact .join hpc hend
  · rename_i hpc
    exact Option.some.inj h ▸ .last hpc

/-! ## What holds around the first call -/

/-- `m_autostop` and `m_stopping` are up: behind the first lines of `stop`. -/
def Past : StopPc ι → Prop
  | .outside | .entry => False
  | _ => True

/-- The threads that are still to be joined. -/
def awaited (m : Manager ι σ) : List ι :=
  match m.pc with
  | .join thrs => thrs
  | .last | .returned => []
  | _ => m.m_threads

/-- At the joins, or behind them. -/
def Joining : StopPc ι → Prop
  | .join _ | .last | .returned => True
  | _ => False

theorem awaited_of (h : ¬ Joining m.pc) : m.awaited = m.m_threads := by
  unfold awaited
  split <;> simp_all [Joining]

/-- Before the joins the same threads are awaited at every place. -/
theorem awaited_keep {t : ι} (ht : t ∈ m.awaited) (h : ¬ Joining m.pc) (h' : ¬ Joining m'.pc)
    (hthreads : m'.m_threads = m.m_threads) : t ∈ m'.awaited := by
  rw [awaited_of h] at ht
  rw [awaited_of h', hthreads]
  exact ht

/-- The assertion about `GetThis()` holds for a scheduler without a root fiber. -/
def Apart (m : Manager ι σ) : Prop := m.m_rootFiber = none → m.isThis = false

/-- What is known at each place of `stop`. -/
def At (m : Manager ι σ) : Prop :=
  match m.pc with
  | .outside | .entry | .caller => True
  | .early => m.m_rootFiber.isSome = true ∧ m.m_threadCount = 0
  | .tickles _ | .root | .inRoot | .swap => m.Apart
  | .join _ | .last => m.Apart ∧ m.m_threads = []
  | .returned => m.Apart ∧ m.m_threads = [] ∧ m.fault = none

/-- What holds around the first call of `stop`, whatever the configuration. -/
structure Inv (T : Threads ι σ α) (root : ι) (m : Manager ι σ) : Prop where
  good : T.Good m.workers
  raised : Past m.pc → T.Raised m.workers
  /-- Only a thread that was started, or the caller's inside the root fiber, is in `run`. -/
  place : ∀ t, T.pc m.workers t = .outside ∨ t ∈ m.started ∨
    t = root ∧ (m.pc = .inRoot ∨ T.pc m.workers t = .finished)
  join : ∀ t ∈ m.started, T.pc m.workers t = .finished ∨ t ∈ m.awaited
  alone : m.m_threadCount = 0 → m.started = [] ∧ m.m_threads = []
  /-- The root fiber is fresh or over, but while it runs. -/
  fiber : ∀ f, m.m_rootFiber = some f → f.m_state = .init ∨ f.m_state = .term ∨ m.pc = .inRoot ∨
    m.fault.isSome = true
  here : m.At

/-- A new scheduler. -/
theorem inv_new {w : σ} {threads : Nat} {use_caller isThis : Bool} (hw : T.system.init w) :
    Inv T root (.new w threads use_caller isThis) where
  good := (T.init_good w hw).1
  raised := False.elim
  place t := .inl ((T.init_good w hw).2 t)
  join t ht := by cases ht
  alone _ := ⟨rfl, rfl⟩
  fiber f hf := by
    cases use_caller with
    | true => exact .inl (Option.some.inj hf ▸ rfl)
    | false => cases hf
  here := trivial

/-- A step of the threads. -/
theorem inv_work [DecidableEq ι] {a : α} {w : σ} (hs : Inv T root m)
    (hin : m.MayEnter root (T.enters a)) (h : T.system.step m.workers a = some w) :
    Inv T root { m with workers := w } where
  good := T.step_good _ _ _ hs.good h
  raised hp := T.step_raised _ _ _ (hs.raised hp) h
  place t := by
    rcases hs.place t with hout | hmem | ⟨rfl, hroot | hend⟩
    · rcases T.step_outside _ _ _ t h hout with hout | henter
      · exact .inl hout
      · rcases hin t henter with hmem | ⟨rfl, hroot⟩
        · exact .inr (.inl hmem)
        · exact .inr (.inr ⟨rfl, .inl hroot⟩)
    · exact .inr (.inl hmem)
    · exact .inr (.inr ⟨rfl, .inl hroot⟩)
    · exact .inr (.inr ⟨rfl, .inr (T.step_finished _ _ _ t h hend)⟩)
  join t ht := (hs.join t ht).imp (T.step_finished _ _ _ t h) id
  alone := hs.alone
  fiber := hs.fiber
  here := hs.here

/-- `start`. -/
theorem inv_start {ts : List ι} (hs : Inv T root m) (hpc : m.pc = .outside)
    (hnone : m.m_threads = []) (hlen : ts.length = m.m_threadCount) :
    Inv T root { m with started := ts ++ m.started, m_threads := ts } where
  good := hs.good
  raised := hs.raised
  place t := (hs.place t).imp id (Or.imp (List.mem_append_right ts) id)
  join t ht := by
    have hout : ¬ Joining m.pc := by
      rw [hpc]
      exact id
    rw [awaited_of (m := { m with started := ts ++ m.started, m_threads := ts }) hout]
    rcases List.mem_append.mp ht with ht | ht
    · exact .inr ht
    · have hold := hs.join t ht
      rw [awaited_of hout, hnone] at hold
      exact .inl (hold.resolve_right (by simp))
  alone hzero := by
    obtain rfl : ts = [] := List.eq_nil_of_length_eq_zero (by rw [hlen]; exact hzero)
    exact ⟨(hs.alone hzero).1, rfl⟩
  fiber := hs.fiber
  here := by
    unfold At
    simp only [hpc]

/-- A step that moves the calling thread on and leaves the object alone, up to a call of a virtual
function. -/
theorem inv_move {w : σ} {p : StopPc ι} (hs : Inv T root m) (hgood : T.Good w)
    (hup : Past p → T.Raised w) (hw : T.pc w = T.pc m.workers) (hroot : m.pc ≠ .inRoot)
    (hjoin : ∀ t ∈ m.awaited, T.pc m.workers t = .finished ∨
      t ∈ { m with workers := w, pc := p }.awaited)
    (hhere : { m with workers := w, pc := p }.At) : Inv T root { m with workers := w, pc := p } where
  good := hgood
  raised := hup
  place t := by
    show T.pc w t = _ ∨ _ ∨ _ ∧ (_ ∨ T.pc w t = _)
    rw [hw]
    exact (hs.place t).imp id (Or.imp id (And.imp_right fun h => .inr (h.resolve_left hroot)))
  join t ht := by
    show T.pc w t = _ ∨ _
    rw [hw]
    exact (hs.join t ht).elim .inl (hjoin t)
  alone := hs.alone
  fiber f hf := (hs.fiber f hf).imp id (Or.imp id fun h => .inr (h.resolve_left hroot))
  here := hhere

/-- Behind the flags what is known at a place is known, and they are up. -/
theorem Inv.behind (hs : Inv T root m) {p : StopPc ι} (hpc : m.pc = p) (hp : Past p) :
    T.Raised m.workers := hs.raised (hpc ▸ hp)

/-- The flags go up. -/
theorem inv_entry (hs : Inv T root m) (hpc : m.pc = .entry) : Inv T root
    { m with workers := T.raise m.workers, pc := if m.mayReturn then .early else .caller } := by
  obtain ⟨hgood, hup, hw⟩ := T.raise_good _ hs.good
  refine inv_move hs hgood (fun _ => hup) hw (by simp [hpc]) (fun t ht => .inr ?_) ?_
  · exact awaited_keep ht (by rw [hpc]; exact id) (by cases m.mayReturn <;> exact id) rfl
  · unfold At
    cases hmay : m.mayReturn with
    | true =>
        simp only [mayReturn, Bool.and_eq_true, decide_eq_true_eq, Option.any_eq_true] at hmay
        obtain ⟨hzero, f, hf, -⟩ := hmay
        exact ⟨by rw [hf]; rfl, hzero⟩
    | false => trivial

/-- The early return joins nobody: with `m_threadCount == 0` there is nobody to join. -/
theorem inv_early (hs : Inv T root m) (hfault : m.fault = none) (hpc : m.pc = .early) : Inv T root
    { m with
      workers := T.look m.workers
      pc := if T.stopping now m.workers then .returned else .caller } := by
  have hhere := hs.here
  simp only [At, hpc] at hhere
  obtain ⟨hgood, hup, hw⟩ := T.look_good _ hs.good
  obtain ⟨hfiber, hzero⟩ := hhere
  obtain ⟨hstarted, hthreads⟩ := hs.alone hzero
  refine inv_move hs hgood (fun _ => hup (hs.behind hpc trivial)) hw (by simp [hpc])
    (fun t ht => ?_) ?_
  · rw [awaited_of (by rw [hpc]; exact id), hthreads] at ht
    cases ht
  · unfold At
    cases T.stopping now m.workers with
    | true =>
        -- a scheduler that can return early has a root fiber
        refine ⟨fun hnull => ?_, hthreads, hfault⟩
        rw [show m.m_rootFiber = none from hnull] at hfiber
        cases hfiber
    | false => trivial

/-- The assertion about `GetThis()` has passed, which is what a second call will need. -/
theorem inv_caller (hs : Inv T root m) (hpc : m.pc = .caller)
    (hthis : m.m_rootFiber.isSome = m.isThis) : Inv T root
    { m with pc := .tickles (m.m_threadCount + m.m_rootFiber.isSome.toNat) } := by
  refine inv_move hs hs.good (fun _ => hs.behind hpc trivial) rfl (by simp [hpc])
    (fun t ht => .inr ?_) ?_
  · exact awaited_keep ht (by rw [hpc]; exact id) id rfl
  · intro hnull
    rw [← hthis, hnull]
    rfl

theorem inv_tickle (hs : Inv T root m) {n : Nat} (hpc : m.pc = .tickles (n + 1)) : Inv T root
    { m with workers := T.tickle m.workers, pc := .tickles n } := by
  have hhere := hs.here
  simp only [At, hpc] at hhere
  obtain ⟨hgood, hup, hw⟩ := T.tickle_good _ hs.good
  refine inv_move hs hgood (fun _ => hup (hs.behind hpc trivial)) hw (by simp [hpc])
    (fun t ht => .inr ?_) hhere
  exact awaited_keep ht (by rw [hpc]; exact id) id rfl

theorem inv_tickled (hs : Inv T root m) (hpc : m.pc = .tickles 0) : Inv T root
    { m with pc := if m.m_rootFiber.isSome then .root else .swap } := by
  have hhere := hs.here
  simp only [At, hpc] at hhere
  refine inv_move hs hs.good (fun _ => hs.behind hpc trivial) rfl (by simp [hpc])
    (fun t ht => .inr ?_) ?_
  · exact awaited_keep ht (by rw [hpc]; exact id) (by cases m.m_rootFiber.isSome <;> exact id) rfl
  · unfold At
    cases m.m_rootFiber.isSome <;> exact hhere

/-- The caller goes into the root fiber, and may be in `run` from here on. -/
theorem inv_swapIn (hs : Inv T root m) {f : Fiber} (hpc : m.pc = .root) : Inv T root
    { m with m_rootFiber := some (f.setState .exec), resumed := m.resumed + 1, pc := .inRoot } := by
  refine ⟨hs.good, fun _ => hs.behind hpc trivial, fun t => ?_, fun t ht => ?_, hs.alone,
    fun f _ => .inr (.inr (.inl rfl)), fun hnull => by cases hnull⟩
  · exact (hs.place t).imp id (Or.imp id (And.imp_right fun _ => .inl rfl))
  · refine (hs.join t ht).imp id fun ht => ?_
    exact awaited_keep ht (by rw [hpc]; exact id) id rfl

/-- `swapIn` comes back when the caller's own `run` is over. -/
theorem inv_back (hs : Inv T root m) (hpc : m.pc = .inRoot) (hend : T.pc m.workers root = .finished) :
    Inv T root
      { m with m_rootFiber := m.m_rootFiber.map fun f => f.finish.save .ended, pc := .swap } := by
  have hhere := hs.here
  simp only [At, hpc] at hhere
  refine ⟨hs.good, fun _ => hs.behind hpc trivial, fun t => ?_, fun t ht => ?_, hs.alone,
    fun f hf => ?_, fun hnull => hhere (by simpa using hnull)⟩
  · rcases hs.place t with hout | hmem | ⟨rfl, -⟩
    · exact .inl hout
    · exact .inr (.inl hmem)
    · exact .inr (.inr ⟨rfl, .inr hend⟩)
  · refine (hs.join t ht).imp id fun ht => ?_
    exact awaited_keep ht (by rw [hpc]; exact id) id rfl
  · obtain ⟨g, -, rfl⟩ := Option.map_eq_some_iff.mp hf
    exact .inr (.inl rfl)

/-- The threads are taken over to be joined. -/
theorem inv_swap (hs : Inv T root m) (hpc : m.pc = .swap) :
    Inv T root { m with m_threads := [], pc := .join m.m_threads } := by
  have hhere := hs.here
  simp only [At, hpc] at hhere
  have hroot : m.pc ≠ .inRoot := by simp [hpc]
  refine ⟨hs.good, fun _ => hs.behind hpc trivial, fun t => ?_, fun t ht => ?_,
    fun hzero => ⟨(hs.alone hzero).1, rfl⟩, fun f hf => ?_, hhere, rfl⟩
  · exact (hs.place t).imp id (Or.imp id (And.imp_right fun h => .inr (h.resolve_left hroot)))
  · refine (hs.join t ht).imp id fun ht => ?_
    rw [awaited_of (by rw [hpc]; exact id)] at ht
    exact ht
  · exact (hs.fiber f hf).imp id (Or.imp id fun h => .inr (h.resolve_left hroot))

theorem inv_join (hs : Inv T root m) {t : ι} {thrs : List ι} (hpc : m.pc = .join (t :: thrs))
    (hend : T.pc m.workers t = .finished) : Inv T root { m with pc := .join thrs } := by
  have hhere := hs.here
  simp only [At, hpc] at hhere
  refine inv_move hs hs.good (fun _ => hs.behind hpc trivial) rfl (by simp [hpc]) (fun u hu => ?_)
    hhere
  unfold awaited at hu
  rw [hpc] at hu
  -- the one that is joined has finished, and the others are still awaited
  rcases List.mem_cons.mp hu with rfl | hu
  · exact .inl hend
  · exact .inr hu

theorem inv_joined (hs : Inv T root m) (hpc : m.pc = .join []) : Inv T root { m with pc := .last } := by
  have hhere := hs.here
  simp only [At, hpc] at hhere
  refine inv_move hs hs.good (fun _ => hs.behind hpc trivial) rfl (by simp [hpc]) (fun u hu => ?_)
    hhere
  unfold awaited at hu
  rw [hpc] at hu
  cases hu

theorem inv_last (hs : Inv T root m) (hfault : m.fault = none) (hpc : m.pc = .last) :
    Inv T root { m with workers := T.look m.workers, pc := .returned } := by
  have hhere := hs.here
  simp only [At, hpc] at hhere
  obtain ⟨hgood, hup, hw⟩ := T.look_good _ hs.good
  refine inv_move hs hgood (fun _ => hup (hs.behind hpc trivial)) hw (by simp [hpc])
    (fun u hu => ?_) ⟨hhere.1, hhere.2, hfault⟩
  unfold awaited at hu
  rw [hpc] at hu
  cases hu

theorem inv_fail (hs : Inv T root m) {e : StopFault} (hpc : m.pc = .caller ∨ m.pc = .root) :
    Inv T root { m with fault := some e } := by
  refine ⟨hs.good, hs.raised, hs.place, hs.join, hs.alone, fun f _ => .inr (.inr (.inr rfl)), ?_⟩
  have hhere := hs.here
  unfold At at hhere ⊢
  rcases hpc with hpc | hpc <;> simp only [hpc] at hhere ⊢
  exact hhere

theorem inv_never (hs : Inv T root m) {f : Fiber} (hpc : m.pc = .root) : Inv T root
    { m with
      m_rootFiber := some (f.setState .exec)
      resumed := m.resumed + 1
      fault := some .neverReach } := by
  refine ⟨hs.good, hs.raised, hs.place, hs.join, hs.alone, fun f _ => .inr (.inr (.inr rfl)), ?_⟩
  unfold At
  simp only [hpc]
  intro hnull
  cases hnull

/-- **A step of the calling thread keeps the invariant.** -/
theorem inv_goes (hs : Inv T root m) (hfault : m.fault = none) (h : Goes T root now m m') :
    Inv T root m' := by
  cases h with
  | entry hpc => exact inv_entry hs hpc
  | early hpc => exact inv_early hs hfault hpc
  | caller hpc hthis => exact inv_caller hs hpc hthis
  | tickle hpc => exact inv_tickle hs hpc
  | tickled hpc => exact inv_tickled hs hpc
  | swapIn hpc hf hctx => exact inv_swapIn hs hpc
  | back hpc hend => exact inv_back hs hpc hend
  | swap hpc => exact inv_swap hs hpc
  | join hpc hend => exact inv_join hs hpc hend
  | joined hpc => exact inv_joined hs hpc
  | last hpc => exact inv_last hs hfault hpc
  | fail hpc => exact inv_fail hs hpc
  | never hpc hf => exact inv_never hs hpc

theorem inv_of_reachable [DecidableEq ι] (hs : (manager T root).Reachable m) : Inv T root m := by
  refine Lib.System.Reachable.invariant (P := Inv T root) ?_ (fun m a m' ih h => ?_) hs
  · rintro m ⟨w, threads, use_caller, isThis, hw, -, rfl⟩
    exact inv_new hw
  · cases a with
    | work a =>
        simp only [manager, step] at h
        split at h
        · rename_i hin
          obtain ⟨w, hw, rfl⟩ := Option.map_eq_some_iff.mp h
          exact inv_work ih hin hw
        · cases h
    | start ts =>
        obtain ⟨⟨hpc, hnone, hlen, -⟩, rfl⟩ := Lib.guarded_eq_some.mp h
        exact inv_start ih hpc hnone hlen
    | stop =>
        obtain ⟨hpc, rfl⟩ := Lib.guarded_eq_some.mp h
        refine inv_move ih ih.good False.elim rfl (by simp [hpc]) (fun t ht => .inr ?_) trivial
        exact awaited_keep ht (by rw [hpc]; exact id) id rfl
    | go now =>
        obtain ⟨hfault, h⟩ := goes h
        exact inv_goes ih hfault h

/-! ## The second call -/

theorem runStop_of_step {k e : Manager ι σ} (h : m.stopStep T root now = some k)
    (hk : ∃ n, runStop T root now n k = some e) : ∃ n, runStop T root now n m = some e := by
  obtain ⟨n, hn⟩ := hk
  refine ⟨n + 1, ?_⟩
  rw [runStop, h]
  exact hn

/-- Where `tickle` does nothing, its loop does nothing. -/
theorem runStop_tickles {e : Manager ι σ} (hfault : m.fault = none)
    (hgone : T.tickle m.workers = m.workers)
    (he : ∃ n, runStop T root now n { m with pc := .tickles 0 } = some e) (k : Nat) :
    ∃ n, runStop T root now n { m with pc := .tickles k } = some e := by
  induction k with
  | zero => exact he
  | succ k ih =>
      refine runStop_of_step (k := { m with pc := .tickles k }) ?_ ih
      simp [stopStep, hfault, hgone]

/-- Behind the first call nobody is in `run`. -/
theorem gone_of_returned (hs : Inv T root m) (hpc : m.pc = .returned) (t : ι) :
    T.pc m.workers t = .outside ∨ T.pc m.workers t = .finished := by
  rcases hs.place t with hout | hmem | ⟨rfl, hroot | hend⟩
  · exact .inl hout
  · have hjoin := hs.join t hmem
    unfold awaited at hjoin
    rw [hpc] at hjoin
    exact .inr (hjoin.resolve_right (by simp))
  · rw [hpc] at hroot
    cases hroot
  · exact .inr hend

/-- Without a root fiber the second call goes through all of `stop`, and there is nothing to do. -/
theorem again_of_null (hs : Inv T root m) (hpc : m.pc = .returned) (hnull : m.m_rootFiber = none) :
    m.Again T root now := by
  have hhere := hs.here
  have hup := hs.raised
  unfold At at hhere
  rw [hpc] at hhere hup
  obtain ⟨hapart, hthreads, hfault⟩ := hhere
  have hgone := T.tickle_gone _ hs.good (gone_of_returned hs hpc)
  refine runStop_of_step (k := { m with pc := .caller }) ?_ ?_
  · simp [stopStep, hfault, mayReturn, hnull, T.raise_raised _ (hup trivial)]
  refine runStop_of_step (k := { m with pc := .tickles m.m_threadCount }) ?_ ?_
  · simp [stopStep, hfault, hnull, hapart hnull]
  refine runStop_tickles hfault hgone ?_ _
  refine runStop_of_step (k := { m with pc := .swap }) ?_ ?_
  · simp [stopStep, hfault, hnull]
  refine runStop_of_step (k := { m with pc := .join [] }) ?_ ?_
  · simp [stopStep, hfault, hthreads]
  refine runStop_of_step (k := { m with pc := .last }) ?_ ?_
  · simp [stopStep, hfault]
  refine ⟨1, ?_⟩
  simp [runStop, stopStep, hfault, hpc]

/-- Where the caller's is the only thread, the second call leaves through the early `return`, if
`stopping` lets it. -/
theorem again_of_alone (hs : Inv T root m) (hpc : m.pc = .returned) {f : Fiber}
    (hf : m.m_rootFiber = some f) (hzero : m.m_threadCount = 0)
    (hstop : T.stopping now m.workers = true) : m.Again T root now := by
  have hhere := hs.here
  have hup := hs.raised
  have hstate := hs.fiber f hf
  unfold At at hhere
  rw [hpc] at hhere hup hstate
  obtain ⟨-, -, hfault⟩ := hhere
  have hdone : f.m_state = .term ∨ f.m_state = .init := by
    rcases hstate with hinit | hterm | hroot | hfail
    · exact .inr hinit
    · exact .inl hterm
    · cases hroot
    · simp [hfault] at hfail
  refine runStop_of_step (k := { m with pc := .early }) ?_ ?_
  · simp [stopStep, hfault, mayReturn, hf, hzero, hdone, T.raise_raised _ (hup trivial)]
  refine ⟨1, ?_⟩
  simp [runStop, stopStep, hfault, hpc, hstop]

/-- The second call is on its way to the root fiber, or past it. -/
def Doomed (T : Threads ι σ α) (now : UInt64) (resumed : Nat) (m : Manager ι σ) : Prop :=
  m.fault.isSome = true ∨ resumed < m.resumed ∨
    resumed ≤ m.resumed ∧ m.m_rootFiber.isSome = true ∧ match m.pc with
      | .entry => ¬ (m.m_threadCount = 0 ∧ T.stopping now (T.raise m.workers) = true)
      | .early => T.stopping now m.workers = false
      | .caller | .tickles _ | .root => True
      | _ => False

/-- It does not turn back. -/
theorem doomed_goes {r : Nat} (hs : m.Doomed T now r) (h : Goes T root now m m') :
    m'.Doomed T now r := by
  rcases hs with hfault | hlt | ⟨hle, hsome, hat⟩
  · refine .inl ?_
    cases h with
    | fail | never => rfl
    | _ => exact hfault
  · refine .inr (.inl ?_)
    cases h with
    | swapIn | never => exact Nat.lt_succ_of_lt hlt
    | _ => exact hlt
  · cases h with
    | entry hpc =>
        rw [hpc] at hat
        refine .inr (.inr ⟨hle, hsome, ?_⟩)
        cases hmay : m.mayReturn with
        | true =>
            simp only [mayReturn, Bool.and_eq_true, decide_eq_true_eq] at hmay
            exact Bool.eq_false_iff.mpr fun hstop => hat ⟨hmay.1, hstop⟩
        | false => trivial
    | early hpc =>
        -- `stopping` answers false here, so the way on is to the root fiber
        rw [hpc] at hat
        refine .inr (.inr ⟨hle, hsome, ?_⟩)
        simp only at hat
        simp [hat]
    | caller | tickle => exact .inr (.inr ⟨hle, hsome, trivial⟩)
    | tickled =>
        refine .inr (.inr ⟨hle, hsome, ?_⟩)
        simp [hsome]
    | swapIn => exact .inr (.inl (Nat.lt_succ_of_le hle))
    | fail | never => exact .inl rfl
    | back hpc | swap hpc | join hpc | joined hpc | last hpc =>
        rw [hpc] at hat
        exact hat.elim

theorem doomed_run {r n : Nat} (hs : m.Doomed T now r) (h : runStop T root now n m = some m') :
    m'.Doomed T now r := by
  induction n generalizing m with
  | zero => exact Option.some.inj h ▸ hs
  | succ n ih =>
      obtain ⟨k, hk, hrest⟩ := Option.bind_eq_some_iff.mp h
      exact ih (doomed_goes hs (goes hk).2) hrest

/-- **When a second call does nothing**: for a scheduler without a root fiber, and for one that has no
other threads and may stop. -/
theorem again_iff (hs : Inv T root m) (hpc : m.pc = .returned) :
    m.Again T root now ↔ m.m_rootFiber = none ∨
      m.m_threadCount = 0 ∧ T.stopping now m.workers = true := by
  have hhere := hs.here
  have hup := hs.raised
  unfold At at hhere
  rw [hpc] at hhere hup
  obtain ⟨-, -, hfault⟩ := hhere
  refine ⟨fun ⟨n, hrun⟩ => ?_, ?_⟩
  · cases hf : m.m_rootFiber with
    | none => exact .inl rfl
    | some f =>
        refine .inr ?_
        by_contra hno
        -- past the early return there is no way around the root fiber
        have hstart : ({ m with pc := .entry } : Manager ι σ).Doomed T now m.resumed := by
          refine .inr (.inr ⟨le_rfl, by simp [hf], ?_⟩)
          show ¬ (m.m_threadCount = 0 ∧ T.stopping now (T.raise m.workers) = true)
          rw [T.raise_raised _ (hup trivial)]
          exact hno
        rcases doomed_run hstart hrun with hfail | hlt | ⟨-, -, hat⟩
        · rw [show m.fault = none from hfault] at hfail
          cases hfail
        · exact absurd hlt (lt_irrefl _)
        · simp only [hpc] at hat
  · rintro (hnull | ⟨hzero, hstop⟩)
    · exact again_of_null hs hpc hnull
    · cases hf : m.m_rootFiber with
      | none => exact again_of_null hs hpc hf
      | some f => exact again_of_alone hs hpc hf hzero hstop

end Manager

/-! ## The threads of a plain scheduler -/

variable {ι : Type}

/-- The thread that enters `run` in a step of the scheduler. -/
def entersRun : Scheduler.Act ι → Option ι
  | .enterRun t => some t
  | _ => none

/-- Nobody else comes to `run` from outside, if nobody calls `swapIn` there. -/
theorem outside_run [DecidableEq ι] {tid : ι → Int} {q q' : Sched ι} {a : Scheduler.Act ι} {t : ι}
    (h : (Scheduler.scheduler tid).step q a = some q') (hno : ∀ u f, a ≠ .swapIn u f)
    (hout : q.pc t = .outside) : q'.pc t = .outside ∨ entersRun a = some t := by
  cases (Sched.steps h).2 with
  | @enterRun u =>
      by_cases hu : t = u
      · exact .inr (hu ▸ rfl)
      · exact .inl (by simp [hu, hout])
  | swapIn => exact absurd rfl (hno _ _)
  | _ => exact .inl (by grind)

/-- `run` ends once. -/
theorem finished_run [DecidableEq ι] {tid : ι → Int} {q q' : Sched ι} {a : Scheduler.Act ι} {t : ι}
    (h : (Scheduler.scheduler tid).step q a = some q') (hend : q.pc t = .finished) :
    q'.pc t = .finished := by
  have h := (Sched.steps h).2
  cases h <;> grind

/-- A plain scheduler. -/
def plainThreads [DecidableEq ι] (tid : ι → Int) : Threads ι (Plain ι) (PlainAct ι) where
  system := plain tid
  pc s := s.sched.pc
  enters a :=
    match a with
    | .run a => entersRun a
    | _ => none
  raise s := { s with m_autostop := true, m_stopping := true }
  tickle s := s
  stopping _ s := s.stopping
  look s := s
  Good _ := True
  Raised s := s.m_autostop = true ∧ s.m_stopping = true
  init_good s hs := ⟨trivial, fun t => by rw [show s = .initial from hs]; rfl⟩
  step_good _ _ _ _ _ := trivial
  step_raised s a s' hs h := by
    cases Plain.steps h with
    | run => exact hs
    | count | uncount => simpa using hs
    | stop => exact ⟨rfl, rfl⟩
  step_outside s a s' t h hout := by
    cases Plain.steps h with
    | run ha hq => exact outside_run hq (fun u f hu => by rw [hu] at ha; exact ha) hout
    | count | uncount => exact .inl (by simpa using hout)
    | stop => exact .inl hout
  step_finished s a s' t h hend := by
    cases Plain.steps h with
    | run ha hq => exact finished_run hq hend
    | count | uncount => simpa using hend
    | stop => exact hend
  raise_good _ _ := ⟨trivial, ⟨rfl, rfl⟩, rfl⟩
  raise_raised s hs := by
    cases s
    obtain ⟨rfl, rfl⟩ := hs
    rfl
  tickle_good _ _ := ⟨trivial, id, rfl⟩
  look_good _ _ := ⟨trivial, id, rfl⟩
  tickle_gone _ _ _ := rfl

/-! ## The threads of an `IOManager` -/

/-- The thread is counted in `m_idleThreadCount`. -/
@[grind]
def Idling (p : Pc × Stage) : Prop := p.1.job? = some .idle ∧ p.2 ≠ .rest

instance : DecidablePred Idling := fun p =>
  inferInstanceAs (Decidable (p.1.job? = some .idle ∧ p.2 ≠ .rest))

namespace Pool

/-- `IOManager::stopping`, where nobody is in its way. -/
def stopping (s : Pool ι) (now : UInt64) : Bool :=
  (s.tm.getNextTimer now).2 = maxU64 && s.schedStopping && s.m_pendingEventCount = 0

/-- `IOManager::tickle`, likewise. -/
def tickle (s : Pool ι) : Pool ι := if s.hasIdleThreads then { s with pipe := s.pipe + 1 } else s

/-- `getNextTimer` clears `m_tickled`, whatever the clock says. -/
def look (s : Pool ι) : Pool ι := { s with tm := { s.tm with m_tickled := false } }

variable [DecidableEq ι] {tid : ι → Int} {s s' : Pool ι}

/-- A step of the scheduler leaves every thread idle that is, and no other. -/
theorem idling_run {a : Scheduler.Act ι} {sched : Sched ι}
    (hfit : ∀ t, Fits (s.sched.pc t) (s.stage t)) (ha : s.Admits a)
    (h : Sched.Steps tid s.sched a sched) (t : ι) :
    Idling ((s.behind tid a sched).place t) ↔ Idling (s.place t) := by
  have ht := hfit t
  unfold place
  cases h with
  | schedule | swapIn => exact ha.elim
  | _ => grind [behind, Admits, Pc.job?]

theorem place_goto_self {t : ι} {st : Stage} : (s.goto t st).place t = (s.sched.pc t, st) :=
  Prod.ext rfl (Function.update_self ..)

theorem place_goto_ne {t u : ι} {st : Stage} (hu : u ≠ t) : (s.goto t st).place u = s.place u :=
  Prod.ext rfl (Function.update_of_ne hu ..)

omit [DecidableEq ι] in
theorem not_idling_of_job {pc : Pc} {st : Stage} {j : Job} (h : pc.job? = some j)
    (hj : j ≠ .idle) : ¬ Idling (pc, st) :=
  fun hid => hj (Option.some.inj (h.symm.trans hid.1))

/-- A thread that is not on the idle fiber is not counted, wherever it goes. -/
theorem idling_goto {t : ι} (st : Stage) {j : Job} (h : (s.sched.pc t).job? = some j)
    (hj : j ≠ .idle) (u : ι) : Idling ((s.goto t st).place u) ↔ Idling (s.place u) := by
  by_cases hu : u = t
  · subst hu
    rw [place_goto_self]
    exact iff_of_false (not_idling_of_job h hj) (not_idling_of_job h hj)
  · rw [place_goto_ne hu]

/-- `m_idleThreadCount` follows the threads it counts. -/
theorem idling_step [Fintype ι] {a : Act ι} (hfit : ∀ t, Fits (s.sched.pc t) (s.stage t))
    (h : Steps tid s a s') (hs : s.m_idleThreadCount = census Idling s.place) :
    s'.m_idleThreadCount = census Idling s'.place := by
  cases h with
  | @run a sched ha hstep =>
      rw [Lib.census_congr (idling_run hfit ha (Sched.steps hstep).2)]
      cases a <;> exact hs
  | @count t j hpc hst =>
      have hjob : (s.sched.pc t).job? = some j := by
        rw [hpc]
        rfl
      by_cases hj : j = .idle
      · have hnot : ¬ Idling (s.place t) := fun hid => hid.2 hst
        have hin : Idling (((s.up j).goto t .counted).place t) := by
          rw [place_goto_self]
          exact ⟨hj ▸ hjob, by simp⟩
        have henter := Lib.census_enter hnot hin fun u hu => by
          rw [place_goto_ne hu]
          exact Iff.rfl
        show (if j = .idle then s.m_idleThreadCount + 1 else _) = _
        rw [if_pos hj, hs, henter]
      · have hsame := Lib.census_congr fun u => idling_goto (s := s.up j) .counted hjob hj u
        show (if j = .idle then _ else s.m_idleThreadCount) = _
        rw [if_neg hj, hsame]
        exact hs
  | @uncount t j hpc hst =>
      have hjob : (s.sched.pc t).job? = some j := by
        rw [hpc]
        rfl
      by_cases hj : j = .idle
      · have hin : Idling (s.place t) := by
          refine ⟨hj ▸ hjob, ?_⟩
          show s.stage t ≠ .rest
          rw [hst]
          simp
        have hnot : ¬ Idling (((s.down j).goto t .rest).place t) := by
          rw [place_goto_self]
          exact fun hid => hid.2 rfl
        have hleave := Lib.census_leave hin hnot fun u hu => by
          rw [place_goto_ne hu]
          exact Iff.rfl
        show (if j = .idle then s.m_idleThreadCount - 1 else _) = _
        rw [if_pos hj, hs, hleave]
        exact Nat.add_sub_cancel ..
      · have hsame := Lib.census_congr fun u => idling_goto (s := s.down j) .rest hjob hj u
        show (if j = .idle then _ else s.m_idleThreadCount) = _
        rw [if_neg hj, hsame]
        exact hs
  | _ =>
      rw [Lib.census_congr (f := s.place) fun u => by
        have := hfit u
        unfold place
        grind [decline, accept, Sched.pushAll, Pc.job?]]
      exact hs

end Pool

/-- An `IOManager`. -/
def ioThreads [DecidableEq ι] [Fintype ι] (tid : ι → Int) : Threads ι (Pool ι) (Act ι) where
  system := pool tid
  pc s := s.sched.pc
  enters a :=
    match a with
    | .run a => entersRun a
    | _ => none
  raise s := { s with m_autostop := true, m_stopping := true }
  tickle := Pool.tickle
  stopping now s := s.stopping now
  look := Pool.look
  Good s := (∀ t, Pool.Fits (s.sched.pc t) (s.stage t)) ∧ s.m_idleThreadCount = census Idling s.place
  Raised s := s.m_autostop = true ∧ s.m_stopping = true
  init_good s hs := by
    obtain ⟨now, rfl⟩ := hs
    refine ⟨⟨fun t => id, ?_⟩, fun t => rfl⟩
    exact (Lib.census_eq_zero.mpr fun t h => by cases h.1).symm
  step_good s a s' hs h :=
    ⟨Pool.fits_step (Pool.steps h).2 hs.1, Pool.idling_step hs.1 (Pool.steps h).2 hs.2⟩
  step_raised s a s' hs h := by
    cases (Pool.steps h).2 with
    | @run a sched ha hstep => cases a <;> exact hs
    | stop => exact ⟨rfl, rfl⟩
    | _ => exact hs
  step_outside s a s' t h hout := by
    cases (Pool.steps h).2 with
    | run ha hq =>
        rw [Pool.behind_sched]
        exact outside_run hq (fun u f hu => by rw [hu] at ha; exact ha) hout
    | _ => exact .inl hout
  step_finished s a s' t h hend := by
    cases (Pool.steps h).2 with
    | run ha hq =>
        rw [Pool.behind_sched]
        exact finished_run hq hend
    | _ => exact hend
  raise_good _ hs := ⟨hs, ⟨rfl, rfl⟩, rfl⟩
  raise_raised s hs := by
    cases s
    obtain ⟨rfl, rfl⟩ := hs
    rfl
  tickle_good s hs := by
    unfold Pool.tickle
    split <;> exact ⟨hs, id, rfl⟩
  look_good _ hs := ⟨hs, id, rfl⟩
  tickle_gone s hs hgone := by
    have hnone : s.m_idleThreadCount = 0 := by
      rw [hs.2]
      refine Lib.census_eq_zero.mpr fun t ht => ?_
      have hjob : (s.sched.pc t).job? = some .idle := ht.1
      rcases hgone t with hpc | hpc <;> rw [hpc] at hjob <;> cases hjob
    unfold Pool.tickle
    rw [if_neg (by simp [Pool.hasIdleThreads, hnone])]

/-! ## The result -/

/-- **When `stop` can be called twice.**  Behind the first call, for a plain scheduler and for an
`IOManager`, a second call does nothing if and only if the scheduler was made without `use_caller`, or
it has no thread besides the caller's and `stopping` is true. -/
theorem stop_twice [DecidableEq ι] [Fintype ι] (tid : ι → Int) (root : ι) (now : UInt64) :
    (∀ m, (manager (plainThreads tid) root).Reachable m → m.pc = .returned →
      (m.Again (plainThreads tid) root now ↔
        m.m_rootFiber = none ∨ m.m_threadCount = 0 ∧ m.workers.stopping = true)) ∧
    ∀ m, (manager (ioThreads tid) root).Reachable m → m.pc = .returned →
      (m.Again (ioThreads tid) root now ↔
        m.m_rootFiber = none ∨ m.m_threadCount = 0 ∧ m.workers.stopping now = true) :=
  ⟨fun _ hs hpc => Manager.again_iff (Manager.inv_of_reachable hs) hpc,
    fun _ hs hpc => Manager.again_iff (Manager.inv_of_reachable hs) hpc⟩

/-- An idle worker of an `IOManager` is told to stop and leaves. -/
def leaves (t : ι) : List (Act ι) :=
  [.readTimer t 1, .readQueue t, .readEvents t, .run (.move t .finish), .run (.switchBack t),
    .uncount t, .run (.readState t), .run (.scan t), .run (.dispatch t)]

/-- An `IOManager` with one thread besides the caller's, stopped while it is idle. -/
def stopsIdle : List (Manager.Step Bool (Act Bool)) :=
  [.start [false]] ++ (.run (.enterRun false) :: Pool.goesIdle false).map .work ++
    [.stop, .go 0, .go 0, .go 0, .go 0, .go 0] ++ (leaves false).map .work ++ [.go 0, .go 0, .go 0]

theorem stop_twice_idle :
    (((manager (ioThreads fun _ : Bool => 1) true).exec (.new (.initial 0) 1 false false)
      stopsIdle).get (by decide)).Again (ioThreads fun _ : Bool => 1) true 0 :=
  ((stop_twice (fun _ : Bool => 1) true 0).2 _
    (Lib.System.reachable_of_exec ⟨.initial 0, 1, false, false, ⟨0, rfl⟩, by decide, rfl⟩
      (Option.some_get _).symm) (by decide)).mpr (.inl (by decide))

/-- Worker `t` of a plain scheduler comes, finds nothing and leaves. -/
def passes (t : ι) : List (PlainAct ι) :=
  .run (.enterRun t) :: idleRound t ++ [.run (.scan t), .run (.dispatch t)]

/-- A plain scheduler with `use_caller` and one more thread is started and stopped. -/
def startedStopped : List (Manager.Step Bool (PlainAct Bool)) :=
  [.start [false], .stop, .go 0, .go 0, .go 0, .go 0, .go 0, .go 0] ++
    (passes true ++ passes false).map .work ++ [.go 0, .go 0, .go 0, .go 0, .go 0]

/-- **Stopped twice**: the threads are joined and the queue is empty, and the second call resumes the
root fiber behind its end. -/
theorem stopped_twice :
    ∃ m, (manager (plainThreads fun _ : Bool => 1) true).Reachable m ∧ m.pc = .returned ∧
      m.workers.sched.m_fibers = [] ∧ (∀ t, m.workers.sched.pc t = .finished) ∧
      (∃ k, Manager.runStop (plainThreads fun _ : Bool => 1) true 0 6 { m with pc := .entry } = some k ∧
        k.fault = some .neverReach ∧ m.resumed = 1 ∧ k.resumed = 2) ∧
      ¬ m.Again (plainThreads fun _ : Bool => 1) true 0 := by
  have hend : ((manager (plainThreads fun _ : Bool => 1) true).exec (.new .initial 2 true true)
      startedStopped).map (fun m => ((m.pc, m.m_rootFiber.isSome, m.m_threadCount, m.resumed),
        m.workers.sched.m_fibers, m.workers.sched.pc true, m.workers.sched.pc false))
      = some ((.returned, true, 1, 1), [], .finished, .finished) := by decide
  have hsecond : ((manager (plainThreads fun _ : Bool => 1) true).exec (.new .initial 2 true true)
      startedStopped).bind (fun m => (Manager.runStop (plainThreads fun _ : Bool => 1) true 0 6
        { m with pc := .entry }).map fun k => (k.fault, k.resumed))
      = some (some .neverReach, 2) := by decide
  obtain ⟨m, hm, hend⟩ := Option.map_eq_some_iff.mp hend
  simp only [Prod.mk.injEq] at hend
  obtain ⟨⟨hpc, hsome, hcount, hone⟩, hq, hroot, hother⟩ := hend
  rw [hm] at hsecond
  obtain ⟨k, hk, hfail⟩ := Option.map_eq_some_iff.mp hsecond
  simp only [Prod.mk.injEq] at hfail
  have hreach : (manager (plainThreads fun _ : Bool => 1) true).Reachable m :=
    Lib.System.reachable_of_exec ⟨.initial, 2, true, true, rfl, by decide, rfl⟩ hm
  refine ⟨m, hreach, hpc, hq, fun t => ?_, ⟨k, hk, hfail.1, hone, hfail.2⟩, fun hno => ?_⟩
  · cases t with
    | true => exact hroot
    | false => exact hother
  · rcases (Manager.again_iff (Manager.inv_of_reachable hreach) hpc).mp hno with hnull | ⟨hzero, -⟩
    · rw [hnull] at hsome
      cases hsome
    · rw [hcount] at hzero
      cases hzero

end Sylar.Worker
