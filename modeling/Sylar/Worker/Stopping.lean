/-
# Sylar.Worker.Stopping — is nothing left to do when `stopping` says so?

`IOManager::stopping` reads the timer set, then the queue and `m_activeThreadCount`, then
`m_pendingEventCount`, and no lock is held from one read to the next.  Work that moves while it reads
is not seen: a task a worker has popped and not yet counted, callbacks out of the timer set and not
yet scheduled, a callback that has yielded and is not yet pushed back, an event triggered behind the
second read (`popped_unseen` is the first of these).

`Settled` is the condition on a step that it does not move work past a read, and
`stopping_sound` says that in a run whose steps all meet it the answer is right.  What the two
counters count (`active_of_reachable`, `pending_of_reachable`) holds in every run.
-/
import Sylar.Worker.Pool
import Sylar.Lib.Census
import Mathlib.Data.Fintype.Option

namespace Sylar.Worker

open Scheduler (FiberAndThread Sched Pc Job State)
open Timers (TimeManager)
open Lib (census)

variable {ι : Type}

/-! ## Work in progress -/

/-- A task of `m_fibers` has been popped for the thread at `pc` and is not finished; `state` are the
states of the fibers.  It is finished at the `--m_activeThreadCount`, unless it is a callback that is
going to be pushed back. -/
@[grind]
def InHand (state : Nat → State) : Pc → Stage → Prop
  | .dispatch ft, _ => ft.fiber.isSome = true ∨ ft.cb.isSome = true
  | .swapIn j, _ | .setExec j, _ | .inside j, _ | .leaving j _, _ => j ≠ .idle
  | .post .idle, _ => False
  | .post (.callback f), st => st = .counted ∨ state f = .ready
  | .post _, st => st = .counted
  | .settle _ todo, _ => todo = .requeue
  | .outside, _ | .scan, _ | .finished, _ => False

/-- The thread is counted in `m_activeThreadCount`. -/
@[grind]
def Active (p : Pc × Stage) : Prop := p.2 = .counted ∧ p.1.job? ≠ none ∧ p.1.job? ≠ some .idle

/-- The states of the fibers matter only as far as they are `READY`, and the stage as far as the
thread is counted. -/
theorem inHand_mono {state state' : Nat → State} {pc : Pc} {st st' : Stage}
    (h : ∀ f, state' f = .ready → state f = .ready) (hst : st' = .counted → st = .counted)
    (hin : InHand state' pc st') : InHand state pc st := by
  cases pc with
  | post j =>
      cases j with
      | callback f => exact hin.imp hst (h f)
      | direct f | fiber f => exact hst hin
      | idle => exact hin
  | outside | scan | dispatch | swapIn | setExec | inside | leaving | settle | finished => exact hin

instance (state : Nat → State) (pc : Pc) (st : Stage) : Decidable (InHand state pc st) :=
  match pc with
  | .dispatch ft => inferInstanceAs (Decidable (ft.fiber.isSome = true ∨ ft.cb.isSome = true))
  | .swapIn j | .setExec j | .inside j | .leaving j _ => inferInstanceAs (Decidable (j ≠ .idle))
  | .post (.callback f) => inferInstanceAs (Decidable (st = .counted ∨ state f = .ready))
  | .post (.fiber _) | .post (.direct _) => inferInstanceAs (Decidable (st = .counted))
  | .settle _ todo => inferInstanceAs (Decidable (todo = .requeue))
  | .post .idle | .outside | .scan | .finished => isFalse id

instance : DecidablePred Active := fun p =>
  inferInstanceAs (Decidable (p.2 = .counted ∧ p.1.job? ≠ none ∧ p.1.job? ≠ some .idle))

/-- The thread has taken callbacks out of the timer set and not scheduled them. -/
@[grind]
def HasCbs : Stage → Prop
  | .expired cbs _ => cbs ≠ []
  | _ => False

/-- Between `triggerEvent` and `--m_pendingEventCount`. -/
@[grind]
def Triggering : Stage → Prop
  | .triggered _ => True
  | _ => False

instance : DecidablePred HasCbs
  | .expired cbs _ => inferInstanceAs (Decidable (cbs ≠ []))
  | .rest | .counted | .timer | .queue | .events | .stop | .blocked | .woken _ | .triggered _
  | .handle _ | .drain => isFalse id

instance : DecidablePred Triggering
  | .triggered _ => isTrue trivial
  | .rest | .counted | .timer | .queue | .events | .stop | .blocked | .woken _ | .expired _ _
  | .handle _ | .drain => isFalse id

namespace Pool

/-- The task thread `t` has in hand. -/
def HandOf (s : Pool ι) (t : ι) : Prop := InHand s.sched.state (s.sched.pc t) (s.stage t)

/-- The place of thread `t`. -/
def place (s : Pool ι) (t : ι) : Pc × Stage := (s.sched.pc t, s.stage t)

/-- Thread `t` has work that neither the queue, nor the timer set, nor a counter shows. -/
def Loose (s : Pool ι) (t : ι) : Prop :=
  (s.HandOf t ∧ ¬ Active (s.place t)) ∨ HasCbs (s.stage t)

/-- **Nothing is left to do.** -/
structure Quiet (s : Pool ι) : Prop where
  queue : s.sched.m_fibers = []
  hand : ∀ t, ¬ s.HandOf t
  timers : s.tm.m_timers = []
  cbs : ∀ t, ¬ HasCbs (s.stage t)
  events : s.events = [] ∧ s.deleting = []

/-- The next read of `t` is the last of `stopping`, which answers true. -/
def Stops (s : Pool ι) (t : ι) : Prop := s.stage t = .events ∧ s.m_pendingEventCount = 0

/-! ## The condition -/

/-- Thread `t` is in `stopping` past its first read, and `stopping` can answer true: `stop` has been
called. -/
@[grind]
def Answering (s : Pool ι) (t : ι) : Prop :=
  s.stage t = .events ∨ s.stage t = .queue ∧ s.m_autostop = true

instance (s : Pool ι) (t : ι) : Decidable (s.Answering t) :=
  inferInstanceAs (Decidable (s.stage t = .events ∨ s.stage t = .queue ∧ s.m_autostop = true))

/-- No thread is in `stopping` past its second read. -/
def NonePast (s : Pool ι) : Prop := ∀ t, s.stage t ≠ .events

/-- The step does not move work past a read of `stopping`. -/
def Settled (s : Pool ι) : Act ι → Prop
  /- No timer is added behind a first read. -/
  | .timerCall c => c.Inserts → ∀ t, ¬ s.Answering t
  /- A first read does not take a deadline of `~0ull` for "no timer". -/
  | .readTimer _ now => s.m_autostop = true → ¬ s.tm.Sentinel now
  /- `stop` is not called behind a first read when a timer has come since. -/
  | .stop _ => ∀ t, s.stage t = .queue → s.tm.m_timers = []
  /- At a second read that answers true, no work is on its way. -/
  | .readQueue _ => s.schedStopping = true → ∀ t, ¬ s.Loose t
  /- Nothing is scheduled behind a second read. -/
  | .push ft => ft.fiber.isSome = true ∨ ft.cb.isSome = true → s.NonePast
  | .cancel _ | .trigger _ _ => s.NonePast
  /- At a third read that answers true, no `delEvent` has counted down an event and not removed it. -/
  | .readEvents _ => s.m_pendingEventCount = 0 → s.deleting = []
  | _ => True

instance (s : Pool ι) (t : ι) : Decidable (s.Loose t) :=
  inferInstanceAs (Decidable ((InHand s.sched.state (s.sched.pc t) (s.stage t) ∧
    ¬ Active (s.place t)) ∨ HasCbs (s.stage t)))

instance [Fintype ι] (s : Pool ι) : Decidable s.NonePast :=
  inferInstanceAs (Decidable (∀ t, s.stage t ≠ .events))

instance [Fintype ι] (s : Pool ι) : DecidablePred s.Settled
  | .timerCall c => inferInstanceAs (Decidable (c.Inserts → ∀ t, ¬ s.Answering t))
  | .readTimer _ now => inferInstanceAs (Decidable (s.m_autostop = true → ¬ s.tm.Sentinel now))
  | .stop _ => inferInstanceAs (Decidable (∀ t, s.stage t = .queue → s.tm.m_timers = []))
  | .readQueue _ => inferInstanceAs (Decidable (s.schedStopping = true → ∀ t, ¬ s.Loose t))
  | .push ft => inferInstanceAs (Decidable
      (ft.fiber.isSome = true ∨ ft.cb.isSome = true → s.NonePast))
  | .cancel _ | .trigger _ _ => inferInstanceAs (Decidable s.NonePast)
  | .readEvents _ => inferInstanceAs (Decidable (s.m_pendingEventCount = 0 → s.deleting = []))
  | .run _ | .count _ | .uncount _ | .tickleBy _ | .writeBy _ | .callStopping _ | .wake _ _
  | .expire _ _ _ | .hand _ | .tickled _ | .drain _ | .decrement _ | .tickle | .write
  | .notice | .noticeWrite | .beginAdd _ | .endAdd _ | .beginDel _ | .endDel _ | .cancelled =>
      isTrue trivial

/-! ## The counters -/

variable [DecidableEq ι] {tid : ι → Int} {s s' : Pool ι}

/-- A step of the scheduler leaves every thread counted that is, and no other. -/
theorem active_run {a : Scheduler.Act ι} {sched : Sched ι}
    (hfit : ∀ t, Fits (s.sched.pc t) (s.stage t)) (ha : s.Admits a)
    (h : Sched.Steps tid s.sched a sched) (t : ι) :
    Active ((s.behind tid a sched).place t) ↔ Active (s.place t) := by
  unfold place
  cases h with
  | schedule | swapIn => exact ha.elim
  | @leave u j m g c hpc hl =>
      -- only `idle` leaves its function at another stage, and `idle` is not counted here
      have hu := hfit u
      cases hl <;> grind [behind, Admits, Pc.job?]
  | _ => grind [behind, Admits, Pc.job?]

variable [Fintype ι]

/-- `m_activeThreadCount` follows the threads it counts. -/
theorem active_step {a : Act ι} (hfit : ∀ t, Fits (s.sched.pc t) (s.stage t)) (h : Steps tid s a s')
    (hs : s.m_activeThreadCount = census Active s.place) :
    s'.m_activeThreadCount = census Active s'.place := by
  cases h with
  | run ha hstep =>
      rw [Lib.census_congr (active_run hfit ha (Sched.steps hstep).2), behind_active]
      exact hs
  | @count t j hpc hst =>
      by_cases hj : j = .idle
      · rw [Lib.census_congr (f := s.place) fun u => by unfold place; grind]
        show (if j = .idle then s.m_activeThreadCount else _) = _
        rw [if_pos hj]
        exact hs
      · rw [Lib.census_enter (f := s.place) (i := t) (by unfold place; grind) (by unfold place; grind)
          fun u hu => by unfold place; grind]
        show (if j = .idle then _ else s.m_activeThreadCount + 1) = _
        rw [if_neg hj, hs]
  | @uncount t j hpc hst =>
      by_cases hj : j = .idle
      · rw [Lib.census_congr (f := s.place) fun u => by unfold place; grind]
        show (if j = .idle then s.m_activeThreadCount else _) = _
        rw [if_pos hj]
        exact hs
      · have hleave := Lib.census_leave (p := Active) (f := s.place)
          (g := ((s.down j).goto t .rest).place) (i := t) (by unfold place; grind)
          (by unfold place; grind) fun u hu => by unfold place; grind
        show (if j = .idle then _ else s.m_activeThreadCount - 1) = _
        rw [if_neg hj]
        omega
  | _ =>
      rw [Lib.census_congr (f := s.place) fun u => by
        have := hfit u
        unfold place
        grind [decline, accept, Sched.pushAll]]
      exact hs

omit [Fintype ι] in
/-- Behind a step of the scheduler nobody is between a trigger and its count who was not before. -/
theorem triggering_run {a : Scheduler.Act ι} {sched : Sched ι} (ha : s.Admits a) (t : ι) :
    Triggering ((s.behind tid a sched).stage t) ↔ Triggering (s.stage t) := by
  cases a with
  | move u m => cases m <;> grind [behind, Admits]
  | _ => grind [behind, Admits]

theorem length_eraseIdx_of_getElem? {l : List FiberAndThread} {n : Nat} {ft : FiberAndThread}
    (h : l[n]? = some ft) : l.length = (l.eraseIdx n).length + 1 := by
  obtain ⟨hn, -⟩ := List.getElem?_eq_some_iff.mp h
  rw [List.length_eraseIdx_of_lt hn]
  omega

/-- `m_pendingEventCount` follows the registered events, and the calls that have counted and not
registered, or triggered and not counted. -/
theorem pending_step {a : Act ι} (h : Steps tid s a s')
    (hs : s.m_pendingEventCount = s.events.length + s.adding.length + s.cancelling
      + census Triggering s.stage) :
    s'.m_pendingEventCount = s'.events.length + s'.adding.length + s'.cancelling
      + census Triggering s'.stage := by
  cases h with
  | run ha hstep =>
      rw [Lib.census_congr (triggering_run ha), behind_pending, behind_events, behind_adding,
        behind_cancelling]
      exact hs
  | @trigger t n tick ft k hst hev hf =>
      have hlen := length_eraseIdx_of_getElem? hev
      rw [Lib.census_enter (f := s.stage) (i := t) (by grind) (by grind) fun u hu => by grind]
      show s.m_pendingEventCount = (s.events.eraseIdx n).length + s.adding.length + s.cancelling + _
      omega
  | @decrement t tick hst =>
      have hleave := Lib.census_leave (p := Triggering) (f := s.stage)
        (g := (s.goto t (.handle tick)).stage) (i := t) (by grind) (by grind) fun u hu => by grind
      show s.m_pendingEventCount - 1 = s.events.length + s.adding.length + s.cancelling
        + census Triggering (s.goto t (.handle tick)).stage
      omega
  | @beginAdd ft =>
      show s.m_pendingEventCount + 1 = s.events.length + (s.adding ++ [ft]).length + s.cancelling
        + census Triggering s.stage
      rw [List.length_append, List.length_singleton, hs]
      omega
  | @endAdd n ft hadd =>
      have hlen := length_eraseIdx_of_getElem? hadd
      show s.m_pendingEventCount = (s.events ++ [ft]).length + (s.adding.eraseIdx n).length
        + s.cancelling + census Triggering s.stage
      rw [List.length_append, List.length_singleton, hs]
      omega
  | @beginDel n ft hev =>
      have hlen := length_eraseIdx_of_getElem? hev
      show s.m_pendingEventCount - 1 = (s.events.eraseIdx n).length + s.adding.length + s.cancelling
        + census Triggering s.stage
      omega
  | @cancel n ft hev hf =>
      have hlen := length_eraseIdx_of_getElem? hev
      show s.m_pendingEventCount = (s.events.eraseIdx n).length + s.adding.length
        + (s.cancelling + 1) + census Triggering s.stage
      omega
  | cancelled hc =>
      show s.m_pendingEventCount - 1 = s.events.length + s.adding.length + (s.cancelling - 1)
        + census Triggering s.stage
      omega
  | _ =>
      rw [Lib.census_congr (f := s.stage) fun u => by grind [decline, accept]]
      exact hs

/-- **`m_activeThreadCount` is right** in every run: it is the number of workers between the `++` and
the `--` of a task. -/
theorem active_of_reachable (hs : (pool tid).Reachable s) :
    s.m_activeThreadCount = census Active s.place := by
  refine Lib.System.ReachableWhen.invariant_of
    (P := fun s => s.m_activeThreadCount = census Active s.place)
    (Q := fun s => (pool tid).Reachable s) (fun s hs => hs) ?_ ?_ hs
  · rintro s ⟨now, rfl⟩
    exact (Lib.census_eq_zero.mpr fun t h => by cases h.1).symm
  · intro s a s' hr hact _ hstep
    exact active_step (fits_of_reachable hr) (steps hstep).2 hact

/-- **`m_pendingEventCount` is right** in every run, up to the calls in progress. -/
theorem pending_of_reachable (hs : (pool tid).Reachable s) :
    s.m_pendingEventCount = s.events.length + s.adding.length + s.cancelling
      + census Triggering s.stage := by
  refine Lib.System.Reachable.invariant (P := fun s => s.m_pendingEventCount
    = s.events.length + s.adding.length + s.cancelling + census Triggering s.stage)
    ?_ (fun s a s' ih h => pending_step (steps h).2 ih) hs
  rintro s ⟨now, rfl⟩
  show 0 = 0 + census Triggering (Pool.initial now).stage
  rw [Lib.census_eq_zero.mpr fun t h => h]

/-! ## What a reader knows -/

omit [Fintype ι] in
/-- **Past its first read** a reader of `stopping` that can answer true knows that no timer is set. -/
theorem timers_step {a : Act ι} (hc : s.Settled a) (h : Steps tid s a s')
    (hs : ∀ t, s.Answering t → s.tm.m_timers = []) : ∀ t, s'.Answering t → s'.tm.m_timers = [] := by
  intro u hu
  cases h with
  | @run a sched ha hstep =>
      rw [behind_tm]
      refine hs u ?_
      cases a <;> grind [behind]
  | @noTimer t now hst hmax =>
      rcases (TimeManager.getNextTimer_eq_max s.tm now).mp hmax with hempty | hsent
      · exact hempty
      · -- a deadline taken for "no timer", but `stop` has not been called
        have hdown : s.m_autostop ≠ true := fun hup => hc hup hsent
        exact hs u (by grind)
  | @noTask t hst hq =>
      have hup := autostop_of_schedStopping hq
      exact hs u (by grind)
  | @stop n =>
      -- the flag goes up, and who is behind a first read can answer true from now on
      by_cases hq : s.stage u = .queue
      · exact hc u hq
      · exact hs u (by grind)
  | @expire t now tmp tick hst =>
      -- nothing was set, so nothing expires or is set again
      have hempty : s.tm.m_timers = [] := hs u (by grind)
      show (s.tm.listExpiredCb now tmp).1.m_timers = []
      rw [TimeManager.listExpiredCb_of_empty hempty]
      exact hempty
  | @timerCall c tm front hcall =>
      exact TimeManager.call_of_empty (hs u hu) (fun hins => hc hins u hu) hcall
  | @someTimer t now hst => exact hs u (by grind [decline])
  | _ => exact hs u (by grind [decline, accept])

/-- What holds while a reader is past its second read. -/
structure Still (s : Pool ι) : Prop where
  queue : s.sched.m_fibers = []
  hand : ∀ t, ¬ s.HandOf t
  cbs : ∀ t, ¬ HasCbs (s.stage t)

omit [Fintype ι] in
/-- With nothing in hand, a step of the scheduler makes no fiber `READY`. -/
theorem ready_run {a : Scheduler.Act ι} {sched : Sched ι} (h : Sched.Steps tid s.sched a sched)
    (hhand : ∀ t, ¬ InHand s.sched.state (s.sched.pc t) (s.stage t)) (f : Nat)
    (hf : sched.state f = .ready) : s.sched.state f = .ready := by
  simp only [Sched.state] at hf ⊢
  cases h with
  | @leave t j m g c hpc hl =>
      have ht := hhand t
      cases hl <;> grind [Job.ref]
  | _ => grind [Job.ref]

omit [Fintype ι] in
/-- With nothing queued and nothing in hand, a step of the scheduler brings nothing. -/
theorem still_run {a : Scheduler.Act ι} {sched : Sched ι} (ha : s.Admits a)
    (h : Sched.Steps tid s.sched a sched) (hs : s.Still) : (s.behind tid a sched).Still := by
  obtain ⟨hq, hhand, hcbs⟩ := hs
  simp only [HandOf] at hhand
  refine ⟨?_, fun u => ?_, fun u => ?_⟩
  · rw [behind_sched]
    cases h with
    | scanTook hpc hsplit => simp [hq] at hsplit
    | @requeue t f hpc =>
        have := hhand t
        simp [hpc, InHand] at this
    | schedule => exact ha.elim
    | _ => exact hq
  · have hu := hhand u
    have hready := ready_run h hhand
    intro hin
    simp only [HandOf, behind_sched] at hin
    replace hin := inHand_mono hready id hin
    cases h with
    | scanTook hpc hsplit => simp [hq] at hsplit
    | schedule | swapIn => exact ha.elim
    | _ => grind [behind, FiberAndThread.empty, Sched.callbackTodo, Admits]
  · have hu := hcbs u
    cases a <;> grind [behind]

omit [DecidableEq ι] [Fintype ι] in
/-- Steps that leave the scheduler alone count nobody and extract nothing. -/
theorem Still.of_stage (hs : s.Still) (hsched : s'.sched = s.sched)
    (hst : ∀ t, s'.stage t = .counted → s.stage t = .counted)
    (hcbs : ∀ t, HasCbs (s'.stage t) → HasCbs (s.stage t)) : s'.Still := by
  refine ⟨hsched ▸ hs.queue, fun t ht => hs.hand t ?_, fun t ht => hs.cbs t (hcbs t ht)⟩
  unfold HandOf at ht ⊢
  rw [hsched] at ht
  exact inHand_mono (fun f hf => hf) (hst t) ht

omit [DecidableEq ι] in
/-- A second read that answers true finds everything still, if no work is on its way. -/
theorem still_of_stopping (hact : s.m_activeThreadCount = census Active s.place)
    (hq : s.schedStopping = true) (hloose : ∀ t, ¬ s.Loose t) : s.Still := by
  simp only [schedStopping, Bool.and_eq_true, List.isEmpty_iff, beq_iff_eq] at hq
  obtain ⟨⟨-, hempty⟩, hzero⟩ := hq
  have hnone : ∀ t, ¬ Active (s.place t) := Lib.census_eq_zero.mp (hact ▸ hzero)
  exact ⟨hempty, fun t ht => hloose t (.inl ⟨ht, hnone t⟩), fun t ht => hloose t (.inr ht)⟩

/-- **Past its second read** a reader knows that everything is still. -/
theorem still_step {a : Act ι} (hc : s.Settled a) (h : Steps tid s a s')
    (hact : s.m_activeThreadCount = census Active s.place)
    (htimers : ∀ t, s.Answering t → s.tm.m_timers = [])
    (hs : ∀ t, s.stage t = .events → s.Still) : ∀ t, s'.stage t = .events → s'.Still := by
  intro u hu
  cases h with
  | @run a sched ha hstep =>
      refine still_run ha (Sched.steps hstep).2 (hs u ?_)
      cases a <;> grind [behind]
  | @noTask t hst hq =>
      exact (still_of_stopping hact hq (hc hq)).of_stage rfl (by grind) (by grind)
  | @push ft hf =>
      obtain ⟨hempty, hhand, hcbs⟩ := hs u hu
      refine ⟨?_, hhand, hcbs⟩
      -- an entry without a task is not appended
      show (Scheduler.scheduleNoLock s.sched.m_fibers ft).1 = []
      unfold Scheduler.scheduleNoLock
      split
      · rename_i hft
        exact absurd hu (hc (by simpa using hft) u)
      · exact hempty
  | cancel => exact absurd hu (hc u)
  | @trigger t n tick ft k hst => exact absurd (by grind) (hc u)
  | @hand t cbs tick k hst =>
      have hstill := hs u (by grind)
      have hnil : cbs = [] := by simpa [HasCbs, hst] using hstill.cbs t
      subst hnil
      exact hstill.of_stage rfl (by grind) (by grind)
  | @expire t now tmp tick hst =>
      have hu' : s.stage u = .events := by grind
      have hnil : (s.tm.listExpiredCb now tmp).2 = [] := by
        rw [TimeManager.listExpiredCb_of_empty (htimers u (.inl hu'))]
      exact (hs u hu').of_stage rfl (by grind) (by grind)
  | @count t j hpc hst =>
      obtain ⟨hempty, hhand, hcbs⟩ := hs u (by grind)
      refine ⟨hempty, fun v => ?_, fun v => ?_⟩
      · have := hhand v
        grind [HandOf]
      · have := hcbs v
        grind
  | _ =>
      exact (hs u (by grind [decline, accept])).of_stage rfl (by grind [decline, accept])
        (by grind [decline, accept])

/-- What a reader of `stopping` knows at each of its reads, in every settled run. -/
theorem readers_of_reachable (hs : (pool tid).ReachableWhen Settled s) :
    (∀ t, s.Answering t → s.tm.m_timers = []) ∧ ∀ t, s.stage t = .events → s.Still := by
  refine Lib.System.ReachableWhen.invariant_of
    (P := fun s => (∀ t, s.Answering t → s.tm.m_timers = []) ∧
      ∀ t, s.stage t = .events → s.Still)
    (Q := fun s => (pool tid).Reachable s) (fun s hs => hs.reachable) ?_ ?_ hs
  · rintro s ⟨now, rfl⟩
    exact ⟨fun _ _ => rfl, fun t h => by cases h⟩
  · rintro s a s' hr ⟨htimers, hstill⟩ hc hstep
    obtain ⟨-, h⟩ := steps hstep
    exact ⟨timers_step hc h htimers,
      still_step hc h (active_of_reachable hr) htimers hstill⟩

/-- **Stopping is sound.**  In a run whose steps are all settled, when a settled third read makes
`stopping` answer true, nothing is left to do. -/
theorem stopping_sound {t : ι} (hs : (pool tid).ReachableWhen Settled s)
    (hc : s.Settled (.readEvents t)) (ht : s.Stops t) : s.Quiet := by
  obtain ⟨hst, hzero⟩ := ht
  obtain ⟨htimers, hstill⟩ := readers_of_reachable hs
  have hpending := pending_of_reachable hs.reachable
  obtain ⟨hqueue, hhand, hcbs⟩ := hstill t hst
  exact
    { queue := hqueue
      hand := hhand
      timers := htimers t (.inl hst)
      cbs := hcbs
      events := ⟨List.eq_nil_of_length_eq_zero (by omega), hc hzero⟩ }

/-! ## Runs -/

/-- A manager with two threads. -/
def twoThreads : Lib.System (Pool Bool) (Act Bool) := pool fun t => if t then 1 else 2

/-- Worker `t` takes a callback, runs it to its end and goes back to its scan. -/
def runsCallback (t : ι) : List (Act ι) :=
  [.run (.scan t), .run (.dispatch t), .count t, .run (.assertState t), .run (.setExec t),
    .run (.move t .finish), .run (.switchBack t), .uncount t, .run (.readState t), .run (.settle t)]

/-- Worker `t` finds nothing and comes to the loop of `idle`. -/
def goesIdle (t : ι) : List (Act ι) :=
  [.run (.scan t), .run (.dispatch t), .count t, .run (.assertState t), .run (.setExec t)]

/-- A callback is scheduled and run, `stop` is called, and the worker asks `stopping`. -/
def stoppedRun : List (Act Bool) :=
  [.push ⟨none, some 1, -1⟩, .tickle, .run (.enterRun true)] ++ runsCallback true ++ goesIdle true
    ++ [.stop 1, .readTimer true 1, .readQueue true]

theorem stopping_sound_run :
    ((twoThreads.exec (.initial 0) stoppedRun).get (by decide)).Quiet := by
  have hend : let s := (twoThreads.exec (.initial 0) stoppedRun).get (by decide)
      s.Settled (.readEvents true) ∧ s.stage true = .events ∧ s.m_pendingEventCount = 0 := by decide
  exact stopping_sound (Lib.System.ReachableWhen.exec (.init ⟨0, rfl⟩) (l := stoppedRun) (by decide)
    (Option.some_get _).symm) hend.1 hend.2

/-- One worker asks `stopping` between another's scan and its `++m_activeThreadCount`. -/
def unseenRun : List (Act Bool) :=
  [.run (.enterRun true), .run (.enterRun false)] ++ goesIdle false
    ++ [.push ⟨none, some 1, -1⟩, .tickle, .write, .stop 2, .run (.scan true), .readTimer false 1,
      .readQueue false]

/-- **A popped task is not seen**: `stopping` is about to answer true, and a worker has a task in
hand. -/
theorem popped_unseen :
    ∃ s, twoThreads.Reachable s ∧ s.Stops false ∧
      s.sched.pc true = .dispatch ⟨none, some 1, -1⟩ ∧ ¬ s.Quiet := by
  have hrun : ∃ s, twoThreads.exec (.initial 0) unseenRun = some s ∧ s.stage false = .events ∧
      s.m_pendingEventCount = 0 ∧ s.sched.pc true = .dispatch ⟨none, some 1, -1⟩ :=
    ⟨_, rfl, by decide, by decide, by decide⟩
  obtain ⟨s, hexec, hst, hzero, hpc⟩ := hrun
  refine ⟨s, Lib.System.reachable_of_exec ⟨0, rfl⟩ hexec, ⟨hst, hzero⟩, hpc, ?_⟩
  intro hquiet
  refine hquiet.hand true ?_
  unfold HandOf
  rw [hpc]
  exact .inr rfl

end Pool

end Sylar.Worker
