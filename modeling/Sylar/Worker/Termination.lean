/-
# Sylar.Worker.Termination — all workers leave.

Once `stop` has been called and no work is left, the threads of an `IOManager` are to leave `run`, each
by itself: those that poll wake up, by the pipe or by the timeout, come through `run`, go back into
`idle` and are told there, by `stopping`, to return.  `Winding` is what is true meanwhile, and `left` the
number of steps that are left to take, over all threads, for the bytes in the pipe and the calls of
`tickle` in progress.  Every step lowers it, and while one thread is not through, some step can be taken
(`winds_down`): so the joins in `stop` return, whichever thread is given the processor.
-/
import Sylar.Worker.Stopping
import Sylar.Worker.Leaving
import Sylar.Wake.Recycle
import Sylar.Lib.Variant

namespace Sylar.Worker

open Scheduler (FiberAndThread Fiber Sched Pc Job State Settle)
open Timers (TimeManager maxU64)
open Lib (census)

variable {ι : Type}

/-! ## The idle fiber of a thread -/

/-- What is known of the idle fiber of a thread at `pc`. -/
@[grind]
def IdleFits (pc : Pc) (f : Fiber) : Prop :=
  match pc with
  | .outside => True
  | .swapIn .idle | .setExec .idle => (f.m_state = .init ∨ f.m_state = .hold) ∧ f.m_ctx ≠ .ended
  | .inside .idle => f.m_state = .exec
  | .leaving .idle c => f.m_state = .exec ∧ c ≠ .ended ∨ f.m_state = .term
  | .post .idle => f.m_state = .exec ∧ f.m_ctx ≠ .ended ∨ f.m_state = .term
  | .settle .idle todo => todo = .hold ∧ f.m_state = .exec ∧ f.m_ctx ≠ .ended
  | _ => f.m_state = .term ∨ (f.m_state = .init ∨ f.m_state = .hold) ∧ f.m_ctx ≠ .ended

namespace Pool

variable [DecidableEq ι] {tid : ι → Int} {s s' : Pool ι}

theorem idleFits_run {a : Scheduler.Act ι} {sched : Sched ι}
    (hfit : ∀ t, Fits (s.sched.pc t) (s.stage t)) (ha : s.Admits a)
    (h : Sched.Steps tid s.sched a sched)
    (hs : ∀ t, IdleFits (s.sched.pc t) (s.sched.fibers (.idle t))) :
    ∀ t, IdleFits (sched.pc t) (sched.fibers (.idle t)) := by
  intro u
  have hu := hs u
  cases h with
  | schedule | swapIn => exact ha.elim
  | @leave t j m g c hpc hl =>
      -- an idle function does not throw: `stopping` and the loop of `idle` do not
      have ht := hfit t
      cases j <;> cases hl <;> grind [Admits, Job.ref]
  | @done t j pc hpc hto hnot hended => cases j <;> grind [Fiber.Ended]
  | @recycle t j hpc | @exec t j hpc | @switchBack t j c hpc | @hold t j o hpc =>
      cases j <;> grind [Job.ref]
  | @assertPass t j hpc | @never t j hpc => cases j <;> grind [Job.ref]
  | _ => grind [Job.ref, Fiber.Ended]

theorem idleFits_of_reachable (hs : (pool tid).Reachable s) :
    ∀ t, IdleFits (s.sched.pc t) (s.sched.fibers (.idle t)) := by
  refine Lib.System.ReachableWhen.invariant_of
    (P := fun s : Pool ι => ∀ t, IdleFits (s.sched.pc t) (s.sched.fibers (.idle t)))
    (Q := fun s => (pool tid).Reachable s) (fun s hs => hs) ?_ (fun s a s' hr ih _ h => ?_) hs
  · rintro s ⟨now, rfl⟩ t
    trivial
  · cases (steps h).2 with
    | run ha hstep =>
        rw [behind_sched]
        exact idleFits_run (fits_of_reachable hr) ha (Sched.steps hstep).2 ih
    | _ => exact ih

/-- The idle fiber keeps its function until that has returned. -/
def Bound (pc : Pc) (f : Fiber) : Prop := pc ≠ .outside → f.m_state ≠ .term → f.m_cb.isSome = true

theorem bound_run {a : Scheduler.Act ι} {sched : Sched ι} (ha : s.Admits a)
    (hid : ∀ t, IdleFits (s.sched.pc t) (s.sched.fibers (.idle t)))
    (h : Sched.Steps tid s.sched a sched)
    (hs : ∀ t, Bound (s.sched.pc t) (s.sched.fibers (.idle t))) :
    ∀ t, Bound (sched.pc t) (sched.fibers (.idle t)) := by
  intro u hu
  have hold := hs u
  have hu' := hid u
  unfold Bound at hold
  cases h with
  | schedule | swapIn => exact ha.elim
  | @leave t j m g c hpc hl => cases j <;> cases hl <;> grind [Job.ref, Fiber.setState, Fiber.finish]
  | @never t j hpc | @exec t j hpc | @switchBack t j c hpc | @hold t j o hpc | @recycle t j hpc =>
      cases j <;> grind [Job.ref, Fiber.setState, Fiber.save]
  | _ => grind [Fiber.new]

theorem bound_of_reachable (hs : (pool tid).Reachable s) :
    ∀ t, Bound (s.sched.pc t) (s.sched.fibers (.idle t)) := by
  refine Lib.System.ReachableWhen.invariant_of
    (P := fun s : Pool ι => ∀ t, Bound (s.sched.pc t) (s.sched.fibers (.idle t)))
    (Q := fun s => (pool tid).Reachable s) (fun s hs => hs) ?_ (fun s a s' hr ih _ h => ?_) hs
  · rintro s ⟨now, rfl⟩ t hpc
    exact absurd rfl hpc
  · cases (steps h).2 with
    | run ha hstep =>
        rw [behind_sched]
        exact bound_run ha (idleFits_of_reachable hr) (Sched.steps hstep).2 ih
    | _ => exact ih

/-! ## The fibers of callbacks -/

/-- Every worker has a `cb_fiber` of its own, and what is done behind `swapIn` is done to it or to the
idle fiber. -/
structure Owns (q : Sched ι) : Prop where
  one : ∀ t u f, q.cb_fiber t = some f → q.cb_fiber u = some f → t = u
  job : ∀ t f, (q.pc t).job? = some (.callback f) → q.cb_fiber t = some f
  settle : ∀ t j todo, q.pc t = .settle j todo → j = .idle ∨ ∃ f, j = .callback f

theorem settle_run {a : Scheduler.Act ι} {q q' : Sched ι} (h : Sched.Steps tid q a q')
    (hs : ∀ t j todo, q.pc t = .settle j todo → j = .idle ∨ ∃ f, j = .callback f) :
    ∀ t j todo, q'.pc t = .settle j todo → j = .idle ∨ ∃ f, j = .callback f := by
  intro u j todo hu
  have hold := hs u j todo
  cases h <;> grind

theorem owns_run {a : Scheduler.Act ι} {q q' : Sched ι} (hwf : Sched.WF q)
    (h : Sched.Steps tid q a q') (hs : Owns q) : Owns q' where
  one := Wake.Tasks.one_step hwf hs.one h
  job := Wake.Tasks.job_step hs.job h
  settle := settle_run h hs.settle

theorem owns_of_reachable {q : Sched ι} (hq : (Scheduler.scheduler tid).Reachable q) : Owns q := by
  refine Lib.System.ReachableWhen.invariant_of (P := Owns)
    (Q := fun q => (Scheduler.scheduler tid).Reachable q) (fun q hq => hq) ?_ ?_ hq
  · rintro q rfl
    exact ⟨fun t u f h => (by cases h), fun t f h => (by cases h), fun t j todo h => (by cases h)⟩
  · intro q a q' hr hs _ hstep
    exact owns_run (Sched.wf_of_reachable hr) (Sched.steps hstep).2 hs

/-! ## When no work is left -/

/-- The fibers that are to be reset can be. -/
def Recyclable (s : Pool ι) : Prop :=
  ∀ t f, s.sched.pc t = .settle (.callback f) .recycle → Fiber.Resettable (s.sched.state f)

/-- **`stop` has been called and no work is left**, nor will there be any. -/
structure Winding (s : Pool ι) : Prop where
  fault : s.sched.fault = none
  still : s.Still
  timers : s.tm.m_timers = []
  raised : s.m_autostop = true ∧ s.m_stopping = true
  active : s.m_activeThreadCount = 0
  pending : s.m_pendingEventCount = 0
  events : s.events = []
  triggered : ∀ t, ¬ Triggering (s.stage t)
  recyclable : s.Recyclable
  fits : ∀ t, Fits (s.sched.pc t) (s.stage t)
  idle : ∀ t, IdleFits (s.sched.pc t) (s.sched.fibers (.idle t))
  bound : ∀ t, Bound (s.sched.pc t) (s.sched.fibers (.idle t))
  direct : s.NoDirect
  owns : Owns s.sched
  wf : Sched.WF s.sched

/-- The steps the threads take by themselves, and those of the calls of `tickle` in progress. -/
def Internal : Act ι → Prop
  | .run (.newFiber _) => False
  | .run _ | .count _ | .uncount _ | .tickleBy _ | .writeBy _ | .readTimer .. | .readQueue _
  | .readEvents _ | .wake .. | .expire .. | .hand _ | .tickled _ | .drain _ | .trigger ..
  | .decrement _ | .tickle | .write | .notice | .noticeWrite => True
  | .callStopping _ | .push _ | .stop _ | .timerCall _ | .beginAdd _ | .endAdd _ | .beginDel _
  | .endDel _ | .cancel _ | .cancelled => False

instance : DecidablePred (Internal (ι := ι))
  | .run (.newFiber _) => isFalse id
  | .run (.enterRun _) | .run (.scan _) | .run (.dispatch _) | .run (.assertState _)
  | .run (.setExec _) | .run (.move _ _) | .run (.switchBack _) | .run (.readState _)
  | .run (.settle _) | .run (.schedule _) | .run (.swapIn _ _) | .count _ | .uncount _ | .tickleBy _
  | .writeBy _ | .readTimer .. | .readQueue _ | .readEvents _ | .wake .. | .expire .. | .hand _
  | .tickled _ | .drain _ | .trigger .. | .decrement _ | .tickle | .write | .notice
  | .noticeWrite => isTrue trivial
  | .callStopping _ | .push _ | .stop _ | .timerCall _ | .beginAdd _ | .endAdd _ | .beginDel _
  | .endDel _ | .cancel _ | .cancelled => isFalse id

omit [DecidableEq ι] in
/-- A thread in `swapIn` or behind it is there for its idle fiber. -/
theorem Winding.job (hs : s.Winding) {t : ι} {j : Job} (h : s.sched.pc t = .swapIn j ∨
    s.sched.pc t = .setExec j ∨ s.sched.pc t = .inside j ∨ (∃ c, s.sched.pc t = .leaving j c)) :
    j = .idle := by
  have ht := hs.still.hand t
  unfold HandOf at ht
  grind

section Calm

variable {t : ι} {sched : Sched ι}

theorem calm_enterRun (hs : s.Winding) (h : s.sched.enterRun t = some sched) : sched.fault = none := by
  simp only [Sched.enterRun] at h
  split at h
  · exact Option.some.inj h ▸ hs.fault
  · cases h

/-- There is no entry that the scan could fail on. -/
theorem calm_scan (hs : s.Winding) (h : s.sched.scan tid t = some sched) : sched.fault = none := by
  simp only [Sched.scan, hs.still.queue, Scheduler.scan] at h
  split at h
  · exact Option.some.inj h ▸ hs.fault
  · cases h

/-- With nothing in hand a thread goes to its idle fiber, or ends. -/
theorem calm_dispatch (hs : s.Winding) (h : s.sched.dispatch t = some sched) : sched.fault = none := by
  simp only [Sched.dispatch] at h
  split at h
  · rename_i ft hpc
    have ht := hs.still.hand t
    simp only [HandOf, hpc, InHand, not_or, Bool.not_eq_true, Option.isSome_eq_false_iff,
      Option.isNone_iff_eq_none] at ht
    simp only [ht.1, ht.2, Sched.dispatchIdle] at h
    split at h
    · exact Option.some.inj h ▸ hs.fault
    · exact Option.some.inj h ▸ hs.fault
  · cases h

/-- An idle fiber that is about to be entered is not in `EXEC`. -/
theorem calm_assertState (hs : s.Winding) (h : s.sched.assertState t = some sched) :
    sched.fault = none := by
  simp only [Sched.assertState] at h
  split at h
  · rename_i j hpc
    obtain rfl := hs.job (.inl hpc)
    have ht : IdleFits (s.sched.pc t) (s.sched.fibers (Job.idle.ref t)) := hs.idle t
    rw [hpc] at ht
    have hne : (s.sched.fibers (Job.idle.ref t)).m_state ≠ .exec := by
      intro hexec
      rcases ht.1 with hst | hst <;> rw [hst] at hexec <;> cases hexec
    rw [if_neg hne] at h
    exact Option.some.inj h ▸ hs.fault
  · cases h

/-- Nor is it at its end. -/
theorem calm_setExec (hs : s.Winding) (h : s.sched.setExec t = some sched) : sched.fault = none := by
  simp only [Sched.setExec] at h
  split at h
  · rename_i j hpc
    obtain rfl := hs.job (.inr (.inl hpc))
    have ht : IdleFits (s.sched.pc t) (s.sched.fibers (Job.idle.ref t)) := hs.idle t
    rw [hpc] at ht
    rw [if_neg ht.2] at h
    exact Option.some.inj h ▸ hs.fault
  · cases h

/-- The idle function does not yield to hold. -/
theorem calm_move (hs : s.Winding) {m : Scheduler.Move} (h : s.sched.move t m = some sched) :
    sched.fault = none := by
  simp only [Sched.move] at h
  split at h
  · rename_i j hpc
    obtain rfl := hs.job (.inr (.inr (.inl hpc)))
    cases m with
    | yieldToReady | yieldToHold =>
        rw [if_neg (fun hj => hj.1 rfl)] at h
        cases h
    | swapOut | throw => exact Option.some.inj h ▸ hs.fault
    | finish =>
        dsimp only at h
        split at h
        · exact Option.some.inj h ▸ hs.fault
        · cases h
  · cases h

theorem calm_switchBack (hs : s.Winding) (h : s.sched.switchBack t = some sched) :
    sched.fault = none := by
  simp only [Sched.switchBack] at h
  split at h
  · exact Option.some.inj h ▸ hs.fault
  · cases h

theorem calm_readState (hs : s.Winding) (h : s.sched.readState t = some sched) :
    sched.fault = none := by
  simp only [Sched.readState] at h
  split at h
  · exact Option.some.inj h ▸ hs.fault
  · exact Option.some.inj h ▸ hs.fault
  · exact Option.some.inj h ▸ hs.fault
  · split at h
    · exact Option.some.inj h ▸ hs.fault
    · exact Option.some.inj h ▸ hs.fault
  · cases h

omit [DecidableEq ι] in
/-- Only the fiber of a callback is reset. -/
theorem resettable (hs : s.Winding) {j : Job} (hpc : s.sched.pc t = .settle j .recycle) :
    Fiber.Resettable (s.sched.fibers (j.ref t)).m_state := by
  have hid := hs.idle t
  have hdir := hs.direct t
  rw [hpc] at hid hdir
  cases j with
  | callback f => exact hs.recyclable t f hpc
  | idle => cases hid.1
  | direct f => exact absurd rfl (hdir f)
  | fiber f =>
      rcases hs.owns.settle t _ _ hpc with hj | ⟨g, hj⟩
      · cases hj
      · cases hj

theorem calm_settle (hs : s.Winding) (h : s.sched.settle t = some sched) : sched.fault = none := by
  simp only [Sched.settle] at h
  split at h
  · rename_i j hpc
    -- a fiber that is to be pushed back is work in hand
    have ht := hs.still.hand t
    rw [HandOf, hpc] at ht
    exact absurd rfl ht
  · rename_i j hpc
    rw [show (s.sched.fibers (j.ref t)).reset none = some (.new none) from
      if_pos (resettable hs hpc)] at h
    exact Option.some.inj h ▸ hs.fault
  · exact Option.some.inj h ▸ by split <;> exact hs.fault
  · cases h

end Calm

/-- No assertion fails any more. -/
theorem calm_run (hs : s.Winding) {a : Scheduler.Act ι} {sched : Sched ι} (ha : s.Admits a)
    (h : (Scheduler.scheduler tid).step s.sched a = some sched) : sched.fault = none := by
  simp only [Scheduler.scheduler, hs.fault, Option.isSome_none, Bool.false_eq_true, if_false] at h
  cases a with
  | schedule | swapIn => exact ha.elim
  | newFiber cb => exact Option.some.inj h ▸ hs.fault
  | enterRun t => exact calm_enterRun hs h
  | scan t => exact calm_scan hs h
  | dispatch t => exact calm_dispatch hs h
  | assertState t => exact calm_assertState hs h
  | setExec t => exact calm_setExec hs h
  | move t m => exact calm_move hs h
  | switchBack t => exact calm_switchBack hs h
  | readState t => exact calm_readState hs h
  | settle t => exact calm_settle hs h

/-- What is left for a thread behind `swapIn` can still be done behind a step of the scheduler. -/
theorem recyclable_run (hs : s.Winding) {a : Scheduler.Act ι} {sched : Sched ι} (ha : s.Admits a)
    (h : Sched.Steps tid s.sched a sched) :
    ∀ t f, sched.pc t = .settle (.callback f) .recycle → Fiber.Resettable (sched.state f) := by
  intro u f hu
  have hold := hs.recyclable u f
  simp only [Sched.state] at hold ⊢
  cases h with
  | schedule | swapIn => exact ha.elim
  | @callback t g hpc =>
      simp only [Sched.callbackTodo, Sched.state] at hu
      grind [Fiber.Resettable]
  | @hold t j o hpc =>
      rcases hs.owns.settle t j _ hpc with rfl | ⟨g, rfl⟩
      · grind [Job.ref]
      · -- the fiber it writes is not another thread's
        have hone := hs.owns.one t u
        have ht := hs.owns.job t g (by rw [hpc]; rfl)
        have hu' := hs.owns.job u f
        grind [Job.ref, Pc.job?]
  | @recycle t j hpc hres => cases j <;> grind [Job.ref, Fiber.Resettable]
  | @exec t j hpc | @never t j hpc | @leave t j m g c hpc | @switchBack t j c hpc =>
      obtain rfl := hs.job (t := t) (j := j) (by simp [hpc])
      grind [Job.ref]
  | @reuse t ft cb g hpc hft hcb | @fresh t ft cb hpc hft hcb =>
      have ht := hs.still.hand t
      rw [HandOf, hpc] at ht
      exact absurd (.inr (by rw [hcb]; rfl)) ht
  | _ => grind [Fiber.Resettable]

omit [DecidableEq ι] in
/-- Steps that leave the scheduler and the counters alone. -/
theorem Winding.of_sched (hs : s.Winding) (hsched : s'.sched = s.sched) (hstill : s'.Still)
    (hfits : ∀ t, Fits (s'.sched.pc t) (s'.stage t)) (htimers : s'.tm.m_timers = s.tm.m_timers)
    (hflags : s'.m_autostop = s.m_autostop ∧ s'.m_stopping = s.m_stopping)
    (hcounts : s'.m_activeThreadCount = s.m_activeThreadCount ∧
      s'.m_pendingEventCount = s.m_pendingEventCount)
    (hevents : s'.events = s.events)
    (htriggered : ∀ t, Triggering (s'.stage t) → Triggering (s.stage t)) : s'.Winding where
  fault := hsched ▸ hs.fault
  still := hstill
  timers := htimers.trans hs.timers
  raised := ⟨hflags.1.trans hs.raised.1, hflags.2.trans hs.raised.2⟩
  active := hcounts.1.trans hs.active
  pending := hcounts.2.trans hs.pending
  events := hevents.trans hs.events
  triggered := fun t ht => hs.triggered t (htriggered t ht)
  recyclable := by
    unfold Recyclable
    rw [hsched]
    exact hs.recyclable
  fits := hfits
  idle := hsched ▸ hs.idle
  bound := hsched ▸ hs.bound
  direct := by
    unfold NoDirect
    rw [hsched]
    exact hs.direct
  owns := hsched ▸ hs.owns
  wf := hsched ▸ hs.wf

/-- A step of the scheduler while it winds down. -/
theorem winding_run (hs : s.Winding) {a : Scheduler.Act ι} {sched : Sched ι} (ha : s.Admits a)
    (hstep : (Scheduler.scheduler tid).step s.sched a = some sched) :
    (s.behind tid a sched).Winding := by
  have h := (Sched.steps hstep).2
  have hsched : (s.behind tid a sched).sched = sched := behind_sched a sched
  have hflags : (s.behind tid a sched).m_autostop = s.m_autostop ∧
      (s.behind tid a sched).m_stopping = s.m_stopping := by
    cases a <;> exact ⟨rfl, rfl⟩
  refine
    { fault := hsched.symm ▸ calm_run hs ha hstep
      still := still_run ha h hs.still
      timers := (congrArg TimeManager.m_timers (behind_tm a sched)).trans hs.timers
      raised := ⟨hflags.1.trans hs.raised.1, hflags.2.trans hs.raised.2⟩
      active := (behind_active a sched).trans hs.active
      pending := (behind_pending a sched).trans hs.pending
      events := (behind_events a sched).trans hs.events
      triggered := fun t ht => hs.triggered t ((triggering_run ha t).mp ht)
      recyclable := ?_
      fits := fits_run ha h hs.fits
      idle := hsched.symm ▸ idleFits_run hs.fits ha h hs.idle
      bound := hsched.symm ▸ bound_run ha hs.idle h hs.bound
      direct := ?_
      owns := hsched.symm ▸ owns_run hs.wf h hs.owns
      wf := hsched.symm ▸ Sched.wf_step hs.wf h }
  · unfold Recyclable
    rw [hsched]
    exact recyclable_run hs ha h
  · unfold NoDirect
    rw [hsched]
    exact noDirect_run ha h hs.direct

/-- **Winding down goes on.** -/
theorem winding_step (hs : s.Winding) {a : Act ι} (ha : Internal a)
    (hstep : (pool tid).step s a = some s') : s'.Winding := by
  have h := (steps hstep).2
  have hfits := fits_step h hs.fits
  cases h with
  | run hadm hrun => exact winding_run hs hadm hrun
  | @count t j hpc hst =>
      obtain rfl := hs.job (t := t) (j := j) (.inl hpc)
      obtain ⟨hempty, hhand, hcbs⟩ := hs.still
      refine hs.of_sched rfl ⟨hempty, fun u hu => ?_, fun u hu => ?_⟩ hfits rfl ⟨rfl, rfl⟩
        ⟨rfl, rfl⟩ rfl (by grind)
      · have hu' := hhand u
        grind [HandOf]
      · have hu' := hcbs u
        grind
  | @uncount t j hpc hst =>
      have hj : j = .idle := by
        have ht := hs.still.hand t
        rw [HandOf, hpc, hst] at ht
        cases j <;> simp_all [InHand]
      subst hj
      exact hs.of_sched rfl (hs.still.of_stage rfl (by grind) (by grind)) hfits rfl ⟨rfl, rfl⟩
        ⟨rfl, rfl⟩ rfl (by grind)
  | @expire t now tmp tick hst =>
      have hnone := TimeManager.listExpiredCb_of_empty hs.timers now tmp
      have hnil : (s.tm.listExpiredCb now tmp).2 = [] := by rw [hnone]
      refine hs.of_sched rfl (hs.still.of_stage rfl (by grind) (by grind)) hfits ?_ ⟨rfl, rfl⟩
        ⟨rfl, rfl⟩ rfl (by grind)
      show (s.tm.listExpiredCb now tmp).1.m_timers = s.tm.m_timers
      rw [hnone]
  | @hand t cbs tick k hst =>
      have hnil : cbs = [] := by simpa [HasCbs, hst] using hs.still.cbs t
      subst hnil
      exact hs.of_sched rfl (hs.still.of_stage rfl (by grind) (by grind)) hfits rfl ⟨rfl, rfl⟩
        ⟨rfl, rfl⟩ rfl (by grind)
  | @trigger t n tick ft k hst hev => simp [hs.events] at hev
  | @decrement t tick hst => exact absurd (by rw [hst]; trivial) (hs.triggered t)
  | push | stop | timerCall | beginAdd | endAdd | beginDel | endDel | cancel | cancelled
  | callStopping => exact ha.elim
  | _ =>
      exact hs.of_sched rfl (hs.still.of_stage rfl (by grind [decline, accept])
        (by grind [decline, accept])) hfits rfl ⟨rfl, rfl⟩ ⟨rfl, rfl⟩ rfl
        (by grind [decline, accept])

end Pool

/-! ## What is left to do -/

/-- The steps left of a call of `stopping` from outside of `run`. -/
def callLeft : Stage → Nat
  | .timer => 3
  | .queue => 2
  | .events => 1
  | .rest | .counted | .stop | .blocked | .woken _ | .expired _ _ | .handle _ | .drain
  | .triggered _ => 0

/-- The steps left for a thread in its idle function, up to the return of `run`; from `epoll_wait` on
it comes back once. -/
def loopLeft : Stage → Nat
  | .stop => 7
  | .events => 8
  | .queue => 9
  | .timer => 10
  | .handle false => 20
  | .drain => 21
  | .handle true => 22
  | .expired _ _ => 23
  | .woken _ => 24
  | .blocked => 25
  | .rest | .counted | .triggered _ => 0

/-- The steps of another round through the idle function, if that has not returned. -/
def roundLeft (idle : State) : Nat := if idle = .term then 0 else 13

theorem roundLeft_le (idle : State) : roundLeft idle ≤ 13 := by
  unfold roundLeft
  split <;> omega

theorem roundLeft_of_ne {idle : State} (h : idle ≠ .term) : roundLeft idle = 13 := if_neg h

/-- The steps left for a thread at `pc`, whose idle fiber is in state `idle`. -/
def stepsLeft (pc : Pc) (st : Stage) (idle : State) : Nat :=
  match pc with
  | .outside => 26 + callLeft st
  | .swapIn _ => if st = .counted then 12 else 13
  | .setExec _ => 11
  | .inside _ => loopLeft st
  | .leaving _ _ => 6 + roundLeft idle
  | .post _ => (if st = .counted then 5 else 4) + roundLeft idle
  | .settle _ _ => 3 + roundLeft idle
  | .scan => 2 + roundLeft idle
  | .dispatch _ => 1 + roundLeft idle
  | .finished => callLeft st

/-- What is left of a `tickle()`, with the read of the byte it may write. -/
def Tickle.left : Tickle → Nat
  | .none => 0
  | .write => 2
  | .call => 3

namespace Pool

/-- The steps left for thread `t`. -/
def ahead (s : Pool ι) (t : ι) : Nat :=
  stepsLeft (s.sched.pc t) (s.stage t) (s.sched.fibers (.idle t)).m_state + (s.owes t).left

/-- The bytes in the pipe, and the steps of the `tickle` calls in progress. -/
def bytes (s : Pool ι) : Nat :=
  s.pipe + 2 * s.writing + 3 * s.owing + 2 * s.noticeWrites + 3 * s.notices

/-- **The steps left**, over all threads. -/
def left [Fintype ι] (s : Pool ι) : Nat := (∑ t, s.ahead t) + s.bytes

variable [DecidableEq ι] {tid : ι → Int} {s s' : Pool ι}

@[simp] theorem goto_owes (t u : ι) (st : Stage) : (s.goto t st).owes u = s.owes u := rfl
@[simp] theorem goto_bytes (t : ι) (st : Stage) : (s.goto t st).bytes = s.bytes := rfl
@[simp] theorem owe_bytes (t : ι) (k : Tickle) : (s.owe t k).bytes = s.bytes := rfl

section Lower

variable [Fintype ι]

omit [DecidableEq ι] in
/-- A step of thread `t`. -/
theorem left_lower {t : ι} (hothers : ∀ u, u ≠ t → s'.ahead u = s.ahead u)
    (h : s'.ahead t + s'.bytes < s.ahead t + s.bytes) : s'.left < s.left := by
  have hsum := Lib.sum_move t hothers
  unfold left
  omega

omit [DecidableEq ι] in
/-- A step of a `tickle` that is no worker's. -/
theorem left_lower_bytes (hothers : ∀ u, s'.ahead u = s.ahead u) (h : s'.bytes < s.bytes) :
    s'.left < s.left := by
  have hsum : (∑ u, s'.ahead u) = ∑ u, s.ahead u := Finset.sum_congr rfl fun u _ => hothers u
  unfold left
  omega

omit [Fintype ι] in
theorem behind_bytes (a : Scheduler.Act ι) (sched : Sched ι) :
    (s.behind tid a sched).bytes = s.bytes := by
  cases a <;> rfl

omit [DecidableEq ι] [Fintype ι] in
/-- With an empty queue a scan passes nothing. -/
theorem tickleMe_of_empty (hq : s.sched.m_fibers = []) (t : ι) : s.tickleMe tid t = false := by
  unfold tickleMe
  rw [hq]
  rfl

omit [DecidableEq ι] [Fintype ι] in
/-- Nothing is pushed back. -/
theorem Winding.no_requeue (hs : s.Winding) (t : ι) : s.requeues t = false := by
  have ht := hs.still.hand t
  unfold HandOf at ht
  unfold requeues
  split
  · rename_i j hpc
    rw [hpc] at ht
    exact absurd rfl ht
  · rfl

/-! ### Steps of the scheduler -/

section Run

variable {t : ι} {sched : Sched ι}

/-- The scheduler's steps leave the pipe alone. -/
theorem left_run {a : Scheduler.Act ι}
    (hothers : ∀ u, u ≠ t → (s.behind tid a sched).ahead u = s.ahead u)
    (h : (s.behind tid a sched).ahead t < s.ahead t) : (s.behind tid a sched).left < s.left := by
  refine left_lower hothers ?_
  rw [behind_bytes]
  exact Nat.add_lt_add_right h _

theorem lower_enterRun (ha : s.Admits (.enterRun t)) (h : Sched.Steps tid s.sched (.enterRun t) sched) :
    (s.behind tid (.enterRun t) sched).left < s.left := by
  cases h with
  | enterRun hpc =>
      -- outside of `run` a thread counts for more than the longest way through it
      have hst : s.stage t = .rest := ha
      have hround := roundLeft_le .init
      refine left_run (t := t) (fun u hu => by simp [ahead, behind, hu]) ?_
      simp [ahead, behind, hpc, hst, stepsLeft, callLeft]
      omega

theorem lower_scan (hs : s.Winding) (ha : s.Admits (.scan t))
    (h : Sched.Steps tid s.sched (.scan t) sched) (hcalm : sched.fault = none) :
    (s.behind tid (.scan t) sched).left < s.left := by
  have hq : s.sched.m_fibers = [] := hs.still.queue
  cases h with
  | scanFail => cases hcalm
  | scanTook hpc hsplit => simp [hq] at hsplit
  | scanNone hpc =>
      refine left_run (t := t) (fun u hu => by simp [ahead, behind, hu]) ?_
      simp [ahead, behind, hpc, ha.2, tickleMe_of_empty hq, stepsLeft]

/-- With nothing in hand. -/
theorem lower_dispatch (hs : s.Winding) (ha : s.Admits (.dispatch t))
    (h : Sched.Steps tid s.sched (.dispatch t) sched) (hcalm : sched.fault = none) :
    (s.behind tid (.dispatch t) sched).left < s.left := by
  have ht := hs.still.hand t
  rw [HandOf] at ht
  cases h with
  | reuseFail => cases hcalm
  | fiber hpc hft =>
      rw [hpc] at ht
      exact absurd (.inl (by rw [hft]; rfl)) ht
  | reuse hpc hft hcb | fresh hpc hft hcb =>
      rw [hpc] at ht
      exact absurd (.inr (by rw [hcb]; rfl)) ht
  | finished hpc =>
      refine left_run (t := t) (fun u hu => by simp [ahead, behind, hu]) ?_
      simp only [ahead, behind, Sched.goto_pc, ↓reduceIte, hpc, ha.1, stepsLeft, callLeft]
      omega
  | idle hpc hft hcb hst =>
      refine left_run (t := t) (fun u hu => by simp [ahead, behind, hu]) ?_
      simp [ahead, behind, hpc, ha.1, roundLeft_of_ne hst, stepsLeft]

theorem lower_assertState (ha : s.Admits (.assertState t))
    (h : Sched.Steps tid s.sched (.assertState t) sched) (hcalm : sched.fault = none) :
    (s.behind tid (.assertState t) sched).left < s.left := by
  cases h with
  | assertFail => cases hcalm
  | assertPass hpc =>
      have hc : s.stage t = .counted := ha
      refine left_run (t := t) (fun u hu => by simp [ahead, behind, hu]) ?_
      simp [ahead, behind, hpc, hc, stepsLeft]

/-- The idle fiber is entered. -/
theorem lower_setExec (hs : s.Winding) (h : Sched.Steps tid s.sched (.setExec t) sched)
    (hcalm : sched.fault = none) : (s.behind tid (.setExec t) sched).left < s.left := by
  cases h with
  | never => cases hcalm
  | @exec _ j hpc =>
      obtain rfl := hs.job (t := t) (j := j) (by simp [hpc])
      refine left_run (t := t) (fun u hu => by simp [ahead, behind, hu, Job.ref]) ?_
      simp [ahead, behind, hpc, stepsLeft, loopLeft]

/-- The idle function swaps out, or returns. -/
theorem lower_move (hs : s.Winding) {m : Scheduler.Move} (ha : s.Admits (.move t m))
    (h : Sched.Steps tid s.sched (.move t m) sched) (hcalm : sched.fault = none) :
    (s.behind tid (.move t m) sched).left < s.left := by
  cases h with
  | yieldFail => cases hcalm
  | @leave _ j _ g c hpc hl =>
      obtain rfl := hs.job (t := t) (j := j) (by simp [hpc])
      refine left_run (t := t) (fun u hu => by simp [ahead, behind, hu, Job.ref]) ?_
      have hfit := hs.fits t
      rw [hpc] at hfit
      cases hl with
      | ready hj | hold hj => exact absurd rfl hj
      | idle =>
          -- the bare `swapOut`: the worker has a whole round before it, and one step less
          have hround := roundLeft_le (s.sched.fibers (.idle t)).m_state
          simp [ahead, behind, hpc, ha.1, stepsLeft, loopLeft, Job.ref]
          omega
      | finish =>
          -- `stopping` has answered true, and there is no other round
          rcases ha with hc | hstop
          · rw [hc] at hfit
            exact absurd rfl hfit
          · simp [ahead, behind, hpc, hstop, stepsLeft, loopLeft, Job.ref, roundLeft]
      | throw =>
          rw [show s.stage t = .counted from ha] at hfit
          exact absurd rfl hfit

theorem lower_switchBack (hs : s.Winding) (ha : s.Admits (.switchBack t))
    (h : Sched.Steps tid s.sched (.switchBack t) sched) :
    (s.behind tid (.switchBack t) sched).left < s.left := by
  cases h with
  | @switchBack _ j c hpc =>
      obtain rfl := hs.job (t := t) (j := j) (by simp [hpc])
      have hc : s.stage t = .counted := ha
      refine left_run (t := t) (fun u hu => by simp [ahead, behind, hu, Job.ref]) ?_
      simp [ahead, behind, hpc, hc, stepsLeft, Job.ref]

theorem lower_readState (hs : s.Winding) (ha : s.Admits (.readState t))
    (h : Sched.Steps tid s.sched (.readState t) sched) :
    (s.behind tid (.readState t) sched).left < s.left := by
  cases h with
  | @done _ j pc hpc hto =>
      have hscan : pc = .scan := by
        rcases hto with ⟨-, f, rfl⟩ | hscan
        · exact absurd (by rw [hpc]; rfl) (hs.direct t f)
        · exact hscan
      subst hscan
      refine left_run (t := t) (fun u hu => by simp [ahead, behind, hu]) ?_
      simp [ahead, behind, hpc, ha.1, stepsLeft]
  | callback hpc | idleBack hpc =>
      refine left_run (t := t) (fun u hu => by simp [ahead, behind, hu]) ?_
      simp [ahead, behind, hpc, ha.1, stepsLeft]

/-- The fiber of a callback is reset or held, or the idle fiber is held. -/
theorem lower_settle (hs : s.Winding) (ha : s.Admits (.settle t))
    (h : Sched.Steps tid s.sched (.settle t) sched) (hcalm : sched.fault = none) :
    (s.behind tid (.settle t) sched).left < s.left := by
  have hback := hs.no_requeue t
  have hid := hs.idle t
  cases h with
  | recycleFail => cases hcalm
  | requeue hpc =>
      have ht := hs.still.hand t
      rw [HandOf, hpc] at ht
      exact absurd rfl ht
  | @recycle _ j hpc =>
      rw [hpc] at hid
      rcases hs.owns.settle t j _ hpc with rfl | ⟨f, rfl⟩
      · -- an idle fiber is not reset
        cases hid.1
      · refine left_run (t := t) (fun u hu => by simp [ahead, behind, hu, Job.ref]) ?_
        simp [ahead, behind, hpc, ha.2, hback, stepsLeft, Job.ref]
  | @hold _ j o hpc =>
      rw [hpc] at hid
      rcases hs.owns.settle t j _ hpc with rfl | ⟨f, rfl⟩
      · refine left_run (t := t) (fun u hu => by simp [ahead, behind, hu, Job.ref]) ?_
        simp [ahead, behind, hpc, ha.2, hback, stepsLeft, Job.ref, hid.2.1, roundLeft]
      · refine left_run (t := t) (fun u hu => by simp [ahead, behind, hu, Job.ref]) ?_
        simp [ahead, behind, hpc, ha.2, hback, stepsLeft, Job.ref]

/-- **A step of the scheduler** is one step less. -/
theorem lower_run (hs : s.Winding) {a : Scheduler.Act ι} (ha : s.Admits a)
    (hnew : ∀ cb, a ≠ .newFiber cb)
    (hstep : (Scheduler.scheduler tid).step s.sched a = some sched) :
    (s.behind tid a sched).left < s.left := by
  have hcalm := calm_run hs ha hstep
  have h := (Sched.steps hstep).2
  cases a with
  | schedule | swapIn => exact ha.elim
  | newFiber cb => exact absurd rfl (hnew cb)
  | enterRun t => exact lower_enterRun ha h
  | scan t => exact lower_scan hs ha h hcalm
  | dispatch t => exact lower_dispatch hs ha h hcalm
  | assertState t => exact lower_assertState ha h hcalm
  | setExec t => exact lower_setExec hs h hcalm
  | move t m => exact lower_move hs ha h hcalm
  | switchBack t => exact lower_switchBack hs ha h
  | readState t => exact lower_readState hs ha h
  | settle t => exact lower_settle hs ha h hcalm

end Run

/-! ### The other steps -/

section Loop

variable {t : ι} {now : UInt64}

theorem lower_count (h : Steps tid s (.count t) s') : s'.left < s.left := by
  cases h with
  | count hpc hst =>
      refine left_lower (t := t) (fun u hu => by simp [ahead, up, hu]) ?_
      simp [ahead, hpc, hst, stepsLeft, bytes, up, goto]

theorem lower_uncount (h : Steps tid s (.uncount t) s') : s'.left < s.left := by
  cases h with
  | uncount hpc hst =>
      refine left_lower (t := t) (fun u hu => by simp [ahead, down, hu]) ?_
      simp [ahead, hpc, hst, stepsLeft, bytes, down, goto]

/-- With no timer the first read of `stopping` finds none. -/
theorem lower_readTimer (hs : s.Winding) (h : s.step tid (.readTimer t now) = some s') :
    s'.left < s.left := by
  obtain ⟨hst, rfl⟩ := Lib.guarded_eq_some.mp h
  have hfit := hs.fits t
  rw [hst] at hfit
  rw [if_pos ((TimeManager.getNextTimer_eq_max s.tm now).mpr (.inl hs.timers))]
  refine left_lower (t := t) (fun u hu => by simp [ahead, hu]) ?_
  show _ + s.bytes < _
  rcases hfit with hpc | hpc | hpc <;>
    simp [ahead, hst, hpc, stepsLeft, loopLeft, callLeft]

/-- Nor does the second a task. -/
theorem lower_readQueue (hs : s.Winding) (h : s.step tid (.readQueue t) = some s') :
    s'.left < s.left := by
  obtain ⟨hst, rfl⟩ := Lib.guarded_eq_some.mp h
  have hfit := hs.fits t
  rw [hst] at hfit
  have hstop : s.schedStopping = true := by
    simp [schedStopping, hs.raised, hs.still.queue, hs.active]
  rw [if_pos hstop]
  refine left_lower (t := t) (fun u hu => by simp [ahead, hu]) ?_
  rcases hfit with hpc | hpc | hpc <;>
    simp [ahead, hst, hpc, stepsLeft, loopLeft, callLeft]

/-- Nor the third an event: `stopping` answers true. -/
theorem lower_readEvents (hs : s.Winding) (h : s.step tid (.readEvents t) = some s') :
    s'.left < s.left := by
  obtain ⟨hst, rfl⟩ := Lib.guarded_eq_some.mp h
  have hfit := hs.fits t
  rw [hst] at hfit
  rw [if_pos hs.pending]
  refine left_lower (t := t) (fun u hu => by simp [ahead, accept, hu]) ?_
  rcases hfit with hpc | hpc | hpc <;>
    simp [ahead, accept, hst, hpc, stepsLeft, loopLeft, callLeft]

theorem lower_wake (hs : s.Winding) {tick : Bool} (h : s.step tid (.wake t tick) = some s') :
    s'.left < s.left := by
  obtain ⟨⟨hst, -⟩, rfl⟩ := Lib.guarded_eq_some.mp h
  have hpc : s.sched.pc t = .inside .idle := by
    have hfit := hs.fits t
    rwa [hst] at hfit
  refine left_lower (t := t) (fun u hu => by simp [ahead, hu]) ?_
  simp [ahead, hst, hpc, stepsLeft, loopLeft]

theorem lower_expire (hs : s.Winding) {tmp : Nat} (h : Steps tid s (.expire t now tmp) s') :
    s'.left < s.left := by
  cases h with
  | expire hst =>
      have hpc : s.sched.pc t = .inside .idle := by
        have hfit := hs.fits t
        rwa [hst] at hfit
      refine left_lower (t := t) (fun u hu => by simp [ahead, hu]) ?_
      show _ + s.bytes < _
      simp [ahead, hst, hpc, stepsLeft, loopLeft]

/-- Without callbacks nothing is pushed, and no `tickle()` is due. -/
theorem lower_hand (hs : s.Winding) (h : s.step tid (.hand t) = some s') : s'.left < s.left := by
  simp only [step] at h
  split at h
  · rename_i cbs tick hst
    have hnil : cbs = [] := by simpa [HasCbs, hst] using hs.still.cbs t
    have hpc : s.sched.pc t = .inside .idle := by
      have hfit := hs.fits t
      rwa [hst] at hfit
    subst hnil
    rw [← Option.some.inj h]
    show ((s.goto t (.handle tick)).owe t .none).left < s.left
    refine left_lower (t := t) (fun u hu => by simp [ahead, hu]) ?_
    cases tick <;> simp [ahead, hst, hpc, stepsLeft, loopLeft, Tickle.left] <;> omega
  · cases h

theorem lower_tickled (hs : s.Winding) (h : s.step tid (.tickled t) = some s') :
    s'.left < s.left := by
  obtain ⟨⟨hst, -⟩, rfl⟩ := Lib.guarded_eq_some.mp h
  have hpc : s.sched.pc t = .inside .idle := by
    have hfit := hs.fits t
    rwa [hst] at hfit
  refine left_lower (t := t) (fun u hu => by simp [ahead, hu]) ?_
  simp [ahead, hst, hpc, stepsLeft, loopLeft]

/-- A byte less in the pipe, or the worker goes on. -/
theorem lower_drain (hs : s.Winding) (h : s.step tid (.drain t) = some s') : s'.left < s.left := by
  obtain ⟨hst, rfl⟩ := Lib.guarded_eq_some.mp h
  have hpc : s.sched.pc t = .inside .idle := by
    have hfit := hs.fits t
    rwa [hst] at hfit
  split
  · rename_i hpipe
    refine left_lower_bytes (fun u => rfl) ?_
    simp only [bytes]
    omega
  · refine left_lower (t := t) (fun u hu => by simp [ahead, hu]) ?_
    simp [ahead, hst, hpc, stepsLeft, loopLeft]

end Loop

section Tickles

omit [DecidableEq ι] in
/-- A `tickle()` that is going on counts for more than what it does next. -/
theorem lower_tickle (ho : 0 < s.owing) :
    ({ s with owing := s.owing - 1, writing := s.writing + s.hasIdleThreads.toNat } : Pool ι).left
      < s.left := by
  refine left_lower_bytes (fun u => rfl) ?_
  cases s.hasIdleThreads <;> simp [bytes] <;> omega

omit [DecidableEq ι] in
theorem lower_notice (ho : 0 < s.notices) :
    ({ s with
        notices := s.notices - 1
        noticeWrites := s.noticeWrites + s.hasIdleThreads.toNat } : Pool ι).left < s.left := by
  refine left_lower_bytes (fun u => rfl) ?_
  cases s.hasIdleThreads <;> simp [bytes] <;> omega

omit [DecidableEq ι] in
theorem lower_write (hw : 0 < s.writing) :
    ({ s with writing := s.writing - 1, pipe := s.pipe + 1 } : Pool ι).left < s.left := by
  refine left_lower_bytes (fun u => rfl) ?_
  simp only [bytes]
  omega

omit [DecidableEq ι] in
theorem lower_noticeWrite (hw : 0 < s.noticeWrites) :
    ({ s with noticeWrites := s.noticeWrites - 1, pipe := s.pipe + 1 } : Pool ι).left < s.left := by
  refine left_lower_bytes (fun u => rfl) ?_
  simp only [bytes]
  omega

/-- A worker's own `tickle()`. -/
theorem lower_tickleBy {t : ι} (h : s.step tid (.tickleBy t) = some s') : s'.left < s.left := by
  obtain ⟨ho, rfl⟩ := Lib.guarded_eq_some.mp h
  refine left_lower (t := t) (fun u hu => by simp [ahead, hu]) ?_
  cases s.hasIdleThreads <;> simp [ahead, ho, Tickle.left]

theorem lower_writeBy {t : ι} (h : s.step tid (.writeBy t) = some s') : s'.left < s.left := by
  obtain ⟨ho, rfl⟩ := Lib.guarded_eq_some.mp h
  have hbytes : ({ s.owe t .none with pipe := s.pipe + 1 } : Pool ι).bytes = s.bytes + 1 := by
    simp only [bytes, owe]
    omega
  refine left_lower (t := t) (fun u hu => by simp [ahead, hu]) ?_
  rw [hbytes]
  simp [ahead, ho, Tickle.left]
  omega

end Tickles

/-- **Every step is one less.** -/
theorem lower_step (hs : s.Winding) {a : Act ι} (ha : Internal a)
    (hstep : (pool tid).step s a = some s') : s'.left < s.left := by
  have hgo : s.step tid a = some s' := by
    simpa [pool, hs.fault] using hstep
  have h := (steps hstep).2
  cases a with
  | push | stop | timerCall | beginAdd | endAdd | beginDel | endDel | cancel | cancelled
  | callStopping => exact ha.elim
  | run a =>
      cases h with
      | run hadm hrun =>
          refine lower_run hs hadm ?_ hrun
          rintro cb rfl
          exact ha
  | count t => exact lower_count h
  | uncount t => exact lower_uncount h
  | tickleBy t => exact lower_tickleBy hgo
  | writeBy t => exact lower_writeBy hgo
  | readTimer t now => exact lower_readTimer hs hgo
  | readQueue t => exact lower_readQueue hs hgo
  | readEvents t => exact lower_readEvents hs hgo
  | wake t tick => exact lower_wake hs hgo
  | expire t now tmp => exact lower_expire hs h
  | hand t => exact lower_hand hs hgo
  | tickled t => exact lower_tickled hs hgo
  | drain t => exact lower_drain hs hgo
  | trigger t n =>
      -- no event is left
      cases h with
      | trigger hst hev => simp [hs.events] at hev
  | decrement t =>
      cases h with
      | decrement hst => exact absurd (by rw [hst]; trivial) (hs.triggered t)
  | tickle =>
      obtain ⟨ho, rfl⟩ := Lib.guarded_eq_some.mp hgo
      exact lower_tickle ho
  | write =>
      obtain ⟨hw, rfl⟩ := Lib.guarded_eq_some.mp hgo
      exact lower_write hw
  | notice =>
      obtain ⟨ho, rfl⟩ := Lib.guarded_eq_some.mp hgo
      exact lower_notice ho
  | noticeWrite =>
      obtain ⟨hw, rfl⟩ := Lib.guarded_eq_some.mp hgo
      exact lower_noticeWrite hw

end Lower

/-! ## Somebody can move -/

/-- A step of the scheduler can be taken. -/
theorem run_enabled (hfault : s.sched.fault = none) {a : Scheduler.Act ι} (ha : s.Admits a)
    (h : ((Scheduler.scheduler tid).step s.sched a).isSome = true) :
    (pool tid).step s (.run a) ≠ none := by
  obtain ⟨q, hq⟩ := Option.isSome_iff_exists.mp h
  simp [pool, hfault, step, ha, hq]

/-- The reads of `stopping`. -/
theorem read_enabled (hfault : s.sched.fault = none) {t : ι}
    (h : s.stage t = .timer ∨ s.stage t = .queue ∨ s.stage t = .events) :
    ∃ a, Internal a ∧ (pool tid).step s a ≠ none := by
  rcases h with hst | hst | hst
  · exact ⟨.readTimer t 0, trivial, by simp [pool, hfault, step, Lib.guarded, hst]⟩
  · exact ⟨.readQueue t, trivial, by simp [pool, hfault, step, Lib.guarded, hst]⟩
  · exact ⟨.readEvents t, trivial, by simp [pool, hfault, step, Lib.guarded, hst]⟩

/-- In its idle function. -/
theorem loop_enabled (hs : s.Winding) {t : ι} (ho : s.owes t = .none)
    (hpc : s.sched.pc t = .inside .idle) : ∃ a, Internal a ∧ (pool tid).step s a ≠ none := by
  have hfault := hs.fault
  have hfit := hs.fits t
  rw [hpc] at hfit
  cases hst : s.stage t with
  | rest =>
      rw [hst] at hfit
      exact absurd trivial hfit
  | counted =>
      rw [hst] at hfit
      exact absurd rfl hfit
  | timer => exact read_enabled hfault (.inl hst)
  | queue => exact read_enabled hfault (.inr (.inl hst))
  | events => exact read_enabled hfault (.inr (.inr hst))
  | stop =>
      have hexec := hs.idle t
      have hcb := hs.bound t
      rw [hpc] at hexec hcb
      have hsome : (s.sched.fibers (Job.idle.ref t)).m_cb.isSome = true := by
        refine hcb (by simp) ?_
        rw [show (s.sched.fibers (.idle t)).m_state = .exec from hexec]
        simp
      refine ⟨.run (.move t .finish), trivial, run_enabled hfault (.inr hst) ?_⟩
      simp [Scheduler.scheduler, hfault, Sched.move, hpc, hsome]
  | blocked => exact ⟨.wake t false, trivial, by simp [pool, hfault, step, Lib.guarded, hst]⟩
  | woken tick => exact ⟨.expire t 0 0, trivial, by simp [pool, hfault, step, hst]⟩
  | expired cbs tick => exact ⟨.hand t, trivial, by simp [pool, hfault, step, hst]⟩
  | handle tick =>
      cases tick with
      | true => exact ⟨.tickled t, trivial, by simp [pool, hfault, step, Lib.guarded, hst, ho]⟩
      | false =>
          refine ⟨.run (.move t .swapOut), trivial, run_enabled hfault ⟨hst, ho⟩ ?_⟩
          simp [Scheduler.scheduler, hfault, Sched.move, hpc]
  | drain => exact ⟨.drain t, trivial, by simp [pool, hfault, step, Lib.guarded, hst]⟩
  | triggered tick => exact absurd (by rw [hst]; trivial) (hs.triggered t)

/-- Between its idle function and outside of `run` a thread is at rest or counted. -/
theorem rest_or_counted {pc : Pc} {st : Stage} (hfit : Fits pc st) (hin : pc ≠ .inside .idle)
    (hout : pc ≠ .outside) (hfin : pc ≠ .finished) :
    st = .rest ∧ ¬ Counted pc ∨ st = .counted ∧ Countable pc := by
  cases st <;> grind

/-- On its way through `run`. -/
theorem round_enabled (hs : s.Winding) {t : ι} (ho : s.owes t = .none)
    (hst : s.stage t = .rest ∧ ¬ Counted (s.sched.pc t) ∨
      s.stage t = .counted ∧ Countable (s.sched.pc t))
    (hin : s.sched.pc t ≠ .inside .idle) (hout : s.sched.pc t ≠ .outside)
    (hfin : s.sched.pc t ≠ .finished) : ∃ a, Internal a ∧ (pool tid).step s a ≠ none := by
  have hfault := hs.fault
  have hhand := hs.still.hand t
  unfold HandOf at hhand
  cases hpc : s.sched.pc t with
  | outside => exact absurd hpc hout
  | finished => exact absurd hpc hfin
  | inside j =>
      obtain rfl := hs.job (t := t) (j := j) (by simp [hpc])
      exact absurd hpc hin
  | scan =>
      obtain ⟨hrest, -⟩ := hst.resolve_right fun h => by simp [hpc, Countable] at h
      refine ⟨.run (.scan t), trivial, run_enabled hfault ⟨hrest, ho⟩ ?_⟩
      simp [Scheduler.scheduler, hfault, Sched.scan, hpc, hs.still.queue, Scheduler.scan]
  | dispatch ft =>
      obtain ⟨hrest, -⟩ := hst.resolve_right fun h => by simp [hpc, Countable] at h
      rw [hpc] at hhand
      simp only [InHand, not_or, Bool.not_eq_true, Option.isSome_eq_false_iff,
        Option.isNone_iff_eq_none] at hhand
      refine ⟨.run (.dispatch t), trivial, run_enabled hfault ⟨hrest, ho⟩ ?_⟩
      simp [Scheduler.scheduler, hfault, Sched.dispatch, hpc, hhand.1, hhand.2]
  | swapIn j =>
      rcases hst with ⟨hrest, -⟩ | ⟨hcounted, -⟩
      · exact ⟨.count t, trivial, by simp [pool, hfault, step, Lib.guarded, hpc, hrest]⟩
      · refine ⟨.run (.assertState t), trivial, run_enabled hfault hcounted ?_⟩
        simp only [Scheduler.scheduler, hfault, Sched.assertState, hpc, Option.isSome_none,
          Bool.false_eq_true, if_false]
        split <;> rfl
  | setExec j =>
      obtain ⟨hcounted, -⟩ := hst.resolve_left fun h => by simp [hpc, Counted] at h
      refine ⟨.run (.setExec t), trivial, run_enabled hfault hcounted ?_⟩
      simp only [Scheduler.scheduler, hfault, Sched.setExec, hpc, Option.isSome_none,
        Bool.false_eq_true, if_false]
      split <;> rfl
  | leaving j c =>
      obtain ⟨hcounted, -⟩ := hst.resolve_left fun h => by simp [hpc, Counted] at h
      refine ⟨.run (.switchBack t), trivial, run_enabled hfault hcounted ?_⟩
      simp [Scheduler.scheduler, hfault, Sched.switchBack, hpc]
  | post j =>
      rcases hst with ⟨hrest, -⟩ | ⟨hcounted, -⟩
      · refine ⟨.run (.readState t), trivial, run_enabled hfault ⟨hrest, ho⟩ ?_⟩
        cases j <;> simp [Scheduler.scheduler, hfault, Sched.readState, hpc]
        split <;> rfl
      · exact ⟨.uncount t, trivial, by simp [pool, hfault, step, Lib.guarded, hpc, hcounted]⟩
  | settle j todo =>
      obtain ⟨hrest, -⟩ := hst.resolve_right fun h => by simp [hpc, Countable] at h
      refine ⟨.run (.settle t), trivial, run_enabled hfault ⟨hrest, ho⟩ ?_⟩
      rw [hpc] at hhand
      cases todo with
      | requeue => exact absurd rfl hhand
      | recycle =>
          simp only [Scheduler.scheduler, hfault, Sched.settle, hpc, Option.isSome_none,
            Bool.false_eq_true, if_false]
          cases (s.sched.fibers (j.ref t)).reset none <;> rfl
      | hold => simp [Scheduler.scheduler, hfault, Sched.settle, hpc]

/-- **A thread that is not through can move**, if only to finish a `tickle()`. -/
theorem exists_step (hs : s.Winding) {t : ι}
    (hnot : ¬ (s.sched.pc t = .finished ∧ s.stage t = .rest)) :
    ∃ a, Internal a ∧ (pool tid).step s a ≠ none := by
  have hfault := hs.fault
  have hfit := hs.fits t
  cases ho : s.owes t with
  | call => exact ⟨.tickleBy t, trivial, by simp [pool, hfault, step, Lib.guarded, ho]⟩
  | write => exact ⟨.writeBy t, trivial, by simp [pool, hfault, step, Lib.guarded, ho]⟩
  | none =>
      cases hpc : s.sched.pc t with
      | outside =>
          cases hst : s.stage t with
          | rest =>
              refine ⟨.run (.enterRun t), trivial, run_enabled hfault hst ?_⟩
              simp [Scheduler.scheduler, hfault, Sched.enterRun, hpc]
          | timer => exact read_enabled hfault (.inl hst)
          | queue => exact read_enabled hfault (.inr (.inl hst))
          | events => exact read_enabled hfault (.inr (.inr hst))
          | counted | stop | blocked | woken | expired | handle | drain | triggered =>
              simp [hst, hpc, Fits, Countable] at hfit
      | finished =>
          cases hst : s.stage t with
          | rest => exact absurd ⟨hpc, hst⟩ hnot
          | timer => exact read_enabled hfault (.inl hst)
          | queue => exact read_enabled hfault (.inr (.inl hst))
          | events => exact read_enabled hfault (.inr (.inr hst))
          | counted | stop | blocked | woken | expired | handle | drain | triggered =>
              simp [hst, hpc, Fits, Countable] at hfit
      | inside j =>
          obtain rfl := hs.job (t := t) (j := j) (by simp [hpc])
          exact loop_enabled hs ho hpc
      | scan | dispatch | swapIn | setExec | leaving | post | settle =>
          have hin : s.sched.pc t ≠ .inside .idle := by simp [hpc]
          have hout : s.sched.pc t ≠ .outside := by simp [hpc]
          have hfin : s.sched.pc t ≠ .finished := by simp [hpc]
          exact round_enabled hs ho (rest_or_counted hfit hin hout hfin) hin hout hfin

/-! ## All workers leave -/

variable [Fintype ι]

theorem winding_variant :
    (pool tid).Variant (fun (_ : Pool ι) a => Internal a) Winding left where
  keep hs ha hstep := winding_step hs ha hstep
  lower hs ha hstep := lower_step hs ha hstep

/-- From `s` on, whoever is to move next, the steps left are counted; no assertion fails on the way, and
when nobody can move any more, all have returned from `run`.  And that moment can be reached. -/
structure AllLeave (tid : ι → Int) (s : Pool ι) : Prop where
  bounded : ∀ as s', (pool tid).Along (fun _ a => Internal a) s as →
    (pool tid).exec s as = some s' → as.length + s'.left ≤ s.left ∧ s'.sched.fault = none
  finished : ∀ as s', (pool tid).Along (fun _ a => Internal a) s as →
    (pool tid).exec s as = some s' → (pool tid).AtRest (fun _ a => Internal a) s' →
    ∀ t, s'.sched.pc t = .finished
  reached : ∃ as s', (pool tid).Along (fun _ a => Internal a) s as ∧
    (pool tid).exec s as = some s' ∧ ∀ t, s'.sched.pc t = .finished

theorem leave_of_winding (hs : s.Winding) : AllLeave tid s := by
  have hend : ∀ as s', (pool tid).Along (fun _ a => Internal a) s as →
      (pool tid).exec s as = some s' → (pool tid).AtRest (fun _ a => Internal a) s' →
      ∀ t, s'.sched.pc t = .finished := by
    intro as s' hal hrun hrest t
    by_contra hnot
    obtain ⟨a, ha, hne⟩ : ∃ a, Internal a ∧ (pool tid).step s' a ≠ none :=
      exists_step (winding_variant.bounded hs hal hrun).1 fun h : _ ∧ s'.stage t = .rest => hnot h.1
    exact hne (hrest a ha)
  refine ⟨fun as s' hal hrun => ?_, hend, ?_⟩
  · obtain ⟨hs', hle⟩ := winding_variant.bounded hs hal hrun
    exact ⟨hle, hs'.fault⟩
  · obtain ⟨as, s', hal, hrun, hrest⟩ : ∃ as s', (pool tid).Along (fun _ a => Internal a) s as ∧
        (pool tid).exec s as = some s' ∧ (pool tid).AtRest (fun _ a => Internal a) s' :=
      winding_variant.exists_rest hs
    exact ⟨as, s', hal, hrun, hend as s' hal hrun hrest⟩

omit [Fintype ι] in
/-- `m_stopping` is never false. -/
theorem stopping_of_reachable (hs : (pool tid).Reachable s) : s.m_stopping = true := by
  refine Lib.System.Reachable.invariant (P := fun s => s.m_stopping = true) ?_
    (fun s a s' ih h => ?_) hs
  · rintro s ⟨now, rfl⟩
    rfl
  · cases (steps h).2 with
    | @run a sched =>
        rw [show (s.behind tid a sched).m_stopping = s.m_stopping by cases a <;> rfl]
        exact ih
    | stop => rfl
    | _ => exact ih

theorem winding_of_quiet (hs : (pool tid).Reachable s) (hfault : s.sched.fault = none)
    (hq : s.Quiet) (hpend : s.m_pendingEventCount = 0) (hup : s.m_autostop = true)
    (hrec : s.Recyclable) : s.Winding := by
  have hcount := pending_of_reachable hs
  rw [hpend] at hcount
  have htriggered : census Triggering s.stage = 0 := by omega
  have hactive : s.m_activeThreadCount = 0 := by
    rw [active_of_reachable hs, Lib.census_eq_zero]
    rintro t ⟨hst, hjob, hidle⟩
    simp only [place] at hst hjob hidle
    refine hq.hand t ?_
    have hfit := fits_of_reachable hs t
    unfold HandOf
    rw [hst] at hfit ⊢
    cases hpc : s.sched.pc t with
    | post j => cases j <;> grind
    | _ => grind
  exact
    { fault := hfault
      still := ⟨hq.queue, hq.hand, hq.cbs⟩
      timers := hq.timers
      raised := ⟨hup, stopping_of_reachable hs⟩
      active := hactive
      pending := hpend
      events := hq.events.1
      triggered := Lib.census_eq_zero.mp htriggered
      recyclable := hrec
      fits := fits_of_reachable hs
      idle := idleFits_of_reachable hs
      bound := bound_of_reachable hs
      direct := noDirect_of_reachable hs
      owns := owns_of_reachable (sched_of_reachable hs)
      wf := wf_of_reachable hs }

/-- In a settled run that is so as soon as `stopping` answers true to one of them. -/
theorem leave_when_told {t : ι} (hs : (pool tid).ReachableWhen Settled s)
    (hc : s.Settled (.readEvents t)) (ht : s.stage t = .events) (hpend : s.m_pendingEventCount = 0)
    (hfault : s.sched.fault = none) (hrec : s.Recyclable) : AllLeave tid s := by
  obtain ⟨htimers, hstill⟩ := readers_of_reachable hs
  have hcount := pending_of_reachable hs.reachable
  obtain ⟨hqueue, hhand, hcbs⟩ := hstill t ht
  have hquiet : s.Quiet :=
    { queue := hqueue
      hand := hhand
      timers := htimers t (.inl ht)
      cbs := hcbs
      events := ⟨List.eq_nil_of_length_eq_zero (by omega), hc hpend⟩ }
  exact leave_of_winding (winding_of_quiet hs.reachable hfault hquiet hpend
    (autostop_of_reachable hs.reachable t ht) hrec)

instance (s : Pool ι) (t : ι) : Decidable (s.HandOf t) :=
  inferInstanceAs (Decidable (InHand s.sched.state (s.sched.pc t) (s.stage t)))

end Pool

end Sylar.Worker
