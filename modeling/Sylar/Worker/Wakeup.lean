/-
# Sylar.Worker.Wakeup — a task in the queue, and everyone asleep.

`schedule` calls `tickle` only if the queue was empty, and `tickle` writes to the pipe only if
`m_idleThreadCount` is not zero.  Neither test sees a worker between its failed scan and
`++m_idleThreadCount`: a task pushed then is announced to nobody, and the worker goes on to
`epoll_wait` (`task_left_asleep`).  Nor does the first test look at what the queue holds: behind an
entry no one may take, a push is not announced at all.

`Covered` is what keeps a task from being lost: someone is awake and will scan again before it
sleeps, or a byte is in the pipe, or a `schedule` call is about to write one.  `Heard` is the
condition on a step that it does not break this in one of the two ways above, and
`no_lost_wakeup` is the property of the design in every run whose steps all meet it.
-/
import Sylar.Worker.Pool
import Mathlib.Data.Fintype.Basic

namespace Sylar.Worker

open Scheduler (FiberAndThread Sched Pc Job)

variable {ι : Type}

/-! ## Who is awake -/

/-- The thread is in `run`. -/
@[grind]
def InRun (pc : Pc) : Prop := pc ≠ .outside ∧ pc ≠ .finished

/-- By its program point, the thread will scan the queue before it is in `epoll_wait` again. -/
@[grind]
def Busy : Pc → Prop
  | .scan | .leaving _ _ | .post _ | .settle _ _ => True
  | .dispatch ft => ft.fiber.isSome = true ∨ ft.cb.isSome = true
  | .swapIn j | .setExec j | .inside j => j ≠ .idle
  | .outside | .finished => False

/-- So does a thread in `idle`, from `epoll_wait` on, or when `stopping` has answered true. -/
@[grind]
def Roving : Stage → Prop
  | .stop | .woken _ | .expired _ _ | .handle _ | .drain | .triggered _ => True
  | .rest | .counted | .timer | .queue | .events | .blocked => False

/-- The thread will scan the queue before it is in `epoll_wait` again. -/
@[grind]
def Awake (pc : Pc) (st : Stage) : Prop := Busy pc ∨ (pc = .inside .idle ∧ Roving st)

instance : DecidablePred InRun := fun pc =>
  inferInstanceAs (Decidable (pc ≠ .outside ∧ pc ≠ .finished))

instance : DecidablePred Busy
  | .scan | .leaving _ _ | .post _ | .settle _ _ => isTrue trivial
  | .dispatch ft => inferInstanceAs (Decidable (ft.fiber.isSome = true ∨ ft.cb.isSome = true))
  | .swapIn j | .setExec j | .inside j => inferInstanceAs (Decidable (j ≠ .idle))
  | .outside | .finished => isFalse id

instance : DecidablePred Roving
  | .stop | .woken _ | .expired _ _ | .handle _ | .drain | .triggered _ => isTrue trivial
  | .rest | .counted | .timer | .queue | .events | .blocked => isFalse id

instance (pc : Pc) (st : Stage) : Decidable (Awake pc st) :=
  inferInstanceAs (Decidable (Busy pc ∨ (pc = .inside .idle ∧ Roving st)))

namespace Pool

/-- Every worker may take this task: it is not pinned, and not a fiber in `EXEC`. -/
def Takeable (s : Pool ι) (ft : FiberAndThread) : Prop :=
  ft.thread = -1 ∧ (ft.fiber.isSome = true ∨ ft.cb.isSome = true) ∧
    ∀ f ∈ ft.fiber, s.sched.state f ≠ .exec

/-- The queue holds such a task. -/
def HasTask (s : Pool ι) : Prop := ∃ ft ∈ s.sched.m_fibers, s.Takeable ft

/-- Someone will look at the queue, not counting `k` of the `schedule` calls before their `tickle()`;
or there is nobody in `run` at all. -/
def Roused (s : Pool ι) (k : Nat) : Prop :=
  (∃ t, Awake (s.sched.pc t) (s.stage t)) ∨ 0 < s.pipe ∨ k < s.owing ∨ 0 < s.writing ∨
    ∀ t, ¬ InRun (s.sched.pc t)

/-- **A lost wake-up**: there is a task every worker may take, every worker is in `epoll_wait`, the
pipe is empty, and no `schedule` call is between its push and the end of its `tickle()`. -/
def LostWakeup (s : Pool ι) : Prop :=
  s.HasTask ∧ (∀ t, InRun (s.sched.pc t) → s.sched.pc t = .inside .idle ∧ s.stage t = .blocked) ∧
    (∃ t, InRun (s.sched.pc t)) ∧ s.pipe = 0 ∧ s.owing = 0 ∧ s.writing = 0

/-! ## The condition -/

/-- A task pushed onto a queue that is not empty, and a task in the queue when a `tickle()` finds no
idle thread, do not depend on this call: someone else is going to look at the queue. -/
def Heard (s : Pool ι) : Act ι → Prop
  | .push ft => s.sched.m_fibers ≠ [] → s.Takeable ft → s.Roused 0
  | .cancel n => s.sched.m_fibers ≠ [] → (∃ ft ∈ s.events[n]?, s.Takeable ft) → s.Roused 0
  | .tickle => s.hasIdleThreads = false → s.HasTask → s.Roused 1
  | _ => True

instance (s : Pool ι) : DecidablePred s.Takeable := fun ft =>
  inferInstanceAs (Decidable (ft.thread = -1 ∧ (ft.fiber.isSome = true ∨ ft.cb.isSome = true) ∧
    ∀ f ∈ ft.fiber, s.sched.state f ≠ .exec))

instance (s : Pool ι) : Decidable s.HasTask :=
  inferInstanceAs (Decidable (∃ ft ∈ s.sched.m_fibers, s.Takeable ft))

instance [Fintype ι] (s : Pool ι) (k : Nat) : Decidable (s.Roused k) :=
  inferInstanceAs (Decidable ((∃ t, Awake (s.sched.pc t) (s.stage t)) ∨ 0 < s.pipe ∨ k < s.owing ∨
    0 < s.writing ∨ ∀ t, ¬ InRun (s.sched.pc t)))

instance [Fintype ι] (s : Pool ι) : Decidable s.LostWakeup :=
  inferInstanceAs (Decidable (s.HasTask ∧
    (∀ t, InRun (s.sched.pc t) → s.sched.pc t = .inside .idle ∧ s.stage t = .blocked) ∧
    (∃ t, InRun (s.sched.pc t)) ∧ s.pipe = 0 ∧ s.owing = 0 ∧ s.writing = 0))

instance [Fintype ι] (s : Pool ι) : DecidablePred s.Heard
  | .push ft => inferInstanceAs (Decidable
      (s.sched.m_fibers ≠ [] → s.Takeable ft → s.Roused 0))
  | .cancel n => inferInstanceAs (Decidable
      (s.sched.m_fibers ≠ [] → (∃ ft ∈ s.events[n]?, s.Takeable ft) → s.Roused 0))
  | .tickle => inferInstanceAs (Decidable
      (s.hasIdleThreads = false → s.HasTask → s.Roused 1))
  | .run _ | .count _ | .uncount _ | .tickleBy _ | .writeBy _ | .callStopping _ | .readTimer _ _
  | .readQueue _ | .readEvents _ | .wake _ _ | .expire _ _ _ | .hand _ | .tickled _ | .drain _
  | .trigger _ _ | .decrement _ | .write | .stop _ | .notice | .noticeWrite | .timerCall _
  | .beginAdd _ | .endAdd _ | .beginDel _ | .endDel _ | .cancelled => isTrue trivial

/-! ## The invariant -/

/-- Someone will look at a task. -/
def Covered (s : Pool ι) : Prop := s.HasTask → s.Roused 0

/-- The step brings no new task, and takes nobody and nothing away that will look at one. -/
structure Keeps (s s' : Pool ι) : Prop where
  task : ∀ ft ∈ s'.sched.m_fibers, s'.Takeable ft → ft ∈ s.sched.m_fibers ∧ s.Takeable ft
  awake : ∀ t, Awake (s.sched.pc t) (s.stage t) → Awake (s'.sched.pc t) (s'.stage t)
  run : ∀ t, InRun (s'.sched.pc t) → InRun (s.sched.pc t)
  pipe : s.pipe ≤ s'.pipe
  owing : s.owing ≤ s'.owing
  writing : s.writing ≤ s'.writing

theorem Keeps.covered {s s' : Pool ι} (h : Keeps s s') (hs : Covered s) : Covered s' := by
  rintro ⟨ft, hft, htake⟩
  have hold := h.task ft hft htake
  have := h.pipe
  have := h.owing
  have := h.writing
  rcases hs ⟨ft, hold⟩ with ⟨t, ht⟩ | hp | ho | hw | hr
  · exact .inl ⟨t, h.awake t ht⟩
  · exact .inr (.inl (by omega))
  · exact .inr (.inr (.inl (by omega)))
  · exact .inr (.inr (.inr (.inl (by omega))))
  · exact .inr (.inr (.inr (.inr fun t ht => hr t (h.run t ht))))

/-- Who is awake looks at every task. -/
theorem covered_of_awake {s : Pool ι} {t : ι} (h : Awake (s.sched.pc t) (s.stage t)) :
    Covered s := fun _ => .inl ⟨t, h⟩

variable [DecidableEq ι] {tid : ι → Int} {s s' : Pool ι}

/-- A step of the scheduler keeps tasks covered: the worker that takes the step is awake behind it,
or has found nothing to take, or was not awake before. -/
theorem covered_run {a : Scheduler.Act ι} {sched : Sched ι} (hwf : Sched.WF s.sched)
    (hd : s.NoDirect) (ha : s.Admits a) (h : Sched.Steps tid s.sched a sched) (hs : Covered s) :
    Covered (s.behind tid a sched) := by
  cases h with
  | @enterRun t hpc => exact covered_of_awake (t := t) (by simp [behind, Awake, Busy])
  | @scanTook t ft pre post tk hpc hq hel hscan =>
      have hne := hwf.nonEmpty ft (by rw [hq]; simp)
      exact covered_of_awake (t := t) (by simp [behind, Awake, Busy, hne])
  | @scanNone t hpc hnone =>
      rintro ⟨ft, hft, hpin, -, hexec⟩
      exact absurd ⟨.inl hpin, hexec⟩ (hnone ft hft)
  | @done t j pc hpc hnext =>
      rcases hnext with ⟨-, f, rfl⟩ | rfl
      · exact absurd (by rw [hpc]; rfl) (hd t f)
      · exact covered_of_awake (t := t) (by simp [behind, Awake, Busy])
  | @fiber t | @reuse t | @fresh t | @leave t | @switchBack t | @callback t | @idleBack t
  | @requeue t | @recycle t | @hold t =>
      exact covered_of_awake (t := t) (by simp [behind, Awake, Busy])
  | schedule | swapIn => exact ha.elim
  | newFiber =>
      -- the new fiber is in nobody's entry
      have hlt := hwf.queue
      refine Keeps.covered (s := s) ⟨?_, ?_, ?_, le_rfl, le_rfl, le_rfl⟩ hs
      all_goals grind [behind, Takeable, Sched.state, Option.mem_def]
  | _ =>
      refine Keeps.covered (s := s) ⟨?_, ?_, ?_, le_rfl, le_rfl, le_rfl⟩ hs
      all_goals grind [behind, Takeable, Sched.state, Admits]

omit [DecidableEq ι] in
/-- A `schedule` call onto an empty queue is going to call `tickle()`; onto another it is heard. -/
theorem covered_push {ft : FiberAndThread} (hs : Covered s)
    (hc : s.sched.m_fibers ≠ [] → s.Takeable ft → s.Roused 0)
    (hsched : s'.sched = s.sched.push ft) (hstage : s'.stage = s.stage) (hpipe : s'.pipe = s.pipe)
    (howing : s'.owing = s.owing + s.sched.m_fibers.isEmpty.toNat)
    (hwriting : s'.writing = s.writing) : Covered s' := by
  rintro ⟨x, hx, htake⟩
  have hpc : s'.sched.pc = s.sched.pc := by rw [hsched]; rfl
  have hkeep : s.Roused 0 → s'.Roused 0 := by
    unfold Roused
    rw [hpc, hstage, hpipe, hwriting, howing]
    rintro (ht | hp | ho | hw | hr)
    · exact .inl ht
    · exact .inr (.inl hp)
    · exact .inr (.inr (.inl (by omega)))
    · exact .inr (.inr (.inr (.inl hw)))
    · exact .inr (.inr (.inr (.inr hr)))
  have htake' : s.Takeable x := by
    unfold Takeable at htake ⊢
    rwa [hsched] at htake
  rw [hsched] at hx
  rcases Sched.mem_push hx with hold | rfl
  · exact hkeep (hs ⟨x, hold, htake'⟩)
  · cases hq : s.sched.m_fibers with
    | nil =>
        right; right; left
        rw [howing, hq]
        show 0 < s.owing + 1
        omega
    | cons y q => exact hkeep (hc (by rw [hq]; simp) htake')

/-- **One step keeps tasks covered**, if it is heard. -/
theorem covered_step {a : Act ι} (hwf : Sched.WF s.sched) (hd : s.NoDirect)
    (hfit : ∀ t, Fits (s.sched.pc t) (s.stage t)) (hc : s.Heard a) (h : Steps tid s a s')
    (hs : Covered s) : Covered s' := by
  cases h with
  | run ha hstep => exact covered_run hwf hd ha (Sched.steps hstep).2 hs
  | push hf => exact covered_push hs hc rfl rfl rfl rfl rfl
  | @cancel n ft hev hf =>
      exact covered_push hs (fun hq ht => hc hq ⟨ft, hev, ht⟩) rfl rfl rfl rfl rfl
  | tickle ho =>
      intro htask
      cases hidle : s.hasIdleThreads with
      | true =>
          -- the byte is about to be written
          exact .inr (.inr (.inr (.inl (Nat.succ_pos _))))
      | false =>
          rcases hc hidle htask with ht | hp | ho | hw | hr
          · exact .inl ht
          · exact .inr (.inl hp)
          · exact .inr (.inr (.inl (by show 0 < s.owing - 1; omega)))
          · exact .inr (.inr (.inr (.inl (by show 0 < s.writing + _; omega))))
          · exact .inr (.inr (.inr (.inr hr)))
  | write => exact fun _ => .inr (.inl (Nat.succ_pos _))
  | noticeWrite => exact fun _ => .inr (.inl (Nat.succ_pos _))
  | writeBy => exact fun _ => .inr (.inl (Nat.succ_pos _))
  | @hand t cbs tick k hst =>
      have hpc : s.sched.pc t = .inside .idle := by simpa [Fits, hst] using hfit t
      exact covered_of_awake (t := t) (.inr ⟨by simpa [Sched.pushAll] using hpc, by simp [Roving]⟩)
  | @trigger t n tick ft k hst =>
      have hpc : s.sched.pc t = .inside .idle := by simpa [Fits, hst] using hfit t
      exact covered_of_awake (t := t) (.inr ⟨by simpa using hpc, by simp [Roving]⟩)
  | @drain t hst =>
      have hpc : s.sched.pc t = .inside .idle := by simpa [Fits, hst] using hfit t
      exact covered_of_awake (t := t) (.inr ⟨hpc, by simp [Roving, hst]⟩)
  | _ =>
      refine Keeps.covered (s := s) ⟨?_, ?_, ?_, le_rfl, le_rfl, le_rfl⟩ hs
      all_goals grind [Takeable, decline, accept]

/-- Tasks are covered in every heard run. -/
theorem covered_of_reachable (hs : (pool tid).ReachableWhen Heard s) : Covered s := by
  refine Lib.System.ReachableWhen.invariant_of (P := Covered)
    (Q := fun s => (pool tid).Reachable s) (fun s hs => hs.reachable) ?_ ?_ hs
  · rintro s ⟨now, rfl⟩ ⟨ft, hft, -⟩
    cases hft
  · intro s a s' hr hcov hc hstep
    exact covered_step (wf_of_reachable hr) (noDirect_of_reachable hr) (fits_of_reachable hr) hc
      (steps hstep).2 hcov

/-- **No lost wake-up.**  In a run whose steps are all heard, it never happens that the queue holds a
task every worker may take, all workers are in `epoll_wait`, the pipe is empty, and no `schedule`
call is between its push and the end of its `tickle()`. -/
theorem no_lost_wakeup (hs : (pool tid).ReachableWhen Heard s) : ¬ s.LostWakeup := by
  rintro ⟨htask, hblocked, ⟨t, ht⟩, hpipe, howing, hwriting⟩
  rcases covered_of_reachable hs htask with ⟨u, hu⟩ | hp | ho | hw | hr
  · -- who is awake is in `run`, and not in `epoll_wait`
    have hrun : InRun (s.sched.pc u) := by
      rcases hu with hbusy | ⟨hpc, -⟩
      · constructor
        · intro hpc
          rw [hpc] at hbusy
          exact hbusy
        · intro hpc
          rw [hpc] at hbusy
          exact hbusy
      · rw [hpc]
        exact ⟨by simp, by simp⟩
    obtain ⟨hpc, hst⟩ := hblocked u hrun
    rw [hpc, hst] at hu
    rcases hu with hbusy | ⟨-, hrove⟩
    · exact hbusy rfl
    · exact hrove
  · omega
  · omega
  · omega
  · exact hr t ht

/-! ## Runs -/

/-- The only worker comes into `epoll_wait` behind a failed scan. -/
def fallAsleep : List (Act Unit) :=
  [.run (.dispatch ()), .count (), .run (.assertState ()), .run (.setExec ()), .readTimer () 1,
    .readQueue ()]

/-- It is asleep when a callback is scheduled, and the call writes to the pipe. -/
def announcedRun : List (Act Unit) :=
  [.run (.enterRun ()), .run (.scan ())] ++ fallAsleep ++ [.push ⟨none, some 1, -1⟩, .tickle, .write]

theorem no_lost_wakeup_run :
    let s := ((pool fun _ : Unit => 1).exec (.initial 0) announcedRun).get (by decide)
    s.HasTask ∧ s.stage () = .blocked ∧ ¬ s.LostWakeup := by
  have hend : let s := ((pool fun _ : Unit => 1).exec (.initial 0) announcedRun).get (by decide)
      s.HasTask ∧ s.stage () = .blocked := by decide
  exact ⟨hend.1, hend.2, no_lost_wakeup (Lib.System.ReachableWhen.exec (.init ⟨0, rfl⟩)
    (l := announcedRun) (by decide) (Option.some_get _).symm)⟩

/-- It has scanned when a callback is scheduled, and is not counted idle yet. -/
def unheardRun : List (Act Unit) :=
  [.run (.enterRun ()), .run (.scan ()), .push ⟨none, some 1, -1⟩, .tickle] ++ fallAsleep

/-- **A task left, and everyone asleep.** -/
theorem task_left_asleep :
    ∃ s, (pool fun _ : Unit => 1).Reachable s ∧ s.LostWakeup := by
  refine ⟨_, Lib.System.reachable_of_exec (s := .initial 0) (l := unheardRun) ⟨0, rfl⟩
    (Option.some_get (by decide)).symm, ?_⟩
  decide

end Pool

end Sylar.Worker
