/-
# Sylar.Scheduler.Ready — what becomes of a `YieldToReady`.

`YieldToReady` writes `READY` and leaves; it is the resumer that has to put the fiber back into the
queue.  The callback branch of `run` does, once it has read `READY`.  The fiber branch has the same
code in a comment, and does nothing.  So of the yields of a task exactly those are followed by a push
that are made in the callback branch, as long as nobody else writes the fiber's state before the
branch reads it (`yield_requeued`); and as the fiber of a callback comes back through the queue, and
so in the fiber branch, that is the first yield of a callback and no other.

`soloRun` is a worker on its own with one task.  A task that yields is resumed twice as a callback
and once as a fiber (`soloRun_callback`, `soloRun_fiber`).
-/
import Sylar.Scheduler.Exclusive

namespace Sylar.Scheduler

variable {ι : Type} [DecidableEq ι]

/-! ## Pushes -/

/-- The thread that takes the step. -/
def Act.thread? : Act ι → Option ι
  | .enterRun t | .scan t | .dispatch t | .assertState t | .setExec t | .move t _ | .switchBack t
  | .readState t | .settle t | .swapIn t _ => some t
  | .schedule _ | .newFiber _ => none

namespace Sched

/-- The step is one of thread `t`, and pushes the fiber `f`. -/
def Pushes (t : ι) (f : Nat) (a : Act ι) (s s' : Sched ι) : Prop :=
  a.thread? = some t ∧ s'.m_fibers = s.m_fibers ++ [⟨some f, none, -1⟩]

instance (t : ι) (f : Nat) (a : Act ι) (s s' : Sched ι) : Decidable (Pushes t f a s s') :=
  inferInstanceAs (Decidable (_ ∧ _))

/-- How often `t` pushes `f` in the course of a run. -/
def pushCount (tid : ι → Int) (t : ι) (f : Nat) : Sched ι → List (Act ι) → Nat
  | _, [] => 0
  | s, a :: as =>
      match (scheduler tid).step s a with
      | none => 0
      | some s' => (if Pushes t f a s s' then 1 else 0) + pushCount tid t f s' as

/-- The step is one of `t`, or leaves the state of `f` alone. -/
def LeavesState (tid : ι → Int) (t : ι) (f : Nat) (s : Sched ι) (a : Act ι) : Prop :=
  a.thread? = some t ∨ ∀ s' ∈ (scheduler tid).step s a, s'.state f = s.state f

instance (tid : ι → Int) (t : ι) (f : Nat) (s : Sched ι) (a : Act ι) :
    Decidable (LeavesState tid t f s a) := inferInstanceAs (Decidable (_ ∨ _))

/-- A `YieldToReady` of the task `f`, which worker `t` has resumed in the branch of `j`, with the
steps `as` of all threads up to the worker's next scan; nobody else writes the state of `f`. -/
structure YieldRun (tid : ι → Int) (t : ι) (f : Nat) (j : Job) (s : Sched ι) (as : List (Act ι)) :
    Prop where
  inside : s.pc t = .inside j
  task : j = .fiber f ∨ j = .callback f
  next : ∃ s', (scheduler tid).exec s (.move t .yieldToReady :: as) = some s' ∧ s'.pc t = .scan
  first : .scan t ∉ as
  alone : (scheduler tid).Along (LeavesState tid t f) s (.move t .yieldToReady :: as)

variable {tid : ι → Int} {s s' : Sched ι} {t : ι} {f : Nat} {j : Job} {a : Act ι}

/-! ## The worker between its yield and its next scan -/

/-- The other threads do not move `t`. -/
theorem other_pc (h : (scheduler tid).step s a = some s') (ha : a.thread? ≠ some t) :
    s'.pc t = s.pc t := by
  obtain ⟨-, h⟩ := steps h
  cases h <;> simp_all [Act.thread?, eq_comm]

/-- From the yield on, each place leaves its thread one step to take. -/
theorem own_step (ha : a.thread? = some t) (h : (scheduler tid).step s a = some s') :
    match s.pc t with
    | .leaving _ _ => s.switchBack t = some s'
    | .post _ => s.readState t = some s'
    | .settle _ _ => s.settle t = some s'
    | .scan => a = .scan t
    | _ => True := by
  simp only [scheduler] at h
  split at h
  · cases h
  · split <;> rename_i hpc
    -- at each place the other functions of the model do not apply
    all_goals cases a <;> cases ha <;>
      simp_all [enterRun, scan, dispatch, assertState, setExec, move, switchBack, readState, settle,
        swapIn]

/-- A thread on its way out of a fiber switches back. -/
theorem own_leaving {c : Ctx} (hpc : s.pc t = .leaving j c) (ha : a.thread? = some t)
    (h : (scheduler tid).step s a = some s') :
    s' = (s.put (j.ref t) ((s.fibers (j.ref t)).save c)).goto t (.post j) := by
  have hback := own_step ha h
  rw [hpc] at hback
  simp only [switchBack, hpc, Option.some.injEq] at hback
  exact hback.symm

/-- Behind the switch it reads the state. -/
theorem own_post (hpc : s.pc t = .post j) (ha : a.thread? = some t)
    (h : (scheduler tid).step s a = some s') : s.readState t = some s' := by
  have hread := own_step ha h
  rw [hpc] at hread
  exact hread

/-- And then acts on it. -/
theorem own_settle {todo : Settle} (hpc : s.pc t = .settle j todo) (ha : a.thread? = some t)
    (h : (scheduler tid).step s a = some s') : s.settle t = some s' := by
  have hset := own_step ha h
  rw [hpc] at hset
  exact hset

omit [DecidableEq ι] in
/-- Both branches resume the task's own fiber. -/
theorem task_ref (htask : j = .fiber f ∨ j = .callback f) : j.ref t = .shared f := by
  rcases htask with rfl | rfl
  · rfl
  · rfl

/-- Where worker `t` is between a yield of `f` and its next scan, and how often it will still push
`f`. -/
inductive Phase (f : Nat) (j : Job) : Pc → State → Nat → Prop
  | leaving : Phase f j (.leaving j .atReady) .ready (if j = .callback f then 1 else 0)
  | post : Phase f j (.post j) .ready (if j = .callback f then 1 else 0)
  | settle {st : State} : j = .callback f → Phase f j (.settle j .requeue) st 1
  | scan {st : State} : Phase f j .scan st 0

/-- A step of the worker takes it to the next phase, with a push where one was owed last. -/
theorem phase_own {n : Nat} (htask : j = .fiber f ∨ j = .callback f)
    (hp : Phase f j (s.pc t) (s.state f) n) (ha : a.thread? = some t) (hscan : a ≠ .scan t)
    (h : (scheduler tid).step s a = some s') :
    ∃ n', Phase f j (s'.pc t) (s'.state f) n' ∧ n = (if Pushes t f a s s' then 1 else 0) + n' := by
  have href := task_ref (t := t) htask
  -- only the requeueing makes the queue longer
  have hquiet : s'.m_fibers = s.m_fibers → ¬ Pushes t f a s s' := by
    rintro heq ⟨-, hpush⟩
    rw [heq] at hpush
    simpa using congrArg List.length hpush
  generalize hpc : s.pc t = pc at hp
  generalize hst : s.state f = st at hp
  cases hp with
  | leaving =>
      obtain rfl := own_leaving hpc ha h
      refine ⟨_, ?_, by rw [if_neg (hquiet rfl), Nat.zero_add]⟩
      have hready : (s.fibers (.shared f)).m_state = .ready := hst
      have hstate : ((s.put (j.ref t) ((s.fibers (j.ref t)).save .atReady)).goto t
          (.post j)).state f = .ready := by
        unfold state
        rw [goto_fibers, put_fibers, href, if_pos rfl, Fiber.save_state]
        exact hready
      rw [hstate, goto_pc, if_pos rfl]
      exact .post
  | post =>
      have hread := own_post hpc ha h
      rcases htask with rfl | rfl
      · -- the fiber branch: back to the scan
        simp only [readState, hpc, Option.some.injEq] at hread
        subst hread
        refine ⟨0, ?_, by simp [hquiet rfl]⟩
        rw [goto_pc, if_pos rfl]
        exact .scan
      · simp only [readState, hpc, hst, Option.some.injEq] at hread
        subst hread
        refine ⟨1, ?_, by simp [hquiet rfl]⟩
        rw [goto_pc, if_pos rfl]
        exact .settle rfl
  | settle hj =>
      subst hj
      have hset := own_settle hpc ha h
      simp only [settle, hpc, Option.some.injEq] at hset
      subst hset
      refine ⟨0, ?_, ?_⟩
      · rw [goto_pc, if_pos rfl]
        exact .scan
      · have hpush : Pushes t f a s (((s.push ⟨some f, none, -1⟩).setCb t none).goto t .scan) := by
          refine ⟨ha, ?_⟩
          rw [goto_queue, setCb_queue]
          simp [push, scheduleNoLock]
        rw [if_pos hpush]
  | scan =>
      have hown := own_step ha h
      rw [hpc] at hown
      exact absurd hown hscan

/-- **The run lemma**: up to the next scan the worker pushes as often as it owes. -/
theorem phase_run (htask : j = .fiber f ∨ j = .callback f) {as : List (Act ι)} :
    ∀ {s s' : Sched ι} {n : Nat}, Phase f j (s.pc t) (s.state f) n →
      (scheduler tid).exec s as = some s' → s'.pc t = .scan → .scan t ∉ as →
      (scheduler tid).Along (LeavesState tid t f) s as → pushCount tid t f s as = n := by
  induction as with
  | nil =>
      intro s s' n hp hrun hnext _ _
      obtain rfl := Option.some.inj hrun
      rw [hnext] at hp
      cases hp
      rfl
  | cons a as ih =>
      intro s s' n hp hrun hnext hfirst halong
      obtain ⟨s₁, hstep, hrest⟩ := Option.bind_eq_some_iff.mp hrun
      obtain ⟨hleaves, halong⟩ := halong
      have hscan : a ≠ .scan t := fun h => hfirst (h ▸ List.mem_cons_self)
      have hrest' : ∀ {n' : Nat}, Phase f j (s₁.pc t) (s₁.state f) n' →
          pushCount tid t f s₁ as = n' := fun hp' =>
        ih hp' hrest hnext (fun h => hfirst (List.mem_cons_of_mem a h)) (halong s₁ hstep)
      simp only [pushCount, hstep]
      by_cases ha : a.thread? = some t
      · obtain ⟨n', hp', rfl⟩ := phase_own htask hp ha hscan hstep
        rw [hrest' hp']
      · have hno : ¬ Pushes t f a s s₁ := fun hpush => ha hpush.1
        have hstate : s₁.state f = s.state f := (hleaves.resolve_left ha) s₁ hstep
        rw [if_neg hno, Nat.zero_add]
        refine hrest' ?_
        rw [other_pc hstep ha, hstate]
        exact hp

/-- **Who is requeued**: a `YieldToReady` is followed by exactly one push of its fiber, before the
next scan of its worker, iff it was made in the callback branch. -/
theorem yield_requeued {as : List (Act ι)} (h : YieldRun tid t f j s as) :
    pushCount tid t f s (.move t .yieldToReady :: as) = 1 ↔ j = .callback f := by
  obtain ⟨hpc, htask, ⟨s', hrun, hnext⟩, hfirst, halong⟩ := h
  obtain ⟨s₁, hstep, hrest⟩ := Option.bind_eq_some_iff.mp hrun
  have hyield : s₁ = (s.put (.shared f) ((s.fibers (.shared f)).setState .ready)).goto t
      (.leaving j .atReady) := by
    obtain ⟨-, hsteps⟩ := steps hstep
    rw [← task_ref (t := t) htask]
    cases hsteps with
    | leave hpc' hl =>
        rw [hpc] at hpc'
        cases hpc'
        cases hl
        rfl
  have hphase : Phase f j (s₁.pc t) (s₁.state f) (if j = .callback f then 1 else 0) := by
    have hstate : s₁.state f = .ready := by
      rw [hyield]
      simp [state]
    rw [hstate, hyield, goto_pc, if_pos rfl]
    exact .leaving
  have hno : ¬ Pushes t f (.move t .yieldToReady) s s₁ := by
    rintro ⟨-, hpush⟩
    rw [hyield] at hpush
    simpa using congrArg List.length hpush
  have hcount := phase_run htask hphase hrest hnext hfirst (halong.2 s₁ hstep)
  simp only [pushCount, hstep]
  rw [if_neg hno, Nat.zero_add, hcount]
  split <;> simp_all

/-! ## A worker on its own -/

/-- The next step of a lone worker, whose task will yield `k` more times and then return, and whose
idle function returns at once; with what is left of the yields. -/
def soloNext (k : Nat) : Pc → Option (Act Unit × Nat)
  | .outside => some (.enterRun (), k)
  | .scan => some (.scan (), k)
  | .dispatch _ => some (.dispatch (), k)
  | .swapIn _ => some (.assertState (), k)
  | .setExec _ => some (.setExec (), k)
  | .inside .idle => some (.move () .finish, k)
  | .inside _ =>
      match k with
      | 0 => some (.move () .finish, 0)
      | k + 1 => some (.move () .yieldToReady, k)
  | .leaving _ _ => some (.switchBack (), k)
  | .post _ => some (.readState (), k)
  | .settle _ _ => some (.settle (), k)
  | .finished => none

/-- The thread is about to switch to a task. -/
def Resumes : Pc → Bool
  | .setExec (.fiber _) | .setExec (.callback _) => true
  | _ => false

/-- How often the lone worker has resumed its task when `run` returns, within `n` more steps; `c` times
so far. -/
def soloRun (tid : Unit → Int) : Nat → Nat → Nat → Sched Unit → Option Nat
  | 0, _, _, _ => none
  | n + 1, c, k, s =>
      match soloNext k (s.pc ()) with
      | none => some c
      | some (a, k') =>
          match (scheduler tid).step s a with
          | none => none
          | some s' => soloRun tid n (if Resumes (s.pc ()) then c + 1 else c) k' s'

/-- A state of the lone worker: the queue, its task, its idle fiber, the number of fibers made, its
place and its `cb_fiber`. -/
def solo (q : List FiberAndThread) (task idle : Fiber) (next : Nat) (pc : Pc) (cb : Option Nat) :
    Sched Unit where
  m_fibers := q
  fibers
    | .shared 0 => task
    | .shared (_ + 1) => .new none
    | .idle _ => idle
  nextFiber := next
  pc := fun _ => pc
  cb_fiber := fun _ => cb
  fault := none

section Solo

variable (q q' : List FiberAndThread) (task idle g : Fiber) (next : Nat) (pc pc' : Pc)
  (cb cb' : Option Nat)

@[simp] theorem solo_queue : (solo q task idle next pc cb).m_fibers = q := rfl
@[simp] theorem solo_task : (solo q task idle next pc cb).fibers (.shared 0) = task := rfl
@[simp] theorem solo_state : (solo q task idle next pc cb).state 0 = task.m_state := rfl
@[simp] theorem solo_idle : (solo q task idle next pc cb).fibers (.idle ()) = idle := rfl
@[simp] theorem solo_next : (solo q task idle next pc cb).nextFiber = next := rfl
@[simp] theorem solo_pc : (solo q task idle next pc cb).pc () = pc := rfl
@[simp] theorem solo_cb : (solo q task idle next pc cb).cb_fiber () = cb := rfl
@[simp] theorem solo_fault : (solo q task idle next pc cb).fault = none := rfl

@[simp] theorem solo_goto :
    (solo q task idle next pc cb).goto () pc' = solo q task idle next pc' cb := by
  simp only [goto, solo, Sched.mk.injEq, true_and, and_true]
  funext u
  rfl

@[simp] theorem solo_setCb :
    (solo q task idle next pc cb).setCb () cb' = solo q task idle next pc cb' := by
  simp only [setCb, solo, Sched.mk.injEq, true_and, and_true]
  funext u
  rfl

@[simp] theorem solo_put :
    (solo q task idle next pc cb).put (.shared 0) g = solo q g idle next pc cb := by
  simp only [put, solo, Sched.mk.injEq, true_and, and_true]
  funext r
  cases r with
  | shared f => cases f <;> rfl
  | idle t => rfl

@[simp] theorem solo_putIdle :
    (solo q task idle next pc cb).put (.idle ()) g = solo q task g next pc cb := by
  simp only [put, solo, Sched.mk.injEq, true_and, and_true]
  funext r
  cases r with
  | shared f => cases f <;> rfl
  | idle t => rfl

@[simp] theorem solo_push (ft : FiberAndThread) : (solo q task idle next pc cb).push ft
    = solo (scheduleNoLock q ft).1 task idle next pc cb := rfl

@[simp] theorem solo_alloc (c : Option Callback) : (solo q task idle 0 pc cb).alloc c
    = solo q (.new c) idle 1 pc cb := by
  simp only [alloc, solo_next]
  rw [solo_put]
  rfl

end Solo

section SoloSteps

variable {tid : Unit → Int} {q : List FiberAndThread} {task idle : Fiber} {next n c k : Nat}
  {cb : Option Nat} {j : Job}

theorem soloRun_succ {k' : Nat} {s s' : Sched Unit} {a : Act Unit}
    (hnext : soloNext k (s.pc ()) = some (a, k')) (hstep : (scheduler tid).step s a = some s') :
    soloRun tid (n + 1) c k s = soloRun tid n (if Resumes (s.pc ()) then c + 1 else c) k' s' := by
  simp only [soloRun, hnext, hstep]

theorem solo_scan {q' : List FiberAndThread} {o : Option FiberAndThread} {tk : Bool}
    (h : Scheduler.scan (tid ()) (solo q task idle next .scan cb).state q = some (o, q', tk)) :
    soloRun tid (n + 1) c k (solo q task idle next .scan cb)
      = soloRun tid n c k (solo q' task idle next (.dispatch (o.getD .empty)) cb) := by
  refine soloRun_succ rfl ?_
  simp only [scheduler, scan, solo_pc, solo_queue, h]
  rw [if_neg (by simp)]
  exact congrArg some (solo_goto q' task idle next .scan (.dispatch (o.getD .empty)) cb)

/-- The worker switches to its task. -/
theorem solo_switch (hj : j = .fiber 0 ∨ j = .callback 0) (hst : task.m_state ≠ .exec)
    (hctx : task.m_ctx ≠ .ended) :
    soloRun tid (n + 2) c k (solo q task idle next (.swapIn j) cb)
      = soloRun tid n (c + 1) k (solo q (task.setState .exec) idle next (.inside j) cb) := by
  have hassert : (scheduler tid).step (solo q task idle next (.swapIn j) cb) (.assertState ())
      = some (solo q task idle next (.setExec j) cb) := by
    rcases hj with rfl | rfl <;> simp [scheduler, assertState, Job.ref, hst]
  have hset : (scheduler tid).step (solo q task idle next (.setExec j) cb) (.setExec ())
      = some (solo q (task.setState .exec) idle next (.inside j) cb) := by
    rcases hj with rfl | rfl <;> simp [scheduler, setExec, Job.ref, hctx]
  rw [soloRun_succ rfl hassert, soloRun_succ rfl hset]
  rcases hj with rfl | rfl <;> rfl

/-- The task yields. -/
theorem solo_yield (hj : j = .fiber 0 ∨ j = .callback 0) (hcb : task.m_cb.isSome = true) :
    soloRun tid (n + 2) c (k + 1) (solo q task idle next (.inside j) cb)
      = soloRun tid n c k (solo q ((task.setState .ready).save .atReady) idle next (.post j) cb) := by
  have hmove : (scheduler tid).step (solo q task idle next (.inside j) cb) (.move () .yieldToReady)
      = some (solo q (task.setState .ready) idle next (.leaving j .atReady) cb) := by
    rcases hj with rfl | rfl <;> simp [scheduler, move, Job.ref, hcb]
  have hback : (scheduler tid).step
      (solo q (task.setState .ready) idle next (.leaving j .atReady) cb) (.switchBack ())
      = some (solo q ((task.setState .ready).save .atReady) idle next (.post j) cb) := by
    rcases hj with rfl | rfl <;> simp [scheduler, switchBack, Job.ref]
  have hnext : soloNext (k + 1) (.inside j) = some (.move () .yieldToReady, k) := by
    rcases hj with rfl | rfl <;> rfl
  rw [soloRun_succ hnext hmove, soloRun_succ rfl hback]
  rfl

/-- The task returns. -/
theorem solo_return (hj : j = .fiber 0 ∨ j = .callback 0) (hcb : task.m_cb.isSome = true) :
    soloRun tid (n + 2) c 0 (solo q task idle next (.inside j) cb)
      = soloRun tid n c 0 (solo q (task.finish.save .ended) idle next (.post j) cb) := by
  have hmove : (scheduler tid).step (solo q task idle next (.inside j) cb) (.move () .finish)
      = some (solo q task.finish idle next (.leaving j .ended) cb) := by
    rcases hj with rfl | rfl <;> simp [scheduler, move, Job.ref, hcb]
  have hback : (scheduler tid).step
      (solo q task.finish idle next (.leaving j .ended) cb) (.switchBack ())
      = some (solo q (task.finish.save .ended) idle next (.post j) cb) := by
    rcases hj with rfl | rfl <;> simp [scheduler, switchBack, Job.ref]
  have hnext : soloNext 0 (.inside j) = some (.move () .finish, 0) := by
    rcases hj with rfl | rfl <;> rfl
  rw [soloRun_succ hnext hmove, soloRun_succ rfl hback]
  rfl

/-- The task comes out of the queue as a fiber. -/
theorem solo_takeFiber (hst : task.m_state ≠ .exec) :
    soloRun tid (n + 2) c k (solo [⟨some 0, none, -1⟩] task idle next .scan cb)
      = soloRun tid n c k (solo [] task idle next (.swapIn (.fiber 0)) cb) := by
  have hguard : task.m_state ≠ .term ∨ task.m_state ≠ .except := by
    cases task.m_state <;> simp
  have hscan : Scheduler.scan (tid ())
      (solo [⟨some 0, none, -1⟩] task idle next .scan cb).state [⟨some 0, none, -1⟩]
      = some (some ⟨some 0, none, -1⟩, [], false) := by simp [Scheduler.scan, hst]
  rw [solo_scan hscan]
  exact soloRun_succ rfl (by simp [scheduler, dispatch, hguard])

/-- And behind it the fiber branch has nothing to do. -/
theorem solo_postFiber : soloRun tid (n + 1) c k (solo q task idle next (.post (.fiber 0)) cb)
    = soloRun tid n c k (solo q task idle next .scan cb) :=
  soloRun_succ rfl (by simp [scheduler, readState])

/-- An empty queue: the idle function runs once, and `run` returns. -/
theorem solo_end (b : Callback) :
    soloRun tid (n + 10) c k (solo [] task (.new (some b)) next .scan cb) = some c := by
  have hscan : ∀ idle : Fiber, Scheduler.scan (tid ()) (solo [] task idle next .scan cb).state []
      = some (none, [], false) := fun _ => rfl
  have hidle : (scheduler tid).step
      (solo [] task (.new (some b)) next (.dispatch .empty) cb) (.dispatch ())
      = some (solo [] task (.new (some b)) next (.swapIn .idle) cb) := by
    simp [scheduler, dispatch, FiberAndThread.empty, dispatchIdle]
  have hassert : (scheduler tid).step
      (solo [] task (.new (some b)) next (.swapIn .idle) cb) (.assertState ())
      = some (solo [] task (.new (some b)) next (.setExec .idle) cb) := by
    simp [scheduler, assertState, Job.ref]
  have hset : (scheduler tid).step
      (solo [] task (.new (some b)) next (.setExec .idle) cb) (.setExec ())
      = some (solo [] task ⟨.exec, some b, .entry⟩ next (.inside .idle) cb) := by
    simp [scheduler, setExec, Job.ref, Fiber.new, Fiber.setState]
  have hmove : (scheduler tid).step
      (solo [] task ⟨.exec, some b, .entry⟩ next (.inside .idle) cb) (.move () .finish)
      = some (solo [] task ⟨.term, none, .entry⟩ next (.leaving .idle .ended) cb) := by
    simp [scheduler, move, Job.ref, Fiber.finish]
  have hback : (scheduler tid).step
      (solo [] task ⟨.term, none, .entry⟩ next (.leaving .idle .ended) cb) (.switchBack ())
      = some (solo [] task ⟨.term, none, .ended⟩ next (.post .idle) cb) := by
    simp [scheduler, switchBack, Job.ref, Fiber.save]
  have hpost : (scheduler tid).step
      (solo [] task ⟨.term, none, .ended⟩ next (.post .idle) cb) (.readState ())
      = some (solo [] task ⟨.term, none, .ended⟩ next .scan cb) := by
    simp [scheduler, readState]
  have hdone : (scheduler tid).step
      (solo [] task ⟨.term, none, .ended⟩ next (.dispatch .empty) cb) (.dispatch ())
      = some (solo [] task ⟨.term, none, .ended⟩ next .finished cb) := by
    simp [scheduler, dispatch, FiberAndThread.empty, dispatchIdle]
  rw [solo_scan (hscan _), Option.getD_none, soloRun_succ rfl hidle, soloRun_succ rfl hassert,
    soloRun_succ rfl hset, soloRun_succ rfl hmove, soloRun_succ rfl hback, soloRun_succ rfl hpost,
    solo_scan (hscan _), Option.getD_none, soloRun_succ rfl hdone]
  rfl

/-- The task comes out of the queue as a callback. -/
theorem solo_takeCallback (b : Callback) :
    soloRun tid (n + 2) c k (solo [⟨none, some b, -1⟩] task idle 0 .scan none)
      = soloRun tid n c k (solo [] (.new (some b)) idle 1 (.swapIn (.callback 0)) (some 0)) := by
  have hscan : Scheduler.scan (tid ())
      (solo [⟨none, some b, -1⟩] task idle 0 .scan none).state [⟨none, some b, -1⟩]
      = some (some ⟨none, some b, -1⟩, [], false) := by simp [Scheduler.scan]
  rw [solo_scan hscan]
  exact soloRun_succ rfl (by simp [scheduler, dispatch, dispatchCb])

/-- Behind a yield the callback branch puts the fiber back into the queue. -/
theorem solo_requeue (hst : task.m_state = .ready) :
    soloRun tid (n + 2) c k (solo [] task idle next (.post (.callback 0)) (some 0))
      = soloRun tid n c k (solo [⟨some 0, none, -1⟩] task idle next .scan none) := by
  have hread : (scheduler tid).step
      (solo [] task idle next (.post (.callback 0)) (some 0)) (.readState ())
      = some (solo [] task idle next (.settle (.callback 0) .requeue) (some 0)) := by
    simp [scheduler, readState, callbackTodo, hst]
  rw [soloRun_succ rfl hread]
  exact soloRun_succ rfl (by simp [scheduler, settle, scheduleNoLock])

/-- Behind its end the callback branch keeps the fiber for the next callback. -/
theorem solo_recycle (hst : task.m_state = .term) :
    soloRun tid (n + 2) c k (solo [] task idle next (.post (.callback 0)) (some 0))
      = soloRun tid n c k (solo [] (.new none) idle next .scan (some 0)) := by
  have hread : (scheduler tid).step
      (solo [] task idle next (.post (.callback 0)) (some 0)) (.readState ())
      = some (solo [] task idle next (.settle (.callback 0) .recycle) (some 0)) := by
    simp [scheduler, readState, callbackTodo, hst]
  rw [soloRun_succ rfl hread]
  exact soloRun_succ rfl (by simp [scheduler, settle, Fiber.reset, Fiber.Resettable, Job.ref, hst])

/-- A fiber task is resumed once: to its end, or to its first yield. -/
theorem solo_fiberTask (hcb : task.m_cb.isSome = true) (hst : task.m_state ≠ .exec)
    (hctx : task.m_ctx ≠ .ended) (b : Callback) :
    soloRun tid (n + 17) c k (solo [⟨some 0, none, -1⟩] task (.new (some b)) next .scan cb)
      = some (c + 1) := by
  rw [solo_takeFiber hst,
    solo_switch (.inl rfl) hst hctx]
  cases k with
  | zero =>
      rw [solo_return (.inl rfl) (by exact hcb), solo_postFiber, solo_end]
  | succ k =>
      rw [solo_yield (.inl rfl) (by exact hcb), solo_postFiber, solo_end]

end SoloSteps

/-- The task, as a callback in the queue. -/
def asCallback (cb : Callback) : Sched Unit := Sched.initial.push ⟨none, some cb, -1⟩

/-- The task, as a fiber in the queue. -/
def asFiber (cb : Callback) : Sched Unit := (Sched.initial.alloc (some cb)).push ⟨some 0, none, -1⟩

theorem initial_eq : (Sched.initial : Sched Unit)
    = solo [] (.new none) (.new none) 0 .outside none := by
  simp only [Sched.initial, solo, Sched.mk.injEq, true_and, and_true]
  funext r
  cases r with
  | shared f => cases f <;> rfl
  | idle t => rfl

/-- A task that yields is resumed twice if it was scheduled as a callback. -/
theorem soloRun_callback (tid : Unit → Int) (cb : Callback) (n k : Nat) :
    soloRun tid (n + 26) 0 k (asCallback cb) = some (if k = 0 then 1 else 2) := by
  have hstart : asCallback cb
      = solo [⟨none, some cb, -1⟩] (.new none) (.new none) 0 .outside none := by
    unfold asCallback
    rw [initial_eq, solo_push]
    rfl
  have henter : (scheduler tid).step (asCallback cb) (.enterRun ())
      = some (solo [⟨none, some cb, -1⟩] (.new none) (.new (some 0)) 0 .scan none) := by
    rw [hstart]
    simp [scheduler, enterRun]
  rw [soloRun_succ rfl henter, solo_takeCallback,
    solo_switch (.inr rfl) (by simp) (by simp)]
  cases k with
  | zero =>
      rw [solo_return (.inr rfl) rfl, solo_recycle rfl, solo_end]
      rfl
  | succ k =>
      rw [solo_yield (.inr rfl) rfl, solo_requeue rfl,
        solo_fiberTask rfl (by simp) (by simp)]
      rfl

/-- And once if it was scheduled as a fiber. -/
theorem soloRun_fiber (tid : Unit → Int) (cb : Callback) (n k : Nat) :
    soloRun tid (n + 18) 0 k (asFiber cb) = some 1 := by
  have hstart : asFiber cb
      = solo [⟨some 0, none, -1⟩] (.new (some cb)) (.new none) 1 .outside none := by
    unfold asFiber
    rw [initial_eq, solo_alloc, solo_push]
    rfl
  have henter : (scheduler tid).step (asFiber cb) (.enterRun ())
      = some (solo [⟨some 0, none, -1⟩] (.new (some cb)) (.new (some 0)) 1 .scan none) := by
    rw [hstart]
    simp [scheduler, enterRun]
  rw [soloRun_succ rfl henter]
  exact solo_fiberTask rfl (by simp) (by simp) 0

/-! ## Both ways of scheduling a task -/

/-- **Ready tasks.**  Of the yields of a task exactly those made in the callback branch are followed
by a push of its fiber before the worker's next scan, provided that nobody else writes the fiber's
state in between; and a lone worker resumes a task as often from a callback as from a fiber iff the
task does not yield. -/
theorem ready_tasks (tid : ι → Int) :
    (∀ t f j s as, YieldRun tid t f j s as →
      (pushCount tid t f s (.move t .yieldToReady :: as) = 1 ↔ j = .callback f)) ∧
      ∀ (tid₁ : Unit → Int) (cb : Callback) (k : Nat), ∃ asCb asFb,
        (∀ n, soloRun tid₁ (n + 26) 0 k (asCallback cb) = some asCb) ∧
          (∀ n, soloRun tid₁ (n + 26) 0 k (asFiber cb) = some asFb) ∧ (asCb = asFb ↔ k = 0) := by
  refine ⟨fun t f j s as h => yield_requeued h, fun tid₁ cb k => ?_⟩
  refine ⟨if k = 0 then 1 else 2, 1, fun n => soloRun_callback tid₁ cb n k,
    fun n => soloRun_fiber tid₁ cb (n + 8) k, ?_⟩
  by_cases hk : k = 0
  · simp [hk]
  · simp [hk]

/-- The way of a worker into its task. -/
def taskRun (a : Act Bool) : List (Act Bool) :=
  [.newFiber (some 1), a, .enterRun true, .scan true, .dispatch true, .assertState true,
    .setExec true]

theorem ready_tasks_callback :
    let s := ((scheduler twoThreads).exec .initial (taskRun (.schedule ⟨none, some 2, -1⟩))).get
      (by decide)
    pushCount twoThreads true 1 s
      [.move true .yieldToReady, .switchBack true, .enterRun false, .readState true, .settle true]
        = 1 := by
  intro s
  exact ((ready_tasks twoThreads).1 true 1 (.callback 1) s
    [.switchBack true, .enterRun false, .readState true, .settle true]
    ⟨by decide, .inr rfl, ⟨_, rfl, by decide⟩, by decide, by decide⟩).mpr rfl

/-- **A lost task**: a fiber from the queue yields, and nothing has it any more; the same task is
resumed a second time if it is a callback. -/
theorem yield_lost :
    (∃ s, (scheduler twoThreads).Reachable s ∧
      YieldRun twoThreads true 0 (.fiber 0) s [.switchBack true, .readState true] ∧
      pushCount twoThreads true 0 s
        [.move true .yieldToReady, .switchBack true, .readState true] = 0) ∧
      soloRun (fun _ => 1) 30 0 1 (asCallback 1) = some 2 ∧
      soloRun (fun _ => 1) 30 0 1 (asFiber 1) = some 1 := by
  refine ⟨⟨_, Lib.System.reachable_of_exec (s := Sched.initial)
    (l := taskRun (.schedule ⟨some 0, none, -1⟩)) rfl (Option.some_get (by decide)).symm, ?_,
    by decide⟩, soloRun_callback _ 1 4 1, soloRun_fiber _ 1 12 1⟩
  exact ⟨by decide, .inl rfl, ⟨_, rfl, by decide⟩, by decide, by decide⟩

end Sched

end Sylar.Scheduler
