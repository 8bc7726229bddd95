/-
# Sylar.Worker.Leaving — when a worker returns from `run`.

`run` returns when it finds nothing to do and its idle fiber has ended, so it is the idle function
that decides.  `IOManager::idle` goes round its loop until `stopping` answers true, and `stopping`
answers true only after `stop`; its workers never leave before (`io_leaves`).  `Scheduler::idle`
returns at once.  The idle fiber of a plain worker ends with the first scan that comes back with
nothing, and the worker is gone with the next; a task scheduled after that has nobody to run it
(`left_early`).  Plain workers leave in time in the runs in which that next scan is made when `stopping`
holds (`plain_leaves`).
-/
import Sylar.Worker.Pool
import Sylar.Worker.Plain

namespace Sylar.Worker

open Scheduler (FiberAndThread Sched Pc Job State)

variable {ι : Type} [DecidableEq ι] {tid : ι → Int}

/-! ## The threads of an `IOManager` -/

namespace Pool

variable {s s' : Pool ι} {t : ι}

/-- The last read of a call of `stopping` from the idle function of `t`, which answers true. -/
def Concludes (s : Pool ι) (t : ι) : Prop :=
  s.stage t = .events ∧ s.sched.pc t = .inside .idle ∧ s.m_pendingEventCount = 0

/-- The idle function of `t` is about to return, or has, and `run` behind it. -/
def Going (s : Pool ι) (t : ι) : Prop :=
  s.stage t = .stop ∨ (s.sched.fibers (.idle t)).m_state = .term ∨ s.sched.pc t = .finished

/-- Past its second read, `stopping` has seen `m_autostop`. -/
theorem autostop_step {a : Act ι} (hs : ∀ t, s.stage t = .events → s.m_autostop = true)
    (h : Steps tid s a s') : ∀ t, s'.stage t = .events → s'.m_autostop = true := by
  intro u hu
  cases h with
  | @run a sched ha hstep =>
      rw [behind_autostop]
      refine hs u ?_
      cases a <;> grind [behind]
  | noTask hst hstop => exact autostop_of_schedStopping hstop
  | stop => rfl
  | @someTimer t now hst => exact hs u (by grind [decline])
  | @someTask t hst => exact hs u (by grind [decline])
  | @noEvent t hst hpend => exact hs t hst
  | @someEvent t hst => exact hs t hst
  | _ => exact hs u (by grind)

theorem going_run {a : Scheduler.Act ι} {sched : Sched ι}
    (hfit : ∀ t, Fits (s.sched.pc t) (s.stage t)) (ha : s.Admits a)
    (h : Sched.Steps tid s.sched a sched) (hgo : (s.behind tid a sched).Going t) : s.Going t := by
  unfold Going at hgo ⊢
  rw [behind_sched] at hgo
  cases h with
  | schedule | swapIn => exact ha.elim
  | @leave u j m g c hpc hl =>
      -- an idle function that ends is one that was told to stop
      have hu := hfit u
      cases j <;> cases hl <;> grind [behind, Admits, Job.ref]
  | @enterRun u hpc => grind [behind]
  | _ => grind [behind, Admits, Job.ref]

/-- Who is on the way out has been told so by `stopping`. -/
theorem going_step {a : Act ι} (hfit : ∀ t, Fits (s.sched.pc t) (s.stage t)) (h : Steps tid s a s')
    (hgo : s'.Going t) : s.Going t ∨ a = .readEvents t ∧ s.Concludes t := by
  cases h with
  | run ha hstep => exact .inl (going_run hfit ha (Sched.steps hstep).2 hgo)
  | @noEvent u hst hpend =>
      by_cases hu : t = u
      · subst hu
        by_cases hpc : s.sched.pc t = .inside .idle
        · exact .inr ⟨rfl, hst, hpc, hpend⟩
        · grind [Going, accept]
      · grind [Going, accept]
  | _ => grind [Going, decline, Sched.pushAll]

/-- `t` left when it was time: its idle function had called `stopping`, which answered true, and
`stop` had been called before. -/
def LeftInTime (tid : ι → Int) (t : ι) (s₀ : Pool ι) (as : List (Act ι)) : Prop :=
  ∃ bs cs s₁ n, as = bs ++ .readEvents t :: cs ∧ (pool tid).exec s₀ bs = some s₁ ∧
    s₁.Concludes t ∧ .stop n ∈ bs

theorem raised_step {a : Act ι} (h : Steps tid s a s') (hup : s'.m_autostop = true) :
    s.m_autostop = true ∨ ∃ n, a = .stop n := by
  cases h with
  | @stop n => exact .inr ⟨n, rfl⟩
  | @run a sched ha hstep =>
      left
      rwa [behind_autostop] at hup
  | _ => exact .inl hup

theorem autostop_of_reachable (hs : (pool tid).Reachable s) :
    ∀ t, s.stage t = .events → s.m_autostop = true := by
  refine Lib.System.Reachable.invariant
    (P := fun s : Pool ι => ∀ t, s.stage t = .events → s.m_autostop = true) ?_
    (fun s a s' ih h => autostop_step ih (steps h).2) hs
  rintro s ⟨now, rfl⟩ t ht
  cases ht

/-- `m_autostop` is set by `stop` alone. -/
theorem exists_stop {now : UInt64} {as : List (Act ι)} (hrun : (pool tid).exec (.initial now) as = some s)
    (hup : s.m_autostop = true) : ∃ n, .stop n ∈ as := by
  obtain ⟨bs, a, cs, s₁, rfl, -, n, rfl⟩ := Lib.System.exists_cause
    (G := fun s : Pool ι => s.m_autostop = true) (X := fun _ a => ∃ n, a = .stop n)
    (fun h => by cases h) (fun _ _ _ _ _ _ hstep hup => raised_step (steps hstep).2 hup)
    (Lib.System.along_true _ _) hrun hup
  exact ⟨n, List.mem_append_right bs List.mem_cons_self⟩

/-- **Workers of an `IOManager` do not leave early.** -/
theorem io_leaves {s₀ : Pool ι} {as : List (Act ι)} (h0 : (pool tid).init s₀)
    (hrun : (pool tid).exec s₀ as = some s) (hfin : s.sched.pc t = .finished) :
    LeftInTime tid t s₀ as := by
  obtain ⟨now, rfl⟩ := h0
  have hstart : ¬ (Pool.initial now : Pool ι).Going t := by
    rintro (hgo | hgo | hgo) <;> cases hgo
  obtain ⟨bs, a, cs, s₁, rfl, hbs, rfl, hsaid⟩ := Lib.System.exists_cause
    (G := fun s : Pool ι => s.Going t)
    (X := fun s a => a = .readEvents t ∧ s.Concludes t) hstart
    (fun bs s₁ a s₂ hbs _ hstep hgo =>
      going_step (fits_of_reachable (Lib.System.reachable_of_exec ⟨now, rfl⟩ hbs)) (steps hstep).2 hgo)
    (Lib.System.along_true _ _) hrun (.inr (.inr hfin))
  -- the last read answers true only behind a second read that has seen `m_autostop`
  have hup : s₁.m_autostop = true :=
    autostop_of_reachable (Lib.System.reachable_of_exec ⟨now, rfl⟩ hbs) t hsaid.1
  obtain ⟨n, hn⟩ := exists_stop hbs hup
  exact ⟨bs, cs, s₁, n, rfl, hbs, hsaid, hn⟩

end Pool

/-! ## The threads of a plain scheduler -/

namespace Plain

variable {s s' : Plain ι} {t : ι}

/-- The next scan of `t` comes back with nothing. -/
def FindsNothing (tid : ι → Int) (s : Plain ι) (t : ι) : Prop :=
  ∀ r, Scheduler.scan (tid t) s.sched.state s.sched.m_fibers = some r → r.1 = none

/-- A scan that comes back with nothing behind the end of the idle fiber, so that its worker leaves, is
made when `stopping` holds. -/
def LeavesWhenStopping (tid : ι → Int) (s : Plain ι) : PlainAct ι → Prop
  | .run (.scan t) =>
      (s.sched.fibers (.idle t)).m_state = .term → s.FindsNothing tid t → s.stopping = true
  | _ => True

instance (s : Plain ι) (t : ι) : Decidable (s.FindsNothing tid t) :=
  match h : Scheduler.scan (tid t) s.sched.state s.sched.m_fibers with
  | none => isTrue fun r hr => by rw [h] at hr; cases hr
  | some r => decidable_of_iff (r.1 = none) (by simp [FindsNothing, h])

instance (s : Plain ι) : DecidablePred (s.LeavesWhenStopping tid)
  | .run (.scan t) => inferInstanceAs (Decidable
      ((s.sched.fibers (.idle t)).m_state = .term → s.FindsNothing tid t → s.stopping = true))
  | .run (.enterRun _) | .run (.dispatch _) | .run (.assertState _) | .run (.setExec _)
  | .run (.move _ _) | .run (.switchBack _) | .run (.readState _) | .run (.settle _)
  | .run (.schedule _) | .run (.newFiber _) | .run (.swapIn _ _) | .count _ | .uncount _ | .stop =>
      isTrue trivial

/-- Thread `t` has found nothing, its idle fiber is over, and it is about to leave or has left. -/
def Going (q : Sched ι) (t : ι) : Prop :=
  (∃ ft, q.pc t = .dispatch ft ∧ ft.fiber = none ∧ ft.cb = none ∧
    (q.fibers (.idle t)).m_state = .term) ∨ q.pc t = .finished

/-- `t` left when it was time: at one of its scans that came back with nothing `stopping` held, and
`stop` had been called before. -/
def LeftInTime (tid : ι → Int) (t : ι) (as : List (PlainAct ι)) : Prop :=
  ∃ bs cs s₁, as = bs ++ .run (.scan t) :: cs ∧ (plain tid).exec .initial bs = some s₁ ∧
    s₁.FindsNothing tid t ∧ s₁.stopping = true ∧ .stop ∈ bs

theorem going_run {a : Scheduler.Act ι} {q q' : Sched ι} (hne : Scheduler.NonEmpty q.m_fibers)
    (h : Sched.Steps tid q a q') (hgo : Going q' t) :
    Going q t ∨ a = .scan t ∧ (q.fibers (.idle t)).m_state = .term ∧
      ∀ ft ∈ q.m_fibers, ¬ Scheduler.Eligible (tid t) q.state ft := by
  unfold Going at hgo ⊢
  cases h with
  | @scanTook u ft pre post tk hpc hq hft hscan =>
      -- what a scan takes is not empty, so its worker does not go to the idle branch
      have hfull := hne ft (by rw [hq]; exact List.mem_append_right _ List.mem_cons_self)
      grind [Pc.job?]
  | @scanNone u hpc hnone => grind [Pc.job?]
  | @leave u j m g c hpc hl => cases j <;> cases hl <;> grind [Pc.job?, Job.ref]
  | _ => grind [Pc.job?, Job.ref]

omit [DecidableEq ι] in
/-- Nothing in the queue is eligible, so the scan finds nothing. -/
theorem findsNothing_of_none
    (hnone : ∀ ft ∈ s.sched.m_fibers, ¬ Scheduler.Eligible (tid t) s.sched.state ft) :
    s.FindsNothing tid t := by
  rintro ⟨o, rest, tk⟩ hr
  cases o with
  | none => rfl
  | some ft =>
      obtain ⟨hft, pre, post, hq, -⟩ := Scheduler.scan_took hr
      refine absurd hft (hnone ft ?_)
      rw [hq]
      exact List.mem_append_right pre List.mem_cons_self

theorem going_step {a : PlainAct ι} (hne : Scheduler.NonEmpty s.sched.m_fibers)
    (h : Steps tid s a s') (hgo : Going s'.sched t) :
    Going s.sched t ∨ a = .run (.scan t) ∧ (s.sched.fibers (.idle t)).m_state = .term ∧
      s.FindsNothing tid t := by
  cases h with
  | run ha hq =>
      rcases going_run hne (Sched.steps hq).2 hgo with hold | ⟨rfl, hterm, hnone⟩
      · exact .inl hold
      · exact .inr ⟨rfl, hterm, findsNothing_of_none hnone⟩
  | count hpc hno =>
      rw [mark_sched, up_sched] at hgo
      exact .inl hgo
  | uncount hpc hyes =>
      rw [mark_sched, down_sched] at hgo
      exact .inl hgo
  | stop => exact .inl hgo

theorem raised_step {a : PlainAct ι} (h : Steps tid s a s') (hup : s'.m_autostop = true) :
    s.m_autostop = true ∨ a = .stop := by
  cases h with
  | stop => exact .inr rfl
  | run ha hq => exact .inl hup
  | @count t j hpc hno =>
      rw [mark_autostop, (up_flags s j).1] at hup
      exact .inl hup
  | @uncount t j hpc hyes =>
      rw [mark_autostop, (down_flags s j).1] at hup
      exact .inl hup

omit [DecidableEq ι] in
/-- `stopping` asks for `m_autostop`. -/
theorem autostop_of_stopping (h : s.stopping = true) : s.m_autostop = true := by
  unfold stopping at h
  simp only [Bool.and_eq_true] at h
  exact h.1.1.1

/-- `m_autostop` is set by `stop` alone. -/
theorem stop_mem {as : List (PlainAct ι)} (hrun : (plain tid).exec .initial as = some s)
    (hup : s.m_autostop = true) : .stop ∈ as := by
  obtain ⟨bs, a, cs, s₁, rfl, -, rfl⟩ := Lib.System.exists_cause
    (G := fun s : Plain ι => s.m_autostop = true) (X := fun _ a => a = .stop)
    (fun h => by cases h) (fun _ _ _ _ _ _ hstep hup => raised_step (steps hstep) hup)
    (Lib.System.along_true _ _) hrun hup
  exact List.mem_append_right bs List.mem_cons_self

/-- **Plain workers do not leave early** in a run in which no scan behind the end of its idle fiber comes
back with nothing before `stopping` holds. -/
theorem plain_leaves {as : List (PlainAct ι)} (hc : (plain tid).Along (LeavesWhenStopping tid) .initial as)
    (hrun : (plain tid).exec .initial as = some s) (hfin : s.sched.pc t = .finished) :
    LeftInTime tid t as := by
  have hstart : ¬ Going (Plain.initial : Plain ι).sched t := by
    rintro (⟨ft, hpc, -⟩ | hpc)
    · cases hpc
    · cases hpc
  -- the step with which it was going is the scan that is looked for
  obtain ⟨bs, a, cs, s₁, rfl, hbs, rfl, hnothing, hstop⟩ := Lib.System.exists_cause
    (G := fun s : Plain ι => Going s.sched t)
    (X := fun s a => a = .run (.scan t) ∧ s.FindsNothing tid t ∧ s.stopping = true) hstart
    (fun bs s₁ a s₂ hbs hcond hstep hgo => by
      have hwf : Sched.WF s₁.sched :=
        Sched.wf_of_reachable (sched_of_reachable (Lib.System.reachable_of_exec rfl hbs))
      rcases going_step hwf.nonEmpty (steps hstep) hgo with hold | ⟨rfl, hterm, hnothing⟩
      · exact .inl hold
      · exact .inr ⟨rfl, hnothing, hcond hterm hnothing⟩)
    hc hrun (.inr hfin)
  exact ⟨bs, cs, s₁, rfl, hbs, hnothing, hstop, stop_mem hbs (autostop_of_stopping hstop)⟩

end Plain

/-! ## Both kinds of scheduler -/

/-- **When workers leave.**  A worker of an `IOManager` returns from `run` only after `stop` has been
called and `stopping` has answered true to it; a worker of a plain scheduler returns only after `stop`
has been called and `stopping` has held at one of its scans, in every run in which a scan behind the end
of the idle fiber comes back with nothing only when `stopping` holds. -/
theorem leaves_in_time (tid : ι → Int) :
    (∀ s₀ as s t, (pool tid).init s₀ → (pool tid).exec s₀ as = some s →
      s.sched.pc t = .finished → Pool.LeftInTime tid t s₀ as) ∧
      ∀ as s t, (plain tid).Along (Plain.LeavesWhenStopping tid) .initial as →
        (plain tid).exec .initial as = some s → s.sched.pc t = .finished →
          Plain.LeftInTime tid t as :=
  ⟨fun _ _ _ _ h0 hrun hfin => Pool.io_leaves h0 hrun hfin,
    fun _ _ _ hc hrun hfin => Plain.plain_leaves hc hrun hfin⟩

/-- What a worker does from a scan with nothing to the scan behind its idle function. -/
def idleRound (t : ι) : List (PlainAct ι) :=
  [.run (.scan t), .run (.dispatch t), .count t, .run (.assertState t), .run (.setExec t),
    .run (.move t .finish), .run (.switchBack t), .uncount t, .run (.readState t)]

/-- A plain worker that is stopped behind its idle function. -/
def stoppedIdle : List (PlainAct Unit) :=
  [.run (.enterRun ())] ++ idleRound () ++ [.stop, .run (.scan ()), .run (.dispatch ())]

theorem leaves_in_time_stopped : Plain.LeftInTime (fun _ : Unit => 1) () stoppedIdle :=
  (leaves_in_time fun _ : Unit => 1).2 stoppedIdle
    (((plain fun _ : Unit => 1).exec .initial stoppedIdle).get (by decide)) () (by decide)
    (Option.some_get _).symm (by decide)

/-- The same worker without a `stop`, and a task that comes afterwards. -/
def leftEarlyRun : List (PlainAct Unit) :=
  [.run (.enterRun ())] ++ idleRound () ++
    [.run (.scan ()), .run (.dispatch ()), .run (.schedule ⟨none, some 1, -1⟩)]

/-- **Left early**: the worker is gone, nobody has called `stop`, and the task is left in the queue. -/
theorem left_early :
    ∃ s, (plain fun _ : Unit => 1).exec .initial leftEarlyRun = some s ∧
      (∀ t, s.sched.pc t = .finished) ∧ s.sched.m_fibers = [⟨none, some 1, -1⟩] ∧
      s.m_autostop = false ∧ ¬ Plain.LeftInTime (fun _ : Unit => 1) () leftEarlyRun := by
  have hend : (((plain fun _ : Unit => 1).exec .initial leftEarlyRun).map fun s =>
      (s.sched.pc (), s.sched.m_fibers, s.m_autostop))
      = some (.finished, [⟨none, some 1, -1⟩], false) := by decide
  obtain ⟨s, hs, hend⟩ := Option.map_eq_some_iff.mp hend
  simp only [Prod.mk.injEq] at hend
  obtain ⟨hpc, hq, hup⟩ := hend
  refine ⟨s, hs, fun _ => hpc, hq, hup, ?_⟩
  rintro ⟨bs, cs, s₁, heq, -, -, -, hstop⟩
  have hin : (.stop : PlainAct Unit) ∈ leftEarlyRun := by
    rw [heq]
    exact List.mem_append_left _ hstop
  exact absurd hin (by decide)

end Sylar.Worker
