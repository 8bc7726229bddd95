/-
# Sylar.Wake.Recycle — a `cb_fiber` is used again for the next callback.

When the task on a worker's `cb_fiber` ends in `TERM` or `EXCEPT`, `run` resets the fiber and keeps it
for the next callback; it does not ask who else holds a reference.  A task that registers an event
and returns without waiting for it leaves such a reference behind, and the event then resumes
whatever task the fiber carries by then (`wakes_other`).

`Tidy` is the condition on a step: a task on a `cb_fiber` ends only when nothing refers to the fiber,
and nobody names the fiber of a task that is over.  `wakes_own`: in a run whose steps all meet it
every reference is to the task it was made for, and the fiber a worker is about to use again is
referred to by nothing.
-/
import Sylar.Wake.Tasks
import Sylar.Scheduler.Ready

namespace Sylar.Wake

open Sylar.Scheduler
open Sylar.IO (IOManager)

variable {ι : Type}

/-- Seen from a worker's program point, its `cb_fiber` (in state `st`) carries no task, or one that
is over. -/
@[grind]
def Over (st : State) : Pc → Prop
  | .swapIn (.callback _) | .setExec (.callback _) | .inside (.callback _) => False
  | .leaving (.callback _) c => c = .ended
  | .post (.callback _) => Fiber.Ended st
  | .settle (.callback _) todo => todo = .recycle
  | _ => True

instance (st : State) : DecidablePred (Over st)
  | .swapIn (.callback _) | .setExec (.callback _) | .inside (.callback _) => isFalse id
  | .leaving (.callback _) c => inferInstanceAs (Decidable (c = .ended))
  | .post (.callback _) => inferInstanceAs (Decidable (Fiber.Ended st))
  | .settle (.callback _) todo => inferInstanceAs (Decidable (todo = .recycle))
  | .outside | .scan | .dispatch _ | .finished
  | .swapIn (.direct _) | .swapIn (.fiber _) | .swapIn .idle
  | .setExec (.direct _) | .setExec (.fiber _) | .setExec .idle
  | .inside (.direct _) | .inside (.fiber _) | .inside .idle
  | .leaving (.direct _) _ | .leaving (.fiber _) _ | .leaving .idle _
  | .post (.direct _) | .post (.fiber _) | .post .idle
  | .settle (.direct _) _ | .settle (.fiber _) _ | .settle .idle _ => isTrue trivial

namespace Tasks

/-! ## The condition -/

/-- No event, no bound function and no queue entry refers to fiber `f`. -/
def Unreferenced (s : Tasks ι) (f : Nat) : Prop :=
  (∀ r ∈ s.io.regs, (entryOf r.work).1.fiber ≠ some f) ∧ (∀ p ∈ s.bound, p.2.fiber ≠ f) ∧
    ∀ ft ∈ s.sched.m_fibers, ft.fiber ≠ some f

/-- No other thread has fiber `f` in hand. -/
def Only (s : Tasks ι) (t : ι) (f : Nat) : Prop := ∀ u, u ≠ t → (s.sched.pc u).fiber? ≠ some f

/-- Fiber `f` is the `cb_fiber` of a worker. -/
def Kept (s : Tasks ι) (f : Nat) : Prop := ∃ u, s.sched.cb_fiber u = some f

/-- It is, and carries no task that is not over. -/
def Spent (s : Tasks ι) (f : Nat) : Prop :=
  ∃ u, s.sched.cb_fiber u = some f ∧ Over (s.sched.state f) (s.sched.pc u)

/-- A task on a `cb_fiber` ends with nothing referring to the fiber, and nobody schedules or resumes
the fiber of a task that is over. -/
def Tidy (s : Tasks ι) : TaskAct ι → Prop
  | .run (.move t .finish) | .run (.move t .throw) =>
      ∀ f ∈ running s.sched t, s.Kept f → s.Unreferenced f ∧ s.Only t f
  | .run (.schedule ft) => ∀ f ∈ ft.fiber, ¬ s.Spent f
  | .run (.swapIn _ f) => ¬ s.Spent f
  | _ => True

section Decide

variable [DecidableEq ι] [Fintype ι] (s : Tasks ι)

instance : DecidablePred s.Unreferenced := fun f => inferInstanceAs (Decidable
  ((∀ r ∈ s.io.regs, (entryOf r.work).1.fiber ≠ some f) ∧ (∀ p ∈ s.bound, p.2.fiber ≠ f) ∧
    ∀ ft ∈ s.sched.m_fibers, ft.fiber ≠ some f))

instance (t : ι) (f : Nat) : Decidable (s.Only t f) :=
  inferInstanceAs (Decidable (∀ u, u ≠ t → (s.sched.pc u).fiber? ≠ some f))

instance : DecidablePred s.Kept := fun f =>
  inferInstanceAs (Decidable (∃ u, s.sched.cb_fiber u = some f))

instance : DecidablePred s.Spent := fun f => inferInstanceAs (Decidable
  (∃ u, s.sched.cb_fiber u = some f ∧ Over (s.sched.state f) (s.sched.pc u)))

instance : DecidablePred s.Tidy
  | .run (.move t .finish) | .run (.move t .throw) => inferInstanceAs (Decidable
      (∀ f ∈ running s.sched t, s.Kept f → s.Unreferenced f ∧ s.Only t f))
  | .run (.schedule ft) => inferInstanceAs (Decidable (∀ f ∈ ft.fiber, ¬ s.Spent f))
  | .run (.swapIn _ f) => inferInstanceAs (Decidable (¬ s.Spent f))
  | .run (.move _ .yieldToReady) | .run (.move _ .yieldToHold) | .run (.move _ .swapOut)
  | .run (.enterRun _) | .run (.scan _) | .run (.dispatch _) | .run (.assertState _)
  | .run (.setExec _) | .run (.switchBack _) | .run (.readState _) | .run (.settle _)
  | .run (.newFiber _) | .event .. | .addTimer .. | .expire _ | .call _ => isTrue trivial

end Decide

variable [DecidableEq ι] {tid : ι → Int} {s s' : Tasks ι}

/-! ## A `cb_fiber` between two tasks -/

/-- Nothing refers to fiber `f`, and no thread but `u`, at the end of its task, has it in hand. -/
structure Free (s : Tasks ι) (u : ι) (f : Nat) : Prop where
  refs : ∀ w, s.Refers w → w.fiber ≠ f
  hands : ∀ v, (s.sched.pc v).fiber? = some f →
    v = u ∧ (s.sched.pc u).job? = some (.callback f)

/-- Every worker has a `cb_fiber` of its own, and one that carries no task is free. -/
structure Apart (s : Tasks ι) : Prop where
  one : ∀ u v f, s.sched.cb_fiber u = some f → s.sched.cb_fiber v = some f → u = v
  job : ∀ u f, (s.sched.pc u).job? = some (.callback f) → s.sched.cb_fiber u = some f
  /-- A task that yields is not over. -/
  yields : ∀ u f c, s.sched.pc u = .leaving (.callback f) c → c ≠ .ended →
    ¬ Fiber.Ended (s.sched.state f)
  free : ∀ u f, s.sched.cb_fiber u = some f → Over (s.sched.state f) (s.sched.pc u) → s.Free u f

theorem one_step {a : Act ι} {b c : Sched ι} (hwf : Sched.WF b)
    (hone : ∀ u v f, b.cb_fiber u = some f → b.cb_fiber v = some f → u = v)
    (h : Sched.Steps tid b a c) :
    ∀ u v f, c.cb_fiber u = some f → c.cb_fiber v = some f → u = v := by
  intro u v f hu hv
  have hcb := hwf.cb
  cases h <;> grind

theorem job_step {a : Act ι} {b c : Sched ι}
    (hjob : ∀ u f, (b.pc u).job? = some (.callback f) → b.cb_fiber u = some f)
    (h : Sched.Steps tid b a c) :
    ∀ u f, (c.pc u).job? = some (.callback f) → c.cb_fiber u = some f := by
  intro u f hu
  have hold := hjob u f
  cases h <;> grind

/-- `HOLD` behind a callback drops the worker's `cb_fiber`. -/
theorem hold_drops {b c : Sched ι} {t : ι} {f : Nat} (hstep : b.settle t = some c)
    (hpc : b.pc t = .settle (.callback f) .hold) : c.cb_fiber t = none := by
  simp only [Sched.settle, hpc, Option.some.injEq] at hstep
  subst hstep
  simp

omit [DecidableEq ι] in
theorem fiber?_iff_ref {t : ι} {j : Job} {f : Nat} : j.fiber? = some f ↔ j.ref t = .shared f := by
  cases j <;> simp [Job.fiber?, Job.ref]

/-- The state of a fiber becomes `TERM` or `EXCEPT` at the end of its code only. -/
theorem ended_step {a : Act ι} {b c : Sched ι} {f : Nat} (h : Sched.Steps tid b a c)
    (hended : Fiber.Ended (c.state f)) :
    Fiber.Ended (b.state f) ∨
      ∃ t, running b t = some f ∧ (a = .move t .finish ∨ a = .move t .throw) := by
  unfold Sched.state at hended ⊢
  cases h with
  | @leave t j m g k hpc hl =>
      by_cases hf : Ref.shared f = j.ref t
      · have hrun : running b t = some f := by
          simp only [running, hpc]
          exact fiber?_iff_ref.mpr hf.symm
        have hstate : Fiber.Ended g.m_state := by
          simpa only [Sched.goto_fibers, Sched.put_fibers, if_pos hf] using hended
        cases hl with
        | ready hj => cases hstate <;> contradiction
        | hold hj hexec => exact .inl (hf ▸ hstate)
        | idle hj => exact .inl (hf ▸ hstate)
        | finish => exact .inr ⟨t, hrun, .inl rfl⟩
        | throw => exact .inr ⟨t, hrun, .inr rfl⟩
      · refine .inl ?_
        simpa only [Sched.goto_fibers, Sched.put_fibers, if_neg hf] using hended
  | _ => exact .inl (by grind [Fiber.Ended])

omit [DecidableEq ι] in
theorem over_of_job {st : State} {pc : Pc} (h : ∀ f, pc.job? ≠ some (.callback f)) : Over st pc := by
  cases pc with
  | swapIn j | setExec j | inside j | leaving j _ | post j | settle j _ =>
      cases j with
      | callback f => exact absurd rfl (h f)
      | direct | fiber | idle => trivial
  | outside | scan | dispatch | finished => trivial

omit [DecidableEq ι] in
/-- Whether a task is over depends on its fiber's state only where `run` tests it. -/
theorem over_mono {st st' : State} {pc : Pc} (h : Over st pc)
    (hpost : ∀ f, pc = .post (.callback f) → Fiber.Ended st → Fiber.Ended st') : Over st' pc := by
  by_cases hjob : ∃ f, pc.job? = some (.callback f)
  · obtain ⟨f, hf⟩ := hjob
    cases pc with
    | post j =>
        obtain rfl := Option.some.inj hf
        exact hpost f rfl h
    | swapIn j | setExec j | inside j | leaving j _ | settle j _ =>
        obtain rfl := Option.some.inj hf
        exact h
    | outside | scan | dispatch | finished => trivial
  · exact over_of_job fun f hf => hjob ⟨f, hf⟩

/-- Seen from a worker in its callback branch: the task is over by the worker's step, if it was not. -/
theorem over_own {a : Act ι} {b c : Sched ι} {u : ι} {f : Nat}
    (hyields : ∀ k, b.pc u = .leaving (.callback f) k → k ≠ .ended → ¬ Fiber.Ended (b.state f))
    (hstep : (scheduler tid).step b a = some c) (hu : a.thread? = some u)
    (hjob : (b.pc u).job? = some (.callback f)) (hcb : (c.cb_fiber u).isSome = true)
    (hover : Over (c.state f) (c.pc u)) :
    Over (b.state f) (b.pc u) ∨ running b u = some f ∧ (a = .move u .finish ∨ a = .move u .throw) := by
  obtain ⟨hfault, h⟩ := Sched.steps hstep
  have hnot : ∀ {pc : Pc}, b.pc u = pc → pc.job? = some (.callback f) := fun hpc => hpc ▸ hjob
  cases h with
  | assertPass hpc | exec hpc | never hpc =>
      obtain rfl := Option.some.inj hu
      obtain rfl := Option.some.inj (hnot hpc)
      simp [Over, hpc] at hover
  | @leave t j m g k hpc hl =>
      obtain rfl := Option.some.inj hu
      obtain rfl := Option.some.inj (hnot hpc)
      have hk : k = .ended := by simpa [Over] using hover
      subst hk
      have hrun : running b t = some f := by simp only [running, hpc, Job.fiber?]
      cases hl with
      | finish => exact .inr ⟨hrun, .inl rfl⟩
      | throw => exact .inr ⟨hrun, .inr rfl⟩
  | @switchBack t j k hpc =>
      obtain rfl := Option.some.inj hu
      obtain rfl := Option.some.inj (hnot hpc)
      have hended : Fiber.Ended (b.state f) := by simpa [Over, Sched.state, Job.ref] using hover
      rw [hpc]
      by_contra hne
      exact hyields k hpc (fun hk => hne (.inl hk)) hended
  | @callback t g hpc =>
      obtain rfl := Option.some.inj hu
      obtain rfl := Job.callback.inj (Option.some.inj (hnot hpc))
      have htodo : Sched.callbackTodo (b.state g) = .recycle := by simpa [Over] using hover
      rw [hpc]
      exact .inl (by unfold Sched.callbackTodo at htodo; grind [Fiber.Ended])
  | recycle hpc =>
      obtain rfl := Option.some.inj hu
      obtain rfl := Option.some.inj (hnot hpc)
      rw [hpc]
      exact .inl rfl
  | requeue hpc =>
      obtain rfl := Option.some.inj hu
      simp at hcb
  | hold hpc =>
      obtain rfl := Option.some.inj hu
      obtain rfl := Option.some.inj (hnot hpc)
      have hset : b.settle _ = some _ := Sched.own_settle hpc rfl hstep
      rw [hold_drops hset hpc] at hcb
      cases hcb
  | done hpc hpc' hne =>
      obtain rfl := Option.some.inj hu
      exact absurd (Option.some.inj (hnot hpc)) (hne f)
  | idleBack hpc | enterRun hpc | scanFail hpc | scanTook hpc | scanNone hpc | fiber hpc | reuse hpc
  | fresh hpc | idle hpc | finished hpc | swapIn hpc =>
      obtain rfl := Option.some.inj hu
      cases hnot hpc
  | reuseFail | assertFail | yieldFail | recycleFail => exact .inl hover
  | schedule | newFiber => cases hu

/-- Whoever ends the task on a `cb_fiber` is the only one that has the fiber in hand. -/
def Lone (b : Sched ι) (a : Act ι) : Prop :=
  ∀ t f, running b t = some f → a = .move t .finish ∨ a = .move t .throw →
    ∀ u, b.cb_fiber u = some f → ∀ v, v ≠ t → (b.pc v).fiber? ≠ some f

/-- A task is over that was not: it has just ended. -/
theorem over_back {a : Act ι} {b c : Sched ι} {u : ι} {f : Nat}
    (hyields : ∀ k, b.pc u = .leaving (.callback f) k → k ≠ .ended → ¬ Fiber.Ended (b.state f))
    (hjob : ∀ g, (b.pc u).job? = some (.callback g) → b.cb_fiber u = some g)
    (hlone : Lone b a) (hstep : (scheduler tid).step b a = some c) (hcb : c.cb_fiber u = some f)
    (hover : Over (c.state f) (c.pc u)) :
    b.cb_fiber u = some f ∧ (Over (b.state f) (b.pc u) ∨
      running b u = some f ∧ (a = .move u .finish ∨ a = .move u .throw)) := by
  obtain ⟨hfault, h⟩ := Sched.steps hstep
  -- the worker has its `cb_fiber` from before: a new one has a task to start
  have hkept : b.cb_fiber u = some f := by
    cases h with
    | @enterRun t hpc => grind
    | @fresh t ft cb hpc hf hft => grind
    | @requeue t g hpc => grind
    | @hold t j o hpc ho => grind
    | _ => exact hcb
  refine ⟨hkept, ?_⟩
  have hown : ∀ g, (b.pc u).job? = some (.callback g) → g = f := fun g hg =>
    Option.some.inj ((hjob g hg).symm.trans hkept)
  by_cases hu : a.thread? = some u
  · by_cases hcall : ∃ g, (b.pc u).job? = some (.callback g)
    · obtain ⟨g, hg⟩ := hcall
      obtain rfl := hown g hg
      exact over_own hyields hstep hu hg (by rw [hcb]; rfl) hover
    · exact .inl (over_of_job fun g hg => hcall ⟨g, hg⟩)
  · rw [Sched.other_pc hstep hu] at hover
    refine .inl (over_mono hover ?_)
    intro g hg hended
    obtain rfl : g = f := hown g (by rw [hg]; rfl)
    rcases ended_step h hended with hold | ⟨t, hrun, hends⟩
    · exact hold
    · have hut : u ≠ t := by
        rintro rfl
        rcases hends with rfl | rfl <;> exact hu rfl
      exact absurd (by rw [hg]; rfl) (hlone t g hrun hends u hkept u hut)

theorem yields_step {a : Act ι} {b c : Sched ι}
    (hyields : ∀ u f k, b.pc u = .leaving (.callback f) k → k ≠ .ended →
      ¬ Fiber.Ended (b.state f))
    (hjob : ∀ u f, (b.pc u).job? = some (.callback f) → b.cb_fiber u = some f)
    (hlone : Lone b a) (hstep : (scheduler tid).step b a = some c) :
    ∀ u f k, c.pc u = .leaving (.callback f) k → k ≠ .ended → ¬ Fiber.Ended (c.state f) := by
  intro u f k hpc hk hended
  obtain ⟨-, h⟩ := Sched.steps hstep
  by_cases hold : b.pc u = .leaving (.callback f) k
  · rcases ended_step h hended with hold' | ⟨t, hrun, hends⟩
    · exact hyields u f k hold hk hold'
    · have hut : u ≠ t := by
        rintro rfl
        simp [running, hold] at hrun
      exact absurd (by rw [hold]; rfl)
        (hlone t f hrun hends u (hjob u f (by rw [hold]; rfl)) u hut)
  · cases h with
    | @leave t j m g k' hpc' hl =>
        cases hl <;> grind [Sched.state, Fiber.Ended, Job.ref]
    | _ => grind

/-- A thread that has a fiber in hand had it before, has taken it from the queue, has put a callback
on it, or resumes it from outside. -/
theorem hands_back {a : Act ι} {b c : Sched ι} {v : ι} {f : Nat} (h : Sched.Steps tid b a c)
    (hv : (c.pc v).fiber? = some f) :
    (b.pc v).fiber? = some f ∨ (∃ ft ∈ b.m_fibers, ft.fiber = some f) ∨
      c.pc v = .swapIn (.callback f) ∨ a = .swapIn v f := by
  cases h with
  | scanTook => grind
  | scanNone => grind [FiberAndThread.empty]
  | _ => grind

/-- A worker that still has the fiber of its task in hand is in its callback branch. -/
theorem job_stays {a : Act ι} {b c : Sched ι} {u : ι} {f : Nat} (h : Sched.Steps tid b a c)
    (hjob : (b.pc u).job? = some (.callback f)) (hf : (c.pc u).fiber? = some f) :
    (c.pc u).job? = some (.callback f) := by
  cases h <;> grind

omit [DecidableEq ι] in
theorem fiber?_of_running {b : Sched ι} {t : ι} {f : Nat} (h : running b t = some f) :
    (b.pc t).fiber? = some f := by
  unfold running at h
  split at h
  · rename_i j hpc
    rw [hpc]
    exact h
  · cases h

omit [DecidableEq ι] in
/-- What the condition says of the end of a task. -/
theorem Tidy.ends {a : Act ι} (hc : s.Tidy (.run a)) {t : ι} {f : Nat}
    (hrun : running s.sched t = some f) (hends : a = .move t .finish ∨ a = .move t .throw)
    (hkept : s.Kept f) : s.Unreferenced f ∧ s.Only t f := by
  rcases hends with rfl | rfl <;> exact hc f hrun hkept

omit [DecidableEq ι] in
theorem Tidy.lone {a : Act ι} (hc : s.Tidy (.run a)) : Lone s.sched a :=
  fun _ _ hrun hends u hu => (hc.ends hrun hends ⟨u, hu⟩).2

/-- What nothing refers to, and what no other thread has in hand, no reference is to. -/
theorem Unreferenced.refs {t : ι} {f : Nat} (h : Consistent tid s) (hfault : s.sched.fault = none)
    (hun : s.Unreferenced f) (honly : s.Only t f) (hrun : running s.sched t = some f) :
    ∀ w, s.Refers w → w.fiber ≠ f := by
  rintro w hw rfl
  cases hw with
  | queue he hf =>
      apply hun.2.2 _ (h.queue hfault ▸ List.mem_map_of_mem he)
      exact hf
  | @taken u ft f hpc hf =>
      by_cases hut : u = t
      · subst hut
        simp [running, hpc] at hrun
      · exact honly u hut (by rw [hpc]; exact hf)
  | event hr hw =>
      apply hun.1 _ hr
      rw [hw]
      rfl
  | bound hp => exact hun.2.1 _ hp rfl

omit [DecidableEq ι] in
/-- A free fiber, of a task that is over, is not referred to again by a tidy step. -/
theorem Free.creates {u : ι} {f : Nat} {a : TaskAct ι} (h : s.Free u f) (hc : s.Tidy a)
    (hcb : s.sched.cb_fiber u = some f) (hover : Over (s.sched.state f) (s.sched.pc u)) :
    ¬ s.Creates f a := by
  intro hcreate
  -- a thread with the fiber in hand is the worker, and it is at the end of its task
  have hinside : ∀ t, running s.sched t ≠ some f := by
    intro t hrun
    obtain ⟨rfl, hjob⟩ := h.hands t (fiber?_of_running hrun)
    unfold running at hrun
    split at hrun
    · rename_i j hpc
      rw [hpc] at hjob hover
      obtain rfl := Option.some.inj hjob
      exact hover
    · cases hrun
  cases a with
  | run a =>
      cases a with
      | schedule ft => exact hc f hcreate ⟨u, hcb, hover⟩
      | settle t =>
          have hpc : s.sched.pc t = .settle (.callback f) .requeue := hcreate
          obtain ⟨rfl, -⟩ := h.hands t (by rw [hpc]; rfl)
          rw [hpc] at hover
          cases hover
      | _ => exact hcreate
  | event t op => exact hinside t hcreate
  | addTimer t cb => exact hinside t hcreate
  | expire cb | call t => exact hcreate

theorem free_run {a : Act ι} {c : Sched ι} (h : Consistent tid s) (hs : s.Apart)
    (hc : s.Tidy (.run a)) (hadm : s.Admits a) (hstep : (scheduler tid).step s.sched a = some c) :
    ∀ u f, c.cb_fiber u = some f → Over (c.state f) (c.pc u) → (s.follow tid a c).Free u f := by
  intro u f hcb hover
  obtain ⟨hfault, hsteps⟩ := Sched.steps hstep
  have hwf := Sched.wf_of_reachable h.base
  obtain ⟨hkept, hback⟩ := over_back (hs.yields u f) (hs.job u) hc.lone hstep hcb hover
  obtain ⟨hsched, -, -⟩ := follow_frame tid s a c
  -- before the step nothing refers to the fiber, or only what ends with it
  have hfree : s.Free u f ∧ (Over (s.sched.state f) (s.sched.pc u) ∨ ∀ g, ¬ s.Creates g (.run a)) := by
    by_cases hold : Over (s.sched.state f) (s.sched.pc u)
    · exact ⟨hs.free u f hkept hold, .inl hold⟩
    · obtain ⟨hrun, hends⟩ := hback.resolve_left hold
      obtain ⟨hun, honly⟩ := hc.ends hrun hends ⟨u, hkept⟩
      have hjob : (s.sched.pc u).job? = some (.callback f) := by
        by_contra hne
        apply hold
        apply over_of_job
        intro g hg
        obtain rfl : f = g := Option.some.inj (hkept.symm.trans (hs.job u g hg))
        exact hne hg
      refine ⟨⟨hun.refs h hfault honly hrun, ?_⟩, .inr ?_⟩
      · intro v hv
        by_cases hvu : v = u
        · exact ⟨hvu, hjob⟩
        · exact absurd hv (honly v hvu)
      · intro g
        rcases hends with rfl | rfl <;> exact id
  obtain ⟨hfree, hnew⟩ := hfree
  refine ⟨?_, ?_⟩
  · rintro w hw rfl
    rcases refers_step h (.run hadm hstep) hw with hw | ⟨hcreate, -⟩
    · exact hfree.refs w hw rfl
    · rcases hnew with hold | hnone
      · exact hfree.creates hc hkept hold hcreate
      · exact hnone _ hcreate
  · rw [hsched]
    intro v hv
    have hjob := job_step hs.job hsteps
    rcases hands_back hsteps hv with hold | ⟨ft, hft, hf⟩ | hput | rfl
    · obtain ⟨rfl, hj⟩ := hfree.hands v hold
      exact ⟨rfl, job_stays hsteps hj hv⟩
    · -- nothing in the queue names it
      rw [← h.queue hfault] at hft
      obtain ⟨e, he, rfl⟩ := List.mem_map.mp hft
      exact absurd rfl (hfree.refs _ (.queue he hf))
    · have hvu : v = u := one_step hwf hs.one hsteps v u f (hjob v f (by rw [hput]; rfl)) hcb
      rw [hvu] at hput
      rw [hput] at hover
      exact hover.elim
    · have hover' : Over (s.sched.state f) (s.sched.pc u) := by
        rcases hnew with hold | hnone
        · exact hold
        · rcases hback with hold | ⟨-, hends⟩
          · exact hold
          · rcases hends with h' | h' <;> cases h'
      exact absurd ⟨u, hkept, hover'⟩ hc

theorem apart_step {a : TaskAct ι} (h : Consistent tid s) (hs : s.Apart) (hc : s.Tidy a)
    (hm : Moves tid s a s') : s'.Apart := by
  rcases moves_sched hm with ⟨b, c, rfl, hadm, hstep, rfl⟩ | ⟨q, hq⟩
  · obtain ⟨hfault, hsteps⟩ := Sched.steps hstep
    obtain ⟨hsched, -, -⟩ := follow_frame tid s b c
    refine ⟨?_, ?_, ?_, ?_⟩
    · rw [hsched]
      exact one_step (Sched.wf_of_reachable h.base) hs.one hsteps
    · rw [hsched]
      exact job_step hs.job hsteps
    · rw [hsched]
      exact yields_step hs.yields hs.job hc.lone hstep
    · rw [hsched]
      exact free_run h hs hc hadm hstep
  · -- only the queue of the scheduler is another one
    have hpc : ∀ u, s'.sched.pc u = s.sched.pc u := fun u => by rw [hq]
    have hcb : ∀ u, s'.sched.cb_fiber u = s.sched.cb_fiber u := fun u => by rw [hq]
    have hstate : ∀ f, s'.sched.state f = s.sched.state f := fun f => by rw [hq]; rfl
    refine ⟨?_, ?_, ?_, ?_⟩
    · intro u v f hu hv
      exact hs.one u v f (hcb u ▸ hu) (hcb v ▸ hv)
    · intro u f hjob
      rw [hcb]
      exact hs.job u f (hpc u ▸ hjob)
    · intro u f k hk
      rw [hstate]
      exact hs.yields u f k (hpc u ▸ hk)
    · intro u f hu hover
      rw [hcb] at hu
      rw [hpc, hstate] at hover
      have hfree := hs.free u f hu hover
      refine ⟨?_, ?_⟩
      · rintro w hw rfl
        rcases refers_step h hm hw with hw | ⟨hcreate, -⟩
        · exact hfree.refs w hw rfl
        · exact hfree.creates hc hu hover hcreate
      · intro v hv
        rw [hpc] at hv ⊢
        exact hfree.hands v hv

omit [DecidableEq ι] in
theorem apart_initial : (initial : Tasks ι).Apart := by
  refine ⟨?_, ?_, ?_, ?_⟩
  · intro u v f hu
    cases hu
  · intro u f hjob
    cases hjob
  · intro u f k hk
    cases hk
  · intro u f hu
    cases hu

theorem apart_of_reachable (hs : (tasks tid).ReachableWhen Tidy s) : s.Apart := by
  refine Lib.System.ReachableWhen.invariant_of (P := Apart) (Q := Consistent tid)
    (fun s hr => consistent_of_reachable hr.reachable) ?_ ?_ hs
  · rintro s rfl
    exact apart_initial
  · intro s a s' hcons h hc hstep
    exact apart_step hcons h hc (moves hstep)

/-! ## References are to the task they were made for -/

/-- The fiber `run` puts a callback on is its `cb_fiber`, or new. -/
theorem put_spec {b c : Sched ι} {t : ι} {ft : FiberAndThread} {f : Nat}
    (h : Sched.Steps tid b (.dispatch t) c) (hpc : b.pc t = .dispatch ft)
    (hput : c.pc t = .swapIn (.callback f)) : b.reuses t = some f ∨ f = b.nextFiber := by
  cases h with
  | reuse hpc' hf hcb hcbf hres => grind [Sched.reuses]
  | fresh hpc' hf hcb => grind
  | _ => grind

omit [DecidableEq ι] in
/-- What the next dispatch uses again is a `cb_fiber` without a task. -/
theorem reuses_spec {b : Sched ι} {t : ι} {f : Nat} (h : b.reuses t = some f) :
    b.cb_fiber t = some f ∧ Over (b.state f) (b.pc t) := by
  unfold Sched.reuses at h
  split at h
  · rename_i ft hpc
    split at h
    · rw [hpc]
      exact ⟨h, trivial⟩
    · cases h
  · cases h

/-- Only `run` numbers a fiber anew, by putting a callback on it. -/
theorem task_step {a : TaskAct ι} (h : Moves tid s a s') (g : Nat) :
    s'.task g = s.task g ∨
      ∃ t, a = .run (.dispatch t) ∧ (s.sched.reuses t = some g ∨ g = s.sched.nextFiber) := by
  cases h with
  | @run a c hadm hc =>
      cases a with
      | dispatch t =>
          obtain ⟨-, hsteps⟩ := Sched.steps hc
          simp only [follow]
          split
          · rename_i ft f hpc hput
            by_cases hgf : g = f
            · subst hgf
              exact .inr ⟨t, rfl, put_spec hsteps hpc hput⟩
            · exact .inl (Function.update_of_ne hgf ..)
          · exact .inl rfl
      | settle t =>
          left
          simp only [follow]
          split <;> rfl
      | _ => exact .inl rfl
  | event => exact .inl (by simp)
  | addTimer | expire | call => exact .inl rfl

/-- What refers to a fiber refers to one there is. -/
theorem refers_lt (h : Consistent tid s) (hfault : s.sched.fault = none) {w : Wakeup}
    (hw : s.Refers w) : w.fiber < s.sched.nextFiber := by
  have hwf := Sched.wf_of_reachable h.base
  cases hw with
  | queue he hf => exact hwf.queue _ (h.queue hfault ▸ List.mem_map_of_mem he) _ hf
  | @taken u ft f hpc hf => exact hwf.pc u f (by rw [hpc]; exact hf)
  | event hr hw => exact h.event _ hr _ hw
  | bound hp => exact h.bound _ hp

/-- Every reference is to the task its fiber carries. -/
def Current (s : Tasks ι) : Prop := ∀ w, s.Refers w → s.task w.fiber = w.task

theorem current_step {a : TaskAct ι} (h : Consistent tid s) (happ : s.Apart) (hs : s.Current)
    (hm : Moves tid s a s') : s'.Current := by
  intro w hw
  rcases task_step hm w.fiber with hsame | ⟨t, rfl, hput⟩
  · rw [hsame]
    rcases refers_step h hm hw with hw | ⟨-, hnew⟩
    · exact hs w hw
    · exact hnew.symm
  · -- a fiber that is given a callback is free, or new
    rcases refers_step h hm hw with hw | ⟨hcreate, -⟩
    · rcases hput with hreuse | hnext
      · obtain ⟨hcb, hover⟩ := reuses_spec hreuse
        exact absurd rfl ((happ.free t w.fiber hcb hover).refs w hw)
      · have := refers_lt h hm.fault hw
        omega
    · exact hcreate.elim

omit [DecidableEq ι] in
theorem current_initial : (initial : Tasks ι).Current := by
  intro w hw
  cases hw with
  | queue he => cases he
  | taken hpc => cases hpc
  | event hr =>
      rw [initial_regs] at hr
      cases hr
  | bound hp => cases hp

theorem current_of_reachable (hs : (tasks tid).ReachableWhen Tidy s) : s.Current := by
  refine Lib.System.ReachableWhen.invariant_of (P := Current)
    (Q := fun s => Consistent tid s ∧ s.Apart)
    (fun s hr => ⟨consistent_of_reachable hr.reachable, apart_of_reachable hr⟩) ?_ ?_ hs
  · rintro s rfl
    exact current_initial
  · rintro s a s' ⟨hcons, hap⟩ hcur - hstep
    exact current_step hcons hap hcur (moves hstep)

/-- **A wake-up resumes the task it was made for.**  In a run whose steps all are tidy, every event,
timer and queue entry, and every entry a thread has taken, refers to the task its fiber carries; and
the fiber a worker is about to reset for the next callback is referred to by nothing. -/
theorem wakes_own (hs : (tasks tid).ReachableWhen Tidy s) :
    s.Current ∧ ∀ t f, s.sched.reuses t = some f → ∀ w, s.Refers w → w.fiber ≠ f := by
  refine ⟨current_of_reachable hs, ?_⟩
  intro t f hreuse
  obtain ⟨hcb, hover⟩ := reuses_spec hreuse
  exact ((apart_of_reachable hs).free t f hcb hover).refs

/-- Worker `t` takes a task and is inside it. -/
def take (t : Bool) : List (TaskAct Bool) :=
  [.run (.scan t), .run (.dispatch t), .run (.assertState t), .run (.setExec t)]

/-- It leaves the task by `m`, and does its bookkeeping. -/
def leave (t : Bool) (m : Move) : List (TaskAct Bool) :=
  [.run (.move t m), .run (.switchBack t), .run (.readState t), .run (.settle t)]

/-- A thread that registers the fiber it runs for the `READ` event of descriptor 3. -/
def register (t : Bool) (f : Nat) : TaskAct Bool :=
  .event t (.addEvent 3 .read none ⟨some (), f, .exec⟩ true)

/-- Descriptor 3 becomes readable. -/
def readable (t : Bool) : TaskAct Bool := .event t (.idleEvent 3 ⟨true, false, false, false⟩ true)

/-- A task waits for an event, then sleeps; its worker runs another callback meanwhile, and the bound
function of the sleep. -/
def waitingRun : List (TaskAct Bool) :=
  List.flatten
    [[.run (.enterRun true), .run (.schedule ⟨none, some 1, -1⟩)], take true, [register true 0],
      leave true .yieldToHold, [.run (.schedule ⟨none, some 2, -1⟩)], take true,
      leave true .finish, [readable true], take true,
      [.addTimer true 3, .run (.move true .yieldToHold), .run (.switchBack true),
        .run (.readState true), .run (.schedule ⟨none, some 4, -1⟩), .expire 3]]

theorem wakes_own_waiting :
    let s := ((tasks Sched.twoThreads).exec initial waitingRun).get (by decide)
    s.Current := by
  intro s
  have hrun : (tasks Sched.twoThreads).exec initial waitingRun = some s := (Option.some_get _).symm
  exact (wakes_own (.exec (.init rfl) (l := waitingRun) (by decide) hrun)).1

/-- A task registers an event and returns; its worker takes the next callback. -/
def returnedRun : List (TaskAct Bool) :=
  List.flatten
    [[.run (.enterRun true), .run (.schedule ⟨none, some 1, -1⟩)], take true, [register true 0],
      leave true .finish, [.run (.schedule ⟨none, some 2, -1⟩), .run (.scan true)]]

/-- The callback waits for something else, and the event comes. -/
def mixedUpRun : List (TaskAct Bool) :=
  List.flatten
    [returnedRun, [.run (.dispatch true), .run (.assertState true), .run (.setExec true)],
      leave true .yieldToHold, [readable true], take true]

/-- **One task's event resumes another**: the fiber is about to be reset while an event refers to it,
and what was registered for the first task on it resumes the second. -/
theorem wakes_other :
    (∃ s, (tasks Sched.twoThreads).Reachable s ∧ s.sched.reuses true = some 0 ∧
      s.Refers ⟨0, 1⟩) ∧
    ∃ s, (tasks Sched.twoThreads).Reachable s ∧ s.sched.pc true = .inside (.fiber 0) ∧
      s.taken true = 1 ∧ s.task 0 = 2 ∧ (s.sched.fibers (.shared 0)).m_cb = some 2 := by
  refine ⟨⟨_, Lib.System.reachable_of_exec (s := initial) (l := returnedRun) rfl
      (Option.some_get (by decide)).symm, by decide, ?_⟩,
    ⟨_, Lib.System.reachable_of_exec (s := initial) (l := mixedUpRun) rfl
      (Option.some_get (by decide)).symm, by decide, by decide, by decide, by decide⟩⟩
  have hregs : (((tasks Sched.twoThreads).exec initial returnedRun).get (by decide)).io.regs
      = [⟨3, .read, some (), .fiber ⟨0, 1⟩⟩] := by decide
  refine .event (r := ⟨3, .read, some (), .fiber ⟨0, 1⟩⟩) ?_ rfl
  rw [hregs]
  exact List.mem_singleton_self _

end Tasks

end Sylar.Wake
