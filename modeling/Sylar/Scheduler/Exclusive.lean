/-
# Sylar.Scheduler.Exclusive — at most one thread executes a fiber.

The scan of `run` passes over fibers in `EXEC`, and `swapIn` asserts that it does not enter one.
Both read `m_state`, and `m_state` is `EXEC` while the fiber runs (`Exclusive.exec`), so a running
fiber is safe.  It is not `EXEC` in two windows: between the scan that takes it and the write in
`swapIn`, and between the write of `READY`, `TERM` or `EXCEPT` and the switch off its stack.  In
both a second entry for the same fiber is taken by the next scan (`taken_twice`).  A third gap is the
late `m_state = HOLD` of the post-switch code, which does not look whether the fiber is running again.

`Undisturbed` is the condition on a step that it does not hit one of these; `executes_once` is
exclusion in every run whose steps all meet it.
-/
import Sylar.Scheduler.Run
import Mathlib.Data.Fintype.Defs
import Mathlib.Data.Fintype.Option

namespace Sylar.Scheduler

variable {ι : Type} [DecidableEq ι]

/-! ## Who has a fiber -/

namespace Pc

/-- Thread `t` is between the call of `swapIn` for `r` and its return. -/
@[grind]
def InSwapIn (t : ι) (r : Ref ι) : Pc → Prop
  | .swapIn j | .setExec j | .inside j | .leaving j _ => j.ref t = r
  | _ => False

/-- Thread `t` has taken `r` from the queue, or is between its call of `swapIn` and the return. -/
@[grind]
def Has (t : ι) (r : Ref ι) : Pc → Prop
  | .dispatch ft => ft.fiber.map Ref.shared = some r
  | pc => pc.InSwapIn t r

/-- Thread `t` runs the code of `r`, or has left it by `YieldToHold`, which writes no state. -/
@[grind]
def Running (t : ι) (r : Ref ι) : Pc → Prop
  | .inside j | .leaving j .atHold => j.ref t = r
  | _ => False

instance (t : ι) (r : Ref ι) : DecidablePred (InSwapIn t r)
  | .swapIn j | .setExec j | .inside j | .leaving j _ => inferInstanceAs (Decidable (j.ref t = r))
  | .outside | .scan | .dispatch _ | .post _ | .settle _ _ | .finished => isFalse id

instance (t : ι) (r : Ref ι) : DecidablePred (Has t r)
  | .dispatch ft => inferInstanceAs (Decidable (ft.fiber.map Ref.shared = some r))
  | .swapIn j | .setExec j | .inside j | .leaving j _ => inferInstanceAs (Decidable (j.ref t = r))
  | .outside | .scan | .post _ | .settle _ _ | .finished => isFalse id

instance (t : ι) (r : Ref ι) : DecidablePred (Running t r)
  | .inside j | .leaving j .atHold => inferInstanceAs (Decidable (j.ref t = r))
  | .leaving _ .entry | .leaving _ .atReady | .leaving _ .ended | .outside | .scan | .dispatch _
  | .swapIn _ | .setExec _ | .post _ | .settle _ _ | .finished => isFalse id

end Pc

namespace Sched

/-! ## The condition -/

/-- No other thread is in a window of `r`: it has `r`, and is not running it. -/
def Free (s : Sched ι) (t : ι) (r : Ref ι) : Prop :=
  ∀ u, u ≠ t → (s.pc u).Has u r → (s.pc u).Running u r

/-- The fiber the next scan of `t` takes. -/
def takes (tid : ι → Int) (s : Sched ι) (t : ι) : Option Nat :=
  (Scheduler.scan (tid t) s.state s.m_fibers).bind fun r => r.1.bind FiberAndThread.fiber

/-- The `cb_fiber` the next dispatch of `t` uses again. -/
def reuses (s : Sched ι) (t : ι) : Option Nat :=
  match s.pc t with
  | .dispatch ft => if ft.fiber.isNone && ft.cb.isSome then s.cb_fiber t else none
  | _ => none

/-- The job whose fiber `t` is about to set to `HOLD`. -/
def holds (s : Sched ι) (t : ι) : Option Job :=
  match s.pc t with
  | .settle j .hold => some j
  | _ => none

/-- The step does not take a fiber another thread is in a window of, and does not write `HOLD` to a
fiber another thread is running.  A direct `swapIn` is of a fiber nobody has. -/
def Undisturbed (tid : ι → Int) (s : Sched ι) : Act ι → Prop
  | .scan t => ∀ f ∈ s.takes tid t, s.Free t (.shared f)
  | .dispatch t => ∀ f ∈ s.reuses t, s.Free t (.shared f)
  | .settle t => ∀ j ∈ s.holds t, ∀ u, u ≠ t → ¬ (s.pc u).Running u (j.ref t)
  | .swapIn t f => ∀ u, u ≠ t → ¬ (s.pc u).Has u (.shared f)
  | _ => True

instance [Fintype ι] (s : Sched ι) (t : ι) (r : Ref ι) : Decidable (s.Free t r) :=
  inferInstanceAs (Decidable (∀ u, u ≠ t → (s.pc u).Has u r → (s.pc u).Running u r))

instance [Fintype ι] (tid : ι → Int) (s : Sched ι) : DecidablePred (Undisturbed tid s)
  | .scan t => inferInstanceAs (Decidable (∀ f ∈ s.takes tid t, s.Free t (.shared f)))
  | .dispatch t => inferInstanceAs (Decidable (∀ f ∈ s.reuses t, s.Free t (.shared f)))
  | .settle t => inferInstanceAs (Decidable
      (∀ j ∈ s.holds t, ∀ u, u ≠ t → ¬ (s.pc u).Running u (j.ref t)))
  | .swapIn t f => inferInstanceAs (Decidable (∀ u, u ≠ t → ¬ (s.pc u).Has u (.shared f)))
  | .enterRun _ | .assertState _ | .setExec _ | .move _ _ | .switchBack _ | .readState _
  | .schedule _ | .newFiber _ => isTrue trivial

/-! ## The invariant -/

/-- One thread has a fiber, and a running fiber is in `EXEC`. -/
structure Exclusive (s : Sched ι) : Prop where
  one : ∀ t u r, (s.pc t).Has t r → (s.pc u).Has u r → t = u
  exec : ∀ t r, (s.pc t).Running t r → (s.fibers r).m_state = .exec

variable {tid : ι → Int} {s s' : Sched ι}

/-- Only the thread that steps can gain a fiber, and one it gains nobody else has. -/
theorem one_of_gain {t : ι} (hs : Exclusive s) (hpc : ∀ u, u ≠ t → s'.pc u = s.pc u)
    (h : ∀ r, (s'.pc t).Has t r → (s.pc t).Has t r ∨ ∀ u, u ≠ t → ¬ (s.pc u).Has u r) :
    ∀ u v r, (s'.pc u).Has u r → (s'.pc v).Has v r → u = v := by
  have hother : ∀ u r, u ≠ t → (s'.pc u).Has u r → ¬ (s'.pc t).Has t r := by
    intro u r hu hur htr
    rw [hpc u hu] at hur
    rcases h r htr with hold | hnone
    · exact hu (hs.one u t r hur hold)
    · exact hnone u hu hur
  intro u v r hu hv
  by_cases hut : u = t
  · subst hut
    by_contra hne
    exact hother v r (Ne.symm hne) hv hu
  · by_cases hvt : v = t
    · subst hvt
      exact absurd hv (hother u r hut hu)
    · rw [hpc u hut] at hu
      rw [hpc v hvt] at hv
      exact hs.one u v r hu hv

omit [DecidableEq ι] in
/-- Nobody has a fiber that is free and not in `EXEC`. -/
theorem not_has_of_free {t : ι} {r : Ref ι} (hs : Exclusive s) (hfree : s.Free t r)
    (hst : (s.fibers r).m_state ≠ .exec) : ∀ u, u ≠ t → ¬ (s.pc u).Has u r :=
  fun u hu hur => hst (hs.exec u r (hfree u hu hur))

omit [DecidableEq ι] in
theorem fiber?_of_has {t : ι} {f : Nat} {pc : Pc} (h : pc.Has t (.shared f)) :
    pc.fiber? = some f := by
  have hjob : ∀ j : Job, j.ref t = .shared f → j.fiber? = some f := by
    intro j hj
    cases j <;> simp_all [Job.ref, Job.fiber?]
  cases pc with
  | dispatch ft => simpa [Pc.Has, Pc.fiber?] using h
  | swapIn j | setExec j | inside j | leaving j c => exact hjob j h
  | outside | scan | post | settle | finished => exact h.elim

omit [DecidableEq ι] in
/-- Nobody has a fiber that does not exist yet. -/
theorem not_has_fresh (hwf : WF s) (u : ι) : ¬ (s.pc u).Has u (.shared s.nextFiber) :=
  fun h => Nat.lt_irrefl _ (hwf.pc u _ (fiber?_of_has h))

omit [DecidableEq ι] in
/-- The idle fiber of a thread is nobody else's. -/
theorem not_has_idle {t u : ι} (hu : u ≠ t) {pc : Pc} : ¬ pc.Has u (.idle t) := by
  have hjob : ∀ j : Job, j.ref u ≠ .idle t := by
    intro j hj
    cases j <;> simp_all [Job.ref]
  intro h
  cases pc with
  | dispatch ft => simp [Pc.Has] at h
  | swapIn j | setExec j | inside j | leaving j c => exact hjob j h
  | outside | scan | post | settle | finished => exact h

theorem one_step {a : Act ι} (hwf : WF s) (hs : Exclusive s) (hc : Undisturbed tid s a)
    (h : Steps tid s a s') : ∀ u v r, (s'.pc u).Has u r → (s'.pc v).Has v r → u = v := by
  cases h with
  | @scanTook t ft pre post tk hpc hq hft hscan =>
      refine one_of_gain (t := t) hs (fun u hu => by simp [hu]) fun r hr => .inr ?_
      obtain ⟨f, hf, rfl⟩ : ∃ f, ft.fiber = some f ∧ Ref.shared f = r := by
        simpa [Pc.Has] using hr
      have htakes : s.takes tid t = some f := by simp [takes, hscan, hf]
      exact not_has_of_free hs (hc f htakes) (hft.2 f hf)
  | @reuse t ft cb f hpc hf hcb hcbf hres =>
      refine one_of_gain (t := t) hs (fun u hu => by simp [hu]) fun r hr => .inr ?_
      obtain rfl : Ref.shared f = r := by simpa [Pc.Has, Pc.InSwapIn, Job.ref] using hr
      have hreuses : s.reuses t = some f := by simp [reuses, hpc, hf, hcb, hcbf]
      refine not_has_of_free hs (hc f hreuses) fun hexec => ?_
      simp [Fiber.Resettable, hexec] at hres
  | @fresh t ft cb hpc hf hcb =>
      refine one_of_gain (t := t) hs (fun u hu => by simp [hu]) fun r hr => .inr fun u _ => ?_
      obtain rfl : Ref.shared s.nextFiber = r := by simpa [Pc.Has, Pc.InSwapIn, Job.ref] using hr
      exact not_has_fresh hwf u
  | @idle t ft hpc hf hcb hst =>
      refine one_of_gain (t := t) hs (fun u hu => by simp [hu]) fun r hr => .inr fun u hu => ?_
      obtain rfl : Ref.idle t = r := by simpa [Pc.Has, Pc.InSwapIn, Job.ref] using hr
      exact not_has_idle hu
  | @swapIn t f hpc hlt =>
      refine one_of_gain (t := t) hs (fun u hu => by simp [hu]) fun r hr => .inr ?_
      obtain rfl : Ref.shared f = r := by simpa [Pc.Has, Pc.InSwapIn, Job.ref] using hr
      exact hc
  | scanNone hpc =>
      have hempty : ∀ (t : ι) r, ¬ (Pc.dispatch .empty).Has t r := fun t r h => by
        simp [Pc.Has, FiberAndThread.empty] at h
      exact fun u v r hu hv => hs.one u v r (by grind) (by grind)
  | @fiber t ft f hpc hf =>
      have hsame : ∀ r, (Pc.swapIn (.fiber f)).Has t r → (s.pc t).Has t r := fun r h => by
        simpa [hpc, hf, Pc.Has, Pc.InSwapIn, Job.ref] using h
      exact fun u v r hu hv => hs.one u v r (by grind) (by grind)
  | _ => exact fun u v r hu hv => hs.one u v r (by grind) (by grind)

omit [DecidableEq ι] in
theorem has_of_running {t : ι} {r : Ref ι} {pc : Pc} (h : pc.Running t r) : pc.Has t r := by
  cases pc with
  | inside j => exact h
  | leaving j c =>
      cases c with
      | atHold => exact h
      | entry | atReady | ended => exact h.elim
  | outside | scan | dispatch | swapIn | setExec | post | settle | finished => exact h.elim

theorem exec_step {a : Act ι} (hwf : WF s) (hs : Exclusive s) (hc : Undisturbed tid s a)
    (h : Steps tid s a s') : ∀ u r, (s'.pc u).Running u r → (s'.fibers r).m_state = .exec := by
  intro u r hu
  have hold : (s.pc u).Running u r → (s.fibers r).m_state = .exec := hs.exec u r
  have hone : ∀ t, t ≠ u → (s.pc u).Running u r → ¬ (s.pc t).Has t r := fun t ht hur htr =>
    ht (hs.one t u r htr (has_of_running hur))
  cases h with
  | @enterRun t hpc =>
      have hidle : r = .idle t → u ≠ t → ¬ (s.pc u).Running u r := by
        rintro rfl hne hrun
        exact not_has_idle hne (has_of_running hrun)
      grind
  | fresh hpc hf hcb =>
      have hnew : r = .shared s.nextFiber → ¬ (s.pc u).Running u r := by
        rintro rfl hrun
        exact not_has_fresh hwf u (has_of_running hrun)
      grind
  | newFiber =>
      have hnew : r = .shared s.nextFiber → ¬ (s.pc u).Running u r := by
        rintro rfl hrun
        exact not_has_fresh hwf u (has_of_running hrun)
      grind
  | reuse hpc hf hcb hcbf hres => grind [Fiber.Resettable]
  | @leave t j m g c hpc hl =>
      -- only the thread inside the fiber writes its state
      cases hl <;> grind
  | @recycle t j hpc hres => grind [Fiber.Resettable]
  | @hold t j o hpc ho =>
      have hnot : ∀ v, v ≠ t → ¬ (s.pc v).Running v (j.ref t) := hc j (by simp [holds, hpc])
      grind
  | _ => grind

theorem exclusive_of_reachable (hs : (scheduler tid).ReachableWhen (Undisturbed tid) s) :
    Exclusive s := by
  refine Lib.System.ReachableWhen.invariant_of (P := Exclusive) (Q := WF)
    (fun s hr => wf_of_reachable hr.reachable) ?_ ?_ hs
  · rintro s rfl
    exact ⟨fun _ _ _ h => h.elim, fun _ _ h => h.elim⟩
  · intro s a s' hwf hex hc h
    have hst := (steps h).2
    exact ⟨one_step hwf hex hc hst, exec_step hwf hex hc hst⟩

/-- **Exclusion.**  In a run none of whose steps takes a fiber another thread is in a window of, or
writes `HOLD` to one another thread is running, no two threads are between the `swapIn` of the same
fiber and its return. -/
theorem executes_once (hs : (scheduler tid).ReachableWhen (Undisturbed tid) s) {t u : ι} {r : Ref ι}
    (ht : (s.pc t).InSwapIn t r) (hu : (s.pc u).InSwapIn u r) : t = u := by
  have hhas : ∀ {v : ι} {pc : Pc}, pc.InSwapIn v r → pc.Has v r := by
    intro v pc h
    cases pc with
    | dispatch ft => exact h.elim
    | _ => exact h
  exact (exclusive_of_reachable hs).one t u r (hhas ht) (hhas hu)

/-! ## Runs -/

/-- The ids of two threads. -/
def twoThreads (t : Bool) : Int := if t then 1 else 2

/-- A fiber is scheduled; one worker takes it and enters it, and while it runs it is scheduled again
and passed over by the other worker. -/
def passedOverRun : List (Act Bool) :=
  [.newFiber (some 1), .schedule ⟨some 0, none, -1⟩, .enterRun true, .enterRun false, .scan true,
    .dispatch true, .assertState true, .setExec true, .schedule ⟨some 0, none, -1⟩, .scan false]

theorem executes_once_run :
    let s := ((scheduler twoThreads).exec .initial passedOverRun).get (by decide)
    (s.pc true).InSwapIn true (.shared 0) ∧ ¬ (s.pc false).InSwapIn false (.shared 0) := by
  have hin : ((((scheduler twoThreads).exec .initial passedOverRun).get (by decide)).pc
      true).InSwapIn true (.shared 0) := by decide
  refine ⟨hin, fun hother => ?_⟩
  cases executes_once (Lib.System.ReachableWhen.exec (.init rfl) (l := passedOverRun) (by decide)
    (Option.some_get _).symm) hin hother

/-- A fiber is scheduled twice; both workers take it before either has written `EXEC`, and both pass
the assertion of `swapIn`. -/
def takenTwiceRun : List (Act Bool) :=
  [.newFiber (some 1), .schedule ⟨some 0, none, -1⟩, .schedule ⟨some 0, none, -1⟩,
    .enterRun true, .enterRun false, .scan true, .scan false, .dispatch true, .dispatch false,
    .assertState true, .assertState false, .setExec true, .setExec false]

/-- **One fiber on two threads**: both are inside it. -/
theorem taken_twice :
    ∃ s, (scheduler twoThreads).Reachable s ∧ s.pc true = .inside (.fiber 0) ∧
      s.pc false = .inside (.fiber 0) ∧
      ¬ ∀ (t u : Bool) r, (s.pc t).InSwapIn t r → (s.pc u).InSwapIn u r → t = u := by
  have hin : (((scheduler twoThreads).exec .initial takenTwiceRun).get (by decide)).pc true
      = .inside (.fiber 0) ∧
      (((scheduler twoThreads).exec .initial takenTwiceRun).get (by decide)).pc false
        = .inside (.fiber 0) := by decide
  refine ⟨_, Lib.System.reachable_of_exec (s := Sched.initial) (l := takenTwiceRun) rfl (Option.some_get (by decide)).symm,
    hin.1, hin.2, fun h => ?_⟩
  cases h true false (.shared 0) (by rw [hin.1]; rfl) (by rw [hin.2]; rfl)

end Sched

end Sylar.Scheduler
