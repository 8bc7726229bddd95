/-
# Sylar.Scheduler.Terminal — a finished fiber and its last `swapOut`.

`run` resumes a queued fiber when `getState() != TERM || getState() != EXCEPT`, which every state
satisfies, so a fiber that has ended and is still in the queue is resumed behind its last `swapOut`,
into the assertion at the end of `MainFunc` (`resumed_after_end`).  The idle branch looks for `TERM`
only.

As the guard lets everything through, it is for the others to see that nothing ended comes to it.
`EndsAlone` is what they have to do: no entry is made for a fiber that has ended, a fiber ends only
when no entry names it and no other thread has it in hand, `cb_fiber` is used again only then, and
the idle function does not throw.  `never_resumed`: in a run whose steps all meet it, no thread is
about to enter a fiber in `TERM` or `EXCEPT`, and the assertion at the end of `MainFunc` does not
fail.
-/
import Sylar.Scheduler.Exclusive

namespace Sylar.Scheduler

variable {ι : Type} [DecidableEq ι]

/-- The post-switch code of the job's branch reads or writes the state. -/
@[grind]
def Job.Settles : Job → Prop
  | .callback _ | .idle => True
  | .direct _ | .fiber _ => False

instance : DecidablePred Job.Settles
  | .callback _ | .idle => isTrue trivial
  | .direct _ | .fiber _ => isFalse id

namespace Pc

/-- Thread `t` is past the guard for `r`, and not finished with it. -/
@[grind]
def InHand (t : ι) (r : Ref ι) : Pc → Prop
  | .swapIn j | .setExec j | .inside j | .leaving j _ | .settle j _ => j.ref t = r
  | .post j => j.ref t = r ∧ j.Settles
  | _ => False

instance (t : ι) (r : Ref ι) : DecidablePred (InHand t r)
  | .swapIn j | .setExec j | .inside j | .leaving j _ | .settle j _ =>
      inferInstanceAs (Decidable (j.ref t = r))
  | .post j => inferInstanceAs (Decidable (j.ref t = r ∧ j.Settles))
  | .outside | .scan | .dispatch _ | .finished => isFalse id

/-- Thread `t` counts on `r` not having reached its end: it will enter it, is in it, or will set it
to `HOLD`. -/
@[grind]
def Live (t : ι) (r : Ref ι) : Pc → Prop
  | .swapIn j | .setExec j | .inside j | .settle j .hold => j.ref t = r
  | .leaving j .entry | .leaving j .atReady | .leaving j .atHold => j.ref t = r
  | _ => False

/-- Thread `t` has written `TERM` or `EXCEPT` and is at the last `swapOut` of `r`. -/
@[grind]
def Ending (t : ι) (r : Ref ι) : Pc → Prop
  | .leaving j .ended => j.ref t = r
  | _ => False

end Pc

namespace Sched

/-! ## The condition -/

/-- The fiber thread `t` is in. -/
def current (s : Sched ι) (t : ι) : Option (Ref ι) :=
  match s.pc t with
  | .inside j => some (j.ref t)
  | _ => none

/-- No other thread has `r` in hand. -/
def Alone (s : Sched ι) (t : ι) (r : Ref ι) : Prop := ∀ u, u ≠ t → ¬ (s.pc u).InHand u r

/-- Nothing will resume `r` when `t` has left it: no entry names it, and no other thread has taken
one that does or has it in hand. -/
def Unclaimed (s : Sched ι) (t : ι) (r : Ref ι) : Prop :=
  (∀ ft ∈ s.m_fibers, ft.fiber.map Ref.shared ≠ some r) ∧
    ∀ u, u ≠ t → ¬ (s.pc u).Has u r ∧ ¬ (s.pc u).InHand u r

/-- A fiber ends, and a callback is put on a `cb_fiber`, only when nobody else has the fiber; none is
scheduled, or resumed from outside `run`, once it has ended; and no idle function throws. -/
def EndsAlone (s : Sched ι) : Act ι → Prop
  | .schedule ft => ∀ f ∈ ft.fiber, ¬ Fiber.Ended (s.state f)
  | .dispatch t => ∀ f ∈ s.reuses t, s.Alone t (.shared f)
  | .swapIn _ f => ¬ Fiber.Ended (s.state f)
  | .move t .finish => ∀ r ∈ s.current t, s.Unclaimed t r
  | .move t .throw => ∀ r ∈ s.current t, r ≠ .idle t ∧ s.Unclaimed t r
  | _ => True

instance [Fintype ι] (s : Sched ι) (t : ι) (r : Ref ι) : Decidable (s.Alone t r) :=
  inferInstanceAs (Decidable (∀ u, u ≠ t → ¬ (s.pc u).InHand u r))

instance [Fintype ι] (s : Sched ι) (t : ι) (r : Ref ι) : Decidable (s.Unclaimed t r) :=
  inferInstanceAs (Decidable ((∀ ft ∈ s.m_fibers, ft.fiber.map Ref.shared ≠ some r) ∧
    ∀ u, u ≠ t → ¬ (s.pc u).Has u r ∧ ¬ (s.pc u).InHand u r))

instance [Fintype ι] (s : Sched ι) : DecidablePred (EndsAlone s)
  | .schedule ft => inferInstanceAs (Decidable (∀ f ∈ ft.fiber, ¬ Fiber.Ended (s.state f)))
  | .dispatch t => inferInstanceAs (Decidable (∀ f ∈ s.reuses t, s.Alone t (.shared f)))
  | .swapIn _ f => inferInstanceAs (Decidable (¬ Fiber.Ended (s.state f)))
  | .move t .finish => inferInstanceAs (Decidable (∀ r ∈ s.current t, s.Unclaimed t r))
  | .move t .throw =>
      inferInstanceAs (Decidable (∀ r ∈ s.current t, r ≠ .idle t ∧ s.Unclaimed t r))
  | .move _ .yieldToReady | .move _ .yieldToHold | .move _ .swapOut | .enterRun _ | .scan _
  | .assertState _ | .setExec _ | .switchBack _ | .readState _ | .settle _ | .newFiber _ =>
      isTrue trivial

/-! ## The invariant -/

/-- What keeps ended fibers from being resumed. -/
structure Alive (s : Sched ι) : Prop where
  /-- What is queued has not ended. -/
  queued : ∀ ft ∈ s.m_fibers, ∀ f, ft.fiber = some f → ¬ Fiber.Ended (s.state f)
  /-- Nor has what has been taken, or is about to be put back. -/
  taken : ∀ t ft f, s.pc t = .dispatch ft → ft.fiber = some f → ¬ Fiber.Ended (s.state f)
  requeued : ∀ t f, s.pc t = .settle (.callback f) .requeue → ¬ Fiber.Ended (s.state f)
  idle : ∀ t, (s.fibers (.idle t)).m_state ≠ .except
  /-- Past the guard the fiber has not ended. -/
  guard : ∀ t j, s.pc t = .swapIn j ∨ s.pc t = .setExec j →
    ¬ Fiber.Ended (s.fibers (j.ref t)).m_state
  /-- A fiber a thread counts on is not at its end. -/
  live : ∀ t r, (s.pc t).Live t r → (s.fibers r).m_ctx ≠ .ended
  /-- A fiber at its end is in `TERM` or `EXCEPT`. -/
  ended : ∀ r, (s.fibers r).m_ctx = .ended → Fiber.Ended (s.fibers r).m_state
  /-- So is one on its way there, and no other thread has it in hand. -/
  last : ∀ t r, (s.pc t).Ending t r → Fiber.Ended (s.fibers r).m_state ∧ s.Alone t r
  noFault : s.fault ≠ some .neverReach

variable {tid : ι → Int} {s s' : Sched ι}

omit [DecidableEq ι] in
theorem inHand_of_live {t : ι} {r : Ref ι} {pc : Pc} (h : pc.Live t r) : pc.InHand t r := by
  cases pc with
  | swapIn j | setExec j | inside j => exact h
  | leaving j c =>
      cases c with
      | entry | atReady | atHold => exact h
      | ended => exact h.elim
  | settle j todo =>
      cases todo with
      | hold => exact h
      | requeue | recycle => exact h.elim
  | outside | scan | dispatch | post | finished => exact h.elim

omit [DecidableEq ι] in
/-- What a dispatch resumes has not ended, and the fiber it uses again is nobody else's. -/
theorem dispatch_cond {t : ι} {ft : FiberAndThread} (hs : Alive s) (hc : EndsAlone s (.dispatch t))
    (hpc : s.pc t = .dispatch ft) :
    (∀ f, ft.fiber = some f → ¬ Fiber.Ended (s.fibers (.shared f)).m_state) ∧
      (s.fibers (.idle t)).m_state ≠ .except ∧
      ∀ f cb, ft.fiber = none → ft.cb = some cb → s.cb_fiber t = some f →
        s.Alone t (.shared f) := by
  refine ⟨fun f hf => hs.taken t ft f hpc hf, hs.idle t, ?_⟩
  intro f cb hf hcb hcbf
  exact hc f (by simp [reuses, hpc, hf, hcb, hcbf])

omit [DecidableEq ι] in
/-- A fiber ends only when it is unclaimed, and it is no idle fiber that throws. -/
theorem leave_cond {t : ι} {j : Job} {m : Move} (hpc : s.pc t = .inside j)
    (hc : EndsAlone s (.move t m)) :
    (m = .finish ∨ m = .throw → s.Unclaimed t (j.ref t)) ∧ (m = .throw → j.ref t ≠ .idle t) := by
  have hcur : j.ref t ∈ s.current t := by simp [current, hpc]
  refine ⟨?_, ?_⟩
  · rintro (rfl | rfl)
    · exact hc _ hcur
    · exact (hc _ hcur).2
  · rintro rfl
    exact (hc _ hcur).1

/-- A fiber ends by the `finish` or the `throw` of a thread that is in it, and by nothing else. -/
theorem ended_by {a : Act ι} (h : Steps tid s a s') {r : Ref ι}
    (hr : Fiber.Ended (s'.fibers r).m_state) : Fiber.Ended (s.fibers r).m_state ∨
      ∃ t j m, a = .move t m ∧ s.pc t = .inside j ∧ j.ref t = r ∧ (m = .finish ∨ m = .throw) := by
  by_cases hold : Fiber.Ended (s.fibers r).m_state
  · exact .inl hold
  · right
    cases h with
    | @leave t j m g c hpc hl =>
        have hrt : j.ref t = r := by
          by_contra hne
          refine hold ?_
          simpa [Ne.symm hne] using hr
        refine ⟨t, j, m, rfl, hpc, hrt, ?_⟩
        cases hl with
        | finish => exact .inl rfl
        | throw => exact .inr rfl
        | ready hj | hold hj hst | idle hj => grind [Fiber.Ended]
    | _ => grind [Fiber.Ended]

/-- A step by which `r` ends is taken by a thread that is alone with it. -/
theorem unclaimed_of_end {a : Act ι} (hc : EndsAlone s a) (h : Steps tid s a s') {r : Ref ι}
    (hold : ¬ Fiber.Ended (s.fibers r).m_state) (hr : Fiber.Ended (s'.fibers r).m_state) :
    ∃ t j m, a = .move t m ∧ s.pc t = .inside j ∧ j.ref t = r ∧ s.Unclaimed t r ∧
      (m = .throw → r ≠ .idle t) := by
  obtain hr | ⟨t, j, m, rfl, hpc, rfl, hm⟩ := ended_by h hr
  · exact absurd hr hold
  · obtain ⟨hlone, hidle⟩ := leave_cond hpc hc
    exact ⟨t, j, m, rfl, hpc, rfl, hlone hm, hidle⟩

theorem queued_unended {a : Act ι} (hs : Alive s) (hc : EndsAlone s a) (h : Steps tid s a s') :
    ∀ ft ∈ s'.m_fibers, ∀ f, ft.fiber = some f → ¬ Fiber.Ended (s'.state f) := by
  intro ft hft f hf hended
  have hbefore : ¬ Fiber.Ended (s.state f) := by
    rcases queue_back h hft with hold | rfl | ⟨t, g, rfl, hpc, rfl⟩
    · exact hs.queued ft hold f hf
    · exact hc f hf
    · obtain rfl : g = f := Option.some.inj hf
      exact hs.requeued t g hpc
  -- so it ends by this step, which leaves the queue alone and finds no such entry there
  obtain ⟨t, j, m, rfl, -, -, hclaim, -⟩ := unclaimed_of_end hc h hbefore hended
  rcases queue_back h hft with hold | hsch | ⟨u, g, hset, -⟩
  · exact hclaim.1 ft hold (by rw [hf]; rfl)
  · cases hsch
  · cases hset

theorem taken_unended {a : Act ι} (hs : Alive s) (hc : EndsAlone s a) (h : Steps tid s a s') :
    ∀ t ft f, s'.pc t = .dispatch ft → ft.fiber = some f → ¬ Fiber.Ended (s'.state f) := by
  intro u ft f hu hf hended
  have hbefore : ¬ Fiber.Ended (s.state f) := by
    rcases took_back h hu with hold | rfl | ⟨hft, -⟩
    · exact hs.taken u ft f hold hf
    · cases hf
    · exact hs.queued ft hft f hf
  obtain ⟨t, j, m, rfl, hpc, -, hclaim, -⟩ := unclaimed_of_end hc h hbefore hended
  have hsame : s.pc u = .dispatch ft := by
    cases h with
    | leave hpc' hl => grind
    | yieldFail => exact hu
  have hne : u ≠ t := by
    rintro rfl
    rw [hpc] at hsame
    cases hsame
  refine (hclaim.2 u hne).1 ?_
  rw [hsame]
  exact congrArg (Option.map Ref.shared) hf

theorem requeued_unended {a : Act ι} (hs : Alive s) (hc : EndsAlone s a) (h : Steps tid s a s') :
    ∀ t f, s'.pc t = .settle (.callback f) .requeue → ¬ Fiber.Ended (s'.state f) := by
  intro u f hu hended
  by_cases hold : s.pc u = .settle (.callback f) .requeue
  · obtain ⟨t, j, m, rfl, hpc, -, hclaim, -⟩ :=
      unclaimed_of_end hc h (hs.requeued u f hold) hended
    have hne : u ≠ t := by
      rintro rfl
      rw [hpc] at hold
      cases hold
    exact (hclaim.2 u hne).2 (by rw [hold]; rfl)
  · -- it has just been read, and was `READY`
    cases h with
    | @callback t g hpc =>
        have hready : callbackTodo (s.state f) = .requeue → s.state f = .ready := by
          unfold callbackTodo
          split
          · exact fun _ => by assumption
          · split <;> nofun
        grind [Fiber.Ended, state]
    | _ => grind

theorem idle_unended {a : Act ι} (hs : Alive s) (hc : EndsAlone s a) (h : Steps tid s a s') :
    ∀ t, (s'.fibers (.idle t)).m_state ≠ .except := by
  intro u hexc
  have hold := hs.idle u
  cases h with
  | @leave t j m g c hpc hl =>
      have hidle := (leave_cond hpc hc).2
      have hown : j.ref t = .idle u → u = t := by
        cases j <;> simp_all [Job.ref]
      cases hl <;> grind
  | _ => grind

theorem guard_step {a : Act ι} (hs : Alive s) (hc : EndsAlone s a) (h : Steps tid s a s') :
    ∀ t j, s'.pc t = .swapIn j ∨ s'.pc t = .setExec j →
      ¬ Fiber.Ended (s'.fibers (j.ref t)).m_state := by
  intro u j hu
  have hold := hs.guard u j
  cases h with
  | fiber hpc hf =>
      have := dispatch_cond hs hc hpc
      grind [Job.ref]
  | reuse hpc hf hcb hcbf hres => grind [Job.ref, Fiber.Ended]
  | fresh hpc hf hcb => grind [Job.ref, Fiber.Ended]
  | newFiber => grind [Job.ref, Fiber.Ended]
  | enterRun hpc => grind [Fiber.Ended]
  | idle hpc hf hcb hst =>
      have := dispatch_cond hs hc hpc
      grind [Job.ref, Fiber.Ended]
  | @leave t k m g c hpc hl =>
      have hlone := (leave_cond hpc hc).1
      cases hl <;> grind [Unclaimed, Fiber.Ended]
  | swapIn hpc hlt => grind [Job.ref, EndsAlone, state]
  | _ => grind [Fiber.Ended]

theorem ended_step {a : Act ι} (hs : Alive s) (h : Steps tid s a s') :
    ∀ r, (s'.fibers r).m_ctx = .ended → Fiber.Ended (s'.fibers r).m_state := by
  intro r hr
  have hold := hs.ended r
  have hlive : ∀ t, (s.pc t).Live t r → (s.fibers r).m_ctx ≠ .ended := fun t => hs.live t r
  have hlast : ∀ t, (s.pc t).Ending t r → Fiber.Ended (s.fibers r).m_state := fun t ht =>
    (hs.last t r ht).1
  cases h with
  | leave hpc hl => cases hl <;> grind [Fiber.Ended]
  | @switchBack t j c hpc => cases c <;> grind
  | _ => grind

theorem live_step {a : Act ι} (hs : Alive s) (hc : EndsAlone s a) (h : Steps tid s a s') :
    ∀ t r, (s'.pc t).Live t r → (s'.fibers r).m_ctx ≠ .ended := by
  intro u r hu
  have hold := hs.live u r
  have hended := hs.ended r
  cases h with
  | fiber hpc hf =>
      have := dispatch_cond hs hc hpc
      grind [Job.ref]
  | idle hpc hf hcb hst =>
      have := dispatch_cond hs hc hpc
      grind [Job.ref, Fiber.Ended]
  | leave hpc hl => cases hl <;> grind
  | @switchBack t j c hpc =>
      -- the thread that saves the end is the only one with the fiber in hand
      have hlast := hs.last t r
      have hhand : u ≠ t → (s.pc u).Live u r → (s.pc u).InHand u r := fun _ => inHand_of_live
      cases c <;> grind [Alone]
  | callback hpc => grind [callbackTodo, state, Fiber.Ended, Job.ref]
  | swapIn hpc hlt => grind [Job.ref, EndsAlone, state]
  | _ => grind [Job.ref]

omit [DecidableEq ι] in
theorem inHand_of_ending {t : ι} {r : Ref ι} {pc : Pc} (h : pc.Ending t r) : pc.InHand t r := by
  cases pc with
  | leaving j c =>
      cases c with
      | ended => exact h
      | entry | atReady | atHold => exact h.elim
  | _ => exact h.elim

omit [DecidableEq ι] in
/-- Only its own thread has an idle fiber in hand. -/
theorem eq_of_inHand_idle {t u : ι} {pc : Pc} (h : pc.InHand u (.idle t)) : u = t := by
  have hjob : ∀ j : Job, j.ref u = .idle t → u = t := by
    intro j hj
    cases j <;> simp_all [Job.ref]
  cases pc with
  | swapIn j | setExec j | inside j | leaving j c | settle j todo => exact hjob j h
  | post j => exact hjob j h.1
  | outside | scan | dispatch | finished => exact h.elim

omit [DecidableEq ι] in
theorem lt_of_inHand (hwf : WF s) {t : ι} {f : Nat} (h : (s.pc t).InHand t (.shared f)) :
    f < s.nextFiber := by
  refine hwf.pc t f ?_
  have hjob : ∀ j : Job, j.ref t = .shared f → j.fiber? = some f := by
    intro j hj
    cases j <;> simp_all [Job.ref, Job.fiber?]
  cases hpc : s.pc t with
  | swapIn j | setExec j | inside j | leaving j c | settle j todo =>
      rw [hpc] at h
      exact hjob j h
  | post j =>
      rw [hpc] at h
      exact hjob j h.1
  | outside | scan | dispatch | finished =>
      rw [hpc] at h
      exact h.elim

/-- A fiber on its way to its end: nobody else takes it in hand. -/
theorem alone_step {a : Act ι} (hwf : WF s) (hs : Alive s) (hc : EndsAlone s a)
    (h : Steps tid s a s') {u : ι} {r : Ref ι} (hu : (s.pc u).Ending u r) : s'.Alone u r := by
  obtain ⟨hst, halone⟩ := hs.last u r hu
  intro v hv hin
  have hnot : ¬ (s.pc v).InHand v r := halone v hv
  have hidle : r ≠ .idle v := by
    rintro rfl
    exact hv (eq_of_inHand_idle (inHand_of_ending hu)).symm
  cases h with
  | fiber hpc hf =>
      have := dispatch_cond hs hc hpc
      grind [Job.ref]
  | @reuse t ft cb f hpc hf hcb hcbf hres =>
      have := dispatch_cond hs hc hpc
      have := inHand_of_ending hu
      grind [Job.ref, Alone]
  | fresh hpc hf hcb =>
      have := lt_of_inHand (f := s.nextFiber) (t := u) hwf
      have := inHand_of_ending hu
      grind [Job.ref]
  | swapIn hpc hlt => grind [Job.ref, EndsAlone, state]
  | _ => grind [Job.ref]

/-- … and nobody else writes it. -/
theorem still_ended {a : Act ι} (hwf : WF s) (hs : Alive s) (hc : EndsAlone s a)
    (h : Steps tid s a s') {u : ι} {r : Ref ι} (hu : (s.pc u).Ending u r) :
    Fiber.Ended (s'.fibers r).m_state := by
  obtain ⟨hst, halone⟩ := hs.last u r hu
  have hin := inHand_of_ending hu
  have hnot : ∀ t, t ≠ u → ¬ (s.pc t).InHand t r := halone
  cases h with
  | @enterRun t hpc =>
      have hidle : r ≠ .idle t := by
        rintro rfl
        obtain rfl := eq_of_inHand_idle hin
        rw [hpc] at hin
        exact hin
      grind
  | @reuse t ft cb f hpc hf hcb hcbf hres =>
      have := dispatch_cond hs hc hpc
      grind [Alone]
  | fresh hpc hf hcb =>
      have := lt_of_inHand (f := s.nextFiber) (t := u) hwf
      grind
  | newFiber =>
      have := lt_of_inHand (f := s.nextFiber) (t := u) hwf
      grind
  | leave hpc hl => grind
  | _ => grind

theorem last_step {a : Act ι} (hwf : WF s) (hs : Alive s) (hc : EndsAlone s a)
    (h : Steps tid s a s') :
    ∀ t r, (s'.pc t).Ending t r → Fiber.Ended (s'.fibers r).m_state ∧ s'.Alone t r := by
  intro u r hu
  by_cases hold : (s.pc u).Ending u r
  · exact ⟨still_ended hwf hs hc h hold, alone_step hwf hs hc h hold⟩
  · cases h with
    | @leave t j m g c hpc hl =>
        have hlone := (leave_cond hpc hc).1
        cases hl <;> grind [Alone, Unclaimed, Fiber.Ended]
    | _ => exact (by grind : False).elim

theorem alive_step {a : Act ι} (hwf : WF s) (hs : Alive s) (hc : EndsAlone s a)
    (h : Steps tid s a s') : Alive s' where
  queued := queued_unended hs hc h
  taken := taken_unended hs hc h
  requeued := requeued_unended hs hc h
  idle := idle_unended hs hc h
  guard := guard_step hs hc h
  live := live_step hs hc h
  ended := ended_step hs h
  last := last_step hwf hs hc h
  noFault := by
    have hold := hs.noFault
    cases h with
    | @never t j hpc hctx => exact absurd hctx (hs.live t _ (by rw [hpc]; rfl))
    | hold hpc ho => simpa using hold
    | _ => simp [hold]

theorem alive_of_reachable (hs : (scheduler tid).ReachableWhen EndsAlone s) : Alive s := by
  refine Lib.System.ReachableWhen.invariant_of (P := Alive) (Q := WF)
    (fun s hr => wf_of_reachable hr.reachable) ?_
    (fun s a s' hwf ha hc h => alive_step hwf ha hc (steps h).2) hs
  rintro s rfl
  exact
    { queued := fun ft h => by cases h
      taken := fun t ft f h => by cases h
      requeued := fun t f h => by cases h
      idle := fun t h => by cases h
      guard := fun t j h => by cases h <;> rename_i h <;> cases h
      live := fun t r h => h.elim
      ended := fun r h => by cases h
      last := fun t r h => h.elim
      noFault := by simp [initial] }

/-- **Finished fibers stay finished.**  In a run in which a fiber ends only when no entry names it and
no other thread has it, nobody schedules one that has ended or resumes it from outside `run`,
`cb_fiber` is used again only when no other thread has it, and no idle function throws, no thread is
about to enter a fiber in `TERM` or `EXCEPT`, and the assertion at the end of `MainFunc` has not
failed. -/
theorem never_resumed (hs : (scheduler tid).ReachableWhen EndsAlone s) :
    (∀ t j, s.pc t = .swapIn j → ¬ Fiber.Ended (s.fibers (j.ref t)).m_state) ∧
      s.fault ≠ some .neverReach :=
  ⟨fun t j h => (alive_of_reachable hs).guard t j (.inl h), (alive_of_reachable hs).noFault⟩

/-- A queued fiber runs to its end, and the worker goes idle. -/
def endRun : List (Act Bool) :=
  [.newFiber (some 1), .schedule ⟨some 0, none, -1⟩, .enterRun true, .scan true, .dispatch true,
    .assertState true, .setExec true, .move true .finish, .switchBack true, .readState true,
    .scan true, .dispatch true]

theorem never_resumed_run :
    let s := ((scheduler twoThreads).exec .initial endRun).get (by decide)
    (∀ t j, s.pc t = .swapIn j → ¬ Fiber.Ended (s.fibers (j.ref t)).m_state) ∧
      s.fault ≠ some .neverReach :=
  never_resumed (Lib.System.ReachableWhen.exec (.init rfl) (l := endRun) (by decide)
    (Option.some_get _).symm)

/-- A fiber is scheduled twice and ends before its second entry is taken. -/
def resumedRun : List (Act Bool) :=
  [.newFiber (some 1), .schedule ⟨some 0, none, -1⟩, .schedule ⟨some 0, none, -1⟩,
    .enterRun true, .scan true, .dispatch true, .assertState true, .setExec true,
    .move true .finish, .switchBack true, .readState true, .scan true, .dispatch true]

/-- **Resumed after the end**: `swapIn` is called on a fiber in `TERM`, and two steps later the
`never reach` assertion fails. -/
theorem resumed_after_end :
    ∃ s, (scheduler twoThreads).Reachable s ∧ s.pc true = .swapIn (.fiber 0) ∧
      (s.fibers (.shared 0)).m_state = .term ∧
      ∃ s', (scheduler twoThreads).exec s [.assertState true, .setExec true] = some s' ∧
        s'.fault = some .neverReach := by
  have hend : let s := ((scheduler twoThreads).exec .initial resumedRun).get (by decide)
      s.pc true = .swapIn (.fiber 0) ∧ (s.fibers (.shared 0)).m_state = .term := by decide
  refine ⟨_, Lib.System.reachable_of_exec (s := Sched.initial) (l := resumedRun) rfl
    (Option.some_get (by decide)).symm, hend.1, hend.2, _, (Option.some_get (by decide)).symm, ?_⟩
  decide

end Sched

end Sylar.Scheduler
