/-
# Sylar.Scheduler.Suspend — the state a suspended fiber is left in.

`YieldToHold` asserts `EXEC` and writes nothing: the line `m_state = HOLD` is commented out.  Of the
three ways back only the callback and the idle branch of `run` write `HOLD` afterwards; behind a
direct `swapIn` and behind a queued fiber there is no such code, and the fiber stays in `EXEC`
(`left_in_exec`).  And where `HOLD` is written it is written late: between the switch back and that
write nobody is in the fiber, its state is still `EXEC`, and a queue entry for it is passed over as
if it were running.

`suspended_settled`: when every `YieldToHold` is made by a fiber of the callback branch, a fiber in
`EXEC` always has a thread that has not finished with it; if moreover no step disturbs the exclusion
of `Sylar.Scheduler.Exclusive`, a fiber suspended there is in `HOLD` once everyone has; and if no
queue entry names a fiber that is between its switch back and `HOLD`, and no direct `swapIn` is made
of one (`Unwoken`), then the assertion of `swapIn` holds and a scan passes over no fiber but those
that a thread is running.
-/
import Sylar.Scheduler.Exclusive

namespace Sylar.Scheduler

variable {ι : Type} [DecidableEq ι]

/-- The branch of the job writes the state after the switch. -/
@[grind]
def Job.WritesState : Job → Prop
  | .callback _ | .idle => True
  | .direct _ | .fiber _ => False

instance : DecidablePred Job.WritesState
  | .callback _ | .idle => isTrue trivial
  | .direct _ | .fiber _ => isFalse id

namespace Pc

/-- Thread `t` has entered `r`, and its bookkeeping for `r` is not finished. -/
@[grind]
def Handles (t : ι) (r : Ref ι) : Pc → Prop
  | .setExec j | .inside j | .leaving j _ | .post j | .settle j _ => j.ref t = r
  | _ => False

instance (t : ι) (r : Ref ι) : DecidablePred (Handles t r)
  | .setExec j | .inside j | .leaving j _ | .post j | .settle j _ =>
      inferInstanceAs (Decidable (j.ref t = r))
  | .outside | .scan | .dispatch _ | .swapIn _ | .finished => isFalse id

/-- Thread `t` will still take `r` out of `EXEC`: it is inside, or on its way to write `HOLD`. -/
@[grind]
def Owes (t : ι) (r : Ref ι) : Pc → Prop
  | .setExec j | .inside j | .settle j .hold => j.ref t = r
  | .leaving j .atHold | .post j => j.ref t = r ∧ j.WritesState
  | _ => False

/-- Thread `t` is leaving `r` for another place than a `YieldToHold`. -/
@[grind]
def Elsewhere (t : ι) (r : Ref ι) : Pc → Prop
  | .leaving j .entry | .leaving j .atReady | .leaving j .ended => j.ref t = r
  | _ => False

omit [DecidableEq ι] in
theorem handles_of_elsewhere {t : ι} {r : Ref ι} {pc : Pc} (h : pc.Elsewhere t r) :
    pc.Handles t r := by
  cases pc with
  | leaving j c =>
      cases c with
      | atHold => exact h.elim
      | entry | atReady | ended => exact h
  | _ => exact h.elim

/-- Thread `t` is back from `r`, and its bookkeeping for `r` may be to write `HOLD`. -/
@[grind]
def Back (t : ι) (r : Ref ι) : Pc → Prop
  | .post j => j.ref t = r ∧ j.WritesState
  | .settle j .hold => j.ref t = r
  | _ => False

/-- Thread `t` has taken `r`, and has not written `EXEC`. -/
@[grind]
def Entering (t : ι) (r : Ref ι) : Pc → Prop
  | .dispatch ft => ft.fiber.map Ref.shared = some r
  | .swapIn j | .setExec j => j.ref t = r
  | _ => False

instance (t : ι) (r : Ref ι) : DecidablePred (Back t r)
  | .post j => inferInstanceAs (Decidable (j.ref t = r ∧ j.WritesState))
  | .settle j .hold => inferInstanceAs (Decidable (j.ref t = r))
  | .settle _ .requeue | .settle _ .recycle | .outside | .scan | .dispatch _ | .swapIn _
  | .setExec _ | .inside _ | .leaving _ _ | .finished => isFalse id

omit [DecidableEq ι] in
theorem has_of_entering {t : ι} {r : Ref ι} {pc : Pc} (h : pc.Entering t r) : pc.Has t r := by
  cases pc with
  | dispatch ft => exact h
  | swapIn j | setExec j => exact h
  | outside | scan | inside | leaving | post | settle | finished => exact h.elim

/-- Inside a fiber of the callback branch. -/
def inCallback : Pc → Bool
  | .inside (.callback _) => true
  | _ => false

end Pc

namespace Sched

/-- A `YieldToHold` is made by a fiber of the callback branch. -/
def ByCallback (s : Sched ι) : Act ι → Prop
  | .move t .yieldToHold => (s.pc t).inCallback = true
  | _ => True

instance (s : Sched ι) : DecidablePred (ByCallback s)
  | .move t .yieldToHold => inferInstanceAs (Decidable ((s.pc t).inCallback = true))
  | .move _ .yieldToReady | .move _ .swapOut | .move _ .finish | .move _ .throw | .enterRun _
  | .scan _ | .dispatch _ | .assertState _ | .setExec _ | .switchBack _ | .readState _ | .settle _
  | .schedule _ | .newFiber _ | .swapIn _ _ => isTrue trivial

/-- Fiber `r` is in `EXEC`, and a thread is between the switch back from it and the write of `HOLD`. -/
def Late (s : Sched ι) (r : Ref ι) : Prop :=
  (s.fibers r).m_state = .exec ∧ ∃ t, (s.pc t).Back t r

/-- The fiber thread `t` is about to put back into the queue. -/
def requeues (s : Sched ι) (t : ι) : Option Nat :=
  match s.pc t with
  | .settle (.callback f) .requeue => some f
  | _ => none

/-- The fiber of the callback branch that thread `t` is about to leave at a `YieldToHold`. -/
def suspends (s : Sched ι) (t : ι) : Option Nat :=
  match s.pc t with
  | .leaving (.callback f) .atHold => some f
  | _ => none

/-- No queue entry names a fiber between its switch back and `HOLD`: none is there when it switches
back, and none is made until `HOLD` is written.  Nor is such a fiber resumed directly. -/
def Unwoken (s : Sched ι) : Act ι → Prop
  | .switchBack t => ∀ f ∈ s.suspends t, ∀ ft ∈ s.m_fibers, ft.fiber ≠ some f
  | .schedule ft => ∀ f ∈ ft.fiber, ¬ s.Late (.shared f)
  | .settle t => ∀ f ∈ s.requeues t, ¬ s.Late (.shared f)
  | .swapIn _ f => ¬ s.Late (.shared f)
  | _ => True

instance [Fintype ι] (s : Sched ι) (r : Ref ι) : Decidable (s.Late r) :=
  inferInstanceAs (Decidable ((s.fibers r).m_state = .exec ∧ ∃ t, (s.pc t).Back t r))

instance [Fintype ι] (s : Sched ι) : DecidablePred (Unwoken s)
  | .switchBack t => inferInstanceAs (Decidable
      (∀ f ∈ s.suspends t, ∀ ft ∈ s.m_fibers, ft.fiber ≠ some f))
  | .schedule ft => inferInstanceAs (Decidable (∀ f ∈ ft.fiber, ¬ s.Late (.shared f)))
  | .settle t => inferInstanceAs (Decidable (∀ f ∈ s.requeues t, ¬ s.Late (.shared f)))
  | .swapIn _ f => inferInstanceAs (Decidable (¬ s.Late (.shared f)))
  | .enterRun _ | .scan _ | .dispatch _ | .assertState _ | .setExec _ | .move _ _ | .readState _
  | .newFiber _ => isTrue trivial

variable {tid : ι → Int} {s s' : Sched ι}

/-! ## `EXEC` has an owner -/

omit [DecidableEq ι] in
theorem handles_of_owes {t : ι} {r : Ref ι} {pc : Pc} (h : pc.Owes t r) : pc.Handles t r := by
  cases pc with
  | setExec j | inside j => exact h
  | leaving j c =>
      cases c with
      | atHold => exact h.1
      | entry | atReady | ended => exact h.elim
  | post j => exact h.1
  | settle j todo =>
      cases todo with
      | hold => exact h
      | requeue | recycle => exact h.elim
  | outside | scan | dispatch | swapIn | finished => exact h.elim

omit [DecidableEq ι] in
/-- A job inside which `YieldToHold` was admitted, or which left by the bare `swapOut`. -/
theorem books_of_hold {t : ι} {j : Job} {m : Move} {f g : Fiber} (hpc : s.pc t = .inside j)
    (hc : ByCallback s (.move t m)) (hl : Leaves j f m g .atHold) : j.WritesState := by
  cases hl with
  | hold hj _ =>
      simp only [ByCallback, hpc] at hc
      cases j with
      | callback f => trivial
      | direct | fiber | idle => cases hc
  | idle hj => rw [hj]; trivial

/-- Whoever owed `EXEC` before the step still does, or has written another state. -/
theorem owed_step {a : Act ι} (hs : ∀ r, (s.fibers r).m_state = .exec → ∃ t, (s.pc t).Owes t r)
    (hc : ByCallback s a) (h : Steps tid s a s') :
    ∀ r, (s'.fibers r).m_state = .exec → ∃ t, (s'.pc t).Owes t r := by
  intro r hr
  by_cases hst : (s.fibers r).m_state = .exec
  · obtain ⟨u, hu⟩ := hs r hst
    refine ⟨u, ?_⟩
    cases h with
    | @leave t j m g c hpc hl =>
        by_cases hut : u = t
        · subst hut
          have hbooks : c = .atHold → j.WritesState := by
            rintro rfl
            exact books_of_hold hpc hc hl
          cases hl <;> grind
        · grind
    | @callback t f hpc =>
        have htodo : callbackTodo .exec = .hold := rfl
        have href : (Job.callback f).ref t = .shared f := rfl
        grind [state]
    | @done t j pc hpc hpc' hcb hidle => cases j <;> grind [Fiber.Ended, Job.ref]
    | @switchBack t j c hpc => cases c <;> grind
    | _ => grind [Job.ref]
  · -- only `swapIn` writes `EXEC`
    cases h with
    | @exec t j hpc hctx => exact ⟨t, by grind⟩
    | @never t j hpc hctx => exact ⟨t, by grind⟩
    | @leave t j m g c hpc hl => cases hl <;> grind
    | _ => grind

theorem owed_of_reachable (hs : (scheduler tid).ReachableWhen ByCallback s) :
    ∀ r, (s.fibers r).m_state = .exec → ∃ t, (s.pc t).Owes t r := by
  refine Lib.System.ReachableWhen.invariant
    (P := fun s => ∀ r, (s.fibers r).m_state = .exec → ∃ t, (s.pc t).Owes t r) ?_ ?_ hs
  · rintro s rfl r hr
    cases hr
  · intro s a s' ih hc h
    exact owed_step ih hc (steps h).2

/-! ## A fiber left at a `YieldToHold` -/

/-- A fiber left at a `YieldToHold` is in `HOLD` or `EXEC`, or a thread is leaving it for another
place. -/
def Parked (s : Sched ι) : Prop :=
  ∀ r, (s.fibers r).m_ctx = .atHold →
    (s.fibers r).m_state = .hold ∨ (s.fibers r).m_state = .exec ∨ ∃ t, (s.pc t).Elsewhere t r

theorem parked_step {a : Act ι} (hex : Exclusive s) (hs : Parked s) (h : Steps tid s a s') :
    Parked s' := by
  intro r hr
  by_cases helse : ∃ u, (s.pc u).Elsewhere u r
  · -- it still is, unless it is the one that steps, and then it saves that place
    obtain ⟨u, hu⟩ := helse
    refine .inr (.inr ⟨u, ?_⟩)
    cases h with
    | @switchBack t j c hpc => cases c <;> grind
    | _ => grind
  · have hold : (s.fibers r).m_ctx = .atHold →
        (s.fibers r).m_state = .hold ∨ (s.fibers r).m_state = .exec := fun h => by
      rcases hs r h with h1 | h1 | h1
      · exact .inl h1
      · exact .inr h1
      · exact absurd h1 helse
    cases h with
    | @leave t j m g c hpc hl =>
        have hexec : (s.pc t).Running t r → (s.fibers r).m_state = .exec := hex.exec t r
        by_cases hrt : r = j.ref t
        · cases hl with
          | ready hj => exact .inr (.inr ⟨t, by grind⟩)
          | hold hj hst => exact .inr (.inl (by grind))
          | idle hj => exact .inr (.inl (by grind))
          | finish | throw => exact .inr (.inr ⟨t, by grind⟩)
        · grind
    | @switchBack t j c hpc =>
        have hexec : (s.pc t).Running t r → (s.fibers r).m_state = .exec := hex.exec t r
        cases c <;> grind
    | _ => grind

theorem parked_of_reachable (hs : (scheduler tid).ReachableWhen (Undisturbed tid) s) :
    Parked s := by
  refine Lib.System.ReachableWhen.invariant_of (P := Parked) (Q := Exclusive)
    (fun s hr => exclusive_of_reachable hr) ?_ (fun s a s' hex hp _ h => parked_step hex hp (steps h).2)
    hs
  rintro s rfl r hr
  cases hr

/-! ## Nobody is passed over, and nobody fails -/

/-- Every fiber in `EXEC` is run by a thread, or one is behind its switch and no entry names it. -/
def Accounted (s : Sched ι) : Prop :=
  ∀ r, (s.fibers r).m_state = .exec → (∃ t, (s.pc t).Running t r) ∨
    (∃ t, (s.pc t).Back t r) ∧ ∀ ft ∈ s.m_fibers, ft.fiber.map Ref.shared ≠ some r

/-- The branch that leaves at a `YieldToHold`, or by the bare `swapOut`, is one that writes `HOLD`. -/
def Returns (s : Sched ι) : Prop := ∀ t j, s.pc t = .leaving j .atHold → j.WritesState

theorem returns_step {a : Act ι} (hs : Returns s) (hc : ByCallback s a) (h : Steps tid s a s') :
    Returns s' := by
  intro u j hu
  have hold := hs u j
  cases h with
  | @leave t k m g c hpc hl =>
      have hbooks : c = .atHold → k.WritesState := by
        rintro rfl
        exact books_of_hold hpc hc hl
      grind
  | _ => grind

/-- **The step lemma** for `EXEC`: who runs the fiber goes on running it or steps back from it, and
then nothing queued names it. -/
theorem accounted_step {a : Act ι} (hr : Returns s) (hs : Accounted s) (hc : Unwoken s a)
    (h : Steps tid s a s') (hfault : s'.fault = none) : Accounted s' := by
  intro r hexec
  by_cases hst : (s.fibers r).m_state = .exec
  · rcases hs r hst with ⟨u, hu⟩ | ⟨⟨u, hu⟩, hq⟩
    · cases h with
      | @leave t j m g c hpc hl =>
          left
          refine ⟨u, ?_⟩
          cases hl <;> grind
      | @switchBack t j c hpc =>
          by_cases hut : u = t
          · subst hut
            have hat : c = .atHold ∧ j.ref u = r := by
              rw [hpc] at hu
              cases c <;> first | exact ⟨rfl, hu⟩ | exact hu.elim
            obtain ⟨rfl, rfl⟩ := hat
            -- it comes back to a branch that writes `HOLD`, and nothing queued names the fiber
            have hw : j.WritesState := hr u j hpc
            refine .inr ⟨⟨u, by grind⟩, fun ft hft => ?_⟩
            cases j with
            | callback f =>
                have hne : ft.fiber ≠ some f := hc f (by simp [suspends, hpc]) ft hft
                simpa [Job.ref] using hne
            | idle => simp [Job.ref]
            | direct | fiber => exact hw.elim
          · exact .inl ⟨u, by grind⟩
      | _ => exact .inl ⟨u, by grind⟩
    · have hlate : ∀ f, r = .shared f → s.Late (.shared f) := by
        rintro f rfl
        exact ⟨hst, u, hu⟩
      refine .inr ⟨⟨u, ?_⟩, ?_⟩
      · cases h with
        | @leave t j m g c hpc hl => cases hl <;> grind
        | @callback t f hpc =>
            have htodo : callbackTodo .exec = .hold := rfl
            have href : (Job.callback f).ref t = .shared f := rfl
            grind [state]
        | @done t j pc hpc hpc' hcb hidle => cases j <;> grind [Fiber.Ended, Job.ref]
        | _ => grind [Job.ref]
      · intro ft hft hname
        -- an entry for it would be one that was there, or one made while it is late
        obtain ⟨f, hf, rfl⟩ := Option.map_eq_some_iff.mp hname
        rcases queue_back h hft with hold | rfl | ⟨t, g, rfl, hpc, rfl⟩
        · exact hq ft hold hname
        · exact hc f hf (hlate f rfl)
        · obtain rfl : g = f := Option.some.inj hf
          exact hc g (by simp [requeues, hpc]) (hlate g rfl)
  · -- only `swapIn` writes `EXEC`
    left
    cases h with
    | @exec t j hpc hctx => exact ⟨t, by grind⟩
    | @leave t j m g c hpc hl => cases hl <;> grind
    | @never t j hpc hctx => cases hfault
    | _ => grind

/-- Nobody who has taken a fiber and not entered it has taken one in `EXEC`. -/
def Enterable (s : Sched ι) : Prop :=
  ∀ t r, (s.pc t).Entering t r → (s.fibers r).m_state ≠ .exec

omit [DecidableEq ι] in
theorem eq_of_back_idle {t u : ι} {pc : Pc} (h : pc.Back u (.idle t)) : u = t := by
  have hjob : ∀ j : Job, j.ref u = .idle t → u = t := by
    intro j hj
    cases j <;> simp_all [Job.ref]
  cases pc with
  | post j => exact hjob j h.1
  | settle j todo =>
      cases todo with
      | hold => exact hjob j h
      | requeue | recycle => exact h.elim
  | outside | scan | dispatch | swapIn | setExec | inside | leaving | finished => exact h.elim

omit [DecidableEq ι] in
/-- The idle fiber of a thread that is about to enter it is not in `EXEC`. -/
theorem idle_ready (hs : Accounted s) {t : ι} {ft : FiberAndThread} (hpc : s.pc t = .dispatch ft) :
    (s.fibers (.idle t)).m_state ≠ .exec := by
  intro hexec
  rcases hs _ hexec with ⟨u, hu⟩ | ⟨⟨u, hu⟩, -⟩
  · have hut : u = t := by
      by_contra hne
      exact not_has_idle hne (has_of_running hu)
    subst hut
    rw [hpc] at hu
    exact hu
  · obtain rfl := eq_of_back_idle hu
    rw [hpc] at hu
    exact hu

theorem enterable_step {a : Act ι} (hex : Exclusive s) (hacc : Accounted s) (hs : Enterable s)
    (hu : Undisturbed tid s a) (hc : Unwoken s a) (h : Steps tid s a s') (hfault : s'.fault = none) :
    Enterable s' := by
  intro u r hin
  have hold : (s.pc u).Entering u r → (s.fibers r).m_state ≠ .exec := hs u r
  cases h with
  | @scanTook t ft pre post tk hpc hq hft =>
      by_cases hut : u = t
      · subst hut
        -- what the scan takes is not in `EXEC`
        obtain ⟨f, hf, rfl⟩ : ∃ f, ft.fiber = some f ∧ Ref.shared f = r := by
          simpa [Pc.Entering] using hin
        exact hft.2 f hf
      · grind
  | @scanNone t hpc hnone => grind [FiberAndThread.empty]
  | @idle t ft hpc hf hcb hst =>
      have := idle_ready hacc hpc
      grind [Job.ref]
  | @swapIn t f hpc hlt =>
      have hready : (s.fibers (.shared f)).m_state ≠ .exec := by
        intro hexec
        rcases hacc _ hexec with ⟨v, hv⟩ | ⟨hback, -⟩
        · -- a running fiber is had by someone, and not by a thread outside `run`
          have hvt : v ≠ t := by
            rintro rfl
            rw [hpc] at hv
            exact hv
          exact hu v hvt (has_of_running hv)
        · exact hc ⟨hexec, hback⟩
      grind [Job.ref]
  | @exec t j hpc hctx =>
      -- `EXEC` is written by the one thread that has the fiber
      have hone : (s.pc u).Entering u (j.ref t) → u = t := fun h =>
        hex.one u t _ (Pc.has_of_entering h) (by rw [hpc]; rfl)
      grind
  | @leave t j m g c hpc hl => cases hl <;> grind
  | @never t j hpc hctx => cases hfault
  | _ => grind [Job.ref]

/-- What holds along runs that do not wake a fiber on its way to `HOLD`. -/
structure Clean (s : Sched ι) : Prop where
  accounted : s.fault = none → Accounted s
  enterable : s.fault = none → Enterable s
  returns : Returns s
  noFault : s.fault ≠ some .swapInExec

/-- The conditions under which a suspension is as it should be. -/
def Orderly (tid : ι → Int) (s : Sched ι) (a : Act ι) : Prop :=
  ByCallback s a ∧ Undisturbed tid s a ∧ Unwoken s a

instance [Fintype ι] (tid : ι → Int) (s : Sched ι) : DecidablePred (Orderly tid s) := fun a =>
  inferInstanceAs (Decidable (ByCallback s a ∧ Undisturbed tid s a ∧ Unwoken s a))

theorem clean_step {a : Act ι} (hex : Exclusive s) (hs : Clean s) (hc : Orderly tid s a)
    (hfault : s.fault = none) (h : Steps tid s a s') : Clean s' where
  accounted := accounted_step hs.returns (hs.accounted hfault) hc.2.2 h
  enterable := enterable_step hex (hs.accounted hfault) (hs.enterable hfault) hc.2.1 hc.2.2 h
  returns := returns_step hs.returns hc.1 h
  noFault := by
    have hold := hs.noFault
    cases h with
    | @assertFail t j hpc hexec =>
        exact absurd hexec (hs.enterable hfault t _ (by rw [hpc]; rfl))
    | hold hpc ho => simpa using hold
    | _ => simp [hold]

theorem clean_of_reachable (hs : (scheduler tid).ReachableWhen (Orderly tid) s) : Clean s := by
  refine Lib.System.ReachableWhen.invariant_of (P := Clean) (Q := Exclusive)
    (fun s hr => exclusive_of_reachable (hr.mono fun _ _ h => h.2.1)) ?_ ?_ hs
  · rintro s rfl
    exact
      { accounted := fun _ r h => by cases h
        enterable := fun _ t r h => h.elim
        returns := fun t j h => by cases h
        noFault := by simp [initial] }
  · intro s a s' hex hclean hc h
    obtain ⟨hfault, hsteps⟩ := steps h
    exact clean_step hex hclean hc hfault hsteps

/-! ## Suspension -/

/-- A fiber in `EXEC` has a thread that has not finished with it. -/
def ExecHandled (s : Sched ι) : Prop :=
  ∀ r, (s.fibers r).m_state = .exec → ∃ t, (s.pc t).Handles t r

/-- A fiber left at a `YieldToHold` is in `HOLD` once everyone has finished with it. -/
def HeldInHold (s : Sched ι) : Prop :=
  ∀ r, (s.fibers r).m_ctx = .atHold → (∀ t, ¬ (s.pc t).Handles t r) → (s.fibers r).m_state = .hold

/-- Every thread's scan goes through, and what it passes over on the way to the entry it takes (or to
the end) is pinned to another thread or is a fiber that a thread is running. -/
def SkipsRunning (tid : ι → Int) (s : Sched ι) : Prop :=
  ∀ t, ∃ o pre post tk,
    Scheduler.scan (tid t) s.state s.m_fibers = some (o, pre ++ post, tk) ∧
      s.m_fibers = pre ++ o.toList ++ post ∧ (o = none → post = []) ∧
      ∀ ft ∈ pre, ft.thread ≠ -1 ∧ ft.thread ≠ tid t ∨
        ∃ f u, ft.fiber = some f ∧ (s.pc u).Running u (.shared f)

omit [DecidableEq ι] in
theorem skipsRunning_of_accounted (hq : NonEmpty s.m_fibers) (hs : Accounted s) :
    SkipsRunning tid s := by
  intro t
  obtain ⟨o, pre, post, tk, hscan, hsplit, hend, hpre⟩ :
      ∃ o pre post tk, Scheduler.scan (tid t) s.state s.m_fibers = some (o, pre ++ post, tk) ∧
        s.m_fibers = pre ++ o.toList ++ post ∧ (o = none → post = []) ∧
        ∀ ft ∈ pre, ¬ Eligible (tid t) s.state ft := scan_splits hq
  refine ⟨o, pre, post, tk, hscan, hsplit, hend, fun ft hft => ?_⟩
  have hmem : ft ∈ s.m_fibers := by
    rw [hsplit]
    exact List.mem_append_left _ (List.mem_append_left _ hft)
  by_cases hpin : ft.thread = -1 ∨ ft.thread = tid t
  · right
    -- not eligible and not pinned elsewhere: a fiber in `EXEC`
    have hexec : ∃ f, ft.fiber = some f ∧ s.state f = .exec := by
      by_contra hno
      exact hpre ft hft ⟨hpin, fun f hf hst => hno ⟨f, hf, hst⟩⟩
    obtain ⟨f, hf, hst⟩ := hexec
    rcases hs (.shared f) hst with ⟨u, hu⟩ | ⟨-, hnone⟩
    · exact ⟨f, u, hf, hu⟩
    · exact absurd (by rw [hf]; rfl) (hnone ft hmem)
  · exact .inl (not_or.mp hpin)

/-- **Suspended fibers.**  In a run in which every `YieldToHold` is made by a fiber of the callback
branch, no fiber is left in `EXEC`; if moreover no step disturbs exclusion, a fiber left at a
`YieldToHold` is left in `HOLD`; and if no entry names a fiber on its way to `HOLD`, the assertion of
`swapIn` has not failed, and the scans pass over no fiber that nobody is running. -/
theorem suspended_settled (tid : ι → Int) :
    (∀ s, (scheduler tid).ReachableWhen ByCallback s → ExecHandled s) ∧
      (∀ s, (scheduler tid).ReachableWhen (fun s a => ByCallback s a ∧ Undisturbed tid s a) s →
        HeldInHold s) ∧
      ∀ s, (scheduler tid).ReachableWhen (Orderly tid) s →
        s.fault ≠ some .swapInExec ∧ (s.fault = none → SkipsRunning tid s) := by
  have hexec : ∀ s, (scheduler tid).ReachableWhen ByCallback s → ExecHandled s := by
    intro s hs r hr
    obtain ⟨t, ht⟩ := owed_of_reachable hs r hr
    exact ⟨t, handles_of_owes ht⟩
  refine ⟨hexec, ?_, ?_⟩
  · intro s hs r hr hnone
    rcases parked_of_reachable (hs.mono fun _ _ h => h.2) r hr with h | h | ⟨t, ht⟩
    · exact h
    · obtain ⟨t, ht⟩ := hexec s (hs.mono fun _ _ h => h.1) r h
      exact absurd ht (hnone t)
    · exact absurd (Pc.handles_of_elsewhere ht) (hnone t)
  · intro s hs
    have hclean := clean_of_reachable hs
    exact ⟨hclean.noFault, fun hfault =>
      skipsRunning_of_accounted (wf_of_reachable hs.reachable).nonEmpty (hclean.accounted hfault)⟩

/-- A callback yields to hold, and its worker writes `HOLD`. -/
def callbackRun : List (Act Bool) :=
  [.schedule ⟨none, some 1, -1⟩, .enterRun true, .enterRun false, .scan true, .dispatch true,
    .assertState true, .setExec true, .move true .yieldToHold, .switchBack true, .readState true,
    .settle true]

/-- Then its fiber is scheduled, taken and entered, and while it runs it is scheduled again. -/
def wokenRun : List (Act Bool) :=
  callbackRun ++ [.schedule ⟨some 0, none, -1⟩, .scan true, .dispatch true, .assertState true,
    .setExec true, .schedule ⟨some 0, none, -1⟩]

theorem suspended_settled_run :
    let s := ((scheduler twoThreads).exec .initial callbackRun).get (by decide)
    let s' := ((scheduler twoThreads).exec .initial wokenRun).get (by decide)
    ExecHandled s ∧ HeldInHold s ∧ (s.fibers (.shared 0)).m_state = .hold ∧
      s'.fault ≠ some .swapInExec ∧ SkipsRunning twoThreads s' ∧
      s'.m_fibers = [⟨some 0, none, -1⟩] ∧ s'.pc true = .inside (.fiber 0) := by
  obtain ⟨hexec, hheld, hclean⟩ := suspended_settled twoThreads
  have hwoken := hclean _ (Lib.System.ReachableWhen.exec (.init rfl) (l := wokenRun) (by decide)
    (Option.some_get (by decide)).symm)
  exact ⟨hexec _ (Lib.System.ReachableWhen.exec (.init rfl) (l := callbackRun) (by decide)
      (Option.some_get _).symm),
    hheld _ (Lib.System.ReachableWhen.exec (.init rfl) (l := callbackRun) (by decide)
      (Option.some_get _).symm), by decide, hwoken.1, hwoken.2 (by decide), by decide, by decide⟩

/-- A fiber of the queue yields to hold; it is scheduled again and the next scan passes it over. -/
def strandedRun : List (Act Bool) :=
  [.newFiber (some 1), .schedule ⟨some 0, none, -1⟩, .enterRun true, .scan true, .dispatch true,
    .assertState true, .setExec true, .move true .yieldToHold, .switchBack true, .readState true,
    .schedule ⟨some 0, none, -1⟩, .scan true]

/-- **Left in `EXEC`**: no thread is in the fiber, and the scan that could have taken it comes back
with nothing. -/
theorem left_in_exec :
    ∃ s, (scheduler twoThreads).Reachable s ∧ (s.fibers (.shared 0)).m_state = .exec ∧
      (∀ t, ¬ (s.pc t).Handles t (.shared 0)) ∧ s.m_fibers = [⟨some 0, none, -1⟩] ∧
      s.pc true = .dispatch .empty ∧ ¬ ExecHandled s := by
  have hend : let s := ((scheduler twoThreads).exec .initial strandedRun).get (by decide)
      (s.fibers (.shared 0)).m_state = .exec ∧ (∀ t, ¬ (s.pc t).Handles t (.shared 0)) ∧
        s.m_fibers = [⟨some 0, none, -1⟩] ∧ s.pc true = .dispatch .empty := by decide
  obtain ⟨hexec, hnone, hq, hpc⟩ := hend
  refine ⟨_, Lib.System.reachable_of_exec (s := Sched.initial) (l := strandedRun) rfl
    (Option.some_get (by decide)).symm, hexec, hnone, hq, hpc, fun h => ?_⟩
  obtain ⟨t, ht⟩ := h _ hexec
  exact hnone t ht

end Sched

end Sylar.Scheduler
