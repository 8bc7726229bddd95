/-
# Sylar.Wake.Pin — how long a thread id given to `schedule` holds.

The thread is written in the queue entry, and the scan of `run` honours it; neither the fiber nor
anything else remembers it.  So it holds for the entries that name it.  `run` puts a fiber that
yielded back with `schedule(cb_fiber)`, `triggerEvent` schedules with the default argument, and the
sleep hooks bind `-1`: none of them names a thread, and a task that has come back from a suspension
is anybody's (`pin_lost`).

`pin_holds`: until then every `swapIn` by `run` of the fiber is on that thread, and no step but a
`schedule` call of the program's own queues anything for a particular thread.  As a fiber is used
for one callback after the other, the runs are those in which `run` puts a callback on its `cb_fiber`
only while no queue entry names the fiber and no other thread has it in hand.
-/
import Sylar.Wake.Recycle

namespace Sylar.Wake

open Sylar.Scheduler

variable {ι : Type}

/-- The fiber `run` resumes at a program point, or is about to. -/
@[grind]
def task? : Pc → Option Nat
  | .dispatch ft => ft.fiber
  | .swapIn (.fiber f) | .setExec (.fiber f) | .inside (.fiber f) | .leaving (.fiber f) _ => some f
  | .swapIn (.callback f) | .setExec (.callback f) | .inside (.callback f)
  | .leaving (.callback f) _ => some f
  | _ => none

namespace Tasks

/-- A callback is put on a `cb_fiber` only while no queue entry names the fiber, and no other thread
has it in hand. -/
def Fresh (s : Tasks ι) : TaskAct ι → Prop
  | .run (.dispatch t) =>
      ∀ f ∈ s.sched.reuses t, (∀ ft ∈ s.sched.m_fibers, ft.fiber ≠ some f) ∧ s.Only t f
  | _ => True

instance [DecidableEq ι] [Fintype ι] (s : Tasks ι) : DecidablePred s.Fresh
  | .run (.dispatch t) => inferInstanceAs (Decidable
      (∀ f ∈ s.sched.reuses t, (∀ ft ∈ s.sched.m_fibers, ft.fiber ≠ some f) ∧ s.Only t f))
  | .run (.enterRun _) | .run (.scan _) | .run (.assertState _) | .run (.setExec _)
  | .run (.move _ _) | .run (.switchBack _) | .run (.readState _) | .run (.settle _)
  | .run (.schedule _) | .run (.newFiber _) | .run (.swapIn _ _) | .event .. | .addTimer ..
  | .expire _ | .call _ => isTrue trivial

/-- A task first scheduled with a thread, and not queued for another one (or for any) since, is queued
for that thread, and `run` has it in hand on no other. -/
def AtHome (tid : ι → Int) (s : Tasks ι) : Prop :=
  ∀ f p, s.pin f = some p → p ≠ -1 → s.loose f = false →
    (∀ ft ∈ s.sched.m_fibers, ft.fiber = some f → ft.thread = p) ∧
      ∀ u, task? (s.sched.pc u) = some f → tid u = p

/-- What is queued or in hand has been scheduled, with its thread or since with another one. -/
structure Pinned (tid : ι → Int) (s : Tasks ι) : Prop where
  entry : ∀ ft ∈ s.sched.m_fibers, ∀ f, ft.fiber = some f →
    ∃ p, s.pin f = some p ∧ (s.loose f = false → ft.thread = p)
  took : ∀ u ft, s.sched.pc u = .dispatch ft → ft.thread = -1 ∨ ft.thread = tid u
  hand : ∀ u f, task? (s.sched.pc u) = some f →
    ∃ p, s.pin f = some p ∧ (s.loose f = false → p = -1 ∨ p = tid u)

theorem Pinned.atHome {tid : ι → Int} {s : Tasks ι} (h : s.Pinned tid) : s.AtHome tid := by
  intro f p hpin hp hloose
  refine ⟨?_, ?_⟩
  · intro ft hft hf
    obtain ⟨q, hq, hthread⟩ := h.entry ft hft f hf
    obtain rfl : p = q := Option.some.inj (hpin.symm.trans hq)
    exact hthread hloose
  · intro u hu
    obtain ⟨q, hq, hhome⟩ := h.hand u f hu
    obtain rfl : p = q := Option.some.inj (hpin.symm.trans hq)
    exact ((hhome hloose).resolve_left hp).symm

theorem fiber?_of_task {pc : Pc} {f : Nat} (h : task? pc = some f) : pc.fiber? = some f := by
  cases pc with
  | swapIn j | setExec j | inside j | leaving j _ =>
      cases j with
      | fiber g | callback g => exact h
      | direct g | idle => cases h
  | dispatch ft => exact h
  | outside | scan | post j | settle j todo | finished => cases h

/-! ## Scheduling -/

variable {tid : ι → Int} {s s' : Tasks ι} {ft : FiberAndThread} {f n : Nat} {p : Int}

/-- The first thread a task is scheduled with stays, and the note that there was another. -/
theorem note_keeps (h : s.pin f = some p) : (s.note ft n).pin f = some p ∧
    ((s.note ft n).loose f = false → s.loose f = false) := by
  refine ⟨?_, ?_⟩
  · show (if ft.fiber = some f then some ((s.pin f).getD ft.thread) else s.pin f) = some p
    rw [h]
    split <;> rfl
  · intro hloose
    exact (Bool.or_eq_false_iff.mp hloose).1

/-- A new entry names the thread of its task, or is noted. -/
theorem note_entry (hf : ft.fiber = some f) : ∃ p, (s.note ft n).pin f = some p ∧
    ((s.note ft n).loose f = false → ft.thread = p) := by
  refine ⟨(s.pin f).getD ft.thread, if_pos hf, ?_⟩
  intro hloose
  have hsame : (s.pin f).any (· ≠ ft.thread) = false := by
    simpa [hf] using (Bool.or_eq_false_iff.mp hloose).2
  cases hpin : s.pin f with
  | none => rfl
  | some q =>
      have hq : q = ft.thread := by simpa [hpin] using hsame
      exact hq.symm

/-- A step that queues `ft` besides. -/
theorem Pinned.note (s' : Tasks ι) {c : Sched ι} (h : s.Pinned tid)
    (hs : s'.pin = s.pin ∧ s'.loose = s.loose)
    (hsched : s'.sched = c) (hq : ∀ x ∈ c.m_fibers, x ∈ s.sched.m_fibers ∨ x = ft)
    (htook : ∀ u x, c.pc u = .dispatch x → x.thread = -1 ∨ x.thread = tid u)
    (hhand : ∀ u f, task? (c.pc u) = some f →
      ∃ p, s.pin f = some p ∧ (s.loose f = false → p = -1 ∨ p = tid u)) :
    (s'.note ft n).Pinned tid := by
  subst hsched
  have hkeeps : ∀ {f p}, s.pin f = some p → (s'.note ft n).pin f = some p ∧
      ((s'.note ft n).loose f = false → s.loose f = false) := by
    intro f p hp
    rw [← hs.1] at hp
    rw [← hs.2]
    exact note_keeps hp
  refine ⟨?_, htook, ?_⟩
  · intro x hx f hf
    rcases hq x hx with hx | rfl
    · obtain ⟨p, hp, hthread⟩ := h.entry x hx f hf
      exact ⟨p, (hkeeps hp).1, fun hloose => hthread ((hkeeps hp).2 hloose)⟩
    · exact note_entry hf
  · intro u f hu
    obtain ⟨p, hp, hhome⟩ := hhand u f hu
    exact ⟨p, (hkeeps hp).1, fun hloose => hhome ((hkeeps hp).2 hloose)⟩

theorem Pinned.scheduleAll {l : List (FiberAndThread × Nat)} (h : s.Pinned tid) :
    (s.scheduleAll l).Pinned tid := by
  induction l generalizing s with
  | nil => exact h
  | cons e l ih =>
      apply ih
      exact h.note { s with sched := s.sched.push e.1 } ⟨rfl, rfl⟩ rfl
        (fun x hx => Sched.mem_push hx) h.took h.hand

/-! ## The steps of the scheduler's threads -/

variable [DecidableEq ι]

/-- What `run` has in hand it had before, or has just taken, or it is a callback put on a fiber. -/
theorem hand_back {a : Act ι} {b c : Sched ι} {u : ι} (h : Sched.Steps tid b a c)
    (hu : task? (c.pc u) = some f) : task? (b.pc u) = some f ∨
      (∃ ft, c.pc u = .dispatch ft ∧ ft.fiber = some f) ∨
      ∃ ft, a = .dispatch u ∧ b.pc u = .dispatch ft ∧ c.pc u = .swapIn (.callback f) := by
  cases h with
  | @assertPass t j hpc | @exec t j hpc => cases j <;> grind
  | @leave t j m g k hpc hl => cases j <;> grind
  | _ => grind

/-- What a thread has in hand after a step, a callback put on its fiber apart. -/
theorem Pinned.back (h : s.Pinned tid) {a : Act ι} {c : Sched ι} (hc : Sched.Steps tid s.sched a c) :
    (∀ u ft, c.pc u = .dispatch ft → ft.thread = -1 ∨ ft.thread = tid u) ∧
      ∀ u f, task? (c.pc u) = some f →
        (∃ p, s.pin f = some p ∧ (s.loose f = false → p = -1 ∨ p = tid u)) ∨
          ∃ ft, a = .dispatch u ∧ s.sched.pc u = .dispatch ft ∧ c.pc u = .swapIn (.callback f) := by
  refine ⟨?_, ?_⟩
  · intro u ft hu
    rcases Sched.took_back hc hu with hold | rfl | ⟨-, hel⟩
    · exact h.took u ft hold
    · exact .inl rfl
    · exact hel.1
  · intro u f hu
    rcases hand_back hc hu with hold | ⟨ft, hdis, hf⟩ | hput
    · exact .inl (h.hand u f hold)
    · left
      rcases Sched.took_back hc hdis with hold | rfl | ⟨hft, hel⟩
      · exact h.hand u f (by rw [hold]; exact hf)
      · cases hf
      · -- the entry names the thread of its task
        obtain ⟨p, hp, hthread⟩ := h.entry ft hft f hf
        refine ⟨p, hp, fun hloose => ?_⟩
        rw [← hthread hloose]
        exact hel.1
    · exact .inr hput

/-- A step that puts no callback on a fiber and schedules nothing. -/
theorem Pinned.same (h : s.Pinned tid) {a : Act ι} {c : Sched ι} (hc : Sched.Steps tid s.sched a c)
    (hs : s'.pin = s.pin ∧ s'.loose = s.loose) (hsched : s'.sched = c)
    (hq : ∀ x ∈ c.m_fibers, x ∈ s.sched.m_fibers)
    (hput : ∀ u f ft, a = .dispatch u → s.sched.pc u = .dispatch ft →
      c.pc u ≠ .swapIn (.callback f)) :
    s'.Pinned tid := by
  subst hsched
  obtain ⟨htook, hhand⟩ := h.back hc
  refine ⟨?_, htook, ?_⟩
  · intro x hx f hf
    rw [hs.1, hs.2]
    exact h.entry x (hq x hx) f hf
  · intro u f hu
    rw [hs.1, hs.2]
    rcases hhand u f hu with hold | ⟨ft, hdis, hpc, hp⟩
    · exact hold
    · exact absurd hp (hput u f ft hdis hpc)

/-- A callback is put on a fiber that nothing in the queue and nobody else names. -/
theorem Pinned.start {c : Sched ι} {t : ι} (h : s.Pinned tid)
    (hc : Sched.Steps tid s.sched (.dispatch t) c) (hpc : s.sched.pc t = .dispatch ft)
    (hput : c.pc t = .swapIn (.callback f)) (hq : ∀ x ∈ s.sched.m_fibers, x.fiber ≠ some f)
    (honly : s.Only t f) (hstay : ∀ u, u ≠ t → c.pc u = s.sched.pc u) :
    ({ s with sched := c }.start f ft.thread).Pinned tid := by
  obtain ⟨htook, hhand⟩ := h.back hc
  have hqueue : ∀ x ∈ c.m_fibers, x ∈ s.sched.m_fibers := by
    intro x hx
    rcases Sched.queue_back hc hx with hold | hsch | ⟨u, g, hset, -⟩
    · exact hold
    · cases hsch
    · cases hset
  refine ⟨?_, htook, ?_⟩
  · intro x hx g hg
    obtain ⟨p, hp, hthread⟩ := h.entry x (hqueue x hx) g hg
    have hgf : g ≠ f := by
      rintro rfl
      exact hq x (hqueue x hx) hg
    refine ⟨p, (Function.update_of_ne hgf ..).trans hp, fun hloose => hthread ?_⟩
    exact (Function.update_of_ne hgf ..).symm.trans hloose
  · intro u g hu
    by_cases hgf : g = f
    · subst hgf
      by_cases hut : u = t
      · subst hut
        exact ⟨ft.thread, Function.update_self .., fun _ => h.took u ft hpc⟩
      · have hold : task? (s.sched.pc u) = some g := hstay u hut ▸ hu
        exact absurd (fiber?_of_task hold) (honly u hut)
    · rcases hhand u g hu with ⟨p, hp, hhome⟩ | ⟨ft', hdis, -, hput'⟩
      · refine ⟨p, (Function.update_of_ne hgf ..).trans hp, fun hloose => hhome ?_⟩
        exact (Function.update_of_ne hgf ..).symm.trans hloose
      · obtain rfl : t = u := Act.dispatch.inj hdis
        rw [hput] at hput'
        exact absurd (Job.callback.inj (Pc.swapIn.inj hput')).symm hgf

theorem pinned_run {a : Act ι} {c : Sched ι} (h : Consistent tid s) (hs : s.Pinned tid)
    (hc : s.Fresh (.run a)) (hstep : (scheduler tid).step s.sched a = some c) :
    (s.follow tid a c).Pinned tid := by
  obtain ⟨hfault, hsteps⟩ := Sched.steps hstep
  have hwf := Sched.wf_of_reachable h.base
  obtain ⟨htook, hhand⟩ := hs.back hsteps
  have hqueue : (∀ ft, a ≠ .schedule ft) →
      (∀ t f, a = .settle t → s.sched.pc t ≠ .settle (.callback f) .requeue) →
      ∀ x ∈ c.m_fibers, x ∈ s.sched.m_fibers := by
    intro hsch hset x hx
    rcases Sched.queue_back hsteps hx with hold | rfl | ⟨t, f, rfl, hpc, -⟩
    · exact hold
    · exact absurd rfl (hsch x)
    · exact absurd hpc (hset t f rfl)
  have hkept : (∀ t, a ≠ .dispatch t) → ∀ u f, task? (c.pc u) = some f →
      ∃ p, s.pin f = some p ∧ (s.loose f = false → p = -1 ∨ p = tid u) := by
    intro hdis u f hu
    rcases hhand u f hu with hold | ⟨ft, rfl, -⟩
    · exact hold
    · exact absurd rfl (hdis u)
  cases a with
  | dispatch t =>
      have hq := hqueue (by simp) (by simp)
      simp only [follow]
      split
      · rename_i ft f hpc hput
        have hfree : (∀ x ∈ s.sched.m_fibers, x.fiber ≠ some f) ∧ s.Only t f := by
          rcases put_spec hsteps hpc hput with hreuse | rfl
          · exact hc f hreuse
          · refine ⟨?_, ?_⟩
            · intro x hx hf
              exact absurd (hwf.queue x hx _ hf) (Nat.lt_irrefl _)
            · intro u hu hf
              exact absurd (hwf.pc u _ hf) (Nat.lt_irrefl _)
        refine hs.start hsteps hpc hput hfree.1 hfree.2 ?_
        intro u hut
        apply Sched.other_pc hstep
        intro htu
        exact hut (Option.some.inj htu).symm
      · rename_i hno
        refine hs.same hsteps ⟨rfl, rfl⟩ rfl hq ?_
        intro u f ft hu hpc hput
        obtain rfl := Act.dispatch.inj hu
        exact hno ft f hpc hput
  | settle t =>
      simp only [follow]
      split
      · rename_i f hpc
        refine hs.note { s with sched := c } ⟨rfl, rfl⟩ rfl ?_ htook (hkept (by simp))
        intro x hx
        rcases Sched.queue_back hsteps hx with hold | hsch | ⟨u, g, hu, hpc', rfl⟩
        · exact .inl hold
        · cases hsch
        · obtain rfl := Act.settle.inj hu
          rw [hpc] at hpc'
          cases hpc'
          exact .inr rfl
      · rename_i hno
        refine hs.same hsteps ⟨rfl, rfl⟩ rfl (hqueue (by simp) ?_) (by simp)
        rintro u f hu hpc
        obtain rfl := Act.settle.inj hu
        exact hno f hpc
  | schedule ft =>
      refine hs.note { s with sched := c, known := ft.cb.toList ++ s.known } ⟨rfl, rfl⟩ rfl ?_
        htook (hkept (by simp))
      intro x hx
      rcases Sched.queue_back hsteps hx with hold | hsch | ⟨u, g, hu, -⟩
      · exact .inl hold
      · exact .inr (Act.schedule.inj hsch).symm
      · cases hu
  | enterRun | scan | assertState | setExec | move | switchBack | readState | newFiber | swapIn =>
      exact hs.same hsteps ⟨rfl, rfl⟩ rfl (hqueue (by simp) (by simp)) (by simp)

theorem pinned_step {a : TaskAct ι} (h : Consistent tid s) (hs : s.Pinned tid) (hc : s.Fresh a)
    (hm : Moves tid s a s') : s'.Pinned tid := by
  cases hm with
  | run hadm hstep => exact pinned_run h hs hc hstep
  | @event t op io rt hfault hcalls hcall =>
      have hsame : ({ s with io := io, known := functions op ++ s.known } : Tasks ι).Pinned tid :=
        ⟨hs.entry, hs.took, hs.hand⟩
      exact hsame.scheduleAll
  | addTimer => exact ⟨hs.entry, hs.took, hs.hand⟩
  | @expire cb hfault hcb =>
      have hsame : ({ s with timers := s.timers.erase cb } : Tasks ι).Pinned tid :=
        ⟨hs.entry, hs.took, hs.hand⟩
      exact hsame.scheduleAll (l := [(⟨none, some cb, -1⟩, 0)])
  | @call t p hfault hp =>
      have hsame : ({ s with bound := s.bound.filter (·.1 ≠ p.1) } : Tasks ι).Pinned tid :=
        ⟨hs.entry, hs.took, hs.hand⟩
      exact hsame.scheduleAll (l := [(⟨some p.2.fiber, none, -1⟩, p.2.task)])

theorem pinned_of_reachable (hs : (tasks tid).ReachableWhen Fresh s) : s.Pinned tid := by
  refine Lib.System.ReachableWhen.invariant_of (P := Pinned tid) (Q := Consistent tid)
    (fun s hr => consistent_of_reachable hr.reachable) ?_ ?_ hs
  · rintro s rfl
    refine ⟨?_, ?_, ?_⟩
    · intro ft hft
      cases hft
    · intro u ft hu
      cases hu
    · intro u f hu
      cases hu
  · intro s a s' hcons h hc hstep
    exact pinned_step hcons h hc (moves hstep)

omit [DecidableEq ι] in
theorem mem_scheduleAll {l : List (FiberAndThread × Nat)}
    (h : ft ∈ (s.scheduleAll l).sched.m_fibers) :
    ft ∈ s.sched.m_fibers ∨ ∃ e ∈ l, e.1 = ft := by
  induction l generalizing s with
  | nil => exact .inl h
  | cons e l ih =>
      rcases ih h with hold | ⟨e', he', rfl⟩
      · rcases Sched.mem_push hold with hold | rfl
        · exact .inl hold
        · exact .inr ⟨e, List.mem_cons_self, rfl⟩
      · exact .inr ⟨e', List.mem_cons_of_mem _ he', rfl⟩

/-- What is queued by another step than a `schedule` call of the program's own names no thread. -/
theorem requeued_anywhere {a : TaskAct ι} (hm : Moves tid s a s') (ha : ∀ ft, a ≠ .run (.schedule ft))
    (hft : ft ∈ s'.sched.m_fibers) : ft ∈ s.sched.m_fibers ∨ ft.thread = -1 := by
  cases hm with
  | @run a c hadm hstep =>
      rw [(follow_frame tid s a c).1] at hft
      rcases Sched.queue_back (Sched.steps hstep).2 hft with hold | rfl | ⟨t, f, -, -, rfl⟩
      · exact .inl hold
      · exact absurd rfl (ha ft)
      · exact .inr rfl
  | @event t op io rt hfault hcalls hcall =>
      refine (mem_scheduleAll hft).imp_right ?_
      rintro ⟨e, he, rfl⟩
      obtain ⟨p, -, rfl⟩ := List.mem_map.mp he
      cases p.2 <;> rfl
  | addTimer => exact .inl hft
  | expire | call => exact (Sched.mem_push hft).imp_right fun h => by rw [h]

/-- **How long a thread holds.**  In a run in which callbacks are put on fresh fibers, a task that was
first scheduled with a thread, and has not been queued without it since, is queued for that thread and
`run` resumes it on no other; and whatever a step other than the program's own `schedule` queues, it queues
for any thread. -/
theorem pin_holds (hs : (tasks tid).ReachableWhen Fresh s) :
    s.AtHome tid ∧ ∀ a s', (tasks tid).step s a = some s' → (∀ ft, a ≠ .run (.schedule ft)) →
      ∀ ft ∈ s'.sched.m_fibers, ft ∈ s.sched.m_fibers ∨ ft.thread = -1 := by
  refine ⟨(pinned_of_reachable hs).atHome, ?_⟩
  intro a s' hstep ha ft hft
  exact requeued_anywhere (moves hstep) ha hft

/-- Thread 1 has taken a callback meant for it, and returned from it; thread 2 passes over the next
one, which thread 1 puts on the same fiber. -/
def boundRun : List (TaskAct Bool) :=
  List.flatten
    [[.run (.enterRun true), .run (.enterRun false), .run (.schedule ⟨none, some 1, 1⟩)], take true,
      leave true .finish,
      [.run (.schedule ⟨none, some 2, 1⟩), .run (.scan false), .run (.dispatch false)], take true]

theorem pin_holds_bound :
    let s := ((tasks Sched.twoThreads).exec initial boundRun).get (by decide)
    s.AtHome Sched.twoThreads := by
  intro s
  have hrun : (tasks Sched.twoThreads).exec initial boundRun = some s := (Option.some_get _).symm
  exact (pin_holds (.exec (.init rfl) (l := boundRun) (by decide) hrun)).1

/-- A callback is scheduled for thread 1, which is inside it. -/
def startRun : List (TaskAct Bool) :=
  .run (.enterRun true) :: .run (.enterRun false) :: .run (.schedule ⟨none, some 1, 1⟩) :: take true

/-- It yields; or waits for an event; or sleeps, thread 2 calling the bound function.  Last, it is put
on a fiber which an event of the task before has queued. -/
def lostRuns : List (List (TaskAct Bool)) :=
  List.map List.flatten
    [[startRun, leave true .yieldToReady, take false],
      [startRun, [register true 0], leave true .yieldToHold, [readable false], take false],
      [startRun, [.addTimer true 2], leave true .yieldToHold, [.expire 2], take false,
        [.call false], leave false .finish, take false],
      [startRun, [register true 0], leave true .finish, [.run (.schedule ⟨none, some 2, 1⟩),
        readable false, .run (.scan true), .run (.scan false), .run (.dispatch true),
        .run (.dispatch false), .run (.assertState false), .run (.setExec false)]]]

/-- **Every way back loses the thread**: thread 2 is inside a task that was scheduled for thread 1. -/
theorem pin_lost : lostRuns.Forall fun as => ∃ s, (tasks Sched.twoThreads).exec initial as = some s ∧
    s.pin 0 = some 1 ∧ s.sched.pc false = .inside (.fiber 0) ∧ Sched.twoThreads false = 2 := by
  have hall : ∀ as ∈ lostRuns, (((tasks Sched.twoThreads).exec initial as).any fun s =>
      s.pin 0 = some 1 ∧ s.sched.pc false = .inside (.fiber 0)) = true := by decide
  rw [List.forall_iff_forall_mem]
  intro as has
  obtain ⟨s, hs, hspec⟩ := (Option.any_eq_true ..).mp (hall as has)
  obtain ⟨hpin, hpc⟩ := of_decide_eq_true hspec
  exact ⟨s, hs, hpin, hpc, rfl⟩

end Tasks

end Sylar.Wake
