/-
# Sylar.Threads.Current — the `Thread` object a thread takes for its own (`sylar/thread.{h,cpp}`).

`t_thread` is a thread-local pointer.  `run` sets it on the new thread, to the object that has started
it; but so does the constructor, and that runs on the thread that creates another one.  From then on
`GetThis()` there is somebody else's object, and `SetName()` writes to it.  Nor does anything tie the
pointer to the life of the object: the destructor detaches the thread and lets it run.

A `Process` is all threads and all `Thread` objects, with the constructor taken apart at
`pthread_create` and at the semaphore.  `starter` is not in the source.  It is the object that has
started the thread, and `none` for one that was started in another way.

Whatever the other threads do, the pointer of a thread is its own throughout a run exactly if the thread
constructs no `Thread` and its own object is not destroyed while it runs (`own_throughout_iff`).
-/
import Sylar.Lib.Transition
import Mathlib.Logic.Function.Basic

namespace Sylar.Threads

open Lib (guarded)

/-- The life of an object; the constructor runs on the thread `t`. -/
inductive Life
  /-- Before `pthread_create`. -/
  | creating (t : Nat)
  /-- Behind it. -/
  | waiting (t : Nat)
  | built
  | destroyed
  deriving DecidableEq, Repr

/-- `Thread`; `m_thread` is 0 (`none`) again when it has been joined. -/
structure Thread where
  m_name : String
  m_thread : Option Nat
  /-- `m_semaphore` has been notified. -/
  notified : Bool
  life : Life
  deriving DecidableEq, Repr

/-- Where a thread is. -/
inductive Pc
  /-- In code of the user's. -/
  | running
  /-- In the constructor of `p`, before `pthread_create`. -/
  | creating (p : Nat)
  /-- In the constructor of `p`, before `m_semaphore.wait()` returns. -/
  | waiting (p : Nat)
  /-- Before the first line of `run`. -/
  | entering (p : Nat)
  /-- In `run`, before `m_semaphore.notify()`. -/
  | notifying (p : Nat)
  | ended
  deriving DecidableEq, Repr

/-- The object a thread is at work on. -/
def Pc.object : Pc → Option Nat
  | .creating p | .waiting p | .entering p | .notifying p => some p
  | .running | .ended => none

/-- A thread: its thread-local variables, the object that has started it, and its place. -/
structure Locals where
  t_thread : Option Nat
  t_thread_name : String
  starter : Option Nat
  pc : Pc
  deriving DecidableEq, Repr

/-- The objects and the threads of a process, by numbers that are not used twice. -/
structure Process where
  object : Nat → Option Thread
  thread : Nat → Option Locals

namespace Process

def put (s : Process) (t : Nat) (x : Locals) : Process :=
  { s with thread := Function.update s.thread t (some x) }

def write (s : Process) (p : Nat) (o : Thread) : Process :=
  { s with object := Function.update s.object p (some o) }

/-- `Thread::GetThis()`. -/
def GetThis (x : Locals) : Option Nat := x.t_thread

/-- `Thread::SetName(name)`; writing to an object that is gone is undefined. -/
def SetName (s : Process) (t : Nat) (name : String) : Option Process :=
  (s.thread t).bind fun x =>
    match GetThis x with
    | none => some (s.put t { x with t_thread_name := name })
    | some p =>
        (s.object p).bind fun o => guarded (o.life ≠ .destroyed)
          ((s.write p { o with m_name := name }).put t { x with t_thread_name := name })

end Process

/-- What threads do. -/
inductive Act
  /-- A thread comes up that no `Thread` object has started. -/
  | spawn (t : Nat)
  /-- `Thread::Thread` up to `pthread_create`. -/
  | construct (t p : Nat) (name : String)
  /-- `pthread_create`, with the thread it starts. -/
  | create (t u : Nat)
  /-- `pthread_create` fails, and the constructor throws. -/
  | createFails (t : Nat)
  /-- `run`, up to `m_semaphore.notify()`. -/
  | enter (t : Nat)
  | notify (t : Nat)
  /-- `m_semaphore.wait()` returns, and so does the constructor. -/
  | wait (t : Nat)
  | setName (t : Nat) (name : String)
  | join (t p : Nat)
  /-- `~Thread`. -/
  | destroy (t p : Nat)
  | exit (t : Nat)
  deriving DecidableEq, Repr

namespace Process

/-- The thread is in code of the user's. -/
def Runs (s : Process) (t : Nat) : Prop := (s.thread t).map Locals.pc = some .running

instance (s : Process) (t : Nat) : Decidable (s.Runs t) :=
  inferInstanceAs (Decidable ((s.thread t).map Locals.pc = some .running))

/-- The thread has ended. -/
def HasEnded (s : Process) (t : Nat) : Prop := (s.thread t).map Locals.pc = some .ended

instance (s : Process) (t : Nat) : Decidable (s.HasEnded t) :=
  inferInstanceAs (Decidable ((s.thread t).map Locals.pc = some .ended))

/-- Take a step. -/
def step (s : Process) : Act → Option Process
  | .spawn t =>
      guarded (s.thread t).isNone (s.put t ⟨none, "MainThread", none, .running⟩)
  | .construct t p name =>
      (s.thread t).bind fun x => guarded (x.pc = .running ∧ (s.object p).isNone)
        ((s.write p ⟨if name = "" then "UNKNOW" else name, none, false, .creating t⟩).put t
          { x with t_thread := some p, pc := .creating p })
  | .create t u =>
      (s.thread t).bind fun x =>
        match x.pc with
        | .creating p => (s.object p).bind fun o => guarded (s.thread u).isNone
            (((s.write p { o with m_thread := some u, life := .waiting t }).put t
              { x with pc := .waiting p }).put u ⟨none, "MainThread", some p, .entering p⟩)
        | _ => none
  | .createFails t =>
      (s.thread t).bind fun x =>
        match x.pc with
        | .creating p => (s.object p).map fun o =>
            (s.write p { o with life := .destroyed }).put t { x with pc := .running }
        | _ => none
  | .enter t =>
      (s.thread t).bind fun x =>
        match x.pc with
        | .entering p => (s.object p).map fun o =>
            s.put t { x with t_thread := some p, t_thread_name := o.m_name, pc := .notifying p }
        | _ => none
  | .notify t =>
      (s.thread t).bind fun x =>
        match x.pc with
        | .notifying p => (s.object p).map fun o =>
            (s.write p { o with notified := true }).put t { x with pc := .running }
        | _ => none
  | .wait t =>
      (s.thread t).bind fun x =>
        match x.pc with
        | .waiting p => (s.object p).bind fun o => guarded (o.notified = true)
            ((s.write p { o with life := .built }).put t { x with pc := .running })
        | _ => none
  | .setName t name => if s.Runs t then s.SetName t name else none
  | .join t p =>
      (s.object p).bind fun o => guarded
        (s.Runs t ∧ o.life = .built ∧ ∃ u ∈ o.m_thread, s.HasEnded u)
        (s.write p { o with m_thread := none })
  | .destroy t p =>
      (s.object p).bind fun o => guarded (s.Runs t ∧ o.life = .built)
        (s.write p { o with life := .destroyed })
  | .exit t =>
      (s.thread t).bind fun x => guarded (x.pc = .running) (s.put t { x with pc := .ended })

end Process

/-- A main thread, and no objects. -/
def mainOnly : Process :=
  { object := fun _ => none
    thread := fun t => if t = 0 then some ⟨none, "MainThread", none, .running⟩ else none }

/-- All runs. -/
def process : Lib.System Process Act where
  init s := s = mainOnly
  step s a := s.step a

namespace Process

/-- **What each step does.** -/
inductive Steps (s : Process) : Act → Process → Prop
  | spawn {t} : s.thread t = none → Steps s (.spawn t) (s.put t ⟨none, "MainThread", none, .running⟩)
  | construct {t p name x o} : s.thread t = some x → x.pc = .running → s.object p = none →
      o.life = .creating t → o.notified = false → Steps s (.construct t p name)
        ((s.write p o).put t { x with t_thread := some p, pc := .creating p })
  | create {t u p x o} : s.thread t = some x → x.pc = .creating p → s.object p = some o →
      s.thread u = none → Steps s (.create t u)
        (((s.write p { o with m_thread := some u, life := .waiting t }).put t
          { x with pc := .waiting p }).put u ⟨none, "MainThread", some p, .entering p⟩)
  | createFails {t p x o} : s.thread t = some x → x.pc = .creating p → s.object p = some o →
      Steps s (.createFails t)
        ((s.write p { o with life := .destroyed }).put t { x with pc := .running })
  | enter {t p x o} : s.thread t = some x → x.pc = .entering p → s.object p = some o →
      Steps s (.enter t)
        (s.put t { x with t_thread := some p, t_thread_name := o.m_name, pc := .notifying p })
  | notify {t p x o} : s.thread t = some x → x.pc = .notifying p → s.object p = some o →
      Steps s (.notify t) ((s.write p { o with notified := true }).put t { x with pc := .running })
  | wait {t p x o} : s.thread t = some x → x.pc = .waiting p → s.object p = some o →
      o.notified = true → Steps s (.wait t)
        ((s.write p { o with life := .built }).put t { x with pc := .running })
  | rename {t name x} : s.thread t = some x → x.pc = .running → x.t_thread = none →
      Steps s (.setName t name) (s.put t { x with t_thread_name := name })
  | renameBoth {t name x p o} : s.thread t = some x → x.pc = .running → x.t_thread = some p →
      s.object p = some o → o.life ≠ .destroyed → Steps s (.setName t name)
        ((s.write p { o with m_name := name }).put t { x with t_thread_name := name })
  | join {t p o} : s.object p = some o → o.life = .built →
      Steps s (.join t p) (s.write p { o with m_thread := none })
  | destroy {t p o} : s.object p = some o → o.life = .built →
      Steps s (.destroy t p) (s.write p { o with life := .destroyed })
  | exit {t x} : s.thread t = some x → x.pc = .running →
      Steps s (.exit t) (s.put t { x with pc := .ended })

theorem steps {s s' : Process} {a : Act} (h : s.step a = some s') : Steps s a s' := by
  cases a with
  | spawn t =>
      obtain ⟨ht, rfl⟩ := Lib.guarded_eq_some.mp h
      exact .spawn (by simpa using ht)
  | construct t p name =>
      obtain ⟨x, hx, h⟩ := Option.bind_eq_some_iff.mp h
      obtain ⟨⟨hpc, hp⟩, rfl⟩ := Lib.guarded_eq_some.mp h
      exact .construct hx hpc (by simpa using hp) rfl rfl
  | create t u =>
      obtain ⟨x, hx, h⟩ := Option.bind_eq_some_iff.mp h
      split at h
      · rename_i p hpc
        obtain ⟨o, ho, h⟩ := Option.bind_eq_some_iff.mp h
        obtain ⟨hu, rfl⟩ := Lib.guarded_eq_some.mp h
        exact .create hx hpc ho (by simpa using hu)
      · cases h
  | createFails t =>
      obtain ⟨x, hx, h⟩ := Option.bind_eq_some_iff.mp h
      split at h
      · rename_i p hpc
        obtain ⟨o, ho, rfl⟩ := Option.map_eq_some_iff.mp h
        exact .createFails hx hpc ho
      · cases h
  | enter t =>
      obtain ⟨x, hx, h⟩ := Option.bind_eq_some_iff.mp h
      split at h
      · rename_i p hpc
        obtain ⟨o, ho, rfl⟩ := Option.map_eq_some_iff.mp h
        exact .enter hx hpc ho
      · cases h
  | notify t =>
      obtain ⟨x, hx, h⟩ := Option.bind_eq_some_iff.mp h
      split at h
      · rename_i p hpc
        obtain ⟨o, ho, rfl⟩ := Option.map_eq_some_iff.mp h
        exact .notify hx hpc ho
      · cases h
  | wait t =>
      obtain ⟨x, hx, h⟩ := Option.bind_eq_some_iff.mp h
      split at h
      · rename_i p hpc
        obtain ⟨o, ho, h⟩ := Option.bind_eq_some_iff.mp h
        obtain ⟨hn, rfl⟩ := Lib.guarded_eq_some.mp h
        exact .wait hx hpc ho hn
      · cases h
  | setName t name =>
      simp only [step] at h
      split at h
      · rename_i hruns
        obtain ⟨x, hx, h⟩ := Option.bind_eq_some_iff.mp h
        have hpc : x.pc = .running := by simpa [Runs, hx] using hruns
        split at h
        · rename_i hthis
          exact Option.some.inj h ▸ .rename hx hpc hthis
        · rename_i p hthis
          obtain ⟨o, ho, h⟩ := Option.bind_eq_some_iff.mp h
          obtain ⟨halive, rfl⟩ := Lib.guarded_eq_some.mp h
          exact .renameBoth hx hpc hthis ho halive
      · cases h
  | join t p =>
      obtain ⟨o, ho, h⟩ := Option.bind_eq_some_iff.mp h
      obtain ⟨⟨-, hbuilt, -⟩, rfl⟩ := Lib.guarded_eq_some.mp h
      exact .join ho hbuilt
  | destroy t p =>
      obtain ⟨o, ho, h⟩ := Option.bind_eq_some_iff.mp h
      obtain ⟨⟨-, hbuilt⟩, rfl⟩ := Lib.guarded_eq_some.mp h
      exact .destroy ho hbuilt
  | exit t =>
      obtain ⟨x, hx, h⟩ := Option.bind_eq_some_iff.mp h
      obtain ⟨hpc, rfl⟩ := Lib.guarded_eq_some.mp h
      exact .exit hx hpc

/-! ## What all runs keep -/

/-- There is an object at `p`, and `P` holds of it. -/
def Holds (object : Nat → Option Thread) (p : Nat) (P : Thread → Prop) : Prop :=
  ∃ o, object p = some o ∧ P o

/-- The object has been through `pthread_create`. -/
def Through (o : Thread) : Prop := ∀ u, o.life ≠ .creating u

/-- The object a thread is at work on is as far as the thread. -/
def Fits (t : Nat) (x : Locals) (o : Thread) : Prop :=
  match x.pc with
  | .creating _ => o.life = .creating t ∧ o.notified = false
  | .waiting _ => o.life = .waiting t
  | .entering p | .notifying p => x.starter = some p ∧ (∃ u, o.life = .waiting u) ∧
      o.notified = false ∧ o.m_thread = some t
  | .running | .ended => True

/-- What is known of a thread. -/
structure Known (object : Nat → Option Thread) (t : Nat) (x : Locals) : Prop where
  started : ∀ p, x.starter = some p → Holds object p Through
  fits : ∀ p, x.pc.object = some p → Holds object p (Fits t x)

/-- The invariant. -/
def Inv (s : Process) : Prop := ∀ t x, s.thread t = some x → Known s.object t x

/-- A write that changes nothing for the thread `u`. -/
structure Spares (u : Nat) (o o' : Thread) : Prop where
  through : Through o → Through o'
  creating : o.life = .creating u → o.notified = false →
    o'.life = .creating u ∧ o'.notified = false
  waiting : o.life = .waiting u → o'.life = .waiting u
  entered : (∃ w, o.life = .waiting w) → o.notified = false → o.m_thread = some u →
    (∃ w, o'.life = .waiting w) ∧ o'.notified = false ∧ o'.m_thread = some u

variable {s s' : Process} {object : Nat → Option Thread} {t u p q : Nat} {x y : Locals}
  {o o' : Thread} {P : Thread → Prop}

theorem Holds.new (h : Holds object q P) (hp : object p = none) :
    Holds (Function.update object p (some o')) q P := by
  obtain ⟨o, ho, hP⟩ := h
  refine ⟨o, ?_, hP⟩
  rw [Function.update_of_ne (fun hqp => by rw [hqp, hp] at ho; cases ho)]
  exact ho

theorem Holds.write (h : Holds object q P) (hp : object p = some o) (hP : P o → P o') :
    Holds (Function.update object p (some o')) q P := by
  obtain ⟨r, hr, hrP⟩ := h
  by_cases hqp : q = p
  · subst hqp
    obtain rfl := Option.some.inj (hp.symm.trans hr)
    exact ⟨o', Function.update_self .., hP hrP⟩
  · exact ⟨r, (Function.update_of_ne hqp ..).trans hr, hrP⟩

theorem holds_self (h : P o') : Holds (Function.update object p (some o')) p P :=
  ⟨o', Function.update_self .., h⟩

theorem Fits.write (hsp : Spares t o o') (h : Fits t x o) : Fits t x o' := by
  unfold Fits at h ⊢
  split
  · rename_i hpc
    simp only [hpc] at h
    exact hsp.creating h.1 h.2
  · rename_i hpc
    simp only [hpc] at h
    exact hsp.waiting h
  · rename_i hpc
    simp only [hpc] at h
    exact ⟨h.1, hsp.entered h.2.1 h.2.2.1 h.2.2.2⟩
  · rename_i hpc
    simp only [hpc] at h
    exact ⟨h.1, hsp.entered h.2.1 h.2.2.1 h.2.2.2⟩
  · trivial
  · trivial

theorem Known.new (h : Known object t x) (hp : object p = none) :
    Known (Function.update object p (some o')) t x :=
  ⟨fun q hq => (h.started q hq).new hp, fun q hq => (h.fits q hq).new hp⟩

theorem Known.write (h : Known object t x) (hp : object p = some o) (hsp : Spares t o o') :
    Known (Function.update object p (some o')) t x :=
  ⟨fun q hq => (h.started q hq).write hp hsp.through, fun q hq => (h.fits q hq).write hp (.write hsp)⟩

/-- In code of the user's there is nothing to fit. -/
theorem Known.leave (h : ∀ p, x.starter = some p → Holds object p Through)
    (hpc : x.pc.object = none) : Known object t x :=
  ⟨h, fun p hp => by rw [hpc] at hp; cases hp⟩

theorem put_thread (s : Process) (t u : Nat) (x : Locals) :
    (s.put t x).thread u = if u = t then some x else s.thread u := by
  unfold put
  split
  · rename_i hut
    rw [hut]
    exact Function.update_self ..
  · rename_i hut
    exact Function.update_of_ne hut ..

theorem write_object (s : Process) (p q : Nat) (o : Thread) :
    (s.write p o).object q = if q = p then some o else s.object q := by
  unfold write
  split
  · rename_i hqp
    rw [hqp]
    exact Function.update_self ..
  · rename_i hqp
    exact Function.update_of_ne hqp ..

/-- A step of one thread. -/
theorem Inv.put (hother : ∀ u y, u ≠ t → s.thread u = some y → Known s.object u y)
    (hself : Known s.object t x) : Inv (s.put t x) := by
  intro u y hy
  rw [put_thread] at hy
  split at hy
  · rename_i hut
    obtain rfl := Option.some.inj hy
    exact hut ▸ hself
  · rename_i hut
    exact hother u y hut hy

/-- The object of a thread that is at work on one. -/
theorem Inv.fits (h : Inv s) (hx : s.thread t = some x) (hp : x.pc.object = some p)
    (ho : s.object p = some o) : Fits t x o := by
  obtain ⟨r, hr, hfits⟩ := (h t x hx).fits p hp
  obtain rfl := Option.some.inj (hr.symm.trans ho)
  exact hfits

/-- A write under which another thread, or nobody, is at work. -/
theorem Inv.write (h : Inv s) (ho : s.object p = some o) (hsp : ∀ u, Spares u o o') :
    Inv (s.write p o') := fun u y hy => (h u y hy).write ho (hsp u)

theorem through_of_waiting {w : Nat} (hw : o.life = .waiting w) : Through o := by
  intro u hu
  rw [hw] at hu
  cases hu

/-- The thread in the constructor is the only one at work on an object before `pthread_create`. -/
theorem spares_of_creating (hw : o.life = .creating t) (hut : u ≠ t) (htr : Through o') :
    Spares u o o' where
  through _ := htr
  creating h _ := by
    rw [hw] at h
    exact absurd (Life.creating.inj h).symm hut
  waiting h := by rw [hw] at h; cases h
  entered h := by
    obtain ⟨w, h⟩ := h
    rw [hw] at h
    cases h

/-- Nobody is at work on an object that is built. -/
theorem spares_of_built (hb : o.life = .built) (htr : Through o') : Spares u o o' where
  through _ := htr
  creating h _ := by rw [hb] at h; cases h
  waiting h := by rw [hb] at h; cases h
  entered h := by
    obtain ⟨w, h⟩ := h
    rw [hb] at h
    cases h

/-- `notify` is for the thread in the constructor, and comes from the one that the object has
started. -/
theorem spares_of_notify {w : Nat} (hw : o.life = .waiting w) (hm : o.m_thread = some t) (hut : u ≠ t) :
    Spares u o { o with notified := true } where
  through htr := htr
  creating h _ := by rw [hw] at h; cases h
  waiting h := h
  entered _ _ h := absurd (Option.some.inj (hm.symm.trans h)).symm hut

/-- The constructor returns behind `notify`. -/
theorem spares_of_wait (hw : o.life = .waiting t) (hn : o.notified = true) (hut : u ≠ t) :
    Spares u o { o with life := .built } where
  through _ w hw := by cases hw
  creating h _ := by rw [hw] at h; cases h
  waiting h := by
    rw [hw] at h
    exact absurd (Life.waiting.inj h).symm hut
  entered _ h _ := by rw [hn] at h; cases h

/-- A name changes nothing. -/
theorem spares_name (name : String) : Spares u o { o with m_name := name } :=
  ⟨id, fun h hn => ⟨h, hn⟩, id, fun h hn hm => ⟨h, hn, hm⟩⟩

theorem Inv.step {a : Act} (h : Inv s) (hst : Steps s a s') : Inv s' := by
  cases hst with
  | spawn ht => exact .put (fun u y _ hy => h u y hy) ⟨nofun, nofun⟩
  | construct hx hpc hp hlife hn =>
      refine .put (fun u y _ hy => (h u y hy).new hp) ⟨fun q hq => ((h _ _ hx).started q hq).new hp, ?_⟩
      intro q hq
      obtain rfl := Option.some.inj hq
      exact holds_self ⟨hlife, hn⟩
  | @create t v p x o hx hpc ho hv =>
      have hfits := h.fits hx (by rw [hpc]; rfl) ho
      simp only [Fits, hpc] at hfits
      obtain ⟨hlife, hn⟩ := hfits
      have htr : Through { o with m_thread := some v, life := .waiting t } := through_of_waiting rfl
      refine .put (fun u y hut hy => ?_) ⟨fun q hq => ?_, fun q hq => ?_⟩
      · rw [put_thread] at hy
        split at hy
        · rename_i hut
          subst hut
          obtain rfl := Option.some.inj hy
          refine ⟨fun q hq => ((h u x hx).started q hq).write ho fun _ => htr, fun q hq => ?_⟩
          obtain rfl := Option.some.inj hq
          exact holds_self rfl
        · rename_i hut
          exact (h u y hy).write ho (spares_of_creating hlife hut htr)
      · obtain rfl := Option.some.inj hq
        exact holds_self htr
      · obtain rfl := Option.some.inj hq
        exact holds_self ⟨rfl, ⟨t, rfl⟩, hn, rfl⟩
  | @createFails t p x o hx hpc ho =>
      have hfits := h.fits hx (by rw [hpc]; rfl) ho
      simp only [Fits, hpc] at hfits
      have htr : Through { o with life := .destroyed } := nofun
      refine .put (fun u y hut hy => (h u y hy).write ho (spares_of_creating hfits.1 hut htr)) ?_
      exact .leave (fun q hq => ((h _ _ hx).started q hq).write ho fun _ => htr) rfl
  | enter hx hpc ho =>
      refine .put (fun u y _ hy => h u y hy) ⟨(h _ _ hx).started, fun q hq => ?_⟩
      have hfits := (h _ _ hx).fits q (by rw [hpc]; exact hq)
      obtain ⟨r, hr, hfits⟩ := hfits
      refine ⟨r, hr, ?_⟩
      simp only [Fits, hpc] at hfits ⊢
      exact hfits
  | notify hx hpc ho =>
      have hfits := h.fits hx (by rw [hpc]; rfl) ho
      simp only [Fits, hpc] at hfits
      obtain ⟨-, ⟨w, hw⟩, -, hm⟩ := hfits
      refine .put (fun u y hut hy => (h u y hy).write ho (spares_of_notify hw hm hut)) ?_
      exact .leave (fun q hq => ((h _ _ hx).started q hq).write ho id) rfl
  | @wait t p x o hx hpc ho hn =>
      have hfits := h.fits hx (by rw [hpc]; rfl) ho
      simp only [Fits, hpc] at hfits
      have htr : Through { o with life := .built } := nofun
      refine .put (fun u y hut hy => (h u y hy).write ho (spares_of_wait hfits hn hut)) ?_
      exact .leave (fun q hq => ((h _ _ hx).started q hq).write ho fun _ => htr) rfl
  | rename hx hpc hthis =>
      refine .put (fun u y _ hy => h u y hy) (.leave (h _ _ hx).started ?_)
      rw [hpc]
      rfl
  | renameBoth hx hpc hthis ho halive =>
      refine .put (fun u y _ hy => (h u y hy).write ho (spares_name _)) (.leave (fun q hq => ?_) ?_)
      · exact ((h _ _ hx).started q hq).write ho id
      · rw [hpc]
        rfl
  | join ho hb => exact h.write ho fun u => spares_of_built hb (by
      intro w hw
      rw [hb] at hw
      cases hw)
  | destroy ho hb => exact h.write ho fun u => spares_of_built hb nofun
  | exit hx hpc => exact .put (fun u y _ hy => h u y hy) (.leave (h _ _ hx).started rfl)

theorem inv_mainOnly : Inv mainOnly := by
  intro t x hx
  dsimp only [mainOnly] at hx
  split at hx
  · obtain rfl := Option.some.inj hx
    exact ⟨nofun, nofun⟩
  · cases hx

/-! ## The pointer of one thread -/

/-- The thread is in `run` behind its first lines, or has not come through `run` at all. -/
def Begun (x : Locals) : Prop :=
  match x.pc with
  | .entering _ | .ended => False
  | .running | .creating _ | .waiting _ | .notifying _ => True

/-- A `SetName` of the thread changes its own name and its own object's, and nothing else. -/
def RenamesItself (s : Process) (t : Nat) (x : Locals) : Prop :=
  ∀ name, ∃ s', s.SetName t name = some s' ∧ (∀ u, u ≠ t → s'.thread u = s.thread u) ∧
    ∀ p, x.starter ≠ some p → s'.object p = s.object p

/-- **The current object of the thread is its own.** -/
def Own (t : Nat) (s : Process) : Prop :=
  ∀ x, s.thread t = some x → Begun x → GetThis x = x.starter ∧ s.RenamesItself t x

/-- The thread constructs no object, and the one that has started it is not destroyed while it runs. -/
def Keeps (t : Nat) (s : Process) : Act → Prop
  | .construct u _ _ => u ≠ t
  | .destroy _ p => ∀ x ∈ s.thread t, x.pc = .ended ∨ x.starter ≠ some p
  | .spawn _ | .create .. | .createFails _ | .enter _ | .notify _ | .wait _ | .setName .. | .join ..
  | .exit _ => True

instance (t : Nat) (s : Process) : DecidablePred (Keeps t s) := fun a => by
  unfold Keeps
  cases a <;> dsimp only <;> infer_instance

/-- An object that is not gone. -/
def Alive (o : Thread) : Prop := o.life ≠ .destroyed

/-- `SetName` goes through the pointer. -/
theorem renamesItself_iff (hx : s.thread t = some x) (hthis : x.t_thread = x.starter) :
    s.RenamesItself t x ↔ ∀ p, x.starter = some p → Holds s.object p Alive := by
  constructor
  · intro h p hp
    obtain ⟨s', hset, -⟩ := h ""
    simp only [SetName, hx, GetThis, hthis, hp, Option.bind_some] at hset
    obtain ⟨o, ho, hset⟩ := Option.bind_eq_some_iff.mp hset
    exact ⟨o, ho, (Lib.guarded_eq_some.mp hset).1⟩
  · intro h name
    cases hst : x.starter with
    | none =>
        refine ⟨s.put t { x with t_thread_name := name }, ?_, fun u hut => ?_, fun p _ => rfl⟩
        · simp only [SetName, hx, GetThis, hthis, hst, Option.bind_some]
        · rw [put_thread, if_neg hut]
    | some p =>
        obtain ⟨o, ho, halive⟩ := h p hst
        refine ⟨(s.write p { o with m_name := name }).put t { x with t_thread_name := name }, ?_,
          fun u hut => ?_, fun q hq => ?_⟩
        · simp only [SetName, hx, GetThis, hthis, hst, Option.bind_some, ho]
          exact Lib.guarded_eq_some.mpr ⟨halive, rfl⟩
        · rw [put_thread, if_neg hut]
          rfl
        · exact Function.update_of_ne (fun hqp => hq (congrArg some hqp.symm)) ..

theorem own_iff : Own t s ↔ ∀ x, s.thread t = some x → Begun x →
    x.t_thread = x.starter ∧ ∀ p, x.starter = some p → Holds s.object p Alive := by
  constructor
  · intro h x hx hb
    obtain ⟨hthis, hren⟩ := h x hx hb
    exact ⟨hthis, (renamesItself_iff hx hthis).mp hren⟩
  · intro h x hx hb
    obtain ⟨hthis, halive⟩ := h x hx hb
    exact ⟨hthis, (renamesItself_iff hx hthis).mpr halive⟩

/-- A step that leaves the pointer alone, and the object. -/
theorem Own.keep (h : Own t s)
    (hthread : ∀ x', s'.thread t = some x' → Begun x' → ∃ x, s.thread t = some x ∧ Begun x ∧
      x'.t_thread = x.t_thread ∧ x'.starter = x.starter)
    (hobject : ∀ x p, s.thread t = some x → Begun x → x.starter = some p →
      Holds s.object p Alive → Holds s'.object p Alive) : Own t s' := by
  rw [own_iff] at h ⊢
  intro x' hx' hb'
  obtain ⟨x, hx, hb, hthis, hst⟩ := hthread x' hx' hb'
  obtain ⟨heq, halive⟩ := h x hx hb
  refine ⟨by rw [hthis, hst, heq], fun p hp => ?_⟩
  rw [hst] at hp
  exact hobject x p hx hb hp (halive p hp)

/-- The acting thread moves on. -/
theorem put_keeps {object' : Nat → Option Thread} (hx : s.thread u = some x)
    (hself : Begun y → Begun x ∧ y.t_thread = x.t_thread ∧ y.starter = x.starter) :
    ∀ x', (Process.put ⟨object', s.thread⟩ u y).thread t = some x' → Begun x' →
      ∃ x, s.thread t = some x ∧ Begun x ∧ x'.t_thread = x.t_thread ∧ x'.starter = x.starter := by
  intro x' hx' hb'
  rw [put_thread] at hx'
  split at hx'
  · rename_i htu
    obtain rfl := Option.some.inj hx'
    exact ⟨x, htu ▸ hx, hself hb'⟩
  · exact ⟨x', hx', hb', rfl, rfl⟩

section Own

variable {x : Locals} {o : Thread} {name : String}

/-- A new thread of the program's own. -/
theorem own_spawn (hown : Own t s) : Own t (s.put u ⟨none, "MainThread", none, .running⟩) := by
  refine own_iff.mpr fun x' hx' hb' => ?_
  rw [put_thread] at hx'
  split at hx'
  · obtain rfl := Option.some.inj hx'
    exact ⟨rfl, nofun⟩
  · exact own_iff.mp hown x' hx' hb'

/-- The pointer of the thread that constructs is the new object, and that has not started the thread. -/
theorem own_construct_iff (h : Inv s) (hown : Own t s) (hx : s.thread u = some x)
    (hp : s.object p = none) :
    Own t ((s.write p o).put u { x with t_thread := some p, pc := .creating p }) ↔ u ≠ t := by
  by_cases hut : u = t
  · subst hut
    refine iff_of_false (fun hall => ?_) (fun hne => hne rfl)
    obtain ⟨hthis, -⟩ := own_iff.mp hall { x with t_thread := some p, pc := .creating p }
      (by rw [put_thread, if_pos rfl]) trivial
    obtain ⟨r, hr, -⟩ := (h u x hx).started p hthis.symm
    rw [hp] at hr
    cases hr
  · refine iff_of_true (hown.keep ?_ fun _ _ _ _ _ halive => halive.new hp) hut
    intro x' hx' hb'
    rw [put_thread, if_neg (Ne.symm hut)] at hx'
    exact ⟨x', hx', hb', rfl, rfl⟩

/-- The new thread is before the first line of `run`. -/
theorem own_create (hown : Own t s) (hx : s.thread u = some x) (hpc : x.pc = .creating p)
    (ho : s.object p = some o) :
    Own t (((s.write p { o with m_thread := some q, life := .waiting u }).put u
      { x with pc := .waiting p }).put q ⟨none, "MainThread", some p, .entering p⟩) := by
  refine hown.keep ?_ fun _ _ _ _ _ halive => halive.write ho fun _ => nofun
  intro x' hx' hb'
  rw [put_thread] at hx'
  split at hx'
  · -- the new thread itself
    obtain rfl := Option.some.inj hx'
    exact absurd hb' id
  · refine put_keeps hx ?_ x' hx' hb'
    intro _
    refine ⟨?_, rfl, rfl⟩
    simp only [Begun, hpc]

/-- Nobody has been started by an object before its `pthread_create`. -/
theorem own_createFails (h : Inv s) (hown : Own t s) (hx : s.thread u = some x)
    (hpc : x.pc = .creating p) (ho : s.object p = some o) :
    Own t ((s.write p { o with life := .destroyed }).put u { x with pc := .running }) := by
  have hfits := h.fits hx (by rw [hpc]; rfl) ho
  simp only [Fits, hpc] at hfits
  refine hown.keep (put_keeps hx fun _ => ⟨?_, rfl, rfl⟩) ?_
  · simp only [Begun, hpc]
  · intro y q hy _ hq halive
    by_cases hqp : q = p
    · subst hqp
      obtain ⟨r, hr, hthrough⟩ := (h t y hy).started q hq
      obtain rfl := Option.some.inj (hr.symm.trans ho)
      exact absurd hfits.1 (hthrough u)
    · obtain ⟨r, hr, hr'⟩ := halive
      exact ⟨r, (Function.update_of_ne hqp ..).trans hr, hr'⟩

/-- A thread enters `run`, and its pointer is the object that has started it. -/
theorem own_enter (h : Inv s) (hown : Own t s) (hx : s.thread u = some x)
    (hpc : x.pc = .entering p) (ho : s.object p = some o) :
    Own t (s.put u { x with t_thread := some p, t_thread_name := o.m_name, pc := .notifying p }) := by
  refine own_iff.mpr fun x' hx' hb' => ?_
  rw [put_thread] at hx'
  split at hx'
  · obtain rfl := Option.some.inj hx'
    have hfits := h.fits hx (by rw [hpc]; rfl) ho
    simp only [Fits, hpc] at hfits
    obtain ⟨hst, ⟨w, hw⟩, -⟩ := hfits
    refine ⟨hst.symm, fun q hq => ?_⟩
    obtain rfl := Option.some.inj (hst.symm.trans hq)
    exact ⟨o, ho, by rw [Alive, hw]; nofun⟩
  · exact own_iff.mp hown x' hx' hb'

/-- An object whose thread is before the first line of `run` is not built. -/
theorem begun_of_built (h : Inv s) (hx : s.thread t = some x) (hrun : x.pc ≠ .ended)
    (hst : x.starter = some p) (ho : s.object p = some o) (hb : o.life = .built) : Begun x := by
  unfold Begun
  split
  · rename_i q hpc
    obtain ⟨r, hr, hfits⟩ := (h t x hx).fits q (by rw [hpc]; rfl)
    simp only [Fits, hpc] at hfits
    obtain ⟨hq, ⟨w, hw⟩, -⟩ := hfits
    obtain rfl := Option.some.inj (hst.symm.trans hq)
    obtain rfl := Option.some.inj (hr.symm.trans ho)
    rw [hb] at hw
    cases hw
  · rename_i hpc
    exact hrun hpc
  all_goals trivial

theorem own_destroy_iff (h : Inv s) (hown : Own t s) (ho : s.object p = some o)
    (hb : o.life = .built) :
    Own t (s.write p { o with life := .destroyed }) ↔
      ∀ x ∈ s.thread t, x.pc = .ended ∨ x.starter ≠ some p := by
  constructor
  · intro hall x hx
    by_contra hlive
    obtain ⟨hrun, hst⟩ := not_or.mp hlive
    have hst := not_not.mp hst
    obtain ⟨-, halive⟩ := own_iff.mp hall x hx (begun_of_built h hx hrun hst ho hb)
    obtain ⟨r, hr, hr'⟩ := halive p hst
    rw [write_object, if_pos rfl] at hr
    obtain rfl := Option.some.inj hr
    exact hr' rfl
  · intro hkeeps
    refine hown.keep (fun x' hx' hb' => ⟨x', hx', hb', rfl, rfl⟩) ?_
    intro x q hx hbegun hq halive
    -- the thread runs, so the object that has started it is another one
    obtain ⟨r, hr, hr'⟩ := halive
    have hqp : q ≠ p := by
      rintro rfl
      rcases hkeeps x hx with hend | hne
      · rw [Begun, hend] at hbegun
        exact hbegun
      · exact hne hq
    exact ⟨r, (Function.update_of_ne hqp ..).trans hr, hr'⟩

end Own

/-- **The step lemma**: a thread loses its own object where it constructs one, or where its own is
destroyed. -/
theorem own_step_iff {a : Act} (h : Inv s) (hown : Own t s) (hst : Steps s a s') :
    Own t s' ↔ Keeps t s a := by
  cases hst with
  | spawn => exact iff_of_true (own_spawn hown) trivial
  | construct hx hpc hp => exact own_construct_iff h hown hx hp
  | create hx hpc ho => exact iff_of_true (own_create hown hx hpc ho) trivial
  | createFails hx hpc ho => exact iff_of_true (own_createFails h hown hx hpc ho) trivial
  | enter hx hpc ho => exact iff_of_true (own_enter h hown hx hpc ho) trivial
  | notify hx hpc ho =>
      refine iff_of_true (hown.keep (put_keeps hx fun _ => ⟨?_, rfl, rfl⟩)
        fun _ _ _ _ _ halive => halive.write ho id) trivial
      simp only [Begun, hpc]
  | wait hx hpc ho hn =>
      refine iff_of_true (hown.keep (put_keeps hx fun _ => ⟨?_, rfl, rfl⟩)
        fun _ _ _ _ _ halive => halive.write ho fun _ => nofun) trivial
      simp only [Begun, hpc]
  | rename hx =>
      exact iff_of_true (hown.keep (put_keeps hx fun hb => ⟨hb, rfl, rfl⟩)
        fun _ _ _ _ _ halive => halive) trivial
  | renameBoth hx _ _ ho =>
      exact iff_of_true (hown.keep (put_keeps hx fun hb => ⟨hb, rfl, rfl⟩)
        fun _ _ _ _ _ hq => hq.write ho id) trivial
  | join ho hb =>
      exact iff_of_true (hown.keep (fun x' hx' hb' => ⟨x', hx', hb', rfl, rfl⟩)
        fun _ _ _ _ _ halive => halive.write ho id) trivial
  | destroy ho hb => exact own_destroy_iff h hown ho hb
  | exit hx =>
      exact iff_of_true (hown.keep (put_keeps hx fun hb => absurd hb id)
        fun _ _ _ _ _ halive => halive) trivial

theorem own_mainOnly (t : Nat) : Own t mainOnly := by
  refine own_iff.mpr fun x hx _ => ?_
  dsimp only [mainOnly] at hx
  split at hx
  · obtain rfl := Option.some.inj hx
    exact ⟨rfl, nofun⟩
  · cases hx

end Process

open Process

/-- **`own_throughout_iff`** — any threads that construct, name, join and destroy `Thread` objects in any
order: the current object of a thread is its own throughout the run, and its `SetName` changes nothing
else, exactly if it constructs no object and its own is not destroyed while it runs. -/
theorem own_throughout_iff (t : Nat) (as : List Act) (s : Process)
    (h : process.exec mainOnly as = some s) :
    (∀ bs u, bs <+: as → process.exec mainOnly bs = some u → Own t u) ↔
      process.Along (Keeps t) mainOnly as :=
  Lib.System.throughout_iff (I := Inv) (fun _ _ _ hi _ _ hst => hi.step (steps hst))
    (fun _ _ _ hi hown hst => own_step_iff hi hown (steps hst)) inv_mainOnly (own_mainOnly t) h

/-- Another thread than the main one starts a thread, which names itself. -/
def startedRun : List Act :=
  [.spawn 1, .construct 1 0 "worker", .create 1 2, .enter 2, .notify 2, .wait 1, .setName 2 "renamed"]

theorem own_startedRun : ∃ s, process.exec mainOnly startedRun = some s ∧ Own 2 s ∧ Own 0 s :=
  ⟨_, rfl, (own_throughout_iff 2 startedRun _ rfl).mpr (by decide) _ _ (List.prefix_refl _) rfl,
    (own_throughout_iff 0 startedRun _ rfl).mpr (by decide) _ _ (List.prefix_refl _) rfl⟩

/-- The main thread starts a thread: its own pointer is that thread's object from then on, its `SetName`
names the other one, and when the object is gone there is nothing to name. -/
def mainStarts : List Act := [.construct 0 0 "worker", .create 0 1, .enter 1, .notify 1, .wait 0]

theorem mainStarts_not_own :
    (¬ ∀ (s : Process) (t : Nat), process.Reachable s → Own t s) ∧
    (∃ s, process.exec mainOnly (mainStarts ++ [.setName 0 "renamed"]) = some s ∧
      (s.thread 0).bind GetThis = some 0 ∧ (s.object 0).map Thread.m_name = some "renamed") ∧
    ∃ s, process.exec mainOnly (mainStarts ++ [.destroy 0 0]) = some s ∧
      (s.SetName 0 "renamed").isNone = true := by
  refine ⟨fun h => ?_, ⟨_, rfl, rfl, rfl⟩, _, rfl, rfl⟩
  have hrun : ∃ s, process.exec mainOnly mainStarts = some s ∧
      (s.thread 0) = some ⟨some 0, "MainThread", none, .running⟩ := ⟨_, rfl, rfl⟩
  obtain ⟨s, hs, hthread⟩ := hrun
  obtain ⟨hthis, -⟩ := h s 0 (Lib.System.reachable_of_exec rfl hs) _ hthread trivial
  cases hthis

end Sylar.Threads
