/-
# Sylar.Hook.Connect — the hooked `connect` (`connect_with_timeout` in `sylar/hook.cpp`).

A connect that is in progress is waited for: a condition timer, a `WRITE` event, `YieldToHold`.  Behind
it success is read off `SO_ERROR`, which is 0 for an established connection and also while there is
none yet.  So the answer is right exactly where `getsockopt` is not reached in progress
(`connect_correct_iff`).  A wake-up by the event or by the call's own timer does not lead there
(`correct_of_undisturbed`).  A failed `addEvent` does, for it goes on to the check instead of
returning, and a `cancelEvent` or `cancelAll` by other code does (`connect_unfinished`).
-/
import Sylar.Hook.Wait

namespace Sylar.Hook

open Fd (FdCtx)
open Lib (guarded)

/-! ## The state of a call -/

/-- What the checks at the top of a hooked call decide. -/
inductive Entry
  /-- The original function is called and its result returned. -/
  | original
  /-- `-1` with `EBADF`. -/
  | refused
  | managed
  deriving DecidableEq, Repr

/-- The checks of `connect_with_timeout`: `t_hook_enable`, and the context of the descriptor. -/
def connectEntry (t_hook_enable : Bool) (ctx : Option FdCtx) : Entry :=
  if t_hook_enable then
    match ctx with
    | none => .refused
    | some ctx =>
        if ctx.m_isClosed then .refused
        else if !ctx.m_isSocket then .original
        else if ctx.m_userNonblock then .original
        else .managed
  else .original

/-- A socket in blocking mode, as its context has it. -/
def socketCtx : FdCtx :=
  { m_isInit := true, m_isSocket := true, m_sysNonblock := true, m_userNonblock := false
    m_isClosed := false, m_fd := 7, m_recvTimeout := Fd.noTimeout, m_sendTimeout := Fd.noTimeout }

/-- The answer of a call that returns 0 or fails. -/
inductive Answer
  | ok
  | error (e : Errno)
  deriving DecidableEq, Repr

/-- The connection, as the kernel has it. -/
inductive Link
  | fresh
  | inProgress
  | connected
  | failed (e : Errno)
  deriving DecidableEq, Repr

/-- What `SO_ERROR` reads. -/
def Link.soError : Link → Nat
  | .failed e => e
  | .fresh | .inProgress | .connected => 0

/-- Where a managed call is. -/
inductive ConnectPc
  /-- Before `connect_f`. -/
  | call
  /-- Before the timer. -/
  | arm
  | addEvent
  /-- From the end of `addEvent` to the end of `YieldToHold`. -/
  | waiting
  /-- Behind it, before `timer->cancel()`. -/
  | behind
  /-- Before the look at `tinfo->cancelled`. -/
  | read
  /-- `addEvent` has failed; before `timer->cancel()`. -/
  | giveUp
  /-- Before `getsockopt`. -/
  | check
  /-- With `errno`, where `rt` is `-1`. -/
  | returned (rt : Int) (errno : Nat)
  deriving DecidableEq, Repr

/-- A managed call of `connect_with_timeout`. -/
structure Connect where
  pc : ConnectPc
  link : Link
  wait : Wait
  deriving DecidableEq, Repr

/-- A step of the call, or of others while it lasts. -/
inductive ConnectAct
  | connect (answer : Answer)
  | arm
  /-- Whether it succeeds. -/
  | addEvent (ok : Bool)
  | resume
  | disarm
  | read
  | getsockopt (answer : Answer)
  /-- The kernel is done: connected or failed. -/
  | done (result : Answer)
  | wait (a : WaitAct)
  deriving DecidableEq, Repr

namespace Connect

/-- Whether nothing can happen any more: the call has returned. -/
def isOver (s : Connect) : Bool :=
  match s.pc with
  | .returned .. => true
  | _ => false

/-- Take a step.  `epoll` does not report a socket as writable while its connect is in progress. -/
def step (timeout_ms : Nat) (s : Connect) : ConnectAct → Option Connect
  | .connect answer =>
      match s.pc, answer with
      | .call, .ok => some { s with link := .connected, pc := .returned 0 0 }
      | .call, .error e =>
          if e = EINPROGRESS then some { s with link := .inProgress, pc := .arm }
          else some { s with link := .failed e, pc := .returned (-1) e }
      | _, _ => none
  | .arm => guarded (s.pc = .arm) { s with wait := s.wait.arm timeout_ms, pc := .addEvent }
  | .addEvent ok =>
      guarded (s.pc = .addEvent)
        (if ok then { s with wait := s.wait.addEvent, pc := .waiting } else { s with pc := .giveUp })
  | .resume =>
      guarded (s.pc = .waiting ∧ s.wait.woken = true)
        { s with wait := s.wait.resume, pc := .behind }
  | .disarm =>
      match s.pc with
      | .behind => some { s with wait := s.wait.disarm, pc := .read }
      | .giveUp => some { s with wait := s.wait.disarm, pc := .check }
      | _ => none
  | .read =>
      guarded (s.pc = .read)
        (if s.wait.cancelled ≠ 0 then { s with pc := .returned (-1) s.wait.cancelled }
        else { s with pc := .check })
  | .getsockopt answer =>
      guarded (s.pc = .check)
        (match answer with
        | .error e => { s with pc := .returned (-1) e }
        | .ok =>
            if s.link.soError = 0 then { s with pc := .returned 0 0 }
            else { s with pc := .returned (-1) s.link.soError })
  | .done result =>
      guarded (s.link = .inProgress)
        (match result with
        | .ok => { s with link := .connected }
        | .error e => { s with link := .failed e })
  | .wait a =>
      if a = .ready ∧ s.link = .inProgress then none
      else (s.wait.step a).map fun w => { s with wait := w }

/-- Before `connect_f`. -/
def initial : Connect := { pc := .call, link := .fresh, wait := .initial }

end Connect

/-- Calls on a descriptor whose context is `ctx`, on a thread with the hook on. -/
def connecting (ctx : FdCtx) (timeout_ms : Nat) : Lib.System Connect ConnectAct where
  init s := connectEntry true (some ctx) = .managed ∧ s = .initial
  step s a := if s.isOver then none else s.step timeout_ms a

namespace Connect

/-- **The answer is right**: 0 for an established connection only, and otherwise `-1` with a reason. -/
def Correct (s : Connect) : Prop :=
  ∀ rt errno, s.pc = .returned rt errno →
    rt = 0 ∧ s.link = .connected ∨ rt = -1 ∧ errno ≠ 0

/-- The step does not read `SO_ERROR` of a connection in progress. -/
def Settled (s : Connect) : ConnectAct → Prop
  | .getsockopt .ok => s.link ≠ .inProgress
  | _ => True

instance (s : Connect) : DecidablePred s.Settled
  | .getsockopt .ok => inferInstanceAs (Decidable (s.link ≠ .inProgress))
  | .getsockopt (.error _) | .connect _ | .arm | .addEvent _ | .resume | .disarm | .read | .done _
  | .wait _ => isTrue trivial

variable {ctx : FdCtx} {timeout_ms : Nat} {s s' s₀ : Connect} {a : ConnectAct}

/-! ## Steps -/

/-- **What each step does**, with what is known before it. -/
inductive Steps (timeout_ms : Nat) (s : Connect) : ConnectAct → Connect → Prop
  | connected : s.pc = .call → Steps timeout_ms s (.connect .ok)
      { s with link := .connected, pc := .returned 0 0 }
  | inProgress : s.pc = .call → Steps timeout_ms s (.connect (.error EINPROGRESS))
      { s with link := .inProgress, pc := .arm }
  | failed {e} : s.pc = .call → Steps timeout_ms s (.connect (.error e))
      { s with link := .failed e, pc := .returned (-1) e }
  | arm : s.pc = .arm → Steps timeout_ms s .arm
      { s with wait := s.wait.arm timeout_ms, pc := .addEvent }
  | added : s.pc = .addEvent → Steps timeout_ms s (.addEvent true)
      { s with wait := s.wait.addEvent, pc := .waiting }
  | notAdded : s.pc = .addEvent → Steps timeout_ms s (.addEvent false) { s with pc := .giveUp }
  | resume : s.pc = .waiting → s.wait.woken = true → Steps timeout_ms s .resume
      { s with wait := s.wait.resume, pc := .behind }
  | disarm : s.pc = .behind → Steps timeout_ms s .disarm { s with wait := s.wait.disarm, pc := .read }
  | disarmFailed : s.pc = .giveUp → Steps timeout_ms s .disarm
      { s with wait := s.wait.disarm, pc := .check }
  | timedOut : s.pc = .read → s.wait.cancelled ≠ 0 → Steps timeout_ms s .read
      { s with pc := .returned (-1) s.wait.cancelled }
  | notTimedOut : s.pc = .read → s.wait.cancelled = 0 → Steps timeout_ms s .read
      { s with pc := .check }
  | unread {e} : s.pc = .check → Steps timeout_ms s (.getsockopt (.error e))
      { s with pc := .returned (-1) e }
  | noError : s.pc = .check → s.link.soError = 0 → Steps timeout_ms s (.getsockopt .ok)
      { s with pc := .returned 0 0 }
  | error : s.pc = .check → s.link.soError ≠ 0 → Steps timeout_ms s (.getsockopt .ok)
      { s with pc := .returned (-1) s.link.soError }
  | done {result l} : s.link = .inProgress → l = .connected ∨ (∃ e, l = .failed e) →
      Steps timeout_ms s (.done result) { s with link := l }
  | wait {a w} : (a = .ready → s.link ≠ .inProgress) → s.wait.step a = some w →
      Steps timeout_ms s (.wait a) { s with wait := w }

theorem steps (h : (connecting ctx timeout_ms).step s a = some s') :
    s.isOver = false ∧ Steps timeout_ms s a s' := by
  simp only [connecting] at h
  split at h
  · cases h
  rename_i hover
  refine ⟨by simpa using hover, ?_⟩
  cases a with
  | connect answer =>
      simp only [step] at h
      split at h
      · rename_i hpc
        exact Option.some.inj h ▸ .connected hpc
      · rename_i e hpc
        split at h
        · rename_i he
          exact he ▸ Option.some.inj h ▸ .inProgress hpc
        · exact Option.some.inj h ▸ .failed hpc
      · cases h
  | arm =>
      obtain ⟨hpc, rfl⟩ := Lib.guarded_eq_some.mp h
      exact .arm hpc
  | addEvent ok =>
      obtain ⟨hpc, rfl⟩ := Lib.guarded_eq_some.mp h
      cases ok with
      | true => exact .added hpc
      | false => exact .notAdded hpc
  | resume =>
      obtain ⟨⟨hpc, hwoken⟩, rfl⟩ := Lib.guarded_eq_some.mp h
      exact .resume hpc hwoken
  | disarm =>
      simp only [step] at h
      split at h
      · rename_i hpc
        exact Option.some.inj h ▸ .disarm hpc
      · rename_i hpc
        exact Option.some.inj h ▸ .disarmFailed hpc
      · cases h
  | read =>
      obtain ⟨hpc, rfl⟩ := Lib.guarded_eq_some.mp h
      split
      · rename_i hset
        exact .timedOut hpc hset
      · rename_i hset
        exact .notTimedOut hpc (by simpa using hset)
  | getsockopt answer =>
      obtain ⟨hpc, rfl⟩ := Lib.guarded_eq_some.mp h
      cases answer with
      | error e => exact .unread hpc
      | ok =>
          simp only
          split
          · rename_i hzero
            exact .noError hpc hzero
          · rename_i hne
            exact .error hpc hne
  | done result =>
      obtain ⟨hlink, rfl⟩ := Lib.guarded_eq_some.mp h
      cases result with
      | ok => exact .done hlink (.inl rfl)
      | error e => exact .done hlink (.inr ⟨e, rfl⟩)
  | wait a =>
      simp only [step] at h
      split at h
      · cases h
      · rename_i hready
        obtain ⟨w, hw, rfl⟩ := Option.map_eq_some_iff.mp h
        exact .wait (fun ha hlink => hready ⟨ha, hlink⟩) hw

/-! ## When the answer is right -/

/-- What holds in every run that is settled. -/
structure Inv (s : Connect) : Prop where
  correct : s.Correct
  /-- Past `connect_f` the connection has been tried. -/
  tried : s.pc ≠ .call → s.link ≠ .fresh

theorem correct_of_open (h : ∀ rt errno, s.pc ≠ .returned rt errno) : s.Correct :=
  fun rt errno hpc => absurd hpc (h rt errno)

theorem correct_fail {e : Nat} (hpc : s.pc = .returned (-1) e) (he : e ≠ 0) : s.Correct := by
  intro rt errno h
  rw [hpc] at h
  cases h
  exact .inr ⟨rfl, he⟩

theorem correct_success (hpc : s.pc = .returned 0 0) (hlink : s.link = .connected) : s.Correct := by
  intro rt errno h
  rw [hpc] at h
  cases h
  exact .inl ⟨rfl, hlink⟩

theorem inv_step (hs : Inv s) (hc : s.Settled a) (hover : s.isOver = false)
    (h : Steps timeout_ms s a s') : Inv s' := by
  have hopen : ∀ rt errno, s.pc ≠ .returned rt errno := by
    intro rt errno hpc
    simp [isOver, hpc] at hover
  cases h with
  | connected hpc => exact ⟨correct_success rfl rfl, fun _ h => by cases h⟩
  | inProgress hpc => exact ⟨correct_of_open fun _ _ h => (by cases h), fun _ h => by cases h⟩
  | @failed e hpc => exact ⟨correct_fail rfl e.2, fun _ h => by cases h⟩
  | arm hpc | added hpc | notAdded hpc | disarm hpc | disarmFailed hpc | notTimedOut hpc =>
      exact ⟨correct_of_open fun _ _ h => (by cases h), fun _ => hs.tried (by simp [hpc])⟩
  | resume hpc => exact ⟨correct_of_open fun _ _ h => (by cases h), fun _ => hs.tried (by simp [hpc])⟩
  | timedOut hpc hset => exact ⟨correct_fail rfl hset, fun _ => hs.tried (by simp [hpc])⟩
  | @unread e hpc => exact ⟨correct_fail rfl e.2, fun _ => hs.tried (by simp [hpc])⟩
  | error hpc hne => exact ⟨correct_fail rfl hne, fun _ => hs.tried (by simp [hpc])⟩
  | noError hpc hzero =>
      have htried := hs.tried (by simp [hpc])
      refine ⟨correct_success rfl ?_, fun _ => htried⟩
      -- `SO_ERROR` reads 0 in three cases, and two of them are excluded
      cases hlink : s.link with
      | fresh => exact absurd hlink htried
      | inProgress => exact absurd hlink hc
      | connected => rfl
      | failed e =>
          rw [hlink] at hzero
          exact absurd hzero e.2
  | done hlink hl =>
      refine ⟨correct_of_open hopen, fun _ h => ?_⟩
      rcases hl with rfl | ⟨e, rfl⟩ <;> cases h
  | wait hready hw => exact ⟨correct_of_open hopen, hs.tried⟩

theorem inv_of_reachable (hs : (connecting ctx timeout_ms).ReachableWhen Settled s) : Inv s := by
  refine hs.invariant ?_ fun s a s' ih hc h => ?_
  · rintro s ⟨-, rfl⟩
    exact ⟨correct_of_open fun _ _ h => (by cases h), fun h => absurd rfl h⟩
  · obtain ⟨hover, h⟩ := steps h
    exact inv_step ih hc hover h

/-- A call that has returned takes no step. -/
theorem exec_of_over {as : List ConnectAct} (hover : s.isOver = true)
    (h : (connecting ctx timeout_ms).exec s as = some s') : s' = s := by
  cases as with
  | nil => exact (Option.some.inj h).symm
  | cons a as =>
      obtain ⟨t, ht, -⟩ := Option.bind_eq_some_iff.mp h
      rw [(steps ht).1] at hover
      cases hover

/-- **When a hooked `connect` is right.**  Its answer is right if and only if the call does not read
`SO_ERROR` of a connection in progress. -/
theorem connect_correct_iff (ctx : FdCtx) (timeout_ms : Nat) (s₀ s : Connect)
    (as : List ConnectAct) (h0 : (connecting ctx timeout_ms).init s₀)
    (hrun : (connecting ctx timeout_ms).exec s₀ as = some s) (hover : s.isOver = true) :
    s.Correct ↔ (connecting ctx timeout_ms).Along Settled s₀ as := by
  refine ⟨fun hcorrect => ?_, fun hc => ?_⟩
  · by_contra hno
    obtain ⟨bs, a, cs, t, t', rfl, hbs, hstep, ha⟩ := Lib.System.exists_violation hrun hno
    obtain ⟨u, hu, hrest⟩ := Lib.System.exec_append_eq_some.mp hrun
    obtain rfl : t = u := Option.some.inj (hbs.symm.trans hu)
    rw [Lib.System.exec_cons, hstep] at hrest
    have hsteps := (steps hstep).2
    -- the step that reads `SO_ERROR` in progress returns 0, and nothing comes after it
    cases hsteps with
    | noError hpc hzero =>
        obtain rfl := exec_of_over rfl hrest
        have hlink : t.link = .inProgress := by
          by_contra hne
          exact ha hne
        rcases hcorrect 0 0 rfl with ⟨-, hconn⟩ | ⟨hrt, -⟩
        · rw [show t.link = .connected from hconn] at hlink
          cases hlink
        · cases hrt
    | error hpc hne =>
        refine ha fun hlink => hne ?_
        rw [hlink]
        rfl
    | _ => exact ha trivial
  · exact (inv_of_reachable (Lib.System.ReachableWhen.exec (.init h0) hc hrun)).correct

/-! ## Undisturbed calls -/

/-- `addEvent` succeeds, and nobody else cancels the event while the connect is in progress. -/
def Undisturbed (s : Connect) : ConnectAct → Prop
  | .addEvent ok => ok = true
  | .wait .cancel => s.link ≠ .inProgress
  | _ => True

/-- What holds in every undisturbed run. -/
structure Calm (s : Connect) : Prop where
  early : s.pc = .call → s.wait = .initial
  told : 0 < s.wait.firing → s.wait.cancelled ≠ 0
  /-- A fiber that is awake has been told to give up, or the kernel is done. -/
  awake : s.wait.woken = true ∨ s.pc = .behind ∨ s.pc = .read →
    s.link ≠ .inProgress ∨ s.wait.cancelled ≠ 0
  added : s.pc ≠ .giveUp
  check : s.pc = .check → s.link ≠ .inProgress

theorem calm_wait {b : WaitAct} {w : Wait} (hs : Calm s) (hc : s.Undisturbed (.wait b))
    (hready : b = .ready → s.link ≠ .inProgress) (hw : s.wait.step b = some w) :
    Calm { s with wait := w } := by
  obtain ⟨htold, hkept⟩ := Wait.step_told hw hs.told
  refine ⟨fun hpc => ?_, htold, fun hawake => ?_, hs.added, hs.check⟩
  · rw [hs.early hpc] at hw
    exact Wait.step_initial hw
  rcases hawake with hwoken | hpc
  · rcases Wait.step_woken hw hwoken with hold | rfl | rfl | hfiring
    · exact (hs.awake (.inl hold)).imp id hkept
    · exact .inl (hready rfl)
    · exact .inl hc
    · exact .inr (hkept (hs.told hfiring))
  · exact (hs.awake (.inr hpc)).imp id hkept

theorem calm_step (hs : Calm s) (hc : s.Undisturbed a) (h : Steps timeout_ms s a s') : Calm s' := by
  cases h with
  | connected hpc | failed hpc =>
      refine ⟨fun h => ?_, hs.told, fun _ => .inl fun h => ?_, fun h => ?_, fun h => ?_⟩ <;> cases h
  | inProgress hpc =>
      -- nothing has happened to the fiber before it waits
      have hnew := hs.early hpc
      refine ⟨fun h => (by cases h), hs.told, fun hawake => ?_, fun h => (by cases h),
        fun h => by cases h⟩
      rcases hawake with hwoken | h | h
      · rw [show s.wait = .initial from hnew] at hwoken
        cases hwoken
      · cases h
      · cases h
  | arm hpc =>
      refine ⟨fun h => (by cases h), by simpa using hs.told, fun hawake => ?_,
        fun h => (by cases h), fun h => by cases h⟩
      rcases hawake with hwoken | h | h
      · simpa using hs.awake (.inl (by simpa using hwoken))
      · cases h
      · cases h
  | added hpc =>
      refine ⟨fun h => (by cases h), hs.told, fun hawake => ?_, fun h => (by cases h),
        fun h => by cases h⟩
      rcases hawake with hwoken | h | h
      · exact hs.awake (.inl hwoken)
      · cases h
      · cases h
  | notAdded hpc => cases hc
  | disarmFailed hpc => exact absurd hpc hs.added
  | resume hpc hwoken =>
      exact ⟨fun h => (by cases h), hs.told, fun _ => hs.awake (.inl hwoken),
        fun h => (by cases h), fun h => by cases h⟩
  | disarm hpc =>
      exact ⟨fun h => (by cases h), hs.told, fun _ => hs.awake (.inr (.inl hpc)),
        fun h => (by cases h), fun h => by cases h⟩
  | timedOut hpc hset =>
      exact ⟨fun h => (by cases h), hs.told, fun _ => .inr hset, fun h => (by cases h),
        fun h => by cases h⟩
  | notTimedOut hpc hzero =>
      -- the fiber has been told nothing, so the kernel is what has woken it
      have hdone : s.link ≠ .inProgress :=
        (hs.awake (.inr (.inr hpc))).resolve_right fun h => h hzero
      exact ⟨fun h => (by cases h), hs.told, fun _ => .inl hdone, fun h => (by cases h),
        fun _ => hdone⟩
  | unread hpc | noError hpc | error hpc =>
      -- the check is reached with the kernel done
      exact ⟨fun h => (by cases h), hs.told, fun _ => .inl (hs.check hpc), fun h => (by cases h),
        fun h => by cases h⟩
  | @done result l hlink hl =>
      have hdone : l ≠ .inProgress := by
        rcases hl with rfl | ⟨e, rfl⟩ <;> intro h <;> cases h
      exact ⟨hs.early, hs.told, fun _ => .inl hdone, hs.added, fun _ => hdone⟩
  | wait hready hw => exact calm_wait hs hc hready hw

theorem calm_of_reachable (hs : (connecting ctx timeout_ms).ReachableWhen Undisturbed s) :
    Calm s := by
  refine hs.invariant ?_ fun s a s' ih hc h => calm_step ih hc (steps h).2
  rintro s ⟨-, rfl⟩
  refine ⟨fun _ => rfl, fun h => (by cases h), fun hawake => ?_, fun h => (by cases h),
    fun h => by cases h⟩
  rcases hawake with h | h | h <;> cases h

/-- **An undisturbed connect is right**: writability and the call's own timer do not lead to the check
before the kernel is done. -/
theorem correct_of_undisturbed (hs : (connecting ctx timeout_ms).ReachableWhen Undisturbed s) :
    s.Correct := by
  refine (hs.invariant_of (P := Inv) (fun _ => calm_of_reachable) ?_ ?_).correct
  · rintro s ⟨-, rfl⟩
    exact ⟨correct_of_open fun _ _ h => (by cases h), fun h => absurd rfl h⟩
  · intro s a s' hcalm ih _ h
    obtain ⟨hover, h⟩ := steps h
    refine inv_step ih ?_ hover h
    cases h with
    | noError hpc | error hpc => exact hcalm.check hpc
    | _ => exact trivial

/-! ## Runs -/

/-- The connection is established and the event reported. -/
def establishedRun : List ConnectAct :=
  [.connect (.error EINPROGRESS), .arm, .addEvent true, .done .ok, .wait .ready, .resume, .disarm,
    .read, .getsockopt .ok]

theorem connect_correct_established :
    (((connecting socketCtx 5000).exec .initial establishedRun).get (by decide)).Correct :=
  (connect_correct_iff socketCtx 5000 .initial _ establishedRun ⟨by decide, rfl⟩
    (Option.some_get _).symm (by decide)).mpr (by decide)

/-- `addEvent` fails. -/
def notAddedRun : List ConnectAct :=
  [.connect (.error EINPROGRESS), .arm, .addEvent false, .disarm, .getsockopt .ok]

/-- Another fiber cancels the event. -/
def cancelledRun : List ConnectAct :=
  [.connect (.error EINPROGRESS), .arm, .addEvent true, .wait .cancel, .resume, .disarm, .read,
    .getsockopt .ok]

/-- **An unfinished connect is reported as a success**, where `addEvent` fails and where other code
cancels the event. -/
theorem connect_unfinished :
    (∃ s, (connecting socketCtx 5000).exec .initial notAddedRun = some s ∧
      s.pc = .returned 0 0 ∧ s.link = .inProgress ∧ ¬ s.Correct) ∧
    ∃ s, (connecting socketCtx 5000).exec .initial cancelledRun = some s ∧
      s.pc = .returned 0 0 ∧ s.link = .inProgress ∧ ¬ s.Correct := by
  have hwrong : ∀ s : Connect, s.pc = .returned 0 0 → s.link = .inProgress → ¬ s.Correct := by
    intro s hpc hlink hcorrect
    rcases hcorrect 0 0 hpc with ⟨-, hconn⟩ | ⟨hrt, -⟩
    · rw [hlink] at hconn
      cases hconn
    · cases hrt
  have hadd : ((connecting socketCtx 5000).exec .initial notAddedRun).map (fun s => (s.pc, s.link))
      = some (.returned 0 0, .inProgress) := by decide
  have hcancel : ((connecting socketCtx 5000).exec .initial cancelledRun).map
      (fun s => (s.pc, s.link)) = some (.returned 0 0, .inProgress) := by decide
  obtain ⟨s, hs, hend⟩ := Option.map_eq_some_iff.mp hadd
  obtain ⟨u, hu, hend'⟩ := Option.map_eq_some_iff.mp hcancel
  simp only [Prod.mk.injEq] at hend hend'
  exact ⟨⟨s, hs, hend.1, hend.2, hwrong s hend.1 hend.2⟩,
    u, hu, hend'.1, hend'.2, hwrong u hend'.1 hend'.2⟩

end Connect

end Sylar.Hook
