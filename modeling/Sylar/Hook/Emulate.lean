/-
# Sylar.Hook.Emulate — what a blocking call leaves behind (`do_io` in `sylar/hook.cpp`).

A managed call waits any number of times.  Each round has a timer of its own, and all of them share one
`timer_info`, which their callbacks hold by a `weak_ptr`.  A callback that `listExpiredCb` has taken out
runs some time later, on another thread and perhaps in a later round, in the steps of `OnTimer` and of
the lambda in `do_io`; the `shared_ptr` it locks keeps the `timer_info` alive until it is done.

`Blocking` is the call with the timer set it shares with everybody else.  Whatever the original function
and `addEvent` answer, and whenever the others move, on its return the call has no timer in the set, has
no event registered, and has not passed a failure of the original function with `EAGAIN` or `EINTR` on;
what its callbacks still do once the `timer_info` is gone is nothing; and it has timed out only if one
of them has run (`emulated`).  The original function may itself fail with `ETIMEDOUT`, and then nothing
has run (`timed_out_itself`).
-/
import Sylar.Hook.DoIo
import Sylar.Timers.Pending

namespace Sylar.Hook

open Fd (FdCtx)
open Lib (guarded)
open Scheduler (Callback)
open Timers (TimeManager Op timerSet)

/-! ## The state of a call -/

/-- Where the result of a call comes from. -/
inductive Cause
  | original (r : Result)
  /-- `addEvent` has failed. -/
  | noEvent (e : Errno)
  /-- `tinfo->cancelled`. -/
  | cancelled (errno : Nat)
  deriving DecidableEq, Repr

namespace Cause

/-- What `do_io` returns. -/
def rt : Cause → Int
  | .original (.ok n) => n
  | .original (.error _) | .noEvent _ | .cancelled _ => -1

/-- `errno`, where that is `-1`. -/
def errno : Cause → Nat
  | .original (.ok _) => 0
  | .original (.error e) | .noEvent e => e
  | .cancelled e => e

/-- A result that may be returned: not `EAGAIN` or `EINTR` of the original function, and a timeout only
where a callback has run. -/
def Due (ran : Bool) : Cause → Prop
  | .original r => r ≠ .error EAGAIN ∧ r ≠ .error EINTR
  | .noEvent _ => True
  | .cancelled e => e = ETIMEDOUT ∧ ran = true

end Cause

/-- Where a managed call is. -/
inductive BlockingPc
  /-- Before `fun`. -/
  | call
  | answered (r : Result)
  /-- Before the timer. -/
  | arm
  | addEvent
  /-- From the end of `addEvent` to the end of `YieldToHold`. -/
  | waiting
  /-- Behind it, before `timer->cancel()`. -/
  | behind
  /-- Before the look at `tinfo->cancelled`. -/
  | look
  /-- `addEvent` has failed; before `timer->cancel()`. -/
  | giveUp (e : Errno)
  | returned (c : Cause)
  deriving DecidableEq, Repr

/-- The call has a timer that it has not cancelled. -/
def BlockingPc.isArmed : BlockingPc → Bool
  | .addEvent | .waiting | .behind | .giveUp _ => true
  | .call | .answered _ | .arm | .look | .returned _ => false

/-- Where a callback is that has been taken out of the timer set. -/
inductive Stage
  /-- Before the `lock` in `OnTimer`. -/
  | taken
  /-- It holds the `timer_info`, before the look at `cancelled`. -/
  | locked
  /-- It has found 0 there. -/
  | passed
  /-- It has set `cancelled`, before `cancelEvent`. -/
  | told
  /-- Before the `shared_ptr` is dropped. -/
  | leaving
  | over
  deriving DecidableEq, Repr

/-- The callback holds the `timer_info`. -/
def Stage.holds : Stage → Bool
  | .locked | .passed | .told | .leaving => true
  | .taken | .over => false

/-- A managed call of `do_io`, the timer set, and its callbacks. -/
structure Blocking where
  pc : BlockingPc
  manager : TimeManager
  /-- `timer`, of this round. -/
  timer : Option Nat
  /-- The timers the call has armed, as long as their addresses are not given out again. -/
  mine : List Nat
  /-- `tinfo->cancelled`. -/
  cancelled : Nat
  callbacks : List Stage
  /-- The event is registered with the fiber. -/
  registered : Bool
  /-- The fiber has been scheduled. -/
  woken : Bool
  /-- A callback of one of its timers has run. -/
  ran : Bool

/-- A step of the call or of others. -/
inductive BlockingAct
  | call (r : Result)
  | examine
  /-- The timer is created at `p`. -/
  | arm (p : Nat) (now : UInt64)
  | addEvent (answer : Answer)
  | resume
  | disarm
  | look
  /-- Others use the timer set. -/
  | perform (op : Op)
  /-- `epoll_wait` reports the event, or other code calls `cancelEvent` or `cancelAll`. -/
  | trigger
  /-- Other code calls `delEvent`. -/
  | delEvent
  /-- The next step of a callback; `rt` is whether the `epoll_ctl` in its `cancelEvent` succeeds. -/
  | callback (i : Nat) (rt : Bool)
  deriving DecidableEq, Repr

namespace Blocking

/-- The call has returned, and dropped its pointer to the `timer_info`. -/
def isOver (s : Blocking) : Bool :=
  match s.pc with
  | .returned _ => true
  | _ => false

/-- The `timer_info` is there. -/
def alive (s : Blocking) : Bool := !s.isOver || s.callbacks.any Stage.holds

/-- `triggerEvent`, if the event is there. -/
def wake (s : Blocking) : Blocking :=
  if s.registered then { s with registered := false, woken := true } else s

/-- The next stage of a callback. -/
def advance (s : Blocking) (i : Nat) (stage : Stage) : Blocking :=
  { s with callbacks := s.callbacks.set i stage }

/-- `OnTimer`, and the lambda behind it. -/
def callback (s : Blocking) (i : Nat) (rt : Bool) : Option Blocking :=
  match s.callbacks[i]? with
  | some .taken => some (s.advance i (if s.alive then .locked else .over))
  | some .locked => some (s.advance i (if s.cancelled ≠ 0 then .leaving else .passed))
  | some .passed => some { s.advance i .told with cancelled := ETIMEDOUT, ran := true }
  | some .told => some ((if rt then s.wake else s).advance i .leaving)
  | some .leaving => some (s.advance i .over)
  | some .over | none => none

/-- Others do not have the lambda of the call, nor drop its pointer to the timer. -/
def Foreign (me : Callback) (s : Blocking) : Op → Prop
  | .call (.addTimer _ _ cb _ _) => cb ≠ some me
  | .free p => s.timer ≠ some p
  | .call (.cancel _) | .call (.refresh ..) | .call (.reset ..) | .getNextTimer _
  | .listExpiredCb .. => True

instance (me : Callback) (s : Blocking) : DecidablePred (Foreign me s)
  | .call (.addTimer _ _ cb _ _) => inferInstanceAs (Decidable (cb ≠ some me))
  | .free p => inferInstanceAs (Decidable (s.timer ≠ some p))
  | .call (.cancel _) | .call (.refresh ..) | .call (.reset ..) | .getNextTimer _
  | .listExpiredCb .. => isTrue trivial

/-- How many callbacks of the call the operation returns. -/
def extracted (me : Callback) (m : TimeManager) : Op → Nat
  | .listExpiredCb now tmp => (m.listExpiredCb now tmp).2.count (some me)
  | .call _ | .getNextTimer _ | .free _ => 0

/-- Take a step. -/
def step (timeout : Nat) (me : Callback) (s : Blocking) : BlockingAct → Option Blocking
  | .call r => guarded (s.pc = .call) { s with pc := .answered r }
  | .examine =>
      match s.pc with
      | .answered (.error e) =>
          if e = EINTR then some { s with pc := .call }
          else if e = EAGAIN then some { s with pc := .arm }
          else some { s with pc := .returned (.original (.error e)) }
      | .answered (.ok n) => some { s with pc := .returned (.original (.ok n)) }
      | _ => none
  | .arm p now =>
      if s.pc = .arm then
        if timeout ≠ Fd.noTimeout then
          (s.manager.call (.addTimer p (UInt64.ofNat timeout) (some me) false now)).map fun r =>
            { s with manager := r.1, timer := some p, mine := p :: s.mine, pc := .addEvent }
        else some { s with timer := none, pc := .addEvent }
      else none
  | .addEvent .ok => guarded (s.pc = .addEvent) { s with registered := true, pc := .waiting }
  | .addEvent (.error e) => guarded (s.pc = .addEvent) { s with pc := .giveUp e }
  | .resume => guarded (s.pc = .waiting ∧ s.woken = true) { s with woken := false, pc := .behind }
  | .disarm =>
      let cancel (pc : BlockingPc) : Option Blocking :=
        match s.timer with
        | none => some { s with pc := pc }
        | some p =>
            (s.manager.cancel p).map fun r => { s with manager := r.1, timer := none, pc := pc }
      match s.pc with
      | .behind => cancel .look
      | .giveUp e => cancel (.returned (.noEvent e))
      | _ => none
  | .look =>
      guarded (s.pc = .look)
        (if s.cancelled ≠ 0 then { s with pc := .returned (.cancelled s.cancelled) }
        else { s with pc := .call })
  | .perform op =>
      if s.Foreign me op then
        (s.manager.perform op).map fun m =>
          { s with
            manager := m
            mine := s.mine.filter fun p => !decide (op.Creates p)
            callbacks := s.callbacks ++ List.replicate (extracted me s.manager op) .taken }
      else none
  | .trigger => some s.wake
  | .delEvent => some { s with registered := false }
  | .callback i rt => s.callback i rt

/-- Behind the checks, with the timers of others in the set. -/
def initial (m : TimeManager) : Blocking :=
  { pc := .call, manager := m, timer := none, mine := [], cancelled := 0, callbacks := []
    registered := false, woken := false, ran := false }

end Blocking

/-- Calls on a descriptor whose context is `ctx`, on a thread with the hook on; `me` is the call's
lambda. -/
def blocking (ctx : FdCtx) (timeout_so : TimeoutSo) (me : Callback) :
    Lib.System Blocking BlockingAct where
  init s := ioEntry true (some ctx) = .managed ∧
    ∃ m, timerSet.Reachable m ∧ (∀ p, (m.deref p).m_cb ≠ some me) ∧ s = .initial m
  step s a := s.step (getTimeout ctx timeout_so) me a

namespace Blocking

variable {ctx : FdCtx} {timeout_so : TimeoutSo} {timeout : Nat} {me : Callback} {s s' : Blocking}
  {a : BlockingAct}

/-! ## Steps -/

/-- The way on behind `timer->cancel()`. -/
inductive Onward : BlockingPc → BlockingPc → Prop
  | woken : Onward .behind .look
  | gaveUp (e : Errno) : Onward (.giveUp e) (.returned (.noEvent e))

/-- **What each step does**, with what is known before it. -/
inductive Steps (timeout : Nat) (me : Callback) (s : Blocking) : BlockingAct → Blocking → Prop
  | call {r} : s.pc = .call → Steps timeout me s (.call r) { s with pc := .answered r }
  | again : s.pc = .answered (.error EINTR) → Steps timeout me s .examine { s with pc := .call }
  | block : s.pc = .answered (.error EAGAIN) → Steps timeout me s .examine { s with pc := .arm }
  | finish {r} : s.pc = .answered r → r ≠ .error EINTR → r ≠ .error EAGAIN →
      Steps timeout me s .examine { s with pc := .returned (.original r) }
  | arm {p now r} : s.pc = .arm →
      s.manager.call (.addTimer p (UInt64.ofNat timeout) (some me) false now) = some r →
      Steps timeout me s (.arm p now)
        { s with manager := r.1, timer := some p, mine := p :: s.mine, pc := .addEvent }
  | noTimer {p now} : s.pc = .arm →
      Steps timeout me s (.arm p now) { s with timer := none, pc := .addEvent }
  | added : s.pc = .addEvent →
      Steps timeout me s (.addEvent .ok) { s with registered := true, pc := .waiting }
  | notAdded {e} : s.pc = .addEvent →
      Steps timeout me s (.addEvent (.error e)) { s with pc := .giveUp e }
  | resume : s.pc = .waiting → s.woken = true →
      Steps timeout me s .resume { s with woken := false, pc := .behind }
  | disarm {pc p r} : Onward s.pc pc → s.timer = some p → s.manager.cancel p = some r →
      Steps timeout me s .disarm { s with manager := r.1, timer := none, pc := pc }
  | noCancel {pc} : Onward s.pc pc → s.timer = none →
      Steps timeout me s .disarm { s with pc := pc }
  | timedOut : s.pc = .look → s.cancelled ≠ 0 →
      Steps timeout me s .look { s with pc := .returned (.cancelled s.cancelled) }
  | retry : s.pc = .look → s.cancelled = 0 → Steps timeout me s .look { s with pc := .call }
  | perform {op m} : s.Foreign me op → s.manager.perform op = some m →
      Steps timeout me s (.perform op)
        { s with
          manager := m
          mine := s.mine.filter fun p => !decide (op.Creates p)
          callbacks := s.callbacks ++ List.replicate (extracted me s.manager op) .taken }
  | trigger : Steps timeout me s .trigger s.wake
  | delEvent : Steps timeout me s .delEvent { s with registered := false }
  | callback {i rt t} : s.callback i rt = some t → Steps timeout me s (.callback i rt) t

theorem examine_steps (h : s.step timeout me .examine = some s') :
    Steps timeout me s .examine s' := by
  simp only [step] at h
  split at h
  · rename_i e hpc
    split at h
    · rename_i he
      subst he
      exact Option.some.inj h ▸ .again hpc
    · rename_i hne
      split at h
      · rename_i he
        subst he
        exact Option.some.inj h ▸ .block hpc
      · rename_i hne'
        exact Option.some.inj h ▸ .finish hpc (by simpa using hne) (by simpa using hne')
  · rename_i n hpc
    exact Option.some.inj h ▸ .finish hpc (by simp) (by simp)
  · cases h

theorem disarm_steps (h : s.step timeout me .disarm = some s') :
    Steps timeout me s .disarm s' := by
  have hcancel : ∀ pc, Onward s.pc pc →
      (match s.timer with
        | none => some { s with pc := pc }
        | some p =>
            (s.manager.cancel p).map fun r => { s with manager := r.1, timer := none, pc := pc })
        = some s' → Steps timeout me s .disarm s' := by
    intro pc hpc h
    split at h
    · rename_i htimer
      exact Option.some.inj h ▸ .noCancel hpc htimer
    · rename_i p htimer
      obtain ⟨r, hr, rfl⟩ := Option.map_eq_some_iff.mp h
      exact .disarm hpc htimer hr
  simp only [step] at h
  split at h
  · rename_i hpc
    exact hcancel .look (hpc ▸ .woken) h
  · rename_i e hpc
    exact hcancel (.returned (.noEvent e)) (hpc ▸ .gaveUp e) h
  · cases h

theorem steps (h : (blocking ctx timeout_so me).step s a = some s') :
    Steps (getTimeout ctx timeout_so) me s a s' := by
  change s.step (getTimeout ctx timeout_so) me a = some s' at h
  cases a with
  | examine => exact examine_steps h
  | disarm => exact disarm_steps h
  | call r =>
      obtain ⟨hpc, rfl⟩ := Lib.guarded_eq_some.mp h
      exact .call hpc
  | arm p now =>
      simp only [step] at h
      split at h
      · rename_i hpc
        split at h
        · obtain ⟨r, hr, rfl⟩ := Option.map_eq_some_iff.mp h
          exact .arm hpc hr
        · exact Option.some.inj h ▸ .noTimer hpc
      · cases h
  | addEvent answer =>
      cases answer with
      | ok =>
          obtain ⟨hpc, rfl⟩ := Lib.guarded_eq_some.mp h
          exact .added hpc
      | error e =>
          obtain ⟨hpc, rfl⟩ := Lib.guarded_eq_some.mp h
          exact .notAdded hpc
  | resume =>
      obtain ⟨⟨hpc, hwoken⟩, rfl⟩ := Lib.guarded_eq_some.mp h
      exact .resume hpc hwoken
  | look =>
      obtain ⟨hpc, rfl⟩ := Lib.guarded_eq_some.mp h
      split
      · rename_i hset
        exact .timedOut hpc hset
      · rename_i hset
        exact .retry hpc (by simpa using hset)
  | perform op =>
      simp only [step] at h
      split at h
      · rename_i hforeign
        obtain ⟨m, hm, rfl⟩ := Option.map_eq_some_iff.mp h
        exact .perform hforeign hm
      · cases h
  | trigger => exact Option.some.inj h ▸ .trigger
  | delEvent => exact Option.some.inj h ▸ .delEvent
  | callback i rt => exact .callback h

theorem wake_eq (s : Blocking) :
    s.wake = { s with registered := false, woken := s.registered || s.woken } := by
  obtain ⟨_, _, _, _, _, _, registered, _, _⟩ := s
  cases registered with
  | true => rfl
  | false => rfl

/-- A callback goes on a stage, may set `cancelled`, and may cancel the event. -/
theorem callback_cases {i : Nat} {rt : Bool} (h : s.callback i rt = some s') :
    ∃ stage, s' = s.advance i stage ∨ s' = s.wake.advance i stage ∨
      s' = { s.advance i stage with cancelled := ETIMEDOUT, ran := true } := by
  unfold callback at h
  split at h
  · exact ⟨_, .inl (Option.some.inj h).symm⟩
  · exact ⟨_, .inl (Option.some.inj h).symm⟩
  · exact ⟨_, .inr (.inr (Option.some.inj h).symm)⟩
  · obtain rfl := Option.some.inj h
    cases rt with
    | true => exact ⟨_, .inr (.inl rfl)⟩
    | false => exact ⟨_, .inl rfl⟩
  · exact ⟨_, .inl (Option.some.inj h).symm⟩
  · cases h
  · cases h

/-! ## The timers of a call -/

/-- The timers of the call in the timer set: only the one of this round, until it is cancelled. -/
structure Owns (m : TimeManager) (timer : Option Nat) (mine : List Nat) (pc : BlockingPc) : Prop where
  wf : m.WF False
  pending : ∀ p ∈ mine, m.Pending p
  live : ∀ p ∈ mine, m.Live p → timer = some p ∧ pc.isArmed = true

namespace Owns

variable {m m' : TimeManager} {timer timer' : Option Nat} {mine : List Nat} {pc pc' : BlockingPc}
  {p : Nat}

theorem onto (h : Owns m timer mine pc) (hpc : pc.isArmed = true → pc'.isArmed = true) :
    Owns m timer mine pc' :=
  ⟨h.wf, h.pending, fun p hp hl => ⟨(h.live p hp hl).1, hpc (h.live p hp hl).2⟩⟩

/-- Where it has no timer to cancel, there is none in the set. -/
theorem quiet (h : Owns m timer mine pc) (hno : pc.isArmed = false ∨ timer = none) :
    ∀ p ∈ mine, ¬ m.Live p := by
  intro p hp hl
  obtain ⟨htimer, harmed⟩ := h.live p hp hl
  rcases hno with hpc | hnone
  · rw [hpc] at harmed
    cases harmed
  · rw [hnone] at htimer
    cases htimer

/-- Without one in the set it may go anywhere. -/
theorem of_quiet (h : Owns m timer mine pc) (hno : ∀ p ∈ mine, ¬ m.Live p) :
    Owns m timer' mine pc' :=
  ⟨h.wf, h.pending, fun p hp hl => absurd hl (hno p hp)⟩

/-- Nor is there when the round starts. -/
theorem arm (h : Owns m timer mine pc) (hpc : pc.isArmed = false) (hpc' : pc'.isArmed = true)
    {ms now : UInt64} {r : TimeManager × Bool}
    (hcall : m.call (.addTimer p ms (some me) false now) = some r) :
    Owns r.1 (some p) (p :: mine) pc' := by
  have hstep : m.perform (.call (.addTimer p ms (some me) false now)) = some r.1 := by
    rw [TimeManager.perform, hcall]
    rfl
  have hnew : ∀ q, q ≠ p → ¬ (Op.call (.addTimer p ms (some me) false now)).Creates q :=
    fun q hq heq => hq heq.symm
  have hlive : r.1.Live p := by
    simp only [TimeManager.call] at hcall
    split at hcall
    · obtain rfl := Option.some.inj hcall
      unfold TimeManager.Live
      rw [TimeManager.addTimer_deref, if_pos rfl]
      rfl
    · cases hcall
  refine ⟨TimeManager.perform_wf h.wf (fun hv => hv.elim) hstep, ?_, ?_⟩
  · intro q hq
    by_cases hqp : q = p
    · subst hqp
      exact fun _ => hlive
    · have hin : q ∈ mine := (List.mem_cons.mp hq).resolve_left hqp
      exact TimeManager.pending_step h.wf (hnew q hqp) (h.pending q hin) hstep
  · intro q hq hl
    by_cases hqp : q = p
    · subst hqp
      exact ⟨rfl, hpc'⟩
    · have hin : q ∈ mine := (List.mem_cons.mp hq).resolve_left hqp
      exact absurd (TimeManager.live_step h.wf (hnew q hqp) hstep hl) (h.quiet (.inl hpc) q hin)

/-- `timer->cancel()`. -/
theorem disarm (h : Owns m (some p) mine pc) {r : TimeManager × Bool}
    (hcancel : m.cancel p = some r) : Owns r.1 none mine pc' := by
  have hc : m.cancel p = some (r.1, r.2) := hcancel
  refine ⟨TimeManager.cancel_wf h.wf hc, ?_, ?_⟩
  · exact fun q hq => TimeManager.cancel_pending h.wf (h.pending q hq) hc
  · intro q hq hl
    -- only the timer that is cancelled can have had a callback
    by_cases hqp : q = p
    · subst hqp
      exact absurd hl (TimeManager.cancel_silences h.wf hc)
    · have hbefore : m.Live q := by
        unfold TimeManager.Live at hl ⊢
        rw [TimeManager.cancel_deref h.wf hc, if_neg hqp] at hl
        exact hl
      exact absurd (Option.some.inj (h.live q hq hbefore).1).symm hqp

/-- What others do. -/
theorem perform (h : Owns m timer mine pc) {op : Op} (hstep : m.perform op = some m') :
    Owns m' timer (mine.filter fun p => !decide (op.Creates p)) pc := by
  have hkept : ∀ q ∈ mine.filter fun p => !decide (op.Creates p), q ∈ mine ∧ ¬ op.Creates q := by
    intro q hq
    rw [List.mem_filter] at hq
    exact ⟨hq.1, by simpa using hq.2⟩
  refine ⟨TimeManager.perform_wf h.wf (fun hv => hv.elim) hstep, ?_, ?_⟩
  · intro q hq
    obtain ⟨hin, hnew⟩ := hkept q hq
    exact TimeManager.pending_step h.wf hnew (h.pending q hin) hstep
  · intro q hq hl
    obtain ⟨hin, hnew⟩ := hkept q hq
    exact h.live q hin (TimeManager.live_step h.wf hnew hstep hl)

end Owns

/-- Only the timer of the round is ever in the set. -/
theorem owns_step (h : Owns s.manager s.timer s.mine s.pc) (hstep : Steps timeout me s a s') :
    Owns s'.manager s'.timer s'.mine s'.pc := by
  cases hstep with
  | call hpc | again hpc | block hpc | finish hpc | timedOut hpc | retry hpc | added hpc | notAdded hpc
  | resume hpc =>
      refine h.onto fun harmed => ?_
      rw [hpc] at harmed
      first | rfl | cases harmed
  | arm hpc hcall => exact h.arm (by rw [hpc]; rfl) rfl hcall
  | noTimer hpc => exact h.of_quiet (h.quiet (.inl (by rw [hpc]; rfl)))
  | @disarm pc p r honward htimer hcancel =>
      rw [htimer] at h
      exact h.disarm hcancel
  | noCancel honward htimer => exact h.of_quiet (h.quiet (.inr htimer))
  | perform hforeign hm => exact h.perform hm
  | delEvent => exact h
  | trigger =>
      rw [wake_eq]
      exact h
  | callback hcall =>
      obtain ⟨stage, rfl | rfl | rfl⟩ := callback_cases hcall
      · exact h
      · rw [wake_eq]
        exact h
      · exact h

/-! ## The event -/

/-- The event is registered, or has woken the fiber, only while the call waits for it. -/
structure Waits (registered woken : Bool) (pc : BlockingPc) : Prop where
  registered : registered = true → pc = .waiting ∧ woken = false
  woken : woken = true → pc = .waiting

namespace Waits

variable {registered woken : Bool} {pc pc' : BlockingPc}

theorem idle (h : Waits registered woken pc) (hpc : pc ≠ .waiting) :
    registered = false ∧ woken = false := by
  refine ⟨?_, ?_⟩
  · cases registered with
    | false => rfl
    | true => exact absurd (h.registered rfl).1 hpc
  · cases woken with
    | false => rfl
    | true => exact absurd (h.woken rfl) hpc

theorem onto (h : Waits registered woken pc) (hpc : pc ≠ .waiting) : Waits registered woken pc' := by
  obtain ⟨rfl, rfl⟩ := h.idle hpc
  exact ⟨fun h => (by cases h), fun h => (by cases h)⟩

theorem wake (h : Waits registered woken pc) : Waits false (registered || woken) pc := by
  refine ⟨fun h => (by cases h), fun hwoken => ?_⟩
  rcases Bool.or_eq_true_iff.mp hwoken with hr | hw
  · exact (h.registered hr).1
  · exact h.woken hw

end Waits

theorem waits_step (h : Waits s.registered s.woken s.pc) (hstep : Steps timeout me s a s') :
    Waits s'.registered s'.woken s'.pc := by
  cases hstep with
  | call hpc | again hpc | block hpc | finish hpc | arm hpc | noTimer hpc | notAdded hpc
  | timedOut hpc | retry hpc => exact h.onto (by simp [hpc])
  | added hpc =>
      obtain ⟨-, hwoken⟩ := h.idle (by simp [hpc])
      exact ⟨fun _ => ⟨rfl, hwoken⟩, fun _ => rfl⟩
  | resume hpc hwoken =>
      -- what has woken it is its own event, which is not registered any more
      refine ⟨fun hr => ?_, fun hw => (by cases hw)⟩
      rw [(h.registered hr).2] at hwoken
      cases hwoken
  | disarm honward | noCancel honward =>
      refine h.onto fun hwaiting => ?_
      rw [hwaiting] at honward
      cases honward
  | perform => exact h
  | trigger =>
      rw [wake_eq]
      exact h.wake
  | delEvent => exact ⟨fun hr => (by cases hr), h.woken⟩
  | callback hcall =>
      obtain ⟨stage, rfl | rfl | rfl⟩ := callback_cases hcall
      · exact h
      · rw [wake_eq]
        exact h.wake
      · exact h

/-! ## The result -/

/-- `cancelled` is set by a callback, and what is returned may be. -/
structure Told (s : Blocking) : Prop where
  cancelled : s.cancelled ≠ 0 → s.cancelled = ETIMEDOUT ∧ s.ran = true
  result : ∀ c, s.pc = .returned c → c.Due s.ran

theorem Onward.due {pc : BlockingPc} {c : Cause} (h : Onward pc (.returned c)) (ran : Bool) :
    c.Due ran := by
  generalize hnext : BlockingPc.returned c = next at h
  cases h with
  | woken => cases hnext
  | gaveUp e =>
      cases hnext
      trivial

theorem told_step (h : s.Told) (hstep : Steps timeout me s a s') : s'.Told := by
  obtain ⟨hcancelled, hresult⟩ := h
  cases hstep with
  | call | again | block | arm | noTimer | added | notAdded | resume | retry =>
      refine ⟨hcancelled, fun c hc => ?_⟩
      cases hc
  | finish hpc hintr hagain =>
      refine ⟨hcancelled, fun c hc => ?_⟩
      cases hc
      exact ⟨hagain, hintr⟩
  | disarm honward | noCancel honward =>
      refine ⟨hcancelled, fun c hc => ?_⟩
      cases hc
      exact honward.due s.ran
  | timedOut hpc hset =>
      refine ⟨hcancelled, fun c hc => ?_⟩
      cases hc
      exact hcancelled hset
  | perform | delEvent => exact ⟨hcancelled, hresult⟩
  | trigger =>
      rw [wake_eq]
      exact ⟨hcancelled, hresult⟩
  | callback hcall =>
      obtain ⟨stage, rfl | rfl | rfl⟩ := callback_cases hcall
      · exact ⟨hcancelled, hresult⟩
      · rw [wake_eq]
        exact ⟨hcancelled, hresult⟩
      · refine ⟨fun _ => ⟨rfl, rfl⟩, fun c hc => ?_⟩
        have hdue := hresult c hc
        cases c with
        | cancelled e => exact ⟨hdue.1, rfl⟩
        | original r => exact hdue
        | noEvent e => trivial

/-! ## The callbacks behind the call -/

theorem alive_eq_false : s.alive = false ↔
    (∃ c, s.pc = .returned c) ∧ ∀ stage ∈ s.callbacks, stage.holds = false := by
  have hover : s.isOver = true ↔ ∃ c, s.pc = .returned c := by
    unfold isOver
    split
    · rename_i c hpc
      exact ⟨fun _ => ⟨c, hpc⟩, fun _ => rfl⟩
    · rename_i hno
      refine ⟨fun h => (by cases h), ?_⟩
      rintro ⟨c, hpc⟩
      exact absurd hpc (hno c)
  rw [← hover]
  simp [alive]

/-- Once the `timer_info` is gone, a callback looks for it and is over, ... -/
theorem callback_inert (h : s.alive = false) {i : Nat} {rt : Bool} (hcall : s.callback i rt = some s') :
    s' = s.advance i .over := by
  -- none of them has got hold of it
  have hno : ∀ stage, s.callbacks[i]? = some stage → stage.holds = false := fun stage hstage =>
    (alive_eq_false.mp h).2 stage (List.mem_of_getElem? hstage)
  unfold callback at hcall
  split at hcall
  · rw [h] at hcall
    exact (Option.some.inj hcall).symm
  · rename_i hstage
    cases hno .locked hstage
  · rename_i hstage
    cases hno .passed hstage
  · rename_i hstage
    cases hno .told hstage
  · rename_i hstage
    cases hno .leaving hstage
  · cases hcall
  · cases hcall

/-- ... and it stays gone. -/
theorem alive_step (h : s.alive = false) (hstep : Steps timeout me s a s') : s'.alive = false := by
  obtain ⟨⟨c, hc⟩, hnone⟩ := alive_eq_false.mp h
  cases hstep with
  | call hpc | again hpc | block hpc | finish hpc | arm hpc | noTimer hpc | added hpc | notAdded hpc
  | resume hpc | timedOut hpc | retry hpc =>
      rw [hc] at hpc
      cases hpc
  | disarm honward | noCancel honward =>
      generalize s.pc = pc at hc honward
      subst hc
      cases honward
  | perform =>
      refine alive_eq_false.mpr ⟨⟨c, hc⟩, fun stage hstage => ?_⟩
      rcases List.mem_append.mp hstage with hin | hnew
      · exact hnone stage hin
      · rw [List.eq_of_mem_replicate hnew]
        rfl
  | delEvent => exact h
  | trigger =>
      rw [wake_eq]
      exact h
  | callback hcall =>
      rw [callback_inert h hcall]
      refine alive_eq_false.mpr ⟨⟨c, hc⟩, fun stage hstage => ?_⟩
      rcases List.mem_or_eq_of_mem_set hstage with hin | rfl
      · exact hnone stage hin
      · rfl

/-! ## Runs -/

theorem owns_of_reachable (hs : (blocking ctx timeout_so me).Reachable s) :
    Owns s.manager s.timer s.mine s.pc := by
  refine hs.invariant ?_ fun s a s' ih h => owns_step ih (steps h)
  rintro s ⟨-, m, hm, -, rfl⟩
  have hwf : m.WF False := TimeManager.wf_of_reachable (hm.mono fun _ _ _ hv => hv.elim)
  exact ⟨hwf, fun p hp => (by cases hp), fun p hp => (by cases hp)⟩

theorem waits_of_reachable (hs : (blocking ctx timeout_so me).Reachable s) :
    Waits s.registered s.woken s.pc := by
  refine hs.invariant ?_ fun s a s' ih h => waits_step ih (steps h)
  rintro s ⟨-, m, -, -, rfl⟩
  exact ⟨fun h => (by cases h), fun h => (by cases h)⟩

theorem told_of_reachable (hs : (blocking ctx timeout_so me).Reachable s) : s.Told := by
  refine hs.invariant ?_ fun s a s' ih h => told_step ih (steps h)
  rintro s ⟨-, m, -, -, rfl⟩
  exact ⟨fun h => absurd rfl h, fun c hc => (by cases hc)⟩

/-- What a call leaves behind that returns `c`. -/
structure Clean (timeout : Nat) (me : Callback) (s : Blocking) (c : Cause) : Prop where
  /-- The original function's `EAGAIN` and `EINTR` are not passed on. -/
  result : ∀ r, c = .original r → r ≠ .error EAGAIN ∧ r ≠ .error EINTR
  /-- No timer the call has armed is in the set. -/
  timers : ∀ p ∈ s.mine, p ∉ s.manager.m_timers
  event : s.registered = false
  /-- A callback that runs when the `timer_info` is gone only comes to its end, ... -/
  inert : s.alive = false → ∀ i rt s', s.callback i rt = some s' → s' = s.advance i .over
  /-- ... and the `timer_info` does not come back. -/
  gone : s.alive = false → ∀ a s', s.step timeout me a = some s' → s'.alive = false
  /-- A timeout is the original function's, or `errno` of the failed registration, or comes from a
  callback of the call that has run. -/
  timedOut : c.rt = -1 → c.errno = ETIMEDOUT →
    c = .original (.error ETIMEDOUT) ∨ c = .noEvent ETIMEDOUT ∨
      c = .cancelled ETIMEDOUT ∧ s.ran = true

/-- **A blocking call is emulated, and cleans up behind itself.** -/
theorem emulated (hs : (blocking ctx timeout_so me).Reachable s) {c : Cause}
    (hc : s.pc = .returned c) : s.Clean (getTimeout ctx timeout_so) me c := by
  have howns := owns_of_reachable hs
  have hwaits := waits_of_reachable hs
  have htold := told_of_reachable hs
  have hdue := htold.result c hc
  refine ⟨?_, ?_, ?_, ?_, ?_, ?_⟩
  · rintro r rfl
    exact hdue
  · intro p hp hin
    exact howns.quiet (.inl (by rw [hc]; rfl)) p hp (howns.pending p hp hin)
  · exact (hwaits.idle (by simp [hc])).1
  · exact fun hgone i rt s' hcall => callback_inert hgone hcall
  · intro hgone a s' h
    have hstep : (blocking ctx timeout_so me).step s a = some s' := h
    exact alive_step hgone (steps hstep)
  · intro hrt herrno
    cases c with
    | original r =>
        cases r with
        | ok n => cases herrno
        | error e => exact .inl (by rw [Subtype.ext herrno])
    | noEvent e => exact .inr (.inl (by rw [Subtype.ext herrno]))
    | cancelled e =>
        obtain ⟨rfl, hran⟩ := hdue
        exact .inr (.inr ⟨rfl, hran⟩)

/-- `timer->cancel()` never erases `end()`. -/
theorem disarm_enabled (hs : (blocking ctx timeout_so me).Reachable s) {pc : BlockingPc}
    (honward : Onward s.pc pc) : ((blocking ctx timeout_so me).step s .disarm).isSome = true := by
  have hcancel : ∀ p, (s.manager.cancel p).isSome = true := by
    intro p
    by_cases hp : s.manager.Live p
    · rw [TimeManager.cancel_live (owns_of_reachable hs).wf hp]
      rfl
    · rw [TimeManager.cancel_dead hp]
      rfl
  have hgo : ∀ pc, (match s.timer with
      | none => some { s with pc := pc }
      | some p => (s.manager.cancel p).map fun r : TimeManager × Bool =>
          { s with manager := r.1, timer := none, pc := pc }).isSome = true := by
    intro pc
    split
    · rfl
    · rw [Option.isSome_map]
      exact hcancel _
  change (s.step (getTimeout ctx timeout_so) me .disarm).isSome = true
  simp only [step]
  generalize hpc : s.pc = before at honward
  cases honward with
  | woken => exact hgo .look
  | gaveUp e => exact hgo (.returned (.noEvent e))

/-- The socket with a timeout of a second. -/
def timedCtx : FdCtx := { socketCtx with m_recvTimeout := 1000 }

/-- The event and the timer of the first round come together, and its callback runs in the second. -/
def lateRun : List BlockingAct :=
  [.call (.error EAGAIN), .examine, .arm 16 100, .addEvent .ok, .trigger,
    .perform (.listExpiredCb 1100 24), .resume, .disarm, .look,
    .call (.error EAGAIN), .examine, .arm 32 1100, .addEvent .ok,
    .callback 0 true, .callback 0 true, .callback 0 true, .callback 0 true, .callback 0 true,
    .resume, .disarm, .look]

/-- A call that starts with an empty timer set. -/
theorem timed_start : (blocking timedCtx .rcvTimeo 7).init (.initial (.new 100)) := by
  refine ⟨by decide, .new 100, .init ⟨100, rfl⟩, fun p => ?_, rfl⟩
  simp [TimeManager.new, TimeManager.deref]

theorem emulated_late : ∃ s, (blocking timedCtx .rcvTimeo 7).exec (.initial (.new 100)) lateRun = some s ∧
    s.Clean (getTimeout timedCtx .rcvTimeo) 7 (.cancelled ETIMEDOUT) := by
  have hend : ((blocking timedCtx .rcvTimeo 7).exec (.initial (.new 100)) lateRun).map
      (fun s => s.pc) = some (.returned (.cancelled ETIMEDOUT)) := by decide
  obtain ⟨s, hs, hpc⟩ := Option.map_eq_some_iff.mp hend
  exact ⟨s, hs, emulated (Lib.System.reachable_of_exec timed_start hs) hpc⟩

/-- **A timeout without a callback**: the original function fails with `ETIMEDOUT`, before there is any
timer, or a failed `addEvent` leaves that in `errno`. -/
theorem timed_out_itself :
    (∃ s c, (blocking timedCtx .rcvTimeo 7).Reachable s ∧ s.pc = .returned c ∧
      c.rt = -1 ∧ c.errno = ETIMEDOUT ∧ s.mine = [] ∧ s.ran = false) ∧
    ∃ s c, (blocking timedCtx .rcvTimeo 7).Reachable s ∧ s.pc = .returned c ∧
      c.rt = -1 ∧ c.errno = ETIMEDOUT ∧ s.callbacks = [] ∧ s.ran = false := by
  constructor
  · have hrun : (blocking timedCtx .rcvTimeo 7).exec (.initial (.new 100))
        [.call (.error ETIMEDOUT), .examine]
        = some { Blocking.initial (.new 100) with pc := .returned (.original (.error ETIMEDOUT)) } :=
      rfl
    exact ⟨_, _, Lib.System.reachable_of_exec timed_start hrun, rfl, rfl, rfl, rfl, rfl⟩
  · have hend : ((blocking timedCtx .rcvTimeo 7).exec (.initial (.new 100))
        [.call (.error EAGAIN), .examine, .arm 16 100, .addEvent (.error ETIMEDOUT), .disarm]).map
        (fun s => (s.pc, s.callbacks, s.ran)) = some (.returned (.noEvent ETIMEDOUT), [], false) := by
      decide
    obtain ⟨s, hs, heq⟩ := Option.map_eq_some_iff.mp hend
    simp only [Prod.mk.injEq] at heq
    obtain ⟨hpc, hcallbacks, hran⟩ := heq
    exact ⟨s, _, Lib.System.reachable_of_exec timed_start hs, hpc, rfl, rfl, hcallbacks, hran⟩

end Blocking

end Sylar.Hook
