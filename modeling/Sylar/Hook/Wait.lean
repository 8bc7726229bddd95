/-
# Sylar.Hook.Wait — what a hooked call waits with (`do_io` and `connect_with_timeout`).

Both functions do the same in the middle: a condition timer that sets `tinfo->cancelled` and cancels
the event, an event for the running fiber, `YieldToHold`, `timer->cancel()`, and a look at
`tinfo->cancelled`.  `Wait` is what they share with the rest of the process there.  What happens to it
from outside (`Wait.step`) is that the timer's callback is taken out of the timer set, is run, and
cancels the event, that the event is reported, and that somebody else cancels it.

A callback that has been taken out is run later and by another thread; `timer->cancel()` is too late
for it, and the next round of the same call still finds it.
-/
import Sylar.Fd.FdManager
import Sylar.Lib.Transition

namespace Sylar.Hook

open Lib (guarded)

/-! ## Error numbers -/

/-- What a failing call of the C library leaves in `errno`. -/
abbrev Errno := { e : Nat // e ≠ 0 }

def EINTR : Errno := ⟨4, by decide⟩
def EBADF : Errno := ⟨9, by decide⟩
def EAGAIN : Errno := ⟨11, by decide⟩
def ETIMEDOUT : Errno := ⟨110, by decide⟩
def EINPROGRESS : Errno := ⟨115, by decide⟩

/-! ## Waiting -/

/-- The state a waiting call shares. -/
structure Wait where
  /-- `tinfo->cancelled`. -/
  cancelled : Nat
  /-- The timer of this round is in the timer set. -/
  armed : Bool
  /-- Callbacks taken out of the timer set and not run. -/
  taken : Nat
  /-- Callbacks that have set `cancelled`, before their `cancelEvent`. -/
  firing : Nat
  /-- The event is registered with the fiber. -/
  registered : Bool
  /-- The fiber has been scheduled. -/
  woken : Bool
  deriving DecidableEq, Repr

/-- What others do to it. -/
inductive WaitAct
  /-- `listExpiredCb` takes the callback. -/
  | expire
  /-- The callback, up to its `cancelEvent`. -/
  | callback
  /-- The `cancelEvent` of the callback. -/
  | timeout
  /-- `epoll_wait` reports the event. -/
  | ready
  /-- Other code calls `cancelEvent` or `cancelAll`. -/
  | cancel
  deriving DecidableEq, Repr

namespace Wait

/-- A new `timer_info`. -/
def initial : Wait :=
  { cancelled := 0, armed := false, taken := 0, firing := 0, registered := false, woken := false }

/-- `triggerEvent`, if the event is there. -/
def trigger (w : Wait) : Wait :=
  if w.registered then { w with registered := false, woken := true } else w

/-- `addConditionTimer`, where there is a timeout. -/
def arm (w : Wait) (timeout : Nat) : Wait :=
  if timeout ≠ Fd.noTimeout then { w with armed := true } else w

/-- `addEvent` that succeeds. -/
def addEvent (w : Wait) : Wait := { w with registered := true }

/-- The fiber is swapped in. -/
def resume (w : Wait) : Wait := { w with woken := false }

/-- `timer->cancel()`. -/
def disarm (w : Wait) : Wait := { w with armed := false }

/-- One step from outside. -/
def step (w : Wait) : WaitAct → Option Wait
  | .expire => guarded (w.armed = true) { w with armed := false, taken := w.taken + 1 }
  | .callback =>
      guarded (0 < w.taken)
        (if w.cancelled ≠ 0 then { w with taken := w.taken - 1 }
        else { w with taken := w.taken - 1, cancelled := ETIMEDOUT, firing := w.firing + 1 })
  | .timeout => guarded (0 < w.firing) { w.trigger with firing := w.firing - 1 }
  | .ready => guarded (w.registered = true) w.trigger
  | .cancel => some w.trigger

variable {w w' : Wait} {a : WaitAct}

@[simp] theorem trigger_cancelled : w.trigger.cancelled = w.cancelled := by
  unfold trigger
  split <;> rfl

@[simp] theorem trigger_firing : w.trigger.firing = w.firing := by
  unfold trigger
  split <;> rfl

@[simp] theorem arm_cancelled (timeout : Nat) : (w.arm timeout).cancelled = w.cancelled := by
  unfold arm
  split <;> rfl

@[simp] theorem arm_firing (timeout : Nat) : (w.arm timeout).firing = w.firing := by
  unfold arm
  split <;> rfl

@[simp] theorem arm_woken (timeout : Nat) : (w.arm timeout).woken = w.woken := by
  unfold arm
  split <;> rfl

/-- `cancelled` stays set, and every callback that goes on to its `cancelEvent` has set it. -/
theorem step_told (h : w.step a = some w') (hfiring : 0 < w.firing → w.cancelled ≠ 0) :
    (0 < w'.firing → w'.cancelled ≠ 0) ∧ (w.cancelled ≠ 0 → w'.cancelled ≠ 0) := by
  cases a with
  | expire =>
      obtain ⟨-, rfl⟩ := Lib.guarded_eq_some.mp h
      exact ⟨hfiring, id⟩
  | callback =>
      obtain ⟨-, rfl⟩ := Lib.guarded_eq_some.mp h
      split
      · exact ⟨hfiring, id⟩
      · exact ⟨fun _ => ETIMEDOUT.2, fun _ => ETIMEDOUT.2⟩
  | timeout =>
      obtain ⟨hsome, rfl⟩ := Lib.guarded_eq_some.mp h
      simp only [trigger_cancelled]
      exact ⟨fun _ => hfiring hsome, id⟩
  | ready =>
      obtain ⟨-, rfl⟩ := Lib.guarded_eq_some.mp h
      simpa using hfiring
  | cancel =>
      obtain rfl := Option.some.inj h
      simpa using hfiring

/-- What can wake the fiber. -/
theorem step_woken (h : w.step a = some w') (hwoken : w'.woken = true) :
    w.woken = true ∨ a = .ready ∨ a = .cancel ∨ 0 < w.firing := by
  cases a with
  | expire =>
      obtain ⟨-, rfl⟩ := Lib.guarded_eq_some.mp h
      exact .inl hwoken
  | callback =>
      obtain ⟨-, rfl⟩ := Lib.guarded_eq_some.mp h
      split at hwoken <;> exact .inl hwoken
  | timeout => exact .inr (.inr (.inr (Lib.guarded_eq_some.mp h).1))
  | ready => exact .inr (.inl rfl)
  | cancel => exact .inr (.inr (.inl rfl))

/-- `ETIMEDOUT` is all that is ever written to `cancelled`. -/
theorem step_cancelled (h : w.step a = some w') :
    w'.cancelled = w.cancelled ∨ w'.cancelled = ETIMEDOUT := by
  cases a with
  | expire =>
      obtain ⟨-, rfl⟩ := Lib.guarded_eq_some.mp h
      exact .inl rfl
  | callback =>
      obtain ⟨-, rfl⟩ := Lib.guarded_eq_some.mp h
      split
      · exact .inl rfl
      · exact .inr rfl
  | timeout | ready =>
      obtain ⟨-, rfl⟩ := Lib.guarded_eq_some.mp h
      exact .inl trigger_cancelled
  | cancel => exact .inl (Option.some.inj h ▸ trigger_cancelled)

/-- Nothing happens before the call waits for something. -/
theorem step_initial (h : initial.step a = some w) : w = initial := by
  cases a with
  | cancel => exact (Option.some.inj h).symm
  | expire | callback | timeout | ready => cases h

end Wait

end Sylar.Hook
