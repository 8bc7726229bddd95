/-
# Sylar.Scheduler.Fiber — one coroutine (`sylar/fiber.{h,cpp}`).

A fiber is its `State`, its callback and the context its next resumption continues from.  The
machine context `m_ctx` is modelled by where it was saved (`Ctx`): at the entry of `MainFunc`, at a
`swapOut` inside the callback, or at the `swapOut` that ends `MainFunc`.  A resumption of the last
kind runs into the `never reach` assertion.

The functions below are the pieces of `Fiber`'s methods that read or write these members; the
switches themselves belong to the threads (`Sylar.Scheduler.Run`).
-/
import Mathlib.Logic.Basic

namespace Sylar.Scheduler

/-- `Fiber::State`. -/
inductive State
  | init | hold | exec | term | ready | except
  deriving DecidableEq, Repr

/-- A `std::function<void()>` is known by its identity only. -/
abbrev Callback := Nat

/-- Where a resumption of the fiber continues. -/
inductive Ctx
  /-- `makecontext(&m_ctx, &Fiber::MainFunc, 0)`: not started. -/
  | entry
  /-- In `YieldToReady`, after its `swapOut`. -/
  | atReady
  /-- In `YieldToHold` (or the bare `swapOut` of an idle function), after its `swapOut`. -/
  | atHold
  /-- At the end of `MainFunc`, before the `never reach` assertion. -/
  | ended
  deriving DecidableEq, Repr

/-- The members of a `Fiber` with its own stack. -/
structure Fiber where
  m_state : State
  m_cb : Option Callback
  m_ctx : Ctx
  deriving DecidableEq, Repr

namespace Fiber

/-- `Fiber::Fiber(cb, stacksize, run_in_scheduler)`. -/
def new (cb : Option Callback) : Fiber := ⟨.init, cb, .entry⟩

/-- `TERM` or `EXCEPT`: the callback is over. -/
def Ended (st : State) : Prop := st = .term ∨ st = .except

instance : DecidablePred Ended := fun st => inferInstanceAs (Decidable (st = .term ∨ st = .except))

/-- The assertion of `Fiber::reset` and of the destructor. -/
def Resettable (st : State) : Prop := st = .term ∨ st = .init ∨ st = .except

instance : DecidablePred Resettable := fun st =>
  inferInstanceAs (Decidable (st = .term ∨ st = .init ∨ st = .except))

/-- `Fiber::reset`; `none` when its assertion fails. -/
def reset (f : Fiber) (cb : Option Callback) : Option Fiber :=
  if Resettable f.m_state then some (new cb) else none

/-- `m_state = …`, nothing else. -/
def setState (f : Fiber) (st : State) : Fiber := { f with m_state := st }

/-- The switch away from the fiber saves where it is. -/
def save (f : Fiber) (c : Ctx) : Fiber := { f with m_ctx := c }

/-- The normal end of `MainFunc`: `m_cb = nullptr; m_state = TERM`. -/
def finish (f : Fiber) : Fiber := { f with m_cb := none, m_state := .term }

@[simp, grind =] theorem setState_state (f : Fiber) (st : State) : (f.setState st).m_state = st := rfl
@[simp, grind =] theorem setState_ctx (f : Fiber) (st : State) : (f.setState st).m_ctx = f.m_ctx := rfl
@[simp, grind =] theorem save_state (f : Fiber) (c : Ctx) : (f.save c).m_state = f.m_state := rfl
@[simp, grind =] theorem save_ctx (f : Fiber) (c : Ctx) : (f.save c).m_ctx = c := rfl
@[simp, grind =] theorem finish_state (f : Fiber) : f.finish.m_state = .term := rfl
@[simp, grind =] theorem finish_ctx (f : Fiber) : f.finish.m_ctx = f.m_ctx := rfl
@[simp, grind =] theorem new_state (cb : Option Callback) : (new cb).m_state = .init := rfl
@[simp, grind =] theorem new_ctx (cb : Option Callback) : (new cb).m_ctx = .entry := rfl

theorem reset_eq_some {f g : Fiber} {cb : Option Callback} :
    f.reset cb = some g ↔ Resettable f.m_state ∧ g = new cb := by
  simp only [reset]
  split
  · rename_i h
    simp [h, eq_comm]
  · rename_i h
    simp [h]

end Fiber

end Sylar.Scheduler
