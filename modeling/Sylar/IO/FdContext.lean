/-
# Sylar.IO.FdContext — one descriptor's events (`IOManager::FdContext`, `sylar/iomanager.{h,cpp}`).

An `FdContext` has an event mask and one `EventContext` for each of `READ` and `WRITE`.  The
operations of `IOManager` hold its mutex for their whole body, so each body is one function here, on
the context and on what the bodies share: the pending counter, the kernel's interest table and the
tasks `triggerEvent` has scheduled.  A failed assertion and a call through a null `Scheduler*` are
faults; they end the run.
-/
import Sylar.Scheduler.Fiber
import Mathlib.Data.List.Perm.Basic
import Mathlib.Logic.Function.Basic

namespace Sylar.IO

open Sylar.Scheduler

/-! ## Event masks -/

/-- `IOManager::Event`. -/
inductive Event
  | none | read | write
  deriving DecidableEq, Repr

/-- A set of events: the bits `READ` and `WRITE` of an `Event` mask. -/
structure Events where
  read : Bool
  write : Bool
  deriving DecidableEq, Repr

namespace Events

/-- `NONE`. -/
def empty : Events := ⟨false, false⟩

/-- `m & e`, as a condition. -/
def has (m : Events) : Event → Bool
  | .none => false
  | .read => m.read
  | .write => m.write

/-- `m | e`. -/
def add (m : Events) : Event → Events
  | .none => m
  | .read => { m with read := true }
  | .write => { m with write := true }

/-- `m & ~e`. -/
def remove (m : Events) : Event → Events
  | .none => m
  | .read => { m with read := false }
  | .write => { m with write := false }

/-- `m & n`. -/
def inter (m n : Events) : Events := ⟨m.read && n.read, m.write && n.write⟩

/-- `m & ~n`. -/
def diff (m n : Events) : Events := ⟨m.read && !n.read, m.write && !n.write⟩

/-- The number of bits set. -/
def card (m : Events) : Nat := m.read.toNat + m.write.toNat

end Events

/-! ## The kernel's interest table -/

/-- What `epoll_ctl` stores for a descriptor: `EPOLLET` and the requested events. -/
structure Interest where
  et : Bool
  events : Events
  deriving DecidableEq, Repr

/-- The second argument of `epoll_ctl`. -/
inductive CtlOp
  | add | mod | del
  deriving DecidableEq, Repr

/-- The interest table of `m_epfd`, for the descriptors registered through an `FdContext`. -/
abbrev Epoll := Nat → Option Interest

/-- `epoll_ctl`; `none` is a non-zero return.  The kernel refuses to add a present descriptor and to
modify or delete an absent one, and may refuse anything else (`ok = false`). -/
def epollCtl (k : Epoll) (op : CtlOp) (fd : Nat) (i : Interest) (ok : Bool) : Option Epoll :=
  match op with
  | .add => if ok && (k fd).isNone then some (Function.update k fd (some i)) else none
  | .mod => if ok && (k fd).isSome then some (Function.update k fd (some i)) else none
  | .del => if ok && (k fd).isSome then some (Function.update k fd none) else none

/-- The interest an event mask calls for. -/
def interestOf (m : Events) : Option Interest := if m = Events.empty then none else some ⟨true, m⟩

/-- The delivered mask of one `epoll_event`. -/
structure Ready where
  epollin : Bool
  epollout : Bool
  epollerr : Bool
  epollhup : Bool
  deriving DecidableEq, Repr

/-- `real_events`: the delivered mask, widened on `EPOLLERR | EPOLLHUP`. -/
def Ready.real_events (r : Ready) : Events :=
  let wide := r.epollerr || r.epollhup
  ⟨r.epollin || wide, r.epollout || wide⟩

/-! ## Contexts -/

/-- What is scheduled: a fiber or a callback (`FiberAndThread`). -/
inductive Work (F C : Type)
  | fiber (f : F)
  | cb (c : C)
  deriving DecidableEq, Repr

/-- `FdContext::EventContext`. -/
structure EventContext (S F C : Type) where
  scheduler : Option S
  fiber : Option F
  cb : Option C
  deriving DecidableEq, Repr

/-- A default-constructed context, and the result of `resetContext`. -/
def EventContext.empty {S F C : Type} : EventContext S F C := ⟨none, none, none⟩

/-- `IOManager::FdContext`. -/
structure FdContext (S F C : Type) where
  read : EventContext S F C
  write : EventContext S F C
  fd : Nat
  events : Events
  deriving DecidableEq, Repr

/-- The assertions and null dereferences of the event code. -/
inductive Fault
  /-- `getContext(NONE)`. -/
  | badEvent
  /-- `triggerEvent` on an event that is not registered. -/
  | notRegistered
  /-- `ctx.scheduler->schedule(…)` with a null scheduler. -/
  | nullScheduler
  /-- `addEvent` of an event that is registered. -/
  | alreadyRegistered
  /-- `addEvent` on a context that is not empty. -/
  | contextInUse
  /-- `addEvent` without a callback from a fiber that is not in `EXEC`. -/
  | fiberNotExec
  /-- `cancelAll` left an event behind. -/
  | eventsLeft
  /-- An index outside `m_fdContexts`. -/
  | outOfRange
  deriving DecidableEq, Repr

/-- What the bodies share. -/
structure Books (S F C : Type) where
  m_pendingEventCount : Int
  epfd : Epoll
  /-- The `schedule` calls made by `triggerEvent`, oldest first. -/
  scheduled : List (S × Work F C)

/-- The thread that calls `addEvent`: `Scheduler::GetThis()`, `Fiber::GetThis()` and its state. -/
structure Caller (S F : Type) where
  scheduler : Option S
  fiber : F
  state : State
  deriving DecidableEq, Repr

variable {S F C : Type}

namespace FdContext

/-- A context as `contextResize` makes it. -/
def new (fd : Nat) : FdContext S F C := ⟨.empty, .empty, fd, Events.empty⟩

/-- `getContext`; `none` is its assertion. -/
def getContext (c : FdContext S F C) : Event → Option (EventContext S F C)
  | .none => none
  | .read => some c.read
  | .write => some c.write

/-- An assignment through the reference `getContext` returns. -/
def setContext (c : FdContext S F C) (ctx : EventContext S F C) : Event → FdContext S F C
  | .none => c
  | .read => { c with read := ctx }
  | .write => { c with write := ctx }

/-- `triggerEvent`.  `schedule(&ctx.cb)` and `schedule(&ctx.fiber)` swap the pointer out of the
context, and push nothing when it is null. -/
def triggerEvent (c : FdContext S F C) (event : Event) :
    Except Fault (FdContext S F C × List (S × Work F C)) :=
  if c.events.has event then
    let c := { c with events := c.events.remove event }
    match c.getContext event with
    | none => .error .badEvent
    | some ctx =>
        match ctx.scheduler with
        | none => .error .nullScheduler
        | some s =>
            match ctx.cb with
            | some cb =>
                .ok (c.setContext { ctx with cb := none, scheduler := none } event, [(s, .cb cb)])
            | none =>
                .ok (c.setContext { ctx with fiber := none, scheduler := none } event,
                  (ctx.fiber.map fun f => (s, Work.fiber f)).toList)
  else .error .notRegistered

end FdContext

/-- `fd_ctx->triggerEvent(event); --m_pendingEventCount;` -/
def fire (b : Books S F C) (c : FdContext S F C) (event : Event) :
    Except Fault (Books S F C × FdContext S F C) :=
  match c.triggerEvent event with
  | .error e => .error e
  | .ok (c', sent) =>
      .ok ({ b with scheduled := b.scheduled ++ sent
                    m_pendingEventCount := b.m_pendingEventCount - 1 }, c')

/-- `if (m & event) { fire }`. -/
def fireIf (m : Events) (b : Books S F C) (c : FdContext S F C) (event : Event) :
    Except Fault (Books S F C × FdContext S F C) :=
  if m.has event then fire b c event else .ok (b, c)

/-! ## The bodies under the context's mutex -/

/-- `addEvent`, from the taking of `fd_ctx->mutex` on.  `cb` is the callback argument. -/
def addEventLocked (b : Books S F C) (fd : Nat) (c : FdContext S F C) (event : Event)
    (cb : Option C) (who : Caller S F) (ok : Bool) : Except Fault (Books S F C × FdContext S F C × Int) :=
  if c.events.has event then .error .alreadyRegistered
  else
    let op := if c.events = Events.empty then CtlOp.add else CtlOp.mod
    match epollCtl b.epfd op fd ⟨true, c.events.add event⟩ ok with
    | none => .ok (b, c, -1)
    | some k =>
        let b := { b with epfd := k, m_pendingEventCount := b.m_pendingEventCount + 1 }
        let c := { c with events := c.events.add event }
        match c.getContext event with
        | none => .error .badEvent
        | some ctx =>
            if ctx.scheduler.isSome || ctx.fiber.isSome || ctx.cb.isSome then .error .contextInUse
            else
              match cb with
              | some f =>
                  .ok (b, c.setContext { ctx with scheduler := who.scheduler, cb := some f } event, 0)
              | none =>
                  if who.state = .exec then
                    .ok (b, c.setContext
                      { ctx with scheduler := who.scheduler, fiber := some who.fiber } event, 0)
                  else .error .fiberNotExec

/-- The common start of `delEvent` and `cancelEvent`: the mask without the event goes to the
kernel.  `none` is the `false` exit. -/
def dropInterest (b : Books S F C) (fd : Nat) (c : FdContext S F C) (event : Event) (ok : Bool) :
    Option Epoll :=
  if c.events.has event then
    let new_events := c.events.remove event
    let op := if new_events = Events.empty then CtlOp.del else CtlOp.mod
    epollCtl b.epfd op fd ⟨true, new_events⟩ ok
  else none

/-- `delEvent`, from the taking of `fd_ctx->mutex` on. -/
def delEventLocked (b : Books S F C) (fd : Nat) (c : FdContext S F C) (event : Event)
    (ok : Bool) : Except Fault (Books S F C × FdContext S F C × Bool) :=
  match dropInterest b fd c event ok with
  | none => .ok (b, c, false)
  | some k =>
      .ok ({ b with epfd := k, m_pendingEventCount := b.m_pendingEventCount - 1 },
        { c with events := c.events.remove event }.setContext .empty event, true)

/-- `cancelEvent`, from the taking of `fd_ctx->mutex` on. -/
def cancelEventLocked (b : Books S F C) (fd : Nat) (c : FdContext S F C) (event : Event)
    (ok : Bool) : Except Fault (Books S F C × FdContext S F C × Bool) :=
  match dropInterest b fd c event ok with
  | none => .ok (b, c, false)
  | some k =>
      match fire { b with epfd := k } c event with
      | .error e => .error e
      | .ok (b', c') => .ok (b', c', true)

/-- `cancelAll`, from the taking of `fd_ctx->mutex` on. -/
def cancelAllLocked (b : Books S F C) (fd : Nat) (c : FdContext S F C) (ok : Bool) :
    Except Fault (Books S F C × FdContext S F C × Bool) :=
  if c.events = Events.empty then .ok (b, c, false)
  else
    match epollCtl b.epfd .del fd ⟨false, Events.empty⟩ ok with
    | none => .ok (b, c, false)
    | some k =>
        match fireIf c.events { b with epfd := k } c .read with
        | .error e => .error e
        | .ok (b', c') =>
            match fireIf c'.events b' c' .write with
            | .error e => .error e
            | .ok (b'', c'') =>
                if c''.events = Events.empty then .ok (b'', c'', true) else .error .eventsLeft

/-- The processing of one descriptor event in `idle`, from the taking of `fd_ctx->mutex` on. -/
def idleLocked (b : Books S F C) (c : FdContext S F C) (r : Ready) (ok : Bool) :
    Except Fault (Books S F C × FdContext S F C) :=
  let real := r.real_events
  if c.events.inter real = Events.empty then .ok (b, c)
  else
    let left := c.events.diff real
    let op := if left = Events.empty then CtlOp.del else CtlOp.mod
    match epollCtl b.epfd op c.fd ⟨true, left⟩ ok with
    | none => .ok (b, c)
    | some k =>
        match fireIf real { b with epfd := k } c .read with
        | .error e => .error e
        | .ok (b', c') => fireIf real b' c' .write

end Sylar.IO
