/-
# Sylar.Hook.DoIo — a hooked read or write and the `close` of its descriptor (`do_io` and `close` in
`sylar/hook.cpp`).

`do_io` looks at the context of its descriptor once, at the top.  The loop behind it calls the
original function, waits where that would block, and starts again.  A hooked `close` on another thread
wakes the waiter (`cancelAll`), drops the context (`del`) and closes the descriptor, and the number may
be given out again at once.  Nobody sets `m_isClosed`, and the loop would not look at it.

So a call that waits when its descriptor is closed, if it ever returns, has called the original
function on the closed or reused number, or has reported its timeout.  `no_io_after_close_iff` says
for every order of the steps which calls do not touch the number any more: those the close does not
meet before the original function or waiting, and that then neither register nor start again.
-/
import Sylar.Hook.Connect

namespace Sylar.Hook

open Fd (FdCtx)
open Lib (guarded)

/-! ## The state of a call -/

/-- The checks at the top of `do_io`. -/
def ioEntry (t_hook_enable : Bool) (ctx : Option FdCtx) : Entry :=
  if t_hook_enable then
    match ctx with
    | none => .original
    | some ctx =>
        if ctx.m_isClosed then .refused
        else if !ctx.m_isSocket || ctx.m_userNonblock then .original
        else .managed
  else .original

/-- `timeout_so`. -/
inductive TimeoutSo
  | rcvTimeo
  | sndTimeo
  deriving DecidableEq, Repr

/-- `FdCtx::getTimeout`. -/
def getTimeout (ctx : FdCtx) : TimeoutSo → Nat
  | .rcvTimeo => ctx.m_recvTimeout
  | .sndTimeo => ctx.m_sendTimeout

/-- What the original function returns. -/
inductive Result
  | ok (n : Nat)
  | error (e : Errno)
  deriving DecidableEq, Repr

/-- Where a managed call is. -/
inductive IoPc
  /-- Before `fun`. -/
  | call
  | answered (r : Result)
  /-- Before the timer. -/
  | arm
  | addEvent
  /-- From the end of `addEvent` to the end of `YieldToHold`. -/
  | waiting
  /-- Behind it, before `timer->cancel()`. -/
  | behind
  /-- Before the look at `tinfo->cancelled`. -/
  | read
  /-- `addEvent` has failed; before `timer->cancel()`. -/
  | giveUp (e : Errno)
  /-- With `errno`, where `rt` is `-1`. -/
  | returned (rt : Int) (errno : Nat)
  deriving DecidableEq, Repr

/-- Where the thread that closes the descriptor is. -/
inductive ClosePc
  | idle
  | cancelAll
  | del
  | closeF
  deriving DecidableEq, Repr

/-- A managed call of `do_io`, and its descriptor's number. -/
structure DoIo where
  pc : IoPc
  wait : Wait
  closer : ClosePc
  /-- `m_datas[fd]` is not null. -/
  slot : Bool
  /-- The number is in use. -/
  inUse : Bool
  /-- The call's descriptor has been closed. -/
  closed : Bool
  /-- The fiber has been swapped in since. -/
  resumed : Bool
  deriving DecidableEq, Repr

/-- A step of the call, of a `close`, or of others. -/
inductive IoAct
  | call (r : Result)
  | examine
  | arm
  | addEvent (answer : Answer)
  | resume
  | disarm
  | read
  /-- `close(fd)`, up to the looks at the context and at `IOManager::GetThis()`. -/
  | close (iom : Bool)
  | cancelAll
  | del
  | closeF
  /-- `socket()` or `accept()` is given the number. -/
  | socket
  /-- And creates a context for it. -/
  | manage
  | wait (a : WaitAct)
  deriving DecidableEq, Repr

namespace DoIo

/-- Whether the call has returned. -/
def isOver (s : DoIo) : Bool :=
  match s.pc with
  | .returned .. => true
  | _ => false

/-- Take a step.  `epoll_ctl` fails on a number that is not in use. -/
def step (timeout : Nat) (s : DoIo) : IoAct → Option DoIo
  | .call r => guarded (s.pc = .call) { s with pc := .answered r }
  | .examine =>
      match s.pc with
      | .answered (.error e) =>
          if e = EINTR then some { s with pc := .call }
          else if e = EAGAIN then some { s with pc := .arm }
          else some { s with pc := .returned (-1) e }
      | .answered (.ok n) => some { s with pc := .returned n 0 }
      | _ => none
  | .arm => guarded (s.pc = .arm) { s with wait := s.wait.arm timeout, pc := .addEvent }
  | .addEvent .ok =>
      guarded (s.pc = .addEvent ∧ s.inUse = true) { s with wait := s.wait.addEvent, pc := .waiting }
  | .addEvent (.error e) => guarded (s.pc = .addEvent) { s with pc := .giveUp e }
  | .resume =>
      guarded (s.pc = .waiting ∧ s.wait.woken = true)
        { s with wait := s.wait.resume, pc := .behind, resumed := s.resumed || s.closed }
  | .disarm =>
      match s.pc with
      | .behind => some { s with wait := s.wait.disarm, pc := .read }
      | .giveUp e => some { s with wait := s.wait.disarm, pc := .returned (-1) e }
      | _ => none
  | .read =>
      guarded (s.pc = .read)
        (if s.wait.cancelled ≠ 0 then { s with pc := .returned (-1) s.wait.cancelled }
        else { s with pc := .call })
  | .close iom =>
      guarded (s.closer = .idle)
        { s with closer := if s.slot then if iom then .cancelAll else .del else .closeF }
  | .cancelAll => guarded (s.closer = .cancelAll) { s with wait := s.wait.trigger, closer := .del }
  | .del => guarded (s.closer = .del) { s with slot := false, closer := .closeF }
  | .closeF =>
      guarded (s.closer = .closeF) { s with inUse := false, closed := true, closer := .idle }
  | .socket => guarded (s.inUse = false) { s with inUse := true }
  | .manage => guarded (s.inUse = true) { s with slot := true }
  | .wait a => (s.wait.step a).map fun w => { s with wait := w }

/-- Behind the checks, on an open descriptor. -/
def initial : DoIo :=
  { pc := .call, wait := .initial, closer := .idle, slot := true, inUse := true, closed := false
    resumed := false }

end DoIo

/-- Calls on a descriptor whose context is `ctx`, on a thread with the hook on. -/
def doIo (ctx : FdCtx) (timeout_so : TimeoutSo) : Lib.System DoIo IoAct where
  init s := ioEntry true (some ctx) = .managed ∧ s = .initial
  step s a := if s.isOver then none else s.step (getTimeout ctx timeout_so) a

namespace DoIo

/-- **No I/O on a closed descriptor**: once it is closed, the call does not invoke the original function
and registers no event, and if it is swapped in it returns `-1` with `EBADF`. -/
def Obeys (timeout : Nat) (s : DoIo) (a : IoAct) : Prop :=
  s.closed = true →
    (∀ r, a ≠ .call r) ∧ a ≠ .addEvent .ok ∧
      ∀ s' rt errno, s.step timeout a = some s' → s.resumed = true → s'.pc = .returned rt errno →
        rt = -1 ∧ errno = EBADF

/-- The call is about to invoke the original function, or is waiting. -/
def Exposed (s : DoIo) : Prop :=
  s.pc = .call ∨ s.pc = .answered (.error EINTR) ∨ s.pc = .waiting

/-- The close does not meet the call there, and afterwards the call neither registers nor starts
again. -/
def Spared (s : DoIo) : IoAct → Prop
  | .closeF => ¬ s.Exposed
  | .addEvent .ok => s.closed = false
  | .read => s.closed = true → s.wait.cancelled ≠ 0
  | _ => True

instance (s : DoIo) : Decidable s.Exposed :=
  inferInstanceAs (Decidable (s.pc = .call ∨ s.pc = .answered (.error EINTR) ∨ s.pc = .waiting))

instance (s : DoIo) : DecidablePred s.Spared
  | .closeF => inferInstanceAs (Decidable (¬ s.Exposed))
  | .addEvent .ok => inferInstanceAs (Decidable (s.closed = false))
  | .read => inferInstanceAs (Decidable (s.closed = true → s.wait.cancelled ≠ 0))
  | .addEvent (.error _) | .call _ | .examine | .arm | .resume | .disarm | .close _ | .cancelAll | .del
  | .socket | .manage | .wait _ => isTrue trivial

variable {ctx : FdCtx} {timeout_so : TimeoutSo} {timeout : Nat} {s s' s₀ : DoIo} {a : IoAct}

/-! ## Steps -/

/-- **What each step does**, with what is known before it.  What happens to the number behind the close
is left open. -/
inductive Steps (timeout : Nat) (s : DoIo) : IoAct → DoIo → Prop
  | call {r} : s.pc = .call → Steps timeout s (.call r) { s with pc := .answered r }
  | again : s.pc = .answered (.error EINTR) → Steps timeout s .examine { s with pc := .call }
  | block : s.pc = .answered (.error EAGAIN) → Steps timeout s .examine { s with pc := .arm }
  | fail {e} : s.pc = .answered (.error e) → e ≠ EINTR →
      Steps timeout s .examine { s with pc := .returned (-1) e }
  | succeed {n : Nat} : s.pc = .answered (.ok n) → Steps timeout s .examine { s with pc := .returned n 0 }
  | arm : s.pc = .arm → Steps timeout s .arm { s with wait := s.wait.arm timeout, pc := .addEvent }
  | added : s.pc = .addEvent → Steps timeout s (.addEvent .ok)
      { s with wait := s.wait.addEvent, pc := .waiting }
  | notAdded {e} : s.pc = .addEvent → Steps timeout s (.addEvent (.error e)) { s with pc := .giveUp e }
  | resume : s.pc = .waiting → Steps timeout s .resume
      { s with wait := s.wait.resume, pc := .behind, resumed := s.resumed || s.closed }
  | disarm : s.pc = .behind → Steps timeout s .disarm { s with wait := s.wait.disarm, pc := .read }
  | gaveUp {e} : s.pc = .giveUp e → Steps timeout s .disarm
      { s with wait := s.wait.disarm, pc := .returned (-1) e }
  | timedOut : s.pc = .read → s.wait.cancelled ≠ 0 → Steps timeout s .read
      { s with pc := .returned (-1) s.wait.cancelled }
  | retry : s.pc = .read → s.wait.cancelled = 0 → Steps timeout s .read { s with pc := .call }
  | closeF : Steps timeout s .closeF { s with inUse := false, closed := true, closer := .idle }
  | other {b} {w : Wait} {c slot inUse} : b ≠ .closeF → (∀ r, b ≠ .call r) → b ≠ .addEvent .ok →
      b ≠ .read → w.cancelled = s.wait.cancelled ∨ w.cancelled = ETIMEDOUT →
      Steps timeout s b { s with wait := w, closer := c, slot := slot, inUse := inUse }

theorem examine_steps (h : s.step timeout .examine = some s') : Steps timeout s .examine s' := by
  simp only [step] at h
  split at h
  · rename_i e hpc
    split at h
    · rename_i he
      subst he
      exact Option.some.inj h ▸ .again hpc
    · rename_i hne
      split at h
      · rename_i he
        subst he
        exact Option.some.inj h ▸ .block hpc
      · exact Option.some.inj h ▸ .fail hpc hne
  · rename_i n hpc
    exact Option.some.inj h ▸ .succeed hpc
  · cases h

theorem steps (h : (doIo ctx timeout_so).step s a = some s') :
    s.isOver = false ∧ Steps (getTimeout ctx timeout_so) s a s' := by
  simp only [doIo] at h
  split at h
  · cases h
  rename_i hover
  refine ⟨by simpa using hover, ?_⟩
  cases a with
  | examine => exact examine_steps h
  | call r =>
      obtain ⟨hpc, rfl⟩ := Lib.guarded_eq_some.mp h
      exact .call hpc
  | arm =>
      obtain ⟨hpc, rfl⟩ := Lib.guarded_eq_some.mp h
      exact .arm hpc
  | addEvent answer =>
      cases answer with
      | ok =>
          obtain ⟨⟨hpc, -⟩, rfl⟩ := Lib.guarded_eq_some.mp h
          exact .added hpc
      | error e =>
          obtain ⟨hpc, rfl⟩ := Lib.guarded_eq_some.mp h
          exact .notAdded hpc
  | resume =>
      obtain ⟨⟨hpc, -⟩, rfl⟩ := Lib.guarded_eq_some.mp h
      exact .resume hpc
  | disarm =>
      simp only [step] at h
      split at h
      · rename_i hpc
        exact Option.some.inj h ▸ .disarm hpc
      · rename_i e hpc
        exact Option.some.inj h ▸ .gaveUp hpc
      · cases h
  | read =>
      obtain ⟨hpc, rfl⟩ := Lib.guarded_eq_some.mp h
      split
      · rename_i hset
        exact .timedOut hpc hset
      · rename_i hset
        exact .retry hpc (by simpa using hset)
  | closeF =>
      obtain ⟨-, rfl⟩ := Lib.guarded_eq_some.mp h
      exact .closeF
  | close | del | socket | manage =>
      obtain ⟨-, rfl⟩ := Lib.guarded_eq_some.mp h
      exact .other (by simp) (by simp) (by simp) (by simp) (.inl rfl)
  | cancelAll =>
      obtain ⟨-, rfl⟩ := Lib.guarded_eq_some.mp h
      exact .other (by simp) (by simp) (by simp) (by simp) (.inl Wait.trigger_cancelled)
  | wait a =>
      obtain ⟨w, hw, rfl⟩ := Option.map_eq_some_iff.mp h
      exact .other (by simp) (by simp) (by simp) (by simp) (Wait.step_cancelled hw)

/-! ## Spared calls -/

/-- What holds in every spared run. -/
structure Safe (s : DoIo) : Prop where
  resumed : s.resumed = false
  closed : s.closed = true → ¬ s.Exposed

theorem safe_step (hs : Safe s) (hc : s.Spared a) (h : Steps timeout s a s') : Safe s' := by
  obtain ⟨hresumed, hclosed⟩ := hs
  cases h with
  | call hpc | again hpc =>
      refine ⟨hresumed, fun hcl => absurd ?_ (hclosed hcl)⟩
      simp [Exposed, hpc]
  | block hpc | fail hpc | succeed hpc | arm hpc | notAdded hpc | disarm hpc | gaveUp hpc
  | timedOut hpc =>
      refine ⟨hresumed, fun _ hex => ?_⟩
      rcases hex with h | h | h <;> cases h
  | added hpc =>
      refine ⟨hresumed, fun hcl => ?_⟩
      rw [show s.closed = false from hc] at hcl
      cases hcl
  | resume hpc =>
      -- no close has met it waiting, so it is swapped in with the descriptor open
      have hopen : s.closed = false := by
        by_contra hcl
        exact hclosed (by simpa using hcl) (.inr (.inr hpc))
      refine ⟨by simp [hresumed, hopen], fun hcl => ?_⟩
      rw [show s.closed = false from hopen] at hcl
      cases hcl
  | retry hpc hzero => exact ⟨hresumed, fun hcl => absurd hzero (hc hcl)⟩
  | closeF => exact ⟨hresumed, fun _ => hc⟩
  | other => exact ⟨hresumed, hclosed⟩

theorem safe_of_reachable (hs : (doIo ctx timeout_so).ReachableWhen Spared s) : Safe s := by
  refine hs.invariant ?_ fun s a s' ih hc h => safe_step ih hc (steps h).2
  rintro s ⟨-, rfl⟩
  exact ⟨rfl, fun h => by cases h⟩

/-- A spared step of a safe call obeys. -/
theorem obeys_of_spared (hs : Safe s) (hc : s.Spared a) (h : Steps timeout s a s') :
    s.Obeys timeout a := by
  intro hcl
  refine ⟨?_, ?_, ?_⟩
  · rintro r rfl
    cases h with
    | call hpc => exact hs.closed hcl (.inl hpc)
    | other _ hno => exact hno r rfl
  · rintro rfl
    rw [show s.closed = false from hc] at hcl
    cases hcl
  · intro _ _ _ _ hresumed
    rw [hs.resumed] at hresumed
    cases hresumed

/-! ## Lost calls -/

/-- The descriptor is closed, and the call will start again or has been swapped in. -/
def Lost (s : DoIo) : Prop :=
  s.closed = true ∧ (s.Exposed ∨ (s.pc = .behind ∨ s.pc = .read) ∧ s.resumed = true)

/-- `cancelled` is not `EBADF`. -/
def Told (s : DoIo) : Prop := s.wait.cancelled = 0 ∨ s.wait.cancelled = ETIMEDOUT

theorem told_step (hs : s.Told) (h : Steps timeout s a s') : s'.Told := by
  unfold Told at hs ⊢
  cases h with
  | arm => simpa using hs
  | other _ _ _ _ hw =>
      -- nobody but the timer's callback writes `cancelled`
      rcases hw with hw | hw
      · rw [hw]
        exact hs
      · exact .inr hw
  | _ => exact hs

theorem told_of_reachable (hs : (doIo ctx timeout_so).Reachable s) : s.Told := by
  refine hs.invariant ?_ fun s a s' ih h => told_step ih (steps h).2
  rintro s ⟨-, rfl⟩
  exact .inl rfl

/-- A lost call that obeys does not return. -/
theorem lost_step (hs : s.Lost) (htold : s.Told) (hstep : s.step timeout a = some s')
    (hc : s.Obeys timeout a) (h : Steps timeout s a s') : s'.Lost := by
  obtain ⟨hcl, hat⟩ := hs
  obtain ⟨hnocall, hnoadd, hret⟩ := hc hcl
  unfold Exposed at hat
  cases h with
  | call hpc => exact absurd rfl (hnocall _)
  | added hpc => exact absurd rfl hnoadd
  | again hpc => exact ⟨hcl, .inl (.inl rfl)⟩
  | block hpc | fail hpc hne | succeed hpc | arm hpc | notAdded hpc | gaveUp hpc =>
      simp_all [EAGAIN, EINTR]
  | resume hpc => exact ⟨hcl, .inr ⟨.inl rfl, by simp [hcl]⟩⟩
  | disarm hpc =>
      have hresumed : s.resumed = true := by simpa [hpc] using hat
      exact ⟨hcl, .inr ⟨.inr rfl, hresumed⟩⟩
  | timedOut hpc hset =>
      have hresumed : s.resumed = true := by simpa [hpc] using hat
      have hbadf := (hret _ _ _ hstep hresumed rfl).2
      -- what it reports is its timeout
      rcases htold with hzero | htime
      · exact absurd hzero hset
      · rw [htime] at hbadf
        exact absurd hbadf (by decide)
  | retry hpc hzero =>
      -- with `cancelled` not set it goes back to the original function, closed or not
      exact ⟨hcl, .inl (.inl rfl)⟩
  | closeF => exact ⟨rfl, hat⟩
  | other => exact ⟨hcl, hat⟩

theorem lost_run {as : List IoAct} (hs : s.Lost) (hr : (doIo ctx timeout_so).Reachable s)
    (hc : (doIo ctx timeout_so).Along (Obeys (getTimeout ctx timeout_so)) s as)
    (h : (doIo ctx timeout_so).exec s as = some s') : s'.Lost := by
  induction as generalizing s with
  | nil => exact Option.some.inj h ▸ hs
  | cons a as ih =>
      obtain ⟨t, ht, hrest⟩ := Option.bind_eq_some_iff.mp h
      have hstep : s.step (getTimeout ctx timeout_so) a = some t := by
        simp only [doIo] at ht
        split at ht
        · cases ht
        · exact ht
      exact ih (lost_step hs (told_of_reachable hr) hstep hc.1 (steps ht).2) (.step hr trivial ht)
        (hc.2 t ht) hrest

theorem not_over_of_lost (hs : s.Lost) : s.isOver = false := by
  unfold isOver
  rcases hs.2 with (hpc | hpc | hpc) | ⟨hpc | hpc, -⟩ <;> rw [hpc]

/-- A step that is not spared loses the call, if it obeys. -/
theorem lost_of_violation (hno : ¬ s.Spared a) (hc : s.Obeys timeout a) (h : Steps timeout s a s') :
    s'.Lost := by
  cases h with
  | closeF =>
      have hexposed : s.Exposed := Decidable.not_not.mp hno
      exact ⟨rfl, .inl hexposed⟩
  | added hpc =>
      have hcl : s.closed = true := by simpa [Spared] using hno
      exact absurd rfl (hc hcl).2.1
  | timedOut hpc hset => exact absurd (fun _ => hset) hno
  | retry hpc hzero =>
      have hcl : s.closed = true := by
        by_contra hopen
        exact hno fun hcl => absurd hcl hopen
      exact ⟨hcl, .inl (.inl rfl)⟩
  | other hclose hcall hadd hread =>
      cases a with
      | closeF => exact absurd rfl hclose
      | read => exact absurd rfl hread
      | addEvent answer =>
          cases answer with
          | ok => exact absurd rfl hadd
          | error e => exact absurd trivial hno
      | _ => exact absurd trivial hno
  | _ => exact absurd trivial hno

/-- **When a call does no I/O on a closed descriptor.**  A call that returns obeys throughout if and
only if every close meets it neither before the original function nor waiting, and it then neither
registers nor starts again. -/
theorem no_io_after_close_iff (ctx : FdCtx) (timeout_so : TimeoutSo) (s₀ s : DoIo)
    (as : List IoAct) (h0 : (doIo ctx timeout_so).init s₀)
    (hrun : (doIo ctx timeout_so).exec s₀ as = some s) (hover : s.isOver = true) :
    (doIo ctx timeout_so).Along (Obeys (getTimeout ctx timeout_so)) s₀ as ↔
      (doIo ctx timeout_so).Along Spared s₀ as := by
  constructor
  · intro hobeys
    by_contra hno
    obtain ⟨bs, a, cs, t, t', rfl, hbs, hstep, ha⟩ := Lib.System.exists_violation hrun hno
    obtain ⟨u, hu, hrest⟩ := Lib.System.exec_append_eq_some.mp hrun
    obtain rfl : t = u := Option.some.inj (hbs.symm.trans hu)
    rw [Lib.System.exec_cons, hstep] at hrest
    obtain ⟨hnow, hlater⟩ := (Lib.System.along_append hobeys).2 t hbs
    have hlost := lost_of_violation ha hnow (steps hstep).2
    have hr : (doIo ctx timeout_so).Reachable t' :=
      .step (Lib.System.reachable_of_exec h0 hbs) trivial hstep
    have hend := not_over_of_lost (lost_run hlost hr (hlater t' hstep) hrest)
    rw [hover] at hend
    cases hend
  · intro hspared
    by_contra hno
    obtain ⟨bs, a, cs, t, t', rfl, hbs, hstep, ha⟩ := Lib.System.exists_violation hrun hno
    obtain ⟨hpre, hpost⟩ := Lib.System.along_append hspared
    have hsafe := safe_of_reachable (Lib.System.ReachableWhen.exec (.init h0) hpre hbs)
    exact ha (obeys_of_spared hsafe (hpost t hbs).1 (steps hstep).2)

/-! ## Runs -/

/-- The close comes between the `EAGAIN` and the `addEvent` of a call, and the number is not given out
again. -/
def refusedRun : List IoAct :=
  [.call (.error EAGAIN), .examine, .close true, .cancelAll, .del, .arm, .closeF,
    .addEvent (.error EBADF), .disarm]

theorem no_io_after_close_refused :
    (doIo socketCtx .rcvTimeo).Along (Obeys (getTimeout socketCtx .rcvTimeo)) .initial refusedRun :=
  (no_io_after_close_iff socketCtx .rcvTimeo .initial _ refusedRun ⟨by decide, rfl⟩
    (Option.some_get (by decide)).symm (by decide)).mpr (by decide)

/-- A call that waits is woken by the close, and the number is given out again before it goes on. -/
def reusedRun : List IoAct :=
  [.call (.error EAGAIN), .examine, .arm, .addEvent .ok, .close true, .cancelAll, .del, .closeF, .socket,
    .manage, .resume, .disarm, .read]

/-- **I/O on somebody else's descriptor**: the call is about to invoke the original function on the
number, which is in use again, and does not obey when it does. -/
theorem io_on_reused :
    ∃ s, (doIo socketCtx .rcvTimeo).exec .initial reusedRun = some s ∧ s.closed = true ∧
      s.inUse = true ∧ (∀ r, ((doIo socketCtx .rcvTimeo).step s (.call r)).isSome = true) ∧
      ∀ r, ¬ (doIo socketCtx .rcvTimeo).Along (Obeys (getTimeout socketCtx .rcvTimeo)) .initial
        (reusedRun ++ [.call r]) := by
  have hend : ((doIo socketCtx .rcvTimeo).exec .initial reusedRun).map
      (fun s => (s.pc, s.closed, s.inUse)) = some (.call, true, true) := by decide
  obtain ⟨s, hs, hend⟩ := Option.map_eq_some_iff.mp hend
  simp only [Prod.mk.injEq] at hend
  obtain ⟨hpc, hclosed, huse⟩ := hend
  refine ⟨s, hs, hclosed, huse, fun r => ?_, fun r hobeys => ?_⟩
  · simp [doIo, isOver, step, hpc, Lib.guarded]
  · have hlast := (Lib.System.along_append hobeys).2 s hs
    exact (hlast.1 hclosed).1 r rfl

end DoIo

end Sylar.Hook
