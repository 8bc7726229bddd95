/-
# Sylar.Hook.Close — `close` and the events of its descriptor (`sylar/hook.cpp` over
# `sylar/iomanager.cpp`).

A fiber or callback that waits for a descriptor is in the `IOManager`'s table; whether `close` wakes
it is decided by the `FdManager`'s.  The two are filled by different calls: `addEvent` takes any
descriptor, contexts are made for what the hooked `socket` and `accept` return.

`close_releases_iff` says for every state of both tables when a hooked close wakes all waiters before
it closes: where there is a context, or nobody waits.  A waiter whose `EventContext` has no scheduler
cannot be woken at all.  A pipe has no context, and its waiters stay (`close_of_pipe`).
-/
import Sylar.Hook.Calls
import Sylar.IO.Bookkeeping

namespace Sylar.IO

variable {S F C : Type}

namespace IOManager

/-- The registrations the table holds for a descriptor. -/
def regsOf (m : IOManager S F C) (fd : Nat) : List (Reg S F C) :=
  (m.m_fdContexts[fd]?).elim [] FdContext.regs

/-- `cancelAll` wakes everybody: nothing is registered any more, each registration has been scheduled
once, and the counter is down by their number. -/
structure Released (m m' : IOManager S F C) (fd : Nat) : Prop where
  gone : m'.regsOf fd = []
  sent : ∃ out, m'.books.scheduled = m.books.scheduled ++ out ∧
    ((m.regsOf fd).map Reg.delivery).Perm (out.map some)
  pending : m'.books.m_pendingEventCount = m.books.m_pendingEventCount - (m.regsOf fd).length

theorem Released.of_nobody {m : IOManager S F C} {fd : Nat} (h : m.regsOf fd = []) :
    Released m m fd where
  gone := h
  sent := ⟨[], by simp, by simp [h]⟩
  pending := by simp [h]

/-! ## `cancelAll` where `epoll_ctl` succeeds -/

theorem regs_eq_nil_iff {c : FdContext S F C} (hc : CtxOk c) : c.regs = [] ↔ c.events = Events.empty := by
  rw [← List.length_eq_zero_iff, hc.regs_length]
  obtain ⟨rd, wr, fd, ⟨er, ew⟩⟩ := c
  cases er <;> cases ew <;> simp [Events.card, Events.empty]

/-- The kernel knows every descriptor with events, so it can take it out. -/
theorem epollCtl_del_of_events {k : Epoll} {fd : Nat} {c : FdContext S F C} (hc : SlotWF k fd c)
    (hev : c.events ≠ Events.empty) (i : Interest) : ∃ k', epollCtl k .del fd i true = some k' := by
  have hin : (k fd).isSome = true := by
    rw [hc.kernel, interestOf, if_neg hev]
    rfl
  exact ⟨Function.update k fd none, by simp [epollCtl, hin]⟩

/-- An event is registered with a scheduler iff its registration has one. -/
theorem schedulers_iff {c : FdContext S F C} (hc : CtxOk c) :
    (∀ e, c.events.has e = true → (c.schedulerOf e).isSome = true) ↔
      ∀ r ∈ c.regs, r.scheduler.isSome = true := by
  have hall : (∀ e, c.events.has e = true → (c.schedulerOf e).isSome = true) ↔
      (c.events.read = true → c.read.scheduler.isSome = true) ∧
      (c.events.write = true → c.write.scheduler.isSome = true) :=
    ⟨fun h => ⟨h .read, h .write⟩, fun h e he => by
      cases e with
      | none => cases he
      | read => exact h.1 he
      | write => exact h.2 he⟩
  rw [hall, FdContext.regs, List.forall_mem_append]
  have hslot : ∀ {bit : Bool} {ctx : EventContext S F C} (e : Event), SlotOk bit ctx →
      ((bit = true → ctx.scheduler.isSome = true) ↔
        ∀ r ∈ (ctx.reg c.fd e).toList, r.scheduler.isSome = true) := by
    intro bit ctx e h
    cases h <;> simp [EventContext.reg, EventContext.work]
  exact and_congr (hslot .read hc.read) (hslot .write hc.write)

/-- Firing both events of a context goes through iff both have schedulers, and leaves none. -/
theorem fire_all_isOk_iff {b : Books S F C} {c : FdContext S F C} (hc : CtxOk c) :
    (∃ p, (match fireIf c.events b c .read with
        | .error e => .error e
        | .ok (b', c') =>
            match fireIf c'.events b' c' .write with
            | .error e => .error e
            | .ok (b'', c'') =>
                if c''.events = Events.empty then .ok (b'', c'', true) else .error Fault.eventsLeft)
        = (Except.ok p : Except Fault (Books S F C × FdContext S F C × Bool))) ↔
      ∀ e, c.events.has e = true → (c.schedulerOf e).isSome = true := by
  have hread := fireIf_isOk_iff (m := c.events) (b := b) (c := c) (e := .read)
  cases hr : fireIf c.events b c .read with
  | error f =>
      rw [hr] at hread
      refine iff_of_false (by simp) fun hall => ?_
      obtain ⟨b', c', h⟩ := hread.mpr fun hhas => ⟨hhas, hall .read hhas⟩
      cases h
  | ok p =>
      obtain ⟨b', c'⟩ := p
      obtain ⟨hbit, hslot⟩ := fireIf_read_frame hr
      obtain ⟨-, hev, -, rs, -, heff⟩ := fireIf_effect hc hr
      have hfst : c.events.has .read = true → (c.schedulerOf .read).isSome = true := fun hhas =>
        (hread.mp ⟨b', c', hr⟩ hhas).2
      have hwrite := fireIf_isOk_iff (m := c'.events) (b := b') (c := c') (e := .write)
      have hsame : c'.events.has .write = c.events.has .write ∧
          c'.schedulerOf .write = c.schedulerOf .write := by
        simp only [Events.has, FdContext.schedulerOf, FdContext.getContext, hbit, hslot, and_self]
      rw [hsame.1, hsame.2] at hwrite
      dsimp only
      cases hw : fireIf c'.events b' c' .write with
      | error f =>
          rw [hw] at hwrite
          refine iff_of_false (by simp) fun hall => ?_
          obtain ⟨b'', c'', h⟩ := hwrite.mpr fun hhas => ⟨hhas, hall .write hhas⟩
          cases h
      | ok q =>
          obtain ⟨b'', c''⟩ := q
          obtain ⟨-, hev', -⟩ := fireIf_effect heff.ctx hw
          -- both bits are off now
          have hempty : c''.events = Events.empty := by
            rw [hev', hev]
            obtain ⟨rd, wr, fd, ⟨er, ew⟩⟩ := c
            cases er <;> cases ew <;> rfl
          refine iff_of_true ⟨_, if_pos hempty⟩ fun e he => ?_
          cases e with
          | none => cases he
          | read => exact hfst he
          | write => exact (hwrite.mp ⟨b'', c'', hw⟩ he).2

/-- The body of `cancelAll` goes through iff every registration has a scheduler. -/
theorem cancelAllLocked_isOk_iff {b : Books S F C} {fd : Nat} {c : FdContext S F C}
    (hc : SlotWF b.epfd fd c) :
    (∃ p, cancelAllLocked b fd c true = .ok p) ↔ ∀ r ∈ c.regs, r.scheduler.isSome = true := by
  rw [← schedulers_iff hc.ctx, cancelAllLocked]
  by_cases hev : c.events = Events.empty
  · rw [if_pos hev]
    refine iff_of_true ⟨_, rfl⟩ fun e he => ?_
    rw [hev] at he
    cases e <;> cases he
  · rw [if_neg hev]
    obtain ⟨k, hk⟩ := epollCtl_del_of_events hc hev ⟨false, Events.empty⟩
    rw [hk]
    exact fire_all_isOk_iff hc.ctx

/-- Where there are events it does not give up. -/
theorem cancelAllLocked_true {b b' : Books S F C} {fd : Nat} {c c' : FdContext S F C} {rt : Bool}
    (hc : SlotWF b.epfd fd c) (hev : c.events ≠ Events.empty)
    (h : cancelAllLocked b fd c true = .ok (b', c', rt)) : rt = true := by
  obtain ⟨k, hk⟩ := epollCtl_del_of_events hc hev ⟨false, Events.empty⟩
  rw [cancelAllLocked, if_neg hev, hk] at h
  dsimp only at h
  split at h
  · cases h
  · split at h
    · cases h
    · split at h
      · exact (Prod.mk.inj (Prod.mk.inj (Except.ok.inj h)).2).2.symm
      · cases h

theorem released_of_body {m : IOManager S F C} (hm : WF m) {fd : Nat} {c c' : FdContext S F C}
    {b : Books S F C} {rt : Bool} (hc : m.m_fdContexts[fd]? = some c)
    (h : cancelAllLocked m.books fd c true = .ok (b, c', rt)) :
    Released m ⟨b, m.m_fdContexts.set fd c'⟩ fd := by
  have hslot := hm.slot hc
  have hregs : m.regsOf fd = c.regs := by rw [regsOf, hc]; rfl
  obtain ⟨hfd, hctx, hkernel⟩ := hslot
  subst hfd
  rcases cancelAllLocked_effect hctx h with ⟨rfl, rfl, rfl⟩ | ⟨rfl, hempty, ⟨fired, heff⟩, -⟩
  · -- it gave up, so there was no event
    rw [set_self hc]
    refine .of_nobody ?_
    rw [hregs, regs_eq_nil_iff hctx]
    by_contra hev
    exact absurd (cancelAllLocked_true ⟨rfl, hctx, hkernel⟩ hev h) (by simp)
  · have hnone : c'.regs = [] := (regs_eq_nil_iff heff.ctx).mpr hempty
    have hfired : c.regs.Perm fired := by simpa [hnone] using heff.regs
    obtain ⟨out, hout, hmap⟩ := heff.sent
    refine ⟨?_, ⟨out, hout, ?_⟩, ?_⟩
    · have hlt := (List.getElem?_eq_some_iff.mp hc).1
      rw [regsOf, List.getElem?_set_self hlt]
      exact hnone
    · rw [hregs, ← hmap]
      exact hfired.map _
    · have hcount := heff.pending
      rw [hregs, hfired.length_eq]
      simp only [List.length_nil] at hcount
      show b.m_pendingEventCount = _
      omega

/-- **`cancelAll`** of a descriptor releases everybody, or faults at a registration without a
scheduler. -/
theorem cancelAll_releases_iff {m : IOManager S F C} (hm : WF m) (fd : Nat) :
    (∃ m' rt, m.cancelAll fd true = .ok (m', rt) ∧ Released m m' fd) ↔
      ∀ r ∈ m.regsOf fd, r.scheduler.isSome = true := by
  by_cases hbig : m.m_fdContexts.length ≤ fd
  · have hnone : m.regsOf fd = [] := by
      rw [regsOf, List.getElem?_eq_none hbig]
      rfl
    refine iff_of_true ⟨m, false, if_pos hbig, .of_nobody hnone⟩ ?_
    rw [hnone]
    simp
  · obtain ⟨c, hc⟩ : ∃ c, m.m_fdContexts[fd]? = some c :=
      ⟨_, List.getElem?_eq_getElem (Nat.lt_of_not_le hbig)⟩
    have hregs : m.regsOf fd = c.regs := by rw [regsOf, hc]; rfl
    rw [hregs, ← cancelAllLocked_isOk_iff (hm.slot hc)]
    constructor
    · rintro ⟨m', rt, h, -⟩
      rw [cancelAll, if_neg hbig] at h
      obtain ⟨c₁, b, c', hc₁, hbody, -⟩ := withContext_ok h
      obtain rfl := Option.some.inj (hc.symm.trans hc₁)
      exact ⟨_, hbody⟩
    · rintro ⟨⟨b, c', rt⟩, hbody⟩
      refine ⟨⟨b, m.m_fdContexts.set fd c'⟩, rt, ?_, released_of_body hm hc hbody⟩
      rw [cancelAll, if_neg hbig, withContext, hc]
      simp only [hbody]

/-- The first assertion of `addEvent` is about the events of the descriptor. -/
theorem has_of_alreadyRegistered {b : Books S F C} {fd : Nat} {c : FdContext S F C} {event : Event}
    {cb : Option C} {who : Caller S F} {ok : Bool}
    (h : addEventLocked b fd c event cb who ok = .error .alreadyRegistered) :
    c.events.has event = true := by
  cases hhas : c.events.has event with
  | true => rfl
  | false =>
      unfold addEventLocked at h
      simp only [hhas, Bool.false_eq_true, if_false] at h
      split at h
      · cases h
      · split at h
        · cases h
        · split at h
          · cases h
          · split at h
            · cases h
            · split at h <;> cases h

/-- Where nothing is registered, no `addEvent` fails that assertion. -/
theorem addEvent_of_released {m : IOManager S F C} (hm : WF m) {fd : Nat} (h : m.regsOf fd = [])
    (event : Event) (cb : Option C) (who : Caller S F) (ok : Bool) :
    m.addEvent fd event cb who ok ≠ .error .alreadyRegistered := by
  -- the context it works on, in the table or new, has no event
  have hnone : ∀ c, (m.ensure fd).m_fdContexts[fd]? = some c → c.events = Events.empty := by
    intro c hc
    by_cases hlt : fd < m.m_fdContexts.length
    · rw [ensure, if_pos hlt] at hc
      rw [regsOf, hc] at h
      exact (regs_eq_nil_iff (hm.slot hc).ctx).mp h
    · rw [ensure, if_neg hlt, getElem?_contextResize (by omega), if_neg hlt] at hc
      split at hc
      · exact Option.some.inj hc ▸ rfl
      · cases hc
  intro herr
  rw [addEvent, withContext] at herr
  split at herr
  · cases herr
  · next c hc =>
      split at herr
      · next e hbody =>
          obtain rfl := Except.error.inj herr
          have hhas := has_of_alreadyRegistered hbody
          rw [hnone c hc] at hhas
          cases event <;> cases hhas
      · cases herr

/-- A descriptor is closed: `epoll` forgets it. -/
def closeF (m : IOManager S F C) (fd : Nat) : IOManager S F C :=
  { books := { m.books with epfd := Function.update m.books.epfd fd none }
    m_fdContexts := m.m_fdContexts }

theorem WF.closeF {m : IOManager S F C} (hm : WF m) {fd : Nat} (h : m.regsOf fd = []) :
    WF (m.closeF fd) := by
  refine ⟨fun {i c} hc => ?_, fun {i} hi => ?_⟩
  · have hslot := hm.slot hc
    refine ⟨hslot.fd, hslot.ctx, ?_⟩
    show Function.update m.books.epfd fd none i = _
    by_cases hin : i = fd
    · subst hin
      have hold : m.m_fdContexts[i]? = some c := hc
      rw [regsOf, hold] at h
      rw [Function.update_self, (regs_eq_nil_iff hslot.ctx).mp h]
      rfl
    · rw [Function.update_of_ne hin]
      exact hslot.kernel
  · show Function.update m.books.epfd fd none i = _
    by_cases hin : i = fd
    · rw [hin, Function.update_self]
    · rw [Function.update_of_ne hin]
      exact hm.beyond hi

end IOManager

end Sylar.IO

namespace Sylar.Hook

open Fd (FdCtx FdManager)
open Sylar.IO (IOManager Event Caller manager Op)

variable {S F C : Type}

/-! ## The process -/

/-- The `IOManager` of the thread, and what it was at each call of `close_f`. -/
structure Loop (S F C : Type) where
  io : IOManager S F C
  atClose : List (CInt × IOManager S F C)

/-- `close_f` takes the descriptor out of `epoll`'s table as well; `cancelAll` is the `IOManager`'s,
with an `epoll_ctl` that succeeds. -/
def loopLibc (S F C : Type) : Libc (Loop S F C) where
  original c o :=
    match c with
    | .close fd =>
        (0#32, { o with rest :=
          ⟨o.rest.io.closeF fd.toInt.toNat, o.rest.atClose ++ [(fd, o.rest.io)]⟩ })
    | c => (c.zero, o)
  wait c _ o := (c.zero, o)
  cancelAll fd r :=
    match r.io.cancelAll fd.toInt.toNat true with
    | .ok (io, _) => some { r with io := io }
    | .error _ => none
  int _ _ := none
  timeval _ _ := none
  timespec _ _ := none

/-- **A hooked `close` releases every waiter** before it calls the original, and no `addEvent` of the
number fails its first assertion on what the call leaves. -/
def Releases (fd : CInt) (s : Proc (Loop S F C)) : Prop :=
  ∃ rt s' io, hooked (loopLibc S F C) true 5000 (.close fd) s = some (rt, s') ∧
    s'.rest.atClose = s.rest.atClose ++ [(fd, io)] ∧
    s.rest.io.Released io fd.toInt.toNat ∧
    ∀ (event : Event) (cb : Option C) (who : Caller S F) (ok : Bool),
      s'.rest.io.addEvent fd.toInt.toNat event cb who ok ≠ .error .alreadyRegistered

/-- Nobody waits, or there is a context and every waiter has a scheduler. -/
def ReleasesWhen (fd : CInt) (s : Proc (Loop S F C)) : Prop :=
  s.rest.io.regsOf fd.toInt.toNat = [] ∨
    Held s fd ∧ ∀ r ∈ s.rest.io.regsOf fd.toInt.toNat, r.scheduler.isSome = true

variable {fd : CInt} {s : Proc (Loop S F C)} {a : Fd.FdMap}

/-! ## Which branch is taken -/

theorem look_of_not_held (hfds : Fd.Represents s.fds a) (h0 : 0 ≤ fd.toInt) (h : ¬ Held s fd) :
    s.look fd = some none := by
  have hplain : Fd.InTable (.get fd.toInt false) := ⟨h0, by simp⟩
  obtain ⟨m', r, hget, -⟩ := Fd.get_represents hfds hplain
  have hget' := hget
  rw [Fd.get_plain] at hget'
  obtain ⟨q, hslot, heq⟩ := Option.map_eq_some_iff.mp hget'
  obtain ⟨rfl, rfl⟩ := Prod.mk.inj heq
  cases q with
  | none => rw [Proc.look, hget]
  | some p => exact absurd ⟨p, hget⟩ h

theorem look_of_held (hfds : Fd.Represents s.fds a) (h0 : 0 ≤ fd.toInt) (h : Held s fd) :
    ∃ p ctx, s.look fd = some (some (p, ctx)) := by
  obtain ⟨p, hget⟩ := h
  have hplain : Fd.InTable (.get fd.toInt false) := ⟨h0, by simp⟩
  obtain ⟨m', r, hget', a', ha, hrep⟩ := Fd.get_represents hfds hplain
  obtain ⟨rfl, rfl⟩ : s.fds = m' ∧ some p = r := by simpa [hget] using hget'
  have hentry : (a.call Fd.isFd (.get fd.toInt false)).1.entry fd.toInt
      = (a.call Fd.isFd (.get fd.toInt false)).2 := Lib.Registry.call_get_entry
  rw [ha] at hentry
  obtain ⟨ctx, hctx, -⟩ := hrep.ctx _ _ hentry
  refine ⟨p, ctx, ?_⟩
  rw [Proc.look, hget]
  simp [hctx]

/-- Without a context `close` goes straight to `close_f`. -/
theorem close_not_held (hlook : s.look fd = some none) :
    hooked (loopLibc S F C) true 5000 (.close fd) s = some (s.original (loopLibc S F C) (.close fd)) := by
  simp only [hooked, close, Bool.not_true, Bool.false_eq_true, if_false, hlook]

/-- With one it faults where `cancelAll` does, and otherwise goes on behind it. -/
theorem close_held (hfds : Fd.Represents s.fds a) (h0 : 0 ≤ fd.toInt) {p : Nat} {ctx : FdCtx}
    (hlook : s.look fd = some (some (p, ctx))) :
    ∃ fds, hooked (loopLibc S F C) true 5000 (.close fd) s =
      match s.rest.io.cancelAll fd.toInt.toNat true with
      | .ok (io, _) => some (Proc.original (loopLibc S F C) (.close fd)
          { s with rest := { s.rest with io := io }, fds := fds })
      | .error _ => none := by
  obtain ⟨fds, hdel, -⟩ := Fd.del_represents hfds h0
  refine ⟨fds, ?_⟩
  simp only [hooked, close, loopLibc, Bool.not_true, Bool.false_eq_true, if_false, hlook, hdel]
  cases s.rest.io.cancelAll fd.toInt.toNat true with
  | error e => rfl
  | ok r => rfl

/-! ## The law -/

/-- **`close_releases_iff`** — whatever the two tables hold, a hooked close of a descriptor releases
every waiter exactly if nobody waits, or the descriptor has a context and every waiter a scheduler. -/
theorem close_releases_iff {fd : CInt} (h0 : 0 ≤ fd.toInt) {s : Proc (Loop S F C)} {a : Fd.FdMap}
    (hfds : Fd.Represents s.fds a) (hio : (manager S F C).Reachable s.rest.io) :
    Releases fd s ↔ ReleasesWhen fd s := by
  have hwf := IOManager.wf_of_reachable hio
  unfold ReleasesWhen
  by_cases hheld : Held s fd
  · obtain ⟨p, ctx, hlook⟩ := look_of_held hfds h0 hheld
    obtain ⟨fds, hclose⟩ := close_held hfds h0 hlook
    have hall := IOManager.cancelAll_releases_iff hwf fd.toInt.toNat
    have hwhen : (s.rest.io.regsOf fd.toInt.toNat = [] ∨
        Held s fd ∧ ∀ r ∈ s.rest.io.regsOf fd.toInt.toNat, r.scheduler.isSome = true) ↔
        ∀ r ∈ s.rest.io.regsOf fd.toInt.toNat, r.scheduler.isSome = true := by
      constructor
      · rintro (hnil | ⟨-, h⟩)
        · rw [hnil]
          simp
        · exact h
      · exact fun h => .inr ⟨hheld, h⟩
    rw [hwhen, ← hall, Releases, hclose]
    cases hcancel : s.rest.io.cancelAll fd.toInt.toNat true with
    | error e => simp
    | ok r =>
        obtain ⟨io, rt⟩ := r
        constructor
        · rintro ⟨rt₁, s', io₁, hs, hat, hrel, -⟩
          obtain ⟨-, rfl⟩ := Prod.mk.inj (Option.some.inj hs)
          have hio₁ : io = io₁ := by simpa [Proc.outside] using List.append_cancel_left hat
          exact ⟨io, rt, rfl, hio₁ ▸ hrel⟩
        · rintro ⟨io₁, rt₁, hok, hrel⟩
          obtain ⟨rfl, rfl⟩ := Prod.mk.inj (Except.ok.inj hok)
          obtain ⟨_, _, _, heff⟩ := (IOManager.cancelAll_outcome hwf hcancel).effect
          exact ⟨_, _, io, rfl, rfl, hrel,
            IOManager.addEvent_of_released (heff.wf.closeF hrel.gone) hrel.gone⟩
  · -- nobody is woken: this is right iff there is nobody
    rw [Releases, close_not_held (look_of_not_held hfds h0 hheld)]
    constructor
    · rintro ⟨rt, s', io, hs, hat, hrel, -⟩
      obtain ⟨-, rfl⟩ := Prod.mk.inj (Option.some.inj hs)
      have hsame : s.rest.io = io := by simpa [Proc.outside] using List.append_cancel_left hat
      exact .inl (hsame ▸ hrel.gone)
    · rintro (hnil | ⟨h, -⟩)
      · exact ⟨_, _, s.rest.io, rfl, rfl, .of_nobody hnil,
          IOManager.addEvent_of_released (hwf.closeF hnil) hnil⟩
      · exact absurd h hheld

/-- Two fibers that wait for 5 and 6. -/
def waiters : List (Op Nat Nat Nat) :=
  [.addEvent 5 .read none ⟨some 0, 7, .exec⟩ true, .addEvent 6 .read none ⟨some 0, 8, .exec⟩ true]

/-- 5 is a socket with a context; 6 is a pipe. -/
def waiting : Proc (Loop Nat Nat Nat) :=
  { fds := (((FdManager.new Fd.socketKernel).get 5 true).getD (FdManager.new Fd.socketKernel, none)).1
    errno := 0
    rest := ⟨((manager Nat Nat Nat).exec .initial waiters).getD .initial, []⟩
    made := [] }

theorem waiting_reachable : (manager Nat Nat Nat).Reachable waiting.rest.io :=
  Lib.System.reachable_of_exec (l := waiters) rfl rfl

theorem waiting_represents : ∃ a, Fd.Represents waiting.fds a := by
  have hcreate : Fd.InTable (.get 5 true) := by decide
  obtain ⟨m', r, hget, a', -, hrep⟩ :=
    Fd.get_represents (Fd.represents_new Fd.socketKernel) hcreate
  refine ⟨a', ?_⟩
  have hfds : waiting.fds = m' := by simp only [waiting, hget, Option.getD_some]
  rw [hfds]
  exact hrep

theorem close_of_socket : Releases 5#32 waiting ∧ ReleasesWhen 5#32 waiting := by
  obtain ⟨a, hfds⟩ := waiting_represents
  have hwhen : ReleasesWhen 5#32 waiting := .inr ⟨⟨0, rfl⟩, by decide⟩
  exact ⟨(close_releases_iff (by decide) hfds waiting_reachable).mpr hwhen, hwhen⟩

/-- The reader of the pipe is still registered when the pipe is closed. -/
theorem close_of_pipe :
    ¬ ∀ (fd : CInt) (s : Proc (Loop Nat Nat Nat)) (a : Fd.FdMap), 0 ≤ fd.toInt →
      Fd.Represents s.fds a → (manager Nat Nat Nat).Reachable s.rest.io → Releases fd s := by
  intro hall
  obtain ⟨a, hfds⟩ := waiting_represents
  obtain ⟨rt, s', io, hs, hat, hrel, -⟩ := hall 6#32 waiting a (by decide) hfds waiting_reachable
  rw [close_not_held rfl] at hs
  obtain ⟨-, rfl⟩ := Prod.mk.inj (Option.some.inj hs)
  have hsame : waiting.rest.io = io := by simpa [Proc.outside] using List.append_cancel_left hat
  have hgone := hrel.gone
  rw [← hsame] at hgone
  exact absurd hgone (by decide)

end Sylar.Hook
