/-
# Sylar.IO.Bookkeeping — counter, masks, contexts and kernel agree.

Over every run of `manager` whose `addEvent` callers have a scheduler, the pending counter is the
number of event bits, a bit is set exactly when its `EventContext` is a complete registration and
clear exactly when it is empty, the kernel's interest is the mask, and a failing call changes
nothing (`bookkeeping`).

`polling` adds what `epoll_wait` has returned and `idle` has not processed yet.  Such a mask may be
stale and is widened on `EPOLLERR | EPOLLHUP`; `idleEvent_safe_iff` says exactly when processing it
is safe.  `idle` branches on `real_events` where `cancelAll` branches on the registered mask, so a
hang-up on a descriptor with one registered event fails `triggerEvent`'s assertion
(`hangup_unregistered`).
-/
import Sylar.IO.IOManager

namespace Sylar.IO

open Sylar.Scheduler

variable {S F C : Type}

/-! ## What the books say -/

/-- A complete registration: a scheduler, and exactly one of fiber and callback. -/
def EventContext.Registered (ctx : EventContext S F C) : Prop :=
  ctx.scheduler.isSome = true ∧ ctx.fiber.isSome ≠ ctx.cb.isSome

namespace IOManager

/-- The bookkeeping invariant. -/
structure BookKept (m : IOManager S F C) : Prop where
  pending : m.books.m_pendingEventCount = m.bits
  set_iff : ∀ (fd : Nat) (c : FdContext S F C), m.m_fdContexts[fd]? = some c →
    ∀ e ctx, c.getContext e = some ctx → (c.events.has e = true ↔ ctx.Registered)
  clear_iff : ∀ (fd : Nat) (c : FdContext S F C), m.m_fdContexts[fd]? = some c →
    ∀ e ctx, c.getContext e = some ctx → (c.events.has e = false ↔ ctx = .empty)
  kernel : ∀ (fd : Nat) (c : FdContext S F C), m.m_fdContexts[fd]? = some c →
    m.books.epfd fd = if c.events = Events.empty then none else some ⟨true, c.events⟩
  failed : ∀ op m' rt, m.call op = .ok (m', rt) → rt.Failure →
    m'.books = m.books ∧ (op.fd < m.m_fdContexts.length → m' = m)

/-- The registrations a successful call adds are the ones it was asked for. -/
theorem mem_added_of_fills {op : Op S F C} {added deleted fired : List (Reg S F C)}
    (h : op.Fills added deleted fired) (hop : op.FromScheduler) :
    ∀ r ∈ added, r.scheduler.isSome = true := by
  rw [h.1]
  cases op with
  | addEvent fd event cb who ok =>
      intro r hr
      rw [List.mem_singleton.mp hr]
      exact hop
  | delEvent | cancelEvent | cancelAll | idleEvent => intro r hr; cases hr

/-- Every registration of a run on scheduler threads has a scheduler. -/
theorem regs_scheduled {m : IOManager S F C}
    (hm : (manager S F C).ReachableWhen (fun _ op => op.FromScheduler) m) :
    ∀ r ∈ m.regs, r.scheduler.isSome = true := by
  refine Lib.System.ReachableWhen.invariant_of
    (P := fun m => ∀ r ∈ m.regs, r.scheduler.isSome = true)
    (Q := WF) (fun m hr => wf_of_reachable hr.reachable) ?_ ?_ hm
  · rintro m rfl r hr
    simp at hr
  · intro m op m' hwf ih hop hstep r hr
    obtain ⟨rt, hcall⟩ := step_eq_some hstep
    cases call_outcome hwf hcall with
    | failed _ _ heff _ =>
        exact ih r (by simpa using heff.regs.symm.subset (List.mem_append_left _ hr))
    | done added deleted fired _ heff hfills =>
        rcases List.mem_append.mp (heff.regs.symm.subset (List.mem_append_left _ hr)) with h | h
        · exact ih r h
        · exact mem_added_of_fills hfills hop r h

/-- The counter counts the registrations, on any threads. -/
theorem pending_eq {m : IOManager S F C} (hm : (manager S F C).Reachable m) :
    m.books.m_pendingEventCount = m.bits := by
  have hlen : m.books.m_pendingEventCount = m.regs.length := by
    refine Lib.System.ReachableWhen.invariant_of
      (P := fun m => m.books.m_pendingEventCount = m.regs.length)
      (Q := WF) (fun m hr => wf_of_reachable hr) ?_ ?_ hm
    · rintro m rfl
      rw [regs_initial]
      rfl
    · intro m op m' hwf ih _ hstep
      obtain ⟨rt, hcall⟩ := step_eq_some hstep
      obtain ⟨added, deleted, fired, heff⟩ := (call_outcome hwf hcall).effect
      have hperm := heff.regs.length_eq
      have hcount := heff.pending
      simp only [List.length_append] at hperm
      omega
  rw [hlen, (wf_of_reachable hm).bits_eq]

/-- A slot in shape, with a scheduler when its bit is set. -/
theorem slot_iff {bit : Bool} {ctx : EventContext S F C} (h : SlotOk bit ctx)
    (hs : bit = true → ctx.scheduler.isSome = true) :
    (bit = true ↔ ctx.Registered) ∧ (bit = false ↔ ctx = .empty) := by
  cases h with
  | clear => simp [EventContext.Registered, EventContext.empty]
  | fiber s f => simp [EventContext.Registered, EventContext.empty, hs rfl]
  | cb s g => simp [EventContext.Registered, EventContext.empty, hs rfl]

/-- A set slot is one of the context's registrations. -/
theorem reg_of_slot {c : FdContext S F C} {e : Event} {ctx : EventContext S F C}
    (hc : CtxOk c) (hctx : c.getContext e = some ctx) (hbit : c.events.has e = true) :
    ∃ r ∈ c.regs, r.scheduler = ctx.scheduler := by
  have hreg : ∀ {bit : Bool} {ctx : EventContext S F C}, SlotOk bit ctx → bit = true →
      ∃ w, ctx.reg c.fd e = some ⟨c.fd, e, ctx.scheduler, w⟩ := by
    intro bit ctx h hb
    cases h with
    | clear => cases hb
    | fiber s f => exact ⟨.fiber f, rfl⟩
    | cb s g => exact ⟨.cb g, rfl⟩
  cases e with
  | none => cases hctx
  | read =>
      obtain rfl : c.read = ctx := Option.some.inj hctx
      obtain ⟨w, hw⟩ := hreg hc.read hbit
      exact ⟨_, List.mem_append_left _ (by rw [hw]; exact List.mem_singleton_self _), rfl⟩
  | write =>
      obtain rfl : c.write = ctx := Option.some.inj hctx
      obtain ⟨w, hw⟩ := hreg hc.write hbit
      exact ⟨_, List.mem_append_right _ (by rw [hw]; exact List.mem_singleton_self _), rfl⟩

theorem slotOk_of_getContext {c : FdContext S F C} {e : Event} {ctx : EventContext S F C}
    (hc : CtxOk c) (hctx : c.getContext e = some ctx) : SlotOk (c.events.has e) ctx := by
  cases e with
  | none => cases hctx
  | read => exact Option.some.inj hctx ▸ hc.read
  | write => exact Option.some.inj hctx ▸ hc.write

theorem mem_regs {m : IOManager S F C} {fd : Nat} {c : FdContext S F C} {r : Reg S F C}
    (hc : m.m_fdContexts[fd]? = some c) (hr : r ∈ c.regs) : r ∈ m.regs :=
  List.mem_flatMap.mpr ⟨c, List.mem_of_getElem? hc, hr⟩

/-- **The bookkeeping invariant** holds in every state of every run on scheduler threads. -/
theorem bookkeeping {m : IOManager S F C}
    (hm : (manager S F C).ReachableWhen (fun _ op => op.FromScheduler) m) : BookKept m := by
  have hwf := wf_of_reachable hm.reachable
  have hslot : ∀ (fd : Nat) (c : FdContext S F C), m.m_fdContexts[fd]? = some c →
      ∀ e ctx, c.getContext e = some ctx → (c.events.has e = true ↔ ctx.Registered) ∧
        (c.events.has e = false ↔ ctx = .empty) := by
    intro fd c hc e ctx hctx
    have hok := (hwf.slot hc).ctx
    refine slot_iff (slotOk_of_getContext hok hctx) fun hbit => ?_
    obtain ⟨r, hr, hs⟩ := reg_of_slot hok hctx hbit
    exact hs ▸ regs_scheduled hm r (mem_regs hc hr)
  exact
    { pending := pending_eq hm.reachable
      set_iff := fun fd c hc e ctx hctx => (hslot fd c hc e ctx hctx).1
      clear_iff := fun fd c hc e ctx hctx => (hslot fd c hc e ctx hctx).2
      kernel := fun fd c hc => (hwf.slot hc).kernel
      failed := fun op m' rt hcall hrt => by
        cases call_outcome hwf hcall with
        | failed _ hbooks _ hself => exact ⟨hbooks, hself⟩
        | done _ _ _ hnot _ _ => exact absurd hrt hnot }

/-- A run with a registration, a second one, a delivery and a refused call. -/
def bookkeepingRun : List (Op Nat Nat Nat) :=
  [.addEvent 5 .read none ⟨some 0, 7, .exec⟩ true, .addEvent 5 .write (some 9) ⟨some 0, 7, .exec⟩ true,
    .idleEvent 5 ⟨true, false, false, false⟩ true, .delEvent 5 .write false]

theorem bookkeeping_run :
    BookKept (((manager Nat Nat Nat).exec .initial bookkeepingRun).get (by decide)) :=
  bookkeeping (Lib.System.ReachableWhen.exec (.init rfl) (l := bookkeepingRun) (by decide)
    (Option.some_get _).symm)

end IOManager

/-! ## `epoll_wait` and stale masks -/

/-- The masks `epoll_wait` can report for `fd`: readiness the interest asks for, and `EPOLLERR`,
`EPOLLHUP` unasked. -/
def deliverable (k : Epoll) (fd : Nat) (r : Ready) : Bool :=
  match k fd with
  | none => false
  | some i =>
      (!r.epollin || i.events.read) && (!r.epollout || i.events.write) &&
        (r.epollin || r.epollout || r.epollerr || r.epollhup)

/-- The manager and the events `epoll_wait` has returned to the workers. -/
structure Polled (S F C : Type) where
  io : IOManager S F C
  inFlight : List (Nat × Ready)

/-- A call by some thread, an `epoll_wait` reporting one event, and `idle` processing the `n`th
event in flight. -/
inductive Poll (S F C : Type)
  | call (op : Op S F C)
  | wait (fd : Nat) (r : Ready)
  | handle (n : Nat) (ok : Bool)

/-- All interleavings of calls, `epoll_wait`s and `idle`'s processing of what they returned. -/
def polling (S F C : Type) : Lib.System (Polled S F C) (Poll S F C) where
  init s := s = ⟨.initial, []⟩
  step s a :=
    match a with
    | .call (.idleEvent ..) => none
    | .call op => (s.io.call op).toOption.map fun p => ⟨p.1, s.inFlight⟩
    | .wait fd r =>
        if deliverable s.io.books.epfd fd r then some ⟨s.io, s.inFlight ++ [(fd, r)]⟩ else none
    | .handle n ok =>
        match s.inFlight[n]? with
        | none => none
        | some (fd, r) =>
            (s.io.idleEvent fd r ok).toOption.map fun p => ⟨p.1, s.inFlight.eraseIdx n⟩

/-- A poll step is a call of the manager, or leaves the manager alone. -/
theorem polling_step {s s' : Polled S F C} {a : Poll S F C}
    (h : (polling S F C).step s a = some s') :
    (∃ op, (manager S F C).step s.io op = some s'.io ∧ ∀ p ∈ s'.inFlight, p ∈ s.inFlight) ∨
      (∃ fd r, s' = ⟨s.io, s.inFlight ++ [(fd, r)]⟩ ∧
        deliverable s.io.books.epfd fd r = true) := by
  have hcall : ∀ {op : Op S F C} {R : Type} {x : Except Fault (IOManager S F C × R)} {g : R → Ret}
      {fl : List (Nat × Ready)}, s.io.call op = x.map (fun p => (p.1, g p.2)) →
      x.toOption.map (fun p => (⟨p.1, fl⟩ : Polled S F C)) = some s' →
      (manager S F C).step s.io op = some s'.io ∧ s'.inFlight = fl := by
    intro op R x g fl hop hx
    cases x with
    | error e => simp [Except.toOption] at hx
    | ok p =>
        obtain rfl := Option.some.inj hx
        exact ⟨by simp [manager, hop, Except.map, Except.toOption], rfl⟩
  cases a with
  | call op =>
      refine .inl ⟨op, ?_⟩
      have hsame : (s.io.call op).map (fun p => (p.1, id p.2)) = s.io.call op := by
        cases s.io.call op <;> rfl
      cases op with
      | idleEvent fd r ok => exact absurd h (by simp [polling])
      | addEvent fd event cb who ok =>
          obtain ⟨hst, hfl⟩ := hcall (g := id) hsame.symm h
          exact ⟨hst, fun p hp => hfl ▸ hp⟩
      | delEvent fd event ok =>
          obtain ⟨hst, hfl⟩ := hcall (g := id) hsame.symm h
          exact ⟨hst, fun p hp => hfl ▸ hp⟩
      | cancelEvent fd event ok =>
          obtain ⟨hst, hfl⟩ := hcall (g := id) hsame.symm h
          exact ⟨hst, fun p hp => hfl ▸ hp⟩
      | cancelAll fd ok =>
          obtain ⟨hst, hfl⟩ := hcall (g := id) hsame.symm h
          exact ⟨hst, fun p hp => hfl ▸ hp⟩
  | wait fd r =>
      simp only [polling] at h
      split at h
      · rename_i hd
        exact .inr ⟨fd, r, (Option.some.inj h).symm, hd⟩
      · exact absurd h (by simp)
  | handle n ok =>
      simp only [polling] at h
      cases hn : s.inFlight[n]? with
      | none => simp [hn] at h
      | some p =>
          obtain ⟨fd, r⟩ := p
          simp only [hn] at h
          obtain ⟨hst, hfl⟩ := hcall (g := fun _ => .unit) (rfl : s.io.call (.idleEvent fd r ok) = _) h
          exact .inl ⟨_, hst, fun q hq => List.mem_of_mem_eraseIdx (hfl ▸ hq)⟩

/-- The manager inside a polling run is a manager of a run. -/
theorem io_reachable {s : Polled S F C} (hs : (polling S F C).Reachable s) :
    (manager S F C).Reachable s.io := by
  refine Lib.System.Reachable.invariant (P := fun s => (manager S F C).Reachable s.io) ?_ ?_ hs
  · rintro s rfl
    exact .init rfl
  · intro s a s' ih h
    rcases polling_step h with ⟨op, hst, -⟩ | ⟨fd, r, rfl, -⟩
    · exact .step ih trivial hst
    · exact ih

/-- An event in flight belongs to a context of the table. -/
theorem inFlight_lt {s : Polled S F C} (hs : (polling S F C).Reachable s) {fd : Nat} {r : Ready}
    (h : (fd, r) ∈ s.inFlight) : fd < s.io.m_fdContexts.length := by
  revert fd r
  refine Lib.System.ReachableWhen.invariant_of (M := polling S F C)
    (P := fun s => ∀ {fd : Nat} {r : Ready}, (fd, r) ∈ s.inFlight → fd < s.io.m_fdContexts.length)
    (Q := fun s => s.io.WF) (fun s hr => IOManager.wf_of_reachable (io_reachable hr)) ?_ ?_ hs
  · rintro s rfl fd r h
    cases h
  · intro s a s' hwf ih _ hstep fd r h
    rcases polling_step hstep with ⟨op, hst, hsub⟩ | ⟨fd', r', rfl, hd⟩
    · obtain ⟨rt, hcall⟩ := IOManager.step_eq_some hst
      obtain ⟨_, _, _, heff⟩ := (IOManager.call_outcome hwf hcall).effect
      exact Nat.lt_of_lt_of_le (ih (hsub _ h)) heff.grows
    · rcases List.mem_append.mp h with h | h
      · exact ih h
      · obtain ⟨rfl, rfl⟩ := Prod.mk.inj (List.mem_singleton.mp h)
        by_contra hlt
        rw [deliverable, hwf.beyond (Nat.le_of_not_lt hlt)] at hd
        cases hd

/-! ## When the processing of an event is safe -/

/-- The processing of one event raises no fault, schedules registered events only, decrements the
counter once for each, and does not take it below zero. -/
def IdleSafe (m : IOManager S F C) (fd : Nat) (r : Ready) (ok : Bool) : Prop :=
  ∃ m' fired, m.idleEvent fd r ok = .ok (m', ()) ∧ m.CallEffect m' [] [] fired ∧
    m'.books.m_pendingEventCount = m.books.m_pendingEventCount - fired.length ∧
    0 ≤ m'.books.m_pendingEventCount

/-- Nothing to do, or every event of `real_events` is registered and has a scheduler. -/
def IdleCond (c : FdContext S F C) (r : Ready) (ok : Bool) : Prop :=
  ok = false ∨ c.events.inter r.real_events = Events.empty ∨
    ∀ e, r.real_events.has e = true → c.events.has e = true ∧ (c.schedulerOf e).isSome = true

/-- A conditional fire goes through iff the event is registered and has a scheduler. -/
theorem fireIf_isOk_iff {m : Events} {b : Books S F C} {c : FdContext S F C} {e : Event} :
    (∃ b' c', fireIf m b c e = .ok (b', c')) ↔
      (m.has e = true → c.events.has e = true ∧ (c.schedulerOf e).isSome = true) := by
  rw [fireIf]
  by_cases hm : m.has e = true
  · rw [if_pos hm, fire]
    simp only [hm, true_implies, ← triggerEvent_isOk_iff]
    cases c.triggerEvent e with
    | error f => simp
    | ok p =>
        obtain ⟨c', out⟩ := p
        simp
  · rw [if_neg hm]
    simp [hm]

/-- Firing `READ` leaves the `WRITE` half alone. -/
theorem fireIf_read_frame {m : Events} {b b' : Books S F C} {c c' : FdContext S F C}
    (h : fireIf m b c .read = .ok (b', c')) :
    c'.events.write = c.events.write ∧ c'.write = c.write := by
  have htrig : ∀ {out : List (S × Work F C)}, c.triggerEvent .read = .ok (c', out) →
      c'.events.write = c.events.write ∧ c'.write = c.write := by
    intro out ht
    simp only [FdContext.triggerEvent, FdContext.getContext] at ht
    split at ht
    · split at ht
      · cases ht
      · split at ht
        all_goals
          simp only [Except.ok.injEq, Prod.mk.injEq] at ht
          obtain ⟨rfl, -⟩ := ht
          exact ⟨rfl, rfl⟩
    · cases ht
  rw [fireIf] at h
  split at h
  · rw [fire] at h
    cases ht : c.triggerEvent .read with
    | error f => simp [ht] at h
    | ok p =>
        simp only [ht, Except.ok.injEq, Prod.mk.injEq] at h
        exact htrig (by rw [ht, ← h.2])
  · simp only [Except.ok.injEq, Prod.mk.injEq] at h
    rw [h.2]
    exact ⟨rfl, rfl⟩

/-- Past `epoll_ctl`, `idle` goes through iff every event of the mask can be triggered. -/
theorem fire_both_isOk_iff {m : Events} {b : Books S F C} {c : FdContext S F C} :
    (∃ p, (match fireIf m b c .read with
        | .error e => .error e
        | .ok (b', c') => fireIf m b' c' .write) = Except.ok p) ↔
      ∀ e, m.has e = true → c.events.has e = true ∧ (c.schedulerOf e).isSome = true := by
  have hall : (∀ e, m.has e = true → c.events.has e = true ∧ (c.schedulerOf e).isSome = true) ↔
      (m.has .read = true → c.events.has .read = true ∧ (c.schedulerOf .read).isSome = true) ∧
      (m.has .write = true → c.events.has .write = true ∧ (c.schedulerOf .write).isSome = true) :=
    ⟨fun h => ⟨h .read, h .write⟩, fun h e he => by
      cases e with
      | none => cases he
      | read => exact h.1 he
      | write => exact h.2 he⟩
  rw [hall, ← fireIf_isOk_iff (b := b)]
  cases hr : fireIf m b c .read with
  | error f => simp
  | ok p =>
      obtain ⟨b', c'⟩ := p
      obtain ⟨hbit, hslot⟩ := fireIf_read_frame hr
      have hwrite : (c'.events.has .write = true ∧ (c'.schedulerOf .write).isSome = true) ↔
          (c.events.has .write = true ∧ (c.schedulerOf .write).isSome = true) := by
        simp only [Events.has, FdContext.schedulerOf, FdContext.getContext, hbit, hslot]
      rw [← hwrite, ← fireIf_isOk_iff (b := b')]
      simp

/-- `idle`'s body raises no fault iff the condition holds. -/
theorem idleLocked_isOk_iff {b : Books S F C} {fd : Nat} {c : FdContext S F C} {r : Ready}
    {ok : Bool} (hc : SlotWF b.epfd fd c) :
    (∃ p, idleLocked b c r ok = .ok p) ↔ IdleCond c r ok := by
  rw [idleLocked, IdleCond]
  by_cases hempty : c.events.inter r.real_events = Events.empty
  · rw [if_pos hempty]
    simp [hempty]
  · rw [if_neg hempty]
    have hreg : (b.epfd c.fd).isSome = true := by
      have hne : c.events ≠ Events.empty := fun h => hempty (by rw [h]; rfl)
      rw [hc.fd, hc.kernel, interestOf, if_neg hne]
      rfl
    have hctl : ∀ (op : CtlOp) (i : Interest), op ≠ .add →
        (epollCtl b.epfd op c.fd i ok = none ↔ ok = false) := by
      intro op i hop
      cases op with
      | add => exact absurd rfl hop
      | mod => cases ok <;> simp [epollCtl, hreg]
      | del => cases ok <;> simp [epollCtl, hreg]
    have hop : (if c.events.diff r.real_events = Events.empty then CtlOp.del else CtlOp.mod)
        ≠ .add := by
      split <;> simp
    dsimp only
    cases hk : epollCtl b.epfd
        (if c.events.diff r.real_events = Events.empty then CtlOp.del else CtlOp.mod)
        c.fd ⟨true, c.events.diff r.real_events⟩ ok with
    | none =>
        have hok := (hctl _ _ hop).mp hk
        simp [hok]
    | some k =>
        have hok : ok ≠ false := fun h => by
          rw [(hctl _ _ hop).mpr h] at hk
          cases hk
        simp only [hok, hempty, reduceCtorEq, false_or]
        exact fire_both_isOk_iff

/-- **Safety of `idle`'s event processing**: in every state of every run, whatever other threads did
since `epoll_wait` returned, the processing of an event in flight is safe iff the kernel refuses the
update, none of `real_events` is registered any more, or every event of `real_events` is registered
with a scheduler. -/
theorem idleEvent_safe_iff {s : Polled S F C} (hs : (polling S F C).Reachable s) {fd : Nat}
    {r : Ready} (hr : (fd, r) ∈ s.inFlight) (ok : Bool) :
    ∃ c, s.io.m_fdContexts[fd]? = some c ∧ (IdleSafe s.io fd r ok ↔ IdleCond c r ok) := by
  have hio := io_reachable hs
  have hwf := IOManager.wf_of_reachable hio
  have hlt := inFlight_lt hs hr
  have hc : s.io.m_fdContexts[fd]? = some s.io.m_fdContexts[fd] := List.getElem?_eq_getElem hlt
  refine ⟨_, hc, ?_⟩
  have hcall : (∃ p, s.io.idleEvent fd r ok = .ok p) ↔
      ∃ p, idleLocked s.io.books s.io.m_fdContexts[fd] r ok = .ok p := by
    rw [IOManager.idleEvent, IOManager.withContext, hc]
    dsimp only
    cases idleLocked s.io.books s.io.m_fdContexts[fd] r ok with
    | error e => simp [Except.map]
    | ok p => simp [Except.map]
  rw [← idleLocked_isOk_iff (hwf.slot hc), ← hcall]
  constructor
  · rintro ⟨m', fired, hm', -⟩
    exact ⟨_, hm'⟩
  · rintro ⟨⟨m', u⟩, hm'⟩
    have hstep : (manager S F C).step s.io (.idleEvent fd r ok) = some m' := by
      simp [manager, IOManager.call, hm', Except.map, Except.toOption]
    have hpos := IOManager.pending_eq (.step hio trivial hstep)
    cases IOManager.idleEvent_outcome hwf hm' with
    | failed hfail _ _ _ => exact hfail.elim
    | done added deleted fired _ heff hfills =>
        obtain ⟨rfl, rfl⟩ := hfills
        have hcount := heff.pending
        simp only [Op.request, List.length_nil] at hcount
        exact ⟨m', fired, hm', heff, by omega, by omega⟩

/-- A run that registers `READ` on descriptor 5 and gets `EPOLLIN` for it. -/
def readyRun : List (Poll Nat Nat Nat) :=
  [.call (.addEvent 5 .read none ⟨some 0, 7, .exec⟩ true), .wait 5 ⟨true, false, false, false⟩]

theorem idleEvent_safe_ready :
    ∃ c, (((polling Nat Nat Nat).exec ⟨.initial, []⟩ readyRun).get (by decide)).io.m_fdContexts[5]?
        = some c ∧
      (IdleSafe (((polling Nat Nat Nat).exec ⟨.initial, []⟩ readyRun).get (by decide)).io 5
          ⟨true, false, false, false⟩ true ↔ IdleCond c ⟨true, false, false, false⟩ true) :=
  idleEvent_safe_iff
    (Lib.System.reachable_of_exec (l := readyRun) rfl (Option.some_get _).symm) (by decide) true

/-- A run that registers `READ` on descriptor 5 and gets `EPOLLHUP` for it. -/
def hangupRun : List (Poll Nat Nat Nat) :=
  [.call (.addEvent 5 .read none ⟨some 0, 7, .exec⟩ true), .wait 5 ⟨false, false, false, true⟩]

/-- **A hang-up with one registered event**: `WRITE` is triggered though it is not registered, and
the assertion in `triggerEvent` fails. -/
theorem hangup_unregistered :
    ∃ s, (polling Nat Nat Nat).Reachable s ∧ (5, ⟨false, false, false, true⟩) ∈ s.inFlight ∧
      s.io.idleEvent 5 ⟨false, false, false, true⟩ true = .error .notRegistered ∧
      ¬ IdleSafe s.io 5 ⟨false, false, false, true⟩ true := by
  have hfault : (((polling Nat Nat Nat).exec ⟨.initial, []⟩ hangupRun).get (by decide)).io.idleEvent
      5 ⟨false, false, false, true⟩ true = .error .notRegistered := by rfl
  refine ⟨((polling Nat Nat Nat).exec ⟨.initial, []⟩ hangupRun).get (by decide),
    Lib.System.reachable_of_exec (l := hangupRun) rfl (Option.some_get _).symm, by decide,
    hfault, ?_⟩
  rintro ⟨m', fired, hm', -⟩
  rw [hfault] at hm'
  cases hm'

end Sylar.IO
