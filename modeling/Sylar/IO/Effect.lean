/-
# Sylar.IO.Effect — what each body does to the registrations.

A context stands for its *registrations*: for every event bit, who is to be scheduled and where.
`CtxOk` is the shape every reachable context has (a set bit goes with exactly one of fiber and
callback, a clear bit with an empty `EventContext`), and `InterestOk` ties the kernel's table to the
mask.

`Effect b c b' c' added deleted fired` is the one statement about a body: registrations are
conserved, the pending counter moves with them, and exactly the fired ones have been scheduled.
The lemmas `…_effect` say which of the three lists each body fills; the lemmas `…_failed` that a
failing call changes nothing at all.
-/
import Sylar.IO.FdContext

namespace Sylar.IO

open Sylar.Scheduler

variable {S F C : Type}

/-! ## Registrations -/

/-- One registration: the event, the scheduler it was made from and what is to run. -/
structure Reg (S F C : Type) where
  fd : Nat
  event : Event
  scheduler : Option S
  work : Work F C
  deriving DecidableEq, Repr

/-- The `schedule` call that delivers the registration, if it has a scheduler. -/
def Reg.delivery (r : Reg S F C) : Option (S × Work F C) := r.scheduler.map fun s => (s, r.work)

/-- What an `EventContext` holds, when it holds exactly one of fiber and callback. -/
def EventContext.work (ctx : EventContext S F C) : Option (Work F C) :=
  match ctx.fiber, ctx.cb with
  | some f, none => some (.fiber f)
  | none, some c => some (.cb c)
  | _, _ => none

/-- The registration an `EventContext` stands for. -/
def EventContext.reg (ctx : EventContext S F C) (fd : Nat) (e : Event) : Option (Reg S F C) :=
  ctx.work.map fun w => ⟨fd, e, ctx.scheduler, w⟩

/-- The registrations of one descriptor. -/
def FdContext.regs (c : FdContext S F C) : List (Reg S F C) :=
  (c.read.reg c.fd .read).toList ++ (c.write.reg c.fd .write).toList

/-- An event bit against its `EventContext`. -/
inductive SlotOk : Bool → EventContext S F C → Prop
  | clear : SlotOk false ⟨none, none, none⟩
  | fiber (s : Option S) (f : F) : SlotOk true ⟨s, some f, none⟩
  | cb (s : Option S) (g : C) : SlotOk true ⟨s, none, some g⟩

/-- The shape of every reachable context. -/
structure CtxOk (c : FdContext S F C) : Prop where
  read : SlotOk c.events.read c.read
  write : SlotOk c.events.write c.write

/-- The kernel's interest is `EPOLLET | events`, or absent when `events` is `NONE`. -/
def InterestOk (k : Epoll) (c : FdContext S F C) : Prop := k c.fd = interestOf c.events

theorem ctxOk_new (fd : Nat) : CtxOk (FdContext.new fd : FdContext S F C) := ⟨.clear, .clear⟩

@[simp] theorem regs_new (fd : Nat) : (FdContext.new fd : FdContext S F C).regs = [] := rfl

/-- A context in shape has one registration for each bit. -/
theorem CtxOk.regs_length {c : FdContext S F C} (h : CtxOk c) : c.regs.length = c.events.card := by
  obtain ⟨rd, wr, fd, ⟨er, ew⟩⟩ := c
  obtain ⟨hr, hw⟩ := h
  cases hr <;> cases hw <;> rfl

/-! ## Effects -/

/-- What a body did: `added` was registered, `deleted` dropped, `fired` scheduled. -/
structure Effect (b : Books S F C) (c : FdContext S F C) (b' : Books S F C) (c' : FdContext S F C)
    (added deleted fired : List (Reg S F C)) : Prop where
  fd : c'.fd = c.fd
  ctx : CtxOk c'
  regs : (c.regs ++ added).Perm (c'.regs ++ (deleted ++ fired))
  pending : b'.m_pendingEventCount + deleted.length + fired.length
    = b.m_pendingEventCount + added.length
  sent : ∃ out, b'.scheduled = b.scheduled ++ out ∧ fired.map Reg.delivery = out.map some
  kernel : ∀ d, d ≠ c.fd → b'.epfd d = b.epfd d

theorem Effect.refl {b : Books S F C} {c : FdContext S F C} (h : CtxOk c) :
    Effect b c b c [] [] [] where
  fd := rfl
  ctx := h
  regs := by simp
  pending := by simp
  sent := ⟨[], by simp, rfl⟩
  kernel := fun _ _ => rfl

/-- Firing one after the other. -/
theorem Effect.trans_fired {b b₁ b₂ : Books S F C} {c c₁ c₂ : FdContext S F C}
    {fs gs : List (Reg S F C)} (h₁ : Effect b c b₁ c₁ [] [] fs) (h₂ : Effect b₁ c₁ b₂ c₂ [] [] gs) :
    Effect b c b₂ c₂ [] [] (fs ++ gs) where
  fd := h₂.fd.trans h₁.fd
  ctx := h₂.ctx
  regs := by
    have p₁ : c.regs.Perm (c₁.regs ++ fs) := by simpa using h₁.regs
    have p₂ : c₁.regs.Perm (c₂.regs ++ gs) := by simpa using h₂.regs
    have p₃ : (c₁.regs ++ fs).Perm (c₂.regs ++ (fs ++ gs)) := by
      refine (p₂.append_right fs).trans ?_
      rw [List.append_assoc]
      exact List.perm_append_comm.append_left _
    simpa using p₁.trans p₃
  pending := by
    have := h₁.pending
    have := h₂.pending
    simp only [List.length_nil, List.length_append] at *
    omega
  sent := by
    obtain ⟨o₁, hs₁, hd₁⟩ := h₁.sent
    obtain ⟨o₂, hs₂, hd₂⟩ := h₂.sent
    exact ⟨o₁ ++ o₂, by rw [hs₂, hs₁, List.append_assoc], by simp [hd₁, hd₂]⟩
  kernel := fun d hd => by rw [h₂.kernel d (h₁.fd ▸ hd), h₁.kernel d hd]

/-- A write to the descriptor's own interest in front of a body. -/
theorem Effect.of_epfd {b b' : Books S F C} {c c' : FdContext S F C} {k : Epoll}
    {added deleted fired : List (Reg S F C)}
    (h : Effect { b with epfd := k } c b' c' added deleted fired)
    (hk : ∀ d, d ≠ c.fd → k d = b.epfd d) : Effect b c b' c' added deleted fired where
  fd := h.fd
  ctx := h.ctx
  regs := h.regs
  pending := h.pending
  sent := h.sent
  kernel := fun d hd => (h.kernel d hd).trans (hk d hd)

/-! ## `epoll_ctl` -/

/-- A successful `epoll_ctl` leaves the other descriptors alone. -/
theorem epollCtl_frame {k k' : Epoll} {op : CtlOp} {fd : Nat} {i : Interest} {ok : Bool}
    (h : epollCtl k op fd i ok = some k') {d : Nat} (hd : d ≠ fd) : k' d = k d := by
  cases op <;>
  · simp only [epollCtl] at h
    split at h
    · rw [← Option.some.inj h, Function.update_of_ne hd]
    · exact absurd h (by simp)

/-- The operation the code picks (`DEL` for an empty mask, otherwise `MOD`) leaves the interest of
the mask. -/
theorem epollCtl_mod_or_del {k k' : Epoll} {fd : Nat} {m : Events} {ok : Bool}
    (h : epollCtl k (if m = Events.empty then CtlOp.del else CtlOp.mod) fd ⟨true, m⟩ ok = some k') :
    k' fd = interestOf m := by
  simp only [interestOf]
  by_cases hm : m = Events.empty
  · rw [if_pos hm] at h ⊢
    simp only [epollCtl] at h
    split at h
    · rw [← Option.some.inj h, Function.update_self]
    · exact absurd h (by simp)
  · rw [if_neg hm] at h ⊢
    simp only [epollCtl] at h
    split at h
    · rw [← Option.some.inj h, Function.update_self]
    · exact absurd h (by simp)

/-! ## `triggerEvent` -/

/-- A trigger that goes through takes the event's registration out and schedules it. -/
theorem triggerEvent_ok {c c' : FdContext S F C} {e : Event} {out : List (S × Work F C)}
    (hc : CtxOk c) (h : c.triggerEvent e = .ok (c', out)) :
    ∃ s w, out = [(s, w)] ∧ c'.fd = c.fd ∧ CtxOk c' ∧ c.events.has e = true ∧
      c'.events = c.events.remove e ∧ c.regs.Perm (c'.regs ++ [⟨c.fd, e, some s, w⟩]) := by
  obtain ⟨rd, wr, fd, ⟨er, ew⟩⟩ := c
  obtain ⟨hr, hw⟩ := hc
  cases e with
  | none => exact absurd h (by simp [FdContext.triggerEvent, Events.has])
  | read =>
      cases hr with
      | clear => exact absurd h (by simp [FdContext.triggerEvent, Events.has])
      | fiber s f =>
          cases s with
          | none => exact absurd h (by
              simp [FdContext.triggerEvent, Events.has, FdContext.getContext])
          | some s =>
              obtain ⟨rfl, rfl⟩ := Prod.mk.inj (Except.ok.inj h)
              exact ⟨s, .fiber f, rfl, rfl, ⟨.clear, hw⟩, rfl, rfl, List.perm_append_comm⟩
      | cb s g =>
          cases s with
          | none => exact absurd h (by
              simp [FdContext.triggerEvent, Events.has, FdContext.getContext])
          | some s =>
              obtain ⟨rfl, rfl⟩ := Prod.mk.inj (Except.ok.inj h)
              exact ⟨s, .cb g, rfl, rfl, ⟨.clear, hw⟩, rfl, rfl, List.perm_append_comm⟩
  | write =>
      cases hw with
      | clear => exact absurd h (by simp [FdContext.triggerEvent, Events.has])
      | fiber s f =>
          cases s with
          | none => exact absurd h (by
              simp [FdContext.triggerEvent, Events.has, FdContext.getContext])
          | some s =>
              obtain ⟨rfl, rfl⟩ := Prod.mk.inj (Except.ok.inj h)
              refine ⟨s, .fiber f, rfl, rfl, ⟨hr, .clear⟩, rfl, rfl, ?_⟩
              simp only [FdContext.regs, FdContext.setContext]
              rw [List.append_assoc]
              exact List.Perm.refl _
      | cb s g =>
          cases s with
          | none => exact absurd h (by
              simp [FdContext.triggerEvent, Events.has, FdContext.getContext])
          | some s =>
              obtain ⟨rfl, rfl⟩ := Prod.mk.inj (Except.ok.inj h)
              refine ⟨s, .cb g, rfl, rfl, ⟨hr, .clear⟩, rfl, rfl, ?_⟩
              simp only [FdContext.regs, FdContext.setContext]
              rw [List.append_assoc]
              exact List.Perm.refl _

/-- The scheduler a context would be triggered on. -/
def FdContext.schedulerOf (c : FdContext S F C) (e : Event) : Option S :=
  (c.getContext e).bind EventContext.scheduler

/-- A trigger goes through iff the event is registered and its scheduler is not null. -/
theorem triggerEvent_isOk_iff {c : FdContext S F C} {e : Event} :
    (∃ c' out, c.triggerEvent e = .ok (c', out)) ↔
      c.events.has e = true ∧ (c.schedulerOf e).isSome = true := by
  have hget : ∀ m : Events, ({ c with events := m } : FdContext S F C).getContext e
      = c.getContext e := fun m => by cases e <;> rfl
  simp only [FdContext.triggerEvent, FdContext.schedulerOf, hget]
  cases c.events.has e with
  | false => simp
  | true =>
      cases c.getContext e with
      | none => simp
      | some ctx =>
          cases hs : ctx.scheduler with
          | none => simp [hs]
          | some s =>
              cases hcb : ctx.cb with
              | none => simp [hs, hcb]
              | some g => simp [hs, hcb]

/-! ## `triggerEvent` with its decrement -/

theorem fire_effect {b b' : Books S F C} {c c' : FdContext S F C} {e : Event} (hc : CtxOk c)
    (h : fire b c e = .ok (b', c')) :
    c.events.has e = true ∧ c'.events = c.events.remove e ∧ b'.epfd = b.epfd ∧
      ∃ r, r.event = e ∧ Effect b c b' c' [] [] [r] := by
  simp only [fire] at h
  cases ht : c.triggerEvent e with
  | error f => simp [ht] at h
  | ok p =>
      obtain ⟨c₁, out⟩ := p
      simp only [ht, Except.ok.injEq, Prod.mk.injEq] at h
      obtain ⟨rfl, rfl⟩ := h
      obtain ⟨s, w, rfl, hfd, hok, hhas, hrem, hperm⟩ := triggerEvent_ok hc ht
      refine ⟨hhas, hrem, rfl, ⟨c.fd, e, some s, w⟩, rfl, ?_⟩
      exact
        { fd := hfd
          ctx := hok
          regs := by simpa using hperm
          pending := by simp
          sent := ⟨[(s, w)], rfl, rfl⟩
          kernel := fun _ _ => rfl }

/-- The conditional fire: the events of the mask go out, in either case with their effect. -/
theorem fireIf_effect {m : Events} {b b' : Books S F C} {c c' : FdContext S F C} {e : Event}
    (hc : CtxOk c) (h : fireIf m b c e = .ok (b', c')) :
    (m.has e = true → c.events.has e = true) ∧
      c'.events = (if m.has e then c.events.remove e else c.events) ∧ b'.epfd = b.epfd ∧
      ∃ rs : List (Reg S F C), rs.map Reg.event = (if m.has e then [e] else []) ∧
        Effect b c b' c' [] [] rs := by
  simp only [fireIf] at h
  by_cases hm : m.has e = true
  · rw [if_pos hm] at h
    obtain ⟨hhas, hev, hk, r, hr, heff⟩ := fire_effect hc h
    exact ⟨fun _ => hhas, by rw [if_pos hm]; exact hev, hk, [r], by simp [hm, hr], heff⟩
  · rw [if_neg hm] at h
    obtain ⟨rfl, rfl⟩ := Prod.mk.inj (Except.ok.inj h)
    exact ⟨fun h => absurd h hm, by rw [if_neg hm], rfl, [], by simp [hm], Effect.refl hc⟩

/-! ## The bodies -/

/-- What `addEvent` registers. -/
def addWork (cb : Option C) (who : Caller S F) : Work F C :=
  match cb with
  | some g => .cb g
  | none => .fiber who.fiber

/-- Adding a bit leaves a non-empty mask. -/
theorem Events.add_ne_empty {m : Events} {e : Event} (he : e ≠ .none) :
    m.add e ≠ Events.empty := by
  cases e <;> simp_all [Events.add, Events.empty]

theorem interestOf_add {m : Events} {e : Event} (he : e ≠ .none) :
    interestOf (m.add e) = some ⟨true, m.add e⟩ := if_neg (Events.add_ne_empty he)

/-- `ADD` on an empty mask, `MOD` on any other: the interest becomes the requested one. -/
theorem epollCtl_add_or_mod {k k' : Epoll} {fd : Nat} {m : Events} {i : Interest} {ok : Bool}
    (h : epollCtl k (if m = Events.empty then CtlOp.add else CtlOp.mod) fd i ok = some k') :
    k' fd = some i := by
  split at h <;>
  · simp only [epollCtl] at h
    split at h
    · rw [← Option.some.inj h, Function.update_self]
    · exact absurd h (by simp)

/-- The context `addEvent` fills: the registration is new, everything else stays. -/
theorem addEvent_regs {c : FdContext S F C} (hc : CtxOk c) {e : Event} {ctx : EventContext S F C}
    (hhas : c.events.has e = false)
    (hctx : ({ c with events := c.events.add e } : FdContext S F C).getContext e = some ctx)
    (s : Option S) (w : Work F C) {ctx' : EventContext S F C}
    (hok : SlotOk true ctx') (hreg : ctx'.reg c.fd e = some ⟨c.fd, e, s, w⟩) :
    CtxOk (({ c with events := c.events.add e } : FdContext S F C).setContext ctx' e) ∧
      (c.regs ++ [(⟨c.fd, e, s, w⟩ : Reg S F C)]).Perm
        (({ c with events := c.events.add e } : FdContext S F C).setContext ctx' e).regs := by
  obtain ⟨rd, wr, fd, ⟨er, ew⟩⟩ := c
  obtain ⟨hr, hw⟩ := hc
  cases e with
  | none => exact absurd hctx (by simp [FdContext.getContext])
  | read =>
      obtain rfl : er = false := hhas
      cases hr
      refine ⟨⟨hok, hw⟩, ?_⟩
      simp only [FdContext.regs, FdContext.setContext] at hreg ⊢
      rw [hreg]
      exact List.perm_append_comm
  | write =>
      obtain rfl : ew = false := hhas
      cases hw
      refine ⟨⟨hr, hok⟩, ?_⟩
      simp only [FdContext.regs, FdContext.setContext] at hreg ⊢
      rw [hreg]
      exact List.Perm.of_eq (by rw [List.append_assoc]; rfl)

/-- **`addEvent`**: it fails and changes nothing, or registers what it was given. -/
theorem addEventLocked_effect {b b' : Books S F C} {c c' : FdContext S F C} {e : Event}
    {cb : Option C} {who : Caller S F} {ok : Bool} {rt : Int} (hc : CtxOk c)
    (h : addEventLocked b c.fd c e cb who ok = .ok (b', c', rt)) :
    (rt = -1 ∧ b' = b ∧ c' = c) ∨
      (rt = 0 ∧ Effect b c b' c' [⟨c.fd, e, who.scheduler, addWork cb who⟩] [] [] ∧
        InterestOk b'.epfd c') := by
  simp only [addEventLocked] at h
  cases hhas : c.events.has e with
  | true => simp [hhas] at h
  | false =>
      simp only [hhas, Bool.false_eq_true, if_false] at h
      split at h
      · simp only [Except.ok.injEq, Prod.mk.injEq] at h
        obtain ⟨rfl, rfl, rfl⟩ := h
        exact .inl ⟨rfl, rfl, rfl⟩
      · rename_i k hk
        refine .inr ?_
        split at h
        · exact absurd h (by simp)
        · rename_i ctx hctx
          have he : e ≠ .none := by
            rintro rfl
            exact absurd hctx (by simp [FdContext.getContext])
          have hint := epollCtl_add_or_mod hk
          rw [← interestOf_add he] at hint
          have hframe : ∀ d, d ≠ c.fd → k d = b.epfd d := fun d hd => epollCtl_frame hk hd
          split at h
          · exact absurd h (by simp)
          · rename_i hempty
            simp only [Bool.or_eq_true, not_or, Bool.not_eq_true, Option.isSome_eq_false_iff,
              Option.isNone_iff_eq_none] at hempty
            obtain ⟨⟨hs, hf⟩, hg⟩ := hempty
            cases cb with
            | some g =>
                simp only [Except.ok.injEq, Prod.mk.injEq] at h
                obtain ⟨rfl, rfl, rfl⟩ := h
                have hok : SlotOk true (⟨who.scheduler, none, some g⟩ : EventContext S F C) :=
                  .cb _ _
                rw [hf]
                obtain ⟨hctx', hperm⟩ := addEvent_regs hc hhas hctx who.scheduler (.cb g) hok rfl
                refine ⟨rfl, ⟨by cases e <;> rfl, hctx', by simpa [addWork] using hperm,
                  by simp, ⟨[], by simp, rfl⟩, hframe⟩, ?_⟩
                cases e <;> exact hint
            | none =>
                simp only at h
                split at h
                · simp only [Except.ok.injEq, Prod.mk.injEq] at h
                  obtain ⟨rfl, rfl, rfl⟩ := h
                  have hok : SlotOk true
                      (⟨who.scheduler, some who.fiber, none⟩ : EventContext S F C) := .fiber _ _
                  rw [hg]
                  obtain ⟨hctx', hperm⟩ :=
                    addEvent_regs hc hhas hctx who.scheduler (.fiber who.fiber) hok rfl
                  refine ⟨rfl, ⟨by cases e <;> rfl, hctx', by simpa [addWork] using hperm,
                    by simp, ⟨[], by simp, rfl⟩, hframe⟩, ?_⟩
                  cases e <;> exact hint
                · exact absurd h (by simp)

/-- The successful start of `delEvent` and `cancelEvent`. -/
theorem dropInterest_some {b : Books S F C} {c : FdContext S F C} {e : Event} {ok : Bool}
    {k : Epoll} (h : dropInterest b c.fd c e ok = some k) :
    c.events.has e = true ∧ k c.fd = interestOf (c.events.remove e) ∧
      ∀ d, d ≠ c.fd → k d = b.epfd d := by
  simp only [dropInterest] at h
  split at h
  · rename_i hhas
    exact ⟨hhas, epollCtl_mod_or_del h, fun d hd => epollCtl_frame h hd⟩
  · exact absurd h (by simp)

/-- Resetting a registered event takes its registration out. -/
theorem resetContext_regs {c : FdContext S F C} (hc : CtxOk c) {e : Event}
    (hhas : c.events.has e = true) :
    CtxOk (({ c with events := c.events.remove e } : FdContext S F C).setContext .empty e) ∧
      ∃ r, r.event = e ∧ c.regs.Perm
        ((({ c with events := c.events.remove e } : FdContext S F C).setContext .empty e).regs
          ++ [r]) := by
  obtain ⟨rd, wr, fd, ⟨er, ew⟩⟩ := c
  obtain ⟨hr, hw⟩ := hc
  cases e with
  | none => exact absurd hhas (by simp [Events.has])
  | read =>
      obtain rfl : er = true := hhas
      refine ⟨⟨.clear, hw⟩, ?_⟩
      cases hr with
      | fiber s f => exact ⟨⟨fd, .read, s, .fiber f⟩, rfl, List.perm_append_comm⟩
      | cb s g => exact ⟨⟨fd, .read, s, .cb g⟩, rfl, List.perm_append_comm⟩
  | write =>
      obtain rfl : ew = true := hhas
      refine ⟨⟨hr, .clear⟩, ?_⟩
      cases hw with
      | fiber s f => exact ⟨⟨fd, .write, s, .fiber f⟩, rfl, .of_eq (by
          simp [FdContext.regs, FdContext.setContext, EventContext.reg, EventContext.work,
            EventContext.empty])⟩
      | cb s g => exact ⟨⟨fd, .write, s, .cb g⟩, rfl, .of_eq (by
          simp [FdContext.regs, FdContext.setContext, EventContext.reg, EventContext.work,
            EventContext.empty])⟩

/-- **`delEvent`**: it fails and changes nothing, or drops the event's registration. -/
theorem delEventLocked_effect {b b' : Books S F C} {c c' : FdContext S F C} {e : Event}
    {ok rt : Bool} (hc : CtxOk c) (h : delEventLocked b c.fd c e ok = .ok (b', c', rt)) :
    (rt = false ∧ b' = b ∧ c' = c) ∨
      (rt = true ∧ (∃ r, r.event = e ∧ Effect b c b' c' [] [r] []) ∧ InterestOk b'.epfd c') := by
  simp only [delEventLocked] at h
  split at h
  · simp only [Except.ok.injEq, Prod.mk.injEq] at h
    obtain ⟨rfl, rfl, rfl⟩ := h
    exact .inl ⟨rfl, rfl, rfl⟩
  · rename_i k hk
    simp only [Except.ok.injEq, Prod.mk.injEq] at h
    obtain ⟨rfl, rfl, rfl⟩ := h
    obtain ⟨hhas, hint, hframe⟩ := dropInterest_some hk
    obtain ⟨hok, r, hr, hperm⟩ := resetContext_regs hc hhas
    refine .inr ⟨rfl, ⟨r, hr, ⟨by cases e <;> rfl, hok, by simpa using hperm, by simp,
      ⟨[], by simp, rfl⟩, hframe⟩⟩, ?_⟩
    cases e <;> exact hint

/-- **`cancelEvent`**: it fails and changes nothing, or schedules the event's registration. -/
theorem cancelEventLocked_effect {b b' : Books S F C} {c c' : FdContext S F C} {e : Event}
    {ok rt : Bool} (hc : CtxOk c) (h : cancelEventLocked b c.fd c e ok = .ok (b', c', rt)) :
    (rt = false ∧ b' = b ∧ c' = c) ∨
      (rt = true ∧ (∃ r, r.event = e ∧ Effect b c b' c' [] [] [r]) ∧ InterestOk b'.epfd c') := by
  simp only [cancelEventLocked] at h
  split at h
  · simp only [Except.ok.injEq, Prod.mk.injEq] at h
    obtain ⟨rfl, rfl, rfl⟩ := h
    exact .inl ⟨rfl, rfl, rfl⟩
  · rename_i k hk
    obtain ⟨-, hint, hframe⟩ := dropInterest_some hk
    split at h
    · exact absurd h (by simp)
    · rename_i b₁ c₁ hfire
      simp only [Except.ok.injEq, Prod.mk.injEq] at h
      obtain ⟨rfl, rfl, rfl⟩ := h
      obtain ⟨-, hev, hkeep, r, hr, heff⟩ := fire_effect hc hfire
      refine .inr ⟨rfl, ⟨r, hr, heff.of_epfd hframe⟩, ?_⟩
      rw [InterestOk, heff.fd, hkeep, hev]
      exact hint

/-- **`cancelAll`**: it fails and changes nothing, or schedules every registration of the
descriptor. -/
theorem cancelAllLocked_effect {b b' : Books S F C} {c c' : FdContext S F C} {ok rt : Bool}
    (hc : CtxOk c) (h : cancelAllLocked b c.fd c ok = .ok (b', c', rt)) :
    (rt = false ∧ b' = b ∧ c' = c) ∨
      (rt = true ∧ c'.events = Events.empty ∧ (∃ rs, Effect b c b' c' [] [] rs) ∧
        InterestOk b'.epfd c') := by
  simp only [cancelAllLocked] at h
  split at h
  · simp only [Except.ok.injEq, Prod.mk.injEq] at h
    obtain ⟨rfl, rfl, rfl⟩ := h
    exact .inl ⟨rfl, rfl, rfl⟩
  · split at h
    · simp only [Except.ok.injEq, Prod.mk.injEq] at h
      obtain ⟨rfl, rfl, rfl⟩ := h
      exact .inl ⟨rfl, rfl, rfl⟩
    · rename_i k hk
      have hint : k c.fd = none := by
        simp only [epollCtl] at hk
        split at hk
        · rw [← Option.some.inj hk, Function.update_self]
        · exact absurd hk (by simp)
      have hframe : ∀ d, d ≠ c.fd → k d = b.epfd d := fun d hd => epollCtl_frame hk hd
      split at h
      · exact absurd h (by simp)
      · rename_i b₁ c₁ hread
        obtain ⟨-, -, hk₁, rs₁, -, heff₁⟩ := fireIf_effect hc hread
        split at h
        · exact absurd h (by simp)
        · rename_i b₂ c₂ hwrite
          obtain ⟨-, -, hk₂, rs₂, -, heff₂⟩ := fireIf_effect heff₁.ctx hwrite
          split at h
          · rename_i hleft
            simp only [Except.ok.injEq, Prod.mk.injEq] at h
            obtain ⟨rfl, rfl, rfl⟩ := h
            have heff := (heff₁.trans_fired heff₂).of_epfd hframe
            refine .inr ⟨rfl, hleft, ⟨_, heff⟩, ?_⟩
            rw [InterestOk, heff.fd, hk₂, hk₁, hleft]
            exact hint
          · exact absurd h (by simp)

/-- Removing the events of a mask one after the other is removing the mask. -/
theorem Events.remove_remove {m real : Events} :
    (if real.has .write then
        (if real.has .read then m.remove .read else m).remove .write
      else if real.has .read then m.remove .read else m) = m.diff real := by
  obtain ⟨mr, mw⟩ := m
  obtain ⟨rr, rw⟩ := real
  cases mr <;> cases mw <;> cases rr <;> cases rw <;> rfl

/-- **`idle`'s processing of one event** schedules the registrations of `real_events`, or nothing;
the kernel's interest follows the mask. -/
theorem idleLocked_effect {b b' : Books S F C} {c c' : FdContext S F C} {r : Ready} {ok : Bool}
    (hc : CtxOk c) (hk : InterestOk b.epfd c) (h : idleLocked b c r ok = .ok (b', c')) :
    InterestOk b'.epfd c' ∧ ∃ rs : List (Reg S F C), Effect b c b' c' [] [] rs ∧
      ((rs = [] ∧ b' = b ∧ c' = c) ∨
        (rs.map Reg.event =
          (if r.real_events.has .read then [Event.read] else []) ++
            (if r.real_events.has .write then [Event.write] else []) ∧
          c'.events = c.events.diff r.real_events)) := by
  simp only [idleLocked] at h
  split at h
  · obtain ⟨rfl, rfl⟩ := Prod.mk.inj (Except.ok.inj h)
    exact ⟨hk, [], Effect.refl hc, .inl ⟨rfl, rfl, rfl⟩⟩
  · split at h
    · obtain ⟨rfl, rfl⟩ := Prod.mk.inj (Except.ok.inj h)
      exact ⟨hk, [], Effect.refl hc, .inl ⟨rfl, rfl, rfl⟩⟩
    · rename_i k hctl
      have hint := epollCtl_mod_or_del hctl
      have hframe : ∀ d, d ≠ c.fd → k d = b.epfd d := fun d hd => epollCtl_frame hctl hd
      split at h
      · exact absurd h (by simp)
      · rename_i b₁ c₁ hread
        obtain ⟨-, hev₁, hk₁, rs₁, hrs₁, heff₁⟩ := fireIf_effect hc hread
        obtain ⟨-, hev₂, hk₂, rs₂, hrs₂, heff₂⟩ := fireIf_effect heff₁.ctx h
        have heff := (heff₁.trans_fired heff₂).of_epfd hframe
        have hev : c'.events = c.events.diff r.real_events := by
          rw [hev₂, hev₁, Events.remove_remove]
        refine ⟨?_, rs₁ ++ rs₂, heff, .inr ⟨by rw [List.map_append, hrs₁, hrs₂], hev⟩⟩
        rw [InterestOk, heff.fd, hk₂, hk₁, hev]
        exact hint

end Sylar.IO
