/-
# Sylar.IO.Ledger — every registration is delivered once, deleted, or still there.

The ledger numbers the successful registrations in the order they are made and lets each carry its
number through the contexts and the scheduled tasks: `manager` is generic in what a fiber and a
callback are, so the numbers ride along in those types, and `ledger_covers` says that they change
nothing (every run of `manager` is a run of the ledger with the numbers erased).  What `delEvent`
takes out is written down in `deleted`.

`conservation`: every number ever issued is in exactly one of the three places, a scheduled one on
the scheduler it was registered from; deleted and scheduled are for good; the totals add up.
-/
import Sylar.IO.IOManager

namespace Sylar.IO

open Sylar.Scheduler

variable {S F C F' C' : Type}

/-! ## Renaming fibers and callbacks -/

/-- A renaming of fibers and callbacks. -/
def Work.map (f : F → F') (g : C → C') : Work F C → Work F' C'
  | .fiber x => .fiber (f x)
  | .cb x => .cb (g x)

def EventContext.map (f : F → F') (g : C → C') (ctx : EventContext S F C) :
    EventContext S F' C' := ⟨ctx.scheduler, ctx.fiber.map f, ctx.cb.map g⟩

def FdContext.map (f : F → F') (g : C → C') (c : FdContext S F C) : FdContext S F' C' :=
  ⟨c.read.map f g, c.write.map f g, c.fd, c.events⟩

def Books.map (f : F → F') (g : C → C') (b : Books S F C) : Books S F' C' :=
  ⟨b.m_pendingEventCount, b.epfd, b.scheduled.map fun p => (p.1, p.2.map f g)⟩

def IOManager.map (f : F → F') (g : C → C') (m : IOManager S F C) : IOManager S F' C' :=
  ⟨m.books.map f g, m.m_fdContexts.map (FdContext.map f g)⟩

def Caller.map (f : F → F') (who : Caller S F) : Caller S F' :=
  ⟨who.scheduler, f who.fiber, who.state⟩

def Op.map (f : F → F') (g : C → C') : Op S F C → Op S F' C'
  | .addEvent fd event cb who ok => .addEvent fd event (cb.map g) (who.map f) ok
  | .delEvent fd event ok => .delEvent fd event ok
  | .cancelEvent fd event ok => .cancelEvent fd event ok
  | .cancelAll fd ok => .cancelAll fd ok
  | .idleEvent fd r ok => .idleEvent fd r ok

section Map

variable (f : F → F') (g : C → C')

@[simp] theorem FdContext.map_events (c : FdContext S F C) : (c.map f g).events = c.events := rfl
@[simp] theorem Books.map_epfd (b : Books S F C) : (b.map f g).epfd = b.epfd := rfl

theorem triggerEvent_map (c : FdContext S F C) (e : Event) :
    (c.map f g).triggerEvent e = (c.triggerEvent e).map
      fun p => (p.1.map f g, p.2.map fun q => (q.1, q.2.map f g)) := by
  obtain ⟨⟨s₁, f₁, g₁⟩, ⟨s₂, f₂, g₂⟩, fd, ⟨er, ew⟩⟩ := c
  cases e with
  | none => rfl
  | read => cases er <;> cases s₁ <;> cases g₁ <;> cases f₁ <;> rfl
  | write => cases ew <;> cases s₂ <;> cases g₂ <;> cases f₂ <;> rfl

theorem fire_map (b : Books S F C) (c : FdContext S F C) (e : Event) :
    fire (b.map f g) (c.map f g) e = (fire b c e).map fun p => (p.1.map f g, p.2.map f g) := by
  rw [fire, fire, triggerEvent_map]
  cases c.triggerEvent e with
  | error x => rfl
  | ok p => simp [Except.map, Books.map]

theorem fireIf_map (m : Events) (b : Books S F C) (c : FdContext S F C) (e : Event) :
    fireIf m (b.map f g) (c.map f g) e
      = (fireIf m b c e).map fun p => (p.1.map f g, p.2.map f g) := by
  rw [fireIf, fireIf]
  split
  · exact fire_map f g b c e
  · rfl

theorem addEventLocked_map (b : Books S F C) (fd : Nat) (c : FdContext S F C) (e : Event)
    (cb : Option C) (who : Caller S F) (ok : Bool) :
    addEventLocked (b.map f g) fd (c.map f g) e (cb.map g) (who.map f) ok
      = (addEventLocked b fd c e cb who ok).map fun p => (p.1.map f g, p.2.1.map f g, p.2.2) := by
  have hctl : epollCtl (b.map f g).epfd
      (if (c.map f g).events = Events.empty then CtlOp.add else CtlOp.mod) fd
      ⟨true, (c.map f g).events.add e⟩ ok
    = epollCtl b.epfd (if c.events = Events.empty then CtlOp.add else CtlOp.mod) fd
      ⟨true, c.events.add e⟩ ok := rfl
  rw [addEventLocked, addEventLocked]
  dsimp only
  by_cases hhas : c.events.has e = true
  · have hhas' : (c.map f g).events.has e = true := hhas
    rw [if_pos hhas, if_pos hhas']
    rfl
  · have hhas' : ¬ (c.map f g).events.has e = true := hhas
    rw [if_neg hhas, if_neg hhas', hctl]
    cases epollCtl b.epfd (if c.events = Events.empty then CtlOp.add else CtlOp.mod) fd
        ⟨true, c.events.add e⟩ ok with
    | none => rfl
    | some k =>
        cases e with
        | none => rfl
        | read | write =>
            obtain ⟨⟨s₁, f₁, g₁⟩, ⟨s₂, f₂, g₂⟩, fd', m⟩ := c
            simp only [FdContext.getContext, FdContext.map, EventContext.map, Option.isSome_map]
            split
            · rfl
            · cases cb with
              | some x => rfl
              | none =>
                  obtain ⟨sch, fib, st⟩ := who
                  cases st <;> rfl

theorem delEventLocked_map (b : Books S F C) (fd : Nat) (c : FdContext S F C) (e : Event)
    (ok : Bool) : delEventLocked (b.map f g) fd (c.map f g) e ok
      = (delEventLocked b fd c e ok).map fun p => (p.1.map f g, p.2.1.map f g, p.2.2) := by
  have hdrop : dropInterest (b.map f g) fd (c.map f g) e ok = dropInterest b fd c e ok := rfl
  rw [delEventLocked, delEventLocked, hdrop]
  cases dropInterest b fd c e ok with
  | none => rfl
  | some k => cases e <;> rfl

theorem cancelEventLocked_map (b : Books S F C) (fd : Nat) (c : FdContext S F C) (e : Event)
    (ok : Bool) : cancelEventLocked (b.map f g) fd (c.map f g) e ok
      = (cancelEventLocked b fd c e ok).map fun p => (p.1.map f g, p.2.1.map f g, p.2.2) := by
  have hdrop : dropInterest (b.map f g) fd (c.map f g) e ok = dropInterest b fd c e ok := rfl
  rw [cancelEventLocked, cancelEventLocked, hdrop]
  cases dropInterest b fd c e ok with
  | none => rfl
  | some k =>
      have hfire := fire_map f g { b with epfd := k } c e
      simp only [Books.map] at hfire ⊢
      rw [hfire]
      cases fire { b with epfd := k } c e <;> rfl

theorem cancelAllLocked_map (b : Books S F C) (fd : Nat) (c : FdContext S F C) (ok : Bool) :
    cancelAllLocked (b.map f g) fd (c.map f g) ok
      = (cancelAllLocked b fd c ok).map fun p => (p.1.map f g, p.2.1.map f g, p.2.2) := by
  rw [cancelAllLocked, cancelAllLocked]
  by_cases hempty : c.events = Events.empty
  · have hempty' : (c.map f g).events = Events.empty := hempty
    rw [if_pos hempty, if_pos hempty']
    rfl
  · have hempty' : ¬ (c.map f g).events = Events.empty := hempty
    rw [if_neg hempty, if_neg hempty', Books.map_epfd]
    cases epollCtl b.epfd .del fd ⟨false, Events.empty⟩ ok with
    | none => rfl
    | some k =>
        have hread := fireIf_map f g c.events { b with epfd := k } c .read
        simp only [Books.map, FdContext.map_events] at hread ⊢
        rw [hread]
        cases fireIf c.events { b with epfd := k } c .read with
        | error e => rfl
        | ok p =>
            obtain ⟨b₁, c₁⟩ := p
            have hwrite := fireIf_map f g c₁.events b₁ c₁ .write
            simp only [Except.map, Books.map, FdContext.map_events] at hwrite ⊢
            rw [hwrite]
            cases fireIf c₁.events b₁ c₁ .write with
            | error e => rfl
            | ok p =>
                obtain ⟨b₂, ⟨rd, wr, fd₂, ⟨er, ew⟩⟩⟩ := p
                cases er <;> cases ew <;> rfl

theorem idleLocked_map (b : Books S F C) (c : FdContext S F C) (r : Ready) (ok : Bool) :
    idleLocked (b.map f g) (c.map f g) r ok
      = (idleLocked b c r ok).map fun p => (p.1.map f g, p.2.map f g) := by
  have hctl : epollCtl (b.map f g).epfd
      (if (c.map f g).events.diff r.real_events = Events.empty then CtlOp.del else CtlOp.mod)
      (c.map f g).fd ⟨true, (c.map f g).events.diff r.real_events⟩ ok
    = epollCtl b.epfd
      (if c.events.diff r.real_events = Events.empty then CtlOp.del else CtlOp.mod) c.fd
      ⟨true, c.events.diff r.real_events⟩ ok := rfl
  rw [idleLocked, idleLocked]
  dsimp only
  by_cases hempty : c.events.inter r.real_events = Events.empty
  · have hempty' : (c.map f g).events.inter r.real_events = Events.empty := hempty
    rw [if_pos hempty, if_pos hempty']
    rfl
  · have hempty' : ¬ (c.map f g).events.inter r.real_events = Events.empty := hempty
    rw [if_neg hempty, if_neg hempty', hctl]
    cases epollCtl b.epfd
        (if c.events.diff r.real_events = Events.empty then CtlOp.del else CtlOp.mod) c.fd
        ⟨true, c.events.diff r.real_events⟩ ok with
    | none => rfl
    | some k =>
        have hread := fireIf_map f g r.real_events { b with epfd := k } c .read
        simp only [Books.map] at hread ⊢
        rw [hread]
        cases fireIf r.real_events { b with epfd := k } c .read with
        | error e => rfl
        | ok p => exact fireIf_map f g r.real_events p.1 p.2 .write

theorem withContext_map {R : Type} (m : IOManager S F C) (fd : Nat)
    {body : Books S F C → FdContext S F C → Except Fault (Books S F C × FdContext S F C × R)}
    {body' : Books S F' C' → FdContext S F' C' → Except Fault (Books S F' C' × FdContext S F' C' × R)}
    (h : ∀ b c, body' (b.map f g) (c.map f g)
      = (body b c).map fun p => (p.1.map f g, p.2.1.map f g, p.2.2)) :
    (m.map f g).withContext fd body' = (m.withContext fd body).map fun p => (p.1.map f g, p.2) := by
  simp only [IOManager.withContext, IOManager.map, List.getElem?_map]
  cases m.m_fdContexts[fd]? with
  | none => rfl
  | some c =>
      simp only [Option.map_some, h]
      cases body m.books c with
      | error e => rfl
      | ok p => simp only [Except.map, List.map_set]

theorem ensure_map (m : IOManager S F C) (fd : Nat) :
    (m.map f g).ensure fd = (m.ensure fd).map f g := by
  simp only [IOManager.ensure, IOManager.map, List.length_map]
  split
  · rfl
  · simp only [contextResize, List.map_append, List.map_take, List.length_map, List.map_map]
    rfl

/-- **The operations do not look at fibers and callbacks**: renaming them before or after a call is
the same. -/
theorem call_map (m : IOManager S F C) (op : Op S F C) :
    (m.map f g).call (op.map f g) = (m.call op).map fun p => (p.1.map f g, p.2) := by
  have hlen : (m.map f g).m_fdContexts.length = m.m_fdContexts.length := List.length_map ..
  have hmap : ∀ {R : Type} (x : Except Fault (IOManager S F C × R)) (q : R → Ret),
      (x.map fun p => (p.1.map f g, p.2)).map (fun p => (p.1, q p.2))
        = (x.map fun p => (p.1, q p.2)).map fun p => (p.1.map f g, p.2) := by
    intro R x q
    cases x <;> rfl
  cases op with
  | addEvent fd event cb who ok =>
      simp only [Op.map, IOManager.call, IOManager.addEvent]
      rw [ensure_map, withContext_map f g _ _ fun b c => addEventLocked_map f g b fd c event cb who ok]
      exact hmap _ _
  | delEvent fd event ok =>
      simp only [Op.map, IOManager.call, IOManager.delEvent, hlen]
      split
      · rfl
      · rw [withContext_map f g _ _ fun b c => delEventLocked_map f g b fd c event ok]
        exact hmap _ _
  | cancelEvent fd event ok =>
      simp only [Op.map, IOManager.call, IOManager.cancelEvent, hlen]
      split
      · rfl
      · rw [withContext_map f g _ _ fun b c => cancelEventLocked_map f g b fd c event ok]
        exact hmap _ _
  | cancelAll fd ok =>
      simp only [Op.map, IOManager.call, IOManager.cancelAll, hlen]
      split
      · rfl
      · rw [withContext_map f g _ _ fun b c => cancelAllLocked_map f g b fd c ok]
        exact hmap _ _
  | idleEvent fd r ok =>
      have hbody : ∀ (b : Books S F C) (c : FdContext S F C),
          (idleLocked (b.map f g) (c.map f g) r ok).map (fun p => (p.1, p.2, ()))
          = ((idleLocked b c r ok).map fun p => (p.1, p.2, ())).map
            fun p => (p.1.map f g, p.2.1.map f g, p.2.2) := by
        intro b c
        rw [idleLocked_map]
        cases idleLocked b c r ok <;> rfl
      simp only [Op.map, IOManager.call, IOManager.idleEvent]
      rw [withContext_map f g _ _ hbody]
      exact hmap _ fun _ => .unit

end Map

/-! ## The ledger -/

/-- The number a scheduled or registered work carries. -/
def Work.number : Work (Nat × F) (Nat × C) → Nat
  | .fiber p => p.1
  | .cb p => p.1

/-- A numbered registration without its number. -/
def Reg.erase (r : Reg S (Nat × F) (Nat × C)) : Reg S F C :=
  ⟨r.fd, r.event, r.scheduler, r.work.map Prod.snd Prod.snd⟩

/-- Give the fiber and the callback of a call the number `n`. -/
def Op.numbered (n : Nat) (op : Op S F C) : Op S (Nat × F) (Nat × C) := op.map (n, ·) (n, ·)

/-- A manager whose fibers and callbacks carry numbers, the registrations issued so far (a
registration's number is its position) and the numbers `delEvent` took out. -/
structure Ledger (S F C : Type) where
  io : IOManager S (Nat × F) (Nat × C)
  issued : List (Reg S F C)
  deleted : List Nat

/-- The numbers of the registrations. -/
def registered (io : IOManager S (Nat × F) (Nat × C)) : List Nat :=
  io.regs.map fun r => r.work.number

/-- The numbers of the tasks `triggerEvent` has scheduled. -/
def scheduled (io : IOManager S (Nat × F) (Nat × C)) : List Nat :=
  io.books.scheduled.map fun p => p.2.number

/-- The numbers a call took out of the registrations. -/
def takenOut (io io' : IOManager S (Nat × F) (Nat × C)) : List Nat :=
  (registered io).filter (· ∉ registered io')

/-- The entries a call that returned `rt` makes. -/
def Ledger.after (s : Ledger S F C) (op : Op S F C) (io' : IOManager S (Nat × F) (Nat × C))
    (rt : Ret) : Ledger S F C where
  io := io'
  issued := if rt.Failure then s.issued else s.issued ++ op.request
  deleted :=
    match op with
    | .delEvent .. => s.deleted ++ takenOut s.io io'
    | _ => s.deleted

/-- The runs of the manager, with the numbers written down. -/
def ledger (S F C : Type) : Lib.System (Ledger S F C) (Op S F C) where
  init s := s = ⟨.initial, [], []⟩
  step s op :=
    match s.io.call (op.numbered s.issued.length) with
    | .error _ => none
    | .ok (io', rt) => some (s.after op io' rt)

/-- Numbers change nothing: every run of the manager is a run of the ledger with the numbers
erased. -/
theorem ledger_covers {m : IOManager S F C} (hm : (manager S F C).Reachable m) :
    ∃ s, (ledger S F C).Reachable s ∧ s.io.map Prod.snd Prod.snd = m := by
  refine Lib.System.Reachable.invariant
    (P := fun m => ∃ s, (ledger S F C).Reachable s ∧ s.io.map Prod.snd Prod.snd = m) ?_ ?_ hm
  · rintro m rfl
    exact ⟨⟨.initial, [], []⟩, .init rfl, rfl⟩
  · rintro m op m' ⟨s, hs, rfl⟩ hstep
    obtain ⟨rt, hcall⟩ := IOManager.step_eq_some hstep
    have hop : (op.numbered s.issued.length).map Prod.snd Prod.snd = op := by
      cases op with
      | addEvent fd event cb who ok => cases cb <;> rfl
      | delEvent | cancelEvent | cancelAll | idleEvent => rfl
    have hmap := call_map Prod.snd Prod.snd s.io (op.numbered s.issued.length)
    rw [hop, hcall] at hmap
    cases hnum : s.io.call (op.numbered s.issued.length) with
    | error e => simp [hnum, Except.map] at hmap
    | ok p =>
        simp only [hnum, Except.map, Except.ok.injEq, Prod.mk.injEq] at hmap
        have hst : (ledger S F C).step s op = some (s.after op p.1 p.2) := by
          simp only [ledger, hnum]
        exact ⟨_, .step hs trivial hst, hmap.1.symm⟩

/-! ## Conservation -/

/-- Where a number can be. -/
inductive Place
  | registered | deleted | scheduled
  deriving DecidableEq, Repr

/-- The call is one that takes the registration out, to that place. -/
def Op.Settles (op : Op S F C) (r : Reg S F C) : Place → Prop
  | .registered => False
  | .deleted => ∃ ok, op = .delEvent r.fd r.event ok
  | .scheduled => (∃ ok, op = .cancelEvent r.fd r.event ok) ∨ (∃ ok, op = .cancelAll r.fd ok) ∨
      ∃ ready ok, op = .idleEvent r.fd ready ok

namespace Ledger

/-- How often number `n` occurs in each place. -/
def tally (s : Ledger S F C) (n : Nat) : Place → Nat
  | .registered => (registered s.io).count n
  | .deleted => s.deleted.count n
  | .scheduled => (scheduled s.io).count n

/-- Number `n` is in a place: once there and nowhere else.  A registered one is the registration it
was issued for, a scheduled one is what was registered, on the scheduler it was registered from. -/
def IsIn (s : Ledger S F C) (n : Nat) (k : Place) : Prop :=
  (∀ k', s.tally n k' = if k' = k then 1 else 0) ∧
    match k with
    | .registered => ∃ r ∈ s.io.regs, r.work.number = n ∧ s.issued[n]? = some r.erase
    | .deleted => True
    | .scheduled => ∃ p ∈ s.io.books.scheduled, p.2.number = n ∧ ∃ r, s.issued[n]? = some r ∧
        r.scheduler = some p.1 ∧ r.work = p.2.map Prod.snd Prod.snd

/-- The ledger's invariant. -/
structure Balanced (s : Ledger S F C) : Prop where
  wf : s.io.WF
  once : ∀ n, s.tally n .registered + s.tally n .deleted + s.tally n .scheduled
    = if n < s.issued.length then 1 else 0
  total : s.issued.length = (registered s.io).length + s.deleted.length + (scheduled s.io).length
  regs : ∀ r ∈ s.io.regs, s.issued[r.work.number]? = some r.erase
  sent : ∀ p ∈ s.io.books.scheduled, ∃ r, s.issued[p.2.number]? = some r ∧
    r.scheduler = some p.1 ∧ r.work = p.2.map Prod.snd Prod.snd

/-! ### One call -/

/-- The numbers of a list of registrations. -/
def numbers (rs : List (Reg S (Nat × F) (Nat × C))) : List Nat := rs.map fun r => r.work.number

/-- The tasks a body sent are the registrations it fired, each on its scheduler. -/
theorem sent_of_fired : ∀ {fired : List (Reg S F C)} {out : List (S × Work F C)},
    fired.map Reg.delivery = out.map some → fired.map Reg.work = out.map Prod.snd ∧
      ∀ p ∈ out, ∃ r ∈ fired, r.scheduler = some p.1 ∧ r.work = p.2
  | [], [], _ => ⟨rfl, fun _ h => by cases h⟩
  | [], _ :: _, h => by cases h
  | _ :: _, [], h => by cases h
  | r :: fired, p :: out, h => by
      obtain ⟨hr, hrest⟩ := List.cons.inj h
      obtain ⟨hworks, hmem⟩ := sent_of_fired hrest
      obtain ⟨sch, hsch, rfl⟩ := Option.map_eq_some_iff.mp hr
      refine ⟨by rw [List.map_cons, List.map_cons, hworks], fun q hq => ?_⟩
      rcases List.mem_cons.mp hq with rfl | hq
      · exact ⟨r, List.mem_cons_self, hsch, rfl⟩
      · obtain ⟨r', hr', hspec⟩ := hmem q hq
        exact ⟨r', List.mem_cons_of_mem _ hr', hspec⟩

/-- What a numbered call asks for carries the number, and is the plain request without it. -/
theorem request_numbered (n : Nat) (op : Op S F C) :
    (op.numbered n).request.map Reg.erase = op.request ∧
      (∀ r ∈ (op.numbered n).request, r.work.number = n) ∧ op.request.length ≤ 1 := by
  cases op with
  | addEvent fd event cb who ok =>
      cases cb <;> exact ⟨rfl, fun r hr => by rw [List.mem_singleton.mp hr]; rfl, Nat.le_refl 1⟩
  | delEvent | cancelEvent | cancelAll | idleEvent =>
      exact ⟨rfl, fun r hr => (by cases hr), Nat.zero_le 1⟩

/-- What a call took out of a list without repetitions is what its registrations lost. -/
theorem takenOut_perm {io io' : IOManager S (Nat × F) (Nat × C)} {gone : List Nat}
    (honce : ∀ n, (registered io).count n ≤ 1)
    (h : (registered io).Perm (registered io' ++ gone)) : (takenOut io io').Perm gone := by
  rw [List.perm_iff_count]
  intro n
  have hcount := h.count_eq n
  rw [List.count_append] at hcount
  have hle := honce n
  by_cases hn : n ∈ registered io'
  · have hpos := List.count_pos_iff.mpr hn
    have hzero : (takenOut io io').count n = 0 := List.count_eq_zero.mpr fun hmem => by
      simpa [hn] using (List.mem_filter.mp hmem).2
    omega
  · have hzero := List.count_eq_zero.mpr hn
    rw [takenOut, List.count_filter (by simpa using hn)]
    omega

/-- The entries of one call: `added` is issued under the next number, what it deleted is written
down. -/
theorem entries {s : Ledger S F C} (hs : Balanced s) {op : Op S F C}
    {io' : IOManager S (Nat × F) (Nat × C)} {rt : Ret}
    (hcall : s.io.call (op.numbered s.issued.length) = .ok (io', rt)) :
    ∃ added deleted fired, s.io.CallEffect io' added deleted fired ∧
      (s.after op io' rt).issued = s.issued ++ added.map Reg.erase ∧ added.length ≤ 1 ∧
      (∀ r ∈ added, r.work.number = s.issued.length) ∧
      (s.after op io' rt).deleted.Perm (s.deleted ++ numbers deleted) := by
  have honce : ∀ n, (registered s.io).count n ≤ 1 := by
    intro n
    have h := hs.once n
    simp only [tally] at h
    split at h <;> omega
  have htaken : ∀ {deleted : List (Reg S (Nat × F) (Nat × C))},
      s.io.CallEffect io' [] deleted [] →
      (takenOut s.io io').Perm (numbers deleted) := by
    intro deleted heff
    refine takenOut_perm honce ?_
    simpa [numbers, registered] using heff.regs.map fun r => r.work.number
  obtain ⟨herase, hnum, hlen⟩ := request_numbered s.issued.length op
  cases IOManager.call_outcome hs.wf hcall with
  | failed hfail _ heff _ =>
      refine ⟨[], [], [], heff, by simp [after, hfail], Nat.zero_le 1, fun r hr => (by cases hr), ?_⟩
      have htk := List.Perm.eq_nil (htaken heff)
      cases op <;> simp [after, numbers, htk]
  | done added deleted fired hok heff hfills =>
      obtain ⟨rfl, hlists⟩ := hfills
      refine ⟨_, deleted, fired, heff, ?_, ?_, hnum, ?_⟩
      · simp only [after, if_neg hok, herase]
      · rw [← herase, List.length_map] at hlen
        exact hlen
      · cases op with
        | delEvent fd event ok =>
            obtain ⟨-, rfl⟩ := hlists
            exact (htaken heff).append_left _
        | addEvent | cancelEvent | cancelAll | idleEvent =>
            obtain ⟨rfl, -⟩ : deleted = [] ∧ True := by
              first
                | exact ⟨hlists, trivial⟩
                | exact ⟨hlists.1, trivial⟩
            simp [after, numbers]

theorem step_eq_some {s s' : Ledger S F C} {op : Op S F C}
    (h : (ledger S F C).step s op = some s') :
    ∃ io' rt, s.io.call (op.numbered s.issued.length) = .ok (io', rt) ∧ s' = s.after op io' rt := by
  simp only [ledger] at h
  cases hcall : s.io.call (op.numbered s.issued.length) with
  | error e => simp [hcall] at h
  | ok p =>
      simp only [hcall, Option.some.injEq] at h
      exact ⟨p.1, p.2, rfl, h.symm⟩

theorem getElem?_append_of_some {α : Type} {xs ys : List α} {n : Nat} {x : α}
    (h : xs[n]? = some x) : (xs ++ ys)[n]? = some x := by
  rw [List.getElem?_append_left (List.getElem?_eq_some_iff.mp h).1, h]

/-- **The step lemma**: a call keeps the ledger balanced. -/
theorem balanced_step {s s' : Ledger S F C} {op : Op S F C} (hs : Balanced s)
    (h : (ledger S F C).step s op = some s') : Balanced s' := by
  obtain ⟨io', rt, hcall, rfl⟩ := step_eq_some h
  obtain ⟨added, deleted, fired, heff, hissued, hlen, hnum, hdel⟩ := entries hs hcall
  obtain ⟨out, hsent, hdelivery⟩ := heff.sent
  obtain ⟨hworks, hfired⟩ := sent_of_fired hdelivery
  have hregs : (registered s.io ++ numbers added).Perm
      (registered io' ++ (numbers deleted ++ numbers fired)) := by
    simpa [registered, numbers] using heff.regs.map fun r => r.work.number
  have hsched : scheduled io' = scheduled s.io ++ numbers fired := by
    have hnums : numbers fired = out.map fun p => p.2.number := by
      have := congrArg (List.map Work.number) hworks
      simpa [numbers, List.map_map, Function.comp_def] using this
    rw [scheduled, hsent, List.map_append, hnums]
    rfl
  -- the numbers of what is registered, before the call or by it
  have hin : ∀ r ∈ s.io.regs ++ added,
      (s.after op io' rt).issued[r.work.number]? = some r.erase := by
    intro r hr
    rw [hissued]
    rcases List.mem_append.mp hr with hr | hr
    · exact getElem?_append_of_some (hs.regs r hr)
    · obtain rfl : added = [r] := by
        cases added with
        | nil => cases hr
        | cons a as =>
            obtain rfl : as = [] := List.length_eq_zero_iff.mp (by simpa using hlen)
            rw [List.mem_singleton.mp hr]
      rw [hnum r hr, List.getElem?_append_right (Nat.le_refl _), Nat.sub_self]
      rfl
  refine ⟨heff.wf, fun n => ?_, ?_, fun r hr => ?_, fun p hp => ?_⟩
  · have hold := hs.once n
    have hcount := hregs.count_eq n
    have hdcount := hdel.count_eq n
    have hadd : (numbers added).count n = if n = s.issued.length then added.length else 0 := by
      have hrep : numbers added = List.replicate added.length s.issued.length :=
        List.eq_replicate_iff.mpr ⟨by simp [numbers], fun m hm => by
          obtain ⟨r, hr, rfl⟩ := List.mem_map.mp hm
          exact hnum r hr⟩
      rw [hrep, List.count_replicate]
      simp only [beq_iff_eq, eq_comm (a := n)]
    simp only [tally, hissued, List.length_append, List.length_map] at hold ⊢
    simp only [List.count_append] at hcount hdcount
    have hio : (s.after op io' rt).io = io' := rfl
    rw [hio, hsched, List.count_append]
    split at hold <;> split at hadd <;> split <;> omega
  · have htotal := hs.total
    have hrlen := hregs.length_eq
    have hdlen := hdel.length_eq
    have hio : (s.after op io' rt).io = io' := rfl
    simp only [List.length_append, numbers, List.length_map] at hrlen hdlen
    rw [hio, hsched, hissued, hdlen]
    simp only [List.length_append, numbers, List.length_map]
    omega
  · exact hin r (heff.regs.symm.subset (List.mem_append_left _ hr))
  · have hio : (s.after op io' rt).io = io' := rfl
    rw [hio, hsent] at hp
    rcases List.mem_append.mp hp with hp | hp
    · obtain ⟨r, hr, hspec⟩ := hs.sent p hp
      exact ⟨r, by rw [hissued]; exact getElem?_append_of_some hr, hspec⟩
    · obtain ⟨r, hr, hsch, hwork⟩ := hfired p hp
      have hmem : r ∈ s.io.regs ++ added := heff.regs.symm.subset
        (List.mem_append_right _ (List.mem_append_right _ hr))
      exact ⟨r.erase, hwork ▸ hin r hmem, hsch, by rw [← hwork]; rfl⟩

/-- **The run lemma**: every reachable ledger is balanced. -/
theorem balanced {s : Ledger S F C} (hs : (ledger S F C).Reachable s) : Balanced s := by
  refine Lib.System.Reachable.invariant (P := Balanced) ?_ (fun s op s' hb h => balanced_step hb h) hs
  rintro s rfl
  have hreg : registered (.initial : IOManager S (Nat × F) (Nat × C)) = [] := by
    rw [registered, IOManager.regs_initial]
    rfl
  have hsched : scheduled (.initial : IOManager S (Nat × F) (Nat × C)) = [] := rfl
  exact
    { wf := IOManager.wf_initial
      once := fun n => by simp [tally, hreg, hsched]
      total := by simp [hreg, hsched]
      regs := fun r hr => by simp at hr
      sent := fun p hp => by cases hp }

/-- The ledger only gains entries in its two final places. -/
theorem step_grows {s s' : Ledger S F C} {op : Op S F C} (hs : Balanced s)
    (h : (ledger S F C).step s op = some s') :
    s.issued.length ≤ s'.issued.length ∧
      (∀ n, s.tally n .deleted ≤ s'.tally n .deleted) ∧
      ∀ n, s.tally n .scheduled ≤ s'.tally n .scheduled := by
  obtain ⟨io', rt, hcall, rfl⟩ := step_eq_some h
  obtain ⟨added, deleted, fired, heff, hissued, -, -, hdel⟩ := entries hs hcall
  obtain ⟨out, hsent, -⟩ := heff.sent
  refine ⟨by rw [hissued, List.length_append]; omega, fun n => ?_, fun n => ?_⟩
  · have := hdel.count_eq n
    simp only [tally, List.count_append] at this ⊢
    omega
  · have hio : (s.after op io' rt).io = io' := rfl
    simp only [tally, scheduled, hio, hsent, List.map_append, List.count_append]
    omega

/-- Every number issued is in exactly one place. -/
theorem existsUnique_place {s : Ledger S F C} (hs : Balanced s) {n : Nat}
    (hn : n < s.issued.length) : ∃! k, s.IsIn n k := by
  have honce := hs.once n
  rw [if_pos hn] at honce
  have htally : ∃ k, ∀ k', s.tally n k' = if k' = k then 1 else 0 := by
    by_cases hr : s.tally n .registered = 1
    · exact ⟨.registered, fun k' => by cases k' <;> simp <;> omega⟩
    · by_cases hd : s.tally n .deleted = 1
      · exact ⟨.deleted, fun k' => by cases k' <;> simp <;> omega⟩
      · exact ⟨.scheduled, fun k' => by cases k' <;> simp <;> omega⟩
  obtain ⟨k, hk⟩ := htally
  have hpos : ∀ {xs : List Nat}, xs.count n = 1 → n ∈ xs := fun h =>
    List.count_pos_iff.mp (by omega)
  refine ⟨k, ⟨hk, ?_⟩, fun k' hk' => ?_⟩
  · cases k with
    | registered =>
        obtain ⟨r, hr, rfl⟩ := List.mem_map.mp (hpos (hk .registered))
        exact ⟨r, hr, rfl, hs.regs r hr⟩
    | deleted => trivial
    | scheduled =>
        obtain ⟨p, hp, rfl⟩ := List.mem_map.mp (hpos (hk .scheduled))
        exact ⟨p, hp, rfl, hs.sent p hp⟩
  · have h := hk k'
    rw [hk'.1 k', if_pos rfl] at h
    by_contra hne
    rw [if_neg hne] at h
    cases h

/-- A call that succeeds. -/
def Succeeds (s : Ledger S F C) (op : Op S F C) : Prop :=
  ∃ io' rt, s.io.call (op.numbered s.issued.length) = .ok (io', rt) ∧ ¬ rt.Failure

/-- **Who takes a registration out**: a `delEvent` of its event deletes it; a `cancelEvent` of its event, a
`cancelAll` of its descriptor or `idle` schedules it. -/
theorem settled_by {s s' : Ledger S F C} {op : Op S F C} (hs : Balanced s)
    (h : (ledger S F C).step s op = some s') {n : Nat} {k : Place} (hin : s.IsIn n .registered)
    (hout : s'.IsIn n k) (hk : k ≠ .registered) :
    s.Succeeds op ∧ ∃ r, s.issued[n]? = some r ∧ op.Settles r k := by
  obtain ⟨io', rt, hcall, rfl⟩ := step_eq_some h
  obtain ⟨r, hr, rfl, hissued⟩ := hin.2
  have hgone : r.work.number ∉ registered io' := by
    have hzero := hout.1 .registered
    rw [if_neg hk.symm] at hzero
    exact List.count_eq_zero.mp hzero
  have hfd : r.fd = op.fd := by
    by_contra hne
    have hkept := IOManager.call_keeps hs.wf hcall hr (by cases op <;> exact hne)
    exact hgone (List.mem_map_of_mem hkept)
  cases IOManager.call_outcome hs.wf hcall with
  | failed hfail _ heff _ =>
      have hperm : s.io.regs.Perm io'.regs := by simpa using heff.regs
      exact absurd (List.mem_map_of_mem (hperm.subset hr)) hgone
  | done added deleted fired hok heff hfills =>
      refine ⟨⟨io', rt, hcall, hok⟩, r.erase, hissued, ?_⟩
      obtain ⟨rfl, hlists⟩ := hfills
      have htaken : r ∈ deleted ++ fired := by
        have hmem := heff.regs.subset (List.mem_append_left _ hr)
        exact (List.mem_append.mp hmem).resolve_left fun hkept => hgone (List.mem_map_of_mem hkept)
      have hbefore : ∀ k, k ≠ .registered → s.tally r.work.number k = 0 := fun k hk => by
        rw [hin.1 k, if_neg hk]
      have hafter : (s.after op io' rt).tally r.work.number k = 1 := by
        rw [hout.1 k, if_pos rfl]
      -- `delEvent` writes down what it deletes; the others delete nothing
      have hdeleted : k = .deleted → ∃ fd event ok, op = .delEvent fd event ok := by
        rintro rfl
        cases op with
        | delEvent fd event ok => exact ⟨fd, event, ok, rfl⟩
        | _ => exact absurd ((hbefore .deleted hk).symm.trans hafter) (by simp)
      have hscheduled : k = .scheduled → fired ≠ [] := by
        rintro rfl hnone
        obtain ⟨out, hsent, hdelivery⟩ := heff.sent
        rw [hnone] at hdelivery
        obtain rfl : out = [] := List.map_eq_nil_iff.mp hdelivery.symm
        have hsame : (s.after op io' rt).tally r.work.number .scheduled
            = s.tally r.work.number .scheduled := by
          show (scheduled io').count _ = (scheduled s.io).count _
          rw [scheduled, hsent, List.append_nil]
          rfl
        rw [hbefore .scheduled hk, hafter] at hsame
        cases hsame
      cases k with
      | registered => exact absurd rfl hk
      | deleted =>
          obtain ⟨fd, event, ok, rfl⟩ := hdeleted rfl
          obtain ⟨⟨r', hevent, rfl⟩, rfl⟩ := hlists
          obtain rfl : r = r' := by simpa using htaken
          refine ⟨ok, ?_⟩
          rw [← hevent]
          exact congrArg (Op.delEvent · r.event ok) hfd.symm
      | scheduled =>
          have hfired := hscheduled rfl
          cases op with
          | addEvent => exact absurd hlists.2 hfired
          | delEvent => exact absurd hlists.2 hfired
          | cancelEvent fd event ok =>
              obtain ⟨rfl, r', hevent, rfl⟩ := hlists
              obtain rfl : r = r' := by simpa using htaken
              refine .inl ⟨ok, ?_⟩
              rw [← hevent]
              exact congrArg (Op.cancelEvent · r.event ok) hfd.symm
          | cancelAll fd ok => exact .inr (.inl ⟨ok, congrArg (Op.cancelAll · ok) hfd.symm⟩)
          | idleEvent fd ready ok =>
              exact .inr (.inr ⟨ready, ok, congrArg (Op.idleEvent · ready ok) hfd.symm⟩)

/-- **Conservation of registrations.**  In every state of every run, each successful registration is
in exactly one place: registered, deleted, or scheduled once on its own scheduler.  It leaves the
first by a successful `delEvent` of its event, which deletes it, or by a `cancelEvent` of its event, a
`cancelAll` of its descriptor or an event there that `idle` processes, which schedule it; no call moves
it out of the last two.  The totals of the three places add up to the number of successful
registrations. -/
theorem conservation {s : Ledger S F C} (hs : (ledger S F C).Reachable s) :
    (∀ n < s.issued.length, ∃! k, s.IsIn n k) ∧
      (∀ op s', (ledger S F C).step s op = some s' → ∀ n k, k ≠ .registered → s.IsIn n k →
        s'.IsIn n k) ∧
      (∀ op s', (ledger S F C).step s op = some s' → ∀ n k, k ≠ .registered →
        s.IsIn n .registered → s'.IsIn n k →
        s.Succeeds op ∧ ∃ r, s.issued[n]? = some r ∧ op.Settles r k) ∧
      s.issued.length = s.io.regs.length + s.deleted.length + s.io.books.scheduled.length := by
  have hb := balanced hs
  refine ⟨fun n hn => existsUnique_place hb hn, fun op s' h n k hk hin => ?_,
    fun op s' h n k hk hin hout => settled_by hb h hin hout hk, ?_⟩
  · have hb' := balanced_step hb h
    obtain ⟨hlen, hdel, hsched⟩ := step_grows hb h
    have hold := hb.once n
    have hnew := hb'.once n
    have hn : n < s.issued.length := by
      by_contra hge
      rw [if_neg hge] at hold
      have hr := hin.1 .registered
      have := hin.1 k
      rw [if_pos rfl] at this
      cases k <;> omega
    obtain ⟨k', hk', -⟩ := existsUnique_place hb' (Nat.lt_of_lt_of_le hn hlen)
    have hk1 := hin.1 k
    rw [if_pos rfl] at hk1
    have heq : k' = k := by
      by_contra hne
      have hzero := hk'.1 k
      rw [if_neg (fun h => hne h.symm)] at hzero
      cases k with
      | registered => exact hk rfl
      | deleted => exact absurd (hdel n) (by omega)
      | scheduled => exact absurd (hsched n) (by omega)
    exact heq ▸ hk'
  · simpa [registered, scheduled] using hb.total

/-- Registrations on two events of one descriptor: one delivered by `idle`, one deleted, and the
first event registered again. -/
def ledgerRun : List (Op Nat Nat Nat) :=
  [.addEvent 5 .read none ⟨some 0, 7, .exec⟩ true, .addEvent 5 .write (some 9) ⟨some 0, 7, .exec⟩ true,
    .idleEvent 5 ⟨true, false, false, false⟩ true, .delEvent 5 .write true,
    .addEvent 5 .read none ⟨some 0, 7, .exec⟩ true]

theorem conservation_run :
    let s := ((ledger Nat Nat Nat).exec ⟨.initial, [], []⟩ ledgerRun).get (by decide)
    (∀ n < s.issued.length, ∃! k, s.IsIn n k) ∧
      (∀ op s', (ledger Nat Nat Nat).step s op = some s' → ∀ n k, k ≠ .registered → s.IsIn n k →
        s'.IsIn n k) ∧
      (∀ op s', (ledger Nat Nat Nat).step s op = some s' → ∀ n k, k ≠ .registered →
        s.IsIn n .registered → s'.IsIn n k →
        s.Succeeds op ∧ ∃ r, s.issued[n]? = some r ∧ op.Settles r k) ∧
      s.issued.length = s.io.regs.length + s.deleted.length + s.io.books.scheduled.length :=
  conservation (Lib.System.reachable_of_exec (l := ledgerRun) rfl (Option.some_get _).symm)

end Ledger

end Sylar.IO
