/-
# Sylar.IO.IOManager — the event operations over the context table (`sylar/iomanager.cpp`).

`m_fdContexts` is the table of contexts, one for each descriptor below its size.  Each operation
looks its context up and runs the body of `Sylar.IO.FdContext` on it; `addEvent` grows the table
first when the descriptor is beyond it.  Here look-up and body are one step (the growth that runs
between other threads' steps is the subject of `Sylar.IO.ContextTable`).

`WF` is the invariant of the bookkeeping, `call_outcome` the one statement about an operation, and
`manager` the transition system whose runs are the interleavings of all callers: a failed assertion
ends the run, so a faulting call has no successor.
-/
import Sylar.IO.Effect
import Sylar.Lib.Transition

namespace Sylar.IO

open Sylar.Scheduler

variable {S F C : Type}

/-! ## The manager -/

/-- The members of `IOManager` the event code uses. -/
structure IOManager (S F C : Type) where
  books : Books S F C
  m_fdContexts : List (FdContext S F C)

/-- `contextResize`: `resize(size)`, then a new `FdContext` in every null slot. -/
def contextResize (cs : List (FdContext S F C)) (size : Nat) : List (FdContext S F C) :=
  cs.take size ++ (List.range' cs.length (size - cs.length)).map FdContext.new

namespace IOManager

/-- Run a body on the context at `fd`; an index outside the table is a fault. -/
def withContext {R : Type} (m : IOManager S F C) (fd : Nat)
    (body : Books S F C → FdContext S F C → Except Fault (Books S F C × FdContext S F C × R)) :
    Except Fault (IOManager S F C × R) :=
  match m.m_fdContexts[fd]? with
  | none => .error .outOfRange
  | some c =>
      match body m.books c with
      | .error e => .error e
      | .ok (b, c', rt) => .ok (⟨b, m.m_fdContexts.set fd c'⟩, rt)

/-- The table `addEvent` works on: grown to `fd * 1.5` when `fd` is beyond it. -/
def ensure (m : IOManager S F C) (fd : Nat) : IOManager S F C :=
  if fd < m.m_fdContexts.length then m
  else { m with m_fdContexts := contextResize m.m_fdContexts (fd * 3 / 2) }

/-- `addEvent(fd, event, cb)`, called by `who`. -/
def addEvent (m : IOManager S F C) (fd : Nat) (event : Event) (cb : Option C) (who : Caller S F)
    (ok : Bool) : Except Fault (IOManager S F C × Int) :=
  (m.ensure fd).withContext fd fun b c => addEventLocked b fd c event cb who ok

/-- `delEvent(fd, event)`. -/
def delEvent (m : IOManager S F C) (fd : Nat) (event : Event) (ok : Bool) :
    Except Fault (IOManager S F C × Bool) :=
  if m.m_fdContexts.length ≤ fd then .ok (m, false)
  else m.withContext fd fun b c => delEventLocked b fd c event ok

/-- `cancelEvent(fd, event)`. -/
def cancelEvent (m : IOManager S F C) (fd : Nat) (event : Event) (ok : Bool) :
    Except Fault (IOManager S F C × Bool) :=
  if m.m_fdContexts.length ≤ fd then .ok (m, false)
  else m.withContext fd fun b c => cancelEventLocked b fd c event ok

/-- `cancelAll(fd)`. -/
def cancelAll (m : IOManager S F C) (fd : Nat) (ok : Bool) :
    Except Fault (IOManager S F C × Bool) :=
  if m.m_fdContexts.length ≤ fd then .ok (m, false)
  else m.withContext fd fun b c => cancelAllLocked b fd c ok

/-- The body of `idle`'s loop for one `epoll_event` whose `data.ptr` is the context of `fd`. -/
def idleEvent (m : IOManager S F C) (fd : Nat) (r : Ready) (ok : Bool) :
    Except Fault (IOManager S F C × Unit) :=
  m.withContext fd fun b c => (idleLocked b c r ok).map fun p => (p.1, p.2, ())

end IOManager

/-! ## Calls -/

/-- One call of an event operation, with what the kernel answers (`ok`). -/
inductive Op (S F C : Type)
  | addEvent (fd : Nat) (event : Event) (cb : Option C) (who : Caller S F) (ok : Bool)
  | delEvent (fd : Nat) (event : Event) (ok : Bool)
  | cancelEvent (fd : Nat) (event : Event) (ok : Bool)
  | cancelAll (fd : Nat) (ok : Bool)
  | idleEvent (fd : Nat) (r : Ready) (ok : Bool)
  deriving DecidableEq, Repr

/-- What a call returns. -/
inductive Ret
  | int (rt : Int)
  | bool (rt : Bool)
  | unit
  deriving DecidableEq, Repr

/-- `-1` or `false`. -/
def Ret.Failure : Ret → Prop
  | .int rt => rt = -1
  | .bool rt => rt = false
  | .unit => False

instance : DecidablePred Ret.Failure
  | .int rt => inferInstanceAs (Decidable (rt = -1))
  | .bool rt => inferInstanceAs (Decidable (rt = false))
  | .unit => isFalse id

namespace Op

/-- The descriptor of a call. -/
def fd : Op S F C → Nat
  | .addEvent fd .. | .delEvent fd .. | .cancelEvent fd .. | .cancelAll fd .. | .idleEvent fd .. =>
      fd

/-- The call comes from a thread with a scheduler, where that matters (`addEvent`). -/
def FromScheduler : Op S F C → Prop
  | .addEvent _ _ _ who _ => who.scheduler.isSome = true
  | _ => True

instance : DecidablePred (FromScheduler : Op S F C → Prop)
  | .addEvent _ _ _ who _ => inferInstanceAs (Decidable (who.scheduler.isSome = true))
  | .delEvent .. | .cancelEvent .. | .cancelAll .. | .idleEvent .. => isTrue trivial

/-- The registration an `addEvent` asks for. -/
def request : Op S F C → List (Reg S F C)
  | .addEvent fd event cb who _ => [⟨fd, event, who.scheduler, addWork cb who⟩]
  | .delEvent .. | .cancelEvent .. | .cancelAll .. | .idleEvent .. => []

/-- What a successful call registers, drops and schedules. -/
def Fills (op : Op S F C) (added deleted fired : List (Reg S F C)) : Prop :=
  added = op.request ∧
    match op with
    | .addEvent .. => deleted = [] ∧ fired = []
    | .delEvent _ event _ => (∃ r, r.event = event ∧ deleted = [r]) ∧ fired = []
    | .cancelEvent _ event _ => deleted = [] ∧ ∃ r, r.event = event ∧ fired = [r]
    | .cancelAll .. | .idleEvent .. => deleted = []

end Op

/-- Perform a call. -/
def IOManager.call (m : IOManager S F C) : Op S F C → Except Fault (IOManager S F C × Ret)
  | .addEvent fd event cb who ok => (m.addEvent fd event cb who ok).map fun p => (p.1, .int p.2)
  | .delEvent fd event ok => (m.delEvent fd event ok).map fun p => (p.1, .bool p.2)
  | .cancelEvent fd event ok => (m.cancelEvent fd event ok).map fun p => (p.1, .bool p.2)
  | .cancelAll fd ok => (m.cancelAll fd ok).map fun p => (p.1, .bool p.2)
  | .idleEvent fd r ok => (m.idleEvent fd r ok).map fun p => (p.1, .unit)

/-- The manager its constructor leaves: 32 empty contexts. -/
def IOManager.initial : IOManager S F C := ⟨⟨0, fun _ => none, []⟩, contextResize [] 32⟩

/-- All interleavings of calls; a faulting call has no successor. -/
def manager (S F C : Type) : Lib.System (IOManager S F C) (Op S F C) where
  init m := m = .initial
  step m op := (m.call op).toOption.map Prod.fst

/-! ## The invariant -/

/-- A context in shape, at its own index, with the kernel's table following its mask. -/
structure SlotWF (k : Epoll) (i : Nat) (c : FdContext S F C) : Prop where
  fd : c.fd = i
  ctx : CtxOk c
  kernel : k i = interestOf c.events

namespace IOManager

/-- All registrations. -/
def regs (m : IOManager S F C) : List (Reg S F C) := m.m_fdContexts.flatMap FdContext.regs

/-- The number of event bits set over all contexts. -/
def bits (m : IOManager S F C) : Nat :=
  m.m_fdContexts.foldr (fun c n => c.events.card + n) 0

/-- Every context is in order, and the kernel knows no descriptor beyond the table. -/
structure WF (m : IOManager S F C) : Prop where
  slot : ∀ {i : Nat} {c : FdContext S F C}, m.m_fdContexts[i]? = some c → SlotWF m.books.epfd i c
  beyond : ∀ {i : Nat}, m.m_fdContexts.length ≤ i → m.books.epfd i = none

/-- What a call did: `added` was registered, `deleted` dropped, `fired` scheduled. -/
structure CallEffect (m m' : IOManager S F C) (added deleted fired : List (Reg S F C)) : Prop where
  wf : WF m'
  grows : m.m_fdContexts.length ≤ m'.m_fdContexts.length
  regs : (m.regs ++ added).Perm (m'.regs ++ (deleted ++ fired))
  pending : m'.books.m_pendingEventCount + deleted.length + fired.length
    = m.books.m_pendingEventCount + added.length
  sent : ∃ out, m'.books.scheduled = m.books.scheduled ++ out ∧
    fired.map Reg.delivery = out.map some

/-- The bits are the registrations. -/
theorem WF.bits_eq {m : IOManager S F C} (hm : WF m) : m.bits = m.regs.length := by
  have hlen : ∀ c ∈ m.m_fdContexts, c.events.card = c.regs.length := by
    intro c hc
    obtain ⟨i, hi⟩ := List.mem_iff_getElem?.mp hc
    exact (hm.slot hi).ctx.regs_length.symm
  unfold bits regs
  generalize m.m_fdContexts = cs at hlen ⊢
  induction cs with
  | nil => rfl
  | cons c cs ih =>
      rw [List.foldr_cons, List.flatMap_cons, List.length_append, hlen c List.mem_cons_self,
        ih fun d hd => hlen d (List.mem_cons_of_mem c hd)]

theorem CallEffect.refl {m : IOManager S F C} (hm : WF m) : CallEffect m m [] [] [] where
  wf := hm
  grows := Nat.le_refl _
  regs := by simp
  pending := by simp
  sent := ⟨[], by simp, rfl⟩

/-- A call after the growth of the table. -/
theorem CallEffect.of_grown {m m₁ m₂ : IOManager S F C} {added deleted fired : List (Reg S F C)}
    (hb : m₁.books = m.books) (hr : m₁.regs = m.regs)
    (hl : m.m_fdContexts.length ≤ m₁.m_fdContexts.length)
    (h : CallEffect m₁ m₂ added deleted fired) : CallEffect m m₂ added deleted fired where
  wf := h.wf
  grows := Nat.le_trans hl h.grows
  regs := hr ▸ h.regs
  pending := hb ▸ h.pending
  sent := hb ▸ h.sent

/-! ## One body, lifted to the table -/

/-- Replacing the context at `fd` replaces its registrations. -/
theorem regs_set {m : IOManager S F C} {fd : Nat} {c : FdContext S F C}
    (h : m.m_fdContexts[fd]? = some c) :
    ∃ rest, m.regs.Perm (c.regs ++ rest) ∧
      ∀ b c', (⟨b, m.m_fdContexts.set fd c'⟩ : IOManager S F C).regs.Perm (c'.regs ++ rest) := by
  obtain ⟨hlt, hget⟩ := List.getElem?_eq_some_iff.mp h
  refine ⟨(m.m_fdContexts.eraseIdx fd).flatMap FdContext.regs, ?_, fun b c' => ?_⟩
  · have hperm := (List.getElem_cons_eraseIdx_perm hlt).symm
    rw [hget] at hperm
    simpa [regs] using hperm.flatMap_right FdContext.regs
  · simpa [regs] using (List.set_perm_cons_eraseIdx hlt c').flatMap_right FdContext.regs

/-- A body on the context at `fd` keeps the invariant, if the kernel's interest in `fd` follows. -/
theorem WF.set {m : IOManager S F C} (hm : WF m) {fd : Nat} {c c' : FdContext S F C}
    {b : Books S F C} (h : m.m_fdContexts[fd]? = some c) (hfd : c'.fd = c.fd) (hctx : CtxOk c')
    (hk : InterestOk b.epfd c') (hframe : ∀ d, d ≠ c.fd → b.epfd d = m.books.epfd d) :
    WF ⟨b, m.m_fdContexts.set fd c'⟩ := by
  have hcfd : c.fd = fd := (hm.slot h).fd
  constructor
  · intro i d hi
    by_cases hne : i = fd
    · subst hne
      rw [List.getElem?_set_self' , h] at hi
      obtain rfl : c' = d := by simpa using hi
      exact ⟨hfd.trans hcfd, hctx, by rw [← hcfd, ← hfd]; exact hk⟩
    · rw [List.getElem?_set_ne (Ne.symm hne)] at hi
      have hs := hm.slot hi
      exact ⟨hs.fd, hs.ctx, (hframe i (by rwa [hcfd])).trans hs.kernel⟩
  · intro i hi
    rw [List.length_set] at hi
    have hlt := (List.getElem?_eq_some_iff.mp h).1
    have hne : i ≠ c.fd := by rw [hcfd]; omega
    exact (hframe i hne).trans (hm.beyond hi)

theorem perm_append_swap_right {α : Type} (xs ys zs : List α) :
    ((xs ++ ys) ++ zs).Perm ((xs ++ zs) ++ ys) := by
  rw [List.append_assoc, List.append_assoc]
  exact List.perm_append_comm.append_left xs

/-- **Lifting**: the effect of a body is the effect of the call. -/
theorem CallEffect.of_body {m : IOManager S F C} (hm : WF m) {fd : Nat} {c c' : FdContext S F C}
    {b : Books S F C} {added deleted fired : List (Reg S F C)}
    (h : m.m_fdContexts[fd]? = some c) (heff : Effect m.books c b c' added deleted fired)
    (hk : InterestOk b.epfd c') :
    CallEffect m ⟨b, m.m_fdContexts.set fd c'⟩ added deleted fired where
  wf := hm.set h heff.fd heff.ctx hk heff.kernel
  grows := by simp
  regs := by
    obtain ⟨rest, hrest, hset⟩ := regs_set h
    calc List.Perm (m.regs ++ added) ((c.regs ++ rest) ++ added) := hrest.append_right added
      List.Perm _ ((c.regs ++ added) ++ rest) := perm_append_swap_right _ _ _
      List.Perm _ ((c'.regs ++ (deleted ++ fired)) ++ rest) := heff.regs.append_right rest
      List.Perm _ ((c'.regs ++ rest) ++ (deleted ++ fired)) := perm_append_swap_right _ _ _
      List.Perm _ _ := (hset b c').symm.append_right _
  pending := heff.pending
  sent := heff.sent

/-! ## The growth of the table -/

/-- The slots of the grown table: the old contexts, then new ones. -/
theorem getElem?_contextResize {cs : List (FdContext S F C)} {size i : Nat}
    (h : cs.length ≤ size) :
    (contextResize cs size)[i]? =
      if i < cs.length then cs[i]? else if i < size then some (.new i) else none := by
  rw [contextResize, List.take_of_length_le h]
  by_cases hi : i < cs.length
  · rw [if_pos hi, List.getElem?_append_left hi]
  · rw [if_neg hi, List.getElem?_append_right (Nat.le_of_not_lt hi), List.getElem?_map]
    by_cases hs : i < size
    · rw [if_pos hs, List.getElem?_range' (by omega), Option.map_some, Nat.one_mul,
        show cs.length + (i - cs.length) = i by omega]
    · rw [if_neg hs, List.getElem?_eq_none (by simp; omega)]
      rfl

theorem length_contextResize {cs : List (FdContext S F C)} {size : Nat} (h : cs.length ≤ size) :
    (contextResize cs size).length = size := by
  simp [contextResize, List.length_take]
  omega

/-- **Growth changes nothing but the size**: no registration, counter, interest or task. -/
theorem ensure_effect {m : IOManager S F C} (hm : WF m) (fd : Nat) :
    CallEffect m (m.ensure fd) [] [] [] ∧ (m.ensure fd).books = m.books ∧
      (m.ensure fd).regs = m.regs := by
  by_cases hfd : fd < m.m_fdContexts.length
  · rw [ensure, if_pos hfd]
    exact ⟨.refl hm, rfl, rfl⟩
  · rw [ensure, if_neg hfd]
    have hle : m.m_fdContexts.length ≤ fd * 3 / 2 := by omega
    have hregs : (⟨m.books, contextResize m.m_fdContexts (fd * 3 / 2)⟩ : IOManager S F C).regs
        = m.regs := by
      have hnew : (List.range' m.m_fdContexts.length (fd * 3 / 2 - m.m_fdContexts.length)).flatMap
          (fun i => (FdContext.new i : FdContext S F C).regs) = [] := by
        simp
      rw [regs, contextResize, List.take_of_length_le hle, List.flatMap_append, List.flatMap_map,
        hnew, List.append_nil, regs]
    refine ⟨⟨⟨fun {i c} hi => ?_, fun {i} hi => hm.beyond ?_⟩, ?_, ?_, by simp, ⟨[], by simp, rfl⟩⟩,
      rfl, hregs⟩
    · simp only at hi
      rw [getElem?_contextResize hle] at hi
      split at hi
      · exact hm.slot hi
      · rename_i hlt
        split at hi
        · obtain rfl : FdContext.new i = c := by simpa using hi
          exact ⟨rfl, ctxOk_new i, hm.beyond (Nat.le_of_not_lt hlt)⟩
        · exact absurd hi (by simp)
    · rw [length_contextResize hle] at hi
      omega
    · rw [length_contextResize hle]
      exact hle
    · rw [hregs]
      simp

/-! ## Calls -/

theorem withContext_ok {R : Type} {m m' : IOManager S F C} {fd : Nat} {rt : R}
    {body : Books S F C → FdContext S F C → Except Fault (Books S F C × FdContext S F C × R)}
    (h : m.withContext fd body = .ok (m', rt)) :
    ∃ c b c', m.m_fdContexts[fd]? = some c ∧ body m.books c = .ok (b, c', rt) ∧
      m' = ⟨b, m.m_fdContexts.set fd c'⟩ := by
  simp only [withContext] at h
  cases hc : m.m_fdContexts[fd]? with
  | none => simp [hc] at h
  | some c =>
      simp only [hc] at h
      cases hb : body m.books c with
      | error e => simp [hb] at h
      | ok p =>
          obtain ⟨b, c', rt'⟩ := p
          simp only [hb, Except.ok.injEq, Prod.mk.injEq] at h
          obtain ⟨rfl, rfl⟩ := h
          exact ⟨c, b, c', rfl, hb, rfl⟩

/-- Writing a context back unchanged. -/
theorem set_self {m : IOManager S F C} {fd : Nat} {c : FdContext S F C}
    (h : m.m_fdContexts[fd]? = some c) :
    (⟨m.books, m.m_fdContexts.set fd c⟩ : IOManager S F C) = m := by
  obtain ⟨hlt, rfl⟩ := List.getElem?_eq_some_iff.mp h
  rw [List.set_getElem_self]

/-- What a call may do: fail and change nothing, or succeed with the lists of its operation. -/
inductive Outcome (m m' : IOManager S F C) (op : Op S F C) (rt : Ret) : Prop
  | failed : rt.Failure → m'.books = m.books → CallEffect m m' [] [] [] →
      (op.fd < m.m_fdContexts.length → m' = m) → Outcome m m' op rt
  | done (added deleted fired : List (Reg S F C)) : ¬ rt.Failure →
      CallEffect m m' added deleted fired → op.Fills added deleted fired → Outcome m m' op rt

theorem addEvent_outcome {m m' : IOManager S F C} (hm : WF m) {fd : Nat} {event : Event}
    {cb : Option C} {who : Caller S F} {ok : Bool} {rt : Int}
    (h : m.addEvent fd event cb who ok = .ok (m', rt)) :
    Outcome m m' (.addEvent fd event cb who ok) (.int rt) := by
  obtain ⟨hens, hbooks, hregs⟩ := ensure_effect hm fd
  obtain ⟨c, b, c', hc, hbody, rfl⟩ := withContext_ok h
  obtain rfl := (hens.wf.slot hc).fd
  rcases addEventLocked_effect (hens.wf.slot hc).ctx hbody with ⟨rfl, rfl, rfl⟩ | ⟨rfl, heff, hk⟩
  · rw [set_self hc]
    exact .failed rfl hbooks hens fun hlt => if_pos hlt
  · exact .done _ _ _ (by simp [Ret.Failure])
      (.of_grown hbooks hregs hens.grows (.of_body hens.wf hc heff hk)) ⟨rfl, rfl, rfl⟩

/-- The operations that answer `false` beyond the table and on a failing body. -/
theorem outcome_of_body {m m' : IOManager S F C} (hm : WF m) {op : Op S F C} {rt : Bool}
    {body : Books S F C → FdContext S F C → Except Fault (Books S F C × FdContext S F C × Bool)}
    (hbody : ∀ c b c', SlotWF m.books.epfd op.fd c → body m.books c = .ok (b, c', rt) →
      (rt = false ∧ b = m.books ∧ c' = c) ∨ (rt = true ∧ InterestOk b.epfd c' ∧
        ∃ added deleted fired, Effect m.books c b c' added deleted fired ∧
          op.Fills added deleted fired))
    (h : (if m.m_fdContexts.length ≤ op.fd then Except.ok (m, false)
      else m.withContext op.fd body) = .ok (m', rt)) : Outcome m m' op (.bool rt) := by
  split at h
  · simp only [Except.ok.injEq, Prod.mk.injEq] at h
    obtain ⟨rfl, rfl⟩ := h
    exact .failed rfl rfl (.refl hm) fun _ => rfl
  · obtain ⟨c, b, c', hc, hb, rfl⟩ := withContext_ok h
    rcases hbody c b c' (hm.slot hc) hb with
      ⟨rfl, rfl, rfl⟩ | ⟨rfl, hk, added, deleted, fired, heff, hfills⟩
    · rw [set_self hc]
      exact .failed rfl rfl (.refl hm) fun _ => rfl
    · exact .done _ _ _ (by simp [Ret.Failure]) (.of_body hm hc heff hk) hfills

theorem delEvent_outcome {m m' : IOManager S F C} (hm : WF m) {fd : Nat} {event : Event}
    {ok rt : Bool} (h : m.delEvent fd event ok = .ok (m', rt)) :
    Outcome m m' (.delEvent fd event ok) (.bool rt) := by
  refine outcome_of_body hm (fun c b c' hslot hb => ?_) h
  obtain rfl := hslot.fd
  rcases delEventLocked_effect hslot.ctx hb with hfail | ⟨rfl, ⟨r, hr, heff⟩, hk⟩
  · exact .inl hfail
  · exact .inr ⟨rfl, hk, _, _, _, heff, rfl, ⟨r, hr, rfl⟩, rfl⟩

theorem cancelEvent_outcome {m m' : IOManager S F C} (hm : WF m) {fd : Nat} {event : Event}
    {ok rt : Bool} (h : m.cancelEvent fd event ok = .ok (m', rt)) :
    Outcome m m' (.cancelEvent fd event ok) (.bool rt) := by
  refine outcome_of_body hm (fun c b c' hslot hb => ?_) h
  obtain rfl := hslot.fd
  rcases cancelEventLocked_effect hslot.ctx hb with hfail | ⟨rfl, ⟨r, hr, heff⟩, hk⟩
  · exact .inl hfail
  · exact .inr ⟨rfl, hk, _, _, _, heff, rfl, rfl, r, hr, rfl⟩

theorem cancelAll_outcome {m m' : IOManager S F C} (hm : WF m) {fd : Nat} {ok rt : Bool}
    (h : m.cancelAll fd ok = .ok (m', rt)) : Outcome m m' (.cancelAll fd ok) (.bool rt) := by
  refine outcome_of_body hm (fun c b c' hslot hb => ?_) h
  obtain rfl := hslot.fd
  rcases cancelAllLocked_effect hslot.ctx hb with hfail | ⟨rfl, -, ⟨rs, heff⟩, hk⟩
  · exact .inl hfail
  · exact .inr ⟨rfl, hk, _, _, _, heff, rfl, rfl⟩

theorem idleEvent_outcome {m m' : IOManager S F C} (hm : WF m) {fd : Nat} {r : Ready} {ok : Bool}
    (h : m.idleEvent fd r ok = .ok (m', ())) : Outcome m m' (.idleEvent fd r ok) .unit := by
  obtain ⟨c, b, c', hc, hbody, rfl⟩ := withContext_ok h
  obtain rfl := (hm.slot hc).fd
  have hslot := hm.slot hc
  cases hidle : idleLocked m.books c r ok with
  | error e => simp [hidle, Except.map] at hbody
  | ok p =>
      simp only [hidle, Except.map, Except.ok.injEq, Prod.mk.injEq, and_true] at hbody
      obtain ⟨rfl, rfl⟩ := hbody
      obtain ⟨hk, rs, heff, hcases⟩ := idleLocked_effect hslot.ctx hslot.kernel hidle
      exact .done _ _ rs (by simp [Ret.Failure]) (.of_body hm hc heff hk) ⟨rfl, rfl⟩

/-- **Every call** fails and changes nothing, or does what its operation does. -/
theorem call_outcome {m m' : IOManager S F C} (hm : WF m) {op : Op S F C} {rt : Ret}
    (h : m.call op = .ok (m', rt)) : Outcome m m' op rt := by
  have hmap : ∀ {R : Type} {x : Except Fault (IOManager S F C × R)} {g : R → Ret},
      x.map (fun p => (p.1, g p.2)) = .ok (m', rt) → ∃ rt', x = .ok (m', rt') ∧ rt = g rt' := by
    intro R x g hx
    cases x with
    | error e => simp [Except.map] at hx
    | ok p =>
        simp only [Except.map, Except.ok.injEq, Prod.mk.injEq] at hx
        exact ⟨p.2, by rw [← hx.1], hx.2.symm⟩
  cases op with
  | addEvent fd event cb who ok =>
      obtain ⟨rt', hcall, rfl⟩ := hmap (g := Ret.int) h
      exact addEvent_outcome hm hcall
  | delEvent fd event ok =>
      obtain ⟨rt', hcall, rfl⟩ := hmap (g := Ret.bool) h
      exact delEvent_outcome hm hcall
  | cancelEvent fd event ok =>
      obtain ⟨rt', hcall, rfl⟩ := hmap (g := Ret.bool) h
      exact cancelEvent_outcome hm hcall
  | cancelAll fd ok =>
      obtain ⟨rt', hcall, rfl⟩ := hmap (g := Ret.bool) h
      exact cancelAll_outcome hm hcall
  | idleEvent fd r ok =>
      obtain ⟨rt', hcall, rfl⟩ := hmap (g := fun _ => Ret.unit) h
      exact idleEvent_outcome hm hcall

/-! ## Runs -/

/-- A registration is on the descriptor of its context. -/
theorem fd_of_mem_regs {c : FdContext S F C} {r : Reg S F C} (h : r ∈ c.regs) : r.fd = c.fd := by
  have hslot : ∀ {e : Event} {ctx : EventContext S F C}, ctx.reg c.fd e = some r → r.fd = c.fd := by
    intro e ctx hreg
    obtain ⟨w, -, rfl⟩ := Option.map_eq_some_iff.mp hreg
    rfl
  rcases List.mem_append.mp h with h | h
  · exact hslot (Option.mem_toList.mp h)
  · exact hslot (Option.mem_toList.mp h)

theorem withContext_keeps {R : Type} {m m' : IOManager S F C} (hm : WF m) {fd : Nat} {rt : R}
    {body : Books S F C → FdContext S F C → Except Fault (Books S F C × FdContext S F C × R)}
    (h : m.withContext fd body = .ok (m', rt)) {r : Reg S F C} (hr : r ∈ m.regs) (hfd : r.fd ≠ fd) :
    r ∈ m'.regs := by
  obtain ⟨c, b, c', hc, -, rfl⟩ := withContext_ok h
  obtain ⟨rest, hrest, hset⟩ := regs_set hc
  refine (hset b c').symm.subset (List.mem_append_right _ ?_)
  rcases List.mem_append.mp (hrest.subset hr) with hin | hin
  · exact absurd ((fd_of_mem_regs hin).trans (hm.slot hc).fd) hfd
  · exact hin

/-- **A call leaves the registrations on other descriptors alone.** -/
theorem call_keeps {m m' : IOManager S F C} (hm : WF m) {op : Op S F C} {rt : Ret}
    (h : m.call op = .ok (m', rt)) {r : Reg S F C} (hr : r ∈ m.regs) (hfd : r.fd ≠ op.fd) :
    r ∈ m'.regs := by
  have hmap : ∀ {R : Type} {x : Except Fault (IOManager S F C × R)} {g : R → Ret},
      x.map (fun p => (p.1, g p.2)) = .ok (m', rt) → ∃ rt', x = .ok (m', rt') := by
    intro R x g hx
    cases x with
    | error e => simp [Except.map] at hx
    | ok p =>
        simp only [Except.map, Except.ok.injEq, Prod.mk.injEq] at hx
        exact ⟨p.2, by rw [← hx.1]⟩
  have hbody : ∀ {R : Type} {x : R} {rt' : R} {fd : Nat}
      {body : Books S F C → FdContext S F C → Except Fault (Books S F C × FdContext S F C × R)},
      (if m.m_fdContexts.length ≤ fd then Except.ok (m, x) else m.withContext fd body)
        = .ok (m', rt') → r.fd ≠ fd → r ∈ m'.regs := by
    intro R x rt' fd body hcall hne
    split at hcall
    · obtain ⟨rfl, -⟩ := Prod.mk.inj (Except.ok.inj hcall)
      exact hr
    · exact withContext_keeps hm hcall hr hne
  cases op with
  | addEvent fd event cb who ok =>
      obtain ⟨rt', hcall⟩ := hmap h
      obtain ⟨hens, -, hregs⟩ := ensure_effect hm fd
      exact withContext_keeps hens.wf hcall (hregs ▸ hr) hfd
  | delEvent fd event ok | cancelEvent fd event ok | cancelAll fd ok =>
      obtain ⟨rt', hcall⟩ := hmap h
      exact hbody hcall hfd
  | idleEvent fd ready ok =>
      obtain ⟨rt', hcall⟩ := hmap (g := fun _ => Ret.unit) h
      exact withContext_keeps hm hcall hr hfd

/-- The invariant at the start. -/
theorem wf_initial : WF (initial : IOManager S F C) := by
  refine ⟨fun {i c} hi => ?_, fun _ => rfl⟩
  rw [initial, getElem?_contextResize (Nat.zero_le _)] at hi
  simp only [List.length_nil, Nat.not_lt_zero, if_false] at hi
  split at hi
  · obtain rfl : FdContext.new i = c := by simpa using hi
    exact ⟨rfl, ctxOk_new i, rfl⟩
  · exact absurd hi (by simp)

@[simp] theorem regs_initial : (initial : IOManager S F C).regs = [] := by
  simp [regs, initial, contextResize, List.flatMap_map]

/-- The effect of a call, whatever its outcome. -/
theorem Outcome.effect {m m' : IOManager S F C} {op : Op S F C} {rt : Ret}
    (h : Outcome m m' op rt) : ∃ added deleted fired, CallEffect m m' added deleted fired := by
  cases h with
  | failed _ _ heff _ => exact ⟨_, _, _, heff⟩
  | done added deleted fired _ heff _ => exact ⟨added, deleted, fired, heff⟩

theorem step_eq_some {m m' : IOManager S F C} {op : Op S F C}
    (h : (manager S F C).step m op = some m') : ∃ rt, m.call op = .ok (m', rt) := by
  simp only [manager] at h
  cases hc : m.call op with
  | error e => simp [hc, Except.toOption] at h
  | ok p =>
      simp only [hc, Except.toOption, Option.map_some, Option.some.injEq] at h
      exact ⟨p.2, by rw [← h]⟩

/-- **The run lemma**: every reachable manager is in order. -/
theorem wf_of_reachable {m : IOManager S F C} (hm : (manager S F C).Reachable m) : WF m := by
  refine Lib.System.Reachable.invariant (fun m h => ?_) (fun m op m' hm h => ?_) hm
  · exact h ▸ wf_initial
  · obtain ⟨rt, hcall⟩ := step_eq_some h
    obtain ⟨_, _, _, heff⟩ := (call_outcome hm hcall).effect
    exact heff.wf

end IOManager

end Sylar.IO
