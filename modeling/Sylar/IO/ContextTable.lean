/-
# Sylar.IO.ContextTable — growing the context table between other threads' steps.

`addEvent` tests the size of `m_fdContexts` under the read lock, gives the lock up, and only then
takes the write lock and calls `contextResize(fd * 1.5)`.  Here these are two steps of a thread, and
`m_fdContexts` holds addresses, so "the same `FdContext`" is equality of addresses.  Other threads
run between the two steps.

The target of the resize comes from the first test.  If another thread has grown the table beyond it
in between, `resize` makes the table smaller and the contexts cut off are lost, registered events
and all (`registered_event_lost`).  `table_persists_iff`: a run keeps every context at its index,
and every context with events within reach, exactly when none of its resizes does that.
-/
import Sylar.IO.Effect
import Sylar.IO.IOManager

namespace Sylar.IO

open Sylar.Scheduler

variable {ι S F C : Type}

/-! ## Threads and the table -/

/-- Where a thread is inside one of the event operations. -/
inductive Pc (S F C : Type)
  /-- Not inside one. -/
  | outside
  /-- In `addEvent`, past the unlocking of a test that found the table too small. -/
  | grow (op : Op S F C)
  /-- Past the look-up, with the address of the context. -/
  | body (op : Op S F C) (addr : Nat)

/-- `m_fdContexts` as the vector of pointers it is; `heap` is every `FdContext` ever allocated. -/
structure Shared (ι S F C : Type) where
  m_fdContexts : List Nat
  heap : List (FdContext S F C)
  books : Books S F C
  pc : ι → Pc S F C

/-- A step: the start of an operation up to its look-up or failed test, the write-locked growth, the
locked body, and `idle`'s processing of an event whose `data.ptr` is `addr`. -/
inductive TableAct (ι S F C : Type)
  | start (t : ι) (op : Op S F C)
  | grow (t : ι)
  | body (t : ι)
  | idle (addr : Nat) (r : Ready) (ok : Bool)

/-- `contextResize`: `resize(size)`, then a new `FdContext` in every null slot. -/
def Shared.contextResize (s : Shared ι S F C) (size : Nat) : Shared ι S F C :=
  let n := s.m_fdContexts.length
  { s with
    m_fdContexts := s.m_fdContexts.take size ++ List.range' s.heap.length (size - n)
    heap := s.heap ++ (List.range' n (size - n)).map FdContext.new }

/-- The body of an operation on its context. -/
def Op.run (op : Op S F C) (b : Books S F C) (c : FdContext S F C) :
    Except Fault (Books S F C × FdContext S F C) :=
  match op with
  | .addEvent fd event cb who ok =>
      (addEventLocked b fd c event cb who ok).map fun p => (p.1, p.2.1)
  | .delEvent fd event ok => (delEventLocked b fd c event ok).map fun p => (p.1, p.2.1)
  | .cancelEvent fd event ok => (cancelEventLocked b fd c event ok).map fun p => (p.1, p.2.1)
  | .cancelAll fd ok => (cancelAllLocked b fd c ok).map fun p => (p.1, p.2.1)
  | .idleEvent _ r ok => idleLocked b c r ok

/-- Run a body on the context at an address. -/
def Shared.runAt (s : Shared ι S F C) (op : Op S F C) (addr : Nat) : Option (Shared ι S F C) :=
  match s.heap[addr]? with
  | none => none
  | some c =>
      match op.run s.books c with
      | .error _ => none
      | .ok (b, c') => some { s with books := b, heap := s.heap.set addr c' }

section System

variable [DecidableEq ι]

/-- Move thread `t`. -/
def Shared.goto (s : Shared ι S F C) (t : ι) (pc : Pc S F C) : Shared ι S F C :=
  { s with pc := Function.update s.pc t pc }

/-- The read-locked part: the test against the size, and the look-up behind it. -/
def Shared.start (s : Shared ι S F C) (t : ι) (op : Op S F C) : Option (Shared ι S F C) :=
  match s.pc t, op with
  | .outside, .idleEvent .. => none
  | .outside, op =>
      match s.m_fdContexts[op.fd]?, op with
      | some addr, _ => some (s.goto t (.body op addr))
      | none, .addEvent .. => some (s.goto t (.grow op))
      -- `delEvent`, `cancelEvent` and `cancelAll` answer `false`
      | none, _ => some s
  | _, _ => none

/-- The write-locked part of `addEvent`: `contextResize(fd * 1.5); fd_ctx = m_fdContexts[fd]`. -/
def Shared.grow (s : Shared ι S F C) (t : ι) : Option (Shared ι S F C) :=
  match s.pc t with
  | .grow op =>
      let s' := s.contextResize (op.fd * 3 / 2)
      match s'.m_fdContexts[op.fd]? with
      | none => none
      | some addr => some (s'.goto t (.body op addr))
  | _ => none

/-- The part under the context's mutex. -/
def Shared.body (s : Shared ι S F C) (t : ι) : Option (Shared ι S F C) :=
  match s.pc t with
  | .body op addr => (s.goto t .outside).runAt op addr
  | _ => none

/-- The table its constructor leaves, and every thread outside. -/
def Shared.initial : Shared ι S F C :=
  Shared.contextResize ⟨[], [], ⟨0, fun _ => none, []⟩, fun _ => .outside⟩ 32

/-- All interleavings of event operations on a shared table. -/
def sharedTable (ι S F C : Type) [DecidableEq ι] :
    Lib.System (Shared ι S F C) (TableAct ι S F C) where
  init s := s = .initial
  step s a :=
    match a with
    | .start t op => s.start t op
    | .grow t => s.grow t
    | .body t => s.body t
    | .idle addr r ok => s.runAt (.idleEvent 0 r ok) addr

/-! ## What a run keeps -/

/-- A run keeps the table: between any two of its states, whatever context is at an index stays
there; and in each of them a context with events is the one found at its descriptor. -/
def TablePersists (as : List (TableAct ι S F C)) : Prop :=
  ∀ (bs cs ds : List (TableAct ι S F C)) (s₁ s₂ : Shared ι S F C), as = bs ++ (cs ++ ds) →
    (sharedTable ι S F C).exec .initial bs = some s₁ →
    (sharedTable ι S F C).exec s₁ cs = some s₂ →
    (∀ fd addr : Nat, s₁.m_fdContexts[fd]? = some addr → s₂.m_fdContexts[fd]? = some addr) ∧
      ∀ (addr : Nat) (c : FdContext S F C), s₂.heap[addr]? = some c → c.events ≠ Events.empty →
        s₂.m_fdContexts[c.fd]? = some addr

/-- The step is not a resize to less than the table has. -/
def NoShrink (s : Shared ι S F C) : TableAct ι S F C → Prop
  | .grow t =>
      match s.pc t with
      | .grow op => s.m_fdContexts.length ≤ op.fd * 3 / 2
      | _ => True
  | _ => True

/-! ## Bodies leave the descriptor of a context alone -/

section Frame

omit [DecidableEq ι]

theorem setContext_fd (c : FdContext S F C) (ctx : EventContext S F C) (e : Event) :
    (c.setContext ctx e).fd = c.fd := by
  cases e <;> rfl

theorem triggerEvent_fd {c c' : FdContext S F C} {e : Event} {out : List (S × Work F C)}
    (h : c.triggerEvent e = .ok (c', out)) : c'.fd = c.fd := by
  simp only [FdContext.triggerEvent] at h
  split at h
  · split at h
    · cases h
    · split at h
      · cases h
      · split at h
        all_goals
          simp only [Except.ok.injEq, Prod.mk.injEq] at h
          rw [← h.1, setContext_fd]
  · cases h

theorem fire_fd {b b' : Books S F C} {c c' : FdContext S F C} {e : Event}
    (h : fire b c e = .ok (b', c')) : c'.fd = c.fd := by
  simp only [fire] at h
  cases ht : c.triggerEvent e with
  | error f => simp [ht] at h
  | ok p =>
      simp only [ht, Except.ok.injEq, Prod.mk.injEq] at h
      exact h.2 ▸ triggerEvent_fd ht

theorem fireIf_fd {m : Events} {b b' : Books S F C} {c c' : FdContext S F C} {e : Event}
    (h : fireIf m b c e = .ok (b', c')) : c'.fd = c.fd := by
  simp only [fireIf] at h
  split at h
  · exact fire_fd h
  · simp only [Except.ok.injEq, Prod.mk.injEq] at h
    rw [h.2]

theorem addEventLocked_fd {b b' : Books S F C} {fd : Nat} {c c' : FdContext S F C} {e : Event}
    {cb : Option C} {who : Caller S F} {ok : Bool} {rt : Int}
    (h : addEventLocked b fd c e cb who ok = .ok (b', c', rt)) : c'.fd = c.fd := by
  simp only [addEventLocked] at h
  split at h
  · cases h
  · split at h
    · simp only [Except.ok.injEq, Prod.mk.injEq] at h
      rw [h.2.1]
    · split at h
      · cases h
      · split at h
        · cases h
        · split at h
          · simp only [Except.ok.injEq, Prod.mk.injEq] at h
            rw [← h.2.1, setContext_fd]
          · split at h
            · simp only [Except.ok.injEq, Prod.mk.injEq] at h
              rw [← h.2.1, setContext_fd]
            · cases h

theorem delEventLocked_fd {b b' : Books S F C} {fd : Nat} {c c' : FdContext S F C} {e : Event}
    {ok rt : Bool} (h : delEventLocked b fd c e ok = .ok (b', c', rt)) : c'.fd = c.fd := by
  simp only [delEventLocked] at h
  split at h
  all_goals
    simp only [Except.ok.injEq, Prod.mk.injEq] at h
    rw [← h.2.1]
  exact setContext_fd _ _ _

theorem cancelEventLocked_fd {b b' : Books S F C} {fd : Nat} {c c' : FdContext S F C} {e : Event}
    {ok rt : Bool} (h : cancelEventLocked b fd c e ok = .ok (b', c', rt)) : c'.fd = c.fd := by
  simp only [cancelEventLocked] at h
  split at h
  · simp only [Except.ok.injEq, Prod.mk.injEq] at h
    rw [← h.2.1]
  · split at h
    · cases h
    · rename_i hfire
      simp only [Except.ok.injEq, Prod.mk.injEq] at h
      exact h.2.1 ▸ fire_fd hfire

theorem cancelAllLocked_fd {b b' : Books S F C} {fd : Nat} {c c' : FdContext S F C}
    {ok rt : Bool} (h : cancelAllLocked b fd c ok = .ok (b', c', rt)) : c'.fd = c.fd := by
  simp only [cancelAllLocked] at h
  split at h
  · simp only [Except.ok.injEq, Prod.mk.injEq] at h
    rw [← h.2.1]
  · split at h
    · simp only [Except.ok.injEq, Prod.mk.injEq] at h
      rw [← h.2.1]
    · split at h
      · cases h
      · rename_i hread
        split at h
        · cases h
        · rename_i hwrite
          split at h
          · simp only [Except.ok.injEq, Prod.mk.injEq] at h
            exact h.2.1 ▸ (fireIf_fd hwrite).trans (fireIf_fd hread)
          · cases h

theorem idleLocked_fd {b b' : Books S F C} {c c' : FdContext S F C} {r : Ready} {ok : Bool}
    (h : idleLocked b c r ok = .ok (b', c')) : c'.fd = c.fd := by
  simp only [idleLocked] at h
  split at h
  · simp only [Except.ok.injEq, Prod.mk.injEq] at h
    rw [← h.2]
  · split at h
    · simp only [Except.ok.injEq, Prod.mk.injEq] at h
      rw [← h.2]
    · split at h
      · cases h
      · rename_i hread
        exact (fireIf_fd h).trans (fireIf_fd hread)

/-- No operation changes the descriptor of a context. -/
theorem run_fd {op : Op S F C} {b b' : Books S F C} {c c' : FdContext S F C}
    (h : op.run b c = .ok (b', c')) : c'.fd = c.fd := by
  have hmap : ∀ {R : Type} {x : Except Fault (Books S F C × FdContext S F C × R)},
      x.map (fun p => (p.1, p.2.1)) = .ok (b', c') → ∃ rt, x = .ok (b', c', rt) := by
    intro R x hx
    cases x with
    | error e => simp [Except.map] at hx
    | ok p =>
        simp only [Except.map, Except.ok.injEq, Prod.mk.injEq] at hx
        exact ⟨p.2.2, by rw [← hx.1, ← hx.2]⟩
  cases op with
  | addEvent fd event cb who ok =>
      obtain ⟨rt, h⟩ := hmap h
      exact addEventLocked_fd h
  | delEvent fd event ok =>
      obtain ⟨rt, h⟩ := hmap h
      exact delEventLocked_fd h
  | cancelEvent fd event ok =>
      obtain ⟨rt, h⟩ := hmap h
      exact cancelEventLocked_fd h
  | cancelAll fd ok =>
      obtain ⟨rt, h⟩ := hmap h
      exact cancelAllLocked_fd h
  | idleEvent fd r ok => exact idleLocked_fd h

end Frame

/-! ## One step -/

/-- The heap afterwards holds the contexts it held, each still for its descriptor. -/
def SameContexts (s s' : Shared ι S F C) : Prop :=
  s'.heap.length = s.heap.length ∧
    ∀ (addr : Nat) (c' : FdContext S F C), s'.heap[addr]? = some c' →
      ∃ c, s.heap[addr]? = some c ∧ c'.fd = c.fd

omit [DecidableEq ι] in
theorem runAt_spec {s s' : Shared ι S F C} {op : Op S F C} {addr : Nat}
    (h : s.runAt op addr = some s') :
    s'.m_fdContexts = s.m_fdContexts ∧ SameContexts s s' := by
  simp only [Shared.runAt] at h
  cases hc : s.heap[addr]? with
  | none => simp [hc] at h
  | some c =>
      cases hr : op.run s.books c with
      | error e => simp [hc, hr] at h
      | ok p =>
          obtain ⟨b, c'⟩ := p
          simp only [hc, hr, Option.some.injEq] at h
          subst h
          refine ⟨rfl, List.length_set, fun a d hd => ?_⟩
          by_cases ha : a = addr
          · subst ha
            rw [List.getElem?_set_self', hc] at hd
            obtain rfl : c' = d := by simpa using hd
            exact ⟨c, hc, run_fd hr⟩
          · rw [List.getElem?_set_ne (Ne.symm ha)] at hd
            exact ⟨d, hd, rfl⟩

/-- **What a step can do to the table**: nothing, or the resize of an `addEvent` past its test. -/
theorem step_cases {s s' : Shared ι S F C} {a : TableAct ι S F C}
    (h : (sharedTable ι S F C).step s a = some s') :
    (s'.m_fdContexts = s.m_fdContexts ∧ SameContexts s s') ∨
      ∃ t op, a = .grow t ∧ s.pc t = .grow op ∧
        s'.m_fdContexts = (s.contextResize (op.fd * 3 / 2)).m_fdContexts ∧
        s'.heap = (s.contextResize (op.fd * 3 / 2)).heap := by
  have hrefl : SameContexts s s := ⟨rfl, fun addr c h => ⟨c, h, rfl⟩⟩
  cases a with
  | start t op =>
      refine .inl ?_
      simp only [sharedTable, Shared.start] at h
      split at h
      · cases h
      · split at h
        all_goals
          simp only [Option.some.injEq] at h
          subst h
          exact ⟨rfl, hrefl⟩
      · cases h
  | grow t =>
      simp only [sharedTable, Shared.grow] at h
      split at h
      · rename_i op hpc
        split at h
        · cases h
        · simp only [Option.some.injEq] at h
          subst h
          exact .inr ⟨t, op, rfl, hpc, rfl, rfl⟩
      · cases h
  | body t =>
      simp only [sharedTable, Shared.body] at h
      split at h
      · rename_i op addr _
        exact .inl (runAt_spec (s := s.goto t .outside) h)
      · cases h
  | idle addr r ok => exact .inl (runAt_spec h)

/-! ## Runs that keep the table -/

omit [DecidableEq ι] in
/-- A resize to at least the size there is appends. -/
theorem contextResize_of_le {s : Shared ι S F C} {size : Nat} (h : s.m_fdContexts.length ≤ size) :
    (s.contextResize size).m_fdContexts = s.m_fdContexts ++
      List.range' s.heap.length (size - s.m_fdContexts.length) := by
  simp only [Shared.contextResize, List.take_of_length_le h]

/-- Every context is the one found at its descriptor. -/
def Placed (s : Shared ι S F C) : Prop :=
  ∀ (addr : Nat) (c : FdContext S F C), s.heap[addr]? = some c → s.m_fdContexts[c.fd]? = some addr

omit [DecidableEq ι] in
theorem placed_contextResize {s : Shared ι S F C} (hs : Placed s) {size : Nat}
    (h : s.m_fdContexts.length ≤ size) : Placed (s.contextResize size) := by
  intro addr c hc
  rw [contextResize_of_le h]
  simp only [Shared.contextResize] at hc
  by_cases hlt : addr < s.heap.length
  · rw [List.getElem?_append_left hlt] at hc
    have hold := hs addr c hc
    rw [List.getElem?_append_left (List.getElem?_eq_some_iff.mp hold).1, hold]
  · rw [List.getElem?_append_right (Nat.le_of_not_lt hlt), List.getElem?_map] at hc
    obtain ⟨fd, hfd, rfl⟩ := Option.map_eq_some_iff.mp hc
    obtain ⟨hi, hval⟩ := List.getElem?_eq_some_iff.mp hfd
    rw [List.length_range'] at hi
    rw [List.getElem_range', Nat.one_mul] at hval
    have hnew : (FdContext.new fd : FdContext S F C).fd = fd := rfl
    rw [hnew, ← hval, List.getElem?_append_right (by omega), List.getElem?_range' (by omega)]
    simp only [Option.some.injEq]
    omega

/-- A step that does not shrink the table keeps every index. -/
theorem step_persists {s s' : Shared ι S F C} {a : TableAct ι S F C} (hc : NoShrink s a)
    (h : (sharedTable ι S F C).step s a = some s') {fd addr : Nat}
    (hfd : s.m_fdContexts[fd]? = some addr) : s'.m_fdContexts[fd]? = some addr := by
  rcases step_cases h with ⟨htable, -⟩ | ⟨t, op, rfl, hpc, htable, -⟩
  · rw [htable, hfd]
  · simp only [NoShrink, hpc] at hc
    rw [htable, contextResize_of_le hc,
      List.getElem?_append_left (List.getElem?_eq_some_iff.mp hfd).1, hfd]

theorem step_placed {s s' : Shared ι S F C} {a : TableAct ι S F C} (hs : Placed s)
    (hc : NoShrink s a) (h : (sharedTable ι S F C).step s a = some s') : Placed s' := by
  rcases step_cases h with ⟨htable, -, hsame⟩ | ⟨t, op, rfl, hpc, htable, hheap⟩
  · intro addr c hc'
    obtain ⟨d, hd, hfd⟩ := hsame addr c hc'
    rw [htable, hfd, hs addr d hd]
  · simp only [NoShrink, hpc] at hc
    intro addr c hc'
    rw [hheap] at hc'
    rw [htable]
    exact placed_contextResize hs hc addr c hc'

/-- **The run lemma**: a run that never shrinks the table keeps every index and every context's
place. -/
theorem exec_persists : ∀ {as : List (TableAct ι S F C)} {s s' : Shared ι S F C},
    (sharedTable ι S F C).Along NoShrink s as → (sharedTable ι S F C).exec s as = some s' →
    Placed s → Placed s' ∧
      ∀ fd addr : Nat, s.m_fdContexts[fd]? = some addr → s'.m_fdContexts[fd]? = some addr
  | [], s, s', _, h, hp => by
      obtain rfl := Option.some.inj h
      exact ⟨hp, fun fd addr hfd => hfd⟩
  | a :: as, s, s', hc, h, hp => by
      obtain ⟨t, ht, hrest⟩ := Option.bind_eq_some_iff.mp h
      obtain ⟨hplaced, hkeep⟩ := exec_persists (hc.2 t ht) hrest (step_placed hp hc.1 ht)
      exact ⟨hplaced, fun fd addr hfd => hkeep fd addr (step_persists hc.1 ht hfd)⟩

/-- A resize below the size loses the last context. -/
theorem step_shrinks {s s' : Shared ι S F C} {a : TableAct ι S F C} (hc : ¬ NoShrink s a)
    (h : (sharedTable ι S F C).step s a = some s') :
    ∃ fd addr : Nat, s.m_fdContexts[fd]? = some addr ∧ s'.m_fdContexts[fd]? = none := by
  have hgrow : ∃ t op, a = .grow t ∧ s.pc t = .grow op ∧ op.fd * 3 / 2 < s.m_fdContexts.length := by
    cases a with
    | grow t =>
        simp only [NoShrink] at hc
        split at hc
        · rename_i op hpc
          exact ⟨t, op, rfl, hpc, by omega⟩
        · exact absurd trivial hc
    | start | body | idle => exact absurd trivial hc
  obtain ⟨t, op, rfl, hpc, hlt⟩ := hgrow
  rcases step_cases h with ⟨htable, -⟩ | ⟨t', op', ha, hpc', htable, -⟩
  · exfalso
    simp only [sharedTable, Shared.grow, hpc] at h
    split at h
    · cases h
    · simp only [Option.some.injEq] at h
      subst h
      have hlen := congrArg List.length htable
      simp only [Shared.goto, Shared.contextResize, List.length_append, List.length_take,
        List.length_range'] at hlen
      omega
  · obtain rfl := TableAct.grow.inj ha
    obtain rfl : op = op' := by
      rw [hpc] at hpc'
      exact Pc.grow.inj hpc'
    refine ⟨op.fd * 3 / 2, _, List.getElem?_eq_getElem hlt, ?_⟩
    rw [htable, List.getElem?_eq_none]
    simp only [Shared.contextResize, List.length_append, List.length_take, List.length_range']
    omega

omit [DecidableEq ι] in
theorem placed_initial : Placed (Shared.initial : Shared ι S F C) :=
  placed_contextResize (fun addr c h => by cases h) (Nat.zero_le _)

/-- **The table persists** in a run exactly when none of its resizes is to less than the size the
table has by then. -/
theorem table_persists_iff {as : List (TableAct ι S F C)} {s : Shared ι S F C}
    (h : (sharedTable ι S F C).exec .initial as = some s) :
    TablePersists as ↔ (sharedTable ι S F C).Along NoShrink .initial as := by
  constructor
  · intro hp
    by_contra hc
    obtain ⟨bs, a, cs, t, t', rfl, hbs, hstep, ha⟩ := Lib.System.exists_violation h hc
    obtain ⟨fd, addr, hfd, hlost⟩ := step_shrinks ha hstep
    obtain ⟨hkeep, -⟩ := hp bs [a] cs t t' rfl hbs (by simp [hstep])
    rw [hkeep fd addr hfd] at hlost
    cases hlost
  · rintro hc bs cs ds s₁ s₂ rfl hbs hcs
    obtain ⟨hal, hrest⟩ := Lib.System.along_append hc
    obtain ⟨hplaced, -⟩ := exec_persists hal hbs placed_initial
    obtain ⟨hal', -⟩ := Lib.System.along_append (hrest s₁ hbs)
    obtain ⟨hplaced', hkeep⟩ := exec_persists hal' hcs hplaced
    exact ⟨hkeep, fun addr c hc' _ => hplaced' addr c hc'⟩

end System

/-! ## A stale test -/

/-- A call of `addEvent(fd, READ)` from a scheduler thread. -/
def addRead (fd : Nat) : Op Nat Nat Nat := .addEvent fd .read none ⟨some 0, 7, .exec⟩ true

/-- One thread grows the table for descriptor 50 and registers it. -/
def growRun : List (TableAct Bool Nat Nat Nat) :=
  [.start false (addRead 50), .grow false, .body false]

theorem table_persists_grow :
    TablePersists growRun ↔ (sharedTable Bool Nat Nat Nat).Along NoShrink .initial growRun :=
  table_persists_iff (s := ((sharedTable Bool Nat Nat Nat).exec .initial growRun).get (by decide))
    (Option.some_get _).symm

/-- Two threads find the table (of 32) too small, for descriptors 50 and 33; the first resizes to 75
and registers its event, then the second resizes to 49. -/
def shrinkRun : List (TableAct Bool Nat Nat Nat) :=
  [.start false (addRead 50), .start true (addRead 33), .grow false, .body false, .grow true]

/-- **A registered event is lost**: its context is not in the table any more, and `delEvent`,
`cancelEvent` and `cancelAll` answer `false` for it. -/
theorem registered_event_lost :
    ¬ TablePersists shrinkRun ∧
      ∃ s, (sharedTable Bool Nat Nat Nat).exec .initial shrinkRun = some s ∧
        (∃ c ∈ s.heap, c.fd = 50 ∧ c.events.read = true) ∧ s.m_fdContexts.length ≤ 50 := by
  have hlost :
      (∃ c ∈ (((sharedTable Bool Nat Nat Nat).exec .initial shrinkRun).get (by decide)).heap,
        c.fd = 50 ∧ c.events.read = true) ∧
      (((sharedTable Bool Nat Nat Nat).exec .initial shrinkRun).get (by decide)).m_fdContexts.length
        ≤ 50 := by
    decide +kernel
  refine ⟨fun hp => ?_, _, (Option.some_get _).symm, hlost⟩
  obtain ⟨-, hfound⟩ := hp [] shrinkRun [] .initial _ rfl rfl (Option.some_get (by decide)).symm
  obtain ⟨⟨c, hc, hfd, hread⟩, hlen⟩ := hlost
  obtain ⟨addr, haddr⟩ := List.mem_iff_getElem?.mp hc
  have hne : c.events ≠ Events.empty := fun h => by
    rw [h] at hread
    cases hread
  have hat := hfound addr c haddr hne
  rw [hfd, List.getElem?_eq_none hlen] at hat
  cases hat

end Sylar.IO
