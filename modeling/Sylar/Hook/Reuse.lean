/-
# Sylar.Hook.Reuse — descriptors that come and go, and their contexts (`socket`, `accept` and `close`
in `sylar/hook.cpp` over `sylar/fd_manager.cpp`).

The table of contexts and the descriptors belong to the process; whether a wrapper looks at the table
depends on the thread.  `socket` makes a context on a thread with the hook, `accept` on every thread,
and `close` drops one on a thread with the hook only.  The kernel gives a number out again at once.

The threads here take these calls apart at every call of the kernel and every section under the
manager's lock.  `contexts_current` says when the table cannot lag behind: where a descriptor is closed
only while there is no context for it and nobody is about to make one, and no number is beyond the
table.  A close without the hook is enough to break it (`close_leaves_context`).
-/
import Sylar.Fd.FdManager
import Sylar.Lib.Transition

namespace Sylar.Hook

open Fd (FdCtx FdManager Kernel noTimeout)
open Lib (guarded)

/-! ## Threads -/

/-- Where a thread is. -/
inductive FdPc
  | idle
  /-- The kernel has given out `fd`; before the look in `get(fd, true)`. -/
  | opened (fd : Int)
  /-- Between the two locks of `get(fd, true)`. -/
  | creating (fd : Int)
  /-- `close(fd)` has found a context; before `cancelAll`. -/
  | cancelAll (fd : Int)
  | del (fd : Int)
  /-- Before `close_f(fd)`. -/
  | closeF (fd : Int)
  deriving DecidableEq, Repr

/-- What a `get(fd, true)` answered, and the kernel's flag at that moment. -/
structure Got where
  fd : Int
  ctx : Option FdCtx
  nonblock : Bool
  deriving DecidableEq, Repr

/-- A process: descriptors denote kernel objects, which are numbered as they are made. -/
structure FdTable (T : Type) where
  fds : FdManager
  denotes : Int → Option Nat
  objects : Nat
  /-- The object a context was made for, by the context's handle. -/
  madeFor : List (Option Nat)
  pc : T → FdPc
  got : List Got
  /-- A `get(fd, true)` has stored outside the table. -/
  fault : Bool

/-- A step of a thread. -/
inductive FdAct (T : Type)
  /-- `socket_f` answers `fd`; `nonblock` is `SOCK_NONBLOCK`. -/
  | socket (t : T) (t_hook_enable : Bool) (fd : Int) (nonblock : Bool)
  /-- `accept_f` answers `fd`. -/
  | accept (t : T) (fd : Int) (nonblock : Bool)
  | look (t : T)
  | create (t : T)
  /-- `close(fd)` up to the look at the table. -/
  | close (t : T) (t_hook_enable : Bool) (fd : Int)
  | cancelAll (t : T)
  | del (t : T)
  | closeF (t : T)
  /-- Some call sets members of a context. -/
  | store (p : Nat) (ctx : FdCtx)
  deriving DecidableEq, Repr

namespace FdTable

variable {T : Type} [DecidableEq T]

def goto (s : FdTable T) (t : T) (pc : FdPc) : FdTable T :=
  { s with pc := Function.update s.pc t pc }

/-- A new socket under the number `fd`. -/
def openF (s : FdTable T) (fd : Int) (nonblock : Bool) : FdTable T :=
  { s with
    fds := { s.fds with kernel :=
      { fstat := Function.update s.fds.kernel.fstat fd (some true)
        nonblock := Function.update s.fds.kernel.nonblock fd nonblock } }
    denotes := Function.update s.denotes fd (some s.objects)
    objects := s.objects + 1 }

/-- The number is free again. -/
def closeF (s : FdTable T) (fd : Int) : FdTable T :=
  { s with
    fds := { s.fds with kernel :=
      { fstat := Function.update s.fds.kernel.fstat fd none
        nonblock := Function.update s.fds.kernel.nonblock fd false } }
    denotes := Function.update s.denotes fd none }

/-- `get(fd, true)` returns the context at `p`. -/
def answer (s : FdTable T) (fd : Int) (p : Nat) : FdTable T :=
  { s with got := s.got ++ [⟨fd, s.fds.heap[p]?, s.fds.kernel.nonblock fd⟩] }

/-- Take a step. -/
def step (s : FdTable T) : FdAct T → Option (FdTable T)
  | .socket t t_hook_enable fd nonblock =>
      guarded (s.pc t = .idle ∧ 0 ≤ fd ∧ s.denotes fd = none)
        ((s.openF fd nonblock).goto t (if t_hook_enable then .opened fd else .idle))
  | .accept t fd nonblock =>
      guarded (s.pc t = .idle ∧ 0 ≤ fd ∧ s.denotes fd = none)
        ((s.openF fd nonblock).goto t (.opened fd))
  | .look t =>
      match s.pc t with
      | .opened fd =>
          match s.fds.get fd false with
          | none => none
          | some (_, some p) => some ((s.answer fd p).goto t .idle)
          | some (_, none) => some (s.goto t (.creating fd))
      | _ => none
  | .create t =>
      match s.pc t with
      | .creating fd =>
          match s.fds.create fd with
          | some (fds, some p) =>
              some ({ s with fds := fds, madeFor := s.madeFor ++ [s.denotes fd] }.answer fd p
                |>.goto t .idle)
          | _ => some { s with fault := true }
      | _ => none
  | .close t t_hook_enable fd =>
      if s.pc t = .idle then
        if t_hook_enable then
          match s.fds.get fd false with
          | none => none
          | some (_, some _) => some (s.goto t (.cancelAll fd))
          | some (_, none) => some (s.goto t (.closeF fd))
        else some (s.goto t (.closeF fd))
      else none
  | .cancelAll t =>
      match s.pc t with
      | .cancelAll fd => some (s.goto t (.del fd))
      | _ => none
  | .del t =>
      match s.pc t with
      | .del fd => (s.fds.del fd).map fun fds => { s with fds := fds }.goto t (.closeF fd)
      | _ => none
  | .closeF t =>
      match s.pc t with
      | .closeF fd => some ((s.closeF fd).goto t .idle)
      | _ => none
  | .store p ctx => some { s with fds := { s.fds with heap := s.fds.heap.set p ctx } }

/-- The thread is about to make a context for `fd`. -/
def Pending (s : FdTable T) (t : T) (fd : Int) : Prop :=
  s.pc t = .opened fd ∨ s.pc t = .creating fd

/-- The context the manager holds for `fd`. -/
def entry (s : FdTable T) (fd : Int) : Option Nat := (Fd.slot s.fds.m_datas fd).join

end FdTable

/-- The answer is a context as a new descriptor deserves: blocking for its user and without timeouts,
while the kernel does not block. -/
def Got.Fresh (g : Got) : Prop := g.ctx = some (FdCtx.untouched g.fd) ∧ g.nonblock = true

/-- All runs of the threads `T`, from a process with some descriptors and an empty table. -/
def descriptors (T : Type) [DecidableEq T] : Lib.System (FdTable T) (FdAct T) where
  init s := s.fds = FdManager.new s.fds.kernel ∧
    (∀ fd, (s.denotes fd).isSome = (s.fds.kernel.fstat fd).isSome) ∧
    (∀ fd o, s.denotes fd = some o → o < s.objects) ∧
    s.madeFor = [] ∧ (∀ t, s.pc t = .idle) ∧ s.got = [] ∧ s.fault = false
  step s a := if s.fault then none else s.step a

namespace FdTable

variable {T : Type} [DecidableEq T]

/-- **The table is current**: a context was made for the object its descriptor denotes, and every
`get(fd, true)` behind a `socket` or an `accept` has answered a fresh one. -/
structure Current (s : FdTable T) : Prop where
  current : ∀ fd p, s.entry fd = some p → ∃ o, s.denotes fd = some o ∧ s.madeFor[p]? = some (some o)
  fresh : ∀ g ∈ s.got, g.Fresh
  safe : s.fault = false

/-- A descriptor is closed only while the manager holds no context for it and nobody is about to make
one; and contexts are made for numbers of the table. -/
def Orderly (s : FdTable T) : FdAct T → Prop
  | .closeF t =>
      match s.pc t with
      | .closeF fd => s.entry fd = none ∧ ∀ u, ¬ s.Pending u fd
      | _ => True
  | .create t =>
      match s.pc t with
      | .creating fd => fd < 64
      | _ => True
  | _ => True

/-! ## What the runs keep -/

/-- The invariant of orderly runs. -/
structure Inv (s : FdTable T) : Prop extends Current s where
  size : s.fds.m_datas.length = 64
  made : s.madeFor.length = s.fds.heap.length
  pending : ∀ t fd, s.Pending t fd → 0 ≤ fd ∧ s.entry fd = none ∧ s.fds.kernel.fstat fd = some true
  alone : ∀ t u fd, s.Pending t fd → s.Pending u fd → t = u
  known : ∀ fd, (s.denotes fd).isSome = (s.fds.kernel.fstat fd).isSome

variable {s s' : FdTable T} {t u : T} {fd d : Int} {pc : FdPc} {p : Nat}

theorem pending_goto (h : ∀ fd, pc = .opened fd ∨ pc = .creating fd → s.Pending t fd)
    (hu : (s.goto t pc).Pending u fd) : s.Pending u fd := by
  by_cases hut : u = t
  · subst hut
    simp only [Pending, goto, Function.update_self] at hu
    exact h fd hu
  · simpa only [Pending, goto, Function.update_of_ne hut] using hu

/-- A thread moves on, and is about to make no context but what it was. -/
theorem Inv.goto (h : s.Inv) (t : T) (pc : FdPc)
    (hpc : ∀ fd, pc = .opened fd ∨ pc = .creating fd → s.Pending t fd) : (s.goto t pc).Inv where
  toCurrent := ⟨h.current, h.fresh, h.safe⟩
  size := h.size
  made := h.made
  pending := fun u fd hu => h.pending u fd (pending_goto hpc hu)
  alone := fun u v fd hu hv => h.alone u v fd (pending_goto hpc hu) (pending_goto hpc hv)
  known := h.known

/-- The kernel gives out a number that is not in use. -/
theorem Inv.openF (h : s.Inv) (h0 : 0 ≤ fd) (hfree : s.denotes fd = none) (nonblock : Bool) (t : T)
    (hidle : s.pc t = .idle) (hpc : pc = .idle ∨ pc = .opened fd) :
    ((s.openF fd nonblock).goto t pc).Inv := by
  -- nothing is held for the number, and nobody waits to make a context for it
  have hentry : s.entry fd = none := by
    cases he : s.entry fd with
    | none => rfl
    | some p =>
        obtain ⟨o, ho, -⟩ := h.current fd p he
        rw [hfree] at ho
        cases ho
  have hnobody : ∀ u, ¬ s.Pending u fd := by
    intro u hu
    have hk := h.known fd
    rw [hfree, (h.pending u fd hu).2.2] at hk
    cases hk
  have hback : ∀ u d, ((s.openF fd nonblock).goto t pc).Pending u d →
      s.Pending u d ∨ u = t ∧ d = fd := by
    intro u d hu
    by_cases hut : u = t
    · subst hut
      simp only [Pending, FdTable.goto, Function.update_self] at hu
      rcases hpc with rfl | rfl
      · simp at hu
      · exact .inr ⟨rfl, by simpa [eq_comm] using hu⟩
    · exact .inl (by simpa only [Pending, FdTable.goto, FdTable.openF, Function.update_of_ne hut]
        using hu)
  refine ⟨⟨fun d p hp => ?_, h.fresh, h.safe⟩, h.size, h.made, fun u d hu => ?_, fun u v d hu hv => ?_,
    fun d => ?_⟩
  · have hne : d ≠ fd := by
      rintro rfl
      exact absurd (hp.symm.trans hentry) (by simp)
    obtain ⟨o, ho, hm⟩ := h.current d p hp
    exact ⟨o, (Function.update_of_ne hne _ _).trans ho, hm⟩
  · rcases hback u d hu with hold | ⟨-, rfl⟩
    · have hne : d ≠ fd := fun heq => hnobody u (heq ▸ hold)
      obtain ⟨hd, he, hk⟩ := h.pending u d hold
      exact ⟨hd, he, (Function.update_of_ne hne _ _).trans hk⟩
    · exact ⟨h0, hentry, Function.update_self ..⟩
  · rcases hback u d hu with hold | ⟨rfl, rfl⟩
    · rcases hback v d hv with hold' | ⟨-, rfl⟩
      · exact h.alone u v d hold hold'
      · exact absurd hold (hnobody u)
    · rcases hback v _ hv with hold' | ⟨rfl, -⟩
      · exact absurd hold' (hnobody v)
      · rfl
  · show (Function.update s.denotes fd _ d).isSome = (Function.update s.fds.kernel.fstat fd _ d).isSome
    by_cases hd : d = fd
    · subst hd
      rw [Function.update_self, Function.update_self]
      rfl
    · rw [Function.update_of_ne hd, Function.update_of_ne hd]
      exact h.known d

/-- `get(fd, true)` finds the slot empty and makes a context: it is for the object the number denotes. -/
theorem Inv.create (h : s.Inv) (hpc : s.pc t = .creating fd) (hlt : fd < 64) :
    ∃ fds, s.fds.create fd = some (fds, some s.fds.heap.length) ∧
      (({ s with fds := fds, madeFor := s.madeFor ++ [s.denotes fd] }.answer fd s.fds.heap.length).goto
        t .idle).Inv := by
  obtain ⟨h0, hentry, hsock⟩ := h.pending t fd (.inr hpc)
  obtain ⟨o, ho⟩ : ∃ o, s.denotes fd = some o :=
    Option.isSome_iff_exists.mp (by rw [h.known, hsock]; rfl)
  have hsize := h.size
  have hidx : Fd.index s.fds.m_datas fd = some fd.toNat := Fd.index_of_lt h0 (by omega)
  obtain ⟨hnew, hflag⟩ := Fd.new_of_socket hsock
  refine ⟨_, Fd.create_of_index hidx, ?_⟩
  have hentry' : ∀ d, (Fd.slot (s.fds.m_datas.set fd.toNat (some s.fds.heap.length)) d).join
      = if d = fd then some s.fds.heap.length else s.entry d := by
    intro d
    rw [Fd.slot_set hidx]
    split <;> rfl
  -- the thread itself is done, and nobody else was about to make a context for the number
  have hback : ∀ u d, (s.goto t .idle).Pending u d → s.Pending u d ∧ d ≠ fd := by
    intro u d hu
    have hold : s.Pending u d := pending_goto (by simp) hu
    refine ⟨hold, ?_⟩
    rintro rfl
    obtain rfl := h.alone u t d hold (.inr hpc)
    simp [Pending, FdTable.goto] at hu
  refine ⟨⟨fun d p hp => ?_, fun g hg => ?_, h.safe⟩, ?_, ?_, fun u d hu => ?_,
    fun u v d hu hv => h.alone u v d (hback u d hu).1 (hback v d hv).1, fun d => ?_⟩
  · have hp' := (hentry' d).symm.trans hp
    by_cases hd : d = fd
    · rw [if_pos hd] at hp'
      obtain rfl := Option.some.inj hp'
      refine ⟨o, hd ▸ ho, ?_⟩
      show (s.madeFor ++ [s.denotes fd])[s.fds.heap.length]? = _
      rw [← h.made, List.getElem?_concat_length, ho]
    · rw [if_neg hd] at hp'
      obtain ⟨o', ho', hm⟩ := h.current d p hp'
      have hlt := (List.getElem?_eq_some_iff.mp hm).1
      exact ⟨o', ho', (List.getElem?_append_left hlt).trans hm⟩
  · rcases List.mem_append.mp hg with hold | hnewg
    · exact h.fresh g hold
    · obtain rfl := List.mem_singleton.mp hnewg
      refine ⟨?_, hflag⟩
      show (s.fds.heap ++ [(FdCtx.new s.fds.kernel fd).2])[s.fds.heap.length]? = _
      rw [List.getElem?_concat_length, hnew]
  · show (s.fds.m_datas.set _ _).length = 64
    rw [List.length_set, hsize]
  · show (s.madeFor ++ [s.denotes fd]).length = (s.fds.heap ++ [(FdCtx.new s.fds.kernel fd).2]).length
    rw [List.length_append, List.length_append, h.made]
    rfl
  · obtain ⟨hold, hne⟩ := hback u d hu
    obtain ⟨hd0, he, hk⟩ := h.pending u d hold
    refine ⟨hd0, ?_, ?_⟩
    · exact (hentry' d).trans ((if_neg hne).trans he)
    · show (FdCtx.new s.fds.kernel fd).1.fstat d = _
      rw [Fd.new_fstat, hk]
  · show _ = ((FdCtx.new s.fds.kernel fd).1.fstat d).isSome
    rw [Fd.new_fstat]
    exact h.known d

/-- A close of a number for which there is no context, and none on its way. -/
theorem Inv.closeF (h : s.Inv) (hpc : s.pc t = .closeF fd) (hentry : s.entry fd = none)
    (hnobody : ∀ u, ¬ s.Pending u fd) : ((s.closeF fd).goto t .idle).Inv := by
  refine Inv.goto ?_ t .idle (by simp)
  refine ⟨⟨fun d p hp => ?_, h.fresh, h.safe⟩, h.size, h.made, fun u d hu => ?_, h.alone, fun d => ?_⟩
  · have hne : d ≠ fd := by
      rintro rfl
      exact absurd (hp.symm.trans hentry) (by simp)
    obtain ⟨o, ho, hm⟩ := h.current d p hp
    exact ⟨o, (Function.update_of_ne hne _ _).trans ho, hm⟩
  · have hne : d ≠ fd := fun heq => hnobody u (heq ▸ hu)
    obtain ⟨hd, he, hk⟩ := h.pending u d hu
    exact ⟨hd, he, (Function.update_of_ne hne _ _).trans hk⟩
  · show (Function.update s.denotes fd _ d).isSome = (Function.update s.fds.kernel.fstat fd _ d).isSome
    by_cases hd : d = fd
    · subst hd
      rw [Function.update_self, Function.update_self]
      rfl
    · rw [Function.update_of_ne hd, Function.update_of_ne hd]
      exact h.known d

omit [DecidableEq T] in
/-- `del` only takes a context out. -/
theorem Inv.del (h : s.Inv) {fds : FdManager} (hdel : s.fds.del fd = some fds) :
    ({ s with fds := fds } : FdTable T).Inv := by
  obtain ⟨hheap, hkernel, hsize, hentry⟩ := Fd.del_eq_some hdel
  refine ⟨⟨fun d p hp => ?_, h.fresh, h.safe⟩, hsize.trans h.size, ?_, fun u d hu => ?_, h.alone,
    fun d => ?_⟩
  · exact h.current d p (hentry d p hp)
  · exact h.made.trans (congrArg List.length hheap).symm
  · obtain ⟨hd, he, hk⟩ := h.pending u d hu
    refine ⟨hd, ?_, ?_⟩
    · cases hnow : (Fd.slot fds.m_datas d).join with
      | none => exact hnow
      | some p => exact absurd (he.symm.trans (hentry d p hnow)) (by simp)
    · show fds.kernel.fstat d = _
      rw [hkernel, hk]
  · show _ = (fds.kernel.fstat d).isSome
    rw [hkernel]
    exact h.known d

omit [DecidableEq T] in
/-- Members of contexts are not what the table is about. -/
theorem Inv.store (h : s.Inv) (p : Nat) (ctx : FdCtx) :
    ({ s with fds := { s.fds with heap := s.fds.heap.set p ctx } } : FdTable T).Inv :=
  ⟨⟨h.current, h.fresh, h.safe⟩, h.size, by simpa using h.made, h.pending, h.alone, h.known⟩

/-! ## Orderly runs -/

theorem Inv.start (h : (descriptors T).init s) : s.Inv := by
  obtain ⟨hfds, hknown, -, hmade, hidle, hgot, hfault⟩ := h
  have hentry : ∀ fd, s.entry fd = none := by
    intro fd
    unfold entry Fd.slot Fd.index
    rw [hfds]
    simp only [FdManager.new, List.length_replicate, List.getElem?_replicate]
    split
    · rfl
    · split
      · next hin => simp [hin.2]
      · rfl
  have hnobody : ∀ t fd, ¬ s.Pending t fd := by
    intro t fd hp
    simp [Pending, hidle t] at hp
  refine ⟨⟨fun fd p hp => ?_, ?_, hfault⟩, ?_, ?_, fun t fd hp => absurd hp (hnobody t fd),
    fun t _ fd hp => absurd hp (hnobody t fd), hknown⟩
  · rw [hentry fd] at hp
    cases hp
  · rw [hgot]
    simp
  · rw [hfds]
    simp [FdManager.new]
  · rw [hmade, hfds]
    rfl

/-- **One orderly step keeps the invariant.** -/
theorem Inv.step {a : FdAct T} (h : s.Inv) (hc : s.Orderly a) (hstep : s.step a = some s') : s'.Inv := by
  cases a with
  | socket t t_hook_enable fd nonblock =>
      obtain ⟨⟨hidle, h0, hfree⟩, rfl⟩ := Lib.guarded_eq_some.mp hstep
      refine h.openF h0 hfree nonblock t hidle ?_
      cases t_hook_enable with
      | false => exact .inl rfl
      | true => exact .inr rfl
  | accept t fd nonblock =>
      obtain ⟨⟨hidle, h0, hfree⟩, rfl⟩ := Lib.guarded_eq_some.mp hstep
      exact h.openF h0 hfree nonblock t hidle (.inr rfl)
  | look t =>
      simp only [FdTable.step] at hstep
      split at hstep
      · next fd hpc =>
          -- a number that was given out just now has no context
          obtain ⟨-, hentry, -⟩ := h.pending t fd (.inl hpc)
          rw [Fd.get_plain] at hstep
          unfold entry at hentry
          cases hslot : Fd.slot s.fds.m_datas fd with
          | none =>
              rw [hslot] at hstep
              cases hstep
          | some q =>
              rw [hslot] at hstep hentry
              obtain rfl : q = none := hentry
              obtain rfl := Option.some.inj hstep
              exact h.goto t _ fun d hd => .inl (by simp_all)
      · cases hstep
  | create t =>
      simp only [FdTable.step] at hstep
      split at hstep
      · next fd hpc =>
          have hlt : fd < 64 := by simpa [Orderly, hpc] using hc
          obtain ⟨fds, hcreate, hinv⟩ := h.create hpc hlt
          rw [hcreate] at hstep
          exact Option.some.inj hstep ▸ hinv
      · cases hstep
  | close t t_hook_enable fd =>
      simp only [FdTable.step] at hstep
      split at hstep
      · split at hstep
        · split at hstep
          · cases hstep
          · exact Option.some.inj hstep ▸ h.goto t _ (by simp)
          · exact Option.some.inj hstep ▸ h.goto t _ (by simp)
        · exact Option.some.inj hstep ▸ h.goto t _ (by simp)
      · cases hstep
  | cancelAll t =>
      simp only [FdTable.step] at hstep
      split at hstep
      · exact Option.some.inj hstep ▸ h.goto t _ (by simp)
      · cases hstep
  | del t =>
      simp only [FdTable.step] at hstep
      split at hstep
      · obtain ⟨fds, hdel, rfl⟩ := Option.map_eq_some_iff.mp hstep
        exact (h.del hdel).goto t _ (by simp)
      · cases hstep
  | closeF t =>
      simp only [FdTable.step] at hstep
      split at hstep
      · next fd hpc =>
          obtain ⟨hentry, hnobody⟩ : s.entry fd = none ∧ ∀ u, ¬ s.Pending u fd := by
            simpa [Orderly, hpc] using hc
          exact Option.some.inj hstep ▸ h.closeF hpc hentry hnobody
      · cases hstep
  | store p ctx => exact Option.some.inj hstep ▸ h.store p ctx

/-- **`contexts_current`** — in every orderly run the table is current in every state. -/
theorem contexts_current {T : Type} [DecidableEq T] {s : FdTable T}
    (h : (descriptors T).ReachableWhen Orderly s) : s.Current := by
  refine (h.invariant (P := Inv) (fun _ h0 => .start h0) fun s a s' hinv hc hstep => ?_).toCurrent
  have hsafe := hinv.safe
  exact hinv.step hc (by simpa [descriptors, hsafe] using hstep)

/-- Two threads, and no descriptors to begin with. -/
def emptyTable : FdTable Bool :=
  { fds := FdManager.new ⟨fun _ => none, fun _ => false⟩, denotes := fun _ => none, objects := 0
    madeFor := [], pc := fun _ => .idle, got := [], fault := false }

theorem emptyTable_init : (descriptors Bool).init emptyTable :=
  ⟨rfl, fun _ => rfl, (fun _ _ h => by cases h), rfl, fun _ => rfl, rfl, rfl⟩

instance (s : FdTable Bool) : DecidablePred s.Orderly := fun a => by
  unfold Orderly Pending
  cases a <;> dsimp only <;> first | infer_instance | (split <;> infer_instance)

/-- A socket is made, closed and made again by threads with the hook, with a listener's socket beside
it. -/
def hookedRun : List (FdAct Bool) :=
  [.socket true true 3 false, .look true, .create true, .close true true 3, .cancelAll true, .del true,
    .closeF true, .accept false 3 true, .look false, .create false]

theorem current_hookedRun : ∃ s, (descriptors Bool).exec emptyTable hookedRun = some s ∧
    s.Current ∧ s.entry 3 = some 1 :=
  ⟨_, rfl, contexts_current (.exec (.init emptyTable_init) (l := hookedRun) (by decide) rfl), by decide⟩

/-- The other thread, without the hook, closes the socket; its context stays. -/
def plainClose : List (FdAct Bool) :=
  [.socket true true 3 false, .look true, .create true, .close false false 3, .closeF false]

theorem close_leaves_context :
    ¬ ∀ s : FdTable Bool, (descriptors Bool).Reachable s → s.Current := by
  intro h
  have hrun : ∃ s, (descriptors Bool).exec emptyTable plainClose = some s ∧ s.entry 3 = some 0 ∧
      s.denotes 3 = none := ⟨_, rfl, by decide, by decide⟩
  obtain ⟨s, hs, hentry, hgone⟩ := hrun
  obtain ⟨o, ho, -⟩ := (h s (Lib.System.reachable_of_exec emptyTable_init hs)).current 3 0 hentry
  rw [hgone] at ho
  cases ho

end FdTable

end Sylar.Hook
