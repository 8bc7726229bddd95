/-
# Sylar.Fd.FdManager — the table of descriptor contexts (`sylar/fd_manager.{h,cpp}`).

`FdCtx` is what the hooks remember about one descriptor; its constructor runs `init()`, which asks
the kernel what the descriptor is and switches sockets to non-blocking.  `FdManager` keeps one
`FdCtx::ptr` per descriptor in `m_datas`, a vector indexed by the descriptor itself.

A `shared_ptr` is modelled by the position of its object in `heap`, the list of all contexts ever
created, so "the same context" is equality of handles.  An access to `m_datas` outside the vector is
undefined behaviour in the source; here the call faults (`none`).

The vector is created with 64 slots and no method ever resizes it.  `implementsMap_iff` says which
call histories this serves: the manager is the get-or-create registry of `Sylar.Lib.Registry`
exactly when no call names a negative descriptor and no creating `get` names one from 64 on.
-/
import Sylar.Lib.Registry

namespace Sylar.Fd

open Sylar.Lib

/-! ## The kernel as `init()` sees it -/

/-- What `fstat` and `fcntl` know about descriptors. -/
structure Kernel where
  /-- `none` when `fstat` fails, otherwise `S_ISSOCK` of the mode. -/
  fstat : Int → Option Bool
  /-- Whether `O_NONBLOCK` is set in the descriptor's status flags. -/
  nonblock : Int → Bool

/-- `fcntl_f(fd, F_SETFL, flags | O_NONBLOCK)`. -/
def Kernel.setNonblock (k : Kernel) (fd : Int) : Kernel :=
  { k with nonblock := fun d => if d = fd then true else k.nonblock d }

/-! ## `FdCtx` -/

/-- `(uint64_t)-1`, the timeout that means "none". -/
def noTimeout : Nat := 0xffffffffffffffff

/-- The members of `FdCtx`. -/
structure FdCtx where
  m_isInit : Bool
  m_isSocket : Bool
  m_sysNonblock : Bool
  m_userNonblock : Bool
  m_isClosed : Bool
  m_fd : Int
  m_recvTimeout : Nat
  m_sendTimeout : Nat
  deriving DecidableEq, Repr

/-- `FdCtx::init`. -/
def FdCtx.init (k : Kernel) (c : FdCtx) : Kernel × FdCtx :=
  if c.m_isInit then (k, c)
  else
    let isInit := (k.fstat c.m_fd).isSome
    let isSocket := (k.fstat c.m_fd).getD false
    let k' := if isSocket && !k.nonblock c.m_fd then k.setNonblock c.m_fd else k
    (k', { c with
      m_recvTimeout := noTimeout, m_sendTimeout := noTimeout
      m_isInit := isInit, m_isSocket := isSocket
      m_sysNonblock := isSocket, m_userNonblock := false, m_isClosed := false })

/-- The constructor `FdCtx::FdCtx(int fd)`. -/
def FdCtx.new (k : Kernel) (fd : Int) : Kernel × FdCtx :=
  FdCtx.init k
    { m_isInit := false, m_isSocket := false, m_sysNonblock := false, m_userNonblock := false
      m_isClosed := false, m_fd := fd, m_recvTimeout := noTimeout, m_sendTimeout := noTimeout }

/-- The context of a socket that nobody has touched: blocking for its user, and without timeouts. -/
def FdCtx.untouched (fd : Int) : FdCtx :=
  { m_isInit := true, m_isSocket := true, m_sysNonblock := true, m_userNonblock := false
    m_isClosed := false, m_fd := fd, m_recvTimeout := noTimeout, m_sendTimeout := noTimeout }

@[simp] theorem FdCtx.new_fd (k : Kernel) (fd : Int) : (FdCtx.new k fd).2.m_fd = fd := rfl

/-! ## `FdManager` -/

/-- `m_datas`, with the objects its pointers lead to and the kernel `init()` talks to. -/
structure FdManager where
  m_datas : List (Option Nat)
  heap : List FdCtx
  kernel : Kernel

/-- `FdManager::FdManager`: 64 empty slots. -/
def FdManager.new (k : Kernel) : FdManager :=
  { m_datas := List.replicate 64 none, heap := [], kernel := k }

/-- The index expression `m_datas[fd]`: the `int` becomes a `size_t`, so a negative one is far
outside every vector. -/
def index (ds : List (Option Nat)) (fd : Int) : Option Nat :=
  if 0 ≤ fd ∧ fd.toNat < ds.length then some fd.toNat else none

/-- `FdCtx::ptr ctx(new FdCtx(fd)); m_datas[fd] = ctx; return ctx;` -/
def FdManager.create (m : FdManager) (fd : Int) : Option (FdManager × Option Nat) :=
  match index m.m_datas fd with
  | none => none
  | some i =>
      let kc := FdCtx.new m.kernel fd
      let p := m.heap.length
      some ({ m_datas := m.m_datas.set i (some p), heap := m.heap ++ [kc.2], kernel := kc.1 },
        some p)

/-- `FdManager::get`. -/
def FdManager.get (m : FdManager) (fd : Int) (auto_create : Bool) :
    Option (FdManager × Option Nat) :=
  if (m.m_datas.length : Int) ≤ fd then
    if auto_create = false then some (m, none) else m.create fd
  else
    match index m.m_datas fd with
    | none => none
    | some i =>
        let slot := (m.m_datas[i]?).join
        if slot.isSome || !auto_create then some (m, slot) else m.create fd

/-- `FdManager::del`. -/
def FdManager.del (m : FdManager) (fd : Int) : Option FdManager :=
  if (m.m_datas.length : Int) ≤ fd then some m
  else
    match index m.m_datas fd with
    | none => none
    | some i => some { m with m_datas := m.m_datas.set i none }

/-- The two methods as one object; `del` answers nothing. -/
def FdManager.machine : Machine FdManager (RegistryCall Int) (Option Nat) where
  call m
    | .get fd auto_create => m.get fd auto_create
    | .del fd => (m.del fd).map fun m' => (m', none)

/-! ## The partial map the manager stands for -/

/-- Descriptors are the non-negative keys. -/
def isFd (fd : Int) : Bool := decide (0 ≤ fd)

/-- The abstract manager: the registry over descriptors. -/
abbrev FdMap := Registry Int

/-- `m` holds in its vector what `a` maps, each handle to a context of its own descriptor. -/
structure Represents (m : FdManager) (a : FdMap) : Prop where
  size : m.m_datas.length = 64
  fresh : m.heap.length = a.fresh
  entry : ∀ fd, a.entry fd = if 0 ≤ fd then (m.m_datas[fd.toNat]?).join else none
  ctx : ∀ fd p, a.entry fd = some p → ∃ c, m.heap[p]? = some c ∧ c.m_fd = fd

/-- The calls the 64 slots can serve: no negative descriptor, no creation from 64 on. -/
def InTable : RegistryCall Int → Prop
  | .get fd auto_create => 0 ≤ fd ∧ (auto_create = true → fd < 64)
  | .del fd => 0 ≤ fd

instance : DecidablePred InTable := fun o => by
  cases o <;> unfold InTable <;> infer_instance

/-- The manager, from its construction on, answers the history as the map does: every index is
inside the vector, every result is the map's, and each handle leads to its descriptor's context. -/
def ImplementsMap (k : Kernel) (os : List (RegistryCall Int)) : Prop :=
  FdManager.machine.Agree (Registry.machine isFd) Represents (FdManager.new k) Registry.empty os

theorem represents_new (k : Kernel) : Represents (FdManager.new k) Registry.empty where
  size := by simp [FdManager.new]
  fresh := rfl
  entry := fun fd => by
    simp only [Registry.empty, FdManager.new, List.getElem?_replicate]
    split
    · split <;> rfl
    · rfl
  ctx := fun fd p h => by simp [Registry.empty] at h

/-! ### The index expression -/

theorem index_of_neg {ds : List (Option Nat)} {fd : Int} (h : fd < 0) : index ds fd = none := by
  simp only [index]
  rw [if_neg (by omega)]

theorem index_of_big {ds : List (Option Nat)} {fd : Int} (h : (ds.length : Int) ≤ fd) :
    index ds fd = none := by
  simp only [index]
  rw [if_neg (by omega)]

theorem index_of_lt {ds : List (Option Nat)} {fd : Int} (h0 : 0 ≤ fd)
    (h : ¬ (ds.length : Int) ≤ fd) : index ds fd = some fd.toNat := by
  simp only [index]
  rw [if_pos (by omega)]

/-! ### The methods against the map -/

section Simulation

variable {m : FdManager} {a : FdMap} {fd : Int}

/-- On a descriptor inside the vector the map's entry is the slot. -/
theorem Represents.entry_of_lt (h : Represents m a) (h0 : 0 ≤ fd) :
    a.entry fd = (m.m_datas[fd.toNat]?).join := by
  rw [h.entry, if_pos h0]

/-- Nothing is held from the end of the vector on. -/
theorem Represents.entry_of_big (h : Represents m a) (hbig : (m.m_datas.length : Int) ≤ fd) :
    a.entry fd = none := by
  have hge : m.m_datas.length ≤ fd.toNat := by omega
  rw [h.entry]
  split
  · rw [List.getElem?_eq_none hge]
    rfl
  · rfl

/-- Storing `v` in slot `fd` is updating the map at `fd`. -/
theorem Represents.entry_set (h : Represents m a) (h0 : 0 ≤ fd)
    (hlt : ¬ (m.m_datas.length : Int) ≤ fd) (v : Option Nat) (d : Int) :
    Function.update a.entry fd v d
      = if 0 ≤ d then ((m.m_datas.set fd.toNat v)[d.toNat]?).join else none := by
  have hin : fd.toNat < m.m_datas.length := by omega
  by_cases hd : d = fd
  · subst hd
    rw [Function.update_self, if_pos h0, List.getElem?_set_self hin]
    rfl
  · rw [Function.update_of_ne hd, h.entry]
    split
    · rw [List.getElem?_set_ne (by omega)]
    · rfl

/-- Every handle the map holds is a position of the heap. -/
theorem Represents.lt_fresh (h : Represents m a) {d : Int} {p : Nat} (hp : a.entry d = some p) :
    p < m.heap.length := by
  obtain ⟨c, hc, -⟩ := h.ctx d p hp
  exact (List.getElem?_eq_some_iff.mp hc).1

/-- A creation inside the vector is the map's creation. -/
theorem create_represents (h : Represents m a) (h0 : 0 ≤ fd)
    (hlt : ¬ (m.m_datas.length : Int) ≤ fd) :
    ∃ m', m.create fd = some (m', some a.fresh) ∧
      Represents m' ⟨Function.update a.entry fd (some a.fresh), a.fresh + 1⟩ := by
  have hidx := index_of_lt h0 hlt
  have hcall : m.create fd = some (
      { m_datas := m.m_datas.set fd.toNat (some a.fresh)
        heap := m.heap ++ [(FdCtx.new m.kernel fd).2]
        kernel := (FdCtx.new m.kernel fd).1 }, some a.fresh) := by
    simp only [FdManager.create, hidx, h.fresh]
  refine ⟨_, hcall, ?_, ?_, ?_, ?_⟩
  · simpa using h.size
  · simp [h.fresh]
  · exact fun d => h.entry_set h0 hlt (some a.fresh) d
  · intro d p hp
    by_cases hd : d = fd
    · subst hd
      simp only [Function.update_self] at hp
      obtain rfl := Option.some.inj hp
      exact ⟨(FdCtx.new m.kernel d).2, by simp [← h.fresh], FdCtx.new_fd _ _⟩
    · simp only [Function.update_of_ne hd] at hp
      obtain ⟨c, hc, hfd⟩ := h.ctx d p hp
      exact ⟨c, by rw [List.getElem?_append_left (h.lt_fresh hp)]; exact hc, hfd⟩

/-- `get` on a call the table can serve. -/
theorem get_represents (h : Represents m a) {auto_create : Bool}
    (hok : InTable (.get fd auto_create)) :
    ∃ m' r, m.get fd auto_create = some (m', r) ∧
      ∃ a', a.call isFd (.get fd auto_create) = (a', r) ∧ Represents m' a' := by
  obtain ⟨h0, hcreate⟩ := hok
  by_cases hbig : (m.m_datas.length : Int) ≤ fd
  · -- past the end: only a plain `get` is served, and it answers null
    have hauto : auto_create = false := by
      cases auto_create with
      | false => rfl
      | true =>
          have := hcreate rfl
          have := h.size
          omega
    subst hauto
    refine ⟨m, none, by simp [FdManager.get, hbig], a, ?_, h⟩
    simp [Registry.call, h.entry_of_big hbig]
  · have hidx := index_of_lt h0 hbig
    have hentry := h.entry_of_lt h0
    cases hslot : (m.m_datas[fd.toNat]?).join with
    | some p =>
        refine ⟨m, some p, by simp [FdManager.get, hbig, hidx, hslot], a, ?_, h⟩
        simp only [Registry.call, hentry, hslot]
    | none =>
        rw [hslot] at hentry
        cases auto_create with
        | false =>
            refine ⟨m, none, by simp [FdManager.get, hbig, hidx, hslot], a, ?_, h⟩
            simp [Registry.call, hentry]
        | true =>
            obtain ⟨m', hm', hrep⟩ := create_represents h h0 hbig
            refine ⟨m', some a.fresh, by simp [FdManager.get, hbig, hidx, hslot, hm'], _, ?_, hrep⟩
            simp [Registry.call, hentry, isFd, h0]

/-- `del` on a call the table can serve. -/
theorem del_represents (h : Represents m a) (h0 : 0 ≤ fd) :
    ∃ m', m.del fd = some m' ∧
      ∃ a', a.call isFd (.del fd) = (a', none) ∧ Represents m' a' := by
  have hcall : a.call isFd (.del fd) = (⟨Function.update a.entry fd none, a.fresh⟩, none) := by
    simp [Registry.call, isFd, h0]
  by_cases hbig : (m.m_datas.length : Int) ≤ fd
  · have hsame : Function.update a.entry fd none = a.entry := by
      rw [← h.entry_of_big hbig, Function.update_eq_self]
    refine ⟨m, by simp [FdManager.del, hbig], _, hcall, ?_⟩
    rw [hsame]
    exact h
  · have hidx := index_of_lt h0 hbig
    have hdel : m.del fd = some { m with m_datas := m.m_datas.set fd.toNat none } := by
      simp only [FdManager.del, hidx, if_neg hbig]
    refine ⟨_, hdel, _, hcall, ?_, h.fresh, ?_, ?_⟩
    · simpa using h.size
    · exact fun d => h.entry_set h0 hbig none d
    · intro d p hp
      by_cases hd : d = fd
      · subst hd
        simp only [Function.update_self] at hp
        exact absurd hp (by simp)
      · simp only [Function.update_of_ne hd] at hp
        exact h.ctx d p hp

/-- Every other call reads or writes outside the vector. -/
theorem call_faults (h : Represents m a) {o : RegistryCall Int} (hok : ¬ InTable o) :
    FdManager.machine.call m o = none := by
  have hsize := h.size
  cases o with
  | get fd auto_create =>
      simp only [InTable, not_and_or, Int.not_le] at hok
      by_cases hneg : fd < 0
      · simp only [FdManager.machine, FdManager.get]
        rw [if_neg (by omega), index_of_neg hneg]
      · obtain hneg' | hbig := hok
        · exact absurd hneg' hneg
        · simp only [Classical.not_imp, Int.not_lt] at hbig
          obtain ⟨rfl, hbig⟩ := hbig
          have hlen : (m.m_datas.length : Int) ≤ fd := by omega
          simp [FdManager.machine, FdManager.get, FdManager.create, hlen, index_of_big hlen]
  | del fd =>
      simp only [InTable, Int.not_le] at hok
      simp only [FdManager.machine, FdManager.del]
      rw [if_neg (by omega), index_of_neg hok]
      rfl

/-- From any two states that represent each other, the manager and the map agree on exactly the
histories the table can serve. -/
theorem machine_agree_iff (h : Represents m a) (os : List (RegistryCall Int)) :
    FdManager.machine.Agree (Registry.machine isFd) Represents m a os ↔ ∀ o ∈ os, InTable o := by
  refine Machine.agree_iff (R := Represents) ?_ (fun m a o h hok => call_faults h hok) h os
  intro m a o h hok
  cases o with
  | get fd auto_create =>
      obtain ⟨m', r, hm, a', ha, hrep⟩ := get_represents h hok
      exact ⟨m', a', r, hm, by simp [Registry.machine, ha], hrep⟩
  | del fd =>
      obtain ⟨m', hm, a', ha, hrep⟩ := del_represents h hok
      exact ⟨m', a', none, by simp [FdManager.machine, hm], by simp [Registry.machine, ha], hrep⟩

end Simulation

/-! ## What a user of the table relies on -/

section Use

variable {m m' m'' : FdManager} {a : FdMap} {fd : Int} {auto_create : Bool}

/-- A served `get(fd, true)` answers a handle, and the handle leads to a context of `fd`. -/
theorem get_create (h : Represents m a) (hok : InTable (.get fd true)) :
    ∃ m' p c, m.get fd true = some (m', some p) ∧ m'.heap[p]? = some c ∧ c.m_fd = fd := by
  obtain ⟨m', r, hget, a', ha, hrep⟩ := get_represents h hok
  have hsome : (a.call isFd (.get fd true)).2.isSome = true :=
    Registry.call_create_isSome (decide_eq_true hok.1)
  have hentry : (a.call isFd (.get fd true)).1.entry fd = (a.call isFd (.get fd true)).2 :=
    Registry.call_get_entry
  rw [ha] at hsome hentry
  obtain ⟨p, rfl⟩ := Option.isSome_iff_exists.mp hsome
  obtain ⟨c, hc, hfd⟩ := hrep.ctx fd p hentry
  exact ⟨m', p, c, hget, hc, hfd⟩

/-- The context a `get` answers stays with the descriptor: whatever served calls come in between,
none of them a `del` of `fd`, the next `get` of `fd` answers the same handle. -/
theorem get_stable (h : Represents m a) (hok : InTable (.get fd auto_create)) {p : Nat}
    (hget : m.get fd auto_create = some (m', some p)) {os : List (RegistryCall Int)}
    (hos : ∀ o ∈ os, InTable o) (hdel : RegistryCall.del fd ∉ os) {rs : List (Option Nat)}
    (hrun : FdManager.machine.run m' os = some (m'', rs)) {again : Bool}
    (hagain : InTable (.get fd again)) :
    ∃ m₃, m''.get fd again = some (m₃, some p) := by
  obtain ⟨m₁, r, hm₁, a', ha, hrep⟩ := get_represents h hok
  obtain ⟨rfl, rfl⟩ : m' = m₁ ∧ some p = r := by simpa [hget] using hm₁
  have hentry : (a.call isFd (.get fd auto_create)).1.entry fd
      = (a.call isFd (.get fd auto_create)).2 := Registry.call_get_entry
  rw [ha] at hentry
  -- the map runs the calls in between alongside, and keeps its entry for `fd`
  obtain ⟨m₂, a'', rs', hm₂, ha'', hrep'⟩ := (machine_agree_iff hrep os).mpr hos
  obtain ⟨rfl, rfl⟩ : m'' = m₂ ∧ rs = rs' := by simpa [hrun] using hm₂
  have hkept : a''.entry fd = some p := Registry.entry_persists hentry hdel ha''
  obtain ⟨m₃, r, hm₃, a₃, ha₃, -⟩ := get_represents hrep' hagain
  have hr : some p = r := by simpa [Registry.call, hkept] using congrArg Prod.snd ha₃
  exact ⟨m₃, hr ▸ hm₃⟩

/-- After a `del` the descriptor has no context: a plain `get` answers null. -/
theorem get_of_del (h : Represents m a) (h0 : 0 ≤ fd) (hdel : m.del fd = some m') :
    ∃ m'', m'.get fd false = some (m'', none) := by
  obtain ⟨m₁, hm₁, a', ha, hrep⟩ := del_represents h h0
  obtain rfl : m' = m₁ := by simpa [hdel] using hm₁
  have hgone : a'.entry fd = none := by
    have hcall := congrArg (fun r => r.1.entry fd) ha
    simpa [Registry.call, isFd, h0] using hcall.symm
  have hplain : InTable (.get fd false) := ⟨h0, by simp⟩
  obtain ⟨m'', r, hget, a'', ha', -⟩ := get_represents hrep hplain
  obtain rfl : r = none := (congrArg Prod.snd ha').symm.trans (Registry.call_get_none.mpr hgone)
  exact ⟨m'', hget⟩

/-- What `get(fd)` answers, read off the vector; `none` is an access outside it. -/
def slot (ds : List (Option Nat)) (fd : Int) : Option (Option Nat) :=
  if (ds.length : Int) ≤ fd then some none else (index ds fd).map fun i => (ds[i]?).join

theorem get_plain (m : FdManager) (fd : Int) :
    m.get fd false = (slot m.m_datas fd).map fun p => (m, p) := by
  unfold FdManager.get slot
  split
  · rfl
  · cases index m.m_datas fd with
    | none => rfl
    | some i => simp

/-- A creation is never without a trace: the new context stays on the heap. -/
theorem create_ne_self (r : Option Nat) : m.create fd ≠ some (m, r) := by
  intro h
  unfold FdManager.create at h
  split at h
  · cases h
  · have hheap := congrArg (fun got => got.1.heap.length) (Option.some.inj h)
    simp at hheap

/-- `get(fd, true)` leaves the manager alone iff it holds a context already. -/
theorem get_true_eq_self :
    (∃ r, m.get fd true = some (m, r)) ↔ ∃ p, m.get fd false = some (m, some p) := by
  unfold FdManager.get
  by_cases hbig : (m.m_datas.length : Int) ≤ fd
  · simp [hbig, create_ne_self]
  · cases hidx : index m.m_datas fd with
    | none => simp [hbig]
    | some i =>
        cases hslot : (m.m_datas[i]?).join with
        | none => simp [hbig, hslot, create_ne_self]
        | some p => simp [hbig, hslot]

/-- A slot that is set answers for its descriptor, and for no other. -/
theorem slot_set {ds : List (Option Nat)} {i : Nat} (hidx : index ds fd = some i) (v : Option Nat)
    (d : Int) : slot (ds.set i v) d = if d = fd then some v else slot ds d := by
  have hfd : 0 ≤ fd ∧ fd.toNat < ds.length ∧ fd.toNat = i := by
    unfold index at hidx
    split at hidx
    · next h => exact ⟨h.1, h.2, Option.some.inj hidx⟩
    · cases hidx
  obtain ⟨h0, hlt, rfl⟩ := hfd
  unfold slot index
  rw [List.length_set]
  by_cases hd : d = fd
  · subst hd
    rw [if_neg (by omega), if_pos ⟨h0, hlt⟩, if_pos rfl, Option.map_some, List.getElem?_set_self hlt]
    rfl
  · rw [if_neg hd]
    by_cases hbig : (ds.length : Int) ≤ d
    · rw [if_pos hbig, if_pos hbig]
    · rw [if_neg hbig, if_neg hbig]
      by_cases hneg : 0 ≤ d ∧ d.toNat < ds.length
      · rw [if_pos hneg, Option.map_some, Option.map_some, List.getElem?_set_ne (by omega)]
      · rw [if_neg hneg]
        rfl

theorem create_of_index {i : Nat} (hidx : index m.m_datas fd = some i) :
    m.create fd = some ({ m_datas := m.m_datas.set i (some m.heap.length)
                          heap := m.heap ++ [(FdCtx.new m.kernel fd).2]
                          kernel := (FdCtx.new m.kernel fd).1 }, some m.heap.length) := by
  simp only [FdManager.create, hidx]

/-- What a creation leaves behind. -/
theorem create_eq_some {p : Option Nat} (h : m.create fd = some (m', p)) :
    ∃ i, index m.m_datas fd = some i ∧ p = some m.heap.length ∧
      m' = { m_datas := m.m_datas.set i p, heap := m.heap ++ [(FdCtx.new m.kernel fd).2]
             kernel := (FdCtx.new m.kernel fd).1 } := by
  unfold FdManager.create at h
  split at h
  · cases h
  · next i hidx =>
      obtain ⟨rfl, rfl⟩ := Prod.mk.inj (Option.some.inj h)
      exact ⟨i, hidx, rfl, rfl⟩

/-- `del` leaves everything but slots alone, and fills none. -/
theorem del_eq_some (h : m.del fd = some m') :
    m'.heap = m.heap ∧ m'.kernel = m.kernel ∧ m'.m_datas.length = m.m_datas.length ∧
      ∀ d p, (slot m'.m_datas d).join = some p → (slot m.m_datas d).join = some p := by
  unfold FdManager.del at h
  split at h
  · obtain rfl := Option.some.inj h
    exact ⟨rfl, rfl, rfl, fun _ _ hp => hp⟩
  · split at h
    · cases h
    · next i hidx =>
        obtain rfl := Option.some.inj h
        refine ⟨rfl, rfl, List.length_set .., fun d p hp => ?_⟩
        rw [slot_set hidx] at hp
        split at hp
        · cases hp
        · exact hp

/-- `get(fd, true)` answers the slot, or creates. -/
theorem get_true_eq (m : FdManager) (fd : Int) :
    m.get fd true = match slot m.m_datas fd with
      | none => none
      | some none => m.create fd
      | some (some p) => some (m, some p) := by
  unfold FdManager.get slot
  split
  · rfl
  · cases index m.m_datas fd with
    | none => rfl
    | some i =>
        cases hslot : (m.m_datas[i]?).join with
        | none => simp [hslot]
        | some p => simp [hslot]

@[simp] theorem new_fstat (k : Kernel) (fd : Int) : (FdCtx.new k fd).1.fstat = k.fstat := by
  simp only [FdCtx.new, FdCtx.init, Bool.false_eq_true, if_false]
  split <;> rfl

/-- `init()` of a socket; the kernel no longer blocks on it. -/
theorem new_of_socket {k : Kernel} (h : k.fstat fd = some true) :
    (FdCtx.new k fd).2 = FdCtx.untouched fd ∧ (FdCtx.new k fd).1.nonblock fd = true := by
  have hsock : (k.fstat fd).getD false = true := by rw [h]; rfl
  refine ⟨?_, ?_⟩
  · simp [FdCtx.new, FdCtx.init, FdCtx.untouched, h]
  · simp only [FdCtx.new, FdCtx.init, hsock, Bool.true_and, Bool.false_eq_true, if_false]
    cases hn : k.nonblock fd with
    | true => simpa using hn
    | false => simp [Kernel.setNonblock]

end Use

/-! ## The law of the table -/

/-- **`implementsMap_iff`** — on every history of `get` and `del` calls, over arbitrary `int`
descriptors, the manager is the partial map iff no call names a negative descriptor and no creating
`get` names a descriptor past the 64 slots the constructor made. -/
theorem implementsMap_iff (k : Kernel) (os : List (RegistryCall Int)) :
    ImplementsMap k os ↔ ∀ o ∈ os, InTable o :=
  machine_agree_iff (represents_new k) os

/-- A kernel on which every descriptor is a blocking socket. -/
def socketKernel : Kernel := ⟨fun _ => some true, fun _ => false⟩

/-- The 65th descriptor of a process: `get(64, true)` stores past the end of `m_datas`. -/
theorem create_past_table : ¬ ImplementsMap socketKernel [.get 64 true] := by
  rintro ⟨m', a', rs, hrun, -, -⟩
  have hfault : FdManager.machine.run (FdManager.new socketKernel) [.get 64 true] = none := rfl
  rw [hfault] at hrun
  exact absurd hrun (by simp)

end Sylar.Fd
