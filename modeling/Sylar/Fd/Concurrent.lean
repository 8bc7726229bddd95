/-
# Sylar.Fd.Concurrent — the table of descriptor contexts, used by several threads
(`FdManager` in `sylar/fd_manager.cpp`).

`del` and a `get` that finds what it looks for hold the lock for their whole body.  A creating `get`
lets go of the read lock before it takes the write lock, and does not look again.  Here the threads take
turns at every access to the manager, wherever the lock lets them.

For them the manager is the map of `Sylar.Fd.FdManager` with one liberty: a creating `get` may put a new
context in the place of one that is there.  Where no two of them are about one descriptor at the same
time, it does not (`fdManager_linearizable`).  Calls outside the table fault, and end the history.
-/
import Sylar.Fd.FdManager
import Sylar.Lib.Critical
import Mathlib.Data.List.Permutation

namespace Sylar.Fd

open Lib (Atomic Bodies Entry Event Fine FineMove Implements Linearizable Registry RegistryCall Sections
  Shared)

/-! ## The sections -/

/-- A holding of `m_mutex`. -/
inductive Section
  /-- `get` under the read lock. -/
  | look (fd : Int) (auto_create : Bool)
  /-- `get` under the write lock. -/
  | create (fd : Int)
  | del (fd : Int)
  deriving DecidableEq, Repr

namespace FdManager

/-- `get` under the read lock: its answer, or the lock is to be taken again. -/
def look (m : FdManager) (fd : Int) (auto_create : Bool) : Option (Option Nat ⊕ Section) :=
  if (m.m_datas.length : Int) ≤ fd then
    if auto_create = false then some (.inl none) else some (.inr (.create fd))
  else
    match index m.m_datas fd with
    | none => none
    | some i =>
        let slot := (m.m_datas[i]?).join
        if slot.isSome || !auto_create then some (.inl slot) else some (.inr (.create fd))

def firstSection : RegistryCall Int → Section
  | .get fd auto_create => .look fd auto_create
  | .del fd => .del fd

def runSection (s : Section) (m : FdManager) : Option (FdManager × (Option Nat ⊕ Section)) :=
  match s with
  | .look fd auto_create => (m.look fd auto_create).map fun x => (m, x)
  | .create fd => (m.create fd).map fun r => (r.1, .inl r.2)
  | .del fd => (m.del fd).map fun m' => (m', .inl none)

/-- The manager, as the threads use it. -/
def sections : Sections FdManager Section (RegistryCall Int) (Option Nat) :=
  ⟨firstSection, runSection⟩

/-- `get` is its two sections, one behind the other. -/
theorem get_sections (m : FdManager) (fd : Int) (auto_create : Bool) :
    m.get fd auto_create = (m.look fd auto_create).bind fun x =>
      match x with
      | .inl p => some (m, p)
      | .inr _ => m.create fd := by
  unfold get look
  split
  · split <;> rfl
  · cases index m.m_datas fd with
    | none => rfl
    | some i =>
        dsimp only
        split <;> rfl

end FdManager

/-! ## What the threads may rely on -/

/-- What the map answers. -/
abbrev Answers : Lib.Spec FdMap (RegistryCall Int) (Option Nat) := (Registry.machine isFd).spec

theorem answers_iff {a a' : FdMap} {o : RegistryCall Int} {r : Option Nat} :
    Answers a o r a' ↔ a.call isFd o = (a', r) := Option.some_inj

/-- What the map answers and, if `replaces`, a creating `get` that makes a new context where there is
one. -/
inductive Serves (replaces : Prop) (a : FdMap) : RegistryCall Int → Option Nat → FdMap → Prop
  | called {o : RegistryCall Int} {r : Option Nat} {a' : FdMap} : Answers a o r a' → Serves replaces a o r a'
  | replaced {fd : Int} : replaces → 0 ≤ fd → (a.entry fd).isSome = true →
      Serves replaces a (.get fd true) (some a.fresh)
        ⟨Function.update a.entry fd (some a.fresh), a.fresh + 1⟩

theorem Serves.answers {replaces : Prop} {a a' : FdMap} {o : RegistryCall Int} {r : Option Nat}
    (h : Serves replaces a o r a') (hno : ¬ replaces) : Answers a o r a' := by
  cases h with
  | called h => exact h
  | replaced h => exact absurd h hno

/-- Not two creating `get`s of one descriptor. -/
def Apart : RegistryCall Int → RegistryCall Int → Prop
  | .get fd true, .get fd' true => fd ≠ fd'
  | _, _ => True

/-- The map a manager holds. -/
def FdManager.map (m : FdManager) : FdMap :=
  ⟨fun fd => if 0 ≤ fd then (m.m_datas[fd.toNat]?).join else none, m.heap.length⟩

variable {m m' : FdManager} {a a' : FdMap} {fd : Int} {replaces : Prop}

theorem Represents.map_eq (h : Represents m a) : m.map = a := by
  cases a with
  | mk entry fresh =>
      obtain rfl : m.heap.length = fresh := h.fresh
      obtain rfl : entry = _ := funext h.entry
      rfl

/-- An empty place stays empty under every call that does not create there. -/
theorem Serves.entry_none {o : RegistryCall Int} {r : Option Nat} (h : Serves replaces a o r a')
    (hnone : a.entry fd = none) (hne : o ≠ .get fd true) : a'.entry fd = none := by
  cases h with
  | @called o r a' hcall =>
      have hcall := answers_iff.mp hcall
      by_cases hkey : fd = o.key
      · cases o with
        | get k create =>
            obtain rfl : fd = k := hkey
            cases create with
            | true => exact absurd rfl hne
            | false =>
                have hsame : a.call isFd (.get fd false) = (a, none) := by
                  simp [Registry.call, hnone]
                obtain ⟨rfl, -⟩ := Prod.mk.inj (hsame.symm.trans hcall)
                exact hnone
        | del k =>
            obtain rfl : fd = k := hkey
            have hafter := congrArg (fun x => x.1.entry fd) hcall
            simp only [Registry.call] at hafter
            rw [← hafter]
            split
            · exact Function.update_self ..
            · exact hnone
      · have hframe : (a.call isFd o).1.entry fd = a.entry fd := Registry.call_frame hkey
        rw [hcall] at hframe
        exact hframe.trans hnone
  | @replaced fd' =>
      have hfd : fd ≠ fd' := by
        rintro rfl
        exact hne rfl
      show Function.update a.entry fd' _ fd = none
      rw [Function.update_of_ne hfd]
      exact hnone

/-! ## One section -/

/-- The assertion under which a call enters a section; a creation that does not replace anything has
found its place empty, and it still is. -/
inductive At (replaces : Prop) (m : FdManager) : RegistryCall Int → Section → Prop
  | look {fd : Int} {auto_create : Bool} : At replaces m (.get fd auto_create) (.look fd auto_create)
  | create {fd : Int} : (replaces ∨ m.map.entry fd = none) → At replaces m (.get fd true) (.create fd)
  | del {fd : Int} : At replaces m (.del fd) (.del fd)

theorem at_first (replaces : Prop) (m : FdManager) (o : RegistryCall Int) :
    At replaces m o (FdManager.firstSection o) := by
  cases o with
  | get => exact .look
  | del => exact .del

/-- The index expression is there for the descriptors of the table. -/
theorem of_index {i : Nat} (h : index m.m_datas fd = some i) :
    0 ≤ fd ∧ ¬ (m.m_datas.length : Int) ≤ fd ∧ i = fd.toNat := by
  unfold index at h
  split at h
  · rename_i hin
    exact ⟨hin.1, by omega, (Option.some.inj h).symm⟩
  · cases h

/-- `get` that answers under the read lock answers as the map does. -/
theorem look_answered {auto_create : Bool} {p : Option Nat} (h : Represents m a)
    (hlook : m.look fd auto_create = some (.inl p)) :
    a.call isFd (.get fd auto_create) = (a, p) := by
  unfold FdManager.look at hlook
  split at hlook
  · rename_i hbig
    split at hlook
    · rename_i hauto
      obtain rfl := Sum.inl.inj (Option.some.inj hlook)
      simp [Registry.call, h.entry_of_big hbig, hauto]
    · cases Option.some.inj hlook
  · split at hlook
    · cases hlook
    · rename_i i hidx
      obtain ⟨h0, -, rfl⟩ := of_index hidx
      dsimp only at hlook
      split at hlook
      · rename_i hslot
        obtain rfl := Sum.inl.inj (Option.some.inj hlook)
        cases hp : (m.m_datas[fd.toNat]?).join with
        | some p => simp only [Registry.call, h.entry_of_lt h0, hp]
        | none =>
            have hauto : auto_create = false := by simpa [hp] using hslot
            simp [Registry.call, h.entry_of_lt h0, hp, hauto]
      · cases Option.some.inj hlook

/-- `get` that takes the lock again is a creating one, and has found nothing. -/
theorem look_passed {auto_create : Bool} {s : Section} (h : Represents m a)
    (hlook : m.look fd auto_create = some (.inr s)) :
    auto_create = true ∧ s = .create fd ∧ a.entry fd = none := by
  unfold FdManager.look at hlook
  split at hlook
  · rename_i hbig
    split at hlook
    · cases Option.some.inj hlook
    · rename_i hauto
      obtain rfl := Sum.inr.inj (Option.some.inj hlook)
      exact ⟨by simpa using hauto, rfl, h.entry_of_big hbig⟩
  · split at hlook
    · cases hlook
    · rename_i i hidx
      obtain ⟨h0, -, rfl⟩ := of_index hidx
      dsimp only at hlook
      split at hlook
      · cases Option.some.inj hlook
      · rename_i hslot
        obtain rfl := Sum.inr.inj (Option.some.inj hlook)
        simp only [Bool.or_eq_true, Option.isSome_iff_ne_none, Bool.not_eq_true', not_or,
          not_not, Bool.not_eq_false] at hslot
        exact ⟨hslot.2, rfl, (h.entry_of_lt h0).trans hslot.1⟩

/-- A section that leads to another one only looks. -/
theorem section_passed {o : RegistryCall Int} {s s' : Section} (h : Represents m m.map)
    (hat : At replaces m o s) (hrun : FdManager.runSection s m = some (m', .inr s')) :
    m' = m ∧ At replaces m o s' := by
  cases hat with
  | look =>
      obtain ⟨x, hlook, heq⟩ := Option.map_eq_some_iff.mp hrun
      obtain ⟨rfl, rfl⟩ := Prod.mk.inj heq
      obtain ⟨rfl, rfl, hnone⟩ := look_passed h hlook
      exact ⟨rfl, .create (.inr hnone)⟩
  | create =>
      obtain ⟨r, -, heq⟩ := Option.map_eq_some_iff.mp hrun
      cases heq
  | del =>
      obtain ⟨r, -, heq⟩ := Option.map_eq_some_iff.mp hrun
      cases heq

/-- **A section that answers** answers as the map does, or replaces. -/
theorem section_answered {o : RegistryCall Int} {s : Section} {r : Option Nat}
    (h : Represents m m.map) (hat : At replaces m o s)
    (hrun : FdManager.runSection s m = some (m', .inl r)) :
    Represents m' m'.map ∧ Serves replaces m.map o r m'.map := by
  cases hat with
  | look =>
      obtain ⟨x, hlook, heq⟩ := Option.map_eq_some_iff.mp hrun
      obtain ⟨rfl, rfl⟩ := Prod.mk.inj heq
      exact ⟨h, .called (answers_iff.mpr (look_answered h hlook))⟩
  | @create fd hempty =>
      obtain ⟨⟨m₁, p⟩, hcreate, heq⟩ := Option.map_eq_some_iff.mp hrun
      obtain ⟨rfl, hr⟩ := Prod.mk.inj heq
      obtain rfl := Sum.inl.inj hr
      obtain ⟨i, hidx, -, -⟩ := create_eq_some hcreate
      obtain ⟨h0, hlt, -⟩ := of_index hidx
      obtain ⟨m₂, hm₂, hrep⟩ := create_represents h h0 hlt
      obtain ⟨rfl, rfl⟩ := Prod.mk.inj (Option.some.inj (hcreate.symm.trans hm₂))
      refine ⟨?_, ?_⟩
      · rw [hrep.map_eq]
        exact hrep
      · rw [hrep.map_eq]
        cases hentry : m.map.entry fd with
        | none => exact .called (answers_iff.mpr (by simp [Registry.call, hentry, isFd, h0]))
        | some q =>
            have hreplaces : replaces := hempty.resolve_right fun hnone => by
              rw [hnone] at hentry
              cases hentry
            exact .replaced hreplaces h0 (by rw [hentry]; rfl)
  | @del fd =>
      obtain ⟨m₁, hdel, heq⟩ := Option.map_eq_some_iff.mp hrun
      obtain ⟨rfl, hr⟩ := Prod.mk.inj heq
      obtain rfl := Sum.inl.inj hr
      have h0 : 0 ≤ fd := by
        by_contra hneg
        have hfault := call_faults (o := .del fd) h hneg
        simp [FdManager.machine, hdel] at hfault
      obtain ⟨m₂, hm₂, a₂, hcall, hrep⟩ := del_represents h h0
      obtain rfl := Option.some.inj (hdel.symm.trans hm₂)
      rw [hrep.map_eq]
      exact ⟨hrep, .called (answers_iff.mpr hcall)⟩

/-- A creation that replaces nothing still does not, behind a section of another call. -/
theorem section_stable {o o' : RegistryCall Int} {s s' : Section} {x : Option Nat ⊕ Section}
    (hapart : replaces ∨ Apart o o') (h : Represents m m.map) (hat : At replaces m o s)
    (hat' : At replaces m o' s') (hrun : FdManager.runSection s' m = some (m', x)) :
    At replaces m' o s := by
  cases hat with
  | look => exact .look
  | del => exact .del
  | @create fd hempty =>
      rcases hapart with hreplaces | hapart
      · exact .create (.inl hreplaces)
      · refine .create (hempty.imp_right fun hnone => ?_)
        have hne : o' ≠ .get fd true := by
          rintro rfl
          exact hapart rfl
        cases x with
        | inl r => exact (section_answered h hat' hrun).2.entry_none hnone hne
        | inr s'' =>
            obtain ⟨rfl, -⟩ := section_passed h hat' hrun
            exact hnone

theorem atomic (replaces : Prop) :
    Atomic FdManager.sections (Serves replaces) (fun m => Represents m m.map) FdManager.map
      (fun o s m => At replaces m o s) (fun o o' => replaces ∨ Apart o o') where
  first := fun o m => at_first replaces m o
  passed := by
    intro m m' o s s' h hat hrun
    obtain ⟨rfl, hnext⟩ := section_passed h hat hrun
    exact ⟨h, rfl, hnext⟩
  answered := fun h hat hrun => section_answered h hat hrun
  stable := fun hapart h hat hat' hrun => section_stable hapart h hat hat' hrun

/-- What is seen of the runs in sections. -/
theorem sections_explained {k : Kernel}
    {c : Shared FdManager Section (RegistryCall Int) (Option Nat)}
    (hc : (FdManager.sections.system (.new k)).Reachable c)
    (hapart : replaces ∨ Lib.OverlapsApart Apart c.history) :
    Linearizable (Serves replaces) Registry.empty c.history := by
  have hnew : (FdManager.new k).map = Registry.empty := (represents_new k).map_eq
  have hinit : Represents (FdManager.new k) (FdManager.new k).map := by
    rw [hnew]
    exact represents_new k
  have hlog := (atomic replaces).explained hinit hc
    fun i t o j t' o' hi hj hne hover => hapart.imp_right fun h => h i t o j t' o' hi hj hne hover
  rwa [hnew] at hlog

/-! ## Access by access -/

/-- A place in a section. -/
inductive Place
  /-- `(int)m_datas.size() <= fd` in `get`. -/
  | size (fd : Int) (auto_create : Bool)
  /-- `m_datas[fd] || !auto_create`. -/
  | slot (fd : Int) (auto_create : Bool)
  /-- `return m_datas[fd]`. -/
  | again (fd : Int)
  /-- `new FdCtx(fd)`. -/
  | construct (fd : Int)
  /-- `m_datas[fd] = ctx`. -/
  | store (fd : Int) (p : Nat)
  /-- `(int)m_datas.size() <= fd` in `del`. -/
  | delSize (fd : Int)
  /-- `m_datas[fd].reset()`. -/
  | reset (fd : Int)
  | done (x : Option Nat ⊕ Section)
  deriving DecidableEq, Repr

namespace FdManager

def access (l : Place) (m : FdManager) : Option (FdManager × Place) :=
  match l with
  | .size fd auto_create =>
      some (m,
        if (m.m_datas.length : Int) ≤ fd then
          if auto_create = false then .done (.inl none) else .done (.inr (.create fd))
        else .slot fd auto_create)
  | .slot fd auto_create =>
      (index m.m_datas fd).map fun i =>
        (m, if (m.m_datas[i]?).join.isSome || !auto_create then .again fd
          else .done (.inr (.create fd)))
  | .again fd => (index m.m_datas fd).map fun i => (m, .done (.inl (m.m_datas[i]?).join))
  | .construct fd =>
      let kc := FdCtx.new m.kernel fd
      some ({ m with heap := m.heap ++ [kc.2], kernel := kc.1 }, .store fd m.heap.length)
  | .store fd p =>
      (index m.m_datas fd).map fun i =>
        ({ m with m_datas := m.m_datas.set i (some p) }, .done (.inl (some p)))
  | .delSize fd =>
      some (m, if (m.m_datas.length : Int) ≤ fd then .done (.inl none) else .reset fd)
  | .reset fd =>
      (index m.m_datas fd).map fun i =>
        ({ m with m_datas := m.m_datas.set i none }, .done (.inl none))
  | .done _ => none

/-- The sections with their locks: `ReadLock` for the first one of `get`, `WriteLock` for the others. -/
def bodies : Bodies FdManager Section Place (RegistryCall Int) (Option Nat) where
  first := firstSection
  mode
    | .look .. => .read
    | .create _ | .del _ => .write
  start
    | .look fd auto_create => .size fd auto_create
    | .create fd => .construct fd
    | .del fd => .delSize fd
  access := access
  out
    | .done x => some x
    | _ => none

end FdManager

/-- What a section has made of `m` when it is at a place. -/
inductive AtPlace (m : FdManager) : Section → Place → FdManager → Prop
  | size {fd : Int} {auto_create : Bool} :
      AtPlace m (.look fd auto_create) (.size fd auto_create) m
  | slot {fd : Int} {auto_create : Bool} : ¬ (m.m_datas.length : Int) ≤ fd →
      AtPlace m (.look fd auto_create) (.slot fd auto_create) m
  | again {fd : Int} {auto_create : Bool} {i : Nat} : ¬ (m.m_datas.length : Int) ≤ fd →
      index m.m_datas fd = some i → ((m.m_datas[i]?).join.isSome || !auto_create) = true →
      AtPlace m (.look fd auto_create) (.again fd) m
  | looked {fd : Int} {auto_create : Bool} {x : Option Nat ⊕ Section} :
      m.look fd auto_create = some x → AtPlace m (.look fd auto_create) (.done x) m
  | construct {fd : Int} : AtPlace m (.create fd) (.construct fd) m
  | store {fd : Int} : AtPlace m (.create fd) (.store fd m.heap.length)
      { m with heap := m.heap ++ [(FdCtx.new m.kernel fd).2], kernel := (FdCtx.new m.kernel fd).1 }
  | created {fd : Int} {p : Option Nat} {m' : FdManager} : m.create fd = some (m', p) →
      AtPlace m (.create fd) (.done (.inl p)) m'
  | delSize {fd : Int} : AtPlace m (.del fd) (.delSize fd) m
  | reset {fd : Int} : ¬ (m.m_datas.length : Int) ≤ fd → AtPlace m (.del fd) (.reset fd) m
  | deleted {fd : Int} {m' : FdManager} : m.del fd = some m' →
      AtPlace m (.del fd) (.done (.inl none)) m'

/-- **One access.** -/
theorem AtPlace.access {s : Section} {l l' : Place} {m₁ m₂ : FdManager} (h : AtPlace m s l m₁)
    (haccess : m₁.access l = some (m₂, l')) : AtPlace m s l' m₂ := by
  cases h with
  | @size fd auto_create =>
      obtain ⟨rfl, rfl⟩ := Prod.mk.inj (Option.some.inj haccess)
      split
      · rename_i hbig
        split
        · rename_i hauto
          exact .looked (by rw [FdManager.look, if_pos hbig, if_pos hauto])
        · rename_i hauto
          exact .looked (by rw [FdManager.look, if_pos hbig, if_neg hauto])
      · rename_i hbig
        exact .slot hbig
  | @slot fd auto_create hbig =>
      obtain ⟨i, hidx, heq⟩ := Option.map_eq_some_iff.mp haccess
      obtain ⟨rfl, rfl⟩ := Prod.mk.inj heq
      split
      · rename_i hslot
        exact .again hbig hidx hslot
      · rename_i hslot
        refine .looked ?_
        rw [FdManager.look, if_neg hbig, hidx]
        exact if_neg hslot
  | @again fd auto_create i hbig hidx hslot =>
      obtain ⟨j, hj, heq⟩ := Option.map_eq_some_iff.mp haccess
      obtain ⟨rfl, rfl⟩ := Prod.mk.inj heq
      obtain rfl := Option.some.inj (hidx.symm.trans hj)
      refine .looked ?_
      rw [FdManager.look, if_neg hbig, hidx]
      exact if_pos hslot
  | looked => cases haccess
  | construct =>
      obtain ⟨rfl, rfl⟩ := Prod.mk.inj (Option.some.inj haccess)
      exact .store
  | @store fd =>
      obtain ⟨i, hidx, heq⟩ := Option.map_eq_some_iff.mp haccess
      obtain ⟨rfl, rfl⟩ := Prod.mk.inj heq
      exact .created (create_of_index hidx)
  | created => cases haccess
  | @delSize fd =>
      obtain ⟨rfl, rfl⟩ := Prod.mk.inj (Option.some.inj haccess)
      split
      · rename_i hbig
        exact .deleted (if_pos hbig)
      · rename_i hbig
        exact .reset hbig
  | @reset fd hbig =>
      obtain ⟨i, hidx, heq⟩ := Option.map_eq_some_iff.mp haccess
      obtain ⟨rfl, rfl⟩ := Prod.mk.inj heq
      refine .deleted ?_
      rw [FdManager.del, if_neg hbig, hidx]
  | deleted => cases haccess

theorem implements : Implements FdManager.bodies FdManager.sections
    (fun s m l m' => AtPlace m s l m') where
  first := rfl
  start := by
    intro s m
    cases s with
    | look => exact .size
    | create => exact .construct
    | del => exact .delSize
  access := fun h haccess => h.access haccess
  out := by
    intro s m l m' x h hout
    cases h with
    | looked hlook =>
        obtain rfl := Option.some.inj hout
        exact Option.map_eq_some_iff.mpr ⟨_, hlook, rfl⟩
    | created hcreate =>
        obtain rfl := Option.some.inj hout
        exact Option.map_eq_some_iff.mpr ⟨_, hcreate, rfl⟩
    | deleted hdel =>
        obtain rfl := Option.some.inj hout
        exact Option.map_eq_some_iff.mpr ⟨_, hdel, rfl⟩
    | size | slot | again | construct | store | delSize | reset => cases hout
  read := by
    intro s m l m' h hmode
    cases h with
    | size | slot | again | looked => rfl
    | construct | store | created | delSize | reset | deleted => cases hmode

/-! ## Every history -/

variable {k : Kernel} {c : Fine FdManager Section Place (RegistryCall Int) (Option Nat)}

/-- **Every history can be put in a sequence**: of the map's calls with replacing `get`s among them, and
of the map's calls alone if no two creating `get`s of one descriptor overlap. -/
theorem fdManager_linearizable (hc : (FdManager.bodies.system (.new k)).Reachable c) :
    Linearizable (Serves True) Registry.empty c.history ∧
      (Lib.OverlapsApart Apart c.history → Linearizable Answers Registry.empty c.history) := by
  obtain ⟨a, ha, hhist⟩ := implements.exists_sections hc
  rw [← hhist]
  refine ⟨sections_explained ha (.inl trivial), fun hapart => ?_⟩
  have hlog : Linearizable (Serves False) Registry.empty a.history :=
    sections_explained ha (.inr hapart)
  exact hlog.mono fun h => h.answers not_false

/-- Two threads ask for a context of descriptor 3 at the same time, and a third one drops one of 5. -/
def racingGets : List (FineMove (RegistryCall Int)) :=
  [.call 0 (.get 3 true), .call 1 (.get 3 true), .lock 0, .lock 1, .access 0, .access 1, .access 1,
    .access 0, .unlock 1, .unlock 0, .lock 0, .access 0, .access 0, .unlock 0, .lock 1, .access 1,
    .ret 0, .call 2 (.get 5 true), .access 1, .unlock 1, .lock 2, .ret 1, .access 2, .access 2,
    .unlock 2, .lock 2, .access 2, .access 2, .unlock 2, .ret 2, .call 0 (.del 5), .lock 0, .access 0,
    .access 0, .unlock 0, .ret 0]

def racingHistory : List (Event (RegistryCall Int) (Option Nat)) :=
  [.called 0 0 (.get 3 true), .called 1 1 (.get 3 true), .returned 0 0 (some 0),
    .called 2 2 (.get 5 true), .returned 1 1 (some 1), .returned 2 2 (some 2), .called 3 0 (.del 5),
    .returned 3 0 none]

def racingEntries : List (Entry (RegistryCall Int) (Option Nat)) :=
  [⟨0, .get 3 true, some 0⟩, ⟨1, .get 3 true, some 1⟩, ⟨2, .get 5 true, some 2⟩, ⟨3, .del 5, none⟩]

/-- Another one drops the context of 3 while it is made, and the next `get` of 3 comes when all have
returned. -/
def turnsGets : List (FineMove (RegistryCall Int)) :=
  [.call 0 (.get 3 true), .call 1 (.get 5 true), .call 2 (.del 3), .lock 0, .lock 1, .access 0,
    .access 1, .access 0, .unlock 0, .access 1, .unlock 1, .lock 2, .access 2, .access 2, .unlock 2,
    .lock 1, .access 1, .access 1, .unlock 1, .lock 0, .access 0, .access 0, .unlock 0, .ret 0, .ret 1,
    .ret 2, .call 1 (.get 3 true), .lock 1, .access 1, .access 1, .access 1, .unlock 1, .ret 1]

def turnsHistory : List (Event (RegistryCall Int) (Option Nat)) :=
  [.called 0 0 (.get 3 true), .called 1 1 (.get 5 true), .called 2 2 (.del 3),
    .returned 0 0 (some 1), .returned 1 1 (some 0), .returned 2 2 none, .called 3 1 (.get 3 true),
    .returned 3 1 (some 1)]

/-- The two who race have a context each, which the map would not have given; the others have what it
gives. -/
theorem racingGets_linearizable : Linearizable (Serves True) Registry.empty racingHistory ∧
    ¬ Linearizable Answers Registry.empty racingHistory ∧
    Linearizable Answers Registry.empty turnsHistory := by
  refine ⟨?_, ?_, ?_⟩
  · have hexec : ((FdManager.bodies.system (.new socketKernel)).exec (.new (.new socketKernel))
        racingGets).map Fine.history = some racingHistory := by decide
    obtain ⟨c, hc, hhist⟩ := Option.map_eq_some_iff.mp hexec
    rw [← hhist]
    exact (fdManager_linearizable (Lib.System.reachable_of_exec rfl hc)).1
  · rintro ⟨log, a, hlog⟩
    have hperm : log.Perm racingEntries := by
      refine hlog.perm_of_complete (by decide) (by decide) ?_
      have hret : ∀ e ∈ racingEntries, ∃ t ∈ List.range 3,
          Event.returned e.number t e.answer ∈ racingHistory := by decide
      exact fun e he => (hret e he).imp fun _ h => h.2
    have hno : ∀ log ∈ racingEntries.permutations',
        ((Registry.machine isFd).run Registry.empty (log.map Entry.op)).map Prod.snd
          ≠ some (log.map Entry.answer) := by decide
    refine hno log (List.mem_permutations'.mpr hperm) ?_
    rw [Lib.Machine.run_of_spec hlog.run]
    rfl
  · have hexec : ((FdManager.bodies.system (.new socketKernel)).exec (.new (.new socketKernel))
        turnsGets).map Fine.history = some turnsHistory := by decide
    obtain ⟨c, hc, hhist⟩ := Option.map_eq_some_iff.mp hexec
    rw [← hhist]
    refine (fdManager_linearizable (Lib.System.reachable_of_exec rfl hc)).2 ?_
    rw [hhist]
    intro i t o j t' o' hi hj hne hover
    have hbefore : Lib.Before turnsHistory (.returned 0 0 (some 1)) (.called 3 1 (.get 3 true)) := by
      decide
    have hne35 : (3 : Int) ≠ 5 := by decide
    simp only [turnsHistory, List.mem_cons, Event.called.injEq, reduceCtorEq, false_or,
      List.not_mem_nil, or_false] at hi hj
    rcases hi with ⟨rfl, rfl, rfl⟩ | ⟨rfl, rfl, rfl⟩ | ⟨rfl, rfl, rfl⟩ | ⟨rfl, rfl, rfl⟩
    · rcases hj with ⟨rfl, rfl, rfl⟩ | ⟨rfl, rfl, rfl⟩ | ⟨rfl, rfl, rfl⟩ | ⟨rfl, rfl, rfl⟩
      · exact absurd rfl hne
      · exact hne35
      · trivial
      · exact absurd hbefore (hover.1 0 (some 1) 1 (.get 3 true))
    · rcases hj with ⟨rfl, rfl, rfl⟩ | ⟨rfl, rfl, rfl⟩ | ⟨rfl, rfl, rfl⟩ | ⟨rfl, rfl, rfl⟩
      · exact hne35.symm
      · exact absurd rfl hne
      · trivial
      · exact hne35.symm
    · trivial
    · rcases hj with ⟨rfl, rfl, rfl⟩ | ⟨rfl, rfl, rfl⟩ | ⟨rfl, rfl, rfl⟩ | ⟨rfl, rfl, rfl⟩
      · exact absurd hbefore (hover.2 0 (some 1) 1 (.get 3 true))
      · exact hne35
      · trivial
      · exact absurd rfl hne

end Sylar.Fd
