/-
# Sylar.Hook.Nonblock — a socket that its user believes to be blocking (`fcntl`, `ioctl` and
`setsockopt` in `sylar/hook.cpp`, `FdCtx::init` in `sylar/fd_manager.cpp`).

A managed socket is non-blocking in the kernel, and `m_userNonblock` is the mode its user asked for.
`fcntl` translates between the two in both directions.  `ioctl` does not: `FIONBIO` is stored in the
context and goes to the kernel as it is.  And both store before they call, so a call that is refused
has changed the mode all the same.

`illusion_iff` is about every sequence of calls on such a socket, and says which keep the illusion
throughout: no `FIONBIO` takes the flag away, and a refused call asks for nothing new.
-/
import Sylar.Hook.Calls

namespace Sylar.Hook

open Fd (FdCtx FdManager Kernel)

/-! ## A kernel with status flags -/

/-- What there is beside `Kernel.nonblock`: the other status flags, and the caller's memory. -/
structure Flags where
  others : CInt → CInt
  int : Word → Option CInt
  timeval : Word → Option (Int64 × Int64)

/-- `O_APPEND`, `O_NONBLOCK`, `O_ASYNC`, `O_DIRECT` and `O_NOATIME`: what `F_SETFL` can change. -/
def SETFL_MASK : CInt := 0x46c00#32

def EINVAL : Errno := ⟨22, by decide⟩

/-- The word of status flags. -/
def Outside.word (o : Outside Flags) (fd : CInt) : CInt :=
  withNonblock (o.rest.others fd) (o.kernel.nonblock fd.toInt)

def Kernel.setMode (k : Kernel) (fd : CInt) (nonblock : Bool) : Kernel :=
  { k with nonblock := Function.update k.nonblock fd.toInt nonblock }

/-- `F_SETFL`. -/
def Outside.setWord (o : Outside Flags) (fd arg : CInt) : Outside Flags :=
  { o with
    kernel := Kernel.setMode o.kernel fd (asksNonblock arg)
    rest := { o.rest with
      others := Function.update o.rest.others fd
        ((o.rest.others fd &&& ~~~SETFL_MASK) ||| (arg &&& SETFL_MASK)) } }

/-- The kernel; `ok` is its answer to a call that changes flags. -/
def flagCall (ok : Bool) : (c : Call) → Outside Flags → c.Ret × Outside Flags
  | .fcntl fd cmd arg, o =>
      match fcntlCase cmd, arg with
      | .setfl, .int arg => if ok then (0#32, o.setWord fd arg) else (-1#32, { o with errno := EINVAL })
      | .getfl, _ => (o.word fd, o)
      | _, _ => (0#32, o)
  | .ioctl d request arg, o =>
      if request = FIONBIO then
        match arg.bind o.rest.int with
        | some value =>
            if ok then (0#32, { o with kernel := Kernel.setMode o.kernel d (value != 0#32) })
            else (-1#32, { o with errno := EINVAL })
        | none => (-1#32, { o with errno := EINVAL })
      else (0#32, o)
  | .setsockopt .., o => if ok then (0#32, o) else (-1#32, { o with errno := EINVAL })
  | c, o => (c.zero, o)

def flagLibc (ok : Bool) : Libc Flags where
  original := flagCall ok
  wait c _ o := (c.zero, o)
  cancelAll _ r := some r
  int r := r.int
  timeval r := r.timeval
  timespec _ _ := none

/-! ## Sequences of calls -/

/-- A call of the user's, with the value its pointer leads to. -/
inductive FlagCall
  | setfl (flags : CInt)
  | getfl
  | fionbio (value : CInt)
  | setsockopt (level optname : CInt) (tv : Int64 × Int64)
  deriving DecidableEq, Repr

/-- A call on some thread, and the kernel's answer. -/
structure FlagAct where
  t_hook_enable : Bool
  ok : Bool
  call : FlagCall
  deriving DecidableEq, Repr

/-- The process, and the mode the user has set. -/
structure Socket where
  proc : Proc Flags
  last : Bool

/-- The mode the user has set, once the call has succeeded. -/
def FlagCall.mode (last : Bool) : FlagCall → Bool
  | .setfl flags => asksNonblock flags
  | .fionbio value => value != 0#32
  | .getfl | .setsockopt .. => last

/-- The hooked call on `fd`, with what the caller has put where its pointer leads. -/
def FlagAct.run (fd : CInt) (a : FlagAct) (s : Proc Flags) : Option (CInt × Proc Flags) :=
  let hooked := hooked (flagLibc a.ok) a.t_hook_enable 5000
  match a.call with
  | .setfl flags => hooked (.fcntl fd F_SETFL (.int flags)) s
  | .getfl => hooked (.fcntl fd F_GETFL .none) s
  | .fionbio value =>
      hooked (.ioctl fd FIONBIO (some 0#64))
        { s with rest := { s.rest with int := fun _ => some value } }
  | .setsockopt level optname tv =>
      hooked (.setsockopt fd level optname 0#64 16#32)
        { s with rest := { s.rest with timeval := fun _ => some tv } }

/-- Sequences of calls on `fd`, from the creation of its context on; `last` follows the calls that
return 0. -/
def flagCalls (fd : CInt) : Lib.System Socket FlagAct where
  init s := s.last = false ∧ ∃ (m : FdManager) (p : Nat), m.kernel.fstat fd.toInt = some true ∧
    m.get fd.toInt false = some (m, none) ∧ m.get fd.toInt true = some (s.proc.fds, some p)
  step s a := (a.run fd s.proc).map fun (rt, proc) =>
    ⟨proc, if rt = 0#32 then a.call.mode s.last else s.last⟩

namespace Socket

/-- **The illusion**: the kernel's flag is set, and `F_GETFL` reports the kernel's word with the mode
the user has set in the place of that flag. -/
def Illusion (fd : CInt) (s : Socket) : Prop :=
  s.proc.fds.kernel.nonblock fd.toInt = true ∧
  ∀ rt proc, FlagAct.run fd ⟨true, true, .getfl⟩ s.proc = some (rt, proc) →
    rt = withNonblock (s.proc.outside.word fd) s.last

/-- The flags of an `F_SETFL` reach the kernel, but for `O_NONBLOCK`. -/
def Passes (fd : CInt) (s : Socket) (a : FlagAct) (s' : Socket) : Prop :=
  ∀ flags, a.call = .setfl flags → ∃ w, withNonblock w false = withNonblock flags false ∧
    s'.proc.made = s.proc.made ++ [.fcntl fd F_SETFL (.int w)]

/-- The call does not break the illusion: no `FIONBIO` of 0 succeeds, and what is refused asks for
the mode that is set. -/
def Keeps (s : Socket) (a : FlagAct) : Prop :=
  match a.call, a.ok with
  | .fionbio value, true => value ≠ 0#32
  | .fionbio value, false => (value != 0#32) = s.last
  | .setfl flags, false => asksNonblock flags = s.last
  | .setfl _, true | .getfl, _ | .setsockopt .., _ => True

instance (s : Socket) : DecidablePred s.Keeps := fun a => by
  unfold Keeps
  split <;> infer_instance

/-! ## One call -/

/-- The context at `p` manages `fd`. -/
structure Manages (fd : CInt) (p : Nat) (ctx : FdCtx) (s : Proc Flags) : Prop where
  look : s.look fd = some (some (p, ctx))
  manages : manages ctx = true
  sys : ctx.m_sysNonblock = true

variable {fd : CInt} {p : Nat} {ctx ctx₁ : FdCtx} {s t : Proc Flags}

theorem Manages.original (h : Manages fd p ctx s) {L : Libc Flags} (c : Call) :
    Manages fd p ctx (s.original L c).2 := by
  have hfound := look_eq_some.mp h.look
  exact ⟨look_eq_some.mpr hfound, h.manages, h.sys⟩

theorem Manages.store (h : Manages fd p ctx s) (hm : Hook.manages ctx₁ = true)
    (hsys : ctx₁.m_sysNonblock = true) : Manages fd p ctx₁ (s.store p ctx₁) := by
  obtain ⟨hslot, hp⟩ := look_eq_some.mp h.look
  have hlt := (List.getElem?_eq_some_iff.mp hp).1
  exact ⟨look_eq_some.mpr ⟨hslot, List.getElem?_set_self hlt⟩, hm, hsys⟩

theorem Manages.setTimeout (h : Manages fd p ctx s) (type : CInt) (v : UInt64) :
    Manages fd p (setTimeout ctx type v) (s.store p (setTimeout ctx type v)) ∧
      (setTimeout ctx type v).m_userNonblock = ctx.m_userNonblock := by
  unfold Hook.setTimeout
  split
  · exact ⟨h.store h.manages h.sys, rfl⟩
  · exact ⟨h.store h.manages h.sys, rfl⟩

/-- The kernel's flag behind a call. -/
def flagAfter (a : FlagAct) (nonblock : Bool) : Bool :=
  match a.call, a.ok with
  | .fionbio value, true => value != 0#32
  | .setfl _, true => true
  | .fionbio _, false | .setfl _, false | .getfl, _ | .setsockopt .., _ => nonblock

/-- What one call does: it returns 0 if the kernel accepts it, stores the mode it asks for in any
case, and the kernel's flag is what `flagAfter` says. -/
structure Ran (fd : CInt) (p : Nat) (ctx : FdCtx) (s : Proc Flags) (a : FlagAct) (rt : CInt)
    (t : Proc Flags) : Prop where
  accepted : ∀ last, (if rt = 0#32 then a.call.mode last else last)
    = if a.ok then a.call.mode last else last
  context : ∃ ctx₁, Manages fd p ctx₁ t ∧ ctx₁.m_userNonblock = a.call.mode ctx.m_userNonblock
  kernel : t.fds.kernel.nonblock fd.toInt = flagAfter a (s.fds.kernel.nonblock fd.toInt)

/-- `F_SETFL` sends its flags on with `O_NONBLOCK` set. -/
theorem run_setfl (h : Manages fd p ctx s) (t_hook_enable ok : Bool) (flags : CInt) :
    FlagAct.run fd ⟨t_hook_enable, ok, .setfl flags⟩ s =
      some ((s.store p { ctx with m_userNonblock := asksNonblock flags }).original (flagLibc ok)
        (.fcntl fd F_SETFL (.int (withNonblock flags true)))) := by
  show fcntl (flagLibc ok) fd F_SETFL (.int flags) s = _
  have hcase : fcntlCase F_SETFL = .setfl := rfl
  unfold fcntl
  simp only [hcase, FcntlArg.asInt, h.look, h.manages, Bool.not_true, Bool.false_eq_true, if_false]
  rw [h.sys]

/-- `F_GETFL` reports the kernel's word with the user's mode. -/
theorem run_getfl (h : Manages fd p ctx s) (t_hook_enable ok : Bool) :
    ∃ t, FlagAct.run fd ⟨t_hook_enable, ok, .getfl⟩ s
        = some (withNonblock (s.outside.word fd) ctx.m_userNonblock, t) ∧
      t = (s.original (flagLibc ok) (.fcntl fd F_GETFL .none)).2 := by
  refine ⟨_, ?_, rfl⟩
  show fcntl (flagLibc ok) fd F_GETFL .none s = _
  have hcase : fcntlCase F_GETFL = .getfl := rfl
  have hrt : (s.original (flagLibc ok) (.fcntl fd F_GETFL .none)).1 = s.outside.word fd := rfl
  unfold fcntl
  simp only [hcase, (h.original (.fcntl fd F_GETFL .none)).look, h.manages, Bool.not_true,
    Bool.false_eq_true, if_false, hrt]

/-- The caller's memory is not what the context is found by. -/
theorem Manages.rest (h : Manages fd p ctx s) (r : Flags) : Manages fd p ctx { s with rest := r } := by
  have hfound := look_eq_some.mp h.look
  exact ⟨look_eq_some.mpr hfound, h.manages, h.sys⟩

/-- `FIONBIO` goes to the kernel as it is. -/
theorem run_fionbio (h : Manages fd p ctx s) (t_hook_enable ok : Bool) (value : CInt) :
    FlagAct.run fd ⟨t_hook_enable, ok, .fionbio value⟩ s =
      some (({ s with rest := { s.rest with int := fun _ => some value } }.store p
          { ctx with m_userNonblock := value != 0#32 }).original (flagLibc ok)
        (.ioctl fd FIONBIO (some 0#64))) := by
  show ioctl (flagLibc ok) fd FIONBIO (some 0#64)
    { s with rest := { s.rest with int := fun _ => some value } } = _
  have hlook := (h.rest { s.rest with int := fun _ => some value }).look
  have hint : (flagLibc ok).int { s.rest with int := fun _ => some value } 0#64 = some value := rfl
  unfold ioctl
  simp only [if_true, hlook, hint, h.manages, Bool.not_true, Bool.false_eq_true, if_false]

/-- `setsockopt` stores at most a timeout. -/
theorem run_setsockopt (h : Manages fd p ctx s) (t_hook_enable ok : Bool) (level optname : CInt)
    (tv : Int64 × Int64) :
    ∃ ctx₁ s₁, Manages fd p ctx₁ s₁ ∧ ctx₁.m_userNonblock = ctx.m_userNonblock ∧
      s₁.fds.kernel = s.fds.kernel ∧
      FlagAct.run fd ⟨t_hook_enable, ok, .setsockopt level optname tv⟩ s =
        some (s₁.original (flagLibc ok) (.setsockopt fd level optname 0#64 16#32)) := by
  have hr := h.rest { s.rest with timeval := fun _ => some tv }
  cases t_hook_enable with
  | false => exact ⟨ctx, _, hr, rfl, rfl, rfl⟩
  | true =>
      by_cases htime : level = SOL_SOCKET ∧ (optname = SO_RCVTIMEO ∨ optname = SO_SNDTIMEO)
      · obtain ⟨hset, huser⟩ := hr.setTimeout optname (Timers.timevalTimeout tv.1 tv.2)
        refine ⟨_, _, hset, huser, rfl, ?_⟩
        have htv : (flagLibc ok).timeval { s.rest with timeval := fun _ => some tv } 0#64 = some tv :=
          rfl
        simp only [FlagAct.run, hooked, Hook.setsockopt, Bool.not_true, Bool.false_eq_true, if_false,
          htime, and_self, if_true, hr.look, htv]
      · refine ⟨ctx, _, hr, rfl, rfl, ?_⟩
        simp only [FlagAct.run, hooked, Hook.setsockopt, Bool.not_true, Bool.false_eq_true, if_false,
          htime]

/-- **Every call runs**, and does what `Ran` says. -/
theorem run_spec (h : Manages fd p ctx s) (a : FlagAct) :
    ∃ rt t, a.run fd s = some (rt, t) ∧ Ran fd p ctx s a rt t := by
  obtain ⟨t_hook_enable, ok, call⟩ := a
  cases call with
  | setfl flags =>
      have hstore : Manages fd p { ctx with m_userNonblock := asksNonblock flags }
          (s.store p { ctx with m_userNonblock := asksNonblock flags }) := h.store h.manages h.sys
      refine ⟨_, _, run_setfl h t_hook_enable ok flags, ?_, ⟨_, hstore.original _, rfl⟩, ?_⟩
      · cases ok <;> exact fun last => rfl
      · cases ok with
        | false => rfl
        | true =>
            show Function.update s.fds.kernel.nonblock fd.toInt
              (asksNonblock (withNonblock flags true)) fd.toInt = true
            rw [Function.update_self, asksNonblock_withNonblock]
  | getfl =>
      obtain ⟨t, hrun, rfl⟩ := run_getfl h t_hook_enable ok
      refine ⟨_, _, hrun, fun last => ?_, ⟨ctx, h.original _, rfl⟩, rfl⟩
      simp [FlagCall.mode]
  | fionbio value =>
      have hstore : Manages fd p { ctx with m_userNonblock := value != 0#32 }
          (Proc.store { s with rest := { s.rest with int := fun _ => some value } } p
            { ctx with m_userNonblock := value != 0#32 }) := (h.rest _).store h.manages h.sys
      refine ⟨_, _, run_fionbio h t_hook_enable ok value, ?_, ⟨_, hstore.original _, rfl⟩, ?_⟩
      · cases ok <;> exact fun last => rfl
      · cases ok with
        | false => rfl
        | true =>
            show Function.update s.fds.kernel.nonblock fd.toInt (value != 0#32) fd.toInt = _
            rw [Function.update_self]
            rfl
  | setsockopt level optname tv =>
      obtain ⟨ctx₁, s₁, h₁, huser, hkernel, hrun⟩ := run_setsockopt h t_hook_enable ok level optname tv
      refine ⟨_, _, hrun, fun last => ?_, ⟨ctx₁, h₁.original _, huser⟩, ?_⟩
      · simp [FlagCall.mode]
      · have hflag := congrArg (fun k : Kernel => k.nonblock fd.toInt) hkernel
        cases ok with
        | false => exact hflag
        | true => exact hflag

/-! ## The illusion -/

variable {u u₁ : Socket} {a : FlagAct}

/-- The illusion, as the context and the kernel have it. -/
theorem illusion_iff_flags (h : Manages fd p ctx u.proc) :
    u.Illusion fd ↔ u.proc.fds.kernel.nonblock fd.toInt = true ∧ ctx.m_userNonblock = u.last := by
  obtain ⟨t, hrun, -⟩ := run_getfl h true true
  unfold Illusion
  refine and_congr_right fun _ => ⟨fun hreport => ?_, fun huser rt proc hget => ?_⟩
  · have hword := congrArg asksNonblock (hreport _ _ hrun)
    rwa [asksNonblock_withNonblock, asksNonblock_withNonblock] at hword
  · obtain ⟨rfl, -⟩ := Prod.mk.inj (Option.some.inj (hget.symm.trans hrun))
    rw [huser]

/-- A managed socket, whatever the flags. -/
def Managed (fd : CInt) (u : Socket) : Prop := ∃ p ctx, Manages fd p ctx u.proc

theorem step_ran (h : Manages fd p ctx u.proc) (hstep : (flagCalls fd).step u a = some u₁) :
    ∃ rt, Ran fd p ctx u.proc a rt u₁.proc ∧
      u₁.last = if rt = 0#32 then a.call.mode u.last else u.last := by
  obtain ⟨rt, t, hrun, hran⟩ := run_spec h a
  obtain ⟨⟨rt₁, proc⟩, hrun₁, rfl⟩ := Option.map_eq_some_iff.mp hstep
  obtain ⟨rfl, rfl⟩ := Prod.mk.inj (Option.some.inj (hrun.symm.trans hrun₁))
  exact ⟨rt, hran, rfl⟩

theorem managed_step (h : u.Managed fd) (hstep : (flagCalls fd).step u a = some u₁) :
    u₁.Managed fd := by
  obtain ⟨p, ctx, hm⟩ := h
  obtain ⟨rt, hran, -⟩ := step_ran hm hstep
  obtain ⟨ctx₁, hm₁, -⟩ := hran.context
  exact ⟨p, ctx₁, hm₁⟩

/-- **One call keeps the illusion exactly under `Keeps`.** -/
theorem illusion_step_iff (h : u.Managed fd) (hu : u.Illusion fd)
    (hstep : (flagCalls fd).step u a = some u₁) : u₁.Illusion fd ↔ u.Keeps a := by
  obtain ⟨p, ctx, hm⟩ := h
  obtain ⟨hflag, huser⟩ := (illusion_iff_flags hm).mp hu
  obtain ⟨rt, hran, hlast⟩ := step_ran hm hstep
  obtain ⟨ctx₁, hm₁, huser₁⟩ := hran.context
  rw [illusion_iff_flags hm₁, hran.kernel, hlast, hran.accepted, huser₁, huser, hflag]
  obtain ⟨t_hook_enable, ok, call⟩ := a
  cases call with
  | setfl flags => cases ok <;> simp [flagAfter, FlagCall.mode, Keeps]
  | fionbio value => cases ok <;> simp [flagAfter, FlagCall.mode, Keeps]
  | getfl | setsockopt => simp [flagAfter, FlagCall.mode, Keeps]

/-- What `F_SETFL` sends on, in every state. -/
theorem passes_step (h : u.Managed fd) (hstep : (flagCalls fd).step u a = some u₁) :
    u.Passes fd a u₁ := by
  rintro flags hcall
  obtain ⟨p, ctx, hm⟩ := h
  obtain ⟨t_hook_enable, ok, call⟩ := a
  obtain rfl : call = .setfl flags := hcall
  have hrun := run_setfl hm t_hook_enable ok flags
  obtain ⟨⟨rt, proc⟩, hrun₁, rfl⟩ := Option.map_eq_some_iff.mp hstep
  have hproc := congrArg Prod.snd (Option.some.inj (hrun₁.symm.trans hrun))
  exact ⟨withNonblock flags true, withNonblock_congr flags true false,
    congrArg Proc.made hproc⟩

/-- A context that has just been made keeps the illusion. -/
theorem start (h0 : (flagCalls fd).init u) : u.Managed fd ∧ u.Illusion fd := by
  obtain ⟨hlast, m, p, hsock, hfree, hget⟩ := h0
  rw [Fd.get_plain] at hfree
  obtain ⟨q, hslot, heq⟩ := Option.map_eq_some_iff.mp hfree
  obtain rfl := (Prod.mk.inj heq).2
  rw [Fd.get_true_eq, hslot] at hget
  obtain ⟨i, hidx, hp, hfds⟩ := Fd.create_eq_some hget
  obtain rfl := Option.some.inj hp
  obtain ⟨hnew, hflag⟩ := Fd.new_of_socket hsock
  have hm : Manages fd m.heap.length (FdCtx.new m.kernel fd.toInt).2 u.proc := by
    refine ⟨look_eq_some.mpr ⟨?_, ?_⟩, ?_, ?_⟩
    · rw [hfds, Fd.slot_set hidx, if_pos rfl]
    · rw [hfds]
      simp
    · rw [hnew]
      rfl
    · rw [hnew]
      rfl
  refine ⟨⟨_, _, hm⟩, (illusion_iff_flags hm).mpr ⟨?_, ?_⟩⟩
  · rw [hfds]
    exact hflag
  · rw [hnew, hlast]
    rfl

theorem managed_of_reachable (h : (flagCalls fd).Reachable u) : u.Managed fd :=
  h.invariant (fun _ h0 => (start h0).1) fun _ _ _ hm hstep => managed_step hm hstep

/-- Every sequence of calls runs to its end. -/
theorem exec_managed (h : u.Managed fd) (as : List FlagAct) : ∃ t, (flagCalls fd).exec u as = some t := by
  induction as generalizing u with
  | nil => exact ⟨u, rfl⟩
  | cons a as ih =>
      obtain ⟨p, ctx, hm⟩ := h
      obtain ⟨rt, t, hrun, -⟩ := run_spec hm a
      have hstep : (flagCalls fd).step u a
          = some ⟨t, if rt = 0#32 then a.call.mode u.last else u.last⟩ := by
        simp only [flagCalls, hrun, Option.map_some]
      obtain ⟨v, hv⟩ := ih (managed_step ⟨p, ctx, hm⟩ hstep)
      exact ⟨v, by rw [Lib.System.exec_cons, hstep]; exact hv⟩

/-- In every state of the sequence the illusion holds, and every call of it passes its flags. -/
def Throughout (fd : CInt) (s₀ : Socket) (as : List FlagAct) : Prop :=
  ∀ bs s, bs <+: as → (flagCalls fd).exec s₀ bs = some s →
    s.Illusion fd ∧ ∀ a s', (flagCalls fd).step s a = some s' → s.Passes fd a s'

/-- **`illusion_iff`** — every sequence of calls on a socket with a context runs, and the illusion
holds throughout it exactly if every call meets `Keeps`. -/
theorem illusion_iff {fd : CInt} {s₀ : Socket} (h0 : (flagCalls fd).init s₀) (as : List FlagAct) :
    (∃ s, (flagCalls fd).exec s₀ as = some s) ∧
      (Throughout fd s₀ as ↔ (flagCalls fd).Along Keeps s₀ as) := by
  obtain ⟨hm, hill⟩ := start h0
  obtain ⟨t, hrun⟩ := exec_managed hm as
  have hexact := Lib.System.throughout_iff (I := Managed fd) (P := Illusion fd) (C := Keeps)
    (fun _ _ _ h _ _ hs => managed_step h hs) (fun _ _ _ h hu hs => illusion_step_iff h hu hs) hm hill hrun
  refine ⟨⟨t, hrun⟩, ?_⟩
  rw [← hexact]
  constructor
  · exact fun h bs s hbs hs => (h bs s hbs hs).1
  · intro h bs s hbs hs
    have hreach := Lib.System.reachable_of_exec h0 hs
    exact ⟨h bs s hbs hs, fun a s' hstep => passes_step (managed_of_reachable hreach) hstep⟩

/-- Descriptor 5 of a process, a blocking socket for which `socket()` has made a context. -/
def newSocket : Socket :=
  { proc :=
      { fds := (((FdManager.new Fd.socketKernel).get 5 true).getD (FdManager.new Fd.socketKernel, none)).1
        errno := 0
        rest := ⟨fun _ => 2#32, fun _ => none, fun _ => none⟩
        made := [] }
    last := false }

theorem newSocket_init : (flagCalls 5#32).init newSocket :=
  ⟨rfl, FdManager.new Fd.socketKernel, 0, rfl, rfl, rfl⟩

/-- Calls that keep it: `O_NONBLOCK` on and off again through `fcntl`, and a refused `O_DIRECT`. -/
def goodCalls : List FlagAct :=
  [⟨true, true, .setfl 0x802#32⟩, ⟨false, true, .setfl 0x402#32⟩, ⟨true, false, .setfl 0x4002#32⟩,
    ⟨true, true, .getfl⟩]

theorem illusion_goodCalls :
    (flagCalls 5#32).init newSocket ∧ (∃ s, (flagCalls 5#32).exec newSocket goodCalls = some s) ∧
      (Throughout 5#32 newSocket goodCalls ↔ (flagCalls 5#32).Along Keeps newSocket goodCalls) :=
  ⟨newSocket_init, illusion_iff newSocket_init goodCalls⟩

/-- `ioctl(fd, FIONBIO, &zero)` on a socket that its user believes to be blocking anyway. -/
theorem fionbio_drops_flag :
    ¬ ∀ fd s₀ as, (flagCalls fd).init s₀ → Throughout fd s₀ as := by
  intro h
  have hall := h 5#32 newSocket [⟨true, true, .fionbio 0#32⟩] newSocket_init
  have hflag := (hall _ _ (List.prefix_refl _) rfl).1.1
  exact absurd hflag (by decide)

end Socket

end Sylar.Hook
