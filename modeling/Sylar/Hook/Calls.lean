/-
# Sylar.Hook.Calls — the hooked functions against the originals (`sylar/hook.cpp`).

Twenty-one functions of the C library are replaced.  `Call` is one call of any of them, with its
arguments, and `hooked` is what the replacement does; the original functions, the `IOManager` of the
thread and the waiting of a fiber (`Hook.DoIo`, `Hook.Connect`) are what `Libc` says of them.

On a thread without the hook a replacement should be its original.  `transparent_iff` says for every
call and every state where it is.  Four functions are not always: `usleep` calls `sleep_f`, `accept`
makes contexts, `fcntl` and `ioctl` translate `O_NONBLOCK` and store it, all of them without a look at
`t_hook_enable`; and `fcntl` drops the argument of a command it does not know.
-/
import Sylar.Hook.DoIo
import Sylar.IO.FdContext
import Sylar.Timers.Deadline

namespace Sylar.Hook

open Fd (FdCtx FdManager Kernel)
open Sylar.IO (Event)

/-! ## Calls -/

/-- `int` and `unsigned int`. -/
abbrev CInt := BitVec 32

/-- A pointer, and `size_t`. -/
abbrev Word := BitVec 64

/-- The third argument of `fcntl`, if there is one. -/
inductive FcntlArg
  | none
  | int (arg : CInt)
  | pointer (arg : Word)
  deriving DecidableEq, Repr

/-- A call of a hooked function, or of the original of the same name. -/
inductive Call
  | sleep (seconds : CInt)
  | usleep (usec : CInt)
  | nanosleep (req rem : Word)
  | socket (domain type protocol : CInt)
  | connect (sockfd : CInt) (addr : Word) (addrlen : CInt)
  | accept (s : CInt) (addr addrlen : Word)
  | read (fd : CInt) (buf count : Word)
  | readv (fd : CInt) (iov : Word) (iovcnt : CInt)
  | recv (sockfd : CInt) (buf len : Word) (flags : CInt)
  | recvfrom (sockfd : CInt) (buf len : Word) (flags : CInt) (src_addr addrlen : Word)
  | recvmsg (sockfd : CInt) (msg : Word) (flags : CInt)
  | write (fd : CInt) (buf count : Word)
  | writev (fd : CInt) (iov : Word) (iovcnt : CInt)
  | send (s : CInt) (msg len : Word) (flags : CInt)
  | sendto (s : CInt) (msg len : Word) (flags : CInt) (addr : Word) (tolen : CInt)
  | sendmsg (s : CInt) (msg : Word) (flags : CInt)
  | close (fd : CInt)
  | fcntl (fd cmd : CInt) (arg : FcntlArg)
  | ioctl (d : CInt) (request : Word) (arg : Option Word)
  | getsockopt (sockfd level optname : CInt) (optval optlen : Word)
  | setsockopt (sockfd level optname : CInt) (optval : Word) (optlen : CInt)
  deriving DecidableEq, Repr

/-- What the function returns: `ssize_t`, or `int` (`unsigned int` for `sleep`). -/
abbrev Call.Ret : Call → Type
  | .read .. | .readv .. | .recv .. | .recvfrom .. | .recvmsg .. | .write .. | .writev .. | .send ..
  | .sendto .. | .sendmsg .. => Word
  | .sleep _ | .usleep _ | .nanosleep .. | .socket .. | .connect .. | .accept .. | .close _
  | .fcntl .. | .ioctl .. | .getsockopt .. | .setsockopt .. => CInt

/-! ## What is outside -/

/-- What the original functions work on: the kernel, `errno`, and the rest of the process. -/
structure Outside (R : Type) where
  kernel : Kernel
  errno : Nat
  rest : R

/-- What a wrapper waits for when it gives up the thread. -/
inductive Waiting
  /-- A timer. -/
  | timer (ms : UInt64)
  /-- The loop of `do_io`. -/
  | io (event : Event) (timeout_so : TimeoutSo)
  /-- `connect_with_timeout` from its `connect_f` on. -/
  | connect (timeout_ms : UInt64)
  deriving DecidableEq, Repr

/-- What the hooks are linked against. -/
structure Libc (R : Type) where
  /-- The original functions. -/
  original : (c : Call) → Outside R → c.Ret × Outside R
  /-- The part of a wrapper that waits. -/
  wait : (c : Call) → Waiting → Outside R → c.Ret × Outside R
  /-- `IOManager::GetThis()->cancelAll(fd)` where there is one; it can fault. -/
  cancelAll : CInt → R → Option R
  /-- `*(int*)arg`. -/
  int : R → Word → Option CInt
  /-- `tv_sec` and `tv_usec`. -/
  timeval : R → Word → Option (Int64 × Int64)
  /-- `tv_sec` and `tv_nsec`. -/
  timespec : R → Word → Option (Int64 × Int64)

/-- A process, and the original calls its wrappers have made outside their waits. -/
structure Proc (R : Type) where
  fds : FdManager
  errno : Nat
  rest : R
  made : List Call

namespace Proc

variable {R : Type}

def outside (s : Proc R) : Outside R := ⟨s.fds.kernel, s.errno, s.rest⟩

def put (s : Proc R) (o : Outside R) : Proc R :=
  { s with fds := { s.fds with kernel := o.kernel }, errno := o.errno, rest := o.rest }

/-- The original function is called. -/
def original (L : Libc R) (c : Call) (s : Proc R) : c.Ret × Proc R :=
  ((L.original c s.outside).1,
    { s.put (L.original c s.outside).2 with made := s.made ++ [c] })

/-- The wrapper waits. -/
def wait (L : Libc R) (c : Call) (w : Waiting) (s : Proc R) : c.Ret × Proc R :=
  ((L.wait c w s.outside).1, s.put (L.wait c w s.outside).2)

/-- The context `FdMgr::GetInstance()->get(fd)` answers, with its handle; `none` is a fault. -/
def look (s : Proc R) (fd : CInt) : Option (Option (Nat × FdCtx)) :=
  match s.fds.get fd.toInt false with
  | none => none
  | some (_, none) => some none
  | some (_, some p) => (s.fds.heap[p]?).map fun ctx => some (p, ctx)

/-- A member of the context is set. -/
def store (s : Proc R) (p : Nat) (ctx : FdCtx) : Proc R :=
  { s with fds := { s.fds with heap := s.fds.heap.set p ctx } }

end Proc

/-! ## Constants -/

def O_NONBLOCK : CInt := 0x800#32
def FIONBIO : Word := 0x5421#64
def SOL_SOCKET : CInt := 1#32
def SO_RCVTIMEO : CInt := 20#32
def SO_SNDTIMEO : CInt := 21#32

def F_DUPFD : CInt := 0#32
def F_GETFD : CInt := 1#32
def F_SETFD : CInt := 2#32
def F_GETFL : CInt := 3#32
def F_SETFL : CInt := 4#32
def F_GETLK : CInt := 5#32
def F_SETLK : CInt := 6#32
def F_SETLKW : CInt := 7#32
def F_SETOWN : CInt := 8#32
def F_GETOWN : CInt := 9#32
def F_SETSIG : CInt := 10#32
def F_GETSIG : CInt := 11#32
def F_SETOWN_EX : CInt := 15#32
def F_GETOWN_EX : CInt := 16#32
def F_SETLEASE : CInt := 1024#32
def F_GETLEASE : CInt := 1025#32
def F_NOTIFY : CInt := 1026#32
def F_DUPFD_CLOEXEC : CInt := 1030#32
def F_SETPIPE_SZ : CInt := 1031#32
def F_GETPIPE_SZ : CInt := 1032#32

/-- The groups of `case` labels in `fcntl`. -/
inductive FcntlCase
  | setfl
  | getfl
  /-- An `int` argument is handed on. -/
  | int
  /-- There is no argument. -/
  | none
  /-- A pointer is handed on. -/
  | pointer
  | default
  deriving DecidableEq, Repr

/-- `switch(cmd)`. -/
def fcntlCase (cmd : CInt) : FcntlCase :=
  if cmd = F_SETFL then .setfl
  else if cmd = F_GETFL then .getfl
  else if cmd ∈ [F_DUPFD, F_DUPFD_CLOEXEC, F_SETFD, F_SETOWN, F_SETSIG, F_SETLEASE, F_NOTIFY,
      F_SETPIPE_SZ] then .int
  else if cmd ∈ [F_GETFD, F_GETOWN, F_GETSIG, F_GETLEASE, F_GETPIPE_SZ] then .none
  else if cmd ∈ [F_SETLK, F_SETLKW, F_GETLK, F_GETOWN_EX, F_SETOWN_EX] then .pointer
  else .default

/-- `va_arg(va, int)`; reading anything else is undefined. -/
def FcntlArg.asInt : FcntlArg → Option CInt
  | .int arg => some arg
  | .none | .pointer _ => Option.none

/-- `va_arg(va, T*)`. -/
def FcntlArg.asPointer : FcntlArg → Option Word
  | .pointer arg => some arg
  | .none | .int _ => Option.none

/-- `!ctx || ctx->isClose() || !ctx->isSocket()`, the other way round. -/
def manages (ctx : FdCtx) : Bool := !ctx.m_isClosed && ctx.m_isSocket

/-- `arg | O_NONBLOCK` or `arg & ~O_NONBLOCK`. -/
def withNonblock (arg : CInt) (nonblock : Bool) : CInt :=
  if nonblock then arg ||| O_NONBLOCK else arg &&& ~~~O_NONBLOCK

/-- `(bool)(arg & O_NONBLOCK)`. -/
def asksNonblock (arg : CInt) : Bool := arg &&& O_NONBLOCK != 0#32

/-- `FdCtx::setTimeout`. -/
def setTimeout (ctx : FdCtx) (type : CInt) (v : UInt64) : FdCtx :=
  if type = SO_RCVTIMEO then { ctx with m_recvTimeout := v.toNat }
  else { ctx with m_sendTimeout := v.toNat }

/-! ## The wrappers -/

section Wrappers

variable {R : Type} (L : Libc R) (t_hook_enable : Bool)

/-- `sleep`: `seconds * 1000` is `unsigned int`. -/
def sleep (seconds : CInt) (s : Proc R) : Option (CInt × Proc R) :=
  if !t_hook_enable then some (s.original L (.sleep seconds))
  else some (0#32, (s.wait L (.sleep seconds) (.timer (seconds * 1000#32).toNat.toUInt64)).2)

/-- `usleep`; without the hook it goes to `sleep_f`. -/
def usleep (usec : CInt) (s : Proc R) : Option (CInt × Proc R) :=
  if !t_hook_enable then some (s.original L (.sleep usec))
  else some (0#32, (s.wait L (.usleep usec) (.timer (usec / 1000#32).toNat.toUInt64)).2)

/-- `nanosleep`: the milliseconds are a `long`, stored in an `int`. -/
def nanosleep (req rem : Word) (s : Proc R) : Option (CInt × Proc R) :=
  if !t_hook_enable then some (s.original L (.nanosleep req rem))
  else
    match L.timespec s.rest req with
    | none => none
    | some (tv_sec, tv_nsec) =>
        let timeout_ms : Int32 := (tv_sec * 1000 + tv_nsec / 1000 / 1000).toInt32
        some (0#32, (s.wait L (.nanosleep req rem) (.timer timeout_ms.toInt64.toUInt64)).2)

/-- `socket`. -/
def socket (domain type protocol : CInt) (s : Proc R) : Option (CInt × Proc R) :=
  if !t_hook_enable then some (s.original L (.socket domain type protocol))
  else
    let (fd, s) := s.original L (.socket domain type protocol)
    if fd = -1#32 then some (fd, s)
    else (s.fds.get fd.toInt true).map fun got => (fd, { s with fds := got.1 })

/-- `connect`, with `s_connect_timeout`. -/
def connect (s_connect_timeout : UInt64) (sockfd : CInt) (addr : Word) (addrlen : CInt)
    (s : Proc R) : Option (CInt × Proc R) :=
  if !t_hook_enable then some (s.original L (.connect sockfd addr addrlen))
  else
    match s.look sockfd with
    | none => none
    | some found =>
        match connectEntry t_hook_enable (found.map Prod.snd) with
        | .original => some (s.original L (.connect sockfd addr addrlen))
        | .refused => some (-1#32, { s with errno := EBADF })
        | .managed =>
            some (s.wait L (.connect sockfd addr addrlen) (.connect s_connect_timeout))

/-- `do_io` of the call `c` on `fd`, whose original is `fun`; `refused` is `-1` as `c` returns it. -/
def do_io (c : Call) (fd : CInt) (event : Event) (timeout_so : TimeoutSo) (refused : c.Ret)
    (s : Proc R) : Option (c.Ret × Proc R) :=
  if !t_hook_enable then some (s.original L c)
  else
    match s.look fd with
    | none => none
    | some found =>
        match ioEntry t_hook_enable (found.map Prod.snd) with
        | .original => some (s.original L c)
        | .refused => some (refused, { s with errno := EBADF })
        | .managed => some (s.wait L c (.io event timeout_so))

/-- `accept`: the conversion of `do_io`'s `ssize_t` back to `int` changes nothing. -/
def accept (s : CInt) (addr addrlen : Word) (st : Proc R) : Option (CInt × Proc R) :=
  match do_io L t_hook_enable (.accept s addr addrlen) s .read .rcvTimeo (-1#32) st with
  | none => none
  | some (fd, st) =>
      if 0 ≤ fd.toInt then
        (st.fds.get fd.toInt true).map fun got => (fd, { st with fds := got.1 })
      else some (fd, st)

/-- The ten functions that are `do_io` and nothing else: the event, and the timeout's name. -/
def readIo (c : Call) (fd : CInt) (refused : c.Ret) (s : Proc R) : Option (c.Ret × Proc R) :=
  do_io L t_hook_enable c fd .read .rcvTimeo refused s

def writeIo (c : Call) (fd : CInt) (refused : c.Ret) (s : Proc R) : Option (c.Ret × Proc R) :=
  do_io L t_hook_enable c fd .write .sndTimeo refused s

/-- `close`. -/
def close (fd : CInt) (s : Proc R) : Option (CInt × Proc R) :=
  if !t_hook_enable then some (s.original L (.close fd))
  else
    match s.look fd with
    | none => none
    | some none => some (s.original L (.close fd))
    | some (some _) =>
        match L.cancelAll fd s.rest with
        | none => none
        | some rest =>
            (s.fds.del fd.toInt).map fun fds =>
              Proc.original L (.close fd) { s with rest := rest, fds := fds }

/-- `fcntl`. -/
def fcntl (fd cmd : CInt) (arg : FcntlArg) (s : Proc R) : Option (CInt × Proc R) :=
  match fcntlCase cmd with
  | .setfl =>
      match arg.asInt, s.look fd with
      | some arg, some none => some (s.original L (.fcntl fd cmd (.int arg)))
      | some arg, some (some (p, ctx)) =>
          if !manages ctx then some (s.original L (.fcntl fd cmd (.int arg)))
          else
            let ctx := { ctx with m_userNonblock := asksNonblock arg }
            some ((s.store p ctx).original L
              (.fcntl fd cmd (.int (withNonblock arg ctx.m_sysNonblock))))
      | _, _ => none
  | .getfl =>
      let (arg, s) := s.original L (.fcntl fd cmd .none)
      match s.look fd with
      | none => none
      | some none => some (arg, s)
      | some (some (_, ctx)) =>
          if !manages ctx then some (arg, s) else some (withNonblock arg ctx.m_userNonblock, s)
  | .int => arg.asInt.map fun arg => s.original L (.fcntl fd cmd (.int arg))
  | .none => some (s.original L (.fcntl fd cmd .none))
  | .pointer => arg.asPointer.map fun arg => s.original L (.fcntl fd cmd (.pointer arg))
  | .default => some (s.original L (.fcntl fd cmd .none))

/-- `ioctl`; the third argument is read whether or not there is one. -/
def ioctl (d : CInt) (request : Word) (arg : Option Word) (s : Proc R) : Option (CInt × Proc R) :=
  match arg with
  | none => none
  | some arg =>
      if FIONBIO = request then
        match L.int s.rest arg, s.look d with
        | some _, some none => some (s.original L (.ioctl d request (some arg)))
        | some value, some (some (p, ctx)) =>
            if !manages ctx then some (s.original L (.ioctl d request (some arg)))
            else
              some ((s.store p { ctx with m_userNonblock := value != 0#32 }).original L
                (.ioctl d request (some arg)))
        | _, _ => none
      else some (s.original L (.ioctl d request (some arg)))

/-- `getsockopt`. -/
def getsockopt (sockfd level optname : CInt) (optval optlen : Word) (s : Proc R) :
    Option (CInt × Proc R) :=
  some (s.original L (.getsockopt sockfd level optname optval optlen))

/-- `setsockopt`. -/
def setsockopt (sockfd level optname : CInt) (optval : Word) (optlen : CInt) (s : Proc R) :
    Option (CInt × Proc R) :=
  let forward := fun s : Proc R =>
    some (s.original L (.setsockopt sockfd level optname optval optlen))
  if !t_hook_enable then forward s
  else if level = SOL_SOCKET ∧ (optname = SO_RCVTIMEO ∨ optname = SO_SNDTIMEO) then
    match s.look sockfd with
    | none => none
    | some none => forward s
    | some (some (p, ctx)) =>
        match L.timeval s.rest optval with
        | none => none
        | some (tv_sec, tv_usec) =>
            forward (s.store p (setTimeout ctx optname (Timers.timevalTimeout tv_sec tv_usec)))
  else forward s

/-- The replacement of a function, on a thread whose `t_hook_enable` is given. -/
def hooked (s_connect_timeout : UInt64) : (c : Call) → Proc R → Option (c.Ret × Proc R)
  | .sleep seconds => sleep L t_hook_enable seconds
  | .usleep usec => usleep L t_hook_enable usec
  | .nanosleep req rem => nanosleep L t_hook_enable req rem
  | .socket domain type protocol => socket L t_hook_enable domain type protocol
  | .connect sockfd addr addrlen => connect L t_hook_enable s_connect_timeout sockfd addr addrlen
  | .accept s addr addrlen => accept L t_hook_enable s addr addrlen
  | .read fd buf count => readIo L t_hook_enable (.read fd buf count) fd (-1#64)
  | .readv fd iov iovcnt => readIo L t_hook_enable (.readv fd iov iovcnt) fd (-1#64)
  | .recv fd buf len flags => readIo L t_hook_enable (.recv fd buf len flags) fd (-1#64)
  | .recvfrom fd buf len flags src_addr addrlen =>
      readIo L t_hook_enable (.recvfrom fd buf len flags src_addr addrlen) fd (-1#64)
  | .recvmsg fd msg flags => readIo L t_hook_enable (.recvmsg fd msg flags) fd (-1#64)
  | .write fd buf count => writeIo L t_hook_enable (.write fd buf count) fd (-1#64)
  | .writev fd iov iovcnt => writeIo L t_hook_enable (.writev fd iov iovcnt) fd (-1#64)
  | .send fd msg len flags => writeIo L t_hook_enable (.send fd msg len flags) fd (-1#64)
  | .sendto fd msg len flags addr tolen =>
      writeIo L t_hook_enable (.sendto fd msg len flags addr tolen) fd (-1#64)
  | .sendmsg fd msg flags => writeIo L t_hook_enable (.sendmsg fd msg flags) fd (-1#64)
  | .close fd => close L t_hook_enable fd
  | .fcntl fd cmd arg => fcntl L fd cmd arg
  | .ioctl d request arg => ioctl L d request arg
  | .getsockopt sockfd level optname optval optlen =>
      getsockopt L sockfd level optname optval optlen
  | .setsockopt sockfd level optname optval optlen =>
      setsockopt L t_hook_enable sockfd level optname optval optlen

end Wrappers

/-! ## One bit of a word -/

theorem O_NONBLOCK_eq : O_NONBLOCK = BitVec.twoPow 32 11 := rfl

theorem asksNonblock_eq (arg : CInt) : asksNonblock arg = arg.getLsbD 11 := by
  unfold asksNonblock
  rw [O_NONBLOCK_eq, BitVec.and_twoPow]
  cases h : arg.getLsbD 11 with
  | true => rfl
  | false => rfl

theorem withNonblock_getLsbD (arg : CInt) (nonblock : Bool) (i : Nat) :
    (withNonblock arg nonblock).getLsbD i = if i = 11 then nonblock else arg.getLsbD i := by
  unfold withNonblock
  cases nonblock with
  | true =>
      rw [if_pos rfl, BitVec.getLsbD_or, O_NONBLOCK_eq, BitVec.getLsbD_twoPow]
      by_cases hi : i = 11
      · simp [hi]
      · simp [hi, Ne.symm hi]
  | false =>
      rw [if_neg (by simp), BitVec.getLsbD_and, BitVec.getLsbD_not, O_NONBLOCK_eq,
        BitVec.getLsbD_twoPow]
      by_cases hi : i = 11
      · simp [hi]
      · by_cases hlt : i < 32
        · simp [hi, Ne.symm hi, hlt]
        · simp [hi, hlt, BitVec.getLsbD_of_ge arg i (by omega)]

@[simp] theorem asksNonblock_withNonblock (arg : CInt) (nonblock : Bool) :
    asksNonblock (withNonblock arg nonblock) = nonblock := by
  rw [asksNonblock_eq, withNonblock_getLsbD, if_pos rfl]

/-- Setting the bit leaves a word alone iff it is what the word has. -/
theorem withNonblock_eq_self {arg : CInt} {nonblock : Bool} :
    withNonblock arg nonblock = arg ↔ asksNonblock arg = nonblock := by
  constructor
  · intro h
    rw [← h, asksNonblock_withNonblock]
  · rintro rfl
    refine BitVec.eq_of_getLsbD_eq fun i _ => ?_
    rw [withNonblock_getLsbD, asksNonblock_eq]
    split
    · next hi => rw [hi]
    · rfl

/-- The other bits do not change. -/
theorem withNonblock_congr (arg : CInt) (a b : Bool) :
    withNonblock (withNonblock arg a) b = withNonblock arg b := by
  refine BitVec.eq_of_getLsbD_eq fun i _ => ?_
  rw [withNonblock_getLsbD, withNonblock_getLsbD, withNonblock_getLsbD]
  split <;> rfl

/-! ## Without the hook -/

section Disabled

variable {R : Type} {L : Libc R}

/-- **The replacement is its original**: one call of it, with the same arguments, its result, and
nothing else. -/
def Transparent (L : Libc R) (s_connect_timeout : UInt64) (c : Call) (s : Proc R) : Prop :=
  hooked L false s_connect_timeout c s = some (s.original L c)

/-- The manager holds a context for the descriptor. -/
def Held (s : Proc R) (fd : CInt) : Prop :=
  ∃ p, s.fds.get fd.toInt false = some (s.fds, some p)

/-- The table has the descriptor's slot, and `agrees` holds of a context that manages it. -/
def AgreesWith (s : Proc R) (fd : CInt) (agrees : FdCtx → Prop) : Prop :=
  ∃ found, s.look fd = some found ∧
    ∀ p ctx, found = some (p, ctx) → manages ctx = true → agrees ctx

/-- Where the replacement is its original, on a thread without the hook. -/
def TransparentWhen (L : Libc R) (s : Proc R) : Call → Prop
  | .usleep _ => False
  | .accept fd addr addrlen =>
      let (rt, after) := s.original L (.accept fd addr addrlen)
      0 ≤ rt.toInt → Held after rt
  | .fcntl fd cmd arg =>
      match fcntlCase cmd with
      | .setfl => ∃ flags, arg = .int flags ∧ AgreesWith s fd fun ctx =>
          ctx.m_userNonblock = asksNonblock flags ∧ ctx.m_sysNonblock = asksNonblock flags
      | .getfl => arg = .none ∧
          let (flags, after) := s.original L (.fcntl fd cmd .none)
          AgreesWith after fd fun ctx => ctx.m_userNonblock = asksNonblock flags
      | .int => ∃ v, arg = .int v
      | .none | .default => arg = .none
      | .pointer => ∃ p, arg = .pointer p
  | .ioctl d request arg =>
      ∃ p, arg = some p ∧ (request = FIONBIO → ∃ value, L.int s.rest p = some value ∧
        AgreesWith s d fun ctx => ctx.m_userNonblock = (value != 0#32))
  | .sleep _ | .nanosleep .. | .socket .. | .connect .. | .read .. | .readv .. | .recv ..
  | .recvfrom .. | .recvmsg .. | .write .. | .writev .. | .send .. | .sendto .. | .sendmsg ..
  | .close _ | .getsockopt .. | .setsockopt .. => True

variable {s s₁ : Proc R} {c c₁ : Call} {fd : CInt} {p : Nat} {ctx ctx₁ : FdCtx}

/-! ### What a call leaves behind -/

@[simp] theorem original_made (c : Call) (s : Proc R) :
    (s.original L c).2.made = s.made ++ [c] := rfl

@[simp] theorem original_heap (c : Call) (s : Proc R) :
    (s.original L c).2.fds.heap = s.fds.heap := rfl

@[simp] theorem original_datas (c : Call) (s : Proc R) :
    (s.original L c).2.fds.m_datas = s.fds.m_datas := rfl

/-- Different original calls leave different traces. -/
theorem call_eq_of_original (h : (s₁.original L c₁).2 = (s.original L c).2)
    (hmade : s₁.made = s.made) : c₁ = c := by
  have hlast : s₁.made ++ [c₁] = s.made ++ [c] := congrArg Proc.made h
  rw [hmade] at hlast
  simpa using hlast

/-- A context is found where the slot has its handle. -/
theorem look_eq_some : s.look fd = some (some (p, ctx)) ↔
    Fd.slot s.fds.m_datas fd.toInt = some (some p) ∧ s.fds.heap[p]? = some ctx := by
  unfold Proc.look
  rw [Fd.get_plain]
  cases Fd.slot s.fds.m_datas fd.toInt with
  | none => simp
  | some q =>
      cases q with
      | none => simp
      | some q =>
          simp only [Option.map_some, Option.map_eq_some_iff, Option.some.injEq, Prod.mk.injEq]
          constructor
          · rintro ⟨ctx₁, hctx, rfl, rfl⟩
            exact ⟨rfl, hctx⟩
          · rintro ⟨rfl, hctx⟩
            exact ⟨ctx, hctx, rfl, rfl⟩

theorem look_heap (h : s.look fd = some (some (p, ctx))) : s.fds.heap[p]? = some ctx :=
  (look_eq_some.mp h).2

theorem store_self (hp : s.fds.heap[p]? = some ctx) : s.store p ctx = s := by
  obtain ⟨hlt, rfl⟩ := List.getElem?_eq_some_iff.mp hp
  simp [Proc.store]

/-- A call behind a store is a call without it only if the store changed nothing. -/
theorem store_original (hp : s.fds.heap[p]? = some ctx)
    (h : ((s.store p ctx₁).original L c₁).2 = (s.original L c).2) : c₁ = c ∧ ctx₁ = ctx := by
  refine ⟨call_eq_of_original h rfl, ?_⟩
  have hheap : s.fds.heap.set p ctx₁ = s.fds.heap := congrArg (fun s => s.fds.heap) h
  have hlt := (List.getElem?_eq_some_iff.mp hp).1
  have hat := congrArg (fun l => l[p]?) hheap
  simp only [List.getElem?_set_self hlt, hp] at hat
  exact Option.some.inj hat

/-! ### The four that are not always their originals -/

theorem usleep_not_transparent (s_connect_timeout : UInt64) (usec : CInt) (s : Proc R) :
    ¬ Transparent L s_connect_timeout (.usleep usec) s := by
  intro h
  have hrest := congrArg Prod.snd (Option.some.inj h)
  cases call_eq_of_original hrest rfl

theorem accept_transparent_iff {s_connect_timeout : UInt64} {addr addrlen : Word} :
    Transparent L s_connect_timeout (.accept fd addr addrlen) s ↔
      TransparentWhen L s (.accept fd addr addrlen) := by
  show (match some (s.original L (.accept fd addr addrlen)) with
    | none => none
    | some (fd, st) =>
        if 0 ≤ fd.toInt then (st.fds.get fd.toInt true).map fun got => (fd, { st with fds := got.1 })
        else some (fd, st)) = some (s.original L (.accept fd addr addrlen)) ↔ _
  simp only [TransparentWhen]
  generalize s.original L (.accept fd addr addrlen) = o
  obtain ⟨rt, after⟩ := o
  by_cases hneg : 0 ≤ rt.toInt
  · simp only [hneg, if_true, true_implies]
    rw [Held, ← Fd.get_true_eq_self]
    constructor
    · intro h
      obtain ⟨⟨m, r⟩, hget, heq⟩ := Option.map_eq_some_iff.mp h
      have hm : m = after.fds := congrArg (fun o : CInt × Proc R => o.2.fds) heq
      exact ⟨r, hm ▸ hget⟩
    · rintro ⟨r, hget⟩
      rw [hget]
      rfl
  · simp [hneg]

/-- Handing an argument on is the original call iff it is the argument that was given. -/
theorem handed_on {cmd : CInt} {arg arg₁ : FcntlArg} :
    some (s.original L (.fcntl fd cmd arg₁)) = some (s.original L (.fcntl fd cmd arg)) ↔
      arg₁ = arg := by
  constructor
  · intro h
    have hrest := congrArg Prod.snd (Option.some.inj h)
    have hcall := call_eq_of_original hrest rfl
    exact (Call.fcntl.inj hcall).2.2
  · rintro rfl
    rfl

theorem agreesWith_none {agrees : FdCtx → Prop} (h : s.look fd = some none) :
    AgreesWith s fd agrees := ⟨none, h, by simp⟩

/-- With a context that is found, agreement is about that context. -/
theorem agreesWith_some {agrees : FdCtx → Prop} (h : s.look fd = some (some (p, ctx))) :
    AgreesWith s fd agrees ↔ (manages ctx = true → agrees ctx) := by
  constructor
  · rintro ⟨found, hfound, hag⟩ hm
    obtain rfl := Option.some.inj (hfound.symm.trans h)
    exact hag p ctx rfl hm
  · intro hag
    refine ⟨_, h, ?_⟩
    rintro q ctx' heq hm
    obtain ⟨-, rfl⟩ := Prod.mk.inj (Option.some.inj heq)
    exact hag hm

theorem setfl_transparent_iff {cmd : CInt} {arg : FcntlArg} (hcase : fcntlCase cmd = .setfl) :
    fcntl L fd cmd arg s = some (s.original L (.fcntl fd cmd arg)) ↔
      ∃ flags, arg = .int flags ∧ AgreesWith s fd fun ctx =>
        ctx.m_userNonblock = asksNonblock flags ∧ ctx.m_sysNonblock = asksNonblock flags := by
  unfold fcntl
  simp only [hcase]
  cases arg with
  | none => simp [FcntlArg.asInt]
  | pointer a => simp [FcntlArg.asInt]
  | int flags =>
      simp only [FcntlArg.asInt, FcntlArg.int.injEq, exists_eq_left']
      cases hlook : s.look fd with
      | none => simp [AgreesWith, hlook]
      | some found =>
          cases found with
          | none => simp [agreesWith_none hlook]
          | some pc =>
              obtain ⟨p, ctx⟩ := pc
              rw [agreesWith_some hlook]
              cases hm : manages ctx with
              | false => simp [hm]
              | true =>
                  -- the flag is stored and the word translated: both have to change nothing
                  simp only [hm, Bool.not_true, Bool.false_eq_true, if_false, true_implies]
                  constructor
                  · intro h
                    have hrest := congrArg Prod.snd (Option.some.inj h)
                    obtain ⟨hcall, hctx⟩ := store_original (look_heap hlook) hrest
                    have hflags : withNonblock flags ctx.m_sysNonblock = flags :=
                      FcntlArg.int.inj (Call.fcntl.inj hcall).2.2
                    exact ⟨(congrArg FdCtx.m_userNonblock hctx).symm,
                      (withNonblock_eq_self.mp hflags).symm⟩
                  · rintro ⟨huser, hsys⟩
                    have hctx : { ctx with m_userNonblock := asksNonblock flags } = ctx := by
                      rw [← huser]
                    rw [hctx, withNonblock_eq_self.mpr hsys.symm, store_self (look_heap hlook)]

theorem getfl_transparent_iff {cmd : CInt} {arg : FcntlArg} (hcase : fcntlCase cmd = .getfl) :
    fcntl L fd cmd arg s = some (s.original L (.fcntl fd cmd arg)) ↔
      arg = .none ∧ AgreesWith (s.original L (.fcntl fd cmd .none)).2 fd fun ctx =>
        ctx.m_userNonblock = asksNonblock (s.original L (.fcntl fd cmd .none)).1 := by
  unfold fcntl
  simp only [hcase]
  have harg : ∀ rt : CInt, some (rt, (s.original L (.fcntl fd cmd .none)).2)
      = some (s.original L (.fcntl fd cmd arg)) → arg = .none := by
    intro rt h
    have hrest := congrArg Prod.snd (Option.some.inj h)
    have hcall := call_eq_of_original hrest rfl
    exact (Call.fcntl.inj hcall).2.2.symm
  cases hlook : (s.original L (.fcntl fd cmd .none)).2.look fd with
  | none => simp [AgreesWith, hlook]
  | some found =>
      cases found with
      | none =>
          simp only [agreesWith_none hlook, and_true]
          exact ⟨harg _, fun h => h ▸ rfl⟩
      | some pc =>
          obtain ⟨p, ctx⟩ := pc
          rw [agreesWith_some hlook]
          cases hm : manages ctx with
          | false =>
              simp only [hm, Bool.not_false, if_true, Bool.false_eq_true, false_implies, and_true]
              exact ⟨harg _, fun h => h ▸ rfl⟩
          | true =>
              simp only [hm, Bool.not_true, Bool.false_eq_true, if_false, true_implies]
              constructor
              · intro h
                have hnone := harg _ h
                subst hnone
                have hrt := congrArg Prod.fst (Option.some.inj h)
                exact ⟨rfl, (withNonblock_eq_self.mp hrt).symm⟩
              · rintro ⟨rfl, huser⟩
                rw [withNonblock_eq_self.mpr huser.symm]

theorem fcntl_transparent_iff {s_connect_timeout : UInt64} {cmd : CInt} {arg : FcntlArg} :
    Transparent L s_connect_timeout (.fcntl fd cmd arg) s ↔
      TransparentWhen L s (.fcntl fd cmd arg) := by
  show fcntl L fd cmd arg s = _ ↔ _
  simp only [TransparentWhen]
  cases hcase : fcntlCase cmd with
  | setfl => exact setfl_transparent_iff hcase
  | getfl => exact getfl_transparent_iff hcase
  | int =>
      unfold fcntl
      simp only [hcase]
      cases arg with
      | int v => simp [FcntlArg.asInt]
      | none | pointer => simp [FcntlArg.asInt]
  | pointer =>
      unfold fcntl
      simp only [hcase]
      cases arg with
      | pointer v => simp [FcntlArg.asPointer]
      | none | int => simp [FcntlArg.asPointer]
  | none | default =>
      unfold fcntl
      simp only [hcase]
      rw [handed_on, eq_comm]

theorem ioctl_transparent_iff {s_connect_timeout : UInt64} {request : Word} {arg : Option Word} :
    Transparent L s_connect_timeout (.ioctl fd request arg) s ↔
      TransparentWhen L s (.ioctl fd request arg) := by
  show ioctl L fd request arg s = _ ↔ _
  unfold ioctl
  simp only [TransparentWhen]
  cases arg with
  | none => simp
  | some a =>
      simp only [Option.some.injEq, exists_eq_left']
      by_cases hreq : FIONBIO = request
      · simp only [hreq, if_true, true_implies]
        cases hval : L.int s.rest a with
        | none => simp
        | some value =>
            simp only [Option.some.injEq, exists_eq_left']
            cases hlook : s.look fd with
            | none => simp [AgreesWith, hlook]
            | some found =>
                cases found with
                | none => simp [agreesWith_none hlook]
                | some pc =>
                    obtain ⟨p, ctx⟩ := pc
                    rw [agreesWith_some hlook]
                    cases hm : manages ctx with
                    | false => simp [hm]
                    | true =>
                        simp only [hm, Bool.not_true, Bool.false_eq_true, if_false, true_implies]
                        constructor
                        · intro h
                          have hrest := congrArg Prod.snd (Option.some.inj h)
                          obtain ⟨-, hctx⟩ := store_original (look_heap hlook) hrest
                          exact (congrArg FdCtx.m_userNonblock hctx).symm
                        · intro huser
                          rw [← huser, store_self (look_heap hlook)]
      · simp [hreq, Ne.symm hreq]

/-! ### All twenty-one -/

/-- **`transparent_iff`** — on a thread without the hook, whatever the original functions do and
whatever the table holds, a replacement is its original exactly under `TransparentWhen`. -/
theorem transparent_iff (L : Libc R) (s_connect_timeout : UInt64) (c : Call) (s : Proc R) :
    Transparent L s_connect_timeout c s ↔ TransparentWhen L s c := by
  cases c with
  | usleep usec => exact iff_of_false (usleep_not_transparent s_connect_timeout usec s) id
  | accept fd addr addrlen => exact accept_transparent_iff
  | fcntl fd cmd arg => exact fcntl_transparent_iff
  | ioctl d request arg => exact ioctl_transparent_iff
  -- the rest ask for `t_hook_enable` first
  | sleep | nanosleep | socket | connect | read | readv | recv | recvfrom | recvmsg | write | writev
  | send | sendto | sendmsg | close | getsockopt | setsockopt => exact iff_of_true rfl trivial

end Disabled

/-- The answer 0. -/
def Call.zero : (c : Call) → c.Ret
  | .read .. | .readv .. | .recv .. | .recvfrom .. | .recvmsg .. | .write .. | .writev .. | .send ..
  | .sendto .. | .sendmsg .. => 0#64
  | .sleep _ | .usleep _ | .nanosleep .. | .socket .. | .connect .. | .accept .. | .close _
  | .fcntl .. | .ioctl .. | .getsockopt .. | .setsockopt .. => 0#32

/-- Originals that answer 0 and do nothing. -/
def quietLibc : Libc Unit where
  original c o := (c.zero, o)
  wait c _ o := (c.zero, o)
  cancelAll _ r := some r
  int _ _ := none
  timeval _ _ := none
  timespec _ _ := none

/-- `usleep(1000)`: a millisecond becomes `sleep_f(1000)`. -/
theorem usleep_is_sleep :
    ¬ ∀ (c : Call) (s : Proc Unit), Transparent quietLibc 5000 c s := fun h =>
  usleep_not_transparent 5000 1000#32
    ⟨FdManager.new Fd.socketKernel, 0, (), []⟩ (h (.usleep 1000#32) _)

end Sylar.Hook
