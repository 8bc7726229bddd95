/-
# Sylar.Hook.Duration — what becomes of a duration (`sleep`, `usleep`, `nanosleep` and `setsockopt` in
`sylar/hook.cpp`).

The hooks turn what the caller asks for into milliseconds of a `uint64_t`.  On the way `sleep` multiplies
in `unsigned int`, `usleep` and both structures are divided towards zero, and `nanosleep` puts its `long`
into an `int`.  `setsockopt` stores the result in the context, before the kernel is asked, for `do_io`
to take `(uint64_t)-1` as "none" and 0 as no time at all.

Everything is compared in exact arithmetic: a sleep with the delay its timer gets (`long_enough_iff`), a
socket timeout with the one the next `do_io` goes by (`timeout_set_iff`).  Where a `long` overflows the
source says nothing, and nothing is counted as kept.
-/
import Sylar.Hook.Calls
import Mathlib.Algebra.Group.Int.Defs

namespace Sylar.Hook

open Fd (FdCtx FdManager)

variable {R : Type}

/-- What the wrappers wait for is noted. -/
def Libc.recorded (L : Libc R) : Libc (R × List Waiting) where
  original c o :=
    let r := L.original c ⟨o.kernel, o.errno, o.rest.1⟩
    (r.1, ⟨r.2.kernel, r.2.errno, (r.2.rest, o.rest.2)⟩)
  wait c w o :=
    let r := L.wait c w ⟨o.kernel, o.errno, o.rest.1⟩
    (r.1, ⟨r.2.kernel, r.2.errno, (r.2.rest, o.rest.2 ++ [w])⟩)
  cancelAll fd r := (L.cancelAll fd r.1).map fun rest => (rest, r.2)
  int r := L.int r.1
  timeval r := L.timeval r.1
  timespec r := L.timespec r.1

/-- What a call on a thread with the hook waits for. -/
def asked (L : Libc R) (s_connect_timeout : UInt64) (s : Proc R) (c : Call) : Option (List Waiting) :=
  (hooked L.recorded true s_connect_timeout c ⟨s.fds, s.errno, (s.rest, []), s.made⟩).map
    fun r => r.2.rest.2

/-! ## Sleeping -/

/-- The duration a sleep is called with, in nanoseconds; `none` if it is not a valid one. -/
def requested (L : Libc R) (s : Proc R) : Call → Option Int
  | .sleep seconds => some (seconds.toNat * 1000000000)
  | .usleep usec => some (usec.toNat * 1000)
  | .nanosleep req _ =>
      (L.timespec s.rest req).bind fun tv =>
        if 0 ≤ tv.1.toInt ∧ 0 ≤ tv.2.toInt ∧ tv.2.toInt < 1000000000 then
          some (tv.1.toInt * 1000000000 + tv.2.toInt)
        else none
  | _ => none

/-- The milliseconds `nanosleep` computes, exactly. -/
def specMs (tv : Int64 × Int64) : Int := tv.1.toInt * 1000 + tv.2.toInt / 1000000

/-- The `long` the call computes does not overflow. -/
def Defined (L : Libc R) (s : Proc R) : Call → Prop
  | .nanosleep req _ => ∀ tv ∈ L.timespec s.rest req, specMs tv < 2 ^ 63
  | _ => True

/-- The delay of the timer is not shorter than `ns` nanoseconds. -/
structure LongEnough (L : Libc R) (s_connect_timeout : UInt64) (s : Proc R) (c : Call) (ns : Int) :
    Prop where
  no_overflow : Defined L s c
  delay : ∃ ms, asked L s_connect_timeout s c = some [.timer ms] ∧ ns ≤ ms.toNat * 1000000

/-- Where a sleep is long enough: the product fits, nothing is cut off, and the `int` holds what was
computed, or is negative. -/
def SleepSafe (L : Libc R) (s : Proc R) : Call → Prop
  | .sleep seconds => seconds.toNat * 1000 < 2 ^ 32
  | .usleep usec => usec.toNat % 1000 = 0
  | .nanosleep req _ => ∀ tv ∈ L.timespec s.rest req, specMs tv < 2 ^ 63 ∧
      (specMs tv < 2 ^ 31 ∧ tv.2.toInt % 1000000 = 0 ∨ 2 ^ 31 ≤ specMs tv % 2 ^ 32)
  | _ => True

section Sleep

variable {L : Libc R} {s_connect_timeout : UInt64} {s : Proc R} {ns : Int}

/-- A call that waits for one timer is long enough if that timer is. -/
theorem longEnough_iff {c : Call} {ms : UInt64}
    (h : asked L s_connect_timeout s c = some [.timer ms]) :
    LongEnough L s_connect_timeout s c ns ↔ Defined L s c ∧ ns ≤ ms.toNat * 1000000 := by
  constructor
  · rintro ⟨hdef, ms', hms', hle⟩
    obtain rfl : ms = ms' := by simpa [h] using hms'
    exact ⟨hdef, hle⟩
  · rintro ⟨hdef, hle⟩
    exact ⟨hdef, ms, h, hle⟩

/-- A signed number as a `uint64_t`. -/
theorem toUInt64_toNat (x : Int64) : (x.toUInt64.toNat : Int) = x.toInt % 2 ^ 64 := by
  have hlt : x.toUInt64.toNat < 2 ^ 64 := x.toUInt64.toNat_lt
  have hx : x.toInt = (x.toUInt64.toNat : Int).bmod (2 ^ 64) :=
    BitVec.toInt_eq_toNat_bmod x.toBitVec
  have hmod : x.toInt % (2 ^ 64 : Nat) = (x.toUInt64.toNat : Int) % (2 ^ 64 : Nat) := by
    rw [hx, Int.bmod_emod]
  omega

/-- Dividing what is not negative by a positive constant. -/
theorem toInt_div_pos {a b : Int64} (ha : 0 ≤ a.toInt) (hb : 0 < b.toInt) :
    (a / b).toInt = a.toInt / b.toInt := by
  have hne : b ≠ -1 := by
    rintro rfl
    exact absurd hb (by decide)
  rw [Int64.toInt_div_of_ne_right a b hne, Int.tdiv_eq_ediv_of_nonneg ha]

/-- `unsigned int` seconds to milliseconds. -/
theorem sleep_iff (seconds : CInt) :
    LongEnough L s_connect_timeout s (.sleep seconds) (seconds.toNat * 1000000000) ↔
      SleepSafe L s (.sleep seconds) := by
  have hasked : asked L s_connect_timeout s (.sleep seconds)
      = some [.timer (seconds * 1000#32).toNat.toUInt64] := rfl
  have hms : (seconds * 1000#32).toNat.toUInt64.toNat = seconds.toNat * 1000 % 2 ^ 32 := by
    show seconds.toNat * 1000 % 2 ^ 32 % 2 ^ 64 = _
    omega
  rw [longEnough_iff hasked, hms]
  simp only [Defined, SleepSafe, true_and]
  omega

/-- Microseconds to milliseconds. -/
theorem usleep_iff (usec : CInt) :
    LongEnough L s_connect_timeout s (.usleep usec) (usec.toNat * 1000) ↔
      SleepSafe L s (.usleep usec) := by
  have hasked : asked L s_connect_timeout s (.usleep usec)
      = some [.timer (usec / 1000#32).toNat.toUInt64] := rfl
  have hlt : usec.toNat < 2 ^ 32 := usec.isLt
  have hms : (usec / 1000#32).toNat.toUInt64.toNat = usec.toNat / 1000 := by
    show usec.toNat / 1000 % 2 ^ 64 = _
    omega
  rw [longEnough_iff hasked, hms]
  simp only [Defined, SleepSafe, true_and]
  omega

/-- A `timespec`, through `long` and `int`. -/
theorem nanosleep_iff {req : Word} (rem : Word) {tv : Int64 × Int64}
    (htv : L.timespec s.rest req = some tv) (hsec : 0 ≤ tv.1.toInt) (hnsec : 0 ≤ tv.2.toInt)
    (hlt : tv.2.toInt < 1000000000) :
    LongEnough L s_connect_timeout s (.nanosleep req rem) (tv.1.toInt * 1000000000 + tv.2.toInt) ↔
      SleepSafe L s (.nanosleep req rem) := by
  have hasked : asked L s_connect_timeout s (.nanosleep req rem) = some [.timer
      (tv.1 * 1000 + tv.2 / 1000 / 1000).toInt32.toInt64.toUInt64] := by
    simp only [asked, hooked, nanosleep, Libc.recorded, htv]
    rfl
  have hdiv : (tv.2 / 1000 / 1000).toInt = tv.2.toInt / 1000000 := by
    have h1 : (tv.2 / 1000).toInt = tv.2.toInt / 1000 := toInt_div_pos hnsec (by decide)
    have h2 : (tv.2 / 1000 / 1000).toInt = (tv.2 / 1000).toInt / 1000 :=
      toInt_div_pos (by omega) (by decide)
    omega
  have hlong : (tv.1 * 1000 + tv.2 / 1000 / 1000).toInt = (specMs tv).bmod (2 ^ 64) := by
    rw [Int64.toInt_add, Int64.toInt_mul, hdiv, Int.bmod_add_bmod]
    rfl
  have hint : ((tv.1 * 1000 + tv.2 / 1000 / 1000).toInt32.toInt64.toUInt64.toNat : Int)
      = (specMs tv).bmod (2 ^ 32) % 2 ^ 64 := by
    rw [toUInt64_toNat, Int32.toInt_toInt64, Int64.toInt_toInt32, hlong,
      Int.bmod_bmod_of_dvd (by decide)]
  have hbmod : (specMs tv).bmod (2 ^ 32) = if specMs tv % 2 ^ 32 < 2 ^ 31 then specMs tv % 2 ^ 32
      else specMs tv % 2 ^ 32 - 2 ^ 32 := by
    rw [Int.bmod_def]
    split <;> split <;> omega
  have hms : specMs tv = tv.1.toInt * 1000 + tv.2.toInt / 1000000 := rfl
  rw [longEnough_iff hasked, hint, hbmod]
  simp only [Defined, SleepSafe, htv, Option.mem_some_iff, forall_eq']
  omega

/-- **`long_enough_iff`** — a hooked sleep of any valid duration, on any thread with the hook, is never
shorter than that, exactly under `SleepSafe`. -/
theorem long_enough_iff (L : Libc R) (s_connect_timeout : UInt64) (s : Proc R) (c : Call) (ns : Int)
    (h : requested L s c = some ns) :
    LongEnough L s_connect_timeout s c ns ↔ SleepSafe L s c := by
  cases c with
  | sleep seconds =>
      obtain rfl := Option.some.inj h
      exact sleep_iff seconds
  | usleep usec =>
      obtain rfl := Option.some.inj h
      exact usleep_iff usec
  | nanosleep req rem =>
      obtain ⟨tv, htv, hns⟩ := Option.bind_eq_some_iff.mp h
      split at hns
      · rename_i hvalid
        obtain rfl := Option.some.inj hns
        exact nanosleep_iff rem htv hvalid.1 hvalid.2.1 hvalid.2.2
      · cases hns
  | _ => cases h

end Sleep

/-- A process without descriptors. -/
def quietProc : Proc Unit := ⟨FdManager.new Fd.socketKernel, 0, (), []⟩

theorem sleep_minute : LongEnough quietLibc 5000 quietProc (.sleep 60#32) 60000000000 :=
  (long_enough_iff quietLibc 5000 quietProc (.sleep 60#32) 60000000000 rfl).mpr (by
    show 60 * 1000 < 2 ^ 32
    decide)

/-- Fifty days are 704 milliseconds, and 999 microseconds are none; neither are 999999 nanoseconds. -/
theorem sleeps_shortened : (¬ ∀ (L : Libc Unit) (s : Proc Unit) (c : Call) (ns : Int),
      requested L s c = some ns → LongEnough L 5000 s c ns) ∧
    asked quietLibc 5000 quietProc (.sleep 4294968#32) = some [.timer 704] ∧
    asked quietLibc 5000 quietProc (.usleep 999#32) = some [.timer 0] ∧
    asked { quietLibc with timespec := fun _ _ => some (0, 999999) } 5000 quietProc
      (.nanosleep 1#64 0#64) = some [.timer 0] := by
  refine ⟨fun h => ?_, by decide, by decide, by decide⟩
  have hshort := (usleep_iff 999#32).mp (h quietLibc quietProc (.usleep 999#32) 999000 rfl)
  exact absurd hshort (show ¬ 999 % 1000 = 0 by decide)

/-! ## Socket timeouts -/

/-- The timeout the next `do_io` on the descriptor goes by. -/
def ioTimeout (s : Proc R) (fd : CInt) (timeout_so : TimeoutSo) : Option Nat :=
  match s.look fd with
  | some (some (_, ctx)) => some (getTimeout ctx timeout_so)
  | _ => none

/-- The direction an option is about. -/
def direction (optname : CInt) : TimeoutSo := if optname = SO_RCVTIMEO then .rcvTimeo else .sndTimeo

/-- What the kernel means by a time of `us` microseconds: zero is none, and any other is not cut. -/
def Means (timeout : Nat) (us : Int) : Prop :=
  if us = 0 then timeout = Fd.noTimeout
  else timeout ≠ Fd.noTimeout ∧ 0 < timeout ∧ us ≤ timeout * 1000

/-- The milliseconds `setsockopt` computes, exactly. -/
def valMs (tv : Int64 × Int64) : Int := tv.1.toInt * 1000 + tv.2.toInt / 1000

/-- What a `timeval` says, in microseconds. -/
def valUs (tv : Int64 × Int64) : Int := tv.1.toInt * 1000000 + tv.2.toInt

/-- `setsockopt` of a timeout sets what the kernel does if the kernel takes it, and nothing if not. -/
structure TimeoutSet (L : Libc R) (s_connect_timeout : UInt64) (s : Proc R) (sockfd optname : CInt)
    (optval : Word) (optlen : CInt) (tv : Int64 × Int64) : Prop where
  no_overflow : valMs tv < 2 ^ 63
  outcome : ∃ rt s', hooked L true s_connect_timeout
      (.setsockopt sockfd SOL_SOCKET optname optval optlen) s = some (rt, s') ∧
    if rt = 0#32 then
      (∃ timeout, ioTimeout s' sockfd (direction optname) = some timeout ∧ Means timeout (valUs tv)) ∧
        ∀ so, so ≠ direction optname → ioTimeout s' sockfd so = ioTimeout s sockfd so
    else ∀ so, ioTimeout s' sockfd so = ioTimeout s sockfd so

/-- Where it does: the original takes the timeout, and that is a positive number of whole milliseconds;
or it does not, and there is nothing new about it. -/
def TimeoutSafe (L : Libc R) (s : Proc R) (sockfd optname : CInt) (optval : Word) (optlen : CInt)
    (ctx : FdCtx) (tv : Int64 × Int64) : Prop :=
  valMs tv < 2 ^ 63 ∧
    if (L.original (.setsockopt sockfd SOL_SOCKET optname optval optlen) s.outside).1 = 0#32 then
      valUs tv ≠ 0 ∧ tv.2.toInt % 1000 = 0
    else valMs tv = getTimeout ctx (direction optname)

section Timeout

variable {L : Libc R} {s : Proc R} {sockfd optname : CInt} {p : Nat} {ctx : FdCtx}

theorem getTimeout_setTimeout (hopt : optname = SO_RCVTIMEO ∨ optname = SO_SNDTIMEO) (v : UInt64)
    (so : TimeoutSo) : getTimeout (setTimeout ctx optname v) so =
      if so = direction optname then v.toNat else getTimeout ctx so := by
  rcases hopt with rfl | rfl
  · cases so with
    | rcvTimeo => rfl
    | sndTimeo => rfl
  · cases so with
    | rcvTimeo => rfl
    | sndTimeo => rfl

theorem ioTimeout_of_look (h : s.look sockfd = some (some (p, ctx))) (so : TimeoutSo) :
    ioTimeout s sockfd so = some (getTimeout ctx so) := by
  unfold ioTimeout
  rw [h]

/-- What is stored is found again, whatever the original does behind it. -/
theorem look_store_original {ctx₁ : FdCtx} (h : s.look sockfd = some (some (p, ctx))) (c : Call) :
    ((s.store p ctx₁).original L c).2.look sockfd = some (some (p, ctx₁)) := by
  obtain ⟨hslot, hctx⟩ := look_eq_some.mp h
  have hlt : p < s.fds.heap.length := (List.getElem?_eq_some_iff.mp hctx).1
  refine look_eq_some.mpr ⟨hslot, ?_⟩
  show (s.fds.heap.set p ctx₁)[p]? = some ctx₁
  exact List.getElem?_set_self hlt

/-- A `timeval` within `long`, as a `uint64_t`. -/
theorem timevalTimeout_toNat {tv : Int64 × Int64} (hsec : 0 ≤ tv.1.toInt) (husec : 0 ≤ tv.2.toInt)
    (hfits : valMs tv < 2 ^ 63) : ((Timers.timevalTimeout tv.1 tv.2).toNat : Int) = valMs tv := by
  have hdiv : (tv.2 / 1000).toInt = tv.2.toInt / 1000 := toInt_div_pos husec (by decide)
  have hval : valMs tv = tv.1.toInt * 1000 + tv.2.toInt / 1000 := rfl
  have hlong : (tv.1 * 1000 + tv.2 / 1000).toInt = (valMs tv).bmod (2 ^ 64) := by
    rw [Int64.toInt_add, Int64.toInt_mul, hdiv, Int.bmod_add_bmod]
    rfl
  have hsmall : (valMs tv).bmod (2 ^ 64) = valMs tv := by
    rw [Int.bmod_def]
    split <;> omega
  show ((tv.1 * 1000 + tv.2 / 1000).toUInt64.toNat : Int) = _
  rw [toUInt64_toNat, hlong, hsmall]
  omega

/-- The call: the context gets its timeout, and the answer is the original's. -/
theorem setsockopt_stores (s_connect_timeout : UInt64)
    (hopt : optname = SO_RCVTIMEO ∨ optname = SO_SNDTIMEO)
    (hlook : s.look sockfd = some (some (p, ctx))) {optval : Word} (optlen : CInt)
    {tv : Int64 × Int64} (htv : L.timeval s.rest optval = some tv) :
    ∃ s', hooked L true s_connect_timeout (.setsockopt sockfd SOL_SOCKET optname optval optlen) s =
        some ((L.original (.setsockopt sockfd SOL_SOCKET optname optval optlen) s.outside).1, s') ∧
      ∀ so, ioTimeout s' sockfd so = some (if so = direction optname then
        (Timers.timevalTimeout tv.1 tv.2).toNat else getTimeout ctx so) := by
  refine ⟨((s.store p (setTimeout ctx optname (Timers.timevalTimeout tv.1 tv.2))).original L
    (.setsockopt sockfd SOL_SOCKET optname optval optlen)).2, ?_, ?_⟩
  · simp only [hooked, setsockopt, hopt, hlook, htv]
    rfl
  · intro so
    rw [ioTimeout_of_look (look_store_original hlook _), getTimeout_setTimeout hopt]

/-- The outcome, in terms of what is stored. -/
theorem timeoutSet_iff (s_connect_timeout : UInt64)
    (hopt : optname = SO_RCVTIMEO ∨ optname = SO_SNDTIMEO)
    (hlook : s.look sockfd = some (some (p, ctx))) {optval : Word} (optlen : CInt)
    {tv : Int64 × Int64} (htv : L.timeval s.rest optval = some tv) :
    TimeoutSet L s_connect_timeout s sockfd optname optval optlen tv ↔ valMs tv < 2 ^ 63 ∧
      if (L.original (.setsockopt sockfd SOL_SOCKET optname optval optlen) s.outside).1 = 0#32 then
        Means (Timers.timevalTimeout tv.1 tv.2).toNat (valUs tv)
      else (Timers.timevalTimeout tv.1 tv.2).toNat = getTimeout ctx (direction optname) := by
  obtain ⟨s₁, hcall, hafter⟩ := setsockopt_stores s_connect_timeout hopt hlook optlen htv
  have hbefore := ioTimeout_of_look hlook
  constructor
  · rintro ⟨hfits, rt, s', hrun, hout⟩
    obtain ⟨rfl, rfl⟩ := Prod.mk.inj (Option.some.inj (hcall.symm.trans hrun))
    refine ⟨hfits, ?_⟩
    split at hout
    · -- the original takes it
      rename_i hok
      obtain ⟨⟨timeout, htimeout, hmeans⟩, -⟩ := hout
      rw [hafter, if_pos rfl] at htimeout
      rw [if_pos hok, Option.some.inj htimeout]
      exact hmeans
    · rename_i hfail
      have hsame := hout (direction optname)
      rw [hafter, hbefore, if_pos rfl] at hsame
      rw [if_neg hfail]
      exact Option.some.inj hsame
  · rintro ⟨hfits, hout⟩
    refine ⟨hfits, _, s₁, hcall, ?_⟩
    split at hout
    · rename_i hok
      rw [if_pos hok]
      refine ⟨⟨_, by rw [hafter, if_pos rfl], hout⟩, fun so hso => ?_⟩
      rw [hafter, hbefore, if_neg hso]
    · rename_i hfail
      rw [if_neg hfail]
      intro so
      rw [hafter, hbefore]
      split
      · rename_i hso
        rw [hout, hso]
      · rfl

/-- **`timeout_set_iff`** — whatever the original answers, a socket timeout set through the hook means
what the kernel means by it, exactly under `TimeoutSafe`. -/
theorem timeout_set_iff (L : Libc R) (s_connect_timeout : UInt64) (s : Proc R)
    (sockfd optname : CInt) (optval : Word) (optlen : CInt) (p : Nat) (ctx : FdCtx)
    (tv : Int64 × Int64) (hopt : optname = SO_RCVTIMEO ∨ optname = SO_SNDTIMEO)
    (hlook : s.look sockfd = some (some (p, ctx))) (htv : L.timeval s.rest optval = some tv)
    (hsec : 0 ≤ tv.1.toInt) (husec : 0 ≤ tv.2.toInt) (hlt : tv.2.toInt < 1000000) :
    TimeoutSet L s_connect_timeout s sockfd optname optval optlen tv ↔
      TimeoutSafe L s sockfd optname optval optlen ctx tv := by
  rw [timeoutSet_iff s_connect_timeout hopt hlook optlen htv, TimeoutSafe]
  refine and_congr_right fun hfits => ?_
  have hval := timevalTimeout_toNat hsec husec hfits
  have hms : valMs tv = tv.1.toInt * 1000 + tv.2.toInt / 1000 := rfl
  have hus : valUs tv = tv.1.toInt * 1000000 + tv.2.toInt := rfl
  have hnone : Fd.noTimeout = 2 ^ 64 - 1 := rfl
  split
  · rw [Means]
    split
    · -- zero is stored as zero, which is not "none"
      omega
    · omega
  · omega

end Timeout

/-- A socket with its context in the table. -/
def socketProc : Proc Unit :=
  { quietProc with
    fds := (quietProc.fds.get 3 true).elim quietProc.fds Prod.fst }

theorem socketProc_look : socketProc.look 3#32 = some (some (0, FdCtx.untouched 3)) := by
  decide

/-- Originals of which `setsockopt` answers `rt`, over a memory of one `timeval`. -/
def valLibc (rt : CInt) (tv : Int64 × Int64) : Libc Unit :=
  { quietLibc with
    original := fun c o =>
      match c with
      | .setsockopt .. => (rt, o)
      | c => (c.zero, o)
    timeval := fun _ _ => some tv }

theorem two_seconds : TimeoutSet (valLibc 0#32 (2, 0)) 5000 socketProc 3#32 SO_RCVTIMEO 1#64 16#32
    (2, 0) :=
  (timeout_set_iff (valLibc 0#32 (2, 0)) 5000 socketProc 3#32 SO_RCVTIMEO 1#64 16#32 0
    (FdCtx.untouched 3) (2, 0) (.inl rfl) socketProc_look rfl (by decide) (by decide)
    (by decide)).mpr ⟨by decide, by decide, by decide⟩

/-- A zero `timeval` is no time at all instead of no timeout, 1999 microseconds are one millisecond,
and a timeout the kernel refuses is kept. -/
theorem timeouts_differ : (¬ ∀ (L : Libc Unit) (s : Proc Unit) (sockfd optname : CInt) (optval : Word)
      (optlen : CInt) (p : Nat) (ctx : FdCtx) (tv : Int64 × Int64),
      optname = SO_RCVTIMEO ∨ optname = SO_SNDTIMEO → s.look sockfd = some (some (p, ctx)) →
      L.timeval s.rest optval = some tv → 0 ≤ tv.1.toInt → 0 ≤ tv.2.toInt → tv.2.toInt < 1000000 →
      TimeoutSet L 5000 s sockfd optname optval optlen tv) ∧
    (¬ TimeoutSet (valLibc 0#32 (0, 0)) 5000 socketProc 3#32 SO_RCVTIMEO 1#64 16#32 (0, 0)) ∧
    (¬ TimeoutSet (valLibc 0#32 (0, 1999)) 5000 socketProc 3#32 SO_SNDTIMEO 1#64 16#32 (0, 1999)) ∧
    ¬ TimeoutSet (valLibc (-1#32) (2, 0)) 5000 socketProc 3#32 SO_RCVTIMEO 1#64 16#32 (2, 0) := by
  have hzero : ¬ TimeoutSet (valLibc 0#32 (0, 0)) 5000 socketProc 3#32 SO_RCVTIMEO 1#64 16#32 (0, 0) := by
    rw [timeoutSet_iff 5000 (.inl rfl) socketProc_look 16#32 rfl]
    rintro ⟨-, hmeans⟩
    exact absurd hmeans (show ¬ (0 = Fd.noTimeout) by decide)
  refine ⟨fun h => ?_, hzero, ?_, ?_⟩
  · exact hzero (h _ _ _ _ _ _ _ _ (0, 0) (.inl rfl) socketProc_look rfl (by decide) (by decide)
      (by decide))
  · rw [timeoutSet_iff 5000 (.inr rfl) socketProc_look 16#32 rfl]
    rintro ⟨-, hmeans⟩
    exact absurd hmeans (show ¬ (1 ≠ Fd.noTimeout ∧ 0 < 1 ∧ (1999 : Int) ≤ (1 : Nat) * 1000) by decide)
  · rw [timeoutSet_iff 5000 (.inl rfl) socketProc_look 16#32 rfl]
    rintro ⟨-, hsame⟩
    exact absurd hsame (show ¬ (2000 = Fd.noTimeout) by decide)

end Sylar.Hook
