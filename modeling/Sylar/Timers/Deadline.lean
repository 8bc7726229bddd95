/-
# Sylar.Timers.Deadline — deadlines against start and period.

A deadline is computed in four places, always as a start plus the period in `uint64_t`: in the
constructor, in `refresh`, in `reset` (from now, or from the start that is recomputed by taking the
old period from the old deadline), and when a recurring timer is put back.  `Timed` is a manager
under a clock that never goes back, with the last (re)start of each timer beside it.  In every run
`m_next` is that start plus `m_ms`, modulo `2 ^ 64` (`armed_of_reachable`); so what
`listExpiredCb` returns is due in the natural numbers exactly where the sum is below `2 ^ 64`
(`expired_due_iff`).  Nothing in the interface keeps a period below that: a `tcp.connect.timeout` of
`-2` becomes a period of `2 ^ 64 - 2`, and its timer is due at once (`expires_early`).
-/
import Sylar.Timers.TimerSet
import Mathlib.Algebra.Group.Nat.Defs

namespace Sylar.Timers

/-! ## Where the periods come from -/

/-- `s_connect_timeout`, from the configured `int`. -/
def s_connect_timeout (tcp_connect_timeout : Int32) : UInt64 := tcp_connect_timeout.toInt64.toUInt64

/-- What `setsockopt` puts into `FdCtx::setTimeout` for `SO_RCVTIMEO` and `SO_SNDTIMEO`. -/
def timevalTimeout (tv_sec tv_usec : Int64) : UInt64 := (tv_sec * 1000 + tv_usec / 1000).toUInt64

/-- The period of the timer `do_io` and `connect_with_timeout` add; no timer for `(uint64_t)-1`. -/
def hookPeriod (timeout_ms : UInt64) : Option UInt64 :=
  if timeout_ms ≠ 0xffffffffffffffff then some timeout_ms else none

/-- No period is out of reach: a negative `tv_sec` is one of almost `2 ^ 64`. -/
example : hookPeriod (timevalTimeout (-1) 0) = some 18446744073709550616 := by decide

/-! ## Starts -/

/-- The clock reading an operation makes; `reset` makes one only to count from now. -/
def Op.reading : Op → Option UInt64
  | .call (.addTimer _ _ _ _ now) | .call (.refresh _ now) => some now
  | .call (.reset _ _ from_now now) => if from_now then some now else none
  | .getNextTimer now | .listExpiredCb now _ => some now
  | .call (.cancel _) | .free _ => none

/-- The operation starts the timer at `p`, or starts it again: its creation, a `refresh` or a `reset`
from now that goes through, and the return of a recurring timer to the set. -/
def Op.restarts (m : TimeManager) (p : Nat) : Op → Bool
  | .call (.addTimer q ..) => p == q
  | .call (.refresh q now) => p == q && (m.refresh q now).2
  | .call (.reset q ms from_now now) => p == q && (from_now && (m.reset q ms from_now now).2.1)
  | .listExpiredCb now _ => (m.expired now).contains p && (m.deref p).m_recurring
  | .call (.cancel _) | .getNextTimer _ | .free _ => false

/-- The start of `p` behind an operation: the reading where it is started again, and the old `start`
otherwise; a timer that is gone has none. -/
def Op.startAfter (m : TimeManager) (clock start : UInt64) (p : Nat) (op : Op) : UInt64 :=
  if op.restarts m p then op.reading.getD clock else if op = .free p then 0 else start

/-- A manager, the last clock reading, and the last (re)start of each timer. -/
structure Timed where
  manager : TimeManager
  clock : UInt64
  start : Nat → UInt64

/-- Perform an operation, at a reading that is not before the last one. -/
def Timed.perform (s : Timed) (op : Op) : Option Timed :=
  if s.clock ≤ op.reading.getD s.clock then
    (s.manager.perform op).map fun m' =>
      ⟨m', op.reading.getD s.clock, fun p => op.startAfter s.manager s.clock (s.start p) p⟩
  else none

/-- The deadline of `p` in the natural numbers. -/
def Timed.deadline (s : Timed) (p : Nat) : Nat :=
  (s.start p).toNat + (s.manager.deref p).m_ms.toNat

/-- All sequences of operations under a clock that does not go back. -/
def timed : Lib.System Timed Op where
  init s := ∃ now, s = ⟨.new now, now, fun _ => 0⟩
  step s op := s.perform op

/-! ## What an operation makes of the deadlines -/

theorem Op.startAfter_of_restarts {m : TimeManager} {p : Nat} {op : Op}
    (hgo : op.restarts m p = true) (clock start : UInt64) :
    op.startAfter m clock start p = op.reading.getD clock := if_pos hgo

namespace TimeManager

variable {voiced : Prop} {m m' : TimeManager} {p q : Nat} {clock start : UInt64}

theorem refresh_answer (h : m.WF voiced) (now : UInt64) : (m.refresh p now).2 = true ↔ m.Live p := by
  by_cases hp : m.Live p
  · rw [refresh_live h hp]
    simp [hp]
  · rw [refresh_dead hp]
    simp [hp]

/-- `reset` from now has no fast path: it goes through iff the timer has a callback. -/
theorem reset_answer (h : m.WF voiced) (ms now : UInt64) :
    (m.reset p ms true now).2.1 = true ↔ m.Live p := by
  by_cases hp : m.Live p
  · rw [reset_live h hp now (by simp)]
    simp [hp]
  · have hnone : (m.deref p).m_cb.isNone = true := by
      simpa [Live] using hp
    simp [reset, hnone, hp]

theorem free_deref (m : TimeManager) (p q : Nat) :
    ({ m with timer := Function.update m.timer p none } : TimeManager).deref q
      = if q = p then {} else m.deref q := by
  simp only [deref, Function.update_apply]
  split <;> rfl

/-- The deadline of `p` is `start` plus its period, in `uint64_t`. -/
def ArmedAt (m : TimeManager) (p : Nat) (start : UInt64) : Prop :=
  (m.deref p).m_next = start + (m.deref p).m_ms

/-- What leaves deadline and period of `p` alone, and does not start it again. -/
theorem ArmedAt.keep (hp : m.ArmedAt p start) {op : Op} (hno : op.restarts m p = false)
    (hfree : op ≠ .free p) (hnext : (m'.deref p).m_next = (m.deref p).m_next)
    (hms : (m'.deref p).m_ms = (m.deref p).m_ms) :
    m'.ArmedAt p (op.startAfter m clock start p) := by
  have hstart : op.startAfter m clock start p = start := by
    unfold Op.startAfter
    rw [hno, if_neg (by simp), if_neg hfree]
  unfold ArmedAt at hp ⊢
  rw [hstart, hnext, hms, hp]

theorem addTimer_armed (hp : m.ArmedAt p start) (ms : UInt64) (cb : Option Scheduler.Callback)
    (recurring : Bool) (now : UInt64) : (m.addTimer q ms cb recurring now).1.ArmedAt p
      ((Op.call (.addTimer q ms cb recurring now)).startAfter m clock start p) := by
  have hderef := addTimer_deref m q ms cb recurring now p
  by_cases hpq : p = q
  · rw [if_pos hpq] at hderef
    unfold ArmedAt
    rw [Op.startAfter_of_restarts (by simp [Op.restarts, hpq]), hderef]
    rfl
  · rw [if_neg hpq] at hderef
    exact hp.keep (by simp [Op.restarts, hpq]) (by simp) (by rw [hderef]) (by rw [hderef])

theorem cancel_armed {rt : Bool} (h : m.WF voiced) (hp : m.ArmedAt p start)
    (hc : m.cancel q = some (m', rt)) :
    m'.ArmedAt p ((Op.call (.cancel q)).startAfter m clock start p) := by
  have hderef := cancel_deref h hc p
  by_cases hpq : p = q
  · subst hpq
    rw [if_pos rfl] at hderef
    exact hp.keep rfl (by simp) (by rw [hderef]) (by rw [hderef])
  · rw [if_neg hpq] at hderef
    exact hp.keep rfl (by simp) (by rw [hderef]) (by rw [hderef])

theorem refresh_armed (h : m.WF voiced) (hp : m.ArmedAt p start) (now : UInt64) :
    (m.refresh q now).1.ArmedAt p ((Op.call (.refresh q now)).startAfter m clock start p) := by
  have hderef := refresh_deref h now (p := q) p
  have hgo : (Op.call (.refresh q now)).restarts m p = true ↔ p = q ∧ m.Live q := by
    simp only [Op.restarts, Bool.and_eq_true, beq_iff_eq, refresh_answer h]
  by_cases hpq : p = q ∧ m.Live q
  · rw [if_pos hpq] at hderef
    unfold ArmedAt
    rw [Op.startAfter_of_restarts (hgo.mpr hpq), hderef]
    rfl
  · rw [if_neg hpq] at hderef
    exact hp.keep (Bool.eq_false_iff.mpr (mt hgo.mp hpq)) (by simp) (by rw [hderef]) (by rw [hderef])

/-- Without `from_now`, `reset` gets the start back by taking the old period from the deadline. -/
theorem reset_armed (h : m.WF voiced) (hp : m.ArmedAt p start) (ms : UInt64) (from_now : Bool)
    (now : UInt64) : (m.reset q ms from_now now).1.ArmedAt p
      ((Op.call (.reset q ms from_now now)).startAfter m clock start p) := by
  have hderef := reset_deref h ms from_now now (p := q) p
  have hgo : (Op.call (.reset q ms from_now now)).restarts m p = true
      ↔ p = q ∧ from_now = true ∧ m.Live q := by
    cases from_now with
    | true => simp [Op.restarts, reset_answer h]
    | false => simp [Op.restarts]
  by_cases hpq : p = q ∧ m.Live q ∧ ¬ (ms = (m.deref q).m_ms ∧ from_now = false)
  · rw [if_pos hpq] at hderef
    obtain ⟨rfl, hlive, -⟩ := hpq
    unfold ArmedAt
    rw [hderef]
    cases from_now with
    | true =>
        rw [Op.startAfter_of_restarts (hgo.mpr ⟨rfl, rfl, hlive⟩)]
        rfl
    | false =>
        -- `m_next - m_ms` is the start again, whatever wrapped on the way
        have hstart : (Op.call (.reset p ms false now)).startAfter m clock start p = start := by
          simp [Op.startAfter, Op.restarts]
        show (m.deref p).m_next - (m.deref p).m_ms + ms = _ + ms
        rw [hstart, show (m.deref p).m_next = start + (m.deref p).m_ms from hp,
          UInt64.add_sub_cancel]
  · rw [if_neg hpq] at hderef
    refine hp.keep (Bool.eq_false_iff.mpr fun hyes => hpq ?_) (by simp) (by rw [hderef])
      (by rw [hderef])
    obtain ⟨hq, hnow, hlive⟩ := hgo.mp hyes
    exact ⟨hq, hlive, by simp [hnow]⟩

theorem listExpiredCb_armed (h : m.WF voiced) (hp : m.ArmedAt p start) (now : UInt64) (tmp : Nat) :
    (m.listExpiredCb now tmp).1.ArmedAt p
      ((Op.listExpiredCb now tmp).startAfter m clock start p) := by
  have hderef := listExpiredCb_deref h now tmp p
  have hgo : (Op.listExpiredCb now tmp).restarts m p = true
      ↔ p ∈ m.expired now ∧ (m.deref p).m_recurring = true := by
    simp [Op.restarts]
  by_cases hdue : p ∈ m.expired now ∧ (m.deref p).m_recurring = true
  · rw [if_pos hdue.1, rearm, if_pos hdue.2] at hderef
    unfold ArmedAt
    rw [Op.startAfter_of_restarts (hgo.mpr hdue), hderef]
    rfl
  · -- not due, or fired for good: deadline and period stay what they were
    have hsame : (m.deref p).m_next = ((m.listExpiredCb now tmp).1.deref p).m_next ∧
        (m.deref p).m_ms = ((m.listExpiredCb now tmp).1.deref p).m_ms := by
      rw [hderef]
      split
      · rename_i hin
        rw [rearm, if_neg (fun hrec => hdue ⟨hin, hrec⟩)]
        exact ⟨rfl, rfl⟩
      · exact ⟨rfl, rfl⟩
    exact hp.keep (Bool.eq_false_iff.mpr (mt hgo.mp hdue)) (by simp) hsame.1.symm hsame.2.symm

theorem free_armed (hp : m.ArmedAt p start) :
    ({ m with timer := Function.update m.timer q none } : TimeManager).ArmedAt p
      ((Op.free q).startAfter m clock start p) := by
  have hderef := free_deref m q p
  by_cases hpq : p = q
  · subst hpq
    rw [if_pos rfl] at hderef
    unfold ArmedAt
    rw [hderef]
    simp [Op.startAfter, Op.restarts]
  · rw [if_neg hpq] at hderef
    exact hp.keep rfl (by simp [Ne.symm hpq]) (by rw [hderef]) (by rw [hderef])

/-- **The step lemma.** -/
theorem perform_armed {op : Op} (h : m.WF voiced) (hp : m.ArmedAt p start)
    (hstep : m.perform op = some m') : m'.ArmedAt p (op.startAfter m clock start p) := by
  cases op with
  | call c =>
      obtain ⟨⟨m₁, front⟩, hc, rfl⟩ := Option.map_eq_some_iff.mp hstep
      cases called hc with
      | @addTimer q ms cb recurring now => exact addTimer_armed hp ms cb recurring now
      | cancel hq hcancel => exact cancel_armed h hp hcancel
      | @refresh q now => exact refresh_armed h hp now
      | @reset q ms from_now now => exact reset_armed h hp ms from_now now
  | getNextTimer now =>
      obtain rfl := Option.some.inj hstep
      exact hp.keep rfl (by simp) rfl rfl
  | listExpiredCb now tmp =>
      obtain rfl := Option.some.inj hstep
      exact listExpiredCb_armed h hp now tmp
  | free q =>
      obtain ⟨-, rfl⟩ := Lib.guarded_eq_some.mp hstep
      exact free_armed hp

/-! ## The members beside the timers -/

/-- The loop over `expired` leaves them alone. -/
theorem fire_frame (now : UInt64) : ∀ (ps : List Nat) (m : TimeManager),
    (m.fire now ps).1.m_previouseTime = m.m_previouseTime ∧
      (m.fire now ps).1.m_tickled = m.m_tickled
  | [], _ => ⟨rfl, rfl⟩
  | p :: ps, m => by
      simp only [fire]
      obtain ⟨hprev, htickled⟩ := fire_frame now ps (if (m.deref p).m_recurring then
        (m.write p { m.deref p with m_next := now + (m.deref p).m_ms }).insert p
        else m.write p { m.deref p with m_cb := none })
      rw [hprev, htickled]
      split
      · exact ⟨rfl, rfl⟩
      · exact ⟨rfl, rfl⟩

/-- A call does not note the time, and sets `m_tickled` iff it notifies. -/
theorem call_frame {c : Call} {front : Bool} (hc : m.call c = some (m', front)) :
    m'.m_previouseTime = m.m_previouseTime ∧ m'.m_tickled = (m.m_tickled || front) := by
  cases called hc with
  | addTimer => exact ⟨rfl, rfl⟩
  | cancel hq hcancel =>
      rw [Bool.or_false]
      simp only [cancel] at hcancel
      split at hcancel
      · obtain ⟨r, -, heq⟩ := Option.map_eq_some_iff.mp hcancel
        obtain ⟨rfl, -⟩ := Prod.mk.inj heq
        exact ⟨rfl, rfl⟩
      · obtain ⟨rfl, -⟩ := Prod.mk.inj (Option.some.inj hcancel)
        exact ⟨rfl, rfl⟩
  | refresh =>
      rw [Bool.or_false]
      unfold refresh
      split
      · exact ⟨rfl, rfl⟩
      · split
        · exact ⟨rfl, rfl⟩
        · exact ⟨rfl, rfl⟩
  | reset =>
      unfold reset
      split
      · exact ⟨rfl, (Bool.or_false _).symm⟩
      · split
        · exact ⟨rfl, (Bool.or_false _).symm⟩
        · split
          · exact ⟨rfl, (Bool.or_false _).symm⟩
          · exact ⟨rfl, rfl⟩

/-- Only `listExpiredCb` notes the time it is called at. -/
theorem perform_previouseTime {op : Op} (h : m.WF voiced) (hstep : m.perform op = some m') :
    m'.m_previouseTime = m.m_previouseTime ∨ op.reading = some m'.m_previouseTime := by
  cases op with
  | call c =>
      obtain ⟨⟨m₁, front⟩, hc, rfl⟩ := Option.map_eq_some_iff.mp hstep
      exact .inl (call_frame hc).1
  | getNextTimer now =>
      obtain rfl := Option.some.inj hstep
      exact .inl rfl
  | listExpiredCb now tmp =>
      obtain rfl := Option.some.inj hstep
      by_cases hne : m.m_timers = []
      · rw [listExpiredCb_of_empty hne]
        exact .inl rfl
      · rw [listExpiredCb_eq (Holds.ordered h) now tmp hne, (fire_frame now _ _).1]
        exact .inr rfl
  | free q =>
      obtain ⟨-, rfl⟩ := Lib.guarded_eq_some.mp hstep
      exact .inl rfl

/-- The clock has not been set back, so only what is due is taken out. -/
theorem due_of_forward {now : UInt64} (hle : m.m_previouseTime ≤ now) (p : Nat) :
    m.due now p = true ↔ (m.deref p).m_next ≤ now := by
  have hroll : m.rollover now = false := by
    have hnot : ¬ now < m.m_previouseTime := UInt64.not_lt.mpr hle
    simp [rollover, detectClockRollover, hnot]
  simp [due, hroll]

end TimeManager

/-! ## Runs -/

namespace Timed

open TimeManager

variable {s s' : Timed} {op : Op} {p : Nat}

theorem perform_eq_some : s.perform op = some s' ↔
    s.clock ≤ op.reading.getD s.clock ∧ ∃ m', s.manager.perform op = some m' ∧
      s' = ⟨m', op.reading.getD s.clock,
        fun p => op.startAfter s.manager s.clock (s.start p) p⟩ := by
  unfold perform
  split
  · rename_i hle
    rw [Option.map_eq_some_iff]
    simp [hle, eq_comm]
  · rename_i hle
    simp [hle]

/-- What is always true under a clock that does not go back. -/
structure Kept (s : Timed) : Prop where
  wf : s.manager.WF False
  armed : ∀ p, s.manager.ArmedAt p (s.start p)
  started : ∀ p, s.start p ≤ s.clock
  /-- The last look of `listExpiredCb` is not ahead of the clock. -/
  looked : s.manager.m_previouseTime ≤ s.clock

theorem startAfter_le {clock start now : UInt64} {m : TimeManager} (hstart : start ≤ clock)
    (hnow : op.reading.getD clock = now) (hle : clock ≤ now) :
    op.startAfter m clock start p ≤ now := by
  unfold Op.startAfter
  split
  · rw [hnow]
    exact UInt64.le_refl now
  · split
    · exact UInt64.le_iff_toNat_le.mpr (Nat.zero_le _)
    · exact UInt64.le_trans hstart hle

theorem perform_kept (h : s.Kept) (hstep : s.perform op = some s') : s'.Kept := by
  obtain ⟨hle, m', hm, rfl⟩ := perform_eq_some.mp hstep
  refine ⟨perform_wf h.wf (fun hv => hv.elim) hm, fun p => perform_armed h.wf (h.armed p) hm,
    fun p => startAfter_le (h.started p) rfl hle, ?_⟩
  show m'.m_previouseTime ≤ op.reading.getD s.clock
  rcases perform_previouseTime h.wf hm with hprev | hread
  · rw [hprev]
    exact UInt64.le_trans h.looked hle
  · rw [hread]
    exact UInt64.le_refl _

theorem kept_of_reachable (hs : timed.Reachable s) : s.Kept := by
  refine Lib.System.Reachable.invariant ?_ ?_ hs
  · rintro s ⟨now, rfl⟩
    refine ⟨wf_new now, fun p => ?_, fun p => ?_, UInt64.le_refl now⟩
    · show (0 : UInt64) = 0 + 0
      rfl
    · show (0 : UInt64) ≤ now
      exact UInt64.le_iff_toNat_le.mpr (Nat.zero_le _)
  · intro s op s' h hstep
    exact perform_kept h hstep

/-- In the natural numbers a deadline is start plus period up to multiples of `2 ^ 64`. -/
theorem Kept.next_toNat (h : s.Kept) (p : Nat) :
    (s.manager.deref p).m_next.toNat = s.deadline p % 2 ^ 64 := by
  rw [show (s.manager.deref p).m_next = s.start p + (s.manager.deref p).m_ms from h.armed p,
    UInt64.toNat_add]
  rfl

/-- **No early expiry, exactly.** At any admissible reading `listExpiredCb` returns the callbacks of
the timers that are `expired`, and one of these has reached start plus period in the natural numbers
iff that sum is below `2 ^ 64`. -/
theorem expired_due_iff (hs : timed.Reachable s) {now : UInt64} {tmp : Nat}
    (hstep : timed.step s (.listExpiredCb now tmp) = some s') :
    (s.manager.listExpiredCb now tmp).2
        = (s.manager.expired now).map (fun p => (s.manager.deref p).m_cb) ∧
      ∀ p ∈ s.manager.expired now, s.deadline p ≤ now.toNat ↔ s.deadline p < 2 ^ 64 := by
  have h := kept_of_reachable hs
  obtain ⟨hle, -⟩ := perform_eq_some.mp hstep
  refine ⟨listExpiredCb_returns h.wf now tmp, fun p hp => ?_⟩
  have hdue : (s.manager.deref p).m_next ≤ now :=
    (due_of_forward (UInt64.le_trans h.looked hle) p).mp (List.mem_filter.mp hp).2
  have hnext := h.next_toNat p
  have hnow : now.toNat < 2 ^ 64 := now.toNat_lt
  rw [UInt64.le_iff_toNat_le] at hdue
  constructor
  · intro hlate
    omega
  · intro hsmall
    rw [Nat.mod_eq_of_lt hsmall] at hnext
    omega

/-- A timer that is refreshed before it is due. -/
def refreshed : List Op :=
  [.call (.addTimer 16 10 (some 1) false 100), .call (.refresh 16 105)]

theorem expired_due_refreshed :
    let s := (timed.exec ⟨.new 100, 100, fun _ => 0⟩ refreshed).get (by decide)
    s.manager.expired 115 = [16] ∧
      ∀ p ∈ s.manager.expired 115, s.deadline p ≤ 115 ↔ s.deadline p < 2 ^ 64 := by
  intro s
  have hs : timed.Reachable s :=
    Lib.System.reachable_of_exec (l := refreshed) ⟨100, rfl⟩ (Option.some_get _).symm
  have hstep : (timed.step s (.listExpiredCb 115 24)).isSome = true := by decide
  obtain ⟨s', hstep⟩ := Option.isSome_iff_exists.mp hstep
  exact ⟨by decide, (expired_due_iff hs hstep).2⟩

/-- The timer of a `connect` under a `tcp.connect.timeout` of `-2`. -/
def connectTimer : List Op :=
  ((hookPeriod (s_connect_timeout (-2))).map fun ms =>
    Op.call (.addTimer 16 ms (some 1) false 100)).toList

/-- Its deadline lies before its start, and `listExpiredCb` returns it in the same millisecond. -/
theorem expires_early :
    ∃ s, timed.exec ⟨.new 100, 100, fun _ => 0⟩ connectTimer = some s ∧
      (s.manager.listExpiredCb 100 24).2 = [some 1] ∧ 16 ∈ s.manager.expired 100 ∧
      ¬ s.deadline 16 ≤ (100 : UInt64).toNat :=
  ⟨_, rfl, by decide, by decide, by decide⟩

end Timed

end Sylar.Timers
