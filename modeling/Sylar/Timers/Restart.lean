/-
# Sylar.Timers.Restart — what `cancel`, `refresh` and `reset` promise.

A timer is pending as long as it has its callback.  The three operations answer whether it was, leave
everything alone if it was not, and never touch another timer; `refresh` counts the period from now,
and `reset` a new period from now or from the timer's last start.  The start is not stored: `reset`
gets it back as `m_next - m_ms`, which `Started` keeps beside the manager, in runs of all operations
at arbitrary clock readings.

All of it holds but for one shortcut (`contract_iff`): `reset` to the period the timer has, not from
now, answers true before it looks at the timer, also for one that has fired or was cancelled.
-/
import Sylar.Timers.Deadline

namespace Sylar.Timers

/-! ## Runs -/

/-- A manager, and the last (re)start of each timer. -/
structure Started where
  manager : TimeManager
  start : Nat → UInt64

/-- Perform an operation.  Those that start a timer read the clock, so that no earlier reading is
needed. -/
def Started.perform (s : Started) (op : Op) : Option Started :=
  (s.manager.perform op).map fun m' =>
    ⟨m', fun p => op.startAfter s.manager 0 (s.start p) p⟩

/-- All sequences of operations, at any clock readings. -/
def started : Lib.System Started Op where
  init s := ∃ now, s = ⟨.new now, fun _ => 0⟩
  step s op := s.perform op

/-! ## The contract -/

namespace TimeManager

variable {m m' : TimeManager} {p : Nat}

/-- No timer but `p` is changed, put into the set or taken out. -/
def OthersKept (p : Nat) (m m' : TimeManager) : Prop :=
  ∀ q, q ≠ p → m'.deref q = m.deref q ∧ (q ∈ m'.m_timers ↔ q ∈ m.m_timers)

theorem OthersKept.refl (p : Nat) (m : TimeManager) : OthersKept p m m := fun _ _ => ⟨rfl, Iff.rfl⟩

/-- What the contracts have in common: a call on `p` that takes `m` to `m'` answers whether the timer
is pending, and changes nothing if not. -/
structure Answers (m : TimeManager) (p : Nat) (m' : TimeManager) (answer : Bool) : Prop where
  pending_iff : answer = true ↔ m.Live p
  refused : answer = false → m' = m
  others : OthersKept p m m'

theorem Answers.of_dead (hp : ¬ m.Live p) : m.Answers p m false :=
  ⟨by simp [hp], fun _ => rfl, .refl p m⟩

end TimeManager

namespace Started

open TimeManager

/-- What the three operations promise of the timer at `p`. -/
structure Contract (s : Started) (p : Nat) (ms : UInt64) (from_now : Bool) (now : UInt64) :
    Prop where
  cancel : ∃ m' answer, s.manager.cancel p = some (m', answer) ∧ s.manager.Answers p m' answer ∧
    (answer = true → m'.deref p = { s.manager.deref p with m_cb := none } ∧ p ∉ m'.m_timers)
  refresh : s.manager.Answers p (s.manager.refresh p now).1 (s.manager.refresh p now).2 ∧
    ((s.manager.refresh p now).2 = true → (s.manager.refresh p now).1.deref p
      = { s.manager.deref p with m_next := now + (s.manager.deref p).m_ms })
  reset : s.manager.Answers p (s.manager.reset p ms from_now now).1
      (s.manager.reset p ms from_now now).2.1 ∧
    ((s.manager.reset p ms from_now now).2.1 = true →
      (s.manager.reset p ms from_now now).1.deref p = { s.manager.deref p with
        m_ms := ms
        m_next := (if from_now then now else s.start p) + ms })

/-- The shortcut of `reset`, on a timer that is not pending. -/
def Shortcut (s : Started) (p : Nat) (ms : UInt64) (from_now : Bool) : Prop :=
  ms = (s.manager.deref p).m_ms ∧ from_now = false ∧ ¬ s.manager.Live p

instance (s : Started) (p : Nat) (ms : UInt64) (from_now : Bool) :
    Decidable (s.Shortcut p ms from_now) :=
  inferInstanceAs (Decidable (ms = (s.manager.deref p).m_ms ∧ from_now = false ∧
    ¬ s.manager.Live p))

end Started

namespace TimeManager

variable {voiced : Prop} {m : TimeManager} {p : Nat} {x : Timer}

/-! ## What happens to the others -/

/-- Taking `p` out and writing it concerns no other timer. -/
theorem othersKept_erase : OthersKept p m ((m.erase p).write p x) := by
  intro q hq
  refine ⟨?_, ?_⟩
  · rw [deref_write, if_neg hq, deref_erase]
  · rw [write_timers]
    show q ∈ m.m_timers.erase p ↔ _
    exact List.mem_erase_of_ne hq

/-- And no more so does putting it back. -/
theorem othersKept_back (h : m.WF voiced) :
    OthersKept p m (((m.erase p).write p x).insert p) := by
  have hout : p ∉ ((m.erase p).write p x).m_timers := by
    intro hin
    exact ((Holds.ordered h).nodup.mem_erase_iff.mp hin).1 rfl
  intro q hq
  obtain ⟨hsame, hmem⟩ := othersKept_erase (x := x) q hq
  refine ⟨hsame, ?_⟩
  rw [mem_insert hout, hmem]
  simp [hq]

/-! ## The three operations -/

theorem cancel_contract (h : m.WF voiced) : ∃ m' answer, m.cancel p = some (m', answer) ∧
    m.Answers p m' answer ∧
    (answer = true → m'.deref p = { m.deref p with m_cb := none } ∧ p ∉ m'.m_timers) := by
  by_cases hp : m.Live p
  · refine ⟨_, true, cancel_live h hp, ⟨by simp [hp], fun hno => (by cases hno),
      othersKept_erase⟩, fun _ => ⟨by simp, ?_⟩⟩
    intro hin
    exact ((Holds.ordered h).nodup.mem_erase_iff.mp hin).1 rfl
  · exact ⟨m, false, cancel_dead hp, .of_dead hp, fun hyes => (by cases hyes)⟩

theorem refresh_contract (h : m.WF voiced) (now : UInt64) :
    m.Answers p (m.refresh p now).1 (m.refresh p now).2 ∧
      ((m.refresh p now).2 = true →
        (m.refresh p now).1.deref p = { m.deref p with m_next := now + (m.deref p).m_ms }) := by
  by_cases hp : m.Live p
  · rw [refresh_live h hp]
    refine ⟨⟨by simp [hp], fun hno => (by cases hno), othersKept_back h⟩, fun _ => ?_⟩
    rw [deref_insert, deref_write, if_pos rfl]
  · rw [refresh_dead hp]
    exact ⟨.of_dead hp, fun hyes => (by cases hyes)⟩

/-- `reset`, where it looks at the timer. -/
theorem reset_contract (h : m.WF voiced) {start : UInt64} (harmed : m.ArmedAt p start) {ms : UInt64}
    {from_now : Bool} (now : UInt64) (hne : ¬ (ms = (m.deref p).m_ms ∧ from_now = false)) :
    m.Answers p (m.reset p ms from_now now).1 (m.reset p ms from_now now).2.1 ∧
      ((m.reset p ms from_now now).2.1 = true → (m.reset p ms from_now now).1.deref p
        = { m.deref p with m_ms := ms, m_next := (if from_now then now else start) + ms }) := by
  by_cases hp : m.Live p
  · have hstart : m.resetStart p from_now now = if from_now then now else start := by
      unfold resetStart
      rw [show (m.deref p).m_next = start + (m.deref p).m_ms from harmed, UInt64.add_sub_cancel]
    rw [reset_live h hp now hne]
    refine ⟨⟨by simp [hp], fun hno => (by cases hno), othersKept_back h⟩, fun _ => ?_⟩
    rw [← hstart]
    show ((m.erase p).write p (m.resetTimer p ms from_now now)).deref p = _
    rw [deref_write, if_pos rfl]
    rfl
  · have hrefused : m.reset p ms from_now now = (m, false, false) := by
      have hnone : (m.deref p).m_cb.isNone = true := by
        simpa [Live] using hp
      unfold reset
      rw [if_neg hne, if_pos hnone]
    rw [hrefused]
    exact ⟨.of_dead hp, fun hyes => (by cases hyes)⟩

/-- On a pending timer the shortcut does what the way through the set would. -/
theorem reset_contract_same {start : UInt64} (hp : m.Live p) (harmed : m.ArmedAt p start)
    (now : UInt64) :
    m.Answers p (m.reset p (m.deref p).m_ms false now).1 (m.reset p (m.deref p).m_ms false now).2.1 ∧
      ((m.reset p (m.deref p).m_ms false now).2.1 = true →
        (m.reset p (m.deref p).m_ms false now).1.deref p = { m.deref p with
          m_ms := (m.deref p).m_ms
          m_next := (if false = true then now else start) + (m.deref p).m_ms }) := by
  rw [reset_same now ⟨rfl, rfl⟩]
  refine ⟨⟨by simp [hp], fun hno => (by cases hno), .refl p m⟩, fun _ => ?_⟩
  rw [if_neg (by simp), ← show (m.deref p).m_next = start + (m.deref p).m_ms from harmed]

end TimeManager

/-! ## The law -/

namespace Started

open TimeManager

variable {s : Started}

/-- The deadlines count from the starts. -/
structure Kept (s : Started) : Prop where
  wf : s.manager.WF False
  armed : ∀ p, s.manager.ArmedAt p (s.start p)

theorem kept_of_reachable (hs : started.Reachable s) : s.Kept := by
  refine Lib.System.Reachable.invariant ?_ ?_ hs
  · rintro s ⟨now, rfl⟩
    refine ⟨wf_new now, fun p => ?_⟩
    show (0 : UInt64) = 0 + 0
    rfl
  · intro s op s' h hstep
    obtain ⟨m', hm, rfl⟩ := Option.map_eq_some_iff.mp hstep
    exact ⟨perform_wf h.wf (fun hv => hv.elim) hm, fun p => perform_armed h.wf (h.armed p) hm⟩

/-- **The contract of `cancel`, `refresh` and `reset`** is kept in every reachable state, but for the
shortcut of `reset`. -/
theorem contract_iff (hs : started.Reachable s) (p : Nat) (ms : UInt64) (from_now : Bool)
    (now : UInt64) : s.Contract p ms from_now now ↔ ¬ s.Shortcut p ms from_now := by
  have h := kept_of_reachable hs
  constructor
  · rintro hcontract ⟨hms, hnow, hdead⟩
    -- the shortcut answers true, whatever the timer
    have hanswer : (s.manager.reset p ms from_now now).2.1 = true := by
      rw [reset_same now ⟨hms, hnow⟩]
    exact hdead (hcontract.reset.1.pending_iff.mp hanswer)
  · intro hno
    refine ⟨cancel_contract h.wf, refresh_contract h.wf now, ?_⟩
    by_cases hsame : ms = (s.manager.deref p).m_ms ∧ from_now = false
    · obtain ⟨rfl, rfl⟩ := hsame
      have hp : s.manager.Live p := by
        by_contra hdead
        exact hno ⟨rfl, rfl, hdead⟩
      exact reset_contract_same hp (h.armed p) now
    · exact reset_contract h.wf (h.armed p) now hsame

/-- A recurring timer that has fired late, and one that is refreshed. -/
def restartRun : List Op :=
  [.call (.addTimer 16 10 (some 1) true 100), .call (.addTimer 8 50 (some 2) false 100),
    .call (.refresh 8 105), .listExpiredCb 113 24]

theorem contract_restart :
    let s := (started.exec ⟨.new 100, fun _ => 0⟩ restartRun).get (by decide)
    s.start 16 = 113 ∧ s.start 8 = 105 ∧ s.Contract 16 30 false 120 ∧ s.Contract 8 50 false 120 := by
  intro s
  have hs : started.Reachable s :=
    Lib.System.reachable_of_exec (l := restartRun) ⟨100, rfl⟩ (Option.some_get _).symm
  exact ⟨by decide, by decide, (contract_iff hs 16 30 false 120).mpr (by decide),
    (contract_iff hs 8 50 false 120).mpr (by decide)⟩

/-- A timer that has fired, and one that was cancelled. -/
def goneRun : List Op :=
  [.call (.addTimer 16 10 (some 1) false 100), .call (.addTimer 8 50 (some 2) false 100),
    .listExpiredCb 110 24, .call (.cancel 8)]

/-- `reset` to the period they have answers true for both, and puts neither back. -/
theorem reset_gone : ∃ s, started.exec ⟨.new 100, fun _ => 0⟩ goneRun = some s ∧
    (¬ s.manager.Live 16 ∧ (s.manager.reset 16 10 false 120).2.1 = true ∧
      (s.manager.reset 16 10 false 120).1.m_timers = [] ∧ ¬ s.Contract 16 10 false 120) ∧
    ¬ s.manager.Live 8 ∧ (s.manager.reset 8 50 false 120).2.1 = true ∧
      ¬ s.Contract 8 50 false 120 := by
  refine ⟨_, rfl, ⟨by decide, by decide, by decide, ?_⟩, by decide, by decide, ?_⟩
  · intro h
    exact absurd (h.reset.1.pending_iff.mp (by decide)) (by decide)
  · intro h
    exact absurd (h.reset.1.pending_iff.mp (by decide)) (by decide)

end Started

end Sylar.Timers
