/-
# Sylar.Timers.Rollback — when the clock counts as set back.

`detectClockRollover` compares a reading with `m_previouseTime`, an hour taken from it in `uint64_t`,
and notes the reading.  `listExpiredCb` calls it behind its exit for the empty set, so what is noted
is the last reading made with timers in the set; and below an hour the subtraction wraps.

`Watched` is a manager with the reading of its last `listExpiredCb` beside it, and the one of the last
that found a timer.  At every call of every run the detector is right exactly if the two faults are
both absent, or both there (`rollback_exact_iff`): a reading that got lost in an idle period and lies
on the other side of the limit than the one kept (`Stale`), and a kept reading below an hour that the
clock is behind (`Wraps`).
-/
import Sylar.Timers.Deadline

namespace Sylar.Timers

/-- An hour, in the clock's milliseconds. -/
def hour : Nat := 3600000

/-- `now` is more than an hour below the reading `prev`. -/
def SetBack (now prev : UInt64) : Prop := now.toNat + hour < prev.toNat

instance (now prev : UInt64) : Decidable (SetBack now prev) :=
  inferInstanceAs (Decidable (now.toNat + hour < prev.toNat))

/-- A manager, the reading of the last `listExpiredCb`, and that of the last one that found a timer;
before the first, these are the constructor's. -/
structure Watched where
  manager : TimeManager
  last : UInt64
  seen : UInt64

/-- The reading the call makes, if it is one of `listExpiredCb`. -/
def Op.looks : Op → Option UInt64
  | .listExpiredCb now _ => some now
  | .call _ | .getNextTimer _ | .free _ => none

namespace Watched

/-- Perform an operation. -/
def perform (w : Watched) (op : Op) : Option Watched :=
  (w.manager.perform op).map fun m' =>
    { manager := m'
      last := op.looks.getD w.last
      seen := if w.manager.m_timers = [] then w.seen else op.looks.getD w.seen }

end Watched

/-- All sequences of operations, at any clock readings. -/
def watched : Lib.System Watched Op where
  init w := ∃ now, w = ⟨.new now, now, now⟩
  step w op := w.perform op

/-! ## What is kept -/

namespace TimeManager

variable {m m' : TimeManager}

/-- `listExpiredCb` notes the time it is called at, unless the set is empty. -/
theorem listExpiredCb_previouseTime (m : TimeManager) (now : UInt64) (tmp : Nat) :
    (m.listExpiredCb now tmp).1.m_previouseTime
      = if m.m_timers = [] then m.m_previouseTime else now := by
  unfold listExpiredCb
  split
  · rename_i hset
    rw [if_pos hset]
  · rename_i first rest hset
    rw [if_neg (by simp [hset])]
    dsimp only
    split
    · rfl
    · exact (fire_frame now _ _).1

theorem perform_previouse {op : Op} (hstep : m.perform op = some m') : m'.m_previouseTime
    = if m.m_timers = [] then m.m_previouseTime else op.looks.getD m.m_previouseTime := by
  have hkeep : ∀ t : UInt64, t = if m.m_timers = [] then t else t := by
    intro t
    split
    · rfl
    · rfl
  cases op with
  | call c =>
      obtain ⟨⟨m₁, front⟩, hc, rfl⟩ := Option.map_eq_some_iff.mp hstep
      show m₁.m_previouseTime = _
      rw [(call_frame hc).1]
      exact hkeep m.m_previouseTime
  | getNextTimer now =>
      obtain rfl := Option.some.inj hstep
      exact hkeep m.m_previouseTime
  | listExpiredCb now tmp =>
      obtain rfl := Option.some.inj hstep
      exact listExpiredCb_previouseTime m now tmp
  | free p =>
      obtain ⟨-, rfl⟩ := Lib.guarded_eq_some.mp hstep
      exact hkeep m.m_previouseTime

/-- The detector's answer in exact arithmetic: it also says yes behind a reading below an hour. -/
theorem detect_iff (m : TimeManager) (now : UInt64) : (m.detectClockRollover now).2 = true ↔
    SetBack now m.m_previouseTime ∨
      now < m.m_previouseTime ∧ m.m_previouseTime.toNat < hour := by
  have hnow : now.toNat < 2 ^ 64 := now.toNat_lt
  have hprev : m.m_previouseTime.toNat < 2 ^ 64 := m.m_previouseTime.toNat_lt
  have hsub : (m.m_previouseTime - 60 * 60 * 1000).toNat
      = (2 ^ 64 - hour + m.m_previouseTime.toNat) % 2 ^ 64 := UInt64.toNat_sub _ _
  simp only [detectClockRollover, Bool.and_eq_true, decide_eq_true_eq, UInt64.lt_iff_toNat_lt, hsub,
    SetBack, hour]
  omega

end TimeManager

/-! ## Runs -/

namespace Watched

variable {w w' : Watched}

/-- What `m_previouseTime` holds is the last reading made with timers in the set. -/
theorem previouse_eq_seen (hw : watched.Reachable w) : w.manager.m_previouseTime = w.seen := by
  refine Lib.System.Reachable.invariant
    (P := fun w : Watched => w.manager.m_previouseTime = w.seen) ?_ ?_ hw
  · rintro w ⟨now, rfl⟩
    rfl
  · intro w op w' hprev hstep
    obtain ⟨m', hm, rfl⟩ := Option.map_eq_some_iff.mp hstep
    show m'.m_previouseTime = _
    rw [TimeManager.perform_previouse hm, hprev]

/-- The call at `now` is told that the clock has been set back exactly if its reading is more than an
hour below the one of the last call; if it is told so, it takes out every timer. -/
structure Detects (w : Watched) (now : UInt64) (tmp : Nat) : Prop where
  told : (w.manager.detectClockRollover now).2 = true ↔ SetBack now w.last
  flushed : (w.manager.detectClockRollover now).2 = true → (w.manager.listExpiredCb now tmp).2
    = w.manager.m_timers.map fun p => (w.manager.deref p).m_cb

/-- The last reading made with timers in the set and the last reading made at all lie on different
sides of the limit; the calls between the two found the set empty. -/
def Stale (w : Watched) (now : UInt64) : Prop := ¬ (SetBack now w.seen ↔ SetBack now w.last)

/-- Taking an hour from the kept reading wraps, and the clock is behind it. -/
def Wraps (w : Watched) (now : UInt64) : Prop := now < w.seen ∧ w.seen.toNat < hour

instance (w : Watched) (now : UInt64) : Decidable (w.Stale now) :=
  inferInstanceAs (Decidable (¬ (SetBack now w.seen ↔ SetBack now w.last)))

instance (w : Watched) (now : UInt64) : Decidable (w.Wraps now) :=
  inferInstanceAs (Decidable (now < w.seen ∧ w.seen.toNat < hour))

/-- Where the subtraction wraps, the clock is not an hour behind the kept reading. -/
theorem Wraps.not_setBack {now : UInt64} (h : w.Wraps now) : ¬ SetBack now w.seen := by
  have hbelow := h.2
  unfold SetBack
  omega

theorem wf_of_reachable (hw : watched.Reachable w) : w.manager.WF False := by
  refine Lib.System.Reachable.invariant (P := fun w : Watched => w.manager.WF False) ?_ ?_ hw
  · rintro w ⟨now, rfl⟩
    exact TimeManager.wf_new now
  · intro w op w' h hstep
    obtain ⟨m', hm, rfl⟩ := Option.map_eq_some_iff.mp hstep
    exact TimeManager.perform_wf h (fun hv => hv.elim) hm

/-- A call that is told so takes out every timer. -/
theorem flushed_of_told (hw : watched.Reachable w) {now : UInt64} (tmp : Nat)
    (htold : (w.manager.detectClockRollover now).2 = true) :
    (w.manager.listExpiredCb now tmp).2
      = w.manager.m_timers.map fun p => (w.manager.deref p).m_cb := by
  have hall : w.manager.expired now = w.manager.m_timers := by
    refine List.filter_eq_self.mpr ?_
    intro p _
    show (w.manager.rollover now || _) = true
    rw [show w.manager.rollover now = true from htold, Bool.true_or]
  rw [TimeManager.listExpiredCb_returns (wf_of_reachable hw) now tmp, hall]

/-- **Rollback detection**, at any call of any run.  The call makes the comparison if it finds a timer;
for the empty set, which it leaves before, the statement is about what it would find. -/
theorem rollback_exact_iff (hw : watched.Reachable w) (now : UInt64) (tmp : Nat) :
    w.Detects now tmp ↔ (w.Stale now ↔ w.Wraps now) := by
  have htold : (w.manager.detectClockRollover now).2 = true
      ↔ SetBack now w.seen ∨ w.Wraps now := by
    rw [TimeManager.detect_iff, previouse_eq_seen hw]
    rfl
  have hexact : w.Detects now tmp
      ↔ (SetBack now w.seen ∨ w.Wraps now ↔ SetBack now w.last) := by
    constructor
    · intro h
      rw [← htold]
      exact h.told
    · intro h
      exact ⟨htold.trans h, flushed_of_told hw tmp⟩
  rw [hexact]
  unfold Stale
  by_cases hwraps : w.Wraps now
  · -- the detector says yes, which is right only if the lost reading makes it so
    have hnot := hwraps.not_setBack
    simp [hwraps, hnot]
  · simp [hwraps]

/-- A timer, and half a day later the clock goes back by two hours. -/
def setBackRun : List Op :=
  [.call (.addTimer 16 86400000 (some 1) false 100000000), .listExpiredCb 143200000 24]

theorem rollback_exact_setBack :
    let w := (watched.exec ⟨.new 100000000, 100000000, 100000000⟩ setBackRun).get (by decide)
    SetBack 136000000 w.last ∧ w.Detects 136000000 24 := by
  intro w
  have hw : watched.Reachable w :=
    Lib.System.reachable_of_exec (l := setBackRun) ⟨100000000, rfl⟩ (Option.some_get _).symm
  exact ⟨by decide, (rollback_exact_iff hw 136000000 24).mpr (by decide)⟩

/-- An idle call half a day after the constructor, and then a timer. -/
def idleRun : List Op :=
  [.listExpiredCb 143200000 24, .call (.addTimer 16 10 (some 1) false 143200000)]

/-- A timer within the first hour of the clock. -/
def firstHourRun : List Op := [.call (.addTimer 16 10 (some 1) false 1000)]

/-- Two hours back behind the idle call go unnoticed; and one millisecond back within the first hour
of the clock counts as a rollback, and takes out a timer that is not due. -/
theorem rollback_missed :
    (∃ w, watched.exec ⟨.new 100000000, 100000000, 100000000⟩ idleRun = some w ∧
      w.manager.m_timers = [16] ∧ SetBack 136000000 w.last ∧
      (w.manager.detectClockRollover 136000000).2 = false ∧ ¬ w.Detects 136000000 24) ∧
    ∃ w, watched.exec ⟨.new 1000, 1000, 1000⟩ firstHourRun = some w ∧
      ¬ SetBack 999 w.last ∧ (w.manager.listExpiredCb 999 24).2 = [some 1] ∧ ¬ w.Detects 999 24 := by
  refine ⟨⟨_, rfl, by decide, by decide, by decide, ?_⟩, ⟨_, rfl, by decide, by decide, ?_⟩⟩
  · intro h
    exact absurd (h.told.mpr (by decide)) (by decide)
  · intro h
    exact absurd (h.told.mp (by decide)) (by decide)

end Watched

end Sylar.Timers
