/-
# Sylar.Timers.TimeManager — the timer set (`sylar/timer.{h,cpp}`).

A `Timer` is an object with a mutable deadline `m_next`; `m_timers` is a `std::set` of pointers to
timers, ordered by deadline and then by address.  Timers are known by their address, the set is the
list of its elements in order, and deadlines are the source's `uint64_t`, whose sums wrap.

Every public operation holds the manager's lock for its whole body (the notification of `addTimer`
apart, which its answer stands for), so each is one function.  Clock readings, and the addresses
`new` returns, are arguments.  What is proved here is what an empty set is for: `getNextTimer`
answers `~0ull` on it (and in one other case, `getNextTimer_eq_max`), and it stays empty until the
next `addTimer`.
-/
import Sylar.Scheduler.Fiber
import Mathlib.Logic.Function.Basic

namespace Sylar.Timers

open Scheduler (Callback)

/-- `~0ull`. -/
def maxU64 : UInt64 := 0xffffffffffffffff

/-- `Timer`, less its back pointer to the manager. -/
structure Timer where
  m_next : UInt64 := 0
  m_ms : UInt64 := 0
  m_recurring : Bool := false
  m_cb : Option Callback := none
  deriving DecidableEq, Repr

/-- `Timer::Comparator` on two timers (none of the set's pointers is null), each given by its
deadline and its address. -/
def Comparator (lhs rhs : UInt64 × Nat) : Bool :=
  if lhs.1 < rhs.1 then true
  else if rhs.1 < lhs.1 then false
  else lhs.2 < rhs.2

/-- `TimeManager`; `timer` are the objects created so far, by address. -/
structure TimeManager where
  timer : Nat → Option Timer
  m_timers : List Nat
  m_tickled : Bool
  m_previouseTime : UInt64

namespace TimeManager

/-- `TimeManager::TimeManager`. -/
def new (now : UInt64) : TimeManager := ⟨fun _ => none, [], false, now⟩

/-- `*p`. -/
def deref (m : TimeManager) (p : Nat) : Timer := (m.timer p).getD {}

/-- What the comparator sees of the timer at `p`. -/
def key (m : TimeManager) (p : Nat) : UInt64 × Nat := ((m.deref p).m_next, p)

/-- Write the timer at `p`. -/
def write (m : TimeManager) (p : Nat) (x : Timer) : TimeManager :=
  { m with timer := Function.update m.timer p (some x) }

/-! ## The `std::set` -/

/-- `insert` on the elements in order: an equivalent element keeps the new one out. -/
def insertInto (m : TimeManager) (p : Nat) : List Nat → List Nat
  | [] => [p]
  | q :: rest =>
      if Comparator (m.key p) (m.key q) then p :: q :: rest
      else if Comparator (m.key q) (m.key p) then q :: m.insertInto p rest
      else q :: rest

/-- `m_timers.insert(p)`. -/
def insert (m : TimeManager) (p : Nat) : TimeManager :=
  { m with m_timers := m.insertInto p m.m_timers }

/-- `m_timers.lower_bound(k) .. end`: the elements that are not before `k`. -/
def lowerBound (m : TimeManager) (k : UInt64 × Nat) : List Nat :=
  m.m_timers.dropWhile fun q => Comparator (m.key q) k

/-- `m_timers.find(p)`; `none` is `end()`. -/
def find (m : TimeManager) (p : Nat) : Option Nat :=
  match m.lowerBound (m.key p) with
  | q :: _ => if Comparator (m.key p) (m.key q) then none else some q
  | [] => none

/-- `m_timers.erase(it)` for the element `q`. -/
def erase (m : TimeManager) (q : Nat) : TimeManager := { m with m_timers := m.m_timers.erase q }

/-- `it == m_timers.begin()` for the place of `p`. -/
def atBegin (m : TimeManager) (p : Nat) : Bool :=
  match m.m_timers with
  | q :: _ => !Comparator (m.key q) (m.key p)
  | [] => false

/-! ## Operations -/

/-- The protected `addTimer`; the answer is whether `onTimerInsertedAtFront` is called. -/
def addLocked (m : TimeManager) (p : Nat) : TimeManager × Bool :=
  let m := m.insert p
  let at_front := m.atBegin p && !m.m_tickled
  ({ m with m_tickled := m.m_tickled || at_front }, at_front)

/-- `addTimer`, of a timer that `new` puts at `p`. -/
def addTimer (m : TimeManager) (p : Nat) (ms : UInt64) (cb : Option Callback) (recurring : Bool)
    (now : UInt64) : TimeManager × Bool :=
  (m.write p ⟨now + ms, ms, recurring, cb⟩).addLocked p

/-- `Timer::cancel`; `none` is `erase(end())`. -/
def cancel (m : TimeManager) (p : Nat) : Option (TimeManager × Bool) :=
  if (m.deref p).m_cb.isSome then
    let m := m.write p { m.deref p with m_cb := none }
    (m.find p).map fun q => (m.erase q, true)
  else some (m, false)

/-- `Timer::refresh`. -/
def refresh (m : TimeManager) (p : Nat) (now : UInt64) : TimeManager × Bool :=
  if (m.deref p).m_cb.isNone then (m, false)
  else
    match m.find p with
    | none => (m, false)
    | some q =>
        let m := m.erase q
        ((m.write p { m.deref p with m_next := now + (m.deref p).m_ms }).insert p, true)

/-- `Timer::reset`: its answer, and whether `onTimerInsertedAtFront` is called. -/
def reset (m : TimeManager) (p : Nat) (ms : UInt64) (from_now : Bool) (now : UInt64) :
    TimeManager × Bool × Bool :=
  if ms = (m.deref p).m_ms ∧ from_now = false then (m, true, false)
  else if (m.deref p).m_cb.isNone then (m, false, false)
  else
    match m.find p with
    | none => (m, false, false)
    | some q =>
        let m := m.erase q
        let start := if from_now then now else (m.deref p).m_next - (m.deref p).m_ms
        let r := (m.write p { m.deref p with m_ms := ms, m_next := start + ms }).addLocked p
        (r.1, true, r.2)

/-- `getNextTimer`. -/
def getNextTimer (m : TimeManager) (now : UInt64) : TimeManager × UInt64 :=
  ({ m with m_tickled := false },
    match m.m_timers with
    | [] => maxU64
    | next :: _ =>
        if (m.deref next).m_next ≤ now then 0 else (m.deref next).m_next - now)

/-- `hasTimer`. -/
def hasTimer (m : TimeManager) : Bool := !m.m_timers.isEmpty

/-- `detectClockRollover`. -/
def detectClockRollover (m : TimeManager) (now : UInt64) : TimeManager × Bool :=
  ({ m with m_previouseTime := now },
    now < m.m_previouseTime && now < m.m_previouseTime - 60 * 60 * 1000)

/-- The elements behind the expired ones, with the temporary `now_timer` at `tmp`. -/
def unexpired (m : TimeManager) (rollover : Bool) (now : UInt64) (tmp : Nat) : List Nat :=
  if rollover then []
  else (m.lowerBound (now, tmp)).dropWhile fun q => (m.deref q).m_next = now

/-- The loop over `expired`. -/
def fire (m : TimeManager) (now : UInt64) : List Nat → TimeManager × List (Option Callback)
  | [] => (m, [])
  | p :: rest =>
      let x := m.deref p
      let m' := if x.m_recurring then (m.write p { x with m_next := now + x.m_ms }).insert p
        else m.write p { x with m_cb := none }
      let r := m'.fire now rest
      (r.1, x.m_cb :: r.2)

/-- `listExpiredCb`. -/
def listExpiredCb (m : TimeManager) (now : UInt64) (tmp : Nat) :
    TimeManager × List (Option Callback) :=
  match m.m_timers with
  | [] => (m, [])
  | first :: _ =>
      let (m, rollover) := m.detectClockRollover now
      if !rollover && now < (m.deref first).m_next then (m, [])
      else
        let left := m.unexpired rollover now tmp
        let expired := m.m_timers.take (m.m_timers.length - left.length)
        { m with m_timers := left }.fire now expired

/-- The calls other threads make on a timer or the manager. -/
inductive Call
  | addTimer (p : Nat) (ms : UInt64) (cb : Option Callback) (recurring : Bool) (now : UInt64)
  | cancel (p : Nat)
  | refresh (p : Nat) (now : UInt64)
  | reset (p : Nat) (ms : UInt64) (from_now : Bool) (now : UInt64)
  deriving DecidableEq, Repr

/-- Perform a call, on a timer that exists (for `addTimer`, at an address that is not in use); the
answer is whether `onTimerInsertedAtFront` is to be called. -/
def call (m : TimeManager) : Call → Option (TimeManager × Bool)
  | .addTimer p ms cb recurring now =>
      if (m.timer p).isNone then some (m.addTimer p ms cb recurring now) else none
  | .cancel p =>
      if (m.timer p).isSome then (m.cancel p).map fun r => (r.1, false) else none
  | .refresh p now =>
      if (m.timer p).isSome then some ((m.refresh p now).1, false) else none
  | .reset p ms from_now now =>
      if (m.timer p).isSome then
        let r := m.reset p ms from_now now
        some (r.1, r.2.2)
      else none

/-- **What each call does.** -/
inductive Called (m : TimeManager) : Call → TimeManager → Bool → Prop
  | addTimer {p ms cb recurring now} : m.timer p = none →
      Called m (.addTimer p ms cb recurring now) (m.addTimer p ms cb recurring now).1
        (m.addTimer p ms cb recurring now).2
  | cancel {p k rt} : (m.timer p).isSome = true → m.cancel p = some (k, rt) →
      Called m (.cancel p) k false
  | refresh {p now} : (m.timer p).isSome = true →
      Called m (.refresh p now) (m.refresh p now).1 false
  | reset {p ms from_now now} : (m.timer p).isSome = true →
      Called m (.reset p ms from_now now) (m.reset p ms from_now now).1
        (m.reset p ms from_now now).2.2

theorem called {m m' : TimeManager} {c : Call} {front : Bool} (h : m.call c = some (m', front)) :
    Called m c m' front := by
  cases c with
  | addTimer p ms cb recurring now =>
      simp only [call] at h
      split at h
      · rename_i hnew
        obtain ⟨rfl, rfl⟩ := Prod.mk.inj (Option.some.inj h)
        exact .addTimer (by simpa using hnew)
      · cases h
  | cancel p =>
      simp only [call] at h
      split at h
      · rename_i hp
        obtain ⟨⟨k, rt⟩, hcancel, heq⟩ := Option.map_eq_some_iff.mp h
        obtain ⟨rfl, rfl⟩ := Prod.mk.inj heq
        exact .cancel hp hcancel
      · cases h
  | refresh p now =>
      simp only [call] at h
      split at h
      · rename_i hp
        obtain ⟨rfl, rfl⟩ := Prod.mk.inj (Option.some.inj h)
        exact .refresh hp
      · cases h
  | reset p ms from_now now =>
      simp only [call] at h
      split at h
      · rename_i hp
        obtain ⟨rfl, rfl⟩ := Prod.mk.inj (Option.some.inj h)
        exact .reset hp
      · cases h

/-- The call puts a new timer into the set. -/
def Call.Inserts : Call → Prop
  | .addTimer .. => True
  | .cancel _ | .refresh .. | .reset .. => False

instance : DecidablePred Call.Inserts
  | .addTimer .. => isTrue trivial
  | .cancel _ | .refresh .. | .reset .. => isFalse id

/-! ## The empty set -/

/-- The first timer is due at the last moment there is, and the clock reads zero. -/
def Sentinel (m : TimeManager) (now : UInt64) : Prop :=
  now = 0 ∧ ∃ p ∈ m.m_timers.head?, (m.deref p).m_next = maxU64

instance (m : TimeManager) (now : UInt64) : Decidable (m.Sentinel now) :=
  inferInstanceAs (Decidable (now = 0 ∧ ∃ p ∈ m.m_timers.head?, (m.deref p).m_next = maxU64))

/-- A difference is `~0ull` only if nothing is taken from `~0ull`. -/
theorem sub_eq_max {a b : UInt64} (h : ¬ a ≤ b) : a - b = maxU64 ↔ b = 0 ∧ a = maxU64 := by
  have hlt : b < a := by
    rwa [UInt64.not_le] at h
  have hmax : maxU64.toNat = 2 ^ 64 - 1 := rfl
  have hsub : (a - b).toNat = a.toNat - b.toNat := UInt64.toNat_sub_of_le _ _ (UInt64.le_of_lt hlt)
  have ha : a.toNat < 2 ^ 64 := a.toNat_lt
  have hz : (0 : UInt64).toNat = 0 := rfl
  rw [UInt64.lt_iff_toNat_lt] at hlt
  rw [← UInt64.toNat_inj, ← UInt64.toNat_inj (a := b), ← UInt64.toNat_inj (a := a), hsub, hmax, hz]
  omega

/-- **When `getNextTimer` says "no timer".** -/
theorem getNextTimer_eq_max (m : TimeManager) (now : UInt64) :
    (m.getNextTimer now).2 = maxU64 ↔ m.m_timers = [] ∨ m.Sentinel now := by
  unfold getNextTimer Sentinel
  cases h : m.m_timers with
  | nil => simp
  | cons next rest =>
      have hne : (0 : UInt64) ≠ maxU64 := by decide
      dsimp only
      split
      · rename_i hle
        have : ¬ (now = 0 ∧ (m.deref next).m_next = maxU64) := by
          rintro ⟨rfl, hmax⟩
          change (m.deref next).m_next ≤ 0 at hle
          rw [hmax] at hle
          exact absurd hle (by decide)
        simpa [hne] using this
      · rename_i hle
        simpa using sub_eq_max hle

@[simp] theorem getNextTimer_timers (m : TimeManager) (now : UInt64) :
    (m.getNextTimer now).1.m_timers = m.m_timers := rfl

theorem listExpiredCb_of_empty {m : TimeManager} (h : m.m_timers = []) (now : UInt64) (tmp : Nat) :
    m.listExpiredCb now tmp = (m, []) := by
  unfold listExpiredCb
  rw [h]

theorem find_of_empty {m : TimeManager} (h : m.m_timers = []) (p : Nat) : m.find p = none := by
  unfold find lowerBound
  rw [h]
  rfl

/-- **An empty set stays empty** until a timer is added. -/
theorem call_of_empty {m m' : TimeManager} {c : Call} {front : Bool} (h : m.m_timers = [])
    (hc : ¬ c.Inserts) (hcall : m.call c = some (m', front)) : m'.m_timers = [] := by
  cases called hcall with
  | addTimer => exact absurd trivial hc
  | @cancel p k rt hp hcancel =>
      simp only [cancel] at hcancel
      split at hcancel
      · -- the timer has a callback, and `find` does not find it
        rw [find_of_empty (by exact h)] at hcancel
        cases hcancel
      · obtain ⟨rfl, -⟩ := Prod.mk.inj (Option.some.inj hcancel)
        exact h
  | refresh =>
      simp only [refresh, find_of_empty h]
      split
      · exact h
      · exact h
  | reset =>
      simp only [reset, find_of_empty h]
      split
      · exact h
      · split
        · exact h
        · exact h

end TimeManager

end Sylar.Timers
