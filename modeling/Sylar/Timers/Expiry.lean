/-
# Sylar.Timers.Expiry — exactly what `listExpiredCb` takes out.

`listExpiredCb` leaves by two early exits (an empty set, and a first timer that is not due), or
searches the set for the place where the expired timers end, with a temporary timer whose address
decides between it and the timers that are due this very millisecond.  `listAll` is the same function
without the exits.

`Expires` says what one call does to a set in order, whatever its timers are: who is returned, in
which order, what is in the set afterwards, and that the exits save work and nothing else
(`listExpiredCb_exact`).  Nothing is asked of the timers but that `Timer::Comparator` finds the set
in order; that a timer in it has a callback is not needed.
-/
import Sylar.Timers.TimerSet

namespace Sylar.Timers

open Lib (Ordered)
open Scheduler (Callback)

namespace TimeManager

variable {m : TimeManager} {p q : Nat} {now : UInt64}

/-! ## The loop over `expired` -/

/-- One round of the loop. -/
def fireOne (m : TimeManager) (now : UInt64) (p : Nat) : TimeManager :=
  if (m.deref p).m_recurring then
    (m.write p { m.deref p with m_next := now + (m.deref p).m_ms }).insert p
  else m.write p { m.deref p with m_cb := none }

theorem fire_cons (m : TimeManager) (now : UInt64) (p : Nat) (ps : List Nat) :
    (m.fire now (p :: ps)).1 = ((m.fireOne now p).fire now ps).1 := rfl

theorem fireOne_deref (m : TimeManager) (now : UInt64) (p q : Nat) :
    (m.fireOne now p).deref q = if q = p then rearm now (m.deref p) else m.deref q := by
  unfold fireOne rearm
  split
  · rw [deref_insert, deref_write]
  · rw [deref_write]

/-- A write to a timer that is not in the set leaves the set in order. -/
theorem ordered_write {x : Timer} (h : Ordered m.rank m.m_timers) (hp : p ∉ m.m_timers) :
    Ordered (m.write p x).rank (m.write p x).m_timers := by
  refine Ordered.congr h ?_
  intro a ha
  apply rank_write_of_ne
  rintro rfl
  exact hp ha

theorem fireOne_ordered (h : Ordered m.rank m.m_timers) (hp : p ∉ m.m_timers) :
    Ordered (m.fireOne now p).rank (m.fireOne now p).m_timers := by
  unfold fireOne
  split
  · rw [insert_timers]
    exact (ordered_write h hp).insertBy
  · exact ordered_write h hp

/-- A recurring timer goes back into the set, and no other does. -/
theorem mem_fireOne (hp : p ∉ m.m_timers) : q ∈ (m.fireOne now p).m_timers ↔
    q ∈ m.m_timers ∨ q = p ∧ (m.deref p).m_recurring = true := by
  unfold fireOne
  split
  · rename_i hrec
    rw [mem_insert (show p ∉ (m.write p _).m_timers from hp), write_timers, or_comm]
    simp [hrec]
  · rename_i hrec
    simp [hrec]

/-- The loop keeps the set in order, and puts back the recurring timers. -/
theorem fire_timers (now : UInt64) {ps : List Nat} {m : TimeManager} (hnodup : ps.Nodup)
    (haway : ∀ p ∈ ps, p ∉ m.m_timers) (h : Ordered m.rank m.m_timers) :
    Ordered (m.fire now ps).1.rank (m.fire now ps).1.m_timers ∧
      ∀ q, q ∈ (m.fire now ps).1.m_timers ↔
        q ∈ m.m_timers ∨ q ∈ ps ∧ (m.deref q).m_recurring = true := by
  induction ps generalizing m with
  | nil =>
      refine ⟨h, ?_⟩
      intro q
      simp [fire]
  | cons p ps ih =>
      obtain ⟨hp, hps⟩ := List.nodup_cons.mp hnodup
      have hset : p ∉ m.m_timers := haway p List.mem_cons_self
      have hrest : ∀ q ∈ ps, q ∉ (m.fireOne now p).m_timers := by
        intro q hq hin
        rcases (mem_fireOne hset).mp hin with hin | ⟨rfl, -⟩
        · exact haway q (List.mem_cons_of_mem p hq) hin
        · exact hp hq
      obtain ⟨hord, hmem⟩ := ih hps hrest (fireOne_ordered h hset)
      rw [fire_cons]
      refine ⟨hord, ?_⟩
      intro q
      rw [hmem q, mem_fireOne hset, fireOne_deref, List.mem_cons]
      by_cases hqp : q = p
      · subst hqp
        simp [hp]
      · simp [hqp]

/-! ## The general path -/

/-- `listExpiredCb` without its early exits. -/
def listAll (m : TimeManager) (now : UInt64) (tmp : Nat) : TimeManager × List (Option Callback) :=
  let (m, rollover) := m.detectClockRollover now
  let left := m.unexpired rollover now tmp
  let expired := m.m_timers.take (m.m_timers.length - left.length)
  { m with m_timers := left }.fire now expired

/-- What is due stands in front, and the general path takes it from there. -/
theorem listAll_eq (h : Ordered m.rank m.m_timers) (now : UInt64) (tmp : Nat) :
    m.listAll now tmp = (m.takeDue now).fire now (m.expired now) := by
  have hleft := unexpired_eq h now tmp
  have hfront : m.m_timers.take
      (m.m_timers.length - (m.unexpired (m.rollover now) now tmp).length) = m.expired now := by
    unfold expired
    rw [hleft, ← Lib.dropWhile_eq_filter (pairwise_due h now), Lib.take_sub_dropWhile,
      Lib.takeWhile_eq_filter (pairwise_due h now)]
  have htake : m.takeDue now = { (m.detectClockRollover now).1 with
      m_timers := m.unexpired (m.rollover now) now tmp } := by
    rw [hleft]
    rfl
  rw [← hfront, htake]
  rfl

/-! ## The law -/

/-- Taken out by a call at `now`: every timer after a rollover, and the ones whose deadline has come
otherwise. -/
def Expired (m : TimeManager) (now : UInt64) (p : Nat) : Prop :=
  p ∈ m.m_timers ∧ ((m.detectClockRollover now).2 = true ∨ (m.deref p).m_next ≤ now)

theorem mem_expired_iff : p ∈ m.expired now ↔ m.Expired now p := by
  unfold expired
  rw [List.mem_filter]
  simp [Expired, due, rollover]

/-- What one call of `listExpiredCb` does, `cbs` being the callbacks it appends and `m'` the manager
it leaves. -/
structure Expires (m : TimeManager) (now : UInt64) (tmp : Nat) (m' : TimeManager)
    (cbs : List (Option Callback)) : Prop where
  /-- The callbacks are those of the expired timers, each timer once, by deadline. -/
  returned : ∃ ps : List Nat, ps.Nodup ∧ (∀ p, p ∈ ps ↔ m.Expired now p) ∧
    (ps.Pairwise fun p q => (m.deref p).m_next ≤ (m.deref q).m_next) ∧
    cbs = ps.map fun p => (m.deref p).m_cb
  /-- In the set are the timers that have not expired and the recurring ones, ... -/
  mem_iff : ∀ p, p ∈ m'.m_timers ↔
    p ∈ m.m_timers ∧ (m.Expired now p → (m.deref p).m_recurring = true)
  /-- ... none of them twice, and in order. -/
  once : m'.m_timers.Nodup
  ordered : m'.m_timers.Pairwise fun p q => Comparator (m'.key p) (m'.key q) = true
  untouched : ∀ p, ¬ m.Expired now p → m'.deref p = m.deref p
  recurring : ∀ p, m.Expired now p → (m.deref p).m_recurring = true →
    m'.deref p = { m.deref p with m_next := now + (m.deref p).m_ms }
  oneShot : ∀ p, m.Expired now p → (m.deref p).m_recurring = false →
    m'.deref p = { m.deref p with m_cb := none }
  /-- The general path appends the same callbacks, and leaves the same set and the same timers. -/
  exits : (m.listAll now tmp).2 = cbs ∧ (m.listAll now tmp).1.m_timers = m'.m_timers ∧
    (m.listAll now tmp).1.timer = m'.timer

/-- The law for the general path. -/
theorem listAll_exact (h : Ordered m.rank m.m_timers) (now : UInt64) (tmp : Nat) :
    m.Expires now tmp (m.listAll now tmp).1 (m.listAll now tmp).2 := by
  have hnodup : (m.expired now).Nodup := h.nodup.filter _
  have haway : ∀ p ∈ m.expired now, p ∉ (m.takeDue now).m_timers := by
    intro p hp hin
    have hdue := (List.mem_filter.mp hp).2
    have hnot := (List.mem_filter.mp hin).2
    rw [hdue] at hnot
    cases hnot
  have hord : Ordered (m.takeDue now).rank (m.takeDue now).m_timers :=
    h.sublist List.filter_sublist
  obtain ⟨hafter, hmem⟩ := fire_timers now hnodup haway hord
  have hderef : ∀ p, ((m.takeDue now).fire now (m.expired now)).1.deref p
      = if p ∈ m.expired now then rearm now (m.deref p) else m.deref p :=
    fire_deref now hnodup
  rw [listAll_eq h now tmp]
  refine ⟨⟨m.expired now, hnodup, fun p => mem_expired_iff, ?_, ?_⟩, ?_, hafter.nodup, ?_, ?_, ?_,
    ?_, ?_⟩
  · refine List.Pairwise.imp ?_ (h.sublist (List.filter_sublist (p := m.due now)))
    intro p q hpq
    rw [rank_lt] at hpq
    rw [UInt64.le_iff_toNat_le]
    omega
  · rw [fire_returns now hnodup]
    rfl
  · intro p
    rw [hmem p, mem_expired_iff]
    have hleft : p ∈ (m.takeDue now).m_timers ↔ p ∈ m.m_timers ∧ ¬ m.Expired now p := by
      rw [← mem_expired_iff]
      simp only [takeDue, expired, List.mem_filter]
      cases m.due now p <;> simp
    rw [hleft]
    by_cases hp : m.Expired now p
    · simp [hp, hp.1, takeDue, deref]
    · simp [hp]
  · refine List.Pairwise.imp ?_ hafter
    intro p q hpq
    exact comparator_key.mpr hpq
  · intro p hp
    rw [hderef p, if_neg (mt mem_expired_iff.mp hp)]
  · intro p hp hrec
    rw [hderef p, if_pos (mem_expired_iff.mpr hp), rearm, if_pos hrec]
  · intro p hp hrec
    rw [hderef p, if_pos (mem_expired_iff.mpr hp), rearm, if_neg (by simp [hrec])]
  · rw [listAll_eq h now tmp]
    exact ⟨rfl, rfl, rfl⟩

/-- **`listExpiredCb` takes out exactly the expired timers**, from any set in order and at any clock
reading. -/
theorem listExpiredCb_exact (now : UInt64) (tmp : Nat)
    (h : m.m_timers.Pairwise fun p q => Comparator (m.key p) (m.key q) = true) :
    m.Expires now tmp (m.listExpiredCb now tmp).1 (m.listExpiredCb now tmp).2 := by
  have hord : Ordered m.rank m.m_timers := List.Pairwise.imp comparator_key.mp h
  have hall := listAll_exact hord now tmp
  by_cases hne : m.m_timers = []
  · -- the exit at the top leaves the previous reading, which no clause looks at
    have hexp : m.expired now = [] := expired_of_empty hne now
    have htake : m.listAll now tmp = (m.takeDue now, []) := by
      rw [listAll_eq hord now tmp, hexp]
      rfl
    have hset : (m.takeDue now).m_timers = m.m_timers := by
      simp [takeDue, hne]
    rw [listExpiredCb_of_empty hne]
    rw [htake] at hall
    refine ⟨hall.returned, ?_, ?_, ?_, hall.untouched, hall.recurring, hall.oneShot, ?_⟩
    · intro p
      rw [← hall.mem_iff p, hset]
    · rw [hne]
      exact List.nodup_nil
    · rw [hne]
      exact List.Pairwise.nil
    · rw [htake]
      exact ⟨rfl, hset, rfl⟩
  · have hgo : m.listExpiredCb now tmp = m.listAll now tmp := by
      rw [listExpiredCb_eq hord now tmp hne, listAll_eq hord now tmp]
    rw [hgo]
    exact hall

/-- Two timers due this millisecond on either side of the temporary, a recurring one that is late,
and one that is not due. -/
def dueSet : TimeManager :=
  ((((new 100000000).addTimer 32 10 (some 1) false 100000000).1.addTimer 16 10 (some 2) false
    100000000).1.addTimer 48 5 (some 3) true 100000000).1.addTimer 8 60 (some 4) false 100000000
    |>.1

theorem listExpiredCb_exact_dueSet :
    (dueSet.listExpiredCb 100000010 24).2 = [some 3, some 2, some 1] ∧
      dueSet.Expires 100000010 24 (dueSet.listExpiredCb 100000010 24).1
        (dueSet.listExpiredCb 100000010 24).2 :=
  ⟨by decide, listExpiredCb_exact 100000010 24 (by decide)⟩

end TimeManager

end Sylar.Timers
