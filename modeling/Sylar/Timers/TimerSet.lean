/-
# Sylar.Timers.TimerSet — the order of `m_timers`, and who is in it.

The key of a timer, `m_next`, is a mutable member of the timer and not of the set.  The operations
keep the set in order all the same, because each takes a timer out before it writes the key and puts
it back afterwards; and they keep the callback slot and the set in step, so that a timer with a
callback is in the set, and where all are created with one, no other is (`timer_set`).

`Holds voiced m out` is the invariant between two such halves: the timers `out` belong to the set and
are not in it.  It is proved once for the runs in which every timer is created with a callback
(`voiced`) and for all runs.  `timerSet` are the runs of all operations, with `free` for the
destruction of a timer nobody points to any more, which is when its address may be used again.
-/
import Sylar.Timers.TimeManager
import Sylar.Lib.OrderedSet
import Sylar.Lib.Transition
import Mathlib.Data.Prod.Lex

namespace Sylar.Timers

open Lib (Ordered guarded)
open Scheduler (Callback)

namespace TimeManager

/-! ## The order of the set -/

/-- The place of a timer in the order. -/
def rank (m : TimeManager) (p : Nat) : ℕ ×ₗ ℕ := toLex ((m.deref p).m_next.toNat, p)

/-- The timer has a callback. -/
def Live (m : TimeManager) (p : Nat) : Prop := (m.deref p).m_cb.isSome = true

instance (m : TimeManager) (p : Nat) : Decidable (m.Live p) :=
  inferInstanceAs (Decidable ((m.deref p).m_cb.isSome = true))

variable {m : TimeManager} {p q : Nat} {x : Timer}

/-- What `Timer::Comparator` compares. -/
theorem comparator_iff (a b : UInt64 × Nat) : Comparator a b = true ↔
    a.1.toNat < b.1.toNat ∨ a.1.toNat = b.1.toNat ∧ a.2 < b.2 := by
  unfold Comparator
  simp only [UInt64.lt_iff_toNat_lt]
  split
  · simp_all
  · split
    · simp only [Bool.false_eq_true, false_iff, not_or, not_and]
      omega
    · simp only [decide_eq_true_eq]
      omega

theorem rank_lt : m.rank p < m.rank q ↔ (m.deref p).m_next.toNat < (m.deref q).m_next.toNat ∨
    (m.deref p).m_next.toNat = (m.deref q).m_next.toNat ∧ p < q := by
  unfold rank
  rw [Prod.Lex.lt_iff]
  rfl

/-- `Timer::Comparator` is the order of the ranks. -/
theorem comparator_key : Comparator (m.key p) (m.key q) = true ↔ m.rank p < m.rank q := by
  rw [comparator_iff, rank_lt]
  rfl

theorem rank_injective (m : TimeManager) : Function.Injective m.rank := by
  intro p q h
  have := congrArg (fun r : ℕ ×ₗ ℕ => (ofLex r).2) h
  exact this

/-! ## Writes -/

@[simp] theorem deref_write (m : TimeManager) (p q : Nat) (x : Timer) :
    (m.write p x).deref q = if q = p then x else m.deref q := by
  simp only [deref, write, Function.update_apply]
  split <;> rfl

@[simp] theorem write_timers (m : TimeManager) (p : Nat) (x : Timer) :
    (m.write p x).m_timers = m.m_timers := rfl

@[simp] theorem deref_insert (m : TimeManager) (p q : Nat) : (m.insert p).deref q = m.deref q := rfl

@[simp] theorem deref_erase (m : TimeManager) (p q : Nat) : (m.erase p).deref q = m.deref q := rfl

theorem rank_write_of_ne (h : q ≠ p) : (m.write p x).rank q = m.rank q := by
  simp only [rank, deref_write, if_neg h]

theorem live_write : (m.write p x).Live q ↔ if q = p then x.m_cb.isSome = true else m.Live q := by
  simp only [Live, deref_write]
  split <;> rfl

/-- The model's `insert` is that of the ordered list. -/
theorem insert_timers (m : TimeManager) (p : Nat) :
    (m.insert p).m_timers = Lib.insertBy m.rank p m.m_timers := by
  have hinto : ∀ xs, m.insertInto p xs = Lib.insertBy m.rank p xs := by
    intro xs
    induction xs with
    | nil => rfl
    | cons q xs ih => simp only [insertInto, Lib.insertBy, comparator_key, ih]
  exact hinto m.m_timers

/-- A timer that is not in the set gets in: no other has its rank. -/
theorem mem_insert (hp : p ∉ m.m_timers) : q ∈ (m.insert p).m_timers ↔ q = p ∨ q ∈ m.m_timers := by
  rw [insert_timers]
  apply Lib.mem_insertBy
  intro r hr heq
  rw [rank_injective m heq] at hr
  exact hp hr

/-! ## The invariant -/

/-- The set is in order and holds every timer with a callback, less the ones in `out`; where all
timers are `voiced`, it holds no other. -/
structure Holds (voiced : Prop) (m : TimeManager) (out : List Nat) : Prop where
  ordered : Ordered m.rank m.m_timers
  nodup : out.Nodup
  disjoint : ∀ p ∈ out, p ∉ m.m_timers
  exist : ∀ p, p ∈ m.m_timers ∨ p ∈ out → (m.timer p).isSome = true
  mem_of_live : ∀ p, m.Live p → p ∈ m.m_timers ∨ p ∈ out
  live_of_mem : voiced → ∀ p, p ∈ m.m_timers ∨ p ∈ out → m.Live p

/-- The invariant between two operations. -/
def WF (voiced : Prop) (m : TimeManager) : Prop := m.Holds voiced []

theorem WF.mem {voiced : Prop} (h : m.WF voiced) (hp : m.Live p) : p ∈ m.m_timers :=
  (Holds.mem_of_live h p hp).resolve_right List.not_mem_nil

theorem WF.mem_iff (h : m.WF True) (p : Nat) : p ∈ m.m_timers ↔ m.Live p :=
  ⟨fun hp => Holds.live_of_mem h trivial p (.inl hp), h.mem⟩

/-- An element is where the lower bound of its key is. -/
theorem find_of_mem (h : Ordered m.rank m.m_timers) (hp : p ∈ m.m_timers) :
    m.find p = some p := by
  have hbound : m.lowerBound (m.key p)
      = m.m_timers.dropWhile fun q => decide (m.rank q < m.rank p) := by
    unfold lowerBound
    congr 1
    funext q
    exact Bool.eq_iff_iff.mpr (comparator_key.trans (decide_eq_true_iff).symm)
  obtain ⟨rest, hrest⟩ := h.dropWhile_self hp
  have hself : ¬ Comparator (m.key p) (m.key p) = true := by
    rw [comparator_key]
    exact lt_irrefl _
  unfold find
  rw [hbound, hrest]
  exact if_neg hself

namespace Holds

variable {voiced : Prop} {out : List Nat}

/-- Take a timer out of the set. -/
theorem erase (h : m.Holds voiced out) (hp : p ∈ m.m_timers) :
    (m.erase p).Holds voiced (p :: out) := by
  have hmem : ∀ q, q ∈ (m.erase p).m_timers ↔ q ≠ p ∧ q ∈ m.m_timers := fun q =>
    h.ordered.nodup.mem_erase_iff
  have hsame : ∀ q, q ∈ (m.erase p).m_timers ∨ q ∈ p :: out ↔ q ∈ m.m_timers ∨ q ∈ out := by
    intro q
    rw [hmem, List.mem_cons]
    by_cases hqp : q = p
    · subst hqp
      simp [hp]
    · simp [hqp]
  refine ⟨h.ordered.sublist List.erase_sublist, ?_, ?_, ?_, ?_, ?_⟩
  · exact List.nodup_cons.mpr ⟨fun hin => h.disjoint p hin hp, h.nodup⟩
  · intro q hq hin
    obtain ⟨hne, hin⟩ := (hmem q).mp hin
    rcases List.mem_cons.mp hq with rfl | hq
    · exact hne rfl
    · exact h.disjoint q hq hin
  · exact fun q hq => h.exist q ((hsame q).mp hq)
  · exact fun q hq => (hsame q).mpr (h.mem_of_live q hq)
  · exact fun hv q hq => h.live_of_mem hv q ((hsame q).mp hq)

/-- Write a timer that is not in the set, and is to be put into it. -/
theorem write_live (h : m.Holds voiced out) (hset : p ∉ m.m_timers) (hout : p ∉ out)
    (hx : voiced → x.m_cb.isSome = true) : (m.write p x).Holds voiced (p :: out) := by
  refine ⟨h.ordered.congr fun q hq => rank_write_of_ne ?_, ?_, ?_, ?_, ?_, ?_⟩
  · rintro rfl
    exact hset hq
  · exact List.nodup_cons.mpr ⟨hout, h.nodup⟩
  · intro q hq
    rcases List.mem_cons.mp hq with rfl | hq
    · exact hset
    · exact h.disjoint q hq
  · intro q hq
    by_cases hqp : q = p
    · simp [write, hqp]
    · simp only [write, Function.update_of_ne hqp]
      exact h.exist q (by simpa [hqp] using hq)
  · intro q hq
    rw [live_write] at hq
    rw [write_timers, List.mem_cons]
    by_cases hqp : q = p
    · exact .inr (.inl hqp)
    · rw [if_neg hqp] at hq
      exact (h.mem_of_live q hq).imp_right .inr
  · intro hv q hq
    rw [live_write]
    by_cases hqp : q = p
    · rw [if_pos hqp]
      exact hx hv
    · rw [if_neg hqp]
      exact h.live_of_mem hv q (by simpa [hqp] using hq)

/-- A timer that is out of the set is nowhere else. -/
theorem away (h : m.Holds voiced (p :: out)) : p ∉ m.m_timers ∧ p ∉ out :=
  ⟨h.disjoint p List.mem_cons_self, (List.nodup_cons.mp h.nodup).1⟩

/-- Write a timer that is out of the set, so that it has no callback afterwards. -/
theorem write_dead (h : m.Holds voiced (p :: out)) (hx : x.m_cb.isSome = false) :
    (m.write p x).Holds voiced out := by
  obtain ⟨hset, hout⟩ := h.away
  have hne : ∀ q, q ∈ m.m_timers ∨ q ∈ out → q ≠ p := by
    rintro q hq rfl
    exact hq.elim hset hout
  have hin : ∀ q, q ∈ m.m_timers ∨ q ∈ out → q ∈ m.m_timers ∨ q ∈ p :: out := fun q hq =>
    hq.imp_right (List.mem_cons_of_mem p)
  refine ⟨h.ordered.congr fun q hq => rank_write_of_ne (hne q (.inl hq)),
    (List.nodup_cons.mp h.nodup).2, fun q hq => h.disjoint q (List.mem_cons_of_mem p hq), ?_, ?_, ?_⟩
  · intro q hq
    simp only [write, Function.update_of_ne (hne q hq)]
    exact h.exist q (hin q hq)
  · intro q hq
    rw [live_write] at hq
    split at hq
    · rw [hx] at hq
      cases hq
    · rename_i hqp
      simpa [hqp] using h.mem_of_live q hq
  · intro hv q hq
    rw [live_write, if_neg (hne q hq)]
    exact h.live_of_mem hv q (hin q hq)

/-- Rewrite the key of a timer that is out of the set. -/
theorem rewrite (h : m.Holds voiced (p :: out)) (hx : x.m_cb = (m.deref p).m_cb) :
    (m.write p x).Holds voiced (p :: out) := by
  -- cleared first, it is a timer of no interest, and may be written like one
  have hgone : (m.write p ({} : Timer)).Holds voiced out := h.write_dead rfl
  have hlive : voiced → x.m_cb.isSome = true := by
    intro hv
    rw [hx]
    exact h.live_of_mem hv p (.inr List.mem_cons_self)
  have hback := hgone.write_live (p := p) h.away.1 h.away.2 hlive
  have heq : (m.write p ({} : Timer)).write p x = m.write p x := by
    simp only [write, Function.update_idem]
  rwa [heq] at hback

/-- Put a timer back. -/
theorem insert (h : m.Holds voiced (p :: out)) : (m.insert p).Holds voiced out := by
  obtain ⟨hset, hout⟩ := h.away
  have hmem : ∀ q, q ∈ (m.insert p).m_timers ↔ q = p ∨ q ∈ m.m_timers := fun q => mem_insert hset
  have hsame : ∀ q, q ∈ (m.insert p).m_timers ∨ q ∈ out ↔ q ∈ m.m_timers ∨ q ∈ p :: out := by
    intro q
    rw [hmem, List.mem_cons]
    tauto
  refine ⟨?_, (List.nodup_cons.mp h.nodup).2, ?_, ?_, ?_, ?_⟩
  · rw [insert_timers]
    exact h.ordered.insertBy
  · intro q hq hin
    rcases (hmem q).mp hin with rfl | hin
    · exact hout hq
    · exact h.disjoint q (List.mem_cons_of_mem p hq) hin
  · exact fun q hq => h.exist q ((hsame q).mp hq)
  · exact fun q hq => (hsame q).mpr (h.mem_of_live q hq)
  · exact fun hv q hq => h.live_of_mem hv q ((hsame q).mp hq)

/-- The members the order does not look at. -/
theorem of_eq {m' : TimeManager} (h : m.Holds voiced out) (ht : m'.timer = m.timer)
    (hs : m'.m_timers = m.m_timers) : m'.Holds voiced out := by
  have hderef : m'.deref = m.deref := by
    funext q
    simp only [deref, ht]
  have hrank : m'.rank = m.rank := by
    funext q
    simp only [rank, hderef]
  have hlive : ∀ q, m'.Live q ↔ m.Live q := by
    intro q
    rw [Live, Live, hderef]
  refine ⟨?_, h.nodup, ?_, ?_, ?_, ?_⟩
  · rw [hrank, hs]
    exact h.ordered
  · rw [hs]
    exact h.disjoint
  · rw [hs, ht]
    exact h.exist
  · intro q hq
    rw [hs]
    exact h.mem_of_live q ((hlive q).mp hq)
  · intro hv q hq
    rw [hs] at hq
    exact (hlive q).mpr (h.live_of_mem hv q hq)

end Holds

/-! ## The operations -/

variable {voiced : Prop}

theorem wf_of_eq {m' : TimeManager} (h : m.WF voiced) (ht : m'.timer = m.timer)
    (hs : m'.m_timers = m.m_timers) : m'.WF voiced := Holds.of_eq h ht hs

/-- The protected `addTimer` is an insertion, and sets `m_tickled`. -/
theorem addLocked_holds {out : List Nat} (h : m.Holds voiced (p :: out)) :
    (m.addLocked p).1.Holds voiced out :=
  h.insert.of_eq rfl rfl

theorem addTimer_wf (h : m.WF voiced) {ms : UInt64} {cb : Option Callback} {recurring : Bool}
    {now : UInt64} (hnew : m.timer p = none) (hcb : voiced → cb.isSome = true) :
    (m.addTimer p ms cb recurring now).1.WF voiced := by
  have hset : p ∉ m.m_timers := by
    intro hp
    have hsome := Holds.exist h p (.inl hp)
    rw [hnew] at hsome
    cases hsome
  exact addLocked_holds (Holds.write_live h hset List.not_mem_nil hcb)

/-- The callback is no part of the key: `cancel`, which clears it first, still finds the timer. -/
theorem find_cleared (h : m.WF voiced) (hp : m.Live p) :
    (m.write p { m.deref p with m_cb := none }).find p = some p := by
  have hrank : (m.write p { m.deref p with m_cb := none }).rank = m.rank := by
    funext q
    by_cases hq : q = p
    · subst hq
      simp [rank]
    · exact rank_write_of_ne hq
  refine find_of_mem ?_ (h.mem hp)
  rw [hrank]
  exact Holds.ordered h

/-- What `cancel` does to a timer with a callback. -/
theorem cancel_live (h : m.WF voiced) (hp : m.Live p) :
    m.cancel p = some ((m.erase p).write p { m.deref p with m_cb := none }, true) := by
  have hsome : (m.deref p).m_cb.isSome = true := hp
  unfold cancel
  rw [if_pos hsome]
  dsimp only
  rw [find_cleared h hp]
  rfl

theorem cancel_dead (hp : ¬ m.Live p) : m.cancel p = some (m, false) := if_neg hp

theorem cancel_wf {m' : TimeManager} {rt : Bool} (h : m.WF voiced) (hc : m.cancel p = some (m', rt)) :
    m'.WF voiced := by
  by_cases hp : m.Live p
  · rw [cancel_live h hp] at hc
    obtain ⟨rfl, -⟩ := Prod.mk.inj (Option.some.inj hc)
    exact (Holds.erase h (h.mem hp)).write_dead rfl
  · rw [cancel_dead hp] at hc
    obtain ⟨rfl, -⟩ := Prod.mk.inj (Option.some.inj hc)
    exact h

/-- A timer with a callback is taken out, written, and put back. -/
theorem refresh_live (h : m.WF voiced) (hp : m.Live p) (now : UInt64) :
    m.refresh p now = (((m.erase p).write p
      { m.deref p with m_next := now + (m.deref p).m_ms }).insert p, true) := by
  have hset : p ∈ m.m_timers := h.mem hp
  have hsome : (m.deref p).m_cb.isNone = false := by
    simpa [Live] using hp
  unfold refresh
  rw [hsome, find_of_mem (Holds.ordered h) hset]
  rfl

theorem refresh_dead (hp : ¬ m.Live p) (now : UInt64) : m.refresh p now = (m, false) := by
  have hnone : (m.deref p).m_cb.isNone = true := by
    simpa [Live] using hp
  unfold refresh
  exact if_pos hnone

theorem refresh_wf (h : m.WF voiced) (now : UInt64) : (m.refresh p now).1.WF voiced := by
  by_cases hp : m.Live p
  · rw [refresh_live h hp]
    have hout := Holds.erase h (h.mem hp)
    exact (hout.rewrite (x := { m.deref p with m_next := now + (m.deref p).m_ms }) rfl).insert
  · rw [refresh_dead hp]
    exact h

/-- The start a `reset` counts from. -/
def resetStart (m : TimeManager) (p : Nat) (from_now : Bool) (now : UInt64) : UInt64 :=
  if from_now then now else (m.deref p).m_next - (m.deref p).m_ms

/-- The timer behind a `reset` that goes through. -/
def resetTimer (m : TimeManager) (p : Nat) (ms : UInt64) (from_now : Bool) (now : UInt64) : Timer :=
  { m.deref p with m_ms := ms, m_next := m.resetStart p from_now now + ms }

theorem reset_live (h : m.WF voiced) (hp : m.Live p) {ms : UInt64} {from_now : Bool} (now : UInt64)
    (hne : ¬ (ms = (m.deref p).m_ms ∧ from_now = false)) :
    m.reset p ms from_now now =
      ((((m.erase p).write p (m.resetTimer p ms from_now now)).addLocked p).1, true,
        (((m.erase p).write p (m.resetTimer p ms from_now now)).addLocked p).2) := by
  have hset : p ∈ m.m_timers := h.mem hp
  have hsome : (m.deref p).m_cb.isNone = false := by
    simpa [Live] using hp
  unfold reset
  rw [if_neg hne, hsome, find_of_mem (Holds.ordered h) hset]
  rfl

theorem reset_same {ms : UInt64} {from_now : Bool} (now : UInt64)
    (heq : ms = (m.deref p).m_ms ∧ from_now = false) :
    m.reset p ms from_now now = (m, true, false) := if_pos heq

theorem reset_dead (hp : ¬ m.Live p) {ms : UInt64} {from_now : Bool} (now : UInt64) :
    (m.reset p ms from_now now).1 = m ∧ (m.reset p ms from_now now).2.2 = false := by
  have hnone : (m.deref p).m_cb.isNone = true := by
    simpa [Live] using hp
  unfold reset
  rw [hnone]
  split
  · exact ⟨rfl, rfl⟩
  · exact ⟨rfl, rfl⟩

theorem reset_wf (h : m.WF voiced) (ms : UInt64) (from_now : Bool) (now : UInt64) :
    (m.reset p ms from_now now).1.WF voiced := by
  by_cases heq : ms = (m.deref p).m_ms ∧ from_now = false
  · rw [reset_same now heq]
    exact h
  · by_cases hp : m.Live p
    · rw [reset_live h hp now heq]
      have hout := Holds.erase h (h.mem hp)
      exact addLocked_holds (hout.rewrite (x := m.resetTimer p ms from_now now) rfl)
    · rw [(reset_dead hp now).1]
      exact h

/-! ### What they leave of each timer -/

theorem addTimer_deref (m : TimeManager) (p : Nat) (ms : UInt64) (cb : Option Callback)
    (recurring : Bool) (now : UInt64) (q : Nat) :
    (m.addTimer p ms cb recurring now).1.deref q
      = if q = p then ⟨now + ms, ms, recurring, cb⟩ else m.deref q :=
  deref_write m p q ⟨now + ms, ms, recurring, cb⟩

theorem cancel_deref {m' : TimeManager} {rt : Bool} (h : m.WF voiced) (hc : m.cancel p = some (m', rt))
    (q : Nat) : m'.deref q = if q = p then { m.deref p with m_cb := none } else m.deref q := by
  by_cases hp : m.Live p
  · rw [cancel_live h hp] at hc
    obtain ⟨rfl, -⟩ := Prod.mk.inj (Option.some.inj hc)
    exact deref_write (m.erase p) p q _
  · rw [cancel_dead hp] at hc
    obtain ⟨rfl, -⟩ := Prod.mk.inj (Option.some.inj hc)
    split
    · rename_i hq
      subst hq
      have hnone : (m.deref q).m_cb = none := by
        simpa [Live] using hp
      rw [← hnone]
    · rfl

theorem refresh_deref (h : m.WF voiced) (now : UInt64) (q : Nat) :
    (m.refresh p now).1.deref q = if q = p ∧ m.Live p then
      { m.deref p with m_next := now + (m.deref p).m_ms } else m.deref q := by
  by_cases hp : m.Live p
  · rw [refresh_live h hp, deref_insert, deref_write]
    simp [hp]
  · rw [refresh_dead hp]
    simp [hp]

theorem reset_deref (h : m.WF voiced) (ms : UInt64) (from_now : Bool) (now : UInt64) (q : Nat) :
    (m.reset p ms from_now now).1.deref q =
      if q = p ∧ m.Live p ∧ ¬ (ms = (m.deref p).m_ms ∧ from_now = false) then
        m.resetTimer p ms from_now now
      else m.deref q := by
  by_cases heq : ms = (m.deref p).m_ms ∧ from_now = false
  · rw [reset_same now heq]
    simp [heq]
  · by_cases hp : m.Live p
    · rw [reset_live h hp now heq]
      have hw := deref_write (m.erase p) p q (m.resetTimer p ms from_now now)
      rw [deref_erase] at hw
      rw [show (((m.erase p).write p (m.resetTimer p ms from_now now)).addLocked p).1.deref q
        = ((m.erase p).write p (m.resetTimer p ms from_now now)).deref q from rfl, hw]
      simp [hp, heq]
    · rw [(reset_dead hp now).1]
      simp [hp]

/-! ## Expiry -/

/-- The clock has been set back by more than an hour since the last look. -/
def rollover (m : TimeManager) (now : UInt64) : Bool := (m.detectClockRollover now).2

/-- The timer is due at `now`; with the clock set back, every timer is. -/
def due (m : TimeManager) (now : UInt64) (p : Nat) : Bool :=
  m.rollover now || decide ((m.deref p).m_next ≤ now)

/-- The timers `listExpiredCb` takes out at `now`. -/
def expired (m : TimeManager) (now : UInt64) : List Nat := m.m_timers.filter (m.due now)

/-- The state in which the loop over `expired` starts. -/
def takeDue (m : TimeManager) (now : UInt64) : TimeManager :=
  { m with m_previouseTime := now, m_timers := m.m_timers.filter (!m.due now ·) }

/-- In an ordered set what is due stands in front. -/
theorem pairwise_due (h : Ordered m.rank m.m_timers) (now : UInt64) :
    m.m_timers.Pairwise fun a b => m.due now b = true → m.due now a = true := by
  refine List.Pairwise.imp ?_ h
  intro a b hab hb
  simp only [due, Bool.or_eq_true, decide_eq_true_eq, UInt64.le_iff_toNat_le] at hb ⊢
  refine hb.imp_right fun hb => ?_
  simp only [rank, Prod.Lex.lt_iff, ofLex_toLex] at hab
  omega

/-- The search for the first timer that is not due finds it, wherever the temporary is. -/
theorem unexpired_eq (h : Ordered m.rank m.m_timers) (now : UInt64) (tmp : Nat) :
    m.unexpired (m.rollover now) now tmp = m.m_timers.filter (!m.due now ·) := by
  unfold unexpired
  cases hroll : m.rollover now with
  | true =>
      symm
      rw [if_pos rfl, List.filter_eq_nil_iff]
      intro q _
      simp [due, hroll]
  | false =>
      rw [if_neg (by simp)]
      -- `lower_bound` drops what is before `(now, tmp)`, the loop behind it the rest of `now`
      have hlow : m.lowerBound (now, tmp)
          = m.m_timers.filter fun q => !Comparator (m.key q) (now, tmp) := by
        refine Lib.dropWhile_eq_filter (List.Pairwise.imp ?_ h)
        intro a b hab hb
        rw [rank_lt] at hab
        rw [comparator_iff] at hb ⊢
        simp only [key] at hb ⊢
        omega
      have hord : Ordered m.rank (m.lowerBound (now, tmp)) := by
        rw [hlow]
        exact h.sublist List.filter_sublist
      rw [Lib.dropWhile_eq_filter, hlow, List.filter_filter]
      · refine List.filter_congr fun q _ => ?_
        have hcmp := comparator_iff (m.key q) (now, tmp)
        simp only [key] at hcmp
        rw [Bool.eq_iff_iff]
        simp only [due, hroll, Bool.false_or, Bool.and_eq_true, Bool.not_eq_true',
          decide_eq_true_eq, UInt64.le_iff_toNat_le, ← UInt64.toNat_inj, ← Bool.not_eq_true, key,
          hcmp]
        omega
      · refine List.Pairwise.imp_of_mem ?_ hord
        intro a b ha hb hab heq
        have hna : ¬ Comparator (m.key a) (now, tmp) = true := by
          rw [hlow] at ha
          simpa using (List.mem_filter.mp ha).2
        rw [comparator_iff] at hna
        rw [rank_lt] at hab
        simp only [decide_eq_true_eq, ← UInt64.toNat_inj, key] at hna heq ⊢
        omega

/-- `listExpiredCb` takes out what is due and runs the loop over it. -/
theorem listExpiredCb_eq (h : Ordered m.rank m.m_timers) (now : UInt64) (tmp : Nat)
    (hne : m.m_timers ≠ []) : m.listExpiredCb now tmp = (m.takeDue now).fire now (m.expired now) := by
  have hdue := pairwise_due h now
  have hleft := unexpired_eq h now tmp
  have hfront : m.m_timers.take
      (m.m_timers.length - (m.m_timers.filter (!m.due now ·)).length) = m.expired now := by
    unfold expired
    rw [← Lib.dropWhile_eq_filter hdue, Lib.take_sub_dropWhile, Lib.takeWhile_eq_filter hdue]
  unfold listExpiredCb
  split
  · exact absurd ‹_› hne
  · rename_i first rest hset
    dsimp only
    split
    · -- the first timer is not due, so none is
      rename_i hearly
      have hfirst : m.due now first = false := by
        simp only [Bool.and_eq_true, Bool.not_eq_true', decide_eq_true_eq] at hearly
        simp only [due, rollover, hearly.1, Bool.false_or, decide_eq_false_iff_not, UInt64.not_le]
        exact hearly.2
      have hnone : ∀ q ∈ m.m_timers, m.due now q = false := by
        intro q hq
        rw [hset] at hdue hq
        by_contra hq'
        rcases List.mem_cons.mp hq with rfl | hq
        · exact hq' hfirst
        · have := (List.pairwise_cons.mp hdue).1 q hq (by simpa using hq')
          rw [hfirst] at this
          cases this
      have hexp : m.expired now = [] := by
        unfold expired
        rw [List.filter_eq_nil_iff]
        intro q hq
        simp [hnone q hq]
      have hall : m.m_timers.filter (!m.due now ·) = m.m_timers := by
        rw [List.filter_eq_self]
        intro q hq
        simp [hnone q hq]
      rw [hexp]
      simp only [fire, takeDue, hall]
      rfl
    · have htake : m.takeDue now = { (m.detectClockRollover now).1 with
          m_timers := m.unexpired (m.rollover now) now tmp } := by
        rw [hleft]
        rfl
      rw [← hfront, ← hleft, htake]
      rfl

/-- The loop over `expired` returns the callbacks it finds. -/
theorem fire_returns (now : UInt64) : ∀ {ps : List Nat} {m : TimeManager}, ps.Nodup →
    (m.fire now ps).2 = ps.map fun p => (m.deref p).m_cb
  | [], _, _ => rfl
  | p :: ps, m, hnodup => by
      obtain ⟨hp, hps⟩ := List.nodup_cons.mp hnodup
      simp only [fire, List.map_cons]
      rw [fire_returns now hps]
      congr 1
      refine List.map_congr_left fun q hq => ?_
      have hqp : q ≠ p := by
        rintro rfl
        exact hp hq
      split <;> simp [hqp]

/-- What the loop leaves of a timer: a recurring one has a new deadline, the others no callback. -/
def rearm (now : UInt64) (x : Timer) : Timer :=
  if x.m_recurring then { x with m_next := now + x.m_ms } else { x with m_cb := none }

theorem fire_deref (now : UInt64) : ∀ {ps : List Nat} {m : TimeManager}, ps.Nodup → ∀ q,
    (m.fire now ps).1.deref q = if q ∈ ps then rearm now (m.deref q) else m.deref q
  | [], _, _, q => by simp [fire]
  | p :: ps, m, hnodup, q => by
      obtain ⟨hp, hps⟩ := List.nodup_cons.mp hnodup
      have hstep : (if (m.deref p).m_recurring then
          (m.write p { m.deref p with m_next := now + (m.deref p).m_ms }).insert p
          else m.write p { m.deref p with m_cb := none }).deref q
          = if q = p then rearm now (m.deref p) else m.deref q := by
        unfold rearm
        split
        · rw [deref_insert, deref_write]
        · rw [deref_write]
      simp only [fire]
      rw [fire_deref now hps q, hstep]
      by_cases hqp : q = p
      · subst hqp
        simp [hp]
      · simp [hqp]

/-- The loop puts the recurring timers back, and the others have no callback any more. -/
theorem fire_wf (now : UInt64) : ∀ {ps : List Nat} {m : TimeManager}, m.Holds voiced ps →
    (m.fire now ps).1.WF voiced
  | [], _, h => h
  | p :: ps, m, h => by
      simp only [fire]
      split
      · exact fire_wf now (h.rewrite (x := { m.deref p with m_next := now + (m.deref p).m_ms })
          rfl).insert
      · exact fire_wf now (h.write_dead rfl)

/-- Taking out what is due. -/
theorem takeDue_holds (h : m.WF voiced) (now : UInt64) :
    (m.takeDue now).Holds voiced (m.expired now) := by
  have hord : Ordered m.rank m.m_timers := Holds.ordered h
  have hsame : ∀ q, q ∈ (m.takeDue now).m_timers ∨ q ∈ m.expired now ↔ q ∈ m.m_timers := by
    intro q
    simp only [takeDue, expired, List.mem_filter]
    cases m.due now q <;> simp
  refine ⟨hord.sublist List.filter_sublist, hord.nodup.filter _, ?_, ?_, ?_, ?_⟩
  · intro q hq hin
    have hdue := (List.mem_filter.mp hq).2
    have hnot := (List.mem_filter.mp hin).2
    rw [hdue] at hnot
    cases hnot
  · exact fun q hq => Holds.exist h q (.inl ((hsame q).mp hq))
  · exact fun q hq => (hsame q).mpr (h.mem hq)
  · exact fun hv q hq => Holds.live_of_mem h hv q (.inl ((hsame q).mp hq))

theorem expired_nodup (h : m.WF voiced) (now : UInt64) : (m.expired now).Nodup :=
  (takeDue_holds h now).nodup

theorem mem_expired (h : m.WF True) {now : UInt64} :
    p ∈ m.expired now ↔ m.Live p ∧ m.due now p = true := by
  unfold expired
  rw [List.mem_filter, h.mem_iff]

theorem expired_of_empty (h : m.m_timers = []) (now : UInt64) : m.expired now = [] := by
  unfold expired
  rw [h]
  rfl

/-- **What `listExpiredCb` returns**: the callbacks of the timers that are due. -/
theorem listExpiredCb_returns (h : m.WF voiced) (now : UInt64) (tmp : Nat) :
    (m.listExpiredCb now tmp).2 = (m.expired now).map fun p => (m.deref p).m_cb := by
  by_cases hne : m.m_timers = []
  · rw [listExpiredCb_of_empty hne, expired_of_empty hne]
    rfl
  · rw [listExpiredCb_eq (Holds.ordered h) now tmp hne, fire_returns now (expired_nodup h now)]
    rfl

/-- **What `listExpiredCb` leaves of each timer.** -/
theorem listExpiredCb_deref (h : m.WF voiced) (now : UInt64) (tmp : Nat) (q : Nat) :
    (m.listExpiredCb now tmp).1.deref q
      = if q ∈ m.expired now then rearm now (m.deref q) else m.deref q := by
  by_cases hne : m.m_timers = []
  · rw [listExpiredCb_of_empty hne, expired_of_empty hne]
    rfl
  · rw [listExpiredCb_eq (Holds.ordered h) now tmp hne, fire_deref now (expired_nodup h now)]
    rfl

theorem listExpiredCb_wf (h : m.WF voiced) (now : UInt64) (tmp : Nat) :
    (m.listExpiredCb now tmp).1.WF voiced := by
  by_cases hne : m.m_timers = []
  · rw [listExpiredCb_of_empty hne]
    exact h
  · rw [listExpiredCb_eq (Holds.ordered h) now tmp hne]
    exact fire_wf now (takeDue_holds h now)

end TimeManager

/-! ## Runs -/

/-- An operation on a manager, with what the clock and the allocator answer.  `addConditionTimer` is
an `addTimer` of the function it binds, which is never empty. -/
inductive Op
  | call (c : TimeManager.Call)
  | getNextTimer (now : UInt64)
  | listExpiredCb (now : UInt64) (tmp : Nat)
  /-- The last pointer to a timer is dropped. -/
  | free (p : Nat)
  deriving DecidableEq, Repr

/-- A creation is with a callback. -/
def Op.HasCallback : Op → Prop
  | .call (.addTimer _ _ cb _ _) => cb.isSome = true
  | _ => True

instance : DecidablePred Op.HasCallback
  | .call (.addTimer _ _ cb _ _) => inferInstanceAs (Decidable (cb.isSome = true))
  | .call (.cancel _) | .call (.refresh ..) | .call (.reset ..) | .getNextTimer _
  | .listExpiredCb .. | .free _ => isTrue trivial

/-- Perform an operation. -/
def TimeManager.perform (m : TimeManager) : Op → Option TimeManager
  | .call c => (m.call c).map Prod.fst
  | .getNextTimer now => some (m.getNextTimer now).1
  | .listExpiredCb now tmp => some (m.listExpiredCb now tmp).1
  | .free p =>
      guarded ((m.timer p).isSome = true ∧ p ∉ m.m_timers)
        { m with timer := Function.update m.timer p none }

/-- All sequences of operations, whoever makes them, at any clock readings. -/
def timerSet : Lib.System TimeManager Op where
  init m := ∃ now, m = .new now
  step m op := m.perform op

namespace TimeManager

variable {voiced : Prop} {m m' : TimeManager} {p : Nat}

theorem wf_new (now : UInt64) : (new now).WF voiced :=
  ⟨Ordered.nil, List.nodup_nil, fun p hp => (by cases hp), fun p hp => (by simp [new] at hp),
    fun p hp => (by simp [new, Live, deref] at hp), fun _ p hp => (by simp [new] at hp)⟩

theorem call_wf {c : Call} {front : Bool} (h : m.WF voiced) (hcb : voiced → (Op.call c).HasCallback)
    (hc : m.call c = some (m', front)) : m'.WF voiced := by
  cases called hc with
  | addTimer hnew => exact addTimer_wf h hnew hcb
  | cancel hp hcancel => exact cancel_wf h hcancel
  | @refresh p now => exact refresh_wf h now
  | @reset p ms from_now now => exact reset_wf h ms from_now now

/-- **The step lemma.** -/
theorem perform_wf {op : Op} (h : m.WF voiced) (hcb : voiced → op.HasCallback) (hstep : m.perform op = some m') :
    m'.WF voiced := by
  cases op with
  | call c =>
      obtain ⟨⟨m₁, front⟩, hc, rfl⟩ := Option.map_eq_some_iff.mp hstep
      exact call_wf h hcb hc
  | getNextTimer now =>
      obtain rfl := Option.some.inj hstep
      exact wf_of_eq h rfl rfl
  | listExpiredCb now tmp =>
      obtain rfl := Option.some.inj hstep
      exact listExpiredCb_wf h now tmp
  | free p =>
      obtain ⟨⟨-, hp⟩, rfl⟩ := Lib.guarded_eq_some.mp hstep
      -- the set holds a pointer to each of its timers, so none of them is freed
      have hne : ∀ q, q ∈ m.m_timers ∨ q ∈ [] → q ≠ p := by
        rintro q (hq | hq) rfl
        · exact hp hq
        · cases hq
      have hderef : ∀ q, q ≠ p →
          ({ m with timer := Function.update m.timer p none } : TimeManager).deref q = m.deref q := by
        intro q hq
        simp only [deref, Function.update_of_ne hq]
      refine ⟨(Holds.ordered h).congr fun q hq => ?_, List.nodup_nil, fun q hq => (by cases hq),
        ?_, ?_, ?_⟩
      · simp only [rank, hderef q (hne q (.inl hq))]
      · intro q hq
        simp only [Function.update_of_ne (hne q hq)]
        exact Holds.exist h q hq
      · intro q hq
        by_cases hqp : q = p
        · subst hqp
          simp [Live, deref] at hq
        · rw [Live, hderef q hqp] at hq
          exact Holds.mem_of_live h q hq
      · intro hv q hq
        rw [Live, hderef q (hne q hq)]
        exact Holds.live_of_mem h hv q hq

theorem perform_voiced {op : Op} (h : m.WF True) (hcb : op.HasCallback)
    (hstep : m.perform op = some m') : m'.WF True := perform_wf h (fun _ => hcb) hstep

/-- **The run lemma**, for the runs in which every timer is created with a callback, and for all. -/
theorem wf_of_reachable
    (hm : timerSet.ReachableWhen (fun _ op => voiced → op.HasCallback) m) : m.WF voiced := by
  refine Lib.System.ReachableWhen.invariant (P := WF voiced) ?_ ?_ hm
  · rintro m ⟨now, rfl⟩
    exact wf_new now
  · intro m op m' h hcb hstep
    exact perform_wf h hcb hstep

theorem voiced_of_reachable (hm : timerSet.ReachableWhen (fun _ op => op.HasCallback) m) :
    m.WF True := wf_of_reachable (hm.mono fun _ _ hcb _ => hcb)

/-- What is always true of the timer set. -/
structure SetKept (m : TimeManager) : Prop where
  /-- Each element is before the next ones under `Timer::Comparator`. -/
  increasing : m.m_timers.Pairwise fun p q => Comparator (m.key p) (m.key q) = true
  /-- No timer is in it twice. -/
  once : m.m_timers.Nodup
  /-- What is in it exists. -/
  exist : ∀ p ∈ m.m_timers, (m.timer p).isSome = true
  /-- A timer is in it exactly when it has a callback. -/
  mem_iff : ∀ p x, m.timer p = some x → (p ∈ m.m_timers ↔ x.m_cb.isSome = true)
  /-- The `find` in `cancel`, behind the clearing of the callback, comes up with the timer. -/
  find : ∀ p x, m.timer p = some x → x.m_cb.isSome = true →
    (m.write p { x with m_cb := none }).find p = some p
  /-- So `cancel` never erases `end()`. -/
  cancel : ∀ p, (m.cancel p).isSome = true

/-- **The timer set** is kept by every operation, at arbitrary clock readings and periods. -/
theorem timer_set (hm : timerSet.ReachableWhen (fun _ op => op.HasCallback) m) : SetKept m := by
  have h : m.WF True := voiced_of_reachable hm
  have hord : Ordered m.rank m.m_timers := Holds.ordered h
  have hlive : ∀ p x, m.timer p = some x → (m.Live p ↔ x.m_cb.isSome = true) := by
    intro p x hx
    simp only [Live, deref, hx, Option.getD_some]
  refine ⟨?_, hord.nodup, ?_, ?_, ?_, ?_⟩
  · refine List.Pairwise.imp ?_ hord
    intro p q hpq
    exact comparator_key.mpr hpq
  · intro p hp
    have hp' : m.Live p := (h.mem_iff p).mp hp
    cases hx : m.timer p with
    | some x => rfl
    | none => simp [Live, deref, hx] at hp'
  · intro p x hx
    rw [h.mem_iff p, hlive p x hx]
  · intro p x hx hcb
    have hp : m.Live p := (hlive p x hx).mpr hcb
    have hx' : m.deref p = x := by
      simp only [deref, hx, Option.getD_some]
    have hfind := find_cleared h hp
    rwa [hx'] at hfind
  · intro p
    by_cases hp : m.Live p
    · rw [cancel_live h hp]
      rfl
    · rw [cancel_dead hp]
      rfl

/-- A recurring and a plain timer; one is refreshed, both fire, the clock is set back by a day, one
is moved and cancelled. -/
def timerRun : List Op :=
  [.call (.addTimer 16 10 (some 1) true 100000000), .call (.addTimer 8 10 (some 2) false 100000000),
    .call (.refresh 16 100000005), .listExpiredCb 100000010 24, .getNextTimer 100000010,
    .call (.reset 16 3 true 100000012), .listExpiredCb 13600000 24, .call (.cancel 16)]

theorem timer_set_run :
    SetKept ((timerSet.exec (.new 100000000) timerRun).get (by decide)) :=
  timer_set (Lib.System.ReachableWhen.exec (.init ⟨_, rfl⟩) (l := timerRun) (by decide)
    (Option.some_get _).symm)

end TimeManager

end Sylar.Timers
