/-
# Sylar.Timers.Notify — no sleeping thread misses a timer.

A thread that has nothing to do asks `getNextTimer` how long it may sleep.  A timer that goes in
before the first one shortens that time, so its insertion calls `onTimerInsertedAtFront`, once the
lock is released, and sets `m_tickled`; while the flag is up no further insertion calls it.  The flag
is one for all sleepers, and any `getNextTimer` clears it.

That is enough (`never_missed`): while the flag is up every sleeper has been told, or will be, since
it went to sleep, and an insertion that finds it down tells all of them.  `refresh` and the return
of a recurring timer do not notify, and need not: under a clock that does not go back they only move
a deadline away (`perform_later`).
-/
import Sylar.Timers.Deadline
import Mathlib.Algebra.Order.Monoid.Unbundled.WithTop

namespace Sylar.Timers

open Lib (Ordered)

/-! ## Sleepers -/

/-- A thread asleep: the time it sleeps to, and how many notifications had been decided on when it
called `getNextTimer`. -/
structure Sleeper where
  wake : WithTop ℕ
  since : ℕ
  deriving DecidableEq

/-- When a thread that calls `getNextTimer` at `now` will wake up by itself. -/
def TimeManager.wakeTime (m : TimeManager) (now : UInt64) : WithTop ℕ :=
  if m.m_timers = [] then ⊤ else ((now.toNat + (m.getNextTimer now).2.toNat : ℕ) : WithTop ℕ)

/-- The operation ends in a call of `onTimerInsertedAtFront`. -/
def Op.notifies (m : TimeManager) : Op → Bool
  | .call c => ((m.call c).map Prod.snd).getD false
  | .getNextTimer _ | .listExpiredCb .. | .free _ => false

/-- The manager under its clock, the threads asleep, and the notifications, by number: `issued` have
been decided on under the lock, of which some are `pending` behind it and some have been `called`. -/
structure Sleepers where
  timed : Timed
  sleeping : Nat → Option Sleeper
  issued : Nat
  pending : List Nat
  called : List Nat

/-- What any of the threads may do next. -/
inductive Move
  /-- A call on the manager, up to the release of the lock. -/
  | perform (op : Op)
  /-- `getNextTimer`, by a thread that then goes to sleep. -/
  | sleep (t : Nat) (now : UInt64)
  | wake (t : Nat)
  /-- `onTimerInsertedAtFront`, of an insertion that has released the lock. -/
  | notify (i : Nat)
  | tick (now : UInt64)
  deriving DecidableEq, Repr

namespace Sleepers

/-- Take a step. -/
def step (s : Sleepers) : Move → Option Sleepers
  | .perform op =>
      (s.timed.perform op).map fun d =>
        if op.notifies s.timed.manager then
          { s with timed := d, issued := s.issued + 1, pending := s.issued :: s.pending }
        else { s with timed := d }
  | .sleep t now =>
      (s.timed.perform (.getNextTimer now)).map fun d =>
        { s with
          timed := d
          sleeping := Function.update s.sleeping t
            (some ⟨s.timed.manager.wakeTime now, s.issued⟩) }
  | .wake t => some { s with sleeping := Function.update s.sleeping t none }
  | .notify i =>
      Lib.guarded (i ∈ s.pending) { s with pending := s.pending.erase i, called := i :: s.called }
  | .tick now => Lib.guarded (s.timed.clock ≤ now) { s with timed := { s.timed with clock := now } }

/-- No deadline wraps in the step. -/
def NoWrap (s : Sleepers) : Move → Prop
  | .perform op =>
      match s.timed.perform op with
      | some d => ∀ p ∈ d.manager.m_timers, d.deadline p < 2 ^ 64
      | none => True
  | .sleep .. | .wake _ | .notify _ | .tick _ => True

instance (s : Sleepers) : DecidablePred s.NoWrap
  | .perform op =>
      match h : s.timed.perform op with
      | some d =>
          decidable_of_iff (∀ p ∈ d.manager.m_timers, d.deadline p < 2 ^ 64) (by simp [NoWrap, h])
      | none => isTrue (by simp [NoWrap, h])
  | .sleep .. | .wake _ | .notify _ | .tick _ => isTrue trivial

end Sleepers

/-- Any number of threads, in any order of their steps. -/
def sleepers : Lib.System Sleepers Move where
  init s := ∃ now, s = ⟨⟨.new now, now, fun _ => 0⟩, fun _ => none, 0, [], []⟩
  step s a := s.step a

/-! ## What an operation does to the first deadline -/

namespace TimeManager

variable {voiced : Prop} {m m' : TimeManager} {p q : Nat} {w : WithTop ℕ}

/-- No timer of the set is due before `w`. -/
def NoneBefore (m : TimeManager) (w : WithTop ℕ) : Prop :=
  ∀ p ∈ m.m_timers, w ≤ (((m.deref p).m_next.toNat : ℕ) : WithTop ℕ)

/-- Who sleeps to `wakeTime` sleeps no further than the first deadline. -/
theorem wakeTime_noneBefore (h : Ordered m.rank m.m_timers) (now : UInt64) :
    m.wakeTime now ≤ ((now.toNat : ℕ) : WithTop ℕ) ∨ m.NoneBefore (m.wakeTime now) := by
  unfold wakeTime NoneBefore
  cases hset : m.m_timers with
  | nil => exact .inr fun p hp => absurd hp List.not_mem_nil
  | cons next rest =>
      rw [if_neg (by simp)]
      rw [hset] at h
      have hdelay : (m.getNextTimer now).2
          = if (m.deref next).m_next ≤ now then 0 else (m.deref next).m_next - now := by
        unfold getNextTimer
        rw [hset]
      rw [hdelay]
      split
      · exact .inl le_rfl
      · rename_i hlate
        right
        intro p hp
        have hle : now ≤ (m.deref next).m_next := UInt64.le_of_lt (UInt64.not_le.mp hlate)
        have hfirst : (m.deref next).m_next.toNat ≤ (m.deref p).m_next.toNat := by
          have hrank := h.head_le hp
          rcases (Prod.Lex.le_iff.mp hrank) with hlt | ⟨heq, -⟩
          · exact le_of_lt hlt
          · exact le_of_eq heq
        have hsum : now.toNat + ((m.deref next).m_next - now).toNat ≤ (m.deref p).m_next.toNat := by
          rw [UInt64.toNat_sub_of_le _ _ hle]
          rw [UInt64.le_iff_toNat_le] at hle
          omega
        exact WithTop.coe_le_coe.mpr hsum

theorem mem_of_mem_insert (hq : q ∈ (m.insert p).m_timers) : q = p ∨ q ∈ m.m_timers := by
  rw [insert_timers] at hq
  exact Lib.eq_or_mem_of_mem_insertBy hq

/-- **An insertion through the protected `addTimer`** leaves nothing before `w`, or it notifies, or
the flag was up. -/
theorem addLocked_noneBefore (hw : m.NoneBefore w) (p : Nat) :
    (m.addLocked p).1.NoneBefore w ∨ (m.addLocked p).2 = true ∨ m.m_tickled = true := by
  by_cases hquiet : (m.addLocked p).2 = true ∨ m.m_tickled = true
  · exact .inr hquiet
  left
  obtain ⟨hno, hdown⟩ := not_or.mp hquiet
  have hbegin : (m.insert p).atBegin p = false := by
    have htickled : (m.insert p).m_tickled = m.m_tickled := rfl
    simpa [addLocked, htickled, hdown] using hno
  -- the first timer behind the insertion is another one, and `p` comes after it
  obtain ⟨q, hq, hqp⟩ : ∃ q ∈ (m.insert p).m_timers, m.rank q < m.rank p := by
    unfold atBegin at hbegin
    split at hbegin
    · rename_i q rest hset
      refine ⟨q, ?_, ?_⟩
      · rw [hset]
        exact List.mem_cons_self
      · have hlt : Comparator ((m.insert p).key q) ((m.insert p).key p) = true := by
          simpa using hbegin
        exact comparator_key.mp hlt
    · rename_i hset
      rw [insert_timers] at hset
      exact absurd hset (Lib.insertBy_ne_nil m.rank p m.m_timers)
  have hne : q ≠ p := by
    rintro rfl
    exact lt_irrefl _ hqp
  have hp : w ≤ (((m.deref p).m_next.toNat : ℕ) : WithTop ℕ) := by
    refine le_trans (hw q ((mem_of_mem_insert hq).resolve_left hne)) ?_
    have hrank : (m.deref q).m_next.toNat ≤ (m.deref p).m_next.toNat := by
      have := rank_lt.mp hqp
      omega
    exact WithTop.coe_le_coe.mpr hrank
  intro r hr
  rcases mem_of_mem_insert hr with rfl | hr
  · exact hp
  · exact hw r hr

/-- No timer gets into the set, and none that stays in it is due earlier than before. -/
def Later (m m' : TimeManager) : Prop :=
  ∀ q ∈ m'.m_timers, q ∈ m.m_timers ∧ (m.deref q).m_next.toNat ≤ (m'.deref q).m_next.toNat

theorem Later.noneBefore (h : Later m m') (hw : m.NoneBefore w) : m'.NoneBefore w := by
  intro q hq
  obtain ⟨hin, hle⟩ := h q hq
  exact le_trans (hw q hin) (WithTop.coe_le_coe.mpr hle)

theorem fire_mem (now : UInt64) : ∀ {ps : List Nat} {m : TimeManager} {q : Nat},
    q ∈ (m.fire now ps).1.m_timers → q ∈ m.m_timers ∨ q ∈ ps
  | [], _, _, hq => .inl hq
  | p :: ps, m, q, hq => by
      simp only [fire] at hq
      rcases fire_mem now hq with hq | hq
      · split at hq
        · rcases mem_of_mem_insert hq with rfl | hq
          · exact .inr List.mem_cons_self
          · exact .inl hq
        · exact .inl hq
      · exact .inr (List.mem_cons_of_mem p hq)

/-- `listExpiredCb` puts back only what it took out. -/
theorem listExpiredCb_mem (h : m.WF voiced) {now : UInt64} {tmp : Nat}
    (hq : q ∈ (m.listExpiredCb now tmp).1.m_timers) : q ∈ m.m_timers := by
  by_cases hne : m.m_timers = []
  · rwa [listExpiredCb_of_empty hne] at hq
  · rw [listExpiredCb_eq (Holds.ordered h) now tmp hne] at hq
    rcases fire_mem now hq with hq | hq
    · exact List.mem_of_mem_filter hq
    · exact List.mem_of_mem_filter hq

/-! ### Calls -/

theorem cancel_later {rt : Bool} (h : m.WF voiced) (hc : m.cancel p = some (m', rt)) :
    Later m m' := by
  intro q hq
  have hin : q ∈ m.m_timers := by
    by_cases hp : m.Live p
    · rw [cancel_live h hp] at hc
      obtain ⟨rfl, -⟩ := Prod.mk.inj (Option.some.inj hc)
      exact List.mem_of_mem_erase hq
    · rw [cancel_dead hp] at hc
      obtain ⟨rfl, -⟩ := Prod.mk.inj (Option.some.inj hc)
      exact hq
  refine ⟨hin, ?_⟩
  rw [cancel_deref h hc q]
  split
  · rename_i hqp
    rw [hqp]
  · exact le_rfl

theorem refresh_mem (h : m.WF voiced) {now : UInt64} (hq : q ∈ (m.refresh p now).1.m_timers) :
    q ∈ m.m_timers := by
  by_cases hp : m.Live p
  · rw [refresh_live h hp] at hq
    rcases mem_of_mem_insert hq with rfl | hq
    · exact h.mem hp
    · exact List.mem_of_mem_erase hq
  · rwa [refresh_dead hp] at hq

theorem addTimer_noneBefore (h : m.WF voiced) (hnew : m.timer p = none) (hw : m.NoneBefore w)
    (ms : UInt64) (cb : Option Scheduler.Callback) (recurring : Bool) (now : UInt64) :
    (m.addTimer p ms cb recurring now).1.NoneBefore w ∨
      (m.addTimer p ms cb recurring now).2 = true ∨ m.m_tickled = true := by
  refine addLocked_noneBefore (m := m.write p ⟨now + ms, ms, recurring, cb⟩) ?_ p
  intro q hq
  have hqp : q ≠ p := by
    rintro rfl
    have hsome := Holds.exist h q (.inl hq)
    rw [hnew] at hsome
    cases hsome
  rw [deref_write, if_neg hqp]
  exact hw q hq

theorem reset_noneBefore (h : m.WF voiced) (hw : m.NoneBefore w) (ms : UInt64) (from_now : Bool)
    (now : UInt64) : (m.reset p ms from_now now).1.NoneBefore w ∨
      (m.reset p ms from_now now).2.2 = true ∨ m.m_tickled = true := by
  by_cases heq : ms = (m.deref p).m_ms ∧ from_now = false
  · rw [reset_same now heq]
    exact .inl hw
  · by_cases hp : m.Live p
    · rw [reset_live h hp now heq]
      refine addLocked_noneBefore
        (m := (m.erase p).write p (m.resetTimer p ms from_now now)) ?_ p
      intro q hq
      obtain ⟨hqp, hin⟩ := (Holds.ordered h).nodup.mem_erase_iff.mp hq
      rw [deref_write, if_neg hqp]
      exact hw q hin
    · rw [(reset_dead hp now).1]
      exact .inl hw

end TimeManager

namespace Timed

open TimeManager

variable {s s' : Timed} {op : Op} {p : Nat} {w : WithTop ℕ}

/-- Without a wrap, an operation that leaves the period of a timer alone does not bring its deadline
nearer. -/
theorem next_le (h : s.Kept) (hstep : s.perform op = some s') (hfree : op ≠ .free p)
    (hms : (s'.manager.deref p).m_ms = (s.manager.deref p).m_ms)
    (hwrap : s'.deadline p < 2 ^ 64) :
    (s.manager.deref p).m_next.toNat ≤ (s'.manager.deref p).m_next.toNat := by
  have hstart : (s.start p).toNat ≤ (s'.start p).toNat := by
    obtain ⟨hle, m', hm, rfl⟩ := perform_eq_some.mp hstep
    rw [← UInt64.le_iff_toNat_le]
    show s.start p ≤ op.startAfter s.manager s.clock (s.start p) p
    unfold Op.startAfter
    split
    · exact UInt64.le_trans (h.started p) hle
    · exact UInt64.le_refl _
  have hold := h.next_toNat p
  have hnew := (perform_kept h hstep).next_toNat p
  rw [Nat.mod_eq_of_lt hwrap] at hnew
  have hmod : s.deadline p % 2 ^ 64 ≤ s.deadline p := Nat.mod_le _ _
  have hsum : s.deadline p ≤ s'.deadline p := by
    unfold deadline
    rw [hms]
    omega
  omega

/-- Under a clock that does not go back, `refresh` and the return of a recurring timer only move a
deadline away. -/
theorem perform_later (h : s.Kept) (hstep : s.perform op = some s')
    (hwrap : ∀ p ∈ s'.manager.m_timers, s'.deadline p < 2 ^ 64)
    (hmem : ∀ p ∈ s'.manager.m_timers, p ∈ s.manager.m_timers ∧ op ≠ .free p ∧
      (s'.manager.deref p).m_ms = (s.manager.deref p).m_ms) : Later s.manager s'.manager := by
  intro p hp
  obtain ⟨hin, hfree, hms⟩ := hmem p hp
  exact ⟨hin, next_le h hstep hfree hms (hwrap p hp)⟩

/-- **The step lemma.** Nothing gets before `w` unless the operation notifies, or the flag is up. -/
theorem perform_noneBefore (h : s.Kept) (hstep : s.perform op = some s')
    (hwrap : ∀ p ∈ s'.manager.m_timers, s'.deadline p < 2 ^ 64) (hw : s.manager.NoneBefore w) :
    s'.manager.NoneBefore w ∨ op.notifies s.manager = true ∨ s.manager.m_tickled = true := by
  obtain ⟨-, m', hm, heq⟩ := perform_eq_some.mp hstep
  have hm' : s'.manager = m' := by rw [heq]
  cases op with
  | call c =>
      obtain ⟨⟨m₁, front⟩, hc, hm₁⟩ := Option.map_eq_some_iff.mp hm
      obtain rfl : m₁ = m' := hm₁
      have hfront : Op.notifies s.manager (.call c) = front := by
        simp only [Op.notifies, hc, Option.map_some, Option.getD_some]
      rw [hfront]
      cases called hc with
      | @addTimer q ms cb recurring now hnew =>
          rw [hm']
          exact addTimer_noneBefore h.wf hnew hw ms cb recurring now
      | cancel hq hcancel =>
          left
          rw [hm']
          exact (cancel_later h.wf hcancel).noneBefore hw
      | @refresh q now =>
          -- it notifies nobody, but it only moves a deadline away
          left
          refine (perform_later h hstep hwrap fun p hp => ?_).noneBefore hw
          rw [hm'] at hp ⊢
          refine ⟨refresh_mem h.wf hp, by simp, ?_⟩
          rw [refresh_deref h.wf now p]
          split
          · rename_i hpq
            rw [hpq.1]
          · rfl
      | @reset q ms from_now now =>
          rw [hm']
          exact reset_noneBefore h.wf hw ms from_now now
  | getNextTimer now =>
      left
      rw [hm', ← Option.some.inj hm]
      exact hw
  | listExpiredCb now tmp =>
      left
      have hm₂ := Option.some.inj hm
      refine (perform_later h hstep hwrap fun p hp => ?_).noneBefore hw
      rw [hm', ← hm₂] at hp ⊢
      refine ⟨listExpiredCb_mem h.wf hp, by simp, ?_⟩
      rw [listExpiredCb_deref h.wf now tmp p]
      split
      · unfold rearm
        split <;> rfl
      · rfl
  | free q =>
      left
      obtain ⟨⟨-, hq⟩, hm₂⟩ := Lib.guarded_eq_some.mp hm
      rw [hm', ← hm₂]
      intro p hp
      have hpq : p ≠ q := by
        rintro rfl
        exact hq hp
      rw [free_deref, if_neg hpq]
      exact hw p hp

theorem perform_tickled (h : s.Kept) (hstep : s.perform op = some s')
    (hup : s'.manager.m_tickled = true) :
    s.manager.m_tickled = true ∨ op.notifies s.manager = true := by
  obtain ⟨-, m', hm, rfl⟩ := perform_eq_some.mp hstep
  cases op with
  | call c =>
      obtain ⟨⟨m₁, front⟩, hc, rfl⟩ := Option.map_eq_some_iff.mp hm
      have hflag := (call_frame hc).2
      rw [show m₁.m_tickled = true from hup] at hflag
      simpa [Op.notifies, hc] using hflag.symm
  | getNextTimer now =>
      obtain rfl := Option.some.inj hm
      cases hup
  | listExpiredCb now tmp =>
      left
      obtain rfl := Option.some.inj hm
      by_cases hne : s.manager.m_timers = []
      · rwa [listExpiredCb_of_empty hne] at hup
      · rwa [listExpiredCb_eq (Holds.ordered h.wf) now tmp hne, (fire_frame now _ _).2] at hup
  | free q =>
      obtain ⟨-, rfl⟩ := Lib.guarded_eq_some.mp hm
      exact .inl hup

end Timed

/-! ## Runs -/

namespace Sleepers

open TimeManager

variable {s s' : Sleepers} {a : Move}

/-- The sleeper has been told since it went to sleep, or will be. -/
def Told (s : Sleepers) (sl : Sleeper) : Prop :=
  ∃ i, sl.since ≤ i ∧ (i ∈ s.called ∨ i ∈ s.pending)

/-- What carries the law through a run. -/
structure Inv (s : Sleepers) : Prop where
  kept : s.timed.Kept
  /-- A notification that has been decided on is made, or about to be made. -/
  made : ∀ i < s.issued, i ∈ s.called ∨ i ∈ s.pending
  since : ∀ t sl, s.sleeping t = some sl → sl.since ≤ s.issued
  /-- While the flag is up, one has been decided on since each sleeper went to sleep. -/
  tickled : s.timed.manager.m_tickled = true → ∀ t sl, s.sleeping t = some sl → sl.since < s.issued
  asleep : ∀ t sl, s.sleeping t = some sl → sl.wake ≤ ((s.timed.clock.toNat : ℕ) : WithTop ℕ) ∨
    sl.since < s.issued ∨ s.timed.manager.NoneBefore sl.wake

theorem Told.of_lt (h : s.Inv) {sl : Sleeper} (hlt : sl.since < s.issued) : s.Told sl :=
  ⟨sl.since, le_rfl, h.made _ hlt⟩

theorem init_inv (now : UInt64) : Inv ⟨⟨.new now, now, fun _ => 0⟩, fun _ => none, 0, [], []⟩ where
  kept := Timed.kept_of_reachable (.init ⟨now, rfl⟩)
  made := fun i hi => absurd hi (Nat.not_lt_zero i)
  since := by simp
  tickled := by simp
  asleep := by simp

/-- A call that does not notify. -/
theorem quiet_inv (h : s.Inv) {op : Op} {d : Timed} (hd : s.timed.perform op = some d)
    (hwrap : ∀ p ∈ d.manager.m_timers, d.deadline p < 2 ^ 64)
    (hno : ¬ op.notifies s.timed.manager = true) : Inv { s with timed := d } := by
  have hclock : s.timed.clock ≤ d.clock := by
    obtain ⟨hle, m', -, rfl⟩ := Timed.perform_eq_some.mp hd
    exact hle
  refine ⟨Timed.perform_kept h.kept hd, h.made, h.since, ?_, ?_⟩
  · intro hup
    exact h.tickled ((Timed.perform_tickled h.kept hd hup).resolve_right hno)
  · intro t sl hsl
    rcases h.asleep t sl hsl with hdone | htold | hw
    · left
      exact le_trans hdone (WithTop.coe_le_coe.mpr (UInt64.le_iff_toNat_le.mp hclock))
    · exact .inr (.inl htold)
    · right
      rcases Timed.perform_noneBefore h.kept hd hwrap hw with hw | hyes | hup
      · exact .inr hw
      · exact absurd hyes hno
      · -- the insertion was silent because the flag was up, and then this sleeper has been told
        exact .inl (h.tickled hup t sl hsl)

/-- A call that notifies tells everyone who is asleep. -/
theorem loud_inv (h : s.Inv) {op : Op} {d : Timed} (hd : s.timed.perform op = some d) :
    Inv { s with timed := d, issued := s.issued + 1, pending := s.issued :: s.pending } := by
  have htold : ∀ t sl, s.sleeping t = some sl → sl.since < s.issued + 1 := by
    intro t sl hsl
    have := h.since t sl hsl
    omega
  refine ⟨Timed.perform_kept h.kept hd, ?_, ?_, fun _ => htold, ?_⟩
  · intro i hi
    by_cases hlast : i = s.issued
    · exact .inr (by simp [hlast])
    · have hlt : i < s.issued := by
        change i < s.issued + 1 at hi
        omega
      exact (h.made i hlt).imp_right (List.mem_cons_of_mem _)
  · exact fun t sl hsl => le_of_lt (htold t sl hsl)
  · exact fun t sl hsl => .inr (.inl (htold t sl hsl))

theorem sleep_inv (h : s.Inv) {t : Nat} {now : UInt64} {d : Timed}
    (hd : s.timed.perform (.getNextTimer now) = some d) :
    Inv { s with
      timed := d
      sleeping := Function.update s.sleeping t
        (some ⟨s.timed.manager.wakeTime now, s.issued⟩) } := by
  have hkept := Timed.perform_kept h.kept hd
  obtain ⟨hle, m', hm, rfl⟩ := Timed.perform_eq_some.mp hd
  obtain rfl := Option.some.inj hm
  have hwho : ∀ u sl, Function.update s.sleeping t
      (some ⟨s.timed.manager.wakeTime now, s.issued⟩) u = some sl →
      sl = ⟨s.timed.manager.wakeTime now, s.issued⟩ ∨ s.sleeping u = some sl := by
    intro u sl hsl
    by_cases hu : u = t
    · rw [hu, Function.update_self] at hsl
      exact .inl (Option.some.inj hsl).symm
    · rw [Function.update_of_ne hu] at hsl
      exact .inr hsl
  refine ⟨hkept, h.made, ?_, (fun hup => by cases hup), ?_⟩
  · intro u sl hsl
    rcases hwho u sl hsl with rfl | hsl
    · exact le_rfl
    · exact h.since u sl hsl
  · intro u sl hsl
    rcases hwho u sl hsl with rfl | hsl
    · -- `getNextTimer` looks at the first timer, which is the earliest
      exact (wakeTime_noneBefore (Holds.ordered h.kept.wf) now).imp_right .inr
    · refine (h.asleep u sl hsl).imp_left fun hdone => ?_
      exact le_trans hdone (WithTop.coe_le_coe.mpr (UInt64.le_iff_toNat_le.mp hle))

theorem step_inv (h : s.Inv) (hwrap : s.NoWrap a) (hstep : sleepers.step s a = some s') : s'.Inv := by
  cases a with
  | perform op =>
      obtain ⟨d, hd, rfl⟩ := Option.map_eq_some_iff.mp hstep
      have hwrap' : ∀ p ∈ d.manager.m_timers, d.deadline p < 2 ^ 64 := by
        simpa [NoWrap, hd] using hwrap
      split
      · exact loud_inv h hd
      · rename_i hno
        exact quiet_inv h hd hwrap' hno
  | sleep t now =>
      obtain ⟨d, hd, rfl⟩ := Option.map_eq_some_iff.mp hstep
      exact sleep_inv h hd
  | wake t =>
      obtain rfl := Option.some.inj hstep
      have hsub : ∀ u sl, Function.update s.sleeping t none u = some sl →
          s.sleeping u = some sl := by
        intro u sl hsl
        by_cases hu : u = t
        · rw [hu, Function.update_self] at hsl
          cases hsl
        · rwa [Function.update_of_ne hu] at hsl
      exact ⟨h.kept, h.made, fun u sl hsl => h.since u sl (hsub u sl hsl),
        fun hup u sl hsl => h.tickled hup u sl (hsub u sl hsl),
        fun u sl hsl => h.asleep u sl (hsub u sl hsl)⟩
  | notify i =>
      obtain ⟨-, rfl⟩ := Lib.guarded_eq_some.mp hstep
      refine ⟨h.kept, ?_, h.since, h.tickled, h.asleep⟩
      intro j hj
      rcases h.made j hj with hj | hj
      · exact .inl (List.mem_cons_of_mem i hj)
      · by_cases hji : j = i
        · exact .inl (by simp [hji])
        · exact .inr ((List.mem_erase_of_ne hji).mpr hj)
  | tick now =>
      obtain ⟨hle, rfl⟩ := Lib.guarded_eq_some.mp hstep
      refine ⟨⟨h.kept.wf, h.kept.armed, fun p => UInt64.le_trans (h.kept.started p) hle,
        UInt64.le_trans h.kept.looked hle⟩, h.made, h.since, h.tickled, ?_⟩
      intro t sl hsl
      refine (h.asleep t sl hsl).imp_left fun hdone => ?_
      exact le_trans hdone (WithTop.coe_le_coe.mpr (UInt64.le_iff_toNat_le.mp hle))

theorem inv_of_reachable (hs : sleepers.ReachableWhen NoWrap s) : s.Inv := by
  refine Lib.System.ReachableWhen.invariant ?_ ?_ hs
  · rintro s ⟨now, rfl⟩
    exact init_inv now
  · intro s a s' h hwrap hstep
    exact step_inv h hwrap hstep

/-- **No sleeper misses a timer.** As long as a thread's wake-up time has not come, no timer of the
set is due before it, or `onTimerInsertedAtFront` has been called since the thread asked
`getNextTimer`, or is about to be. -/
theorem never_missed (hs : sleepers.ReachableWhen NoWrap s) {t : Nat} {sl : Sleeper}
    (hsl : s.sleeping t = some sl) (hlate : ((s.timed.clock.toNat : ℕ) : WithTop ℕ) < sl.wake) :
    s.timed.manager.NoneBefore sl.wake ∨ s.Told sl := by
  have h := inv_of_reachable hs
  rcases h.asleep t sl hsl with hdone | htold | hw
  · exact absurd hlate (not_lt.mpr hdone)
  · exact .inr (.of_lt h htold)
  · exact .inl hw

/-- Two threads sleep, one with no timer at all; the insertion in front is decided on while the flag
is down, a second one while it is up, and the call comes last. -/
def twoSleepers : List Move :=
  [.sleep 0 100, .perform (.call (.addTimer 16 50 (some 1) true 100)), .sleep 1 110,
    .perform (.call (.addTimer 24 10 (some 2) false 110)),
    .perform (.call (.addTimer 32 5 (some 3) false 111)), .perform (.call (.refresh 16 112)),
    .notify 1, .tick 114]

theorem never_missed_two :
    let s := (sleepers.exec ⟨⟨.new 100, 100, fun _ => 0⟩, fun _ => none, 0, [], []⟩
      twoSleepers).get (by decide)
    (s.timed.manager.NoneBefore ⊤ ∨ s.Told ⟨⊤, 0⟩) ∧
      (s.timed.manager.NoneBefore (150 : ℕ) ∨ s.Told ⟨(150 : ℕ), 1⟩) := by
  intro s
  have hs : sleepers.ReachableWhen NoWrap s :=
    Lib.System.ReachableWhen.exec (.init ⟨100, rfl⟩) (l := twoSleepers) (by decide)
      (Option.some_get _).symm
  have hfirst : s.sleeping 0 = some ⟨⊤, 0⟩ := by decide
  have hsecond : s.sleeping 1 = some ⟨(150 : ℕ), 1⟩ := by decide
  exact ⟨never_missed hs hfirst (by decide), never_missed hs hsecond (by decide)⟩

end Sleepers

end Sylar.Timers
