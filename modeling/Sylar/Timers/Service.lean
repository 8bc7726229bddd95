/-
# Sylar.Timers.Service — what the timer set is for.

A `Service` is the timers as their users see them: an object each, pending or not, and nothing in any
order.  `Prescribes` says what each request is to answer, in terms of who is pending and what is due: who
comes first, how long there is nothing to do, which callbacks are called and in which order.

`TimeManager` answers through a `std::set` whose elements' keys it rewrites, lower bounds and a temporary
timer.  It realizes the service (`timers_realize`): every history of requests is answered as prescribed,
at any clock readings, with deadlines that wrap and with a clock that is set back; so the set is an index
over the timers, and what it holds besides is never seen.
-/
import Sylar.Timers.Deadline
import Sylar.Lib.Refine
import Mathlib.Data.List.Perm.Basic

namespace Sylar.Timers

open Lib (Ordered Machine Realizes guarded)
open Scheduler (Callback)

/-! ## The service -/

/-- A request; `now` and `tmp` are what the clock and the allocator answer. -/
inductive Request
  | addTimer (p : Nat) (ms : UInt64) (cb : Callback) (recurring : Bool) (now : UInt64)
  | cancel (p : Nat)
  | refresh (p : Nat) (now : UInt64)
  | reset (p : Nat) (ms : UInt64) (from_now : Bool) (now : UInt64)
  | getNextTimer (now : UInt64)
  | hasTimer
  | listExpiredCb (now : UInt64) (tmp : Nat)
  /-- The last pointer to a timer is dropped. -/
  | free (p : Nat)
  deriving DecidableEq, Repr

/-- Its answer; `front` says that `onTimerInsertedAtFront` is called. -/
inductive Answer
  | added (front : Bool)
  | did (rt : Bool)
  | reset (rt front : Bool)
  | delay (ms : UInt64)
  | has (rt : Bool)
  | expired (cbs : List (Option Callback))
  | freed
  deriving DecidableEq, Repr

/-- The timers, as their users see them. -/
@[ext] structure Service where
  timer : Nat → Option Timer
  /-- Somebody has been notified, and nobody has asked for the delay since. -/
  notified : Bool
  /-- The reading the next one is compared with. -/
  seen : UInt64

namespace Service

/-- No timers. -/
def new (now : UInt64) : Service := ⟨fun _ => none, false, now⟩

/-- The timer at `p`. -/
def look (s : Service) (p : Nat) : Timer := (s.timer p).getD {}

/-- It has a callback to be called. -/
def Pending (s : Service) (p : Nat) : Prop := (s.look p).m_cb.isSome = true

/-- Its place among the others: by deadline, and then by address. -/
def rank (s : Service) (p : Nat) : ℕ ×ₗ ℕ := toLex ((s.look p).m_next.toNat, p)

/-- It is the one that is due first. -/
def Earliest (s : Service) (p : Nat) : Prop := s.Pending p ∧ ∀ q, s.Pending q → s.rank p ≤ s.rank q

/-- The clock has been set back by more than an hour. -/
def rolledBack (s : Service) (now : UInt64) : Bool :=
  now < s.seen && now < s.seen - 60 * 60 * 1000

/-- It is due. -/
def Due (s : Service) (now : UInt64) (p : Nat) : Prop :=
  s.Pending p ∧ (s.rolledBack now = true ∨ (s.look p).m_next ≤ now)

/-- These are the timers that are due, each of them once and the first one first. -/
structure Fires (s : Service) (now : UInt64) (ps : List Nat) : Prop where
  mem_iff : ∀ p, p ∈ ps ↔ s.Due now p
  ordered : Ordered s.rank ps

/-- Write a timer. -/
def set (s : Service) (p : Nat) (x : Timer) : Service :=
  { s with timer := Function.update s.timer p (some x) }

/-- What firing makes of a timer. -/
def fired (now : UInt64) (x : Timer) : Timer :=
  if x.m_recurring then { x with m_next := now + x.m_ms } else { x with m_cb := none }

/-- The reset timer: from now on, or from where its deadline was counted. -/
def restarted (ms : UInt64) (from_now : Bool) (now : UInt64) (x : Timer) : Timer :=
  { x with m_ms := ms, m_next := (if from_now then now else x.m_next - x.m_ms) + ms }

/-- **What is prescribed.** -/
inductive Prescribes (s : Service) : Request → Answer → Service → Prop
  | addTimer {p ms cb recurring now front} : s.timer p = none →
      (front = true ↔
        (s.set p ⟨now + ms, ms, recurring, some cb⟩).Earliest p ∧ s.notified = false) →
      Prescribes s (.addTimer p ms cb recurring now) (.added front)
        { s.set p ⟨now + ms, ms, recurring, some cb⟩ with notified := s.notified || front }
  | cancel {p} : s.Pending p →
      Prescribes s (.cancel p) (.did true) (s.set p { s.look p with m_cb := none })
  | cancelGone {p} : (s.timer p).isSome = true → ¬ s.Pending p →
      Prescribes s (.cancel p) (.did false) s
  | refresh {p now} : s.Pending p →
      Prescribes s (.refresh p now) (.did true)
        (s.set p { s.look p with m_next := now + (s.look p).m_ms })
  | refreshGone {p now} : (s.timer p).isSome = true → ¬ s.Pending p →
      Prescribes s (.refresh p now) (.did false) s
  | reset {p ms from_now now front} : s.Pending p →
      ¬ (ms = (s.look p).m_ms ∧ from_now = false) →
      (front = true ↔ (s.set p (restarted ms from_now now (s.look p))).Earliest p ∧
        s.notified = false) →
      Prescribes s (.reset p ms from_now now) (.reset true front)
        { s.set p (restarted ms from_now now (s.look p)) with notified := s.notified || front }
  -- asked for what is the case already, whether the timer is pending or not
  | resetSame {p ms from_now now} : (s.timer p).isSome = true →
      ms = (s.look p).m_ms ∧ from_now = false →
      Prescribes s (.reset p ms from_now now) (.reset true false) s
  | resetGone {p ms from_now now} : (s.timer p).isSome = true → ¬ s.Pending p →
      ¬ (ms = (s.look p).m_ms ∧ from_now = false) →
      Prescribes s (.reset p ms from_now now) (.reset false false) s
  | forever {now} : (∀ p, ¬ s.Pending p) →
      Prescribes s (.getNextTimer now) (.delay maxU64) { s with notified := false }
  | delay {now p} : s.Earliest p →
      Prescribes s (.getNextTimer now)
        (.delay (if (s.look p).m_next ≤ now then 0 else (s.look p).m_next - now))
        { s with notified := false }
  | hasTimer {rt} : (rt = true ↔ ∃ p, s.Pending p) → Prescribes s .hasTimer (.has rt) s
  | nothing {now tmp} : (∀ p, ¬ s.Pending p) → Prescribes s (.listExpiredCb now tmp) (.expired []) s
  | expired {now tmp ps} : (∃ p, s.Pending p) → s.Fires now ps →
      Prescribes s (.listExpiredCb now tmp) (.expired (ps.map fun p => (s.look p).m_cb))
        { s with
          timer := fun p => if p ∈ ps then some (fired now (s.look p)) else s.timer p
          seen := now }
  | free {p} : (s.timer p).isSome = true → ¬ s.Pending p →
      Prescribes s (.free p) .freed { s with timer := Function.update s.timer p none }

variable {s : Service} {p q : Nat}

theorem rank_injective (s : Service) : Function.Injective s.rank := by
  intro p q h
  exact congrArg (fun r : ℕ ×ₗ ℕ => (ofLex r).2) h

theorem Earliest.unique (hp : s.Earliest p) (hq : s.Earliest q) : p = q :=
  s.rank_injective (le_antisymm (hp.2 q hq.1) (hq.2 p hp.1))

theorem Fires.unique {now : UInt64} {ps qs : List Nat} (hp : s.Fires now ps) (hq : s.Fires now qs) :
    ps = qs := by
  have hperm : ps.Perm qs := (List.perm_ext_iff_of_nodup hp.ordered.nodup hq.ordered.nodup).mpr
    fun a => (hp.mem_iff a).trans (hq.mem_iff a).symm
  refine List.Perm.eq_of_pairwise ?_ hp.ordered hq.ordered hperm
  intro a b _ _ hab hba
  exact absurd hab (lt_asymm hba)

/-- **The service is functional**: one answer and one state behind it, for each request. -/
theorem prescribes_functional : Lib.Spec.Functional Prescribes := by
  intro s o r r' s₁ s₂ h h'
  cases h with
  | addTimer _ hfront =>
      cases h' with
      | addTimer _ hfront' =>
          obtain rfl := Bool.eq_iff_iff.mpr (hfront.trans hfront'.symm)
          exact ⟨rfl, rfl⟩
  | reset hp hne hfront =>
      cases h' with
      | reset _ _ hfront' =>
          obtain rfl := Bool.eq_iff_iff.mpr (hfront.trans hfront'.symm)
          exact ⟨rfl, rfl⟩
      | resetSame _ heq => exact absurd heq hne
      | resetGone _ hgone => exact absurd hp hgone
  | delay hp =>
      cases h' with
      | forever hno => exact absurd hp.1 (hno _)
      | delay hq =>
          obtain rfl := hp.unique hq
          exact ⟨rfl, rfl⟩
  | hasTimer hrt =>
      cases h' with
      | hasTimer hrt' =>
          obtain rfl := Bool.eq_iff_iff.mpr (hrt.trans hrt'.symm)
          exact ⟨rfl, rfl⟩
  | expired hsome hfires =>
      cases h' with
      | nothing hno =>
          obtain ⟨p, hp⟩ := hsome
          exact absurd hp (hno p)
      | expired _ hfires' =>
          obtain rfl := hfires.unique hfires'
          exact ⟨rfl, rfl⟩
  | cancel hp =>
      cases h' with
      | cancel => exact ⟨rfl, rfl⟩
      | cancelGone _ hgone => exact absurd hp hgone
  | cancelGone _ hgone =>
      cases h' with
      | cancel hp => exact absurd hp hgone
      | cancelGone => exact ⟨rfl, rfl⟩
  | refresh hp =>
      cases h' with
      | refresh => exact ⟨rfl, rfl⟩
      | refreshGone _ hgone => exact absurd hp hgone
  | refreshGone _ hgone =>
      cases h' with
      | refresh hp => exact absurd hp hgone
      | refreshGone => exact ⟨rfl, rfl⟩
  | resetSame _ heq =>
      cases h' with
      | reset _ hne => exact absurd heq hne
      | resetSame => exact ⟨rfl, rfl⟩
      | resetGone _ _ hne => exact absurd heq hne
  | resetGone _ hgone hne =>
      cases h' with
      | reset hp => exact absurd hp hgone
      | resetSame _ heq => exact absurd heq hne
      | resetGone => exact ⟨rfl, rfl⟩
  | forever hno =>
      cases h' with
      | forever => exact ⟨rfl, rfl⟩
      | delay hp => exact absurd hp.1 (hno _)
  | nothing hno =>
      cases h' with
      | nothing => exact ⟨rfl, rfl⟩
      | expired hsome =>
          obtain ⟨p, hp⟩ := hsome
          exact absurd hp (hno p)
  | free =>
      cases h' with
      | free => exact ⟨rfl, rfl⟩

theorem exists_of_pending (hp : s.Pending p) : (s.timer p).isSome = true := by
  unfold Pending look at hp
  cases hx : s.timer p with
  | some x => rfl
  | none =>
      rw [hx] at hp
      cases hp

end Service

/-! ## The manager behind it -/

namespace TimeManager

open Service

/-- Answer a request, about a timer that exists (for `addTimer`, at an address that is not in use); a
timer the set points to is not freed. -/
def ask (m : TimeManager) : Request → Option (TimeManager × Answer)
  | .addTimer p ms cb recurring now =>
      let r := m.addTimer p ms (some cb) recurring now
      guarded (m.timer p = none) (r.1, .added r.2)
  | .cancel p =>
      if (m.timer p).isSome then (m.cancel p).map fun r => (r.1, .did r.2) else none
  | .refresh p now =>
      let r := m.refresh p now
      guarded ((m.timer p).isSome = true) (r.1, .did r.2)
  | .reset p ms from_now now =>
      let r := m.reset p ms from_now now
      guarded ((m.timer p).isSome = true) (r.1, .reset r.2.1 r.2.2)
  | .getNextTimer now =>
      let r := m.getNextTimer now
      some (r.1, .delay r.2)
  | .hasTimer => some (m, .has m.hasTimer)
  | .listExpiredCb now tmp =>
      let r := m.listExpiredCb now tmp
      some (r.1, .expired r.2)
  | .free p =>
      guarded ((m.timer p).isSome = true ∧ p ∉ m.m_timers)
        ({ m with timer := Function.update m.timer p none }, .freed)

/-- The manager as an object that is called. -/
def machine : Machine TimeManager Request Answer := ⟨ask⟩

/-- What its users see of it: not the set. -/
def service (m : TimeManager) : Service := ⟨m.timer, m.m_tickled, m.m_previouseTime⟩

variable {m m' : TimeManager} {p : Nat} {x : Timer}

/-- The set is empty iff nobody is pending. -/
theorem timers_eq_nil (h : m.WF True) : m.m_timers = [] ↔ ∀ p, ¬ m.service.Pending p := by
  rw [List.eq_nil_iff_forall_not_mem]
  exact forall_congr' fun p => not_congr (h.mem_iff p)

theorem exists_pending (h : m.WF True) : m.m_timers ≠ [] ↔ ∃ p, m.service.Pending p := by
  rw [Ne, timers_eq_nil h, not_forall_not]

/-- The first of the set is the earliest. -/
theorem earliest_head {first : Nat} {rest : List Nat} (h : m.WF True)
    (hset : m.m_timers = first :: rest) : m.service.Earliest first := by
  have hord : Ordered m.rank (first :: rest) := by
    rw [← hset]
    exact Holds.ordered h
  have hmem : ∀ p, p ∈ first :: rest ↔ m.Live p := by
    intro p
    rw [← hset]
    exact h.mem_iff p
  refine ⟨(hmem first).mp List.mem_cons_self, ?_⟩
  intro q hq
  exact hord.head_le ((hmem q).mpr hq)

/-- `it == m_timers.begin()` says that it is the earliest. -/
theorem atBegin_iff (h : m.WF True) (hp : m.Live p) :
    m.atBegin p = true ↔ m.service.Earliest p := by
  unfold atBegin
  cases hset : m.m_timers with
  | nil => exact absurd hp ((timers_eq_nil h).mp hset p)
  | cons first rest =>
      have hfirst := earliest_head h hset
      simp only [Bool.not_eq_true', ← Bool.not_eq_true, comparator_key, not_lt]
      constructor
      · intro hle
        exact ⟨hp, fun q hq => le_trans hle (hfirst.2 q hq)⟩
      · intro hearliest
        exact hearliest.2 first hfirst.1

/-- The protected `addTimer` notifies iff the timer is the earliest now and nobody has been. -/
theorem addLocked_front (h : m.Holds True [p]) :
    (m.addLocked p).2 = true ↔ m.service.Earliest p ∧ m.service.notified = false := by
  have hwf : (m.insert p).WF True := h.insert
  have hlive : (m.insert p).Live p := h.live_of_mem trivial p (.inr List.mem_cons_self)
  show ((m.insert p).atBegin p && !m.m_tickled) = true ↔ _
  rw [Bool.and_eq_true, atBegin_iff hwf hlive, Bool.not_eq_true']
  exact Iff.rfl

/-- The loop over `expired` writes the timers it goes through. -/
theorem fire_timer (now : UInt64) : ∀ {ps : List Nat} {m : TimeManager}, ps.Nodup → ∀ q,
    (m.fire now ps).1.timer q = if q ∈ ps then some (fired now (m.deref q)) else m.timer q
  | [], _, _, q => by simp [fire]
  | p :: ps, m, hnodup, q => by
      obtain ⟨hp, hps⟩ := List.nodup_cons.mp hnodup
      have hstep : (if (m.deref p).m_recurring then
          (m.write p { m.deref p with m_next := now + (m.deref p).m_ms }).insert p
          else m.write p { m.deref p with m_cb := none })
            = { m.write p (fired now (m.deref p)) with
                m_timers := if (m.deref p).m_recurring then
                  ((m.write p (fired now (m.deref p))).insert p).m_timers else m.m_timers } := by
        unfold fired
        split
        · rfl
        · rfl
      simp only [fire]
      rw [hstep, fire_timer now hps q]
      by_cases hqp : q = p
      · subst hqp
        simp [hp, write]
      · simp [hqp, write, deref]

/-! ## One request -/

theorem ask_addTimer {ms now : UInt64} {cb : Callback} {recurring : Bool} (h : m.WF True)
    (hnew : m.timer p = none) :
    Prescribes m.service (.addTimer p ms cb recurring now)
      (.added (m.addTimer p ms (some cb) recurring now).2)
      (m.addTimer p ms (some cb) recurring now).1.service := by
  have hset : p ∉ m.m_timers := by
    rw [h.mem_iff]
    intro hp
    have hsome := exists_of_pending (s := m.service) hp
    rw [show m.service.timer p = none from hnew] at hsome
    cases hsome
  have hout : (m.write p ⟨now + ms, ms, recurring, some cb⟩).Holds True [p] :=
    Holds.write_live h hset List.not_mem_nil fun _ => rfl
  exact .addTimer hnew (addLocked_front hout)

theorem ask_cancel {rt : Bool} (h : m.WF True) (hp : (m.timer p).isSome = true)
    (hc : m.cancel p = some (m', rt)) :
    Prescribes m.service (.cancel p) (.did rt) m'.service := by
  by_cases hlive : m.Live p
  · rw [cancel_live h hlive] at hc
    obtain ⟨rfl, rfl⟩ := Prod.mk.inj (Option.some.inj hc)
    exact .cancel hlive
  · rw [cancel_dead hlive] at hc
    obtain ⟨rfl, rfl⟩ := Prod.mk.inj (Option.some.inj hc)
    exact .cancelGone hp hlive

theorem ask_refresh {now : UInt64} (h : m.WF True) (hp : (m.timer p).isSome = true) :
    Prescribes m.service (.refresh p now) (.did (m.refresh p now).2) (m.refresh p now).1.service := by
  by_cases hlive : m.Live p
  · rw [refresh_live h hlive]
    exact .refresh hlive
  · rw [refresh_dead hlive]
    exact .refreshGone hp hlive

/-- `reset` on a timer that is not pending says so, where it looks. -/
theorem reset_gone {ms : UInt64} {from_now : Bool} (hlive : ¬ m.Live p) (now : UInt64)
    (hne : ¬ (ms = (m.deref p).m_ms ∧ from_now = false)) :
    m.reset p ms from_now now = (m, false, false) := by
  have hnone : (m.deref p).m_cb.isNone = true := by
    simpa [Live] using hlive
  unfold reset
  rw [if_neg hne, if_pos hnone]

theorem ask_reset {ms now : UInt64} {from_now : Bool} (h : m.WF True)
    (hp : (m.timer p).isSome = true) :
    Prescribes m.service (.reset p ms from_now now)
      (.reset (m.reset p ms from_now now).2.1 (m.reset p ms from_now now).2.2)
      (m.reset p ms from_now now).1.service := by
  by_cases hsame : ms = (m.deref p).m_ms ∧ from_now = false
  · rw [reset_same now hsame]
    exact .resetSame hp hsame
  · by_cases hlive : m.Live p
    · have hout : ((m.erase p).write p (m.resetTimer p ms from_now now)).Holds True [p] :=
        (Holds.erase h (h.mem hlive)).rewrite rfl
      rw [reset_live h hlive now hsame]
      exact .reset hlive hsame (addLocked_front hout)
    · rw [reset_gone hlive now hsame]
      exact .resetGone hp hlive hsame

theorem ask_getNextTimer {now : UInt64} (h : m.WF True) :
    Prescribes m.service (.getNextTimer now) (.delay (m.getNextTimer now).2)
      (m.getNextTimer now).1.service := by
  unfold getNextTimer
  split
  · rename_i hset
    exact .forever ((timers_eq_nil h).mp hset)
  · rename_i first rest hset
    exact .delay (earliest_head h hset)

theorem ask_hasTimer (h : m.WF True) :
    Prescribes m.service .hasTimer (.has m.hasTimer) m.service := by
  refine .hasTimer ?_
  rw [← exists_pending h]
  simp [hasTimer]

/-- What is taken out is what is due, in order. -/
theorem fires_expired (h : m.WF True) (now : UInt64) : m.service.Fires now (m.expired now) where
  mem_iff := by
    intro p
    rw [mem_expired h]
    unfold due
    rw [Bool.or_eq_true, decide_eq_true_iff]
    exact Iff.rfl
  ordered := (Holds.ordered h).sublist List.filter_sublist

theorem ask_listExpiredCb (h : m.WF True) (now : UInt64) (tmp : Nat) :
    Prescribes m.service (.listExpiredCb now tmp) (.expired (m.listExpiredCb now tmp).2)
      (m.listExpiredCb now tmp).1.service := by
  by_cases hne : m.m_timers = []
  · rw [listExpiredCb_of_empty hne]
    exact .nothing ((timers_eq_nil h).mp hne)
  · have hnodup := expired_nodup h now
    have hseen : (m.listExpiredCb now tmp).1.service =
        { m.service with
          timer := fun p =>
            if p ∈ m.expired now then some (fired now (m.service.look p)) else m.service.timer p
          seen := now } := by
      rw [listExpiredCb_eq (Holds.ordered h) now tmp hne]
      obtain ⟨hprev, htickled⟩ := fire_frame now (m.expired now) (m.takeDue now)
      refine Service.ext ?_ htickled hprev
      funext q
      exact fire_timer now hnodup q
    rw [listExpiredCb_returns h, hseen]
    exact .expired ((exists_pending h).mp hne) (fires_expired h now)

/-- **What is answered is prescribed.** -/
theorem ask_sound {o : Request} {r : Answer} (h : m.WF True) (hask : m.ask o = some (m', r)) :
    m'.WF True ∧ Prescribes m.service o r m'.service := by
  cases o with
  | addTimer p ms cb recurring now =>
      obtain ⟨hnew, heq⟩ := Lib.guarded_eq_some.mp hask
      obtain ⟨rfl, rfl⟩ := Prod.mk.inj heq
      exact ⟨addTimer_wf h hnew fun _ => rfl, ask_addTimer h hnew⟩
  | cancel p =>
      simp only [ask] at hask
      split at hask
      · rename_i hp
        obtain ⟨⟨k, rt⟩, hc, heq⟩ := Option.map_eq_some_iff.mp hask
        obtain ⟨rfl, rfl⟩ := Prod.mk.inj heq
        exact ⟨cancel_wf h hc, ask_cancel h hp hc⟩
      · cases hask
  | refresh p now =>
      obtain ⟨hp, heq⟩ := Lib.guarded_eq_some.mp hask
      obtain ⟨rfl, rfl⟩ := Prod.mk.inj heq
      exact ⟨refresh_wf h now, ask_refresh h hp⟩
  | reset p ms from_now now =>
      obtain ⟨hp, heq⟩ := Lib.guarded_eq_some.mp hask
      obtain ⟨rfl, rfl⟩ := Prod.mk.inj heq
      exact ⟨reset_wf h ms from_now now, ask_reset h hp⟩
  | getNextTimer now =>
      obtain ⟨rfl, rfl⟩ := Prod.mk.inj (Option.some.inj hask)
      exact ⟨wf_of_eq h rfl rfl, ask_getNextTimer h⟩
  | hasTimer =>
      obtain ⟨rfl, rfl⟩ := Prod.mk.inj (Option.some.inj hask)
      exact ⟨h, ask_hasTimer h⟩
  | listExpiredCb now tmp =>
      obtain ⟨rfl, rfl⟩ := Prod.mk.inj (Option.some.inj hask)
      exact ⟨listExpiredCb_wf h now tmp, ask_listExpiredCb h now tmp⟩
  | free p =>
      obtain ⟨⟨hp, hset⟩, heq⟩ := Lib.guarded_eq_some.mp hask
      obtain ⟨rfl, rfl⟩ := Prod.mk.inj heq
      have hfree : m.perform (.free p) = some { m with timer := Function.update m.timer p none } :=
        if_pos ⟨hp, hset⟩
      have hcb : (Op.free p).HasCallback := trivial
      exact ⟨perform_voiced h hcb hfree, .free hp (mt (h.mem_iff p).mpr hset)⟩

/-- **What is prescribed is answered.** -/
theorem ask_total {o : Request} {r : Answer} {s : Service} (h : m.WF True)
    (hspec : Prescribes m.service o r s) : (m.ask o).isSome = true := by
  have hcancel : ∀ p, (m.cancel p).isSome = true := by
    intro p
    by_cases hp : m.Live p
    · rw [cancel_live h hp]
      rfl
    · rw [cancel_dead hp]
      rfl
  cases hspec with
  | addTimer hnew => simp [ask, guarded, show m.timer _ = none from hnew]
  | cancel hp => simp [ask, show (m.timer _).isSome = true from exists_of_pending hp, hcancel]
  | cancelGone hp => simp [ask, show (m.timer _).isSome = true from hp, hcancel]
  | refresh hp | reset hp =>
      simp [ask, guarded, show (m.timer _).isSome = true from exists_of_pending hp]
  | refreshGone hp | resetSame hp | resetGone hp =>
      simp [ask, guarded, show (m.timer _).isSome = true from hp]
  | forever | delay | hasTimer | nothing | expired => rfl
  | free hp hgone =>
      simp [ask, guarded, show (m.timer _).isSome = true from hp, mt (h.mem_iff _).mp hgone]

theorem realizes : Realizes machine Prescribes (WF True) service := ⟨ask_sound, ask_total⟩

/-- **The timer set realizes the service.** -/
theorem timers_realize (now : UInt64) (os : List Request) (rs : List Answer) (s : Service) :
    (∃ m, machine.run (.new now) os = some (m, rs) ∧ m.service = s) ↔
      Lib.Spec.Run Prescribes (Service.new now) os rs s :=
  realizes.run_iff prescribes_functional (wf_new now) os rs s

/-- Two timers of one deadline fire in the order of their addresses, behind one that is earlier; a
recurring one is pending afterwards, and the others can be freed. -/
example : (machine.run (.new 1000)
    [.addTimer 32 10 1 false 1000, .addTimer 16 10 2 true 1000, .addTimer 48 5 3 false 1000,
      .getNextTimer 1002, .listExpiredCb 1010 8, .cancel 32, .free 32, .cancel 16]).map Prod.snd
    = some [.added true, .added false, .added false, .delay 3, .expired [some 3, some 2, some 1],
      .did false, .freed, .did true] := by decide

end TimeManager

end Sylar.Timers
