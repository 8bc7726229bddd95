/-
# Sylar.Timers.Concurrent — the timer manager, called by several threads.

`Service` prescribes what each request answers when requests come one after another.  Here threads call
at any time, and what is atomic is one holding of `m_mutex`.  Most requests hold it for their whole body.
Two do not: `listExpiredCb` looks whether the set is empty under the read lock, lets go, and takes the
write lock; and `Timer::reset` compares the new period with the old one before it takes the lock, and
does not look again.  (That comparison is an unprotected read of `m_ms`; it is taken to read a value that
the field has at that moment.  A clock reading is an argument wherever the source takes it.)

Every history is accounted for by a sequential one (`timers_linearizable`).  What the sequential one is
to allow is the service, and what a late `reset` can do besides: one whose period has become the
requested one in the meantime, set by a call that overlaps with it, goes through all the same, with a
notification that is not needed, or is refused because the timer has gone.  Where no timer is reset by
two threads at once, the service itself accounts for every history (`timers_linearizable_apart`).
-/
import Sylar.Timers.Service
import Sylar.Lib.Linear
import Mathlib.Data.List.Permutation

namespace Sylar.Timers

open Lib (Atomic Entry Event Linearizable Overlap Sections Shared guarded)

/-! ## The sections -/

/-- What a thread does while it has the lock; the comparison of `reset` comes before it has. -/
inductive Phase
  /-- The whole request. -/
  | whole (o : Request)
  /-- `ms == m_ms && !from_now`. -/
  | compare (p : Nat) (ms : UInt64) (from_now : Bool) (now : UInt64)
  /-- The rest of `reset`. -/
  | restart (p : Nat) (ms : UInt64) (from_now : Bool) (now : UInt64)
  /-- `listExpiredCb` under the read lock. -/
  | peek (now : UInt64) (tmp : Nat)
  /-- `listExpiredCb` under the write lock. -/
  | take (now : UInt64) (tmp : Nat)
  deriving DecidableEq, Repr

namespace TimeManager

open Service

variable {m m' : TimeManager} {p : Nat}

/-- `Timer::reset` from where it has the lock. -/
def resetLocked (m : TimeManager) (p : Nat) (ms : UInt64) (from_now : Bool) (now : UInt64) :
    TimeManager × Bool × Bool :=
  if (m.deref p).m_cb.isNone then (m, false, false)
  else
    match m.find p with
    | none => (m, false, false)
    | some q =>
        let m := m.erase q
        let start := if from_now then now else (m.deref p).m_next - (m.deref p).m_ms
        let r := (m.write p { m.deref p with m_ms := ms, m_next := start + ms }).addLocked p
        (r.1, true, r.2)

/-- `reset` is its two sections, one behind the other. -/
theorem reset_sections (m : TimeManager) (p : Nat) (ms : UInt64) (from_now : Bool) (now : UInt64) :
    m.reset p ms from_now now =
      if ms = (m.deref p).m_ms ∧ from_now = false then (m, true, false)
      else m.resetLocked p ms from_now now := rfl

/-- The section in which a request begins. -/
def firstPhase : Request → Phase
  | .reset p ms from_now now => .compare p ms from_now now
  | .listExpiredCb now tmp => .peek now tmp
  | o => .whole o

/-- Go through a section. -/
def runPhase (ph : Phase) (m : TimeManager) : Option (TimeManager × (Answer ⊕ Phase)) :=
  match ph with
  | .whole o => (m.ask o).map fun r => (r.1, .inl r.2)
  | .compare p ms from_now now =>
      guarded ((m.timer p).isSome = true)
        (m, if ms = (m.deref p).m_ms ∧ from_now = false then .inl (.reset true false)
          else .inr (.restart p ms from_now now))
  | .restart p ms from_now now =>
      let r := m.resetLocked p ms from_now now
      guarded ((m.timer p).isSome = true) (r.1, .inl (.reset r.2.1 r.2.2))
  | .peek now tmp => some (m, if m.m_timers.isEmpty then .inl (.expired []) else .inr (.take now tmp))
  | .take now tmp =>
      let r := m.listExpiredCb now tmp
      some (r.1, .inl (.expired r.2))

/-- The manager, as the threads use it. -/
def sections : Sections TimeManager Phase Request Answer := ⟨firstPhase, runPhase⟩

end TimeManager

/-! ## What a history is to be accounted for by -/

namespace Service

/-- What is prescribed and, for a `reset` that is `late`, what it may do besides where it finds the period
that it was to set. -/
inductive Allows (late : Request → Prop) (s : Service) : Request → Answer → Service → Prop
  | prescribed {o r s'} : Prescribes s o r s' → Allows late s o r s'
  /-- It puts the timer back to where it was, and may notify. -/
  | resetLate {p ms now front} : late (.reset p ms false now) → s.Pending p → ms = (s.look p).m_ms →
      (front = true ↔ s.Earliest p ∧ s.notified = false) →
      Allows late s (.reset p ms false now) (.reset true front)
        { s with notified := s.notified || front }
  /-- It says that the timer is not pending. -/
  | resetLateGone {p ms now} : late (.reset p ms false now) → (s.timer p).isSome = true →
      ¬ s.Pending p → ms = (s.look p).m_ms → Allows late s (.reset p ms false now) (.reset false false) s

theorem Allows.prescribes {late : Request → Prop} {s s' : Service} {o : Request} {r : Answer}
    (hlate : ¬ late o) (h : Allows late s o r s') : Prescribes s o r s' := by
  cases h with
  | prescribed h => exact h
  | resetLate h => exact absurd h hlate
  | resetLateGone h => exact absurd h hlate

end Service

namespace Request

/-- The request sets the period of the timer at `p`, or makes or frees that timer. -/
def SetsPeriod (p : Nat) : Request → Prop
  | .addTimer q .. | .reset q .. | .free q => q = p
  | .cancel _ | .refresh .. | .getNextTimer _ | .hasTimer | .listExpiredCb .. => False

/-- The request sets the period of the timer at `p` to `ms`, or frees that timer. -/
def SetsPeriodTo (p : Nat) (ms : UInt64) : Request → Prop
  | .addTimer q ms' .. | .reset q ms' .. => q = p ∧ ms' = ms
  | .free q => q = p
  | .cancel _ | .refresh .. | .getNextTimer _ | .hasTimer | .listExpiredCb .. => False

theorem setsPeriod_of_to {p : Nat} {ms : UInt64} {o : Request} (h : o.SetsPeriodTo p ms) :
    o.SetsPeriod p := by
  cases o with
  | addTimer | reset => exact h.1
  | free => exact h
  | cancel | refresh | getNextTimer | hasTimer | listExpiredCb => exact h.elim

/-- The request `o` does not reset a timer whose period `o'` sets. -/
def Apart (o o' : Request) : Prop :=
  match o with
  | .reset p .. => ¬ o'.SetsPeriod p
  | _ => True

/-- The request `o` does not reset a timer, on from its deadline, to the period that `o'` sets. -/
def Differs (o o' : Request) : Prop :=
  match o with
  | .reset p ms false _ => ¬ o'.SetsPeriodTo p ms
  | _ => True

theorem Apart.differs {o o' : Request} (h : o.Apart o') : o.Differs o' := by
  cases o with
  | reset p ms from_now now =>
      cases from_now with
      | true => trivial
      | false => exact fun hset => h (setsPeriod_of_to hset)
  | addTimer | cancel | refresh | getNextTimer | hasTimer | listExpiredCb | free => trivial

/-- In the history a call of this request, a `reset`, overlaps with a call that sets the same period. -/
def Late (history : List (Event Request Answer)) (o : Request) : Prop :=
  ∃ i t j t' o', Event.called i t o ∈ history ∧ Event.called j t' o' ∈ history ∧ i ≠ j ∧
    Overlap history i j ∧ ¬ o.Differs o'

end Request

namespace Service

variable {s s' : Service} {p q : Nat} {o : Request} {r : Answer}

theorem look_set_ne (h : p ≠ q) (x : Timer) : (s.set q x).look p = s.look p := by
  show (Function.update s.timer q (some x) p).getD {} = _
  rw [Function.update_of_ne h]
  rfl

theorem look_set_self (x : Timer) : (s.set q x).look q = x := by
  show (Function.update s.timer q (some x) q).getD {} = _
  rw [Function.update_self]
  rfl

/-- A write of another period than `ms`. -/
theorem period_set_ne {x : Timer} {ms : UInt64} (hne : ms ≠ (s.look p).m_ms)
    (hx : q = p → ms ≠ x.m_ms) : ms ≠ ((s.set q x).look p).m_ms := by
  by_cases hpq : p = q
  · subst hpq
    rw [look_set_self]
    exact hx rfl
  · rwa [look_set_ne hpq]

theorem period_fired (now : UInt64) (x : Timer) : (fired now x).m_ms = x.m_ms := by
  unfold fired
  split
  · rfl
  · rfl

/-- **Only the requests that set it to `ms` make a period `ms`.** -/
theorem period_ne {late : Request → Prop} {ms : UInt64} (h : Allows late s o r s')
    (hset : ¬ o.SetsPeriodTo p ms) (hne : ms ≠ (s.look p).m_ms) : ms ≠ (s'.look p).m_ms := by
  cases h with
  | prescribed h =>
      cases h with
      | addTimer => exact period_set_ne hne fun hp hms => hset ⟨hp, hms.symm⟩
      | reset => exact period_set_ne hne fun hp hms => hset ⟨hp, hms.symm⟩
      | cancel | refresh =>
          refine period_set_ne hne ?_
          rintro rfl
          exact hne
      | cancelGone | refreshGone | resetSame | resetGone | forever | delay | hasTimer | nothing =>
          exact hne
      | @expired now tmp ps hsome hfires =>
          show ms ≠ ((if p ∈ ps then some (fired now (s.look p)) else s.timer p).getD {}).m_ms
          split
          · exact ne_of_ne_of_eq hne (period_fired now (s.look p)).symm
          · exact hne
      | @free q =>
          have hp : p ≠ q := fun heq => hset heq.symm
          show ms ≠ ((Function.update s.timer q none p).getD {}).m_ms
          rw [Function.update_of_ne hp]
          exact hne
  | resetLate => exact hne
  | resetLateGone => exact hne

/-- Counted from where it was, and as far: the deadline stays. -/
theorem restarted_same (now : UInt64) (x : Timer) : restarted x.m_ms false now x = x := by
  have hback : x.m_next - x.m_ms + x.m_ms = x.m_next := by
    exact UInt64.sub_add_cancel x.m_next x.m_ms
  show { x with m_ms := x.m_ms, m_next := x.m_next - x.m_ms + x.m_ms } = x
  rw [hback]

end Service

namespace TimeManager

open Service

variable {m m' : TimeManager} {p : Nat} {late : Request → Prop}

/-! ## One section -/

/-- The assertion under which a request enters a section: it is one of its sections, and a `reset` that
is not `late` is going to change something. -/
inductive At (late : Request → Prop) (m : TimeManager) : Request → Phase → Prop
  | whole {o} : At late m o (.whole o)
  | compare {p ms from_now now} : At late m (.reset p ms from_now now) (.compare p ms from_now now)
  | restart {p ms from_now now} :
      (late (.reset p ms from_now now) ∨ ¬ (ms = (m.deref p).m_ms ∧ from_now = false)) →
      At late m (.reset p ms from_now now) (.restart p ms from_now now)
  | peek {now tmp} : At late m (.listExpiredCb now tmp) (.peek now tmp)
  | take {now tmp} : At late m (.listExpiredCb now tmp) (.take now tmp)

theorem resetLocked_live (h : m.WF True) (hp : m.Live p) (ms : UInt64) (from_now : Bool)
    (now : UInt64) : m.resetLocked p ms from_now now =
      ((((m.erase p).write p (m.resetTimer p ms from_now now)).addLocked p).1, true,
        (((m.erase p).write p (m.resetTimer p ms from_now now)).addLocked p).2) := by
  have hset : p ∈ m.m_timers := h.mem hp
  have hsome : (m.deref p).m_cb.isNone = false := by
    simpa [Live] using hp
  unfold resetLocked
  rw [hsome, find_of_mem (Holds.ordered h) hset]
  rfl

theorem resetLocked_dead (hp : ¬ m.Live p) (ms : UInt64) (from_now : Bool) (now : UInt64) :
    m.resetLocked p ms from_now now = (m, false, false) := by
  have hnone : (m.deref p).m_cb.isNone = true := by
    simpa [Live] using hp
  unfold resetLocked
  rw [if_pos hnone]

/-- **The rest of a `reset`**, whatever has happened since the comparison. -/
theorem resetLocked_allowed {ms now : UInt64} {from_now : Bool} (h : m.WF True)
    (hp : (m.timer p).isSome = true)
    (hlate : late (.reset p ms from_now now) ∨ ¬ (ms = (m.deref p).m_ms ∧ from_now = false)) :
    (m.resetLocked p ms from_now now).1.WF True ∧
      Allows late m.service (.reset p ms from_now now)
        (.reset (m.resetLocked p ms from_now now).2.1 (m.resetLocked p ms from_now now).2.2)
        (m.resetLocked p ms from_now now).1.service := by
  by_cases hsame : ms = (m.deref p).m_ms ∧ from_now = false
  · have hfound : late (.reset p ms from_now now) := hlate.resolve_right fun hne => hne hsame
    obtain ⟨hms, rfl⟩ := hsame
    by_cases hlive : m.Live p
    · have hout : ((m.erase p).write p (m.resetTimer p ms false now)).Holds True [p] :=
        (Holds.erase h (h.mem hlive)).rewrite rfl
      have hback : ((m.erase p).write p (m.resetTimer p ms false now)).service = m.service := by
        have htimer : m.resetTimer p ms false now = m.deref p := by
          rw [hms]
          exact restarted_same now (m.deref p)
        obtain ⟨x, hx⟩ := Option.isSome_iff_exists.mp hp
        refine Service.ext ?_ rfl rfl
        show Function.update m.timer p (some (m.resetTimer p ms false now)) = m.timer
        rw [htimer, Function.update_eq_self_iff, hx]
        show some ((m.timer p).getD {}) = some x
        rw [hx]
        rfl
      have hfront := addLocked_front hout
      rw [hback] at hfront
      rw [resetLocked_live h hlive]
      refine ⟨addLocked_holds hout, ?_⟩
      have hafter : (((m.erase p).write p (m.resetTimer p ms false now)).addLocked p).1.service =
          { m.service with notified := m.service.notified ||
            (((m.erase p).write p (m.resetTimer p ms false now)).addLocked p).2 } := by
        rw [← hback]
        rfl
      rw [hafter]
      exact .resetLate hfound hlive hms hfront
    · rw [resetLocked_dead hlive]
      exact ⟨h, .resetLateGone hfound hp hlive hms⟩
  · have heq : m.reset p ms from_now now = m.resetLocked p ms from_now now := by
      rw [reset_sections, if_neg hsame]
    rw [← heq]
    exact ⟨reset_wf h ms from_now now, .prescribed (ask_reset h hp)⟩

theorem at_first (late : Request → Prop) (m : TimeManager) (o : Request) : At late m o (firstPhase o) := by
  cases o with
  | reset => exact .compare
  | listExpiredCb => exact .peek
  | addTimer | cancel | refresh | getNextTimer | hasTimer | free => exact .whole

/-- A section that leads to another one only looks. -/
theorem section_passed {o : Request} {ph ph' : Phase} (hat : At late m o ph)
    (hrun : runPhase ph m = some (m', .inr ph')) : m' = m ∧ At late m o ph' := by
  cases hat with
  | whole =>
      obtain ⟨r, -, heq⟩ := Option.map_eq_some_iff.mp hrun
      cases heq
  | @compare p ms from_now now =>
      obtain ⟨-, heq⟩ := Lib.guarded_eq_some.mp hrun
      obtain ⟨rfl, hnext⟩ := Prod.mk.inj heq
      split at hnext
      · cases hnext
      · rename_i hne
        obtain rfl := Sum.inr.inj hnext
        exact ⟨rfl, .restart (.inr hne)⟩
  | restart =>
      obtain ⟨-, heq⟩ := Lib.guarded_eq_some.mp hrun
      cases heq
  | peek =>
      obtain ⟨rfl, hnext⟩ := Prod.mk.inj (Option.some.inj hrun)
      split at hnext
      · cases hnext
      · obtain rfl := Sum.inr.inj hnext
        exact ⟨rfl, .take⟩
  | take => cases hrun

/-- **A section that answers** answers as is allowed. -/
theorem section_answered {o : Request} {ph : Phase} {r : Answer} (h : m.WF True)
    (hat : At late m o ph) (hrun : runPhase ph m = some (m', .inl r)) :
    m'.WF True ∧ Allows late m.service o r m'.service := by
  cases hat with
  | whole =>
      obtain ⟨⟨m₁, r₁⟩, hask, heq⟩ := Option.map_eq_some_iff.mp hrun
      obtain ⟨rfl, hr⟩ := Prod.mk.inj heq
      obtain rfl := Sum.inl.inj hr
      obtain ⟨hwf, hspec⟩ := ask_sound h hask
      exact ⟨hwf, .prescribed hspec⟩
  | compare =>
      obtain ⟨hp, heq⟩ := Lib.guarded_eq_some.mp hrun
      obtain ⟨rfl, hr⟩ := Prod.mk.inj heq
      split at hr
      · rename_i hsame
        obtain rfl := Sum.inl.inj hr
        exact ⟨h, .prescribed (.resetSame hp hsame)⟩
      · cases hr
  | restart hlate =>
      obtain ⟨hp, heq⟩ := Lib.guarded_eq_some.mp hrun
      obtain ⟨rfl, hr⟩ := Prod.mk.inj heq
      obtain rfl := Sum.inl.inj hr
      exact resetLocked_allowed h hp hlate
  | peek =>
      obtain ⟨rfl, hr⟩ := Prod.mk.inj (Option.some.inj hrun)
      split at hr
      · rename_i hempty
        obtain rfl := Sum.inl.inj hr
        exact ⟨h, .prescribed (.nothing ((timers_eq_nil h).mp (List.isEmpty_iff.mp hempty)))⟩
      · cases hr
  | @take now tmp =>
      obtain ⟨rfl, hr⟩ := Prod.mk.inj (Option.some.inj hrun)
      obtain rfl := Sum.inl.inj hr
      exact ⟨listExpiredCb_wf h now tmp, .prescribed (ask_listExpiredCb h now tmp)⟩

/-- A `reset` that is going to change something still is, behind a section of a request that does not set
the period to what it asks for. -/
theorem section_stable {o o' : Request} {ph ph' : Phase} {x : Answer ⊕ Phase}
    (hapart : late o ∨ o.Differs o') (h : m.WF True) (hat : At late m o ph) (hat' : At late m o' ph')
    (hrun : runPhase ph' m = some (m', x)) : At late m' o ph := by
  cases hat with
  | whole => exact .whole
  | compare => exact .compare
  | peek => exact .peek
  | take => exact .take
  | @restart p ms from_now now hne =>
      refine .restart ?_
      rcases hapart with hlate | hdiffers
      · exact .inl hlate
      cases from_now with
      | true =>
          -- a restart from now on changes something whatever the period is
          exact .inr fun hsame => by cases hsame.2
      | false =>
          refine hne.imp_right fun hne => ?_
          have hms : ms ≠ (m.deref p).m_ms := fun hms => hne ⟨hms, rfl⟩
          cases x with
          | inl r => exact fun hsame => period_ne (section_answered h hat' hrun).2 hdiffers hms hsame.1
          | inr g =>
              obtain ⟨rfl, -⟩ := section_passed hat' hrun
              exact hne

theorem atomic (late : Request → Prop) :
    Atomic sections (Allows late) (WF True) service (fun o ph m => At late m o ph)
      (fun o o' => late o ∨ o.Differs o') where
  first := fun o m => at_first late m o
  passed := by
    intro m m' o ph ph' h hat hrun
    obtain ⟨rfl, hnext⟩ := section_passed hat hrun
    exact ⟨h, rfl, hnext⟩
  answered := fun h hat hrun => section_answered h hat hrun
  stable := fun hapart h hat hat' hrun => section_stable hapart h hat hat' hrun

/-! ## Every history -/

variable {now : UInt64} {c : Shared TimeManager Phase Request Answer}

/-- **Every history of the manager can be put in a sequence**, in which only the `reset`s that overlap
with another setting of the same period can be late. -/
theorem timers_linearizable (hc : (sections.system (.new now)).Reachable c) :
    Linearizable (Allows (Request.Late c.history)) (Service.new now) c.history := by
  refine (atomic (Request.Late c.history)).explained (wf_new now) hc ?_
  intro i t o j t' o' hi hj hne hover
  by_cases hdiffers : o.Differs o'
  · exact .inr hdiffers
  · exact .inl ⟨i, t, j, t', o', hi, hj, hne, hover, hdiffers⟩

/-- Two threads reset one timer to one period; a third call cancels it before the first of them goes on. -/
def lateReset : List (Lib.Move Request) :=
  [.call 0 (.addTimer 32 10 1 false 1000), .go 0, .ret 0, .call 1 (.reset 32 20 false 1001), .go 1,
    .call 2 (.reset 32 20 false 1001), .go 2, .go 2, .ret 2, .call 2 (.cancel 32), .go 2, .ret 2,
    .go 1, .ret 1]

def lateHistory : List (Event Request Answer) :=
  [.called 0 0 (.addTimer 32 10 1 false 1000), .returned 0 0 (.added true),
    .called 1 1 (.reset 32 20 false 1001), .called 2 2 (.reset 32 20 false 1001),
    .returned 2 2 (.reset true false), .called 3 2 (.cancel 32), .returned 3 2 (.did true),
    .returned 1 1 (.reset false false)]

/-- The calls of `lateHistory` with their answers. -/
def lateEntries : List (Entry Request Answer) :=
  [⟨0, .addTimer 32 10 1 false 1000, .added true⟩, ⟨1, .reset 32 20 false 1001, .reset false false⟩,
    ⟨2, .reset 32 20 false 1001, .reset true false⟩, ⟨3, .cancel 32, .did true⟩]

/-- The first `reset` finds the timer gone, and yet the second one had set the period it asked for: the
service alone does not account for that. -/
theorem lateReset_linearizable :
    Linearizable (Allows (Request.Late lateHistory)) (Service.new 1000) lateHistory ∧
      ¬ Linearizable Prescribes (Service.new 1000) lateHistory := by
  constructor
  · have hexec : ((sections.system (.new 1000)).exec (.new (.new 1000)) lateReset).map
        Shared.history = some lateHistory := by decide
    obtain ⟨c, hc, hhist⟩ := Option.map_eq_some_iff.mp hexec
    rw [← hhist]
    exact timers_linearizable (Lib.System.reachable_of_exec rfl hc)
  · rintro ⟨log, s, hlog⟩
    have hrun : (machine.run (.new 1000) (log.map Entry.op)).map Prod.snd
        = some (log.map Entry.answer) := by
      obtain ⟨m, hm, -⟩ := realizes.exists_run prescribes_functional (wf_new 1000) hlog.run
      rw [hm]
      rfl
    have hperm : log.Perm lateEntries := by
      refine hlog.perm_of_complete (by decide) (by decide) ?_
      have hret : ∀ e ∈ lateEntries, ∃ t ∈ List.range 3,
          Event.returned e.number t e.answer ∈ lateHistory := by decide
      exact fun e he => (hret e he).imp fun _ h => h.2
    have hmem : ∀ j ∈ List.range 4, j ∈ log.map Entry.number := fun j hj =>
      (hperm.map Entry.number).mem_iff.mpr ((by decide : ∀ j ∈ List.range 4,
        j ∈ lateEntries.map Entry.number) j hj)
    have h01 : Lib.Before (log.map Entry.number) 0 1 :=
      hlog.ordered 0 0 (.added true) 1 1 (.reset 32 20 false 1001) (by decide) (hmem 1 (by decide))
    have h02 : Lib.Before (log.map Entry.number) 0 2 :=
      hlog.ordered 0 0 (.added true) 2 2 (.reset 32 20 false 1001) (by decide) (hmem 2 (by decide))
    have h23 : Lib.Before (log.map Entry.number) 2 3 :=
      hlog.ordered 2 2 (.reset true false) 3 2 (.cancel 32) (by decide) (hmem 3 (by decide))
    -- three orders are left
    have hno : ∀ log ∈ lateEntries.permutations', Lib.Before (log.map Entry.number) 0 1 →
        Lib.Before (log.map Entry.number) 0 2 → Lib.Before (log.map Entry.number) 2 3 →
        (machine.run (.new 1000) (log.map Entry.op)).map Prod.snd ≠ some (log.map Entry.answer) := by
      decide
    exact hno log (List.mem_permutations'.mpr hperm) h01 h02 h23 hrun

/-- **Where no timer is reset by two threads at once, the service accounts for every history.** -/
theorem timers_linearizable_apart (hc : (sections.system (.new now)).Reachable c)
    (hapart : Lib.OverlapsApart Request.Apart c.history) :
    Linearizable Prescribes (Service.new now) c.history := by
  have hlog : Linearizable (Allows fun _ => False) (Service.new now) c.history := by
    refine (atomic fun _ => False).explained (wf_new now) hc ?_
    exact fun i t o j t' o' hi hj hne hover => .inr (hapart i t o j t' o' hi hj hne hover).differs
  exact hlog.mono fun h => h.prescribes not_false

/-- A timer is reset while another thread fires and cancels: its callback is called once, and the
others' requests come between the comparison and the rest. -/
def apartReset : List (Lib.Move Request) :=
  [.call 0 (.addTimer 32 10 1 true 1000), .go 0, .ret 0, .call 1 (.reset 32 20 false 1001), .go 1,
    .call 2 (.listExpiredCb 1010 8), .go 2, .call 3 (.cancel 32), .go 2, .ret 2, .go 1, .go 3, .ret 3,
    .ret 1]

def apartHistory : List (Event Request Answer) :=
  [.called 0 0 (.addTimer 32 10 1 true 1000), .returned 0 0 (.added true),
    .called 1 1 (.reset 32 20 false 1001), .called 2 2 (.listExpiredCb 1010 8),
    .called 3 3 (.cancel 32), .returned 2 2 (.expired [some 1]), .returned 3 3 (.did true),
    .returned 1 1 (.reset true false)]

theorem apartReset_linearizable : Linearizable Prescribes (Service.new 1000) apartHistory := by
  have hexec : ((sections.system (.new 1000)).exec (.new (.new 1000)) apartReset).map
      Shared.history = some apartHistory := by decide
  obtain ⟨c, hc, hhist⟩ := Option.map_eq_some_iff.mp hexec
  rw [← hhist]
  refine timers_linearizable_apart (Lib.System.reachable_of_exec rfl hc) ?_
  rw [hhist]
  intro i t o j t' o' hi hj hne hover
  simp only [apartHistory, List.mem_cons, Event.called.injEq, reduceCtorEq, false_or,
    List.not_mem_nil, or_false] at hi hj
  rcases hi with ⟨rfl, rfl, rfl⟩ | ⟨rfl, rfl, rfl⟩ | ⟨rfl, rfl, rfl⟩ | ⟨rfl, rfl, rfl⟩
  · trivial
  · -- the `reset`: the timer was there before, and the others leave its period
    rcases hj with ⟨rfl, rfl, rfl⟩ | ⟨rfl, rfl, rfl⟩ | ⟨rfl, rfl, rfl⟩ | ⟨rfl, rfl, rfl⟩
    · exact absurd (by decide) (hover.2 0 (.added true) 1 (.reset 32 20 false 1001))
    · exact absurd rfl hne
    · exact not_false
    · exact not_false
  · trivial
  · trivial

end TimeManager

end Sylar.Timers
