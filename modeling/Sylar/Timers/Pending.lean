/-
# Sylar.Timers.Pending — one user's timers among those of others.

A timer that was created with a callback is in the set as long as it has one, and no longer.  That is so
whatever the others put into the set: nothing is asked of their timers, which may have no callback at
all (`pending_step`).
-/
import Sylar.Timers.Firing
import Sylar.Timers.Expiry

namespace Sylar.Timers.TimeManager

variable {voiced : Prop} {m m' : TimeManager} {p q : Nat} {op : Op}

/-- The timer at `p` is not in the set without a callback. -/
def Pending (m : TimeManager) (p : Nat) : Prop := p ∈ m.m_timers → m.Live p

theorem pending_of_same (h : m.Pending p) (hset : p ∈ m'.m_timers → p ∈ m.m_timers)
    (hderef : m'.deref p = m.deref p) : m'.Pending p := by
  intro hp
  unfold Live
  rw [hderef]
  exact h (hset hp)

/-- An insertion of another timer. -/
theorem pending_insert (h : m.Pending p) (hpq : p ≠ q) {x : Timer} :
    ((m.write q x).addLocked q).1.Pending p := by
  refine pending_of_same h (fun hp => ?_) ?_
  · have hin : p ∈ ((m.write q x).insert q).m_timers := hp
    rw [insert_timers] at hin
    exact (Lib.eq_or_mem_of_mem_insertBy hin).resolve_left hpq
  · exact (deref_write m q p x).trans (if_neg hpq)

theorem cancel_pending {rt : Bool} (hm : m.WF voiced) (h : m.Pending p)
    (hc : m.cancel q = some (m', rt)) : m'.Pending p := by
  by_cases hq : m.Live q
  · rw [cancel_live hm hq] at hc
    obtain ⟨rfl, -⟩ := Prod.mk.inj (Option.some.inj hc)
    intro hp
    have hin : p ∈ m.m_timers.erase q := hp
    have hne : p ≠ q := by
      rintro rfl
      exact (Holds.ordered hm).nodup.not_mem_erase hin
    exact pending_of_same h List.mem_of_mem_erase ((deref_write _ q p _).trans (if_neg hne)) hp
  · rw [cancel_dead hq] at hc
    obtain ⟨rfl, -⟩ := Prod.mk.inj (Option.some.inj hc)
    exact h

/-- `cancel` leaves no callback. -/
theorem cancel_silences {rt : Bool} (hm : m.WF voiced) (hc : m.cancel p = some (m', rt)) :
    ¬ m'.Live p := by
  unfold Live
  rw [cancel_deref hm hc, if_pos rfl]
  exact Bool.false_ne_true

/-- A timer that is taken out, written and put back. -/
theorem pending_moved (h : m.Pending p) (hq : m.Live q) {x : Timer}
    (hx : x.m_cb = (m.deref q).m_cb) : (((m.erase q).write q x).insert q).Pending p := by
  intro hp
  by_cases hpq : p = q
  · subst hpq
    have hcb : ((((m.erase p).write p x).insert p).deref p).m_cb = (m.deref p).m_cb := by
      rw [deref_insert, deref_write, if_pos rfl, hx]
    unfold Live
    rw [hcb]
    exact hq
  · have herase : (m.erase q).Pending p := pending_of_same h List.mem_of_mem_erase rfl
    exact pending_insert herase hpq hp

theorem refresh_pending (hm : m.WF voiced) (h : m.Pending p) (now : UInt64) :
    (m.refresh q now).1.Pending p := by
  by_cases hq : m.Live q
  · rw [refresh_live hm hq]
    exact pending_moved h hq rfl
  · rw [refresh_dead hq]
    exact h

theorem reset_pending (hm : m.WF voiced) (h : m.Pending p) (ms : UInt64) (from_now : Bool)
    (now : UInt64) : (m.reset q ms from_now now).1.Pending p := by
  by_cases heq : ms = (m.deref q).m_ms ∧ from_now = false
  · rw [reset_same now heq]
    exact h
  · by_cases hq : m.Live q
    · rw [reset_live hm hq now heq]
      exact pending_moved (x := m.resetTimer q ms from_now now) h hq rfl
    · rw [(reset_dead hq now).1]
      exact h

theorem expire_pending (hm : m.WF voiced) (h : m.Pending p) (now : UInt64) (tmp : Nat) :
    (m.listExpiredCb now tmp).1.Pending p := by
  have hexact := listExpiredCb_exact now tmp
    (List.Pairwise.imp comparator_key.mpr (Holds.ordered hm))
  intro hp
  obtain ⟨hin, hrec⟩ := (hexact.mem_iff p).mp hp
  have hlive : (m.deref p).m_cb.isSome = true := h hin
  unfold Live
  by_cases hexp : m.Expired now p
  · rw [hexact.recurring p hexp (hrec hexp)]
    exact hlive
  · rw [hexact.untouched p hexp]
    exact hlive

/-! ## Steps -/

/-- An operation leaves a timer's callback alone or clears it. -/
theorem cb_step (hm : m.WF voiced) (hnew : ¬ op.Creates p) (hstep : m.perform op = some m') :
    (m'.deref p).m_cb = (m.deref p).m_cb ∨ (m'.deref p).m_cb = none := by
  cases op with
  | getNextTimer now =>
      obtain rfl := Option.some.inj hstep
      exact .inl rfl
  | listExpiredCb now tmp =>
      obtain rfl := Option.some.inj hstep
      rw [listExpiredCb_deref hm now tmp p]
      split
      · unfold rearm
        split
        · exact .inl rfl
        · exact .inr rfl
      · exact .inl rfl
  | free q =>
      obtain ⟨-, rfl⟩ := Lib.guarded_eq_some.mp hstep
      by_cases hpq : p = q
      · subst hpq
        exact .inr (by simp [deref])
      · exact .inl (by simp [deref, hpq])
  | call c =>
      obtain ⟨⟨k, front⟩, hc, rfl⟩ := Option.map_eq_some_iff.mp hstep
      cases called hc with
      | @addTimer q ms cb recurring now =>
          have hpq : p ≠ q := fun heq => hnew heq.symm
          rw [addTimer_deref, if_neg hpq]
          exact .inl rfl
      | @cancel q k rt hq hcancel =>
          rw [cancel_deref hm hcancel p]
          split
          · exact .inr rfl
          · exact .inl rfl
      | @refresh q now =>
          rw [refresh_deref hm now p]
          split
          · rename_i hq
            rw [hq.1]
            exact .inl rfl
          · exact .inl rfl
      | @reset q ms from_now now =>
          rw [reset_deref hm ms from_now now p]
          split
          · rename_i hq
            rw [hq.1]
            exact .inl rfl
          · exact .inl rfl

/-- None but its creation gives a timer a callback. -/
theorem live_step (hm : m.WF voiced) (hnew : ¬ op.Creates p) (hstep : m.perform op = some m')
    (hl : m'.Live p) : m.Live p := by
  unfold Live at hl ⊢
  rcases cb_step hm hnew hstep with hcb | hcb
  · rw [← hcb]
    exact hl
  · rw [hcb] at hl
    cases hl

/-- No operation leaves the timer in the set without its callback. -/
theorem pending_step (hm : m.WF voiced) (hnew : ¬ op.Creates p) (h : m.Pending p)
    (hstep : m.perform op = some m') : m'.Pending p := by
  cases op with
  | getNextTimer now =>
      obtain rfl := Option.some.inj hstep
      exact h
  | listExpiredCb now tmp =>
      obtain rfl := Option.some.inj hstep
      exact expire_pending hm h now tmp
  | free q =>
      obtain ⟨⟨-, hq⟩, rfl⟩ := Lib.guarded_eq_some.mp hstep
      intro hp
      have hpq : p ≠ q := by
        rintro rfl
        exact hq hp
      have hsame : ({ m with timer := Function.update m.timer q none } : TimeManager).deref p
          = m.deref p := by
        simp only [deref, Function.update_of_ne hpq]
      exact pending_of_same h id hsame hp
  | call c =>
      obtain ⟨⟨k, front⟩, hc, rfl⟩ := Option.map_eq_some_iff.mp hstep
      cases called hc with
      | @addTimer q ms cb recurring now => exact pending_insert h fun heq => hnew heq.symm
      | @cancel q k rt hq hcancel => exact cancel_pending hm h hcancel
      | @refresh q now => exact refresh_pending hm h now
      | @reset q ms from_now now => exact reset_pending hm h ms from_now now

end Sylar.Timers.TimeManager
