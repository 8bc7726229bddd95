/-
# Sylar.Timers.Firing — how often a timer fires.

The callback slot `m_cb` is what keeps a timer alive.  Of all operations only `cancel` and, for a
timer that is not recurring, its own expiry clear it, and none fills it again (`life_step`).  From
this one step the whole life of a timer follows, from its creation to the next creation at the same
address: how often it is returned, what `cancel` answers, and that a recurring timer stays pending
until it is cancelled (`timer_life`).
-/
import Sylar.Timers.TimerSet

namespace Sylar.Timers

open Scheduler (Callback)

/-- The operation makes a new timer at `p`. -/
def Op.Creates (p : Nat) : Op → Prop
  | .call (.addTimer q ..) => q = p
  | _ => False

instance (p : Nat) : DecidablePred (Op.Creates p)
  | .call (.addTimer q ..) => inferInstanceAs (Decidable (q = p))
  | .call (.cancel _) | .call (.refresh ..) | .call (.reset ..) | .getNextTimer _
  | .listExpiredCb .. | .free _ => isFalse id

/-- The timers whose callbacks the operation returns. -/
def Op.returns (m : TimeManager) : Op → List Nat
  | .listExpiredCb now _ => m.expired now
  | _ => []

namespace TimeManager

/-- How often the callback of the timer at `p` is returned in the course of `ops`. -/
def timesReturned (p : Nat) : TimeManager → List Op → Nat
  | _, [] => 0
  | m, op :: ops =>
      (op.returns m).count p +
        match m.perform op with
        | none => 0
        | some m' => timesReturned p m' ops

/-- What `cancel` answers; `false` also where it faults. -/
def cancelAnswer (m : TimeManager) (p : Nat) : Bool := ((m.cancel p).map Prod.snd).getD false

variable {m m' : TimeManager} {p : Nat}

theorem cancelAnswer_iff (h : m.WF True) : m.cancelAnswer p = true ↔ m.Live p := by
  unfold cancelAnswer
  by_cases hp : m.Live p
  · rw [cancel_live h hp]
    simp [hp]
  · rw [cancel_dead hp]
    simp [hp]

theorem timesReturned_cons {op : Op} {ops : List Op} (hstep : m.perform op = some m') :
    timesReturned p m (op :: ops) = (op.returns m).count p + timesReturned p m' ops := by
  simp only [timesReturned, hstep]

theorem live_of_returned (h : m.WF True) {op : Op} (hp : p ∈ op.returns m) : m.Live p := by
  cases op with
  | listExpiredCb now tmp => exact ((mem_expired h).mp hp).1
  | call | getNextTimer | free => cases hp

/-- No operation returns a callback twice. -/
theorem count_returns (h : m.WF True) (op : Op) :
    (op.returns m).count p = if p ∈ op.returns m then 1 else 0 := by
  have hnodup : (op.returns m).Nodup := by
    cases op with
    | listExpiredCb now tmp => exact expired_nodup h now
    | call | getNextTimer | free => exact List.nodup_nil
  split
  · rename_i hp
    exact List.count_eq_one_of_mem hnodup hp
  · rename_i hp
    exact List.count_eq_zero.mpr hp

/-! ## One step of a life -/

/-- What an operation does to a timer it does not make: who has a callback afterwards had it before,
and has lost it only by `cancel` or by firing once; the callback and the kind stay the same. -/
structure LifeStep (p : Nat) (m : TimeManager) (op : Op) (m' : TimeManager) : Prop where
  live_iff : m'.Live p ↔ m.Live p ∧ op ≠ .call (.cancel p) ∧
    ((m.deref p).m_recurring = false → p ∉ op.returns m)
  recurring : m'.Live p → (m'.deref p).m_recurring = (m.deref p).m_recurring
  cb : m'.Live p → (m'.deref p).m_cb = (m.deref p).m_cb

/-- An operation that returns nothing and leaves the callback and the kind of `p` alone. -/
theorem lifeStep_of_same {op : Op} (hcb : (m'.deref p).m_cb = (m.deref p).m_cb)
    (hrec : (m'.deref p).m_recurring = (m.deref p).m_recurring) (hop : op ≠ .call (.cancel p))
    (hret : p ∉ op.returns m) : LifeStep p m op m' where
  live_iff := by
    simp only [Live, hcb]
    exact ⟨fun h => ⟨h, hop, fun _ => hret⟩, fun h => h.1⟩
  recurring := fun _ => hrec
  cb := fun _ => hcb

/-- An operation that gives `p` at most another deadline or period. -/
theorem lifeStep_of_moved {op : Op} {x : Timer} {c : Prop} [Decidable c]
    (hderef : m'.deref p = if c then x else m.deref p)
    (hx : c → x.m_cb = (m.deref p).m_cb ∧ x.m_recurring = (m.deref p).m_recurring)
    (hop : op ≠ .call (.cancel p)) (hret : p ∉ op.returns m) : LifeStep p m op m' := by
  by_cases hc : c
  · rw [if_pos hc] at hderef
    obtain ⟨hcb, hrec⟩ := hx hc
    exact lifeStep_of_same (by rw [hderef, hcb]) (by rw [hderef, hrec]) hop hret
  · rw [if_neg hc] at hderef
    exact lifeStep_of_same (by rw [hderef]) (by rw [hderef]) hop hret

theorem call_life {c : Call} {front : Bool} (h : m.WF True) (hnew : ¬ (Op.call c).Creates p)
    (hc : m.call c = some (m', front)) : LifeStep p m (.call c) m' := by
  have hret : p ∉ (Op.call c).returns m := List.not_mem_nil
  cases called hc with
  | @addTimer q ms cb recurring now =>
      have hpq : p ≠ q := fun heq => hnew heq.symm
      have hderef := addTimer_deref m q ms cb recurring now p
      rw [if_neg hpq] at hderef
      exact lifeStep_of_same (by rw [hderef]) (by rw [hderef]) (by simp) hret
  | @cancel q k rt hq hcancel =>
      have hderef := cancel_deref h hcancel p
      by_cases hpq : p = q
      · subst hpq
        have hdead : ¬ m'.Live p := by
          unfold Live
          rw [hderef, if_pos rfl]
          simp
        exact ⟨⟨fun hl => absurd hl hdead, fun hl => absurd rfl hl.2.1⟩,
          fun hl => absurd hl hdead, fun hl => absurd hl hdead⟩
      · rw [if_neg hpq] at hderef
        refine lifeStep_of_same (by rw [hderef]) (by rw [hderef]) ?_ hret
        intro heq
        cases heq
        exact hpq rfl
  | @refresh q now =>
      refine lifeStep_of_moved (refresh_deref h now p) (fun hq => ?_) (by simp) hret
      rw [hq.1]
      exact ⟨rfl, rfl⟩
  | @reset q ms from_now now =>
      refine lifeStep_of_moved (reset_deref h ms from_now now p) (fun hq => ?_) (by simp) hret
      rw [hq.1]
      exact ⟨rfl, rfl⟩

theorem expire_life (h : m.WF True) (now : UInt64) (tmp : Nat) :
    LifeStep p m (.listExpiredCb now tmp) (m.listExpiredCb now tmp).1 := by
  have hderef := listExpiredCb_deref h now tmp p
  by_cases hp : p ∈ m.expired now
  · rw [if_pos hp] at hderef
    have hlive : m.Live p := ((mem_expired h).mp hp).1
    cases hrec : (m.deref p).m_recurring with
    | true =>
        -- it is put back, with a new deadline
        have hcb : ((m.listExpiredCb now tmp).1.deref p).m_cb = (m.deref p).m_cb := by
          rw [hderef, rearm, if_pos hrec]
        refine ⟨⟨fun _ => ⟨hlive, by simp, fun hf => ?_⟩, fun _ => ?_⟩, fun _ => ?_, fun _ => hcb⟩
        · rw [hrec] at hf
          cases hf
        · unfold Live
          rw [hcb]
          exact hlive
        · rw [hderef, rearm, if_pos hrec, hrec]
    | false =>
        have hdead : ¬ (m.listExpiredCb now tmp).1.Live p := by
          unfold Live
          rw [hderef, rearm, if_neg (by simp [hrec])]
          simp
        exact ⟨⟨fun hl => absurd hl hdead, fun hl => absurd hp (hl.2.2 hrec)⟩,
          fun hl => absurd hl hdead, fun hl => absurd hl hdead⟩
  · rw [if_neg hp] at hderef
    exact lifeStep_of_same (by rw [hderef]) (by rw [hderef]) (by simp) hp

/-- **The step lemma** of a timer's life. -/
theorem life_step {op : Op} (h : m.WF True) (hnew : ¬ op.Creates p) (hstep : m.perform op = some m') :
    LifeStep p m op m' := by
  cases op with
  | call c =>
      obtain ⟨⟨m₁, front⟩, hc, rfl⟩ := Option.map_eq_some_iff.mp hstep
      exact call_life h hnew hc
  | getNextTimer now =>
      obtain rfl := Option.some.inj hstep
      exact lifeStep_of_same rfl rfl (by simp) List.not_mem_nil
  | listExpiredCb now tmp =>
      obtain rfl := Option.some.inj hstep
      exact expire_life h now tmp
  | free q =>
      obtain ⟨⟨-, hq⟩, rfl⟩ := Lib.guarded_eq_some.mp hstep
      by_cases hpq : p = q
      · -- only a timer that is not in the set is freed, so it had no callback
        subst hpq
        have hdead : ¬ m.Live p := fun hl => hq ((h.mem_iff p).mpr hl)
        have hdead' : ¬ ({ m with timer := Function.update m.timer p none } : TimeManager).Live p := by
          simp [Live, deref]
        exact ⟨⟨fun hl => absurd hl hdead', fun hl => absurd hl.1 hdead⟩,
          fun hl => absurd hl hdead', fun hl => absurd hl hdead'⟩
      · have hderef : ({ m with timer := Function.update m.timer q none } : TimeManager).deref p
            = m.deref p := by
          simp only [deref, Function.update_of_ne hpq]
        exact lifeStep_of_same (by rw [hderef]) (by rw [hderef]) (by simp) List.not_mem_nil

/-! ## A whole life -/

/-- A run that makes no other timer at `p`, each new timer of it with a callback. -/
def Spares (p : Nat) (ops : List Op) : Prop := ∀ op ∈ ops, ¬ op.Creates p ∧ op.HasCallback

instance (p : Nat) (ops : List Op) : Decidable (Spares p ops) :=
  inferInstanceAs (Decidable (∀ op ∈ ops, ¬ op.Creates p ∧ op.HasCallback))

theorem exec_wf {ops : List Op} (h : m.WF True) (hops : ∀ op ∈ ops, op.HasCallback)
    (hrun : timerSet.exec m ops = some m') : m'.WF True := by
  induction ops generalizing m with
  | nil =>
      obtain rfl := Option.some.inj hrun
      exact h
  | cons op ops ih =>
      obtain ⟨m₁, hstep, hrest⟩ := Option.bind_eq_some_iff.mp hrun
      exact ih (perform_voiced h (hops op List.mem_cons_self) hstep)
        (fun o ho => hops o (List.mem_cons_of_mem op ho)) hrest

/-- **A timer without a callback** never gets one again, and is never returned. -/
theorem dead_run {ops : List Op} (h : m.WF True) (hlife : Spares p ops) (hdead : ¬ m.Live p)
    (hrun : timerSet.exec m ops = some m') : timesReturned p m ops = 0 ∧ ¬ m'.Live p := by
  induction ops generalizing m with
  | nil =>
      obtain rfl := Option.some.inj hrun
      exact ⟨rfl, hdead⟩
  | cons op ops ih =>
      obtain ⟨m₁, hstep, hrest⟩ := Option.bind_eq_some_iff.mp hrun
      obtain ⟨hnew, hcb⟩ := hlife op List.mem_cons_self
      have hdead₁ : ¬ m₁.Live p := fun hl => hdead ((life_step h hnew hstep).live_iff.mp hl).1
      have hnone : (op.returns m).count p = 0 :=
        List.count_eq_zero.mpr fun hp => hdead (live_of_returned h hp)
      obtain ⟨hzero, hend⟩ := ih (perform_voiced h hcb hstep)
        (fun o ho => hlife o (List.mem_cons_of_mem op ho)) hdead₁ hrest
      rw [timesReturned_cons hstep, hnone, hzero]
      exact ⟨rfl, hend⟩

/-- **A timer that is not recurring** is returned at most once, and has its callback until then or
until it is cancelled. -/
theorem oneShot_run {ops : List Op} (h : m.WF True) (hlife : Spares p ops) (hlive : m.Live p)
    (hrec : (m.deref p).m_recurring = false) (hrun : timerSet.exec m ops = some m') :
    timesReturned p m ops ≤ 1 ∧
      (m'.Live p ↔ timesReturned p m ops = 0 ∧ Op.call (.cancel p) ∉ ops) := by
  induction ops generalizing m with
  | nil =>
      obtain rfl := Option.some.inj hrun
      simp [timesReturned, hlive]
  | cons op ops ih =>
      obtain ⟨m₁, hstep, hrest⟩ := Option.bind_eq_some_iff.mp hrun
      obtain ⟨hnew, hcb⟩ := hlife op List.mem_cons_self
      have hlife' : Spares p ops := fun o ho => hlife o (List.mem_cons_of_mem op ho)
      have hone := life_step h hnew hstep
      have h₁ := perform_voiced h hcb hstep
      rw [timesReturned_cons hstep, count_returns h op, List.mem_cons, not_or]
      by_cases hlive₁ : m₁.Live p
      · -- it was neither cancelled nor returned, and the rest of the run counts
        obtain ⟨-, hop, hret⟩ := hone.live_iff.mp hlive₁
        obtain ⟨hle, hiff⟩ := ih h₁ hlife' hlive₁ ((hone.recurring hlive₁).trans hrec) hrest
        rw [if_neg (hret hrec), Nat.zero_add]
        refine ⟨hle, hiff.trans ?_⟩
        exact ⟨fun hx => ⟨hx.1, fun heq => hop heq.symm, hx.2⟩, fun hx => ⟨hx.1, hx.2.2⟩⟩
      · -- it was cancelled or has fired, and nothing happens to it any more
        obtain ⟨hzero, hend⟩ := dead_run h₁ hlife' hlive₁ hrest
        rw [hzero, Nat.add_zero]
        refine ⟨by split <;> omega, ⟨fun hl => absurd hl hend, fun ⟨hnone, hcancel, _⟩ => ?_⟩⟩
        have hret : p ∉ op.returns m := by
          intro hp
          rw [if_pos hp] at hnone
          cases hnone
        exact absurd (hone.live_iff.mpr ⟨hlive, fun heq => hcancel heq.symm, fun _ => hret⟩) hlive₁

/-- **A recurring timer** keeps its callback until it is cancelled. -/
theorem recurring_run {ops : List Op} (h : m.WF True) (hlife : Spares p ops) (hlive : m.Live p)
    (hrec : (m.deref p).m_recurring = true) (hcancel : Op.call (.cancel p) ∉ ops)
    (hrun : timerSet.exec m ops = some m') : m'.Live p := by
  induction ops generalizing m with
  | nil =>
      obtain rfl := Option.some.inj hrun
      exact hlive
  | cons op ops ih =>
      obtain ⟨m₁, hstep, hrest⟩ := Option.bind_eq_some_iff.mp hrun
      obtain ⟨hnew, hcb⟩ := hlife op List.mem_cons_self
      rw [List.mem_cons, not_or] at hcancel
      have hone := life_step h hnew hstep
      have hlive₁ : m₁.Live p := hone.live_iff.mpr ⟨hlive, fun heq => hcancel.1 heq.symm, fun hf => by
        rw [hrec] at hf
        cases hf⟩
      exact ih (perform_voiced h hcb hstep) (fun o ho => hlife o (List.mem_cons_of_mem op ho)) hlive₁
        ((hone.recurring hlive₁).trans hrec) hcancel.2 hrest

/-- What is returned of a timer is the callback it was made with. -/
theorem cb_run {ops : List Op} (h : m.WF True) (hlife : Spares p ops)
    (hrun : timerSet.exec m ops = some m') (hlive : m'.Live p) :
    m.Live p ∧ (m'.deref p).m_cb = (m.deref p).m_cb := by
  induction ops generalizing m with
  | nil =>
      obtain rfl := Option.some.inj hrun
      exact ⟨hlive, rfl⟩
  | cons op ops ih =>
      obtain ⟨m₁, hstep, hrest⟩ := Option.bind_eq_some_iff.mp hrun
      obtain ⟨hnew, hcb⟩ := hlife op List.mem_cons_self
      obtain ⟨hlive₁, heq⟩ := ih (perform_voiced h hcb hstep)
        (fun o ho => hlife o (List.mem_cons_of_mem op ho)) hrest
      have hone := life_step h hnew hstep
      exact ⟨(hone.live_iff.mp hlive₁).1, heq.trans (hone.cb hlive₁)⟩

/-! ## The law -/

/-- The life `ops` of the timer at `p`, made with the callback `cb` in state `m`. -/
structure Life (p : Nat) (recurring : Bool) (cb : Option Callback) (m : TimeManager)
    (ops : List Op) : Prop where
  /-- `listExpiredCb` returns the callbacks of the timers it takes out, this one's being `cb`. -/
  returned : ∀ bs now tmp es m₁, ops = bs ++ .listExpiredCb now tmp :: es →
    timerSet.exec m bs = some m₁ →
    (m₁.listExpiredCb now tmp).2 = (m₁.expired now).map (fun q => (m₁.deref q).m_cb) ∧
      (p ∈ m₁.expired now → (m₁.deref p).m_cb = cb)
  /-- A timer that is not recurring is returned at most once. -/
  once : recurring = false → timesReturned p m ops ≤ 1
  /-- Behind a `cancel` that answered true it is not returned. -/
  cancelled : ∀ bs es m₁ m₂, ops = bs ++ .call (.cancel p) :: es →
    timerSet.exec m bs = some m₁ → m₁.cancelAnswer p = true →
    m₁.perform (.call (.cancel p)) = some m₂ → timesReturned p m₂ es = 0
  /-- `cancel` of a timer that is not recurring answers true iff it has not fired and has not been
  cancelled. -/
  answer : recurring = false → ∀ bs es m₁, ops = bs ++ .call (.cancel p) :: es →
    timerSet.exec m bs = some m₁ →
    (m₁.cancelAnswer p = true ↔ timesReturned p m bs = 0 ∧ Op.call (.cancel p) ∉ bs)
  /-- One call returns it at most once. -/
  oneCall : ∀ bs now tmp es m₁, ops = bs ++ .listExpiredCb now tmp :: es →
    timerSet.exec m bs = some m₁ → (m₁.expired now).count p ≤ 1
  /-- A recurring timer is in the set until it is cancelled. -/
  pending : recurring = true → ∀ bs es m₁, ops = bs ++ es → timerSet.exec m bs = some m₁ →
    Op.call (.cancel p) ∉ bs → p ∈ m₁.m_timers

/-- **The life of a timer**, from its creation in any reachable state, through any operations up to
the next creation at its address. -/
theorem timer_life {m₀ : TimeManager} {ms now : UInt64} {recurring : Bool} {cb : Option Callback}
    (hm : timerSet.ReachableWhen (fun _ op => op.HasCallback) m)
    (hadd : m.perform (.call (.addTimer p ms cb recurring now)) = some m₀)
    (hcb : cb.isSome = true) {ops : List Op} (hlife : Spares p ops)
    (hrun : timerSet.exec m₀ ops = some m') : Life p recurring cb m₀ ops := by
  have hop : (Op.call (.addTimer p ms cb recurring now)).HasCallback := hcb
  have h₀ : m₀.WF True := perform_voiced (voiced_of_reachable hm) hop hadd
  have hderef : m₀.deref p = ⟨now + ms, ms, recurring, cb⟩ := by
    obtain ⟨⟨m₁, front⟩, hc, rfl⟩ := Option.map_eq_some_iff.mp hadd
    cases called hc
    rw [addTimer_deref, if_pos rfl]
  have hlive : m₀.Live p := by
    unfold Live
    rw [hderef]
    exact hcb
  have hpre : ∀ {bs es : List Op}, ops = bs ++ es → Spares p bs ∧ Spares p es := by
    rintro bs es rfl
    exact ⟨fun o ho => hlife o (List.mem_append_left es ho),
      fun o ho => hlife o (List.mem_append_right bs ho)⟩
  have hwf : ∀ {bs : List Op} {m₁ : TimeManager}, Spares p bs → timerSet.exec m₀ bs = some m₁ →
      m₁.WF True := fun hbs hex => exec_wf h₀ (fun o ho => (hbs o ho).2) hex
  refine ⟨?_, ?_, ?_, ?_, ?_, ?_⟩
  · intro bs now tmp es m₁ heq hex
    obtain ⟨hbs, -⟩ := hpre heq
    have h₁ := hwf hbs hex
    refine ⟨listExpiredCb_returns h₁ now tmp, fun hp => ?_⟩
    have hcb₁ := (cb_run h₀ hbs hex ((mem_expired h₁).mp hp).1).2
    rw [hcb₁, hderef]
  · intro hrec
    exact (oneShot_run h₀ hlife hlive (by rw [hderef]; exact hrec) hrun).1
  · intro bs es m₁ m₂ heq hex _ hstep
    obtain ⟨hbs, hes⟩ := hpre heq
    obtain ⟨hop, hes⟩ : _ ∧ Spares p es :=
      ⟨hes _ List.mem_cons_self, fun o ho => hes o (List.mem_cons_of_mem _ ho)⟩
    have h₁ := hwf hbs hex
    have hdead : ¬ m₂.Live p := fun hl => ((life_step h₁ hop.1 hstep).live_iff.mp hl).2.1 rfl
    have hrest : timerSet.exec m₂ es = some m' := by
      rw [heq] at hrun
      obtain ⟨m₃, hex₃, hrest⟩ := Lib.System.exec_append_eq_some.mp hrun
      obtain rfl : m₁ = m₃ := Option.some.inj (hex.symm.trans hex₃)
      obtain ⟨m₄, hstep₄, hrest⟩ := Option.bind_eq_some_iff.mp hrest
      obtain rfl : m₂ = m₄ := Option.some.inj (hstep.symm.trans hstep₄)
      exact hrest
    exact (dead_run (perform_voiced h₁ hop.2 hstep) hes hdead hrest).1
  · intro hrec bs es m₁ heq hex
    obtain ⟨hbs, -⟩ := hpre heq
    rw [cancelAnswer_iff (hwf hbs hex)]
    exact (oneShot_run h₀ hbs hlive (by rw [hderef]; exact hrec) hex).2
  · intro bs now tmp es m₁ heq hex
    obtain ⟨hbs, -⟩ := hpre heq
    exact List.nodup_iff_count_le_one.mp (expired_nodup (hwf hbs hex) now) p
  · intro hrec bs es m₁ heq hex hcancel
    obtain ⟨hbs, -⟩ := hpre heq
    exact ((hwf hbs hex).mem_iff p).mpr
      (recurring_run h₀ hbs hlive (by rw [hderef]; exact hrec) hcancel hex)

/-- A recurring timer fires, is moved by its own callback, fires again and is cancelled by it. -/
def recurringLife : List Op :=
  [.listExpiredCb 110 24, .call (.reset 16 20 true 111), .listExpiredCb 140 24,
    .call (.cancel 16), .listExpiredCb 200 24]

theorem timer_life_recurring :
    Life 16 true (some 1) ((new 100).addTimer 16 10 (some 1) true 100).1 recurringLife := by
  have hends : (timerSet.exec ((new 100).addTimer 16 10 (some 1) true 100).1
      recurringLife).isSome = true := by decide
  obtain ⟨m', hrun⟩ := Option.isSome_iff_exists.mp hends
  exact timer_life (.init ⟨100, rfl⟩) rfl rfl (by decide) hrun

end TimeManager

end Sylar.Timers
