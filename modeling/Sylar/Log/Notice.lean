/-
# Sylar.Log.Notice — which changes of the log configuration arrive (`g_log_defines` in `sylar/log.cc`).

`setValue` drops a set that compares equal to the one there is, and the comparison of two loggers does
not look at their appenders.  A set that does not compare equal goes to the listener, which goes through
a null pointer where a logger is as it was.  So a change arrives whole or not at all, and
`setValue_logs_iff` says when.
-/
import Sylar.Config.ConfigVar
import Sylar.Log.Reload

namespace Sylar.Log

open Sylar.Config (ConfigVar Outcome ValueType Yaml calls on_change_cb)

/-- `std::set<LogDefine>` as the type of a variable. -/
def logsType (yaml : Yaml) : ValueType LogSet where
  eq := LogSet.eq
  fromStr := decode yaml

variable {R : Type}

/-- The listener that `LogIniter` adds, beside what other listeners keep. -/
def logIniter : on_change_cb LogSet (LoggerManager × R) := fun old_value new_value s =>
  match on_logger_conf_changed old_value new_value s.1 with
  | some m => .returned (m, s.2)
  | none => .crashed

theorem logIniter_returned_iff {old_value new_value : LogSet} {s : LoggerManager × R} :
    (∃ r, logIniter old_value new_value s = .returned r) ↔
      ∀ i ∈ new_value,
        old_value.changed i = true ∧ ∀ a ∈ i.appenders, a.type = 1 ∨ a.type = 2 := by
  rw [← on_logger_conf_changed_isSome (m := s.1), logIniter]
  cases on_logger_conf_changed old_value new_value s.1 <;> simp

/-- Two sets of which no logger has stayed as it was are different in the code's own sense. -/
theorem LogSet.eq_false_of_changed {old_value new_value : LogSet} (hdiff : old_value ≠ new_value)
    (h : ∀ i ∈ new_value, old_value.changed i = true) : new_value.eq old_value = false := by
  rw [Bool.eq_false_iff]
  intro heq
  obtain ⟨hlen, hall⟩ := Bool.and_eq_true_iff.mp heq
  rw [List.all_eq_true] at hall
  obtain ⟨olds, holds⟩ := old_value
  obtain ⟨news, hnews⟩ := new_value
  cases news with
  | nil =>
      cases olds with
      | nil => exact hdiff rfl
      | cons j olds => cases hlen
  | cons i news =>
      cases olds with
      | nil => cases hlen
      | cons j olds =>
          have hij : i.eq j = true := hall (i, j) List.mem_cons_self
          exact changed_iff.mp (h i List.mem_cons_self) j List.mem_cons_self
            (LogDefine.eq_iff.mp hij)

/-- **The changes that arrive.**  A set that is not the one there is reaches every listener and is
stored, if and only if none of its loggers has the name, the level and the formatter of one there is,
and its appenders are files or `stdout`. -/
theorem setValue_logs_iff {yaml : Yaml} {var : ConfigVar LogSet (LoggerManager × R)}
    (hiniter : ∃ i ∈ var.m_cbs, i.2 = logIniter)
    (hothers : ∀ i ∈ var.m_cbs, i.2 = logIniter ∨
      ∀ old_value new_value s, ∃ r, i.2 old_value new_value s = .returned r)
    {new_value : LogSet} (hdiff : var.m_val ≠ new_value) (s : LoggerManager × R) :
    (∃ var' s', var.setValue (logsType yaml) new_value s = .returned (var', s') ∧
      var'.m_val = new_value ∧
      var'.notified = var.notified ++ calls var.m_cbs var.m_val new_value) ↔
    ∀ i ∈ new_value,
      (∀ j ∈ var.m_val, ¬ (i.name = j.name ∧ i.level = j.level ∧ i.formatter = j.formatter)) ∧
      ∀ a ∈ i.appenders, a.type = 1 ∨ a.type = 2 := by
  have hchanged : (∀ i ∈ new_value,
      (∀ j ∈ var.m_val, ¬ (i.name = j.name ∧ i.level = j.level ∧ i.formatter = j.formatter)) ∧
      ∀ a ∈ i.appenders, a.type = 1 ∨ a.type = 2) ↔
      ∀ i ∈ new_value, var.m_val.changed i = true ∧ ∀ a ∈ i.appenders, a.type = 1 ∨ a.type = 2 :=
    forall₂_congr fun i _ => and_congr_left' LogSet.changed_iff.symm
  rw [hchanged]
  constructor
  · rintro ⟨var', s', hset, hval, -⟩
    -- a set that compares equal would have left the old value
    have hne : (logsType yaml).eq new_value var.m_val = false := by
      rw [Bool.eq_false_iff]
      intro heq
      rw [ConfigVar.setValue_eq heq] at hset
      cases hset
      exact hdiff hval
    obtain ⟨⟨r, hr⟩, -⟩ := ConfigVar.setValue_returned hne hset
    obtain ⟨i, hi, heq⟩ := hiniter
    obtain ⟨t, t', ht⟩ := Sylar.Config.exists_returned_of_notify hr i hi
    rw [heq] at ht
    exact logIniter_returned_iff.mp ⟨t', ht⟩
  · intro h
    -- with no logger as it was, the code's comparison tells the sets apart
    have hne : (logsType yaml).eq new_value var.m_val = false :=
      LogSet.eq_false_of_changed hdiff fun i hi => (h i hi).1
    have hall : ∀ i ∈ var.m_cbs, ∀ s, ∃ r, i.2 var.m_val new_value s = .returned r := by
      intro i hi s
      rcases hothers i hi with heq | hreturns
      · rw [heq]
        exact logIniter_returned_iff.mpr h
      · exact hreturns _ _ s
    have hruns : ∃ r, var.setValue (logsType yaml) new_value s = .returned r :=
      ConfigVar.exists_setValue_returned hall
    obtain ⟨⟨var', s'⟩, hset⟩ := hruns
    obtain ⟨-, hval, hcalls⟩ := ConfigVar.setValue_returned hne hset
    exact ⟨var', s', hset, hval, hcalls⟩

/-- `g_log_defines` with the listener it has. -/
def g_log_defines (m_val : LogSet) : ConfigVar LogSet (LoggerManager × Unit) :=
  { m_val := m_val, m_cbs := [(1, logIniter)] }

/-- The first configuration arrives. -/
theorem setValue_logs_first :
    ∃ var' s', (g_log_defines .empty).setValue (logsType (oneDocument systemText .null))
        (systemLogger "%d%T%m%n" "") (.new, ()) = .returned (var', s') ∧
      var'.m_val = systemLogger "%d%T%m%n" "" ∧
      var'.notified = [] ++ calls [(1, (logIniter (R := Unit)))] .empty (systemLogger "%d%T%m%n" "") := by
  refine (setValue_logs_iff ⟨_, List.mem_cons_self, rfl⟩ ?_ ?_ _).mpr ?_
  · intro i hi
    obtain rfl := List.mem_singleton.mp hi
    exact .inl rfl
  · intro heq
    have := congrArg (fun v => v.elems.length) heq
    exact absurd this (by decide)
  · intro i hi
    refine ⟨?_, ?_⟩
    · intro j hj
      exact absurd hj List.not_mem_nil
    · intro a ha
      exact (systemLogger_valid _ _ i hi a ha).imp_right And.left

/-- Another formatter for the appender alone: nobody hears of it, and the old value stays. -/
theorem setValue_logs_ignored :
    systemLogger "%d%T%m%n" "" ≠ systemLogger "%d%T%m%n" "%m%n" ∧
    (g_log_defines (systemLogger "%d%T%m%n" "")).setValue
        (logsType (oneDocument systemText .null)) (systemLogger "%d%T%m%n" "%m%n") (.new, ())
      = .returned (g_log_defines (systemLogger "%d%T%m%n" ""), (.new, ())) := by
  constructor
  · intro heq
    have := congrArg LogSet.elems heq
    revert this
    decide
  · exact ConfigVar.setValue_eq (by decide) _

end Sylar.Log
