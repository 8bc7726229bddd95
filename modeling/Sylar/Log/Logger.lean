/-
# Sylar.Log.Logger — loggers and their appenders (`sylar/log.{h,cc}`).

Loggers hold appenders by pointer, and a logger hands its formatter on to those that have none of their
own.  The appenders stand in one list here, in the order they were made, and a pointer is a place in it.
What an appender writes, and the stream a `FileLogAppender` opens for it, are not in the model.

`Manages` is what holds of a manager whose loggers do not share appenders; then no call on one logger
shows in what another one does (`look_of_agree`).
-/
import Sylar.Log.Define
import Sylar.Log.Formatter
import Mathlib.Logic.Function.Basic

namespace Sylar.Log

/-! ## Appenders -/

/-- `FileLogAppender` or `StdoutLogAppender`. -/
inductive Output
  | file (m_filename : String)
  | stdout
  deriving DecidableEq, Repr

/-- `LogAppender`. -/
structure LogAppender where
  output : Output
  m_level : Level := .debug
  m_hasFormatter : Bool := false
  m_formatter : Option LogFormatter := none
  deriving DecidableEq, Repr

namespace LogAppender

/-- `LogAppender::setLevel`. -/
def setLevel (val : Level) (a : LogAppender) : LogAppender := { a with m_level := val }

/-- `LogAppender::setFormatter`. -/
def setFormatter (val : Option LogFormatter) (a : LogAppender) : LogAppender :=
  { a with m_formatter := val, m_hasFormatter := val.isSome }

/-- What `Logger::setFormatter` does to one of its appenders. -/
def inherit (val : LogFormatter) (a : LogAppender) : LogAppender :=
  if a.m_hasFormatter then a else { a with m_formatter := some val }

/-- What `Logger::addAppender` does to it. -/
def adopt (val : LogFormatter) (a : LogAppender) : LogAppender :=
  if a.m_formatter.isNone then { a with m_formatter := some val } else a

/-- Where it writes, from which level on, and in which pattern. -/
def look (a : LogAppender) : Output × Level × Option String :=
  (a.output, a.m_level, a.m_formatter.map LogFormatter.m_pattern)

end LogAppender

/-- The appenders made so far. -/
abbrev Appenders := List LogAppender

/-! ## Loggers -/

/-- `Logger`.  Its formatter is never null: the constructor sets one. -/
structure Logger where
  m_name : String
  m_level : Level
  m_appenders : List Nat
  m_formatter : LogFormatter

namespace Logger

/-- `Logger::Logger`. -/
def new (name : String) : Logger where
  m_name := name
  m_level := .debug
  m_appenders := []
  m_formatter := .new defaultPattern

/-- `Logger::setLevel`. -/
def setLevel (val : Level) (l : Logger) : Logger := { l with m_level := val }

/-- `Logger::setFormatter(LogFormatter::ptr)`. -/
def setFormatter (val : LogFormatter) (l : Logger) (as : Appenders) : Logger × Appenders :=
  ({ l with m_formatter := val },
    l.m_appenders.foldl (fun as p => as.modify p (LogAppender.inherit val)) as)

/-- `Logger::setFormatter(const std::string&)`. -/
def setFormatterText (val : String) (l : Logger) (as : Appenders) : Logger × Appenders :=
  let new_val := LogFormatter.new val
  if new_val.m_error then (l, as) else l.setFormatter new_val as

/-- `Logger::addAppender`. -/
def addAppender (appender : Nat) (l : Logger) (as : Appenders) : Logger × Appenders :=
  ({ l with m_appenders := l.m_appenders ++ [appender] },
    as.modify appender (LogAppender.adopt l.m_formatter))

/-- `Logger::clearAppenders`. -/
def clearAppenders (l : Logger) : Logger := { l with m_appenders := [] }

/-- The level, the pattern, and the appenders. -/
def look (l : Logger) (as : Appenders) :
    Level × String × List (Option (Output × Level × Option String)) :=
  (l.m_level, l.m_formatter.m_pattern, l.m_appenders.map fun p => as[p]?.map LogAppender.look)

theorem look_of_agree {l : Logger} {as as' : Appenders} (h : ∀ p ∈ l.m_appenders, as'[p]? = as[p]?) :
    l.look as' = l.look as := by
  unfold look
  congr 2
  refine List.map_congr_left ?_
  intro p hp
  rw [h p hp]

end Logger

/-- Handing a formatter on makes no appender and loses none. -/
theorem length_foldl_modify (f : LogAppender → LogAppender) (ps : List Nat) (as : Appenders) :
    (ps.foldl (fun as p => as.modify p f) as).length = as.length := by
  induction ps generalizing as with
  | nil => rfl
  | cons p ps ih =>
      rw [List.foldl_cons, ih]
      exact List.length_modify ..

/-- It concerns the logger's own appenders only. -/
theorem getElem?_foldl_modify {f : LogAppender → LogAppender} {ps : List Nat} {p : Nat}
    (hp : p ∉ ps) (as : Appenders) : (ps.foldl (fun as p => as.modify p f) as)[p]? = as[p]? := by
  induction ps generalizing as with
  | nil => rfl
  | cons q ps ih =>
      have hq : q ≠ p := fun h => hp (h ▸ List.mem_cons_self)
      rw [List.foldl_cons, ih fun h => hp (List.mem_cons_of_mem q h)]
      exact List.getElem?_modify_ne f as hq

/-! ## The manager -/

/-- `LoggerManager`; `m_root` is the logger named `root`. -/
structure LoggerManager where
  m_loggers : String → Option Logger
  appenders : Appenders

namespace LoggerManager

/-- What a pointer to a logger is written through. -/
def put (name : String) (l : Logger × Appenders) (m : LoggerManager) : LoggerManager where
  m_loggers := Function.update m.m_loggers name (some l.1)
  appenders := l.2

/-- `LoggerManager::LoggerManager`. -/
def new : LoggerManager :=
  LoggerManager.put "root" ((Logger.new "root").addAppender 0 [{ output := .stdout }])
    { m_loggers := fun _ => none, appenders := [] }

/-- `LoggerManager::getLogger`. -/
def getLogger (name : String) (m : LoggerManager) : Logger × LoggerManager :=
  match m.m_loggers name with
  | some logger => (logger, m)
  | none => (Logger.new name, m.put name (Logger.new name, m.appenders))

/-- The logger a pointer from `getLogger` leads to. -/
def logger (name : String) (m : LoggerManager) : Logger :=
  (m.m_loggers name).getD (Logger.new name)

@[simp] theorem getLogger_fst (name : String) (m : LoggerManager) :
    (m.getLogger name).1 = m.logger name := by
  unfold getLogger logger
  cases m.m_loggers name <;> rfl

@[simp] theorem getLogger_appenders (name : String) (m : LoggerManager) :
    (m.getLogger name).2.appenders = m.appenders := by
  unfold getLogger
  cases m.m_loggers name <;> rfl

/-- To ask for a logger changes none. -/
@[simp] theorem logger_getLogger (name other : String) (m : LoggerManager) :
    (m.getLogger name).2.logger other = m.logger other := by
  cases h : m.m_loggers name with
  | some logger => simp [getLogger, h]
  | none =>
      by_cases hother : other = name
      · subst hother
        simp [getLogger, logger, put, h]
      · simp [getLogger, logger, put, h, hother]

/-- Who writes through the pointer need not know whether the logger was there. -/
@[simp] theorem put_getLogger (name : String) (l : Logger × Appenders) (m : LoggerManager) :
    (m.getLogger name).2.put name l = m.put name l := by
  unfold getLogger
  cases m.m_loggers name with
  | some logger => rfl
  | none => simp [put]

@[simp] theorem logger_put_self (name : String) (l : Logger × Appenders) (m : LoggerManager) :
    (m.put name l).logger name = l.1 := by
  simp [logger, put]

theorem logger_put_ne {name other : String} (h : other ≠ name) (l : Logger × Appenders)
    (m : LoggerManager) : (m.put name l).logger other = m.logger other := by
  simp [logger, put, h]

@[simp] theorem put_appenders (name : String) (l : Logger × Appenders) (m : LoggerManager) :
    (m.put name l).appenders = l.2 := rfl

/-- A logger as it stands. -/
def look (name : String) (m : LoggerManager) :
    Level × String × List (Option (Output × Level × Option String)) :=
  (m.logger name).look m.appenders

/-- The pattern of a logger. -/
def pattern (name : String) (m : LoggerManager) : String := (m.logger name).m_formatter.m_pattern

theorem pattern_of_look {name : String} {m n : LoggerManager} (h : m.look name = n.look name) :
    m.pattern name = n.pattern name := congrArg (fun x => x.2.1) h

/-! ## Loggers that do not share appenders -/

/-- No appender belongs to two loggers. -/
structure Manages (m : LoggerManager) : Prop where
  made : ∀ name, ∀ p ∈ (m.logger name).m_appenders, p < m.appenders.length
  own : ∀ name other, name ≠ other → ∀ p ∈ (m.logger name).m_appenders,
    p ∉ (m.logger other).m_appenders

end LoggerManager

/-- What a call on the logger `l` leaves alone, and the appenders it ends with. -/
structure Logger.Confined (l : Logger) (as : Appenders) (l' : Logger × Appenders) : Prop where
  grows : as.length ≤ l'.2.length
  kept : ∀ p < as.length, p ∉ l.m_appenders → l'.2[p]? = as[p]?
  made : ∀ p ∈ l'.1.m_appenders, p < l'.2.length
  own : ∀ p ∈ l'.1.m_appenders, p ∈ l.m_appenders ∨ as.length ≤ p

namespace LoggerManager.Manages

variable {m : LoggerManager} {name other : String} {l : Logger × Appenders}

theorem put (h : m.Manages) (hl : (m.logger name).Confined m.appenders l) :
    (m.put name l).Manages := by
  -- an appender of the changed logger is its own or new, so no other logger has it
  have hother : ∀ n, n ≠ name → ∀ p ∈ (m.logger n).m_appenders, p ∉ l.1.m_appenders := by
    intro n hn p hp hp'
    rcases hl.own p hp' with hown | hnew
    · exact h.own n name hn p hp hown
    · have := h.made n p hp
      omega
  constructor
  · intro n p hp
    by_cases hn : n = name
    · subst hn
      rw [logger_put_self] at hp
      exact hl.made p hp
    · rw [logger_put_ne hn] at hp
      exact lt_of_lt_of_le (h.made n p hp) hl.grows
  · intro n n' hne p hp hp'
    by_cases hn : n = name
    · subst hn
      rw [logger_put_self] at hp
      rw [logger_put_ne (Ne.symm hne)] at hp'
      exact hother n' (Ne.symm hne) p hp' hp
    · rw [logger_put_ne hn] at hp
      by_cases hn' : n' = name
      · subst hn'
        rw [logger_put_self] at hp'
        exact hother n hn p hp hp'
      · rw [logger_put_ne hn'] at hp'
        exact h.own n n' hne p hp hp'

/-- No other logger looks different. -/
theorem look_put_ne (h : m.Manages) (hl : (m.logger name).Confined m.appenders l)
    (hne : other ≠ name) : (m.put name l).look other = m.look other := by
  unfold look
  rw [logger_put_ne hne]
  refine Logger.look_of_agree ?_
  intro p hp
  exact hl.kept p (h.made other p hp) (h.own other name hne p hp)

end LoggerManager.Manages

theorem LoggerManager.manages_new : LoggerManager.new.Manages := by
  have hnone : ({ m_loggers := fun _ => none, appenders := [] } : LoggerManager).Manages := by
    constructor
    · intro name p hp
      exact absurd hp List.not_mem_nil
    · intro name other _ p hp
      exact absurd hp List.not_mem_nil
  refine hnone.put ?_
  constructor
  · exact Nat.zero_le _
  · intro p hp
    exact absurd hp (Nat.not_lt_zero p)
  · decide
  · intro p _
    exact .inr (Nat.zero_le p)

end Sylar.Log
