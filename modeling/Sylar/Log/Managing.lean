/-
# Sylar.Log.Managing — a log manager under any calls.

`LoggerManager` with the calls a program makes on it, on its loggers and on their appenders, and the
listener that configures it, in any order.  `Sound` holds of every manager they lead to: its loggers are
found under their own names, the names can be listed as a `std::map` lists them, and no logger points to
an appender that was not made.
-/
import Sylar.Log.Inherit
import Sylar.Log.Reload

namespace Sylar.Log

open Lib (Ordered insertBy)

/-! ## The calls -/

/-- A call on the manager, on the logger of a name, or on an appender.  A formatter is made from its
pattern, be it a good one or not. -/
inductive ManagerCall
  /-- A new `FileLogAppender` or `StdoutLogAppender`. -/
  | make (output : Output)
  /-- `LogAppender::setLevel`. -/
  | setAppenderLevel (appender : Nat) (val : Level)
  /-- `LogAppender::setFormatter`. -/
  | setAppenderFormatter (appender : Nat) (val : Option String)
  | getLogger (name : String)
  | setLevel (name : String) (val : Level)
  | setFormatter (name : String) (val : String)
  | setFormatterText (name : String) (val : String)
  | addAppender (name : String) (appender : Nat)
  | delAppender (name : String) (appender : Nat)
  | clearAppenders (name : String)
  /-- The listener of `g_log_defines`. -/
  | configure (old_value new_value : LogSet)

namespace LoggerManager

/-- A call through the pointer that `getLogger` returns. -/
def through (name : String) (f : Logger → Appenders → Logger × Appenders) (m : LoggerManager) :
    LoggerManager :=
  let logger := m.getLogger name
  logger.2.put name (f logger.1 logger.2.appenders)

theorem through_eq (name : String) (f : Logger → Appenders → Logger × Appenders) (m : LoggerManager) :
    m.through name f = m.put name (f (m.logger name) m.appenders) := by
  simp [through]

/-- A call, with an appender that has been made. -/
def step (m : LoggerManager) : ManagerCall → Option LoggerManager
  | .make output => some { m with appenders := m.appenders ++ [{ output := output }] }
  | .setAppenderLevel p val =>
      Lib.guarded (p < m.appenders.length)
        { m with appenders := m.appenders.modify p (LogAppender.setLevel val) }
  | .setAppenderFormatter p val =>
      Lib.guarded (p < m.appenders.length)
        { m with appenders := m.appenders.modify p (LogAppender.setFormatter (val.map .new)) }
  | .getLogger name => some (m.getLogger name).2
  | .setLevel name val => some (m.through name fun l as => (l.setLevel val, as))
  | .setFormatter name val => some (m.through name fun l as => l.setFormatter (.new val) as)
  | .setFormatterText name val => some (m.through name fun l as => l.setFormatterText val as)
  | .addAppender name p =>
      Lib.guarded (p < m.appenders.length) (m.through name fun l as => l.addAppender p as)
  | .delAppender name p => some (m.through name fun l as => (l.delAppender p, as))
  | .clearAppenders name => some (m.through name fun l as => (l.clearAppenders, as))
  | .configure old_value new_value => on_logger_conf_changed old_value new_value m

end LoggerManager

/-- All sequences of calls on the manager of a process. -/
def managing : Lib.System LoggerManager ManagerCall where
  init m := m = .new
  step m c := m.step c

/-! ## What holds of every manager -/

/-- The keys of `m_loggers`, in their order. -/
structure LoggerManager.Names (m : LoggerManager) (names : List String) : Prop where
  ordered : Ordered id names
  mem_iff : ∀ name, name ∈ names ↔ (m.m_loggers name).isSome = true

/-- A manager as it can be. -/
structure LoggerManager.Sound (m : LoggerManager) : Prop where
  listed : ∃ names, m.Names names
  named : ∀ name, (m.logger name).m_name = name
  made : ∀ name, ∀ p ∈ (m.logger name).m_appenders, p < m.appenders.length
  /-- Set by the constructor. -/
  root : (m.m_loggers "root").isSome = true

/-- What a call on the logger `l` may end with. -/
structure Logger.Leads (l : Logger) (as : Appenders) (l' : Logger × Appenders) : Prop where
  name : l'.1.m_name = l.m_name
  grows : as.length ≤ l'.2.length
  made : ∀ p ∈ l'.1.m_appenders, p < l'.2.length

/-- A logger that is written through is there. -/
theorem LoggerManager.isSome_put {m : LoggerManager} {name n : String} {l : Logger × Appenders} :
    ((m.put name l).m_loggers n).isSome = true ↔ n = name ∨ (m.m_loggers n).isSome = true := by
  by_cases hn : n = name
  · subst hn
    simp [LoggerManager.put]
  · simp [LoggerManager.put, hn]

namespace LoggerManager.Sound

variable {m m' : LoggerManager} {name : String} {l : Logger × Appenders}

/-- What is written through a pointer. -/
theorem put (h : m.Sound) (hl : (m.logger name).Leads m.appenders l) : (m.put name l).Sound := by
  refine ⟨?_, ?_, ?_, ?_⟩
  · obtain ⟨names, hnames⟩ := h.listed
    by_cases hin : name ∈ names
    · refine ⟨names, hnames.ordered, ?_⟩
      intro n
      rw [isSome_put, hnames.mem_iff]
      constructor
      · exact .inr
      · rintro (rfl | hn)
        · exact (hnames.mem_iff n).mp hin
        · exact hn
    · refine ⟨insertBy id name names, hnames.ordered.insertBy, ?_⟩
      intro n
      rw [isSome_put, ← hnames.mem_iff]
      refine Lib.mem_insertBy ?_
      rintro q hq rfl
      exact hin hq
  · intro n
    by_cases hn : n = name
    · subst hn
      rw [logger_put_self, hl.name]
      exact h.named n
    · rw [logger_put_ne hn]
      exact h.named n
  · intro n p hp
    by_cases hn : n = name
    · subst hn
      rw [logger_put_self] at hp
      exact hl.made p hp
    · rw [logger_put_ne hn] at hp
      exact lt_of_lt_of_le (h.made n p hp) hl.grows
  · exact isSome_put.mpr (.inr h.root)

theorem through (h : m.Sound) {f : Logger → Appenders → Logger × Appenders}
    (hf : (m.logger name).Leads m.appenders (f (m.logger name) m.appenders)) :
    (m.through name f).Sound := by
  rw [through_eq]
  exact h.put hf

/-- A call on the logger that leaves it the appenders it has, or fewer. -/
theorem leads (h : m.Sound) (name : String) {l : Logger × Appenders}
    (hname : l.1.m_name = (m.logger name).m_name) (hlen : l.2.length = m.appenders.length)
    (hsub : ∀ p ∈ l.1.m_appenders, p ∈ (m.logger name).m_appenders) :
    (m.logger name).Leads m.appenders l := by
  refine ⟨hname, le_of_eq hlen.symm, ?_⟩
  intro p hp
  rw [hlen]
  exact h.made name p (hsub p hp)

theorem setFormatter_leads (h : m.Sound) (name : String) (val : LogFormatter) :
    (m.logger name).Leads m.appenders ((m.logger name).setFormatter val m.appenders) :=
  h.leads name rfl (length_foldl_modify _ _ _) fun _ hp => hp

/-- A call on the appenders alone. -/
theorem appenders (h : m.Sound) {as : Appenders} (has : m.appenders.length ≤ as.length) :
    ({ m with appenders := as } : LoggerManager).Sound :=
  ⟨h.listed.imp fun _ hnames => ⟨hnames.ordered, hnames.mem_iff⟩, h.named,
    fun name p hp => lt_of_lt_of_le (h.made name p hp) has, h.root⟩

theorem getLogger (h : m.Sound) (name : String) : (m.getLogger name).2.Sound := by
  unfold LoggerManager.getLogger
  cases hm : m.m_loggers name with
  | some logger => exact h
  | none =>
      have hnew : m.logger name = Logger.new name := by
        rw [LoggerManager.logger, hm, Option.getD_none]
      refine h.put ⟨?_, Nat.le_refl _, ?_⟩
      · rw [hnew]
      · intro p hp
        exact absurd hp List.not_mem_nil

end LoggerManager.Sound

/-! ## The listener -/

theorem LogDefine.giveFormatter_name (i : LogDefine) (l : Logger) (as : Appenders) :
    (i.giveFormatter l as).1.m_name = l.m_name := by
  unfold giveFormatter
  split
  · unfold Logger.setFormatterText
    dsimp only
    split <;> rfl
  · rfl

theorem foldlM_addDefined_name {is : List LogAppenderDefine} {l l' : Logger × Appenders}
    (h : is.foldlM addDefined l = some l') : l'.1.m_name = l.1.m_name := by
  induction is generalizing l with
  | nil =>
      obtain rfl : l = l' := by simpa using h
      rfl
  | cons a is ih =>
      rw [List.foldlM_cons] at h
      obtain ⟨l₁, hround, hrest⟩ := Option.bind_eq_some_iff.mp h
      obtain ⟨ap, -, rfl⟩ := Option.map_eq_some_iff.mp hround
      rw [ih hrest]
      rfl

theorem LogDefine.configure_leads {i : LogDefine} {l : Logger} {as : Appenders}
    {l' : Logger × Appenders} (h : i.configure l as = some l') : l.Leads as l' := by
  obtain ⟨hconfined, -⟩ := LogDefine.configure_spec h
  refine ⟨?_, hconfined.grows, hconfined.made⟩
  rw [foldlM_addDefined_name h]
  exact i.giveFormatter_name (l.setLevel i.level) as

namespace LoggerManager.Sound

variable {m m' : LoggerManager} {old_value new_value : LogSet}

theorem onNew {i : LogDefine} (h : m.Sound) (hround : Log.onNew old_value m i = some m') :
    m'.Sound := by
  unfold Log.onNew at hround
  split at hround
  · simp only [getLogger_fst, getLogger_appenders, put_getLogger] at hround
    obtain ⟨l, hl, rfl⟩ := Option.map_eq_some_iff.mp hround
    exact h.put (LogDefine.configure_leads hl)
  · cases hround

theorem onOld (h : m.Sound) (new_value : LogSet) (i : LogDefine) :
    (Log.onOld new_value m i).Sound := by
  unfold Log.onOld
  cases new_value.find i with
  | some it => exact h
  | none =>
      simp only [getLogger_fst, getLogger_appenders, put_getLogger]
      refine h.put (h.leads i.name rfl rfl ?_)
      intro p hp
      exact absurd hp List.not_mem_nil

theorem foldlM_onNew {is : List LogDefine} (h : m.Sound)
    (hrun : is.foldlM (Log.onNew old_value) m = some m') : m'.Sound := by
  induction is generalizing m with
  | nil =>
      obtain rfl : m = m' := by simpa using hrun
      exact h
  | cons i is ih =>
      rw [List.foldlM_cons] at hrun
      obtain ⟨m₁, hround, hrest⟩ := Option.bind_eq_some_iff.mp hrun
      exact ih (h.onNew hround) hrest

theorem foldl_onOld (is : List LogDefine) (h : m.Sound) (new_value : LogSet) :
    (is.foldl (Log.onOld new_value) m).Sound := by
  induction is generalizing m with
  | nil => exact h
  | cons i is ih => exact ih (h.onOld new_value i)

theorem configure (h : m.Sound) (hrun : on_logger_conf_changed old_value new_value m = some m') :
    m'.Sound := by
  obtain ⟨m₁, hnew, rfl⟩ := Option.map_eq_some_iff.mp hrun
  exact (h.foldlM_onNew hnew).foldl_onOld old_value.elems new_value

/-- **The step lemma.** -/
theorem step {c : ManagerCall} (h : m.Sound) (hstep : m.step c = some m') : m'.Sound := by
  cases c with
  | make output =>
      obtain rfl := Option.some.inj hstep
      refine h.appenders ?_
      rw [List.length_append]
      exact Nat.le_add_right ..
  | setAppenderLevel p val =>
      obtain ⟨-, rfl⟩ := Lib.guarded_eq_some.mp hstep
      exact h.appenders (le_of_eq (List.length_modify ..).symm)
  | setAppenderFormatter p val =>
      obtain ⟨-, rfl⟩ := Lib.guarded_eq_some.mp hstep
      exact h.appenders (le_of_eq (List.length_modify ..).symm)
  | getLogger name =>
      obtain rfl := Option.some.inj hstep
      exact h.getLogger name
  | setLevel name val =>
      obtain rfl := Option.some.inj hstep
      exact h.through (h.leads name rfl rfl fun _ hp => hp)
  | setFormatter name val =>
      obtain rfl := Option.some.inj hstep
      exact h.through (h.setFormatter_leads name (.new val))
  | setFormatterText name val =>
      obtain rfl := Option.some.inj hstep
      refine h.through ?_
      unfold Logger.setFormatterText
      dsimp only
      split
      · exact h.leads name rfl rfl fun _ hp => hp
      · exact h.setFormatter_leads name _
  | addAppender name p =>
      obtain ⟨hp, rfl⟩ := Lib.guarded_eq_some.mp hstep
      have hlen : (m.appenders.modify p (LogAppender.adopt (m.logger name).m_formatter)).length
          = m.appenders.length := List.length_modify ..
      refine h.through ⟨rfl, le_of_eq hlen.symm, ?_⟩
      intro q hq
      show q < (m.appenders.modify p _).length
      rw [hlen]
      rcases List.mem_append.mp hq with hq | hq
      · exact h.made name q hq
      · obtain rfl := List.mem_singleton.mp hq
        exact hp
  | delAppender name p =>
      obtain rfl := Option.some.inj hstep
      exact h.through (h.leads name rfl rfl fun _ hp => List.mem_of_mem_erase hp)
  | clearAppenders name =>
      obtain rfl := Option.some.inj hstep
      exact h.through (h.leads name rfl rfl fun _ hp => absurd hp List.not_mem_nil)
  | configure old_value new_value => exact h.configure hstep

theorem new : LoggerManager.new.Sound := by
  have hlogger : LoggerManager.new.logger "root"
      = ((Logger.new "root").addAppender 0 [{ output := .stdout }]).1 := logger_put_self ..
  have hother : ∀ name, name ≠ "root" → LoggerManager.new.logger name = Logger.new name :=
    fun name hname => logger_put_ne hname _ _
  refine ⟨⟨["root"], List.pairwise_singleton _ _, ?_⟩, ?_, ?_, rfl⟩
  · intro name
    rw [List.mem_singleton]
    by_cases hname : name = "root"
    · subst hname
      simp [LoggerManager.new, LoggerManager.put]
    · simp [LoggerManager.new, LoggerManager.put, hname]
  · intro name
    by_cases hname : name = "root"
    · subst hname
      rw [hlogger]
      rfl
    · rw [hother name hname]
      rfl
  · exact LoggerManager.manages_new.made

end LoggerManager.Sound

/-- **Every manager is sound.** -/
theorem sound_of_reachable {m : LoggerManager} (h : managing.Reachable m) : m.Sound :=
  h.invariant (fun _ h0 => h0 ▸ .new) fun _ _ _ hs hstep => hs.step hstep

end Sylar.Log
