/-
# Sylar.Log.Route — where the lines of an event go (`Logger::log` in `sylar/log.cc`).

A logger passes an event to its appenders, and where it has none, to `root`; each of the loggers and
appenders on the way compares levels.  `log_of_reloads` computes the lines from the configurations a
process has had.  A logger that is taken out of the configuration does not fall silent: the listener
leaves it with the level `UNKNOW` and without appenders, so whatever it logs goes to `root`.
-/
import Sylar.Log.Inherit
import Sylar.Log.Reload

namespace Sylar.Log

/-! ## Logging -/

/-- The loop over `m_appenders`: where a line is written, and the formatter that makes it. -/
def Logger.write (level : Level) (l : Logger) (as : Appenders) : Option (List (Output × LogFormatter)) :=
  (l.m_appenders.mapM fun p => as[p]?.bind fun i =>
    (i.log level).map fun f => f.map fun f => (i.output, f)).map List.reduceOption

/-- `Logger::log`; behind the logger stands the chain of its `m_root`s. -/
def Logger.log (level : Level) (as : Appenders) :
    Logger → List Logger → Option (List (Output × LogFormatter))
  | l, m_root =>
      if l.m_level.value ≤ level.value then
        if l.m_appenders ≠ [] then l.write level as
        else
          match m_root with
          | root :: m_root => root.log level as m_root
          | [] => some []
      else some []

namespace LoggerManager

/-- `Logger::log` of the logger with this name.  `getLogger` gives every logger it makes the manager's
`m_root`, which has none itself. -/
def log (level : Level) (name : String) (m : LoggerManager) : Option (List (Output × LogFormatter)) :=
  (m.logger name).log level m.appenders (if name = "root" then [] else [m.logger "root"])

/-- `SYLAR_LOG_LEVEL`: an event that is below the level is not made. -/
def logLevel (level : Level) (name : String) (m : LoggerManager) :
    Option (List (Output × LogFormatter)) :=
  if (m.logger name).m_level.value ≤ level.value then m.log level name else some []

/-- The macro saves the event, and no line. -/
theorem logLevel_eq_log (level : Level) (name : String) (m : LoggerManager) :
    m.logLevel level name = m.log level name := by
  unfold logLevel
  split
  · rfl
  · rename_i hlevel
    unfold log Logger.log
    rw [if_neg hlevel]

end LoggerManager

/-! ## The lines, from what the loggers look like -/

/-- The lines of an event, given the appenders with their levels and patterns. -/
def linesOf (level : Level) (as : List (Output × Level × String)) : List (Output × String) :=
  (as.filter fun a => a.2.1.value ≤ level.value).map fun a => (a.1, a.2.2)

/-- A line with the pattern of its formatter. -/
def line (w : Output × LogFormatter) : Output × String := (w.1, w.2.m_pattern)

/-- The loop, over appenders that have formatters. -/
theorem write_of_look {level : Level} {as : Appenders} : ∀ {l : Logger} {xs : List (Output × Level × String)},
    l.m_appenders.map (fun p => as[p]?.map LogAppender.look)
      = xs.map (fun a => some (a.1, a.2.1, some a.2.2)) →
    (l.write level as).map (List.map line) = some (linesOf level xs) := by
  intro l
  obtain ⟨name, lv, ps, fmt⟩ := l
  induction ps with
  | nil =>
      intro xs h
      obtain rfl : xs = [] := by simpa using h.symm
      rfl
  | cons p ps ih =>
      intro xs h
      cases xs with
      | nil => simp at h
      | cons x xs =>
          obtain ⟨hp, hps⟩ := List.cons.inj h
          obtain ⟨i, hi, hlook⟩ := Option.map_eq_some_iff.mp hp
          have hlevel : i.m_level = x.2.1 := congrArg (fun y => y.2.1) hlook
          have houtput : i.output = x.1 := congrArg (fun y => y.1) hlook
          obtain ⟨f, hf, hpattern⟩ := Option.map_eq_some_iff.mp (congrArg (fun y => y.2.2) hlook)
          obtain ⟨ws, hws, hlines⟩ := Option.map_eq_some_iff.mp (ih hps)
          obtain ⟨os, hos, rfl⟩ := Option.map_eq_some_iff.mp hws
          unfold Logger.write linesOf
          dsimp only at hos ⊢
          rw [List.mapM_cons, hos, hi, Option.bind_some, LogAppender.log, hf, hlevel]
          by_cases hl : x.2.1.value ≤ level.value
          · rw [if_pos hl, List.filter_cons_of_pos (by simpa using hl), List.map_cons, ← linesOf,
              ← hlines, ← hpattern, ← houtput]
            rfl
          · rw [if_neg hl, List.filter_cons_of_neg (by simpa using hl), ← linesOf, ← hlines]
            rfl

/-! ## The loggers after any configurations -/

/-- Whether the configuration has a logger of this name. -/
def LogSet.has (v : LogSet) (name : String) : Bool := v.elems.any fun i => i.name = name

theorem LogSet.has_eq_true_iff {v : LogSet} {name : String} :
    v.has name = true ↔ ∃ i ∈ v, i.name = name := by
  simp only [has, List.any_eq_true, decide_eq_true_eq]
  rfl

theorem LogSet.has_eq_false_iff {v : LogSet} {name : String} :
    v.has name = false ↔ ∀ i ∈ v, i.name ≠ name := by
  rw [← Bool.not_eq_true, has_eq_true_iff]
  push Not
  rfl

/-- What a logger has, beside its pattern: a level and appenders. -/
def placed (vs : List LogSet) (name : String) : Level × List (Output × Level × String) :=
  match (vs.getLastD .empty).elems.find? fun i => i.name = name with
  | some i =>
      (i.level, i.appenders.map fun a =>
        (if a.type = 1 then .file a.file else .stdout, a.level,
          (usable a.formatter).getD (carried vs name)))
  | none =>
      -- taken out, or never there
      if vs.any fun v => v.has name then (.unknow, [])
      else (.debug, if name = "root" then [(.stdout, .debug, defaultPattern)] else [])

/-- The loggers that are not in the configuration `v`, where those in `seen` have once been. -/
structure Leaves (seen : String → Bool) (v : LogSet) (m : LoggerManager) : Prop where
  known : ∀ i ∈ v, seen i.name = true
  gone : ∀ name, seen name = true → v.has name = false → m.look name = (.unknow, m.pattern name, [])
  fresh : ∀ name, seen name = false → m.look name = LoggerManager.new.look name

/-- A logger that is gone is emptied; any other stays. -/
theorem onOld_look {m : LoggerManager} (hm : m.Manages) {new_value : LogSet} {i : LogDefine} {name : String}
    (hname : new_value.has name = false) : (onOld new_value m i).look name
      = if i.name = name then (.unknow, m.pattern name, []) else m.look name := by
  unfold onOld
  cases hfind : new_value.find i with
  | some it =>
      obtain ⟨hit, hiname⟩ := LogSet.find_eq_some_iff.mp hfind
      rw [if_neg ?_]
      rintro rfl
      exact LogSet.has_eq_false_iff.mp hname it hit hiname
  | none =>
      simp only [LoggerManager.getLogger_fst, LoggerManager.getLogger_appenders,
        LoggerManager.put_getLogger]
      by_cases hi : i.name = name
      · subst hi
        rw [if_pos rfl, LoggerManager.look, LoggerManager.logger_put_self]
        rfl
      · rw [if_neg hi]
        refine hm.look_put_ne ?_ (Ne.symm hi)
        constructor
        · exact Nat.le_refl _
        · intro p _ _
          rfl
        · intro p hp
          exact absurd hp List.not_mem_nil
        · intro p hp
          exact absurd hp List.not_mem_nil

theorem foldl_onOld_look {new_value : LogSet} {name : String} (hname : new_value.has name = false)
    (is : List LogDefine) {m : LoggerManager} (hm : m.Manages) :
    (is.foldl (onOld new_value) m).look name
      = if ∃ i ∈ is, i.name = name then (.unknow, m.pattern name, []) else m.look name := by
  induction is generalizing m with
  | nil => simp
  | cons i is ih =>
      obtain ⟨hm₁, hpattern, -⟩ := onOld_spec new_value i hm
      rw [List.foldl_cons, ih hm₁, hpattern, onOld_look hm hname]
      by_cases hi : i.name = name
      · simp [hi]
      · simp [hi]

/-- One configuration more. -/
theorem Leaves.step {seen : String → Bool} {old_value new_value : LogSet} {m m' : LoggerManager}
    (hm : m.Manages) (h : Leaves seen old_value m)
    (hrun : on_logger_conf_changed old_value new_value m = some m') :
    Leaves (fun name => seen name || new_value.has name) new_value m' := by
  obtain ⟨m₁, hnew, rfl⟩ := Option.map_eq_some_iff.mp hrun
  obtain ⟨hm₁, -, hother⟩ := foldlM_onNew new_value.ordered hm hnew
  obtain ⟨-, hpattern, -⟩ := foldl_onOld new_value old_value.elems hm₁
  refine ⟨?_, ?_, ?_⟩
  · intro i hi
    rw [LogSet.has_eq_true_iff.mpr ⟨i, hi, rfl⟩, Bool.or_true]
  · intro name hseen hname
    rw [hname, Bool.or_false] at hseen
    rw [foldl_onOld_look hname _ hm₁, hpattern]
    split
    · rfl
    · rename_i hold
      have hlook : m₁.look name = m.look name := hother name (LogSet.has_eq_false_iff.mp hname)
      have hgone := h.gone name hseen (LogSet.has_eq_false_iff.mpr fun i hi he => hold ⟨i, hi, he⟩)
      rw [hlook, hgone, LoggerManager.pattern_of_look hlook]
  · intro name hseen
    obtain ⟨hseen, hname⟩ := Bool.or_eq_false_iff.mp hseen
    rw [foldl_onOld_look hname _ hm₁, if_neg ?_, hother name (LogSet.has_eq_false_iff.mp hname)]
    · exact h.fresh name hseen
    · rintro ⟨i, hi, rfl⟩
      rw [h.known i hi] at hseen
      cases hseen

theorem Leaves.run {vs : List LogSet} {seen : String → Bool} {s s' : LogSet × LoggerManager}
    {patterns : String → String} (hs : Stands s.1 patterns s.2) (h : Leaves seen s.1 s.2)
    (hrun : vs.foldlM (fun s v => (on_logger_conf_changed s.1 v s.2).map fun m => (v, m)) s
      = some s') : Leaves (fun name => seen name || vs.any fun v => v.has name) s'.1 s'.2 := by
  induction vs generalizing s seen patterns with
  | nil =>
      obtain rfl : s = s' := by simpa using hrun
      simpa using h
  | cons v vs ih =>
      rw [List.foldlM_cons] at hrun
      obtain ⟨s₁, hround, hrest⟩ := Option.bind_eq_some_iff.mp hrun
      obtain ⟨m₁, hm₁, rfl⟩ := Option.map_eq_some_iff.mp hround
      have hstep := ih (s := (v, m₁)) (hs.step hm₁) (h.step hs.manages hm₁) hrest
      simpa only [List.any_cons, Bool.or_assoc] using hstep

theorem leaves_new : Leaves (fun _ => false) .empty .new := by
  refine ⟨?_, ?_, fun _ _ => rfl⟩
  · intro i hi
    exact absurd hi List.not_mem_nil
  · intro name hseen
    cases hseen

/-- **All loggers, after any run**, those that were taken out and those that were never there too. -/
theorem look_of_history {vs : List LogSet} {m : LoggerManager} (h : reloads vs = some m) (name : String) :
    m.look name = ((placed vs name).1, m.pattern name,
      (placed vs name).2.map fun a => some (a.1, a.2.1, some a.2.2)) := by
  obtain ⟨s', hrun, rfl⟩ := Option.map_eq_some_iff.mp h
  obtain ⟨hlast, hstands⟩ := stands_new.run (s := (.empty, .new)) hrun
  have hleaves := leaves_new.run (s := (.empty, .new)) stands_new hrun
  dsimp only at hlast
  have hplaced : placed vs name = match s'.1.elems.find? fun i => i.name = name with
      | some i =>
          (i.level, i.appenders.map fun a =>
            (if a.type = 1 then .file a.file else .stdout, a.level,
              (usable a.formatter).getD (carried vs name)))
      | none =>
          if vs.any fun v => v.has name then (.unknow, [])
          else (.debug, if name = "root" then [(.stdout, .debug, defaultPattern)] else []) := by
    rw [hlast]
    rfl
  rw [hplaced]
  cases hfind : s'.1.elems.find? fun i => i.name = name with
  | some i =>
      have hi : i ∈ s'.1 := List.mem_of_find?_eq_some hfind
      have hiname : i.name = name := by simpa using List.find?_some hfind
      have hlook := hstands.look i hi
      have hpattern := hstands.pattern i.name
      subst hiname
      rw [hlook, hpattern]
      unfold LogDefine.look
      rw [List.map_map]
      rfl
  | none =>
      have hname : s'.1.has name = false := by
        rw [LogSet.has_eq_false_iff]
        intro i hi
        simpa using List.find?_eq_none.mp hfind i hi
      by_cases hseen : (vs.any fun v => v.has name) = true
      · rw [if_pos hseen]
        exact hleaves.gone name (by simpa using hseen) hname
      · have hfresh := hleaves.fresh name (by simpa using hseen)
        rw [if_neg hseen, hfresh, LoggerManager.pattern_of_look hfresh]
        by_cases hroot : name = "root"
        · subst hroot
          rfl
        · have hlogger : LoggerManager.new.logger name = Logger.new name :=
            LoggerManager.logger_put_ne hroot _ _
          unfold LoggerManager.look LoggerManager.pattern
          rw [hlogger, if_neg hroot]
          rfl

/-! ## The lines of an event -/

/-- The lines of an event at `root`. -/
def rootLines (vs : List LogSet) (level : Level) : List (Output × String) :=
  if (placed vs "root").1.value ≤ level.value then linesOf level (placed vs "root").2 else []

/-- The lines of an event. -/
def lines (vs : List LogSet) (level : Level) (name : String) : List (Output × String) :=
  if (placed vs name).1.value ≤ level.value then
    if (placed vs name).2 ≠ [] then linesOf level (placed vs name).2
    else if name = "root" then [] else rootLines vs level
  else []

/-- The lines, where the loggers are as they are placed. -/
theorem lines_of_look {vs : List LogSet} {m : LoggerManager}
    (h : ∀ name, m.look name = ((placed vs name).1, m.pattern name,
      (placed vs name).2.map fun a => some (a.1, a.2.1, some a.2.2))) (level : Level) (name : String) :
    (m.log level name).map (List.map line) = some (lines vs level name) := by
  have hlog : ∀ (name : String) (m_root : List Logger),
      (((m.logger name).log level m.appenders m_root).map (List.map line))
        = if (placed vs name).1.value ≤ level.value then
            if (placed vs name).2 ≠ [] then some (linesOf level (placed vs name).2)
            else
              match m_root with
              | root :: m_root => (root.log level m.appenders m_root).map (List.map line)
              | [] => some []
          else some [] := by
    intro name m_root
    have hlook := h name
    have hlevel : (m.logger name).m_level = (placed vs name).1 := congrArg (fun x => x.1) hlook
    have happ := congrArg (fun x => x.2.2) hlook
    have hempty : (m.logger name).m_appenders = [] ↔ (placed vs name).2 = [] := by
      have hlen := congrArg List.length happ
      simp only [LoggerManager.look, Logger.look, List.length_map] at hlen
      rw [← List.length_eq_zero_iff, hlen, List.length_eq_zero_iff]
    rw [Logger.log.eq_def]
    dsimp only
    rw [hlevel]
    split
    · by_cases hnil : (placed vs name).2 = []
      · rw [if_neg (by simpa using hempty.mpr hnil), if_neg (by simpa using hnil)]
        cases m_root <;> rfl
      · rw [if_pos fun he => hnil (hempty.mp he), if_pos hnil]
        exact write_of_look happ
    · rfl
  unfold LoggerManager.log lines
  rw [hlog]
  split
  · split
    · rfl
    · by_cases hroot : name = "root"
      · rw [if_pos hroot, if_pos hroot]
      · rw [if_neg hroot, if_neg hroot]
        show ((m.logger "root").log level m.appenders []).map (List.map line) = _
        rw [hlog, rootLines]
        split
        · by_cases hnil : (placed vs "root").2 = []
          · rw [if_neg (by simpa using hnil), hnil]
            rfl
          · rw [if_pos hnil]
        · rfl
  · rfl

/-- **Where every event goes**, after any run: each level on the way lets it through or stops it, no
appender is without a formatter, and what a logger has no appenders for goes to `root`. -/
theorem log_of_reloads {vs : List LogSet} {m : LoggerManager} (h : reloads vs = some m) (level : Level)
    (name : String) : (m.log level name).map (List.map line) = some (lines vs level name) := by
  have hlook := look_of_history h
  exact lines_of_look hlook level name

/-- `mail` was configured from `INFO` on; taken out, it writes what is below through `root`. -/
theorem log_of_mailAdded :
    ∃ m, reloads [mailAdded, systemLogger "" "%m%n"] = some m ∧
      (m.log .debug "mail").map (List.map line) = some [(.stdout, defaultPattern)] := by
  have h : (reloads [mailAdded, systemLogger "" "%m%n"]).isSome = true := by decide
  obtain ⟨m, hm⟩ := Option.isSome_iff_exists.mp h
  refine ⟨m, hm, (log_of_reloads hm .debug "mail").trans ?_⟩
  decide

end Sylar.Log
