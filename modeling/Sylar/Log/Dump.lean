/-
# Sylar.Log.Dump — loggers as YAML and back (`toYamlString` in `sylar/log.cc`).

An appender, a logger and the manager write themselves as YAML, each by loading what the level below has
written.  The text has the form of a log configuration, so a process that starts with it should log as
the first one did.  It does so up to what the decoder of a configuration does not read: the level of an
appender, and the formatter of one that writes to `stdout`; and up to what the listener does not take: a
formatter with an error in its pattern, or with none.  `dump_restores_iff` says this of every manager
that a program can get to.  Nothing of that kind is there to be lost in a process that has all its
configurations from text (`dump_of_configured`).
-/
import Sylar.Log.Managing

namespace Sylar.Log

open Sylar.Config (Node Yaml mapM_eq_some)
open Lib (Ordered)

/-! ## What is written -/

namespace LogAppender

/-- `m_formatter`, where `m_hasFormatter` says that it is the appender's own. -/
def own (a : LogAppender) : Option LogFormatter := if a.m_hasFormatter then a.m_formatter else none

/-- The node in `FileLogAppender::toYamlString` and in `StdoutLogAppender::toYamlString`. -/
def node (a : LogAppender) : Node :=
  .map
    ((match a.output with
      | .file m_filename => [("type", .scalar "FileLogAppender"), ("file", .scalar m_filename)]
      | .stdout => [("type", .scalar "StdoutLogAppender")])
    ++ (if a.m_level ≠ .unknow then [("level", .scalar a.m_level.toString)] else [])
    ++ (a.own.map fun f => ("formatter", Node.scalar f.m_pattern)).toList)

/-- `LogAppender::toYamlString`. -/
def toYamlString (yaml : Yaml) (a : LogAppender) : String := yaml.emit a.node

end LogAppender

namespace Logger

/-- The node in `Logger::toYamlString`, with the appenders as they were loaded. -/
def node (l : Logger) (appenders : List Node) : Node :=
  .map
    ([("name", .scalar l.m_name)]
    ++ (if l.m_level ≠ .unknow then [("level", .scalar l.m_level.toString)] else [])
    ++ [("formatter", .scalar l.m_formatter.m_pattern)]
    ++ (if appenders ≠ [] then [("appenders", .sequence appenders)] else []))

/-- `Logger::toYamlString`. -/
def toYamlString (yaml : Yaml) (l : Logger) (as : Appenders) : Option String := do
  let appenders ← l.m_appenders.mapM fun p => do
    let i ← as[p]?
    yaml.load (i.toYamlString yaml)
  return yaml.emit (l.node appenders)

/-- The appenders its pointers lead to. -/
def held (l : Logger) (as : Appenders) : List LogAppender := l.m_appenders.filterMap fun p => as[p]?

/-- The whole of a logger. -/
def document (l : Logger) (as : Appenders) : Node := l.node ((l.held as).map LogAppender.node)

end Logger

namespace LoggerManager

/-- `LoggerManager::toYamlString`, over the loggers in the order of their names. -/
def toYamlString (yaml : Yaml) (names : List String) (m : LoggerManager) : Option String := do
  let loggers ← names.mapM fun name => do
    let i ← m.m_loggers name
    yaml.load (← i.toYamlString yaml m.appenders)
  return yaml.emit (.ofItems loggers)

/-- The whole of a manager. -/
def document (names : List String) (m : LoggerManager) : Node :=
  .ofItems (names.map fun name => (m.logger name).document m.appenders)

/-- `yaml-cpp` reads what it has written while the manager is dumped. -/
structure Readable (yaml : Yaml) (names : List String) (m : LoggerManager) : Prop where
  appender : ∀ name ∈ names, ∀ a ∈ (m.logger name).held m.appenders,
    yaml.load (yaml.emit a.node) = some a.node
  logger : ∀ name ∈ names, yaml.load (yaml.emit ((m.logger name).document m.appenders))
    = some ((m.logger name).document m.appenders)
  manager : yaml.load (yaml.emit (m.document names)) = some (m.document names)

end LoggerManager

/-- Where no pointer dangles, the loop over `m_appenders` goes over what they lead to. -/
theorem mapM_held {α : Type} {f : LogAppender → Option α} {k : LogAppender → α} {as : Appenders} :
    ∀ {ps : List Nat}, (∀ p ∈ ps, p < as.length) →
      (∀ a ∈ ps.filterMap fun p => as[p]?, f a = some (k a)) →
      (ps.mapM fun p => as[p]?.bind f) = some ((ps.filterMap fun p => as[p]?).map k)
  | [], _, _ => rfl
  | p :: ps, hps, hf => by
      obtain ⟨i, hp⟩ : ∃ i, as[p]? = some i :=
        ⟨_, List.getElem?_eq_getElem (hps p List.mem_cons_self)⟩
      rw [List.filterMap_cons_some hp] at hf ⊢
      have ih := mapM_held (fun q hq => hps q (List.mem_cons_of_mem p hq))
        fun a ha => hf a (List.mem_cons_of_mem _ ha)
      rw [List.mapM_cons, ih, hp, Option.bind_some, hf _ List.mem_cons_self]
      rfl

variable {yaml : Yaml} {m : LoggerManager} {names : List String}

theorem Logger.toYamlString_eq {l : Logger} {as : Appenders} (hmade : ∀ p ∈ l.m_appenders, p < as.length)
    (hload : ∀ a ∈ l.held as, yaml.load (yaml.emit a.node) = some a.node) :
    l.toYamlString yaml as = some (yaml.emit (l.document as)) := by
  have happ : (l.m_appenders.mapM fun p => as[p]?.bind fun i => yaml.load (i.toYamlString yaml))
      = some ((l.held as).map LogAppender.node) := mapM_held hmade hload
  unfold toYamlString
  simp only [Option.bind_eq_bind, happ, Option.bind_some]
  rfl

theorem LoggerManager.Names.m_loggers_eq (h : m.Names names) {name : String} (hname : name ∈ names) :
    m.m_loggers name = some (m.logger name) := by
  obtain ⟨l, hl⟩ := Option.isSome_iff_exists.mp ((h.mem_iff name).mp hname)
  rw [LoggerManager.logger, hl, Option.getD_some]

/-- The manager's text is that of the whole. -/
theorem LoggerManager.toYamlString_eq (h : m.Sound) (hnames : m.Names names)
    (hload : m.Readable yaml names) :
    m.toYamlString yaml names = some (yaml.emit (m.document names)) := by
  have hloggers : (names.mapM fun name => do
      let i ← m.m_loggers name
      yaml.load (← i.toYamlString yaml m.appenders))
        = some (names.map fun name => (m.logger name).document m.appenders) := by
    refine mapM_eq_some ?_
    intro name hname
    rw [hnames.m_loggers_eq hname]
    simp only [Option.bind_eq_bind, Option.bind_some]
    rw [Logger.toYamlString_eq (h.made name) (hload.appender name hname), Option.bind_some]
    exact hload.logger name hname
  unfold toYamlString
  rw [hloggers]
  rfl

/-! ## What is read -/

/-- The definition that is read from an appender. -/
def LogAppender.redefine (a : LogAppender) : LogAppenderDefine :=
  match a.output with
  | .file m_filename =>
      { type := 1, level := .unknow, formatter := (a.own.map LogFormatter.m_pattern).getD ""
        file := m_filename }
  | .stdout => { type := 2, level := .unknow, formatter := "", file := "" }

/-- The definition that is read from a logger. -/
def Logger.redefine (l : Logger) (as : Appenders) : LogDefine where
  name := l.m_name
  level := l.m_level
  formatter := l.m_formatter.m_pattern
  appenders := (l.held as).map LogAppender.redefine

/-- The configuration that is read from a manager. -/
def LoggerManager.redefine (h : m.Sound) (hnames : m.Names names) : LogSet where
  elems := names.map fun name => (m.logger name).redefine m.appenders
  ordered := List.pairwise_map.mpr (hnames.ordered.imp fun {a b} hab => by
    show (m.logger a).m_name < (m.logger b).m_name
    rw [h.named, h.named]
    exact hab)

theorem decodeAppender_node (a : LogAppender) :
    decodeAppender yaml a.node = some (some a.redefine) := by
  obtain ⟨output, level, hasFormatter, formatter⟩ := a
  cases output with
  | file m_filename =>
      cases hasFormatter <;> cases formatter <;> by_cases hl : level = .unknow <;>
        simp [decodeAppender, LogAppender.node, LogAppender.redefine, LogAppender.own, Node.get,
          Node.asString, readOr, hl]
  | stdout =>
      simp [decodeAppender, LogAppender.node, LogAppender.redefine, Node.get, Node.asString]

section Members

variable (l : Logger) (appenders : List Node)

theorem Logger.node_name : (l.node appenders).get "name" = some (some (.scalar l.m_name)) := by
  simp [node, Node.get]

theorem Logger.node_level : readOr yaml "" (l.node appenders) "level"
    = some (if l.m_level = .unknow then "" else l.m_level.toString) := by
  by_cases hl : l.m_level = .unknow <;> by_cases ha : appenders = [] <;>
    simp [readOr, node, Node.get, Node.asString, hl, ha]

theorem Logger.node_formatter : readOr yaml "" (l.node appenders) "formatter"
    = some l.m_formatter.m_pattern := by
  by_cases hl : l.m_level = .unknow <;> simp [readOr, node, Node.get, Node.asString, hl]

theorem Logger.node_appenders : (l.node appenders).get "appenders"
    = some (if appenders = [] then none else some (.sequence appenders)) := by
  by_cases hl : l.m_level = .unknow <;> by_cases ha : appenders = [] <;>
    simp [node, Node.get, hl, ha]

end Members

theorem decodeDefine_document (l : Logger) (as : Appenders) :
    decodeDefine yaml (l.document as) = some (some (l.redefine as)) := by
  have hlevel : Level.fromString (if l.m_level = .unknow then "" else l.m_level.toString)
      = l.m_level := by
    cases l.m_level <;> decide
  have hread : ((l.held as).map LogAppender.node).mapM (decodeAppender yaml)
      = some ((l.held as).map fun a => some a.redefine) := by
    rw [List.mapM_map]
    exact mapM_eq_some fun a _ => decodeAppender_node a
  unfold decodeDefine Logger.document
  rw [Logger.node_name]
  simp only [Option.bind_eq_bind, Option.bind_some, Node.asString, Logger.node_level,
    Logger.node_formatter, Logger.node_appenders, hlevel]
  by_cases ha : l.held as = []
  · simp [ha, Logger.redefine, List.reduceOption_nil]
  · have helements : elements (.sequence ((l.held as).map LogAppender.node))
        = some ((l.held as).map LogAppender.node) := by
      rw [← elements_ofItems, Node.ofItems, if_neg (by simpa using ha)]
    simp only [List.map_eq_nil_iff, ha, if_false, helements, Option.bind_some, hread,
      reduceOption_map_some]
    rfl

/-- **What a manager's text is read as.** -/
theorem decode_document (h : m.Sound) (hnames : m.Names names)
    (hload : yaml.load (yaml.emit (m.document names)) = some (m.document names)) :
    decode yaml (yaml.emit (m.document names)) = some (LoggerManager.redefine h hnames) := by
  have hread : (names.map fun name => (m.logger name).document m.appenders).mapM (decodeDefine yaml)
      = some (names.map fun name => some ((m.logger name).redefine m.appenders)) := by
    rw [List.mapM_map]
    exact mapM_eq_some fun name _ => decodeDefine_document (m.logger name) m.appenders
  -- the names are in order already
  have hset : ((names.map fun name => (m.logger name).redefine m.appenders).foldl LogSet.insert
      .empty).elems = names.map fun name => (m.logger name).redefine m.appenders := by
    rw [LogSet.elems_foldl_insert]
    exact Lib.foldl_insertBy (LoggerManager.redefine h hnames).ordered
  unfold decode
  rw [hload]
  simp only [Option.bind_eq_bind, Option.bind_some, LoggerManager.document, elements_ofItems, hread,
    reduceOption_map_some]
  exact congrArg some (LogSet.ext hset)

/-! ## A process that starts with it -/

namespace LogAppender

/-- The pattern of its own that gets through: a file's, if it can be used. -/
def carriedOver (a : LogAppender) : Option String :=
  match a.output with
  | .file _ => a.own.bind fun f => usable f.m_pattern
  | .stdout => none

/-- The appender as it comes back, to a logger with the given pattern. -/
def restored (pattern : String) (a : LogAppender) : Output × Level × Option String :=
  (a.output, .unknow, some (a.carriedOver.getD pattern))

theorem redefine_look (pattern : String) (a : LogAppender) :
    a.redefine.look pattern = a.restored pattern := by
  unfold LogAppenderDefine.look restored redefine carriedOver
  cases a.output with
  | stdout => rfl
  | file m_filename =>
      cases a.own with
      | none => rfl
      | some f => rfl

end LogAppender

namespace Logger

/-- The logger as it comes back. -/
def restored (l : Logger) (as : Appenders) :
    Level × String × List (Option (Output × Level × Option String)) :=
  let pattern := (usable l.m_formatter.m_pattern).getD defaultPattern
  (l.m_level, pattern, (l.held as).map fun a => some (a.restored pattern))

/-- A logger of which nothing is lost: its pattern can be used, and its appenders have no level and write
with a pattern that gets through, or with the logger's. -/
structure Portable (l : Logger) (as : Appenders) : Prop where
  pattern : usable l.m_formatter.m_pattern = some l.m_formatter.m_pattern
  level : ∀ a ∈ l.held as, a.m_level = .unknow
  formatter : ∀ a ∈ l.held as,
    a.m_formatter.map LogFormatter.m_pattern = some (a.carriedOver.getD l.m_formatter.m_pattern)

theorem look_eq_held {l : Logger} {as : Appenders} (h : ∀ p ∈ l.m_appenders, p < as.length) :
    l.look as = (l.m_level, l.m_formatter.m_pattern, (l.held as).map fun a => some a.look) := by
  obtain ⟨name, level, ps, formatter⟩ := l
  have hheld : ∀ qs : List Nat, (∀ p ∈ qs, p < as.length) →
      qs.map (fun p => as[p]?.map LogAppender.look)
        = (qs.filterMap fun p => as[p]?).map fun a => some a.look := by
    intro qs
    induction qs with
    | nil => exact fun _ => rfl
    | cons p qs ih =>
        intro hqs
        obtain ⟨i, hp⟩ : ∃ i, as[p]? = some i :=
          ⟨_, List.getElem?_eq_getElem (hqs p List.mem_cons_self)⟩
        rw [List.map_cons, List.filterMap_cons_some hp, List.map_cons, hp,
          ih fun q hq => hqs q (List.mem_cons_of_mem p hq)]
        rfl
  unfold look held
  rw [hheld ps h]

theorem usable_defaultPattern : usable defaultPattern = some defaultPattern := by decide

theorem usable_getD_eq_iff {pattern : String} :
    (usable pattern).getD defaultPattern = pattern ↔ usable pattern = some pattern := by
  unfold usable
  split
  · rw [Option.getD_some]
    exact ⟨fun _ => rfl, fun _ => rfl⟩
  · rename_i hno
    rw [Option.getD_none]
    constructor
    · rintro rfl
      -- the default can be used
      exact absurd (by decide) hno
    · intro h
      cases h

/-- **What is lost**, of a logger. -/
theorem restored_eq_look_iff {l : Logger} {as : Appenders} (h : ∀ p ∈ l.m_appenders, p < as.length) :
    l.restored as = l.look as ↔ l.Portable as := by
  have hparts : l.restored as = l.look as ↔
      (usable l.m_formatter.m_pattern).getD defaultPattern = l.m_formatter.m_pattern ∧
        ∀ a ∈ l.held as, a.restored ((usable l.m_formatter.m_pattern).getD defaultPattern) = a.look := by
    rw [look_eq_held h]
    unfold restored
    simp only [Prod.mk.injEq, true_and, List.map_inj_left, Option.some.injEq]
  rw [hparts, usable_getD_eq_iff]
  constructor
  · rintro ⟨hpattern, happ⟩
    rw [hpattern, Option.getD_some] at happ
    refine ⟨hpattern, ?_, ?_⟩
    · intro a ha
      exact (congrArg (fun x => x.2.1) (happ a ha)).symm
    · intro a ha
      exact (congrArg (fun x => x.2.2) (happ a ha)).symm
  · rintro ⟨hpattern, hlevel, hformatter⟩
    refine ⟨hpattern, ?_⟩
    intro a ha
    rw [hpattern, Option.getD_some, LogAppender.restored, LogAppender.look, hlevel a ha, hformatter a ha]

end Logger

/-- A process that starts with one configuration. -/
theorem reloads_singleton (v : LogSet) : reloads [v] = on_logger_conf_changed .empty v .new := by
  unfold reloads
  rw [List.foldlM_cons]
  cases on_logger_conf_changed .empty v .new <;> rfl

/-- A name that is not configured. -/
theorem look_of_not_configured {v : LogSet} {m' : LoggerManager} (h : reloads [v] = some m')
    {name : String} (hname : ∀ i ∈ v, i.name ≠ name) : m'.look name = LoggerManager.new.look name := by
  rw [reloads_singleton] at h
  obtain ⟨m₁, hnew, rfl⟩ := Option.map_eq_some_iff.mp h
  exact (foldlM_onNew v.ordered LoggerManager.manages_new hnew).2.2 name hname

/-- The listener gets through. -/
theorem reloads_redefine (h : m.Sound) (hnames : m.Names names) :
    ∃ m', reloads [LoggerManager.redefine h hnames] = some m' := by
  rw [reloads_singleton, ← Option.isSome_iff_exists]
  refine (on_logger_conf_changed_isSome_iff ?_ .new).mpr ?_
  · intro i hi a ha
    obtain ⟨name, -, rfl⟩ := List.mem_map.mp hi
    obtain ⟨ap, -, rfl⟩ := List.mem_map.mp ha
    unfold LogAppender.redefine
    cases ap.output with
    | file m_filename => exact .inl rfl
    | stdout => exact .inr rfl
  · intro i _ j hj
    exact absurd hj List.not_mem_nil

/-- **What the loggers are like**, each of them. -/
theorem look_of_redefine (h : m.Sound) (hnames : m.Names names) {m' : LoggerManager}
    (hm' : reloads [LoggerManager.redefine h hnames] = some m') (name : String) :
    m'.look name = (m.logger name).restored m.appenders := by
  by_cases hname : name ∈ names
  · have hi : (m.logger name).redefine m.appenders ∈ LoggerManager.redefine h hnames :=
      List.mem_map.mpr ⟨name, hname, rfl⟩
    have hcarried : carried [LoggerManager.redefine h hnames] (m.logger name).m_name
        = (usable (m.logger name).m_formatter.m_pattern).getD defaultPattern :=
      congrArg (fun o => o.getD defaultPattern) (LogSet.given_of_mem hi)
    have hlook : m'.look (m.logger name).m_name = _ := look_of_reloads hm' hi
    rw [h.named] at hlook hcarried
    rw [hlook]
    show LogDefine.look (carried _ (m.logger name).m_name) _ = _
    rw [h.named, hcarried]
    unfold LogDefine.look Logger.restored Logger.redefine
    simp only [List.map_map, Function.comp_def, LogAppender.redefine_look]
  · have hroot : name ≠ "root" := by
      rintro rfl
      exact hname ((hnames.mem_iff "root").mpr h.root)
    have hnone : m.m_loggers name = none := by
      rw [← Option.not_isSome_iff_eq_none, ← hnames.mem_iff]
      exact hname
    have hlogger : m.logger name = Logger.new name := by
      rw [LoggerManager.logger, hnone, Option.getD_none]
    have hnew : LoggerManager.new.logger name = Logger.new name :=
      LoggerManager.logger_put_ne hroot _ _
    rw [look_of_not_configured hm' ?_]
    · rw [LoggerManager.look, hnew, hlogger]
      unfold Logger.restored Logger.look
      rw [show (Logger.new name).m_formatter.m_pattern = defaultPattern from rfl,
        Logger.usable_defaultPattern]
      rfl
    · intro i hi
      obtain ⟨other, hother, rfl⟩ := List.mem_map.mp hi
      show (m.logger other).m_name ≠ name
      rw [h.named]
      rintro rfl
      exact hname hother

/-- **Dumped and started again.**  The text of any manager configures a new process, and every logger
there looks as it did, if and only if nothing is lost of any. -/
theorem dump_restores_iff (hreach : managing.Reachable m) (hnames : m.Names names)
    (hload : m.Readable yaml names) :
    ∃ text v m', m.toYamlString yaml names = some text ∧ decode yaml text = some v ∧
      reloads [v] = some m' ∧ (∀ name, m'.look name = (m.logger name).restored m.appenders) ∧
      ((∀ name, m'.look name = m.look name) ↔ ∀ name, (m.logger name).Portable m.appenders) := by
  have h : m.Sound := sound_of_reachable hreach
  obtain ⟨m', hm'⟩ := reloads_redefine h hnames
  have hlook := look_of_redefine h hnames hm'
  refine ⟨_, _, m', LoggerManager.toYamlString_eq h hnames hload,
    decode_document h hnames hload.manager, hm', hlook, ?_⟩
  refine forall_congr' ?_
  intro name
  rw [hlook name]
  exact Logger.restored_eq_look_iff (h.made name)

/-- The first member of a document, or how many there are. -/
def label : Node → String
  | .map ((key, value) :: _) => key ++ ": " ++ value.text
  | .sequence items => items.foldl (fun text _ => text ++ "-") ""
  | _ => ""

/-- A `yaml-cpp` that is asked about documents with different first members. -/
def labelled (documents : List Node) : Yaml where
  load text := documents.find? fun n => label n = text
  emit := label
  nullText := some "null"

/-- `root` writes to `stdout` and `system` to a file. -/
def systemManager : LoggerManager :=
  LoggerManager.through "system" (Logger.addAppender 1)
    { LoggerManager.new with
      appenders := LoggerManager.new.appenders ++ [{ output := .file "system.txt" }] }

theorem systemManager_names : systemManager.Names ["root", "system"] := by
  refine ⟨by unfold Ordered; decide, ?_⟩
  intro name
  by_cases hsystem : name = "system"
  · subst hsystem
    decide
  · by_cases hroot : name = "root"
    · subst hroot
      decide
    · simp [systemManager, LoggerManager.through_eq, LoggerManager.new, LoggerManager.put, hsystem,
        hroot]

def systemYaml : Yaml :=
  labelled ([LogAppender.node { output := .file "system.txt" }, LogAppender.node { output := .stdout },
    systemManager.document ["root", "system"]]
    ++ ["root", "system"].map fun name => (systemManager.logger name).document systemManager.appenders)

theorem systemManager_readable : systemManager.Readable systemYaml ["root", "system"] := by
  refine ⟨?_, ?_, rfl⟩
  · intro name hname a ha
    simp only [List.mem_cons, List.not_mem_nil, or_false] at hname
    rcases hname with rfl | rfl
    · obtain rfl := List.mem_singleton.mp ha
      rfl
    · obtain rfl := List.mem_singleton.mp ha
      rfl
  · intro name hname
    simp only [List.mem_cons, List.not_mem_nil, or_false] at hname
    rcases hname with rfl | rfl
    · rfl
    · rfl

/-- The appenders of a new process have the level `DEBUG`, and come back without. -/
theorem dump_restores_systemManager :
    ∃ text v m', systemManager.toYamlString systemYaml ["root", "system"] = some text ∧
      decode systemYaml text = some v ∧ reloads [v] = some m' ∧
      ¬ ∀ name, m'.look name = systemManager.look name := by
  have hrun : managing.exec .new [.make (.file "system.txt"), .addAppender "system" 1]
      = some systemManager := rfl
  obtain ⟨text, v, m', htext, hv, hm', -, hiff⟩ := dump_restores_iff
    (Lib.System.reachable_of_exec rfl hrun) systemManager_names systemManager_readable
  refine ⟨text, v, m', htext, hv, hm', ?_⟩
  intro hsame
  have hlevel := (hiff.mp hsame "root").level { output := .stdout, m_formatter := some (.new defaultPattern) }
    (List.mem_singleton.mpr rfl)
  cases hlevel

/-! ## A process that was configured from text -/

/-- What the decoder reads of an appender. -/
def LogAppenderDefine.Read (a : LogAppenderDefine) : Prop :=
  a.level = .unknow ∧ (a.type = 2 → a.formatter = "")

/-- What the decoder reads. -/
def LogSet.Read (v : LogSet) : Prop := ∀ i ∈ v, ∀ a ∈ i.appenders, a.Read

theorem decodeAppender_read {n : Node} {a : LogAppenderDefine}
    (h : decodeAppender yaml n = some (some a)) : a.Read := by
  unfold decodeAppender at h
  obtain ⟨type, -, h⟩ := Option.bind_eq_some_iff.mp h
  cases type with
  | none => cases h
  | some type =>
      obtain ⟨text, -, h⟩ := Option.bind_eq_some_iff.mp h
      split at h
      · obtain ⟨file, -, h⟩ := Option.bind_eq_some_iff.mp h
        cases file with
        | none => cases h
        | some file =>
            obtain ⟨file, -, h⟩ := Option.bind_eq_some_iff.mp h
            obtain ⟨formatter, -, h⟩ := Option.bind_eq_some_iff.mp h
            cases h
            exact ⟨rfl, fun h => by cases h⟩
      · split at h
        · cases h
          exact ⟨rfl, fun _ => rfl⟩
        · cases h

theorem exists_of_mem_mapM {α β : Type} {f : α → Option β} {b : β} : ∀ {xs : List α} {ys : List β},
    xs.mapM f = some ys → b ∈ ys → ∃ a ∈ xs, f a = some b
  | [], ys, h, hb => by
      cases h
      cases hb
  | a :: xs, ys, h, hb => by
      rw [List.mapM_cons] at h
      obtain ⟨c, hc, h⟩ := Option.bind_eq_some_iff.mp h
      obtain ⟨cs, hcs, h⟩ := Option.bind_eq_some_iff.mp h
      cases h
      rcases List.mem_cons.mp hb with rfl | hb
      · exact ⟨a, List.mem_cons_self, hc⟩
      · obtain ⟨a', ha', hfa'⟩ := exists_of_mem_mapM hcs hb
        exact ⟨a', List.mem_cons_of_mem a ha', hfa'⟩

theorem decodeDefine_read {n : Node} {i : LogDefine} (h : decodeDefine yaml n = some (some i)) :
    ∀ a ∈ i.appenders, a.Read := by
  unfold decodeDefine at h
  obtain ⟨name, -, h⟩ := Option.bind_eq_some_iff.mp h
  cases name with
  | none => cases h
  | some name =>
      obtain ⟨name, -, h⟩ := Option.bind_eq_some_iff.mp h
      obtain ⟨level, -, h⟩ := Option.bind_eq_some_iff.mp h
      obtain ⟨formatter, -, h⟩ := Option.bind_eq_some_iff.mp h
      obtain ⟨as, -, h⟩ := Option.bind_eq_some_iff.mp h
      cases as with
      | none =>
          cases h
          intro a ha
          cases ha
      | some as =>
          obtain ⟨ns, -, h⟩ := Option.bind_eq_some_iff.mp h
          obtain ⟨found, hfound, h⟩ := Option.bind_eq_some_iff.mp h
          cases h
          intro a ha
          obtain ⟨x, -, hx⟩ := exists_of_mem_mapM hfound (List.reduceOption_mem_iff.mp ha)
          exact decodeAppender_read hx

theorem decode_read {text : String} {v : LogSet} (h : decode yaml text = some v) : v.Read := by
  unfold decode at h
  obtain ⟨node, -, h⟩ := Option.bind_eq_some_iff.mp h
  obtain ⟨ns, -, h⟩ := Option.bind_eq_some_iff.mp h
  obtain ⟨found, hfound, h⟩ := Option.bind_eq_some_iff.mp h
  cases h
  have hinsert : ∀ (is : List LogDefine) (v : LogSet), v.Read → (∀ i ∈ is, ∀ a ∈ i.appenders, a.Read) →
      (is.foldl LogSet.insert v).Read := by
    intro is
    induction is with
    | nil => exact fun _ hv _ => hv
    | cons i is ih =>
        intro v hv his
        refine ih (v.insert i) ?_ fun j hj => his j (List.mem_cons_of_mem i hj)
        intro j hj
        rcases Lib.eq_or_mem_of_mem_insertBy hj with rfl | hj
        · exact his j List.mem_cons_self
        · exact hv j hj
  refine hinsert _ _ (fun i hi => absurd hi List.not_mem_nil) ?_
  intro i hi
  obtain ⟨n, -, hn⟩ := exists_of_mem_mapM hfound (List.reduceOption_mem_iff.mp hi)
  exact decodeDefine_read hn

theorem usable_of_usable {formatter pattern : String} (h : usable formatter = some pattern) :
    usable pattern = some pattern := by
  unfold usable at h ⊢
  split at h
  · rename_i hgood
    obtain rfl := Option.some.inj h
    exact if_pos hgood
  · cases h

/-- A configured appender writes with its own pattern, and that gets through. -/
theorem LogAppenderDefine.Read.adopt {a : LogAppenderDefine} (hread : a.Read) {ap : LogAppender}
    (h : a.appender = some ap) (fmt : LogFormatter) :
    (ap.adopt fmt).m_level = .unknow ∧
      (ap.adopt fmt).m_formatter.map LogFormatter.m_pattern
        = some ((ap.adopt fmt).carriedOver.getD fmt.m_pattern) := by
  have hlook := LogAppenderDefine.look_appender h fmt
  have hlevel : (ap.adopt fmt).m_level = a.level := congrArg (fun x => x.2.1) hlook
  have hformatter : (ap.adopt fmt).m_formatter.map LogFormatter.m_pattern
      = some ((usable a.formatter).getD fmt.m_pattern) := congrArg (fun x => x.2.2) hlook
  have hcarried : (ap.adopt fmt).carriedOver = usable a.formatter := by
    obtain ⟨base, hbase, rfl⟩ := Option.map_eq_some_iff.mp h
    by_cases ht : a.type = 1
    · rw [if_pos ht, Option.some.injEq] at hbase
      subst hbase
      by_cases hf : a.formatter = ""
      · simp [hf, usable, LogAppender.setLevel, LogAppender.adopt, LogAppender.carriedOver,
          LogAppender.own]
      · cases he : (LogFormatter.new a.formatter).m_error <;>
          simp [hf, he, usable, LogAppender.setLevel, LogAppender.setFormatter, LogAppender.adopt,
            LogAppender.carriedOver, LogAppender.own]
    · -- `stdout`, without a formatter
      rw [if_neg ht, Option.ite_none_right_eq_some, Option.some.injEq] at hbase
      obtain ⟨ht, rfl⟩ := hbase
      simp [hread.2 ht, usable, LogAppender.setLevel, LogAppender.adopt, LogAppender.carriedOver]
  exact ⟨hlevel.trans hread.1, by rw [hformatter, hcarried]⟩

theorem Logger.held_of_agree {l : Logger} {as as' : Appenders}
    (h : ∀ p ∈ l.m_appenders, as'[p]? = as[p]?) : l.held as' = l.held as := List.filterMap_congr h

/-- A new appender is held behind the others. -/
theorem Logger.held_addAppender {l : Logger} {as : Appenders} (h : ∀ p ∈ l.m_appenders, p < as.length)
    (ap : LogAppender) : (l.addAppender as.length (as ++ [ap])).1.held
        (l.addAppender as.length (as ++ [ap])).2 = l.held as ++ [ap.adopt l.m_formatter] := by
  have hadd : (as ++ [ap]).modify as.length (LogAppender.adopt l.m_formatter)
      = as ++ [ap.adopt l.m_formatter] := by
    rw [List.modify_eq_take_drop]
    simp
  unfold held addAppender
  dsimp only
  rw [hadd, List.filterMap_append]
  congr 1
  · refine List.filterMap_congr ?_
    intro p hp
    exact List.getElem?_append_left (h p hp)
  · simp

theorem foldlM_addDefined_held {is : List LogAppenderDefine} {l l' : Logger × Appenders}
    (h : is.foldlM addDefined l = some l') (hmade : ∀ p ∈ l.1.m_appenders, p < l.2.length)
    {x : LogAppender} (hx : x ∈ l'.1.held l'.2) :
    x ∈ l.1.held l.2 ∨ ∃ a ∈ is, ∃ ap, a.appender = some ap ∧ x = ap.adopt l.1.m_formatter := by
  induction is generalizing l with
  | nil =>
      obtain rfl : l = l' := by simpa using h
      exact .inl hx
  | cons a is ih =>
      rw [List.foldlM_cons] at h
      obtain ⟨l₁, hround, hrest⟩ := Option.bind_eq_some_iff.mp h
      obtain ⟨ap, hap, rfl⟩ := Option.map_eq_some_iff.mp hround
      have hmade₁ : ∀ p ∈ l.1.m_appenders ++ [l.2.length],
          p < ((l.2 ++ [ap]).modify l.2.length (LogAppender.adopt l.1.m_formatter)).length := by
        intro p hp
        rw [List.length_modify, List.length_append]
        rcases List.mem_append.mp hp with hp | hp
        · exact Nat.lt_add_right 1 (hmade p hp)
        · obtain rfl := List.mem_singleton.mp hp
          exact Nat.lt_succ_self _
      rcases ih hrest hmade₁ with hold | ⟨b, hb, bp, hbp, rfl⟩
      · rw [Logger.held_addAppender hmade] at hold
        rcases List.mem_append.mp hold with hold | hnew
        · exact .inl hold
        · obtain rfl := List.mem_singleton.mp hnew
          exact .inr ⟨a, List.mem_cons_self, ap, hap, rfl⟩
      · exact .inr ⟨b, List.mem_cons_of_mem a hb, bp, hbp, rfl⟩

/-- **A logger that was configured from text** is written out whole. -/
theorem LogDefine.configure_portable {i : LogDefine} (hi : ∀ a ∈ i.appenders, a.Read) {l : Logger}
    {as : Appenders} {l' : Logger × Appenders} (h : i.configure l as = some l')
    (hpattern : usable l.m_formatter.m_pattern = some l.m_formatter.m_pattern) :
    l'.1.Portable l'.2 := by
  obtain ⟨-, hlook⟩ := LogDefine.configure_spec h
  have hnew : l'.1.m_formatter.m_pattern = (usable i.formatter).getD l.m_formatter.m_pattern :=
    congrArg (fun x => x.2.1) hlook
  have hfmt := (foldlM_addDefined h).2.1
  have hheld : ∀ x ∈ l'.1.held l'.2,
      ∃ a ∈ i.appenders, ∃ ap, a.appender = some ap ∧ x = ap.adopt l'.1.m_formatter := by
    intro x hx
    rcases foldlM_addDefined_held h (fun p hp => absurd hp List.not_mem_nil) hx with hold | hmade
    · cases hold
    · rw [hfmt]
      exact hmade
  refine ⟨?_, ?_, ?_⟩
  · rw [hnew]
    cases hu : usable i.formatter with
    | none => exact hpattern
    | some pattern => exact usable_of_usable hu
  · intro x hx
    obtain ⟨a, ha, ap, hap, rfl⟩ := hheld x hx
    exact ((hi a ha).adopt hap _).1
  · intro x hx
    obtain ⟨a, ha, ap, hap, rfl⟩ := hheld x hx
    exact ((hi a ha).adopt hap _).2

/-- What a process whose configurations are texts does with its loggers: it asks for one, or a text is
decoded for the listener. -/
inductive LogUse
  | getLogger (name : String)
  | load (text : String)

namespace LogUse

/-- The configuration that came last, and the manager. -/
def step (yaml : Yaml) (s : LogSet × LoggerManager) : LogUse → Option (LogSet × LoggerManager)
  | .getLogger name => some (s.1, (s.2.getLogger name).2)
  | .load text => (decode yaml text).bind fun v =>
      (on_logger_conf_changed s.1 v s.2).map fun m => (v, m)

/-- The text has the logger in it. -/
def Configures (yaml : Yaml) (name : String) : LogUse → Prop
  | .getLogger _ => False
  | .load text => ∃ v, decode yaml text = some v ∧ ∃ i ∈ v, name = i.name

end LogUse

/-- A manager whose loggers can all use their patterns, and of which those in `done` are written out
whole. -/
structure LoggerManager.Carries (done : String → Prop) (m : LoggerManager) : Prop where
  manages : m.Manages
  pattern : ∀ name, usable (m.pattern name) = some (m.pattern name)
  portable : ∀ name, done name → (m.logger name).Portable m.appenders

namespace LoggerManager.Carries

variable {done : String → Prop} {m' : LoggerManager} {old_value new_value : LogSet}

theorem put (h : m.Carries done) {name : String} {l : Logger × Appenders}
    (hl : (m.logger name).Confined m.appenders l)
    (hpattern : usable l.1.m_formatter.m_pattern = some l.1.m_formatter.m_pattern)
    {done' : String → Prop} (hdone : ∀ n, done' n → n ≠ name → done n)
    (hself : done' name → l.1.Portable l.2) : (m.put name l).Carries done' := by
  refine ⟨h.manages.put hl, ?_, ?_⟩
  · intro n
    unfold LoggerManager.pattern
    by_cases hn : n = name
    · subst hn
      rw [logger_put_self]
      exact hpattern
    · rw [logger_put_ne hn]
      exact h.pattern n
  · intro n hdone'
    by_cases hn : n = name
    · subst hn
      rw [logger_put_self]
      exact hself hdone'
    · have hport := h.portable n (hdone n hdone' hn)
      -- its appenders are where they were
      have hheld : (m.logger n).held l.2 = (m.logger n).held m.appenders := by
        refine Logger.held_of_agree ?_
        intro p hp
        exact hl.kept p (h.manages.made n p hp) (h.manages.own n name hn p hp)
      rw [logger_put_ne hn, put_appenders]
      refine ⟨hport.pattern, ?_, ?_⟩
      · rw [hheld]
        exact hport.level
      · rw [hheld]
        exact hport.formatter

theorem onNew (h : m.Carries done) {i : LogDefine} (hi : ∀ a ∈ i.appenders, a.Read)
    (hround : Log.onNew old_value m i = some m') : m'.Carries fun n => done n ∨ n = i.name := by
  unfold Log.onNew at hround
  split at hround
  · simp only [getLogger_fst, getLogger_appenders, put_getLogger] at hround
    obtain ⟨l, hl, rfl⟩ := Option.map_eq_some_iff.mp hround
    have hport : l.1.Portable l.2 := LogDefine.configure_portable hi hl (h.pattern i.name)
    exact h.put (LogDefine.configure_spec hl).1 hport.pattern
      (fun n hn hne => hn.resolve_right hne) fun _ => hport
  · cases hround

theorem onOld (h : m.Carries done) (new_value : LogSet) (i : LogDefine) :
    (Log.onOld new_value m i).Carries done := by
  unfold Log.onOld
  cases new_value.find i with
  | some it => exact h
  | none =>
      simp only [getLogger_fst, getLogger_appenders, put_getLogger]
      refine h.put ?_ (h.pattern i.name) (fun _ hn _ => hn) ?_
      · constructor
        · exact Nat.le_refl _
        · intro p _ _
          rfl
        · intro p hp
          exact absurd hp List.not_mem_nil
        · intro p hp
          exact absurd hp List.not_mem_nil
      · intro _
        refine ⟨h.pattern i.name, ?_, ?_⟩
        · intro x hx
          cases hx
        · intro x hx
          cases hx

theorem foldlM_onNew {is : List LogDefine} (h : m.Carries done)
    (his : ∀ i ∈ is, ∀ a ∈ i.appenders, a.Read)
    (hrun : is.foldlM (Log.onNew old_value) m = some m') :
    m'.Carries fun n => done n ∨ ∃ i ∈ is, n = i.name := by
  induction is generalizing m done with
  | nil =>
      obtain rfl : m = m' := by simpa using hrun
      refine ⟨h.manages, h.pattern, ?_⟩
      rintro n (hn | ⟨i, hi, -⟩)
      · exact h.portable n hn
      · cases hi
  | cons i is ih =>
      rw [List.foldlM_cons] at hrun
      obtain ⟨m₁, hround, hrest⟩ := Option.bind_eq_some_iff.mp hrun
      have h' := ih (h.onNew (his i List.mem_cons_self) hround)
        (fun j hj => his j (List.mem_cons_of_mem i hj)) hrest
      refine ⟨h'.manages, h'.pattern, ?_⟩
      rintro n (hn | ⟨j, hj, rfl⟩)
      · exact h'.portable n (.inl (.inl hn))
      · rcases List.mem_cons.mp hj with rfl | hj
        · exact h'.portable _ (.inl (.inr rfl))
        · exact h'.portable _ (.inr ⟨j, hj, rfl⟩)

theorem foldl_onOld (is : List LogDefine) (h : m.Carries done) (new_value : LogSet) :
    (is.foldl (Log.onOld new_value) m).Carries done := by
  induction is generalizing m with
  | nil => exact h
  | cons i is ih => exact ih (h.onOld new_value i)

theorem getLogger (h : m.Carries done) (name : String) : (m.getLogger name).2.Carries done := by
  refine ⟨⟨?_, ?_⟩, ?_, ?_⟩
  · intro n
    rw [logger_getLogger, getLogger_appenders]
    exact h.manages.made n
  · intro n other
    rw [logger_getLogger, logger_getLogger]
    exact h.manages.own n other
  · intro n
    unfold LoggerManager.pattern
    rw [logger_getLogger]
    exact h.pattern n
  · intro n
    rw [logger_getLogger, getLogger_appenders]
    exact h.portable n

theorem use (h : m.Carries done) {old_value : LogSet} {u : LogUse} {s' : LogSet × LoggerManager}
    (hstep : u.step yaml (old_value, m) = some s') :
    s'.2.Carries fun n => done n ∨ u.Configures yaml n := by
  cases u with
  | getLogger name =>
      obtain rfl : (old_value, (m.getLogger name).2) = s' := Option.some.inj hstep
      have h' := h.getLogger name
      exact ⟨h'.manages, h'.pattern, fun n hn => h'.portable n (hn.resolve_right not_false)⟩
  | load text =>
      obtain ⟨v, hv, hround⟩ := Option.bind_eq_some_iff.mp hstep
      obtain ⟨m₁, hm₁, rfl⟩ := Option.map_eq_some_iff.mp hround
      obtain ⟨m₂, hnew, rfl⟩ := Option.map_eq_some_iff.mp hm₁
      -- a decoded set gives no level and no formatter that a dump would lose
      have h' := (h.foldlM_onNew (decode_read hv) hnew).foldl_onOld old_value.elems v
      refine ⟨h'.manages, h'.pattern, ?_⟩
      rintro n (hn | ⟨w, hw, hi⟩)
      · exact h'.portable n (.inl hn)
      · obtain rfl : v = w := Option.some.inj (hv.symm.trans hw)
        exact h'.portable n (.inr hi)

theorem run {uses : List LogUse} {s s' : LogSet × LoggerManager} (h : s.2.Carries done)
    (hrun : uses.foldlM (LogUse.step yaml) s = some s') :
    s'.2.Carries fun n => done n ∨ ∃ u ∈ uses, u.Configures yaml n := by
  induction uses generalizing s done with
  | nil =>
      obtain rfl : s = s' := by simpa using hrun
      refine ⟨h.manages, h.pattern, ?_⟩
      rintro n (hn | ⟨u, hu, -⟩)
      · exact h.portable n hn
      · cases hu
  | cons u uses ih =>
      rw [List.foldlM_cons] at hrun
      obtain ⟨s₁, hstep, hrest⟩ := Option.bind_eq_some_iff.mp hrun
      have h' := ih (h.use hstep) hrest
      refine ⟨h'.manages, h'.pattern, ?_⟩
      rintro n (hn | ⟨w, hw, hn⟩)
      · exact h'.portable n (.inl (.inl hn))
      · rcases List.mem_cons.mp hw with rfl | hw
        · exact h'.portable n (.inl (.inr hn))
        · exact h'.portable n (.inr ⟨w, hw, hn⟩)

/-- All but the appender of `root` is written out whole. -/
theorem new : LoggerManager.new.Carries fun name => name ≠ "root" := by
  refine ⟨manages_new, ?_, ?_⟩
  · intro name
    rw [stands_new.pattern]
    exact Logger.usable_defaultPattern
  · intro name hname
    have hlogger : LoggerManager.new.logger name = Logger.new name := logger_put_ne hname _ _
    rw [hlogger]
    refine ⟨Logger.usable_defaultPattern, ?_, ?_⟩
    · intro x hx
      cases hx
    · intro x hx
      cases hx

end LoggerManager.Carries

end Sylar.Log
