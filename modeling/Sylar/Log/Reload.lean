/-
# Sylar.Log.Reload — what a new configuration does to the loggers (`LogIniter` in `sylar/log.cc`).

The listener runs over the new set and then over the old one.  A pointer that the source leaves null and
then goes through is `none` here.
-/
import Sylar.Log.Logger

namespace Sylar.Log

/-! ## The listener -/

/-- The appender that is made from a definition; with another type there is none. -/
def LogAppenderDefine.appender (a : LogAppenderDefine) : Option LogAppender :=
  let ap : Option LogAppender :=
    if a.type = 1 then some { output := .file a.file }
    else if a.type = 2 then some { output := .stdout }
    else none
  ap.map fun ap =>
    let ap := ap.setLevel a.level
    if a.formatter ≠ "" then
      let fmt := LogFormatter.new a.formatter
      if !fmt.m_error then ap.setFormatter (some fmt) else ap
    else ap

/-- One round of the loop over `i.appenders`. -/
def addDefined (l : Logger × Appenders) (a : LogAppenderDefine) : Option (Logger × Appenders) :=
  a.appender.map fun ap => l.1.addAppender l.2.length (l.2 ++ [ap])

/-- The formatter is passed on if there is one. -/
def LogDefine.giveFormatter (i : LogDefine) (l : Logger) (as : Appenders) : Logger × Appenders :=
  if i.formatter ≠ "" then l.setFormatterText i.formatter as else (l, as)

/-- What is done to the logger of `i`. -/
def LogDefine.configure (i : LogDefine) (l : Logger) (as : Appenders) :
    Option (Logger × Appenders) :=
  let l := i.giveFormatter (l.setLevel i.level) as
  i.appenders.foldlM addDefined (l.1.clearAppenders, l.2)

/-- Whether `logger` is assigned. -/
def LogSet.changed (old_value : LogSet) (i : LogDefine) : Bool :=
  match old_value.find i with
  | none => true
  -- where the two are equal the source has no branch
  | some it => !(i.eq it)

/-- One round of the loop over `new_value`. -/
def onNew (old_value : LogSet) (m : LoggerManager) (i : LogDefine) : Option LoggerManager :=
  if old_value.changed i then
    let logger := m.getLogger i.name
    (i.configure logger.1 logger.2.appenders).map fun l => logger.2.put i.name l
  else none

/-- One round of the loop over `old_value`. -/
def onOld (new_value : LogSet) (m : LoggerManager) (i : LogDefine) : LoggerManager :=
  match new_value.find i with
  | none =>
      -- the level and the appenders are reset, the formatter is not
      let logger := m.getLogger i.name
      logger.2.put i.name ((logger.1.setLevel .unknow).clearAppenders, logger.2.appenders)
  | some _ => m

/-- The listener of `g_log_defines`. -/
def on_logger_conf_changed (old_value new_value : LogSet) (m : LoggerManager) :
    Option LoggerManager :=
  (new_value.elems.foldlM (onNew old_value) m).map fun m =>
    old_value.elems.foldl (onOld new_value) m

/-! ## Null pointers -/

theorem LogAppenderDefine.appender_isSome_iff {a : LogAppenderDefine} :
    a.appender.isSome = true ↔ a.type = 1 ∨ a.type = 2 := by
  unfold appender
  by_cases h₁ : a.type = 1
  · simp [h₁]
  · by_cases h₂ : a.type = 2 <;> simp [h₁, h₂]

/-- A loop that may stop does not, if no round does. -/
theorem foldlM_isSome_iff {α β : Type} {f : β → α → Option β} {c : α → Prop}
    (hf : ∀ b a, (f b a).isSome = true ↔ c a) : ∀ {xs : List α} {b : β},
    (xs.foldlM f b).isSome = true ↔ ∀ a ∈ xs, c a
  | [], b => by simp
  | a :: xs, b => by
      rw [List.foldlM_cons, List.forall_mem_cons, ← hf b a]
      cases hfa : f b a with
      | none => simp
      | some b' => simpa using foldlM_isSome_iff hf

theorem LogDefine.configure_isSome_iff {i : LogDefine} {l : Logger} {as : Appenders} :
    (i.configure l as).isSome = true ↔ ∀ a ∈ i.appenders, a.type = 1 ∨ a.type = 2 := by
  unfold configure
  refine foldlM_isSome_iff ?_
  intro l a
  rw [addDefined, Option.isSome_map]
  exact LogAppenderDefine.appender_isSome_iff

/-- `logger` is assigned unless the old set has the logger with the same level and formatter. -/
theorem LogSet.changed_iff {old_value : LogSet} {i : LogDefine} :
    old_value.changed i = true ↔
      ∀ j ∈ old_value, ¬ (i.name = j.name ∧ i.level = j.level ∧ i.formatter = j.formatter) := by
  unfold changed
  cases hfind : old_value.find i with
  | none =>
      refine ⟨?_, fun _ => rfl⟩
      intro _ j hj h
      exact find_eq_none_iff.mp hfind j hj h.1.symm
  | some it =>
      obtain ⟨hit, hname⟩ := find_eq_some_iff.mp hfind
      rw [Bool.not_eq_true', ← Bool.not_eq_true, LogDefine.eq_iff]
      constructor
      · intro hne j hj h
        have hji : it = j :=
          old_value.ordered.eq_of_key hit hj (hname.trans h.1)
        exact hne (hji ▸ h)
      · intro h
        exact h it hit

theorem onNew_isSome_iff {old_value : LogSet} {m : LoggerManager} {i : LogDefine} :
    (onNew old_value m i).isSome = true ↔
      old_value.changed i = true ∧ ∀ a ∈ i.appenders, a.type = 1 ∨ a.type = 2 := by
  unfold onNew
  split
  · rename_i h
    rw [Option.isSome_map, LogDefine.configure_isSome_iff, h]
    simp
  · rename_i h
    simp [h]

/-- The listener needs both pointers, for each logger of the new set. -/
theorem on_logger_conf_changed_isSome {old_value new_value : LogSet} {m : LoggerManager} :
    (on_logger_conf_changed old_value new_value m).isSome = true ↔
      ∀ i ∈ new_value,
        old_value.changed i = true ∧ ∀ a ∈ i.appenders, a.type = 1 ∨ a.type = 2 := by
  have hround : ∀ (m : LoggerManager) (i : LogDefine), (onNew old_value m i).isSome = true ↔
      old_value.changed i = true ∧ ∀ a ∈ i.appenders, a.type = 1 ∨ a.type = 2 :=
    fun _ _ => onNew_isSome_iff
  unfold on_logger_conf_changed
  rw [Option.isSome_map]
  exact foldlM_isSome_iff hround

/-- **When the listener gets through**: it goes through a null pointer where a logger is configured as
it was, and nowhere else. -/
theorem on_logger_conf_changed_isSome_iff {old_value new_value : LogSet}
    (hnew : ∀ i ∈ new_value, ∀ a ∈ i.appenders, a.type = 1 ∨ a.type = 2) (m : LoggerManager) :
    (on_logger_conf_changed old_value new_value m).isSome = true ↔
      ∀ i ∈ new_value, ∀ j ∈ old_value,
        ¬ (i.name = j.name ∧ i.level = j.level ∧ i.formatter = j.formatter) := by
  rw [on_logger_conf_changed_isSome]
  constructor
  · intro h i hi
    exact LogSet.changed_iff.mp (h i hi).1
  · intro h i hi
    exact ⟨LogSet.changed_iff.mpr (h i hi), hnew i hi⟩

/-- The first configuration of a process gets through. -/
theorem on_logger_conf_changed_isSome_first :
    (on_logger_conf_changed .empty (systemLogger "%d%T%m%n" "") .new).isSome = true := by
  refine (on_logger_conf_changed_isSome_iff ?_ .new).mpr ?_
  · exact fun i hi a ha => (systemLogger_valid _ _ i hi a ha).imp_right And.left
  · intro i _ j hj
    exact absurd hj List.not_mem_nil

/-- The logger `mail` is added. -/
def mailAdded : LogSet where
  elems := { name := "mail", level := .info, formatter := "", appenders := [] }
    :: (systemLogger "%d%T%m%n" "").elems
  ordered := Lib.Ordered.cons_iff.mpr ⟨by decide, (systemLogger "%d%T%m%n" "").ordered⟩

/-- The logger `system` has not changed, and its pointer is null. -/
theorem on_logger_conf_changed_null :
    (on_logger_conf_changed .empty (systemLogger "%d%T%m%n" "") .new).isSome = true ∧
    (on_logger_conf_changed .empty (systemLogger "%d%T%m%n" "") .new).bind
      (on_logger_conf_changed (systemLogger "%d%T%m%n" "") mailAdded) = none := by
  constructor
  · decide
  · rw [← Option.isNone_iff_eq_none]
    decide

/-! ## What a logger looks like behind its configuration -/

/-- A formatter that is used where it stands. -/
def usable (formatter : String) : Option String :=
  if formatter ≠ "" ∧ (LogFormatter.new formatter).m_error = false then some formatter else none

/-- An appender of a logger with the given pattern. -/
def LogAppenderDefine.look (pattern : String) (a : LogAppenderDefine) :
    Output × Level × Option String :=
  (if a.type = 1 then .file a.file else .stdout, a.level, some ((usable a.formatter).getD pattern))

/-- A logger with the given pattern. -/
def LogDefine.look (pattern : String) (i : LogDefine) :
    Level × String × List (Option (Output × Level × Option String)) :=
  (i.level, pattern, i.appenders.map fun a => some (a.look pattern))

theorem LogAppenderDefine.appender_spec {a : LogAppenderDefine} {ap : LogAppender}
    (h : a.appender = some ap) :
    ap.output = (if a.type = 1 then .file a.file else .stdout) ∧ ap.m_level = a.level ∧
      ap.m_formatter = (usable a.formatter).map LogFormatter.new := by
  obtain ⟨base, hbase, rfl⟩ := Option.map_eq_some_iff.mp h
  have hmade : base.output = (if a.type = 1 then .file a.file else .stdout) ∧
      base.m_formatter = none := by
    by_cases ht : a.type = 1
    · rw [if_pos ht, Option.some.injEq] at hbase
      simp [← hbase, ht]
    · rw [if_neg ht, Option.ite_none_right_eq_some, Option.some.injEq] at hbase
      simp [← hbase.2, ht]
  by_cases hf : a.formatter = ""
  · simp [hf, usable, LogAppender.setLevel, hmade]
  · cases he : (LogFormatter.new a.formatter).m_error <;>
      simp [hf, he, usable, LogAppender.setLevel, LogAppender.setFormatter, hmade]

/-- The logger's pattern is used where the appender has none of its own. -/
theorem LogAppenderDefine.look_appender {a : LogAppenderDefine} {ap : LogAppender}
    (h : a.appender = some ap) (fmt : LogFormatter) :
    (ap.adopt fmt).look = a.look fmt.m_pattern := by
  obtain ⟨houtput, hlevel, hformatter⟩ := appender_spec h
  cases hu : usable a.formatter with
  | none => simp [LogAppender.adopt, LogAppender.look, look, houtput, hlevel, hformatter, hu]
  | some pattern => simp [LogAppender.adopt, LogAppender.look, look, houtput, hlevel, hformatter, hu]

/-- The appenders are made one behind the other, and the logger gets them. -/
theorem foldlM_addDefined {is : List LogAppenderDefine} {l l' : Logger} {as as' : Appenders}
    (h : is.foldlM addDefined (l, as) = some (l', as')) :
    l'.m_level = l.m_level ∧ l'.m_formatter = l.m_formatter ∧ ∃ made : Appenders,
      as' = as ++ made ∧ l'.m_appenders = l.m_appenders ++ List.range' as.length made.length ∧
      made.map LogAppender.look = is.map (LogAppenderDefine.look l.m_formatter.m_pattern) := by
  induction is generalizing l as with
  | nil =>
      obtain ⟨rfl, rfl⟩ : l = l' ∧ as = as' := by simpa using h
      exact ⟨rfl, rfl, [], by simp⟩
  | cons a is ih =>
      rw [List.foldlM_cons, addDefined] at h
      cases hap : a.appender with
      | none => simp [hap] at h
      | some ap =>
          have hadd : (as ++ [ap]).modify as.length (LogAppender.adopt l.m_formatter)
              = as ++ [ap.adopt l.m_formatter] := by
            rw [List.modify_eq_take_drop]
            simp
          rw [hap, Option.map_some] at h
          simp only [Logger.addAppender, hadd] at h
          obtain ⟨hlevel, hfmt, made, has, happs, hlook⟩ := ih h
          refine ⟨hlevel, hfmt, ap.adopt l.m_formatter :: made, ?_, ?_, ?_⟩
          · rw [has, List.append_assoc]
            rfl
          · rw [happs, List.append_assoc, List.length_append]
            rfl
          · rw [List.map_cons, List.map_cons, hlook, LogAppenderDefine.look_appender hap]

/-- What stands behind a list, read place by place. -/
theorem map_getElem?_append {α : Type} (as made : List α) :
    ((List.range' as.length made.length).map fun p => (as ++ made)[p]?) = made.map some := by
  apply List.ext_getElem
  · simp
  · intro i _ hi
    have hi : i < made.length := by simpa using hi
    simp [hi]

/-- The formatter's part: the logger keeps the pattern it has where none is given that it can use. -/
theorem LogDefine.giveFormatter_spec (i : LogDefine) (l : Logger) (as : Appenders) :
    (i.giveFormatter l as).1.m_level = l.m_level ∧
      (i.giveFormatter l as).1.m_formatter.m_pattern
        = (usable i.formatter).getD l.m_formatter.m_pattern ∧
      (i.giveFormatter l as).2.length = as.length ∧
      ∀ p, p ∉ l.m_appenders → (i.giveFormatter l as).2[p]? = as[p]? := by
  unfold giveFormatter
  by_cases hf : i.formatter = ""
  · simp [hf, usable]
  · cases he : (LogFormatter.new i.formatter).m_error with
    | true => simp [hf, he, usable, Logger.setFormatterText]
    | false =>
        simp only [ne_eq, hf, not_false_eq_true, if_true, Logger.setFormatterText, he, usable,
          Bool.false_eq_true, if_false, Logger.setFormatter, and_self, Option.getD_some,
          LogFormatter.new_pattern, true_and]
        exact ⟨length_foldl_modify .., fun p hp => getElem?_foldl_modify hp as⟩

/-- **What configuring a logger does**: all of it is as the definition says, but for a pattern that is
not given. -/
theorem LogDefine.configure_spec {i : LogDefine} {l : Logger} {as : Appenders}
    {l' : Logger × Appenders} (h : i.configure l as = some l') :
    l.Confined as l' ∧
      l'.1.look l'.2 = i.look ((usable i.formatter).getD l.m_formatter.m_pattern) := by
  obtain ⟨hlevel, hpattern, hlength, hkept⟩ := i.giveFormatter_spec (l.setLevel i.level) as
  unfold configure at h
  generalize i.giveFormatter (l.setLevel i.level) as = given at h hlevel hpattern hlength hkept
  obtain ⟨hlevel', hfmt, made, has, happs, hlook⟩ := foldlM_addDefined h
  rw [Logger.clearAppenders, List.nil_append] at happs
  constructor
  · rw [hlength] at happs
    constructor
    · rw [has, List.length_append]
      omega
    · intro p hp hown
      rw [has, List.getElem?_append_left (by omega)]
      exact hkept p hown
    · intro p hp
      rw [happs, List.mem_range'_1] at hp
      rw [has, List.length_append]
      omega
    · intro p hp
      rw [happs, List.mem_range'_1] at hp
      exact .inr hp.1
  · have hlooks : l'.1.m_appenders.map (fun p => l'.2[p]?.map LogAppender.look)
        = i.appenders.map fun a =>
            some (a.look ((usable i.formatter).getD l.m_formatter.m_pattern)) := by
      calc l'.1.m_appenders.map (fun p => l'.2[p]?.map LogAppender.look)
          = ((List.range' given.2.length made.length).map fun p => (given.2 ++ made)[p]?).map
              (Option.map LogAppender.look) := by
            rw [happs, has, List.map_map]
            rfl
        _ = (made.map LogAppender.look).map some := by
            rw [map_getElem?_append, List.map_map, List.map_map]
            rfl
        _ = _ := by
            rw [hlook, List.map_map]
            exact congrArg (fun pattern => i.appenders.map fun a => some (a.look pattern)) hpattern
    unfold Logger.look LogDefine.look
    rw [hlooks, hlevel', hfmt]
    exact congrArg₂ (fun level pattern => (level, pattern, _)) hlevel hpattern

theorem LogDefine.pattern_of_look {i : LogDefine} {pattern name : String} {m : LoggerManager}
    (h : m.look name = i.look pattern) : m.pattern name = pattern := congrArg (fun x => x.2.1) h

/-! ## The two loops -/

section Loops

variable {old_value new_value : LogSet} {m m' : LoggerManager}

theorem onNew_spec {i : LogDefine} (hm : m.Manages) (h : onNew old_value m i = some m') :
    m'.Manages ∧ m'.look i.name = i.look ((usable i.formatter).getD (m.pattern i.name)) ∧
      ∀ name, name ≠ i.name → m'.look name = m.look name := by
  unfold onNew at h
  split at h
  · simp only [LoggerManager.getLogger_fst, LoggerManager.getLogger_appenders,
      LoggerManager.put_getLogger] at h
    obtain ⟨l', hl', rfl⟩ := Option.map_eq_some_iff.mp h
    obtain ⟨hconfined, hlook⟩ := LogDefine.configure_spec hl'
    refine ⟨hm.put hconfined, ?_, ?_⟩
    · unfold LoggerManager.look
      rw [LoggerManager.logger_put_self]
      exact hlook
    · intro name hname
      exact hm.look_put_ne hconfined hname
  · cases h

/-- Behind the first loop every logger of the new set is as its definition says. -/
theorem foldlM_onNew {is : List LogDefine} (his : Lib.Ordered LogDefine.name is) (hm : m.Manages)
    (h : is.foldlM (onNew old_value) m = some m') :
    m'.Manages ∧
      (∀ i ∈ is, m'.look i.name = i.look ((usable i.formatter).getD (m.pattern i.name))) ∧
      ∀ name, (∀ i ∈ is, i.name ≠ name) → m'.look name = m.look name := by
  induction is generalizing m with
  | nil =>
      obtain rfl : m = m' := by simpa using h
      exact ⟨hm, by simp, fun _ _ => rfl⟩
  | cons i is ih =>
      obtain ⟨hfirst, his⟩ := Lib.Ordered.cons_iff.mp his
      rw [List.foldlM_cons] at h
      obtain ⟨m₁, hround, hrest⟩ := Option.bind_eq_some_iff.mp h
      obtain ⟨hm₁, hlook₁, hother₁⟩ := onNew_spec hm hround
      obtain ⟨hm', hlook', hother'⟩ := ih his hm₁ hrest
      refine ⟨hm', ?_, ?_⟩
      · intro j hj
        rcases List.mem_cons.mp hj with rfl | hj
        · -- the rounds behind its own are about other names
          rw [← hlook₁]
          exact hother' j.name fun k hk => (ne_of_lt (hfirst k hk)).symm
        · have hpattern : m₁.pattern j.name = m.pattern j.name :=
            LoggerManager.pattern_of_look (hother₁ j.name (ne_of_lt (hfirst j hj)).symm)
          rw [hlook' j hj, hpattern]
      · intro name hname
        rw [hother' name fun j hj => hname j (List.mem_cons_of_mem i hj)]
        exact hother₁ name (hname i List.mem_cons_self).symm

theorem onOld_spec (new_value : LogSet) (i : LogDefine) (hm : m.Manages) :
    (onOld new_value m i).Manages ∧
      (∀ name, (onOld new_value m i).pattern name = m.pattern name) ∧
      ∀ j ∈ new_value, (onOld new_value m i).look j.name = m.look j.name := by
  unfold onOld
  cases hfind : new_value.find i with
  | some it => exact ⟨hm, fun _ => rfl, fun _ _ => rfl⟩
  | none =>
      simp only [LoggerManager.getLogger_fst, LoggerManager.getLogger_appenders,
        LoggerManager.put_getLogger]
      have hconfined : (m.logger i.name).Confined m.appenders
          (((m.logger i.name).setLevel .unknow).clearAppenders, m.appenders) := by
        constructor
        · exact Nat.le_refl _
        · intro p _ _
          rfl
        · intro p hp
          exact absurd hp List.not_mem_nil
        · intro p hp
          exact absurd hp List.not_mem_nil
      refine ⟨hm.put hconfined, ?_, ?_⟩
      · intro name
        unfold LoggerManager.pattern
        by_cases hname : name = i.name
        · subst hname
          rw [LoggerManager.logger_put_self]
          rfl
        · rw [LoggerManager.logger_put_ne hname]
      · intro j hj
        exact hm.look_put_ne hconfined (LogSet.find_eq_none_iff.mp hfind j hj)

/-- The second loop touches the loggers that are gone, and leaves them their patterns. -/
theorem foldl_onOld (new_value : LogSet) (is : List LogDefine) (hm : m.Manages) :
    (is.foldl (onOld new_value) m).Manages ∧
      (∀ name, (is.foldl (onOld new_value) m).pattern name = m.pattern name) ∧
      ∀ j ∈ new_value, (is.foldl (onOld new_value) m).look j.name = m.look j.name := by
  induction is generalizing m with
  | nil => exact ⟨hm, fun _ => rfl, fun _ _ => rfl⟩
  | cons i is ih =>
      obtain ⟨hm₁, hpattern₁, hlook₁⟩ := onOld_spec new_value i hm
      obtain ⟨hm', hpattern', hlook'⟩ := ih hm₁
      refine ⟨hm', ?_, ?_⟩
      · intro name
        exact (hpattern' name).trans (hpattern₁ name)
      · intro j hj
        exact (hlook' j hj).trans (hlook₁ j hj)

end Loops

/-! ## Runs -/

/-- The pattern a set gives to a logger, if it gives one that can be used. -/
def LogSet.given (v : LogSet) (name : String) : Option String :=
  (v.elems.find? fun i => i.name = name).bind fun i => usable i.formatter

/-- The last pattern that was given to a logger. -/
def carried (vs : List LogSet) (name : String) : String :=
  vs.foldl (fun pattern v => (v.given name).getD pattern) defaultPattern

/-- The configurations one after the other, from a fresh manager. -/
def reloads (vs : List LogSet) : Option LoggerManager :=
  (vs.foldlM (fun s v => (on_logger_conf_changed s.1 v s.2).map fun m => (v, m))
    (LogSet.empty, LoggerManager.new)).map Prod.snd

/-- The loggers after the configuration `v`, with these patterns. -/
structure Stands (v : LogSet) (patterns : String → String) (m : LoggerManager) : Prop where
  manages : m.Manages
  pattern : ∀ name, m.pattern name = patterns name
  look : ∀ i ∈ v, m.look i.name = i.look (patterns i.name)

theorem LogSet.given_of_mem {v : LogSet} {i : LogDefine} (hi : i ∈ v) :
    v.given i.name = usable i.formatter := by
  have hfind : v.find i = some i := find_eq_some_iff.mpr ⟨hi, rfl⟩
  unfold given
  rw [show (v.elems.find? fun d => d.name = i.name) = some i from hfind]
  rfl

theorem LogSet.given_of_forall_ne {v : LogSet} {name : String} (h : ∀ i ∈ v, i.name ≠ name) :
    v.given name = none := by
  have hfind : (v.elems.find? fun d => d.name = name) = none := by
    rw [List.find?_eq_none]
    intro i hi
    simpa using h i hi
  rw [given, hfind]
  rfl

/-- One configuration more. -/
theorem Stands.step {old_value new_value : LogSet} {patterns : String → String}
    {m m' : LoggerManager} (h : Stands old_value patterns m)
    (hrun : on_logger_conf_changed old_value new_value m = some m') :
    Stands new_value (fun name => (new_value.given name).getD (patterns name)) m' := by
  obtain ⟨m₁, hnew, rfl⟩ := Option.map_eq_some_iff.mp hrun
  obtain ⟨hm₁, hlook₁, hother₁⟩ := foldlM_onNew new_value.ordered h.manages hnew
  obtain ⟨hm', hpattern', hlook'⟩ := foldl_onOld new_value old_value.elems hm₁
  have hlook : ∀ i ∈ new_value, m₁.look i.name
      = i.look ((new_value.given i.name).getD (patterns i.name)) := by
    intro i hi
    rw [hlook₁ i hi, LogSet.given_of_mem hi, h.pattern]
  refine ⟨hm', ?_, ?_⟩
  · intro name
    rw [hpattern']
    by_cases hname : ∃ i ∈ new_value, i.name = name
    · obtain ⟨i, hi, rfl⟩ := hname
      exact LogDefine.pattern_of_look (hlook i hi)
    · have hname : ∀ i ∈ new_value, i.name ≠ name := fun i hi he => hname ⟨i, hi, he⟩
      rw [LogSet.given_of_forall_ne hname, Option.getD_none, ← h.pattern]
      exact LoggerManager.pattern_of_look (hother₁ name hname)
  · intro i hi
    rw [hlook' i hi]
    exact hlook i hi

theorem stands_new : Stands .empty (fun _ => defaultPattern) .new := by
  refine ⟨LoggerManager.manages_new, ?_, ?_⟩
  · intro name
    unfold LoggerManager.pattern LoggerManager.new
    by_cases hname : name = "root"
    · subst hname
      rw [LoggerManager.logger_put_self]
      rfl
    · rw [LoggerManager.logger_put_ne hname]
      rfl
  · intro i hi
    exact absurd hi List.not_mem_nil

/-- The run, from where it stands. -/
theorem Stands.run {vs : List LogSet} {s s' : LogSet × LoggerManager} {patterns : String → String}
    (h : Stands s.1 patterns s.2)
    (hrun : vs.foldlM (fun s v => (on_logger_conf_changed s.1 v s.2).map fun m => (v, m)) s
      = some s') :
    s'.1 = vs.getLastD s.1 ∧
      Stands s'.1 (fun name => vs.foldl (fun pattern v => (v.given name).getD pattern) (patterns name))
        s'.2 := by
  induction vs generalizing s patterns with
  | nil =>
      obtain rfl : s = s' := by simpa using hrun
      exact ⟨rfl, h⟩
  | cons v vs ih =>
      rw [List.foldlM_cons] at hrun
      obtain ⟨s₁, hround, hrest⟩ := Option.bind_eq_some_iff.mp hrun
      obtain ⟨m₁, hm₁, rfl⟩ := Option.map_eq_some_iff.mp hround
      obtain ⟨hlast, hstands⟩ := ih (s := (v, m₁)) (h.step hm₁) hrest
      refine ⟨?_, hstands⟩
      rw [hlast, List.getLastD_cons]

/-- **The logger state, after any run**: the last configuration decides all of it but the pattern, which
is the last one that was given. -/
theorem look_of_reloads {vs : List LogSet} {m : LoggerManager} (h : reloads vs = some m)
    {i : LogDefine} (hi : i ∈ vs.getLastD .empty) :
    m.look i.name = i.look (carried vs i.name) := by
  obtain ⟨s', hrun, rfl⟩ := Option.map_eq_some_iff.mp h
  obtain ⟨hlast, hstands⟩ := stands_new.run (s := (.empty, .new)) hrun
  rw [← hlast] at hi
  exact hstands.look i hi

/-- **Two runs that end in one configuration** leave its loggers in one state if and only if they gave
each of them the same pattern last. -/
theorem reloads_agree_iff {vs ws : List LogSet} {m n : LoggerManager} (hvs : reloads vs = some m)
    (hws : reloads ws = some n) (hlast : vs.getLastD .empty = ws.getLastD .empty) :
    (∀ i ∈ vs.getLastD .empty, m.look i.name = n.look i.name) ↔
      ∀ i ∈ vs.getLastD .empty, carried vs i.name = carried ws i.name := by
  refine forall₂_congr ?_
  intro i hi
  rw [look_of_reloads hvs hi, look_of_reloads hws (hlast ▸ hi)]
  constructor
  · intro h
    exact congrArg (fun x => x.2.1) h
  · intro h
    rw [h]

/-- With a formatter of its own, what came before does not show. -/
theorem reloads_agree_system :
    ∃ m n, reloads [systemLogger "%m%n" "", systemLogger "%d%T%m%n" ""] = some m ∧
      reloads [systemLogger "%d%T%m%n" ""] = some n ∧
      ∀ i ∈ systemLogger "%d%T%m%n" "", m.look i.name = n.look i.name := by
  have hvs : (reloads [systemLogger "%m%n" "", systemLogger "%d%T%m%n" ""]).isSome = true := by
    decide
  have hws : (reloads [systemLogger "%d%T%m%n" ""]).isSome = true := by decide
  obtain ⟨m, hm⟩ := Option.isSome_iff_exists.mp hvs
  obtain ⟨n, hn⟩ := Option.isSome_iff_exists.mp hws
  refine ⟨m, n, hm, hn, (reloads_agree_iff hm hn rfl).mpr ?_⟩
  intro i hi
  obtain rfl := List.mem_singleton.mp hi
  decide

/-- `system` is configured, taken out and put back without a formatter: it has the one it had before. -/
theorem reloads_keep_formatter :
    [systemLogger "" ""].getLastD .empty
        = [systemLogger "%m%n" "", .empty, systemLogger "" ""].getLastD .empty ∧
    (reloads [systemLogger "" ""]).map (LoggerManager.pattern "system") = some defaultPattern ∧
    (reloads [systemLogger "%m%n" "", .empty, systemLogger "" ""]).map
      (LoggerManager.pattern "system") = some "%m%n" := by
  refine ⟨rfl, ?_, ?_⟩
  · decide
  · decide

end Sylar.Log
