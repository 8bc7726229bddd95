/-
# Sylar.Log.Define — the log configuration and its codec (`sylar/log.cc`).

A `LogDefine` configures one logger; the configuration is a `std::set` of them, ordered by name.  Two
conversions lead to YAML text and back.  They are written separately and do not agree on every field:
the encoder writes a logger's formatter where it is empty, and the decoder does not read an appender's
level, nor the formatter of one that writes to `stdout`.  `codec_roundtrip_iff` says which sets come
back.

`LogDefine.eq` is the source's `operator==`; its last comparison is of a list with itself.
-/
import Sylar.Config.Yaml
import Sylar.Lib.OrderedSet
import Mathlib.Data.List.ReduceOption

namespace Sylar.Log

open Sylar.Config (Node Yaml mapM_eq_some)
open Lib (Ordered insertBy)

/-! ## Levels -/

/-- `LogLevel::Level`. -/
inductive Level
  | unknow
  | debug
  | info
  | warn
  | error
  | fatal
  deriving DecidableEq, Repr

/-- `LogLevel::ToString`. -/
def Level.toString : Level → String
  | .debug => "DEBUG"
  | .info => "INFO"
  | .warn => "WARN"
  | .error => "ERROR"
  | .fatal => "FATAL"
  | .unknow => "UNKNOW"

/-- `LogLevel::FromString`. -/
def Level.fromString (str : String) : Level :=
  if str = "debug" then .debug
  else if str = "info" then .info
  else if str = "warn" then .warn
  else if str = "error" then .error
  else if str = "fatal" then .fatal
  else if str = "DEBUG" then .debug
  else if str = "INFO" then .info
  else if str = "WARN" then .warn
  else if str = "ERROR" then .error
  else if str = "FATAL" then .fatal
  else .unknow

@[simp] theorem Level.fromString_toString (level : Level) :
    Level.fromString level.toString = level := by
  cases level <;> decide

/-! ## Definitions -/

/-- `LogAppenderDefine`; `operator==` compares every member. -/
structure LogAppenderDefine where
  /-- 1 is a file, 2 `stdout`. -/
  type : Int
  level : Level
  formatter : String
  file : String
  deriving DecidableEq, Repr

/-- `LogDefine`. -/
structure LogDefine where
  name : String
  level : Level
  formatter : String
  appenders : List LogAppenderDefine
  deriving DecidableEq, Repr

/-- `LogDefine::operator==`. -/
def LogDefine.eq (i oth : LogDefine) : Bool :=
  i.name == oth.name && i.level == oth.level && i.formatter == oth.formatter
    -- both sides are the list of `this`
    && i.appenders == i.appenders

/-- What it looks at: everything but the appenders. -/
theorem LogDefine.eq_iff {i oth : LogDefine} :
    i.eq oth = true ↔ i.name = oth.name ∧ i.level = oth.level ∧ i.formatter = oth.formatter := by
  simp [LogDefine.eq, and_assoc]

/-- `std::set<LogDefine>`: `operator<` compares names. -/
structure LogSet where
  elems : List LogDefine
  ordered : Ordered LogDefine.name elems

namespace LogSet

theorem ext {v w : LogSet} (h : v.elems = w.elems) : v = w := by
  obtain ⟨vs, hv⟩ := v
  obtain ⟨ws, hw⟩ := w
  cases h
  rfl

def empty : LogSet := ⟨[], Ordered.nil⟩

instance : Membership LogDefine LogSet := ⟨fun v i => i ∈ v.elems⟩

/-- `find(i)`. -/
def find (v : LogSet) (i : LogDefine) : Option LogDefine :=
  v.elems.find? fun d => d.name = i.name

theorem find_eq_none_iff {v : LogSet} {i : LogDefine} :
    v.find i = none ↔ ∀ j ∈ v, j.name ≠ i.name := by
  unfold find
  rw [List.find?_eq_none]
  simp only [decide_eq_true_eq]
  rfl

/-- There is one logger of a name. -/
theorem find_eq_some_iff {v : LogSet} {i j : LogDefine} :
    v.find i = some j ↔ j ∈ v ∧ j.name = i.name := by
  constructor
  · intro h
    exact ⟨List.mem_of_find?_eq_some h, by simpa using List.find?_some h⟩
  · rintro ⟨hj, hname⟩
    cases hfind : v.find i with
    | none => exact absurd hname (find_eq_none_iff.mp hfind j hj)
    | some k =>
        have hk : k.name = i.name := by simpa using List.find?_some hfind
        exact congrArg some (v.ordered.eq_of_key (List.mem_of_find?_eq_some hfind) hj (hk.trans hname.symm))

/-- `operator==` of two sets. -/
def eq (v w : LogSet) : Bool :=
  v.elems.length == w.elems.length && (v.elems.zip w.elems).all fun p => p.1.eq p.2

end LogSet

/-! ## The codec -/

/-- One appender as YAML. -/
def encodeAppender (a : LogAppenderDefine) : Node :=
  .ofEntries
    ((if a.type = 1 then [("type", .scalar "FileLogAppender"), ("file", .scalar a.file)]
      else if a.type = 2 then [("type", .scalar "StdoutLogAppender")] else [])
    ++ (if a.level ≠ .unknow then [("level", .scalar a.level.toString)] else [])
    ++ (if a.formatter ≠ "" then [("formatter", .scalar a.formatter)] else []))

/-- One logger as YAML. -/
def encodeDefine (i : LogDefine) : Node :=
  .map
    ([("name", .scalar i.name)]
    ++ (if i.level ≠ .unknow then [("level", .scalar i.level.toString)] else [])
    -- `if(i.formatter.empty())`; an appender's formatter has the opposite condition
    ++ (if i.formatter = "" then [("formatter", .scalar i.formatter)] else [])
    ++ (if i.appenders ≠ [] then [("appenders", .ofItems (i.appenders.map encodeAppender))] else []))

/-- `LexicalCast<std::set<LogDefine>, std::string>`, up to the text. -/
def encode (v : LogSet) : Node := .ofItems (v.elems.map encodeDefine)

/-- A member that is read if it is there, and `or` otherwise. -/
def readOr (yaml : Yaml) (or : String) (n : Node) (key : String) : Option String :=
  (n.get key).bind fun found => found.elim (some or) (Node.asString yaml)

/-- One element of `appenders`; the inner `none` is `continue`. -/
def decodeAppender (yaml : Yaml) (a : Node) : Option (Option LogAppenderDefine) := do
  match ← a.get "type" with
  | none => return none
  | some type =>
      let type ← type.asString yaml
      if type = "FileLogAppender" then
        match ← a.get "file" with
        | none => return none
        | some file =>
            let file ← file.asString yaml
            let formatter ← readOr yaml "" a "formatter"
            return some { type := 1, level := .unknow, formatter := formatter, file := file }
      else if type = "StdoutLogAppender" then
        -- no other member is read in this branch
        return some { type := 2, level := .unknow, formatter := "", file := "" }
      else return none

/-- `n[i]` for each index below `n.size()`; one that is not defined is null. -/
def elements (n : Node) : Option (List Node) :=
  (List.range n.size).mapM fun i => (n.item i).map fun found => found.getD .null

/-- One element of the document. -/
def decodeDefine (yaml : Yaml) (n : Node) : Option (Option LogDefine) := do
  match ← n.get "name" with
  | none => return none
  | some name =>
      let name ← name.asString yaml
      let level ← readOr yaml "" n "level"
      let formatter ← readOr yaml "" n "formatter"
      let appenders ← match ← n.get "appenders" with
        | none => pure []
        | some as => (← elements as).mapM (decodeAppender yaml)
      return some
        { name := name, level := Level.fromString level, formatter := formatter
          appenders := appenders.reduceOption }

/-- `vec.insert(ld)`. -/
def LogSet.insert (v : LogSet) (i : LogDefine) : LogSet where
  elems := insertBy LogDefine.name i v.elems
  ordered := v.ordered.insertBy

/-- `LexicalCast<std::string, std::set<LogDefine>>`. -/
def decode (yaml : Yaml) (text : String) : Option LogSet := do
  let node ← yaml.load text
  let found ← (← elements node).mapM (decodeDefine yaml)
  return found.reduceOption.foldl LogSet.insert .empty

theorem LogSet.elems_foldl_insert (xs : List LogDefine) (v : LogSet) :
    (xs.foldl LogSet.insert v).elems = xs.foldl (fun s i => insertBy LogDefine.name i s) v.elems := by
  induction xs generalizing v with
  | nil => rfl
  | cons i xs ih => exact ih (v.insert i)

/-! ## There and back -/

/-- The appenders that can be configured: a file by its name, or `stdout`. -/
def LogAppenderDefine.Valid (a : LogAppenderDefine) : Prop :=
  a.type = 1 ∨ (a.type = 2 ∧ a.file = "")

/-- What is left of an appender. -/
def LogAppenderDefine.reread (a : LogAppenderDefine) : LogAppenderDefine :=
  { a with level := .unknow, formatter := if a.type = 1 then a.formatter else "" }

/-- What is left of a logger. -/
def LogDefine.reread (i : LogDefine) : LogDefine :=
  { i with formatter := "", appenders := i.appenders.map LogAppenderDefine.reread }

@[simp] theorem LogDefine.reread_name (i : LogDefine) : i.reread.name = i.name := rfl

/-- What is left of a set. -/
def LogSet.reread (v : LogSet) : LogSet where
  elems := v.elems.map LogDefine.reread
  ordered := List.pairwise_map.mpr v.ordered

variable {yaml : Yaml}

theorem decodeAppender_encode {a : LogAppenderDefine} (ha : a.Valid) :
    decodeAppender yaml (encodeAppender a) = some (some a.reread) := by
  obtain ⟨type, level, formatter, file⟩ := a
  rcases ha with htype | ⟨htype, hfile⟩
  · subst htype
    by_cases hl : level = .unknow <;> by_cases hf : formatter = "" <;>
      simp [decodeAppender, encodeAppender, Node.ofEntries, Node.get, Node.asString, readOr,
        LogAppenderDefine.reread, hl, hf]
  · subst htype hfile
    simp [decodeAppender, encodeAppender, Node.ofEntries, Node.get, Node.asString,
      LogAppenderDefine.reread]

/-- The elements of a list that was pushed back one by one. -/
theorem elements_ofItems (items : List Node) : elements (.ofItems items) = some items := by
  unfold elements Node.ofItems
  split
  · rename_i h
    subst h
    rfl
  · -- below `size()` no index misses
    have hread : ∀ i ∈ List.range items.length,
        ((Node.sequence items).item i).map (fun found => found.getD .null)
          = some (items[i]?.getD .null) := fun _ _ => rfl
    refine (mapM_eq_some hread).trans (congrArg some ?_)
    apply List.ext_getElem
    · rw [List.length_map, List.length_range]
    · intro i _ hi
      rw [List.getElem_map, List.getElem_range, List.getElem?_eq_getElem hi, Option.getD_some]

theorem reduceOption_map_some {α β : Type} (f : α → β) (xs : List α) :
    (xs.map fun a => some (f a)).reduceOption = xs.map f := by
  induction xs with
  | nil => rfl
  | cons a xs ih => rw [List.map_cons, List.reduceOption_cons_of_some, ih, List.map_cons]

theorem map_eq_self_iff {α : Type} {f : α → α} {xs : List α} :
    xs.map f = xs ↔ ∀ a ∈ xs, f a = a := by
  have h := List.map_inj_left (l := xs) (f := f) (g := id)
  rwa [List.map_id] at h

/-- The appenders are read one by one, if there are any. -/
theorem decodeAppenders_encode {as : List LogAppenderDefine} (has : ∀ a ∈ as, a.Valid) :
    (elements (.ofItems (as.map encodeAppender))).bind (List.mapM (decodeAppender yaml))
      = some (as.map fun a => some a.reread) := by
  rw [elements_ofItems, Option.bind_some, List.mapM_map]
  exact mapM_eq_some fun a ha => decodeAppender_encode (has a ha)

/-! The members of an encoded logger, one by one. -/

theorem encodeDefine_name (i : LogDefine) :
    (encodeDefine i).get "name" = some (some (.scalar i.name)) := by
  simp [encodeDefine, Node.get]

theorem encodeDefine_level (i : LogDefine) :
    readOr yaml "" (encodeDefine i) "level" =
      some (if i.level = .unknow then "" else i.level.toString) := by
  by_cases hl : i.level = .unknow <;> by_cases hf : i.formatter = "" <;>
    by_cases ha : i.appenders = [] <;>
    simp [readOr, encodeDefine, Node.get, Node.asString, hl, hf, ha]

/-- A formatter is written only where it is empty. -/
theorem encodeDefine_formatter (i : LogDefine) :
    readOr yaml "" (encodeDefine i) "formatter" = some "" := by
  by_cases hl : i.level = .unknow <;> by_cases hf : i.formatter = "" <;>
    by_cases ha : i.appenders = [] <;>
    simp [readOr, encodeDefine, Node.get, Node.asString, hl, hf, ha]

theorem encodeDefine_appenders (i : LogDefine) :
    (encodeDefine i).get "appenders" =
      some (if i.appenders = [] then none
        else some (.ofItems (i.appenders.map encodeAppender))) := by
  by_cases hl : i.level = .unknow <;> by_cases hf : i.formatter = "" <;>
    by_cases ha : i.appenders = [] <;>
    simp [encodeDefine, Node.get, hl, hf, ha]

theorem decodeDefine_encode {i : LogDefine} (hi : ∀ a ∈ i.appenders, a.Valid) :
    decodeDefine yaml (encodeDefine i) = some (some i.reread) := by
  have hlevel : Level.fromString (if i.level = .unknow then "" else i.level.toString) = i.level := by
    cases i.level <;> decide
  unfold decodeDefine
  rw [encodeDefine_name]
  simp only [Option.bind_eq_bind, Option.bind_some, Node.asString, encodeDefine_level,
    encodeDefine_formatter, encodeDefine_appenders, hlevel]
  by_cases ha : i.appenders = []
  · simp [ha, LogDefine.reread, List.reduceOption_nil]
  · have has : (elements (.ofItems (i.appenders.map encodeAppender))).bind
        (List.mapM (decodeAppender yaml)) = _ := decodeAppenders_encode hi
    obtain ⟨items, hitems, hread⟩ := Option.bind_eq_some_iff.mp has
    simp only [ha, if_false, hitems, Option.bind_some, hread,
      reduceOption_map_some]
    rfl

/-- **What comes back.** -/
theorem decode_encode {v : LogSet} (hv : ∀ i ∈ v, ∀ a ∈ i.appenders, a.Valid)
    (hload : yaml.load (yaml.emit (encode v)) = some (encode v)) :
    decode yaml (yaml.emit (encode v)) = some v.reread := by
  have hread : (v.elems.map encodeDefine).mapM (decodeDefine yaml)
      = some (v.elems.map fun i => some i.reread) := by
    rw [List.mapM_map]
    exact mapM_eq_some fun i hi => decodeDefine_encode (hv i hi)
  -- names come back, so the set is filled in its own order
  have hset : ((v.elems.map LogDefine.reread).foldl LogSet.insert .empty).elems
      = v.elems.map LogDefine.reread := by
    rw [LogSet.elems_foldl_insert]
    exact Lib.foldl_insertBy v.reread.ordered
  unfold decode
  rw [hload]
  simp only [Option.bind_eq_bind, Option.bind_some, encode, elements_ofItems, hread,
    reduceOption_map_some]
  exact congrArg some (LogSet.ext hset)

theorem LogAppenderDefine.reread_eq_iff {a : LogAppenderDefine} (ha : a.Valid) :
    a.reread = a ↔ a.level = .unknow ∧ (a.type = 2 → a.formatter = "") := by
  obtain ⟨type, level, formatter, file⟩ := a
  have htype : type = 1 ∨ type = 2 := ha.imp_right And.left
  rcases htype with rfl | rfl <;> simp [reread, eq_comm]

theorem LogDefine.reread_eq_iff {i : LogDefine} (hi : ∀ a ∈ i.appenders, a.Valid) :
    i.reread = i ↔ i.formatter = "" ∧
      ∀ a ∈ i.appenders, a.level = .unknow ∧ (a.type = 2 → a.formatter = "") := by
  have hall : i.appenders.map LogAppenderDefine.reread = i.appenders ↔
      ∀ a ∈ i.appenders, a.level = .unknow ∧ (a.type = 2 → a.formatter = "") := by
    rw [map_eq_self_iff]
    exact forall₂_congr fun a ha => LogAppenderDefine.reread_eq_iff (hi a ha)
  rw [← hall]
  obtain ⟨name, level, formatter, appenders⟩ := i
  simp [reread, eq_comm]

/-- **The sets that come back as they were**: no logger has a formatter, no appender a level, and no
appender to `stdout` a formatter. -/
theorem codec_roundtrip_iff {v : LogSet} (hv : ∀ i ∈ v, ∀ a ∈ i.appenders, a.Valid)
    (hload : yaml.load (yaml.emit (encode v)) = some (encode v)) :
    decode yaml (yaml.emit (encode v)) = some v ↔
      ∀ i ∈ v, i.formatter = "" ∧
        ∀ a ∈ i.appenders, a.level = .unknow ∧ (a.type = 2 → a.formatter = "") := by
  have hsame : v.reread = v ↔ v.elems.map LogDefine.reread = v.elems :=
    ⟨fun h => congrArg LogSet.elems h, fun h => LogSet.ext h⟩
  rw [decode_encode hv hload, Option.some_inj, hsame, map_eq_self_iff]
  exact forall₂_congr fun i hi => LogDefine.reread_eq_iff (hv i hi)

/-! ## Two configurations of one logger -/

/-- A `yaml-cpp` that is asked about one document. -/
def oneDocument (text : String) (n : Node) : Yaml where
  load t := if t = text then some n else none
  emit _ := text
  nullText := some "null"

theorem oneDocument_load (text : String) (n : Node) :
    (oneDocument text n).load ((oneDocument text n).emit n) = some n := by
  simp [oneDocument]

/-- The logger `system`, with a file. -/
def systemLogger (formatter fileFormatter : String) : LogSet where
  elems := [{ name := "system", level := .debug, formatter := formatter, appenders :=
    [{ type := 1, level := .unknow, formatter := fileFormatter, file := "system.txt" }] }]
  ordered := List.pairwise_singleton _ _

theorem systemLogger_valid (formatter fileFormatter : String) :
    ∀ i ∈ systemLogger formatter fileFormatter, ∀ a ∈ i.appenders, a.Valid := by
  intro i hi a ha
  obtain rfl := List.mem_singleton.mp hi
  obtain rfl := List.mem_singleton.mp ha
  exact .inl rfl

def systemText : String :=
  "- name: system\n  level: DEBUG\n  appenders:\n    - type: FileLogAppender\n      file: system.txt"

def systemFileText : String :=
  "- name: system\n  level: DEBUG\n  formatter: \"\"\n  appenders:\n" ++
  "    - type: FileLogAppender\n      file: system.txt\n      formatter: \"%m%n\""

/-- `bin/conf/log.yml` gives its loggers formatters of their own; they are not written. -/
theorem codec_drops_formatter :
    (∀ yaml : Yaml, (∀ n, yaml.load (yaml.emit n) = some n) →
      decode yaml (yaml.emit (encode (systemLogger "%d%T%m%n" "")))
        ≠ some (systemLogger "%d%T%m%n" ""))
    ∧ decode (oneDocument systemText (encode (systemLogger "%d%T%m%n" ""))) systemText
      = some (systemLogger "" "") := by
  have hreread : (systemLogger "%d%T%m%n" "").reread = systemLogger "" "" := LogSet.ext rfl
  constructor
  · intro yaml hload heq
    rw [decode_encode (systemLogger_valid _ _) (hload _), hreread, Option.some_inj] at heq
    have : (systemLogger "" "").elems = (systemLogger "%d%T%m%n" "").elems := congrArg _ heq
    revert this
    decide
  · rw [← hreread]
    exact decode_encode (systemLogger_valid "%d%T%m%n" "") (oneDocument_load systemText _)

/-- Only the appender has one. -/
theorem codec_roundtrip_systemLogger :
    decode (oneDocument systemFileText (encode (systemLogger "" "%m%n"))) systemFileText
      = some (systemLogger "" "%m%n") := by
  refine (codec_roundtrip_iff (systemLogger_valid "" "%m%n") ?_).mpr ?_
  · exact oneDocument_load systemFileText _
  · intro i hi
    obtain rfl := List.mem_singleton.mp hi
    refine ⟨rfl, ?_⟩
    intro a ha
    obtain rfl := List.mem_singleton.mp ha
    exact ⟨rfl, by decide⟩

end Sylar.Log
