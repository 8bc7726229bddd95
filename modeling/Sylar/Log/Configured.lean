/-
# Sylar.Log.Configured — what a program logs, from what it does with its configuration.

The variable `logs` has one listener that keeps the loggers.  A program may set it, from code or from a
text, and load documents that have texts for it, while it does as it likes with its other variables.
`log_of_calls` goes the whole way: it says which programs survive, and then, for every logger and every
level, where an event goes and with which pattern.
-/
import Sylar.Config.Cast
import Sylar.Config.Mirror
import Sylar.Log.Notice
import Sylar.Log.Route

namespace Sylar.Log

open Sylar.Config (Call ConfigVar Mirrors Node Process Spares ValueType Yaml arrivals arrive on_change_cb)

/-- The types of the variables; the one of `logs` is a set of loggers. -/
def Kind (U : String → Type) (name : String) : Type := if name = "logs" then LogSet else U name

/-- The listener gets from one configuration to the next: no logger is as it was, and the appenders are
files or `stdout`. -/
def Taken (old_value new_value : LogSet) : Prop :=
  ∀ i ∈ new_value.elems,
    (∀ j ∈ old_value.elems, ¬ (i.name = j.name ∧ i.level = j.level ∧ i.formatter = j.formatter)) ∧
    ∀ a ∈ i.appenders, a.type = 1 ∨ a.type = 2

instance (old_value new_value : LogSet) : Decidable (Taken old_value new_value) :=
  inferInstanceAs (Decidable (∀ i ∈ new_value.elems,
    (∀ j ∈ old_value.elems, ¬ (i.name = j.name ∧ i.level = j.level ∧ i.formatter = j.formatter)) ∧
    ∀ a ∈ i.appenders, a.type = 1 ∨ a.type = 2))

variable {R : Type} {yaml : Yaml}

/-- What the listener keeps. -/
theorem logIniter_mirrors : Mirrors on_logger_conf_changed (logIniter (R := R)) := by
  constructor
  · intro old_value new_value s m hm
    refine ⟨s.2, ?_⟩
    rw [logIniter, hm]
  · intro old_value new_value s hnone
    rw [logIniter, hnone]

/-- The listener, over any configurations. -/
theorem foldlM_arrive_isSome {vs : List LogSet} {s : LogSet × LoggerManager} :
    (vs.foldlM (arrive on_logger_conf_changed) s).isSome = true ↔ (s.1 :: vs).IsChain Taken := by
  induction vs generalizing s with
  | nil => simp
  | cons v vs ih =>
      have hround : (on_logger_conf_changed s.1 v s.2).isSome = true ↔ Taken s.1 v := by
        rw [on_logger_conf_changed_isSome]
        constructor
        · intro h i hi
          obtain ⟨hchanged, htypes⟩ := h i hi
          exact ⟨LogSet.changed_iff.mp hchanged, htypes⟩
        · intro h i hi
          obtain ⟨hchanged, htypes⟩ := h i hi
          exact ⟨LogSet.changed_iff.mpr hchanged, htypes⟩
      rw [List.foldlM_cons, List.isChain_cons_cons, ← hround, arrive]
      cases hrun : on_logger_conf_changed s.1 v s.2 with
      | none => simp
      | some m =>
          have hrest := @ih (v, m)
          simpa using hrest

section Program

variable {U : String → Type} {κ : Type} [DecidableEq κ]

/-- What the static objects of `log.cc` do with the configuration. -/
def logCalls : List (Call (Kind U) (LoggerManager × R)) :=
  [.lookup "logs" LogSet.empty, .addListener "logs" logIniter]

/-- The configurations that a program brings, one after the other. -/
def configurations (type : (name : String) → ValueType (Kind U name)) (yaml : Yaml)
    (calls : List (Call (Kind U) (LoggerManager × R))) : List LogSet :=
  arrivals (logsType yaml) .empty (calls.flatMap (Call.offers type yaml "logs"))

variable {type : (name : String) → ValueType (Kind U name)} {kind : String → κ}
variable {p : Process (Kind U) κ (LoggerManager × R)} {calls : List (Call (Kind U) (LoggerManager × R))}

/-- The loggers of a program are those of the configurations it brings. -/
theorem rel_run (htype : type "logs" = logsType yaml) (hnew : p.datas "logs" = none)
    (hothers : ∀ other var, p.datas other = some var → ∀ i ∈ var.m_cbs, Spares i.2)
    (hm : p.state.1 = .new)
    (hcalls : ∀ call ∈ calls, call.Respects "logs" (p.s_fun_id (kind "logs") + 1)) :
    Option.Rel (fun (x : LogSet × LoggerManager) p' => x.2 = p'.state.1)
      ((configurations type yaml calls).foldlM (arrive on_logger_conf_changed) (.empty, .new))
      (p.run type yaml kind (logCalls ++ calls)) := by
  have hvalid : Sylar.Config.validName "logs" = true := by decide
  obtain ⟨p₁, hstart, hp₁⟩ := Process.Mirrored.start type yaml kind hvalid logIniter_mirrors LogSet.empty
    hnew hothers
  rw [hm] at hp₁
  have hrun : p.run type yaml kind (logCalls ++ calls) = p₁.run type yaml kind calls := by
    unfold Process.run at hstart ⊢
    rw [List.foldlM_append, logCalls, hstart]
    rfl
  have hrel := Process.run_mirrored type yaml (by decide) hp₁ hcalls
  rw [htype] at hrel
  rw [hrun]
  refine Lib.rel_mono ?_ hrel
  intro x p' hp'
  obtain ⟨var, -, rfl, -⟩ := hp'.exists_var
  rfl

/-- **From what a program does to its lines.**  Whatever other variables there are, and whatever is done
with them, a program survives if and only if none of the configurations it brings leaves a logger as the
one before had it, or has an appender of no type; and then these configurations account for every
line. -/
theorem log_of_calls (htype : type "logs" = logsType yaml) (hnew : p.datas "logs" = none)
    (hothers : ∀ other var, p.datas other = some var → ∀ i ∈ var.m_cbs, Spares i.2)
    (hm : p.state.1 = .new)
    (hcalls : ∀ call ∈ calls, call.Respects "logs" (p.s_fun_id (kind "logs") + 1)) :
    ((p.run type yaml kind (logCalls ++ calls)).isSome = true ↔
      (LogSet.empty :: configurations type yaml calls).IsChain Taken) ∧
    ∀ p', p.run type yaml kind (logCalls ++ calls) = some p' → ∀ level name,
      (p'.state.1.log level name).map (List.map line)
        = some (lines (configurations type yaml calls) level name) := by
  have hrel : Option.Rel _ _ (p.run type yaml kind (logCalls ++ calls)) :=
    rel_run htype hnew hothers hm hcalls
  have hreloads : reloads (configurations type yaml calls)
      = ((configurations type yaml calls).foldlM (arrive on_logger_conf_changed) (.empty, .new)).map
          Prod.snd := rfl
  have hsome := @foldlM_arrive_isSome (configurations type yaml calls) (.empty, .new)
  rw [← hsome]
  generalize List.foldlM (arrive on_logger_conf_changed) _ _ = y at hrel hreloads ⊢
  constructor
  · generalize p.run type yaml kind (logCalls ++ calls) = q at hrel ⊢
    cases hrel with
    | none => rfl
    | some => exact iff_of_true rfl rfl
  · intro p' hrun level name
    rw [hrun] at hrel
    cases hrel with
    | some hm' =>
        have hlook := look_of_history (hreloads.trans (congrArg some hm'))
        exact lines_of_look hlook level name

end Program

/-! ## A program -/

/-- The listener that `_HookIniter` adds to `tcp.connect.timeout`; it keeps `s_connect_timeout`. -/
def hookIniter : on_change_cb Int32 (LoggerManager × UInt64) := fun _ new_value s =>
  .returned (s.1, new_value.toInt64.toUInt64)

theorem hookIniter_spares : Spares hookIniter := by
  intro old_value new_value s
  exact ⟨new_value.toInt64.toUInt64, .inl rfl⟩

/-- `g_tcp_connect_timeout` with its listener. -/
def g_tcp_connect_timeout : ConfigVar Int32 (LoggerManager × UInt64) :=
  { m_val := 5000, m_cbs := [(1, hookIniter)] }

/-- The static objects of `hook.cpp` are there. -/
def hooked : Process (Kind fun _ => Int32) Bool (LoggerManager × UInt64) where
  datas := Function.update (fun _ => none) "tcp.connect.timeout" (some g_tcp_connect_timeout)
  s_fun_id isLogs := if isLogs then 0 else 1
  state := (.new, 5000)

/-- The types of the two variables. -/
def hookedTypes (yaml : Yaml) : (name : String) → ValueType (Kind (fun _ => Int32) name) :=
  Function.update
    (Function.update (fun _ => ⟨fun _ _ => true, fun _ => none⟩) "tcp.connect.timeout"
      (⟨fun v m_val => v == m_val, Sylar.Config.decimal.parse⟩ : ValueType Int32))
    "logs" (logsType yaml)

/-- The loggers `mail` and `system`, and a timeout. -/
def firstDocument : Node :=
  .map
    [("logs", .sequence
        [.map [("name", .scalar "mail"), ("level", .scalar "info")],
          .map [("name", .scalar "system"), ("level", .scalar "debug")]]),
      ("tcp", .map [("connect", .map [("timeout", .scalar "300")])])]

/-- The logger `system`, with a file. -/
def secondDocument : Node :=
  .map
    [("logs", .sequence
        [.map [("name", .scalar "system"), ("level", .scalar "info"), ("appenders", .sequence
          [.map [("type", .scalar "FileLogAppender"), ("file", .scalar "system.txt"),
            ("formatter", .scalar "%m%n")]])]])]

/-- The sequences in them are told apart by their lengths. -/
def twoDocuments : Yaml where
  load text :=
    if text = "2" then (firstDocument.get "logs").getD none
    else if text = "1" then (secondDocument.get "logs").getD none
    else none
  emit n := toString n.size
  nullText := some "null"

/-- It loads both, and sets the timeout in between. -/
def twoLoads : List (Call (Kind fun _ => Int32) (LoggerManager × UInt64)) :=
  [.loadFromYaml firstDocument, .addListener "tcp.connect.timeout" hookIniter,
    .fromString "tcp.connect.timeout" "500", .loadFromYaml secondDocument]

/-- `mail` is taken out by the second document, and writes through `root` from then on. -/
theorem log_of_twoLoads : ∃ p',
    hooked.run (hookedTypes twoDocuments) twoDocuments (fun name => name == "logs")
      (logCalls ++ twoLoads) = some p' ∧
    (p'.state.1.log .debug "mail").map (List.map line) = some [(.stdout, defaultPattern)] ∧
    (p'.state.1.log .debug "system").map (List.map line) = some [] ∧
    (p'.state.1.log .info "system").map (List.map line) = some [(.file "system.txt", "%m%n")] := by
  have htype : hookedTypes twoDocuments "logs" = logsType twoDocuments := Function.update_self _ _ _
  have hnew : hooked.datas "logs" = none := by
    have hne : "logs" ≠ "tcp.connect.timeout" := by decide
    exact Function.update_of_ne hne (some g_tcp_connect_timeout) _
  have hothers : ∀ other var, hooked.datas other = some var → ∀ i ∈ var.m_cbs, Spares i.2 := by
    intro other var hvar i hi
    unfold hooked at hvar
    dsimp only at hvar
    by_cases hother : other = "tcp.connect.timeout"
    · subst hother
      rw [Function.update_self] at hvar
      obtain rfl := Option.some.inj hvar
      obtain rfl := List.mem_singleton.mp hi
      exact hookIniter_spares
    · rw [Function.update_of_ne hother] at hvar
      cases hvar
  have hcalls : ∀ call ∈ twoLoads, call.Respects "logs" 1 := by
    intro call hcall
    simp only [twoLoads, List.mem_cons, List.not_mem_nil, or_false] at hcall
    rcases hcall with rfl | rfl | rfl | rfl
    · trivial
    · exact hookIniter_spares
    · trivial
    · trivial
  obtain ⟨hlives, hlines⟩ := @log_of_calls _ _ _ _ _ _ (fun name => name == "logs") _ _ htype hnew
    hothers rfl hcalls
  obtain ⟨p', hp'⟩ := Option.isSome_iff_exists.mp (hlives.mpr (by decide))
  refine ⟨p', hp', ?_, ?_, ?_⟩
  · rw [hlines p' hp' .debug "mail"]
    decide
  · rw [hlines p' hp' .debug "system"]
    decide
  · rw [hlines p' hp' .info "system"]
    decide

end Sylar.Log
