/-
# Sylar.Log.Inherit — whose formatter an appender writes with.

An appender without a formatter of its own writes with that of its logger.  The code does not look that
up: it copies the pointer into the appender, when the appender is added and when the logger's formatter
is set, and `m_hasFormatter` says that the pointer is not a copy.

`Logging` are loggers and appenders under the calls that touch any of this, in any order, with `own`,
the formatter that was last set on each appender itself.  Copies and loggers agree throughout a run
exactly if two kinds of step are absent from it (`inherits_throughout_iff`, `Careful`): the own formatter
of an attached appender is taken away, which leaves it with none; and an appender is added that still has
the copy of another formatter, which it keeps.
-/
import Sylar.Log.Logger
import Sylar.Lib.Transition
import Mathlib.Data.Fintype.Defs
import Mathlib.Data.List.Nodup

namespace Sylar.Log

/-! ## The calls -/

/-- `Logger::delAppender`. -/
def Logger.delAppender (appender : Nat) (l : Logger) : Logger :=
  { l with m_appenders := l.m_appenders.erase appender }

/-- `LogLevel::Level` as the number it is. -/
def Level.value : Level → Nat
  | .unknow => 0
  | .debug => 1
  | .info => 2
  | .warn => 3
  | .error => 4
  | .fatal => 5

/-- `FileLogAppender::log` and `StdoutLogAppender::log`: the formatter an event is written with, if it is
written.  The outer `none` is the call of `format` through a null pointer. -/
def LogAppender.log (level : Level) (a : LogAppender) : Option (Option LogFormatter) :=
  if a.m_level.value ≤ level.value then a.m_formatter.map some else some none

/-- `n` loggers, the appenders made so far, and the formatter last set on each of these. -/
structure Logging (n : Nat) where
  logger : Fin n → Logger
  appenders : Appenders
  own : Nat → Option LogFormatter

/-- A call on a logger, or on an appender. -/
inductive LogCall (n : Nat)
  | make (output : Output)
  | setFormatter (l : Fin n) (val : LogFormatter)
  | setFormatterText (l : Fin n) (val : String)
  | addAppender (l : Fin n) (appender : Nat)
  | delAppender (l : Fin n) (appender : Nat)
  | clearAppenders (l : Fin n)
  /-- `LogAppender::setFormatter`. -/
  | setOwn (appender : Nat) (val : Option LogFormatter)
  deriving DecidableEq

namespace Logging

variable {n : Nat}

/-- The appender is in the logger's list. -/
def Attached (s : Logging n) (l : Fin n) (p : Nat) : Prop := p ∈ (s.logger l).m_appenders

instance (s : Logging n) (l : Fin n) (p : Nat) : Decidable (s.Attached l p) :=
  inferInstanceAs (Decidable (p ∈ (s.logger l).m_appenders))

/-- What a pointer to a logger is written through. -/
def put (s : Logging n) (l : Fin n) (x : Logger × Appenders) : Logging n :=
  { s with logger := Function.update s.logger l x.1, appenders := x.2 }

/-- A call.  No appender is added to a logger while it belongs to another one. -/
def step (s : Logging n) : LogCall n → Option (Logging n)
  | .make output => some { s with appenders := s.appenders ++ [{ output := output }] }
  | .setFormatter l val => some (s.put l ((s.logger l).setFormatter val s.appenders))
  | .setFormatterText l val => some (s.put l ((s.logger l).setFormatterText val s.appenders))
  | .addAppender l p =>
      Lib.guarded (p < s.appenders.length ∧ ∀ l', l' ≠ l → ¬ s.Attached l' p)
        (s.put l ((s.logger l).addAppender p s.appenders))
  | .delAppender l p => some (s.put l ((s.logger l).delAppender p, s.appenders))
  | .clearAppenders l => some (s.put l ((s.logger l).clearAppenders, s.appenders))
  | .setOwn p val =>
      Lib.guarded (p < s.appenders.length)
        { s with
          appenders := s.appenders.modify p (LogAppender.setFormatter val)
          own := Function.update s.own p val }

end Logging

/-- All sequences of calls on `n` new loggers. -/
def logging (n : Nat) : Lib.System (Logging n) (LogCall n) where
  init s := ∃ name : Fin n → String, s = ⟨fun l => .new (name l), [], fun _ => none⟩
  step s c := s.step c

namespace Logging

variable {n : Nat} {s s' : Logging n} {c : LogCall n} {l : Fin n} {p : Nat}

/-! ## What is kept in any case -/

/-- The flag and the pointer of an appender against the formatter that was set on it. -/
structure Flagged (own : Option LogFormatter) (a : LogAppender) : Prop where
  flag : a.m_hasFormatter = own.isSome
  set : ∀ f, own = some f → a.m_formatter = some f

/-- No two loggers share an appender, and every flag tells the truth. -/
structure Kept (s : Logging n) : Prop where
  made : ∀ l p, s.Attached l p → p < s.appenders.length
  alone : ∀ l l' p, s.Attached l p → s.Attached l' p → l = l'
  flagged : ∀ p a, s.appenders[p]? = some a → Flagged (s.own p) a
  /-- An appender that is not made yet has nothing set on it. -/
  unset : ∀ p, s.appenders.length ≤ p → s.own p = none

theorem Flagged.inherit {own : Option LogFormatter} {a : LogAppender} (h : Flagged own a)
    (val : LogFormatter) : Flagged own (a.inherit val) := by
  unfold LogAppender.inherit
  split
  · exact h
  · rename_i hno
    refine ⟨h.flag, ?_⟩
    rintro f rfl
    exact absurd h.flag hno

theorem Flagged.adopt {own : Option LogFormatter} {a : LogAppender} (h : Flagged own a)
    (val : LogFormatter) : Flagged own (a.adopt val) := by
  unfold LogAppender.adopt
  split
  · rename_i hnone
    refine ⟨h.flag, ?_⟩
    intro f hf
    rw [h.set f hf] at hnone
    cases hnone
  · exact h

/-- Behind a copy an appender writes with its own formatter, or with the one handed on. -/
theorem Flagged.inherit_formatter {own : Option LogFormatter} {a : LogAppender} (h : Flagged own a)
    (val : LogFormatter) : (a.inherit val).m_formatter = some (own.getD val) := by
  have hflag := h.flag
  unfold LogAppender.inherit
  cases own with
  | none =>
      rw [if_neg (by simp [hflag])]
      rfl
  | some f =>
      rw [if_pos (show a.m_hasFormatter = true from hflag)]
      exact h.set f rfl

/-- Adding it has the same effect, if it comes without a copy, or with the right one. -/
theorem Flagged.adopt_formatter_iff {own : Option LogFormatter} {a : LogAppender}
    (h : Flagged own a) (val : LogFormatter) : (a.adopt val).m_formatter = some (own.getD val) ↔
      a.m_hasFormatter = true ∨ a.m_formatter = none ∨ a.m_formatter = some val := by
  have hflag := h.flag
  unfold LogAppender.adopt
  cases own with
  | none =>
      cases hf : a.m_formatter with
      | none => simp
      | some g => simp [hf, hflag]
  | some f =>
      have hset : a.m_formatter = some f := h.set f rfl
      simp [hset, hflag]

theorem inherit_inherit (val : LogFormatter) (a : LogAppender) :
    (a.inherit val).inherit val = a.inherit val := by
  unfold LogAppender.inherit
  split
  · rfl
  · rfl

/-- What `Logger::setFormatter` does to each appender. -/
theorem getElem?_inherit (val : LogFormatter) (ps : List Nat) (as : Appenders) (p : Nat) :
    (ps.foldl (fun as p => as.modify p (LogAppender.inherit val)) as)[p]?
      = if p ∈ ps then as[p]?.map (LogAppender.inherit val) else as[p]? := by
  induction ps generalizing as with
  | nil => simp
  | cons q ps ih =>
      rw [List.foldl_cons, ih]
      by_cases hq : q = p
      · subst hq
        rw [List.getElem?_modify_eq]
        -- a second copy changes nothing
        by_cases hps : q ∈ ps
        · cases as[q]? with
          | none => simp
          | some a => simp [hps, inherit_inherit]
        · simp [hps]
      · rw [List.getElem?_modify_ne _ _ hq]
        simp [Ne.symm hq]

theorem attached_put (x : Logger × Appenders) (l' : Fin n) (p : Nat) :
    (s.put l x).Attached l' p ↔ if l' = l then p ∈ x.1.m_appenders else s.Attached l' p := by
  unfold Attached put
  dsimp only
  by_cases hl : l' = l
  · subst hl
    rw [Function.update_self, if_pos rfl]
  · rw [Function.update_of_ne hl, if_neg hl]

/-- A call that gives a logger a part of the appenders it had, or one more that was free. -/
theorem Kept.put (h : s.Kept) {x : Logger × Appenders} (hlen : x.2.length = s.appenders.length)
    (happ : ∀ p ∈ x.1.m_appenders, s.Attached l p ∨
      p < s.appenders.length ∧ ∀ l', l' ≠ l → ¬ s.Attached l' p)
    (hflag : ∀ p a, x.2[p]? = some a → Flagged (s.own p) a) : (s.put l x).Kept := by
  -- an appender of the changed logger belongs to no other one
  have hother : ∀ l' p, l' ≠ l → p ∈ x.1.m_appenders → ¬ s.Attached l' p := by
    intro l' p hl hp hp'
    rcases happ p hp with hin | ⟨-, hfree⟩
    · exact hl (h.alone l' l p hp' hin)
    · exact hfree l' hl hp'
  refine ⟨?_, ?_, hflag, ?_⟩
  · intro l' p hp
    show p < x.2.length
    rw [hlen]
    rw [attached_put] at hp
    split at hp
    · rcases happ p hp with hin | ⟨hmade, -⟩
      · exact h.made l p hin
      · exact hmade
    · exact h.made l' p hp
  · intro l₁ l₂ p h₁ h₂
    rw [attached_put] at h₁ h₂
    split at h₁
    · rename_i hl₁
      split at h₂
      · rename_i hl₂
        rw [hl₁, hl₂]
      · rename_i hl₂
        exact absurd h₂ (hother l₂ p hl₂ h₁)
    · rename_i hl₁
      split at h₂
      · exact absurd h₁ (hother l₁ p hl₁ h₂)
      · exact h.alone l₁ l₂ p h₁ h₂
  · intro p hp
    refine h.unset p ?_
    rw [← hlen]
    exact hp

/-- Writing back what is there changes nothing. -/
theorem put_self (s : Logging n) (l : Fin n) : s.put l (s.logger l, s.appenders) = s := by
  unfold put
  rw [Function.update_eq_self]

theorem getElem?_setFormatter (s : Logging n) (l : Fin n) (val : LogFormatter) (p : Nat) :
    ((s.logger l).setFormatter val s.appenders).2[p]?
      = if s.Attached l p then s.appenders[p]?.map (LogAppender.inherit val)
        else s.appenders[p]? :=
  getElem?_inherit val (s.logger l).m_appenders s.appenders p

theorem setFormatter_kept (h : s.Kept) (l : Fin n) (val : LogFormatter) :
    (s.put l ((s.logger l).setFormatter val s.appenders)).Kept := by
  refine h.put (length_foldl_modify _ _ _) (fun p hp => .inl hp) ?_
  intro p a ha
  rw [getElem?_setFormatter] at ha
  split at ha
  · obtain ⟨b, hb, rfl⟩ := Option.map_eq_some_iff.mp ha
    exact (h.flagged p b hb).inherit val
  · exact h.flagged p a ha

theorem addAppender_kept (h : s.Kept) (hmade : p < s.appenders.length)
    (hfree : ∀ l', l' ≠ l → ¬ s.Attached l' p) :
    (s.put l ((s.logger l).addAppender p s.appenders)).Kept := by
  refine h.put (List.length_modify ..) ?_ ?_
  · intro q hq
    rcases List.mem_append.mp hq with hq | hq
    · exact .inl hq
    · obtain rfl := List.mem_singleton.mp hq
      exact .inr ⟨hmade, hfree⟩
  · intro q a ha
    have ha' : (s.appenders.modify p (LogAppender.adopt (s.logger l).m_formatter))[q]? = some a := ha
    rw [List.getElem?_modify] at ha'
    obtain ⟨b, hb, rfl⟩ := Option.map_eq_some_iff.mp ha'
    split
    · exact (h.flagged q b hb).adopt _
    · exact h.flagged q b hb

theorem setOwn_kept (h : s.Kept) (hmade : p < s.appenders.length) (val : Option LogFormatter) :
    ({ s with
        appenders := s.appenders.modify p (LogAppender.setFormatter val)
        own := Function.update s.own p val } : Logging n).Kept := by
  refine ⟨?_, h.alone, ?_, ?_⟩
  · intro l q hq
    show q < (s.appenders.modify p _).length
    rw [List.length_modify]
    exact h.made l q hq
  · intro q a ha
    show Flagged (Function.update s.own p val q) a
    have ha' : (s.appenders.modify p (LogAppender.setFormatter val))[q]? = some a := ha
    rw [List.getElem?_modify] at ha'
    obtain ⟨b, hb, rfl⟩ := Option.map_eq_some_iff.mp ha'
    by_cases hq : p = q
    · subst hq
      rw [if_pos rfl, Function.update_self]
      exact ⟨rfl, fun f hf => hf⟩
    · rw [if_neg hq, Function.update_of_ne (Ne.symm hq)]
      exact h.flagged q b hb
  · intro q hq
    have hq' : s.appenders.length ≤ q := by
      have hlen : (s.appenders.modify p (LogAppender.setFormatter val)).length ≤ q := hq
      rwa [List.length_modify] at hlen
    show Function.update s.own p val q = none
    rw [Function.update_of_ne (by omega)]
    exact h.unset q hq'

theorem make_kept (h : s.Kept) (output : Output) :
    ({ s with appenders := s.appenders ++ [{ output := output }] } : Logging n).Kept := by
  refine ⟨?_, h.alone, ?_, ?_⟩
  · intro l q hq
    show q < (s.appenders ++ [_]).length
    rw [List.length_append]
    exact Nat.lt_add_right 1 (h.made l q hq)
  · intro q a ha
    have ha' : (s.appenders ++ [({ output := output } : LogAppender)])[q]? = some a := ha
    by_cases hq : q < s.appenders.length
    · rw [List.getElem?_append_left hq] at ha'
      exact h.flagged q a ha'
    · -- the new one
      rw [List.getElem?_append_right (by omega)] at ha'
      have hmem := List.mem_of_getElem? ha'
      obtain rfl := List.mem_singleton.mp hmem
      show Flagged (s.own q) _
      rw [h.unset q (by omega)]
      exact ⟨rfl, fun f hf => (by cases hf)⟩
  · intro q hq
    refine h.unset q ?_
    have hlen : (s.appenders ++ [({ output := output } : LogAppender)]).length ≤ q := hq
    rw [List.length_append] at hlen
    omega

/-- **The step lemma.** -/
theorem step_kept (h : s.Kept) (hstep : s.step c = some s') : s'.Kept := by
  cases c with
  | make output =>
      obtain rfl := Option.some.inj hstep
      exact make_kept h output
  | setFormatter l val =>
      obtain rfl := Option.some.inj hstep
      exact setFormatter_kept h l val
  | setFormatterText l val =>
      obtain rfl := Option.some.inj hstep
      unfold Logger.setFormatterText
      dsimp only
      split
      · rw [put_self]
        exact h
      · exact setFormatter_kept h l _
  | addAppender l p =>
      obtain ⟨⟨hmade, hfree⟩, rfl⟩ := Lib.guarded_eq_some.mp hstep
      exact addAppender_kept h hmade hfree
  | delAppender l p =>
      obtain rfl := Option.some.inj hstep
      exact h.put rfl (fun q hq => .inl (List.mem_of_mem_erase hq)) h.flagged
  | clearAppenders l =>
      obtain rfl := Option.some.inj hstep
      exact h.put rfl (fun q hq => absurd hq List.not_mem_nil) h.flagged
  | setOwn p val =>
      obtain ⟨hmade, rfl⟩ := Lib.guarded_eq_some.mp hstep
      exact setOwn_kept h hmade val

theorem kept_of_init (h : (logging n).init s) : s.Kept := by
  obtain ⟨name, rfl⟩ := h
  refine ⟨?_, ?_, ?_, fun _ _ => rfl⟩
  · intro l p hp
    exact absurd hp List.not_mem_nil
  · intro l l' p hp
    exact absurd hp List.not_mem_nil
  · intro p a ha
    cases ha

/-! ## Inheritance -/

/-- The formatter the appender `p` is to write with in the logger `l`. -/
def formatterOf (s : Logging n) (l : Fin n) (p : Nat) : LogFormatter :=
  (s.own p).getD (s.logger l).m_formatter

/-- It has that formatter, and writes with it. -/
structure Writes (s : Logging n) (l : Fin n) (p : Nat) (a : LogAppender) : Prop where
  flag : a.m_hasFormatter = (s.own p).isSome
  formatter : a.m_formatter = some (s.formatterOf l p)
  log : ∀ level : Level, a.log level
    = some (if a.m_level.value ≤ level.value then some (s.formatterOf l p) else none)

/-- Every attached appender writes with its own formatter, or else with its logger's. -/
def Inherits (s : Logging n) : Prop :=
  ∀ l p, s.Attached l p → ∃ a, s.appenders[p]? = some a ∧ s.Writes l p a

/-- A call that neither takes the formatter of an attached appender away, nor attaches one with the copy
of another formatter. -/
def Careful (s : Logging n) : LogCall n → Prop
  | .addAppender l p => ∀ a ∈ s.appenders[p]?,
      a.m_hasFormatter = true ∨ a.m_formatter = none ∨
        a.m_formatter = some (s.logger l).m_formatter
  | .setOwn p none => ∀ l, ¬ s.Attached l p
  | .make _ | .setFormatter .. | .setFormatterText .. | .delAppender .. | .clearAppenders _
  | .setOwn _ (some _) => True

instance (s : Logging n) : DecidablePred s.Careful
  | .addAppender l p => inferInstanceAs (Decidable (∀ a ∈ s.appenders[p]?,
      a.m_hasFormatter = true ∨ a.m_formatter = none ∨
        a.m_formatter = some (s.logger l).m_formatter))
  | .setOwn p none => inferInstanceAs (Decidable (∀ l, ¬ s.Attached l p))
  | .make _ | .setFormatter .. | .setFormatterText .. | .delAppender .. | .clearAppenders _
  | .setOwn _ (some _) => isTrue trivial

/-- The pointer decides. -/
theorem Kept.writes_iff (h : s.Kept) {a : LogAppender} (ha : s.appenders[p]? = some a) :
    s.Writes l p a ↔ a.m_formatter = some (s.formatterOf l p) := by
  constructor
  · intro hw
    exact hw.formatter
  · intro hformatter
    refine ⟨(h.flagged p a ha).flag, hformatter, ?_⟩
    intro level
    unfold LogAppender.log
    rw [hformatter]
    split
    · rfl
    · rfl

theorem Kept.inherits_iff (h : s.Kept) : s.Inherits ↔ ∀ l p, s.Attached l p →
    ∃ a, s.appenders[p]? = some a ∧ a.m_formatter = some (s.formatterOf l p) := by
  constructor
  · intro hi l p hp
    obtain ⟨a, ha, hw⟩ := hi l p hp
    exact ⟨a, ha, hw.formatter⟩
  · intro hi l p hp
    obtain ⟨a, ha, hf⟩ := hi l p hp
    exact ⟨a, ha, (h.writes_iff ha).mpr hf⟩

theorem formatterOf_put (x : Logger × Appenders) (l' : Fin n) (p : Nat) :
    (s.put l x).formatterOf l' p
      = if l' = l then (s.own p).getD x.1.m_formatter else s.formatterOf l' p := by
  unfold formatterOf put
  dsimp only
  by_cases hl : l' = l
  · subst hl
    rw [Function.update_self, if_pos rfl]
  · rw [Function.update_of_ne hl, if_neg hl]

/-- A logger that loses appenders only. -/
theorem inherits_put (h : s.Kept) (hi : s.Inherits) {x : Logger} (hx : x.m_formatter = (s.logger l).m_formatter)
    (hsub : ∀ p ∈ x.m_appenders, s.Attached l p) (h' : (s.put l (x, s.appenders)).Kept) :
    (s.put l (x, s.appenders)).Inherits := by
  rw [h'.inherits_iff]
  rw [h.inherits_iff] at hi
  intro l' p hp
  rw [attached_put] at hp
  rw [formatterOf_put]
  split at hp
  · rename_i hl
    subst hl
    rw [if_pos rfl, hx]
    exact hi l' p (hsub p hp)
  · rename_i hl
    rw [if_neg hl]
    exact hi l' p hp

theorem inherits_setFormatter (h : s.Kept) (hi : s.Inherits) (l : Fin n) (val : LogFormatter) :
    (s.put l ((s.logger l).setFormatter val s.appenders)).Inherits := by
  rw [(setFormatter_kept h l val).inherits_iff]
  rw [h.inherits_iff] at hi
  intro l' p hp
  have hp' : s.Attached l' p := by
    rw [attached_put] at hp
    split at hp
    · rename_i hl
      rw [hl]
      exact hp
    · exact hp
  obtain ⟨a, ha, hf⟩ := hi l' p hp'
  show ∃ b, ((s.logger l).setFormatter val s.appenders).2[p]? = some b ∧ _
  rw [getElem?_setFormatter, formatterOf_put]
  by_cases hl : l' = l
  · subst hl
    rw [if_pos hp', if_pos rfl, ha]
    exact ⟨a.inherit val, rfl, (h.flagged p a ha).inherit_formatter val⟩
  · rw [if_neg (fun hin => hl (h.alone l' l p hp' hin)), if_neg hl]
    exact ⟨a, ha, hf⟩

/-- Adding an appender. -/
theorem inherits_addAppender_iff (h : s.Kept) (hi : s.Inherits) (hmade : p < s.appenders.length)
    (hfree : ∀ l', l' ≠ l → ¬ s.Attached l' p) :
    (s.put l ((s.logger l).addAppender p s.appenders)).Inherits
      ↔ s.Careful (.addAppender l p) := by
  rw [(addAppender_kept h hmade hfree).inherits_iff]
  rw [h.inherits_iff] at hi
  obtain ⟨a, ha⟩ : ∃ a, s.appenders[p]? = some a := ⟨_, List.getElem?_eq_getElem hmade⟩
  have hadopt := (h.flagged p a ha).adopt_formatter_iff (s.logger l).m_formatter
  have hself : ((s.logger l).addAppender p s.appenders).2[p]?
      = some (a.adopt (s.logger l).m_formatter) := by
    show (s.appenders.modify p _)[p]? = _
    rw [List.getElem?_modify_eq, ha]
    rfl
  have hnew : (s.put l ((s.logger l).addAppender p s.appenders)).formatterOf l p
      = (s.own p).getD (s.logger l).m_formatter := by
    rw [formatterOf_put, if_pos rfl]
    rfl
  constructor
  · intro hafter b hb
    obtain rfl : a = b := Option.some.inj (ha.symm.trans hb)
    have hin : (s.put l ((s.logger l).addAppender p s.appenders)).Attached l p := by
      rw [attached_put, if_pos rfl]
      exact List.mem_append_right _ List.mem_cons_self
    obtain ⟨b, hb', hf⟩ := hafter l p hin
    obtain rfl : a.adopt (s.logger l).m_formatter = b := Option.some.inj (hself.symm.trans hb')
    exact hadopt.mp (hf.trans (congrArg some hnew))
  · intro hcare l' q hq
    by_cases hqp : q = p
    · subst hqp
      obtain rfl : l' = l := by
        by_contra hl
        rw [attached_put, if_neg hl] at hq
        exact hfree l' hl hq
      exact ⟨_, hself, (hadopt.mpr (hcare a ha)).trans (congrArg some hnew.symm)⟩
    · -- the other appenders are where they were
      have hq' : s.Attached l' q := by
        rw [attached_put] at hq
        split at hq
        · rename_i hl
          rw [hl]
          rcases List.mem_append.mp hq with hq | hq
          · exact hq
          · exact absurd (List.mem_singleton.mp hq) hqp
        · exact hq
      obtain ⟨b, hb, hf⟩ := hi l' q hq'
      refine ⟨b, ?_, ?_⟩
      · show (s.appenders.modify p _)[q]? = _
        rw [List.getElem?_modify_ne _ _ (Ne.symm hqp)]
        exact hb
      · rw [hf, formatterOf_put]
        split
        · rename_i hl
          rw [hl]
          rfl
        · rfl

/-- Setting or clearing an appender's own formatter. -/
theorem inherits_setOwn_iff (h : s.Kept) (hi : s.Inherits) (hmade : p < s.appenders.length)
    (val : Option LogFormatter) :
    ({ s with
        appenders := s.appenders.modify p (LogAppender.setFormatter val)
        own := Function.update s.own p val } : Logging n).Inherits ↔ s.Careful (.setOwn p val) := by
  rw [(setOwn_kept h hmade val).inherits_iff]
  rw [h.inherits_iff] at hi
  obtain ⟨a, ha⟩ : ∃ a, s.appenders[p]? = some a := ⟨_, List.getElem?_eq_getElem hmade⟩
  have hself : (s.appenders.modify p (LogAppender.setFormatter val))[p]?
      = some (a.setFormatter val) := by
    rw [List.getElem?_modify_eq, ha]
    rfl
  constructor
  · intro hafter
    cases val with
    | some f => trivial
    | none =>
        intro l hp
        obtain ⟨b, hb, hf⟩ := hafter l p hp
        obtain rfl : a.setFormatter none = b := Option.some.inj (hself.symm.trans hb)
        cases hf
  · intro hcare l q hq
    by_cases hqp : q = p
    · subst hqp
      cases val with
      | none => exact absurd hq (hcare l)
      | some f =>
          refine ⟨_, hself, ?_⟩
          show some f = some ((Function.update s.own q (some f) q).getD _)
          rw [Function.update_self]
          rfl
    · obtain ⟨b, hb, hf⟩ := hi l q hq
      refine ⟨b, ?_, ?_⟩
      · show (s.appenders.modify p _)[q]? = _
        rw [List.getElem?_modify_ne _ _ (Ne.symm hqp)]
        exact hb
      · rw [hf]
        show some ((s.own q).getD _) = some ((Function.update s.own p val q).getD _)
        rw [Function.update_of_ne hqp]

/-- A new appender is attached nowhere. -/
theorem inherits_make (h : s.Kept) (hi : s.Inherits) (output : Output) :
    ({ s with appenders := s.appenders ++ [{ output := output }] } : Logging n).Inherits := by
  rw [(make_kept h output).inherits_iff]
  rw [h.inherits_iff] at hi
  intro l p hp
  obtain ⟨a, ha, hf⟩ := hi l p hp
  refine ⟨a, ?_, hf⟩
  show (s.appenders ++ [_])[p]? = _
  rw [List.getElem?_append_left (h.made l p hp)]
  exact ha

/-- Where formatters are inherited, a call leaves it so exactly if it is careful. -/
theorem step_inherits_iff (h : s.Kept) (hi : s.Inherits) (hstep : s.step c = some s') :
    s'.Inherits ↔ s.Careful c := by
  have hkept := step_kept h hstep
  cases c with
  | make output =>
      obtain rfl := Option.some.inj hstep
      exact iff_of_true (inherits_make h hi output) trivial
  | setFormatter l val =>
      obtain rfl := Option.some.inj hstep
      exact iff_of_true (inherits_setFormatter h hi l val) trivial
  | setFormatterText l val =>
      obtain rfl := Option.some.inj hstep
      refine iff_of_true ?_ trivial
      unfold Logger.setFormatterText
      dsimp only
      split
      · rw [put_self]
        exact hi
      · exact inherits_setFormatter h hi l _
  | addAppender l p =>
      obtain ⟨⟨hmade, hfree⟩, rfl⟩ := Lib.guarded_eq_some.mp hstep
      exact inherits_addAppender_iff h hi hmade hfree
  | delAppender l p =>
      obtain rfl := Option.some.inj hstep
      exact iff_of_true (inherits_put h hi rfl (fun q hq => List.mem_of_mem_erase hq) hkept) trivial
  | clearAppenders l =>
      obtain rfl := Option.some.inj hstep
      exact iff_of_true (inherits_put h hi rfl (fun q hq => absurd hq List.not_mem_nil) hkept)
        trivial
  | setOwn p val =>
      obtain ⟨hmade, rfl⟩ := Lib.guarded_eq_some.mp hstep
      exact inherits_setOwn_iff h hi hmade val

/-- **Formatter inheritance.**  A run of calls on any number of loggers passes only through states in
which every attached appender writes with its own formatter or its logger's, iff each of its calls is
careful. -/
theorem inherits_throughout_iff {s₀ t : Logging n} {cs : List (LogCall n)} (h0 : (logging n).init s₀)
    (hrun : (logging n).exec s₀ cs = some t) :
    (∀ bs s, bs <+: cs → (logging n).exec s₀ bs = some s → s.Inherits)
      ↔ (logging n).Along Careful s₀ cs := by
  refine Lib.System.throughout_iff (M := logging n) (I := Kept) ?_ ?_ (kept_of_init h0) ?_ hrun
  · intro s c s' h _ _ hstep
    exact step_kept h hstep
  · intro s c s' h hi hstep
    exact step_inherits_iff h hi hstep
  · obtain ⟨name, rfl⟩ := h0
    intro l p hp
    exact absurd hp List.not_mem_nil

/-- Two new loggers. -/
def twoLoggers : Logging 2 := ⟨fun _ => .new "log", [], fun _ => none⟩

/-- An appender moves to a logger with another formatter behind a formatter of its own, which is
cleared on the way. -/
def carefulRun : List (LogCall 2) :=
  [.make .stdout, .addAppender 0 0, .setFormatterText 0 "%m%n", .setOwn 0 (some (.new "%p %m%n")),
    .delAppender 0 0, .setOwn 0 none, .setFormatterText 1 "%T%m%n", .addAppender 1 0]

theorem inherits_throughout_careful :
    let s := ((logging 2).exec twoLoggers carefulRun).get (by decide)
    s.Inherits ∧ s.formatterOf 1 0 = .new "%T%m%n" := by
  intro s
  have hrun : (logging 2).exec twoLoggers carefulRun = some s := (Option.some_get _).symm
  have hcare : (logging 2).Along Careful twoLoggers carefulRun := by
    decide
  exact ⟨(inherits_throughout_iff ⟨fun _ => "log", rfl⟩ hrun).mpr hcare carefulRun s
    (List.prefix_refl _) hrun, by decide⟩

/-- The formatter of an attached appender is cleared. -/
def clearedRun : List (LogCall 2) := [.make .stdout, .addAppender 0 0, .setOwn 0 none]

/-- An appender moves to a logger with another formatter as it is. -/
def movedRun : List (LogCall 2) :=
  [.make .stdout, .addAppender 0 0, .setFormatterText 1 "%T%m%n", .delAppender 0 0, .addAppender 1 0]

/-- After the first, the next event above the level is written through a null pointer; after the second,
it is written in the format of the logger that the appender has left. -/
theorem not_inherits :
    (∃ s, (logging 2).exec twoLoggers clearedRun = some s ∧ s.Attached 0 0 ∧
      (∃ a, s.appenders[0]? = some a ∧ a.log .error = none) ∧ ¬ s.Inherits) ∧
    ∃ s, (logging 2).exec twoLoggers movedRun = some s ∧ s.Attached 1 0 ∧
      s.formatterOf 1 0 = .new "%T%m%n" ∧
      (∃ a, s.appenders[0]? = some a ∧ a.log .error = some (some (.new defaultPattern))) ∧
      ¬ s.Inherits := by
  refine ⟨⟨_, rfl, by decide, ⟨_, rfl, rfl⟩, ?_⟩, ⟨_, rfl, by decide, rfl, ⟨_, rfl, rfl⟩, ?_⟩⟩
  · intro h
    obtain ⟨a, ha, hw⟩ := h 0 0 (by decide)
    cases ha
    cases hw.formatter
  · intro h
    obtain ⟨a, ha, hw⟩ := h 1 0 (by decide)
    cases ha
    have hpattern := congrArg (Option.map LogFormatter.m_pattern) hw.formatter
    exact absurd hpattern (by decide)

end Logging

end Sylar.Log
