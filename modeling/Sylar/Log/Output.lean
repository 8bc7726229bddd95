/-
# Sylar.Log.Output — what a formatter makes of an event (`LogFormatter::format` in `sylar/log.cc`).

Each item writes to the stream: its own text, a member of the event, or the event's time by `strftime`
into 64 bytes.  Of `strftime` it matters that it copies what is not behind a `%` and makes one `%` of two;
what any other conversion yields, and how much of the format it takes, is a parameter (`Conversions`).
Where the result does not fit, the buffer holds nothing that could be relied on, and there is no output.
-/
import Sylar.Log.Pattern
import Sylar.Log.Define
import Mathlib.Data.List.TakeWhile

namespace Sylar.Log

/-- `LogEvent`, with the name of its logger. -/
structure LogEvent where
  m_file : String
  m_line : Int32
  m_elapse : UInt32
  m_threadId : UInt32
  m_fiberId : UInt32
  m_time : UInt64
  m_threadName : String
  content : String
  loggerName : String
  deriving DecidableEq, Repr

/-- The conversions of `strftime`: the text for what comes behind a `%`, and how many characters of it
belong to the conversion. -/
abbrev Conversions := List Char → UInt64 → List Char × Nat

/-- The text `strftime` produces; `skip` is how far the format has been read ahead. -/
def strftimeText (conv : Conversions) (time : UInt64) : List Char → Nat → List Char
  | [], _ => []
  | _ :: cs, skip + 1 => strftimeText conv time cs skip
  | c :: cs, 0 =>
      if c ≠ '%' then c :: strftimeText conv time cs 0
      else if cs.head? = some '%' then '%' :: strftimeText conv time cs 1
      else (conv cs time).1 ++ strftimeText conv time cs (conv cs time).2

/-- A text up to its first null byte, as a C string. -/
def c_str (cs : List Char) : List Char := cs.takeWhile (· ≠ '\x00')

/-- `strftime(buf, max, format, &tm)`, and the C string in `buf`. -/
def strftime (conv : Conversions) (max : Nat) (format : List Char) (time : UInt64) :
    Option (List Char) :=
  let text := strftimeText conv time format 0
  if (String.ofList text).utf8ByteSize < max then some (c_str text) else none

/-- `FormatItem::format`: what the item writes. -/
def FormatItem.format (conv : Conversions) (level : Level) (event : LogEvent) :
    FormatItem → Option (List Char)
  | .string str => some str.toList
  | .message => some event.content.toList
  | .level => some level.toString.toList
  | .elapse => some (toString event.m_elapse).toList
  | .name => some event.loggerName.toList
  | .threadId => some (toString event.m_threadId).toList
  | .newLine => some ['\n']
  | .dateTime format => strftime conv 64 (c_str format.toList) event.m_time
  | .filename => some event.m_file.toList
  | .line => some (toString event.m_line).toList
  | .tab => some ['\t']
  | .fiberId => some (toString event.m_fiberId).toList
  | .threadName => some event.m_threadName.toList

/-- The loop over `m_items`. -/
def formatItems (conv : Conversions) (level : Level) (event : LogEvent) :
    List FormatItem → Option (List Char)
  | [] => some []
  | i :: items =>
      (i.format conv level event).bind fun text =>
        (formatItems conv level event items).map fun rest => text ++ rest

/-- `LogFormatter::format`. -/
def LogFormatter.format (conv : Conversions) (level : Level) (event : LogEvent)
    (formatter : LogFormatter) : Option (List Char) := formatItems conv level event formatter.m_items

variable {conv : Conversions} {level : Level} {event : LogEvent}

theorem formatItems_cons_eq_some {i : FormatItem} {items : List FormatItem} {out : List Char} :
    formatItems conv level event (i :: items) = some out ↔
      ∃ text rest, i.format conv level event = some text ∧
        formatItems conv level event items = some rest ∧ out = text ++ rest := by
  rw [formatItems, Option.bind_eq_some_iff]
  constructor
  · rintro ⟨text, htext, h⟩
    obtain ⟨rest, hrest, rfl⟩ := Option.map_eq_some_iff.mp h
    exact ⟨text, rest, htext, hrest, rfl⟩
  · rintro ⟨text, rest, htext, hrest, rfl⟩
    exact ⟨text, htext, by rw [hrest]; rfl⟩

/-! ## `strftime` -/

/-- Characters that are no `%` are copied. -/
theorem strftimeText_char {c : Char} (hc : c ≠ '%') (time : UInt64) (cs : List Char) :
    strftimeText conv time (c :: cs) 0 = c :: strftimeText conv time cs 0 := by
  rw [strftimeText, if_pos hc]

/-- Two `%` are one. -/
theorem strftimeText_percent (time : UInt64) (cs : List Char) :
    strftimeText conv time ('%' :: '%' :: cs) 0 = '%' :: strftimeText conv time cs 0 := by
  rw [strftimeText, if_neg (by simp), List.head?_cons, if_pos rfl, strftimeText]

end Sylar.Log
