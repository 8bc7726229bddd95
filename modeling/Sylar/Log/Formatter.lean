/-
# Sylar.Log.Formatter — patterns (`LogFormatter` in `sylar/log.{h,cc}`).

`init` cuts a pattern into literal texts and directives, `%x` or `%x{format}`, and looks each
directive's letter up.  A letter it does not know, or a brace that is not closed, sets `m_error`.

The index of the source's loop runs ahead of it where a directive has been read; here `scan` walks over
the pattern once and counts what it has still to pass over.  Behind an unclosed brace nothing is passed
over: what follows the `%` is looked at again, and the literal text so far stays where it is.  The same
goes for `%%`, whose second `%` starts a directive.
-/
import Mathlib.Data.String.Basic

namespace Sylar.Log

/-- `isalpha`, in the `C` locale. -/
def isalpha (c : Char) : Bool := ('a' ≤ c && c ≤ 'z') || ('A' ≤ c && c ≤ 'Z')

/-- The loop with `fmt_status = 1`, behind the brace; `none` is the end of the pattern.  The count is
`n - i - 1`. -/
def scanFormat (str : List Char) : List Char → List Char → Option (List Char × List Char × Nat)
  | [], _ => none
  | c :: cs, fmt =>
      if c = '}' then some (str, fmt, str.length + fmt.length + 2)
      else scanFormat str cs (fmt ++ [c])

/-- The loop with `fmt_status = 0`, behind the `%`. -/
def scanName : List Char → List Char → Option (List Char × List Char × Nat)
  | [], str => some (str, [], str.length)
  | c :: cs, str =>
      if !isalpha c && c != '{' && c != '}' then some (str, [], str.length)
      else if c = '{' then scanFormat str cs []
      else scanName cs (str ++ [c])

/-- An element of `vec`: `str`, `format` and `type`. -/
structure Token where
  str : List Char
  format : List Char
  type : Nat
  deriving DecidableEq, Repr

/-- The literal text so far, if there is any. -/
def literal (nstr : List Char) : List Token := if nstr = [] then [] else [⟨nstr, [], 0⟩]

/-- The outer loop: `vec` and `m_error`.  `skip` is how far `i` is ahead. -/
def scan : List Char → Nat → List Char → List Token × Bool
  | [], _, nstr => (literal nstr, false)
  | _ :: cs, skip + 1, nstr => scan cs skip nstr
  | c :: cs, 0, nstr =>
      if c ≠ '%' then scan cs 0 (nstr ++ [c])
      else if cs.head? = some '%' then scan cs 0 (nstr ++ ['%'])
      else
        match scanName cs [] with
        | some (str, fmt, n) =>
            (literal nstr ++ ⟨str, fmt, 1⟩ :: (scan cs n []).1, (scan cs n []).2)
        -- `i` stays where it is, and `nstr` is not flushed
        | none => (⟨"<<pattern_error>>".toList, [], 0⟩ :: (scan cs 0 nstr).1, true)

/-- The classes derived from `FormatItem`; `StringFormatItem` and `DateTimeFormatItem` keep a text. -/
inductive FormatItem
  | string (str : String)
  | message
  | level
  | elapse
  | name
  | threadId
  | newLine
  | dateTime (format : String)
  | filename
  | line
  | tab
  | fiberId
  | threadName
  deriving DecidableEq, Repr

/-- The constructor of `DateTimeFormatItem`. -/
def dateTimeFormat (format : String) : FormatItem :=
  .dateTime (if format = "" then "%Y-%m-%d %H:%M:%S" else format)

/-- `s_format_items`. -/
def s_format_items (str : List Char) (fmt : String) : Option FormatItem :=
  match str with
  | ['m'] => some .message
  | ['p'] => some .level
  | ['r'] => some .elapse
  | ['c'] => some .name
  | ['t'] => some .threadId
  | ['n'] => some .newLine
  | ['d'] => some (dateTimeFormat fmt)
  | ['f'] => some .filename
  | ['l'] => some .line
  | ['T'] => some .tab
  | ['F'] => some .fiberId
  | ['N'] => some .threadName
  | _ => none

/-- What becomes of an element of `vec`, and whether it is an error. -/
def Token.item (t : Token) : FormatItem × Bool :=
  if t.type = 0 then (.string (String.ofList t.str), false)
  else
    match s_format_items t.str (String.ofList t.format) with
    | none => (.string ("<<error_format %" ++ String.ofList t.str ++ ">>"), true)
    | some item => (item, false)

/-- `LogFormatter`. -/
structure LogFormatter where
  m_pattern : String
  m_items : List FormatItem
  m_error : Bool
  deriving DecidableEq, Repr

/-- `LogFormatter::LogFormatter`, with `init`. -/
def LogFormatter.new (pattern : String) : LogFormatter :=
  let vec := scan pattern.toList 0 []
  { m_pattern := pattern
    m_items := vec.1.map fun t => t.item.1
    m_error := vec.2 || vec.1.any fun t => t.item.2 }

@[simp] theorem LogFormatter.new_pattern (pattern : String) :
    (LogFormatter.new pattern).m_pattern = pattern := rfl

/-- The pattern of a new logger. -/
def defaultPattern : String :=
  "%d\x7b%Y-%m-%d %H:%M:%S\x7d tid[%t]%T%N%T fid[%F]%T[%p]%T[%c]%T%f:%l%T%m%n"

example : (LogFormatter.new defaultPattern).m_error = false := by decide

example : (LogFormatter.new "%d\x7bx").m_items =
    [.string "<<pattern_error>>", .string "d\x7bx"] := by decide

end Sylar.Log
