import Logmark.Statement.Field
import Logmark.Tag
import Logmark.Text.Numeral

/-!
Log statements. A statement is one line of the form

    console.log("TAG LABEL :: FILE :: SYMBOL :: LINE :: SHOWN:", EXPRESSION);

where the message in quotes has five fields after the tag, and its last field repeats the
expression that is logged.
-/
namespace Logmark

/-- The parts of a log statement. `line` counts from one; `shown` is the expression as the message
shows it, `expression` the one that is evaluated. -/
structure Statement where
  label : Text
  file : Text
  symbol : Text
  line : Nat
  shown : Text
  expression : Text
  deriving DecidableEq, Repr

namespace Statement

/-- The start of the call. -/
def callStart : Text := "console.log(".toList

/-- What closes the message and starts the second argument. -/
def messageEnd : Text := ":\",".toList

/-- The five fields between the tag and the end of the message. -/
def message (s : Statement) : Text :=
  Field.separator.intercalate [s.label, s.file, s.symbol, Text.numeral s.line, s.shown]

/-- The line of source text that a statement is written as. -/
def render (tag : Tag) (s : Statement) : Text :=
  callStart ++ '"' :: tag.name ++ ' ' :: s.message ++ messageEnd ++ ' ' :: s.expression ++
    ");".toList

end Statement
end Logmark
