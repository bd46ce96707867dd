import LSystem.Symbol.Word

/-! Log records.

Expanding and walking report what they did as values, in order, next to their results. A record
holds what it is about; its level and its words are functions of that. -/
namespace LSystem

/-- Something reported on the way to a result. -/
inductive LogRecord where
  /-- A generation was written, with so many bytes. -/
  | generation (number bytes : Nat)
  /-- A color symbol without a color was read at an index. -/
  | unknownColor (symbol : Symbol) (index : Nat)
  /-- A walk came to its end inside so many branches. -/
  | unclosed (branches : Nat)
  /-- A walk came to its end with so many strokes. -/
  | rendered (segments maxDepth : Nat)
deriving DecidableEq

namespace LogRecord

/-- Only a symbol without its color is worth a warning. -/
def isWarning : LogRecord → Bool
  | unknownColor _ _ => true
  | _ => false

/-- The level in words. -/
def level (record : LogRecord) : String := if record.isWarning then "WARN" else "DEBUG"

/-- The record in words, without its level. -/
def message : LogRecord → String
  | generation number bytes => "generation " ++ toString number ++ ": " ++ toString bytes ++ " symbols"
  | unknownColor symbol index =>
    "no color bound to `" ++ symbol.toString ++ "` at index " ++ toString index ++
      "; keeping current color"
  | unclosed branches => "walk ended with " ++ toString branches ++ " unclosed branches"
  | rendered segments maxDepth =>
    "rendered " ++ toString segments ++ " segments, max depth " ++ toString maxDepth

/-- Level and message. -/
def text (record : LogRecord) : String := record.level ++ " " ++ record.message

end LogRecord

end LSystem
