/-!
# Log records

Lowerings and runs keep a record of what they do. A record has a level and one line of text.
-/

namespace PrimitiveShader

/-- The weight of a record, heaviest first. -/
inductive LogLevel where
  | warn
  | debug
  | trace
deriving DecidableEq, Repr

/-- A record. -/
structure LogRecord where
  level : LogLevel
  text : String
deriving DecidableEq, Repr

/-- The name of a level. -/
def LogLevel.name : LogLevel → String
  | warn => "WARN"
  | debug => "DEBUG"
  | trace => "TRACE"

/-- The line of a record. -/
def LogRecord.line (record : LogRecord) : String := record.level.name ++ " " ++ record.text

/-- Whether a record of this level is kept by a log that goes down to `threshold`. -/
def LogLevel.reaches : LogLevel → LogLevel → Bool
  | warn, _ => true
  | debug, warn => false
  | debug, _ => true
  | trace, trace => true
  | trace, _ => false

end PrimitiveShader
