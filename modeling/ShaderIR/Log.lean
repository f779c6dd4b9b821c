/-!
# Log records

What the library reports on the way, each record with its severity.
-/

namespace ShaderIR

/-- The severity of a record, the gravest first. -/
inductive LogLevel where
  | error
  | warn
  | info
  | debug
  | trace
deriving DecidableEq, Repr

namespace LogLevel

def all : List LogLevel := [error, warn, info, debug, trace]

/-- The level as it stands before a record. -/
def text : LogLevel → String
  | error => "ERROR"
  | warn => "WARN"
  | info => "INFO"
  | debug => "DEBUG"
  | trace => "TRACE"

/-- The place of a level in the order of severity. -/
def rank : LogLevel → Nat
  | error => 0
  | warn => 1
  | info => 2
  | debug => 3
  | trace => 4

end LogLevel

/-- A message with its severity. -/
structure LogRecord where
  level : LogLevel
  message : String
deriving DecidableEq, Repr

namespace LogRecord

/-- A record as one line. -/
def text (r : LogRecord) : String := r.level.text ++ " " ++ r.message

/-- Whether a record is at least as grave as `level`. -/
def passes (level : LogLevel) (r : LogRecord) : Bool := r.level.rank ≤ level.rank

end LogRecord

end ShaderIR
