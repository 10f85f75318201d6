/-!
# The log

What a run reports about its progress, as records in the order in which they
were made.
-/

namespace ElmSuite

/-- How much a record matters. -/
inductive LogLevel where
  | debug
  | info
  | warning
  | error
  deriving DecidableEq, Repr, Ord

/-- A line of the log. -/
structure LogRecord where
  level : LogLevel
  message : String
  deriving DecidableEq, Repr

namespace LogLevel

/-- The name of a level. -/
def name : LogLevel → String
  | debug => "DEBUG"
  | info => "INFO"
  | warning => "WARNING"
  | error => "ERROR"

/-- The rank of a level. -/
def rank : LogLevel → Nat
  | debug => 0
  | info => 1
  | warning => 2
  | error => 3

end LogLevel

/-- The records at a level or above it. -/
def recordsFrom (level : LogLevel) (log : List LogRecord) : List LogRecord :=
  log.filter fun r => level.rank ≤ r.level.rank

end ElmSuite
