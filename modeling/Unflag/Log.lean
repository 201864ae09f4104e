/-
Log records as data.

What a run reports is part of its result: every operation that reports anything returns
its records in order, and only the outermost layer prints them.
-/
set_option autoImplicit false

namespace Unflag

/-- The weight of a record. -/
inductive Level where
  | debug
  | info
  | warning
  | error
  deriving DecidableEq, Repr

/-- Levels by weight. -/
def Level.rank : Level → Nat
  | .debug => 0
  | .info => 1
  | .warning => 2
  | .error => 3

/-- The word for a level. -/
def Level.label : Level → String
  | .debug => "DEBUG"
  | .info => "INFO"
  | .warning => "WARNING"
  | .error => "ERROR"

/-- One record of the log. -/
structure Record where
  level : Level
  text : String
  deriving DecidableEq, Repr

namespace Record

/-- A record that only a verbose run shows. -/
def debug (text : String) : Record := ⟨.debug, text⟩

/-- A record of ordinary progress. -/
def info (text : String) : Record := ⟨.info, text⟩

/-- A record of something the user should look at. -/
def warning (text : String) : Record := ⟨.warning, text⟩

/-- A record of a failure. -/
def error (text : String) : Record := ⟨.error, text⟩

end Record

/-- The records of at least this weight. -/
def Level.shown (least : Level) (rs : List Record) : List Record :=
  rs.filter fun r => least.rank ≤ r.level.rank

end Unflag
