/-!
# EvmToolchain.Log

Log entries. Operations that report what they do return events of their own
type; an event turns into an entry when someone wants to read it.
-/

namespace EvmToolchain

/-- The importance of a log entry. -/
inductive LogLevel
  | debug
  | info
  deriving Repr, DecidableEq

/-- A line of a log. -/
structure LogEntry where
  level : LogLevel
  text : String
  deriving Repr, DecidableEq

end EvmToolchain
