import SelectorAlgebra.Fault

/-
  Options of a pass over selectors, and its log. The options say where the log goes, what is logged,
  and the alphabet of the messages. No option bears on any result. A console logger makes a text of
  log entries.
-/

namespace SelectorAlgebra

/-! ## Options -/

/-- What becomes of log entries. -/
inductive Logger where
  /-- They are kept. -/
  | recorder
  /-- They are thrown away. -/
  | discard
  /-- They are written out as text. -/
  | console
  deriving DecidableEq, Repr

def Logger.text : Logger → String
  | recorder => "Recorder"
  | discard => "NullLogger"
  | console => "StdLogger"

/-- The settings of a pass. -/
structure Options where
  logger : Logger := .console
  /-- Nothing is logged at all. -/
  quiet : Bool := false
  /-- Conversions that succeed are logged too. -/
  traceConversions : Bool := false
  /-- Messages may have characters beyond ASCII. -/
  unicodeMessages : Bool := true
  deriving DecidableEq, Repr

def boolText (b : Bool) : String := if b then "true" else "false"

def Options.text (o : Options) : String :=
  "Options \x7b logger: " ++ o.logger.text ++ ", quiet: " ++ boolText o.quiet ++
    ", trace_conversions: " ++ boolText o.traceConversions ++
    ", unicode_error_messages: " ++ boolText o.unicodeMessages ++ " \x7d"

/-! ## Entries -/

inductive Level where
  /-- A conversion that was made. -/
  | debug
  /-- A fault that ends an operation. -/
  | warning
  deriving DecidableEq, Repr

/-- A message and the place in a source that it is about. -/
structure LogEntry where
  level : Level
  location : Option Location
  message : String
  deriving DecidableEq, Repr

/-- A trace goes after its place, and a warning before it. -/
def LogEntry.consoleText (e : LogEntry) : String :=
  match e.level, e.location with
  | .debug, some l =>
    l.source.name ++ ":" ++ toString (l.start.line + 1) ++ " DEBUG: " ++ e.message ++ "\n"
  | .debug, none => "DEBUG: " ++ e.message ++ "\n"
  | .warning, some l => "Warning: " ++ e.message ++ "\n    ./" ++ l.reference ++ "\n"
  | .warning, none => "Warning: " ++ e.message ++ "\n"

/-- What can be seen of log entries afterwards. -/
inductive Delivery where
  | entries (es : List LogEntry)
  | console (text : String)
  | nothing
  deriving DecidableEq, Repr

/-- What a logger does with the entries it is given. -/
def Logger.deliver (logger : Logger) (es : List LogEntry) : Delivery :=
  match logger, es with
  | _, [] => .nothing
  | .discard, _ => .nothing
  | .recorder, es => .entries es
  | .console, es => .console (String.join (es.map LogEntry.consoleText))

end SelectorAlgebra
