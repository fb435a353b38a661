/-! Log records. -/

namespace UsageTypes

/-- How severe a record is; the later ones are less severe. -/
inductive LogLevel where
  | error | warn | info | debug | trace
  deriving DecidableEq, Repr, Inhabited

namespace LogLevel

def rank : LogLevel → Nat
  | error => 0
  | warn => 1
  | info => 2
  | debug => 3
  | trace => 4

def name : LogLevel → String
  | error => "ERROR"
  | warn => "WARN"
  | info => "INFO"
  | debug => "DEBUG"
  | trace => "TRACE"

/-- The level that a word names in lower case. -/
def ofName? (word : String) : Option LogLevel :=
  [error, warn, info, debug, trace].find? fun l => l.name.toLower = word

end LogLevel

structure LogRecord where
  level : LogLevel
  /-- The part of the program that speaks. -/
  target : String
  message : String
  deriving DecidableEq, Repr, Inhabited

namespace LogRecord

/-- Whether a record is at least as severe as a level. -/
def within (r : LogRecord) (level : LogLevel) : Bool := r.level.rank ≤ level.rank

def display (r : LogRecord) : String :=
  "[" ++ r.level.name ++ " " ++ r.target ++ "] " ++ r.message

/-- A record with the level filled up to five characters. -/
def displayAligned (r : LogRecord) : String :=
  let pad := String.ofList (List.replicate (5 - r.level.name.length) ' ')
  "[" ++ r.level.name ++ pad ++ " " ++ r.target ++ "] " ++ r.message

end LogRecord

end UsageTypes
