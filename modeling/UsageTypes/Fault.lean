import UsageTypes.Json.Basic

/-! What can go wrong in a run, and how it is reported. -/

namespace UsageTypes

/-- Why a text is no program. -/
inductive ParseCause where
  | missing (token : String)
  | unexpected
  | other (text : String)
  deriving DecidableEq, Repr, Inhabited

def ParseCause.message : ParseCause → String
  | missing token => "missing `" ++ token ++ "`"
  | unexpected => "unexpected syntax"
  | other text => text

/-- Why options are not accepted. -/
inductive ConfigCause where
  | unknownStrategy (word : String)
  | zeroDepth
  | blankMethod (method : String)
  | other (text : String)
  deriving DecidableEq, Repr, Inhabited

def ConfigCause.message : ConfigCause → String
  | unknownStrategy word => "unknown strategy `" ++ word ++ "`"
  | zeroDepth => "max_depth must be at least 1"
  | blankMethod method => "invalid append method `" ++ method ++ "`"
  | other text => text

/-- Why a file cannot be read. -/
inductive FileCause where
  | notFound | isDirectory | notDirectory | notText
  deriving DecidableEq, Repr, Inhabited

def FileCause.message : FileCause → String
  | notFound => "No such file or directory (os error 2)"
  | isDirectory => "Is a directory (os error 21)"
  | notDirectory => "Not a directory (os error 20)"
  | notText => "stream did not contain valid UTF-8"

inductive Fault where
  | io (cause : FileCause)
  /-- A syntax error, with its line and column counted from one. -/
  | parse (file : String) (line column : Nat) (cause : ParseCause)
  | language (text : String)
  | config (cause : ConfigCause)
  | json (fault : JsonFault)
  deriving DecidableEq, Repr, Inhabited

namespace Fault

def message : Fault → String
  | io cause => "I/O error: " ++ cause.message
  | parse file line column cause =>
    "Parse error in " ++ file ++ " at " ++ toString line ++ ":" ++ toString column ++ ": " ++ cause.message
  | language text => "Language error: " ++ text
  | config cause => "Configuration error: " ++ cause.message
  | json fault => "Invalid configuration JSON: " ++ fault.message

def isParse : Fault → Bool
  | parse .. => true
  | _ => false

/-- The causes of a fault, itself first. -/
def causes (f : Fault) : List String :=
  match f with
  | io cause => [f.message, cause.message]
  | json fault => [f.message, fault.message]
  | _ => [f.message]

end Fault

end UsageTypes
