import UsageTypes.Json.Basic

/-! Writing JSON, one item a line, two blanks a level. -/

namespace UsageTypes

namespace Json

def hexChar (n : Nat) : Char := (Nat.toDigits 16 (n % 16)).headD '0'

/-- A character in a string. -/
def escapeChar (c : Char) : List Char :=
  if c = '"' then ['\\', '"']
  else if c = '\\' then ['\\', '\\']
  else if c = '\n' then ['\\', 'n']
  else if c = '\r' then ['\\', 'r']
  else if c = '\t' then ['\\', 't']
  else if c = '\x08' then ['\\', 'b']
  else if c = '\x0c' then ['\\', 'f']
  else if c.toNat < 0x20 then ['\\', 'u', '0', '0', hexChar (c.toNat / 16), hexChar c.toNat]
  else [c]

def renderString (s : String) : String :=
  String.ofList ('"' :: s.toList.flatMap escapeChar ++ ['"'])

def renderNumber : JsonNumber → String
  | .natural n => toString n
  | .negative n => "-" ++ toString n
  | .double negative x => (if negative then "-" else "") ++ x.display

def indent (level : Nat) : String := String.ofList (List.replicate (2 * level) ' ')

mutual

def pretty (level : Nat) : Json → String
  | .null => "null"
  | .bool b => if b then "true" else "false"
  | .number n => renderNumber n
  | .string s => renderString s
  | .array [] _ => "[]"
  | .array (v :: vs) _ =>
    "[\n" ++ prettyItems (level + 1) (v :: vs) ++ "\n" ++ indent level ++ "]"
  | .object [] _ => "\x7b\x7d"
  | .object (e :: es) _ =>
    "\x7b\n" ++ prettyEntries (level + 1) (e :: es) ++ "\n" ++ indent level ++ "\x7d"
  | .broken _ => ""

def prettyItems (level : Nat) : List Json → String
  | [] => ""
  | [v] => indent level ++ v.pretty level
  | v :: vs => indent level ++ v.pretty level ++ ",\n" ++ prettyItems level vs

def prettyEntries (level : Nat) : List (String × Json) → String
  | [] => ""
  | [(k, v)] => indent level ++ renderString k ++ ": " ++ v.pretty level
  | (k, v) :: es => indent level ++ renderString k ++ ": " ++ v.pretty level ++ ",\n" ++ prettyEntries level es

end

/-- A value over several lines. -/
def render (v : Json) : String := v.pretty 0

end Json

end UsageTypes
