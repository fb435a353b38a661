import UsageTypes.Text.Decimal
import UsageTypes.Text.Quoted

/-!
JSON values. A text that is not well formed still has a value: what could be read stands in it, and a
fault marks the place where it breaks off, so that a reader of values meets the faults of a text and
its own complaints in document order.
-/

namespace UsageTypes

inductive JsonFault where
  | endInList | endInObject | endInString | endInValue
  | expectedColon | expectedListEnd | expectedObjectEnd | expectedIdent | expectedValue
  | invalidEscape | invalidNumber | numberTooLarge | controlCharacter
  | loneSurrogate | trailingComma | trailingText | shortHexEscape
  /-- A key is no string but what is described, if it is a value at all. -/
  | keyNotString (found : String)
  /-- The text is well formed, but it does not say what is expected. -/
  | content (text : String)
  deriving DecidableEq, Repr, Inhabited

namespace JsonFault

def message : JsonFault → String
  | endInList => "EOF while parsing a list"
  | endInObject => "EOF while parsing an object"
  | endInString => "EOF while parsing a string"
  | endInValue => "EOF while parsing a value"
  | expectedColon => "expected `:`"
  | expectedListEnd => "expected `,` or `]`"
  | expectedObjectEnd => "expected `,` or `\x7d`"
  | expectedIdent => "expected ident"
  | expectedValue => "expected value"
  | invalidEscape => "invalid escape"
  | invalidNumber => "invalid number"
  | numberTooLarge => "number out of range"
  | controlCharacter => "control character (\\u0000-\\u001F) found while parsing a string"
  | keyNotString _ => "key must be a string"
  | loneSurrogate => "lone leading surrogate in hex escape"
  | trailingComma => "trailing comma"
  | trailingText => "trailing characters"
  | shortHexEscape => "unexpected end of hex escape"
  | content text => text

/-- Whether the text was well formed as far as it was read. -/
def isContent : JsonFault → Bool
  | content _ => true
  | _ => false

end JsonFault

inductive JsonNumber where
  | natural (n : Nat)
  /-- A negative integer by its size. -/
  | negative (n : Nat)
  | double (negative : Bool) (x : Double)
  deriving DecidableEq, Repr, Inhabited

inductive Json where
  | null
  | bool (b : Bool)
  | number (n : JsonNumber)
  | string (s : String)
  /-- Items, and the fault that ends them unless a bracket does. -/
  | array (items : List Json) (ending : Option JsonFault)
  | object (entries : List (String × Json)) (ending : Option JsonFault)
  /-- What cannot be read as a value. -/
  | broken (fault : JsonFault)
  deriving Inhabited

/-- What a value is, for a complaint about it. -/
def Json.describe : Json → String
  | null => "null"
  | bool b => "boolean `" ++ (if b then "true" else "false") ++ "`"
  | number (.natural n) => "integer `" ++ toString n ++ "`"
  | number (.negative n) => "integer `-" ++ toString n ++ "`"
  | number (.double negative x) =>
    "floating point `" ++ (if negative then "-" else "") ++ x.display ++ "`"
  | string s => "string " ++ quoted s
  | array .. => "sequence"
  | object .. => "map"
  | broken _ => ""

end UsageTypes
