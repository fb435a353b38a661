/-!
The words of TypeScript. A lexeme says how many characters, if any, it takes from the front of a
text; what it takes is never empty.
-/

namespace UsageTypes

/-- Blanks that may stand between two words. -/
def isBlank (c : Char) : Bool :=
  if c ≤ '\x7f' then c = ' ' || ('\t' ≤ c && c ≤ '\r')
  else c = '\u00a0' || c = '\u1680' || ('\u2000' ≤ c && c ≤ '\u200b') || c = '\u2028' ||
    c = '\u2029' || c = '\u202f' || c = '\u205f' || c = '\u2060' || c = '\u3000' || c = '\ufeff'

/-- Marks that no name contains. -/
def isMark (c : Char) : Bool :=
  c ∈ [':', ';', '`', '"', '\x27', '@', '#', '.', ',', '|', '^', '&', '<', '=', '>', '+', '-', '*', '/',
    '\\', '%', '?', '!', '~', '(', ')', '[', ']', '{', '}']

/-- Every character that is no control character, blank or mark can stand in a name. -/
def isNamePart (c : Char) : Bool :=
  if 'a' ≤ c && c ≤ 'z' || 'A' ≤ c && c ≤ 'Z' then true
  else !(c.val < 0x20 || isBlank c || isMark c)

def isHex (c : Char) : Bool :=
  c.isDigit || ('a' ≤ c && c ≤ 'f') || ('A' ≤ c && c ≤ 'F')

/-- How many characters from the front of a text satisfy a test. -/
def countWhile (p : Char → Bool) : List Char → Nat
  | [] => 0
  | c :: cs => if p c then countWhile p cs + 1 else 0

/-- Whether a text begins with another one. -/
def startsWith : List Char → List Char → Bool
  | _, [] => true
  | c :: cs, d :: ds => c = d && startsWith cs ds
  | [], _ :: _ => false

/-- The length of a code point escape in a name: four hexadecimal digits, or some in braces. -/
def escapeLength : List Char → Option Nat
  | '\\' :: 'u' :: '{' :: cs =>
    let n := countWhile isHex cs
    match cs.drop n with
    | '}' :: _ => if n = 0 then none else some (n + 4)
    | _ => none
  | '\\' :: 'u' :: a :: b :: c :: d :: _ =>
    if isHex a && isHex b && isHex c && isHex d then some 6 else none
  | _ => none

/-- The length of the run of name characters and escapes at the front of a text. Characters of an
escape that was met are skipped. -/
def nameTail : Nat → List Char → Nat
  | _, [] => 0
  | skip + 1, _ :: cs => nameTail skip cs + 1
  | 0, c :: cs =>
    if isNamePart c then nameTail 0 cs + 1
    else match escapeLength (c :: cs) with
      | some n => nameTail (n - 1) cs + 1
      | none => 0

def nameLength (cs : List Char) : Nat :=
  match cs with
  | c :: _ => if c.isDigit then 0 else nameTail 0 cs
  | [] => 0

/-- Digits of a class with single underscores between them. -/
def digitsLength (p : Char → Bool) : List Char → Nat
  | c :: '_' :: ds =>
    if p c then
      let n := digitsLength p ds
      if n = 0 then 1 else n + 2
    else 0
  | c :: cs => if p c then digitsLength p cs + 1 else 0
  | [] => 0

def exponentLength : List Char → Nat
  | e :: cs =>
    if e = 'e' || e = 'E' then
      match cs with
      | s :: ds =>
        if s = '+' || s = '-' then
          let n := digitsLength Char.isDigit ds
          if n = 0 then 0 else n + 2
        else
          let n := digitsLength Char.isDigit cs
          if n = 0 then 0 else n + 1
      | [] => 0
    else 0
  | [] => 0

/-- Digits of another base behind a two-character mark, with the mark of a big integer. -/
def basedLength (p : Char → Bool) (cs : List Char) : Nat :=
  let n := digitsLength p cs
  if n = 0 then 0
  else match cs.drop n with
    | 'n' :: _ => n + 3
    | _ => n + 2

/-- The fraction and exponent behind the whole part of a decimal number. -/
def fractionLength (cs : List Char) : Nat :=
  match cs with
  | '.' :: ds =>
    let n := digitsLength Char.isDigit ds
    n + 1 + exponentLength (ds.drop n)
  | 'n' :: _ => 1
  | _ => exponentLength cs

def numberLength : List Char → Nat
  | '0' :: 'x' :: cs | '0' :: 'X' :: cs => basedLength isHex cs
  | '0' :: 'o' :: cs | '0' :: 'O' :: cs => basedLength (fun c => '0' ≤ c && c ≤ '7') cs
  | '0' :: 'b' :: cs | '0' :: 'B' :: cs => basedLength (fun c => c = '0' || c = '1') cs
  | '.' :: cs =>
    let n := digitsLength Char.isDigit cs
    if n = 0 then 0 else n + 1 + exponentLength (cs.drop n)
  | cs =>
    let n := digitsLength Char.isDigit cs
    if n = 0 then 0 else n + fractionLength (cs.drop n)

/-- An escape in a string. -/
def stringEscapeLength : List Char → Nat
  | '\\' :: 'x' :: a :: b :: _ => if isHex a && isHex b then 4 else 0
  | '\\' :: 'u' :: '{' :: cs =>
    let n := countWhile isHex cs
    match cs.drop n with
    | '}' :: _ => if n = 0 then 0 else n + 4
    | _ => 0
  | '\\' :: 'u' :: a :: b :: c :: d :: _ =>
    if isHex a && isHex b && isHex c && isHex d then 6 else 0
  | '\\' :: '\r' :: '\n' :: _ => 3
  | '\\' :: c :: cs =>
    if '0' ≤ c && c ≤ '7' then 1 + min 3 (countWhile (fun d => '0' ≤ d && d ≤ '7') (c :: cs))
    else if c = 'x' || c = 'u' then 0
    else 2
  | _ => 0

/-- Text of a template up to a substitution, an escape or the end. -/
def templateLength : List Char → Nat
  | '$' :: '{' :: _ => 0
  | c :: cs => if c = '`' || c = '\\' then 0 else templateLength cs + 1
  | [] => 0

/-- What a character of a regular expression stands in. -/
inductive RegexPlace where
  | plain | escape | bracket | bracketEscape

/-- The length of a regular expression up to the slash that ends it. -/
def regexLength : RegexPlace → List Char → Option Nat
  | _, [] => none
  | place, c :: cs =>
    if c = '\n' then none
    else match place with
      | .escape => (regexLength .plain cs).map (· + 1)
      | .bracketEscape => (regexLength .bracket cs).map (· + 1)
      | .bracket =>
        let place := if c = ']' then .plain else if c = '\\' then .bracketEscape else .bracket
        (regexLength place cs).map (· + 1)
      | .plain =>
        if c = '/' then some 0
        else
          let place := if c = '[' then .bracket else if c = '\\' then .escape else .plain
          (regexLength place cs).map (· + 1)

/-- The length of a block comment behind its opening. -/
def blockCommentLength : List Char → Option Nat
  | '*' :: '/' :: _ => some 2
  | _ :: cs => (blockCommentLength cs).map (· + 1)
  | [] => none

def isLineEnd (c : Char) : Bool :=
  c = '\n' || c = '\r' || c = '\u2028' || c = '\u2029'

/-- The length of the comment at the front of a text. -/
def commentLength : List Char → Option Nat
  | '/' :: '/' :: cs => some (countWhile (fun c => !isLineEnd c) cs + 2)
  | '/' :: '*' :: cs => (blockCommentLength cs).map (· + 2)
  | _ => none

/-- Operators and other runs of marks in expressions; the longest one counts. -/
def operators : List (List Char) :=
  [">>>=", "...", "===", "!==", "**=", "<<=", ">>=", ">>>", "&&=", "||=", "??=", "=>", "==", "!=", "<=",
    ">=", "&&", "||", "??", "++", "--", "+=", "-=", "*=", "/=", "%=", "&=", "|=", "^=", "<<", ">>", "**",
    "=", "<", ">", "&", "|", "+", "-", "*", "/", "%", "^", "!", "~"].map String.toList

/-- The operator at the front of a text. A question mark is one by itself unless it begins a chained
access or is doubled. -/
def operatorAt : List Char → List Char
  | '?' :: '.' :: _ => ['?', '.']
  | '?' :: '?' :: '=' :: _ => ['?', '?', '=']
  | '?' :: '?' :: _ => ['?', '?']
  | '?' :: _ => ['?']
  | cs => (operators.find? (startsWith cs)).getD []

inductive Lexeme where
  /-- A run of marks, whatever follows. -/
  | mark (cs : List Char)
  /-- A run of marks that no longer operator begins with. -/
  | operator (cs : List Char)
  /-- A whole word. -/
  | word (cs : List Char)
  /-- A name other than the given words. -/
  | name (except : List (List Char))
  /-- A name behind a number sign. -/
  | privateName
  | number
  /-- Text of a string in the given quotes. -/
  | fragment (quote : Char)
  | escape
  | template
  | regex
  | regexFlags
  /-- The line that names an interpreter, at the start of a program. -/
  | hashBang

def positive (n : Nat) : Option Nat :=
  if n = 0 then none else some n

/-- How many characters a lexeme takes from the front of a text. -/
def Lexeme.take? : Lexeme → List Char → Option Nat
  | mark m, cs => if startsWith cs m then positive m.length else none
  | operator m, cs => if startsWith cs m && operatorAt cs = m then positive m.length else none
  | word w, cs => if startsWith cs w && nameLength cs = w.length then positive w.length else none
  | name except, cs =>
    let n := nameLength cs
    if n = 0 || except.contains (cs.take n) then none else some n
  | privateName, cs =>
    match cs with
    | '#' :: ds => (positive (nameLength ds)).map (· + 1)
    | _ => none
  | number, cs => positive (numberLength cs)
  | fragment quote, cs =>
    positive (countWhile (fun c => c ≠ quote && c ≠ '\\' && c ≠ '\r' && c ≠ '\n') cs)
  | escape, cs => positive (stringEscapeLength cs)
  | template, cs => positive (templateLength cs)
  | regex, cs => (regexLength .plain cs).bind positive
  | regexFlags, cs => positive (countWhile (fun c => 'a' ≤ c && c ≤ 'z') cs)
  | hashBang, cs =>
    if startsWith cs ['#', '!'] then some (countWhile (fun c => !(c = '\n' || c = '\r')) cs) else none

end UsageTypes
