import UsageTypes.Grammar.Lexeme

/-!
Brackets. An automaton follows a text character by character through strings, templates, comments
and regular expressions, and keeps the brackets that are open. It tells what stands behind the
bracket that closes the first one.
-/

namespace UsageTypes

/-- A bracket that is open, by what closes it. -/
inductive Bracket where
  | round | square | curly
  /-- The parentheses of a loop header, in which semicolons may stand. -/
  | header
  /-- A substitution in a template, and the template itself. -/
  | substitution | template
  deriving DecidableEq, Repr, Inhabited

/-- What a character stands in. -/
inductive Spot where
  | code | lineComment
  | blockOpen | blockComment | blockClose
  | quoted (quote : Char) | quotedEscape (quote : Char)
  | template | templateEscape | substitutionOpen
  | regex | regexEscape | regexBracket | regexBracketEscape
  deriving DecidableEq, Repr, Inhabited

structure Lexing where
  spot : Spot := .code
  /-- The open brackets, innermost first. -/
  stack : List Bracket := []
  /-- The last character that is no blank and in no comment. -/
  prev : Char := ';'
  /-- The word that ends there, backwards. -/
  word : List Char := []
  /-- Whether a bracket was closed that was not the innermost open one. -/
  broken : Bool := false
  deriving DecidableEq, Inhabited

/-- Words that an expression follows, backwards. -/
def wordsBeforeExpression : List (List Char) :=
  ["return", "typeof", "case", "do", "else", "in", "instanceof", "new", "void", "delete", "throw", "await",
    "yield", "of"].map (fun w => w.toList.reverse)

namespace Lexing

/-- Whether a slash here begins a regular expression: an operand is expected. -/
def expectsOperand (s : Lexing) : Bool :=
  if isNamePart s.prev then s.word ∈ wordsBeforeExpression
  else !(s.prev ∈ [')', ']', '}', '"', '\x27', '`', '/'])

/-- Whether the word before is the one of a loop. -/
def afterFor (s : Lexing) : Bool :=
  s.word = "for".toList.reverse || s.word = "await".toList.reverse

def opened (s : Lexing) (b : Bracket) (c : Char) : Lexing :=
  { s with stack := b :: s.stack, prev := c, word := [] }

def closed (s : Lexing) (c : Char) : Lexing :=
  match s.stack, c with
  | .round :: bs, ')' | .header :: bs, ')' | .square :: bs, ']' | .curly :: bs, '}' =>
    { s with stack := bs, prev := c, word := [] }
  | .substitution :: bs, '}' => { s with stack := bs, spot := .template }
  | _, _ => { s with broken := true, prev := c, word := [] }

/-- A character of code, and the one behind it. -/
def code (s : Lexing) (c : Char) (next : Option Char) : Lexing :=
  if c = '/' then
    if next = some '/' then { s with spot := .lineComment }
    else if next = some '*' then { s with spot := .blockOpen }
    else if s.expectsOperand then { s with spot := .regex }
    else { s with prev := c, word := [] }
  else if c = '"' || c = '\x27' then { s with spot := .quoted c }
  else if c = '`' then { s with spot := .template, stack := .template :: s.stack }
  else if c = '(' then s.opened (if s.afterFor then .header else .round) c
  else if c = '[' then s.opened .square c
  else if c = '{' then s.opened .curly c
  else if c = ')' || c = ']' || c = '}' then s.closed c
  else if isBlank c then s
  else if isNamePart c then
    { s with prev := c, word := if isNamePart s.prev then c :: s.word else [c] }
  else { s with prev := c, word := [] }

/-- One character, and the one behind it. -/
def step (s : Lexing) (c : Char) (next : Option Char) : Lexing :=
  match s.spot with
  | .code => s.code c next
  | .lineComment => if isLineEnd c then { s with spot := .code } else s
  | .blockOpen => { s with spot := .blockComment }
  | .blockComment => if c = '*' && next = some '/' then { s with spot := .blockClose } else s
  | .blockClose => { s with spot := .code }
  | .quoted q =>
    if c = '\\' then { s with spot := .quotedEscape q }
    else if c = q then { s with spot := .code, prev := c, word := [] }
    else s
  | .quotedEscape q => { s with spot := .quoted q }
  | .template =>
    if c = '\\' then { s with spot := .templateEscape }
    else if c = '`' then { s with spot := .code, stack := s.stack.drop 1, prev := c, word := [] }
    else if c = '$' && next = some '{' then { s with spot := .substitutionOpen }
    else s
  | .templateEscape => { s with spot := .template }
  | .substitutionOpen =>
    { s with spot := .code, stack := .substitution :: s.stack, prev := '{', word := [] }
  | .regex =>
    if c = '\\' then { s with spot := .regexEscape }
    else if c = '[' then { s with spot := .regexBracket }
    else if c = '/' || c = '\n' then { s with spot := .code, prev := '/', word := [] }
    else s
  | .regexEscape => { s with spot := .regex }
  | .regexBracket =>
    if c = '\\' then { s with spot := .regexBracketEscape }
    else if c = ']' then { s with spot := .regex }
    else if c = '\n' then { s with spot := .code, prev := '/', word := [] }
    else s
  | .regexBracketEscape => { s with spot := .regexBracket }

/-- The text from where all brackets are closed again. -/
def closing (s : Lexing) : List Char → Option (List Char)
  | [] => none
  | c :: cs =>
    let t := s.step c cs.head?
    if t.broken then none
    else if t.stack.isEmpty then some cs
    else t.closing cs

end Lexing

/-- The text behind the bracket that closes the one at the front of a text. -/
def behindBracket (cs : List Char) : Option (List Char) :=
  ({} : Lexing).closing cs

example : behindBracket "(a, ')', /[)]/, `$\x7bf(')')\x7d`) => b".toList = some " => b".toList := by
  decide +kernel

end UsageTypes
