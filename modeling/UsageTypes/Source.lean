import UsageTypes.Fault
import UsageTypes.Grammar.Statements

/-!
Source texts and their trees. A text that is no program is reported at the first bracket that is not
closed where it has to be, else at the first statement that cannot be read.
-/

namespace UsageTypes

structure Source where
  fileName : String
  text : String
  tree : Tree

/-- Where the search for an open bracket is. -/
structure Search where
  lexing : Lexing := {}
  /-- Where the next character stands. -/
  place : Position
  /-- The end of the last word or comment. -/
  lastEnd : Position

namespace Search

def advance (s : Search) (c : Char) (next : Option Char) : Search :=
  let place := s.place.next c
  let inWord := !(s.lexing.spot = .code && isBlank c) && !(s.lexing.spot = .lineComment && isLineEnd c)
  { lexing := s.lexing.step c next, place, lastEnd := if inWord then place else s.lastEnd }

/-- The first bracket that is open at a semicolon or closes no open one, or a brace that is open at
the end. -/
def run (s : Search) : List Char → Option (Position × ParseCause)
  | [] =>
    if s.lexing.stack.contains .curly then some (s.lastEnd, .missing "\x7d") else none
  | c :: cs =>
    if c = ';' && s.lexing.spot = .code && s.lexing.stack.head? = some .round then
      some (s.lastEnd, .missing ")")
    else if c = ';' && s.lexing.spot = .code && s.lexing.stack.head? = some .square then
      some (s.lastEnd, .missing "]")
    else
      let t := s.advance c cs.head?
      if t.lexing.broken then some (s.place, .unexpected) else t.run cs

end Search

/-- Where and why the text at a cursor is no statement. -/
def diagnose (c : Cursor) : Position × ParseCause :=
  let s : Search := { place := c.place, lastEnd := c.place }
  (s.run c.rest).getD (c.place, .unexpected)

/-- Reads a source text under a file name. -/
def Source.parse (fileName text : String) : Except Fault Source :=
  let (ts, c) := readStatements text
  if c.rest.isEmpty then .ok ⟨fileName, text, .node none .program {} ts⟩
  else
    let (place, cause) := diagnose c
    .error (.parse fileName (place.line + 1) (place.column + 1) cause)

end UsageTypes
