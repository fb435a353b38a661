import UsageTypes.Grammar.Lexeme
import UsageTypes.Tree.Basic

/-!
Reading positions. A cursor is what is left of a text and the place where it starts. Blanks and
comments may stand before every word; a statement may end without a semicolon where the next line
cannot go on with it.
-/

namespace UsageTypes

structure Cursor where
  rest : List Char
  place : Position := {}
  /-- Whether what was read ends in an expression, which an operator or a call could go on with. -/
  afterOperand : Bool := false
  deriving DecidableEq, Inhabited

namespace Cursor

/-- Moves over characters that belong to no word. -/
def pass (c : Cursor) (n : Nat) : Cursor :=
  { c with rest := c.rest.drop n, place := c.place.after (c.rest.take n) }

/-- Moves over a word. -/
def read (c : Cursor) (n : Nat) : Cursor :=
  { c.pass n with afterOperand := false }

/-- The next characters. -/
def front (c : Cursor) (n : Nat) : String :=
  String.ofList (c.rest.take n)

end Cursor

/-- The blanks and comments at a cursor. -/
def readTrivia : Nat → Cursor → List Tree × Cursor
  | 0, c => ([], c)
  | bound + 1, c =>
    match c.rest with
    | [] => ([], c)
    | ch :: _ =>
      if isBlank ch then
        let n := countWhile isBlank c.rest
        let (ts, d) := readTrivia bound (c.pass n)
        (.blank (c.front n) :: ts, d)
      else if ch = '/' then
        match commentLength c.rest with
        | some n =>
          let (ts, d) := readTrivia bound (c.pass n)
          (.node none .comment c.place [.token none (c.front n)] :: ts, d)
        | none => ([], c)
      else ([], c)

/-- Blanks within a line. -/
def isInlineBlank (c : Char) : Bool :=
  c = ' ' || c = '\t' || c = '\r' || c = '\x0b' || c = '\x0c'

/-- A text without the blanks and comments at its front. -/
def dropTrivia : Nat → List Char → List Char
  | 0, cs => cs
  | bound + 1, cs =>
    let ds := cs.drop (countWhile isBlank cs)
    match commentLength ds with
    | some n => dropTrivia bound (ds.drop n)
    | none => ds

/-- Whether the line that a text begins cannot go on with the statement before it. Operators go on
with a statement, brackets do so behind an expression, and signs only if they are not doubled. -/
def beginsStatement (afterOperand : Bool) : List Char → Bool
  | [] => true
  | c :: cs =>
    if c ∈ ['`', ',', '.', ';', '*', '%', '>', '<', '=', '?', '^', '|', '&', '/', ':'] then false
    else if c = '(' || c = '[' then !afterOperand
    else if c = '+' then startsWith cs ['+']
    else if c = '-' then startsWith cs ['-']
    else if c = '!' then !startsWith cs ['=']
    else if startsWith (c :: cs) "in".toList then
      let word := (c :: cs).takeWhile Char.isAlpha
      !(word = "in".toList || word = "instanceof".toList)
    else true

/-- The end of a statement that has no semicolon: at the end of the text, before a closing brace, or
at a line end that the next line cannot go on with. Comments of the same line belong to the
statement. -/
def autoSemicolon : Nat → Cursor → Option (List Tree × Cursor)
  | 0, _ => none
  | bound + 1, c =>
    let n := countWhile isInlineBlank c.rest
    match c.rest.drop n with
    | [] => some ([], c)
    | '}' :: cs =>
      let typed := startsWith (cs.drop (countWhile isBlank cs)) [':']
      if typed && !c.afterOperand then none else some ([], c)
    | '\n' :: cs => if beginsStatement c.afterOperand (dropTrivia bound cs) then some ([], c) else none
    | cs =>
      match commentLength cs with
      | none => none
      | some k =>
        let d := c.pass n
        match autoSemicolon bound (d.pass k) with
        | none => none
        | some (ts, e) =>
          let comment := Tree.node none .comment d.place [.token none (d.front k)]
          some ((if n = 0 then [] else [.blank (c.front n)]) ++ comment :: ts, e)

end UsageTypes
