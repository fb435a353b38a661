import UsageTypes.Grammar.Cursor

/-!
Grammars as data, and the reader that follows them. A grammar says which trees stand side by side in
a text. Choices are ordered and repetition takes as much as it can. Left-recursive forms are grown:
an operand is read first, and every continuation that fits wraps what was read so far.
-/

namespace UsageTypes

inductive Grammar (ρ : Type) where
  | empty
  /-- A word, with blanks and comments before it. -/
  | token (lexeme : Lexeme)
  /-- A word that stands right behind what was read. -/
  | glued (lexeme : Lexeme)
  /-- A node of one word that stands right behind what was read. -/
  | gluedLeaf (kind : Kind) (lexeme : Lexeme)
  | seq (first second : Grammar ρ)
  | alt (first second : Grammar ρ)
  | many (body : Grammar ρ)
  /-- A node. Blanks and comments before it stay outside. -/
  | node (kind : Kind) (body : Grammar ρ)
  | field (label : Label) (body : Grammar ρ)
  /-- What ends in a node of one of the kinds. -/
  | only (fits : Kind → Bool) (body : Grammar ρ)
  | rule (r : ρ)
  /-- An operand and the continuations that wrap it, as many as fit. -/
  | grow (operand continuation : Grammar ρ)
  /-- A continuation: wraps the operand, if it is of a kind that can be continued so, together with
  what follows it. -/
  | wrap (kind : Kind) (label : Option Label) (fits : Kind → Bool) (body : Grammar ρ)
  /-- Succeeds where the body would, and reads nothing. -/
  | look (body : Grammar ρ)
  /-- Succeeds where the body would fail, and reads nothing. -/
  | absent (body : Grammar ρ)
  /-- A test of the text behind blanks and comments. -/
  | ahead (test : List Char → Bool)
  /-- Blanks and comments. -/
  | trivia
  /-- A semicolon, written or implied. -/
  | semicolon
  /-- An implied semicolon only. -/
  | implied
  /-- Fails where a semicolon is implied behind an operand. -/
  | unlessImplied
  /-- Says that an expression was read. -/
  | operand

abbrev Reading := Option (List Tree × Cursor)

/-- Reads as often as possible. A round that reads nothing is the last one. -/
def readMany (body : Cursor → Reading) : Nat → Cursor → List Tree × Cursor
  | 0, c => ([], c)
  | bound + 1, c =>
    match body c with
    | none => ([], c)
    | some (ts, d) =>
      if d.place.byte = c.place.byte then ([], c)
      else
        let (us, e) := readMany body bound d
        (ts ++ us, e)

/-- Wraps an operand as often as possible. -/
def readGrow (continuation : List Tree → Cursor → Reading) :
    Nat → List Tree → Cursor → List Tree × Cursor
  | 0, left, c => (left, c)
  | bound + 1, left, c =>
    match continuation left c with
    | none => (left, c)
    | some (ts, d) => readGrow continuation bound ts d

namespace Grammar

variable {ρ : Type}

/-- Follows a grammar from a cursor. The reader of the rules is given, and so is a bound on the
number of rounds of a repetition; `left` is the operand that a continuation wraps. -/
def read (bound : Nat) (rules : ρ → Cursor → Reading) : Grammar ρ → List Tree → Cursor → Reading
  | empty, _, c => some ([], c)
  | token lexeme, _, c =>
    let (ts, d) := readTrivia bound c
    match lexeme.take? d.rest with
    | none => none
    | some n => some (ts ++ [.token none (d.front n)], d.read n)
  | glued lexeme, _, c =>
    match lexeme.take? c.rest with
    | none => none
    | some n => some ([.token none (c.front n)], c.read n)
  | gluedLeaf kind lexeme, _, c =>
    match lexeme.take? c.rest with
    | none => none
    | some n => some ([.node none kind c.place [.token none (c.front n)]], c.read n)
  | seq a b, left, c =>
    match a.read bound rules left c with
    | none => none
    | some (ts, d) =>
      match b.read bound rules left d with
      | none => none
      | some (us, e) => some (ts ++ us, e)
  | alt a b, left, c =>
    match a.read bound rules left c with
    | some r => some r
    | none => b.read bound rules left c
  | many a, _, c => some (readMany (a.read bound rules []) bound c)
  | node kind a, _, c =>
    let (ts, d) := readTrivia bound c
    match a.read bound rules [] d with
    | none => none
    | some (us, e) => some (ts ++ [.node none kind d.place us], e)
  | field label a, left, c =>
    match a.read bound rules left c with
    | none => none
    | some (ts, d) => some (ts.map (·.play label), d)
  | only fits a, left, c =>
    match a.read bound rules left c with
    | none => none
    | some (ts, d) => if (ts.getLast?.bind Tree.kind?).any fits then some (ts, d) else none
  | rule r, _, c => rules r c
  | grow a b, _, c =>
    let (ts, d) := readTrivia bound c
    match a.read bound rules [] d with
    | none => none
    | some (us, e) =>
      let (vs, f) := readGrow (b.read bound rules) bound us e
      some (ts ++ vs, f)
  | wrap kind label fits a, left, c =>
    match left with
    | [.node l k p cs] =>
      if fits k then
        match a.read bound rules [] c with
        | none => none
        | some (us, d) =>
          let operand : Tree := .node l k p cs
          let operand := match label with
            | none => operand
            | some l => operand.play l
          some ([.node none kind p (operand :: us)], d)
      else none
    | _ => none
  | look a, left, c =>
    match a.read bound rules left c with
    | none => none
    | some _ => some ([], c)
  | absent a, left, c =>
    match a.read bound rules left c with
    | none => some ([], c)
    | some _ => none
  | ahead test, _, c => if test (dropTrivia bound c.rest) then some ([], c) else none
  | trivia, _, c => some (readTrivia bound c)
  | semicolon, _, c =>
    let (ts, d) := readTrivia bound c
    match d.rest with
    | ';' :: _ => some (ts ++ [.token none ";"], d.read 1)
    | _ => autoSemicolon bound c
  | implied, _, c => autoSemicolon bound c
  | unlessImplied, _, c =>
    match autoSemicolon bound { c with afterOperand := true } with
    | none => some ([], c)
    | some _ => none
  | operand, _, c => some ([], { c with afterOperand := true })

/-- Follows a rule of a grammar; the depth of rules within rules is bounded. -/
def readRule (grammar : ρ → Grammar ρ) (bound : Nat) : Nat → ρ → Cursor → Reading
  | 0, _, _ => none
  | depth + 1, r, c => (grammar r).read bound (readRule grammar bound depth) [] c

instance : Append (Grammar ρ) := ⟨seq⟩

/-- The first of several grammars that fits. -/
def oneOf : List (Grammar ρ) → Grammar ρ
  | [] => absent empty
  | [g] => g
  | g :: gs => alt g (oneOf gs)

def opt (g : Grammar ρ) : Grammar ρ := alt g empty

def mark (s : String) : Grammar ρ := token (.mark s.toList)

def op (s : String) : Grammar ρ := token (.operator s.toList)

def word (s : String) : Grammar ρ := token (.word s.toList)

def words (ws : List String) : Grammar ρ := oneOf (ws.map word)

def ops (ws : List String) : Grammar ρ := oneOf (ws.map op)

/-- A node that is one word. -/
def leaf (kind : Kind) (lexeme : Lexeme) : Grammar ρ := node kind (token lexeme)

/-- Items with commas between them, at least one. -/
def commaSep (item : Grammar ρ) : Grammar ρ := item ++ many (mark "," ++ item)

/-- Items with commas between them; items may be missing. -/
def commaHoles (item : Grammar ρ) : Grammar ρ := opt item ++ many (mark "," ++ opt item)

end Grammar

end UsageTypes
