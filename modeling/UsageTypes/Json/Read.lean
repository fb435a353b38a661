import UsageTypes.Json.Basic

/-! Reading JSON. -/

namespace UsageTypes

namespace Json

def isSpace (c : Char) : Bool := c = ' ' || c = '\n' || c = '\t' || c = '\r'

def skipSpace (cs : List Char) : List Char := cs.dropWhile isSpace

def hexDigit? (c : Char) : Option Nat :=
  if c.isDigit then some (c.toNat - '0'.toNat)
  else if 'a' ≤ c && c ≤ 'f' then some (c.toNat - 'a'.toNat + 10)
  else if 'A' ≤ c && c ≤ 'F' then some (c.toNat - 'A'.toNat + 10)
  else none

/-- Four hexadecimal digits. -/
def hex4 : List Char → Except JsonFault (Nat × List Char)
  | a :: b :: c :: d :: cs =>
    match hexDigit? a, hexDigit? b, hexDigit? c, hexDigit? d with
    | some a, some b, some c, some d => .ok (a * 4096 + b * 256 + c * 16 + d, cs)
    | _, _, _, _ => .error .invalidEscape
  | _ => .error .endInString

/-- The character of a hexadecimal escape; the larger ones are written as two. -/
def hexEscape (cs : List Char) : Except JsonFault (Char × List Char) :=
  match hex4 cs with
  | .error f => .error f
  | .ok (n, rest) =>
    if 0xdc00 ≤ n && n ≤ 0xdfff then .error .loneSurrogate
    else if 0xd800 ≤ n && n ≤ 0xdbff then
      match rest with
      | '\\' :: 'u' :: more =>
        match hex4 more with
        | .error f => .error f
        | .ok (m, rest) =>
          if 0xdc00 ≤ m && m ≤ 0xdfff then
            .ok (Char.ofNat ((n - 0xd800) * 1024 + (m - 0xdc00) + 0x10000), rest)
          else .error .loneSurrogate
      | [] | ['\\'] => .error .endInString
      | _ => .error .shortHexEscape
    else .ok (Char.ofNat n, rest)

def simpleEscape? (c : Char) : Option Char :=
  if c = '"' || c = '\\' || c = '/' then some c
  else if c = 'b' then some '\x08'
  else if c = 'f' then some '\x0c'
  else if c = 'n' then some '\n'
  else if c = 'r' then some '\r'
  else if c = 't' then some '\t'
  else none

/-- The characters of a string behind its first quote, and what stands behind the last one. -/
def readString : Nat → List Char → Except JsonFault (List Char × List Char)
  | 0, _ => .error .endInString
  | _ + 1, [] => .error .endInString
  | fuel + 1, c :: cs =>
    if c = '"' then .ok ([], cs)
    else if c = '\\' then
      match cs with
      | [] => .error .endInString
      | 'u' :: ds =>
        match hexEscape ds with
        | .error f => .error f
        | .ok (ch, rest) => (readString fuel rest).map fun (text, rest) => (ch :: text, rest)
      | d :: ds =>
        match simpleEscape? d with
        | none => .error .invalidEscape
        | some ch => (readString fuel ds).map fun (text, rest) => (ch :: text, rest)
    else if c.toNat < 0x20 then .error .controlCharacter
    else (readString fuel cs).map fun (text, rest) => (c :: text, rest)

def digitsValue (cs : List Char) : Nat :=
  cs.foldl (fun n c => n * 10 + (c.toNat - '0'.toNat)) 0

/-- The largest natural number that is kept as it is. -/
def largest : Nat := 18446744073709551615

/-- The significand of a decimal: digits are dropped once it would grow too large. Returns it and the
number of digits that were taken. -/
def significand (n taken : Nat) : List Char → Nat × Nat
  | [] => (n, taken)
  | c :: cs =>
    let m := n * 10 + (c.toNat - '0'.toNat)
    if m > largest then (n, taken) else significand m (taken + 1) cs

def makeDouble (negative : Bool) (whole fraction : List Char) (exponent : Int) : Json :=
  let (n, taken) := significand 0 0 (whole ++ fraction)
  match Double.ofScientific? n (exponent + whole.length - taken) with
  | some x => .number (.double negative x)
  | none => .broken .numberTooLarge

/-- The complaint about a number that breaks off before a text. -/
def cutShort (rest : List Char) : JsonFault :=
  if rest.isEmpty then .endInValue else .invalidNumber

/-- The exponent of a number, behind its mark. -/
def readExponent (cs : List Char) : Except JsonFault (Int × List Char) :=
  let (sign, ds) : Int × List Char := match cs with
    | '+' :: ds => (1, ds)
    | '-' :: ds => (-1, ds)
    | _ => (1, cs)
  let digits := ds.takeWhile Char.isDigit
  if digits.isEmpty then .error (cutShort ds)
  else .ok (sign * digitsValue digits, ds.dropWhile Char.isDigit)

/-- A number behind its sign. -/
def readNumber (negative : Bool) (cs : List Char) : Json × List Char :=
  let whole := cs.takeWhile Char.isDigit
  let rest := cs.dropWhile Char.isDigit
  if whole.isEmpty then (.broken (cutShort cs), rest)
  else if whole.head? = some '0' && whole.length > 1 then (.broken .invalidNumber, rest)
  else
    let (hasPoint, fraction, rest) : Bool × List Char × List Char := match rest with
      | '.' :: ds => (true, ds.takeWhile Char.isDigit, ds.dropWhile Char.isDigit)
      | _ => (false, [], rest)
    if hasPoint && fraction.isEmpty then (.broken (cutShort rest), rest)
    else
      match rest with
      | 'e' :: ds | 'E' :: ds =>
        match readExponent ds with
        | .error f => (.broken f, rest)
        | .ok (e, rest) => (makeDouble negative whole fraction e, rest)
      | _ =>
        let n := digitsValue whole
        if hasPoint then (makeDouble negative whole fraction 0, rest)
        else if negative then
          if 1 ≤ n && n ≤ 9223372036854775808 then (.number (.negative n), rest)
          else (makeDouble negative whole [] 0, rest)
        else if n ≤ largest then (.number (.natural n), rest)
        else (makeDouble negative whole [] 0, rest)

/-- A word that begins with a letter that was read. -/
def readWord (tail : List Char) (value : Json) (cs : List Char) : Json × List Char :=
  if cs.take tail.length = tail then (value, cs.drop tail.length)
  else (.broken (if cs.length < tail.length && tail.take cs.length = cs then .endInValue else .expectedIdent), cs)

mutual

/-- A value and what stands behind it. -/
def readValue : Nat → List Char → Json × List Char
  | 0, cs => (.broken .endInValue, cs)
  | fuel + 1, cs =>
    match skipSpace cs with
    | [] => (.broken .endInValue, [])
    | 'n' :: cs => readWord ['u', 'l', 'l'] .null cs
    | 't' :: cs => readWord ['r', 'u', 'e'] (.bool true) cs
    | 'f' :: cs => readWord ['a', 'l', 's', 'e'] (.bool false) cs
    | '"' :: cs =>
      match readString (cs.length + 1) cs with
      | .ok (text, rest) => (.string (String.ofList text), rest)
      | .error f => (.broken f, [])
    | '[' :: cs =>
      let (items, ending, rest) := readItems fuel true cs
      (.array items ending, rest)
    | '{' :: cs =>
      let (entries, ending, rest) := readEntries fuel true cs
      (.object entries ending, rest)
    | '-' :: cs => readNumber true cs
    | c :: cs => if c.isDigit then readNumber false (c :: cs) else (.broken .expectedValue, c :: cs)

/-- The items of a list up to its end. -/
def readItems : Nat → Bool → List Char → List Json × Option JsonFault × List Char
  | 0, _, cs => ([], some .endInList, cs)
  | fuel + 1, first, cs =>
    let item (cs : List Char) : List Json × Option JsonFault × List Char :=
      match readValue fuel cs with
      | (.broken f, rest) => ([.broken f], some f, rest)
      | (v, rest) =>
        let (items, ending, rest) := readItems fuel false rest
        (v :: items, ending, rest)
    match skipSpace cs with
    | [] => ([], some .endInList, [])
    | ']' :: cs => ([], none, cs)
    | c :: cs =>
      if first then item (c :: cs)
      else if c = ',' then
        match skipSpace cs with
        | [] => ([], some .endInValue, [])
        | ']' :: cs => ([], some .trailingComma, cs)
        | cs => item cs
      else ([], some .expectedListEnd, c :: cs)

/-- The entries of an object up to its end. -/
def readEntries : Nat → Bool → List Char → List (String × Json) × Option JsonFault × List Char
  | 0, _, cs => ([], some .endInObject, cs)
  | fuel + 1, first, cs =>
    let entry (cs : List Char) : List (String × Json) × Option JsonFault × List Char :=
      match cs with
      | '"' :: cs =>
        match readString (cs.length + 1) cs with
        | .error f => ([], some f, [])
        | .ok (key, rest) =>
          let key := String.ofList key
          match skipSpace rest with
          | [] => ([(key, .broken .endInObject)], some .endInObject, [])
          | ':' :: rest =>
            match readValue fuel rest with
            | (.broken f, rest) => ([(key, .broken f)], some f, rest)
            | (v, rest) =>
              let (entries, ending, rest) := readEntries fuel false rest
              ((key, v) :: entries, ending, rest)
          | rest => ([(key, .broken .expectedColon)], some .expectedColon, rest)
      | _ => ([], some (.keyNotString (readValue fuel cs).1.describe), cs)
    match skipSpace cs with
    | [] => ([], some .endInObject, [])
    | '}' :: cs => ([], none, cs)
    | c :: cs =>
      if first then entry (c :: cs)
      else if c = ',' then
        match skipSpace cs with
        | [] => ([], some .endInValue, [])
        | '}' :: cs => ([], some .trailingComma, cs)
        | cs => entry cs
      else ([], some .expectedObjectEnd, c :: cs)

end

/-- The value of a text, and the fault of what stands behind it. -/
def read (text : String) : Json × Option JsonFault :=
  let cs := text.toList
  let (v, rest) := readValue (cs.length + 1) cs
  (v, if (skipSpace rest).isEmpty then none else some .trailingText)

end Json

end UsageTypes
