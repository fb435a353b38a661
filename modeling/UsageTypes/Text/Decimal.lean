/-!
Decimal numbers in double precision. A number is read as a significand and a power of ten, taken to
the nearest double step by step, and written with the fewest digits that read back.
-/

namespace UsageTypes

/-- A positive double `m · 2 ^ e`, or zero. -/
structure Double where
  mantissa : Nat
  exponent : Int
  deriving DecidableEq, Repr, Inhabited

namespace Double

def twoTo (k : Nat) : Nat := Nat.pow 2 k

def tenTo (k : Nat) : Nat := Nat.pow 10 k

/-- The double nearest to a quotient; halves go to the even neighbour. There is none if the quotient
is too large. -/
def ofQuotient? (num den : Nat) : Option Double :=
  if num = 0 then some ⟨0, 0⟩
  else
    let guess : Int := (num.log2 : Int) - (den.log2 : Int) - 53
    let low : Int := if guess < -1074 then -1074 else guess
    -- the mantissa has 53 or 54 bits at the guess, fewer at the lowest exponent
    let quotient (e : Int) : Nat × Nat × Nat :=
      match e with
      | .ofNat k => let d := den * twoTo k; (num / d, num % d, d)
      | .negSucc k => let n := num * twoTo (k + 1); (n / den, n % den, den)
    let e := if (quotient low).1 < twoTo 53 then low else low + 1
    let (m, r, d) := quotient e
    let m := if 2 * r > d || (2 * r = d && m % 2 = 1) then m + 1 else m
    let (m, e) := if m = twoTo 53 then (twoTo 52, e + 1) else (m, e)
    if e > 971 then none else some ⟨m, e⟩

/-- A double as a quotient. -/
def quotient (x : Double) : Nat × Nat :=
  match x.exponent with
  | .ofNat k => (x.mantissa * twoTo k, 1)
  | .negSucc k => (x.mantissa, twoTo (k + 1))

/-- The double nearest to a significand times a power of ten, by way of the double nearest to each.
There is none if it is too large. -/
def ofScientific? (significand : Nat) (exponent : Int) : Option Double :=
  match ofQuotient? significand 1 with
  | none => none
  | some f =>
    if f.mantissa = 0 then some f
    else
      match exponent with
      | .ofNat k =>
        if k > 308 then none
        else match ofQuotient? (tenTo k) 1 with
          | none => none
          | some p => ofQuotient? (f.quotient.1 * p.quotient.1) (f.quotient.2 * p.quotient.2)
      | .negSucc k =>
        if k + 1 > 700 then some ⟨0, 0⟩
        else
          let step (f : Double) (k : Nat) : Double :=
            match ofQuotient? (tenTo k) 1 with
            | some p =>
              (ofQuotient? (f.quotient.1 * p.quotient.2) (f.quotient.2 * p.quotient.1)).getD ⟨0, 0⟩
            | none => f
          if k + 1 > 616 then some (step (step (step f 308) 308) (k + 1 - 616))
          else if k + 1 > 308 then some (step (step f 308) (k + 1 - 308))
          else some (step f (k + 1))

/-- Whether `a / b` reads back as the double: it lies between the middles to the neighbours, which
belong to the double if its mantissa is even. -/
def readsBack (x : Double) (a b : Nat) : Bool :=
  let lowMiddle : Nat × Int :=
    if x.mantissa = twoTo 52 && x.exponent > -1074 then (4 * x.mantissa - 1, x.exponent - 2)
    else (2 * x.mantissa - 1, x.exponent - 1)
  let highMiddle : Nat × Int := (2 * x.mantissa + 1, x.exponent - 1)
  let compare (m : Nat × Int) : Int :=
    let (n, d) := (Double.mk m.1 m.2).quotient
    (a * d : Int) - (n * b : Int)
  let low := compare lowMiddle
  let high := compare highMiddle
  if x.mantissa % 2 = 0 then low ≥ 0 && high ≤ 0 else low > 0 && high < 0

/-- The decimal digits and the power of ten of the last one, with the given power or the next ones
below it, whichever reads back first. -/
def shortestFrom (x : Double) : Nat → Int → Nat × Int
  | 0, k => (0, k)
  | fuel + 1, k =>
    let (n, d) := x.quotient
    let (a, b) := match k with
      | .ofNat k => (n, d * tenTo k)
      | .negSucc k => (n * tenTo (k + 1), d)
    let floor := a / b
    let value (digits : Nat) : Nat × Nat := match k with
      | .ofNat k => (digits * tenTo k, 1)
      | .negSucc k => (digits, tenTo (k + 1))
    let fits (digits : Nat) : Bool := x.readsBack (value digits).1 (value digits).2
    let near := if 2 * (a % b) ≤ b then floor else floor + 1
    let far := if near = floor then floor + 1 else floor
    if near > 0 && fits near then (near, k)
    else if far > 0 && fits far then (far, k)
    else x.shortestFrom fuel (k - 1)

/-- The fewest digits that read back, and the power of ten of the last one. -/
def shortest (x : Double) : Nat × Int :=
  if x.mantissa = 0 then (0, 0) else x.shortestFrom 700 309

def zeros (n : Int) : List Char := List.replicate n.toNat '0'

/-- Digits with a point behind the given number of them; there is a digit on either side of it. -/
def positional (digits : List Char) (point : Int) : List Char :=
  let whole := (digits ++ zeros (point - digits.length)).take point.toNat
  let fraction := zeros (-point) ++ digits.drop point.toNat
  (if whole.isEmpty then ['0'] else whole) ++ '.' :: (if fraction.isEmpty then ['0'] else fraction)

/-- Digits with a point behind the first one, and the power of ten that moves it. -/
def scientific (digits : List Char) (exponent : Int) : List Char :=
  let fraction := if digits.length ≤ 1 then [] else '.' :: digits.drop 1
  digits.take 1 ++ fraction ++ 'e' :: (if exponent < 0 then '-' else '+') :: Nat.toDigits 10 exponent.natAbs

/-- A double by its shortest digits: positional if at most sixteen digits stand before the point and
at most four zeros follow it, else scientific. -/
def display (x : Double) : String :=
  let (n, k) := x.shortest
  let digits := Nat.toDigits 10 n
  let point := k + digits.length
  String.ofList (if x.mantissa = 0 then ['0', '.', '0']
    else if -5 < point && point ≤ 16 then positional digits point
    else scientific digits (point - 1))

example : (ofScientific? 15 (-1)).map display = some "1.5" := by decide +kernel
example : (ofScientific? 12 (-6)).map display = some "0.000012" := by decide +kernel
example : (ofScientific? 1 15).map display = some "1000000000000000.0" := by decide +kernel
example : (ofScientific? 18446744073709551615 1).map display = some "1.844674407370955e+20" := by
  decide +kernel

end Double

end UsageTypes
