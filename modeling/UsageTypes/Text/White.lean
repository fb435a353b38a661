/-! White space at the ends of a text. -/

namespace UsageTypes

/-- The characters with the property White_Space. -/
def isWhite (c : Char) : Bool :=
  ('\t' ≤ c && c ≤ '\r') || c = ' ' || c = '\u0085' || c = '\u00a0' || c = '\u1680' ||
  ('\u2000' ≤ c && c ≤ '\u200a') || c = '\u2028' || c = '\u2029' || c = '\u202f' || c = '\u205f' ||
  c = '\u3000'

/-- Whether a text has nothing but white space. -/
def isWhiteText (s : String) : Bool := s.toList.all isWhite

end UsageTypes
