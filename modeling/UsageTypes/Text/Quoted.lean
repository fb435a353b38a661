/-!
Texts in double quotes, for diagnostics: quotes, backslashes and line ends are escaped, and so are
characters that cannot be seen.
-/

namespace UsageTypes

/-- Characters that are written by their number: controls, formats, blanks other than the space,
combining marks and private ones. -/
def isHidden (c : Char) : Bool :=
  let n := c.toNat
  n < 0x20 || (0x7f ≤ n && n ≤ 0xa0) || n = 0xad || (0x300 ≤ n && n ≤ 0x36f) || (0x483 ≤ n && n ≤ 0x489) ||
  (0x591 ≤ n && n ≤ 0x5bd) || (0x600 ≤ n && n ≤ 0x605) || n = 0x61c || (0x64b ≤ n && n ≤ 0x65f) ||
  n = 0x1680 || n = 0x180e || (0x1ab0 ≤ n && n ≤ 0x1ace) || (0x1dc0 ≤ n && n ≤ 0x1dff) ||
  (0x2000 ≤ n && n ≤ 0x200f) || (0x2028 ≤ n && n ≤ 0x202f) || (0x205f ≤ n && n ≤ 0x206f) ||
  (0x20d0 ≤ n && n ≤ 0x20f0) || n = 0x3000 || (0x302a ≤ n && n ≤ 0x302f) || n = 0x3099 || n = 0x309a ||
  (0xe000 ≤ n && n ≤ 0xf8ff) || (0xfe00 ≤ n && n ≤ 0xfe0f) || (0xfe20 ≤ n && n ≤ 0xfe2f) || n = 0xfeff ||
  (0xfff0 ≤ n && n ≤ 0xfffb) || 0xe0000 ≤ n

def quotedChar (c : Char) : List Char :=
  if c = '"' then ['\\', '"']
  else if c = '\\' then ['\\', '\\']
  else if c = '\n' then ['\\', 'n']
  else if c = '\r' then ['\\', 'r']
  else if c = '\t' then ['\\', 't']
  else if c = '\x00' then ['\\', '0']
  else if isHidden c then ['\\', 'u', '{'] ++ Nat.toDigits 16 c.toNat ++ ['}']
  else [c]

def quoted (s : String) : String :=
  String.ofList ('"' :: s.toList.flatMap quotedChar ++ ['"'])

end UsageTypes
