namespace SiteConfig.Text

/-- Space separators: the general category Zs. -/
def isSpaceSeparator (c : Char) : Bool :=
  c = ' ' || c = '\u00a0' || c = '\u1680' || ('\u2000' ≤ c && c ≤ '\u200a') ||
    c = '\u202f' || c = '\u205f' || c = '\u3000'

/-- The six ASCII characters that count as space. -/
def isAsciiSpace (c : Char) : Bool :=
  c = ' ' || ('\t' ≤ c && c ≤ '\r')

/-- Line feed and the two Unicode line terminators; a carriage return is not among them. -/
def isLineEnd (c : Char) : Bool :=
  c = '\n' || c = '\u2028' || c = '\u2029'

/-- Characters a script may hold between two tokens. -/
def isBlank (c : Char) : Bool :=
  isAsciiSpace c || isSpaceSeparator c || c = '\u2028' || c = '\u2029' ||
    c = '\ufeff' || c = '\u2060' || c = '\u200b'

/-- The property White_Space. -/
def isWhiteSpace (c : Char) : Bool :=
  isAsciiSpace c || isSpaceSeparator c || c = '\u0085' || c = '\u2028' || c = '\u2029'

/-- The general category Cc. -/
def isControl (c : Char) : Bool :=
  c < ' ' || ('\u007f' ≤ c && c ≤ '\u009f')

def isAsciiLetter (c : Char) : Bool :=
  ('a' ≤ c && c ≤ 'z') || ('A' ≤ c && c ≤ 'Z')

def isDigit (c : Char) : Bool :=
  '0' ≤ c && c ≤ '9'

def isAsciiNameStart (c : Char) : Bool :=
  isAsciiLetter c || c = '_' || c = '$'

def isAsciiNamePart (c : Char) : Bool :=
  isAsciiNameStart c || isDigit c

def isPunctuation (c : Char) : Bool :=
  ":;`\"'@#.,|^&<=>+-*/\\%?!~()[]\x7b\x7d".contains c

/-- Any character of a script that is no control, blank or punctuation may stand in a name. -/
def isNamePart (c : Char) : Bool :=
  ' ' ≤ c && !isBlank c && !isPunctuation c

def isNameStart (c : Char) : Bool :=
  isNamePart c && !isDigit c

/-- The value of a hexadecimal digit in either case. -/
def hexDigit? (c : Char) : Option Nat :=
  if isDigit c then some (c.toNat - '0'.toNat)
  else if 'a' ≤ c && c ≤ 'f' then some (c.toNat - 'a'.toNat + 10)
  else if 'A' ≤ c && c ≤ 'F' then some (c.toNat - 'A'.toNat + 10)
  else none

def isHexDigit (c : Char) : Bool :=
  (hexDigit? c).isSome

def isOctalDigit (c : Char) : Bool :=
  '0' ≤ c && c ≤ '7'

theorem isBlank_of_isAsciiSpace {c : Char} (h : isAsciiSpace c = true) : isBlank c = true := by
  simp [isBlank, h]

theorem isNamePart_of_isNameStart {c : Char} (h : isNameStart c = true) : isNamePart c = true := by
  simp [isNameStart] at h
  exact h.1

/-- Without the characters of White_Space at its start. -/
def trimStart (text : List Char) : List Char :=
  text.dropWhile isWhiteSpace

def trim (text : List Char) : List Char :=
  (trimStart (trimStart text).reverse).reverse

end SiteConfig.Text
