import Pagewright.Text.Reader

/-! Lines of a settings file: blanks, comments and line ends. -/

namespace Pagewright.Toml

open Text (Reader)

def isBlankOrTab (c : Char) : Bool := c = ' ' || c = '\t'

def skipBlanks : Reader Unit := discard (Reader.span isBlankOrTab)

/-- A character that may stand in a comment, or in a text between single quotes. -/
def isPrintable (c : Char) : Bool := c = '\t' || (0x20 ≤ c.toNat && c.toNat ≠ 0x7F)

def newline : Reader Unit := Reader.literal "\n" <|> Reader.literal "\r\n"

/-- Skips blanks, line ends and comments. -/
def skipLinesFrom (comment : Bool) : List Char → Option (List Char)
  | [] => some []
  | '\n' :: rest => skipLinesFrom false rest
  | '\r' :: '\n' :: rest => skipLinesFrom false rest
  | c :: rest =>
    if comment then if isPrintable c then skipLinesFrom true rest else none
    else if isBlankOrTab c then skipLinesFrom false rest
    else if c = '#' then skipLinesFrom true rest
    else some (c :: rest)

def skipLines : Reader Unit := fun text => (skipLinesFrom false text).map fun rest => ((), rest)

/-- What may follow on a line: blanks, a comment, and the end of the line or of the text. -/
def endOfLine : Reader Unit := do
  skipBlanks
  if (← Reader.peek) = some '#' then discard (Reader.span isPrintable)
  newline <|> do guard (← Reader.atEnd)

end Pagewright.Toml
