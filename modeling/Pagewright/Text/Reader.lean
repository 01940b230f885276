/-! Reading from the front of a text. A reader gives what it found and what remains, or nothing
where the text is not of its form. -/

namespace Pagewright.Text

abbrev Reader := StateT (List Char) Option

namespace Reader

def next (accept : Char → Bool) : Reader Char
  | c :: rest => if accept c then some (c, rest) else none
  | [] => none

/-- The next character, without taking it. -/
def peek : Reader (Option Char) := fun text => some (text.head?, text)

def atEnd : Reader Bool := fun text => some (text.isEmpty, text)

def span (accept : Char → Bool) : Reader (List Char) := fun text =>
  some (text.takeWhile accept, text.dropWhile accept)

/-- At least one character of a kind. -/
def span1 (accept : Char → Bool) : Reader (List Char) := do
  let found ← span accept
  guard !found.isEmpty
  return found

def literal (expected : String) : Reader Unit := fun text =>
  if expected.toList.isPrefixOf text then some ((), text.drop expected.length) else none

/-- A number of characters of a kind. -/
def exactly (accept : Char → Bool) : Nat → Reader (List Char)
  | 0 => return []
  | n + 1 => do
    let first ← next accept
    return first :: (← exactly accept n)

def optional (reader : Reader α) : Reader (Option α) :=
  (some <$> reader) <|> return none

end Reader

end Pagewright.Text
