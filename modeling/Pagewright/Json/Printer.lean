import Pagewright.Json.Value

/-! The text of a JSON value, on one line or with a line for each item and member. Characters
that a string may hold as they are stay as they are. -/

namespace Pagewright.Json

inductive Layout where
  | compact
  | indented

def Layout.line (level : Nat) : Layout → List Char
  | .compact => []
  | .indented => '\n' :: List.replicate (2 * level) ' '

def Layout.afterKey : Layout → List Char
  | .compact => [':']
  | .indented => [':', ' ']

def hexDigit (n : Nat) : Char := (Nat.digitChar n)

def escape (c : Char) : List Char :=
  if c = '"' then ['\\', '"']
  else if c = '\\' then ['\\', '\\']
  else if c = '\x08' then ['\\', 'b']
  else if c = '\x0c' then ['\\', 'f']
  else if c = '\n' then ['\\', 'n']
  else if c = '\r' then ['\\', 'r']
  else if c = '\t' then ['\\', 't']
  else if c.toNat < 0x20 then
    ['\\', 'u', '0', '0', hexDigit (c.toNat / 16), hexDigit (c.toNat % 16)]
  else [c]

def quote (text : String) : List Char :=
  '"' :: text.toList.flatMap escape ++ ['"']

mutual

/-- The text of a value that stands at a level of nesting. -/
def Value.write (layout : Layout) (level : Nat) : Value → List Char
  | .null => ['n', 'u', 'l', 'l']
  | .bool true => ['t', 'r', 'u', 'e']
  | .bool false => ['f', 'a', 'l', 's', 'e']
  | .number value => value.write
  | .string text => quote text
  | .array [] => ['[', ']']
  | .array (item :: rest) =>
    '[' :: layout.line (level + 1) ++ item.write layout (level + 1) ++
      writeItems layout (level + 1) rest ++ layout.line level ++ [']']
  | .object [] => ['{', '}']
  | .object ((key, value) :: rest) =>
    '{' :: layout.line (level + 1) ++ quote key ++ layout.afterKey ++
      value.write layout (level + 1) ++ writeMembers layout (level + 1) rest ++
      layout.line level ++ ['}']

/-- The items after the first one. -/
def writeItems (layout : Layout) (level : Nat) : List Value → List Char
  | [] => []
  | item :: rest =>
    ',' :: layout.line level ++ item.write layout level ++ writeItems layout level rest

def writeMembers (layout : Layout) (level : Nat) : List (String × Value) → List Char
  | [] => []
  | (key, value) :: rest =>
    ',' :: layout.line level ++ quote key ++ layout.afterKey ++ value.write layout level ++
      writeMembers layout level rest

end

def Value.print (layout : Layout) (value : Value) : String :=
  String.ofList (value.write layout 0)

end Pagewright.Json
