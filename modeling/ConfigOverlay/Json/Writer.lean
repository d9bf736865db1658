import ConfigOverlay.Tree.Basic

/-!
# Writing JSON

The compact JSON text of a tree: no blanks, fields in their order, atoms as their content. A quote,
a backslash and the control characters below the blank are escaped, every other character stands
for itself. The annotated text differs only in a mark before the content of every atom.
-/

namespace ConfigOverlay.Json

/-- A hexadecimal digit in lower case. -/
def hexDigit (n : Nat) : Char := Nat.digitChar n

/-- The text of one character inside quotes. -/
def escape (c : Char) : List Char :=
  if c = '"' then ['\\', '"']
  else if c = '\\' then ['\\', '\\']
  else if c = '\n' then ['\\', 'n']
  else if c = '\r' then ['\\', 'r']
  else if c = '\t' then ['\\', 't']
  else if c = '\x08' then ['\\', 'b']
  else if c = '\x0c' then ['\\', 'f']
  else if c.toNat < 0x20 then
    ['\\', 'u', '0', '0', hexDigit (c.toNat / 16), hexDigit (c.toNat % 16)]
  else [c]

/-- A string between quotes. -/
def quote (s : String) : List Char := '"' :: s.toList.flatMap escape ++ ['"']

mutual

/-- The text of a tree, with a mark before the content of every atom. -/
def write (mark : List Char) : Tree → List Char
  | .null => ['n', 'u', 'l', 'l']
  | .bool true => ['t', 'r', 'u', 'e']
  | .bool false => ['f', 'a', 'l', 's', 'e']
  | .number n => n.text
  | .text s => quote s
  | .array xs => '[' :: writeItems mark xs ++ [']']
  | .object fs => '{' :: writeFields mark fs ++ ['}']
  | .atom t => mark ++ write mark t

def writeItems (mark : List Char) : List Tree → List Char
  | [] => []
  | x :: xs =>
    write mark x ++ (match xs with
      | [] => []
      | _ :: _ => ',' :: writeItems mark xs)

def writeFields (mark : List Char) : List (String × Tree) → List Char
  | [] => []
  | (k, x) :: fs =>
    quote k ++ ':' :: write mark x ++ (match fs with
      | [] => []
      | _ :: _ => ',' :: writeFields mark fs)

end

end Json

/-- The JSON text of a tree. -/
def Tree.toJson (t : Tree) : String := String.ofList (Json.write [] t)

/-- The JSON text of a tree with `@` before the content of every atom. -/
def Tree.annotated (t : Tree) : String := String.ofList (Json.write ['@'] t)

end ConfigOverlay
