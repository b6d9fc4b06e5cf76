import DocWalk.Json.Basic

/-!
# Writing JSON

Documents are written without blanks. Characters outside the printable range
are escaped only where the grammar asks for it.
-/

namespace DocWalk.Json

/-- A hexadecimal digit, in lower case. -/
def hexDigit (n : Nat) : Char :=
  Nat.digitChar n

/-- The written form of one character inside a string. -/
def escapeChar (c : Char) : List Char :=
  if c = '"' then ['\\', '"']
  else if c = '\\' then ['\\', '\\']
  else if c = '\n' then ['\\', 'n']
  else if c = '\r' then ['\\', 'r']
  else if c = '\t' then ['\\', 't']
  else if c.toNat = 8 then ['\\', 'b']
  else if c.toNat = 12 then ['\\', 'f']
  else if c.toNat < 32 then ['\\', 'u', '0', '0', hexDigit (c.toNat / 16), hexDigit (c.toNat % 16)]
  else [c]

/-- A string; one that denotes no text is written as half of a surrogate pair. -/
def stringChars : Option String → List Char
  | some s => '"' :: (s.toList.flatMap escapeChar ++ ['"'])
  | none => ['"', '\\', 'u', 'd', '8', '0', '0', '"']

mutual

/-- The characters of a document. -/
def chars : Json → List Char
  | null => ['n', 'u', 'l', 'l']
  | bool true => ['t', 'r', 'u', 'e']
  | bool false => ['f', 'a', 'l', 's', 'e']
  | number n => n.chars
  | text s => stringChars s
  | array items => '[' :: itemChars items
  | object members => '{' :: memberChars members

/-- The items of an array and its closing bracket. -/
def itemChars : List Json → List Char
  | [] => [']']
  | j :: js => j.chars ++ furtherItemChars js

def furtherItemChars : List Json → List Char
  | [] => [']']
  | j :: js => ',' :: (j.chars ++ furtherItemChars js)

/-- The members of an object and its closing brace. -/
def memberChars : List (Option String × Json) → List Char
  | [] => ['}']
  | (k, j) :: ms => stringChars k ++ ':' :: (j.chars ++ furtherMemberChars ms)

def furtherMemberChars : List (Option String × Json) → List Char
  | [] => ['}']
  | (k, j) :: ms => ',' :: (stringChars k ++ ':' :: (j.chars ++ furtherMemberChars ms))

end

/-- The text of a document. -/
def write (j : Json) : String :=
  String.ofList j.chars

end DocWalk.Json
