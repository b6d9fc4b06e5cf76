import DocWalk.Json.Basic

/-!
# Reading JSON

The strict grammar: blanks only between tokens, no trailing comma, no leading
zero, no raw control character in a string, and nothing after the document.

## Implementation notes

Each function reads from the front of a list of characters and returns what is
left. The functions on values call each other at most twice for each character
that they consume, which bounds their fuel.
-/

namespace DocWalk.Json

/-- The blanks of the grammar. -/
def isBlank (c : Char) : Bool :=
  c == ' ' || c == '\n' || c == '\r' || c == '\t'

def skipBlank (cs : List Char) : List Char :=
  cs.dropWhile isBlank

/-- The value of a hexadecimal digit. -/
def hexValue? (c : Char) : Option Nat :=
  if '0' ≤ c && c ≤ '9' then some (c.toNat - 48)
  else if 'a' ≤ c && c ≤ 'f' then some (c.toNat - 87)
  else if 'A' ≤ c && c ≤ 'F' then some (c.toNat - 55)
  else none

/-- The code that four hexadecimal digits name. -/
def hexCode? (a b c d : Char) : Option Nat := do
  return (((← hexValue? a) * 16 + (← hexValue? b)) * 16 + (← hexValue? c)) * 16 + (← hexValue? d)

/-- A part of a string: a character, or half of a surrogate pair. -/
inductive TextUnit where
  | char (c : Char)
  | half (code : Nat)
deriving DecidableEq, Repr

/-- The unit with a 16-bit code. -/
def TextUnit.ofCode (n : Nat) : TextUnit :=
  if 0xD800 ≤ n && n ≤ 0xDFFF then half n else char (Char.ofNat n)

/-- The character that a short escape stands for. -/
def shortEscape? : Char → Option Char
  | '"' => some '"'
  | '\\' => some '\\'
  | '/' => some '/'
  | 'b' => some '\x08'
  | 'f' => some '\x0c'
  | 'n' => some '\n'
  | 'r' => some '\r'
  | 't' => some '\t'
  | _ => none

/-- The units of a string, read from behind its opening quote. -/
def readUnits : List Char → Option (List TextUnit × List Char)
  | [] => none
  | '"' :: rest => some ([], rest)
  | '\\' :: 'u' :: a :: b :: c :: d :: rest => do
      let n ← hexCode? a b c d
      let (us, rest) ← readUnits rest
      return (.ofCode n :: us, rest)
  | '\\' :: e :: rest => do
      let c ← shortEscape? e
      let (us, rest) ← readUnits rest
      return (.char c :: us, rest)
  | c :: rest =>
      if c.toNat < 32 then none
      else do
        let (us, rest) ← readUnits rest
        return (.char c :: us, rest)

/-- The characters that units denote, the halves of a pair being put together. -/
def joinUnits? : List TextUnit → Option (List Char)
  | [] => some []
  | .char c :: us => (joinUnits? us).map (c :: ·)
  | .half h :: .half l :: us =>
      if h < 0xDC00 && 0xDC00 ≤ l then
        (joinUnits? us).map (Char.ofNat (0x10000 + (h - 0xD800) * 0x400 + (l - 0xDC00)) :: ·)
      else none
  | .half _ :: _ => none

/-- A string, read from behind its opening quote. -/
def readString (cs : List Char) : Option (Option String × List Char) := do
  let (us, rest) ← readUnits cs
  return ((joinUnits? us).map String.ofList, rest)

/-- Digits from the front, at least one. -/
def readDigits (cs : List Char) : Option (List Char × List Char) :=
  match cs.takeWhile Char.isDigit with
  | [] => none
  | ds => some (ds, cs.dropWhile Char.isDigit)

/-- A whole number without leading zeros. -/
def readWhole (cs : List Char) : Option (Nat × List Char) := do
  let (ds, rest) ← readDigits cs
  match ds with
  | '0' :: _ :: _ => none
  | ds => return (Nat.ofDigitChars 10 ds 0, rest)

/-- The digits after a point, if there is one. -/
def readFraction : List Char → Option (List (Fin 10) × List Char)
  | '.' :: rest => do
      let (ds, rest) ← readDigits rest
      return (ds.map fun c => Numeral.lastDigit (c.toNat - 48), rest)
  | cs => some ([], cs)

/-- The sign and the digits of an exponent, read from behind its mark. -/
def readExponentValue (cs : List Char) : Option (Int × List Char) :=
  match cs with
  | '-' :: rest => (readDigits rest).map fun (ds, rest) => (-(Nat.ofDigitChars 10 ds 0 : Int), rest)
  | '+' :: rest => (readDigits rest).map fun (ds, rest) => ((Nat.ofDigitChars 10 ds 0 : Int), rest)
  | cs => (readDigits cs).map fun (ds, rest) => ((Nat.ofDigitChars 10 ds 0 : Int), rest)

/-- An exponent, if there is one. -/
def readExponent (cs : List Char) : Option (Option Int × List Char) :=
  match cs with
  | 'e' :: rest => (readExponentValue rest).map fun (e, rest) => (some e, rest)
  | 'E' :: rest => (readExponentValue rest).map fun (e, rest) => (some e, rest)
  | cs => some (none, cs)

/-- A number without its sign. -/
def readUnsigned (negative : Bool) (cs : List Char) : Option (Numeral × List Char) := do
  let (whole, rest) ← readWhole cs
  let (fraction, rest) ← readFraction rest
  let (exponent, rest) ← readExponent rest
  return (
    { negative := negative, whole := whole, fraction := fraction, exponent := exponent }, rest)

/-- A number. -/
def readNumeral (cs : List Char) : Option (Numeral × List Char) :=
  match cs with
  | '-' :: rest => readUnsigned true rest
  | cs => readUnsigned false cs

mutual

/-- A document, after any blanks. -/
def readValue : Nat → List Char → Option (Json × List Char)
  | 0, _ => none
  | fuel + 1, cs =>
      match skipBlank cs with
      | 'n' :: 'u' :: 'l' :: 'l' :: rest => some (null, rest)
      | 't' :: 'r' :: 'u' :: 'e' :: rest => some (bool true, rest)
      | 'f' :: 'a' :: 'l' :: 's' :: 'e' :: rest => some (bool false, rest)
      | '"' :: rest => (readString rest).map fun (s, rest) => (text s, rest)
      | '[' :: rest =>
          match skipBlank rest with
          | ']' :: rest => some (array [], rest)
          | rest => (readItems fuel rest).map fun (js, rest) => (array js, rest)
      | '{' :: rest =>
          match skipBlank rest with
          | '}' :: rest => some (object [], rest)
          | rest => (readMembers fuel rest).map fun (ms, rest) => (object ms, rest)
      | cs => (readNumeral cs).map fun (n, rest) => (number n, rest)

/-- The items of an array, at least one, and its closing bracket. -/
def readItems : Nat → List Char → Option (List Json × List Char)
  | 0, _ => none
  | fuel + 1, cs => do
      let (j, rest) ← readValue fuel cs
      match skipBlank rest with
      | ']' :: rest => return ([j], rest)
      | ',' :: rest =>
          let (js, rest) ← readItems fuel rest
          return (j :: js, rest)
      | _ => none

/-- The members of an object, at least one, and its closing brace. -/
def readMembers : Nat → List Char → Option (List (Option String × Json) × List Char)
  | 0, _ => none
  | fuel + 1, cs =>
      match skipBlank cs with
      | '"' :: rest => do
          let (k, rest) ← readString rest
          match skipBlank rest with
          | ':' :: rest =>
              let (j, rest) ← readValue fuel rest
              match skipBlank rest with
              | '}' :: rest => return ([(k, j)], rest)
              | ',' :: rest =>
                  let (ms, rest) ← readMembers fuel rest
                  return ((k, j) :: ms, rest)
              | _ => none
          | _ => none
      | _ => none

end

/-- The document that a text writes. -/
def parse? (s : String) : Option Json := do
  let cs := s.toList
  let (j, rest) ← readValue (2 * cs.length + 2) cs
  if (skipBlank rest).isEmpty then some j else none

end DocWalk.Json
