/-!
# Writing TOML

Strings and lists as they are written in a document. A string is written in
the plainest form that can hold it: in double quotes if nothing in it has to
be escaped, else in single quotes, else over several lines, and with escapes
only when no other form will do.
-/

namespace DocWalk.Toml

/-- Characters that only an escape can write. -/
def needsEscape (c : Char) : Bool :=
  (c.toNat < 32 && c != '\t' && c != '\n') || c.toNat == 127

/-- The longest run of a character. -/
def longestRun (c : Char) (cs : List Char) : Nat :=
  go 0 0 cs
where
  go (current longest : Nat) : List Char → Nat
    | [] => longest
    | d :: rest =>
        let current := if d == c then current + 1 else 0
        go current (max longest current) rest

/-- The forms of a string. -/
inductive Form where
  | basic
  | literal
  | longBasic
  | longLiteral
deriving DecidableEq, Repr

/-- The plainest form that can hold a string. -/
def formOf (cs : List Char) : Form :=
  let control := cs.any needsEscape
  let backslash := cs.contains '\\'
  let newline := cs.contains '\n'
  let double := longestRun '"' cs
  let single := longestRun '\x27' cs
  if !control && !backslash && double = 0 && !newline then .basic
  else if !control && single = 0 && !newline then .literal
  else if !control && !backslash && double ≤ 2 then .longBasic
  else if !control && single ≤ 2 then .longLiteral
  else if newline then .longBasic
  else .basic

/-- A code of four hexadecimal digits, in upper case. -/
def hexCode (n : Nat) : List Char :=
  let digits := (Nat.toDigits 16 n).map Char.toUpper
  ['\\', 'u'] ++ List.replicate (4 - digits.length) '0' ++ digits

/-- The characters of a string with escapes. At most `quotes` double quotes in a row stand for
themselves, and line ends do if the string goes over several lines; `seen` counts the double
quotes right before. -/
def escaped (long : Bool) (quotes seen : Nat) : List Char → List Char
  | [] => []
  | c :: rest =>
      if c == '"' then
        if seen < quotes then '"' :: escaped long quotes (seen + 1) rest
        else '\\' :: '"' :: escaped long quotes 0 rest
      else
        let written :=
          if c == '\\' then ['\\', '\\']
          else if c == '\t' then ['\\', 't']
          else if c == '\n' then (if long then ['\n'] else ['\\', 'n'])
          else if c == '\r' then ['\\', 'r']
          else if c.toNat == 8 then ['\\', 'b']
          else if c.toNat == 12 then ['\\', 'f']
          else if needsEscape c then hexCode c.toNat
          else [c]
        written ++ escaped long quotes 0 rest

/-- A string, in the plainest form that can hold it. -/
def writeString (s : String) : String :=
  let cs := s.toList
  let start := if cs.contains '\n' then "\n" else ""
  match formOf cs with
  | .basic => "\"" ++ String.ofList (escaped false 0 0 cs) ++ "\""
  | .literal => "\x27" ++ s ++ "\x27"
  | .longBasic => "\"\"\"" ++ start ++ String.ofList (escaped true 2 0 cs) ++ "\"\"\""
  | .longLiteral => "\x27\x27\x27" ++ start ++ s ++ "\x27\x27\x27"

/-- A list of strings: on one line if it has at most one item, else one item on a line. -/
def writeStrings : List String → String
  | [] => "[]"
  | [s] => "[" ++ writeString s ++ "]"
  | ss => "[\n" ++ String.join (ss.map fun s => "    " ++ writeString s ++ ",\n") ++ "]"

end DocWalk.Toml
