import DocWalk.Toml.Document
import DocWalk.Toml.Scalar

/-!
# Reading TOML

Each function reads from the front of a list of characters and returns what is
left. Arrays and inline tables nest at most eighty deep, and a key has at most
eighty names.

## Implementation notes

The functions on values call each other at most a few times for each character
that they consume, which bounds their fuel.
-/

namespace DocWalk.Toml

/-- How deep arrays and inline tables may nest, and how many names a key may have. -/
def nestingLimit : Nat := 80

def isSpace (c : Char) : Bool :=
  c == ' ' || c == '\t'

def skipSpace (cs : List Char) : List Char :=
  cs.dropWhile isSpace

/-- Characters that a comment or a string may hold as they are. -/
def isPlain (c : Char) : Bool :=
  c == '\t' || (32 ≤ c.toNat && c.toNat != 127)

/-- The end of a line. -/
def newline? : List Char → Option (List Char)
  | '\n' :: rest => some rest
  | '\r' :: '\n' :: rest => some rest
  | _ => none

/-- Skip blanks, line ends and comments. -/
def skipLines (inComment : Bool) : List Char → Option (List Char)
  | [] => some []
  | '\n' :: rest => skipLines false rest
  | '\r' :: '\n' :: rest => skipLines false rest
  | c :: rest =>
      if inComment then (if isPlain c then skipLines true rest else none)
      else if isSpace c then skipLines false rest
      else if c == '#' then skipLines true rest
      else some (c :: rest)

/-- Skip a comment up to the end of its line. -/
def skipComment : List Char → Option (List Char)
  | [] => some []
  | '\n' :: rest => some ('\n' :: rest)
  | '\r' :: '\n' :: rest => some ('\n' :: rest)
  | c :: rest => if isPlain c then skipComment rest else none

/-- The rest of a line may hold blanks and a comment. -/
def endLine (cs : List Char) : Option (List Char) :=
  match skipSpace cs with
  | [] => some []
  | '#' :: rest => do
      match ← skipComment rest with
      | [] => some []
      | rest => newline? rest
  | rest => newline? rest

/-! ## Strings -/

/-- The character of a code. -/
def charOfCode? (ds : List Char) : Option Char :=
  if ds.all isHexDigit then
    let n := ofBase 16 ds
    if n < 0xD800 || (0xDFFF < n && n < 0x110000) then some (Char.ofNat n) else none
  else none

/-- The character of a short escape. -/
def shortEscape? : Char → Option Char
  | 'b' => some '\x08'
  | 't' => some '\t'
  | 'n' => some '\n'
  | 'f' => some '\x0c'
  | 'r' => some '\r'
  | 'e' => some '\x1b'
  | '"' => some '"'
  | '\\' => some '\\'
  | _ => none

/-- The number of digits that a long escape takes. -/
def escapeWidth? : Char → Option Nat
  | 'x' => some 2
  | 'u' => some 4
  | 'U' => some 8
  | _ => none

/-- The character of an escape, from behind its backslash, and the characters it takes. -/
def escape? : List Char → Option (Char × Nat)
  | [] => none
  | c :: rest =>
      match escapeWidth? c with
      | some n =>
          if (rest.take n).length = n then (charOfCode? (rest.take n)).map (·, n + 1) else none
      | none => (shortEscape? c).map (·, 1)

/-- The characters of a string in double quotes, from behind the opening one; `skip` characters
belong to an escape that has been read. -/
def readBasic (skip : Nat) : List Char → Option (List Char × List Char)
  | [] => none
  | c :: rest =>
      match skip with
      | skip + 1 => readBasic skip rest
      | 0 =>
          if c == '"' then some ([], rest)
          else if c == '\\' then do
            let (e, n) ← escape? rest
            let (cs, rest) ← readBasic n rest
            return (e :: cs, rest)
          else if isPlain c then do
            let (cs, rest) ← readBasic 0 rest
            return (c :: cs, rest)
          else none

/-- The characters of a string in single quotes, from behind the opening one. -/
def readLiteral : List Char → Option (List Char × List Char)
  | [] => none
  | c :: rest =>
      if c == '\x27' then some ([], rest)
      else if isPlain c then do
        let (cs, rest) ← readLiteral rest
        return (c :: cs, rest)
      else none

/-- Whether only blanks stand before the end of the line. -/
def lineEnds (cs : List Char) : Bool :=
  (newline? (skipSpace cs)).isSome

/-- What a reader of a string over several lines does with the next character. -/
inductive LineMode where
  | plain
  /-- Drop the characters of an escape that has been read. -/
  | skip (n : Nat)
  /-- Drop blanks and line ends after a backslash at the end of a line. -/
  | trim

/-- Whether a line end or a plain character stands at the front. -/
def isLineChar (c : Char) (rest : List Char) : Bool :=
  isPlain c || c == '\n' || (c == '\r' && rest.head? == some '\n')

/-- The end of a string over several lines: three quotes, after at most two that belong to it. -/
def closing? (quote : Char) (cs : List Char) : Option (List Char × List Char) :=
  let quotes := (cs.takeWhile (· == quote)).length
  if 5 ≤ quotes then some ([quote, quote], cs.drop 5)
  else if quotes = 4 then some ([quote], cs.drop 4)
  else if quotes = 3 then some ([], cs.drop 3)
  else none

/-- The characters of a string over several lines in double quotes. -/
def readLongBasic (mode : LineMode) : List Char → Option (List Char × List Char)
  | [] => none
  | c :: rest =>
      match mode with
      | .skip (n + 1) => readLongBasic (if n = 0 then .plain else .skip n) rest
      | mode =>
          let trimmed := match mode with
            | .trim => isSpace c || c == '\n' || (c == '\r' && rest.head? == some '\n')
            | _ => false
          if trimmed then readLongBasic .trim rest
          else
            match closing? '"' (c :: rest) with
            | some result => some result
            | none =>
                if c == '\\' then
                  if lineEnds rest then readLongBasic .trim rest
                  else do
                    let (e, n) ← escape? rest
                    let (cs, rest) ← readLongBasic (.skip n) rest
                    return (e :: cs, rest)
                else if isLineChar c rest then do
                  let (cs, rest) ← readLongBasic .plain rest
                  return (c :: cs, rest)
                else none

/-- The characters of a string over several lines in single quotes. -/
def readLongLiteral : List Char → Option (List Char × List Char)
  | [] => none
  | c :: rest =>
      match closing? '\x27' (c :: rest) with
      | some result => some result
      | none =>
          if isLineChar c rest then do
            let (cs, rest) ← readLongLiteral rest
            return (c :: cs, rest)
          else none

/-- A line end right behind the opening quotes does not belong to the string. -/
def dropNewline (cs : List Char) : List Char :=
  (newline? cs).getD cs

/-- A string on one line. -/
def readShortString : List Char → Option (List Char × List Char)
  | '"' :: rest => readBasic 0 rest
  | '\x27' :: rest => readLiteral rest
  | _ => none

/-- A string in any of its forms. -/
def readString : List Char → Option (List Char × List Char)
  | '"' :: '"' :: '"' :: rest => readLongBasic .plain (dropNewline rest)
  | '\x27' :: '\x27' :: '\x27' :: rest => readLongLiteral (dropNewline rest)
  | cs => readShortString cs

/-! ## Keys -/

def isBareKeyChar (c : Char) : Bool :=
  c.isAlphanum || c == '_' || c == '-'

/-- One name of a key. -/
def readName (cs : List Char) : Option (String × List Char) :=
  match cs.takeWhile isBareKeyChar with
  | [] =>
      match cs with
      | '"' :: '"' :: '"' :: _ => none
      | '\x27' :: '\x27' :: '\x27' :: _ => none
      | cs => (readShortString cs).map fun (s, rest) => (String.ofList s, rest)
  | name => some (String.ofList name, cs.dropWhile isBareKeyChar)

/-- Names with dots between them: those before the last one, and the last one. -/
def readNames : Nat → List Char → Option (List String × String × List Char)
  | 0, _ => none
  | fuel + 1, cs => do
      let (name, rest) ← readName cs
      match skipSpace rest with
      | '.' :: rest =>
          let (before, key, rest) ← readNames fuel (skipSpace rest)
          return (name :: before, key, rest)
      | rest => return ([], name, rest)

/-- A key, with the blanks behind it. -/
def readKey (fuel : Nat) (cs : List Char) : Option (List String × String × List Char) := do
  let (before, key, rest) ← readNames fuel cs
  if before.length < nestingLimit then some (before, key, rest) else none

/-! ## Values -/

/-- The characters that a scalar can be made of: all but those that something else begins with. -/
def isScalarChar (c : Char) : Bool :=
  !(['=', ',', '[', ']', '{', '}', ' ', '\t', '#', '\r', '\n', '"', '\x27'].contains c)

/-- Whether a time of day stands at the front. -/
def timeFollows : List Char → Bool
  | a :: b :: ':' :: _ => a.isDigit && b.isDigit
  | _ => false

/-- A scalar. A blank can stand between a date and a time of day. -/
def readScalar (cs : List Char) : Option (Toml × List Char) :=
  let run := cs.takeWhile isScalarChar
  let rest := cs.dropWhile isScalarChar
  match afterDate? run, rest with
  | some [], ' ' :: time =>
      if timeFollows time then
        let more := time.takeWhile isScalarChar
        (scalar? (run ++ ' ' :: more)).map fun v => (v, time.dropWhile isScalarChar)
      else (scalar? run).map fun v => (v, rest)
  | _, _ => (scalar? run).map fun v => (v, rest)

mutual

/-- A value, inside at most `depth` more arrays and inline tables. -/
def readValue : Nat → Nat → List Char → Option (Toml × List Char)
  | 0, _, _ => none
  | fuel + 1, depth, cs =>
      match cs with
      | '[' :: rest =>
          match depth with
          | 0 => none
          | depth + 1 => (readItems fuel depth rest).map fun (vs, rest) => (array vs, rest)
      | '{' :: rest =>
          match depth with
          | 0 => none
          | depth + 1 => do
              let (assignments, rest) ← readAssignments fuel depth rest
              return (← inlineTable? assignments, rest)
      | cs =>
          match readString cs with
          | some (s, rest) => some (text (String.ofList s), rest)
          | none => readScalar cs

/-- The items of an array and its closing bracket. -/
def readItems : Nat → Nat → List Char → Option (List Toml × List Char)
  | 0, _, _ => none
  | fuel + 1, depth, cs => do
      match ← skipLines false cs with
      | ']' :: rest => return ([], rest)
      | cs =>
          let (v, rest) ← readValue fuel depth cs
          match ← skipLines false rest with
          | ']' :: rest => return ([v], rest)
          | ',' :: rest =>
              let (vs, rest) ← readItems fuel depth rest
              return (v :: vs, rest)
          | _ => none

/-- The assignments of an inline table and its closing brace. Lines may end anywhere but inside
a key. -/
def readAssignments :
    Nat → Nat → List Char → Option (List (List String × String × Toml) × List Char)
  | 0, _, _ => none
  | fuel + 1, depth, cs => do
      match ← skipLines false cs with
      | '}' :: rest => return ([], rest)
      | cs =>
          let (before, key, rest) ← readKey fuel cs
          match ← skipLines false rest with
          | '=' :: rest =>
              let (v, rest) ← readValue fuel depth (← skipLines false rest)
              match ← skipLines false rest with
              | '}' :: rest => return ([(before, key, v)], rest)
              | ',' :: rest =>
                  let (assignments, rest) ← readAssignments fuel depth rest
                  return ((before, key, v) :: assignments, rest)
              | _ => none
          | _ => none

end

/-! ## Documents -/

/-- A key of a header, with the blanks around it. -/
def readHeaderKey (fuel : Nat) (cs : List Char) : Option (List String × List Char) := do
  let (before, key, rest) ← readKey fuel (skipSpace cs)
  return (before ++ [key], rest)

/-- A statement, from its first character to the end of its line. -/
def readStatement (fuel : Nat) (cs : List Char) : Option (Statement × List Char) :=
  match cs with
  | '[' :: '[' :: rest => do
      let (path, rest) ← readHeaderKey fuel rest
      match rest with
      | ']' :: ']' :: rest => return (.arrayHeader path, ← endLine rest)
      | _ => none
  | '[' :: rest => do
      let (path, rest) ← readHeaderKey fuel rest
      match rest with
      | ']' :: rest => return (.header path, ← endLine rest)
      | _ => none
  | cs => do
      let (before, key, rest) ← readKey fuel cs
      match rest with
      | '=' :: rest =>
          let (v, rest) ← readValue fuel nestingLimit (skipSpace rest)
          return (.assign before key v, ← endLine rest)
      | _ => none

/-- The statements of a document. -/
def readStatements : Nat → List Char → Option (List Statement)
  | 0, _ => none
  | fuel + 1, cs => do
      match ← skipLines false cs with
      | [] => return []
      | cs =>
          let (s, rest) ← readStatement (fuel + 1) cs
          let statements ← readStatements fuel rest
          return s :: statements

/-- A mark at the front that tells the byte order. -/
def dropMark : List Char → List Char
  | '\ufeff' :: rest => rest
  | cs => cs

/-- The table that a text writes. -/
def parse? (s : String) : Option Toml := do
  let cs := dropMark s.toList
  assemble? (← readStatements (2 * cs.length + 2) cs)

end DocWalk.Toml
