/-!
# Quoted text

Text that comes from outside a query is written inside it between quotes. A
backslash form replaces each character that could end the literal early or
break the line it stands on, so a literal never reaches past its own closing
quote and never spans two lines.

## Implementation notes

Both kinds of quote are escaped whichever kind encloses the text. One escape
function therefore serves every place where text is quoted.
-/

namespace DocWalk.Text

/-- The written form of one character inside a quoted literal. -/
def escapeChar : Char → List Char
  | '\\' => ['\\', '\\']
  | '\x27' => ['\\', '\x27']
  | '"' => ['\\', '"']
  | '\n' => ['\\', 'n']
  | '\r' => ['\\', 'r']
  | '\t' => ['\\', 't']
  | c => [c]

/-- Text as it stands between the quotes of a literal. -/
def escape (s : String) : String :=
  String.ofList (s.toList.flatMap escapeChar)

/-- A literal enclosed in double quotes. -/
def inDouble (s : String) : String :=
  "\"" ++ escape s ++ "\""

/-- A literal enclosed in single quotes. -/
def inSingle (s : String) : String :=
  "\x27" ++ escape s ++ "\x27"

/-- Names start with an ASCII letter or an underscore. -/
def isNameStart (c : Char) : Bool :=
  c.isAlpha || c == '_'

/-- Names go on with ASCII letters, digits and underscores. -/
def isNameRest (c : Char) : Bool :=
  c.isAlphanum || c == '_'

/-- Whether a property name can be written after a dot, without brackets. -/
def isName (s : String) : Bool :=
  match s.toList with
  | [] => false
  | c :: rest => isNameStart c && rest.all isNameRest

end DocWalk.Text
