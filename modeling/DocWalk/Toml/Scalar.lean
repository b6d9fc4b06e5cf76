import DocWalk.Toml.Basic

/-!
# TOML scalars

Numbers, truth values and moments. A scalar is told from its characters alone,
once the run of characters that it is made of has been found.

## Implementation notes

What kind of number a run is, and where its underscores stand, is checked at
once. That it has a value is not: a number can be too large, and an integer in
base ten can have other digits behind an underscore.
-/

namespace DocWalk.Toml

/-- The runs of characters between underscores. -/
def runs : List Char → List (List Char)
  | [] => [[]]
  | c :: cs =>
      if c == '_' then [] :: runs cs
      else
        match runs cs with
        | r :: rs => (c :: r) :: rs
        | [] => [[c]]

/-- Each underscore has a digit on both sides. A single character in front of the first one may
also be a sign. -/
def isGrouped (isDigit : Char → Bool) : List (List Char) → Bool
  | left :: right :: rest =>
      left.getLast?.any (fun c => left.length == 1 || isDigit c) && right.head?.any isDigit &&
        isGrouped isDigit (right :: rest)
  | _ => true

/-- The characters without the underscores between their digits. -/
def ungroup? (isDigit : Char → Bool) (cs : List Char) : Option (List Char) :=
  if isGrouped isDigit (runs cs) then some (runs cs).flatten else none

/-- A sign, and what follows it. -/
def splitSign : List Char → Bool × List Char
  | '-' :: rest => (true, rest)
  | '+' :: rest => (false, rest)
  | cs => (false, cs)

def hexDigitValue (c : Char) : Nat :=
  if c.isDigit then c.toNat - 48
  else if 'a' ≤ c && c ≤ 'f' then c.toNat - 87
  else c.toNat - 55

def isHexDigit (c : Char) : Bool :=
  c.isDigit || ('a' ≤ c && c ≤ 'f') || ('A' ≤ c && c ≤ 'F')

def isOctalDigit (c : Char) : Bool :=
  '0' ≤ c && c ≤ '7'

def isBinaryDigit (c : Char) : Bool :=
  c == '0' || c == '1'

/-- The number that digits write in a base. -/
def ofBase (base : Nat) (ds : List Char) : Nat :=
  ds.foldl (fun n c => n * base + hexDigitValue c) 0

/-- An integer of at most 128 bits, signed or unsigned. -/
def ofInteger (n : Int) : Toml :=
  if -(Nat.pow 2 127 : Int) ≤ n && n < (Nat.pow 2 128 : Int) then integer n else unreadable

/-- The integer that digits write in a base other than ten. -/
def based? (base : Nat) (isDigit : Char → Bool) (ds : List Char) : Option Toml :=
  if ds.all fun c => isDigit c || c == '_' then
    (ungroup? isDigit ds).map fun
      | [] => unreadable
      | ds => ofInteger (ofBase base ds)
  else none

/-- The characters that only a number with a fraction or an exponent has. -/
def isDecimalMark (c : Char) : Bool :=
  c == '.' || c == 'e' || c == 'E'

/-- Whether characters behind a sign are taken for an integer in base ten. Once there is an
underscore, what follows is looked at only when the value is asked for. -/
def looksWhole (cs : List Char) : Bool :=
  match cs.dropWhile Char.isDigit with
  | [] => cs == ['0'] || (!cs.isEmpty && cs.head? != some '0')
  | '_' :: rest => cs.head? != some '0' && !rest.any isDecimalMark
  | _ => false

/-- An integer in base ten. -/
def whole? (cs : List Char) : Option Toml :=
  if looksWhole (splitSign cs).2 then
    (ungroup? isHexDigit cs).map fun cs =>
      let (negative, ds) := splitSign cs
      if ds.all Char.isDigit then
        let n : Int := Nat.ofDigitChars 10 ds 0
        ofInteger (if negative then -n else n)
      else unreadable
  else none

/-- An integer, in base ten with a sign or in another base without one. -/
def integer? : List Char → Option Toml
  | '0' :: 'x' :: ds => based? 16 isHexDigit ds
  | '0' :: 'o' :: ds => based? 8 isOctalDigit ds
  | '0' :: 'b' :: ds => based? 2 isBinaryDigit ds
  | cs => whole? cs

/-- The digits at the front, underscores among them left out, and what follows. -/
def leadingDigits (cs : List Char) : List Char × List Char :=
  let inRun := fun (c : Char) => c.isDigit || c == '_'
  ((cs.takeWhile inRun).filter Char.isDigit, cs.dropWhile inRun)

/-- The digits behind a point at the front, if there is one, and what follows. -/
def fraction? : List Char → Option (List Char × List Char)
  | '.' :: rest =>
      match leadingDigits rest with
      | ([], _) => none
      | result => some result
  | cs => some ([], cs)

/-- The exponent at the front, if there is one, and what follows. -/
def exponent? : List Char → Option (Int × List Char)
  | c :: rest =>
      if c == 'e' || c == 'E' then
        let (negative, rest) := splitSign rest
        match leadingDigits rest with
        | ([], _) => none
        | (ds, rest) =>
            let n : Int := Nat.ofDigitChars 10 ds 0
            some (if negative then -n else n, rest)
      else some (0, c :: rest)
  | [] => some (0, [])

/-- The number nearest to a decimal. Decimals far outside the range are not computed. -/
def nearest (negative : Bool) (d : Decimal) : Binary64 :=
  let top := d.exponent + d.width
  if d.digits = 0 || top < -400 then .ofMagnitude negative 0
  else if 400 < top then Binary64.infinity negative
  else .nearest negative (d.digits * Nat.pow 10 d.exponent.toNat) (Nat.pow 10 (-d.exponent).toNat)

/-- A number with a fraction or an exponent. -/
def decimal? (cs : List Char) : Option Toml := do
  let (negative, unsigned) := splitSign cs
  let (whole, rest) := leadingDigits unsigned
  let (fraction, afterFraction) ← fraction? rest
  let (exponent, afterExponent) ← exponent? afterFraction
  let leadingZero := 1 < whole.length && unsigned.head? == some '0'
  if whole.isEmpty || leadingZero || rest.isEmpty || !afterExponent.isEmpty then none
  else
    let _ ← ungroup? Char.isDigit cs
    let digits := Nat.ofDigitChars 10 (whole ++ fraction) 0
    let x := nearest negative ⟨digits, exponent - fraction.length⟩
    return if x.isInfinite then unreadable else float x

/-- The numbers that are written with a word. -/
def special? (cs : List Char) : Option Toml :=
  let (negative, rest) := splitSign cs
  match rest with
  | ['i', 'n', 'f'] => some (float (Binary64.infinity negative))
  | ['n', 'a', 'n'] => some (float (Binary64.nan negative))
  | _ => none

/-! ## Moments -/

/-- A number of exactly `n` digits, and what follows it. -/
def fixedDigits? (n : Nat) (cs : List Char) : Option (Nat × List Char) :=
  let ds := cs.take n
  if ds.length = n && ds.all Char.isDigit then some (Nat.ofDigitChars 10 ds 0, cs.drop n) else none

def expect? (c : Char) : List Char → Option (List Char)
  | d :: rest => if c = d then some rest else none
  | [] => none

def daysInMonth (year month : Nat) : Nat :=
  if month = 2 then
    if year % 4 = 0 && (year % 100 != 0 || year % 400 = 0) then 29 else 28
  else if month = 4 || month = 6 || month = 9 || month = 11 then 30
  else 31

/-- What follows a date at the front. -/
def afterDate? (cs : List Char) : Option (List Char) := do
  let (year, rest) ← fixedDigits? 4 cs
  let rest ← expect? '-' rest
  let (month, rest) ← fixedDigits? 2 rest
  let rest ← expect? '-' rest
  let (day, rest) ← fixedDigits? 2 rest
  if 1 ≤ month && month ≤ 12 && 1 ≤ day && day ≤ daysInMonth year month then some rest else none

/-- What follows the seconds and their fraction, both of which may be left out. -/
def afterSeconds? (cs : List Char) : Option (List Char) :=
  match cs with
  | ':' :: rest => do
      let (second, rest) ← fixedDigits? 2 rest
      if 60 < second then none
      else
        match rest with
        | '.' :: rest =>
            if (rest.takeWhile Char.isDigit).isEmpty then none
            else some (rest.dropWhile Char.isDigit)
        | rest => some rest
  | cs => some cs

/-- What follows a time of day at the front. -/
def afterTime? (cs : List Char) : Option (List Char) := do
  let (hour, rest) ← fixedDigits? 2 cs
  let rest ← expect? ':' rest
  let (minute, rest) ← fixedDigits? 2 rest
  if 23 < hour || 59 < minute then none else afterSeconds? rest

/-- Whether the characters are a distance from universal time. -/
def isOffset : List Char → Bool
  | [] => true
  | ['Z'] => true
  | ['z'] => true
  | c :: rest =>
      (c == '+' || c == '-') &&
        match fixedDigits? 2 rest with
        | some (hour, ':' :: rest) =>
            match fixedDigits? 2 rest with
            | some (minute, []) => hour ≤ 23 && minute ≤ 59
            | _ => false
        | _ => false

/-- Whether a letter or a blank separates a date from a time of day. -/
def isTimeMark (c : Char) : Bool :=
  c == 'T' || c == 't' || c == ' '

/-- Whether the characters are a moment. -/
def isMoment (cs : List Char) : Bool :=
  match afterDate? cs with
  | some [] => true
  | some (c :: rest) => isTimeMark c && (afterTime? rest).any isOffset
  | none => (afterTime? cs).any List.isEmpty

/-- The scalar that a run of characters is. -/
def scalar? (cs : List Char) : Option Toml :=
  match cs with
  | ['t', 'r', 'u', 'e'] => some (bool true)
  | ['f', 'a', 'l', 's', 'e'] => some (bool false)
  | cs =>
      let number := (integer? cs).or ((decimal? cs).or (special? cs))
      number.or (if isMoment cs then some (moment (String.ofList cs)) else none)

end DocWalk.Toml
