import AdaptiveTables.Toml.Value

/-!
Numbers, booleans and dates of TOML. None of them holds a blank, a comma or a bracket, except
that a blank may part a date from its time, so each is read from one run of characters.
-/

namespace AdaptiveTables.Toml

def isDecimal (c : Char) : Bool := '0' ≤ c && c ≤ '9'

def isOctal (c : Char) : Bool := '0' ≤ c && c ≤ '7'

def isBinary (c : Char) : Bool := c = '0' || c = '1'

def isHexadecimal (c : Char) : Bool :=
  isDecimal c || ('a' ≤ c && c ≤ 'f') || ('A' ≤ c && c ≤ 'F')

def digitValue (c : Char) : Nat :=
  if isDecimal c then c.toNat - '0'.toNat
  else if 'a' ≤ c then c.toNat - 'a'.toNat + 10
  else c.toNat - 'A'.toNat + 10

def number (base : Nat) (digits : List Char) : Nat :=
  digits.foldl (fun n c => n * base + digitValue c) 0

/-- Digits in which single underscores may stand between two of them. Returns them without the
underscores. -/
def plainDigits? (isDigit : Char → Bool) : List Char → Option (List Char)
  | [] => none
  | [c] => if isDigit c then some [c] else none
  | c :: '_' :: d :: rest =>
    if isDigit c then (plainDigits? isDigit (d :: rest)).map (c :: ·) else none
  | c :: d :: rest =>
    if isDigit c then (plainDigits? isDigit (d :: rest)).map (c :: ·) else none

/-- Decimal digits without a superfluous zero at the start. -/
def wholeDigits? (text : List Char) : Option (List Char) :=
  match text with
  | '0' :: _ :: _ => none
  | _ => plainDigits? isDecimal text

/-- Splits off a sign. Tells whether it is negative. -/
def splitSign : List Char → Bool × List Char
  | '+' :: rest => (false, rest)
  | '-' :: rest => (true, rest)
  | text => (false, text)

/-- An integer of 64 bits, in decimal with a sign or in another base without one. -/
def integer? (text : List Char) : Option Int := do
  let n : Int ←
    match text with
    | '0' :: 'x' :: digits => (plainDigits? isHexadecimal digits).map (Int.ofNat <| number 16 ·)
    | '0' :: 'o' :: digits => (plainDigits? isOctal digits).map (Int.ofNat <| number 8 ·)
    | '0' :: 'b' :: digits => (plainDigits? isBinary digits).map (Int.ofNat <| number 2 ·)
    | _ =>
      let (negative, digits) := splitSign text
      (wholeDigits? digits).map fun ds =>
        if negative then -Int.ofNat (number 10 ds) else Int.ofNat (number 10 ds)
  if -9223372036854775808 ≤ n ∧ n ≤ 9223372036854775807 then some n else none

/-- The double nearest to `n · 10 ^ exponent`. Far beyond the range of doubles the power of ten is
not worked out. -/
def nearestDouble (n : Nat) (exponent : Int) : Float :=
  let magnitude := exponent + (toString n).length
  if n = 0 ∨ magnitude < -400 then 0.0
  else if 400 < magnitude then 1.0 / 0.0
  else if exponent < 0 then Float.ofScientific n true (-exponent).toNat
  else Float.ofScientific n false exponent.toNat

/-- The exponent after the mark, with a sign or without. -/
def exponent? (text : List Char) : Option Int :=
  let (negative, digits) := splitSign text
  (plainDigits? isDecimal digits).map fun ds =>
    if negative then -Int.ofNat (number 10 ds) else Int.ofNat (number 10 ds)

def isExponentMark (c : Char) : Bool := c = 'e' || c = 'E'

/-- The magnitude of a float: a whole part, and a fraction or an exponent or both. -/
def magnitude? (text : List Char) : Option Float := do
  let (mantissa, tail) := text.span (!isExponentMark ·)
  let (whole, fraction) := mantissa.span (· != '.')
  let exponent ← match tail with
    | [] => some 0
    | _ :: digits => exponent? digits
  let whole ← wholeDigits? whole
  match fraction with
  | [] => if tail.isEmpty then none else some (nearestDouble (number 10 whole) exponent)
  | _ :: digits =>
    let digits ← plainDigits? isDecimal digits
    return nearestDouble (number 10 (whole ++ digits)) (exponent - digits.length)

/-- A float. A positive one that is too large for a double is refused. -/
def float? (text : List Char) : Option Float :=
  let (negative, rest) := splitSign text
  let signed := fun x : Float => if negative then -x else x
  if rest = ['i', 'n', 'f'] then some (signed (1.0 / 0.0))
  else if rest = ['n', 'a', 'n'] then some (0.0 / 0.0)
  else
    match magnitude? rest with
    | some x => if x == 1.0 / 0.0 && !negative then none else some (signed x)
    | none => none

def boolean? (text : List Char) : Option Bool :=
  if text = ['t', 'r', 'u', 'e'] then some true
  else if text = ['f', 'a', 'l', 's', 'e'] then some false
  else none

/-- A number of exactly two digits. -/
def twoDigits? (a b : Char) : Option Nat :=
  if isDecimal a && isDecimal b then some (number 10 [a, b]) else none

def isLeapYear (year : Nat) : Bool := year % 4 = 0 && (year % 100 ≠ 0 || year % 400 = 0)

def daysInMonth (year month : Nat) : Nat :=
  if month = 2 then (if isLeapYear year then 29 else 28)
  else if month = 4 ∨ month = 6 ∨ month = 9 ∨ month = 11 then 30
  else 31

/-- Reads a date at the start of a text and returns the rest. -/
def date? : List Char → Option (List Char)
  | y₁ :: y₂ :: y₃ :: y₄ :: '-' :: m₁ :: m₂ :: '-' :: d₁ :: d₂ :: rest => do
    let century ← twoDigits? y₁ y₂
    let year ← twoDigits? y₃ y₄
    let month ← twoDigits? m₁ m₂
    let day ← twoDigits? d₁ d₂
    if 1 ≤ month ∧ month ≤ 12 ∧ 1 ≤ day ∧ day ≤ daysInMonth (century * 100 + year) month then
      some rest
    else none
  | _ => none

/-- Reads hours and minutes at the start of a text and returns the rest. -/
def clock? : List Char → Option (List Char)
  | h₁ :: h₂ :: ':' :: m₁ :: m₂ :: rest => do
    let hour ← twoDigits? h₁ h₂
    let minute ← twoDigits? m₁ m₂
    if hour ≤ 23 ∧ minute ≤ 59 then some rest else none
  | _ => none

/-- Reads a time at the start of a text and returns the rest. -/
def time? (text : List Char) : Option (List Char) := do
  match ← clock? text with
  | ':' :: s₁ :: s₂ :: rest =>
    let second ← twoDigits? s₁ s₂
    if 60 < second then none
    match rest with
    | '.' :: c :: more => if isDecimal c then some (more.dropWhile isDecimal) else none
    | _ => some rest
  | _ => none

/-- Whether a text is an offset from universal time. -/
def isOffset : List Char → Bool
  | ['Z'] | ['z'] => true
  | '+' :: rest | '-' :: rest => clock? rest = some []
  | _ => false

/-- Whether a text is a time that may follow a date. -/
def isTimeOfDate (text : List Char) : Bool :=
  match time? text with
  | some rest => rest.isEmpty || isOffset rest
  | none => false

/-- Whether a text is a date, a time, or both. -/
def isMoment (text : List Char) : Bool :=
  match date? text with
  | some [] => true
  | some (c :: rest) => (c = 'T' || c = 't') && isTimeOfDate rest
  | none => time? text = some []

/-- Whether a character can be part of a literal. -/
def isLiteralChar (c : Char) : Bool :=
  c.isAlphanum || c = '_' || c = '+' || c = '-' || c = '.' || c = ':'

def literal? (text : List Char) : Option Value :=
  match boolean? text, integer? text, float? text with
  | some b, _, _ => some (.boolean b)
  | _, some n, _ => some (.integer n)
  | _, _, some x => some (.float x)
  | _, _, _ => if isMoment text then some .moment else none

/-- Reads a literal at the start of a text and returns the rest. -/
def readLiteral (text : List Char) : Option (Value × List Char) :=
  let (token, rest) := text.span isLiteralChar
  match date? token, rest with
  | some [], ' ' :: more =>
    let (time, after) := more.span isLiteralChar
    if isTimeOfDate time then some (.moment, after) else some (.moment, rest)
  | _, _ => (literal? token).map fun n => (n, rest)

end AdaptiveTables.Toml
