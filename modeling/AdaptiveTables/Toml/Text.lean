import AdaptiveTables.Toml.Literal

/-!
Blanks, comments, strings and keys of TOML. A reader takes the characters that are left and
returns what it read with the rest, or nothing where the text is malformed.
-/

namespace AdaptiveTables.Toml

def isBlank (c : Char) : Bool := c = ' ' || c = '\t'

def skipBlanks (text : List Char) : List Char := text.dropWhile isBlank

/-- Whether a character may stand in a comment or in a string of one line. -/
def isPlain (c : Char) : Bool := c = '\t' || (' ' ≤ c && c ≠ '\x7f')

/-- Splits off a line break. -/
def lineBreak? : List Char → Option (List Char)
  | '\n' :: rest => some rest
  | '\r' :: '\n' :: rest => some rest
  | _ => none

/-- Skips a comment, if there is one, up to the end of its line. -/
def skipComment (text : List Char) : List Char :=
  match text with
  | '#' :: rest => rest.dropWhile isPlain
  | _ => text

/-- Reads what may follow an expression on its line: blanks, a comment and the line break. -/
def endLine? (text : List Char) : Option (List Char) :=
  match skipComment (skipBlanks text) with
  | [] => some []
  | rest => lineBreak? rest

/-- The character with a code in hexadecimal digits, if there is one. -/
def scalar? (digits : List Char) : Option Char :=
  let code := number 16 digits
  if digits.all isHexadecimal && code.isValidChar then some (Char.ofNat code) else none

/-- The character that a letter stands for after a backslash. -/
def escaped? : Char → Option Char
  | 'b' => some '\x08'
  | 't' => some '\t'
  | 'n' => some '\n'
  | 'f' => some '\x0c'
  | 'r' => some '\r'
  | '"' => some '"'
  | '\\' => some '\\'
  | _ => none

abbrev Read := Option (List Char × List Char)

def Read.prepend (c : Char) (r : Read) : Read := r.map fun (cs, rest) => (c :: cs, rest)

/-- Reads a string in double quotes after the opening quote. -/
def basicString : List Char → Read
  | '"' :: rest => some ([], rest)
  | '\\' :: 'u' :: a :: b :: c :: d :: rest =>
    (scalar? [a, b, c, d]).bind fun x => (basicString rest).prepend x
  | '\\' :: 'U' :: a :: b :: c :: d :: e :: f :: g :: h :: rest =>
    (scalar? [a, b, c, d, e, f, g, h]).bind fun x => (basicString rest).prepend x
  | '\\' :: c :: rest => (escaped? c).bind fun x => (basicString rest).prepend x
  | c :: rest => if isPlain c && c ≠ '\\' then (basicString rest).prepend c else none
  | [] => none

/-- Reads a string in single quotes after the opening quote. -/
def literalString : List Char → Read
  | '\'' :: rest => some ([], rest)
  | c :: rest => if isPlain c then (literalString rest).prepend c else none
  | [] => none

/-- Whether only blanks stand before the end of the line. -/
def isBlankLine (text : List Char) : Bool := (lineBreak? (skipBlanks text)).isSome

/-- Reads a string in three double quotes after the opening quotes. Up to two quotes may stand
before the closing ones. After a backslash at the end of a line, all white space is skipped. -/
def multilineString (skipping : Bool) : List Char → Read
  | '"' :: '"' :: '"' :: '"' :: '"' :: rest => some (['"', '"'], rest)
  | '"' :: '"' :: '"' :: '"' :: rest => some (['"'], rest)
  | '"' :: '"' :: '"' :: rest => some ([], rest)
  | '\\' :: 'u' :: a :: b :: c :: d :: rest =>
    (scalar? [a, b, c, d]).bind fun x => (multilineString false rest).prepend x
  | '\\' :: 'U' :: a :: b :: c :: d :: e :: f :: g :: h :: rest =>
    (scalar? [a, b, c, d, e, f, g, h]).bind fun x => (multilineString false rest).prepend x
  | '\\' :: c :: rest =>
    match escaped? c with
    | some x => (multilineString false rest).prepend x
    | none => if isBlankLine (c :: rest) then multilineString true (c :: rest) else none
  | '\r' :: '\n' :: rest =>
    if skipping then multilineString true rest else (multilineString false rest).prepend '\n'
  | c :: rest =>
    if skipping && (isBlank c || c = '\n') then multilineString true rest
    else if (isPlain c && c ≠ '\\') || c = '\n' then (multilineString false rest).prepend c
    else none
  | [] => none

/-- Reads a string in three single quotes after the opening quotes. -/
def multilineLiteral : List Char → Read
  | '\'' :: '\'' :: '\'' :: '\'' :: '\'' :: rest => some (['\'', '\''], rest)
  | '\'' :: '\'' :: '\'' :: '\'' :: rest => some (['\''], rest)
  | '\'' :: '\'' :: '\'' :: rest => some ([], rest)
  | '\r' :: '\n' :: rest => (multilineLiteral rest).prepend '\n'
  | c :: rest => if isPlain c || c = '\n' then (multilineLiteral rest).prepend c else none
  | [] => none

/-- A line break right after the opening quotes does not count. -/
def dropFirstBreak (text : List Char) : List Char := (lineBreak? text).getD text

/-- Reads a string of any of the four forms, if one starts here. -/
def string? : List Char → Read
  | '"' :: '"' :: '"' :: rest => multilineString false (dropFirstBreak rest)
  | '"' :: rest => basicString rest
  | '\'' :: '\'' :: '\'' :: rest => multilineLiteral (dropFirstBreak rest)
  | '\'' :: rest => literalString rest
  | _ => none

def isBareKeyChar (c : Char) : Bool := c.isAlphanum || c = '_' || c = '-'

/-- Reads one part of a key. -/
def simpleKey? (text : List Char) : Option (String × List Char) :=
  let asString := fun (r : Read) => r.map fun (cs, rest) => (String.ofList cs, rest)
  match text with
  | '"' :: rest => asString (basicString rest)
  | '\'' :: rest => asString (literalString rest)
  | _ =>
    let (key, rest) := text.span isBareKeyChar
    if key.isEmpty then none else some (String.ofList key, rest)

/-- How many parts a key may have, and how deep arrays and inline tables may be nested. -/
def nestingLimit : Nat := 79

/-- Reads a key of one or more parts with dots between them, and the blanks around the parts.
Returns the parts before the last one, and the last one. The number counts the parts allowed. -/
def keyOf? : Nat → List Char → Option ((List String × String) × List Char)
  | 0, _ => none
  | parts + 1, text => do
    let (part, rest) ← simpleKey? (skipBlanks text)
    match skipBlanks rest with
    | '.' :: more =>
      let ((path, last), rest) ← keyOf? parts more
      return ((part :: path, last), rest)
    | rest => return (([], part), rest)

def key? (text : List Char) : Option ((List String × String) × List Char) :=
  keyOf? nestingLimit text

end AdaptiveTables.Toml
