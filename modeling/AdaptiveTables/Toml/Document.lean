import AdaptiveTables.Toml.Text

/-!
Values and documents of TOML. A document is a run of lines, each of them empty, a header, or a key
with its value; the keys under a header belong to its table.
-/

namespace AdaptiveTables.Toml

/-- Skips blanks, line breaks and comments, which may stand between the items of an array. -/
def skipSpace (text : List Char) : List Char :=
  go text.length text
where
  go : Nat → List Char → List Char
    | 0, text => text
    | bound + 1, text =>
      let rest := skipComment (skipBlanks text)
      match lineBreak? rest with
      | some more => go bound more
      | none => rest

mutual

/-- Reads a value. Arrays and inline tables are nested no deeper than `depth`, and every call
passes on a smaller `bound`, which the length of the text suffices for. -/
def value? (depth : Nat) (bound : Nat) (text : List Char) : Option (Value × List Char) :=
  match bound with
  | 0 => none
  | bound + 1 =>
    match text with
    | '"' :: _ | '\'' :: _ =>
      (string? text).map fun (cs, rest) => (.string (String.ofList cs), rest)
    | '[' :: rest =>
      if depth = 0 then none
      else (items? (depth - 1) bound rest).map fun (xs, rest) => (.array xs, rest)
    | '\x7b' :: rest =>
      if depth = 0 then none
      else
        match skipBlanks rest with
        | '\x7d' :: rest => some (.inlineTable .defined [], rest)
        | rest =>
          (pairs? (depth - 1) bound [] rest).map fun (es, rest) => (.inlineTable .defined es, rest)
    | _ => readLiteral text

/-- Reads the items of an array after its bracket or after a comma. -/
def items? (depth : Nat) (bound : Nat) (text : List Char) : Option (List Value × List Char) :=
  match bound with
  | 0 => none
  | bound + 1 =>
    match skipSpace text with
    | ']' :: rest => some ([], rest)
    | text => do
      let (item, rest) ← value? depth bound text
      match skipSpace rest with
      | ',' :: rest =>
        let (more, rest) ← items? depth bound rest
        return (item :: more, rest)
      | ']' :: rest => return ([item], rest)
      | _ => none

/-- Reads the keys of an inline table after its brace or after a comma. -/
def pairs? (depth : Nat) (bound : Nat) (entries : Entries) (text : List Char) :
    Option (Entries × List Char) :=
  match bound with
  | 0 => none
  | bound + 1 => do
    let ((path, key), rest) ← key? text
    match rest with
    | '=' :: rest =>
      let (value, rest) ← value? depth bound (skipBlanks rest)
      let entries ← entries.putInline true path key value
      match skipBlanks rest with
      | ',' :: rest => pairs? depth bound entries rest
      | '\x7d' :: rest => return (entries, rest)
      | _ => none
    | _ => none

end

/-- A key of one line with its value. -/
structure Pair where
  path : List String
  key : String
  value : Value

/-- The header of a table, or of one more table of an array when it is repeated. -/
structure Header where
  repeated : Bool
  path : List String
  key : String

/-- A line that says something. -/
inductive Line where
  | header (header : Header)
  | pair (pair : Pair)

/-- Reads one line without its end. -/
def line? (text : List Char) : Option (Line × List Char) :=
  match text with
  | '[' :: '[' :: rest => do
    match ← key? rest with
    | ((path, key), ']' :: ']' :: rest) => return (.header ⟨true, path, key⟩, rest)
    | _ => none
  | '[' :: rest => do
    match ← key? rest with
    | ((path, key), ']' :: rest) => return (.header ⟨false, path, key⟩, rest)
    | _ => none
  | _ => do
    match ← key? text with
    | ((path, key), '=' :: rest) =>
      let (value, rest) ← value? nestingLimit (2 * text.length + 1) (skipBlanks rest)
      return (.pair ⟨path, key, value⟩, rest)
    | _ => none

/-- Reads all lines that say something. -/
def lines? (text : List Char) : Option (List Line) :=
  go (text.length + 1) text
where
  go : Nat → List Char → Option (List Line)
    | 0, _ => none
    | bound + 1, text =>
      match skipSpace text with
      | [] => some []
      | text => do
        let (line, rest) ← line? text
        let rest ← endLine? rest
        let more ← go bound rest
        return line :: more

/-- The pairs before the first header, and every header with the pairs under it. -/
def sections : List Line → List Pair × List (Header × List Pair)
  | [] => ([], [])
  | .pair p :: rest => (p :: (sections rest).1, (sections rest).2)
  | .header h :: rest => ([], (h, (sections rest).1) :: (sections rest).2)

def fill (pairs : List Pair) (entries : Entries) : Option Entries :=
  pairs.foldlM (fun es p => es.putDotted true p.path p.key p.value) entries

/-- Opens the table of a header and adds the pairs under it. -/
def addSection (root : Entries) (h : Header) (pairs : List Pair) : Option Entries :=
  if h.repeated then root.openElement h.path h.key (fill pairs)
  else root.openTable h.path h.key (fill pairs)

/-- Reads a document as a table. A mark of the byte order at its start is skipped. -/
def document? (text : String) : Option Entries := do
  let chars := match text.toList with
    | '\ufeff' :: rest => rest
    | chars => chars
  let (pairs, rest) := sections (← lines? chars)
  let root ← fill pairs []
  rest.foldlM (fun root (h, pairs) => addSection root h pairs) root

end AdaptiveTables.Toml
