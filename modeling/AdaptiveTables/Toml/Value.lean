/-!
TOML documents as trees. Tables keep their keys in the order of insertion and remember how they
came about, since that decides what may be added to them later.
-/

namespace AdaptiveTables.Toml

inductive TableKind where
  /-- Named only on the way to a deeper header. -/
  | implicit
  /-- Made by a dotted key. -/
  | dotted
  /-- Made by a header of its own, or written inline. -/
  | defined
deriving DecidableEq, Repr

inductive Value where
  | string (text : String)
  | integer (value : Int)
  | float (value : Float)
  | boolean (value : Bool)
  | moment
  | array (items : List Value)
  | inlineTable (kind : TableKind) (entries : List (String × Value))
  | table (kind : TableKind) (entries : List (String × Value))
  /-- The tables of a repeated header, in order. -/
  | tables (elements : List (List (String × Value)))

abbrev Entries := List (String × Value)

namespace Entries

def find? (entries : Entries) (key : String) : Option Value := entries.lookup key

def erase (entries : Entries) (key : String) : Entries := entries.filter (·.1 != key)

/-- Replaces the value at a key, or adds it at the end. -/
def set (entries : Entries) (key : String) (value : Value) : Entries :=
  match entries with
  | [] => [(key, value)]
  | (k, v) :: rest => if k == key then (k, value) :: rest else (k, v) :: set rest key value

/-- Adds a key that must be new. -/
def add? (entries : Entries) (key : String) (value : Value) : Option Entries :=
  match find? entries key with
  | some _ => none
  | none => some (set entries key value)

/-- Adds the value of a dotted key. Tables on the way must not have been defined in full, and the
last of them must itself come from a dotted key. -/
def putDotted (mayEnd : Bool) (entries : Entries) (path : List String) (key : String)
    (value : Value) : Option Entries :=
  match path with
  | [] => if mayEnd then add? entries key value else none
  | p :: rest =>
    match find? entries p with
    | none => do
      let inner ← putDotted true [] rest key value
      return set entries p (.table .dotted inner)
    | some (.table kind inner) =>
      if kind = .defined then none
      else do
        let inner ← putDotted (kind = .dotted) inner rest key value
        return set entries p (.table kind inner)
    | some (.tables elements) =>
      match elements.getLast? with
      | none => none
      | some inner => do
        let inner ← putDotted false inner rest key value
        return set entries p (.tables (elements.dropLast ++ [inner]))
    | some _ => none

/-- Adds the value of a dotted key inside an inline table. -/
def putInline (mayEnd : Bool) (entries : Entries) (path : List String) (key : String)
    (value : Value) : Option Entries :=
  match path with
  | [] => if mayEnd then add? entries key value else none
  | p :: rest =>
    match find? entries p with
    | none => do
      let inner ← putInline true [] rest key value
      return set entries p (.inlineTable .dotted inner)
    | some (.inlineTable .dotted inner) => do
      let inner ← putInline true inner rest key value
      return set entries p (.inlineTable .dotted inner)
    | some _ => none

/-- Changes the table that a header's path leads to. Missing tables on the way are implicit, and
a repeated header stands for its latest table. -/
def descend (entries : Entries) (path : List String) (change : Entries → Option Entries) :
    Option Entries :=
  match path with
  | [] => change entries
  | p :: rest =>
    match find? entries p with
    | none => do
      let inner ← descend [] rest change
      return set entries p (.table .implicit inner)
    | some (.table kind inner) => do
      let inner ← descend inner rest change
      return set entries p (.table kind inner)
    | some (.tables elements) =>
      match elements.getLast? with
      | none => none
      | some inner => do
        let inner ← descend inner rest change
        return set entries p (.tables (elements.dropLast ++ [inner]))
    | some _ => none

/-- Opens the table of a header and fills it. A table may be opened once. -/
def openTable (entries : Entries) (path : List String) (key : String)
    (fill : Entries → Option Entries) : Option Entries :=
  descend entries path fun parent =>
    match find? parent key with
    | none => do
      let inner ← fill []
      return set parent key (.table .defined inner)
    | some (.table .implicit inner) => do
      let inner ← fill inner
      return set parent key (.table .defined inner)
    | some _ => none

/-- Appends a table to those of a repeated header and fills it. -/
def openElement (entries : Entries) (path : List String) (key : String)
    (fill : Entries → Option Entries) : Option Entries :=
  descend entries path fun parent =>
    match find? parent key with
    | none => do
      let inner ← fill []
      return set parent key (.tables [inner])
    | some (.tables elements) => do
      let inner ← fill []
      return set parent key (.tables (elements ++ [inner]))
    | some _ => none

end Entries
end AdaptiveTables.Toml
