import AdaptiveTables.Double
import AdaptiveTables.Grid.Settings
import AdaptiveTables.Toml.Document

/-!
Settings of the grid generators as text. A TOML document names the settings that differ from the
standard ones; keys it does not know are passed over.
-/

namespace AdaptiveTables
namespace GridSettings

open Toml

/-- A number of a document. Integers count as numbers. -/
def real? : Value → Option Float
  | .float x => some x
  | .integer n => some (Float.ofInt n)
  | _ => none

def flag? : Value → Option Bool
  | .boolean b => some b
  | _ => none

def reactionNamed? (name : String) : Option Reaction := Reaction.all.find? (·.name == name)

/-- Whether a value holds nothing, as the content of a name without content does. -/
def isVoid : Value → Bool
  | .array items => items.isEmpty
  | .inlineTable _ entries | .table _ entries => entries.isEmpty
  | .tables elements => elements.isEmpty
  | _ => false

/-- A reaction is a name, or a table with that name as its only key and nothing under it. -/
def reaction? : Value → Option Reaction
  | .string name => reactionNamed? name
  | .inlineTable _ [(name, content)] | .table _ [(name, content)] =>
    if isVoid content then reactionNamed? name else none
  | _ => none

/-- The setting at a key, or the standard one where the key is missing. -/
def setting {β : Type} (entries : Entries) (key : String) (standard : β)
    (read : Value → Option β) : Option β :=
  match entries.find? key with
  | none => some standard
  | some value => read value

def ofEntries? (entries : Entries) : Option (GridSettings Float) := do
  let base : GridSettings Float := .standard
  let t := base.tolerances
  let convergence ← setting entries "convergence_tolerance" t.convergence real?
  let absolute ← setting entries "absolute_difference_tolerance" t.absolute real?
  let distance ← setting entries "distance_tolerance" t.distance real?
  let reaction ← setting entries "dirty_convergence" base.reaction reaction?
  let verbose ← setting entries "verbose" base.verbose flag?
  return ⟨⟨convergence, absolute, distance⟩, reaction, verbose⟩

/-- Reads settings and checks them. -/
def ofText (text : String) : Except (GridError Float) (GridSettings Float) :=
  match (document? text).bind ofEntries? with
  | none => .error (.invalidArgument .malformedSettings)
  | some s => s.check.map fun () => s

end GridSettings
end AdaptiveTables
