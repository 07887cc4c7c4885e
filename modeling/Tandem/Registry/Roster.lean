import Tandem.Registry.Resolve

/-!
# Rosters

A roster keeps a registry in two parts: a list of the names in the order of their registration, and a table
with the entry of each name. Every request updates both.
-/

namespace Tandem

/-- Names in order, the entries under their names, what concerns them all, and the seed from which theirs
are derived. -/
structure Roster (ρ τ : Type) where
  seed : Option UInt64
  spec : Option (RunSpec τ)
  names : List String
  entries : Table String (Entry ρ)

namespace Roster

variable {ρ τ : Type}

def empty : Roster ρ τ := ⟨none, none, [], ∅⟩

def get? (roster : Roster ρ τ) (name : String) : Option (Entry ρ) := roster.entries.get? name

def put (entry : Entry ρ) (roster : Roster ρ τ) : Roster ρ τ :=
  { roster with entries := roster.entries.insert entry.name entry }

def add (entry : Entry ρ) (roster : Roster ρ τ) : Except Fault Unit × Roster ρ τ :=
  if roster.entries.contains entry.name then (.error (.duplicatePartition entry.name), roster)
  else (.ok (), { roster with names := roster.names ++ [entry.name] }.put entry)

/-- Drop the entry called `name`, and list another name in the place of its own. -/
def rename (name other : String) (roster : Roster ρ τ) : Roster ρ τ :=
  { roster with
    names := roster.names.map fun listed => if listed = name then other else listed
    entries := roster.entries.erase name }

def replace (name : String) (entry : Entry ρ) (roster : Roster ρ τ) : Except Fault Unit × Roster ρ τ :=
  if !roster.entries.contains name then (.error (.unknownPartition "reset_partition" name), roster)
  else if entry.name = name then (.ok (), roster.put entry)
  else if roster.entries.contains entry.name then (.error (.duplicatePartition entry.name), roster)
  else (.ok (), (roster.rename name entry.name).put entry)

/-- The registry that the roster keeps: the entry of each name, in order. -/
def registry (roster : Roster ρ τ) : Except Crash (Registry ρ τ) := do
  let entries ← roster.names.mapM fun name =>
    match roster.get? name with
    | some entry => .ok entry
    | none => .error .outOfBounds
  pure ⟨roster.seed, roster.spec, entries⟩

def resolve [UpdateRule ρ] (roster : Roster ρ τ) : Outcome (Plan × Behaviour ρ τ) := do
  let registry ← roster.registry
  registry.resolve

end Roster

end Tandem
