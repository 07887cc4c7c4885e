import Tandem.Behaviour

/-!
# Registries

A registry collects partitions by name, in the order of their registration. Names are unique; references
between partitions are by name and may point forward.
-/

namespace Tandem

structure NamedFeed where
  source : String
  selection : Option (List Nat)
  deriving DecidableEq

structure Entry (ρ : Type) where
  name : String
  rule : ρ
  params : Params
  /-- Params that hold the indices of the named partitions. -/
  indexParams : Table String (List String)
  feeds : Table String NamedFeed
  initial : State
  seed : UInt64
  width : Nat
  depth : Nat
  /-- Entries of one group run one after the other. -/
  group : Option String

/-- An entry that keeps only its current state, has the width of its initial state, and refers to
nothing. -/
def Entry.new {ρ : Type} (name : String) (rule : ρ) (initial : State) : Entry ρ where
  name := name
  rule := rule
  params := .empty
  indexParams := ∅
  feeds := ∅
  initial := initial
  seed := 0
  width := initial.length
  depth := 1
  group := none

/-- What concerns a simulation as a whole. The timeline is at least `timelineDepth` deep. -/
structure RunSpec (τ : Type) where
  output : Output
  stop : StopCondition
  pace : τ
  startTime : Float
  timelineDepth : Nat

def RunSpec.new {τ : Type} (stop : StopCondition) (pace : τ) : RunSpec τ := ⟨.silent, stop, pace, 0, 1⟩

structure Registry (ρ τ : Type) where
  seed : Option UInt64
  spec : Option (RunSpec τ)
  entries : List (Entry ρ)

namespace Registry

variable {ρ τ : Type}

def empty : Registry ρ τ := ⟨none, none, []⟩

def names (registry : Registry ρ τ) : List String := registry.entries.map (·.name)

def contains (registry : Registry ρ τ) (name : String) : Bool := registry.names.contains name

def get? (registry : Registry ρ τ) (name : String) : Option (Entry ρ) :=
  registry.entries.find? fun entry => entry.name = name

def add (entry : Entry ρ) (registry : Registry ρ τ) : Except Fault (Registry ρ τ) :=
  if registry.contains entry.name then .error (.duplicatePartition entry.name)
  else .ok { registry with entries := registry.entries ++ [entry] }

/-- Put an entry in the place of the one called `name`. It may bring a new name of its own, unless that
one is taken. -/
def replace (name : String) (entry : Entry ρ) (registry : Registry ρ τ) :
    Except Fault (Registry ρ τ) :=
  if !registry.contains name then .error (.unknownPartition "reset_partition" name)
  else if entry.name ≠ name ∧ registry.contains entry.name then
    .error (.duplicatePartition entry.name)
  else
    .ok { registry with entries := registry.entries.map fun e => if e.name = name then entry else e }

end Registry

end Tandem
