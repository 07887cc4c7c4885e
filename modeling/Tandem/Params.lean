import Tandem.Table
import Tandem.Fault

/-!
# Parameters

Every partition owns a table of named lists of numbers. Reading an undeclared name is a fault that names
the owner; there are no implicit values.
-/

namespace Tandem

/-- Named lists of numbers and the name of their owner, which only faults mention. -/
structure Params where
  values : Table String (List Float)
  owner : String

namespace Params

def unnamedOwner : String := "<name not set>"

def new (values : Table String (List Float)) : Params := ⟨values, unnamedOwner⟩

def empty : Params := new ∅

instance : Inhabited Params := ⟨empty⟩

instance : BEq Params := ⟨fun a b => a.values == b.values && a.owner == b.owner⟩

/-- Parameters from a list, the last of equal names winning. -/
def ofList (entries : List (String × List Float)) : Params := new (.ofList entries)

def withOwner (params : Params) (owner : String) : Params := { params with owner := owner }

def ownerName (params : Params) : String :=
  if params.owner.isEmpty then unnamedOwner else params.owner

def names (params : Params) : List String := params.values.keys

def get? (params : Params) (name : String) : Option (List Float) := params.values.get? name

def get (params : Params) (name : String) : Except Fault (List Float) :=
  match params.get? name with
  | some values => .ok values
  | none => .error (.missingParam params.ownerName name)

def getIndex (params : Params) (name : String) (index : Nat) : Except Fault Float := do
  let values ← params.get name
  match values[index]? with
  | some value => pure value
  | none => throw (.paramOutOfRange params.ownerName name index values.length)

/-- One value of `name`, or `default` if it is not declared; an index past the end of a declared name
is still a fault. -/
def getIndexD (params : Params) (name : String) (index : Nat) (default : Float) :
    Except Fault Float :=
  if params.values.contains name then params.getIndex name index else .ok default

def set (params : Params) (name : String) (values : List Float) : Params :=
  { params with values := params.values.insert name values }

def setIndex (params : Params) (name : String) (index : Nat) (value : Float) :
    Except Fault Params := do
  let values ← params.get name
  if index < values.length then pure (params.set name (values.set index value))
  else throw (.paramOutOfRange params.ownerName name index values.length)

end Params

end Tandem
