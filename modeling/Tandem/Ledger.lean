import Tandem.Archive
import Tandem.Table

/-!
# Ledgers

A ledger is an archive with an index. The states of a name lie at one place of a list of series, a table
tells the place, and the names are listed apart from the states.
-/

namespace Tandem

/-- Series by place, the places of the names, and the times at which states came in. -/
structure Ledger where
  places : Table String Nat
  names : List String
  series : List (List State)
  times : List Float

namespace Ledger

def empty : Ledger := ⟨∅, [], [], []⟩

/-- The place of a name. A name without one gets the place after all others, with no states there yet. -/
def place (name : String) (ledger : Ledger) : Nat × Ledger :=
  match ledger.places.get? name with
  | some index => (index, ledger)
  | none =>
      let index := ledger.series.length
      (index, { ledger with
        places := ledger.places.insert name index
        names := ledger.names ++ [name]
        series := ledger.series ++ [[]] })

def addAt (index : Nat) (state : State) (ledger : Ledger) : Except Crash Ledger :=
  match ledger.series[index]? with
  | some states => .ok { ledger with series := ledger.series.set index (states ++ [state]) }
  | none => .error .outOfBounds

def append (ledger : Ledger) (record : Record) : Except Crash Ledger := do
  let (index, ledger) := ledger.place record.series
  let ledger ← ledger.addAt index record.state
  pure { ledger with times := Archive.addTime record.time ledger.times }

def values? (ledger : Ledger) (name : String) : Except Crash (Option (List State)) :=
  match ledger.places.get? name with
  | none => .ok none
  | some index =>
      match ledger.series[index]? with
      | some states => .ok (some states)
      | none => .error .outOfBounds

def isEmpty (ledger : Ledger) : Bool := ledger.names.isEmpty

/-- The archive that the ledger keeps. -/
def archive (ledger : Ledger) : Archive := ⟨ledger.names.zip ledger.series, ledger.times⟩

end Ledger

end Tandem
