import Tandem.Fault

/-!
# Archives

An archive collects time series by name. Series are listed in the order in which their names first came
up, and the list of times gains a time only when it lies after the last one listed.
-/

namespace Tandem

structure Record where
  series : String
  time : Float
  state : State
  deriving DecidableEq

/-- Named series of states and the times at which states came in. -/
structure Archive where
  series : List (String × List State)
  times : List Float

namespace Archive

def empty : Archive := ⟨[], []⟩

/-- Add a state at the end of its series, or begin that series after all others. -/
def addState (name : String) (state : State) : List (String × List State) → List (String × List State)
  | [] => [(name, [state])]
  | entry :: rest =>
      if entry.1 = name then (entry.1, entry.2 ++ [state]) :: rest
      else entry :: addState name state rest

/-- Add a time at the end if there is none yet or it lies after the last one. -/
def addTime (time : Float) (times : List Float) : List Float :=
  match times.getLast? with
  | none => [time]
  | some last => if last < time then times ++ [time] else times

def append (archive : Archive) (record : Record) : Archive :=
  ⟨addState record.series record.state archive.series, addTime record.time archive.times⟩

def names (archive : Archive) : List String := archive.series.map (·.1)

def values? (archive : Archive) (name : String) : Option (List State) :=
  (archive.series.find? fun entry => entry.1 = name).map (·.2)

end Archive

end Tandem
