import Tandem.Plan.Check
import Tandem.Behaviour
import Tandem.Partition

/-!
# Simulations

A simulation holds all partitions with their windows, one timeline for all of them, and the behaviour
they share. It is built from a runnable plan and a behaviour with one rule for each partition.
-/

namespace Tandem

/-- What a simulation lets out: records of its own output, and emissions of the rules inside it. -/
inductive Event where
  | delivered (emission : Emission)
  | nested (emission : Emission)
  deriving DecidableEq

def Event.emission : Event → Emission
  | delivered emission => emission
  | nested emission => emission

def Event.delivered? : Event → Option Emission
  | delivered emission => some emission
  | nested _ => none

structure Cell (ρ : Type) where
  partition : Partition ρ
  window : Window

structure Simulation (ρ τ : Type) where
  cells : List (Cell ρ)
  schedule : Schedule
  timeline : Timeline
  output : Output
  stop : StopCondition
  pace : τ

namespace Simulation

variable {ρ τ : Type}

def windows (sim : Simulation ρ τ) : List Window := sim.cells.map (·.window)

def names (sim : Simulation ρ τ) : List String := sim.cells.map (·.partition.name)

def view (sim : Simulation ρ τ) : View := ⟨sim.windows, sim.timeline⟩

def indexOf? (sim : Simulation ρ τ) (name : String) : Option Nat :=
  sim.names.findIdx? fun n => n = name

def window? (sim : Simulation ρ τ) (name : String) : Option Window := do
  let index ← sim.indexOf? name
  sim.windows[index]?

def isOver (sim : Simulation ρ τ) : Except Crash Bool := sim.stop sim.view

def behaviour (sim : Simulation ρ τ) : Behaviour ρ τ where
  rules := sim.cells.map (·.partition.rule)
  output := sim.output
  stop := sim.stop
  pace := sim.pace

/-! ## Building -/

def makePartition (index : Nat) (p : PartitionPlan) (rule : ρ) : Partition ρ where
  rule := rule
  params := p.params.withOwner p.name
  name := p.name
  index := index
  feeds := p.feeds
  pending := none

/-- Begin the partitions from `index` on, one after the other, up to the first whose initial state
cannot be delivered. -/
def beginCells (output : Output) (time : Float) (index : Nat) :
    List (ρ × PartitionPlan × Window) → Outcome (List (Cell ρ)) × List Event
  | [] => (.ok [], [])
  | (rule, p, window) :: rest =>
      let reply := (makePartition index p rule).begin output p.initial time
      let events := reply.emitted.map Event.delivered
      match reply.result with
      | .error stop => (.error stop, events)
      | .ok () =>
          let (cells, later) := beginCells output time (index + 1) rest
          (cells.map (⟨reply.next, window⟩ :: ·), events ++ later)

def prepare (plan : Plan) (behaviour : Behaviour ρ τ) :
    Outcome (Schedule × List Window × Timeline) := do
  let schedule ← plan.schedule
  if behaviour.rules.length ≠ plan.size then
    throw (.fault (.invalid (.ruleCount behaviour.rules.length plan.size)))
  let windows ← plan.partitions.mapM fun p => Window.new p.width p.depth p.initial
  let timeline ← Timeline.new plan.timelineDepth plan.startTime
  pure (schedule, windows, timeline)

/-- Build a simulation. Every initial state that the output wants is delivered on the way. -/
def start (plan : Plan) (behaviour : Behaviour ρ τ) :
    Outcome (Simulation ρ τ) × List Event :=
  match prepare plan behaviour with
  | .error stop => (.error stop, [])
  | .ok (schedule, windows, timeline) =>
      let (cells, events) := beginCells behaviour.output plan.startTime 0
        (behaviour.rules.zip (plan.partitions.zip windows))
      (cells.map fun cells =>
        { cells, schedule, timeline, output := behaviour.output, stop := behaviour.stop,
          pace := behaviour.pace },
        events)

end Simulation

end Tandem
