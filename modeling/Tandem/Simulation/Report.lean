import Tandem.Simulation.Basic
import Tandem.RunId
import Tandem.Json.Schema

/-!
# Reports

A report shows the current state of every partition with the number of steps and the time. It is written
as a compact document and read back from it.
-/

namespace Tandem

open Json

structure PartitionReport where
  name : String
  index : Nat
  state : State

structure Report where
  runId : RunId
  step : Nat
  time : Float
  partitions : List PartitionReport

namespace PartitionReport

def toDoc (p : PartitionReport) : Doc :=
  .ofRecord [("name", .ofString p.name), ("index", .ofNat p.index), ("state", .ofList .ofFloat p.state)]

def ofDoc? (doc : Doc) : Option PartitionReport := do
  match ← doc.record? [⟨"name", true⟩, ⟨"index", true⟩, ⟨"state", true⟩] with
  | [name, index, state] =>
      let name ← Doc.field Doc.string? name
      let index ← Doc.field Doc.word? index
      let state ← Doc.field (Doc.list? Doc.float?) state
      pure ⟨name, index, state⟩
  | _ => none

end PartitionReport

namespace Report

def state? (report : Report) (name : String) : Option State :=
  (report.partitions.find? fun p => p.name = name).map (·.state)

def toDoc (report : Report) : Doc :=
  .ofRecord [
    ("run_id", .ofString report.runId.text),
    ("step_number", .ofNat report.step),
    ("time", .ofFloat report.time),
    ("partitions", .ofList PartitionReport.toDoc report.partitions)]

def fields : List Doc.Field :=
  [⟨"run_id", true⟩, ⟨"step_number", true⟩, ⟨"time", true⟩, ⟨"partitions", true⟩]

def ofDoc? (doc : Doc) : Option Report := do
  match ← doc.record? fields with
  | [runId, step, time, partitions] =>
      let runId ← Doc.field (fun doc => doc.string? >>= RunId.ofText?) runId
      let step ← Doc.field Doc.word? step
      let time ← Doc.field Doc.float? time
      let partitions ← Doc.field (Doc.list? PartitionReport.ofDoc?) partitions
      pure ⟨runId, step, time, partitions⟩
  | _ => none

def toText (report : Report) : String := report.toDoc.compact

def ofText? (text : String) : Option Report := Doc.parse? text >>= ofDoc?

end Report

namespace Simulation

variable {ρ τ : Type}

def reportCells (index : Nat) : List (Cell ρ) → Except Crash (List PartitionReport)
  | [] => .ok []
  | cell :: rest => do
      let state ← cell.window.latest
      let others ← reportCells (index + 1) rest
      pure (⟨cell.partition.name, index, state⟩ :: others)

/-- The current state of a simulation, as the run of the given identifier. -/
def report (runId : RunId) (sim : Simulation ρ τ) : Except Crash Report := do
  let partitions ← reportCells 0 sim.cells
  pure ⟨runId, sim.timeline.step, sim.timeline.current, partitions⟩

end Simulation

end Tandem
