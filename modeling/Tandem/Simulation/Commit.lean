import Tandem.Simulation.Compute

/-!
# The commit phase

Every partition moves its pending state into its window and offers it to the output, group after group.
A fault does not keep the rest of a group from committing; a crash does.
-/

namespace Tandem

namespace Cell

variable {ρ : Type}

def commit (output : Output) (time : Float) (step : Nat) (cell : Cell ρ) :
    Reply Emission (Cell ρ) Unit :=
  let reply := cell.partition.commit output time step cell.window
  ⟨reply.result, ⟨reply.next.1, reply.next.2⟩, reply.emitted⟩

end Cell

/-- The cells after a commit, what went wrong, and what was delivered. -/
structure Committed (ρ α : Type) where
  cells : List (Cell ρ)
  failure : α
  emitted : List Emission

/-- The failure of a group whose first member failed with `first`: a crash of a later member ends the
group and hides a fault before it. -/
def Stop.followedBy (first : Stop) : Option Stop → Stop
  | some (.crash cause) => .crash cause
  | _ => first

/-- Commit the members of a group in order, up to the first crash. -/
def commitGroup {ρ : Type} (output : Output) (time : Float) (step : Nat) :
    List (Cell ρ) → Committed ρ (Option Stop)
  | [] => ⟨[], none, []⟩
  | cell :: rest =>
      let reply := cell.commit output time step
      match reply.result with
      | .error (.crash crash) => ⟨reply.next :: rest, some (.crash crash), reply.emitted⟩
      | .error (.fault fault) =>
          let later := commitGroup output time step rest
          ⟨reply.next :: later.cells, some (Stop.followedBy (.fault fault) later.failure),
            reply.emitted ++ later.emitted⟩
      | .ok () =>
          let later := commitGroup output time step rest
          ⟨reply.next :: later.cells, later.failure, reply.emitted ++ later.emitted⟩

/-- Commit groups of the given sizes in order, each whatever became of the others. -/
def commitGroups {ρ : Type} (output : Output) (time : Float) (step : Nat) :
    List Nat → List (Cell ρ) → Committed ρ (List (Option Stop))
  | [], cells => ⟨cells, [], []⟩
  | size :: sizes, cells =>
      let first := commitGroup output time step (cells.take size)
      let later := commitGroups output time step sizes (cells.drop size)
      ⟨first.cells ++ later.cells, first.failure :: later.failure, first.emitted ++ later.emitted⟩

namespace Simulation

variable {ρ τ : Type}

def commit (time : Float) (step : Nat) (sim : Simulation ρ τ) :
    Reply Emission (Simulation ρ τ) Unit :=
  let done := commitGroups sim.output time step (sim.schedule.ranges.map Range.size) sim.cells
  let sim := { sim with cells := done.cells }
  match firstFault (groupFaults sim.names sim.schedule.ranges done.failure) with
  | some fault => ⟨.error (.fault fault), sim, done.emitted⟩
  | none => ⟨.ok (), sim, done.emitted⟩

end Simulation

end Tandem
