import Tandem.Simulation.Commit

/-!
# Steps and runs

A step counts itself, asks the pace for its increment, computes all pending states, commits them all and
moves the timeline on. A step that fails before it commits is taken back. A run makes steps until the
stop condition holds or a step fails.
-/

namespace Tandem

structure StepReport where
  step : Nat
  time : Float
  deriving DecidableEq

namespace Simulation

variable {ρ τ : Type}

/-- Take back a step that came to nothing. -/
def abandon (previous : Float) (sim : Simulation ρ τ) : Simulation ρ τ :=
  { sim with timeline := sim.timeline.abandonStep previous }

def discardPending (sim : Simulation ρ τ) : Simulation ρ τ :=
  { sim with cells := sim.cells.map fun cell => { cell with partition := cell.partition.discard } }

/-- The second half of a step: commit, and move the timeline on whatever the output says. -/
def finishStep (sim : Simulation ρ τ) : Reply Emission (Simulation ρ τ) StepReport :=
  let time := sim.timeline.next
  let step := sim.timeline.step
  let reply := sim.commit time step
  let sim := { reply.next with timeline := reply.next.timeline.push time }
  ⟨reply.result.map fun () => ⟨step, time⟩, sim, reply.emitted⟩

def step [UpdateRule ρ] [Pace τ] (sim : Simulation ρ τ) :
    Reply Event (Simulation ρ τ) StepReport :=
  let previous := sim.timeline.increment
  let begun := sim.timeline.beginStep
  match Pace.next begun sim.pace with
  | (.error (.fault fault), pace) =>
      ⟨.error (.fault fault), { sim with timeline := begun, pace }.abandon previous, []⟩
  | (.error (.crash crash), pace) =>
      ⟨.error (.crash crash), { sim with timeline := begun, pace }, []⟩
  | (.ok increment, pace) =>
      let computed := { sim with timeline := begun.setIncrement increment, pace }.compute
      let nested := computed.emitted.map Event.nested
      match computed.result with
      | .error stop => ⟨.error stop, computed.next.discardPending.abandon previous, nested⟩
      | .ok () =>
          let finished := computed.next.finishStep
          ⟨finished.result, finished.next, nested ++ finished.emitted.map Event.delivered⟩

def runWithin [UpdateRule ρ] [Pace τ] : Nat → Simulation ρ τ → Reply Event (Simulation ρ τ) Unit
  | 0, sim => ⟨.error (.crash .endless), sim, []⟩
  | fuel + 1, sim =>
      match sim.isOver with
      | .error crash => ⟨.error (.crash crash), sim, []⟩
      | .ok true => ⟨.ok (), sim, []⟩
      | .ok false =>
          let first := sim.step
          match first.result with
          | .error stop => ⟨.error stop, first.next, first.emitted⟩
          | .ok _ =>
              let later := runWithin fuel first.next
              ⟨later.result, later.next, first.emitted ++ later.emitted⟩

/-- Make steps until the stop condition holds or a step fails. A run makes fewer steps than its counter
can tell apart. -/
def run [UpdateRule ρ] [Pace τ] (sim : Simulation ρ τ) : Reply Event (Simulation ρ τ) Unit :=
  runWithin Word.count sim

end Simulation

end Tandem
