import Tandem.Simulation.Step
import Tandem.Rule.Audited

/-!
# Audits

An audit runs a simulation twice with every rule under audit, configured anew before each run, and
records every state of both runs. A partition whose two records differ has a rule that keeps something
its configuration does not reset.
-/

namespace Tandem

namespace Audit

variable {ρ τ : Type}

def archiveName : String := "audit"

def archiveOf (events : List Event) : Archive :=
  (events.filterMap Event.delivered?).foldl (fun archive e => archive.append e.record) .empty

/-- Configure the rules and run the simulation, every state recorded. The behaviour comes back unless
the run failed. -/
def recordRun [UpdateRule ρ] [Pace τ] (plan : Plan) (behaviour : Behaviour ρ τ) :
    Outcome (Behaviour ρ τ × Archive) × List Event :=
  match behaviour.configure plan with
  | (.error stop, _) => (.error stop, [])
  | (.ok (), behaviour) =>
      match Simulation.start plan behaviour with
      | (.error stop, events) => (.error stop, events)
      | (.ok sim, events) =>
          let reply := sim.run
          let events := events ++ reply.emitted
          (reply.result.map fun () => (reply.next.behaviour, archiveOf events), events)

/-- The first series of the first archive that is not the same, number by number, in the second. -/
def residue? (first second : Archive) : Option String :=
  first.names.find? fun name => !(first.values? name == second.values? name)

def twoRuns [UpdateRule ρ] [Pace τ] (plan : Plan) (behaviour : Behaviour ρ τ) :
    Outcome Unit × List Event :=
  match recordRun plan behaviour with
  | (.error stop, events) => (.error stop, events)
  | (.ok (behaviour, first), events) =>
      match recordRun plan behaviour with
      | (.error stop, later) => (.error stop, events ++ later)
      | (.ok (_, second), later) =>
          match residue? first second with
          | some name => (.error (.fault (.residue name)), events ++ later)
          | none => (.ok (), events ++ later)

end Audit

/-- Audit a behaviour for a plan. Only its rules, its stop condition and its pace take part. -/
def Behaviour.audit {ρ τ : Type} [UpdateRule ρ] [Pace τ] (plan : Plan) (behaviour : Behaviour ρ τ) :
    Outcome Unit × List Event :=
  Audit.twoRuns plan
    { rules := behaviour.rules.map Audited.new, output := .recordAll Audit.archiveName,
      stop := behaviour.stop, pace := behaviour.pace }

end Tandem
