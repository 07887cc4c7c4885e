import Tandem.Simulation.Basic

/-!
# The compute phase

Every partition computes its pending state from the windows as they were before the step and from the
pending states that feed it. The members of a group run one after the other, and a group is halted by
its first failure; what a halted partition would have sent never arrives. Partitions are visited in the
order of the schedule, in which all waits are met, so each visit finds everything it waits for decided.
-/

namespace Tandem

/-- A compute phase under way: the partitions, the states sent so far by partition index, and by group
index what halted the group. -/
structure Progress (ρ : Type) where
  cells : List (Cell ρ)
  sent : List (Option State)
  halted : List (Option Stop)
  emitted : List Emission

namespace Progress

variable {ρ : Type}

def start (cells : List (Cell ρ)) (groups : Nat) : Progress ρ :=
  ⟨cells, List.replicate cells.length none, List.replicate groups none, []⟩

def sentBy (progress : Progress ρ) (index : Nat) : Option State := (progress.sent[index]?).join

def inbox (progress : Progress ρ) (feeds : Table String Feed) : Inbox :=
  feeds.entries.map fun entry => (entry.1, progress.sentBy entry.2.source)

/-- Let the partition at `index`, a member of group `group`, compute its pending state. -/
def visit [UpdateRule ρ] (view : View) (group index : Nat) (progress : Progress ρ) : Progress ρ :=
  match progress.cells[index]?, (progress.halted[group]?).join with
  | some cell, none =>
      let reply := cell.partition.compute view (progress.inbox cell.partition.feeds)
      let cells := progress.cells.set index { cell with partition := reply.next }
      let emitted := progress.emitted ++ reply.emitted
      match reply.result with
      | .ok state =>
          { progress with cells, emitted, sent := progress.sent.set index (some state) }
      | .error stop =>
          { progress with cells, emitted, halted := progress.halted.set group (some stop) }
  | _, _ => progress

end Progress

def groupOf (ranges : List Range) (index : Nat) : Nat :=
  ranges.findIdx fun range => decide (range.start ≤ index ∧ index < range.stop)

def Stop.report (leader : String) : Stop → Fault
  | .fault cause => cause
  | .crash _ => .workerCrashed leader

/-- Whether a fault is only the consequence of another group's failure. -/
def Fault.isKnockOn : Fault → Bool
  | .feedUnavailable _ _ => true
  | _ => false

/-- Of the faults of several groups the first that is no mere consequence, else the first. -/
def firstFault (faults : List Fault) : Option Fault :=
  match faults.find? fun fault => !fault.isKnockOn with
  | some fault => some fault
  | none => faults.head?

def groupFaults (names : List String) (ranges : List Range) (failures : List (Option Stop)) :
    List Fault :=
  (ranges.zip failures).filterMap fun (range, failure) =>
    failure.map (Stop.report (names.getD range.start ""))

namespace Simulation

variable {ρ τ : Type}

def computeAll [UpdateRule ρ] (sim : Simulation ρ τ) : Progress ρ :=
  sim.schedule.order.foldl
    (fun progress index => progress.visit sim.view (groupOf sim.schedule.ranges index) index)
    (Progress.start sim.cells sim.schedule.ranges.length)

/-- The compute phase: every partition has a pending state, or the phase failed. -/
def compute [UpdateRule ρ] (sim : Simulation ρ τ) : Reply Emission (Simulation ρ τ) Unit :=
  let progress := sim.computeAll
  let sim := { sim with cells := progress.cells }
  match firstFault (groupFaults sim.names sim.schedule.ranges progress.halted) with
  | some fault => ⟨.error (.fault fault), sim, progress.emitted⟩
  | none => ⟨.ok (), sim, progress.emitted⟩

end Simulation

end Tandem
