import Tandem.Plan.Order

/-!
# Runnable plans

`Plan.schedule` accepts a plan when its shapes fit, its references are in range, its groups cover the
partitions in order and no partition waits for itself. What it returns tells a simulation which groups
there are and in which order partitions can be computed.
-/

namespace Tandem

/-- The groups of a runnable plan, and an order of its partitions in which all waits are met. -/
structure Schedule where
  ranges : List Range
  order : List Nat
  deriving DecidableEq, Repr

namespace Plan

def overrun? (width : Nat) (selection : Option (List Nat)) : Option Nat :=
  (selection.getD []).find? fun i => width ≤ i

def checkFeeds (plan : Plan) (reader : String) : List (String × Feed) → Except Fault Unit
  | [] => .ok ()
  | (param, feed) :: rest => do
      let source ← plan.partition feed.source
      match overrun? source.width feed.selection with
      | some index => throw (.selectionOutOfRange reader param source.name index source.width)
      | none => checkFeeds plan reader rest

def checkPartition (plan : Plan) (p : PartitionPlan) : Except Fault Unit :=
  if p.width = 0 then .error (.invalid (.zeroStateWidth p.name))
  else if p.depth = 0 then .error (.invalid (.zeroStateDepth p.name))
  else if p.initial.length ≠ p.width then
    .error (.invalid (.initialCount p.name p.initial.length p.width))
  else plan.checkFeeds p.name p.feeds.entries

/-- Check partitions in order, none of which may have a name in `seen` or of an earlier one. -/
def checkPartitions (plan : Plan) (seen : List String) : List PartitionPlan → Except Fault Unit
  | [] => .ok ()
  | p :: rest =>
      if p.name ∈ seen then .error (.duplicatePartition p.name)
      else do
        plan.checkPartition p
        checkPartitions plan (p.name :: seen) rest

/-- The schedule of a runnable plan, or the first fault of one that is not. -/
def schedule (plan : Plan) : Except Fault Schedule :=
  if plan.timelineDepth = 0 then .error (.invalid .zeroPlanTimelineDepth)
  else do
    plan.checkPartitions [] plan.partitions
    let ranges ← plan.ranges
    let order ← plan.order ranges
    pure ⟨ranges, order⟩

def check (plan : Plan) : Except Fault Unit := do
  let _ ← plan.schedule
  pure ()

end Plan

end Tandem
