import Tandem.Params

/-!
# Plans

A plan is all that is fixed about a simulation before it starts, behaviour apart: its partitions by
index, which of their params are fed by which partition, the groups that run one after the other, and
the start and depth of the timeline.
-/

namespace Tandem

/-- A param that takes, in every step, the new state of partition `source`, or chosen elements of it. -/
structure Feed where
  source : Nat
  selection : Option (List Nat)
  deriving DecidableEq, BEq

namespace Feed

/-- The elements of `state` that a feed selects, in its order; repetitions are allowed. -/
def select (selection : Option (List Nat)) (state : State) : Except Crash (List Float) :=
  match selection with
  | none => .ok state
  | some indices =>
      indices.mapM fun i =>
        match state[i]? with
        | some value => .ok value
        | none => .error .outOfBounds

end Feed

structure PartitionPlan where
  name : String
  params : Params
  feeds : Table String Feed
  initial : State
  seed : UInt64
  width : Nat
  depth : Nat

/-- What is fixed about a simulation. Without groups every partition is a group of its own. -/
structure Plan where
  partitions : List PartitionPlan
  startTime : Float
  timelineDepth : Nat
  groups : List (List Nat)

instance : BEq PartitionPlan where
  beq a b :=
    a.name == b.name && a.params == b.params && a.feeds == b.feeds && a.initial == b.initial &&
      a.seed == b.seed && a.width == b.width && a.depth == b.depth

/-- Equality of all parts; times and values compare as numbers. -/
instance : BEq Plan where
  beq a b :=
    a.partitions == b.partitions && a.startTime == b.startTime &&
      a.timelineDepth == b.timelineDepth && a.groups == b.groups

def PartitionPlan.tag (p : PartitionPlan) : PartitionPlan :=
  { p with params := p.params.withOwner p.name }

namespace Plan

def tag (plan : Plan) : Plan := { plan with partitions := plan.partitions.map PartitionPlan.tag }

def size (plan : Plan) : Nat := plan.partitions.length

def names (plan : Plan) : List String := plan.partitions.map (·.name)

def indexOf? (plan : Plan) (name : String) : Option Nat :=
  plan.partitions.findIdx? fun p => p.name = name

def partition (plan : Plan) (index : Nat) : Except Fault PartitionPlan :=
  match plan.partitions[index]? with
  | some p => .ok p
  | none => .error (.partitionOutOfRange index plan.size)

end Plan

end Tandem
