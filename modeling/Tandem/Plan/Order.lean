import Tandem.Plan.Basic

/-!
# Groups and the order of computation

Within a step a partition waits for the partitions that feed it and for its predecessor in its group.
`Plan.ranges` resolves the groups into ranges of indices. `Plan.order` sorts the partitions so that each
comes after all it waits for, or names a partition that waits in vain.
-/

namespace Tandem

structure Range where
  start : Nat
  stop : Nat
  deriving DecidableEq, Repr

namespace Range

def indices (range : Range) : List Nat := List.range' range.start (range.stop - range.start)

def size (range : Range) : Nat := range.stop - range.start

end Range

namespace Plan

/-- Check that a group lists `next`, `next + 1`, …; the index after its last one. -/
def groupStop (next : Nat) : List Nat → Except Fault Nat
  | [] => .ok next
  | index :: rest =>
      if index = next then groupStop (next + 1) rest
      else .error (.invalid (.groupOrder next index))

def groupRanges (total next : Nat) : List (List Nat) → Except Fault (List Range)
  | [] => if next = total then .ok [] else .error (.invalid (.groupCover next total))
  | [] :: _ => .error (.invalid .emptyGroup)
  | group :: rest => do
      let stop ← groupStop next group
      let ranges ← groupRanges total stop rest
      pure (⟨next, stop⟩ :: ranges)

/-- The groups as ranges: each group lists consecutive indices, and together they list every index once,
ascending. -/
def ranges (plan : Plan) : Except Fault (List Range) :=
  if plan.groups.isEmpty then .ok ((List.range plan.size).map fun i => ⟨i, i + 1⟩)
  else groupRanges plan.size 0 plan.groups

/-- One pair `(before, after)` for each feed: its source and its reader. -/
def feedEdges (plan : Plan) : List (Nat × Nat) :=
  (plan.partitions.mapIdx fun reader p => p.feeds.values.map fun feed => (feed.source, reader)).flatten

/-- One pair `(before, after)` for each two neighbours in a group. -/
def serialEdges (ranges : List Range) : List (Nat × Nat) :=
  ranges.flatMap fun range =>
    (List.range' (range.start + 1) (range.stop - (range.start + 1))).map fun i => (i - 1, i)

def edges (plan : Plan) (ranges : List Range) : List (Nat × Nat) :=
  plan.feedEdges ++ serialEdges ranges

end Plan

/-- A sort of indices under way: how many waits each index still has, which indices are ready, and
which are done, latest first. -/
structure Sorting where
  waits : List Nat
  ready : List Nat
  done : List Nat
  deriving DecidableEq, Repr

namespace Sorting

/-- Before anything is done: the indices without waits are ready, the highest on top. -/
def start (size : Nat) (edges : List (Nat × Nat)) : Sorting :=
  let waits := (List.range size).map fun i => edges.countP fun e => e.2 = i
  ⟨waits, ((List.range size).filter fun i => waits[i]? = some 0).reverse, []⟩

def release (sorting : Sorting) (index : Nat) : Sorting :=
  let left := sorting.waits.getD index 0 - 1
  { sorting with
    waits := sorting.waits.set index left
    ready := if left = 0 then index :: sorting.ready else sorting.ready }

def pop (edges : List (Nat × Nat)) (sorting : Sorting) : Option Sorting :=
  match sorting.ready with
  | [] => none
  | index :: ready =>
      let followers := (edges.filter fun e => e.1 = index).map (·.2)
      some (followers.foldl release { sorting with ready := ready, done := index :: sorting.done })

def drain (edges : List (Nat × Nat)) : Nat → Sorting → Sorting
  | 0, sorting => sorting
  | fuel + 1, sorting =>
      match sorting.pop edges with
      | some sorting => drain edges fuel sorting
      | none => sorting

/-- Pop until nothing is ready. Every index gets ready once at most, so there are at most `size`
pops. -/
def finish (size : Nat) (edges : List (Nat × Nat)) : Sorting := drain edges size (start size edges)

/-- The lowest index that still waits. -/
def stuck? (sorting : Sorting) : Option Nat :=
  sorting.waits.findIdx? fun waits => 0 < waits

end Sorting

namespace Plan

/-- The partitions in an order in which each comes after all it waits for. -/
def order (plan : Plan) (ranges : List Range) : Except Fault (List Nat) :=
  let sorted := Sorting.finish plan.size (plan.edges ranges)
  if sorted.done.length = plan.size then .ok sorted.done.reverse
  else
    match plan.partitions[sorted.stuck?.getD 0]? with
    | some p => .error (.feedCycle p.name)
    | none => .ok sorted.done.reverse

end Plan

end Tandem
