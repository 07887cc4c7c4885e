import Tandem.Registry.Basic
import Tandem.Registry.Seed
import Tandem.Plan.Check

/-!
# From names to indices

`Registry.resolve` gives every entry an index, turns names into indices, and configures the rules.
Entries keep their order, except that the members of a group follow its first member.
-/

namespace Tandem

namespace Registry

variable {ρ τ : Type}

/-- Entries that run together, and the label they share. -/
structure Group (ρ : Type) where
  label : Option String
  members : List (Entry ρ)

/-- Join the group of an entry's label, or begin a group after all others. -/
def place (entry : Entry ρ) : List (Group ρ) → List (Group ρ)
  | [] => [⟨entry.group, [entry]⟩]
  | group :: rest =>
      if entry.group.isSome ∧ group.label = entry.group then
        { group with members := group.members ++ [entry] } :: rest
      else group :: place entry rest

/-- The entries in groups; an entry without a label is a group of its own. -/
def grouped (entries : List (Entry ρ)) : List (Group ρ) :=
  entries.foldl (fun groups entry => place entry groups) []

def numberGroups (next : Nat) : List (Group ρ) → List (List Nat)
  | [] => []
  | group :: rest =>
      List.range' next group.members.length :: numberGroups (next + group.members.length) rest

def indexOf (order : List (Entry ρ)) (referrer name : String) : Except Fault Nat :=
  match order.findIdx? fun entry => entry.name = name with
  | some index => .ok index
  | none => .error (.unknownPartition referrer name)

def resolveParams (order : List (Entry ρ)) (referrer : String) :
    List (String × List String) → Params → Except Fault Params
  | [], params => .ok params
  | (param, names) :: rest, params => do
      let indices ← names.mapM (indexOf order referrer)
      resolveParams order referrer rest (params.set param (indices.map Float.ofNat))

def resolveFeeds (order : List (Entry ρ)) (referrer : String) :
    List (String × NamedFeed) → Table String Feed → Except Fault (Table String Feed)
  | [], feeds => .ok feeds
  | (param, feed) :: rest, feeds => do
      let source ← indexOf order referrer feed.source
      let width := (order[source]?.map (·.width)).getD 0
      match Plan.overrun? width feed.selection with
      | some index => throw (.selectionOutOfRange referrer param feed.source index width)
      | none => resolveFeeds order referrer rest (feeds.insert param ⟨source, feed.selection⟩)

def resolveEntry (seed : Option UInt64) (order : List (Entry ρ)) (entry : Entry ρ) :
    Except Fault PartitionPlan := do
  let params ← resolveParams order entry.name entry.indexParams.entries entry.params
  let feeds ← resolveFeeds order entry.name entry.feeds.entries ∅
  pure {
    name := entry.name
    params := params
    feeds := feeds
    initial := entry.initial
    seed := match seed with
      | some seed => deriveSeed seed entry.name
      | none => entry.seed
    width := entry.width
    depth := entry.depth }

/-- A plan that may not be runnable yet, and the entries by index. -/
def assemble (registry : Registry ρ τ) (spec : RunSpec τ) :
    Except Fault (Plan × List (Entry ρ)) := do
  let groups := grouped registry.entries
  let order := groups.flatMap (·.members)
  let partitions ← order.mapM (resolveEntry registry.seed order)
  let plan : Plan := {
    partitions := partitions
    startTime := spec.startTime
    timelineDepth := partitions.foldl (fun depth p => max depth p.depth) spec.timelineDepth
    groups := numberGroups 0 groups }
  pure (plan.tag, order)

/-- Resolve all names, check the plan, and configure the rules for it. -/
def resolve [UpdateRule ρ] (registry : Registry ρ τ) : Outcome (Plan × Behaviour ρ τ) := do
  match registry.spec with
  | none => throw (.fault .noRunSpec)
  | some spec =>
      let (plan, order) ← registry.assemble spec
      plan.check
      let behaviour : Behaviour ρ τ :=
        ⟨order.map (·.rule), spec.output, spec.stop, spec.pace⟩
      match behaviour.configure plan with
      | (.error stop, _) => throw stop
      | (.ok (), behaviour) => pure (plan, behaviour)

end Registry

end Tandem
