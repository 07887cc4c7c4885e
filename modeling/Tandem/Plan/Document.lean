import Tandem.Plan.Basic
import Tandem.Json.Schema

/-!
# Plans as documents

A plan is written as an indented document and read back from any document of the same fields. Reading
makes every partition the owner of its params; a plan with a value that is no finite number is written,
but what is written cannot be read.
-/

namespace Tandem

open Json

namespace Params

def toDoc (params : Params) : Doc := .ofTable (.ofList .ofFloat) params.values

def ofDoc? (doc : Doc) : Option Params :=
  (doc.table? (Doc.list? Doc.float?)).map fun values => ⟨values, ""⟩

end Params

namespace Feed

/-- A feed; a missing selection is left out. -/
def toDoc (feed : Feed) : Doc :=
  .ofRecord <| ("upstream", .ofNat feed.source) ::
    match feed.selection with
    | none => []
    | some indices => [("indices", .ofList .ofNat indices)]

def selection? : Doc → Option (Option (List Nat))
  | .null => some none
  | doc => (doc.list? Doc.word?).map some

def ofDoc? (doc : Doc) : Option Feed := do
  match ← doc.record? [⟨"upstream", true⟩, ⟨"indices", false⟩] with
  | [source, selection] =>
      let source ← Doc.field Doc.word? source
      let selection ← Doc.fieldOr selection? none selection
      pure ⟨source, selection⟩
  | _ => none

end Feed

namespace PartitionPlan

def toDoc (p : PartitionPlan) : Doc :=
  .ofRecord [
    ("name", .ofString p.name),
    ("params", p.params.toDoc),
    ("params_from_upstream", .ofTable Feed.toDoc p.feeds),
    ("init_state_values", .ofList .ofFloat p.initial),
    ("seed", .ofNat p.seed.toNat),
    ("state_width", .ofNat p.width),
    ("state_history_depth", .ofNat p.depth)]

def fields : List Doc.Field := [
  ⟨"name", true⟩, ⟨"params", false⟩, ⟨"params_from_upstream", false⟩,
  ⟨"init_state_values", true⟩, ⟨"seed", false⟩, ⟨"state_width", true⟩,
  ⟨"state_history_depth", true⟩]

def ofDoc? (doc : Doc) : Option PartitionPlan := do
  match ← doc.record? fields with
  | [name, params, feeds, initial, seed, width, depth] =>
      let name ← Doc.field Doc.string? name
      let params ← Doc.fieldOr Params.ofDoc? Params.empty params
      let feeds ← Doc.fieldOr (Doc.table? Feed.ofDoc?) ∅ feeds
      let initial ← Doc.field (Doc.list? Doc.float?) initial
      let seed ← Doc.fieldOr Doc.word? 0 seed
      let width ← Doc.field Doc.word? width
      let depth ← Doc.field Doc.word? depth
      pure ⟨name, params, feeds, initial, .ofNat seed, width, depth⟩
  | _ => none

end PartitionPlan

namespace Plan

def toDoc (plan : Plan) : Doc :=
  .ofRecord [
    ("iterations", .ofList PartitionPlan.toDoc plan.partitions),
    ("init_time_value", .ofFloat plan.startTime),
    ("timesteps_history_depth", .ofNat plan.timelineDepth),
    ("parallel_groups", .ofList (.ofList .ofNat) plan.groups)]

def fields : List Doc.Field := [
  ⟨"iterations", true⟩, ⟨"init_time_value", false⟩, ⟨"timesteps_history_depth", true⟩,
  ⟨"parallel_groups", false⟩]

def ofDoc? (doc : Doc) : Option Plan := do
  match ← doc.record? fields with
  | [partitions, startTime, timelineDepth, groups] =>
      let partitions ← Doc.field (Doc.list? PartitionPlan.ofDoc?) partitions
      let startTime ← Doc.fieldOr Doc.float? 0 startTime
      let timelineDepth ← Doc.field Doc.word? timelineDepth
      let groups ← Doc.fieldOr (Doc.list? (Doc.list? Doc.word?)) [] groups
      pure ⟨partitions, startTime, timelineDepth, groups⟩
  | _ => none

def toText (plan : Plan) : String := plan.toDoc.indented

/-- Read a plan and make its partitions the owners of their params. -/
def ofText (text : String) : Except Fault Plan :=
  match Doc.parse? text with
  | none => .error (.invalid (.planText "not a document"))
  | some doc =>
      match ofDoc? doc with
      | none => .error (.invalid (.planText "not the document of a plan"))
      | some plan => .ok plan.tag

end Plan

end Tandem
