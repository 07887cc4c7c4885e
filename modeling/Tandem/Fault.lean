import Tandem.Decimal.Layout

/-!
# Faults, crashes and outcomes

A *fault* is a refusal: the request was understood and turned down, for a stated cause. A *crash* is a
computation cut short because it left the domain of one of its operations. Whatever can end in either
has an `Outcome`.
-/

namespace Tandem

abbrev State := List Float

inductive Issue where
  | zeroWindowDepth
  | initialWidth (found width : Nat)
  | noRows
  | rowWidth (row found expected : Nat)
  | insertedWidth (found width : Nat)
  | windowParts (count depth width : Nat)
  | zeroTimelineDepth
  | planText (reason : String)
  | zeroPlanTimelineDepth
  | zeroStateWidth (partition : String)
  | zeroStateDepth (partition : String)
  | initialCount (partition : String) (found width : Nat)
  | emptyGroup
  | groupOrder (expected found : Nat)
  | groupCover (covered total : Nat)
  | ruleCount (rules partitions : Nat)
  | nonPositiveMean (mean : Float)
  | stepBeforeFirst
  | notConfigured (partition : String)
  | varianceCount (partition : String) (found width : Nat)
  | noReplayData (partition : String)
  | auditNotConfigured (partition : String)
  | innerLost
  | innerRuleCount (rules partitions : Nat)
  | notPartitionIndex (partition param : String) (found : Float)
  | memoryDepths (partition : String) (depth elsewhere : Nat)
  | memoryTooDeep (depth timeline : Nat)
  | other (text : String)

inductive Fault where
  | duplicatePartition (name : String)
  | unknownPartition (referrer name : String)
  | partitionOutOfRange (index count : Nat)
  | selectionOutOfRange (partition param source : String) (index width : Nat)
  | missingParam (partition name : String)
  | paramOutOfRange (partition name : String) (index length : Nat)
  | invalid (issue : Issue)
  | noRunSpec
  | notReplaying (index : Nat)
  | feedCycle (partition : String)
  | wrongWidth (partition : String) (time : Float) (found expected : Nat)
  | nonFinite (partition : String) (time : Float) (values : State)
  | windowShape (partition : String) (time : Float) (detail : String)
  | rowNotKept (partition : String) (time : Float) (row : Nat) (found expected : State)
  | residue (partition : String)
  | ruleFailed (partition : String) (time : Float) (cause : Fault)
  | outputFailed (partition : String) (time : Float) (detail : String)
  | memoryExhausted (step depth : Nat)
  | workerCrashed (leader : String)
  | workerUnreached (leader : String)
  | feedUnavailable (partition param : String)
  | nothingPending (partition : String)

/-- Ways to leave the domain of an operation. -/
inductive Crash where
  | rowOutOfRange (row depth : Nat)
  | meanNotPositive
  /-- A list was indexed or sliced past its end, or a table asked for a key that it does not have. -/
  | outOfBounds
  | tooLarge
  /-- A run made as many steps as its counter can tell apart, and its stop condition never held. -/
  | endless
  /-- A behaviour supplied from outside gave up. -/
  | raised
  deriving DecidableEq, Repr

inductive Stop where
  | fault (fault : Fault)
  | crash (crash : Crash)

abbrev Outcome (α : Type) := Except Stop α

instance : MonadLift (Except Fault) (Except Stop) where
  monadLift x := x.mapError .fault

instance : MonadLift (Except Crash) (Except Stop) where
  monadLift x := x.mapError .crash

def Crash.message? : Crash → Option String
  | rowOutOfRange row depth => some s!"history row {row} out of range for depth {depth}"
  | meanNotPositive => some "mean must be positive"
  | _ => none

namespace Issue

def message : Issue → String
  | zeroWindowDepth => "state history depth must be > 0"
  | initialWidth found width => s!"initial state has width {found} but history width is {width}"
  | noRows => "state history needs at least one row"
  | rowWidth row found expected => s!"row {row} has width {found} but expected {expected}"
  | insertedWidth found width =>
      s!"cannot insert row of width {found} into history of width {width}"
  | windowParts count depth width =>
      s!"state history of {count} values cannot have depth {depth} and width {width}"
  | zeroTimelineDepth => "timesteps history depth must be > 0"
  | planText reason => s!"settings json: {reason}"
  | zeroPlanTimelineDepth => "timesteps_history_depth must be > 0"
  | zeroStateWidth partition => s!"partition: {partition} has zero state width"
  | zeroStateDepth partition => s!"partition: {partition} has zero state history depth"
  | initialCount partition found width =>
      s!"partition: {partition} has {found} initial values but state width {width}"
  | emptyGroup => "parallel groups must not be empty"
  | groupOrder expected found =>
      "parallel groups must list partitions contiguously in index order: " ++
        s!"expected {expected} but found {found}"
  | groupCover covered total => s!"parallel groups cover {covered} of {total} partitions"
  | ruleCount rules partitions => s!"{rules} iterations supplied for {partitions} partitions"
  | nonPositiveMean mean =>
      "exponential timestep mean must be positive and finite, got " ++
        Decimal.Layout.sentence.float mean
  | stepBeforeFirst => "timestep requested before the first step"
  | notConfigured partition => s!"partition: {partition} iterated before configure"
  | varianceCount partition found width =>
      s!"partition: {partition} has {found} variances for state width {width}"
  | noReplayData partition => s!"partition: {partition} has no history data to replay"
  | auditNotConfigured partition =>
      s!"harness for partition: {partition} iterated before configure"
  | innerLost => "embedded implementations were lost after a failed inner run"
  | innerRuleCount rules partitions =>
      s!"embedded simulation has {rules} iterations for {partitions} partitions"
  | notPartitionIndex partition param found =>
      s!"partition: {partition}, param: {param} must hold a partition index, found " ++
        Decimal.Layout.sentence.float found
  | memoryDepths partition depth elsewhere =>
      s!"state memory partitions must share one history depth: {partition} keeps {depth} " ++
        s!"but another keeps {elsewhere}"
  | memoryTooDeep depth timeline =>
      s!"state memory depth {depth} exceeds timesteps history depth {timeline}"
  | other text => text

end Issue

namespace Fault

def timeText (time : Float) : String := Decimal.Layout.sentence.float time

def stateText (values : State) : String :=
  "[" ++ ", ".intercalate (values.map Decimal.Layout.bracketed.float) ++ "]"

def rangeText (length : Nat) : String :=
  if length = 0 then "empty" else s!"0-{length - 1}"

def message : Fault → String
  | duplicatePartition name => s!"partition with name {name} already exists"
  | unknownPartition referrer name => s!"partition: {referrer} references unknown partition: {name}"
  | partitionOutOfRange index count =>
      s!"partition index {index} is out of range for {count} partitions"
  | selectionOutOfRange partition param source index width =>
      s!"partition: {partition}, param: {param} selects index {index} from upstream " ++
        s!"{source} of width {width}"
  | missingParam partition name => s!"partition: {partition} does not have params set for: {name}"
  | paramOutOfRange partition name index length =>
      s!"partition: {partition}, param: {name}, index out of range: {index}, valid range: " ++
        rangeText length
  | invalid issue => "Invalid config: " ++ issue.message
  | noRunSpec => "no simulation config has been set in the generator"
  | notReplaying index => s!"internal state partition {index} is not a from-history iteration"
  | feedCycle partition =>
      s!"partition: {partition} reads an upstream state that cannot be computed before it " ++
        "in the same step"
  | wrongWidth partition time found expected =>
      s!"partition: {partition}, time: {timeText time} output state is wrong width... " ++
        s!"{found} should be: {expected}"
  | nonFinite partition time values =>
      s!"partition: {partition}, time: {timeText time} output state has non-finite values: " ++
        stateText values
  | windowShape partition time detail =>
      s!"partition: {partition}, time: {timeText time} state history has wrong shape: {detail}"
  | rowNotKept partition time row found expected =>
      s!"partition: {partition}, time: {timeText time}, history depth: {row} past state in history " ++
        s!"isn't retained properly... {stateText found} should be: {stateText expected}"
  | residue partition => s!"outputs pre- and post-reset don't match for partition: {partition}"
  | ruleFailed partition time cause =>
      s!"partition: {partition}, time: {timeText time} iteration failed: " ++ cause.message
  | outputFailed partition time detail =>
      s!"partition: {partition}, time: {timeText time} output failed: {detail}"
  | memoryExhausted step depth =>
      s!"timesteps have gone beyond the available data: step {step}, window depth {depth}"
  | workerCrashed leader => s!"worker for partition group starting at {leader} panicked"
  | workerUnreached leader =>
      s!"worker for partition group starting at {leader} disconnected before handoff"
  | feedUnavailable partition param =>
      s!"partition: {partition}, param: {param} upstream state was never sent"
  | nothingPending partition => s!"partition: {partition} has no pending state to commit"

/-- The cause at the bottom of a chain of failed rules. -/
def root : Fault → Fault
  | ruleFailed _ _ cause => cause.root
  | fault => fault

/-- Whether the root cause lies in the configuration, not in a run. -/
def isConfiguration (fault : Fault) : Bool :=
  match fault.root with
  | duplicatePartition _ | unknownPartition _ _ | partitionOutOfRange _ _
  | selectionOutOfRange _ _ _ _ _ | missingParam _ _ | paramOutOfRange _ _ _ _ | invalid _
  | noRunSpec | notReplaying _ | feedCycle _ => true
  | _ => false

end Fault

end Tandem
