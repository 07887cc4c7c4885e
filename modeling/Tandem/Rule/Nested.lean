import Tandem.Simulation.Step
import Tandem.Rule.Stock

/-!
# Simulations inside a rule

A nested rule runs a whole inner simulation to its end in every step of its partition, and its state is
the inner partitions' final states one after the other. Params named `k/name` of the enclosing partition
set `name` of inner partition `k` for one run.

Without a memory the inner run goes forward from the enclosing current time. With a memory it replays the
enclosing windows: each mapped inner partition replays the window of an enclosing partition, and time
follows the enclosing timeline over the same depth.
-/

namespace Tandem

/-- A rule that runs an inner simulation. The inner behaviour is missing after a run that could not be
built or that crashed, since such a run does not give it back. -/
structure Nested (ρ τ : Type) where
  plan : Plan
  behaviour : Option (Behaviour ρ τ)
  /-- Enclosing partition index to inner partition index. -/
  memory : Table Nat Nat
  /-- The depth that the windows of the mapped enclosing partitions share. -/
  depth : Nat
  /-- Steps below this number keep the current state. -/
  burnIn : Nat

namespace Nested

/-! ## Names of params -/

def burnInParam : String := "burn_in_steps"

def startTimeParam : String := "init_time_value"

def initialName : String := "init_state_values"

def memoryName : String := "state_memory_partition"

def wordOfDigits? (cs : List Char) : Option Nat :=
  if cs ≠ [] ∧ cs.all Char.isDigit then
    let n := Decimal.digitsValue cs
    if n < Word.count then some n else none
  else none

def index? : List Char → Option Nat
  | '+' :: cs => wordOfDigits? cs
  | cs => wordOfDigits? cs

/-- Split `k/name` into the index and a name that is not empty. -/
def route? (name : String) : Option (Nat × String) :=
  let cs := name.toList
  match cs.dropWhile (· ≠ '/') with
  | _ :: c :: rest => (index? (cs.takeWhile (· ≠ '/'))).map fun k => (k, String.ofList (c :: rest))
  | _ => none

variable {ρ τ : Type}

def new (plan : Plan) (behaviour : Behaviour ρ τ) : Nested ρ τ := ⟨plan, some behaviour, ∅, 0, 0⟩

/-! ## Configuration -/

/-- The word that a number becomes when its fraction is dropped; the nearest word if it is out of
range, and zero for what is no number. -/
def truncate (x : Float) : Nat := x.toUInt64.toNat

def isWhole (x : Float) : Bool := decide (4503599627370496 ≤ x) || x.toUInt64.toFloat == x

def partitionIndex (params : Params) (name : String) : Except Fault Nat := do
  let value ← params.getIndex name 0
  if !value.isFinite || value < 0 || !isWhole value then
    throw (.invalid (.notPartitionIndex params.ownerName name value))
  else pure (truncate value)

/-- The memory that params declare, in name order; an enclosing partition that is declared twice keeps
its last inner partition. -/
def readMemory (params : Params) : List String → Table Nat Nat → Except Fault (Table Nat Nat)
  | [], memory => .ok memory
  | name :: rest, memory =>
      match route? name with
      | some (inner, field) =>
          if field = memoryName then do
            let outer ← partitionIndex params name
            readMemory params rest (memory.insert outer inner)
          else readMemory params rest memory
      | none => readMemory params rest memory

def checkReplaying [UpdateRule ρ] (rules : List ρ) : List Nat → Except Fault Unit
  | [] => .ok ()
  | inner :: rest =>
      match rules[inner]? with
      | none => .error (.partitionOutOfRange inner rules.length)
      | some rule =>
          if (UpdateRule.replay? rule).isNone then .error (.notReplaying inner)
          else checkReplaying rules rest

/-- The depth that all mapped enclosing partitions share, given the depth of those before; 0 before
any. -/
def sharedDepth (plan : Plan) : List Nat → Nat → Except Fault Nat
  | [], depth => .ok depth
  | outer :: rest, depth => do
      let p ← plan.partition outer
      if depth ≠ 0 ∧ p.depth ≠ depth then throw (.invalid (.memoryDepths p.name p.depth depth))
      else sharedDepth plan rest p.depth

def findMemory [UpdateRule ρ] (params : Params) (plan : Plan) (rules : List ρ) :
    Except Fault (Table Nat Nat × Nat) := do
  let memory ← readMemory params params.names ∅
  checkReplaying rules memory.values
  let depth ← sharedDepth plan memory.keys 0
  if plan.timelineDepth < depth then
    throw (.invalid (.memoryTooDeep depth plan.timelineDepth))
  else pure (memory, depth)

/-- Set memory, depth and burn-in from the enclosing plan; the first two stay set if the last is
refused. -/
def readParams [UpdateRule ρ] (params : Params) (plan : Plan) (rules : List ρ)
    (nested : Nested ρ τ) : Outcome Unit × Nested ρ τ :=
  match findMemory params plan rules with
  | .error fault => (.error (.fault fault), nested)
  | .ok (memory, depth) =>
      let nested := { nested with memory, depth }
      match params.getIndexD burnInParam 0 0 with
      | .error fault => (.error (.fault fault), nested)
      | .ok steps => (.ok (), { nested with burnIn := truncate steps })

def configure [UpdateRule ρ] (index : Nat) (plan : Plan) (nested : Nested ρ τ) :
    Outcome Unit × Nested ρ τ :=
  let nested := { nested with plan := nested.plan.tag }
  match nested.behaviour with
  | none => (.error (.fault (.invalid .innerLost)), nested)
  | some behaviour =>
      if behaviour.rules.length ≠ nested.plan.size then
        (.error (.fault (.invalid (.innerRuleCount behaviour.rules.length nested.plan.size))), nested)
      else
        let (result, behaviour) := behaviour.configure nested.plan
        let nested := { nested with behaviour := some behaviour }
        match result with
        | .error stop => (.error stop, nested)
        | .ok () =>
            match plan.partition index with
            | .error fault => (.error (.fault fault), nested)
            | .ok p => readParams p.params plan behaviour.rules nested

/-! ## Runs -/

def overridePartition (name : String) (values : List Float) (p : PartitionPlan) : PartitionPlan :=
  if name = initialName then { p with initial := values }
  else if name = memoryName then p
  else { p with params := p.params.set name values }

/-- Apply overrides in order, up to the first for an inner partition that there is not. -/
def applyOverrides : List (String × List Float) → Plan → Except Fault Plan
  | [], plan => .ok plan
  | (name, values) :: rest, plan =>
      match route? name with
      | none => applyOverrides rest plan
      | some (inner, field) => do
          let p ← plan.partition inner
          applyOverrides rest
            { plan with partitions := plan.partitions.set inner (overridePartition field values p) }

def overridden (params : Params) (nested : Nested ρ τ) : Except Fault Plan :=
  applyOverrides params.values.entries nested.plan

def finalState (sim : Simulation ρ τ) : Except Crash State := do
  let states ← sim.windows.mapM Window.latest
  pure states.flatten

/-- Run a simulation from its beginning to its end: its final state, its behaviour if it gives it back,
and what it let out. -/
def runToEnd [UpdateRule ρ] [Pace τ] (plan : Plan) (behaviour : Behaviour ρ τ) :
    Reply Emission (Option (Behaviour ρ τ)) State :=
  match Simulation.start plan behaviour with
  | (.error stop, events) => ⟨.error stop, none, events.map Event.emission⟩
  | (.ok sim, events) =>
      let reply := sim.run
      let emitted := (events ++ reply.emitted).map Event.emission
      match reply.result with
      | .error (.crash crash) => ⟨.error (.crash crash), none, emitted⟩
      | .error (.fault fault) => ⟨.error (.fault fault), some reply.next.behaviour, emitted⟩
      | .ok () => ⟨liftM (finalState reply.next), some reply.next.behaviour, emitted⟩

def runForward [UpdateRule ρ] [Pace τ] (plan : Plan) (nested : Nested ρ τ) :
    Reply Emission (Nested ρ τ) State :=
  match plan.check with
  | .error fault => .quiet nested (.error (.fault fault))
  | .ok () =>
      match nested.behaviour with
      | none => .quiet nested (.error (.fault (.invalid .innerLost)))
      | some behaviour =>
          let reply := runToEnd plan behaviour
          ⟨reply.result, { nested with behaviour := reply.next }, reply.emitted⟩

/-- Run the inner simulation along a recorded timeline; its own pace rests meanwhile. -/
def runReplay [UpdateRule ρ] (plan : Plan) (record : Timeline) (nested : Nested ρ τ) :
    Reply Emission (Nested ρ τ) State :=
  match plan.check with
  | .error fault => .quiet nested (.error (.fault fault))
  | .ok () =>
      match nested.behaviour with
      | none => .quiet nested (.error (.fault (.invalid .innerLost)))
      | some behaviour =>
          let reply := runToEnd plan { behaviour with pace := ReplayPace.mk record }
          let restored := reply.next.map fun b => { b with pace := behaviour.pace }
          ⟨reply.result, { nested with behaviour := restored }, reply.emitted⟩

def recordOf (depth : Nat) (timeline : Timeline) : Except Fault Timeline :=
  if timeline.depth < depth then .error (.invalid (.memoryTooDeep depth timeline.depth))
  else Timeline.ofTimes (timeline.times.take depth) timeline.increment timeline.step

/-- Store the window of each mapped enclosing partition in its inner rule, and start the inner partition
from the oldest row. What was stored before a failure stays stored. -/
def loadMemory [UpdateRule ρ] (view : View) (depth : Nat) :
    List (Nat × Nat) → Plan → List ρ → Outcome Plan × List ρ
  | [], plan, rules => (.ok plan, rules)
  | (outer, inner) :: rest, plan, rules =>
      match (do let data ← view.window outer; pure (data, ← data.row (depth - 1)) :
          Except Crash (Window × State)) with
      | .error crash => (.error (.crash crash), rules)
      | .ok (data, initial) =>
          match plan.partitions[inner]?, rules[inner]? with
          | some p, some rule =>
              if (UpdateRule.replay? rule).isNone then
                (.error (.fault (.notReplaying inner)), rules)
              else
                loadMemory view depth rest
                  { plan with partitions := plan.partitions.set inner { p with initial } }
                  (rules.set inner (UpdateRule.store data rule))
          | _, _ => (.error (.crash .outOfBounds), rules)

def replay [UpdateRule ρ] (view : View) (plan : Plan) (nested : Nested ρ τ) :
    Reply Emission (Nested ρ τ) State :=
  match recordOf nested.depth view.timeline with
  | .error fault => .quiet nested (.error (.fault fault))
  | .ok record =>
      match record.timeAt (nested.depth - 1) with
      | .error crash => .quiet nested (.error (.crash crash))
      | .ok startTime =>
          match nested.behaviour with
          | none => .quiet nested (.error (.fault (.invalid .innerLost)))
          | some behaviour =>
              let (loaded, rules) := loadMemory view nested.depth nested.memory.entries
                { plan with startTime } behaviour.rules
              let nested := { nested with behaviour := some { behaviour with rules } }
              match loaded with
              | .error stop => .quiet nested (.error stop)
              | .ok plan => runReplay plan record nested

/-- The next state: the current one during burn-in, and the final state of an inner run after it. -/
def advance [UpdateRule ρ] [Pace τ] (params : Params) (index : Nat) (view : View)
    (nested : Nested ρ τ) : Reply Emission (Nested ρ τ) State :=
  if view.timeline.step < nested.burnIn then .quiet nested (holdState index view)
  else
    match nested.overridden params with
    | .error fault => .quiet nested (.error (.fault fault))
    | .ok plan =>
        if nested.memory.isEmpty then
          match params.getIndexD startTimeParam 0 view.timeline.current with
          | .error fault => .quiet nested (.error (.fault fault))
          | .ok startTime => runForward { plan with startTime } nested
        else replay view plan nested

instance [UpdateRule ρ] [Pace τ] : UpdateRule (Nested ρ τ) where
  configure := configure
  advance := advance

end Nested

end Tandem
