import Tandem.Output

/-!
# Partitions

A partition joins an update rule to its params, its feeds and the state it has computed but not yet
committed. A step uses it twice: `Partition.compute` takes in the states that feed it and computes the
pending state, and `Partition.commit` moves the pending state into the partition's window and offers it
to the output.
-/

namespace Tandem

structure Partition (ρ : Type) where
  rule : ρ
  params : Params
  name : String
  index : Nat
  feeds : Table String Feed
  pending : Option State

/-- States on their way to a partition, by param; `none` where the sender gave up. -/
abbrev Inbox := List (String × Option State)

namespace Partition

variable {ρ : Type}

/-- Set fed params from an inbox, in its order, up to the first that cannot be set. -/
def refresh (name : String) (feeds : Table String Feed) : Inbox → Params → Outcome Unit × Params
  | [], params => (.ok (), params)
  | (param, none) :: _, params => (.error (.fault (.feedUnavailable name param)), params)
  | (param, some state) :: rest, params =>
      match Feed.select ((feeds.get? param).bind (·.selection)) state with
      | .error crash => (.error (.crash crash), params)
      | .ok values => refresh name feeds rest (params.set param values)

def wrapFault (name : String) (time : Float) : Stop → Stop
  | .fault fault => .fault (.ruleFailed name time fault)
  | .crash crash => .crash crash

def checkWidth (name : String) (index : Nat) (view : View) (state : State) : Outcome State := do
  let window ← view.window index
  if state.length ≠ window.width then
    throw (.fault (.wrongWidth name view.timeline.next state.length window.width))
  else pure state

def callRule [UpdateRule ρ] (view : View) (p : Partition ρ) :
    Reply Emission (Partition ρ) State :=
  let reply := UpdateRule.advance p.params p.index view p.rule
  let p := { p with rule := reply.next }
  match reply.result with
  | .error stop => ⟨.error (wrapFault p.name view.timeline.next stop), p, reply.emitted⟩
  | .ok state =>
      match checkWidth p.name p.index view state with
      | .error stop => ⟨.error stop, p, reply.emitted⟩
      | .ok state => ⟨.ok state, { p with pending := some state }, reply.emitted⟩

/-- Take in the states of an inbox and compute the pending state. Params that were set stay set when a
later part fails. -/
def compute [UpdateRule ρ] (view : View) (inbox : Inbox) (p : Partition ρ) :
    Reply Emission (Partition ρ) State :=
  match refresh p.name p.feeds inbox p.params with
  | (.error stop, params) => ⟨.error stop, { p with params := params }, []⟩
  | (.ok (), params) => callRule view { p with params := params }

def discard (p : Partition ρ) : Partition ρ := { p with pending := none }

def begin (output : Output) (initial : State) (time : Float) (p : Partition ρ) :
    Reply Emission (Partition ρ) Unit :=
  let (result, emitted) := output.offer ⟨p.name, time, initial⟩ 0
  ⟨result, p, emitted⟩

/-- Move the pending state into `window` and offer it to the output. -/
def commit (output : Output) (time : Float) (step : Nat) (window : Window) (p : Partition ρ) :
    Reply Emission (Partition ρ × Window) Unit :=
  match p.pending with
  | none => ⟨.error (.fault (.nothingPending p.name)), (p, window), []⟩
  | some state =>
      let p := p.discard
      match window.push state with
      | .error stop => ⟨.error stop, (p, window), []⟩
      | .ok window =>
          let (result, emitted) := output.offer ⟨p.name, time, state⟩ step
          ⟨result, (p, window), emitted⟩

end Partition

end Tandem
