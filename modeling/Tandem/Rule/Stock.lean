import Tandem.Rule.Basic
import Tandem.Random.Xorshift

/-!
# Stock rules

Four rules that need no other rule: hold the state, relay a param, random walk, and replay of a stored
window. `StockRule` is their sum.
-/

namespace Tandem

/-! ## Hold -/

def holdState (index : Nat) (view : View) : Outcome State := liftM (view.latest index)

/-! ## Relay -/

namespace Relay

def param : String := "param_values"

def state (params : Params) : Outcome State := liftM (params.get param)

end Relay

/-! ## Random walk -/

/-- A random walk: independent Wiener processes, one for each element. The stream starts when the rule
is configured. -/
structure Walk where
  stream : Option RandomStream
  deriving DecidableEq, Repr

namespace Walk

def param : String := "variances"

def new : Walk := ⟨none⟩

def configure (index : Nat) (plan : Plan) (walk : Walk) : Outcome Unit × Walk :=
  match plan.partition index with
  | .ok p => (.ok (), ⟨some (.ofSeed p.seed)⟩)
  | .error fault => (.error (.fault fault), walk)

/-- Add a normal draw of variance `rate * dt` to each element, first to last. -/
def drift (dt : Float) : List (Float × Float) → RandomStream → State × RandomStream
  | [], stream => ([], stream)
  | (value, rate) :: rest, stream =>
      let (draw, stream) := stream.normal
      let (values, stream) := drift dt rest stream
      ((value + Float.sqrt (rate * dt) * draw) :: values, stream)

def inputs (params : Params) (index : Nat) (view : View) : Outcome (List (Float × Float)) := do
  let rates ← params.get param
  let current ← view.latest index
  if rates.length ≠ current.length then
    throw (.fault (.invalid (.varianceCount params.ownerName rates.length current.length)))
  else pure (current.zip rates)

def advance (params : Params) (index : Nat) (view : View) (walk : Walk) :
    Reply Emission Walk State :=
  match walk.stream with
  | none => .quiet walk (.error (.fault (.invalid (.notConfigured params.ownerName))))
  | some stream =>
      match inputs params index view with
      | .error stop => .quiet walk (.error stop)
      | .ok pairs =>
          let (state, stream) := drift view.timeline.increment pairs stream
          .quiet ⟨some stream⟩ (.ok state)

end Walk

/-! ## Replay -/

namespace Replay

def param : String := "latest_data_values"

/-- The state of step `s` is row `depth - s - 1` of the stored window, so that row `depth - 1` can serve
as the initial state. One step past the newest row it is a param; after that the window is used up. -/
def state (params : Params) (step : Nat) (replay : Replay) : Outcome State :=
  match replay.data with
  | none => .error (.fault (.invalid (.noReplayData params.ownerName)))
  | some data =>
      if step < data.depth then liftM (data.row (data.depth - step - 1))
      else if step = data.depth then liftM (params.get param)
      else .error (.fault (.memoryExhausted step data.depth))

end Replay

/-! ## Their sum -/

inductive StockRule where
  | hold
  | relay
  | walk (walk : Walk)
  | replay (replay : Replay)

namespace StockRule

/-- Only a walk has anything to prepare. -/
def configure (index : Nat) (plan : Plan) : StockRule → Outcome Unit × StockRule
  | walk w => (w.configure index plan).map id walk
  | rule => (.ok (), rule)

def advance (params : Params) (index : Nat) (view : View) : StockRule → Reply Emission StockRule State
  | hold => .quiet hold (holdState index view)
  | relay => .quiet relay (Relay.state params)
  | walk w => (w.advance params index view).mapNext walk
  | replay r => .quiet (replay r) (r.state params view.timeline.step)

def replay? : StockRule → Option Replay
  | replay r => some r
  | _ => none

def store (window : Window) : StockRule → StockRule
  | replay _ => replay ⟨some window⟩
  | rule => rule

instance : UpdateRule StockRule where
  configure := configure
  advance := advance
  replay? := replay?
  store := store

end StockRule

end Tandem
