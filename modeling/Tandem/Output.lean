import Tandem.Rule.Basic

/-!
# Output and the end of a run

An output says which committed states are wanted and what becomes of them. A stop condition says, between
steps, whether a run is over.
-/

namespace Tandem

/-- Which states are wanted, by record and step number, and how a wanted one is delivered. -/
structure Output where
  due : Record → Nat → Except Crash Bool
  deliver : Record → Outcome Unit × List Emission

namespace Output

/-! ## Conditions -/

def never : Record → Nat → Except Crash Bool := fun _ _ => .ok false

def always : Record → Nat → Except Crash Bool := fun _ _ => .ok true

/-- The states of every `n`-th step, the initial one included; none if `n` is zero. -/
def everyNth (n : Nat) : Record → Nat → Except Crash Bool :=
  fun _ step => .ok (decide (0 < n ∧ step % n = 0))

/-! ## Destinations -/

def discard : Record → Outcome Unit × List Emission := fun _ => (.ok (), [])

def keepIn (archive : String) : Record → Outcome Unit × List Emission :=
  fun record => (.ok (), [⟨archive, record⟩])

def silent : Output := ⟨never, discard⟩

def recordAll (archive : String) : Output := ⟨always, keepIn archive⟩

/-- Deliver a state if it is wanted. The fault of a delivery is reported in words. -/
def offer (output : Output) (record : Record) (step : Nat) : Outcome Unit × List Emission :=
  match output.due record step with
  | .error crash => (.error (.crash crash), [])
  | .ok false => (.ok (), [])
  | .ok true =>
      match output.deliver record with
      | (.error (.fault fault), emitted) =>
          (.error (.fault (.outputFailed record.series record.time fault.message)), emitted)
      | delivered => delivered

end Output

/-- Whether a run is over, judged by what it looks like between steps. -/
abbrev StopCondition := View → Except Crash Bool

namespace StopCondition

def steps (n : Nat) : StopCondition := fun view => .ok (decide (n ≤ view.timeline.step))

def time (limit : Float) : StopCondition := fun view => .ok (decide (limit ≤ view.timeline.current))

end StopCondition

end Tandem
