import Tandem.Timeline
import Tandem.Random.Xorshift

/-!
# Paces

A pace says by how much time advances in a step. It is asked once a step, before any rule, when the step
is already counted.
-/

namespace Tandem

class Pace (τ : Type) where
  /-- The increment of the step in progress, and the pace after it. -/
  next : Timeline → τ → Outcome Float × τ

structure ExponentialPace where
  mean : Float
  seed : UInt64
  stream : RandomStream
  deriving DecidableEq

namespace ExponentialPace

def new (mean : Float) (seed : UInt64) : Except Fault ExponentialPace :=
  if 0 < mean ∧ mean.isFinite then .ok ⟨mean, seed, .ofSeed seed⟩
  else .error (.invalid (.nonPositiveMean mean))

def next (pace : ExponentialPace) : Outcome Float × ExponentialPace :=
  match pace.stream.exponential pace.mean with
  | .ok (increment, stream) => (.ok increment, { pace with stream := stream })
  | .error crash => (.error (.crash crash), pace)

end ExponentialPace

structure ReplayPace where
  data : Timeline
  deriving DecidableEq

namespace ReplayPace

/-- In step `s` the increment leads from recorded time `depth - s` to time `depth - s - 1`. One step past
the newest recorded time it is the recorded increment; after that the record is used up. -/
def increment (step : Nat) (pace : ReplayPace) : Outcome Float :=
  let depth := pace.data.depth
  if step < depth then
    if step = 0 then .error (.fault (.invalid .stepBeforeFirst))
    else do
      let later ← pace.data.timeAt (depth - step - 1)
      let earlier ← pace.data.timeAt (depth - step)
      pure (later - earlier)
  else if step = depth then .ok pace.data.increment
  else .error (.fault (.memoryExhausted step depth))

instance : Pace ReplayPace where
  next timeline pace := (pace.increment timeline.step, pace)

end ReplayPace

inductive StockPace where
  | constant (size : Float)
  | exponential (pace : ExponentialPace)
  | replay (pace : ReplayPace)
  deriving DecidableEq

namespace StockPace

def next (timeline : Timeline) : StockPace → Outcome Float × StockPace
  | constant size => (.ok size, constant size)
  | exponential pace => pace.next.map id exponential
  | replay pace => (pace.increment timeline.step, replay pace)

instance : Pace StockPace := ⟨next⟩

end StockPace

end Tandem
