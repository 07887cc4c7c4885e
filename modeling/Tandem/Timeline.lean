import Tandem.Fault
import Tandem.Word

/-!
# Timelines

A timeline keeps the last few cumulative times of a simulation, the current one first, together with
the number of the step in progress and the increment that step adds.
-/

namespace Tandem

/-- Cumulative times, most recent first, and the step in progress. There is always a current time. -/
structure Timeline where
  current : Float
  past : List Float
  increment : Float
  step : Nat
  deriving DecidableEq

namespace Timeline

def times (timeline : Timeline) : List Float := timeline.current :: timeline.past

def depth (timeline : Timeline) : Nat := timeline.past.length + 1

/-- A timeline of `depth` times that starts at `start`, with zeros before it. -/
def new (depth : Nat) (start : Float) : Outcome Timeline :=
  if depth = 0 then .error (.fault (.invalid .zeroTimelineDepth))
  else if Word.room ≤ depth then .error (.crash .tooLarge)
  else .ok ⟨start, List.replicate (depth - 1) 0, 0, 0⟩

def ofTimes (times : List Float) (increment : Float) (step : Nat) : Except Fault Timeline :=
  match times with
  | [] => .error (.invalid .zeroTimelineDepth)
  | current :: past => .ok ⟨current, past, increment, step⟩

def timeAt (timeline : Timeline) (index : Nat) : Except Crash Float :=
  match timeline.times[index]? with
  | some time => .ok time
  | none => .error .outOfBounds

def next (timeline : Timeline) : Float := timeline.current + timeline.increment

def beginStep (timeline : Timeline) : Timeline :=
  { timeline with step := Word.wrap (timeline.step + 1) }

/-- Take back a step that came to nothing, and with it its increment. -/
def abandonStep (timeline : Timeline) (previous : Float) : Timeline :=
  { timeline with step := timeline.step - 1, increment := previous }

def setIncrement (timeline : Timeline) (increment : Float) : Timeline :=
  { timeline with increment := increment }

def push (timeline : Timeline) (time : Float) : Timeline :=
  { timeline with current := time, past := timeline.times.dropLast }

@[simp]
theorem length_times (timeline : Timeline) : timeline.times.length = timeline.depth := rfl

@[simp]
theorem times_push (timeline : Timeline) (time : Float) :
    (timeline.push time).times = time :: timeline.times.dropLast := rfl

@[simp]
theorem depth_push (timeline : Timeline) (time : Float) :
    (timeline.push time).depth = timeline.depth := by
  simp [depth, push, times]

end Timeline

end Tandem
