import Tandem.Plan.Basic
import Tandem.Window
import Tandem.Timeline
import Tandem.Emission

/-!
# Update rules

An update rule computes the next state of a partition. It sees its params, the windows of all partitions
as they were before the step, and the timeline; what else it remembers is its own state. A call returns
that state also when it fails, because a rule may have changed it before failing.
-/

namespace Tandem

/-- What every rule sees of a simulation during a step. -/
structure View where
  windows : List Window
  timeline : Timeline

namespace View

def window (view : View) (index : Nat) : Except Crash Window :=
  match view.windows[index]? with
  | some window => .ok window
  | none => .error .outOfBounds

def latest (view : View) (index : Nat) : Except Crash State := do
  let window ← view.window index
  window.latest

end View

/-- What a call returns: its result, the state after it, and what it emitted on the way, in order. -/
structure Reply (ε σ α : Type) where
  result : Outcome α
  next : σ
  emitted : List ε

namespace Reply

variable {ε σ υ α : Type}

def quiet (next : σ) (result : Outcome α) : Reply ε σ α := ⟨result, next, []⟩

def mapNext (f : σ → υ) (reply : Reply ε σ α) : Reply ε υ α :=
  ⟨reply.result, f reply.next, reply.emitted⟩

end Reply

structure Replay where
  data : Option Window

class UpdateRule (ρ : Type) where
  configure : Nat → Plan → ρ → Outcome Unit × ρ
  /-- The next state of the partition at an index. -/
  advance : Params → Nat → View → ρ → Reply Emission ρ State
  /-- The replaying rule inside the rule, if there is one. -/
  replay? : ρ → Option Replay := fun _ => none
  /-- Store a window in the replaying rule inside the rule. -/
  store : Window → ρ → ρ := fun _ rule => rule

end Tandem
