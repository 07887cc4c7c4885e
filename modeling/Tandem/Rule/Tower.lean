import Tandem.Rule.Nested
import Tandem.Rule.Audited

/-!
# Rules of any nesting

A layer over a kind of rules adds two: an inner simulation of such rules, and such a rule under audit. A
tower is a kind of rules with a given number of layers over it.
-/

namespace Tandem

/-- One layer over the rules `ρ`. -/
inductive Layer (ρ τ : Type) where
  | plain (rule : ρ)
  | nested (nested : Nested ρ τ)
  | audited (audited : Audited ρ)

namespace Layer

variable {ρ τ : Type}

def configure [UpdateRule ρ] [Pace τ] (index : Nat) (plan : Plan) :
    Layer ρ τ → Outcome Unit × Layer ρ τ
  | plain rule => (UpdateRule.configure index plan rule).map id plain
  | nested rule => (UpdateRule.configure index plan rule).map id nested
  | audited rule => (UpdateRule.configure index plan rule).map id audited

def advance [UpdateRule ρ] [Pace τ] (params : Params) (index : Nat) (view : View) :
    Layer ρ τ → Reply Emission (Layer ρ τ) State
  | plain rule => (UpdateRule.advance params index view rule).mapNext plain
  | nested rule => (UpdateRule.advance params index view rule).mapNext nested
  | audited rule => (UpdateRule.advance params index view rule).mapNext audited

/-- An inner simulation hides its replaying rules; the other kinds show theirs. -/
def replay? [UpdateRule ρ] : Layer ρ τ → Option Replay
  | plain rule => UpdateRule.replay? rule
  | nested _ => none
  | audited rule => UpdateRule.replay? rule

def store [UpdateRule ρ] (window : Window) : Layer ρ τ → Layer ρ τ
  | plain rule => plain (UpdateRule.store window rule)
  | nested rule => nested rule
  | audited rule => audited (UpdateRule.store window rule)

instance [UpdateRule ρ] [Pace τ] : UpdateRule (Layer ρ τ) where
  configure := configure
  advance := advance
  replay? := replay?
  store := store

end Layer

/-- `n` layers over the rules `ρ`. -/
def Tower (ρ τ : Type) : Nat → Type
  | 0 => ρ
  | n + 1 => Layer (Tower ρ τ n) τ

namespace Tower

@[reducible] def updateRule {ρ τ : Type} [UpdateRule ρ] [Pace τ] :
    (n : Nat) → UpdateRule (Tower ρ τ n)
  | 0 => inferInstanceAs (UpdateRule ρ)
  | n + 1 =>
      have := updateRule (ρ := ρ) (τ := τ) n
      inferInstanceAs (UpdateRule (Layer (Tower ρ τ n) τ))

instance {ρ τ : Type} [UpdateRule ρ] [Pace τ] (n : Nat) : UpdateRule (Tower ρ τ n) := updateRule n

def leaf {ρ τ : Type} (rule : ρ) : (n : Nat) → Tower ρ τ n
  | 0 => rule
  | n + 1 => Layer.plain (leaf rule n)

end Tower

end Tandem
