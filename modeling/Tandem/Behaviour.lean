import Tandem.Pace
import Tandem.Output

/-!
# Behaviours

A behaviour is what a plan leaves open: the rule of each partition, the output, the stop condition and
the pace.
-/

namespace Tandem

/-- The behaviour of a simulation; `rules` are listed by partition index. -/
structure Behaviour (ρ τ : Type) where
  rules : List ρ
  output : Output
  stop : StopCondition
  pace : τ

/-- Configure rules for the partitions from `index` on, up to the first that refuses. -/
def configureRules {ρ : Type} [UpdateRule ρ] (plan : Plan) (index : Nat) :
    List ρ → Outcome Unit × List ρ
  | [] => (.ok (), [])
  | rule :: rest =>
      match UpdateRule.configure index plan rule with
      | (.ok (), rule) =>
          let (result, rest) := configureRules plan (index + 1) rest
          (result, rule :: rest)
      | (.error stop, rule) => (.error stop, rule :: rest)

namespace Behaviour

variable {ρ τ : Type}

def new (rules : List ρ) (stop : StopCondition) (pace : τ) : Behaviour ρ τ :=
  ⟨rules, .silent, stop, pace⟩

def configure [UpdateRule ρ] (plan : Plan) (behaviour : Behaviour ρ τ) :
    Outcome Unit × Behaviour ρ τ :=
  let (result, rules) := configureRules plan 0 behaviour.rules
  (result, { behaviour with rules := rules })

end Behaviour

end Tandem
