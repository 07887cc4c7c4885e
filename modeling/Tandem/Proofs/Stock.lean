import Tandem.Rule.Tower

/-!
# What stock rules look at

A stock rule reads its params, the window of its own partition, and the increment and the number of the
step; of a plan it reads at most the seed of its own partition. A stock pace reads the number of the step.
Whatever else two simulations differ in, stock rules and stock paces do not notice.
-/

namespace Tandem

/-- What the view shows to partition `i` of itself and of the step, the other view shows to partition `j`. -/
structure View.MatchAt (view : View) (i : Nat) (other : View) (j : Nat) : Prop where
  window : view.windows[i]? = other.windows[j]?
  increment : view.timeline.increment = other.timeline.increment
  step : view.timeline.step = other.timeline.step

theorem View.MatchAt.latest {view other : View} {i j : Nat} (h : view.MatchAt i other j) :
    view.latest i = other.latest j := by
  simp only [View.latest, View.window, h.window]

theorem Plan.partition_eq_ok {plan : Plan} {i : Nat} {p : PartitionPlan}
    (h : plan.partitions[i]? = some p) : plan.partition i = .ok p := by
  rw [Plan.partition, h]

/-! ## Rules -/

section

variable {view other : View} {i j : Nat}

theorem Walk.advance_congr (h : view.MatchAt i other j) (params : Params) (walk : Walk) :
    walk.advance params i view = walk.advance params j other := by
  have hinputs : Walk.inputs params i view = Walk.inputs params j other := by
    simp only [Walk.inputs, h.latest]
  simp only [Walk.advance, hinputs, h.increment]

namespace StockRule

theorem advance_congr (h : view.MatchAt i other j) (params : Params) (rule : StockRule) :
    rule.advance params i view = rule.advance params j other := by
  cases rule with
  | hold => simp only [advance, holdState, h.latest]
  | relay => rfl
  | walk walk => exact congrArg (Reply.mapNext StockRule.walk) (walk.advance_congr h params)
  | replay replay => simp only [advance, h.step]

theorem configure_congr {plan other : Plan} {p q : PartitionPlan} (hp : plan.partitions[i]? = some p)
    (hq : other.partitions[j]? = some q) (hseed : p.seed = q.seed) (rule : StockRule) :
    rule.configure i plan = rule.configure j other := by
  cases rule with
  | walk walk =>
      simp only [configure, Walk.configure, Plan.partition_eq_ok hp, Plan.partition_eq_ok hq, hseed]
  | hold => rfl
  | relay => rfl
  | replay replay => rfl

end StockRule

end

/-- Rules among which are the stock rules. -/
class StockRules (ρ : Type) [UpdateRule ρ] where
  ofStock : StockRule → ρ
  configure_ofStock (index : Nat) (plan : Plan) (rule : StockRule) :
    UpdateRule.configure index plan (ofStock rule) = (rule.configure index plan).map id ofStock
  advance_ofStock (params : Params) (index : Nat) (view : View) (rule : StockRule) :
    UpdateRule.advance params index view (ofStock rule) =
      (rule.advance params index view).mapNext ofStock

instance : StockRules StockRule where
  ofStock := id
  configure_ofStock _ _ _ := rfl
  advance_ofStock _ _ _ _ := rfl

variable {ρ τ : Type} [UpdateRule ρ] [StockRules ρ] [Pace τ]

instance : StockRules (Layer ρ τ) where
  ofStock rule := .plain (StockRules.ofStock rule)
  configure_ofStock index plan rule :=
    congrArg (Prod.map id Layer.plain) (StockRules.configure_ofStock index plan rule)
  advance_ofStock params index view rule :=
    congrArg (Reply.mapNext Layer.plain) (StockRules.advance_ofStock params index view rule)

namespace Tower

@[reducible] def stockRules : (n : Nat) → StockRules (Tower ρ τ n)
  | 0 => inferInstanceAs (StockRules ρ)
  | n + 1 =>
      have := stockRules n
      inferInstanceAs (StockRules (Layer (Tower ρ τ n) τ))

instance (n : Nat) : StockRules (Tower ρ τ n) := stockRules n

end Tower

/-! ## Paces -/

theorem StockPace.next_congr {timeline other : Timeline} (h : timeline.step = other.step)
    (pace : StockPace) : Pace.next timeline pace = Pace.next other pace := by
  cases pace with
  | constant size => rfl
  | exponential pace => rfl
  | replay pace =>
      change (pace.increment timeline.step, StockPace.replay pace) = _
      rw [h]
      rfl

end Tandem
