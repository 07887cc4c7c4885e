import Tandem.Proofs.Rules
import Tandem.Rule.Tower

/-!
# Rules that replay

Among rules of many kinds some replay a stored window. A call changes nothing about such a rule, and
neither a call nor storing a window changes whether a replaying rule can be found inside a rule.
-/

namespace Tandem

/-- Rules among which are the replaying ones. -/
class ReplayRules (ρ : Type) [UpdateRule ρ] where
  ofReplay : Replay → ρ
  replay?_ofReplay (replay : Replay) : UpdateRule.replay? (ofReplay replay) = some replay
  store_ofReplay (window : Window) (replay : Replay) :
    UpdateRule.store window (ofReplay replay) = ofReplay ⟨some window⟩
  advance_ofReplay (params : Params) (index : Nat) (view : View) (replay : Replay) :
    UpdateRule.advance params index view (ofReplay replay) =
      .quiet (ofReplay replay) (replay.state params view.timeline.step)
  isSome_replay?_advance (params : Params) (index : Nat) (view : View) (rule : ρ) :
    (UpdateRule.replay? (UpdateRule.advance params index view rule).next).isSome =
      (UpdateRule.replay? rule).isSome
  isSome_replay?_store (window : Window) (rule : ρ) :
    (UpdateRule.replay? (UpdateRule.store window rule)).isSome = (UpdateRule.replay? rule).isSome

instance : ReplayRules StockRule where
  ofReplay := .replay
  replay?_ofReplay _ := rfl
  store_ofReplay _ _ := rfl
  advance_ofReplay _ _ _ _ := rfl
  isSome_replay?_advance _ _ _ rule := by cases rule <;> rfl
  isSome_replay?_store _ rule := by cases rule <;> rfl

variable {ρ τ : Type}

theorem Audited.rule_record {state : State} {audited next : Audited ρ}
    (h : audited.record state = .ok next) : next.rule = audited.rule := by
  unfold record at h
  split at h
  · cases h
    rfl
  next expected _ =>
    cases hpush : expected.push state with
    | error stop => simp [hpush, bind, Except.bind] at h
    | ok window =>
        simp only [hpush, bind, Except.bind, pure, Except.pure, Except.ok.injEq] at h
        subst h
        rfl

theorem Audited.rule_accept {index : Nat} {view : View} {state : State} {audited next : Audited ρ}
    (h : audited.accept index view state = .ok next) : next.rule = audited.rule := by
  simp only [accept, bind, Except.bind] at h
  split at h
  · cases h
  · split at h
    · cases h
    · exact rule_record h

theorem Audited.rule_advance [UpdateRule ρ] (params : Params) (index : Nat) (view : View)
    (audited : Audited ρ) :
    (audited.advance params index view).next.rule =
      (UpdateRule.advance params index view audited.rule).next := by
  unfold advance
  dsimp only
  split
  · rfl
  · split
    · rfl
    next haccept => exact rule_accept haccept

/-- Rules that store a window in the replaying rule inside them, if there is one. -/
class StoringRules (ρ : Type) [UpdateRule ρ] : Prop where
  replay?_store {rule : ρ} (window : Window) (h : (UpdateRule.replay? rule).isSome) :
    UpdateRule.replay? (UpdateRule.store window rule) = some ⟨some window⟩

instance : StoringRules StockRule where
  replay?_store {rule} _ h := by
    cases rule with
    | replay => rfl
    | hold => cases h
    | relay => cases h
    | walk => cases h

instance [UpdateRule ρ] [StoringRules ρ] [Pace τ] : StoringRules (Layer ρ τ) where
  replay?_store {rule} window h := by
    have hinner : ∀ rule : ρ, (UpdateRule.replay? rule).isSome →
        UpdateRule.replay? (UpdateRule.store window rule) = some ⟨some window⟩ :=
      fun _ => StoringRules.replay?_store window
    cases rule with
    | plain rule => exact hinner rule h
    | nested rule => cases h
    | audited rule => exact hinner rule.rule h

namespace Tower

theorem storingRules [UpdateRule ρ] [StoringRules ρ] [Pace τ] : (n : Nat) → StoringRules (Tower ρ τ n)
  | 0 => inferInstanceAs (StoringRules ρ)
  | n + 1 =>
      have := storingRules n
      inferInstanceAs (StoringRules (Layer (Tower ρ τ n) τ))

instance [UpdateRule ρ] [StoringRules ρ] [Pace τ] (n : Nat) : StoringRules (Tower ρ τ n) := storingRules n

end Tower

variable [UpdateRule ρ] [ReplayRules ρ]

instance [Pace τ] : ReplayRules (Layer ρ τ) where
  ofReplay replay := .plain (ReplayRules.ofReplay replay)
  replay?_ofReplay replay := by exact ReplayRules.replay?_ofReplay replay
  store_ofReplay window replay := congrArg Layer.plain (ReplayRules.store_ofReplay window replay)
  advance_ofReplay params index view replay :=
    congrArg (Reply.mapNext Layer.plain) (ReplayRules.advance_ofReplay params index view replay)
  isSome_replay?_advance params index view rule := by
    cases rule with
    | plain rule => exact ReplayRules.isSome_replay?_advance params index view rule
    | nested rule => rfl
    | audited rule =>
        refine Eq.trans ?_ (ReplayRules.isSome_replay?_advance params index view rule.rule)
        exact congrArg (fun rule => (UpdateRule.replay? rule).isSome)
          (rule.rule_advance params index view)
  isSome_replay?_store window rule := by
    cases rule with
    | plain rule => exact ReplayRules.isSome_replay?_store window rule
    | nested rule => rfl
    | audited rule => exact ReplayRules.isSome_replay?_store window rule.rule

namespace Tower

@[reducible] def replayRules [Pace τ] : (n : Nat) → ReplayRules (Tower ρ τ n)
  | 0 => inferInstanceAs (ReplayRules ρ)
  | n + 1 =>
      have := replayRules n
      inferInstanceAs (ReplayRules (Layer (Tower ρ τ n) τ))

instance [Pace τ] (n : Nat) : ReplayRules (Tower ρ τ n) := replayRules n

end Tower

/-! ## After any number of calls -/

theorem Handled.isSome_replay? {first rule : ρ} (h : Handled first rule) :
    (UpdateRule.replay? rule).isSome = (UpdateRule.replay? first).isSome := by
  induction h with
  | refl => rfl
  | call _ params index view ih =>
      exact (ReplayRules.isSome_replay?_advance params index view _).trans ih
  | store _ window ih => exact (ReplayRules.isSome_replay?_store window _).trans ih

theorem Called.eq_ofReplay {replay : Replay} {rule : ρ} (h : Called (ReplayRules.ofReplay replay) rule) :
    rule = ReplayRules.ofReplay replay := by
  induction h with
  | refl => rfl
  | call _ params index view ih => rw [ih, ReplayRules.advance_ofReplay]; rfl

end Tandem
