import Tandem.Proofs.Lists
import Tandem.Proofs.Run

/-!
# What becomes of rules

A simulation does nothing to its rules but call them, and nothing to its pace but ask it. So what no call
changes about a rule, no step and no run changes, and a behaviour comes out of a run as complete as it went in.
-/

namespace Tandem

variable {ρ τ : Type}

theorem Cell.rule_commit (output : Output) (time : Float) (step : Nat) (cell : Cell ρ) :
    (cell.commit output time step).next.partition.rule = cell.partition.rule := by
  simp only [Cell.commit, Partition.commit]
  split
  · rfl
  · split
    · rfl
    · rfl

theorem Simulation.rules_commit (sim : Simulation ρ τ) (time : Float) (step : Nat) :
    (sim.commit time step).next.cells.map (·.partition.rule) = sim.cells.map (·.partition.rule) := by
  rw [commit_eq]
  refine (map_eq_of_forall₂ (fun cell next h => ?_) (commitGroups_forall₂ sim.output _ _ _ sim.cells)).symm
  rcases h with rfl | rfl
  · rfl
  · exact (Cell.rule_commit ..).symm

theorem Simulation.rules_of_start {plan : Plan} {behaviour : Behaviour ρ τ} {sim : Simulation ρ τ}
    {events : List Event} (h : start plan behaviour = (.ok sim, events)) :
    sim.cells.map (·.partition.rule) = behaviour.rules := by
  obtain ⟨-, hrules, -, windows, hwindows, hcells⟩ := start_eq_ok h
  have hlength : behaviour.rules.length ≤ (plan.partitions.zip windows).length := by
    rw [List.length_zip, ← hwindows.length_eq, Nat.min_self, hrules]
    exact Nat.le_refl _
  have hmap : sim.cells.map (·.partition.rule) =
      (behaviour.rules.zip (plan.partitions.zip windows)).map Prod.fst := by
    rw [hcells]
    refine List.ext_getElem (by simp) fun i _ _ => ?_
    simp [makePartition]
  rw [hmap, List.map_fst_zip hlength]

theorem Simulation.behaviour_of_start {plan : Plan} {behaviour : Behaviour ρ τ} {sim : Simulation ρ τ}
    {events : List Event} (h : start plan behaviour = (.ok sim, events)) : sim.behaviour = behaviour := by
  obtain ⟨houtput, hstop, hpace⟩ := start_behaviour h
  rw [Simulation.behaviour, rules_of_start h, houtput, hstop, hpace]

variable [UpdateRule ρ]

/-- What a rule can become by being called. -/
inductive Called (first : ρ) : ρ → Prop
  | refl : Called first first
  | call {rule : ρ} (h : Called first rule) (params : Params) (index : Nat) (view : View) :
      Called first (UpdateRule.advance params index view rule).next

theorem Called.trans {first second third : ρ} (h : Called first second) (h' : Called second third) :
    Called first third := by
  induction h' with
  | refl => exact h
  | call _ params index view ih => exact ih.call params index view

theorem Partition.called_compute (view : View) (inbox : Inbox) (p : Partition ρ) :
    Called p.rule (compute view inbox p).next.rule := by
  unfold compute
  split
  · exact .refl
  · rw [callRule_next]
    split
    · exact Called.refl.call _ _ _
    · exact Called.refl.call _ _ _

namespace Simulation

/-- The cells have the rules that cells before could become by being called. -/
def Follow (before after : List (Cell ρ)) : Prop :=
  List.Forall₂ (fun cell next => Called cell.partition.rule next.partition.rule) before after

theorem Follow.refl (cells : List (Cell ρ)) : Follow cells cells :=
  List.forall₂_same.2 fun _ _ => .refl

theorem Follow.trans {first second third : List (Cell ρ)} (h : Follow first second)
    (h' : Follow second third) : Follow first third :=
  forall₂_trans (fun hfirst hsecond => hfirst.trans hsecond) h h'

theorem Follow.map {before after : List (Cell ρ)} (f : Cell ρ → Cell ρ)
    (hf : ∀ cell, (f cell).partition.rule = cell.partition.rule) (h : Follow before after) :
    Follow before (after.map f) := by
  refine List.forall₂_map_right_iff.2 (h.imp fun cell next hnext => ?_)
  rw [hf]
  exact hnext

variable (sim : Simulation ρ τ)

theorem follow_computeAll : Follow sim.cells sim.computeAll.cells := by
  refine sim.computeAll_induction (motive := fun _ progress => Follow sim.cells progress.cells)
    (.refl _) ?_
  intro done i after progress _ h
  rcases progress.cells_visit sim.view (groupOf sim.schedule.ranges i) i with
    heq | ⟨cell, hcell, heq⟩
  · exact heq ▸ h
  · rw [heq]
    exact h.trans (forall₂_set (fun _ => .refl) hcell (Partition.called_compute _ _ _))

theorem follow_commit (time : Float) (step : Nat) :
    Follow sim.cells (sim.commit time step).next.cells := by
  refine List.forall₂_map_left_iff.1 (List.forall₂_map_right_iff.1 ?_)
  rw [rules_commit]
  exact List.forall₂_same.2 fun _ _ => .refl

variable [Pace τ]

theorem follow_step : Follow sim.cells sim.step.next.cells := by
  have hway := sim.way_step
  generalize sim.step = reply at hway ⊢
  cases hway with
  | refused => exact .refl _
  | crashed => exact .refl _
  | @failed increment pace => exact (follow_computeAll (sim.begun increment pace)).map _ fun _ => rfl
  | @finished increment pace =>
      let computed := (sim.begun increment pace).computed
      rw [finishStep_next]
      exact (follow_computeAll (sim.begun increment pace)).trans
        (follow_commit computed computed.timeline.next computed.timeline.step)

end Simulation

/-! ## What becomes of behaviours -/

/-- What a rule can become by being called and by being given windows to replay. -/
inductive Handled (first : ρ) : ρ → Prop
  | refl : Handled first first
  | call {rule : ρ} (h : Handled first rule) (params : Params) (index : Nat) (view : View) :
      Handled first (UpdateRule.advance params index view rule).next
  | store {rule : ρ} (h : Handled first rule) (window : Window) :
      Handled first (UpdateRule.store window rule)

theorem Handled.trans {first second third : ρ} (h : Handled first second) (h' : Handled second third) :
    Handled first third := by
  induction h' with
  | refl => exact h
  | call _ params index view ih => exact ih.call params index view
  | store _ window ih => exact ih.store window

theorem Called.handled {first rule : ρ} (h : Called first rule) : Handled first rule := by
  induction h with
  | refl => exact .refl
  | call _ params index view ih => exact ih.call params index view

variable [Pace τ]

inductive Asked (first : τ) : τ → Prop
  | refl : Asked first first
  | next {pace : τ} (h : Asked first pace) (timeline : Timeline) :
      Asked first (Pace.next timeline pace).2

theorem Asked.trans {first second third : τ} (h : Asked first second) (h' : Asked second third) :
    Asked first third := by
  induction h' with
  | refl => exact h
  | next _ timeline ih => exact ih.next timeline

namespace Behaviour

/-- The behaviour is complete: the rules of one before, in their order, as calls and windows have left them,
its output and stop condition, and its pace, as it was left by those who asked it. -/
structure Intact (before after : Behaviour ρ τ) : Prop where
  rules : List.Forall₂ Handled before.rules after.rules
  output : after.output = before.output
  stop : after.stop = before.stop
  pace : Asked before.pace after.pace

theorem Intact.refl (behaviour : Behaviour ρ τ) : behaviour.Intact behaviour :=
  ⟨List.forall₂_same.2 fun _ _ => .refl, rfl, rfl, .refl⟩

theorem Intact.trans {first second third : Behaviour ρ τ} (h : first.Intact second)
    (h' : second.Intact third) : first.Intact third where
  rules := forall₂_trans (fun hfirst hsecond => hfirst.trans hsecond) h.rules h'.rules
  output := h'.output.trans h.output
  stop := h'.stop.trans h.stop
  pace := h.pace.trans h'.pace

end Behaviour

namespace Simulation

theorem step_stop (sim : Simulation ρ τ) : sim.step.next.stop = sim.stop := by
  have hway := sim.way_step
  generalize sim.step = reply at hway ⊢
  cases hway with
  | refused => rfl
  | crashed => rfl
  | failed => rfl
  | finished =>
      dsimp only
      rw [finishStep_next, commit_eq]
      rfl

theorem intact_step (sim : Simulation ρ τ) : sim.behaviour.Intact sim.step.next.behaviour where
  rules := List.forall₂_map_left_iff.2 (List.forall₂_map_right_iff.2
    ((follow_step sim).imp fun _ _ hcalled => hcalled.handled))
  output := step_output sim
  stop := step_stop sim
  pace := by
    have hasked : Asked sim.pace sim.step.next.pace := by
      rw [step_pace]
      exact Asked.refl.next _
    exact hasked

theorem runWithin_keeps {motive : Simulation ρ τ → Prop}
    (hstep : ∀ sim, motive sim → motive sim.step.next) {sim : Simulation ρ τ} (h : motive sim) (fuel : Nat) :
    motive (sim.runWithin fuel).next := by
  induction fuel generalizing sim with
  | zero => exact h
  | succ fuel ih =>
      unfold runWithin
      split
      · exact h
      · exact h
      · dsimp only
        split
        · exact hstep sim h
        · exact ih (hstep sim h)

theorem runWithin_emits {motive : Simulation ρ τ → Prop} {P : Event → Prop}
    (hstep : ∀ sim, motive sim → motive sim.step.next)
    (hemits : ∀ sim, motive sim → ∀ event ∈ sim.step.emitted, P event) {sim : Simulation ρ τ}
    (h : motive sim) (fuel : Nat) : ∀ event ∈ (sim.runWithin fuel).emitted, P event := by
  induction fuel generalizing sim with
  | zero => exact fun _ hevent => absurd hevent List.not_mem_nil
  | succ fuel ih =>
      unfold runWithin
      split
      · exact fun _ hevent => absurd hevent List.not_mem_nil
      · exact fun _ hevent => absurd hevent List.not_mem_nil
      · dsimp only
        split
        · exact hemits sim h
        · intro event hevent
          rcases List.mem_append.1 hevent with hfirst | hlater
          · exact hemits sim h event hfirst
          · exact ih (hstep sim h) event hlater

theorem exists_step_fault {motive : Simulation ρ τ → Prop}
    (hstep : ∀ sim, motive sim → motive sim.step.next) {sim : Simulation ρ τ} (h : motive sim) {fuel : Nat}
    {fault : Fault} (hfault : (sim.runWithin fuel).result = .error (.fault fault)) :
    ∃ later, motive later ∧ later.step.result = .error (.fault fault) := by
  induction fuel generalizing sim with
  | zero => cases hfault
  | succ fuel ih =>
      unfold runWithin at hfault
      split at hfault
      · cases hfault
      · cases hfault
      · dsimp only at hfault
        split at hfault
        next hresult =>
          cases hfault
          exact ⟨sim, h, hresult⟩
        next => exact ih (hstep sim h) hfault

theorem intact_run {plan : Plan} {behaviour : Behaviour ρ τ} {sim : Simulation ρ τ} {events : List Event}
    (h : start plan behaviour = (.ok sim, events)) : behaviour.Intact sim.run.next.behaviour := by
  rw [← behaviour_of_start h]
  exact runWithin_keeps (motive := fun later => sim.behaviour.Intact later.behaviour)
    (fun later hlater => hlater.trans (intact_step later)) (.refl _) _

end Simulation

end Tandem
