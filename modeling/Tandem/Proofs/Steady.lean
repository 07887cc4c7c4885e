import Tandem.Proofs.Rules
import Tandem.Proofs.Success

/-!
# Rules that keep no state

A rule is steady if a call that succeeds leaves it as it was. A simulation of steady rules with a steady
pace has, after any number of steps that succeed, the behaviour that it started with.
-/

namespace Tandem

variable {ρ τ : Type}

/-- A call that succeeds leaves the rule as it was. -/
def UpdateRule.Steady [UpdateRule ρ] (rule : ρ) : Prop :=
  ∀ params index view state, (UpdateRule.advance params index view rule).result = .ok state →
    (UpdateRule.advance params index view rule).next = rule

/-- The pace stays as it is. -/
def Pace.Steady [Pace τ] (pace : τ) : Prop := ∀ timeline, (Pace.next timeline pace).2 = pace

structure Behaviour.Steady [UpdateRule ρ] [Pace τ] (behaviour : Behaviour ρ τ) : Prop where
  rules : ∀ rule ∈ behaviour.rules, UpdateRule.Steady rule
  pace : Pace.Steady behaviour.pace

namespace Simulation

variable [UpdateRule ρ] [Pace τ] {plan : Plan} {behaviour : Behaviour ρ τ} {sim : Simulation ρ τ}

theorem pace_runWithin_of_steady (h : Pace.Steady sim.pace) (fuel : Nat) :
    (sim.runWithin fuel).next.pace = sim.pace :=
  runWithin_keeps (motive := fun later => later.pace = sim.pace)
    (fun later hlater => (step_pace later).trans (hlater ▸ h later.timeline.beginStep)) rfl fuel

theorem rules_step_of_steady (hfits : plan.Fits sim.cells) (hschedule : plan.schedule = .ok sim.schedule)
    (hsteady : ∀ rule ∈ sim.behaviour.rules, UpdateRule.Steady rule) {report : StepReport}
    (hstep : sim.step.result = .ok report) : sim.step.next.behaviour.rules = sim.behaviour.rules := by
  obtain ⟨increment, pace, hpace, hcompute, hfinish⟩ := exists_of_step_ok hstep
  let begun := sim.begun increment pace
  have hcommit := (commit_result_eq_ok_iff (tiles_computed begun hfits hschedule)).1
    (finishStep_eq_ok hfinish).1
  have hcells := step_cells_of_success hfits hschedule hpace hcompute fun cell hcell crash hcrash =>
    nomatch (hcommit cell hcell).symm.trans hcrash
  refine List.ext_getElem? fun i => ?_
  rw [Simulation.behaviour, Simulation.behaviour, List.getElem?_map, List.getElem?_map, hcells,
    List.getElem?_map]
  cases hcell : sim.cells[i]? with
  | none =>
      have hlength : begun.computed.cells.length ≤ i := by
        rw [length_computed]
        exact List.getElem?_eq_none_iff.1 hcell
      rw [List.getElem?_eq_none hlength]
      rfl
  | some cell =>
      obtain ⟨p, hp, -⟩ := hfits.exists_partition hcell
      obtain ⟨state, params, -, -, -, hadvance, hafter⟩ :=
        computed_of_success begun hfits hschedule hcompute hcell hp
      have hmem : cell.partition.rule ∈ sim.behaviour.rules :=
        List.mem_map_of_mem (List.mem_of_getElem? hcell)
      rw [hafter, hsteady _ hmem params i begun.view state hadvance]
      rfl

theorem behaviour_step_of_steady (hfits : plan.Fits sim.cells)
    (hschedule : plan.schedule = .ok sim.schedule) (hsteady : sim.behaviour.Steady) {report : StepReport}
    (hstep : sim.step.result = .ok report) : sim.step.next.behaviour = sim.behaviour := by
  have hrules := rules_step_of_steady hfits hschedule hsteady.rules hstep
  have hpace : sim.step.next.pace = sim.pace := (step_pace sim).trans (hsteady.pace _)
  have hparts : sim.step.next.behaviour = ⟨sim.step.next.behaviour.rules, sim.step.next.output,
    sim.step.next.stop, sim.step.next.pace⟩ := rfl
  rw [hparts, hrules, step_output, step_stop, hpace]
  rfl

theorem behaviour_runWithin_of_steady (hfits : plan.Fits sim.cells)
    (hschedule : plan.schedule = .ok sim.schedule) (hsteady : sim.behaviour.Steady) {fuel : Nat}
    (hrun : (sim.runWithin fuel).result = .ok ()) :
    (sim.runWithin fuel).next.behaviour = sim.behaviour := by
  induction fuel generalizing sim with
  | zero => rfl
  | succ fuel ih =>
      unfold runWithin at hrun ⊢
      split at hrun
      · cases hrun
      · rfl
      · dsimp only at hrun ⊢
        split at hrun
        next => cases hrun
        next hstep =>
          have hsame := behaviour_step_of_steady hfits hschedule hsteady hstep
          obtain ⟨hfits', hschedule'⟩ := hfits.step
          exact (ih hfits' (hschedule' ▸ hschedule) (hsame ▸ hsteady) hrun).trans hsame

end Simulation

end Tandem
