import Tandem.Proofs.Step
import Tandem.Rule.Stock

/-!
# Steps that fail before they commit

A step can fail after it was counted and given an increment, and after many partitions have computed their
states. It then takes all of that back: nothing of it can be seen in the windows or in the timeline, no
state is left pending, and the output was never asked.
-/

namespace Tandem.Simulation

variable {ρ τ : Type} {sim : Simulation ρ τ}

theorem pending_discardPending {cell : Cell ρ} (h : cell ∈ sim.discardPending.cells) :
    cell.partition.pending = none := by
  obtain ⟨before, -, rfl⟩ := List.mem_map.1 h
  rfl

variable [UpdateRule ρ]

/-- The next step fails before it commits: its pace refuses, or groups are halted while they compute. -/
def Aborts [Pace τ] (sim : Simulation ρ τ) : Prop :=
  (∃ fault pace, Pace.next sim.timeline.beginStep sim.pace = (.error (.fault fault), pace)) ∨
    ∃ increment pace stop, Pace.next sim.timeline.beginStep sim.pace = (.ok increment, pace) ∧
      some stop ∈ (sim.begun increment pace).computeAll.halted

theorem exists_compute_error {increment : Float} {pace : τ} {stop : Stop}
    (h : some stop ∈ (sim.begun increment pace).computeAll.halted) :
    ∃ first, (sim.begun increment pace).compute.result = .error first := by
  cases hresult : (sim.begun increment pace).compute.result with
  | error first => exact ⟨first, rfl⟩
  | ok _ =>
      have hnone := compute_result_eq_ok_iff.1 hresult _ h
      cases hnone

variable [Pace τ]

theorem Aborts.step_withOutput (h : sim.Aborts) (output : Output) :
    (sim.withOutput output).step = sim.step.mapNext fun next => next.withOutput output := by
  rcases h with ⟨fault, pace, hpace⟩ | ⟨increment, pace, stop, hpace, hmem⟩
  · have hpace' : Pace.next (sim.withOutput output).timeline.beginStep
        (sim.withOutput output).pace = (.error (.fault fault), pace) := hpace
    rw [step_of_refusal hpace, step_of_refusal hpace']
    rfl
  · obtain ⟨first, hcompute⟩ := exists_compute_error hmem
    have hpace' : Pace.next (sim.withOutput output).timeline.beginStep
        (sim.withOutput output).pace = (.ok increment, pace) := hpace
    have hsame := compute_withOutput (sim.begun increment pace) output
    have hother : ((sim.withOutput output).begun increment pace).compute.result =
        .error first := (congrArg Reply.result hsame).trans hcompute
    have hemitted : ((sim.withOutput output).begun increment pace).compute.emitted =
        (sim.begun increment pace).compute.emitted :=
      (congrArg Reply.emitted hsame).trans rfl
    rw [step_of_failure hpace hcompute, step_of_failure hpace' hother, hemitted]
    rfl

/-- What a step that aborts leaves behind. Only a counter that stood at its last value, from which it
begins again, is not where it was. -/
theorem aborted_step_leaves_no_trace (h : sim.Aborts) :
    (∃ stop, sim.step.result = .error stop) ∧
      sim.step.next.windows = sim.windows ∧
      sim.step.next.timeline =
        { sim.timeline with step := Word.wrap (sim.timeline.step + 1) - 1 } ∧
      (sim.timeline.step + 1 < Word.count → sim.step.next.timeline = sim.timeline) ∧
      ((∀ increment pace, Pace.next sim.timeline.beginStep sim.pace ≠ (.ok increment, pace)) →
        sim.step.next.cells = sim.cells) ∧
      ((∃ increment pace, Pace.next sim.timeline.beginStep sim.pace = (.ok increment, pace)) →
        ∀ cell ∈ sim.step.next.cells, cell.partition.pending = none) ∧
      (∀ event ∈ sim.step.emitted, event.delivered? = none) ∧
      ∀ output, (sim.withOutput output).step =
        sim.step.mapNext fun next => next.withOutput output := by
  have houtput := h.step_withOutput
  rcases h with ⟨fault, pace, hpace⟩ | ⟨increment, pace, stop, hpace, hmem⟩
  · have hstep := step_of_refusal hpace
    refine ⟨⟨_, by rw [hstep]⟩, by rw [hstep]; rfl, by rw [hstep]; rfl, fun hlt => ?_,
      fun _ => by rw [hstep], fun hok => ?_, fun event hevent => ?_, houtput⟩
    · rw [hstep]
      exact restored_eq hlt
    · obtain ⟨increment, pace', hok⟩ := hok
      cases hpace.symm.trans hok
    · rw [hstep] at hevent
      cases hevent
  · obtain ⟨first, hcompute⟩ := exists_compute_error hmem
    have hstep := step_of_failure hpace hcompute
    refine ⟨⟨_, by rw [hstep]⟩, ?_, by rw [hstep]; rfl, fun hlt => ?_, fun hno => ?_, fun _ => ?_,
      fun event hevent => ?_, houtput⟩
    · rw [hstep]
      exact windows_discarded sim increment pace
    · rw [hstep]
      exact restored_eq hlt
    · exact absurd hpace (hno increment pace)
    · rw [hstep]
      exact fun cell hcell => pending_discardPending hcell
    · rw [hstep] at hevent
      obtain ⟨emission, -, rfl⟩ := List.mem_map.1 hevent
      rfl

/-- Partition 0 has its state; partition 1 fails because it has nothing to replay, and partition 2, which
it feeds, fails in consequence. -/
def brokenSimulation : Simulation StockRule StockPace where
  cells := [
    ⟨⟨.hold, .empty, "steady", 0, ∅, none⟩, ⟨[3], 1, 1⟩⟩,
    ⟨⟨.replay ⟨none⟩, .empty, "source", 1, ∅, none⟩, ⟨[0], 1, 1⟩⟩,
    ⟨⟨.relay, .empty, "reader", 2, .ofList [(Relay.param, ⟨1, none⟩)], none⟩, ⟨[0], 1, 1⟩⟩]
  schedule := ⟨[⟨0, 1⟩, ⟨1, 2⟩, ⟨2, 3⟩], [0, 1, 2]⟩
  timeline := ⟨0, [], 0, 0⟩
  output := .recordAll "states"
  stop := .steps 1
  pace := .constant 1

theorem brokenSimulation_leaves_no_trace :
    brokenSimulation.Aborts ∧
      (∃ stop, brokenSimulation.step.result = .error stop) ∧
      brokenSimulation.step.next.windows = brokenSimulation.windows ∧
      brokenSimulation.step.next.timeline = brokenSimulation.timeline ∧
      (∀ cell ∈ brokenSimulation.step.next.cells, cell.partition.pending = none) ∧
      (∀ event ∈ brokenSimulation.step.emitted, event.delivered? = none) ∧
      ∀ output, (brokenSimulation.withOutput output).step =
        brokenSimulation.step.mapNext fun next => next.withOutput output := by
  have haborts : brokenSimulation.Aborts :=
    Or.inr ⟨1, .constant 1, _, rfl, List.mem_cons_of_mem _ List.mem_cons_self⟩
  obtain ⟨herror, hwindows, -, htimeline, -, hpending, hemitted, houtput⟩ :=
    aborted_step_leaves_no_trace haborts
  exact ⟨haborts, herror, hwindows, htimeline (by decide), hpending ⟨1, .constant 1, rfl⟩, hemitted,
    houtput⟩

end Tandem.Simulation
