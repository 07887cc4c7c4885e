import Tandem.Proofs.Equations
import Tandem.Rule.Stock

/-!
# What a successful step does

The states that a step adds to the windows are the one solution of its equations, which mention the states
of the same step, the windows as they were before it, and the timeline with the step counted and its
increment set.
-/

namespace Tandem.Simulation

variable {ρ τ : Type} [UpdateRule ρ] {plan : Plan} {behaviour : Behaviour ρ τ}
  {sim : Simulation ρ τ}

theorem length_computed (sim : Simulation ρ τ) : sim.computed.cells.length = sim.cells.length := by
  have hwindows := congrArg List.length (windows_computeAll sim)
  simpa [computed, windows] using hwindows

theorem ready_of_success (sim : Simulation ρ τ) (hfits : plan.Fits sim.cells)
    (hschedule : plan.schedule = .ok sim.schedule) (hcompute : sim.compute.result = .ok ()) :
    ∀ cell ∈ sim.computed.cells, cell.Ready := by
  intro after hafter
  obtain ⟨i, hi⟩ := List.mem_iff_getElem?.1 hafter
  have hlt : i < sim.cells.length := length_computed sim ▸ (List.getElem?_eq_some_iff.1 hi).1
  have hcell := List.getElem?_eq_getElem hlt
  obtain ⟨p, hp, hconforms⟩ := hfits.exists_partition hcell
  obtain ⟨state, params, -, hwidth, -, -, hcomputed⟩ :=
    computed_of_success sim hfits hschedule hcompute hcell hp
  obtain rfl := Option.some.inj (hi.symm.trans hcomputed)
  exact ⟨state, rfl, hconforms.shaped, hwidth⟩

theorem tiles_computed (sim : Simulation ρ τ) (hfits : plan.Fits sim.cells)
    (hschedule : plan.schedule = .ok sim.schedule) :
    Tiles 0 sim.computed.cells.length sim.computed.schedule.ranges := by
  rw [length_computed]
  exact (Plan.schedule_suits hschedule hfits.feeds_eq).tiles

variable [Pace τ]

theorem step_cells_of_success {increment : Float} {pace : τ} (hfits : plan.Fits sim.cells)
    (hschedule : plan.schedule = .ok sim.schedule)
    (hpace : Pace.next sim.timeline.beginStep sim.pace = (.ok increment, pace))
    (hcompute : (sim.begun increment pace).compute.result = .ok ())
    (hcalm : ∀ cell ∈ (sim.begun increment pace).computed.cells, ∀ crash,
      (cell.commit sim.output (sim.begun increment pace).timeline.next
        (sim.begun increment pace).timeline.step).result ≠ .error (.crash crash)) :
    sim.step.next.cells = (sim.begun increment pace).computed.cells.map fun cell =>
      cell.recorded (cell.partition.pending.getD []) := by
  let begun := sim.begun increment pace
  have hready := ready_of_success begun hfits hschedule hcompute
  have htiles : Tiles 0 begun.computed.cells.length begun.computed.schedule.ranges :=
    tiles_computed begun hfits hschedule
  rw [step_of_success hpace hcompute]
  dsimp only
  rw [finishStep_next]
  exact commit_cells_of_ready htiles hready hcalm

/-- A step of a reachable simulation that succeeds: there is exactly one list of states that solves the
equations of the step. The timeline and every window move on by it, and each rule was called once. -/
theorem successful_step_solves_equations {report : StepReport} (hreach : Reachable plan behaviour sim)
    (hstep : sim.step.result = .ok report) :
    ∃ increment pace states,
      Pace.next sim.timeline.beginStep sim.pace = (.ok increment, pace) ∧
      let counted := sim.timeline.beginStep.setIncrement increment
      let view : View := ⟨sim.windows, counted⟩
      let time := sim.timeline.current + increment
      let rules := sim.cells.map (·.partition.rule)
      plan.Solves rules view states ∧
      (∀ others, plan.Solves rules view others → others = states) ∧
      report = ⟨counted.step, time⟩ ∧
      sim.step.next.pace = pace ∧
      sim.step.next.timeline = counted.push time ∧
      sim.step.next.cells.length = sim.cells.length ∧
      ∀ (i : Nat) cell p, sim.cells[i]? = some cell → plan.partitions[i]? = some p →
        ∃ state params next, states[i]? = some state ∧ p.TakesIn states params ∧
          sim.step.next.cells[i]? = some next ∧
          next.partition.rule = (UpdateRule.advance params i view cell.partition.rule).next ∧
          next.partition.pending = none ∧
          state.length = cell.window.width ∧
          next.window = { cell.window with
            values := state ++
              cell.window.values.take (cell.window.values.length - cell.window.width) } ∧
          next.window.row 0 = .ok state ∧
          (cell.window.width * cell.window.depth < Word.count → ∀ d, d + 1 < cell.window.depth →
            next.window.row (d + 1) = cell.window.row d) := by
  obtain ⟨hfits, hschedule⟩ := hreach.fits
  obtain ⟨increment, pace, hpace, hcompute, hfinish⟩ := exists_of_step_ok hstep
  have hcommit := (commit_result_eq_ok_iff (tiles_computed (sim.begun increment pace) hfits
    hschedule)).1 (finishStep_eq_ok hfinish).1
  have hcells := step_cells_of_success hfits hschedule hpace hcompute fun cell hcell crash hcrash =>
    nomatch (hcommit cell hcell).symm.trans hcrash
  have hsuits : sim.schedule.Suits sim.cells := Plan.schedule_suits hschedule hfits.feeds_eq
  have hrules : (sim.cells.map (·.partition.rule)).length = plan.size := by
    rw [List.length_map, hfits.count]
  have hsolves : plan.Solves (sim.cells.map (·.partition.rule)) (sim.begun increment pace).view
      (sim.begun increment pace).newStates :=
    solves_newStates (sim.begun increment pace) hfits hschedule hcompute
  have hstep := step_of_success hpace hcompute
  refine ⟨increment, pace, (sim.begun increment pace).newStates, hpace, hsolves, ?_,
    (finishStep_eq_ok hfinish).2, ?_, ?_, ?_, fun i cell p hcell hp => ?_⟩
  · exact fun others hothers => hsolves.unique hfits hsuits hrules hothers
  · rw [hstep]
    dsimp only
    rw [finishStep_next, commit_eq]
    rfl
  · rw [hstep]
    dsimp only
    rw [finishStep_next]
    rfl
  · rw [hcells, List.length_map, length_computed]
    rfl
  · obtain ⟨state, params, hstate, hwidth, htakes, -, hafter⟩ :=
      computed_of_success (sim.begun increment pace) hfits hschedule hcompute hcell hp
    have hshaped := (hfits.cell i cell p hcell hp).shaped
    have hnext := congrArg (fun cells => cells[i]?) hcells
    rw [List.getElem?_map, hafter] at hnext
    exact ⟨state, params, _, hstate, htakes, hnext, rfl, rfl, hwidth, rfl,
      hshaped.row_zero_recorded hwidth,
      fun hfit d hd => hshaped.row_succ_recorded hfit hwidth hd⟩

/-- A partition that is declared before the one that feeds it, two elements in another order. -/
def mirrorPlan : Plan where
  partitions := [
    ⟨"mirror", .empty, .ofList [(Relay.param, ⟨1, some [1, 0]⟩)], [0, 0], 0, 2, 2⟩,
    ⟨"source", .empty, ∅, [5, 7], 0, 2, 1⟩]
  startTime := 0
  timelineDepth := 2
  groups := []

def mirrorBehaviour : Behaviour StockRule StockPace := .new [.relay, .hold] (.steps 1) (.constant 1)

def mirrorSimulation : Simulation StockRule StockPace where
  cells := [
    ⟨⟨.relay, ⟨∅, "mirror"⟩, "mirror", 0, .ofList [(Relay.param, ⟨1, some [1, 0]⟩)], none⟩,
      ⟨[0, 0, 0, 0], 2, 2⟩⟩,
    ⟨⟨.hold, ⟨∅, "source"⟩, "source", 1, ∅, none⟩, ⟨[5, 7], 2, 1⟩⟩]
  schedule := ⟨[⟨0, 1⟩, ⟨1, 2⟩], [1, 0]⟩
  timeline := ⟨0, [0], 0, 0⟩
  output := .silent
  stop := .steps 1
  pace := .constant 1

theorem mirrorSimulation_solves_equations :
    Reachable mirrorPlan mirrorBehaviour mirrorSimulation ∧
      mirrorSimulation.step.result = .ok ⟨1, 0 + 1⟩ ∧
      ∃ increment states,
        let view : View :=
          ⟨mirrorSimulation.windows, mirrorSimulation.timeline.beginStep.setIncrement increment⟩
        mirrorPlan.Solves [StockRule.relay, .hold] view states ∧
          ∀ others, mirrorPlan.Solves [StockRule.relay, .hold] view others → others = states := by
  have hreach : Reachable mirrorPlan mirrorBehaviour mirrorSimulation :=
    .start (rfl : start _ _ = (_, []))
  have hstep : mirrorSimulation.step.result = .ok ⟨1, 0 + 1⟩ := rfl
  obtain ⟨increment, pace, states, -, hsolves, hunique, -⟩ :=
    successful_step_solves_equations hreach hstep
  exact ⟨hreach, hstep, increment, states, hsolves, hunique⟩

end Tandem.Simulation
