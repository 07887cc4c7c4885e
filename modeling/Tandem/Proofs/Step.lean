import Tandem.Proofs.Compute
import Tandem.Simulation.Step

/-!
# The four ways of a step

The pace refuses, the pace crashes, the compute phase fails, or the step reaches its commit phase. One
equation for each says what the step replies, and what later proofs say of steps they say of these.
-/

namespace Tandem.Simulation

variable {ρ τ : Type}

/-- The simulation once its next step is counted and has its increment. -/
def begun (sim : Simulation ρ τ) (increment : Float) (pace : τ) : Simulation ρ τ :=
  { sim with timeline := sim.timeline.beginStep.setIncrement increment, pace := pace }

def restored (sim : Simulation ρ τ) : Timeline :=
  { sim.timeline with step := Word.wrap (sim.timeline.step + 1) - 1 }

theorem restored_eq {sim : Simulation ρ τ} (h : sim.timeline.step + 1 < Word.count) :
    sim.restored = sim.timeline := by
  unfold restored
  rw [Word.wrap_of_lt h, Nat.add_sub_cancel]

/-- A step that ran to its commit phase stands before it. -/
def computed [UpdateRule ρ] (sim : Simulation ρ τ) : Simulation ρ τ :=
  { sim with cells := sim.computeAll.cells }

theorem discardPending_windows (sim : Simulation ρ τ) : sim.discardPending.windows = sim.windows := by
  simp [discardPending, windows, Function.comp_def]

theorem windows_discarded [UpdateRule ρ] (sim : Simulation ρ τ) (increment : Float) (pace : τ) :
    (sim.begun increment pace).computed.discardPending.windows = sim.windows :=
  (discardPending_windows _).trans (windows_computeAll (sim.begun increment pace))

def withOutput (sim : Simulation ρ τ) (output : Output) : Simulation ρ τ :=
  { sim with output := output }

/-- The compute phase never asks the output. -/
theorem compute_withOutput [UpdateRule ρ] (sim : Simulation ρ τ) (output : Output) :
    (sim.withOutput output).compute =
      sim.compute.mapNext fun next => next.withOutput output := by
  rw [compute_eq, compute_eq]
  rfl

theorem compute_result_withOutput [UpdateRule ρ] (sim : Simulation ρ τ) (output : Output) :
    (sim.withOutput output).compute.result = sim.compute.result := by
  rw [compute_withOutput]
  rfl

theorem finishStep_eq_error {sim : Simulation ρ τ} {stop : Stop}
    (h : sim.finishStep.result = .error stop) :
    (sim.commit sim.timeline.next sim.timeline.step).result = .error stop := by
  simp only [finishStep] at h
  cases hcommit : (sim.commit sim.timeline.next sim.timeline.step).result with
  | error first =>
      rw [hcommit] at h
      cases h
      rfl
  | ok _ =>
      rw [hcommit] at h
      cases h

theorem finishStep_eq_ok {sim : Simulation ρ τ} {report : StepReport}
    (h : sim.finishStep.result = .ok report) :
    (sim.commit sim.timeline.next sim.timeline.step).result = .ok () ∧
      report = ⟨sim.timeline.step, sim.timeline.next⟩ := by
  simp only [finishStep] at h
  cases hcommit : (sim.commit sim.timeline.next sim.timeline.step).result with
  | error stop => simp [hcommit, Except.map] at h
  | ok _ =>
      simp only [hcommit, Except.map, Except.ok.injEq] at h
      exact ⟨rfl, h.symm⟩

variable [UpdateRule ρ] [Pace τ] {sim : Simulation ρ τ} {increment : Float} {pace : τ}

theorem step_of_refusal {fault : Fault}
    (h : Pace.next sim.timeline.beginStep sim.pace = (.error (.fault fault), pace)) :
    sim.step = ⟨.error (.fault fault), { sim with timeline := sim.restored, pace := pace }, []⟩ := by
  simp only [step, h]
  rfl

theorem step_of_crash {crash : Crash}
    (h : Pace.next sim.timeline.beginStep sim.pace = (.error (.crash crash), pace)) :
    sim.step = ⟨.error (.crash crash),
      { sim with timeline := sim.timeline.beginStep, pace := pace }, []⟩ := by
  simp only [step, h]

theorem step_of_failure {stop : Stop}
    (h : Pace.next sim.timeline.beginStep sim.pace = (.ok increment, pace))
    (hcompute : (sim.begun increment pace).compute.result = .error stop) :
    sim.step = ⟨.error stop,
      { (sim.begun increment pace).computed.discardPending with timeline := sim.restored },
      (sim.begun increment pace).compute.emitted.map .nested⟩ := by
  unfold begun at hcompute
  simp only [step, h, hcompute, compute_next]
  rfl

theorem step_of_success (h : Pace.next sim.timeline.beginStep sim.pace = (.ok increment, pace))
    (hcompute : (sim.begun increment pace).compute.result = .ok ()) :
    sim.step =
      let finished := (sim.begun increment pace).computed.finishStep
      ⟨finished.result, finished.next,
        (sim.begun increment pace).compute.emitted.map .nested ++
          finished.emitted.map .delivered⟩ := by
  unfold begun at hcompute
  simp only [step, h, hcompute, compute_next]
  rfl

/-- The four ways of a step, and its reply in each. -/
inductive Way (sim : Simulation ρ τ) : Reply Event (Simulation ρ τ) StepReport → Prop
  | refused {fault : Fault} {pace : τ}
      (hpace : Pace.next sim.timeline.beginStep sim.pace = (.error (.fault fault), pace)) :
      Way sim ⟨.error (.fault fault), { sim with timeline := sim.restored, pace := pace }, []⟩
  | crashed {crash : Crash} {pace : τ}
      (hpace : Pace.next sim.timeline.beginStep sim.pace = (.error (.crash crash), pace)) :
      Way sim ⟨.error (.crash crash),
        { sim with timeline := sim.timeline.beginStep, pace := pace }, []⟩
  | failed {increment : Float} {pace : τ} {stop : Stop}
      (hpace : Pace.next sim.timeline.beginStep sim.pace = (.ok increment, pace))
      (hcompute : (sim.begun increment pace).compute.result = .error stop) :
      Way sim ⟨.error stop,
        { (sim.begun increment pace).computed.discardPending with timeline := sim.restored },
        (sim.begun increment pace).compute.emitted.map .nested⟩
  | finished {increment : Float} {pace : τ}
      (hpace : Pace.next sim.timeline.beginStep sim.pace = (.ok increment, pace))
      (hcompute : (sim.begun increment pace).compute.result = .ok ()) :
      Way sim ⟨(sim.begun increment pace).computed.finishStep.result,
        (sim.begun increment pace).computed.finishStep.next,
        (sim.begun increment pace).compute.emitted.map .nested ++
          (sim.begun increment pace).computed.finishStep.emitted.map .delivered⟩

theorem way_step (sim : Simulation ρ τ) : sim.Way sim.step := by
  cases hpace : Pace.next sim.timeline.beginStep sim.pace with
  | mk answer pace =>
      cases answer with
      | error stop =>
          cases stop with
          | fault fault => exact step_of_refusal hpace ▸ .refused hpace
          | crash crash => exact step_of_crash hpace ▸ .crashed hpace
      | ok increment =>
          cases hcompute : (sim.begun increment pace).compute.result with
          | error stop => exact step_of_failure hpace hcompute ▸ .failed hpace hcompute
          | ok _ => exact step_of_success hpace hcompute ▸ .finished hpace hcompute

theorem exists_of_step_ok {report : StepReport} (h : sim.step.result = .ok report) :
    ∃ increment pace, Pace.next sim.timeline.beginStep sim.pace = (.ok increment, pace) ∧
      (sim.begun increment pace).compute.result = .ok () ∧
      (sim.begun increment pace).computed.finishStep.result = .ok report := by
  have hway := sim.way_step
  generalize sim.step = reply at h hway
  cases hway with
  | refused => cases h
  | crashed => cases h
  | failed => cases h
  | finished hpace hcompute => exact ⟨_, _, hpace, hcompute, h⟩

end Tandem.Simulation
