import Tandem.Proofs.Workers.Follow
import Tandem.Rule.Stock

/-!
# All interleavings of a compute phase end alike

The main result about crews. However the workers of a runnable plan are interleaved, none of them ever
waits in vain, and when all have ended they have done what visiting the partitions one after the other
does.
-/

namespace Tandem.Crew

variable {ρ τ : Type} [UpdateRule ρ]

/-- Every way of a crew from its start is part of a way to one and the same end: that of
`Simulation.computeAll`, with the verdict of `Simulation.compute`. -/
theorem interleavings_end_alike (plan : Plan) {sim : Simulation ρ τ}
    (hplan : plan.schedule = .ok sim.schedule)
    (hfeeds : sim.cells.map (·.partition.feeds) = plan.partitions.map (·.feeds)) :
    ∃ (n : Nat) (final : Crew ρ),
      Steps (Move sim.view) n (start sim.cells sim.schedule.ranges) final ∧ final.IsDone ∧
      final.cells = sim.computeAll.cells ∧ final.failures = sim.computeAll.halted ∧
      final.verdict sim.schedule.ranges = sim.compute.result ∧
      ∀ (k : Nat) (crew : Crew ρ),
        Steps (Move sim.view) k (start sim.cells sim.schedule.ranges) crew →
          k ≤ n ∧ (¬ crew.IsDone → ∃ next, Move sim.view crew next) ∧
            (IsFinal (Move sim.view) crew → k = n ∧ crew = final) := by
  have hsuits := Plan.schedule_suits hplan hfeeds
  have hvisited := Simulation.visited_computeAll hsuits
  obtain ⟨n, final, hway, hfollows⟩ := follows_computeAll hsuits
  have hdone : final.IsDone := hfollows.isDone hsuits
  have hfailures : final.failures = sim.computeAll.halted :=
    hfollows.failures_eq hvisited.haltCount
  have hfinal : IsFinal (Move sim.view) final := isFinal_of_isDone hdone
  have hapart : (start sim.cells sim.schedule.ranges).Apart := apart_start hsuits.tiles
  -- the way that follows the visits is one way to the end, and by the diamond no other ends elsewhere
  refine ⟨n, final, hway, hdone, hfollows.cells_eq, hfailures, ?_, fun k crew hcrew => ?_⟩
  · cases hfault : firstFault (groupFaults (sim.computeAll.cells.map (·.partition.name))
      sim.schedule.ranges sim.computeAll.halted) <;>
      simp only [Simulation.compute_eq, verdict, hfailures, hfollows.cells_eq, hfault]
  · obtain ⟨hle, hahead⟩ := (diamond sim.view).steps_toward hapart hway hfinal hcrew
    refine ⟨hle, fun hnot => ?_, fun hstuck => ?_⟩
    · generalize n - k = left at hahead
      cases hahead with
      | refl => exact absurd hdone hnot
      | head first _ => exact ⟨_, first⟩
    · exact (diamond sim.view).eq_of_isFinal hapart hway hfinal hcrew hstuck

/-- Partition 0 reads the other two. These form one group, whose first member replays nothing. -/
def crossPlan : Plan where
  partitions := [
    ⟨"sum", .empty, .ofList [("left", ⟨1, none⟩), ("right", ⟨2, some [0, 0]⟩)], [0], 0, 1, 1⟩,
    ⟨"left", .empty, ∅, [0], 0, 1, 1⟩,
    ⟨"right", .empty, .ofList [("param_values", ⟨1, none⟩)], [0], 0, 1, 1⟩]
  startTime := 0
  timelineDepth := 1
  groups := [[0], [1, 2]]

def crossSimulation : Simulation StockRule Unit where
  cells := (crossPlan.partitions.zip [.relay, .replay ⟨none⟩, .relay]).mapIdx fun index (p, rule) =>
    ⟨Simulation.makePartition index p rule, ⟨[0], 1, 1⟩⟩
  schedule := ⟨[⟨0, 1⟩, ⟨1, 3⟩], [1, 2, 0]⟩
  timeline := ⟨0, [], 0, 0⟩
  output := .silent
  stop := .steps 1
  pace := ()

theorem crossSimulation_interleavings :
    crossPlan.schedule = .ok crossSimulation.schedule ∧
    crossSimulation.cells.map (·.partition.feeds) = crossPlan.partitions.map (·.feeds) ∧
    ∃ (n : Nat) (final : Crew StockRule),
      Steps (Move crossSimulation.view) n
        (start crossSimulation.cells crossSimulation.schedule.ranges) final ∧ final.IsDone ∧
      final.cells = crossSimulation.computeAll.cells ∧
      final.failures = crossSimulation.computeAll.halted ∧
      final.verdict crossSimulation.schedule.ranges = crossSimulation.compute.result ∧
      ∀ (k : Nat) (crew : Crew StockRule),
        Steps (Move crossSimulation.view) k
          (start crossSimulation.cells crossSimulation.schedule.ranges) crew →
          k ≤ n ∧ (¬ crew.IsDone → ∃ next, Move crossSimulation.view crew next) ∧
            (IsFinal (Move crossSimulation.view) crew → k = n ∧ crew = final) :=
  ⟨rfl, rfl, interleavings_end_alike crossPlan rfl rfl⟩

end Tandem.Crew
