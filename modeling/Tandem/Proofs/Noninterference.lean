import Mathlib.Data.Set.Defs
import Tandem.Proofs.Counterparts

/-!
# Partitions do not interfere

What a partition sees of others is what its feeds take from them. A set of partitions that take from each
other only is therefore a simulation of its own: its windows and the times are the same in all simulations
that have the set in common, whatever partitions, groups and rules these have beside it.
-/

namespace Tandem.Simulation

variable {ρ σ : Type} [UpdateRule ρ] [StockRules ρ] [UpdateRule σ] [StockRules σ] {plan other : Plan}
  {sim : Simulation ρ StockPace} {twin : Simulation σ StockPace} {same : Nat → Nat → Prop}

theorem counterparts_afterWith (h : Counterparts same plan other sim twin) (outputs outputs' : Nat → Output)
    (n : Nat)
    (hsteps : ∀ k < n, ∃ report,
      ((sim.afterWith outputs k).withOutput (outputs k)).step.result = .ok report)
    (hsteps' : ∀ k < n, ∃ report,
      ((twin.afterWith outputs' k).withOutput (outputs' k)).step.result = .ok report) :
    Counterparts same plan other (sim.afterWith outputs n) (twin.afterWith outputs' n) := by
  induction n with
  | zero => exact h
  | succ n ih =>
      have hbefore := ih (fun k hk => hsteps k (Nat.lt_succ_of_lt hk))
        fun k hk => hsteps' k (Nat.lt_succ_of_lt hk)
      have hnow := hbefore.withOutput (outputs n) (outputs' n)
      obtain ⟨report, hreport⟩ := hsteps n (Nat.lt_succ_self n)
      obtain ⟨report', hreport'⟩ := hsteps' n (Nat.lt_succ_self n)
      exact hnow.step (commitsCalmly_of_ok hnow.fits hnow.schedule hreport)
        (commitsCalmly_of_ok hnow.fits' hnow.schedule' hreport') (not_computeFails_of_ok hreport)
        (not_computeFails_of_ok hreport')

/-- Two simulations with the same stock pace have equal stock rules on a set of partitions that is closed
under feeds, and plans that agree there. After any number of steps that succeed in both, these partitions
have equal windows. -/
theorem partitions_do_not_interfere {behaviour : Behaviour ρ StockPace} {behaviour' : Behaviour σ StockPace}
    {events events' : List Event} (inside : Set Nat)
    (hclosed : ∀ i ∈ inside, ∀ p, plan.partitions[i]? = some p →
      ∀ feed ∈ p.feeds.values, feed.source ∈ inside)
    (hagree : ∀ i ∈ inside, plan.partitions[i]? = other.partitions[i]?)
    (htime : plan.startTime = other.startTime) (hpace : behaviour.pace = behaviour'.pace)
    (hrules : ∀ i ∈ inside, ∃ rule : StockRule, behaviour.rules[i]? = some (StockRules.ofStock rule) ∧
      behaviour'.rules[i]? = some (StockRules.ofStock rule))
    (hstart : start plan behaviour = (.ok sim, events))
    (hstart' : start other behaviour' = (.ok twin, events'))
    (outputs outputs' : Nat → Output) (n : Nat)
    (hsteps : ∀ k < n, ∃ report,
      ((sim.afterWith outputs k).withOutput (outputs k)).step.result = .ok report)
    (hsteps' : ∀ k < n, ∃ report,
      ((twin.afterWith outputs' k).withOutput (outputs' k)).step.result = .ok report) :
    (∀ i ∈ inside, ∃ window, (sim.afterWith outputs n).windows[i]? = some window ∧
        (twin.afterWith outputs' n).windows[i]? = some window) ∧
      ∀ d, d < plan.timelineDepth → d < other.timelineDepth → ∃ time,
        (sim.afterWith outputs n).timeline.timeAt d = .ok time ∧
          (twin.afterWith outputs' n).timeline.timeAt d = .ok time := by
  have hplanned : ∀ i j, i = j ∧ i ∈ inside → ∃ p q, plan.partitions[i]? = some p ∧
      other.partitions[j]? = some q ∧ p.Matches (fun i j => i = j ∧ i ∈ inside) q := by
    rintro i _ ⟨rfl, hi⟩
    obtain ⟨rule, hrule, -⟩ := hrules i hi
    obtain ⟨-, hcount, -⟩ := start_eq_ok hstart
    have hlt : i < plan.partitions.length := by
      rw [← Plan.size, ← hcount]
      exact (List.getElem?_eq_some_iff.1 hrule).1
    have hp := List.getElem?_eq_getElem hlt
    refine ⟨_, _, hp, (hagree i hi).symm.trans hp, rfl, fun _ hnone => ⟨hnone, rfl⟩, ?_, rfl, rfl, rfl⟩
    exact fun param feed hfeed =>
      ⟨feed, hfeed, ⟨rfl, hclosed i hi _ hp feed (Table.mem_values_iff.2 ⟨param, hfeed⟩)⟩, rfl⟩
  have hcounterparts := Counterparts.of_start hstart hstart' hplanned
    (fun i _ hij => hij.1 ▸ hrules i hij.2) hpace htime
  have hafter := counterparts_afterWith hcounterparts outputs outputs' n hsteps hsteps'
  refine ⟨fun i hi => ?_, fun d hd hd' => ?_⟩
  · obtain ⟨cell, -, hcell, -⟩ := hafter.cell i i ⟨rfl, hi⟩
    have hwindow : (sim.afterWith outputs n).windows[i]? = some cell.window := by
      rw [windows, List.getElem?_map, hcell]
      rfl
    exact ⟨cell.window, hwindow, (hafter.windows ⟨rfl, hi⟩).symm.trans hwindow⟩
  · rw [← depth_of_start hstart, ← depth_afterWith sim outputs n] at hd
    rw [← depth_of_start hstart', ← depth_afterWith twin outputs' n] at hd'
    obtain ⟨time, htimeAt⟩ := Timeline.exists_timeAt hd
    exact ⟨time, htimeAt, (hafter.timeline.timeAt hd hd').symm.trans htimeAt⟩

def pairPartitions : List PartitionPlan := [
  ⟨"reader", .empty, .ofList [(Relay.param, ⟨1, some [0]⟩)], [0], 0, 1, 2⟩,
  ⟨"source", .empty, ∅, [5, 7], 0, 2, 2⟩]

def quietPlan : Plan := ⟨pairPartitions, 0, 1, []⟩

def quietBehaviour : Behaviour StockRule StockPace := .new [.relay, .hold] (.steps 9) (.constant 1)

def quietSimulation : Simulation StockRule StockPace where
  cells := [
    ⟨⟨.relay, ⟨∅, "reader"⟩, "reader", 0, .ofList [(Relay.param, ⟨1, some [0]⟩)], none⟩, ⟨[0, 0], 1, 2⟩⟩,
    ⟨⟨.hold, ⟨∅, "source"⟩, "source", 1, ∅, none⟩, ⟨[5, 7, 0, 0], 2, 2⟩⟩]
  schedule := ⟨[⟨0, 1⟩, ⟨1, 2⟩], [1, 0]⟩
  timeline := ⟨0, [], 0, 0⟩
  output := .silent
  stop := .steps 9
  pace := .constant 1

/-- A guest that is fed by both of them, in a simulation with other groups and a longer timeline. -/
def crowdedPlan : Plan where
  partitions := pairPartitions ++ [
    ⟨"guest", .empty, .ofList [("first", ⟨0, none⟩), ("second", ⟨1, none⟩)], [1, 2, 3], 9, 3, 1⟩]
  startTime := 0
  timelineDepth := 3
  groups := [[0], [1, 2]]

/-- The rule of the guest will run a whole simulation in each step, once it is past its burn-in. -/
def guestRule : Nested StockRule StockPace := { Nested.new quietPlan quietBehaviour with burnIn := 9 }

def crowdedBehaviour : Behaviour (Layer StockRule StockPace) StockPace :=
  .new [.plain .relay, .plain .hold, .nested guestRule] (.steps 2) (.constant 1)

def crowdedSimulation : Simulation (Layer StockRule StockPace) StockPace where
  cells := [
    ⟨⟨.plain .relay, ⟨∅, "reader"⟩, "reader", 0, .ofList [(Relay.param, ⟨1, some [0]⟩)], none⟩,
      ⟨[0, 0], 1, 2⟩⟩,
    ⟨⟨.plain .hold, ⟨∅, "source"⟩, "source", 1, ∅, none⟩, ⟨[5, 7, 0, 0], 2, 2⟩⟩,
    ⟨⟨.nested guestRule, ⟨∅, "guest"⟩, "guest", 2,
      .ofList [("first", ⟨0, none⟩), ("second", ⟨1, none⟩)], none⟩, ⟨[1, 2, 3], 3, 1⟩⟩]
  schedule := ⟨[⟨0, 1⟩, ⟨1, 3⟩], [1, 0, 2]⟩
  timeline := ⟨0, [0, 0], 0, 0⟩
  output := .silent
  stop := .steps 2
  pace := .constant 1

theorem crowdedSimulation_does_not_interfere :
    start quietPlan quietBehaviour = (.ok quietSimulation, []) ∧
      start crowdedPlan crowdedBehaviour = (.ok crowdedSimulation, []) ∧
      ∀ i < 2, ∃ window, (quietSimulation.afterWith (fun _ => .silent) 2).windows[i]? = some window ∧
        (crowdedSimulation.afterWith (fun _ => .recordAll "states") 2).windows[i]? = some window := by
  have hstart : start quietPlan quietBehaviour = (.ok quietSimulation, []) := rfl
  have hstart' : start crowdedPlan crowdedBehaviour = (.ok crowdedSimulation, []) := rfl
  have hclosed : ∀ i ∈ {i | i < 2}, ∀ p, quietPlan.partitions[i]? = some p →
      ∀ feed ∈ p.feeds.values, feed.source ∈ {i | i < 2} := by
    intro i hi p hp feed hfeed
    obtain rfl | rfl : i = 0 ∨ i = 1 := by
      have hlt : i < 2 := hi
      omega
    · cases hp
      obtain rfl := List.mem_singleton.1 (show feed ∈ [⟨1, some [0]⟩] from hfeed)
      exact Nat.one_lt_two
    · cases hp
      cases hfeed
  have hagree : ∀ i ∈ {i | i < 2}, quietPlan.partitions[i]? = crowdedPlan.partitions[i]? :=
    fun i hi => (List.getElem?_append_left (show i < pairPartitions.length from hi)).symm
  have hrules : ∀ i ∈ {i | i < 2}, ∃ rule : StockRule,
      quietBehaviour.rules[i]? = some (StockRules.ofStock rule) ∧
        crowdedBehaviour.rules[i]? = some (StockRules.ofStock rule) := by
    intro i hi
    obtain rfl | rfl : i = 0 ∨ i = 1 := by
      have hlt : i < 2 := hi
      omega
    · exact ⟨.relay, rfl, rfl⟩
    · exact ⟨.hold, rfl, rfl⟩
  have hsteps : ∀ k < 2, ∃ report, ((quietSimulation.afterWith (fun _ => .silent) k).withOutput
      .silent).step.result = .ok report := by
    intro k hk
    obtain rfl | rfl : k = 0 ∨ k = 1 := by omega
    · exact ⟨_, rfl⟩
    · exact ⟨_, rfl⟩
  have hsteps' : ∀ k < 2, ∃ report, ((crowdedSimulation.afterWith (fun _ => .recordAll "states")
      k).withOutput (.recordAll "states")).step.result = .ok report := by
    intro k hk
    obtain rfl | rfl : k = 0 ∨ k = 1 := by omega
    · exact ⟨_, rfl⟩
    · exact ⟨_, rfl⟩
  have hpace : quietBehaviour.pace = crowdedBehaviour.pace := rfl
  exact ⟨hstart, hstart', (partitions_do_not_interfere {i | i < 2} hclosed hagree rfl hpace hrules hstart
    hstart' _ _ 2 hsteps hsteps').1⟩

end Tandem.Simulation
