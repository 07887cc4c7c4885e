import Tandem.Proofs.Bounds
import Tandem.Proofs.Crash

/-!
# Whom a failed compute phase blames

One failing rule can keep many partitions from computing: the later members of its group are never reached,
and whoever waits for a state of theirs fails in turn. Among the failures of the groups there is always one
that is no such consequence, and the first of these is what the step reports.
-/

namespace Tandem

theorem firstFault_of_culprit (names : List String) {ranges : List Range}
    {failures : List (Option Stop)} {g : Nat} {range : Range} {stop : Stop}
    (hrange : ranges[g]? = some range) (hfailure : failures[g]? = some (some stop))
    (hown : (stop.report (names.getD range.start "")).isKnockOn = false) :
    ∃ (k : Nat) (found : Range) (first : Stop),
      ranges[k]? = some found ∧ failures[k]? = some (some first) ∧
      firstFault (groupFaults names ranges failures) =
        some (first.report (names.getD found.start "")) ∧
      (first.report (names.getD found.start "")).isKnockOn = false ∧
      ∀ (j : Nat) (other : Range) (earlier : Stop), j < k → ranges[j]? = some other →
        failures[j]? = some (some earlier) →
        (earlier.report (names.getD other.start "")).isKnockOn = true := by
  let own (entry : Range × Option Stop) : Bool :=
    (entry.2.map (Stop.report (names.getD entry.1.start ""))).any fun fault => !fault.isKnockOn
  have hsome : ((ranges.zip failures).find? own).isSome := by
    rw [List.find?_isSome]
    exact ⟨(range, some stop), List.mem_of_getElem? (List.getElem?_zip_eq_some.2 ⟨hrange, hfailure⟩),
      by simp only [own, Option.map_some, Option.any_some, hown, Bool.not_false]⟩
  obtain ⟨⟨found, failure⟩, hfind⟩ := Option.isSome_iff_exists.1 hsome
  obtain ⟨hfound, k, hk, hentry, hbefore⟩ := List.find?_eq_some_iff_getElem.1 hfind
  obtain ⟨first, rfl⟩ : ∃ first, failure = some first := by
    cases failure with
    | none => simp [own] at hfound
    | some first => exact ⟨first, rfl⟩
  have hplace := List.getElem?_zip_eq_some.1 ((List.getElem?_eq_getElem hk).trans (congrArg some hentry))
  refine ⟨k, found, first, hplace.1, hplace.2, ?_, ?_, fun j other earlier hj hother hearlier => ?_⟩
  · have hfault : (groupFaults names ranges failures).find? (fun fault => !fault.isKnockOn) =
        some (first.report (names.getD found.start "")) := by
      rw [groupFaults, List.find?_filterMap]
      change ((ranges.zip failures).find? own).bind _ = _
      rw [hfind]
      rfl
    rw [firstFault, hfault]
  · simpa only [own, Option.map_some, Option.any_some, Bool.not_eq_true'] using hfound
  · have hpair : (ranges.zip failures)[j]? = some (other, some earlier) :=
      List.getElem?_zip_eq_some.2 ⟨hother, hearlier⟩
    have hno := hbefore j hj
    rw [(List.getElem?_eq_some_iff.1 hpair).2] at hno
    simpa only [own, Option.map_some, Option.any_some, Bool.not_not] using hno

namespace Simulation

variable {ρ τ : Type} [UpdateRule ρ] {sim : Simulation ρ τ}

theorem Starves.isKnockOn_report {i : Nat} {stop : Stop} (h : sim.Starves i stop) (leader : String) :
    (stop.report leader).isKnockOn = true := by
  obtain ⟨_, _, _, -, -, -, rfl⟩ := h
  rfl

theorem FailsItself.isKnockOn_report {i : Nat} {stop : Stop} (h : sim.FailsItself i stop)
    (leader : String) : (stop.report leader).isKnockOn = false := by
  obtain ⟨_, _, _, -, -, hown⟩ := h
  exact hown.isKnockOn_report leader

theorem InBounds.exists_failsItself (h : sim.InBounds) (hfails : sim.compute.result ≠ .ok ()) :
    ∃ i stop, sim.FailsAt i stop ∧ sim.FailsItself i stop := by
  -- all sources of the first partition that sends nothing come before it and have sent theirs
  obtain ⟨i, stop, cell, hat, hcell, hfed⟩ := exists_failsAt_fed h.suits hfails
  refine ⟨i, stop, hat, ?_⟩
  rcases h.failsAt_cases hat with hself | ⟨other, param, feed, hother, hfeed, hnone, -⟩
  · exact hself
  · obtain rfl := Option.some.inj (hcell.symm.trans hother)
    exact absurd hnone (hfed feed (Table.mem_values_iff.2 ⟨param, hfeed⟩))

/-- The group of a partition that fails is halted by it, and its fault names the group's first member. -/
theorem InBounds.group_of_failsAt (h : sim.InBounds) {i : Nat} {stop : Stop}
    (hat : sim.FailsAt i stop) :
    ∃ range leader, sim.schedule.ranges[groupOf sim.schedule.ranges i]? = some range ∧
      i ∈ range.indices ∧ sim.cells[range.start]? = some leader ∧
      sim.names.getD range.start "" = leader.partition.name ∧
      sim.computeAll.halted[groupOf sim.schedule.ranges i]? = some (some stop) := by
  have hhalt := (haltOf_eq_some_iff h.suits).2 ⟨i, rfl, hat⟩
  obtain ⟨cell, hcell, -, -⟩ := hat
  obtain ⟨range, hrange, hi⟩ := h.suits.exists_range (List.getElem?_eq_some_iff.1 hcell).1
  have hbounds := h.suits.tiles.bounds (List.mem_of_getElem? hrange)
  have hleader := List.getElem?_eq_getElem (show range.start < sim.cells.length by omega)
  refine ⟨range, _, hrange, hi, hleader, ?_, Option.join_eq_some_iff.1 hhalt⟩
  rw [List.getD_eq_getElem?_getD, names, List.getElem?_map, hleader]
  rfl

/-- A failed compute phase reports the failure of the first group in which the first partition to fail
failed by itself. -/
theorem InBounds.compute_blames (h : sim.InBounds) (hfails : sim.compute.result ≠ .ok ()) :
    ∃ (g i : Nat) (range : Range) (leader : Cell ρ) (stop : Stop),
      sim.schedule.ranges[g]? = some range ∧ sim.cells[range.start]? = some leader ∧
      i ∈ range.indices ∧ sim.FailsAt i stop ∧ sim.FailsItself i stop ∧
      sim.compute.result = .error (.fault (stop.report leader.partition.name)) ∧
      ∀ j other, groupOf sim.schedule.ranges j < g → sim.FailsAt j other → sim.Starves j other := by
  obtain ⟨i, stop, hat, hself⟩ := h.exists_failsItself hfails
  obtain ⟨range, leader, hrange, -, -, -, hhalted⟩ := h.group_of_failsAt hat
  obtain ⟨g, found, first, hfound, hfirst, hfault, hown, hbefore⟩ := firstFault_of_culprit sim.names
    hrange hhalted (hself.isKnockOn_report _)
  obtain ⟨k, rfl, hk⟩ := (haltOf_eq_some_iff h.suits).1 (Option.join_eq_some_iff.2 hfirst)
  obtain ⟨found', leader, hfound', hmem, hleader, hname, -⟩ := h.group_of_failsAt hk
  obtain rfl := Option.some.inj (hfound.symm.trans hfound')
  refine ⟨_, k, found, leader, first, hfound, hleader, hmem, hk, ?_, ?_, fun j other hj hat => ?_⟩
  · rcases h.failsAt_cases hk with hself | hstarves
    · exact hself
    · cases hown.symm.trans (hstarves.isKnockOn_report _)
  · rw [compute_eq, names_computeAll, hfault, hname]
  · rcases h.failsAt_cases hat with hself | hstarves
    · obtain ⟨range, leader, hrange, -, -, -, hhalted⟩ := h.group_of_failsAt hat
      have hknock := hbefore _ range other hj hrange hhalted
      cases hknock.symm.trans (hself.isKnockOn_report _)
    · exact hstarves

/-- A step whose compute phase fails reports a partition that failed by itself: its rule refused, crashed or
gave a state of another width. In each group before its own the first to fail had waited for a state in
vain. -/
theorem failed_phase_blames_culprit [Pace τ] {plan : Plan} {behaviour : Behaviour ρ τ}
    (h : Attainable plan behaviour sim) (output : Output) {increment : Float} {pace : τ}
    (hpace : Pace.next sim.timeline.beginStep sim.pace = (.ok increment, pace))
    (hfails : (sim.begun increment pace).compute.result ≠ .ok ()) :
    let phase := sim.begun increment pace
    let reply := (sim.withOutput output).step
    ∃ (g i : Nat) (range : Range) (leader cell next : Cell ρ) (stop : Stop) (params : Params)
      (answer : Reply Emission ρ State),
      reply.result = .error (.fault (stop.report leader.partition.name)) ∧
      (∀ name param, stop.report leader.partition.name ≠ .feedUnavailable name param) ∧
      sim.schedule.ranges[g]? = some range ∧ sim.cells[range.start]? = some leader ∧
      i ∈ range.indices ∧ sim.cells[i]? = some cell ∧
      phase.Calls i params answer ∧
      reply.next.cells[i]? = some next ∧ next.partition.rule = answer.next ∧
      Partition.OwnFailure cell.partition.name (sim.timeline.current + increment) cell.window.width
        answer.result stop ∧
      phase.FailsAt i stop ∧
      ∀ j other, groupOf sim.schedule.ranges j < g → phase.FailsAt j other → phase.Starves j other := by
  intro phase reply
  obtain ⟨hfits, hschedule⟩ := h.fits
  have hbounds : phase.InBounds := Plan.Fits.inBounds hfits hschedule
  obtain ⟨g, i, range, leader, stop, hrange, hleader, hi, hat, ⟨cell, params, answer, hcell, hcalls, hown⟩,
    hresult, hbefore⟩ := hbounds.compute_blames hfails
  have hpace' : Pace.next (sim.withOutput output).timeline.beginStep (sim.withOutput output).pace =
      (.ok increment, pace) := hpace
  have hother : ((sim.withOutput output).begun increment pace).compute.result =
      .error (.fault (stop.report leader.partition.name)) :=
    (compute_result_withOutput phase output).trans hresult
  have hstep : reply = _ := step_of_failure hpace' hother
  obtain ⟨after, hafter, hrule⟩ := hcalls.exists_rule hbounds.suits
  refine ⟨g, i, range, leader, cell, ⟨after.partition.discard, after.window⟩, stop, params, answer, ?_,
    fun name param heq => ?_, hrange, hleader, hi, hcell, hcalls, ?_, hrule, hown, hat, hbefore⟩
  · rw [hstep]
  · have hknock := hown.isKnockOn_report leader.partition.name
    rw [heq] at hknock
    cases hknock
  · have hcells : reply.next.cells = phase.computeAll.cells.map fun cell =>
        { cell with partition := cell.partition.discard } := by
      rw [hstep]
      rfl
    rw [hcells, List.getElem?_map, hafter]
    rfl

/-- A reader in the first group waits for a partition of the second, which has nothing to replay. -/
def thirstyPlan : Plan where
  partitions := [
    ⟨"reader", .empty, .ofList [(Relay.param, ⟨2, none⟩)], [0], 0, 1, 1⟩,
    ⟨"steady", .empty, ∅, [3], 0, 1, 1⟩,
    ⟨"source", .empty, ∅, [5], 0, 1, 1⟩]
  startTime := 0
  timelineDepth := 1
  groups := [[0], [1, 2]]

def thirstyBehaviour : Behaviour StockRule StockPace :=
  .new [.relay, .hold, .replay ⟨none⟩] (.steps 1) (.constant 1)

def thirstySimulation : Simulation StockRule StockPace where
  cells := [
    ⟨⟨.relay, ⟨∅, "reader"⟩, "reader", 0, .ofList [(Relay.param, ⟨2, none⟩)], none⟩, ⟨[0], 1, 1⟩⟩,
    ⟨⟨.hold, ⟨∅, "steady"⟩, "steady", 1, ∅, none⟩, ⟨[3], 1, 1⟩⟩,
    ⟨⟨.replay ⟨none⟩, ⟨∅, "source"⟩, "source", 2, ∅, none⟩, ⟨[5], 1, 1⟩⟩]
  schedule := ⟨[⟨0, 1⟩, ⟨1, 3⟩], [1, 2, 0]⟩
  timeline := ⟨0, [], 0, 0⟩
  output := .silent
  stop := .steps 1
  pace := .constant 1

theorem thirstySimulation_blames_source :
    Attainable thirstyPlan thirstyBehaviour thirstySimulation ∧
      ∃ params answer cause, (thirstySimulation.begun 1 (.constant 1)).Calls 2 params answer ∧
        answer.result = .error (.fault cause) ∧
        thirstySimulation.step.result = .error (.fault (.ruleFailed "source" (0 + 1) cause)) ∧
        ∃ stop, (thirstySimulation.begun 1 (.constant 1)).Starves 0 stop := by
  have hattainable : Attainable thirstyPlan thirstyBehaviour thirstySimulation :=
    .start (rfl : Simulation.start _ _ = (_, []))
  have hpace : Pace.next thirstySimulation.timeline.beginStep thirstySimulation.pace =
      (.ok 1, .constant 1) := rfl
  have hresult : (thirstySimulation.begun 1 (.constant 1)).compute.result =
      .error (.fault (.ruleFailed "source" (0 + 1) (.invalid (.noReplayData "source")))) := rfl
  have hstep : thirstySimulation.step.result = .error (.fault (.ruleFailed "source" _ _)) :=
    congrArg Reply.result (step_of_failure hpace hresult)
  obtain ⟨g, i, range, leader, cell, _, stop, params, answer, hreply, -, hrange, -, hi, hcell, hcalls,
    -, -, hown, -, hbefore⟩ := failed_phase_blames_culprit hattainable .silent hpace
      (by rw [hresult]; exact nofun)
  have hblamed := Stop.fault.inj (Except.error.inj (hstep.symm.trans hreply))
  cases hown with
  | crashed hanswer => cases hblamed
  | misshapen hanswer hwidth => cases hblamed
  | refused hanswer =>
      obtain ⟨hname, -, rfl⟩ := Fault.ruleFailed.inj hblamed
      obtain rfl : i = 2 := by
        match i, hcell with
        | 0, hcell | 1, hcell =>
            cases hcell
            exact absurd hname (by decide)
        | 2, _ => rfl
        | _ + 3, hcell => cases hcell
      obtain rfl : g = 1 := by
        match g, hrange with
        | 0, hrange =>
            cases hrange
            simp at hi
        | 1, _ => rfl
        | _ + 2, hrange => cases hrange
      exact ⟨hattainable, params, answer, _, hcalls, hanswer, hstep, _, hbefore 0 _ (by decide)
        ⟨_, rfl, fun j _ hj => absurd hj (Nat.not_lt_zero j), rfl⟩⟩

end Simulation

end Tandem
