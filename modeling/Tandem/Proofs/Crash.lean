import Tandem.Proofs.Session

/-!
# Commit phases in which the output crashes

An output may crash on any partition that it is offered. The crash ends the commits of that partition's
group: the partition itself and all members before it have recorded their states, the members behind it
stay as they were, with their states still pending. Other groups are not touched by it, and the timeline
moves on in any case.
-/

namespace Tandem

variable {ρ τ : Type}

/-! ## One group -/

section Group

variable {output : Output} {time : Float} {step : Nat} {cells : List (Cell ρ)}

def Cell.Crashes (output : Output) (time : Float) (step : Nat) (cell : Cell ρ) : Prop :=
  ∃ crash, (cell.commit output time step).result = .error (.crash crash)

theorem commitGroup_cons_of_crash {cell : Cell ρ} (h : cell.Crashes output time step) :
    (commitGroup output time step (cell :: cells)).cells =
      (cell.commit output time step).next :: cells := by
  obtain ⟨crash, hcrash⟩ := h
  simp only [commitGroup, hcrash]

theorem commitGroup_cons_of_calm {cell : Cell ρ} (h : ¬ cell.Crashes output time step) :
    (commitGroup output time step (cell :: cells)).cells =
      (cell.commit output time step).next :: (commitGroup output time step cells).cells := by
  simp only [commitGroup]
  cases hresult : (cell.commit output time step).result with
  | ok _ => rfl
  | error stop =>
      cases stop with
      | fault fault => rfl
      | crash crash => exact absurd ⟨crash, hresult⟩ h

theorem length_commitGroup (output : Output) (time : Float) (step : Nat) (cells : List (Cell ρ)) :
    (commitGroup output time step cells).cells.length = cells.length :=
  (commitGroup_forall₂ output time step cells).length_eq.symm

theorem commitGroup_of_calm_before {i : Nat} {cell : Cell ρ} (hcell : cells[i]? = some cell)
    (h : ∀ j other, j < i → cells[j]? = some other → ¬ other.Crashes output time step) :
    (commitGroup output time step cells).cells[i]? = some (cell.commit output time step).next := by
  induction cells generalizing i with
  | nil => simp at hcell
  | cons first rest ih =>
      cases i with
      | zero =>
          obtain rfl : first = cell := by simpa using hcell
          by_cases hfirst : first.Crashes output time step
          · rw [commitGroup_cons_of_crash hfirst, List.getElem?_cons_zero]
          · rw [commitGroup_cons_of_calm hfirst, List.getElem?_cons_zero]
      | succ i =>
          have hfirst : ¬ first.Crashes output time step := h 0 first (Nat.succ_pos i) rfl
          rw [commitGroup_cons_of_calm hfirst, List.getElem?_cons_succ]
          exact ih (by simpa using hcell) fun j other hj hother =>
            h (j + 1) other (Nat.succ_lt_succ hj) (by simpa using hother)

theorem commitGroup_of_crash_before {i j : Nat} {other : Cell ρ} (hj : j < i)
    (hother : cells[j]? = some other) (hcrash : other.Crashes output time step) :
    (commitGroup output time step cells).cells[i]? = cells[i]? := by
  induction cells generalizing i j with
  | nil => simp at hother
  | cons first rest ih =>
      obtain ⟨i, rfl⟩ := Nat.exists_eq_succ_of_ne_zero (Nat.ne_of_gt (Nat.lt_of_le_of_lt j.zero_le hj))
      by_cases hfirst : first.Crashes output time step
      · rw [commitGroup_cons_of_crash hfirst, List.getElem?_cons_succ, List.getElem?_cons_succ]
      · cases j with
        | zero =>
            obtain rfl : first = other := by simpa using hother
            exact absurd hcrash hfirst
        | succ j =>
            rw [commitGroup_cons_of_calm hfirst, List.getElem?_cons_succ, List.getElem?_cons_succ]
            exact ih (Nat.lt_of_succ_lt_succ hj) (by simpa using hother)

/-! ## All groups -/

def Range.cellsOf (range : Range) (cells : List (Cell ρ)) : List (Cell ρ) :=
  (cells.drop range.start).take range.size

theorem Range.getElem?_cellsOf {range : Range} {i : Nat} (hi : i ∈ range.indices) :
    (range.cellsOf cells)[i - range.start]? = cells[i]? := by
  obtain ⟨hstart, hstop⟩ := Range.mem_indices.1 hi
  have hsize : i - range.start < range.size := by
    unfold Range.size
    omega
  rw [cellsOf, List.getElem?_take_of_lt hsize, List.getElem?_drop]
  congr 1
  omega

theorem getElem?_commitGroups {start stop : Nat} {ranges : List Range}
    (htiles : Tiles start stop ranges) (hlength : cells.length = stop) {range : Range}
    (hrange : range ∈ ranges) {i : Nat} (hi : i ∈ range.indices) :
    (commitGroups output time step (ranges.map Range.size) (cells.drop start)).cells[i - start]? =
      (commitGroup output time step (range.cellsOf cells)).cells[i - range.start]? := by
  induction ranges generalizing start with
  | nil => simp at hrange
  | cons first rest ih =>
      obtain ⟨rfl, hlt, hrest⟩ := htiles
      have hstop := hrest.le
      have hdrop : (cells.drop first.start).drop first.size = cells.drop first.stop := by
        rw [List.drop_drop, Range.size]
        congr 1
        omega
      have hfirst : (commitGroup output time step (first.cellsOf cells)).cells.length =
          first.stop - first.start := by
        rw [length_commitGroup, Range.cellsOf, List.length_take, List.length_drop, Range.size]
        omega
      obtain ⟨hle, hmem⟩ := Range.mem_indices.1 hi
      rw [List.map_cons, commitGroups]
      dsimp only
      rw [hdrop]
      rcases List.mem_cons.1 hrange with rfl | hrange
      · exact List.getElem?_append_left (by rw [← Range.cellsOf, hfirst]; omega)
      · have hbounds := hrest.bounds hrange
        have hbehind : (first.cellsOf cells).length ≤ i - first.start := by
          rw [← length_commitGroup output time step, hfirst]
          omega
        rw [← Range.cellsOf, List.getElem?_append_right (by rw [length_commitGroup]; exact hbehind),
          hfirst, ← ih hrest hrange]
        congr 1
        omega

end Group

/-! ## The phase -/

/-- The commits of a group get to partition `i`: no member before it crashes. -/
def Schedule.Reaches (schedule : Schedule) (crashes : Nat → Prop) (i : Nat) : Prop :=
  ∀ range ∈ schedule.ranges, i ∈ range.indices → ∀ j ∈ range.indices, j < i → ¬ crashes j

theorem Schedule.forall_reaches_iff {schedule : Schedule} {size : Nat} {crashes : Nat → Prop}
    (htiles : Tiles 0 size schedule.ranges) :
    (∀ i < size, schedule.Reaches crashes i) ↔
      ∀ range ∈ schedule.ranges, ∀ i ∈ range.indices, crashes i → i + 1 = range.stop := by
  constructor
  · intro h range hrange i hi hcrash
    obtain ⟨hstart, hstop⟩ := Range.mem_indices.1 hi
    have hbounds := htiles.bounds hrange
    by_contra hlast
    have hnext : i + 1 ∈ range.indices := Range.mem_indices.2 ⟨by omega, by omega⟩
    exact h (i + 1) (by omega) range hrange hnext i hi (Nat.lt_succ_self i) hcrash
  · intro h i _ range hrange hi j hj hlt hcrash
    have hlast := h range hrange j hj hcrash
    have hstop := (Range.mem_indices.1 hi).2
    omega

namespace Simulation

section

variable {sim : Simulation ρ τ} {time : Float} {step i : Nat} {cell : Cell ρ}
  {crashes : Nat → Prop}

/-- The commits that crash are those of the partitions with the given indices. -/
def CrashesAt (sim : Simulation ρ τ) (time : Float) (step : Nat) (crashes : Nat → Prop) : Prop :=
  ∀ (i : Nat) cell, sim.cells[i]? = some cell → (crashes i ↔ cell.Crashes sim.output time step)

theorem getElem?_commit (htiles : Tiles 0 sim.cells.length sim.schedule.ranges) {range : Range}
    (hrange : range ∈ sim.schedule.ranges) (hi : i ∈ range.indices) :
    (sim.commit time step).next.cells[i]? =
      (commitGroup sim.output time step (range.cellsOf sim.cells)).cells[i - range.start]? := by
  rw [commit_eq]
  exact getElem?_commitGroups htiles rfl hrange hi

theorem commit_of_reached (htiles : Tiles 0 sim.cells.length sim.schedule.ranges)
    (hcrashes : sim.CrashesAt time step crashes) (hcell : sim.cells[i]? = some cell)
    (h : sim.schedule.Reaches crashes i) :
    (sim.commit time step).next.cells[i]? = some (cell.commit sim.output time step).next := by
  have hlt := (List.getElem?_eq_some_iff.1 hcell).1
  obtain ⟨range, hrange, hi⟩ := htiles.getElem?_groupOf (Nat.zero_le i) hlt
  have hmem := List.mem_of_getElem? hrange
  obtain ⟨hstart, hstop⟩ := Range.mem_indices.1 hi
  rw [getElem?_commit htiles hmem hi]
  refine commitGroup_of_calm_before ((Range.getElem?_cellsOf hi).trans hcell) ?_
  intro j other hj hother
  have hindex : range.start + j ∈ range.indices := Range.mem_indices.2 ⟨by omega, by omega⟩
  have hsame : (range.cellsOf sim.cells)[range.start + j - range.start]? =
      sim.cells[range.start + j]? := Range.getElem?_cellsOf hindex
  rw [Nat.add_sub_cancel_left, hother] at hsame
  rw [← hcrashes _ other hsame.symm]
  exact h range hmem hi _ hindex (by omega)

theorem commit_of_unreached (htiles : Tiles 0 sim.cells.length sim.schedule.ranges)
    (hcrashes : sim.CrashesAt time step crashes) (hcell : sim.cells[i]? = some cell)
    (h : ¬ sim.schedule.Reaches crashes i) :
    (sim.commit time step).next.cells[i]? = some cell := by
  unfold Schedule.Reaches at h
  push Not at h
  obtain ⟨range, hmem, hi, j, hj, hlt, hcrash⟩ := h
  have hbound : j < sim.cells.length := by
    have := (List.getElem?_eq_some_iff.1 hcell).1
    omega
  have hother := List.getElem?_eq_getElem hbound
  obtain ⟨hstart, -⟩ := Range.mem_indices.1 hj
  rw [getElem?_commit htiles hmem hi, commitGroup_of_crash_before (by omega)
    ((Range.getElem?_cellsOf hj).trans hother) ((hcrashes j _ hother).1 hcrash),
    Range.getElem?_cellsOf hi, hcell]

theorem finishStep_returns (sim : Simulation ρ τ) : sim.finishStep.Returns := by
  intro crash h
  simp only [finishStep, commit] at h
  split at h <;> cases h

end

end Simulation

def Output.CrashesOn (output : Output) (plan : Plan) (states : List State) (time : Float) (step i : Nat) :
    Prop :=
  ∃ p state crash, plan.partitions[i]? = some p ∧ states[i]? = some state ∧
    (output.offer ⟨p.name, time, state⟩ step).1 = .error (.crash crash)

/-- The simulations that steps lead to, whatever the steps reply. The output may be another one in each
step. -/
inductive Attainable [UpdateRule ρ] [Pace τ] (plan : Plan) (behaviour : Behaviour ρ τ) :
    Simulation ρ τ → Prop
  | start {sim : Simulation ρ τ} {events : List Event}
      (h : Simulation.start plan behaviour = (.ok sim, events)) : Attainable plan behaviour sim
  | step {sim : Simulation ρ τ} (h : Attainable plan behaviour sim) (output : Output) :
      Attainable plan behaviour (sim.withOutput output).step.next

section Step

variable [UpdateRule ρ] {plan : Plan} {behaviour : Behaviour ρ τ} {sim : Simulation ρ τ}

theorem Attainable.fits [Pace τ] (h : Attainable plan behaviour sim) :
    plan.Fits sim.cells ∧ plan.schedule = .ok sim.schedule := by
  induction h with
  | start h => exact ⟨(Simulation.start_fits h).1, (Simulation.start_eq_ok h).1⟩
  | @step sim _ output ih =>
      have hfits : plan.Fits (sim.withOutput output).cells := ih.1
      obtain ⟨hnext, hschedule⟩ := hfits.step
      exact ⟨hnext, hschedule ▸ ih.2⟩

namespace Simulation

/-- Before the commit phase every partition has a pending state that its window can record. -/
theorem pending_of_success (sim : Simulation ρ τ) (hfits : plan.Fits sim.cells)
    (hschedule : plan.schedule = .ok sim.schedule) (hcompute : sim.compute.result = .ok ())
    {i : Nat} {cell : Cell ρ} (hcell : sim.cells[i]? = some cell) :
    ∃ state after p, sim.newStates[i]? = some state ∧ sim.computed.cells[i]? = some after ∧
      plan.partitions[i]? = some p ∧ after.partition.pending = some state ∧
      after.window = cell.window ∧ cell.window.Shaped ∧ state.length = cell.window.width ∧
      ∀ output time step, after.commit output time step =
        ⟨(output.offer ⟨p.name, time, state⟩ step).1, after.recorded state,
          (output.offer ⟨p.name, time, state⟩ step).2⟩ := by
  obtain ⟨p, hp, hconforms⟩ := hfits.exists_partition hcell
  obtain ⟨state, params, hstate, hwidth, -, -, hcomputed⟩ :=
    computed_of_success sim hfits hschedule hcompute hcell hp
  refine ⟨state, _, p, hstate, hcomputed, hp, rfl, rfl, hconforms.shaped, hwidth, ?_⟩
  intro output time step
  rw [← hconforms.name]
  exact Cell.commit_eq rfl hconforms.shaped hwidth

theorem crashesAt_computed (sim : Simulation ρ τ) (hfits : plan.Fits sim.cells)
    (hschedule : plan.schedule = .ok sim.schedule) (hcompute : sim.compute.result = .ok ())
    (time : Float) (step : Nat) :
    sim.computed.CrashesAt time step (sim.output.CrashesOn plan sim.newStates time step) := by
  intro i after hafter
  have hlt : i < sim.cells.length := length_computed sim ▸ (List.getElem?_eq_some_iff.1 hafter).1
  obtain ⟨state, found, p, hstate, hfound, hp, -, -, -, -, hcommit⟩ :=
    pending_of_success sim hfits hschedule hcompute (List.getElem?_eq_getElem hlt)
  obtain rfl := Option.some.inj (hafter.symm.trans hfound)
  unfold Cell.Crashes Output.CrashesOn
  rw [hcommit]
  constructor
  · rintro ⟨p', state', crash, hp', hstate', hcrash⟩
    obtain rfl := Option.some.inj (hp.symm.trans hp')
    obtain rfl := Option.some.inj (hstate.symm.trans hstate')
    exact ⟨crash, hcrash⟩
  · rintro ⟨crash, hcrash⟩
    exact ⟨p, state, crash, hp, hstate, hcrash⟩

theorem length_commit (sim : Simulation ρ τ) (time : Float) (step : Nat) :
    (sim.computed.commit time step).next.cells.length = sim.cells.length := by
  have hcommitted := commitGroups_forall₂ sim.computed.output time step
    (sim.computed.schedule.ranges.map Range.size) sim.computed.cells
  rw [commit_eq]
  exact hcommitted.length_eq.symm.trans (length_computed sim)

/-- What the commit phase makes of a cell: its new state is recorded, or still pending. -/
theorem getElem?_commit_computed (sim : Simulation ρ τ) (hfits : plan.Fits sim.cells)
    (hschedule : plan.schedule = .ok sim.schedule) (hcompute : sim.compute.result = .ok ())
    (time : Float) (step : Nat) {i : Nat} {cell : Cell ρ} (hcell : sim.cells[i]? = some cell) :
    let crashes := sim.output.CrashesOn plan sim.newStates time step
    ∃ state next, sim.newStates[i]? = some state ∧ state.length = cell.window.width ∧
      cell.window.Shaped ∧ (sim.computed.commit time step).next.cells[i]? = some next ∧
      (sim.schedule.Reaches crashes i →
        next.partition.pending = none ∧ next.window = cell.window.recorded state) ∧
      (¬ sim.schedule.Reaches crashes i →
        next.partition.pending = some state ∧ next.window = cell.window) := by
  intro crashes
  have htiles := tiles_computed sim hfits hschedule
  have hcrashes := crashesAt_computed sim hfits hschedule hcompute time step
  obtain ⟨state, after, p, hstate, hafter, hp, hpending, hwindow, hshaped, hwidth, hcommit⟩ :=
    pending_of_success sim hfits hschedule hcompute hcell
  by_cases hreached : sim.schedule.Reaches crashes i
  · have hdone := commit_of_reached htiles hcrashes hafter hreached
    rw [hcommit] at hdone
    exact ⟨state, _, hstate, hwidth, hshaped, hdone, fun _ => ⟨rfl, by rw [← hwindow]; rfl⟩,
      fun hnot => absurd hreached hnot⟩
  · have hleft := commit_of_unreached htiles hcrashes hafter hreached
    exact ⟨state, after, hstate, hwidth, hshaped, hleft, fun h => absurd h hreached,
      fun _ => ⟨hpending, hwindow⟩⟩

/-- Nothing stays pending exactly if the output crashes on last members of groups only. -/
theorem commit_computed_complete_iff (sim : Simulation ρ τ) (hfits : plan.Fits sim.cells)
    (hschedule : plan.schedule = .ok sim.schedule) (hcompute : sim.compute.result = .ok ())
    (time : Float) (step : Nat) :
    (∀ cell ∈ (sim.computed.commit time step).next.cells, cell.partition.pending = none) ↔
      ∀ range ∈ sim.schedule.ranges, ∀ i ∈ range.indices,
        sim.output.CrashesOn plan sim.newStates time step i → i + 1 = range.stop := by
  have hlength := length_commit sim time step
  rw [← Schedule.forall_reaches_iff (Plan.schedule_suits hschedule hfits.feeds_eq).tiles]
  constructor
  · intro hnone i hi
    obtain ⟨state, next, -, -, -, hnext, -, hleft⟩ := getElem?_commit_computed sim hfits hschedule
      hcompute time step (List.getElem?_eq_getElem hi)
    by_contra hunreached
    cases (hleft hunreached).1.symm.trans (hnone next (List.mem_of_getElem? hnext))
  · intro hall next hmem
    obtain ⟨i, hi⟩ := List.mem_iff_getElem?.1 hmem
    have hlt : i < sim.cells.length := hlength ▸ (List.getElem?_eq_some_iff.1 hi).1
    obtain ⟨state, found, -, -, -, hfound, hreached, -⟩ := getElem?_commit_computed sim hfits
      hschedule hcompute time step (List.getElem?_eq_getElem hlt)
    obtain rfl := Option.some.inj (hi.symm.trans hfound)
    exact (hreached (hall i hlt)).1

/-- After a compute phase that succeeds, a step comes back and moves the timeline on, and each partition has
recorded its new state unless the output crashed on an earlier member of its group. So all move on together
exactly if the output crashes on last members only. -/
theorem step_commits_up_to_crashes [Pace τ] {increment : Float} {pace : τ}
    (h : Attainable plan behaviour sim) (output : Output)
    (hpace : Pace.next sim.timeline.beginStep sim.pace = (.ok increment, pace))
    (hcompute : (sim.begun increment pace).compute.result = .ok ()) :
    let counted := sim.timeline.beginStep.setIncrement increment
    let time := sim.timeline.current + increment
    let states := (sim.begun increment pace).newStates
    let crashes := output.CrashesOn plan states time counted.step
    let reply := (sim.withOutput output).step
    plan.Solves (sim.cells.map (·.partition.rule)) ⟨sim.windows, counted⟩ states ∧
      reply.Returns ∧
      reply.next.timeline = counted.push time ∧
      reply.next.cells.length = sim.cells.length ∧
      (∀ (i : Nat) cell, sim.cells[i]? = some cell → ∃ state next,
        states[i]? = some state ∧ state.length = cell.window.width ∧
        reply.next.cells[i]? = some next ∧
        (sim.schedule.Reaches crashes i → next.partition.pending = none ∧
          next.window = { cell.window with
            values := state ++
              cell.window.values.take (cell.window.values.length - cell.window.width) } ∧
          next.window.row 0 = .ok state ∧
          (cell.window.width * cell.window.depth < Word.count → ∀ d, d + 1 < cell.window.depth →
            next.window.row (d + 1) = cell.window.row d)) ∧
        (¬ sim.schedule.Reaches crashes i →
          next.partition.pending = some state ∧ next.window = cell.window)) ∧
      ((∀ cell ∈ reply.next.cells, cell.partition.pending = none) ↔
        ∀ range ∈ sim.schedule.ranges, ∀ i ∈ range.indices, crashes i → i + 1 = range.stop) := by
  intro counted time states crashes reply
  obtain ⟨hfits, hschedule⟩ := h.fits
  let begun := (sim.withOutput output).begun increment pace
  have hbegun : begun.compute.result = .ok () :=
    (congrArg Reply.result (compute_withOutput (sim.begun increment pace) output)).trans hcompute
  have hpace' : Pace.next (sim.withOutput output).timeline.beginStep (sim.withOutput output).pace =
      (.ok increment, pace) := hpace
  have hstep : reply = ⟨begun.computed.finishStep.result, begun.computed.finishStep.next, _⟩ :=
    step_of_success hpace' hbegun
  have hnext : reply.next = { (begun.computed.commit time counted.step).next with
      timeline := counted.push time } := by
    rw [hstep]
    exact finishStep_next begun.computed
  have hcells : reply.next.cells = (begun.computed.commit time counted.step).next.cells := by
    rw [hnext]
  refine ⟨solves_newStates begun hfits hschedule hbegun, ?_, by rw [hnext], ?_,
    fun i cell hi => ?_, ?_⟩
  · rw [hstep]
    exact finishStep_returns begun.computed
  · rw [hcells]
    exact length_commit begun time counted.step
  · obtain ⟨state, next, hstate, hwidth, hshaped, hfound, hreached, hleft⟩ :=
      getElem?_commit_computed begun hfits hschedule hbegun time counted.step hi
    refine ⟨state, next, hstate, hwidth, hcells ▸ hfound, fun h => ?_, hleft⟩
    obtain ⟨hpending, hwindow⟩ := hreached h
    refine ⟨hpending, hwindow, ?_, fun hfit d hd => ?_⟩
    · rw [hwindow]
      exact hshaped.row_zero_recorded hwidth
    · rw [hwindow]
      exact hshaped.row_succ_recorded hfit hwidth hd
  · rw [hcells]
    exact commit_computed_complete_iff begun hfits hschedule hbegun time counted.step

/-- Two partitions of one group, which hold their states. -/
def pairPlan : Plan where
  partitions := [⟨"first", .empty, ∅, [5], 0, 1, 2⟩, ⟨"second", .empty, ∅, [7], 0, 1, 2⟩]
  startTime := 0
  timelineDepth := 1
  groups := [[0, 1]]

def pairBehaviour : Behaviour StockRule StockPace := .new [.hold, .hold] (.steps 1) (.constant 1)

def pairSimulation : Simulation StockRule StockPace where
  cells := [
    ⟨⟨.hold, ⟨∅, "first"⟩, "first", 0, ∅, none⟩, ⟨[5, 0], 1, 2⟩⟩,
    ⟨⟨.hold, ⟨∅, "second"⟩, "second", 1, ∅, none⟩, ⟨[7, 0], 1, 2⟩⟩]
  schedule := ⟨[⟨0, 2⟩], [0, 1]⟩
  timeline := ⟨0, [], 0, 0⟩
  output := .silent
  stop := .steps 1
  pace := .constant 1

def brittleOutput : Output where
  due := Output.always
  deliver record := (if record.series = "first" then .error (.crash .raised) else .ok (), [])

theorem pairSimulation_commits_up_to_crash :
    Attainable pairPlan pairBehaviour pairSimulation ∧
      ∃ first second,
        (pairSimulation.withOutput brittleOutput).step.next.cells[0]? = some first ∧
        (pairSimulation.withOutput brittleOutput).step.next.cells[1]? = some second ∧
        first.partition.pending = none ∧ first.window = ⟨[5, 5], 1, 2⟩ ∧
        second.partition.pending = some [7] ∧ second.window = ⟨[7, 0], 1, 2⟩ := by
  have hattainable : Attainable pairPlan pairBehaviour pairSimulation :=
    .start (rfl : Simulation.start _ _ = (_, []))
  have hpace : Pace.next pairSimulation.timeline.beginStep pairSimulation.pace =
      (.ok 1, .constant 1) := rfl
  obtain ⟨-, -, -, -, hcells, -⟩ := step_commits_up_to_crashes hattainable brittleOutput hpace rfl
  obtain ⟨_, first, hfirst, -, hnext, hreached, -⟩ := hcells 0 _ rfl
  obtain ⟨_, second, hsecond, -, hnext', -, hleft⟩ := hcells 1 _ rfl
  cases hfirst
  cases hsecond
  have hzero : pairSimulation.schedule.Reaches (brittleOutput.CrashesOn pairPlan [[5], [7]] (0 + 1) 1) 0 :=
    fun _ _ _ j _ hj => absurd hj (Nat.not_lt_zero j)
  have hone : ¬ pairSimulation.schedule.Reaches
      (brittleOutput.CrashesOn pairPlan [[5], [7]] (0 + 1) 1) 1 := fun h =>
    h ⟨0, 2⟩ List.mem_cons_self (by decide) 0 (by decide) (by decide)
      ⟨_, _, .raised, rfl, rfl, by simp [Output.offer, brittleOutput, Output.always]⟩
  obtain ⟨hnone, hwindow, -⟩ := hreached hzero
  obtain ⟨hpending, hsame⟩ := hleft hone
  exact ⟨hattainable, first, second, hnext, hnext', hnone, hwindow, hpending, hsame⟩

end Simulation

end Step

end Tandem
