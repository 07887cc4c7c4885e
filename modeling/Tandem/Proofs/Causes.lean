import Tandem.Proofs.Blame
import Tandem.Proofs.Rules
import Tandem.Proofs.Workers.Handoff

/-!
# Why steps fail

A step has branches that only report a broken promise: a commit finds nothing pending, a window is given a
row of another width, a worker is left without work, an index leads nowhere. None of them is ever taken. A
step fails because its pace refuses, because a rule or the output refuses or crashes, or because a rule gives
a state of another width, and every row that it adds to a window was computed in that step.
-/

namespace Tandem

/-! ## Faults of commits -/

theorem Output.offer_eq_error {output : Output} {record : Record} {step : Nat} {stop : Stop}
    (h : (output.offer record step).1 = .error stop) :
    (∃ crash, stop = .crash crash ∧
        (output.due record step = .error crash ∨ (output.deliver record).1 = .error (.crash crash))) ∨
      ∃ fault, stop = .fault (.outputFailed record.series record.time fault.message) ∧
        (output.deliver record).1 = .error (.fault fault) := by
  unfold offer at h
  split at h
  next crash hdue =>
    cases h
    exact Or.inl ⟨crash, rfl, Or.inl hdue⟩
  next => cases h
  next =>
    split at h
    next fault emitted hdeliver =>
      cases h
      exact Or.inr ⟨fault, rfl, by rw [hdeliver]⟩
    next hnot =>
      cases stop with
      | fault fault => exact (hnot fault _ (Prod.ext h rfl)).elim
      | crash crash => exact Or.inl ⟨crash, rfl, Or.inr h⟩

section Commit

variable {ρ : Type} {output : Output} {time : Float} {step : Nat} {cells : List (Cell ρ)}

theorem exists_of_commitGroup_failure {stop : Stop}
    (h : (commitGroup output time step cells).failure = some stop) :
    ∃ (i : Nat) (cell : Cell ρ), cells[i]? = some cell ∧
      (cell.commit output time step).result = .error stop := by
  induction cells with
  | nil => cases h
  | cons cell rest ih =>
      have hlater : (commitGroup output time step rest).failure = some stop → ∃ (i : Nat) (found : Cell ρ),
          (cell :: rest)[i]? = some found ∧ (found.commit output time step).result = .error stop := by
        intro hrest
        obtain ⟨i, found, hfound, hresult⟩ := ih hrest
        exact ⟨i + 1, found, hfound, hresult⟩
      simp only [commitGroup] at h
      cases hresult : (cell.commit output time step).result with
      | ok _ =>
          rw [hresult] at h
          exact hlater h
      | error first =>
          have hself : first = stop → ∃ (i : Nat) (found : Cell ρ), (cell :: rest)[i]? = some found ∧
              (found.commit output time step).result = .error stop :=
            fun heq => ⟨0, cell, rfl, heq ▸ hresult⟩
          cases first with
          | crash crash =>
              rw [hresult] at h
              exact hself (Option.some.inj h)
          | fault fault =>
              rw [hresult] at h
              dsimp only at h
              cases hrest : (commitGroup output time step rest).failure with
              | none =>
                  rw [hrest] at h
                  exact hself (Option.some.inj h)
              | some later =>
                  rw [hrest] at h
                  cases later with
                  | crash crash => exact hlater (hrest.trans h)
                  | fault other => exact hself (Option.some.inj h)

theorem getElem?_commitGroups_failure {start stop g : Nat} {ranges : List Range} {range : Range}
    (htiles : Tiles start stop ranges) (hrange : ranges[g]? = some range) :
    (commitGroups output time step (ranges.map Range.size) (cells.drop start)).failure[g]? =
      some (commitGroup output time step (range.cellsOf cells)).failure := by
  induction ranges generalizing start g with
  | nil => cases hrange
  | cons first rest ih =>
      obtain ⟨rfl, hlt, hrest⟩ := htiles
      have hdrop : (cells.drop first.start).drop first.size = cells.drop first.stop := by
        rw [List.drop_drop, Range.size]
        congr 1
        omega
      rw [List.map_cons, commitGroups]
      dsimp only
      rw [hdrop]
      cases g with
      | zero =>
          cases hrange
          rfl
      | succ g => exact ih hrest hrange

theorem exists_of_firstFault {names : List String} {ranges : List Range} {failures : List (Option Stop)}
    {fault : Fault} (h : firstFault (groupFaults names ranges failures) = some fault) :
    ∃ (g : Nat) (range : Range) (stop : Stop), ranges[g]? = some range ∧
      failures[g]? = some (some stop) ∧ fault = stop.report (names.getD range.start "") := by
  have hmem : fault ∈ groupFaults names ranges failures := by
    unfold firstFault at h
    split at h
    next hfind =>
      cases h
      exact List.mem_of_find?_eq_some hfind
    next => exact List.mem_of_head? h
  obtain ⟨⟨range, failure⟩, hpair, hfault⟩ := List.mem_filterMap.1 hmem
  obtain ⟨stop, rfl, rfl⟩ := Option.map_eq_some_iff.1 hfault
  obtain ⟨g, hg⟩ := List.mem_iff_getElem?.1 hpair
  obtain ⟨hrange, hfailure⟩ := List.getElem?_zip_eq_some.1 hg
  exact ⟨g, range, stop, hrange, hfailure, rfl⟩

end Commit

namespace Simulation

variable {ρ τ : Type} {sim : Simulation ρ τ}

theorem names_commit (sim : Simulation ρ τ) (time : Float) (step : Nat) :
    (sim.commit time step).next.names = sim.names := by
  rw [commit_eq]
  refine (map_eq_of_forall₂ ?_ (commitGroups_forall₂ sim.output time step _ sim.cells)).symm
  rintro cell _ (rfl | rfl)
  · rfl
  · simp only [Cell.commit, Partition.commit]
    split
    · rfl
    · split <;> rfl

theorem exists_of_commit_error {time : Float} {step : Nat} {stop : Stop}
    (htiles : Tiles 0 sim.cells.length sim.schedule.ranges)
    (h : (sim.commit time step).result = .error stop) :
    ∃ (range : Range) (leader cell : Cell ρ) (i : Nat) (first : Stop), range ∈ sim.schedule.ranges ∧
      sim.cells[range.start]? = some leader ∧ i ∈ range.indices ∧ sim.cells[i]? = some cell ∧
      (cell.commit sim.output time step).result = .error first ∧
      stop = .fault (first.report leader.partition.name) := by
  have hnames := sim.names_commit time step
  have hresult : ∃ fault, stop = .fault fault ∧ firstFault (groupFaults (sim.commit time step).next.names
      sim.schedule.ranges (commitGroups sim.output time step (sim.schedule.ranges.map Range.size)
        sim.cells).failure) = some fault := by
    rw [commit_eq]
    simp only [commit] at h
    split at h
    next fault hfault =>
      cases h
      exact ⟨fault, rfl, hfault⟩
    next => cases h
  obtain ⟨fault, rfl, hfault⟩ := hresult
  rw [hnames] at hfault
  obtain ⟨g, range, first, hrange, hfailure, rfl⟩ := exists_of_firstFault hfault
  have hmem := List.mem_of_getElem? hrange
  have hbounds := htiles.bounds hmem
  have hgroup : some first = (commitGroup sim.output time step (range.cellsOf sim.cells)).failure :=
    Option.some.inj (hfailure.symm.trans (getElem?_commitGroups_failure htiles hrange))
  obtain ⟨k, cell, hcell, hfirst⟩ := exists_of_commitGroup_failure hgroup.symm
  have hk : k < range.size := by
    have hlt := (List.getElem?_eq_some_iff.1 hcell).1
    rw [Range.cellsOf, List.length_take] at hlt
    omega
  have hindex : range.start + k ∈ range.indices := by
    rw [Range.size] at hk
    exact Range.mem_indices.2 ⟨by omega, by omega⟩
  have hplace : (range.cellsOf sim.cells)[range.start + k - range.start]? =
      sim.cells[range.start + k]? := Range.getElem?_cellsOf hindex
  rw [Nat.add_sub_cancel_left, hcell] at hplace
  have hleader := List.getElem?_eq_getElem (show range.start < sim.cells.length by omega)
  refine ⟨range, _, cell, range.start + k, first, hmem, hleader, hindex, hplace.symm, hfirst, ?_⟩
  rw [List.getD_eq_getElem?_getD, names, List.getElem?_map, hleader]
  rfl

/-! ## Faults of steps -/

variable [UpdateRule ρ] [Pace τ] {plan : Plan} {behaviour : Behaviour ρ τ} {stop : Stop}

/-- Why the next step fails, if it has the given output. -/
inductive Cause (sim : Simulation ρ τ) (output : Output) : Stop → Prop
  | pace {stop : Stop} {pace : τ}
      (hpace : Pace.next sim.timeline.beginStep sim.pace = (.error stop, pace)) : Cause sim output stop
  | rule {increment : Float} {pace : τ} {range : Range} {leader cell : Cell ρ} {i : Nat}
      {params : Params} {answer : Reply Emission ρ State} {stop : Stop}
      (hpace : Pace.next sim.timeline.beginStep sim.pace = (.ok increment, pace))
      (hrange : range ∈ sim.schedule.ranges) (hleader : sim.cells[range.start]? = some leader)
      (hi : i ∈ range.indices) (hcell : sim.cells[i]? = some cell)
      (hcalls : (sim.begun increment pace).Calls i params answer)
      (hown : Partition.OwnFailure cell.partition.name (sim.timeline.current + increment)
        cell.window.width answer.result stop) :
      Cause sim output (.fault (stop.report leader.partition.name))
  | refusal {increment : Float} {pace : τ} {cell : Cell ρ} {i : Nat} {state : State} {fault : Fault}
      (hpace : Pace.next sim.timeline.beginStep sim.pace = (.ok increment, pace))
      (hcell : sim.cells[i]? = some cell)
      (hstate : (sim.begun increment pace).newStates[i]? = some state)
      (hfault : (output.deliver
        ⟨cell.partition.name, sim.timeline.current + increment, state⟩).1 = .error (.fault fault)) :
      Cause sim output (.fault
        (.outputFailed cell.partition.name (sim.timeline.current + increment) fault.message))
  | crash {increment : Float} {pace : τ} {range : Range} {leader cell : Cell ρ} {i : Nat}
      {state : State} {crash : Crash}
      (hpace : Pace.next sim.timeline.beginStep sim.pace = (.ok increment, pace))
      (hrange : range ∈ sim.schedule.ranges) (hleader : sim.cells[range.start]? = some leader)
      (hi : i ∈ range.indices) (hcell : sim.cells[i]? = some cell)
      (hstate : (sim.begun increment pace).newStates[i]? = some state)
      (hcrash : output.due ⟨cell.partition.name, sim.timeline.current + increment, state⟩
            (sim.begun increment pace).timeline.step = .error crash ∨
          (output.deliver ⟨cell.partition.name, sim.timeline.current + increment, state⟩).1 =
            .error (.crash crash)) :
      Cause sim output (.fault (.workerCrashed leader.partition.name))

omit [Pace τ] in
theorem exists_of_computed {i : Nat} {after : Cell ρ} (h : sim.computed.cells[i]? = some after) :
    ∃ cell, sim.cells[i]? = some cell ∧ after.partition.name = cell.partition.name ∧
      after.window = cell.window := by
  have hlt : i < sim.cells.length := length_computed sim ▸ (List.getElem?_eq_some_iff.1 h).1
  have hcell := List.getElem?_eq_getElem hlt
  have hname := congrArg (·[i]?) (names_computeAll sim)
  have hwindow := congrArg (·[i]?) (windows_computeAll sim)
  simp only [computed, names, windows, List.getElem?_map] at h hname hwindow
  rw [h, hcell] at hname hwindow
  exact ⟨_, hcell, Option.some.inj hname, Option.some.inj hwindow⟩

theorem cause_of_commit {output : Output} {increment : Float} {pace : τ} (hfits : plan.Fits sim.cells)
    (hschedule : plan.schedule = .ok sim.schedule)
    (hpace : Pace.next sim.timeline.beginStep sim.pace = (.ok increment, pace))
    (hcompute : (sim.begun increment pace).compute.result = .ok ())
    (h : ((sim.begun increment pace).computed.withOutput output).finishStep.result = .error stop) :
    sim.Cause output stop := by
  let phase := sim.begun increment pace
  have htiles : Tiles 0 (phase.computed.withOutput output).cells.length
      (phase.computed.withOutput output).schedule.ranges := tiles_computed phase hfits hschedule
  obtain ⟨range, leader, after, i, first, hrange, hleader, hi, hafter, hfirst, rfl⟩ :=
    exists_of_commit_error htiles (finishStep_eq_error h)
  obtain ⟨head, hhead, hname, -⟩ : ∃ head, phase.cells[range.start]? = some head ∧ _ :=
    exists_of_computed hleader
  obtain ⟨cell, hcell, -, -⟩ : ∃ cell, phase.cells[i]? = some cell ∧ _ := exists_of_computed hafter
  obtain ⟨state, found, p, hstate, hfound, hp, -, -, -, -, hcommit⟩ :=
    pending_of_success phase hfits hschedule hcompute hcell
  obtain rfl := Option.some.inj (hafter.symm.trans hfound)
  rw [hcommit, ← (hfits.cell i cell p hcell hp).name] at hfirst
  rw [hname]
  rcases Output.offer_eq_error hfirst with ⟨crash, rfl, hcrash⟩ | ⟨fault, rfl, hfault⟩
  · exact .crash hpace hrange hhead hi hcell hstate hcrash
  · exact .refusal hpace hcell hstate hfault

theorem cause_of_step_error (h : Attainable plan behaviour sim) (output : Output)
    (hstop : (sim.withOutput output).step.result = .error stop) : sim.Cause output stop := by
  obtain ⟨hfits, hschedule⟩ := h.fits
  have hway := (sim.withOutput output).way_step
  generalize (sim.withOutput output).step = reply at hway hstop
  cases hway with
  | refused hpace =>
      cases hstop
      exact .pace hpace
  | crashed hpace =>
      cases hstop
      exact .pace hpace
  | @failed increment pace first hpace hcompute =>
      cases hstop
      have hbounds : (sim.begun increment pace).InBounds := Plan.Fits.inBounds hfits hschedule
      have hsame : (sim.begun increment pace).compute.result = .error stop :=
        (compute_result_withOutput (sim.begun increment pace) output).symm.trans hcompute
      obtain ⟨g, i, range, leader, own, hrange, hleader, hi, -,
        ⟨cell, params, answer, hcell, hcalls, hown⟩, hresult, -⟩ :=
        hbounds.compute_blames (by rw [hsame]; exact nofun)
      obtain rfl := Except.error.inj (hsame.symm.trans hresult)
      exact .rule hpace (List.mem_of_getElem? hrange) hleader hi hcell hcalls hown
  | @finished increment pace hpace hcompute =>
      have hsame : (sim.begun increment pace).compute.result = .ok () :=
        (compute_result_withOutput (sim.begun increment pace) output).symm.trans hcompute
      exact cause_of_commit hfits hschedule hpace hsame hstop

/-- What a step adds to a window is what the rule of the partition answered in that same step. -/
theorem window_of_step (h : Attainable plan behaviour sim) (output : Output) {i : Nat} {cell : Cell ρ}
    (hcell : sim.cells[i]? = some cell) :
    ∃ next, (sim.withOutput output).step.next.cells[i]? = some next ∧
      (next.window = cell.window ∨ ∃ increment pace params answer state,
        Pace.next sim.timeline.beginStep sim.pace = (.ok increment, pace) ∧
        (sim.begun increment pace).Calls i params answer ∧ answer.result = .ok state ∧
        next.window = cell.window.recorded state) := by
  obtain ⟨hfits, hschedule⟩ := h.fits
  have hway := (sim.withOutput output).way_step
  generalize (sim.withOutput output).step = reply at hway
  cases hway with
  | refused hpace => exact ⟨cell, hcell, Or.inl rfl⟩
  | crashed hpace => exact ⟨cell, hcell, Or.inl rfl⟩
  | @failed increment pace first hpace hcompute =>
      let phase := sim.begun increment pace
      have hlt : i < phase.computed.cells.length :=
        (length_computed phase).symm ▸ (List.getElem?_eq_some_iff.1 hcell).1
      have hafter := List.getElem?_eq_getElem hlt
      obtain ⟨before, hbefore, -, hwindow⟩ := exists_of_computed hafter
      obtain rfl := Option.some.inj (hcell.symm.trans hbefore)
      refine ⟨⟨phase.computed.cells[i].partition.discard, phase.computed.cells[i].window⟩, ?_,
        Or.inl hwindow⟩
      exact (List.getElem?_map ..).trans (congrArg (Option.map _) hafter)
  | @finished increment pace hpace hcompute =>
      let phase := sim.begun increment pace
      have hsuccess : phase.compute.result = .ok () :=
        (compute_result_withOutput phase output).symm.trans hcompute
      obtain ⟨params, answer, state, hcalls, hanswer, hstate⟩ :=
        exists_call (Plan.schedule_suits hschedule hfits.feeds_eq : phase.schedule.Suits phase.cells)
          hsuccess hcell
      obtain ⟨found, next, hfound, -, -, hnext, hreached, hleft⟩ :=
        getElem?_commit_computed (phase.withOutput output) hfits hschedule hcompute
          (phase.timeline.next) phase.timeline.step hcell
      obtain rfl := Option.some.inj (hstate.symm.trans hfound)
      refine ⟨next, ?_, ?_⟩
      · exact (congrArg (·.cells[i]?) (finishStep_next (phase.withOutput output).computed)).trans hnext
      · by_cases hreaches : sim.schedule.Reaches
            (output.CrashesOn plan phase.newStates phase.timeline.next phase.timeline.step) i
        · exact Or.inr ⟨increment, pace, params, answer, state, hpace, hcalls, hanswer,
            (hreached hreaches).2⟩
        · exact Or.inl (hleft hreaches).2

/-- A failure that is not the pace's own is none of those that report a broken promise of the step, and a
crash is reported only where a rule or the output has crashed. -/
theorem Cause.excludes {output : Output} (h : sim.Cause output stop)
    (hpace : ∀ pace, Pace.next sim.timeline.beginStep sim.pace ≠ (.error stop, pace)) :
    (∀ crash, stop ≠ .crash crash) ∧ (∀ name, stop ≠ .fault (.nothingPending name)) ∧
      (∀ leader, stop ≠ .fault (.workerUnreached leader)) ∧
      (∀ issue, stop ≠ .fault (.invalid issue)) ∧
      ∀ leader, stop = .fault (.workerCrashed leader) →
        (∃ increment pace i params answer crash,
          (sim.begun increment pace).Calls i params answer ∧ answer.result = .error (.crash crash)) ∨
        ∃ record step crash, output.due record step = .error crash ∨
          (output.deliver record).1 = .error (.crash crash) := by
  cases h with
  | pace hrefused => exact absurd hrefused (hpace _)
  | rule hnext hrange hleader hi hcell hcalls hown =>
      cases hown with
      | refused hanswer => exact ⟨nofun, nofun, nofun, nofun, nofun⟩
      | misshapen hanswer hwidth => exact ⟨nofun, nofun, nofun, nofun, nofun⟩
      | crashed hanswer =>
          exact ⟨nofun, nofun, nofun, nofun, fun _ _ => Or.inl ⟨_, _, _, _, _, _, hcalls, hanswer⟩⟩
  | refusal hnext hcell hstate hfault => exact ⟨nofun, nofun, nofun, nofun, nofun⟩
  | crash hnext hrange hleader hi hcell hstate hcrash =>
      exact ⟨nofun, nofun, nofun, nofun, fun _ _ => Or.inr ⟨_, _, _, hcrash⟩⟩

/-- In every step that a simulation can come to, whatever rules, output and pace do: all look-ups are in
range, every failure has its cause outside the step, what windows gain was computed in it, and in both
phases all workers get their work. -/
theorem internal_failures_unreachable (h : Attainable plan behaviour sim) (output : Output) :
    let reply := (sim.withOutput output).step
    let leaders := sim.schedule.ranges.map fun range => sim.names.getD range.start ""
    (sim.InBounds ∧ ∀ increment pace, (sim.begun increment pace).computed.InBounds) ∧
      (∀ stop, reply.result = .error stop → sim.Cause output stop ∧
        ((∀ pace, Pace.next sim.timeline.beginStep sim.pace ≠ (.error stop, pace)) →
          (∀ crash, stop ≠ .crash crash) ∧ (∀ name, stop ≠ .fault (.nothingPending name)) ∧
          (∀ leader, stop ≠ .fault (.workerUnreached leader)) ∧
          (∀ issue, stop ≠ .fault (.invalid issue)) ∧
          ∀ leader, stop = .fault (.workerCrashed leader) →
            (∃ increment pace i params answer crash,
              (sim.begun increment pace).Calls i params answer ∧
                answer.result = .error (.crash crash)) ∨
            ∃ record step crash, output.due record step = .error crash ∨
              (output.deliver record).1 = .error (.crash crash))) ∧
      (∀ (i : Nat) cell, sim.cells[i]? = some cell → ∃ next, reply.next.cells[i]? = some next ∧
        (next.window = cell.window ∨ ∃ increment pace params answer state,
          Pace.next sim.timeline.beginStep sim.pace = (.ok increment, pace) ∧
          (sim.begun increment pace).Calls i params answer ∧ answer.result = .ok state ∧
          next.window = cell.window.recorded state)) ∧
      ∀ k handoff, Steps Handoff.Move k (.start sim.schedule.ranges.length) handoff →
        k ≤ 4 * sim.schedule.ranges.length ∧ (∀ line ∈ handoff.lines, line ≠ .missed) ∧
        (IsFinal Handoff.Move handoff → ∀ increment pace,
          let phase := sim.begun increment pace
          let done := commitGroups output phase.timeline.next phase.timeline.step
            (sim.schedule.ranges.map Range.size) phase.computed.cells
          handoff.failures leaders phase.computeAll.halted = phase.computeAll.halted ∧
            handoff.failures leaders done.failure = done.failure) := by
  intro reply leaders
  obtain ⟨hfits, hschedule⟩ := h.fits
  refine ⟨⟨hfits.inBounds hschedule, fun increment pace => ?_⟩, fun stop hstop => ?_,
    fun i cell hcell => window_of_step h output hcell, fun k handoff hsteps => ?_⟩
  · have hcomputed : plan.Fits (sim.begun increment pace).computed.cells :=
      Plan.Fits.computeAll (show plan.Fits (sim.begun increment pace).cells from hfits)
    exact hcomputed.inBounds hschedule
  · have hcause := cause_of_step_error h output hstop
    exact ⟨hcause, hcause.excludes⟩
  · obtain ⟨hbound, hmissed, hfinal⟩ := Handoff.nobody_misses hsteps
    refine ⟨hbound, hmissed, fun hend increment pace => ⟨?_, ?_⟩⟩
    · exact hfinal hend leaders _ (length_halted_computeAll (sim.begun increment pace))
    · refine hfinal hend leaders _ ?_
      rw [length_commitGroups_failure, List.length_map]

/-- The pair after its first step, in which the output crashed: the second partition is left behind, and
its state of that step is still pending. -/
def stalledSimulation : Simulation StockRule StockPace :=
  (pairSimulation.withOutput brittleOutput).step.next

theorem stalledSimulation_fails_for_cause :
    Attainable pairPlan pairBehaviour stalledSimulation ∧
      (∃ cell, stalledSimulation.cells[1]? = some cell ∧ cell.partition.pending = some [7]) ∧
      (stalledSimulation.withOutput brittleOutput).step.result =
        .error (.fault (.workerCrashed "first")) ∧
      stalledSimulation.Cause brittleOutput (.fault (.workerCrashed "first")) ∧
      ((∃ increment pace i params answer crash,
          (stalledSimulation.begun increment pace).Calls i params answer ∧
            answer.result = .error (.crash crash)) ∨
        ∃ record step crash, brittleOutput.due record step = .error crash ∨
          (brittleOutput.deliver record).1 = .error (.crash crash)) := by
  have hattainable : Attainable pairPlan pairBehaviour stalledSimulation :=
    .step (.start (rfl : Simulation.start _ _ = (_, []))) brittleOutput
  have hresult : (stalledSimulation.withOutput brittleOutput).step.result =
      .error (.fault (.workerCrashed "first")) := rfl
  obtain ⟨-, herrors, -⟩ := internal_failures_unreachable hattainable brittleOutput
  obtain ⟨hcause, hexcludes⟩ := herrors _ hresult
  obtain ⟨-, -, -, -, hcrash⟩ := hexcludes fun pace hpace => nomatch congrArg Prod.fst hpace
  exact ⟨hattainable, ⟨_, rfl, rfl⟩, hresult, hcause, hcrash _ rfl⟩

end Simulation

end Tandem
