import Tandem.Proofs.Nested.Memory
import Tandem.Proofs.Session

/-!
# Inner runs that replay the enclosing windows

In step `s` of such a run the pace reads the times `depth - s - 1` and `depth - s` of the record, and a
replaying rule reads row `depth - s - 1` of its window. Both count the steps of one timeline, so states and
times come from the same rows, whatever the other partitions do.
-/

namespace Tandem

/-! ## The pace -/

namespace ReplayPace

variable {record : Timeline} {step : Nat}

theorem increment_of_lt {increment : Float} (hpos : 0 < step) (hlt : step < record.depth)
    (h : ReplayPace.increment step ⟨record⟩ = .ok increment) :
    ∃ later earlier, record.timeAt (record.depth - step - 1) = .ok later ∧
      record.timeAt (record.depth - step) = .ok earlier ∧ increment = later - earlier := by
  unfold ReplayPace.increment at h
  dsimp only at h
  rw [if_pos hlt, if_neg (Nat.ne_of_gt hpos)] at h
  obtain ⟨later, hlater, h⟩ := bind_eq_ok h
  obtain ⟨earlier, hearlier, h⟩ := bind_eq_ok h
  cases h
  exact ⟨later, earlier, mapError_eq_ok hlater, mapError_eq_ok hearlier, rfl⟩

theorem increment_depth (record : Timeline) :
    ReplayPace.increment record.depth ⟨record⟩ = .ok record.increment := by
  simp [ReplayPace.increment]

theorem increment_of_gt (h : record.depth < step) :
    ReplayPace.increment step ⟨record⟩ = .error (.fault (.memoryExhausted step record.depth)) := by
  unfold ReplayPace.increment
  dsimp only
  rw [if_neg (by omega), if_neg (by omega)]

end ReplayPace

/-! ## The rule -/

namespace Replay

variable {params : Params} {window : Window} {step : Nat} {state : State}

theorem state_of_lt (hlt : step < window.depth) (h : Replay.state params step ⟨some window⟩ = .ok state) :
    window.row (window.depth - step - 1) = .ok state := by
  unfold Replay.state at h
  dsimp only at h
  rw [if_pos hlt] at h
  exact mapError_eq_ok h

theorem state_depth (h : Replay.state params window.depth ⟨some window⟩ = .ok state) :
    params.get? Replay.param = some state := by
  unfold Replay.state at h
  dsimp only at h
  rw [if_neg (Nat.lt_irrefl _), if_pos rfl] at h
  have hget : params.get Replay.param = .ok state := mapError_eq_ok h
  unfold Params.get at hget
  split at hget
  next values hvalues =>
    cases hget
    exact hvalues
  next => cases hget

end Replay

/-! ## The final state -/

theorem Nested.exists_finalState {ρ τ : Type} {plan : Plan} {sim : Simulation ρ τ}
    (hfits : plan.Fits sim.cells) :
    ∃ states : List State, finalState sim = .ok states.flatten ∧ states.length = plan.size ∧
      ∀ (i : Nat) own, sim.windows[i]? = some own → ∃ state, states[i]? = some state ∧ own.row 0 = .ok state := by
  have hlatest : ∀ own ∈ sim.windows, ∃ state, own.latest = .ok state := by
    intro own hown
    obtain ⟨cell, hcell, rfl⟩ := List.mem_map.1 hown
    obtain ⟨i, hi⟩ := List.mem_iff_getElem?.1 hcell
    obtain ⟨p, -, hconforms⟩ := hfits.exists_partition hi
    exact hconforms.shaped.exists_latest
  obtain ⟨states, hstates⟩ := exists_mapM_ok hlatest
  have hall := mapM_eq_ok hstates
  have hlength : sim.windows.length = plan.size := by
    rw [Simulation.windows, List.length_map, hfits.count]
  refine ⟨states, ?_, hall.length_eq.symm.trans hlength, fun _ _ hown => exists_of_forall₂ hall hown⟩
  simp [finalState, hstates, bind, Except.bind, pure, Except.pure]

/-! ## The run -/

theorem Simulation.exists_commitment {ρ τ : Type} [UpdateRule ρ] [Pace τ] {plan : Plan}
    {behaviour : Behaviour ρ τ} {sim : Simulation ρ τ} (h : Reachable plan behaviour sim)
    {report : StepReport} (hstep : sim.step.result = .ok report) :
    ∃ c, sim.commitments = [c] ∧ ∀ (i : Nat) state, c.states[i]? = some state →
      ∃ own, sim.step.next.windows[i]? = some own ∧ own.row 0 = .ok state := by
  obtain ⟨hfits, hschedule⟩ := h.fits
  obtain ⟨increment, pace, hpace, hcompute, hfinish⟩ := exists_of_step_ok hstep
  have hcommit := (commit_result_eq_ok_iff (tiles_computed (sim.begun increment pace) hfits
    hschedule)).1 (finishStep_eq_ok hfinish).1
  have hcells := step_cells_of_success hfits hschedule hpace hcompute fun cell hcell crash hcrash =>
    nomatch (hcommit cell hcell).symm.trans hcrash
  refine ⟨⟨(sim.begun increment pace).newStates, increment⟩, ?_, fun i state hstate => ?_⟩
  · simp only [commitments, hpace, hcompute]
  · have hlt := (List.getElem?_eq_some_iff.1 hstate).1
    have hcount : (sim.begun increment pace).newStates.length = plan.size :=
      length_newStates hfits hschedule
    have hcell := List.getElem?_eq_getElem (hfits.count.symm ▸ hcount ▸ hlt : i < sim.cells.length)
    obtain ⟨p, hp, hconforms⟩ := hfits.exists_partition hcell
    obtain ⟨found, params, hfound, hwidth, -, -, hafter⟩ :=
      computed_of_success (sim.begun increment pace) hfits hschedule hcompute hcell hp
    obtain rfl := Option.some.inj (hfound.symm.trans hstate)
    refine ⟨_, ?_, hconforms.shaped.row_zero_recorded hwidth⟩
    rw [windows, hcells, List.getElem?_map, List.getElem?_map, hafter]
    rfl

variable {ρ : Type} [UpdateRule ρ] {plan : Plan} {behaviour : Behaviour ρ ReplayPace}
  {sim : Simulation ρ ReplayPace} {record : Timeline} {window : Window} {k n : Nat}

namespace Simulation

/-- A run of `sim` in which partition `k` follows the rows of `window` and time those of `timeline`, from
row `window.depth - 1` on. The step after `n` others is step `n + 1`. -/
structure Follows (plan : Plan) (timeline : Timeline) (window : Window) (k : Nat)
    (sim : Simulation ρ ReplayPace) : Prop where
  time : timeline.timeAt (window.depth - 1) = .ok sim.timeline.current
  initial : ∃ own oldest, sim.windows[k]? = some own ∧ own.row 0 = .ok oldest ∧
    window.row (window.depth - 1) = .ok oldest
  number : ∀ n, n ≤ window.depth → sim.RunsFor n → (sim.after n).timeline.step = n
  replayed : ∀ n, n + 1 < window.depth → sim.RunsFor n → ∀ c ∈ (sim.after n).commitments,
    ∃ later earlier state, timeline.timeAt (window.depth - (n + 1) - 1) = .ok later ∧
      timeline.timeAt (window.depth - (n + 1)) = .ok earlier ∧ c.increment = later - earlier ∧
      window.row (window.depth - (n + 1) - 1) = .ok state ∧ c.states[k]? = some state
  last : ∀ n, n + 1 = window.depth → sim.RunsFor n → ∀ c ∈ (sim.after n).commitments,
    c.increment = timeline.increment ∧ ∃ p params state, plan.partitions[k]? = some p ∧
      p.TakesIn c.states params ∧ params.get? Replay.param = some state ∧ c.states[k]? = some state
  exhausted : sim.RunsFor window.depth → (sim.after window.depth).step.result =
    .error (.fault (.memoryExhausted (window.depth + 1) window.depth))

theorem Follows.row_zero (h : sim.Follows plan record window k) (hreach : Reachable plan behaviour sim)
    (hn : n < window.depth) (hrun : sim.RunsFor n) :
    ∃ own state, (sim.after n).windows[k]? = some own ∧ own.row 0 = .ok state ∧
      window.row (window.depth - 1 - n) = .ok state := by
  cases n with
  | zero =>
      obtain ⟨own, oldest, hown, hrow, holdest⟩ := h.initial
      exact ⟨own, oldest, hown, hrow, holdest⟩
  | succ n =>
      obtain ⟨-, report, hreport⟩ := hrun n (Nat.lt_succ_self n)
      obtain ⟨c, hc, hwindows⟩ := exists_commitment (hreach.after n) hreport
      obtain ⟨_, _, state, -, -, -, hrow, hstate⟩ :=
        h.replayed n hn hrun.of_succ c (by rw [hc]; exact List.mem_cons_self)
      obtain ⟨own, hown, hlatest⟩ := hwindows k state hstate
      have hindex : window.depth - (n + 1) - 1 = window.depth - 1 - (n + 1) := by omega
      exact ⟨own, state, hown, hlatest, hindex ▸ hrow⟩

variable [ReplayRules ρ]

/-- The simulation is about to make step `n + 1`, along `record` and with partition `k` replaying
`window`. -/
structure Replays (record : Timeline) (window : Window) (k n : Nat) (sim : Simulation ρ ReplayPace) :
    Prop where
  pace : sim.pace = ⟨record⟩
  step : sim.timeline.step = n
  rule : ∃ cell, sim.cells[k]? = some cell ∧
    cell.partition.rule = ReplayRules.ofReplay ⟨some window⟩

namespace Replays

theorem of_start {events : List Event} (h : start plan behaviour = (.ok sim, events))
    (hpace : behaviour.pace = ⟨record⟩)
    (hrule : behaviour.rules[k]? = some (ReplayRules.ofReplay ⟨some window⟩)) :
    sim.Replays record window k 0 := by
  obtain ⟨-, -, htimeline, -⟩ := start_eq_ok h
  refine ⟨(start_behaviour h).2.2.trans hpace, by rw [(Timeline.new_eq_ok htimeline).1], ?_⟩
  rw [← rules_of_start h, List.getElem?_map] at hrule
  obtain ⟨cell, hcell, hsame⟩ := Option.map_eq_some_iff.1 hrule
  exact ⟨cell, hcell, hsame⟩

theorem next (h : sim.Replays record window k n) (hn : n + 1 < Word.count) {report : StepReport}
    (hstep : sim.step.result = .ok report) : sim.step.next.Replays record window k (n + 1) := by
  obtain ⟨increment, pace, hpace, hcompute, -⟩ := exists_of_step_ok hstep
  have hsame : pace = sim.pace := (Prod.mk.inj hpace).2.symm
  obtain ⟨cell, hcell, hrule⟩ := h.rule
  obtain ⟨after, hafter, hcalled⟩ := exists_of_forall₂ (follow_step sim) hcell
  refine ⟨?_, ?_, after, hafter, (hrule ▸ hcalled).eq_ofReplay⟩
  · rw [step_of_success hpace hcompute]
    dsimp only
    rw [finishStep_next, commit_eq]
    exact hsame.trans h.pace
  · rw [step_of_success hpace hcompute]
    dsimp only
    rw [finishStep_next]
    refine Eq.trans ?_ (Word.wrap_of_lt hn)
    rw [← h.step]
    rfl

theorem after (h : sim.Replays record window k 0) (hrun : sim.RunsFor n) (hn : n < Word.count) :
    (sim.after n).Replays record window k n := by
  induction n with
  | zero => exact h
  | succ n ih =>
      obtain ⟨-, report, hreport⟩ := hrun n (Nat.lt_succ_self n)
      exact (ih hrun.of_succ (Nat.lt_of_succ_lt hn)).next hn hreport

theorem step_beginStep (h : sim.Replays record window k n) (hn : n + 1 < Word.count) :
    sim.timeline.beginStep.step = n + 1 := by
  refine Eq.trans ?_ (Word.wrap_of_lt hn)
  rw [← h.step]
  rfl

theorem next_pace (h : sim.Replays record window k n) (hn : n + 1 < Word.count) :
    Pace.next sim.timeline.beginStep sim.pace =
      (ReplayPace.increment (n + 1) ⟨record⟩, ⟨record⟩) := by
  rw [h.pace, ← h.step_beginStep hn]
  rfl

theorem of_commitment (h : sim.Replays record window k n) (hn : n + 1 < Word.count)
    (hfits : plan.Fits sim.cells) (hschedule : plan.schedule = .ok sim.schedule) {c : Commitment}
    (hc : c ∈ sim.commitments) :
    ReplayPace.increment (n + 1) ⟨record⟩ = .ok c.increment ∧
      ∃ p params state, plan.partitions[k]? = some p ∧ p.TakesIn c.states params ∧
        c.states[k]? = some state ∧ Replay.state params (n + 1) ⟨some window⟩ = .ok state := by
  unfold commitments at hc
  rw [h.next_pace hn] at hc
  cases hincrement : ReplayPace.increment (n + 1) ⟨record⟩ with
  | error stop => simp [hincrement] at hc
  | ok increment =>
      simp only [hincrement] at hc
      cases hcompute : (sim.begun increment ⟨record⟩).compute.result with
      | error stop => simp [hcompute] at hc
      | ok _ =>
          obtain rfl : c = ⟨(sim.begun increment ⟨record⟩).newStates, increment⟩ := by
            simpa [hcompute] using hc
          obtain ⟨cell, hcell, hrule⟩ := h.rule
          obtain ⟨p, hp, -⟩ := hfits.exists_partition hcell
          obtain ⟨state, params, hstate, -, htakes, hadvance, -⟩ := computed_of_success
            (sim.begun increment ⟨record⟩) hfits hschedule hcompute hcell hp
          rw [hrule, ReplayRules.advance_ofReplay] at hadvance
          have hview : (sim.begun increment ⟨record⟩).view.timeline.step = n + 1 :=
            h.step_beginStep hn
          rw [hview] at hadvance
          exact ⟨rfl, p, params, state, hp, htakes, hstate, hadvance⟩

theorem step_of_exhausted (h : sim.Replays record window k record.depth)
    (hdepth : record.depth + 1 < Word.count) :
    sim.step.result = .error (.fault (.memoryExhausted (record.depth + 1) record.depth)) := by
  have hnext := h.next_pace hdepth
  rw [ReplayPace.increment_of_gt (Nat.lt_succ_self _)] at hnext
  rw [step_of_refusal hnext]

end Replays

theorem follows_of_start {timeline : Timeline} {p : PartitionPlan} {oldest : State}
    {events : List Event} (h : start plan behaviour = (.ok sim, events))
    (hpace : behaviour.pace = ⟨record⟩)
    (hloaded : Nested.Loaded k p window oldest plan behaviour.rules)
    (hrecord : Nested.recordOf window.depth timeline = .ok record)
    (htime : timeline.timeAt (window.depth - 1) = .ok plan.startTime)
    (holdest : window.row (window.depth - 1) = .ok oldest)
    (hle : window.depth ≤ timeline.depth) (hroom : timeline.depth < Word.room) :
    sim.Follows plan timeline window k := by
  have hreach : Reachable plan behaviour sim := .start h
  have hreplays := Replays.of_start h hpace hloaded.rule
  have hcount : Word.room + 1 < Word.count := by decide
  have hpos : 0 < window.depth := by
    have hlt := Window.lt_depth_of_row holdest
    omega
  obtain ⟨found, hfound, hdepth, hincrement, hsame⟩ := Nested.exists_recordOf hpos hle
  obtain rfl := Except.ok.inj (hfound.symm.trans hrecord)
  obtain ⟨-, -, hstart, -⟩ := start_eq_ok h
  have hafter : ∀ n, n ≤ window.depth → sim.RunsFor n → (sim.after n).Replays found window k n :=
    fun n hn hrun => hreplays.after hrun (by omega)
  have hcommits : ∀ n, n < window.depth → sim.RunsFor n → ∀ c ∈ (sim.after n).commitments,
      ReplayPace.increment (n + 1) ⟨found⟩ = .ok c.increment ∧
        ∃ p params state, plan.partitions[k]? = some p ∧ p.TakesIn c.states params ∧
          c.states[k]? = some state ∧ Replay.state params (n + 1) ⟨some window⟩ = .ok state := by
    intro n hn hrun c hc
    obtain ⟨hfits, hschedule⟩ := (hreach.after n).fits
    exact (hafter n (Nat.le_of_lt hn) hrun).of_commitment (by omega) hfits hschedule hc
  refine ⟨?_, ?_, fun n hn hrun => (hafter n hn hrun).step, ?_, ?_, fun hrun => ?_⟩
  · rw [htime, (Timeline.new_eq_ok hstart).1]
  · obtain ⟨hfits, hinitial⟩ := start_fits h
    have hk : k < sim.cells.length :=
      hfits.count.symm ▸ (List.getElem?_eq_some_iff.1 hloaded.partition).1
    have hcell := List.getElem?_eq_getElem hk
    have hconforms := hfits.cell k _ _ hcell hloaded.partition
    obtain ⟨hwidth, hholds⟩ := hinitial k _ _ hcell hloaded.partition
    refine ⟨_, oldest, ?_, hholds.row_zero hconforms.shaped (hwidth.trans hconforms.width.symm),
      holdest⟩
    rw [windows, List.getElem?_map, hcell]
    rfl
  · intro n hn hrun c hc
    obtain ⟨hpaced, p, params, state, -, -, hstate, hrule⟩ := hcommits n (by omega) hrun c hc
    obtain ⟨later, earlier, hlater, hearlier, heq⟩ :=
      ReplayPace.increment_of_lt (Nat.succ_pos n) (hdepth.symm ▸ hn) hpaced
    rw [hdepth] at hlater hearlier
    rw [hsame _ (by omega)] at hlater
    rw [hsame _ (by omega)] at hearlier
    exact ⟨later, earlier, state, hlater, hearlier, heq, Replay.state_of_lt hn hrule, hstate⟩
  · intro n hn hrun c hc
    obtain ⟨hpaced, p, params, state, hp, htakes, hstate, hrule⟩ := hcommits n (by omega) hrun c hc
    rw [hn] at hpaced hrule
    have hpaced' := ReplayPace.increment_depth found
    rw [hdepth, hpaced] at hpaced'
    exact ⟨(Except.ok.inj hpaced').trans hincrement, p, params, state, hp, htakes,
      Replay.state_depth hrule, hstate⟩
  · have hend := hafter window.depth (Nat.le_refl _) hrun
    rw [← hdepth] at hend ⊢
    exact hend.step_of_exhausted (by omega)

end Simulation

/-! ## The call -/

namespace Nested

theorem runReplay_result {τ : Type} {nested : Nested ρ τ} {inner : Behaviour ρ τ} {events : List Event}
    (hbehaviour : nested.behaviour = some inner)
    (h : Simulation.start plan { inner with pace := ReplayPace.mk record } = (.ok sim, events)) :
    (runReplay plan record nested).result =
      sim.run.result.bind fun _ => liftM (finalState sim.run.next) := by
  obtain ⟨hschedule, -⟩ := Simulation.start_eq_ok h
  have hcheck : plan.check = .ok () := by
    rw [Plan.check, hschedule]
    rfl
  simp only [runReplay, hcheck, hbehaviour, runToEnd, h]
  cases hrun : sim.run.result with
  | error stop => cases stop <;> simp [Except.bind]
  | ok _ => simp [Except.bind]

/-- A call of a configured nested rule past burn-in, of which inner partition `k` replays the window of
enclosing partition `outer` and no other. -/
theorem replay_follows_window {τ : Type} [ReplayRules ρ] [Pace τ] {index outer k : Nat} {plan overrides : Plan}
    {nested : Nested ρ τ} {params : Params} {view : View} {behaviour : Behaviour ρ τ} {r : Replay}
    (hconfigured : nested.Configured index plan) (hburn : nested.burnIn ≤ view.timeline.step)
    (hbehaviour : nested.behaviour = some behaviour)
    (hoverrides : nested.overridden params = .ok overrides) (hcovers : Covers view nested)
    (htimes : nested.depth ≤ view.timeline.depth) (hroom : view.timeline.depth < Word.room)
    (hentry : nested.memory.get? outer = some k)
    (honly : ∀ other, nested.memory.get? other = some k → other = outer)
    (hrule : behaviour.rules[k]? = some (ReplayRules.ofReplay r)) :
    let depth := nested.depth
    let reply := UpdateRule.advance params index view nested
    ∃ p window oldest record inner rules,
      overrides.partitions[k]? = some p ∧ view.windows[outer]? = some window ∧
      window.depth = depth ∧ window.row (depth - 1) = .ok oldest ∧
      view.timeline.timeAt (depth - 1) = .ok inner.startTime ∧
      inner.partitions[k]? = some { p with initial := oldest } ∧
      recordOf depth view.timeline = .ok record ∧
      loadMemory view depth nested.memory.entries { overrides with startTime := inner.startTime }
        behaviour.rules = (.ok inner, rules) ∧
      reply = runReplay inner record
        { nested with behaviour := some { behaviour with rules := rules } } ∧
      ∀ sim events, Simulation.start inner ⟨rules, behaviour.output, behaviour.stop,
          ReplayPace.mk record⟩ = (.ok sim, events) →
        sim.Follows inner view.timeline window k ∧
        (sim.RunsFor depth → (sim.after depth).isOver = .ok false →
          reply.result = .error (.fault (.memoryExhausted (depth + 1) depth))) ∧
        ∀ n < depth, sim.RunsFor n → (sim.after n).isOver = .ok true →
          ∃ (states : List State) (state : State), reply.result = .ok states.flatten ∧
            states.length = inner.size ∧ states[k]? = some state ∧
            window.row (depth - 1 - n) = .ok state := by
  intro depth reply
  obtain ⟨p, window, oldest, start, record, inner, rules, hp, hwindow, hdepth, holdest, hstart, hrecord,
    hload, rfl, hloaded, hreply⟩ := hconfigured.prepared.advance_eq index hburn hbehaviour hoverrides hcovers
      htimes hentry honly hrule
  refine ⟨p, window, oldest, record, inner, rules, hp, hwindow, hdepth, holdest, hstart,
    hloaded.partition, hrecord, hload, hreply, fun sim events hsim => ?_⟩
  have hresult : reply.result = sim.run.result.bind fun _ => liftM (finalState sim.run.next) :=
    (congrArg Reply.result hreply).trans (runReplay_result rfl hsim)
  have hreach : Reachable inner _ sim := .start hsim
  have hcount : Word.room < Word.count := by decide
  rw [← hdepth] at hrecord hstart holdest htimes
  have hfollows : sim.Follows inner view.timeline window k :=
    Simulation.follows_of_start hsim rfl hloaded hrecord hstart holdest htimes hroom
  refine ⟨hfollows, fun hrun hover => ?_, fun n hn hrun hover => ?_⟩
  · have hstop := hfollows.exhausted
    rw [hdepth] at hstop
    have hlt : depth < Word.count := by omega
    rw [hresult, (Simulation.run_of_step_error hrun hlt hover (hstop hrun)).1]
    rfl
  · obtain ⟨hok, hnext⟩ := Simulation.run_of_isOver hrun (by omega) hover
    obtain ⟨hfits, -⟩ := (hreach.after n).fits
    obtain ⟨states, hfinal, hcounts, hlatest⟩ := exists_finalState hfits
    obtain ⟨own, state, hown, hrow, hkept⟩ := hfollows.row_zero hreach (hdepth.symm ▸ hn) hrun
    obtain ⟨found, hfound, hsame⟩ := hlatest k own hown
    obtain rfl := Except.ok.inj (hrow.symm.trans hsame)
    rw [hdepth] at hkept
    refine ⟨states, state, ?_, hcounts, hfound, hkept⟩
    rw [hresult, hok, hnext, hfinal]
    rfl

/-- An inner partition that replays the enclosing partition "walk" for two steps. -/
def tracePlan : Plan where
  partitions := [⟨"trace", .empty, ∅, [0], 0, 1, 1⟩]
  startTime := 0
  timelineDepth := 1
  groups := []

def walkPlan : Plan where
  partitions := [
    ⟨"walk", .empty, ∅, [0], 0, 1, 3⟩,
    ⟨"replay", .ofList [("0/state_memory_partition", [0])], ∅, [0], 0, 1, 1⟩]
  startTime := 0
  timelineDepth := 3
  groups := []

def traceBehaviour : Behaviour StockRule StockPace := .new [.replay ⟨none⟩] (.steps 2) (.constant 1)

def traceRule : Nested StockRule StockPace where
  plan := tracePlan.tag
  behaviour := some traceBehaviour
  memory := .ofList [(0, 0)]
  depth := 3
  burnIn := 0

def walkView : View where
  windows := [⟨[4, 3, 2], 1, 3⟩, ⟨[0], 1, 1⟩]
  timeline := ⟨9, [7, 6], 5, 1⟩

def traceSimulation : Simulation StockRule ReplayPace where
  cells := [⟨⟨.replay ⟨some ⟨[4, 3, 2], 1, 3⟩⟩, ⟨∅, "trace"⟩, "trace", 0, ∅, none⟩, ⟨[2], 1, 1⟩⟩]
  schedule := ⟨[⟨0, 1⟩], [0]⟩
  timeline := ⟨6, [], 0, 0⟩
  output := .silent
  stop := .steps 2
  pace := ⟨walkView.timeline⟩

theorem traceRule_follows_window :
    traceRule.Configured 1 walkPlan ∧
      (UpdateRule.advance walkPlan.partitions[1].params 1 walkView traceRule).result = .ok [4] := by
  have hconfigured : traceRule.Configured 1 walkPlan :=
    .configure (rfl : UpdateRule.configure 1 walkPlan (Nested.new tracePlan traceBehaviour) =
      (_, traceRule))
  have hcovers : Covers walkView traceRule := by
    intro outer houter
    have hmem : outer ∈ [0] := houter
    obtain rfl := List.mem_singleton.1 hmem
    exact ⟨_, _, rfl, rfl, rfl⟩
  have honly : ∀ other, traceRule.memory.get? other = some 0 → other = 0 := by
    intro other hother
    have hmem : (other, 0) ∈ [(0, 0)] := Table.mem_entries_iff.2 hother
    exact congrArg Prod.fst (List.mem_singleton.1 hmem)
  have hoverrides : traceRule.overridden walkPlan.partitions[1].params = .ok tracePlan.tag := rfl
  obtain ⟨p, window, oldest, record, inner, rules, -, hwindow, -, -, hstart, -, hrecord, hload, -, hruns⟩ :=
    replay_follows_window hconfigured (Nat.zero_le _) rfl hoverrides hcovers (by decide) (by decide)
      rfl honly rfl
  have htime : 6 = inner.startTime := Except.ok.inj hstart
  rw [← htime] at hload
  obtain ⟨hinner, rfl⟩ := Prod.mk.inj hload
  obtain rfl := Except.ok.inj hinner
  obtain rfl := Except.ok.inj hrecord
  obtain rfl := Option.some.inj hwindow
  obtain ⟨-, -, hended⟩ := hruns traceSimulation [] rfl
  have hrun : traceSimulation.RunsFor 2 := by
    intro n hn
    obtain rfl | rfl : n = 0 ∨ n = 1 := by omega
    · exact ⟨rfl, _, rfl⟩
    · exact ⟨rfl, _, rfl⟩
  obtain ⟨states, state, hresult, hcount, hstate, hrow⟩ := hended 2 (by decide) hrun rfl
  obtain rfl : [4] = state := Except.ok.inj hrow
  obtain ⟨first, rfl⟩ := List.length_eq_one_iff.1 hcount
  obtain rfl : first = [4] := Option.some.inj hstate
  exact ⟨hconfigured, hresult⟩

end Nested

end Tandem
