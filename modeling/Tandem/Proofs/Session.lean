import Tandem.Proofs.Success

/-!
# What a simulation remembers of a session

A session is any sequence of steps and runs, in which paces and outputs may refuse and compute phases
may fail as they like. Its journal has an entry for every step that reached its commit phase, the latest
first. Whatever happens between these steps, the windows and the timeline hold the end of the journal,
and the initial values behind it.
-/

namespace Tandem

variable {ρ τ : Type}

/-- What a step commits: a state of every partition, and the increment of the time. -/
structure Commitment where
  states : List State
  increment : Float

namespace Commitment

def timeAfter (start : Float) : List Commitment → Float
  | [] => start
  | latest :: earlier => timeAfter start earlier + latest.increment

/-- The times that a timeline of the given depth keeps after a journal. -/
def timesAfter (start : Float) (depth : Nat) (journal : List Commitment) : List Float :=
  (List.range depth).map fun d =>
    if d ≤ journal.length then timeAfter start (journal.drop d) else 0

theorem timesAfter_nil (start : Float) (depth : Nat) :
    timesAfter start (depth + 1) [] = start :: List.replicate depth 0 := by
  unfold timesAfter
  rw [List.range_succ_eq_map, List.map_cons, List.map_map]
  congr 1
  rw [List.eq_replicate_iff]
  constructor
  · simp
  · intro time htime
    obtain ⟨d, -, rfl⟩ := List.mem_map.1 htime
    simp

theorem timesAfter_eq_cons {start current : Float} {past : List Float} {depth : Nat}
    {journal : List Commitment} (h : current :: past = timesAfter start depth journal) :
    (∃ n, depth = n + 1) ∧ current = timeAfter start journal := by
  cases depth with
  | zero => cases h
  | succ n =>
      unfold timesAfter at h
      rw [List.range_succ_eq_map, List.map_cons, List.cons.injEq] at h
      exact ⟨⟨n, rfl⟩, by simpa using h.1⟩

theorem timesAfter_cons (start : Float) (depth : Nat) (latest : Commitment)
    (journal : List Commitment) :
    timesAfter start (depth + 1) (latest :: journal) =
      timeAfter start (latest :: journal) :: (timesAfter start (depth + 1) journal).dropLast := by
  unfold timesAfter
  rw [List.range_succ_eq_map, List.map_cons, List.map_map, ← List.range_succ_eq_map,
    List.range_succ, List.map_append, List.map_singleton, List.dropLast_concat]
  congr 1
  refine List.map_congr_left fun d _ => ?_
  simp

def statesOf (i : Nat) (journal : List Commitment) : List State :=
  journal.map fun commitment => commitment.states.getD i []

end Commitment

namespace Simulation

variable [UpdateRule ρ] [Pace τ]

/-- What the next step commits, if it reaches its commit phase. -/
def commitments (sim : Simulation ρ τ) : List Commitment :=
  match Pace.next sim.timeline.beginStep sim.pace with
  | (.error _, _) => []
  | (.ok increment, pace) =>
      match (sim.begun increment pace).compute.result with
      | .error _ => []
      | .ok () => [⟨(sim.begun increment pace).newStates, increment⟩]

def commitmentsWithin : Nat → Simulation ρ τ → List Commitment
  | 0, _ => []
  | fuel + 1, sim =>
      match sim.isOver, sim.step.result with
      | .ok false, .ok _ => commitmentsWithin fuel sim.step.next ++ sim.commitments
      | .ok false, .error _ => sim.commitments
      | _, _ => []

end Simulation

/-- A call came back, be it with a fault. -/
def Reply.Returns {ε σ α : Type} (reply : Reply ε σ α) : Prop :=
  ∀ crash, reply.result ≠ .error (.crash crash)

theorem Reply.returns_of_ok {ε σ α : Type} {reply : Reply ε σ α} {value : α} (h : reply.result = .ok value) :
    reply.Returns := fun _ hcrash => nomatch h.symm.trans hcrash

theorem Reply.Returns.of_error {ε ε' σ σ' α β : Type} {reply : Reply ε σ α} {other : Reply ε' σ' β}
    {stop : Stop} (h : reply.Returns) (hresult : reply.result = .error stop)
    (hother : other.result = .error stop) : other.Returns := by
  intro crash hcrash
  obtain rfl := Except.error.inj (hother.symm.trans hcrash)
  exact h crash hresult

/-- An output that may refuse what it is offered, but does not crash. -/
def Output.Calm (output : Output) : Prop :=
  ∀ record step crash, (output.offer record step).1 ≠ .error (.crash crash)

/-- The simulations that steps and runs lead to, and the journals of their commits. The output may be
another one in each call. -/
inductive Session [UpdateRule ρ] [Pace τ] (plan : Plan) (behaviour : Behaviour ρ τ) :
    Simulation ρ τ → List Commitment → Prop
  | start {sim : Simulation ρ τ} {events : List Event}
      (h : Simulation.start plan behaviour = (.ok sim, events)) : Session plan behaviour sim []
  | step {sim : Simulation ρ τ} {journal : List Commitment} (h : Session plan behaviour sim journal)
      (output : Output) (hcalm : output.Calm) (hreturns : (sim.withOutput output).step.Returns) :
      Session plan behaviour (sim.withOutput output).step.next
        ((sim.withOutput output).commitments ++ journal)
  | run {sim : Simulation ρ τ} {journal : List Commitment} (h : Session plan behaviour sim journal)
      (output : Output) (hcalm : output.Calm) (hreturns : (sim.withOutput output).run.Returns) :
      Session plan behaviour (sim.withOutput output).run.next
        ((sim.withOutput output).commitmentsWithin Word.count ++ journal)

/-- The simulation stands where a journal leads from the start of its plan. -/
structure Simulation.Remembers (plan : Plan) (sim : Simulation ρ τ)
    (journal : List Commitment) : Prop where
  fits : plan.Fits sim.cells
  schedule : plan.schedule = .ok sim.schedule
  step : journal.length + 1 < Word.count → sim.timeline.step = journal.length
  increment : sim.timeline.increment = (journal.head?.map (·.increment)).getD 0
  times : sim.timeline.times = Commitment.timesAfter plan.startTime plan.timelineDepth journal
  widths : ∀ commitment ∈ journal, ∀ (i : Nat) p, plan.partitions[i]? = some p →
    (commitment.states.getD i []).length = p.width
  initial : ∀ (i : Nat) p, plan.partitions[i]? = some p → p.initial.length = p.width
  windows : ∀ (i : Nat) cell p, sim.cells[i]? = some cell → plan.partitions[i]? = some p →
    cell.window.Holds (Commitment.statesOf i journal ++ [p.initial])

theorem Timeline.new_eq_ok {depth : Nat} {start : Float} {timeline : Timeline}
    (h : Timeline.new depth start = .ok timeline) :
    timeline = ⟨start, List.replicate (depth - 1) 0, 0, 0⟩ ∧ depth ≠ 0 := by
  unfold Timeline.new at h
  split at h
  · cases h
  next hdepth =>
    split at h
    · cases h
    · cases h
      exact ⟨rfl, hdepth⟩

namespace Simulation.Remembers

variable {plan : Plan} {behaviour : Behaviour ρ τ} {sim : Simulation ρ τ} {journal : List Commitment}

theorem of_start {events : List Event} (h : start plan behaviour = (.ok sim, events)) :
    sim.Remembers plan [] := by
  obtain ⟨hschedule, -, htimeline, -⟩ := start_eq_ok h
  obtain ⟨hfits, hinitial⟩ := start_fits h
  obtain ⟨hnew, hdepth⟩ := Timeline.new_eq_ok htimeline
  obtain ⟨depth, hsucc⟩ := Nat.exists_eq_succ_of_ne_zero hdepth
  refine ⟨hfits, hschedule, fun _ => by rw [hnew]; rfl, by rw [hnew]; rfl, ?_, ?_, ?_, ?_⟩
  · rw [hnew, hsucc, Nat.succ_eq_add_one, Commitment.timesAfter_nil]
    rfl
  · intro commitment hmem
    cases hmem
  · intro i p hp
    obtain ⟨hi, rfl⟩ := List.getElem?_eq_some_iff.1 hp
    have hi' : i < sim.cells.length := hfits.count.symm ▸ hi
    exact (hinitial i _ _ (List.getElem?_eq_getElem hi') hp).1
  · intro i cell p hcell hp
    exact (hinitial i cell p hcell hp).2

theorem withOutput (h : sim.Remembers plan journal) (output : Output) :
    (sim.withOutput output).Remembers plan journal :=
  ⟨h.fits, h.schedule, h.step, h.increment, h.times, h.widths, h.initial, h.windows⟩

theorem of_restored (h : sim.Remembers plan journal) {next : Simulation ρ τ}
    (hfits : plan.Fits next.cells) (hschedule : next.schedule = sim.schedule)
    (hwindows : next.windows = sim.windows) (htimeline : next.timeline = sim.restored) :
    next.Remembers plan journal where
  fits := hfits
  schedule := hschedule ▸ h.schedule
  step := by
    intro hlt
    have hstep := h.step hlt
    rw [htimeline, restored_eq (hstep.symm ▸ hlt), hstep]
  increment := by
    rw [htimeline]
    exact h.increment
  times := by
    rw [htimeline]
    exact h.times
  widths := h.widths
  initial := h.initial
  windows := by
    intro i cell p hcell hp
    have hwindow : sim.windows[i]? = some cell.window := by
      rw [← hwindows, Simulation.windows, List.getElem?_map, hcell]
      rfl
    obtain ⟨before, hbefore, hsame⟩ := Option.map_eq_some_iff.1 (List.getElem?_map ▸ hwindow)
    exact hsame ▸ h.windows i before p hbefore hp

variable [UpdateRule ρ] [Pace τ]

theorem of_commit (h : sim.Remembers plan journal) (hcalm : sim.output.Calm) {increment : Float}
    {pace : τ} (hpace : Pace.next sim.timeline.beginStep sim.pace = (.ok increment, pace))
    (hcompute : (sim.begun increment pace).compute.result = .ok ()) :
    sim.step.next.Remembers plan (⟨(sim.begun increment pace).newStates, increment⟩ :: journal) := by
  let begun := sim.begun increment pace
  have hready := ready_of_success begun h.fits h.schedule hcompute
  have hcells := step_cells_of_success h.fits h.schedule hpace hcompute (by
    intro cell hcell crash
    obtain ⟨state, hpending, hshaped, hwidth⟩ := hready cell hcell
    rw [Cell.commit_eq hpending hshaped hwidth]
    exact hcalm _ _ crash)
  have htimeline : sim.step.next.timeline = begun.timeline.push begun.timeline.next := by
    rw [step_of_success hpace hcompute]
    dsimp only
    rw [finishStep_next]
    rfl
  obtain ⟨hfits, hschedule⟩ := h.fits.step
  have hcell : ∀ (i : Nat) p, plan.partitions[i]? = some p → ∃ cell state,
      sim.cells[i]? = some cell ∧ cell.Conforms p i ∧ begun.newStates.getD i [] = state ∧
        state.length = cell.window.width ∧
        ∃ next, sim.step.next.cells[i]? = some next ∧ next.window = cell.window.recorded state := by
    intro i p hp
    have hlt : i < sim.cells.length :=
      h.fits.count.symm ▸ (List.getElem?_eq_some_iff.1 hp).1
    have hcell := List.getElem?_eq_getElem hlt
    obtain ⟨state, params, hstate, hwidth, -, -, hafter⟩ :=
      computed_of_success begun h.fits h.schedule hcompute hcell hp
    refine ⟨_, state, hcell, h.fits.cell i _ p hcell hp, ?_, hwidth, ?_⟩
    · rw [List.getD_eq_getElem?_getD, hstate]
      rfl
    · rw [hcells, List.getElem?_map, hafter]
      exact ⟨_, rfl, rfl⟩
  have htimes : sim.timeline.times = sim.timeline.current :: sim.timeline.past := rfl
  obtain ⟨⟨depth, hdepth⟩, hcurrent⟩ := Commitment.timesAfter_eq_cons (htimes.symm.trans h.times)
  refine ⟨hfits, hschedule ▸ h.schedule, fun hlt => ?_, ?_, ?_, ?_, h.initial, ?_⟩
  · have hstep := h.step (Nat.lt_of_succ_lt hlt)
    rw [htimeline]
    simp only [begun, Simulation.begun, Timeline.push, Timeline.setIncrement, Timeline.beginStep,
      hstep]
    exact Word.wrap_of_lt (Nat.lt_of_succ_lt hlt)
  · rw [htimeline]
    rfl
  · have hnext : begun.timeline.next =
        Commitment.timeAfter plan.startTime (⟨begun.newStates, increment⟩ :: journal) :=
      congrArg (· + increment) hcurrent
    have hbefore : begun.timeline.times = sim.timeline.times := rfl
    rw [htimeline, Timeline.times_push, hnext, hbefore, h.times, hdepth, Commitment.timesAfter_cons]
  · intro commitment hmem i p hp
    rcases List.mem_cons.1 hmem with rfl | hmem
    · obtain ⟨cell, state, -, hconforms, hstate, hwidth, -⟩ := hcell i p hp
      exact (congrArg List.length hstate).trans (hwidth.trans hconforms.width)
    · exact h.widths commitment hmem i p hp
  · intro i after p hafter hp
    obtain ⟨cell, state, hbefore, hconforms, hstate, hwidth, next, hnext, hwindow⟩ := hcell i p hp
    obtain rfl := Option.some.inj (hafter.symm.trans hnext)
    have hholds := (h.windows i cell p hbefore hp).recorded hconforms.shaped hwidth
    rw [hwindow, ← hstate]
    rw [← hstate] at hholds
    exact hholds

theorem of_step (h : sim.Remembers plan journal) (hcalm : sim.output.Calm)
    (hreturns : sim.step.Returns) : sim.step.next.Remembers plan (sim.commitments ++ journal) := by
  obtain ⟨hfits, hschedule⟩ := h.fits.step
  have hcommit : ∀ increment pace,
      Pace.next sim.timeline.beginStep sim.pace = (.ok increment, pace) →
      (sim.begun increment pace).compute.result = .ok () →
      sim.step.next.Remembers plan (⟨(sim.begun increment pace).newStates, increment⟩ :: journal) :=
    fun increment pace => h.of_commit hcalm
  have hway := sim.way_step
  generalize sim.step = reply at hfits hschedule hreturns hcommit hway ⊢
  cases hway with
  | refused hpace =>
      have hnone : sim.commitments = [] := by simp only [commitments, hpace]
      rw [hnone]
      exact h.of_restored hfits hschedule rfl rfl
  | crashed => exact absurd rfl (hreturns _)
  | @failed increment pace stop hpace hcompute =>
      have hnone : sim.commitments = [] := by simp only [commitments, hpace, hcompute]
      rw [hnone]
      refine h.of_restored hfits hschedule ?_ rfl
      exact windows_discarded sim increment pace
  | @finished increment pace hpace hcompute =>
      have hone : sim.commitments = [⟨(sim.begun increment pace).newStates, increment⟩] := by
        simp only [commitments, hpace, hcompute]
      rw [hone]
      exact hcommit increment pace hpace hcompute

theorem of_run (h : sim.Remembers plan journal) (hcalm : sim.output.Calm) (fuel : Nat)
    (hreturns : (sim.runWithin fuel).Returns) :
    (sim.runWithin fuel).next.Remembers plan (sim.commitmentsWithin fuel ++ journal) := by
  induction fuel generalizing sim journal with
  | zero => exact h
  | succ fuel ih =>
      unfold runWithin at hreturns ⊢
      unfold commitmentsWithin
      cases hover : sim.isOver with
      | error crash =>
          rw [hover] at hreturns
          exact absurd rfl (hreturns crash)
      | ok ended =>
          cases ended with
          | true => exact h
          | false =>
              simp only [hover] at hreturns ⊢
              cases hresult : sim.step.result with
              | error stop =>
                  simp only [hresult] at hreturns ⊢
                  exact h.of_step hcalm (hreturns.of_error rfl hresult)
              | ok report =>
                  simp only [hresult] at hreturns ⊢
                  have hnext : sim.step.next.Remembers plan (sim.commitments ++ journal) :=
                    h.of_step hcalm (Reply.returns_of_ok hresult)
                  rw [List.append_assoc]
                  exact ih hnext ((step_output sim).symm ▸ hcalm) hreturns

end Simulation.Remembers

theorem Session.remembers [UpdateRule ρ] [Pace τ] {plan : Plan} {behaviour : Behaviour ρ τ}
    {sim : Simulation ρ τ} {journal : List Commitment} (h : Session plan behaviour sim journal) :
    sim.Remembers plan journal := by
  induction h with
  | start h => exact .of_start h
  | step _ output hcalm hreturns ih => exact (ih.withOutput output).of_step hcalm hreturns
  | run _ output hcalm hreturns ih =>
      exact (ih.withOutput output).of_run hcalm Word.count hreturns

/-- What row `d` of a partition's window should be after a journal: the state committed `d` commits ago,
behind these states the initial one, and zeros behind it. -/
def Commitment.rowAfter (p : PartitionPlan) (i : Nat) (journal : List Commitment) (d : Nat) : State :=
  match journal[d]? with
  | some commitment => commitment.states.getD i []
  | none => if d = journal.length then p.initial else List.replicate p.width 0

theorem Commitment.rowAt_eq (p : PartitionPlan) (i : Nat) (journal : List Commitment) (d : Nat) :
    Window.rowAt p.width (statesOf i journal ++ [p.initial]) d = rowAfter p i journal d := by
  unfold Window.rowAt rowAfter statesOf
  cases hcommitment : journal[d]? with
  | some commitment =>
      have hd := (List.getElem?_eq_some_iff.1 hcommitment).1
      rw [List.getElem?_append_left (by simpa using hd), List.getElem?_map, hcommitment]
      rfl
  | none =>
      have hd := List.getElem?_eq_none_iff.1 hcommitment
      rw [List.getElem?_append_right (by simpa using hd), List.length_map]
      dsimp only
      split
      next heq =>
        subst heq
        rw [Nat.sub_self]
        rfl
      next hne =>
        rw [List.getElem?_eq_none (by simp only [List.length_singleton]; omega)]
        rfl

variable {plan : Plan} {behaviour : Behaviour ρ τ} {sim : Simulation ρ τ} {journal : List Commitment}

namespace Simulation.Remembers

theorem timeAt_eq (h : sim.Remembers plan journal) {d : Nat} (hd : d < plan.timelineDepth) :
    sim.timeline.timeAt d = .ok
      (if d ≤ journal.length then Commitment.timeAfter plan.startTime (journal.drop d) else 0) := by
  unfold Timeline.timeAt
  rw [h.times, Commitment.timesAfter, List.getElem?_map, List.getElem?_range hd]
  rfl

theorem rows_iff (h : sim.Remembers plan journal) {i : Nat} {cell : Cell ρ} {p : PartitionPlan}
    (hcell : sim.cells[i]? = some cell) (hp : plan.partitions[i]? = some p) :
    (∀ d, d < p.depth → cell.window.row d = .ok (Commitment.rowAfter p i journal d)) ↔
      p.width * p.depth < Word.count := by
  have hconforms := h.fits.cell i cell p hcell hp
  have hwidth := hconforms.width
  have hdepth := hconforms.depth
  constructor
  · intro hrows
    refine Nat.lt_of_not_le fun hwrap => ?_
    obtain ⟨d, hd, hrow⟩ := hconforms.shaped.exists_row_error (hwidth ▸ hdepth ▸ hwrap)
    cases hrow.symm.trans (hrows d (hdepth ▸ hd))
  · intro hfit d hd
    have hall : ∀ row ∈ Commitment.statesOf i journal ++ [p.initial],
        row.length = cell.window.width := by
      intro row hrow
      rw [hwidth]
      rcases List.mem_append.1 hrow with hrow | hrow
      · obtain ⟨commitment, hmem, rfl⟩ := List.mem_map.1 hrow
        exact h.widths commitment hmem i p hp
      · rw [List.mem_singleton.1 hrow]
        exact h.initial i p hp
    rw [(h.windows i cell p hcell hp).row_eq hconforms.shaped (hwidth.symm ▸ hdepth.symm ▸ hfit) hall
      (hdepth.symm ▸ hd), hwidth, Commitment.rowAt_eq]

variable [UpdateRule ρ] [Pace τ]

theorem report_step (h : sim.Remembers plan journal) {report : StepReport}
    (hstep : sim.step.result = .ok report) :
    ∃ commitment, sim.commitments = [commitment] ∧
      (journal.length + 1 < Word.count → report.step = journal.length + 1) := by
  obtain ⟨increment, pace, hpace, hcompute, hfinish⟩ := exists_of_step_ok hstep
  have hone : sim.commitments = [⟨(sim.begun increment pace).newStates, increment⟩] := by
    simp only [commitments, hpace, hcompute]
  have hnumber : report.step = Word.wrap (sim.timeline.step + 1) := by
    rw [(finishStep_eq_ok hfinish).2]
    rfl
  refine ⟨_, hone, fun hlt => ?_⟩
  rw [hnumber, h.step hlt, Word.wrap_of_lt hlt]

end Simulation.Remembers

variable [UpdateRule ρ] [Pace τ]

/-- Where a session has led to. The number of commits is that of the timeline, as long as a word can
count one more. All rows of a window are what they should be exactly if its size does not wrap. -/
theorem session_keeps_windows (h : Session plan behaviour sim journal) :
    (journal.length + 1 < Word.count → sim.timeline.step = journal.length) ∧
      sim.timeline.increment = (journal.head?.map (·.increment)).getD 0 ∧
      sim.timeline.depth = plan.timelineDepth ∧
      (∀ d, d < plan.timelineDepth → sim.timeline.timeAt d = .ok
        (if d ≤ journal.length then Commitment.timeAfter plan.startTime (journal.drop d) else 0)) ∧
      sim.windows.length = plan.size ∧
      (∀ (i : Nat) p, plan.partitions[i]? = some p → ∃ window, sim.windows[i]? = some window ∧
        window.width = p.width ∧ window.depth = p.depth ∧
        window.values.length = Word.wrap (p.width * p.depth) ∧
        window.Holds (Commitment.statesOf i journal ++ [p.initial]) ∧
        ((∀ d, d < p.depth → window.row d = .ok (Commitment.rowAfter p i journal d)) ↔
          p.width * p.depth < Word.count)) ∧
      ∀ output report, (sim.withOutput output).step.result = .ok report →
        ∃ commitment, (sim.withOutput output).commitments = [commitment] ∧
          (journal.length + 1 < Word.count → report.step = journal.length + 1) := by
  have hremembers := h.remembers
  have hdepth : sim.timeline.depth = plan.timelineDepth := by
    rw [← Timeline.length_times, hremembers.times, Commitment.timesAfter, List.length_map,
      List.length_range]
  refine ⟨hremembers.step, hremembers.increment, hdepth, fun d hd => hremembers.timeAt_eq hd, ?_,
    fun i p hp => ?_, fun output report hstep => (hremembers.withOutput output).report_step hstep⟩
  · rw [Simulation.windows, List.length_map, hremembers.fits.count]
  · have hlt : i < sim.cells.length :=
      hremembers.fits.count.symm ▸ (List.getElem?_eq_some_iff.1 hp).1
    have hcell := List.getElem?_eq_getElem hlt
    have hconforms := hremembers.fits.cell i _ p hcell hp
    refine ⟨sim.cells[i].window, ?_, hconforms.width, hconforms.depth, ?_,
      hremembers.windows i _ p hcell hp, hremembers.rows_iff hcell hp⟩
    · rw [Simulation.windows, List.getElem?_map, hcell]
      rfl
    · rw [hconforms.shaped.length_eq, hconforms.width, hconforms.depth]

/-- Two partitions that hold their state. The window of the first is so deep that its size wraps to that
of one row. -/
def vastPlan : Plan where
  partitions := [
    ⟨"vast", .empty, ∅, [5, 7], 0, 2, 9223372036854775809⟩,
    ⟨"small", .empty, ∅, [3], 0, 1, 3⟩]
  startTime := 0
  timelineDepth := 2
  groups := []

def vastBehaviour : Behaviour StockRule StockPace := .new [.hold, .hold] (.steps 9) (.constant 1)

def vastSimulation : Simulation StockRule StockPace where
  cells := [
    ⟨⟨.hold, ⟨∅, "vast"⟩, "vast", 0, ∅, none⟩, ⟨[5, 7], 2, 9223372036854775809⟩⟩,
    ⟨⟨.hold, ⟨∅, "small"⟩, "small", 1, ∅, none⟩, ⟨[3, 0, 0], 1, 3⟩⟩]
  schedule := ⟨[⟨0, 1⟩, ⟨1, 2⟩], [1, 0]⟩
  timeline := ⟨0, [0], 0, 0⟩
  output := .silent
  stop := .steps 9
  pace := .constant 1

theorem vastSimulation_keeps_windows :
    ∃ sim journal, Session vastPlan vastBehaviour sim journal ∧ journal.length = 1 ∧
      sim.timeline.step = 1 ∧
      (∃ window, sim.windows[0]? = some window ∧ ∃ d, d < 9223372036854775809 ∧
        window.row d ≠ .ok (Commitment.rowAfter vastPlan.partitions[0] 0 journal d)) ∧
      ∃ window, sim.windows[1]? = some window ∧ window.row 0 = .ok [3] ∧
        window.row 1 = .ok [3] ∧ window.row 2 = .ok [0] := by
  have hstart : Session vastPlan vastBehaviour vastSimulation [] :=
    .start (rfl : Simulation.start _ _ = (_, []))
  have hcalm : Output.silent.Calm := fun _ _ _ h => nomatch h
  have hreturns : (vastSimulation.withOutput .silent).step.Returns := fun _ h => nomatch h
  have hsession := hstart.step .silent hcalm hreturns
  obtain ⟨hstep, -, -, -, -, hwindows, -⟩ := session_keeps_windows hsession
  obtain ⟨vast, hvast, -, -, -, -, hrows⟩ := hwindows 0 _ rfl
  obtain ⟨small, hsmall, -, -, -, -, hrows'⟩ := hwindows 1 _ rfl
  have hsmallRows := hrows'.2 (by decide)
  refine ⟨_, _, hsession, rfl, hstep (by decide), ⟨vast, hvast, ?_⟩, small, hsmall,
    hsmallRows 0 (by decide), hsmallRows 1 (by decide), hsmallRows 2 (by decide)⟩
  by_contra hnone
  have hwrap : 2 * 9223372036854775809 < Word.count :=
    hrows.1 fun d hd => Classical.not_not.1 fun hrow => hnone ⟨d, hd, hrow⟩
  exact absurd hwrap (by decide)

end Tandem
