import Tandem.Proofs.Blame
import Tandem.Proofs.Retry
import Tandem.Proofs.Start
import Tandem.Proofs.Stock

/-!
# Counterparts

Partitions of two simulations are counterparts if they are planned alike, have equal stock rules and equal
windows, and are fed by counterparts. As their equations have one solution at most, they compute the same
states wherever both simulations get to their commit phases, and they are counterparts again after it,
whatever the other partitions do.
-/

namespace Tandem

/-! ## Timelines of different depth -/

/-- Timelines in the same step, with the same times as far as both go back. -/
structure Timeline.Agrees (timeline other : Timeline) : Prop where
  step : timeline.step = other.step
  increment : timeline.increment = other.increment
  times : ∀ d, d < timeline.depth → d < other.depth → timeline.times[d]? = other.times[d]?

namespace Timeline.Agrees

variable {timeline other : Timeline}

theorem symm (h : timeline.Agrees other) : other.Agrees timeline :=
  ⟨h.step.symm, h.increment.symm, fun d hd hd' => (h.times d hd' hd).symm⟩

theorem current (h : timeline.Agrees other) : timeline.current = other.current :=
  Option.some.inj (h.times 0 (Nat.succ_pos _) (Nat.succ_pos _))

theorem next (h : timeline.Agrees other) : timeline.next = other.next := by
  rw [Timeline.next, Timeline.next, h.current, h.increment]

theorem timeAt (h : timeline.Agrees other) {d : Nat} (hd : d < timeline.depth) (hd' : d < other.depth) :
    timeline.timeAt d = other.timeAt d := by
  simp only [Timeline.timeAt, h.times d hd hd']

theorem beginStep (h : timeline.Agrees other) : timeline.beginStep.Agrees other.beginStep :=
  ⟨congrArg (fun step => Word.wrap (step + 1)) h.step, h.increment, h.times⟩

theorem setIncrement (h : timeline.Agrees other) (increment : Float) :
    (timeline.setIncrement increment).Agrees (other.setIncrement increment) :=
  ⟨h.step, rfl, h.times⟩

theorem push (h : timeline.Agrees other) (time : Float) : (timeline.push time).Agrees (other.push time) := by
  refine ⟨h.step, h.increment, fun d hd hd' => ?_⟩
  rw [depth_push] at hd hd'
  rw [times_push, times_push]
  cases d with
  | zero => rfl
  | succ d =>
      have hlt : d < timeline.times.length - 1 := by
        rw [length_times]
        omega
      have hlt' : d < other.times.length - 1 := by
        rw [length_times]
        omega
      rw [List.getElem?_cons_succ, List.getElem?_cons_succ, List.getElem?_dropLast, if_pos hlt,
        List.getElem?_dropLast, if_pos hlt', h.times d (by omega) (by omega)]

theorem eq_of_depth (h : timeline.Agrees other) (hdepth : timeline.depth = other.depth) :
    timeline = other := by
  have htimes : timeline.times = other.times := by
    refine List.ext_getElem? fun d => ?_
    by_cases hd : d < timeline.depth
    · exact h.times d hd (hdepth ▸ hd)
    · have hle := Nat.le_of_not_lt hd
      have hle' : other.depth ≤ d := hdepth ▸ hle
      rw [List.getElem?_eq_none hle, List.getElem?_eq_none hle']
  obtain ⟨current, past, increment, step⟩ := timeline
  obtain ⟨current', past', increment', step'⟩ := other
  obtain ⟨rfl, rfl⟩ := List.cons.inj htimes
  obtain rfl : increment = increment' := h.increment
  obtain rfl : step = step' := h.step
  rfl

theorem of_new {depth depth' : Nat} {start : Float} (h : Timeline.new depth start = .ok timeline)
    (h' : Timeline.new depth' start = .ok other) : timeline.Agrees other := by
  obtain ⟨rfl, -⟩ := Timeline.new_eq_ok h
  obtain ⟨rfl, -⟩ := Timeline.new_eq_ok h'
  refine ⟨rfl, rfl, fun d hd hd' => ?_⟩
  cases d with
  | zero => rfl
  | succ d =>
      simp only [Timeline.depth, List.length_replicate] at hd hd'
      simp only [Timeline.times, List.getElem?_cons_succ, List.getElem?_replicate]
      rw [if_pos (by omega), if_pos (by omega)]

end Timeline.Agrees

theorem Timeline.exists_timeAt {timeline : Timeline} {d : Nat} (hd : d < timeline.depth) :
    ∃ time, timeline.timeAt d = .ok time := by
  have hlt : d < timeline.times.length := hd
  exact ⟨_, by rw [timeAt, List.getElem?_eq_getElem hlt]⟩

theorem Progress.exists_sent_of_refresh {ρ : Type} {progress : Progress ρ} {name : String}
    {feeds : Table String Feed} {params taken : Params}
    (h : Partition.refresh name feeds (progress.inbox feeds) params = (.ok (), taken)) {param : String}
    {feed : Feed} (hfeed : feeds.get? param = some feed) :
    ∃ state, progress.sentBy feed.source = some state := by
  have hentry : (param, progress.sentBy feed.source) ∈ progress.inbox feeds :=
    mem_inbox.2 ⟨feed, hfeed, rfl⟩
  obtain ⟨state, -, hsent, -⟩ := Partition.get?_refresh_of_ok h
    (progress.map_fst_inbox feeds ▸ feeds.nodup_keys) _ hentry
  exact ⟨state, hsent⟩

/-! ## One simulation -/

namespace Simulation

variable {ρ τ : Type} [UpdateRule ρ] [Pace τ] {plan : Plan} {behaviour : Behaviour ρ τ}
  {sim : Simulation ρ τ}

theorem depth_step (sim : Simulation ρ τ) : sim.step.next.timeline.depth = sim.timeline.depth := by
  have hway := sim.way_step
  generalize sim.step = reply at hway ⊢
  cases hway with
  | refused => rfl
  | crashed => rfl
  | failed => rfl
  | finished =>
      dsimp only
      rw [finishStep_next, Timeline.depth_push]
      rfl

theorem depth_afterWith (sim : Simulation ρ τ) (outputs : Nat → Output) (n : Nat) :
    (sim.afterWith outputs n).timeline.depth = sim.timeline.depth := by
  induction n with
  | zero => rfl
  | succ n ih => exact (depth_step _).trans ih

omit [UpdateRule ρ] [Pace τ] in
theorem depth_of_start {events : List Event} (h : start plan behaviour = (.ok sim, events)) :
    sim.timeline.depth = plan.timelineDepth := by
  obtain ⟨-, -, htimeline, -⟩ := start_eq_ok h
  obtain ⟨hnew, hdepth⟩ := Timeline.new_eq_ok htimeline
  have hlength : sim.timeline.depth = plan.timelineDepth - 1 + 1 := by
    rw [hnew, Timeline.depth, List.length_replicate]
  exact hlength.trans (Nat.sub_add_cancel (Nat.pos_of_ne_zero hdepth))

theorem computeFails_withOutput (output : Output) :
    (sim.withOutput output).ComputeFails ↔ sim.ComputeFails := by
  refine exists_congr fun increment => exists_congr fun pace => exists_congr fun stop => and_congr Iff.rfl ?_
  have hresult := compute_result_withOutput (sim.begun increment pace) output
  exact ⟨fun h => hresult.symm.trans h, fun h => hresult.trans h⟩

theorem ComputeFails.step_next (h : sim.ComputeFails) :
    sim.step.next.windows = sim.windows ∧ sim.step.next.timeline = sim.restored := by
  obtain ⟨increment, pace, stop, hpace, hcompute⟩ := h
  rw [step_of_failure hpace hcompute]
  exact ⟨windows_discarded sim increment pace, rfl⟩

theorem not_computeFails_of_ok {report : StepReport} (h : sim.step.result = .ok report) :
    ¬ sim.ComputeFails := by
  rintro ⟨increment, pace, stop, hpace, hcompute⟩
  rw [step_of_failure hpace hcompute] at h
  cases h

/-- If the next step gets to its commit phase, no partition's commit crashes. -/
def CommitsCalmly (sim : Simulation ρ τ) : Prop :=
  ∀ increment pace, Pace.next sim.timeline.beginStep sim.pace = (.ok increment, pace) →
    (sim.begun increment pace).compute.result = .ok () →
    ∀ cell ∈ (sim.begun increment pace).computed.cells, ∀ crash,
      (cell.commit sim.output (sim.begun increment pace).timeline.next
        (sim.begun increment pace).timeline.step).result ≠ .error (.crash crash)

theorem commitsCalmly_of_calm (hfits : plan.Fits sim.cells) (hschedule : plan.schedule = .ok sim.schedule)
    (hcalm : sim.output.Calm) : sim.CommitsCalmly := by
  intro increment pace _ hcompute cell hcell crash hcrash
  have hready := ready_of_success (sim.begun increment pace) hfits hschedule hcompute
  obtain ⟨fault, hfault, -⟩ := (hready cell hcell).settles hcalm _ hcrash
  cases hfault

theorem commitsCalmly_of_ok (hfits : plan.Fits sim.cells) (hschedule : plan.schedule = .ok sim.schedule)
    {report : StepReport} (hstep : sim.step.result = .ok report) : sim.CommitsCalmly := by
  intro increment pace hpace _ cell hcell crash hcrash
  obtain ⟨increment', pace', hpace', -, hfinish⟩ := exists_of_step_ok hstep
  obtain ⟨hincrement, rfl⟩ := Prod.mk.inj (hpace.symm.trans hpace')
  obtain rfl := Except.ok.inj hincrement
  have hcommit := (commit_result_eq_ok_iff (tiles_computed (sim.begun increment pace) hfits hschedule)).1
    (finishStep_eq_ok hfinish).1
  cases (hcommit cell hcell).symm.trans hcrash

theorem CommitsCalmly.cell (h : sim.CommitsCalmly) (hfits : plan.Fits sim.cells)
    (hschedule : plan.schedule = .ok sim.schedule) {increment : Float} {pace : τ}
    (hpace : Pace.next sim.timeline.beginStep sim.pace = (.ok increment, pace))
    (hcompute : (sim.begun increment pace).compute.result = .ok ()) {i : Nat} {cell : Cell ρ}
    {p : PartitionPlan} (hcell : sim.cells[i]? = some cell) (hp : plan.partitions[i]? = some p) :
    let phase := sim.begun increment pace
    ∃ state params next, phase.newStates[i]? = some state ∧ p.TakesIn phase.newStates params ∧
      sim.step.next.cells[i]? = some next ∧ next.window = cell.window.recorded state ∧
      next.partition.rule = (UpdateRule.advance params i phase.view cell.partition.rule).next := by
  intro phase
  obtain ⟨state, params, hstate, -, htakes, -, hafter⟩ :=
    computed_of_success phase hfits hschedule hcompute hcell hp
  have hnext := congrArg (fun cells => cells[i]?)
    (step_cells_of_success hfits hschedule hpace hcompute (h increment pace hpace hcompute))
  rw [List.getElem?_map, hafter] at hnext
  exact ⟨state, params, _, hstate, htakes, hnext, rfl, rfl⟩

end Simulation

/-! ## Plans -/

variable {same : Nat → Nat → Prop}

/-- Partitions of two plans that are planned alike but for the places of their sources, which `same`
relates. -/
structure PartitionPlan.Matches (same : Nat → Nat → Prop) (p q : PartitionPlan) : Prop where
  name : p.name = q.name
  unfed : ∀ param, p.feeds.get? param = none →
    q.feeds.get? param = none ∧ p.params.get? param = q.params.get? param
  fed : ∀ param feed, p.feeds.get? param = some feed → ∃ other, q.feeds.get? param = some other ∧
    same feed.source other.source ∧ feed.selection = other.selection
  initial : p.initial = q.initial
  width : p.width = q.width
  depth : p.depth = q.depth

namespace PartitionPlan.Matches

variable {p q : PartitionPlan}

theorem symm (h : p.Matches same q) : q.Matches (fun j i => same i j) p where
  name := h.name.symm
  unfed := by
    intro param hparam
    cases hfeed : p.feeds.get? param with
    | none => exact ⟨rfl, (h.unfed param hfeed).2.symm⟩
    | some feed =>
        obtain ⟨other, hother, -⟩ := h.fed param feed hfeed
        cases hparam.symm.trans hother
  fed := by
    intro param other hother
    cases hfeed : p.feeds.get? param with
    | none => cases (h.unfed param hfeed).1.symm.trans hother
    | some feed =>
        obtain ⟨found, hfound, hsame, hselection⟩ := h.fed param feed hfeed
        obtain rfl := Option.some.inj (hother.symm.trans hfound)
        exact ⟨feed, rfl, hsame, hselection.symm⟩
  initial := h.initial.symm
  width := h.width.symm
  depth := h.depth.symm

theorem params_eq (h : p.Matches same q) {states others : List State} {params found : Params}
    (htakes : p.TakesIn states params) (htakes' : q.TakesIn others found)
    (hsources : ∀ param feed other, p.feeds.get? param = some feed → q.feeds.get? param = some other →
      same feed.source other.source → states[feed.source]? = others[other.source]?) :
    params = found := by
  have hvalues : params.values = found.values := by
    refine Table.ext_get? fun param => ?_
    cases hfeed : p.feeds.get? param with
    | none =>
        obtain ⟨hnone, hsame⟩ := h.unfed param hfeed
        exact (htakes.unfed param hfeed).trans (hsame.trans (htakes'.unfed param hnone).symm)
    | some feed =>
        obtain ⟨other, hother, hsame, hselection⟩ := h.fed param feed hfeed
        obtain ⟨state, values, hstate, hpicks, hget⟩ := htakes.fed param feed hfeed
        obtain ⟨state', values', hstate', hpicks', hget'⟩ := htakes'.fed param other hother
        rw [← hsources param feed other hfeed hother hsame, hstate] at hstate'
        obtain rfl := Option.some.inj hstate'
        rw [← hselection] at hpicks'
        obtain rfl := hpicks.unique hpicks'
        exact hget.trans hget'.symm
  obtain ⟨values, owner⟩ := params
  obtain ⟨values', owner'⟩ := found
  obtain rfl : values = values' := hvalues
  obtain rfl : owner = owner' := htakes.owner.trans (h.name.trans htakes'.owner.symm)
  rfl

end PartitionPlan.Matches

/-! ## Simulations -/

variable {ρ σ : Type} [UpdateRule ρ] [StockRules ρ] [UpdateRule σ] [StockRules σ]

/-- Cells with equal windows and equal stock rules. -/
structure Cell.Matches (cell : Cell ρ) (peer : Cell σ) : Prop where
  window : cell.window = peer.window
  rule : ∃ rule : StockRule, cell.partition.rule = StockRules.ofStock rule ∧
    peer.partition.rule = StockRules.ofStock rule

theorem Cell.Matches.symm {cell : Cell ρ} {peer : Cell σ} (h : cell.Matches peer) : peer.Matches cell := by
  obtain ⟨rule, hrule, hrule'⟩ := h.rule
  exact ⟨h.window.symm, rule, hrule', hrule⟩

/-- Simulations of two plans with equal paces in the same step. Partitions that `same` relates are
counterparts. -/
structure Counterparts (same : Nat → Nat → Prop) (plan other : Plan) (sim : Simulation ρ StockPace)
    (twin : Simulation σ StockPace) : Prop where
  planned : ∀ i j, same i j → ∃ p q, plan.partitions[i]? = some p ∧ other.partitions[j]? = some q ∧
    p.Matches same q
  cell : ∀ i j, same i j → ∃ cell peer, sim.cells[i]? = some cell ∧ twin.cells[j]? = some peer ∧
    cell.Matches peer
  pace : sim.pace = twin.pace
  timeline : sim.timeline.Agrees twin.timeline
  fits : plan.Fits sim.cells
  schedule : plan.schedule = .ok sim.schedule
  fits' : other.Fits twin.cells
  schedule' : other.schedule = .ok twin.schedule

namespace Counterparts

variable {plan other : Plan} {sim : Simulation ρ StockPace} {twin : Simulation σ StockPace}

theorem symm (h : Counterparts same plan other sim twin) :
    Counterparts (fun j i => same i j) other plan twin sim where
  planned := by
    intro j i hij
    obtain ⟨p, q, hp, hq, hmatches⟩ := h.planned i j hij
    exact ⟨q, p, hq, hp, hmatches.symm⟩
  cell := by
    intro j i hij
    obtain ⟨cell, peer, hcell, hpeer, hmatches⟩ := h.cell i j hij
    exact ⟨peer, cell, hpeer, hcell, hmatches.symm⟩
  pace := h.pace.symm
  timeline := h.timeline.symm
  fits := h.fits'
  schedule := h.schedule'
  fits' := h.fits
  schedule' := h.schedule

theorem withOutput (h : Counterparts same plan other sim twin) (output output' : Output) :
    Counterparts same plan other (sim.withOutput output) (twin.withOutput output') :=
  ⟨h.planned, h.cell, h.pace, h.timeline, h.fits, h.schedule, h.fits', h.schedule'⟩

theorem begun (h : Counterparts same plan other sim twin) (increment : Float) (pace : StockPace) :
    Counterparts same plan other (sim.begun increment pace) (twin.begun increment pace) :=
  ⟨h.planned, h.cell, rfl, h.timeline.beginStep.setIncrement increment, h.fits, h.schedule, h.fits',
    h.schedule'⟩

theorem windows (h : Counterparts same plan other sim twin) {i j : Nat} (hij : same i j) :
    sim.windows[i]? = twin.windows[j]? := by
  obtain ⟨cell, peer, hcell, hpeer, hmatches⟩ := h.cell i j hij
  rw [Simulation.windows, Simulation.windows, List.getElem?_map, List.getElem?_map, hcell, hpeer]
  exact congrArg some hmatches.window

theorem matchAt (h : Counterparts same plan other sim twin) {i j : Nat} (hij : same i j) :
    sim.view.MatchAt i twin.view j :=
  ⟨h.windows hij, h.timeline.increment, h.timeline.step⟩

theorem advance (h : Counterparts same plan other sim twin) {i j : Nat} (hij : same i j) {cell : Cell ρ}
    {peer : Cell σ} (hmatches : cell.Matches peer) (params : Params) :
    let reply := UpdateRule.advance params i sim.view cell.partition.rule
    let reply' := UpdateRule.advance params j twin.view peer.partition.rule
    reply.result = reply'.result ∧ ∃ rule : StockRule, reply.next = StockRules.ofStock rule ∧
      reply'.next = StockRules.ofStock rule := by
  obtain ⟨rule, hrule, hrule'⟩ := hmatches.rule
  rw [hrule, hrule', StockRules.advance_ofStock, StockRules.advance_ofStock,
    StockRule.advance_congr (h.matchAt hij)]
  exact ⟨rfl, _, rfl, rfl⟩

/-! ## The compute phase -/

/-- A partition whose sources have sent what their counterparts send in a phase that succeeds is answered
like its own counterpart. -/
theorem answer_eq (h : Counterparts same plan other sim twin) (hcompute : sim.compute.result = .ok ())
    {i j : Nat} (hij : same i j) {peer : Cell σ} (hpeer : twin.cells[j]? = some peer) {params : Params}
    (htaken : Partition.refresh peer.partition.name peer.partition.feeds
      (twin.computeAll.inbox peer.partition.feeds) peer.partition.params = (.ok (), params))
    (hsources : ∀ feed ∈ peer.partition.feeds.values, ∀ k, same k feed.source → ∀ state,
      twin.computeAll.sentBy feed.source = some state → sim.computeAll.sentBy k = some state) :
    ∃ state, sim.computeAll.sentBy i = some state ∧ state.length = peer.window.width ∧
      (UpdateRule.advance params j twin.view peer.partition.rule).result = .ok state := by
  obtain ⟨p, q, hp, hq, hplanned⟩ := h.planned i j hij
  obtain ⟨cell, found, hcell, hfound, hmatches⟩ := h.cell i j hij
  obtain rfl := Option.some.inj (hpeer.symm.trans hfound)
  have hconforms := h.fits'.cell j peer q hpeer hq
  obtain ⟨state, own, hstate, hwidth, htakes, hadvance, -⟩ :=
    Simulation.computed_of_success sim h.fits h.schedule hcompute hcell hp
  have htakes' := Simulation.takesIn_of_refresh hconforms htaken
  obtain rfl : own = params := by
    refine hplanned.params_eq htakes htakes' fun param feed source hfeed hsource hsame => ?_
    rw [← hconforms.feeds] at hsource
    obtain ⟨message, hmessage⟩ := Progress.exists_sent_of_refresh htaken hsource
    rw [Simulation.getElem?_newStates hmessage]
    exact Simulation.getElem?_newStates
      (hsources source (Table.mem_values_iff.2 ⟨param, hsource⟩) _ hsame message hmessage)
  obtain ⟨sent, hsent⟩ := Simulation.exists_sent (Plan.schedule_suits h.schedule h.fits.feeds_eq) hcompute
    (List.getElem?_eq_some_iff.1 hcell).1
  obtain rfl := Option.some.inj ((Simulation.getElem?_newStates hsent).symm.trans hstate)
  exact ⟨sent, hsent, hmatches.window ▸ hwidth, (h.advance hij hmatches own).1.symm.trans hadvance⟩

theorem sentBy_eq (h : Counterparts same plan other sim twin) (hcompute : sim.compute.result = .ok ())
    {j : Nat} (hj : j < twin.cells.length) : ∀ i, same i j → ∀ state,
      twin.computeAll.sentBy j = some state → sim.computeAll.sentBy i = some state := by
  have hsuits := Plan.schedule_suits h.schedule' h.fits'.feeds_eq
  refine hsuits.feed_induction (motive := fun j => ∀ i, same i j → ∀ state,
    twin.computeAll.sentBy j = some state → sim.computeAll.sentBy i = some state) ?_ hj
  intro j peer hpeer hsources i hij state hsent
  obtain ⟨_, -, hconforms⟩ := h.fits'.exists_partition hpeer
  obtain ⟨hresult, -⟩ := (Simulation.visited_computeAll hsuits).computed j state hsent peer hpeer
  obtain ⟨params, htaken, hadvance, -⟩ := Partition.compute_of_ok twin.view peer.partition hresult
  obtain ⟨found, hfound, -, hanswer⟩ := h.answer_eq hcompute hij hpeer htaken hsources
  rw [hconforms.index, hanswer] at hadvance
  rw [hfound, Except.ok.inj hadvance]

/-- If every partition has a counterpart, a phase succeeds where that of the counterparts does. -/
theorem compute_eq_ok (h : Counterparts same plan other sim twin)
    (hcover : ∀ j < twin.cells.length, ∃ i, same i j) (hcompute : sim.compute.result = .ok ()) :
    twin.compute.result = .ok () := by
  by_contra hfails
  have hbounds : twin.InBounds := h.fits'.inBounds h.schedule'
  obtain ⟨j, stop, -, peer, params, reply, hpeer, hcalls, hown⟩ := hbounds.exists_failsItself hfails
  obtain ⟨hfound, -, htaken⟩ := hcalls
  obtain rfl := Option.some.inj (hpeer.symm.trans hfound)
  obtain ⟨i, hij⟩ := hcover j (List.getElem?_eq_some_iff.1 hpeer).1
  obtain ⟨state, -, hwidth, hanswer⟩ := h.answer_eq hcompute hij hpeer htaken
    fun feed hfeed => h.sentBy_eq hcompute (hbounds.suits.source_lt hpeer hfeed)
  rw [hbounds.index j peer hpeer] at hown
  cases hown with
  | refused hrefused => cases hanswer.symm.trans hrefused
  | crashed hcrashed => cases hanswer.symm.trans hcrashed
  | misshapen hfound hmisshapen =>
      obtain rfl := Except.ok.inj (hanswer.symm.trans hfound)
      exact hmisshapen hwidth

theorem newStates_eq (h : Counterparts same plan other sim twin) (hcompute : sim.compute.result = .ok ())
    (hcompute' : twin.compute.result = .ok ()) {i j : Nat} (hij : same i j) :
    sim.newStates[i]? = twin.newStates[j]? := by
  obtain ⟨_, peer, -, hpeer, -⟩ := h.cell i j hij
  have hj := (List.getElem?_eq_some_iff.1 hpeer).1
  obtain ⟨state, hstate⟩ := Simulation.exists_sent (Plan.schedule_suits h.schedule' h.fits'.feeds_eq)
    hcompute' hj
  rw [Simulation.getElem?_newStates hstate]
  exact Simulation.getElem?_newStates (h.sentBy_eq hcompute hj i hij state hstate)

end Counterparts

/-! ## Steps -/

namespace Counterparts

variable {plan other : Plan} {sim : Simulation ρ StockPace} {twin : Simulation σ StockPace}

theorem next_pace (h : Counterparts same plan other sim twin) :
    Pace.next twin.timeline.beginStep twin.pace = Pace.next sim.timeline.beginStep sim.pace := by
  rw [h.pace]
  exact StockPace.next_congr h.timeline.beginStep.step.symm twin.pace

theorem of_next (h : Counterparts same plan other sim twin) {next : Simulation ρ StockPace}
    {next' : Simulation σ StockPace}
    (hcell : ∀ i j, same i j → ∃ cell peer, next.cells[i]? = some cell ∧ next'.cells[j]? = some peer ∧
      cell.Matches peer)
    (hpace : next.pace = next'.pace) (htimeline : next.timeline.Agrees next'.timeline)
    (hfits : plan.Fits next.cells ∧ next.schedule = sim.schedule)
    (hfits' : other.Fits next'.cells ∧ next'.schedule = twin.schedule) :
    Counterparts same plan other next next' :=
  ⟨h.planned, hcell, hpace, htimeline, hfits.1, hfits.2 ▸ h.schedule, hfits'.1, hfits'.2 ▸ h.schedule'⟩

theorem restored (h : Counterparts same plan other sim twin) : sim.restored.Agrees twin.restored :=
  ⟨congrArg (fun step => Word.wrap (step + 1) - 1) h.timeline.step, h.timeline.increment, h.timeline.times⟩

theorem of_start {behaviour : Behaviour ρ StockPace} {behaviour' : Behaviour σ StockPace}
    {events events' : List Event} (h : Simulation.start plan behaviour = (.ok sim, events))
    (h' : Simulation.start other behaviour' = (.ok twin, events'))
    (hplanned : ∀ i j, same i j → ∃ p q, plan.partitions[i]? = some p ∧ other.partitions[j]? = some q ∧
      p.Matches same q)
    (hrules : ∀ i j, same i j → ∃ rule : StockRule, behaviour.rules[i]? = some (StockRules.ofStock rule) ∧
      behaviour'.rules[j]? = some (StockRules.ofStock rule))
    (hpace : behaviour.pace = behaviour'.pace) (htime : plan.startTime = other.startTime) :
    Counterparts same plan other sim twin where
  planned := hplanned
  cell := by
    intro i j hij
    obtain ⟨p, q, hp, hq, hmatches⟩ := hplanned i j hij
    obtain ⟨cell, hcell, hrule, hwindow⟩ := Simulation.cell_of_start h hp
    obtain ⟨peer, hpeer, hrule', hwindow'⟩ := Simulation.cell_of_start h' hq
    rw [← hmatches.width, ← hmatches.depth, ← hmatches.initial] at hwindow'
    obtain ⟨rule, hstock, hstock'⟩ := hrules i j hij
    exact ⟨cell, peer, hcell, hpeer, Except.ok.inj (hwindow.symm.trans hwindow'), rule,
      Option.some.inj (hrule.symm.trans hstock), Option.some.inj (hrule'.symm.trans hstock')⟩
  pace := (Simulation.start_behaviour h).2.2.trans (hpace.trans (Simulation.start_behaviour h').2.2.symm)
  timeline := by
    obtain ⟨-, -, htimeline, -⟩ := Simulation.start_eq_ok h
    obtain ⟨-, -, htimeline', -⟩ := Simulation.start_eq_ok h'
    exact .of_new htimeline (htime ▸ htimeline')
  fits := (Simulation.start_fits h).1
  schedule := (Simulation.start_eq_ok h).1
  fits' := (Simulation.start_fits h').1
  schedule' := (Simulation.start_eq_ok h').1

theorem cell_of_success (h : Counterparts same plan other sim twin) (hcalm : sim.CommitsCalmly)
    (hcalm' : twin.CommitsCalmly) {increment : Float} {pace : StockPace}
    (hpace : Pace.next sim.timeline.beginStep sim.pace = (.ok increment, pace))
    (hcompute : (sim.begun increment pace).compute.result = .ok ())
    (hcompute' : (twin.begun increment pace).compute.result = .ok ()) {i j : Nat} (hij : same i j) :
    ∃ cell peer, sim.step.next.cells[i]? = some cell ∧ twin.step.next.cells[j]? = some peer ∧
      cell.Matches peer := by
  have hphase := h.begun increment pace
  obtain ⟨p, q, hp, hq, hplanned⟩ := h.planned i j hij
  obtain ⟨cell, peer, hcell, hpeer, hmatches⟩ := h.cell i j hij
  obtain ⟨state, params, next, hstate, htakes, hnext, hwindow, hrule⟩ :=
    hcalm.cell h.fits h.schedule hpace hcompute hcell hp
  obtain ⟨state', params', next', hstate', htakes', hnext', hwindow', hrule'⟩ :=
    hcalm'.cell h.fits' h.schedule' (h.next_pace.trans hpace) hcompute' hpeer hq
  obtain rfl : params = params' := hplanned.params_eq htakes htakes' fun _ _ _ _ _ hsame =>
    hphase.newStates_eq hcompute hcompute' hsame
  have hsame := hphase.newStates_eq hcompute hcompute' hij
  obtain rfl := Option.some.inj (hstate.symm.trans (hsame.trans hstate'))
  obtain ⟨-, rule, hfirst, hsecond⟩ := hphase.advance hij hmatches params
  exact ⟨next, next', hnext, hnext', by rw [hwindow, hwindow', hmatches.window], rule,
    hrule.trans hfirst, hrule'.trans hsecond⟩

theorem step (h : Counterparts same plan other sim twin) (hcalm : sim.CommitsCalmly)
    (hcalm' : twin.CommitsCalmly) (hrun : ¬ sim.ComputeFails) (hrun' : ¬ twin.ComputeFails) :
    Counterparts same plan other sim.step.next twin.step.next := by
  have hfits := h.fits.step
  have hfits' := h.fits'.step
  have hcells : ∀ increment pace, Pace.next sim.timeline.beginStep sim.pace = (.ok increment, pace) →
      (sim.begun increment pace).compute.result = .ok () →
      (twin.begun increment pace).compute.result = .ok () → ∀ i j, same i j →
      ∃ cell peer, sim.step.next.cells[i]? = some cell ∧ twin.step.next.cells[j]? = some peer ∧
        cell.Matches peer :=
    fun increment pace hpace hcompute hcompute' i j => h.cell_of_success hcalm hcalm' hpace hcompute hcompute'
  have hway := sim.way_step
  generalize sim.step = reply at hfits hcells hway ⊢
  cases hway with
  | refused hpace =>
      rw [Simulation.step_of_refusal (h.next_pace.trans hpace)] at hfits' ⊢
      exact h.of_next h.cell rfl h.restored hfits hfits'
  | crashed hpace =>
      rw [Simulation.step_of_crash (h.next_pace.trans hpace)] at hfits' ⊢
      exact h.of_next h.cell rfl h.timeline.beginStep hfits hfits'
  | failed hpace hcompute => exact absurd ⟨_, _, _, hpace, hcompute⟩ hrun
  | @finished increment pace hpace hcompute =>
      have hpace' := h.next_pace.trans hpace
      have hcompute' : (twin.begun increment pace).compute.result = .ok () := by
        cases hresult : (twin.begun increment pace).compute.result with
        | ok _ => rfl
        | error stop => exact absurd ⟨increment, pace, stop, hpace', hresult⟩ hrun'
      have hcells' := hcells increment pace hpace hcompute hcompute'
      rw [Simulation.step_of_success hpace' hcompute'] at hfits' hcells' ⊢
      refine h.of_next hcells' ?_ ?_ hfits hfits'
      · dsimp only
        rw [Simulation.finishStep_next, Simulation.finishStep_next, Simulation.commit_eq,
          Simulation.commit_eq]
        rfl
      · have hbegun : (sim.begun increment pace).timeline.Agrees (twin.begun increment pace).timeline :=
          (h.begun increment pace).timeline
        dsimp only
        rw [Simulation.finishStep_next, Simulation.finishStep_next]
        exact hbegun.next ▸ hbegun.push _

theorem computeFails_iff (h : Counterparts same plan other sim twin)
    (hcover : ∀ i < plan.size, ∃ j, same i j) (hcover' : ∀ j < other.size, ∃ i, same i j) :
    twin.ComputeFails ↔ sim.ComputeFails := by
  rw [Simulation.computeFails_iff, Simulation.computeFails_iff, h.next_pace]
  refine exists_congr fun increment => exists_congr fun pace => and_congr Iff.rfl (not_congr ?_)
  have hphase := h.begun increment pace
  exact ⟨hphase.symm.compute_eq_ok fun i hi => hcover i (h.fits.count ▸ hi),
    hphase.compute_eq_ok fun j hj => hcover' j (h.fits'.count ▸ hj)⟩

end Counterparts

end Tandem
