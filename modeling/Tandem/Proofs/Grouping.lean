import Tandem.Proofs.Run
import Tandem.Proofs.Session

/-!
# Grouping does not change results

Two runnable plans may differ in their groups. Their simulations then differ in their schedules only, and
as long as no compute phase fails they keep to that: each partition finds the same states of the partitions
that feed it, whenever its turn comes, and of several outputs that refuse in one commit phase the one of
the lowest index is reported. A compute phase that fails for one grouping fails for the other.
-/

namespace Tandem

variable {ρ τ : Type}

def Plan.regroup (plan : Plan) (groups : List (List Nat)) : Plan := { plan with groups := groups }

def Simulation.reschedule (sim : Simulation ρ τ) (schedule : Schedule) : Simulation ρ τ :=
  { sim with schedule := schedule }

/-! ## The compute phase -/

section Compute

variable [UpdateRule ρ] {view : View} {cells : List (Cell ρ)} {ranges : List Range}

/-- Of the partitions visited so far none has failed, and each has sent what it sends in the phase that
ends with `final`. -/
structure Progress.Repeats (final : Progress ρ) (done : List Nat) (progress : Progress ρ) : Prop where
  running : ∀ g, progress.haltOf g = none
  same : ∀ i ∈ done, progress.sentBy i = final.sentBy i

theorem Progress.Repeats.visit {final progress : Progress ρ} {done : List Nat} {i : Nat}
    {all : List Nat} {others : List Range} {cell : Cell ρ} {state : State}
    (h : Repeats final done progress) (hfinal : Visited view cells others all final)
    (hvisited : Visited view cells ranges done progress) (hcell : cells[i]? = some cell)
    (hfresh : i ∉ done) (hsent : final.sentBy i = some state)
    (hsources : ∀ feed ∈ cell.partition.feeds.values, feed.source ∈ done) :
    Repeats final (done ++ [i]) (progress.visit view (groupOf ranges i) i) := by
  have hinbox : final.inbox cell.partition.feeds = progress.inbox cell.partition.feeds :=
    inbox_congr fun feed hfeed => (h.same _ (hsources feed hfeed)).symm
  have hresult := (hfinal.computed i state hsent cell hcell).1
  rw [hinbox] at hresult
  have hbefore : progress.cells[i]? = some cell := (hvisited.untouched i hfresh).trans hcell
  have hlt : i < progress.sent.length :=
    hvisited.sentCount.symm ▸ (List.getElem?_eq_some_iff.1 hcell).1
  have hhalt := h.running (groupOf ranges i)
  refine ⟨fun g => ?_, fun j hj => ?_⟩
  · rw [haltOf_visit_of_ok hbefore hhalt hresult]
    exact h.running g
  · rw [sentBy_visit_of_ok hbefore hhalt hlt hresult]
    split
    next heq => rw [heq, hsent]
    next hne =>
      have hmem : j ∈ done := by simpa [hne] using hj
      exact h.same j hmem

namespace Simulation

variable {sim : Simulation ρ τ} {schedule : Schedule}

/-- A compute phase that succeeds does so for every schedule that suits the cells, and comes to the same. -/
theorem computeAll_reschedule (hsuits : sim.schedule.Suits sim.cells)
    (hother : schedule.Suits sim.cells) (hcompute : sim.compute.result = .ok ()) :
    (sim.reschedule schedule).compute.result = .ok () ∧
      (sim.reschedule schedule).computeAll.cells = sim.computeAll.cells := by
  let other := sim.reschedule schedule
  have hsuits' : other.schedule.Suits other.cells := hother
  have hfinal := visited_computeAll hsuits
  have hvisited : Progress.Visited sim.view sim.cells schedule.ranges schedule.order
      other.computeAll := visited_computeAll hsuits'
  have hrepeats : Progress.Repeats sim.computeAll schedule.order other.computeAll := by
    refine (other.computeAll_induction (motive := fun done progress =>
      Progress.Visited sim.view sim.cells schedule.ranges done progress ∧
        Progress.Repeats sim.computeAll done progress)
      ⟨Progress.visited_start _ _ _, fun g => Progress.haltOf_start _ _ g, by simp⟩ ?_).2
    rintro done i after progress horder ⟨hdone, hsame⟩
    have hi := hother.lt_of_eq horder
    have hcell := List.getElem?_eq_getElem hi
    obtain ⟨state, hsent⟩ := exists_sent hsuits hcompute hi
    exact ⟨hdone.visit_next hother horder, hsame.visit hfinal hdone hcell (hother.not_mem_done horder)
      hsent fun feed hfeed => hother.source_mem_done horder List.mem_cons_self hcell hfeed⟩
  refine ⟨compute_result_eq_ok_iff_running.2 hrepeats.running, List.ext_getElem? fun i => ?_⟩
  by_cases hi : i < sim.cells.length
  · have hcell := List.getElem?_eq_getElem hi
    obtain ⟨state, hsent⟩ := exists_sent hsuits hcompute hi
    have hsame : other.computeAll.sentBy i = some state :=
      (hrepeats.same i (hother.mem_order.2 hi)).trans hsent
    have hinbox : other.computeAll.inbox sim.cells[i].partition.feeds =
        sim.computeAll.inbox sim.cells[i].partition.feeds :=
      Progress.inbox_congr fun feed hfeed =>
        hrepeats.same _ (hother.mem_order.2 (hother.source_lt hcell hfeed))
    rw [(hfinal.computed i state hsent _ hcell).2, (hvisited.computed i state hsame _ hcell).2, hinbox]
  · have hle := Nat.le_of_not_lt hi
    rw [List.getElem?_eq_none (Nat.le_trans (Nat.le_of_eq hfinal.cellCount) hle),
      List.getElem?_eq_none (Nat.le_trans (Nat.le_of_eq hvisited.cellCount) hle)]

theorem compute_reschedule_eq_ok_iff (hsuits : sim.schedule.Suits sim.cells)
    (hother : schedule.Suits sim.cells) :
    (sim.reschedule schedule).compute.result = .ok () ↔ sim.compute.result = .ok () := by
  have hsuits' : (sim.reschedule schedule).schedule.Suits (sim.reschedule schedule).cells := hother
  exact ⟨fun h => (computeAll_reschedule hsuits' hsuits h).1,
    fun h => (computeAll_reschedule hsuits hother h).1⟩

theorem computed_reschedule (hsuits : sim.schedule.Suits sim.cells)
    (hother : schedule.Suits sim.cells) (hcompute : sim.compute.result = .ok ()) :
    (sim.reschedule schedule).computed = sim.computed.reschedule schedule := by
  unfold computed
  rw [(computeAll_reschedule hsuits hother hcompute).2]
  rfl

end Simulation

end Compute

/-! ## The commit phase -/

theorem firstFault_eq_head? {faults : List Fault} (h : ∀ fault ∈ faults, fault.isKnockOn = false) :
    firstFault faults = faults.head? := by
  cases faults with
  | nil => rfl
  | cons fault rest =>
      have hfault := h fault List.mem_cons_self
      simp [firstFault, hfault]

section Commit

variable {output : Output} {time : Float} {step : Nat} {cells : List (Cell ρ)}

def Cell.refusal? (output : Output) (time : Float) (step : Nat) (cell : Cell ρ) : Option Fault :=
  match (cell.commit output time step).result with
  | .error (.fault fault) => some fault
  | _ => none

/-- The commit of a cell succeeds or is refused, and it is not refused because of other partitions. -/
def Cell.Settles (output : Output) (time : Float) (step : Nat) (cell : Cell ρ) : Prop :=
  ∀ stop, (cell.commit output time step).result = .error stop →
    ∃ fault, stop = .fault fault ∧ fault.isKnockOn = false

theorem Output.isKnockOn_offer {output : Output} {record : Record} {fault : Fault}
    (h : (output.offer record step).1 = .error (.fault fault)) : fault.isKnockOn = false := by
  revert h
  unfold offer
  split
  · intro h
    cases h
  · intro h
    cases h
  · split
    · intro h
      cases h
      rfl
    next hdelivered =>
      intro h
      exact (hdelivered fault _ (Prod.ext h rfl)).elim

theorem Cell.Ready.settles {cell : Cell ρ} (h : cell.Ready) (hcalm : output.Calm) :
    cell.Settles output time step := by
  obtain ⟨state, hpending, hshaped, hwidth⟩ := h
  intro stop hstop
  rw [Cell.commit_eq hpending hshaped hwidth] at hstop
  cases stop with
  | fault fault => exact ⟨fault, rfl, Output.isKnockOn_offer hstop⟩
  | crash crash => exact absurd hstop (hcalm _ _ crash)

theorem commitGroup_of_settles (h : ∀ cell ∈ cells, cell.Settles output time step) :
    commitGroup output time step cells =
      ⟨cells.map fun cell => (cell.commit output time step).next,
        (cells.findSome? (Cell.refusal? output time step)).map .fault,
        cells.flatMap fun cell => (cell.commit output time step).emitted⟩ := by
  induction cells with
  | nil => rfl
  | cons cell rest ih =>
      obtain ⟨hcell, hrest⟩ := List.forall_mem_cons.1 h
      rw [commitGroup, ih hrest, List.findSome?_cons, Cell.refusal?]
      cases hresult : (cell.commit output time step).result with
      | ok _ => rfl
      | error stop =>
          obtain ⟨fault, rfl, -⟩ := hcell stop hresult
          cases rest.findSome? (Cell.refusal? output time step) <;> rfl

theorem groupFaults_cons (names : List String) (range : Range) (ranges : List Range)
    (failure : Option Stop) (failures : List (Option Stop)) :
    groupFaults names (range :: ranges) (failure :: failures) =
      (failure.map (Stop.report (names.getD range.start ""))).toList ++
        groupFaults names ranges failures := by
  cases failure <;> rfl

theorem isKnockOn_findSome? {fault : Fault} (h : ∀ cell ∈ cells, cell.Settles output time step)
    (hfault : cells.findSome? (Cell.refusal? output time step) = some fault) :
    fault.isKnockOn = false := by
  obtain ⟨cell, hcell, hrefusal⟩ := List.exists_of_findSome?_eq_some hfault
  unfold Cell.refusal? at hrefusal
  split at hrefusal
  next found hresult =>
    obtain ⟨_, heq, hknock⟩ := h cell hcell _ hresult
    cases heq
    cases hrefusal
    exact hknock
  next => cases hrefusal

theorem commitGroups_of_settles (names : List String) {start stop : Nat} {ranges : List Range}
    (htiles : Tiles start stop ranges) (hcount : cells.length = stop - start)
    (h : ∀ cell ∈ cells, cell.Settles output time step) :
    let done := commitGroups output time step (ranges.map Range.size) cells
    done.cells = cells.map (fun cell => (cell.commit output time step).next) ∧
      done.emitted = cells.flatMap (fun cell => (cell.commit output time step).emitted) ∧
      (∀ fault ∈ groupFaults names ranges done.failure, fault.isKnockOn = false) ∧
      (groupFaults names ranges done.failure).head? =
        cells.findSome? (Cell.refusal? output time step) := by
  induction ranges generalizing start cells with
  | nil =>
      obtain rfl : start = stop := htiles
      obtain rfl : cells = [] := List.length_eq_zero_iff.1 (hcount.trans (Nat.sub_self start))
      exact ⟨rfl, rfl, by simp [groupFaults], rfl⟩
  | cons range rest ih =>
      obtain ⟨rfl, hlt, hrest⟩ := htiles
      have hstop := hrest.le
      have hfirst : ∀ cell ∈ cells.take range.size, cell.Settles output time step :=
        fun cell hcell => h cell (List.mem_of_mem_take hcell)
      have hlater : ∀ cell ∈ cells.drop range.size, cell.Settles output time step :=
        fun cell hcell => h cell (List.mem_of_mem_drop hcell)
      have hdrop : (cells.drop range.size).length = stop - range.stop := by
        rw [List.length_drop, Range.size]
        omega
      obtain ⟨hcells, hemitted, hknock, hhead⟩ := ih hrest hdrop hlater
      simp only [List.map_cons, commitGroups, commitGroup_of_settles hfirst, hcells, hemitted,
        groupFaults_cons]
      have hsplit := List.take_append_drop range.size cells
      refine ⟨?_, ?_, ?_, ?_⟩
      · rw [← List.map_append, hsplit]
      · rw [← List.flatMap_append, hsplit]
      · intro fault hmem
        rcases List.mem_append.1 hmem with hmem | hmem
        · simp only [Option.map_map, Option.mem_toList, Option.map_eq_some_iff] at hmem
          obtain ⟨found, hfound, rfl⟩ := hmem
          exact isKnockOn_findSome? hfirst hfound
        · exact hknock fault hmem
      · conv_rhs => rw [← hsplit, List.findSome?_append, ← hhead]
        cases (cells.take range.size).findSome? (Cell.refusal? output time step) <;> rfl

end Commit

namespace Simulation

variable {sim : Simulation ρ τ} {time : Float} {step : Nat} {schedule : Schedule}

theorem commit_of_settles (htiles : Tiles 0 sim.cells.length sim.schedule.ranges)
    (h : ∀ cell ∈ sim.cells, cell.Settles sim.output time step) :
    sim.commit time step =
      { result :=
          match sim.cells.findSome? (Cell.refusal? sim.output time step) with
          | some fault => .error (.fault fault)
          | none => .ok ()
        next := { sim with
          cells := sim.cells.map fun cell => (cell.commit sim.output time step).next }
        emitted := sim.cells.flatMap fun cell => (cell.commit sim.output time step).emitted } := by
  let names := sim.cells.map fun cell => (cell.commit sim.output time step).next.partition.name
  obtain ⟨hcells, hemitted, hknock, hhead⟩ := commitGroups_of_settles names htiles rfl h
  rw [← firstFault_eq_head? hknock] at hhead
  simp only [commit, Simulation.names, hcells, hemitted, List.map_map]
  have hnames : List.map ((fun cell : Cell ρ => cell.partition.name) ∘ fun cell =>
    (cell.commit sim.output time step).next) sim.cells = names := rfl
  rw [hnames, hhead]
  cases sim.cells.findSome? (Cell.refusal? sim.output time step) <;> rfl

theorem commit_reschedule (htiles : Tiles 0 sim.cells.length sim.schedule.ranges)
    (hother : Tiles 0 sim.cells.length schedule.ranges)
    (h : ∀ cell ∈ sim.cells, cell.Settles sim.output time step) :
    (sim.reschedule schedule).commit time step =
      (sim.commit time step).mapNext fun next => next.reschedule schedule := by
  have htiles' : Tiles 0 (sim.reschedule schedule).cells.length
    (sim.reschedule schedule).schedule.ranges := hother
  rw [commit_of_settles htiles h, commit_of_settles htiles' h]
  rfl

theorem finishStep_reschedule (htiles : Tiles 0 sim.cells.length sim.schedule.ranges)
    (hother : Tiles 0 sim.cells.length schedule.ranges)
    (h : ∀ cell ∈ sim.cells, cell.Settles sim.output sim.timeline.next sim.timeline.step) :
    (sim.reschedule schedule).finishStep =
      sim.finishStep.mapNext fun next => next.reschedule schedule := by
  have hcommit := commit_reschedule htiles hother h
  have htimeline : (sim.reschedule schedule).timeline = sim.timeline := rfl
  simp only [finishStep, htimeline, hcommit, Reply.mapNext]
  rfl

end Simulation

/-! ## The start -/

section Start

variable {plan : Plan} {behaviour : Behaviour ρ τ}

theorem Plan.exists_schedule_of_check (h : plan.check = .ok ()) : ∃ schedule, plan.schedule = .ok schedule := by
  unfold check at h
  cases hschedule : plan.schedule with
  | error fault => simp [hschedule, bind, Except.bind] at h
  | ok schedule => exact ⟨schedule, rfl⟩

namespace Simulation

theorem start_regroup {groups : List (List Nat)} {first schedule : Schedule}
    (hfirst : plan.schedule = .ok first) (hother : (plan.regroup groups).schedule = .ok schedule) :
    start (plan.regroup groups) behaviour =
      ((start plan behaviour).1.map fun sim => sim.reschedule schedule, (start plan behaviour).2) := by
  have hprepare : prepare (plan.regroup groups) behaviour =
      (prepare plan behaviour).map fun parts => (schedule, parts.2) := by
    have hsize : (plan.regroup groups).size = plan.size := rfl
    simp only [prepare, hfirst, hother, hsize, bind, Except.bind, liftM, monadLift,
      MonadLift.monadLift, Except.mapError, throw, throwThe, MonadExceptOf.throw, pure, Except.pure]
    by_cases hrules : behaviour.rules.length ≠ plan.size
    · simp only [if_pos hrules]
      rfl
    · simp only [if_neg hrules]
      have hpartitions : (plan.regroup groups).partitions = plan.partitions := rfl
      have htimeline : Timeline.new (plan.regroup groups).timelineDepth
        (plan.regroup groups).startTime = Timeline.new plan.timelineDepth plan.startTime := rfl
      rw [hpartitions, htimeline]
      cases plan.partitions.mapM fun p => Window.new p.width p.depth p.initial with
      | error stop => rfl
      | ok windows => cases Timeline.new plan.timelineDepth plan.startTime <;> rfl
  unfold start
  rw [hprepare]
  cases prepare plan behaviour with
  | error stop => rfl
  | ok parts =>
      have hpartitions : (plan.regroup groups).partitions = plan.partitions := rfl
      have htime : (plan.regroup groups).startTime = plan.startTime := rfl
      simp only [Except.map, hpartitions, htime]
      cases (beginCells behaviour.output plan.startTime 0
        (behaviour.rules.zip (plan.partitions.zip parts.2.1))).1 <;> rfl

end Simulation

end Start

/-! ## Steps -/

/-- The next step gets to its compute phase and fails there. -/
def Simulation.ComputeFails [UpdateRule ρ] [Pace τ] (sim : Simulation ρ τ) : Prop :=
  ∃ increment pace stop, Pace.next sim.timeline.beginStep sim.pace = (.ok increment, pace) ∧
    (sim.begun increment pace).compute.result = .error stop

def Simulation.deliveries [UpdateRule ρ] [Pace τ] (sim : Simulation ρ τ) : List Emission :=
  sim.step.emitted.filterMap Event.delivered?

theorem filterMap_delivered (nested delivered : List Emission) :
    (nested.map Event.nested ++ delivered.map Event.delivered).filterMap Event.delivered? =
      delivered := by
  simp [List.filterMap_append, Function.comp_def, Event.delivered?]

theorem filterMap_nested (nested : List Emission) :
    (nested.map Event.nested).filterMap Event.delivered? = [] := by
  simpa using filterMap_delivered nested []

section Step

variable [UpdateRule ρ] [Pace τ] {plan : Plan} {behaviour : Behaviour ρ τ} {sim : Simulation ρ τ}

namespace Simulation

variable {schedule : Schedule}

theorem computeFails_iff : sim.ComputeFails ↔ ∃ increment pace,
    Pace.next sim.timeline.beginStep sim.pace = (.ok increment, pace) ∧
      (sim.begun increment pace).compute.result ≠ .ok () := by
  have hiff : ∀ result : Outcome Unit, (∃ stop, result = .error stop) ↔ result ≠ .ok () := by
    intro result
    cases result <;> simp
  simp only [ComputeFails, ← hiff, exists_and_left]

theorem computeFails_reschedule_iff (hsuits : sim.schedule.Suits sim.cells)
    (hother : schedule.Suits sim.cells) :
    (sim.reschedule schedule).ComputeFails ↔ sim.ComputeFails := by
  rw [computeFails_iff, computeFails_iff]
  refine exists_congr fun increment => exists_congr fun pace => and_congr Iff.rfl (not_congr ?_)
  have hbegun : (sim.begun increment pace).schedule.Suits (sim.begun increment pace).cells := hsuits
  have hsame : (sim.reschedule schedule).begun increment pace =
    (sim.begun increment pace).reschedule schedule := rfl
  rw [hsame]
  exact compute_reschedule_eq_ok_iff hbegun hother

/-- A step whose compute phase does not fail does not depend on the schedule. -/
theorem step_reschedule (hfits : plan.Fits sim.cells) (hschedule : plan.schedule = .ok sim.schedule)
    (hother : schedule.Suits sim.cells) (hcalm : sim.output.Calm) (h : ¬ sim.ComputeFails) :
    (sim.reschedule schedule).step.result = sim.step.result ∧
      (sim.reschedule schedule).step.next = sim.step.next.reschedule schedule ∧
      (sim.reschedule schedule).deliveries = sim.deliveries := by
  have hsuits := Plan.schedule_suits hschedule hfits.feeds_eq
  have hway := sim.way_step
  unfold deliveries
  generalize sim.step = reply at hway ⊢
  cases hway with
  | refused hpace =>
      have hpace' : Pace.next (sim.reschedule schedule).timeline.beginStep
        (sim.reschedule schedule).pace = _ := hpace
      rw [step_of_refusal hpace']
      exact ⟨rfl, rfl, rfl⟩
  | crashed hpace =>
      have hpace' : Pace.next (sim.reschedule schedule).timeline.beginStep
        (sim.reschedule schedule).pace = _ := hpace
      rw [step_of_crash hpace']
      exact ⟨rfl, rfl, rfl⟩
  | failed hpace hcompute => exact absurd ⟨_, _, _, hpace, hcompute⟩ h
  | @finished increment pace hpace hcompute =>
      let begun := sim.begun increment pace
      have hpace' : Pace.next (sim.reschedule schedule).timeline.beginStep
        (sim.reschedule schedule).pace = _ := hpace
      have hbegun : begun.schedule.Suits begun.cells := hsuits
      have hbegun' : schedule.Suits begun.cells := hother
      have hcompute' : ((sim.reschedule schedule).begun increment pace).compute.result = .ok () :=
        (computeAll_reschedule hbegun hbegun' hcompute).1
      have hcomputed : ((sim.reschedule schedule).begun increment pace).computed =
          begun.computed.reschedule schedule := computed_reschedule hbegun hbegun' hcompute
      have hready := ready_of_success begun hfits hschedule hcompute
      have hfinish : ((sim.reschedule schedule).begun increment pace).computed.finishStep =
          begun.computed.finishStep.mapNext fun next => next.reschedule schedule := by
        rw [hcomputed]
        refine finishStep_reschedule (tiles_computed begun hfits hschedule) ?_
          fun cell hcell => (hready cell hcell).settles hcalm
        rw [length_computed]
        exact hbegun'.tiles
      rw [step_of_success hpace' hcompute']
      simp only [hfinish, Reply.mapNext]
      exact ⟨rfl, rfl, by rw [filterMap_delivered, filterMap_delivered]⟩

theorem after_reschedule (h : Reachable plan behaviour sim) (hcalm : behaviour.output.Calm)
    {groups : List (List Nat)} (hother : (plan.regroup groups).schedule = .ok schedule) (n : Nat)
    (hrun : ∀ k < n, ¬ (sim.after k).ComputeFails) :
    (sim.reschedule schedule).after n = (sim.after n).reschedule schedule := by
  induction n with
  | zero => rfl
  | succ n ih =>
      have hreach := h.after n
      obtain ⟨hfits, hschedule⟩ := hreach.fits
      have hsuits : schedule.Suits (sim.after n).cells := Plan.schedule_suits hother hfits.feeds_eq
      have hsame := ih fun k hk => hrun k (Nat.lt_succ_of_lt hk)
      rw [after, after, hsame]
      exact (step_reschedule hfits hschedule hsuits (hreach.output ▸ hcalm)
        (hrun n (Nat.lt_succ_self n))).2.1

/-- Two runnable plans that differ in their groups only, and the same behaviour, whose output does not
crash. -/
theorem grouping_does_not_change_results {groups : List (List Nat)} (hplan : plan.check = .ok ())
    (hregrouped : (plan.regroup groups).check = .ok ()) (hcalm : behaviour.output.Calm) :
    let first := start plan behaviour
    let second := start (plan.regroup groups) behaviour
    second.2 = first.2 ∧
      (∀ stop, second.1 = .error stop ↔ first.1 = .error stop) ∧
      ∀ sim other, first.1 = .ok sim → second.1 = .ok other → ∀ n,
        ((∀ k < n, ¬ (other.after k).ComputeFails) ↔ ∀ k < n, ¬ (sim.after k).ComputeFails) ∧
          ((∀ k < n, ¬ (sim.after k).ComputeFails) →
            (other.after n).windows = (sim.after n).windows ∧
            (other.after n).timeline = (sim.after n).timeline ∧
            (∀ k < n, (other.after k).step.result = (sim.after k).step.result ∧
              (other.after k).deliveries = (sim.after k).deliveries) ∧
            ((other.after n).ComputeFails ↔ (sim.after n).ComputeFails)) := by
  obtain ⟨schedule, hfirst⟩ := Plan.exists_schedule_of_check hplan
  obtain ⟨regrouped, hsecond⟩ := Plan.exists_schedule_of_check hregrouped
  intro first second
  have hstart : second = (first.1.map fun sim => sim.reschedule regrouped, first.2) :=
    start_regroup hfirst hsecond
  rw [hstart]
  refine ⟨rfl, fun stop => ?_, fun sim other hsim hother n => ?_⟩
  · cases first.1 <;> simp [Except.map]
  · have hreach : Reachable plan behaviour sim := .start (Prod.ext hsim rfl)
    obtain rfl : sim.reschedule regrouped = other := by
      rw [hsim] at hother
      exact Except.ok.inj hother
    have hsame : ∀ n, (∀ k < n, ¬ (sim.after k).ComputeFails) →
        (sim.reschedule regrouped).after n = (sim.after n).reschedule regrouped :=
      after_reschedule hreach hcalm hsecond
    have hsuits : ∀ n, (sim.after n).schedule.Suits (sim.after n).cells ∧
        regrouped.Suits (sim.after n).cells := by
      intro n
      obtain ⟨hfits, hschedule⟩ := (hreach.after n).fits
      exact ⟨Plan.schedule_suits hschedule hfits.feeds_eq, Plan.schedule_suits hsecond hfits.feeds_eq⟩
    have hfails : ∀ n, (∀ k < n, ¬ (sim.after k).ComputeFails) →
        (((sim.reschedule regrouped).after n).ComputeFails ↔ (sim.after n).ComputeFails) := by
      intro n hrun
      rw [hsame n hrun]
      exact computeFails_reschedule_iff (hsuits n).1 (hsuits n).2
    refine ⟨?_, fun hrun => ⟨?_, ?_, fun k hk => ?_, hfails n hrun⟩⟩
    · induction n with
      | zero => simp
      | succ n ih =>
          rw [Nat.forall_lt_succ_right, Nat.forall_lt_succ_right, ih]
          exact and_congr_right fun hrun => not_congr (hfails n hrun)
    · rw [hsame n hrun]
      rfl
    · rw [hsame n hrun]
      rfl
    · have hbefore : ∀ j < k, ¬ (sim.after j).ComputeFails := fun j hj =>
        hrun j (Nat.lt_trans hj hk)
      obtain ⟨hfits, hschedule⟩ := (hreach.after k).fits
      rw [hsame k hbefore]
      obtain ⟨hresult, -, hdeliveries⟩ := step_reschedule hfits hschedule (hsuits k).2
        ((hreach.after k).output ▸ hcalm) (hrun k hk)
      exact ⟨hresult, hdeliveries⟩

/-- Three partitions, the first of which is fed by the last. -/
def trioPlan : Plan where
  partitions := [
    ⟨"reader", .empty, .ofList [(Relay.param, ⟨2, some [1]⟩)], [0], 0, 1, 2⟩,
    ⟨"middle", .empty, ∅, [3], 0, 1, 2⟩,
    ⟨"source", .empty, ∅, [5, 7], 0, 2, 2⟩]
  startTime := 0
  timelineDepth := 2
  groups := []

/-- The output refuses all states but the initial ones. -/
def trioBehaviour : Behaviour StockRule StockPace where
  rules := [.relay, .hold, .hold]
  output := ⟨fun _ step => .ok (decide (0 < step)), fun _ => (.error (.fault .noRunSpec), [])⟩
  stop := .steps 1
  pace := .constant 1

def trioSimulation : Simulation StockRule StockPace where
  cells := [
    ⟨⟨.relay, ⟨∅, "reader"⟩, "reader", 0, .ofList [(Relay.param, ⟨2, some [1]⟩)], none⟩,
      ⟨[0, 0], 1, 2⟩⟩,
    ⟨⟨.hold, ⟨∅, "middle"⟩, "middle", 1, ∅, none⟩, ⟨[3, 0], 1, 2⟩⟩,
    ⟨⟨.hold, ⟨∅, "source"⟩, "source", 2, ∅, none⟩, ⟨[5, 7, 0, 0], 2, 2⟩⟩]
  schedule := ⟨[⟨0, 1⟩, ⟨1, 2⟩, ⟨2, 3⟩], [2, 0, 1]⟩
  timeline := ⟨0, [0], 0, 0⟩
  output := trioBehaviour.output
  stop := .steps 1
  pace := .constant 1

theorem trioSimulation_grouping :
    let other := trioSimulation.reschedule ⟨[⟨0, 1⟩, ⟨1, 3⟩], [1, 2, 0]⟩
    (start (trioPlan.regroup [[0], [1, 2]]) trioBehaviour).1 = .ok other ∧
      other.step.result = .error (.fault (.outputFailed "reader" (0 + 1) Fault.noRunSpec.message)) ∧
      (other.after 1).windows = [⟨[7, 0], 1, 2⟩, ⟨[3, 3], 1, 2⟩, ⟨[5, 7, 5, 7], 2, 2⟩] := by
  intro other
  have hcalm : trioBehaviour.output.Calm := by
    intro record step crash
    have hoffer : (trioBehaviour.output.offer record step).1 = .ok () ∨
        ∃ fault, (trioBehaviour.output.offer record step).1 = .error (.fault fault) := by
      unfold Output.offer trioBehaviour
      by_cases hstep : 0 < step
      · simp [hstep]
      · simp [hstep]
    rcases hoffer with h | ⟨fault, h⟩
    · simp [h]
    · simp [h]
  have hfails : ¬ trioSimulation.ComputeFails := by
    rintro ⟨increment, pace, stop, hpace, hcompute⟩
    obtain ⟨rfl, rfl⟩ : 1 = increment ∧ StockPace.constant 1 = pace := by
      have hpace' := Prod.mk.inj hpace
      exact ⟨Except.ok.inj hpace'.1, hpace'.2⟩
    cases (rfl : (trioSimulation.begun 1 (.constant 1)).compute.result = .ok ()).symm.trans hcompute
  obtain ⟨-, -, hruns⟩ := grouping_does_not_change_results (rfl : trioPlan.check = .ok ())
    (rfl : (trioPlan.regroup [[0], [1, 2]]).check = .ok ()) hcalm
  have hother : (start (trioPlan.regroup [[0], [1, 2]]) trioBehaviour).1 = .ok other := rfl
  obtain ⟨-, hsame⟩ := hruns trioSimulation other rfl hother 1
  obtain ⟨hwindows, -, hsteps, -⟩ := hsame fun k hk => by
    obtain rfl : k = 0 := by omega
    exact hfails
  obtain ⟨hresult, -⟩ := hsteps 0 Nat.one_pos
  exact ⟨hother, hresult.trans rfl, hwindows.trans rfl⟩

end Simulation

end Step

end Tandem
