import Tandem.Proofs.Archive
import Tandem.Proofs.Audit.Check
import Tandem.Proofs.Deliveries.Calls
import Tandem.Proofs.Registry.Resolution
import Tandem.Simulation.Audit

/-!
# What a recorded run holds

An audit records every state of a run. Its archive has a series for each partition, in the order of the
plan, which begins with the initial state and goes on with the states that steps commit. A state that an
audited rule has returned is finite, so only an initial state can hold a NaN.
-/

namespace Tandem

variable {ρ τ : Type}

theorem Output.offer_recordAll (archive : String) (record : Record) (step : Nat) :
    (recordAll archive).offer record step = (.ok (), [⟨archive, record⟩]) := rfl

theorem Output.calm_recordAll (archive : String) : (recordAll archive).Calm := by
  intro record step crash h
  cases h

namespace Audited

theorem finite_of_check {audited : Audited ρ} {state : State} {own : Window} {time : Float}
    (h : audited.check state own time = .ok ()) : State.Finite state := by
  unfold check at h
  split at h
  · cases h
  · split at h
    · cases h
    next hfinite => exact Classical.not_not.1 (mt any_not_isFinite_iff.2 hfinite)

theorem finite_of_advance [UpdateRule ρ] {params : Params} {index : Nat} {view : View}
    {audited : Audited ρ} {state : State}
    (h : (UpdateRule.advance params index view audited).result = .ok state) : State.Finite state := by
  have hadvance : (advance params index view audited).result = .ok state := h
  unfold advance at hadvance
  dsimp only at hadvance
  split at hadvance
  · cases hadvance
  next returned _ =>
    split at hadvance
    · cases hadvance
    next haccept =>
      obtain rfl : returned = state := Except.ok.inj hadvance
      obtain ⟨own, -, haccept⟩ := bind_eq_ok haccept
      obtain ⟨_, hcheck, -⟩ := bind_eq_ok haccept
      exact finite_of_check hcheck

end Audited

namespace Simulation

variable [UpdateRule ρ] [Pace τ] {plan : Plan} {sim : Simulation (Audited ρ) τ}

theorem finite_of_mem_commitments (hfits : plan.Fits sim.cells) (hschedule : plan.schedule = .ok sim.schedule)
    {c : Commitment} (hc : c ∈ sim.commitments) : ∀ state ∈ c.states, State.Finite state := by
  obtain ⟨pace, -, hcompute, hstates⟩ := mem_commitments_iff.1 hc
  let begun := sim.begun c.increment pace
  have hbegun : plan.Fits begun.cells := hfits
  have hcount : begun.newStates.length = sim.cells.length :=
    (length_newStates hbegun hschedule).trans hfits.count.symm
  intro state hmem
  obtain ⟨i, hi⟩ := List.mem_iff_getElem?.1 (hstates ▸ hmem)
  have hcell := List.getElem?_eq_getElem (hcount ▸ (List.getElem?_eq_some_iff.1 hi).1)
  obtain ⟨p, hp, -⟩ := hfits.exists_partition hcell
  obtain ⟨found, params, hfound, -, -, hadvance, -⟩ :=
    computed_of_success begun hfits hschedule hcompute hcell hp
  obtain rfl := Option.some.inj (hi.symm.trans hfound)
  exact Audited.finite_of_advance hadvance

theorem finite_of_mem_deliveries (hfits : plan.Fits sim.cells) (hschedule : plan.schedule = .ok sim.schedule)
    {name : String} (houtput : sim.output = .recordAll name) {emission : Emission}
    (h : emission ∈ sim.deliveries) :
    emission.record.series ∈ plan.names ∧ State.Finite emission.record.state := by
  rcases sim.commitments_cases with hnone | ⟨c, hone⟩
  · rw [(step_of_no_commitments hnone).1] at h
    cases h
  · have hc : c ∈ sim.commitments := hone ▸ List.mem_singleton_self c
    have hcalm : sim.output.Calm := houtput ▸ Output.calm_recordAll name
    have hdelivers := delivers_of_mem_commitments sim hfits hschedule hcalm hc
    rw [hdelivers.deliveries, houtput] at h
    obtain ⟨record, hrecord, hemission⟩ := List.mem_flatMap.1 h
    rw [Output.offer_recordAll] at hemission
    obtain rfl := List.mem_singleton.1 hemission
    constructor
    · rw [← Plan.series_records sim.step.next.timeline.current hdelivers.count]
      exact List.mem_map_of_mem hrecord
    · obtain ⟨i, hi⟩ := List.mem_iff_getElem?.1 hrecord
      obtain ⟨p, state, -, hstate, rfl⟩ := List.getElem?_zipWith_eq_some.1 hi
      exact finite_of_mem_commitments hfits hschedule hc state (List.mem_of_getElem? hstate)

theorem finite_of_mem_runWithin (hfits : plan.Fits sim.cells) (hschedule : plan.schedule = .ok sim.schedule)
    {name : String} (houtput : sim.output = .recordAll name) (fuel : Nat) :
    ∀ emission ∈ (sim.runWithin fuel).emitted.filterMap Event.delivered?,
      emission.record.series ∈ plan.names ∧ State.Finite emission.record.state := by
  have hevents := runWithin_emits
    (motive := fun later => plan.Fits later.cells ∧ plan.schedule = .ok later.schedule ∧
      later.output = .recordAll name)
    (P := fun event => ∀ emission, event.delivered? = some emission →
      emission.record.series ∈ plan.names ∧ State.Finite emission.record.state)
    (fun later ⟨hfits, hschedule, houtput⟩ =>
      ⟨hfits.step.1, hfits.step.2 ▸ hschedule, (step_output later).trans houtput⟩)
    (fun later ⟨hfits, hschedule, houtput⟩ event hevent emission hemission =>
      finite_of_mem_deliveries hfits hschedule houtput (List.mem_filterMap.2 ⟨event, hevent, hemission⟩))
    ⟨hfits, hschedule, houtput⟩ fuel
  intro emission hmem
  obtain ⟨event, hevent, hemission⟩ := List.mem_filterMap.1 hmem
  exact hevents event hevent emission hemission

end Simulation

namespace Audit

/-- The archive has a series for each partition of the plan, in their order. Each begins with the initial
state and goes on with finite states. -/
structure Records (plan : Plan) (archive : Archive) : Prop where
  names : archive.names = plan.names
  values : ∀ p ∈ plan.partitions, ∃ states, archive.values? p.name = some (p.initial :: states) ∧
    ∀ state ∈ states, State.Finite state

variable {plan : Plan} {first second : Archive}

theorem archiveOf_eq (events : List Event) :
    archiveOf events =
      ((events.filterMap Event.delivered?).map (·.record)).foldl Archive.append .empty := by
  rw [archiveOf, List.foldl_map]

/-- An archive of the initial states and, behind them, of finite states of the partitions. -/
theorem Records.of_records (hnodup : plan.names.Nodup) {later : List Record}
    (hlater : ∀ record ∈ later, record.series ∈ plan.names ∧ State.Finite record.state) :
    Records plan ((plan.initialRecords ++ later).foldl Archive.append .empty) := by
  have hseries : plan.initialRecords.map (·.series) = plan.names :=
    Plan.series_records plan.startTime (List.length_map _)
  have hnames : (plan.initialRecords.foldl Archive.append .empty).names = plan.names := by
    rw [Archive.names, Archive.series_foldl_append_of_fresh (hseries.symm ▸ hnodup) fun _ _ =>
      List.not_mem_nil, ← hseries]
    simp [Archive.empty]
  rw [List.foldl_append]
  refine ⟨?_, fun p hp => ?_⟩
  · rw [Archive.names_foldl_append fun record hrecord => hnames.symm ▸ (hlater record hrecord).1, hnames]
  · have hinitial : (⟨p.name, plan.startTime, p.initial⟩ : Record) ∈ plan.initialRecords := by
      rw [Plan.initialRecords_eq]
      exact List.mem_map_of_mem hp
    refine ⟨_, Archive.values?_foldl_append
      (Archive.values?_of_one_each (hseries.symm ▸ hnodup) hinitial) later, fun state hstate => ?_⟩
    obtain ⟨record, hrecord, rfl⟩ := List.mem_map.1 hstate
    exact (hlater record (List.mem_of_mem_filter hrecord)).2

/-! ## Comparing records -/

theorem beq_self_iff_numeric {states : List State} :
    (states == states) = true ↔ ∀ state ∈ states, State.Numeric state := by
  induction states with
  | nil => simp
  | cons state rest ih => rw [List.cons_beq_cons, Bool.and_eq_true, ih, State.beq_self_iff, List.forall_mem_cons]

/-- The first partition of which an initial value is NaN. -/
def firstNaN? (plan : Plan) : Option PartitionPlan :=
  plan.partitions.find? fun p => !decide (State.Numeric p.initial)

theorem Records.residue?_self (h : Records plan first) :
    residue? first first = (firstNaN? plan).map (·.name) := by
  rw [residue?, h.names, Plan.names, List.find?_map, firstNaN?, ← List.head?_filter, ← List.head?_filter]
  congr 2
  refine List.filter_congr fun p hp => ?_
  obtain ⟨states, hvalues, hfinite⟩ := h.values p hp
  have hself : (p.initial :: states == p.initial :: states) = decide (State.Numeric p.initial) := by
    rw [Bool.eq_iff_iff, beq_self_iff_numeric, decide_eq_true_iff, List.forall_mem_cons]
    exact and_iff_left fun state hstate => (hfinite state hstate).numeric
  rw [Function.comp_apply, hvalues, ← hself]
  rfl

/-- A NaN among the initial values makes any two records differ. -/
theorem Records.exists_residue_of_nan (hfirst : Records plan first) (hsecond : Records plan second)
    {p : PartitionPlan} (hp : p ∈ plan.partitions) (hnan : ¬ State.Numeric p.initial) :
    ∃ name, residue? first second = some name := by
  refine Option.isSome_iff_exists.1 (List.find?_isSome.2 ⟨p.name, ?_, ?_⟩)
  · rw [hfirst.names]
    exact List.mem_map_of_mem hp
  · obtain ⟨states, hvalues, -⟩ := hfirst.values p hp
    obtain ⟨others, hothers, -⟩ := hsecond.values p hp
    have hdiffer : (p.initial == p.initial) = false := Bool.eq_false_iff.2 (mt State.beq_self_iff.1 hnan)
    have hcompare : (some (p.initial :: states) == some (p.initial :: others)) =
      (p.initial == p.initial && states == others) := rfl
    rw [hvalues, hothers, hcompare, hdiffer]
    rfl

/-! ## Recorded runs -/

section

variable [UpdateRule ρ] [Pace τ] {given left : Behaviour ρ τ} {events : List Event}

theorem recordRun_eq_ok_iff :
    recordRun plan given = (.ok (left, first), events) ↔
      ∃ configured sim begun, given.configure plan = (.ok (), configured) ∧
        Simulation.start plan configured = (.ok sim, begun) ∧ sim.run.result = .ok () ∧
        left = sim.run.next.behaviour ∧ events = begun ++ sim.run.emitted ∧ first = archiveOf events := by
  unfold recordRun
  cases hconfigure : given.configure plan with
  | mk result configured =>
      cases result with
      | error stop => simp
      | ok _ =>
          cases hstart : Simulation.start plan configured with
          | mk result begun =>
              cases result with
              | error stop => simp [hstart]
              | ok sim =>
                  cases hrun : sim.run.result with
                  | error stop => simp [hstart, hrun, Except.map]
                  | ok _ =>
                      simp [hstart, hrun, Except.map]
                      grind

end

theorem records_of_recordRun [UpdateRule ρ] [Pace τ] {given left : Behaviour (Audited ρ) τ}
    {events : List Event} {name : String} (houtput : given.output = .recordAll name)
    (h : recordRun plan given = (.ok (left, first), events)) : Records plan first := by
  obtain ⟨configured, sim, begun, hconfigure, hstart, -, -, rfl, rfl⟩ := recordRun_eq_ok_iff.1 h
  have hconfigured := congrArg Behaviour.output (Behaviour.configure_eq_ok.1 hconfigure).2
  have hrecords : configured.output = .recordAll name := hconfigured.trans houtput
  obtain ⟨hfits, -⟩ := Simulation.start_fits hstart
  have hschedule := (Simulation.start_eq_ok hstart).1
  have hsim : sim.output = .recordAll name := (Simulation.start_behaviour hstart).1.trans hrecords
  have hinitial : (begun.filterMap Event.delivered?).map (·.record) = plan.initialRecords := by
    rw [Simulation.start_emitted hstart, hrecords, List.map_flatMap]
    simp [Output.offer_recordAll]
  rw [archiveOf_eq, List.filterMap_append, List.map_append, hinitial]
  refine .of_records (Plan.nodup_names_of_schedule hschedule) fun record hrecord => ?_
  obtain ⟨emission, hemission, rfl⟩ := List.mem_map.1 hrecord
  exact Simulation.finite_of_mem_runWithin hfits hschedule hsim Word.count emission hemission

end Audit

end Tandem
