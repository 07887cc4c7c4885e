import Tandem.Proofs.Retry
import Tandem.Proofs.Start

/-!
# What outputs are offered

A start offers the output the initial state of every partition, and a step that reaches its commit phase
offers it all states that it commits. What the output does not want is not delivered. A delivery that is
refused keeps no other partition from committing its state and from having it offered.
-/

namespace Tandem

variable {ρ τ : Type}

namespace Output

/-- What is delivered when a record is offered: the record if it is wanted, else nothing. -/
def wanted (output : Output) (record : Record) (step : Nat) : List Record :=
  match output.due record step with
  | .ok true => [record]
  | _ => []

def Refuses (output : Output) (record : Record) (step : Nat) (fault : Fault) : Prop :=
  output.due record step = .ok true ∧ (output.deliver record).1 = .error (.fault fault)

/-- The output that wants the same and answers the same, and notes each record that it is asked to
deliver. -/
def noting (output : Output) : Output where
  due := output.due
  deliver record := ((output.deliver record).1, [⟨"notes", record⟩])

theorem offer_emitted (output : Output) (record : Record) (step : Nat) :
    (output.offer record step).2 =
      (output.wanted record step).flatMap fun r => (output.deliver r).2 := by
  unfold offer wanted
  split
  next h => simp [h]
  next h => simp [h]
  next h =>
    split
    next hdeliver => simp [h, hdeliver]
    next => simp [h]

theorem offer_noting (output : Output) (record : Record) (step : Nat) :
    output.noting.offer record step =
      ((output.offer record step).1, (output.wanted record step).map fun r => ⟨"notes", r⟩) := by
  unfold offer wanted noting
  dsimp only
  split
  next h => simp [h]
  next h => simp [h]
  next h =>
    rcases hdeliver : output.deliver record with ⟨_ | _, emitted⟩
    next stop => cases stop <;> simp [h]
    next => simp [h]

theorem Calm.noting {output : Output} (h : output.Calm) : output.noting.Calm := by
  intro record step crash
  rw [offer_noting]
  exact h record step crash

theorem filter_wanted (output : Output) (record : Record) (step : Nat) (name : String) :
    (output.wanted record step).filter (fun r => r.series = name) =
      if record.series = name then output.wanted record step else [] := by
  unfold wanted
  split <;> simp [List.filter_singleton]

def refusal? (output : Output) (record : Record) (step : Nat) : Option Fault :=
  match (output.offer record step).1 with
  | .error (.fault fault) => some fault
  | _ => none

theorem refusal?_eq_some_iff {output : Output} {record : Record} {step : Nat} {found : Fault} :
    output.refusal? record step = some found ↔
      ∃ fault, output.Refuses record step fault ∧
        found = .outputFailed record.series record.time fault.message := by
  unfold refusal? Refuses offer
  cases hdue : output.due record step with
  | error crash => simp
  | ok due =>
      cases due with
      | false => simp
      | true =>
          rcases hdeliver : output.deliver record with ⟨stop | _, emitted⟩
          · cases stop <;> simp [eq_comm]
          · simp

end Output

/-! ## The start -/

def Plan.records (plan : Plan) (time : Float) (states : List State) : List Record :=
  List.zipWith (fun p state => ⟨p.name, time, state⟩) plan.partitions states

def Plan.initialRecords (plan : Plan) : List Record :=
  plan.records plan.startTime (plan.partitions.map (·.initial))

theorem Plan.initialRecords_eq (plan : Plan) :
    plan.initialRecords = plan.partitions.map fun p => ⟨p.name, plan.startTime, p.initial⟩ := by
  rw [initialRecords, records, List.zipWith_map_right, List.zipWith_self]

namespace Simulation

variable {plan : Plan} {behaviour : Behaviour ρ τ} {sim : Simulation ρ τ} {events : List Event}

theorem filterMap_map_delivered (emitted : List Emission) :
    (emitted.map Event.delivered).filterMap Event.delivered? = emitted := by
  simpa using filterMap_delivered [] emitted

theorem beginCells_emitted {output : Output} {time : Float} {index : Nat}
    {parts : List (ρ × PartitionPlan × Window)} {cells : List (Cell ρ)}
    (h : beginCells output time index parts = (.ok cells, events)) :
    events.filterMap Event.delivered? =
      (parts.map fun part => part.2.1).flatMap fun p => (output.offer ⟨p.name, time, p.initial⟩ 0).2 := by
  induction parts generalizing index cells events with
  | nil =>
      cases h
      rfl
  | cons part rest ih =>
      obtain ⟨rule, p, window⟩ := part
      simp only [beginCells] at h
      cases hbegin : ((makePartition index p rule).begin output p.initial time).result with
      | error stop => simp [hbegin] at h
      | ok _ =>
          cases hlater : beginCells output time (index + 1) rest with
          | mk result later =>
              cases result with
              | error stop => simp [hbegin, hlater, Except.map] at h
              | ok others =>
                  simp only [hbegin, hlater, Except.map, Prod.mk.injEq] at h
                  obtain ⟨-, rfl⟩ := h
                  rw [List.filterMap_append, filterMap_map_delivered, ih hlater]
                  rfl

theorem beginCells_noting (output : Output) (time : Float) (index : Nat)
    (parts : List (ρ × PartitionPlan × Window)) :
    (beginCells output.noting time index parts).1 = (beginCells output time index parts).1 := by
  induction parts generalizing index with
  | nil => rfl
  | cons part rest ih =>
      obtain ⟨rule, p, window⟩ := part
      have hbegin : ∀ output : Output, ((makePartition index p rule).begin output p.initial time).result =
        (output.offer ⟨p.name, time, p.initial⟩ 0).1 := fun _ => rfl
      simp only [beginCells, hbegin, Output.offer_noting]
      cases (output.offer ⟨p.name, time, p.initial⟩ 0).1 with
      | error stop => rfl
      | ok _ =>
          rw [ih (index + 1)]
          rfl

theorem start_emitted (h : start plan behaviour = (.ok sim, events)) :
    events.filterMap Event.delivered? =
      plan.initialRecords.flatMap fun record => (behaviour.output.offer record 0).2 := by
  unfold start at h
  cases hprepare : prepare plan behaviour with
  | error stop => simp [hprepare] at h
  | ok parts =>
      obtain ⟨schedule, windows, timeline⟩ := parts
      cases hcells : beginCells behaviour.output plan.startTime 0
          (behaviour.rules.zip (plan.partitions.zip windows)) with
      | mk result found =>
          simp only [hprepare, hcells, Prod.mk.injEq] at h
          obtain ⟨hresult, rfl⟩ := h
          cases result with
          | error stop => cases hresult
          | ok cells =>
              obtain ⟨-, hrules, hwindows, -⟩ := prepare_eq_ok hprepare
              have hlength : (plan.partitions.zip windows).length = behaviour.rules.length := by
                rw [List.length_zip, ← hwindows.length_eq, Nat.min_self, hrules, Plan.size]
              have hplans : (behaviour.rules.zip (plan.partitions.zip windows)).map
                  (fun part => part.2.1) = plan.partitions := by
                have hsnd := List.map_snd_zip (Nat.le_of_eq hlength)
                have hfst := List.map_fst_zip (Nat.le_of_eq hwindows.length_eq)
                conv_rhs => rw [← hfst, ← hsnd, List.map_map]
                rfl
              rw [beginCells_emitted hcells, hplans, Plan.initialRecords_eq, List.flatMap_map]

theorem start_noting (h : start plan behaviour = (.ok sim, events)) :
    ∃ notes, start plan { behaviour with output := behaviour.output.noting } =
      (.ok (sim.withOutput behaviour.output.noting), notes) := by
  unfold start at h ⊢
  have hprepare : prepare plan { behaviour with output := behaviour.output.noting } =
    prepare plan behaviour := rfl
  rw [hprepare]
  cases hparts : prepare plan behaviour with
  | error stop => simp [hparts] at h
  | ok parts =>
      simp only [hparts, Prod.mk.injEq] at h
      simp only [beginCells_noting]
      obtain ⟨hsim, -⟩ := h
      refine ⟨_, Prod.ext ?_ rfl⟩
      cases hcells : (beginCells behaviour.output plan.startTime 0
          (behaviour.rules.zip (plan.partitions.zip parts.2.1))).1 with
      | error stop => simp [hcells, Except.map] at hsim
      | ok cells =>
          simp only [hcells, Except.map, Except.ok.injEq] at hsim ⊢
          rw [← hsim]
          rfl

end Simulation

/-! ## One step -/

def Cell.record (time : Float) (cell : Cell ρ) : Record :=
  ⟨cell.partition.name, time, cell.partition.pending.getD []⟩

theorem Cell.Ready.commit_eq_offer {cell : Cell ρ} (h : cell.Ready) (output : Output) (time : Float)
    (step : Nat) : cell.commit output time step =
      ⟨(output.offer (cell.record time) step).1, cell.recorded (cell.partition.pending.getD []),
        (output.offer (cell.record time) step).2⟩ := by
  obtain ⟨state, hpending, hshaped, hwidth⟩ := h
  rw [Cell.commit_eq hpending hshaped hwidth, Cell.record, hpending]
  rfl

theorem Plan.getElem?_records {plan : Plan} {i : Nat} {p : PartitionPlan} {states : List State}
    {state : State} (time : Float) (hp : plan.partitions[i]? = some p) (hstate : states[i]? = some state) :
    (plan.records time states)[i]? = some ⟨p.name, time, state⟩ := by
  rw [records, List.getElem?_zipWith, hp, hstate]

namespace Simulation

theorem finishStep_of_ready {sim : Simulation ρ τ} (htiles : Tiles 0 sim.cells.length sim.schedule.ranges)
    (hready : ∀ cell ∈ sim.cells, cell.Ready) (hcalm : sim.output.Calm) :
    let records := sim.cells.map (Cell.record sim.timeline.next)
    sim.finishStep.emitted =
        records.flatMap (fun record => (sim.output.offer record sim.timeline.step).2) ∧
      sim.finishStep.result =
        match records.findSome? fun record => sim.output.refusal? record sim.timeline.step with
        | some fault => .error (.fault fault)
        | none => .ok ⟨sim.timeline.step, sim.timeline.next⟩ := by
  intro records
  have hsettles : ∀ cell ∈ sim.cells, cell.Settles sim.output sim.timeline.next sim.timeline.step :=
    fun cell hcell => (hready cell hcell).settles hcalm
  have hcommit := commit_of_settles htiles hsettles
  have hrefusals :
      sim.cells.findSome? (Cell.refusal? sim.output sim.timeline.next sim.timeline.step) =
        records.findSome? fun record => sim.output.refusal? record sim.timeline.step := by
    rw [List.findSome?_map, ← List.head?_filterMap, ← List.head?_filterMap]
    congr 1
    refine List.filterMap_congr fun cell hcell => ?_
    rw [Cell.refusal?, (hready cell hcell).commit_eq_offer]
    rfl
  simp only [finishStep, hcommit, hrefusals]
  constructor
  · rw [List.flatMap_map]
    refine List.flatMap_congr fun cell hcell => ?_
    rw [(hready cell hcell).commit_eq_offer]
  · cases records.findSome? fun record => sim.output.refusal? record sim.timeline.step <;> rfl

variable [UpdateRule ρ] {plan : Plan} {sim : Simulation ρ τ}

theorem records_computed (sim : Simulation ρ τ) (hfits : plan.Fits sim.cells)
    (hschedule : plan.schedule = .ok sim.schedule) (hcompute : sim.compute.result = .ok ())
    (time : Float) :
    sim.computed.cells.map (Cell.record time) = plan.records time sim.newStates := by
  have hstates := length_newStates hfits hschedule
  have hrecords : (plan.records time sim.newStates).length = sim.cells.length := by
    rw [Plan.records, List.length_zipWith, hstates, hfits.count, Plan.size, Nat.min_self]
  refine List.ext_getElem? fun i => ?_
  rw [List.getElem?_map]
  by_cases hi : i < sim.cells.length
  · obtain ⟨state, after, p, hstate, hafter, hp, hpending, -⟩ :=
      pending_of_success sim hfits hschedule hcompute (List.getElem?_eq_getElem hi)
    have hname := (Plan.Fits.computeAll hfits).cell i after p hafter hp
    rw [hafter, Plan.getElem?_records time hp hstate, Option.map_some, Cell.record, hpending, hname.name]
    rfl
  · have hnone : sim.computed.cells[i]? = none :=
      List.getElem?_eq_none (length_computed sim ▸ Nat.le_of_not_lt hi)
    rw [hnone, List.getElem?_eq_none (hrecords ▸ Nat.le_of_not_lt hi)]
    rfl

variable [Pace τ]

theorem mem_commitments_iff {c : Commitment} :
    c ∈ sim.commitments ↔ ∃ pace, Pace.next sim.timeline.beginStep sim.pace = (.ok c.increment, pace) ∧
      (sim.begun c.increment pace).compute.result = .ok () ∧
      c.states = (sim.begun c.increment pace).newStates := by
  unfold commitments
  split
  next hpace => simp [hpace]
  next increment pace hpace =>
    constructor
    · intro h
      split at h
      next => cases h
      next hcompute =>
        obtain rfl := List.mem_singleton.1 h
        exact ⟨pace, hpace, hcompute, rfl⟩
    · rintro ⟨pace', hpace', hcompute, hstates⟩
      obtain ⟨hincrement, rfl⟩ := Prod.mk.inj (hpace.symm.trans hpace')
      obtain rfl := Except.ok.inj hincrement
      rw [hcompute, ← hstates]
      exact List.mem_singleton_self _

theorem commitments_cases (sim : Simulation ρ τ) :
    sim.commitments = [] ∨ ∃ c, sim.commitments = [c] := by
  unfold commitments
  split
  · exact Or.inl rfl
  · split
    · exact Or.inl rfl
    · exact Or.inr ⟨_, rfl⟩

theorem step_next_of_calm (sim : Simulation ρ τ) (hfits : plan.Fits sim.cells)
    (hschedule : plan.schedule = .ok sim.schedule) (hcalm : sim.output.Calm) {increment : Float} {pace : τ}
    (hpace : Pace.next sim.timeline.beginStep sim.pace = (.ok increment, pace))
    (hcompute : (sim.begun increment pace).compute.result = .ok ()) :
    let begun := sim.begun increment pace
    sim.step.next = { begun with
      cells := begun.computed.cells.map fun cell => cell.recorded (cell.partition.pending.getD [])
      timeline := begun.timeline.push begun.timeline.next } := by
  intro begun
  have hready := ready_of_success begun hfits hschedule hcompute
  have hcells := step_cells_of_success hfits hschedule hpace hcompute fun cell hcell crash hcrash => by
    obtain ⟨fault, hfault, -⟩ := (hready cell hcell).settles hcalm _ hcrash
    cases hfault
  rw [← hcells, step_of_success hpace hcompute]
  dsimp only
  rw [finishStep_next, commit_eq]
  rfl

/-- What a step does with the states that it commits. -/
structure Delivers (plan : Plan) (sim : Simulation ρ τ) (c : Commitment) : Prop where
  count : c.states.length = plan.size
  time : sim.step.next.timeline.current = sim.timeline.current + c.increment
  number : sim.step.next.timeline.step = Word.wrap (sim.timeline.step + 1)
  windows : ∀ (i : Nat) window, sim.windows[i]? = some window → ∃ after,
    window.push (c.states.getD i []) = .ok after ∧ sim.step.next.windows[i]? = some after
  deliveries : sim.deliveries =
    (plan.records sim.step.next.timeline.current c.states).flatMap fun record =>
      (sim.output.offer record sim.step.next.timeline.step).2
  result : sim.step.result =
    match (plan.records sim.step.next.timeline.current c.states).findSome? fun record =>
      sim.output.refusal? record sim.step.next.timeline.step with
    | some fault => .error (.fault fault)
    | none => .ok ⟨sim.step.next.timeline.step, sim.step.next.timeline.current⟩

theorem delivers_of_mem_commitments (sim : Simulation ρ τ) (hfits : plan.Fits sim.cells)
    (hschedule : plan.schedule = .ok sim.schedule) (hcalm : sim.output.Calm) {c : Commitment}
    (h : c ∈ sim.commitments) : sim.Delivers plan c := by
  obtain ⟨pace, hpace, hcompute, hstates⟩ := mem_commitments_iff.1 h
  let begun := sim.begun c.increment pace
  have hbegun : plan.Fits begun.cells := hfits
  have hready := ready_of_success begun hfits hschedule hcompute
  have hstep := step_of_success hpace hcompute
  have hnext := step_next_of_calm sim hfits hschedule hcalm hpace hcompute
  have htimeline : sim.step.next.timeline = begun.timeline.push begun.timeline.next :=
    congrArg Simulation.timeline hnext
  obtain ⟨hemitted, hresult⟩ := finishStep_of_ready (tiles_computed begun hfits hschedule) hready hcalm
  have hrecords : begun.computed.cells.map (Cell.record begun.timeline.next) =
      plan.records begun.timeline.next c.states :=
    hstates ▸ records_computed begun hfits hschedule hcompute _
  refine ⟨?_, ?_, ?_, fun i window hwindow => ?_, ?_, ?_⟩
  · exact hstates ▸ length_newStates hbegun hschedule
  · rw [htimeline]
    rfl
  · rw [htimeline]
    rfl
  · obtain ⟨cell, hcell, rfl⟩ := Option.map_eq_some_iff.1 (List.getElem?_map ▸ hwindow)
    obtain ⟨state, after, p, hstate, hafter, -, hpending, hsame, hshaped, hwidth, -⟩ :=
      pending_of_success begun hfits hschedule hcompute hcell
    have hget : c.states.getD i [] = state := by
      rw [hstates, List.getD_eq_getElem?_getD, hstate]
      rfl
    refine ⟨_, hget ▸ hshaped.push_eq hwidth, ?_⟩
    rw [hnext, Simulation.windows, List.getElem?_map, List.getElem?_map, hafter, Option.map_some,
      Option.map_some, hget, hpending, Cell.recorded, hsame]
    rfl
  · rw [deliveries, htimeline, hstep]
    dsimp only
    rw [filterMap_delivered]
    exact hrecords ▸ hemitted
  · rw [htimeline, hstep]
    exact hrecords ▸ hresult

end Simulation

end Tandem
