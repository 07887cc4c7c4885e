import Tandem.Proofs.Deliveries.Offers

/-!
# What outputs are asked to deliver

Calls of an output are made visible by an output that notes each of them and answers as before. For every
partition the calls of a session are its initial state and then the states that steps commit, as far as
they are wanted, in their order and each once. Of several deliveries that are refused in one step the one
of the lowest index is reported.
-/

namespace Tandem

variable {ρ τ : Type}

namespace Plan

variable {plan : Plan} {states : List State} {time : Float} {i : Nat} {p : PartitionPlan}

theorem series_records (time : Float) (hcount : states.length = plan.size) :
    (plan.records time states).map (·.series) = plan.names := by
  rw [records, List.map_zipWith]
  refine List.ext_getElem? fun i => ?_
  rw [List.getElem?_zipWith, names, List.getElem?_map]
  by_cases hi : i < plan.partitions.length
  · rw [List.getElem?_eq_getElem hi, List.getElem?_eq_getElem (hcount.symm ▸ hi)]
    rfl
  · rw [List.getElem?_eq_none (Nat.le_of_not_lt hi)]
    rfl

theorem nodup_names_of_schedule {schedule : Schedule} (h : plan.schedule = .ok schedule) :
    plan.names.Nodup :=
  (checkPartitions_eq_ok_iff.1 (schedule_parts h).1).1

theorem filter_key_eq {α β : Type} [DecidableEq β] (key : α → β) {xs : List α} {x : α}
    (hnodup : (xs.map key).Nodup) (hx : x ∈ xs) : xs.filter (fun y => key y = key x) = [x] := by
  induction xs with
  | nil => cases hx
  | cons y rest ih =>
      obtain ⟨hfresh, hrest⟩ := List.nodup_cons.1 (List.map_cons ▸ hnodup)
      rcases List.mem_cons.1 hx with rfl | hx
      · have hnone : ∀ z ∈ rest, ¬ decide (key z = key x) = true := fun z hz hsame =>
          hfresh (List.mem_map.2 ⟨z, hz, of_decide_eq_true hsame⟩)
        rw [List.filter_cons, if_pos (decide_eq_true rfl), List.filter_eq_nil_iff.2 hnone]
      · have hne : ¬ decide (key y = key x) = true := fun hsame =>
          hfresh (List.mem_map.2 ⟨x, hx, (of_decide_eq_true hsame).symm⟩)
        rw [List.filter_cons, if_neg hne, ih hrest hx]

theorem series_mem_of_wanted (hcount : states.length = plan.size) {output : Output} {step : Nat}
    {record : Record} (h : record ∈ (plan.records time states).flatMap fun r => output.wanted r step) :
    record.series ∈ plan.names := by
  obtain ⟨r, hr, hmem⟩ := List.mem_flatMap.1 h
  have hsame : record = r := by
    unfold Output.wanted at hmem
    split at hmem <;> simp at hmem
    exact hmem
  rw [← series_records time hcount, hsame]
  exact List.mem_map_of_mem hr

theorem filter_wanted_records (hnodup : plan.names.Nodup) (hcount : states.length = plan.size)
    (hp : plan.partitions[i]? = some p) (output : Output) (step : Nat) :
    ((plan.records time states).flatMap fun r => output.wanted r step).filter
        (fun r => r.series = p.name) =
      output.wanted ⟨p.name, time, states.getD i []⟩ step := by
  have hi : i < states.length := hcount.symm ▸ (List.getElem?_eq_some_iff.1 hp).1
  have hget : states[i]? = some (states.getD i []) := by
    rw [List.getD_eq_getElem?_getD, List.getElem?_eq_getElem hi]
    rfl
  have hmem : (⟨p.name, time, states.getD i []⟩ : Record) ∈ plan.records time states :=
    List.mem_of_getElem? (getElem?_records time hp hget)
  have hone := filter_key_eq Record.series ((series_records time hcount).symm ▸ hnodup) hmem
  calc ((plan.records time states).flatMap fun r => output.wanted r step).filter
        (fun r => r.series = p.name)
      = (plan.records time states).flatMap fun r =>
          if r.series = p.name then output.wanted r step else [] := by
        simp only [List.filter_flatMap, Output.filter_wanted]
    _ = ((plan.records time states).filter fun r => r.series = p.name).flatMap fun r =>
          output.wanted r step := by
        induction plan.records time states with
        | nil => rfl
        | cons r rest ih =>
            by_cases hsame : r.series = p.name <;> simp [hsame, ih]
    _ = output.wanted ⟨p.name, time, states.getD i []⟩ step := by
        rw [hone, List.flatMap_singleton]

end Plan

namespace Simulation

variable {plan : Plan} {behaviour : Behaviour ρ τ} {sim : Simulation ρ τ} {events : List Event}

/-- The records that a start asks its output to deliver, in order. -/
def startCalls (plan : Plan) (behaviour : Behaviour ρ τ) : List Record :=
  let noted := start plan { behaviour with output := behaviour.output.noting }
  (noted.2.filterMap Event.delivered?).map (·.record)

/-- The records that the next step asks the output to deliver, in order. -/
def calls [UpdateRule ρ] [Pace τ] (sim : Simulation ρ τ) : List Record :=
  (sim.withOutput sim.output.noting).deliveries.map (·.record)

theorem flatMap_noting (output : Output) (records : List Record) (step : Nat) :
    (records.flatMap fun r => (output.noting.offer r step).2).map (·.record) =
      records.flatMap fun r => output.wanted r step := by
  simp [List.map_flatMap, Output.offer_noting, Function.comp_def]

theorem flatMap_offer (output : Output) (records : List Record) (step : Nat) :
    (records.flatMap fun r => (output.offer r step).2) =
      (records.flatMap fun r => output.wanted r step).flatMap fun r => (output.deliver r).2 := by
  simp only [Output.offer_emitted, List.flatMap_assoc]

theorem startCalls_eq (h : start plan behaviour = (.ok sim, events)) :
    startCalls plan behaviour =
        plan.initialRecords.flatMap (fun r => behaviour.output.wanted r 0) ∧
      events.filterMap Event.delivered? =
        (startCalls plan behaviour).flatMap fun r => (behaviour.output.deliver r).2 := by
  obtain ⟨notes, hnotes⟩ := start_noting h
  have hcalls : startCalls plan behaviour =
      plan.initialRecords.flatMap fun r => behaviour.output.wanted r 0 := by
    rw [startCalls, hnotes]
    dsimp only
    rw [start_emitted hnotes]
    exact flatMap_noting _ _ _
  exact ⟨hcalls, by rw [start_emitted h, flatMap_offer, hcalls]⟩

variable [UpdateRule ρ] [Pace τ]

theorem commitments_withOutput (sim : Simulation ρ τ) (output : Output) :
    (sim.withOutput output).commitments = sim.commitments := by
  have hcompute : ∀ increment pace, ((sim.withOutput output).begun increment pace).compute.result =
    (sim.begun increment pace).compute.result := fun increment pace =>
      compute_result_withOutput (sim.begun increment pace) output
  have hpace : Pace.next (sim.withOutput output).timeline.beginStep (sim.withOutput output).pace =
    Pace.next sim.timeline.beginStep sim.pace := rfl
  simp only [commitments, hcompute, hpace]
  rfl

theorem refusal?_noting (output : Output) (record : Record) (step : Nat) :
    output.noting.refusal? record step = output.refusal? record step := by
  rw [Output.refusal?, Output.offer_noting]
  rfl

/-- A step replies the same and leaves the same whether its deliveries are noted or not. -/
theorem step_noting (hfits : plan.Fits sim.cells) (hschedule : plan.schedule = .ok sim.schedule)
    (hcalm : sim.output.Calm) :
    (sim.withOutput sim.output.noting).step.result = sim.step.result ∧
      (sim.withOutput sim.output.noting).step.next = sim.step.next.withOutput sim.output.noting := by
  let noted := sim.withOutput sim.output.noting
  have hcompute : ∀ increment pace, (noted.begun increment pace).compute.result =
    (sim.begun increment pace).compute.result := fun increment pace =>
      compute_result_withOutput (sim.begun increment pace) _
  have hway := sim.way_step
  generalize hreply : sim.step = reply at hway ⊢
  cases hway with
  | refused hpace =>
      have hpace' : Pace.next noted.timeline.beginStep noted.pace = _ := hpace
      rw [step_of_refusal hpace']
      exact ⟨rfl, rfl⟩
  | crashed hpace =>
      have hpace' : Pace.next noted.timeline.beginStep noted.pace = _ := hpace
      rw [step_of_crash hpace']
      exact ⟨rfl, rfl⟩
  | failed hpace hfailed =>
      have hpace' : Pace.next noted.timeline.beginStep noted.pace = _ := hpace
      rw [step_of_failure hpace' ((hcompute _ _).trans hfailed)]
      exact ⟨rfl, rfl⟩
  | @finished increment pace hpace hok =>
      have hok' := (hcompute increment pace).trans hok
      have hnext := step_next_of_calm sim hfits hschedule hcalm hpace hok
      have hnext' := step_next_of_calm noted hfits hschedule hcalm.noting hpace hok'
      have hmem : ⟨(sim.begun increment pace).newStates, increment⟩ ∈ sim.commitments :=
        mem_commitments_iff.2 ⟨pace, hpace, hok, rfl⟩
      have hresult := (delivers_of_mem_commitments sim hfits hschedule hcalm hmem).result
      have hresult' := (delivers_of_mem_commitments noted hfits hschedule hcalm.noting
        ((sim.commitments_withOutput _).symm ▸ hmem)).result
      have htimeline : noted.step.next.timeline = sim.step.next.timeline := by
        rw [hnext, hnext']
        rfl
      rw [← hreply]
      refine ⟨?_, ?_⟩
      · rw [hresult, hresult', htimeline]
        simp only [noted, withOutput, refusal?_noting]
      · rw [hnext, hnext']
        rfl

theorem step_of_no_commitments (h : sim.commitments = []) :
    sim.deliveries = [] ∧ sim.step.next.windows = sim.windows ∧
      sim.step.next.timeline.times = sim.timeline.times := by
  have hway := sim.way_step
  unfold deliveries
  generalize sim.step = reply at hway ⊢
  cases hway with
  | refused => exact ⟨rfl, rfl, rfl⟩
  | crashed => exact ⟨rfl, rfl, rfl⟩
  | @failed increment pace =>
      refine ⟨filterMap_nested _, ?_, rfl⟩
      exact windows_discarded sim increment pace
  | finished hpace hcompute => simp [commitments, hpace, hcompute] at h

theorem calls_of_no_commitments (h : sim.commitments = []) : sim.calls = [] := by
  have hnoted : (sim.withOutput sim.output.noting).commitments = [] :=
    (sim.commitments_withOutput _).trans h
  rw [calls, (step_of_no_commitments hnoted).1]
  rfl

theorem calls_eq (hfits : plan.Fits sim.cells) (hschedule : plan.schedule = .ok sim.schedule)
    (hcalm : sim.output.Calm) {c : Commitment} (h : c ∈ sim.commitments) :
    sim.calls = (plan.records sim.step.next.timeline.current c.states).flatMap fun r =>
      sim.output.wanted r sim.step.next.timeline.step := by
  have hnext := (step_noting hfits hschedule hcalm).2
  have hdelivers := delivers_of_mem_commitments (sim.withOutput sim.output.noting) hfits hschedule
    hcalm.noting ((sim.commitments_withOutput _).symm ▸ h)
  rw [calls, hdelivers.deliveries, hnext]
  exact flatMap_noting _ _ _

theorem deliveries_eq (hfits : plan.Fits sim.cells) (hschedule : plan.schedule = .ok sim.schedule)
    (hcalm : sim.output.Calm) : sim.deliveries = sim.calls.flatMap fun r => (sim.output.deliver r).2 := by
  rcases sim.commitments_cases with hnone | ⟨c, hone⟩
  · rw [calls_of_no_commitments hnone, (step_of_no_commitments hnone).1]
    rfl
  · have hmem : c ∈ sim.commitments := hone ▸ List.mem_singleton_self c
    rw [calls_eq hfits hschedule hcalm hmem, ← flatMap_offer]
    exact (delivers_of_mem_commitments sim hfits hschedule hcalm hmem).deliveries

theorem filter_calls (hfits : plan.Fits sim.cells) (hschedule : plan.schedule = .ok sim.schedule)
    (hcalm : sim.output.Calm) {i : Nat} {p : PartitionPlan} (hp : plan.partitions[i]? = some p) :
    sim.calls.filter (fun r => r.series = p.name) = sim.commitments.flatMap fun c =>
      sim.output.wanted ⟨p.name, sim.step.next.timeline.current, c.states.getD i []⟩
        sim.step.next.timeline.step := by
  rcases sim.commitments_cases with hnone | ⟨c, hone⟩
  · rw [calls_of_no_commitments hnone, hnone]
    rfl
  · have hmem : c ∈ sim.commitments := hone ▸ List.mem_singleton_self c
    have hcount := (delivers_of_mem_commitments sim hfits hschedule hcalm hmem).count
    rw [calls_eq hfits hschedule hcalm hmem, hone, Plan.filter_wanted_records
      (Plan.nodup_names_of_schedule hschedule) hcount hp, List.flatMap_singleton]

theorem series_mem_calls (hfits : plan.Fits sim.cells) (hschedule : plan.schedule = .ok sim.schedule)
    (hcalm : sim.output.Calm) {record : Record} (h : record ∈ sim.calls) : record.series ∈ plan.names := by
  rcases sim.commitments_cases with hnone | ⟨c, hone⟩
  · rw [calls_of_no_commitments hnone] at h
    cases h
  · have hmem : c ∈ sim.commitments := hone ▸ List.mem_singleton_self c
    have hcount := (delivers_of_mem_commitments sim hfits hschedule hcalm hmem).count
    rw [calls_eq hfits hschedule hcalm hmem] at h
    exact Plan.series_mem_of_wanted hcount h

/-! ## A whole session -/

theorem findSome?_eq_of_first {α β : Type} {f : α → Option β} {xs : List α} {i : Nat} {x : α} {y : β}
    (hx : xs[i]? = some x) (hy : f x = some y) (hbefore : ∀ j < i, ∀ z, xs[j]? = some z → f z = none) :
    xs.findSome? f = some y := by
  induction xs generalizing i with
  | nil => cases hx
  | cons z rest ih =>
      cases i with
      | zero =>
          obtain rfl := Option.some.inj hx
          rw [List.findSome?_cons, hy]
      | succ i =>
          have hz : f z = none := hbefore 0 (Nat.succ_pos i) z rfl
          rw [List.findSome?_cons, hz]
          exact ih hx fun j hj => hbefore (j + 1) (Nat.succ_lt_succ hj)

theorem Delivers.result_of_refusals {c : Commitment} (h : sim.Delivers plan c) :
    let number := sim.step.next.timeline.step
    let time := sim.step.next.timeline.current
    let refuses (i : Nat) (fault : Fault) := ∃ p, plan.partitions[i]? = some p ∧
      sim.output.Refuses ⟨p.name, time, c.states.getD i []⟩ number fault
    (∀ (i : Nat) p fault, plan.partitions[i]? = some p → refuses i fault →
      (∀ j < i, ∀ other, ¬ refuses j other) →
      sim.step.result = .error (.fault (.outputFailed p.name time fault.message))) ∧
    ((∀ i fault, ¬ refuses i fault) → sim.step.result = .ok ⟨number, time⟩) := by
  intro number time refuses
  have hrecord : ∀ (i : Nat) p, plan.partitions[i]? = some p →
      (plan.records time c.states)[i]? = some ⟨p.name, time, c.states.getD i []⟩ := by
    intro i p hp
    have hi : i < c.states.length := h.count.symm ▸ (List.getElem?_eq_some_iff.1 hp).1
    refine Plan.getElem?_records time hp ?_
    rw [List.getD_eq_getElem?_getD, List.getElem?_eq_getElem hi]
    rfl
  have hnone : ∀ (j : Nat) r, (plan.records time c.states)[j]? = some r → (∀ other, ¬ refuses j other) →
      sim.output.refusal? r number = none := by
    intro j r hr hnot
    obtain ⟨p, -, hp, -, -⟩ := List.getElem?_zipWith_eq_some.1 hr
    obtain rfl := Option.some.inj ((hrecord j p hp).symm.trans hr)
    refine Option.eq_none_iff_forall_ne_some.2 fun found hfound => ?_
    obtain ⟨fault, hrefuses, -⟩ := Output.refusal?_eq_some_iff.1 hfound
    exact hnot fault ⟨p, hp, hrefuses⟩
  constructor
  · rintro i p fault hp ⟨q, hq, hrefuses⟩ hbefore
    obtain rfl := Option.some.inj (hp.symm.trans hq)
    have hfirst := findSome?_eq_of_first (f := fun r => sim.output.refusal? r number) (hrecord i p hp)
      (Output.refusal?_eq_some_iff.2 ⟨fault, hrefuses, rfl⟩)
      fun j hj r hr => hnone j r hr (hbefore j hj)
    rw [h.result, hfirst]
  · intro hnot
    have hall : (plan.records time c.states).findSome?
        (fun r => sim.output.refusal? r number) = none := by
      refine List.findSome?_eq_none_iff.2 fun r hr => ?_
      obtain ⟨j, hj⟩ := List.mem_iff_getElem?.1 hr
      exact hnone j r hj (hnot j)
    rw [h.result, hall]

/-- A simulation makes steps after its start, each with an output of its own that may refuse but does not
crash. For each partition the outputs are asked to deliver its initial state and its committed states, in
their order and as far as they are wanted. -/
theorem wanted_states_are_delivered_once (hstart : start plan behaviour = (.ok sim, events))
    (outputs : Nat → Output) (hcalm : ∀ k, (outputs k).Calm) :
    let before k := (sim.afterWith outputs k).withOutput (outputs k)
    let after k := sim.afterWith outputs (k + 1)
    let calls n := startCalls plan behaviour ++ (List.range n).flatMap fun k => (before k).calls
    (∃ notes, start plan { behaviour with output := behaviour.output.noting } =
      (.ok (sim.withOutput behaviour.output.noting), notes)) ∧
    events.filterMap Event.delivered? =
      (startCalls plan behaviour).flatMap (fun r => (behaviour.output.deliver r).2) ∧
    (∀ k, ((before k).withOutput (outputs k).noting).step.result = (before k).step.result ∧
      ((before k).withOutput (outputs k).noting).step.next = (after k).withOutput (outputs k).noting ∧
      (before k).deliveries = (before k).calls.flatMap fun r => ((outputs k).deliver r).2) ∧
    (∀ n r, r ∈ calls n → r.series ∈ plan.names) ∧
    (∀ n (i : Nat) p, plan.partitions[i]? = some p → (calls n).filter (fun r => r.series = p.name) =
      behaviour.output.wanted ⟨p.name, plan.startTime, p.initial⟩ 0 ++
        (List.range n).flatMap fun k => (before k).commitments.flatMap fun c =>
          (outputs k).wanted ⟨p.name, (after k).timeline.current, c.states.getD i []⟩
            (after k).timeline.step) ∧
    ∀ k, ((before k).commitments = [] ∧ (after k).windows = (before k).windows ∧
        (after k).timeline.times = (before k).timeline.times) ∨
      ∃ c, (before k).commitments = [c] ∧
        (after k).timeline.current = (before k).timeline.current + c.increment ∧
        (after k).timeline.step = Word.wrap ((before k).timeline.step + 1) ∧
        (∀ (i : Nat) p, plan.partitions[i]? = some p → ∃ window next, (before k).windows[i]? = some window ∧
          window.push (c.states.getD i []) = .ok next ∧ (after k).windows[i]? = some next) ∧
        let refuses (i : Nat) (fault : Fault) := ∃ p, plan.partitions[i]? = some p ∧
          (outputs k).Refuses ⟨p.name, (after k).timeline.current, c.states.getD i []⟩
            (after k).timeline.step fault
        (∀ (i : Nat) p fault, plan.partitions[i]? = some p → refuses i fault →
          (∀ j < i, ∀ other, ¬ refuses j other) → (before k).step.result =
            .error (.fault (.outputFailed p.name (after k).timeline.current fault.message))) ∧
        ((∀ i fault, ¬ refuses i fault) → (before k).step.result =
          .ok ⟨(after k).timeline.step, (after k).timeline.current⟩) := by
  intro before after calls
  have hfits : ∀ k, plan.Fits (before k).cells ∧ plan.schedule = .ok (before k).schedule := fun k =>
    (attainable_afterWith (.start hstart) outputs k).fits
  have hschedule := (start_eq_ok hstart).1
  obtain ⟨hcalls, hevents⟩ := startCalls_eq hstart
  have hcount : (plan.partitions.map (·.initial)).length = plan.size := List.length_map _
  refine ⟨start_noting hstart, hevents, fun k => ?_, fun n r hr => ?_, fun n i p hp => ?_, fun k => ?_⟩
  · obtain ⟨hresult, hnext⟩ := step_noting (hfits k).1 (hfits k).2 (hcalm k)
    exact ⟨hresult, hnext, deliveries_eq (hfits k).1 (hfits k).2 (hcalm k)⟩
  · rcases List.mem_append.1 hr with hr | hr
    · rw [hcalls] at hr
      exact Plan.series_mem_of_wanted hcount hr
    · obtain ⟨k, -, hr⟩ := List.mem_flatMap.1 hr
      exact series_mem_calls (hfits k).1 (hfits k).2 (hcalm k) hr
  · have hinitial : (plan.partitions.map (·.initial)).getD i [] = p.initial := by
      rw [List.getD_eq_getElem?_getD, List.getElem?_map, hp]
      rfl
    rw [List.filter_append, List.filter_flatMap, hcalls, Plan.initialRecords,
      Plan.filter_wanted_records (Plan.nodup_names_of_schedule hschedule) hcount hp, hinitial]
    congr 1
    exact List.flatMap_congr fun k _ => filter_calls (hfits k).1 (hfits k).2 (hcalm k) hp
  · rcases (before k).commitments_cases with hnone | ⟨c, hone⟩
    · obtain ⟨-, hwindows, htimes⟩ := step_of_no_commitments hnone
      exact Or.inl ⟨hnone, hwindows, htimes⟩
    · have hdelivers := delivers_of_mem_commitments (before k) (hfits k).1 (hfits k).2 (hcalm k)
        (hone ▸ List.mem_singleton_self c)
      refine Or.inr ⟨c, hone, hdelivers.time, hdelivers.number, fun i p hp => ?_,
        hdelivers.result_of_refusals⟩
      have hi : i < (before k).cells.length :=
        (hfits k).1.count.symm ▸ (List.getElem?_eq_some_iff.1 hp).1
      have hwindow : (before k).windows[i]? = some (before k).cells[i].window := by
        rw [Simulation.windows, List.getElem?_map, List.getElem?_eq_getElem hi]
        rfl
      obtain ⟨next, hpush, hnext⟩ := hdelivers.windows i _ hwindow
      exact ⟨_, next, hwindow, hpush, hnext⟩

/-- Two partitions in one group, which hold their states. -/
def duoPlan : Plan where
  partitions := [⟨"left", .empty, ∅, [1], 0, 1, 2⟩, ⟨"right", .empty, ∅, [2], 0, 1, 2⟩]
  startTime := 0
  timelineDepth := 2
  groups := [[0, 1]]

/-- The output wants all states but the initial ones, and refuses those of the first partition. -/
def duoBehaviour : Behaviour StockRule StockPace where
  rules := [.hold, .hold]
  output := {
    due := fun _ step => .ok (decide (0 < step))
    deliver := fun record =>
      if record.series = "left" then (.error (.fault .noRunSpec), []) else (.ok (), [⟨"log", record⟩]) }
  stop := .steps 1
  pace := .constant 1

def duoSimulation : Simulation StockRule StockPace where
  cells := [
    ⟨⟨.hold, ⟨∅, "left"⟩, "left", 0, ∅, none⟩, ⟨[1, 0], 1, 2⟩⟩,
    ⟨⟨.hold, ⟨∅, "right"⟩, "right", 1, ∅, none⟩, ⟨[2, 0], 1, 2⟩⟩]
  schedule := ⟨[⟨0, 2⟩], [0, 1]⟩
  timeline := ⟨0, [0], 0, 0⟩
  output := duoBehaviour.output
  stop := .steps 1
  pace := .constant 1

theorem duoSimulation_delivers_beside_refusal :
    start duoPlan duoBehaviour = (.ok duoSimulation, []) ∧ duoBehaviour.output.Calm ∧
      duoSimulation.step.result =
        .error (.fault (.outputFailed "left" (0 + 1) Fault.noRunSpec.message)) ∧
      duoSimulation.calls.filter (fun r => r.series = "right") = [⟨"right", 0 + 1, [2]⟩] ∧
      duoSimulation.step.next.windows[1]? = some ⟨[2, 2], 1, 2⟩ := by
  have hstart : start duoPlan duoBehaviour = (.ok duoSimulation, []) := rfl
  have hcalm : duoBehaviour.output.Calm := by
    intro record step crash
    unfold Output.offer duoBehaviour
    by_cases hstep : 0 < step <;> by_cases hleft : record.series = "left" <;> simp [hstep, hleft]
  obtain ⟨-, -, -, -, hcalls, hsteps⟩ :=
    wanted_states_are_delivered_once hstart (fun _ => duoBehaviour.output) fun _ => hcalm
  have hright := hcalls 1 1 _ rfl
  rcases hsteps 0 with ⟨hnone, -⟩ | ⟨c, hone, -, -, hwindows, hrefused, -⟩
  · cases hnone
  · obtain rfl : ⟨[[1], [2]], 1⟩ = c := List.singleton_inj.1 hone
    obtain ⟨window, next, hwindow, hpush, hnext⟩ := hwindows 1 _ rfl
    obtain rfl := Option.some.inj hwindow
    obtain rfl := Except.ok.inj hpush
    refine ⟨hstart, hcalm, ?_, hright, hnext⟩
    exact hrefused 0 _ .noRunSpec rfl ⟨_, rfl, rfl, rfl⟩ fun j hj => absurd hj (Nat.not_lt_zero j)

end Simulation

end Tandem
