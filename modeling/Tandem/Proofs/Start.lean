import Tandem.Proofs.Grouping
import Tandem.Proofs.Plan.Runnable

/-!
# When a simulation starts

A runnable plan with a rule for each partition makes a simulation, unless there is no room for its windows
and times or its output turns down an initial state. Only the last can be put down to a fault: for want of
room a start crashes.
-/

namespace Tandem

variable {ρ τ : Type}

def Output.Accepts (output : Output) (plan : Plan) : Prop :=
  ∀ p ∈ plan.partitions, (output.offer ⟨p.name, plan.startTime, p.initial⟩ 0).1 = .ok ()

/-! ## Room -/

/-- A window of a runnable plan can be built, or there is no room for it. -/
theorem Window.exists_new_or_crash {width depth : Nat} {initial : State} (hdepth : depth ≠ 0)
    (hwidth : initial.length = width) :
    (∃ window, Window.new width depth initial = .ok window) ∨
      ∃ crash, Window.new width depth initial = .error (.crash crash) := by
  simp only [Window.new, if_neg hdepth, ne_eq, hwidth, not_true_eq_false, if_false]
  split
  · exact Or.inr ⟨_, rfl⟩
  · split
    · exact Or.inr ⟨_, rfl⟩
    · exact Or.inl ⟨_, rfl⟩

theorem Timeline.exists_new_or_crash {depth : Nat} (hdepth : depth ≠ 0) (start : Float) :
    (∃ timeline, Timeline.new depth start = .ok timeline) ∨
      ∃ crash, Timeline.new depth start = .error (.crash crash) := by
  simp only [Timeline.new, if_neg hdepth]
  split
  · exact Or.inr ⟨_, rfl⟩
  · exact Or.inl ⟨_, rfl⟩

/-- All windows of the plan and all its times fit into memory. -/
structure Plan.HasRoom (plan : Plan) : Prop where
  windows : ∀ p ∈ plan.partitions, p.width * p.depth < Word.room
  timeline : plan.timelineDepth < Word.room

theorem Window.exists_new_of_room {width depth : Nat} {initial : State} (hdepth : depth ≠ 0)
    (hwidth : initial.length = width) (hroom : width * depth < Word.room) :
    ∃ window, Window.new width depth initial = .ok window := by
  have hword : Word.room < Word.count := by decide
  have hwrap : Word.wrap (width * depth) = width * depth := Word.wrap_of_lt (Nat.lt_trans hroom hword)
  have hle : width ≤ width * depth := Nat.le_mul_of_pos_right width (Nat.pos_of_ne_zero hdepth)
  simp only [Window.new, if_neg hdepth, hwidth, ne_eq, not_true_eq_false, if_false, hwrap,
    if_neg (Nat.not_le_of_lt hroom), if_neg (Nat.not_lt_of_le hle)]
  exact ⟨_, rfl⟩

namespace Simulation

variable {plan : Plan} {behaviour : Behaviour ρ τ}

theorem exists_prepare_iff :
    (∃ parts, prepare plan behaviour = .ok parts) ↔
      (∃ schedule, plan.schedule = .ok schedule) ∧ behaviour.rules.length = plan.size ∧
        (∀ p ∈ plan.partitions, ∃ window, Window.new p.width p.depth p.initial = .ok window) ∧
        ∃ timeline, Timeline.new plan.timelineDepth plan.startTime = .ok timeline := by
  constructor
  · rintro ⟨⟨schedule, windows, timeline⟩, h⟩
    obtain ⟨hschedule, hcount, hwindows, htimeline⟩ := prepare_eq_ok h
    refine ⟨⟨schedule, hschedule⟩, hcount, fun p hp => ?_, timeline, htimeline⟩
    obtain ⟨i, hi⟩ := List.mem_iff_getElem?.1 hp
    obtain ⟨window, -, hwindow⟩ := exists_of_forall₂ hwindows hi
    exact ⟨window, hwindow⟩
  · rintro ⟨⟨schedule, hschedule⟩, hcount, hnew, timeline, htimeline⟩
    obtain ⟨windows, hwindows⟩ := exists_mapM_ok hnew
    refine ⟨(schedule, windows, timeline), ?_⟩
    simp only [prepare, hschedule, hcount, hwindows, htimeline, ne_eq, not_true_eq_false, if_false, bind,
      Except.bind, liftM, monadLift, MonadLift.monadLift, Except.mapError, pure, Except.pure]

theorem exists_beginCells_iff {output : Output} {time : Float} {index : Nat}
    {parts : List (ρ × PartitionPlan × Window)} :
    (∃ cells, (beginCells output time index parts).1 = .ok cells) ↔
      ∀ part ∈ parts, (output.offer ⟨part.2.1.name, time, part.2.1.initial⟩ 0).1 = .ok () := by
  induction parts generalizing index with
  | nil => simp [beginCells]
  | cons part rest ih =>
      obtain ⟨rule, p, window⟩ := part
      have hbegin : ((makePartition index p rule).begin output p.initial time).result =
        (output.offer ⟨p.name, time, p.initial⟩ 0).1 := rfl
      rw [List.forall_mem_cons, ← @ih (index + 1), beginCells]
      simp only [hbegin]
      cases (output.offer ⟨p.name, time, p.initial⟩ 0).1 with
      | error stop => simp
      | ok _ => cases (beginCells output time (index + 1) rest).1 <;> simp [Except.map]

theorem exists_of_beginCells_error {output : Output} {time : Float} {index : Nat}
    {parts : List (ρ × PartitionPlan × Window)} {stop : Stop}
    (h : (beginCells output time index parts).1 = .error stop) :
    ∃ part ∈ parts, (output.offer ⟨part.2.1.name, time, part.2.1.initial⟩ 0).1 = .error stop := by
  induction parts generalizing index with
  | nil => cases h
  | cons part rest ih =>
      obtain ⟨rule, p, window⟩ := part
      unfold beginCells at h
      dsimp only at h
      split at h
      next first hfirst =>
        cases h
        exact ⟨_, List.mem_cons_self, hfirst⟩
      next =>
        cases hrest : (beginCells output time (index + 1) rest).1 with
        | error later =>
            simp only [hrest, Except.map, Except.error.injEq] at h
            obtain ⟨part, hpart, hoffer⟩ := ih (h ▸ hrest)
            exact ⟨part, List.mem_cons_of_mem _ hpart, hoffer⟩
        | ok cells => simp [hrest, Except.map] at h

theorem forall_parts_iff {P : PartitionPlan → Prop} {windows : List Window}
    (hcount : behaviour.rules.length = plan.size) (hwindows : plan.partitions.length = windows.length) :
    (∀ part ∈ behaviour.rules.zip (plan.partitions.zip windows), P part.2.1) ↔
      ∀ p ∈ plan.partitions, P p := by
  have hlength : (plan.partitions.zip windows).length = behaviour.rules.length := by
    rw [List.length_zip, ← hwindows, Nat.min_self, hcount, Plan.size]
  have hsnd : (behaviour.rules.zip (plan.partitions.zip windows)).map (·.2) =
      plan.partitions.zip windows := List.map_snd_zip (Nat.le_of_eq hlength)
  have hfst : (plan.partitions.zip windows).map (·.1) = plan.partitions :=
    List.map_fst_zip (Nat.le_of_eq hwindows)
  conv_rhs => rw [← hfst, ← hsnd, List.forall_mem_map, List.forall_mem_map]

theorem start_of_prepare_error {stop : Stop} (h : prepare plan behaviour = .error stop) :
    start plan behaviour = (.error stop, []) := by
  simp only [start, h]

theorem exists_start_iff :
    (∃ sim, (start plan behaviour).1 = .ok sim) ↔
      (∃ parts, prepare plan behaviour = .ok parts) ∧ behaviour.output.Accepts plan := by
  cases hprepare : prepare plan behaviour with
  | error stop => simp [start_of_prepare_error hprepare]
  | ok parts =>
      obtain ⟨schedule, windows, timeline⟩ := parts
      obtain ⟨-, hcount, hwindows, -⟩ := prepare_eq_ok hprepare
      rw [Output.Accepts, ← forall_parts_iff hcount hwindows.length_eq, ← @exists_beginCells_iff _ _ _ 0]
      simp only [start, hprepare, Except.ok.injEq, exists_eq', true_and]
      cases (beginCells behaviour.output plan.startTime 0
        (behaviour.rules.zip (plan.partitions.zip windows))).1 <;> simp [Except.map]

theorem exists_start_or_turned_down (h : ∃ parts, prepare plan behaviour = .ok parts) :
    (∃ sim, (start plan behaviour).1 = .ok sim) ∨ ∃ p ∈ plan.partitions, ∃ stop,
      (behaviour.output.offer ⟨p.name, plan.startTime, p.initial⟩ 0).1 = .error stop ∧
        (start plan behaviour).1 = .error stop := by
  obtain ⟨⟨schedule, windows, timeline⟩, hprepare⟩ := h
  obtain ⟨-, hcount, hwindows, -⟩ := prepare_eq_ok hprepare
  simp only [start, hprepare]
  cases hbegin : (beginCells behaviour.output plan.startTime 0
      (behaviour.rules.zip (plan.partitions.zip windows))).1 with
  | ok cells => exact Or.inl ⟨_, rfl⟩
  | error stop =>
      obtain ⟨part, hpart, hoffer⟩ := exists_of_beginCells_error hbegin
      exact Or.inr ⟨part.2.1, (List.of_mem_zip (List.of_mem_zip hpart).2).1, stop, hoffer, rfl⟩

/-- Whether a simulation starts depends on the names, shapes and initial states of its partitions, and not
on their order. -/
theorem exists_start_of_alike {σ υ : Type} {other : Plan} {behaviour' : Behaviour σ υ}
    (hcheck : other.check = .ok ()) (hcount : behaviour'.rules.length = other.size)
    (houtput : behaviour.output = behaviour'.output) (htime : plan.startTime = other.startTime)
    (hdepth : plan.timelineDepth = other.timelineDepth)
    (halike : ∀ q ∈ other.partitions, ∃ p ∈ plan.partitions, p.name = q.name ∧ p.initial = q.initial ∧
      p.width = q.width ∧ p.depth = q.depth)
    (h : ∃ sim, (start plan behaviour).1 = .ok sim) : ∃ twin, (start other behaviour').1 = .ok twin := by
  obtain ⟨hprepare, haccepts⟩ := exists_start_iff.1 h
  obtain ⟨-, -, hwindows, htimeline⟩ := exists_prepare_iff.1 hprepare
  refine exists_start_iff.2 ⟨exists_prepare_iff.2 ⟨Plan.exists_schedule_of_check hcheck, hcount,
    fun q hq => ?_, hdepth ▸ htime ▸ htimeline⟩, fun q hq => ?_⟩
  · obtain ⟨p, hp, -, hinitial, hwidth, hdepth⟩ := halike q hq
    rw [← hinitial, ← hwidth, ← hdepth]
    exact hwindows p hp
  · obtain ⟨p, hp, hname, hinitial, -, -⟩ := halike q hq
    rw [← houtput, ← htime, ← hname, ← hinitial]
    exact haccepts p hp

theorem cell_of_start {sim : Simulation ρ τ} {events : List Event}
    (h : start plan behaviour = (.ok sim, events)) {i : Nat} {p : PartitionPlan}
    (hp : plan.partitions[i]? = some p) :
    ∃ cell, sim.cells[i]? = some cell ∧ behaviour.rules[i]? = some cell.partition.rule ∧
      Window.new p.width p.depth p.initial = .ok cell.window := by
  obtain ⟨-, hcount, -, windows, hwindows, hcells⟩ := start_eq_ok h
  obtain ⟨window, hwindow, hnew⟩ := exists_of_forall₂ hwindows hp
  have hlt : i < behaviour.rules.length := hcount ▸ (List.getElem?_eq_some_iff.1 hp).1
  have hrule := List.getElem?_eq_getElem hlt
  have hparts : (behaviour.rules.zip (plan.partitions.zip windows))[i]? =
      some (behaviour.rules[i], p, window) :=
    List.getElem?_zip_eq_some.2 ⟨hrule, List.getElem?_zip_eq_some.2 ⟨hp, hwindow⟩⟩
  refine ⟨⟨makePartition i p behaviour.rules[i], window⟩, ?_, hrule, hnew⟩
  rw [hcells, List.getElem?_mapIdx, hparts]
  rfl

theorem exists_prepare_of_room (hcheck : plan.check = .ok ())
    (hcount : behaviour.rules.length = plan.size) (hroom : plan.HasRoom) :
    ∃ parts, prepare plan behaviour = .ok parts := by
  obtain ⟨hdepth, hpartitions, -⟩ := Plan.check_eq_ok_iff.1 hcheck
  obtain ⟨-, -, hshapes⟩ := Plan.checkPartitions_eq_ok_iff.1 hpartitions
  refine exists_prepare_iff.2 ⟨Plan.exists_schedule_of_check hcheck, hcount, fun p hp => ?_, ?_⟩
  · obtain ⟨⟨-, hpos, hwidth⟩, -⟩ := Plan.checkPartition_eq_ok_iff.1 (hshapes p hp)
    exact Window.exists_new_of_room (Nat.ne_of_gt hpos) hwidth (hroom.windows p hp)
  · exact ⟨_, by rw [Timeline.new, if_neg hdepth, if_neg (Nat.not_le_of_lt hroom.timeline)]⟩

theorem exists_prepare_or_crash (hcheck : plan.check = .ok ())
    (hcount : behaviour.rules.length = plan.size) :
    (∃ parts, prepare plan behaviour = .ok parts) ∨
      ∃ crash, prepare plan behaviour = .error (.crash crash) := by
  obtain ⟨schedule, hschedule⟩ := Plan.exists_schedule_of_check hcheck
  obtain ⟨hdepth, hpartitions, -⟩ := Plan.check_eq_ok_iff.1 hcheck
  obtain ⟨-, -, hshapes⟩ := Plan.checkPartitions_eq_ok_iff.1 hpartitions
  have hwindow : ∀ p ∈ plan.partitions,
      (∃ window, Window.new p.width p.depth p.initial = .ok window) ∨
        ∃ crash, Window.new p.width p.depth p.initial = .error (.crash crash) := by
    intro p hp
    obtain ⟨⟨-, hpos, hwidth⟩, -⟩ := Plan.checkPartition_eq_ok_iff.1 (hshapes p hp)
    exact Window.exists_new_or_crash (Nat.ne_of_gt hpos) hwidth
  simp only [prepare, hschedule, hcount, ne_eq, not_true_eq_false, if_false, bind, Except.bind, liftM,
    monadLift, MonadLift.monadLift, Except.mapError, pure, Except.pure]
  cases hwindows : plan.partitions.mapM fun p => Window.new p.width p.depth p.initial with
  | error stop =>
      obtain ⟨p, hp, hnew⟩ := exists_of_mapM_error hwindows
      rcases hwindow p hp with ⟨window, hok⟩ | ⟨crash, hcrash⟩
      · cases hok.symm.trans hnew
      · cases hcrash.symm.trans hnew
        exact Or.inr ⟨crash, rfl⟩
  | ok windows =>
      rcases Timeline.exists_new_or_crash hdepth plan.startTime with ⟨timeline, hok⟩ | ⟨crash, hcrash⟩
      · simp [hok]
      · simp [hcrash]

end Simulation

end Tandem
