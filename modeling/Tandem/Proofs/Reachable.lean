import Tandem.Proofs.Commit
import Tandem.Proofs.Lists
import Tandem.Proofs.Step

/-!
# What every reachable simulation has from its plan

Steps change rules, windows, pending states and the params that feeds set. All else a cell has from its
partition's plan, and it keeps it whatever becomes of a step.
-/

namespace Tandem

variable {ρ τ : Type}

/-- The simulations that steps lead to, whatever the steps reply. -/
inductive Reachable [UpdateRule ρ] [Pace τ] (plan : Plan) (behaviour : Behaviour ρ τ) :
    Simulation ρ τ → Prop
  | start {sim : Simulation ρ τ} {events : List Event}
      (h : Simulation.start plan behaviour = (.ok sim, events)) : Reachable plan behaviour sim
  | step {sim : Simulation ρ τ} (h : Reachable plan behaviour sim) :
      Reachable plan behaviour sim.step.next

/-- What the cell of a partition has from the partition's plan. -/
structure Cell.Conforms (p : PartitionPlan) (index : Nat) (cell : Cell ρ) : Prop where
  name : cell.partition.name = p.name
  index : cell.partition.index = index
  feeds : cell.partition.feeds = p.feeds
  owner : cell.partition.params.owner = p.name
  settings : ∀ param, p.feeds.get? param = none →
    cell.partition.params.get? param = p.params.get? param
  width : cell.window.width = p.width
  depth : cell.window.depth = p.depth
  shaped : cell.window.Shaped

structure Plan.Fits (plan : Plan) (cells : List (Cell ρ)) : Prop where
  count : cells.length = plan.size
  cell : ∀ (i : Nat) cell p, cells[i]? = some cell → plan.partitions[i]? = some p →
    cell.Conforms p i

namespace Plan.Fits

variable {plan : Plan} {cells : List (Cell ρ)}

theorem exists_partition (h : plan.Fits cells) {i : Nat} {cell : Cell ρ}
    (hcell : cells[i]? = some cell) :
    ∃ p, plan.partitions[i]? = some p ∧ cell.Conforms p i := by
  have hi : i < plan.partitions.length := by
    rw [← Plan.size, ← h.count]
    exact (List.getElem?_eq_some_iff.1 hcell).1
  have hp := List.getElem?_eq_getElem hi
  exact ⟨_, hp, h.cell i cell _ hcell hp⟩

theorem map_eq {α : Type} (h : plan.Fits cells) {ofCell : Cell ρ → α} {ofPlan : PartitionPlan → α}
    (hsame : ∀ cell p i, Cell.Conforms p i cell → ofCell cell = ofPlan p) :
    cells.map ofCell = plan.partitions.map ofPlan := by
  refine List.ext_getElem? fun i => ?_
  rw [List.getElem?_map, List.getElem?_map]
  cases hcell : cells[i]? with
  | none =>
      have hlength : plan.partitions.length ≤ i := by
        rw [← Plan.size, ← h.count]
        exact List.getElem?_eq_none_iff.1 hcell
      rw [List.getElem?_eq_none hlength]
      rfl
  | some cell =>
      obtain ⟨p, hp, hconforms⟩ := h.exists_partition hcell
      rw [hp, Option.map_some, Option.map_some, hsame cell p i hconforms]

theorem feeds_eq (h : plan.Fits cells) :
    cells.map (·.partition.feeds) = plan.partitions.map (·.feeds) :=
  h.map_eq fun _ _ _ hconforms => hconforms.feeds

theorem names_eq (h : plan.Fits cells) : cells.map (·.partition.name) = plan.names :=
  h.map_eq fun _ _ _ hconforms => hconforms.name

theorem set (h : plan.Fits cells) {i : Nat} {cell after : Cell ρ} (hcell : cells[i]? = some cell)
    (hkeep : ∀ p, plan.partitions[i]? = some p → cell.Conforms p i → after.Conforms p i) :
    plan.Fits (cells.set i after) where
  count := by simpa using h.count
  cell := by
    intro j found p hfound hp
    by_cases hj : j = i
    · subst hj
      rw [List.getElem?_set_self (List.getElem?_eq_some_iff.1 hcell).1] at hfound
      cases hfound
      exact hkeep p hp (h.cell j cell p hcell hp)
    · rw [List.getElem?_set_ne (Ne.symm hj)] at hfound
      exact h.cell j found p hfound hp

theorem of_forall₂ (h : plan.Fits cells) {next : List (Cell ρ)} {related : Cell ρ → Cell ρ → Prop}
    (hnext : List.Forall₂ related cells next)
    (hkeep : ∀ cell after p i, related cell after → cell.Conforms p i → after.Conforms p i) :
    plan.Fits next where
  count := hnext.length_eq ▸ h.count
  cell := by
    intro i after p hafter hp
    obtain ⟨hi, rfl⟩ := List.getElem?_eq_some_iff.1 hafter
    have hi' : i < cells.length := hnext.length_eq ▸ hi
    have hrelated := (List.forall₂_iff_get.1 hnext).2 i hi' hi
    exact hkeep _ _ _ _ hrelated (h.cell i _ p (List.getElem?_eq_getElem hi') hp)

end Plan.Fits

/-! ## Keeping it -/

namespace Cell.Conforms

variable {p : PartitionPlan} {i : Nat} {cell : Cell ρ}

theorem withPending (h : cell.Conforms p i) (pending : Option State) :
    Conforms p i ⟨{ cell.partition with pending := pending }, cell.window⟩ :=
  { h with }

theorem compute [UpdateRule ρ] (h : cell.Conforms p i) (view : View) {inbox : Inbox}
    (hinbox : inbox.map (·.1) = cell.partition.feeds.keys) :
    Conforms p i { cell with partition := (cell.partition.compute view inbox).next } := by
  obtain ⟨hname, hindex, hfeeds, howner, hget⟩ := Partition.compute_keeps view cell.partition inbox
  refine { h with
    name := hname.trans h.name
    index := hindex.trans h.index
    feeds := hfeeds.trans h.feeds
    owner := howner.trans h.owner
    settings := fun param hparam => ?_ }
  refine (hget param ?_).trans (h.settings param hparam)
  rw [hinbox, h.feeds, Table.mem_keys_iff, hparam]
  simp

theorem recorded (h : cell.Conforms p i) {state : State} (hwidth : state.length = cell.window.width) :
    (cell.recorded state).Conforms p i :=
  { h with shaped := h.shaped.recorded hwidth }

theorem commit (h : cell.Conforms p i) (output : Output) (time : Float) (step : Nat) :
    (cell.commit output time step).next.Conforms p i := by
  cases hpending : cell.partition.pending with
  | none =>
      simp only [Cell.commit, Partition.commit, hpending]
      exact h
  | some state =>
      by_cases hwidth : state.length = cell.window.width
      · rw [Cell.commit_eq hpending h.shaped hwidth]
        exact h.recorded hwidth
      · have hpush : cell.window.push state = .error
            (.fault (.invalid (.insertedWidth state.length cell.window.width))) := by
          rw [Window.push, if_pos hwidth]
        simp only [Cell.commit, Partition.commit, hpending, hpush]
        exact h.withPending none

end Cell.Conforms

namespace Plan.Fits

variable {plan : Plan} {sim : Simulation ρ τ}

theorem discardPending (h : plan.Fits sim.cells) : plan.Fits sim.discardPending.cells where
  count := by simpa [Simulation.discardPending] using h.count
  cell := by
    intro i after p hafter hp
    obtain ⟨cell, hcell, rfl⟩ := Option.map_eq_some_iff.1 (List.getElem?_map ▸ hafter)
    exact (h.cell i cell p hcell hp).withPending none

theorem computeAll [UpdateRule ρ] (h : plan.Fits sim.cells) : plan.Fits sim.computeAll.cells := by
  refine sim.computeAll_induction (motive := fun _ progress => plan.Fits progress.cells) h ?_
  intro done i after progress _ hfits
  rcases progress.cells_visit sim.view (groupOf sim.schedule.ranges i) i with
    heq | ⟨cell, hcell, heq⟩
  · exact heq ▸ hfits
  · rw [heq]
    exact hfits.set hcell fun p _ hconforms =>
      hconforms.compute sim.view (progress.map_fst_inbox cell.partition.feeds)

theorem commit (h : plan.Fits sim.cells) (time : Float) (step : Nat) :
    plan.Fits (sim.commit time step).next.cells := by
  rw [Simulation.commit_eq]
  refine h.of_forall₂ (commitGroups_forall₂ sim.output time step _ sim.cells) ?_
  rintro cell _ p i (rfl | rfl) hcell
  · exact hcell
  · exact hcell.commit sim.output time step

end Plan.Fits

/-! ## The start -/

namespace Simulation

theorem beginCells_eq_ok {output : Output} {time : Float} {index : Nat}
    {parts : List (ρ × PartitionPlan × Window)} {cells : List (Cell ρ)} {events : List Event}
    (h : beginCells output time index parts = (.ok cells, events)) :
    cells = parts.mapIdx fun k part => ⟨makePartition (index + k) part.2.1 part.1, part.2.2⟩ := by
  induction parts generalizing index cells events with
  | nil =>
      cases h
      rfl
  | cons part rest ih =>
      obtain ⟨rule, p, window⟩ := part
      simp only [beginCells] at h
      cases hbegin : ((makePartition index p rule).begin output p.initial time).result with
      | error stop => simp [hbegin] at h
      | ok _ =>
          simp only [hbegin] at h
          cases hlater : beginCells output time (index + 1) rest with
          | mk result later =>
              cases result with
              | error stop => simp [hlater, Except.map] at h
              | ok others =>
                  simp only [hlater, Except.map, Prod.mk.injEq, Except.ok.injEq] at h
                  obtain ⟨rfl, -⟩ := h
                  rw [ih hlater, List.mapIdx_cons]
                  simp only [Nat.add_zero, Nat.add_right_comm, Nat.add_assoc]
                  rfl

theorem prepare_eq_ok {plan : Plan} {behaviour : Behaviour ρ τ} {schedule : Schedule}
    {windows : List Window} {timeline : Timeline}
    (h : prepare plan behaviour = .ok (schedule, windows, timeline)) :
    plan.schedule = .ok schedule ∧ behaviour.rules.length = plan.size ∧
      List.Forall₂ (fun p window => Window.new p.width p.depth p.initial = .ok window)
        plan.partitions windows ∧
      Timeline.new plan.timelineDepth plan.startTime = .ok timeline := by
  obtain ⟨_, hschedule, h⟩ := bind_eq_ok h
  dsimp only at h
  split at h
  next => cases h
  next hrules =>
    obtain ⟨_, hwindows, h⟩ := bind_eq_ok h
    obtain ⟨_, htimeline, h⟩ := bind_eq_ok h
    cases h
    exact ⟨mapError_eq_ok hschedule, Classical.not_not.1 hrules, mapM_eq_ok hwindows, htimeline⟩

theorem start_eq_ok {plan : Plan} {behaviour : Behaviour ρ τ} {sim : Simulation ρ τ}
    {events : List Event} (h : start plan behaviour = (.ok sim, events)) :
    plan.schedule = .ok sim.schedule ∧ behaviour.rules.length = plan.size ∧
      Timeline.new plan.timelineDepth plan.startTime = .ok sim.timeline ∧
      ∃ windows, List.Forall₂ (fun p window => Window.new p.width p.depth p.initial = .ok window)
          plan.partitions windows ∧
        sim.cells = (behaviour.rules.zip (plan.partitions.zip windows)).mapIdx fun k part =>
          ⟨makePartition k part.2.1 part.1, part.2.2⟩ := by
  unfold start at h
  cases hprepare : prepare plan behaviour with
  | error stop => simp [hprepare] at h
  | ok parts =>
      obtain ⟨schedule, windows, timeline⟩ := parts
      cases hcells : beginCells behaviour.output plan.startTime 0
          (behaviour.rules.zip (plan.partitions.zip windows)) with
      | mk result events =>
          simp only [hprepare, hcells, Prod.mk.injEq] at h
          cases result with
          | error stop => simp [Except.map] at h
          | ok cells =>
              simp only [Except.map, Except.ok.injEq] at h
              obtain ⟨rfl, -⟩ := h
              obtain ⟨hschedule, hrules, hwindows, htimeline⟩ := prepare_eq_ok hprepare
              refine ⟨hschedule, hrules, htimeline, windows, hwindows, ?_⟩
              simpa using beginCells_eq_ok hcells

/-- A simulation starts with cells that fit its plan, and each window holds the initial state. -/
theorem start_fits {plan : Plan} {behaviour : Behaviour ρ τ} {sim : Simulation ρ τ}
    {events : List Event} (h : start plan behaviour = (.ok sim, events)) :
    plan.Fits sim.cells ∧ ∀ (i : Nat) cell p, sim.cells[i]? = some cell →
      plan.partitions[i]? = some p → p.initial.length = p.width ∧ cell.window.Holds [p.initial] := by
  obtain ⟨-, hrules, -, windows, hwindows, hcells⟩ := start_eq_ok h
  have hparts : ∀ (i : Nat) cell p, sim.cells[i]? = some cell → plan.partitions[i]? = some p →
      ∃ rule window, cell = ⟨makePartition i p rule, window⟩ ∧
        Window.new p.width p.depth p.initial = .ok window := by
    intro i cell p hcell hp
    rw [hcells, List.getElem?_mapIdx, Option.map_eq_some_iff] at hcell
    obtain ⟨⟨rule, p', window⟩, hpart, rfl⟩ := hcell
    obtain ⟨-, hrest⟩ := List.getElem?_zip_eq_some.1 hpart
    obtain ⟨hp', hwindow⟩ := List.getElem?_zip_eq_some.1 hrest
    obtain rfl : p = p' := Option.some.inj (hp.symm.trans hp')
    obtain ⟨hi, rfl⟩ := List.getElem?_eq_some_iff.1 hp
    obtain ⟨hi', rfl⟩ := List.getElem?_eq_some_iff.1 hwindow
    exact ⟨rule, _, rfl, (List.forall₂_iff_get.1 hwindows).2 i hi hi'⟩
  have hcount : sim.cells.length = plan.size := by
    have hsame := hwindows.length_eq
    rw [hcells, List.length_mapIdx, List.length_zip, List.length_zip, hrules, Plan.size, ← hsame,
      Nat.min_self, Nat.min_self]
  refine ⟨⟨hcount, fun i cell p hcell hp => ?_⟩, fun i cell p hcell hp => ?_⟩
  · obtain ⟨rule, window, rfl, hwindow⟩ := hparts i cell p hcell hp
    obtain ⟨-, hshaped, hwidth, hdepth, -⟩ := Window.new_eq_ok hwindow
    exact ⟨rfl, rfl, rfl, rfl, fun _ _ => rfl, hwidth, hdepth, hshaped⟩
  · obtain ⟨rule, window, rfl, hwindow⟩ := hparts i cell p hcell hp
    obtain ⟨hinitial, -, -, -, hholds⟩ := Window.new_eq_ok hwindow
    exact ⟨hinitial, hholds⟩

end Simulation

/-! ## Every step -/

variable {plan : Plan} {behaviour : Behaviour ρ τ} {sim : Simulation ρ τ}

theorem Simulation.finishStep_next (sim : Simulation ρ τ) :
    sim.finishStep.next = { (sim.commit sim.timeline.next sim.timeline.step).next with
      timeline := sim.timeline.push sim.timeline.next } := by
  simp only [finishStep, commit_eq]

variable [UpdateRule ρ] [Pace τ]

theorem Simulation.step_output (sim : Simulation ρ τ) : sim.step.next.output = sim.output := by
  have hway := sim.way_step
  generalize sim.step = reply at hway ⊢
  cases hway with
  | refused => rfl
  | crashed => rfl
  | failed => rfl
  | finished =>
      dsimp only
      rw [finishStep_next, commit_eq]
      rfl

theorem Simulation.step_pace (sim : Simulation ρ τ) :
    sim.step.next.pace = (Pace.next sim.timeline.beginStep sim.pace).2 := by
  have hway := sim.way_step
  generalize sim.step = reply at hway ⊢
  cases hway with
  | refused hpace => rw [hpace]
  | crashed hpace => rw [hpace]
  | failed hpace => exact (congrArg Prod.snd hpace).symm
  | finished hpace =>
      dsimp only
      rw [finishStep_next, commit_eq, hpace]
      rfl

theorem Plan.Fits.step (h : plan.Fits sim.cells) :
    plan.Fits sim.step.next.cells ∧ sim.step.next.schedule = sim.schedule := by
  have hcomputed : ∀ increment pace, plan.Fits (sim.begun increment pace).computed.cells :=
    fun increment pace => Fits.computeAll (h : plan.Fits (sim.begun increment pace).cells)
  have hway := sim.way_step
  generalize sim.step = reply at hway ⊢
  cases hway with
  | refused => exact ⟨h, rfl⟩
  | crashed => exact ⟨h, rfl⟩
  | failed => exact ⟨(hcomputed _ _).discardPending, rfl⟩
  | finished =>
      dsimp only
      rw [Simulation.finishStep_next]
      exact ⟨(hcomputed _ _).commit _ _, by rw [Simulation.commit_eq]; rfl⟩

theorem Reachable.fits (h : Reachable plan behaviour sim) :
    plan.Fits sim.cells ∧ plan.schedule = .ok sim.schedule := by
  induction h with
  | start h => exact ⟨(Simulation.start_fits h).1, (Simulation.start_eq_ok h).1⟩
  | step _ ih =>
      obtain ⟨hfits, hschedule⟩ := ih.1.step
      exact ⟨hfits, hschedule ▸ ih.2⟩

end Tandem
