import Mathlib.Data.List.Forall2
import Tandem.Proofs.Compute
import Tandem.Proofs.Window
import Tandem.Simulation.Commit

/-!
# What the commit phase comes to

Groups commit one after the other and only a crash keeps a member of a group from committing. Without
crashes the phase commits every cell, whatever the output refuses, and it succeeds exactly if every
single commit does.
-/

namespace Tandem

variable {ρ τ : Type} {output : Output} {time : Float} {step : Nat}

def Cell.recorded (cell : Cell ρ) (state : State) : Cell ρ :=
  ⟨cell.partition.discard, cell.window.recorded state⟩

/-- A pending state of the right width is recorded, whatever the output says to it. -/
theorem Cell.commit_eq {cell : Cell ρ} {state : State} (hpending : cell.partition.pending = some state)
    (hshaped : cell.window.Shaped) (hwidth : state.length = cell.window.width) :
    cell.commit output time step =
      ⟨(output.offer ⟨cell.partition.name, time, state⟩ step).1, cell.recorded state,
        (output.offer ⟨cell.partition.name, time, state⟩ step).2⟩ := by
  simp only [Cell.commit, Partition.commit, hpending, hshaped.push_eq hwidth]
  rfl

def Cell.Ready (cell : Cell ρ) : Prop :=
  ∃ state, cell.partition.pending = some state ∧ cell.window.Shaped ∧
    state.length = cell.window.width

/-! ## Groups -/

theorem commitGroup_cells {cells : List (Cell ρ)}
    (h : ∀ cell ∈ cells, ∀ crash, (cell.commit output time step).result ≠ .error (.crash crash)) :
    (commitGroup output time step cells).cells =
      cells.map fun cell => (cell.commit output time step).next := by
  induction cells with
  | nil => rfl
  | cons cell rest ih =>
      obtain ⟨hcell, hrest⟩ := List.forall_mem_cons.1 h
      simp only [commitGroup, List.map_cons]
      cases hresult : (cell.commit output time step).result with
      | ok _ => exact congrArg _ (ih hrest)
      | error stop =>
          cases stop with
          | fault fault => exact congrArg _ (ih hrest)
          | crash crash => exact absurd hresult (hcell crash)

theorem commitGroup_failure_eq_none_iff {cells : List (Cell ρ)} :
    (commitGroup output time step cells).failure = none ↔
      ∀ cell ∈ cells, (cell.commit output time step).result = .ok () := by
  induction cells with
  | nil => simp [commitGroup]
  | cons cell rest ih =>
      rw [List.forall_mem_cons, ← ih]
      simp only [commitGroup]
      cases hresult : (cell.commit output time step).result with
      | ok _ => simp
      | error stop => cases stop <;> simp

theorem length_commitGroups_failure (output : Output) (time : Float) (step : Nat) (sizes : List Nat)
    (cells : List (Cell ρ)) :
    (commitGroups output time step sizes cells).failure.length = sizes.length := by
  induction sizes generalizing cells with
  | nil => rfl
  | cons size sizes ih => simp [commitGroups, ih]

theorem commitGroups_cells {sizes : List Nat} {cells : List (Cell ρ)}
    (hsizes : sizes.sum = cells.length)
    (h : ∀ cell ∈ cells, ∀ crash, (cell.commit output time step).result ≠ .error (.crash crash)) :
    (commitGroups output time step sizes cells).cells =
      cells.map fun cell => (cell.commit output time step).next := by
  induction sizes generalizing cells with
  | nil =>
      have hnil : cells = [] := List.length_eq_zero_iff.1 hsizes.symm
      subst hnil
      rfl
  | cons size sizes ih =>
      rw [List.sum_cons] at hsizes
      have hlater : sizes.sum = (cells.drop size).length := by
        rw [List.length_drop]
        omega
      simp only [commitGroups]
      rw [commitGroup_cells fun cell hcell => h cell (List.mem_of_mem_take hcell),
        ih hlater fun cell hcell => h cell (List.mem_of_mem_drop hcell), ← List.map_append,
        List.take_append_drop]

theorem commitGroups_failure_iff {sizes : List Nat} {cells : List (Cell ρ)}
    (hsizes : sizes.sum = cells.length) :
    (∀ failure ∈ (commitGroups output time step sizes cells).failure, failure = none) ↔
      ∀ cell ∈ cells, (cell.commit output time step).result = .ok () := by
  induction sizes generalizing cells with
  | nil =>
      have hnil : cells = [] := List.length_eq_zero_iff.1 hsizes.symm
      subst hnil
      simp [commitGroups]
  | cons size sizes ih =>
      rw [List.sum_cons] at hsizes
      have hlater : sizes.sum = (cells.drop size).length := by
        rw [List.length_drop]
        omega
      simp only [commitGroups, List.forall_mem_cons]
      rw [commitGroup_failure_eq_none_iff, ih hlater, ← List.forall_mem_append,
        List.take_append_drop]

/-! ## Crashes -/

/-- Whatever happens, a cell was committed or is as it was. -/
theorem commitGroup_forall₂ (output : Output) (time : Float) (step : Nat) (cells : List (Cell ρ)) :
    List.Forall₂ (fun cell after => after = cell ∨ after = (cell.commit output time step).next) cells
      (commitGroup output time step cells).cells := by
  induction cells with
  | nil => exact .nil
  | cons cell rest ih =>
      simp only [commitGroup]
      cases (cell.commit output time step).result with
      | ok _ => exact .cons (Or.inr rfl) ih
      | error stop =>
          cases stop with
          | fault fault => exact .cons (Or.inr rfl) ih
          | crash crash =>
              exact .cons (Or.inr rfl) (List.forall₂_same.2 fun other _ => Or.inl rfl)

theorem commitGroups_forall₂ (output : Output) (time : Float) (step : Nat) (sizes : List Nat)
    (cells : List (Cell ρ)) :
    List.Forall₂ (fun cell after => after = cell ∨ after = (cell.commit output time step).next) cells
      (commitGroups output time step sizes cells).cells := by
  induction sizes generalizing cells with
  | nil => exact List.forall₂_same.2 fun other _ => Or.inl rfl
  | cons size sizes ih =>
      have hparts := List.rel_append (commitGroup_forall₂ output time step (cells.take size))
        (ih (cells.drop size))
      dsimp only at hparts
      rwa [List.take_append_drop] at hparts

/-! ## The whole phase -/

namespace Simulation

theorem commit_eq (sim : Simulation ρ τ) (time : Float) (step : Nat) :
    (sim.commit time step).next = { sim with
      cells := (commitGroups sim.output time step (sim.schedule.ranges.map Range.size)
        sim.cells).cells } := by
  simp only [commit]
  split <;> rfl

theorem commit_result_eq_ok_iff {sim : Simulation ρ τ}
    (htiles : Tiles 0 sim.cells.length sim.schedule.ranges) :
    (sim.commit time step).result = .ok () ↔
      ∀ cell ∈ sim.cells, (cell.commit sim.output time step).result = .ok () := by
  have hsizes : (sim.schedule.ranges.map Range.size).sum = sim.cells.length := htiles.sum_size
  have hlength := length_commitGroups_failure sim.output time step
    (sim.schedule.ranges.map Range.size) sim.cells
  rw [List.length_map] at hlength
  rw [← commitGroups_failure_iff hsizes]
  simp only [commit]
  split
  next fault hfault =>
    rw [← firstFault_groupFaults_eq_none_iff _ hlength, hfault]
    simp
  next hnone =>
    rw [← firstFault_groupFaults_eq_none_iff _ hlength, hnone]
    simp

theorem commit_cells_of_ready {sim : Simulation ρ τ}
    (htiles : Tiles 0 sim.cells.length sim.schedule.ranges) (hready : ∀ cell ∈ sim.cells, cell.Ready)
    (hcalm : ∀ cell ∈ sim.cells, ∀ crash,
      (cell.commit sim.output time step).result ≠ .error (.crash crash)) :
    (sim.commit time step).next.cells =
      sim.cells.map fun cell => cell.recorded (cell.partition.pending.getD []) := by
  have hsizes : (sim.schedule.ranges.map Range.size).sum = sim.cells.length := htiles.sum_size
  rw [commit_eq, commitGroups_cells hsizes hcalm]
  refine List.map_congr_left fun cell hcell => ?_
  obtain ⟨state, hpending, hshaped, hwidth⟩ := hready cell hcell
  rw [Cell.commit_eq hpending hshaped hwidth, hpending]
  rfl

end Simulation

end Tandem
