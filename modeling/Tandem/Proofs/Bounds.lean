import Tandem.Proofs.Phase
import Tandem.Proofs.Plan.Runnable

/-!
# Look-ups that stay in range

A plan is checked once, before its simulation starts, and nothing is checked again while the simulation
runs. What the check says of the plan holds of the cells in every step: groups and feeds name cells, every
cell knows its place, and selected elements lie inside the states that are sent. So a compute phase fails
only where a rule fails by itself, and where a partition waits for a state that is missing in consequence.
-/

namespace Tandem

variable {ρ τ : Type}

/-- What keeps every look-up of a step in range. -/
structure Simulation.InBounds (sim : Simulation ρ τ) : Prop where
  suits : sim.schedule.Suits sim.cells
  index : ∀ (i : Nat) cell, sim.cells[i]? = some cell → cell.partition.index = i
  shaped : ∀ cell ∈ sim.cells, cell.window.Shaped
  selection : ∀ cell ∈ sim.cells, ∀ feed ∈ cell.partition.feeds.values, ∃ source,
    sim.cells[feed.source]? = some source ∧
      ∀ indices, feed.selection = some indices → ∀ k ∈ indices, k < source.window.width

theorem Plan.Fits.inBounds {plan : Plan} {sim : Simulation ρ τ} (h : plan.Fits sim.cells)
    (hschedule : plan.schedule = .ok sim.schedule) : sim.InBounds where
  suits := Plan.schedule_suits hschedule h.feeds_eq
  index := by
    intro i cell hcell
    obtain ⟨p, -, hconforms⟩ := h.exists_partition hcell
    exact hconforms.index
  shaped := by
    intro cell hmem
    obtain ⟨i, hcell⟩ := List.mem_iff_getElem?.1 hmem
    obtain ⟨p, -, hconforms⟩ := h.exists_partition hcell
    exact hconforms.shaped
  selection := by
    intro cell hmem feed hfeed
    obtain ⟨i, hcell⟩ := List.mem_iff_getElem?.1 hmem
    obtain ⟨p, hp, hconforms⟩ := h.exists_partition hcell
    obtain ⟨-, -, hchecks⟩ := Plan.checkPartitions_eq_ok_iff.1 (Plan.schedule_parts hschedule).1
    obtain ⟨-, hfeeds⟩ := Plan.checkPartition_eq_ok_iff.1 (hchecks p (List.mem_of_getElem? hp))
    obtain ⟨q, hq, hselected⟩ := hfeeds feed (hconforms.feeds ▸ hfeed)
    have hlt : feed.source < sim.cells.length := by
      rw [h.count]
      exact (List.getElem?_eq_some_iff.1 hq).1
    have hsource := List.getElem?_eq_getElem hlt
    refine ⟨_, hsource, ?_⟩
    rwa [(h.cell _ _ q hsource hq).width]

theorem Feed.exists_select (selection : Option (List Nat)) {state : State}
    (h : ∀ indices, selection = some indices → ∀ k ∈ indices, k < state.length) :
    ∃ values, select selection state = .ok values := by
  cases selection with
  | none => exact ⟨state, rfl⟩
  | some indices =>
      refine exists_mapM_ok fun k hk => ?_
      rw [List.getElem?_eq_getElem (h indices rfl k hk)]
      exact ⟨_, rfl⟩

namespace Simulation

variable [UpdateRule ρ] {sim : Simulation ρ τ} {i : Nat} {stop : Stop}

/-- Partition `i` fails for want of a state that its source never sends. -/
def Starves (sim : Simulation ρ τ) (i : Nat) (stop : Stop) : Prop :=
  ∃ cell param feed, sim.cells[i]? = some cell ∧ cell.partition.feeds.get? param = some feed ∧
    sim.computeAll.sentBy feed.source = none ∧
    stop = .fault (.feedUnavailable cell.partition.name param)

/-- Partition `i` fails because of what its own rule does when it is called. -/
def FailsItself (sim : Simulation ρ τ) (i : Nat) (stop : Stop) : Prop :=
  ∃ cell params reply, sim.cells[i]? = some cell ∧ sim.Calls i params reply ∧
    Partition.OwnFailure cell.partition.name sim.timeline.next cell.window.width reply.result stop

/-- Selected elements lie inside the states that are sent, so taking in fails only where nothing is sent. -/
theorem InBounds.starves_of_refresh_error (h : sim.InBounds) {cell : Cell ρ}
    (hcell : sim.cells[i]? = some cell) {params : Params}
    (herror : Partition.refresh cell.partition.name cell.partition.feeds
      (sim.computeAll.inbox cell.partition.feeds) cell.partition.params = (.error stop, params)) :
    sim.Starves i stop := by
  rcases Partition.refresh_eq_error herror with ⟨param, hmem, rfl⟩ | ⟨param, state, crash, hmem, -, hcrash⟩
  · obtain ⟨feed, hfeed, hnone⟩ := Progress.mem_inbox.1 hmem
    exact ⟨cell, param, feed, hcell, hfeed, hnone.symm, rfl⟩
  · obtain ⟨feed, hfeed, hsent⟩ := Progress.mem_inbox.1 hmem
    obtain ⟨source, hsource, hselected⟩ := h.selection cell (List.mem_of_getElem? hcell) feed
      (Table.mem_values_iff.2 ⟨param, hfeed⟩)
    have hwidth := length_of_sent h.suits h.index hsource hsent.symm
    obtain ⟨values, hvalues⟩ := Feed.exists_select feed.selection fun indices heq k hk =>
      hwidth ▸ hselected indices heq k hk
    rw [hfeed] at hcrash
    cases hcrash.symm.trans hvalues

theorem InBounds.failsAt_cases (h : sim.InBounds) (hfails : sim.FailsAt i stop) :
    sim.FailsItself i stop ∨ sim.Starves i stop := by
  obtain ⟨cell, hcell, hreached, hresult⟩ := hfails
  cases hrefresh : Partition.refresh cell.partition.name cell.partition.feeds
      (sim.computeAll.inbox cell.partition.feeds) cell.partition.params with
  | mk result params =>
      cases result with
      | error first =>
          rw [Progress.replyTo, Partition.compute_of_refresh_error _ _ hrefresh] at hresult
          obtain rfl := Except.error.inj hresult
          exact Or.inr (h.starves_of_refresh_error hcell hrefresh)
      | ok _ =>
          rw [Progress.replyTo, Partition.compute_of_refresh_ok _ _ hrefresh] at hresult
          have hwindow : sim.view.windows[cell.partition.index]? = some cell.window := by
            rw [h.index i cell hcell, view, windows, List.getElem?_map, hcell]
            rfl
          exact Or.inl ⟨cell, params, _, hcell, .intro hcell hreached hrefresh,
            Partition.callRule_eq_error sim.view { cell.partition with params := params } hwindow
              hresult⟩

end Simulation

end Tandem
