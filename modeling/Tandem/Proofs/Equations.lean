import Tandem.Proofs.Reachable

/-!
# The equations that a step solves

The states of one step are the solution of a system of equations: the state of a partition is what its
rule makes of the params of its plan, in which fed params hold elements of the states of the same step.
Since no partition waits for itself the system has one solution at most, and a compute phase that
succeeds has found it.
-/

namespace Tandem

variable {ρ τ : Type}

/-- The params of a partition in a step with the given states: those of its plan, in which every fed
param holds what its feed picks from the state of its source. -/
structure PartitionPlan.TakesIn (p : PartitionPlan) (states : List State) (params : Params) : Prop where
  owner : params.owner = p.name
  unfed : ∀ param, p.feeds.get? param = none → params.get? param = p.params.get? param
  fed : ∀ param feed, p.feeds.get? param = some feed → ∃ state values,
    states[feed.source]? = some state ∧ Feed.Picks feed.selection state values ∧
      params.get? param = some values

/-- The states of one step of all partitions, given their rules before it. -/
structure Plan.Solves [UpdateRule ρ] (plan : Plan) (rules : List ρ) (view : View)
    (states : List State) : Prop where
  count : states.length = plan.size
  state : ∀ (i : Nat) p rule state, plan.partitions[i]? = some p → rules[i]? = some rule →
    states[i]? = some state → ∃ params, p.TakesIn states params ∧
      (UpdateRule.advance params i view rule).result = .ok state

/-! ## One solution at most -/

/-- What is taken in depends on the states of the sources only, and they determine it. -/
theorem PartitionPlan.TakesIn.unique {p : PartitionPlan} {states others : List State}
    {params found : Params} (h : p.TakesIn states params) (h' : p.TakesIn others found)
    (hsources : ∀ feed ∈ p.feeds.values, others[feed.source]? = states[feed.source]?) :
    params = found := by
  have hvalues : params.values = found.values := by
    refine Table.ext_get? fun param => ?_
    cases hfeed : p.feeds.get? param with
    | none => exact (h.unfed param hfeed).trans (h'.unfed param hfeed).symm
    | some feed =>
        obtain ⟨state, values, hstate, hpicks, hget⟩ := h.fed param feed hfeed
        obtain ⟨state', values', hstate', hpicks', hget'⟩ := h'.fed param feed hfeed
        rw [hsources feed (Table.mem_values_iff.2 ⟨param, hfeed⟩), hstate] at hstate'
        obtain rfl := Option.some.inj hstate'
        obtain rfl := hpicks.unique hpicks'
        exact hget.trans hget'.symm
  obtain ⟨values, owner⟩ := params
  obtain ⟨values', owner'⟩ := found
  obtain rfl : values = values' := hvalues
  obtain rfl : owner = owner' := h.owner.trans h'.owner.symm
  rfl

theorem Plan.Solves.unique [UpdateRule ρ] {plan : Plan} {schedule : Schedule} {cells : List (Cell ρ)}
    {rules : List ρ} {view : View} {states others : List State} (hfits : plan.Fits cells)
    (hsuits : schedule.Suits cells) (hrules : rules.length = plan.size)
    (h : plan.Solves rules view states) (h' : plan.Solves rules view others) : others = states := by
  have hsame : ∀ i, i < cells.length → others[i]? = states[i]? := by
    intro i hi
    -- along the feeds: what feeds a partition was computed without it
    refine hsuits.feed_induction (motive := fun i => others[i]? = states[i]?) ?_ hi
    intro i cell hcell hsources
    obtain ⟨p, hp, hconforms⟩ := hfits.exists_partition hcell
    have hlt : i < plan.size := hfits.count ▸ (List.getElem?_eq_some_iff.1 hcell).1
    have hrule := List.getElem?_eq_getElem (hrules.symm ▸ hlt : i < rules.length)
    have hstate := List.getElem?_eq_getElem (h.count.symm ▸ hlt : i < states.length)
    have hother := List.getElem?_eq_getElem (h'.count.symm ▸ hlt : i < others.length)
    obtain ⟨params, htakes, hadvance⟩ := h.state i p _ _ hp hrule hstate
    obtain ⟨params', htakes', hadvance'⟩ := h'.state i p _ _ hp hrule hother
    obtain rfl : params = params' := htakes.unique htakes' fun feed hfeed =>
      hsources feed (hconforms.feeds ▸ hfeed)
    rw [hstate, hother]
    exact congrArg some (Except.ok.inj (hadvance'.symm.trans hadvance))
  refine List.ext_getElem? fun i => ?_
  by_cases hi : i < cells.length
  · exact hsame i hi
  · rw [hfits.count] at hi
    have hnone : others[i]? = none := List.getElem?_eq_none (by rw [h'.count]; omega)
    rw [hnone, List.getElem?_eq_none (by rw [h.count]; omega)]

/-! ## A solution -/

namespace Simulation

variable [UpdateRule ρ] {plan : Plan} {sim : Simulation ρ τ}

def newStates (sim : Simulation ρ τ) : List State := sim.computeAll.sent.map (·.getD [])

theorem getElem?_newStates {i : Nat} {state : State} (h : sim.computeAll.sentBy i = some state) :
    sim.newStates[i]? = some state := by
  unfold Progress.sentBy at h
  rw [newStates, List.getElem?_map]
  cases hsent : sim.computeAll.sent[i]? with
  | none => simp [hsent] at h
  | some message =>
      simp only [hsent, Option.join_some] at h
      rw [h]
      rfl

theorem exists_sent (hsuits : sim.schedule.Suits sim.cells) (hcompute : sim.compute.result = .ok ())
    {i : Nat} (hi : i < sim.cells.length) : ∃ state, sim.computeAll.sentBy i = some state := by
  have hvisited := visited_computeAll hsuits
  cases hsent : sim.computeAll.sentBy i with
  | some state => exact ⟨state, rfl⟩
  | none =>
      have hhalt := hvisited.decided i (hsuits.mem_order.2 hi) hsent
      exact absurd (compute_result_eq_ok_iff_running.1 hcompute _) hhalt

theorem takesIn_of_refresh {p : PartitionPlan} {i : Nat} {cell : Cell ρ} {params : Params}
    (hconforms : cell.Conforms p i)
    (h : Partition.refresh cell.partition.name cell.partition.feeds
      (sim.computeAll.inbox cell.partition.feeds) cell.partition.params = (.ok (), params)) :
    p.TakesIn sim.newStates params := by
  have hnames := sim.computeAll.map_fst_inbox cell.partition.feeds
  have hkeeps := Partition.refresh_keeps cell.partition.name cell.partition.feeds
    (sim.computeAll.inbox cell.partition.feeds) cell.partition.params
  rw [h, hnames] at hkeeps
  have hfeeds := hconforms.feeds
  refine ⟨hkeeps.1.trans hconforms.owner, fun param hparam => ?_, fun param feed hfeed => ?_⟩
  · refine (hkeeps.2 param ?_).trans (hconforms.settings param hparam)
    rw [hfeeds, Table.mem_keys_iff, hparam]
    simp
  · rw [← hfeeds] at hfeed
    have hentry : (param, sim.computeAll.sentBy feed.source) ∈
        sim.computeAll.inbox cell.partition.feeds :=
      List.mem_map.2 ⟨(param, feed), Table.mem_entries_iff.2 hfeed, rfl⟩
    obtain ⟨state, values, hsent, hpicks, hget⟩ := Partition.get?_refresh_of_ok h
      (hnames ▸ cell.partition.feeds.nodup_keys) _ hentry
    dsimp only at hsent hpicks hget
    rw [hfeed] at hpicks
    exact ⟨state, values, getElem?_newStates hsent, hpicks, hget⟩

theorem computed_of_success (sim : Simulation ρ τ) (hfits : plan.Fits sim.cells)
    (hschedule : plan.schedule = .ok sim.schedule) (hcompute : sim.compute.result = .ok ())
    {i : Nat} {cell : Cell ρ} {p : PartitionPlan} (hcell : sim.cells[i]? = some cell)
    (hp : plan.partitions[i]? = some p) :
    ∃ state params, sim.newStates[i]? = some state ∧ state.length = cell.window.width ∧
      p.TakesIn sim.newStates params ∧
      (UpdateRule.advance params i sim.view cell.partition.rule).result = .ok state ∧
      sim.computed.cells[i]? = some
        ⟨{ cell.partition with
            params := params
            rule := (UpdateRule.advance params i sim.view cell.partition.rule).next
            pending := some state }, cell.window⟩ := by
  have hsuits := Plan.schedule_suits hschedule hfits.feeds_eq
  have hconforms := hfits.cell i cell p hcell hp
  obtain rfl := hconforms.index
  obtain ⟨state, hsent⟩ := exists_sent hsuits hcompute (List.getElem?_eq_some_iff.1 hcell).1
  obtain ⟨hresult, hafter⟩ := (visited_computeAll hsuits).computed _ state hsent cell hcell
  obtain ⟨params, hrefresh, hadvance, ⟨window, hwindow, hwidth⟩, hnext⟩ :=
    Partition.compute_of_ok sim.view cell.partition hresult
  have hsame : cell.window = window := by
    rw [view, windows, List.getElem?_map, hcell] at hwindow
    exact Option.some.inj hwindow
  refine ⟨state, params, getElem?_newStates hsent, hsame ▸ hwidth,
    takesIn_of_refresh hconforms hrefresh, hadvance, ?_⟩
  rw [computed, hafter, hnext]

theorem length_newStates (hfits : plan.Fits sim.cells)
    (hschedule : plan.schedule = .ok sim.schedule) : sim.newStates.length = plan.size := by
  have hsuits := Plan.schedule_suits hschedule hfits.feeds_eq
  rw [newStates, List.length_map, (visited_computeAll hsuits).sentCount, hfits.count]

theorem solves_newStates (sim : Simulation ρ τ) (hfits : plan.Fits sim.cells)
    (hschedule : plan.schedule = .ok sim.schedule) (hcompute : sim.compute.result = .ok ()) :
    plan.Solves (sim.cells.map (·.partition.rule)) sim.view sim.newStates where
  count := length_newStates hfits hschedule
  state := by
    intro i p rule state hp hrule hstate
    obtain ⟨cell, hcell, rfl⟩ := Option.map_eq_some_iff.1 (List.getElem?_map ▸ hrule)
    obtain ⟨found, params, hfound, -, htakes, hadvance, -⟩ :=
      computed_of_success sim hfits hschedule hcompute hcell hp
    obtain rfl := Option.some.inj (hfound.symm.trans hstate)
    exact ⟨params, htakes, hadvance⟩

end Simulation

end Tandem
