import Tandem.Proofs.Start

/-!
# Simulations with other rules

Only the compute phase calls rules. Starting a simulation, committing, and moving the timeline on come to
the same for any rules, and a compute phase comes to the same for other rules as long as these answer alike.
-/

namespace Tandem

variable {ρ σ τ : Type}

def Partition.recast (p : Partition ρ) (rule : σ) : Partition σ where
  rule := rule
  params := p.params
  name := p.name
  index := p.index
  feeds := p.feeds
  pending := p.pending

def Cell.recast (cell : Cell ρ) (rule : σ) : Cell σ := ⟨cell.partition.recast rule, cell.window⟩

def recastAll (cells : List (Cell ρ)) (rules : List σ) : List (Cell σ) := cells.zipWith Cell.recast rules

def Progress.recast (progress : Progress ρ) (rules : List σ) : Progress σ where
  cells := recastAll progress.cells rules
  sent := progress.sent
  halted := progress.halted
  emitted := progress.emitted

def Simulation.recast (sim : Simulation ρ τ) (rules : List σ) : Simulation σ τ where
  cells := recastAll sim.cells rules
  schedule := sim.schedule
  timeline := sim.timeline
  output := sim.output
  stop := sim.stop
  pace := sim.pace

/-! ## Cells -/

section Cells

variable {cells : List (Cell ρ)} {rules : List σ}

theorem length_recastAll (h : rules.length = cells.length) :
    (recastAll cells rules).length = cells.length := by
  rw [recastAll, List.length_zipWith, h, Nat.min_self]

theorem getElem?_recastAll {i : Nat} {cell : Cell ρ} {rule : σ} (hcell : cells[i]? = some cell)
    (hrule : rules[i]? = some rule) : (recastAll cells rules)[i]? = some (cell.recast rule) := by
  rw [recastAll, List.getElem?_zipWith, hcell, hrule]

theorem map_recastAll {α : Type} (h : rules.length = cells.length) {f : Cell σ → α} {g : Cell ρ → α}
    (hsame : ∀ cell rule, f (Cell.recast cell rule) = g cell) :
    (recastAll cells rules).map f = cells.map g := by
  induction cells generalizing rules with
  | nil => rfl
  | cons cell rest ih =>
      obtain ⟨rule, later, rfl⟩ := List.exists_cons_of_length_eq_add_one h
      rw [List.length_cons, List.length_cons, Nat.add_right_cancel_iff] at h
      rw [recastAll, List.zipWith_cons_cons, List.map_cons, List.map_cons, hsame]
      exact congrArg _ (ih h)

theorem recastAll_set {i : Nat} (cell : Cell ρ) (rule : σ) :
    recastAll (cells.set i cell) (rules.set i rule) = (recastAll cells rules).set i (cell.recast rule) := by
  induction cells generalizing rules i with
  | nil => rfl
  | cons first rest ih =>
      cases rules with
      | nil => simp [recastAll]
      | cons head later =>
          cases i with
          | zero => rfl
          | succ i => exact congrArg (first.recast head :: ·) ih

end Cells

/-! ## The commit phase -/

section Commit

variable {output : Output} {time : Float} {step : Nat}

theorem Cell.commit_recast (cell : Cell ρ) (rule : σ) :
    (cell.recast rule).commit output time step =
      (cell.commit output time step).mapNext fun next => next.recast rule := by
  obtain ⟨⟨old, params, name, index, feeds, pending⟩, window⟩ := cell
  cases pending with
  | none => rfl
  | some state =>
      simp only [Cell.commit, Partition.commit, Cell.recast, Partition.recast]
      cases window.push state <;> rfl

theorem commitGroup_recast {cells : List (Cell ρ)} {rules : List σ} (h : rules.length = cells.length) :
    commitGroup output time step (recastAll cells rules) =
      ⟨recastAll (commitGroup output time step cells).cells rules,
        (commitGroup output time step cells).failure, (commitGroup output time step cells).emitted⟩ := by
  induction cells generalizing rules with
  | nil => rfl
  | cons cell rest ih =>
      obtain ⟨rule, later, rfl⟩ := List.exists_cons_of_length_eq_add_one h
      rw [List.length_cons, List.length_cons, Nat.add_right_cancel_iff] at h
      have hcons : recastAll (cell :: rest) (rule :: later) = cell.recast rule :: recastAll rest later := rfl
      rw [hcons]
      simp only [commitGroup, Cell.commit_recast, Reply.mapNext, ih h]
      cases (cell.commit output time step).result with
      | ok _ => rfl
      | error stop => cases stop <;> rfl

theorem commitGroups_recast (sizes : List Nat) {cells : List (Cell ρ)} {rules : List σ}
    (h : rules.length = cells.length) :
    commitGroups output time step sizes (recastAll cells rules) =
      ⟨recastAll (commitGroups output time step sizes cells).cells rules,
        (commitGroups output time step sizes cells).failure,
        (commitGroups output time step sizes cells).emitted⟩ := by
  induction sizes generalizing cells rules with
  | nil => rfl
  | cons size sizes ih =>
      have hfirst : (rules.take size).length = (cells.take size).length := by
        rw [List.length_take, List.length_take, h]
      have hlater : (rules.drop size).length = (cells.drop size).length := by
        rw [List.length_drop, List.length_drop, h]
      have hcount : (commitGroup output time step (cells.take size)).cells.length =
          (rules.take size).length :=
        (commitGroup_forall₂ output time step (cells.take size)).length_eq.symm.trans hfirst.symm
      have hsplit : recastAll ((commitGroup output time step (cells.take size)).cells ++
            (commitGroups output time step sizes (cells.drop size)).cells) rules =
          recastAll (commitGroup output time step (cells.take size)).cells (rules.take size) ++
            recastAll (commitGroups output time step sizes (cells.drop size)).cells (rules.drop size) := by
        conv_lhs => rw [← List.take_append_drop size rules]
        exact List.zipWith_append hcount
      have htake : (recastAll cells rules).take size = recastAll (cells.take size) (rules.take size) :=
        List.take_zipWith
      have hdrop : (recastAll cells rules).drop size = recastAll (cells.drop size) (rules.drop size) :=
        List.drop_zipWith
      simp only [commitGroups, htake, hdrop, commitGroup_recast hfirst, ih hlater, hsplit]

end Commit

namespace Simulation

variable {sim : Simulation ρ τ} {rules : List σ}

theorem windows_recast (h : rules.length = sim.cells.length) : (sim.recast rules).windows = sim.windows :=
  map_recastAll h fun _ _ => rfl

theorem view_recast (h : rules.length = sim.cells.length) : (sim.recast rules).view = sim.view := by
  rw [view, view, windows_recast h]
  rfl

theorem commit_reply (sim : Simulation ρ τ) (time : Float) (step : Nat) :
    sim.commit time step =
      let done := commitGroups sim.output time step (sim.schedule.ranges.map Range.size) sim.cells
      { result :=
          match firstFault (groupFaults (done.cells.map (·.partition.name)) sim.schedule.ranges
            done.failure) with
          | some fault => .error (.fault fault)
          | none => .ok ()
        next := { sim with cells := done.cells }
        emitted := done.emitted } := by
  simp only [commit]
  split <;> simp_all [names]

theorem commit_recast (h : rules.length = sim.cells.length) (time : Float) (step : Nat) :
    (sim.recast rules).commit time step =
      (sim.commit time step).mapNext fun next => next.recast rules := by
  let sizes := sim.schedule.ranges.map Range.size
  have hcells := (commitGroups_forall₂ sim.output time step sizes sim.cells).length_eq
  have hdone : commitGroups sim.output time step sizes (recastAll sim.cells rules) = _ :=
    commitGroups_recast sizes h
  have hnames : (recastAll (commitGroups sim.output time step sizes sim.cells).cells rules).map
      (·.partition.name) = (commitGroups sim.output time step sizes sim.cells).cells.map
        (·.partition.name) := map_recastAll (h.trans hcells) fun _ _ => rfl
  rw [commit_reply, commit_reply]
  simp only [Simulation.recast, sizes] at hdone hnames ⊢
  rw [hdone, hnames]
  rfl

theorem finishStep_recast (h : rules.length = sim.cells.length) :
    (sim.recast rules).finishStep = sim.finishStep.mapNext fun next => next.recast rules := by
  have htimeline : (sim.recast rules).timeline = sim.timeline := rfl
  simp only [finishStep, htimeline, commit_recast h]
  rfl

theorem discardPending_recast (sim : Simulation ρ τ) (rules : List σ) :
    (sim.recast rules).discardPending = sim.discardPending.recast rules := by
  simp only [discardPending, Simulation.recast, recastAll, List.map_zipWith, List.zipWith_map_left]
  rfl

/-! ## The start -/

theorem beginCells_recast (output : Output) (time : Float) {first : List ρ} {rules : List σ}
    (h : rules.length = first.length) (parts : List (PartitionPlan × Window)) (index : Nat) :
    beginCells output time index (rules.zip parts) =
      ((beginCells output time index (first.zip parts)).1.map fun cells => recastAll cells rules,
        (beginCells output time index (first.zip parts)).2) := by
  induction parts generalizing first rules index with
  | nil => simp [beginCells, recastAll, Except.map]
  | cons part parts ih =>
      cases first with
      | nil =>
          rw [List.eq_nil_of_length_eq_zero h]
          rfl
      | cons rule rest =>
          obtain ⟨other, later, rfl⟩ := List.exists_cons_of_length_eq_add_one h
          rw [List.length_cons, List.length_cons, Nat.add_right_cancel_iff] at h
          obtain ⟨p, window⟩ := part
          have hbegin : ∀ {κ : Type} (rule : κ), (makePartition index p rule).begin output p.initial time =
              ⟨(output.offer ⟨p.name, time, p.initial⟩ 0).1, makePartition index p rule,
                (output.offer ⟨p.name, time, p.initial⟩ 0).2⟩ := fun _ => rfl
          simp only [List.zip_cons_cons, beginCells, hbegin, ih h]
          cases (output.offer ⟨p.name, time, p.initial⟩ 0).1 with
          | error stop => rfl
          | ok _ =>
              cases (beginCells output time (index + 1) (rest.zip parts)).1 <;> rfl

/-- Two behaviours that differ in their rules start simulations that differ in their rules. -/
theorem start_recast {plan : Plan} {behaviour : Behaviour ρ τ} {other : Behaviour σ τ}
    (hrules : other.rules.length = behaviour.rules.length) (houtput : other.output = behaviour.output)
    (hstop : other.stop = behaviour.stop) (hpace : other.pace = behaviour.pace) :
    start plan other =
      ((start plan behaviour).1.map fun sim => sim.recast other.rules, (start plan behaviour).2) := by
  have hprepare : prepare plan other = prepare plan behaviour := by
    simp only [prepare, hrules]
  unfold start
  rw [hprepare]
  cases prepare plan behaviour with
  | error stop => rfl
  | ok parts =>
      obtain ⟨schedule, windows, timeline⟩ := parts
      simp only [houtput, beginCells_recast behaviour.output plan.startTime hrules]
      cases (beginCells behaviour.output plan.startTime 0
        (behaviour.rules.zip (plan.partitions.zip windows))).1 with
      | error stop => rfl
      | ok cells =>
          simp only [Except.map, hstop, hpace]
          rfl

end Simulation

/-! ## The compute phase -/

section Compute

variable [UpdateRule ρ] [UpdateRule σ]

theorem Progress.visit_recast {progress : Progress ρ} {rules : List σ} {view : View} {g i : Nat}
    {cell : Cell ρ} {rule after : σ} (hcell : progress.cells[i]? = some cell)
    (hrule : rules[i]? = some rule) (hhalt : progress.haltOf g = none)
    (hcompute : (cell.partition.recast rule).compute view (progress.inbox cell.partition.feeds) =
      (cell.partition.compute view (progress.inbox cell.partition.feeds)).mapNext
        fun next => next.recast after) :
    (progress.recast rules).visit view g i = (progress.visit view g i).recast (rules.set i after) := by
  have hother : (progress.recast rules).cells[i]? = some (cell.recast rule) :=
    getElem?_recastAll hcell hrule
  have hrunning : (progress.recast rules).haltOf g = none := hhalt
  have hreply : (cell.recast rule).partition.compute view
      ((progress.recast rules).inbox (cell.recast rule).partition.feeds) = _ := hcompute
  rw [visit_eq view hcell hhalt, visit_eq view hother hrunning, hreply]
  simp only [Progress.recast, Reply.mapNext, recastAll_set]
  rfl

/-- What holds of two phases before any visit and is kept by every visit to both holds of both phases. -/
theorem Simulation.computeAll_induction₂ {υ : Type} (sim : Simulation ρ τ) (other : Simulation σ υ)
    (hschedule : other.schedule = sim.schedule) {motive : List Nat → Progress ρ → Progress σ → Prop}
    (hstart : motive [] (Progress.start sim.cells sim.schedule.ranges.length)
      (Progress.start other.cells sim.schedule.ranges.length))
    (hvisit : ∀ done i after p q, sim.schedule.order = done ++ i :: after → motive done p q →
      motive (done ++ [i]) (p.visit sim.view (groupOf sim.schedule.ranges i) i)
        (q.visit other.view (groupOf sim.schedule.ranges i) i)) :
    motive sim.schedule.order sim.computeAll other.computeAll := by
  have hall : ∀ after done p q, sim.schedule.order = done ++ after → motive done p q →
      motive sim.schedule.order
        (after.foldl (fun p i => p.visit sim.view (groupOf sim.schedule.ranges i) i) p)
        (after.foldl (fun q i => q.visit other.view (groupOf sim.schedule.ranges i) i) q) := by
    intro after
    induction after with
    | nil =>
        intro done p q horder hdone
        rw [List.append_nil] at horder
        exact horder ▸ hdone
    | cons i after ih =>
        intro done p q horder hdone
        refine ih (done ++ [i]) _ _ ?_ (hvisit done i after p q horder hdone)
        rw [horder, List.append_assoc, List.singleton_append]
  have hother : other.computeAll = sim.schedule.order.foldl
      (fun q i => q.visit other.view (groupOf sim.schedule.ranges i) i)
      (Progress.start other.cells sim.schedule.ranges.length) := by
    rw [computeAll, hschedule]
  rw [hother]
  exact hall sim.schedule.order [] _ _ rfl hstart

end Compute

end Tandem
