import Tandem.Proofs.Audit.Check
import Tandem.Proofs.Phase
import Tandem.Proofs.Recast

/-!
# Compute phases under audit

In a phase in which every audit finds the window that it expects, audits are noticed only where something is
wrong. As long as all partitions compute finite states and all windows can be read, a phase under audit comes
to what the phase without audits comes to, and each audit is a state ahead of its window after it. Otherwise
the phase under audit fails.
-/

namespace Tandem

variable {ρ τ : Type}

/-- Row offsets of the window do not wrap. -/
def Window.Addressable (window : Window) : Prop := window.width * window.depth < Word.count

def Plan.Addressable (plan : Plan) : Prop := ∀ p ∈ plan.partitions, p.width * p.depth < Word.count

instance : DecidablePred Plan.Addressable := fun plan =>
  inferInstanceAs (Decidable (∀ p ∈ plan.partitions, p.width * p.depth < Word.count))

theorem Plan.Fits.addressable_iff {plan : Plan} {cells : List (Cell ρ)} (h : plan.Fits cells) :
    (∀ cell ∈ cells, cell.window.Addressable) ↔ plan.Addressable := by
  have hsizes : cells.map (fun cell => cell.window.width * cell.window.depth) =
      plan.partitions.map fun p => p.width * p.depth := h.map_eq fun cell p i hconforms => by
    rw [hconforms.width, hconforms.depth]
  have hcells : (∀ size ∈ cells.map (fun cell => cell.window.width * cell.window.depth),
      size < Word.count) ↔ ∀ cell ∈ cells, cell.window.Addressable := List.forall_mem_map
  rw [← hcells, hsizes]
  exact List.forall_mem_map

namespace Cell

def expected (cell : Cell ρ) : Window :=
  match cell.partition.pending with
  | none => cell.window
  | some state => cell.window.recorded state

/-- The rule of the cell under an audit that has seen all states of the partition. -/
def auditor (cell : Cell ρ) : Audited ρ := ⟨cell.partition.rule, cell.partition.name, some cell.expected⟩

/-- Nothing is pending, and the window is in order and has no NaN in it. -/
structure Clean (cell : Cell ρ) : Prop where
  idle : cell.partition.pending = none
  shaped : cell.window.Shaped
  numeric : State.Numeric cell.window.values

theorem Clean.auditor_eq {cell : Cell ρ} (h : cell.Clean) :
    cell.auditor = ⟨cell.partition.rule, cell.partition.name, some cell.window⟩ := by
  rw [auditor, expected, h.idle]

theorem auditor_recorded {cell : Cell ρ} {state : State} (h : cell.partition.pending = some state) :
    (cell.recorded state).auditor = cell.auditor := by
  rw [auditor, auditor, expected, expected, h]
  rfl

end Cell

/-! ## One partition -/

namespace Partition

theorem checkWidth_eq {name : String} {index : Nat} {view : View} {window : Window} {state : State}
    (hwindow : view.windows[index]? = some window) :
    checkWidth name index view state =
      if state.length ≠ window.width then
        .error (.fault (.wrongWidth name view.timeline.next state.length window.width))
      else .ok state := by
  simp only [checkWidth, View.window, hwindow, bind, Except.bind, liftM, monadLift, MonadLift.monadLift,
    Except.mapError]
  rfl

end Partition

namespace Cell.Clean

variable [UpdateRule ρ] {cell : Cell ρ} {view : View}

theorem callRule (h : cell.Clean) (hwindow : view.windows[cell.partition.index]? = some cell.window) :
    let reply := Partition.callRule view cell.partition
    let audited := Partition.callRule view (cell.partition.recast cell.auditor)
    (∀ state, audited.result = .ok state →
      reply.result = .ok state ∧ State.Finite state ∧ cell.window.Addressable) ∧
    ∀ state, reply.result = .ok state → State.Finite state → cell.window.Addressable →
      audited = reply.mapNext fun next => next.recast (Cell.auditor ⟨next, cell.window⟩) := by
  rw [h.auditor_eq]
  simp only [Partition.callRule, Partition.recast, Audited.advance_eq rfl rfl hwindow h.shaped]
  cases (UpdateRule.advance cell.partition.params cell.partition.index view cell.partition.rule).result with
  | error stop => exact ⟨fun _ h => (by cases h), fun _ h => (by cases h)⟩
  | ok state =>
      let next := (UpdateRule.advance cell.partition.params cell.partition.index view
        cell.partition.rule).next
      have hsound : Audited.check state cell.window view.timeline.next
          ⟨next, cell.partition.name, some cell.window⟩ = .ok () ↔ _ :=
        Audited.check_self_eq_ok_iff h.shaped h.numeric
      have hchecked : Partition.checkWidth cell.partition.name cell.partition.index view state = _ :=
        Partition.checkWidth_eq hwindow
      dsimp only
      cases hcheck : Audited.check state cell.window view.timeline.next
          (⟨next, cell.partition.name, some cell.window⟩ : Audited ρ) with
      | error stop =>
          refine ⟨fun _ h => (by cases h), fun found hfound hfinite hfit => ?_⟩
          by_cases hwidth : state.length = cell.window.width
          · rw [hchecked, if_neg (not_not_intro hwidth)] at hfound
            obtain rfl := Except.ok.inj hfound
            cases hcheck.symm.trans (hsound.2 ⟨hfinite, hwidth, hfit⟩)
          · rw [hchecked, if_pos hwidth] at hfound
            cases hfound
      | ok _ =>
          obtain ⟨hfinite, hwidth, hfit⟩ := hsound.1 hcheck
          rw [hchecked, if_neg (not_not_intro hwidth)]
          dsimp only
          rw [hchecked, if_neg (not_not_intro hwidth)]
          refine ⟨fun found hfound => ?_, fun _ _ _ _ => rfl⟩
          cases hfound
          exact ⟨rfl, hfinite, hfit⟩

/-- What a partition computes under audit: the same as without one, if its state is finite and its window can
be read, and else nothing. -/
theorem compute (h : cell.Clean) (hwindow : view.windows[cell.partition.index]? = some cell.window)
    (inbox : Inbox) :
    let reply := cell.partition.compute view inbox
    let audited := (cell.partition.recast cell.auditor).compute view inbox
    (∀ state, audited.result = .ok state →
      reply.result = .ok state ∧ State.Finite state ∧ cell.window.Addressable) ∧
    ∀ state, reply.result = .ok state → State.Finite state → cell.window.Addressable →
      audited = reply.mapNext fun next => next.recast (Cell.auditor ⟨next, cell.window⟩) := by
  intro reply audited
  cases hrefresh : Partition.refresh cell.partition.name cell.partition.feeds inbox cell.partition.params with
  | mk result params =>
      have haudited : Partition.refresh (cell.partition.recast cell.auditor).name
        (cell.partition.recast cell.auditor).feeds inbox (cell.partition.recast cell.auditor).params =
          (result, params) := hrefresh
      cases result with
      | error stop =>
          simp only [reply, audited, Partition.compute_of_refresh_error view _ hrefresh,
            Partition.compute_of_refresh_error view _ haudited]
          exact ⟨nofun, nofun⟩
      | ok _ =>
          simp only [reply, audited, Partition.compute_of_refresh_ok view _ hrefresh,
            Partition.compute_of_refresh_ok view _ haudited]
          have hfed : Cell.Clean ⟨{ cell.partition with params := params }, cell.window⟩ :=
            ⟨h.idle, h.shaped, h.numeric⟩
          exact hfed.callRule hwindow

end Cell.Clean

/-! ## The whole phase -/

namespace Progress

variable [UpdateRule ρ]

theorem haltOf_visit_ne_none {view : View} {progress : Progress ρ} {g i k : Nat}
    (h : progress.haltOf k ≠ none) : (progress.visit view g i).haltOf k ≠ none := by
  cases hhalt : progress.haltOf g with
  | some stop => rwa [visit_of_halted hhalt]
  | none =>
      have hne : g ≠ k := fun heq => h (heq ▸ hhalt)
      cases hcell : progress.cells[i]? with
      | none => rwa [Progress.visit, hcell]
      | some cell =>
          rw [visit_eq view hcell hhalt]
          unfold haltOf at h ⊢
          dsimp only
          split
          · exact h
          · rwa [List.getElem?_set_ne hne]

theorem sentBy_visit_of_other {view : View} {progress : Progress ρ} {g i j : Nat} (hne : j ≠ i) :
    (progress.visit view g i).sentBy j = progress.sentBy j := by
  cases hhalt : progress.haltOf g with
  | some stop => rw [visit_of_halted hhalt]
  | none =>
      cases hcell : progress.cells[i]? with
      | none => rw [Progress.visit, hcell]
      | some cell => exact sentBy_visit_of_ne hcell hhalt hne

/-- Nothing has gone wrong so far in a phase and in the same phase under audit. -/
structure InStep (cells : List (Cell ρ)) (done : List Nat) (p : Progress ρ) (q : Progress (Audited ρ)) :
    Prop where
  same : q = p.recast (p.cells.map Cell.auditor)
  running : ∀ g, p.haltOf g = none
  finite : ∀ i state, p.sentBy i = some state → State.Finite state
  addressable : ∀ i ∈ done, ∀ cell, cells[i]? = some cell → cell.window.Addressable

/-- The phase under audit has failed, and not without cause. -/
structure Spoilt (cells : List (Cell ρ)) (p : Progress ρ) (q : Progress (Audited ρ)) : Prop where
  halted : ∃ g, q.haltOf g ≠ none
  cause : (∃ g, p.haltOf g ≠ none) ∨ (∃ i state, p.sentBy i = some state ∧ ¬ State.Finite state) ∨
    ∃ cell ∈ cells, ¬ cell.window.Addressable

variable {view : View} {cells : List (Cell ρ)} {ranges : List Range} {done : List Nat} {p : Progress ρ}
  {q : Progress (Audited ρ)} {i g : Nat} {cell : Cell ρ}

omit [UpdateRule ρ] in
theorem InStep.start (cells : List (Cell ρ)) (groups : Nat) :
    InStep cells [] (start cells groups) (start (recastAll cells (cells.map Cell.auditor)) groups) where
  same := by simp [Progress.start, Progress.recast, length_recastAll]
  running := fun g => haltOf_start cells groups g
  finite := by simp
  addressable := by simp

theorem Spoilt.visit (h : Spoilt cells p q) (hunsent : p.sentBy i = none) :
    Spoilt cells (p.visit view g i) (q.visit view g i) := by
  obtain ⟨⟨k, hk⟩, hcause⟩ := h
  refine ⟨⟨k, haltOf_visit_ne_none hk⟩, ?_⟩
  rcases hcause with ⟨k, hk⟩ | ⟨j, state, hsent, hinfinite⟩ | hwrap
  · exact Or.inl ⟨k, haltOf_visit_ne_none hk⟩
  · have hne : j ≠ i := fun heq => nomatch (heq ▸ hsent).symm.trans hunsent
    exact Or.inr (Or.inl ⟨j, state, (sentBy_visit_of_other hne).trans hsent, hinfinite⟩)
  · exact Or.inr (Or.inr hwrap)

theorem InStep.visit (h : InStep cells done p q) (hvisited : Visited view cells ranges done p)
    (hcell : cells[i]? = some cell) (hfresh : i ∉ done) (hg : g < ranges.length) (hclean : cell.Clean)
    (hwindow : view.windows[cell.partition.index]? = some cell.window) :
    InStep cells (done ++ [i]) (p.visit view g i) (q.visit view g i) ∨
      Spoilt cells (p.visit view g i) (q.visit view g i) := by
  have hlt := (List.getElem?_eq_some_iff.1 hcell).1
  have hbefore : p.cells[i]? = some cell := (hvisited.untouched i hfresh).trans hcell
  have hrule : (p.cells.map Cell.auditor)[i]? = some cell.auditor := by rw [List.getElem?_map, hbefore]; rfl
  have hhalt := h.running g
  have hi : i < p.sent.length := hvisited.sentCount ▸ hlt
  have hhalted : g < p.halted.length := hvisited.haltCount ▸ hg
  obtain ⟨hpassed, hsame⟩ := hclean.compute hwindow (p.inbox cell.partition.feeds)
  rw [h.same]
  have hother : (p.recast (p.cells.map Cell.auditor)).cells[i]? = some (cell.recast cell.auditor) :=
    getElem?_recastAll hbefore hrule
  cases haudited : ((cell.partition.recast cell.auditor).compute view
      (p.inbox cell.partition.feeds)).result with
  | ok state =>
      obtain ⟨hresult, hfinite, hfit⟩ := hpassed state haudited
      refine Or.inl ⟨?_, fun k => ?_, fun j found hfound => ?_, fun j hj other hj' => ?_⟩
      · rw [visit_recast hbefore hrule hhalt (hsame state hresult hfinite hfit)]
        congr 1
        rw [visit_eq view hbefore hhalt, List.map_set]
      · rw [haltOf_visit_of_ok hbefore hhalt hresult]
        exact h.running k
      · rw [sentBy_visit_of_ok hbefore hhalt hi hresult] at hfound
        split at hfound
        · exact Option.some.inj hfound ▸ hfinite
        · exact h.finite j found hfound
      · rcases List.mem_append.1 hj with hj | hj
        · exact h.addressable j hj other hj'
        · rw [List.mem_singleton.1 hj] at hj'
          exact Option.some.inj (hcell.symm.trans hj') ▸ hfit
  | error stop =>
      refine Or.inr ⟨⟨g, ?_⟩, ?_⟩
      · rw [haltOf_visit_of_error hother hhalt hhalted haudited, if_pos rfl]
        exact nofun
      · cases hresult : (cell.partition.compute view (p.inbox cell.partition.feeds)).result with
        | error first =>
            refine Or.inl ⟨g, ?_⟩
            rw [haltOf_visit_of_error hbefore hhalt hhalted hresult, if_pos rfl]
            exact nofun
        | ok state =>
            refine Or.inr ?_
            by_cases hfinite : State.Finite state
            · refine Or.inr ⟨cell, List.mem_of_getElem? hcell, fun hfit => ?_⟩
              rw [hsame state hresult hfinite hfit, Reply.mapNext, hresult] at haudited
              cases haudited
            · refine Or.inl ⟨i, state, ?_, hfinite⟩
              rw [sentBy_visit_of_ok hbefore hhalt hi hresult, if_pos rfl]

end Progress

namespace Simulation

/-- The simulation under audit, each audit having seen all states so far. -/
def underAudit (sim : Simulation ρ τ) : Simulation (Audited ρ) τ := sim.recast (sim.cells.map Cell.auditor)

theorem view_underAudit (sim : Simulation ρ τ) : sim.underAudit.view = sim.view :=
  view_recast (List.length_map _)

variable [UpdateRule ρ] {plan : Plan} {sim : Simulation ρ τ}

theorem inStep_or_spoilt (hfits : plan.Fits sim.cells) (hschedule : plan.schedule = .ok sim.schedule)
    (hclean : ∀ cell ∈ sim.cells, cell.Clean) :
    Progress.InStep sim.cells sim.schedule.order sim.computeAll sim.underAudit.computeAll ∨
      Progress.Spoilt sim.cells sim.computeAll sim.underAudit.computeAll := by
  have hsuits := Plan.schedule_suits hschedule hfits.feeds_eq
  refine (sim.computeAll_induction₂ sim.underAudit rfl (motive := fun done p q =>
    Progress.Visited sim.view sim.cells sim.schedule.ranges done p ∧
      (Progress.InStep sim.cells done p q ∨ Progress.Spoilt sim.cells p q))
    ⟨Progress.visited_start _ _ _, Or.inl (.start _ _)⟩ ?_).2
  rintro done i after p q horder ⟨hvisited, hsteps⟩
  refine ⟨hvisited.visit_next hsuits horder, ?_⟩
  rw [view_underAudit]
  have hfresh := hsuits.not_mem_done horder
  have hlt := hsuits.lt_of_eq horder
  have hcell := List.getElem?_eq_getElem hlt
  obtain ⟨_, _, hconforms⟩ := hfits.exists_partition hcell
  have hwindow : sim.view.windows[sim.cells[i].partition.index]? = some sim.cells[i].window := by
    rw [hconforms.index, view, windows, List.getElem?_map, hcell]
    rfl
  rcases hsteps with hsteps | hspoilt
  · exact hsteps.visit hvisited hcell hfresh (hsuits.groupOf_lt hlt)
      (hclean _ (List.mem_of_getElem? hcell)) hwindow
  · exact Or.inr (hspoilt.visit (hvisited.unsent i hfresh))

/-- A phase succeeds under audit exactly if it succeeds, all its states are finite, and all windows can be
read; and then it comes to the same. -/
theorem compute_underAudit (sim : Simulation ρ τ) (hfits : plan.Fits sim.cells)
    (hschedule : plan.schedule = .ok sim.schedule) (hclean : ∀ cell ∈ sim.cells, cell.Clean) :
    (sim.underAudit.compute.result = .ok () ↔ sim.compute.result = .ok () ∧
      (∀ state ∈ sim.newStates, State.Finite state) ∧ plan.Addressable) ∧
    (sim.underAudit.compute.result = .ok () →
      sim.underAudit.computeAll = sim.computeAll.recast (sim.computeAll.cells.map Cell.auditor)) := by
  have hsuits := Plan.schedule_suits hschedule hfits.feeds_eq
  rw [← hfits.addressable_iff]
  rcases inStep_or_spoilt hfits hschedule hclean with hsteps | ⟨⟨g, hg⟩, hcause⟩
  · have hok : sim.underAudit.compute.result = .ok () := by
      refine compute_result_eq_ok_iff_running.2 fun g => ?_
      rw [hsteps.same]
      exact hsteps.running g
    refine ⟨iff_of_true hok ⟨compute_result_eq_ok_iff_running.2 hsteps.running, fun state hstate => ?_,
      fun cell hcell => ?_⟩, fun _ => hsteps.same⟩
    · obtain ⟨message, hmessage, rfl⟩ := List.mem_map.1 hstate
      obtain ⟨i, hi⟩ := List.mem_iff_getElem?.1 hmessage
      cases message with
      | none => simp [State.Finite]
      | some state => exact hsteps.finite i state (by rw [Progress.sentBy, hi]; rfl)
    · obtain ⟨i, hi⟩ := List.mem_iff_getElem?.1 hcell
      exact hsteps.addressable i (hsuits.mem_order.2 (List.getElem?_eq_some_iff.1 hi).1) cell hi
  · have hfails : ¬ sim.underAudit.compute.result = .ok () := fun h => hg (compute_result_eq_ok_iff_running.1 h g)
    refine ⟨iff_of_false hfails ?_, fun h => absurd h hfails⟩
    rintro ⟨hcompute, hfinite, hfit⟩
    rcases hcause with ⟨k, hk⟩ | ⟨i, state, hsent, hinfinite⟩ | ⟨cell, hcell, hwrap⟩
    · exact hk (compute_result_eq_ok_iff_running.1 hcompute k)
    · exact hinfinite (hfinite state (List.mem_of_getElem? (getElem?_newStates hsent)))
    · exact hwrap (hfit cell hcell)

/-- The audit of partition `i` itself stops the partition with `stop`, after the rule inside has answered with
a state. -/
inductive AuditStops (sim : Simulation (Audited ρ) τ) (i : Nat) : Stop → Prop
  | intro {cell : Cell (Audited ρ)} {params : Params} {answer : Reply Emission (Audited ρ) State}
      {state : State} {stop : Stop} (hcell : sim.cells[i]? = some cell)
      (hcalls : sim.Calls i params answer)
      (hinside : (UpdateRule.advance params cell.partition.index sim.view
        cell.partition.rule.rule).result = .ok state)
      (hstop : answer.result = .error stop) : AuditStops sim i stop

/-- Audits that find the windows they expect have nothing to say about them. -/
theorem complaint_of_auditStops (sim : Simulation ρ τ) (hfits : plan.Fits sim.cells)
    (hclean : ∀ cell ∈ sim.cells, cell.Clean) {i : Nat} {stop : Stop} (h : sim.underAudit.AuditStops i stop) :
    ∃ p state, plan.partitions[i]? = some p ∧
      Audited.Complaint p.name sim.view.timeline.next p.width state stop := by
  obtain @⟨found, params, answer, state, stop, hcell, ⟨hfound, -, -⟩, hinside, hstop⟩ := h
  obtain rfl := Option.some.inj (hcell.symm.trans hfound)
  have hlt : i < sim.cells.length := by
    rw [← length_recastAll (List.length_map Cell.auditor)]
    exact (List.getElem?_eq_some_iff.1 hcell).1
  have hbare := List.getElem?_eq_getElem hlt
  have hrule : (sim.cells.map Cell.auditor)[i]? = some sim.cells[i].auditor := by
    rw [List.getElem?_map, hbare]
    rfl
  obtain rfl := Option.some.inj (hcell.symm.trans (getElem?_recastAll hbare hrule))
  obtain ⟨p, hp, hconforms⟩ := hfits.exists_partition hbare
  have hcellClean := hclean _ (List.mem_of_getElem? hbare)
  have hwindow : sim.view.windows[sim.cells[i].partition.index]? = some sim.cells[i].window := by
    rw [hconforms.index, view, windows, List.getElem?_map, hbare]
    rfl
  rw [view_underAudit] at hinside hstop
  have hanswer : (UpdateRule.advance params sim.cells[i].partition.index sim.view
      sim.cells[i].auditor).result = .error stop := hstop
  rw [hcellClean.auditor_eq, Audited.advance_eq rfl rfl hwindow hcellClean.shaped] at hanswer
  have hstate : (UpdateRule.advance params sim.cells[i].partition.index sim.view
      sim.cells[i].partition.rule).result = .ok state := hinside
  simp only [hstate] at hanswer
  refine ⟨p, state, hp, ?_⟩
  split at hanswer
  next first hcheck =>
    cases hanswer
    rw [← hconforms.name, ← hconforms.width]
    exact Audited.check_self_eq_error hcellClean.numeric hcheck
  next => cases hanswer

end Simulation

end Tandem
