import Tandem.Proofs.Audit.Phase
import Tandem.Proofs.Counterparts
import Tandem.Proofs.Deliveries.Offers
import Tandem.Proofs.Registry.Resolution

/-!
# Simulations under audit

An audit keeps a window of its own, to which it adds a state in the compute phase, while the partition's
window gets it in the commit phase. Between sound steps the two windows are the same. So audits go unnoticed
up to the first step in which a rule goes wrong, and this step fails under audit, with one reservation: an
audit reads all rows of a window, and it also fails where the size of a window wraps.
-/

namespace Tandem

variable {ρ τ : Type}

def Fault.blamesWindow : Fault → Bool
  | .windowShape _ _ _ => true
  | .rowNotKept _ _ _ _ _ => true
  | _ => false

def Behaviour.underAudit (behaviour : Behaviour ρ τ) : Behaviour (Audited ρ) τ where
  rules := behaviour.rules.map Audited.new
  output := behaviour.output
  stop := behaviour.stop
  pace := behaviour.pace

namespace Simulation

variable [UpdateRule ρ] [Pace τ] {plan : Plan} {behaviour : Behaviour ρ τ} {sim : Simulation ρ τ}

/-- In the next step no rule goes wrong, and whatever is computed is committed: the pace may refuse, and so
may the output, as long as it does not crash. -/
structure Sound (sim : Simulation ρ τ) : Prop where
  computes : ¬ sim.ComputeFails
  finite : ∀ commitment ∈ sim.commitments, ∀ state ∈ commitment.states, State.Finite state
  commits : sim.CommitsCalmly

theorem sound_of_ok (hfits : plan.Fits sim.cells) (hschedule : plan.schedule = .ok sim.schedule)
    {report : StepReport} (hstep : sim.step.result = .ok report)
    (hfinite : ∀ commitment ∈ sim.commitments, ∀ state ∈ commitment.states, State.Finite state) :
    sim.Sound :=
  ⟨not_computeFails_of_ok hstep, hfinite, commitsCalmly_of_ok hfits hschedule hstep⟩

/-! ## One step -/

theorem Sound.step_cells (h : sim.Sound) (hfits : plan.Fits sim.cells)
    (hschedule : plan.schedule = .ok sim.schedule) (increment : Float) (pace : τ)
    (hpace : Pace.next sim.timeline.beginStep sim.pace = (.ok increment, pace))
    (hcompute : (sim.begun increment pace).compute.result = .ok ()) :
    sim.step.next.cells = (sim.begun increment pace).computed.cells.map fun cell =>
      cell.recorded (cell.partition.pending.getD []) :=
  step_cells_of_success hfits hschedule hpace hcompute (h.commits increment pace hpace hcompute)

theorem Sound.clean (h : sim.Sound) (hfits : plan.Fits sim.cells)
    (hschedule : plan.schedule = .ok sim.schedule) (hclean : ∀ cell ∈ sim.cells, cell.Clean) :
    ∀ cell ∈ sim.step.next.cells, cell.Clean := by
  have hcommit := h.step_cells hfits hschedule
  have hway := sim.way_step
  generalize sim.step = reply at hcommit hway ⊢
  cases hway with
  | refused => exact hclean
  | crashed => exact hclean
  | failed hpace hcompute => exact absurd ⟨_, _, _, hpace, hcompute⟩ h.computes
  | @finished increment pace hpace hcompute =>
      let begun := sim.begun increment pace
      intro next hnext
      rw [hcommit increment pace hpace hcompute] at hnext
      obtain ⟨after, hafter, rfl⟩ := List.mem_map.1 hnext
      obtain ⟨i, hi⟩ := List.mem_iff_getElem?.1 hafter
      have hlt : i < sim.cells.length := length_computed begun ▸ (List.getElem?_eq_some_iff.1 hi).1
      have hcell := List.getElem?_eq_getElem hlt
      obtain ⟨p, hp, hconforms⟩ := hfits.exists_partition hcell
      obtain ⟨state, params, hstate, hwidth, -, -, hfound⟩ :=
        computed_of_success begun hfits hschedule hcompute hcell hp
      obtain rfl := Option.some.inj (hi.symm.trans hfound)
      have hbefore := hclean _ (List.mem_of_getElem? hcell)
      have hfinite : State.Finite state := h.finite ⟨begun.newStates, increment⟩
        (mem_commitments_iff.2 ⟨pace, hpace, hcompute, rfl⟩) state (List.mem_of_getElem? hstate)
      exact ⟨rfl, hbefore.shaped.recorded hwidth, Window.numeric_recorded hbefore.numeric hfinite.numeric⟩

/-- A sound step comes to the same under audit, if all windows can be read or no rule is called. -/
theorem Sound.step_underAudit (h : sim.Sound) (hfits : plan.Fits sim.cells)
    (hschedule : plan.schedule = .ok sim.schedule) (hclean : ∀ cell ∈ sim.cells, cell.Clean)
    (hfit : plan.Addressable ∨ sim.commitments = []) :
    sim.underAudit.step = sim.step.mapNext underAudit := by
  have hcommit := h.step_cells hfits hschedule
  have hway := sim.way_step
  generalize sim.step = reply at hcommit hway ⊢
  cases hway with
  | refused hpace =>
      have haudited : Pace.next sim.underAudit.timeline.beginStep sim.underAudit.pace = _ := hpace
      rw [step_of_refusal haudited]
      rfl
  | crashed hpace =>
      have haudited : Pace.next sim.underAudit.timeline.beginStep sim.underAudit.pace = _ := hpace
      rw [step_of_crash haudited]
      rfl
  | failed hpace hcompute => exact absurd ⟨_, _, _, hpace, hcompute⟩ h.computes
  | @finished increment pace hpace hcompute =>
      let begun := sim.begun increment pace
      have haudited : Pace.next sim.underAudit.timeline.beginStep sim.underAudit.pace = _ := hpace
      have hmem : ⟨begun.newStates, increment⟩ ∈ sim.commitments :=
        mem_commitments_iff.2 ⟨pace, hpace, hcompute, rfl⟩
      have hreadable : plan.Addressable := hfit.resolve_right fun hnone => by
        rw [hnone] at hmem
        cases hmem
      obtain ⟨hiff, hsame⟩ := compute_underAudit begun hfits hschedule hclean
      have hok : begun.underAudit.compute.result = .ok () := hiff.2 ⟨hcompute, h.finite _ hmem, hreadable⟩
      have hcomputed : begun.underAudit.computed = begun.computed.underAudit := by
        rw [computed, hsame hok]
        rfl
      have hahead : begun.computed.finishStep.next.cells.map Cell.auditor =
          begun.computed.cells.map Cell.auditor := by
        rw [hcommit increment pace hpace hcompute, List.map_map]
        refine List.map_congr_left fun cell hcell => ?_
        obtain ⟨state, hpending, -, -⟩ := ready_of_success begun hfits hschedule hcompute cell hcell
        rw [Function.comp_apply, hpending]
        exact Cell.auditor_recorded hpending
      have hfinish : begun.underAudit.computed.finishStep =
          begun.computed.finishStep.mapNext underAudit := by
        rw [hcomputed, underAudit, finishStep_recast (List.length_map _), ← hahead]
        rfl
      have hemitted : begun.underAudit.compute.emitted = begun.compute.emitted := by
        rw [compute_eq, hsame hok, compute_eq]
        rfl
      have hbegun : sim.underAudit.begun increment pace = begun.underAudit := rfl
      rw [step_of_success haudited hok, hbegun, hfinish, hemitted]
      rfl

/-! ## All steps up to the first failure -/

section Run

variable {outputs : Nat → Output}

theorem Sound.afterWith_clean (hattainable : Attainable plan behaviour sim)
    (hclean : ∀ cell ∈ sim.cells, cell.Clean) {k : Nat}
    (hsound : ∀ m < k, ((sim.afterWith outputs m).withOutput (outputs m)).Sound) :
    ∀ cell ∈ (sim.afterWith outputs k).cells, cell.Clean := by
  induction k with
  | zero => exact hclean
  | succ k ih =>
      obtain ⟨hfits, hschedule⟩ := (attainable_afterWith hattainable outputs k).fits
      have hbefore := ih fun m hm => hsound m (Nat.lt_succ_of_lt hm)
      exact (hsound k (Nat.lt_succ_self k)).clean hfits hschedule hbefore

theorem Sound.afterWith_underAudit (hattainable : Attainable plan behaviour sim)
    (hclean : ∀ cell ∈ sim.cells, cell.Clean) {k : Nat}
    (hsound : ∀ m < k, ((sim.afterWith outputs m).withOutput (outputs m)).Sound)
    (hfit : plan.Addressable ∨ ∀ m < k, ((sim.afterWith outputs m).withOutput (outputs m)).commitments = []) :
    sim.underAudit.afterWith outputs k = (sim.afterWith outputs k).underAudit := by
  induction k with
  | zero => rfl
  | succ k ih =>
      obtain ⟨hfits, hschedule⟩ := (attainable_afterWith hattainable outputs k).fits
      have hearlier := fun m hm => hsound m (Nat.lt_succ_of_lt hm)
      have hbefore := ih hearlier (hfit.imp_right fun hnone m hm => hnone m (Nat.lt_succ_of_lt hm))
      have hstep := (hsound k (Nat.lt_succ_self k)).step_underAudit hfits hschedule
        (afterWith_clean hattainable hclean hearlier)
        (hfit.imp_right fun hnone => hnone k (Nat.lt_succ_self k))
      rw [afterWith, hbefore, afterWith]
      exact congrArg Reply.next hstep

end Run

/-! ## The start -/

omit [Pace τ] in
theorem configureRules_underAudit {index : Nat} {given : List ρ} {cells : List (Cell ρ)}
    (h : configureRules plan index given = (.ok (), cells.map (·.partition.rule)))
    (hcells : ∀ (j : Nat) cell, cells[j]? = some cell → ∃ p, plan.partitions[index + j]? = some p ∧
      cell.partition.name = p.name ∧ cell.partition.pending = none ∧
      Window.new p.width p.depth p.initial = .ok cell.window) :
    configureRules plan index (given.map Audited.new) = (.ok (), cells.map Cell.auditor) := by
  induction given generalizing index cells with
  | nil =>
      obtain rfl : cells = [] := List.map_eq_nil_iff.1 (congrArg Prod.snd h).symm
      rfl
  | cons rule rest ih =>
      unfold configureRules at h
      split at h
      next next hrule =>
        cases cells with
        | nil => exact absurd (Prod.mk.inj h).2 (List.cons_ne_nil _ _)
        | cons cell later =>
            obtain ⟨hresult, hrules⟩ := Prod.mk.inj h
            obtain ⟨rfl, hrest⟩ := List.cons.inj hrules
            obtain ⟨p, hp, hname, hpending, hnew⟩ := hcells 0 cell rfl
            have hplan : plan.partition index = .ok p := Plan.partition_eq_ok hp
            have hconfigured : UpdateRule.configure index plan (Audited.new rule) =
                (.ok (), cell.auditor) := by
              show Audited.configure index plan (Audited.new rule) = _
              simp only [Audited.configure, Audited.new, hplan, hnew, hrule, Cell.auditor, Cell.expected,
                hpending, hname]
            have hlater := ih (Prod.ext hresult hrest) fun j next hnext => by
              rw [Nat.add_assoc, Nat.add_comm 1 j]
              exact hcells (j + 1) next hnext
            rw [List.map_cons, configureRules, hconfigured]
            simp only [hlater]
            rfl
      next => cases h

omit [UpdateRule ρ] [Pace τ] in
theorem pending_of_start {events : List Event} (h : start plan behaviour = (.ok sim, events)) :
    ∀ cell ∈ sim.cells, cell.partition.pending = none := by
  obtain ⟨-, -, -, windows, -, hcells⟩ := start_eq_ok h
  intro cell hcell
  obtain ⟨i, hi⟩ := List.mem_iff_getElem?.1 hcell
  rw [hcells, List.getElem?_mapIdx, Option.map_eq_some_iff] at hi
  obtain ⟨part, -, rfl⟩ := hi
  rfl

omit [UpdateRule ρ] [Pace τ] in
theorem clean_of_start {events : List Event} (h : start plan behaviour = (.ok sim, events))
    (hnumeric : ∀ p ∈ plan.partitions, State.Numeric p.initial) : ∀ cell ∈ sim.cells, cell.Clean := by
  obtain ⟨hfits, -⟩ := start_fits h
  intro cell hcell
  obtain ⟨i, hi⟩ := List.mem_iff_getElem?.1 hcell
  obtain ⟨p, hp, hconforms⟩ := hfits.exists_partition hi
  obtain ⟨found, hfound, -, hnew⟩ := cell_of_start h hp
  obtain rfl := Option.some.inj (hi.symm.trans hfound)
  exact ⟨pending_of_start h cell hcell, hconforms.shaped,
    Window.numeric_of_new hnew (hnumeric p (List.mem_of_getElem? hp))⟩

omit [Pace τ] in
theorem start_underAudit {given : Behaviour ρ τ} {events : List Event}
    (hconfigure : given.configure plan = (.ok (), behaviour))
    (hstart : start plan behaviour = (.ok sim, events)) :
    ∃ audited, given.underAudit.configure plan = (.ok (), audited) ∧
      start plan audited = (.ok sim.underAudit, events) := by
  obtain ⟨hfits, -⟩ := start_fits hstart
  let audited : Behaviour (Audited ρ) τ :=
    { given.underAudit with rules := sim.cells.map Cell.auditor }
  obtain ⟨hrules, hsame⟩ := Behaviour.configure_eq_ok.1 hconfigure
  rw [← rules_of_start hstart] at hrules
  have hconfigured : configureRules plan 0 (given.rules.map Audited.new) =
      (.ok (), sim.cells.map Cell.auditor) := by
    refine configureRules_underAudit hrules fun j cell hcell => ?_
    obtain ⟨p, hp, hconforms⟩ := hfits.exists_partition hcell
    obtain ⟨found, hfound, -, hnew⟩ := cell_of_start hstart hp
    obtain rfl := Option.some.inj (hcell.symm.trans hfound)
    exact ⟨p, (Nat.zero_add j).symm ▸ hp, hconforms.name,
      pending_of_start hstart cell (List.mem_of_getElem? hcell), hnew⟩
  have hcount : audited.rules.length = behaviour.rules.length := by
    rw [← rules_of_start hstart, List.length_map, List.length_map]
  refine ⟨audited, Behaviour.configure_eq_ok.2 ⟨hconfigured, rfl⟩, ?_⟩
  rw [start_recast hcount (congrArg Behaviour.output hsame).symm (congrArg Behaviour.stop hsame).symm
    (congrArg Behaviour.pace hsame).symm, hstart]
  rfl

/-! ## The first failure -/

omit [Pace τ] in
theorem Calls.unique {i : Nat} {params params' : Params} {answer answer' : Reply Emission ρ State}
    (h : sim.Calls i params answer) (h' : sim.Calls i params' answer') : answer = answer' := by
  obtain ⟨hcell, -, htaken⟩ := h
  obtain ⟨hcell', -, htaken'⟩ := h'
  obtain rfl := Option.some.inj (hcell.symm.trans hcell')
  obtain rfl := (Prod.mk.inj (htaken.symm.trans htaken')).2
  rfl

/-- In the compute phase some rule is called and goes wrong: it refuses, it crashes, or its state is not
finite or has the wrong width. -/
def Misbehaves (sim : Simulation ρ τ) : Prop :=
  ∃ i cell params answer, sim.cells[i]? = some cell ∧ sim.Calls i params answer ∧
    ∀ state, answer.result = .ok state → ¬ (State.Finite state ∧ state.length = cell.window.width)

theorem Misbehaves.shows (hfits : plan.Fits sim.cells) (hschedule : plan.schedule = .ok sim.schedule)
    {increment : Float} {pace : τ}
    (hpace : Pace.next sim.timeline.beginStep sim.pace = (.ok increment, pace))
    (h : (sim.begun increment pace).Misbehaves) :
    sim.ComputeFails ∨ ∃ commitment ∈ sim.commitments, ∃ state ∈ commitment.states,
      ¬ State.Finite state := by
  let begun := sim.begun increment pace
  obtain ⟨i, cell, params, answer, hcell, hcalls, hwrong⟩ := h
  by_cases hcompute : begun.compute.result = .ok ()
  · have hsuits : begun.schedule.Suits begun.cells := Plan.schedule_suits hschedule hfits.feeds_eq
    obtain ⟨p, hp, -⟩ := hfits.exists_partition hcell
    obtain ⟨params', answer', state, hcalls', hanswer, hstate⟩ := exists_call hsuits hcompute hcell
    obtain ⟨found, -, hfound, hwidth, -⟩ := computed_of_success begun hfits hschedule hcompute hcell hp
    obtain rfl := Option.some.inj (hstate.symm.trans hfound)
    refine Or.inr ⟨⟨begun.newStates, increment⟩, mem_commitments_iff.2 ⟨pace, hpace, hcompute, rfl⟩, state,
      List.mem_of_getElem? hstate, fun hfinite => hwrong state ?_ ⟨hfinite, hwidth⟩⟩
    rw [hcalls.unique hcalls', hanswer]
  · exact Or.inl (computeFails_iff.2 ⟨increment, pace, hpace, hcompute⟩)

theorem computeFails_underAudit_iff (sim : Simulation ρ τ) (hfits : plan.Fits sim.cells)
    (hschedule : plan.schedule = .ok sim.schedule) (hclean : ∀ cell ∈ sim.cells, cell.Clean) :
    sim.underAudit.ComputeFails ↔ sim.ComputeFails ∨ ∃ commitment ∈ sim.commitments,
      (∃ state ∈ commitment.states, ¬ State.Finite state) ∨ ¬ plan.Addressable := by
  have hphase : ∀ increment pace, (sim.begun increment pace).underAudit.compute.result = .ok () ↔ _ :=
    fun increment pace => (compute_underAudit (sim.begun increment pace) hfits hschedule hclean).1
  constructor
  · intro h
    obtain ⟨increment, pace, hpace, hfails⟩ := computeFails_iff.1 h
    have hcause : ¬ (sim.begun increment pace).underAudit.compute.result = .ok () := hfails
    rw [hphase] at hcause
    by_cases hcompute : (sim.begun increment pace).compute.result = .ok ()
    · refine Or.inr ⟨⟨(sim.begun increment pace).newStates, increment⟩,
        mem_commitments_iff.2 ⟨pace, hpace, hcompute, rfl⟩, ?_⟩
      by_contra hneither
      push Not at hneither
      exact hcause ⟨hcompute, hneither⟩
    · exact Or.inl (computeFails_iff.2 ⟨increment, pace, hpace, hcompute⟩)
  · intro h
    refine computeFails_iff.2 ?_
    rcases h with h | ⟨commitment, hmem, hcause⟩
    · obtain ⟨increment, pace, hpace, hfails⟩ := computeFails_iff.1 h
      exact ⟨increment, pace, hpace, fun hok => hfails ((hphase increment pace).1 hok).1⟩
    · obtain ⟨pace, hpace, hcompute, hstates⟩ := mem_commitments_iff.1 hmem
      refine ⟨_, pace, hpace, fun hok => ?_⟩
      obtain ⟨-, hfinite, hfit⟩ := (hphase _ pace).1 hok
      rcases hcause with ⟨state, hstate, hinfinite⟩ | hwrap
      · exact hinfinite (hfinite state (hstates ▸ hstate))
      · exact hwrap hfit

omit [Pace τ] in
/-- In a step that starts with nothing pending and no NaN no audit blames a window. -/
theorem blamesWindow_of_auditStops (sim : Simulation ρ τ) (hfits : plan.Fits sim.cells)
    (hclean : ∀ cell ∈ sim.cells, cell.Clean) {increment : Float} {pace : τ} {i : Nat} {fault : Fault}
    (h : (sim.underAudit.begun increment pace).AuditStops i (.fault fault)) : fault.blamesWindow = false := by
  have hbegun : sim.underAudit.begun increment pace = (sim.begun increment pace).underAudit := rfl
  rw [hbegun] at h
  obtain ⟨p, state, -, hcomplaint⟩ := complaint_of_auditStops (sim.begun increment pace) hfits hclean h
  cases hcomplaint <;> rfl

/-- As long as steps are sound and no size of a window wraps, a simulation and the same under audit have the
same windows and times. The first step in which a rule goes wrong fails under audit in its compute phase,
and up to it no audit blames a window. -/
theorem audits_go_unnoticed_up_to_first_failure {given : Behaviour ρ τ} {events : List Event}
    (hconfigure : given.configure plan = (.ok (), behaviour))
    (hstart : start plan behaviour = (.ok sim, events))
    (hnumeric : ∀ p ∈ plan.partitions, State.Numeric p.initial) (outputs : Nat → Output) :
    ∃ audited twin, given.underAudit.configure plan = (.ok (), audited) ∧
      start plan audited = (.ok twin, events) ∧
      let bare := fun m => (sim.afterWith outputs m).withOutput (outputs m)
      let watched := fun m => (twin.afterWith outputs m).withOutput (outputs m)
      (∀ m report, (bare m).step.result = .ok report →
        (∀ commitment ∈ (bare m).commitments, ∀ state ∈ commitment.states, State.Finite state) →
          (bare m).Sound) ∧
      ∀ k, (∀ m < k, (bare m).Sound) → (plan.Addressable ∨ ∀ m < k, (bare m).commitments = []) →
        (∀ m ≤ k, (watched m).windows = (bare m).windows ∧ (watched m).timeline = (bare m).timeline) ∧
        (∀ m < k, (watched m).step.result = (bare m).step.result ∧
          (watched m).step.emitted = (bare m).step.emitted) ∧
        ((watched k).ComputeFails ↔ (bare k).ComputeFails ∨ ∃ commitment ∈ (bare k).commitments,
          (∃ state ∈ commitment.states, ¬ State.Finite state) ∨ ¬ plan.Addressable) ∧
        (∀ increment pace,
          Pace.next (bare k).timeline.beginStep (bare k).pace = (.ok increment, pace) →
            ((bare k).begun increment pace).Misbehaves → (watched k).ComputeFails) ∧
        ∀ m ≤ k, ∀ increment pace i fault,
          ((watched m).begun increment pace).AuditStops i (.fault fault) → fault.blamesWindow = false := by
  obtain ⟨audited, haudited, htwin⟩ := start_underAudit hconfigure hstart
  have hattainable : Attainable plan behaviour sim := .start hstart
  have hclean := clean_of_start hstart hnumeric
  refine ⟨audited, sim.underAudit, haudited, htwin, ?_⟩
  intro bare watched
  have hfits : ∀ m, plan.Fits (bare m).cells ∧ plan.schedule = .ok (bare m).schedule :=
    fun m => (attainable_afterWith hattainable outputs m).fits
  refine ⟨fun m report hstep hfinite => sound_of_ok (hfits m).1 (hfits m).2 hstep hfinite,
    fun k hsound hfit => ?_⟩
  -- both simulations stand at the same place before each step up to the last
  have hplace : ∀ m ≤ k, (∀ cell ∈ (bare m).cells, cell.Clean) ∧ watched m = (bare m).underAudit := by
    intro m hm
    have hearlier : ∀ j < m, (bare j).Sound := fun j hj => hsound j (Nat.lt_of_lt_of_le hj hm)
    have hsame := Sound.afterWith_underAudit hattainable hclean hearlier
      (hfit.imp_right fun hnone j hj => hnone j (Nat.lt_of_lt_of_le hj hm))
    exact ⟨Sound.afterWith_clean hattainable hclean hearlier,
      congrArg (fun later => later.withOutput (outputs m)) hsame⟩
  obtain ⟨hcleanLast, hlast⟩ := hplace k (Nat.le_refl k)
  have hiff := computeFails_underAudit_iff (bare k) (hfits k).1 (hfits k).2 hcleanLast
  rw [← hlast] at hiff
  refine ⟨fun m hm => ?_, fun m hm => ?_, hiff, fun increment pace hpace hwrong => ?_,
    fun m hm increment pace i fault hstop => ?_⟩
  · rw [(hplace m hm).2]
    exact ⟨windows_recast (List.length_map _), rfl⟩
  · obtain ⟨hbefore, hsame⟩ := hplace m (Nat.le_of_lt hm)
    rw [hsame, (hsound m hm).step_underAudit (hfits m).1 (hfits m).2 hbefore
      (hfit.imp_right fun hnone => hnone m hm)]
    exact ⟨rfl, rfl⟩
  · exact hiff.2 ((hwrong.shows (hfits k).1 (hfits k).2 hpace).imp_right
      fun ⟨commitment, hmem, hinfinite⟩ => ⟨commitment, hmem, Or.inl hinfinite⟩)
  · obtain ⟨hbefore, hsame⟩ := hplace m hm
    rw [hsame] at hstop
    exact blamesWindow_of_auditStops (bare m) (hfits m).1 hbefore hstop

/-- A step that succeeds fails under audit where the size of a window wraps, and succeeds where none does. -/
theorem vastSimulation_fails_under_audit :
    (vastSimulation.step.result = .ok ⟨1, 0 + 1⟩ ∧
      ∃ audited twin, vastBehaviour.underAudit.configure vastPlan = (.ok (), audited) ∧
        start vastPlan audited = (.ok twin, []) ∧ twin.ComputeFails) ∧
    mirrorSimulation.step.result = .ok ⟨1, 0 + 1⟩ ∧
      ∃ audited twin, mirrorBehaviour.underAudit.configure mirrorPlan = (.ok (), audited) ∧
        start mirrorPlan audited = (.ok twin, []) ∧
          (twin.withOutput .silent).step.result = .ok ⟨1, 0 + 1⟩ := by
  refine ⟨⟨rfl, ?_⟩, rfl, ?_⟩
  · have hconfigure : vastBehaviour.configure vastPlan = (.ok (), vastBehaviour) := rfl
    have hstart : start vastPlan vastBehaviour = (.ok vastSimulation, []) := rfl
    obtain ⟨audited, twin, haudited, htwin, -, hsteps⟩ :=
      audits_go_unnoticed_up_to_first_failure hconfigure hstart (by decide) fun _ => .silent
    obtain ⟨-, -, hfails, -, -⟩ := hsteps 0 (by simp) (Or.inr (by simp))
    have hcommits : vastSimulation.commitments = [⟨[[5, 7], [3]], 1⟩] := rfl
    have hmem : ⟨[[5, 7], [3]], 1⟩ ∈ vastSimulation.commitments := hcommits ▸ List.mem_cons_self
    exact ⟨audited, twin, haudited, htwin, (computeFails_withOutput .silent).1
      (hfails.2 (Or.inr ⟨_, hmem, Or.inr (by decide)⟩))⟩
  · have hconfigure : mirrorBehaviour.configure mirrorPlan = (.ok (), mirrorBehaviour) := rfl
    have hstart : start mirrorPlan mirrorBehaviour = (.ok mirrorSimulation, []) := rfl
    obtain ⟨audited, twin, haudited, htwin, hsound, hsteps⟩ :=
      audits_go_unnoticed_up_to_first_failure hconfigure hstart (by decide) fun _ => .silent
    have hcommits : mirrorSimulation.commitments = [⟨[[7, 5], [5, 7]], 1⟩] := rfl
    have hfinite : ∀ commitment ∈ mirrorSimulation.commitments, ∀ state ∈ commitment.states,
        State.Finite state := by
      rw [hcommits]
      decide
    have hfirst := hsound 0 ⟨1, 0 + 1⟩ rfl hfinite
    obtain ⟨-, hsame, -, -, -⟩ := hsteps 1 (fun m hm => (Nat.lt_one_iff.1 hm) ▸ hfirst) (Or.inl (by decide))
    exact ⟨audited, twin, haudited, htwin, (hsame 0 Nat.one_pos).1⟩

end Simulation

end Tandem
