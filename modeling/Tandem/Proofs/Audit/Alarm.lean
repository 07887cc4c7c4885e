import Tandem.Proofs.Audit.Residue
import Tandem.Proofs.Crash

/-!
# False alarms

An audit records a state as soon as the partition has computed it. The window of the partition records the
state when the step commits it, and a step that aborts in its compute phase never does. From then on the audit
takes each past state for the one before it: it blames the window, which is as it should be, as soon as two
rows differ that it compares. `Simulation.History` follows both lists of states, step by step, and
`Mismatch` says at which row they first differ.
-/

namespace Tandem

variable {ρ τ : Type}

/-- Of the rows from row `count` down to row 1, row `d` is the first that two lists of states do not have in
common. -/
structure Mismatch (width : Nat) (found wanted : List State) (count d : Nat) : Prop where
  pos : 0 < d
  le : d ≤ count
  differs : (Window.rowAt width found d == Window.rowAt width wanted d) = false
  above : ∀ e, d < e → e ≤ count → (Window.rowAt width found e == Window.rowAt width wanted e) = true

namespace Audited

/-! ## Rows of two windows -/

section Rows

variable {name : String} {time : Float} {own shadow : Window}

theorem checkRows_eq_error {count : Nat} {stop : Stop}
    (h : checkRows name time own shadow count = .error stop) :
    (∃ crash, stop = .crash crash) ∨
      ∃ d found wanted, stop = .fault (.rowNotKept name time d found wanted) := by
  induction count with
  | zero => cases h
  | succ count ih =>
      rw [checkRows_succ] at h
      split at h
      next crash _ =>
        cases h
        exact Or.inl ⟨crash, rfl⟩
      next crash _ _ =>
        cases h
        exact Or.inl ⟨crash, rfl⟩
      next =>
        split at h
        · exact ih h
        · cases h
          exact Or.inr ⟨_, _, _, rfl⟩

/-- Rows that can all be read pass if they are the same in both windows, and the first that are not are
reported. -/
theorem checkRows_cases {width count : Nat} {found wanted : List State}
    (hown : ∀ d ≤ count, own.row d = .ok (Window.rowAt width found d))
    (hshadow : ∀ d ≤ count, shadow.row d = .ok (Window.rowAt width wanted d)) :
    (checkRows name time own shadow count = .ok () ∧ ∀ d, ¬ Mismatch width found wanted count d) ∨
      ∃ d, Mismatch width found wanted count d ∧ checkRows name time own shadow count =
        .error (.fault (.rowNotKept name time d (Window.rowAt width found d)
          (Window.rowAt width wanted d))) := by
  induction count with
  | zero => exact Or.inl ⟨rfl, fun d h => Nat.lt_irrefl 0 (Nat.lt_of_lt_of_le h.pos h.le)⟩
  | succ count ih =>
      have hbelow := ih (fun d hd => hown d (Nat.le_succ_of_le hd)) fun d hd => hshadow d (Nat.le_succ_of_le hd)
      rw [checkRows_succ, hown _ (Nat.le_refl _), hshadow _ (Nat.le_refl _)]
      dsimp only
      cases hsame : Window.rowAt width found (count + 1) == Window.rowAt width wanted (count + 1) with
      | false =>
          refine Or.inr ⟨count + 1, ⟨Nat.succ_pos _, Nat.le_refl _, hsame, fun e hlt hle => ?_⟩, rfl⟩
          exact absurd hle (Nat.not_le_of_lt hlt)
      | true =>
          rw [if_pos rfl]
          rcases hbelow with ⟨hok, hnone⟩ | ⟨d, hd, herror⟩
          · refine Or.inl ⟨hok, fun d h => ?_⟩
            rcases Nat.lt_or_eq_of_le h.le with hlt | rfl
            · exact hnone d ⟨h.pos, Nat.le_of_lt_succ hlt, h.differs, fun e he hle =>
                h.above e he (Nat.le_succ_of_le hle)⟩
            · cases h.differs.symm.trans hsame
          · refine Or.inr ⟨d, ⟨hd.pos, Nat.le_succ_of_le hd.le, hd.differs, fun e he hle => ?_⟩, herror⟩
            rcases Nat.lt_or_eq_of_le hle with hlt | rfl
            · exact hd.above e he (Nat.le_of_lt_succ hlt)
            · exact hsame

end Rows

end Audited

theorem Mismatch.unique {width count d e : Nat} {found wanted : List State}
    (h : Mismatch width found wanted count d) (h' : Mismatch width found wanted count e) : d = e := by
  rcases Nat.lt_trichotomy d e with hlt | heq | hlt
  · cases h'.differs.symm.trans (h.above e hlt h'.le)
  · exact heq
  · cases h.differs.symm.trans (h'.above d hlt h.le)

/-! ## What partitions compute and commit -/

namespace Simulation

variable [UpdateRule ρ] [Pace τ] {plan : Plan} {sim : Simulation ρ τ}

/-- In the next step partition `i` computes `state`, whatever becomes of the step. -/
def Computes (sim : Simulation ρ τ) (i : Nat) (state : State) : Prop :=
  ∃ increment pace, Pace.next sim.timeline.beginStep sim.pace = (.ok increment, pace) ∧
    (sim.begun increment pace).computeAll.sentBy i = some state

/-- In the next step partition `i` commits: the compute phase succeeds, and the output crashes on no earlier
member of its group. -/
def Commits (plan : Plan) (sim : Simulation ρ τ) (i : Nat) : Prop :=
  ∃ increment pace, Pace.next sim.timeline.beginStep sim.pace = (.ok increment, pace) ∧
    let begun := sim.begun increment pace
    begun.compute.result = .ok () ∧ begun.schedule.Reaches
      (begun.output.CrashesOn plan begun.newStates begun.timeline.next begun.timeline.step) i

/-- The states that partition `i` has computed in the first `n` steps, and those that it has committed, the
latest first. -/
inductive History (plan : Plan) (sim : Simulation ρ τ) (outputs : Nat → Output) (i : Nat) :
    Nat → List State → List State → Prop
  | start : History plan sim outputs i 0 [] []
  | idle {n : Nat} {computed committed : List State} (h : History plan sim outputs i n computed committed)
      (hnone : ∀ state, ¬ ((sim.afterWith outputs n).withOutput (outputs n)).Computes i state) :
      History plan sim outputs i (n + 1) computed committed
  | lost {n : Nat} {computed committed : List State} {state : State}
      (h : History plan sim outputs i n computed committed)
      (hstate : ((sim.afterWith outputs n).withOutput (outputs n)).Computes i state)
      (hlost : ¬ ((sim.afterWith outputs n).withOutput (outputs n)).Commits plan i) :
      History plan sim outputs i (n + 1) (state :: computed) committed
  | kept {n : Nat} {computed committed : List State} {state : State}
      (h : History plan sim outputs i n computed committed)
      (hstate : ((sim.afterWith outputs n).withOutput (outputs n)).Computes i state)
      (hkept : ((sim.afterWith outputs n).withOutput (outputs n)).Commits plan i) :
      History plan sim outputs i (n + 1) (state :: computed) (state :: committed)

theorem exists_history (plan : Plan) (sim : Simulation ρ τ) (outputs : Nat → Output) (i n : Nat) :
    ∃ computed committed, sim.History plan outputs i n computed committed := by
  induction n with
  | zero => exact ⟨[], [], .start⟩
  | succ n ih =>
      obtain ⟨computed, committed, h⟩ := ih
      by_cases hcomputes : ∃ state, ((sim.afterWith outputs n).withOutput (outputs n)).Computes i state
      · obtain ⟨state, hstate⟩ := hcomputes
        by_cases hcommits : ((sim.afterWith outputs n).withOutput (outputs n)).Commits plan i
        · exact ⟨_, _, h.kept hstate hcommits⟩
        · exact ⟨_, _, h.lost hstate hcommits⟩
      · exact ⟨_, _, h.idle fun state hstate => hcomputes ⟨state, hstate⟩⟩

/-! ## Windows -/

theorem Commits.exists_computes (hfits : plan.Fits sim.cells) (hschedule : plan.schedule = .ok sim.schedule)
    {i : Nat} {cell : Cell ρ} (hcell : sim.cells[i]? = some cell) (h : sim.Commits plan i) :
    ∃ state, sim.Computes i state := by
  obtain ⟨increment, pace, hpace, hcompute, -⟩ := h
  have hsuits : (sim.begun increment pace).schedule.Suits (sim.begun increment pace).cells :=
    Plan.schedule_suits hschedule hfits.feeds_eq
  obtain ⟨state, hstate⟩ := exists_sent hsuits hcompute
    (List.getElem?_eq_some_iff.1 hcell).1
  exact ⟨state, increment, pace, hpace, hstate⟩

theorem cells_of_no_increment
    (h : ∀ increment pace, Pace.next sim.timeline.beginStep sim.pace ≠ (.ok increment, pace)) :
    sim.step.next.cells = sim.cells := by
  have hway := sim.way_step
  generalize sim.step = reply at hway ⊢
  cases hway with
  | refused => rfl
  | crashed => rfl
  | failed hpace => exact absurd hpace (h _ _)
  | finished hpace => exact absurd hpace (h _ _)

theorem rules_step {increment : Float} {pace : τ}
    (hpace : Pace.next sim.timeline.beginStep sim.pace = (.ok increment, pace)) :
    sim.step.next.cells.map (·.partition.rule) =
      (sim.begun increment pace).computeAll.cells.map (·.partition.rule) := by
  cases hcompute : (sim.begun increment pace).compute.result with
  | error stop =>
      rw [step_of_failure hpace hcompute]
      simp only [discardPending, computed, List.map_map]
      rfl
  | ok _ =>
      rw [step_of_success hpace hcompute]
      dsimp only
      rw [finishStep_next]
      exact rules_commit _ _ _

/-- A step records the computed state in the window of a partition that commits, and in no other. -/
theorem window_step (hfits : plan.Fits sim.cells) (hschedule : plan.schedule = .ok sim.schedule)
    {i : Nat} {cell : Cell ρ} (hcell : sim.cells[i]? = some cell) :
    ∃ next, sim.step.next.cells[i]? = some next ∧ (¬ sim.Commits plan i → next.window = cell.window) ∧
      ∀ state, sim.Commits plan i → sim.Computes i state → next.window = cell.window.recorded state := by
  by_cases hnone : ∀ increment pace, Pace.next sim.timeline.beginStep sim.pace ≠ (.ok increment, pace)
  · rw [cells_of_no_increment hnone]
    exact ⟨cell, hcell, fun _ => rfl, fun _ ⟨_, _, hpace, _⟩ => absurd hpace (hnone _ _)⟩
  · push Not at hnone
    obtain ⟨increment, pace, hpace⟩ := hnone
    let begun := sim.begun increment pace
    cases hcompute : begun.compute.result with
    | error stop =>
        have hno : ¬ sim.Commits plan i := by
          rintro ⟨increment', pace', hpace', hok, -⟩
          cases hpace.symm.trans hpace'
          cases hcompute.symm.trans hok
        have hwindow : (begun.computeAll.cells.map (·.window))[i]? = some cell.window := by
          rw [windows_computeAll begun, windows, List.getElem?_map]
          exact congrArg (Option.map _) hcell
        obtain ⟨after, hafter, hsame⟩ := Option.map_eq_some_iff.1 (List.getElem?_map ▸ hwindow)
        refine ⟨⟨after.partition.discard, after.window⟩, ?_, fun _ => hsame, fun _ h => absurd h hno⟩
        rw [step_of_failure hpace hcompute]
        simp only [discardPending, computed, List.getElem?_map]
        exact congrArg (Option.map _) hafter
    | ok _ =>
        have hiff : sim.Commits plan i ↔ begun.schedule.Reaches (begun.output.CrashesOn plan
            begun.newStates begun.timeline.next begun.timeline.step) i := by
          constructor
          · rintro ⟨increment', pace', hpace', -, hreaches⟩
            cases hpace.symm.trans hpace'
            exact hreaches
          · exact fun hreaches => ⟨increment, pace, hpace, hcompute, hreaches⟩
        obtain ⟨state, next, hstate, -, -, hnext, hreached, hleft⟩ := getElem?_commit_computed begun hfits
          hschedule hcompute begun.timeline.next begun.timeline.step hcell
        refine ⟨next, ?_, fun hno => (hleft (hiff.not.1 hno)).2, fun found hcommits hfound => ?_⟩
        · rw [step_of_success hpace hcompute]
          dsimp only
          rw [finishStep_next]
          exact hnext
        · rw [(hreached (hiff.1 hcommits)).2]
          obtain ⟨increment', pace', hpace', hsent⟩ := hfound
          cases hpace.symm.trans hpace'
          rw [Option.some.inj (hstate.symm.trans (getElem?_newStates hsent))]

end Simulation

/-! ## Audits and what they record -/

section Audits

variable [UpdateRule ρ] {rule : ρ} {name : String} {shadow : Window}

/-- A partition under audit that computes a state has it recorded by the audit; one that fails leaves the audit
as it was. -/
theorem Partition.callRule_audited {view : View} {p : Partition (Audited ρ)} {own : Window}
    (hrule : p.rule = ⟨rule, name, some shadow⟩) (hwidth : own.width = shadow.width)
    (hdepth : own.depth = shadow.depth) (hwindow : view.windows[p.index]? = some own)
    (hshaped : shadow.Shaped) :
    (∀ stop, (callRule view p).result = .error stop →
      ∃ next, (callRule view p).next.rule = ⟨next, name, some shadow⟩) ∧
    ∀ state, (callRule view p).result = .ok state → State.Finite state ∧ state.length = shadow.width ∧
      ∃ next, (callRule view p).next.rule = ⟨next, name, some (shadow.recorded state)⟩ := by
  have hadvance := @Audited.advance_eq _ rule name own _ p.params p.index view shadow hwidth hdepth hwindow
    hshaped
  rw [← hrule] at hadvance
  simp only [callRule, hadvance]
  cases (UpdateRule.advance p.params p.index view rule).result with
  | error stop => exact ⟨fun _ _ => ⟨_, rfl⟩, nofun⟩
  | ok state =>
      dsimp only
      cases hcheck : Audited.check state own view.timeline.next
          (⟨(UpdateRule.advance p.params p.index view rule).next, name, some shadow⟩ : Audited ρ) with
      | error stop => exact ⟨fun _ _ => ⟨_, rfl⟩, nofun⟩
      | ok _ =>
          obtain ⟨hfinite, hlength⟩ := Audited.length_of_check hwidth hdepth hcheck
          have hpasses : checkWidth p.name p.index view state = .ok state := by
            rw [checkWidth_eq hwindow, if_neg (not_not_intro (hlength.trans hwidth.symm))]
          simp only [hpasses]
          refine ⟨nofun, fun found hfound => ?_⟩
          cases hfound
          exact ⟨hfinite, hlength, _, rfl⟩

theorem Partition.compute_audited {view : View} {p : Partition (Audited ρ)} {own : Window}
    (hrule : p.rule = ⟨rule, name, some shadow⟩) (hwidth : own.width = shadow.width)
    (hdepth : own.depth = shadow.depth) (hwindow : view.windows[p.index]? = some own)
    (hshaped : shadow.Shaped) (inbox : Inbox) :
    (∀ stop, (p.compute view inbox).result = .error stop →
      ∃ next, (p.compute view inbox).next.rule = ⟨next, name, some shadow⟩) ∧
    ∀ state, (p.compute view inbox).result = .ok state → State.Finite state ∧ state.length = shadow.width ∧
      ∃ next, (p.compute view inbox).next.rule = ⟨next, name, some (shadow.recorded state)⟩ := by
  cases hrefresh : refresh p.name p.feeds inbox p.params with
  | mk result params =>
      cases result with
      | error stop =>
          rw [compute_of_refresh_error view p hrefresh]
          exact ⟨fun _ _ => ⟨rule, hrule⟩, nofun⟩
      | ok _ =>
          rw [compute_of_refresh_ok view p hrefresh]
          exact callRule_audited (p := { p with params := params }) hrule hwidth hdepth hwindow hshaped

namespace Simulation

variable {sim : Simulation (Audited ρ) τ} {plan : Plan} {p : PartitionPlan} {i : Nat}
  {cell : Cell (Audited ρ)} {computed committed : List State}

theorem audit_computeAll (hfits : plan.Fits sim.cells) (hschedule : plan.schedule = .ok sim.schedule)
    (hcell : sim.cells[i]? = some cell) (hrule : cell.partition.rule = ⟨rule, name, some shadow⟩)
    (hwidth : cell.window.width = shadow.width) (hdepth : cell.window.depth = shadow.depth)
    (hshaped : shadow.Shaped) :
    ∃ after, sim.computeAll.cells[i]? = some after ∧
      (sim.computeAll.sentBy i = none → ∃ next, after.partition.rule = ⟨next, name, some shadow⟩) ∧
      ∀ state, sim.computeAll.sentBy i = some state → State.Finite state ∧ state.length = shadow.width ∧
        ∃ next, after.partition.rule = ⟨next, name, some (shadow.recorded state)⟩ := by
  have hsuits := Plan.schedule_suits hschedule hfits.feeds_eq
  have hsettled := settled_computeAll hsuits
  have hi := hsuits.mem_order.2 (List.getElem?_eq_some_iff.1 hcell).1
  obtain ⟨_, _, hconforms⟩ := hfits.exists_partition hcell
  have hwindow : sim.view.windows[cell.partition.index]? = some cell.window := by
    rw [hconforms.index, view, windows, List.getElem?_map, hcell]
    rfl
  by_cases hreached : sim.computeAll.Reaches sim.schedule.ranges i
  · obtain ⟨hfails, hpasses⟩ := Partition.compute_audited hrule hwidth hdepth hwindow hshaped
      (sim.computeAll.inbox cell.partition.feeds)
    refine ⟨_, hsettled.reached i hi hreached cell hcell, fun hnone => ?_, fun state hstate => ?_⟩
    · cases hresult : (sim.computeAll.replyTo sim.view cell).result with
      | error stop => exact hfails stop hresult
      | ok state => cases hnone.symm.trans (hsettled.succeeded i hi hreached cell state hcell hresult)
    · cases hresult : (sim.computeAll.replyTo sim.view cell).result with
      | error stop => cases hstate.symm.trans (hsettled.failed i hi hreached cell stop hcell hresult).1
      | ok found =>
          obtain rfl := Option.some.inj
            (hstate.symm.trans (hsettled.succeeded i hi hreached cell found hcell hresult))
          exact hpasses state hresult
  · obtain ⟨hsame, hnone⟩ := hsettled.unreached i hi hreached
    refine ⟨cell, hsame.trans hcell, fun _ => ⟨rule, hrule⟩, fun state hstate => ?_⟩
    cases hnone.symm.trans hstate

/-- The audit of a partition expects what the partition has computed, and its window holds what it has
committed. -/
structure Watches (p : PartitionPlan) (cell : Cell (Audited ρ)) (computed committed : List State) : Prop where
  audit : ∃ rule shadow, cell.partition.rule = ⟨rule, p.name, some shadow⟩ ∧ shadow.Shaped ∧
    shadow.width = p.width ∧ shadow.depth = p.depth ∧ shadow.Holds (computed ++ [p.initial])
  window : cell.window.Holds (committed ++ [p.initial])
  states : ∀ state ∈ computed, State.Finite state ∧ state.length = p.width
  initial : p.initial.length = p.width
  kept : committed.Sublist computed

theorem watches_of_start {given behaviour : Behaviour (Audited ρ) τ} {events : List Event}
    (hconfigure : given.configure plan = (.ok (), behaviour))
    (hstart : start plan behaviour = (.ok sim, events)) (hp : plan.partitions[i]? = some p) :
    ∃ cell, sim.cells[i]? = some cell ∧ Watches p cell [] [] := by
  obtain ⟨cell, hcell, hrule, hnew⟩ := cell_of_start hstart hp
  obtain ⟨rule, -, hconfigured⟩ := exists_given (Behaviour.configure_eq_ok.1 hconfigure).1 hrule
  rw [Nat.zero_add] at hconfigured
  obtain ⟨found, window, hfound, hwindow, -, hsame⟩ := Audited.configure_eq_ok hconfigured
  cases hfound.symm.trans (Plan.partition_eq_ok hp)
  cases hwindow.symm.trans hnew
  obtain ⟨hinitial, hshaped, hwidth, hdepth, hholds⟩ := Window.new_eq_ok hnew
  exact ⟨cell, hcell, ⟨_, _, hsame, hshaped, hwidth, hdepth, hholds⟩, hholds, nofun, hinitial, .refl _⟩

variable [Pace τ]

theorem audit_step (hfits : plan.Fits sim.cells) (hschedule : plan.schedule = .ok sim.schedule)
    (hcell : sim.cells[i]? = some cell) (hrule : cell.partition.rule = ⟨rule, name, some shadow⟩)
    (hwidth : cell.window.width = shadow.width) (hdepth : cell.window.depth = shadow.depth)
    (hshaped : shadow.Shaped) {next : Cell (Audited ρ)} (hnext : sim.step.next.cells[i]? = some next) :
    ((∀ state, ¬ sim.Computes i state) → ∃ later, next.partition.rule = ⟨later, name, some shadow⟩) ∧
      ∀ state, sim.Computes i state → State.Finite state ∧ state.length = shadow.width ∧
        ∃ later, next.partition.rule = ⟨later, name, some (shadow.recorded state)⟩ := by
  by_cases hnone : ∀ increment pace, Pace.next sim.timeline.beginStep sim.pace ≠ (.ok increment, pace)
  · rw [cells_of_no_increment hnone] at hnext
    obtain rfl := Option.some.inj (hcell.symm.trans hnext)
    exact ⟨fun _ => ⟨rule, hrule⟩, fun _ ⟨_, _, hpace, _⟩ => absurd hpace (hnone _ _)⟩
  · push Not at hnone
    obtain ⟨increment, pace, hpace⟩ := hnone
    have hbegun : plan.Fits (sim.begun increment pace).cells := hfits
    obtain ⟨after, hafter, hidle, hcomputes⟩ := audit_computeAll hbegun hschedule hcell hrule hwidth hdepth hshaped
    have hsame : next.partition.rule = after.partition.rule := by
      have hrules := congrArg (·[i]?) (rules_step hpace)
      simp only [List.getElem?_map, hnext, hafter, Option.map_some, Option.some.injEq] at hrules
      exact hrules
    rw [hsame]
    refine ⟨fun hno => hidle ?_, fun state hstate => hcomputes state ?_⟩
    · exact Option.eq_none_iff_forall_ne_some.2 fun state hsent => hno state ⟨_, _, hpace, hsent⟩
    · obtain ⟨increment', pace', hpace', hsent⟩ := hstate
      cases hpace.symm.trans hpace'
      exact hsent

theorem Watches.step (hfits : plan.Fits sim.cells) (hschedule : plan.schedule = .ok sim.schedule)
    (hp : plan.partitions[i]? = some p) (hcell : sim.cells[i]? = some cell)
    (h : Watches p cell computed committed) :
    ∃ next, sim.step.next.cells[i]? = some next ∧
      ((∀ state, ¬ sim.Computes i state) → Watches p next computed committed) ∧
      ∀ state, sim.Computes i state →
        (¬ sim.Commits plan i → Watches p next (state :: computed) committed) ∧
        (sim.Commits plan i → Watches p next (state :: computed) (state :: committed)) := by
  have hconforms := hfits.cell i cell p hcell hp
  obtain ⟨rule, shadow, hrule, hshaped, hwidth, hdepth, hholds⟩ := h.audit
  obtain ⟨next, hnext, hleft, hrecorded⟩ := window_step hfits hschedule hcell
  obtain ⟨hidle, hcomputes⟩ := audit_step hfits hschedule hcell hrule (hconforms.width.trans hwidth.symm)
    (hconforms.depth.trans hdepth.symm) hshaped hnext
  refine ⟨next, hnext, fun hno => ?_, fun state hstate => ?_⟩
  · have huncommitted : ¬ sim.Commits plan i := fun hcommits =>
      (hcommits.exists_computes hfits hschedule hcell).elim hno
    obtain ⟨later, hlater⟩ := hidle hno
    exact ⟨⟨later, shadow, hlater, hshaped, hwidth, hdepth, hholds⟩, hleft huncommitted ▸ h.window, h.states,
      h.initial, h.kept⟩
  · obtain ⟨hfinite, hlength, later, hlater⟩ := hcomputes state hstate
    have haudit : ∃ rule shadow, next.partition.rule = ⟨rule, p.name, some shadow⟩ ∧ shadow.Shaped ∧
        shadow.width = p.width ∧ shadow.depth = p.depth ∧ shadow.Holds (state :: computed ++ [p.initial]) :=
      ⟨later, _, hlater, hshaped.recorded hlength, hwidth, hdepth, hholds.recorded hshaped hlength⟩
    have hstates : ∀ found ∈ state :: computed, State.Finite found ∧ found.length = p.width :=
      List.forall_mem_cons.2 ⟨⟨hfinite, hlength.trans hwidth⟩, h.states⟩
    refine ⟨fun hlost => ?_, fun hkept => ?_⟩
    · exact ⟨haudit, hleft hlost ▸ h.window, hstates, h.initial, h.kept.cons state⟩
    · refine ⟨haudit, ?_, hstates, h.initial, h.kept.cons_cons state⟩
      rw [hrecorded state hkept hstate]
      exact h.window.recorded hconforms.shaped (hlength.trans (hwidth.trans hconforms.width.symm))

/-- Audits and windows hold the histories after any number of steps. -/
theorem History.watches {behaviour : Behaviour (Audited ρ) τ} {outputs : Nat → Output} {n : Nat}
    (hattainable : Attainable plan behaviour sim) (hp : plan.partitions[i]? = some p)
    (hstart : ∃ cell, sim.cells[i]? = some cell ∧ Watches p cell [] [])
    (h : sim.History plan outputs i n computed committed) :
    ∃ cell, (sim.afterWith outputs n).cells[i]? = some cell ∧ Watches p cell computed committed := by
  have hfits : ∀ n, let later := (sim.afterWith outputs n).withOutput (outputs n)
      plan.Fits later.cells ∧ plan.schedule = .ok later.schedule :=
    fun n => (attainable_afterWith hattainable outputs n).fits
  induction h with
  | start => exact hstart
  | @idle n computed committed _ hnone ih =>
      obtain ⟨cell, hcell, hwatches⟩ := ih
      obtain ⟨next, hnext, hidle, -⟩ := hwatches.step (hfits n).1 (hfits n).2 hp hcell
      exact ⟨next, hnext, hidle hnone⟩
  | @lost n computed committed state _ hstate hlost ih =>
      obtain ⟨cell, hcell, hwatches⟩ := ih
      obtain ⟨next, hnext, -, hcomputes⟩ := hwatches.step (hfits n).1 (hfits n).2 hp hcell
      exact ⟨next, hnext, (hcomputes state hstate).1 hlost⟩
  | @kept n computed committed state _ hstate hkept ih =>
      obtain ⟨cell, hcell, hwatches⟩ := ih
      obtain ⟨next, hnext, -, hcomputes⟩ := hwatches.step (hfits n).1 (hfits n).2 hp hcell
      exact ⟨next, hnext, (hcomputes state hstate).2 hkept⟩

/-! ## What audits say -/

omit [Pace τ] in
/-- In the compute phase the rule inside the audit of partition `i` is called, and its answer is a finite state
of the given width. -/
def AnswersWell (sim : Simulation (Audited ρ) τ) (i width : Nat) : Prop :=
  ∃ cell params answer state, sim.cells[i]? = some cell ∧ sim.Calls i params answer ∧
    (UpdateRule.advance params cell.partition.index sim.view cell.partition.rule.rule).result = .ok state ∧
    State.Finite state ∧ state.length = width

omit [Pace τ] in
theorem auditStops_iff (hfits : plan.Fits sim.cells) (hcell : sim.cells[i]? = some cell)
    (hrule : cell.partition.rule = ⟨rule, name, some shadow⟩) (hwidth : cell.window.width = shadow.width)
    (hdepth : cell.window.depth = shadow.depth) (hshaped : shadow.Shaped) {stop : Stop} :
    sim.AuditStops i stop ↔ ∃ params answer state, sim.Calls i params answer ∧
      (UpdateRule.advance params cell.partition.index sim.view rule).result = .ok state ∧
      Audited.check state cell.window sim.view.timeline.next (⟨rule, name, some shadow⟩ : Audited ρ) =
        .error stop := by
  obtain ⟨_, _, hconforms⟩ := hfits.exists_partition hcell
  have hwindow : sim.view.windows[cell.partition.index]? = some cell.window := by
    rw [hconforms.index, view, windows, List.getElem?_map, hcell]
    rfl
  have hanswer : ∀ params state,
      (UpdateRule.advance params cell.partition.index sim.view rule).result = .ok state →
        ((UpdateRule.advance params cell.partition.index sim.view cell.partition.rule).result = .error stop ↔
          Audited.check state cell.window sim.view.timeline.next
            (⟨rule, name, some shadow⟩ : Audited ρ) = .error stop) := by
    intro params state hinside
    rw [hrule, Audited.advance_eq hwidth hdepth hwindow hshaped]
    simp only [hinside]
    have hsame : Audited.check state cell.window sim.view.timeline.next (⟨(UpdateRule.advance params
        cell.partition.index sim.view rule).next, name, some shadow⟩ : Audited ρ) =
      Audited.check state cell.window sim.view.timeline.next ⟨rule, name, some shadow⟩ := rfl
    rw [hsame]
    cases Audited.check state cell.window sim.view.timeline.next (⟨rule, name, some shadow⟩ : Audited ρ) <;>
      simp
  constructor
  · rintro ⟨hfound, hcalls, hinside, hstop⟩
    obtain ⟨hfound', hreached, htaken⟩ := hcalls
    obtain rfl := Option.some.inj (hcell.symm.trans hfound)
    obtain rfl := Option.some.inj (hcell.symm.trans hfound')
    rw [hrule] at hinside
    exact ⟨_, _, _, .intro hcell hreached htaken, hinside, (hanswer _ _ hinside).1 hstop⟩
  · rintro ⟨params, answer, state, hcalls, hinside, hcheck⟩
    obtain ⟨hfound, hreached, htaken⟩ := hcalls
    obtain rfl := Option.some.inj (hcell.symm.trans hfound)
    have hcalled : (UpdateRule.advance params cell.partition.index sim.view
        cell.partition.rule.rule).result = .ok state := by
      rw [hrule]
      exact hinside
    exact .intro hcell (.intro hcell hreached htaken) hcalled ((hanswer _ _ hinside).2 hcheck)

section Verdict

omit [Pace τ]

variable (hfits : plan.Fits sim.cells) (hp : plan.partitions[i]? = some p)
  (hcell : sim.cells[i]? = some cell) (h : Watches p cell computed committed)

include hfits hp hcell h

theorem Watches.not_windowShape {name : String} {time : Float} {detail : String} :
    ¬ sim.AuditStops i (.fault (.windowShape name time detail)) := by
  have hconforms := hfits.cell i cell p hcell hp
  obtain ⟨rule, shadow, hrule, hshaped, hwidth, hdepth, -⟩ := h.audit
  have hwidths := hconforms.width.trans hwidth.symm
  have hdepths := hconforms.depth.trans hdepth.symm
  rw [auditStops_iff hfits hcell hrule hwidths hdepths hshaped]
  rintro ⟨params, answer, state, -, -, hcheck⟩
  rw [Audited.check_eq hwidths hdepths] at hcheck
  split at hcheck
  · cases hcheck
  · split at hcheck
    · cases hcheck
    · rcases Audited.checkRows_eq_error hcheck with ⟨crash, hcrash⟩ | ⟨d, found, wanted, hfault⟩
      · cases hcrash
      · cases hfault

theorem Watches.not_blamesWindow (hsame : computed = committed) (hnumeric : State.Numeric p.initial)
    {fault : Fault} (hstops : sim.AuditStops i (.fault fault)) : fault.blamesWindow = false := by
  have hconforms := hfits.cell i cell p hcell hp
  obtain ⟨rule, shadow, hrule, hshaped, hwidth, hdepth, hholds⟩ := h.audit
  have hwidths := hconforms.width.trans hwidth.symm
  have hdepths := hconforms.depth.trans hdepth.symm
  obtain rfl : cell.window = shadow :=
    Window.Holds.unique h.window (hsame ▸ hholds) hconforms.shaped hshaped hwidths hdepths
  rw [auditStops_iff hfits hcell hrule rfl rfl hshaped] at hstops
  obtain ⟨params, answer, state, -, -, hcheck⟩ := hstops
  have hrows : ∀ row ∈ computed ++ [p.initial], State.Numeric row := by
    intro row hrow
    rcases List.mem_append.1 hrow with hrow | hrow
    · exact (h.states row hrow).1.numeric
    · exact List.mem_singleton.1 hrow ▸ hnumeric
  cases Audited.check_self_eq_error (hholds.numeric hrows) hcheck <;> rfl

/-- An audit blames the window exactly if it is asked about a good state and the committed states are not the
computed ones, as far as the window reaches back. -/
theorem Watches.blamesWindow_iff (hfit : p.width * p.depth < Word.count) {fault : Fault} :
    sim.AuditStops i (.fault fault) ∧ fault.blamesWindow = true ↔ sim.AnswersWell i p.width ∧
      ∃ d, Mismatch p.width (committed ++ [p.initial]) (computed ++ [p.initial]) (p.depth - 1) d ∧
        fault = .rowNotKept p.name sim.view.timeline.next d
          (Window.rowAt p.width (committed ++ [p.initial]) d)
          (Window.rowAt p.width (computed ++ [p.initial]) d) := by
  have hconforms := hfits.cell i cell p hcell hp
  obtain ⟨rule, shadow, hrule, hshaped, hwidth, hdepth, hholds⟩ := h.audit
  have hwidths := hconforms.width.trans hwidth.symm
  have hdepths := hconforms.depth.trans hdepth.symm
  have hrows : ∀ states, states ⊆ computed → ∀ row ∈ states ++ [p.initial], row.length = p.width := by
    intro states hstates row hrow
    rcases List.mem_append.1 hrow with hrow | hrow
    · exact (h.states row (hstates hrow)).2
    · exact List.mem_singleton.1 hrow ▸ h.initial
  have hpos : 0 < p.depth := hdepth ▸ hshaped.depth_pos
  have hown : ∀ d ≤ p.depth - 1, cell.window.row d =
      .ok (Window.rowAt p.width (committed ++ [p.initial]) d) := by
    intro d hd
    rw [← hconforms.width]
    exact h.window.row_eq hconforms.shaped (by rwa [hconforms.width, hconforms.depth])
      (hconforms.width ▸ hrows committed h.kept.subset) (by rw [hconforms.depth]; omega)
  have hshadow : ∀ d ≤ p.depth - 1, shadow.row d =
      .ok (Window.rowAt p.width (computed ++ [p.initial]) d) := by
    intro d hd
    rw [← hwidth]
    exact hholds.row_eq hshaped (by rwa [hwidth, hdepth]) (hwidth ▸ hrows computed (List.Subset.refl _))
      (by rw [hdepth]; omega)
  rw [auditStops_iff hfits hcell hrule hwidths hdepths hshaped]
  simp only [Audited.check_eq hwidths hdepths, hconforms.depth]
  have hcompared := @Audited.checkRows_cases p.name sim.view.timeline.next _ _ _ _ _ _ hown hshadow
  constructor
  · rintro ⟨⟨params, answer, state, hcalls, hinside, hcheck⟩, hblames⟩
    split at hcheck
    · cases hcheck
      cases hblames
    next hfinite =>
      split at hcheck
      · cases hcheck
        cases hblames
      next hlength =>
        refine ⟨⟨cell, params, answer, state, hcell, hcalls, by rw [hrule]; exact hinside,
          Classical.not_not.1 hfinite, (Classical.not_not.1 hlength).trans hconforms.width⟩, ?_⟩
        rcases hcompared with ⟨hok, -⟩ | ⟨d, hd, herror⟩
        · cases hok.symm.trans hcheck
        · cases herror.symm.trans hcheck
          exact ⟨d, hd, rfl⟩
  · rintro ⟨⟨found, params, answer, state, hfound, hcalls, hinside, hfinite, hlength⟩, d, hd, rfl⟩
    obtain rfl := Option.some.inj (hcell.symm.trans hfound)
    rw [hrule] at hinside
    refine ⟨⟨params, answer, state, hcalls, hinside, ?_⟩, rfl⟩
    rw [if_neg (not_not_intro hfinite), if_neg (not_not_intro (hlength.trans hconforms.width.symm))]
    rcases hcompared with ⟨-, hnone⟩ | ⟨e, he, herror⟩
    · exact absurd hd (hnone d)
    · rw [hd.unique he, herror]

end Verdict

/-- Whatever steps a simulation under audit has made, aborted ones included, an audit blames the window of
its partition for row `d` exactly if the rule inside answers well and `d` is the first row at which the
committed states are not the computed ones. -/
theorem audits_blame_windows_for_lost_states {given behaviour : Behaviour (Audited ρ) τ} {events : List Event}
    (hconfigure : given.configure plan = (.ok (), behaviour))
    (hstart : start plan behaviour = (.ok sim, events)) (hp : plan.partitions[i]? = some p)
    (outputs : Nat → Output) (n : Nat) :
    (∃ computed committed, sim.History plan outputs i n computed committed) ∧
    ∀ computed committed, sim.History plan outputs i n computed committed →
      let now := (sim.afterWith outputs n).withOutput (outputs n)
      (∃ window, now.windows[i]? = some window ∧ window.Holds (committed ++ [p.initial])) ∧
      ∀ increment pace, let begun := now.begun increment pace
        (∀ name time detail, ¬ begun.AuditStops i (.fault (.windowShape name time detail))) ∧
        (computed = committed → State.Numeric p.initial →
          ∀ fault, begun.AuditStops i (.fault fault) → fault.blamesWindow = false) ∧
        (p.width * p.depth < Word.count → ∀ fault,
          begun.AuditStops i (.fault fault) ∧ fault.blamesWindow = true ↔ begun.AnswersWell i p.width ∧
            ∃ d, Mismatch p.width (committed ++ [p.initial]) (computed ++ [p.initial]) (p.depth - 1) d ∧
              fault = .rowNotKept p.name begun.timeline.next d
                (Window.rowAt p.width (committed ++ [p.initial]) d)
                (Window.rowAt p.width (computed ++ [p.initial]) d)) := by
  have hattainable : Attainable plan behaviour sim := .start hstart
  obtain ⟨hfits, -⟩ := (attainable_afterWith hattainable outputs n).fits
  refine ⟨exists_history plan sim outputs i n, fun computed committed h => ?_⟩
  obtain ⟨cell, hcell, hwatches⟩ := h.watches hattainable hp (watches_of_start hconfigure hstart hp)
  intro now
  refine ⟨⟨cell.window, ?_, hwatches.window⟩, fun increment pace => ?_⟩
  · exact List.getElem?_map.trans (congrArg (Option.map _) hcell)
  · intro begun
    have hfitted : plan.Fits begun.cells := hfits
    exact ⟨fun name time detail => hwatches.not_windowShape hfitted hp hcell,
      fun hsame hnumeric fault => hwatches.not_blamesWindow hfitted hp hcell hsame hnumeric,
      fun hfit fault => hwatches.blamesWindow_iff hfitted hp hcell hfit⟩

/-- The second partition has nothing to replay, so no step gets to its commit phase. -/
def alarmPlan : Plan where
  partitions := [⟨"watched", .empty, ∅, [5], 0, 1, 2⟩, ⟨"broken", .empty, ∅, [0], 0, 1, 1⟩]
  startTime := 0
  timelineDepth := 1
  groups := []

def alarmBehaviour : Behaviour (Audited StockRule) StockPace :=
  .new [Audited.new .hold, Audited.new (.replay ⟨none⟩)] (.steps 3) (.constant 1)

/-- In the second step the first partition is blamed, though its window is as it was. -/
theorem alarmBehaviour_raises_false_alarm :
    ∃ behaviour sim, alarmBehaviour.configure alarmPlan = (.ok (), behaviour) ∧
      start alarmPlan behaviour = (.ok sim, []) ∧
      let now := (sim.afterWith (fun _ => .silent) 1).withOutput .silent
      now.windows = sim.windows ∧
      Pace.next now.timeline.beginStep now.pace = (.ok 1, .constant 1) ∧
      (now.begun 1 (.constant 1)).AuditStops 0 (.fault (.rowNotKept "watched" (0 + 1) 1 [0] [5])) := by
  refine ⟨_, _, rfl, rfl, rfl, rfl, ?_⟩
  obtain ⟨-, hhistory⟩ := audits_blame_windows_for_lost_states (i := 0)
    (show alarmBehaviour.configure alarmPlan = (.ok (), _) from rfl) rfl rfl (fun _ => .silent) 1
  have hmismatch : Mismatch 1 ([] ++ [[5]]) ([[5]] ++ [[5]]) 1 1 :=
    ⟨by decide, by decide, by decide, fun e habove hle => absurd habove (by omega)⟩
  obtain ⟨-, hsays⟩ := hhistory [[5]] [] (.lost .start ⟨1, .constant 1, rfl, rfl⟩ (by
    rintro ⟨increment, pace, hpace, hcompute, -⟩
    cases hpace
    cases hcompute))
  obtain ⟨-, -, hblames⟩ := hsays 1 (.constant 1)
  exact ((hblames (by decide) _).2 ⟨⟨_, _, _, [5], rfl,
    .intro rfl (fun j _ hj => absurd hj (Nat.not_lt_zero j)) rfl, rfl, by decide, rfl⟩, 1, hmismatch, rfl⟩).1

end Simulation

end Audits

end Tandem
