import Tandem.Proofs.Recast
import Tandem.Proofs.Rules

/-!
# Interchangeable rules

Two rules are interchangeable if no calls tell them apart by their results; what they let out on the way is
their own affair. Put in the place of one another they leave a simulation as it was: it makes the same
steps, commits the same states and delivers the same records, by induction on a run.
-/

namespace Tandem

variable {ρ τ : Type} [UpdateRule ρ]

/-- What two rules become by the same calls. -/
inductive CalledAlike (first second : ρ) : ρ → ρ → Prop
  | refl : CalledAlike first second first second
  | call {rule other : ρ} (h : CalledAlike first second rule other) (params : Params) (index : Nat)
      (view : View) : CalledAlike first second (UpdateRule.advance params index view rule).next
        (UpdateRule.advance params index view other).next

/-- After the same calls the two rules answer the next call with the same result. -/
def Interchangeable (first second : ρ) : Prop :=
  ∀ rule other, CalledAlike first second rule other → ∀ params index view,
    (UpdateRule.advance params index view rule).result =
      (UpdateRule.advance params index view other).result

theorem CalledAlike.trans {first second rule other next later : ρ} (h : CalledAlike first second rule other)
    (h' : CalledAlike rule other next later) : CalledAlike first second next later := by
  induction h' with
  | refl => exact h
  | call _ params index view ih => exact ih.call params index view

theorem CalledAlike.symm {first second rule other : ρ} (h : CalledAlike first second rule other) :
    CalledAlike second first other rule := by
  induction h with
  | refl => exact .refl
  | call _ params index view ih => exact ih.call params index view

namespace Interchangeable

variable {first second : ρ}

theorem refl (rule : ρ) : Interchangeable rule rule := by
  intro next other hcalled params index view
  have hsame : next = other := by
    induction hcalled with
    | refl => rfl
    | call _ params index view ih => rw [ih]
  rw [hsame]

theorem symm (h : Interchangeable first second) : Interchangeable second first :=
  fun rule other hcalled params index view => (h other rule hcalled.symm params index view).symm

theorem result (h : Interchangeable first second) (params : Params) (index : Nat) (view : View) :
    (UpdateRule.advance params index view first).result =
      (UpdateRule.advance params index view second).result :=
  h first second .refl params index view

theorem next (h : Interchangeable first second) (params : Params) (index : Nat) (view : View) :
    Interchangeable (UpdateRule.advance params index view first).next
      (UpdateRule.advance params index view second).next :=
  fun rule other hcalled => h rule other ((CalledAlike.refl.call params index view).trans hcalled)

end Interchangeable

def Substitutes (cells : List (Cell ρ)) (rules : List ρ) : Prop :=
  List.Forall₂ Interchangeable (cells.map (·.partition.rule)) rules

namespace Substitutes

variable {cells next : List (Cell ρ)} {rules : List ρ}

theorem length_eq (h : Substitutes cells rules) : rules.length = cells.length :=
  (List.Forall₂.length_eq h).symm.trans (List.length_map _)

theorem of_rules_eq (h : Substitutes cells rules)
    (hrules : next.map (·.partition.rule) = cells.map (·.partition.rule)) : Substitutes next rules := by
  unfold Substitutes
  rw [hrules]
  exact h

theorem exists_rule (h : Substitutes cells rules) {i : Nat} {cell : Cell ρ} (hcell : cells[i]? = some cell) :
    ∃ rule, rules[i]? = some rule ∧ Interchangeable cell.partition.rule rule :=
  exists_of_forall₂ h (by rw [List.getElem?_map, hcell]; rfl)

theorem set (h : Substitutes cells rules) (i : Nat) {cell : Cell ρ} {rule : ρ}
    (hrule : Interchangeable cell.partition.rule rule) :
    Substitutes (cells.set i cell) (rules.set i rule) := by
  unfold Substitutes
  rw [List.map_set]
  exact forall₂_set_both h i hrule

end Substitutes

/-! ## The compute phase -/

theorem Partition.compute_recast {p : Partition ρ} {rule : ρ} (h : Interchangeable p.rule rule) (view : View)
    (inbox : Inbox) :
    ∃ after, Interchangeable (p.compute view inbox).next.rule after ∧
      ((p.recast rule).compute view inbox).result = (p.compute view inbox).result ∧
      ((p.recast rule).compute view inbox).next = (p.compute view inbox).next.recast after := by
  simp only [compute, recast]
  cases refresh p.name p.feeds inbox p.params with
  | mk result params =>
      cases result with
      | error stop => exact ⟨rule, h, rfl, rfl⟩
      | ok _ =>
          refine ⟨(UpdateRule.advance params p.index view rule).next, ?_⟩
          have hnext := h.next params p.index view
          simp only [callRule, ← h.result params p.index view]
          cases (UpdateRule.advance params p.index view p.rule).result with
          | error stop => exact ⟨hnext, rfl, rfl⟩
          | ok state =>
              dsimp only
              cases checkWidth p.name p.index view state with
              | error stop => exact ⟨hnext, rfl, rfl⟩
              | ok state => exact ⟨hnext, rfl, rfl⟩

/-- The second phase has got as far as the first, with rules that can take the place of the others. -/
structure Progress.KeepsUp (rules : List ρ) (progress other : Progress ρ) : Prop where
  substitutes : Substitutes progress.cells rules
  cells : other.cells = recastAll progress.cells rules
  sent : other.sent = progress.sent
  halted : other.halted = progress.halted

theorem Progress.KeepsUp.visit {progress other : Progress ρ} {rules : List ρ}
    (h : KeepsUp rules progress other) (view : View) (g i : Nat) :
    ∃ later, KeepsUp later (progress.visit view g i) (other.visit view g i) := by
  cases hcell : progress.cells[i]? with
  | none =>
      have hother : other.cells[i]? = none := by
        rw [List.getElem?_eq_none_iff] at hcell ⊢
        rw [h.cells, length_recastAll h.substitutes.length_eq]
        exact hcell
      simp only [Progress.visit, hcell, hother]
      exact ⟨rules, h⟩
  | some cell =>
      obtain ⟨rule, hrule, hinterchange⟩ := h.substitutes.exists_rule hcell
      have hother : other.cells[i]? = some (cell.recast rule) :=
        h.cells ▸ getElem?_recastAll hcell hrule
      have hhalted : other.haltOf g = progress.haltOf g := congrArg (fun halted => (halted[g]?).join) h.halted
      cases hhalt : progress.haltOf g with
      | some stop =>
          rw [visit_of_halted hhalt, visit_of_halted (hhalted.trans hhalt)]
          exact ⟨rules, h⟩
      | none =>
          have hinbox : other.inbox (cell.recast rule).partition.feeds =
              progress.inbox cell.partition.feeds :=
            Progress.inbox_congr fun feed _ => congrArg (fun sent => (sent[feed.source]?).join) h.sent
          obtain ⟨after, hafter, hresult, hnext⟩ := Partition.compute_recast hinterchange view
            (progress.inbox cell.partition.feeds)
          rw [visit_eq view hcell hhalt, visit_eq view hother (hhalted.trans hhalt), hinbox]
          refine ⟨rules.set i after, h.substitutes.set i hafter, ?_, ?_, ?_⟩
          · have hset : (⟨_, _⟩ : Cell ρ) = _ := congrArg (Cell.mk · cell.window) hnext
            dsimp only
            rw [recastAll_set, ← h.cells]
            exact congrArg (other.cells.set i) hset
          · have hsame : ((cell.recast rule).partition.compute view _).result = _ := hresult
            simp only [hsame, h.sent]
          · have hsame : ((cell.recast rule).partition.compute view _).result = _ := hresult
            simp only [hsame, h.halted]

namespace Simulation

variable {sim : Simulation ρ τ} {rules : List ρ}

theorem computeAll_recast (h : Substitutes sim.cells rules) :
    ∃ later, Progress.KeepsUp later sim.computeAll (sim.recast rules).computeAll := by
  have hview := view_recast h.length_eq
  refine sim.computeAll_induction₂ (sim.recast rules) rfl
    (motive := fun _ progress other => ∃ later, Progress.KeepsUp later progress other) ?_ ?_
  · refine ⟨rules, h, rfl, ?_, rfl⟩
    have hlength : (sim.recast rules).cells.length = sim.cells.length := length_recastAll h.length_eq
    simp only [Progress.start, hlength]
  · rintro done i after progress other - ⟨later, hlater⟩
    rw [hview]
    exact hlater.visit sim.view _ i

theorem compute_recast (h : Substitutes sim.cells rules) :
    ∃ later, Substitutes sim.computed.cells later ∧
      (sim.recast rules).compute.result = sim.compute.result ∧
      (sim.recast rules).computed = sim.computed.recast later := by
  obtain ⟨later, hlater⟩ := computeAll_recast h
  refine ⟨later, hlater.substitutes, ?_, ?_⟩
  · have hnames : (sim.recast rules).computeAll.cells.map (·.partition.name) =
        sim.computeAll.cells.map (·.partition.name) := by
      rw [hlater.cells]
      exact map_recastAll hlater.substitutes.length_eq fun _ _ => rfl
    have hschedule : (sim.recast rules).schedule = sim.schedule := rfl
    rw [compute_eq, compute_eq]
    simp only [hnames, hlater.halted, hschedule]
  · unfold computed
    rw [hlater.cells]
    rfl

/-! ## Steps -/

variable [Pace τ]

theorem step_recast (h : Substitutes sim.cells rules) :
    ∃ later, Substitutes sim.step.next.cells later ∧
      (sim.recast rules).step.result = sim.step.result ∧
      (sim.recast rules).step.next = sim.step.next.recast later ∧
      (sim.recast rules).deliveries = sim.deliveries := by
  have hpaced : ∀ {answer : Outcome Float} {pace : τ},
      Pace.next sim.timeline.beginStep sim.pace = (answer, pace) →
      Pace.next (sim.recast rules).timeline.beginStep (sim.recast rules).pace = (answer, pace) := id
  have hway := sim.way_step
  unfold deliveries
  generalize sim.step = reply at hway ⊢
  cases hway with
  | refused hpace =>
      rw [step_of_refusal (hpaced hpace)]
      exact ⟨rules, h, rfl, rfl, rfl⟩
  | crashed hpace =>
      rw [step_of_crash (hpaced hpace)]
      exact ⟨rules, h, rfl, rfl, rfl⟩
  | @failed increment pace stop hpace hcompute =>
      let begun := sim.begun increment pace
      have hbegun : Substitutes begun.cells rules := h
      obtain ⟨later, hlater, hresult, hcomputed⟩ := compute_recast hbegun
      rw [step_of_failure (hpaced hpace) (hresult.trans hcompute)]
      refine ⟨later, hlater.of_rules_eq ?_, rfl, ?_, ?_⟩
      · simp [discardPending, Partition.discard, Function.comp_def, begun]
      · have hdiscard := congrArg Simulation.discardPending hcomputed
        rw [discardPending_recast] at hdiscard
        exact congrArg (fun next : Simulation ρ τ => { next with timeline := sim.restored }) hdiscard
      · exact (filterMap_nested _).trans (filterMap_nested _).symm
  | @finished increment pace hpace hcompute =>
      let begun := sim.begun increment pace
      have hbegun : Substitutes begun.cells rules := h
      obtain ⟨later, hlater, hresult, hcomputed⟩ := compute_recast hbegun
      have hcommit : (begun.recast rules).computed.finishStep =
          begun.computed.finishStep.mapNext fun next => next.recast later := by
        rw [hcomputed]
        exact finishStep_recast hlater.length_eq
      rw [step_of_success (hpaced hpace) (hresult.trans hcompute)]
      have hsame : (sim.recast rules).begun increment pace = begun.recast rules := rfl
      rw [hsame, hcommit]
      have hrules : begun.computed.finishStep.next.cells.map (·.partition.rule) =
          begun.computed.cells.map (·.partition.rule) := by
        rw [finishStep_next]
        exact rules_commit _ _ _
      refine ⟨later, hlater.of_rules_eq hrules, rfl, rfl, ?_⟩
      rw [filterMap_delivered, filterMap_delivered]
      rfl

theorem runWithin_recast (h : Substitutes sim.cells rules) (fuel : Nat) :
    ∃ later, Substitutes (sim.runWithin fuel).next.cells later ∧
      ((sim.recast rules).runWithin fuel).result = (sim.runWithin fuel).result ∧
      ((sim.recast rules).runWithin fuel).next = (sim.runWithin fuel).next.recast later ∧
      ((sim.recast rules).runWithin fuel).emitted.filterMap Event.delivered? =
        (sim.runWithin fuel).emitted.filterMap Event.delivered? := by
  induction fuel generalizing sim rules with
  | zero => exact ⟨rules, h, rfl, rfl, rfl⟩
  | succ fuel ih =>
      have hover : (sim.recast rules).isOver = sim.isOver :=
        congrArg sim.stop (view_recast h.length_eq)
      obtain ⟨next, hnext, hresult, hstep, hdeliveries⟩ := step_recast h
      unfold deliveries at hdeliveries
      simp only [runWithin, hover, hresult]
      cases sim.isOver with
      | error crash => exact ⟨rules, h, rfl, rfl, rfl⟩
      | ok ended =>
          cases ended with
          | true => exact ⟨rules, h, rfl, rfl, rfl⟩
          | false =>
              dsimp only
              cases sim.step.result with
              | error stop => exact ⟨next, hnext, rfl, hstep, hdeliveries⟩
              | ok report =>
                  obtain ⟨later, hlater, hend, hlast, hrest⟩ := ih hnext
                  rw [hstep]
                  refine ⟨later, hlater, hend, hlast, ?_⟩
                  rw [List.filterMap_append, List.filterMap_append, hdeliveries, hrest]

end Simulation

end Tandem
