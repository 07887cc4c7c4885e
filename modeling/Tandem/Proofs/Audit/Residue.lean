import Tandem.Proofs.Audit.Record
import Tandem.Proofs.Audit.Transparent
import Tandem.Proofs.Interchange
import Tandem.Proofs.Nested.Forward

/-!
# What the two runs of an audit differ in

An audit blames the rules if its two runs differ. Suppose that configuring resets every rule. Then the
second run records what a first run would record with the pace that the first run has left. So the records
can differ only if the pace keeps state, which is never reset, or if an initial value is NaN, which is not
even the same as itself.
-/

namespace Tandem

variable {ρ τ : Type}

/-- Configured once more, for the same partition and after any calls, the rule answers as it did after it was
configured first. -/
def UpdateRule.Resets [UpdateRule ρ] (plan : Plan) (index : Nat) (rule : ρ) : Prop :=
  ∀ first used again, UpdateRule.configure index plan rule = (.ok (), first) → Called first used →
    UpdateRule.configure index plan used = (.ok (), again) → Interchangeable first again

/-! ## Stock rules -/

section

variable {plan : Plan} {index : Nat} {rule next : StockRule}

theorem StockRule.configure_walk {walk : Walk} (h : configure index plan (.walk walk) = (.ok (), next))
    (other : Walk) : configure index plan (.walk other) = (.ok (), next) := by
  simp only [configure, Walk.configure] at h ⊢
  cases hp : plan.partition index with
  | error fault => simp [hp] at h
  | ok p =>
      rw [hp] at h
      exact h

theorem StockRule.configure_configured (h : configure index plan rule = (.ok (), next)) :
    configure index plan next = (.ok (), next) := by
  cases rule with
  | hold | relay | replay =>
      cases h
      rfl
  | walk walk =>
      have hagain := configure_walk h
      obtain rfl : .walk (walk.configure index plan).2 = next := congrArg Prod.snd h
      exact hagain _

theorem StockRule.configure_called (h : configure index plan rule = (.ok (), next)) {used : StockRule}
    (hcalled : Called rule used) : configure index plan used = (.ok (), next) := by
  induction hcalled with
  | refl => exact h
  | @call used _ params i view ih =>
      cases used with
      | hold | relay | replay => exact ih
      | walk walk => exact configure_walk ih _

/-- Configuring starts the stream of a random walk anew, and no other stock rule keeps anything. -/
theorem StockRule.resets (plan : Plan) (index : Nat) (rule : StockRule) :
    UpdateRule.Resets plan index rule := by
  intro first used again hfirst hcalled hagain
  have hconfigured : configure index plan first = (.ok (), first) := configure_configured hfirst
  obtain rfl : first = again :=
    (Prod.mk.inj ((configure_called hconfigured hcalled).symm.trans hagain)).2
  exact .refl first

end

/-! ## Rules under audit -/

namespace Audited

theorem accept_withRule (audited : Audited ρ) (rule : ρ) (index : Nat) (view : View) (state : State) :
    accept index view state { audited with rule := rule } =
      (accept index view state audited).map fun next => { next with rule := rule } := by
  obtain ⟨old, name, expected⟩ := audited
  unfold accept
  cases view.window index with
  | error crash => rfl
  | ok own =>
      have hcheck : check state own view.timeline.next (⟨rule, name, expected⟩ : Audited ρ) =
        check state own view.timeline.next (⟨old, name, expected⟩ : Audited ρ) := rfl
      simp only [bind, Except.bind, liftM, monadLift, MonadLift.monadLift, Except.mapError, hcheck]
      cases check state own view.timeline.next (⟨old, name, expected⟩ : Audited ρ) with
      | error stop => rfl
      | ok _ =>
          cases expected with
          | none => rfl
          | some window =>
              simp only [record, bind, Except.bind]
              cases window.push state <;> rfl

variable [UpdateRule ρ]

theorem advance_congr {rule other : ρ} {params : Params} {index : Nat} {view : View}
    (h : (UpdateRule.advance params index view rule).result =
      (UpdateRule.advance params index view other).result) (name : String) (expected : Option Window) :
    let reply := UpdateRule.advance params index view (⟨rule, name, expected⟩ : Audited ρ)
    let reply' := UpdateRule.advance params index view (⟨other, name, expected⟩ : Audited ρ)
    reply.result = reply'.result ∧
      reply'.next = { reply.next with rule := (UpdateRule.advance params index view other).next } := by
  have hadvance : ∀ audited : Audited ρ, UpdateRule.advance params index view audited =
    advance params index view audited := fun _ => rfl
  simp only [hadvance, advance, ← h]
  cases (UpdateRule.advance params index view rule).result with
  | error stop => exact ⟨rfl, rfl⟩
  | ok state =>
      have haccept := accept_withRule (⟨(UpdateRule.advance params index view rule).next, name, expected⟩ :
        Audited ρ) (UpdateRule.advance params index view other).next index view state
      dsimp only at haccept ⊢
      rw [haccept]
      cases accept index view state
        (⟨(UpdateRule.advance params index view rule).next, name, expected⟩ : Audited ρ) <;> exact ⟨rfl, rfl⟩

theorem called_rule {first used : Audited ρ} (h : Called first used) : Called first.rule used.rule := by
  induction h with
  | refl => exact .refl
  | @call audited _ params index view ih =>
      have hnext : (UpdateRule.advance params index view audited).next.rule =
        (UpdateRule.advance params index view audited.rule).next := rule_advance params index view audited
      rw [hnext]
      exact ih.call params index view

theorem interchangeable {rule other : ρ} (h : Interchangeable rule other) (name : String)
    (expected : Option Window) :
    Interchangeable (⟨rule, name, expected⟩ : Audited ρ) ⟨other, name, expected⟩ := by
  intro next later hcalled params index view
  have hsame : Interchangeable next.rule later.rule ∧ later = { next with rule := later.rule } := by
    induction hcalled with
    | refl => exact ⟨h, rfl⟩
    | @call next later _ params index view ih =>
        obtain ⟨hrules, hlater⟩ := ih
        have hnext := (advance_congr (hrules.result params index view) next.name next.expected).2
        rw [← hlater] at hnext
        constructor
        · have hrule : ∀ audited : Audited ρ, (UpdateRule.advance params index view audited).next.rule =
            (UpdateRule.advance params index view audited.rule).next := rule_advance params index view
          rw [hrule, hrule]
          exact hrules.next params index view
        · rw [hnext]
  obtain ⟨hrules, hlater⟩ := hsame
  rw [hlater]
  exact (advance_congr (hrules.result params index view) next.name next.expected).1

theorem configure_eq_ok {plan : Plan} {index : Nat} {audited next : Audited ρ}
    (h : UpdateRule.configure index plan audited = (.ok (), next)) :
    ∃ p window, plan.partition index = .ok p ∧ Window.new p.width p.depth p.initial = .ok window ∧
      UpdateRule.configure index plan audited.rule = (.ok (), next.rule) ∧
      next = ⟨next.rule, p.name, some window⟩ := by
  have hconfigure : configure index plan audited = (.ok (), next) := h
  unfold configure at hconfigure
  cases hp : plan.partition index with
  | error fault => simp [hp] at hconfigure
  | ok p =>
      cases hwindow : Window.new p.width p.depth p.initial with
      | error stop => simp [hp, hwindow] at hconfigure
      | ok window =>
          simp only [hp, hwindow, Prod.mk.injEq] at hconfigure
          obtain ⟨hresult, rfl⟩ := hconfigure
          exact ⟨p, window, rfl, hwindow, Prod.ext hresult rfl, rfl⟩

theorem resets {plan : Plan} {index : Nat} {rule : ρ} (h : UpdateRule.Resets plan index rule) :
    UpdateRule.Resets plan index (Audited.new rule) := by
  intro first used again hfirst hcalled hagain
  obtain ⟨p, window, hp, hwindow, hrule, hsame⟩ := configure_eq_ok hfirst
  obtain ⟨p', window', hp', hwindow', hrule', hsame'⟩ := configure_eq_ok hagain
  obtain rfl := Except.ok.inj (hp.symm.trans hp')
  obtain rfl := Except.ok.inj (hwindow.symm.trans hwindow')
  rw [hsame, hsame']
  exact interchangeable (h _ _ _ hrule (called_rule hcalled) hrule') p.name (some window)

end Audited

/-! ## Two runs -/

theorem configureRules_again [UpdateRule ρ] {plan : Plan} {given configured used again : List ρ}
    (hresets : ∀ (i : Nat) rule, given[i]? = some rule → UpdateRule.Resets plan i rule)
    (hfirst : configureRules plan 0 given = (.ok (), configured))
    (hcalled : List.Forall₂ Called configured used)
    (hagain : configureRules plan 0 used = (.ok (), again)) :
    List.Forall₂ Interchangeable configured again := by
  refine forall₂_of_getElem? (hcalled.length_eq.trans (length_configured hagain).symm)
    fun i first other hfound hother => ?_
  obtain ⟨rule, hrule, hconfigure⟩ := exists_given hfirst hfound
  obtain ⟨later, hlater, hreconfigure⟩ := exists_given hagain hother
  obtain ⟨next, hnext, hcall⟩ := exists_of_forall₂ hcalled hfound
  obtain rfl := Option.some.inj (hnext.symm.trans hlater)
  rw [Nat.zero_add] at hconfigure hreconfigure
  exact hresets i rule hrule first next other hconfigure hcall hreconfigure

def Behaviour.recorded (behaviour : Behaviour ρ τ) : Behaviour (Audited ρ) τ :=
  { behaviour with output := .recordAll Audit.archiveName }.underAudit

namespace Audit

section

variable [UpdateRule ρ] [Pace τ] {plan : Plan} {given left other last : Behaviour ρ τ}
  {first second : Archive} {events later : List Event}

theorem recordRun_interchange {again configured : Behaviour ρ τ}
    (h : recordRun plan other = (.ok (last, second), later))
    (hagain : other.configure plan = (.ok (), again))
    (hconfigured : given.configure plan = (.ok (), configured))
    (hrules : List.Forall₂ Interchangeable again.rules configured.rules)
    (houtput : configured.output = again.output) (hstop : configured.stop = again.stop)
    (hpace : configured.pace = again.pace) :
    ∃ left events, recordRun plan given = (.ok (left, second), events) := by
  obtain ⟨found, sim, begun, hfound, hstart, hrun, -, rfl, rfl⟩ := recordRun_eq_ok_iff.1 h
  obtain rfl := (Prod.mk.inj (hagain.symm.trans hfound)).2
  have hsubstitutes : Substitutes sim.cells configured.rules := by
    unfold Substitutes
    rw [Simulation.rules_of_start hstart]
    exact hrules
  have hstart' : Simulation.start plan configured = (.ok (sim.recast configured.rules), begun) := by
    rw [Simulation.start_recast hrules.length_eq.symm houtput hstop hpace, hstart]
    rfl
  obtain ⟨rules, -, hresult, -, hemitted⟩ := Simulation.runWithin_recast hsubstitutes Word.count
  have hrun' : (sim.recast configured.rules).run.result = .ok () := hresult.trans hrun
  have hsame : archiveOf (begun ++ sim.run.emitted) =
      archiveOf (begun ++ (sim.recast configured.rules).run.emitted) := by
    have hemitted' : (sim.recast configured.rules).run.emitted.filterMap Event.delivered? = _ := hemitted
    rw [archiveOf_eq, archiveOf_eq, List.filterMap_append, List.filterMap_append, hemitted']
    rfl
  exact ⟨_, _, recordRun_eq_ok_iff.2 ⟨configured, _, begun, hconfigured, hstart', hrun', rfl, rfl, hsame⟩⟩

theorem left_of_recordRun (h : recordRun plan given = (.ok (left, first), events)) :
    ∃ configured, given.configure plan = (.ok (), configured) ∧
      List.Forall₂ Called configured.rules left.rules ∧ left.output = given.output ∧
      left.stop = given.stop ∧ Asked given.pace left.pace ∧
      (Pace.Steady given.pace → left.pace = given.pace) := by
  obtain ⟨configured, sim, begun, hconfigure, hstart, -, rfl, -, -⟩ := recordRun_eq_ok_iff.1 h
  have hsame := (Behaviour.configure_eq_ok.1 hconfigure).2
  have hintact := Simulation.intact_run hstart
  have hfollow : Simulation.Follow sim.cells sim.run.next.cells :=
    Simulation.runWithin_keeps (motive := fun later => Simulation.Follow sim.cells later.cells)
      (fun later hlater => hlater.trans (Simulation.follow_step later)) (.refl _) _
  have hconfigured : configured.pace = given.pace := by rw [hsame]
  have hpace : sim.pace = given.pace := (Simulation.start_behaviour hstart).2.2.trans hconfigured
  refine ⟨configured, hconfigure, ?_, hintact.output.trans (by rw [hsame]),
    hintact.stop.trans (by rw [hsame]), hconfigured ▸ hintact.pace, fun hsteady => ?_⟩
  · rw [← Simulation.rules_of_start hstart]
    exact List.forall₂_map_left_iff.2 (List.forall₂_map_right_iff.2 hfollow)
  · exact (Simulation.pace_runWithin_of_steady (hpace ▸ hsteady) Word.count).trans hpace

/-- If configuring resets all rules, the second run records what a first run would with the pace that is left
over. -/
theorem second_run_is_first_run
    (hresets : ∀ (i : Nat) rule, given.rules[i]? = some rule → UpdateRule.Resets plan i rule)
    (hfirst : recordRun plan given = (.ok (left, first), events))
    (hsecond : recordRun plan left = (.ok (last, second), later)) :
    ∃ again seen, recordRun plan { given with pace := left.pace } = (.ok (again, second), seen) := by
  obtain ⟨configured, hconfigure, hcalled, houtput, hstop, -, -⟩ := left_of_recordRun hfirst
  obtain ⟨reconfigured, hreconfigure, -⟩ := left_of_recordRun hsecond
  obtain ⟨hrules, hsame⟩ := Behaviour.configure_eq_ok.1 hconfigure
  obtain ⟨hrules', hsame'⟩ := Behaviour.configure_eq_ok.1 hreconfigure
  have hconfigured : Behaviour.configure plan { given with pace := left.pace } =
      (.ok (), { configured with pace := left.pace }) :=
    Behaviour.configure_eq_ok.2 ⟨hrules, by rw [hsame]⟩
  refine recordRun_interchange hsecond hreconfigure hconfigured ?_ ?_ ?_ ?_
  · exact ((configureRules_again hresets hrules hcalled hrules').imp fun _ _ h => h.symm).flip
  · rw [hsame, hsame', houtput]
  · rw [hsame, hsame', hstop]
  · rw [hsame']

end

/-! ## The verdict -/

section

variable [UpdateRule ρ] {plan : Plan}

/-- What an audit says of two recorded runs that differ in the named series. -/
def verdict : Option String → Outcome Unit
  | some name => .error (.fault (.residue name))
  | none => .ok ()

theorem audit_eq_verdict [Pace τ] {given : Behaviour ρ τ} {left last : Behaviour (Audited ρ) τ}
    {first second : Archive} {events later : List Event}
    (hfirst : recordRun plan given.recorded = (.ok (left, first), events))
    (hsecond : recordRun plan left = (.ok (last, second), later)) :
    (given.audit plan).1 = verdict (residue? first second) := by
  have haudit : given.audit plan = twoRuns plan given.recorded := rfl
  simp only [haudit, twoRuns, hfirst, hsecond]
  cases residue? first second <;> rfl

/-- An audit of rules that configuring resets completes its two runs. If the first leaves the pace as it
was, both record the same, and all that can be objected to is an initial value that is NaN. A pace that
draws its increments can make the records differ, though no rule is to blame. -/
theorem residue_of_reset_rules {given : Behaviour ρ StockPace} {left last : Behaviour (Audited ρ) StockPace}
    {first second : Archive} {events later : List Event}
    (hresets : ∀ (i : Nat) rule, given.rules[i]? = some rule → UpdateRule.Resets plan i rule)
    (hfirst : recordRun plan given.recorded = (.ok (left, first), events))
    (hsecond : recordRun plan left = (.ok (last, second), later)) :
    (given.audit plan).1 = verdict (residue? first second) ∧
    Asked given.pace left.pace ∧
    (∃ again seen, recordRun plan { given.recorded with pace := left.pace } = (.ok (again, second), seen)) ∧
    (given.pace.KeepsNoState → left.pace = given.pace) ∧
    (left.pace = given.pace → second = first ∧
      (given.audit plan).1 = verdict ((firstNaN? plan).map (·.name))) ∧
    ((∃ p ∈ plan.partitions, ¬ State.Numeric p.initial) →
      ∃ name, (given.audit plan).1 = .error (.fault (.residue name))) := by
  have hverdict := audit_eq_verdict hfirst hsecond
  have houtput : given.recorded.output = .recordAll archiveName := rfl
  obtain ⟨-, -, -, hleft, -, hasked, hsteady⟩ := left_of_recordRun hfirst
  have hrecords := records_of_recordRun houtput hfirst
  have hrecords' := records_of_recordRun (hleft.trans houtput) hsecond
  have hrules : ∀ (i : Nat) rule, given.recorded.rules[i]? = some rule →
      UpdateRule.Resets plan i rule := by
    intro i audited haudited
    obtain ⟨rule, hrule, rfl⟩ := Option.map_eq_some_iff.1 (List.getElem?_map ▸ haudited)
    exact Audited.resets (hresets i rule hrule)
  obtain ⟨again, seen, hagain⟩ := second_run_is_first_run hrules hfirst hsecond
  refine ⟨hverdict, hasked, ⟨again, seen, hagain⟩, fun hkeeps => hsteady hkeeps.steady, fun hpace => ?_,
    fun ⟨p, hp, hnan⟩ => ?_⟩
  · have hsame : { given.recorded with pace := left.pace } = given.recorded := by rw [hpace]; rfl
    rw [hsame, hfirst] at hagain
    obtain rfl : first = second := (Prod.mk.inj (Except.ok.inj (Prod.mk.inj hagain).1)).2
    exact ⟨rfl, hverdict.trans (congrArg verdict hrecords.residue?_self)⟩
  · obtain ⟨name, hname⟩ := hrecords.exists_residue_of_nan hrecords' hp hnan
    exact ⟨name, hverdict.trans (congrArg verdict hname)⟩

end

/-- One partition that starts with the given value and keeps no more than its current state. -/
def lonePlan (initial : Float) : Plan :=
  ⟨[⟨"lone", .ofList [(Relay.param, [3])], ∅, [initial], 0, 1, 1⟩], 0, 1, []⟩

/-- For two steps it relays a param. -/
def loneBehaviour : Behaviour StockRule StockPace := .new [.relay] (.steps 2) (.constant 1)

theorem lonePlan_leaves_residue_if_nan :
    (loneBehaviour.audit (lonePlan 5)).1 = .ok () ∧
      (loneBehaviour.audit (lonePlan (0 / 0))).1 = .error (.fault (.residue "lone")) := by
  have hresets : ∀ initial, ∀ (i : Nat) rule, loneBehaviour.rules[i]? = some rule →
      UpdateRule.Resets (lonePlan initial) i rule := fun _ i rule _ => StockRule.resets _ i rule
  have hruns : ∀ initial ∈ [(5 : Float), 0 / 0], ∃ left last first second events later,
      recordRun (lonePlan initial) loneBehaviour.recorded = (.ok (left, first), events) ∧
        recordRun (lonePlan initial) left = (.ok (last, second), later) := by
    intro initial hinitial
    simp only [List.mem_cons, List.not_mem_nil, or_false] at hinitial
    rcases hinitial with rfl | rfl <;> exact ⟨_, _, _, _, _, _, rfl, rfl⟩
  have hverdict : ∀ initial ∈ [(5 : Float), 0 / 0], (loneBehaviour.audit (lonePlan initial)).1 =
      verdict ((firstNaN? (lonePlan initial)).map (·.name)) := by
    intro initial hinitial
    obtain ⟨left, last, first, second, events, later, hfirst, hsecond⟩ := hruns initial hinitial
    obtain ⟨-, -, -, hkeeps, hsame, -⟩ := residue_of_reset_rules (hresets initial) hfirst hsecond
    exact (hsame (hkeeps trivial)).2
  exact ⟨hverdict 5 (by simp), hverdict (0 / 0) (by simp)⟩

end Audit

end Tandem
