import Tandem.Proofs.Nested.Declared
import Tandem.Proofs.Nested.InnerRun
import Tandem.Proofs.Nested.Loss
import Tandem.Proofs.Registry.Resolution
import Tandem.Proofs.Steady
import Tandem.Proofs.Stock

/-!
# Inner runs are runs of their own

A nested rule without a memory, with steady rules and a steady pace inside, is steady itself. By induction
on the nesting this covers all towers of inner simulations over stock rules that keep no state. So each call
of such a rule past burn-in comes to what a simulation of its own comes to, built from the inner plan with
the overrides of this call and from the rules as they were configured, whatever was called before.
-/

namespace Tandem

/-! ## Runs -/

/-- What comes of building a simulation and running it to its end: its first failure, or the current states
of its partitions one after the other. -/
inductive Standalone {ρ τ : Type} [UpdateRule ρ] [Pace τ] (plan : Plan) (behaviour : Behaviour ρ τ) :
    Outcome State → Prop
  | refused {stop : Stop} {events : List Event}
      (hstart : Simulation.start plan behaviour = (.error stop, events)) :
      Standalone plan behaviour (.error stop)
  | failed {sim : Simulation ρ τ} {events : List Event} {stop : Stop}
      (hstart : Simulation.start plan behaviour = (.ok sim, events))
      (hrun : sim.run.result = .error stop) : Standalone plan behaviour (.error stop)
  | finished {sim : Simulation ρ τ} {events : List Event} {rows : List State}
      (hstart : Simulation.start plan behaviour = (.ok sim, events)) (hrun : sim.run.result = .ok ())
      (hrows : sim.run.next.windows.mapM Window.latest = .ok rows) :
      Standalone plan behaviour (.ok rows.flatten)

namespace Standalone

variable {ρ τ : Type} [UpdateRule ρ] [Pace τ] {plan : Plan} {behaviour : Behaviour ρ τ}

theorem unique {first second : Outcome State} (h : Standalone plan behaviour first)
    (h' : Standalone plan behaviour second) : first = second := by
  cases h with
  | refused hstart =>
      cases h' with
      | refused hstart' =>
          cases hstart.symm.trans hstart'
          rfl
      | failed hstart' => cases hstart.symm.trans hstart'
      | finished hstart' => cases hstart.symm.trans hstart'
  | failed hstart hrun =>
      cases h' with
      | refused hstart' => cases hstart.symm.trans hstart'
      | failed hstart' hrun' =>
          cases hstart.symm.trans hstart'
          cases hrun.symm.trans hrun'
          rfl
      | finished hstart' hrun' =>
          cases hstart.symm.trans hstart'
          cases hrun.symm.trans hrun'
  | finished hstart hrun hrows =>
      cases h' with
      | refused hstart' => cases hstart.symm.trans hstart'
      | failed hstart' hrun' =>
          cases hstart.symm.trans hstart'
          cases hrun.symm.trans hrun'
      | finished hstart' hrun' hrows' =>
          cases hstart.symm.trans hstart'
          cases hrows.symm.trans hrows'
          rfl

theorem of_check_error {fault : Fault} (h : plan.check = .error fault) :
    Standalone plan behaviour (.error (.fault fault)) := by
  have hschedule : plan.schedule = .error fault := by
    unfold Plan.check at h
    cases hschedule : plan.schedule with
    | error found =>
        simp only [hschedule, bind, Except.bind, Except.error.injEq] at h
        rw [h]
    | ok schedule => simp [hschedule, bind, Except.bind, pure, Except.pure] at h
  refine .refused (Simulation.start_of_prepare_error ?_)
  simp only [Simulation.prepare, hschedule, bind, Except.bind, liftM, monadLift, MonadLift.monadLift,
    Except.mapError]

theorem of_runToEnd (plan : Plan) (behaviour : Behaviour ρ τ) :
    Standalone plan behaviour (Nested.runToEnd plan behaviour).result := by
  unfold Nested.runToEnd
  split
  next hstart => exact .refused hstart
  next sim events hstart =>
    dsimp only
    split
    next hrun => exact .failed hstart hrun
    next hrun => exact .failed hstart hrun
    next hrun =>
      have hattainable : Attainable plan behaviour sim.run.next :=
        Simulation.runWithin_keeps (fun later hlater => hlater.step later.output) (.start hstart) _
      cases hrows : sim.run.next.windows.mapM Window.latest with
      | error crash =>
          obtain ⟨states, hfinal, -⟩ := Nested.exists_finalState hattainable.fits.1
          simp [Nested.finalState, hrows, bind, Except.bind] at hfinal
      | ok rows =>
          simp only [Nested.finalState, hrows, bind, Except.bind, pure, Except.pure]
          exact .finished hstart hrun hrows

end Standalone

namespace Nested

/-! ## One call -/

section Call

variable {ρ τ : Type} [UpdateRule ρ] [Pace τ] {nested : Nested ρ τ} {behaviour : Behaviour ρ τ}

/-- The inner plan of one run: with the overrides of the call, and from the time that a param of the call
sets, or else the enclosing current time. -/
def Call.innerPlan (call : Call) (plan : Plan) : Except Fault Plan := do
  let overridden ← applyOverrides call.params.values.entries plan
  let startTime ← call.params.getIndexD startTimeParam 0 call.view.timeline.current
  pure { overridden with startTime }

theorem Call.reply_of_forward (call : Call) (hmemory : nested.memory.isEmpty = true)
    (hheld : nested.behaviour = some behaviour) (hburn : nested.burnIn ≤ call.view.timeline.step) :
    (∃ fault, call.innerPlan nested.plan = .error fault ∧
        call.reply nested = .quiet nested (.error (.fault fault))) ∨
      ∃ inner, call.innerPlan nested.plan = .ok inner ∧
        Standalone inner behaviour (call.reply nested).result ∧
        ∀ state, (call.reply nested).result = .ok state → (call.reply nested).next =
          { nested with behaviour := (runToEnd inner behaviour).next } := by
  have hpast := Nat.not_lt.2 hburn
  have hoverridden : nested.overridden call.params =
    applyOverrides call.params.values.entries nested.plan := rfl
  simp only [innerPlan, reply, UpdateRule.advance, advance, if_neg hpast, hoverridden]
  cases hoverrides : applyOverrides call.params.values.entries nested.plan with
  | error fault => exact Or.inl ⟨fault, rfl, rfl⟩
  | ok overridden =>
      simp only [hmemory, if_true, bind, Except.bind]
      cases hstart : call.params.getIndexD startTimeParam 0 call.view.timeline.current with
      | error fault => exact Or.inl ⟨fault, rfl, rfl⟩
      | ok startTime =>
          refine Or.inr ⟨_, rfl, ?_⟩
          dsimp only [runForward]
          cases hcheck : Plan.check { overridden with startTime := startTime } with
          | error fault => exact ⟨.of_check_error hcheck, fun state h => by cases h⟩
          | ok _ =>
              rw [hheld]
              exact ⟨.of_runToEnd _ _, fun _ _ => rfl⟩

theorem runToEnd_next_of_steady {plan : Plan} (hsteady : behaviour.Steady) {state : State}
    (h : (runToEnd plan behaviour).result = .ok state) :
    (runToEnd plan behaviour).next = some behaviour := by
  unfold runToEnd at h ⊢
  split at h
  next => cases h
  next sim events hstart =>
    dsimp only at h ⊢
    split at h
    next => cases h
    next => cases h
    next hrun =>
      have hsame := Simulation.behaviour_of_start hstart
      have hback := Simulation.behaviour_runWithin_of_steady (Simulation.start_fits hstart).1
        (Simulation.start_eq_ok hstart).1 (hsame ▸ hsteady) hrun
      exact congrArg some (hback.trans hsame)

theorem steady_of_behaviour (hmemory : nested.memory.isEmpty = true)
    (hheld : nested.behaviour = some behaviour) (hsteady : behaviour.Steady) :
    UpdateRule.Steady nested := by
  intro params index view state hresult
  let call : Call := ⟨params, index, view⟩
  have hreply : (call.reply nested).result = .ok state := hresult
  change (call.reply nested).next = nested
  by_cases hburn : view.timeline.step < nested.burnIn
  · simp only [call, Call.reply, UpdateRule.advance, advance, if_pos hburn]
    rfl
  · rcases call.reply_of_forward hmemory hheld (Nat.le_of_not_lt hburn) with
      ⟨fault, -, hquiet⟩ | ⟨inner, -, hstandalone, hnext⟩
    · rw [hquiet]
      rfl
    · have hrun : (runToEnd inner behaviour).result = .ok state :=
        (Standalone.of_runToEnd inner behaviour).unique (hreply ▸ hstandalone)
      rw [hnext state hreply, runToEnd_next_of_steady hsteady hrun, ← hheld]

end Call

/-! ## Configured rules -/

theorem plan_configure {ρ τ : Type} [UpdateRule ρ] (index : Nat) (plan : Plan) (fresh : Nested ρ τ) :
    (fresh.configure index plan).2.plan = fresh.plan.tag := by
  unfold configure readParams
  dsimp only
  split
  · rfl
  split
  · rfl
  split
  · rfl
  split
  · rfl
  split
  · rfl
  split <;> rfl

theorem readMemory_of_no_route {params : Params} {names : List String} {memory next : Table Nat Nat}
    (hnames : ∀ name ∈ names, ∀ k, route? name ≠ some (k, memoryName))
    (h : readMemory params names memory = .ok next) : next = memory := by
  induction names with
  | nil =>
      cases h
      rfl
  | cons name rest ih =>
      obtain ⟨hname, hrest⟩ := List.forall_mem_cons.1 hnames
      rcases readMemory_cons h with ⟨k, o, hdeclares, -⟩ | ⟨-, hread⟩
      · exact absurd hdeclares.1 (hname k)
      · exact ih hrest hread

end Nested

def StockPace.KeepsNoState : StockPace → Prop
  | .exponential _ => False
  | _ => True

theorem StockPace.KeepsNoState.steady {pace : StockPace} (h : pace.KeepsNoState) : Pace.Steady pace := by
  intro timeline
  cases pace with
  | constant size => rfl
  | exponential pace => cases h
  | replay pace => rfl

def StockRule.KeepsNoState : StockRule → Prop
  | .walk _ => False
  | _ => True

theorem StockRule.KeepsNoState.steady {rule : StockRule} (h : rule.KeepsNoState) :
    UpdateRule.Steady rule := by
  intro params index view state _
  cases rule with
  | walk walk => cases h
  | hold => rfl
  | relay => rfl
  | replay replay => rfl

/-- A nested rule for a partition with the given params. None of these declares a memory; the inner pace
keeps no state, and each inner partition has a rule of the given kind for its own params. -/
structure Nested.Forward {ρ : Type} (kind : Params → ρ → Prop) (params : Params)
    (nested : Nested ρ StockPace) : Prop where
  names : ∀ name ∈ params.names, ∀ k, Nested.route? name ≠ some (k, Nested.memoryName)
  pace : ∀ behaviour, nested.behaviour = some behaviour → behaviour.pace.KeepsNoState
  rules : ∀ behaviour, nested.behaviour = some behaviour → ∀ (i : Nat) p rule,
    nested.plan.tag.partitions[i]? = some p → behaviour.rules[i]? = some rule → kind p.params rule

/-- The rules of a tower that keep no state, for a partition with the given params: inner simulations
without a memory, of any nesting, over stock rules that keep none. -/
def Tower.Forward : (n : Nat) → Params → Tower StockRule StockPace n → Prop
  | 0, _, rule => StockRule.KeepsNoState rule
  | n + 1, params, rule =>
      match (rule : Layer (Tower StockRule StockPace n) StockPace) with
      | .plain rule => Forward n params rule
      | .nested nested => nested.Forward (Forward n) params
      | .audited _ => False

namespace Nested.Forward

variable {ρ : Type} [UpdateRule ρ] {kind : Params → ρ → Prop} {index : Nat} {plan : Plan}
  {p : PartitionPlan} {fresh nested : Nested ρ StockPace}

theorem of_configure (h : fresh.Forward kind p.params)
    (hkind : ∀ index plan p rule next, Plan.partition plan index = .ok p → kind p.params rule →
      UpdateRule.configure index plan rule = (.ok (), next) → UpdateRule.Steady next)
    (hp : plan.partition index = .ok p) (hconfigure : fresh.configure index plan = (.ok (), nested)) :
    ∃ given behaviour, fresh.behaviour = some given ∧
      given.configure fresh.plan.tag = (.ok (), behaviour) ∧ nested.behaviour = some behaviour ∧
      nested.plan = fresh.plan.tag ∧ nested.memory.isEmpty = true ∧ behaviour.Steady := by
  obtain ⟨given, behaviour, p', hgiven, hcount, hbehaviour, hheld, hp', hmemory⟩ := configure_eq_ok hconfigure
  obtain rfl := Except.ok.inj (hp.symm.trans hp')
  have hplan : nested.plan = fresh.plan.tag :=
    (congrArg (fun reply => reply.2.plan) hconfigure).symm.trans (plan_configure index plan fresh)
  rw [hplan] at hcount hbehaviour
  have hempty : nested.memory = ∅ :=
    readMemory_of_no_route h.names (readMemory_of_findMemory hmemory)
  obtain ⟨hrules, hsame⟩ := Behaviour.configure_eq_ok.1 hbehaviour
  refine ⟨given, behaviour, hgiven, hbehaviour, hheld, hplan, hempty ▸ rfl, ⟨fun next hnext => ?_, ?_⟩⟩
  · obtain ⟨i, hi⟩ := List.mem_iff_getElem?.1 hnext
    obtain ⟨rule, hrule, hone⟩ := exists_given hrules hi
    have hlt : i < fresh.plan.tag.partitions.length :=
      Nat.lt_of_lt_of_eq (List.getElem?_eq_some_iff.1 hrule).1 hcount
    have hpartition := List.getElem?_eq_getElem hlt
    rw [Nat.zero_add] at hone
    exact hkind i _ _ _ _ (Plan.partition_eq_ok hpartition)
      (h.rules given hgiven i _ _ hpartition hrule) hone
  · rw [hsame]
    exact (h.pace given hgiven).steady

end Nested.Forward

/-- Once configured, the rules of a tower that keep no state are steady. -/
theorem Tower.Forward.steady {n : Nat} : ∀ {index : Nat} {plan : Plan} {p : PartitionPlan}
    {rule next : Tower StockRule StockPace n}, plan.partition index = .ok p →
    Tower.Forward n p.params rule → UpdateRule.configure index plan rule = (.ok (), next) →
    UpdateRule.Steady next := by
  induction n with
  | zero =>
      intro index plan p rule next _ hforward hconfigure
      have hkeeps : StockRule.KeepsNoState rule := hforward
      have hconfigured : StockRule.configure index plan rule = (.ok (), next) := hconfigure
      cases rule with
      | walk walk => cases hkeeps
      | hold | relay | replay =>
          cases hconfigured
          exact hkeeps.steady
  | succ n ih =>
      intro index plan p rule next hp hforward hconfigure
      have hconfigured : Layer.configure index plan rule = (.ok (), next) := hconfigure
      cases rule with
      | plain rule =>
          have hinner : Tower.Forward n p.params rule := hforward
          obtain ⟨hresult, hnext⟩ := Prod.mk.inj hconfigured
          have hsteady := ih hp hinner (Prod.ext hresult rfl)
          rw [← hnext]
          intro params index view state h
          exact congrArg Layer.plain (hsteady params index view state h)
      | nested inner =>
          have hinner : inner.Forward (Tower.Forward n) p.params := hforward
          obtain ⟨hresult, hnext⟩ := Prod.mk.inj hconfigured
          obtain ⟨given, behaviour, -, -, hheld, -, hmemory, hbehaviour⟩ :=
            hinner.of_configure (fun _ _ _ _ _ => ih) hp (Prod.ext hresult rfl)
          have hsteady := Nested.steady_of_behaviour hmemory hheld hbehaviour
          rw [← hnext]
          intro params index view state h
          exact congrArg Layer.nested (hsteady params index view state h)
      | audited audited => exact (hforward : False).elim

namespace Nested

variable {n index k : Nat} {plan : Plan} {p : PartitionPlan}
  {fresh nested : Nested (Tower StockRule StockPace n) StockPace} {calls : Nat → Call}

/-- A call past burn-in of a nested rule without memory, all earlier calls having succeeded, comes to what a
simulation comes to that is built and run on its own from the overridden inner plan and the inner behaviour
as configured. -/
theorem forward_run_is_standalone_run (hconfigure : UpdateRule.configure index plan fresh = (.ok (), nested))
    (hp : plan.partition index = .ok p) (hforward : fresh.Forward (Tower.Forward n) p.params)
    (hcalls : ∀ j < k, ∃ state, ((calls j).reply (nested.afterCalls calls j)).result = .ok state)
    (hburn : nested.burnIn ≤ (calls k).view.timeline.step) :
    ∃ given behaviour, fresh.behaviour = some given ∧
      given.configure fresh.plan.tag = (.ok (), behaviour) ∧
      nested.afterCalls calls k = nested ∧
      ∀ outcome, ((calls k).reply (nested.afterCalls calls k)).result = outcome ↔
        (∃ fault, (calls k).innerPlan fresh.plan.tag = .error fault ∧ outcome = .error (.fault fault)) ∨
          ∃ inner, (calls k).innerPlan fresh.plan.tag = .ok inner ∧ Standalone inner behaviour outcome := by
  obtain ⟨given, behaviour, hgiven, hbehaviour, hheld, hplan, hmemory, hsteady⟩ :=
    hforward.of_configure (fun _ _ _ _ _ => Tower.Forward.steady) hp hconfigure
  have hrule : UpdateRule.Steady nested := steady_of_behaviour hmemory hheld hsteady
  have hafter : ∀ j ≤ k, nested.afterCalls calls j = nested := by
    intro j hj
    induction j with
    | zero => rfl
    | succ j ih =>
        have hsame := ih (Nat.le_of_succ_le hj)
        obtain ⟨state, hstate⟩ := hcalls j hj
        rw [hsame] at hstate
        rw [afterCalls, hsame]
        exact hrule _ _ _ state hstate
  rw [hafter k (Nat.le_refl k)]
  refine ⟨given, behaviour, hgiven, hbehaviour, rfl, fun outcome => ?_⟩
  rw [← hplan]
  rcases (calls k).reply_of_forward hmemory hheld hburn with
    ⟨fault, hinner, hreply⟩ | ⟨inner, hinner, hstandalone, -⟩
  · rw [hreply, hinner]
    constructor
    · rintro rfl
      exact Or.inl ⟨fault, rfl, rfl⟩
    · rintro (⟨found, hfound, rfl⟩ | ⟨inner, hfound, -⟩)
      · cases hfound
        rfl
      · cases hfound
  · rw [hinner]
    constructor
    · rintro rfl
      exact Or.inr ⟨inner, rfl, hstandalone⟩
    · rintro (⟨fault, hfault, -⟩ | ⟨found, hfound, houtcome⟩)
      · cases hfault
      · cases hfound
        exact hstandalone.unique houtcome

/-- Two partitions: one runs a simulation of its own that holds a state for two steps, one relays a param. -/
def shellPlan : Plan where
  partitions := [
    ⟨"shell", .empty, ∅, [0], 0, 1, 1⟩,
    ⟨"dial", .ofList [(Relay.param, [5])], ∅, [0], 0, 1, 2⟩]
  startTime := 0
  timelineDepth := 2
  groups := []

def coreRule : Nested StockRule StockPace :=
  new ⟨[⟨"core", .empty, ∅, [3], 0, 1, 1⟩], 0, 1, []⟩ (.new [.hold] (.steps 2) (.constant 1))

def shellRule : Nested (Tower StockRule StockPace 1) StockPace :=
  new shellPlan (.new [Layer.nested coreRule, Layer.plain .relay] (.steps 1) (.constant 1))

def hostPlan : Plan := ⟨[⟨"host", .ofList [(burnInParam, [1])], ∅, [0, 0], 0, 2, 1⟩], 0, 1, []⟩

/-- The second call overrides the relayed param and the initial state inside; the others do not. -/
def shellCalls : Nat → Call
  | 1 => ⟨.ofList [("0/" ++ initialName, [8]), ("1/" ++ Relay.param, [7])], 0,
      ⟨[⟨[0, 0], 2, 1⟩], ⟨1, [], 1, 2⟩⟩⟩
  | k => ⟨.empty, 0, ⟨[⟨[0, 0], 2, 1⟩], ⟨0, [], 1, k⟩⟩⟩

theorem shellRule_runs_standalone :
    ∃ nested, UpdateRule.configure 0 hostPlan shellRule = (.ok (), nested) ∧
      ((shellCalls 1).reply (nested.afterCalls shellCalls 1)).result = .ok [3, 7] ∧
      ((shellCalls 2).reply (nested.afterCalls shellCalls 2)).result = .ok [3, 5] ∧
      nested.afterCalls shellCalls 2 = nested := by
  have hcore : coreRule.Forward (Tower.Forward 0) (Params.empty.withOwner "shell") := by
    refine ⟨fun name hname => ?_, fun b hb => ?_, fun b hb i q rule _ hrule => ?_⟩
    · cases hname
    · cases hb
      trivial
    · cases hb
      obtain rfl : StockRule.hold = rule := List.mem_singleton.1 (List.mem_of_getElem? hrule) ▸ rfl
      trivial
  have hforward : shellRule.Forward (Tower.Forward 1) (Params.ofList [(burnInParam, [1])]) := by
    refine ⟨fun name hname k => ?_, fun b hb => ?_, fun b hb i q rule hq hrule => ?_⟩
    · obtain rfl : name = burnInParam := List.mem_singleton.1 hname
      have hroute : route? burnInParam = none := rfl
      rw [hroute]
      rintro ⟨⟩
    · cases hb
      trivial
    · cases hb
      match i with
      | 0 =>
          cases hq
          cases hrule
          exact hcore
      | 1 =>
          cases hrule
          trivial
      | i + 2 => cases hrule
  obtain ⟨nested, hnested⟩ :
      ∃ nested, UpdateRule.configure 0 hostPlan shellRule = (.ok (), nested) := ⟨_, rfl⟩
  have hcalls : ∀ j < 2, ∃ state,
      ((shellCalls j).reply (nested.afterCalls shellCalls j)).result = .ok state := by
    cases hnested
    intro j hj
    match j with
    | 0 => exact ⟨[0, 0], rfl⟩
    | 1 => exact ⟨[3, 7], rfl⟩
  have hburn : nested.burnIn ≤ (shellCalls 2).view.timeline.step := by
    cases hnested
    decide
  obtain ⟨given, behaviour, hgiven, hbehaviour, hsame, houtcome⟩ :=
    forward_run_is_standalone_run hnested rfl hforward hcalls hburn
  cases hgiven
  cases hbehaviour
  refine ⟨nested, hnested, ?_, (houtcome _).2 (Or.inr ⟨_, rfl, ?_⟩), hsame⟩
  · cases hnested
    rfl
  · exact .of_runToEnd _ _

end Nested

end Tandem
