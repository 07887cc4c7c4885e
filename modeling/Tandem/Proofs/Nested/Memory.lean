import Tandem.Proofs.Nested.Replaying

/-!
# The memory of a nested rule

Configuring a nested rule accepts a memory only if every mapped inner partition has a rule that replays, and
calls keep that. So a call past burn-in that finds the enclosing windows gets to an inner run, in which
each mapped inner partition starts from the oldest row of its enclosing window and replays that window.
-/

namespace Tandem

namespace Nested

open UpdateRule

variable {ρ τ : Type} [UpdateRule ρ]

/-- The same places in both lists have replaying rules. -/
def SameKinds (before after : List ρ) : Prop :=
  List.Forall₂ (fun rule next => (replay? next).isSome = (replay? rule).isSome) before after

/-- What the memory of a nested rule relies on: there is a rule for each inner partition, and those of
mapped ones replay. -/
structure Prepared (nested : Nested ρ τ) : Prop where
  count : ∀ b, nested.behaviour = some b → b.rules.length = nested.plan.size
  replaying : ∀ b, nested.behaviour = some b → ∀ inner ∈ nested.memory.values,
    ∃ rule, b.rules[inner]? = some rule ∧ (replay? rule).isSome

/-! ## Configuring -/

theorem checkReplaying_eq_ok {rules : List ρ} {inners : List Nat}
    (h : checkReplaying rules inners = .ok ()) :
    ∀ inner ∈ inners, ∃ rule, rules[inner]? = some rule ∧ (replay? rule).isSome := by
  induction inners with
  | nil => simp
  | cons inner rest ih =>
      unfold checkReplaying at h
      split at h
      · cases h
      next rule hrule =>
        split at h
        · cases h
        next hreplay =>
          refine List.forall_mem_cons.2 ⟨⟨rule, hrule, ?_⟩, ih h⟩
          cases hfound : replay? rule with
          | none => simp [hfound] at hreplay
          | some replay => rfl

theorem findMemory_eq_ok {params : Params} {plan : Plan} {rules : List ρ} {memory : Table Nat Nat}
    {depth : Nat} (h : findMemory params plan rules = .ok (memory, depth)) :
    ∀ inner ∈ memory.values, ∃ rule, rules[inner]? = some rule ∧ (replay? rule).isSome := by
  unfold findMemory at h
  obtain ⟨found, -, h⟩ := bind_eq_ok h
  obtain ⟨_, hcheck, h⟩ := bind_eq_ok h
  obtain ⟨shared, -, h⟩ := bind_eq_ok h
  split at h
  · cases h
  · cases h
    exact checkReplaying_eq_ok hcheck

theorem length_configureRules (plan : Plan) (index : Nat) (rules : List ρ) :
    (configureRules plan index rules).2.length = rules.length := by
  induction rules generalizing index with
  | nil => rfl
  | cons rule rest ih =>
      unfold configureRules
      split
      · simp [ih]
      · simp

theorem readParams_eq_ok {params : Params} {plan : Plan} {rules : List ρ} {nested next : Nested ρ τ}
    (h : readParams params plan rules nested = (.ok (), next)) :
    ∃ memory depth burnIn, findMemory params plan rules = .ok (memory, depth) ∧
      next = { nested with memory := memory, depth := depth, burnIn := burnIn } := by
  unfold readParams at h
  split at h
  · cases h
  next memory depth hmemory =>
    dsimp only at h
    split at h
    · cases h
    · cases h
      exact ⟨memory, depth, _, hmemory, rfl⟩

/-- What a configured nested rule has taken from the enclosing plan, and what from its own behaviour. -/
theorem configure_eq_ok {index : Nat} {plan : Plan} {fresh nested : Nested ρ τ}
    (h : fresh.configure index plan = (.ok (), nested)) :
    ∃ given behaviour p, fresh.behaviour = some given ∧ given.rules.length = nested.plan.size ∧
      given.configure nested.plan = (.ok (), behaviour) ∧ nested.behaviour = some behaviour ∧
      plan.partition index = .ok p ∧
      findMemory p.params plan behaviour.rules = .ok (nested.memory, nested.depth) := by
  unfold configure at h
  dsimp only at h
  split at h
  · cases h
  next given hgiven =>
    split at h
    · cases h
    next hcount =>
      split at h
      · cases h
      next hresult =>
        split at h
        · cases h
        next p hp =>
          obtain ⟨memory, depth, burnIn, hmemory, rfl⟩ := readParams_eq_ok h
          exact ⟨given, _, p, hgiven, Classical.not_not.1 hcount, Prod.ext hresult rfl, rfl, hp, hmemory⟩

theorem length_rules_configure {plan : Plan} {given behaviour : Behaviour ρ τ}
    (h : given.configure plan = (.ok (), behaviour)) : behaviour.rules.length = given.rules.length :=
  (congrArg (fun b => b.rules.length) (congrArg Prod.snd h)).symm.trans (length_configureRules ..)

theorem prepared_configure {index : Nat} {plan : Plan} {fresh nested : Nested ρ τ}
    (h : fresh.configure index plan = (.ok (), nested)) : nested.Prepared := by
  obtain ⟨given, behaviour, p, -, hcount, hconfigure, hheld, -, hmemory⟩ := configure_eq_ok h
  refine ⟨fun b hb => ?_, fun b hb => ?_⟩
  · obtain rfl := Option.some.inj (hheld.symm.trans hb)
    exact (length_rules_configure hconfigure).trans hcount
  · obtain rfl := Option.some.inj (hheld.symm.trans hb)
    exact findMemory_eq_ok hmemory

/-! ## Calling -/

theorem size_applyOverrides {entries : List (String × List Float)} {plan next : Plan}
    (h : applyOverrides entries plan = .ok next) : next.size = plan.size := by
  induction entries generalizing plan with
  | nil =>
      cases h
      rfl
  | cons entry rest ih =>
      obtain ⟨name, values⟩ := entry
      unfold applyOverrides at h
      split at h
      · exact ih h
      next inner field _ =>
        obtain ⟨p, -, h⟩ := bind_eq_ok h
        exact (ih h).trans List.length_set

theorem loadMemory_cons {view : View} {depth outer inner : Nat} {rest : List (Nat × Nat)} {plan : Plan}
    {rules : List ρ} {window : Window} {oldest : State} {p : PartitionPlan} {rule : ρ}
    (hwindow : view.windows[outer]? = some window) (holdest : window.row (depth - 1) = .ok oldest)
    (hp : plan.partitions[inner]? = some p) (hrule : rules[inner]? = some rule)
    (hreplay : (replay? rule).isSome) :
    loadMemory view depth ((outer, inner) :: rest) plan rules =
      loadMemory view depth rest
        { plan with partitions := plan.partitions.set inner { p with initial := oldest } }
        (rules.set inner (store window rule)) := by
  have hnone : ¬ (replay? rule).isNone := by
    rwa [← Option.isSome_iff_ne_none.trans Option.isNone_iff_eq_none.not.symm]
  simp only [loadMemory, View.window, hwindow, holdest, hp, hrule, bind, Except.bind, pure, Except.pure,
    if_neg hnone]

theorem SameKinds.refl (rules : List ρ) : SameKinds rules rules :=
  List.forall₂_same.2 fun _ _ => rfl

theorem SameKinds.trans {first second third : List ρ} (h : SameKinds first second)
    (h' : SameKinds second third) : SameKinds first third :=
  forall₂_trans (fun hfirst hsecond => hsecond.trans hfirst) h h'

theorem SameKinds.exists_replaying {before after : List ρ} (h : SameKinds before after) {i : Nat}
    (hbefore : ∃ rule, before[i]? = some rule ∧ (replay? rule).isSome) :
    ∃ rule, after[i]? = some rule ∧ (replay? rule).isSome := by
  obtain ⟨rule, hrule, hreplay⟩ := hbefore
  obtain ⟨next, hnext, hsame⟩ := exists_of_forall₂ h hrule
  exact ⟨next, hnext, hsame.trans hreplay⟩

/-- What a call leaves of a nested rule: all but the inner behaviour, which keeps its kinds of rules. -/
structure Kept (nested next : Nested ρ τ) : Prop where
  plan : next.plan = nested.plan
  memory : next.memory = nested.memory
  depth : next.depth = nested.depth
  burnIn : next.burnIn = nested.burnIn
  rules : ∀ after, next.behaviour = some after → ∃ before, nested.behaviour = some before ∧
    SameKinds before.rules after.rules

theorem Kept.refl (nested : Nested ρ τ) : nested.Kept nested :=
  ⟨rfl, rfl, rfl, rfl, fun after h => ⟨after, h, .refl _⟩⟩

theorem Kept.trans {first second third : Nested ρ τ} (h : first.Kept second) (h' : second.Kept third) :
    first.Kept third where
  plan := h'.plan.trans h.plan
  memory := h'.memory.trans h.memory
  depth := h'.depth.trans h.depth
  burnIn := h'.burnIn.trans h.burnIn
  rules := by
    intro last hlast
    obtain ⟨middle, hmiddle, hlater⟩ := h'.rules last hlast
    obtain ⟨before, hbefore, hkinds⟩ := h.rules middle hmiddle
    exact ⟨before, hbefore, hkinds.trans hlater⟩

theorem kept_withRules {nested : Nested ρ τ} {behaviour : Behaviour ρ τ} {rules : List ρ}
    (h : nested.behaviour = some behaviour) (hkinds : SameKinds behaviour.rules rules) :
    nested.Kept { nested with behaviour := some { behaviour with rules := rules } } := by
  refine ⟨rfl, rfl, rfl, rfl, fun after hafter => ⟨behaviour, h, ?_⟩⟩
  cases hafter
  exact hkinds

theorem Kept.prepared {nested next : Nested ρ τ} (hkept : nested.Kept next) (h : nested.Prepared) :
    next.Prepared := by
  refine ⟨fun after hafter => ?_, fun after hafter inner hinner => ?_⟩
  · obtain ⟨before, hbefore, hkinds⟩ := hkept.rules after hafter
    rw [hkept.plan, ← h.count before hbefore]
    exact hkinds.length_eq.symm
  · obtain ⟨before, hbefore, hkinds⟩ := hkept.rules after hafter
    exact hkinds.exists_replaying (h.replaying before hbefore inner (hkept.memory ▸ hinner))

variable [ReplayRules ρ]

theorem sameKinds_set {rules : List ρ} {i : Nat} {rule : ρ} (h : rules[i]? = some rule)
    (window : Window) : SameKinds rules (rules.set i (store window rule)) := by
  refine forall₂_set ?_ h (ReplayRules.isSome_replay?_store window rule)
  exact fun _ => rfl

theorem sameKinds_of_handled {before after : List ρ} (h : List.Forall₂ Handled before after) :
    SameKinds before after :=
  h.imp fun _ _ hhandled => hhandled.isSome_replay?

omit [ReplayRules ρ] in
theorem handled_loadMemory (view : View) (depth : Nat) (entries : List (Nat × Nat)) (plan : Plan)
    (rules : List ρ) : List.Forall₂ Handled rules (loadMemory view depth entries plan rules).2 := by
  have hrefl : ∀ rules : List ρ, List.Forall₂ Handled rules rules := fun _ =>
    List.forall₂_same.2 fun _ _ => .refl
  induction entries generalizing plan rules with
  | nil => exact hrefl _
  | cons entry rest ih =>
      obtain ⟨outer, inner⟩ := entry
      unfold loadMemory
      split
      · exact hrefl _
      next data initial _ =>
        split
        next p rule hp hrule =>
          split
          · exact hrefl _
          · have hset : List.Forall₂ Handled rules (rules.set inner (store data rule)) :=
              forall₂_set (fun _ => .refl) hrule (Handled.refl.store data)
            exact forall₂_trans (fun hfirst hsecond => hfirst.trans hsecond) hset (ih _ _)
        next => exact hrefl _

omit [ReplayRules ρ] in
theorem intact_runToEnd {σ : Type} [Pace σ] {plan : Plan} {behaviour after : Behaviour ρ σ}
    (h : (runToEnd plan behaviour).next = some after) : behaviour.Intact after := by
  unfold runToEnd at h
  split at h
  · cases h
  next sim events hstart =>
    dsimp only at h
    split at h
    · cases h
    · cases h
      exact Simulation.intact_run hstart
    · cases h
      exact Simulation.intact_run hstart

theorem kept_runReplay (plan : Plan) (record : Timeline) (nested : Nested ρ τ) :
    nested.Kept (runReplay plan record nested).next := by
  unfold runReplay
  split
  · exact .refl _
  · split
    · exact .refl _
    next behaviour hbehaviour =>
      refine ⟨rfl, rfl, rfl, rfl, fun after hafter => ⟨behaviour, hbehaviour, ?_⟩⟩
      obtain ⟨found, hfound, rfl⟩ := Option.map_eq_some_iff.1 hafter
      exact sameKinds_of_handled (intact_runToEnd hfound).rules

theorem kept_replay (view : View) (plan : Plan) (nested : Nested ρ τ) :
    nested.Kept (replay view plan nested).next := by
  unfold replay
  split
  · exact .refl _
  · split
    · exact .refl _
    · split
      · exact .refl _
      next hbehaviour =>
        have hkinds : ∀ plan (rules : List ρ), SameKinds rules
            (loadMemory view nested.depth nested.memory.entries plan rules).2 :=
          fun _ _ => sameKinds_of_handled (handled_loadMemory _ _ _ _ _)
        dsimp only
        split
        · exact kept_withRules hbehaviour (hkinds _ _)
        · exact (kept_withRules hbehaviour (hkinds _ _)).trans (kept_runReplay _ _ _)

variable [Pace τ]

theorem kept_runForward (plan : Plan) (nested : Nested ρ τ) :
    nested.Kept (runForward plan nested).next := by
  unfold runForward
  split
  · exact .refl _
  · split
    · exact .refl _
    next behaviour hbehaviour =>
      exact ⟨rfl, rfl, rfl, rfl, fun after hafter =>
        ⟨behaviour, hbehaviour, sameKinds_of_handled (intact_runToEnd hafter).rules⟩⟩

theorem kept_advance (params : Params) (index : Nat) (view : View) (nested : Nested ρ τ) :
    nested.Kept (nested.advance params index view).next := by
  unfold advance
  split
  · exact .refl _
  · split
    · exact .refl _
    · split
      · split
        · exact .refl _
        · exact kept_runForward _ _
      · exact kept_replay _ _ _

/-- A nested rule that was configured for a partition of a plan, and perhaps called since. -/
inductive Configured (index : Nat) (plan : Plan) : Nested ρ τ → Prop
  | configure {fresh nested : Nested ρ τ}
      (h : UpdateRule.configure index plan fresh = (.ok (), nested)) : Configured index plan nested
  | advance {nested : Nested ρ τ} (h : Configured index plan nested) (params : Params) (view : View) :
      Configured index plan (UpdateRule.advance params index view nested).next

theorem Configured.prepared {index : Nat} {plan : Plan} {nested : Nested ρ τ}
    (h : nested.Configured index plan) : nested.Prepared := by
  induction h with
  | configure h => exact prepared_configure h
  | advance _ params view ih => exact (kept_advance params index view _).prepared ih

/-! ## Getting to an inner run -/

/-- The windows of all mapped enclosing partitions have the shared depth, and their oldest rows can be
read. -/
def Covers (view : View) (nested : Nested ρ τ) : Prop :=
  ∀ outer ∈ nested.memory.keys, ∃ window oldest, view.windows[outer]? = some window ∧
    window.depth = nested.depth ∧ window.row (nested.depth - 1) = .ok oldest

/-- Inner partition `k`, else planned as `p`, starts from the state `oldest` and replays `window`. -/
structure Loaded (k : Nat) (p : PartitionPlan) (window : Window) (oldest : State) (plan : Plan)
    (rules : List ρ) : Prop where
  rule : rules[k]? = some (ReplayRules.ofReplay ⟨some window⟩)
  partition : plan.partitions[k]? = some { p with initial := oldest }

theorem exists_loadMemory {view : View} {depth outer k : Nat} {window : Window} {oldest : State}
    (hwindow : view.windows[outer]? = some window) (holdest : window.row (depth - 1) = .ok oldest)
    {entries : List (Nat × Nat)} {plan : Plan} {rules : List ρ} {p : PartitionPlan}
    (hcovers : ∀ entry ∈ entries, ∃ window oldest, view.windows[entry.1]? = some window ∧
      window.row (depth - 1) = .ok oldest)
    (hrules : ∀ entry ∈ entries, entry.2 < plan.size ∧
      ∃ rule, rules[entry.2]? = some rule ∧ (replay? rule).isSome)
    (honly : ∀ entry ∈ entries, entry.2 = k → entry.1 = outer)
    (hk : Loaded k p window oldest plan rules ∨ (∃ entry ∈ entries, entry.2 = k) ∧
      plan.partitions[k]? = some p ∧ ∃ r, rules[k]? = some (ReplayRules.ofReplay r)) :
    ∃ inner loaded, loadMemory view depth entries plan rules = (.ok inner, loaded) ∧
      inner.startTime = plan.startTime ∧ Loaded k p window oldest inner loaded := by
  induction entries generalizing plan rules with
  | nil =>
      rcases hk with hk | ⟨⟨entry, hentry, -⟩, -⟩
      · exact ⟨plan, rules, rfl, rfl, hk⟩
      · simp at hentry
  | cons entry rest ih =>
      obtain ⟨first, target⟩ := entry
      obtain ⟨⟨data, initial, hdata, hinitial⟩, hcoversRest⟩ := List.forall_mem_cons.1 hcovers
      obtain ⟨⟨htarget, rule, hrule, hreplay⟩, hrulesRest⟩ := List.forall_mem_cons.1 hrules
      obtain ⟨hfirst, honlyRest⟩ := List.forall_mem_cons.1 honly
      have hp := List.getElem?_eq_getElem htarget
      rw [loadMemory_cons hdata hinitial hp hrule hreplay]
      refine ih hcoversRest (fun entry hentry => ?_) honlyRest ?_
      · obtain ⟨hlt, hkind⟩ := hrulesRest entry hentry
        exact ⟨Nat.lt_of_lt_of_eq hlt List.length_set.symm,
          (sameKinds_set hrule data).exists_replaying hkind⟩
      · by_cases heq : target = k
        · subst heq
          obtain rfl := hfirst rfl
          obtain rfl := Option.some.inj (hwindow.symm.trans hdata)
          obtain rfl := Except.ok.inj (holdest.symm.trans hinitial)
          obtain ⟨hplanned, r, hr⟩ : { plan.partitions[target] with initial := oldest } =
                { p with initial := oldest } ∧ ∃ r, rules[target]? = some (ReplayRules.ofReplay r) := by
            rcases hk with hloaded | ⟨-, hfound, hr⟩
            · have heq := Option.some.inj (hp.symm.trans hloaded.partition)
              exact ⟨by rw [heq], _, hloaded.rule⟩
            · have heq := Option.some.inj (hp.symm.trans hfound)
              exact ⟨by rw [heq], hr⟩
          obtain rfl := Option.some.inj (hrule.symm.trans hr)
          have hlt := (List.getElem?_eq_some_iff.1 hrule).1
          refine Or.inl ⟨?_, (List.getElem?_set_self htarget).trans (congrArg some hplanned)⟩
          rw [List.getElem?_set_self hlt, ReplayRules.store_ofReplay]
        · rcases hk with ⟨hsame, hfound⟩ | ⟨⟨entry, hentry, hmapped⟩, hfound, r, hr⟩
          · refine Or.inl ⟨?_, ?_⟩
            · rwa [List.getElem?_set_ne heq]
            · rwa [List.getElem?_set_ne heq]
          · refine Or.inr ⟨⟨entry, ?_, hmapped⟩, ?_, r, ?_⟩
            · rcases List.mem_cons.1 hentry with rfl | hrest
              · exact absurd hmapped heq
              · exact hrest
            · rwa [List.getElem?_set_ne heq]
            · rwa [List.getElem?_set_ne heq]

omit [UpdateRule ρ] [ReplayRules ρ] [Pace τ] in
theorem exists_recordOf {depth : Nat} {timeline : Timeline} (hpos : 0 < depth)
    (hle : depth ≤ timeline.depth) :
    ∃ record, recordOf depth timeline = .ok record ∧ record.depth = depth ∧
      record.increment = timeline.increment ∧ ∀ i < depth, record.timeAt i = timeline.timeAt i := by
  obtain ⟨n, rfl⟩ := Nat.exists_eq_succ_of_ne_zero (Nat.ne_of_gt hpos)
  let record : Timeline :=
    ⟨timeline.current, timeline.past.take n, timeline.increment, timeline.step⟩
  have hcut : record.times = timeline.times.take (n + 1) := rfl
  refine ⟨record, ?_, ?_, rfl, fun i hi => ?_⟩
  · rw [recordOf, if_neg (Nat.not_lt.2 hle)]
    rfl
  · rw [← Timeline.length_times, hcut, List.length_take, Timeline.length_times, Nat.min_eq_left hle]
  · rw [Timeline.timeAt, hcut, List.getElem?_take_of_lt hi]
    rfl

theorem Prepared.advance_eq {params : Params} {view : View} {nested : Nested ρ τ} {overrides : Plan}
    {behaviour : Behaviour ρ τ} {outer k : Nat} {r : Replay} (h : nested.Prepared) (index : Nat)
    (hburn : nested.burnIn ≤ view.timeline.step) (hbehaviour : nested.behaviour = some behaviour)
    (hoverrides : nested.overridden params = .ok overrides) (hcovers : Covers view nested)
    (htimes : nested.depth ≤ view.timeline.depth) (hentry : nested.memory.get? outer = some k)
    (honly : ∀ other, nested.memory.get? other = some k → other = outer)
    (hrule : behaviour.rules[k]? = some (ReplayRules.ofReplay r)) :
    ∃ p window oldest start record inner loaded,
      overrides.partitions[k]? = some p ∧ view.windows[outer]? = some window ∧ window.depth = nested.depth ∧
      window.row (nested.depth - 1) = .ok oldest ∧
      view.timeline.timeAt (nested.depth - 1) = .ok start ∧
      recordOf nested.depth view.timeline = .ok record ∧
      loadMemory view nested.depth nested.memory.entries { overrides with startTime := start }
        behaviour.rules = (.ok inner, loaded) ∧
      inner.startTime = start ∧ Loaded k p window oldest inner loaded ∧
      nested.advance params index view =
        runReplay inner record { nested with behaviour := some { behaviour with rules := loaded } } := by
  have hget : ∀ entry ∈ nested.memory.entries, nested.memory.get? entry.1 = some entry.2 :=
    fun entry hmem => Table.mem_entries_iff.1 hmem
  obtain ⟨window, oldest, hwindow, hdepth, holdest⟩ := hcovers outer (Table.mem_keys_iff.2 ⟨k, hentry⟩)
  have hpos : 0 < nested.depth := by
    have hlt := hdepth ▸ Window.lt_depth_of_row holdest
    omega
  obtain ⟨record, hrecord, hlength, -, hsame⟩ := exists_recordOf hpos htimes
  have hlast : nested.depth - 1 < nested.depth := by omega
  obtain ⟨start, hstart⟩ : ∃ start, record.timeAt (nested.depth - 1) = .ok start := by
    have hlt : nested.depth - 1 < record.times.length := by rwa [Timeline.length_times, hlength]
    exact ⟨_, by rw [Timeline.timeAt, List.getElem?_eq_getElem hlt]⟩
  have hsize : overrides.size = nested.plan.size := size_applyOverrides hoverrides
  have hlt : ∀ {i : Nat} {rule : ρ}, behaviour.rules[i]? = some rule → i < overrides.size := by
    intro i rule hfound
    rw [hsize, ← h.count behaviour hbehaviour]
    exact (List.getElem?_eq_some_iff.1 hfound).1
  have hp := List.getElem?_eq_getElem (hlt hrule)
  obtain ⟨inner, loaded, hload, htime, hloaded⟩ : ∃ inner loaded,
      loadMemory view nested.depth nested.memory.entries { overrides with startTime := start }
        behaviour.rules = (.ok inner, loaded) ∧
      inner.startTime = start ∧ Loaded k _ window oldest inner loaded := by
    refine exists_loadMemory hwindow holdest (fun entry hmem => ?_) (fun entry hmem => ?_)
      (fun entry hmem hk => honly _ (hk ▸ hget entry hmem))
      (Or.inr ⟨⟨(outer, k), Table.mem_entries_iff.2 hentry, rfl⟩, hp, r, hrule⟩)
    · obtain ⟨data, initial, hdata, -, hinitial⟩ :=
        hcovers entry.1 (Table.mem_keys_iff.2 ⟨_, hget entry hmem⟩)
      exact ⟨data, initial, hdata, hinitial⟩
    · obtain ⟨rule, hfound, hreplay⟩ :=
        h.replaying behaviour hbehaviour entry.2 (Table.mem_values_iff.2 ⟨_, hget entry hmem⟩)
      exact ⟨hlt hfound, rule, hfound, hreplay⟩
  refine ⟨_, window, oldest, start, record, inner, loaded, hp, hwindow, hdepth, holdest,
    (hsame _ hlast).symm.trans hstart, hrecord, hload, htime, hloaded, ?_⟩
  have hempty : nested.memory.isEmpty = false :=
    List.isEmpty_eq_false_iff_exists_mem.2 ⟨_, Table.mem_entries_iff.2 hentry⟩
  simp only [advance, if_neg (Nat.not_lt.2 hburn), hoverrides, hempty, replay, hrecord, hstart,
    hbehaviour, hload, Bool.false_eq_true, if_false]

end Nested

end Tandem
