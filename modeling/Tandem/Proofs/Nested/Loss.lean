import Tandem.Proofs.Causes
import Tandem.Proofs.Nested.Memory
import Tandem.Proofs.Start

/-!
# When a nested rule loses its behaviour

A nested rule hands its inner behaviour to every inner run and takes it back from it, complete, however the
run ends. Of the calls that return only those lose it whose inner run is not even built, because the inner
output turns down an initial state. Until then no call fails for want of a behaviour.
-/

namespace Tandem

variable {α β : Type}

/-! ## Checks that do not look at behaviours -/

def Nested.lost : Fault := .invalid .innerLost

open Nested (lost)

theorem bind_ne_lost {x : Except Fault α} {f : α → Except Fault β} (hx : x ≠ .error lost)
    (hf : ∀ a, f a ≠ .error lost) : (x >>= f) ≠ .error lost := by
  cases x with
  | error fault => exact fun h => hx (congrArg Except.error (Except.error.inj h))
  | ok a => exact hf a

theorem liftM_ne_fault (x : Except Crash α) (fault : Fault) :
    (liftM x : Outcome α) ≠ .error (.fault fault) := by
  cases x <;> exact fun h => by cases h

namespace Plan

theorem partition_ne_lost (plan : Plan) (index : Nat) : plan.partition index ≠ .error lost := by
  unfold partition
  split <;> rintro ⟨⟩

theorem checkFeeds_ne_lost (plan : Plan) (reader : String) (feeds : List (String × Feed)) :
    plan.checkFeeds reader feeds ≠ .error lost := by
  induction feeds with
  | nil => rintro ⟨⟩
  | cons entry rest ih =>
      refine bind_ne_lost (plan.partition_ne_lost _) fun source => ?_
      split
      · rintro ⟨⟩
      · exact ih

theorem checkPartitions_ne_lost (plan : Plan) (seen : List String) (partitions : List PartitionPlan) :
    plan.checkPartitions seen partitions ≠ .error lost := by
  induction partitions generalizing seen with
  | nil => rintro ⟨⟩
  | cons p rest ih =>
      unfold checkPartitions
      split
      · rintro ⟨⟩
      · refine bind_ne_lost ?_ fun _ => ih _
        unfold checkPartition
        split_ifs
        all_goals first | exact plan.checkFeeds_ne_lost _ _ | rintro ⟨⟩

theorem groupStop_ne_lost (next : Nat) (group : List Nat) : groupStop next group ≠ .error lost := by
  induction group generalizing next with
  | nil => rintro ⟨⟩
  | cons index rest ih =>
      unfold groupStop
      split
      · exact ih _
      · rintro ⟨⟩

theorem groupRanges_ne_lost (total next : Nat) (groups : List (List Nat)) :
    groupRanges total next groups ≠ .error lost := by
  induction groups generalizing next with
  | nil =>
      unfold groupRanges
      split <;> rintro ⟨⟩
  | cons group rest ih =>
      cases group with
      | nil => rintro ⟨⟩
      | cons index group =>
          exact bind_ne_lost (groupStop_ne_lost _ _) fun stop =>
            bind_ne_lost (ih stop) fun _ => by rintro ⟨⟩

theorem check_ne_lost (plan : Plan) : plan.check ≠ .error lost := by
  refine bind_ne_lost ?_ fun _ => by rintro ⟨⟩
  unfold schedule
  split
  · rintro ⟨⟩
  · refine bind_ne_lost (plan.checkPartitions_ne_lost _ _) fun _ => bind_ne_lost ?_ fun ranges =>
      bind_ne_lost ?_ fun _ => by rintro ⟨⟩
    · unfold Plan.ranges
      split
      · rintro ⟨⟩
      · exact groupRanges_ne_lost _ _ _
    · unfold order
      dsimp only
      split
      · rintro ⟨⟩
      · split <;> rintro ⟨⟩

end Plan

theorem Params.getIndexD_ne_lost (params : Params) (name : String) (index : Nat) (default : Float) :
    params.getIndexD name index default ≠ .error lost := by
  unfold getIndexD
  split
  · refine bind_ne_lost ?_ fun values => ?_
    · unfold get
      split <;> rintro ⟨⟩
    · split <;> rintro ⟨⟩
  · rintro ⟨⟩

namespace Nested

theorem applyOverrides_ne_lost (entries : List (String × List Float)) (plan : Plan) :
    applyOverrides entries plan ≠ .error lost := by
  induction entries generalizing plan with
  | nil => rintro ⟨⟩
  | cons entry rest ih =>
      obtain ⟨name, values⟩ := entry
      unfold applyOverrides
      split
      · exact ih _
      · exact bind_ne_lost (plan.partition_ne_lost _) fun _ => ih _

theorem recordOf_ne_lost (depth : Nat) (timeline : Timeline) : recordOf depth timeline ≠ .error lost := by
  unfold recordOf
  split
  · rintro ⟨⟩
  · unfold Timeline.ofTimes
    split <;> rintro ⟨⟩

variable {ρ τ : Type} [UpdateRule ρ] [Pace τ]

omit [Pace τ] in
theorem loadMemory_ne_lost {view : View} {depth : Nat} {entries : List (Nat × Nat)} {plan : Plan}
    {rules : List ρ} {stop : Stop} (h : (loadMemory view depth entries plan rules).1 = .error stop) :
    (.error stop : Outcome State) ≠ .error (.fault lost) := by
  induction entries generalizing plan rules with
  | nil => cases h
  | cons entry rest ih =>
      obtain ⟨outer, inner⟩ := entry
      unfold loadMemory at h
      split at h
      · cases h
        rintro ⟨⟩
      · split at h
        · split at h
          · cases h
            rintro ⟨⟩
          · exact ih h
        · cases h
          rintro ⟨⟩

omit [Pace τ] in
theorem size_loadMemory {view : View} {depth : Nat} {entries : List (Nat × Nat)} {plan inner : Plan}
    {rules : List ρ} (h : (loadMemory view depth entries plan rules).1 = .ok inner) :
    inner.size = plan.size := by
  induction entries generalizing plan rules with
  | nil =>
      cases h
      rfl
  | cons entry rest ih =>
      obtain ⟨outer, target⟩ := entry
      unfold loadMemory at h
      split at h
      · cases h
      · split at h
        · split at h
          · cases h
          · exact (ih h).trans List.length_set
        · cases h

theorem replayPace_ne_lost (timeline : Timeline) (pace : ReplayPace) :
    (Pace.next timeline pace).1 ≠ .error (.fault lost) := by
  simp only [Pace.next, ReplayPace.increment]
  split
  · split
    · rintro ⟨⟩
    · cases pace.data.timeAt (pace.data.depth - timeline.step - 1) <;>
        cases pace.data.timeAt (pace.data.depth - timeline.step) <;> rintro ⟨⟩
  · split <;> rintro ⟨⟩

/-! ## Inner runs -/

section InnerRun

variable {plan : Plan} {behaviour : Behaviour ρ τ}

/-- A run that returns gives its behaviour back, unless the output turns down an initial state. -/
theorem runToEnd_next_eq_none_iff (hcheck : plan.check = .ok ())
    (hcount : behaviour.rules.length = plan.size) (hreturns : (runToEnd plan behaviour).Returns) :
    (runToEnd plan behaviour).next = none ↔ ¬ behaviour.output.Accepts plan := by
  have hprepare : ∃ parts, Simulation.prepare plan behaviour = .ok parts := by
    rcases Simulation.exists_prepare_or_crash hcheck hcount with hparts | ⟨crash, hcrash⟩
    · exact hparts
    · refine absurd ?_ (hreturns crash)
      simp only [runToEnd, Simulation.start_of_prepare_error hcrash]
  have hstart : (∃ sim, (Simulation.start plan behaviour).1 = .ok sim) ↔ behaviour.output.Accepts plan :=
    Simulation.exists_start_iff.trans (and_iff_right hprepare)
  rw [← hstart]
  unfold runToEnd at hreturns ⊢
  split
  next stop events h => simp [h]
  next sim events h =>
    simp only [h] at hreturns
    dsimp only
    split
    next crash hcrash =>
      simp only [hcrash] at hreturns
      exact absurd rfl (hreturns crash)
    · simp [h]
    · simp [h]

omit [UpdateRule ρ] [Pace τ] in
theorem start_ne_lost (hcheck : plan.check = .ok ()) (hcount : behaviour.rules.length = plan.size) :
    (Simulation.start plan behaviour).1 ≠ .error (.fault lost) := by
  rcases Simulation.exists_prepare_or_crash hcheck hcount with hparts | ⟨crash, hcrash⟩
  · rcases Simulation.exists_start_or_turned_down hparts with ⟨sim, hsim⟩ | ⟨p, -, stop, hoffer, hstart⟩
    · rw [hsim]
      rintro ⟨⟩
    · rw [hstart]
      rcases Output.offer_eq_error hoffer with ⟨crash, rfl, -⟩ | ⟨fault, rfl, -⟩
      · rintro ⟨⟩
      · rintro ⟨⟩
  · rw [Simulation.start_of_prepare_error hcrash]
    rintro ⟨⟩

theorem runToEnd_ne_lost (hcheck : plan.check = .ok ()) (hcount : behaviour.rules.length = plan.size)
    (hpace : ∀ timeline (pace : τ), (Pace.next timeline pace).1 ≠ .error (.fault lost)) :
    (runToEnd plan behaviour).result ≠ .error (.fault lost) := by
  intro hlost
  unfold runToEnd at hlost
  split at hlost
  next stop events h =>
    cases hlost
    exact start_ne_lost hcheck hcount (congrArg Prod.fst h)
  next sim events h =>
    dsimp only at hlost
    split at hlost
    next => cases hlost
    next fault hfault =>
      cases hlost
      obtain ⟨later, hlater, hstep⟩ := Simulation.exists_step_fault
        (motive := Attainable plan behaviour) (fun sim hsim => hsim.step sim.output)
        (.start h) hfault
      obtain ⟨-, -, -, hinvalid, -⟩ :=
        (Simulation.cause_of_step_error hlater later.output hstep).excludes fun pace hnext =>
          hpace _ _ (congrArg Prod.fst hnext)
      exact hinvalid _ rfl
    next => exact liftM_ne_fault _ _ hlost

end InnerRun

/-! ## Calls -/

structure Call where
  params : Params
  index : Nat
  view : View

namespace Call

def reply (call : Call) (nested : Nested ρ τ) : Reply Emission (Nested ρ τ) State :=
  UpdateRule.advance call.params call.index call.view nested

/-- The call gets to an inner run of a runnable plan: forward from some time, or along a record of the
enclosing times after the enclosing windows have been loaded. -/
inductive Attempts (call : Call) (nested : Nested ρ τ) (behaviour : Behaviour ρ τ) :
    Plan → List ρ → Option Timeline → Prop
  | forward {overrides : Plan} {start : Float} (hburn : nested.burnIn ≤ call.view.timeline.step)
      (hoverrides : nested.overridden call.params = .ok overrides) (hmemory : nested.memory.isEmpty = true)
      (hstart : call.params.getIndexD startTimeParam 0 call.view.timeline.current = .ok start)
      (hcheck : Plan.check { overrides with startTime := start } = .ok ()) :
      Attempts call nested behaviour { overrides with startTime := start } behaviour.rules none
  | replay {overrides inner : Plan} {rules : List ρ} {record : Timeline} {start : Float}
      (hburn : nested.burnIn ≤ call.view.timeline.step)
      (hoverrides : nested.overridden call.params = .ok overrides) (hmemory : nested.memory.isEmpty = false)
      (hrecord : recordOf nested.depth call.view.timeline = .ok record)
      (hstart : record.timeAt (nested.depth - 1) = .ok start)
      (hload : loadMemory call.view nested.depth nested.memory.entries
        { overrides with startTime := start } behaviour.rules = (.ok inner, rules))
      (hcheck : inner.check = .ok ()) : Attempts call nested behaviour inner rules (some record)

variable {call : Call} {nested : Nested ρ τ} {behaviour : Behaviour ρ τ}

/-- The call leaves the behaviour complete, with its own pace, and does not miss it. -/
structure Keeps (call : Call) (nested : Nested ρ τ) (behaviour : Behaviour ρ τ) : Prop where
  held : ∃ after, (call.reply nested).next.behaviour = some after ∧ behaviour.Intact after ∧
    after.pace = behaviour.pace
  result : (call.reply nested).result ≠ .error (.fault lost)

theorem keeps_of_reply {rules : List ρ} {result : Outcome State}
    (hrules : List.Forall₂ Handled behaviour.rules rules)
    (hreply : call.reply nested =
      .quiet { nested with behaviour := some { behaviour with rules := rules } } result)
    (hresult : result ≠ .error (.fault lost)) : call.Keeps nested behaviour := by
  refine ⟨⟨{ behaviour with rules := rules }, ?_, ⟨hrules, rfl, rfl, .refl⟩, rfl⟩, ?_⟩
  · rw [hreply]
    rfl
  · rw [hreply]
    exact hresult

theorem keeps_of_quiet (result : Outcome State) (hheld : nested.behaviour = some behaviour)
    (hreply : call.reply nested = .quiet nested result) (hresult : result ≠ .error (.fault lost)) :
    call.Keeps nested behaviour := by
  have hsame : nested = { nested with behaviour := some behaviour } := by rw [← hheld]
  exact keeps_of_reply (List.forall₂_same.2 fun _ _ => .refl) (hsame ▸ hreply) hresult

omit [UpdateRule ρ] [Pace τ] in
theorem ne_lost_of_check {x : Except Fault α} {fault : Fault} (hx : x = .error fault) (hlost : x ≠ .error lost) :
    (.error (.fault fault) : Outcome State) ≠ .error (.fault lost) := by
  intro h
  cases h
  exact hlost hx

theorem forward_attempts_or_keeps {overrides : Plan} (hheld : nested.behaviour = some behaviour)
    (hburn : nested.burnIn ≤ call.view.timeline.step)
    (hoverrides : nested.overridden call.params = .ok overrides) (hmemory : nested.memory.isEmpty = true) :
    (∃ inner rules record, call.Attempts nested behaviour inner rules record) ∨ call.Keeps nested behaviour := by
  have hpast := Nat.not_lt.2 hburn
  cases hstart : call.params.getIndexD startTimeParam 0 call.view.timeline.current with
  | error fault =>
      refine Or.inr (keeps_of_quiet (.error (.fault fault)) hheld ?_
        (ne_lost_of_check hstart (call.params.getIndexD_ne_lost _ _ _)))
      simp only [reply, UpdateRule.advance, advance, if_neg hpast, hoverrides, hmemory, if_true, hstart]
  | ok start =>
      cases hcheck : Plan.check { overrides with startTime := start } with
      | error fault =>
          refine Or.inr (keeps_of_quiet (.error (.fault fault)) hheld ?_
            (ne_lost_of_check hcheck (Plan.check_ne_lost _)))
          simp only [reply, UpdateRule.advance, advance, if_neg hpast, hoverrides, hmemory, if_true, hstart,
            runForward, hcheck]
      | ok _ => exact Or.inl ⟨_, _, _, .forward hburn hoverrides hmemory hstart hcheck⟩

theorem replay_attempts_or_keeps {overrides : Plan} (hheld : nested.behaviour = some behaviour)
    (hburn : nested.burnIn ≤ call.view.timeline.step)
    (hoverrides : nested.overridden call.params = .ok overrides) (hmemory : nested.memory.isEmpty = false) :
    (∃ inner rules record, call.Attempts nested behaviour inner rules record) ∨ call.Keeps nested behaviour := by
  have hreply : call.reply nested = Nested.replay call.view overrides nested := by
    simp only [reply, UpdateRule.advance, advance, if_neg (Nat.not_lt.2 hburn), hoverrides, hmemory,
      Bool.false_eq_true, if_false]
  cases hrecord : recordOf nested.depth call.view.timeline with
  | error fault =>
      refine Or.inr (keeps_of_quiet _ hheld (hreply.trans ?_)
        (ne_lost_of_check hrecord (recordOf_ne_lost _ _)))
      simp only [Nested.replay, hrecord]
  | ok record =>
      cases hstart : record.timeAt (nested.depth - 1) with
      | error crash =>
          refine Or.inr (keeps_of_quiet (.error (.crash crash)) hheld (hreply.trans ?_) (by rintro ⟨⟩))
          simp only [Nested.replay, hrecord, hstart]
      | ok start =>
          have hrules := handled_loadMemory call.view nested.depth nested.memory.entries
            { overrides with startTime := start } behaviour.rules
          cases hload : loadMemory call.view nested.depth nested.memory.entries
              { overrides with startTime := start } behaviour.rules with
          | mk loaded rules =>
              rw [hload] at hrules
              cases loaded with
              | error stop =>
                  refine Or.inr (keeps_of_reply hrules (hreply.trans ?_)
                    (loadMemory_ne_lost (congrArg Prod.fst hload)))
                  simp only [Nested.replay, hrecord, hstart, hheld, hload]
              | ok inner =>
                  cases hcheck : inner.check with
                  | error fault =>
                      refine Or.inr (keeps_of_reply hrules (hreply.trans ?_)
                        (ne_lost_of_check hcheck inner.check_ne_lost))
                      simp only [Nested.replay, hrecord, hstart, hheld, hload, runReplay, hcheck]
                  | ok _ =>
                      exact Or.inl ⟨_, _, _, .replay hburn hoverrides hmemory hrecord hstart hload hcheck⟩

theorem attempts_or_keeps (call : Call) (hheld : nested.behaviour = some behaviour) :
    (∃ inner rules record, call.Attempts nested behaviour inner rules record) ∨ call.Keeps nested behaviour := by
  by_cases hburn : call.view.timeline.step < nested.burnIn
  · exact Or.inr (keeps_of_quiet _ hheld (if_pos hburn) (liftM_ne_fault _ _))
  have hpast := Nat.le_of_not_lt hburn
  cases hoverrides : nested.overridden call.params with
  | error fault =>
      refine Or.inr (keeps_of_quiet (.error (.fault fault)) hheld ?_
        (ne_lost_of_check hoverrides (applyOverrides_ne_lost _ _)))
      simp only [reply, UpdateRule.advance, advance, if_neg hburn, hoverrides]
  | ok overrides =>
      cases hmemory : nested.memory.isEmpty with
      | true => exact forward_attempts_or_keeps hheld hpast hoverrides hmemory
      | false => exact replay_attempts_or_keeps hheld hpast hoverrides hmemory

theorem Attempts.reply_eq_forward {inner : Plan} {rules : List ρ}
    (h : call.Attempts nested behaviour inner rules none) : call.reply nested = runForward inner nested := by
  cases h with
  | forward hburn hoverrides hmemory hstart hcheck =>
      simp only [reply, UpdateRule.advance, advance, if_neg (Nat.not_lt.2 hburn), hoverrides, hmemory, if_true,
        hstart]

theorem Attempts.reply_eq_replay {inner : Plan} {rules : List ρ} {record : Timeline}
    (h : call.Attempts nested behaviour inner rules (some record)) (hheld : nested.behaviour = some behaviour) :
    call.reply nested =
      runReplay inner record { nested with behaviour := some { behaviour with rules := rules } } := by
  cases h with
  | replay hburn hoverrides hmemory hrecord hstart hload hcheck =>
      simp only [reply, UpdateRule.advance, advance, if_neg (Nat.not_lt.2 hburn), hoverrides, hmemory,
        Bool.false_eq_true, if_false, Nested.replay, hrecord, hstart, hheld, hload]

theorem Attempts.outcome {inner : Plan} {rules : List ρ} {record : Option Timeline}
    (h : call.Attempts nested behaviour inner rules record) (hheld : nested.behaviour = some behaviour)
    (hcount : behaviour.rules.length = nested.plan.size) :
    ((call.reply nested).Returns →
      ((call.reply nested).next.behaviour = none ↔ ¬ behaviour.output.Accepts inner)) ∧
      (∀ after, (call.reply nested).next.behaviour = some after → behaviour.Intact after ∧
        (nested.memory.isEmpty = false → after.pace = behaviour.pace)) ∧
      ((∀ timeline (pace : τ), (Pace.next timeline pace).1 ≠ .error (.fault lost)) →
        (call.reply nested).result ≠ .error (.fault lost)) := by
  cases h with
  | @forward overrides start hburn hoverrides hmemory hstart hcheck =>
      have hsize : behaviour.rules.length = Plan.size { overrides with startTime := start } :=
        hcount.trans (size_applyOverrides hoverrides).symm
      have hattempts : call.Attempts nested behaviour _ _ none :=
        .forward hburn hoverrides hmemory hstart hcheck
      rw [hattempts.reply_eq_forward, hmemory]
      simp only [runForward, hcheck, hheld]
      exact ⟨runToEnd_next_eq_none_iff hcheck hsize, fun after hafter => ⟨intact_runToEnd hafter, by rintro ⟨⟩⟩,
        runToEnd_ne_lost hcheck hsize⟩
  | @replay overrides _ _ record start hburn hoverrides hmemory hrecord hstart hload hcheck =>
      have hrules := handled_loadMemory call.view nested.depth nested.memory.entries
        { overrides with startTime := start } behaviour.rules
      rw [hload] at hrules
      have hsize : rules.length = inner.size :=
        (hrules.length_eq.symm.trans (hcount.trans (size_applyOverrides hoverrides).symm)).trans
          (size_loadMemory (congrArg Prod.fst hload)).symm
      have hattempts : call.Attempts nested behaviour _ _ (some record) :=
        .replay hburn hoverrides hmemory hrecord hstart hload hcheck
      rw [hattempts.reply_eq_replay hheld]
      simp only [runReplay, hcheck]
      let along : Behaviour ρ ReplayPace := ⟨rules, behaviour.output, behaviour.stop, ⟨record⟩⟩
      have hlost : (runToEnd inner along).Returns →
          ((runToEnd inner along).next = none ↔ ¬ along.output.Accepts inner) :=
        runToEnd_next_eq_none_iff hcheck hsize
      have hresult : (runToEnd inner along).result ≠ .error (.fault lost) :=
        runToEnd_ne_lost hcheck hsize replayPace_ne_lost
      refine ⟨fun hreturns => ?_, fun after hafter => ?_, fun _ => hresult⟩
      · exact Option.map_eq_none_iff.trans (hlost hreturns)
      · obtain ⟨found, hfound, rfl⟩ := Option.map_eq_some_iff.1 hafter
        have hintact : along.Intact found := intact_runToEnd hfound
        exact ⟨⟨forall₂_trans (fun hfirst hsecond => hfirst.trans hsecond) hrules hintact.rules, hintact.output,
          hintact.stop, .refl⟩, fun _ => rfl⟩

theorem outcome (call : Call) (hheld : nested.behaviour = some behaviour)
    (hcount : behaviour.rules.length = nested.plan.size) :
    ((call.reply nested).Returns → ((call.reply nested).next.behaviour = none ↔
      ∃ inner rules record, call.Attempts nested behaviour inner rules record ∧
        ¬ behaviour.output.Accepts inner)) ∧
      (∀ after, (call.reply nested).next.behaviour = some after → behaviour.Intact after ∧
        (nested.memory.isEmpty = false → after.pace = behaviour.pace)) ∧
      ((∀ timeline (pace : τ), (Pace.next timeline pace).1 ≠ .error (.fault lost)) →
        (call.reply nested).result ≠ .error (.fault lost)) := by
  have hback : (call.reply nested).Returns →
      (∃ inner rules record, call.Attempts nested behaviour inner rules record ∧
        ¬ behaviour.output.Accepts inner) → (call.reply nested).next.behaviour = none := by
    rintro hreturns ⟨inner, rules, record, hattempts, hrefused⟩
    obtain ⟨hlost, -⟩ := hattempts.outcome hheld hcount
    exact (hlost hreturns).2 hrefused
  rcases call.attempts_or_keeps hheld with ⟨inner, rules, record, hattempts⟩ |
    ⟨⟨after, hafter, hintact, hpace⟩, hresult⟩
  · obtain ⟨hlost, hkept, hresult⟩ := hattempts.outcome hheld hcount
    exact ⟨fun hreturns => ⟨fun hnone => ⟨_, _, _, hattempts, (hlost hreturns).1 hnone⟩, hback hreturns⟩,
      hkept, hresult⟩
  · refine ⟨fun hreturns => ⟨fun hnone => ?_, hback hreturns⟩, fun found hfound => ?_, fun _ => hresult⟩
    · cases hafter.symm.trans hnone
    · obtain rfl := Option.some.inj (hafter.symm.trans hfound)
      exact ⟨hintact, fun _ => hpace⟩

/-- A call changes nothing of a nested rule but its behaviour, and does not bring back a lost one. -/
theorem exists_reply_next (call : Call) (nested : Nested ρ τ) :
    ∃ after, (call.reply nested).next = { nested with behaviour := after } ∧
      (nested.behaviour = none → after = none) := by
  have hsame : ∃ after, nested = { nested with behaviour := after } ∧
      (nested.behaviour = none → after = none) := ⟨nested.behaviour, rfl, id⟩
  simp only [reply, UpdateRule.advance, advance]
  split
  · exact hsame
  split
  · exact hsame
  split
  · split
    · exact hsame
    · unfold runForward
      split
      · exact hsame
      split
      · exact hsame
      next hheld => exact ⟨_, rfl, fun hnone => by cases hheld.symm.trans hnone⟩
  · unfold Nested.replay
    split
    · exact hsame
    split
    · exact hsame
    split
    · exact hsame
    next hheld =>
      have hnever : ∀ {after : Option (Behaviour ρ τ)}, nested.behaviour = none → after = none :=
        fun hnone => by cases hheld.symm.trans hnone
      dsimp only
      split
      · exact ⟨_, rfl, hnever⟩
      · unfold runReplay
        split
        · exact ⟨_, rfl, hnever⟩
        · exact ⟨_, rfl, hnever⟩

end Call

def afterCalls (nested : Nested ρ τ) (calls : Nat → Call) : Nat → Nested ρ τ
  | 0 => nested
  | n + 1 => ((calls n).reply (afterCalls nested calls n)).next

variable {nested : Nested ρ τ}

theorem exists_afterCalls (nested : Nested ρ τ) (calls : Nat → Call) (n : Nat) :
    ∃ after, nested.afterCalls calls n = { nested with behaviour := after } := by
  induction n with
  | zero => exact ⟨nested.behaviour, rfl⟩
  | succ n ih =>
      obtain ⟨before, hbefore⟩ := ih
      obtain ⟨after, hafter, -⟩ := (calls n).exists_reply_next (nested.afterCalls calls n)
      exact ⟨after, hafter.trans (by rw [hbefore])⟩

section Calls

variable {behaviour : Behaviour ρ τ} (hheld : nested.behaviour = some behaviour)
  (hcount : behaviour.rules.length = nested.plan.size) (calls : Nat → Call)

include hheld hcount

/-- As long as a nested rule has a behaviour, it is the one it had at first, and complete. -/
theorem intact_afterCalls (n : Nat) {after : Behaviour ρ τ}
    (hafter : (nested.afterCalls calls n).behaviour = some after) :
    behaviour.Intact after ∧ (nested.memory.isEmpty = false → after.pace = behaviour.pace) ∧
      after.rules.length = (nested.afterCalls calls n).plan.size := by
  induction n generalizing after with
  | zero =>
      obtain rfl := Option.some.inj (hheld.symm.trans hafter)
      exact ⟨.refl _, fun _ => rfl, hcount⟩
  | succ n ih =>
      obtain ⟨found, hsame⟩ := nested.exists_afterCalls calls n
      obtain ⟨last, hnext, hnever⟩ := (calls n).exists_reply_next (nested.afterCalls calls n)
      have hplan : (nested.afterCalls calls (n + 1)).plan = (nested.afterCalls calls n).plan := by
        rw [afterCalls, hnext]
      cases hbefore : (nested.afterCalls calls n).behaviour with
      | none =>
          rw [afterCalls, hnext, hnever hbefore] at hafter
          cases hafter
      | some before =>
          obtain ⟨hintact, hpace, hrules⟩ := ih hbefore
          obtain ⟨-, hkeeps, -⟩ := (calls n).outcome hbefore hrules
          obtain ⟨hlater, hsamePace⟩ := hkeeps after hafter
          refine ⟨hintact.trans hlater, fun hmemory => ?_, ?_⟩
          · rw [hsame] at hsamePace
            exact (hsamePace hmemory).trans (hpace hmemory)
          · rw [hplan, ← hrules, hlater.rules.length_eq]

theorem afterCalls_eq_none_iff (n : Nat)
    (hreturns : ∀ k < n, ((calls k).reply (nested.afterCalls calls k)).Returns) :
    (nested.afterCalls calls n).behaviour = none ↔ ∃ k < n, ∃ before inner rules record,
      (nested.afterCalls calls k).behaviour = some before ∧
      (calls k).Attempts (nested.afterCalls calls k) before inner rules record ∧
      ¬ behaviour.output.Accepts inner := by
  induction n with
  | zero => simp [afterCalls, hheld]
  | succ n ih =>
      have hbefore := ih fun k hk => hreturns k (Nat.lt_succ_of_lt hk)
      cases hnow : (nested.afterCalls calls n).behaviour with
      | none =>
          obtain ⟨last, hnext, hnever⟩ := (calls n).exists_reply_next (nested.afterCalls calls n)
          obtain ⟨k, hk, hloss⟩ := hbefore.1 hnow
          refine ⟨fun _ => ⟨k, Nat.lt_succ_of_lt hk, hloss⟩, fun _ => ?_⟩
          rw [afterCalls, hnext, hnever hnow]
      | some before =>
          obtain ⟨hintact, -, hrules⟩ := intact_afterCalls hheld hcount calls n hnow
          obtain ⟨hlost, -⟩ := (calls n).outcome hnow hrules
          refine (hlost (hreturns n (Nat.lt_succ_self n))).trans ⟨?_, ?_⟩
          · rintro ⟨inner, rules, record, hattempts, hrefused⟩
            exact ⟨n, Nat.lt_succ_self n, before, _, _, _, hnow, hattempts, hintact.output ▸ hrefused⟩
          · rintro ⟨k, hk, found, inner, rules, record, hfound, hattempts, hrefused⟩
            obtain hlt | rfl := Nat.lt_succ_iff_lt_or_eq.1 hk
            · cases hnow.symm.trans (hbefore.2 ⟨k, hlt, found, _, _, _, hfound, hattempts, hrefused⟩)
            · obtain rfl := Option.some.inj (hnow.symm.trans hfound)
              exact ⟨_, _, _, hattempts, hintact.output.symm ▸ hrefused⟩

end Calls

/-- After calls that all returned, a nested rule has lost its behaviour exactly if the output has turned
down the start of one of the inner runs. Else its behaviour is complete, and no call before that fails for
want of one. -/
theorem behaviour_lost_iff_start_refused {index : Nat} {plan : Plan} {fresh : Nested ρ τ}
    (hconfigure : UpdateRule.configure index plan fresh = (.ok (), nested)) (calls : Nat → Call) (n : Nat)
    (hreturns : ∀ k < n, ((calls k).reply (nested.afterCalls calls k)).Returns) :
    ∃ given behaviour, fresh.behaviour = some given ∧ given.configure nested.plan = (.ok (), behaviour) ∧
      nested.behaviour = some behaviour ∧
      ((nested.afterCalls calls n).behaviour = none ↔ ∃ k < n, ∃ before inner rules record,
        (nested.afterCalls calls k).behaviour = some before ∧
        (calls k).Attempts (nested.afterCalls calls k) before inner rules record ∧
        ¬ behaviour.output.Accepts inner) ∧
      (∀ after, (nested.afterCalls calls n).behaviour = some after → behaviour.Intact after ∧
        (nested.memory.isEmpty = false → after.pace = behaviour.pace)) ∧
      ((∀ timeline (pace : τ), (Pace.next timeline pace).1 ≠ .error (.fault lost)) → ∀ k < n,
        ((calls k).reply (nested.afterCalls calls k)).result = .error (.fault lost) →
          (nested.afterCalls calls k).behaviour = none) := by
  obtain ⟨given, behaviour, -, hgiven, hgivenCount, hbehaviour, hheld, -⟩ := configure_eq_ok hconfigure
  have hcount := (length_rules_configure hbehaviour).trans hgivenCount
  refine ⟨given, behaviour, hgiven, hbehaviour, hheld, afterCalls_eq_none_iff hheld hcount calls n hreturns,
    fun after hafter => ?_, fun hpace k _ hresult => ?_⟩
  · obtain ⟨hintact, hsamePace, -⟩ := intact_afterCalls hheld hcount calls n hafter
    exact ⟨hintact, hsamePace⟩
  · cases hbefore : (nested.afterCalls calls k).behaviour with
    | none => rfl
    | some before =>
        obtain ⟨-, -, hrules⟩ := intact_afterCalls hheld hcount calls k hbefore
        obtain ⟨-, -, hnever⟩ := (calls k).outcome hbefore hrules
        exact absurd hresult (hnever hpace)

def curfewOutput : Output where
  due := Output.always
  deliver := fun record =>
    (if 5 ≤ record.time then .error (.fault (.invalid (.other "too late"))) else .ok (), [])

def curfewPlan : Plan := ⟨[⟨"inner", .empty, ∅, [3], 0, 1, 1⟩], 0, 1, []⟩

def curfewBehaviour : Behaviour StockRule StockPace := ⟨[.hold], curfewOutput, .steps 2, .constant 1⟩

def enclosingPlan : Plan := ⟨[⟨"outer", .empty, ∅, [0], 0, 1, 1⟩], 0, 1, []⟩

def curfewRule : Nested StockRule StockPace := ⟨curfewPlan.tag, some curfewBehaviour, ∅, 0, 0⟩

/-- Only the second of all calls comes too late. -/
def curfewCalls : Nat → Call
  | 1 => ⟨.empty, 0, ⟨[⟨[0], 1, 1⟩], ⟨5, [], 1, 2⟩⟩⟩
  | _ => ⟨.empty, 0, ⟨[⟨[0], 1, 1⟩], ⟨0, [], 1, 1⟩⟩⟩

theorem curfewRule_loses_behaviour :
    UpdateRule.configure 0 enclosingPlan (new curfewPlan curfewBehaviour) = (.ok (), curfewRule) ∧
      ((curfewCalls 0).reply curfewRule).result = .ok [3] ∧
      (curfewRule.afterCalls curfewCalls 1).behaviour ≠ none ∧
      (curfewRule.afterCalls curfewCalls 2).behaviour = none ∧
      ((curfewCalls 2).reply (curfewRule.afterCalls curfewCalls 2)).result = .error (.fault lost) := by
  have hconfigure : UpdateRule.configure 0 enclosingPlan (new curfewPlan curfewBehaviour) =
      (.ok (), curfewRule) := rfl
  have hfirst : ((curfewCalls 0).reply (curfewRule.afterCalls curfewCalls 0)).result = .ok [3] := rfl
  have hheld : (curfewRule.afterCalls curfewCalls 1).behaviour = some curfewBehaviour := rfl
  have hreturns : ∀ k < 2, ((curfewCalls k).reply (curfewRule.afterCalls curfewCalls k)).Returns := by
    intro k hk crash hcrash
    obtain rfl | rfl : k = 0 ∨ k = 1 := by omega
    · cases hfirst.symm.trans hcrash
    · cases hcrash
  obtain ⟨_, behaviour, hgiven, hbehaviour, hsame, hlost, -⟩ :=
    behaviour_lost_iff_start_refused hconfigure curfewCalls 2 hreturns
  obtain rfl := Option.some.inj hsame
  have hattempts : (curfewCalls 1).Attempts (curfewRule.afterCalls curfewCalls 1) curfewBehaviour
      { curfewPlan.tag with startTime := 5 } curfewBehaviour.rules none :=
    .forward (Nat.zero_le _) rfl rfl rfl rfl
  have hrefused : ¬ curfewOutput.Accepts { curfewPlan.tag with startTime := 5 } := by
    intro haccepts
    cases haccepts _ List.mem_cons_self
  refine ⟨hconfigure, hfirst, ?_, hlost.2 ⟨1, Nat.lt_succ_self 1, _, _, _, _, hheld, hattempts, hrefused⟩, rfl⟩
  rw [hheld]
  rintro ⟨⟩

end Nested

end Tandem
