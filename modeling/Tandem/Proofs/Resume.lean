import Tandem.Proofs.Rules
import Tandem.Proofs.Session

/-!
# Runs that are resumed

A run up to a number of steps goes by the counter of its timeline. A step raises the counter before it does
anything else and gives the number back if it comes to nothing; a step that has committed keeps its number,
even if the output turns down what it committed. So the counter says how many commits there were, however many
runs ended before they should, and the run that gets to the end makes up for all of them.
-/

namespace Tandem

variable {ρ τ : Type}

/-! ## The numbers of commits -/

namespace Simulation

variable [UpdateRule ρ] [Pace τ]

/-- The number under which the next step commits, if it reaches its commit phase. -/
def commitNumbers (sim : Simulation ρ τ) : List Nat :=
  match Pace.next sim.timeline.beginStep sim.pace with
  | (.error _, _) => []
  | (.ok increment, pace) =>
      match (sim.begun increment pace).compute.result with
      | .error _ => []
      | .ok () => [(sim.begun increment pace).computed.timeline.step]

/-- The commit phase of the next step goes by the number `k`, and a report has it. -/
def CommitsUnder (sim : Simulation ρ τ) (k : Nat) : Prop :=
  ∃ increment pace, Pace.next sim.timeline.beginStep sim.pace = (.ok increment, pace) ∧
    let phase := (sim.begun increment pace).computed
    let reply := phase.commit phase.timeline.next k
    sim.step.next.cells = reply.next.cells ∧
      sim.step.result = reply.result.map fun () => ⟨k, phase.timeline.next⟩

theorem commitsUnder_of_mem {sim : Simulation ρ τ} {k : Nat} (h : k ∈ sim.commitNumbers) :
    sim.CommitsUnder k := by
  unfold commitNumbers at h
  split at h
  next => cases h
  next increment pace hpace =>
    split at h
    next => cases h
    next hcompute =>
      obtain rfl := List.mem_singleton.1 h
      exact ⟨increment, pace, hpace, by rw [step_of_success hpace hcompute]; exact ⟨rfl, rfl⟩⟩

theorem windows_step_of_no_number {sim : Simulation ρ τ} (h : sim.commitNumbers = []) :
    sim.step.next.windows = sim.windows := by
  have hway := sim.way_step
  generalize sim.step = reply at hway ⊢
  cases hway with
  | refused => rfl
  | crashed => rfl
  | failed => exact windows_discarded sim _ _
  | finished hpace hcompute => simp [commitNumbers, hpace, hcompute] at h

/-- The numbers under which a run of at most `fuel` steps commits, the latest first. -/
def commitNumbersWithin : Nat → Simulation ρ τ → List Nat
  | 0, _ => []
  | fuel + 1, sim =>
      match sim.isOver, sim.step.result with
      | .ok false, .ok _ => commitNumbersWithin fuel sim.step.next ++ sim.commitNumbers
      | .ok false, .error _ => sim.commitNumbers
      | _, _ => []

end Simulation

/-- The simulations that steps and runs lead to, and the numbers of all their commits, the latest first. All
calls come back, be it with a fault, and the output may be replaced between them. Single steps are made while
the counter has room for one more. -/
inductive Tally [UpdateRule ρ] [Pace τ] (plan : Plan) (behaviour : Behaviour ρ τ) :
    Simulation ρ τ → List Nat → Prop
  | start {sim : Simulation ρ τ} {events : List Event}
      (h : Simulation.start plan behaviour = (.ok sim, events)) : Tally plan behaviour sim []
  | redirect {sim : Simulation ρ τ} {numbers : List Nat} (h : Tally plan behaviour sim numbers)
      (output : Output) : Tally plan behaviour (sim.withOutput output) numbers
  | step {sim : Simulation ρ τ} {numbers : List Nat} (h : Tally plan behaviour sim numbers)
      (hroom : sim.timeline.step + 1 < Word.count) (hreturns : sim.step.Returns) :
      Tally plan behaviour sim.step.next (sim.commitNumbers ++ numbers)
  | run {sim : Simulation ρ τ} {numbers : List Nat} (h : Tally plan behaviour sim numbers)
      (hreturns : sim.run.Returns) :
      Tally plan behaviour sim.run.next (sim.commitNumbersWithin Word.count ++ numbers)

/-- What any number of runs make of a simulation, and the numbers of their commits, the latest first. All of
them come back, be it with a fault, and the output may be replaced between them. -/
inductive Simulation.Resumed [UpdateRule ρ] [Pace τ] (sim : Simulation ρ τ) :
    Simulation ρ τ → List Nat → Prop
  | refl : Resumed sim sim []
  | redirect {now : Simulation ρ τ} {numbers : List Nat} (h : Resumed sim now numbers) (output : Output) :
      Resumed sim (now.withOutput output) numbers
  | run {now : Simulation ρ τ} {numbers : List Nat} (h : Resumed sim now numbers)
      (hreturns : now.run.Returns) :
      Resumed sim now.run.next (now.commitNumbersWithin Word.count ++ numbers)

variable [UpdateRule ρ] [Pace τ] {plan : Plan} {behaviour : Behaviour ρ τ} {sim : Simulation ρ τ}
  {numbers : List Nat} {n : Nat}

theorem Tally.resumed {now : Simulation ρ τ} {later : List Nat} (h : Tally plan behaviour sim numbers)
    (hresumed : sim.Resumed now later) : Tally plan behaviour now (later ++ numbers) := by
  induction hresumed with
  | refl => exact h
  | redirect _ output ih => exact ih.redirect output
  | run _ hreturns ih =>
      rw [List.append_assoc]
      exact ih.run hreturns

/-! ## The counter -/

namespace Simulation

omit [UpdateRule ρ] [Pace τ] in
theorem isOver_of_steps (hstop : sim.stop = .steps n) :
    sim.isOver = .ok (decide (n ≤ sim.timeline.step)) := by
  rw [isOver, hstop]
  rfl

theorem step_counts (sim : Simulation ρ τ) (hroom : sim.timeline.step + 1 < Word.count)
    (hreturns : sim.step.Returns) :
    (∃ stop, sim.step.result = .error stop) ∧ sim.commitNumbers = [] ∧
        sim.step.next.timeline.step = sim.timeline.step ∨
      sim.commitNumbers = [sim.timeline.step + 1] ∧
        sim.step.next.timeline.step = sim.timeline.step + 1 := by
  have hwrap : Word.wrap (sim.timeline.step + 1) = sim.timeline.step + 1 := Word.wrap_of_lt hroom
  have hrestored : sim.restored.step = sim.timeline.step := congrArg Timeline.step (restored_eq hroom)
  have hway := sim.way_step
  generalize sim.step = reply at hway hreturns ⊢
  cases hway with
  | refused hpace => exact Or.inl ⟨⟨_, rfl⟩, by simp only [commitNumbers, hpace], hrestored⟩
  | crashed => exact absurd rfl (hreturns _)
  | failed hpace hcompute =>
      exact Or.inl ⟨⟨_, rfl⟩, by simp only [commitNumbers, hpace, hcompute], hrestored⟩
  | finished hpace hcompute =>
      refine Or.inr ⟨?_, ?_⟩
      · simp only [commitNumbers, hpace, hcompute]
        exact congrArg (fun number => [number]) hwrap
      · rw [finishStep_next]
        exact hwrap

theorem step_timeline_of_ok {report : StepReport} (hroom : sim.timeline.step + 1 < Word.count)
    (h : sim.step.result = .ok report) : sim.step.next.timeline.step = sim.timeline.step + 1 := by
  rcases sim.step_counts hroom (Reply.returns_of_ok h) with ⟨⟨stop, hstop⟩, -⟩ | ⟨-, hnext⟩
  · cases h.symm.trans hstop
  · exact hnext

/-- The counter says how many commits there were, and they were numbered from 1 on. -/
structure Counts (sim : Simulation ρ τ) (numbers : List Nat) : Prop where
  counter : sim.timeline.step = numbers.length
  numbered : numbers.reverse = List.range' 1 numbers.length

namespace Counts

omit [UpdateRule ρ] [Pace τ] in
theorem commit (h : sim.Counts numbers) {next : Simulation ρ τ}
    (hnext : next.timeline.step = sim.timeline.step + 1) :
    next.Counts ([sim.timeline.step + 1] ++ numbers) where
  counter := by rw [hnext, h.counter, List.length_append, List.length_singleton, Nat.add_comm]
  numbered := by
    rw [List.reverse_append, h.numbered, List.length_append, List.length_singleton, Nat.add_comm 1,
      List.range'_concat, h.counter, Nat.one_mul, Nat.add_comm 1]
    rfl

theorem step (h : sim.Counts numbers) (hroom : sim.timeline.step + 1 < Word.count)
    (hreturns : sim.step.Returns) : sim.step.next.Counts (sim.commitNumbers ++ numbers) := by
  rcases sim.step_counts hroom hreturns with ⟨-, hnone, hnext⟩ | ⟨hone, hnext⟩
  · exact hnone ▸ ⟨hnext.trans h.counter, h.numbered⟩
  · exact hone ▸ h.commit hnext

theorem run (h : sim.Counts numbers) (hstop : sim.stop = .steps n) (hn : n < Word.count) (fuel : Nat)
    (hreturns : (sim.runWithin fuel).Returns) :
    (sim.runWithin fuel).next.Counts (sim.commitNumbersWithin fuel ++ numbers) := by
  -- the numbers grow at their front while the fuel runs down
  induction fuel generalizing sim numbers with
  | zero => exact h
  | succ fuel ih =>
      have hover := isOver_of_steps hstop
      unfold runWithin at hreturns ⊢
      unfold commitNumbersWithin
      by_cases hend : n ≤ sim.timeline.step
      · rw [hover, decide_eq_true hend]
        exact h
      · have hroom : sim.timeline.step + 1 < Word.count := by omega
        rw [hover, decide_eq_false hend] at hreturns ⊢
        cases hresult : sim.step.result with
        | error stop =>
            simp only [hresult] at hreturns ⊢
            exact h.step hroom (hreturns.of_error rfl hresult)
        | ok report =>
            simp only [hresult] at hreturns ⊢
            have hnext : sim.step.next.Counts (sim.commitNumbers ++ numbers) :=
              h.step hroom (Reply.returns_of_ok hresult)
            rw [List.append_assoc]
            exact ih hnext ((step_stop sim).trans hstop) hreturns

end Counts

end Simulation

theorem Tally.stop (h : Tally plan behaviour sim numbers) : sim.stop = behaviour.stop := by
  induction h with
  | start h => exact (Simulation.start_behaviour h).2.1
  | redirect _ _ ih => exact ih
  | step _ _ _ ih => exact (Simulation.step_stop _).trans ih
  | run _ _ ih =>
      exact Simulation.runWithin_keeps (motive := fun sim => sim.stop = behaviour.stop)
        (fun sim hsim => (Simulation.step_stop sim).trans hsim) ih Word.count

theorem Tally.counts (h : Tally plan behaviour sim numbers) (hstop : behaviour.stop = .steps n)
    (hn : n < Word.count) : sim.Counts numbers := by
  induction h with
  | start h =>
      obtain ⟨-, -, htimeline, -⟩ := Simulation.start_eq_ok h
      exact ⟨by rw [(Timeline.new_eq_ok htimeline).1]; rfl, rfl⟩
  | redirect _ _ ih => exact ⟨ih.counter, ih.numbered⟩
  | step _ hroom hreturns ih => exact ih.step hroom hreturns
  | run hbefore hreturns ih => exact ih.run (hbefore.stop.trans hstop) hn Word.count hreturns

/-! ## The end of a run -/

namespace Simulation

theorem stop_after (sim : Simulation ρ τ) (k : Nat) : (sim.after k).stop = sim.stop := by
  induction k with
  | zero => rfl
  | succ k ih => exact (step_stop _).trans ih

/-- A run makes at most as many steps as the counter lacks, since each but the last raises it. -/
theorem exists_ends (hstop : sim.stop = .steps n) (hn : n < Word.count) :
    ∃ made ≤ n - sim.timeline.step, sim.RunsFor made ∧ (sim.after made).Ends ∧
      ∀ k ≤ made, (sim.after k).timeline.step = sim.timeline.step + k := by
  induction hlack : n - sim.timeline.step generalizing sim with
  | zero =>
      have hend : n ≤ sim.timeline.step := Nat.le_of_sub_eq_zero hlack
      refine ⟨0, Nat.le_refl 0, fun k hk => absurd hk k.not_lt_zero, Or.inl ?_, fun k hk => ?_⟩
      · rw [after, isOver_of_steps hstop, decide_eq_true hend]
      · rw [Nat.le_zero.1 hk]
        rfl
  | succ lack ih =>
      have hover : sim.isOver = .ok false := by
        rw [isOver_of_steps hstop, decide_eq_false (by omega)]
      cases hresult : sim.step.result with
      | error stop =>
          refine ⟨0, Nat.zero_le _, fun k hk => absurd hk k.not_lt_zero, Or.inr ⟨hover, stop, hresult⟩,
            fun k hk => ?_⟩
          rw [Nat.le_zero.1 hk]
          rfl
      | ok report =>
          have hnext := step_timeline_of_ok (by omega) hresult
          obtain ⟨made, hmade, hruns, hends, hcounter⟩ := ih ((step_stop sim).trans hstop) (by omega)
          refine ⟨made + 1, Nat.succ_le_succ hmade, .of_step hover hresult hruns, ?_, ?_⟩
          · rwa [← after_step_next]
          · intro k hk
            cases k with
            | zero => rfl
            | succ k =>
                rw [← after_step_next, hcounter k (Nat.le_of_succ_le_succ hk), hnext]
                omega

/-- A run steps until its counter is full or a step fails, and it has fuel to spare. -/
theorem exists_run (hstop : sim.stop = .steps n) (hn : n < Word.count) :
    ∃ made ≤ n - sim.timeline.step, sim.RunsFor made ∧
      (∀ k ≤ made, (sim.after k).timeline.step = sim.timeline.step + k) ∧
      (∀ fuel, made < fuel → sim.runWithin fuel = sim.run) ∧
      (n ≤ (sim.after made).timeline.step ∧ sim.run.result = .ok () ∧ sim.run.next = sim.after made ∨
        (sim.after made).timeline.step < n ∧ ∃ stop, (sim.after made).step.result = .error stop ∧
          sim.run.result = .error stop ∧ sim.run.next = (sim.after made).step.next) := by
  obtain ⟨made, hlack, hruns, hends, hcounter⟩ := exists_ends hstop hn
  have hfew : made < Word.count := by omega
  have hisOver := isOver_of_steps ((stop_after sim made).trans hstop)
  refine ⟨made, hlack, hruns, hcounter, fun fuel hfuel => runWithin_eq_of_ends hruns hends hfuel hfew, ?_⟩
  rcases hends with hover | ⟨hover, stop, herror⟩
  · have hend : n ≤ (sim.after made).timeline.step :=
      of_decide_eq_true (Except.ok.inj (hisOver.symm.trans hover))
    exact Or.inl ⟨hend, run_of_isOver hruns hfew hover⟩
  · have hmore : (sim.after made).timeline.step < n :=
      Nat.lt_of_not_le (of_decide_eq_false (Except.ok.inj (hisOver.symm.trans hover)))
    exact Or.inr ⟨hmore, stop, herror, run_of_step_error hruns hfew hover herror⟩

theorem run_timeline_le (hstop : sim.stop = .steps n) (hn : n < Word.count) (hle : sim.timeline.step ≤ n)
    (hreturns : sim.run.Returns) : sim.run.next.timeline.step ≤ n := by
  obtain ⟨made, hlack, -, hcounter, -, hend⟩ := exists_run hstop hn
  have hlast := hcounter made (Nat.le_refl made)
  rcases hend with ⟨-, -, hnext⟩ | ⟨hmore, stop, herror, hresult, hnext⟩
  · rw [hnext]
    omega
  · have hback : (sim.after made).step.Returns := hreturns.of_error hresult herror
    rw [hnext]
    rcases (sim.after made).step_counts (by omega) hback with ⟨-, -, hsame⟩ | ⟨-, hsame⟩ <;> omega

end Simulation

theorem Tally.timeline_le {now : Simulation ρ τ} {later : List Nat} (h : Tally plan behaviour sim numbers)
    (hstop : behaviour.stop = .steps n) (hn : n < Word.count) (hmade : numbers.length ≤ n)
    (hresumed : sim.Resumed now later) : now.timeline.step ≤ n := by
  induction hresumed with
  | refl => exact (h.counts hstop hn).counter ▸ hmade
  | redirect _ _ ih => exact ih
  | run hbefore hreturns ih =>
      exact Simulation.run_timeline_le ((h.resumed hbefore).stop.trans hstop) hn ih hreturns

/-- However many runs have ended with a fault, before or after a commit, a run that comes to its end leaves
the simulation on the requested step, and all these runs together have committed exactly the steps that were
missing, each once. -/
theorem resumed_runs_stop_on_the_requested_step {now : Simulation ρ τ} {later : List Nat}
    (h : Tally plan behaviour sim numbers) (hstop : behaviour.stop = .steps n) (hn : n < Word.count)
    (hmade : numbers.length ≤ n) (hresumed : sim.Resumed now later) :
    (∀ other : Simulation ρ τ, (∀ k ∈ other.commitNumbers, other.CommitsUnder k) ∧
        (other.commitNumbers = [] → other.step.next.windows = other.windows)) ∧
      now.timeline.step = later.length + numbers.length ∧
      (now.run.result = .ok () →
        now.run.next.timeline.step = n ∧
        (now.commitNumbersWithin Word.count ++ later ++ numbers).length = n ∧
        (now.commitNumbersWithin Word.count ++ later).reverse =
          List.range' (numbers.length + 1) (n - numbers.length)) ∧
      ∃ made ≤ n - now.timeline.step, now.RunsFor made ∧
        (∀ k ≤ made, (now.after k).timeline.step = now.timeline.step + k) ∧
        (∀ fuel, made < fuel → now.runWithin fuel = now.run) ∧
        (n ≤ (now.after made).timeline.step ∧ now.run.result = .ok () ∧ now.run.next = now.after made ∨
          (now.after made).timeline.step < n ∧ ∃ stop, (now.after made).step.result = .error stop ∧
            now.run.result = .error stop ∧ now.run.next = (now.after made).step.next) := by
  have hnow := h.resumed hresumed
  have hcounts := hnow.counts hstop hn
  have hlimit : now.stop = .steps n := hnow.stop.trans hstop
  refine ⟨fun other => ⟨fun k => Simulation.commitsUnder_of_mem, Simulation.windows_step_of_no_number⟩,
    hcounts.counter.trans List.length_append, fun hok => ?_, Simulation.exists_run hlimit hn⟩
  have hreturns : now.run.Returns := Reply.returns_of_ok hok
  obtain ⟨hcounter, hnumbered⟩ := hcounts.run hlimit hn Word.count hreturns
  have hlast : now.run.next.timeline.step = n := by
    refine Nat.le_antisymm (h.timeline_le hstop hn hmade (hresumed.run hreturns)) ?_
    obtain ⟨made, -, -, -, -, ⟨hend, -, hnext⟩ | ⟨-, stop, -, hresult, -⟩⟩ :=
      Simulation.exists_run hlimit hn
    · rwa [hnext]
    · cases hok.symm.trans hresult
  have hall : (now.commitNumbersWithin Word.count ++ (later ++ numbers)).length = n :=
    hcounter.symm.trans hlast
  rw [List.append_assoc]
  refine ⟨hlast, hall, ?_⟩
  have hsplit : List.range' 1 n =
      List.range' 1 numbers.length ++ List.range' (1 + numbers.length) (n - numbers.length) := by
    rw [List.range'_append_1, Nat.add_sub_of_le hmade]
  rw [hall, hsplit, ← List.append_assoc, List.reverse_append, (h.counts hstop hn).numbered] at hnumbered
  rw [Nat.add_comm]
  exact List.append_cancel_left hnumbered

/-- An output that turns down what it is offered in one step. -/
def grudgingOutput (step : Nat) : Output where
  due := fun _ now => .ok (decide (now = step))
  deliver := fun _ => (.error (.fault (.invalid (.other "full"))), [])

def hikePlan : Plan := ⟨[⟨"hike", .empty, ∅, [3], 0, 1, 1⟩], 0, 1, []⟩

def hikeBehaviour : Behaviour StockRule StockPace := .new [.hold] (.steps 4) (.constant 1)

def hike : Simulation StockRule StockPace where
  cells := [⟨⟨.hold, ⟨∅, "hike"⟩, "hike", 0, ∅, none⟩, ⟨[3], 1, 1⟩⟩]
  schedule := ⟨[⟨0, 1⟩], [0]⟩
  timeline := ⟨0, [], 0, 0⟩
  output := .silent
  stop := .steps 4
  pace := .constant 1

def hikeBegun : Simulation StockRule StockPace := (hike.withOutput (grudgingOutput 1)).step.next

def hikeResumed : Simulation StockRule StockPace :=
  ((hikeBegun.withOutput (grudgingOutput 3)).run.next).withOutput .silent

theorem hike_stops_on_the_requested_step :
    Tally hikePlan hikeBehaviour hikeBegun [1] ∧
      (hikeBegun.withOutput (grudgingOutput 3)).run.result =
        .error (.fault (.outputFailed "hike" (0 + 1 + 1 + 1) "Invalid config: full")) ∧
      ∃ later, hikeBegun.Resumed hikeResumed later ∧ hikeResumed.timeline.step = 3 ∧
        hikeResumed.run.next.timeline.step = 4 ∧
        (hikeResumed.commitNumbersWithin Word.count ++ later).reverse = [2, 3, 4] := by
  have hstart : Tally hikePlan hikeBehaviour hike [] := .start (rfl : Simulation.start _ _ = (_, []))
  have hbegun : Tally hikePlan hikeBehaviour hikeBegun [1] :=
    (hstart.redirect (grudgingOutput 1)).step (by decide) fun _ h => nomatch h
  have hended : (hikeBegun.withOutput (grudgingOutput 3)).run.result =
      .error (.fault (.outputFailed "hike" (0 + 1 + 1 + 1) "Invalid config: full")) := rfl
  have hreturns : (hikeBegun.withOutput (grudgingOutput 3)).run.Returns := fun _ h => by
    rw [hended] at h
    cases h
  have hresumed : hikeBegun.Resumed hikeResumed _ :=
    ((Simulation.Resumed.refl.redirect (grudgingOutput 3)).run hreturns).redirect .silent
  obtain ⟨-, -, hlast, -⟩ := resumed_runs_stop_on_the_requested_step hbegun rfl (by decide) (by decide) hresumed
  obtain ⟨hstep, -, hnumbers⟩ := hlast rfl
  exact ⟨hbegun, hended, _, hresumed, rfl, hstep, hnumbers⟩

end Tandem
