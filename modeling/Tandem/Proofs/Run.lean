import Tandem.Proofs.Reachable

/-!
# Runs, step by step

A run is a number of steps that succeed, and then either the stop condition holds or a step fails.
-/

namespace Tandem

variable {ρ τ : Type}

theorem Simulation.start_behaviour {plan : Plan} {behaviour : Behaviour ρ τ} {sim : Simulation ρ τ}
    {events : List Event} (h : start plan behaviour = (.ok sim, events)) :
    sim.output = behaviour.output ∧ sim.stop = behaviour.stop ∧ sim.pace = behaviour.pace := by
  unfold start at h
  split at h
  · cases h
  · generalize beginCells _ _ _ _ = begun at h
    obtain ⟨cells, found⟩ := begun
    cases cells with
    | error stop => cases h
    | ok cells =>
        cases h
        exact ⟨rfl, rfl, rfl⟩

variable [UpdateRule ρ] [Pace τ] {plan : Plan} {behaviour : Behaviour ρ τ} {sim : Simulation ρ τ}

namespace Simulation

def after (sim : Simulation ρ τ) : Nat → Simulation ρ τ
  | 0 => sim
  | n + 1 => (sim.after n).step.next

/-- A run of the simulation makes `n` steps, and they succeed. -/
def RunsFor (sim : Simulation ρ τ) (n : Nat) : Prop :=
  ∀ k < n, (sim.after k).isOver = .ok false ∧ ∃ report, (sim.after k).step.result = .ok report

theorem RunsFor.of_succ {n : Nat} (h : sim.RunsFor (n + 1)) : sim.RunsFor n :=
  fun k hk => h k (Nat.lt_succ_of_lt hk)

theorem after_step_next (sim : Simulation ρ τ) (k : Nat) : sim.step.next.after k = sim.after (k + 1) := by
  induction k with
  | zero => rfl
  | succ k ih => exact congrArg (fun sim => sim.step.next) ih

theorem RunsFor.of_step {made : Nat} {report : StepReport} (hover : sim.isOver = .ok false)
    (hreport : sim.step.result = .ok report) (h : sim.step.next.RunsFor made) : sim.RunsFor (made + 1) := by
  intro k hk
  cases k with
  | zero => exact ⟨hover, report, hreport⟩
  | succ k =>
      rw [← after_step_next]
      exact h k (Nat.lt_of_succ_lt_succ hk)

/-- After its first steps a run goes on like a run from where they lead. -/
theorem runWithin_add {n : Nat} (h : sim.RunsFor n) (fuel : Nat) :
    (sim.runWithin (fuel + n)).result = ((sim.after n).runWithin fuel).result ∧
      (sim.runWithin (fuel + n)).next = ((sim.after n).runWithin fuel).next := by
  induction n generalizing fuel with
  | zero => exact ⟨rfl, rfl⟩
  | succ n ih =>
      obtain ⟨hover, report, hreport⟩ := h n (Nat.lt_succ_self n)
      obtain ⟨hresult, hnext⟩ := ih h.of_succ (fuel + 1)
      rw [← Nat.add_assoc, Nat.add_right_comm, hresult, hnext, runWithin, hover]
      simp only [hreport]
      exact ⟨rfl, rfl⟩

theorem exists_run_after {n : Nat} (h : sim.RunsFor n) (hn : n < Word.count) :
    ∃ fuel, sim.run.result = ((sim.after n).runWithin (fuel + 1)).result ∧
      sim.run.next = ((sim.after n).runWithin (fuel + 1)).next := by
  have hcount : Word.count - n - 1 + 1 + n = Word.count := by omega
  have hsame := runWithin_add h (Word.count - n - 1 + 1)
  rw [hcount] at hsame
  exact ⟨_, hsame⟩

theorem run_of_isOver {n : Nat} (h : sim.RunsFor n) (hn : n < Word.count)
    (hover : (sim.after n).isOver = .ok true) :
    sim.run.result = .ok () ∧ sim.run.next = sim.after n := by
  obtain ⟨fuel, hresult, hnext⟩ := exists_run_after h hn
  rw [hresult, hnext, runWithin, hover]
  exact ⟨rfl, rfl⟩

theorem run_of_step_error {n : Nat} {stop : Stop} (h : sim.RunsFor n) (hn : n < Word.count)
    (hover : (sim.after n).isOver = .ok false) (hstop : (sim.after n).step.result = .error stop) :
    sim.run.result = .error stop ∧ sim.run.next = (sim.after n).step.next := by
  obtain ⟨fuel, hresult, hnext⟩ := exists_run_after h hn
  rw [hresult, hnext, runWithin, hover]
  simp only [hstop, and_self]

/-- A run makes no further step that succeeds: it is over, or its next step fails. -/
def Ends (sim : Simulation ρ τ) : Prop :=
  sim.isOver = .ok true ∨ sim.isOver = .ok false ∧ ∃ stop, sim.step.result = .error stop

/-- Fuel that lasts to the end of a run makes no difference to it. -/
theorem runWithin_eq_of_ends {made fuel fuel' : Nat} (h : sim.RunsFor made) (hends : (sim.after made).Ends)
    (hfuel : made < fuel) (hfuel' : made < fuel') : sim.runWithin fuel = sim.runWithin fuel' := by
  induction made generalizing sim fuel fuel' with
  | zero =>
      obtain ⟨fuel, rfl⟩ := Nat.exists_eq_succ_of_ne_zero (Nat.ne_of_gt hfuel)
      obtain ⟨fuel', rfl⟩ := Nat.exists_eq_succ_of_ne_zero (Nat.ne_of_gt hfuel')
      have hends : sim.Ends := hends
      rcases hends with hover | ⟨hover, stop, hstop⟩
      · simp only [runWithin, hover]
      · simp only [runWithin, hover, hstop]
  | succ made ih =>
      obtain ⟨fuel, rfl⟩ := Nat.exists_eq_succ_of_ne_zero (Nat.ne_of_gt (Nat.zero_lt_of_lt hfuel))
      obtain ⟨fuel', rfl⟩ := Nat.exists_eq_succ_of_ne_zero (Nat.ne_of_gt (Nat.zero_lt_of_lt hfuel'))
      obtain ⟨hover, report, hreport⟩ := h 0 (Nat.succ_pos made)
      have hover : sim.isOver = .ok false := hover
      have hreport : sim.step.result = .ok report := hreport
      have hrest : sim.step.next.RunsFor made := fun k hk => by
        rw [after_step_next]
        exact h (k + 1) (Nat.succ_lt_succ hk)
      have hsame := ih hrest (after_step_next sim made ▸ hends) (Nat.lt_of_succ_lt_succ hfuel)
        (Nat.lt_of_succ_lt_succ hfuel')
      simp only [runWithin, hover, hreport, hsame]

end Simulation

theorem Reachable.output (h : Reachable plan behaviour sim) : sim.output = behaviour.output := by
  induction h with
  | start h => exact (Simulation.start_behaviour h).1
  | step _ ih => exact (Simulation.step_output _).trans ih

theorem Reachable.after (h : Reachable plan behaviour sim) (n : Nat) :
    Reachable plan behaviour (sim.after n) := by
  induction n with
  | zero => exact h
  | succ n ih => exact ih.step

end Tandem
