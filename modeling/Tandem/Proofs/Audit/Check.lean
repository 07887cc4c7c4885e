import Tandem.Proofs.Window
import Tandem.Rule.Audited

/-!
# What an audit finds

An audit compares the rows of a window with those of the window that it expects. If the two are the same and
no value in them is NaN, no row can differ, and all that an audit can find fault with is the new state, or
that a row cannot be read at all.
-/

namespace Tandem

/-! ## Numbers that equal themselves -/

theorem isNaN_of_isFinite {x : Float} (h : x.isFinite = true) : x.isNaN = false := by
  unfold Float.isFinite Float.Model.isFinite at h
  unfold Float.isNaN Float.Model.isNaN
  generalize x.toModel.unpack = unpacked at h ⊢
  cases unpacked with
  | notANumber => cases h
  | _ => rfl

theorem beq_self (x : Float) : (x == x) = !x.isNaN := by
  have hmodel : (x == x) = x.toModel.unpack.beq x.toModel.unpack := rfl
  rw [hmodel]
  unfold Float.isNaN Float.Model.isNaN Float.Model.UnpackedFloat.beq
  generalize x.toModel.unpack = unpacked
  cases unpacked with
  | notANumber => rfl
  | zero sign => rfl
  | infinity sign => cases sign <;> rfl
  | finite sign mantissa exponent =>
      have hsame : (compare exponent exponent).then (compare mantissa mantissa) = .eq := by simp
      cases sign with
      | negative => exact congrArg (fun order => some order.swap == some Ordering.eq) hsame
      | positive => exact congrArg (fun order => some order == some Ordering.eq) hsame

namespace State

def Finite (state : State) : Prop := ∀ x ∈ state, x.isFinite = true

def Numeric (state : State) : Prop := ∀ x ∈ state, x.isNaN = false

instance : DecidablePred Finite := fun state => inferInstanceAs (Decidable (∀ x ∈ state, x.isFinite = true))

instance : DecidablePred Numeric := fun state => inferInstanceAs (Decidable (∀ x ∈ state, x.isNaN = false))

theorem Finite.numeric {state : State} (h : Finite state) : Numeric state :=
  fun x hx => isNaN_of_isFinite (h x hx)

theorem beq_self_iff {state : State} : (state == state) = true ↔ Numeric state := by
  unfold Numeric
  induction state with
  | nil => simp
  | cons x rest ih =>
      rw [List.cons_beq_cons, Bool.and_eq_true, ih, beq_self, Bool.not_eq_true', List.forall_mem_cons]

end State

namespace Window

variable {window : Window} {state : State}

theorem numeric_of_row {d : Nat} (h : State.Numeric window.values) (hrow : window.row d = .ok state) :
    State.Numeric state := by
  unfold row at hrow
  split at hrow
  · cases hrow
  · dsimp only at hrow
    split at hrow
    · cases hrow
      exact fun x hx => h x (List.mem_of_mem_drop (List.mem_of_mem_take hx))
    · cases hrow

theorem numeric_recorded (h : State.Numeric window.values) (hstate : State.Numeric state) :
    State.Numeric (window.recorded state).values := by
  intro x hx
  rcases List.mem_append.1 hx with hx | hx
  · exact hstate x hx
  · exact h x (List.mem_of_mem_take hx)

theorem Holds.numeric {rows : List State} (h : window.Holds rows) (hrows : ∀ row ∈ rows, State.Numeric row) :
    State.Numeric window.values := by
  intro x hx
  rw [h] at hx
  rcases List.mem_append.1 (List.mem_of_mem_take hx) with hx | hx
  · obtain ⟨row, hrow, hx⟩ := List.mem_flatten.1 hx
    exact hrows row hrow x hx
  · rw [List.eq_of_mem_replicate hx]
    rfl

theorem numeric_of_new {width depth : Nat} {initial : State} (h : new width depth initial = .ok window)
    (hinitial : State.Numeric initial) : State.Numeric window.values := by
  obtain ⟨-, -, -, -, hholds⟩ := new_eq_ok h
  exact hholds.numeric (List.forall_mem_singleton.2 hinitial)

/-- All rows behind the first can be read exactly if the size of the window does not wrap. -/
theorem Shaped.readable_iff (h : window.Shaped) :
    (∀ d < window.depth - 1, ∃ state, window.row (d + 1) = .ok state) ↔
      window.width * window.depth < Word.count := by
  constructor
  · intro hrows
    refine Nat.lt_of_not_le fun hwrap => ?_
    obtain ⟨d, hd, hrow⟩ := h.exists_row_error hwrap
    cases d with
    | zero =>
        obtain ⟨state, hlatest⟩ := h.exists_latest
        cases hrow.symm.trans hlatest
    | succ d =>
        obtain ⟨state, hstate⟩ := hrows d (by omega)
        cases hrow.symm.trans hstate
  · exact fun hfit d hd => ⟨_, h.row_eq_ok hfit (by omega)⟩

end Window

/-! ## Checks against the same window -/

namespace Audited

variable {ρ : Type} {rule : ρ} {name : String} {time : Float} {own : Window} {state : State} {stop : Stop}

/-- What an audit that finds the window it expects can say to a state: the state is not finite or has not the
width of the window, or a row of the window cannot be read. -/
inductive Complaint (name : String) (time : Float) (width : Nat) (state : State) : Stop → Prop
  | nonFinite : Complaint name time width state (.fault (.nonFinite name time state))
  | misshapen : Complaint name time width state (.fault (.wrongWidth name time state.length width))
  | unreadable (crash : Crash) : Complaint name time width state (.crash crash)

theorem checkRows_succ {shadow : Window} (count : Nat) :
    checkRows name time own shadow (count + 1) =
      match own.row (count + 1), shadow.row (count + 1) with
      | .error crash, _ => .error (.crash crash)
      | .ok _, .error crash => .error (.crash crash)
      | .ok found, .ok wanted =>
          if found == wanted then checkRows name time own shadow count
          else .error (.fault (.rowNotKept name time (count + 1) found wanted)) := by
  simp only [checkRows, bind, Except.bind, liftM, monadLift, MonadLift.monadLift]
  cases own.row (count + 1) with
  | error crash => rfl
  | ok found =>
      cases shadow.row (count + 1) with
      | error crash => rfl
      | ok wanted => rfl

theorem checkRows_succ_self (hnumeric : State.Numeric own.values) (count : Nat) :
    checkRows name time own own (count + 1) =
      match own.row (count + 1) with
      | .error crash => .error (.crash crash)
      | .ok _ => checkRows name time own own count := by
  rw [checkRows_succ]
  cases hrow : own.row (count + 1) with
  | error crash => rfl
  | ok found => exact if_pos (State.beq_self_iff.2 (Window.numeric_of_row hnumeric hrow))

theorem checkRows_self_eq_ok_iff (hnumeric : State.Numeric own.values) (count : Nat) :
    checkRows name time own own count = .ok () ↔ ∀ d < count, ∃ state, own.row (d + 1) = .ok state := by
  induction count with
  | zero => simp [checkRows]
  | succ count ih =>
      rw [checkRows_succ_self hnumeric, Nat.forall_lt_succ_right, ← ih]
      cases own.row (count + 1) <;> simp

theorem checkRows_self_eq_error (hnumeric : State.Numeric own.values) {count : Nat}
    (h : checkRows name time own own count = .error stop) : ∃ crash, stop = .crash crash := by
  induction count with
  | zero => cases h
  | succ count ih =>
      rw [checkRows_succ_self hnumeric] at h
      split at h
      next crash _ =>
        cases h
        exact ⟨crash, rfl⟩
      next => exact ih h

theorem any_not_isFinite_iff : (state.any fun x => !x.isFinite) = true ↔ ¬ State.Finite state := by
  simp [State.Finite]

theorem check_self_eq_ok_iff (hshaped : own.Shaped) (hnumeric : State.Numeric own.values) :
    check state own time (⟨rule, name, some own⟩ : Audited ρ) = .ok () ↔
      State.Finite state ∧ state.length = own.width ∧ own.width * own.depth < Word.count := by
  have hrows : checkRows name time own own (own.depth - 1) = .ok () ↔ _ :=
    (checkRows_self_eq_ok_iff hnumeric _).trans hshaped.readable_iff
  have hany := not_congr (@any_not_isFinite_iff state)
  rw [Classical.not_not] at hany
  rw [← hany, ← hrows]
  simp only [check, ne_eq, not_true_eq_false, or_self, if_false]
  split
  next hfound => simp [hfound]
  next hnone =>
    split
    next hwidth => simp [hwidth]
    next hwidth => exact ⟨fun h => ⟨hnone, Classical.not_not.1 hwidth, h⟩, fun h => h.2.2⟩

theorem check_self_eq_error (hnumeric : State.Numeric own.values)
    (h : check state own time (⟨rule, name, some own⟩ : Audited ρ) = .error stop) :
    Complaint name time own.width state stop := by
  simp only [check] at h
  split at h
  · cases h
    exact .nonFinite
  · split at h
    · cases h
      exact .misshapen
    · simp only [ne_eq, not_true_eq_false, or_self, if_false] at h
      obtain ⟨crash, rfl⟩ := checkRows_self_eq_error hnumeric h
      exact .unreadable crash

/-! ## Checks against a window of the same shape -/

section Shape

variable {shadow : Window} (hwidth : own.width = shadow.width) (hdepth : own.depth = shadow.depth)

include hwidth hdepth

theorem check_eq : check state own time (⟨rule, name, some shadow⟩ : Audited ρ) =
    if ¬ State.Finite state then .error (.fault (.nonFinite name time state))
    else if state.length ≠ own.width then
      .error (.fault (.wrongWidth name time state.length own.width))
    else checkRows name time own shadow (own.depth - 1) := by
  simp only [check, hwidth, hdepth, ne_eq, not_true_eq_false, or_self, if_false, any_not_isFinite_iff]

theorem length_of_check (h : check state own time (⟨rule, name, some shadow⟩ : Audited ρ) = .ok ()) :
    State.Finite state ∧ state.length = shadow.width := by
  rw [check_eq hwidth hdepth] at h
  split at h
  · cases h
  next hfinite =>
    split at h
    · cases h
    next hlength => exact ⟨Classical.not_not.1 hfinite, (Classical.not_not.1 hlength).trans hwidth⟩

theorem accept_eq {index : Nat} {view : View} (hwindow : view.windows[index]? = some own)
    (hshaped : shadow.Shaped) :
    accept index view state (⟨rule, name, some shadow⟩ : Audited ρ) =
      (check state own view.timeline.next (⟨rule, name, some shadow⟩ : Audited ρ)).map
        fun _ => ⟨rule, name, some (shadow.recorded state)⟩ := by
  have hview : view.window index = .ok own := by rw [View.window, hwindow]
  have haccept : accept index view state (⟨rule, name, some shadow⟩ : Audited ρ) =
      check state own view.timeline.next (⟨rule, name, some shadow⟩ : Audited ρ) >>=
        fun _ => record state ⟨rule, name, some shadow⟩ := by
    rw [accept, hview]
    rfl
  rw [haccept]
  cases hcheck : check state own view.timeline.next (⟨rule, name, some shadow⟩ : Audited ρ) with
  | error stop => rfl
  | ok _ =>
      have hpush : shadow.push state = .ok (shadow.recorded state) :=
        hshaped.push_eq (length_of_check hwidth hdepth hcheck).2
      simp only [record, hpush, bind, Except.bind, pure, Except.pure, Except.map]

end Shape

/-! ## Calls -/

variable [UpdateRule ρ] {params : Params} {index : Nat} {view : View}

/-- The answer of a rule under audit: that of the rule inside, if it is an error or the state passes. -/
theorem advance_eq {shadow : Window} (hwidth : own.width = shadow.width) (hdepth : own.depth = shadow.depth)
    (hwindow : view.windows[index]? = some own) (hshaped : shadow.Shaped) :
    UpdateRule.advance params index view (⟨rule, name, some shadow⟩ : Audited ρ) =
      let reply := UpdateRule.advance params index view rule
      match reply.result with
      | .error stop => ⟨.error stop, ⟨reply.next, name, some shadow⟩, reply.emitted⟩
      | .ok state =>
          match check state own view.timeline.next (⟨reply.next, name, some shadow⟩ : Audited ρ) with
          | .error stop => ⟨.error stop, ⟨reply.next, name, some shadow⟩, reply.emitted⟩
          | .ok () => ⟨.ok state, ⟨reply.next, name, some (shadow.recorded state)⟩, reply.emitted⟩ := by
  have hadvance : UpdateRule.advance params index view (⟨rule, name, some shadow⟩ : Audited ρ) =
    advance params index view ⟨rule, name, some shadow⟩ := rfl
  rw [hadvance, advance]
  dsimp only
  cases (UpdateRule.advance params index view rule).result with
  | error stop => rfl
  | ok state =>
      dsimp only
      rw [accept_eq hwidth hdepth hwindow hshaped]
      cases check state own view.timeline.next
        (⟨(UpdateRule.advance params index view rule).next, name, some shadow⟩ : Audited ρ) <;> rfl

end Audited

end Tandem
