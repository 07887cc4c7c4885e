import Tandem.Proofs.Window

/-!
# Windows slide over their rows

A window that is built without a document lists its rows one after the other. A state of its width goes
before them and pushes the last one out, and a state of another width changes nothing. After any sequence of
states the window thus lists those of its width, the last one first, and behind them the rows that it was
built with, as far as its depth allows.
-/

namespace Tandem.Window

variable {window : Window} {rows : List State} {state : State}

/-- The window lists the given rows and nothing else, the current state first, and there is room for them. -/
structure Stacks (window : Window) (rows : List State) : Prop where
  values_eq : window.values = rows.flatten
  length_eq : rows.length = window.depth
  width_eq : ∀ row ∈ rows, row.length = window.width
  depth_pos : 0 < window.depth
  size_lt : window.width * window.depth < Word.room

/-! ## Rows of one width -/

theorem length_flatten_rows {width : Nat} (h : ∀ row ∈ rows, row.length = width) :
    rows.flatten.length = width * rows.length := by
  rw [List.length_flatten, List.map_congr_left h, List.map_const', List.sum_replicate_nat, Nat.mul_comm]

theorem take_flatten_rows {width : Nat} (h : ∀ row ∈ rows, row.length = width) (n : Nat) :
    rows.flatten.take (width * n) = (rows.take n).flatten := by
  induction rows generalizing n with
  | nil => simp
  | cons row rest ih =>
      obtain ⟨hrow, hrest⟩ := List.forall_mem_cons.1 h
      cases n with
      | zero => simp
      | succ n =>
          rw [List.flatten_cons, List.take_succ_cons, List.flatten_cons, Nat.mul_succ, Nat.add_comm,
            ← hrow, List.take_length_add_append, hrow, ih hrest]

theorem take_append_take {α : Type} (xs ys : List α) (n : Nat) :
    (xs ++ ys.take n).take n = (xs ++ ys).take n := by
  rw [List.take_append, List.take_append, List.take_take, Nat.min_eq_left (Nat.sub_le _ _)]

namespace Stacks

theorem length_values (h : window.Stacks rows) : window.values.length = window.width * window.depth := by
  rw [h.values_eq, length_flatten_rows h.width_eq, h.length_eq]

theorem size_lt_count (h : window.Stacks rows) : window.width * window.depth < Word.count :=
  Nat.lt_trans h.size_lt (by decide)

theorem shaped (h : window.Stacks rows) : window.Shaped where
  length_eq := by rw [h.length_values, Word.wrap_of_lt h.size_lt_count]
  length_lt := h.length_values.symm ▸ h.size_lt
  width_le := h.length_values.symm ▸ Nat.le_mul_of_pos_right window.width h.depth_pos
  depth_pos := h.depth_pos

/-! ### Reading -/

theorem row_eq (h : window.Stacks rows) {index : Nat} {row : State} (hrow : rows[index]? = some row) :
    window.row index = .ok row := by
  have hholds : window.Holds rows := by
    rw [Holds, h.values_eq, List.take_left]
  have hindex : index < window.depth := by
    rw [← h.length_eq]
    exact (List.getElem?_eq_some_iff.1 hrow).1
  rw [hholds.row_eq h.shaped h.size_lt_count h.width_eq hindex, rowAt, hrow, Option.getD_some]

theorem exists_row (h : window.Stacks rows) {index : Nat} (hindex : index < window.depth) :
    ∃ row, rows[index]? = some row ∧ row.length = window.width ∧ window.row index = .ok row := by
  have hlt : index < rows.length := h.length_eq.symm ▸ hindex
  have hrow : rows[index]? = some rows[index] := List.getElem?_eq_getElem hlt
  exact ⟨rows[index], hrow, h.width_eq _ (List.getElem_mem hlt), h.row_eq hrow⟩

theorem row_eq_error_iff (h : window.Stacks rows) (index : Nat) :
    (∃ crash, window.row index = .error crash) ↔ window.depth ≤ index := by
  constructor
  · rintro ⟨crash, hcrash⟩
    refine Nat.le_of_not_lt fun hindex => ?_
    obtain ⟨row, -, -, hrow⟩ := h.exists_row hindex
    rw [hrow] at hcrash
    cases hcrash
  · intro hindex
    exact ⟨_, if_pos hindex⟩

end Stacks

theorem valueAt_eq {index : Nat} {row : State} (h : window.row index = .ok row) (column : Nat) :
    window.valueAt index column = (row[column]?).elim (.error .outOfBounds) .ok := by
  rw [valueAt, h]
  cases hcolumn : row[column]? with
  | none => simp only [bind, Except.bind, hcolumn, Option.elim_none]; rfl
  | some value => simp only [bind, Except.bind, hcolumn, Option.elim_some]; rfl

/-! ## How a window is built -/

/-- A window as it is built without a document, and its rows. -/
inductive Laid : Window → List State → Prop
  | new {width depth : Nat} {initial : State} {window : Window}
      (h : Window.new width depth initial = .ok window) :
      Laid window (initial :: List.replicate (depth - 1) (List.replicate width 0))
  | ofRows {rows : List State} {window : Window} (h : Window.ofRows rows = .ok window) : Laid window rows

theorem findRagged_eq_none {width start : Nat} (h : findRagged width start rows = none) :
    ∀ row ∈ rows, row.length = width := by
  induction rows generalizing start with
  | nil => exact List.forall_mem_nil _
  | cons row rest ih =>
      unfold findRagged at h
      split at h
      next => cases h
      next hrow => exact List.forall_mem_cons.2 ⟨Decidable.of_not_not hrow, ih h⟩

theorem stacks_of_new {width depth : Nat} {initial : State} (h : new width depth initial = .ok window)
    (hroom : window.width * window.depth < Word.room) :
    window.Stacks (initial :: List.replicate (depth - 1) (List.replicate width 0)) := by
  obtain ⟨hinitial, hshaped, rfl, rfl, hholds⟩ := new_eq_ok h
  have hlength := hshaped.length_eq
  rw [Word.wrap_of_lt (Nat.lt_trans hroom (by decide))] at hlength
  constructor
  case values_eq =>
    have hrest : window.values.length - initial.length = (window.depth - 1) * window.width := by
      rw [hlength, hinitial, Nat.sub_mul, Nat.one_mul, Nat.mul_comm]
    rw [hholds, List.flatten_singleton, List.take_append,
      List.take_of_length_le (hinitial ▸ hshaped.width_le), List.take_replicate,
      Nat.min_eq_left (Nat.sub_le _ _), hrest, List.flatten_cons, List.flatten_replicate_replicate]
  case length_eq =>
    rw [List.length_cons, List.length_replicate, Nat.sub_add_cancel hshaped.depth_pos]
  case width_eq =>
    refine List.forall_mem_cons.2 ⟨hinitial, fun row hrow => ?_⟩
    rw [List.eq_of_mem_replicate hrow, List.length_replicate]
  case depth_pos => exact hshaped.depth_pos
  case size_lt => exact hroom

theorem ofRows_eq_ok (h : ofRows rows = .ok window) :
    window.values = rows.flatten ∧ rows.length = window.depth ∧
      (∀ row ∈ rows, row.length = window.width) ∧ 0 < window.depth := by
  unfold ofRows at h
  split at h
  next => cases h
  next row rest =>
    split at h
    next => cases h
    next hragged =>
      cases h
      exact ⟨rfl, rfl, findRagged_eq_none hragged, Nat.succ_pos _⟩

theorem Laid.stacks (h : Laid window rows) (hroom : window.width * window.depth < Word.room) :
    window.Stacks rows := by
  cases h with
  | new h => exact stacks_of_new h hroom
  | ofRows h =>
      obtain ⟨hvalues, hlength, hwidth, hdepth⟩ := ofRows_eq_ok h
      exact ⟨hvalues, hlength, hwidth, hdepth, hroom⟩

/-! ## States that are offered to a window -/

/-- The window after a state was offered to it; one that it does not take leaves it as it was. -/
def offered (window : Window) (state : State) : Window :=
  match window.push state with
  | .ok next => next
  | .error _ => window

def taken (width : Nat) (states : List State) : List State :=
  (states.filter fun state => state.length = width).reverse

theorem push_of_other_width (h : state.length ≠ window.width) :
    window.push state = .error (.fault (.invalid (.insertedWidth state.length window.width))) := by
  rw [push, if_pos h]

theorem offered_of_other_width (h : state.length ≠ window.width) : window.offered state = window := by
  rw [offered, push_of_other_width h]

theorem Shaped.offered_eq (h : window.Shaped) (hstate : state.length = window.width) :
    window.offered state = window.recorded state := by
  rw [offered, h.push_eq hstate]

theorem Shaped.push_eq_ok_iff (h : window.Shaped) :
    (∃ next, window.push state = .ok next) ↔ state.length = window.width := by
  constructor
  · rintro ⟨next, hnext⟩
    refine Decidable.of_not_not fun hstate => ?_
    rw [push_of_other_width hstate] at hnext
    cases hnext
  · exact fun hstate => ⟨_, h.push_eq hstate⟩

theorem taken_cons_of_width {width : Nat} (h : state.length = width) (states : List State) :
    taken width (state :: states) = taken width states ++ [state] := by
  rw [taken, List.filter_cons_of_pos (by simpa using h), List.reverse_cons, taken]

theorem taken_cons_of_other_width {width : Nat} (h : state.length ≠ width) (states : List State) :
    taken width (state :: states) = taken width states := by
  rw [taken, List.filter_cons_of_neg (by simpa using h), taken]

namespace Stacks

theorem recorded (h : window.Stacks rows) (hstate : state.length = window.width) :
    (window.recorded state).Stacks ((state :: rows).take window.depth) := by
  obtain ⟨rest, hrest⟩ : ∃ rest, window.depth = rest + 1 :=
    Nat.exists_eq_succ_of_ne_zero (Nat.ne_of_gt h.depth_pos)
  rw [hrest, List.take_succ_cons]
  constructor
  case values_eq =>
    have hkept : window.values.length - window.width = window.width * rest := by
      rw [h.length_values, hrest, Nat.mul_succ, Nat.add_sub_cancel]
    rw [List.flatten_cons, ← take_flatten_rows h.width_eq, ← h.values_eq, ← hkept]
    rfl
  case length_eq =>
    rw [List.length_cons, List.length_take, h.length_eq, depth_recorded, hrest,
      Nat.min_eq_left (Nat.le_succ rest)]
  case width_eq =>
    exact List.forall_mem_cons.2 ⟨hstate, fun row hrow => h.width_eq row (List.mem_of_mem_take hrow)⟩
  case depth_pos => exact h.depth_pos
  case size_lt => exact h.size_lt

theorem foldl_offered (h : window.Stacks rows) (states : List State) :
    (states.foldl offered window).width = window.width ∧
      (states.foldl offered window).depth = window.depth ∧
      (states.foldl offered window).Stacks ((taken window.width states ++ rows).take window.depth) := by
  induction states generalizing window rows with
  | nil =>
      have hrows : (taken window.width [] ++ rows).take window.depth = rows := by
        rw [← h.length_eq]
        exact List.take_length
      exact ⟨rfl, rfl, hrows.symm ▸ h⟩
  | cons state rest ih =>
      rw [List.foldl_cons]
      by_cases hstate : state.length = window.width
      · have hlater := ih (h.recorded hstate)
        rw [width_recorded, depth_recorded, take_append_take] at hlater
        rwa [h.shaped.offered_eq hstate, taken_cons_of_width hstate, List.append_assoc,
          List.singleton_append]
      · rw [offered_of_other_width hstate, taken_cons_of_other_width hstate]
        exact ih h

end Stacks

/-- After any states were offered to a window, it lists those of its width, the last one first, and then the
rows it was built with, as many as its depth says. States of another width are refused and leave it as it
is. -/
theorem offered_states_slide (hlaid : Laid window rows)
    (hroom : window.width * window.depth < Word.room) (states : List State) :
    let after := states.foldl offered window
    let listed := (taken window.width states ++ rows).take window.depth
    after.width = window.width ∧ after.depth = window.depth ∧
      (∀ state, (∃ next, after.push state = .ok next) ↔ state.length = window.width) ∧
      (∀ state, state.length ≠ window.width →
        after.push state = .error (.fault (.invalid (.insertedWidth state.length window.width))) ∧
          after.offered state = after) ∧
      (∀ index, index < window.depth → ∃ row, listed[index]? = some row ∧ row.length = window.width ∧
        after.row index = .ok row ∧
          ∀ column, after.valueAt index column = (row[column]?).elim (.error .outOfBounds) .ok) ∧
      ∀ index, (∃ crash, after.row index = .error crash) ↔ window.depth ≤ index := by
  intro after listed
  obtain ⟨hwidth, hdepth, hafter⟩ := (hlaid.stacks hroom).foldl_offered states
  change after.width = window.width at hwidth
  change after.depth = window.depth at hdepth
  refine ⟨hwidth, hdepth, fun state => ?_, fun state hstate => ?_, fun index hindex => ?_, fun index => ?_⟩
  · rw [hafter.shaped.push_eq_ok_iff, hwidth]
  · rw [← hwidth] at hstate ⊢
    exact ⟨push_of_other_width hstate, offered_of_other_width hstate⟩
  · obtain ⟨row, hlisted, hlength, hrow⟩ := hafter.exists_row (hdepth.symm ▸ hindex)
    exact ⟨row, hlisted, hlength.trans hwidth, hrow, valueAt_eq hrow⟩
  · rw [hafter.row_eq_error_iff, hdepth]

def narrowWindow : Window := ⟨[1, 0], 1, 2⟩

/-- Of four states two are too wide or too narrow; the other two take the place of both rows. -/
theorem narrowWindow_slides :
    Laid narrowWindow [[1], [0]] ∧ narrowWindow.width * narrowWindow.depth < Word.room ∧
      let after := [[2], [3, 4], [5], []].foldl offered narrowWindow
      after.row 0 = .ok [5] ∧ after.row 1 = .ok [2] ∧ (∃ crash, after.row 2 = .error crash) ∧
        after.offered [6, 7] = after := by
  have hlaid : Laid narrowWindow [[1], [0]] := .ofRows rfl
  have hroom : narrowWindow.width * narrowWindow.depth < Word.room := by decide +kernel
  obtain ⟨-, -, -, hrefuses, hreads, hfails⟩ :=
    offered_states_slide hlaid hroom [[2], [3, 4], [5], []]
  obtain ⟨current, hcurrent, -, hfirst, -⟩ := hreads 0 (by decide)
  obtain ⟨previous, hprevious, -, hsecond, -⟩ := hreads 1 (by decide)
  obtain rfl : [5] = current := Option.some.inj (Eq.trans (by decide +kernel) hcurrent)
  obtain rfl : [2] = previous := Option.some.inj (Eq.trans (by decide +kernel) hprevious)
  exact ⟨hlaid, hroom, hfirst, hsecond, (hfails 2).2 (by decide), (hrefuses [6, 7] (by decide)).2⟩

end Tandem.Window
