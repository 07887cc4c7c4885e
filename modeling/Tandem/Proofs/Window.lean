import Tandem.Window

/-!
# What windows keep

A window that was built for some width and depth has room for as many values as the word `width * depth`
says. Recording a state puts it before all others and drops as many of the oldest values, whatever the
depth. Rows are found again as long as `width * depth` does not wrap, and only then.
-/

namespace Tandem

namespace Word

theorem wrap_lt (n : Nat) : wrap n < count := Nat.mod_lt n (by decide)

end Word

namespace Window

variable {window : Window} {state : State}

/-- The shape of a window that `Window.new` builds and `Window.push` keeps. -/
structure Shaped (window : Window) : Prop where
  length_eq : window.values.length = Word.wrap (window.width * window.depth)
  length_lt : window.values.length < Word.room
  width_le : window.width ≤ window.values.length
  depth_pos : 0 < window.depth

/-- A window with the given rows, most recent first, and zeros behind them, cut off at its length. -/
def Holds (window : Window) (rows : List State) : Prop :=
  window.values =
    (rows.flatten ++ List.replicate window.values.length 0).take window.values.length

theorem Holds.unique {other : Window} {rows : List State} (h : window.Holds rows) (h' : other.Holds rows)
    (hshaped : window.Shaped) (hshaped' : other.Shaped) (hwidth : window.width = other.width)
    (hdepth : window.depth = other.depth) : window = other := by
  have hlength : window.values.length = other.values.length := by
    rw [hshaped.length_eq, hshaped'.length_eq, hwidth, hdepth]
  have hvalues : window.values = other.values := by
    unfold Holds at h h'
    rw [h, h', hlength]
  cases window
  cases other
  simp_all

/-! ## Building -/

theorem new_eq_ok {width depth : Nat} {initial : State} (h : new width depth initial = .ok window) :
    initial.length = width ∧ window.Shaped ∧ window.width = width ∧ window.depth = depth ∧
      window.Holds [initial] := by
  unfold new at h
  split at h
  · cases h
  next hdepth =>
    split at h
    · cases h
    next hwidth =>
      dsimp only at h
      split at h
      · cases h
      next hroom =>
        split at h
        · cases h
        next hfits =>
          cases h
          have hinitial : initial.length = width := by simpa using hwidth
          have hlength : (initial ++ List.replicate (Word.wrap (width * depth) - width)
              (0 : Float)).length = Word.wrap (width * depth) := by
            simp only [List.length_append, List.length_replicate]
            omega
          have hroom : Word.wrap (width * depth) < Word.room := Nat.lt_of_not_le hroom
          have hfits : width ≤ Word.wrap (width * depth) := Nat.le_of_not_lt hfits
          refine ⟨hinitial, ⟨hlength, Nat.lt_of_le_of_lt (Nat.le_of_eq hlength) hroom,
            Nat.le_trans hfits (Nat.le_of_eq hlength.symm), Nat.pos_of_ne_zero hdepth⟩, rfl, rfl, ?_⟩
          unfold Holds
          dsimp only
          rw [hlength, List.flatten_singleton, List.take_append, hinitial, List.take_replicate,
            List.take_of_length_le (hinitial ▸ hfits), Nat.min_eq_left (Nat.sub_le _ _)]

/-! ## Recording -/

theorem Shaped.kept_eq (h : window.Shaped) :
    Word.wrap (window.width * (window.depth - 1)) = window.values.length - window.width := by
  have hlength := h.length_eq
  have hwidth := h.width_le
  have hlt := Word.wrap_lt (window.width * window.depth)
  have hsplit : window.width * window.depth =
      window.width * (window.depth - 1) + window.width := by
    have hdepth : window.depth = window.depth - 1 + 1 := by
      have := h.depth_pos
      omega
    calc window.width * window.depth
        = window.width * (window.depth - 1 + 1) := by rw [← hdepth]
      _ = window.width * (window.depth - 1) + window.width := Nat.mul_succ _ _
  unfold Word.wrap at hlength hlt ⊢
  have hdiv := Nat.div_add_mod (window.width * window.depth) Word.count
  have hkept : window.width * (window.depth - 1) =
      window.values.length - window.width +
        Word.count * (window.width * window.depth / Word.count) := by
    omega
  rw [hkept, Nat.add_mul_mod_self_left, Nat.mod_eq_of_lt (by omega)]

def recorded (window : Window) (state : State) : Window :=
  { window with values := state ++ window.values.take (window.values.length - window.width) }

theorem Shaped.push_eq (h : window.Shaped) (hstate : state.length = window.width) :
    window.push state = .ok (window.recorded state) := by
  have hwidth := h.width_le
  unfold push
  rw [if_neg (by simpa using hstate), h.kept_eq]
  dsimp only
  rw [if_pos (by omega), List.drop_of_length_le (by omega), List.append_nil]
  rfl

theorem Shaped.length_recorded (h : window.Shaped) (hstate : state.length = window.width) :
    (window.recorded state).values.length = window.values.length := by
  have hwidth := h.width_le
  rw [recorded, List.length_append, List.length_take, hstate]
  omega

theorem Shaped.recorded (h : window.Shaped) (hstate : state.length = window.width) :
    (window.recorded state).Shaped where
  length_eq := (h.length_recorded hstate).trans h.length_eq
  length_lt := (h.length_recorded hstate).symm ▸ h.length_lt
  width_le := (h.length_recorded hstate).symm ▸ h.width_le
  depth_pos := h.depth_pos

theorem Holds.recorded {rows : List State} (hrows : window.Holds rows) (h : window.Shaped)
    (hstate : state.length = window.width) : (window.recorded state).Holds (state :: rows) := by
  have hfits : state.length ≤ window.values.length := hstate ▸ h.width_le
  unfold Holds at hrows ⊢
  rw [h.length_recorded hstate, List.flatten_cons, List.append_assoc, List.take_append,
    List.take_of_length_le hfits, hstate]
  have hcut := congrArg (List.take (window.values.length - window.width)) hrows
  rw [List.take_take, Nat.min_eq_left (Nat.sub_le _ _)] at hcut
  exact congrArg (state ++ ·) hcut

@[simp]
theorem width_recorded (window : Window) (state : State) :
    (window.recorded state).width = window.width := rfl

@[simp]
theorem depth_recorded (window : Window) (state : State) :
    (window.recorded state).depth = window.depth := rfl

/-! ## Reading rows -/

theorem row_eq {d : Nat} (hd : d < window.depth)
    (hend : d * window.width + window.width < Word.count) :
    window.row d =
      if d * window.width + window.width ≤ window.values.length then
        .ok ((window.values.drop (d * window.width)).take window.width)
      else .error .outOfBounds := by
  have hstart : Word.wrap (d * window.width) = d * window.width := Word.wrap_of_lt (by omega)
  have hstop := Word.wrap_of_lt hend
  simp only [row, if_neg (Nat.not_le_of_lt hd), hstart, hstop, Nat.add_sub_cancel_left,
    Nat.le_add_right, true_and]

theorem lt_depth_of_row {d : Nat} (h : window.row d = .ok state) : d < window.depth := by
  refine Nat.lt_of_not_le fun hle => ?_
  rw [row, if_pos hle] at h
  cases h

theorem Shaped.row_eq_ok (h : window.Shaped) (hfit : window.width * window.depth < Word.count)
    {d : Nat} (hd : d < window.depth) :
    window.row d = .ok ((window.values.drop (d * window.width)).take window.width) := by
  have hlength := h.length_eq
  rw [Word.wrap_of_lt hfit] at hlength
  have hend : d * window.width + window.width ≤ window.width * window.depth := by
    rw [← Nat.succ_mul, Nat.mul_comm window.width]
    exact Nat.mul_le_mul_right _ hd
  rw [row_eq hd (by omega), if_pos (by omega)]

/-- A window whose size wraps has a row that lies past its end. -/
theorem Shaped.exists_row_error (h : window.Shaped)
    (hwrap : Word.count ≤ window.width * window.depth) :
    ∃ d, d < window.depth ∧ window.row d = .error .outOfBounds := by
  have hlt := h.length_lt
  have hwidth := h.width_le
  have hroom : 2 * Word.room < Word.count := by decide
  have hpos : 0 < window.width := by
    refine Nat.pos_of_ne_zero fun hzero => ?_
    rw [hzero, Nat.zero_mul] at hwrap
    omega
  have hbelow := Nat.div_mul_le_self window.values.length window.width
  have habove : window.values.length <
      window.values.length / window.width * window.width + window.width := by
    rw [Nat.mul_comm]
    exact Nat.lt_mul_div_succ _ hpos
  have hdepth : window.values.length / window.width < window.depth := by
    refine (Nat.div_lt_iff_lt_mul hpos).2 ?_
    rw [Nat.mul_comm]
    omega
  refine ⟨_, hdepth, ?_⟩
  rw [row_eq hdepth (by omega), if_neg (by omega)]

theorem Shaped.row_zero_recorded (h : window.Shaped) (hstate : state.length = window.width) :
    (window.recorded state).row 0 = .ok state := by
  have hafter := h.recorded hstate
  have hlt := hafter.length_lt
  have hwidth := hafter.width_le
  have hroom : Word.room < Word.count := by decide
  rw [row_eq hafter.depth_pos (by omega), if_pos (by omega), Nat.zero_mul, List.drop_zero]
  simp only [Window.recorded]
  rw [List.take_append_of_le_length (by omega), List.take_of_length_le (by omega)]

theorem Holds.row_zero {rows : List State}
    (h : window.Holds (state :: rows)) (hshaped : window.Shaped) (hwidth : state.length = window.width) :
    window.row 0 = .ok state := by
  have hlt := hshaped.length_lt
  have hle := hshaped.width_le
  have hroom : Word.room < Word.count := by decide
  have hvalues : window.values.take window.width = state := by
    have hcut := congrArg (List.take window.width) h
    rwa [List.take_take, Nat.min_eq_left hle, List.flatten_cons, List.append_assoc,
      List.take_append_of_le_length (Nat.le_of_eq hwidth.symm),
      List.take_of_length_le (Nat.le_of_eq hwidth)] at hcut
  rw [Window.row_eq hshaped.depth_pos (by omega), if_pos (by omega), Nat.zero_mul, List.drop_zero,
    hvalues]

theorem Shaped.exists_latest (h : window.Shaped) : ∃ state, window.latest = .ok state := by
  have hlt := h.length_lt
  have hle := h.width_le
  have hroom : Word.room < Word.count := by decide
  exact ⟨_, by rw [latest, row_eq h.depth_pos (by omega), if_pos (by omega)]⟩

theorem Shaped.row_succ_recorded (h : window.Shaped)
    (hfit : window.width * window.depth < Word.count) (hstate : state.length = window.width) {d : Nat}
    (hd : d + 1 < window.depth) : (window.recorded state).row (d + 1) = window.row d := by
  have hlength := h.length_eq
  rw [Word.wrap_of_lt hfit] at hlength
  have hend : d * window.width + window.width + window.width ≤ window.values.length := by
    rw [hlength, ← Nat.succ_mul, ← Nat.succ_mul, Nat.mul_comm window.width]
    exact Nat.mul_le_mul_right _ hd
  rw [(h.recorded hstate).row_eq_ok hfit hd, h.row_eq_ok hfit (by omega)]
  simp only [Window.recorded]
  have hskip : (d + 1) * window.width = state.length + d * window.width := by
    rw [Nat.succ_mul, hstate, Nat.add_comm]
  rw [hskip, ← List.drop_drop, List.drop_left, List.drop_take, List.take_take,
    Nat.min_eq_left (by omega)]

/-- What row `d` of a window that holds `rows` should be. -/
def rowAt (width : Nat) (rows : List State) (d : Nat) : State :=
  (rows[d]?).getD (List.replicate width 0)

/-- Rows of one width with zeros behind them, cut off after row `d`, are found at their places. -/
theorem take_drop_flatten {width zeros : Nat} {rows : List State}
    (hrows : ∀ row ∈ rows, row.length = width) {d size : Nat} (hzeros : size ≤ zeros)
    (hsize : d * width + width ≤ size) :
    (((rows.flatten ++ List.replicate zeros 0).take size).drop (d * width)).take width =
      rowAt width rows d := by
  induction rows generalizing d size with
  | nil =>
      rw [List.flatten_nil, List.nil_append, List.take_replicate, List.drop_replicate,
        List.take_replicate]
      congr 1
      omega
  | cons row rest ih =>
      obtain ⟨hrow, hrest⟩ := List.forall_mem_cons.1 hrows
      rw [List.flatten_cons, List.append_assoc, List.take_append,
        List.take_of_length_le (by omega : row.length ≤ size), hrow]
      cases d with
      | zero =>
          rw [Nat.zero_mul, List.drop_zero, List.take_append_of_le_length (by omega),
            List.take_of_length_le (by omega)]
          rfl
      | succ d =>
          have hnext : (d + 1) * width = row.length + d * width := by
            rw [Nat.succ_mul, hrow, Nat.add_comm]
          rw [Nat.succ_mul] at hsize
          rw [hnext, ← List.drop_drop, List.drop_left]
          exact ih hrest (by omega) (by omega)

theorem Holds.row_eq {rows : List State} (hholds : window.Holds rows) (h : window.Shaped)
    (hfit : window.width * window.depth < Word.count)
    (hrows : ∀ row ∈ rows, row.length = window.width) {d : Nat} (hd : d < window.depth) :
    window.row d = .ok (rowAt window.width rows d) := by
  have hlength := h.length_eq
  rw [Word.wrap_of_lt hfit] at hlength
  have hend : d * window.width + window.width ≤ window.values.length := by
    rw [hlength, ← Nat.succ_mul, Nat.mul_comm window.width]
    exact Nat.mul_le_mul_right _ hd
  rw [h.row_eq_ok hfit hd, hholds, take_drop_flatten hrows (Nat.le_refl _) hend]

end Window

end Tandem
