import Tandem.Documents
import Tandem.Proofs.Plan.Document
import Tandem.Proofs.Sliding

/-!
# Shapes of windows

The size of a window is the word that its width times its depth leaves. While that product is a word, a
document is accepted exactly if it has some depth and as many values as rows of its width, and every row of
the window can be read. Once the product wraps, a document with too few values is accepted, and whatever way a
window of such a shape comes about, one of its rows cannot be read.
-/

namespace Tandem.Window

open Json

variable {window : Window} {values : List Float} {width depth : Nat}

/-! ## Shapes of documents -/

theorem ofParts_eq_ok_iff :
    ofParts values width depth = .ok window ↔
      window = ⟨values, width, depth⟩ ∧ 0 < depth ∧ values.length = Word.wrap (width * depth) := by
  unfold ofParts
  split
  next hrefused =>
    constructor
    · rintro ⟨⟩
    · rintro ⟨-, hdepth, hlength⟩
      rcases hrefused with hzero | hother
      · exact absurd hzero (Nat.ne_of_gt hdepth)
      · exact absurd hlength hother
  next haccepted =>
    rw [not_or, Decidable.not_not] at haccepted
    constructor
    · rintro ⟨⟩
      exact ⟨rfl, Nat.pos_of_ne_zero haccepted.1, haccepted.2⟩
    · rintro ⟨rfl, -⟩
      rfl

theorem ofParts_eq_error_iff :
    ofParts values width depth = .error (.invalid (.windowParts values.length depth width)) ↔
      ∀ window, ofParts values width depth ≠ .ok window := by
  unfold ofParts
  split
  next => exact iff_of_true rfl nofun
  next => exact iff_of_false nofun fun hnone => hnone _ rfl

theorem ofText?_eq {text : String} {doc : Doc} (hdoc : Doc.parse? text = some doc)
    (hparts : parts? doc = some (values, width, depth)) :
    ofText? text = (ofParts values width depth).toOption := by
  rw [ofText?, hdoc, Option.bind_eq_bind, Option.bind_some, ofDoc?, hparts]
  rfl

theorem parts?_toDoc (hvalues : ∀ x ∈ window.values, ReadsBack x) (hwidth : window.width < Word.count)
    (hdepth : window.depth < Word.count) :
    parts? window.toDoc = some (window.values, window.width, window.depth) := by
  have hrecord : window.toDoc.record? [⟨"values", true⟩, ⟨"width", true⟩, ⟨"depth", true⟩] =
      some [some (.ofList .ofFloat window.values), some (.ofNat window.width), some (.ofNat window.depth)] :=
    Doc.record?_of_names (by decide) rfl
  simp only [parts?, hrecord, Option.bind_eq_bind, Option.bind_some, Doc.field, list?_ofFloats hvalues,
    Doc.word?_ofNat hwidth, Doc.word?_ofNat hdepth]
  rfl

theorem parse?_toText (window : Window) : Doc.parse? window.toText = some window.toDoc := by
  refine Doc.parse?_compact (Doc.spelled_ofRecord ?_)
  simp only [List.forall_mem_cons]
  exact ⟨Doc.spelled_ofList Doc.spelled_ofFloat _, Doc.spelled_ofNat _, Doc.spelled_ofNat _,
    List.forall_mem_nil _⟩

/-! ## Rows that can be read and rows that cannot -/

theorem exists_row_of_size (hsize : window.values.length = window.width * window.depth)
    (hfits : window.width * window.depth < Word.count) {index : Nat} (hindex : index < window.depth) :
    ∃ row, window.row index = .ok row ∧ row.length = window.width := by
  have hend : index * window.width + window.width ≤ window.width * window.depth := by
    rw [← Nat.succ_mul, Nat.mul_comm window.width]
    exact Nat.mul_le_mul_right _ hindex
  refine ⟨_, (row_eq hindex (Nat.lt_of_le_of_lt hend hfits)).trans (if_pos (hsize.symm ▸ hend)), ?_⟩
  rw [List.length_take, List.length_drop]
  omega

/-- If the size of a window wraps, the row in which the first word beyond all others would lie has no end. -/
theorem exists_row_unreadable (hwrap : Word.count ≤ window.width * window.depth) :
    ∃ index, index < window.depth ∧ ∀ row, window.row index = .ok row → row.length ≠ window.width := by
  have hcount : 0 < Word.count := by decide
  have hwidth : 0 < window.width := by
    refine Nat.pos_of_ne_zero fun hzero => ?_
    rw [hzero, Nat.zero_mul] at hwrap
    omega
  have hbelow := Nat.div_mul_le_self (Word.count - 1) window.width
  have habove : Word.count - 1 < (Word.count - 1) / window.width * window.width + window.width := by
    rw [Nat.mul_comm]
    exact Nat.lt_mul_div_succ _ hwidth
  have hindex : (Word.count - 1) / window.width < window.depth := by
    refine (Nat.div_lt_iff_lt_mul hwidth).2 ?_
    rw [Nat.mul_comm]
    omega
  refine ⟨_, hindex, fun row hrow hlength => ?_⟩
  rw [Window.row, if_neg (Nat.not_le_of_lt hindex), Word.wrap_of_lt (by omega)] at hrow
  dsimp only at hrow
  split at hrow
  next hinside =>
    cases hrow
    rw [List.length_take, List.length_drop] at hlength
    have hlt := Word.wrap_lt ((Word.count - 1) / window.width * window.width + window.width)
    omega
  next => cases hrow

/-! ## Ways to come by a window -/

/-- A window that was built, or read from a document, and then took some states. What it refuses leaves it
as it is. -/
inductive Obtainable : Window → Prop
  | new {width depth : Nat} {initial : State} {window : Window}
      (h : Window.new width depth initial = .ok window) : Obtainable window
  | ofRows {rows : List State} {window : Window} (h : Window.ofRows rows = .ok window) : Obtainable window
  | ofParts {values : List Float} {width depth : Nat} {window : Window}
      (h : Window.ofParts values width depth = .ok window) : Obtainable window
  | push {window next : Window} {state : State} (hwindow : Obtainable window)
      (h : window.push state = .ok next) : Obtainable next

theorem push_keeps_shape {next : Window} {state : State} (h : window.push state = .ok next) :
    next.width = window.width ∧ next.depth = window.depth ∧ next.values.length = window.values.length := by
  unfold push at h
  split at h
  next => cases h
  next hwidth =>
    dsimp only at h
    split at h
    next hinside =>
      cases h
      have hlength : state.length = window.width := Decidable.of_not_not hwidth
      refine ⟨rfl, rfl, ?_⟩
      simp only [List.length_append, List.length_take, List.length_drop, hlength]
      omega
    next => cases h

theorem Obtainable.length_values (h : Obtainable window)
    (hfits : window.width * window.depth < Word.count) :
    window.values.length = window.width * window.depth := by
  induction h with
  | new h =>
      obtain ⟨-, hshaped, -⟩ := new_eq_ok h
      rw [hshaped.length_eq, Word.wrap_of_lt hfits]
  | ofRows h =>
      obtain ⟨hvalues, hlength, hwidth, -⟩ := ofRows_eq_ok h
      rw [hvalues, length_flatten_rows hwidth, hlength]
  | ofParts h =>
      obtain ⟨rfl, -, hlength⟩ := ofParts_eq_ok_iff.1 h
      rw [hlength, Word.wrap_of_lt hfits]
  | push _ h ih =>
      obtain ⟨hwidth, hdepth, hlength⟩ := push_keeps_shape h
      rw [hwidth, hdepth] at hfits ⊢
      rw [hlength, ih hfits]

theorem Obtainable.of_text {text : String} (h : ofText? text = some window) : Obtainable window := by
  obtain ⟨doc, -, hdoc⟩ := Option.bind_eq_some_iff.1 h
  obtain ⟨⟨values, width, depth⟩, -, hparts⟩ := Option.bind_eq_some_iff.1 hdoc
  exact .ofParts (toOption_eq_some_iff.1 hparts)

/-- A document of a window is read exactly if there is some depth and the values are as many as the word
that width times depth leaves. All rows of a window can be read in full exactly if its size does not
wrap. -/
theorem shapes_hold_until_size_wraps (width depth : Nat) :
    (∀ text doc values, Doc.parse? text = some doc → parts? doc = some (values, width, depth) →
      (∀ window, ofText? text = some window ↔
        window = ⟨values, width, depth⟩ ∧ 0 < depth ∧ values.length = Word.wrap (width * depth)) ∧
      (ofText? text = none ↔
        ofParts values width depth = .error (.invalid (.windowParts values.length depth width))) ∧
      (width * depth < Word.count →
        ((∃ window, ofText? text = some window) ↔ 0 < depth ∧ values.length = width * depth)) ∧
      (Word.count ≤ width * depth →
        (∃ window, ofText? text = some window) → values.length < width * depth)) ∧
    ∀ window, Obtainable window → window.width = width → window.depth = depth →
      ((∀ index, index < depth → ∃ row, window.row index = .ok row ∧ row.length = width) ↔
        width * depth < Word.count) := by
  constructor
  · intro text doc values hdoc hparts
    have hread : ∀ window, ofText? text = some window ↔
        window = ⟨values, width, depth⟩ ∧ 0 < depth ∧ values.length = Word.wrap (width * depth) := by
      intro window
      rw [ofText?_eq hdoc hparts, toOption_eq_some_iff, ofParts_eq_ok_iff]
    have haccepted : (∃ window, ofText? text = some window) ↔
        0 < depth ∧ values.length = Word.wrap (width * depth) := by
      simp only [hread, exists_eq_left]
    refine ⟨hread, ?_, fun hfits => ?_, fun hwrap hsome => ?_⟩
    · rw [ofText?_eq hdoc hparts, toOption_eq_none_iff, ofParts_eq_error_iff]
    · rw [haccepted, Word.wrap_of_lt hfits]
    · rw [(haccepted.1 hsome).2]
      exact Nat.lt_of_lt_of_le (Word.wrap_lt _) hwrap
  · rintro window hwindow rfl rfl
    constructor
    · intro hreadable
      refine Nat.lt_of_not_le fun hwrap => ?_
      obtain ⟨index, hindex, hunreadable⟩ := exists_row_unreadable hwrap
      obtain ⟨row, hrow, hlength⟩ := hreadable index hindex
      exact hunreadable row hrow hlength
    · exact fun hfits _ hindex => exists_row_of_size (hwindow.length_values hfits) hfits hindex

/-- A window without values whose size is the first number that is no word. -/
def hollowWindow : Window := ⟨[], 4294967296, 4294967296⟩

/-- Its text is read, and not all of its rows can be. -/
theorem hollowWindow_is_read :
    ofText? hollowWindow.toText = some hollowWindow ∧ Word.count ≤ hollowWindow.width * hollowWindow.depth ∧
      ¬ ∀ index, index < hollowWindow.depth →
        ∃ row, hollowWindow.row index = .ok row ∧ row.length = hollowWindow.width := by
  obtain ⟨hshapes, hrows⟩ := shapes_hold_until_size_wraps hollowWindow.width hollowWindow.depth
  have hparts : parts? hollowWindow.toDoc = some ([], hollowWindow.width, hollowWindow.depth) :=
    parts?_toDoc (List.forall_mem_nil _) (by decide) (by decide)
  obtain ⟨hread, -⟩ := hshapes _ _ _ (parse?_toText hollowWindow) hparts
  have htext : ofText? hollowWindow.toText = some hollowWindow :=
    (hread hollowWindow).2 ⟨rfl, by decide, by decide⟩
  have hwraps : Word.count ≤ hollowWindow.width * hollowWindow.depth := by decide
  exact ⟨htext, hwraps, fun hreadable =>
    Nat.not_lt_of_le hwraps ((hrows hollowWindow (.of_text htext) rfl rfl).1 hreadable)⟩

end Tandem.Window
