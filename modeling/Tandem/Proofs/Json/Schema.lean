import Tandem.Json.Schema
import Tandem.Proofs.Json.Doc
import Tandem.Proofs.Table

/-!
# Values read back from documents

What is written for a value is read as that value: words, doubles, strings, lists, tables and records. A
double that is not finite is the exception. It is written as null, and a list or table with one such value
is not read at all.
-/

namespace Tandem.Json.Doc

variable {α β : Type}

/-! ## What is written has a text -/

theorem spelled_ofNat (n : Nat) : (ofNat n).Spelled := List.forall_mem_singleton.2 (Numeral.spelled_ofNat n)

theorem spelled_ofFloat (x : Float) : (ofFloat x).Spelled := by
  unfold ofFloat
  split
  · exact List.forall_mem_singleton.2 (Numeral.spelled_ofFloat x)
  · exact List.forall_mem_singleton.2 trivial

theorem spelled_ofString (s : String) : (ofString s).Spelled := List.forall_mem_singleton.2 trivial

theorem spelled_ofList {write : α → Doc} (h : ∀ a, (write a).Spelled) (values : List α) :
    (ofList write values).Spelled :=
  spelled_arr (List.forall_mem_map.2 fun a _ => h a)

theorem spelled_ofTable {write : α → Doc} (h : ∀ a, (write a).Spelled) (table : Table String α) :
    (ofTable write table).Spelled :=
  spelled_obj (List.forall_mem_map.2 fun entry _ => h entry.2)

theorem spelled_ofRecord {fields : List (String × Doc)} (h : ∀ field ∈ fields, field.2.Spelled) :
    (ofRecord fields).Spelled :=
  spelled_obj (List.forall_mem_map.2 h)

/-! ## Single values -/

theorem word?_ofNat {n : Nat} (h : n < Word.count) : (ofNat n).word? = some n := by
  simp [ofNat, word?, Numeral.toWord?, Numeral.ofNat, Numeral.isIntegral, Decimal.digitsValue_toDigits, h]

theorem lt_count_of_word? {doc : Doc} {n : Nat} (h : doc.word? = some n) : n < Word.count := by
  cases doc with
  | num numeral =>
      obtain ⟨⟨-, -, hlt⟩, hvalue⟩ := Option.ite_none_right_eq_some.1 h
      exact Option.some.inj hvalue ▸ hlt
  | _ => cases h

theorem float?_ofFloat {x : Float} (hfinite : x.isFinite = true)
    (hread : (Numeral.ofFloat x).toFloat? = some x) : (ofFloat x).float? = some x := by
  rw [ofFloat, if_pos hfinite]
  exact hread

theorem float?_ofFloat_of_not_finite {x : Float} (h : x.isFinite = false) : (ofFloat x).float? = none := by
  rw [ofFloat, if_neg (by simp [h])]
  rfl

theorem string?_ofString (s : String) : (ofString s).string? = some s := rfl

/-! ## Lists and tables -/

theorem mapM_eq_some {f : α → Option β} {g : α → β} {values : List α} (h : ∀ a ∈ values, f a = some (g a)) :
    values.mapM f = some (values.map g) := by
  induction values with
  | nil => rfl
  | cons a rest ih =>
      obtain ⟨hfirst, hrest⟩ := List.forall_mem_cons.1 h
      rw [List.mapM_cons, hfirst, ih hrest]
      rfl

theorem mapM_eq_none {f : α → Option β} {values : List α} {a : α} (ha : a ∈ values) (h : f a = none) :
    values.mapM f = none := by
  induction values with
  | nil => cases ha
  | cons first rest ih =>
      rw [List.mapM_cons]
      rcases List.mem_cons.1 ha with rfl | ha
      · rw [h]
        rfl
      · rw [ih ha]
        cases f first <;> rfl

section Containers

variable {write : α → Doc} {read : Doc → Option β} {g : α → β}

theorem list?_ofList {values : List α} (h : ∀ a ∈ values, read (write a) = some (g a)) :
    (ofList write values).list? read = some (values.map g) := by
  rw [ofList, list?, List.mapM_map]
  exact mapM_eq_some h

theorem list?_ofList_eq_none {values : List α} {a : α} (ha : a ∈ values) (h : read (write a) = none) :
    (ofList write values).list? read = none := by
  rw [ofList, list?, List.mapM_map]
  exact mapM_eq_none ha h

theorem table?_ofTable_eq (write : α → Doc) (read : Doc → Option β) (table : Table String α) :
    (ofTable write table).table? read =
      (table.entries.mapM fun entry => (read (write entry.2)).map (entry.1, ·)).map .ofList := by
  rw [ofTable, table?, List.mapM_map]
  have hentry : ∀ entry : String × α, ((read (write entry.2)).bind fun value => some (entry.1, value)) =
      (read (write entry.2)).map (entry.1, ·) := by
    intro entry
    cases read (write entry.2) <;> rfl
  simp only [Function.comp_def, Option.bind_eq_bind, Option.bind_some, Option.pure_def, hentry]
  cases table.entries.mapM fun entry => (read (write entry.2)).map (entry.1, ·) <;> rfl

theorem table?_ofTable {read : Doc → Option α} {table : Table String α}
    (h : ∀ a ∈ table.values, read (write a) = some a) :
    (ofTable write table).table? read = some table := by
  have hentries : ∀ entry ∈ table.entries, (read (write entry.2)).map (entry.1, ·) = some (id entry) := by
    intro entry hentry
    rw [h entry.2 (List.mem_map_of_mem hentry)]
    rfl
  rw [table?_ofTable_eq, mapM_eq_some hentries, List.map_id, Option.map_some, Table.ofList_entries]

theorem table?_ofTable_eq_none {table : Table String α} {a : α} (ha : a ∈ table.values)
    (h : read (write a) = none) : (ofTable write table).table? read = none := by
  obtain ⟨entry, hentry, rfl⟩ := List.mem_map.1 ha
  have hnone : (table.entries.mapM fun entry => (read (write entry.2)).map (entry.1, ·)) = none :=
    mapM_eq_none hentry (Option.map_eq_none_iff.2 h)
  rw [table?_ofTable_eq, hnone]
  rfl

end Containers

/-! ## Records -/

section Records

variable {members : List (String × Doc)} {name : String}

theorem record?_ofRecord (fields : List Field) (members : List (String × Doc)) :
    (ofRecord members).record? fields = fields.mapM (fieldValue members) := by
  have hmembers : members.mapM (fun member => some (id member)) = some (members.map id) :=
    mapM_eq_some fun _ _ => rfl
  rw [List.map_id] at hmembers
  rw [ofRecord, record?, List.mapM_map]
  exact congrArg (· >>= fun members => fields.mapM (fieldValue members)) hmembers

theorem valuesOf_of_notMem (h : name ∉ members.map Prod.fst) : valuesOf members name = [] := by
  have hnone : members.filter (fun member => member.1 = name) = [] := by
    refine List.filter_eq_nil_iff.2 fun member hmember hname => h ?_
    exact of_decide_eq_true hname ▸ List.mem_map_of_mem hmember
  rw [valuesOf, hnone, List.map_nil]

theorem valuesOf_of_mem {value : Doc} (hnodup : (members.map Prod.fst).Nodup) (h : (name, value) ∈ members) :
    valuesOf members name = [value] := by
  induction members with
  | nil => cases h
  | cons member rest ih =>
      obtain ⟨hnew, hrest⟩ := List.nodup_cons.1 hnodup
      rcases List.mem_cons.1 h with rfl | h
      · have hlater : (rest.filter fun member => member.1 = name).map (·.2) = [] := valuesOf_of_notMem hnew
        rw [valuesOf, List.filter_cons_of_pos (by simp), List.map_cons, hlater]
      · have hne : ¬ member.1 = name := fun heq => hnew (heq ▸ List.mem_map_of_mem h)
        rw [valuesOf, List.filter_cons_of_neg (by simpa using hne)]
        exact ih hrest h

/-- Fields are read in their order, whichever of the members they are. -/
theorem mapM_fieldValue (hnodup : (members.map Prod.fst).Nodup) {fields : List Field}
    {chosen : List (String × Doc)} (hchosen : chosen ⊆ members)
    (hnames : fields.map (·.name) = chosen.map Prod.fst) :
    fields.mapM (fieldValue members) = some (chosen.map fun member => some member.2) := by
  induction fields generalizing chosen with
  | nil =>
      obtain rfl : chosen = [] := List.map_eq_nil_iff.1 hnames.symm
      rfl
  | cons field fields ih =>
      cases chosen with
      | nil => cases hnames
      | cons member chosen =>
          obtain ⟨(hname : field.name = member.1), hnames⟩ := List.cons.inj hnames
          obtain ⟨hmember, hchosen⟩ := List.cons_subset.1 hchosen
          have hvalue : fieldValue members field = some (some member.2) := by
            rw [fieldValue, hname, valuesOf_of_mem hnodup hmember]
          rw [List.mapM_cons, hvalue, ih hchosen hnames]
          rfl

theorem record?_of_names {fields : List Field} (hnodup : (fields.map (·.name)).Nodup)
    (hnames : fields.map (·.name) = members.map Prod.fst) :
    (ofRecord members).record? fields = some (members.map fun member => some member.2) := by
  rw [record?_ofRecord]
  exact mapM_fieldValue (hnames ▸ hnodup) (List.Subset.refl members) hnames

end Records

end Tandem.Json.Doc
