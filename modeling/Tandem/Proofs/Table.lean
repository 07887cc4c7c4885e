import Mathlib.Data.List.Nodup
import Tandem.Proofs.Lists
import Tandem.Table

/-!
# Tables are determined by what is found in them

No key has two entries, so an entry is what a look-up of its key finds, and two tables in which every
look-up finds the same are one table. After many insertions, a look-up finds what was inserted under its
key, or else what was there before.
-/

namespace Tandem.Table

variable {κ α : Type} [Ord κ] [Std.LawfulEqOrd κ]

theorem nodup_keys (table : Table κ α) : table.keys.Nodup := by
  unfold keys List.Nodup
  rw [List.pairwise_map]
  refine table.ascending.imp ?_
  intro a b hlt heq
  rw [heq, Std.ReflOrd.compare_self] at hlt
  cases hlt

theorem mem_entries_iff {table : Table κ α} {key : κ} {value : α} :
    (key, value) ∈ table.entries ↔ table.get? key = some value := by
  unfold get?
  constructor
  · intro hmem
    cases hfind : table.entries.find? fun entry => compare key entry.1 == .eq with
    | none =>
        have hno := List.find?_eq_none.1 hfind _ hmem
        simp at hno
    | some entry =>
        have hkey : key = entry.1 :=
          Std.LawfulEqOrd.eq_of_compare (by simpa using List.find?_some hfind)
        have hentry := List.mem_of_find?_eq_some hfind
        have hsame : entry = (key, value) :=
          List.inj_on_of_nodup_map table.nodup_keys hentry hmem hkey.symm
        rw [hsame]
        rfl
  · intro hget
    obtain ⟨entry, hfind, rfl⟩ := Option.map_eq_some_iff.1 hget
    have hkey : key = entry.1 :=
      Std.LawfulEqOrd.eq_of_compare (by simpa using List.find?_some hfind)
    rw [hkey]
    exact List.mem_of_find?_eq_some hfind

theorem mem_keys_iff {table : Table κ α} {key : κ} :
    key ∈ table.keys ↔ ∃ value, table.get? key = some value := by
  simp only [keys, List.mem_map, Prod.exists, exists_and_right, exists_eq_right, mem_entries_iff]

theorem mem_values_iff {table : Table κ α} {value : α} :
    value ∈ table.values ↔ ∃ key, table.get? key = some value := by
  simp only [values, List.mem_map, Prod.exists, exists_eq_right, mem_entries_iff]

theorem contains_eq_true_iff {table : Table κ α} {key : κ} :
    table.contains key = true ↔ key ∈ table.keys := by
  rw [contains, Option.isSome_iff_exists, mem_keys_iff]

theorem get?_erase [DecidableEq κ] (table : Table κ α) (key other : κ) :
    (table.erase key).get? other = if other = key then none else table.get? other := by
  have hkept : ∀ value, (table.erase key).get? other = some value ↔
      table.get? other = some value ∧ key ≠ other := by
    intro value
    rw [← mem_entries_iff, erase, List.mem_filter, mem_entries_iff, bne_iff_ne, ne_eq, ne_eq,
      Std.LawfulEqOrd.compare_eq_iff_eq]
  refine Option.ext fun value => (hkept value).trans ?_
  split
  next heq => simp [heq]
  next hne => exact and_iff_left (Ne.symm hne)

theorem map_entries {β : Type} (table : Table κ α) (f : κ → Option α → β) :
    table.entries.map (fun entry => f entry.1 (some entry.2)) =
      table.keys.map fun key => f key (table.get? key) := by
  unfold keys
  rw [List.map_map]
  refine List.map_congr_left fun entry hentry => ?_
  rw [Function.comp_apply, mem_entries_iff.1 hentry]

variable [Std.TransOrd κ]

theorem ext_get? {first second : Table κ α} (h : ∀ key, first.get? key = second.get? key) :
    first = second := by
  have hmem : ∀ entry, entry ∈ first.entries ↔ entry ∈ second.entries := by
    intro entry
    rw [mem_entries_iff, mem_entries_iff, h]
  have hperm : first.entries.Perm second.entries :=
    (List.perm_ext_iff_of_nodup (List.Nodup.of_map _ first.nodup_keys)
      (List.Nodup.of_map _ second.nodup_keys)).2 hmem
  have hentries : first.entries = second.entries := by
    refine hperm.eq_of_pairwise ?_ first.ascending second.ascending
    intro a b _ _ hab hba
    rw [Std.OrientedCmp.gt_of_lt hab] at hba
    cases hba
  obtain ⟨entries, ascending⟩ := first
  obtain ⟨entries', ascending'⟩ := second
  subst hentries
  rfl

theorem get?_insert [DecidableEq κ] (table : Table κ α) (key other : κ) (value : α) :
    (table.insert key value).get? other =
      if other = key then some value else table.get? other := by
  split
  next heq => rw [heq, get?_insert_self]
  next hne =>
    exact get?_insert_of_ne table (fun heq => hne (Std.LawfulEqOrd.eq_of_compare heq)) value

/-! ## Many insertions -/

variable [DecidableEq κ] {β : Type}

def insertAll (table : Table κ α) (entries : List (κ × α)) : Table κ α :=
  entries.foldl (fun table entry => table.insert entry.1 entry.2) table

theorem get?_insertAll_of_notMem (table : Table κ α) {entries : List (κ × α)} {key : κ}
    (h : key ∉ entries.map Prod.fst) : (table.insertAll entries).get? key = table.get? key := by
  induction entries generalizing table with
  | nil => rfl
  | cons entry rest ih =>
      rw [insertAll, List.foldl_cons, ← insertAll, ih _ (List.not_mem_of_not_mem_cons h), get?_insert,
        if_neg (List.ne_of_not_mem_cons h)]

theorem get?_insertAll_of_mem (table : Table κ α) {entries : List (κ × α)}
    (hnodup : (entries.map Prod.fst).Nodup) {key : κ} {value : α} (h : (key, value) ∈ entries) :
    (table.insertAll entries).get? key = some value := by
  induction entries generalizing table with
  | nil => cases h
  | cons entry rest ih =>
      obtain ⟨hnew, hrest⟩ := List.nodup_cons.1 hnodup
      rw [insertAll, List.foldl_cons, ← insertAll]
      rcases List.mem_cons.1 h with rfl | h
      · rw [get?_insertAll_of_notMem _ hnew, get?_insert_self]
      · exact ih _ hrest h

/-- A table is what its entries make, inserted one after the other. -/
theorem ofList_entries (table : Table κ α) : ofList table.entries = table := by
  refine ext_get? fun key => ?_
  show (insertAll empty table.entries).get? key = table.get? key
  cases hget : table.get? key with
  | none =>
      refine get?_insertAll_of_notMem _ fun hmem => ?_
      obtain ⟨value, hvalue⟩ := mem_keys_iff.1 hmem
      cases hget.symm.trans hvalue
  | some value => exact get?_insertAll_of_mem _ table.nodup_keys (mem_entries_iff.2 hget)

section Translated

variable {related : α → β → Prop} {source : Table κ α} {entries : List (κ × β)}
  (h : List.Forall₂ (fun entry found => entry.1 = found.1 ∧ related entry.2 found.2) source.entries
    entries)

include h

omit [Std.LawfulEqOrd κ] [Std.TransOrd κ] [DecidableEq κ] in
theorem map_fst_translated : entries.map Prod.fst = source.keys :=
  (map_eq_of_forall₂ (fun _ _ hsame => hsame.1) h).symm

theorem exists_get?_insertAll (table : Table κ β) {key : κ} {value : α}
    (hget : source.get? key = some value) :
    ∃ found, (table.insertAll entries).get? key = some found ∧ related value found := by
  obtain ⟨i, hi⟩ := List.mem_iff_getElem?.1 (mem_entries_iff.2 hget)
  obtain ⟨⟨key', found⟩, hfound, rfl, hrelated⟩ := exists_of_forall₂ h hi
  have hnodup : (entries.map Prod.fst).Nodup := map_fst_translated h ▸ source.nodup_keys
  exact ⟨found, get?_insertAll_of_mem table hnodup (List.mem_of_getElem? hfound), hrelated⟩

theorem get?_insertAll_of_none (table : Table κ β) {key : κ} (hget : source.get? key = none) :
    (table.insertAll entries).get? key = table.get? key := by
  refine get?_insertAll_of_notMem table fun hmem => ?_
  obtain ⟨value, hvalue⟩ := mem_keys_iff.1 (map_fst_translated h ▸ hmem)
  rw [hget] at hvalue
  cases hvalue

end Translated

end Tandem.Table
