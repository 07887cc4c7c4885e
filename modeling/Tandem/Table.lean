/-!
# Ordered tables

A finite map that keeps its entries in strictly ascending key order, so that equal maps have equal
entries and every walk over a table visits its keys in one fixed order. For `String` keys the order is
that of code points, which is also the order of the keys' UTF-8 bytes.
-/

namespace Tandem

/-- A finite map from `κ` to `α`, listed in ascending key order. -/
structure Table (κ α : Type) [Ord κ] where
  entries : List (κ × α)
  ascending : entries.Pairwise fun a b => compare a.1 b.1 = .lt

namespace Table

variable {κ α : Type} [Ord κ]

def insertEntry (key : κ) (value : α) : List (κ × α) → List (κ × α)
  | [] => [(key, value)]
  | entry :: rest =>
      match compare key entry.1 with
      | .lt => (key, value) :: entry :: rest
      | .eq => (key, value) :: rest
      | .gt => entry :: insertEntry key value rest

theorem mem_insertEntry_key {key : κ} {value : α} {entries : List (κ × α)} {e : κ × α}
    (h : e ∈ insertEntry key value entries) : e.1 = key ∨ e ∈ entries := by
  induction entries with
  | nil =>
      simp [insertEntry] at h
      exact Or.inl (by simp [h])
  | cons entry rest ih =>
      unfold insertEntry at h
      split at h
      · rcases List.mem_cons.1 h with rfl | h
        · exact Or.inl rfl
        · exact Or.inr h
      · rcases List.mem_cons.1 h with rfl | h
        · exact Or.inl rfl
        · exact Or.inr (List.mem_cons_of_mem _ h)
      · rcases List.mem_cons.1 h with rfl | h
        · exact Or.inr List.mem_cons_self
        · rcases ih h with h | h
          · exact Or.inl h
          · exact Or.inr (List.mem_cons_of_mem _ h)

theorem pairwise_insertEntry [Std.TransOrd κ] [Std.LawfulEqOrd κ] (key : κ) (value : α)
    {entries : List (κ × α)} (h : entries.Pairwise fun a b => compare a.1 b.1 = .lt) :
    (insertEntry key value entries).Pairwise fun a b => compare a.1 b.1 = .lt := by
  induction entries with
  | nil => simp [insertEntry]
  | cons entry rest ih =>
      obtain ⟨hfirst, hrest⟩ := List.pairwise_cons.1 h
      unfold insertEntry
      split
      next hlt =>
        refine List.pairwise_cons.2 ⟨fun e he => ?_, h⟩
        rcases List.mem_cons.1 he with rfl | he
        · exact hlt
        · exact Std.TransCmp.lt_trans hlt (hfirst e he)
      next heq =>
        have hkey : key = entry.1 := Std.LawfulEqOrd.eq_of_compare heq
        refine List.pairwise_cons.2 ⟨fun e he => ?_, hrest⟩
        simpa [hkey] using hfirst e he
      next hgt =>
        refine List.pairwise_cons.2 ⟨fun e he => ?_, ih hrest⟩
        rcases mem_insertEntry_key he with hkey | he
        · rw [hkey]
          exact Std.OrientedCmp.gt_iff_lt.1 hgt
        · exact hfirst e he

def empty : Table κ α := ⟨[], .nil⟩

instance : EmptyCollection (Table κ α) := ⟨empty⟩

instance : Inhabited (Table κ α) := ⟨empty⟩

instance [BEq κ] [BEq α] : BEq (Table κ α) := ⟨fun a b => a.entries == b.entries⟩

def get? (table : Table κ α) (key : κ) : Option α :=
  (table.entries.find? fun entry => compare key entry.1 == .eq).map (·.2)

def contains (table : Table κ α) (key : κ) : Bool := (table.get? key).isSome

/-- Set the value of `key`; the last value set is the one that stays. -/
def insert [Std.TransOrd κ] [Std.LawfulEqOrd κ] (table : Table κ α) (key : κ) (value : α) :
    Table κ α :=
  ⟨insertEntry key value table.entries, pairwise_insertEntry key value table.ascending⟩

def erase (table : Table κ α) (key : κ) : Table κ α where
  entries := table.entries.filter fun entry => compare key entry.1 != .eq
  ascending := table.ascending.filter _

/-- Entries inserted one after the other, so of equal keys the last wins. -/
def ofList [Std.TransOrd κ] [Std.LawfulEqOrd κ] (entries : List (κ × α)) : Table κ α :=
  entries.foldl (fun table entry => table.insert entry.1 entry.2) empty

theorem find?_insertEntry_self [Std.ReflOrd κ] (key : κ) (value : α) (entries : List (κ × α)) :
    (insertEntry key value entries).find? (fun entry => compare key entry.1 == .eq) =
      some (key, value) := by
  induction entries with
  | nil => simp [insertEntry]
  | cons entry rest ih =>
      unfold insertEntry
      split
      next => simp
      next => simp
      next hgt => simp [hgt, ih]

theorem find?_insertEntry_of_ne [Std.TransOrd κ] {key other : κ} (h : compare other key ≠ .eq)
    (value : α) (entries : List (κ × α)) :
    (insertEntry key value entries).find? (fun entry => compare other entry.1 == .eq) =
      entries.find? fun entry => compare other entry.1 == .eq := by
  induction entries with
  | nil => simp [insertEntry, h]
  | cons entry rest ih =>
      unfold insertEntry
      split
      next => simp [List.find?_cons, h]
      next heq =>
        have hentry : compare other entry.1 ≠ .eq := by
          rwa [← Std.TransCmp.congr_right heq]
        simp [h, hentry]
      next => simp [List.find?_cons, ih]

@[simp]
theorem get?_insert_self [Std.TransOrd κ] [Std.LawfulEqOrd κ] (table : Table κ α) (key : κ)
    (value : α) : (table.insert key value).get? key = some value := by
  simp [get?, insert, find?_insertEntry_self]

theorem get?_insert_of_ne [Std.TransOrd κ] [Std.LawfulEqOrd κ] (table : Table κ α) {key other : κ}
    (h : compare other key ≠ .eq) (value : α) :
    (table.insert key value).get? other = table.get? other := by
  simp [get?, insert, find?_insertEntry_of_ne h]

def keys (table : Table κ α) : List κ := table.entries.map (·.1)

def values (table : Table κ α) : List α := table.entries.map (·.2)

def size (table : Table κ α) : Nat := table.entries.length

def isEmpty (table : Table κ α) : Bool := table.entries.isEmpty

end Table

end Tandem
