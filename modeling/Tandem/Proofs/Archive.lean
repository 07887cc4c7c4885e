import Mathlib.Data.List.Induction
import Mathlib.Data.List.Nodup
import Tandem.Archive

/-!
# What archives hold

Records come in one after the other. A series grows by the states of its own records, in their order. Names
are listed as they first come up, and of the times each that lies after all listed before it.
-/

namespace Tandem.Archive

variable {archive : Archive} {name : String} {past : List State} {record : Record} {records : List Record}

theorem addState_of_fresh {state : State} {series : List (String × List State)}
    (h : name ∉ series.map (·.1)) : addState name state series = series ++ [(name, [state])] := by
  induction series with
  | nil => rfl
  | cons entry rest ih =>
      rw [List.map_cons, List.mem_cons, not_or] at h
      rw [addState, if_neg (Ne.symm h.1), ih h.2, List.cons_append]

theorem addState_of_getElem? {state : State} {series : List (String × List State)} {index : Nat}
    (hnodup : (series.map (·.1)).Nodup) (h : series[index]? = some (name, past)) :
    addState name state series = series.set index (name, past ++ [state]) := by
  induction series generalizing index with
  | nil => cases h
  | cons entry rest ih =>
      rw [List.map_cons, List.nodup_cons] at hnodup
      obtain ⟨hfirst, hrest⟩ := hnodup
      cases index with
      | zero =>
          obtain rfl : entry = (name, past) := Option.some.inj h
          rw [addState, if_pos rfl, List.set_cons_zero]
      | succ index =>
          rw [List.getElem?_cons_succ] at h
          have hlater : name ∈ rest.map (·.1) := List.mem_map_of_mem (List.mem_of_getElem? h)
          have hother : entry.1 ≠ name := fun hsame => hfirst (hsame ▸ hlater)
          rw [addState, if_neg hother, ih hrest h, List.set_cons_succ]

theorem addState_concat_of_fresh {state : State} {series : List (String × List State)}
    (h : name ∉ series.map (·.1)) :
    addState name state (series ++ [(name, [])]) = addState name state series := by
  induction series with
  | nil => simp [addState]
  | cons entry rest ih =>
      rw [List.map_cons, List.mem_cons, not_or] at h
      rw [List.cons_append, addState, addState, if_neg (Ne.symm h.1), if_neg (Ne.symm h.1), ih h.2]

theorem map_fst_addState {state : State} {series : List (String × List State)}
    (h : name ∈ series.map (·.1)) : (addState name state series).map (·.1) = series.map (·.1) := by
  induction series with
  | nil => cases h
  | cons entry rest ih =>
      unfold addState
      split
      next => rfl
      next hother =>
        have hlater : name ∈ rest.map (·.1) :=
          (List.mem_cons.1 (List.map_cons ▸ h)).resolve_left (Ne.symm hother)
        rw [List.map_cons, ih hlater, List.map_cons]

theorem names_append (h : record.series ∈ archive.names) : (archive.append record).names = archive.names :=
  map_fst_addState h

theorem values?_of_mem (hnodup : archive.names.Nodup) (h : (name, past) ∈ archive.series) :
    archive.values? name = some past := by
  unfold values?
  cases hfind : archive.series.find? fun entry => entry.1 = name with
  | none =>
      have hno := List.find?_eq_none.1 hfind _ h
      simp at hno
  | some entry =>
      have hname : entry.1 = name := by simpa using List.find?_some hfind
      rw [List.inj_on_of_nodup_map hnodup (List.mem_of_find?_eq_some hfind) h hname]
      rfl

theorem values?_of_notMem (h : name ∉ archive.names) : archive.values? name = none := by
  have hnone : archive.series.find? (fun entry => entry.1 = name) = none := by
    refine List.find?_eq_none.2 fun entry hentry hname => h ?_
    exact of_decide_eq_true hname ▸ List.mem_map_of_mem hentry
  rw [values?, hnone, Option.map_none]

theorem names_append_eq (archive : Archive) (record : Record) :
    (archive.append record).names =
      if record.series ∈ archive.names then archive.names else archive.names ++ [record.series] := by
  split
  next hknown => exact names_append hknown
  next hnew =>
    have hseries : (archive.append record).series = archive.series ++ [(record.series, [record.state])] :=
      addState_of_fresh hnew
    rw [names, hseries, List.map_append]
    rfl

theorem values?_append_eq (archive : Archive) (record : Record) (name : String) :
    (archive.append record).values? name =
      if record.series = name then some ((archive.values? name).getD [] ++ [record.state])
      else archive.values? name := by
  obtain ⟨series, times⟩ := archive
  unfold values? append
  dsimp only
  induction series with
  | nil => by_cases hseries : record.series = name <;> simp [addState, hseries]
  | cons entry rest ih =>
      unfold addState
      by_cases hsame : entry.1 = record.series <;> by_cases hentry : entry.1 = name
      · simp [hentry, ← hsame]
      · simp [hsame ▸ hentry, hsame]
      · have hother : name ≠ record.series := hentry ▸ hsame
        simp [hentry, hother, hother.symm]
      · simpa [hentry, hsame] using ih

/-! ## Many records -/

theorem names_foldl_append (h : ∀ record ∈ records, record.series ∈ archive.names) :
    (records.foldl append archive).names = archive.names := by
  induction records generalizing archive with
  | nil => rfl
  | cons record rest ih =>
      obtain ⟨hrecord, hrest⟩ := List.forall_mem_cons.1 h
      have hsame := names_append hrecord
      rw [List.foldl_cons, ih (hsame.symm ▸ hrest), hsame]

theorem filter_series_eq_nil_iff :
    records.filter (fun record => record.series = name) = [] ↔ name ∉ records.map (·.series) := by
  simp only [List.filter_eq_nil_iff, decide_eq_true_eq, List.mem_map, not_exists, not_and]

/-- Whether a series has begun or not, it grows by the states of its own records. -/
theorem values?_foldl_append_eq (records : List Record) (archive : Archive) (name : String) :
    (records.foldl append archive).values? name =
      if name ∈ records.map (·.series) then
        some ((archive.values? name).getD [] ++
          (records.filter fun record => record.series = name).map (·.state))
      else archive.values? name := by
  induction records generalizing archive with
  | nil => simp
  | cons record rest ih =>
      rw [List.foldl_cons, ih, values?_append_eq]
      by_cases hseries : record.series = name
      · by_cases hlater : name ∈ rest.map (·.series)
        · simp [hseries, hlater]
        · simp [hseries, hlater, filter_series_eq_nil_iff.2 hlater]
      · simp [hseries, Ne.symm hseries]

theorem values?_foldl_append (h : archive.values? name = some past) (records : List Record) :
    (records.foldl append archive).values? name =
      some (past ++ (records.filter fun record => record.series = name).map (·.state)) := by
  rw [values?_foldl_append_eq, h]
  split
  next => rfl
  next hnever => rw [filter_series_eq_nil_iff.2 hnever, List.map_nil, List.append_nil]

/-- Names are listed in the order in which they first came up. -/
theorem names_foldl_append_eq (records : List Record) :
    (records.foldl append .empty).names = (records.map (·.series)).eraseDups := by
  induction records using List.reverseRecOn with
  | nil => rfl
  | append_singleton earlier record ih =>
      rw [List.foldl_append, List.foldl_cons, List.foldl_nil, names_append_eq, ih, List.map_append,
        List.map_singleton, List.eraseDups_append, List.removeAll]
      simp only [List.mem_eraseDups]
      by_cases hknown : record.series ∈ earlier.map (·.series)
      · rw [if_pos hknown, List.filter_cons_of_neg (by simpa using hknown)]
        exact (List.append_nil _).symm
      · rw [if_neg hknown, List.filter_cons_of_pos (by simpa using hknown)]
        rfl

/-! ### Times -/

/-- Of the times that come after `last`, each that lies after the last one kept. -/
def risingAfter (last : Float) : List Float → List Float
  | [] => []
  | time :: rest => if last < time then time :: risingAfter time rest else risingAfter last rest

/-- The first time, and then each that lies after the last one kept. -/
def rising : List Float → List Float
  | [] => []
  | first :: rest => first :: risingAfter first rest

theorem addTime_concat (time last : Float) (kept : List Float) :
    addTime time (kept ++ [last]) = if last < time then kept ++ [last] ++ [time] else kept ++ [last] := by
  rw [addTime, List.getLast?_concat]

theorem times_foldl_append_after {kept : List Float} {last : Float} (h : archive.times = kept ++ [last])
    (records : List Record) :
    (records.foldl append archive).times = kept ++ last :: risingAfter last (records.map (·.time)) := by
  induction records generalizing archive kept last with
  | nil => exact h
  | cons record rest ih =>
      have htimes : (archive.append record).times = addTime record.time (kept ++ [last]) := by
        rw [← h]
        rfl
      rw [addTime_concat] at htimes
      rw [List.foldl_cons, List.map_cons, risingAfter]
      split
      next hlater =>
        rw [if_pos hlater] at htimes
        rw [ih htimes, List.append_assoc, List.singleton_append]
      next hstill =>
        rw [if_neg hstill] at htimes
        exact ih htimes

/-- The first time is listed, and then each that lies after the last one listed. -/
theorem times_foldl_append (records : List Record) :
    (records.foldl append .empty).times = rising (records.map (·.time)) := by
  cases records with
  | nil => rfl
  | cons record rest =>
      have htimes : (empty.append record).times = [] ++ [record.time] := rfl
      exact times_foldl_append_after htimes rest

example : rising [1, 0 / 0, 0.5, 2] = [1, 2] := by decide +kernel

/-! ### One record of each series -/

theorem series_foldl_append_of_fresh (hnodup : (records.map (·.series)).Nodup)
    (hfresh : ∀ record ∈ records, record.series ∉ archive.names) :
    (records.foldl append archive).series =
      archive.series ++ records.map fun record => (record.series, [record.state]) := by
  induction records generalizing archive with
  | nil => simp
  | cons record rest ih =>
      obtain ⟨hrecord, hrest⟩ := List.forall_mem_cons.1 hfresh
      obtain ⟨hfirst, hlater⟩ := List.nodup_cons.1 (List.map_cons ▸ hnodup)
      have hseries : (archive.append record).series = archive.series ++ [(record.series, [record.state])] :=
        addState_of_fresh hrecord
      rw [List.foldl_cons, ih hlater, hseries, List.append_assoc, List.map_cons, List.singleton_append]
      intro other hother
      rw [names, hseries, List.map_append, List.mem_append, not_or]
      refine ⟨hrest other hother, fun hmem => hfirst ?_⟩
      have hsame : other.series = record.series := List.mem_singleton.1 hmem
      exact hsame ▸ List.mem_map_of_mem hother

theorem values?_of_one_each (hnodup : (records.map (·.series)).Nodup) (h : record ∈ records) :
    (records.foldl append .empty).values? record.series = some [record.state] := by
  rw [values?, series_foldl_append_of_fresh hnodup fun _ _ => List.not_mem_nil]
  change ((records.map fun record => (record.series, [record.state])).find? _).map _ = _
  induction records with
  | nil => cases h
  | cons first rest ih =>
      obtain ⟨hfirst, hlater⟩ := List.nodup_cons.1 (List.map_cons ▸ hnodup)
      rcases List.mem_cons.1 h with rfl | hmem
      · simp
      · have hother : first.series ≠ record.series := fun hsame =>
          hfirst (hsame ▸ List.mem_map_of_mem hmem)
        simpa [hother] using ih hlater hmem

end Tandem.Archive
