import Mathlib.Data.List.Nodup
import Tandem.Ledger
import Tandem.Proofs.Archive
import Tandem.Proofs.Lists
import Tandem.Proofs.Table

/-!
# Ledgers keep archives

The table of a ledger tells of each listed name where it is listed, and its series lies at the same place. So
taking in a record never fails, and it makes of the archive that a ledger keeps what the archive makes of it.
What a ledger shows depends only on the states of each name and on the times, in the order in which they come
in. States of different names that come in at one time may change places.
-/

namespace Tandem

namespace Ledger

variable {ledger : Ledger} {name : String} {index : Nat} {record : Record}

/-- The table, the names and the series of a ledger agree. -/
structure Sound (ledger : Ledger) : Prop where
  place_iff : ∀ name index, ledger.places.get? name = some index ↔ ledger.names[index]? = some name
  length_eq : ledger.names.length = ledger.series.length

theorem sound_empty : empty.Sound where
  place_iff := fun _ _ => ⟨nofun, nofun⟩
  length_eq := rfl

namespace Sound

theorem nodup_names (h : ledger.Sound) : ledger.names.Nodup := by
  refine List.nodup_iff_injective_getElem.2 fun i j (hij : ledger.names[i.val] = ledger.names[j.val]) => ?_
  have hi := (h.place_iff _ _).2 (List.getElem?_eq_getElem i.isLt)
  have hj := (h.place_iff _ _).2 (List.getElem?_eq_getElem j.isLt)
  rw [hij, hj] at hi
  exact Fin.ext (Option.some.inj hi).symm

theorem place_eq_none_iff (h : ledger.Sound) : ledger.places.get? name = none ↔ name ∉ ledger.names := by
  rw [List.mem_iff_getElem?, not_exists, Option.eq_none_iff_forall_ne_some]
  simp only [ne_eq, h.place_iff]

theorem names_archive (h : ledger.Sound) : ledger.archive.names = ledger.names :=
  List.map_fst_zip (Nat.le_of_eq h.length_eq)

theorem exists_series (h : ledger.Sound) (hname : ledger.names[index]? = some name) :
    ∃ states, ledger.series[index]? = some states := by
  have hlt : index < ledger.series.length := h.length_eq ▸ (List.getElem?_eq_some_iff.1 hname).1
  exact ⟨_, List.getElem?_eq_getElem hlt⟩

/-! ### What a ledger shows -/

theorem values?_eq (h : ledger.Sound) (name : String) :
    ledger.values? name = .ok (ledger.archive.values? name) := by
  unfold Ledger.values?
  cases hplace : ledger.places.get? name with
  | none =>
      have hnew : name ∉ ledger.archive.names := h.names_archive.symm ▸ h.place_eq_none_iff.1 hplace
      rw [Archive.values?_of_notMem hnew]
  | some index =>
      have hname := (h.place_iff name index).1 hplace
      obtain ⟨states, hstates⟩ := h.exists_series hname
      have hmem : (name, states) ∈ ledger.archive.series :=
        List.mem_of_getElem? (List.getElem?_zip_eq_some.2 ⟨hname, hstates⟩)
      rw [Archive.values?_of_mem (h.names_archive.symm ▸ h.nodup_names) hmem]
      simp only [hstates]

/-! ### Taking in a record -/

theorem sound_placed (h : ledger.Sound) (hnew : name ∉ ledger.names) :
    Sound { ledger with
      places := ledger.places.insert name ledger.series.length
      names := ledger.names ++ [name]
      series := ledger.series ++ [[]] } where
  place_iff := fun other index => by
    dsimp only
    rw [Table.get?_insert, ← h.length_eq, List.getElem?_append]
    by_cases hindex : index < ledger.names.length
    · rw [if_pos hindex, ← h.place_iff]
      split
      next hsame =>
        have hnone := h.place_eq_none_iff.2 hnew
        rw [hsame, hnone]
        exact iff_of_false (fun hlength => Nat.ne_of_gt hindex (Option.some.inj hlength)) nofun
      next => rfl
    · rw [if_neg hindex, List.getElem?_singleton]
      split
      next hsame => grind
      next hother => grind [h.place_iff]
  length_eq := by simp [h.length_eq]

theorem exists_place (h : ledger.Sound) (name : String) :
    ∃ index placed, ledger.place name = (index, placed) ∧ placed.Sound ∧
      placed.names[index]? = some name ∧ placed.times = ledger.times ∧
      ∀ state, Archive.addState name state placed.archive.series =
        Archive.addState name state ledger.archive.series := by
  unfold place
  cases hplace : ledger.places.get? name with
  | some index => exact ⟨index, ledger, rfl, h, (h.place_iff name index).1 hplace, rfl, fun _ => rfl⟩
  | none =>
      have hnew := h.place_eq_none_iff.1 hplace
      refine ⟨_, _, rfl, h.sound_placed hnew, ?_, rfl, fun state => ?_⟩
      · rw [← h.length_eq, List.getElem?_concat_length]
      · have hseries : (ledger.names ++ [name]).zip (ledger.series ++ [[]]) =
            ledger.names.zip ledger.series ++ [(name, [])] := List.zip_append h.length_eq
        have hfresh : name ∉ ledger.archive.names := by
          rw [h.names_archive]
          exact hnew
        rw [archive, archive, hseries]
        exact Archive.addState_concat_of_fresh hfresh

theorem exists_addAt (h : ledger.Sound) (hname : ledger.names[index]? = some name) (state : State) :
    ∃ next, ledger.addAt index state = .ok next ∧ next.Sound ∧ next.times = ledger.times ∧
      next.archive.series = Archive.addState name state ledger.archive.series := by
  obtain ⟨states, hstates⟩ := h.exists_series hname
  have hentry : ledger.archive.series[index]? = some (name, states) :=
    List.getElem?_zip_eq_some.2 ⟨hname, hstates⟩
  refine ⟨{ ledger with series := ledger.series.set index (states ++ [state]) }, by simp only [addAt, hstates],
    ⟨h.place_iff, by rw [List.length_set, h.length_eq]⟩, rfl, ?_⟩
  have hnodup : ledger.archive.names.Nodup := h.names_archive.symm ▸ h.nodup_names
  rw [Archive.addState_of_getElem? hnodup hentry]
  exact zip_set_right hname _

/-- A record is always taken in, and the archive that the ledger keeps takes it in. -/
theorem exists_append (h : ledger.Sound) (record : Record) :
    ∃ next, ledger.append record = .ok next ∧ next.Sound ∧ next.archive = ledger.archive.append record := by
  obtain ⟨index, placed, hplace, hplaced, hname, htimes, hseries⟩ := h.exists_place record.series
  obtain ⟨next, hadd, hnext, htimes', hseries'⟩ := hplaced.exists_addAt hname record.state
  refine ⟨{ next with times := Archive.addTime record.time next.times }, ?_,
    ⟨hnext.place_iff, hnext.length_eq⟩, ?_⟩
  · rw [append, hplace]
    dsimp only
    rw [hadd]
    rfl
  · have hkept : next.archive.series = Archive.addState record.series record.state ledger.archive.series :=
      hseries'.trans (hseries record.state)
    have hlisted : next.times = ledger.times := htimes'.trans htimes
    exact congrArg₂ Archive.mk hkept (congrArg (Archive.addTime record.time) hlisted)

theorem exists_foldlM_append (h : ledger.Sound) (records : List Record) :
    ∃ last, records.foldlM append ledger = .ok last ∧ last.Sound ∧
      last.archive = records.foldl Archive.append ledger.archive := by
  induction records generalizing ledger with
  | nil => exact ⟨ledger, rfl, h, rfl⟩
  | cons record rest ih =>
      obtain ⟨next, happend, hnext, harchive⟩ := h.exists_append record
      obtain ⟨last, hrest, hlast, hkept⟩ := ih hnext
      refine ⟨last, ?_, hlast, ?_⟩
      · rw [List.foldlM_cons, happend]
        exact hrest
      · rw [hkept, harchive, List.foldl_cons]

end Sound

/-! ## What a ledger shows of what came in -/

/-- The ledger lists each name once, as they first came up. Of each it has all states that came in under it and
no others, oldest first, and of the times the first and each that lies after the last one it has. -/
structure Shows (ledger : Ledger) (records : List Record) : Prop where
  names_eq : ledger.names = (records.map (·.series)).eraseDups
  values?_eq : ∀ name, ledger.values? name = .ok
    (if name ∈ records.map (·.series) then
      some ((records.filter fun record => record.series = name).map (·.state))
    else none)
  times_eq : ledger.times = Archive.rising (records.map (·.time))

theorem exists_shows (records : List Record) :
    ∃ ledger, records.foldlM append empty = .ok ledger ∧ ledger.Shows records := by
  obtain ⟨ledger, happend, hsound, harchive⟩ := sound_empty.exists_foldlM_append records
  change ledger.archive = records.foldl Archive.append Archive.empty at harchive
  refine ⟨ledger, happend, ?_, fun name => ?_, ?_⟩
  · rw [← hsound.names_archive, harchive, Archive.names_foldl_append_eq]
  · rw [hsound.values?_eq, harchive, Archive.values?_foldl_append_eq]
    rfl
  · have htimes : ledger.archive.times = ledger.times := rfl
    rw [← htimes, harchive, Archive.times_foldl_append]

theorem Shows.alike {other : Ledger} {records records' : List Record} (h : ledger.Shows records)
    (h' : other.Shows records')
    (hstates : ∀ name, (records.filter fun record => record.series = name) =
      records'.filter fun record => record.series = name)
    (htimes : records.map (·.time) = records'.map (·.time)) :
    (∀ name, ledger.values? name = other.values? name) ∧ ledger.times = other.times ∧
      ∀ name, name ∈ ledger.names ↔ name ∈ other.names := by
  have hnames : ∀ name, name ∈ records.map (·.series) ↔ name ∈ records'.map (·.series) := by
    intro name
    rw [← not_iff_not, ← Archive.filter_series_eq_nil_iff, ← Archive.filter_series_eq_nil_iff, hstates]
  refine ⟨fun name => ?_, ?_, fun name => ?_⟩
  · rw [h.values?_eq, h'.values?_eq, hstates]
    simp only [hnames]
  · rw [h.times_eq, h'.times_eq, htimes]
  · rw [h.names_eq, h'.names_eq, List.mem_eraseDups, List.mem_eraseDups, hnames]

end Ledger

/-! ## Rounds -/

/-- What comes in at one time: states and their series, one after the other. -/
structure Round where
  time : Float
  entries : List (String × State)

namespace Round

def records (round : Round) : List Record :=
  round.entries.map fun entry => ⟨entry.1, round.time, entry.2⟩

/-- Rounds of one time with the same states of each series in the same order. States of different series may
come in between each other in any way. -/
structure Interleaved (first second : Round) : Prop where
  time_eq : first.time = second.time
  entries_eq : ∀ name, (first.entries.filter fun entry => entry.1 = name) =
    second.entries.filter fun entry => entry.1 = name

namespace Interleaved

variable {first second : Round}

theorem perm_entries (h : Interleaved first second) : first.entries.Perm second.entries := by
  -- entries are counted by equality, which the test for equal doubles is not
  let _ : BEq (String × State) := instBEqOfDecidableEq
  refine List.perm_iff_count.2 fun entry => ?_
  have hcount : ∀ entries : List (String × State),
      (entries.filter fun other => other.1 = entry.1).count entry = entries.count entry :=
    fun _ => List.count_filter (decide_eq_true rfl)
  rw [← hcount, h.entries_eq, hcount]

theorem times_eq (h : Interleaved first second) :
    first.records.map (·.time) = second.records.map (·.time) := by
  simp only [records, List.map_map, Function.comp_def, List.map_const', h.time_eq, h.perm_entries.length_eq]

theorem filter_eq (h : Interleaved first second) (name : String) :
    (first.records.filter fun record => record.series = name) =
      second.records.filter fun record => record.series = name := by
  simp only [records, List.filter_map, Function.comp_def, h.entries_eq, h.time_eq]

variable {rounds rounds' : List Round}

theorem times_flatMap (h : List.Forall₂ Interleaved rounds rounds') :
    (rounds.flatMap records).map (·.time) = (rounds'.flatMap records).map (·.time) := by
  induction h with
  | nil => rfl
  | cons hfirst _ ih =>
      rw [List.flatMap_cons, List.flatMap_cons, List.map_append, List.map_append, hfirst.times_eq, ih]

theorem filter_flatMap (h : List.Forall₂ Interleaved rounds rounds') (name : String) :
    ((rounds.flatMap records).filter fun record => record.series = name) =
      (rounds'.flatMap records).filter fun record => record.series = name := by
  induction h with
  | nil => rfl
  | cons hfirst _ ih =>
      rw [List.flatMap_cons, List.flatMap_cons, List.filter_append, List.filter_append, hfirst.filter_eq, ih]

end Interleaved

end Round

namespace Ledger

/-- A ledger takes all records and shows them as they came in. After rounds that differ only in how states
of different series came in between each other, ledgers show the same states of every name and the same
times. -/
theorem ledger_shows_what_came_in :
    (∀ records : List Record, ∃ ledger, records.foldlM append empty = .ok ledger ∧ ledger.Shows records) ∧
    ∀ rounds rounds' : List Round, List.Forall₂ Round.Interleaved rounds rounds' →
      ∃ ledger ledger', (rounds.flatMap Round.records).foldlM append empty = .ok ledger ∧
        (rounds'.flatMap Round.records).foldlM append empty = .ok ledger' ∧
        (∀ name, ledger.values? name = ledger'.values? name) ∧ ledger.times = ledger'.times ∧
        ∀ name, name ∈ ledger.names ↔ name ∈ ledger'.names := by
  refine ⟨exists_shows, fun rounds rounds' hrounds => ?_⟩
  obtain ⟨ledger, hrun, hshows⟩ := exists_shows (rounds.flatMap Round.records)
  obtain ⟨ledger', hrun', hshows'⟩ := exists_shows (rounds'.flatMap Round.records)
  exact ⟨ledger, ledger', hrun, hrun', hshows.alike hshows' (Round.Interleaved.filter_flatMap hrounds)
    (Round.Interleaved.times_flatMap hrounds)⟩

/-- Two rounds, the second one at an earlier time. -/
def forthRounds : List Round := [⟨2, [("a", [1]), ("b", [2]), ("a", [3])]⟩, ⟨1, [("b", [4])]⟩]

/-- The same rounds with the second series first. -/
def swappedRounds : List Round := [⟨2, [("b", [2]), ("a", [1]), ("a", [3])]⟩, ⟨1, [("b", [4])]⟩]

theorem forthRounds_and_swappedRounds_show_alike :
    List.Forall₂ Round.Interleaved forthRounds swappedRounds ∧
      ∃ ledger ledger', (forthRounds.flatMap Round.records).foldlM append empty = .ok ledger ∧
        (swappedRounds.flatMap Round.records).foldlM append empty = .ok ledger' ∧
        (∀ name, ledger.values? name = ledger'.values? name) ∧ ledger.times = ledger'.times ∧
        ∀ name, name ∈ ledger.names ↔ name ∈ ledger'.names := by
  have hfirst : Round.Interleaved ⟨2, [("a", [1]), ("b", [2]), ("a", [3])]⟩
      ⟨2, [("b", [2]), ("a", [1]), ("a", [3])]⟩ := by
    refine ⟨rfl, fun name => ?_⟩
    by_cases ha : "a" = name <;> by_cases hb : "b" = name
    · exact absurd (ha.trans hb.symm) (by decide)
    · simp [ha, hb]
    · simp [ha, hb]
    · simp [ha, hb]
  have hrounds : List.Forall₂ Round.Interleaved forthRounds swappedRounds :=
    .cons hfirst (.cons ⟨rfl, fun _ => rfl⟩ .nil)
  exact ⟨hrounds, ledger_shows_what_came_in.2 _ _ hrounds⟩

end Ledger

end Tandem
