import Tandem.Proofs.Compute
import Tandem.Proofs.Workers.Tasks
import Tandem.Proofs.Workers.Turn

/-!
# A crew that follows the visits of a compute phase

For every visit there are moves that come to the same: the whole turn of the partition, or none at all if
its group was halted before. So a crew can follow `Simulation.computeAll` to the end, and there all its
workers are done.
-/

namespace Tandem

namespace Range

def undone (range : Range) (done : List Nat) : List Nat := range.indices.filter (· ∉ done)

variable {range : Range} {done : List Nat} {i : Nat}

theorem mem_undone {j : Nat} : j ∈ range.undone done ↔ j ∈ range.indices ∧ j ∉ done := by
  simp [undone]

theorem undone_of_not_mem (hi : i ∉ range.indices) :
    range.undone (done ++ [i]) = range.undone done := by
  refine List.filter_congr fun j hj => ?_
  have hne : j ≠ i := fun heq => hi (heq ▸ hj)
  simp [hne]

theorem undone_eq_cons (hi : i ∈ range.indices) (hfresh : i ∉ done)
    (hbefore : ∀ j ∈ range.indices, j < i → j ∈ done) :
    range.undone done = i :: range.undone (done ++ [i]) := by
  obtain ⟨hstart, hstop⟩ := mem_indices.1 hi
  have hsplit : range.indices =
      List.range' range.start (i - range.start) ++
        i :: List.range' (i + 1) (range.stop - (i + 1)) := by
    have hlength : range.stop - range.start = (i - range.start) + (1 + (range.stop - (i + 1))) := by
      omega
    rw [indices, hlength, ← List.range'_append_1, ← List.range'_append_1]
    rw [show range.start + (i - range.start) = i by omega]
    rfl
  have hfirst : ∀ d, done ⊆ d →
      (List.range' range.start (i - range.start)).filter (· ∉ d) = [] := by
    intro d hd
    rw [List.filter_eq_nil_iff]
    intro j hj
    obtain ⟨hge, hlt⟩ := List.mem_range'_1.1 hj
    have hmem := hbefore j (mem_indices.2 ⟨hge, by omega⟩) (by omega)
    simpa using hd hmem
  have hlast : (List.range' (i + 1) (range.stop - (i + 1))).filter (· ∉ done ++ [i]) =
      (List.range' (i + 1) (range.stop - (i + 1))).filter (· ∉ done) := by
    refine List.filter_congr fun j hj => ?_
    have hne : j ≠ i := by
      have := (List.mem_range'_1.1 hj).1
      omega
    simp [hne]
  unfold undone
  rw [hsplit, List.filter_append, List.filter_append, hfirst _ (List.Subset.refl _),
    hfirst _ (List.subset_append_left _ _), List.nil_append, List.nil_append]
  rw [List.filter_cons_of_pos (by simpa using hfresh), List.filter_cons_of_neg (by simp), hlast]

end Range

namespace Progress

variable {ρ : Type}

/-- What a wire carries once the partitions in `done` were visited. -/
def wire (ranges : List Range) (done : List Nat) (progress : Progress ρ) (source reader : Nat) : Wire :=
  if reader ∈ done ∨ (progress.haltOf (groupOf ranges reader)).isSome then .closed
  else
    match progress.sentBy source with
    | some state => .full state
    | none => if (progress.haltOf (groupOf ranges source)).isSome then .cut else .empty

/-- The members of a group that its worker still has to work on. -/
def left (done : List Nat) (progress : Progress ρ) (g : Nat) (range : Range) : List Nat :=
  if (progress.haltOf g).isSome then [] else range.undone done

section Wires

variable {ranges : List Range} {done : List Nat} {progress next : Progress ρ} {i j r : Nat}

theorem wire_of_ok {state : State}
    (hsent : ∀ j, next.sentBy j = if j = i then some state else progress.sentBy j)
    (hhalted : ∀ k, next.haltOf k = progress.haltOf k) (hnone : progress.sentBy i = none)
    (hrunning : progress.haltOf (groupOf ranges i) = none) :
    (progress.wire ranges done j r).used
        (if r = i then .close else if j = i then .send state else .keep) =
      next.wire ranges (done ++ [i]) j r := by
  unfold wire
  simp only [hsent, hhalted, List.mem_append, List.mem_singleton]
  by_cases hr : r = i
  · simp [hr]
  · by_cases hj : j = i
    · subst hj
      by_cases hclosed : r ∈ done ∨ (progress.haltOf (groupOf ranges r)).isSome = true
      · simp [hr, hclosed]
      · simp [hr, hclosed, hnone, hrunning, Wire.used]
    · simp [hr, hj]

theorem wire_of_error {left : List Nat} {stop : Stop}
    (hsent : ∀ j, next.sentBy j = progress.sentBy j)
    (hhalted : ∀ k, next.haltOf k =
      if k = groupOf ranges i then some stop else progress.haltOf k)
    (hrunning : progress.haltOf (groupOf ranges i) = none)
    (hreader : r ∈ left ↔ groupOf ranges r = groupOf ranges i ∧ r ∉ done)
    (hsource : j ∈ left ↔ groupOf ranges j = groupOf ranges i ∧ j ∉ done)
    (hdecided : j ∈ done → progress.sentBy j = none →
      progress.haltOf (groupOf ranges j) ≠ none) :
    (progress.wire ranges done j r).used
        (if r ∈ left then .close else if j ∈ left then .hangUp else .keep) =
      next.wire ranges (done ++ [i]) j r := by
  unfold wire
  simp only [hsent, hhalted, hreader, hsource, List.mem_append, List.mem_singleton]
  by_cases hdone : r ∈ done
  · simp [hdone]
  by_cases hgroup : groupOf ranges r = groupOf ranges i
  · simp [hgroup, hdone]
  have hr : r ≠ i := fun heq => hgroup (by rw [heq])
  by_cases hclosed : (progress.haltOf (groupOf ranges r)).isSome = true
  · simp [hclosed, hgroup]
  cases hstate : progress.sentBy j with
  | some state =>
      by_cases hleft : groupOf ranges j = groupOf ranges i ∧ j ∉ done <;>
        simp [hdone, hgroup, hr, hclosed, hleft, Wire.used]
  | none =>
      by_cases hj : groupOf ranges j = groupOf ranges i
      · have hundone : j ∉ done := fun hmem => hdecided hmem hstate (hj ▸ hrunning)
        simp [hdone, hgroup, hr, hclosed, hj, hundone, hrunning, Wire.used]
      · simp [hdone, hgroup, hr, hclosed, hj]

/-- Whoever is not visited yet finds what its source has decided. -/
theorem message?_wire (hfresh : r ∉ done) (hrunning : progress.haltOf (groupOf ranges r) = none)
    (hdecided : progress.sentBy j = none → progress.haltOf (groupOf ranges j) ≠ none) :
    (progress.wire ranges done j r).message? = some (progress.sentBy j) := by
  unfold wire
  rw [if_neg (by simp [hfresh, hrunning])]
  cases hstate : progress.sentBy j with
  | some state => rfl
  | none =>
      have hhalt := Option.isSome_iff_ne_none.2 (hdecided hstate)
      simp only [hhalt, if_true]
      rfl

theorem isFull_wire (hnone : progress.sentBy j = none) :
    (progress.wire ranges done j r).isFull = false := by
  unfold wire
  simp only [hnone]
  split
  · rfl
  · split <;> rfl

end Wires

end Progress

namespace Crew

variable {ρ : Type}

/-- The crew stands where a phase over `cells` stands once the partitions in `done` were visited. -/
structure Follows (cells : List (Cell ρ)) (ranges : List Range) (done : List Nat)
    (progress : Progress ρ) (crew : Crew ρ) : Prop where
  cells_eq : crew.cells = progress.cells
  workerCount : crew.workers.length = ranges.length
  worker : ∀ (g : Nat) range, ranges[g]? = some range → ∃ held, crew.workers[g]? =
    some ⟨(progress.left done g range).flatMap (tasks cells), held, progress.haltOf g⟩
  wire : ∀ i r p, Feeds cells i r p → crew.wires r p = progress.wire ranges done i r

theorem follows_start (cells : List (Cell ρ)) (ranges : List Range) :
    Follows cells ranges [] (Progress.start cells ranges.length) (start cells ranges) where
  cells_eq := rfl
  workerCount := by simp [start]
  worker := fun g range hrange => ⟨[], by simp [start, hrange, Progress.left, Range.undone]⟩
  wire := fun i r p _ => by simp [start, Progress.wire]

/-! ## One visit -/

section Visit

variable {view : View} {cells : List (Cell ρ)} {schedule : Schedule} {done after : List Nat} {i : Nat}
  {progress : Progress ρ} {crew : Crew ρ}

theorem Follows.visit_of_halted (h : Follows cells schedule.ranges done progress crew)
    (hsuits : schedule.Suits cells) {stop : Stop}
    (hhalt : progress.haltOf (groupOf schedule.ranges i) = some stop) :
    Follows cells schedule.ranges (done ++ [i]) progress crew where
  cells_eq := h.cells_eq
  workerCount := h.workerCount
  worker := by
    intro g range hrange
    obtain ⟨held, hworker⟩ := h.worker g range hrange
    have hleft : progress.left (done ++ [i]) g range = progress.left done g range := by
      unfold Progress.left
      by_cases hmem : i ∈ range.indices
      · rw [hsuits.tiles.groupOf_eq hrange hmem] at hhalt
        simp [hhalt]
      · rw [Range.undone_of_not_mem hmem]
    exact ⟨held, hleft ▸ hworker⟩
  wire := by
    intro j r p hfeeds
    rw [h.wire j r p hfeeds]
    unfold Progress.wire
    by_cases hr : r = i
    · simp [hr, hhalt]
    · simp [hr]

theorem turn_wires {cell : Cell ρ} (hcell : cells[i]? = some cell) {j r : Nat} {p : String}
    (hfeeds : Feeds cells j r p) (state : State) :
    (closing i cell.partition.feeds.keys r p).andThen (sending (readers cells i) state r p) =
      if r = i then .close else if j = i then .send state else .keep := by
  have hsend : (r, p) ∈ readers cells i ↔ j = i := by
    rw [mem_readers]
    constructor
    · exact hfeeds.source_unique
    · rintro rfl
      exact hfeeds
  unfold closing sending
  rw [if_congr hsend rfl rfl]
  by_cases hr : r = i
  · subst hr
    simp [hfeeds.mem_keys hcell, WireUse.andThen]
  · simp [hr]

/-- A crew still follows if a move of the worker of `i` does to its cell, to the worker and to the wires
what a visit of `i` does to the phase. -/
theorem Follows.apply (h : Follows cells schedule.ranges done progress crew)
    (hsuits : schedule.Suits cells) (hi : i < cells.length) {next : Progress ρ} {effect : Effect ρ}
    (hcells : next.cells = progress.cells.set effect.index effect.cell) {range : Range}
    (hrange : schedule.ranges[groupOf schedule.ranges i]? = some range) (held : State)
    (hworker : effect.worker =
      ⟨(next.left (done ++ [i]) (groupOf schedule.ranges i) range).flatMap (tasks cells), held,
        next.haltOf (groupOf schedule.ranges i)⟩)
    (hhalted : ∀ k, k ≠ groupOf schedule.ranges i → next.haltOf k = progress.haltOf k)
    (hwires : ∀ j r p, Feeds cells j r p →
      (progress.wire schedule.ranges done j r).used (effect.wires r p) =
        next.wire schedule.ranges (done ++ [i]) j r) :
    Follows cells schedule.ranges (done ++ [i]) next
      (crew.apply (groupOf schedule.ranges i) effect) where
  cells_eq := by rw [hcells, ← h.cells_eq, Crew.apply]
  workerCount := by simpa [Crew.apply] using h.workerCount
  worker := by
    intro g other hother
    by_cases hg : g = groupOf schedule.ranges i
    · subst hg
      obtain rfl : range = other := Option.some.inj (hrange.symm.trans hother)
      have hlt : groupOf schedule.ranges i < crew.workers.length :=
        h.workerCount ▸ hsuits.groupOf_lt hi
      refine ⟨held, ?_⟩
      rw [← hworker]
      exact List.getElem?_set_self hlt
    · obtain ⟨held', hbefore⟩ := h.worker g other hother
      have hmem : i ∉ other.indices :=
        fun hmem => hg (hsuits.tiles.groupOf_eq hother hmem).symm
      refine ⟨held', ?_⟩
      simp only [Progress.left, hhalted g hg, Range.undone_of_not_mem hmem]
      exact (List.getElem?_set_ne (Ne.symm hg)).trans hbefore
  wire := by
    intro j r p hfeeds
    rw [← hwires j r p hfeeds, ← h.wire j r p hfeeds, Crew.apply]

theorem tasks_undone (hsuits : schedule.Suits cells) (horder : schedule.order = done ++ i :: after)
    {range : Range} (hrange : schedule.ranges[groupOf schedule.ranges i]? = some range)
    (hmem : i ∈ range.indices) {cell : Cell ρ} (hcell : cells[i]? = some cell) :
    (range.undone done).flatMap (tasks cells) =
      turnTasks i cell.partition.feeds.keys (readers cells i) ++
        (range.undone (done ++ [i])).flatMap (tasks cells) := by
  have hbefore := hsuits.serial_mem _ _ _ horder range (List.mem_of_getElem? hrange) hmem
  rw [Range.undone_eq_cons hmem (hsuits.not_mem_done horder) hbefore, List.flatMap_cons]
  simp only [tasks, hcell]

variable [UpdateRule ρ]

theorem Follows.steps_turn (h : Follows cells schedule.ranges done progress crew)
    (hvisited : Progress.Visited view cells schedule.ranges done progress)
    (hsuits : schedule.Suits cells) (horder : schedule.order = done ++ i :: after)
    (hhalt : progress.haltOf (groupOf schedule.ranges i) = none) {range : Range}
    (hrange : schedule.ranges[groupOf schedule.ranges i]? = some range)
    (hmem : i ∈ range.indices) {cell : Cell ρ} (hcell : cells[i]? = some cell) :
    ∃ n held, Steps (Move view) n crew (crew.apply (groupOf schedule.ranges i)
      (turn view i cell (readers cells i) ((range.undone (done ++ [i])).flatMap (tasks cells)) held
        (progress.inbox cell.partition.feeds))) := by
  have hfresh := hsuits.not_mem_done horder
  have hcell' : crew.cells[i]? = some cell := by
    rw [h.cells_eq, hvisited.untouched i hfresh, hcell]
  have hleft : progress.left done (groupOf schedule.ranges i) range = range.undone done := by
    simp [Progress.left, hhalt]
  obtain ⟨held, hworker⟩ := h.worker _ range hrange
  rw [hleft, tasks_undone hsuits horder hrange hmem hcell, hhalt] at hworker
  let messages : String → Option State := fun param =>
    (cell.partition.feeds.get? param).bind fun feed => progress.sentBy feed.source
  have hmessages : ∀ param ∈ cell.partition.feeds.keys,
      (crew.wires i param).message? = some (messages param) := by
    intro param hparam
    obtain ⟨feed, hfeed⟩ := Table.mem_keys_iff.1 hparam
    have hsource : feed.source ∈ done :=
      hsuits.source_mem _ _ _ horder cell hcell feed (Table.mem_values_iff.2 ⟨param, hfeed⟩)
    rw [h.wire feed.source i param ⟨cell, feed, hcell, hfeed, rfl⟩,
      Progress.message?_wire hfresh hhalt (hvisited.decided _ hsource)]
    simp only [messages, hfeed, Option.bind_some]
  have hroom : ∀ wire ∈ readers cells i, (crew.wires wire.1 wire.2).isFull = false := by
    intro wire hwire
    rw [h.wire i wire.1 wire.2 (mem_readers.1 hwire)]
    exact Progress.isFull_wire (hvisited.unsent i hfresh)
  obtain ⟨n, hsteps⟩ := Crew.steps_turn view messages cell.partition.feeds.nodup_keys
    (nodup_readers cells i) hcell' hworker hmessages hroom
  rw [progress.inbox_eq]
  exact ⟨n, held, hsteps⟩

theorem Follows.apply_turn (h : Follows cells schedule.ranges done progress crew)
    (hvisited : Progress.Visited view cells schedule.ranges done progress)
    (hsuits : schedule.Suits cells) (horder : schedule.order = done ++ i :: after)
    (hhalt : progress.haltOf (groupOf schedule.ranges i) = none) {range : Range}
    (hrange : schedule.ranges[groupOf schedule.ranges i]? = some range)
    (hmem : i ∈ range.indices) {cell : Cell ρ} (hcell : cells[i]? = some cell) (held : State) :
    Follows cells schedule.ranges (done ++ [i])
      (progress.visit view (groupOf schedule.ranges i) i)
      (crew.apply (groupOf schedule.ranges i) (turn view i cell (readers cells i)
        ((range.undone (done ++ [i])).flatMap (tasks cells)) held
        (progress.inbox cell.partition.feeds))) := by
  have hi := hsuits.lt_of_eq horder
  have hfresh := hsuits.not_mem_done horder
  have hcell' : progress.cells[i]? = some cell := (hvisited.untouched i hfresh).trans hcell
  have hvisit := Progress.visit_eq view hcell' hhalt
  cases hresult : (cell.partition.compute view (progress.inbox cell.partition.feeds)).result with
  | ok state =>
      have hlt : i < progress.sent.length := hvisited.sentCount ▸ hi
      have hsent := Progress.sentBy_visit_of_ok hcell' hhalt hlt hresult
      have hhalted := Progress.haltOf_visit_of_ok hcell' hhalt hresult
      rw [turn_of_ok hresult]
      refine h.apply hsuits hi (by rw [hvisit]) hrange state ?_ (fun k _ => hhalted k) ?_
      · simp only [Progress.left, hhalted, hhalt, Option.isSome_none, Bool.false_eq_true, if_false]
      · intro j r p hfeeds
        dsimp only
        rw [turn_wires hcell hfeeds]
        exact Progress.wire_of_ok hsent hhalted (hvisited.unsent i hfresh) hhalt
  | error stop =>
      have hlt : groupOf schedule.ranges i < progress.halted.length :=
        hvisited.haltCount ▸ hsuits.groupOf_lt hi
      have hsent := Progress.sentBy_visit_of_error hcell' hhalt hresult
      have hhalted := Progress.haltOf_visit_of_error hcell' hhalt hlt hresult
      rw [turn_of_error hresult]
      refine h.apply hsuits hi (by rw [hvisit]) hrange held ?_ (fun k hk => ?_) ?_
      · simp only [Progress.left, hhalted, if_true, Option.isSome_some, List.flatMap_nil]
      · rw [hhalted, if_neg hk]
      · intro j r p hfeeds
        obtain ⟨reader, feed, hreader, hfeed, rfl⟩ := id hfeeds
        have hsource : feed.source < cells.length :=
          hsuits.source_lt hreader (Table.mem_values_iff.2 ⟨p, hfeed⟩)
        rw [← tasks_undone hsuits horder hrange hmem hcell]
        dsimp only
        rw [drop_tasks hsource hfeeds]
        refine Progress.wire_of_error hsent hhalted hhalt ?_ ?_ (hvisited.decided _)
        · rw [Range.mem_undone, hsuits.mem_indices_iff hrange hfeeds.reader_lt]
        · rw [Range.mem_undone, hsuits.mem_indices_iff hrange hsource]

theorem Follows.visit (h : Follows cells schedule.ranges done progress crew)
    (hvisited : Progress.Visited view cells schedule.ranges done progress)
    (hsuits : schedule.Suits cells) (horder : schedule.order = done ++ i :: after) :
    ∃ n next, Steps (Move view) n crew next ∧ Follows cells schedule.ranges (done ++ [i])
      (progress.visit view (groupOf schedule.ranges i) i) next := by
  cases hhalt : progress.haltOf (groupOf schedule.ranges i) with
  | some stop =>
      rw [Progress.visit_of_halted hhalt]
      exact ⟨0, crew, .refl crew, h.visit_of_halted hsuits hhalt⟩
  | none =>
      have hi := hsuits.lt_of_eq horder
      have hcell : cells[i]? = some cells[i] := List.getElem?_eq_getElem hi
      obtain ⟨range, hrange, hmem⟩ := hsuits.exists_range hi
      obtain ⟨n, held, hsteps⟩ :=
        h.steps_turn hvisited hsuits horder hhalt hrange hmem hcell
      exact ⟨n, _, hsteps, h.apply_turn hvisited hsuits horder hhalt hrange hmem hcell held⟩

end Visit

/-! ## The whole phase -/

section Phase

variable {cells : List (Cell ρ)} {schedule : Schedule} {progress : Progress ρ} {crew : Crew ρ}

theorem Follows.isDone (h : Follows cells schedule.ranges schedule.order progress crew)
    (hsuits : schedule.Suits cells) : crew.IsDone := by
  intro worker hmem
  obtain ⟨g, hg⟩ := List.mem_iff_getElem?.1 hmem
  have hlt : g < schedule.ranges.length :=
    h.workerCount ▸ (List.getElem?_eq_some_iff.1 hg).1
  have hrange : schedule.ranges[g]? = some schedule.ranges[g] := List.getElem?_eq_getElem hlt
  obtain ⟨held, hworker⟩ := h.worker g _ hrange
  have hundone : schedule.ranges[g].undone schedule.order = [] := by
    refine List.filter_eq_nil_iff.2 fun i hi => ?_
    have hstop := (hsuits.tiles.bounds (List.getElem_mem hlt)).2.2
    have hi' : i ∈ schedule.order :=
      hsuits.mem_order.2 (Nat.lt_of_lt_of_le (Range.mem_indices.1 hi).2 hstop)
    simpa using hi'
  obtain rfl := Option.some.inj (hg.symm.trans hworker)
  simp [Progress.left, hundone]

theorem Follows.failures_eq {done : List Nat} (h : Follows cells schedule.ranges done progress crew)
    (hcount : progress.halted.length = schedule.ranges.length) :
    crew.failures = progress.halted := by
  refine List.ext_getElem? fun g => ?_
  by_cases hg : g < schedule.ranges.length
  · obtain ⟨held, hworker⟩ := h.worker g _ (List.getElem?_eq_getElem hg)
    have hlt : g < progress.halted.length := hcount ▸ hg
    rw [failures, List.getElem?_map, hworker, List.getElem?_eq_getElem hlt]
    simp [Progress.haltOf, List.getElem?_eq_getElem hlt]
  · rw [failures, List.getElem?_eq_none (by rw [List.length_map, h.workerCount]; omega),
      List.getElem?_eq_none (by omega)]

variable {τ : Type} [UpdateRule ρ]

theorem follows_computeAll {sim : Simulation ρ τ} (hsuits : sim.schedule.Suits sim.cells) :
    ∃ n crew, Steps (Move sim.view) n (start sim.cells sim.schedule.ranges) crew ∧
      Follows sim.cells sim.schedule.ranges sim.schedule.order sim.computeAll crew := by
  have hall := Simulation.computeAll_induction sim
    (motive := fun done progress =>
      Progress.Visited sim.view sim.cells sim.schedule.ranges done progress ∧
        ∃ n crew, Steps (Move sim.view) n (start sim.cells sim.schedule.ranges) crew ∧
          Follows sim.cells sim.schedule.ranges done progress crew)
    ⟨Progress.visited_start _ _ _, 0, _, .refl _, follows_start _ _⟩
    (fun done i after progress horder ⟨hvisited, n, crew, hsteps, hfollows⟩ => by
      obtain ⟨m, next, hmore, hnext⟩ := hfollows.visit hvisited hsuits horder
      exact ⟨hvisited.visit_next hsuits horder, n + m, next, hsteps.trans hmore, hnext⟩)
  exact hall.2

end Phase

end Crew

end Tandem
