import Tandem.Proofs.Partition
import Tandem.Proofs.Plan.Schedule
import Tandem.Proofs.Table

/-!
# What the compute phase comes to

When a partition is visited, all that feeds it was visited before, and no later visit takes back what
was sent. So a phase solves a system of equations: every partition that has sent a state computed it from
the cell it had before the phase and from what its sources have sent by the end of the phase.
-/

namespace Tandem

namespace Progress

variable {ρ : Type}

def haltOf (progress : Progress ρ) (group : Nat) : Option Stop := (progress.halted[group]?).join

@[simp]
theorem sentBy_start (cells : List (Cell ρ)) (groups i : Nat) :
    (start cells groups).sentBy i = none := by
  simp only [sentBy, start, List.getElem?_replicate]
  split <;> rfl

@[simp]
theorem haltOf_start (cells : List (Cell ρ)) (groups g : Nat) :
    (start cells groups).haltOf g = none := by
  simp only [haltOf, start, List.getElem?_replicate]
  split <;> rfl

theorem inbox_congr {progress next : Progress ρ} {feeds : Table String Feed}
    (h : ∀ feed ∈ feeds.values, next.sentBy feed.source = progress.sentBy feed.source) :
    next.inbox feeds = progress.inbox feeds := by
  refine List.map_congr_left fun entry hentry => ?_
  rw [h entry.2 (List.mem_map_of_mem hentry)]

theorem inbox_eq (progress : Progress ρ) (feeds : Table String Feed) :
    progress.inbox feeds = feeds.keys.map fun param =>
      (param, (feeds.get? param).bind fun feed => progress.sentBy feed.source) :=
  feeds.map_entries fun param feed? =>
    (param, feed?.bind fun feed => progress.sentBy feed.source)

theorem map_fst_inbox (progress : Progress ρ) (feeds : Table String Feed) :
    (progress.inbox feeds).map (·.1) = feeds.keys := by
  simp [inbox, Table.keys, Function.comp_def]

theorem mem_inbox {progress : Progress ρ} {feeds : Table String Feed} {param : String}
    {message : Option State} :
    (param, message) ∈ progress.inbox feeds ↔
      ∃ feed, feeds.get? param = some feed ∧ message = progress.sentBy feed.source := by
  simp only [inbox, List.mem_map, Prod.exists, Prod.mk.injEq, Table.mem_entries_iff]
  constructor
  · rintro ⟨_, feed, hfeed, rfl, rfl⟩
    exact ⟨feed, hfeed, rfl⟩
  · rintro ⟨feed, hfeed, rfl⟩
    exact ⟨_, feed, hfeed, rfl, rfl⟩

/-! ## One visit -/

section Visit

variable [UpdateRule ρ] {view : View} {progress : Progress ρ} {g i : Nat} {cell : Cell ρ}

theorem visit_of_halted {stop : Stop} (h : progress.haltOf g = some stop) :
    progress.visit view g i = progress := by
  unfold haltOf at h
  unfold visit
  rw [h]
  cases progress.cells[i]? <;> rfl

theorem visit_eq (view : View) (hcell : progress.cells[i]? = some cell)
    (hhalt : progress.haltOf g = none) :
    progress.visit view g i =
      let reply := cell.partition.compute view (progress.inbox cell.partition.feeds)
      { cells := progress.cells.set i { cell with partition := reply.next }
        sent := match reply.result with
          | .ok state => progress.sent.set i (some state)
          | .error _ => progress.sent
        halted := match reply.result with
          | .ok _ => progress.halted
          | .error stop => progress.halted.set g (some stop)
        emitted := progress.emitted ++ reply.emitted } := by
  unfold haltOf at hhalt
  unfold visit
  rw [hcell, hhalt]
  dsimp only
  cases (cell.partition.compute view (progress.inbox cell.partition.feeds)).result <;> rfl

theorem sentBy_visit_of_ok {state : State} (hcell : progress.cells[i]? = some cell)
    (hhalt : progress.haltOf g = none) (hi : i < progress.sent.length)
    (h : (cell.partition.compute view (progress.inbox cell.partition.feeds)).result = .ok state)
    (j : Nat) :
    (progress.visit view g i).sentBy j = if j = i then some state else progress.sentBy j := by
  rw [visit_eq view hcell hhalt]
  simp only [sentBy, h]
  by_cases hj : j = i
  · rw [if_pos hj, hj, List.getElem?_set_self hi]
    rfl
  · rw [if_neg hj, List.getElem?_set_ne (Ne.symm hj)]

theorem haltOf_visit_of_ok {state : State} (hcell : progress.cells[i]? = some cell)
    (hhalt : progress.haltOf g = none)
    (h : (cell.partition.compute view (progress.inbox cell.partition.feeds)).result = .ok state)
    (k : Nat) : (progress.visit view g i).haltOf k = progress.haltOf k := by
  rw [visit_eq view hcell hhalt]
  simp only [haltOf, h]

theorem sentBy_visit_of_error {stop : Stop} (hcell : progress.cells[i]? = some cell)
    (hhalt : progress.haltOf g = none)
    (h : (cell.partition.compute view (progress.inbox cell.partition.feeds)).result = .error stop)
    (j : Nat) : (progress.visit view g i).sentBy j = progress.sentBy j := by
  rw [visit_eq view hcell hhalt]
  simp only [sentBy, h]

theorem sentBy_visit_of_ne (hcell : progress.cells[i]? = some cell) (hhalt : progress.haltOf g = none)
    {j : Nat} (hne : j ≠ i) : (progress.visit view g i).sentBy j = progress.sentBy j := by
  cases h : (cell.partition.compute view (progress.inbox cell.partition.feeds)).result with
  | error stop => exact sentBy_visit_of_error hcell hhalt h j
  | ok state =>
      rw [visit_eq view hcell hhalt]
      simp only [sentBy, h, List.getElem?_set_ne (Ne.symm hne)]

theorem haltOf_visit_of_error {stop : Stop} (hcell : progress.cells[i]? = some cell)
    (hhalt : progress.haltOf g = none) (hg : g < progress.halted.length)
    (h : (cell.partition.compute view (progress.inbox cell.partition.feeds)).result = .error stop)
    (k : Nat) :
    (progress.visit view g i).haltOf k = if k = g then some stop else progress.haltOf k := by
  rw [visit_eq view hcell hhalt]
  simp only [haltOf, h]
  by_cases hk : k = g
  · rw [if_pos hk, hk, List.getElem?_set_self hg]
    rfl
  · rw [if_neg hk, List.getElem?_set_ne (Ne.symm hk)]

/-- A visit leaves what others have sent and what has halted groups, and decides about its partition:
either it has computed its state and sent it, or its group is halted. -/
theorem visit_decides (view : View) (hcell : progress.cells[i]? = some cell)
    (hhalt : progress.haltOf g = none) (hi : i < progress.sent.length)
    (hg : g < progress.halted.length) (hnone : progress.sentBy i = none) :
    let next := progress.visit view g i
    (∀ j, j ≠ i → next.sentBy j = progress.sentBy j) ∧
      (∀ k, progress.haltOf k ≠ none → next.haltOf k ≠ none) ∧
      (next.sentBy i = none → next.haltOf g ≠ none) ∧
      ∀ state, next.sentBy i = some state →
        (cell.partition.compute view (progress.inbox cell.partition.feeds)).result = .ok state := by
  intro next
  cases hresult : (cell.partition.compute view (progress.inbox cell.partition.feeds)).result with
  | error stop =>
      have hsent := sentBy_visit_of_error hcell hhalt hresult
      have hhalted := haltOf_visit_of_error hcell hhalt hg hresult
      refine ⟨fun j _ => hsent j, fun k hk => ?_, fun _ => ?_, fun state hstate => ?_⟩
      · rw [hhalted]
        split
        · simp
        · exact hk
      · simp [next, hhalted]
      · rw [hsent, hnone] at hstate
        cases hstate
  | ok state =>
      have hsent := sentBy_visit_of_ok hcell hhalt hi hresult
      have hhalted := haltOf_visit_of_ok hcell hhalt hresult
      refine ⟨fun j hj => ?_, fun k hk => ?_, fun h => ?_, fun new hnew => ?_⟩
      · rw [hsent, if_neg hj]
      · rwa [hhalted]
      · rw [hsent, if_pos rfl] at h
        cases h
      · rw [hsent, if_pos rfl] at hnew
        cases hnew
        rfl

theorem cells_visit (view : View) (g i : Nat) (progress : Progress ρ) :
    (progress.visit view g i).cells = progress.cells ∨
      ∃ cell, progress.cells[i]? = some cell ∧ (progress.visit view g i).cells =
        progress.cells.set i { cell with
          partition := (cell.partition.compute view (progress.inbox cell.partition.feeds)).next } := by
  cases hcell : progress.cells[i]? with
  | none =>
      refine Or.inl ?_
      unfold visit
      rw [hcell]
  | some cell =>
      cases hhalt : progress.haltOf g with
      | some stop => exact Or.inl (by rw [visit_of_halted hhalt])
      | none => exact Or.inr ⟨cell, rfl, by rw [visit_eq view hcell hhalt]⟩

theorem length_visit (view : View) (g i : Nat) (progress : Progress ρ) :
    (progress.visit view g i).cells.length = progress.cells.length ∧
      (progress.visit view g i).sent.length = progress.sent.length ∧
      (progress.visit view g i).halted.length = progress.halted.length := by
  unfold visit
  split
  · dsimp only
    split
    · simp
    · simp
  · exact ⟨rfl, rfl, rfl⟩

end Visit

/-! ## All visits -/

/-- Where a phase over `cells` stands once the partitions in `done` were visited. -/
structure Visited [UpdateRule ρ] (view : View) (cells : List (Cell ρ)) (ranges : List Range)
    (done : List Nat) (progress : Progress ρ) : Prop where
  cellCount : progress.cells.length = cells.length
  sentCount : progress.sent.length = cells.length
  haltCount : progress.halted.length = ranges.length
  untouched : ∀ i, i ∉ done → progress.cells[i]? = cells[i]?
  unsent : ∀ i, i ∉ done → progress.sentBy i = none
  decided : ∀ i ∈ done, progress.sentBy i = none → progress.haltOf (groupOf ranges i) ≠ none
  computed : ∀ i state, progress.sentBy i = some state → ∀ cell, cells[i]? = some cell →
    let reply := cell.partition.compute view (progress.inbox cell.partition.feeds)
    reply.result = .ok state ∧ progress.cells[i]? = some { cell with partition := reply.next }

theorem visited_start [UpdateRule ρ] (view : View) (cells : List (Cell ρ)) (ranges : List Range) :
    Visited view cells ranges [] (start cells ranges.length) where
  cellCount := rfl
  sentCount := by simp [start]
  haltCount := by simp [start]
  untouched := fun i _ => rfl
  unsent := fun i _ => by simp
  decided := fun i hi => by simp at hi
  computed := fun i state hstate => by simp at hstate

section Next

variable [UpdateRule ρ] {view : View} {cells : List (Cell ρ)} {ranges : List Range} {done : List Nat}
  {progress : Progress ρ} {i : Nat}

theorem Visited.concat_of_halted (h : Visited view cells ranges done progress) {stop : Stop}
    (hhalt : progress.haltOf (groupOf ranges i) = some stop) :
    Visited view cells ranges (done ++ [i]) progress :=
  { h with
    untouched := fun j hj => h.untouched j fun hmem => hj (List.mem_append_left _ hmem)
    unsent := fun j hj => h.unsent j fun hmem => hj (List.mem_append_left _ hmem)
    decided := by
      intro j hj
      rcases List.mem_append.1 hj with hj | hj
      · exact h.decided j hj
      · rw [List.mem_singleton.1 hj, hhalt]
        simp }

/-- A partition that has not sent anything is visited after all its sources. -/
theorem Visited.visit (h : Visited view cells ranges done progress) (hi : i < cells.length)
    (hgroup : groupOf ranges i < ranges.length) (hfresh : i ∉ done)
    (hsources : ∀ j ∈ i :: done, ∀ cell, cells[j]? = some cell →
      ∀ feed ∈ cell.partition.feeds.values, feed.source ∈ done) :
    Visited view cells ranges (done ++ [i]) (progress.visit view (groupOf ranges i) i) := by
  cases hhalt : progress.haltOf (groupOf ranges i) with
  | some stop =>
      rw [visit_of_halted hhalt]
      exact h.concat_of_halted hhalt
  | none =>
      have hcell : progress.cells[i]? = some cells[i] := by
        rw [h.untouched i hfresh, List.getElem?_eq_getElem hi]
      have hlength : i < progress.cells.length := h.cellCount ▸ hi
      have hsent : i < progress.sent.length := h.sentCount ▸ hi
      have hhalted : groupOf ranges i < progress.halted.length := h.haltCount ▸ hgroup
      have hvisit := visit_eq view hcell hhalt
      obtain ⟨hcells, hmessages, hgroups⟩ := length_visit view (groupOf ranges i) i progress
      obtain ⟨hsame, hkept, hdecided, hcomputed⟩ :=
        visit_decides view hcell hhalt hsent hhalted (h.unsent i hfresh)
      have hset : ∀ j, j ≠ i → (progress.visit view (groupOf ranges i) i).cells[j]? =
          progress.cells[j]? := by
        intro j hj
        rw [hvisit, List.getElem?_set_ne (Ne.symm hj)]
      -- the sources of whoever has sent by now are done, so their messages stay
      have hinbox : ∀ j ∈ i :: done, ∀ cell, cells[j]? = some cell →
          (progress.visit view (groupOf ranges i) i).inbox cell.partition.feeds =
            progress.inbox cell.partition.feeds := by
        intro j hj cell hcellj
        refine inbox_congr fun feed hfeed => hsame _ ?_
        exact fun heq => hfresh (heq ▸ hsources j hj cell hcellj feed hfeed)
      have hsplit : ∀ j, j ∉ done ++ [i] → j ∉ done ∧ j ≠ i := by
        intro j hj
        simpa [not_or] using hj
      refine ⟨hcells.trans h.cellCount, hmessages.trans h.sentCount, hgroups.trans h.haltCount,
        fun j hj => ?_, fun j hj => ?_, fun j hj hnone => ?_, fun j state hstate cell hcellj => ?_⟩
      · obtain ⟨hdone, hne⟩ := hsplit j hj
        exact (hset j hne).trans (h.untouched j hdone)
      · obtain ⟨hdone, hne⟩ := hsplit j hj
        exact (hsame j hne).trans (h.unsent j hdone)
      · by_cases heq : j = i
        · subst heq
          exact hdecided hnone
        · have hmem : j ∈ done := by simpa [heq] using hj
          exact hkept _ (h.decided j hmem ((hsame j heq).symm.trans hnone))
      · by_cases heq : j = i
        · subst heq
          obtain rfl : cells[j] = cell := Option.some.inj
            ((List.getElem?_eq_getElem hi).symm.trans hcellj)
          rw [hinbox j List.mem_cons_self _ hcellj]
          refine ⟨hcomputed state hstate, ?_⟩
          rw [hvisit]
          exact List.getElem?_set_self hlength
        · have hbefore : progress.sentBy j = some state := (hsame j heq).symm.trans hstate
          have hmem : j ∈ done := by
            by_contra hj
            rw [h.unsent j hj] at hbefore
            cases hbefore
          obtain ⟨hreply, hafter⟩ := h.computed j state hbefore cell hcellj
          rw [hinbox j (List.mem_cons_of_mem _ hmem) _ hcellj]
          exact ⟨hreply, (hset j heq).trans hafter⟩

end Next

end Progress

namespace Schedule.Suits

variable {ρ : Type} {schedule : Schedule} {cells : List (Cell ρ)}

/-- The sources of a partition whose turn it is, and of all that had their turn, have had theirs. -/
theorem source_mem_done (h : schedule.Suits cells) {done after : List Nat} {i : Nat}
    (horder : schedule.order = done ++ i :: after) {j : Nat} (hj : j ∈ i :: done) {cell : Cell ρ}
    (hcell : cells[j]? = some cell) {feed : Feed} (hfeed : feed ∈ cell.partition.feeds.values) :
    feed.source ∈ done := by
  rcases List.mem_cons.1 hj with rfl | hj
  · exact h.source_mem _ _ _ horder cell hcell feed hfeed
  · obtain ⟨earlier, later, rfl⟩ := List.append_of_mem hj
    rw [List.append_assoc, List.cons_append] at horder
    exact List.mem_append_left _ (h.source_mem _ _ _ horder cell hcell feed hfeed)

theorem not_mem_done (h : schedule.Suits cells) {done after : List Nat} {i : Nat}
    (horder : schedule.order = done ++ i :: after) : i ∉ done := by
  have hnodup := h.nodup_order
  rw [horder, List.nodup_append] at hnodup
  exact fun hi => hnodup.2.2 i hi i List.mem_cons_self rfl

theorem lt_of_eq (h : schedule.Suits cells) {done after : List Nat} {i : Nat}
    (horder : schedule.order = done ++ i :: after) : i < cells.length :=
  h.mem_order.1 (by simp [horder])

end Schedule.Suits

section

variable {ρ : Type} {schedule : Schedule} {cells : List (Cell ρ)}

theorem Progress.Visited.visit_next [UpdateRule ρ] {view : View} {done after : List Nat} {i : Nat}
    {progress : Progress ρ} (h : Visited view cells schedule.ranges done progress)
    (hsuits : schedule.Suits cells) (horder : schedule.order = done ++ i :: after) :
    Visited view cells schedule.ranges (done ++ [i])
      (progress.visit view (groupOf schedule.ranges i) i) := by
  have hi := hsuits.lt_of_eq horder
  exact h.visit hi (hsuits.groupOf_lt hi) (hsuits.not_mem_done horder)
    fun j hj cell hcell feed hfeed => hsuits.source_mem_done horder hj hcell hfeed

end

/-! ## The verdict on groups -/

theorem firstFault_eq_none_iff {faults : List Fault} : firstFault faults = none ↔ faults = [] := by
  unfold firstFault
  cases hfind : faults.find? fun fault => !fault.isKnockOn with
  | none => simp
  | some fault =>
      have hmem := List.mem_of_find?_eq_some hfind
      simp only [reduceCtorEq, false_iff]
      exact List.ne_nil_of_mem hmem

theorem firstFault_groupFaults_eq_none_iff (names : List String) {ranges : List Range}
    {failures : List (Option Stop)} (hlength : failures.length = ranges.length) :
    firstFault (groupFaults names ranges failures) = none ↔
      ∀ failure ∈ failures, failure = none := by
  rw [firstFault_eq_none_iff, groupFaults, List.filterMap_eq_nil_iff]
  constructor
  · intro h failure hmem
    obtain ⟨g, hg, rfl⟩ := List.mem_iff_getElem.1 hmem
    have hpair : (ranges[g], failures[g]) ∈ ranges.zip failures := by
      have hzip : g < (ranges.zip failures).length := by
        rw [List.length_zip, hlength, Nat.min_self]
        omega
      have := List.getElem_mem hzip
      rwa [List.getElem_zip] at this
    simpa using h _ hpair
  · rintro h ⟨range, failure⟩ hmem
    rw [h failure (List.of_mem_zip hmem).2]
    rfl

namespace Simulation

variable {ρ τ : Type} [UpdateRule ρ]

/-- What holds before any visit and is kept by every visit holds of the whole compute phase. -/
theorem computeAll_induction (sim : Simulation ρ τ) {motive : List Nat → Progress ρ → Prop}
    (hstart : motive [] (Progress.start sim.cells sim.schedule.ranges.length))
    (hvisit : ∀ done i after progress, sim.schedule.order = done ++ i :: after →
      motive done progress →
      motive (done ++ [i]) (progress.visit sim.view (groupOf sim.schedule.ranges i) i)) :
    motive sim.schedule.order sim.computeAll := by
  have hall : ∀ after done progress, sim.schedule.order = done ++ after → motive done progress →
      motive sim.schedule.order (after.foldl (fun progress index =>
        progress.visit sim.view (groupOf sim.schedule.ranges index) index) progress) := by
    intro after
    induction after with
    | nil =>
        intro done progress horder hdone
        rw [List.append_nil] at horder
        exact horder ▸ hdone
    | cons i after ih =>
        intro done progress horder hdone
        refine ih (done ++ [i]) _ ?_ (hvisit done i after progress horder hdone)
        rw [horder, List.append_assoc, List.singleton_append]
  exact hall sim.schedule.order [] _ rfl hstart

theorem visited_computeAll {sim : Simulation ρ τ} (h : sim.schedule.Suits sim.cells) :
    Progress.Visited sim.view sim.cells sim.schedule.ranges sim.schedule.order sim.computeAll :=
  sim.computeAll_induction (Progress.visited_start _ _ _)
    fun _ _ _ _ horder hdone => hdone.visit_next h horder

/-! ## What a phase keeps, whatever fails -/

theorem map_computeAll {α : Type} (sim : Simulation ρ τ) (f : Cell ρ → α)
    (hf : ∀ cell view inbox,
      f { cell with partition := (cell.partition.compute view inbox).next } = f cell) :
    sim.computeAll.cells.map f = sim.cells.map f := by
  refine sim.computeAll_induction (motive := fun _ progress =>
    progress.cells.map f = sim.cells.map f) rfl ?_
  intro done i after progress _ h
  rcases progress.cells_visit sim.view (groupOf sim.schedule.ranges i) i with
    heq | ⟨cell, hcell, heq⟩
  · rw [heq, h]
  · obtain ⟨hlt, rfl⟩ := List.getElem?_eq_some_iff.1 hcell
    have hlt' : i < (progress.cells.map f).length := by simpa using hlt
    have hself := List.set_getElem_self hlt'
    rw [List.getElem_map] at hself
    rw [heq, List.map_set, hf, hself, h]

theorem windows_computeAll (sim : Simulation ρ τ) :
    sim.computeAll.cells.map (·.window) = sim.windows :=
  sim.map_computeAll (·.window) fun _ _ _ => rfl

theorem names_computeAll (sim : Simulation ρ τ) :
    sim.computeAll.cells.map (·.partition.name) = sim.names :=
  sim.map_computeAll (·.partition.name) fun cell view inbox =>
    (Partition.compute_keeps view cell.partition inbox).1

theorem length_halted_computeAll (sim : Simulation ρ τ) :
    sim.computeAll.halted.length = sim.schedule.ranges.length := by
  refine sim.computeAll_induction (motive := fun _ progress =>
    progress.halted.length = sim.schedule.ranges.length) (by simp [Progress.start]) ?_
  intro done i after progress _ h
  rw [(Progress.length_visit _ _ _ _).2.2, h]

theorem compute_eq (sim : Simulation ρ τ) :
    sim.compute =
      { result :=
          match firstFault (groupFaults (sim.computeAll.cells.map (·.partition.name))
            sim.schedule.ranges sim.computeAll.halted) with
          | some fault => .error (.fault fault)
          | none => .ok ()
        next := { sim with cells := sim.computeAll.cells }
        emitted := sim.computeAll.emitted } := by
  unfold compute
  dsimp only [names]
  cases firstFault (groupFaults (sim.computeAll.cells.map (·.partition.name)) sim.schedule.ranges
    sim.computeAll.halted) <;> rfl

theorem compute_next (sim : Simulation ρ τ) :
    sim.compute.next = { sim with cells := sim.computeAll.cells } := by
  rw [compute_eq]

theorem compute_result_eq_ok_iff {sim : Simulation ρ τ} :
    sim.compute.result = .ok () ↔ ∀ failure ∈ sim.computeAll.halted, failure = none := by
  rw [← firstFault_groupFaults_eq_none_iff (sim.computeAll.cells.map (·.partition.name))
    (length_halted_computeAll sim), compute_eq]
  dsimp only
  split
  next fault hfault => simp [hfault]
  next hnone => simp [hnone]

theorem compute_result_eq_ok_iff_running {sim : Simulation ρ τ} :
    sim.compute.result = .ok () ↔ ∀ g, sim.computeAll.haltOf g = none := by
  rw [compute_result_eq_ok_iff]
  constructor
  · intro h g
    rw [Progress.haltOf]
    cases hg : sim.computeAll.halted[g]? with
    | none => rfl
    | some failure =>
        rw [h failure (List.mem_of_getElem? hg)]
        rfl
  · intro h failure hmem
    obtain ⟨g, hg⟩ := List.mem_iff_getElem?.1 hmem
    have hnone := h g
    rwa [Progress.haltOf, hg, Option.join_some] at hnone

end Simulation

end Tandem
