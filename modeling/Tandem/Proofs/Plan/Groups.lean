import Mathlib.Algebra.GroupWithZero.Nat
import Tandem.Simulation.Compute

/-!
# The groups of a plan tile its partitions

Ranges that `Plan.ranges` accepts follow each other without gaps and none is empty, so every partition
lies in exactly one of them and `groupOf` finds it.
-/

namespace Tandem

namespace Range

@[simp]
theorem mem_indices {range : Range} {i : Nat} :
    i ∈ range.indices ↔ range.start ≤ i ∧ i < range.stop := by
  simp only [indices, List.mem_range'_1]
  omega

end Range

/-- The ranges follow each other from `start` to `stop`, and each has an index in it. -/
def Tiles : Nat → Nat → List Range → Prop
  | start, stop, [] => start = stop
  | start, stop, range :: rest =>
      range.start = start ∧ range.start < range.stop ∧ Tiles range.stop stop rest

namespace Tiles

variable {start stop : Nat} {ranges : List Range}

theorem le (h : Tiles start stop ranges) : start ≤ stop := by
  induction ranges generalizing start with
  | nil => exact Nat.le_of_eq h
  | cons range rest ih =>
      obtain ⟨rfl, hlt, hrest⟩ := h
      exact Nat.le_trans (Nat.le_of_lt hlt) (ih hrest)

theorem sum_size (h : Tiles start stop ranges) :
    (ranges.map Range.size).sum = stop - start := by
  induction ranges generalizing start with
  | nil =>
      obtain rfl : start = stop := h
      simp
  | cons range rest ih =>
      obtain ⟨rfl, hlt, hrest⟩ := h
      have hle := hrest.le
      rw [List.map_cons, List.sum_cons, ih hrest, Range.size]
      omega

theorem bounds (h : Tiles start stop ranges) {range : Range} (hmem : range ∈ ranges) :
    start ≤ range.start ∧ range.start < range.stop ∧ range.stop ≤ stop := by
  induction ranges generalizing start with
  | nil => simp at hmem
  | cons first rest ih =>
      obtain ⟨rfl, hlt, hrest⟩ := h
      rcases List.mem_cons.1 hmem with rfl | hmem
      · exact ⟨Nat.le_refl _, hlt, hrest.le⟩
      · obtain ⟨hstart, hrange, hstop⟩ := ih hrest hmem
        exact ⟨by omega, hrange, hstop⟩

theorem groupOf_cons (range : Range) (rest : List Range) (i : Nat) :
    groupOf (range :: rest) i =
      if range.start ≤ i ∧ i < range.stop then 0 else groupOf rest i + 1 := by
  unfold groupOf
  rw [List.findIdx_cons]
  by_cases hi : range.start ≤ i ∧ i < range.stop <;> simp [hi]

theorem getElem?_groupOf (h : Tiles start stop ranges) {i : Nat} (hstart : start ≤ i)
    (hstop : i < stop) : ∃ range, ranges[groupOf ranges i]? = some range ∧ i ∈ range.indices := by
  induction ranges generalizing start with
  | nil =>
      obtain rfl : start = stop := h
      omega
  | cons range rest ih =>
      obtain ⟨rfl, hlt, hrest⟩ := h
      by_cases hi : i < range.stop
      · refine ⟨range, ?_, Range.mem_indices.2 ⟨hstart, hi⟩⟩
        rw [groupOf_cons, if_pos ⟨hstart, hi⟩]
        rfl
      · obtain ⟨found, hfound, hmem⟩ := ih hrest (Nat.le_of_not_lt hi)
        refine ⟨found, ?_, hmem⟩
        rw [groupOf_cons, if_neg fun h => hi h.2]
        exact hfound

theorem groupOf_eq (h : Tiles start stop ranges) {g i : Nat} {range : Range}
    (hrange : ranges[g]? = some range) (hi : i ∈ range.indices) : groupOf ranges i = g := by
  induction ranges generalizing start g with
  | nil => simp at hrange
  | cons first rest ih =>
      obtain ⟨rfl, hlt, hrest⟩ := h
      obtain ⟨hle, hstop⟩ := Range.mem_indices.1 hi
      cases g with
      | zero =>
          obtain rfl : first = range := by simpa using hrange
          rw [groupOf_cons, if_pos ⟨hle, hstop⟩]
      | succ g =>
          have hrange : rest[g]? = some range := by simpa using hrange
          have hbounds := hrest.bounds (List.mem_of_getElem? hrange)
          have hnot : ¬ (first.start ≤ i ∧ i < first.stop) := by omega
          rw [groupOf_cons, if_neg hnot, ih hrest hrange]

theorem singletons (start count : Nat) :
    Tiles start (start + count) ((List.range' start count).map fun i => ⟨i, i + 1⟩) := by
  induction count generalizing start with
  | zero => rfl
  | succ count ih =>
      have hrest := ih (start + 1)
      rw [show start + 1 + count = start + (count + 1) by omega] at hrest
      exact ⟨rfl, Nat.lt_succ_self start, hrest⟩

end Tiles

namespace Plan

theorem groupStop_eq_ok_iff {next stop : Nat} {group : List Nat} :
    groupStop next group = .ok stop ↔
      group = List.range' next group.length ∧ stop = next + group.length := by
  induction group generalizing next with
  | nil => simp [groupStop, eq_comm]
  | cons index rest ih =>
      rw [groupStop, List.length_cons, List.range'_succ, List.cons.injEq]
      split
      next heq =>
        have hstop : stop = next + 1 + rest.length ↔ stop = next + (rest.length + 1) := by omega
        simp [heq, ih, hstop]
      next hne => simp [hne]

theorem groupRanges_cons_eq_ok_iff {total next : Nat} {group : List Nat} {rest : List (List Nat)}
    {ranges : List Range} :
    groupRanges total next (group :: rest) = .ok ranges ↔
      group ≠ [] ∧ group = List.range' next group.length ∧ ∃ later,
        groupRanges total (next + group.length) rest = .ok later ∧
          ranges = ⟨next, next + group.length⟩ :: later := by
  cases group with
  | nil => simp [groupRanges]
  | cons index members =>
      simp only [groupRanges]
      cases hstop : groupStop next (index :: members) with
      | error fault =>
          have hno : ¬ (index :: members) = List.range' next (index :: members).length := fun h => by
            cases hstop.symm.trans (groupStop_eq_ok_iff.2 ⟨h, rfl⟩)
          simp only [bind, Except.bind, reduceCtorEq, hno, false_and, and_false]
      | ok stop =>
          obtain ⟨hgroup, rfl⟩ := groupStop_eq_ok_iff.1 hstop
          simp only [bind, Except.bind, ← hgroup, ne_eq, reduceCtorEq, not_false_eq_true, true_and]
          cases groupRanges total (next + (index :: members).length) rest with
          | error fault => simp
          | ok later => simp [pure, Except.pure, eq_comm]

theorem groupRanges_tiles {total next : Nat} {groups : List (List Nat)} {ranges : List Range}
    (h : groupRanges total next groups = .ok ranges) : Tiles next total ranges := by
  induction groups generalizing next ranges with
  | nil =>
      unfold groupRanges at h
      split at h
      next heq =>
        cases h
        exact heq
      next => cases h
  | cons group rest ih =>
      obtain ⟨hne, -, later, hlater, rfl⟩ := groupRanges_cons_eq_ok_iff.1 h
      have hpos := List.length_pos_iff.2 hne
      exact ⟨rfl, by simp only; omega, ih hlater⟩

/-- Ranges that are accepted list the members of their groups, and the groups list all indices once,
ascending. -/
theorem groupRanges_eq_ok {total next : Nat} {groups : List (List Nat)} {ranges : List Range}
    (h : groupRanges total next groups = .ok ranges) :
    [] ∉ groups ∧ groups.flatten = List.range' next (total - next) ∧
      ranges.map Range.indices = groups := by
  induction groups generalizing next ranges with
  | nil =>
      unfold groupRanges at h
      split at h
      next heq =>
        cases h
        simp [heq]
      next => cases h
  | cons group rest ih =>
      obtain ⟨hne, hgroup, later, hlater, rfl⟩ := groupRanges_cons_eq_ok_iff.1 h
      obtain ⟨hnil, hflatten, hindices⟩ := ih hlater
      have hle := (groupRanges_tiles hlater).le
      have hjoin : List.range' next group.length ++
          List.range' (next + group.length) (total - (next + group.length)) =
            List.range' next (total - next) := by
        rw [List.range'_append_1]
        congr 1
        omega
      refine ⟨by simp [hnil, hne.symm], ?_, ?_⟩
      · rwa [List.flatten_cons, hflatten, hgroup, List.length_range']
      · rw [List.map_cons, hindices, Range.indices]
        dsimp only
        rw [Nat.add_sub_cancel_left, ← hgroup]

theorem exists_groupRanges {total next : Nat} {groups : List (List Nat)} (hle : next ≤ total)
    (hnil : [] ∉ groups) (hflatten : groups.flatten = List.range' next (total - next)) :
    ∃ ranges, groupRanges total next groups = .ok ranges := by
  have hlength := congrArg List.length hflatten
  rw [List.length_range'] at hlength
  induction groups generalizing next with
  | nil =>
      rw [List.flatten_nil, List.length_nil] at hlength
      exact ⟨[], by rw [groupRanges, if_pos (by omega)]⟩
  | cons group rest ih =>
      rw [List.flatten_cons, List.length_append] at hlength
      have hsplit : List.range' next group.length ++
          List.range' (next + group.length) (total - (next + group.length)) =
            group ++ rest.flatten := by
        rw [← List.flatten_cons, hflatten, List.range'_append_1]
        congr 1
        omega
      obtain ⟨hgroup, hrest⟩ := List.append_inj hsplit (by simp)
      obtain ⟨later, hlater⟩ := ih (by omega) (fun h => hnil (List.mem_cons_of_mem _ h)) hrest.symm
        (by omega)
      have hne : group ≠ [] := fun h => hnil (h ▸ List.mem_cons_self)
      exact ⟨_, groupRanges_cons_eq_ok_iff.2 ⟨hne, hgroup.symm, later, hlater, rfl⟩⟩

theorem ranges_tiles {plan : Plan} {ranges : List Range} (h : plan.ranges = .ok ranges) :
    Tiles 0 plan.size ranges := by
  unfold Plan.ranges at h
  split at h
  · cases h
    have := Tiles.singletons 0 plan.size
    rwa [Nat.zero_add, ← List.range_eq_range'] at this
  · exact groupRanges_tiles h

/-! ## Edges -/

theorem mem_serialEdges {ranges : List Range} {e : Nat × Nat} :
    e ∈ serialEdges ranges ↔
      ∃ range ∈ ranges, range.start < e.2 ∧ e.2 < range.stop ∧ e.1 + 1 = e.2 := by
  simp only [serialEdges, List.mem_flatMap, List.mem_map, List.mem_range'_1]
  constructor
  · rintro ⟨range, hrange, i, hi, rfl⟩
    exact ⟨range, hrange, by omega, by omega, by simp only; omega⟩
  · rintro ⟨range, hrange, hstart, hstop, hnext⟩
    exact ⟨range, hrange, e.2, by omega, Prod.ext (by simp only; omega) rfl⟩

theorem mem_feedEdges {plan : Plan} {e : Nat × Nat} :
    e ∈ plan.feedEdges ↔
      ∃ p, plan.partitions[e.2]? = some p ∧ ∃ feed ∈ p.feeds.values, feed.source = e.1 := by
  simp only [feedEdges, List.mem_flatten, List.mem_mapIdx]
  constructor
  · rintro ⟨_, ⟨reader, hreader, rfl⟩, he⟩
    obtain ⟨feed, hfeed, rfl⟩ := List.mem_map.1 he
    exact ⟨_, List.getElem?_eq_getElem hreader, feed, hfeed, rfl⟩
  · rintro ⟨p, hp, feed, hfeed, hsource⟩
    obtain ⟨hreader, rfl⟩ := List.getElem?_eq_some_iff.1 hp
    refine ⟨_, ⟨e.2, hreader, rfl⟩, List.mem_map.2 ⟨feed, hfeed, ?_⟩⟩
    rw [hsource]

theorem edges_lt {plan : Plan} {ranges : List Range} (h : Tiles 0 plan.size ranges)
    {e : Nat × Nat} (he : e ∈ plan.edges ranges) : e.2 < plan.size := by
  rcases List.mem_append.1 he with he | he
  · obtain ⟨p, hp, -⟩ := mem_feedEdges.1 he
    exact (List.getElem?_eq_some_iff.1 hp).1
  · obtain ⟨range, hrange, -, hlt, -⟩ := mem_serialEdges.1 he
    exact Nat.lt_of_lt_of_le hlt (h.bounds hrange).2.2

end Plan

end Tandem
