import Tandem.Proofs.Plan.Groups
import Tandem.Proofs.Plan.Order

/-!
# What a schedule promises the cells of a simulation

A schedule accepted by the plan check visits every partition once. When a partition's turn comes, the
sources of all its feeds have had theirs, and so have all earlier members of its group. `Schedule.Suits`
says so of the cells of a simulation, whatever their rules, params and windows.
-/

namespace Tandem

/-- A schedule of the cells of a simulation in which all waits are met. -/
structure Schedule.Suits {ρ : Type} (schedule : Schedule) (cells : List (Cell ρ)) : Prop where
  tiles : Tiles 0 cells.length schedule.ranges
  perm : schedule.order.Perm (List.range cells.length)
  source_mem : ∀ before i after, schedule.order = before ++ i :: after →
    ∀ cell, cells[i]? = some cell → ∀ feed ∈ cell.partition.feeds.values, feed.source ∈ before
  serial_mem : ∀ before i after, schedule.order = before ++ i :: after →
    ∀ range ∈ schedule.ranges, i ∈ range.indices → ∀ j ∈ range.indices, j < i → j ∈ before

namespace Schedule.Suits

variable {ρ : Type} {schedule : Schedule} {cells : List (Cell ρ)}

theorem mem_order (h : schedule.Suits cells) {i : Nat} : i ∈ schedule.order ↔ i < cells.length := by
  rw [h.perm.mem_iff, List.mem_range]

theorem nodup_order (h : schedule.Suits cells) : schedule.order.Nodup :=
  h.perm.nodup_iff.2 List.nodup_range

theorem exists_range (h : schedule.Suits cells) {i : Nat} (hi : i < cells.length) :
    ∃ range, schedule.ranges[groupOf schedule.ranges i]? = some range ∧ i ∈ range.indices :=
  h.tiles.getElem?_groupOf (Nat.zero_le i) hi

theorem groupOf_lt (h : schedule.Suits cells) {i : Nat} (hi : i < cells.length) :
    groupOf schedule.ranges i < schedule.ranges.length := by
  obtain ⟨range, hrange, -⟩ := h.exists_range hi
  exact (List.getElem?_eq_some_iff.1 hrange).1

theorem mem_indices_iff (h : schedule.Suits cells) {g i : Nat} {range : Range}
    (hrange : schedule.ranges[g]? = some range) (hi : i < cells.length) :
    i ∈ range.indices ↔ groupOf schedule.ranges i = g := by
  constructor
  · exact h.tiles.groupOf_eq hrange
  · rintro rfl
    obtain ⟨other, hother, hmem⟩ := h.exists_range hi
    obtain rfl : range = other := Option.some.inj (hrange.symm.trans hother)
    exact hmem

theorem source_lt (h : schedule.Suits cells) {i : Nat} {cell : Cell ρ} (hcell : cells[i]? = some cell)
    {feed : Feed} (hfeed : feed ∈ cell.partition.feeds.values) : feed.source < cells.length := by
  have hi : i ∈ schedule.order := h.mem_order.2 (List.getElem?_eq_some_iff.1 hcell).1
  obtain ⟨before, after, horder⟩ := List.append_of_mem hi
  have hmem := h.source_mem before i after horder cell hcell feed hfeed
  exact h.mem_order.1 (horder ▸ List.mem_append_left _ hmem)

/-- What follows for a partition from the partitions that feed it holds of all partitions. -/
theorem feed_induction (h : schedule.Suits cells) {motive : Nat → Prop}
    (hstep : ∀ i cell, cells[i]? = some cell →
      (∀ feed ∈ cell.partition.feeds.values, motive feed.source) → motive i)
    {i : Nat} (hi : i < cells.length) : motive i := by
  have hall : ∀ after before, schedule.order = before ++ after → (∀ j ∈ before, motive j) →
      ∀ j ∈ schedule.order, motive j := by
    intro after
    induction after with
    | nil =>
        intro before horder hbefore
        rwa [horder, List.append_nil]
    | cons k after ih =>
        intro before horder hbefore
        refine ih (before ++ [k]) (by rw [horder, List.append_assoc]; rfl) fun j hj => ?_
        rcases List.mem_append.1 hj with hj | hj
        · exact hbefore j hj
        · rw [List.mem_singleton.1 hj]
          have hk : k < cells.length := h.mem_order.1 (by simp [horder])
          have hcell := List.getElem?_eq_getElem hk
          exact hstep k _ hcell fun feed hfeed =>
            hbefore _ (h.source_mem before k after horder _ hcell feed hfeed)
  exact hall schedule.order [] rfl (by simp) i (h.mem_order.2 hi)

end Schedule.Suits

theorem serial_mem_of_topological {edges : List (Nat × Nat)} {before after : List Nat}
    {range : Range} (h : Topological edges (before ++ after))
    (hserial : ∀ j, range.start ≤ j → j + 1 < range.stop → (j, j + 1) ∈ edges) {i j : Nat}
    (hi : i < range.stop) (hstart : range.start ≤ j) (hmem : i ∈ before) (hlt : j < i) :
    j ∈ before := by
  induction i generalizing j with
  | zero => omega
  | succ i ih =>
      have hprevious : i ∈ before :=
        h.mem_of_edge (e := (i, i + 1)) (hserial i (by omega) hi) hmem
      by_cases heq : j = i
      · exact heq ▸ hprevious
      · exact ih (by omega) hstart hprevious (by omega)

theorem Topological.serial_mem {plan : Plan} {ranges : List Range} {order : List Nat}
    (h : Topological (plan.edges ranges) order) (before : List Nat) (i : Nat) (after : List Nat)
    (heq : order = before ++ i :: after) (range : Range) (hrange : range ∈ ranges)
    (hi : i ∈ range.indices) (j : Nat) (hj : j ∈ range.indices) (hlt : j < i) : j ∈ before := by
  obtain ⟨hstart, hstop⟩ := Range.mem_indices.1 hi
  have hserial : ∀ k, range.start ≤ k → k + 1 < range.stop → (k, k + 1) ∈ plan.edges ranges := by
    intro k hk hnext
    exact List.mem_append_right _
      (Plan.mem_serialEdges.2 ⟨range, hrange, Nat.lt_succ_of_le hk, hnext, rfl⟩)
  have hsplit : Topological (plan.edges ranges) ((before ++ [i]) ++ after) := by
    rw [List.append_assoc]
    exact heq ▸ h
  have hmem := serial_mem_of_topological hsplit hserial hstop (Range.mem_indices.1 hj).1
    (by simp) hlt
  rcases List.mem_append.1 hmem with hmem | hmem
  · exact hmem
  · rw [List.mem_singleton] at hmem
    omega

namespace Plan

variable {ρ : Type} {plan : Plan} {schedule : Schedule}

theorem schedule_parts (h : plan.schedule = .ok schedule) :
    plan.checkPartitions [] plan.partitions = .ok () ∧ plan.ranges = .ok schedule.ranges ∧
      plan.order schedule.ranges = .ok schedule.order := by
  unfold Plan.schedule at h
  split at h
  · cases h
  cases hcheck : plan.checkPartitions [] plan.partitions with
  | error fault => simp [hcheck, bind, Except.bind] at h
  | ok _ =>
      cases hranges : plan.ranges with
      | error fault => simp [hcheck, hranges, bind, Except.bind] at h
      | ok ranges =>
          cases horder : plan.order ranges with
          | error fault => simp [hcheck, hranges, horder, bind, Except.bind] at h
          | ok order =>
              simp only [hcheck, hranges, horder, bind, Except.bind, pure, Except.pure,
                Except.ok.injEq] at h
              subst h
              exact ⟨rfl, rfl, horder⟩

theorem schedule_suits {cells : List (Cell ρ)} (h : plan.schedule = .ok schedule)
    (hfeeds : cells.map (·.partition.feeds) = plan.partitions.map (·.feeds)) :
    schedule.Suits cells := by
  obtain ⟨-, hranges, horder⟩ := schedule_parts h
  have hlength : cells.length = plan.size := by
    simpa [Plan.size] using congrArg List.length hfeeds
  have htiles := ranges_tiles hranges
  obtain ⟨hperm, htopological⟩ := order_spec (fun e he => edges_lt htiles he) horder
  refine ⟨hlength ▸ htiles, hlength ▸ hperm, ?_, ?_⟩
  · intro before i after heq cell hcell feed hfeed
    have hp : (plan.partitions.map (·.feeds))[i]? = some cell.partition.feeds := by
      rw [← hfeeds, List.getElem?_map, hcell]
      rfl
    rw [List.getElem?_map, Option.map_eq_some_iff] at hp
    obtain ⟨p, hp, hsame⟩ := hp
    have hedge : (feed.source, i) ∈ plan.edges schedule.ranges :=
      List.mem_append_left _ (mem_feedEdges.2 ⟨p, hp, feed, hsame ▸ hfeed, rfl⟩)
    exact htopological before i after heq _ hedge rfl
  · exact htopological.serial_mem

end Plan

end Tandem
