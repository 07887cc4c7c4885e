import Tandem.Proofs.Plan.Schedule

/-!
# Which plans the check accepts

`Plan.Runnable` says without reference to the check what a plan needs: shapes that fit, references in
range, groups that cover the partitions in order, and an order of the partitions in which all waits can be
met. The check accepts these plans and no others.
-/

namespace Tandem

/-- A feed names a partition of the plan and elements of that partition's state. -/
def Feed.InRange (plan : Plan) (feed : Feed) : Prop :=
  ∃ source, plan.partitions[feed.source]? = some source ∧
    ∀ indices, feed.selection = some indices → ∀ i ∈ indices, i < source.width

namespace Plan

/-- An order of the partitions in which whatever feeds a partition comes before it, and the members of a
group come one after the other. -/
structure Orders (plan : Plan) (order : List Nat) : Prop where
  perm : order.Perm (List.range plan.size)
  feeds : ∀ (i : Nat) p, plan.partitions[i]? = some p → ∀ feed ∈ p.feeds.values,
    [feed.source, i].Sublist order
  groups : ∀ group ∈ plan.groups, group.Pairwise fun i j => [i, j].Sublist order

/-- What a plan needs to be run. -/
structure Runnable (plan : Plan) : Prop where
  timelineDepth : 0 < plan.timelineDepth
  names : plan.names.Nodup
  shapes : ∀ p ∈ plan.partitions, 0 < p.width ∧ 0 < p.depth ∧ p.initial.length = p.width
  feeds : ∀ p ∈ plan.partitions, ∀ feed ∈ p.feeds.values, feed.InRange plan
  groups : plan.groups = [] ∨ [] ∉ plan.groups ∧ plan.groups.flatten = List.range plan.size
  order : ∃ order, plan.Orders order

variable {plan : Plan}

/-! ## Partitions -/

theorem overrun?_eq_none_iff {width : Nat} {selection : Option (List Nat)} :
    overrun? width selection = none ↔
      ∀ indices, selection = some indices → ∀ i ∈ indices, i < width := by
  cases selection <;> simp [overrun?]

theorem checkFeeds_eq_ok_iff {reader : String} {entries : List (String × Feed)} :
    plan.checkFeeds reader entries = .ok () ↔ ∀ entry ∈ entries, entry.2.InRange plan := by
  induction entries with
  | nil => simp [checkFeeds]
  | cons entry rest ih =>
      obtain ⟨param, feed⟩ := entry
      rw [List.forall_mem_cons, ← ih]
      unfold Feed.InRange
      cases hsource : plan.partitions[feed.source]? with
      | none => simp [checkFeeds, partition, hsource, bind, Except.bind]
      | some source =>
          simp only [checkFeeds, partition, hsource, bind, Except.bind, Option.some.injEq,
            exists_eq_left', ← overrun?_eq_none_iff]
          cases overrun? source.width feed.selection with
          | none => simp
          | some index => simp [throw, throwThe, MonadExceptOf.throw]

theorem checkPartition_eq_ok_iff {p : PartitionPlan} :
    plan.checkPartition p = .ok () ↔
      (0 < p.width ∧ 0 < p.depth ∧ p.initial.length = p.width) ∧
        ∀ feed ∈ p.feeds.values, feed.InRange plan := by
  have hfeeds : plan.checkFeeds p.name p.feeds.entries = .ok () ↔
      ∀ feed ∈ p.feeds.values, feed.InRange plan := by
    rw [checkFeeds_eq_ok_iff, Table.values, List.forall_mem_map]
  unfold checkPartition
  split
  next hwidth => simp [hwidth]
  next hwidth =>
    split
    next hdepth => simp [hdepth]
    next hdepth =>
      split
      next hinitial => simp [hinitial]
      next hinitial =>
        have hshape : 0 < p.width ∧ 0 < p.depth ∧ p.initial.length = p.width :=
          ⟨Nat.pos_of_ne_zero hwidth, Nat.pos_of_ne_zero hdepth, Classical.not_not.1 hinitial⟩
        rw [hfeeds, and_iff_right hshape]

theorem checkPartitions_eq_ok_iff {seen : List String} {partitions : List PartitionPlan} :
    plan.checkPartitions seen partitions = .ok () ↔
      (partitions.map (·.name)).Nodup ∧ (∀ p ∈ partitions, p.name ∉ seen) ∧
        ∀ p ∈ partitions, plan.checkPartition p = .ok () := by
  induction partitions generalizing seen with
  | nil => simp [checkPartitions]
  | cons p rest ih =>
      rw [checkPartitions, List.map_cons, List.nodup_cons, List.forall_mem_cons, List.forall_mem_cons]
      split
      next hseen => simp [hseen]
      next hseen =>
        cases hcheck : plan.checkPartition p with
        | error fault => simp [bind, Except.bind]
        | ok _ =>
            have hfresh : (∀ q ∈ rest, q.name ∉ p.name :: seen) ↔
                p.name ∉ rest.map (·.name) ∧ ∀ q ∈ rest, q.name ∉ seen := by
              simp only [List.mem_cons, not_or, List.mem_map, not_exists, not_and, forall_and]
            simp only [bind, Except.bind, ih, hfresh, hseen, not_false_eq_true, true_and]
            tauto

/-! ## Groups -/

theorem exists_ranges_iff :
    (∃ ranges, plan.ranges = .ok ranges) ↔
      plan.groups = [] ∨ [] ∉ plan.groups ∧ plan.groups.flatten = List.range plan.size := by
  unfold Plan.ranges
  cases hgroups : plan.groups with
  | nil => simp
  | cons group rest =>
      rw [List.isEmpty_cons, if_neg (by simp), List.range_eq_range']
      constructor
      · rintro ⟨ranges, hranges⟩
        obtain ⟨hnil, hflatten, -⟩ := groupRanges_eq_ok hranges
        exact Or.inr ⟨hnil, hflatten⟩
      · rintro (hempty | ⟨hnil, hflatten⟩)
        · cases hempty
        · exact exists_groupRanges (Nat.zero_le _) hnil hflatten

/-- The groups of a plan, each partition being one of its own if the plan names none. -/
def members (plan : Plan) : List (List Nat) :=
  if plan.groups = [] then (List.range plan.size).map fun i => [i] else plan.groups

theorem ranges_indices {ranges : List Range} (h : plan.ranges = .ok ranges) :
    ranges.map Range.indices = plan.members := by
  unfold Plan.ranges at h
  unfold members
  cases hgroups : plan.groups with
  | nil =>
      simp only [hgroups, List.isEmpty_nil, if_true, Except.ok.injEq] at h
      subst h
      simp [Range.indices]
  | cons group rest =>
      rw [hgroups, List.isEmpty_cons, if_neg (by simp)] at h
      rw [if_neg (by simp)]
      exact (groupRanges_eq_ok h).2.2

/-! ## The order -/

theorem pair_sublist_of_mem {before after : List Nat} {i j : Nat} (h : i ∈ before) :
    [i, j].Sublist (before ++ j :: after) :=
  (List.singleton_sublist.2 h).append (List.singleton_sublist.2 List.mem_cons_self)

theorem mem_of_pair_sublist {before after : List Nat} {i j : Nat}
    (hnodup : (before ++ j :: after).Nodup) (h : [i, j].Sublist (before ++ j :: after)) :
    i ∈ before := by
  induction before with
  | nil =>
      have hfresh : j ∉ after := (List.nodup_cons.1 hnodup).1
      rcases List.cons_sublist_cons'.1 h with hafter | ⟨-, hafter⟩
      · exact absurd (hafter.subset (by simp)) hfresh
      · exact absurd (hafter.subset (by simp)) hfresh
  | cons first before ih =>
      rcases List.cons_sublist_cons'.1 h with hrest | ⟨rfl, -⟩
      · exact List.mem_cons_of_mem _ (ih (List.nodup_cons.1 hnodup).2 hrest)
      · exact List.mem_cons_self

theorem Orders.members {order : List Nat} (h : plan.Orders order) :
    ∀ group ∈ plan.members, group.Pairwise fun i j => [i, j].Sublist order := by
  intro group hgroup
  unfold Plan.members at hgroup
  split at hgroup
  · obtain ⟨i, -, rfl⟩ := List.mem_map.1 hgroup
    exact List.pairwise_singleton _ _
  · exact h.groups group hgroup

theorem Orders.neighbours {order : List Nat} {ranges : List Range} (h : plan.Orders order)
    (hranges : plan.ranges = .ok ranges) {range : Range} (hrange : range ∈ ranges) {i : Nat}
    (hstart : range.start ≤ i) (hstop : i + 1 < range.stop) : [i, i + 1].Sublist order := by
  have hmem : range.indices ∈ plan.members := by
    rw [← ranges_indices hranges]
    exact List.mem_map_of_mem hrange
  have hpair := List.pairwise_iff_getElem.1 (h.members _ hmem) (i - range.start)
    (i + 1 - range.start) (by simp [Range.indices]; omega) (by simp [Range.indices]; omega) (by omega)
  simp only [Range.indices, List.getElem_range'] at hpair
  rwa [show range.start + 1 * (i - range.start) = i by omega,
    show range.start + 1 * (i + 1 - range.start) = i + 1 by omega] at hpair

theorem orders_iff {ranges : List Range} {order : List Nat} (hranges : plan.ranges = .ok ranges) :
    plan.Orders order ↔
      order.Perm (List.range plan.size) ∧ Topological (plan.edges ranges) order := by
  constructor
  · intro h
    have hnodup : order.Nodup := h.perm.nodup_iff.2 List.nodup_range
    refine ⟨h.perm, fun before i after heq e he hei => ?_⟩
    subst heq hei
    refine mem_of_pair_sublist hnodup ?_
    rcases List.mem_append.1 he with he | he
    · obtain ⟨p, hp, feed, hfeed, hsource⟩ := mem_feedEdges.1 he
      exact hsource ▸ h.feeds e.2 p hp feed hfeed
    · obtain ⟨range, hrange, hstart, hstop, hnext⟩ := mem_serialEdges.1 he
      have hpair : [e.1, e.1 + 1].Sublist (before ++ e.2 :: after) :=
        h.neighbours hranges hrange (by omega) (by omega)
      rwa [hnext] at hpair
  · rintro ⟨hperm, htopological⟩
    have hsplit : ∀ i < plan.size, ∃ before after, order = before ++ i :: after := fun i hi =>
      List.append_of_mem (hperm.mem_iff.2 (List.mem_range.2 hi))
    refine ⟨hperm, fun i p hp feed hfeed => ?_, fun group hgroup => ?_⟩
    · obtain ⟨before, after, heq⟩ := hsplit i (List.getElem?_eq_some_iff.1 hp).1
      have hedge : (feed.source, i) ∈ plan.edges ranges :=
        List.mem_append_left _ (mem_feedEdges.2 ⟨p, hp, feed, hfeed, rfl⟩)
      rw [heq]
      exact pair_sublist_of_mem (htopological before i after heq _ hedge rfl)
    · have hmembers : group ∈ plan.members := by
        rw [Plan.members, if_neg (List.ne_nil_of_mem hgroup)]
        exact hgroup
      rw [← ranges_indices hranges] at hmembers
      obtain ⟨range, hrange, rfl⟩ := List.mem_map.1 hmembers
      refine List.Pairwise.imp_of_mem ?_ List.pairwise_lt_range'
      intro j i hj hi hlt
      have hbound := (ranges_tiles hranges).bounds hrange
      obtain ⟨before, after, heq⟩ := hsplit i (by have := Range.mem_indices.1 hi; omega)
      have hmem := htopological.serial_mem before i after heq range hrange hi j hj hlt
      rw [heq]
      exact pair_sublist_of_mem hmem

/-! ## The check -/

theorem check_eq_ok_iff :
    plan.check = .ok () ↔ plan.timelineDepth ≠ 0 ∧
      plan.checkPartitions [] plan.partitions = .ok () ∧
      ∃ ranges, plan.ranges = .ok ranges ∧ ∃ order, plan.order ranges = .ok order := by
  unfold check schedule
  by_cases hdepth : plan.timelineDepth = 0
  · simp [hdepth, bind, Except.bind]
  · simp only [hdepth, if_false, bind, Except.bind, pure, Except.pure]
    cases plan.checkPartitions [] plan.partitions with
    | error fault => simp
    | ok _ =>
        cases plan.ranges with
        | error fault => simp
        | ok ranges =>
            cases horder : plan.order ranges with
            | error fault => simp [horder]
            | ok order => simp [horder, hdepth]

/-- The check accepts the runnable plans, and the ranges of one that it accepts tile the partitions, each
of the size of its group. -/
theorem check_eq_ok_iff_runnable (plan : Plan) :
    (plan.check = .ok () ↔ plan.Runnable) ∧
      (plan.check = .ok () → ∃ ranges, plan.ranges = .ok ranges ∧ Tiles 0 plan.size ranges ∧
        ranges.map Range.size =
          if plan.groups = [] then List.replicate plan.size 1 else plan.groups.map List.length) := by
  have hpartitions : plan.checkPartitions [] plan.partitions = .ok () ↔ plan.names.Nodup ∧
      (∀ p ∈ plan.partitions, 0 < p.width ∧ 0 < p.depth ∧ p.initial.length = p.width) ∧
      ∀ p ∈ plan.partitions, ∀ feed ∈ p.feeds.values, feed.InRange plan := by
    simp only [checkPartitions_eq_ok_iff, checkPartition_eq_ok_iff, List.not_mem_nil,
      not_false_eq_true, implies_true, true_and, forall_and, names]
  have horder : ∀ ranges, plan.ranges = .ok ranges →
      ((∃ order, plan.order ranges = .ok order) ↔ ∃ order, plan.Orders order) := by
    intro ranges hranges
    have htiles := ranges_tiles hranges
    rw [exists_order_iff fun e he => edges_lt htiles he]
    exact exists_congr fun order => (orders_iff hranges).symm
  refine ⟨?_, fun h => ?_⟩
  · rw [check_eq_ok_iff, hpartitions]
    constructor
    · rintro ⟨hdepth, ⟨hnames, hshapes, hfeeds⟩, ranges, hranges, hfound⟩
      exact ⟨Nat.pos_of_ne_zero hdepth, hnames, hshapes, hfeeds, exists_ranges_iff.1 ⟨ranges, hranges⟩,
        (horder ranges hranges).1 hfound⟩
    · intro h
      obtain ⟨ranges, hranges⟩ := exists_ranges_iff.2 h.groups
      exact ⟨Nat.ne_of_gt h.timelineDepth, ⟨h.names, h.shapes, h.feeds⟩, ranges, hranges,
        (horder ranges hranges).2 h.order⟩
  · obtain ⟨-, -, ranges, hranges, -⟩ := check_eq_ok_iff.1 h
    refine ⟨ranges, hranges, ranges_tiles hranges, ?_⟩
    have hsizes : ranges.map Range.size = plan.members.map List.length := by
      rw [← ranges_indices hranges, List.map_map]
      exact List.map_congr_left fun range _ => by simp [Range.indices, Range.size]
    rw [hsizes, members]
    split
    · simp [Function.comp_def]
    · rfl

/-- Two groups; the first partition takes in an element of the last. -/
def lateSourcePlan : Plan where
  partitions := [
    ⟨"reader", .empty, .ofList [("level", ⟨2, some [1]⟩)], [0], 0, 1, 1⟩,
    ⟨"middle", .empty, ∅, [3], 0, 1, 1⟩,
    ⟨"source", .empty, ∅, [5, 7], 0, 2, 1⟩]
  startTime := 0
  timelineDepth := 1
  groups := [[0], [1, 2]]

theorem lateSourcePlan_runnable :
    lateSourcePlan.Runnable ∧ ∃ ranges, lateSourcePlan.ranges = .ok ranges ∧ Tiles 0 3 ranges ∧
      ranges.map Range.size = [1, 2] := by
  have hcheck : lateSourcePlan.check = .ok () := rfl
  obtain ⟨hrunnable, hranges⟩ := check_eq_ok_iff_runnable lateSourcePlan
  exact ⟨hrunnable.1 hcheck, hranges hcheck⟩

end Plan

end Tandem
