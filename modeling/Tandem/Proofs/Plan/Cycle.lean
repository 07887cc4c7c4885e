import Mathlib.Data.Fintype.EquivFin
import Mathlib.Data.Fintype.Pigeonhole
import Mathlib.Logic.Relation
import Tandem.Proofs.Plan.Runnable

/-!
# What the check says of a cycle

A partition is `Plan.Doomed` if it lies on a cycle of delays or comes after one. The sort ends with the doomed
partitions still waiting, all others done. So the partition that the check names is the first doomed one, and
because it is the first, it takes in the state of another doomed one: in its group it would come after an
earlier index.

`Sorting.Moment` lists the states of the sort between any two of its moves. In none of them a wait is counted
down that is not there, and no index gets ready a second time.
-/

namespace Tandem

open Relation (TransGen ReflTransGen)

namespace Plan

/-- Partition `j` cannot be computed before partition `i`: it takes in the state of `i`, or it is the next
member of the group of `i`. -/
def Delays (plan : Plan) (i j : Nat) : Prop :=
  (∃ p, plan.partitions[j]? = some p ∧ ∃ feed ∈ p.feeds.values, feed.source = i) ∨
    ∃ group ∈ plan.groups, [i, j] <:+: group

/-- Partition `i` lies on a cycle of delays, or comes after one. -/
def Doomed (plan : Plan) (i : Nat) : Prop :=
  ∃ c, TransGen plan.Delays c c ∧ ReflTransGen plan.Delays c i

/-- What a plan needs to be run, apart from an order in which all waits can be met. -/
structure WellFormed (plan : Plan) : Prop where
  timelineDepth : 0 < plan.timelineDepth
  names : plan.names.Nodup
  shapes : ∀ p ∈ plan.partitions, 0 < p.width ∧ 0 < p.depth ∧ p.initial.length = p.width
  feeds : ∀ p ∈ plan.partitions, ∀ feed ∈ p.feeds.values, feed.InRange plan
  groups : plan.groups = [] ∨ [] ∉ plan.groups ∧ plan.groups.flatten = List.range plan.size

variable {plan : Plan} {ranges : List Range}

theorem wellFormed_iff : plan.WellFormed ↔ plan.timelineDepth ≠ 0 ∧
    plan.checkPartitions [] plan.partitions = .ok () ∧ ∃ ranges, plan.ranges = .ok ranges := by
  simp only [checkPartitions_eq_ok_iff, checkPartition_eq_ok_iff, exists_ranges_iff, List.not_mem_nil,
    not_false_eq_true, implies_true, true_and, forall_and]
  constructor
  · rintro ⟨hdepth, hnames, hshapes, hfeeds, hgroups⟩
    simp only [forall_and] at hshapes
    exact ⟨Nat.ne_of_gt hdepth, ⟨hnames, hshapes, hfeeds⟩, hgroups⟩
  · rintro ⟨hdepth, ⟨hnames, hshapes, hfeeds⟩, hgroups⟩
    exact ⟨Nat.pos_of_ne_zero hdepth, hnames,
      fun p hp => ⟨hshapes.1 p hp, hshapes.2.1 p hp, hshapes.2.2 p hp⟩, hfeeds, hgroups⟩

theorem exists_order_iff_orders (hranges : plan.ranges = .ok ranges) :
    (∃ order, plan.order ranges = .ok order) ↔ ∃ order, plan.Orders order := by
  rw [exists_order_iff fun e he => edges_lt (ranges_tiles hranges) he]
  exact exists_congr fun order => (orders_iff hranges).symm

theorem check_eq_ok_iff_ordered : plan.check = .ok () ↔ plan.WellFormed ∧ ∃ order, plan.Orders order := by
  rw [check_eq_ok_iff, wellFormed_iff]
  constructor
  · rintro ⟨hdepth, hpartitions, ranges, hranges, horder⟩
    exact ⟨⟨hdepth, hpartitions, ranges, hranges⟩, (exists_order_iff_orders hranges).1 horder⟩
  · rintro ⟨⟨hdepth, hpartitions, ranges, hranges⟩, horder⟩
    exact ⟨hdepth, hpartitions, ranges, hranges, (exists_order_iff_orders hranges).2 horder⟩

/-! ## Delays and edges -/

theorem pair_infix_range'_iff {start count i j : Nat} :
    [i, j] <:+: List.range' start count ↔ start ≤ i ∧ i + 1 = j ∧ j < start + count := by
  constructor
  · rintro ⟨before, after, heq⟩
    have hlength := congrArg List.length heq
    have hfirst := congrArg (·[before.length]?) heq
    have hsecond := congrArg (·[before.length + 1]?) heq
    simp only [List.append_assoc, List.length_append, List.length_cons, List.length_nil,
      List.length_range'] at hlength
    rw [List.append_assoc] at hfirst hsecond
    rw [List.getElem?_append_right (by omega), List.getElem?_range' (by omega)] at hfirst hsecond
    simp at hfirst hsecond
    omega
  · rintro ⟨hstart, rfl, hlt⟩
    refine ⟨List.range' start (i - start), List.range' (i + 2) (start + count - (i + 2)), ?_⟩
    have hpair : [i, i + 1] = List.range' (start + (i - start)) 2 := by
      rw [Nat.add_sub_cancel' hstart]
      rfl
    have hrest : i + 2 = start + (i - start + 2) := by omega
    rw [hpair, List.range'_append_1, hrest, List.range'_append_1]
    congr 1
    omega

theorem mem_serialEdges_iff (hranges : plan.ranges = .ok ranges) {i j : Nat} :
    (i, j) ∈ serialEdges ranges ↔ ∃ group ∈ plan.groups, [i, j] <:+: group := by
  have hmembers : (∃ group ∈ plan.groups, [i, j] <:+: group) ↔
      ∃ group ∈ plan.members, [i, j] <:+: group := by
    unfold members
    split
    next hnone =>
      simp only [hnone, List.not_mem_nil, false_and, exists_false, List.mem_map, false_iff]
      rintro ⟨_, ⟨k, -, rfl⟩, hinfix⟩
      have := hinfix.length_le
      simp at this
    next => exact Iff.rfl
  rw [hmembers, ← ranges_indices hranges, mem_serialEdges]
  simp only [List.mem_map, exists_exists_and_eq_and, Range.indices, pair_infix_range'_iff]
  refine exists_congr fun range => and_congr_right fun _ => ?_
  omega

theorem mem_edges_iff (hranges : plan.ranges = .ok ranges) {i j : Nat} :
    (i, j) ∈ plan.edges ranges ↔ plan.Delays i j := by
  rw [edges, List.mem_append, mem_feedEdges, mem_serialEdges_iff hranges, Delays]

end Plan

/-! ## What the sort leaves behind -/

/-- Where whoever waits has somebody waiting right before it, a cycle comes before whoever waits. -/
theorem exists_cycle_before {r : Nat → Nat → Prop} {waiting : Nat → Prop} {size : Nat}
    (hlt : ∀ i, waiting i → i < size) (hbefore : ∀ i, waiting i → ∃ j, waiting j ∧ r j i) {i : Nat}
    (hi : waiting i) : ∃ c, TransGen r c c ∧ ReflTransGen r c i := by
  choose! back hback using hbefore
  -- going back from `i` again and again comes to some index twice
  have hwaiting : ∀ k, waiting (back^[k] i) := by
    intro k
    induction k with
    | zero => exact hi
    | succ k ih =>
        rw [Function.iterate_succ_apply']
        exact (hback _ ih).1
  have hpath : ∀ k l, ReflTransGen r (back^[k + l] i) (back^[k] i) := by
    intro k l
    induction l with
    | zero => exact .refl
    | succ l ih =>
        rw [← Nat.add_assoc, Function.iterate_succ_apply']
        exact .head (hback _ (hwaiting _)).2 ih
  have hloop : ∀ k l, k < l → back^[k] i = back^[l] i → TransGen r (back^[k] i) (back^[k] i) := by
    intro k l hkl heq
    obtain ⟨n, rfl⟩ := Nat.exists_eq_add_of_lt hkl
    have hstep : r (back^[k + n + 1] i) (back^[k + n] i) := by
      rw [Function.iterate_succ_apply']
      exact (hback _ (hwaiting _)).2
    exact .head' (heq ▸ hstep) (hpath k n)
  obtain ⟨k, l, hne, hsame⟩ := Finite.exists_ne_map_eq_of_infinite
    fun k => (⟨back^[k] i, hlt _ (hwaiting k)⟩ : Fin size)
  have heq : back^[k] i = back^[l] i := congrArg Fin.val hsame
  have hdown : ∀ k, ReflTransGen r (back^[k] i) i := fun k => by simpa using hpath 0 k
  rcases Nat.lt_or_gt_of_ne hne with hkl | hlk
  · exact ⟨_, hloop k l hkl heq, hdown k⟩
  · exact ⟨_, hloop l k hlk heq.symm, hdown l⟩

namespace Topological

variable {edges : List (Nat × Nat)} {order : List Nat} {i j : Nat}

theorem idxOf_lt (h : Topological edges order) (hedge : (i, j) ∈ edges) (hj : j ∈ order) :
    i ∈ order ∧ order.idxOf i < order.idxOf j := by
  obtain ⟨before, after, rfl, hfresh⟩ := List.eq_append_cons_of_mem hj
  have hi : i ∈ before := h before j after rfl _ hedge rfl
  refine ⟨List.mem_append_left _ hi, ?_⟩
  rw [List.idxOf_append_of_mem hi, List.idxOf_append_of_notMem hfresh, List.idxOf_cons_self]
  exact List.idxOf_lt_length_of_mem hi

theorem mem_of_path (h : Topological edges order)
    (hpath : ReflTransGen (fun i j => (i, j) ∈ edges) i j) (hj : j ∈ order) : i ∈ order := by
  induction hpath with
  | refl => exact hj
  | tail _ hedge ih => exact ih (h.idxOf_lt hedge hj).1

theorem idxOf_lt_of_path (h : Topological edges order)
    (hpath : TransGen (fun i j => (i, j) ∈ edges) i j) (hj : j ∈ order) :
    order.idxOf i < order.idxOf j := by
  induction hpath with
  | single hedge => exact (h.idxOf_lt hedge hj).2
  | tail _ hedge ih =>
      obtain ⟨hmem, hlt⟩ := h.idxOf_lt hedge hj
      exact Nat.lt_trans (ih hmem) hlt

end Topological

namespace Sorting

variable {size : Nat} {edges : List (Nat × Nat)} {sorting : Sorting} {i : Nat}

theorem ready_finish (hedges : ∀ e ∈ edges, e.2 < size) : (finish size edges).ready = [] := by
  rcases drain_ends hedges size (sound_start size edges) with hready | hlength
  · exact hready
  · have hsound := sound_finish hedges
    have hperm := hsound.perm_range (by simpa [finish, start] using hlength)
    refine List.eq_nil_iff_forall_not_mem.2 fun i hi => ?_
    obtain ⟨hlt, -, hundone⟩ := (hsound.ready i).1 hi
    exact hundone (hperm.mem_iff.2 (List.mem_range.2 hlt))

theorem Sound.waitsOf_pos_iff (h : Sound size edges sorting) (hready : sorting.ready = []) (hi : i < size) :
    0 < sorting.waitsOf i ↔ i ∉ sorting.done := by
  constructor
  · intro hpos hdone
    rw [h.waits i hi, List.countP_pos_iff] at hpos
    obtain ⟨e, he, hwaits⟩ := hpos
    obtain ⟨rfl, hundone⟩ := of_decide_eq_true hwaits
    exact hundone (List.mem_reverse.1 (h.topological.idxOf_lt he (List.mem_reverse.2 hdone)).1)
  · intro hundone
    refine Nat.pos_of_ne_zero fun hzero => ?_
    have hmem := (h.ready i).2 ⟨hi, hzero, hundone⟩
    rw [hready] at hmem
    cases hmem

theorem not_mem_done_finish_iff (hedges : ∀ e ∈ edges, e.1 < size ∧ e.2 < size) (hi : i < size) :
    i ∉ (finish size edges).done ↔
      ∃ c, TransGen (fun i j => (i, j) ∈ edges) c c ∧ ReflTransGen (fun i j => (i, j) ∈ edges) c i := by
  have hsound := sound_finish fun e he => (hedges e he).2
  have hready := ready_finish fun e he => (hedges e he).2
  constructor
  · intro hundone
    refine @exists_cycle_before _ (fun i => i < size ∧ i ∉ (finish size edges).done) size
      (fun i hi => hi.1) (fun i hwaiting => ?_) i ⟨hi, hundone⟩
    by_contra hnone
    push Not at hnone
    refine hwaiting.2 (hsound.mem_done_of_ready_eq_nil hready hwaiting.1 fun e he hei => ?_)
    subst hei
    by_contra hbefore
    exact hnone e.1 ⟨(hedges e he).1, hbefore⟩ he
  · rintro ⟨c, hcycle, hpath⟩ hdone
    have hmem := hsound.topological.mem_of_path hpath (List.mem_reverse.2 hdone)
    exact Nat.lt_irrefl _ (hsound.topological.idxOf_lt_of_path hcycle hmem)

theorem stuck?_eq_some (h : sorting.stuck? = some i) :
    i < sorting.waits.length ∧ 0 < sorting.waitsOf i ∧ ∀ j < i, sorting.waitsOf j = 0 := by
  obtain ⟨hi, hpos, hfirst⟩ := List.findIdx?_eq_some_iff_getElem.1 h
  refine ⟨hi, ?_, fun j hj => ?_⟩
  · simpa [waitsOf, hi] using hpos
  · simpa [waitsOf, Nat.lt_trans hj hi] using hfirst j hj

theorem stuck?_eq_none (h : sorting.stuck? = none) (hi : i < sorting.waits.length) :
    sorting.waitsOf i = 0 := by
  have := List.findIdx?_eq_none_iff.1 h _ (List.getElem_mem hi)
  simpa [waitsOf, hi] using this

end Sorting

namespace Plan

variable {plan : Plan} {ranges : List Range}

theorem order_eq_error (hedges : ∀ e ∈ plan.edges ranges, e.2 < plan.size)
    (hnone : ¬ ∃ order, plan.order ranges = .ok order) :
    ∃ i p, plan.partitions[i]? = some p ∧ plan.order ranges = .error (.feedCycle p.name) ∧
      (Sorting.finish plan.size (plan.edges ranges)).stuck? = some i := by
  have hsound := Sorting.sound_finish hedges
  have hready := Sorting.ready_finish hedges
  simp only [order] at hnone ⊢
  split at hnone
  next => exact absurd ⟨_, rfl⟩ hnone
  next hlength =>
    rw [if_neg hlength]
    cases hstuck : (Sorting.finish plan.size (plan.edges ranges)).stuck? with
    | none =>
        have hall : List.range plan.size ⊆ (Sorting.finish plan.size (plan.edges ranges)).done := by
          intro i hi
          have hi := List.mem_range.1 hi
          by_contra hundone
          have hpos := (hsound.waitsOf_pos_iff hready hi).2 hundone
          have hlt : i < (Sorting.finish plan.size (plan.edges ranges)).waits.length := by rwa [hsound.length]
          rw [Sorting.stuck?_eq_none hstuck hlt] at hpos
          cases hpos
        have hle := (List.subperm_of_subset List.nodup_range hall).length_le
        rw [List.length_range] at hle
        exact absurd (Nat.le_antisymm hsound.length_done_le hle) hlength
    | some i =>
        have hi := (Sorting.stuck?_eq_some hstuck).1
        rw [hsound.length] at hi
        obtain ⟨p, hp⟩ : ∃ p, plan.partitions[i]? = some p := ⟨_, List.getElem?_eq_getElem hi⟩
        exact ⟨i, p, hp, by rw [Option.getD_some, hp], rfl⟩

theorem Doomed.exists_before {i : Nat} (h : plan.Doomed i) : ∃ j, plan.Doomed j ∧ plan.Delays j i := by
  obtain ⟨c, hcycle, hpath⟩ := h
  rcases ReflTransGen.cases_tail hpath with rfl | ⟨j, hpath, hdelays⟩
  · obtain ⟨j, hpath, hdelays⟩ := TransGen.tail'_iff.1 hcycle
    exact ⟨j, ⟨i, hcycle, hpath⟩, hdelays⟩
  · exact ⟨j, ⟨c, hcycle, hpath⟩, hdelays⟩

end Plan

/-! ## The sort, move by move -/

namespace Sorting

/-- Where a sort can stand between two of its moves, after so many pops: which indices have got ready up to
now, the latest first, and which followers of the index that was popped last are still to be released. -/
inductive Moment (size : Nat) (edges : List (Nat × Nat)) : Nat → List Nat → Sorting → List Nat → Prop
  | start : Moment size edges 0 (start size edges).ready (start size edges) []
  | pop {pops : Nat} {readied ready : List Nat} {sorting : Sorting} {index : Nat}
      (h : Moment size edges pops readied sorting []) (hready : sorting.ready = index :: ready) :
      Moment size edges (pops + 1) readied { sorting with ready := ready, done := index :: sorting.done }
        (followersOf edges index)
  | release {pops : Nat} {readied pending : List Nat} {sorting : Sorting} {index : Nat}
      (h : Moment size edges pops readied sorting (index :: pending)) :
      Moment size edges pops
        (if (sorting.release index).ready = sorting.ready then readied else index :: readied)
        (sorting.release index) pending

variable {size pops : Nat} {edges : List (Nat × Nat)} {readied pending : List Nat} {sorting : Sorting}

theorem Moment.releases (h : Moment size edges pops readied sorting pending) :
    ∃ readied, Moment size edges pops readied (pending.foldl Sorting.release sorting) [] := by
  induction pending generalizing readied sorting with
  | nil => exact ⟨readied, h⟩
  | cons index rest ih => exact ih h.release

theorem Moment.drain (fuel : Nat) (h : Moment size edges pops readied sorting []) :
    ∃ more ≤ fuel, ∃ readied,
      Moment size edges (pops + more) readied (Sorting.drain edges fuel sorting) [] := by
  induction fuel generalizing pops readied sorting with
  | zero => exact ⟨0, Nat.le_refl 0, readied, h⟩
  | succ fuel ih =>
      unfold Sorting.drain
      cases hpop : sorting.pop edges with
      | none => exact ⟨0, Nat.zero_le _, readied, h⟩
      | some next =>
          obtain ⟨index, ready, hready, rfl⟩ := pop_eq_some hpop
          obtain ⟨readied, hnext⟩ := (h.pop hready).releases
          obtain ⟨more, hle, hmore⟩ := ih hnext
          exact ⟨1 + more, by omega, by rwa [← Nat.add_assoc]⟩

/-- What holds of a sort at every moment: an index waits for its undone predecessors and for the releases that
are still to come, and the indices that have got ready are ready or done, each of them once. -/
structure Moment.Sound (size : Nat) (edges : List (Nat × Nat)) (pops : Nat) (readied : List Nat)
    (sorting : Sorting) (pending : List Nat) : Prop where
  length : sorting.waits.length = size
  pendingLt : ∀ i ∈ pending, i < size
  waits : ∀ i < size, sorting.waitsOf i =
    edges.countP (fun e => e.2 = i ∧ e.1 ∉ sorting.done) + pending.count i
  settled : ∀ i ∈ sorting.ready ++ sorting.done, i < size ∧ sorting.waitsOf i = 0
  nodup : readied.Nodup
  perm : readied.Perm (sorting.ready ++ sorting.done)
  popped : sorting.done.length = pops

namespace Moment.Sound

variable {index : Nat}

theorem pop {ready : List Nat} (h : Moment.Sound size edges pops readied sorting [])
    (hedges : ∀ e ∈ edges, e.2 < size) (hready : sorting.ready = index :: ready) :
    Moment.Sound size edges (pops + 1) readied
      { sorting with ready := ready, done := index :: sorting.done } (followersOf edges index) := by
  have hperm : (sorting.ready ++ sorting.done).Perm (ready ++ index :: sorting.done) := by
    rw [hready]
    exact List.perm_middle.symm
  have hundone : index ∉ sorting.done := by
    have hnodup := h.perm.nodup_iff.1 h.nodup
    rw [hready, List.cons_append] at hnodup
    exact fun hmem => (List.nodup_cons.1 hnodup).1 (List.mem_append_right _ hmem)
  constructor
  case length => exact h.length
  case pendingLt =>
    intro i hi
    obtain ⟨e, he, rfl⟩ := List.mem_map.1 hi
    exact hedges e (List.mem_filter.1 he).1
  case waits =>
    intro i hi
    have hbefore := h.waits i hi
    rw [List.count_nil, Nat.add_zero, countP_undone edges hundone] at hbefore
    exact hbefore
  case settled => exact fun i hi => h.settled i (hperm.mem_iff.2 hi)
  case nodup => exact h.nodup
  case perm => exact h.perm.trans hperm
  case popped => exact congrArg (· + 1) h.popped

theorem waitsOf_pos (h : Moment.Sound size edges pops readied sorting (index :: pending)) :
    0 < sorting.waitsOf index := by
  rw [h.waits index (h.pendingLt index List.mem_cons_self), List.count_cons_self]
  omega

theorem release (h : Moment.Sound size edges pops readied sorting (index :: pending)) :
    Moment.Sound size edges pops
      (if (sorting.release index).ready = sorting.ready then readied else index :: readied)
      (sorting.release index) pending := by
  have hlt : index < size := h.pendingLt index List.mem_cons_self
  have hwaits := waitsOf_release sorting (h.length.symm ▸ hlt)
  have hunsettled : index ∉ sorting.ready ++ sorting.done := fun hmem =>
    Nat.ne_of_gt h.waitsOf_pos (h.settled index hmem).2
  have hready : (sorting.release index).ready = sorting.ready ∨
      (sorting.release index).ready = index :: sorting.ready ∧ (sorting.release index).waitsOf index = 0 := by
    rw [hwaits, if_pos rfl]
    simp only [Sorting.release]
    split
    next hleft => exact Or.inr ⟨rfl, hleft⟩
    next => exact Or.inl rfl
  have hkept : ∀ i ∈ sorting.ready ++ sorting.done, i < size ∧ (sorting.release index).waitsOf i = 0 := by
    intro i hi
    obtain ⟨hi, hzero⟩ := h.settled i hi
    exact ⟨hi, by rw [hwaits, hzero, Nat.zero_sub]⟩
  have hlast : ∀ i < size, (sorting.release index).waitsOf i =
      edges.countP (fun e => e.2 = i ∧ e.1 ∉ sorting.done) + pending.count i := by
    intro i hi
    rw [hwaits, h.waits i hi, List.count_cons]
    by_cases heq : i = index
    · simp [heq]
    · simp [heq, Ne.symm heq]
  rcases hready with hsame | ⟨hnew, hzero⟩
  · rw [if_pos hsame]
    refine ⟨by simpa using h.length, fun i hi => h.pendingLt i (List.mem_cons_of_mem _ hi), hlast, ?_,
      h.nodup, ?_, h.popped⟩
    · rw [hsame]
      exact hkept
    · rw [hsame]
      exact h.perm
  · rw [if_neg (by simp [hnew])]
    refine ⟨by simpa using h.length, fun i hi => h.pendingLt i (List.mem_cons_of_mem _ hi), hlast, ?_,
      List.nodup_cons.2 ⟨fun hmem => hunsettled (h.perm.mem_iff.1 hmem), h.nodup⟩, ?_, h.popped⟩
    · rw [hnew]
      exact List.forall_mem_cons.2 ⟨⟨hlt, hzero⟩, hkept⟩
    · rw [hnew]
      exact h.perm.cons index

end Moment.Sound

theorem Moment.sound (hedges : ∀ e ∈ edges, e.2 < size)
    (h : Moment size edges pops readied sorting pending) :
    Moment.Sound size edges pops readied sorting pending := by
  induction h with
  | start =>
      have hsound := sound_start size edges
      refine ⟨hsound.length, by simp, fun i hi => ?_, fun i hi => ?_, hsound.readyNodup, ?_, rfl⟩
      · rw [hsound.waits i hi, List.count_nil, Nat.add_zero]
      · obtain ⟨hlt, hzero, -⟩ := (hsound.ready i).1 (by simpa [Sorting.start] using hi)
        exact ⟨hlt, hzero⟩
      · simp [Sorting.start]
  | pop _ hready ih => exact ih.pop hedges hready
  | release _ ih => exact ih.release

theorem Moment.pops_le (hedges : ∀ e ∈ edges, e.2 < size)
    (h : Moment size edges pops readied sorting pending) : pops ≤ size := by
  have hsound := h.sound hedges
  have hnodup := (List.nodup_append.1 (hsound.perm.nodup_iff.1 hsound.nodup)).2.1
  have hsubset : sorting.done ⊆ List.range size := fun i hi =>
    List.mem_range.2 (hsound.settled i (List.mem_append_right _ hi)).1
  have hle := (List.subperm_of_subset hnodup hsubset).length_le
  rwa [List.length_range, hsound.popped] at hle

end Sorting

/-! ## The report -/

namespace Plan

variable {plan : Plan} {ranges : List Range}

theorem edges_inside (hfeeds : ∀ p ∈ plan.partitions, ∀ feed ∈ p.feeds.values, feed.InRange plan)
    (hranges : plan.ranges = .ok ranges) {e : Nat × Nat} (he : e ∈ plan.edges ranges) :
    e.1 < plan.size ∧ e.2 < plan.size := by
  have hreader := edges_lt (ranges_tiles hranges) he
  refine ⟨?_, hreader⟩
  rcases List.mem_append.1 he with he | he
  · obtain ⟨p, hp, feed, hfeed, hsource⟩ := mem_feedEdges.1 he
    obtain ⟨source, hfound, -⟩ := hfeeds p (List.mem_of_getElem? hp) feed hfeed
    exact hsource ▸ (List.getElem?_eq_some_iff.1 hfound).1
  · obtain ⟨range, -, -, -, hnext⟩ := mem_serialEdges.1 he
    omega

theorem check_eq_error_of_order (hdepth : plan.timelineDepth ≠ 0)
    (hpartitions : plan.checkPartitions [] plan.partitions = .ok ()) (hranges : plan.ranges = .ok ranges)
    {fault : Fault} (horder : plan.order ranges = .error fault) : plan.check = .error fault := by
  simp only [check, schedule, hdepth, if_false, hpartitions, hranges, horder, bind, Except.bind]

/-- The first doomed partition takes in the state of a doomed one: the member before it in its group, if there
is one, is not doomed. -/
theorem exists_doomed_source {i : Nat} {p : PartitionPlan} (hranges : plan.ranges = .ok ranges)
    (hp : plan.partitions[i]? = some p) (hdoomed : plan.Doomed i) (hfirst : ∀ j < i, ¬ plan.Doomed j) :
    ∃ feed ∈ p.feeds.values, plan.Doomed feed.source := by
  obtain ⟨j, hj, hfed | hserial⟩ := hdoomed.exists_before
  · obtain ⟨found, hfound, feed, hfeed, rfl⟩ := hfed
    obtain rfl := Option.some.inj (hp.symm.trans hfound)
    exact ⟨feed, hfeed, hj⟩
  · obtain ⟨range, -, -, -, hnext⟩ := mem_serialEdges.1 ((mem_serialEdges_iff hranges).2 hserial)
    have hlt : j < i := by simp only at hnext; omega
    exact absurd hj (hfirst j hlt)

/-- A plan in which all is well but the order is turned down with the name of its first doomed partition,
which takes in the state of a doomed one. In any sort no partition gets ready twice, and a wait is counted
down only where one is left. -/
theorem cycle_report_names_first_doomed (plan : Plan) :
    (plan.WellFormed → (¬ ∃ order, plan.Orders order) →
      ∃ i p, plan.partitions[i]? = some p ∧ plan.check = .error (.feedCycle p.name) ∧
        plan.Doomed i ∧ (∀ j < i, ¬ plan.Doomed j) ∧
        ∃ feed ∈ p.feeds.values, plan.Doomed feed.source) ∧
    ((∀ p ∈ plan.partitions, ∀ feed ∈ p.feeds.values, feed.InRange plan) →
      (plan.groups = [] ∨ [] ∉ plan.groups ∧ plan.groups.flatten = List.range plan.size) →
      ∃ ranges, plan.ranges = .ok ranges ∧
        (∀ e ∈ plan.edges ranges, e.1 < plan.size ∧ e.2 < plan.size) ∧
        let sorted := Sorting.finish plan.size (plan.edges ranges)
        (∃ pops ≤ plan.size, ∃ readied,
          Sorting.Moment plan.size (plan.edges ranges) pops readied sorted []) ∧
        sorted.pop (plan.edges ranges) = none ∧
        ∀ pops readied sorting pending,
          Sorting.Moment plan.size (plan.edges ranges) pops readied sorting pending →
            pops ≤ plan.size ∧ readied.Nodup ∧ ∀ index rest, pending = index :: rest →
              index < sorting.waits.length ∧ 0 < sorting.waitsOf index) := by
  constructor
  · intro hwell hnone
    obtain ⟨hdepth, hpartitions, ranges, hranges⟩ := wellFormed_iff.1 hwell
    have hinside : ∀ e ∈ plan.edges ranges, e.1 < plan.size ∧ e.2 < plan.size :=
      fun e he => edges_inside hwell.feeds hranges he
    have hedges : ∀ e ∈ plan.edges ranges, e.2 < plan.size := fun e he => (hinside e he).2
    have hunordered : ¬ ∃ order, plan.order ranges = .ok order :=
      fun horder => hnone ((exists_order_iff_orders hranges).1 horder)
    obtain ⟨i, p, hp, horder, hstuck⟩ := order_eq_error hedges hunordered
    obtain ⟨hlt, hwaits, hearlier⟩ := Sorting.stuck?_eq_some hstuck
    have hsound := Sorting.sound_finish hedges
    rw [hsound.length] at hlt
    have hdelays : (fun i j => (i, j) ∈ plan.edges ranges) = plan.Delays :=
      funext₂ fun i j => propext (mem_edges_iff hranges)
    have hiff : ∀ j < plan.size,
        0 < (Sorting.finish plan.size (plan.edges ranges)).waitsOf j ↔ plan.Doomed j := by
      intro j hj
      rw [hsound.waitsOf_pos_iff (Sorting.ready_finish hedges) hj,
        Sorting.not_mem_done_finish_iff hinside hj, hdelays, Doomed]
    have hdoomed : plan.Doomed i := (hiff i hlt).1 hwaits
    have hfirst : ∀ j < i, ¬ plan.Doomed j := fun j hj hdoomed =>
      Nat.ne_of_gt ((hiff j (Nat.lt_trans hj hlt)).2 hdoomed) (hearlier j hj)
    exact ⟨i, p, hp, check_eq_error_of_order hdepth hpartitions hranges horder, hdoomed, hfirst,
      exists_doomed_source hranges hp hdoomed hfirst⟩
  · intro hfeeds hgroups
    obtain ⟨ranges, hranges⟩ := exists_ranges_iff.2 hgroups
    have hinside : ∀ e ∈ plan.edges ranges, e.1 < plan.size ∧ e.2 < plan.size :=
      fun e he => edges_inside hfeeds hranges he
    have hedges : ∀ e ∈ plan.edges ranges, e.2 < plan.size := fun e he => (hinside e he).2
    refine ⟨ranges, hranges, hinside, ?_, ?_, fun pops readied sorting pending h => ?_⟩
    · obtain ⟨pops, hle, readied, hmoment⟩ := Sorting.Moment.start.drain plan.size
      exact ⟨pops, hle, readied, by rwa [Nat.zero_add] at hmoment⟩
    · rw [Sorting.pop, Sorting.ready_finish hedges]
    · have hsound := h.sound hedges
      refine ⟨h.pops_le hedges, hsound.nodup, fun index rest hpending => ?_⟩
      subst hpending
      exact ⟨hsound.length.symm ▸ hsound.pendingLt index List.mem_cons_self, hsound.waitsOf_pos⟩

/-- Partitions 1, 2 and 3 wait for each other: 1 takes in 3, which takes in 2, and 2 runs after 1. Partition 0
waits for 2 without being waited for. -/
def knotPlan : Plan where
  partitions := [
    ⟨"watcher", .empty, .ofList [("seen", ⟨2, none⟩)], [0], 0, 1, 1⟩,
    ⟨"first", .empty, .ofList [("level", ⟨3, some [0]⟩)], [1], 0, 1, 1⟩,
    ⟨"next", .empty, ∅, [2, 3], 0, 2, 1⟩,
    ⟨"last", .empty, .ofList [("level", ⟨2, some [1, 1]⟩), ("mark", ⟨2, none⟩)], [4], 0, 1, 1⟩]
  startTime := 0
  timelineDepth := 1
  groups := [[0], [1, 2], [3]]

theorem knotPlan_names_watcher :
    knotPlan.WellFormed ∧ (¬ ∃ order, knotPlan.Orders order) ∧
      knotPlan.check = .error (.feedCycle "watcher") ∧ knotPlan.Doomed 0 ∧ knotPlan.Doomed 2 ∧
      ∃ ranges, knotPlan.ranges = .ok ranges ∧
        (Sorting.finish 4 (knotPlan.edges ranges)).pop (knotPlan.edges ranges) = none := by
  have hranges : knotPlan.ranges = .ok [⟨0, 1⟩, ⟨1, 3⟩, ⟨3, 4⟩] := rfl
  have hwell : knotPlan.WellFormed := wellFormed_iff.2 ⟨by decide, rfl, _, hranges⟩
  have hnone : ¬ ∃ order, knotPlan.Orders order := by
    intro horder
    obtain ⟨found, hfound⟩ := (exists_order_iff_orders hranges).2 horder
    have herror : knotPlan.order [⟨0, 1⟩, ⟨1, 3⟩, ⟨3, 4⟩] = .error (.feedCycle "watcher") := rfl
    cases herror.symm.trans hfound
  obtain ⟨hreport, hsort⟩ := cycle_report_names_first_doomed knotPlan
  obtain ⟨i, p, hp, hcheck, hdoomed, -, feed, hfeed, hsource⟩ := hreport hwell hnone
  have hwatcher : knotPlan.check = .error (.feedCycle "watcher") := rfl
  have hname : "watcher" = p.name := by simpa using hwatcher.symm.trans hcheck
  have hzero : i = 0 := by
    rcases i with _ | _ | _ | _ | i
    · rfl
    · cases hp
      simp at hname
    · cases hp
      simp at hname
    · cases hp
      simp at hname
    · cases hp
  subst hzero
  cases hp
  obtain rfl : feed = ⟨2, none⟩ := List.mem_singleton.1 hfeed
  obtain ⟨ranges, hranges', -, -, hempty, -⟩ := hsort hwell.feeds hwell.groups
  exact ⟨hwell, hnone, hwatcher, hdoomed, hsource, ranges, hranges', hempty⟩

end Plan

end Tandem
