import Mathlib.Data.List.Nodup
import Mathlib.Data.List.Perm.Subperm
import Tandem.Plan.Order

/-!
# The sort puts every partition after all it waits for

`Sorting.Sound` says what holds between two pops: every index still waits for exactly its undone
predecessors, the ready indices are the undone ones that wait for nothing, and whoever is done was done
after all its predecessors. A pop keeps it, so an order that `Plan.order` returns lists every partition
once and is `Topological`. Conversely a sort that has come to its end with some index left over has no
such order to find: the first index of it that is not done would be ready.
-/

namespace Tandem

/-- Every index of `order` comes after all indices that an edge puts before it. -/
def Topological (edges : List (Nat × Nat)) (order : List Nat) : Prop :=
  ∀ before i after, order = before ++ i :: after → ∀ e ∈ edges, e.2 = i → e.1 ∈ before

namespace Topological

variable {edges : List (Nat × Nat)} {order : List Nat}

theorem nil : Topological edges [] := by
  intro before i after h
  simp at h

theorem concat {i : Nat} (h : Topological edges order)
    (hi : ∀ e ∈ edges, e.2 = i → e.1 ∈ order) : Topological edges (order ++ [i]) := by
  intro before j after heq e he hej
  rcases List.eq_nil_or_concat after with rfl | ⟨init, last, rfl⟩
  · obtain ⟨rfl, hlast⟩ := List.append_inj' heq rfl
    obtain rfl : i = j := by simpa using hlast
    exact hi e he hej
  · have heq : order ++ [i] = (before ++ j :: init) ++ [last] := by simpa using heq
    obtain ⟨rfl, -⟩ := List.append_inj' heq rfl
    exact h before j init rfl e he hej

theorem mem_of_edge {before after : List Nat} (h : Topological edges (before ++ after))
    {e : Nat × Nat} (he : e ∈ edges) (hmem : e.2 ∈ before) : e.1 ∈ before := by
  obtain ⟨first, rest, rfl⟩ := List.append_of_mem hmem
  have hfirst := h first e.2 (rest ++ after) (by simp) e he rfl
  exact List.mem_append_left _ hfirst

end Topological

namespace Sorting

variable {size : Nat} {edges : List (Nat × Nat)}

def waitsOf (sorting : Sorting) (index : Nat) : Nat := sorting.waits.getD index 0

/-! ## Releasing followers -/

@[simp]
theorem done_release (sorting : Sorting) (index : Nat) :
    (sorting.release index).done = sorting.done := rfl

@[simp]
theorem length_waits_release (sorting : Sorting) (index : Nat) :
    (sorting.release index).waits.length = sorting.waits.length := by
  simp [release]

theorem waitsOf_release (sorting : Sorting) {index : Nat} (h : index < sorting.waits.length)
    (i : Nat) :
    (sorting.release index).waitsOf i = sorting.waitsOf i - if i = index then 1 else 0 := by
  by_cases hi : i = index
  · subst hi
    simp [waitsOf, release, h]
  · have hne : index ≠ i := fun heq => hi heq.symm
    simp [waitsOf, release, hi, hne]

theorem mem_ready_release (sorting : Sorting) (index i : Nat) :
    i ∈ (sorting.release index).ready ↔
      i ∈ sorting.ready ∨ i = index ∧ sorting.waitsOf index ≤ 1 := by
  simp only [release, waitsOf]
  split
  next h =>
    have hle : sorting.waits.getD index 0 ≤ 1 := by omega
    simp only [List.mem_cons, hle, and_true]
    exact Or.comm
  next h =>
    have hgt : ¬ sorting.waits.getD index 0 ≤ 1 := by omega
    simp only [hgt, and_false, or_false]

/-- Releasing a list of followers takes one wait from each of them, as often as it is listed, and makes
those ready that it leaves without waits. -/
theorem foldl_release (followers : List Nat) (sorting : Sorting)
    (hlt : ∀ i ∈ followers, i < sorting.waits.length)
    (hwaits : ∀ i, followers.count i ≤ sorting.waitsOf i) :
    (followers.foldl release sorting).done = sorting.done ∧
      (followers.foldl release sorting).waits.length = sorting.waits.length ∧
      (∀ i, (followers.foldl release sorting).waitsOf i =
        sorting.waitsOf i - followers.count i) ∧
      (∀ i, i ∈ (followers.foldl release sorting).ready ↔
        i ∈ sorting.ready ∨ i ∈ followers ∧ sorting.waitsOf i = followers.count i) := by
  induction followers generalizing sorting with
  | nil => simp
  | cons index rest ih =>
      have hindex : index < sorting.waits.length := hlt index List.mem_cons_self
      have hrelease := waitsOf_release sorting hindex
      have hcount : ∀ i, (index :: rest).count i = rest.count i + if i = index then 1 else 0 := by
        intro i
        rw [List.count_cons]
        by_cases hi : i = index
        · simp [hi]
        · simp [hi, Ne.symm hi]
      have hle : ∀ i, rest.count i ≤ (sorting.release index).waitsOf i := by
        intro i
        have h := hwaits i
        rw [hcount] at h
        rw [hrelease]
        omega
      obtain ⟨hdone, hlength, hleft, hready⟩ := ih (sorting.release index)
        (fun i hi => by simpa using hlt i (List.mem_cons_of_mem _ hi)) hle
      refine ⟨by simpa using hdone, by simpa using hlength, fun i => ?_, fun i => ?_⟩
      · rw [List.foldl_cons, hleft, hrelease, hcount]
        omega
      · rw [List.foldl_cons, hready, mem_ready_release, hrelease, hcount, List.mem_cons]
        have hself := hwaits index
        rw [hcount, if_pos rfl] at hself
        by_cases hi : i = index
        · subst hi
          have hmem : i ∈ rest ↔ 0 < rest.count i := List.count_pos_iff.symm
          rw [hmem]
          simp only [if_true, true_and, true_or]
          constructor
          · rintro ((h | h) | ⟨h, heq⟩)
            · exact Or.inl h
            · exact Or.inr (by omega)
            · exact Or.inr (by omega)
          · rintro (h | h)
            · exact Or.inl (Or.inl h)
            · by_cases hzero : 0 < rest.count i
              · exact Or.inr ⟨hzero, by omega⟩
              · exact Or.inl (Or.inr (by omega))
        · simp [hi]

theorem nodup_foldl_release (followers : List Nat) (sorting : Sorting)
    (hlt : ∀ i ∈ followers, i < sorting.waits.length)
    (hwaits : ∀ i, followers.count i ≤ sorting.waitsOf i)
    (hready : ∀ i ∈ sorting.ready, sorting.waitsOf i = 0) (hnodup : sorting.ready.Nodup) :
    (followers.foldl release sorting).ready.Nodup := by
  induction followers generalizing sorting with
  | nil => exact hnodup
  | cons index rest ih =>
      have hindex : index < sorting.waits.length := hlt index List.mem_cons_self
      have hrelease := waitsOf_release sorting hindex
      have hself : 0 < sorting.waitsOf index := by
        have h := hwaits index
        rw [List.count_cons_self] at h
        omega
      refine ih (sorting.release index)
        (fun i hi => by simpa using hlt i (List.mem_cons_of_mem _ hi)) (fun i => ?_)
        (fun i hi => ?_) ?_
      · have h := hwaits i
        rw [List.count_cons] at h
        rw [hrelease]
        by_cases hi : i = index
        · simp [hi] at h ⊢
          omega
        · simpa [hi, Ne.symm hi] using h
      · rw [hrelease]
        rcases (mem_ready_release sorting index i).1 hi with h | ⟨rfl, h⟩
        · rw [hready i h, Nat.zero_sub]
        · rw [if_pos rfl]
          omega
      · simp only [release]
        split
        · refine List.nodup_cons.2 ⟨fun h => ?_, hnodup⟩
          have := hready index h
          omega
        · exact hnodup

/-! ## The invariant of the sort -/

/-- What holds of a sort between two pops. -/
structure Sound (size : Nat) (edges : List (Nat × Nat)) (sorting : Sorting) : Prop where
  length : sorting.waits.length = size
  waits : ∀ i < size, sorting.waitsOf i = edges.countP fun e => e.2 = i ∧ e.1 ∉ sorting.done
  ready : ∀ i, i ∈ sorting.ready ↔ i < size ∧ sorting.waitsOf i = 0 ∧ i ∉ sorting.done
  readyNodup : sorting.ready.Nodup
  doneNodup : sorting.done.Nodup
  doneLt : ∀ i ∈ sorting.done, i < size
  topological : Topological edges sorting.done.reverse

theorem sound_start (size : Nat) (edges : List (Nat × Nat)) : Sound size edges (start size edges) := by
  have hwaits : ∀ i < size, (start size edges).waitsOf i = edges.countP fun e => e.2 = i := by
    intro i hi
    simp [start, waitsOf, hi]
  refine ⟨by simp [start], fun i hi => ?_, fun i => ?_, ?_, ?_, ?_, ?_⟩
  · rw [hwaits i hi]
    simp [start]
  · by_cases hi : i < size
    · have h := hwaits i hi
      simp only [waitsOf] at h ⊢
      simp [start, hi] at h ⊢
    · simp [start, hi]
  · exact List.nodup_reverse.2 (List.nodup_range.filter _)
  · exact List.nodup_nil
  · simp [start]
  · exact Topological.nil

/-- The indices that wait for `index`, once for every edge. -/
def followersOf (edges : List (Nat × Nat)) (index : Nat) : List Nat :=
  (edges.filter fun e => e.1 = index).map (·.2)

theorem countP_undone (edges : List (Nat × Nat)) {done : List Nat} {index : Nat}
    (hindex : index ∉ done) (i : Nat) :
    edges.countP (fun e => e.2 = i ∧ e.1 ∉ done) =
      edges.countP (fun e => e.2 = i ∧ e.1 ∉ index :: done) +
        (followersOf edges index).count i := by
  unfold followersOf
  induction edges with
  | nil => rfl
  | cons e rest ih =>
      simp only [List.countP_cons, List.filter_cons, ih]
      by_cases hsource : e.1 = index
      · by_cases htarget : e.2 = i
        · simp [hsource, htarget, hindex]
          omega
        · simp [hsource, htarget]
      · simp [hsource]
        omega

theorem pop_eq_some {sorting next : Sorting} (h : sorting.pop edges = some next) :
    ∃ index ready, sorting.ready = index :: ready ∧
      next = (followersOf edges index).foldl release
        { sorting with ready := ready, done := index :: sorting.done } := by
  unfold pop at h
  cases hready : sorting.ready with
  | nil => simp [hready] at h
  | cons index ready =>
      simp only [hready, Option.some.injEq] at h
      exact ⟨index, ready, rfl, h.symm⟩

namespace Sound

variable {sorting : Sorting} {index : Nat}

theorem count_followers_le (h : Sound size edges sorting) (hedges : ∀ e ∈ edges, e.2 < size)
    (hindex : index ∉ sorting.done) (i : Nat) :
    (followersOf edges index).count i ≤ sorting.waitsOf i := by
  by_cases hi : i < size
  · rw [h.waits i hi, countP_undone edges hindex i]
    exact Nat.le_add_left _ _
  · rw [List.count_eq_zero_of_not_mem]
    · exact Nat.zero_le _
    · intro hmem
      obtain ⟨e, he, rfl⟩ := List.mem_map.1 hmem
      exact hi (hedges e (List.mem_filter.1 he).1)

theorem not_mem_followers (h : Sound size edges sorting) (hindex : index ∉ sorting.done) {i : Nat}
    (hi : i ∈ sorting.done) : i ∉ followersOf edges index := by
  intro hmem
  obtain ⟨e, he, rfl⟩ := List.mem_map.1 hmem
  obtain ⟨hedge, hsource⟩ := List.mem_filter.1 he
  have hwhole : Topological edges (sorting.done.reverse ++ []) := by
    simpa using h.topological
  have hbefore := hwhole.mem_of_edge hedge (List.mem_reverse.2 hi)
  rw [List.mem_reverse, of_decide_eq_true hsource] at hbefore
  exact hindex hbefore

/-- An index that waits for nothing may be the next one done. -/
theorem topological_cons (h : Sound size edges sorting) (hlt : index < size)
    (hzero : sorting.waitsOf index = 0) : Topological edges (index :: sorting.done).reverse := by
  rw [List.reverse_cons]
  refine h.topological.concat fun e he hei => ?_
  have hnone := (h.waits index hlt).symm.trans hzero
  rw [List.countP_eq_zero] at hnone
  have := hnone e he
  simpa [hei] using this

theorem mem_tail_iff (h : Sound size edges sorting) {ready : List Nat}
    (hready : sorting.ready = index :: ready) (i : Nat) :
    i ∈ ready ↔ i ≠ index ∧ i < size ∧ sorting.waitsOf i = 0 ∧ i ∉ sorting.done := by
  have hfresh : index ∉ ready := by
    have hnodup := h.readyNodup
    rw [hready] at hnodup
    exact (List.nodup_cons.1 hnodup).1
  rw [← h.ready i, hready, List.mem_cons]
  constructor
  · intro hi
    exact ⟨fun heq => hfresh (heq ▸ hi), Or.inr hi⟩
  · rintro ⟨hne, heq | hi⟩
    · exact absurd heq hne
    · exact hi

end Sound

theorem sound_pop {sorting next : Sorting} (hedges : ∀ e ∈ edges, e.2 < size)
    (h : Sound size edges sorting) (hpop : sorting.pop edges = some next) :
    Sound size edges next ∧ next.done.length = sorting.done.length + 1 := by
  obtain ⟨index, ready, hready, hnext⟩ := pop_eq_some hpop
  obtain ⟨hlt, hzero, hundone⟩ := (h.ready index).1 (by rw [hready]; exact List.mem_cons_self)
  let popped : Sorting := { sorting with ready := ready, done := index :: sorting.done }
  have hcount : ∀ i, (followersOf edges index).count i ≤ popped.waitsOf i :=
    h.count_followers_le hedges hundone
  have hfollowers : ∀ i ∈ followersOf edges index, i < size := by
    intro i hi
    obtain ⟨e, he, rfl⟩ := List.mem_map.1 hi
    exact hedges e (List.mem_filter.1 he).1
  have hinside : ∀ i ∈ followersOf edges index, i < popped.waits.length := by
    intro i hi
    simpa [popped, h.length] using hfollowers i hi
  obtain ⟨hdone, hlength, hleft, hnextReady⟩ :=
    foldl_release (followersOf edges index) popped hinside hcount
  rw [← hnext] at hdone hlength hleft hnextReady
  have hdone : next.done = index :: sorting.done := hdone
  have hleft : ∀ i, next.waitsOf i = sorting.waitsOf i - (followersOf edges index).count i := hleft
  have hmem := h.mem_tail_iff hready
  refine ⟨⟨?_, fun i hi => ?_, fun i => ?_, ?_, ?_, ?_, ?_⟩, ?_⟩
  · rw [hlength]
    exact h.length
  · rw [hleft, h.waits i hi, countP_undone edges hundone i, hdone]
    exact Nat.add_sub_cancel _ _
  · have hle : (followersOf edges index).count i ≤ sorting.waitsOf i := hcount i
    have hwaitsOf : popped.waitsOf i = sorting.waitsOf i := rfl
    rw [hnextReady, hleft, hdone, hwaitsOf, List.mem_cons, not_or]
    show i ∈ ready ∨ _ ↔ _
    rw [hmem]
    constructor
    · rintro (⟨hne, hi, hnone, hnot⟩ | ⟨hi, heq⟩)
      · exact ⟨hi, by omega, hne, hnot⟩
      · have hpos : 0 < (followersOf edges index).count i := List.count_pos_iff.2 hi
        have hne : i ≠ index := by
          rintro rfl
          omega
        exact ⟨hfollowers i hi, by omega, hne, fun hin => h.not_mem_followers hundone hin hi⟩
    · rintro ⟨hi, hzero', hne, hnot⟩
      by_cases hin : i ∈ followersOf edges index
      · exact Or.inr ⟨hin, by omega⟩
      · have hnone := List.count_eq_zero_of_not_mem hin
        exact Or.inl ⟨hne, hi, by omega, hnot⟩
  · have hnodup : (index :: ready).Nodup := hready ▸ h.readyNodup
    rw [hnext]
    refine nodup_foldl_release _ popped hinside hcount (fun i hi => ?_) (List.nodup_cons.1 hnodup).2
    exact ((hmem i).1 hi).2.2.1
  · rw [hdone]
    exact List.nodup_cons.2 ⟨hundone, h.doneNodup⟩
  · rw [hdone]
    intro i hi
    rcases List.mem_cons.1 hi with rfl | hi
    · exact hlt
    · exact h.doneLt i hi
  · rw [hdone]
    exact h.topological_cons hlt hzero
  · rw [hdone]
    rfl

theorem sound_drain (hedges : ∀ e ∈ edges, e.2 < size) (fuel : Nat) {sorting : Sorting}
    (h : Sound size edges sorting) : Sound size edges (drain edges fuel sorting) := by
  induction fuel generalizing sorting with
  | zero => exact h
  | succ fuel ih =>
      unfold drain
      cases hpop : sorting.pop edges with
      | none => exact h
      | some next => exact ih (sound_pop hedges h hpop).1

theorem sound_finish (hedges : ∀ e ∈ edges, e.2 < size) :
    Sound size edges (finish size edges) :=
  sound_drain hedges size (sound_start size edges)

theorem Sound.perm_range {sorting : Sorting} (h : Sound size edges sorting)
    (hlength : sorting.done.length = size) : sorting.done.Perm (List.range size) := by
  have hsubset : sorting.done ⊆ List.range size := fun i hi => List.mem_range.2 (h.doneLt i hi)
  exact (List.subperm_of_subset h.doneNodup hsubset).perm_of_length_le (by simp [hlength])

/-! ## Every order there is gets found -/

theorem drain_ends (hedges : ∀ e ∈ edges, e.2 < size) (fuel : Nat) {sorting : Sorting}
    (h : Sound size edges sorting) :
    (drain edges fuel sorting).ready = [] ∨
      (drain edges fuel sorting).done.length = sorting.done.length + fuel := by
  induction fuel generalizing sorting with
  | zero => exact Or.inr rfl
  | succ fuel ih =>
      unfold drain
      cases hpop : sorting.pop edges with
      | none =>
          refine Or.inl ?_
          cases hready : sorting.ready with
          | nil => rfl
          | cons index ready => simp [pop, hready] at hpop
      | some next =>
          obtain ⟨hnext, hlength⟩ := sound_pop hedges h hpop
          refine (ih hnext).imp_right fun hdone => ?_
          dsimp only
          omega

namespace Sound

variable {sorting : Sorting}

theorem length_done_le (h : Sound size edges sorting) : sorting.done.length ≤ size := by
  have hsubset : sorting.done ⊆ List.range size := fun i hi => List.mem_range.2 (h.doneLt i hi)
  simpa using (List.subperm_of_subset h.doneNodup hsubset).length_le

theorem mem_done_of_ready_eq_nil (h : Sound size edges sorting) (hready : sorting.ready = [])
    {i : Nat} (hi : i < size) (hbefore : ∀ e ∈ edges, e.2 = i → e.1 ∈ sorting.done) :
    i ∈ sorting.done := by
  by_contra hundone
  have hzero : sorting.waitsOf i = 0 := by
    rw [h.waits i hi, List.countP_eq_zero]
    intro e he
    simpa using hbefore e he
  have hmem : i ∈ sorting.ready := (h.ready i).2 ⟨hi, hzero, hundone⟩
  rw [hready] at hmem
  cases hmem

theorem length_done_of_ready_eq_nil (h : Sound size edges sorting) (hready : sorting.ready = [])
    {order : List Nat} (hperm : order.Perm (List.range size)) (horder : Topological edges order) :
    sorting.done.length = size := by
  -- along the order: what an index waits for comes before it, and is done
  have hall : ∀ after before, order = before ++ after → (∀ j ∈ before, j ∈ sorting.done) →
      ∀ j ∈ order, j ∈ sorting.done := by
    intro after
    induction after with
    | nil =>
        intro before heq hbefore
        rwa [heq, List.append_nil]
    | cons i after ih =>
        intro before heq hbefore
        refine ih (before ++ [i]) (by rw [heq, List.append_assoc]; rfl) fun j hj => ?_
        rcases List.mem_append.1 hj with hj | hj
        · exact hbefore j hj
        · rw [List.mem_singleton.1 hj]
          have hi : i < size := List.mem_range.1 (hperm.mem_iff.1 (by simp [heq]))
          exact h.mem_done_of_ready_eq_nil hready hi fun e he hei =>
            hbefore _ (horder before i after heq e he hei)
  have hsubset : List.range size ⊆ sorting.done := fun i hi =>
    hall order [] rfl (by simp) i (hperm.mem_iff.2 hi)
  have hle := (List.subperm_of_subset List.nodup_range hsubset).length_le
  rw [List.length_range] at hle
  exact Nat.le_antisymm h.length_done_le hle

end Sound

theorem length_done_finish (hedges : ∀ e ∈ edges, e.2 < size) {order : List Nat}
    (hperm : order.Perm (List.range size)) (horder : Topological edges order) :
    (finish size edges).done.length = size := by
  rcases drain_ends hedges size (sound_start size edges) with hready | hlength
  · exact (sound_finish hedges).length_done_of_ready_eq_nil hready hperm horder
  · simpa [finish, start] using hlength

end Sorting

namespace Plan

theorem order_spec {plan : Plan} {ranges : List Range} {order : List Nat}
    (hedges : ∀ e ∈ plan.edges ranges, e.2 < plan.size) (h : plan.order ranges = .ok order) :
    order.Perm (List.range plan.size) ∧ Topological (plan.edges ranges) order := by
  have hsound := Sorting.sound_finish hedges
  simp only [Plan.order] at h
  split at h
  next hlength =>
    cases h
    exact ⟨(List.reverse_perm _).trans (hsound.perm_range hlength), hsound.topological⟩
  next hlength =>
    split at h
    next => cases h
    next hnone =>
      exfalso
      have hsize : plan.size ≤ (Sorting.finish plan.size (plan.edges ranges)).stuck?.getD 0 := by
        simpa [Plan.size] using hnone
      cases hstuck : (Sorting.finish plan.size (plan.edges ranges)).stuck? with
      | none =>
          rw [hstuck] at hsize
          have hzero : plan.size = 0 := Nat.le_zero.1 (by simpa using hsize)
          apply hlength
          rw [hzero]
          rfl
      | some index =>
          rw [hstuck] at hsize
          obtain ⟨hindex, -⟩ := List.findIdx?_eq_some_iff_findIdx_eq.1 hstuck
          rw [hsound.length] at hindex
          exact absurd hindex (Nat.not_lt.2 (by simpa using hsize))

/-- The plan check finds an order if there is one. -/
theorem exists_order_iff {plan : Plan} {ranges : List Range}
    (hedges : ∀ e ∈ plan.edges ranges, e.2 < plan.size) :
    (∃ order, plan.order ranges = .ok order) ↔
      ∃ order : List Nat, order.Perm (List.range plan.size) ∧
        Topological (plan.edges ranges) order := by
  constructor
  · rintro ⟨order, h⟩
    exact ⟨order, order_spec hedges h⟩
  · rintro ⟨order, hperm, horder⟩
    have hlength := Sorting.length_done_finish hedges hperm horder
    refine ⟨(Sorting.finish plan.size (plan.edges ranges)).done.reverse, ?_⟩
    simp only [Plan.order, if_pos hlength]

end Plan

end Tandem
