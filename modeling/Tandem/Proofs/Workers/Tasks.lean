import Tandem.Proofs.Plan.Schedule
import Tandem.Proofs.Table
import Tandem.Proofs.Workers.Commute

/-!
# Who does what in a crew

A wire has one sender: the source of the feed that it carries. So the tasks of one partition are the only
ones that touch its cell and that send on the wires it feeds, and the workers of different groups are
apart from the first move on.
-/

namespace Tandem.Crew

variable {ρ : Type} {cells : List (Cell ρ)}

/-- Partition `source` feeds `param` of partition `reader`. -/
def Feeds (cells : List (Cell ρ)) (source reader : Nat) (param : String) : Prop :=
  ∃ cell feed, cells[reader]? = some cell ∧ cell.partition.feeds.get? param = some feed ∧
    feed.source = source

namespace Feeds

variable {i j r : Nat} {p : String}

theorem source_unique (hi : Feeds cells i r p) (hj : Feeds cells j r p) : i = j := by
  obtain ⟨cell, feed, hcell, hfeed, rfl⟩ := hi
  obtain ⟨cell', feed', hcell', hfeed', rfl⟩ := hj
  obtain rfl : cell = cell' := Option.some.inj (hcell.symm.trans hcell')
  obtain rfl : feed = feed' := Option.some.inj (hfeed.symm.trans hfeed')
  rfl

theorem reader_lt (h : Feeds cells i r p) : r < cells.length := by
  obtain ⟨cell, feed, hcell, -, -⟩ := h
  exact (List.getElem?_eq_some_iff.1 hcell).1

theorem mem_keys (h : Feeds cells i r p) {cell : Cell ρ} (hcell : cells[r]? = some cell) :
    p ∈ cell.partition.feeds.keys := by
  obtain ⟨cell', feed, hcell', hfeed, -⟩ := h
  obtain rfl : cell = cell' := Option.some.inj (hcell.symm.trans hcell')
  exact Table.mem_keys_iff.2 ⟨feed, hfeed⟩

end Feeds

theorem mem_readers {i r : Nat} {p : String} : (r, p) ∈ readers cells i ↔ Feeds cells i r p := by
  simp only [readers, List.mem_flatten, List.mem_mapIdx, Feeds]
  constructor
  · rintro ⟨_, ⟨reader, hreader, rfl⟩, hmem⟩
    obtain ⟨⟨param, feed⟩, hentry, heq⟩ := List.mem_map.1 hmem
    obtain ⟨hentry, hsource⟩ := List.mem_filter.1 hentry
    obtain ⟨rfl, rfl⟩ := Prod.mk.inj heq
    exact ⟨_, feed, List.getElem?_eq_getElem hreader, Table.mem_entries_iff.1 hentry,
      of_decide_eq_true hsource⟩
  · rintro ⟨cell, feed, hcell, hfeed, hsource⟩
    obtain ⟨hreader, rfl⟩ := List.getElem?_eq_some_iff.1 hcell
    refine ⟨_, ⟨r, hreader, rfl⟩, List.mem_map.2 ⟨(p, feed), List.mem_filter.2 ⟨?_, ?_⟩, rfl⟩⟩
    · exact Table.mem_entries_iff.2 hfeed
    · exact decide_eq_true hsource

theorem nodup_readers (cells : List (Cell ρ)) (i : Nat) : (readers cells i).Nodup := by
  unfold readers
  rw [List.nodup_flatten]
  constructor
  · intro wires hwires
    obtain ⟨reader, hreader, rfl⟩ := List.mem_mapIdx.1 hwires
    have hkeys : (cells[reader].partition.feeds.entries.map (·.1)).Nodup :=
      cells[reader].partition.feeds.nodup_keys
    refine List.Nodup.of_map Prod.snd ?_
    rw [List.map_map]
    exact hkeys.sublist (List.filter_sublist.map Prod.fst)
  · rw [List.pairwise_iff_getElem]
    intro m n hm hn hlt
    rw [List.disjoint_left]
    intro wire hwire hwire'
    rw [List.getElem_mapIdx] at hwire hwire'
    obtain ⟨_, -, rfl⟩ := List.mem_map.1 hwire
    obtain ⟨_, -, heq⟩ := List.mem_map.1 hwire'
    have hsame : n = m := congrArg Prod.fst heq
    omega

/-! ## Tasks -/

theorem index_of_mem_tasks {i : Nat} {task : Task} (h : task ∈ tasks cells i) : task.index = i := by
  unfold tasks at h
  cases hcell : cells[i]? with
  | none => simp [hcell] at h
  | some cell =>
      simp only [hcell, turnTasks, List.mem_append, List.mem_map, List.mem_cons,
        List.not_mem_nil, or_false] at h
      rcases h with ⟨param, -, rfl⟩ | rfl | ⟨wire, -, rfl⟩ | rfl <;> rfl

theorem receive_mem_tasks {i r j : Nat} {p : String} (hfeeds : Feeds cells j r p) :
    Task.receive r p ∈ tasks cells i ↔ r = i := by
  constructor
  · intro hmem
    exact index_of_mem_tasks hmem
  · rintro rfl
    have hcell := List.getElem?_eq_getElem hfeeds.reader_lt
    simp [tasks, hcell, turnTasks, hfeeds.mem_keys hcell]

theorem send_mem_tasks {i k r : Nat} {p : String} :
    Task.send k r p ∈ tasks cells i ↔ k = i ∧ i < cells.length ∧ Feeds cells i r p := by
  constructor
  · intro hmem
    have hindex : k = i := index_of_mem_tasks hmem
    unfold tasks at hmem
    cases hcell : cells[i]? with
    | none => simp [hcell] at hmem
    | some cell =>
        simp only [hcell, turnTasks, List.mem_append, List.mem_map, List.mem_cons,
          reduceCtorEq, and_false, exists_false, false_or, List.not_mem_nil, or_false,
          Task.send.injEq] at hmem
        obtain ⟨⟨reader, param⟩, hwire, -, rfl, rfl⟩ := hmem
        exact ⟨hindex, (List.getElem?_eq_some_iff.1 hcell).1, mem_readers.1 hwire⟩
  · rintro ⟨rfl, hlt, hfeeds⟩
    have hwire := mem_readers.2 hfeeds
    simp only [tasks, List.getElem?_eq_getElem hlt, turnTasks, List.mem_append, List.mem_map,
      List.mem_cons]
    exact Or.inr (Or.inr (Or.inl ⟨_, hwire, rfl⟩))

theorem drop_tasks {left : List Nat} {i r : Nat} {p : String} (hi : i < cells.length)
    (hfeeds : Feeds cells i r p) :
    Effect.drop (left.flatMap (tasks cells)) r p =
      if r ∈ left then .close else if i ∈ left then .hangUp else .keep := by
  have hreceive : Task.receive r p ∈ left.flatMap (tasks cells) ↔ r ∈ left := by
    simp only [List.mem_flatMap, receive_mem_tasks hfeeds, exists_eq_right']
  have hsend : (left.flatMap (tasks cells)).any (Task.sendsTo r p) = true ↔ i ∈ left := by
    constructor
    · intro hany
      obtain ⟨k, hk⟩ := Effect.mem_of_sendsTo hany
      obtain ⟨j, hj, hmem⟩ := List.mem_flatMap.1 hk
      obtain ⟨-, -, hfeeds'⟩ := send_mem_tasks.1 hmem
      exact hfeeds.source_unique hfeeds' ▸ hj
    · intro hmem
      refine List.any_eq_true.2 ⟨.send i r p, List.mem_flatMap.2 ⟨i, hmem, ?_⟩, ?_⟩
      · exact send_mem_tasks.2 ⟨rfl, hi, hfeeds⟩
      · simp [Task.sendsTo]
  simp only [Effect.drop, hreceive, hsend]

/-! ## Workers -/

theorem apart_start {ranges : List Range} {total : Nat} (h : Tiles 0 total ranges) :
    (start cells ranges).Apart := by
  intro g g' v w hv hw hne
  simp only [start, List.getElem?_map, Option.map_eq_some_iff] at hv hw
  obtain ⟨range, hrange, rfl⟩ := hv
  obtain ⟨range', hrange', rfl⟩ := hw
  have hdisjoint : ∀ i ∈ range.indices, i ∉ range'.indices := by
    intro i hi hi'
    exact hne ((h.groupOf_eq hrange hi).symm.trans (h.groupOf_eq hrange' hi'))
  constructor
  · intro s hs t ht heq
    obtain ⟨i, hi, hs⟩ := List.mem_flatMap.1 hs
    obtain ⟨j, hj, ht⟩ := List.mem_flatMap.1 ht
    rw [index_of_mem_tasks hs, index_of_mem_tasks ht] at heq
    exact hdisjoint i hi (heq ▸ hj)
  · intro k l r p hk hl
    obtain ⟨i, hi, hk⟩ := List.mem_flatMap.1 hk
    obtain ⟨j, hj, hl⟩ := List.mem_flatMap.1 hl
    have heq := (send_mem_tasks.1 hk).2.2.source_unique (send_mem_tasks.1 hl).2.2
    exact hdisjoint i hi (heq ▸ hj)

end Tandem.Crew
