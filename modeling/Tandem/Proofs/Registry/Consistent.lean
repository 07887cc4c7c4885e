import Tandem.Proofs.Causes
import Tandem.Proofs.Plan.Cycle
import Tandem.Proofs.Registry.Resolution
import Tandem.Proofs.Start

/-!
# Which registries resolve

`Registry.Consistent` says by name what a registry needs, `Registry.Accepted` that all its rules accept the
plan. A registry resolves if and only if both hold, and no rule is asked before the first does. An order of
names and an order of indices are the same order, spelled differently, so what the check of the plan finds is
what the registry says.
-/

namespace Tandem

variable {ρ τ : Type}

/-- A feed names a registered partition and elements of that partition's state. -/
def NamedFeed.InRange (registry : Registry ρ τ) (feed : NamedFeed) : Prop :=
  ∃ source ∈ registry.entries, source.name = feed.source ∧
    ∀ indices, feed.selection = some indices → ∀ i ∈ indices, i < source.width

namespace Registry

/-- An order of the registered names in which whatever feeds a partition comes before it, and the members of a
group come in the order of their registration. -/
structure Orders (registry : Registry ρ τ) (order : List String) : Prop where
  perm : order.Perm registry.names
  feeds : ∀ entry ∈ registry.entries, ∀ feed ∈ entry.feeds.values,
    [feed.source, entry.name].Sublist order
  groups : ∀ a ∈ registry.names, ∀ b ∈ registry.names, registry.sameGroup a b →
    registry.position a < registry.position b → [a, b].Sublist order

/-- What a registry needs to resolve, apart from rules that accept the plan. -/
structure Consistent (registry : Registry ρ τ) (spec : RunSpec τ) : Prop where
  listed : ∀ entry ∈ registry.entries, ∀ names ∈ entry.indexParams.values, names ⊆ registry.names
  feeds : ∀ entry ∈ registry.entries, ∀ feed ∈ entry.feeds.values, feed.InRange registry
  timelineDepth : 0 < (registry.entries.map (·.depth)).foldl max spec.timelineDepth
  shapes : ∀ entry ∈ registry.entries,
    0 < entry.width ∧ 0 < entry.depth ∧ entry.initial.length = entry.width
  order : ∃ order, registry.Orders order

/-- Each rule accepts the partition it is for, in the plan that the registry says by name. -/
def Accepted [UpdateRule ρ] (registry : Registry ρ τ) (spec : RunSpec τ) : Prop :=
  ∃ plan order, registry.assemble spec = .ok (plan, order) ∧ ∀ i entry, order[i]? = some entry →
    (UpdateRule.configure i plan entry.rule).1 = .ok ()

/-! ## Names that are found -/

section Names

variable {order : List (Entry ρ)} {referrer : String}

theorem exists_indexOf_iff {name : String} :
    (∃ index, indexOf order referrer name = .ok index) ↔ name ∈ order.map (·.name) := by
  unfold indexOf
  cases hfind : order.findIdx? fun entry => entry.name = name with
  | some index =>
      obtain ⟨hlt, hname, -⟩ := List.findIdx?_eq_some_iff_getElem.1 hfind
      simp only [Except.ok.injEq, exists_eq', true_iff]
      exact List.mem_map.2 ⟨order[index], List.getElem_mem hlt, of_decide_eq_true hname⟩
  | none =>
      simp only [reduceCtorEq, exists_false, false_iff, List.mem_map, not_exists, not_and]
      intro entry hentry
      exact of_decide_eq_false (List.findIdx?_eq_none_iff.1 hfind entry hentry)

theorem exists_resolveParams_iff {pending : List (String × List String)} {params : Params} :
    (∃ resolved, resolveParams order referrer pending params = .ok resolved) ↔
      ∀ asked ∈ pending, asked.2 ⊆ order.map (·.name) := by
  induction pending generalizing params with
  | nil => simp [resolveParams]
  | cons asked rest ih =>
      obtain ⟨param, listed⟩ := asked
      rw [List.forall_mem_cons]
      cases hindices : listed.mapM (indexOf order referrer) with
      | ok indices =>
          have hlisted : listed ⊆ order.map (·.name) := by
            intro name hname
            obtain ⟨i, hi⟩ := List.mem_iff_getElem?.1 hname
            obtain ⟨index, -, hindex⟩ := exists_of_forall₂ (mapM_eq_ok hindices) hi
            exact exists_indexOf_iff.1 ⟨index, hindex⟩
          simp only [resolveParams, hindices, bind, Except.bind, ih, hlisted, true_and]
      | error fault =>
          obtain ⟨name, hname, hfault⟩ := exists_of_mapM_error hindices
          have hmissing : ¬ listed ⊆ order.map (·.name) := by
            intro hlisted
            obtain ⟨index, hindex⟩ := (@exists_indexOf_iff _ _ referrer _).2 (hlisted hname)
            cases hindex.symm.trans hfault
          simp [resolveParams, hindices, bind, Except.bind, hmissing]

theorem exists_of_indexOf {name : String} {index : Nat} (h : indexOf order referrer name = .ok index) :
    ∃ source, order[index]? = some source ∧ source.name = name := by
  have hname := indexOf_eq_ok h
  rw [List.getElem?_map, Option.map_eq_some_iff] at hname
  exact hname

theorem exists_resolveFeeds_iff (hnodup : (order.map (·.name)).Nodup)
    {pending : List (String × NamedFeed)} {feeds : Table String Feed} :
    (∃ resolved, resolveFeeds order referrer pending feeds = .ok resolved) ↔
      ∀ asked ∈ pending, ∃ source ∈ order, source.name = asked.2.source ∧
        ∀ indices, asked.2.selection = some indices → ∀ i ∈ indices, i < source.width := by
  induction pending generalizing feeds with
  | nil => simp [resolveFeeds]
  | cons asked rest ih =>
      obtain ⟨param, feed⟩ := asked
      rw [List.forall_mem_cons]
      cases hindex : indexOf order referrer feed.source with
      | error fault =>
          have hmissing : ∀ source ∈ order, source.name ≠ feed.source := by
            intro source hsource hname
            obtain ⟨index, hok⟩ := (@exists_indexOf_iff _ _ referrer _).2
              (hname ▸ List.mem_map_of_mem (f := Entry.name) hsource)
            cases hok.symm.trans hindex
          simp only [resolveFeeds, hindex, bind, Except.bind, reduceCtorEq, exists_false, false_iff]
          rintro ⟨⟨source, hsource, hname, -⟩, -⟩
          exact hmissing source hsource hname
      | ok index =>
          obtain ⟨source, hsource, hname⟩ := exists_of_indexOf hindex
          have hmem : source ∈ order := List.mem_of_getElem? hsource
          have hrange : (∃ other ∈ order, other.name = feed.source ∧
              ∀ indices, feed.selection = some indices → ∀ i ∈ indices, i < other.width) ↔
                Plan.overrun? source.width feed.selection = none := by
            rw [Plan.overrun?_eq_none_iff]
            constructor
            · rintro ⟨other, hother, hsame, hselection⟩
              rwa [List.inj_on_of_nodup_map hnodup hmem hother (hname.trans hsame.symm)]
            · exact fun hselection => ⟨source, hmem, hname, hselection⟩
          rw [hrange]
          simp only [resolveFeeds, hindex, hsource, bind, Except.bind, Option.map_some,
            Option.getD_some]
          cases Plan.overrun? source.width feed.selection with
          | none => simp [ih]
          | some i => simp [throw, throwThe, MonadExceptOf.throw]

theorem exists_resolveEntry_iff (hnodup : (order.map (·.name)).Nodup) {seed : Option UInt64}
    {entry : Entry ρ} :
    (∃ p, resolveEntry seed order entry = .ok p) ↔
      (∀ names ∈ entry.indexParams.values, names ⊆ order.map (·.name)) ∧
        ∀ feed ∈ entry.feeds.values, ∃ source ∈ order, source.name = feed.source ∧
          ∀ indices, feed.selection = some indices → ∀ i ∈ indices, i < source.width := by
  simp only [Table.values, List.forall_mem_map]
  rw [← @exists_resolveParams_iff _ _ entry.name _ entry.params,
    ← @exists_resolveFeeds_iff _ _ entry.name hnodup _ ∅]
  unfold resolveEntry
  cases resolveParams order entry.name entry.indexParams.entries entry.params with
  | error fault => simp [bind, Except.bind]
  | ok params =>
      cases resolveFeeds order entry.name entry.feeds.entries ∅ with
      | error fault => simp [bind, Except.bind]
      | ok feeds => simp [bind, Except.bind, pure, Except.pure]

end Names

/-! ## Orders of names and orders of indices -/

def Spells (names order : List String) (indices : List Nat) : Prop :=
  indices.map (fun i => names[i]?) = order.map some

section Spelling

variable {names order : List String} {indices : List Nat}

theorem exists_spelled (h : indices.Perm (List.range names.length)) :
    ∃ order, Spells names order indices ∧ order.Perm names := by
  have hspells : Spells names (indices.map fun i => names.getD i "") indices := by
    unfold Spells
    rw [List.map_map]
    refine List.map_congr_left fun i hi => ?_
    have hlt : i < names.length := List.mem_range.1 (h.subset hi)
    simp [hlt]
  have hall : (List.range names.length).map (fun i => names[i]?) = names.map some :=
    List.ext_getElem (by simp) fun i _ hi => by simp at hi; simp [hi]
  refine ⟨_, hspells, (List.map_perm_map_iff (Option.some_injective String)).1 ?_⟩
  rw [← hspells, ← hall]
  exact h.map _

theorem exists_indices (hnodup : names.Nodup) (h : order.Perm names) :
    ∃ indices, Spells names order indices ∧ indices.Perm (List.range names.length) := by
  have hall : names.map names.idxOf = List.range names.length :=
    List.ext_getElem (by simp) fun i _ _ => by simp [hnodup.idxOf_getElem]
  refine ⟨order.map names.idxOf, ?_, hall ▸ h.map _⟩
  unfold Spells
  rw [List.map_map]
  refine List.map_congr_left fun name hname => ?_
  have hlt : names.idxOf name < names.length := List.idxOf_lt_length_of_mem (h.subset hname)
  simp [hlt]

theorem pair_sublist_iff (hnodup : names.Nodup) (h : Spells names order indices) {i j : Nat}
    {a b : String} (hi : names[i]? = some a) (hj : names[j]? = some b) :
    [a, b].Sublist order ↔ [i, j].Sublist indices := by
  constructor
  · intro hpair
    have hnamed : ([a, b].map some).Sublist (indices.map fun i => names[i]?) := h ▸ hpair.map some
    obtain ⟨found, hfound, heq⟩ := List.sublist_map_iff.1 hnamed
    obtain ⟨k, l, rfl⟩ : ∃ k l, found = [k, l] :=
      List.length_eq_two.1 (by simpa using (congrArg List.length heq).symm)
    simp only [List.map_cons, List.map_nil, List.cons.injEq, and_true] at heq
    have hindex : ∀ {m n : Nat} {c : String}, names[m]? = some c → some c = names[n]? → n = m :=
      fun hm hn => ((List.getElem?_inj (List.getElem?_eq_some_iff.1 hm).1 hnodup).1 (hm.trans hn)).symm
    rwa [hindex hi heq.1, hindex hj heq.2] at hfound
  · intro hpair
    have hnamed := hpair.map fun i => names[i]?
    rw [h, List.map_cons, List.map_cons, hi, hj] at hnamed
    obtain ⟨found, hfound, heq⟩ := List.sublist_map_iff.1 hnamed
    have hsame : found = [a, b] := (List.map_injective_iff.2 (Option.some_injective String)) heq.symm
    rwa [hsame] at hfound

end Spelling

/-! ## Members of one group -/

theorem rel_of_pairwise_of_lt {related : Nat → Nat → Prop} {group : List Nat}
    (h : group.Pairwise related) (hascending : group.Pairwise (· < ·)) {i j : Nat} (hi : i ∈ group)
    (hj : j ∈ group) (hij : i < j) : related i j := by
  obtain ⟨k, hk, rfl⟩ := List.mem_iff_getElem.1 hi
  obtain ⟨l, hl, rfl⟩ := List.mem_iff_getElem.1 hj
  have hkl : k < l := by
    rcases Nat.lt_trichotomy k l with hkl | rfl | hlk
    · exact hkl
    · exact absurd hij (Nat.lt_irrefl _)
    · exact absurd (List.pairwise_iff_getElem.1 hascending l k hl hk hlk) (Nat.lt_asymm hij)
  exact List.pairwise_iff_getElem.1 h k l hk hl hkl

theorem sameGroup_congr {registry : Registry ρ τ} {a b : String} (h : registry.sameGroup a b) :
    registry.sameGroup a = registry.sameGroup b := by
  rcases of_decide_eq_true h with rfl | ⟨hsome, heq⟩
  · rfl
  · funext c
    simp only [sameGroup, heq ▸ hsome, heq, true_and]
    congr 1
    refine propext ⟨?_, ?_⟩
    · rintro (rfl | hc)
      · exact Or.inr heq.symm
      · exact Or.inr hc
    · rintro (rfl | hc)
      · exact Or.inr rfl
      · exact Or.inr hc

theorem Precedes.position_lt {registry : Registry ρ τ} {a b : String} (h : registry.Precedes a b)
    (hsame : registry.sameGroup a b) : registry.position a < registry.position b := by
  rcases h with hlt | ⟨-, hlt⟩
  · rw [groupPosition, groupPosition, sameGroup_congr hsame] at hlt
    exact absurd hlt (Nat.lt_irrefl _)
  · exact hlt

/-! ## The assembled plan -/

section Assembled

variable {registry : Registry ρ τ} {spec : RunSpec τ}

theorem exists_assemble_iff (hnodup : registry.names.Nodup) :
    (∃ assembled, registry.assemble spec = .ok assembled) ↔
      (∀ entry ∈ registry.entries, ∀ names ∈ entry.indexParams.values, names ⊆ registry.names) ∧
        ∀ entry ∈ registry.entries, ∀ feed ∈ entry.feeds.values, feed.InRange registry := by
  have hperm := perm_ordered registry.entries
  have hnames := hperm.map (·.name)
  have hplanned : (∃ assembled, registry.assemble spec = .ok assembled) ↔
      ∀ entry ∈ ordered registry.entries,
        ∃ p, resolveEntry registry.seed (ordered registry.entries) entry = .ok p := by
    constructor
    · rintro ⟨assembled, h⟩ entry hentry
      obtain ⟨partitions, hpartitions, -⟩ := bind_eq_ok h
      obtain ⟨i, hi⟩ := List.mem_iff_getElem?.1 hentry
      obtain ⟨p, -, hp⟩ := exists_of_forall₂ (mapM_eq_ok hpartitions) hi
      exact ⟨p, hp⟩
    · intro h
      obtain ⟨partitions, hpartitions⟩ := exists_mapM_ok h
      unfold ordered at hpartitions
      simp only [assemble, hpartitions, bind, Except.bind, pure, Except.pure]
      exact ⟨_, rfl⟩
  rw [hplanned]
  simp only [exists_resolveEntry_iff (hnames.nodup_iff.2 hnodup), hperm.mem_iff, hnames.subset_congr_right,
    forall_and, NamedFeed.InRange, names]

variable {plan : Plan} {order : List (Entry ρ)} (hnodup : registry.names.Nodup)
  (h : registry.assemble spec = .ok (plan, order))

include h

theorem shapes_iff :
    (∀ p ∈ plan.partitions, 0 < p.width ∧ 0 < p.depth ∧ p.initial.length = p.width) ↔
      ∀ entry ∈ registry.entries, 0 < entry.width ∧ 0 < entry.depth ∧ entry.initial.length = entry.width := by
  obtain ⟨rfl, hplanned, -⟩ := assemble_eq_ok h
  simp only [← (perm_ordered registry.entries).mem_iff]
  refine (forall_mem_iff_of_forall₂ hplanned fun entry p hentry => ?_).symm
  rw [hentry.width, hentry.depth, hentry.initial]

theorem timelineDepth_of_assemble :
    plan.timelineDepth = (registry.entries.map (·.depth)).foldl max spec.timelineDepth := by
  obtain ⟨rfl, hplanned, -, -, hdepth⟩ := assemble_eq_ok h
  have hdepths : (ordered registry.entries).map (·.depth) = plan.partitions.map (·.depth) :=
    map_eq_of_forall₂ (fun _ _ hentry => hentry.depth.symm) hplanned
  rw [hdepth, ← hdepths]
  exact ((perm_ordered registry.entries).map _).foldl_eq _

theorem exists_planned {i : Nat} {p : PartitionPlan} (hp : plan.partitions[i]? = some p) :
    ∃ entry ∈ registry.entries, entry.Planned plan.names registry.seed p := by
  obtain ⟨rfl, hplanned, -⟩ := assemble_eq_ok h
  obtain ⟨entry, hentry, hplan⟩ := exists_of_forall₂ hplanned.flip hp
  exact ⟨entry, (perm_ordered registry.entries).subset (List.mem_of_getElem? hentry),
    names_of_assemble h ▸ hplan⟩

theorem exists_named {i : Nat} {p : PartitionPlan} (hp : plan.partitions[i]? = some p) {feed : Feed}
    (hfeed : feed ∈ p.feeds.values) : ∃ entry ∈ registry.entries, ∃ named ∈ entry.feeds.values,
      p.name = entry.name ∧ Refers plan.names named feed := by
  obtain ⟨entry, hentry, hplan⟩ := exists_planned h hp
  obtain ⟨param, hget⟩ := Table.mem_values_iff.1 hfeed
  cases hnamed : entry.feeds.get? param with
  | none => cases (hplan.unfed param hnamed).symm.trans hget
  | some named =>
      obtain ⟨found, hfound, hrefers⟩ := hplan.fed param named hnamed
      obtain rfl := Option.some.inj (hget.symm.trans hfound)
      exact ⟨entry, hentry, named, Table.mem_values_iff.2 ⟨param, hnamed⟩, hplan.name, hrefers⟩

theorem exists_feed {entry : Entry ρ} (hentry : entry ∈ registry.entries) {named : NamedFeed}
    (hnamed : named ∈ entry.feeds.values) : ∃ (i : Nat) (p : PartitionPlan), plan.partitions[i]? = some p ∧
      p.name = entry.name ∧ ∃ feed ∈ p.feeds.values, Refers plan.names named feed := by
  obtain ⟨rfl, hplanned, -⟩ := assemble_eq_ok h
  obtain ⟨i, hi⟩ := List.mem_iff_getElem?.1 ((perm_ordered registry.entries).mem_iff.2 hentry)
  obtain ⟨p, hp, hplan⟩ := exists_of_forall₂ hplanned hi
  obtain ⟨param, hget⟩ := Table.mem_values_iff.1 hnamed
  obtain ⟨feed, hfeed, hrefers⟩ := hplan.fed param named hget
  exact ⟨i, p, hp, hplan.name, feed, Table.mem_values_iff.2 ⟨param, hfeed⟩, names_of_assemble h ▸ hrefers⟩

include hnodup

theorem feeds_inRange {p : PartitionPlan} (hp : p ∈ plan.partitions) {feed : Feed}
    (hfeed : feed ∈ p.feeds.values) : feed.InRange plan := by
  obtain ⟨-, hinRange⟩ := (exists_assemble_iff hnodup).1 ⟨_, h⟩
  obtain ⟨i, hi⟩ := List.mem_iff_getElem?.1 hp
  obtain ⟨entry, hentry, named, hnamed, -, hsource, hselection⟩ := exists_named h hi hfeed
  obtain ⟨source, hmem, hname, hwidth⟩ := hinRange entry hentry named hnamed
  rw [Plan.names, List.getElem?_map, Option.map_eq_some_iff] at hsource
  obtain ⟨q, hq, hqname⟩ := hsource
  obtain ⟨other, hother, hplan⟩ := exists_planned h hq
  have hsame : other = source :=
    List.inj_on_of_nodup_map hnodup hother hmem (hplan.name.symm.trans (hqname.trans hname.symm))
  exact ⟨q, hq, by rwa [hselection, hplan.width, hsame]⟩

theorem wellFormed_iff_of_assemble : plan.WellFormed ↔
    0 < (registry.entries.map (·.depth)).foldl max spec.timelineDepth ∧ ∀ entry ∈ registry.entries,
      0 < entry.width ∧ 0 < entry.depth ∧ entry.initial.length = entry.width := by
  rw [← timelineDepth_of_assemble h, ← shapes_iff h]
  constructor
  · exact fun hwell => ⟨hwell.timelineDepth, hwell.shapes⟩
  · rintro ⟨hdepth, hshapes⟩
    exact {
      timelineDepth := hdepth
      names := (perm_names_of_assemble h).nodup_iff.2 hnodup
      shapes := hshapes
      feeds := fun p hp feed hfeed => feeds_inRange hnodup h hp hfeed
      groups := Or.inr ⟨fun hnil => group_ne_nil_of_assemble h hnil rfl, flatten_groups_of_assemble h⟩ }

/-! ## The order in the assembled plan -/

section Order

variable {names : List String} {indices : List Nat} (hspells : Spells plan.names names indices)

include hspells

theorem feeds_iff_of_spells :
    (∀ (i : Nat) p, plan.partitions[i]? = some p → ∀ feed ∈ p.feeds.values,
        [feed.source, i].Sublist indices) ↔
      ∀ entry ∈ registry.entries, ∀ feed ∈ entry.feeds.values, [feed.source, entry.name].Sublist names := by
  have hunique : plan.names.Nodup := (perm_names_of_assemble h).nodup_iff.2 hnodup
  have hname : ∀ {i : Nat} {p : PartitionPlan}, plan.partitions[i]? = some p →
      plan.names[i]? = some p.name := fun hp => by rw [Plan.names, List.getElem?_map, hp, Option.map_some]
  constructor
  · intro hfeeds entry hentry named hnamed
    obtain ⟨i, p, hp, hsame, feed, hfeed, hsource, -⟩ := exists_feed h hentry hnamed
    exact (pair_sublist_iff hunique hspells hsource (hsame ▸ hname hp)).2 (hfeeds i p hp feed hfeed)
  · intro hfeeds i p hp feed hfeed
    obtain ⟨entry, hentry, named, hnamed, hsame, hsource, -⟩ := exists_named h hp hfeed
    exact (pair_sublist_iff hunique hspells hsource (hsame ▸ hname hp)).1 (hfeeds entry hentry named hnamed)

theorem groups_iff_of_spells :
    (∀ group ∈ plan.groups, group.Pairwise fun i j => [i, j].Sublist indices) ↔
      ∀ a ∈ registry.names, ∀ b ∈ registry.names, registry.sameGroup a b →
        registry.position a < registry.position b → [a, b].Sublist names := by
  have hnames := perm_names_of_assemble h
  have hunique : plan.names.Nodup := hnames.nodup_iff.2 hnodup
  have hprecedes : plan.names.Pairwise registry.Precedes :=
    names_of_assemble h ▸ pairwise_names_ordered hnodup
  have hflatten := flatten_groups_of_assemble h
  have hascending : ∀ group ∈ plan.groups, group.Pairwise (· < ·) :=
    (List.pairwise_flatten.1 (hflatten ▸ List.pairwise_lt_range)).1
  constructor
  · intro hgroups a ha b hb hsame hlt
    obtain ⟨i, hi⟩ := List.mem_iff_getElem?.1 (hnames.mem_iff.2 ha)
    obtain ⟨j, hj⟩ := List.mem_iff_getElem?.1 (hnames.mem_iff.2 hb)
    obtain ⟨group, hgroup, hmi, hmj⟩ := (sameGroup_iff_of_assemble h hnodup hi hj).2 hsame
    have hij : i < j := by
      rcases Nat.lt_trichotomy i j with hij | rfl | hji
      · exact hij
      · rw [Option.some.inj (hi.symm.trans hj)] at hlt
        exact absurd hlt (Nat.lt_irrefl _)
      · obtain ⟨hlti, hgeti⟩ := List.getElem?_eq_some_iff.1 hi
        obtain ⟨hltj, hgetj⟩ := List.getElem?_eq_some_iff.1 hj
        have hba : registry.Precedes b a :=
          hgetj ▸ hgeti ▸ List.pairwise_iff_getElem.1 hprecedes j i hltj hlti hji
        have hsame' : registry.sameGroup b a := sameGroup_congr hsame ▸ by simp [sameGroup]
        exact absurd (hba.position_lt hsame') (Nat.lt_asymm hlt)
    rw [pair_sublist_iff hunique hspells hi hj]
    exact rel_of_pairwise_of_lt (hgroups group hgroup) (hascending group hgroup) hmi hmj hij
  · intro hgroups group hgroup
    refine (hascending group hgroup).imp_of_mem fun {i j} hi hj hlt => ?_
    have hsize : ∀ k ∈ group, k < plan.names.length := fun k hk => by
      have hmem := List.mem_flatten_of_mem hgroup hk
      rw [hflatten] at hmem
      simpa [Plan.names, Plan.size] using List.mem_range.1 hmem
    have hfirst := List.getElem?_eq_getElem (hsize i hi)
    have hsecond := List.getElem?_eq_getElem (hsize j hj)
    have hsame := (sameGroup_iff_of_assemble h hnodup hfirst hsecond).1 ⟨group, hgroup, hi, hj⟩
    have hposition := (List.pairwise_iff_getElem.1 hprecedes i j _ _ hlt).position_lt hsame
    exact (pair_sublist_iff hunique hspells hfirst hsecond).1
      (hgroups _ (hnames.subset (List.getElem_mem _)) _ (hnames.subset (List.getElem_mem _)) hsame hposition)

end Order

theorem exists_orders_iff_of_assemble : (∃ indices, plan.Orders indices) ↔ ∃ order, registry.Orders order := by
  have hnames := perm_names_of_assemble h
  have hunique : plan.names.Nodup := hnames.nodup_iff.2 hnodup
  have hsize : plan.size = plan.names.length := by rw [Plan.size, Plan.names, List.length_map]
  constructor
  · rintro ⟨indices, hperm, hfeeds, hgroups⟩
    obtain ⟨order, hspells, hperm'⟩ := exists_spelled (hsize ▸ hperm)
    exact ⟨order, hperm'.trans hnames, (feeds_iff_of_spells hnodup h hspells).1 hfeeds,
      (groups_iff_of_spells hnodup h hspells).1 hgroups⟩
  · rintro ⟨order, hperm, hfeeds, hgroups⟩
    obtain ⟨indices, hspells, hperm'⟩ := exists_indices hunique (hperm.trans hnames.symm)
    exact ⟨indices, hsize ▸ hperm', (feeds_iff_of_spells hnodup h hspells).2 hfeeds,
      (groups_iff_of_spells hnodup h hspells).2 hgroups⟩

theorem check_iff_of_assemble : plan.check = .ok () ↔
    0 < (registry.entries.map (·.depth)).foldl max spec.timelineDepth ∧
      (∀ entry ∈ registry.entries,
        0 < entry.width ∧ 0 < entry.depth ∧ entry.initial.length = entry.width) ∧
      ∃ order, registry.Orders order := by
  rw [Plan.check_eq_ok_iff_ordered, wellFormed_iff_of_assemble hnodup h,
    exists_orders_iff_of_assemble hnodup h, and_assoc]

end Assembled

/-- A registry is consistent if its names can be resolved and the check accepts the plan. -/
theorem consistent_iff {registry : Registry ρ τ} {spec : RunSpec τ} (hnodup : registry.names.Nodup) :
    registry.Consistent spec ↔
      ∃ plan order, registry.assemble spec = .ok (plan, order) ∧ plan.check = .ok () := by
  constructor
  · rintro ⟨hlisted, hfeeds, hdepth, hshapes, horder⟩
    obtain ⟨⟨plan, order⟩, h⟩ := (exists_assemble_iff hnodup).2 ⟨hlisted, hfeeds⟩
    exact ⟨plan, order, h, (check_iff_of_assemble hnodup h).2 ⟨hdepth, hshapes, horder⟩⟩
  · rintro ⟨plan, order, h, hcheck⟩
    obtain ⟨hlisted, hfeeds⟩ := (exists_assemble_iff hnodup).1 ⟨_, h⟩
    obtain ⟨hdepth, hshapes, horder⟩ := (check_iff_of_assemble hnodup h).1 hcheck
    exact ⟨hlisted, hfeeds, hdepth, hshapes, horder⟩

/-! ## Rules -/

theorem configureRules_eq_ok_iff [UpdateRule ρ] {plan : Plan} {index : Nat} {rules : List ρ} :
    (configureRules plan index rules).1 = .ok () ↔ ∀ (i : Nat) rule, rules[i]? = some rule →
      (UpdateRule.configure (index + i) plan rule).1 = .ok () := by
  induction rules generalizing index with
  | nil => simp [configureRules]
  | cons rule rest ih =>
      rw [← Nat.and_forall_add_one]
      simp only [List.getElem?_cons_zero, List.getElem?_cons_succ, Option.some.injEq, forall_eq',
        Nat.add_zero, ← Nat.add_assoc, Nat.add_right_comm index _ 1]
      rw [← ih]
      conv_lhs => rw [configureRules]
      cases UpdateRule.configure index plan rule with
      | mk result next => cases result <;> simp

section Outcome

variable {registry : Registry ρ τ} {spec : RunSpec τ}

theorem exists_resolve_iff_of_check [UpdateRule ρ] {plan : Plan} {order : List (Entry ρ)}
    (hspec : registry.spec = some spec) (hassemble : registry.assemble spec = .ok (plan, order))
    (hcheck : plan.check = .ok ()) : (∃ resolved, registry.resolve = .ok resolved) ↔
      ∀ i entry, order[i]? = some entry → (UpdateRule.configure i plan entry.rule).1 = .ok () := by
  have hrules : (∀ i entry, order[i]? = some entry → (UpdateRule.configure i plan entry.rule).1 = .ok ()) ↔
      (configureRules plan 0 (order.map (·.rule))).1 = .ok () := by
    simp only [configureRules_eq_ok_iff, Nat.zero_add, List.getElem?_map, Option.map_eq_some_iff,
      forall_exists_index, and_imp, forall_apply_eq_imp_iff₂]
  rw [hrules]
  unfold resolve
  simp only [hspec, hassemble, hcheck, bind, Except.bind, liftM, monadLift, MonadLift.monadLift,
    Except.mapError, Behaviour.configure]
  cases configureRules plan 0 (order.map (·.rule)) with
  | mk result rules => cases result <;> simp [throw, throwThe, MonadExceptOf.throw, pure, Except.pure]

/-- What is refused before the rules are asked is refused for whatever rules. -/
theorem exists_fault_of_inconsistent (hnodup : registry.names.Nodup)
    (h : ¬ ∃ spec, registry.spec = some spec ∧ registry.Consistent spec) :
    ∃ fault, ∀ rules : UpdateRule ρ, @resolve _ _ rules registry = .error (.fault fault) := by
  cases hspec : registry.spec with
  | none => exact ⟨.noRunSpec, fun rules => by simp only [resolve, hspec]; rfl⟩
  | some spec =>
      cases hassemble : registry.assemble spec with
      | error fault => exact ⟨fault, fun rules => by simp only [resolve, hspec, hassemble]; rfl⟩
      | ok assembled =>
          obtain ⟨plan, order⟩ := assembled
          cases hcheck : plan.check with
          | error fault =>
              refine ⟨fault, fun rules => ?_⟩
              simp only [resolve, hspec, hassemble, hcheck, bind, Except.bind, liftM, monadLift,
                MonadLift.monadLift, Except.mapError]
          | ok _ => exact absurd ⟨spec, hspec, (consistent_iff hnodup).2 ⟨plan, order, hassemble, hcheck⟩⟩ h

theorem exists_resolve_iff [UpdateRule ρ] (hnodup : registry.names.Nodup) :
    (∃ resolved, registry.resolve = .ok resolved) ↔
      ∃ spec, registry.spec = some spec ∧ registry.Consistent spec ∧ registry.Accepted spec := by
  by_cases h : ∃ spec, registry.spec = some spec ∧ registry.Consistent spec
  · obtain ⟨spec, hspec, hconsistent⟩ := h
    obtain ⟨plan, order, hassemble, hcheck⟩ := (consistent_iff hnodup).1 hconsistent
    rw [exists_resolve_iff_of_check hspec hassemble hcheck]
    constructor
    · exact fun haccepted => ⟨spec, hspec, hconsistent, plan, order, hassemble, haccepted⟩
    · rintro ⟨found, hfound, -, plan', order', hassemble', haccepted⟩
      obtain rfl := Option.some.inj (hspec.symm.trans hfound)
      cases hassemble.symm.trans hassemble'
      exact haccepted
  · obtain ⟨fault, hfault⟩ := exists_fault_of_inconsistent hnodup h
    constructor
    · rintro ⟨resolved, hresolve⟩
      cases (hfault _).symm.trans hresolve
    · rintro ⟨spec, hspec, hconsistent, -⟩
      exact absurd ⟨spec, hspec, hconsistent⟩ h

end Outcome

/-- Whatever requests built a registry, it resolves exactly if it is consistent and its rules accept the
plan. A plan that comes out is runnable, and if there is room for it, all that can end its start is the
output. -/
theorem configuration_errors_surface_first [UpdateRule ρ] (requests : List (Request ρ τ)) :
    ((∃ resolved, (built requests).resolve = .ok resolved) ↔ ∃ spec, (built requests).spec = some spec ∧
      (built requests).Consistent spec ∧ (built requests).Accepted spec) ∧
    ((¬ ∃ spec, (built requests).spec = some spec ∧ (built requests).Consistent spec) →
      ∃ fault, ∀ rules : UpdateRule ρ, @resolve _ _ rules (built requests) = .error (.fault fault)) ∧
    ∀ plan behaviour, (built requests).resolve = .ok (plan, behaviour) → plan.check = .ok () ∧
      (plan.HasRoom → (∃ sim, (Simulation.start plan behaviour).1 = .ok sim) ∨
        ∃ p ∈ plan.partitions, ∃ stop, (Simulation.start plan behaviour).1 = .error stop ∧
          (behaviour.output.offer ⟨p.name, plan.startTime, p.initial⟩ 0).1 = .error stop ∧
          ((∃ detail, stop = .fault (.outputFailed p.name plan.startTime detail)) ∨
            ∃ crash, stop = .crash crash)) := by
  have hnodup := nodup_names_built requests
  refine ⟨exists_resolve_iff hnodup, exists_fault_of_inconsistent hnodup, fun plan behaviour h => ?_⟩
  have hcheck := check_of_resolve h
  refine ⟨hcheck, fun hroom => ?_⟩
  have hprepare := Simulation.exists_prepare_of_room hcheck (resolves_of_nodup hnodup h).count hroom
  rcases Simulation.exists_start_or_turned_down hprepare with hstart | ⟨p, hp, stop, hoffer, hstart⟩
  · exact Or.inl hstart
  · refine Or.inr ⟨p, hp, stop, hstart, hoffer, ?_⟩
    rcases Output.offer_eq_error hoffer with ⟨crash, rfl, -⟩ | ⟨fault, rfl, -⟩
    · exact Or.inr ⟨crash, rfl⟩
    · exact Or.inl ⟨fault.message, rfl⟩

def echoRequests : List (Request StockRule StockPace) := [
  .simulate (.new (.steps 1) (.constant 1)),
  .add { Entry.new "echo" .relay [1] with feeds := .ofList [(Relay.param, ⟨"echo", none⟩)] }]

theorem pairRequests_surface :
    (∃ spec, (built pairRequests).spec = some spec ∧ (built pairRequests).Consistent spec ∧
      (built pairRequests).Accepted spec) ∧
    (∃ fault, ∀ rules : UpdateRule StockRule,
      @resolve _ _ rules (built echoRequests) = .error (.fault fault)) ∧
    pairPlan.check = .ok () ∧ ∃ sim, (Simulation.start pairPlan pairBehaviour).1 = .ok sim := by
  have hresolve : (built pairRequests).resolve = .ok (pairPlan, pairBehaviour) := rfl
  have hroom : pairPlan.HasRoom := ⟨by decide, by decide⟩
  have hinconsistent : ¬ ∃ spec, (built echoRequests).spec = some spec ∧
      (built echoRequests).Consistent spec := by
    rintro ⟨spec, -, hconsistent⟩
    obtain ⟨order, horder⟩ := hconsistent.order
    have hpair := horder.feeds _ List.mem_cons_self ⟨"echo", none⟩ List.mem_cons_self
    have hlength := hpair.length_le.trans_eq horder.perm.length_eq
    exact absurd hlength (by decide)
  obtain ⟨hiff, -, hplans⟩ := configuration_errors_surface_first pairRequests
  obtain ⟨-, hrefused, -⟩ := configuration_errors_surface_first echoRequests
  obtain ⟨hcheck, hstart⟩ := hplans pairPlan pairBehaviour hresolve
  refine ⟨hiff.1 ⟨_, hresolve⟩, hrefused hinconsistent, hcheck, ?_⟩
  rcases hstart hroom with hsim | ⟨p, -, stop, hstop, -⟩
  · exact hsim
  · cases hstop

/-- A run whose output crashes on whatever it is offered. -/
def loudRequests : List (Request StockRule StockPace) := [
  .simulate { RunSpec.new (.steps 1) (.constant 1) with
    output := ⟨Output.always, fun _ => (.error (.crash .raised), [])⟩ },
  .add (Entry.new "first" .hold [0])]

/-- A start can end otherwise than with a simulation or a failed output. -/
theorem loudRequests_crash : ∃ plan behaviour, (built loudRequests).resolve = .ok (plan, behaviour) ∧
    plan.HasRoom ∧ ¬ ((∃ sim, (Simulation.start plan behaviour).1 = .ok sim) ∨
      ∃ name time detail,
        (Simulation.start plan behaviour).1 = .error (.fault (.outputFailed name time detail))) := by
  refine ⟨_, _, rfl, ⟨by decide, by decide⟩, ?_⟩
  rintro (⟨sim, h⟩ | ⟨name, time, detail, h⟩)
  · cases h
  · cases h

end Registry

end Tandem
