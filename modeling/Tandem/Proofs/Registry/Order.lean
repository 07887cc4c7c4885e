import Mathlib.Data.List.Perm.Basic
import Tandem.Proofs.Lists
import Tandem.Proofs.Registry.Requests
import Tandem.Registry.Resolve

/-!
# The order of registered partitions

Entries get their indices group by group. The groups come in the order of their first members, and the
members of a group in the order of their registration.
-/

namespace Tandem.Registry

variable {ρ τ : Type}

/-! ## Entries in groups -/

def joins (label : Option String) (entry : Entry ρ) : Bool := entry.group.isSome ∧ label = entry.group

/-- Entries that run in one group: an entry without a label is alone in its group. -/
def Together (a b : Entry ρ) : Prop := a = b ∨ joins a.group b

theorem joins_iff {label : Option String} {entry : Entry ρ} :
    joins label entry ↔ entry.group.isSome ∧ label = entry.group := by
  simp [joins]

theorem Together.symm {a b : Entry ρ} (h : Together a b) : Together b a := by
  rcases h with rfl | h
  · exact Or.inl rfl
  · obtain ⟨hsome, heq⟩ := joins_iff.1 h
    exact Or.inr (joins_iff.2 ⟨heq ▸ hsome, heq.symm⟩)

theorem Together.trans {a b c : Entry ρ} (h : Together a b) (h' : Together b c) : Together a c := by
  rcases h with rfl | h
  · exact h'
  · rcases h' with rfl | h'
    · exact Or.inr h
    · obtain ⟨-, heq⟩ := joins_iff.1 h
      exact Or.inr (heq ▸ h')

theorem foldl_place_cons (group : Group ρ) (groups : List (Group ρ)) (entries : List (Entry ρ)) :
    entries.foldl (fun groups entry => place entry groups) (group :: groups) =
      { group with members := group.members ++ entries.filter (joins group.label) } ::
        (entries.filter fun entry => !joins group.label entry).foldl
          (fun groups entry => place entry groups) groups := by
  induction entries generalizing group groups with
  | nil => simp
  | cons entry rest ih =>
      rw [List.foldl_cons, place]
      by_cases hjoins : entry.group.isSome ∧ group.label = entry.group
      · have htrue : joins group.label entry = true := joins_iff.2 hjoins
        rw [if_pos hjoins, ih]
        simp [htrue]
      · have hfalse : joins group.label entry = false := by
          rw [← Bool.not_eq_true, joins_iff]
          exact hjoins
        rw [if_neg hjoins, ih]
        simp [hfalse]

theorem grouped_cons (entry : Entry ρ) (rest : List (Entry ρ)) :
    grouped (entry :: rest) =
      ⟨entry.group, entry :: rest.filter (joins entry.group)⟩ ::
        grouped (rest.filter fun other => !joins entry.group other) := by
  simp only [grouped, List.foldl_cons, place, foldl_place_cons, List.singleton_append]

/-- What the entries that do not join the first one have, all entries have. -/
theorem grouped_induction {motive : List (Entry ρ) → Prop} (nil : motive [])
    (cons : ∀ entry rest, motive (rest.filter fun other => !joins entry.group other) →
      motive (entry :: rest))
    (entries : List (Entry ρ)) : motive entries :=
  match entries with
  | [] => nil
  | entry :: rest => cons entry rest (grouped_induction nil cons _)
termination_by entries.length
decreasing_by exact Nat.lt_succ_of_le (List.length_filter_le _ _)

def ordered (entries : List (Entry ρ)) : List (Entry ρ) := (grouped entries).flatMap (·.members)

theorem ordered_cons (entry : Entry ρ) (rest : List (Entry ρ)) :
    ordered (entry :: rest) = entry :: rest.filter (joins entry.group) ++
      ordered (rest.filter fun other => !joins entry.group other) := by
  rw [ordered, grouped_cons, List.flatMap_cons, ordered]

theorem perm_ordered (entries : List (Entry ρ)) : (ordered entries).Perm entries := by
  induction entries using grouped_induction with
  | nil => exact .nil
  | cons entry rest ih =>
      rw [ordered_cons, List.cons_append]
      exact ((ih.append_left _).trans (List.filter_append_perm _ rest)).cons entry

theorem members_ne_nil {entries : List (Entry ρ)} {group : Group ρ} (h : group ∈ grouped entries) :
    group.members ≠ [] := by
  induction entries using grouped_induction with
  | nil => cases h
  | cons entry rest ih =>
      rw [grouped_cons] at h
      rcases List.mem_cons.1 h with rfl | h
      · exact List.cons_ne_nil _ _
      · exact ih h

theorem together_of_mem_group {entries : List (Entry ρ)} {group : Group ρ}
    (h : group ∈ grouped entries) {a b : Entry ρ} (ha : a ∈ group.members) (hb : b ∈ group.members) :
    Together a b := by
  induction entries using grouped_induction with
  | nil => cases h
  | cons entry rest ih =>
      rw [grouped_cons] at h
      rcases List.mem_cons.1 h with rfl | h
      · have hfirst : ∀ c ∈ entry :: rest.filter (joins entry.group), Together entry c := by
          intro c hc
          rcases List.mem_cons.1 hc with rfl | hc
          · exact Or.inl rfl
          · exact Or.inr (List.mem_filter.1 hc).2
        exact (hfirst a ha).symm.trans (hfirst b hb)
      · exact ih h

theorem mem_others {entry other : Entry ρ} {rest : List (Entry ρ)} (hmem : other ∈ entry :: rest)
    (h : ¬ Together entry other) : other ∈ rest.filter fun other => !joins entry.group other := by
  rcases List.mem_cons.1 hmem with rfl | hmem
  · exact absurd (Or.inl rfl) h
  · exact List.mem_filter.2 ⟨hmem, by simpa using fun hjoins => h (Or.inr hjoins)⟩

theorem exists_group {entries : List (Entry ρ)} {a b : Entry ρ} (ha : a ∈ entries) (hb : b ∈ entries)
    (h : Together a b) : ∃ group ∈ grouped entries, a ∈ group.members ∧ b ∈ group.members := by
  induction entries using grouped_induction with
  | nil => cases ha
  | cons entry rest ih =>
      have hmember : ∀ c ∈ entry :: rest, Together entry c →
          c ∈ entry :: rest.filter (joins entry.group) := by
        rintro c hc (rfl | hjoins)
        · exact List.mem_cons_self
        · rcases List.mem_cons.1 hc with rfl | hc
          · exact List.mem_cons_self
          · exact List.mem_cons_of_mem _ (List.mem_filter.2 ⟨hc, hjoins⟩)
      rw [grouped_cons]
      by_cases hentry : Together entry a
      · exact ⟨_, List.mem_cons_self, hmember a ha hentry, hmember b hb (hentry.trans h)⟩
      · obtain ⟨group, hgroup, found⟩ :=
          ih (mem_others ha hentry) (mem_others hb fun hb => hentry (hb.trans h.symm))
        exact ⟨group, List.mem_cons_of_mem _ hgroup, found⟩

/-- Entries are numbered in their order, and all entries of a group have the least number in it. -/
structure Numbered (position first : Entry ρ → Nat) (entries : List (Entry ρ)) : Prop where
  ascending : entries.Pairwise fun a b => position a < position b
  attained : ∀ a ∈ entries, ∃ b ∈ entries, Together a b ∧ first a = position b
  least : ∀ a ∈ entries, ∀ b ∈ entries, Together a b → first a ≤ position b

namespace Numbered

variable {position first : Entry ρ → Nat} {entry : Entry ρ} {rest : List (Entry ρ)}
  (h : Numbered position first (entry :: rest))

include h

theorem lt {other : Entry ρ} (hother : other ∈ rest) : position entry < position other :=
  (List.pairwise_cons.1 h.ascending).1 other hother

theorem first_eq {a : Entry ρ} (ha : a ∈ entry :: rest) (htogether : Together a entry) :
    first a = position entry := by
  refine Nat.le_antisymm (h.least a ha entry List.mem_cons_self htogether) ?_
  obtain ⟨b, hb, -, heq⟩ := h.attained a ha
  rw [heq]
  rcases List.mem_cons.1 hb with rfl | hb
  · exact Nat.le_refl _
  · exact Nat.le_of_lt (h.lt hb)

theorem others : Numbered position first (rest.filter fun other => !joins entry.group other) := by
  have hmem : ∀ a ∈ rest.filter (fun other => !joins entry.group other), a ∈ entry :: rest :=
    fun a ha => List.mem_cons_of_mem _ (List.mem_filter.1 ha).1
  constructor
  case ascending => exact (List.pairwise_cons.1 h.ascending).2.filter _
  case attained =>
    intro a ha
    have hapart : ¬ Together entry a := by
      rintro (rfl | hjoins)
      · exact Nat.lt_irrefl _ (h.lt (List.mem_filter.1 ha).1)
      · simp [hjoins] at ha
    obtain ⟨b, hb, hab, heq⟩ := h.attained a (hmem a ha)
    exact ⟨b, mem_others hb fun hentry => hapart (hentry.trans hab.symm), hab, heq⟩
  case least => exact fun a ha b hb => h.least a (hmem a ha) b (hmem b hb)

end Numbered

/-- The order of the indices is that of the groups' numbers, and inside a group that of the entries'. -/
theorem pairwise_ordered {position first : Entry ρ → Nat} {entries : List (Entry ρ)}
    (h : Numbered position first entries) : (ordered entries).Pairwise fun a b =>
      first a < first b ∨ first a = first b ∧ position a < position b := by
  induction entries using grouped_induction with
  | nil => exact .nil
  | cons entry rest ih =>
      have hsublist : (entry :: rest.filter (joins entry.group)).Sublist (entry :: rest) :=
        List.filter_sublist.cons_cons entry
      have hfirst : ∀ a ∈ entry :: rest.filter (joins entry.group), first a = position entry := by
        intro a ha
        refine h.first_eq (hsublist.subset ha) ?_
        rcases List.mem_cons.1 ha with rfl | ha
        · exact Or.inl rfl
        · exact Together.symm (Or.inr (List.mem_filter.1 ha).2)
      rw [ordered_cons, List.pairwise_append]
      refine ⟨?_, ih h.others, fun a ha b hb => Or.inl ?_⟩
      · exact (h.ascending.sublist hsublist).imp_of_mem fun ha hb hlt =>
          Or.inr ⟨(hfirst _ ha).trans (hfirst _ hb).symm, hlt⟩
      · obtain ⟨c, hc, -, heq⟩ := h.others.attained b ((perm_ordered _).subset hb)
        rw [hfirst a ha, heq]
        exact h.lt (List.mem_filter.1 hc).1

/-! ## Groups of indices -/

theorem flatten_numberGroups (next : Nat) (groups : List (Group ρ)) :
    (numberGroups next groups).flatten = List.range' next (groups.flatMap (·.members)).length := by
  induction groups generalizing next with
  | nil => rfl
  | cons group rest ih =>
      rw [numberGroups, List.flatten_cons, ih, List.flatMap_cons, List.length_append,
        List.range'_append_1]

theorem forall₂_numberGroups (before : List (Entry ρ)) (groups : List (Group ρ)) :
    List.Forall₂ (fun numbers group => numbers.map
        (fun i => (before ++ groups.flatMap (·.members))[i]?) = group.members.map some)
      (numberGroups before.length groups) groups := by
  induction groups generalizing before with
  | nil => exact .nil
  | cons group rest ih =>
      refine .cons ?_ ?_
      · refine List.ext_getElem (by simp) fun k hk _ => ?_
        rw [List.length_map, List.length_range'] at hk
        simp only [List.getElem_map, List.getElem_range', List.flatMap_cons, Nat.one_mul]
        rw [List.getElem?_append_right (Nat.le_add_right _ _), Nat.add_sub_cancel_left,
          List.getElem?_append_left hk, List.getElem?_eq_getElem hk]
      · have hrest := ih (before ++ group.members)
        rwa [List.length_append, List.append_assoc] at hrest

theorem exists_of_mem_numberGroups {entries : List (Entry ρ)} {numbers : List Nat}
    (h : numbers ∈ numberGroups 0 (grouped entries)) : ∃ group ∈ grouped entries,
      numbers.map (fun i => (ordered entries)[i]?) = group.members.map some := by
  obtain ⟨k, hk⟩ := List.mem_iff_getElem?.1 h
  obtain ⟨group, hgroup, hmembers⟩ := exists_of_forall₂ (forall₂_numberGroups [] (grouped entries)) hk
  exact ⟨group, List.mem_of_getElem? hgroup, hmembers⟩

theorem ne_nil_of_mem_numberGroups {entries : List (Entry ρ)} {numbers : List Nat}
    (h : numbers ∈ numberGroups 0 (grouped entries)) : numbers ≠ [] := by
  rintro rfl
  obtain ⟨group, hgroup, hmembers⟩ := exists_of_mem_numberGroups h
  exact members_ne_nil hgroup (List.map_eq_nil_iff.1 hmembers.symm)

theorem together_iff {entries : List (Entry ρ)} (hnodup : entries.Nodup) {i j : Nat} {a b : Entry ρ}
    (hi : (ordered entries)[i]? = some a) (hj : (ordered entries)[j]? = some b) :
    (∃ numbers ∈ numberGroups 0 (grouped entries), i ∈ numbers ∧ j ∈ numbers) ↔ Together a b := by
  have hmem : ∀ {k : Nat} {c : Entry ρ}, (ordered entries)[k]? = some c → c ∈ entries :=
    fun hk => (perm_ordered entries).subset (List.mem_of_getElem? hk)
  constructor
  · rintro ⟨numbers, hnumbers, hmi, hmj⟩
    obtain ⟨group, hgroup, hmembers⟩ := exists_of_mem_numberGroups hnumbers
    have hmember : ∀ {k : Nat} {c : Entry ρ}, k ∈ numbers → (ordered entries)[k]? = some c →
        c ∈ group.members := by
      intro k c hk hc
      have hlist := List.mem_map_of_mem (f := fun i => (ordered entries)[i]?) hk
      rw [hmembers, hc] at hlist
      simpa using hlist
    exact together_of_mem_group hgroup (hmember hmi hi) (hmember hmj hj)
  · intro h
    obtain ⟨group, hgroup, ha, hb⟩ := exists_group (hmem hi) (hmem hj) h
    obtain ⟨k, hk⟩ := List.mem_iff_getElem?.1 hgroup
    obtain ⟨numbers, hnumbers, hmembers⟩ :=
      exists_of_forall₂ (forall₂_numberGroups [] (grouped entries)).flip hk
    have hindex : ∀ {k : Nat} {c : Entry ρ}, c ∈ group.members → (ordered entries)[k]? = some c →
        k ∈ numbers := by
      intro k c hc hk
      obtain ⟨k', hk', heq⟩ := List.mem_map.1 (hmembers ▸ List.mem_map_of_mem (f := some) hc)
      have hsame : k' = k :=
        (List.getElem?_inj (List.getElem?_eq_some_iff.1 heq).1
          ((perm_ordered entries).nodup_iff.2 hnodup)).1 (heq.trans hk.symm)
      exact hsame ▸ hk'
    exact ⟨numbers, List.mem_of_getElem? hnumbers, hindex ha hi, hindex hb hj⟩

/-! ## Names in their order -/

def label? (registry : Registry ρ τ) (name : String) : Option String :=
  (registry.get? name).bind (·.group)

/-- Whether two names are in one group: a name without a label is alone in its group. -/
def sameGroup (registry : Registry ρ τ) (a b : String) : Bool :=
  a = b ∨ (registry.label? a).isSome ∧ registry.label? a = registry.label? b

/-- How many names were registered before `name`. -/
def position (registry : Registry ρ τ) (name : String) : Nat := registry.names.idxOf name

/-- How many names were registered before the first one in the group of `name`. -/
def groupPosition (registry : Registry ρ τ) (name : String) : Nat :=
  registry.names.findIdx (registry.sameGroup name)

/-- Names go by their groups, and inside a group by their registration. -/
def Precedes (registry : Registry ρ τ) (a b : String) : Prop :=
  registry.groupPosition a < registry.groupPosition b ∨
    registry.groupPosition a = registry.groupPosition b ∧ registry.position a < registry.position b

section Named

variable {registry : Registry ρ τ} (hnodup : registry.names.Nodup)

include hnodup

theorem label?_of_mem {entry : Entry ρ} (h : entry ∈ registry.entries) :
    registry.label? entry.name = entry.group := by
  rw [label?, get?_of_mem hnodup h, Option.bind_some]

theorem sameGroup_iff {a b : Entry ρ} (ha : a ∈ registry.entries) (hb : b ∈ registry.entries) :
    registry.sameGroup a.name b.name ↔ Together a b := by
  have hname : a.name = b.name ↔ a = b :=
    ⟨List.inj_on_of_nodup_map hnodup ha hb, fun heq => heq ▸ rfl⟩
  rw [sameGroup, decide_eq_true_iff, label?_of_mem hnodup ha, label?_of_mem hnodup hb, hname, Together,
    joins_iff]
  exact or_congr_right (and_congr_left fun heq => heq ▸ Iff.rfl)

theorem position_getElem {k : Nat} (hk : k < registry.entries.length) :
    registry.position registry.entries[k].name = k := by
  have hlength : k < registry.names.length := by simpa [names] using hk
  have hname : registry.entries[k].name = registry.names[k] := by simp [names]
  rw [position, hname, hnodup.idxOf_getElem]

theorem pairwise_position : registry.entries.Pairwise
    fun a b => registry.position a.name < registry.position b.name := by
  refine List.pairwise_iff_getElem.2 fun i j hi hj hij => ?_
  rwa [position_getElem hnodup hi, position_getElem hnodup hj]

theorem exists_first {a : Entry ρ} (ha : a ∈ registry.entries) :
    ∃ b ∈ registry.entries, Together a b ∧ registry.groupPosition a.name = registry.position b.name := by
  have hlt : registry.groupPosition a.name < registry.names.length :=
    List.findIdx_lt_length_of_exists ⟨a.name, List.mem_map_of_mem ha, by simp [sameGroup]⟩
  have hk : registry.groupPosition a.name < registry.entries.length := by simpa [names] using hlt
  refine ⟨registry.entries[registry.groupPosition a.name], List.getElem_mem hk, ?_,
    (position_getElem hnodup hk).symm⟩
  have hfound : registry.sameGroup a.name registry.names[registry.groupPosition a.name] :=
    List.findIdx_getElem
  exact (sameGroup_iff hnodup ha (List.getElem_mem hk)).1 (by simpa [names] using hfound)

theorem groupPosition_le {a b : Entry ρ} (ha : a ∈ registry.entries) (hb : b ∈ registry.entries)
    (h : Together a b) : registry.groupPosition a.name ≤ registry.position b.name := by
  refine Nat.le_of_not_lt fun hlt => ?_
  have hmem : b.name ∈ registry.names := List.mem_map_of_mem hb
  have hno := List.not_of_lt_findIdx hlt
  simp only [position, List.getElem_idxOf (List.idxOf_lt_length_of_mem hmem)] at hno
  rw [(sameGroup_iff hnodup ha hb).2 h] at hno
  cases hno

theorem pairwise_names_ordered :
    ((ordered registry.entries).map (·.name)).Pairwise registry.Precedes :=
  List.pairwise_map.2 (pairwise_ordered ⟨pairwise_position hnodup, fun _ => exists_first hnodup,
    fun _ ha _ => groupPosition_le hnodup ha⟩)

end Named

end Tandem.Registry
