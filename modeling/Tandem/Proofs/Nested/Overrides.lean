import Mathlib.Data.List.Induction
import Tandem.Proofs.Nested.Loss
import Tandem.Proofs.Nested.Routes
import Tandem.Proofs.Table

/-!
# What overrides change

A param of the enclosing partition is routed to a field of an inner partition by its name alone. Overrides
come in name order, and each changes one field of one inner partition, so of those routed to one field the last
stays, and nothing else is touched. All of them apply to a copy of the stored plan: the next call begins with
that plan again.
-/

namespace Tandem.Nested

/-! ## One partition -/

def overrideAt (k : Nat) (p : PartitionPlan) (entry : String × List Float) : PartitionPlan :=
  match route? entry.1 with
  | some (inner, field) => if inner = k then overridePartition field entry.2 p else p
  | none => p

def lastFor (k : Nat) (field : String) (entries : List (String × List Float)) : Option (List Float) :=
  (entries.reverse.find? fun entry => decide (route? entry.1 = some (k, field))).map (·.2)

section Partition

variable {k : Nat} {p : PartitionPlan} {entry : String × List Float} {entries : List (String × List Float)}

theorem overrideAt_eq {field : String} (h : route? entry.1 = some (k, field)) :
    overrideAt k p entry = overridePartition field entry.2 p := by
  simp only [overrideAt, h, if_true]

theorem overrideAt_of_ne (h : ∀ field, route? entry.1 ≠ some (k, field)) : overrideAt k p entry = p := by
  unfold overrideAt
  split
  next inner field hroute =>
    refine if_neg fun heq => h field ?_
    rw [hroute, heq]
  next => rfl

theorem lastFor_concat (k : Nat) (field : String) (entries : List (String × List Float))
    (entry : String × List Float) : lastFor k field (entries ++ [entry]) =
      if route? entry.1 = some (k, field) then some entry.2 else lastFor k field entries := by
  rw [lastFor, List.reverse_concat, List.find?_cons]
  split
  next h => rw [if_pos (of_decide_eq_true h)]; rfl
  next h => rw [if_neg (of_decide_eq_false h)]; rfl

/-- What many overrides make of a partition: its last initial state and the last values of each param. -/
structure OverriddenBy (entries : List (String × List Float)) (k : Nat) (p q : PartitionPlan) : Prop where
  kept : q = { p with initial := q.initial, params := q.params }
  owner : q.params.owner = p.params.owner
  initial : q.initial = (lastFor k initialName entries).getD p.initial
  param : ∀ field, q.params.get? field =
    if field = initialName ∨ field = memoryName then p.params.get? field
    else (lastFor k field entries).or (p.params.get? field)

theorem OverriddenBy.skip {q : PartitionPlan} (h : OverriddenBy entries k p q)
    (hroute : ∀ field, route? entry.1 ≠ some (k, field)) : OverriddenBy (entries ++ [entry]) k p q where
  kept := h.kept
  owner := h.owner
  initial := by rw [lastFor_concat, if_neg (hroute _), h.initial]
  param field := by rw [lastFor_concat, if_neg (hroute _), h.param]

theorem OverriddenBy.concat {q : PartitionPlan} (h : OverriddenBy entries k p q) {field : String}
    (hroute : route? entry.1 = some (k, field)) :
    OverriddenBy (entries ++ [entry]) k p (overridePartition field entry.2 q) := by
  have hlast : ∀ other, lastFor k other (entries ++ [entry]) =
      if field = other then some entry.2 else lastFor k other entries := by
    intro other
    rw [lastFor_concat, hroute]
    simp
  have hparam : (field = initialName ∨ field = memoryName) → ∀ other, q.params.get? other =
      if other = initialName ∨ other = memoryName then p.params.get? other
      else (lastFor k other (entries ++ [entry])).or (p.params.get? other) := by
    intro hreserved other
    rw [h.param]
    split
    · rfl
    next hother =>
      have hne : field ≠ other := fun heq => hother (heq ▸ hreserved)
      rw [hlast, if_neg hne]
  unfold overridePartition
  split
  next hinitial =>
    refine ⟨?_, h.owner, ?_, hparam (Or.inl hinitial)⟩
    · rw [h.kept]
    · rw [hlast, if_pos hinitial]
      rfl
  next hinitial =>
    split
    next hmemory =>
      refine ⟨h.kept, h.owner, ?_, hparam (Or.inr hmemory)⟩
      rw [hlast, if_neg hinitial, h.initial]
    next hmemory =>
      refine ⟨?_, h.owner, ?_, fun other => ?_⟩
      · rw [h.kept]
      · rw [hlast, if_neg hinitial, h.initial]
      · have hset : (q.params.set field entry.2).get? other =
            if other = field then some entry.2 else q.params.get? other := Table.get?_insert ..
        refine hset.trans ?_
        by_cases heq : other = field
        · subst heq
          rw [if_pos rfl, if_neg (not_or.2 ⟨hinitial, hmemory⟩), hlast, if_pos rfl]
          rfl
        · rw [if_neg heq, hlast, if_neg (Ne.symm heq), h.param]

theorem overriddenBy_foldl (entries : List (String × List Float)) (k : Nat) (p : PartitionPlan) :
    OverriddenBy entries k p (entries.foldl (overrideAt k) p) := by
  induction entries using List.reverseRecOn with
  | nil => exact ⟨rfl, rfl, rfl, fun field => by simp [lastFor]⟩
  | append_singleton entries entry ih =>
      rw [List.foldl_append, List.foldl_cons, List.foldl_nil]
      by_cases hroute : ∃ field, route? entry.1 = some (k, field)
      · obtain ⟨field, hfield⟩ := hroute
        exact overrideAt_eq hfield ▸ ih.concat hfield
      · have hskip := not_exists.1 hroute
        exact overrideAt_of_ne hskip ▸ ih.skip hskip

end Partition

/-! ## All partitions -/

def Fit (entries : List (String × List Float)) (size : Nat) : Prop :=
  ∀ entry ∈ entries, ∀ k field, route? entry.1 = some (k, field) → k < size

section Partitions

variable {entries : List (String × List Float)} {plan : Plan}

def overrideAll (entries : List (String × List Float)) (plan : Plan) : Plan :=
  { plan with partitions := plan.partitions.mapIdx fun k p => entries.foldl (overrideAt k) p }

theorem size_overrideAll (entries : List (String × List Float)) (plan : Plan) :
    (overrideAll entries plan).size = plan.size := List.length_mapIdx

theorem applyOverrides_cons_of_none {entry : String × List Float} (plan : Plan)
    (h : route? entry.1 = none) :
    applyOverrides (entry :: entries) plan = applyOverrides entries plan := by
  simp only [applyOverrides, h]

theorem applyOverrides_cons_of_some {entry : String × List Float} {k : Nat} {field : String} (plan : Plan)
    (h : route? entry.1 = some (k, field)) :
    applyOverrides (entry :: entries) plan = (plan.partition k).bind fun p => applyOverrides entries
      { plan with partitions := plan.partitions.set k (overridePartition field entry.2 p) } := by
  simp only [applyOverrides, h]
  rfl

theorem applyOverrides_eq (hfit : Fit entries plan.size) :
    applyOverrides entries plan = .ok (overrideAll entries plan) := by
  induction entries generalizing plan with
  | nil =>
      have hsame : plan.partitions.mapIdx (fun _ p => p) = plan.partitions :=
        List.ext_getElem? fun k => by simp
      simp only [applyOverrides, overrideAll, List.foldl_nil, hsame]
  | cons entry rest ih =>
      obtain ⟨hfirst, hrest⟩ := List.forall_mem_cons.1 hfit
      cases hroute : route? entry.1 with
      | none =>
          have hskip : ∀ k p, overrideAt k p entry = p := fun k p =>
            overrideAt_of_ne fun field h => by cases hroute.symm.trans h
          rw [applyOverrides_cons_of_none plan hroute, ih hrest]
          simp only [overrideAll, List.foldl_cons, hskip]
      | some route =>
          obtain ⟨inner, field⟩ := route
          have hlt : inner < plan.partitions.length := hfirst inner field hroute
          have hp : plan.partition inner = .ok plan.partitions[inner] := by
            rw [Plan.partition, List.getElem?_eq_getElem hlt]
          let next : Plan := { plan with
            partitions := plan.partitions.set inner (overridePartition field entry.2 plan.partitions[inner]) }
          have hsize : next.size = plan.size := List.length_set
          have hfits : Fit rest next.size := hsize ▸ hrest
          rw [applyOverrides_cons_of_some plan hroute, hp]
          refine (ih hfits).trans ?_
          unfold overrideAll
          congr 2
          refine List.ext_getElem? fun k => ?_
          rw [List.getElem?_mapIdx, List.getElem?_mapIdx, List.getElem?_set]
          split
          next heq =>
            subst heq
            rw [List.getElem?_eq_getElem hlt, Option.map_some, Option.map_some, List.foldl_cons,
              overrideAt_eq hroute]
          next hne =>
            have hskip : ∀ p, overrideAt k p entry = p := fun p =>
              overrideAt_of_ne fun other h => hne (by cases hroute.symm.trans h; rfl)
            simp only [List.foldl_cons, hskip]

theorem applyOverrides_append (first second : List (String × List Float)) :
    applyOverrides (first ++ second) plan = (applyOverrides first plan).bind (applyOverrides second) := by
  induction first generalizing plan with
  | nil => rfl
  | cons entry rest ih =>
      rw [List.cons_append]
      cases hroute : route? entry.1 with
      | none => rw [applyOverrides_cons_of_none plan hroute, applyOverrides_cons_of_none plan hroute, ih]
      | some route =>
          rw [applyOverrides_cons_of_some plan hroute, applyOverrides_cons_of_some plan hroute]
          cases plan.partition route.1 with
          | error fault => rfl
          | ok p => exact ih

theorem applyOverrides_eq_error {before after : List (String × List Float)} {entry : String × List Float}
    {k : Nat} {field : String} (hfit : Fit before plan.size) (hroute : route? entry.1 = some (k, field))
    (hsize : plan.size ≤ k) :
    applyOverrides (before ++ entry :: after) plan = .error (.partitionOutOfRange k plan.size) := by
  have hsize' := size_overrideAll before plan
  have hmiss : (overrideAll before plan).partition k = .error (.partitionOutOfRange k plan.size) := by
    rw [Plan.partition, List.getElem?_eq_none (hsize'.trans_le hsize), hsize']
  rw [applyOverrides_append, applyOverrides_eq hfit]
  refine (applyOverrides_cons_of_some (overrideAll before plan) hroute).trans ?_
  rw [hmiss]
  rfl

theorem exists_first_of_not_fit {size : Nat} (h : ¬ Fit entries size) :
    ∃ before entry after k field, entries = before ++ entry :: after ∧ Fit before size ∧
      route? entry.1 = some (k, field) ∧ size ≤ k := by
  induction entries with
  | nil => exact absurd (List.forall_mem_nil _) h
  | cons entry rest ih =>
      by_cases hentry : ∀ k field, route? entry.1 = some (k, field) → k < size
      · obtain ⟨before, found, after, k, field, rfl, hbefore, hmiss⟩ :=
          ih fun hrest => h (List.forall_mem_cons.2 ⟨hentry, hrest⟩)
        exact ⟨entry :: before, found, after, k, field, rfl, List.forall_mem_cons.2 ⟨hentry, hbefore⟩, hmiss⟩
      · push Not at hentry
        obtain ⟨k, field, hroute, hsize⟩ := hentry
        exact ⟨[], entry, rest, k, field, rfl, List.forall_mem_nil _, hroute, hsize⟩

end Partitions

/-! ## All params -/

/-- The last param, in name order, for `field` of inner partition `k` holds `values`. -/
def Sets (params : Params) (k : Nat) (field : String) (values : List Float) : Prop :=
  ∃ name, params.get? name = some values ∧ Routes name k field ∧
    ∀ other ∈ params.names, Routes other k field → other ≤ name

/-- No param is for `field` of inner partition `k`. -/
def Spares (params : Params) (k : Nat) (field : String) : Prop :=
  ∀ name ∈ params.names, ¬ Routes name k field

/-- Of all params for an inner partition with an index of `size` or more, the first in name order is for
`k`. -/
def Misses (params : Params) (size k : Nat) : Prop :=
  ∃ name ∈ params.names, (∃ field, Routes name k field) ∧ size ≤ k ∧
    ∀ other ∈ params.names, ∀ l field, Routes other l field → size ≤ l → name ≤ other

/-- What the params make of inner partition `k`. -/
structure Overrides (params : Params) (k : Nat) (p q : PartitionPlan) : Prop where
  kept : q = { p with initial := q.initial, params := q.params }
  owner : q.params.owner = p.params.owner
  initial_set : ∀ values, Sets params k initialName values → q.initial = values
  initial_spared : Spares params k initialName → q.initial = p.initial
  reserved : ∀ field, field = initialName ∨ field = memoryName → q.params.get? field = p.params.get? field
  param_set : ∀ field values, field ≠ initialName → field ≠ memoryName → Sets params k field values →
    q.params.get? field = some values
  param_spared : ∀ field, Spares params k field → q.params.get? field = p.params.get? field

structure OverridesAll (params : Params) (plan inner : Plan) : Prop where
  kept : inner = { plan with partitions := inner.partitions }
  size : inner.size = plan.size
  partition : ∀ k p q, plan.partitions[k]? = some p → inner.partitions[k]? = some q → Overrides params k p q

section Params

variable {params : Params} {k : Nat} {field : String}

theorem Sets.unique {first second : List Float} (h : Sets params k field first)
    (h' : Sets params k field second) : first = second := by
  obtain ⟨name, hget, hroutes, hlast⟩ := h
  obtain ⟨other, hget', hroutes', hlast'⟩ := h'
  have hsame : name = other :=
    String.le_antisymm (hlast' name (Table.mem_keys_iff.2 ⟨_, hget⟩) hroutes)
      (hlast other (Table.mem_keys_iff.2 ⟨_, hget'⟩) hroutes')
  exact Option.some.inj (hget.symm.trans (hsame ▸ hget'))

theorem place_of_name {before after : List (String × List Float)} {name : String} {values : List Float}
    (h : params.values.entries = before ++ (name, values) :: after) {other : String}
    (hother : other ∈ params.names) :
    other ≤ name ∧ (∃ value, (other, value) ∈ before) ∨ other = name ∨
      name ≤ other ∧ ∃ value, (other, value) ∈ after := by
  obtain ⟨⟨_, value⟩, hplace, rfl⟩ := List.mem_map.1 hother
  have hsorted := params.values.ascending
  rw [h] at hplace hsorted
  obtain ⟨-, hafter, hbefore⟩ := List.pairwise_append.1 hsorted
  rcases List.mem_append.1 hplace with hmem | hmem
  · have hlt := hbefore _ hmem _ List.mem_cons_self
    exact Or.inl ⟨Std.le_of_lt (compareOfLessAndEq_eq_lt.1 hlt), value, hmem⟩
  · rcases List.mem_cons.1 hmem with heq | hmem
    · exact Or.inr (Or.inl (congrArg Prod.fst heq))
    · have hlt := (List.pairwise_cons.1 hafter).1 _ hmem
      exact Or.inr (Or.inr ⟨Std.le_of_lt (compareOfLessAndEq_eq_lt.1 hlt), value, hmem⟩)

theorem sets_of_lastFor {values : List Float} (h : lastFor k field params.values.entries = some values) :
    Sets params k field values := by
  obtain ⟨⟨name, found⟩, hfind, rfl⟩ := Option.map_eq_some_iff.1 h
  obtain ⟨hroute, after, before, hsplit, hafter⟩ := List.find?_eq_some_iff_append.1 hfind
  have hentries : params.values.entries = before.reverse ++ (name, found) :: after.reverse := by
    simpa using congrArg List.reverse hsplit
  have hmem : (name, found) ∈ params.values.entries := hentries ▸ List.mem_append_cons_self
  refine ⟨name, Table.mem_entries_iff.1 hmem, route?_eq_some_iff.1 (of_decide_eq_true hroute), ?_⟩
  intro other hother hroutes
  rcases place_of_name hentries hother with ⟨hle, -⟩ | rfl | ⟨-, value, hlater⟩
  · exact hle
  · exact String.le_refl _
  · refine absurd (decide_eq_true (route?_eq_some_iff.2 hroutes)) ?_
    simpa using hafter _ (List.mem_reverse.1 hlater)

theorem spares_iff : Spares params k field ↔ lastFor k field params.values.entries = none := by
  simp only [lastFor, Option.map_eq_none_iff, List.find?_eq_none, List.mem_reverse, decide_eq_true_eq,
    route?_eq_some_iff, Spares, Params.names, Table.keys, List.mem_map]
  constructor
  · exact fun h entry hentry => h entry.1 ⟨entry, hentry, rfl⟩
  · rintro h _ ⟨entry, hentry, rfl⟩
    exact h entry hentry

theorem sets_iff {values : List Float} :
    Sets params k field values ↔ lastFor k field params.values.entries = some values := by
  refine ⟨fun hsets => ?_, sets_of_lastFor⟩
  cases hlast : lastFor k field params.values.entries with
  | some found => rw [(sets_of_lastFor hlast).unique hsets]
  | none =>
      obtain ⟨name, hget, hroutes, -⟩ := hsets
      exact absurd hroutes (spares_iff.2 hlast name (Table.mem_keys_iff.2 ⟨_, hget⟩))

theorem OverriddenBy.overrides {p q : PartitionPlan} (h : OverriddenBy params.values.entries k p q) :
    Overrides params k p q where
  kept := h.kept
  owner := h.owner
  initial_set values hsets := by rw [h.initial, sets_iff.1 hsets]; rfl
  initial_spared hspares := by rw [h.initial, spares_iff.1 hspares]; rfl
  reserved field hreserved := by rw [h.param, if_pos hreserved]
  param_set field values hinitial hmemory hsets := by
    rw [h.param, if_neg (not_or.2 ⟨hinitial, hmemory⟩), sets_iff.1 hsets]
    rfl
  param_spared field hspares := by
    rw [h.param, spares_iff.1 hspares]
    exact ite_self _

theorem Overrides.unique {p q q' : PartitionPlan} (h : Overrides params k p q) (h' : Overrides params k p q') :
    q = q' := by
  have hcases : ∀ field, Spares params k field ∨ ∃ values, Sets params k field values := by
    intro field
    cases hlast : lastFor k field params.values.entries with
    | none => exact Or.inl (spares_iff.2 hlast)
    | some values => exact Or.inr ⟨values, sets_iff.2 hlast⟩
  have hinitial : q.initial = q'.initial := by
    rcases hcases initialName with hspares | ⟨values, hsets⟩
    · rw [h.initial_spared hspares, h'.initial_spared hspares]
    · rw [h.initial_set values hsets, h'.initial_set values hsets]
  have hget : ∀ field, q.params.get? field = q'.params.get? field := by
    intro field
    by_cases hreserved : field = initialName ∨ field = memoryName
    · rw [h.reserved field hreserved, h'.reserved field hreserved]
    · obtain ⟨hne, hne'⟩ := not_or.1 hreserved
      rcases hcases field with hspares | ⟨values, hsets⟩
      · rw [h.param_spared field hspares, h'.param_spared field hspares]
      · rw [h.param_set field values hne hne' hsets, h'.param_set field values hne hne' hsets]
  have hparams : q.params = q'.params :=
    congrArg₂ Params.mk (Table.ext_get? hget) (h.owner.trans h'.owner.symm)
  rw [h.kept, h'.kept, hinitial, hparams]

theorem OverridesAll.unique {plan inner other : Plan} (h : OverridesAll params plan inner)
    (h' : OverridesAll params plan other) : inner = other := by
  have hpartitions : inner.partitions = other.partitions := by
    refine List.ext_getElem (h.size.trans h'.size.symm) fun k hk hk' => ?_
    have hp : k < plan.partitions.length := hk.trans_eq h.size
    exact (h.partition k _ _ (List.getElem?_eq_getElem hp) (List.getElem?_eq_getElem hk)).unique
      (h'.partition k _ _ (List.getElem?_eq_getElem hp) (List.getElem?_eq_getElem hk'))
  rw [h.kept, h'.kept, hpartitions]

theorem Misses.unique {size l : Nat} (h : Misses params size k) (h' : Misses params size l) : k = l := by
  obtain ⟨name, hname, ⟨field, hroutes⟩, hsize, hfirst⟩ := h
  obtain ⟨other, hother, ⟨field', hroutes'⟩, hsize', hfirst'⟩ := h'
  obtain rfl : name = other :=
    String.le_antisymm (hfirst other hother l field' hroutes' hsize') (hfirst' name hname k field hroutes hsize)
  exact congrArg Prod.fst
    (Option.some.inj ((route?_eq_some_iff.2 hroutes).symm.trans (route?_eq_some_iff.2 hroutes')))

theorem fit_iff {size : Nat} : Fit params.values.entries size ↔
    ∀ name ∈ params.names, ∀ k field, Routes name k field → k < size := by
  simp only [Fit, Params.names, Table.keys, List.mem_map, route?_eq_some_iff]
  constructor
  · rintro h _ ⟨entry, hentry, rfl⟩
    exact h entry hentry
  · exact fun h entry hentry => h entry.1 ⟨entry, hentry, rfl⟩

theorem applyOverrides_of_not_fit {plan : Plan} (h : ¬ Fit params.values.entries plan.size) :
    ∃ l, Misses params plan.size l ∧
      applyOverrides params.values.entries plan = .error (.partitionOutOfRange l plan.size) := by
  obtain ⟨before, ⟨name, values⟩, after, l, field, hentries, hfit, hroute, hsize⟩ := exists_first_of_not_fit h
  have hmem : (name, values) ∈ params.values.entries := hentries ▸ List.mem_append_cons_self
  refine ⟨l, ⟨name, List.mem_map_of_mem hmem, ⟨field, route?_eq_some_iff.1 hroute⟩, hsize, ?_⟩, ?_⟩
  · intro other hother m g hroutes hmiss
    rcases place_of_name hentries hother with ⟨-, value, hbefore⟩ | rfl | ⟨hle, -⟩
    · exact absurd (hfit _ hbefore m g (route?_eq_some_iff.2 hroutes)) (Nat.not_lt.2 hmiss)
    · exact String.le_refl _
    · exact hle
  · rw [hentries]
    exact applyOverrides_eq_error hfit hroute hsize

theorem overridesAll_overrideAll (params : Params) (plan : Plan) :
    OverridesAll params plan (overrideAll params.values.entries plan) where
  kept := rfl
  size := size_overrideAll _ plan
  partition k p q hp hq := by
    rw [overrideAll, List.getElem?_mapIdx, hp] at hq
    obtain rfl := Option.some.inj hq
    exact (overriddenBy_foldl _ k p).overrides

end Params

variable {ρ τ : Type} [UpdateRule ρ] [Pace τ]

/-- The params of a call override, in a copy of the stored inner plan, what their names say and nothing
else. They are refused only for an inner partition that there is not, and no call changes the stored
plan. -/
theorem overrides_touch_only_what_they_name (nested : Nested ρ τ) (params : Params) :
    (∀ fault, nested.overridden params = .error fault ↔
        ∃ k, Misses params nested.plan.size k ∧ fault = .partitionOutOfRange k nested.plan.size) ∧
      ((∀ name ∈ params.names, ∀ k field, Routes name k field → k < nested.plan.size) →
        ∃ inner, nested.overridden params = .ok inner ∧ OverridesAll params nested.plan inner ∧
          ∀ other, OverridesAll params nested.plan other → other = inner) ∧
      ∀ (calls : Nat → Call) (n : Nat), (nested.afterCalls calls n).plan = nested.plan ∧
        (nested.afterCalls calls n).overridden params = nested.overridden params := by
  refine ⟨fun fault => ⟨fun hfault => ?_, ?_⟩, fun hfit => ?_, fun calls n => ?_⟩
  · have hnot : ¬ Fit params.values.entries nested.plan.size := fun hfit => by
      cases hfault.symm.trans (applyOverrides_eq hfit)
    obtain ⟨k, hmisses, herror⟩ := applyOverrides_of_not_fit hnot
    exact ⟨k, hmisses, Except.error.inj (hfault.symm.trans herror)⟩
  · rintro ⟨k, hmisses, rfl⟩
    have hnot : ¬ Fit params.values.entries nested.plan.size := fun hfit => by
      obtain ⟨name, hname, ⟨field, hroutes⟩, hsize, -⟩ := hmisses
      exact Nat.not_lt.2 hsize (fit_iff.1 hfit name hname k field hroutes)
    obtain ⟨l, hfirst, herror⟩ := applyOverrides_of_not_fit hnot
    exact hmisses.unique hfirst ▸ herror
  · have hall := overridesAll_overrideAll params nested.plan
    exact ⟨_, applyOverrides_eq (fit_iff.2 hfit), hall, fun other hother => hother.unique hall⟩
  · obtain ⟨after, hafter⟩ := nested.exists_afterCalls calls n
    rw [hafter]
    exact ⟨rfl, rfl⟩

/-- Three spellings of one field, two fields of the other partition, and three names that are for none. -/
def dialParams : Params := .ofList [
  ("+0/rate", [1]),
  ("0/", [2]),
  ("0/rate", [3]),
  ("00/rate", [4]),
  ("1/a/b", [5]),
  ("1/init_state_values", [6]),
  ("18446744073709551616/rate", [7]),
  ("rate", [8])]

def dialRule : Nested StockRule StockPace :=
  .new
    { partitions := [⟨"left", .ofList [("rate", [0]), ("scale", [9])], ∅, [0], 0, 1, 1⟩,
        ⟨"right", .empty, ∅, [0], 0, 1, 1⟩]
      startTime := 0
      timelineDepth := 1
      groups := [] }
    (.new [.hold, .hold] (.steps 1) (.constant 1))

/-- Two names for partitions that `dialRule` has not. -/
def strayParams : Params := .ofList [("0/rate", [1]), ("3/rate", [2]), ("2/rate", [3])]

theorem dialRule_takes_the_last_of_each_field :
    (∃ inner, dialRule.overridden dialParams = .ok inner ∧ OverridesAll dialParams dialRule.plan inner ∧
      Sets dialParams 0 "rate" [4] ∧
      inner.partitions.map (fun p => (p.initial, p.params.values.entries)) =
        [([0], [("rate", [4]), ("scale", [9])]), ([6], [("a/b", [5])])]) ∧
      dialRule.overridden strayParams = .error (.partitionOutOfRange 2 2) ∧ Misses strayParams 2 2 := by
  obtain ⟨-, hholds, -⟩ := overrides_touch_only_what_they_name dialRule dialParams
  obtain ⟨hfails, -, -⟩ := overrides_touch_only_what_they_name dialRule strayParams
  have hfit : Fit dialParams.values.entries dialRule.plan.size := by
    by_contra hnot
    obtain ⟨_, -, herror⟩ := applyOverrides_of_not_fit hnot
    cases herror
  obtain ⟨inner, hinner, hall, -⟩ := hholds (fit_iff.1 hfit)
  obtain ⟨k, hmisses, heq⟩ := (hfails (.partitionOutOfRange 2 2)).1 rfl
  refine ⟨⟨inner, hinner, hall, sets_iff.2 rfl, ?_⟩, rfl, ?_⟩
  · cases hinner
    rfl
  · cases heq
    exact hmisses

end Tandem.Nested
