import Tandem.Proofs.Registry.Names
import Tandem.Proofs.Registry.Order
import Tandem.Rule.Stock

/-!
# What registries resolve to

A registry that resolves gives each of its names one index, in the order of the groups, and to this index
the plan of the entry that has the name and the entry's rule, configured for that plan.
-/

namespace Tandem

variable {ρ τ : Type}

theorem configureRules_eq_ok [UpdateRule ρ] {plan : Plan} {index : Nat} {rules configured : List ρ}
    (h : configureRules plan index rules = (.ok (), configured)) :
    List.Forall₂ (fun rule next => UpdateRule.configure rule.2 plan rule.1 = (.ok (), next))
      (rules.zipIdx index) configured := by
  induction rules generalizing index configured with
  | nil =>
      cases h
      exact .nil
  | cons rule rest ih =>
      unfold configureRules at h
      split at h
      next next hrule =>
        cases hrest : configureRules plan (index + 1) rest with
        | mk result later =>
            rw [hrest] at h
            cases h
            exact .cons hrule (ih hrest)
      next => cases h

section

variable [UpdateRule ρ] {plan : Plan} {index i : Nat} {rules configured : List ρ} {rule next : ρ}

theorem exists_configured (h : configureRules plan index rules = (.ok (), configured))
    (hrule : rules[i]? = some rule) :
    ∃ next, configured[i]? = some next ∧ UpdateRule.configure (index + i) plan rule = (.ok (), next) :=
  exists_of_forall₂ (configureRules_eq_ok h) (by rw [List.getElem?_zipIdx, hrule]; rfl)

theorem exists_given (h : configureRules plan index rules = (.ok (), configured))
    (hnext : configured[i]? = some next) :
    ∃ rule, rules[i]? = some rule ∧ UpdateRule.configure (index + i) plan rule = (.ok (), next) := by
  obtain ⟨⟨rule, j⟩, hrule, hconfigure⟩ := exists_of_forall₂ (configureRules_eq_ok h).flip hnext
  rw [List.getElem?_zipIdx, Option.map_eq_some_iff] at hrule
  obtain ⟨_, hrule, heq⟩ := hrule
  cases heq
  exact ⟨rule, hrule, hconfigure⟩

theorem length_configured (h : configureRules plan index rules = (.ok (), configured)) :
    configured.length = rules.length :=
  (configureRules_eq_ok h).length_eq.symm.trans List.length_zipIdx

end

theorem Behaviour.configure_eq_ok [UpdateRule ρ] {plan : Plan} {given configured : Behaviour ρ τ} :
    given.configure plan = (.ok (), configured) ↔
      configureRules plan 0 given.rules = (.ok (), configured.rules) ∧
        configured = { given with rules := configured.rules } := by
  unfold configure
  constructor
  · intro h
    obtain ⟨hresult, rfl⟩ := Prod.mk.inj h
    exact ⟨Prod.ext hresult rfl, rfl⟩
  · rintro ⟨hrules, hsame⟩
    rw [hsame, hrules]

namespace Registry

theorem assemble_eq_ok {registry : Registry ρ τ} {spec : RunSpec τ} {plan : Plan}
    {order : List (Entry ρ)} (h : registry.assemble spec = .ok (plan, order)) :
    order = ordered registry.entries ∧
      List.Forall₂ (fun entry p => entry.Planned (order.map (·.name)) registry.seed p) order
        plan.partitions ∧
      plan.groups = numberGroups 0 (grouped registry.entries) ∧
      plan.startTime = spec.startTime ∧
      plan.timelineDepth = (plan.partitions.map (·.depth)).foldl max spec.timelineDepth := by
  obtain ⟨partitions, hpartitions, h⟩ := bind_eq_ok h
  cases h
  refine ⟨rfl, ?_, rfl, rfl, ?_⟩
  · exact List.forall₂_map_right_iff.2 ((mapM_eq_ok hpartitions).imp fun _ _ => resolveEntry_eq_ok)
  · simp only [Plan.tag, List.map_map, List.foldl_map]
    rfl

section Assembled

variable {registry : Registry ρ τ} {spec : RunSpec τ} {plan : Plan} {order : List (Entry ρ)}
  (h : registry.assemble spec = .ok (plan, order))

include h

theorem names_of_assemble : plan.names = (ordered registry.entries).map (·.name) := by
  obtain ⟨rfl, hplanned, -⟩ := assemble_eq_ok h
  exact (map_eq_of_forall₂ (fun _ _ hentry => hentry.name.symm) hplanned).symm

theorem perm_names_of_assemble : plan.names.Perm registry.names :=
  names_of_assemble h ▸ (perm_ordered registry.entries).map _

theorem flatten_groups_of_assemble : plan.groups.flatten = List.range plan.size := by
  obtain ⟨rfl, hplanned, hgroups, -⟩ := assemble_eq_ok h
  rw [hgroups, flatten_numberGroups, Plan.size, ← hplanned.length_eq, List.range_eq_range', ordered]

theorem group_ne_nil_of_assemble {group : List Nat} (hgroup : group ∈ plan.groups) : group ≠ [] := by
  obtain ⟨-, -, hgroups, -⟩ := assemble_eq_ok h
  exact ne_nil_of_mem_numberGroups (hgroups ▸ hgroup)

theorem sameGroup_iff_of_assemble (hnodup : registry.names.Nodup) {i j : Nat} {a b : String}
    (hi : plan.names[i]? = some a) (hj : plan.names[j]? = some b) :
    (∃ group ∈ plan.groups, i ∈ group ∧ j ∈ group) ↔ registry.sameGroup a b := by
  obtain ⟨-, -, hgroups, -⟩ := assemble_eq_ok h
  have hmem : ∀ {i : Nat} {entry : Entry ρ}, (ordered registry.entries)[i]? = some entry →
      entry ∈ registry.entries :=
    fun hentry => (perm_ordered registry.entries).subset (List.mem_of_getElem? hentry)
  rw [names_of_assemble h, List.getElem?_map, Option.map_eq_some_iff] at hi hj
  obtain ⟨first, hi, rfl⟩ := hi
  obtain ⟨second, hj, rfl⟩ := hj
  rw [hgroups, together_iff (List.Nodup.of_map _ hnodup) hi hj]
  exact (sameGroup_iff hnodup (hmem hi) (hmem hj)).symm

end Assembled

variable [UpdateRule ρ]

/-- A plan and a behaviour say by index what the registry says by name. -/
structure Resolves (registry : Registry ρ τ) (plan : Plan) (behaviour : Behaviour ρ τ) : Prop where
  nodup : plan.names.Nodup
  registered : plan.names.Perm registry.names
  ordered : plan.names.Pairwise registry.Precedes
  consecutive : plan.groups.flatten = List.range plan.size
  nonempty : ∀ group ∈ plan.groups, group ≠ []
  grouped : ∀ i j a b, plan.names[i]? = some a → plan.names[j]? = some b →
    ((∃ group ∈ plan.groups, i ∈ group ∧ j ∈ group) ↔ registry.sameGroup a b)
  count : behaviour.rules.length = plan.size
  planned : ∀ i p, plan.partitions[i]? = some p → ∃ entry rule, registry.get? p.name = some entry ∧
    entry.Planned plan.names registry.seed p ∧ behaviour.rules[i]? = some rule ∧
    UpdateRule.configure i plan entry.rule = (.ok (), rule)
  spec : ∃ spec, registry.spec = some spec ∧ plan.startTime = spec.startTime ∧
    plan.timelineDepth = (plan.partitions.map (·.depth)).foldl max spec.timelineDepth ∧
    behaviour.output = spec.output ∧ behaviour.stop = spec.stop ∧ behaviour.pace = spec.pace

theorem resolve_eq_ok {registry : Registry ρ τ} {plan : Plan} {behaviour : Behaviour ρ τ}
    (h : registry.resolve = .ok (plan, behaviour)) :
    ∃ spec order, registry.spec = some spec ∧ registry.assemble spec = .ok (plan, order) ∧
      configureRules plan 0 (order.map (·.rule)) = (.ok (), behaviour.rules) ∧
      behaviour.output = spec.output ∧ behaviour.stop = spec.stop ∧ behaviour.pace = spec.pace := by
  unfold resolve at h
  split at h
  next => cases h
  next spec hspec =>
    obtain ⟨⟨plan', order⟩, hassemble, h⟩ := bind_eq_ok h
    obtain ⟨_, -, h⟩ := bind_eq_ok h
    dsimp only [Behaviour.configure] at h
    split at h
    next => cases h
    next configured hconfigured =>
      cases hrules : configureRules plan' 0 (order.map (·.rule)) with
      | mk result rules =>
          simp only [hrules, Prod.mk.injEq] at hconfigured
          obtain ⟨rfl, rfl⟩ := hconfigured
          cases h
          exact ⟨spec, order, hspec, mapError_eq_ok hassemble, hrules, rfl, rfl, rfl⟩

theorem check_of_resolve {registry : Registry ρ τ} {plan : Plan} {behaviour : Behaviour ρ τ}
    (h : registry.resolve = .ok (plan, behaviour)) : plan.check = .ok () := by
  unfold resolve at h
  split at h
  next => cases h
  next spec _ =>
    obtain ⟨⟨found, order⟩, -, h⟩ := bind_eq_ok h
    obtain ⟨_, hcheck, h⟩ := bind_eq_ok h
    dsimp only at h
    split at h
    next => cases h
    next =>
      cases h
      exact mapError_eq_ok hcheck

theorem resolves_of_nodup {registry : Registry ρ τ} {plan : Plan} {behaviour : Behaviour ρ τ}
    (hnodup : registry.names.Nodup) (h : registry.resolve = .ok (plan, behaviour)) :
    registry.Resolves plan behaviour := by
  obtain ⟨spec, order, hspec, hassemble, hrules, houtput, hstop, hpace⟩ := resolve_eq_ok h
  obtain ⟨rfl, hplanned, -, hstart, hdepth⟩ := assemble_eq_ok hassemble
  have hnames := names_of_assemble hassemble
  have hperm := perm_names_of_assemble hassemble
  constructor
  case nodup => exact hperm.nodup_iff.2 hnodup
  case registered => exact hperm
  case ordered => exact hnames ▸ pairwise_names_ordered hnodup
  case consecutive => exact flatten_groups_of_assemble hassemble
  case nonempty => exact fun group hgroup => group_ne_nil_of_assemble hassemble hgroup
  case grouped => exact fun i j a b hi hj => sameGroup_iff_of_assemble hassemble hnodup hi hj
  case count =>
    rw [length_configured hrules, List.length_map, Plan.size, hplanned.length_eq]
  case planned =>
    intro i p hp
    obtain ⟨entry, hentry, hplan⟩ := exists_of_forall₂ hplanned.flip hp
    have hmem : entry ∈ registry.entries :=
      (perm_ordered registry.entries).subset (List.mem_of_getElem? hentry)
    have hrule : ((ordered registry.entries).map (·.rule))[i]? = some entry.rule := by
      rw [List.getElem?_map, hentry]
      rfl
    obtain ⟨rule, hfound, hconfigured⟩ := exists_configured hrules hrule
    rw [Nat.zero_add] at hconfigured
    have hget : registry.get? p.name = some entry := hplan.name ▸ get?_of_mem hnodup hmem
    exact ⟨entry, rule, hget, hnames ▸ hplan, hfound, hconfigured⟩
  case spec => exact ⟨spec, hspec, hstart, hdepth, houtput, hstop, hpace⟩

/-- Whatever requests built a registry, what it resolves to says the same. -/
theorem resolution_is_faithful {requests : List (Request ρ τ)} {plan : Plan} {behaviour : Behaviour ρ τ}
    (h : (built requests).resolve = .ok (plan, behaviour)) :
    (built requests).Resolves plan behaviour :=
  resolves_of_nodup (nodup_names_built requests) h

/-- The last entry runs right after the first one, in front of an entry that was registered before it and
has been given another name since. -/
def pairRequests : List (Request StockRule StockPace) := [
  .simulate (.new (.steps 1) (.constant 1)),
  .add { Entry.new "first" .hold [1] with group := some "pair" },
  .add (Entry.new "between" .hold [2]),
  .add { Entry.new "last" .relay [3] with
    feeds := .ofList [(Relay.param, ⟨"first", none⟩)], group := some "pair" },
  .replace "between" { Entry.new "middle" .relay [4] with
    indexParams := .ofList [("pair", ["last", "first"])]
    feeds := .ofList [(Relay.param, ⟨"last", some [0]⟩)] }]

def pairPlan : Plan where
  partitions := [
    ⟨"first", ⟨∅, "first"⟩, ∅, [1], 0, 1, 1⟩,
    ⟨"last", ⟨∅, "last"⟩, .ofList [(Relay.param, ⟨0, none⟩)], [3], 0, 1, 1⟩,
    ⟨"middle", ⟨.ofList [("pair", [1, 0])], "middle"⟩, .ofList [(Relay.param, ⟨1, some [0]⟩)],
      [4], 0, 1, 1⟩]
  startTime := 0
  timelineDepth := 1
  groups := [[0, 1], [2]]

def pairBehaviour : Behaviour StockRule StockPace :=
  .new [.hold, .relay, .relay] (.steps 1) (.constant 1)

theorem pairRequests_resolve :
    (built pairRequests).resolve = .ok (pairPlan, pairBehaviour) ∧
      (built pairRequests).Resolves pairPlan pairBehaviour :=
  ⟨rfl, resolution_is_faithful rfl⟩

end Registry

end Tandem
