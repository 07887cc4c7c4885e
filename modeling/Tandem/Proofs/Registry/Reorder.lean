import Tandem.Proofs.Counterparts
import Tandem.Proofs.Registry.Resolution

/-!
# The order of registration does not matter

Registries may hold the same entries in another order and in other groups. Their plans then number the
partitions differently, and each number is resolved from a name, so partitions of one name are counterparts.
Until a compute phase fails, and after the first that does, each of them has the same window in both
simulations.
-/

namespace Tandem

variable {ρ τ : Type}

def Entry.ungrouped (entry : Entry ρ) : Entry ρ := { entry with group := none }

/-- Registries of the same entries, registered in any order and in any groups, for the same run. -/
structure Registry.SameEntries (first second : Registry ρ τ) : Prop where
  seed : first.seed = second.seed
  spec : first.spec = second.spec
  entries : (first.entries.map Entry.ungrouped).Perm (second.entries.map Entry.ungrouped)

def SameName (names others : List String) (i j : Nat) : Prop :=
  ∃ name, names[i]? = some name ∧ others[j]? = some name

/-! ## Plans -/

namespace Entry.Planned

variable {names others : List String} {seed : Option UInt64} {entry : Entry ρ} {p q : PartitionPlan}

theorem ungrouped (h : entry.Planned names seed p) : entry.ungrouped.Planned names seed p :=
  { h with }

theorem matches_of_plain (h : entry.Planned names seed p) (h' : entry.Planned others seed q)
    (hplain : entry.indexParams = ∅) : p.Matches (SameName names others) q where
  name := h.name.trans h'.name.symm
  unfed := by
    intro param hnone
    have hindexed : entry.indexParams.get? param = none := by
      rw [hplain]
      rfl
    refine ⟨?_, (h.plain param hindexed).trans (h'.plain param hindexed).symm⟩
    cases hnamed : entry.feeds.get? param with
    | none => exact h'.unfed param hnamed
    | some named =>
        obtain ⟨feed, hfeed, -⟩ := h.fed param named hnamed
        cases hnone.symm.trans hfeed
  fed := by
    intro param feed hfeed
    cases hnamed : entry.feeds.get? param with
    | none => cases (h.unfed param hnamed).symm.trans hfeed
    | some named =>
        obtain ⟨found, hfound, hsource, hselection⟩ := h.fed param named hnamed
        obtain ⟨other, hother, hsource', hselection'⟩ := h'.fed param named hnamed
        obtain rfl := Option.some.inj (hfeed.symm.trans hfound)
        exact ⟨other, hother, ⟨named.source, hsource, hsource'⟩, hselection.trans hselection'.symm⟩
  initial := h.initial.trans h'.initial.symm
  width := h.width.trans h'.width.symm
  depth := h.depth.trans h'.depth.symm

theorem seed_eq (h : entry.Planned names seed p) (h' : entry.Planned others seed q) : p.seed = q.seed := by
  cases hseed : seed with
  | none => exact (h.own hseed).trans (h'.own hseed).symm
  | some value => exact (h.derived value hseed).trans (h'.derived value hseed).symm

end Entry.Planned

namespace Registry

variable {first second : Registry ρ τ}

theorem SameEntries.symm (h : first.SameEntries second) : second.SameEntries first :=
  ⟨h.seed.symm, h.spec.symm, h.entries.symm⟩

theorem SameEntries.perm_names (h : first.SameEntries second) : first.names.Perm second.names := by
  have hnames : ∀ registry : Registry ρ τ,
      (registry.entries.map Entry.ungrouped).map (·.name) = registry.names := by
    intro registry
    rw [List.map_map]
    rfl
  rw [← hnames first, ← hnames second]
  exact h.entries.map _

/-- What is registered under a name in one is registered under it in the other, perhaps in another group. -/
theorem SameEntries.get? (h : first.SameEntries second) (hnodup : second.names.Nodup) {name : String}
    {entry other : Entry ρ} (hentry : first.get? name = some entry) (hother : second.get? name = some other) :
    entry.ungrouped = other.ungrouped := by
  have hmem : entry ∈ first.entries := List.mem_of_find?_eq_some hentry
  have hname : entry.name = name := by simpa using List.find?_some hentry
  obtain ⟨found, hfound, hsame⟩ :=
    List.mem_map.1 (h.entries.subset (List.mem_map_of_mem (f := Entry.ungrouped) hmem))
  have hfoundName : found.name = name := (congrArg Entry.name hsame).trans hname
  have hget := get?_of_mem hnodup hfound
  rw [hfoundName, hother] at hget
  rw [Option.some.inj hget, hsame]

variable [UpdateRule ρ] {plan other : Plan} {behaviour behaviour' : Behaviour ρ τ}

theorem SameEntries.exists_matching (h : first.SameEntries second) (hfirst : first.Resolves plan behaviour)
    (hsecond : second.Resolves other behaviour') (hnodup : second.names.Nodup)
    (hplain : ∀ entry ∈ first.entries, entry.indexParams = ∅) {i j : Nat}
    (hij : SameName plan.names other.names i j) :
    ∃ p q, ∃ entry ∈ first.entries, ∃ rule rule', plan.partitions[i]? = some p ∧
      other.partitions[j]? = some q ∧ p.Matches (SameName plan.names other.names) q ∧ p.seed = q.seed ∧
      behaviour.rules[i]? = some rule ∧ UpdateRule.configure i plan entry.rule = (.ok (), rule) ∧
      behaviour'.rules[j]? = some rule' ∧ UpdateRule.configure j other entry.rule = (.ok (), rule') := by
  obtain ⟨name, hi, hj⟩ := hij
  rw [Plan.names, List.getElem?_map, Option.map_eq_some_iff] at hi hj
  obtain ⟨p, hp, rfl⟩ := hi
  obtain ⟨q, hq, hname⟩ := hj
  obtain ⟨entry, rule, hentry, hplanned, hrule, hconfigure⟩ := hfirst.planned i p hp
  obtain ⟨found, rule', hfound, hplanned', hrule', hconfigure'⟩ := hsecond.planned j q hq
  have hmem := List.mem_of_find?_eq_some hentry
  have hsame : found.ungrouped = entry.ungrouped := (h.get? hnodup hentry (hname ▸ hfound)).symm
  have hrules : found.rule = entry.rule := (Entry.mk.inj hsame).2.1
  have hplanned'' : entry.ungrouped.Planned other.names first.seed q := by
    rw [h.seed, ← hsame]
    exact hplanned'.ungrouped
  exact ⟨p, q, entry, hmem, rule, rule', hp, hq,
    hplanned.ungrouped.matches_of_plain hplanned'' (hplain entry hmem),
    hplanned.ungrouped.seed_eq hplanned'', hrule, hconfigure, hrule', hrules ▸ hconfigure'⟩

end Registry

/-! ## Look-ups by name -/

theorem exists_sameName {names others : List String} (h : names.Perm others) {i : Nat}
    (hi : i < names.length) : ∃ j, SameName names others i j := by
  obtain ⟨j, hj⟩ := List.mem_iff_getElem?.1 (h.subset (List.getElem_mem hi))
  exact ⟨j, _, List.getElem?_eq_getElem hi, hj⟩

theorem SameName.symm {names others : List String} {i j : Nat} (h : SameName names others i j) :
    SameName others names j i := by
  obtain ⟨name, hi, hj⟩ := h
  exact ⟨name, hj, hi⟩

theorem sameName_swap (names others : List String) :
    (fun j i => SameName names others i j) = SameName others names :=
  funext fun _ => funext fun _ => propext ⟨SameName.symm, SameName.symm⟩

theorem Plan.perm_depths {plan other : Plan} (hnodup : plan.names.Nodup)
    (hperm : plan.names.Perm other.names)
    (hmatches : ∀ i j, SameName plan.names other.names i j → ∃ p q, plan.partitions[i]? = some p ∧
      other.partitions[j]? = some q ∧ p.Matches (SameName plan.names other.names) q) :
    (plan.partitions.map (·.depth)).Perm (other.partitions.map (·.depth)) := by
  let named (plan : Plan) : List (String × Nat) := plan.partitions.map fun p => (p.name, p.depth)
  have hfst : (named plan).map (·.1) = plan.names := by
    rw [List.map_map]
    rfl
  have hsubset : named plan ⊆ named other := by
    intro entry hentry
    obtain ⟨p, hp, rfl⟩ := List.mem_map.1 hentry
    obtain ⟨i, hi⟩ := List.mem_iff_getElem?.1 hp
    obtain ⟨j, hij⟩ := exists_sameName hperm
      (show i < plan.names.length by simpa [Plan.names] using (List.getElem?_eq_some_iff.1 hi).1)
    obtain ⟨p', q, hp', hq, hpq⟩ := hmatches i j hij
    obtain rfl := Option.some.inj (hi.symm.trans hp')
    exact List.mem_map.2 ⟨q, List.mem_of_getElem? hq, Prod.ext hpq.name.symm hpq.depth.symm⟩
  have hlength : (named other).length ≤ (named plan).length := by
    simpa [named, Plan.names] using Nat.le_of_eq hperm.length_eq.symm
  have hnamed : (named plan).Nodup := List.Nodup.of_map (·.1) (hfst ▸ hnodup)
  have hpairs := (List.subperm_of_subset hnamed hsubset).perm_of_length_le hlength
  have hsnd : ∀ plan, (named plan).map (·.2) = plan.partitions.map (·.depth) := by
    intro plan
    rw [List.map_map]
    rfl
  rw [← hsnd plan, ← hsnd other]
  exact hpairs.map _

namespace Simulation

variable {plan : Plan} {sim : Simulation ρ τ}

theorem window?_of_name (hfits : plan.Fits sim.cells) (hnodup : plan.names.Nodup) {i : Nat}
    {name : String} (hname : plan.names[i]? = some name) : sim.window? name = sim.windows[i]? := by
  obtain ⟨hi, hget⟩ := List.getElem?_eq_some_iff.1 hname
  have hindex : sim.indexOf? name = some i := by
    rw [indexOf?, names, hfits.names_eq, List.findIdx?_eq_some_iff_getElem]
    refine ⟨hi, by simpa using hget, fun j hj heq => ?_⟩
    have hsame : plan.names[j] = plan.names[i] := by simpa [hget] using heq
    exact Nat.ne_of_lt hj ((List.Nodup.getElem_inj_iff hnodup).1 hsame)
  rw [window?, hindex]
  rfl

theorem window?_of_notMem (hfits : plan.Fits sim.cells) {name : String} (hname : name ∉ plan.names) :
    sim.window? name = none := by
  have hindex : sim.indexOf? name = none := by
    rw [indexOf?, names, hfits.names_eq, List.findIdx?_eq_none_iff]
    intro other hother
    exact decide_eq_false fun heq => hname (heq ▸ hother)
  rw [window?, hindex]
  rfl

theorem window?_congr {next : Simulation ρ τ} (hfits : plan.Fits sim.cells) (hnext : plan.Fits next.cells)
    (hwindows : next.windows = sim.windows) (name : String) : next.window? name = sim.window? name := by
  rw [window?, window?, indexOf?, indexOf?, names, names, hfits.names_eq, hnext.names_eq, hwindows]

/-- By name both simulations show the same windows, and they show the same times. -/
def ShowsSame {σ υ : Type} (sim : Simulation ρ τ) (twin : Simulation σ υ) : Prop :=
  (∀ name, sim.window? name = twin.window? name) ∧ sim.timeline = twin.timeline

end Simulation

/-! ## Two runs -/

section Runs

variable [UpdateRule ρ] [StockRules ρ] {plan other : Plan} {sim twin : Simulation ρ StockPace}

theorem Counterparts.afterWith {same : Nat → Nat → Prop} (h : Counterparts same plan other sim twin)
    (hcover : ∀ i < plan.size, ∃ j, same i j) (hcover' : ∀ j < other.size, ∃ i, same i j)
    {outputs outputs' : Nat → Output} (hcalm : ∀ k, (outputs k).Calm) (hcalm' : ∀ k, (outputs' k).Calm)
    (n : Nat) (hrun : ∀ k < n, ¬ (sim.afterWith outputs k).ComputeFails) :
    Counterparts same plan other (sim.afterWith outputs n) (twin.afterWith outputs' n) := by
  induction n with
  | zero => exact h
  | succ n ih =>
      have hbefore := ih fun k hk => hrun k (Nat.lt_succ_of_lt hk)
      have hnow := hbefore.withOutput (outputs n) (outputs' n)
      have hfails : ¬ ((sim.afterWith outputs n).withOutput (outputs n)).ComputeFails :=
        (Simulation.computeFails_withOutput _).not.2 (hrun n (Nat.lt_succ_self n))
      exact hnow.step (Simulation.commitsCalmly_of_calm hnow.fits hnow.schedule (hcalm n))
        (Simulation.commitsCalmly_of_calm hnow.fits' hnow.schedule' (hcalm' n)) hfails
        fun hfails' => hfails ((hnow.computeFails_iff hcover hcover').1 hfails')

theorem Counterparts.showsSame (h : Counterparts (SameName plan.names other.names) plan other sim twin)
    (hnodup : plan.names.Nodup) (hperm : plan.names.Perm other.names)
    (hdepth : sim.timeline.depth = twin.timeline.depth) : sim.ShowsSame twin := by
  refine ⟨fun name => ?_, h.timeline.eq_of_depth hdepth⟩
  by_cases hmem : name ∈ plan.names
  · obtain ⟨i, hi⟩ := List.mem_iff_getElem?.1 hmem
    obtain ⟨j, hj⟩ := List.mem_iff_getElem?.1 (hperm.subset hmem)
    rw [Simulation.window?_of_name h.fits hnodup hi,
      Simulation.window?_of_name h.fits' (hperm.nodup_iff.1 hnodup) hj]
    exact h.windows ⟨name, hi, hj⟩
  · rw [Simulation.window?_of_notMem h.fits hmem,
      Simulation.window?_of_notMem h.fits' fun hother => hmem (hperm.mem_iff.2 hother)]

theorem Counterparts.showsSame_of_failure
    (h : Counterparts (SameName plan.names other.names) plan other sim twin)
    (hshows : sim.ShowsSame twin) (hfails : sim.ComputeFails) (hfails' : twin.ComputeFails) :
    sim.step.next.ShowsSame twin.step.next := by
  obtain ⟨hwindows, htimeline⟩ := hfails.step_next
  obtain ⟨hwindows', htimeline'⟩ := hfails'.step_next
  refine ⟨fun name => ?_, ?_⟩
  · rw [Simulation.window?_congr h.fits h.fits.step.1 hwindows,
      Simulation.window?_congr h.fits' h.fits'.step.1 hwindows', hshows.1 name]
  · rw [htimeline, htimeline', Simulation.restored, Simulation.restored, hshows.2]

/-- Counterparts by name show the same up to and including the step of the first compute phase that fails,
which fails in both. -/
theorem Counterparts.showsSame_afterWith
    (h : Counterparts (SameName plan.names other.names) plan other sim twin)
    (hnodup : plan.names.Nodup) (hperm : plan.names.Perm other.names)
    (hdepth : sim.timeline.depth = twin.timeline.depth)
    {outputs outputs' : Nat → Output} (hcalm : ∀ k, (outputs k).Calm) (hcalm' : ∀ k, (outputs' k).Calm)
    (n : Nat) (hrun : ∀ k < n, ¬ (sim.afterWith outputs k).ComputeFails) :
    (∀ k < n, ¬ (twin.afterWith outputs' k).ComputeFails) ∧
      ((twin.afterWith outputs' n).ComputeFails ↔ (sim.afterWith outputs n).ComputeFails) ∧
      ∀ m ≤ n + 1, (sim.afterWith outputs m).ShowsSame (twin.afterWith outputs' m) := by
  have hcover : ∀ i < plan.size, ∃ j, SameName plan.names other.names i j := fun i hi =>
    exists_sameName hperm (Nat.lt_of_lt_of_eq hi (List.length_map _).symm)
  have hcover' : ∀ j < other.size, ∃ i, SameName plan.names other.names i j := fun j hj =>
    (exists_sameName hperm.symm (Nat.lt_of_lt_of_eq hj (List.length_map _).symm)).imp fun _ => SameName.symm
  have hafter : ∀ m, (∀ k < m, ¬ (sim.afterWith outputs k).ComputeFails) →
      Counterparts (SameName plan.names other.names) plan other (sim.afterWith outputs m)
        (twin.afterWith outputs' m) :=
    h.afterWith hcover hcover' hcalm hcalm'
  have hfails : ∀ m ≤ n, (twin.afterWith outputs' m).ComputeFails ↔ (sim.afterWith outputs m).ComputeFails :=
    fun m hm => (hafter m fun k hk => hrun k (Nat.lt_of_lt_of_le hk hm)).computeFails_iff hcover hcover'
  have hshows : ∀ m, (∀ k < m, ¬ (sim.afterWith outputs k).ComputeFails) →
      (sim.afterWith outputs m).ShowsSame (twin.afterWith outputs' m) := by
    intro m hm
    refine (hafter m hm).showsSame hnodup hperm ?_
    rw [Simulation.depth_afterWith, Simulation.depth_afterWith, hdepth]
  refine ⟨fun k hk => (hfails k (Nat.le_of_lt hk)).not.2 (hrun k hk), hfails n (Nat.le_refl n), ?_⟩
  intro m hm
  obtain hle | rfl := Nat.le_succ_iff.1 hm
  · exact hshows m fun k hk => hrun k (Nat.lt_of_lt_of_le hk hle)
  by_cases hlast : (sim.afterWith outputs n).ComputeFails
  · exact ((hafter n hrun).withOutput (outputs n) (outputs' n)).showsSame_of_failure (hshows n hrun)
      ((Simulation.computeFails_withOutput _).2 hlast)
      ((Simulation.computeFails_withOutput _).2 ((hfails n (Nat.le_refl n)).2 hlast))
  · refine hshows (n + 1) fun k hk => ?_
    obtain hlt | rfl := Nat.lt_succ_iff_lt_or_eq.1 hk
    · exact hrun k hlt
    · exact hlast

end Runs

namespace Registry

variable [UpdateRule ρ] {first second : Registry ρ τ} {plan other : Plan}
  {behaviour behaviour' : Behaviour ρ τ}

theorem SameEntries.perm_planned (h : first.SameEntries second) (hfirst : first.Resolves plan behaviour)
    (hsecond : second.Resolves other behaviour') : plan.names.Perm other.names :=
  hfirst.registered.trans (h.perm_names.trans hsecond.registered.symm)

theorem SameEntries.spec_eq (h : first.SameEntries second) (hfirst : first.Resolves plan behaviour)
    (hsecond : second.Resolves other behaviour') :
    behaviour.pace = behaviour'.pace ∧ behaviour.output = behaviour'.output ∧
      plan.startTime = other.startTime := by
  obtain ⟨spec, hspec, htime, -, houtput, -, hpace⟩ := hfirst.spec
  obtain ⟨spec', hspec', htime', -, houtput', -, hpace'⟩ := hsecond.spec
  obtain rfl := Option.some.inj (hspec.symm.trans (h.spec.trans hspec'))
  exact ⟨hpace.trans hpace'.symm, houtput.trans houtput'.symm, htime.trans htime'.symm⟩

/-- The timeline is as deep as the deepest of all partitions asks for, whatever their order. -/
theorem SameEntries.timelineDepth_eq (h : first.SameEntries second)
    (hfirst : first.Resolves plan behaviour) (hsecond : second.Resolves other behaviour')
    (hperm : (plan.partitions.map (·.depth)).Perm (other.partitions.map (·.depth))) :
    plan.timelineDepth = other.timelineDepth := by
  obtain ⟨spec, hspec, -, hdepth, -⟩ := hfirst.spec
  obtain ⟨spec', hspec', -, hdepth', -⟩ := hsecond.spec
  obtain rfl := Option.some.inj (hspec.symm.trans (h.spec.trans hspec'))
  rw [hdepth, hdepth']
  exact hperm.foldl_eq _

theorem SameEntries.exists_start (h : first.SameEntries second) (hfirst : first.Resolves plan behaviour)
    (hsecond : second.Resolves other behaviour') (hcheck : other.check = .ok ())
    (hmatches : ∀ i j, SameName plan.names other.names i j → ∃ p q, plan.partitions[i]? = some p ∧
      other.partitions[j]? = some q ∧ p.Matches (SameName plan.names other.names) q)
    (hstart : ∃ sim, (Simulation.start plan behaviour).1 = .ok sim) :
    ∃ twin, (Simulation.start other behaviour').1 = .ok twin := by
  have hperm := h.perm_planned hfirst hsecond
  obtain ⟨-, houtput, htime⟩ := h.spec_eq hfirst hsecond
  refine Simulation.exists_start_of_alike hcheck hsecond.count houtput htime
    (h.timelineDepth_eq hfirst hsecond (Plan.perm_depths hfirst.nodup hperm hmatches)) (fun q hq => ?_) hstart
  obtain ⟨j, hj⟩ := List.mem_iff_getElem?.1 hq
  obtain ⟨i, hij⟩ := exists_sameName hperm.symm
    (show j < other.names.length by simpa [Plan.names] using (List.getElem?_eq_some_iff.1 hj).1)
  obtain ⟨p, q', hp, hq', hpq⟩ := hmatches i j hij.symm
  obtain rfl := Option.some.inj (hj.symm.trans hq')
  exact ⟨p, List.mem_of_getElem? hp, hpq.name, hpq.initial, hpq.width, hpq.depth⟩

variable [StockRules ρ]

theorem stock_of_configure {i : Nat} {rule : StockRule} {configured : ρ}
    (h : UpdateRule.configure i plan (StockRules.ofStock rule) = (.ok (), configured)) :
    configured = StockRules.ofStock (rule.configure i plan).2 := by
  rw [StockRules.configure_ofStock] at h
  exact (congrArg Prod.snd h).symm

theorem SameEntries.exists_stock (h : first.SameEntries second) (hfirst : first.Resolves plan behaviour)
    (hsecond : second.Resolves other behaviour') (hnodup : second.names.Nodup)
    (hstock : ∀ entry ∈ first.entries, entry.indexParams = ∅ ∧
      ∃ rule : StockRule, entry.rule = StockRules.ofStock rule)
    {i j : Nat} (hij : SameName plan.names other.names i j) :
    ∃ rule : StockRule, behaviour.rules[i]? = some (StockRules.ofStock rule) ∧
      behaviour'.rules[j]? = some (StockRules.ofStock rule) := by
  obtain ⟨p, q, entry, hentry, rule, rule', hp, hq, -, hseed, hrule, hconfigure, hrule', hconfigure'⟩ :=
    h.exists_matching hfirst hsecond hnodup (fun entry hentry => (hstock entry hentry).1) hij
  obtain ⟨-, stock, hregistered⟩ := hstock entry hentry
  rw [hregistered] at hconfigure hconfigure'
  refine ⟨(stock.configure i plan).2, ?_, ?_⟩
  · rw [hrule, stock_of_configure hconfigure]
  · rw [hrule', stock_of_configure hconfigure', StockRule.configure_congr hp hq hseed]

end Registry

open Simulation in
/-- Two registries of the same partitions with stock rules, registered in any order and groups, whose
outputs do not crash. Up to and including the first step whose compute phase fails, which is the same in
both, they show the same windows by name and the same times. -/
theorem registration_order_does_not_matter {ρ : Type} [UpdateRule ρ] [StockRules ρ]
    {first second : List (Request ρ StockPace)} {plan other : Plan} {behaviour behaviour' : Behaviour ρ StockPace}
    (hsame : (Registry.built first).SameEntries (Registry.built second))
    (hstock : ∀ entry ∈ (Registry.built first).entries, entry.indexParams = ∅ ∧
      ∃ rule : StockRule, entry.rule = StockRules.ofStock rule)
    (hresolve : (Registry.built first).resolve = .ok (plan, behaviour))
    (hresolve' : (Registry.built second).resolve = .ok (other, behaviour')) :
    ((∃ sim, (start plan behaviour).1 = .ok sim) ↔ ∃ twin, (start other behaviour').1 = .ok twin) ∧
      ∀ sim twin, (start plan behaviour).1 = .ok sim → (start other behaviour').1 = .ok twin →
        ∀ outputs outputs' : Nat → Output, (∀ k, (outputs k).Calm) → (∀ k, (outputs' k).Calm) → ∀ n,
          (∀ k < n, ¬ (sim.afterWith outputs k).ComputeFails) →
            (∀ k < n, ¬ (twin.afterWith outputs' k).ComputeFails) ∧
            ((twin.afterWith outputs' n).ComputeFails ↔ (sim.afterWith outputs n).ComputeFails) ∧
            ∀ m ≤ n + 1, (sim.afterWith outputs m).ShowsSame (twin.afterWith outputs' m) := by
  have hnodup := Registry.nodup_names_built second
  have hfirst := Registry.resolves_of_nodup (Registry.nodup_names_built first) hresolve
  have hsecond := Registry.resolves_of_nodup hnodup hresolve'
  have hperm := hsame.perm_planned hfirst hsecond
  obtain ⟨hpace, -, htime⟩ := hsame.spec_eq hfirst hsecond
  have hmatches : ∀ i j, SameName plan.names other.names i j → ∃ p q, plan.partitions[i]? = some p ∧
      other.partitions[j]? = some q ∧ p.Matches (SameName plan.names other.names) q := by
    intro i j hij
    obtain ⟨p, q, -, -, -, -, hp, hq, hpq, -⟩ := hsame.exists_matching hfirst hsecond hnodup
      (fun entry hentry => (hstock entry hentry).1) hij
    exact ⟨p, q, hp, hq, hpq⟩
  have hmatches' : ∀ j i, SameName other.names plan.names j i → ∃ q p, other.partitions[j]? = some q ∧
      plan.partitions[i]? = some p ∧ q.Matches (SameName other.names plan.names) p := by
    intro j i hji
    obtain ⟨p, q, hp, hq, hpq⟩ := hmatches i j hji.symm
    exact ⟨q, p, hq, hp, sameName_swap plan.names other.names ▸ hpq.symm⟩
  refine ⟨⟨hsame.exists_start hfirst hsecond (Registry.check_of_resolve hresolve') hmatches,
    hsame.symm.exists_start hsecond hfirst (Registry.check_of_resolve hresolve) hmatches'⟩, ?_⟩
  intro sim twin hsim htwin outputs outputs' hcalm hcalm' n hrun
  have hstart : start plan behaviour = (.ok sim, (start plan behaviour).2) := Prod.ext hsim rfl
  have hstart' : start other behaviour' = (.ok twin, (start other behaviour').2) := Prod.ext htwin rfl
  have hbefore := Counterparts.of_start hstart hstart' hmatches
    (fun i j => hsame.exists_stock hfirst hsecond hnodup hstock) hpace htime
  refine hbefore.showsSame_afterWith hfirst.nodup hperm ?_ hcalm hcalm' n hrun
  rw [depth_of_start hstart, depth_of_start hstart',
    hsame.timelineDepth_eq hfirst hsecond (Plan.perm_depths hfirst.nodup hperm hmatches)]

namespace Registry

def base : Entry StockRule := { Entry.new "base" .hold [1, 2] with depth := 3 }

def reader : Entry StockRule :=
  { Entry.new "reader" .relay [0] with feeds := .ofList [(Relay.param, ⟨"base", some [1]⟩)] }

def tapeRule : StockRule := .replay ⟨some ⟨[5], 1, 1⟩⟩

/-- The tape is used up in the second step. -/
def tape : Entry StockRule :=
  { Entry.new "tape" tapeRule [4] with params := ⟨.ofList [(Replay.param, [6])], "tape"⟩ }

def forthRequests : List (Request StockRule StockPace) :=
  [.simulate (.new (.steps 9) (.constant 1)), .seedAll 7, .add base, .add reader, .add tape]

/-- The same the other way round, in groups that put the base in front of its reader. -/
def backRequests : List (Request StockRule StockPace) := [
  .add { tape with group := some "first" },
  .add { reader with group := some "second" },
  .add { base with group := some "first" },
  .seedAll 7,
  .simulate (.new (.steps 9) (.constant 1))]

def forthPlan : Plan where
  partitions := [
    ⟨"base", ⟨∅, "base"⟩, ∅, [1, 2], deriveSeed 7 "base", 2, 3⟩,
    ⟨"reader", ⟨∅, "reader"⟩, .ofList [(Relay.param, ⟨0, some [1]⟩)], [0], deriveSeed 7 "reader", 1, 1⟩,
    ⟨"tape", ⟨.ofList [(Replay.param, [6])], "tape"⟩, ∅, [4], deriveSeed 7 "tape", 1, 1⟩]
  startTime := 0
  timelineDepth := 3
  groups := [[0], [1], [2]]

def backPlan : Plan where
  partitions := [
    ⟨"tape", ⟨.ofList [(Replay.param, [6])], "tape"⟩, ∅, [4], deriveSeed 7 "tape", 1, 1⟩,
    ⟨"base", ⟨∅, "base"⟩, ∅, [1, 2], deriveSeed 7 "base", 2, 3⟩,
    ⟨"reader", ⟨∅, "reader"⟩, .ofList [(Relay.param, ⟨1, some [1]⟩)], [0], deriveSeed 7 "reader", 1, 1⟩]
  startTime := 0
  timelineDepth := 3
  groups := [[0, 1], [2]]

def forthBehaviour : Behaviour StockRule StockPace := .new [.hold, .relay, tapeRule] (.steps 9) (.constant 1)

def backBehaviour : Behaviour StockRule StockPace := .new [tapeRule, .hold, .relay] (.steps 9) (.constant 1)

open Simulation in
theorem forthRequests_and_backRequests_show_same :
    (built forthRequests).resolve = .ok (forthPlan, forthBehaviour) ∧
      (built backRequests).resolve = .ok (backPlan, backBehaviour) ∧
      ∃ sim twin, (start forthPlan forthBehaviour).1 = .ok sim ∧ (start backPlan backBehaviour).1 = .ok twin ∧
        (twin.afterWith (fun _ => .silent) 1).ComputeFails ∧
        ∀ m ≤ 2, (sim.afterWith (fun _ => .recordAll "states") m).ShowsSame
          (twin.afterWith (fun _ => .silent) m) := by
  have hresolve : (built forthRequests).resolve = .ok (forthPlan, forthBehaviour) := rfl
  have hresolve' : (built backRequests).resolve = .ok (backPlan, backBehaviour) := rfl
  have hsame : (built forthRequests).SameEntries (built backRequests) :=
    ⟨rfl, rfl, (List.reverse_perm [base, reader, tape]).symm⟩
  have hstock : ∀ entry ∈ (built forthRequests).entries, entry.indexParams = ∅ ∧
      ∃ rule : StockRule, entry.rule = StockRules.ofStock rule := by
    intro entry hentry
    have hmem : entry ∈ [base, reader, tape] := hentry
    simp only [List.mem_cons, List.not_mem_nil, or_false] at hmem
    obtain rfl | rfl | rfl := hmem
    · exact ⟨rfl, .hold, rfl⟩
    · exact ⟨rfl, .relay, rfl⟩
    · exact ⟨rfl, tapeRule, rfl⟩
  obtain ⟨-, hruns⟩ := registration_order_does_not_matter hsame hstock hresolve hresolve'
  refine ⟨hresolve, hresolve', _, _, rfl, rfl, ?_⟩
  obtain ⟨-, hfails, hshows⟩ := hruns _ _ rfl rfl (fun _ => .recordAll "states") (fun _ => .silent)
    (fun _ _ _ _ h => by cases h) (fun _ _ _ _ h => by cases h) 1 (fun k hk => by
      obtain rfl := Nat.lt_one_iff.1 hk
      exact not_computeFails_of_ok rfl)
  exact ⟨hfails.2 ⟨_, _, _, rfl, rfl⟩, hshows⟩

end Registry

end Tandem
