import Tandem.Proofs.Abandon
import Tandem.Proofs.Crash
import Tandem.Proofs.Phase
import Tandem.Proofs.Rules

/-!
# Steps that are made again

A step that fails before it commits does change its simulation: fed params may hold states that nobody else
ever saw, and pending states are gone. But each fed param is set anew before a rule sees it, and a pending
state is replaced before it is recorded. Simulations that differ in nothing else go on alike, so that a step
which came to nothing is never noticed later, provided that the rules remember nothing themselves.
-/

namespace Tandem

variable {ρ τ : Type}

/-- No call changes the rule. -/
def UpdateRule.Stateless [UpdateRule ρ] (rule : ρ) : Prop :=
  ∀ params i view, (UpdateRule.advance params i view rule).next = rule

theorem Called.eq_of_stateless [UpdateRule ρ] {first rule : ρ} (h : Called first rule)
    (hrule : UpdateRule.Stateless first) : rule = first := by
  induction h with
  | refl => rfl
  | call _ params i view ih => rw [ih, hrule]

/-! ## Partitions -/

namespace Partition

theorem refresh_congr (name : String) (feeds : Table String Feed) (inbox : Inbox)
    {params others : Params} (howner : params.owner = others.owner) :
    let first := refresh name feeds inbox params
    let second := refresh name feeds inbox others
    first.1 = second.1 ∧ first.2.owner = second.2.owner ∧
      (∀ param, params.get? param = others.get? param →
        first.2.get? param = second.2.get? param) ∧
      (first.1 = .ok () → ∀ param ∈ inbox.map (·.1), first.2.get? param = second.2.get? param) := by
  induction inbox generalizing params others with
  | nil => exact ⟨rfl, howner, fun _ h => h, fun _ _ hmem => absurd hmem List.not_mem_nil⟩
  | cons entry rest ih =>
      obtain ⟨name', message⟩ := entry
      cases message with
      | none => exact ⟨rfl, howner, fun _ h => h, fun hok => by cases hok⟩
      | some state =>
          simp only [refresh]
          cases Feed.select ((feeds.get? name').bind (·.selection)) state with
          | error crash => exact ⟨rfl, howner, fun _ h => h, fun hok => by cases hok⟩
          | ok values =>
              have howners : (params.set name' values).owner = (others.set name' values).owner := howner
              obtain ⟨hresult, howner', hsame, hset⟩ := ih howners
              refine ⟨hresult, howner', fun param hparam => hsame param ?_, fun hok param hmem => ?_⟩
              · rw [get?_set, get?_set, hparam]
              · rcases List.mem_cons.1 hmem with rfl | hmem
                · exact hsame _ (by rw [get?_set, get?_set, if_pos rfl, if_pos rfl])
                · exact hset hok param hmem

/-- Partitions that differ in their fed params and in what is pending, and in nothing else. -/
structure Alike (p q : Partition ρ) : Prop where
  rule : p.rule = q.rule
  name : p.name = q.name
  index : p.index = q.index
  feeds : p.feeds = q.feeds
  owner : p.params.owner = q.params.owner
  unfed : ∀ param, p.feeds.get? param = none → p.params.get? param = q.params.get? param

namespace Alike

variable {p q r : Partition ρ}

theorem refl (p : Partition ρ) : p.Alike p := ⟨rfl, rfl, rfl, rfl, rfl, fun _ _ => rfl⟩

theorem symm (h : p.Alike q) : q.Alike p :=
  ⟨h.rule.symm, h.name.symm, h.index.symm, h.feeds.symm, h.owner.symm,
    fun param hparam => (h.unfed param (h.feeds ▸ hparam)).symm⟩

theorem trans (h : p.Alike q) (h' : q.Alike r) : p.Alike r :=
  ⟨h.rule.trans h'.rule, h.name.trans h'.name, h.index.trans h'.index, h.feeds.trans h'.feeds,
    h.owner.trans h'.owner,
    fun param hparam => (h.unfed param hparam).trans (h'.unfed param (h.feeds ▸ hparam))⟩

theorem discard (h : p.Alike q) : p.discard.Alike q :=
  ⟨h.rule, h.name, h.index, h.feeds, h.owner, h.unfed⟩

theorem refresh (h : p.Alike q) {inbox : Inbox} (hinbox : inbox.map (·.1) = p.feeds.keys) :
    let first := Partition.refresh p.name p.feeds inbox p.params
    let second := Partition.refresh q.name q.feeds inbox q.params
    first.1 = second.1 ∧ Partition.Alike { p with params := first.2 } { q with params := second.2 } ∧
      (first.1 = .ok () → first.2 = second.2) := by
  intro first second
  have hsecond : second = Partition.refresh p.name p.feeds inbox q.params := by
    rw [h.name, h.feeds]
  obtain ⟨hresult, howner, hsame, hset⟩ := refresh_congr p.name p.feeds inbox h.owner
  rw [hsecond]
  refine ⟨hresult, ⟨h.rule, h.name, h.index, h.feeds, howner, fun param hparam =>
    hsame param (h.unfed param hparam)⟩, fun hok => ?_⟩
  have hvalues : first.2.values =
      (Partition.refresh p.name p.feeds inbox q.params).2.values := by
    refine Table.ext_get? fun param => ?_
    cases hparam : p.feeds.get? param with
    | none => exact hsame param (h.unfed param hparam)
    | some feed => exact hset hok param (hinbox ▸ Table.mem_keys_iff.2 ⟨feed, hparam⟩)
  exact Params.mk.injEq .. ▸ ⟨hvalues, howner⟩

variable [UpdateRule ρ]

theorem callRule (h : p.Alike q) (hparams : p.params = q.params) (view : View) :
    let first := Partition.callRule view p
    let second := Partition.callRule view q
    first.result = second.result ∧ first.emitted = second.emitted ∧ first.next.Alike second.next ∧
      ∀ state, first.result = .ok state → first.next = second.next := by
  obtain ⟨rule, params, name, index, feeds, pending⟩ := p
  obtain ⟨rule', params', name', index', feeds', pending'⟩ := q
  obtain ⟨rfl, rfl, rfl, rfl, -, -⟩ := h
  obtain rfl : params = params' := hparams
  simp only [Partition.callRule]
  cases (UpdateRule.advance params index view rule).result with
  | error stop => exact ⟨rfl, rfl, ⟨rfl, rfl, rfl, rfl, rfl, fun _ _ => rfl⟩, fun _ hok => by cases hok⟩
  | ok state =>
      dsimp only
      cases checkWidth name index view state with
      | error stop => exact ⟨rfl, rfl, ⟨rfl, rfl, rfl, rfl, rfl, fun _ _ => rfl⟩, fun _ hok => by cases hok⟩
      | ok state => exact ⟨rfl, rfl, refl _, fun _ _ => rfl⟩

theorem compute (h : p.Alike q) (view : View) {inbox : Inbox}
    (hinbox : inbox.map (·.1) = p.feeds.keys) :
    let first := Partition.compute view inbox p
    let second := Partition.compute view inbox q
    first.result = second.result ∧ first.emitted = second.emitted ∧ first.next.Alike second.next ∧
      ∀ state, first.result = .ok state → first.next = second.next := by
  obtain ⟨hresult, halike, hparams⟩ := h.refresh hinbox
  cases hfirst : Partition.refresh p.name p.feeds inbox p.params with
  | mk result params =>
      cases hsecond : Partition.refresh q.name q.feeds inbox q.params with
      | mk other others =>
          rw [hfirst, hsecond] at hresult halike hparams
          obtain rfl : result = other := hresult
          cases result with
          | error stop =>
              rw [compute_of_refresh_error _ _ hfirst, compute_of_refresh_error _ _ hsecond]
              exact ⟨rfl, rfl, halike, nofun⟩
          | ok _ =>
              rw [compute_of_refresh_ok _ _ hfirst, compute_of_refresh_ok _ _ hsecond]
              exact halike.callRule (hparams rfl) view

theorem compute_left (h : p.Alike q) (hrule : UpdateRule.Stateless q.rule) (view : View)
    {inbox : Inbox} (hinbox : inbox.map (·.1) = p.feeds.keys) :
    (Partition.compute view inbox p).next.Alike q := by
  obtain ⟨hname, hindex, hfeeds, howner, hget⟩ := compute_keeps view p inbox
  have hcalled := called_compute view inbox p
  rw [h.rule] at hcalled
  refine ⟨hcalled.eq_of_stateless hrule, hname.trans h.name, hindex.trans h.index, hfeeds.trans h.feeds,
    howner.trans h.owner, fun param hparam => ?_⟩
  rw [hfeeds] at hparam
  refine (hget param ?_).trans (h.unfed param hparam)
  rw [hinbox, Table.mem_keys_iff, hparam]
  exact nofun

end Alike

end Partition

/-! ## Compute phases -/

/-- Cells with the same window and with partitions that are alike. -/
structure Cell.Alike (a b : Cell ρ) : Prop where
  partition : a.partition.Alike b.partition
  window : a.window = b.window

namespace Cell.Alike

variable {a b c : Cell ρ}

theorem refl (a : Cell ρ) : a.Alike a := ⟨.refl _, rfl⟩

theorem symm (h : a.Alike b) : b.Alike a := ⟨h.partition.symm, h.window.symm⟩

theorem trans (h : a.Alike b) (h' : b.Alike c) : a.Alike c :=
  ⟨h.partition.trans h'.partition, h.window.trans h'.window⟩

end Cell.Alike

/-- Phases in which the same was sent and the same halted. Cells that have sent something are equal. -/
structure Progress.Alike (p q : Progress ρ) : Prop where
  cells : List.Forall₂ Cell.Alike p.cells q.cells
  sent : p.sent = q.sent
  halted : p.halted = q.halted
  emitted : p.emitted = q.emitted
  equal : ∀ i, p.sentBy i ≠ none → p.cells[i]? = q.cells[i]?

namespace Progress.Alike

variable {p q : Progress ρ}

theorem start {cells others : List (Cell ρ)} (h : List.Forall₂ Cell.Alike cells others)
    (groups : Nat) : (Progress.start cells groups).Alike (Progress.start others groups) where
  cells := h
  sent := by simp [Progress.start, h.length_eq]
  halted := rfl
  emitted := rfl
  equal := fun i hi => absurd (sentBy_start cells groups i) hi

theorem inbox (h : p.Alike q) (feeds : Table String Feed) : p.inbox feeds = q.inbox feeds := by
  simp only [Progress.inbox, sentBy, h.sent]

variable [UpdateRule ρ]

theorem equal_visit (h : p.Alike q) (view : View) {g i : Nat} {cell other : Cell ρ}
    (hcell : p.cells[i]? = some cell) (hother : q.cells[i]? = some other) (hp : p.haltOf g = none)
    (hq : q.haltOf g = none) (j : Nat) (hsent : (p.visit view g i).sentBy j ≠ none) :
    (p.visit view g i).cells[j]? = (q.visit view g i).cells[j]? := by
  obtain ⟨hi, -⟩ := List.getElem?_eq_some_iff.1 hcell
  obtain ⟨hi', -⟩ := List.getElem?_eq_some_iff.1 hother
  by_cases hji : j = i
  · subst hji
    obtain ⟨found, hfound, halike⟩ := exists_of_forall₂ h.cells hcell
    obtain rfl : other = found := Option.some.inj (hother.symm.trans hfound)
    have hinbox : q.inbox other.partition.feeds = p.inbox cell.partition.feeds := by
      rw [← halike.partition.feeds, h.inbox]
    have hequal := (halike.partition.compute view (p.map_fst_inbox cell.partition.feeds)).2.2.2
    cases hresult : (cell.partition.compute view (p.inbox cell.partition.feeds)).result with
    | ok state =>
        rw [visit_eq view hcell hp, visit_eq view hother hq, hinbox]
        dsimp only
        rw [List.getElem?_set_self hi, List.getElem?_set_self hi', hequal state hresult, halike.window]
    | error stop =>
        rw [sentBy_visit_of_error hcell hp hresult] at hsent
        obtain rfl : cell = other :=
          Option.some.inj (hcell.symm.trans ((h.equal j hsent).trans hother))
        rw [visit_eq view hcell hp, visit_eq view hother hq, hinbox]
        dsimp only
        rw [List.getElem?_set_self hi, List.getElem?_set_self hi']
  · rw [sentBy_visit_of_ne hcell hp hji] at hsent
    rw [visit_eq view hcell hp, visit_eq view hother hq]
    dsimp only
    rw [List.getElem?_set_ne (Ne.symm hji), List.getElem?_set_ne (Ne.symm hji)]
    exact h.equal j hsent

theorem visit (h : p.Alike q) (view : View) (g i : Nat) :
    (p.visit view g i).Alike (q.visit view g i) := by
  have hhalts : p.haltOf g = q.haltOf g := by rw [haltOf, haltOf, h.halted]
  cases hhalt : p.haltOf g with
  | some stop =>
      rw [visit_of_halted hhalt, visit_of_halted (hhalts.symm.trans hhalt)]
      exact h
  | none =>
      cases hcell : p.cells[i]? with
      | none =>
          have hnone : q.cells[i]? = none := by
            rw [List.getElem?_eq_none_iff] at hcell ⊢
            exact h.cells.length_eq ▸ hcell
          simp only [Progress.visit, hcell, hnone]
          exact h
      | some cell =>
          obtain ⟨other, hother, halike⟩ := exists_of_forall₂ h.cells hcell
          have hinbox : q.inbox other.partition.feeds = p.inbox cell.partition.feeds := by
            rw [← halike.partition.feeds, h.inbox]
          obtain ⟨hresult, hemitted, hnext, -⟩ :=
            halike.partition.compute view (p.map_fst_inbox cell.partition.feeds)
          have hq := hhalts.symm.trans hhalt
          have hequal := h.equal_visit view hcell hother hhalt hq
          rw [visit_eq view hcell hhalt, visit_eq view hother hq] at hequal ⊢
          dsimp only at hequal ⊢
          rw [hinbox] at hequal ⊢
          rw [← hresult]
          exact ⟨forall₂_set_both h.cells i ⟨hnext, halike.window⟩, by rw [h.sent],
            by rw [h.halted], by rw [h.emitted, hemitted], hequal⟩

omit [UpdateRule ρ] in
theorem discard (h : p.Alike q) : List.Forall₂ Cell.Alike
    (p.cells.map fun cell => { cell with partition := cell.partition.discard })
    (q.cells.map fun cell => { cell with partition := cell.partition.discard }) :=
  List.forall₂_map_left_iff.2 (List.forall₂_map_right_iff.2 (h.cells.imp fun _ _ hcell =>
    ⟨hcell.partition.discard.symm.discard.symm, hcell.window⟩))

end Progress.Alike

namespace Simulation

/-- Simulations of which no step can tell the difference, given the same output. -/
structure Alike (a b : Simulation ρ τ) : Prop where
  cells : List.Forall₂ Cell.Alike a.cells b.cells
  schedule : a.schedule = b.schedule
  timeline : a.timeline = b.timeline
  stop : a.stop = b.stop
  pace : a.pace = b.pace

namespace Alike

variable {a b c : Simulation ρ τ}

theorem refl (a : Simulation ρ τ) : a.Alike a :=
  ⟨List.forall₂_same.2 fun _ _ => .refl _, rfl, rfl, rfl, rfl⟩

theorem symm (h : a.Alike b) : b.Alike a :=
  ⟨(h.cells.imp fun _ _ => Cell.Alike.symm).flip, h.schedule.symm, h.timeline.symm, h.stop.symm,
    h.pace.symm⟩

theorem trans (h : a.Alike b) (h' : b.Alike c) : a.Alike c :=
  ⟨forall₂_trans (fun hxy hyz => hxy.trans hyz) h.cells h'.cells, h.schedule.trans h'.schedule,
    h.timeline.trans h'.timeline, h.stop.trans h'.stop, h.pace.trans h'.pace⟩

theorem withOutput (h : a.Alike b) (output : Output) : (a.withOutput output).Alike (b.withOutput output) :=
  ⟨h.cells, h.schedule, h.timeline, h.stop, h.pace⟩

theorem begun (h : a.Alike b) (increment : Float) (pace : τ) :
    (a.begun increment pace).Alike (b.begun increment pace) :=
  ⟨h.cells, h.schedule, by rw [Simulation.begun, Simulation.begun, h.timeline], h.stop, rfl⟩

theorem windows (h : a.Alike b) : a.windows = b.windows :=
  map_eq_of_forall₂ (fun _ _ hcell => hcell.window) h.cells

theorem names (h : a.Alike b) : a.names = b.names :=
  map_eq_of_forall₂ (fun _ _ hcell => hcell.partition.name) h.cells

theorem view (h : a.Alike b) : a.view = b.view := by
  rw [Simulation.view, Simulation.view, h.windows, h.timeline]

variable [UpdateRule ρ]

theorem computeAll (h : a.Alike b) : a.computeAll.Alike b.computeAll := by
  unfold Simulation.computeAll
  rw [← h.schedule, ← h.view]
  exact List.foldl_rel (.start h.cells _) fun i _ p q halike => halike.visit a.view _ i

theorem compute (h : a.Alike b) :
    a.compute.result = b.compute.result ∧ a.compute.emitted = b.compute.emitted := by
  have hphase := h.computeAll
  rw [compute_eq, compute_eq, names_computeAll, names_computeAll, h.names, h.schedule,
    hphase.halted, hphase.emitted]
  exact ⟨rfl, rfl⟩

theorem computed (h : a.Alike b) (hsuits : a.schedule.Suits a.cells)
    (hcompute : a.compute.result = .ok ()) (houtput : a.output = b.output) :
    a.computed = b.computed := by
  have hphase := h.computeAll
  have hcells : a.computeAll.cells = b.computeAll.cells := by
    refine List.ext_getElem? fun i => ?_
    by_cases hi : i < a.cells.length
    · obtain ⟨state, hsent⟩ := exists_sent hsuits hcompute hi
      exact hphase.equal i (by rw [hsent]; exact nofun)
    · have hlength : a.computeAll.cells.length = a.cells.length := length_computed a
      have hother := hphase.cells.length_eq
      rw [List.getElem?_eq_none (by omega), List.getElem?_eq_none (by omega)]
  unfold Simulation.computed
  rw [hcells, Simulation.mk.injEq]
  exact ⟨rfl, h.schedule, h.timeline, houtput, h.stop, h.pace⟩

theorem calls (h : a.Alike b) {i : Nat} {params : Params} {answer : Reply Emission ρ State}
    (hcalls : a.Calls i params answer) : b.Calls i params answer := by
  obtain ⟨hcell, hreached, htaken⟩ := hcalls
  obtain ⟨other, hother, halike⟩ := exists_of_forall₂ h.cells hcell
  have hphase := h.computeAll
  obtain ⟨hresult, -, hparams⟩ := halike.partition.refresh (a.computeAll.map_fst_inbox _)
  rw [hphase.inbox, halike.partition.feeds] at htaken hresult hparams
  have htaken' : Partition.refresh other.partition.name other.partition.feeds
      (b.computeAll.inbox other.partition.feeds) other.partition.params = (.ok (), params) :=
    have hok := congrArg Prod.fst htaken
    Prod.ext (hresult.symm.trans hok) ((hparams hok).symm.trans (congrArg Prod.snd htaken))
  rw [halike.partition.index, halike.partition.rule, h.view]
  refine .intro hother (fun j hj hlt hnone => ?_) htaken'
  rw [← h.schedule] at hj
  exact hreached j hj hlt (by rwa [Progress.sentBy, hphase.sent])

variable [Pace τ]

theorem step (h : a.Alike b) (hsuits : a.schedule.Suits a.cells) (houtput : a.output = b.output) :
    a.step.result = b.step.result ∧ a.step.emitted = b.step.emitted ∧ a.step.next.Alike b.step.next := by
  have hpaces : Pace.next b.timeline.beginStep b.pace = Pace.next a.timeline.beginStep a.pace := by
    rw [h.timeline, h.pace]
  have hrestored : a.restored = b.restored := by rw [restored, restored, h.timeline]
  have hway := a.way_step
  generalize a.step = reply at hway ⊢
  cases hway with
  | refused hpace =>
      rw [step_of_refusal (hpaces.trans hpace)]
      exact ⟨rfl, rfl, h.cells, h.schedule, hrestored, h.stop, rfl⟩
  | crashed hpace =>
      rw [step_of_crash (hpaces.trans hpace)]
      exact ⟨rfl, rfl, h.cells, h.schedule, congrArg Timeline.beginStep h.timeline, h.stop, rfl⟩
  | @failed increment pace stop hpace hcompute =>
      obtain ⟨hresult, hemitted⟩ := (h.begun increment pace).compute
      rw [step_of_failure (hpaces.trans hpace) (hresult.symm.trans hcompute), hemitted]
      exact ⟨rfl, rfl, (h.begun increment pace).computeAll.discard, h.schedule, hrestored, h.stop,
        (h.begun increment pace).pace⟩
  | @finished increment pace hpace hcompute =>
      obtain ⟨hresult, hemitted⟩ := (h.begun increment pace).compute
      have hcomputed := (h.begun increment pace).computed hsuits hcompute houtput
      rw [step_of_success (hpaces.trans hpace) (hresult.symm.trans hcompute), hemitted, hcomputed]
      exact ⟨rfl, rfl, .refl _⟩

end Alike

/-! ## Steps that came to nothing -/

variable [UpdateRule ρ] [Pace τ] {plan : Plan} {behaviour : Behaviour ρ τ} {sim : Simulation ρ τ}

/-- The simulation after `n` more steps with the given outputs, whatever they reply. -/
def afterWith (sim : Simulation ρ τ) (outputs : Nat → Output) : Nat → Simulation ρ τ
  | 0 => sim
  | n + 1 => ((sim.afterWith outputs n).withOutput (outputs n)).step.next

theorem attainable_afterWith (h : Attainable plan behaviour sim) (outputs : Nat → Output) (n : Nat) :
    Attainable plan behaviour (sim.afterWith outputs n) := by
  induction n with
  | zero => exact h
  | succ n ih => exact ih.step (outputs n)

theorem Alike.afterWith {a b : Simulation ρ τ} (h : a.Alike b) (hattainable : Attainable plan behaviour a)
    (outputs : Nat → Output) (n : Nat) : (a.afterWith outputs n).Alike (b.afterWith outputs n) := by
  induction n with
  | zero => exact h
  | succ n ih =>
      obtain ⟨hfits, hschedule⟩ := (attainable_afterWith hattainable outputs n).fits
      exact ((ih.withOutput (outputs n)).step (Plan.schedule_suits hschedule hfits.feeds_eq) rfl).2.2

omit [Pace τ] in
theorem alike_computeAll (hrules : ∀ cell ∈ sim.cells, UpdateRule.Stateless cell.partition.rule) :
    List.Forall₂ Cell.Alike sim.computeAll.cells sim.cells := by
  refine sim.computeAll_induction (motive := fun _ progress =>
    List.Forall₂ Cell.Alike progress.cells sim.cells) (List.forall₂_same.2 fun _ _ => .refl _) ?_
  intro done i after progress _ h
  rcases progress.cells_visit sim.view (groupOf sim.schedule.ranges i) i with
    heq | ⟨cell, hcell, heq⟩
  · exact heq ▸ h
  · obtain ⟨before, hbefore, halike⟩ := exists_of_forall₂ h hcell
    rw [heq]
    exact forall₂_set_left h hbefore ⟨halike.partition.compute_left
      (hrules before (List.mem_of_getElem? hbefore)) sim.view (progress.map_fst_inbox _), halike.window⟩

/-- What a step that came to nothing leaves is like what it found, but for the pace. -/
theorem Aborts.alike (h : sim.Aborts)
    (hrules : ∀ cell ∈ sim.cells, UpdateRule.Stateless cell.partition.rule) :
    sim.step.next.Alike { sim with timeline := sim.restored, pace := sim.step.next.pace } := by
  rcases h with ⟨fault, pace, hpace⟩ | ⟨increment, pace, stop, hpace, hmem⟩
  · rw [step_of_refusal hpace]
    exact .refl _
  · obtain ⟨first, hcompute⟩ := exists_compute_error hmem
    rw [step_of_failure hpace hcompute]
    refine ⟨List.forall₂_map_left_iff.2 ?_, rfl, rfl, rfl, rfl⟩
    have halike : List.Forall₂ Cell.Alike (sim.begun increment pace).computeAll.cells sim.cells :=
      alike_computeAll hrules
    exact halike.imp fun _ _ hcell => ⟨hcell.partition.discard, hcell.window⟩

theorem Aborts.withOutput (h : sim.Aborts) (output : Output) : (sim.withOutput output).Aborts := h

/-- Made again with a pace that does not change, a step that came to nothing comes to the same each time. -/
theorem Aborts.again (h : sim.Aborts) (hattainable : Attainable plan behaviour sim)
    (hrules : ∀ cell ∈ sim.cells, UpdateRule.Stateless cell.partition.rule)
    (hpace : ∀ timeline, (Pace.next timeline sim.pace).2 = sim.pace)
    (hcount : sim.timeline.step + 1 < Word.count) (outputs : Nat → Output) (n : Nat) :
    ((sim.afterWith outputs n).withOutput (outputs n)).step.result = sim.step.result := by
  have hback : ∀ output, (sim.withOutput output).step.next.Alike sim := by
    intro output
    have halike := (h.withOutput output).alike hrules
    have hsame : (sim.withOutput output).step.next.pace = sim.pace :=
      (step_pace _).trans (hpace sim.timeline.beginStep)
    rw [hsame] at halike
    exact ⟨halike.cells, halike.schedule, halike.timeline.trans (restored_eq hcount), halike.stop,
      halike.pace⟩
  have hresult : ∀ output, (sim.withOutput output).step.result = sim.step.result := by
    intro output
    rw [h.step_withOutput]
    rfl
  have hstep : ∀ n, (sim.afterWith outputs n).Alike sim →
      ((sim.afterWith outputs n).withOutput (outputs n)).step.result = sim.step.result ∧
        (sim.afterWith outputs (n + 1)).Alike sim := by
    intro n halike
    obtain ⟨hfits, hschedule⟩ := (attainable_afterWith hattainable outputs n).fits
    obtain ⟨hsame, -, hnext⟩ := (halike.withOutput (outputs n)).step
      (Plan.schedule_suits hschedule hfits.feeds_eq) rfl
    exact ⟨hsame.trans (hresult (outputs n)), hnext.trans (hback (outputs n))⟩
  have halike : ∀ n, (sim.afterWith outputs n).Alike sim := by
    intro n
    induction n with
    | zero => exact .refl sim
    | succ n ih => exact (hstep n ih).2
  exact (hstep n (halike n)).1

/-- Whatever steps follow a step that came to nothing, they reply the same, deliver the same and leave the
same windows and times as if only its pace had moved on. With a pace that does not change, the step can be
made again any number of times. -/
theorem aborted_step_is_unobservable (h : Attainable plan behaviour sim) (haborts : sim.Aborts)
    (hrules : ∀ cell ∈ sim.cells, UpdateRule.Stateless cell.partition.rule) (output : Output)
    (outputs : Nat → Output) :
    let left := (sim.withOutput output).step.next
    let clean := { sim with timeline := sim.restored, pace := left.pace }
    (sim.timeline.step + 1 < Word.count → clean = { sim with pace := left.pace }) ∧
      (∀ n,
        let found := (left.afterWith outputs n).withOutput (outputs n)
        let expected := (clean.afterWith outputs n).withOutput (outputs n)
        found.windows = expected.windows ∧ found.timeline = expected.timeline ∧
          found.step.result = expected.step.result ∧ found.step.emitted = expected.step.emitted ∧
          ∀ increment pace i params answer, (found.begun increment pace).Calls i params answer ↔
            (expected.begun increment pace).Calls i params answer) ∧
      ((∀ timeline, (Pace.next timeline sim.pace).2 = sim.pace) →
        sim.timeline.step + 1 < Word.count → ∀ n,
          ((sim.afterWith outputs n).withOutput (outputs n)).step.result = sim.step.result) := by
  intro left clean
  have hleft : Attainable plan behaviour left := h.step output
  have halike : left.Alike clean := by
    have hfound := (haborts.withOutput output).alike hrules
    exact ⟨hfound.cells, hfound.schedule, hfound.timeline, hfound.stop, hfound.pace⟩
  refine ⟨fun hcount => ?_, fun n => ?_, fun hpace hcount n => ?_⟩
  · simp only [clean, restored_eq hcount]
  · intro found expected
    have hn := (halike.afterWith hleft outputs n).withOutput (outputs n)
    obtain ⟨hfits, hschedule⟩ := (attainable_afterWith hleft outputs n).fits
    obtain ⟨hresult, hemitted, -⟩ := hn.step (Plan.schedule_suits hschedule hfits.feeds_eq) rfl
    exact ⟨hn.windows, hn.timeline, hresult, hemitted, fun increment pace i params answer =>
      ⟨(hn.begun increment pace).calls, (hn.begun increment pace).symm.calls⟩⟩
  · exact haborts.again h hrules hpace hcount outputs n

/-- The reader is fed by a partition that holds its state; a third partition has nothing to replay. -/
def touchedPlan : Plan where
  partitions := [
    ⟨"reader", .empty, .ofList [(Relay.param, ⟨1, none⟩)], [0], 0, 1, 1⟩,
    ⟨"steady", .empty, ∅, [3], 0, 1, 1⟩,
    ⟨"source", .empty, ∅, [5], 0, 1, 1⟩]
  startTime := 0
  timelineDepth := 1
  groups := [[0], [1], [2]]

def touchedBehaviour : Behaviour StockRule StockPace :=
  .new [.relay, .hold, .replay ⟨none⟩] (.steps 1) (.constant 1)

def touchedSimulation : Simulation StockRule StockPace where
  cells := [
    ⟨⟨.relay, ⟨∅, "reader"⟩, "reader", 0, .ofList [(Relay.param, ⟨1, none⟩)], none⟩, ⟨[0], 1, 1⟩⟩,
    ⟨⟨.hold, ⟨∅, "steady"⟩, "steady", 1, ∅, none⟩, ⟨[3], 1, 1⟩⟩,
    ⟨⟨.replay ⟨none⟩, ⟨∅, "source"⟩, "source", 2, ∅, none⟩, ⟨[5], 1, 1⟩⟩]
  schedule := ⟨[⟨0, 1⟩, ⟨1, 2⟩, ⟨2, 3⟩], [2, 1, 0]⟩
  timeline := ⟨0, [], 0, 0⟩
  output := .silent
  stop := .steps 1
  pace := .constant 1

theorem touchedSimulation_goes_on_alike :
    Attainable touchedPlan touchedBehaviour touchedSimulation ∧ touchedSimulation.Aborts ∧
      (∃ cell, touchedSimulation.cells[0]? = some cell ∧
        cell.partition.params.get? Relay.param = none) ∧
      (∃ cell, touchedSimulation.step.next.cells[0]? = some cell ∧
        cell.partition.params.get? Relay.param = some [3]) ∧
      ∀ outputs n,
        ((touchedSimulation.step.next.afterWith outputs n).withOutput (outputs n)).step.result =
            ((touchedSimulation.afterWith outputs n).withOutput (outputs n)).step.result ∧
          ((touchedSimulation.afterWith outputs n).withOutput (outputs n)).step.result =
            touchedSimulation.step.result := by
  have hattainable : Attainable touchedPlan touchedBehaviour touchedSimulation :=
    .start (rfl : Simulation.start _ _ = (_, []))
  have haborts : touchedSimulation.Aborts :=
    Or.inr ⟨1, .constant 1, _, rfl, List.mem_cons_of_mem _ (List.mem_cons_of_mem _ List.mem_cons_self)⟩
  have hrules : ∀ cell ∈ touchedSimulation.cells, UpdateRule.Stateless cell.partition.rule := by
    intro cell hcell
    simp only [touchedSimulation, List.mem_cons, List.not_mem_nil, or_false] at hcell
    rcases hcell with rfl | rfl | rfl <;> exact fun _ _ _ => rfl
  have hcount : touchedSimulation.timeline.step + 1 < Word.count := by decide
  refine ⟨hattainable, haborts, ⟨_, rfl, rfl⟩, ⟨_, rfl, rfl⟩, fun outputs n => ?_⟩
  obtain ⟨hclean, hlater, hagain⟩ :=
    aborted_step_is_unobservable hattainable haborts hrules .silent outputs
  obtain ⟨-, -, hresult, -, -⟩ := hlater n
  refine ⟨?_, hagain (fun _ => rfl) hcount n⟩
  rw [hclean hcount] at hresult
  exact hresult

end Simulation

end Tandem
