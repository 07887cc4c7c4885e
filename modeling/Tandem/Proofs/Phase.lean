import Tandem.Proofs.Equations

/-!
# Compute phases in which partitions fail

What `Progress.Visited` says of partitions that send their states is only half of a phase. The members of a
group run up to the first that fails, and what it would have sent is missing elsewhere. Which members are
reached, what each of them computes and what halts a group is settled by what was sent in the phase as a
whole, whatever the order of the visits.
-/

namespace Tandem

/-! ## Why a computation fails -/

namespace Partition

variable {ρ : Type}

theorem refresh_eq_error {name : String} {feeds : Table String Feed} {inbox : Inbox}
    {params new : Params} {stop : Stop} (h : refresh name feeds inbox params = (.error stop, new)) :
    (∃ param, (param, none) ∈ inbox ∧ stop = .fault (.feedUnavailable name param)) ∨
      ∃ param state crash, (param, some state) ∈ inbox ∧ stop = .crash crash ∧
        Feed.select ((feeds.get? param).bind (·.selection)) state = .error crash := by
  induction inbox generalizing params with
  | nil => cases h
  | cons entry rest ih =>
      obtain ⟨param, message⟩ := entry
      cases message with
      | none =>
          cases h
          exact Or.inl ⟨param, List.mem_cons_self, rfl⟩
      | some state =>
          simp only [refresh] at h
          cases hselect : Feed.select ((feeds.get? param).bind (·.selection)) state with
          | error crash =>
              simp only [hselect, Prod.mk.injEq, Except.error.injEq] at h
              exact Or.inr ⟨param, state, crash, List.mem_cons_self, h.1.symm, hselect⟩
          | ok values =>
              simp only [hselect] at h
              rcases ih h with ⟨param', hmem, hstop⟩ | ⟨param', state', crash, hmem, hstop, hselect'⟩
              · exact Or.inl ⟨param', List.mem_cons_of_mem _ hmem, hstop⟩
              · exact Or.inr ⟨param', state', crash, List.mem_cons_of_mem _ hmem, hstop, hselect'⟩

/-- How a partition fails whose rule was called and gave `answer`: the rule refused, it crashed, or its state
does not have the width of the partition's window. -/
inductive OwnFailure (name : String) (time : Float) (width : Nat) (answer : Outcome State) : Stop → Prop
  | refused {cause : Fault} (h : answer = .error (.fault cause)) :
      OwnFailure name time width answer (.fault (.ruleFailed name time cause))
  | crashed {crash : Crash} (h : answer = .error (.crash crash)) :
      OwnFailure name time width answer (.crash crash)
  | misshapen {state : State} (h : answer = .ok state) (hwidth : state.length ≠ width) :
      OwnFailure name time width answer (.fault (.wrongWidth name time state.length width))

theorem OwnFailure.isKnockOn_report {name : String} {time : Float} {width : Nat}
    {answer : Outcome State} {stop : Stop} (h : OwnFailure name time width answer stop)
    (leader : String) : (stop.report leader).isKnockOn = false := by
  cases h <;> rfl

variable [UpdateRule ρ] (view : View) (p : Partition ρ)

theorem callRule_eq_error {window : Window} (hwindow : view.windows[p.index]? = some window)
    {stop : Stop} (h : (callRule view p).result = .error stop) :
    OwnFailure p.name view.timeline.next window.width
      (UpdateRule.advance p.params p.index view p.rule).result stop := by
  simp only [callRule] at h
  cases hanswer : (UpdateRule.advance p.params p.index view p.rule).result with
  | error cause =>
      simp only [hanswer, Except.error.injEq] at h
      subst h
      cases cause with
      | fault cause => exact .refused rfl
      | crash crash => exact .crashed rfl
  | ok state =>
      simp only [hanswer, checkWidth, View.window, hwindow, bind, Except.bind, liftM, monadLift,
        MonadLift.monadLift, Except.mapError] at h
      split at h
      next stop' hfound =>
        split at hfound
        next hwidth =>
          cases hfound
          obtain rfl := Except.error.inj h
          exact .misshapen rfl hwidth
        next => cases hfound
      next => cases h

theorem compute_of_refresh_error {inbox : Inbox} {params : Params} {stop : Stop}
    (h : refresh p.name p.feeds inbox p.params = (.error stop, params)) :
    compute view inbox p = ⟨.error stop, { p with params := params }, []⟩ := by
  simp only [compute, h]

theorem compute_of_refresh_ok {inbox : Inbox} {params : Params}
    (h : refresh p.name p.feeds inbox p.params = (.ok (), params)) :
    compute view inbox p = callRule view { p with params := params } := by
  simp only [compute, h]

end Partition

/-! ## Who is reached, and what halts a group -/

namespace Progress

variable {ρ : Type}

/-- The worker of a group gets to partition `i`: all members before it have sent their states. -/
def Reaches (ranges : List Range) (progress : Progress ρ) (i : Nat) : Prop :=
  ∀ j, groupOf ranges j = groupOf ranges i → j < i → progress.sentBy j ≠ none

def replyTo [UpdateRule ρ] (view : View) (progress : Progress ρ) (cell : Cell ρ) :
    Reply Emission (Partition ρ) State :=
  cell.partition.compute view (progress.inbox cell.partition.feeds)

/-- A phase over `cells`, of which the partitions in `done` were visited, has made of each cell and each
group what was sent asks for. -/
structure Settled [UpdateRule ρ] (view : View) (cells : List (Cell ρ)) (ranges : List Range)
    (done : List Nat) (progress : Progress ρ) : Prop where
  reached : ∀ i ∈ done, progress.Reaches ranges i → ∀ cell, cells[i]? = some cell →
    progress.cells[i]? = some { cell with partition := (progress.replyTo view cell).next }
  failed : ∀ i ∈ done, progress.Reaches ranges i → ∀ cell stop, cells[i]? = some cell →
    (progress.replyTo view cell).result = .error stop →
      progress.sentBy i = none ∧ progress.haltOf (groupOf ranges i) = some stop
  succeeded : ∀ i ∈ done, progress.Reaches ranges i → ∀ cell state, cells[i]? = some cell →
    (progress.replyTo view cell).result = .ok state → progress.sentBy i = some state
  unreached : ∀ i ∈ done, ¬ progress.Reaches ranges i →
    progress.cells[i]? = cells[i]? ∧ progress.sentBy i = none
  halted : ∀ g stop, progress.haltOf g = some stop → ∃ i ∈ done, ∃ cell, groupOf ranges i = g ∧
    progress.Reaches ranges i ∧ cells[i]? = some cell ∧
      (progress.replyTo view cell).result = .error stop

variable [UpdateRule ρ] {view : View} {cells : List (Cell ρ)} {ranges : List Range} {done : List Nat}
  {progress : Progress ρ} {i : Nat}

theorem settled_start (view : View) (cells : List (Cell ρ)) (ranges : List Range) :
    Settled view cells ranges [] (start cells ranges.length) where
  reached := by simp
  failed := by simp
  succeeded := by simp
  unreached := by simp
  halted := fun g stop h => by simp at h

theorem Settled.concat_of_halted (h : Settled view cells ranges done progress)
    (hvisited : Visited view cells ranges done progress) {stop : Stop}
    (hhalt : progress.haltOf (groupOf ranges i) = some stop) (hfresh : i ∉ done)
    (hserial : ∀ k ∈ done, groupOf ranges k = groupOf ranges i → k < i) :
    Settled view cells ranges (done ++ [i]) progress := by
  obtain ⟨k, hk, cell, hgroup, hreaches, hcell, hresult⟩ := h.halted _ _ hhalt
  have hsilent : progress.sentBy k = none := (h.failed k hk hreaches cell stop hcell hresult).1
  have hnot : ¬ progress.Reaches ranges i := fun hall =>
    hall k hgroup (hserial k hk hgroup) hsilent
  have hsplit : ∀ j ∈ done ++ [i], progress.Reaches ranges j → j ∈ done := by
    intro j hj hreached
    rcases List.mem_append.1 hj with hj | hj
    · exact hj
    · exact absurd (List.mem_singleton.1 hj ▸ hreached) hnot
  refine ⟨fun j hj hreached => h.reached j (hsplit j hj hreached) hreached,
    fun j hj hreached => h.failed j (hsplit j hj hreached) hreached,
    fun j hj hreached => h.succeeded j (hsplit j hj hreached) hreached,
    fun j hj hmissed => ?_, fun g stop hstop => ?_⟩
  · rcases List.mem_append.1 hj with hj | hj
    · exact h.unreached j hj hmissed
    · rw [List.mem_singleton.1 hj]
      exact ⟨hvisited.untouched i hfresh, hvisited.unsent i hfresh⟩
  · obtain ⟨j, hj, found⟩ := h.halted g stop hstop
    exact ⟨j, List.mem_append_left _ hj, found⟩

theorem visit_running (hvisited : Visited view cells ranges done progress) (hi : i < cells.length)
    (hgroup : groupOf ranges i < ranges.length) (hfresh : i ∉ done)
    (hhalt : progress.haltOf (groupOf ranges i) = none) :
    let next := progress.visit view (groupOf ranges i) i
    let reply := progress.replyTo view cells[i]
    (∀ j, j ≠ i → next.sentBy j = progress.sentBy j ∧ next.cells[j]? = progress.cells[j]?) ∧
      next.cells[i]? = some { cells[i] with partition := reply.next } ∧
      (∀ state, reply.result = .ok state →
        next.sentBy i = some state ∧ ∀ g, next.haltOf g = progress.haltOf g) ∧
      ∀ stop, reply.result = .error stop → next.sentBy i = none ∧
        ∀ g, next.haltOf g = if g = groupOf ranges i then some stop else progress.haltOf g := by
  intro next reply
  have hcell : progress.cells[i]? = some cells[i] := by
    rw [hvisited.untouched i hfresh, List.getElem?_eq_getElem hi]
  have hlength : i < progress.cells.length := hvisited.cellCount ▸ hi
  have hsent : i < progress.sent.length := hvisited.sentCount ▸ hi
  have hhalted : groupOf ranges i < progress.halted.length := hvisited.haltCount ▸ hgroup
  have hvisit := visit_eq view hcell hhalt
  obtain ⟨hsame, -⟩ :=
    visit_decides view hcell hhalt hsent hhalted (hvisited.unsent i hfresh)
  refine ⟨fun j hj => ⟨hsame j hj, ?_⟩, ?_, fun state hresult => ⟨?_, ?_⟩, fun stop hresult => ⟨?_, ?_⟩⟩
  · simp only [next, hvisit]
    exact List.getElem?_set_ne (Ne.symm hj)
  · simp only [next, hvisit]
    exact List.getElem?_set_self hlength
  · exact (sentBy_visit_of_ok hcell hhalt hsent hresult i).trans (if_pos rfl)
  · exact haltOf_visit_of_ok hcell hhalt hresult
  · exact (sentBy_visit_of_error hcell hhalt hresult i).trans (hvisited.unsent i hfresh)
  · exact haltOf_visit_of_error hcell hhalt hhalted hresult

section Elsewhere

variable {next : Progress ρ} (hothers : ∀ j, j ≠ i → next.sentBy j = progress.sentBy j)

include hothers

theorem replyTo_congr {cell : Cell ρ}
    (hsources : ∀ feed ∈ cell.partition.feeds.values, feed.source ≠ i) :
    next.replyTo view cell = progress.replyTo view cell :=
  congrArg (cell.partition.compute view) (inbox_congr fun feed hfeed => hothers _ (hsources feed hfeed))

omit [UpdateRule ρ] in
theorem reaches_congr {j : Nat} (hne : ∀ k, groupOf ranges k = groupOf ranges j → k < j → k ≠ i) :
    next.Reaches ranges j ↔ progress.Reaches ranges j :=
  forall_congr' fun k => forall_congr' fun hk => forall_congr' fun hlt => by
    rw [hothers k (hne k hk hlt)]

end Elsewhere

theorem haltOf_visit_of_some (hvisited : Visited view cells ranges done progress)
    (hi : i < cells.length) (hgroup : groupOf ranges i < ranges.length) (hfresh : i ∉ done)
    (hhalt : progress.haltOf (groupOf ranges i) = none) (g : Nat) (stop : Stop)
    (h : progress.haltOf g = some stop) :
    (progress.visit view (groupOf ranges i) i).haltOf g = some stop := by
  obtain ⟨-, -, hok, herror⟩ := visit_running hvisited hi hgroup hfresh hhalt
  cases hresult : (progress.replyTo view cells[i]).result with
  | ok state => exact ((hok state hresult).2 g).trans h
  | error first =>
      have hne : g ≠ groupOf ranges i := fun heq => nomatch (heq ▸ h).symm.trans hhalt
      exact ((herror first hresult).2 g).trans ((if_neg hne).trans h)

theorem Settled.visit (h : Settled view cells ranges done progress)
    (hvisited : Visited view cells ranges done progress) (hi : i < cells.length)
    (hgroup : groupOf ranges i < ranges.length) (hfresh : i ∉ done)
    (hsources : ∀ j ∈ i :: done, ∀ cell, cells[j]? = some cell →
      ∀ feed ∈ cell.partition.feeds.values, feed.source ∈ done)
    (hearlier : ∀ j, groupOf ranges j = groupOf ranges i → j < i → j ∈ done)
    (hserial : ∀ k ∈ done, groupOf ranges k = groupOf ranges i → k < i) :
    Settled view cells ranges (done ++ [i]) (progress.visit view (groupOf ranges i) i) := by
  cases hhalt : progress.haltOf (groupOf ranges i) with
  | some stop =>
      rw [visit_of_halted hhalt]
      exact h.concat_of_halted hvisited hhalt hfresh hserial
  | none =>
      obtain ⟨hothers, hcell, hok, herror⟩ := visit_running hvisited hi hgroup hfresh hhalt
      have hkept := haltOf_visit_of_some hvisited hi hgroup hfresh hhalt
      generalize progress.visit view (groupOf ranges i) i = next at hothers hcell hok herror hkept ⊢
      have hself := List.getElem?_eq_getElem hi
      have hreply : ∀ j ∈ i :: done, ∀ cell, cells[j]? = some cell →
          next.replyTo view cell = progress.replyTo view cell :=
        fun j hj cell hcellj => replyTo_congr (fun k hk => (hothers k hk).1) fun feed hfeed heq =>
          hfresh (heq ▸ hsources j hj cell hcellj feed hfeed)
      have hreaches : ∀ j ∈ i :: done, next.Reaches ranges j ↔ progress.Reaches ranges j := by
        refine fun j hj => reaches_congr (fun k hk => (hothers k hk).1) ?_
        rintro k hk hlt rfl
        rcases List.mem_cons.1 hj with rfl | hj
        · exact Nat.lt_irrefl _ hlt
        · exact Nat.lt_asymm hlt (hserial j hj hk.symm)
      have hreached : progress.Reaches ranges i := fun j hj hlt hnone =>
        hvisited.decided j (hearlier j hj hlt) hnone (hj ▸ hhalt)
      have hsplit : ∀ j ∈ done ++ [i], j ∈ i :: done ∧ (j = i ∨ j ∈ done ∧ j ≠ i) := by
        intro j hj
        rcases List.mem_append.1 hj with hj | hj
        · exact ⟨List.mem_cons_of_mem _ hj, Or.inr ⟨hj, fun heq => hfresh (heq ▸ hj)⟩⟩
        · obtain rfl := List.mem_singleton.1 hj
          exact ⟨List.mem_cons_self, Or.inl rfl⟩
      constructor
      case reached =>
        intro j hj hr cell hcellj
        obtain ⟨hmem, rfl | ⟨hdone, hne⟩⟩ := hsplit j hj
        · obtain rfl := Option.some.inj (hself.symm.trans hcellj)
          rw [hreply j hmem _ hcellj, hcell]
        · rw [hreply j hmem cell hcellj, (hothers j hne).2]
          exact h.reached j hdone ((hreaches j hmem).1 hr) cell hcellj
      case failed =>
        intro j hj hr cell stop hcellj hstop
        obtain ⟨hmem, rfl | ⟨hdone, hne⟩⟩ := hsplit j hj
        · obtain rfl := Option.some.inj (hself.symm.trans hcellj)
          rw [hreply j hmem _ hcellj] at hstop
          exact ⟨(herror stop hstop).1, by rw [(herror stop hstop).2, if_pos rfl]⟩
        · rw [hreply j hmem cell hcellj] at hstop
          obtain ⟨hsilent, hfound⟩ := h.failed j hdone ((hreaches j hmem).1 hr) cell stop hcellj hstop
          exact ⟨(hothers j hne).1.trans hsilent, hkept _ _ hfound⟩
      case succeeded =>
        intro j hj hr cell state hcellj hstate
        obtain ⟨hmem, rfl | ⟨hdone, hne⟩⟩ := hsplit j hj
        · obtain rfl := Option.some.inj (hself.symm.trans hcellj)
          rw [hreply j hmem _ hcellj] at hstate
          exact (hok state hstate).1
        · rw [hreply j hmem cell hcellj] at hstate
          exact (hothers j hne).1.trans
            (h.succeeded j hdone ((hreaches j hmem).1 hr) cell state hcellj hstate)
      case unreached =>
        intro j hj hr
        obtain ⟨hmem, rfl | ⟨hdone, hne⟩⟩ := hsplit j hj
        · exact absurd ((hreaches j hmem).2 hreached) hr
        · obtain ⟨huntouched, hsilent⟩ := h.unreached j hdone fun hall => hr ((hreaches j hmem).2 hall)
          exact ⟨(hothers j hne).2.trans huntouched, (hothers j hne).1.trans hsilent⟩
      case halted =>
        intro g stop hstop
        have hbefore : progress.haltOf g = some stop →
            ∃ j ∈ done ++ [i], ∃ cell, groupOf ranges j = g ∧ next.Reaches ranges j ∧
              cells[j]? = some cell ∧ (next.replyTo view cell).result = .error stop := by
          intro hfound
          obtain ⟨j, hj, cell, hg, hr, hcellj, hresult⟩ := h.halted g stop hfound
          have hmem := List.mem_cons_of_mem i hj
          exact ⟨j, List.mem_append_left _ hj, cell, hg, (hreaches j hmem).2 hr, hcellj,
            (hreply j hmem cell hcellj).symm ▸ hresult⟩
        cases hresult : (progress.replyTo view cells[i]).result with
        | ok state => exact hbefore (((hok state hresult).2 g).symm.trans hstop)
        | error first =>
            rw [(herror first hresult).2] at hstop
            split at hstop
            next hg =>
              obtain rfl := Option.some.inj hstop
              exact ⟨i, by simp, _, hg.symm, (hreaches i List.mem_cons_self).2 hreached, hself,
                (hreply i List.mem_cons_self _ hself).symm ▸ hresult⟩
            next => exact hbefore hstop

end Progress

/-! ## The whole phase -/

namespace Schedule.Suits

variable {ρ : Type} {schedule : Schedule} {cells : List (Cell ρ)} {done after : List Nat} {i : Nat}

theorem mem_done_of_group (h : schedule.Suits cells) (horder : schedule.order = done ++ i :: after)
    {j : Nat} (hj : groupOf schedule.ranges j = groupOf schedule.ranges i) (hlt : j < i) :
    j ∈ done := by
  have hi := h.lt_of_eq horder
  obtain ⟨range, hrange, hmem⟩ := h.exists_range hi
  exact h.serial_mem done i after horder range (List.mem_of_getElem? hrange) hmem j
    ((h.mem_indices_iff hrange (Nat.lt_trans hlt hi)).2 hj) hlt

theorem lt_of_group (h : schedule.Suits cells) (horder : schedule.order = done ++ i :: after) {k : Nat}
    (hk : k ∈ done) (hgroup : groupOf schedule.ranges k = groupOf schedule.ranges i) : k < i := by
  have hfresh := h.not_mem_done horder
  by_contra hle
  have hlt : i < k := by
    have hne : i ≠ k := fun heq => hfresh (heq ▸ hk)
    omega
  obtain ⟨earlier, later, rfl⟩ := List.append_of_mem hk
  rw [List.append_assoc, List.cons_append] at horder
  exact hfresh (List.mem_append_left _ (h.mem_done_of_group horder hgroup.symm hlt))

end Schedule.Suits

namespace Simulation

variable {ρ τ : Type} [UpdateRule ρ] {sim : Simulation ρ τ}

theorem settled_computeAll (hsuits : sim.schedule.Suits sim.cells) :
    Progress.Settled sim.view sim.cells sim.schedule.ranges sim.schedule.order sim.computeAll := by
  refine (sim.computeAll_induction (motive := fun done progress =>
    Progress.Visited sim.view sim.cells sim.schedule.ranges done progress ∧
      Progress.Settled sim.view sim.cells sim.schedule.ranges done progress)
    ⟨Progress.visited_start _ _ _, Progress.settled_start _ _ _⟩ ?_).2
  rintro done i after progress horder ⟨hvisited, hsettled⟩
  have hi := hsuits.lt_of_eq horder
  exact ⟨hvisited.visit_next hsuits horder, hsettled.visit hvisited hi (hsuits.groupOf_lt hi)
    (hsuits.not_mem_done horder)
    (fun j hj cell hcell feed hfeed => hsuits.source_mem_done horder hj hcell hfeed)
    (fun j hj hlt => hsuits.mem_done_of_group horder hj hlt)
    (fun k hk hgroup => hsuits.lt_of_group horder hk hgroup)⟩

/-- Partition `i` is the first of its group to fail in the compute phase. -/
def FailsAt (sim : Simulation ρ τ) (i : Nat) (stop : Stop) : Prop :=
  ∃ cell, sim.cells[i]? = some cell ∧ sim.computeAll.Reaches sim.schedule.ranges i ∧
    (sim.computeAll.replyTo sim.view cell).result = .error stop

/-- In the compute phase partition `i` calls its rule with `params`, and that is the answer. -/
inductive Calls (sim : Simulation ρ τ) (i : Nat) : Params → Reply Emission ρ State → Prop
  | intro {cell : Cell ρ} {params : Params} (hcell : sim.cells[i]? = some cell)
      (hreached : sim.computeAll.Reaches sim.schedule.ranges i)
      (htaken : Partition.refresh cell.partition.name cell.partition.feeds
        (sim.computeAll.inbox cell.partition.feeds) cell.partition.params = (.ok (), params)) :
      Calls sim i params
        (UpdateRule.advance params cell.partition.index sim.view cell.partition.rule)

theorem Calls.exists_rule (hsuits : sim.schedule.Suits sim.cells) {i : Nat} {params : Params}
    {answer : Reply Emission ρ State} (h : sim.Calls i params answer) :
    ∃ after, sim.computeAll.cells[i]? = some after ∧ after.partition.rule = answer.next := by
  obtain ⟨hcell, hreached, htaken⟩ := h
  have hi := hsuits.mem_order.2 (List.getElem?_eq_some_iff.1 hcell).1
  refine ⟨_, (settled_computeAll hsuits).reached i hi hreached _ hcell, ?_⟩
  simp only [Progress.replyTo]
  rw [Partition.compute_of_refresh_ok _ _ htaken, Partition.callRule_next]
  split <;> rfl

theorem exists_call (hsuits : sim.schedule.Suits sim.cells) (hcompute : sim.compute.result = .ok ())
    {i : Nat} {cell : Cell ρ} (hcell : sim.cells[i]? = some cell) :
    ∃ params answer state, sim.Calls i params answer ∧ answer.result = .ok state ∧
      sim.newStates[i]? = some state := by
  have hi := (List.getElem?_eq_some_iff.1 hcell).1
  obtain ⟨state, hsent⟩ := exists_sent hsuits hcompute hi
  obtain ⟨hresult, -⟩ := (visited_computeAll hsuits).computed i state hsent cell hcell
  obtain ⟨params, hrefresh, hadvance, -⟩ := Partition.compute_of_ok _ _ hresult
  refine ⟨params, _, state, .intro hcell (fun j _ hlt hnone => ?_) hrefresh, hadvance,
    getElem?_newStates hsent⟩
  obtain ⟨_, hother⟩ := exists_sent hsuits hcompute (Nat.lt_trans hlt hi)
  cases hother.symm.trans hnone

/-- What halts a group is the failure of its first member to fail. -/
theorem haltOf_eq_some_iff (hsuits : sim.schedule.Suits sim.cells) {g : Nat} {stop : Stop} :
    sim.computeAll.haltOf g = some stop ↔
      ∃ i, groupOf sim.schedule.ranges i = g ∧ sim.FailsAt i stop := by
  have hsettled := settled_computeAll hsuits
  constructor
  · intro h
    obtain ⟨i, -, cell, hgroup, hreached, hcell, hresult⟩ := hsettled.halted g stop h
    exact ⟨i, hgroup, cell, hcell, hreached, hresult⟩
  · rintro ⟨i, rfl, cell, hcell, hreached, hresult⟩
    have hi := hsuits.mem_order.2 (List.getElem?_eq_some_iff.1 hcell).1
    exact (hsettled.failed i hi hreached cell stop hcell hresult).2

theorem length_of_sent (hsuits : sim.schedule.Suits sim.cells)
    (hindex : ∀ (i : Nat) cell, sim.cells[i]? = some cell → cell.partition.index = i) {i : Nat}
    {cell : Cell ρ} {state : State} (hcell : sim.cells[i]? = some cell)
    (h : sim.computeAll.sentBy i = some state) : state.length = cell.window.width := by
  obtain ⟨hresult, -⟩ := (visited_computeAll hsuits).computed i state h cell hcell
  obtain ⟨-, -, -, ⟨window, hwindow, hwidth⟩, -⟩ := Partition.compute_of_ok _ _ hresult
  rw [hindex i cell hcell, view, windows, List.getElem?_map, hcell] at hwindow
  obtain rfl := Option.some.inj hwindow
  exact hwidth

/-- The first partition in the order of the schedule that sends nothing has got all it waited for. -/
theorem exists_failsAt_fed (hsuits : sim.schedule.Suits sim.cells)
    (h : sim.compute.result ≠ .ok ()) :
    ∃ i stop cell, sim.FailsAt i stop ∧ sim.cells[i]? = some cell ∧
      ∀ feed ∈ cell.partition.feeds.values, sim.computeAll.sentBy feed.source ≠ none := by
  have hsettled := settled_computeAll hsuits
  obtain ⟨g, hg⟩ : ∃ g, sim.computeAll.haltOf g ≠ none := by
    by_contra hnone
    push Not at hnone
    exact h (compute_result_eq_ok_iff_running.2 hnone)
  obtain ⟨stop, hhalt⟩ := Option.ne_none_iff_exists'.1 hg
  obtain ⟨k, -, cell, hcell, hreached, hresult⟩ := (haltOf_eq_some_iff hsuits).1 hhalt
  have hk := hsuits.mem_order.2 (List.getElem?_eq_some_iff.1 hcell).1
  have hsilent := (hsettled.failed k hk hreached cell stop hcell hresult).1
  have hany : (sim.schedule.order.find? fun i => (sim.computeAll.sentBy i).isNone).isSome := by
    rw [List.find?_isSome]
    exact ⟨k, hk, by simp [hsilent]⟩
  obtain ⟨i, hi⟩ := Option.isSome_iff_exists.1 hany
  obtain ⟨hnone, done, after, horder, hbefore⟩ := List.find?_eq_some_iff_append.1 hi
  have hlt := hsuits.lt_of_eq horder
  have hsent : ∀ j ∈ done, sim.computeAll.sentBy j ≠ none := by
    intro j hj hno
    simpa [hno] using hbefore j hj
  have hcelli := List.getElem?_eq_getElem hlt
  have hreached : sim.computeAll.Reaches sim.schedule.ranges i := fun j hj hji =>
    hsent j (hsuits.mem_done_of_group horder hj hji)
  refine ⟨i, ?_⟩
  cases hreply : (sim.computeAll.replyTo sim.view sim.cells[i]).result with
  | ok state =>
      have hstate := hsettled.succeeded i (hsuits.mem_order.2 hlt) hreached _ state hcelli hreply
      simp [hstate] at hnone
  | error first =>
      exact ⟨first, _, ⟨_, hcelli, hreached, hreply⟩, hcelli, fun feed hfeed =>
        hsent _ (hsuits.source_mem_done horder List.mem_cons_self hcelli hfeed)⟩

end Simulation

end Tandem
