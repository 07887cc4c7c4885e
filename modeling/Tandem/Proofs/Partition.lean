import Tandem.Partition
import Tandem.Proofs.Table

/-!
# What computing does to a partition

Taking in states changes params only, one after the other, and calling the rule changes the rule and, if
the call succeeds, the pending state. When both succeed, the params were those that the senders' states
ask for, and the pending state is what the rule made of them.
-/

namespace Tandem

/-- `values` are the elements that a selection picks from a state, in its order; all of them, if there is
no selection. -/
def Feed.Picks (selection : Option (List Nat)) (state values : State) : Prop :=
  match selection with
  | none => values = state
  | some indices => indices.map (fun i => state[i]?) = values.map some

namespace Feed

theorem select_eq_ok_iff {selection : Option (List Nat)} {state values : State} :
    select selection state = .ok values ↔ Picks selection state values := by
  cases selection with
  | none => simp [select, Picks, eq_comm]
  | some indices =>
      simp only [select, Picks]
      induction indices generalizing values with
      | nil => cases values <;> simp [pure, Except.pure]
      | cons i rest ih =>
          rw [List.mapM_cons, List.map_cons]
          cases hvalue : state[i]? with
          | none => cases values <;> simp [bind, Except.bind]
          | some value =>
              simp only [bind, Except.bind, pure, Except.pure]
              split
              next crash hrest =>
                cases values with
                | nil => simp
                | cons first later =>
                    have hlater := (@ih later).not.1 (by simp [hrest])
                    simp only [reduceCtorEq, List.map_cons, List.cons.injEq, false_iff, not_and]
                    exact fun _ => hlater
              next later hrest =>
                cases values with
                | nil => simp
                | cons first other =>
                    rw [List.map_cons, List.cons.injEq, ← ih, hrest]
                    simp only [Except.ok.injEq, List.cons.injEq, Option.some.injEq]

theorem Picks.unique {selection : Option (List Nat)} {state values other : State}
    (h : Picks selection state values) (h' : Picks selection state other) : values = other := by
  have heq := (select_eq_ok_iff.2 h).symm.trans (select_eq_ok_iff.2 h')
  exact Except.ok.inj heq

end Feed

namespace Partition

variable {ρ : Type}

/-! ## Taking in states -/

theorem refresh_cons (name : String) (feeds : Table String Feed) (entry : String × Option State)
    (rest : Inbox) (params : Params) :
    refresh name feeds (entry :: rest) params =
      match refresh name feeds [entry] params with
      | (.ok (), params) => refresh name feeds rest params
      | (.error stop, params) => (.error stop, params) := by
  obtain ⟨param, message⟩ := entry
  cases message with
  | none => rfl
  | some state =>
      simp only [refresh]
      cases Feed.select ((feeds.get? param).bind (·.selection)) state <;> rfl

theorem get?_set (params : Params) (name other : String) (values : List Float) :
    (params.set name values).get? other =
      if other = name then some values else params.get? other :=
  params.values.get?_insert name other values

theorem refresh_keeps (name : String) (feeds : Table String Feed) (inbox : Inbox) (params : Params) :
    (refresh name feeds inbox params).2.owner = params.owner ∧
      ∀ param, param ∉ inbox.map (·.1) →
        (refresh name feeds inbox params).2.get? param = params.get? param := by
  induction inbox generalizing params with
  | nil => exact ⟨rfl, fun _ _ => rfl⟩
  | cons entry rest ih =>
      obtain ⟨name', message⟩ := entry
      cases message with
      | none => exact ⟨rfl, fun _ _ => rfl⟩
      | some state =>
          simp only [refresh]
          cases Feed.select ((feeds.get? name').bind (·.selection)) state with
          | error crash => exact ⟨rfl, fun _ _ => rfl⟩
          | ok values =>
              obtain ⟨howner, hget⟩ := ih (params.set name' values)
              refine ⟨howner, fun param hparam => ?_⟩
              rw [List.map_cons, List.mem_cons, not_or] at hparam
              rw [hget param hparam.2, get?_set, if_neg hparam.1]

/-- An inbox that is taken in completely leaves every param of it with the elements that its feed picks
from what was sent. -/
theorem get?_refresh_of_ok {name : String} {feeds : Table String Feed} {inbox : Inbox}
    {params new : Params} (h : refresh name feeds inbox params = (.ok (), new))
    (hnodup : (inbox.map (·.1)).Nodup) :
    ∀ entry ∈ inbox, ∃ state values, entry.2 = some state ∧
      Feed.Picks ((feeds.get? entry.1).bind (·.selection)) state values ∧
      new.get? entry.1 = some values := by
  induction inbox generalizing params with
  | nil => simp
  | cons first rest ih =>
      obtain ⟨param, message⟩ := first
      obtain ⟨hfresh, hlater⟩ := List.nodup_cons.1 hnodup
      cases message with
      | none => cases h
      | some state =>
          simp only [refresh] at h
          cases hselect : Feed.select ((feeds.get? param).bind (·.selection)) state with
          | error crash => simp [hselect] at h
          | ok values =>
              simp only [hselect] at h
              intro entry hentry
              rcases List.mem_cons.1 hentry with rfl | hentry
              · refine ⟨state, values, rfl, Feed.select_eq_ok_iff.1 hselect, ?_⟩
                have hkeeps := (refresh_keeps name feeds rest (params.set param values)).2 param hfresh
                rw [h] at hkeeps
                rw [hkeeps, get?_set, if_pos rfl]
              · exact ih h hlater entry hentry

section

variable [UpdateRule ρ] (view : View) (p : Partition ρ)

/-! ## Calling the rule -/

theorem callRule_next :
    (callRule view p).next =
      match (callRule view p).result with
      | .ok state =>
          { p with
            rule := (UpdateRule.advance p.params p.index view p.rule).next
            pending := some state }
      | .error _ => { p with rule := (UpdateRule.advance p.params p.index view p.rule).next } := by
  simp only [callRule]
  cases (UpdateRule.advance p.params p.index view p.rule).result with
  | error stop => rfl
  | ok state =>
      simp only
      cases checkWidth p.name p.index view state <;> rfl

theorem callRule_next_eq {state : State} (h : (callRule view p).result = .ok state) :
    (callRule view p).next = { (callRule view p).next with pending := some state } := by
  rw [callRule_next, h]

theorem callRule_next_eq_of_error {stop : Stop} (h : (callRule view p).result = .error stop) :
    (callRule view p).next = { (callRule view p).next with pending := p.pending } := by
  rw [callRule_next, h]

theorem checkWidth_eq_ok {name : String} {index : Nat} {state new : State}
    (h : checkWidth name index view state = .ok new) :
    new = state ∧ ∃ window, view.windows[index]? = some window ∧ state.length = window.width := by
  cases hwindow : view.windows[index]? with
  | none => simp [checkWidth, View.window, hwindow, bind, Except.bind, liftM, monadLift,
      MonadLift.monadLift, Except.mapError] at h
  | some window =>
      simp only [checkWidth, View.window, hwindow, bind, Except.bind, liftM, monadLift,
        MonadLift.monadLift, Except.mapError] at h
      split at h
      · cases h
      next hwidth =>
        cases h
        exact ⟨rfl, window, rfl, by simpa using hwidth⟩

theorem callRule_of_ok {state : State} (h : (callRule view p).result = .ok state) :
    (UpdateRule.advance p.params p.index view p.rule).result = .ok state ∧
      (∃ window, view.windows[p.index]? = some window ∧ state.length = window.width) ∧
      (callRule view p).next =
        { p with
          rule := (UpdateRule.advance p.params p.index view p.rule).next
          pending := some state } := by
  have hnext := callRule_next view p
  rw [h] at hnext
  simp only [callRule] at h
  cases hrule : (UpdateRule.advance p.params p.index view p.rule).result with
  | error stop => simp [hrule] at h
  | ok found =>
      simp only [hrule] at h
      cases hwidth : checkWidth p.name p.index view found with
      | error stop => simp [hwidth] at h
      | ok accepted =>
          simp only [hwidth, Except.ok.injEq] at h
          obtain ⟨rfl, hwindow⟩ := checkWidth_eq_ok view hwidth
          obtain rfl := h
          exact ⟨rfl, hwindow, hnext⟩

/-! ## Both -/

/-- What computing never changes: the name, the index, the feeds, the owner of the params, and the params
that are not in the inbox. -/
theorem compute_keeps (inbox : Inbox) :
    (compute view inbox p).next.name = p.name ∧ (compute view inbox p).next.index = p.index ∧
      (compute view inbox p).next.feeds = p.feeds ∧
      (compute view inbox p).next.params.owner = p.params.owner ∧
      ∀ param, param ∉ inbox.map (·.1) →
        (compute view inbox p).next.params.get? param = p.params.get? param := by
  have hkeeps := refresh_keeps p.name p.feeds inbox p.params
  unfold compute
  cases hrefresh : refresh p.name p.feeds inbox p.params with
  | mk result params =>
      rw [hrefresh] at hkeeps
      cases result with
      | error stop => exact ⟨rfl, rfl, rfl, hkeeps⟩
      | ok _ =>
          dsimp only
          rw [callRule_next]
          split <;> exact ⟨rfl, rfl, rfl, hkeeps⟩

/-- A computation that succeeds: the params took in the inbox, and the rule was called once with them. -/
theorem compute_of_ok {inbox : Inbox} {state : State}
    (h : (compute view inbox p).result = .ok state) :
    ∃ params, refresh p.name p.feeds inbox p.params = (.ok (), params) ∧
      (UpdateRule.advance params p.index view p.rule).result = .ok state ∧
      (∃ window, view.windows[p.index]? = some window ∧ state.length = window.width) ∧
      (compute view inbox p).next =
        { p with
          params := params
          rule := (UpdateRule.advance params p.index view p.rule).next
          pending := some state } := by
  cases hrefresh : refresh p.name p.feeds inbox p.params with
  | mk result params =>
      cases result with
      | error stop => simp [compute, hrefresh] at h
      | ok _ =>
          simp only [compute, hrefresh] at h ⊢
          exact ⟨params, rfl, callRule_of_ok view _ h⟩

end

end Partition

end Tandem
