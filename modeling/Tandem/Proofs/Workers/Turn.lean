import Tandem.Proofs.Partition
import Tandem.Proofs.Workers.Commute

/-!
# The turn of one partition

When everything a partition waits for is decided, its worker can make all moves of that partition in a
row. Together they do what `Partition.compute` does, as if they were one move: the effect is `turn`.
-/

namespace Tandem.Crew

variable {ρ : Type} {crew : Crew ρ} {g i : Nat}

/-! ## One move after another -/

theorem used_andThen (wire : Wire) (first second : WireUse) :
    (wire.used first).used second = wire.used (first.andThen second) := by
  cases first <;> cases second <;> cases wire <;> rfl

theorem apply_andThen {e f : Effect ρ} (hindex : e.index = f.index) :
    (crew.apply g e).apply g f = crew.apply g (e.andThen f) := by
  simp only [apply, Effect.andThen, hindex, List.set_set, used_andThen]

theorem apply_same {cell : Cell ρ} {worker : Worker} {wires : Nat → String → WireUse}
    (hcell : crew.cells[i]? = some cell) (hworker : crew.workers[g]? = some worker)
    (hwires : ∀ r p, (crew.wires r p).used (wires r p) = crew.wires r p) :
    crew.apply g ⟨i, cell, worker, wires⟩ = crew := by
  have hcells : crew.cells.set i cell = crew.cells := by
    obtain ⟨h, rfl⟩ := List.getElem?_eq_some_iff.1 hcell
    exact List.set_getElem_self h
  have hworkers : crew.workers.set g worker = crew.workers := by
    obtain ⟨h, rfl⟩ := List.getElem?_eq_some_iff.1 hworker
    exact List.set_getElem_self h
  have hall : (fun r p => (crew.wires r p).used (wires r p)) = crew.wires := by
    funext r p
    exact hwires r p
  simp only [apply, hcells, hworkers, hall]

theorem getElem?_cells_apply {cell : Cell ρ} (effect : Effect ρ)
    (hcell : crew.cells[effect.index]? = some cell) :
    (crew.apply g effect).cells[effect.index]? = some effect.cell :=
  List.getElem?_set_self (List.getElem?_eq_some_iff.1 hcell).1

theorem getElem?_workers_apply {worker : Worker} (effect : Effect ρ)
    (hworker : crew.workers[g]? = some worker) :
    (crew.apply g effect).workers[g]? = some effect.worker :=
  List.getElem?_set_self (List.getElem?_eq_some_iff.1 hworker).1

/-! ## Wires of a turn -/

def closing (index : Nat) (params : List String) : Nat → String → WireUse :=
  fun r p => if r = index ∧ p ∈ params then .close else .keep

def sending (wires : List (Nat × String)) (state : State) : Nat → String → WireUse :=
  fun r p => if (r, p) ∈ wires then .send state else .keep

@[simp]
theorem used_keep (wire : Wire) : wire.used .keep = wire := rfl

@[simp]
theorem used_close (wire : Wire) : wire.used .close = .closed := rfl

@[simp]
theorem keep_andThen (use : WireUse) : WireUse.keep.andThen use = use := by cases use <;> rfl

@[simp]
theorem andThen_keep (use : WireUse) : use.andThen .keep = use := by cases use <;> rfl

@[simp]
theorem closed_used (use : WireUse) : Wire.closed.used use = .closed := by cases use <;> rfl

theorem closing_cons (index : Nat) (param : String) (params : List String) (r : Nat) (p : String) :
    (Effect.oneWire index param .close r p).andThen (closing index params r p) =
      closing index (param :: params) r p := by
  unfold Effect.oneWire closing
  by_cases hr : r = index
  · by_cases hp : p = param
    · simp [hr, hp, WireUse.andThen]
    · by_cases hmem : p ∈ params <;> simp [hr, hp, hmem, WireUse.andThen]
  · simp [hr, WireUse.andThen]

theorem drop_receive (index : Nat) (param : String) (todo : List Task) (r : Nat) (p : String) :
    (Effect.oneWire index param .close r p).andThen (Effect.drop todo r p) =
      Effect.drop (.receive index param :: todo) r p := by
  unfold Effect.oneWire Effect.drop
  by_cases heq : r = index ∧ p = param
  · simp [heq, WireUse.andThen]
  · have hne : Task.receive r p ≠ .receive index param := by
      simpa using heq
    simp [heq, hne, Task.sendsTo]

theorem andThen_assoc (first second third : WireUse) :
    (first.andThen second).andThen third = first.andThen (second.andThen third) := by
  cases first <;> cases second <;> cases third <;> rfl

theorem closing_andThen_drop (index : Nat) (params : List String) (todo : List Task) (r : Nat)
    (p : String) :
    (closing index params r p).andThen (Effect.drop todo r p) =
      Effect.drop (params.map (Task.receive index) ++ todo) r p := by
  induction params with
  | nil => simp [closing]
  | cons param rest ih =>
      rw [← closing_cons, andThen_assoc, ih, drop_receive]
      rfl

theorem drop_call (index : Nat) (todo : List Task) :
    Effect.drop (.call index :: todo) = Effect.drop todo := by
  funext r p
  simp [Effect.drop, Task.sendsTo]

theorem sending_cons {first : Nat × String} {wires : List (Nat × String)} (hfirst : first ∉ wires)
    (state : State) (r : Nat) (p : String) :
    (Effect.oneWire first.1 first.2 (.send state) r p).andThen (sending wires state r p) =
      sending (first :: wires) state r p := by
  unfold Effect.oneWire sending
  by_cases heq : (r, p) = first
  · subst heq
    simp [hfirst, WireUse.andThen]
  · have hne : ¬ (r = first.1 ∧ p = first.2) := fun h => heq (Prod.ext h.1 h.2)
    by_cases hmem : (r, p) ∈ wires <;> simp [heq, hne, hmem, WireUse.andThen]

/-! ## Receiving -/

/-- What a worker comes to that takes in an inbox: all of it, or up to the first entry that fails. -/
def receiveAll (index : Nat) (params : List String) (todo : List Task) (held : State)
    (cell : Cell ρ) (inbox : Inbox) : Effect ρ :=
  match Partition.refresh cell.partition.name cell.partition.feeds inbox cell.partition.params with
  | (.ok (), new) => ⟨index, cell.withParams new, ⟨todo, held, none⟩, closing index params⟩
  | (.error stop, new) =>
      ⟨index, cell.withParams new, ⟨[], held, some stop⟩,
        Effect.drop (params.map (Task.receive index) ++ todo)⟩

section

variable {param : String} {params : List String} {todo : List Task} {held : State} {cell : Cell ρ}
  {message : Option State} {inbox : Inbox} {new : Params}

theorem receiveAll_cons_of_ok
    (h : Partition.refresh cell.partition.name cell.partition.feeds [(param, message)]
      cell.partition.params = (.ok (), new)) :
    receiveAll i (param :: params) todo held cell ((param, message) :: inbox) =
      Effect.andThen
        ⟨i, cell.withParams new, ⟨params.map (Task.receive i) ++ todo, held, none⟩,
          Effect.oneWire i param .close⟩
        (receiveAll i params todo held (cell.withParams new) inbox) := by
  simp only [receiveAll, Cell.withParams]
  rw [Partition.refresh_cons, h]
  dsimp only
  cases Partition.refresh cell.partition.name cell.partition.feeds inbox new with
  | mk result newest =>
      cases result with
      | ok _ => simp only [Effect.andThen, closing_cons]
      | error stop => simp only [Effect.andThen, drop_receive, List.map_cons, List.cons_append]

theorem receiveAll_cons_of_error {stop : Stop}
    (h : Partition.refresh cell.partition.name cell.partition.feeds [(param, message)]
      cell.partition.params = (.error stop, new)) :
    receiveAll i (param :: params) todo held cell ((param, message) :: inbox) =
      ⟨i, cell.withParams new, ⟨[], held, some stop⟩,
        Effect.drop (.receive i param :: (params.map (Task.receive i) ++ todo))⟩ := by
  simp only [receiveAll]
  rw [Partition.refresh_cons, h]
  rfl

end

variable [UpdateRule ρ] {view : View}

theorem steps_receiveAll (view : View) (messages : String → Option State) (params : List String)
    {cell : Cell ρ} {todo : List Task} {held : State} (hnodup : params.Nodup)
    (hcell : crew.cells[i]? = some cell)
    (hworker : crew.workers[g]? = some ⟨params.map (Task.receive i) ++ todo, held, none⟩)
    (hwires : ∀ param ∈ params, (crew.wires i param).message? = some (messages param)) :
    ∃ n, Steps (Move view) n crew (crew.apply g (receiveAll i params todo held cell
      (params.map fun param => (param, messages param)))) := by
  induction params generalizing crew cell with
  | nil =>
      refine ⟨0, ?_⟩
      have hsame : crew.apply g ⟨i, cell, ⟨todo, held, none⟩, closing i []⟩ = crew :=
        apply_same hcell hworker fun r p => by simp [closing]
      have heffect : receiveAll i [] todo held cell [] =
          ⟨i, cell, ⟨todo, held, none⟩, closing i []⟩ := rfl
      rw [List.map_nil, heffect, hsame]
      exact .refl crew
  | cons param rest ih =>
      obtain ⟨hfresh, hnodup⟩ := List.nodup_cons.1 hnodup
      have heffect : crew.effect? view
          ⟨(param :: rest).map (Task.receive i) ++ todo, held, none⟩ =
          some (receive i param (rest.map (Task.receive i) ++ todo)
            ⟨(param :: rest).map (Task.receive i) ++ todo, held, none⟩ cell (messages param)) := by
        simp only [effect?, List.map_cons, List.cons_append, hcell,
          hwires param List.mem_cons_self, Option.bind_some, Option.map_some]
      rw [List.map_cons]
      cases hfirst : Partition.refresh cell.partition.name cell.partition.feeds
          [(param, messages param)] cell.partition.params with
      | mk result new =>
          cases result with
          | error stop =>
              rw [receiveAll_cons_of_error hfirst]
              refine ⟨1, .single ⟨g, _, _, hworker, ?_, rfl⟩⟩
              rw [heffect]
              simp only [receive, hfirst, Worker.halt]
          | ok _ =>
              rw [receiveAll_cons_of_ok hfirst]
              let first : Effect ρ := ⟨i, cell.withParams new,
                ⟨rest.map (Task.receive i) ++ todo, held, none⟩, Effect.oneWire i param .close⟩
              have hmove : Move view crew (crew.apply g first) := by
                refine ⟨g, _, _, hworker, ?_, rfl⟩
                rw [heffect]
                simp only [receive, hfirst, first]
              have hwires' : ∀ p ∈ rest,
                  ((crew.apply g first).wires i p).message? = some (messages p) := by
                intro p hp
                have hne : p ≠ param := fun heq => hfresh (heq ▸ hp)
                simpa [first, apply, Effect.oneWire, hne] using
                  hwires p (List.mem_cons_of_mem _ hp)
              obtain ⟨n, hsteps⟩ := ih hnodup (getElem?_cells_apply first hcell)
                (getElem?_workers_apply first hworker) hwires'
              rw [apply_andThen (by simp only [first, receiveAll]; split <;> rfl)] at hsteps
              exact ⟨n + 1, .head hmove hsteps⟩

/-! ## Sending -/

theorem steps_sendAll (view : View) (wires : List (Nat × String)) {cell : Cell ρ}
    {todo : List Task} {held : State} (hnodup : wires.Nodup) (hcell : crew.cells[i]? = some cell)
    (hworker : crew.workers[g]? =
      some ⟨wires.map (fun wire => Task.send i wire.1 wire.2) ++ todo, held, none⟩)
    (hroom : ∀ wire ∈ wires, (crew.wires wire.1 wire.2).isFull = false) :
    ∃ n, Steps (Move view) n crew
      (crew.apply g ⟨i, cell, ⟨todo, held, none⟩, sending wires held⟩) := by
  induction wires generalizing crew with
  | nil =>
      refine ⟨0, ?_⟩
      have hsame : crew.apply g ⟨i, cell, ⟨todo, held, none⟩, sending [] held⟩ = crew :=
        apply_same hcell hworker fun r p => by simp [sending]
      rw [hsame]
      exact .refl crew
  | cons first rest ih =>
      obtain ⟨hfresh, hnodup⟩ := List.nodup_cons.1 hnodup
      let effect : Effect ρ := ⟨i, cell,
        ⟨rest.map (fun wire => Task.send i wire.1 wire.2) ++ todo, held, none⟩,
        Effect.oneWire first.1 first.2 (.send held)⟩
      have hmove : Move view crew (crew.apply g effect) := by
        refine ⟨g, _, _, hworker, ?_, rfl⟩
        simp only [effect?, List.map_cons, List.cons_append, hroom first List.mem_cons_self, hcell,
          Option.map_some]
        rfl
      have hafter : ∀ wire ∈ rest, ((crew.apply g effect).wires wire.1 wire.2).isFull = false := by
        intro wire hwire
        have hne : ¬ (wire.1 = first.1 ∧ wire.2 = first.2) := by
          rintro ⟨h, h'⟩
          exact hfresh (Prod.ext h h' ▸ hwire)
        simpa [effect, apply, Effect.oneWire, hne] using hroom wire (List.mem_cons_of_mem _ hwire)
      obtain ⟨n, hsteps⟩ := ih hnodup (getElem?_cells_apply effect hcell)
        (getElem?_workers_apply effect hworker) hafter
      let later : Effect ρ := ⟨i, cell, ⟨todo, held, none⟩, sending rest held⟩
      have hwhole : effect.andThen later =
          ⟨i, cell, ⟨todo, held, none⟩, sending (first :: rest) held⟩ := by
        simp only [Effect.andThen, effect, later, sending_cons hfresh]
      rw [apply_andThen (e := effect) (f := later) rfl, hwhole] at hsteps
      exact ⟨n + 1, .head hmove hsteps⟩

theorem steps_sendAll_store (view : View) {wires : List (Nat × String)} {cell : Cell ρ}
    {rest : List Task} {state : State} (hnodup : wires.Nodup) (hcell : crew.cells[i]? = some cell)
    (hworker : crew.workers[g]? = some
      ⟨wires.map (fun wire => Task.send i wire.1 wire.2) ++ .store i :: rest, state, none⟩)
    (hroom : ∀ wire ∈ wires, (crew.wires wire.1 wire.2).isFull = false) :
    ∃ n, Steps (Move view) n crew (crew.apply g (Effect.andThen
      ⟨i, cell, ⟨.store i :: rest, state, none⟩, sending wires state⟩
      (store i rest ⟨.store i :: rest, state, none⟩ cell))) := by
  let worker : Worker := ⟨.store i :: rest, state, none⟩
  let sent : Effect ρ := ⟨i, cell, worker, sending wires state⟩
  let stored := store i rest worker cell
  obtain ⟨n, hsend⟩ := steps_sendAll view wires hnodup hcell hworker hroom
  have hstore : Move view (crew.apply g sent) ((crew.apply g sent).apply g stored) := by
    refine ⟨g, worker, stored, getElem?_workers_apply sent hworker, ?_, rfl⟩
    simp only [effect?, worker]
    rw [getElem?_cells_apply sent hcell]
    rfl
  refine ⟨n + 1, ?_⟩
  rw [← apply_andThen (e := sent) (f := stored) rfl]
  exact hsend.trans (.single hstore)

/-! ## The whole turn -/

/-- What all moves of a partition come to, given its inbox, the wires that it feeds and the tasks that
its worker has left after it. -/
def turn (view : View) (index : Nat) (cell : Cell ρ) (wires : List (Nat × String))
    (rest : List Task) (held : State) (inbox : Inbox) : Effect ρ :=
  let reply := cell.partition.compute view inbox
  let computed := { cell with partition := reply.next }
  let params := cell.partition.feeds.keys
  match reply.result with
  | .ok state =>
      ⟨index, computed, ⟨rest, state, none⟩,
        fun r p => (closing index params r p).andThen (sending wires state r p)⟩
  | .error stop =>
      ⟨index, computed, ⟨[], held, some stop⟩, Effect.drop (turnTasks index params wires ++ rest)⟩

section

variable {cell : Cell ρ} {wires : List (Nat × String)} {rest : List Task} {held : State}
  {inbox : Inbox} {new : Params}

theorem turn_of_ok {state : State} (h : (cell.partition.compute view inbox).result = .ok state) :
    turn view i cell wires rest held inbox =
      ⟨i, { cell with partition := (cell.partition.compute view inbox).next }, ⟨rest, state, none⟩,
        fun r p =>
          (closing i cell.partition.feeds.keys r p).andThen (sending wires state r p)⟩ := by
  simp only [turn, h]

theorem turn_of_error {stop : Stop}
    (h : (cell.partition.compute view inbox).result = .error stop) :
    turn view i cell wires rest held inbox =
      ⟨i, { cell with partition := (cell.partition.compute view inbox).next },
        ⟨[], held, some stop⟩,
        Effect.drop (turnTasks i cell.partition.feeds.keys wires ++ rest)⟩ := by
  simp only [turn, h]

theorem turn_of_refresh_error {stop : Stop}
    (h : Partition.refresh cell.partition.name cell.partition.feeds inbox cell.partition.params =
      (.error stop, new)) :
    receiveAll i cell.partition.feeds.keys (.call i ::
        (wires.map (fun wire => Task.send i wire.1 wire.2) ++ [.store i]) ++ rest) held cell inbox =
      turn view i cell wires rest held inbox := by
  simp only [receiveAll, turn, Partition.compute, h, turnTasks, Cell.withParams]
  simp

theorem turn_of_call_error (worker : Worker) {stop : Stop}
    (h : Partition.refresh cell.partition.name cell.partition.feeds inbox cell.partition.params =
      (.ok (), new))
    (hcall : (Partition.callRule view (cell.withParams new).partition).result = .error stop)
    (hheld : worker.held = held) :
    Effect.andThen
        ⟨i, cell.withParams new, worker, closing i cell.partition.feeds.keys⟩
        (call view i (wires.map (fun wire => Task.send i wire.1 wire.2) ++ [.store i] ++ rest)
          worker (cell.withParams new)) =
      turn view i cell wires rest held inbox := by
  have hnext := Partition.callRule_next_eq_of_error view _ hcall
  simp only [Cell.withParams] at hcall hnext
  simp only [turn, Partition.compute, h, call, Effect.andThen, Cell.withParams, Cell.withPending,
    hcall, Worker.halt, hheld, ← hnext]
  simp only [Effect.mk.injEq, true_and]
  funext r p
  rw [← drop_call i, closing_andThen_drop]
  simp [turnTasks]

theorem turn_of_call_ok (worker : Worker) (todo : List Task) {state : State}
    (h : Partition.refresh cell.partition.name cell.partition.feeds inbox cell.partition.params =
      (.ok (), new))
    (hcall : (Partition.callRule view (cell.withParams new).partition).result = .ok state) :
    let called := call view i todo worker (cell.withParams new)
    Effect.andThen
        ⟨i, cell.withParams new, worker, closing i cell.partition.feeds.keys⟩
        (called.andThen (Effect.andThen
          ⟨i, called.cell, ⟨.store i :: rest, state, none⟩, sending wires state⟩
          (store i rest ⟨.store i :: rest, state, none⟩ called.cell))) =
      turn view i cell wires rest held inbox := by
  have hnext := Partition.callRule_next_eq view _ hcall
  simp only [Cell.withParams] at hcall hnext
  simp only [turn, Partition.compute, h, call, store, Effect.andThen, Cell.withParams,
    Cell.withPending, hcall, Effect.noWire, keep_andThen, andThen_keep, Effect.mk.injEq, true_and,
    and_true]
  rw [← hnext]

end

/-- A worker that need not wait for anything makes the moves of a partition, and they come to its turn. -/
theorem steps_turn (view : View) (messages : String → Option State) {cell : Cell ρ}
    {wires : List (Nat × String)} {rest : List Task} {held : State}
    (hparams : cell.partition.feeds.keys.Nodup) (hnodup : wires.Nodup)
    (hcell : crew.cells[i]? = some cell)
    (hworker : crew.workers[g]? =
      some ⟨turnTasks i cell.partition.feeds.keys wires ++ rest, held, none⟩)
    (hwires : ∀ param ∈ cell.partition.feeds.keys,
      (crew.wires i param).message? = some (messages param))
    (hroom : ∀ wire ∈ wires, (crew.wires wire.1 wire.2).isFull = false) :
    ∃ n, Steps (Move view) n crew (crew.apply g (turn view i cell wires rest held
      (cell.partition.feeds.keys.map fun param => (param, messages param)))) := by
  let params := cell.partition.feeds.keys
  let inbox : Inbox := params.map fun param => (param, messages param)
  let sends := wires.map (fun wire => Task.send i wire.1 wire.2) ++ [.store i] ++ rest
  have hworker' : crew.workers[g]? =
      some ⟨params.map (Task.receive i) ++ .call i :: sends, held, none⟩ := by
    rw [hworker]
    simp [turnTasks, sends, params]
  obtain ⟨n, hreceive⟩ := steps_receiveAll view messages _ hparams hcell hworker' hwires
  cases hrefresh : Partition.refresh cell.partition.name cell.partition.feeds inbox
      cell.partition.params with
  | mk result new =>
      cases result with
      | error stop =>
          refine ⟨n, ?_⟩
          rw [← turn_of_refresh_error hrefresh]
          exact hreceive
      | ok _ =>
          let worker : Worker := ⟨.call i :: sends, held, none⟩
          let received : Effect ρ := ⟨i, cell.withParams new, worker, closing i params⟩
          have hreceived : receiveAll i params (.call i :: sends) held cell inbox = received := by
            simp only [receiveAll, hrefresh, received, worker]
          rw [hreceived] at hreceive
          have hcell₁ := getElem?_cells_apply (g := g) received hcell
          have hworker₁ := getElem?_workers_apply received hworker'
          let called := call view i sends worker (cell.withParams new)
          have hcallMove : Move view (crew.apply g received)
              ((crew.apply g received).apply g called) := by
            refine ⟨g, worker, called, hworker₁, ?_, rfl⟩
            simp only [effect?, worker]
            rw [hcell₁]
            rfl
          cases hcall : (Partition.callRule view (cell.withParams new).partition).result with
          | error stop =>
              refine ⟨n + 1, hreceive.trans (.single ?_)⟩
              rw [← turn_of_call_error worker hrefresh hcall rfl,
                ← apply_andThen (by simp only [call, hcall])]
              exact hcallMove
          | ok state =>
              have hindex : called.index = i := by simp only [called, call, hcall]
              have hworker₁' : called.worker = ⟨sends, state, none⟩ := by
                simp only [called, call, hcall, worker]
              have hwires₁ : called.wires = Effect.noWire := by simp only [called, call, hcall]
              have hcell₂ : ((crew.apply g received).apply g called).cells[i]? =
                  some called.cell := by
                rw [← hindex]
                exact getElem?_cells_apply called (by rw [hindex]; exact hcell₁)
              have hworker₂ : ((crew.apply g received).apply g called).workers[g]? = some
                  ⟨wires.map (fun wire => Task.send i wire.1 wire.2) ++ .store i :: rest, state,
                    none⟩ := by
                rw [getElem?_workers_apply called hworker₁, hworker₁']
                simp [sends]
              have hroom₂ : ∀ wire ∈ wires, (((crew.apply g received).apply g called).wires
                  wire.1 wire.2).isFull = false := by
                intro wire hwire
                have hbefore := hroom wire hwire
                simp only [apply, received, hwires₁, closing, Effect.noWire]
                split <;> simp_all [Wire.isFull]
              obtain ⟨m, hsend⟩ := steps_sendAll_store view hnodup hcell₂ hworker₂ hroom₂
              let last : Effect ρ := Effect.andThen
                ⟨i, called.cell, ⟨.store i :: rest, state, none⟩, sending wires state⟩
                (store i rest ⟨.store i :: rest, state, none⟩ called.cell)
              have hwhole : received.andThen (called.andThen last) =
                  turn view i cell wires rest held inbox :=
                turn_of_call_ok worker sends hrefresh hcall
              refine ⟨n + (1 + m), ?_⟩
              rw [← hwhole, ← apply_andThen (e := received) (f := called.andThen last) rfl,
                ← apply_andThen (e := called) (f := last) hindex]
              exact hreceive.trans ((Steps.single hcallMove).trans hsend)

end Tandem.Crew
