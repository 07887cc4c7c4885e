import Tandem.Simulation.Compute

/-!
# The compute phase as workers that run side by side

`Simulation.computeAll` visits partitions one after the other. Here the same phase is a crew: one worker
for each group, which works off a list of tasks, and one wire for each feed, which carries a single
state from the source to one param of its reader. Any worker that can make its next move may make it,
so a run of the phase is any interleaving of their moves.

For each member of its group a worker receives one state for every fed param, in the order of the
params, calls the rule, sends the new state to every reader and then stores it as pending. A worker
whose task fails halts: its other tasks are dropped, and so is its end of every wire they would have
used.
-/

namespace Tandem

/-- The wire of one feed. It holds one state at most, and one is all that is ever sent. -/
inductive Wire where
  | empty
  | full (state : State)
  /-- The sender is gone and has sent nothing. -/
  | cut
  /-- The reader is gone, or it has what was sent. -/
  | closed

inductive WireUse where
  | keep
  | send (state : State)
  | hangUp
  | close

def WireUse.andThen : WireUse → WireUse → WireUse
  | .close, _ => .close
  | _, .close => .close
  | .keep, use => use
  | use, _ => use

namespace Wire

/-- A wire after it was used. A reader that is gone loses what is sent; a sender that hangs up leaves
what it has sent. -/
def used : WireUse → Wire → Wire
  | .keep, wire => wire
  | .close, _ => closed
  | .send state, empty => full state
  | .hangUp, empty => cut
  | _, wire => wire

def message? : Wire → Option (Option State)
  | full state => some (some state)
  | cut => some none
  | _ => none

def isFull : Wire → Bool
  | full _ => true
  | _ => false

end Wire

inductive Task where
  | receive (index : Nat) (param : String)
  | call (index : Nat)
  | send (index reader : Nat) (param : String)
  | store (index : Nat)
  deriving DecidableEq

namespace Task

def index : Task → Nat
  | receive index _ => index
  | call index => index
  | send index _ _ => index
  | store index => index

def sendsTo (reader : Nat) (param : String) : Task → Bool
  | send _ r p => r = reader ∧ p = param
  | _ => false

end Task

/-- A worker: what it has left to do, the state it has computed last, and what halted it. -/
structure Worker where
  todo : List Task
  held : State
  failure : Option Stop

def Worker.halt (stop : Stop) (worker : Worker) : Worker :=
  { worker with todo := [], failure := some stop }

structure Crew (ρ : Type) where
  cells : List (Cell ρ)
  wires : Nat → String → Wire
  workers : List Worker

structure Effect (ρ : Type) where
  index : Nat
  cell : Cell ρ
  worker : Worker
  wires : Nat → String → WireUse

def Cell.withParams {ρ : Type} (params : Params) (cell : Cell ρ) : Cell ρ :=
  { cell with partition := { cell.partition with params := params } }

def Cell.withPending {ρ : Type} (pending : Option State) (cell : Cell ρ) : Cell ρ :=
  { cell with partition := { cell.partition with pending := pending } }

namespace Effect

def andThen {ρ : Type} (first second : Effect ρ) : Effect ρ :=
  { second with wires := fun r p => (first.wires r p).andThen (second.wires r p) }

def noWire : Nat → String → WireUse := fun _ _ => .keep

def oneWire (reader : Nat) (param : String) (use : WireUse) : Nat → String → WireUse :=
  fun r p => if r = reader ∧ p = param then use else .keep

def drop (todo : List Task) : Nat → String → WireUse :=
  fun r p =>
    if .receive r p ∈ todo then .close
    else if todo.any (Task.sendsTo r p) then .hangUp else .keep

end Effect

namespace Crew

variable {ρ : Type}

/-! ## Before the first move -/

def readers (cells : List (Cell ρ)) (source : Nat) : List (Nat × String) :=
  (cells.mapIdx fun reader cell =>
    (cell.partition.feeds.entries.filter fun entry => entry.2.source = source).map fun entry =>
      (reader, entry.1)).flatten

def turnTasks (index : Nat) (params : List String) (wires : List (Nat × String)) : List Task :=
  params.map (Task.receive index) ++
    .call index :: (wires.map (fun wire => Task.send index wire.1 wire.2) ++ [.store index])

def tasks (cells : List (Cell ρ)) (index : Nat) : List Task :=
  match cells[index]? with
  | none => []
  | some cell => turnTasks index cell.partition.feeds.keys (readers cells index)

def start (cells : List (Cell ρ)) (ranges : List Range) : Crew ρ where
  cells := cells
  wires := fun _ _ => .empty
  workers := ranges.map fun range => ⟨range.indices.flatMap (tasks cells), [], none⟩

/-! ## Moves -/

def receive (index : Nat) (param : String) (todo : List Task) (worker : Worker) (cell : Cell ρ)
    (message : Option State) : Effect ρ :=
  let p := cell.partition
  match Partition.refresh p.name p.feeds [(param, message)] p.params with
  | (.ok (), params) =>
      ⟨index, cell.withParams params, { worker with todo := todo },
        Effect.oneWire index param .close⟩
  | (.error stop, params) =>
      ⟨index, cell.withParams params, worker.halt stop,
        Effect.drop (.receive index param :: todo)⟩

def call [UpdateRule ρ] (view : View) (index : Nat) (todo : List Task) (worker : Worker)
    (cell : Cell ρ) : Effect ρ :=
  let reply := Partition.callRule view cell.partition
  let called := { cell with partition := reply.next }.withPending cell.partition.pending
  match reply.result with
  | .ok state => ⟨index, called, { worker with todo := todo, held := state }, Effect.noWire⟩
  | .error stop => ⟨index, called, worker.halt stop, Effect.drop todo⟩

def store (index : Nat) (todo : List Task) (worker : Worker) (cell : Cell ρ) : Effect ρ :=
  ⟨index, cell.withPending (some worker.held), { worker with todo := todo }, Effect.noWire⟩

def effect? [UpdateRule ρ] (view : View) (crew : Crew ρ) (worker : Worker) : Option (Effect ρ) :=
  match worker.todo with
  | [] => none
  | .receive index param :: todo =>
      crew.cells[index]?.bind fun cell =>
        (crew.wires index param).message?.map (receive index param todo worker cell)
  | .call index :: todo => crew.cells[index]?.map (call view index todo worker)
  | .send index reader param :: todo =>
      if (crew.wires reader param).isFull then none
      else crew.cells[index]?.map fun cell =>
        ⟨index, cell, { worker with todo := todo },
          Effect.oneWire reader param (.send worker.held)⟩
  | .store index :: todo => crew.cells[index]?.map (store index todo worker)

def apply (crew : Crew ρ) (g : Nat) (effect : Effect ρ) : Crew ρ where
  cells := crew.cells.set effect.index effect.cell
  wires := fun r p => (crew.wires r p).used (effect.wires r p)
  workers := crew.workers.set g effect.worker

def Move [UpdateRule ρ] (view : View) (crew next : Crew ρ) : Prop :=
  ∃ g worker effect, crew.workers[g]? = some worker ∧ crew.effect? view worker = some effect ∧
    next = crew.apply g effect

/-! ## After the last move -/

def IsDone (crew : Crew ρ) : Prop := ∀ worker ∈ crew.workers, worker.todo = []

def failures (crew : Crew ρ) : List (Option Stop) := crew.workers.map (·.failure)

/-- What is reported once all workers have ended: of their failures, in group order, the first that is
no mere consequence, else the first. -/
def verdict (crew : Crew ρ) (ranges : List Range) : Outcome Unit :=
  match firstFault (groupFaults (crew.cells.map (·.partition.name)) ranges crew.failures) with
  | some fault => .error (.fault fault)
  | none => .ok ()

end Crew

end Tandem
