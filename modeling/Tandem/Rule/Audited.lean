import Tandem.Rule.Basic

/-!
# Audited rules

An audited rule passes its calls on to the rule inside it and checks what comes of them: the state has
the right width and is finite throughout, the partition's window has the configured shape, and its past
rows are the states that the rule returned before.
-/

namespace Tandem

/-- A rule under audit, the name of its partition, and the window it should find. -/
structure Audited (ρ : Type) where
  rule : ρ
  name : String
  expected : Option Window

namespace Audited

variable {ρ : Type}

def new (rule : ρ) : Audited ρ := ⟨rule, "", none⟩

def configure [UpdateRule ρ] (index : Nat) (plan : Plan) (audited : Audited ρ) :
    Outcome Unit × Audited ρ :=
  match plan.partition index with
  | .error fault => (.error (.fault fault), audited)
  | .ok p =>
      let audited := { audited with name := p.name }
      match Window.new p.width p.depth p.initial with
      | .error stop => (.error stop, audited)
      | .ok window =>
          let (result, rule) := UpdateRule.configure index plan audited.rule
          (result, { audited with expected := some window, rule })

/-- Compare two windows row by row, from row `count` down to row 1. -/
def checkRows (name : String) (time : Float) (own expected : Window) : Nat → Outcome Unit
  | 0 => .ok ()
  | count + 1 => do
      let found ← own.row (count + 1)
      let wanted ← expected.row (count + 1)
      if found == wanted then checkRows name time own expected count
      else throw (.fault (.rowNotKept name time (count + 1) found wanted))

def shapeText (window : Window) : String := s!"{window.depth}x{window.width}"

/-- Check a state against the window of its partition, and that window against the expected one. Row 0
is left out: an enclosing simulation may have replaced the initial state. -/
def check (state : State) (own : Window) (time : Float) (audited : Audited ρ) : Outcome Unit :=
  match audited.expected with
  | none => .error (.fault (.invalid (.auditNotConfigured audited.name)))
  | some expected =>
      if state.any fun x => !x.isFinite then .error (.fault (.nonFinite audited.name time state))
      else if state.length ≠ own.width then
        .error (.fault (.wrongWidth audited.name time state.length own.width))
      else if own.width ≠ expected.width ∨ own.depth ≠ expected.depth then
        .error (.fault (.windowShape audited.name time
          (shapeText own ++ " should be: " ++ shapeText expected)))
      else checkRows audited.name time own expected (own.depth - 1)

/-- Record a state that passed as the one to find in row 1 next time. -/
def record (state : State) (audited : Audited ρ) : Outcome (Audited ρ) :=
  match audited.expected with
  | none => .ok audited
  | some expected => do
      let expected ← expected.push state
      pure { audited with expected := some expected }

def accept (index : Nat) (view : View) (state : State) (audited : Audited ρ) :
    Outcome (Audited ρ) := do
  let own ← view.window index
  audited.check state own view.timeline.next
  audited.record state

def advance [UpdateRule ρ] (params : Params) (index : Nat) (view : View) (audited : Audited ρ) :
    Reply Emission (Audited ρ) State :=
  let reply := UpdateRule.advance params index view audited.rule
  let audited := { audited with rule := reply.next }
  match reply.result with
  | .error stop => ⟨.error stop, audited, reply.emitted⟩
  | .ok state =>
      match audited.accept index view state with
      | .error stop => ⟨.error stop, audited, reply.emitted⟩
      | .ok audited => ⟨.ok state, audited, reply.emitted⟩

instance [UpdateRule ρ] : UpdateRule (Audited ρ) where
  configure := configure
  advance := advance
  replay? audited := UpdateRule.replay? audited.rule
  store window audited := { audited with rule := UpdateRule.store window audited.rule }

end Audited

end Tandem
