import Tandem.Fault
import Tandem.Word

/-!
# Windows of past states

A window keeps the last `depth` states of a partition, all of one width, the current state first. The
states lie row after row in one list, and recording a state moves that list on by one row. `Window.rows`
is the same content as a list of states.

Offsets into the list are machine words. For a window as `Window.ofRows` builds it they never wrap; a new
window, or one read from a document, may have a shape whose size wraps, and then its rows can lie outside
its list.
-/

namespace Tandem

/-- The last `depth` states of width `width`, row 0 being the current one. -/
structure Window where
  values : List Float
  width : Nat
  depth : Nat
  deriving DecidableEq

namespace Window

/-- Equal shape and equal numbers; a value that is no number makes a window unequal to itself. -/
instance : BEq Window :=
  ⟨fun a b => a.values == b.values && a.width == b.width && a.depth == b.depth⟩

def rows (window : Window) : List State :=
  (List.range window.depth).map fun i => (window.values.drop (i * window.width)).take window.width

/-- A window whose current state is `initial` and whose older states are zero. -/
def new (width depth : Nat) (initial : State) : Outcome Window :=
  if depth = 0 then .error (.fault (.invalid .zeroWindowDepth))
  else if initial.length ≠ width then
    .error (.fault (.invalid (.initialWidth initial.length width)))
  else
    let size := Word.wrap (width * depth)
    if Word.room ≤ size then .error (.crash .tooLarge)
    else if size < width then .error (.crash .outOfBounds)
    else .ok ⟨initial ++ List.replicate (size - width) 0, width, depth⟩

def findRagged (width : Nat) : Nat → List State → Option (Nat × Nat)
  | _, [] => none
  | start, row :: rest =>
      if row.length ≠ width then some (start, row.length) else findRagged width (start + 1) rest

def ofRows : List State → Except Fault Window
  | [] => .error (.invalid .noRows)
  | row :: rest =>
      match findRagged row.length 0 (row :: rest) with
      | some (index, found) => .error (.invalid (.rowWidth index found row.length))
      | none => .ok ⟨(row :: rest).flatten, row.length, rest.length + 1⟩

/-- A window with the given parts, if their shape is accepted: some depth, and as many values as the
word `width * depth`. -/
def ofParts (values : List Float) (width depth : Nat) : Except Fault Window :=
  if depth = 0 ∨ values.length ≠ Word.wrap (width * depth) then
    .error (.invalid (.windowParts values.length depth width))
  else .ok ⟨values, width, depth⟩

def row (window : Window) (index : Nat) : Except Crash State :=
  if window.depth ≤ index then .error (.rowOutOfRange index window.depth)
  else
    let start := Word.wrap (index * window.width)
    let stop := Word.wrap (start + window.width)
    if start ≤ stop ∧ stop ≤ window.values.length then
      .ok ((window.values.drop start).take (stop - start))
    else .error .outOfBounds

def latest (window : Window) : Except Crash State := window.row 0

def rowsFrom (window : Window) (index : Nat) : Nat → Except Crash (List State)
  | 0 => .ok []
  | count + 1 => do
      let state ← window.row index
      let older ← rowsFrom window (index + 1) count
      pure (state :: older)

def readRows (window : Window) : Except Crash (List State) := window.rowsFrom 0 window.depth

def valueAt (window : Window) (index column : Nat) : Except Crash Float := do
  let state ← window.row index
  match state[column]? with
  | some value => pure value
  | none => throw .outOfBounds

/-- Make `state` the current state; every other state is one step older, and the oldest is gone. -/
def push (window : Window) (state : State) : Outcome Window :=
  if state.length ≠ window.width then
    .error (.fault (.invalid (.insertedWidth state.length window.width)))
  else
    let kept := Word.wrap (window.width * (window.depth - 1))
    if window.width + kept ≤ window.values.length then
      .ok { window with
        values := state ++ window.values.take kept ++ window.values.drop (window.width + kept) }
    else .error (.crash .outOfBounds)

end Window

end Tandem
