import Tandem.Json.Text
import Tandem.Table

/-!
# Values from documents

Readers of single values, lists, tables and records, and the documents written for them. A record is an
object with known members, in any order and among unknown ones, or a list of its fields in their order.
-/

namespace Tandem.Json.Doc

/-! ## Writing -/

def ofNat (n : Nat) : Doc := .num (.ofNat n)

/-- A double; one that is no finite number has no numeral. -/
def ofFloat (x : Float) : Doc := if x.isFinite then .num (.ofFloat x) else .null

def ofString (s : String) : Doc := .str (some s)

def ofList {α : Type} (f : α → Doc) (values : List α) : Doc := .arr (values.map f)

def ofTable {α : Type} (f : α → Doc) (table : Table String α) : Doc :=
  .obj (table.entries.map fun entry => (some entry.1, f entry.2))

def ofRecord (fields : List (String × Doc)) : Doc :=
  .obj (fields.map fun field => (some field.1, field.2))

/-! ## Reading -/

def word? : Doc → Option Nat
  | .num numeral => numeral.toWord?
  | _ => none

def float? : Doc → Option Float
  | .num numeral => numeral.toFloat?
  | _ => none

def string? : Doc → Option String
  | .str text => text
  | _ => none

def list? {α : Type} (f : Doc → Option α) : Doc → Option (List α)
  | .arr items => items.mapM f
  | _ => none

/-- A table; the last of equal keys wins. -/
def table? {α : Type} (f : Doc → Option α) : Doc → Option (Table String α)
  | .obj members => do
      let entries ← members.mapM fun (name, value) => do
        let name ← name
        let value ← f value
        pure (name, value)
      pure (.ofList entries)
  | _ => none

structure Field where
  name : String
  required : Bool

def valuesOf (members : List (String × Doc)) (name : String) : List Doc :=
  (members.filter fun member => member.1 = name).map (·.2)

/-- The value of a field among the members of an object: a field stands there once, or not at all if it
is not required. -/
def fieldValue (members : List (String × Doc)) (field : Field) : Option (Option Doc) :=
  match valuesOf members field.name with
  | [] => if field.required then none else some none
  | [value] => some (some value)
  | _ => none

/-- The values of the fields in a list: all of them in order, except that some at the end may be left
out when they are not required. -/
def positional : List Field → List Doc → Option (List (Option Doc))
  | [], [] => some []
  | [], _ :: _ => none
  | _ :: fields, value :: values => (positional fields values).map (some value :: ·)
  | field :: fields, [] => if field.required then none else (positional fields []).map (none :: ·)

def record? (fields : List Field) : Doc → Option (List (Option Doc))
  | .obj members => do
      let members ← members.mapM fun (name, value) => name.map fun name => (name, value)
      fields.mapM (fieldValue members)
  | .arr items => positional fields items
  | _ => none

def fieldOr {α : Type} (f : Doc → Option α) (otherwise : α) : Option Doc → Option α
  | some doc => f doc
  | none => some otherwise

def field {α : Type} (f : Doc → Option α) (value : Option Doc) : Option α := value >>= f

end Tandem.Json.Doc
