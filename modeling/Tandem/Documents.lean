import Tandem.Plan.Document
import Tandem.Window
import Tandem.Timeline
import Tandem.Random.Xorshift

/-!
# Small documents

Params, windows, timelines and random streams as compact documents. What is read has to have an
acceptable shape: a window as many values as rows of its width, a timeline a current time.
-/

namespace Tandem

open Json

namespace Params

def toText (params : Params) : String := params.toDoc.compact

/-- Read params; nobody owns them yet. -/
def ofText? (text : String) : Option Params := Doc.parse? text >>= ofDoc?

end Params

namespace Window

def toDoc (window : Window) : Doc :=
  .ofRecord [
    ("values", .ofList .ofFloat window.values),
    ("width", .ofNat window.width),
    ("depth", .ofNat window.depth)]

/-- The values, the width and the depth that a document tells of a window, whatever its shape. -/
def parts? (doc : Doc) : Option (List Float × Nat × Nat) := do
  match ← doc.record? [⟨"values", true⟩, ⟨"width", true⟩, ⟨"depth", true⟩] with
  | [values, width, depth] =>
      let values ← Doc.field (Doc.list? Doc.float?) values
      let width ← Doc.field Doc.word? width
      let depth ← Doc.field Doc.word? depth
      pure (values, width, depth)
  | _ => none

def ofDoc? (doc : Doc) : Option Window := do
  let (values, width, depth) ← parts? doc
  (Window.ofParts values width depth).toOption

def toText (window : Window) : String := window.toDoc.compact

def ofText? (text : String) : Option Window := Doc.parse? text >>= ofDoc?

end Window

namespace Timeline

def toDoc (timeline : Timeline) : Doc :=
  .ofRecord [
    ("next_increment", .ofFloat timeline.increment),
    ("values", .ofList .ofFloat timeline.times),
    ("current_step_number", .ofNat timeline.step)]

def ofDoc? (doc : Doc) : Option Timeline := do
  match ← doc.record?
      [⟨"next_increment", true⟩, ⟨"values", true⟩, ⟨"current_step_number", true⟩] with
  | [increment, times, step] =>
      let increment ← Doc.field Doc.float? increment
      let times ← Doc.field (Doc.list? Doc.float?) times
      let step ← Doc.field Doc.word? step
      (Timeline.ofTimes times increment step).toOption
  | _ => none

def toText (timeline : Timeline) : String := timeline.toDoc.compact

def ofText? (text : String) : Option Timeline := Doc.parse? text >>= ofDoc?

end Timeline

namespace RandomStream

def toDoc (stream : RandomStream) : Doc := .ofRecord [("state", .ofNat stream.word.toNat)]

/-- Read a random stream. Its word is taken as it is. -/
def ofDoc? (doc : Doc) : Option RandomStream := do
  match ← doc.record? [⟨"state", true⟩] with
  | [word] =>
      let word ← Doc.field Doc.word? word
      pure ⟨.ofNat word⟩
  | _ => none

def toText (stream : RandomStream) : String := stream.toDoc.compact

def ofText? (text : String) : Option RandomStream := Doc.parse? text >>= ofDoc?

end RandomStream

end Tandem
