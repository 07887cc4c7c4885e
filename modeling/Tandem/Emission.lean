import Tandem.Archive
import Tandem.Table

/-!
# Emissions

An emission is a record on its way into an archive. Whoever computes only says what is emitted, in
order; `Archives.collect` carries it out.
-/

namespace Tandem

/-- A record on its way into the archive of a name. -/
structure Emission where
  archive : String
  record : Record
  deriving DecidableEq

abbrev Archives := Table String Archive

namespace Archives

/-- See to it that there is an archive called `name`. -/
def provide (name : String) (archives : Archives) : Archives :=
  if archives.contains name then archives else archives.insert name .empty

def accept (archives : Archives) (emission : Emission) : Archives :=
  archives.insert emission.archive
    (((archives.get? emission.archive).getD .empty).append emission.record)

def collect (emissions : List Emission) (archives : Archives) : Archives :=
  emissions.foldl accept archives

end Archives

end Tandem
