import Tandem.Decimal.Layout

/-!
# Numbers of documents

The grammar of numbers in documents, and the numeral that is written for a double. A numeral keeps all
its digits, because they decide which double is read from it.
-/

namespace Tandem.Numeral

def ofFloat (x : Float) : Numeral :=
  let layout := Decimal.Layout.document
  layout.numeral (Decimal.shortest layout.tie x)

def isNumberChar (c : Char) : Bool :=
  c.isDigit || c == '-' || c == '+' || c == '.' || c == 'e' || c == 'E'

/-- Split off the leading digits; there must be one. -/
def splitDigits (cs : List Char) : Option (List Char × List Char) :=
  match cs.takeWhile Char.isDigit with
  | [] => none
  | ds => some (ds, cs.dropWhile Char.isDigit)

def splitFraction : List Char → Option (List Char × List Char)
  | '.' :: cs => splitDigits cs
  | cs => some ([], cs)

def exponentValue (negative : Bool) (cs : List Char) : Option (Int × List Char) := do
  let (ds, rest) ← splitDigits cs
  let n : Int := Decimal.digitsValue ds
  pure (if negative then -n else n, rest)

/-- The exponent: nothing, or a mark, perhaps a sign, and digits. -/
def splitExponent : List Char → Option (Option Int × List Char)
  | c :: cs =>
      if c = 'e' ∨ c = 'E' then
        (match cs with
        | '-' :: cs => exponentValue true cs
        | '+' :: cs => exponentValue false cs
        | cs => exponentValue false cs).map fun (n, rest) => (some n, rest)
      else some (none, c :: cs)
  | [] => some (none, [])

def splitSign : List Char → Bool × List Char
  | '-' :: cs => (true, cs)
  | cs => (false, cs)

def hasLeadingZero : List Char → Bool
  | '0' :: _ :: _ => true
  | _ => false

def ofChars? (cs : List Char) : Option Numeral := do
  let (negative, cs) := splitSign cs
  let (whole, cs) ← splitDigits cs
  if hasLeadingZero whole then none
  else
    let (fraction, cs) ← splitFraction cs
    let (exponent, cs) ← splitExponent cs
    if cs ≠ [] then none else pure ⟨negative, whole, fraction, exponent⟩

end Tandem.Numeral
