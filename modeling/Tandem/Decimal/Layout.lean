import Tandem.Decimal.Numeral
import Tandem.Decimal.Shortest

/-!
# Written forms of numbers

A layout says when a decimal is written with an exponent and how its parts are spelled: `Layout.numeral`
chooses the digits before and after the point, `Layout.text` spells them. Three layouts are in use:
numbers inside sentences, numbers in bracketed lists, and numbers of documents.
-/

namespace Tandem.Decimal

structure Layout where
  tie : Tie
  /-- The powers of ten, of the leading digit, that are written without an exponent. -/
  positional : Int → Bool
  pointZero : Bool
  plusSign : Bool

namespace Layout

/-- Inside a sentence: never an exponent, whole numbers bare. -/
def sentence : Layout := ⟨.away, fun _ => true, false, false⟩

/-- In a bracketed list: positional from `1e-4` up to below `1e16`. -/
def bracketed : Layout := ⟨.away, fun e => decide (-4 ≤ e ∧ e < 16), true, false⟩

/-- In a document: positional from `1e-5` up to below `1e16`. -/
def document : Layout := ⟨.toEven, fun e => decide (-5 ≤ e ∧ e < 16), true, true⟩

def positionalNumeral (layout : Layout) (negative : Bool) (ds : List Char) (exponent : Int) : Numeral :=
  if 0 ≤ exponent then
    ⟨negative, ds ++ List.replicate exponent.toNat '0', if layout.pointZero then ['0'] else [], none⟩
  else
    let places := exponent.natAbs
    if ds.length ≤ places then
      ⟨negative, ['0'], List.replicate (places - ds.length) '0' ++ ds, none⟩
    else ⟨negative, ds.take (ds.length - places), ds.drop (ds.length - places), none⟩

/-- The numeral of a decimal. An exponent is that of the first digit, which stands alone before the
point. -/
def numeral (layout : Layout) (d : Decimal) : Numeral :=
  let ds := Nat.toDigits 10 d.significand
  let leading := d.exponent + ds.length - 1
  if d.significand = 0 then layout.positionalNumeral d.negative ds 0
  else if layout.positional leading then layout.positionalNumeral d.negative ds d.exponent
  else ⟨d.negative, ds.take 1, ds.drop 1, some leading⟩

def exponentText (layout : Layout) (exponent : Int) : String :=
  let sign := if exponent < 0 then "-" else if layout.plusSign then "+" else ""
  "e" ++ sign ++ Nat.repr exponent.natAbs

def text (layout : Layout) (n : Numeral) : String :=
  (if n.negative then "-" else "") ++ String.ofList n.whole ++
    (if n.fraction.isEmpty then "" else "." ++ String.ofList n.fraction) ++
    (n.exponent.map layout.exponentText).getD ""

def write (layout : Layout) (d : Decimal) : String := layout.text (layout.numeral d)

/-- Write a double: the shortest decimal that reads back, or the name of a value that is no number. -/
def float (layout : Layout) (x : Float) : String :=
  if x.isNaN then "NaN"
  else if x.isInf then if x < 0 then "-inf" else "inf"
  else layout.write (shortest layout.tie x)

end Layout

end Tandem.Decimal
