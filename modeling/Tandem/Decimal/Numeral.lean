import Tandem.Decimal.Basic
import Tandem.Word

/-!
# Written numbers and the doubles read from them

A numeral is a number as it is written: its digits before and after the point and its exponent, if one is
written. A double is read from it in double arithmetic: the leading digits that make up a machine word
become a double, and a power of ten scales it. Each of these steps rounds, so the result can lie beside
the nearest double. It is the nearest one where the significand and the power of ten are doubles
themselves, as they are for a significand below `2 ^ 53` and an exponent up to 22 of either sign.
-/

namespace Tandem

namespace Decimal

def powerOfTen (n : Nat) : Float := Float.ofScientific 1 false n

/-- `x / 10 ^ n`. Above `10 ^ 308` no power of ten is a double, so a greater one is divided out in two
parts; what two parts of that size leave of a machine word is zero. -/
def divideByTens (x : Float) (n : Nat) : Float :=
  if n ≤ 308 then x / powerOfTen n
  else x / powerOfTen 308 / powerOfTen (min (n - 308) 308)

def multiplyByTens? (x : Float) (n : Nat) : Option Float :=
  if n ≤ 308 ∧ (x * powerOfTen n).isFinite then some (x * powerOfTen n) else none

/-- The double nearest to the significand, scaled by the power of ten in double arithmetic, unless that
leaves the finite doubles. -/
def scaled? (d : Decimal) : Option Float :=
  if d.significand = 0 then some (withSign d.negative 0)
  else
    let x := Float.ofNat d.significand
    (if 0 ≤ d.exponent then multiplyByTens? x d.exponent.toNat
      else some (divideByTens x d.exponent.natAbs)).map (withSign d.negative)

end Decimal

/-- A written number: its sign, its digits before and after the point, and its exponent. There is no point
without digits after it. -/
structure Numeral where
  negative : Bool
  whole : List Char
  fraction : List Char
  exponent : Option Int
  deriving DecidableEq, Repr

namespace Numeral

def isIntegral (n : Numeral) : Bool := n.fraction.isEmpty && n.exponent.isNone

def ofNat (n : Nat) : Numeral := ⟨false, Nat.toDigits 10 n, [], none⟩

/-- The machine word an integral numeral without a sign stands for. -/
def toWord? (n : Numeral) : Option Nat :=
  let value := Decimal.digitsValue n.whole
  if n.isIntegral ∧ ¬n.negative ∧ value < Word.count then some value else none

/-- Append digits to the word `n` as long as it stays a word; the word and the digits that are left. -/
def absorb : Nat → List Char → Nat × List Char
  | n, [] => (n, [])
  | n, c :: cs =>
      let next := 10 * n + Decimal.digitValue c
      if next < Word.count then absorb next cs else (n, c :: cs)

/--
The decimal that a double is read from. The whole digits and then those of the fraction are absorbed into
one machine word. A whole digit that is left over counts as a zero, one of the fraction not at all.
-/
def leading (n : Numeral) : Decimal :=
  let (head, wholeLeft) := absorb 0 n.whole
  let (significand, fractionLeft) := absorb head n.fraction
  let places : Int := n.fraction.length - fractionLeft.length
  ⟨n.negative, significand, n.exponent.getD 0 + wholeLeft.length - places⟩

def toFloat? (n : Numeral) : Option Float := n.leading.scaled?

end Numeral

end Tandem
