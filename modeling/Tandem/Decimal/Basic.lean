/-!
# Decimal numbers

A decimal number is a sign, a natural significand and a power of ten. Doubles are written as decimals and
read from them.
-/

namespace Tandem

/-- The number `(-1) ^ negative * significand * 10 ^ exponent`; zero keeps its sign. -/
structure Decimal where
  negative : Bool
  significand : Nat
  exponent : Int
  deriving DecidableEq, Repr

namespace Decimal

def digitValue (c : Char) : Nat := c.toNat - '0'.toNat

def digitsValue (ds : List Char) : Nat := ds.foldl (fun n c => 10 * n + digitValue c) 0

def zero (negative : Bool) : Decimal := ⟨negative, 0, 0⟩

def withSign (negative : Bool) (x : Float) : Float := if negative then -x else x

end Decimal

end Tandem
