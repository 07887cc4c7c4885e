import Tandem.Decimal.Basic

/-!
# The fewest digits that read back

Every finite double is the nearest one to an interval of reals; here a decimal reads back as the double
that is nearest to it. The shortest decimal of a double is the point of the coarsest decimal grid that
meets that interval; of two such points it is the nearer one.
All comparisons are between natural numbers, so nothing is rounded on the way.
-/

namespace Tandem.Decimal

def leastNormal : Nat := 1 <<< 52

/-- The magnitude of a finite double as `mantissa * 2 ^ exponent`. -/
structure Binary where
  mantissa : Nat
  exponent : Int
  deriving DecidableEq, Repr

def Binary.ofFloat (x : Float) : Binary :=
  let bits : Nat := x.toBits.toNat % 1 <<< 63
  let fraction : Nat := bits % leastNormal
  let biased : Nat := bits / leastNormal
  if biased = 0 then ⟨fraction, -1074⟩ else ⟨fraction + leastNormal, (biased : Int) - 1075⟩

def signBit (x : Float) : Bool := x.toBits.toNat ≥ 1 <<< 63

/-- What becomes of a double half way between two equally short decimals. -/
inductive Tie where
  | toEven
  | away
  deriving DecidableEq, Repr

def twoPart (e : Int) : Nat := 1 <<< e.toNat

def tenPart (e : Int) : Nat := Nat.pow 10 e.toNat

/-- The multiple of `10 ^ k` that reads back as a given double, the nearer one of two. With everything
multiplied by a common denominator, the interval reaches half a unit of the mantissa to both sides, or a
quarter below where the spacing of doubles changes. -/
def hit? (tie : Tie) (b : Binary) (k : Int) : Option Nat :=
  let scale := twoPart b.exponent * tenPart (-k)
  let unit := 4 * (twoPart (-b.exponent) * tenPart k)
  let value := 4 * b.mantissa * scale
  let low := (4 * b.mantissa - if b.mantissa = leastNormal ∧ b.exponent > -1074 then 1 else 2) * scale
  let high := (4 * b.mantissa + 2) * scale
  let inside := fun n : Nat =>
    if b.mantissa % 2 = 0 then low ≤ n * unit ∧ n * unit ≤ high
    else low < n * unit ∧ n * unit < high
  let below := value / unit
  let above := below + 1
  if inside below then
    if inside above then
      let down := value - below * unit
      let up := above * unit - value
      if down < up then some below
      else if up < down then some above
      else
        match tie with
        | .toEven => some (if below % 2 = 0 then below else above)
        | .away => some above
    else some below
  else if inside above then some above
  else none

/-- Search the grids `10 ^ k`, `10 ^ (k - 1)`, … for the first that has a hit. -/
def search (tie : Tie) (b : Binary) : Nat → Int → Nat × Int
  | 0, k => (0, k)
  | fuel + 1, k =>
      match hit? tie b k with
      | some n => (n, k)
      | none => search tie b fuel (k - 1)

/-- A grid too coarse for `b`: its unit lies above the value. -/
def coarsest (b : Binary) : Int :=
  ((b.mantissa.log2 : Int) + b.exponent + 1) * 30103 / 100000 + 2

/-- The shortest decimal that reads back as the finite double `x`. Seventeen digits always do, so the
search ends well within its bound. -/
def shortest (tie : Tie) (x : Float) : Decimal :=
  let b := Binary.ofFloat x
  if b.mantissa = 0 then zero (signBit x)
  else
    let (significand, exponent) := search tie b 24 (coarsest b)
    ⟨signBit x, significand, exponent⟩

end Tandem.Decimal
