import PhpScript.Number.Double

/-!
# Shortest decimals

The shortest decimal that reads back as a given floating-point number. The
reals that round to the number form an interval, whose ends belong to it when
the significand is even. On the grid of decimals with one digit, with two, and
so on, the two neighbours of the number are tried; the first grid on which one
of them lies in the interval gives the digits. If both do, the nearer one
wins, and `Tie` says which wins at equal distance.
-/

namespace PhpScript

/-- Which of two equally near decimals is taken. -/
inductive Tie
  | up
  | toEven
deriving DecidableEq, Repr

/-- The number `digits * 10^exponent`. -/
structure Decimal where
  digits : Nat
  exponent : Int
deriving DecidableEq, Repr

namespace Double

/-- A positive number with the interval of the reals that round to it, as
    numerators over `2^1076`. -/
structure Interval where
  low : Nat
  value : Nat
  high : Nat
  /-- Whether the two ends round to the number as well. -/
  closed : Bool
deriving Repr

/-- The denominator of an `Interval`: a quarter of a unit. -/
def Interval.den : Nat := twoTo (unitScale + 2)

/-- The interval of a finite number that is not zero. The gap to the number
    below is half as wide just above a power of two. -/
def interval (x : Double) : Interval :=
  let gap := twoTo x.scale
  let value := 4 * x.units
  let below := if x.significand = twoTo 52 ∧ 0 < x.scale then gap else 2 * gap
  ⟨value - below, value, value + 2 * gap, x.significand % 2 == 0⟩

/-- Whether the real `num / den` lies in the interval. -/
def Interval.contains (i : Interval) (num den : Nat) : Bool :=
  if i.closed then
    i.low * den ≤ num * Interval.den && num * Interval.den ≤ i.high * den
  else
    i.low * den < num * Interval.den && num * Interval.den < i.high * den

/-- The exponent of the power of ten just above the number. -/
def Interval.decade (i : Interval) : Int :=
  decimalLength (i.value * tenTo 400 / Interval.den) - 400

/-- Of the two decimals with the given exponent around the number, the one that
    lies in the interval, when one does. -/
def Interval.onGrid? (i : Interval) (tie : Tie) (exponent : Int) : Option Decimal :=
  -- the grid's step is `step / shift`
  let step := tenTo exponent.toNat
  let shift := tenTo (-exponent).toNat
  let below := i.value * shift / (Interval.den * step)
  let rest := 2 * (i.value * shift % (Interval.den * step))
  let down := i.contains (below * step) shift
  let up := i.contains ((below + 1) * step) shift
  let takeUp :=
    if down && up then
      if rest = Interval.den * step then
        match tie with
        | .up => true
        | .toEven => below % 2 == 1
      else
        decide (Interval.den * step < rest)
    else up
  if down || up then some ⟨if takeUp then below + 1 else below, exponent⟩ else none

/-- The digits that seventeen or fewer places need, trying `places` first. -/
def Interval.search (i : Interval) (tie : Tie) : (fuel places : Nat) → Decimal
  | 0, places => ⟨i.value * tenTo places / Interval.den, -places⟩
  | fuel + 1, places =>
    (i.onGrid? tie (i.decade - places)).getD (i.search tie fuel (places + 1))

/-- Drops the zeros at the end of the digits. -/
def trimZeros : (fuel : Nat) → Decimal → Decimal
  | 0, d => d
  | fuel + 1, d =>
    if d.digits % 10 = 0 then trimZeros fuel ⟨d.digits / 10, d.exponent + 1⟩ else d

/-- The shortest decimal that reads back as the magnitude of a finite number
    that is not zero. -/
def shortest (tie : Tie) (x : Double) : Decimal :=
  trimZeros 17 (x.interval.search tie 17 1)

end Double

end PhpScript
