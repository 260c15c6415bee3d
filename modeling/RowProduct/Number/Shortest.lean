import RowProduct.Number.Binary64

namespace RowProduct

structure Shortest where
  digits : Nat
  exponent : Int
  deriving DecidableEq

namespace Shortest

/-- The decimals that round to a double lie between `low / den` and `high / den`, around `mid / den`;
the two ends belong to them when `closed`. -/
structure Interval where
  low : Nat
  mid : Nat
  high : Nat
  den : Nat
  closed : Bool

def interval (place : Nat) : Interval :=
  let m := Binary64.significand place
  let q := Binary64.exponent place - 2
  let up := Binary64.twoTo q
  let below := if place % Binary64.binade = 0 ∧ Binary64.binade < place then 1 else 2
  { low := (4 * m - below) * up, mid := 4 * m * up, high := (4 * m + 2) * up,
    den := Binary64.twoTo (-q), closed := m % 2 == 0 }

def Interval.contains (i : Interval) (num den : Nat) : Bool :=
  if i.closed then i.low * den ≤ num * i.den && num * i.den ≤ i.high * den
  else i.low * den < num * i.den && num * i.den < i.high * den

def digitCount (n : Nat) : Nat := (Nat.toDigits 10 n).length

def leadingPower (num den : Nat) : Int :=
  if den ≤ num then (digitCount (num / den) : Int) - 1
  else
    let d := digitCount (den / num)
    if den ≤ num * Nat.pow 10 (d - 1) then 1 - (d : Int) else -d

/-- Of the two neighbours of the middle that are multiples of `10 ^ power`, the nearer one if the interval
has it, else the other one. -/
def onGrid? (i : Interval) (power : Int) : Option Nat :=
  let unit := Nat.pow 10 power.toNat
  let part := Nat.pow 10 (-power).toNat
  let num := i.mid * part
  let den := i.den * unit
  let nearer := Binary64.roundRatio num den
  let farther := 2 * (num / den) + 1 - nearer
  if i.contains (nearer * unit) part then some nearer
  else if i.contains (farther * unit) part then some farther
  else none

def search (i : Interval) (power : Int) : Nat → Shortest
  | 0 => ⟨i.mid / i.den, 0⟩
  | tries + 1 =>
    match onGrid? i power with
    | some digits => ⟨digits, power⟩
    | none => search i (power - 1) tries

def ofPlace (place : Nat) : Shortest :=
  let i := interval place
  search i (leadingPower i.mid i.den) 17

end Shortest

/-- How a double is written: positionally when the power of ten of its first digit is in the range, with
a signed power of ten otherwise. -/
structure Layout where
  lowest : Int
  highest : Int

namespace Layout

def number : Layout := ⟨-5, 15⟩

def positional (digits : List Char) (leading : Int) : List Char :=
  if leading < 0 then '0' :: '.' :: (List.replicate (-leading - 1).toNat '0' ++ digits)
  else
    let whole := leading.toNat + 1
    let fraction := digits.drop whole
    digits.take whole ++ List.replicate (whole - digits.length) '0' ++
      '.' :: (if fraction.isEmpty then ['0'] else fraction)

def scientific (digits : List Char) (leading : Int) : List Char :=
  let fraction := digits.drop 1
  digits.take 1 ++ (if fraction.isEmpty then [] else '.' :: fraction) ++
    'e' :: (if leading < 0 then '-' else '+') :: Nat.toDigits 10 leading.natAbs

def render (layout : Layout) (x : Binary64) : String :=
  let body :=
    if x.place = 0 then ['0', '.', '0']
    else
      let s := Shortest.ofPlace x.place
      let digits := Nat.toDigits 10 s.digits
      let leading := s.exponent + digits.length - 1
      let kept := (digits.reverse.dropWhile (· == '0')).reverse
      if layout.lowest ≤ leading ∧ leading ≤ layout.highest then positional kept leading
      else scientific kept leading
  String.ofList (if x.negative then '-' :: body else body)

end Layout

end RowProduct
