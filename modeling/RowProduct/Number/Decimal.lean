import RowProduct.Number.Binary64

namespace RowProduct

structure Decimal where
  negative : Bool
  significand : Nat
  exponent : Int
  deriving DecidableEq

namespace Decimal

def digit (c : Char) : Nat := c.toNat - '0'.toNat

def natural (digits : List Nat) : Nat := digits.foldl (fun n d ↦ 10 * n + d) 0

def significandLimit : Nat := 0xffffffffffffffff

def absorb (significand : Nat) : List Nat → Nat × List Nat
  | [] => (significand, [])
  | d :: ds =>
    if significand * 10 + d ≤ significandLimit then absorb (significand * 10 + d) ds
    else (significand, d :: ds)

/-- The numeral with these digits before and behind the point and this power of ten. Digits before the
point that are left over count as zeros, those behind the point as nothing. -/
def ofDigits (negative : Bool) (whole fraction : List Nat) (power : Int) : Decimal :=
  let (high, wholeLeft) := absorb 0 whole
  let (significand, fractionLeft) := absorb high fraction
  ⟨negative, significand, power + wholeLeft.length - (fraction.length - fractionLeft.length : Nat)⟩

def powerOfTen (n : Nat) : Binary64 := .ofRatio false (Nat.pow 10 n) 1

/-- The significand is rounded, then multiplied or divided by a rounded power of ten and rounded again.
Powers above `10 ^ 308` have no double: a numeral that needs one is too large, and a small one is divided
by `10 ^ 308` first. A numeral that is too large has no double. -/
def toBinary64? (x : Decimal) : Option Binary64 :=
  let base := Binary64.ofRatio false x.significand 1
  let down := (-x.exponent).toNat
  let magnitude? :=
    if 0 ≤ x.exponent then
      if x.exponent ≤ 308 then base.times? (powerOfTen x.exponent.toNat)
      else if x.significand = 0 then some .zero
      else none
    else if down ≤ 308 then some (base.quotient (powerOfTen down))
    else if down ≤ 616 then some ((base.quotient (powerOfTen 308)).quotient (powerOfTen (down - 308)))
    else some .zero
  magnitude?.map (·.withSign x.negative)

end Decimal

end RowProduct
