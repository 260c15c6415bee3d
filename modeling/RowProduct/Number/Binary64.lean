namespace RowProduct

abbrev Binary64.binade : Nat := 0x10000000000000

abbrev Binary64.count : Nat := 2047 * Binary64.binade

/-- Zero has two signs, every other double one; infinities and undefined results are left out. -/
structure Binary64 where
  negative : Bool
  place : Nat
  place_lt : place < Binary64.count
  deriving DecidableEq

namespace Binary64

def zero : Binary64 := ⟨false, 0, by decide⟩

def significand (place : Nat) : Nat :=
  if place < binade then place else binade + place % binade

def exponent (place : Nat) : Int :=
  (max 1 (place / binade) : Nat) - 1075

def twoTo (n : Int) : Nat := Nat.pow 2 n.toNat

def ratio (place : Nat) : Nat × Nat :=
  (significand place * twoTo (exponent place), twoTo (-exponent place))

def roundRatio (num den : Nat) : Nat :=
  let below := num / den
  let left := num % den
  if den < 2 * left ∨ (2 * left = den ∧ below % 2 = 1) then below + 1 else below

def scale (num den : Nat) : Int :=
  let low := max (-1074) ((num.log2 : Int) - den.log2 - 53)
  if num * twoTo (-low) < den * twoTo low * (2 * binade) then low else low + 1

/-- The place of the magnitude nearest to a ratio, halfway going to the even place. Places follow one
another across the powers of two, so a significand that rounds up to the next power needs no care; a place
at or above `count` stands for a ratio too large to round to a finite double. -/
def nearestPlace (num den : Nat) : Nat :=
  if num = 0 then 0 else
    let q := scale num den
    (q + 1074).toNat * binade + roundRatio (num * twoTo (-q)) (den * twoTo q)

def ofRatio? (negative : Bool) (num den : Nat) : Option Binary64 :=
  if h : nearestPlace num den < count then some ⟨negative, _, h⟩ else none

def ofRatio (negative : Bool) (num den : Nat) : Binary64 :=
  ⟨negative, min (nearestPlace num den) (count - 1),
    Nat.lt_of_le_of_lt (Nat.min_le_right _ _) (by decide)⟩

def ofInt (n : Int) : Binary64 := ofRatio (n < 0) n.natAbs 1

def withSign (x : Binary64) (negative : Bool) : Binary64 := { x with negative }

def times? (x y : Binary64) : Option Binary64 :=
  let (a, b) := ratio x.place
  let (c, d) := ratio y.place
  ofRatio? false (a * c) (b * d)

def quotient (x y : Binary64) : Binary64 :=
  let (a, b) := ratio x.place
  let (c, d) := ratio y.place
  ofRatio false (a * d) (b * c)

def same (x y : Binary64) : Bool :=
  x.place == y.place && (x.negative == y.negative || x.place == 0)

end Binary64

end RowProduct
