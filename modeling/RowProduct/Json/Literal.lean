import RowProduct.Number

namespace RowProduct.Json

structure Literal where
  negative : Bool
  whole : List Nat
  fraction : Option (List Nat)
  power : Option Int
  deriving DecidableEq

namespace Literal

def digits? (cs : List Char) : Option (List Nat × List Char) :=
  match cs.takeWhile Char.isDigit with
  | [] => none
  | ds => some (ds.map Decimal.digit, cs.dropWhile Char.isDigit)

def power? : List Char → Option (Option Int)
  | [] => some none
  | c :: cs => do
    guard (c == 'e' || c == 'E')
    let (sign, cs) : Int × List Char := match cs with
      | '-' :: cs => (-1, cs)
      | '+' :: cs => (1, cs)
      | cs => (1, cs)
    let (digits, rest) ← digits? cs
    guard rest.isEmpty
    return some (sign * Decimal.natural digits)

def ofChars? (cs : List Char) : Option Literal := do
  let (negative, cs) := match cs with
    | '-' :: cs => (true, cs)
    | cs => (false, cs)
  let (whole, rest) ← digits? cs
  guard (whole.length = 1 || whole.head? != some 0)
  match rest with
  | '.' :: rest =>
    let (fraction, rest) ← digits? rest
    return ⟨negative, whole, some fraction, ← power? rest⟩
  | rest => return ⟨negative, whole, none, ← power? rest⟩

/-- Digits alone denote an integer if a signed or an unsigned word holds it; any other literal, and the
negative zero, denotes a double. -/
def toNumber? (l : Literal) : Option Number :=
  let size := Decimal.natural l.whole
  let n : Int := if l.negative then -size else size
  let decimal := Decimal.ofDigits l.negative l.whole (l.fraction.getD []) (l.power.getD 0)
  let double := decimal.toBinary64?.map Number.double
  if l.fraction.isSome || l.power.isSome || (l.negative && n == 0) then double
  else
    match Whole.ofInt? n with
    | some w => some (.whole w)
    | none => double

end Literal

end RowProduct.Json
