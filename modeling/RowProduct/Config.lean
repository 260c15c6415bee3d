import RowProduct.Event

namespace RowProduct

/-- A run without a limit gives all rows; without an interval it reports no progress. -/
structure Config where
  rowLimit : Option Nat := none
  progressInterval : Option Nat := none
  deriving DecidableEq

namespace Config

/-- Decimal digits after an optional plus sign, for a number that fits a 64-bit word. -/
def natural? (s : String) : Option Nat :=
  let digits := match s.toList with
    | '+' :: cs => cs
    | cs => cs
  if digits.isEmpty || !digits.all Char.isDigit then none
  else
    let n := Decimal.natural (digits.map Decimal.digit)
    if n < Whole.wordCount then some n else none

def ofLookup (lookup : String → Option String) : Config where
  rowLimit := lookup "ROWCROSS_ROW_LIMIT" >>= natural?
  progressInterval := lookup "ROWCROSS_PROGRESS_INTERVAL" >>= natural?

def Valid (c : Config) : Prop := c.progressInterval ≠ some 0

instance (c : Config) : Decidable c.Valid := inferInstanceAs (Decidable (_ ≠ _))

def zeroInterval : Error := .invalidConfig "progress_interval must be greater than zero"

def validate (c : Config) : Except Error Unit :=
  if c.Valid then .ok () else .error zeroInterval

def text (c : Config) : String :=
  let number : Option Nat → Value := fun
    | some n => .int n
    | none => .null
  Value.text (.object [("row_limit", number c.rowLimit), ("progress_interval", number c.progressInterval)])

end Config

end RowProduct
