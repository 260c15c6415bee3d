import RowProduct.Number.Decimal
import RowProduct.Number.Shortest

namespace RowProduct

abbrev Whole.wordCount : Nat := 0x10000000000000000

structure Whole where
  val : Int
  lower : -(Whole.wordCount / 2 : Int) ≤ val
  upper : val < Whole.wordCount
  deriving DecidableEq

namespace Whole

def ofInt? (n : Int) : Option Whole :=
  if h : -(wordCount / 2 : Int) ≤ n ∧ n < wordCount then some ⟨n, h.1, h.2⟩ else none

def wrap (n : Int) : Whole where
  val := n.bmod wordCount
  lower := Int.le_bmod (by decide)
  upper := Int.lt_trans (Int.bmod_lt (by decide)) (by decide)

end Whole

inductive Number where
  | whole (n : Whole)
  | double (x : Binary64)
  deriving DecidableEq

namespace Number

def ofInt (n : Int) : Number :=
  match Whole.ofInt? n with
  | some w => .whole w
  | none => .double (.ofInt n)

def signed? : Number → Option Int
  | .whole n => if n.val < (Whole.wordCount / 2 : Int) then some n.val else none
  | .double _ => none

def unsigned? : Number → Option Nat
  | .whole n => if 0 ≤ n.val then some n.val.toNat else none
  | .double _ => none

def toBinary64 : Number → Binary64
  | .whole n => .ofInt n.val
  | .double x => x

def same : Number → Number → Bool
  | .whole a, .whole b => a.val == b.val
  | .double a, .double b => a.same b
  | _, _ => false

/-- Equality across the kinds: as signed words, else as unsigned words, else as doubles. -/
def agrees (a b : Number) : Bool :=
  match a.signed?, b.signed? with
  | some m, some n => m == n
  | _, _ =>
    match a.unsigned?, b.unsigned? with
    | some m, some n => m == n
    | _, _ => a.toBinary64.same b.toBinary64

def text : Number → String
  | .whole n => toString n.val
  | .double x => Layout.number.render x

end Number

end RowProduct
