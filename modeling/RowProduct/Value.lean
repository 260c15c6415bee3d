import RowProduct.Number

namespace RowProduct

inductive Value where
  | null
  | bool (b : Bool)
  | number (n : Number)
  | string (s : String)
  | array (items : List Value)
  | object (fields : List (String × Value))

abbrev Fields := List (String × Value)

namespace Value

def int (n : Int) : Value := .number (.ofInt n)

mutual

/-- Equality by kind and content; the order of an object's entries does not count. -/
def same : Value → Value → Bool
  | .null, .null => true
  | .bool a, .bool b => a == b
  | .number a, .number b => a.same b
  | .string a, .string b => a == b
  | .array as, .array bs => sameItems as bs
  | .object as, .object bs => as.length == bs.length && sameFields as bs
  | _, _ => false

def sameItems : List Value → List Value → Bool
  | [], [] => true
  | a :: as, b :: bs => a.same b && sameItems as bs
  | _, _ => false

def sameFields : Fields → Fields → Bool
  | [], _ => true
  | (name, a) :: as, bs => (bs.lookup name).any a.same && sameFields as bs

end

def isScalar : Value → Bool
  | .array _ | .object _ => false
  | _ => true

/-- The equality of joins: numbers agree by numerical value, other scalars only with themselves, arrays
and objects with nothing. -/
def agrees (a b : Value) : Bool :=
  a.isScalar && b.isScalar &&
    match a, b with
    | .number m, .number n => m.agrees n
    | _, _ => a.same b

def isArray : Value → Bool
  | .array _ => true
  | _ => false

def items : Value → List Value
  | .array vs => vs
  | v => [v]

def isColumnBlock : Value → Bool
  | .object (_ :: _) => true
  | _ => false

def signed? : Value → Option Int
  | .number n => n.signed?
  | _ => none

def toBinary64? : Value → Option Binary64
  | .number n => some n.toBinary64
  | _ => none

def string? : Value → Option String
  | .string s => some s
  | _ => none

def isTrue : Value → Bool
  | .bool b => b
  | _ => false

end Value

end RowProduct
