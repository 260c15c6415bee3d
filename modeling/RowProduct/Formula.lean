import RowProduct.Step

namespace RowProduct

inductive Arithmetic where
  | sum
  | product
  | remainder

def Arithmetic.result? (op : Arithmetic) (m n : Int) : Option Number :=
  match op with
  | .sum => some (.whole (.wrap (m + n)))
  | .product => some (.whole (.wrap (m * n)))
  | .remainder => if n = 0 then none else some (.whole (.wrap (m.tmod n)))

inductive Formula where
  | literal (v : Value)
  | column (name : String)
  | signedColumn (name : String)
  | doubleColumn (name : String)
  | stringColumn (name : String)
  | has (name : String)
  | names
  | size
  | isEmpty
  | record
  | entry (name : String)
  | candidate
  | arithmetic (op : Arithmetic) (x y : Formula)
  | less (x y : Formula)
  | equal (x y : Formula)
  | not (x : Formula)
  | and (x y : Formula)
  | or (x y : Formula)
  | choice (test x y : Formula)
  | array (xs : List Formula)
  | range (x : Formula)
  | concat (xs : List Formula)
  | log (tag : String) (x : Formula)
  | fail (x : Formula)

namespace Formula

structure Context where
  record : Record
  candidate : Option Fields := none

def plainText (v : Value) : String := v.string?.getD v.text

mutual

/-- The value of a formula, or the reason for its failure. Parts are evaluated from left to right, and the
first failure is that of the whole. -/
def eval (c : Context) : Formula → ExceptT String Traced Value
  | .literal v => return v
  | .column name => return (c.record.get? name).getD .null
  | .signedColumn name => return ((c.record.get? name >>= Value.signed?).map .int).getD .null
  | .doubleColumn name =>
    return ((c.record.get? name >>= Value.toBinary64?).map (.number ∘ .double)).getD .null
  | .stringColumn name => return ((c.record.get? name >>= Value.string?).map .string).getD .null
  | .has name => return .bool (c.record.contains name)
  | .names => return .array (c.record.names.map .string)
  | .size => return .int c.record.size
  | .isEmpty => return .bool c.record.isEmpty
  | .record => return c.record.toValue
  | .entry name => return (c.candidate >>= (·.lookup name)).getD .null
  | .candidate => return (c.candidate.map .object).getD .null
  | .arithmetic op x y => do
    let m ← x.eval c
    let n ← y.eval c
    return match m.signed?, n.signed? with
      | some m, some n => ((op.result? m n).map .number).getD .null
      | _, _ => .null
  | .less x y => do
    let m ← x.eval c
    let n ← y.eval c
    return .bool (match m.signed?, n.signed? with
      | some m, some n => m < n
      | _, _ => false)
  | .equal x y => do
    let m ← x.eval c
    let n ← y.eval c
    return .bool (m.same n)
  | .not x => do return .bool !(← x.eval c).isTrue
  | .and x y => do
    if (← x.eval c).isTrue then return .bool (← y.eval c).isTrue else return .bool false
  | .or x y => do
    if (← x.eval c).isTrue then return .bool true else return .bool (← y.eval c).isTrue
  | .choice test x y => do
    if (← test.eval c).isTrue then x.eval c else y.eval c
  | .array xs => do return .array (← evalAll c xs)
  | .range x => do
    let length := ((← x.eval c).signed?.getD 0).toNat
    return .array ((List.range length).map fun n ↦ .int (n : Nat))
  | .concat xs => do return .string (String.join ((← evalAll c xs).map plainText))
  | .log tag x => do
    let v ← x.eval c
    Traced.note (tag ++ "=" ++ v.text)
    return v
  | .fail x => do throw (plainText (← x.eval c))

def evalAll (c : Context) : List Formula → ExceptT String Traced (List Value)
  | [] => return []
  | x :: xs => do
    let v ← x.eval c
    return v :: (← evalAll c xs)

end

/-- A formula holds when its value is `true`; a failure counts as `false`. -/
def holds (x : Formula) (c : Context) : Traced Bool := do
  match ← (x.eval c).run with
  | .ok v => return v.isTrue
  | .error _ => return false

def toColumnSource (x : Formula) : ColumnSource := .computed fun scope ↦ (x.eval { record := scope }).run

def toTotalColumnSource (x : Formula) : ColumnSource :=
  .total fun scope ↦ do
    match ← (x.eval { record := scope }).run with
    | .ok v => return v
    | .error _ => return .null

def toRowTest (x : Formula) : Row → Traced Bool := fun row ↦ x.holds { record := row }

def toEntryTest (x : Formula) : EntryTest := fun scope entry ↦
  x.holds { record := scope, candidate := some entry }

end Formula

end RowProduct
