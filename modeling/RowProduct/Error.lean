import RowProduct.Value.Text

namespace RowProduct

inductive Error where
  | unknownStep (text : String)
  | invalidEntry (index : Nat) (text : String)
  | columnFailed (column reason : String)
  | invalidConfig (reason : String)
  /-- No step fails like this: it stands for the answer that is missing where a poll never comes back. -/
  | endless
  deriving DecidableEq

namespace Error

def ofStep (v : Value) : Error := .unknownStep v.text

def ofEntry (index : Nat) (v : Value) : Error := .invalidEntry index v.text

def message : Error → String
  | .unknownStep text => "Unknown step kind: " ++ text
  | .invalidEntry index text => "Dataset entry #" ++ toString index ++ " is not an object: " ++ text
  | .columnFailed column reason => "Column '" ++ column ++ "' could not be resolved: " ++ reason
  | .invalidConfig reason => "Invalid configuration: " ++ reason
  | .endless => ""

end Error

end RowProduct
