import RowProduct.Value.Text

namespace RowProduct.Value

def describeChar (c : Char) : List Char :=
  match c with
  | '"' => ['\\', '"']
  | '\\' => ['\\', '\\']
  | '\n' => ['\\', 'n']
  | '\r' => ['\\', 'r']
  | '\t' => ['\\', 't']
  | '\x00' => ['\\', '0']
  | c =>
    if c.toNat < 32 ∨ c.toNat = 127 then
      ['\\', 'u', '{'] ++ Nat.toDigits 16 c.toNat ++ ['}']
    else [c]

def describeString (s : String) : String :=
  String.ofList ('"' :: s.toList.flatMap describeChar ++ ['"'])

def bracketed (parts : List String) : String := "[" ++ ", ".intercalate parts ++ "]"

mutual

def describe : Value → String
  | .null => "Null"
  | .bool b => "Bool(" ++ (if b then "true" else "false") ++ ")"
  | .number n => "Number(" ++ n.text ++ ")"
  | .string s => "String(" ++ describeString s ++ ")"
  | .array vs => "Array " ++ bracketed (describeItems vs)
  | .object fields => "Object \x7b" ++ ", ".intercalate (describeFields fields) ++ "\x7d"

def describeItems : List Value → List String
  | [] => []
  | v :: vs => v.describe :: describeItems vs

def describeFields : Fields → List String
  | [] => []
  | (name, v) :: fields => (describeString name ++ ": " ++ v.describe) :: describeFields fields

end

end RowProduct.Value
