import RowProduct.Json.Literal

namespace RowProduct.Json

inductive Token where
  | openArray
  | closeArray
  | openObject
  | closeObject
  | comma
  | colon
  | null
  | bool (b : Bool)
  | number (l : Literal)
  | string (s : Option String)

/-- A string while it is read: its characters, the latest first, the first half of a surrogate pair that
waits for the second, and whether a half has been found alone. -/
structure Quoted where
  chars : List Char
  high : Option Nat
  broken : Bool

namespace Quoted

def empty : Quoted := ⟨[], none, false⟩

def push (q : Quoted) (c : Char) : Quoted :=
  { chars := c :: q.chars, high := none, broken := q.broken || q.high.isSome }

def pushUnit (q : Quoted) (unit : Nat) : Quoted :=
  if 0xd800 ≤ unit ∧ unit < 0xdc00 then
    { q with high := some unit, broken := q.broken || q.high.isSome }
  else if 0xdc00 ≤ unit ∧ unit < 0xe000 then
    match q.high with
    | some high =>
      { q with
        chars := Char.ofNat (0x10000 + (high - 0xd800) * 0x400 + (unit - 0xdc00)) :: q.chars
        high := none }
    | none => { q with broken := true }
  else q.push (Char.ofNat unit)

def string? (q : Quoted) : Option String :=
  if q.broken || q.high.isSome then none else some (String.ofList q.chars.reverse)

end Quoted

inductive Mode where
  | between
  | bare (chars : List Char)
  | quoted (q : Quoted)
  | escaped (q : Quoted)
  | unit (q : Quoted) (left : Nat) (value : Nat)

structure Lexer where
  tokens : List Token
  mode : Mode

namespace Lexer

def start : Lexer := ⟨[], .between⟩

def isBlank (c : Char) : Bool := c == ' ' || c == '\t' || c == '\n' || c == '\r'

def punctuation? : Char → Option Token
  | '[' => some .openArray
  | ']' => some .closeArray
  | '{' => some .openObject
  | '}' => some .closeObject
  | ',' => some .comma
  | ':' => some .colon
  | _ => none

def bareToken? (cs : List Char) : Option Token :=
  if cs = ['n', 'u', 'l', 'l'] then some .null
  else if cs = ['t', 'r', 'u', 'e'] then some (.bool true)
  else if cs = ['f', 'a', 'l', 's', 'e'] then some (.bool false)
  else (Literal.ofChars? cs).map .number

def hexValue? (c : Char) : Option Nat :=
  if c.isDigit then some (Decimal.digit c)
  else if 'a' ≤ c ∧ c ≤ 'f' then some (c.toNat - 'a'.toNat + 10)
  else if 'A' ≤ c ∧ c ≤ 'F' then some (c.toNat - 'A'.toNat + 10)
  else none

def escape? : Char → Option Char
  | '"' => some '"'
  | '\\' => some '\\'
  | '/' => some '/'
  | 'b' => some '\x08'
  | 'f' => some '\x0c'
  | 'n' => some '\n'
  | 'r' => some '\r'
  | 't' => some '\t'
  | _ => none

def outside (tokens : List Token) (word : List Char) (c : Char) : Option Lexer := do
  let punctuation := punctuation? c
  if punctuation.isNone && !isBlank c && c != '"' then return ⟨tokens, .bare (c :: word)⟩
  let tokens ← if word.isEmpty then some tokens else (bareToken? word.reverse).map (· :: tokens)
  match punctuation with
  | some token => return ⟨token :: tokens, .between⟩
  | none => return ⟨tokens, if c = '"' then .quoted .empty else .between⟩

def step (lexer : Lexer) (c : Char) : Option Lexer :=
  match lexer.mode with
  | .between => outside lexer.tokens [] c
  | .bare word => outside lexer.tokens word c
  | .quoted q =>
    if c = '"' then some ⟨.string q.string? :: lexer.tokens, .between⟩
    else if c = '\\' then some { lexer with mode := .escaped q }
    else if c.toNat < 32 then none
    else some { lexer with mode := .quoted (q.push c) }
  | .escaped q =>
    if c = 'u' then some { lexer with mode := .unit q 4 0 }
    else (escape? c).map fun c ↦ { lexer with mode := .quoted (q.push c) }
  | .unit q left value => do
    let value := 16 * value + (← hexValue? c)
    return { lexer with mode := if left = 1 then .quoted (q.pushUnit value) else .unit q (left - 1) value }

def finish? (lexer : Lexer) : Option (List Token) :=
  match lexer.mode with
  | .between => some lexer.tokens.reverse
  | .bare word => (bareToken? word.reverse).map fun token ↦ (token :: lexer.tokens).reverse
  | _ => none

end Lexer

def tokens? (s : String) : Option (List Token) :=
  s.toList.foldlM Lexer.step .start >>= Lexer.finish?

end RowProduct.Json
