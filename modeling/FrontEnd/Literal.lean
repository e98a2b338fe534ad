import FrontEnd.Text.Quoted
import FrontEnd.Token
/-!
# Values of literals

A literal token keeps its text as written; here the text becomes a value. An integer has an optional
base before its digits and an optional type suffix after them and is below `2 ^ 128`; characters
and strings stand between quotes and may hold escape sequences.
-/
namespace FrontEnd

/-- What a literal stands for. -/
inductive LiteralValue
  | integer (value : Nat)
  | char (value : Char)
  | string (value : String)
  | bool (value : Bool)
deriving DecidableEq

inductive DecodeError
  | invalidEscape (sequence : String)
  | invalidDigit (digit : Char) (radix : Nat)
  | integerOverflow (literal : String)
  | malformedLiteral (literal : String)
deriving DecidableEq

namespace DecodeError

def name : DecodeError → String
  | invalidEscape _ => "InvalidEscape"
  | invalidDigit _ _ => "InvalidDigit"
  | integerOverflow _ => "IntegerOverflow"
  | malformedLiteral _ => "MalformedLiteral"

def message : DecodeError → String
  | invalidEscape sequence => "invalid escape sequence " ++ Text.quoted sequence
  | invalidDigit digit radix => "invalid digit " ++ Text.quotedChar digit ++ s!" for base {radix}"
  | integerOverflow literal =>
    "integer literal " ++ Text.quoted literal ++ " does not fit in 128 bits"
  | malformedLiteral literal => "malformed literal " ++ Text.quoted literal

end DecodeError

namespace Literal

def afterFront? : List Char → List Char → Option (List Char)
  | [], cs => some cs
  | _ :: _, [] => none
  | f :: fs, c :: cs => if f = c then afterFront? fs cs else none

def beforeBack? (back cs : List Char) : Option (List Char) :=
  (afterFront? back.reverse cs.reverse).map List.reverse

def integerSuffixes : List String :=
  ["i128", "u128", "isize", "usize", "i64", "u64", "i32", "u32", "i16", "u16", "i8", "u8"]

/-- The text of an integer without its type suffix, if it has one. -/
def withoutSuffix (cs : List Char) : List Char :=
  (integerSuffixes.findSome? fun suffix => beforeBack? suffix.toList cs).getD cs

def radixAndDigits : List Char → Nat × List Char
  | '0' :: 'b' :: cs => (2, cs)
  | '0' :: 'o' :: cs => (8, cs)
  | '0' :: 'x' :: cs => (16, cs)
  | cs => (10, cs)

/-- The value of an ASCII digit or letter as a digit of some base up to 36. -/
def digitValue (c : Char) : Option Nat :=
  let n := c.toNat
  if 0x30 ≤ n ∧ n ≤ 0x39 then some (n - 0x30)
  else if 0x61 ≤ n ∧ n ≤ 0x7A then some (n - 0x61 + 10)
  else if 0x41 ≤ n ∧ n ≤ 0x5A then some (n - 0x41 + 10)
  else none

def digitOf (radix : Nat) (c : Char) : Option Nat := (digitValue c).filter (· < radix)

def integerBound : Nat := Nat.pow 2 128

/-- Reads digits from the left onto `value` and stops at the first that is none or that takes the
value to the bound. -/
def readDigits (raw : String) (radix : Nat) : Nat → List Char → Except DecodeError Nat
  | value, [] => .ok value
  | value, c :: cs =>
    match digitOf radix c with
    | none => .error (.invalidDigit c radix)
    | some d =>
      if value * radix + d < integerBound then readDigits raw radix (value * radix + d) cs
      else .error (.integerOverflow raw)

def decodeInteger (raw : String) : Except DecodeError Nat :=
  let (radix, text) := radixAndDigits (withoutSuffix raw.toList)
  match text.filter (· ≠ '_') with
  | [] => .error (.malformedLiteral raw)
  | digits => readDigits raw radix 0 digits

def simpleEscape? : Char → Option Char
  | 'n' => some '\n'
  | 'r' => some '\r'
  | 't' => some '\t'
  | '"' => some '"'
  | '\x27' => some '\x27'
  | '\\' => some '\\'
  | '0' => some '\x00'
  | _ => none

def hexEscape? : List Char → Option Char
  | [a, b] =>
    match digitOf 16 a, digitOf 16 b with
    | some x, some y => some (Char.ofNat (16 * x + y))
    | _, _ => none
  | _ => none

/-- The text with its escape sequences resolved. -/
def resolveEscapes : List Char → Except DecodeError (List Char)
  | [] => .ok []
  | ['\\'] => .error (.invalidEscape "\\")
  | ['\\', 'x'] => .error (.invalidEscape "\\x")
  | ['\\', 'x', a] => .error (.invalidEscape (String.ofList ['\\', 'x', a]))
  | '\\' :: 'x' :: a :: b :: cs =>
    match hexEscape? [a, b] with
    | some c => (c :: ·) <$> resolveEscapes cs
    | none => .error (.invalidEscape (String.ofList ['\\', 'x', a, b]))
  | '\\' :: e :: cs =>
    match simpleEscape? e with
    | some c => (c :: ·) <$> resolveEscapes cs
    | none => .error (.invalidEscape (String.ofList ['\\', e]))
  | c :: cs => (c :: ·) <$> resolveEscapes cs

/-- The text between two quotes. One quote alone is no pair. -/
def unquote (quote : Char) (raw : String) : Except DecodeError (List Char) :=
  match (afterFront? [quote] raw.toList).bind (beforeBack? [quote]) with
  | some cs => .ok cs
  | none => .error (.malformedLiteral raw)

/-- The value of a character literal such as `'a'`, `'\n'` or `'\x41'`: its text resolves to one
character. -/
def decodeChar (raw : String) : Except DecodeError Char := do
  match ← resolveEscapes (← unquote '\x27' raw) with
  | [c] => .ok c
  | _ => .error (.malformedLiteral raw)

def decodeString (raw : String) : Except DecodeError String := do
  return String.ofList (← resolveEscapes (← unquote '"' raw))

end Literal

def Token.literalValue (t : Token) : Except DecodeError LiteralValue :=
  match t.kind with
  | .integer => .integer <$> Literal.decodeInteger t.value
  | .char => .char <$> Literal.decodeChar t.value
  | .string => .string <$> Literal.decodeString t.value
  | .kwTrue => .ok (.bool true)
  | .kwFalse => .ok (.bool false)
  | _ => .error (.malformedLiteral t.value)

end FrontEnd
