import FrontEnd.Grammar.Control
/-!
# The grammar of expressions

An expression is a term and the operators after it that bind tightly enough, each with its right
operand or its arguments. An operator and what belongs to it is a suffix; suffixes attach to the
term from left to right.
-/
namespace FrontEnd

/-- An operator and what follows it, to be attached to its first operand. -/
inductive Suffix
  | binary (operator : Token) (right : Expr)
  | assign (value : Expr)
  | compoundAssign (operator : Token) (value : Expr)
  | cast (target : Ty)
  /-- Arguments, up to the closing parenthesis. -/
  | call (arguments : List Expr) (closing : Token)
  /-- An index, up to the closing bracket. -/
  | index (index : Expr) (closing : Token)
  | field (field : Token)
  | methodCall (method : Token) (arguments : List Expr) (closing : Token)

/-- An expression with a suffix. It covers the text from the start of the expression to the end of
the suffix. -/
def Suffix.attach (left : Expr) : Suffix → Expr
  | .binary operator right =>
    .binary operator.kind.family operator left right (left.span.to right.span)
  | .assign value => .assign left value (left.span.to value.span)
  | .compoundAssign operator value =>
    .compoundAssign operator left value (left.span.to value.span)
  | .cast target => .cast left target (left.span.to target.span)
  | .call arguments closing => .call left arguments (left.span.to closing.span)
  | .index i closing => .index left i (left.span.to closing.span)
  | .field name => .field left name (left.span.to name.span)
  | .methodCall method arguments closing =>
    .methodCall left method arguments (left.span.to closing.span)

namespace Grammar

open Phrase

def exprStarts : List TokenKind :=
  [.integer, .char, .string, .kwTrue, .kwFalse, .identifier, .kwSelfValue, .kwSelfType, .dash,
    .bang, .star, .ampersand, .andAnd, .openParen, .openBracket, .underscore, .kwBreak,
    .kwContinue, .kwReturn, .openCurly, .kwConst, .kwIf, .kwMatch, .kwLoop, .kwWhile]

def startsExpr : Phrase Bool := do
  return (← kind) ∈ exprStarts

/-- A field of a struct literal: `name: value`, or `name` alone for the variable of that name. -/
def fieldValue : Phrase FieldValue := do
  let name ← expect .identifier
  match ← after? .colon (expr .lowest) with
  | some value => return ⟨name, value, false⟩
  | none => return ⟨name, .path (.ofToken name), true⟩

def structLiteral (p : Path) : Phrase Expr := do
  let _ ← expect .openCurly
  let fields ← withStructLiterals true do
    let fields ← commaList .closeCurly fieldValue
    let _ ← expect .closeCurly
    return fields
  return .structLiteral p fields (← spanFrom p.span)

/-- A path, or a struct literal if a brace follows where one is allowed. -/
def pathExpr : Phrase Expr := do
  let p ← path
  let next ← kind
  let allowed ← allowsStructLiterals
  if next = .openCurly ∧ allowed then structLiteral p else return .path p

def unary : Phrase Expr := do
  let operator ← take
  let operand ← expr .unary
  return .unary operator operand (operator.span.to operand.span)

def deref : Phrase Expr := do
  let star ← take
  let operand ← expr .unary
  return .deref operand (star.span.to operand.span)

def grouped : Phrase Expr := do
  let opening ← take
  let inner ← withStructLiterals true (expr .lowest)
  let _ ← expect .closeParen
  return .grouped inner (← spanFrom opening.span)

/-- What stands between brackets after the first element: a length, or more elements. -/
def arrayRest (opening : Token) (first : Expr) : Phrase Expr := do
  if ← eat .semicolon then
    let length ← expr .lowest
    let _ ← expect .closeBracket
    return .arrayRepeat first length (← spanFrom opening.span)
  else
    let rest ← afterFirst .closeBracket (expr .lowest)
    let _ ← expect .closeBracket
    return .array (first :: rest) (← spanFrom opening.span)

def array : Phrase Expr := do
  let opening ← take
  withStructLiterals true do
    if ← eat .closeBracket then
      return .array [] (← spanFrom opening.span)
    else
      arrayRest opening (← expr .lowest)

/-- The value after `break` or `return`, if an expression begins there. -/
def jumpValue : Phrase (Option Expr) := do
  if ← startsExpr then some <$> expr .lowest else return none

def breakLoop : Phrase Expr := do
  let keyword ← take
  let value ← jumpValue
  return .breakLoop value (← spanFrom keyword.span)

def returnValue : Phrase Expr := do
  let keyword ← take
  let value ← jumpValue
  return .returnValue value (← spanFrom keyword.span)

/-- A term: an operand with the operators before it, told by its first token. -/
def term : Phrase Expr := do
  match ← kind with
  | .integer | .char | .string | .kwTrue | .kwFalse => Expr.literal <$> take
  | .identifier | .kwSelfValue | .kwSelfType => pathExpr
  | .dash | .bang => unary
  | .star => deref
  | .ampersand | .andAnd => referenceLayers Expr.borrow Expr.span (expr .unary)
  | .openParen => grouped
  | .openBracket => array
  | .underscore => Expr.underscore <$> take
  | .kwBreak => breakLoop
  | .kwContinue => Expr.continueLoop <$> take
  | .kwReturn => returnValue
  | .openCurly => Expr.block <$> block
  | .kwConst => constBlock
  | .kwIf => Expr.conditional <$> conditional
  | .kwMatch => matching
  | .kwLoop => loop
  | .kwWhile => whileLoop
  | _ => fail "an expression"

def arguments : Phrase (List Expr × Token) :=
  withStructLiterals true do
    let args ← commaList .closeParen (expr .lowest)
    let closing ← expect .closeParen
    return (args, closing)

def callSuffix : Phrase Suffix := do
  let _ ← take
  let (args, closing) ← arguments
  return .call args closing

def indexSuffix : Phrase Suffix := do
  let _ ← take
  let index ← withStructLiterals true (expr .lowest)
  return .index index (← expect .closeBracket)

/-- A member after a dot: `.name`, `.0` or `.name(a, b)`. -/
def memberSuffix : Phrase Suffix := do
  let _ ← take
  let name ← expectOneOf [.identifier, .integer] "a field or method name"
  if name.kind = .identifier then
    if ← eat .openParen then
      let (args, closing) ← arguments
      return .methodCall name args closing
    else
      return .field name
  else
    return .field name

def castSuffix : Phrase Suffix := do
  let _ ← take
  Suffix.cast <$> ty

/-- An assignment operator and its value, in which further assignments group first. -/
def assignSuffix : Phrase Suffix := do
  let operator ← take
  let value ← expr .lowest
  return if operator.kind = .assignment then .assign value else .compoundAssign operator value

/-- An operator and its right operand, whose operators bind tighter. -/
def binarySuffix (tier : Tier) : Phrase Suffix := do
  let operator ← take
  let right ← expr tier
  return .binary operator right

def suffix (operator : TokenKind) (tier : Tier) : Phrase Suffix :=
  match tier with
  | .assignment => assignSuffix
  | .cast => castSuffix
  | .call => if operator = .openParen then callSuffix else indexSuffix
  | .member => memberSuffix
  | _ => binarySuffix tier

/-- A suffix, if the current token is an operator that binds tighter than a tier. -/
def suffix? (above : Tier) : Phrase (Option Suffix) := do
  let operator ← kind
  match operator.tier? with
  | some tier => if above < tier then some <$> suffix operator tier else return none
  | none => return none

/-- An expression with all suffixes that follow and bind tighter than a tier. -/
def operators (above : Tier) (left : Expr) : Phrase Expr := do
  let suffixes ← repeated (suffix? above)
  return suffixes.foldl Suffix.attach left

def exprRule (above : Tier) : Phrase Expr := do
  operators above (← term)

/-- An expression that ends in a block, at the start of a statement. The block ends the expression;
only a `.` goes on with it. -/
def blockLikeRule : Phrase Expr := do
  let e ← term
  if (← kind) = .dot then operators .lowest e else return e

end Grammar

end FrontEnd
