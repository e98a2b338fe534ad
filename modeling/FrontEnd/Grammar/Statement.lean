import FrontEnd.Grammar.Item
/-!
# The grammar of statements
-/
namespace FrontEnd.Grammar

open Phrase

/-- Whether a statement begins here that is no expression. After `const` it takes the start of an
item. -/
def startsStatement : Phrase Bool := do
  match ← kind with
  | .kwConst =>
    let next ← nextKind
    return next ∈ [TokenKind.kwFn, .identifier, .underscore]
  | .kwLet | .semicolon | .kwFn | .kwStruct | .kwEnum | .kwTrait | .kwImpl => return true
  | _ => return false

/-- A binding: `let pattern: T = e;`. The pattern binds after the value has been read, so that the
value sees the names of before. -/
def letBinding : Phrase Stmt := do
  let keyword ← expect .kwLet
  let p ← pattern
  let type ← after? .colon ty
  let value ← after? .assignment (expr .lowest)
  let _ ← expect .semicolon
  bindPattern p type
  return .letBinding p type value (← spanFrom keyword.span)

def emptyStatement : Phrase Stmt := do
  return .empty (← expect .semicolon).span

def statement : Phrase Stmt := do
  match ← kind with
  | .kwLet => letBinding
  | .semicolon => emptyStatement
  | .kwConst | .kwFn | .kwStruct | .kwEnum | .kwTrait | .kwImpl => Stmt.item <$> declaredItem
  | _ => fail "a statement"

/-- An expression in a block: a statement if a semicolon follows, the value of the block if the
brace does, else a statement that has to end in a block. -/
def exprElement : Phrase Element := do
  let e ← statementExpr
  if ← eat .semicolon then
    return .statement (.expr e true (← spanFrom e.span))
  else if (← kind) = .closeCurly then
    return .tail e
  else if e.isBlockLike then
    return .statement (.expr e false e.span)
  else
    fail TokenKind.semicolon.describe

def elementRule : Phrase Element := do
  if ← startsStatement then Element.statement <$> statement else exprElement

end FrontEnd.Grammar
