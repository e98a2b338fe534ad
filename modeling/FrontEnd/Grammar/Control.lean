import FrontEnd.Grammar.Block
/-!
# The grammar of conditions, branches and loops

The bindings of a let-chain are visible in the links after them and in the first branch or the body,
so a condition and what it guards share a scope.
-/
namespace FrontEnd.Grammar

open Phrase

/-- A link of a let-chain. Its value is read above the tier of `&&`, which separates links, and is
not in the scope of the link's own pattern. -/
def link : Phrase Link := do
  let start ← current
  if ← eat .kwLet then
    let p ← pattern
    let _ ← expect .assignment
    let value ← expr .logicalAnd
    bindPattern p none
    return ⟨some p, value, ← spanFrom start.span⟩
  else
    let value ← expr .logicalAnd
    return ⟨none, value, ← spanFrom start.span⟩

/-- A condition. A brace after a path in it opens the body, not a struct literal. -/
def condition : Phrase Condition :=
  withStructLiterals false do
    if (← kind) = .kwLet then
      let first ← link
      let rest ← eachAfter .andAnd link
      return .letChain (first :: rest)
    else
      Condition.expr <$> expr .lowest

def guardedBlock : Phrase (Condition × Block) :=
  inScope do
    let c ← condition
    let body ← block
    return (c, body)

def otherwise : Phrase Otherwise := do
  if ← eat .kwElse then
    if (← kind) = .kwIf then Otherwise.conditional <$> goal .elseIf
    else Otherwise.block <$> block
  else
    return .nothing

def conditional : Phrase Conditional := do
  let keyword ← expect .kwIf
  let (c, body) ← guardedBlock
  let last ← otherwise
  return ⟨c, body, last, ← spanFrom keyword.span⟩

def whileLoop : Phrase Expr := do
  let keyword ← expect .kwWhile
  let (c, body) ← guardedBlock
  return .whileLoop c body (← spanFrom keyword.span)

def loop : Phrase Expr := do
  let keyword ← expect .kwLoop
  let body ← block
  return .loop body (← spanFrom keyword.span)

/-- An arm. The names of its pattern are visible in its guard and body. -/
def armRule : Phrase Arm :=
  inScope do
    let p ← pattern
    bindPattern p none
    let guard ← after? .kwIf (expr .lowest)
    let _ ← expect .fatArrow
    let body ← statementExpr
    return ⟨p, guard, body, p.span.to body.span⟩

/-- An arm and the comma after it, which only the last arm and one that ends in a block can do
without. -/
def armAndComma : Phrase Arm := do
  let a ← goal .arm
  if ← eat .comma then
    return a
  else if (← kind) = .closeCurly ∨ a.body.isBlockLike then
    return a
  else
    fail TokenKind.comma.describe

def matching : Phrase Expr := do
  let keyword ← expect .kwMatch
  let scrutinee ← withStructLiterals false (expr .lowest)
  let _ ← expect .openCurly
  let arms ← withStructLiterals true (untilKind .closeCurly armAndComma)
  let _ ← expect .closeCurly
  return .matching scrutinee arms (← spanFrom keyword.span)

end FrontEnd.Grammar
