import FrontEnd.Grammar.Pattern
import FrontEnd.Grammar.Type
/-!
# The grammar of blocks
-/
namespace FrontEnd

def Element.statements (elements : List Element) : List Stmt :=
  elements.filterMap fun
    | .statement s => some s
    | .tail _ => none

def Element.tail? (elements : List Element) : Option Expr :=
  match elements.getLast? with
  | some (.tail e) => some e
  | _ => none

theorem Element.tail?_cons_statement (s : Stmt) (es : List Element) :
    Element.tail? (.statement s :: es) = Element.tail? es := by
  cases es <;> simp [Element.tail?, List.getLast?_cons_cons]

namespace Grammar

open Phrase

/-- A block, in which struct literals are allowed, in a scope of its own. -/
def block : Phrase Block := goal .block

def blockBody : Phrase Block := do
  let opening ← expect .openCurly
  let elements ← untilKind .closeCurly (goal .element)
  let _ ← expect .closeCurly
  return ⟨Element.statements elements, Element.tail? elements, ← spanFrom opening.span⟩

def blockRule : Phrase Block := inScope (withStructLiterals true blockBody)

def constBlock : Phrase Expr := do
  let keyword ← expect .kwConst
  if (← kind) = .openCurly then
    let b ← block
    return .constBlock b (← spanFrom keyword.span)
  else
    fail TokenKind.openCurly.describe

/-- Whether an expression that ends in a block begins here. After `const` it takes a brace, else the
word begins an item. -/
def startsBlockLike : Phrase Bool := do
  match ← kind with
  | .kwConst => return (← nextKind) = .openCurly
  | .openCurly | .kwIf | .kwMatch | .kwLoop | .kwWhile => return true
  | _ => return false

/-- An expression where a statement may stand: one that ends in a block is read as such. -/
def statementExpr : Phrase Expr := do
  if ← startsBlockLike then goal .blockLike else expr .lowest

end Grammar

end FrontEnd
