import FrontEnd.Grammar.Path
/-!
# The grammar of types
-/
namespace FrontEnd.Grammar

open Phrase

def typeStarts : List TokenKind :=
  [.identifier, .kwSelfType, .ampersand, .andAnd, .openBracket, .openParen, .bang, .underscore]

def expr (above : Tier) : Phrase Expr := goal (.expr above)

/-- A type. A token that begins none is refused before a level of nesting is taken. -/
def ty : Phrase Ty := do
  if (← kind) ∈ typeStarts then goal .ty else fail "a type"

def bracketType : Phrase Ty := do
  let opening ← take
  let element ← ty
  if ← eat .semicolon then
    let length ← withStructLiterals true (expr .lowest)
    let _ ← expect .closeBracket
    return .array element length (← spanFrom opening.span)
  else
    let _ ← expect .closeBracket
    return .slice element (← spanFrom opening.span)

/-- What begins with a parenthesis: `()`, `(T)`, which is `T` itself, `(T,)` or `(A, B)`. -/
def parenType : Phrase Ty := do
  let opening ← take
  if ← eat .closeParen then
    return .tuple [] (← spanFrom opening.span)
  else
    let first ← ty
    if ← eat .closeParen then
      return first
    else
      let rest ← afterFirst .closeParen ty
      let _ ← expect .closeParen
      return .tuple (first :: rest) (← spanFrom opening.span)

def tyRule : Phrase Ty := do
  match ← kind with
  | .identifier | .kwSelfType => Ty.path <$> path
  | .ampersand | .andAnd => referenceLayers Ty.reference Ty.span ty
  | .openBracket => bracketType
  | .openParen => parenType
  | .bang => Ty.never <$> take
  | .underscore => Ty.inferred <$> take
  | _ => fail "a type"

end FrontEnd.Grammar
