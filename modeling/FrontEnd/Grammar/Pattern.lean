import FrontEnd.Grammar.Path
/-!
# The grammar of patterns

A name alone may bind a variable or mean a constant that was declared before it; which of the two
is asked of the scopes.
-/
namespace FrontEnd.Grammar

open Phrase

def pattern : Phrase Pattern := goal .pattern

def pathPattern : Phrase Pattern := do
  let p ← path
  if ← eat .openParen then
    let elements ← commaList .closeParen pattern
    let _ ← expect .closeParen
    return .tupleStruct p elements (← spanFrom p.span)
  else
    return .path p

/-- A name: `ref mut name @ pattern`, every part but the name optional. -/
def identifierPattern : Phrase Pattern := do
  let start ← current
  let byRef ← eat .kwRef
  let mutable ← eat .kwMut
  let name ← expect .identifier
  let sub ← after? .atSign pattern
  return .identifier name byRef mutable sub (← spanFrom start.span)

def negatedPattern : Phrase Pattern := do
  let minus ← take
  let literal ← expect .integer
  return .literal literal true (minus.span.to literal.span)

def literalPattern : Phrase Pattern := do
  let literal ← take
  return .literal literal false literal.span

/-- A pattern that begins with an identifier, told by the token after it. -/
def namePattern (name : String) : Phrase Pattern := do
  match ← nextKind with
  | .pathSep | .openParen => pathPattern
  | .atSign => identifierPattern
  | _ => if ← isConstant name then pathPattern else identifierPattern

def patternRule : Phrase Pattern := do
  let first ← current
  match first.kind with
  | .dash => negatedPattern
  | .integer | .char | .string | .kwTrue | .kwFalse => literalPattern
  | .underscore => Pattern.wildcard <$> take
  | .ampersand | .andAnd => referenceLayers Pattern.reference Pattern.span pattern
  | .kwRef | .kwMut => identifierPattern
  | .kwSelfValue | .kwSelfType => pathPattern
  | .identifier => namePattern first.value
  | _ => fail "a pattern"

def bindPattern (p : Pattern) (ty : Option Ty) : Phrase Unit := bindAll (Symbol.ofPattern p ty)

end FrontEnd.Grammar
