import FrontEnd.Grammar.Phrase
/-!
# The grammar of paths
-/
namespace FrontEnd.Grammar

open Phrase

/-- What a segment of a path can be: an identifier, `self` or `Self`. -/
def pathSegments : List TokenKind := [.identifier, .kwSelfValue, .kwSelfType]

def path : Phrase Path := do
  let first ← expectOneOf pathSegments "a path"
  let rest ← eachAfter .pathSep (expectOneOf pathSegments "a path segment")
  return ⟨first :: rest, ← spanFrom first.span⟩

end FrontEnd.Grammar
