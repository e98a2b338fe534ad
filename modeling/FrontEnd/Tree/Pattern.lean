import FrontEnd.Tree.Path
/-!
# Patterns
-/
namespace FrontEnd

inductive Pattern
  /-- A literal; `negated` if a `-` stands before it. -/
  | literal (token : Token) (negated : Bool) (span : Span)
  /-- A name: `ref mut name @ sub`, every part but the name optional. -/
  | identifier (name : Token) (byRef mutable : Bool) (sub : Option Pattern) (span : Span)
  /-- The `_` that matches anything. -/
  | wildcard (token : Token)
  /-- A reference: `&inner` or `&mut inner`. -/
  | reference (mutable : Bool) (inner : Pattern) (span : Span)
  /-- A constant or a variant. -/
  | path (path : Path)
  /-- A variant with its parts: `Some(a, b)`. -/
  | tupleStruct (path : Path) (elements : List Pattern) (span : Span)

namespace Pattern

def span : Pattern → Span
  | literal _ _ span => span
  | identifier _ _ _ _ span => span
  | wildcard token => token.span
  | reference _ _ span => span
  | .path p => p.span
  | tupleStruct _ _ span => span

/-- A name that a pattern gives to a part of the value. -/
structure Binding where
  name : Token
  mutable : Bool
deriving DecidableEq

mutual
/-- The names that a pattern binds, outermost first and from left to right. -/
def bindings : Pattern → List Binding
  | literal _ _ _ => []
  | identifier name _ mutable none _ => [⟨name, mutable⟩]
  | identifier name _ mutable (some sub) _ => ⟨name, mutable⟩ :: sub.bindings
  | wildcard _ => []
  | reference _ inner _ => inner.bindings
  | path _ => []
  | tupleStruct _ elements _ => bindingsOfList elements
def bindingsOfList : List Pattern → List Binding
  | [] => []
  | p :: ps => p.bindings ++ bindingsOfList ps
end

/-- Whether the pattern as a whole is one name, with or without a pattern after it. -/
def isIdentifier : Pattern → Bool
  | identifier _ _ _ _ _ => true
  | _ => false

end Pattern

end FrontEnd
