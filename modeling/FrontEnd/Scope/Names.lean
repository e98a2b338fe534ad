import FrontEnd.Scope.Table
/-!
# Names

What a reader of a program knows of its names: the open scopes, and which names were declared again
in the scope that had them already.
-/
namespace FrontEnd

/-- A name declared again in the scope that has it already. It is noted and does no harm. -/
structure Redefinition where
  name : String
  position : Position
deriving DecidableEq

/-- The open scopes and the redefinitions found so far. -/
structure Names where
  scopes : ScopeTable
  /-- In the order in which they were found. -/
  redefinitions : List Redefinition

namespace Names

def empty : Names := ⟨.empty, []⟩

def push (n : Names) : Names := { n with scopes := n.scopes.push }

def pop (n : Names) : Names := { n with scopes := n.scopes.pop.2 }

/-- Declares a symbol found at a place. If the innermost scope has its key already, the symbol is
noted as a redefinition and dropped. -/
def declare (n : Names) (symbol : Symbol) (position : Position) : Names :=
  match n.scopes.define symbol.key symbol with
  | (true, scopes) => { n with scopes }
  | (false, _) => { n with redefinitions := n.redefinitions ++ [⟨symbol.key, position⟩] }

def bind (n : Names) (symbol : Symbol) : Names :=
  { n with scopes := (n.scopes.shadow symbol.key symbol).2 }

def isConstant (n : Names) (name : String) : Bool :=
  (n.scopes.lookup name).any Symbol.isPatternConstant

end Names

end FrontEnd
