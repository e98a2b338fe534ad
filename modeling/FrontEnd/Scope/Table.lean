import FrontEnd.Scope.Symbol
/-!
# Chained scopes

Scopes open and close in stack order. Each one but the root points to the scope around it, and a
name is looked up along these links. An open scope is known by its number, the root's being 0.
-/
namespace FrontEnd

/-- The names declared in one scope, and the scope around it. -/
structure Scope where
  parent : Option Nat
  symbols : List (String × Symbol)

namespace Scope

def find? (s : Scope) (name : String) : Option Symbol := s.symbols.lookup name

def insert (s : Scope) (name : String) (symbol : Symbol) : Scope :=
  { s with symbols := (name, symbol) :: s.symbols.filter (·.1 ≠ name) }

end Scope

/-- The open scopes, the root first and the innermost last. The root is always open. -/
structure ScopeTable where
  scopes : Array Scope
  size_pos : 0 < scopes.size

namespace ScopeTable

def empty : ScopeTable := ⟨#[⟨none, []⟩], by decide⟩

def depth (t : ScopeTable) : Nat := t.scopes.size

def current (t : ScopeTable) : Nat := t.depth - 1

def innermost (t : ScopeTable) : Scope := t.scopes.back t.size_pos

def parentOf? (t : ScopeTable) (id : Nat) : Option Nat := t.scopes[id]?.bind Scope.parent

def push (t : ScopeTable) : ScopeTable :=
  ⟨t.scopes.push ⟨some t.current, []⟩, by simp⟩

/-- Closes the innermost scope and forgets its names. The root stays open, and then the answer is
`false`. -/
def pop (t : ScopeTable) : Bool × ScopeTable :=
  if h : t.scopes.size = 1 then (false, t)
  else (true, ⟨t.scopes.pop, by have := t.size_pos; simp; omega⟩)

def insert (t : ScopeTable) (name : String) (symbol : Symbol) : ScopeTable :=
  ⟨t.scopes.modify t.current (·.insert name symbol), by simpa using t.size_pos⟩

def lookupLocal (t : ScopeTable) (name : String) : Option Symbol := t.innermost.find? name

/-- Follows the links outward from a scope, at most `fuel` scopes in all. -/
def lookupFrom (t : ScopeTable) (name : String) : (fuel id : Nat) → Option Symbol
  | 0, _ => none
  | fuel + 1, id => do
    let scope ← t.scopes[id]?
    match scope.find? name with
    | some symbol => some symbol
    | none => t.lookupFrom name fuel (← scope.parent)

/-- The symbol of a name in the nearest scope that has it, from the innermost outward. -/
def lookup (t : ScopeTable) (name : String) : Option Symbol := t.lookupFrom name t.depth t.current

/-- Declares a name in the innermost scope. If the scope has it already, nothing changes and the
answer says so. Scopes around it do not matter. -/
def define (t : ScopeTable) (name : String) (symbol : Symbol) : Bool × ScopeTable :=
  if (t.lookupLocal name).isSome then (false, t) else (true, t.insert name symbol)

/-- Declares a name in the innermost scope in place of an earlier one, which is the answer. -/
def shadow (t : ScopeTable) (name : String) (symbol : Symbol) : Option Symbol × ScopeTable :=
  (t.lookupLocal name, t.insert name symbol)

end ScopeTable

end FrontEnd
