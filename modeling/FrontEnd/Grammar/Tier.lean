import FrontEnd.Tree.Basic
/-!
# Tiers of operators

An operator binds as tightly as its tier says. The operators of a tier group to the left, but for
the assignments, which group to the right.
-/
namespace FrontEnd

/-- Tiers from the loosest, which has no operators, to the tightest. -/
inductive Tier
  | lowest | assignment | logicalOr | logicalAnd | comparison | bitOr | bitXor | bitAnd | shift
  | additive | multiplicative | cast | unary | call | member | path
deriving DecidableEq

namespace Tier

def rank : Tier → Nat
  | lowest => 0 | assignment => 1 | logicalOr => 2 | logicalAnd => 3 | comparison => 4
  | bitOr => 5 | bitXor => 6 | bitAnd => 7 | shift => 8 | additive => 9 | multiplicative => 10
  | cast => 11 | unary => 12 | call => 13 | member => 14 | path => 15

instance : LT Tier := ⟨fun a b => a.rank < b.rank⟩

instance : LE Tier := ⟨fun a b => a.rank ≤ b.rank⟩

instance (a b : Tier) : Decidable (a < b) := inferInstanceAs (Decidable (a.rank < b.rank))

instance (a b : Tier) : Decidable (a ≤ b) := inferInstanceAs (Decidable (a.rank ≤ b.rank))

end Tier

namespace TokenKind

def tier? : TokenKind → Option Tier
  | assignment | plusEquals | minusEquals | starEquals | slashEquals | percentEquals
  | caretEquals | ampersandEquals | pipeEquals | shlEquals | shrEquals => some .assignment
  | orOr => some .logicalOr
  | andAnd => some .logicalAnd
  | equals | notEquals | less | lessEquals | greater | greaterEquals => some .comparison
  | pipe => some .bitOr
  | caret => some .bitXor
  | ampersand => some .bitAnd
  | shl | shr => some .shift
  | plus | dash => some .additive
  | star | slash | percent => some .multiplicative
  | kwAs => some .cast
  | openParen | openBracket => some .call
  | dot => some .member
  | _ => none

def family : TokenKind → OperatorFamily
  | orOr | andAnd => .lazyBoolean
  | equals | notEquals | less | lessEquals | greater | greaterEquals => .comparison
  | _ => .arithmetic

end TokenKind

end FrontEnd
