import FrontEnd.Tree.Pattern
/-!
# Syntax trees

Types, expressions, statements and items refer to each other: an array type holds its length, a
block holds items. Every node knows the text that it covers, either by a span of its own or by the
token or path that it consists of.
-/
namespace FrontEnd

/-- What the operator of two operands computes with. -/
inductive OperatorFamily
  /-- Numbers and bits: `+ - * / % & | ^ << >>`. -/
  | arithmetic
  /-- Order and equality: `== != < <= > >=`. -/
  | comparison
  /-- Truth: `&&` and `||`, which may leave the right operand alone. -/
  | lazyBoolean
deriving DecidableEq

mutual
/-- A type. A type in parentheses is the type itself. -/
inductive Ty
  | path (path : Path)
  /-- A reference: `&T` or `&mut T`. -/
  | reference (mutable : Bool) (target : Ty) (span : Span)
  /-- An array: `[T; N]`. -/
  | array (element : Ty) (length : Expr) (span : Span)
  /-- A slice: `[T]`. -/
  | slice (element : Ty) (span : Span)
  /-- A tuple: `()`, `(A,)` or `(A, B)`. -/
  | tuple (elements : List Ty) (span : Span)
  /-- The type `!` of what never ends. -/
  | never (token : Token)
  /-- The type `_`, which is left to be found. -/
  | inferred (token : Token)
inductive Expr
  | literal (token : Token)
  | path (path : Path)
  /-- An operator and its only operand: `-e` or `!e`. -/
  | unary (operator : Token) (operand : Expr) (span : Span)
  /-- A borrow: `&e` or `&mut e`. -/
  | borrow (mutable : Bool) (operand : Expr) (span : Span)
  /-- What a reference points to: `*e`. -/
  | deref (operand : Expr) (span : Span)
  | binary (family : OperatorFamily) (operator : Token) (left right : Expr) (span : Span)
  /-- A cast: `e as T`. -/
  | cast (operand : Expr) (target : Ty) (span : Span)
  /-- An assignment: `e = v`. -/
  | assign (assignee value : Expr) (span : Span)
  /-- An assignment that computes: `e += v` and its like. -/
  | compoundAssign (operator : Token) (assignee value : Expr) (span : Span)
  /-- An expression in parentheses. -/
  | grouped (inner : Expr) (span : Span)
  /-- An array of stated elements: `[a, b]`. -/
  | array (elements : List Expr) (span : Span)
  /-- An array of one value again and again: `[v; n]`. -/
  | arrayRepeat (value length : Expr) (span : Span)
  /-- An element: `e[i]`. -/
  | index (base index : Expr) (span : Span)
  /-- A struct with its fields: `P { a: e, b }`. -/
  | structLiteral (path : Path) (fields : List FieldValue) (span : Span)
  /-- A call: `f(a, b)`. -/
  | call (callee : Expr) (arguments : List Expr) (span : Span)
  /-- A call of a method: `e.m(a, b)`. -/
  | methodCall (receiver : Expr) (method : Token) (arguments : List Expr) (span : Span)
  /-- A field by its name or its number: `e.name` or `e.0`. -/
  | field (base : Expr) (field : Token) (span : Span)
  | breakLoop (value : Option Expr) (span : Span)
  | continueLoop (token : Token)
  | returnValue (value : Option Expr) (span : Span)
  /-- The `_` that an assignment may have on its left. -/
  | underscore (token : Token)
  | block (block : Block)
  /-- A block after `const`. -/
  | constBlock (block : Block) (span : Span)
  | conditional (conditional : Conditional)
  | matching (scrutinee : Expr) (arms : List Arm) (span : Span)
  | loop (body : Block) (span : Span)
  | whileLoop (condition : Condition) (body : Block) (span : Span)
/-- A field of a struct literal. The shorthand `name` has the variable of that name as its value. -/
structure FieldValue where
  name : Token
  value : Expr
  shorthand : Bool
/-- Statements between braces and, if it has one, the expression that is its value. -/
structure Block where
  statements : List Stmt
  tail : Option Expr
  span : Span
inductive Condition
  | expr (expr : Expr)
  /-- Links between `&&`: `let p = e && c && let q = f`. -/
  | letChain (links : List Link)
/-- One link of a let-chain; without a pattern it is a plain condition. -/
structure Link where
  pattern : Option Pattern
  value : Expr
  span : Span
structure Conditional where
  condition : Condition
  body : Block
  otherwise : Otherwise
  span : Span
/-- What follows the first branch of an `if`. -/
inductive Otherwise
  | nothing
  | conditional (conditional : Conditional)
  | block (block : Block)
structure Arm where
  pattern : Pattern
  guard : Option Expr
  body : Expr
  span : Span
/-- A statement. An expression without semicolon is one that ends in a block. -/
inductive Stmt
  | empty (span : Span)
  | item (item : Item)
  | letBinding (pattern : Pattern) (ty : Option Ty) (value : Option Expr) (span : Span)
  | expr (expr : Expr) (semicolon : Bool) (span : Span)
structure TypedName where
  name : Token
  ty : Ty
  span : Span
structure SelfParam where
  byRef : Bool
  mutable : Bool
  ty : Option Ty
  span : Span
structure FunctionDecl where
  isConst : Bool
  name : Token
  selfParam : Option SelfParam
  params : List TypedName
  result : Option Ty
  body : Option Block
  span : Span
/-- A constant: `const NAME: T = e;`. In a trait the value may be left out. -/
structure ConstantDecl where
  name : Token
  ty : Ty
  value : Option Expr
  span : Span
inductive Member
  | constant (constant : ConstantDecl)
  | function (function : FunctionDecl)
/-- A declaration at the top level or in a block. -/
inductive Item
  | function (function : FunctionDecl)
  /-- A struct without fields: `struct Name;`. -/
  | unitStruct (name : Token) (span : Span)
  | struct (name : Token) (fields : List TypedName) (span : Span)
  | enum (name : Token) (variants : List Token) (span : Span)
  | constant (constant : ConstantDecl)
  | trait (name : Token) (members : List Member) (span : Span)
  /-- An impl, of a type alone or of a trait for a type: `impl T` or `impl Trait for T`. -/
  | impl (traitName : Option Token) (target : Ty) (members : List Member) (span : Span)
end

structure Crate where
  items : List Item
  span : Span

/-- The text that a type covers; of a type in parentheses, that between them. -/
def Ty.span : Ty → Span
  | .path p => p.span
  | reference _ _ span => span
  | array _ _ span => span
  | slice _ span => span
  | tuple _ span => span
  | never token => token.span
  | inferred token => token.span

namespace Expr

def span : Expr → Span
  | literal token => token.span
  | .path p => p.span
  | unary _ _ span => span
  | borrow _ _ span => span
  | deref _ span => span
  | binary _ _ _ _ span => span
  | cast _ _ span => span
  | assign _ _ span => span
  | compoundAssign _ _ _ span => span
  | grouped _ span => span
  | array _ span => span
  | arrayRepeat _ _ span => span
  | index _ _ span => span
  | structLiteral _ _ span => span
  | call _ _ span => span
  | methodCall _ _ _ span => span
  | field _ _ span => span
  | breakLoop _ span => span
  | continueLoop token => token.span
  | returnValue _ span => span
  | underscore token => token.span
  | .block b => b.span
  | constBlock _ span => span
  | .conditional c => c.span
  | matching _ _ span => span
  | loop _ span => span
  | whileLoop _ _ span => span

/-- Whether an expression ends in a block, so that as a statement it needs no semicolon. -/
def isBlockLike : Expr → Bool
  | block _ => true
  | constBlock _ _ => true
  | conditional _ => true
  | matching _ _ _ => true
  | loop _ _ => true
  | whileLoop _ _ _ => true
  | _ => false

end Expr

namespace Item

def span : Item → Span
  | .function f => f.span
  | unitStruct _ span => span
  | struct _ _ span => span
  | enum _ _ span => span
  | .constant c => c.span
  | trait _ _ span => span
  | impl _ _ _ span => span

/-- The name that an item declares. An impl declares none. -/
def name? : Item → Option Token
  | .function f => some f.name
  | unitStruct name _ => some name
  | struct name _ _ => some name
  | enum name _ _ => some name
  | .constant c => some c.name
  | trait name _ _ => some name
  | impl _ _ _ _ => none

end Item

def Member.name : Member → Token
  | .constant c => c.name
  | .function f => f.name

def Stmt.span : Stmt → Span
  | empty span => span
  | .item i => i.span
  | letBinding _ _ _ span => span
  | expr _ _ span => span

end FrontEnd
