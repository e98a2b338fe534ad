import FrontEnd.Session
/-!
# What a reader is asked to do

The pieces of a program that can be read on their own, and the sessions that can come about: a
session starts before the first token and is then used in any way and order, also after errors.
-/
namespace FrontEnd

/-- A piece of a program that can be read on its own. -/
inductive Operation
  | expr (above : Tier)
  | statementExpr
  | ty
  | pattern
  | condition
  | block
  | constBlock
  | conditional
  | whileLoop
  | loop
  | matching
  | statement
  | letBinding
  | emptyStatement
  | declaredItem
  | item
  | function (allowSignature : Bool)
  | constant (inTrait : Bool)
  | path
  | term
  | operators (above : Tier) (left : Expr)
  | crate (file : String)

namespace Operation

abbrev Tree : Operation → Type
  | expr _ | statementExpr | constBlock | whileLoop | loop | matching | term | operators _ _ => Expr
  | ty => Ty
  | pattern => Pattern
  | condition => Condition
  | block => Block
  | conditional => Conditional
  | statement | letBinding | emptyStatement => Stmt
  | declaredItem | item => Item
  | function _ => FunctionDecl
  | constant _ => ConstantDecl
  | path => Path
  | crate _ => Crate

def phrase : (op : Operation) → Phrase op.Tree
  | expr above => Grammar.expr above
  | statementExpr => Grammar.statementExpr
  | ty => Grammar.ty
  | pattern => Grammar.pattern
  | condition => Grammar.condition
  | block => Grammar.block
  | constBlock => Grammar.constBlock
  | conditional => Grammar.conditional
  | whileLoop => Grammar.whileLoop
  | loop => Grammar.loop
  | matching => Grammar.matching
  | statement => Grammar.statement
  | letBinding => Grammar.letBinding
  | emptyStatement => Grammar.emptyStatement
  | declaredItem => Grammar.declaredItem
  | item => Grammar.item
  | function allowSignature => Grammar.function allowSignature
  | constant inTrait => Grammar.constant inTrait
  | path => Grammar.path
  | term => Grammar.term
  | operators above left => Grammar.operators above left
  | crate file => Grammar.crate file

/-- Bindings, items as statements, conditions and whole files bring names into the scope in which
they stand. A statement may be one of these. -/
def Declares : Operation → Prop
  | statement | letBinding | declaredItem | condition | crate _ => True
  | _ => False

end Operation

namespace Session

/-- A session that its user can have got to. -/
inductive Reachable : Session → Prop
  | start (tokens : List Token) (file : String) (options : ParseOptions) :
    Reachable (.start tokens file options)
  | read {s : Session} {α : Type} (p : Phrase α) (h : Reachable s) : Reachable (s.read p).2
  | eat {s : Session} (k : TokenKind) (h : Reachable s) : Reachable (s.eat k).2
  | enter {s : Session} (h : Reachable s) : Reachable s.enter.2
  | leave {s : Session} (h : Reachable s) : Reachable s.leave
  | allowStructLiterals {s : Session} (allowed : Bool) (h : Reachable s) :
    Reachable (s.allowStructLiterals allowed)
  | pushScope {s : Session} (h : Reachable s) : Reachable s.pushScope
  | popScope {s : Session} (h : Reachable s) : Reachable s.popScope
  | declare {s : Session} (symbol : Symbol) (h : Reachable s) : Reachable (s.declare symbol)
  | bind {s : Session} (symbol : Symbol) (h : Reachable s) : Reachable (s.bind symbol)

@[simp] theorem options_read {α : Type} (s : Session) (p : Phrase α) :
    (s.read p).2.options = s.options := by
  unfold read
  cases p.read s.options s.state <;> rfl

end Session

end FrontEnd
