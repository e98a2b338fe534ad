import FrontEnd.Proofs.Derivation
/-!
# Nodes

A node is any piece of a syntax tree. What holds at every node of a tree holds of the node itself
and at every node of its children.
-/
namespace FrontEnd

inductive Node
  | path (path : Path)
  | pattern (pattern : Pattern)
  | ty (ty : Ty)
  | expr (expr : Expr)
  | field (field : FieldValue)
  | block (block : Block)
  | condition (condition : Condition)
  | link (link : Link)
  | conditional (conditional : Conditional)
  | otherwise (otherwise : Otherwise)
  | arm (arm : Arm)
  | statement (statement : Stmt)
  | typedName (typedName : TypedName)
  | selfParam (selfParam : SelfParam)
  | function (function : FunctionDecl)
  | constant (constant : ConstantDecl)
  | member (member : Member)
  | item (item : Item)

def Pattern.children : Pattern → List Node
  | identifier _ _ _ sub _ => sub.toList.map .pattern
  | reference _ inner _ => [.pattern inner]
  | .path p => [.path p]
  | tupleStruct p elements _ => .path p :: elements.map .pattern
  | literal _ _ _ | wildcard _ => []

def Ty.children : Ty → List Node
  | .path p => [.path p]
  | reference _ target _ => [.ty target]
  | array element length _ => [.ty element, .expr length]
  | slice element _ => [.ty element]
  | tuple elements _ => elements.map .ty
  | never _ | inferred _ => []

def Expr.children : Expr → List Node
  | .path p => [.path p]
  | unary _ e _ | borrow _ e _ | deref e _ | grouped e _ | field e _ _ => [.expr e]
  | binary _ _ e f _ | assign e f _ | compoundAssign _ e f _ | arrayRepeat e f _ | index e f _ =>
    [.expr e, .expr f]
  | cast e t _ => [.expr e, .ty t]
  | array es _ => es.map .expr
  | structLiteral p fs _ => .path p :: fs.map .field
  | call e es _ | methodCall e _ es _ => .expr e :: es.map .expr
  | breakLoop v _ | returnValue v _ => v.toList.map .expr
  | .block b | constBlock b _ | loop b _ => [.block b]
  | .conditional c => [.conditional c]
  | matching e as _ => .expr e :: as.map .arm
  | whileLoop c b _ => [.condition c, .block b]
  | literal _ | continueLoop _ | underscore _ => []

def Condition.children : Condition → List Node
  | .expr e => [.expr e]
  | letChain links => links.map .link

def Otherwise.children : Otherwise → List Node
  | nothing => []
  | .conditional c => [.conditional c]
  | .block b => [.block b]

def Stmt.children : Stmt → List Node
  | empty _ => []
  | .item i => [.item i]
  | letBinding p a v _ => .pattern p :: (a.toList.map .ty ++ v.toList.map .expr)
  | .expr e _ _ => [.expr e]

def Item.children : Item → List Node
  | .function f => [.function f]
  | .constant c => [.constant c]
  | unitStruct _ _ | enum _ _ _ => []
  | struct _ fields _ => fields.map .typedName
  | trait _ members _ => members.map .member
  | impl _ target members _ => .ty target :: members.map .member

namespace Node

/-- The nodes right inside a node, in the order in which they are written. -/
def children : Node → List Node
  | path _ => []
  | pattern p => p.children
  | ty t => t.children
  | expr e => e.children
  | field f => [.expr f.value]
  | block b => b.statements.map .statement ++ b.tail.toList.map .expr
  | condition c => c.children
  | link l => l.pattern.toList.map .pattern ++ [.expr l.value]
  | conditional c => [.condition c.condition, .block c.body, .otherwise c.otherwise]
  | otherwise o => o.children
  | arm a => .pattern a.pattern :: (a.guard.toList.map .expr ++ [.expr a.body])
  | statement s => s.children
  | typedName n => [.ty n.ty]
  | selfParam s => s.ty.toList.map .ty
  | function f =>
    (f.selfParam.toList.map .selfParam ++ f.params.map .typedName) ++
      (f.result.toList.map .ty ++ f.body.toList.map .block)
  | constant c => .ty c.ty :: c.value.toList.map .expr
  | member (.function f) => [.function f]
  | member (.constant c) => [.constant c]
  | item i => i.children

/-- The first node is the second or stands somewhere inside it. -/
inductive Within : Node → Node → Prop
  | self (n : Node) : Within n n
  | inChild {m c n : Node} (hc : c ∈ n.children) (h : Within m c) : Within m n

/-- A property holds of a node and of all nodes inside it. -/
def Everywhere (P : Node → Prop) (n : Node) : Prop := ∀ m, m.Within n → P m

theorem everywhere_iff {P : Node → Prop} {n : Node} :
    n.Everywhere P ↔ P n ∧ ∀ c ∈ n.children, c.Everywhere P := by
  constructor
  · exact fun h => ⟨h n (.self n), fun c hc m hm => h m (.inChild hc hm)⟩
  · rintro ⟨hn, hchildren⟩ m hm
    cases hm with
    | self => exact hn
    | inChild hc hm => exact hchildren _ hc m hm

end Node

def Suffix.nodes : Suffix → List Node
  | binary _ e | assign e | compoundAssign _ e => [.expr e]
  | cast t => [.ty t]
  | call es _ | methodCall _ es _ => es.map .expr
  | index e _ => [.expr e]
  | field _ => []

theorem Suffix.children_attach (s : Suffix) (e : Expr) :
    (s.attach e).children = .expr e :: s.nodes := by
  cases s <;> rfl

def Form.nodes : (σ : Form) → σ.Tree → List Node
  | segment, _ | name, _ | flag _, _ => []
  | after _ form, a => a.toList.flatMap form.nodes
  | eachAfter _ form, as | list _ form, as | more _ form, as => as.flatMap form.nodes
  | path, p => [.path p]
  | ty, t => [.ty t]
  | pattern, p => [.pattern p]
  | expr _, e | term, e | statementExpr, e => [.expr e]
  | suffix, s => s.nodes
  | suffixes _, ss => ss.flatMap Suffix.nodes
  | field, f => [.field f]
  | jumpValue, v => v.toList.map .expr
  | block, b => [.block b]
  | element, s => [.statement s]
  | statement, s => s.children
  | elements, (ss, e) => ss.map .statement ++ e.toList.map .expr
  | letLink, l | link, l => [.link l]
  | condition, c => [.condition c]
  | conditional, c => [.conditional c]
  | otherwise, o => [.otherwise o]
  | arm, a => [.arm a]
  | arms, as => as.map .arm
  | typedName, n | param, n => [.typedName n]
  | selfParam, s => [.selfParam s]
  | params, (s, ps) => s.toList.map .selfParam ++ ps.map .typedName
  | body _, b => b.toList.map .block
  | function _, f => [.function f]
  | constant _, c => [.constant c]
  | member _, m => [.member m]
  | members _, ms => ms.map .member
  | item, i | declaredItem, i => [.item i]
  | items, is => is.map .item

end FrontEnd
