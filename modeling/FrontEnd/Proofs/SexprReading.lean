import FrontEnd.Grammar.Path
import FrontEnd.Grammar.Tier
import FrontEnd.Proofs.LongestLexeme
import FrontEnd.Proofs.Tree.Shown
/-!
# Trees read from s-expressions

An s-expression does not say of which sort its tree is, and the same head stands for different nodes
in different places: `(const b)` is a block, `(const x T e)` an item. So it is read as all sorts at
once, and the place where it stands takes the reading that it asks for. What the reading is where an
s-expression means nothing of the sort does not matter.
-/
namespace FrontEnd

open Lexeme (kindOf)

def Token.ofText (text : String) : Token := ⟨kindOf text, text, .nowhere⟩

@[simp] theorem Token.kind_ofText (text : String) : (ofText text).kind = kindOf text := rfl

@[simp] theorem Token.value_ofText (text : String) : (ofText text).value = text := rfl

def Path.ofText (text : String) : Path :=
  let words := (text.toList.splitOnP (· = ':')).filter (· ≠ [])
  ⟨words.map fun cs => .ofText (String.ofList cs), .nowhere⟩

namespace Sexpr

def patternOfWord (word : String) : Pattern :=
  if word.toList.head? = some '-' then
    .literal (.ofText (String.ofList word.toList.tail)) true .nowhere
  else match kindOf word with
    | .identifier => .identifier (.ofText word) false false none .nowhere
    | .underscore => .wildcard (.ofText word)
    | _ => .literal (.ofText word) false .nowhere

def tyOfWord (word : String) : Ty :=
  match kindOf word with
  | .bang => .never (.ofText word)
  | .underscore => .inferred (.ofText word)
  | _ => .path (.ofText word)

def exprOfWord (word : String) : Expr :=
  let k := kindOf word
  if k.isLiteral then .literal (.ofText word)
  else if k = .underscore then .underscore (.ofText word)
  else if k = .kwContinue then .continueLoop (.ofText word)
  else .path (.ofText word)

/-- A part of a function after its name. -/
inductive FunctionPart
  | selfParam (selfParam : SelfParam)
  | param (param : TypedName)
  | result (result : Ty)
  | body (body : Block)

/-- What an s-expression means as a node of each sort. -/
structure Reading where
  /-- The word, if it is one. -/
  word : String := ""
  pattern : Pattern
  ty : Ty
  /-- Whether it can be a type at all. -/
  isType : Bool
  expr : Expr
  /-- The expression that stands first in a list. -/
  inner? : Option Expr := none
  /-- The value of the block in which it stands, if it is one. -/
  tail? : Option Expr := none
  condition : Condition := .expr expr
  link : Link := ⟨none, expr, .nowhere⟩
  field : FieldValue := ⟨.ofText word, expr, false⟩
  arm : Arm := ⟨pattern, none, expr, .nowhere⟩
  stmt : Stmt := .empty .nowhere
  typedName : TypedName := ⟨.ofText word, ty, .nowhere⟩
  part : FunctionPart := .param typedName
  member : Member := .constant ⟨.ofText word, ty, none, .nowhere⟩
  item : Item := .unitStruct (.ofText word) .nowhere

namespace Reading

def token (r : Reading) : Token := .ofText r.word

def path (r : Reading) : Path := .ofText r.word

def constant? (r : Reading) : Option Pattern :=
  if r.word.toList.head? ≠ some '-' ∧ kindOf r.word ∈ Grammar.pathSegments then some (.path r.path)
  else none

def isMark (r : Reading) : Bool := r.word ∈ ["ref", "mut", "@"]

def block (r : Reading) : Block :=
  match r.expr with
  | .block b => b
  | _ => ⟨[], none, .nowhere⟩

def otherwise (r : Reading) : Otherwise :=
  match r.expr with
  | .conditional c => .conditional c
  | .block b => .block b
  | _ => .nothing

def ofWord (word : String) : Reading where
  word := word
  pattern := patternOfWord word
  ty := tyOfWord word
  isType := kindOf word ≠ .semicolon
  expr := exprOfWord word

end Reading

section Lists

variable (head : Token) (parts : List Reading)

def takeMark (k : TokenKind) : Bool × List Reading :=
  match parts with
  | p :: ps => if p.token.kind = k then (true, ps) else (false, p :: ps)
  | [] => (false, [])

def bindingOf : Pattern :=
  let (byRef, parts) := takeMark parts .kwRef
  let (mutable, parts) := takeMark parts .kwMut
  match parts with
  | [name, _, sub] => .identifier name.token byRef mutable (some sub.pattern) .nowhere
  | name :: _ => .identifier name.token byRef mutable none .nowhere
  | [] => .wildcard head

/-- A list as a pattern. The heads of variants are what their author chose, so `bind` and `path` mean
themselves only with the parts that they have then. -/
def patternOf : Pattern :=
  let inner := (parts.head?.map Reading.pattern).getD (.wildcard head)
  let constant? := if head.value = "path" then lone? Reading.constant? parts else none
  if head.value = "&" then .reference false inner .nowhere
  else if head.value = "&mut" then .reference true inner .nowhere
  else if head.value = "bind" ∧ parts.any (·.isMark) then bindingOf head parts
  else constant?.getD (.tupleStruct (.ofText head.value) (parts.map Reading.pattern) .nowhere)

def typeHeads : List String := ["&", "&mut", "array", "slice", "tuple"]

def tyOf : Ty :=
  match head.value, parts with
  | "&", [target] => .reference false target.ty .nowhere
  | "&mut", [target] => .reference true target.ty .nowhere
  | "array", [element, length] => .array element.ty length.expr .nowhere
  | "slice", [element] => .slice element.ty .nowhere
  | "tuple", _ => .tuple (parts.map Reading.ty) .nowhere
  | _, _ => .inferred head

def blockOf : Block :=
  ⟨(parts.filter (·.tail?.isNone)).map Reading.stmt, parts.findSome? Reading.tail?, .nowhere⟩

def namedExprOf : Expr :=
  match head.value, parts with
  | "&mut", [operand] => .borrow true operand.expr .nowhere
  | "paren", [inner] => .grouped inner.expr .nowhere
  | "array", _ => .array (parts.map Reading.expr) .nowhere
  | "array-repeat", [value, length] => .arrayRepeat value.expr length.expr .nowhere
  | "index", [base, index] => .index base.expr index.expr .nowhere
  | "struct-literal", path :: fields =>
    .structLiteral path.path (fields.map Reading.field) .nowhere
  | "call", callee :: arguments => .call callee.expr (arguments.map Reading.expr) .nowhere
  | "method", receiver :: method :: arguments =>
    .methodCall receiver.expr method.token (arguments.map Reading.expr) .nowhere
  | "block", _ => .block (blockOf parts)
  | _, _ => .underscore head

def markedExprOf : Expr :=
  match head.kind, parts with
  | .identifier, _ => namedExprOf head parts
  | .ampersand, [operand] => .borrow false operand.expr .nowhere
  | .star, [operand] => .deref operand.expr .nowhere
  | .kwBreak, _ => .breakLoop (parts.head?.map Reading.expr) .nowhere
  | .kwReturn, _ => .returnValue (parts.head?.map Reading.expr) .nowhere
  | .kwConst, [block] => .constBlock block.block .nowhere
  | .kwIf, condition :: body :: rest =>
    let otherwise := (rest.head?.map Reading.otherwise).getD .nothing
    .conditional ⟨condition.condition, body.block, otherwise, .nowhere⟩
  | .kwMatch, scrutinee :: arms => .matching scrutinee.expr (arms.map Reading.arm) .nowhere
  | .kwLoop, [body] => .loop body.block .nowhere
  | .kwWhile, [condition, body] => .whileLoop condition.condition body.block .nowhere
  | _, [operand] => .unary head operand.expr .nowhere
  | _, _ => .underscore head

def exprOf : Expr :=
  match head.kind.tier?, parts with
  | some .assignment, [assignee, value] =>
    if head.kind = .assignment then .assign assignee.expr value.expr .nowhere
    else .compoundAssign head assignee.expr value.expr .nowhere
  | some .cast, [operand, target] => .cast operand.expr target.ty .nowhere
  | some .member, [base, field] => .field base.expr field.token .nowhere
  | some _, [left, right] => .binary head.kind.family head left.expr right.expr .nowhere
  | _, _ => markedExprOf head parts

def linkOf : Link :=
  match head.kind, parts with
  | .kwLet, [pattern, value] => ⟨some pattern.pattern, value.expr, .nowhere⟩
  | _, _ => ⟨none, exprOf head parts, .nowhere⟩

def conditionOf : Condition :=
  if head.value = "let-chain" then .letChain (parts.map Reading.link)
  else .expr (exprOf head parts)

def armOf : Arm :=
  match parts with
  | [pattern, guard, body] => ⟨pattern.pattern, guard.inner?, body.expr, .nowhere⟩
  | [pattern, body] => ⟨pattern.pattern, none, body.expr, .nowhere⟩
  | _ => ⟨.wildcard head, none, .underscore head, .nowhere⟩

def firstTy : Ty := (parts.head?.map Reading.ty).getD (.inferred head)

/-- A list as a part of a function. A parameter may be named `block`, but then a type follows. -/
def partOf : FunctionPart :=
  match head.kind with
  | .arrow => .result (firstTy head parts)
  | .kwSelfValue => .selfParam ⟨false, false, parts.head?.map Reading.ty, .nowhere⟩
  | .kwMut => .selfParam ⟨false, true, parts.tail.head?.map Reading.ty, .nowhere⟩
  | _ =>
    if head.value = "&self" then .selfParam ⟨true, false, none, .nowhere⟩
    else if head.value = "&mut" then .selfParam ⟨true, true, none, .nowhere⟩
    else if head.value = "block" ∧ ¬parts.any Reading.isType then .body (blockOf parts)
    else .param ⟨head, firstTy head parts, .nowhere⟩

end Lists

namespace FunctionPart

def selfParam? : FunctionPart → Option SelfParam
  | selfParam s => some s
  | _ => none

def param? : FunctionPart → Option TypedName
  | param n => some n
  | _ => none

def result? : FunctionPart → Option Ty
  | result t => some t
  | _ => none

def body? : FunctionPart → Option Block
  | body b => some b
  | _ => none

end FunctionPart

section Items

variable (head : Token) (parts : List Reading)

def firstToken : Token := (parts.head?.map Reading.token).getD head

def functionOf : FunctionDecl :=
  let rest := parts.tail.map Reading.part
  ⟨head.value = "const-fn", firstToken head parts, rest.findSome? FunctionPart.selfParam?,
    rest.filterMap FunctionPart.param?, rest.findSome? FunctionPart.result?,
    rest.findSome? FunctionPart.body?, .nowhere⟩

def constantOf : ConstantDecl :=
  ⟨firstToken head parts, firstTy head parts.tail, parts.tail.tail.head?.map Reading.expr, .nowhere⟩

def memberOf : Member :=
  if head.kind = .kwConst then .constant (constantOf head parts)
  else .function (functionOf head parts)

def implOf : Item :=
  match parts with
  | name :: mark :: target :: members =>
    if mark.word = "for" then
      .impl (some name.token) target.ty (members.map Reading.member) .nowhere
    else .impl none name.ty ((mark :: target :: members).map Reading.member) .nowhere
  | target :: members => .impl none target.ty (members.map Reading.member) .nowhere
  | [] => .impl none (.inferred head) [] .nowhere

def itemOf : Item :=
  let name := firstToken head parts
  match head.kind with
  | .kwStruct =>
    if parts.tail.any (·.word = "unit") then .unitStruct name .nowhere
    else .struct name (parts.tail.map Reading.typedName) .nowhere
  | .kwEnum => .enum name (parts.tail.map Reading.token) .nowhere
  | .kwTrait => .trait name (parts.tail.map Reading.member) .nowhere
  | .kwImpl => implOf head parts
  | .kwConst => .constant (constantOf head parts)
  | _ => .function (functionOf head parts)

/-- Whether a list is an item and no expression. -/
def isItem : Bool :=
  head.kind ∈ [TokenKind.kwFn, .kwStruct, .kwEnum, .kwTrait, .kwImpl] || head.value = "const-fn" ||
    head.kind = .kwConst && 2 ≤ parts.length

def letOf : Stmt :=
  match parts with
  | [pattern] => .letBinding pattern.pattern none none .nowhere
  | [pattern, value] => .letBinding pattern.pattern none (some value.expr) .nowhere
  | pattern :: _ :: ty :: value =>
    .letBinding pattern.pattern (some ty.ty) (value.head?.map Reading.expr) .nowhere
  | [] => .empty .nowhere

def stmtOf : Stmt :=
  if isItem head parts then .item (itemOf head parts)
  else match head.kind, parts with
    | .kwLet, _ => letOf parts
    | .semicolon, [e] => .expr e.expr true .nowhere
    | _, _ => .expr (exprOf head parts) false .nowhere

def Reading.ofParts : Reading where
  pattern := patternOf head parts
  ty := tyOf head parts
  isType := head.value ∈ typeHeads
  expr := exprOf head parts
  inner? := parts.head?.map Reading.expr
  tail? := if head.value = "tail" then parts.head?.map Reading.expr else none
  condition := conditionOf head parts
  link := linkOf head parts
  field := ⟨head, (parts.head?.map Reading.expr).getD (.underscore head), false⟩
  arm := armOf head parts
  stmt := stmtOf head parts
  typedName := ⟨head, firstTy head parts, .nowhere⟩
  part := partOf head parts
  member := memberOf head parts
  item := itemOf head parts

end Items

mutual
def reading : Sexpr → Reading
  | .atom word => .ofWord word
  | .list items =>
    match readings items with
    | [] => .ofWord ""
    | head :: parts => .ofParts head.token parts
def readings : List Sexpr → List Reading
  | [] => []
  | s :: items => s.reading :: readings items
end

end Sexpr

end FrontEnd
