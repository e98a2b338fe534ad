import FrontEnd.Sexpr
import FrontEnd.Tree.Basic
/-!
# Syntax trees as s-expressions

A node is a list that begins with its operator or its name, so `a = b + c * d` reads
`(= a (+ b (* c d)))`. Tokens stand as they are written; spans do not show.
-/
namespace FrontEnd

open Sexpr (atom headed)

def Token.sexpr (t : Token) : Sexpr := atom t.value

def Path.sexpr (p : Path) : Sexpr := atom p.text

def referenceMark (mutable : Bool) : String := if mutable then "&mut" else "&"

def flagWord (flag : Bool) (word : String) : List Sexpr := if flag then [atom word] else []

mutual
def Pattern.sexpr : Pattern → Sexpr
  | .literal token negated _ => atom (if negated then "-" ++ token.value else token.value)
  | .identifier name false false none _ => name.sexpr
  | .identifier name byRef mutable none _ =>
    headed "bind" (flagWord byRef "ref" ++ flagWord mutable "mut" ++ [name.sexpr])
  | .identifier name byRef mutable (some sub) _ =>
    headed "bind" (flagWord byRef "ref" ++ flagWord mutable "mut" ++
      [name.sexpr, atom "@", sub.sexpr])
  | .wildcard _ => atom "_"
  | .reference mutable inner _ => headed (referenceMark mutable) [inner.sexpr]
  | .path path => headed "path" [path.sexpr]
  | .tupleStruct path elements _ => headed path.text (patternSexprs elements)
def patternSexprs : List Pattern → List Sexpr
  | [] => []
  | p :: ps => p.sexpr :: patternSexprs ps
end

def selfWords (byRef mutable : Bool) : List Sexpr :=
  match byRef, mutable with
  | true, true => [atom "&mut", atom "self"]
  | true, false => [atom "&self"]
  | false, true => [atom "mut", atom "self"]
  | false, false => [atom "self"]

mutual
def Ty.sexpr : Ty → Sexpr
  | .path path => path.sexpr
  | .reference mutable target _ => headed (referenceMark mutable) [target.sexpr]
  | .array element length _ => headed "array" [element.sexpr, length.sexpr]
  | .slice element _ => headed "slice" [element.sexpr]
  | .tuple elements _ => headed "tuple" (tySexprs elements)
  | .never _ => atom "!"
  | .inferred _ => atom "_"
def tySexprs : List Ty → List Sexpr
  | [] => []
  | t :: ts => t.sexpr :: tySexprs ts
def tySexpr? : Option Ty → List Sexpr
  | none => []
  | some t => [t.sexpr]
def Expr.sexpr : Expr → Sexpr
  | .literal token => token.sexpr
  | .path path => path.sexpr
  | .unary operator operand _ => headed operator.value [operand.sexpr]
  | .borrow mutable operand _ => headed (referenceMark mutable) [operand.sexpr]
  | .deref operand _ => headed "*" [operand.sexpr]
  | .binary _ operator left right _ => headed operator.value [left.sexpr, right.sexpr]
  | .cast operand target _ => headed "as" [operand.sexpr, target.sexpr]
  | .assign assignee value _ => headed "=" [assignee.sexpr, value.sexpr]
  | .compoundAssign operator assignee value _ =>
    headed operator.value [assignee.sexpr, value.sexpr]
  | .grouped inner _ => headed "paren" [inner.sexpr]
  | .array elements _ => headed "array" (exprSexprs elements)
  | .arrayRepeat value length _ => headed "array-repeat" [value.sexpr, length.sexpr]
  | .index base index _ => headed "index" [base.sexpr, index.sexpr]
  | .structLiteral path fields _ => headed "struct-literal" (path.sexpr :: fieldSexprs fields)
  | .call callee arguments _ => headed "call" (callee.sexpr :: exprSexprs arguments)
  | .methodCall receiver method arguments _ =>
    headed "method" (receiver.sexpr :: method.sexpr :: exprSexprs arguments)
  | .field base field _ => headed "." [base.sexpr, field.sexpr]
  | .breakLoop value _ => headed "break" (exprSexpr? value)
  | .continueLoop _ => atom "continue"
  | .returnValue value _ => headed "return" (exprSexpr? value)
  | .underscore _ => atom "_"
  | .block block => block.sexpr
  | .constBlock block _ => headed "const" [block.sexpr]
  | .conditional conditional => conditional.sexpr
  | .matching scrutinee arms _ => headed "match" (scrutinee.sexpr :: armSexprs arms)
  | .loop body _ => headed "loop" [body.sexpr]
  | .whileLoop condition body _ => headed "while" [condition.sexpr, body.sexpr]
def exprSexprs : List Expr → List Sexpr
  | [] => []
  | e :: es => e.sexpr :: exprSexprs es
def exprSexpr? : Option Expr → List Sexpr
  | none => []
  | some e => [e.sexpr]
/-- Each field of a struct literal; the shorthand does not show. -/
def fieldSexprs : List FieldValue → List Sexpr
  | [] => []
  | ⟨name, value, _⟩ :: fs => .list [name.sexpr, value.sexpr] :: fieldSexprs fs
def Block.sexpr : Block → Sexpr
  | ⟨statements, tail, _⟩ => headed "block" (stmtSexprs statements ++ tailSexpr? tail)
def tailSexpr? : Option Expr → List Sexpr
  | none => []
  | some e => [headed "tail" [e.sexpr]]
def blockSexpr? : Option Block → List Sexpr
  | none => []
  | some b => [b.sexpr]
def Condition.sexpr : Condition → Sexpr
  | .expr expr => expr.sexpr
  | .letChain links => headed "let-chain" (linkSexprs links)
def linkSexprs : List Link → List Sexpr
  | [] => []
  | ⟨none, value, _⟩ :: ls => value.sexpr :: linkSexprs ls
  | ⟨some pattern, value, _⟩ :: ls =>
    headed "let" [pattern.sexpr, value.sexpr] :: linkSexprs ls
def Conditional.sexpr : Conditional → Sexpr
  | ⟨condition, body, otherwise, _⟩ =>
    headed "if" ([condition.sexpr, body.sexpr] ++ otherwise.sexprs)
def Otherwise.sexprs : Otherwise → List Sexpr
  | .nothing => []
  | .conditional conditional => [conditional.sexpr]
  | .block block => [block.sexpr]
def armSexprs : List Arm → List Sexpr
  | [] => []
  | ⟨pattern, guard, body, _⟩ :: arms =>
    headed "arm" (pattern.sexpr :: guardSexpr? guard ++ [body.sexpr]) :: armSexprs arms
def guardSexpr? : Option Expr → List Sexpr
  | none => []
  | some e => [headed "if" [e.sexpr]]
def Stmt.sexpr : Stmt → Sexpr
  | .empty _ => atom ";"
  | .item item => item.sexpr
  | .letBinding pattern ty value _ =>
    headed "let" (pattern.sexpr :: annotationSexprs ty ++ exprSexpr? value)
  | .expr expr true _ => headed ";" [expr.sexpr]
  | .expr expr false _ => expr.sexpr
def stmtSexprs : List Stmt → List Sexpr
  | [] => []
  | s :: ss => s.sexpr :: stmtSexprs ss
def annotationSexprs : Option Ty → List Sexpr
  | none => []
  | some t => [atom ":", t.sexpr]
def typedNameSexprs : List TypedName → List Sexpr
  | [] => []
  | ⟨name, ty, _⟩ :: ns => .list [name.sexpr, ty.sexpr] :: typedNameSexprs ns
def selfSexpr? : Option SelfParam → List Sexpr
  | none => []
  | some ⟨byRef, mutable, ty, _⟩ => [.list (selfWords byRef mutable ++ tySexpr? ty)]
def resultSexpr? : Option Ty → List Sexpr
  | none => []
  | some t => [headed "->" [t.sexpr]]
def FunctionDecl.sexpr : FunctionDecl → Sexpr
  | ⟨isConst, name, selfParam, params, result, body, _⟩ =>
    headed (if isConst then "const-fn" else "fn") (name.sexpr :: selfSexpr? selfParam ++
      typedNameSexprs params ++ resultSexpr? result ++ blockSexpr? body)
def ConstantDecl.sexpr : ConstantDecl → Sexpr
  | ⟨name, ty, value, _⟩ => headed "const" ([name.sexpr, ty.sexpr] ++ exprSexpr? value)
def memberSexprs : List Member → List Sexpr
  | [] => []
  | .constant constant :: ms => constant.sexpr :: memberSexprs ms
  | .function function :: ms => function.sexpr :: memberSexprs ms
def Item.sexpr : Item → Sexpr
  | .function function => function.sexpr
  | .unitStruct name _ => headed "struct" [name.sexpr, atom "unit"]
  | .struct name fields _ => headed "struct" (name.sexpr :: typedNameSexprs fields)
  | .enum name variants _ => headed "enum" (name.sexpr :: variants.map Token.sexpr)
  | .constant constant => constant.sexpr
  | .trait name members _ => headed "trait" (name.sexpr :: memberSexprs members)
  | .impl none target members _ => headed "impl" (target.sexpr :: memberSexprs members)
  | .impl (some traitName) target members _ =>
    headed "impl" ([traitName.sexpr, atom "for", target.sexpr] ++ memberSexprs members)
end

def Crate.sexpr (c : Crate) : Sexpr := headed "crate" (c.items.map Item.sexpr)

end FrontEnd
