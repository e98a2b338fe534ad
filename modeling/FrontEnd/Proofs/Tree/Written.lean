import FrontEnd.Tree.Basic
/-!
# Writing trees as tokens

The one canonical way to write a tree down. A comma stands between the elements of a list and after
every arm of a `match`, but not after the last element of a list, unless it is the only element of a
tuple type. Types have no parentheses around them. A shared reference right around another reference
is written together with it as `&&`. Names, literals and operators are the tokens that the tree
keeps; all other tokens have their fixed spelling.
-/
namespace FrontEnd

/-- No place in particular. -/
def Span.nowhere : Span := ⟨.origin "", .origin ""⟩

/-- The token of a kind that has a fixed spelling. -/
def Token.fixed (k : TokenKind) : Token := ⟨k, k.spelling?.getD "", .nowhere⟩

@[simp] theorem Token.kind_fixed (k : TokenKind) : (Token.fixed k).kind = k := rfl

namespace Written

open Token (fixed)

def flag (k : TokenKind) (set : Bool) : List Token := if set then [fixed k] else []

def more (close : TokenKind) (rest : List (List Token)) : List Token :=
  rest.flatMap (fixed .comma :: ·) ++ [fixed close]

def list (close : TokenKind) : List (List Token) → List Token
  | [] => [fixed close]
  | first :: rest => first ++ more close rest

def eachAfter (separator : TokenKind) (pieces : List (List Token)) : List Token :=
  pieces.flatMap (fixed separator :: ·)

def after (k : TokenKind) : Option (List Token) → List Token
  | none => []
  | some piece => fixed k :: piece

def tuple : List (List Token) → List Token
  | [only] => only ++ [fixed .comma, fixed .closeParen]
  | pieces => list .closeParen pieces

end Written

open Token (fixed)

def Path.write (p : Path) : List Token :=
  match p.segments with
  | [] => []
  | first :: rest => first :: Written.eachAfter .pathSep (rest.map ([·]))

mutual
def Pattern.write : Pattern → List Token
  | .literal token negated _ => Written.flag .dash negated ++ [token]
  | .identifier name byRef mutable sub _ =>
    Written.flag .kwRef byRef ++ (Written.flag .kwMut mutable ++
      name :: Written.after .atSign (patternWrite? sub))
  | .wildcard token => [token]
  | .reference false (.reference mutable inner _) _ =>
    fixed .andAnd :: (Written.flag .kwMut mutable ++ inner.write)
  | .reference mutable inner _ => fixed .ampersand :: (Written.flag .kwMut mutable ++ inner.write)
  | .path path => path.write
  | .tupleStruct path elements _ =>
    path.write ++ fixed .openParen :: Written.list .closeParen (patternWrites elements)
def patternWrites : List Pattern → List (List Token)
  | [] => []
  | p :: ps => p.write :: patternWrites ps
def patternWrite? : Option Pattern → Option (List Token)
  | none => none
  | some p => some p.write
end

mutual
def Ty.write : Ty → List Token
  | .path path => path.write
  | .reference false (.reference mutable target _) _ =>
    fixed .andAnd :: (Written.flag .kwMut mutable ++ target.write)
  | .reference mutable target _ => fixed .ampersand :: (Written.flag .kwMut mutable ++ target.write)
  | .array element length _ =>
    fixed .openBracket :: (element.write ++ fixed .semicolon ::
      (length.write ++ [fixed .closeBracket]))
  | .slice element _ => fixed .openBracket :: (element.write ++ [fixed .closeBracket])
  | .tuple elements _ => fixed .openParen :: Written.tuple (tyWrites elements)
  | .never token => [token]
  | .inferred token => [token]
def tyWrites : List Ty → List (List Token)
  | [] => []
  | t :: ts => t.write :: tyWrites ts
def tyWrite? : Option Ty → Option (List Token)
  | none => none
  | some t => some t.write
def Expr.write : Expr → List Token
  | .literal token => [token]
  | .path path => path.write
  | .unary operator operand _ => operator :: operand.write
  | .borrow false (.borrow mutable operand _) _ =>
    fixed .andAnd :: (Written.flag .kwMut mutable ++ operand.write)
  | .borrow mutable operand _ => fixed .ampersand :: (Written.flag .kwMut mutable ++ operand.write)
  | .deref operand _ => fixed .star :: operand.write
  | .binary _ operator left right _ => left.write ++ operator :: right.write
  | .cast operand target _ => operand.write ++ fixed .kwAs :: target.write
  | .assign assignee value _ => assignee.write ++ fixed .assignment :: value.write
  | .compoundAssign operator assignee value _ => assignee.write ++ operator :: value.write
  | .grouped inner _ => fixed .openParen :: (inner.write ++ [fixed .closeParen])
  | .array elements _ => fixed .openBracket :: Written.list .closeBracket (exprWrites elements)
  | .arrayRepeat value length _ =>
    fixed .openBracket :: (value.write ++ fixed .semicolon ::
      (length.write ++ [fixed .closeBracket]))
  | .index base index _ => base.write ++ fixed .openBracket :: (index.write ++ [fixed .closeBracket])
  | .structLiteral path fields _ =>
    path.write ++ fixed .openCurly :: Written.list .closeCurly (fieldWrites fields)
  | .call callee arguments _ =>
    callee.write ++ fixed .openParen :: Written.list .closeParen (exprWrites arguments)
  | .methodCall receiver method arguments _ =>
    receiver.write ++ fixed .dot :: method :: fixed .openParen ::
      Written.list .closeParen (exprWrites arguments)
  | .field base field _ => base.write ++ [fixed .dot, field]
  | .breakLoop value _ => fixed .kwBreak :: (exprWrite? value).getD []
  | .continueLoop token => [token]
  | .returnValue value _ => fixed .kwReturn :: (exprWrite? value).getD []
  | .underscore token => [token]
  | .block block => block.write
  | .constBlock block _ => fixed .kwConst :: block.write
  | .conditional conditional => conditional.write
  | .matching scrutinee arms _ =>
    fixed .kwMatch :: (scrutinee.write ++ fixed .openCurly ::
      ((armWrites arms).flatten ++ [fixed .closeCurly]))
  | .loop body _ => fixed .kwLoop :: body.write
  | .whileLoop condition body _ => fixed .kwWhile :: (condition.write ++ body.write)
def exprWrites : List Expr → List (List Token)
  | [] => []
  | e :: es => e.write :: exprWrites es
def exprWrite? : Option Expr → Option (List Token)
  | none => none
  | some e => some e.write
def FieldValue.write : FieldValue → List Token
  | ⟨name, _, true⟩ => [name]
  | ⟨name, value, false⟩ => name :: fixed .colon :: value.write
def fieldWrites : List FieldValue → List (List Token)
  | [] => []
  | f :: fs => f.write :: fieldWrites fs
def Block.write : Block → List Token
  | ⟨statements, tail, _⟩ =>
    fixed .openCurly :: ((stmtWrites statements).flatten ++
      ((exprWrite? tail).getD [] ++ [fixed .closeCurly]))
def blockWrite? : Option Block → Option (List Token)
  | none => none
  | some b => some b.write
def Condition.write : Condition → List Token
  | .expr expr => expr.write
  | .letChain [] => []
  | .letChain (first :: rest) => first.write ++ Written.eachAfter .andAnd (linkWrites rest)
def Link.write : Link → List Token
  | ⟨none, value, _⟩ => value.write
  | ⟨some pattern, value, _⟩ =>
    fixed .kwLet :: (pattern.write ++ fixed .assignment :: value.write)
def linkWrites : List Link → List (List Token)
  | [] => []
  | l :: ls => l.write :: linkWrites ls
def Conditional.write : Conditional → List Token
  | ⟨condition, body, otherwise, _⟩ =>
    fixed .kwIf :: (condition.write ++ (body.write ++ otherwise.write))
def Otherwise.write : Otherwise → List Token
  | .nothing => []
  | .conditional conditional => fixed .kwElse :: conditional.write
  | .block block => fixed .kwElse :: block.write
def Arm.write : Arm → List Token
  | ⟨pattern, guard, body, _⟩ =>
    pattern.write ++ (Written.after .kwIf (exprWrite? guard) ++ fixed .fatArrow :: body.write)
def armWrites : List Arm → List (List Token)
  | [] => []
  | a :: as => (a.write ++ [fixed .comma]) :: armWrites as
def Stmt.write : Stmt → List Token
  | .empty _ => [fixed .semicolon]
  | .item item => item.write
  | .letBinding pattern ty value _ =>
    fixed .kwLet :: (pattern.write ++ (Written.after .colon (tyWrite? ty) ++
      (Written.after .assignment (exprWrite? value) ++ [fixed .semicolon])))
  | .expr expr semicolon _ => expr.write ++ Written.flag .semicolon semicolon
def stmtWrites : List Stmt → List (List Token)
  | [] => []
  | s :: ss => s.write :: stmtWrites ss
def TypedName.write : TypedName → List Token
  | ⟨name, ty, _⟩ => name :: fixed .colon :: ty.write
def typedNameWrites : List TypedName → List (List Token)
  | [] => []
  | n :: ns => n.write :: typedNameWrites ns
def SelfParam.write : SelfParam → List Token
  | ⟨byRef, mutable, ty, _⟩ =>
    Written.flag .ampersand byRef ++ (Written.flag .kwMut mutable ++
      fixed .kwSelfValue :: Written.after .colon (tyWrite? ty))
def selfWrites : Option SelfParam → List (List Token)
  | none => []
  | some p => [p.write]
def FunctionDecl.write : FunctionDecl → List Token
  | ⟨isConst, name, selfParam, params, result, body, _⟩ =>
    Written.flag .kwConst isConst ++ fixed .kwFn :: name :: fixed .openParen ::
      (Written.list .closeParen (selfWrites selfParam ++ typedNameWrites params) ++
        (Written.after .arrow (tyWrite? result) ++ (blockWrite? body).getD [fixed .semicolon]))
def ConstantDecl.write : ConstantDecl → List Token
  | ⟨name, ty, value, _⟩ =>
    fixed .kwConst :: name :: fixed .colon :: (ty.write ++
      (Written.after .assignment (exprWrite? value) ++ [fixed .semicolon]))
def Member.write : Member → List Token
  | .constant constant => constant.write
  | .function function => function.write
def memberWrites : List Member → List (List Token)
  | [] => []
  | m :: ms => m.write :: memberWrites ms
def Item.write : Item → List Token
  | .function function => function.write
  | .unitStruct name _ => [fixed .kwStruct, name, fixed .semicolon]
  | .struct name fields _ =>
    fixed .kwStruct :: name :: fixed .openCurly ::
      Written.list .closeCurly (typedNameWrites fields)
  | .enum name variants _ =>
    fixed .kwEnum :: name :: fixed .openCurly :: Written.list .closeCurly (variants.map ([·]))
  | .constant constant => constant.write
  | .trait name members _ =>
    fixed .kwTrait :: name :: fixed .openCurly ::
      ((memberWrites members).flatten ++ [fixed .closeCurly])
  | .impl none target members _ =>
    fixed .kwImpl :: (target.write ++ fixed .openCurly ::
      ((memberWrites members).flatten ++ [fixed .closeCurly]))
  | .impl (some traitName) target members _ =>
    fixed .kwImpl :: traitName :: fixed .kwFor :: (target.write ++ fixed .openCurly ::
      ((memberWrites members).flatten ++ [fixed .closeCurly]))
end

def Crate.write (c : Crate) : List Token := (c.items.map Item.write).flatten

section Lists

@[simp] theorem patternWrites_eq_map (ps : List Pattern) : patternWrites ps = ps.map Pattern.write := by
  induction ps with
  | nil => rfl
  | cons p ps ih => simp [patternWrites, ih]

@[simp] theorem patternWrite?_eq_map (p : Option Pattern) : patternWrite? p = p.map Pattern.write := by
  cases p <;> rfl

@[simp] theorem tyWrites_eq_map (ts : List Ty) : tyWrites ts = ts.map Ty.write := by
  induction ts with
  | nil => rfl
  | cons t ts ih => simp [tyWrites, ih]

@[simp] theorem tyWrite?_eq_map (t : Option Ty) : tyWrite? t = t.map Ty.write := by
  cases t <;> rfl

@[simp] theorem exprWrites_eq_map (es : List Expr) : exprWrites es = es.map Expr.write := by
  induction es with
  | nil => rfl
  | cons e es ih => simp [exprWrites, ih]

@[simp] theorem exprWrite?_eq_map (e : Option Expr) : exprWrite? e = e.map Expr.write := by
  cases e <;> rfl

@[simp] theorem fieldWrites_eq_map (fs : List FieldValue) :
    fieldWrites fs = fs.map FieldValue.write := by
  induction fs with
  | nil => rfl
  | cons f fs ih => simp [fieldWrites, ih]

@[simp] theorem blockWrite?_eq_map (b : Option Block) : blockWrite? b = b.map Block.write := by
  cases b <;> rfl

@[simp] theorem linkWrites_eq_map (ls : List Link) : linkWrites ls = ls.map Link.write := by
  induction ls with
  | nil => rfl
  | cons l ls ih => simp [linkWrites, ih]

@[simp] theorem armWrites_eq_map (as : List Arm) :
    armWrites as = as.map fun a => a.write ++ [fixed .comma] := by
  induction as with
  | nil => rfl
  | cons a as ih => simp [armWrites, ih]

@[simp] theorem stmtWrites_eq_map (ss : List Stmt) : stmtWrites ss = ss.map Stmt.write := by
  induction ss with
  | nil => rfl
  | cons s ss ih => simp [stmtWrites, ih]

@[simp] theorem typedNameWrites_eq_map (ns : List TypedName) :
    typedNameWrites ns = ns.map TypedName.write := by
  induction ns with
  | nil => rfl
  | cons n ns ih => simp [typedNameWrites, ih]

@[simp] theorem memberWrites_eq_map (ms : List Member) :
    memberWrites ms = ms.map Member.write := by
  induction ms with
  | nil => rfl
  | cons m ms ih => simp [memberWrites, ih]

end Lists

end FrontEnd
