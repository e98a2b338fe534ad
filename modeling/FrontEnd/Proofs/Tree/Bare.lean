import FrontEnd.Proofs.Tree.Written
import FrontEnd.Scope.Symbol
/-!
# Trees without spans

What is left of a tree or a token when all places are forgotten. Two trees that are equal but for
their spans are the same bare tree.
-/
namespace FrontEnd

def Token.bare (t : Token) : Token := ⟨t.kind, t.value, .nowhere⟩

@[simp] theorem Token.kind_bare (t : Token) : t.bare.kind = t.kind := rfl

@[simp] theorem Token.value_bare (t : Token) : t.bare.value = t.value := rfl

@[simp] theorem Token.bare_fixed (k : TokenKind) : (fixed k).bare = fixed k := rfl

def Path.bare (p : Path) : Path := ⟨p.segments.map Token.bare, .nowhere⟩

mutual
def Pattern.bare : Pattern → Pattern
  | .literal token negated _ => .literal token.bare negated .nowhere
  | .identifier name byRef mutable sub _ =>
    .identifier name.bare byRef mutable (patternBare? sub) .nowhere
  | .wildcard token => .wildcard token.bare
  | .reference mutable inner _ => .reference mutable inner.bare .nowhere
  | .path path => .path path.bare
  | .tupleStruct path elements _ => .tupleStruct path.bare (patternBares elements) .nowhere
def patternBares : List Pattern → List Pattern
  | [] => []
  | p :: ps => p.bare :: patternBares ps
def patternBare? : Option Pattern → Option Pattern
  | none => none
  | some p => some p.bare
end

mutual
def Ty.bare : Ty → Ty
  | .path path => .path path.bare
  | .reference mutable target _ => .reference mutable target.bare .nowhere
  | .array element length _ => .array element.bare length.bare .nowhere
  | .slice element _ => .slice element.bare .nowhere
  | .tuple elements _ => .tuple (tyBares elements) .nowhere
  | .never token => .never token.bare
  | .inferred token => .inferred token.bare
def tyBares : List Ty → List Ty
  | [] => []
  | t :: ts => t.bare :: tyBares ts
def tyBare? : Option Ty → Option Ty
  | none => none
  | some t => some t.bare
def Expr.bare : Expr → Expr
  | .literal token => .literal token.bare
  | .path path => .path path.bare
  | .unary operator operand _ => .unary operator.bare operand.bare .nowhere
  | .borrow mutable operand _ => .borrow mutable operand.bare .nowhere
  | .deref operand _ => .deref operand.bare .nowhere
  | .binary family operator left right _ =>
    .binary family operator.bare left.bare right.bare .nowhere
  | .cast operand target _ => .cast operand.bare target.bare .nowhere
  | .assign assignee value _ => .assign assignee.bare value.bare .nowhere
  | .compoundAssign operator assignee value _ =>
    .compoundAssign operator.bare assignee.bare value.bare .nowhere
  | .grouped inner _ => .grouped inner.bare .nowhere
  | .array elements _ => .array (exprBares elements) .nowhere
  | .arrayRepeat value length _ => .arrayRepeat value.bare length.bare .nowhere
  | .index base index _ => .index base.bare index.bare .nowhere
  | .structLiteral path fields _ => .structLiteral path.bare (fieldBares fields) .nowhere
  | .call callee arguments _ => .call callee.bare (exprBares arguments) .nowhere
  | .methodCall receiver method arguments _ =>
    .methodCall receiver.bare method.bare (exprBares arguments) .nowhere
  | .field base field _ => .field base.bare field.bare .nowhere
  | .breakLoop value _ => .breakLoop (exprBare? value) .nowhere
  | .continueLoop token => .continueLoop token.bare
  | .returnValue value _ => .returnValue (exprBare? value) .nowhere
  | .underscore token => .underscore token.bare
  | .block block => .block block.bare
  | .constBlock block _ => .constBlock block.bare .nowhere
  | .conditional conditional => .conditional conditional.bare
  | .matching scrutinee arms _ => .matching scrutinee.bare (armBares arms) .nowhere
  | .loop body _ => .loop body.bare .nowhere
  | .whileLoop condition body _ => .whileLoop condition.bare body.bare .nowhere
def exprBares : List Expr → List Expr
  | [] => []
  | e :: es => e.bare :: exprBares es
def exprBare? : Option Expr → Option Expr
  | none => none
  | some e => some e.bare
def FieldValue.bare : FieldValue → FieldValue
  | ⟨name, value, shorthand⟩ => ⟨name.bare, value.bare, shorthand⟩
def fieldBares : List FieldValue → List FieldValue
  | [] => []
  | f :: fs => f.bare :: fieldBares fs
def Block.bare : Block → Block
  | ⟨statements, tail, _⟩ => ⟨stmtBares statements, exprBare? tail, .nowhere⟩
def blockBare? : Option Block → Option Block
  | none => none
  | some b => some b.bare
def Condition.bare : Condition → Condition
  | .expr expr => .expr expr.bare
  | .letChain links => .letChain (linkBares links)
def Link.bare : Link → Link
  | ⟨pattern, value, _⟩ => ⟨patternBare? pattern, value.bare, .nowhere⟩
def linkBares : List Link → List Link
  | [] => []
  | l :: ls => l.bare :: linkBares ls
def Conditional.bare : Conditional → Conditional
  | ⟨condition, body, otherwise, _⟩ => ⟨condition.bare, body.bare, otherwise.bare, .nowhere⟩
def Otherwise.bare : Otherwise → Otherwise
  | .nothing => .nothing
  | .conditional conditional => .conditional conditional.bare
  | .block block => .block block.bare
def Arm.bare : Arm → Arm
  | ⟨pattern, guard, body, _⟩ => ⟨pattern.bare, exprBare? guard, body.bare, .nowhere⟩
def armBares : List Arm → List Arm
  | [] => []
  | a :: as => a.bare :: armBares as
def Stmt.bare : Stmt → Stmt
  | .empty _ => .empty .nowhere
  | .item item => .item item.bare
  | .letBinding pattern ty value _ =>
    .letBinding pattern.bare (tyBare? ty) (exprBare? value) .nowhere
  | .expr expr semicolon _ => .expr expr.bare semicolon .nowhere
def stmtBares : List Stmt → List Stmt
  | [] => []
  | s :: ss => s.bare :: stmtBares ss
def TypedName.bare : TypedName → TypedName
  | ⟨name, ty, _⟩ => ⟨name.bare, ty.bare, .nowhere⟩
def typedNameBares : List TypedName → List TypedName
  | [] => []
  | n :: ns => n.bare :: typedNameBares ns
def SelfParam.bare : SelfParam → SelfParam
  | ⟨byRef, mutable, ty, _⟩ => ⟨byRef, mutable, tyBare? ty, .nowhere⟩
def selfBare? : Option SelfParam → Option SelfParam
  | none => none
  | some p => some p.bare
def FunctionDecl.bare : FunctionDecl → FunctionDecl
  | ⟨isConst, name, selfParam, params, result, body, _⟩ =>
    ⟨isConst, name.bare, selfBare? selfParam, typedNameBares params, tyBare? result,
      blockBare? body, .nowhere⟩
def ConstantDecl.bare : ConstantDecl → ConstantDecl
  | ⟨name, ty, value, _⟩ => ⟨name.bare, ty.bare, exprBare? value, .nowhere⟩
def Member.bare : Member → Member
  | .constant constant => .constant constant.bare
  | .function function => .function function.bare
def memberBares : List Member → List Member
  | [] => []
  | m :: ms => m.bare :: memberBares ms
def Item.bare : Item → Item
  | .function function => .function function.bare
  | .unitStruct name _ => .unitStruct name.bare .nowhere
  | .struct name fields _ => .struct name.bare (typedNameBares fields) .nowhere
  | .enum name variants _ => .enum name.bare (variants.map Token.bare) .nowhere
  | .constant constant => .constant constant.bare
  | .trait name members _ => .trait name.bare (memberBares members) .nowhere
  | .impl traitName target members _ =>
    .impl (traitName.map Token.bare) target.bare (memberBares members) .nowhere
end

def Crate.bare (c : Crate) : Crate := ⟨c.items.map Item.bare, .nowhere⟩

section Lists

@[simp] theorem patternBares_eq_map (ps : List Pattern) : patternBares ps = ps.map Pattern.bare := by
  induction ps with
  | nil => rfl
  | cons p ps ih => simp [patternBares, ih]

@[simp] theorem patternBare?_eq_map (p : Option Pattern) : patternBare? p = p.map Pattern.bare := by
  cases p <;> rfl

@[simp] theorem tyBares_eq_map (ts : List Ty) : tyBares ts = ts.map Ty.bare := by
  induction ts with
  | nil => rfl
  | cons t ts ih => simp [tyBares, ih]

@[simp] theorem tyBare?_eq_map (t : Option Ty) : tyBare? t = t.map Ty.bare := by
  cases t <;> rfl

@[simp] theorem exprBares_eq_map (es : List Expr) : exprBares es = es.map Expr.bare := by
  induction es with
  | nil => rfl
  | cons e es ih => simp [exprBares, ih]

@[simp] theorem exprBare?_eq_map (e : Option Expr) : exprBare? e = e.map Expr.bare := by
  cases e <;> rfl

@[simp] theorem fieldBares_eq_map (fs : List FieldValue) :
    fieldBares fs = fs.map FieldValue.bare := by
  induction fs with
  | nil => rfl
  | cons f fs ih => simp [fieldBares, ih]

@[simp] theorem blockBare?_eq_map (b : Option Block) : blockBare? b = b.map Block.bare := by
  cases b <;> rfl

@[simp] theorem linkBares_eq_map (ls : List Link) : linkBares ls = ls.map Link.bare := by
  induction ls with
  | nil => rfl
  | cons l ls ih => simp [linkBares, ih]

@[simp] theorem armBares_eq_map (as : List Arm) : armBares as = as.map Arm.bare := by
  induction as with
  | nil => rfl
  | cons a as ih => simp [armBares, ih]

@[simp] theorem stmtBares_eq_map (ss : List Stmt) : stmtBares ss = ss.map Stmt.bare := by
  induction ss with
  | nil => rfl
  | cons s ss ih => simp [stmtBares, ih]

@[simp] theorem typedNameBares_eq_map (ns : List TypedName) :
    typedNameBares ns = ns.map TypedName.bare := by
  induction ns with
  | nil => rfl
  | cons n ns ih => simp [typedNameBares, ih]

@[simp] theorem selfBare?_eq_map (p : Option SelfParam) : selfBare? p = p.map SelfParam.bare := by
  cases p <;> rfl

@[simp] theorem memberBares_eq_map (ms : List Member) :
    memberBares ms = ms.map Member.bare := by
  induction ms with
  | nil => rfl
  | cons m ms ih => simp [memberBares, ih]

end Lists

theorem Path.text_bare (p : Path) : p.bare.text = p.text := by
  simp [bare, text, Function.comp_def]

@[simp] theorem Token.sexpr_bare (t : Token) : t.bare.sexpr = t.sexpr := rfl

@[simp] theorem Path.sexpr_bare (p : Path) : p.bare.sexpr = p.sexpr := by
  simp [sexpr, text_bare]

mutual
/-- Spans do not show in an s-expression. -/
theorem Pattern.sexpr_bare : ∀ p : Pattern, p.bare.sexpr = p.sexpr
  | .literal _ _ _ | .wildcard _ | .path _ => by simp [Pattern.bare, Pattern.sexpr]
  | .identifier _ byRef mutable none _ => by
    cases byRef <;> cases mutable <;> simp [Pattern.bare, Pattern.sexpr]
  | .identifier _ byRef mutable (some sub) _ => by
    cases byRef <;> cases mutable <;> simp [Pattern.bare, Pattern.sexpr, sub.sexpr_bare]
  | .reference _ inner _ => by simp [Pattern.bare, Pattern.sexpr, inner.sexpr_bare]
  | .tupleStruct path elements _ => by
    simp only [Pattern.bare, Pattern.sexpr, Path.text_bare, patternSexprs_bare elements]
theorem patternSexprs_bare : ∀ ps : List Pattern, patternSexprs (patternBares ps) = patternSexprs ps
  | [] => rfl
  | p :: ps => by simp only [patternBares, patternSexprs, p.sexpr_bare, patternSexprs_bare ps]
end

mutual
theorem Ty.sexpr_bare : ∀ t : Ty, t.bare.sexpr = t.sexpr
  | .path _ | .never _ | .inferred _ => by simp [Ty.bare, Ty.sexpr]
  | .reference _ target _ => by simp [Ty.bare, Ty.sexpr, target.sexpr_bare]
  | .array element length _ => by simp [Ty.bare, Ty.sexpr, element.sexpr_bare, length.sexpr_bare]
  | .slice element _ => by simp [Ty.bare, Ty.sexpr, element.sexpr_bare]
  | .tuple elements _ => by simp only [Ty.bare, Ty.sexpr, tySexprs_bare elements]
theorem tySexprs_bare : ∀ ts : List Ty, tySexprs (tyBares ts) = tySexprs ts
  | [] => rfl
  | t :: ts => by simp only [tyBares, tySexprs, t.sexpr_bare, tySexprs_bare ts]
theorem tySexpr?_bare : ∀ t : Option Ty, tySexpr? (tyBare? t) = tySexpr? t
  | none => rfl
  | some t => by simp only [tyBare?, tySexpr?, t.sexpr_bare]
theorem annotationSexprs_bare : ∀ t : Option Ty, annotationSexprs (tyBare? t) = annotationSexprs t
  | none => rfl
  | some t => by simp only [tyBare?, annotationSexprs, t.sexpr_bare]
theorem resultSexpr?_bare : ∀ t : Option Ty, resultSexpr? (tyBare? t) = resultSexpr? t
  | none => rfl
  | some t => by simp only [tyBare?, resultSexpr?, t.sexpr_bare]
theorem Expr.sexpr_bare : ∀ e : Expr, e.bare.sexpr = e.sexpr
  | .literal _ | .path _ | .continueLoop _ | .underscore _ => by simp [Expr.bare, Expr.sexpr]
  | .unary _ e _ | .borrow _ e _ | .deref e _ | .grouped e _ | .field e _ _ => by
    simp [Expr.bare, Expr.sexpr, e.sexpr_bare]
  | .binary _ _ e f _ | .assign e f _ | .compoundAssign _ e f _ | .arrayRepeat e f _ => by
    simp [Expr.bare, Expr.sexpr, e.sexpr_bare, f.sexpr_bare]
  | .index e f _ => by simp [Expr.bare, Expr.sexpr, e.sexpr_bare, f.sexpr_bare]
  | .cast e t _ => by simp [Expr.bare, Expr.sexpr, e.sexpr_bare, t.sexpr_bare]
  | .array es _ => by simp only [Expr.bare, Expr.sexpr, exprSexprs_bare es]
  | .structLiteral p fs _ => by
    simp only [Expr.bare, Expr.sexpr, p.sexpr_bare, fieldSexprs_bare fs]
  | .call e es _ | .methodCall e _ es _ => by
    simp only [Expr.bare, Expr.sexpr, Token.sexpr_bare, e.sexpr_bare, exprSexprs_bare es]
  | .breakLoop v _ | .returnValue v _ => by simp only [Expr.bare, Expr.sexpr, exprSexpr?_bare v]
  | .block b | .constBlock b _ | .loop b _ => by simp [Expr.bare, Expr.sexpr, b.sexpr_bare]
  | .conditional c => by simp [Expr.bare, Expr.sexpr, c.sexpr_bare]
  | .matching e as _ => by simp only [Expr.bare, Expr.sexpr, e.sexpr_bare, armSexprs_bare as]
  | .whileLoop c b _ => by simp [Expr.bare, Expr.sexpr, c.sexpr_bare, b.sexpr_bare]
theorem exprSexprs_bare : ∀ es : List Expr, exprSexprs (exprBares es) = exprSexprs es
  | [] => rfl
  | e :: es => by simp only [exprBares, exprSexprs, e.sexpr_bare, exprSexprs_bare es]
theorem exprSexpr?_bare : ∀ e : Option Expr, exprSexpr? (exprBare? e) = exprSexpr? e
  | none => rfl
  | some e => by simp only [exprBare?, exprSexpr?, e.sexpr_bare]
theorem tailSexpr?_bare : ∀ e : Option Expr, tailSexpr? (exprBare? e) = tailSexpr? e
  | none => rfl
  | some e => by simp only [exprBare?, tailSexpr?, e.sexpr_bare]
theorem guardSexpr?_bare : ∀ e : Option Expr, guardSexpr? (exprBare? e) = guardSexpr? e
  | none => rfl
  | some e => by simp only [exprBare?, guardSexpr?, e.sexpr_bare]
theorem fieldSexprs_bare : ∀ fs : List FieldValue, fieldSexprs (fieldBares fs) = fieldSexprs fs
  | [] => rfl
  | ⟨_, value, _⟩ :: fs => by
    simp only [fieldBares, FieldValue.bare, fieldSexprs, Token.sexpr_bare, value.sexpr_bare,
      fieldSexprs_bare fs]
theorem Block.sexpr_bare : ∀ b : Block, b.bare.sexpr = b.sexpr
  | ⟨statements, tail, _⟩ => by
    simp only [Block.bare, Block.sexpr, stmtSexprs_bare statements, tailSexpr?_bare tail]
theorem blockSexpr?_bare : ∀ b : Option Block, blockSexpr? (blockBare? b) = blockSexpr? b
  | none => rfl
  | some b => by simp only [blockBare?, blockSexpr?, b.sexpr_bare]
theorem Condition.sexpr_bare : ∀ c : Condition, c.bare.sexpr = c.sexpr
  | .expr e => by simp [Condition.bare, Condition.sexpr, e.sexpr_bare]
  | .letChain ls => by simp only [Condition.bare, Condition.sexpr, linkSexprs_bare ls]
theorem linkSexprs_bare : ∀ ls : List Link, linkSexprs (linkBares ls) = linkSexprs ls
  | [] => rfl
  | ⟨none, value, _⟩ :: ls => by
    simp only [linkBares, Link.bare, patternBare?, linkSexprs, value.sexpr_bare, linkSexprs_bare ls]
  | ⟨some pattern, value, _⟩ :: ls => by
    simp only [linkBares, Link.bare, patternBare?, linkSexprs, pattern.sexpr_bare, value.sexpr_bare,
      linkSexprs_bare ls]
theorem Conditional.sexpr_bare : ∀ c : Conditional, c.bare.sexpr = c.sexpr
  | ⟨condition, body, otherwise, _⟩ => by
    simp only [Conditional.bare, Conditional.sexpr, condition.sexpr_bare, body.sexpr_bare,
      otherwise.sexprs_bare]
theorem Otherwise.sexprs_bare : ∀ o : Otherwise, o.bare.sexprs = o.sexprs
  | .nothing => rfl
  | .conditional c => by simp only [Otherwise.bare, Otherwise.sexprs, c.sexpr_bare]
  | .block b => by simp only [Otherwise.bare, Otherwise.sexprs, b.sexpr_bare]
theorem armSexprs_bare : ∀ as : List Arm, armSexprs (armBares as) = armSexprs as
  | [] => rfl
  | ⟨pattern, guard, body, _⟩ :: as => by
    simp only [armBares, Arm.bare, armSexprs, pattern.sexpr_bare, guardSexpr?_bare guard,
      body.sexpr_bare, armSexprs_bare as]
theorem Stmt.sexpr_bare : ∀ s : Stmt, s.bare.sexpr = s.sexpr
  | .empty _ => rfl
  | .item i => by simp only [Stmt.bare, Stmt.sexpr, i.sexpr_bare]
  | .letBinding pattern ty value _ => by
    simp only [Stmt.bare, Stmt.sexpr, pattern.sexpr_bare, annotationSexprs_bare ty,
      exprSexpr?_bare value]
  | .expr e true _ | .expr e false _ => by simp only [Stmt.bare, Stmt.sexpr, e.sexpr_bare]
theorem stmtSexprs_bare : ∀ ss : List Stmt, stmtSexprs (stmtBares ss) = stmtSexprs ss
  | [] => rfl
  | s :: ss => by simp only [stmtBares, stmtSexprs, s.sexpr_bare, stmtSexprs_bare ss]
theorem typedNameSexprs_bare : ∀ ns : List TypedName,
    typedNameSexprs (typedNameBares ns) = typedNameSexprs ns
  | [] => rfl
  | ⟨_, ty, _⟩ :: ns => by
    simp only [typedNameBares, TypedName.bare, typedNameSexprs, Token.sexpr_bare, ty.sexpr_bare,
      typedNameSexprs_bare ns]
theorem selfSexpr?_bare : ∀ p : Option SelfParam, selfSexpr? (selfBare? p) = selfSexpr? p
  | none => rfl
  | some ⟨_, _, ty, _⟩ => by
    simp only [selfBare?, SelfParam.bare, selfSexpr?, tySexpr?_bare ty]
theorem FunctionDecl.sexpr_bare : ∀ f : FunctionDecl, f.bare.sexpr = f.sexpr
  | ⟨_, _, selfParam, params, result, body, _⟩ => by
    simp only [FunctionDecl.bare, FunctionDecl.sexpr, Token.sexpr_bare, selfSexpr?_bare selfParam,
      typedNameSexprs_bare params, resultSexpr?_bare result, blockSexpr?_bare body]
theorem ConstantDecl.sexpr_bare : ∀ c : ConstantDecl, c.bare.sexpr = c.sexpr
  | ⟨_, ty, value, _⟩ => by
    simp only [ConstantDecl.bare, ConstantDecl.sexpr, Token.sexpr_bare, ty.sexpr_bare,
      exprSexpr?_bare value]
theorem memberSexprs_bare : ∀ ms : List Member, memberSexprs (memberBares ms) = memberSexprs ms
  | [] => rfl
  | .constant c :: ms => by
    simp only [memberBares, Member.bare, memberSexprs, c.sexpr_bare, memberSexprs_bare ms]
  | .function f :: ms => by
    simp only [memberBares, Member.bare, memberSexprs, f.sexpr_bare, memberSexprs_bare ms]
theorem Item.sexpr_bare : ∀ i : Item, i.bare.sexpr = i.sexpr
  | .function f => by simp only [Item.bare, Item.sexpr, f.sexpr_bare]
  | .unitStruct _ _ => rfl
  | .struct _ fields _ => by
    simp only [Item.bare, Item.sexpr, Token.sexpr_bare, typedNameSexprs_bare fields]
  | .enum _ _ _ => by simp [Item.bare, Item.sexpr, Function.comp_def]
  | .constant c => by simp only [Item.bare, Item.sexpr, c.sexpr_bare]
  | .trait _ members _ => by
    simp only [Item.bare, Item.sexpr, Token.sexpr_bare, memberSexprs_bare members]
  | .impl none target members _ => by
    simp only [Item.bare, Option.map_none, Item.sexpr, target.sexpr_bare, memberSexprs_bare members]
  | .impl (some _) target members _ => by
    simp only [Item.bare, Option.map_some, Item.sexpr, Token.sexpr_bare, target.sexpr_bare,
      memberSexprs_bare members]
end

end FrontEnd
