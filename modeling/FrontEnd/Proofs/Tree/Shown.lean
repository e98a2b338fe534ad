import FrontEnd.Proofs.Tree.Bare
/-!
# What shows of a tree

What is left of a tree when all that its s-expression does not show is forgotten: the places, whether
a field of a struct literal was written as a shorthand, and whether a pattern is the constant `x` or
the variant `path` with the name `x` as its only part.
-/
namespace FrontEnd

open Sexpr (headed)

/-- What a function gives for the only element of a list. -/
def lone? {α β : Type} (f : α → Option β) : List α → Option β
  | [a] => f a
  | _ => none

def Pattern.constant? : Pattern → Option Pattern
  | .identifier name false false none _ => some (.path ⟨[name], .nowhere⟩)
  | _ => none

/-- The patterns `path(x)` and `x`, if the latter means a constant, look the same. What shows is the
constant. -/
def variantShown (path : Path) (elements : List Pattern) : Pattern :=
  let constant? := if path.text = "path" then lone? Pattern.constant? elements else none
  constant?.getD (.tupleStruct path elements .nowhere)

mutual
def Pattern.shown : Pattern → Pattern
  | .literal token negated _ => .literal token.bare negated .nowhere
  | .identifier name byRef mutable sub _ =>
    .identifier name.bare byRef mutable (patternShown? sub) .nowhere
  | .wildcard token => .wildcard token.bare
  | .reference mutable inner _ => .reference mutable inner.shown .nowhere
  | .path path => .path path.bare
  | .tupleStruct path elements _ => variantShown path.bare (patternShowns elements)
def patternShowns : List Pattern → List Pattern
  | [] => []
  | p :: ps => p.shown :: patternShowns ps
def patternShown? : Option Pattern → Option Pattern
  | none => none
  | some p => some p.shown
end

mutual
def Ty.shown : Ty → Ty
  | .path path => .path path.bare
  | .reference mutable target _ => .reference mutable target.shown .nowhere
  | .array element length _ => .array element.shown length.shown .nowhere
  | .slice element _ => .slice element.shown .nowhere
  | .tuple elements _ => .tuple (tyShowns elements) .nowhere
  | .never token => .never token.bare
  | .inferred token => .inferred token.bare
def tyShowns : List Ty → List Ty
  | [] => []
  | t :: ts => t.shown :: tyShowns ts
def tyShown? : Option Ty → Option Ty
  | none => none
  | some t => some t.shown
def Expr.shown : Expr → Expr
  | .literal token => .literal token.bare
  | .path path => .path path.bare
  | .unary operator operand _ => .unary operator.bare operand.shown .nowhere
  | .borrow mutable operand _ => .borrow mutable operand.shown .nowhere
  | .deref operand _ => .deref operand.shown .nowhere
  | .binary family operator left right _ =>
    .binary family operator.bare left.shown right.shown .nowhere
  | .cast operand target _ => .cast operand.shown target.shown .nowhere
  | .assign assignee value _ => .assign assignee.shown value.shown .nowhere
  | .compoundAssign operator assignee value _ =>
    .compoundAssign operator.bare assignee.shown value.shown .nowhere
  | .grouped inner _ => .grouped inner.shown .nowhere
  | .array elements _ => .array (exprShowns elements) .nowhere
  | .arrayRepeat value length _ => .arrayRepeat value.shown length.shown .nowhere
  | .index base index _ => .index base.shown index.shown .nowhere
  | .structLiteral path fields _ => .structLiteral path.bare (fieldShowns fields) .nowhere
  | .call callee arguments _ => .call callee.shown (exprShowns arguments) .nowhere
  | .methodCall receiver method arguments _ =>
    .methodCall receiver.shown method.bare (exprShowns arguments) .nowhere
  | .field base field _ => .field base.shown field.bare .nowhere
  | .breakLoop value _ => .breakLoop (exprShown? value) .nowhere
  | .continueLoop token => .continueLoop token.bare
  | .returnValue value _ => .returnValue (exprShown? value) .nowhere
  | .underscore token => .underscore token.bare
  | .block block => .block block.shown
  | .constBlock block _ => .constBlock block.shown .nowhere
  | .conditional conditional => .conditional conditional.shown
  | .matching scrutinee arms _ => .matching scrutinee.shown (armShowns arms) .nowhere
  | .loop body _ => .loop body.shown .nowhere
  | .whileLoop condition body _ => .whileLoop condition.shown body.shown .nowhere
def exprShowns : List Expr → List Expr
  | [] => []
  | e :: es => e.shown :: exprShowns es
def exprShown? : Option Expr → Option Expr
  | none => none
  | some e => some e.shown
/-- A field of a struct literal as it shows: the shorthand and the whole field look the same. -/
def FieldValue.shown : FieldValue → FieldValue
  | ⟨name, value, _⟩ => ⟨name.bare, value.shown, false⟩
def fieldShowns : List FieldValue → List FieldValue
  | [] => []
  | f :: fs => f.shown :: fieldShowns fs
def Block.shown : Block → Block
  | ⟨statements, tail, _⟩ => ⟨stmtShowns statements, exprShown? tail, .nowhere⟩
def blockShown? : Option Block → Option Block
  | none => none
  | some b => some b.shown
def Condition.shown : Condition → Condition
  | .expr expr => .expr expr.shown
  | .letChain links => .letChain (linkShowns links)
def Link.shown : Link → Link
  | ⟨pattern, value, _⟩ => ⟨patternShown? pattern, value.shown, .nowhere⟩
def linkShowns : List Link → List Link
  | [] => []
  | l :: ls => l.shown :: linkShowns ls
def Conditional.shown : Conditional → Conditional
  | ⟨condition, body, otherwise, _⟩ => ⟨condition.shown, body.shown, otherwise.shown, .nowhere⟩
def Otherwise.shown : Otherwise → Otherwise
  | .nothing => .nothing
  | .conditional conditional => .conditional conditional.shown
  | .block block => .block block.shown
def Arm.shown : Arm → Arm
  | ⟨pattern, guard, body, _⟩ => ⟨pattern.shown, exprShown? guard, body.shown, .nowhere⟩
def armShowns : List Arm → List Arm
  | [] => []
  | a :: as => a.shown :: armShowns as
def Stmt.shown : Stmt → Stmt
  | .empty _ => .empty .nowhere
  | .item item => .item item.shown
  | .letBinding pattern ty value _ =>
    .letBinding pattern.shown (tyShown? ty) (exprShown? value) .nowhere
  | .expr expr semicolon _ => .expr expr.shown semicolon .nowhere
def stmtShowns : List Stmt → List Stmt
  | [] => []
  | s :: ss => s.shown :: stmtShowns ss
def TypedName.shown : TypedName → TypedName
  | ⟨name, ty, _⟩ => ⟨name.bare, ty.shown, .nowhere⟩
def typedNameShowns : List TypedName → List TypedName
  | [] => []
  | n :: ns => n.shown :: typedNameShowns ns
def SelfParam.shown : SelfParam → SelfParam
  | ⟨byRef, mutable, ty, _⟩ => ⟨byRef, mutable, tyShown? ty, .nowhere⟩
def selfShown? : Option SelfParam → Option SelfParam
  | none => none
  | some p => some p.shown
def FunctionDecl.shown : FunctionDecl → FunctionDecl
  | ⟨isConst, name, selfParam, params, result, body, _⟩ =>
    ⟨isConst, name.bare, selfShown? selfParam, typedNameShowns params, tyShown? result,
      blockShown? body, .nowhere⟩
def ConstantDecl.shown : ConstantDecl → ConstantDecl
  | ⟨name, ty, value, _⟩ => ⟨name.bare, ty.shown, exprShown? value, .nowhere⟩
def Member.shown : Member → Member
  | .constant constant => .constant constant.shown
  | .function function => .function function.shown
def memberShowns : List Member → List Member
  | [] => []
  | m :: ms => m.shown :: memberShowns ms
def Item.shown : Item → Item
  | .function function => .function function.shown
  | .unitStruct name _ => .unitStruct name.bare .nowhere
  | .struct name fields _ => .struct name.bare (typedNameShowns fields) .nowhere
  | .enum name variants _ => .enum name.bare (variants.map Token.bare) .nowhere
  | .constant constant => .constant constant.shown
  | .trait name members _ => .trait name.bare (memberShowns members) .nowhere
  | .impl traitName target members _ =>
    .impl (traitName.map Token.bare) target.shown (memberShowns members) .nowhere
end

@[simp] theorem patternShowns_eq_map (ps : List Pattern) : patternShowns ps = ps.map Pattern.shown := by
  induction ps with
  | nil => rfl
  | cons p ps ih => simp [patternShowns, ih]

@[simp] theorem patternShown?_eq_map (p : Option Pattern) : patternShown? p = p.map Pattern.shown := by
  cases p <;> rfl

@[simp] theorem tyShowns_eq_map (ts : List Ty) : tyShowns ts = ts.map Ty.shown := by
  induction ts with
  | nil => rfl
  | cons t ts ih => simp [tyShowns, ih]

@[simp] theorem tyShown?_eq_map (t : Option Ty) : tyShown? t = t.map Ty.shown := by
  cases t <;> rfl

@[simp] theorem exprShowns_eq_map (es : List Expr) : exprShowns es = es.map Expr.shown := by
  induction es with
  | nil => rfl
  | cons e es ih => simp [exprShowns, ih]

@[simp] theorem exprShown?_eq_map (e : Option Expr) : exprShown? e = e.map Expr.shown := by
  cases e <;> rfl

@[simp] theorem fieldShowns_eq_map (fs : List FieldValue) :
    fieldShowns fs = fs.map FieldValue.shown := by
  induction fs with
  | nil => rfl
  | cons f fs ih => simp [fieldShowns, ih]

@[simp] theorem blockShown?_eq_map (b : Option Block) : blockShown? b = b.map Block.shown := by
  cases b <;> rfl

@[simp] theorem linkShowns_eq_map (ls : List Link) : linkShowns ls = ls.map Link.shown := by
  induction ls with
  | nil => rfl
  | cons l ls ih => simp [linkShowns, ih]

@[simp] theorem armShowns_eq_map (as : List Arm) : armShowns as = as.map Arm.shown := by
  induction as with
  | nil => rfl
  | cons a as ih => simp [armShowns, ih]

@[simp] theorem stmtShowns_eq_map (ss : List Stmt) : stmtShowns ss = ss.map Stmt.shown := by
  induction ss with
  | nil => rfl
  | cons s ss ih => simp [stmtShowns, ih]

@[simp] theorem typedNameShowns_eq_map (ns : List TypedName) :
    typedNameShowns ns = ns.map TypedName.shown := by
  induction ns with
  | nil => rfl
  | cons n ns ih => simp [typedNameShowns, ih]

@[simp] theorem selfShown?_eq_map (p : Option SelfParam) : selfShown? p = p.map SelfParam.shown := by
  cases p <;> rfl

@[simp] theorem memberShowns_eq_map (ms : List Member) :
    memberShowns ms = ms.map Member.shown := by
  induction ms with
  | nil => rfl
  | cons m ms ih => simp [memberShowns, ih]

/-- A variant shows as itself, or is `path` with a name alone and shows as a constant. -/
theorem variantShown_cases (path : Path) (elements : List Pattern) :
    variantShown path elements = .tupleStruct path elements .nowhere ∨
      ∃ name span, path.text = "path" ∧ elements = [.identifier name false false none span] ∧
        variantShown path elements = .path ⟨[name], .nowhere⟩ := by
  by_cases hpath : path.text = "path"
  · rw [variantShown, if_pos hpath]
    match elements with
    | [.identifier name false false none span] => exact .inr ⟨name, span, hpath, rfl, rfl⟩
    | [] | _ :: _ :: _ => exact .inl rfl
    | [.literal ..] | [.wildcard _] | [.reference ..] | [.path _] | [.tupleStruct ..] => exact .inl rfl
    | [.identifier _ true _ _ _] => exact .inl rfl
    | [.identifier _ false true _ _] => exact .inl rfl
    | [.identifier _ false false (some _) _] => exact .inl rfl
  · rw [variantShown, if_neg hpath]
    exact .inl rfl

theorem sexpr_variantShown (path : Path) (elements : List Pattern) :
    (variantShown path elements).sexpr = headed path.text (patternSexprs elements) := by
  rcases variantShown_cases path elements with h | ⟨name, span, hpath, rfl, h⟩
  · rw [h, Pattern.sexpr]
  · rw [h, hpath]
    simp [Pattern.sexpr, patternSexprs, Path.sexpr, Path.text, Token.sexpr]

theorem constant?_variantShown (path : Path) (elements : List Pattern) :
    (variantShown path elements).constant? = none := by
  rcases variantShown_cases path elements with h | ⟨name, span, -, -, h⟩ <;> rw [h] <;> rfl

mutual
/-- What an s-expression does not show may be forgotten. -/
theorem Pattern.sexpr_shown : ∀ p : Pattern, p.shown.sexpr = p.sexpr
  | .literal _ _ _ | .wildcard _ | .path _ => by simp [Pattern.shown, Pattern.sexpr]
  | .identifier _ byRef mutable none _ => by
    cases byRef <;> cases mutable <;> simp [Pattern.shown, Pattern.sexpr]
  | .identifier _ byRef mutable (some sub) _ => by
    cases byRef <;> cases mutable <;> simp [Pattern.shown, Pattern.sexpr, sub.sexpr_shown]
  | .reference _ inner _ => by simp [Pattern.shown, Pattern.sexpr, inner.sexpr_shown]
  | .tupleStruct path elements _ => by
    simp only [Pattern.shown, Pattern.sexpr, sexpr_variantShown, Path.text_bare,
      patternSexprs_shown elements]
theorem patternSexprs_shown : ∀ ps : List Pattern, patternSexprs (patternShowns ps) = patternSexprs ps
  | [] => rfl
  | p :: ps => by simp only [patternShowns, patternSexprs, p.sexpr_shown, patternSexprs_shown ps]
end

mutual
theorem Ty.sexpr_shown : ∀ t : Ty, t.shown.sexpr = t.sexpr
  | .path _ | .never _ | .inferred _ => by simp [Ty.shown, Ty.sexpr]
  | .reference _ target _ => by simp [Ty.shown, Ty.sexpr, target.sexpr_shown]
  | .array element length _ => by simp [Ty.shown, Ty.sexpr, element.sexpr_shown, length.sexpr_shown]
  | .slice element _ => by simp [Ty.shown, Ty.sexpr, element.sexpr_shown]
  | .tuple elements _ => by simp only [Ty.shown, Ty.sexpr, tySexprs_shown elements]
theorem tySexprs_shown : ∀ ts : List Ty, tySexprs (tyShowns ts) = tySexprs ts
  | [] => rfl
  | t :: ts => by simp only [tyShowns, tySexprs, t.sexpr_shown, tySexprs_shown ts]
theorem tySexpr?_shown : ∀ t : Option Ty, tySexpr? (tyShown? t) = tySexpr? t
  | none => rfl
  | some t => by simp only [tyShown?, tySexpr?, t.sexpr_shown]
theorem annotationSexprs_shown : ∀ t : Option Ty, annotationSexprs (tyShown? t) = annotationSexprs t
  | none => rfl
  | some t => by simp only [tyShown?, annotationSexprs, t.sexpr_shown]
theorem resultSexpr?_shown : ∀ t : Option Ty, resultSexpr? (tyShown? t) = resultSexpr? t
  | none => rfl
  | some t => by simp only [tyShown?, resultSexpr?, t.sexpr_shown]
theorem Expr.sexpr_shown : ∀ e : Expr, e.shown.sexpr = e.sexpr
  | .literal _ | .path _ | .continueLoop _ | .underscore _ => by simp [Expr.shown, Expr.sexpr]
  | .unary _ e _ | .borrow _ e _ | .deref e _ | .grouped e _ | .field e _ _ => by
    simp [Expr.shown, Expr.sexpr, e.sexpr_shown]
  | .binary _ _ e f _ | .assign e f _ | .compoundAssign _ e f _ | .arrayRepeat e f _ => by
    simp [Expr.shown, Expr.sexpr, e.sexpr_shown, f.sexpr_shown]
  | .index e f _ => by simp [Expr.shown, Expr.sexpr, e.sexpr_shown, f.sexpr_shown]
  | .cast e t _ => by simp [Expr.shown, Expr.sexpr, e.sexpr_shown, t.sexpr_shown]
  | .array es _ => by simp only [Expr.shown, Expr.sexpr, exprSexprs_shown es]
  | .structLiteral p fs _ => by
    simp only [Expr.shown, Expr.sexpr, p.sexpr_bare, fieldSexprs_shown fs]
  | .call e es _ | .methodCall e _ es _ => by
    simp only [Expr.shown, Expr.sexpr, Token.sexpr_bare, e.sexpr_shown, exprSexprs_shown es]
  | .breakLoop v _ | .returnValue v _ => by simp only [Expr.shown, Expr.sexpr, exprSexpr?_shown v]
  | .block b | .constBlock b _ | .loop b _ => by simp [Expr.shown, Expr.sexpr, b.sexpr_shown]
  | .conditional c => by simp [Expr.shown, Expr.sexpr, c.sexpr_shown]
  | .matching e as _ => by simp only [Expr.shown, Expr.sexpr, e.sexpr_shown, armSexprs_shown as]
  | .whileLoop c b _ => by simp [Expr.shown, Expr.sexpr, c.sexpr_shown, b.sexpr_shown]
theorem exprSexprs_shown : ∀ es : List Expr, exprSexprs (exprShowns es) = exprSexprs es
  | [] => rfl
  | e :: es => by simp only [exprShowns, exprSexprs, e.sexpr_shown, exprSexprs_shown es]
theorem exprSexpr?_shown : ∀ e : Option Expr, exprSexpr? (exprShown? e) = exprSexpr? e
  | none => rfl
  | some e => by simp only [exprShown?, exprSexpr?, e.sexpr_shown]
theorem tailSexpr?_shown : ∀ e : Option Expr, tailSexpr? (exprShown? e) = tailSexpr? e
  | none => rfl
  | some e => by simp only [exprShown?, tailSexpr?, e.sexpr_shown]
theorem guardSexpr?_shown : ∀ e : Option Expr, guardSexpr? (exprShown? e) = guardSexpr? e
  | none => rfl
  | some e => by simp only [exprShown?, guardSexpr?, e.sexpr_shown]
theorem fieldSexprs_shown : ∀ fs : List FieldValue, fieldSexprs (fieldShowns fs) = fieldSexprs fs
  | [] => rfl
  | ⟨_, value, _⟩ :: fs => by
    simp only [fieldShowns, FieldValue.shown, fieldSexprs, Token.sexpr_bare, value.sexpr_shown,
      fieldSexprs_shown fs]
theorem Block.sexpr_shown : ∀ b : Block, b.shown.sexpr = b.sexpr
  | ⟨statements, tail, _⟩ => by
    simp only [Block.shown, Block.sexpr, stmtSexprs_shown statements, tailSexpr?_shown tail]
theorem blockSexpr?_shown : ∀ b : Option Block, blockSexpr? (blockShown? b) = blockSexpr? b
  | none => rfl
  | some b => by simp only [blockShown?, blockSexpr?, b.sexpr_shown]
theorem Condition.sexpr_shown : ∀ c : Condition, c.shown.sexpr = c.sexpr
  | .expr e => by simp [Condition.shown, Condition.sexpr, e.sexpr_shown]
  | .letChain ls => by simp only [Condition.shown, Condition.sexpr, linkSexprs_shown ls]
theorem linkSexprs_shown : ∀ ls : List Link, linkSexprs (linkShowns ls) = linkSexprs ls
  | [] => rfl
  | ⟨none, value, _⟩ :: ls => by
    simp only [linkShowns, Link.shown, patternShown?, linkSexprs, value.sexpr_shown, linkSexprs_shown ls]
  | ⟨some pattern, value, _⟩ :: ls => by
    simp only [linkShowns, Link.shown, patternShown?, linkSexprs, pattern.sexpr_shown, value.sexpr_shown,
      linkSexprs_shown ls]
theorem Conditional.sexpr_shown : ∀ c : Conditional, c.shown.sexpr = c.sexpr
  | ⟨condition, body, otherwise, _⟩ => by
    simp only [Conditional.shown, Conditional.sexpr, condition.sexpr_shown, body.sexpr_shown,
      otherwise.sexprs_shown]
theorem Otherwise.sexprs_shown : ∀ o : Otherwise, o.shown.sexprs = o.sexprs
  | .nothing => rfl
  | .conditional c => by simp only [Otherwise.shown, Otherwise.sexprs, c.sexpr_shown]
  | .block b => by simp only [Otherwise.shown, Otherwise.sexprs, b.sexpr_shown]
theorem armSexprs_shown : ∀ as : List Arm, armSexprs (armShowns as) = armSexprs as
  | [] => rfl
  | ⟨pattern, guard, body, _⟩ :: as => by
    simp only [armShowns, Arm.shown, armSexprs, pattern.sexpr_shown, guardSexpr?_shown guard,
      body.sexpr_shown, armSexprs_shown as]
theorem Stmt.sexpr_shown : ∀ s : Stmt, s.shown.sexpr = s.sexpr
  | .empty _ => rfl
  | .item i => by simp only [Stmt.shown, Stmt.sexpr, i.sexpr_shown]
  | .letBinding pattern ty value _ => by
    simp only [Stmt.shown, Stmt.sexpr, pattern.sexpr_shown, annotationSexprs_shown ty,
      exprSexpr?_shown value]
  | .expr e true _ | .expr e false _ => by simp only [Stmt.shown, Stmt.sexpr, e.sexpr_shown]
theorem stmtSexprs_shown : ∀ ss : List Stmt, stmtSexprs (stmtShowns ss) = stmtSexprs ss
  | [] => rfl
  | s :: ss => by simp only [stmtShowns, stmtSexprs, s.sexpr_shown, stmtSexprs_shown ss]
theorem typedNameSexprs_shown : ∀ ns : List TypedName,
    typedNameSexprs (typedNameShowns ns) = typedNameSexprs ns
  | [] => rfl
  | ⟨_, ty, _⟩ :: ns => by
    simp only [typedNameShowns, TypedName.shown, typedNameSexprs, Token.sexpr_bare, ty.sexpr_shown,
      typedNameSexprs_shown ns]
theorem selfSexpr?_shown : ∀ p : Option SelfParam, selfSexpr? (selfShown? p) = selfSexpr? p
  | none => rfl
  | some ⟨_, _, ty, _⟩ => by
    simp only [selfShown?, SelfParam.shown, selfSexpr?, tySexpr?_shown ty]
theorem FunctionDecl.sexpr_shown : ∀ f : FunctionDecl, f.shown.sexpr = f.sexpr
  | ⟨_, _, selfParam, params, result, body, _⟩ => by
    simp only [FunctionDecl.shown, FunctionDecl.sexpr, Token.sexpr_bare, selfSexpr?_shown selfParam,
      typedNameSexprs_shown params, resultSexpr?_shown result, blockSexpr?_shown body]
theorem ConstantDecl.sexpr_shown : ∀ c : ConstantDecl, c.shown.sexpr = c.sexpr
  | ⟨_, ty, value, _⟩ => by
    simp only [ConstantDecl.shown, ConstantDecl.sexpr, Token.sexpr_bare, ty.sexpr_shown,
      exprSexpr?_shown value]
theorem memberSexprs_shown : ∀ ms : List Member, memberSexprs (memberShowns ms) = memberSexprs ms
  | [] => rfl
  | .constant c :: ms => by
    simp only [memberShowns, Member.shown, memberSexprs, c.sexpr_shown, memberSexprs_shown ms]
  | .function f :: ms => by
    simp only [memberShowns, Member.shown, memberSexprs, f.sexpr_shown, memberSexprs_shown ms]
theorem Item.sexpr_shown : ∀ i : Item, i.shown.sexpr = i.sexpr
  | .function f => by simp only [Item.shown, Item.sexpr, f.sexpr_shown]
  | .unitStruct _ _ => rfl
  | .struct _ fields _ => by
    simp only [Item.shown, Item.sexpr, Token.sexpr_bare, typedNameSexprs_shown fields]
  | .enum _ _ _ => by simp [Item.shown, Item.sexpr, Function.comp_def]
  | .constant c => by simp only [Item.shown, Item.sexpr, c.sexpr_shown]
  | .trait _ members _ => by
    simp only [Item.shown, Item.sexpr, Token.sexpr_bare, memberSexprs_shown members]
  | .impl none target members _ => by
    simp only [Item.shown, Option.map_none, Item.sexpr, target.sexpr_shown, memberSexprs_shown members]
  | .impl (some _) target members _ => by
    simp only [Item.shown, Option.map_some, Item.sexpr, Token.sexpr_bare, target.sexpr_shown,
      memberSexprs_shown members]
end

end FrontEnd
