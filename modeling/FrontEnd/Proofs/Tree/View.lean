import FrontEnd.Proofs.Tree.Bare
/-!
# Views of trees

Two readings are compared by what they have in common: perhaps not the places, perhaps not the names,
perhaps not whether a pattern that is just a name means a constant. A view tells what a tree looks
like if these are changed or forgotten.
-/
namespace FrontEnd

/-- A way to look at tokens and trees. -/
structure View where
  /-- What is seen of a place. -/
  position : Position → Position
  /-- What is seen of the text of a token of a kind. -/
  text : TokenKind → String → String
  /-- Whether a pattern that is just a name and means a constant is told from one that binds. -/
  constants : Bool

def View.span (v : View) (s : Span) : Span := ⟨v.position s.start, v.position s.stop⟩

theorem View.span_to (v : View) (s t : Span) : v.span (s.to t) = (v.span s).to (v.span t) := rfl

def Token.view (v : View) (t : Token) : Token := ⟨t.kind, v.text t.kind t.value, v.span t.span⟩

def Path.view (v : View) (p : Path) : Path := ⟨p.segments.map (Token.view v), v.span p.span⟩

mutual
def Pattern.view (v : View) : Pattern → Pattern
  | .literal token negated span => .literal (token.view v) negated (v.span span)
  | .identifier name byRef mutable sub span =>
    .identifier (name.view v) byRef mutable (patternView? v sub) (v.span span)
  | .wildcard token => .wildcard (token.view v)
  | .reference mutable inner span => .reference mutable (inner.view v) (v.span span)
  | .path ⟨[name], span⟩ =>
    if v.constants = false ∧ name.kind = .identifier then
      .identifier (name.view v) false false none (v.span span)
    else
      .path ⟨[name.view v], v.span span⟩
  | .path path => .path (path.view v)
  | .tupleStruct path elements span => .tupleStruct (path.view v) (patternViews v elements) (v.span span)
def patternViews (v : View) : List Pattern → List Pattern
  | [] => []
  | p :: ps => p.view v :: patternViews v ps
def patternView? (v : View) : Option Pattern → Option Pattern
  | none => none
  | some p => some (p.view v)
end

mutual
def Ty.view (v : View) : Ty → Ty
  | .path path => .path (path.view v)
  | .reference mutable target span => .reference mutable (target.view v) (v.span span)
  | .array element length span => .array (element.view v) (length.view v) (v.span span)
  | .slice element span => .slice (element.view v) (v.span span)
  | .tuple elements span => .tuple (tyViews v elements) (v.span span)
  | .never token => .never (token.view v)
  | .inferred token => .inferred (token.view v)
def tyViews (v : View) : List Ty → List Ty
  | [] => []
  | t :: ts => t.view v :: tyViews v ts
def tyView? (v : View) : Option Ty → Option Ty
  | none => none
  | some t => some (t.view v)
def Expr.view (v : View) : Expr → Expr
  | .literal token => .literal (token.view v)
  | .path path => .path (path.view v)
  | .unary operator operand span => .unary (operator.view v) (operand.view v) (v.span span)
  | .borrow mutable operand span => .borrow mutable (operand.view v) (v.span span)
  | .deref operand span => .deref (operand.view v) (v.span span)
  | .binary family operator left right span =>
    .binary family (operator.view v) (left.view v) (right.view v) (v.span span)
  | .cast operand target span => .cast (operand.view v) (target.view v) (v.span span)
  | .assign assignee value span => .assign (assignee.view v) (value.view v) (v.span span)
  | .compoundAssign operator assignee value span =>
    .compoundAssign (operator.view v) (assignee.view v) (value.view v) (v.span span)
  | .grouped inner span => .grouped (inner.view v) (v.span span)
  | .array elements span => .array (exprViews v elements) (v.span span)
  | .arrayRepeat value length span => .arrayRepeat (value.view v) (length.view v) (v.span span)
  | .index base index span => .index (base.view v) (index.view v) (v.span span)
  | .structLiteral path fields span =>
    .structLiteral (path.view v) (fieldViews v fields) (v.span span)
  | .call callee arguments span => .call (callee.view v) (exprViews v arguments) (v.span span)
  | .methodCall receiver method arguments span =>
    .methodCall (receiver.view v) (method.view v) (exprViews v arguments) (v.span span)
  | .field base field span => .field (base.view v) (field.view v) (v.span span)
  | .breakLoop value span => .breakLoop (exprView? v value) (v.span span)
  | .continueLoop token => .continueLoop (token.view v)
  | .returnValue value span => .returnValue (exprView? v value) (v.span span)
  | .underscore token => .underscore (token.view v)
  | .block block => .block (block.view v)
  | .constBlock block span => .constBlock (block.view v) (v.span span)
  | .conditional conditional => .conditional (conditional.view v)
  | .matching scrutinee arms span => .matching (scrutinee.view v) (armViews v arms) (v.span span)
  | .loop body span => .loop (body.view v) (v.span span)
  | .whileLoop condition body span => .whileLoop (condition.view v) (body.view v) (v.span span)
def exprViews (v : View) : List Expr → List Expr
  | [] => []
  | e :: es => e.view v :: exprViews v es
def exprView? (v : View) : Option Expr → Option Expr
  | none => none
  | some e => some (e.view v)
def FieldValue.view (v : View) : FieldValue → FieldValue
  | ⟨name, value, shorthand⟩ => ⟨name.view v, value.view v, shorthand⟩
def fieldViews (v : View) : List FieldValue → List FieldValue
  | [] => []
  | f :: fs => f.view v :: fieldViews v fs
def Block.view (v : View) : Block → Block
  | ⟨statements, tail, span⟩ => ⟨stmtViews v statements, exprView? v tail, v.span span⟩
def blockView? (v : View) : Option Block → Option Block
  | none => none
  | some b => some (b.view v)
def Condition.view (v : View) : Condition → Condition
  | .expr expr => .expr (expr.view v)
  | .letChain links => .letChain (linkViews v links)
def Link.view (v : View) : Link → Link
  | ⟨pattern, value, span⟩ => ⟨patternView? v pattern, value.view v, v.span span⟩
def linkViews (v : View) : List Link → List Link
  | [] => []
  | l :: ls => l.view v :: linkViews v ls
def Conditional.view (v : View) : Conditional → Conditional
  | ⟨condition, body, otherwise, span⟩ =>
    ⟨condition.view v, body.view v, otherwise.view v, v.span span⟩
def Otherwise.view (v : View) : Otherwise → Otherwise
  | .nothing => .nothing
  | .conditional conditional => .conditional (conditional.view v)
  | .block block => .block (block.view v)
def Arm.view (v : View) : Arm → Arm
  | ⟨pattern, guard, body, span⟩ =>
    ⟨pattern.view v, exprView? v guard, body.view v, v.span span⟩
def armViews (v : View) : List Arm → List Arm
  | [] => []
  | a :: as => a.view v :: armViews v as
def Stmt.view (v : View) : Stmt → Stmt
  | .empty span => .empty (v.span span)
  | .item item => .item (item.view v)
  | .letBinding pattern ty value span =>
    .letBinding (pattern.view v) (tyView? v ty) (exprView? v value) (v.span span)
  | .expr expr semicolon span => .expr (expr.view v) semicolon (v.span span)
def stmtViews (v : View) : List Stmt → List Stmt
  | [] => []
  | s :: ss => s.view v :: stmtViews v ss
def TypedName.view (v : View) : TypedName → TypedName
  | ⟨name, ty, span⟩ => ⟨name.view v, ty.view v, v.span span⟩
def typedNameViews (v : View) : List TypedName → List TypedName
  | [] => []
  | n :: ns => n.view v :: typedNameViews v ns
def SelfParam.view (v : View) : SelfParam → SelfParam
  | ⟨byRef, mutable, ty, span⟩ => ⟨byRef, mutable, tyView? v ty, v.span span⟩
def selfView? (v : View) : Option SelfParam → Option SelfParam
  | none => none
  | some p => some (p.view v)
def FunctionDecl.view (v : View) : FunctionDecl → FunctionDecl
  | ⟨isConst, name, selfParam, params, result, body, span⟩ =>
    ⟨isConst, name.view v, selfView? v selfParam, typedNameViews v params, tyView? v result,
      blockView? v body, v.span span⟩
def ConstantDecl.view (v : View) : ConstantDecl → ConstantDecl
  | ⟨name, ty, value, span⟩ => ⟨name.view v, ty.view v, exprView? v value, v.span span⟩
def Member.view (v : View) : Member → Member
  | .constant constant => .constant (constant.view v)
  | .function function => .function (function.view v)
def memberViews (v : View) : List Member → List Member
  | [] => []
  | m :: ms => m.view v :: memberViews v ms
def Item.view (v : View) : Item → Item
  | .function function => .function (function.view v)
  | .unitStruct name span => .unitStruct (name.view v) (v.span span)
  | .struct name fields span => .struct (name.view v) (typedNameViews v fields) (v.span span)
  | .enum name variants span => .enum (name.view v) (variants.map (Token.view v)) (v.span span)
  | .constant constant => .constant (constant.view v)
  | .trait name members span => .trait (name.view v) (memberViews v members) (v.span span)
  | .impl traitName target members span =>
    .impl (traitName.map (Token.view v)) (target.view v) (memberViews v members) (v.span span)
end

def Crate.view (v : View) (c : Crate) : Crate := ⟨c.items.map (Item.view v), v.span c.span⟩

section Lists

variable (v : View)

@[simp] theorem patternViews_eq_map (ps : List Pattern) : patternViews v ps = ps.map (Pattern.view v) := by
  induction ps with
  | nil => rfl
  | cons p ps ih => simp [patternViews, ih]

@[simp] theorem tyViews_eq_map (ts : List Ty) : tyViews v ts = ts.map (Ty.view v) := by
  induction ts with
  | nil => rfl
  | cons t ts ih => simp [tyViews, ih]

@[simp] theorem exprViews_eq_map (es : List Expr) : exprViews v es = es.map (Expr.view v) := by
  induction es with
  | nil => rfl
  | cons e es ih => simp [exprViews, ih]

@[simp] theorem fieldViews_eq_map (fs : List FieldValue) : fieldViews v fs = fs.map (FieldValue.view v) := by
  induction fs with
  | nil => rfl
  | cons f fs ih => simp [fieldViews, ih]

@[simp] theorem linkViews_eq_map (ls : List Link) : linkViews v ls = ls.map (Link.view v) := by
  induction ls with
  | nil => rfl
  | cons l ls ih => simp [linkViews, ih]

@[simp] theorem armViews_eq_map (as : List Arm) : armViews v as = as.map (Arm.view v) := by
  induction as with
  | nil => rfl
  | cons a as ih => simp [armViews, ih]

@[simp] theorem stmtViews_eq_map (ss : List Stmt) : stmtViews v ss = ss.map (Stmt.view v) := by
  induction ss with
  | nil => rfl
  | cons s ss ih => simp [stmtViews, ih]

@[simp] theorem typedNameViews_eq_map (ns : List TypedName) : typedNameViews v ns = ns.map (TypedName.view v) := by
  induction ns with
  | nil => rfl
  | cons n ns ih => simp [typedNameViews, ih]

@[simp] theorem memberViews_eq_map (ms : List Member) : memberViews v ms = ms.map (Member.view v) := by
  induction ms with
  | nil => rfl
  | cons m ms ih => simp [memberViews, ih]

@[simp] theorem patternView?_eq_map (p : Option Pattern) : patternView? v p = p.map (Pattern.view v) := by
  cases p <;> rfl

@[simp] theorem tyView?_eq_map (t : Option Ty) : tyView? v t = t.map (Ty.view v) := by
  cases t <;> rfl

@[simp] theorem exprView?_eq_map (e : Option Expr) : exprView? v e = e.map (Expr.view v) := by
  cases e <;> rfl

@[simp] theorem blockView?_eq_map (b : Option Block) : blockView? v b = b.map (Block.view v) := by
  cases b <;> rfl

@[simp] theorem selfView?_eq_map (p : Option SelfParam) : selfView? v p = p.map (SelfParam.view v) := by
  cases p <;> rfl

end Lists

section Shows

variable (v : View)

@[simp] theorem Token.kind_view (t : Token) : (t.view v).kind = t.kind := rfl

@[simp] theorem Token.span_view (t : Token) : (t.view v).span = v.span t.span := rfl

@[simp] theorem Path.span_view (p : Path) : (p.view v).span = v.span p.span := rfl

@[simp] theorem Path.view_ofToken (t : Token) : (Path.ofToken t).view v = .ofToken (t.view v) := rfl

theorem Pattern.view_path (p : Path) (h : v.constants = true) :
    (Pattern.path p).view v = .path (p.view v) := by
  obtain ⟨_ | ⟨name, _ | ⟨next, names⟩⟩, span⟩ := p <;> simp [Pattern.view, Path.view, h]

@[simp] theorem Pattern.span_view (p : Pattern) : (p.view v).span = v.span p.span := by
  cases p with
  | path p =>
    obtain ⟨_ | ⟨name, _ | ⟨next, names⟩⟩, span⟩ := p
    · rfl
    · rw [Pattern.view]
      split <;> rfl
    · rfl
  | _ => rfl

@[simp] theorem Ty.span_view (t : Ty) : (t.view v).span = v.span t.span := by
  cases t <;> rfl

@[simp] theorem Expr.span_view (e : Expr) : (e.view v).span = v.span e.span := by
  cases e with
  | block b => cases b; rfl
  | conditional c => cases c; rfl
  | _ => rfl

@[simp] theorem Expr.isBlockLike_view (e : Expr) : (e.view v).isBlockLike = e.isBlockLike := by
  cases e <;> rfl

end Shows

/-- The view that forgets nothing. -/
def View.all : View := ⟨fun place => place, fun _ text => text, true⟩

theorem View.span_all (s : Span) : View.all.span s = s := rfl

theorem Token.view_all (t : Token) : t.view .all = t := rfl

theorem Token.view_all_eq : Token.view .all = id := rfl

theorem Path.view_all (p : Path) : p.view .all = p := by
  simp [Path.view, View.span_all, Token.view_all_eq]

mutual
/-- Nothing is missing in the view of a pattern that forgets nothing. -/
theorem Pattern.view_all : ∀ p : Pattern, p.view .all = p
  | .literal _ _ _ | .wildcard _ => rfl
  | .identifier _ _ _ sub _ => by
    simp only [Pattern.view, Token.view_all, patternView?_all sub, View.span_all]
  | .reference _ inner _ => by simp only [Pattern.view, inner.view_all, View.span_all]
  | .path p => by rw [Pattern.view_path _ p rfl, Path.view_all]
  | .tupleStruct _ elements _ => by
    simp only [Pattern.view, Path.view_all, patternViews_all elements, View.span_all]
theorem patternViews_all : ∀ ps : List Pattern, patternViews .all ps = ps
  | [] => rfl
  | p :: ps => by simp only [patternViews, p.view_all, patternViews_all ps]
theorem patternView?_all : ∀ p : Option Pattern, patternView? .all p = p
  | none => rfl
  | some p => by simp only [patternView?, p.view_all]
end

mutual
theorem Ty.view_all : ∀ t : Ty, t.view .all = t
  | .path _ => by simp only [Ty.view, Path.view_all]
  | .never _ | .inferred _ => by simp only [Ty.view, Token.view_all]
  | .reference _ target _ => by simp only [Ty.view, target.view_all, View.span_all]
  | .array element length _ => by
    simp only [Ty.view, element.view_all, length.view_all, View.span_all]
  | .slice element _ => by simp only [Ty.view, element.view_all, View.span_all]
  | .tuple elements _ => by simp only [Ty.view, tyViews_all elements, View.span_all]
theorem tyViews_all : ∀ ts : List Ty, tyViews .all ts = ts
  | [] => rfl
  | t :: ts => by simp only [tyViews, t.view_all, tyViews_all ts]
theorem tyView?_all : ∀ t : Option Ty, tyView? .all t = t
  | none => rfl
  | some t => by simp only [tyView?, t.view_all]
theorem Expr.view_all : ∀ e : Expr, e.view .all = e
  | .literal _ | .continueLoop _ | .underscore _ => by simp only [Expr.view, Token.view_all]
  | .path _ => by simp only [Expr.view, Path.view_all]
  | .unary _ e _ | .field e _ _ => by
    simp only [Expr.view, Token.view_all, e.view_all, View.span_all]
  | .borrow _ e _ | .deref e _ | .grouped e _ => by simp only [Expr.view, e.view_all, View.span_all]
  | .binary _ _ e f _ | .compoundAssign _ e f _ => by
    simp only [Expr.view, Token.view_all, e.view_all, f.view_all, View.span_all]
  | .assign e f _ | .arrayRepeat e f _ | .index e f _ => by
    simp only [Expr.view, e.view_all, f.view_all, View.span_all]
  | .cast e t _ => by simp only [Expr.view, e.view_all, t.view_all, View.span_all]
  | .array es _ => by simp only [Expr.view, exprViews_all es, View.span_all]
  | .structLiteral _ fs _ => by
    simp only [Expr.view, Path.view_all, fieldViews_all fs, View.span_all]
  | .call e es _ => by simp only [Expr.view, e.view_all, exprViews_all es, View.span_all]
  | .methodCall e _ es _ => by
    simp only [Expr.view, e.view_all, Token.view_all, exprViews_all es, View.span_all]
  | .breakLoop a _ | .returnValue a _ => by simp only [Expr.view, exprView?_all a, View.span_all]
  | .block b => by simp only [Expr.view, b.view_all]
  | .constBlock b _ | .loop b _ => by simp only [Expr.view, b.view_all, View.span_all]
  | .conditional c => by simp only [Expr.view, c.view_all]
  | .matching e as _ => by simp only [Expr.view, e.view_all, armViews_all as, View.span_all]
  | .whileLoop c b _ => by simp only [Expr.view, c.view_all, b.view_all, View.span_all]
theorem exprViews_all : ∀ es : List Expr, exprViews .all es = es
  | [] => rfl
  | e :: es => by simp only [exprViews, e.view_all, exprViews_all es]
theorem exprView?_all : ∀ e : Option Expr, exprView? .all e = e
  | none => rfl
  | some e => by simp only [exprView?, e.view_all]
theorem FieldValue.view_all : ∀ f : FieldValue, f.view .all = f
  | ⟨_, value, _⟩ => by simp only [FieldValue.view, Token.view_all, value.view_all]
theorem fieldViews_all : ∀ fs : List FieldValue, fieldViews .all fs = fs
  | [] => rfl
  | f :: fs => by simp only [fieldViews, f.view_all, fieldViews_all fs]
theorem Block.view_all : ∀ b : Block, b.view .all = b
  | ⟨ss, e, _⟩ => by simp only [Block.view, stmtViews_all ss, exprView?_all e, View.span_all]
theorem blockView?_all : ∀ b : Option Block, blockView? .all b = b
  | none => rfl
  | some b => by simp only [blockView?, b.view_all]
theorem Condition.view_all : ∀ c : Condition, c.view .all = c
  | .expr e => by simp only [Condition.view, e.view_all]
  | .letChain ls => by simp only [Condition.view, linkViews_all ls]
theorem Link.view_all : ∀ l : Link, l.view .all = l
  | ⟨p, value, _⟩ => by simp only [Link.view, patternView?_all p, value.view_all, View.span_all]
theorem linkViews_all : ∀ ls : List Link, linkViews .all ls = ls
  | [] => rfl
  | l :: ls => by simp only [linkViews, l.view_all, linkViews_all ls]
theorem Conditional.view_all : ∀ c : Conditional, c.view .all = c
  | ⟨condition, body, otherwise, _⟩ => by
    simp only [Conditional.view, condition.view_all, body.view_all, otherwise.view_all, View.span_all]
theorem Otherwise.view_all : ∀ o : Otherwise, o.view .all = o
  | .nothing => rfl
  | .conditional c => by simp only [Otherwise.view, c.view_all]
  | .block b => by simp only [Otherwise.view, b.view_all]
theorem Arm.view_all : ∀ a : Arm, a.view .all = a
  | ⟨p, guard, body, _⟩ => by
    simp only [Arm.view, p.view_all, exprView?_all guard, body.view_all, View.span_all]
theorem armViews_all : ∀ as : List Arm, armViews .all as = as
  | [] => rfl
  | a :: as => by simp only [armViews, a.view_all, armViews_all as]
theorem Stmt.view_all : ∀ s : Stmt, s.view .all = s
  | .empty _ => rfl
  | .item i => by simp only [Stmt.view, i.view_all]
  | .letBinding p a e _ => by
    simp only [Stmt.view, p.view_all, tyView?_all a, exprView?_all e, View.span_all]
  | .expr e _ _ => by simp only [Stmt.view, e.view_all, View.span_all]
theorem stmtViews_all : ∀ ss : List Stmt, stmtViews .all ss = ss
  | [] => rfl
  | s :: ss => by simp only [stmtViews, s.view_all, stmtViews_all ss]
theorem TypedName.view_all : ∀ n : TypedName, n.view .all = n
  | ⟨_, a, _⟩ => by simp only [TypedName.view, Token.view_all, a.view_all, View.span_all]
theorem typedNameViews_all : ∀ ns : List TypedName, typedNameViews .all ns = ns
  | [] => rfl
  | n :: ns => by simp only [typedNameViews, n.view_all, typedNameViews_all ns]
theorem SelfParam.view_all : ∀ p : SelfParam, p.view .all = p
  | ⟨_, _, a, _⟩ => by simp only [SelfParam.view, tyView?_all a, View.span_all]
theorem selfView?_all : ∀ p : Option SelfParam, selfView? .all p = p
  | none => rfl
  | some p => by simp only [selfView?, p.view_all]
theorem FunctionDecl.view_all : ∀ f : FunctionDecl, f.view .all = f
  | ⟨_, _, p, ps, r, b, _⟩ => by
    simp only [FunctionDecl.view, Token.view_all, selfView?_all p, typedNameViews_all ps, tyView?_all r, blockView?_all b, View.span_all]
theorem ConstantDecl.view_all : ∀ c : ConstantDecl, c.view .all = c
  | ⟨_, a, value, _⟩ => by
    simp only [ConstantDecl.view, Token.view_all, a.view_all, exprView?_all value, View.span_all]
theorem Member.view_all : ∀ m : Member, m.view .all = m
  | .constant c => by simp only [Member.view, c.view_all]
  | .function f => by simp only [Member.view, f.view_all]
theorem memberViews_all : ∀ ms : List Member, memberViews .all ms = ms
  | [] => rfl
  | m :: ms => by simp only [memberViews, m.view_all, memberViews_all ms]
theorem Item.view_all : ∀ i : Item, i.view .all = i
  | .function f => by simp only [Item.view, f.view_all]
  | .unitStruct _ _ => rfl
  | .struct _ ns _ => by simp only [Item.view, Token.view_all, typedNameViews_all ns, View.span_all]
  | .enum _ vs _ => by
    simp only [Item.view, Token.view_all, Token.view_all_eq, List.map_id, View.span_all]
  | .constant c => by simp only [Item.view, c.view_all]
  | .trait _ ms _ => by simp only [Item.view, Token.view_all, memberViews_all ms, View.span_all]
  | .impl _ a ms _ => by
    simp only [Item.view, Token.view_all_eq, Option.map_id, id, a.view_all, memberViews_all ms, View.span_all]
end

theorem Crate.view_all (c : Crate) : c.view .all = c := by
  have hview : Item.view .all = id := funext Item.view_all
  simp only [Crate.view, hview, List.map_id, View.span_all]

section Twice

variable (u v : View)

/-- What a view shows, seen through another. -/
def View.comp : View where
  position place := u.position (v.position place)
  text kind text := u.text kind (v.text kind text)
  constants := v.constants && u.constants

theorem View.span_view (s : Span) : u.span (v.span s) = (u.comp v).span s := rfl

theorem Token.view_view (t : Token) : (t.view v).view u = t.view (u.comp v) := rfl

theorem Token.view_comp_view : Token.view u ∘ Token.view v = Token.view (u.comp v) := rfl

theorem Path.view_view (p : Path) : (p.view v).view u = p.view (u.comp v) := by
  simp only [Path.view, List.map_map, Token.view_comp_view, View.span_view]

theorem Pattern.view_view_path (p : Path) :
    ((Pattern.path p).view v).view u = (Pattern.path p).view (u.comp v) := by
  obtain ⟨_ | ⟨name, _ | ⟨next, names⟩⟩, span⟩ := p
  · rfl
  · cases hv : v.constants <;> cases hu : u.constants <;> by_cases hk : name.kind = .identifier <;>
      simp [Pattern.view, View.comp, hv, hu, hk, Token.view, View.span, patternView?]
  · exact congrArg Pattern.path (Path.view_view u v ⟨name :: next :: names, span⟩)

mutual
/-- What a view shows of a pattern, seen through another view. -/
theorem Pattern.view_view : ∀ p : Pattern, (p.view v).view u = p.view (u.comp v)
  | .literal _ _ _ | .wildcard _ => rfl
  | .identifier _ _ _ sub _ => by
    simp only [Pattern.view, Token.view_view, patternView?_twice sub, View.span_view]
  | .reference _ inner _ => by simp only [Pattern.view, inner.view_view, View.span_view]
  | .path p => Pattern.view_view_path u v p
  | .tupleStruct _ elements _ => by
    simp only [Pattern.view, Path.view_view, patternViews_twice elements, View.span_view]
theorem patternViews_twice : ∀ ps : List Pattern, patternViews u (patternViews v ps) = patternViews (u.comp v) ps
  | [] => rfl
  | p :: ps => by simp only [patternViews, p.view_view, patternViews_twice ps]
theorem patternView?_twice : ∀ p : Option Pattern, patternView? u (patternView? v p) = patternView? (u.comp v) p
  | none => rfl
  | some p => by simp only [patternView?, p.view_view]
end

mutual
theorem Ty.view_view : ∀ t : Ty, (t.view v).view u = t.view (u.comp v)
  | .path _ => by simp only [Ty.view, Path.view_view]
  | .never _ | .inferred _ => by simp only [Ty.view, Token.view_view]
  | .reference _ target _ => by simp only [Ty.view, target.view_view, View.span_view]
  | .array element length _ => by
    simp only [Ty.view, element.view_view, length.view_view, View.span_view]
  | .slice element _ => by simp only [Ty.view, element.view_view, View.span_view]
  | .tuple elements _ => by simp only [Ty.view, tyViews_twice elements, View.span_view]
theorem tyViews_twice : ∀ ts : List Ty, tyViews u (tyViews v ts) = tyViews (u.comp v) ts
  | [] => rfl
  | t :: ts => by simp only [tyViews, t.view_view, tyViews_twice ts]
theorem tyView?_twice : ∀ t : Option Ty, tyView? u (tyView? v t) = tyView? (u.comp v) t
  | none => rfl
  | some t => by simp only [tyView?, t.view_view]
theorem Expr.view_view : ∀ e : Expr, (e.view v).view u = e.view (u.comp v)
  | .literal _ | .continueLoop _ | .underscore _ => by simp only [Expr.view, Token.view_view]
  | .path _ => by simp only [Expr.view, Path.view_view]
  | .unary _ e _ | .field e _ _ => by
    simp only [Expr.view, Token.view_view, e.view_view, View.span_view]
  | .borrow _ e _ | .deref e _ | .grouped e _ => by simp only [Expr.view, e.view_view, View.span_view]
  | .binary _ _ e f _ | .compoundAssign _ e f _ => by
    simp only [Expr.view, Token.view_view, e.view_view, f.view_view, View.span_view]
  | .assign e f _ | .arrayRepeat e f _ | .index e f _ => by
    simp only [Expr.view, e.view_view, f.view_view, View.span_view]
  | .cast e t _ => by simp only [Expr.view, e.view_view, t.view_view, View.span_view]
  | .array es _ => by simp only [Expr.view, exprViews_twice es, View.span_view]
  | .structLiteral _ fs _ => by
    simp only [Expr.view, Path.view_view, fieldViews_twice fs, View.span_view]
  | .call e es _ => by simp only [Expr.view, e.view_view, exprViews_twice es, View.span_view]
  | .methodCall e _ es _ => by
    simp only [Expr.view, e.view_view, Token.view_view, exprViews_twice es, View.span_view]
  | .breakLoop a _ | .returnValue a _ => by simp only [Expr.view, exprView?_twice a, View.span_view]
  | .block b => by simp only [Expr.view, b.view_view]
  | .constBlock b _ | .loop b _ => by simp only [Expr.view, b.view_view, View.span_view]
  | .conditional c => by simp only [Expr.view, c.view_view]
  | .matching e as _ => by simp only [Expr.view, e.view_view, armViews_twice as, View.span_view]
  | .whileLoop c b _ => by simp only [Expr.view, c.view_view, b.view_view, View.span_view]
theorem exprViews_twice : ∀ es : List Expr, exprViews u (exprViews v es) = exprViews (u.comp v) es
  | [] => rfl
  | e :: es => by simp only [exprViews, e.view_view, exprViews_twice es]
theorem exprView?_twice : ∀ e : Option Expr, exprView? u (exprView? v e) = exprView? (u.comp v) e
  | none => rfl
  | some e => by simp only [exprView?, e.view_view]
theorem FieldValue.view_view : ∀ f : FieldValue, (f.view v).view u = f.view (u.comp v)
  | ⟨_, value, _⟩ => by simp only [FieldValue.view, Token.view_view, value.view_view]
theorem fieldViews_twice : ∀ fs : List FieldValue, fieldViews u (fieldViews v fs) = fieldViews (u.comp v) fs
  | [] => rfl
  | f :: fs => by simp only [fieldViews, f.view_view, fieldViews_twice fs]
theorem Block.view_view : ∀ b : Block, (b.view v).view u = b.view (u.comp v)
  | ⟨ss, e, _⟩ => by simp only [Block.view, stmtViews_twice ss, exprView?_twice e, View.span_view]
theorem blockView?_twice : ∀ b : Option Block, blockView? u (blockView? v b) = blockView? (u.comp v) b
  | none => rfl
  | some b => by simp only [blockView?, b.view_view]
theorem Condition.view_view : ∀ c : Condition, (c.view v).view u = c.view (u.comp v)
  | .expr e => by simp only [Condition.view, e.view_view]
  | .letChain ls => by simp only [Condition.view, linkViews_twice ls]
theorem Link.view_view : ∀ l : Link, (l.view v).view u = l.view (u.comp v)
  | ⟨p, value, _⟩ => by simp only [Link.view, patternView?_twice u v p, value.view_view, View.span_view]
theorem linkViews_twice : ∀ ls : List Link, linkViews u (linkViews v ls) = linkViews (u.comp v) ls
  | [] => rfl
  | l :: ls => by simp only [linkViews, l.view_view, linkViews_twice ls]
theorem Conditional.view_view : ∀ c : Conditional, (c.view v).view u = c.view (u.comp v)
  | ⟨condition, body, otherwise, _⟩ => by
    simp only [Conditional.view, condition.view_view, body.view_view, otherwise.view_view, View.span_view]
theorem Otherwise.view_view : ∀ o : Otherwise, (o.view v).view u = o.view (u.comp v)
  | .nothing => rfl
  | .conditional c => by simp only [Otherwise.view, c.view_view]
  | .block b => by simp only [Otherwise.view, b.view_view]
theorem Arm.view_view : ∀ a : Arm, (a.view v).view u = a.view (u.comp v)
  | ⟨p, guard, body, _⟩ => by
    simp only [Arm.view, p.view_view, exprView?_twice guard, body.view_view, View.span_view]
theorem armViews_twice : ∀ as : List Arm, armViews u (armViews v as) = armViews (u.comp v) as
  | [] => rfl
  | a :: as => by simp only [armViews, a.view_view, armViews_twice as]
theorem Stmt.view_view : ∀ s : Stmt, (s.view v).view u = s.view (u.comp v)
  | .empty _ => rfl
  | .item i => by simp only [Stmt.view, i.view_view]
  | .letBinding p a e _ => by
    simp only [Stmt.view, p.view_view, tyView?_twice a, exprView?_twice e, View.span_view]
  | .expr e _ _ => by simp only [Stmt.view, e.view_view, View.span_view]
theorem stmtViews_twice : ∀ ss : List Stmt, stmtViews u (stmtViews v ss) = stmtViews (u.comp v) ss
  | [] => rfl
  | s :: ss => by simp only [stmtViews, s.view_view, stmtViews_twice ss]
theorem TypedName.view_view : ∀ n : TypedName, (n.view v).view u = n.view (u.comp v)
  | ⟨_, a, _⟩ => by simp only [TypedName.view, Token.view_view, a.view_view, View.span_view]
theorem typedNameViews_twice : ∀ ns : List TypedName, typedNameViews u (typedNameViews v ns) = typedNameViews (u.comp v) ns
  | [] => rfl
  | n :: ns => by simp only [typedNameViews, n.view_view, typedNameViews_twice ns]
theorem SelfParam.view_view : ∀ p : SelfParam, (p.view v).view u = p.view (u.comp v)
  | ⟨_, _, a, _⟩ => by simp only [SelfParam.view, tyView?_twice a, View.span_view]
theorem selfView?_twice : ∀ p : Option SelfParam, selfView? u (selfView? v p) = selfView? (u.comp v) p
  | none => rfl
  | some p => by simp only [selfView?, p.view_view]
theorem FunctionDecl.view_view : ∀ f : FunctionDecl, (f.view v).view u = f.view (u.comp v)
  | ⟨_, _, p, ps, r, b, _⟩ => by
    simp only [FunctionDecl.view, Token.view_view, selfView?_twice p, typedNameViews_twice ps, tyView?_twice r, blockView?_twice b, View.span_view]
theorem ConstantDecl.view_view : ∀ c : ConstantDecl, (c.view v).view u = c.view (u.comp v)
  | ⟨_, a, value, _⟩ => by
    simp only [ConstantDecl.view, Token.view_view, a.view_view, exprView?_twice value, View.span_view]
theorem Member.view_view : ∀ m : Member, (m.view v).view u = m.view (u.comp v)
  | .constant c => by simp only [Member.view, c.view_view]
  | .function f => by simp only [Member.view, f.view_view]
theorem memberViews_twice : ∀ ms : List Member, memberViews u (memberViews v ms) = memberViews (u.comp v) ms
  | [] => rfl
  | m :: ms => by simp only [memberViews, m.view_view, memberViews_twice ms]
theorem Item.view_view : ∀ i : Item, (i.view v).view u = i.view (u.comp v)
  | .function f => by simp only [Item.view, f.view_view]
  | .unitStruct _ _ => rfl
  | .struct _ ns _ => by simp only [Item.view, Token.view_view, typedNameViews_twice ns, View.span_view]
  | .enum _ vs _ => by
    simp only [Item.view, Token.view_view, List.map_map, Token.view_comp_view, View.span_view]
  | .constant c => by simp only [Item.view, c.view_view]
  | .trait _ ms _ => by simp only [Item.view, Token.view_view, memberViews_twice ms, View.span_view]
  | .impl _ a ms _ => by
    simp only [Item.view, Option.map_map, Token.view_comp_view, a.view_view, memberViews_twice ms, View.span_view]
end

theorem Crate.view_view (c : Crate) : (c.view v).view u = c.view (u.comp v) := by
  have hitems : Item.view u ∘ Item.view v = Item.view (u.comp v) := funext fun i => i.view_view u v
  simp only [Crate.view, List.map_map, hitems, View.span_view]

end Twice

def View.bare : View := ⟨fun _ => .origin "", fun _ text => text, true⟩

theorem View.span_bare (s : Span) : View.bare.span s = .nowhere := rfl

theorem Token.view_bare (t : Token) : t.view .bare = t.bare := rfl

theorem Token.view_bare_eq : Token.view .bare = Token.bare := rfl

theorem Path.view_bare (p : Path) : p.view .bare = p.bare := by
  simp [Path.view, Path.bare, View.span_bare, Token.view_bare_eq]

mutual
/-- A pattern without places is what the view that forgets them shows. -/
theorem Pattern.view_bare : ∀ p : Pattern, p.view .bare = p.bare
  | .literal _ _ _ | .wildcard _ => rfl
  | .identifier _ _ _ sub _ => by
    simp only [Pattern.view, Pattern.bare, Token.view_bare, patternView?_bare sub, View.span_bare]
  | .reference _ inner _ => by
    simp only [Pattern.view, Pattern.bare, inner.view_bare, View.span_bare]
  | .path p => by rw [Pattern.view_path _ p rfl, Path.view_bare, Pattern.bare]
  | .tupleStruct _ elements _ => by
    simp only [Pattern.view, Pattern.bare, Path.view_bare, patternViews_bare elements, View.span_bare]
theorem patternViews_bare : ∀ ps : List Pattern, patternViews .bare ps = patternBares ps
  | [] => rfl
  | p :: ps => by simp only [patternViews, patternBares, p.view_bare, patternViews_bare ps]
theorem patternView?_bare : ∀ p : Option Pattern, patternView? .bare p = patternBare? p
  | none => rfl
  | some p => by simp only [patternView?, patternBare?, p.view_bare]
end

mutual
theorem Ty.view_bare : ∀ t : Ty, t.view .bare = t.bare
  | .path _ => by simp only [Ty.view, Ty.bare, Path.view_bare]
  | .never _ | .inferred _ => by simp only [Ty.view, Ty.bare, Token.view_bare]
  | .reference _ target _ => by simp only [Ty.view, Ty.bare, target.view_bare, View.span_bare]
  | .array element length _ => by
    simp only [Ty.view, Ty.bare, element.view_bare, length.view_bare, View.span_bare]
  | .slice element _ => by simp only [Ty.view, Ty.bare, element.view_bare, View.span_bare]
  | .tuple elements _ => by simp only [Ty.view, Ty.bare, tyViews_bare elements, View.span_bare]
theorem tyViews_bare : ∀ ts : List Ty, tyViews .bare ts = tyBares ts
  | [] => rfl
  | t :: ts => by simp only [tyViews, tyBares, t.view_bare, tyViews_bare ts]
theorem tyView?_bare : ∀ t : Option Ty, tyView? .bare t = tyBare? t
  | none => rfl
  | some t => by simp only [tyView?, tyBare?, t.view_bare]
theorem Expr.view_bare : ∀ e : Expr, e.view .bare = e.bare
  | .literal _ | .continueLoop _ | .underscore _ => by
    simp only [Expr.view, Expr.bare, Token.view_bare]
  | .path _ => by simp only [Expr.view, Expr.bare, Path.view_bare]
  | .unary _ e _ | .field e _ _ => by
    simp only [Expr.view, Expr.bare, Token.view_bare, e.view_bare, View.span_bare]
  | .borrow _ e _ | .deref e _ | .grouped e _ => by
    simp only [Expr.view, Expr.bare, e.view_bare, View.span_bare]
  | .binary _ _ e f _ | .compoundAssign _ e f _ => by
    simp only [Expr.view, Expr.bare, Token.view_bare, e.view_bare, f.view_bare, View.span_bare]
  | .assign e f _ | .arrayRepeat e f _ | .index e f _ => by
    simp only [Expr.view, Expr.bare, e.view_bare, f.view_bare, View.span_bare]
  | .cast e t _ => by simp only [Expr.view, Expr.bare, e.view_bare, t.view_bare, View.span_bare]
  | .array es _ => by simp only [Expr.view, Expr.bare, exprViews_bare es, View.span_bare]
  | .structLiteral _ fs _ => by
    simp only [Expr.view, Expr.bare, Path.view_bare, fieldViews_bare fs, View.span_bare]
  | .call e es _ => by
    simp only [Expr.view, Expr.bare, e.view_bare, exprViews_bare es, View.span_bare]
  | .methodCall e _ es _ => by
    simp only [Expr.view, Expr.bare, e.view_bare, Token.view_bare, exprViews_bare es, View.span_bare]
  | .breakLoop a _ | .returnValue a _ => by
    simp only [Expr.view, Expr.bare, exprView?_bare a, View.span_bare]
  | .block b => by simp only [Expr.view, Expr.bare, b.view_bare]
  | .constBlock b _ | .loop b _ => by simp only [Expr.view, Expr.bare, b.view_bare, View.span_bare]
  | .conditional c => by simp only [Expr.view, Expr.bare, c.view_bare]
  | .matching e as _ => by
    simp only [Expr.view, Expr.bare, e.view_bare, armViews_bare as, View.span_bare]
  | .whileLoop c b _ => by
    simp only [Expr.view, Expr.bare, c.view_bare, b.view_bare, View.span_bare]
theorem exprViews_bare : ∀ es : List Expr, exprViews .bare es = exprBares es
  | [] => rfl
  | e :: es => by simp only [exprViews, exprBares, e.view_bare, exprViews_bare es]
theorem exprView?_bare : ∀ e : Option Expr, exprView? .bare e = exprBare? e
  | none => rfl
  | some e => by simp only [exprView?, exprBare?, e.view_bare]
theorem FieldValue.view_bare : ∀ f : FieldValue, f.view .bare = f.bare
  | ⟨_, value, _⟩ => by
    simp only [FieldValue.view, FieldValue.bare, Token.view_bare, value.view_bare]
theorem fieldViews_bare : ∀ fs : List FieldValue, fieldViews .bare fs = fieldBares fs
  | [] => rfl
  | f :: fs => by simp only [fieldViews, fieldBares, f.view_bare, fieldViews_bare fs]
theorem Block.view_bare : ∀ b : Block, b.view .bare = b.bare
  | ⟨ss, e, _⟩ => by
    simp only [Block.view, Block.bare, stmtViews_bare ss, exprView?_bare e, View.span_bare]
theorem blockView?_bare : ∀ b : Option Block, blockView? .bare b = blockBare? b
  | none => rfl
  | some b => by simp only [blockView?, blockBare?, b.view_bare]
theorem Condition.view_bare : ∀ c : Condition, c.view .bare = c.bare
  | .expr e => by simp only [Condition.view, Condition.bare, e.view_bare]
  | .letChain ls => by simp only [Condition.view, Condition.bare, linkViews_bare ls]
theorem Link.view_bare : ∀ l : Link, l.view .bare = l.bare
  | ⟨p, value, _⟩ => by
    simp only [Link.view, Link.bare, patternView?_bare p, value.view_bare, View.span_bare]
theorem linkViews_bare : ∀ ls : List Link, linkViews .bare ls = linkBares ls
  | [] => rfl
  | l :: ls => by simp only [linkViews, linkBares, l.view_bare, linkViews_bare ls]
theorem Conditional.view_bare : ∀ c : Conditional, c.view .bare = c.bare
  | ⟨condition, body, otherwise, _⟩ => by
    simp only [Conditional.view, Conditional.bare, condition.view_bare, body.view_bare, otherwise.view_bare, View.span_bare]
theorem Otherwise.view_bare : ∀ o : Otherwise, o.view .bare = o.bare
  | .nothing => rfl
  | .conditional c => by simp only [Otherwise.view, Otherwise.bare, c.view_bare]
  | .block b => by simp only [Otherwise.view, Otherwise.bare, b.view_bare]
theorem Arm.view_bare : ∀ a : Arm, a.view .bare = a.bare
  | ⟨p, guard, body, _⟩ => by
    simp only [Arm.view, Arm.bare, p.view_bare, exprView?_bare guard, body.view_bare, View.span_bare]
theorem armViews_bare : ∀ as : List Arm, armViews .bare as = armBares as
  | [] => rfl
  | a :: as => by simp only [armViews, armBares, a.view_bare, armViews_bare as]
theorem Stmt.view_bare : ∀ s : Stmt, s.view .bare = s.bare
  | .empty _ => rfl
  | .item i => by simp only [Stmt.view, Stmt.bare, i.view_bare]
  | .letBinding p a e _ => by
    simp only [Stmt.view, Stmt.bare, p.view_bare, tyView?_bare a, exprView?_bare e, View.span_bare]
  | .expr e _ _ => by simp only [Stmt.view, Stmt.bare, e.view_bare, View.span_bare]
theorem stmtViews_bare : ∀ ss : List Stmt, stmtViews .bare ss = stmtBares ss
  | [] => rfl
  | s :: ss => by simp only [stmtViews, stmtBares, s.view_bare, stmtViews_bare ss]
theorem TypedName.view_bare : ∀ n : TypedName, n.view .bare = n.bare
  | ⟨_, a, _⟩ => by
    simp only [TypedName.view, TypedName.bare, Token.view_bare, a.view_bare, View.span_bare]
theorem typedNameViews_bare : ∀ ns : List TypedName, typedNameViews .bare ns = typedNameBares ns
  | [] => rfl
  | n :: ns => by simp only [typedNameViews, typedNameBares, n.view_bare, typedNameViews_bare ns]
theorem SelfParam.view_bare : ∀ p : SelfParam, p.view .bare = p.bare
  | ⟨_, _, a, _⟩ => by simp only [SelfParam.view, SelfParam.bare, tyView?_bare a, View.span_bare]
theorem selfView?_bare : ∀ p : Option SelfParam, selfView? .bare p = selfBare? p
  | none => rfl
  | some p => by simp only [selfView?, selfBare?, p.view_bare]
theorem FunctionDecl.view_bare : ∀ f : FunctionDecl, f.view .bare = f.bare
  | ⟨_, _, p, ps, r, b, _⟩ => by
    simp only [FunctionDecl.view, FunctionDecl.bare, Token.view_bare, selfView?_bare p, typedNameViews_bare ps, tyView?_bare r, blockView?_bare b, View.span_bare]
theorem ConstantDecl.view_bare : ∀ c : ConstantDecl, c.view .bare = c.bare
  | ⟨_, a, value, _⟩ => by
    simp only [ConstantDecl.view, ConstantDecl.bare, Token.view_bare, a.view_bare, exprView?_bare value, View.span_bare]
theorem Member.view_bare : ∀ m : Member, m.view .bare = m.bare
  | .constant c => by simp only [Member.view, Member.bare, c.view_bare]
  | .function f => by simp only [Member.view, Member.bare, f.view_bare]
theorem memberViews_bare : ∀ ms : List Member, memberViews .bare ms = memberBares ms
  | [] => rfl
  | m :: ms => by simp only [memberViews, memberBares, m.view_bare, memberViews_bare ms]
theorem Item.view_bare : ∀ i : Item, i.view .bare = i.bare
  | .function f => by simp only [Item.view, Item.bare, f.view_bare]
  | .unitStruct _ _ => rfl
  | .struct _ ns _ => by
    simp only [Item.view, Item.bare, Token.view_bare, typedNameViews_bare ns, View.span_bare]
  | .enum _ vs _ => by
    simp only [Item.view, Item.bare, Token.view_bare, Token.view_bare_eq, View.span_bare]
  | .constant c => by simp only [Item.view, Item.bare, c.view_bare]
  | .trait _ ms _ => by
    simp only [Item.view, Item.bare, Token.view_bare, memberViews_bare ms, View.span_bare]
  | .impl _ a ms _ => by
    simp only [Item.view, Item.bare, Token.view_bare_eq, a.view_bare, memberViews_bare ms, View.span_bare]
end

end FrontEnd
