import FrontEnd.Proofs.Derivation
/-!
# What a tree does to the scopes

Walking through a tree in the order in which it is written opens and closes scopes, declares and
binds symbols and comes by patterns that are just a name. What happens and when is a list of events,
which can be told from the tree alone.
-/
namespace FrontEnd

/-- What can happen to the scopes. -/
inductive Event
  | opened
  | closed
  | declared (symbol : Symbol) (position : Position)
  | bound (symbol : Symbol)
  /-- A pattern that is just a name, which means a constant or not. -/
  | named (name : String) (constant : Bool)

namespace Pattern

mutual
/-- The patterns inside a pattern, in the order in which they begin. -/
def inside : Pattern → List Pattern
  | identifier _ _ _ none _ => []
  | identifier _ _ _ (some sub) _ => sub :: sub.inside
  | reference _ inner _ => inner :: inner.inside
  | tupleStruct _ elements _ => insideAll elements
  | literal _ _ _ | wildcard _ | .path _ => []
def insideAll : List Pattern → List Pattern
  | [] => []
  | p :: ps => p :: (p.inside ++ insideAll ps)
end

/-- The name that a pattern gives to the value as a whole. -/
def binding? : Pattern → Option Binding
  | identifier name _ mutable _ _ => some ⟨name, mutable⟩
  | _ => none

theorem filterMap_binding?_cons (p : Pattern) (ps : List Pattern) :
    (p :: ps).filterMap binding? = p.binding?.toList ++ ps.filterMap binding? := by
  cases h : p.binding? <;> simp [h]

mutual
/-- The names that a pattern binds are its own and those of the patterns inside it. -/
theorem bindings_eq (p : Pattern) :
    p.bindings = p.binding?.toList ++ p.inside.filterMap binding? := by
  cases p with
  | identifier name byRef mutable sub span =>
    cases sub with
    | none => rfl
    | some sub =>
      rw [bindings, sub.bindings_eq, inside, filterMap_binding?_cons]
      rfl
  | reference mutable inner span =>
    rw [bindings, inner.bindings_eq, inside, filterMap_binding?_cons]
    rfl
  | tupleStruct path elements span => exact bindingsOfList_eq elements
  | _ => rfl
theorem bindingsOfList_eq (ps : List Pattern) :
    bindingsOfList ps = (insideAll ps).filterMap binding? := by
  cases ps with
  | nil => rfl
  | cons p ps =>
    rw [bindingsOfList, p.bindings_eq, bindingsOfList_eq ps, insideAll, filterMap_binding?_cons,
      List.filterMap_append, List.append_assoc]
end

end Pattern

namespace Event

def inScope (events : List Event) : List Event := opened :: (events ++ [closed])

def ofBinding (ty : Option Ty) (b : Pattern.Binding) : Event :=
  bound (.var b.name.value ty b.mutable)

/-- All names in a pattern are bound in the order in which they are written. The type stated beside
the pattern is that of the value as a whole. -/
def binds (p : Pattern) (ty : Option Ty) : List Event :=
  p.binding?.toList.map (ofBinding ty) ++ (p.inside.filterMap Pattern.binding?).map (ofBinding none)

theorem binds_eq (p : Pattern) (ty : Option Ty) :
    binds p ty = (Symbol.ofPattern p ty).map bound := by
  have hwhole : p.isIdentifier = p.binding?.isSome := by cases p <;> rfl
  unfold binds Symbol.ofPattern
  rw [p.bindings_eq, hwhole]
  cases p.binding? with
  | some b => simp [ofBinding]
  | none => cases p.inside.filterMap Pattern.binding? <;> simp [ofBinding]

def ofItem (i : Item) : Event := declared (.ofItem i) i.span.start

def ofMember (m : Member) : Event := declared (.ofMember m) m.span.start

def ofParam (n : TypedName) : Event :=
  declared (.var n.name.value (some n.ty) false) n.name.span.start

def ofSelf (s : SelfParam) : Event := declared (.var "self" s.ty s.mutable) s.span.start

end Event

open Event (inScope binds)

mutual
/-- What happens in a pattern. Its names are not bound before what belongs to it has been read. -/
def Pattern.events : Pattern → List Event
  | .identifier name false false none _ => [.named name.value false]
  | .identifier _ _ _ none _ => []
  | .identifier _ _ _ (some sub) _ => sub.events
  | .reference _ inner _ => inner.events
  | .path ⟨[name], _⟩ => if name.kind = .identifier then [.named name.value true] else []
  | .path _ => []
  | .tupleStruct _ elements _ => patternEvents elements
  | .literal _ _ _ | .wildcard _ => []
def patternEvents : List Pattern → List Event
  | [] => []
  | p :: ps => p.events ++ patternEvents ps
end

mutual
def Ty.events : Ty → List Event
  | .path _ => []
  | .reference _ target _ => target.events
  | .array element length _ => element.events ++ length.events
  | .slice element _ => element.events
  | .tuple elements _ => tyEvents elements
  | .never _ => []
  | .inferred _ => []
def tyEvents : List Ty → List Event
  | [] => []
  | t :: ts => t.events ++ tyEvents ts
def tyEvents? : Option Ty → List Event
  | none => []
  | some t => t.events
def Expr.events : Expr → List Event
  | .literal _ => []
  | .path _ => []
  | .unary _ e _ => e.events
  | .borrow _ e _ => e.events
  | .deref e _ => e.events
  | .binary _ _ e f _ => e.events ++ f.events
  | .cast e t _ => e.events ++ t.events
  | .assign e f _ => e.events ++ f.events
  | .compoundAssign _ e f _ => e.events ++ f.events
  | .grouped e _ => e.events
  | .array es _ => exprEvents es
  | .arrayRepeat e f _ => e.events ++ f.events
  | .index e f _ => e.events ++ f.events
  | .structLiteral _ fs _ => fieldEvents fs
  | .call e es _ => e.events ++ exprEvents es
  | .methodCall e _ es _ => e.events ++ exprEvents es
  | .field e _ _ => e.events
  | .breakLoop v _ => exprEvents? v
  | .continueLoop _ => []
  | .returnValue v _ => exprEvents? v
  | .underscore _ => []
  | .block b => b.events
  | .constBlock b _ => b.events
  | .conditional c => c.events
  | .matching e as _ => e.events ++ armEvents as
  | .loop b _ => b.events
  | .whileLoop c b _ => inScope (c.events ++ b.events)
def exprEvents : List Expr → List Event
  | [] => []
  | e :: es => e.events ++ exprEvents es
def exprEvents? : Option Expr → List Event
  | none => []
  | some e => e.events
def FieldValue.events : FieldValue → List Event
  | ⟨_, e, _⟩ => e.events
def fieldEvents : List FieldValue → List Event
  | [] => []
  | f :: fs => f.events ++ fieldEvents fs
def Block.events : Block → List Event
  | ⟨ss, e, _⟩ => inScope (stmtEvents ss ++ exprEvents? e)
def blockEvents? : Option Block → List Event
  | none => []
  | some b => b.events
def Condition.events : Condition → List Event
  | .expr e => e.events
  | .letChain ls => linkEvents ls
/-- A link binds its names after its value. -/
def Link.events : Link → List Event
  | ⟨none, v, _⟩ => v.events
  | ⟨some p, v, _⟩ => p.events ++ v.events ++ binds p none
def linkEvents : List Link → List Event
  | [] => []
  | l :: ls => l.events ++ linkEvents ls
/-- The condition and the first branch share a scope, which the other branch is not in. -/
def Conditional.events : Conditional → List Event
  | ⟨c, b, o, _⟩ => inScope (c.events ++ b.events) ++ o.events
def Otherwise.events : Otherwise → List Event
  | .nothing => []
  | .conditional c => c.events
  | .block b => b.events
/-- An arm is a scope, and binds the names of its pattern before its guard and its body. -/
def Arm.events : Arm → List Event
  | ⟨p, g, e, _⟩ => inScope (p.events ++ binds p none ++ exprEvents? g ++ e.events)
def armEvents : List Arm → List Event
  | [] => []
  | a :: as => a.events ++ armEvents as
/-- What happens in a statement. An item is declared after it, and a `let` binds after its value. -/
def Stmt.events : Stmt → List Event
  | .empty _ => []
  | .item i => i.events ++ [.ofItem i]
  | .letBinding p a v _ => p.events ++ tyEvents? a ++ exprEvents? v ++ binds p a
  | .expr e _ _ => e.events
def stmtEvents : List Stmt → List Event
  | [] => []
  | s :: ss => s.events ++ stmtEvents ss
def TypedName.events : TypedName → List Event
  | ⟨_, a, _⟩ => a.events
def typedNameEvents : List TypedName → List Event
  | [] => []
  | n :: ns => n.events ++ typedNameEvents ns
def paramEvents : List TypedName → List Event
  | [] => []
  | n :: ns => n.events ++ .ofParam n :: paramEvents ns
def SelfParam.events : SelfParam → List Event
  | ⟨r, m, a, sp⟩ => tyEvents? a ++ [.ofSelf ⟨r, m, a, sp⟩]
def selfEvents? : Option SelfParam → List Event
  | none => []
  | some s => s.events
/-- The parameters are in a scope around that of the body. -/
def FunctionDecl.events : FunctionDecl → List Event
  | ⟨_, _, s, ps, r, b, _⟩ =>
    inScope (selfEvents? s ++ paramEvents ps ++ tyEvents? r ++ blockEvents? b)
def ConstantDecl.events : ConstantDecl → List Event
  | ⟨_, a, v, _⟩ => a.events ++ exprEvents? v
def Member.events : Member → List Event
  | .constant c => c.events
  | .function f => f.events
def memberEvents : List Member → List Event
  | [] => []
  | m :: ms => m.events ++ .ofMember m :: memberEvents ms
/-- What happens in an item. Members are in a scope of their own. -/
def Item.events : Item → List Event
  | .function f => f.events
  | .unitStruct _ _ => []
  | .struct _ fields _ => typedNameEvents fields
  | .enum _ _ _ => []
  | .constant c => c.events
  | .trait _ ms _ => inScope (memberEvents ms)
  | .impl _ target ms _ => target.events ++ inScope (memberEvents ms)
end

def itemEvents (is : List Item) : List Event := is.flatMap fun i => i.events ++ [.ofItem i]

theorem patternEvents_eq (ps : List Pattern) : patternEvents ps = ps.flatMap Pattern.events := by
  induction ps <;> simp_all [patternEvents]

theorem tyEvents_eq (ts : List Ty) : tyEvents ts = ts.flatMap Ty.events := by
  induction ts <;> simp_all [tyEvents]

theorem tyEvents?_eq (t : Option Ty) : tyEvents? t = t.toList.flatMap Ty.events := by
  cases t <;> simp [tyEvents?]

theorem exprEvents_eq (es : List Expr) : exprEvents es = es.flatMap Expr.events := by
  induction es <;> simp_all [exprEvents]

theorem exprEvents?_eq (e : Option Expr) : exprEvents? e = e.toList.flatMap Expr.events := by
  cases e <;> simp [exprEvents?]

theorem fieldEvents_eq (fs : List FieldValue) :
    fieldEvents fs = fs.flatMap FieldValue.events := by
  induction fs <;> simp_all [fieldEvents]

theorem linkEvents_eq (ls : List Link) : linkEvents ls = ls.flatMap Link.events := by
  induction ls <;> simp_all [linkEvents]

theorem armEvents_eq (as : List Arm) : armEvents as = as.flatMap Arm.events := by
  induction as <;> simp_all [armEvents]

theorem typedNameEvents_eq (ns : List TypedName) :
    typedNameEvents ns = ns.flatMap TypedName.events := by
  induction ns <;> simp_all [typedNameEvents]

theorem paramEvents_eq (ns : List TypedName) :
    paramEvents ns = ns.flatMap fun n => n.events ++ [.ofParam n] := by
  induction ns <;> simp_all [paramEvents]

def Suffix.events : Suffix → List Event
  | binary _ e | assign e | compoundAssign _ e | index e _ => e.events
  | cast t => t.events
  | call es _ | methodCall _ es _ => exprEvents es
  | field _ => []

theorem Suffix.events_attach (s : Suffix) (e : Expr) : (s.attach e).events = e.events ++ s.events := by
  cases s <;> simp [attach, Expr.events, events]

theorem Suffix.events_foldl (ss : List Suffix) (e : Expr) :
    (ss.foldl attach e).events = e.events ++ ss.flatMap Suffix.events := by
  induction ss generalizing e <;> simp_all [events_attach]

def Form.events : (σ : Form) → σ.Tree → List Event
  | segment, _ | name, _ | flag _, _ | path, _ => []
  | after _ form, a => a.toList.flatMap form.events
  | eachAfter _ form, as | list _ form, as | more _ form, as => as.flatMap form.events
  | ty, t => t.events
  | pattern, p => p.events
  | expr _, e | term, e | statementExpr, e => e.events
  | suffix, s => s.events
  | suffixes _, ss => ss.flatMap Suffix.events
  | field, f => f.events
  | jumpValue, v => exprEvents? v
  | block, b => b.events
  | element, s | statement, s => s.events
  | elements, (ss, e) => stmtEvents ss ++ exprEvents? e
  | letLink, l | link, l => l.events
  | condition, c => c.events
  | conditional, c => c.events
  | otherwise, o => o.events
  | arm, a => a.events
  | arms, as => armEvents as
  | typedName, n => n.events
  | param, n => n.events ++ [.ofParam n]
  | selfParam, s => s.events
  | params, (s, ps) => selfEvents? s ++ paramEvents ps
  | body _, b => blockEvents? b
  | function _, f => f.events
  | constant _, c => c.events
  | member _, m => m.events
  | members _, ms => memberEvents ms
  | item, i => i.events
  | declaredItem, i => i.events ++ [.ofItem i]
  | items, is => itemEvents is

end FrontEnd
