import FrontEnd.Proofs.Tree.Node
/-!
# Pieces

What a node is made of, in the order in which it is written: the nodes in it, the tokens that it
keeps, and the marks between them, which it does not keep. Nodes without a span of their own do not
count; what they are made of belongs to the node around them.
-/
namespace FrontEnd

/-- The text that a node covers, if it has a span. -/
def Node.span? : Node → Option Span
  | path p => some p.span
  | pattern p => some p.span
  | ty t => some t.span
  | expr e => some e.span
  | block b => some b.span
  | link l => some l.span
  | conditional c => some c.span
  | arm a => some a.span
  | statement s => some s.span
  | typedName n => some n.span
  | selfParam s => some s.span
  | function f => some f.span
  | constant c => some c.span
  | member m => some m.span
  | item i => some i.span
  | field _ | condition _ | otherwise _ => none

/-- A piece of a node. -/
inductive Piece
  /-- A token that is not kept. -/
  | mark (kind : TokenKind)
  /-- A token that is not kept and may be left out. -/
  | maybe (kind : TokenKind)
  /-- A token that is kept. -/
  | token (token : Token)
  /-- A node and the text that it covers. -/
  | node (span : Span) (node : Node)

namespace Piece

def span? : Piece → Option Span
  | mark _ | maybe _ => none
  | token t => some t.span
  | node sp _ => some sp

/-- Whether a piece cannot be left out. -/
def isSolid : Piece → Bool
  | maybe _ => false
  | _ => true

def spans (ps : List Piece) : List Span := ps.filterMap span?

section
variable {k : TokenKind} {t : Token} {sp : Span} {n : Node} {ps qs : List Piece}

@[simp] theorem isSolid_mark : (mark k).isSolid := rfl
@[simp] theorem isSolid_token : (token t).isSolid := rfl
@[simp] theorem isSolid_maybe : (maybe k).isSolid = false := rfl
@[simp] theorem spans_nil : spans [] = [] := rfl
@[simp] theorem spans_mark : spans (mark k :: ps) = spans ps := rfl
@[simp] theorem spans_maybe : spans (maybe k :: ps) = spans ps := rfl
@[simp] theorem spans_token : spans (token t :: ps) = t.span :: spans ps := rfl
@[simp] theorem spans_node : spans (node sp n :: ps) = sp :: spans ps := rfl
@[simp] theorem spans_append : spans (ps ++ qs) = spans ps ++ spans qs := List.filterMap_append
end

def path (p : Path) : Piece := node p.span (.path p)

def pattern (p : Pattern) : Piece := node p.span (.pattern p)

def ty (t : Ty) : Piece := node t.span (.ty t)

def expr (e : Expr) : Piece := node e.span (.expr e)

def block (b : Block) : Piece := node b.span (.block b)

def link (l : Link) : Piece := node l.span (.link l)

def conditional (c : Conditional) : Piece := node c.span (.conditional c)

def arm (a : Arm) : Piece := node a.span (.arm a)

def statement (s : Stmt) : Piece := node s.span (.statement s)

def typedName (n : TypedName) : Piece := node n.span (.typedName n)

def selfParam (s : SelfParam) : Piece := node s.span (.selfParam s)

def function (f : FunctionDecl) : Piece := node f.span (.function f)

def constant (c : ConstantDecl) : Piece := node c.span (.constant c)

def member (m : Member) : Piece := node m.span (.member m)

def item (i : Item) : Piece := node i.span (.item i)

def flag (k : TokenKind) (set : Bool) : List Piece := if set then [mark k] else []

def after (k : TokenKind) : Option Piece → List Piece
  | none => []
  | some piece => [mark k, piece]

def eachAfter (k : TokenKind) (pieces : List Piece) : List Piece :=
  pieces.flatMap fun piece => [mark k, piece]

def more (rest : List (List Piece)) : List Piece :=
  rest.flatMap (mark .comma :: ·) ++ [maybe .comma]

def list : List (List Piece) → List Piece
  | [] => []
  | first :: rest => first ++ more rest

end Piece

open Piece (mark maybe token flag after eachAfter list)

def Path.pieces (p : Path) : List Piece :=
  match p.segments with
  | [] => []
  | first :: rest => token first :: eachAfter .pathSep (rest.map token)

def Pattern.pieces : Pattern → List Piece
  | literal t negated _ => flag .dash negated ++ [token t]
  | identifier name byRef mutable sub _ =>
    flag .kwRef byRef ++ flag .kwMut mutable ++ token name :: after .atSign (sub.map .pattern)
  | wildcard t => [token t]
  | reference mutable inner _ => mark .ampersand :: flag .kwMut mutable ++ [.pattern inner]
  | .path p => [.path p]
  | tupleStruct p elements _ =>
    .path p :: mark .openParen :: list (elements.map fun p => [.pattern p]) ++ [mark .closeParen]

def Ty.pieces : Ty → List Piece
  | .path p => [.path p]
  | reference mutable target _ => mark .ampersand :: flag .kwMut mutable ++ [.ty target]
  | array element length _ =>
    [mark .openBracket, .ty element, mark .semicolon, .expr length, mark .closeBracket]
  | slice element _ => [mark .openBracket, .ty element, mark .closeBracket]
  | tuple elements _ =>
    mark .openParen :: list (elements.map fun t => [.ty t]) ++ [mark .closeParen]
  | never t | inferred t => [token t]

/-- The pieces of a field of a struct literal. The name of a shorthand is its value. -/
def FieldValue.pieces (f : FieldValue) : List Piece :=
  if f.shorthand then [.expr f.value] else [token f.name, mark .colon, .expr f.value]

def Condition.pieces : Condition → List Piece
  | .expr e => [.expr e]
  | letChain [] => []
  | letChain (first :: rest) => .link first :: eachAfter .andAnd (rest.map .link)

def Otherwise.pieces : Otherwise → List Piece
  | nothing => []
  | .conditional c => [mark .kwElse, .conditional c]
  | .block b => [mark .kwElse, .block b]

def Piece.arguments (es : List Expr) : List Piece :=
  mark .openParen :: list (es.map fun e => [.expr e]) ++ [mark .closeParen]

def Expr.pieces : Expr → List Piece
  | literal t | continueLoop t | underscore t => [token t]
  | .path p => [.path p]
  | unary operator e _ => [token operator, .expr e]
  | borrow mutable e _ => mark .ampersand :: flag .kwMut mutable ++ [.expr e]
  | deref e _ => [mark .star, .expr e]
  | binary _ operator e f _ | compoundAssign operator e f _ => [.expr e, token operator, .expr f]
  | cast e t _ => [.expr e, mark .kwAs, .ty t]
  | assign e f _ => [.expr e, mark .assignment, .expr f]
  | grouped e _ => [mark .openParen, .expr e, mark .closeParen]
  | array es _ =>
    mark .openBracket :: list (es.map fun e => [.expr e]) ++ [mark .closeBracket]
  | arrayRepeat e n _ =>
    [mark .openBracket, .expr e, mark .semicolon, .expr n, mark .closeBracket]
  | index e i _ => [.expr e, mark .openBracket, .expr i, mark .closeBracket]
  | structLiteral p fields _ =>
    .path p :: mark .openCurly :: list (fields.map FieldValue.pieces) ++ [mark .closeCurly]
  | call e es _ => .expr e :: Piece.arguments es
  | methodCall e name es _ => .expr e :: mark .dot :: token name :: Piece.arguments es
  | field e name _ => [.expr e, mark .dot, token name]
  | breakLoop value _ => mark .kwBreak :: value.toList.map .expr
  | returnValue value _ => mark .kwReturn :: value.toList.map .expr
  | .block b => [.block b]
  | constBlock b _ => [mark .kwConst, .block b]
  | .conditional c => [.conditional c]
  | matching e arms _ =>
    mark .kwMatch :: .expr e :: mark .openCurly :: arms.flatMap (fun a => [.arm a, maybe .comma]) ++
      [mark .closeCurly]
  | loop b _ => [mark .kwLoop, .block b]
  | whileLoop c b _ => mark .kwWhile :: c.pieces ++ [.block b]

def Link.pieces (l : Link) : List Piece :=
  match l.pattern with
  | none => [.expr l.value]
  | some p => [mark .kwLet, .pattern p, mark .assignment, .expr l.value]

def Stmt.pieces : Stmt → List Piece
  | empty _ => [mark .semicolon]
  | .item i => [.item i]
  | letBinding p t v _ =>
    mark .kwLet :: .pattern p :: after .colon (t.map .ty) ++ after .assignment (v.map .expr) ++
      [mark .semicolon]
  | .expr e semicolon _ => .expr e :: flag .semicolon semicolon

def FunctionDecl.pieces (f : FunctionDecl) : List Piece :=
  flag .kwConst f.isConst ++ mark .kwFn :: token f.name :: mark .openParen ::
    f.selfParam.toList.flatMap (fun s => [.selfParam s, maybe .comma]) ++
      list (f.params.map fun p => [.typedName p]) ++ mark .closeParen ::
        after .arrow (f.result.map .ty) ++ [f.body.elim (mark .semicolon) .block]

def Item.pieces : Item → List Piece
  | .function f => [.function f]
  | .constant c => [.constant c]
  | unitStruct name _ => [mark .kwStruct, token name, mark .semicolon]
  | struct name fields _ =>
    mark .kwStruct :: token name :: mark .openCurly :: list (fields.map fun f => [.typedName f]) ++
      [mark .closeCurly]
  | enum name variants _ =>
    mark .kwEnum :: token name :: mark .openCurly :: list (variants.map fun v => [token v]) ++
      [mark .closeCurly]
  | trait name members _ =>
    mark .kwTrait :: token name :: mark .openCurly :: members.map .member ++ [mark .closeCurly]
  | impl none target members _ =>
    mark .kwImpl :: .ty target :: mark .openCurly :: members.map .member ++ [mark .closeCurly]
  | impl (some name) target members _ =>
    mark .kwImpl :: token name :: mark .kwFor :: .ty target :: mark .openCurly ::
      members.map .member ++ [mark .closeCurly]

namespace Node

def pieces : Node → List Piece
  | path p => p.pieces
  | pattern p => p.pieces
  | ty t => t.pieces
  | expr e => e.pieces
  | field f => f.pieces
  | block b =>
    mark .openCurly :: b.statements.map .statement ++ b.tail.toList.map .expr ++ [mark .closeCurly]
  | condition c => c.pieces
  | link l => l.pieces
  | conditional c => mark .kwIf :: c.condition.pieces ++ .block c.body :: c.otherwise.pieces
  | otherwise o => o.pieces
  | arm a =>
    .pattern a.pattern :: after .kwIf (a.guard.map .expr) ++ [mark .fatArrow, .expr a.body]
  | statement s => s.pieces
  | typedName n => [token n.name, mark .colon, .ty n.ty]
  | selfParam s =>
    flag .ampersand s.byRef ++ flag .kwMut s.mutable ++ mark .kwSelfValue ::
      after .colon (s.ty.map .ty)
  | function f => f.pieces
  | constant c =>
    [mark .kwConst, token c.name, mark .colon, .ty c.ty] ++
      after .assignment (c.value.map .expr) ++ [mark .semicolon]
  | member (.function f) => [.function f]
  | member (.constant c) => [.constant c]
  | item i => i.pieces

end Node

namespace Piece

variable {sp : Span} {n : Node} {k : TokenKind}

@[simp] theorem node_mem_flag {set : Bool} : node sp n ∉ flag k set := by simp [flag]

@[simp] theorem node_mem_after {piece : Option Piece} :
    node sp n ∈ after k piece ↔ piece = some (node sp n) := by
  cases piece <;> simp [after, eq_comm]

@[simp] theorem node_mem_eachAfter {ps : List Piece} :
    node sp n ∈ eachAfter k ps ↔ node sp n ∈ ps := by simp [eachAfter]

@[simp] theorem node_mem_list {rows : List (List Piece)} :
    node sp n ∈ list rows ↔ ∃ row ∈ rows, node sp n ∈ row := by
  cases rows <;> simp [list, more]

theorem subset_list {rows : List (List Piece)} {row : List Piece} (h : row ∈ rows) :
    row ⊆ list rows := by
  intro p hp
  cases rows with
  | nil => cases h
  | cons first rest =>
    rcases List.mem_cons.mp h with rfl | h
    · exact List.mem_append_left _ hp
    · refine List.mem_append_right _ (List.mem_append_left _ (List.mem_flatMap.mpr ⟨row, h, ?_⟩))
      exact List.mem_cons_of_mem _ hp

end Piece

section
attribute [local simp] Piece.path Piece.pattern Piece.ty Piece.expr Piece.block Piece.link
  Piece.conditional Piece.arm Piece.statement Piece.typedName Piece.selfParam Piece.function
  Piece.constant Piece.member Piece.item Piece.arguments FieldValue.pieces

variable {c n : Node} {sp : Span}

theorem Pattern.mem_pieces {p : Pattern} (hc : c ∈ p.children) (hs : c.span? = some sp) :
    .node sp c ∈ p.pieces := by
  cases p <;> simp [children, pieces] at hc ⊢ <;> grind [Node.span?]

theorem Ty.mem_pieces {t : Ty} (hc : c ∈ t.children) (hs : c.span? = some sp) :
    .node sp c ∈ t.pieces := by
  cases t <;> simp [children, pieces] at hc ⊢ <;> grind [Node.span?]

theorem Expr.mem_pieces {e : Expr} (hc : c ∈ e.children) (hs : c.span? = some sp) :
    .node sp c ∈ e.pieces := by
  cases e <;> simp [children, pieces] at hc ⊢ <;> grind [Node.span?]

theorem Condition.mem_pieces {c' : Condition} (hc : c ∈ c'.children) (hs : c.span? = some sp) :
    .node sp c ∈ c'.pieces := by
  unfold pieces
  split <;> simp [children] at hc ⊢ <;> grind [Node.span?]

theorem Item.mem_pieces {i : Item} (hc : c ∈ i.children) (hs : c.span? = some sp) :
    .node sp c ∈ i.pieces := by
  unfold pieces
  split <;> simp [children] at hc ⊢ <;> grind [Node.span?]

/-- A node with a span is one of the pieces of the node around it. -/
theorem Node.mem_pieces (hc : c ∈ n.children) (hs : c.span? = some sp) : .node sp c ∈ n.pieces := by
  cases n with
  | path p => cases hc
  | pattern p => exact p.mem_pieces hc hs
  | ty t => exact t.mem_pieces hc hs
  | expr e => exact e.mem_pieces hc hs
  | condition c => exact c.mem_pieces hc hs
  | item i => exact i.mem_pieces hc hs
  | statement s =>
    cases s <;> simp [children, Stmt.children, pieces, Stmt.pieces] at hc ⊢ <;> grind [span?]
  | otherwise o =>
    cases o <;> simp [children, Otherwise.children, pieces, Otherwise.pieces] at hc ⊢ <;>
      grind [span?]
  | member m => cases m <;> simp [children, pieces] at hc ⊢ <;> grind [span?]
  | link l =>
    cases hp : l.pattern <;> simp [children, pieces, Link.pieces, hp] at hc ⊢ <;> grind [span?]
  | function f =>
    cases hb : f.body <;> simp [children, pieces, FunctionDecl.pieces, hb] at hc ⊢ <;> grind [span?]
  | _ => simp [children, pieces] at hc ⊢ ; grind [span?]

theorem Expr.pieces_subset {e : Expr} (hc : c ∈ e.children) (hs : c.span? = none) :
    c.pieces ⊆ e.pieces := by
  cases e with
  | structLiteral p fields sp =>
    obtain rfl | ⟨f, hf, rfl⟩ : c = .path p ∨ ∃ f ∈ fields, .field f = c := by
      simpa [children] using hc
    · cases hs
    · intro q hq
      have hrow : q ∈ list (fields.map FieldValue.pieces) :=
        Piece.subset_list (List.mem_map_of_mem hf) hq
      simp [pieces, hrow]
  | whileLoop test body sp =>
    obtain rfl | rfl : c = .condition test ∨ c = .block body := by simpa [children] using hc
    · intro q hq
      have hq' : q ∈ test.pieces := hq
      simp [pieces, hq']
    · cases hs
  | _ => simp [children] at hc <;> grind [Node.span?]

/-- A node without a span is made of pieces of the node around it. -/
theorem Node.pieces_subset (hc : c ∈ n.children) (hs : c.span? = none) : c.pieces ⊆ n.pieces := by
  cases n with
  | expr e => exact e.pieces_subset hc hs
  | conditional c' =>
    obtain rfl | rfl | rfl :
        c = condition c'.condition ∨ c = block c'.body ∨ c = otherwise c'.otherwise := by
      simpa [children] using hc
    · intro q hq
      have hq' : q ∈ c'.condition.pieces := hq
      simp [pieces, hq']
    · cases hs
    · intro q hq
      have hq' : q ∈ c'.otherwise.pieces := hq
      simp [pieces, hq']
  | pattern p => cases p <;> simp [children, Pattern.children] at hc <;> grind [span?]
  | ty t => cases t <;> simp [children, Ty.children] at hc <;> grind [span?]
  | statement s => cases s <;> simp [children, Stmt.children] at hc <;> grind [span?]
  | item i => cases i <;> simp [children, Item.children] at hc <;> grind [span?]
  | condition c => cases c <;> simp [children, Condition.children] at hc <;> grind [span?]
  | otherwise o => cases o <;> simp [children, Otherwise.children] at hc <;> grind [span?]
  | member m => cases m <;> simp [children] at hc <;> grind [span?]
  | _ => simp [children] at hc <;> grind [span?]
end

end FrontEnd
