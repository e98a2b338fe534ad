import FrontEnd.Parse
/-!
# Derivations

The grammar as rules: which tokens a tree can be read from. A rule says what stands ahead before and
after a tree is read, what the names are then, how many levels of nesting are left and whether
struct literals are allowed. It does not say which spans the nodes of the tree have.

A tree is read by a run exactly if it is derived by these rules, so what holds of all derived trees
is proved by induction on derivations, without a reader.
-/
namespace FrontEnd

/-- The kind of the token at an index, `eof` where there is none. -/
def kindAt (tokens : List Token) (n : Nat) : TokenKind := (tokens[n]?.map Token.kind).getD .eof

@[simp] theorem kindAt_nil (n : Nat) : kindAt [] n = .eof := rfl

@[simp] theorem kindAt_zero (t : Token) (ts : List Token) : kindAt (t :: ts) 0 = t.kind := rfl

@[simp] theorem kindAt_succ (t : Token) (ts : List Token) (n : Nat) :
    kindAt (t :: ts) (n + 1) = kindAt ts n := rfl

/-- The tokens that may be there or be left out, and what they begin with them. -/
def optionalMarks : List TokenKind :=
  [.kwMut, .kwRef, .kwConst, .atSign, .colon, .assignment, .arrow, .kwIf]

def Member.span : Member → Span
  | .constant c => c.span
  | .function f => f.span

def Names.bindAll (n : Names) (symbols : List Symbol) : Names := symbols.foldl Names.bind n

/-- A place in a program: the tokens ahead and the names so far. -/
structure Place where
  rest : List Token
  names : Names

namespace Place

def kind (x : Place) : TokenKind := kindAt x.rest 0

def nextKind (x : Place) : TokenKind := kindAt x.rest 1

@[simp] theorem kind_mk (ts : List Token) (n : Names) : kind ⟨ts, n⟩ = kindAt ts 0 := rfl

@[simp] theorem nextKind_mk (ts : List Token) (n : Names) : nextKind ⟨ts, n⟩ = kindAt ts 1 := rfl

def StartsStatement (x : Place) : Prop :=
  x.kind ∈ [TokenKind.kwLet, .semicolon, .kwFn, .kwStruct, .kwEnum, .kwTrait, .kwImpl] ∨
    x.kind = .kwConst ∧ x.nextKind ∈ [TokenKind.kwFn, .identifier, .underscore]

def StartsBlockLike (x : Place) : Prop :=
  x.kind ∈ [TokenKind.openCurly, .kwIf, .kwMatch, .kwLoop, .kwWhile] ∨
    x.kind = .kwConst ∧ x.nextKind = .openCurly

def NamesConstant (resolve : Bool) (x : Place) : Prop :=
  ∃ t ∈ x.rest.head?, (resolve && x.names.isConstant t.value) = true

def StartsPath (resolve : Bool) (x : Place) : Prop :=
  x.kind = .kwSelfValue ∨ x.kind = .kwSelfType ∨ x.kind = .identifier ∧
    (x.nextKind = .pathSep ∨ x.nextKind = .openParen ∨
      x.nextKind ≠ .atSign ∧ x.NamesConstant resolve)

def StartsBinding (resolve : Bool) (x : Place) : Prop :=
  x.kind = .kwRef ∨ x.kind = .kwMut ∨ x.kind = .identifier ∧
    (x.nextKind = .atSign ∨ x.nextKind ≠ .pathSep ∧ x.nextKind ≠ .openParen ∧
      ¬x.NamesConstant resolve)

end Place

inductive Bracket
  | round | square | curly
deriving DecidableEq

/-- The closing bracket. -/
def Bracket.closing : Bracket → TokenKind
  | round => .closeParen
  | square => .closeBracket
  | curly => .closeCurly

/-- What can be derived: the parts of the grammar, and some ways to put parts together. -/
inductive Form
  /-- A word of a path. -/
  | segment
  /-- An identifier. -/
  | name
  /-- A token that may be there. -/
  | flag (k : TokenKind)
  /-- A part after a token, or nothing. -/
  | after (k : TokenKind) (form : Form)
  /-- Parts, each after a separator. -/
  | eachAfter (separator : TokenKind) (form : Form)
  /-- Parts with commas between them, and the bracket that closes the list. -/
  | list (bracket : Bracket) (form : Form)
  /-- What follows the first part of such a list. -/
  | more (bracket : Bracket) (form : Form)
  | path
  | ty
  | pattern
  | expr (above : Tier)
  | term
  | suffix
  /-- All suffixes above a tier. -/
  | suffixes (above : Tier)
  | field
  | jumpValue
  | statementExpr
  | block
  /-- A statement in a block. -/
  | element
  /-- The statements of a block, its value and the closing brace. -/
  | elements
  | statement
  | letLink
  | link
  | condition
  | conditional
  | otherwise
  | arm
  /-- Arms and the closing brace. -/
  | arms
  | typedName
  | selfParam
  | param
  /-- The `self` parameter, the others and the closing parenthesis. -/
  | params
  | body (allowSignature : Bool)
  | function (allowSignature : Bool)
  | constant (inTrait : Bool)
  | member (inTrait : Bool)
  /-- Members and the closing brace. -/
  | members (inTrait : Bool)
  | item
  | declaredItem
  | items
deriving DecidableEq

def Form.Listed : Form → Prop
  | name | ty | pattern | expr _ | field | typedName | param => True
  | _ => False

def Form.Joined (form : Form) (separator : TokenKind) : Prop :=
  separator = .pathSep ∧ form = .segment ∨ separator = .andAnd ∧ form = .link

abbrev Form.Tree : Form → Type
  | segment | name => Token
  | flag _ => Bool
  | after _ form => Option form.Tree
  | eachAfter _ form | list _ form | more _ form => List form.Tree
  | path => Path
  | ty => Ty
  | pattern => Pattern
  | expr _ | term | statementExpr => Expr
  | suffix => Suffix
  | suffixes _ => List Suffix
  | field => FieldValue
  | jumpValue => Option Expr
  | block => Block
  | element | statement => Stmt
  | elements => List Stmt × Option Expr
  | letLink | link => Link
  | condition => Condition
  | conditional => Conditional
  | otherwise => Otherwise
  | arm => Arm
  | arms => List Arm
  | typedName | param => TypedName
  | selfParam => SelfParam
  | params => Option SelfParam × List TypedName
  | body _ => Option Block
  | function _ => FunctionDecl
  | constant _ => ConstantDecl
  | member _ => Member
  | members _ => List Member
  | item | declaredItem => Item
  | items => List Item

open Grammar (pathSegments exprStarts)

set_option autoImplicit true in
/-- `Derives resolve form ℓ b x t y`: with `ℓ` levels of nesting left, and struct literals allowed
as `b` says, the tree `t` is read at `x`, and then `y` is reached. -/
inductive Derives (resolve : Bool) :
    (form : Form) → Nat → Bool → Place → form.Tree → Place → Prop
  -- tokens and lists
  | segment {t : Token} (h : t.kind ∈ pathSegments) : Derives resolve .segment ℓ b ⟨t :: i, n⟩ t ⟨i, n⟩
  | name {t : Token} (h : t.kind = .identifier) : Derives resolve .name ℓ b ⟨t :: i, n⟩ t ⟨i, n⟩
  | flagSet {k : TokenKind} {t : Token} (hk : k ∈ optionalMarks) (h : t.kind = k) :
    Derives resolve (.flag k) ℓ b ⟨t :: i, n⟩ true ⟨i, n⟩
  | flagUnset {k : TokenKind} (hk : k ∈ optionalMarks) (h : x.kind ≠ k) :
    Derives resolve (.flag k) ℓ b x false x
  | afterNothing {k : TokenKind} {form : Form} (hk : k ∈ optionalMarks) (h : x.kind ≠ k) :
    Derives resolve (.after k form) ℓ b x none x
  | afterSome {k : TokenKind} {form : Form} {a : form.Tree} {t : Token} (hk : k ∈ optionalMarks)
    (h : t.kind = k) (ha : Derives resolve form ℓ b ⟨i, n⟩ a y) :
    Derives resolve (.after k form) ℓ b ⟨t :: i, n⟩ (some a) y
  | eachNil {k : TokenKind} {form : Form} (hk : form.Joined k) (h : x.kind ≠ k) :
    Derives resolve (.eachAfter k form) ℓ b x [] x
  | eachCons {k : TokenKind} {form : Form} {a : form.Tree} {as : List form.Tree} {t : Token}
    (hk : form.Joined k) (h : t.kind = k) (ha : Derives resolve form ℓ b ⟨i, n⟩ a y)
    (has : Derives resolve (.eachAfter k form) ℓ b y as z) :
    Derives resolve (.eachAfter k form) ℓ b ⟨t :: i, n⟩ (a :: as) z
  | listNil {br : Bracket} {form : Form} {c : Token} (h : c.kind = br.closing) :
    Derives resolve (.list br form) ℓ b ⟨c :: i, n⟩ [] ⟨i, n⟩
  | listCons {br : Bracket} {form : Form} {a : form.Tree} {as : List form.Tree} (hl : form.Listed)
    (h : x.kind ≠ br.closing) (ha : Derives resolve form ℓ b x a y)
    (has : Derives resolve (.more br form) ℓ b y as z) :
    Derives resolve (.list br form) ℓ b x (a :: as) z
  | moreNil {br : Bracket} {form : Form} {c : Token} (h : c.kind = br.closing) :
    Derives resolve (.more br form) ℓ b ⟨c :: i, n⟩ [] ⟨i, n⟩
  | moreComma {br : Bracket} {form : Form} {t c : Token} (ht : t.kind = .comma)
    (h : c.kind = br.closing) : Derives resolve (.more br form) ℓ b ⟨t :: c :: i, n⟩ [] ⟨i, n⟩
  | moreCons {br : Bracket} {form : Form} {a : form.Tree} {as : List form.Tree} {t : Token}
    (hl : form.Listed) (ht : t.kind = .comma) (h : kindAt i 0 ≠ br.closing)
    (ha : Derives resolve form ℓ b ⟨i, n⟩ a y) (has : Derives resolve (.more br form) ℓ b y as z) :
    Derives resolve (.more br form) ℓ b ⟨t :: i, n⟩ (a :: as) z
  | path {t : Token} {ts : List Token} (h : t.kind ∈ pathSegments)
    (hts : Derives resolve (.eachAfter .pathSep .segment) ℓ b ⟨i, n⟩ ts y) :
    Derives resolve .path ℓ b ⟨t :: i, n⟩ ⟨t :: ts, sp⟩ y
  -- types
  | tyPath {p : Path} (h : x.kind = .identifier ∨ x.kind = .kwSelfType)
    (hp : Derives resolve .path ℓ b x p y) : Derives resolve .ty (ℓ + 1) b x (.path p) y
  | tyReference {t : Token} {mutable : Bool} {a : Ty} (h : t.kind = .ampersand)
    (hm : Derives resolve (.flag .kwMut) ℓ b ⟨i, n⟩ mutable x) (ha : Derives resolve .ty ℓ b x a y) :
    Derives resolve .ty (ℓ + 1) b ⟨t :: i, n⟩ (.reference mutable a sp) y
  | tyReferences {t : Token} {mutable : Bool} {a : Ty} (h : t.kind = .andAnd)
    (hm : Derives resolve (.flag .kwMut) ℓ b ⟨i, n⟩ mutable x) (ha : Derives resolve .ty ℓ b x a y) :
    Derives resolve .ty (ℓ + 1) b ⟨t :: i, n⟩ (.reference false (.reference mutable a sp) sp') y
  | tySlice {t c : Token} {a : Ty} (h : t.kind = .openBracket)
    (ha : Derives resolve .ty ℓ b ⟨i, n⟩ a ⟨c :: j, m⟩) (hc : c.kind = .closeBracket) :
    Derives resolve .ty (ℓ + 1) b ⟨t :: i, n⟩ (.slice a sp) ⟨j, m⟩
  | tyArray {t s c : Token} {a : Ty} {e : Expr} {m' : Names} (h : t.kind = .openBracket)
    (ha : Derives resolve .ty ℓ b ⟨i, n⟩ a ⟨s :: j, m⟩) (hs : s.kind = .semicolon)
    (he : Derives resolve (.expr .lowest) ℓ true ⟨j, m⟩ e ⟨c :: k, m'⟩)
    (hc : c.kind = .closeBracket) :
    Derives resolve .ty (ℓ + 1) b ⟨t :: i, n⟩ (.array a e sp) ⟨k, m'⟩
  | tyUnit {t c : Token} (h : t.kind = .openParen) (hc : c.kind = .closeParen) :
    Derives resolve .ty (ℓ + 1) b ⟨t :: c :: i, n⟩ (.tuple [] sp) ⟨i, n⟩
  | tyParen {t c : Token} {a : Ty} (h : t.kind = .openParen)
    (ha : Derives resolve .ty ℓ b ⟨i, n⟩ a ⟨c :: j, m⟩) (hc : c.kind = .closeParen) :
    Derives resolve .ty (ℓ + 1) b ⟨t :: i, n⟩ a ⟨j, m⟩
  | tyTuple {t : Token} {a : Ty} {as : List Ty} (h : t.kind = .openParen)
    (ha : Derives resolve .ty ℓ b ⟨i, n⟩ a y) (hy : y.kind ≠ .closeParen)
    (has : Derives resolve (.more .round .ty) ℓ b y as z) :
    Derives resolve .ty (ℓ + 1) b ⟨t :: i, n⟩ (.tuple (a :: as) sp) z
  | tyNever {t : Token} (h : t.kind = .bang) :
    Derives resolve .ty (ℓ + 1) b ⟨t :: i, n⟩ (.never t) ⟨i, n⟩
  | tyInferred {t : Token} (h : t.kind = .underscore) :
    Derives resolve .ty (ℓ + 1) b ⟨t :: i, n⟩ (.inferred t) ⟨i, n⟩
  -- patterns
  | patLiteral {t : Token} (h : t.kind.isLiteral) :
    Derives resolve .pattern (ℓ + 1) b ⟨t :: i, n⟩ (.literal t false sp) ⟨i, n⟩
  | patNegated {t l : Token} (h : t.kind = .dash) (hl : l.kind = .integer) :
    Derives resolve .pattern (ℓ + 1) b ⟨t :: l :: i, n⟩ (.literal l true sp) ⟨i, n⟩
  | patWildcard {t : Token} (h : t.kind = .underscore) :
    Derives resolve .pattern (ℓ + 1) b ⟨t :: i, n⟩ (.wildcard t) ⟨i, n⟩
  | patReference {t : Token} {mutable : Bool} {p : Pattern} (h : t.kind = .ampersand)
    (hm : Derives resolve (.flag .kwMut) ℓ b ⟨i, n⟩ mutable x)
    (hp : Derives resolve .pattern ℓ b x p y) :
    Derives resolve .pattern (ℓ + 1) b ⟨t :: i, n⟩ (.reference mutable p sp) y
  | patReferences {t : Token} {mutable : Bool} {p : Pattern} (h : t.kind = .andAnd)
    (hm : Derives resolve (.flag .kwMut) ℓ b ⟨i, n⟩ mutable x)
    (hp : Derives resolve .pattern ℓ b x p y) :
    Derives resolve .pattern (ℓ + 1) b ⟨t :: i, n⟩ (.reference false (.reference mutable p sp) sp') y
  | patBinding {byRef mutable : Bool} {t : Token} {sub : Option Pattern} (h : x.StartsBinding resolve)
    (hr : Derives resolve (.flag .kwRef) ℓ b x byRef y)
    (hm : Derives resolve (.flag .kwMut) ℓ b y mutable ⟨t :: i, n⟩) (ht : t.kind = .identifier)
    (hs : Derives resolve (.after .atSign .pattern) ℓ b ⟨i, n⟩ sub z) :
    Derives resolve .pattern (ℓ + 1) b x (.identifier t byRef mutable sub sp) z
  | patPath {p : Path} (h : x.StartsPath resolve) (hp : Derives resolve .path ℓ b x p y)
    (hy : y.kind ≠ .openParen) : Derives resolve .pattern (ℓ + 1) b x (.path p) y
  | patTuple {p : Path} {t : Token} {ps : List Pattern} (h : x.StartsPath resolve)
    (hp : Derives resolve .path ℓ b x p ⟨t :: i, n⟩) (ht : t.kind = .openParen)
    (hps : Derives resolve (.list .round .pattern) ℓ b ⟨i, n⟩ ps y) :
    Derives resolve .pattern (ℓ + 1) b x (.tupleStruct p ps sp) y
  -- expressions
  | expr {above : Tier} {e : Expr} {ss : List Suffix} (he : Derives resolve .term ℓ b x e y)
    (hs : Derives resolve (.suffixes above) ℓ b y ss z) :
    Derives resolve (.expr above) (ℓ + 1) b x (ss.foldl Suffix.attach e) z
  | suffixesNil {above : Tier} (h : ∀ τ, x.kind.tier? = some τ → ¬above < τ) :
    Derives resolve (.suffixes above) ℓ b x [] x
  | suffixesCons {above τ : Tier} {s : Suffix} {ss : List Suffix} (h : x.kind.tier? = some τ)
    (hτ : above < τ) (hs : Derives resolve .suffix ℓ b x s y)
    (hss : Derives resolve (.suffixes above) ℓ b y ss z) :
    Derives resolve (.suffixes above) ℓ b x (s :: ss) z
  | termLiteral {t : Token} (h : t.kind.isLiteral) :
    Derives resolve .term ℓ b ⟨t :: i, n⟩ (.literal t) ⟨i, n⟩
  | termPath {p : Path} (hp : Derives resolve .path ℓ b x p y)
    (hy : ¬(y.kind = .openCurly ∧ b = true)) : Derives resolve .term ℓ b x (.path p) y
  | termStruct {p : Path} {t : Token} {fs : List FieldValue}
    (hp : Derives resolve .path ℓ true x p ⟨t :: i, n⟩) (ht : t.kind = .openCurly)
    (hfs : Derives resolve (.list .curly .field) ℓ true ⟨i, n⟩ fs y) :
    Derives resolve .term ℓ true x (.structLiteral p fs sp) y
  | termUnary {t : Token} {e : Expr} (h : t.kind = .dash ∨ t.kind = .bang)
    (he : Derives resolve (.expr .unary) ℓ b ⟨i, n⟩ e y) :
    Derives resolve .term ℓ b ⟨t :: i, n⟩ (.unary t e sp) y
  | termDeref {t : Token} {e : Expr} (h : t.kind = .star)
    (he : Derives resolve (.expr .unary) ℓ b ⟨i, n⟩ e y) :
    Derives resolve .term ℓ b ⟨t :: i, n⟩ (.deref e sp) y
  | termBorrow {t : Token} {mutable : Bool} {e : Expr} (h : t.kind = .ampersand)
    (hm : Derives resolve (.flag .kwMut) ℓ b ⟨i, n⟩ mutable x)
    (he : Derives resolve (.expr .unary) ℓ b x e y) :
    Derives resolve .term ℓ b ⟨t :: i, n⟩ (.borrow mutable e sp) y
  | termBorrows {t : Token} {mutable : Bool} {e : Expr} (h : t.kind = .andAnd)
    (hm : Derives resolve (.flag .kwMut) ℓ b ⟨i, n⟩ mutable x)
    (he : Derives resolve (.expr .unary) ℓ b x e y) :
    Derives resolve .term ℓ b ⟨t :: i, n⟩ (.borrow false (.borrow mutable e sp) sp') y
  | termGrouped {t c : Token} {e : Expr} (h : t.kind = .openParen)
    (he : Derives resolve (.expr .lowest) ℓ true ⟨i, n⟩ e ⟨c :: j, m⟩) (hc : c.kind = .closeParen) :
    Derives resolve .term ℓ b ⟨t :: i, n⟩ (.grouped e sp) ⟨j, m⟩
  | termEmptyArray {t c : Token} (h : t.kind = .openBracket) (hc : c.kind = .closeBracket) :
    Derives resolve .term ℓ b ⟨t :: c :: i, n⟩ (.array [] sp) ⟨i, n⟩
  | termArray {t : Token} {e : Expr} {es : List Expr} (h : t.kind = .openBracket)
    (he : Derives resolve (.expr .lowest) ℓ true ⟨i, n⟩ e y)
    (hes : Derives resolve (.more .square (.expr .lowest)) ℓ true y es z) :
    Derives resolve .term ℓ b ⟨t :: i, n⟩ (.array (e :: es) sp) z
  | termRepeat {t s c : Token} {e l : Expr} {m' : Names} (h : t.kind = .openBracket)
    (he : Derives resolve (.expr .lowest) ℓ true ⟨i, n⟩ e ⟨s :: j, m⟩) (hs : s.kind = .semicolon)
    (hl : Derives resolve (.expr .lowest) ℓ true ⟨j, m⟩ l ⟨c :: k, m'⟩)
    (hc : c.kind = .closeBracket) :
    Derives resolve .term ℓ b ⟨t :: i, n⟩ (.arrayRepeat e l sp) ⟨k, m'⟩
  | termUnderscore {t : Token} (h : t.kind = .underscore) :
    Derives resolve .term ℓ b ⟨t :: i, n⟩ (.underscore t) ⟨i, n⟩
  | termBreak {t : Token} {v : Option Expr} (h : t.kind = .kwBreak)
    (hv : Derives resolve .jumpValue ℓ b ⟨i, n⟩ v y) :
    Derives resolve .term ℓ b ⟨t :: i, n⟩ (.breakLoop v sp) y
  | termContinue {t : Token} (h : t.kind = .kwContinue) :
    Derives resolve .term ℓ b ⟨t :: i, n⟩ (.continueLoop t) ⟨i, n⟩
  | termReturn {t : Token} {v : Option Expr} (h : t.kind = .kwReturn)
    (hv : Derives resolve .jumpValue ℓ b ⟨i, n⟩ v y) :
    Derives resolve .term ℓ b ⟨t :: i, n⟩ (.returnValue v sp) y
  | termBlock {bl : Block} (h : Derives resolve .block ℓ b x bl y) :
    Derives resolve .term ℓ b x (.block bl) y
  | termConst {t : Token} {bl : Block} (h : t.kind = .kwConst)
    (hb : Derives resolve .block ℓ b ⟨i, n⟩ bl y) :
    Derives resolve .term ℓ b ⟨t :: i, n⟩ (.constBlock bl sp) y
  | termIf {c : Conditional} (h : Derives resolve .conditional ℓ b x c y) :
    Derives resolve .term ℓ b x (.conditional c) y
  | termMatch {t o : Token} {e : Expr} {as : List Arm} (h : t.kind = .kwMatch)
    (he : Derives resolve (.expr .lowest) ℓ false ⟨i, n⟩ e ⟨o :: j, m⟩) (ho : o.kind = .openCurly)
    (has : Derives resolve .arms ℓ true ⟨j, m⟩ as y) :
    Derives resolve .term ℓ b ⟨t :: i, n⟩ (.matching e as sp) y
  | termLoop {t : Token} {bl : Block} (h : t.kind = .kwLoop)
    (hb : Derives resolve .block ℓ b ⟨i, n⟩ bl y) :
    Derives resolve .term ℓ b ⟨t :: i, n⟩ (.loop bl sp) y
  | termWhile {t : Token} {c : Condition} {bl : Block} (h : t.kind = .kwWhile)
    (hc : Derives resolve .condition ℓ b ⟨i, n.push⟩ c x) (hb : Derives resolve .block ℓ b x bl y) :
    Derives resolve .term ℓ b ⟨t :: i, n⟩ (.whileLoop c bl sp) ⟨y.rest, y.names.pop⟩
  | fieldLong {t c : Token} {e : Expr} (h : t.kind = .identifier) (hc : c.kind = .colon)
    (he : Derives resolve (.expr .lowest) ℓ b ⟨i, n⟩ e y) :
    Derives resolve .field ℓ b ⟨t :: c :: i, n⟩ ⟨t, e, false⟩ y
  | fieldShort {t : Token} (h : t.kind = .identifier) (hi : kindAt i 0 ≠ .colon) :
    Derives resolve .field ℓ b ⟨t :: i, n⟩ ⟨t, .path (.ofToken t), true⟩ ⟨i, n⟩
  | jumpNothing (h : x.kind ∉ exprStarts) : Derives resolve .jumpValue ℓ b x none x
  | jumpValue {e : Expr} (h : Derives resolve (.expr .lowest) ℓ b x e y) :
    Derives resolve .jumpValue ℓ b x (some e) y
  -- suffixes
  | sufBinary {t : Token} {τ : Tier} {e : Expr} (h : t.kind.tier? = some τ)
    (hτ : τ ∉ [Tier.assignment, .cast, .call, .member])
    (he : Derives resolve (.expr τ) ℓ b ⟨i, n⟩ e y) :
    Derives resolve .suffix ℓ b ⟨t :: i, n⟩ (.binary t e) y
  | sufAssign {t : Token} {e : Expr} (h : t.kind = .assignment)
    (he : Derives resolve (.expr .lowest) ℓ b ⟨i, n⟩ e y) :
    Derives resolve .suffix ℓ b ⟨t :: i, n⟩ (.assign e) y
  | sufCompound {t : Token} {e : Expr} (h : t.kind.tier? = some .assignment)
    (ht : t.kind ≠ .assignment) (he : Derives resolve (.expr .lowest) ℓ b ⟨i, n⟩ e y) :
    Derives resolve .suffix ℓ b ⟨t :: i, n⟩ (.compoundAssign t e) y
  | sufCast {t : Token} {a : Ty} (h : t.kind = .kwAs) (ha : Derives resolve .ty ℓ b ⟨i, n⟩ a y) :
    Derives resolve .suffix ℓ b ⟨t :: i, n⟩ (.cast a) y
  | sufCall {t c : Token} {es : List Expr} (h : t.kind = .openParen)
    (hes : Derives resolve (.list .round (.expr .lowest)) ℓ true ⟨i, n⟩ es y) :
    Derives resolve .suffix ℓ b ⟨t :: i, n⟩ (.call es c) y
  | sufIndex {t c c' : Token} {e : Expr} (h : t.kind = .openBracket)
    (he : Derives resolve (.expr .lowest) ℓ true ⟨i, n⟩ e ⟨c :: j, m⟩)
    (hc : c.kind = .closeBracket) : Derives resolve .suffix ℓ b ⟨t :: i, n⟩ (.index e c') ⟨j, m⟩
  | sufField {t f : Token} (h : t.kind = .dot)
    (hf : f.kind = .integer ∨ f.kind = .identifier ∧ kindAt i 0 ≠ .openParen) :
    Derives resolve .suffix ℓ b ⟨t :: f :: i, n⟩ (.field f) ⟨i, n⟩
  | sufMethod {t f o c : Token} {es : List Expr} (h : t.kind = .dot) (hf : f.kind = .identifier)
    (ho : o.kind = .openParen)
    (hes : Derives resolve (.list .round (.expr .lowest)) ℓ true ⟨i, n⟩ es y) :
    Derives resolve .suffix ℓ b ⟨t :: f :: o :: i, n⟩ (.methodCall f es c) y
  -- blocks and statements
  | stmtExpr {e : Expr} (h : ¬x.StartsBlockLike) (he : Derives resolve (.expr .lowest) ℓ b x e y) :
    Derives resolve .statementExpr ℓ b x e y
  | stmtBlockLike {e : Expr} (h : x.StartsBlockLike) (he : Derives resolve .term ℓ b x e y)
    (hy : y.kind ≠ .dot) : Derives resolve .statementExpr (ℓ + 1) b x e y
  | stmtMember {e : Expr} {ss : List Suffix} (h : x.StartsBlockLike)
    (he : Derives resolve .term ℓ b x e y) (hy : y.kind = .dot)
    (hs : Derives resolve (.suffixes .lowest) ℓ b y ss z) :
    Derives resolve .statementExpr (ℓ + 1) b x (ss.foldl Suffix.attach e) z
  | block {t : Token} {ss : List Stmt} {e : Option Expr} (h : t.kind = .openCurly)
    (hs : Derives resolve .elements ℓ true ⟨i, n.push⟩ (ss, e) y) :
    Derives resolve .block (ℓ + 1) b ⟨t :: i, n⟩ ⟨ss, e, sp⟩ ⟨y.rest, y.names.pop⟩
  | elementsNil {c : Token} (h : c.kind = .closeCurly) :
    Derives resolve .elements ℓ b ⟨c :: i, n⟩ ([], none) ⟨i, n⟩
  | elementsTail {c : Token} {e : Expr} (h : ¬x.StartsStatement)
    (he : Derives resolve .statementExpr ℓ b x e ⟨c :: i, n⟩) (hc : c.kind = .closeCurly) :
    Derives resolve .elements (ℓ + 1) b x ([], some e) ⟨i, n⟩
  | elementsCons {s : Stmt} {ss : List Stmt} {e : Option Expr}
    (hs : Derives resolve .element ℓ b x s y)
    (hss : Derives resolve .elements (ℓ + 1) b y (ss, e) z) :
    Derives resolve .elements (ℓ + 1) b x (s :: ss, e) z
  | elementStmt {s : Stmt} (h : x.StartsStatement) (hs : Derives resolve .statement ℓ b x s y) :
    Derives resolve .element ℓ b x s y
  | elementExpr {e : Expr} {s : Token} (h : ¬x.StartsStatement)
    (he : Derives resolve .statementExpr ℓ b x e ⟨s :: i, n⟩) (hs : s.kind = .semicolon) :
    Derives resolve .element ℓ b x (.expr e true sp) ⟨i, n⟩
  | elementBlockLike {e : Expr} (h : ¬x.StartsStatement)
    (he : Derives resolve .statementExpr ℓ b x e y) (hs : y.kind ≠ .semicolon)
    (hc : y.kind ≠ .closeCurly) (hb : e.isBlockLike = true) :
    Derives resolve .element ℓ b x (.expr e false sp) y
  | stmtEmpty {t : Token} (h : t.kind = .semicolon) :
    Derives resolve .statement ℓ b ⟨t :: i, n⟩ (.empty sp) ⟨i, n⟩
  | stmtItem {a : Item} (h : Derives resolve .declaredItem ℓ b x a y) :
    Derives resolve .statement ℓ b x (.item a) y
  | stmtLet {t s : Token} {p : Pattern} {a : Option Ty} {v : Option Expr} (h : t.kind = .kwLet)
    (hp : Derives resolve .pattern ℓ b ⟨i, n⟩ p x)
    (ha : Derives resolve (.after .colon .ty) ℓ b x a y)
    (hv : Derives resolve (.after .assignment (.expr .lowest)) ℓ b y v ⟨s :: j, m⟩)
    (hs : s.kind = .semicolon) :
    Derives resolve .statement ℓ b ⟨t :: i, n⟩ (.letBinding p a v sp)
      ⟨j, m.bindAll (Symbol.ofPattern p a)⟩
  -- conditions and branches
  | linkLet {t s : Token} {p : Pattern} {v : Expr} (h : t.kind = .kwLet)
    (hp : Derives resolve .pattern ℓ b ⟨i, n⟩ p ⟨s :: j, m⟩) (hs : s.kind = .assignment)
    (hv : Derives resolve (.expr .logicalAnd) ℓ b ⟨j, m⟩ v y) :
    Derives resolve .letLink ℓ b ⟨t :: i, n⟩ ⟨some p, v, sp⟩
      ⟨y.rest, y.names.bindAll (Symbol.ofPattern p none)⟩
  | linkOfLet {l : Link} (h : Derives resolve .letLink ℓ b x l y) : Derives resolve .link ℓ b x l y
  | linkTest {v : Expr} (h : Derives resolve (.expr .logicalAnd) ℓ b x v y) :
    Derives resolve .link ℓ b x ⟨none, v, sp⟩ y
  | condExpr {e : Expr} (h : Derives resolve (.expr .lowest) ℓ false x e y) :
    Derives resolve .condition ℓ b x (.expr e) y
  | condLet {l : Link} {ls : List Link} (hl : Derives resolve .letLink ℓ false x l y)
    (hls : Derives resolve (.eachAfter .andAnd .link) ℓ false y ls z) :
    Derives resolve .condition ℓ b x (.letChain (l :: ls)) z
  | conditional {t : Token} {c : Condition} {bl : Block} {o : Otherwise} (h : t.kind = .kwIf)
    (hc : Derives resolve .condition ℓ b ⟨i, n.push⟩ c x) (hb : Derives resolve .block ℓ b x bl y)
    (ho : Derives resolve .otherwise ℓ b ⟨y.rest, y.names.pop⟩ o z) :
    Derives resolve .conditional ℓ b ⟨t :: i, n⟩ ⟨c, bl, o, sp⟩ z
  | elseNothing (h : x.kind ≠ .kwElse) : Derives resolve .otherwise ℓ b x .nothing x
  | elseIf {t : Token} {c : Conditional} (h : t.kind = .kwElse)
    (hc : Derives resolve .conditional ℓ b ⟨i, n⟩ c y) :
    Derives resolve .otherwise (ℓ + 1) b ⟨t :: i, n⟩ (.conditional c) y
  | elseBlock {t : Token} {bl : Block} (h : t.kind = .kwElse)
    (hb : Derives resolve .block ℓ b ⟨i, n⟩ bl y) :
    Derives resolve .otherwise ℓ b ⟨t :: i, n⟩ (.block bl) y
  | arm {p : Pattern} {g : Option Expr} {f : Token} {e : Expr}
    (hp : Derives resolve .pattern ℓ b ⟨x.rest, x.names.push⟩ p y)
    (hg : Derives resolve (.after .kwIf (.expr .lowest)) ℓ b
      ⟨y.rest, y.names.bindAll (Symbol.ofPattern p none)⟩ g ⟨f :: i, n⟩) (hf : f.kind = .fatArrow)
    (he : Derives resolve .statementExpr ℓ b ⟨i, n⟩ e z) :
    Derives resolve .arm (ℓ + 1) b x ⟨p, g, e, sp⟩ ⟨z.rest, z.names.pop⟩
  | armsNil {c : Token} (h : c.kind = .closeCurly) :
    Derives resolve .arms ℓ b ⟨c :: i, n⟩ [] ⟨i, n⟩
  | armsComma {a : Arm} {as : List Arm} {t : Token} (ha : Derives resolve .arm ℓ b x a ⟨t :: i, n⟩)
    (ht : t.kind = .comma) (has : Derives resolve .arms ℓ b ⟨i, n⟩ as y) :
    Derives resolve .arms ℓ b x (a :: as) y
  | armsBare {a : Arm} {as : List Arm} (ha : Derives resolve .arm ℓ b x a y) (hy : y.kind ≠ .comma)
    (hc : y.kind = .closeCurly ∨ a.body.isBlockLike = true) (has : Derives resolve .arms ℓ b y as z) :
    Derives resolve .arms ℓ b x (a :: as) z
  -- items
  | typedName {t c : Token} {a : Ty} (h : t.kind = .identifier) (hc : c.kind = .colon)
    (ha : Derives resolve .ty ℓ b ⟨i, n⟩ a y) :
    Derives resolve .typedName ℓ b ⟨t :: c :: i, n⟩ ⟨t, a, sp⟩ y
  | param {t c : Token} {a : Ty} (h : t.kind = .identifier) (hc : c.kind = .colon)
    (ha : Derives resolve .ty ℓ b ⟨i, n⟩ a y) :
    Derives resolve .param ℓ b ⟨t :: c :: i, n⟩ ⟨t, a, sp⟩
      ⟨y.rest, y.names.declare (.var t.value (some a) false) t.span.start⟩
  | selfReference {t s : Token} {mutable : Bool} (h : t.kind = .ampersand)
    (hm : Derives resolve (.flag .kwMut) ℓ b ⟨i, n⟩ mutable ⟨s :: j, m⟩)
    (hs : s.kind = .kwSelfValue) :
    Derives resolve .selfParam ℓ b ⟨t :: i, n⟩ ⟨true, mutable, none, sp⟩
      ⟨j, m.declare (.var "self" none mutable) sp.start⟩
  | selfValue {s : Token} {mutable : Bool} {a : Option Ty}
    (hm : Derives resolve (.flag .kwMut) ℓ b x mutable ⟨s :: j, m⟩) (hs : s.kind = .kwSelfValue)
    (ha : Derives resolve (.after .colon .ty) ℓ b ⟨j, m⟩ a y) :
    Derives resolve .selfParam ℓ b x ⟨false, mutable, a, sp⟩
      ⟨y.rest, y.names.declare (.var "self" a mutable) sp.start⟩
  | paramsPlain {ps : List TypedName} (h : Derives resolve (.list .round .param) ℓ b x ps y) :
    Derives resolve .params ℓ b x (none, ps) y
  | paramsSelf {s : SelfParam} {c : Token} (h : Derives resolve .selfParam ℓ b x s ⟨c :: i, n⟩)
    (hc : c.kind = .closeParen) : Derives resolve .params ℓ b x (some s, []) ⟨i, n⟩
  | paramsMore {s : SelfParam} {t : Token} {ps : List TypedName}
    (h : Derives resolve .selfParam ℓ b x s ⟨t :: i, n⟩) (ht : t.kind = .comma)
    (hps : Derives resolve (.list .round .param) ℓ b ⟨i, n⟩ ps y) :
    Derives resolve .params ℓ b x (some s, ps) y
  | signature {t : Token} (h : t.kind = .semicolon) :
    Derives resolve (.body true) ℓ b ⟨t :: i, n⟩ none ⟨i, n⟩
  | body {allowSignature : Bool} {bl : Block} (h : Derives resolve .block ℓ b x bl y) :
    Derives resolve (.body allowSignature) ℓ b x (some bl) y
  | function {allowSignature isConst : Bool} {f t p : Token} {s : Option SelfParam}
    {ps : List TypedName} {r : Option Ty} {bl : Option Block}
    (hc : Derives resolve (.flag .kwConst) ℓ b x isConst ⟨f :: t :: p :: i, n⟩) (hf : f.kind = .kwFn)
    (ht : t.kind = .identifier) (hp : p.kind = .openParen)
    (hps : Derives resolve .params ℓ b ⟨i, n.push⟩ (s, ps) y)
    (hr : Derives resolve (.after .arrow .ty) ℓ b y r z)
    (hb : Derives resolve (.body allowSignature) ℓ b z bl w) :
    Derives resolve (.function allowSignature) ℓ b x ⟨isConst, t, s, ps, r, bl, sp⟩
      ⟨w.rest, w.names.pop⟩
  | constant {inTrait : Bool} {t c d s : Token} {a : Ty} {v : Option Expr} (h : t.kind = .kwConst)
    (hc : c.kind = .identifier ∨ c.kind = .underscore) (hd : d.kind = .colon)
    (ha : Derives resolve .ty ℓ b ⟨i, n⟩ a y)
    (hv : Derives resolve (.after .assignment (.expr .lowest)) ℓ b y v ⟨s :: j, m⟩)
    (hn : v = none → inTrait = true) (hs : s.kind = .semicolon) :
    Derives resolve (.constant inTrait) ℓ b ⟨t :: c :: d :: i, n⟩ ⟨c, a, v, sp⟩ ⟨j, m⟩
  | memberFunction {inTrait : Bool} {f : FunctionDecl}
    (h : Derives resolve (.function inTrait) ℓ b x f y) :
    Derives resolve (.member inTrait) ℓ b x (.function f) y
  | memberConstant {inTrait : Bool} {c : ConstantDecl}
    (h : Derives resolve (.constant inTrait) ℓ b x c y) :
    Derives resolve (.member inTrait) ℓ b x (.constant c) y
  | membersNil {inTrait : Bool} {c : Token} (h : c.kind = .closeCurly) :
    Derives resolve (.members inTrait) ℓ b ⟨c :: i, n⟩ [] ⟨i, n⟩
  | membersCons {inTrait : Bool} {a : Member} {as : List Member}
    (ha : Derives resolve (.member inTrait) ℓ b x a y)
    (has : Derives resolve (.members inTrait) ℓ b
      ⟨y.rest, y.names.declare (.ofMember a) a.span.start⟩ as z) :
    Derives resolve (.members inTrait) ℓ b x (a :: as) z
  | itemFunction {f : FunctionDecl} (h : Derives resolve (.function false) ℓ b x f y) :
    Derives resolve .item ℓ b x (.function f) y
  | itemConstant {c : ConstantDecl} (h : Derives resolve (.constant false) ℓ b x c y) :
    Derives resolve .item ℓ b x (.constant c) y
  | itemUnit {t c s : Token} (h : t.kind = .kwStruct) (hc : c.kind = .identifier)
    (hs : s.kind = .semicolon) :
    Derives resolve .item ℓ b ⟨t :: c :: s :: i, n⟩ (.unitStruct c sp) ⟨i, n⟩
  | itemStruct {t c o : Token} {fs : List TypedName} (h : t.kind = .kwStruct)
    (hc : c.kind = .identifier) (ho : o.kind = .openCurly)
    (hfs : Derives resolve (.list .curly .typedName) ℓ b ⟨i, n⟩ fs y) :
    Derives resolve .item ℓ b ⟨t :: c :: o :: i, n⟩ (.struct c fs sp) y
  | itemEnum {t c o : Token} {vs : List Token} (h : t.kind = .kwEnum) (hc : c.kind = .identifier)
    (ho : o.kind = .openCurly) (hvs : Derives resolve (.list .curly .name) ℓ b ⟨i, n⟩ vs y) :
    Derives resolve .item ℓ b ⟨t :: c :: o :: i, n⟩ (.enum c vs sp) y
  | itemTrait {t c o : Token} {ms : List Member} (h : t.kind = .kwTrait) (hc : c.kind = .identifier)
    (ho : o.kind = .openCurly) (hms : Derives resolve (.members true) ℓ b ⟨i, n.push⟩ ms y) :
    Derives resolve .item ℓ b ⟨t :: c :: o :: i, n⟩ (.trait c ms sp) ⟨y.rest, y.names.pop⟩
  | itemImpl {t o : Token} {a : Ty} {ms : List Member} (h : t.kind = .kwImpl)
    (hi : ¬(kindAt i 0 = .identifier ∧ kindAt i 1 = .kwFor))
    (ha : Derives resolve .ty ℓ b ⟨i, n⟩ a ⟨o :: j, m⟩) (ho : o.kind = .openCurly)
    (hms : Derives resolve (.members false) ℓ b ⟨j, m.push⟩ ms y) :
    Derives resolve .item ℓ b ⟨t :: i, n⟩ (.impl none a ms sp) ⟨y.rest, y.names.pop⟩
  | itemImplFor {t c f o : Token} {a : Ty} {ms : List Member} (h : t.kind = .kwImpl)
    (hc : c.kind = .identifier) (hf : f.kind = .kwFor)
    (ha : Derives resolve .ty ℓ b ⟨i, n⟩ a ⟨o :: j, m⟩) (ho : o.kind = .openCurly)
    (hms : Derives resolve (.members false) ℓ b ⟨j, m.push⟩ ms y) :
    Derives resolve .item ℓ b ⟨t :: c :: f :: i, n⟩ (.impl (some c) a ms sp) ⟨y.rest, y.names.pop⟩
  | declaredItem {a : Item} (h : Derives resolve .item ℓ b x a y) :
    Derives resolve .declaredItem ℓ b x a ⟨y.rest, y.names.declare (.ofItem a) a.span.start⟩
  | itemsNil (h : x.kind = .eof) : Derives resolve .items ℓ b x [] x
  | itemsCons {a : Item} {as : List Item} (ha : Derives resolve .declaredItem ℓ b x a y)
    (has : Derives resolve .items ℓ b y as z) : Derives resolve .items ℓ b x (a :: as) z

end FrontEnd
