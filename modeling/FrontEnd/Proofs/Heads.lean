import FrontEnd.Proofs.Progress
import FrontEnd.Proofs.Tree.Forms
/-!
# First tokens

What a tree that is read at a place tells about the tokens there, and about the first of its
canonical tokens.
-/
namespace FrontEnd

open Grammar (pathSegments exprStarts typeStarts)
open Token (fixed)

def patternStarts : List TokenKind :=
  [.dash, .integer, .char, .string, .kwTrue, .kwFalse, .underscore, .ampersand, .andAnd, .kwRef,
    .kwMut, .kwSelfValue, .kwSelfType, .identifier]

def itemStarts : List TokenKind := [.kwFn, .kwConst, .kwStruct, .kwEnum, .kwTrait, .kwImpl]

/-- What a form that is not empty begins with. -/
def Form.Starts : Form → TokenKind → Prop
  | segment, k | path, k => k ∈ pathSegments
  | name, k | field, k | typedName, k | param, k => k = .identifier
  | ty, k => k ∈ typeStarts
  | pattern, k | arm, k => k ∈ patternStarts
  | expr _, k | term, k | statementExpr, k => k ∈ exprStarts
  | suffix, k => k.tier?.isSome = true
  | block, k => k = .openCurly
  | statement, k => k ∈ .kwLet :: .semicolon :: itemStarts
  | element, k => k ∈ .kwLet :: .semicolon :: itemStarts ++ exprStarts
  | letLink, k => k = .kwLet
  | link, k | condition, k => k ∈ .kwLet :: exprStarts
  | conditional, k => k = .kwIf
  | selfParam, k => k ∈ [TokenKind.ampersand, .kwMut, .kwSelfValue]
  | function _, k | member _, k => k ∈ [TokenKind.kwFn, .kwConst]
  | constant _, k => k = .kwConst
  | item, k | declaredItem, k => k ∈ itemStarts
  | _, _ => True

attribute [local simp] Form.Starts

variable {resolve : Bool} {σ : Form} {ℓ : Nat} {b : Bool} {x y : Place} {t : σ.Tree}

theorem mem_of_mem {k : TokenKind} {K K' : List TokenKind} (h : k ∈ K)
    (hK : ∀ k ∈ K, k ∈ K') : k ∈ K' :=
  hK k h

theorem TokenKind.mem_of_isLiteral {k : TokenKind} {K : List TokenKind} (h : k.isLiteral)
    (hK : ∀ k ∈ [TokenKind.integer, .char, .string, .kwTrue, .kwFalse], k ∈ K) :
    k ∈ K :=
  hK k (by simpa [TokenKind.isLiteral] using h)

theorem Derives.starts (h : Derives resolve σ ℓ b x t y) : σ.Starts x.kind := by
  induction h with
  | tyPath h hp ih => exact mem_of_mem (K := [.identifier, .kwSelfType]) (by simpa using h) (by decide)
  | patLiteral h => exact TokenKind.mem_of_isLiteral h (by decide)
  | patBinding h hr hm ht hs ihr ihm ihs =>
    exact mem_of_mem (K := [.kwRef, .kwMut, .identifier])
      (by simpa using h.imp_right (Or.imp_right And.left)) (by decide)
  | patPath h hp hy ih => exact mem_of_mem ih (by decide)
  | patTuple h hp ht hps ih ihps => exact mem_of_mem ih (by decide)
  | termLiteral h => exact TokenKind.mem_of_isLiteral h (by decide)
  | termPath hp hy ih => exact mem_of_mem ih (by decide)
  | termStruct hp ht hfs ih ihfs => exact mem_of_mem ih (by decide)
  | termUnary h he ih => exact mem_of_mem (K := [.dash, .bang]) (by simpa using h) (by decide)
  | sufBinary h hτ he ih | sufCompound h ht he ih => simp [h]
  | elementStmt h hs ih => exact List.mem_append_left _ ih
  | elementExpr h he hs ih => exact List.mem_append_right _ ih
  | elementBlockLike h he hs hc hb ih => exact List.mem_append_right _ ih
  | arm hp hg hf he ihp ihg ihe => exact ihp
  | selfValue hm hs ha ihm iha => cases hm <;> simp_all
  | function hc hf ht hp hps hr hb ihc ihps ihr ihb => cases hc <;> simp_all
  | itemFunction h ih => exact mem_of_mem ih (by decide)
  | _ => first
    | exact True.intro
    | simp_all [typeStarts, patternStarts, itemStarts, exprStarts, pathSegments, TokenKind.tier?]

/-- The tokens that an expression begins with that ends in a block. -/
def blockLikeStarts : List TokenKind :=
  [.openCurly, .kwConst, .kwIf, .kwMatch, .kwLoop, .kwWhile]

def Place.StartsSelf (x : Place) : Prop :=
  x.kind = .kwSelfValue ∨ x.kind = .kwMut ∧ x.nextKind = .kwSelfValue ∨
    x.kind = .ampersand ∧
      (x.nextKind = .kwSelfValue ∨ x.nextKind = .kwMut ∧ kindAt x.rest 2 = .kwSelfValue)

namespace Derives

variable {above : Tier} {e : Expr} {s : Stmt}

theorem startsSelf {p : SelfParam} (h : Derives resolve .selfParam ℓ b x p y) : x.StartsSelf := by
  cases h with
  | selfReference h hm hs => cases hm <;> simp_all [Place.StartsSelf]
  | selfValue hm hs ha => cases hm <;> simp_all [Place.StartsSelf]

/-- An expression that begins with `const` is a block after `const`. -/
theorem nextKind_const (h : Derives resolve .term ℓ b x e y) (hx : x.kind = .kwConst) :
    x.nextKind = .openCurly := by
  cases h with
  | termConst h hb => exact hb.starts
  | termPath hp hy => exact absurd (hx ▸ hp.starts) (by simp [pathSegments])
  | termStruct hp ht hfs => exact absurd (hx ▸ hp.starts) (by simp [pathSegments])
  | termBlock h => exact absurd (hx.symm.trans h.starts) (by decide)
  | termIf h => exact absurd (hx.symm.trans h.starts) (by decide)
  | _ => simp_all [TokenKind.isLiteral]

theorem startsBlockLike_iff (h : Derives resolve .term ℓ b x e y) :
    x.StartsBlockLike ↔ x.kind ∈ blockLikeStarts := by
  constructor
  · rintro (h | ⟨h, -⟩)
    · exact mem_of_mem h (by decide)
    · simp [h, blockLikeStarts]
  · intro hx
    by_cases hconst : x.kind = .kwConst
    · exact .inr ⟨hconst, h.nextKind_const hconst⟩
    · exact .inl (by simpa [blockLikeStarts, hconst] using hx)

theorem startsBlockLike_iff_expr (h : Derives resolve (.expr above) ℓ b x e y) :
    x.StartsBlockLike ↔ x.kind ∈ blockLikeStarts := by
  cases h with
  | expr he hs => exact he.startsBlockLike_iff

theorem kind_function {allowSignature : Bool} {f : FunctionDecl}
    (h : Derives resolve (.function allowSignature) ℓ b x f y) :
    x.kind = .kwFn ∨ x.kind = .kwConst ∧ x.nextKind = .kwFn := by
  cases h with
  | function hc hf ht hp hps hr hb => cases hc <;> simp_all

theorem kind_constant {inTrait : Bool} {d : ConstantDecl}
    (h : Derives resolve (.constant inTrait) ℓ b x d y) :
    x.kind = .kwConst ∧ (x.nextKind = .identifier ∨ x.nextKind = .underscore) := by
  cases h with
  | constant h hc hd ha hv hn hs => exact ⟨h, hc⟩

theorem startsStatement (h : Derives resolve .statement ℓ b x s y) : x.StartsStatement := by
  cases h with
  | stmtEmpty h => simp [Place.StartsStatement, h]
  | stmtLet h hp ha hv hs => simp [Place.StartsStatement, h]
  | stmtItem h =>
    cases h with
    | declaredItem h =>
      cases h with
      | itemFunction h =>
        obtain hx | ⟨hx, hnext⟩ := h.kind_function
        · simp [Place.StartsStatement, hx]
        · simp [Place.StartsStatement, hx, hnext]
      | itemConstant h =>
        obtain ⟨hx, hnext⟩ := h.kind_constant
        simpa [Place.StartsStatement, hx] using Or.inr hnext
      | _ => simp_all [Place.StartsStatement]

theorem not_startsStatement (h : Derives resolve .statementExpr ℓ b x e y) :
    ¬x.StartsStatement := by
  have hstart := h.starts
  have hconst : x.kind = .kwConst → x.nextKind = .openCurly := by
    cases h with
    | stmtExpr h he =>
      cases he with
      | expr he hs => exact he.nextKind_const
    | stmtBlockLike h he hy => exact he.nextKind_const
    | stmtMember h he hy hs => exact he.nextKind_const
  have hdisjoint : ∀ k ∈ exprStarts,
      k ∉ [TokenKind.kwLet, .semicolon, .kwFn, .kwStruct, .kwEnum, .kwTrait, .kwImpl] := by decide
  rintro (hx | ⟨hx, hnext⟩)
  · exact hdisjoint _ hstart hx
  · simp [hconst hx] at hnext

end Derives

namespace TokenKind

/-- The tokens after which nothing goes on. -/
def closers : List TokenKind := [.comma, .closeParen, .closeBracket, .closeCurly]

/-- What the first token of a tree may become when the tree is written: a reference may be joined
with the one in it. -/
def Becomes (k k' : TokenKind) : Prop := (k' = k ∨ k = .ampersand ∧ k' = .andAnd) ∧ k' ≠ .pathSep

/-- What may come after a tree when it is written, if `k` came after it when it was read. -/
def Follows (k k' : TokenKind) : Prop := k.Becomes k' ∨ k' ∈ closers

theorem Becomes.self {k k' : TokenKind} (h : k = k') (hk : k' ≠ .pathSep) :
    k.Becomes k' :=
  ⟨.inl h.symm, hk⟩

end TokenKind

open TokenKind (Becomes Follows closers)

/-- The forms that are not empty and begin with the same token when they are written. -/
def Form.KeepsHead : Form → Prop
  | path | pattern | expr _ | term | suffix | statementExpr | block | element | elements | statement
  | conditional | body _ | function _ | constant _ | item | declaredItem => True
  | _ => False

theorem becomes_reference_pattern (m : Bool) (p : Pattern) (sp : Span) (o : List Token) :
    Becomes .ampersand (kindAt ((Pattern.reference m p sp).write ++ o) 0) := by
  cases m with
  | true => simp [Pattern.write, Becomes]
  | false => cases p <;> simp [Pattern.write, Becomes]

theorem becomes_borrow (m : Bool) (e : Expr) (sp : Span) (o : List Token) :
    Becomes .ampersand (kindAt ((Expr.borrow m e sp).write ++ o) 0) := by
  cases m with
  | true => simp [Expr.write, Becomes]
  | false => cases e <;> simp [Expr.write, Becomes]

attribute [local simp] Form.write

theorem Derives.becomes (h : Derives resolve σ ℓ b x t y) (hσ : σ.KeepsHead) (o : List Token) :
    x.kind.Becomes (kindAt (σ.write t ++ o) 0) := by
  have kept {t : Token} {K : List TokenKind} (h : t.kind ∈ K) (i : List Token)
      (hK : .pathSep ∉ K) : t.kind.Becomes (kindAt (t :: i) 0) :=
    .self rfl fun hsep => hK (hsep ▸ h)
  have mark {t : Token} {k : TokenKind} (i : List Token) (h : t.kind = k) (hk : k ≠ .pathSep) :
      t.kind.Becomes (kindAt (fixed k :: i) 0) := .self h hk
  have literal {t : Token} (h : t.kind.isLiteral) (i : List Token) :
      t.kind.Becomes (kindAt (t :: i) 0) :=
    kept (K := [.integer, .char, .string, .kwTrue, .kwFalse]) (TokenKind.mem_of_isLiteral h (by decide)) i
      (by decide)
  have operator {t : Token} {τ : Tier} (h : t.kind.tier? = some τ) (i : List Token) :
      t.kind.Becomes (kindAt (t :: i) 0) :=
    .self rfl fun hsep => by simp [show t.kind = .pathSep from hsep, TokenKind.tier?] at h
  induction h generalizing o with
  | path h hts ihts => exact kept h _ (by decide)
  | patLiteral h => exact literal h _
  | patReference h hm hp ihm ihp =>
    rw [Place.kind_mk, kindAt_zero, h]
    exact becomes_reference_pattern _ _ _ o
  | patBinding h hr hm ht hs ihr ihm ihs =>
    cases hr <;> cases hm <;> simp_all [Pattern.write, Written.flag, Becomes]
  | termLiteral h => exact literal h _
  | termUnary h he ihe => exact kept (K := [.dash, .bang]) (by simpa using h) _ (by decide)
  | termBorrow h hm he ihm ihe =>
    rw [Place.kind_mk, kindAt_zero, h]
    exact becomes_borrow _ _ _ o
  | sufBinary h hτ he ihe | sufCompound h ht he ihe => exact operator h _
  | patWildcard h | termUnderscore h | termContinue h =>
    exact kept (List.mem_singleton.2 h) _ (by decide)
  | function hc hf ht hp hps hr hb ihc ihps ihr ihb =>
    cases hc <;> simp_all [FunctionDecl.write, Written.flag, Becomes]
  -- what begins with another form
  | patPath h hp hy ih | termPath hp hy ih | termBlock h ih | termIf h ih | stmtExpr h he ih
  | stmtBlockLike h he hy ih | elementStmt h hs ih | stmtItem h ih | body h ih | itemFunction h ih
  | itemConstant h ih | declaredItem h ih => exact ih trivial o
  | patTuple h hp ht hps ih ihps | termStruct hp ht hfs ih ihfs =>
    simpa [Pattern.write, Expr.write] using ih trivial _
  | expr he hs ih ihs | stmtMember h he hy hs ih ihs =>
    simpa [Suffix.write_foldl_attach] using ih trivial _
  | elementsTail h he hc ih | elementsCons hs hss ih ihss | elementExpr h he hs ih
  | elementBlockLike h he hs hc hb ih =>
    simpa [Stmt.write, Written.flag] using ih trivial _
  -- what begins with a token that is written as it is
  | _ => first
    | exact hσ.elim
    | exact mark _ (by assumption) (by decide)

namespace Derives

variable {o : List Token} {form : Form} {k : TokenKind}

/-- What may come after a tree may also come after the one before it. -/
theorem follows (h : Derives resolve σ ℓ b x t y) (hσ : σ.KeepsHead) :
    x.kind.Follows (kindAt (σ.write t ++ o) 0) :=
  .inl (h.becomes hσ o)

theorem follows_after {a : Option form.Tree} (h : Derives resolve (.after k form) ℓ b x a y)
    (ho : y.kind.Follows (kindAt o 0)) :
    x.kind.Follows (kindAt ((Form.after k form).write a ++ o) 0) := by
  cases h with
  | afterNothing hk h => exact ho
  | afterSome hk h ha =>
    refine .inl (.self h ?_)
    rintro rfl
    simp [optionalMarks] at hk

theorem follows_links {ls : List Link} (h : Derives resolve (.eachAfter .andAnd .link) ℓ b x ls y)
    (ho : y.kind.Follows (kindAt o 0)) :
    x.kind.Follows (kindAt ((Form.eachAfter .andAnd .link).write ls ++ o) 0) := by
  cases h with
  | eachNil hk h => exact ho
  | eachCons hk h ha has => simp [Written.eachAfter, Follows, Becomes, h]

theorem follows_suffixes {above : Tier} {ss : List Suffix}
    (h : Derives resolve (.suffixes above) ℓ b x ss y) (ho : y.kind.Follows (kindAt o 0)) :
    x.kind.Follows (kindAt ((Form.suffixes above).write ss ++ o) 0) := by
  cases h with
  | suffixesNil h => exact ho
  | suffixesCons h hτ hs hss => simpa using hs.follows trivial

end Derives

end FrontEnd
