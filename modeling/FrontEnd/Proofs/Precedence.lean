import FrontEnd.Proofs.DerivedNodes
import FrontEnd.Proofs.Soundness
/-!
# Precedence

How tightly operators bind shows in every tree that is read: an operand whose own operator binds
less tightly stands in parentheses. What makes it so is the token after an expression. An expression
has a bound, and no operator that binds more tightly than its bound follows it.
-/
namespace FrontEnd

namespace Expr

/-- The tier of the operator at the root of an expression. A term has none. -/
def tier? : Expr → Option Tier
  | binary _ operator _ _ _ => operator.kind.tier?
  | assign _ _ _ | compoundAssign _ _ _ _ => some .assignment
  | cast _ _ _ => some .cast
  | call _ _ _ | index _ _ _ => some .call
  | field _ _ _ | methodCall _ _ _ _ => some .member
  | _ => none

def isBinary : Expr → Bool
  | binary _ _ _ _ _ => true
  | _ => false

def isCast : Expr → Bool
  | cast _ _ _ => true
  | _ => false

def isPrefix : Expr → Bool
  | unary _ _ _ | borrow _ _ _ | deref _ _ => true
  | _ => false

def isAssignment : Expr → Bool
  | assign _ _ _ | compoundAssign _ _ _ _ => true
  | _ => false

def isJumpWithValue : Expr → Bool
  | breakLoop (some _) _ | returnValue (some _) _ => true
  | _ => false

/-- An expression whose last part goes on as far as it can. -/
def isOpenEnded (e : Expr) : Bool := e.isAssignment || e.isJumpWithValue

/-- No operand of the operator at the root needs parentheses. -/
def WellGrouped : Expr → Prop
  | binary _ operator left right _ =>
    ∃ τ, operator.kind.tier? = some τ ∧ (∀ τ', right.tier? = some τ' → τ < τ') ∧
      (∀ τ', left.tier? = some τ' → τ ≤ τ') ∧ ¬left.isOpenEnded
  | unary _ e _ | borrow _ e _ | deref e _ => ¬e.isBinary ∧ ¬e.isCast ∧ ¬e.isAssignment
  | cast e _ _ => ¬e.isBinary ∧ ¬e.isOpenEnded
  | assign e _ _ | compoundAssign _ e _ _ => ¬e.isOpenEnded
  | call e _ _ | index e _ _ | field e _ _ | methodCall e _ _ _ =>
    ¬e.isPrefix ∧ ¬e.isBinary ∧ ¬e.isOpenEnded
  | _ => True

/-- The tightest tier of an operator that can follow an expression. -/
def bound : Expr → Tier
  | binary _ operator _ _ _ => operator.kind.tier?.getD .lowest
  | assign _ _ _ | compoundAssign _ _ _ _ => .lowest
  | breakLoop (some _) _ | returnValue (some _) _ => .lowest
  | unary _ _ _ | borrow _ _ _ | deref _ _ => .unary
  | _ => .path

end Expr

/-- No operator that binds more tightly than a tier stands at a place. -/
def Place.Bounded (x : Place) (τ : Tier) : Prop := ∀ τ', x.kind.tier? = some τ' → τ' ≤ τ

theorem Tier.le_path (τ : Tier) : τ ≤ .path := by cases τ <;> decide

theorem Tier.le_of_not_lt {τ τ' : Tier} (h : ¬τ < τ') : τ' ≤ τ := Nat.le_of_not_lt h

theorem Tier.not_le_of_lt {τ τ' : Tier} (h : τ < τ') : ¬τ' ≤ τ := Nat.not_le_of_lt h

theorem Tier.le_of_lt_of_le {τ τ' τ'' : Tier} (h : τ < τ') (h' : τ' ≤ τ'') : τ ≤ τ'' :=
  Nat.le_of_lt (Nat.lt_of_lt_of_le h h')

theorem TokenKind.lowest_lt_tier {k : TokenKind} {τ : Tier} (h : k.tier? = some τ) : .lowest < τ := by
  cases k <;> cases h <;> decide

theorem TokenKind.tier_lt_cast {k : TokenKind} {τ : Tier} (h : k.tier? = some τ)
    (hτ : τ ∉ [Tier.assignment, .cast, .call, .member]) : τ < .cast := by
  cases k <;> cases h <;> revert hτ <;> decide

namespace Expr

theorem bound_of_isOpenEnded {e : Expr} (h : e.isOpenEnded = true) : e.bound = .lowest := by
  cases e with
  | breakLoop value _ => cases value <;> simp_all [isOpenEnded, isAssignment, isJumpWithValue, bound]
  | returnValue value _ =>
    cases value <;> simp_all [isOpenEnded, isAssignment, isJumpWithValue, bound]
  | _ => simp_all [isOpenEnded, isAssignment, isJumpWithValue, bound]

theorem bound_of_isPrefix {e : Expr} (h : e.isPrefix = true) : e.bound = .unary := by
  cases e <;> simp_all [isPrefix, bound]

theorem bound_of_isBinary {e : Expr} {τ : Tier} (h : e.isBinary = true) (hτ : e.tier? = some τ) :
    e.bound = τ := by
  cases e <;> simp_all [isBinary, bound, tier?]

/-- What a binary operator can follow binds no less tightly than it. -/
theorem le_tier_of_le_bound {e : Expr} {τ τ' : Tier} (hle : τ ≤ e.bound) (hlow : .lowest < τ)
    (hcast : τ < .cast) (he : e.tier? = some τ') : τ ≤ τ' := by
  cases e with
  | binary family operator left right sp =>
    have hbound : (binary family operator left right sp).bound = τ' := bound_of_isBinary rfl he
    exact hbound ▸ hle
  | assign _ _ _ => exact absurd hle (Tier.not_le_of_lt hlow)
  | compoundAssign _ _ _ _ => exact absurd hle (Tier.not_le_of_lt hlow)
  | cast _ _ _ | call _ _ _ | index _ _ _ | field _ _ _ | methodCall _ _ _ _ =>
    cases he
    exact Tier.le_of_lt_of_le hcast (by decide)
  | _ => cases he

end Expr

variable {resolve : Bool} {ℓ : Nat} {b : Bool} {x y z : Place} {e : Expr}

namespace Derives

theorem tier_term (h : Derives resolve .term ℓ b x e y) : e.tier? = none := by
  cases h <;> rfl

theorem tier_attach {s : Suffix} (h : Derives resolve .suffix ℓ b x s y) (e : Expr) :
    (s.attach e).tier? = x.kind.tier? := by
  cases h with
  | sufBinary h _ _ => rfl
  | sufCompound h _ _ => exact h.symm
  | sufAssign h _ | sufCast h _ | sufCall h _ | sufIndex h _ _ | sufField h _ | sufMethod h _ _ _ =>
    simp [Suffix.attach, Expr.tier?, h, TokenKind.tier?]

theorem suffixes_bounded {above : Tier} {ss : List Suffix}
    (h : Derives resolve (.suffixes above) ℓ b y ss z) (he : ∀ τ, e.tier? = some τ → above < τ) :
    (∀ τ, (ss.foldl Suffix.attach e).tier? = some τ → above < τ) ∧ z.Bounded above := by
  induction ss generalizing e y with
  | nil =>
    cases h with
    | suffixesNil h => exact ⟨he, fun τ hτ => Tier.le_of_not_lt (h τ hτ)⟩
  | cons s ss ih =>
    cases h with
    | suffixesCons hτ hlt hs hss =>
      refine ih hss fun τ hτ' => ?_
      rw [hs.tier_attach, hτ] at hτ'
      cases hτ'
      exact hlt

/-- The operator at the root of an expression binds as tightly as asked for, and the token after it
is none that would go on with it. -/
theorem expr_bounded {above : Tier} (h : Derives resolve (.expr above) ℓ b x e y) :
    (∀ τ, e.tier? = some τ → above < τ) ∧ y.Bounded above := by
  cases h with
  | expr he hs => exact hs.suffixes_bounded fun τ hτ => by simp [he.tier_term] at hτ

theorem suffixes_chain {above : Tier} {ss : List Suffix}
    (h : Derives resolve (.suffixes above) ℓ b y ss z) (he : e.Chain resolve ℓ b x y) :
    (ss.foldl Suffix.attach e).Chain resolve ℓ b x z := by
  induction ss generalizing e y with
  | nil => cases h; exact he
  | cons s ss ih =>
    cases h with
    | suffixesCons _ _ hs hss => exact ih hss (he.attach hs)

end Derives

namespace Expr.Chain

theorem tier_of_isBinary (h : e.Chain resolve ℓ b x y) (he : e.isBinary = true) :
    ∃ τ, e.tier? = some τ ∧ τ < .cast := by
  cases h with
  | term h => cases h <;> cases he
  | attach _ hs =>
    cases hs with
    | sufBinary h hτ _ => exact ⟨_, h, TokenKind.tier_lt_cast h hτ⟩
    | _ => cases he

end Expr.Chain

/-- The operand of an operator that stands before it. -/
theorem Derives.operand_tight (h : Derives resolve (.expr .unary) ℓ b x e y) :
    ¬e.isBinary ∧ ¬e.isCast ∧ ¬e.isAssignment := by
  obtain ⟨htier, -⟩ := h.expr_bounded
  refine ⟨fun hbinary => ?_, fun hcast => ?_, fun hassign => ?_⟩
  · cases h with
    | expr he hs =>
      obtain ⟨τ, hτ, hlt⟩ := (hs.suffixes_chain (.term he)).tier_of_isBinary hbinary
      exact absurd (Tier.le_of_lt_of_le (htier τ hτ) (Nat.le_of_lt hlt)) (by decide)
  · have hτ : e.tier? = some .cast := by cases e <;> simp_all [Expr.isCast, Expr.tier?]
    exact absurd (htier _ hτ) (by decide)
  · have hτ : e.tier? = some .assignment := by cases e <;> simp_all [Expr.isAssignment, Expr.tier?]
    exact absurd (htier _ hτ) (by decide)

namespace Expr.Chain

/-- An expression that a tight operator can follow is no operand that goes on. -/
theorem not_isOpenEnded {τ : Tier} (hle : τ ≤ e.bound) (hτ : .lowest < τ) : ¬e.isOpenEnded := by
  intro hopen
  rw [bound_of_isOpenEnded hopen] at hle
  exact Tier.not_le_of_lt hτ hle

theorem not_isBinary {τ : Tier} (h : e.Chain resolve ℓ b x y) (hle : τ ≤ e.bound)
    (hτ : .cast ≤ τ) : ¬e.isBinary := by
  intro hbinary
  obtain ⟨τ', hτ', hlt⟩ := h.tier_of_isBinary hbinary
  rw [bound_of_isBinary hbinary hτ'] at hle
  exact Tier.not_le_of_lt hlt (Nat.le_trans hτ hle)

theorem not_isPrefix {τ : Tier} (hle : τ ≤ e.bound) (hτ : .unary < τ) : ¬e.isPrefix := by
  intro hprefix
  rw [bound_of_isPrefix hprefix] at hle
  exact Tier.not_le_of_lt hτ hle

/-- What stands before the arguments of a call, an index or the name of a member. -/
theorem base {τ : Tier} (h : e.Chain resolve ℓ b x y) (hle : τ ≤ e.bound) (hτ : .unary < τ) :
    ¬e.isPrefix ∧ ¬e.isBinary ∧ ¬e.isOpenEnded :=
  ⟨not_isPrefix hle hτ, h.not_isBinary hle (Tier.le_of_lt_of_le (by decide) (Nat.le_of_lt hτ)),
    not_isOpenEnded hle (Nat.lt_trans (by decide) hτ)⟩

/-- A chain is well grouped, and no operator follows it that binds more tightly than its bound. -/
theorem wellGrouped (h : e.Chain resolve ℓ b x y) : e.WellGrouped ∧ y.Bounded e.bound := by
  have top {y : Place} : y.Bounded .path := fun τ _ => τ.le_path
  induction h with
  | term h =>
    cases h with
    | termUnary _ he => exact ⟨he.operand_tight, he.expr_bounded.2⟩
    | termDeref _ he => exact ⟨he.operand_tight, he.expr_bounded.2⟩
    | termBorrow _ _ he => exact ⟨he.operand_tight, he.expr_bounded.2⟩
    | termBorrows _ _ he => exact ⟨by simp [WellGrouped, isBinary, isCast, isAssignment],
        he.expr_bounded.2⟩
    | termBreak _ hv | termReturn _ hv =>
      cases hv with
      | jumpNothing _ => exact ⟨trivial, top⟩
      | jumpValue he => exact ⟨trivial, he.expr_bounded.2⟩
    | _ => exact ⟨trivial, top⟩
  | attach he hs ih =>
    obtain ⟨-, hbound⟩ := ih
    cases hs with
    | sufBinary h hτ hr =>
      have hle := hbound _ h
      have hlow := TokenKind.lowest_lt_tier h
      have hcast := TokenKind.tier_lt_cast h hτ
      refine ⟨⟨_, h, hr.expr_bounded.1, ?_, not_isOpenEnded hle hlow⟩, ?_⟩
      · exact fun τ' => le_tier_of_le_bound hle hlow hcast
      · simpa [Suffix.attach, bound, h] using hr.expr_bounded.2
    | sufAssign h hv =>
      have hle := hbound .assignment (by simp [h, TokenKind.tier?])
      exact ⟨not_isOpenEnded hle (by decide), hv.expr_bounded.2⟩
    | sufCompound h _ hv =>
      exact ⟨not_isOpenEnded (hbound _ h) (by decide), hv.expr_bounded.2⟩
    | sufCast h _ =>
      have hle := hbound .cast (by simp [h, TokenKind.tier?])
      exact ⟨⟨he.not_isBinary hle (Nat.le_refl _), not_isOpenEnded hle (by decide)⟩, top⟩
    | sufCall h _ | sufIndex h _ _ =>
      exact ⟨he.base (hbound .call (by simp [h, TokenKind.tier?])) (by decide), top⟩
    | sufField h _ | sufMethod h _ _ _ =>
      exact ⟨he.base (hbound .member (by simp [h, TokenKind.tier?])) (by decide), top⟩

end Expr.Chain

/-- Operators bind as their tiers say. The operator at the root of an expression that is read binds
more tightly than asked for, no operator that does so follows, and at every node anywhere inside,
the operands that bind too loosely stand in parentheses. -/
theorem Session.read_expr_wellGrouped (s : Session) (above : Tier) (e : Expr)
    (h : (s.read (Grammar.expr above)).1 = .ok e) :
    (∀ τ, e.tier? = some τ → above < τ) ∧
    (∀ τ, (s.read (Grammar.expr above)).2.state.cursor.kind.tier? = some τ → ¬above < τ) ∧
    ∀ e', (Node.expr e').Within (.expr e) → e'.WellGrouped := by
  have hd := Session.read_sound ((Goal.sound s.options s.options.maxDepth).expr above) h
  obtain ⟨htier, hbounded⟩ := hd.expr_bounded
  refine ⟨htier, fun τ hτ => ?_, fun e' he' => ?_⟩
  · exact fun hlt => Tier.not_le_of_lt hlt (hbounded τ hτ)
  · have hnodes := List.forall_mem_singleton.1 hd.nodes_derived
    obtain ⟨ℓ, b, x, y, hchain⟩ := hnodes _ he'
    exact hchain.wellGrouped.1

/-- A sum of a cast field of a variable, negated, and another, assigned to a third. -/
theorem Session.read_expr_wellGrouped_assignment :
    let s := Session.start ([TokenKind.identifier, .assignment, .dash, .identifier, .dot,
      .identifier, .kwAs, .identifier, .plus, .identifier].map Token.fixed) "t" ⟨4, true⟩
    ∃ e, (s.read (Grammar.expr .lowest)).1 = .ok e ∧
      (∀ τ, e.tier? = some τ → .lowest < τ) ∧
      (∀ τ, (s.read (Grammar.expr .lowest)).2.state.cursor.kind.tier? = some τ → ¬.lowest < τ) ∧
      ∀ e', (Node.expr e').Within (.expr e) → e'.WellGrouped := by
  intro s
  have hok : ((s.read (Grammar.expr .lowest)).1 matches .ok _) = true := by decide +kernel
  match h : (s.read (Grammar.expr .lowest)).1 with
  | .ok e => exact ⟨e, rfl, s.read_expr_wellGrouped .lowest e h⟩
  | .error e => simp [h] at hok

end FrontEnd
