import FrontEnd.Proofs.Balance
/-!
# Phrases that declare nothing

Names come into a scope by a few phrases only. Every other phrase is quiet: it declares and binds
nothing but in scopes of its own, and so the scope that it stands in stays as it is, also when the
phrase fails half way.
-/
namespace FrontEnd

variable {α β : Type}

/-- Steps other than to declare and to bind. -/
def Act.Quiet : Act α → Prop
  | .declare _ _ => False
  | .bind _ => False
  | _ => True

namespace Phrase

/-- Phrases that declare nothing in the scope that they stand in. An element of a block is the only
goal that can declare something there. -/
def Quiet : {α : Type} → Phrase α → Prop
  | _, .done _ => True
  | _, .fail _ => True
  | _, .act a next => a.Quiet ∧ ∀ b, (next b).Quiet
  | _, .nested g next => g ≠ .element ∧ ∀ t, (next t).Quiet
  | _, .enclosed _ next => ∀ b, (next b).Quiet
  | _, .structLiterals _ body next => body.Quiet ∧ ∀ b, (next b).Quiet
  | _, .many round next => round.Quiet ∧ ∀ bs, (next bs).Quiet

namespace Quiet

variable {p : Phrase α} {k : TokenKind}

theorem bind {f : α → Phrase β} (hp : p.Quiet) (hf : ∀ a, (f a).Quiet) : (p >>= f).Quiet := by
  rw [bind_eq_andThen]
  induction p with
  | done value => exact hf value
  | fail expected => trivial
  | act a next ih => exact ⟨hp.1, fun b => ih b (hp.2 b) hf⟩
  | nested g next ih => exact ⟨hp.1, fun t => ih t (hp.2 t) hf⟩
  | enclosed body next _ ih => exact fun b => ih b (hp b) hf
  | structLiterals allowed body next _ ih => exact ⟨hp.1, fun b => ih b (hp.2 b) hf⟩
  | many round next _ ih => exact ⟨hp.1, fun bs => ih bs (hp.2 bs) hf⟩

theorem pure {a : α} : (Pure.pure a : Phrase α).Quiet := trivial

theorem fail {expected : String} : (Phrase.fail expected : Phrase α).Quiet := trivial

theorem map {f : α → β} (hp : p.Quiet) : (f <$> p).Quiet := by
  rw [map_eq_pure_bind]
  exact hp.bind fun _ => trivial

theorem ite {c : Prop} [Decidable c] {q : Phrase α} (hp : p.Quiet) (hq : q.Quiet) :
    (if c then p else q).Quiet := by
  split
  · exact hp
  · exact hq

theorem kind : Phrase.kind.Quiet := ⟨trivial, fun _ => trivial⟩

theorem nextKind : Phrase.nextKind.Quiet := ⟨trivial, fun _ => trivial⟩

theorem take : Phrase.take.Quiet := ⟨trivial, fun b => by cases b <;> trivial⟩

theorem current : Phrase.current.Quiet := ⟨trivial, fun b => by cases b <;> trivial⟩

theorem spanFrom {start : Span} : (Phrase.spanFrom start).Quiet := ⟨trivial, fun _ => trivial⟩

theorem isConstant {name : String} : (Phrase.isConstant name).Quiet := ⟨trivial, fun _ => trivial⟩

theorem allowsStructLiterals : Phrase.allowsStructLiterals.Quiet := ⟨trivial, fun _ => trivial⟩

theorem goal {g : Goal} (hg : g ≠ .element) : (Phrase.goal g).Quiet :=
  ⟨hg, fun _ => trivial⟩

theorem inScope : (Phrase.inScope p).Quiet := fun _ => trivial

theorem withStructLiterals {allowed : Bool} (hp : p.Quiet) :
    (Phrase.withStructLiterals allowed p).Quiet := ⟨hp, fun _ => trivial⟩

theorem repeated {round : Phrase (Option α)} (hr : round.Quiet) : (Phrase.repeated round).Quiet :=
  ⟨hr, fun _ => trivial⟩

theorem eat : (Phrase.eat k).Quiet :=
  kind.bind fun _ => .ite (take.bind fun _ => .pure) .pure

theorem expect : (Phrase.expect k).Quiet := kind.bind fun _ => .ite take .fail

theorem expectOneOf {ks : List TokenKind} {expected : String} :
    (Phrase.expectOneOf ks expected).Quiet := by
  refine ⟨trivial, fun b => ?_⟩
  cases b with
  | none => trivial
  | some t => exact .ite take .fail

theorem after? (hp : p.Quiet) : (Phrase.after? k p).Quiet :=
  eat.bind fun _ => .ite hp.map .pure

theorem untilKind (hp : p.Quiet) : (Phrase.untilKind k p).Quiet :=
  .repeated (kind.bind fun _ => .ite .pure hp.map)

theorem eachAfter (hp : p.Quiet) : (Phrase.eachAfter k p).Quiet := .repeated hp.after?

theorem afterFirst (hp : p.Quiet) : (Phrase.afterFirst k p).Quiet :=
  .repeated (eat.bind fun _ => .ite (kind.bind fun _ => .ite .pure hp.map) .pure)

theorem commaList (hp : p.Quiet) : (Phrase.commaList k p).Quiet :=
  kind.bind fun _ => .ite .pure (hp.bind fun _ => hp.afterFirst.bind fun _ => .pure)

theorem referenceLayers {layer : Bool → α → Span → α} {spanOf : α → Span} (hp : p.Quiet) :
    (Phrase.referenceLayers layer spanOf p).Quiet :=
  take.bind fun _ => eat.bind fun _ => hp.bind fun _ => .pure

end Quiet

end Phrase

namespace Grammar

open Phrase

theorem quiet_path : path.Quiet :=
  Quiet.expectOneOf.bind fun _ => Quiet.expectOneOf.eachAfter.bind fun _ =>
    Quiet.spanFrom.bind fun _ => .pure

theorem quiet_expr (above : Tier) : (expr above).Quiet := .goal nofun

theorem quiet_ty : ty.Quiet := Quiet.kind.bind fun _ => .ite (.goal nofun) .fail

theorem quiet_bracketType : bracketType.Quiet :=
  Quiet.take.bind fun _ => .bind quiet_ty fun _ => Quiet.eat.bind fun _ => .ite
    ((quiet_expr _).withStructLiterals.bind fun _ => Quiet.expect.bind fun _ =>
      Quiet.spanFrom.bind fun _ => .pure)
    (Quiet.expect.bind fun _ => Quiet.spanFrom.bind fun _ => .pure)

theorem quiet_parenType : parenType.Quiet :=
  Quiet.take.bind fun _ => Quiet.eat.bind fun _ => .ite (Quiet.spanFrom.bind fun _ => .pure) <|
    .bind quiet_ty fun _ => Quiet.eat.bind fun _ => .ite .pure <|
      .bind (.afterFirst quiet_ty) fun _ => Quiet.expect.bind fun _ =>
        Quiet.spanFrom.bind fun _ => .pure

theorem quiet_tyRule : tyRule.Quiet := Quiet.kind.bind fun k => by
  split
  · exact .map quiet_path
  · exact .map quiet_path
  · exact .referenceLayers quiet_ty
  · exact .referenceLayers quiet_ty
  · exact quiet_bracketType
  · exact quiet_parenType
  · exact Quiet.take.map
  · exact Quiet.take.map
  · exact .fail

theorem quiet_pattern : pattern.Quiet := .goal nofun

theorem quiet_pathPattern : pathPattern.Quiet :=
  .bind quiet_path fun _ => Quiet.eat.bind fun _ => .ite
    (.bind (.commaList quiet_pattern) fun _ => Quiet.expect.bind fun _ =>
      Quiet.spanFrom.bind fun _ => .pure)
    .pure

theorem quiet_identifierPattern : identifierPattern.Quiet :=
  Quiet.current.bind fun _ => Quiet.eat.bind fun _ => Quiet.eat.bind fun _ =>
    Quiet.expect.bind fun _ => .bind (.after? quiet_pattern) fun _ =>
      Quiet.spanFrom.bind fun _ => .pure

theorem quiet_namePattern (name : String) : (namePattern name).Quiet := Quiet.nextKind.bind fun _ => by
  split
  · exact quiet_pathPattern
  · exact quiet_pathPattern
  · exact quiet_identifierPattern
  · exact Quiet.isConstant.bind fun _ => .ite quiet_pathPattern quiet_identifierPattern

theorem quiet_patternRule : patternRule.Quiet := Quiet.current.bind fun t => by
  have hliteral : literalPattern.Quiet := Quiet.take.bind fun _ => .pure
  split
  · exact Quiet.take.bind fun _ => Quiet.expect.bind fun _ => .pure
  · exact hliteral
  · exact hliteral
  · exact hliteral
  · exact hliteral
  · exact hliteral
  · exact Quiet.take.map
  · exact .referenceLayers quiet_pattern
  · exact .referenceLayers quiet_pattern
  · exact quiet_identifierPattern
  · exact quiet_identifierPattern
  · exact quiet_pathPattern
  · exact quiet_pathPattern
  · exact quiet_namePattern _
  · exact .fail

theorem quiet_block : block.Quiet := .goal nofun

theorem quiet_constBlock : constBlock.Quiet :=
  Quiet.expect.bind fun _ => Quiet.kind.bind fun _ => .ite
    (.bind quiet_block fun _ => Quiet.spanFrom.bind fun _ => .pure) .fail

theorem quiet_startsBlockLike : startsBlockLike.Quiet := Quiet.kind.bind fun _ => by
  split
  · exact Quiet.nextKind.bind fun _ => .pure
  all_goals exact .pure

theorem quiet_statementExpr : statementExpr.Quiet :=
  .bind quiet_startsBlockLike fun _ => .ite (.goal nofun) (quiet_expr _)

theorem quiet_otherwise : otherwise.Quiet :=
  Quiet.eat.bind fun _ => .ite
    (Quiet.kind.bind fun _ => .ite (Quiet.map (.goal nofun)) (.map quiet_block)) .pure

theorem quiet_conditional : conditional.Quiet :=
  Quiet.expect.bind fun _ => Quiet.inScope.bind fun _ => .bind quiet_otherwise fun _ =>
    Quiet.spanFrom.bind fun _ => .pure

theorem quiet_whileLoop : whileLoop.Quiet :=
  Quiet.expect.bind fun _ => Quiet.inScope.bind fun _ => Quiet.spanFrom.bind fun _ => .pure

theorem quiet_loop : loop.Quiet :=
  Quiet.expect.bind fun _ => .bind quiet_block fun _ => Quiet.spanFrom.bind fun _ => .pure

theorem quiet_armAndComma : armAndComma.Quiet :=
  (Quiet.goal (nofun : Goal.arm ≠ .element)).bind fun _ => Quiet.eat.bind fun _ => .ite .pure <|
    Quiet.kind.bind fun _ => .ite .pure .fail

theorem quiet_matching : matching.Quiet :=
  Quiet.expect.bind fun _ => (quiet_expr _).withStructLiterals.bind fun _ =>
    Quiet.expect.bind fun _ => quiet_armAndComma.untilKind.withStructLiterals.bind fun _ =>
      Quiet.expect.bind fun _ => Quiet.spanFrom.bind fun _ => .pure

theorem quiet_fieldValue : fieldValue.Quiet :=
  Quiet.expect.bind fun _ => (quiet_expr _).after?.bind fun value => by
    cases value <;> exact .pure

theorem quiet_structLiteral (p : Path) : (structLiteral p).Quiet :=
  Quiet.expect.bind fun _ =>
    (quiet_fieldValue.commaList.bind fun _ => Quiet.expect.bind fun _ => .pure).withStructLiterals.bind
      fun _ => Quiet.spanFrom.bind fun _ => .pure

theorem quiet_pathExpr : pathExpr.Quiet :=
  .bind quiet_path fun _ => Quiet.kind.bind fun _ => Quiet.allowsStructLiterals.bind fun _ =>
    .ite (quiet_structLiteral _) .pure

theorem quiet_grouped : grouped.Quiet :=
  Quiet.take.bind fun _ => (quiet_expr _).withStructLiterals.bind fun _ =>
    Quiet.expect.bind fun _ => Quiet.spanFrom.bind fun _ => .pure

theorem quiet_arrayRest (opening : Token) (first : Expr) : (arrayRest opening first).Quiet :=
  Quiet.eat.bind fun _ => .ite
    ((quiet_expr _).bind fun _ => Quiet.expect.bind fun _ => Quiet.spanFrom.bind fun _ => .pure)
    ((quiet_expr _).afterFirst.bind fun _ => Quiet.expect.bind fun _ =>
      Quiet.spanFrom.bind fun _ => .pure)

theorem quiet_array : array.Quiet :=
  Quiet.take.bind fun _ => .withStructLiterals <| Quiet.eat.bind fun _ => .ite
    (Quiet.spanFrom.bind fun _ => .pure) ((quiet_expr _).bind fun _ => quiet_arrayRest _ _)

theorem quiet_startsExpr : startsExpr.Quiet := Quiet.kind.bind fun _ => .pure

theorem quiet_jumpValue : jumpValue.Quiet :=
  .bind quiet_startsExpr fun _ => .ite (quiet_expr _).map .pure

theorem quiet_term : term.Quiet := Quiet.kind.bind fun k => by
  have hliteral : (Expr.literal <$> Phrase.take).Quiet := Quiet.take.map
  have hunary : unary.Quiet := Quiet.take.bind fun _ => (quiet_expr _).bind fun _ => .pure
  split
  · exact hliteral
  · exact hliteral
  · exact hliteral
  · exact hliteral
  · exact hliteral
  · exact quiet_pathExpr
  · exact quiet_pathExpr
  · exact quiet_pathExpr
  · exact hunary
  · exact hunary
  · exact Quiet.take.bind fun _ => (quiet_expr _).bind fun _ => .pure
  · exact (quiet_expr _).referenceLayers
  · exact (quiet_expr _).referenceLayers
  · exact quiet_grouped
  · exact quiet_array
  · exact Quiet.take.map
  · exact Quiet.take.bind fun _ => .bind quiet_jumpValue fun _ => Quiet.spanFrom.bind fun _ => .pure
  · exact Quiet.take.map
  · exact Quiet.take.bind fun _ => .bind quiet_jumpValue fun _ => Quiet.spanFrom.bind fun _ => .pure
  · exact .map quiet_block
  · exact quiet_constBlock
  · exact .map quiet_conditional
  · exact quiet_matching
  · exact quiet_loop
  · exact quiet_whileLoop
  · exact .fail

theorem quiet_arguments : arguments.Quiet :=
  .withStructLiterals <| (quiet_expr _).commaList.bind fun _ => Quiet.expect.bind fun _ => .pure

theorem quiet_memberSuffix : memberSuffix.Quiet :=
  Quiet.take.bind fun _ => Quiet.expectOneOf.bind fun _ => .ite
    (Quiet.eat.bind fun _ => .ite (.bind quiet_arguments fun _ => .pure) .pure) .pure

theorem quiet_suffix (operator : TokenKind) (tier : Tier) : (suffix operator tier).Quiet := by
  have hbinary (tier : Tier) : (binarySuffix tier).Quiet :=
    Quiet.take.bind fun _ => (quiet_expr _).bind fun _ => .pure
  unfold suffix
  split
  · exact Quiet.take.bind fun _ => (quiet_expr _).bind fun _ => .pure
  · exact Quiet.take.bind fun _ => .map quiet_ty
  · exact .ite (Quiet.take.bind fun _ => .bind quiet_arguments fun _ => .pure)
      (Quiet.take.bind fun _ => (quiet_expr _).withStructLiterals.bind fun _ =>
        Quiet.expect.bind fun _ => .pure)
  · exact quiet_memberSuffix
  · exact hbinary _

theorem quiet_operators (above : Tier) (left : Expr) : (operators above left).Quiet := by
  refine Quiet.bind (.repeated <| Quiet.kind.bind fun _ => ?_) fun _ => .pure
  split
  · exact .ite (quiet_suffix _ _).map .pure
  · exact .pure

theorem quiet_exprRule (above : Tier) : (exprRule above).Quiet :=
  .bind quiet_term fun _ => quiet_operators _ _

theorem quiet_blockLikeRule : blockLikeRule.Quiet :=
  .bind quiet_term fun _ => Quiet.kind.bind fun _ => .ite (quiet_operators _ _) .pure

theorem quiet_typedName : typedName.Quiet :=
  Quiet.expect.bind fun _ => Quiet.expect.bind fun _ => .bind quiet_ty fun _ =>
    Quiet.spanFrom.bind fun _ => .pure

theorem quiet_function (allowSignature : Bool) : (function allowSignature).Quiet :=
  Quiet.current.bind fun _ => Quiet.eat.bind fun _ => Quiet.expect.bind fun _ =>
    Quiet.expect.bind fun _ => .inScope

theorem quiet_constant (inTrait : Bool) : (constant inTrait).Quiet := by
  have hvalue : (constantValue inTrait).Quiet :=
    Quiet.eat.bind fun _ => .ite (quiet_expr _).map (.ite .pure .fail)
  exact Quiet.expect.bind fun _ => Quiet.expectOneOf.bind fun _ => Quiet.expect.bind fun _ =>
    .bind quiet_ty fun _ => hvalue.bind fun _ => Quiet.expect.bind fun _ =>
      Quiet.spanFrom.bind fun _ => .pure

theorem quiet_struct : struct.Quiet :=
  Quiet.expect.bind fun _ => Quiet.expect.bind fun _ => Quiet.kind.bind fun _ => by
    split
    · exact Quiet.take.bind fun _ => Quiet.spanFrom.bind fun _ => .pure
    · exact Quiet.take.bind fun _ => .bind (.commaList quiet_typedName) fun _ =>
        Quiet.expect.bind fun _ => Quiet.spanFrom.bind fun _ => .pure
    · exact .fail

theorem quiet_enum : enum.Quiet :=
  Quiet.expect.bind fun _ => Quiet.expect.bind fun _ => Quiet.expect.bind fun _ =>
    Quiet.expect.commaList.bind fun _ => Quiet.expect.bind fun _ => Quiet.spanFrom.bind fun _ => .pure

theorem quiet_trait : trait.Quiet :=
  Quiet.expect.bind fun _ => Quiet.expect.bind fun _ => Quiet.inScope.bind fun _ =>
    Quiet.spanFrom.bind fun _ => .pure

theorem quiet_impl : impl.Quiet := by
  have htrait : implTrait?.Quiet := Quiet.kind.bind fun _ => Quiet.nextKind.bind fun _ => by
    split
    · exact Quiet.take.bind fun _ => Quiet.take.bind fun _ => .pure
    · exact .pure
  exact Quiet.expect.bind fun _ => htrait.bind fun _ => .bind quiet_ty fun _ =>
    Quiet.inScope.bind fun _ => Quiet.spanFrom.bind fun _ => .pure

theorem quiet_item : item.Quiet := Quiet.kind.bind fun _ => Quiet.nextKind.bind fun _ => by
  split
  · exact (quiet_function _).map
  · exact (quiet_function _).map
  · exact (quiet_constant _).map
  · exact quiet_struct
  · exact quiet_enum
  · exact quiet_trait
  · exact quiet_impl
  · exact .fail

/-- Of all goals only an element of a block can declare names around it. -/
theorem quiet_rule {g : Goal} (hg : g ≠ .element) : (rule g).Quiet := by
  cases g with
  | expr above => exact quiet_exprRule above
  | blockLike => exact quiet_blockLikeRule
  | block => exact .inScope
  | element => contradiction
  | elseIf => exact quiet_conditional
  | arm => exact .inScope
  | ty => exact quiet_tyRule
  | pattern => exact quiet_patternRule

end Grammar

/-- No scope of the second state differs from that of the first. -/
def ParseState.SameScopes (s t : ParseState) : Prop := t.scopes = s.scopes

namespace Phrase.Quiet

variable {options : ParseOptions}

theorem run {below : (g : Goal) → Reader g.Tree}
    (hb : ∀ g, g ≠ .element → (below g).Keeps ParseState.SameScopes)
    (hk : ∀ g, (below g).Keeps ParseState.Kept) {p : Phrase α} (hp : p.Quiet) :
    (p.run options below).Keeps ParseState.SameScopes := by
  have refl (s : ParseState) : s.SameScopes s := rfl
  have trans (s t u : ParseState) (h : s.SameScopes t) (h' : t.SameScopes u) : s.SameScopes u :=
    Eq.trans h' h
  induction p with
  | done value => exact refl
  | fail expected => exact refl
  | act a next ih =>
    intro s
    have hact : s.SameScopes (a.run options s).2 := by
      cases a with
      | declare symbol place => exact hp.1.elim
      | bind symbol => exact hp.1.elim
      | take => simp only [Act.run]; split <;> rfl
      | _ => rfl
    exact trans _ _ _ hact (ih _ (hp.2 _) _)
  | nested g next ih => exact (hb g hp.1).bind trans fun t => ih t (hp.2 t)
  | enclosed body next _ ih =>
    refine Reader.Keeps.bind trans (fun s => ?_) fun b => ih b (hp b)
    have hbody : (body.run options below).Keeps ParseState.Kept :=
      (ParseState.Kept.invariant options).run hk body
    rw [Reader.inScope, Reader.after_between]
    exact (hbody _).scopes_pop
  | structLiterals allowed body next ihb ih =>
    refine Reader.Keeps.bind trans (fun s => ?_) fun b => ih b (hp.2 b)
    have hs : (Reader.withStructLiterals allowed (body.run options below)).after s = _ :=
      Reader.after_between _ _ _ s
    exact hs ▸ ihb hp.1 _
  | many round next ihr ih =>
    exact Reader.Keeps.bind trans (fun s => (ihr hp.1).collect refl trans _ s) fun bs =>
      ih bs (hp.2 bs)

theorem goal_read (fuel : Nat) {g : Goal} (hg : g ≠ .element) :
    (Goal.read options fuel g).Keeps ParseState.SameScopes := by
  induction fuel generalizing g with
  | zero => exact fun s => rfl
  | succ fuel ih =>
    intro s
    rw [Goal.read]
    by_cases hs : s.depth < options.maxDepth
    · rw [Reader.after_nested hs]
      exact run (fun g hg => ih hg) ((ParseState.Kept.invariant options).goal fuel)
        (Grammar.quiet_rule hg) _
    · rw [Reader.after_nested_of_not hs]
      rfl

/-- A phrase that declares nothing leaves all scopes as they are, whatever comes of it. -/
theorem read {p : Phrase α} (hp : p.Quiet) : (p.read options).Keeps ParseState.SameScopes :=
  hp.run (fun _ hg => goal_read _ hg) ((ParseState.Kept.invariant options).goal _)

end Phrase.Quiet

end FrontEnd
