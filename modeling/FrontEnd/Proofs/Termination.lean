import FrontEnd.Proofs.Pace
import FrontEnd.Proofs.Passage
/-!
# Reading ends

Every piece of a program takes a token, and so does every round of every loop that goes on. So reading
gets by on a budget that grows with the number of tokens ahead only, however many levels may be nested
and however the input is malformed.
-/
namespace FrontEnd

namespace Grammar

open Phrase

variable {options : ParseOptions} {k : Nat}

theorem takes_term : term.Takes options :=
  .of_sound (σ := .term) (fun fuel => yields_term (Goal.sound options fuel)) trivial

theorem takes_elementRule : elementRule.Takes options := by
  refine .of_yields fun fuel ℓ b x =>
    (yields_elementRule (Goal.sound options fuel)).mono fun e y he => ?_
  cases e with
  | statement s => exact Derives.length_lt he trivial
  | tail e => exact he.2.1.length_lt trivial

/-- No goal is reached without a token being taken. -/
theorem takes_rule (g : Goal) : (rule g).Takes options := by
  have G := Goal.sound options
  cases g with
  | expr above => exact takes_term.bind_left
  | blockLike => exact takes_term.bind_left
  | block =>
    exact .of_yields fun fuel _ _ _ =>
      (yields_blockRule (G fuel)).mono fun _ _ h => h.length_lt trivial
  | element => exact takes_elementRule
  | elseIf => exact .of_sound (σ := .conditional) (fun fuel => sound_conditional (G fuel)) trivial
  | arm =>
    exact .of_yields fun fuel _ _ _ =>
      (yields_armRule (G fuel)).mono fun _ _ h => h.length_lt trivial
  | ty =>
    exact .of_yields fun fuel _ _ _ =>
      (yields_tyRule (G fuel)).mono fun _ _ h => h.length_lt trivial
  | pattern =>
    exact .of_yields fun fuel _ _ _ =>
      (yields_patternRule (G fuel)).mono fun _ _ h => h.length_lt trivial

theorem takes_declaredItem : declaredItem.Takes options :=
  .of_sound (σ := .declaredItem) (fun fuel => sound_declaredItem (Goal.sound options fuel)) trivial

theorem takes_declaredMember (inTrait : Bool) : (declaredMember inTrait).Takes options := by
  have hmember : (member inTrait).Takes options := .of_yields fun fuel _ _ _ =>
    (yields_member (Goal.sound options fuel) inTrait).mono fun _ _ h => h.1.length_lt trivial
  exact .bind_right fun _ => hmember.bind_left

theorem takes_suffix (operator : TokenKind) (tier : Tier) :
    (suffix operator tier).Takes options := by
  unfold suffix
  split
  · exact Takes.take.bind_left
  · exact Takes.take.bind_left
  · split <;> exact Takes.take.bind_left
  · exact Takes.take.bind_left
  · exact Takes.take.bind_left

theorem takesOrLeaves_suffix? (above : Tier) :
    (suffix? above).TakesOrLeaves options := .bind fun _ => by
  split
  · exact .ite (.of_takes (takes_suffix _ _).map) .pure_none
  · exact .pure_none

theorem paced_path : path.Paced options k stride :=
  Paced.expectOneOf.bind fun _ => Paced.expectOneOf.eachAfter.bind fun _ =>
    Paced.spanFrom.bind fun _ => .pure

theorem paced_expr (above : Tier) : (expr above).Paced options (k + 4) stride :=
  .goal (Nat.le_add_left 4 k)

theorem paced_ty : ty.Paced options (k + 1) stride :=
  Paced.kind.bind fun _ => .ite (.goal (Nat.succ_pos k)) .fail

theorem paced_bracketType : bracketType.Paced options k stride :=
  Paced.take.bind fun _ => .bind paced_ty fun _ => Paced.eat.bind fun _ => .ite
    ((paced_expr _).withStructLiterals.bind fun _ => Paced.expect.bind fun _ =>
      Paced.spanFrom.bind fun _ => .pure)
    (Paced.expect.bind fun _ => Paced.spanFrom.bind fun _ => .pure)

theorem paced_parenType : parenType.Paced options k stride :=
  Paced.take.bind fun _ => Paced.eat.bind fun _ => .ite (Paced.spanFrom.bind fun _ => .pure) <|
    .bind paced_ty fun _ => Paced.eat.bind fun _ => .ite .pure <|
      .bind (.afterFirst paced_ty) fun _ => Paced.expect.bind fun _ =>
        Paced.spanFrom.bind fun _ => .pure

theorem paced_tyRule : tyRule.Paced options k stride := Paced.kind.bind fun _ => by
  split
  · exact .map paced_path
  · exact .map paced_path
  · exact .referenceLayers paced_ty
  · exact .referenceLayers paced_ty
  · exact paced_bracketType
  · exact paced_parenType
  · exact Paced.take.map
  · exact Paced.take.map
  · exact .fail

theorem paced_pattern : pattern.Paced options (k + 1) stride := .goal (Nat.succ_pos k)

theorem paced_pathPattern : pathPattern.Paced options k stride :=
  .bind paced_path fun _ => Paced.eat.bind fun _ => .ite
    (.bind (.commaList paced_pattern (by decide)) fun _ => Paced.expect.bind fun _ =>
      Paced.spanFrom.bind fun _ => .pure)
    .pure

theorem paced_identifierPattern : identifierPattern.Paced options k stride :=
  Paced.current.bind fun _ => Paced.eat.bind fun _ => Paced.eat.bind fun _ =>
    Paced.expect.bind fun _ => .bind (.after? paced_pattern) fun _ =>
      Paced.spanFrom.bind fun _ => .pure

theorem paced_namePattern (name : String) : (namePattern name).Paced options k stride :=
  Paced.nextKind.bind fun _ => by
    split
    · exact paced_pathPattern
    · exact paced_pathPattern
    · exact paced_identifierPattern
    · exact Paced.isConstant.bind fun _ => .ite paced_pathPattern paced_identifierPattern

theorem paced_patternRule : patternRule.Paced options k stride := Paced.current.bind fun t => by
  have hliteral : literalPattern.Paced options k stride := Paced.take.bind fun _ => .pure
  split
  · exact Paced.take.bind fun _ => Paced.expect.bind fun _ => .pure
  · exact hliteral
  · exact hliteral
  · exact hliteral
  · exact hliteral
  · exact hliteral
  · exact Paced.take.map
  · exact .referenceLayers paced_pattern
  · exact .referenceLayers paced_pattern
  · exact paced_identifierPattern
  · exact paced_identifierPattern
  · exact paced_pathPattern
  · exact paced_pathPattern
  · exact paced_namePattern _
  · exact .fail

theorem paced_block : block.Paced options (k + 3) stride := .goal (Nat.le_add_left 3 k)

theorem paced_blockRule : blockRule.Paced options 2 2 := by
  have helements : (untilKind .closeCurly (goal .element)).Paced options stride stride :=
    .untilKind (.goal takes_elementRule) (.goal (by decide : 4 < 5))
  have hbody : blockBody.Paced options 0 stride :=
    Paced.expect.bind fun _ => helements.bind fun _ => Paced.expect.bind fun _ =>
      Paced.spanFrom.bind fun _ => .pure
  exact hbody.withStructLiterals.inScope

theorem paced_constBlock : constBlock.Paced options k stride :=
  Paced.expect.bind fun _ => Paced.kind.bind fun _ => .ite
    (.bind paced_block fun _ => Paced.spanFrom.bind fun _ => .pure) .fail

theorem paced_statementExpr : statementExpr.Paced options (k + 4) stride := by
  have hstart : startsBlockLike.Paced options (k + 4) (k + 4) := Paced.kind.bind fun _ => by
    split
    · exact Paced.nextKind.bind fun _ => .pure
    all_goals exact .pure
  exact hstart.bind fun _ => .ite (.goal (Nat.le_add_left 4 k)) (paced_expr _)

theorem paced_bindPattern (p : Pattern) (ty : Option Ty) : (bindPattern p ty).Paced options k k :=
  .bindAll

theorem paced_link : link.Paced options (k + 4) stride := by
  refine Paced.current.bind fun _ => Paced.eat.bind fun _ => .ite ?_ ?_
  · exact .bind paced_pattern fun _ => Paced.expect.bind fun _ => (paced_expr _).bind
      fun _ => (paced_bindPattern _ _).bind fun _ => Paced.spanFrom.bind fun _ => .pure
  · exact (paced_expr _).bind fun _ => Paced.spanFrom.bind fun _ => .pure

theorem paced_condition : condition.Paced options 5 5 :=
  .withStructLiterals <| Paced.kind.bind fun _ => .ite
    (.bind paced_link fun _ => .bind (.eachAfter paced_link) fun _ => .pure) (paced_expr _).map

theorem paced_guardedBlock : guardedBlock.Paced options stride stride :=
  .inScope <| .bind paced_condition fun _ => .bind paced_block fun _ => .pure

theorem paced_otherwise : otherwise.Paced options stride stride :=
  Paced.eat.bind fun _ => .ite
    (Paced.kind.bind fun _ => .ite (Paced.map (.goal (by decide : 0 < 6))) (.map paced_block)) .pure

theorem paced_conditional : conditional.Paced options k stride :=
  Paced.expect.bind fun _ => .bind paced_guardedBlock fun _ => .bind paced_otherwise fun _ =>
    Paced.spanFrom.bind fun _ => .pure

theorem paced_whileLoop : whileLoop.Paced options k stride :=
  Paced.expect.bind fun _ => .bind paced_guardedBlock fun _ => Paced.spanFrom.bind fun _ => .pure

theorem paced_loop : loop.Paced options k stride :=
  Paced.expect.bind fun _ => .bind paced_block fun _ => Paced.spanFrom.bind fun _ => .pure

theorem paced_armRule : armRule.Paced options 2 2 :=
  .inScope <| .bind paced_pattern fun _ => (paced_bindPattern _ _).bind fun _ =>
    (paced_expr _).after?.bind fun _ => Paced.expect.bind fun _ =>
      .bind paced_statementExpr fun _ => .pure

theorem paced_matching : matching.Paced options k stride := by
  have harm : armAndComma.Paced options 4 stride :=
    (Paced.goal (by decide) : (goal .arm).Paced options 4 stride).bind fun _ => Paced.eat.bind fun _ =>
      .ite .pure <| Paced.kind.bind fun _ => .ite .pure .fail
  have harms : (untilKind .closeCurly armAndComma).Paced options 5 5 :=
    .untilKind (Takes.goal (takes_rule .arm)).bind_left harm
  exact Paced.expect.bind fun _ => (paced_expr _).withStructLiterals.bind fun _ =>
    Paced.expect.bind fun _ => harms.withStructLiterals.bind fun _ => Paced.expect.bind fun _ =>
      Paced.spanFrom.bind fun _ => .pure

theorem paced_fieldValue : fieldValue.Paced options k stride :=
  Paced.expect.bind fun _ => (paced_expr _).after?.bind fun value => by
    cases value <;> exact .pure

theorem paced_structLiteral (p : Path) : (structLiteral p).Paced options k stride := by
  have hfields : (do
      let fields ← commaList .closeCurly fieldValue
      let _ ← expect .closeCurly
      return fields : Phrase (List FieldValue)).Paced options 5 stride :=
    .bind (.commaList paced_fieldValue (by decide)) fun _ => Paced.expect.bind fun _ => .pure
  exact Paced.expect.bind fun _ => hfields.withStructLiterals.bind fun _ =>
    Paced.spanFrom.bind fun _ => .pure

theorem paced_pathExpr : pathExpr.Paced options k stride :=
  .bind paced_path fun _ => Paced.kind.bind fun _ => Paced.allowsStructLiterals.bind fun _ =>
    .ite (paced_structLiteral _) .pure

theorem paced_grouped : grouped.Paced options k stride :=
  Paced.take.bind fun _ => (paced_expr _).withStructLiterals.bind fun _ =>
    Paced.expect.bind fun _ => Paced.spanFrom.bind fun _ => .pure

theorem paced_arrayRest (opening : Token) (first : Expr) :
    (arrayRest opening first).Paced options stride stride :=
  Paced.eat.bind fun _ => .ite
    ((paced_expr _).bind fun _ => Paced.expect.bind fun _ => Paced.spanFrom.bind fun _ => .pure)
    ((paced_expr _).afterFirst.bind fun _ => Paced.expect.bind fun _ =>
      Paced.spanFrom.bind fun _ => .pure)

theorem paced_array : array.Paced options k stride := by
  have helements (opening : Token) :
      (expr .lowest >>= arrayRest opening).Paced options 5 stride :=
    (paced_expr _).bind fun _ => paced_arrayRest _ _
  exact Paced.take.bind fun _ => Paced.withStructLiterals (j := 5) <| Paced.eat.bind fun _ => .ite
    (Paced.spanFrom.bind fun _ => .pure) ((helements _).mono (Nat.le_refl 5) (by decide))

theorem paced_jumpValue : jumpValue.Paced options stride stride := by
  have hstart : startsExpr.Paced options stride stride := Paced.kind.bind fun _ => .pure
  exact hstart.bind fun _ => .ite (paced_expr _).map .pure

theorem paced_term : term.Paced options (k + 3) stride := Paced.kind.bind fun _ => by
  have hliteral : (Expr.literal <$> Phrase.take).Paced options (k + 3) stride := Paced.take.map
  have hunary : unary.Paced options (k + 3) stride :=
    Paced.take.bind fun _ => (paced_expr _).bind fun _ => .pure
  split
  · exact hliteral
  · exact hliteral
  · exact hliteral
  · exact hliteral
  · exact hliteral
  · exact paced_pathExpr
  · exact paced_pathExpr
  · exact paced_pathExpr
  · exact hunary
  · exact hunary
  · exact Paced.take.bind fun _ => (paced_expr _).bind fun _ => .pure
  · exact (paced_expr _).referenceLayers
  · exact (paced_expr _).referenceLayers
  · exact paced_grouped
  · exact paced_array
  · exact Paced.take.map
  · exact Paced.take.bind fun _ => .bind paced_jumpValue fun _ => Paced.spanFrom.bind fun _ => .pure
  · exact Paced.take.map
  · exact Paced.take.bind fun _ => .bind paced_jumpValue fun _ => Paced.spanFrom.bind fun _ => .pure
  · exact .map paced_block
  · exact paced_constBlock
  · exact .map paced_conditional
  · exact paced_matching
  · exact paced_loop
  · exact paced_whileLoop
  · exact .fail

theorem paced_arguments : arguments.Paced options stride stride :=
  Paced.withStructLiterals (j := stride) <| ((paced_expr _).commaList (by decide)).bind fun _ =>
    Paced.expect.bind fun _ => .pure

theorem paced_memberSuffix : memberSuffix.Paced options k stride :=
  Paced.take.bind fun _ => Paced.expectOneOf.bind fun _ => .ite
    (Paced.eat.bind fun _ => .ite (.bind paced_arguments fun _ => .pure) .pure) .pure

theorem paced_suffix (operator : TokenKind) (tier : Tier) :
    (suffix operator tier).Paced options k stride := by
  have hbinary (tier : Tier) : (binarySuffix tier).Paced options k stride :=
    Paced.take.bind fun _ => (paced_expr _).bind fun _ => .pure
  unfold suffix
  split
  · exact Paced.take.bind fun _ => (paced_expr _).bind fun _ => .pure
  · exact Paced.take.bind fun _ => .map paced_ty
  · exact .ite (Paced.take.bind fun _ => .bind paced_arguments fun _ => .pure)
      (Paced.take.bind fun _ => (paced_expr _).withStructLiterals.bind fun _ =>
        Paced.expect.bind fun _ => .pure)
  · exact paced_memberSuffix
  · exact hbinary _

theorem paced_operators (above : Tier) (left : Expr) :
    (operators above left).Paced options (k + 1) (k + 1) := by
  have hround : (suffix? above).Paced options k 0 := Paced.kind.bind fun _ => by
    split
    · exact .ite ((paced_suffix _ _).map.mono (Nat.le_refl k) (Nat.zero_le stride))
        (.pure_of_le (Nat.zero_le k))
    · exact .pure_of_le (Nat.zero_le k)
  exact (Paced.repeated (takesOrLeaves_suffix? above) hround).bind fun _ => .pure

theorem paced_exprRule (above : Tier) : (exprRule above).Paced options 3 stride :=
  .bind paced_term fun _ => paced_operators _ _

theorem paced_blockLikeRule : blockLikeRule.Paced options 3 stride :=
  .bind paced_term fun _ => Paced.kind.bind fun _ => .ite (paced_operators _ _) .pure

theorem paced_typedName : typedName.Paced options k stride :=
  Paced.expect.bind fun _ => Paced.expect.bind fun _ => .bind paced_ty fun _ =>
    Paced.spanFrom.bind fun _ => .pure

theorem paced_param : param.Paced options k stride :=
  Paced.expect.bind fun _ => Paced.expect.bind fun _ => .bind paced_ty fun _ =>
    Paced.declare.bind fun _ => Paced.spanFrom.bind fun _ => .pure

theorem paced_selfParam? : selfParam?.Paced options stride stride := by
  have hstart : startsSelfParam.Paced options stride stride :=
    Paced.kind.bind fun _ => Paced.nextKind.bind fun _ => Paced.kindAfterNext.bind fun _ => by
      split <;> exact .pure
  have hself : selfParam.Paced options stride stride :=
    Paced.current.bind fun start => Paced.eat.bind fun byRef => Paced.eat.bind fun mutable =>
      Paced.expect.bind fun _ => by
        have hrest (type : Option Ty) : (do
            declare (.var "self" type mutable) start.span.start
            return ⟨byRef, mutable, type, ← spanFrom start.span⟩ : Phrase SelfParam).Paced
              options stride stride :=
          Paced.declare.bind fun _ => Paced.spanFrom.bind fun _ => .pure
        exact .ite (Paced.pure.bind hrest) (.bind (.after? paced_ty) hrest)
  exact hstart.bind fun _ => .ite
    (hself.bind fun _ => Paced.kind.bind fun _ => .ite .pure (Paced.expect.bind fun _ => .pure)) .pure

theorem paced_functionBody (allowSignature : Bool) :
    (functionBody allowSignature).Paced options stride stride :=
  Paced.kind.bind fun _ => .ite (.ite (Paced.take.bind fun _ => .pure) .fail) (.map paced_block)

theorem paced_function (allowSignature : Bool) :
    (function allowSignature).Paced options k stride :=
  Paced.current.bind fun _ => Paced.eat.bind fun _ => Paced.expect.bind fun _ =>
    Paced.expect.bind fun _ => Paced.inScope (j := stride) <| Paced.expect.bind fun _ =>
      .bind paced_selfParam? fun _ => .bind (.commaList paced_param (by decide)) fun _ =>
        Paced.expect.bind fun _ => .bind (.after? paced_ty) fun _ =>
          (paced_functionBody _).bind fun _ => Paced.spanFrom.bind fun _ => .pure

theorem paced_constant (inTrait : Bool) : (constant inTrait).Paced options k stride := by
  have hvalue : (constantValue inTrait).Paced options stride stride :=
    Paced.eat.bind fun _ => .ite (paced_expr _).map (.ite .pure .fail)
  exact Paced.expect.bind fun _ => Paced.expectOneOf.bind fun _ => Paced.expect.bind fun _ =>
    .bind paced_ty fun _ => hvalue.bind fun _ => Paced.expect.bind fun _ =>
      Paced.spanFrom.bind fun _ => .pure

theorem paced_struct : struct.Paced options k stride :=
  Paced.expect.bind fun _ => Paced.expect.bind fun _ => Paced.kind.bind fun _ => by
    split
    · exact Paced.take.bind fun _ => Paced.spanFrom.bind fun _ => .pure
    · exact Paced.take.bind fun _ => .bind (.commaList paced_typedName (by decide)) fun _ =>
        Paced.expect.bind fun _ => Paced.spanFrom.bind fun _ => .pure
    · exact .fail

theorem paced_enum : enum.Paced options k stride :=
  Paced.expect.bind fun _ => Paced.expect.bind fun _ => Paced.expect.bind fun _ =>
    (Paced.expect.commaList (by decide)).bind fun _ => Paced.expect.bind fun _ =>
      Paced.spanFrom.bind fun _ => .pure

theorem paced_member (inTrait : Bool) : (member inTrait).Paced options k stride :=
  Paced.kind.bind fun _ => Paced.nextKind.bind fun _ => by
    split
    · exact (paced_function _).map
    · exact (paced_function _).map
    · exact (paced_constant _).map
    · exact .fail

theorem paced_members (inTrait : Bool) : (members inTrait).Paced options stride stride := by
  have hmember : (declaredMember inTrait).Paced options 5 stride :=
    Paced.position.bind fun _ => (paced_member _).bind fun _ => Paced.declare.bind fun _ => .pure
  exact Paced.inScope (j := stride) <| Paced.expect.bind fun _ =>
    (Paced.untilKind (takes_declaredMember inTrait) hmember).bind fun _ =>
      Paced.expect.bind fun _ => .pure

theorem paced_trait : trait.Paced options k stride :=
  Paced.expect.bind fun _ => Paced.expect.bind fun _ => (paced_members _).bind fun _ =>
    Paced.spanFrom.bind fun _ => .pure

theorem paced_impl : impl.Paced options k stride := by
  have htrait : implTrait?.Paced options stride stride :=
    Paced.kind.bind fun _ => Paced.nextKind.bind fun _ => by
      split
      · exact Paced.take.bind fun _ => Paced.take.bind fun _ => .pure
      · exact .pure
  exact Paced.expect.bind fun _ => htrait.bind fun _ => .bind paced_ty fun _ =>
    (paced_members _).bind fun _ => Paced.spanFrom.bind fun _ => .pure

theorem paced_item : item.Paced options k stride :=
  Paced.kind.bind fun _ => Paced.nextKind.bind fun _ => by
    split
    · exact (paced_function _).map
    · exact (paced_function _).map
    · exact (paced_constant _).map
    · exact paced_struct
    · exact paced_enum
    · exact paced_trait
    · exact paced_impl
    · exact .fail

theorem paced_declaredItem : declaredItem.Paced options k stride :=
  .bind paced_item fun _ => Paced.declare.bind fun _ => .pure

theorem paced_letBinding : letBinding.Paced options k stride :=
  Paced.expect.bind fun _ => .bind paced_pattern fun _ => .bind (.after? paced_ty) fun _ =>
    (paced_expr _).after?.bind fun _ => Paced.expect.bind fun _ =>
      (paced_bindPattern _ _).bind fun _ => Paced.spanFrom.bind fun _ => .pure

theorem paced_emptyStatement : emptyStatement.Paced options k stride :=
  Paced.expect.bind fun _ => .pure

theorem paced_statement : statement.Paced options k stride := Paced.kind.bind fun _ => by
  split
  · exact paced_letBinding
  · exact paced_emptyStatement
  all_goals first | exact .map paced_declaredItem | exact .fail

theorem paced_elementRule : elementRule.Paced options 4 stride := by
  have hstart : startsStatement.Paced options 4 4 := Paced.kind.bind fun _ => by
    split
    · exact Paced.nextKind.bind fun _ => .pure
    all_goals exact .pure
  have hexpr : exprElement.Paced options 4 stride :=
    .bind paced_statementExpr fun _ => Paced.eat.bind fun _ => .ite
      (Paced.spanFrom.bind fun _ => .pure) <| Paced.kind.bind fun _ =>
        .ite .pure (.ite .pure .fail)
  exact hstart.bind fun _ => .ite (.map paced_statement) hexpr

theorem paced_crate (file : String) : (crate file).Paced options 1 1 :=
  (Paced.untilKind takes_declaredItem paced_declaredItem).bind fun _ =>
    Paced.position.bind fun _ => .pure

/-- Before a goal takes a token, calls in it stand in each other no deeper than its pace. -/
theorem paced_rule (g : Goal) : (rule g).Paced options g.pace 0 := by
  cases g with
  | expr above => exact (paced_exprRule above).mono (Nat.le_refl 3) (Nat.zero_le _)
  | blockLike => exact .mono paced_blockLikeRule (Nat.le_refl 3) (Nat.zero_le _)
  | block => exact .mono paced_blockRule (Nat.le_refl 2) (Nat.zero_le _)
  | element => exact .mono paced_elementRule (Nat.le_refl 4) (Nat.zero_le _)
  | elseIf => exact (paced_conditional (k := 0)).mono (Nat.le_refl 0) (Nat.zero_le _)
  | arm => exact .mono paced_armRule (Nat.le_refl 2) (Nat.zero_le _)
  | ty => exact (paced_tyRule (k := 0)).mono (Nat.le_refl 0) (Nat.zero_le _)
  | pattern => exact (paced_patternRule (k := 0)).mono (Nat.le_refl 0) (Nat.zero_le _)

end Grammar

open Grammar Phrase

/-- A run passes tokens only, also on the way. -/
theorem Phrase.Visits.passes {α : Type} {options : ParseOptions} {fuel : Nat} {p : Phrase α}
    {s t : ParseState} (h : Phrase.Visits options fuel p s t) : s.Passes t :=
  h.related (ParseState.Passes.invariant options) (fun _ _ => ⟨rfl, rfl, List.suffix_rfl⟩)
    (fun _ => ⟨rfl, rfl, List.suffix_rfl⟩) fun _ _ => ⟨rfl, rfl, List.suffix_rfl⟩

namespace Operation

/-- Only operators and whole files can be read without a token being taken. -/
def Takes : Operation → Prop
  | operators _ _ | crate _ => False
  | _ => True

variable {options : ParseOptions}

theorem takes_phrase {op : Operation} (h : op.Takes) : op.phrase.Takes options := by
  have G := Goal.sound options
  cases op with
  | expr above => exact .goal (takes_rule (.expr above))
  | statementExpr => exact .of_sound (σ := .statementExpr) (fun n => sound_statementExpr (G n)) trivial
  | ty => exact .of_sound (σ := .ty) (fun n => sound_ty (G n)) trivial
  | pattern => exact .goal (takes_rule .pattern)
  | condition => exact .of_sound (σ := .condition) (fun n => sound_condition (G n)) trivial
  | block => exact .goal (takes_rule .block)
  | constBlock => exact .of_sound (σ := .term) (fun n => sound_constBlock (G n)) trivial
  | conditional => exact takes_rule .elseIf
  | whileLoop => exact .of_sound (σ := .term) (fun n => yields_whileLoop (G n)) trivial
  | loop => exact .of_sound (σ := .term) (fun n => yields_loop (G n)) trivial
  | matching => exact .of_sound (σ := .term) (fun n => yields_matching (G n)) trivial
  | statement => exact .of_sound (σ := .statement) (fun n => sound_statement (G n)) trivial
  | letBinding => exact .of_sound (σ := .statement) (fun n => yields_letBinding (G n)) trivial
  | emptyStatement => exact Takes.expect.bind_left
  | declaredItem => exact takes_declaredItem
  | item => exact .of_sound (σ := .item) (fun n => sound_item (G n)) trivial
  | function allowSignature =>
    exact .of_yields fun n _ _ _ =>
      (yields_function (G n) allowSignature).mono fun _ _ h => h.1.length_lt trivial
  | constant inTrait =>
    exact .of_yields fun n _ _ _ =>
      (yields_constant (G n) inTrait).mono fun _ _ h => h.1.length_lt trivial
  | path => exact .of_sound (σ := .path) (fun _ => sound_path) trivial
  | term => exact takes_term
  | operators above left => exact h.elim
  | crate file => exact h.elim

theorem paced_phrase (op : Operation) : op.phrase.Paced options stride 0 := by
  have full {α : Type} {p : Phrase α} {k j : Nat} (hp : p.Paced options k j) (hk : k ≤ stride) :
      p.Paced options stride 0 := hp.mono hk (Nat.zero_le j)
  cases op with
  | expr above => exact full (paced_expr above) (Nat.le_refl stride)
  | statementExpr => exact full paced_statementExpr (Nat.le_refl stride)
  | ty => exact full paced_ty (Nat.le_refl stride)
  | pattern => exact full paced_pattern (Nat.le_refl stride)
  | condition => exact full paced_condition (by decide)
  | block => exact full paced_block (Nat.le_refl stride)
  | constBlock => exact full paced_constBlock (Nat.le_refl stride)
  | conditional => exact full paced_conditional (Nat.le_refl stride)
  | whileLoop => exact full paced_whileLoop (Nat.le_refl stride)
  | loop => exact full paced_loop (Nat.le_refl stride)
  | matching => exact full paced_matching (Nat.le_refl stride)
  | statement => exact full paced_statement (Nat.le_refl stride)
  | letBinding => exact full paced_letBinding (Nat.le_refl stride)
  | emptyStatement => exact full paced_emptyStatement (Nat.le_refl stride)
  | declaredItem => exact full paced_declaredItem (Nat.le_refl stride)
  | item => exact full paced_item (Nat.le_refl stride)
  | function allowSignature => exact full (paced_function _) (Nat.le_refl stride)
  | constant inTrait => exact full (paced_constant _) (Nat.le_refl stride)
  | path => exact full paced_path (Nat.le_refl stride)
  | term => exact full paced_term (Nat.le_refl stride)
  | operators above left => exact full (paced_operators (k := 5) _ _) (Nat.le_refl stride)
  | crate file => exact full (paced_crate _) (by decide)

end Operation

/-- Whatever the tokens, the session and the piece of a program that is read: the cursor never goes
back nor past the last token; a piece that is read, other than the operators after an operand and a
whole file, takes a token; and so does every round of every loop that goes on, in the piece and in all
goals. So a budget of calls in each other that is linear in the number of tokens ahead, and does not
depend on how many levels may be nested, is enough to read the piece. -/
theorem Session.read_terminates :
    (∀ (s : Session) (op : Operation) (u : ParseState),
      Phrase.Visits s.options s.options.maxDepth op.phrase s.state u →
        u.cursor.tokens = s.state.cursor.tokens ∧ u.cursor.beyond = s.state.cursor.beyond ∧
        s.state.cursor.index ≤ u.cursor.index ∧
        (s.state.cursor.beyond = 0 → u.cursor.index ≤ u.cursor.tokens.length)) ∧
    (∀ (s : Session) (op : Operation) (a : op.Tree), op.Takes → (s.read op.phrase).1 = .ok a →
      s.state.cursor.index < (s.read op.phrase).2.state.cursor.index) ∧
    (∀ (s : Session) (g : Goal) (a : g.Tree), (s.read (goal g)).1 = .ok a →
      s.state.cursor.index < (s.read (goal g)).2.state.cursor.index) ∧
    (∀ options op, (Operation.phrase op).LoopsAdvance options) ∧
    (∀ options g, (Grammar.rule g).LoopsAdvance options) ∧
    (∀ (s : Session) (op : Operation) (budget : Nat),
      (stride + 1) * (s.state.cursor.ahead.length + 1) ≤ budget →
        op.phrase.metered s.options budget s.state = some (op.phrase.read s.options s.state)) := by
  have took {α : Type} (s : Session) {p : Phrase α} (hp : p.Takes s.options) (a : α)
      (h : (s.read p).1 = .ok a) :
      s.state.cursor.index < (s.read p).2.state.cursor.index := by
    have hr := Session.ok_of_read h
    exact ((p.run_passes s.options _).of_ok hr).index_lt (hp _ _ _ _ hr)
  refine ⟨fun s op u hu => ?_, fun s op a hop => took s (Operation.takes_phrase hop) a,
    fun s g => took s (.goal (takes_rule g)), fun options op => op.paced_phrase.loopsAdvance,
    fun options g => (paced_rule g).loopsAdvance, fun s op budget hb => ?_⟩
  · have h := hu.passes
    exact ⟨h.tokens_eq, h.beyond_eq, h.index_le, fun hs => h.tokens_eq ▸ h.index_le_length hs⟩
  · refine Paced.metered_eq paced_rule takes_rule op.paced_phrase ?_ (Nat.le_add_left _ _)
    simp only [stride] at hb ⊢
    omega

/-- Reading `_.` as a term takes a token of two, with a budget of 21 calls. -/
theorem Session.read_terminates_underscore :
    let s := Session.start ([TokenKind.underscore, .dot].map Token.fixed) "t" ⟨9, true⟩
    let p := Operation.term.phrase
    (∀ u, Phrase.Visits s.options s.options.maxDepth p s.state u →
      u.cursor.index ≤ u.cursor.tokens.length) ∧
    s.state.cursor.index < (s.read p).2.state.cursor.index ∧
    p.metered s.options 21 s.state = some (p.read s.options s.state) := by
  intro s p
  obtain ⟨hforward, htakes, -, -, -, hbudget⟩ := Session.read_terminates
  refine ⟨fun u hu => (hforward s .term u hu).2.2.2 rfl, ?_, hbudget s .term 21 (by decide)⟩
  have hok : ((s.read p).1 matches .ok _) = true := by decide +kernel
  cases h : (s.read p).1 with
  | ok e => exact htakes s .term e trivial h
  | error e => simp [h] at hok

end FrontEnd
