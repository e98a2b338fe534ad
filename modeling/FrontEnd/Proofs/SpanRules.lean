import FrontEnd.Proofs.Laying
/-!
# What each phrase lays

Each phrase lays the pieces of the tree that it yields, and joins them to a node.
-/
namespace FrontEnd

open Grammar Phrase
open Piece (mark maybe token flag after eachAfter more list)

attribute [local simp] Node.pieces Path.pieces Pattern.pieces Ty.pieces FieldValue.pieces
  Condition.pieces Otherwise.pieces Piece.arguments Expr.pieces Link.pieces Stmt.pieces
  FunctionDecl.pieces Item.pieces Piece.eachAfter Piece.after Piece.list List.flatMap_map

variable {options : ParseOptions} {fuel : Nat} {pos : Position} {i : List Token}

def Element.pieces : Element → List Piece
  | .statement s => [.statement s]
  | .tail e => [.expr e]

def Suffix.row : Suffix → List Piece
  | binary operator e | compoundAssign operator e => [token operator, .expr e]
  | assign e => [mark .assignment, .expr e]
  | cast t => [mark .kwAs, .ty t]
  | call es closing => mark .openParen :: list (es.map fun e => [.expr e]) ++ [token closing]
  | index e closing => [mark .openBracket, .expr e, token closing]
  | field name => [mark .dot, token name]
  | methodCall name es closing =>
    mark .dot :: token name :: mark .openParen :: list (es.map fun e => [.expr e]) ++ [token closing]

attribute [local simp] Suffix.row

/-- The token that closes a suffix is the bracket that it has to be. -/
def Suffix.Closed : Suffix → Prop
  | call _ closing | methodCall _ _ closing => closing.kind = .closeParen
  | index _ closing => closing.kind = .closeBracket
  | _ => True

/-- A suffix joins its pieces and the expression before them to a node. -/
theorem Suffix.laid_attach {s : Suffix} {e : Expr} {w : List Token} {early : Option Position}
    (h : Laid (.expr e :: s.row) w early) (hs : s.Closed)
    (hstart : ∀ t ∈ w.head?, t.span.start = e.span.start) :
    ∃ early', Laid [.expr (s.attach e)] w early' := by
  -- the last piece is one that the node has, or the token for its last mark
  have kept (ps : List Piece) {p : Piece} {sp : Span} {e' : Expr} (h : Laid (ps ++ [p]) w early)
      (hp : p.span? = some sp) (hspan : e'.span = e.span.to sp)
      (hpieces : (Node.expr e').pieces = ps ++ [p]) : ∃ early', Laid [.expr e'] w early' := by
    refine Laid.toNode (hpieces ▸ h) (h.bounds hp ?_ ?_)
    all_goals rw [hspan]
    · exact hstart
    · rfl
  have closed (ps : List Piece) {c : Token} {e' : Expr} (h : Laid (ps ++ [token c]) w early)
      (hspan : e'.span = e.span.to c.span) (hpieces : (Node.expr e').pieces = ps ++ [mark c.kind]) :
      ∃ early', Laid [.expr e'] w early' := by
    refine Laid.toNode (hpieces ▸ h.mark_of_token) (h.bounds rfl ?_ ?_)
    all_goals rw [hspan]
    · exact hstart
    · rfl
  cases s with
  | binary operator right => exact kept [_, _] h rfl rfl rfl
  | assign value => exact kept [_, _] h rfl rfl rfl
  | compoundAssign operator value => exact kept [_, _] h rfl rfl rfl
  | cast target => exact kept [_, _] h rfl rfl rfl
  | field name => exact kept [_, _] h rfl rfl rfl
  | index i c => exact closed [_, _, _] h rfl (by simp [attach, hs.symm])
  | call es c => exact closed (_ :: _ :: _) h rfl (by simp [attach, hs.symm])
  | methodCall name es c => exact closed (_ :: _ :: _ :: _ :: _) h rfl (by simp [attach, hs.symm])

/-- What the goals lay. After an expression that is the value of a block stands the closing brace.
-/
structure Goal.Spells (options : ParseOptions) (fuel : Nat) : Prop where
  expr (above : Tier) : (goal (.expr above)).Spells options fuel fun e => [.expr e]
  blockLike : (goal .blockLike).Spells options fuel fun e => [.expr e]
  block : (goal .block).Spells options fuel fun b => [.block b]
  element (pos : Position) (i : List Token) :
    (goal .element).Lays options fuel pos [] i fun x ps j =>
      ps = x.pieces ∧ ∀ e, x = .tail e → kindAt j 0 = .closeCurly
  elseIf : (goal .elseIf).Spells options fuel fun c => [.conditional c]
  arm : (goal .arm).Spells options fuel fun a => [.arm a]
  ty : (goal .ty).Spells options fuel fun t => [.ty t]
  pattern : (goal .pattern).Spells options fuel fun p => [.pattern p]

namespace Grammar

theorem spells_path : path.Spells options fuel fun p => [.path p] := by
  intro pos i
  refine .expectOneOf fun t j hpos => ?_
  refine .spelled Spells.expectOneOf.eachAfter fun ts j => ?_
  exact .spanned (fun sp => rfl) (hpos rfl) (by simp)

variable (G : Goal.Spells options fuel)
include G

theorem spells_ty : ty.Spells options fuel fun t => [.ty t] := fun pos i =>
  .kind (.ite (fun _ => G.ty pos i) fun _ => .fail)

theorem lays_bracketType (hi : kindAt i 0 = .openBracket) :
    Lays options fuel bracketType pos [] i fun t ps _ => ps = [.ty t] := by
  refine .takeMark hi fun t _ _ hpos => .spelled (spells_ty G) fun a _ =>
    .ifEat (fun _ => ?_) fun _ => ?_
  · refine .spelled (G.expr .lowest).withStructLiterals fun e _ => ?_
    exact .expectMark fun c _ _ _ => .spanned (fun sp => rfl) (hpos rfl) (by simp)
  · exact .expectMark fun c _ _ _ => .spanned (fun sp => rfl) (hpos rfl) (by simp)

theorem lays_parenType (hi : kindAt i 0 = .openParen) :
    Lays options fuel parenType pos [] i fun t ps _ => ps = [.ty t] := by
  refine .takeMark hi fun t _ _ hpos => .ifEat (fun _ => ?_) fun _ => ?_
  · exact .spanned (fun sp => rfl) (hpos rfl) (by simp)
  · refine .spelled (spells_ty G) fun a _ => .ifEat (fun _ => ?_) fun _ => ?_
    · exact .become (.pure rfl) fun w e hlaid _ => ⟨_, Laid.nil.parens hlaid⟩
    · refine .spelled (spells_ty G).afterFirst fun as _ => ?_
      exact .expectMark fun c _ _ _ => .spanned (fun sp => rfl) (hpos rfl) (by simp)

theorem lays_tyRule : Lays options fuel tyRule pos [] i fun t ps _ => ps = [.ty t] := by
  have path : (Ty.path <$> Grammar.path).Spells options fuel fun t => [.ty t] :=
    spells_path.wrap (n := fun p => .ty (.path p)) (by simp)
      (fun _ => rfl) fun _ => rfl
  have reference (hi : kindAt i 0 = .ampersand ∨ kindAt i 0 = .andAnd) :
      Lays options fuel (referenceLayers Ty.reference Ty.span ty) pos [] i
        fun t ps _ => ps = [.ty t] :=
    (spells_ty G).referenceLayers (fun _ _ _ => rfl) (fun _ => rfl) (fun _ _ _ => rfl) hi
  refine .kind ?_
  split
  · exact path pos i
  · exact path pos i
  · exact reference (.inl ‹_›)
  · exact reference (.inr ‹_›)
  · exact lays_bracketType G ‹_›
  · exact lays_parenType G ‹_›
  · exact Spells.alone (n := fun t => .ty (.never t)) (fun _ => rfl) (fun _ => rfl) pos i
  · exact Spells.alone (n := fun t => .ty (.inferred t)) (fun _ => rfl) (fun _ => rfl) pos i
  · exact .fail

theorem spells_pathPattern : pathPattern.Spells options fuel fun p => [.pattern p] := by
  intro pos i
  refine .spelled spells_path fun p _ => .opening rfl (by simp) fun hpos =>
    .ifEat (fun _ => ?_) fun _ => ?_
  · refine .spelled G.pattern.commaList fun ps _ => ?_
    exact .expectMark fun c _ _ _ => .spanned (fun sp => rfl) hpos (by simp)
  · exact .joined rfl rfl hpos rfl rfl rfl

theorem spells_identifierPattern :
    identifierPattern.Spells options fuel fun p => [.pattern p] := by
  intro pos i
  refine .current fun start _ hpos => .flag fun byRef _ => .flag fun mutable _ => ?_
  refine .expectToken fun t _ _ _ => .spelled G.pattern.after? fun sub _ => ?_
  exact .spanned (fun sp => rfl) (hpos rfl) (by simp)

theorem spells_namePattern (name : String) :
    (namePattern name).Spells options fuel fun p => [.pattern p] := by
  intro pos i
  refine .nextKind ?_
  split
  · exact spells_pathPattern G pos i
  · exact spells_pathPattern G pos i
  · exact spells_identifierPattern G pos i
  · exact .isConstant fun b => .ite (fun _ => spells_pathPattern G pos i) fun _ =>
      spells_identifierPattern G pos i

theorem lays_patternRule :
    Lays options fuel patternRule pos [] i fun p ps _ => ps = [.pattern p] := by
  have reference (hi : kindAt i 0 = .ampersand ∨ kindAt i 0 = .andAnd) :
      Lays options fuel (referenceLayers Pattern.reference Pattern.span pattern) pos [] i
        fun p ps _ => ps = [.pattern p] :=
    Spells.referenceLayers G.pattern (fun _ _ _ => rfl) (fun _ => rfl) (fun _ _ _ => rfl) hi
  have literal : Lays options fuel literalPattern pos [] i fun p ps _ => ps = [.pattern p] :=
    .takeToken fun t _ _ hpos => .joined rfl rfl (hpos rfl) rfl rfl rfl
  refine .current fun t ht hpos => ?_
  have hkind : kindAt i 0 = t.kind := by
    obtain ⟨j, rfl⟩ := List.head?_eq_some_iff.mp ht
    rfl
  rw [← hkind]
  split <;> rename_i h
  · refine .takeMark h fun minus _ _ hpos => .expectToken fun l _ _ _ => ?_
    exact .joined rfl rfl (hpos rfl) rfl rfl rfl
  · exact literal
  · exact literal
  · exact literal
  · exact literal
  · exact literal
  · exact Spells.alone (n := fun t => .pattern (.wildcard t)) (fun _ => rfl) (fun _ => rfl) pos i
  · exact reference (.inl h)
  · exact reference (.inr h)
  · exact spells_identifierPattern G pos i
  · exact spells_identifierPattern G pos i
  · exact spells_pathPattern G pos i
  · exact spells_pathPattern G pos i
  · exact spells_namePattern G _ pos i
  · exact .fail

theorem lays_elements {ps : List Piece} :
    Lays options fuel (untilKind .closeCurly (goal .element)) pos ps i fun es qs _ =>
      qs = ps ++ (Element.statements es).map .statement ++ (Element.tail? es).toList.map .expr := by
  -- after a tail stands the closing brace, so that no element follows it
  refine Lays.mono (Lays.repeated (I := fun ps i es qs _ =>
    (kindAt i 0 = .closeCurly → es = [] ∧ qs = ps) ∧
    qs = ps ++ (Element.statements es).map .statement ++ (Element.tail? es).toList.map .expr)
    (by simp [Element.statements, Element.tail?]) fun ps i => ?_) fun es qs j h => h.2
  refine .kind (.ite (fun _ => .pure ?_) fun hi => ?_)
  · simp [Element.statements, Element.tail?]
  · refine .map (.bind (.behind fun pos => G.element pos i) ?_)
    rintro e - j ⟨-, rfl, rfl, htail⟩
    refine .pure fun es rs k hrest => ⟨fun h => absurd h hi, ?_⟩
    obtain ⟨hnil, rfl⟩ := hrest
    cases e with
    | statement s => simp [Element.pieces, Element.tail?_cons_statement, Element.statements]
    | tail e =>
      obtain ⟨rfl, -⟩ := hnil (htail e rfl)
      simp [Element.pieces, Element.tail?, Element.statements]

theorem lays_blockRule : Lays options fuel blockRule pos [] i fun b ps _ => ps = [.block b] := by
  refine .inScope (.withStructLiterals (.expectMark fun o j _ hpos => ?_))
  refine .bind (lays_elements G) fun es ps j hes => ?_
  subst hes
  exact .expectMark fun c _ _ _ => .spanned (fun sp => rfl) (hpos rfl) (by simp)

theorem spells_constBlock : constBlock.Spells options fuel fun e => [.expr e] := by
  intro pos i
  refine .expectMark fun keyword _ _ hpos => .kind (.ite (fun _ => ?_) fun _ => .fail)
  exact .spelled G.block fun b _ => .spanned (fun sp => rfl) (hpos rfl) (by simp)

omit G in
theorem lays_startsBlockLike {ps : List Piece} :
    Lays options fuel startsBlockLike pos ps i fun _ qs _ => qs = ps := by
  refine .kind ?_
  split
  · exact .nextKind (.pure rfl)
  all_goals exact .pure rfl

theorem spells_statementExpr : statementExpr.Spells options fuel fun e => [.expr e] := by
  intro pos i
  refine .bind lays_startsBlockLike fun r qs j hqs => ?_
  subst hqs
  exact .ite (fun _ => G.blockLike pos j) fun _ => G.expr .lowest pos j

theorem spells_link : link.Spells options fuel fun l => [.link l] := by
  intro pos i
  refine .current fun start _ hpos => .ifEat (fun _ => ?_) fun _ => ?_
  · refine .spelled G.pattern fun p _ => .expectMark fun s _ _ _ => ?_
    refine .spelled (G.expr .logicalAnd) fun v _ => .bindAll ?_
    exact .spanned (fun sp => rfl) (hpos rfl) (by simp)
  · refine .spelled (G.expr .logicalAnd) fun v _ => ?_
    exact .spanned (fun sp => rfl) (hpos rfl) fun sp => ⟨rfl, rfl⟩

theorem spells_condition : condition.Spells options fuel Condition.pieces := by
  refine Spells.withStructLiterals fun pos i => .kind (.ite (fun _ => ?_) fun _ => ?_)
  · refine .spelled (spells_link G) fun l _ => .spelled (spells_link G).eachAfter fun ls _ => ?_
    exact .pure (by simp)
  · exact .map (.spelled (G.expr .lowest) fun e _ => .pure rfl)

theorem spells_guardedBlock :
    guardedBlock.Spells options fuel fun (c, b) => c.pieces ++ [.block b] := fun _ _ =>
  .inScope (.spelled (spells_condition G) fun _ _ => .spelled G.block fun _ _ => .pure rfl)

theorem spells_otherwise : otherwise.Spells options fuel Otherwise.pieces := by
  intro pos i
  refine .ifEat (fun _ => .kind (.ite (fun _ => ?_) fun _ => ?_)) fun _ => .pure rfl
  · exact .map (.spelled G.elseIf fun c _ => .pure rfl)
  · exact .map (.spelled G.block fun b _ => .pure rfl)

theorem spells_conditional : conditional.Spells options fuel fun c => [.conditional c] := by
  intro pos i
  refine .expectMark fun keyword _ _ hpos => .spelled (spells_guardedBlock G) fun (c, b) _ => ?_
  refine .spelled (spells_otherwise G) fun o _ => ?_
  exact .spanned (fun sp => rfl) (hpos rfl) (by simp)

theorem spells_whileLoop : whileLoop.Spells options fuel fun e => [.expr e] := by
  intro pos i
  refine .expectMark fun keyword _ _ hpos => .spelled (spells_guardedBlock G) fun (c, b) _ => ?_
  exact .spanned (fun sp => rfl) (hpos rfl) (by simp)

theorem spells_loop : loop.Spells options fuel fun e => [.expr e] := by
  intro pos i
  refine .expectMark fun keyword _ _ hpos => .spelled G.block fun b _ => ?_
  exact .spanned (fun sp => rfl) (hpos rfl) (by simp)

theorem lays_armRule : Lays options fuel armRule pos [] i fun a ps _ => ps = [.arm a] := by
  refine .inScope (.spelled G.pattern fun p _ => .opening rfl (by simp) fun hpos => .bindAll ?_)
  refine .spelled (G.expr .lowest).after? fun g _ => .expectMark fun f _ _ _ => ?_
  refine .spelled (spells_statementExpr G) fun e _ => ?_
  exact .joined rfl (by simp) hpos rfl rfl rfl

theorem spells_armAndComma : armAndComma.Spells options fuel fun a => [.arm a, maybe .comma] := by
  intro pos i
  refine .spelled G.arm fun a _ => .ifEat (fun _ => ?_) fun _ =>
    .kind (.ite (fun _ => ?_) fun _ => .fail)
  · exact .become (.pure rfl) fun w e hlaid _ => ⟨_, hlaid.maybe_of_mark⟩
  · exact .become (.pure rfl) fun w e hlaid _ => ⟨_, hlaid.skip .comma⟩

theorem spells_matching : matching.Spells options fuel fun e => [.expr e] := by
  intro pos i
  refine .expectMark fun keyword _ _ hpos => ?_
  refine .spelled (G.expr .lowest).withStructLiterals fun e _ => .expectMark fun o _ _ _ => ?_
  refine .spelled (spells_armAndComma G).untilKind.withStructLiterals fun as _ => ?_
  refine .expectMark fun c _ _ _ => ?_
  exact .spanned (fun sp => rfl) (hpos rfl) (by simp)

theorem spells_fieldValue : fieldValue.Spells options fuel FieldValue.pieces := by
  intro pos i
  refine .expectToken fun t _ _ hpos => .spelled (G.expr .lowest).after? fun v _ => ?_
  cases v with
  | some v => exact .pure rfl
  | none =>
    -- the name is a path, and the path is the value
    refine .gather (n := .path (.ofToken t)) ?_ rfl (hpos rfl) (List.append_nil _) rfl rfl
    exact .joined rfl rfl (hpos rfl) (List.nil_append [_]).symm rfl rfl

theorem lays_structLiteral (p : Path) :
    Lays options fuel (structLiteral p) pos [.path p] i fun e qs _ => qs = [.expr e] := by
  have fields : Spells options fuel (do
      let fields ← commaList .closeCurly fieldValue
      let _ ← expect .closeCurly
      return fields) fun fs => list (fs.map FieldValue.pieces) ++ [mark .closeCurly] :=
    fun _ _ => .spelled (spells_fieldValue G).commaList fun _ _ =>
      .expectMark fun _ _ _ _ => .pure rfl
  refine .opening rfl (by simp) fun hpos => .expectMark fun o _ _ _ => ?_
  exact .spelled fields.withStructLiterals fun fs _ => .spanned (fun sp => rfl) hpos (by simp)

theorem spells_pathExpr : pathExpr.Spells options fuel fun e => [.expr e] := by
  intro pos i
  refine .spelled spells_path fun p _ => .kind (.allowsStructLiterals fun allowed => ?_)
  refine .ite (fun _ => ?_) fun _ => ?_
  · exact lays_structLiteral G p
  · exact .opening rfl (by simp) fun hpos => .joined rfl rfl hpos rfl rfl rfl

theorem spells_unary : unary.Spells options fuel fun e => [.expr e] := by
  intro pos i
  refine .takeToken fun t _ _ hpos => .spelled (G.expr .unary) fun e _ => ?_
  exact .joined rfl rfl (hpos rfl) rfl rfl rfl

theorem lays_deref (hi : kindAt i 0 = .star) :
    Lays options fuel deref pos [] i fun e qs _ => qs = [.expr e] := by
  refine .takeMark hi fun t _ _ hpos => .spelled (G.expr .unary) fun e _ => ?_
  exact .joined rfl rfl (hpos rfl) rfl rfl rfl

theorem lays_grouped (hi : kindAt i 0 = .openParen) :
    Lays options fuel grouped pos [] i fun e qs _ => qs = [.expr e] := by
  refine .takeMark hi fun t _ _ hpos => .spelled (G.expr .lowest).withStructLiterals fun e _ => ?_
  exact .expectMark fun c _ _ _ => .spanned (fun sp => rfl) (hpos rfl) (by simp)

theorem lays_array (hi : kindAt i 0 = .openBracket) :
    Lays options fuel array pos [] i fun e qs _ => qs = [.expr e] := by
  refine .takeMark hi fun t _ _ hpos => .withStructLiterals (.ifEat (fun _ => ?_) fun _ => ?_)
  · exact .spanned (fun sp => rfl) (hpos rfl) (by simp)
  · refine .spelled (G.expr .lowest) fun e _ => .ifEat (fun _ => ?_) fun _ => ?_
    · refine .spelled (G.expr .lowest) fun n _ => ?_
      exact .expectMark fun c _ _ _ => .spanned (fun sp => rfl) (hpos rfl) (by simp)
    · refine .spelled (G.expr .lowest).afterFirst fun es _ => ?_
      exact .expectMark fun c _ _ _ => .spanned (fun sp => rfl) (hpos rfl) (by simp)

theorem spells_jumpValue : jumpValue.Spells options fuel fun v => v.toList.map .expr := by
  intro pos i
  refine .bind (Q := fun _ qs j => qs = [] ∧ j = i) (.kind (.pure ⟨rfl, rfl⟩)) ?_
  rintro r - - ⟨rfl, rfl⟩
  exact .ite (fun _ => .map (.spelled (G.expr .lowest) fun e _ => .pure rfl)) fun _ => .pure rfl

theorem lays_jump {f : Option Expr → Span → Expr} {k : TokenKind} (hi : kindAt i 0 = k)
    (hspan : ∀ v sp, (f v sp).span = sp)
    (hf : ∀ v sp, (f v sp).pieces = mark k :: v.toList.map .expr) :
    Lays options fuel (do
      let keyword ← take
      let value ← jumpValue
      return f value (← spanFrom keyword.span)) pos [] i fun e qs _ => qs = [.expr e] := by
  refine .takeMark hi fun t _ _ hpos => .spelled (spells_jumpValue G) fun v _ => ?_
  refine .spanned (n := fun sp => .expr (f v sp)) (fun sp => ?_) (hpos rfl) fun sp =>
    ⟨hf v sp, by simp⟩
  rw [Piece.expr, hspan]

theorem spells_term : term.Spells options fuel fun e => [.expr e] := by
  intro pos i
  have literal : (Expr.literal <$> take).Spells options fuel fun e => [.expr e] :=
    .alone (n := fun t => .expr (.literal t)) (fun _ => rfl) fun _ => rfl
  have reference (hi : kindAt i 0 = .ampersand ∨ kindAt i 0 = .andAnd) :
      Lays options fuel (referenceLayers Expr.borrow Expr.span (expr .unary)) pos [] i
        fun e ps _ => ps = [.expr e] :=
    Spells.referenceLayers (G.expr .unary) (fun _ _ _ => rfl) (fun _ => rfl) (fun _ _ _ => rfl) hi
  refine .kind ?_
  split <;> rename_i h
  · exact literal pos i
  · exact literal pos i
  · exact literal pos i
  · exact literal pos i
  · exact literal pos i
  · exact spells_pathExpr G pos i
  · exact spells_pathExpr G pos i
  · exact spells_pathExpr G pos i
  · exact spells_unary G pos i
  · exact spells_unary G pos i
  · exact lays_deref G h
  · exact reference (.inl h)
  · exact reference (.inr h)
  · exact lays_grouped G h
  · exact lays_array G h
  · exact Spells.alone (n := fun t => .expr (.underscore t)) (fun _ => rfl) (fun _ => rfl) pos i
  · exact lays_jump G h (fun _ _ => rfl) fun _ _ => rfl
  · exact Spells.alone (n := fun t => .expr (.continueLoop t)) (fun _ => rfl) (fun _ => rfl) pos i
  · exact lays_jump G h (fun _ _ => rfl) fun _ _ => rfl
  · exact Spells.wrap (n := fun b => .expr (.block b)) G.block (by simp)
      (fun _ => rfl) (fun _ => rfl) pos i
  · exact spells_constBlock G pos i
  · exact Spells.wrap (n := fun b => .expr (.conditional b)) (spells_conditional G) (by simp)
      (fun _ => rfl) (fun _ => rfl) pos i
  · exact spells_matching G pos i
  · exact spells_loop G pos i
  · exact spells_whileLoop G pos i
  · exact .fail

theorem lays_arguments {ps : List Piece} : Lays options fuel arguments pos ps i fun r qs _ =>
    qs = ps ++ list (r.1.map fun e => [.expr e]) ++ [token r.2] ∧ r.2.kind = .closeParen :=
  .withStructLiterals (.spelled (G.expr .lowest).commaList fun _ _ =>
    .expectToken fun _ _ hc _ => .pure ⟨rfl, hc⟩)

/-- A suffix makes the row longer by its pieces. -/
def LaysSuffix (options : ParseOptions) (fuel : Nat) (p : Phrase Suffix) (i : List Token) : Prop :=
  ∀ pos ps, p.Lays options fuel pos ps i fun s qs _ => qs = ps ++ s.row ∧ s.Closed

theorem lays_assignSuffix : LaysSuffix options fuel assignSuffix i := by
  intro pos ps
  by_cases hi : kindAt i 0 = .assignment
  · refine .takeMark hi fun t _ ht _ => .spelled (G.expr .lowest) fun e _ => ?_
    rw [if_pos ht]
    exact .pure ⟨by simp, trivial⟩
  · refine .takeToken fun t _ ht _ => .spelled (G.expr .lowest) fun e _ => ?_
    rw [if_neg (by simpa [ht] using hi)]
    exact .pure ⟨by simp, trivial⟩

theorem lays_callSuffix (hi : kindAt i 0 = .openParen) : LaysSuffix options fuel callSuffix i := by
  refine fun pos ps => .takeMark hi fun t _ _ _ => .bind (lays_arguments G) ?_
  rintro ⟨es, c⟩ - j ⟨rfl, hc⟩
  exact .pure ⟨by simp, hc⟩

theorem lays_indexSuffix (hi : kindAt i 0 = .openBracket) :
    LaysSuffix options fuel indexSuffix i := by
  refine fun pos ps => .takeMark hi fun t _ _ _ => ?_
  refine .spelled (G.expr .lowest).withStructLiterals fun e _ => .expectToken fun c _ hc _ => ?_
  exact .pure ⟨by simp, hc⟩

theorem lays_memberSuffix (hi : kindAt i 0 = .dot) : LaysSuffix options fuel memberSuffix i := by
  intro pos ps
  have field {t : Token} {j : List Token} : Lays options fuel (Pure.pure (Suffix.field t)) pos
      (ps ++ [mark .dot] ++ [token t]) j fun s qs _ => qs = ps ++ s.row ∧ s.Closed :=
    .pure ⟨by simp, trivial⟩
  refine .takeMark hi fun t _ _ _ => .expectOneOf fun name _ _ => .ite (fun _ => ?_) fun _ => field
  refine .ifEat (fun _ => .bind (lays_arguments G) ?_) fun _ => field
  rintro ⟨es, c⟩ - j ⟨rfl, hc⟩
  exact .pure ⟨by simp, hc⟩

theorem lays_suffix {tier : Tier} (hi : (kindAt i 0).tier? = some tier) :
    LaysSuffix options fuel (suffix (kindAt i 0) tier) i := by
  unfold suffix
  split
  · exact lays_assignSuffix G
  · have hkind : kindAt i 0 = .kwAs := by cases hk : kindAt i 0 <;> simp_all [TokenKind.tier?]
    refine fun pos ps => .takeMark hkind fun t _ _ _ => .map (.spelled (spells_ty G) fun a _ => ?_)
    exact .pure ⟨by simp, trivial⟩
  · split
    · exact lays_callSuffix G ‹_›
    · refine lays_indexSuffix G ?_
      cases hk : kindAt i 0 <;> simp_all [TokenKind.tier?]
  · exact lays_memberSuffix G (by cases hk : kindAt i 0 <;> simp_all [TokenKind.tier?])
  · refine fun pos ps => .takeToken fun t _ _ _ => .spelled (G.expr _) fun e _ => ?_
    exact .pure ⟨by simp, trivial⟩

theorem lays_suffix? {above : Tier} {ps : List Piece} :
    Lays options fuel (suffix? above) pos ps i fun
    | none, qs, _ => qs = ps
    | some s, qs, _ => qs = ps ++ s.row ∧ s.Closed := by
  refine .kind ?_
  split
  · rename_i tier htier
    refine .ite (fun _ => .map ?_) fun _ => .pure rfl
    exact .bind (lays_suffix G htier pos ps) fun s qs j hs => .pure hs
  · exact .pure rfl

theorem lays_operators {above : Tier} {e : Expr} :
    Lays options fuel (operators above e) pos [.expr e] i fun e' qs _ => qs = [.expr e'] := by
  refine .bind (.repeated (I := fun ps _ ss qs _ => ∀ e, ps = [.expr e] →
    qs = [.expr (ss.foldl Suffix.attach e)]) (by simp) fun ps i => ?_) fun ss qs j h => ?_
  · refine .turn (lays_suffix? G) ?_
    rintro (_ | s) qs j hs
    · exact .pure fun e he => by simp_all
    · obtain ⟨rfl, hclosed⟩ := hs
      by_cases hps : ∃ e, ps = [.expr e]
      · obtain ⟨e, rfl⟩ := hps
        refine .opening rfl (by simp) fun hpos => .become (.pure ?_) fun w early hlaid hw =>
          Suffix.laid_attach hlaid hclosed fun t ht => (hw t ht).trans hpos.symm
        intro ss rs k hrs e' he
        obtain ⟨-, rfl⟩ : e.span = e'.span ∧ e = e' := by simpa [Piece.expr] using he
        exact hrs _ rfl
      · exact .pure fun ss rs k hrs e he => absurd ⟨e, he⟩ hps
  · obtain rfl := h e rfl
    exact .pure rfl

theorem spells_exprRule (above : Tier) : (exprRule above).Spells options fuel fun e => [.expr e] :=
  fun _ _ => .spelled (spells_term G) fun _ _ => lays_operators G

theorem spells_blockLikeRule : blockLikeRule.Spells options fuel fun e => [.expr e] :=
  fun _ _ => .spelled (spells_term G) fun _ _ =>
    .kind (.ite (fun _ => lays_operators G) fun _ => .pure rfl)

theorem spells_typedName : typedName.Spells options fuel fun n => [.typedName n] := by
  intro pos i
  refine .expectToken fun t _ _ hpos => .expectMark fun c _ _ _ => ?_
  refine .spelled (spells_ty G) fun a _ => ?_
  exact .spanned (fun sp => rfl) (hpos rfl) (by simp)

theorem spells_param : param.Spells options fuel fun n => [.typedName n] := by
  intro pos i
  refine .expectToken fun t _ _ hpos => .expectMark fun c _ _ _ => ?_
  refine .spelled (spells_ty G) fun a _ => ?_
  exact .declare (.spanned (fun sp => rfl) (hpos rfl) (by simp))

theorem spells_selfParam : selfParam.Spells options fuel fun s => [.selfParam s] := by
  intro pos i
  refine .current fun start _ hpos => .flag fun byRef _ => .flag fun mutable _ => ?_
  refine .expectMark fun s _ _ _ => ?_
  cases byRef with
  | true =>
    refine .bind (Q := fun a qs _ => a = none ∧ qs = _) (.pure ⟨rfl, rfl⟩) ?_
    rintro - - j ⟨rfl, rfl⟩
    exact .declare (.spanned (fun sp => rfl) (hpos rfl) (by simp))
  | false =>
    refine .spelled (spells_ty G).after? fun a _ => ?_
    exact .declare (.spanned (fun sp => rfl) (hpos rfl) (by simp))

theorem spells_selfParam? : selfParam?.Spells options fuel fun s =>
    s.toList.flatMap fun s => [.selfParam s, maybe .comma] := by
  intro pos i
  have starts : Lays options fuel startsSelfParam pos [] i fun _ qs _ => qs = [] := by
    refine .kind (.nextKind (.kindAfterNext ?_))
    split <;> exact .pure rfl
  refine starts.bind fun r qs j hqs => ?_
  subst hqs
  refine .ite (fun _ => .spelled (spells_selfParam G) fun s _ => .kind ?_) fun _ => .pure rfl
  refine .ite (fun _ => ?_) fun _ => ?_
  · exact .become (.pure rfl) fun w e hlaid _ => ⟨_, hlaid.skip .comma⟩
  · refine .expectMark fun c _ _ _ => ?_
    exact .become (.pure rfl) fun w e hlaid _ => ⟨_, hlaid.maybe_of_mark⟩

theorem spells_functionBody (allowSignature : Bool) :
    (functionBody allowSignature).Spells options fuel fun b =>
      [b.elim (mark .semicolon) .block] := by
  intro pos i
  refine .kind (.ite (fun hi => .ite (fun _ => ?_) fun _ => .fail) fun _ => ?_)
  · exact .takeMark hi fun t _ _ _ => .pure rfl
  · exact .map (.spelled G.block fun b _ => .pure rfl)

theorem spells_function (allowSignature : Bool) :
    (function allowSignature).Spells options fuel fun f => [.function f] := by
  intro pos i
  refine .current fun start _ hpos => .flag fun isConst _ => .expectMark fun f _ _ _ => ?_
  refine .expectToken fun t _ _ _ => .inScope (.expectMark fun o _ _ _ => ?_)
  refine .spelled (spells_selfParam? G) fun s _ => .spelled (spells_param G).commaList fun ps _ => ?_
  refine .expectMark fun c _ _ _ => .spelled (spells_ty G).after? fun r _ => ?_
  refine .spelled (spells_functionBody G allowSignature) fun b _ => ?_
  exact .spanned (fun sp => rfl) (hpos rfl) (by simp)

theorem spells_constantValue (inTrait : Bool) :
    (constantValue inTrait).Spells options fuel fun v => after .assignment (v.map .expr) := by
  intro pos i
  refine .ifEat (fun _ => .map (.spelled (G.expr .lowest) fun e _ => .pure rfl)) fun _ => ?_
  exact .ite (fun _ => .pure rfl) fun _ => .fail

theorem spells_constant (inTrait : Bool) :
    (constant inTrait).Spells options fuel fun c => [.constant c] := by
  intro pos i
  refine .expectMark fun keyword _ _ hpos => .expectOneOf fun name _ _ => ?_
  refine .expectMark fun c _ _ _ => .spelled (spells_ty G) fun a _ => ?_
  refine .spelled (spells_constantValue G inTrait) fun v _ => ?_
  refine .expectMark fun s _ _ _ => ?_
  exact .spanned (fun sp => rfl) (hpos rfl) (by simp)

theorem spells_member (inTrait : Bool) :
    (member inTrait).Spells options fuel fun m => [.member m] := by
  have function : (Member.function <$> Grammar.function inTrait).Spells options fuel fun m =>
      [.member m] :=
    (spells_function G inTrait).wrap (n := fun f => .member (.function f)) (by simp)
      (fun _ => rfl) fun _ => rfl
  have constant : (Member.constant <$> Grammar.constant inTrait).Spells options fuel fun m =>
      [.member m] :=
    (spells_constant G inTrait).wrap (n := fun f => .member (.constant f)) (by simp)
      (fun _ => rfl) fun _ => rfl
  intro pos i
  refine .kind (.nextKind ?_)
  split
  · exact function pos i
  · exact function pos i
  · exact constant pos i
  · exact .fail

theorem spells_members (inTrait : Bool) : (members inTrait).Spells options fuel fun ms =>
    mark .openCurly :: ms.map .member ++ [mark .closeCurly] := by
  have declared : (declaredMember inTrait).Spells options fuel fun m => [.member m] := fun _ _ =>
    .position fun _ _ => .spelled (spells_member G inTrait) fun _ _ => .declare (.pure rfl)
  intro pos i
  refine .inScope (.expectMark fun o _ _ _ => .spelled declared.untilKind fun ms _ => ?_)
  refine .expectMark fun c _ _ _ => .pure ?_
  simp [List.map_eq_flatMap]

theorem spells_struct : struct.Spells options fuel fun i => [.item i] := by
  intro pos i
  refine .expectMark fun keyword _ _ hpos => .expectToken fun name _ _ _ => .kind ?_
  split <;> rename_i h
  · exact .takeMark h fun s _ _ _ => .spanned (fun sp => rfl) (hpos rfl) (by simp)
  · refine .takeMark h fun o _ _ _ => .spelled (spells_typedName G).commaList fun fs _ => ?_
    exact .expectMark fun c _ _ _ => .spanned (fun sp => rfl) (hpos rfl) (by simp)
  · exact .fail

omit G in
theorem spells_enum : enum.Spells options fuel fun i => [.item i] := by
  intro pos i
  refine .expectMark fun keyword _ _ hpos => .expectToken fun name _ _ _ => ?_
  refine .expectMark fun o _ _ _ => .spelled Spells.expect.commaList fun vs _ => ?_
  exact .expectMark fun c _ _ _ => .spanned (fun sp => rfl) (hpos rfl) (by simp)

theorem spells_trait : trait.Spells options fuel fun i => [.item i] := by
  intro pos i
  refine .expectMark fun keyword _ _ hpos => .expectToken fun name _ _ _ => ?_
  exact .spelled (spells_members G true) fun ms _ => .spanned (fun sp => rfl) (hpos rfl) (by simp)

omit G in
theorem spells_implTrait? : implTrait?.Spells options fuel fun name =>
    name.toList.flatMap fun t => [token t, mark .kwFor] := by
  intro pos i
  refine .kind (.nextKind ?_)
  split
  · rename_i hfor
    refine .takeToken fun t j hi _ => .takeMark (k := .kwFor) ?_ fun f _ _ _ => .pure rfl
    simpa [hi] using hfor
  · exact .pure rfl

theorem spells_impl : impl.Spells options fuel fun i => [.item i] := by
  intro pos i
  refine .expectMark fun keyword _ _ hpos => .spelled spells_implTrait? fun name _ => ?_
  refine .spelled (spells_ty G) fun a _ => .spelled (spells_members G false) fun ms _ => ?_
  refine .spanned (fun sp => rfl) (hpos rfl) fun sp => ?_
  cases name <;> simp

theorem spells_item : item.Spells options fuel fun i => [.item i] := by
  have function : (Item.function <$> Grammar.function false).Spells options fuel fun i =>
      [.item i] :=
    (spells_function G false).wrap (n := fun f => .item (.function f)) (by simp)
      (fun _ => rfl) fun _ => rfl
  have constant : (Item.constant <$> Grammar.constant false).Spells options fuel fun i =>
      [.item i] :=
    (spells_constant G false).wrap (n := fun f => .item (.constant f)) (by simp)
      (fun _ => rfl) fun _ => rfl
  intro pos i
  refine .kind (.nextKind ?_)
  split
  · exact function pos i
  · exact function pos i
  · exact constant pos i
  · exact spells_struct G pos i
  · exact spells_enum pos i
  · exact spells_trait G pos i
  · exact spells_impl G pos i
  · exact .fail

theorem spells_declaredItem : declaredItem.Spells options fuel fun i => [.item i] :=
  fun _ _ => .spelled (spells_item G) fun _ _ => .declare (.pure rfl)

theorem spells_letBinding : letBinding.Spells options fuel fun s => [.statement s] := by
  intro pos i
  refine .expectMark fun keyword _ _ hpos => .spelled G.pattern fun p _ => ?_
  refine .spelled (spells_ty G).after? fun a _ => .spelled (G.expr .lowest).after? fun v _ => ?_
  exact .expectMark fun s _ _ _ => .bindAll (.spanned (fun sp => rfl) (hpos rfl) (by simp))

theorem spells_statement : statement.Spells options fuel fun s => [.statement s] := by
  have item : (Stmt.item <$> declaredItem).Spells options fuel fun s => [.statement s] :=
    (spells_declaredItem G).wrap (n := fun i => .statement (.item i)) (by simp)
      (fun _ => rfl) fun _ => rfl
  intro pos i
  refine .kind ?_
  split
  · exact spells_letBinding G pos i
  · refine .expectToken fun t _ ht hpos => .become (.pure rfl) fun w e hlaid hw => ?_
    refine Laid.toNode (n := .statement (.empty t.span)) (ht ▸ hlaid.mark_of_token) ?_
    exact hlaid.bounds rfl (fun u hu => (hw u hu).trans (hpos rfl).symm) rfl
  · exact item pos i
  · exact item pos i
  · exact item pos i
  · exact item pos i
  · exact item pos i
  · exact item pos i
  · exact .fail

theorem lays_elementRule : Lays options fuel elementRule pos [] i fun x ps j =>
    ps = x.pieces ∧ ∀ e, x = .tail e → kindAt j 0 = .closeCurly := by
  have starts : Lays options fuel startsStatement pos [] i fun _ qs _ => qs = [] := by
    refine .kind ?_
    split
    · exact .nextKind (.pure rfl)
    all_goals exact .pure rfl
  refine starts.bind fun r qs j hqs => ?_
  subst hqs
  refine .ite (fun _ => .map ?_) fun _ => ?_
  · exact .spelled (spells_statement G) fun s _ => .pure ⟨rfl, by simp⟩
  refine .spelled (spells_statementExpr G) fun e _ => .opening rfl (by simp) fun hpos =>
    .ifEat (fun _ => ?_) fun _ => ?_
  · exact .spanned (n := fun sp => .statement (.expr e true sp)) (fun sp => ⟨rfl, by simp⟩) hpos
      (by simp [flag])
  · refine .kind (.ite (fun hc => .pure ⟨rfl, fun _ _ => hc⟩) fun _ => ?_)
    refine .ite (fun _ => ?_) fun _ => .fail
    exact .joined (n := .statement (.expr e false e.span)) ⟨rfl, by simp⟩ (by simp [flag]) hpos
      (List.nil_append _).symm rfl rfl

end Grammar

theorem Goal.spells (options : ParseOptions) (fuel : Nat) : Goal.Spells options fuel := by
  induction fuel with
  | zero =>
    refine ⟨fun _ _ _ => ?_, fun _ _ => ?_, fun _ _ => ?_, fun _ _ => ?_, fun _ _ => ?_,
      fun _ _ => ?_, fun _ _ => ?_, fun _ _ => ?_⟩ <;> exact .goal nofun
  | succ fuel G =>
    refine ⟨fun above _ _ => .goal ?_, fun _ _ => .goal ?_, fun _ _ => .goal ?_,
      fun _ _ => .goal ?_, fun _ _ => .goal ?_, fun _ _ => .goal ?_, fun _ _ => .goal ?_,
      fun _ _ => .goal ?_⟩ <;> rintro rounds ⟨⟩
    · exact spells_exprRule G above _ _
    · exact spells_blockLikeRule G _ _
    · exact lays_blockRule G
    · exact lays_elementRule G
    · exact spells_conditional G _ _
    · exact lays_armRule G
    · exact lays_tyRule G
    · exact lays_patternRule G

end FrontEnd
