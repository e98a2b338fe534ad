import FrontEnd.Proofs.GivenTrees
/-!
# Completeness

Every tree that is derived by the rules of the grammar is yielded by a run, up to the spans of its
nodes and tokens, if the run starts near the place where the derivation does.
-/
namespace FrontEnd

open Grammar Phrase

def Form.bare : (σ : Form) → σ.Tree → σ.Tree
  | segment, t | name, t => t.bare
  | flag _, set => set
  | after _ form, a => a.map form.bare
  | eachAfter _ form, as => as.map form.bare
  | list _ form, as => as.map form.bare
  | more _ form, as => as.map form.bare
  | path, p => p.bare
  | ty, t => t.bare
  | pattern, p => p.bare
  | expr _, e | term, e | statementExpr, e => e.bare
  | suffix, s => s.bare
  | suffixes _, ss => ss.map Suffix.bare
  | field, f => f.bare
  | jumpValue, v => v.map Expr.bare
  | block, b => b.bare
  | element, s | statement, s => s.bare
  | elements, es => (es.1.map Stmt.bare, es.2.map Expr.bare)
  | letLink, l | link, l => l.bare
  | condition, c => c.bare
  | conditional, c => c.bare
  | otherwise, o => o.bare
  | arm, a => a.bare
  | arms, as => as.map Arm.bare
  | typedName, n | param, n => n.bare
  | selfParam, s => s.bare
  | params, ps => (ps.1.map SelfParam.bare, ps.2.map TypedName.bare)
  | body _, b => b.map Block.bare
  | function _, f => f.bare
  | constant _, c => c.bare
  | member _, m => m.bare
  | members _, ms => ms.map Member.bare
  | item, i | declaredItem, i => i.bare
  | items, is => is.map Item.bare

def Form.phrase : (σ : Form) → Phrase σ.Tree
  | segment => expectOneOf pathSegments "a path segment"
  | name => expect .identifier
  | flag k => eat k
  | after k form => after? k form.phrase
  | eachAfter k form => Phrase.eachAfter k form.phrase
  | list br form => do
    let as ← commaList br.closing form.phrase
    let _ ← expect br.closing
    return as
  | more br form => do
    let as ← afterFirst br.closing form.phrase
    let _ ← expect br.closing
    return as
  | path => Grammar.path
  | ty => Grammar.ty
  | pattern => Grammar.pattern
  | expr above => Grammar.expr above
  | term => Grammar.term
  | suffix => do
    let operator ← kind
    match operator.tier? with
    | some tier => Grammar.suffix operator tier
    | none => fail "an operator"
  | suffixes above => repeated (suffix? above)
  | field => fieldValue
  | jumpValue => Grammar.jumpValue
  | statementExpr => Grammar.statementExpr
  | block => Grammar.block
  | element => do
    match ← elementRule with
    | .statement s => return s
    | .tail _ => fail "a statement"
  | elements => do
    let es ← untilKind .closeCurly (goal .element)
    let _ ← expect .closeCurly
    return (Element.statements es, Element.tail? es)
  | statement => Grammar.statement
  | letLink | link => Grammar.link
  | condition => Grammar.condition
  | conditional => Grammar.conditional
  | otherwise => Grammar.otherwise
  | arm => goal .arm
  | arms => do
    let as ← untilKind .closeCurly armAndComma
    let _ ← expect .closeCurly
    return as
  | typedName => Grammar.typedName
  | selfParam => Grammar.selfParam
  | param => Grammar.param
  | params => do
    let self ← selfParam?
    let ps ← commaList .closeParen Grammar.param
    let _ ← expect .closeParen
    return (self, ps)
  | body allowSignature => functionBody allowSignature
  | function allowSignature => Grammar.function allowSignature
  | constant inTrait => Grammar.constant inTrait
  | member inTrait => Grammar.member inTrait
  | members inTrait => do
    let ms ← untilKind .closeCurly (declaredMember inTrait)
    let _ ← expect .closeCurly
    return ms
  | item => Grammar.item
  | declaredItem => Grammar.declaredItem
  | items => untilKind .eof Grammar.declaredItem

variable {options : ParseOptions} {σ : Form} {fuel ℓ : Nat} {b : Bool} {x y : Place} {t : σ.Tree}

theorem gives_element {s : Stmt} :
    Gives options fuel ℓ b (Form.phrase .element) x y (·.bare = s.bare) ↔
      Gives options fuel ℓ b elementRule x y fun e => ∃ s', e = .statement s' ∧ s'.bare = s.bare := by
  constructor
  · intro h st hst
    obtain ⟨a, u, hr, hu, ha⟩ := h st hst
    unfold Form.phrase at hr
    rw [run_bind] at hr
    obtain ⟨e, v, he, hr⟩ := Reader.ok_of_bind hr
    cases e with
    | statement s' =>
      cases hr
      exact ⟨_, _, he, hu, a, rfl, ha⟩
    | tail e' => cases hr
  · intro h
    refine .bind h ?_
    rintro _ ⟨s', rfl, hs⟩
    exact .pure hs

theorem map_cons_eq {α β : Type} {f : α → β} {a a' : α} {as as' : List α} (ha : f a' = f a)
    (has : as'.map f = as.map f) : (a' :: as').map f = (a :: as).map f := by
  rw [List.map_cons, List.map_cons, ha, has]

theorem exists_rounds (h : ℓ + 1 ≤ fuel) : ∃ rounds, fuel = rounds + 1 ∧ ℓ ≤ rounds :=
  ⟨fuel - 1, by omega, by omega⟩

/-- What begins with a token that may be there begins with it or with what comes after it. -/
theorem Derives.kind_flag {k : TokenKind} {set : Bool}
    (h : Derives options.resolvePatterns (.flag k) ℓ b x set y) : x.kind = k ∨ x.kind = y.kind := by
  cases h with
  | flagSet hk h => exact .inl h
  | flagUnset hk h => exact .inr rfl

/-- After the first part of a list comes a comma or a bracket. -/
theorem Derives.kind_more {br : Bracket} {as : List σ.Tree}
    (h : Derives options.resolvePatterns (.more br σ) ℓ b x as y) : x.kind ≠ .semicolon := by
  cases h with
  | moreNil h => cases br <;> simp [h, Bracket.closing]
  | moreComma ht h => simp [ht]
  | moreCons hl ht h ha has => simp [ht]

/-- Parameters without `self` begin with a name or are none. -/
theorem Derives.kind_plain_params {ps : List TypedName}
    (h : Derives options.resolvePatterns (.list .round .param) ℓ b x ps y) :
    x.kind = .identifier ∨ x.kind = .closeParen := by
  cases h with
  | listNil h => exact .inr h
  | listCons hl hne ha has => exact .inl ha.starts

/-- A tree that is derived is given. -/
theorem Derives.gives (h : Derives options.resolvePatterns σ ℓ b x t y) (hℓ : ℓ ≤ fuel) :
    Gives options fuel ℓ b σ.phrase x y fun t' => σ.bare t' = σ.bare t := by
  induction h generalizing fuel with
  -- tokens and lists
  | segment h => exact .expectOneOf h
  | name h => exact .expect h
  | flagSet hk h => exact .eat h
  | flagUnset hk h => exact .notEat h
  | afterNothing hk h =>
    refine (Gives.after?None h).mono ?_
    rintro _ rfl
    rfl
  | afterSome hk h ha iha =>
    refine (Gives.after?Some h (iha hℓ)).mono ?_
    rintro _ ⟨a', rfl, ha'⟩
    exact congrArg some ha'
  | eachNil hk h =>
    refine (Gives.eachAfterNil h).mono ?_
    rintro _ rfl
    rfl
  | eachCons hk h ha has iha ihas =>
    unfold Form.phrase
    rw [← bind_pure (Phrase.eachAfter _ _)]
    refine .eachAfterCons h ha.length_le (iha hℓ) fun a' ha' => .bind (ihas hℓ) fun as' has' => ?_
    exact .pure (map_cons_eq ha' has')
  | listNil h =>
    refine .bind (.commaListNil h) fun as has => .bind (.expect h) fun _ _ => .pure ?_
    rw [has]
  | listCons hl h ha has iha ihas =>
    refine .commaListCons h (iha hℓ) fun a' ha' => .closed (ihas hℓ) fun as' _ has' => .pure ?_
    exact map_cons_eq ha' has'
  | moreNil h =>
    refine .bind (.afterFirstNil ?_) fun as has => .bind (.expect h) fun _ _ => .pure ?_
    · rw [Place.kind_mk, kindAt_zero, h]
      exact fun hbr => by cases ‹Bracket› <;> cases hbr
    · rw [has]
  | moreComma ht h =>
    refine .bind (.afterFirstComma ht h) fun as has => .bind (.expect h) fun _ _ => .pure ?_
    rw [has]
  | moreCons hl ht h ha has iha ihas =>
    refine .afterFirstCons ht h ha.length_le (iha hℓ) fun a' ha' => ?_
    exact .closed (ihas hℓ) fun as' _ has' => .pure (map_cons_eq ha' has')
  | path h hts ihts => exact gives_path h (ihts hℓ)
  -- types
  | tyPath h hp ihp =>
    obtain ⟨rounds, rfl, hr⟩ := exists_rounds hℓ
    exact gives_ty (by obtain h | h := h <;> simp [h, typeStarts]) (gives_pathType h (ihp hr))
  | tyReference h hm ha ihm iha =>
    obtain ⟨rounds, rfl, hr⟩ := exists_rounds hℓ
    refine gives_ty (by simp [h, typeStarts]) (.kind h (.referenceLayer h (ihm hr) (iha hr) ?_))
    intro a' sp (ha' : a'.bare = _)
    simp [Form.bare, Ty.bare, ha']
  | tyReferences h hm ha ihm iha =>
    obtain ⟨rounds, rfl, hr⟩ := exists_rounds hℓ
    refine gives_ty (by simp [h, typeStarts]) (.kind h (.referenceTwoLayers h (ihm hr) (iha hr) ?_))
    intro a' sp (ha' : a'.bare = _)
    simp [Form.bare, Ty.bare, ha']
  | tySlice h ha hc iha =>
    obtain ⟨rounds, rfl, hr⟩ := exists_rounds hℓ
    exact gives_ty (by simp [h, typeStarts]) (.kind h (gives_slice (iha hr) hc))
  | tyArray h ha hs he hc iha ihe =>
    obtain ⟨rounds, rfl, hr⟩ := exists_rounds hℓ
    exact gives_ty (by simp [h, typeStarts]) (.kind h (gives_arrayType (iha hr) hs (ihe hr) hc))
  | tyUnit h hc =>
    obtain ⟨rounds, rfl, hr⟩ := exists_rounds hℓ
    exact gives_ty (by simp [h, typeStarts]) (.kind h (gives_unitType hc))
  | tyParen h ha hc iha =>
    obtain ⟨rounds, rfl, hr⟩ := exists_rounds hℓ
    have hi := ne_of_mem_of_not_mem ha.starts (by decide : TokenKind.closeParen ∉ typeStarts)
    exact gives_ty (by simp [h, typeStarts]) (.kind h (gives_parenType hi (iha hr) hc))
  | tyTuple h ha hy has iha ihas =>
    obtain ⟨rounds, rfl, hr⟩ := exists_rounds hℓ
    have hi := ne_of_mem_of_not_mem ha.starts (by decide : TokenKind.closeParen ∉ typeStarts)
    exact gives_ty (by simp [h, typeStarts]) (.kind h (gives_tupleType hi (iha hr) hy (ihas hr)))
  | tyNever h =>
    obtain ⟨rounds, rfl, hr⟩ := exists_rounds hℓ
    exact gives_ty (by simp [h, typeStarts]) (.kind h (.map .take fun t' ht => congrArg Ty.never ht))
  | tyInferred h =>
    obtain ⟨rounds, rfl, hr⟩ := exists_rounds hℓ
    exact gives_ty (by simp [h, typeStarts])
      (.kind h (.map .take fun t' ht => congrArg Ty.inferred ht))
  -- patterns
  | patLiteral h =>
    obtain ⟨rounds, rfl, hr⟩ := exists_rounds hℓ
    exact .goal (gives_literalPattern h)
  | patNegated h hl =>
    obtain ⟨rounds, rfl, hr⟩ := exists_rounds hℓ
    exact .goal (gives_negatedPattern h hl)
  | patWildcard h =>
    obtain ⟨rounds, rfl, hr⟩ := exists_rounds hℓ
    exact .goal (gives_wildcardPattern h)
  | patReference h hm hp ihm ihp =>
    obtain ⟨rounds, rfl, hr⟩ := exists_rounds hℓ
    exact .goal (gives_referencePattern h (ihm hr) (ihp hr))
  | patReferences h hm hp ihm ihp =>
    obtain ⟨rounds, rfl, hr⟩ := exists_rounds hℓ
    exact .goal (gives_referencesPattern h (ihm hr) (ihp hr))
  | patBinding h hb hm ht hs ihb ihm ihs =>
    obtain ⟨rounds, rfl, hr⟩ := exists_rounds hℓ
    exact .goal (gives_patternRule_binding h
      (gives_identifierPattern h.kind_ne_eof (ihb hr) (ihm hr) ht (ihs hr)))
  | patPath h hp hy ihp =>
    obtain ⟨rounds, rfl, hr⟩ := exists_rounds hℓ
    exact .goal (gives_patternRule_path h (gives_pathPattern (ihp hr) hy))
  | patTuple h hp ht hps ihp ihps =>
    obtain ⟨rounds, rfl, hr⟩ := exists_rounds hℓ
    exact .goal (gives_patternRule_path h (gives_tuplePattern (ihp hr) ht (ihps hr)))
  -- expressions
  | expr he hs ihe ihs =>
    obtain ⟨rounds, rfl, hr⟩ := exists_rounds hℓ
    exact .goal (.bind (ihe hr) fun e' he' => gives_operators he' (ihs hr))
  | suffixesNil h =>
    refine (Gives.repeatedNil (gives_noSuffix h)).mono ?_
    rintro _ rfl
    rfl
  | suffixesCons h hτ hs hss ihs ihss =>
    have hsuffix := (ihs hℓ).of_kind
    rw [h] at hsuffix
    unfold Form.phrase
    rw [← bind_pure (repeated _)]
    refine .repeatedCons (hs.length_lt trivial) (gives_suffix h hτ hsuffix) fun s' hs' => ?_
    exact .bind (ihss hℓ) fun ss' hss' => .pure (map_cons_eq hs' hss')
  | termLiteral h => exact gives_literal h
  | termPath hp hy ihp => exact gives_term_of_path hp.starts (gives_pathExpr (ihp hℓ) hy)
  | termStruct hp ht hfs ihp ihfs =>
    exact gives_term_of_path hp.starts (gives_structLiteral (ihp hℓ) ht (ihfs hℓ))
  | termUnary h he ihe =>
    obtain h | h := h <;> exact .kind h (gives_unary (ihe hℓ))
  | termDeref h he ihe => exact .kind h (gives_deref (ihe hℓ))
  | termBorrow h hm he ihm ihe =>
    refine .kind h (.referenceLayer h (ihm hℓ) (ihe hℓ) ?_)
    intro e' sp (he' : e'.bare = _)
    simp [Form.bare, Expr.bare, he']
  | termBorrows h hm he ihm ihe =>
    refine .kind h (.referenceTwoLayers h (ihm hℓ) (ihe hℓ) ?_)
    intro e' sp (he' : e'.bare = _)
    simp [Form.bare, Expr.bare, he']
  | termGrouped h he hc ihe => exact .kind h (gives_grouped (ihe hℓ) hc)
  | termEmptyArray h hc => exact .kind h (gives_emptyArray hc)
  | termArray h he hes ihe ihes =>
    have hi := ne_of_mem_of_not_mem he.starts (by decide : TokenKind.closeBracket ∉ exprStarts)
    exact .kind h (gives_array hi (ihe hℓ) hes.kind_more (ihes hℓ))
  | termRepeat h he hs hl hc ihe ihl =>
    have hi := ne_of_mem_of_not_mem he.starts (by decide : TokenKind.closeBracket ∉ exprStarts)
    exact .kind h (gives_arrayRepeat hi (ihe hℓ) hs (ihl hℓ) hc)
  | termUnderscore h => exact .kind h (.map .take fun t' ht => congrArg Expr.underscore ht)
  | termBreak h hv ihv => exact .kind h (gives_breakLoop (ihv hℓ))
  | termContinue h => exact .kind h (.map .take fun t' ht => congrArg Expr.continueLoop ht)
  | termReturn h hv ihv => exact .kind h (gives_returnValue (ihv hℓ))
  | termBlock h ih => exact .kind h.starts ((ih hℓ).map fun b' hb => congrArg Expr.block hb)
  | termConst h hb ihb => exact .kind h (gives_constBlock h hb.starts (ihb hℓ))
  | termIf h ih => exact .kind h.starts ((ih hℓ).map fun c' hc => congrArg Expr.conditional hc)
  | termMatch h he ho has ihe ihas => exact .kind h (gives_matching h (ihe hℓ) ho (ihas hℓ))
  | termLoop h hb ihb => exact .kind h (gives_loop h (ihb hℓ))
  | termWhile h hc hb ihc ihb =>
    exact .kind h (gives_whileLoop h (gives_guardedBlock (ihc hℓ) (ihb hℓ)))
  | fieldLong h hc he ihe => exact gives_field h hc (ihe hℓ)
  | fieldShort h hi => exact gives_shorthandField h hi
  | jumpNothing h =>
    refine (gives_noJumpValue h).mono ?_
    rintro _ rfl
    rfl
  | jumpValue h ih => exact gives_jumpValue h.starts (ih hℓ)
  | sufBinary h hτ he ihe =>
    refine .kind rfl ?_
    rw [Place.kind_mk, kindAt_zero, h]
    simp only [suffix_eq_binarySuffix hτ]
    exact gives_binarySuffix (ihe hℓ)
  | sufAssign h he ihe => exact .kind h (gives_assignSuffix h (ihe hℓ))
  | sufCompound h ht he ihe =>
    refine .kind rfl ?_
    rw [Place.kind_mk, kindAt_zero, h]
    exact gives_compoundSuffix ht (ihe hℓ)
  | sufCast h ha iha => exact .kind h (gives_castSuffix (iha hℓ))
  | sufCall h hes ihes => exact .kind h (gives_callSuffix (gives_arguments (ihes hℓ)))
  | sufIndex h he hc ihe => exact .kind h (gives_indexSuffix (ihe hℓ) hc)
  | sufField h hf => exact .kind h (gives_fieldSuffix hf)
  | sufMethod h hf ho hes ihes =>
    exact .kind h (gives_methodSuffix hf ho (gives_arguments (ihes hℓ)))
  -- blocks and statements
  | stmtExpr h he ihe => exact gives_statementExpr h (ihe hℓ)
  | stmtBlockLike h he hy ihe =>
    obtain ⟨rounds, rfl, hr⟩ := exists_rounds hℓ
    exact gives_blockLike h (.bind (ihe hr) fun e' he' => .kind rfl (.ite_neg hy (.pure he')))
  | stmtMember h he hy hs ihe ihs =>
    obtain ⟨rounds, rfl, hr⟩ := exists_rounds hℓ
    refine gives_blockLike h (.bind (ihe hr) fun e' he' => .kind hy (.ite_pos rfl ?_))
    exact gives_operators he' (ihs hr)
  | block h hs ihs =>
    obtain ⟨rounds, rfl, hr⟩ := exists_rounds hℓ
    exact .goal (gives_blockRule h ((ihs hr).mono fun r hr => Prod.mk.inj hr))
  | elementsNil h =>
    refine .bind (.untilKindNil h) fun es hes => .bind (.expect h) fun _ _ => .pure ?_
    rw [hes]
    rfl
  | elementsTail h he hc ihe =>
    obtain ⟨rounds, rfl, hr⟩ := exists_rounds hℓ
    have hx := ne_of_mem_of_not_mem he.starts (by decide : TokenKind.closeCurly ∉ exprStarts)
    refine .untilKindCons hx (he.length_lt trivial) (.goal (gives_exprElement h (gives_tail (ihe hr) hc))) ?_
    rintro _ ⟨e', rfl, he'⟩
    refine .bind (.untilKindNil hc) fun es hes => .bind (.expect hc) fun _ _ => .pure ?_
    rw [hes]
    exact congrArg (fun e => ([], some e)) he'
  | elementsCons hs hss ihs ihss =>
    obtain ⟨rounds, rfl, hr⟩ := exists_rounds hℓ
    have hx := ne_of_mem_of_not_mem hs.starts
      (by decide : TokenKind.closeCurly ∉ .kwLet :: .semicolon :: itemStarts ++ exprStarts)
    refine .untilKindCons hx (hs.length_lt trivial) (.goal (gives_element.1 (ihs hr))) ?_
    rintro _ ⟨s', rfl, hs'⟩
    refine .closed (ihss hℓ) fun es _ hes => .pure ?_
    obtain ⟨hss, he⟩ := Prod.mk.inj hes
    rw [Element.tail?_cons_statement]
    exact Prod.ext (map_cons_eq hs' hss) he
  | elementStmt h hs ihs => exact gives_element.2 (gives_statementElement h (ihs hℓ))
  | elementExpr h he hs ihe =>
    exact gives_element.2 (gives_exprElement h (gives_exprStatement (ihe hℓ) hs))
  | elementBlockLike h he hs hc hb ihe =>
    exact gives_element.2 (gives_exprElement h (gives_blockLikeStatement (ihe hℓ) hs hc hb))
  | stmtEmpty h => exact .kind h (gives_emptyStatement h)
  | stmtItem h ih => exact gives_itemStatement h.starts (ih hℓ)
  | stmtLet h hp ha hv hs ihp iha ihv =>
    exact .kind h (gives_letBinding h (ihp hℓ) (iha hℓ) (ihv hℓ) hs)
  -- conditions and branches
  | linkLet h hp hs hv ihp ihv => exact gives_letLink h (ihp hℓ) hs (ihv hℓ)
  | linkOfLet h ih => exact ih hℓ
  | linkTest h ih => exact gives_testLink h.starts (ih hℓ)
  | condExpr h ih => exact gives_exprCondition h.starts (ih hℓ)
  | condLet hl hls ihl ihls => exact gives_letChain hl.starts (ihl hℓ) (ihls hℓ)
  | conditional h hc hb ho ihc ihb iho =>
    exact gives_conditional h (gives_guardedBlock (ihc hℓ) (ihb hℓ)) (iho hℓ)
  | elseNothing h => exact .ifNotEat h (.pure rfl)
  | elseIf h hc ihc =>
    obtain ⟨rounds, rfl, hr⟩ := exists_rounds hℓ
    exact gives_elseIf h hc.starts (ihc hr)
  | elseBlock h hb ihb => exact gives_elseBlock h hb.starts (ihb hℓ)
  | arm hp hg hf he ihp ihg ihe =>
    obtain ⟨rounds, rfl, hr⟩ := exists_rounds hℓ
    exact .goal (gives_armRule (ihp hr) (ihg hr) hf (ihe hr))
  | armsNil h =>
    refine .bind (.untilKindNil h) fun as has => .bind (.expect h) fun _ _ => .pure ?_
    rw [has]
  | armsComma ha ht has iha ihas =>
    have hx := ne_of_mem_of_not_mem ha.starts (by decide : TokenKind.closeCurly ∉ patternStarts)
    have hlt := Nat.lt_of_succ_lt (ha.length_lt trivial)
    refine .untilKindCons hx hlt (gives_armAndComma (iha hℓ) ht) fun a' ha' => ?_
    exact .closed (ihas hℓ) fun as' _ has' => .pure (map_cons_eq ha' has')
  | armsBare ha hy hc has iha ihas =>
    have hx := ne_of_mem_of_not_mem ha.starts (by decide : TokenKind.closeCurly ∉ patternStarts)
    refine .untilKindCons hx (ha.length_lt trivial) (gives_bareArm (iha hℓ) hy hc) fun a' ha' => ?_
    exact .closed (ihas hℓ) fun as' _ has' => .pure (map_cons_eq ha' has')
  -- items
  | typedName h hc ha iha => exact gives_typedName h hc (iha hℓ)
  | param h hc ha iha => exact gives_param h hc (iha hℓ)
  | selfReference h hm hs ihm => exact gives_selfReference h (ihm hℓ) hs
  | selfValue hm hs ha ihm iha =>
    obtain hx | hx := hm.kind_flag
    · exact gives_selfValue (by simp [hx]) (by simp [hx]) (ihm hℓ) hs (iha hℓ)
    · exact gives_selfValue (by simp [hx, hs]) (by simp [hx, hs]) (ihm hℓ) hs (iha hℓ)
  | paramsPlain h ih =>
    refine .bind (gives_noSelfParam h.kind_plain_params) ?_
    rintro _ rfl
    exact .closed (ih hℓ) fun ps' _ hps' => .pure (Prod.ext rfl hps')
  | paramsSelf h hc ih =>
    refine .bind (gives_lastSelfParam h.startsSelf (ih hℓ) hc) fun s' hs' => ?_
    refine .bind (.commaListNil hc) fun ps hps => .bind (.expect hc) fun _ _ => .pure ?_
    rw [hps]
    exact Prod.ext hs' rfl
  | paramsMore h ht hps ih ihps =>
    refine .bind (gives_selfParam_comma h.startsSelf (ih hℓ) ht) fun s' hs' => ?_
    exact .closed (ihps hℓ) fun ps' _ hps' => .pure (Prod.ext hs' hps')
  | signature h =>
    refine (gives_signature h).mono ?_
    rintro _ rfl
    rfl
  | body h ihb => exact gives_functionBody h.starts (ihb hℓ)
  | function hc hf ht hp hps hr hb ihc ihps ihr ihb =>
    refine gives_function ?_ (ihc hℓ) hf ht hp ((ihps hℓ).mono fun r hr => Prod.mk.inj hr) (ihr hℓ)
      (ihb hℓ)
    obtain hx | hx := hc.kind_flag <;> simp [hx, hf]
  | constant h hc hd ha hv hn hs iha ihv =>
    refine gives_constant h hc hd (iha hℓ) (gives_constantValue (ihv hℓ) (fun hne => ?_) hn) hs
    cases hv with
    | afterNothing hk h => exact ⟨rfl, rfl⟩
    | afterSome hk h hv => exact absurd h hne
  | memberFunction h ih => exact gives_member_function h.kind_function (ih hℓ)
  | memberConstant h ih => exact gives_member_constant h.kind_constant.1 h.kind_constant.2 (ih hℓ)
  | membersNil h =>
    refine .bind (.untilKindNil h) fun ms hms => .bind (.expect h) fun _ _ => .pure ?_
    rw [hms]
  | membersCons ha has iha ihas =>
    have hx := ne_of_mem_of_not_mem ha.starts
      (by decide : TokenKind.closeCurly ∉ [TokenKind.kwFn, .kwConst])
    refine .untilKindCons hx ?_ (gives_declaredMember (iha hℓ)) fun a' ha' =>
      .closed (ihas hℓ) fun as' _ has' => .pure (map_cons_eq ha' has')
    exact ha.length_lt trivial
  | itemFunction h ih => exact gives_item_function h.kind_function (ih hℓ)
  | itemConstant h ih => exact gives_item_constant h.kind_constant.1 h.kind_constant.2 (ih hℓ)
  | itemUnit h hc hs => exact .kind h (.nextKind rfl (gives_unitStruct h hc hs))
  | itemStruct h hc ho hfs ihfs =>
    exact .kind h (.nextKind rfl (gives_struct h hc ho (ihfs hℓ)))
  | itemEnum h hc ho hvs ihvs => exact .kind h (.nextKind rfl (gives_enum h hc ho (ihvs hℓ)))
  | itemTrait h hc ho hms ihms =>
    exact .kind h (.nextKind rfl (gives_trait h hc (gives_members ho (ihms hℓ))))
  | itemImpl h hi ha ho hms iha ihms =>
    refine .kind h (.nextKind rfl (gives_impl h ?_ (iha hℓ) (gives_members ho (ihms hℓ))))
    exact (gives_noImplTrait (x := ⟨_, _⟩) hi).mono fun a ha => congrArg (Option.map Token.bare) ha
  | itemImplFor h hc hf ha ho hms iha ihms =>
    refine .kind h (.nextKind rfl (gives_impl h ?_ (iha hℓ) (gives_members ho (ihms hℓ))))
    exact gives_implTrait hc hf
  | declaredItem h ih => exact gives_declaredItem (ih hℓ)
  | itemsNil h =>
    refine (Gives.untilKindNil h).mono ?_
    rintro _ rfl
    rfl
  | itemsCons ha has iha ihas =>
    have hx := ne_of_mem_of_not_mem ha.starts (by decide : TokenKind.eof ∉ itemStarts)
    unfold Form.phrase
    rw [← bind_pure (untilKind _ _)]
    refine .untilKindCons hx (ha.length_lt trivial) (iha hℓ) fun a' ha' => ?_
    exact .bind (ihas hℓ) fun as' has' => .pure (map_cons_eq ha' has')

end FrontEnd
