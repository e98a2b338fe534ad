import FrontEnd.Proofs.Soundness
import FrontEnd.Proofs.Tree.Forms
/-!
# No token is lost

A tree has all tokens that it was read from, in their order: written down again it gives the same
tokens, up to commas, round parentheses and the two ways to write two references.
-/
namespace FrontEnd

/-- What counts of a token: its kind and, for a name or a literal, its text. -/
abbrev Label := TokenKind × Option String

/-- The labels of a token. Commas and round parentheses do not count, and `&&` counts as two `&`. -/
def Token.labels (t : Token) : List Label :=
  match t.kind with
  | .comma | .openParen | .closeParen => []
  | .andAnd => [(.ampersand, none), (.ampersand, none)]
  | k => [(k, if k = .identifier ∨ k.isLiteral then some t.value else none)]

def labels (tokens : List Token) : List Label := tokens.flatMap Token.labels

@[simp] theorem labels_nil : labels [] = [] := rfl

@[simp] theorem labels_cons (t : Token) (i : List Token) : labels (t :: i) = t.labels ++ labels i :=
  rfl

@[simp] theorem labels_append (i j : List Token) : labels (i ++ j) = labels i ++ labels j :=
  List.flatMap_append

open Token (fixed)

def TokenKind.isMark (k : TokenKind) : Bool :=
  k ∉ [TokenKind.eof, .identifier, .integer, .char, .string, .kwTrue, .kwFalse]

theorem labels_eq_fixed {t : Token} {k : TokenKind} (h : t.kind = k) (hk : k.isMark) :
    t.labels = (fixed k).labels := by
  subst h
  have hid : t.kind ≠ .identifier := by rintro h; simp [h, TokenKind.isMark] at hk
  have hlit : t.kind.isLiteral = false := by
    simp_all [TokenKind.isMark, TokenKind.isLiteral]
  simp only [Token.labels, Token.kind_fixed]
  split <;> simp_all

theorem labels_comma : (fixed .comma).labels = [] := rfl

theorem labels_parens : (fixed .openParen).labels = [] ∧ (fixed .closeParen).labels = [] := ⟨rfl, rfl⟩

theorem labels_more_nil (close : TokenKind) :
    labels (Written.more close []) = (fixed close).labels := by
  simp [Written.more]

theorem labels_more_cons (close : TokenKind) (a : List Token) (as : List (List Token)) :
    labels (Written.more close (a :: as)) = labels a ++ labels (Written.more close as) := by
  simp [Written.more, labels_comma]

/-- Commas do not count. -/
theorem labels_more (close : TokenKind) (as : List (List Token)) :
    labels (Written.more close as) = labels (Written.list close as) := by
  cases as with
  | nil => rfl
  | cons a as => simp [Written.list, labels_more_cons]

theorem labels_tuple (as : List (List Token)) :
    labels (Written.tuple as) = labels (Written.list .closeParen as) := by
  match as with
  | [] => rfl
  | [only] => simp [Written.tuple, Written.list, Written.more, labels_comma]
  | _ :: _ :: _ => rfl

theorem labels_andAnd :
    (fixed .andAnd).labels = (fixed .ampersand).labels ++ (fixed .ampersand).labels := rfl

/-- Two references written together count as each of them. -/
theorem labels_reference_ty (m : Bool) (a : Ty) (sp : Span) : labels (Ty.reference m a sp).write =
    (fixed .ampersand).labels ++ (labels (Written.flag .kwMut m) ++ labels a.write) := by
  cases m with
  | true => simp [Ty.write]
  | false =>
    cases a with
    | reference m' a' sp' =>
      have inner := labels_reference_ty m' a' sp'
      simp [Ty.write, inner, labels_andAnd, Written.flag]
    | _ => simp [Ty.write, Written.flag]

theorem labels_reference_pattern (m : Bool) (p : Pattern) (sp : Span) :
    labels (Pattern.reference m p sp).write =
      (fixed .ampersand).labels ++ (labels (Written.flag .kwMut m) ++ labels p.write) := by
  cases m with
  | true => simp [Pattern.write]
  | false =>
    cases p with
    | reference m' p' sp' =>
      have inner := labels_reference_pattern m' p' sp'
      simp [Pattern.write, inner, labels_andAnd, Written.flag]
    | _ => simp [Pattern.write, Written.flag]

theorem labels_borrow (m : Bool) (e : Expr) (sp : Span) : labels (Expr.borrow m e sp).write =
    (fixed .ampersand).labels ++ (labels (Written.flag .kwMut m) ++ labels e.write) := by
  cases m with
  | true => simp [Expr.write]
  | false =>
    cases e with
    | borrow m' e' sp' =>
      have inner := labels_borrow m' e' sp'
      simp [Expr.write, inner, labels_andAnd, Written.flag]
    | _ => simp [Expr.write, Written.flag]

theorem Bracket.isMark_closing (br : Bracket) : br.closing.isMark = true := by cases br <;> rfl

theorem isMark_of_mem {k : TokenKind} (h : k ∈ optionalMarks) : k.isMark = true := by
  revert h
  cases k <;> decide

theorem Form.Joined.isMark {k : TokenKind} {form : Form} (h : form.Joined k) : k.isMark = true := by
  obtain ⟨rfl, -⟩ | ⟨rfl, -⟩ := h <;> rfl

theorem kind_ne_eof_of_tier {t : Token} {τ : Tier} (h : t.kind.tier? = some τ) : t.kind ≠ .eof := by
  intro heof
  simp [heof, TokenKind.tier?] at h

theorem kind_ne_eof_of_mem {t : Token} {K : List TokenKind} (h : t.kind ∈ K)
    (hK : .eof ∉ K) : t.kind ≠ .eof :=
  fun heof => hK (heof ▸ h)

variable {resolve : Bool} {σ : Form} {ℓ : Nat} {b : Bool} {x y : Place} {t : σ.Tree}

attribute [local simp] Form.write Path.write FieldValue.write Suffix.write Block.write Stmt.write
attribute [local simp] Link.write Condition.write Conditional.write Otherwise.write Arm.write
attribute [local simp] TypedName.write SelfParam.write FunctionDecl.write ConstantDecl.write
attribute [local simp] Member.write Item.write selfWrites Bracket.closing

/-- Whatever reads labels token by token, up to an end perhaps, finds the labels of the tree before
those of the tokens left. -/
theorem Derives.labels_kept {f : List Token → List Label}
    (hf : ∀ t i, t.kind ≠ .eof → f (t :: i) = t.labels ++ f i) (h : Derives resolve σ ℓ b x t y) :
    f x.rest = labels (σ.write t) ++ f y.rest := by
  have mark {t : Token} {k : TokenKind} (h : t.kind = k) (hk : k.isMark = true)
      (i : List Token) : f (t :: i) = (fixed k).labels ++ f i := by
    have hne : t.kind ≠ .eof := by rintro heof; simp [← h, heof, TokenKind.isMark] at hk
    rw [hf t i hne, labels_eq_fixed h hk]
  have closing {c : Token} {br : Bracket} (h : c.kind = br.closing) (i : List Token) :
      f (c :: i) = (fixed br.closing).labels ++ f i := mark h br.isMark_closing i
  have name {t : Token} (h : t.kind = .identifier) (i : List Token) :
      f (t :: i) = t.labels ++ f i := hf t i (by simp [h])
  have literal {t : Token} (h : t.kind.isLiteral) (i : List Token) :
      f (t :: i) = t.labels ++ f i := hf t i (by rintro heof; simp [heof, TokenKind.isLiteral] at h)
  induction h with
  -- tokens and lists
  | segment h => simp [hf _ _ (kind_ne_eof_of_mem h (by decide))]
  | name h => simp [name h]
  | flagSet hk h => simp [Written.flag, mark h (isMark_of_mem hk)]
  | flagUnset hk h => simp [Written.flag]
  | afterNothing hk h => simp [Written.after]
  | afterSome hk h ha iha => simp [Written.after, mark h (isMark_of_mem hk), iha]
  | eachNil hk h => simp [Written.eachAfter]
  | eachCons hk h ha has iha ihas => simp [ihas, Written.eachAfter, mark h hk.isMark, iha]
  | listNil h => simp [Written.list, closing h]
  | listCons hl h ha has iha ihas => simp [Written.list, iha, ihas]
  | moreNil h => simp [labels_more_nil, closing h]
  | moreComma ht h => simp [labels_more_nil, labels_comma, mark ht rfl, closing h]
  | moreCons hl ht h ha has iha ihas =>
    simp [labels_more_cons, labels_comma, mark ht rfl, iha, ihas]
  | path h hts ihts => simp [hf _ _ (kind_ne_eof_of_mem h (by decide)), ihts]
  -- types
  | tyPath h hp ihp => simp [ihp, Ty.write]
  | tyReference h hm ha ihm iha => simp [labels_reference_ty, mark h rfl, ihm, iha]
  | tyReferences h hm ha ihm iha =>
    simp [labels_reference_ty, Written.flag, labels_andAnd, mark h rfl, ihm, iha]
  | tySlice h ha hc iha => simp [Ty.write, mark h rfl, mark hc rfl, iha]
  | tyArray h ha hs he hc iha ihe => simp [Ty.write, mark h rfl, mark hs rfl, mark hc rfl, iha, ihe]
  | tyUnit h hc => simp [Ty.write, Written.tuple, Written.list, mark h rfl, mark hc rfl]
  | tyParen h ha hc iha => simp [mark h rfl, mark hc rfl, iha, labels_parens]
  | tyTuple h ha hy has iha ihas =>
    simp [Ty.write, labels_tuple, Written.list, mark h rfl, iha, ihas]
  | tyNever h => simp [Ty.write, labels_eq_fixed h rfl, mark h rfl]
  | tyInferred h => simp [Ty.write, labels_eq_fixed h rfl, mark h rfl]
  -- patterns
  | patLiteral h => simp [Pattern.write, Written.flag, literal h]
  | patNegated h hl =>
    have hlit := congrArg TokenKind.isLiteral hl
    simp [Pattern.write, Written.flag, mark h rfl, literal hlit]
  | patWildcard h => simp [Pattern.write, labels_eq_fixed h rfl, mark h rfl]
  | patReference h hm hp ihm ihp => simp [labels_reference_pattern, mark h rfl, ihm, ihp]
  | patReferences h hm hp ihm ihp =>
    simp [labels_reference_pattern, Written.flag, labels_andAnd, mark h rfl, ihm, ihp]
  | patBinding h hr hm ht hs ihr ihm ihs => simp [ihr, ihm, name ht, ihs, Pattern.write]
  | patPath h hp hy ihp => simp [ihp, Pattern.write]
  | patTuple h hp ht hps ihp ihps => simp [ihp, mark ht rfl, ihps, Pattern.write]
  -- terms
  | expr he hs ihe ihs => simp [ihe, ihs, Suffix.write_foldl_attach]
  | suffixesNil h => simp
  | suffixesCons h hτ hs hss ihs ihss => simp [ihs, ihss]
  | termLiteral h => simp [Expr.write, literal h]
  | termPath hp hy ihp => simp [ihp, Expr.write]
  | termStruct hp ht hfs ihp ihfs => simp [ihp, mark ht rfl, ihfs, Expr.write]
  | termUnary h he ihe =>
    have hne := kind_ne_eof_of_mem (K := [.dash, .bang]) (by simpa using h) (by decide)
    simp [Expr.write, hf _ _ hne, ihe]
  | termDeref h he ihe => simp [Expr.write, mark h rfl, ihe]
  | termBorrow h hm he ihm ihe => simp [labels_borrow, mark h rfl, ihm, ihe]
  | termBorrows h hm he ihm ihe =>
    simp [labels_borrow, Written.flag, labels_andAnd, mark h rfl, ihm, ihe]
  | termGrouped h he hc ihe => simp [Expr.write, mark h rfl, mark hc rfl, ihe]
  | termEmptyArray h hc => simp [Expr.write, Written.list, mark h rfl, mark hc rfl]
  | termArray h he hes ihe ihes => simp [Expr.write, Written.list, mark h rfl, ihe, ihes]
  | termRepeat h he hs hl hc ihe ihl =>
    simp [Expr.write, mark h rfl, mark hs rfl, mark hc rfl, ihe, ihl]
  | termUnderscore h => simp [Expr.write, labels_eq_fixed h rfl, mark h rfl]
  | termBreak h hv ihv => simp [Expr.write, mark h rfl, ihv]
  | termContinue h => simp [Expr.write, labels_eq_fixed h rfl, mark h rfl]
  | termReturn h hv ihv => simp [Expr.write, mark h rfl, ihv]
  | termBlock h ihb => simp [ihb, Expr.write]
  | termConst h hb ihb => simp [Expr.write, mark h rfl, ihb]
  | termIf h ihc => simp [ihc, Expr.write]
  | termMatch h he ho has ihe ihas => simp [Expr.write, mark h rfl, mark ho rfl, ihe, ihas]
  | termLoop h hb ihb => simp [Expr.write, mark h rfl, ihb]
  | termWhile h hc hb ihc ihb => simp [Expr.write, mark h rfl, ihc, ihb]
  | fieldLong h hc he ihe => simp [name h, mark hc rfl, ihe]
  | fieldShort h hi => simp [name h]
  | jumpNothing h => simp
  | jumpValue h ihe => simp [ihe]
  -- suffixes
  | sufBinary h hτ he ihe => simp [hf _ _ (kind_ne_eof_of_tier h), ihe]
  | sufAssign h he ihe => simp [mark h rfl, ihe]
  | sufCompound h ht he ihe => simp [hf _ _ (kind_ne_eof_of_tier h), ihe]
  | sufCast h ha iha => simp [mark h rfl, iha]
  | sufCall h hes ihes => simp [mark h rfl, ihes]
  | sufIndex h he hc ihe => simp [mark h rfl, mark hc rfl, ihe]
  | sufField h hf' =>
    have hmem := hf'.imp_right And.left
    have hne := kind_ne_eof_of_mem (K := [.integer, .identifier]) (by simpa using hmem) (by decide)
    simp [mark h rfl, hf _ _ hne]
  | sufMethod h hf' ho hes ihes => simp [mark h rfl, name hf', mark ho rfl, ihes]
  -- blocks and statements
  | stmtExpr h he ihe => simp [ihe]
  | stmtBlockLike h he hy ihe => simp [ihe]
  | stmtMember h he hy hs ihe ihs => simp [ihe, ihs, Suffix.write_foldl_attach]
  | block h hs ihs => simp [mark h rfl, ihs]
  | elementsNil h => simp [mark h rfl]
  | elementsTail h he hc ihe => simp [ihe, mark hc rfl]
  | elementsCons hs hss ihs ihss => simp [ihs, ihss]
  | elementStmt h hs ihs => simp [ihs]
  | elementExpr h he hs ihe => simp [ihe, mark hs rfl, Written.flag]
  | elementBlockLike h he hs hc hb ihe => simp [ihe, Written.flag]
  | stmtEmpty h => simp [mark h rfl]
  | stmtItem h ih => simp [ih]
  | stmtLet h hp ha hv hs ihp iha ihv => simp [mark h rfl, ihp, iha, ihv, mark hs rfl]
  -- conditions and branches
  | linkLet h hp hs hv ihp ihv => simp [mark h rfl, ihp, mark hs rfl, ihv]
  | linkOfLet h ih => simp [ih]
  | linkTest h ihv => simp [ihv]
  | condExpr h ihe => simp [ihe]
  | condLet hl hls ihl ihls => simp [ihl, ihls]
  | conditional h hc hb ho ihc ihb iho => simp [mark h rfl, ihc, ihb, iho]
  | elseNothing h => simp
  | elseIf h hc ihc => simp [mark h rfl, ihc]
  | elseBlock h hb ihb => simp [mark h rfl, ihb]
  | arm hp hg hf' he ihp ihg ihe => simp [ihp, ihg, mark hf' rfl, ihe]
  | armsNil h => simp [mark h rfl]
  | armsComma ha ht has iha ihas => simp [iha, mark ht rfl, labels_comma, ihas]
  | armsBare ha hy hc has iha ihas => simp [iha, labels_comma, ihas]
  -- items
  | typedName h hc ha iha => simp [name h, mark hc rfl, iha]
  | param h hc ha iha => simp [name h, mark hc rfl, iha]
  | selfReference h hm hs ihm => simp [Written.flag, Written.after, mark h rfl, ihm, mark hs rfl]
  | selfValue hm hs ha ihm iha => simp [ihm, mark hs rfl, iha, Written.flag]
  | paramsPlain h ih => simp [ih]
  | paramsSelf h hc ih => simp [ih, mark hc rfl, Written.list, labels_more_nil]
  | paramsMore h ht hps ih ihps =>
    simp [ih, mark ht rfl, ihps, Written.list, labels_comma, labels_more]
  | signature h => simp [mark h rfl]
  | body h ihb => simp [ihb]
  | function hc hf' ht hp hps hr hb ihc ihps ihr ihb =>
    simp [ihc, mark hf' rfl, name ht, mark hp rfl, ihps, ihr, ihb]
  | constant h hc hd ha hv hn hs iha ihv =>
    have hne := kind_ne_eof_of_mem (K := [.identifier, .underscore]) (by simpa using hc) (by decide)
    simp [mark h rfl, hf _ _ hne, mark hd rfl, iha, ihv, mark hs rfl]
  | memberFunction h ih => simp [ih]
  | memberConstant h ih => simp [ih]
  | membersNil h => simp [mark h rfl]
  | membersCons ha has iha ihas => simp [iha, ihas]
  | itemFunction h ih => simp [ih]
  | itemConstant h ih => simp [ih]
  | itemUnit h hc hs => simp [mark h rfl, name hc, mark hs rfl]
  | itemStruct h hc ho hfs ihfs => simp [mark h rfl, name hc, mark ho rfl, ihfs]
  | itemEnum h hc ho hvs ihvs => simp [mark h rfl, name hc, mark ho rfl, ihvs]
  | itemTrait h hc ho hms ihms => simp [mark h rfl, name hc, mark ho rfl, ihms]
  | itemImpl h hi ha ho hms iha ihms => simp [mark h rfl, iha, mark ho rfl, ihms]
  | itemImplFor h hc hf' ha ho hms iha ihms =>
    simp [mark h rfl, name hc, mark hf' rfl, iha, mark ho rfl, ihms]
  | declaredItem h ih => simp [ih]
  | itemsNil h => simp
  | itemsCons ha has iha ihas => simp [iha, ihas]

/-- Tokens are passed in order and never put back. -/
theorem ahead_suffix_invariant (options : ParseOptions) :
    Invariant options fun s t => t.cursor.ahead <:+ s.cursor.ahead where
  refl _ := List.suffix_refl _
  trans _ _ _ h h' := h'.trans h
  act a s := by
    cases a with
    | take =>
      obtain ⟨n, ⟨passed, _ | ⟨t, ts⟩, beyond, file⟩, depth, allowed⟩ := s
      · exact List.suffix_refl _
      · exact List.suffix_cons t ts
    | _ => exact List.suffix_refl _
  nested _ h := h
  inScope h := h
  structLiterals _ h := h

/-- The tokens passed from one session to the next have the labels of some written tokens. -/
def Session.Passes (s t : Session) (written : List Token) : Prop :=
  ∃ passed, s.state.cursor.ahead = passed ++ t.state.cursor.ahead ∧ labels passed = labels written

theorem Phrase.Sound.passes {σ : Form} {p : Phrase σ.Tree} {s : Session} {a : σ.Tree}
    (hp : p.Sound s.options s.options.maxDepth σ) (h : (s.read p).1 = .ok a) :
    s.Passes (s.read p).2 (σ.write a) := by
  have hsuffix : (s.read p).2.state.cursor.ahead <:+ s.state.cursor.ahead :=
    s.state_read p ▸ (ahead_suffix_invariant s.options).read p s.state
  obtain ⟨passed, hpassed⟩ := hsuffix
  have hkept : labels s.state.cursor.ahead =
      labels (σ.write a) ++ labels (s.read p).2.state.cursor.ahead :=
    (Session.read_sound hp h).labels_kept fun _ _ _ => rfl
  refine ⟨passed, hpassed.symm, ?_⟩
  rw [← hpassed, labels_append] at hkept
  exact List.append_cancel_right hkept

/-- The tokens before the first end. -/
def beforeEnd (tokens : List Token) : List Token := tokens.takeWhile (·.kind ≠ .eof)

/-- No token is lost, doubled or moved. The tokens of a file up to the first end have the labels of
its tree, and so have the tokens passed when an expression, a type, a pattern, an item or a block is
read from a session. -/
theorem tokens_kept :
    (∀ tokens file options c t, parse tokens file options = .ok c t →
      labels (beforeEnd tokens) = labels c.write) ∧
    ∀ s : Session,
      (∀ above e, (s.read (Grammar.expr above)).1 = .ok e →
        s.Passes (s.read (Grammar.expr above)).2 e.write) ∧
      (∀ t, (s.read Grammar.ty).1 = .ok t → s.Passes (s.read Grammar.ty).2 t.write) ∧
      (∀ p, (s.read Grammar.pattern).1 = .ok p → s.Passes (s.read Grammar.pattern).2 p.write) ∧
      (∀ i, (s.read Grammar.item).1 = .ok i → s.Passes (s.read Grammar.item).2 i.write) ∧
      (∀ b, (s.read Grammar.block).1 = .ok b → s.Passes (s.read Grammar.block).2 b.write) := by
  refine ⟨fun tokens file options c t h => ?_, fun s => ?_⟩
  · obtain ⟨hd, hend⟩ := parse_sound h
    have hf (t : Token) (i : List Token) (ht : t.kind ≠ .eof) :
        labels (beforeEnd (t :: i)) = t.labels ++ labels (beforeEnd i) := by
      simp [beforeEnd, ht]
    have hrest : beforeEnd t.place.rest = [] := by
      cases hi : t.place.rest with
      | nil => rfl
      | cons u i =>
        have hu : u.kind = .eof := by simpa [Place.kind, hi] using hend
        simp [beforeEnd, hu]
    have hkept := hd.labels_kept (f := fun i => labels (beforeEnd i)) hf
    simpa [hrest, Form.write, Crate.write] using hkept
  · have G := Goal.sound s.options s.options.maxDepth
    exact ⟨fun above e => Phrase.Sound.passes (G.expr above),
      fun t => Phrase.Sound.passes (Grammar.sound_ty G), fun p => Phrase.Sound.passes G.pattern,
      fun i => Phrase.Sound.passes (Grammar.sound_item G), fun b => Phrase.Sound.passes G.block⟩

/-- A constant with its type in parentheses and two references. -/
theorem tokens_kept_constant :
    let tokens := [TokenKind.kwConst, .underscore, .colon, .openParen, .andAnd, .bang, .closeParen,
      .assignment, .ampersand, .ampersand, .kwBreak, .semicolon].map Token.fixed
    ∃ c t, parse tokens "t" ⟨4, true⟩ = .ok c t ∧ labels (beforeEnd tokens) = labels c.write := by
  intro tokens
  obtain ⟨c, t, h, -⟩ := exists_ok_of_succeeds (r := parse tokens "t" ⟨4, true⟩)
    (P := fun _ _ => true) (by decide +kernel)
  exact ⟨c, t, h, tokens_kept.1 tokens "t" ⟨4, true⟩ c t h⟩

end FrontEnd
