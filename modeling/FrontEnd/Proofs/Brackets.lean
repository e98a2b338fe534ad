import FrontEnd.Proofs.Derivation
/-!
# Brackets and the extent of a type

What stands between two brackets that belong together has brackets that belong together itself. So
one need not read a type to know where it ends: behind its marks stands a word, a path or a pair of
brackets with anything between them.
-/
namespace FrontEnd

def TokenKind.opens (k : TokenKind) : Bool := k ∈ [openParen, openBracket, openCurly]

def TokenKind.closes (k : TokenKind) : Bool := k ∈ [closeParen, closeBracket, closeCurly]

/-- What follows once some open brackets have been closed. -/
def afterClosing : (opened : Nat) → List Token → List Token
  | 0, i => i
  | _ + 1, [] => []
  | d + 1, t :: i =>
    if t.kind.opens then afterClosing (d + 2) i
    else if t.kind.closes then afterClosing d i
    else afterClosing (d + 1) i

def afterWords : List Token → List Token
  | t :: w :: i => if t.kind = .pathSep then afterWords i else t :: w :: i
  | i => i

def afterType : List Token → List Token
  | [] => []
  | t :: i =>
    if t.kind ∈ [.ampersand, .andAnd, .kwMut] then afterType i
    else if t.kind.opens then afterClosing 1 i
    else if t.kind ∈ Grammar.pathSegments then afterWords i
    else i

variable {resolve : Bool} {σ : Form} {ℓ d : Nat} {b : Bool} {x y : Place} {t : σ.Tree}

@[simp] theorem afterClosing_zero (i : List Token) : afterClosing 0 i = i := by
  cases i <;> rfl

theorem afterClosing_open {t : Token} (h : t.kind.opens = true) (i : List Token) :
    afterClosing (d + 1) (t :: i) = afterClosing (d + 2) i := by
  rw [afterClosing, if_pos h]

theorem afterClosing_close {t : Token} (h : t.kind.closes = true) (i : List Token) :
    afterClosing (d + 1) (t :: i) = afterClosing d i := by
  have hopens : t.kind.opens = false := by
    revert h
    generalize t.kind = k
    cases k <;> decide
  simp [afterClosing, hopens, h]

def TokenKind.plain (k : TokenKind) : Bool := !k.opens && !k.closes

theorem afterClosing_plain {t : Token} (h : t.kind.plain = true) (i : List Token) :
    afterClosing (d + 1) (t :: i) = afterClosing (d + 1) i := by
  simp only [TokenKind.plain, Bool.and_eq_true, Bool.not_eq_true'] at h
  simp [afterClosing, h.1, h.2]

theorem plain_of_mem {K : List TokenKind} {k : TokenKind} (h : k ∈ K)
    (hK : K.all TokenKind.plain = true) : k.plain = true :=
  List.all_eq_true.mp hK k h

theorem plain_of_isLiteral {k : TokenKind} (h : k.isLiteral = true) : k.plain = true :=
  plain_of_mem (K := [.integer, .char, .string, .kwTrue, .kwFalse])
    (by simpa [TokenKind.isLiteral] using h) rfl

theorem plain_of_tier {k : TokenKind} {τ : Tier} (h : k.tier? = some τ)
    (hτ : τ ∉ [Tier.call, .member]) : k.plain = true := by
  cases k <;> cases h <;> first | rfl | exact absurd hτ (by decide)

theorem Bracket.closes_closing (br : Bracket) : br.closing.closes = true := by cases br <;> rfl

/-- How many brackets that were opened before it a form closes. -/
def Form.closed? : Form → Option Nat
  | list _ _ | more _ _ | elements | arms | params | members _ => some 1
  | after _ form => if form.closed? = some 0 then some 0 else none
  | _ => some 0

theorem Form.Listed.closed {σ : Form} (h : σ.Listed) : σ.closed? = some 0 := by
  cases σ <;> first | rfl | exact h.elim

theorem Form.Joined.closed {σ : Form} {k : TokenKind} (h : σ.Joined k) : σ.closed? = some 0 := by
  obtain ⟨-, rfl⟩ | ⟨-, rfl⟩ := h <;> rfl

theorem Form.Joined.plain {σ : Form} {k : TokenKind} (h : σ.Joined k) : k.plain = true := by
  obtain ⟨rfl, -⟩ | ⟨rfl, -⟩ := h <;> rfl

/-- Brackets are opened and closed in pairs. A form that goes on to a closing bracket closes one that
was open before. -/
theorem Derives.afterClosing_eq {c : Nat} (h : Derives resolve σ ℓ b x t y)
    (hc : σ.closed? = some c) (d : Nat) :
    afterClosing (d + 1) x.rest = afterClosing (d + 1 - c) y.rest := by
  have plain {t : Token} {k : TokenKind} (h : t.kind = k) (hk : k.plain = true)
      (d : Nat) (i : List Token) : afterClosing (d + 1) (t :: i) = afterClosing (d + 1) i :=
    afterClosing_plain (h ▸ hk) i
  have opening {t : Token} {k : TokenKind} (h : t.kind = k) (hk : k.opens = true)
      (d : Nat) (i : List Token) : afterClosing (d + 1) (t :: i) = afterClosing (d + 2) i :=
    afterClosing_open (h ▸ hk) i
  have closing {t : Token} {k : TokenKind} (h : t.kind = k) (hk : k.closes = true)
      (d : Nat) (i : List Token) : afterClosing (d + 1) (t :: i) = afterClosing d i :=
    afterClosing_close (h ▸ hk) i
  have bracket {t : Token} {br : Bracket} (h : t.kind = br.closing) (d : Nat) (i : List Token) :
      afterClosing (d + 1) (t :: i) = afterClosing d i := closing h br.closes_closing d i
  induction h generalizing c d with
  -- tokens and lists
  | segment h => cases hc; exact afterClosing_plain (plain_of_mem h rfl) _
  | name h => cases hc; exact plain h rfl d _
  | flagSet hk h => cases hc; exact plain h (plain_of_mem hk rfl) d _
  | flagUnset hk h => cases hc; rfl
  | afterNothing hk h =>
    simp only [Form.closed?] at hc
    split at hc <;> cases hc
    rfl
  | afterSome hk h ha iha =>
    simp only [Form.closed?] at hc
    split at hc <;> cases hc
    next hform => simp [plain h (plain_of_mem hk rfl), iha hform]
  | eachNil hk h => cases hc; rfl
  | eachCons hk h ha has iha ihas =>
    cases hc
    simp [plain h hk.plain, iha hk.closed, ihas rfl]
  | listNil h => cases hc; exact bracket h d _
  | listCons hl h ha has iha ihas => cases hc; simp [iha hl.closed, ihas rfl]
  | moreNil h => cases hc; exact bracket h d _
  | moreComma ht h => cases hc; simp [plain ht rfl, bracket h]
  | moreCons hl ht h ha has iha ihas => cases hc; simp [plain ht rfl, iha hl.closed, ihas rfl]
  | path h hts ihts => cases hc; simp [afterClosing_plain (plain_of_mem h rfl), ihts rfl]
  -- types
  | tyPath h hp ihp => exact ihp hc d
  | tyReference h hm ha ihm iha => cases hc; simp [plain h rfl, ihm rfl, iha rfl]
  | tyReferences h hm ha ihm iha => cases hc; simp [plain h rfl, ihm rfl, iha rfl]
  | tySlice h ha hc' iha => cases hc; simp [opening h rfl, iha rfl, closing hc' rfl]
  | tyArray h ha hs he hc' iha ihe =>
    cases hc
    simp [opening h rfl, iha rfl, plain hs rfl, ihe rfl, closing hc' rfl]
  | tyUnit h hc' => cases hc; simp [opening h rfl, closing hc' rfl]
  | tyParen h ha hc' iha => cases hc; simp [opening h rfl, iha rfl, closing hc' rfl]
  | tyTuple h ha hy has iha ihas => cases hc; simp [opening h rfl, iha rfl, ihas rfl]
  | tyNever h => cases hc; exact plain h rfl d _
  | tyInferred h => cases hc; exact plain h rfl d _
  -- patterns
  | patLiteral h =>
    cases hc
    exact afterClosing_plain (plain_of_isLiteral h) _
  | patNegated h hl => cases hc; simp [plain h rfl, plain hl rfl]
  | patWildcard h => cases hc; exact plain h rfl d _
  | patReference h hm hp ihm ihp => cases hc; simp [plain h rfl, ihm rfl, ihp rfl]
  | patReferences h hm hp ihm ihp => cases hc; simp [plain h rfl, ihm rfl, ihp rfl]
  | patBinding h hr hm ht hs ihr ihm ihs => cases hc; simp [ihr rfl, ihm rfl, plain ht rfl, ihs rfl]
  | patPath h hp hy ihp => exact ihp hc d
  | patTuple h hp ht hps ihp ihps => cases hc; simp [ihp rfl, opening ht rfl, ihps rfl]
  -- terms
  | expr he hs ihe ihs => cases hc; simp [ihe rfl, ihs rfl]
  | suffixesNil h => cases hc; rfl
  | suffixesCons h hτ hs hss ihs ihss => cases hc; simp [ihs rfl, ihss rfl]
  | termLiteral h =>
    cases hc
    exact afterClosing_plain (plain_of_isLiteral h) _
  | termPath hp hy ihp => exact ihp hc d
  | termStruct hp ht hfs ihp ihfs => cases hc; simp [ihp rfl, opening ht rfl, ihfs rfl]
  | termUnary h he ihe =>
    cases hc
    simp [afterClosing_plain (plain_of_mem (K := [.dash, .bang]) (by simpa using h) rfl), ihe rfl]
  | termDeref h he ihe => cases hc; simp [plain h rfl, ihe rfl]
  | termBorrow h hm he ihm ihe => cases hc; simp [plain h rfl, ihm rfl, ihe rfl]
  | termBorrows h hm he ihm ihe => cases hc; simp [plain h rfl, ihm rfl, ihe rfl]
  | termGrouped h he hc' ihe => cases hc; simp [opening h rfl, ihe rfl, closing hc' rfl]
  | termEmptyArray h hc' => cases hc; simp [opening h rfl, closing hc' rfl]
  | termArray h he hes ihe ihes => cases hc; simp [opening h rfl, ihe rfl, ihes rfl]
  | termRepeat h he hs hl hc' ihe ihl =>
    cases hc
    simp [opening h rfl, ihe rfl, plain hs rfl, ihl rfl, closing hc' rfl]
  | termUnderscore h => cases hc; exact plain h rfl d _
  | termBreak h hv ihv => cases hc; simp [plain h rfl, ihv rfl]
  | termContinue h => cases hc; exact plain h rfl d _
  | termReturn h hv ihv => cases hc; simp [plain h rfl, ihv rfl]
  | termBlock h ihb => exact ihb hc d
  | termConst h hb ihb => cases hc; simp [plain h rfl, ihb rfl]
  | termIf h ihc => exact ihc hc d
  | termMatch h he ho has ihe ihas => cases hc; simp [plain h rfl, ihe rfl, opening ho rfl, ihas rfl]
  | termLoop h hb ihb => cases hc; simp [plain h rfl, ihb rfl]
  | termWhile h hc' hb ihc ihb => cases hc; simp [plain h rfl, ihc rfl, ihb rfl]
  | fieldLong h hc' he ihe => cases hc; simp [plain h rfl, plain hc' rfl, ihe rfl]
  | fieldShort h hi => cases hc; exact plain h rfl d _
  | jumpNothing h => cases hc; rfl
  | jumpValue h ihe => exact ihe hc d
  -- suffixes
  | sufBinary h hτ he ihe =>
    cases hc
    have hplain := plain_of_tier h fun hmem => hτ (by simp_all)
    simp [afterClosing_plain hplain, ihe rfl]
  | sufAssign h he ihe => cases hc; simp [plain h rfl, ihe rfl]
  | sufCompound h ht he ihe =>
    cases hc
    simp [afterClosing_plain (plain_of_tier h (by decide)), ihe rfl]
  | sufCast h ha iha => cases hc; simp [plain h rfl, iha rfl]
  | sufCall h hes ihes => cases hc; simp [opening h rfl, ihes rfl]
  | sufIndex h he hc' ihe => cases hc; simp [opening h rfl, ihe rfl, closing hc' rfl]
  | sufField h hf =>
    cases hc
    have hmem := hf.imp_right And.left
    have hname := plain_of_mem (K := [.integer, .identifier]) (by simpa using hmem) rfl
    simp [plain h rfl, afterClosing_plain hname]
  | sufMethod h hf ho hes ihes => cases hc; simp [plain h rfl, plain hf rfl, opening ho rfl, ihes rfl]
  -- blocks and statements
  | stmtExpr h he ihe => exact ihe hc d
  | stmtBlockLike h he hy ihe => exact ihe hc d
  | stmtMember h he hy hs ihe ihs => cases hc; simp [ihe rfl, ihs rfl]
  | block h hs ihs => cases hc; simp [opening h rfl, ihs rfl]
  | elementsNil h => cases hc; exact closing h rfl d _
  | elementsTail h he hc' ihe => cases hc; simp [ihe rfl, closing hc' rfl]
  | elementsCons hs hss ihs ihss => cases hc; simp [ihs rfl, ihss rfl]
  | elementStmt h hs ihs => exact ihs hc d
  | elementExpr h he hs ihe => cases hc; simp [ihe rfl, plain hs rfl]
  | elementBlockLike h he hs hc' hb ihe => exact ihe hc d
  | stmtEmpty h => cases hc; exact plain h rfl d _
  | stmtItem h ih => exact ih hc d
  | stmtLet h hp ha hv hs ihp iha ihv =>
    cases hc
    simp [plain h rfl, ihp rfl, iha rfl, ihv rfl, plain hs rfl]
  -- conditions and branches
  | linkLet h hp hs hv ihp ihv => cases hc; simp [plain h rfl, ihp rfl, plain hs rfl, ihv rfl]
  | linkOfLet h ih => exact ih hc d
  | linkTest h ihv => exact ihv hc d
  | condExpr h ihe => exact ihe hc d
  | condLet hl hls ihl ihls => cases hc; simp [ihl rfl, ihls rfl]
  | conditional h hc' hb ho ihc ihb iho => cases hc; simp [plain h rfl, ihc rfl, ihb rfl, iho rfl]
  | elseNothing h => cases hc; rfl
  | elseIf h hc' ihc => cases hc; simp [plain h rfl, ihc rfl]
  | elseBlock h hb ihb => cases hc; simp [plain h rfl, ihb rfl]
  | arm hp hg hf he ihp ihg ihe => cases hc; simp [ihp rfl, ihg rfl, plain hf rfl, ihe rfl]
  | armsNil h => cases hc; exact closing h rfl d _
  | armsComma ha ht has iha ihas => cases hc; simp [iha rfl, plain ht rfl, ihas rfl]
  | armsBare ha hy hc' has iha ihas => cases hc; simp [iha rfl, ihas rfl]
  -- items
  | typedName h hc' ha iha => cases hc; simp [plain h rfl, plain hc' rfl, iha rfl]
  | param h hc' ha iha => cases hc; simp [plain h rfl, plain hc' rfl, iha rfl]
  | selfReference h hm hs ihm => cases hc; simp [plain h rfl, ihm rfl, plain hs rfl]
  | selfValue hm hs ha ihm iha => cases hc; simp [ihm rfl, plain hs rfl, iha rfl]
  | paramsPlain h ih => exact ih hc d
  | paramsSelf h hc' ih => cases hc; simp [ih rfl, closing hc' rfl]
  | paramsMore h ht hps ih ihps => cases hc; simp [ih rfl, plain ht rfl, ihps rfl]
  | signature h => cases hc; exact plain h rfl d _
  | body h ihb => exact ihb hc d
  | function hc' hf ht hp hps hr hb ihc ihps ihr ihb =>
    cases hc
    simp [ihc rfl, plain hf rfl, plain ht rfl, opening hp rfl, ihps rfl, ihr rfl, ihb rfl]
  | constant h hc' hd ha hv hn hs iha ihv =>
    cases hc
    have hname := plain_of_mem (K := [.identifier, .underscore]) (by simpa using hc') rfl
    simp [plain h rfl, afterClosing_plain hname, plain hd rfl, iha rfl, ihv rfl, plain hs rfl]
  | memberFunction h ih => exact ih hc d
  | memberConstant h ih => exact ih hc d
  | membersNil h => cases hc; exact closing h rfl d _
  | membersCons ha has iha ihas => cases hc; simp [iha rfl, ihas rfl]
  | itemFunction h ih => exact ih hc d
  | itemConstant h ih => exact ih hc d
  | itemUnit h hc' hs => cases hc; simp [plain h rfl, plain hc' rfl, plain hs rfl]
  | itemStruct h hc' ho hfs ihfs =>
    cases hc
    simp [plain h rfl, plain hc' rfl, opening ho rfl, ihfs rfl]
  | itemEnum h hc' ho hvs ihvs =>
    cases hc
    simp [plain h rfl, plain hc' rfl, opening ho rfl, ihvs rfl]
  | itemTrait h hc' ho hms ihms =>
    cases hc
    simp [plain h rfl, plain hc' rfl, opening ho rfl, ihms rfl]
  | itemImpl h hi ha ho hms iha ihms =>
    cases hc
    simp [plain h rfl, iha rfl, opening ho rfl, ihms rfl]
  | itemImplFor h hc' hf ha ho hms iha ihms =>
    cases hc
    simp [plain h rfl, plain hc' rfl, plain hf rfl, iha rfl, opening ho rfl, ihms rfl]
  | declaredItem h ih => exact ih hc d
  | itemsNil h => cases hc; rfl
  | itemsCons ha has iha ihas => cases hc; simp [iha rfl, ihas rfl]

theorem Derives.afterWords_eq {ts : List Token}
    (h : Derives resolve (.eachAfter .pathSep .segment) ℓ b x ts y) : afterWords x.rest = y.rest := by
  induction ts generalizing x with
  | nil =>
    obtain ⟨i, n⟩ := x
    cases h with
    | eachNil hk h =>
      match i with
      | [] | [_] => rfl
      | t :: w :: i => exact if_neg h
  | cons w ts ih =>
    cases h with
    | eachCons hk h ha has =>
      cases ha with
      | segment _ =>
        rw [afterWords, if_pos h]
        exact ih has

theorem Derives.afterType_path {p : Path} (h : Derives resolve .path ℓ b x p y)
    (hx : x.kind = .identifier ∨ x.kind = .kwSelfType) : afterType x.rest = y.rest := by
  cases h with
  | path _ hts =>
    have hkind : TokenKind.identifier ∈ Grammar.pathSegments ∧ .kwSelfType ∈ Grammar.pathSegments := by
      decide
    simp only [Place.kind_mk, kindAt_zero] at hx
    rcases hx with hx | hx <;> simp [afterType, hx, TokenKind.opens, hkind, hts.afterWords_eq]

theorem afterType_of_opens {t : Token} (h : t.kind.opens = true) (i : List Token) :
    afterType (t :: i) = afterClosing 1 i := by
  have hmark : t.kind ∉ [TokenKind.ampersand, .andAnd, .kwMut] := by
    revert h
    generalize t.kind = k
    cases k <;> decide
  rw [afterType, if_neg hmark, if_pos h]

theorem Derives.afterType_mut {m : Bool} (h : Derives resolve (.flag .kwMut) ℓ b x m y) :
    afterType x.rest = afterType y.rest := by
  cases h with
  | flagSet _ h => simp [afterType, h]
  | flagUnset _ _ => rfl

/-- The extent of a type shows in its tokens. -/
theorem Derives.afterType_eq {a : Ty} (h : Derives resolve .ty ℓ b x a y) :
    afterType x.rest = y.rest := by
  have enclosed {t : Token} {k : TokenKind} (h : t.kind = k) (hk : k.opens = true)
      (i : List Token) : afterType (t :: i) = afterClosing 1 i := afterType_of_opens (h ▸ hk) i
  have plain {t : Token} {k : TokenKind} (h : t.kind = k) (hk : k.plain = true)
      (i : List Token) : afterClosing 1 (t :: i) = afterClosing 1 i := afterClosing_plain (h ▸ hk) i
  have closing {t : Token} {k : TokenKind} (h : t.kind = k) (hk : k.closes = true)
      (i : List Token) : afterClosing 1 (t :: i) = i :=
    (afterClosing_close (h ▸ hk) i).trans (afterClosing_zero i)
  have inner {σ : Form} {t : σ.Tree} {ℓ : Nat} {b : Bool} {x y : Place}
      (h : Derives resolve σ ℓ b x t y) (hσ : σ.closed? = some 0) :
      afterClosing 1 x.rest = afterClosing 1 y.rest := h.afterClosing_eq hσ 0
  induction ℓ generalizing x a with
  | zero => cases h
  | succ ℓ ih =>
    cases h with
    | tyPath h hp => exact hp.afterType_path h
    | tyReference h hm ha => simp [afterType, h, hm.afterType_mut, ih ha]
    | tyReferences h hm ha => simp [afterType, h, hm.afterType_mut, ih ha]
    | tySlice h ha hc => simp [enclosed h rfl, inner ha rfl, closing hc rfl]
    | tyArray h ha hs he hc =>
      simp [enclosed h rfl, inner ha rfl, plain hs rfl, inner he rfl, closing hc rfl]
    | tyUnit h hc => simp [enclosed h rfl, closing hc rfl]
    | tyParen h ha hc => simp [enclosed h rfl, inner ha rfl, closing hc rfl]
    | tyTuple h ha hy has =>
      have hmore := (has.afterClosing_eq rfl 0).trans (afterClosing_zero y.rest)
      simp [enclosed h rfl, inner ha rfl, hmore]
    | tyNever h => simp [afterType, h, TokenKind.opens, Grammar.pathSegments]
    | tyInferred h => simp [afterType, h, TokenKind.opens, Grammar.pathSegments]

end FrontEnd
