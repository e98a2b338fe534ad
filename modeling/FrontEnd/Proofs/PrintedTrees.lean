import FrontEnd.Proofs.LiteralNodes
import FrontEnd.Proofs.PrintedItems
/-!
# The text of an item determines the item

The tokens of a derived tree are lexemes of the source, so by induction on the derivation the tree is
read back from what is printed for it. Two items with the same text are therefore the same, but for
what does not show.
-/
namespace FrontEnd

open Grammar (pathSegments)

/-- What is derived is read back. A suffix is if it keeps expressions so. -/
def Form.Printed : (σ : Form) → σ.Tree → Prop
  | segment, t => t.Spelt ∧ t.kind ∈ pathSegments
  | name, t => t.Spelt ∧ t.kind = .identifier
  | flag _, _ => True
  | after _ form, a => ∀ t ∈ a, form.Printed t
  | eachAfter _ form, as | list _ form, as | more _ form, as => ∀ a ∈ as, form.Printed a
  | path, p => p.Spelt
  | ty, a => a.Printed
  | pattern, p => p.Printed
  | expr _, e | term, e | statementExpr, e => e.Printed
  | suffix, s => ∀ e : Expr, e.Printed → (s.attach e).Printed
  | suffixes _, ss => ∀ e : Expr, e.Printed → (ss.foldl Suffix.attach e).Printed
  | field, f => f.Printed
  | jumpValue, v => ∀ e ∈ v, e.Printed
  | block, b => b.Printed
  | element, s | statement, s => s.Printed
  | elements, (ss, v) => (∀ s ∈ ss, s.Printed) ∧ ∀ e ∈ v, e.Printed
  | letLink, l | link, l => l.Printed
  | condition, c => c.Printed
  | conditional, c => (Expr.conditional c).Printed
  | otherwise, o => o.Printed
  | arm, a => a.Printed
  | arms, as => ∀ a ∈ as, a.Printed
  | typedName, n | param, n => n.Printed
  | selfParam, s => s.Printed
  | params, (s, ps) => (∀ x ∈ s, x.Printed) ∧ ∀ n ∈ ps, n.Printed
  | body _, b => ∀ x ∈ b, x.Printed
  | function _, f => f.Printed
  | constant _, c => c.Printed
  | member _, m => m.Printed
  | members _, ms => ∀ m ∈ ms, m.Printed
  | item, i | declaredItem, i => i.Printed
  | items, is => ∀ i ∈ is, i.Printed

variable {resolve : Bool} {ℓ : Nat} {b : Bool} {x y : Place} {tokens : List Token} {σ : Form}
  {t : σ.Tree}

/-- A tree that is derived from lexemes is read back from its s-expression. -/
theorem Derives.printed (hlexemes : ∀ t ∈ tokens, t.kind ≠ .eof → t.Spelt)
    (h : Derives resolve σ ℓ b x t y) (hx : x.Of tokens) : σ.Printed t := by
  -- the first token ahead, which is of one of some kinds
  have spelt {t : Token} {i : List Token} {n : Names} (ks : List TokenKind)
      (hx : (Place.mk (t :: i) n).Of tokens) (hks : t.kind ∈ ks) (heof : .eof ∉ ks) : t.Spelt :=
    hlexemes t (hx.subset List.mem_cons_self) fun hk => heof (hk ▸ hks)
  have one {t : Token} {i : List Token} {n : Names} {k : TokenKind}
      (hx : (Place.mk (t :: i) n).Of tokens) (hk : t.kind = k) (heof : .eof ≠ k) : t.Spelt :=
    spelt [k] hx (by simp [hk]) (by simpa using heof)
  -- a part that may be left out
  have nothing {α : Type} {P : α → Prop} : ∀ b ∈ (none : Option α), P b := by
    rintro _ ⟨⟩
  have lone {α : Type} {P : α → Prop} {a : α} (ha : P a) : ∀ b ∈ some a, P b := by
    rintro _ ⟨⟩
    exact ha
  induction h with
  -- tokens and lists
  | segment h => exact ⟨spelt _ hx h (by decide), h⟩
  | name h => exact ⟨one hx h (by decide), h⟩
  | flagSet _ _ => trivial
  | flagUnset _ _ => trivial
  | afterNothing _ _ => exact nothing
  | afterSome hk h ha iha => exact lone (iha hx.next)
  | eachNil _ _ => exact List.forall_mem_nil _
  | eachCons hk h ha has iha ihas =>
    exact List.forall_mem_cons.2 ⟨iha hx.next, ihas (ha.place_of hx.next)⟩
  | listNil _ => exact List.forall_mem_nil _
  | listCons hl h ha has iha ihas => exact List.forall_mem_cons.2 ⟨iha hx, ihas (ha.place_of hx)⟩
  | moreNil _ => exact List.forall_mem_nil _
  | moreComma _ _ => exact List.forall_mem_nil _
  | moreCons hl ht h ha has iha ihas =>
    exact List.forall_mem_cons.2 ⟨iha hx.next, ihas (ha.place_of hx.next)⟩
  | path h hts ihts =>
    exact ⟨List.cons_ne_nil _ _, List.forall_mem_cons.2 ⟨⟨spelt _ hx h (by decide), h⟩, ihts hx.next⟩⟩
  -- types
  | tyPath h hp ihp => exact .path (ihp hx)
  | tyReference h hm ha ihm iha => exact .reference (iha (hm.place_of hx.next))
  | tyReferences h hm ha ihm iha => exact .reference (.reference (iha (hm.place_of hx.next)))
  | tySlice h ha hc iha => exact .slice (iha hx.next)
  | tyArray h ha hs he hc iha ihe => exact .array (iha hx.next) (ihe (ha.place_of hx.next).next)
  | tyUnit h hc => exact .tuple (List.forall_mem_nil _)
  | tyParen h ha hc iha => exact iha hx.next
  | tyTuple h ha hy has iha ihas =>
    exact .tuple (List.forall_mem_cons.2 ⟨iha hx.next, ihas (ha.place_of hx.next)⟩)
  | tyNever h => exact .never (one hx h (by decide)) h
  | tyInferred h => exact .inferred (one hx h (by decide)) h
  -- patterns
  | patLiteral h => exact .literal (spelt _ hx (TokenKind.mem_literalKinds h) (by decide)) h
  | patNegated h hl => exact .negated (one hx.next hl (by decide)) hl
  | patWildcard h => exact .wildcard (one hx h (by decide)) h
  | patReference h hm hp ihm ihp => exact .reference (ihp (hm.place_of hx.next))
  | patReferences h hm hp ihm ihp => exact .reference (.reference (ihp (hm.place_of hx.next)))
  | patBinding h hr hm ht hs ihr ihm ihs =>
    have hname := hm.place_of (hr.place_of hx)
    exact .binding (one hname ht (by decide)) ht (ihs hname.next)
  | patPath h hp hy ihp => exact .path (ihp hx)
  | patTuple h hp ht hps ihp ihps => exact .tupleStruct (ihp hx) (ihps (hp.place_of hx).next)
  -- terms
  | expr he hs ihe ihs => exact ihs (he.place_of hx) _ (ihe hx)
  | suffixesNil _ => exact fun e he => he
  | suffixesCons h hτ hs hss ihs ihss => exact fun e he => ihss (hs.place_of hx) _ (ihs hx e he)
  | termLiteral h => exact .literal (spelt _ hx (TokenKind.mem_literalKinds h) (by decide)) h
  | termPath hp hy ihp => exact .path (ihp hx)
  | termStruct hp ht hfs ihp ihfs => exact .structLiteral (ihp hx) (ihfs (hp.place_of hx).next)
  | termUnary h he ihe =>
    exact .unary (spelt [.dash, .bang] hx (by simpa using h) (by decide)) h (ihe hx.next)
  | termDeref h he ihe => exact .deref (ihe hx.next)
  | termBorrow h hm he ihm ihe => exact .borrow (ihe (hm.place_of hx.next))
  | termBorrows h hm he ihm ihe => exact .borrow (.borrow (ihe (hm.place_of hx.next)))
  | termGrouped h he hc ihe => exact .grouped (ihe hx.next)
  | termEmptyArray h hc => exact .array (List.forall_mem_nil _)
  | termArray h he hes ihe ihes =>
    exact .array (List.forall_mem_cons.2 ⟨ihe hx.next, ihes (he.place_of hx.next)⟩)
  | termRepeat h he hs hl hc ihe ihl =>
    exact .arrayRepeat (ihe hx.next) (ihl (he.place_of hx.next).next)
  | termUnderscore h => exact .underscore (one hx h (by decide)) h
  | termBreak h hv ihv => exact .breakLoop (ihv hx.next)
  | termContinue h => exact .continueLoop (one hx h (by decide)) h
  | termReturn h hv ihv => exact .returnValue (ihv hx.next)
  | termBlock h ihb => exact (ihb hx).expr
  | termConst h hb ihb => exact .constBlock (ihb hx.next)
  | termIf h ihc => exact ihc hx
  | termMatch h he ho has ihe ihas => exact .matching (ihe hx.next) (ihas (he.place_of hx.next).next)
  | termLoop h hb ihb => exact .loop (ihb hx.next)
  | termWhile h hc hb ihc ihb => exact .whileLoop (ihc hx.next) (ihb (hc.place_of hx.next))
  | fieldLong h hc he ihe => exact FieldValue.printed (one hx h (by decide)) h (ihe hx.next.next)
  | fieldShort h hi =>
    have ht := one hx h (by decide)
    exact FieldValue.printed ht h (.path (.ofToken ht (by simp [h, pathSegments])))
  | jumpNothing _ => exact nothing
  | jumpValue h ihe => exact lone (ihe hx)
  -- suffixes
  | sufBinary h hτ he ihe =>
    have ht := one hx rfl fun hk => by simp [← hk, TokenKind.tier?] at h
    exact fun e hleft => .binary ht h hτ hleft (ihe hx.next)
  | sufAssign h he ihe => exact fun e hleft => .assign hleft (ihe hx.next)
  | sufCompound h ht he ihe =>
    have hoperator := one hx rfl fun hk => by simp [← hk, TokenKind.tier?] at h
    exact fun e hleft => .compoundAssign hoperator h ht hleft (ihe hx.next)
  | sufCast h ha iha => exact fun e hleft => .cast hleft (iha hx.next)
  | sufCall h hes ihes => exact fun e hleft => .call (ihes hx.next) hleft
  | sufIndex h he hc ihe => exact fun e hleft => .index hleft (ihe hx.next)
  | sufField h hf =>
    have hkind := hf.imp_right And.left
    have hname := spelt [.integer, .identifier] hx.next (by simpa using hkind) (by decide)
    exact fun e hleft => .field hleft hname hkind
  | sufMethod h hf ho hes ihes =>
    exact fun e hleft => .methodCall (ihes hx.next.next.next) hleft (one hx.next hf (by decide)) hf
  -- blocks and statements
  | stmtExpr h he ihe => exact ihe hx
  | stmtBlockLike h he hy ihe => exact ihe hx
  | stmtMember h he hy hs ihe ihs => exact ihs (he.place_of hx) _ (ihe hx)
  | block h hs ihs => exact Block.printed (ihs hx.next).1 (ihs hx.next).2
  | elementsNil _ => exact ⟨List.forall_mem_nil _, nothing⟩
  | elementsTail h he hc ihe => exact ⟨List.forall_mem_nil _, lone (ihe hx)⟩
  | elementsCons hs hss ihs ihss =>
    obtain ⟨hstmts, hvalue⟩ := ihss (hs.place_of hx)
    exact ⟨List.forall_mem_cons.2 ⟨ihs hx, hstmts⟩, hvalue⟩
  | elementStmt h hs ihs => exact ihs hx
  | elementExpr h he hs ihe => exact .expr (ihe hx)
  | elementBlockLike h he hs hc hb ihe => exact .blockLike (ihe hx) hb
  | stmtEmpty _ => exact .empty
  | stmtItem h ih => exact .item (ih hx)
  | stmtLet h hp ha hv hs ihp iha ihv =>
    have hp' := hp.place_of hx.next
    exact .letBinding (ihp hx.next) (iha hp') (ihv (ha.place_of hp'))
  -- conditions and branches
  | linkLet h hp hs hv ihp ihv => exact .binding (ihp hx.next) (ihv (hp.place_of hx.next).next)
  | linkOfLet h ih => exact ih hx
  | linkTest h ihv => exact .test (ihv hx)
  | condExpr h ihe => exact .expr (ihe hx)
  | condLet hl hls ihl ihls =>
    exact .letChain (List.forall_mem_cons.2 ⟨ihl hx, ihls (hl.place_of hx)⟩)
  | conditional h hc hb ho ihc ihb iho =>
    have hc' := hc.place_of hx.next
    exact .conditional (ihc hx.next) (ihb hc') (iho ((hb.place_of hc').rename _))
  | elseNothing _ => exact .nothing
  | elseIf h hc ihc => exact .conditional (ihc hx.next)
  | elseBlock h hb ihb => exact .block (ihb hx.next)
  | arm hp hg hf he ihp ihg ihe =>
    have hp' := hp.place_of (hx.rename _)
    exact Arm.printed (ihp (hx.rename _)) (ihg (hp'.rename _)) (ihe (hg.place_of (hp'.rename _)).next)
  | armsNil _ => exact List.forall_mem_nil _
  | armsComma ha ht has iha ihas =>
    exact List.forall_mem_cons.2 ⟨iha hx, ihas (ha.place_of hx).next⟩
  | armsBare ha hy hc has iha ihas => exact List.forall_mem_cons.2 ⟨iha hx, ihas (ha.place_of hx)⟩
  -- items
  | typedName h hc ha iha => exact TypedName.printed (one hx h (by decide)) h (iha hx.next.next)
  | param h hc ha iha => exact TypedName.printed (one hx h (by decide)) h (iha hx.next.next)
  | selfReference h hm hs ihm => exact .reference
  | selfValue hm hs ha ihm iha => exact .value (iha (hm.place_of hx).next)
  | paramsPlain h ih => exact ⟨nothing, ih hx⟩
  | paramsSelf h hc ih => exact ⟨lone (ih hx), List.forall_mem_nil _⟩
  | paramsMore h ht hps ih ihps => exact ⟨lone (ih hx), ihps (h.place_of hx).next⟩
  | signature _ => exact nothing
  | body h ihb => exact lone (ihb hx)
  | function hc hf ht hp hps hr hb ihc ihps ihr ihb =>
    have hf' := hc.place_of hx
    have hps' := hf'.next.next.next
    have hr' := hps.place_of hps'
    obtain ⟨hself, hparams⟩ := ihps hps'
    exact FunctionDecl.printed (one hf'.next ht (by decide)) ht hself hparams (ihr hr')
      (ihb (hr.place_of hr'))
  | constant h hc hd ha hv hn hs iha ihv =>
    have ha' := hx.next.next.next
    have hname := spelt [.identifier, .underscore] hx.next (by simpa using hc) (by decide)
    exact ConstantDecl.printed hname hc (iha ha') (ihv (ha.place_of ha'))
  | memberFunction h ih => exact (ih hx).member
  | memberConstant h ih => exact (ih hx).member
  | membersNil _ => exact List.forall_mem_nil _
  | membersCons ha has iha ihas =>
    exact List.forall_mem_cons.2 ⟨iha hx, ihas ((ha.place_of hx).rename _)⟩
  | itemFunction h ih => exact (ih hx).item
  | itemConstant h ih => exact (ih hx).item
  | itemUnit h hc hs => exact .unitStruct (one hx.next hc (by decide)) hc
  | itemStruct h hc ho hfs ihfs => exact .struct (one hx.next hc (by decide)) hc (ihfs hx.next.next.next)
  | itemEnum h hc ho hvs ihvs => exact .enum (one hx.next hc (by decide)) hc (ihvs hx.next.next.next)
  | itemTrait h hc ho hms ihms => exact .trait (ihms hx.next.next.next) (one hx.next hc (by decide)) hc
  | itemImpl h hi ha ho hms iha ihms => exact .impl (ihms (ha.place_of hx.next).next) (iha hx.next)
  | itemImplFor h hc hf ha ho hms iha ihms =>
    have ha' := hx.next.next.next
    exact .implFor (ihms (ha.place_of ha').next) (one hx.next hc (by decide)) hc (iha ha')
  | declaredItem h ih => exact ih hx
  | itemsNil _ => exact List.forall_mem_nil _
  | itemsCons ha has iha ihas => exact List.forall_mem_cons.2 ⟨iha hx, ihas (ha.place_of hx)⟩

variable {source source' file file' : String} {c c' : Crate}

theorem Item.printed_of_parseSource (h : parseSource source file = .ok c) :
    ∀ i ∈ c.items, i.Printed := by
  obtain ⟨tokens, s, hscan, hparse⟩ := parse_of_parseSource h
  exact (parse_sound hparse).1.printed (Token.spelt_of_scan hscan) (Place.of_self tokens .empty)

/-- Items are told apart by their texts: two items of any two sources have the same text exactly if
they are the same but for places, for fields of struct literals that are written as a shorthand, and
for a pattern `path(x)` where the other one has the constant `x`. -/
theorem parseSource_render_iff (h : parseSource source file = .ok c)
    (h' : parseSource source' file' = .ok c') {i i' : Item} (hi : i ∈ c.items) (hi' : i' ∈ c'.items) :
    i.sexpr.render = i'.sexpr.render ↔ i.shown = i'.shown := by
  have hprinted := Item.printed_of_parseSource h i hi
  have hprinted' := Item.printed_of_parseSource h' i' hi'
  rw [Sexpr.Readable.render_inj hprinted.readable hprinted'.readable]
  constructor
  · intro hsexpr
    rw [← hprinted.item, ← hprinted'.item, hsexpr]
  · intro hshown
    rw [← i.sexpr_shown, ← i'.sexpr_shown, hshown]

/-- A source is read, and has an item that passes a test. -/
theorem exists_item_of_any {P : Item → Bool}
    (h : (parseSource source file).toOption.any (·.items.any P) = true) :
    ∃ c, parseSource source file = .ok c ∧ ∃ i ∈ c.items, P i = true := by
  obtain ⟨c, hc, hany⟩ := (Option.any_eq_true _ _).mp h
  exact ⟨c, ok_of_toOption hc, List.any_eq_true.mp hany⟩

/-- A field that is written as a shorthand looks like one that is not. -/
theorem parseSource_render_shorthand : ∃ c c', parseSource "const A: T = S { x };" "t" = .ok c ∧
    parseSource "const A: T = S { x: x };" "t" = .ok c' ∧ ∃ i ∈ c.items, ∃ i' ∈ c'.items,
      i.sexpr.render = i'.sexpr.render ∧ i.shown = i'.shown := by
  let hasText (i : Item) : Bool := i.sexpr.render = "(const A T (struct-literal S (x x)))"
  have hshort :
      (parseSource "const A: T = S { x };" "t").toOption.any (·.items.any hasText) = true := by
    decide +kernel
  have hlong :
      (parseSource "const A: T = S { x: x };" "t").toOption.any (·.items.any hasText) = true := by
    decide +kernel
  obtain ⟨c, h, i, hi, htext⟩ := exists_item_of_any hshort
  obtain ⟨c', h', i', hi', htext'⟩ := exists_item_of_any hlong
  have hrender : i.sexpr.render = i'.sexpr.render :=
    (of_decide_eq_true htext).trans (of_decide_eq_true htext').symm
  exact ⟨c, c', h, h', i, hi, i', hi', hrender, (parseSource_render_iff h h' hi hi').mp hrender⟩

/-- The pattern of the first arm, if an item is a function that is only a `match`. -/
def Item.armPattern? : Item → Option Pattern
  | .function ⟨_, _, _, _, _, some ⟨[], some (.matching _ (arm :: _) _), _⟩, _⟩ => some arm.pattern
  | _ => none

/-- Whether a pattern is a variant with its parts in parentheses. -/
def Pattern.isVariant : Pattern → Bool
  | .tupleStruct _ _ _ => true
  | _ => false

def Pattern.isConstant : Pattern → Bool
  | .path _ => true
  | _ => false

/-- The first and the last item of this source have the same text, but the pattern is a variant in the
one and a constant in the other. -/
theorem parseSource_render_variant :
    let source := "fn f(){match y{path(X)=>0}} const X: T = 1; fn f(){match y{X=>0}}"
    ∃ c, parseSource source "t" = .ok c ∧ ∃ i ∈ c.items, ∃ i' ∈ c.items,
      i.sexpr.render = i'.sexpr.render ∧ i.armPattern?.any Pattern.isVariant = true ∧
        i'.armPattern?.any Pattern.isConstant = true := by
  intro source
  let shows (test : Pattern → Bool) (i : Item) : Bool :=
    i.sexpr.render = "(fn f (block (tail (match y (arm (path X) 0)))))" && i.armPattern?.any test
  have hvariant :
      (parseSource source "t").toOption.any (·.items.any (shows Pattern.isVariant)) = true := by
    decide +kernel
  have hconstant :
      (parseSource source "t").toOption.any (·.items.any (shows Pattern.isConstant)) = true := by
    decide +kernel
  obtain ⟨c, h, i, hi, hshows⟩ := exists_item_of_any hvariant
  obtain ⟨c', h', i', hi', hshows'⟩ := exists_item_of_any hconstant
  obtain rfl : c = c' := Except.ok.inj (h.symm.trans h')
  obtain ⟨htext, htest⟩ := Bool.and_eq_true_iff.mp hshows
  obtain ⟨htext', htest'⟩ := Bool.and_eq_true_iff.mp hshows'
  exact ⟨c, h, i, hi, i', hi', (of_decide_eq_true htext).trans (of_decide_eq_true htext').symm,
    htest, htest'⟩

end FrontEnd
