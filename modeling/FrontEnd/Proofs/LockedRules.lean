import FrontEnd.Proofs.Heads
import FrontEnd.Proofs.Lockstep
/-!
# The grammar, read twice

No phrase of the grammar lets two readings that are compared come apart: neither where it asks for
kinds ahead, nor where it takes a token, nor where it looks at what it has read.
-/
namespace FrontEnd

section Parts

variable {v w : View}

theorem View.Alike.path {p p' : Path} (h : v.Alike w p p') (hc : v.constants = w.constants) :
    v.Alike w (Pattern.path p) (Pattern.path p') := by
  obtain ⟨ts, span⟩ := p
  obtain ⟨ts', span'⟩ := p'
  have h : Path.mk (ts.map (Token.view v)) (v.span span) =
    Path.mk (ts'.map (Token.view w)) (w.span span') := h
  injection h with hts hspan
  match ts, ts' with
  | [], [] | [], _ :: _ | _ :: _, [] | _ :: _ :: _, _ :: _ :: _ =>
    simp_all [Pattern.view, Path.view]
  | [t], _ :: _ :: _ | _ :: _ :: _, [t] => simp at hts
  | [t], [t'] =>
    have ht : t.view v = t'.view w := List.head_eq_of_cons_eq hts
    have hkind : t.kind = t'.kind := View.Alike.kind_eq ht
    simp only [View.Alike, Viewed.view, Pattern.view, ht, hkind, hc, hspan]

theorem View.Alike.arm_body {a a' : Arm} (h : v.Alike w a a') : v.Alike w a.body a'.body := by
  have h : a.view v = a'.view w := h
  show a.body.view v = a'.body.view w
  have hbody : (a.view v).body = (a'.view w).body := by rw [h]
  cases a
  cases a'
  exact hbody

theorem Element.statements_view (es : List Element) :
    Element.statements (es.map (Element.view v)) = (Element.statements es).map (Stmt.view v) := by
  induction es with
  | nil => rfl
  | cons e es ih => cases e <;> simpa [Element.statements, Element.view] using ih

theorem View.Alike.statements {es es' : List Element} (h : v.Alike w es es') :
    v.Alike w (Element.statements es) (Element.statements es') := by
  have h : es.map (Element.view v) = es'.map (Element.view w) := h
  show (Element.statements es).map (Stmt.view v) = (Element.statements es').map (Stmt.view w)
  rw [← Element.statements_view, h, Element.statements_view]

theorem Element.tail?_view (es : List Element) :
    Element.tail? (es.map (Element.view v)) = (Element.tail? es).map (Expr.view v) := by
  unfold Element.tail?
  rw [List.getLast?_map]
  cases es.getLast? with
  | none => rfl
  | some e => cases e <;> rfl

theorem View.Alike.tail? {es es' : List Element} (h : v.Alike w es es') :
    v.Alike w (Element.tail? es) (Element.tail? es') := by
  have h : es.map (Element.view v) = es'.map (Element.view w) := h
  show (Element.tail? es).map (Expr.view v) = (Element.tail? es').map (Expr.view w)
  rw [← Element.tail?_view, h, Element.tail?_view]

theorem Suffix.attach_view (e : Expr) (f : Suffix) :
    (f.attach e).view v = (f.view v).attach (e.view v) := by
  cases f <;> simp [Suffix.attach, Suffix.view, Expr.view, View.span_to]

theorem View.Alike.foldl_attach {fs fs' : List Suffix} {e e' : Expr} (he : v.Alike w e e')
    (hfs : v.Alike w fs fs') :
    v.Alike w (fs.foldl Suffix.attach e) (fs'.foldl Suffix.attach e') := by
  have view_foldl (v : View) (fs : List Suffix) (e : Expr) :
      (fs.foldl Suffix.attach e).view v = (fs.map (Suffix.view v)).foldl Suffix.attach (e.view v) := by
    induction fs generalizing e with
    | nil => rfl
    | cons f fs ih => rw [List.foldl_cons, ih, Suffix.attach_view]; rfl
  have he : e.view v = e'.view w := he
  have hfs : fs.map (Suffix.view v) = fs'.map (Suffix.view w) := hfs
  show Expr.view v _ = Expr.view w _
  rw [view_foldl, view_foldl, he, hfs]

end Parts

namespace Grammar

open Phrase Lockstep

variable {L : Lockstep} {fuel : Nat} {s s' : ParseState}

theorem locked_path : L.Locked fuel path path s s' :=
  .bind (.expectOneOf (by decide)) fun hfirst =>
    .bind (.eachAfter nofun (.expectOneOf (by decide))) fun hrest =>
      .bind (.spanFrom hfirst.span) fun hspan => .pure <| by
        simp_all [Path.view]

variable (G : L.Goals fuel)
include G

theorem locked_expr (above : Tier) : L.Locked fuel (expr above) (expr above) s s' :=
  G (.expr above) s s'

theorem locked_ty : L.Locked fuel ty ty s s' :=
  .kind fun _ _ => .ite (fun _ => G .ty s s') fun _ => .fail

theorem locked_bracketType (hk : s.cursor.kind ≠ .eof) :
    L.Locked fuel bracketType bracketType s s' :=
  .bind (.take hk) fun hopening => .bind (locked_ty G) fun helement => .ifEat nofun
    (.bind (.withStructLiterals (locked_expr G _)) fun hlength => .bind (.expect nofun) fun _ =>
      .bind (.spanFrom hopening.span) fun hspan => .pure <| by
        simp_all [Ty.view])
    (.bind (.expect nofun) fun _ => .bind (.spanFrom hopening.span) fun hspan => .pure <| by
      simp_all [Ty.view])

theorem locked_parenType (hk : s.cursor.kind ≠ .eof) : L.Locked fuel parenType parenType s s' :=
  .bind (.take hk) fun hopening => .ifEat nofun
    (.bind (.spanFrom hopening.span) fun hspan => .pure <| by
      simp_all [Ty.view])
    (.bind (locked_ty G) fun hfirst => .ifEat nofun (.pure hfirst)
      (.bind (.afterFirst (locked_ty G)) fun hrest => .bind (.expect nofun) fun _ =>
        .bind (.spanFrom hopening.span) fun hspan => .pure <| by
          simp_all [Ty.view]))

theorem locked_tyRule : L.Locked fuel tyRule tyRule s s' := .kind fun k hk => by
  by_cases heof : k = .eof
  · subst heof
    exact .fail
  have hne : s.cursor.kind ≠ .eof := hk ▸ heof
  split
  · exact .map locked_path fun h => by simp_all [Ty.view]
  · exact .map locked_path fun h => by simp_all [Ty.view]
  · exact .referenceLayers hne (fun m h hs => by simp_all [Ty.view])
      (fun h => h.ty_span) (locked_ty G)
  · exact .referenceLayers hne (fun m h hs => by simp_all [Ty.view])
      (fun h => h.ty_span) (locked_ty G)
  · exact locked_bracketType G hne
  · exact locked_parenType G hne
  · exact .map (.take hne) fun h => by simp_all [Ty.view]
  · exact .map (.take hne) fun h => by simp_all [Ty.view]
  · exact .fail

theorem locked_pattern : L.Locked fuel pattern pattern s s' := G .pattern s s'

theorem locked_pathPattern : L.Locked fuel pathPattern pathPattern s s' :=
  .bind locked_path fun hpath => .ifEat nofun
    (.bind (.commaList (locked_pattern G)) fun helements => .bind (.expect nofun) fun _ =>
      .bind (.spanFrom hpath.path_span) fun hspan => .pure <| by
        simp_all [Pattern.view])
    (.pure (hpath.path L.constants_eq))

theorem locked_identifierPattern (hk : s.cursor.kind ≠ .eof) :
    L.Locked fuel identifierPattern identifierPattern s s' :=
  .current hk fun hstart => .bind (.eat nofun) fun hbyRef => .bind (.eat nofun) fun hmutable =>
    .bind (.expect nofun) fun hname => .bind (.after? nofun (locked_pattern G)) fun hsub =>
      .bind (.spanFrom hstart.span) fun hspan => .pure <| by
        simp_all [Pattern.view]

section NameAlone

omit G

variable (options : ParseOptions) {t : Token}

theorem run_pathPattern_of_name (ht : s.cursor.ahead? 0 = some t) (hk : t.kind = .identifier)
    (hsep : s.cursor.kindAhead 1 ≠ .pathSep) (hparen : s.cursor.kindAhead 1 ≠ .openParen) :
    pathPattern.run options (Goal.read options fuel) s =
      .ok (.path ⟨[t], s.cursor.advance.spanFrom t.span⟩)
        { s with cursor := s.cursor.advance } := by
  have hnext := Cursor.kind_advance ht
  have hpath : path.run options (Goal.read options fuel) s =
      .ok ⟨[t], s.cursor.advance.spanFrom t.span⟩ { s with cursor := s.cursor.advance } := by
    have hsegment : t.kind ∈ pathSegments := hk ▸ by decide
    rw [path, run_bind_of_ok (run_expectOneOf ht hsegment),
      run_bind_of_ok (run_eachAfter_of_not (hnext ▸ hsep))]
    rfl
  rw [pathPattern, run_bind_of_ok hpath, run_bind_of_ok (run_eat_of_not (hnext ▸ hparen))]
  rfl

theorem run_identifierPattern_of_name (ht : s.cursor.ahead? 0 = some t) (hk : t.kind = .identifier)
    (hat : s.cursor.kindAhead 1 ≠ .atSign) :
    identifierPattern.run options (Goal.read options fuel) s =
      .ok (.identifier t false false none (s.cursor.advance.spanFrom t.span))
        { s with cursor := s.cursor.advance } := by
  have hkind : s.cursor.kind = .identifier := (Cursor.kind_of_ahead? ht).trans hk
  have hnext := Cursor.kind_advance ht
  rw [identifierPattern, run_current ht, run_bind_of_ok (run_eat_of_not (hkind ▸ nofun)),
    run_bind_of_ok (run_eat_of_not (hkind ▸ nofun)), run_bind_of_ok (run_expect ht hk),
    run_bind_of_ok (run_after?_of_not (hnext ▸ hat))]
  rfl

/-- A name alone takes one token whether it means a constant or not, and where that is not told, it
looks the same in either case. -/
theorem run_name (fuel : Nat) (ht : s.cursor.ahead? 0 = some t) (hk : t.kind = .identifier)
    (hsep : s.cursor.kindAhead 1 ≠ .pathSep) (hparen : s.cursor.kindAhead 1 ≠ .openParen)
    (hat : s.cursor.kindAhead 1 ≠ .atSign) (constant : Bool) {v : View} (hv : v.constants = false) :
    ∃ p, (if constant then pathPattern else identifierPattern : Phrase Pattern).run options
        (Goal.read options fuel) s = .ok p { s with cursor := s.cursor.advance } ∧
      p.view v = .identifier (t.view v) false false none
        (v.span (s.cursor.advance.spanFrom t.span)) := by
  cases constant with
  | true => exact ⟨_, run_pathPattern_of_name options ht hk hsep hparen, if_pos ⟨hv, hk⟩⟩
  | false => exact ⟨_, run_identifierPattern_of_name options ht hk hat, rfl⟩

end NameAlone

/-- A name alone. The readings may differ in whether it means a constant, if that is not told. -/
theorem locked_nameAlone (hk : s.cursor.kind = .identifier) {t t' : Token} (ht : L.Alike t t')
    (hid : t.kind = .identifier) (hsep : s.cursor.kindAhead 1 ≠ .pathSep)
    (hparen : s.cursor.kindAhead 1 ≠ .openParen) (hat : s.cursor.kindAhead 1 ≠ .atSign) :
    L.Locked fuel
      (isConstant t.value >>= fun c => if c then pathPattern else identifierPattern)
      (isConstant t'.value >>= fun c => if c then pathPattern else identifierPattern) s s' := by
  intro hs
  have hne : s.cursor.kind ≠ .eof := hk ▸ nofun
  show L.Ends
    ((if L.resolve && s.isConstant t.value then pathPattern else identifierPattern :
      Phrase Pattern).run L.options (Goal.read L.options fuel) s)
    ((if L.resolve' && s'.isConstant t'.value then pathPattern else identifierPattern :
      Phrase Pattern).run L.options' (Goal.read L.options' fuel) s')
  rcases L.constant hs ht hid with h | hconstants
  · rw [h]
    exact Locked.ite (fun _ => locked_pathPattern G) (fun _ => locked_identifierPattern G hne) hs
  · obtain ⟨c, c', hc, hc', hcc, hadvance⟩ := L.take hs hne
    have hck : c.kind = .identifier := (Cursor.kind_of_ahead? hc).symm.trans hk
    have hnext := L.next_eq hs hne
    obtain ⟨p, hp, hview⟩ := run_name L.options fuel hc hck hsep hparen hat
      (L.resolve && s.isConstant t.value) hconstants
    obtain ⟨p', hp', hview'⟩ := run_name L.options' fuel hc'
      (hcc.kind_eq ▸ hck) (hnext ▸ hsep) (hnext ▸ hparen) (hnext ▸ hat)
      (L.resolve' && s'.isConstant t'.value) (L.constants_eq ▸ hconstants)
    rw [hp, hp']
    refine ⟨?_, hadvance⟩
    have hspan : L.left.span (s.cursor.advance.spanFrom c.span) = L.right.span _ :=
      L.spanFrom hadvance hcc.span
    have hcc : c.view L.left = c'.view L.right := hcc
    show p.view L.left = p'.view L.right
    rw [hview, hview', hcc, hspan]

theorem locked_namePattern (hk : s.cursor.kind = .identifier) {t t' : Token} (ht : L.Alike t t')
    (hid : t.kind = .identifier) :
    L.Locked fuel (namePattern t.value) (namePattern t'.value) s s' :=
  .nextKind (hk ▸ nofun) fun k hnext => by
    have hne : s.cursor.kind ≠ .eof := hk ▸ nofun
    split
    · exact locked_pathPattern G
    · exact locked_pathPattern G
    · exact locked_identifierPattern G hne
    · exact locked_nameAlone G hk ht hid (hnext ▸ ‹_›) (hnext ▸ ‹_›) (hnext ▸ ‹_›)

omit G in
theorem refuses_patternRule {options : ParseOptions} (ht : s.cursor.ahead? 0 = some t)
    (heof : t.kind = .eof) : patternRule.Refuses options fuel "a pattern" s := by
  rw [Refuses, patternRule, run_current ht, heof]
  rfl

theorem locked_patternRule : L.Locked fuel patternRule patternRule s s' := by
  refine .currentOrEnd (fun {t t'} hk ht => ?_) (fun t => refuses_patternRule)
    fun _ t' => refuses_patternRule
  rw [← ht.kind_eq]
  by_cases heof : t.kind = .eof
  · rw [heof]
    exact .fail
  have hne : s.cursor.kind ≠ .eof := hk ▸ heof
  have hliteral : L.Locked fuel literalPattern literalPattern s s' :=
    .bind (.take hne) fun h => .pure <| by
      have hspan := h.span
      simp_all [Pattern.view]
  split
  · exact .bind (.take hne) fun hminus => .bind (.expect nofun) fun hliteral => .pure <| by
      have hspan := hminus.span.span_to hliteral.span
      simp_all [Pattern.view]
  · exact hliteral
  · exact hliteral
  · exact hliteral
  · exact hliteral
  · exact hliteral
  · exact .map (.take hne) fun h => by simp_all [Pattern.view]
  · exact .referenceLayers hne (fun m h hs => by simp_all [Pattern.view])
      (fun h => h.pattern_span) (locked_pattern G)
  · exact .referenceLayers hne (fun m h hs => by simp_all [Pattern.view])
      (fun h => h.pattern_span) (locked_pattern G)
  · exact locked_identifierPattern G hne
  · exact locked_identifierPattern G hne
  · exact locked_pathPattern G
  · exact locked_pathPattern G
  · exact locked_namePattern G (hk.trans ‹_›) ht ‹_›
  · exact .fail

theorem locked_block : L.Locked fuel block block s s' := G .block s s'

theorem locked_blockBody : L.Locked fuel blockBody blockBody s s' :=
  .bind (.expect nofun) fun hopening =>
    .bind (.untilKind (fun _ => .goal takes_elementRule) fun _ => G .element _ _) fun helements =>
      .bind (.expect nofun) fun _ => .bind (.spanFrom hopening.span) fun hspan => .pure <| by
        have helements : L.Alike _ _ := helements
        have hstatements := helements.statements
        have htail := helements.tail?
        simp_all [Block.view]

theorem locked_blockRule : L.Locked fuel blockRule blockRule s s' :=
  .inScope (.withStructLiterals (locked_blockBody G))

theorem locked_constBlock : L.Locked fuel constBlock constBlock s s' :=
  .bind (.expect nofun) fun hkeyword => .kind fun _ _ => .ite
    (fun _ => .bind (locked_block G) fun hblock => .bind (.spanFrom hkeyword.span) fun hspan =>
      .pure <| by simp_all [Expr.view])
    fun _ => .fail

omit G in
theorem locked_startsBlockLike : L.Locked fuel startsBlockLike startsBlockLike s s' :=
  .kind fun k hk => by
    split
    · exact .nextKind (hk ▸ nofun) fun _ _ => .pure rfl
    all_goals exact .pure rfl

theorem locked_statementExpr : L.Locked fuel statementExpr statementExpr s s' :=
  .bind locked_startsBlockLike fun {starts starts' _ _} h => by
    obtain rfl : starts = starts' := h
    exact .ite (fun _ => G .blockLike _ _) fun _ => locked_expr G _

section Links

omit G

variable {options : ParseOptions}

/-- A link has goals in it, so there was a level left. -/
theorem canNest_of_link {a : Link} {t : ParseState}
    (h : link.run options (Goal.read options fuel) s = .ok a t) :
    t.CanNest options fuel :=
  (Nests.bind_right fun _ => .bind_right fun _ => .ite (.bind_left .goal) (.bind_left .goal) :
    link.Nests options fuel) s a t h

theorem refuses_link {t : Token} (hn : s.CanNest options fuel) (ht : s.cursor.ahead? 0 = some t)
    (heof : t.kind = .eof) : link.Refuses options fuel "an expression" s := by
  obtain ⟨⟨n, rfl⟩, hdepth⟩ := hn
  have hk : s.cursor.kind = .eof := (Cursor.kind_of_ahead? ht).trans heof
  have hterm : term.Refuses options n "an expression" { s with depth := s.depth + 1 } := by
    rw [Refuses, term, run_kind, hk]
    rfl
  have hvalue : (expr .logicalAnd).Refuses options (n + 1) "an expression" s :=
    .goal hdepth hterm.bind
  have hlet : s.cursor.kind ≠ .kwLet := by
    rw [hk]
    decide
  rw [Refuses, link, run_current ht, run_bind_of_ok (run_eat_of_not hlet)]
  exact hvalue.bind

end Links

theorem locked_link (hn : s.cursor.kind = .eof → s.CanNest L.options fuel) :
    L.Locked fuel link link s s' :=
  .currentOrEnd
    (fun _ hstart => .ifEat nofun
      (.bind (locked_pattern G) fun hpattern => .bind (.expect nofun) fun _ =>
        .bind (locked_expr G _) fun hvalue => .bind (.bindPattern hpattern .none) fun _ =>
          .bind (.spanFrom hstart.span) fun hspan => .pure <| by
            simp_all [Link.view])
      (.bind (locked_expr G _) fun hvalue => .bind (.spanFrom hstart.span) fun hspan => .pure <| by
        simp_all [Link.view]))
    (fun _ ht heof => refuses_link (hn ((Cursor.kind_of_ahead? ht).trans heof)) ht heof)
    fun hs _ ht heof => refuses_link (canNest_of_states hs
      (hn ((L.kind_eq hs).trans ((Cursor.kind_of_ahead? ht).trans heof)))) ht heof

theorem locked_links (hn : s.CanNest L.options fuel) :
    L.Locked fuel (eachAfter .andAnd link) (eachAfter .andAnd link) s s' :=
  .repeatedWith (fun _ => .ifEat .pure_none)
    (fun _ _ _ hn hr => hn.of_kept ((run_kept _ _ _).of_ok hr))
    (fun {s _} hn => .bindRun (.eat nofun) fun {eaten eaten' _ _} h hr => by
      obtain rfl : eaten = eaten' := h
      have hn := hn.of_kept ((run_kept _ _ _).of_ok hr)
      exact .ite (fun _ => .map (locked_link G fun _ => hn) .some) fun _ => .pure .none)
    hn

theorem locked_condition : L.Locked fuel condition condition s s' :=
  .withStructLiterals <| .kind fun k hk => .ite
    (fun h => .bindRun (locked_link G fun heof => nomatch h ▸ hk ▸ heof) fun hfirst hr =>
      .bind (locked_links G (canNest_of_link hr)) fun hrest => .pure <| by
        simp_all [Condition.view])
    fun _ => .map (locked_expr G _) fun h => by
      simp_all [Condition.view]

theorem locked_guardedBlock : L.Locked fuel guardedBlock guardedBlock s s' :=
  .inScope (.bind (locked_condition G) fun hcondition => .bind (locked_block G) fun hbody => .pure <| by
    simp_all)

theorem locked_otherwise : L.Locked fuel otherwise otherwise s s' :=
  .ifEat nofun
    (.kind fun _ _ => .ite
      (fun _ => .map (G .elseIf _ _) fun h => by
        have h : L.Alike _ _ := h
        simp_all [Otherwise.view])
      fun _ => .map (locked_block G) fun h => by
        simp_all [Otherwise.view])
    (.pure rfl)

theorem locked_conditional : L.Locked fuel conditional conditional s s' :=
  .bind (.expect nofun) fun hkeyword => .bind (locked_guardedBlock G) fun hguarded =>
    .bind (locked_otherwise G) fun hlast => .bind (.spanFrom hkeyword.span) fun hspan => .pure <| by
      have hcondition := hguarded.fst
      have hbody := hguarded.snd
      simp_all [Conditional.view]

theorem locked_whileLoop : L.Locked fuel whileLoop whileLoop s s' :=
  .bind (.expect nofun) fun hkeyword => .bind (locked_guardedBlock G) fun hguarded =>
    .bind (.spanFrom hkeyword.span) fun hspan => .pure <| by
      have hcondition := hguarded.fst
      have hbody := hguarded.snd
      simp_all [Expr.view]

theorem locked_loop : L.Locked fuel loop loop s s' :=
  .bind (.expect nofun) fun hkeyword => .bind (locked_block G) fun hbody =>
    .bind (.spanFrom hkeyword.span) fun hspan => .pure <| by
      simp_all [Expr.view]

theorem locked_armRule : L.Locked fuel armRule armRule s s' :=
  .inScope <| .bind (locked_pattern G) fun hpattern => .bind (.bindPattern hpattern .none) fun _ =>
    .bind (.after? nofun (locked_expr G _)) fun hguard => .bind (.expect nofun) fun _ =>
      .bind (locked_statementExpr G) fun hbody => .pure <| by
        have hspan := hpattern.pattern_span.span_to hbody.expr_span
        simp_all [Arm.view]

theorem locked_armAndComma : L.Locked fuel armAndComma armAndComma s s' :=
  .bind (G .arm _ _) fun {a a' _ _} harm => .ifEat nofun (.pure harm) <| .kind fun _ _ => by
    have harm : L.Alike a a' := harm
    rw [harm.arm_body.isBlockLike_eq]
    exact .ite (fun _ => .pure harm) fun _ => .fail

theorem locked_matching : L.Locked fuel matching matching s s' :=
  .bind (.expect nofun) fun hkeyword => .bind (.withStructLiterals (locked_expr G _)) fun hscrutinee =>
    .bind (.expect nofun) fun _ =>
      .bind (.withStructLiterals (.untilKind (fun _ => (Takes.goal (takes_rule .arm)).bind_left)
        fun _ => locked_armAndComma G)) fun harms =>
        .bind (.expect nofun) fun _ => .bind (.spanFrom hkeyword.span) fun hspan => .pure <| by
          simp_all [Expr.view]

theorem locked_fieldValue : L.Locked fuel fieldValue fieldValue s s' :=
  .bind (.expect nofun) fun hname => .bind (.after? nofun (locked_expr G _)) fun {o o' _ _} h => by
    match o, o' with
    | some value, some value' =>
      exact .pure <| by
        have hvalue := h.of_some
        simp_all [FieldValue.view]
    | none, none => exact .pure <| by simp_all [FieldValue.view, Expr.view]
    | some value, none | none, some value' => exact absurd h nofun

theorem locked_structLiteral {p p' : Path} (hp : L.Alike p p') :
    L.Locked fuel (structLiteral p) (structLiteral p') s s' :=
  .bind (.expect nofun) fun _ => .bind
    (.withStructLiterals (.bind (.commaList (locked_fieldValue G)) fun hfields =>
      .bind (.expect nofun) fun _ => .pure hfields)) fun hfields =>
      .bind (.spanFrom hp.path_span) fun hspan => .pure <| by
        simp_all [Expr.view]

theorem locked_pathExpr : L.Locked fuel pathExpr pathExpr s s' :=
  .bind locked_path fun hpath => .kind fun _ _ => .allowsStructLiterals fun _ => .ite
    (fun _ => locked_structLiteral G hpath)
    fun _ => .pure <| by simp_all [Expr.view]

theorem locked_unary (hk : s.cursor.kind ≠ .eof) : L.Locked fuel unary unary s s' :=
  .bind (.take hk) fun hoperator => .bind (locked_expr G _) fun hoperand => .pure <| by
    have hspan := hoperator.span.span_to hoperand.expr_span
    simp_all [Expr.view]

theorem locked_deref (hk : s.cursor.kind ≠ .eof) : L.Locked fuel deref deref s s' :=
  .bind (.take hk) fun hstar => .bind (locked_expr G _) fun hoperand => .pure <| by
    have hspan := hstar.span.span_to hoperand.expr_span
    simp_all [Expr.view]

theorem locked_grouped (hk : s.cursor.kind ≠ .eof) : L.Locked fuel grouped grouped s s' :=
  .bind (.take hk) fun hopening => .bind (.withStructLiterals (locked_expr G _)) fun hinner =>
    .bind (.expect nofun) fun _ => .bind (.spanFrom hopening.span) fun hspan => .pure <| by
      simp_all [Expr.view]

theorem locked_arrayRest {opening opening' : Token} {first first' : Expr}
    (hopening : L.Alike opening opening') (hfirst : L.Alike first first') :
    L.Locked fuel (arrayRest opening first) (arrayRest opening' first') s s' :=
  .ifEat nofun
    (.bind (locked_expr G _) fun hlength => .bind (.expect nofun) fun _ =>
      .bind (.spanFrom hopening.span) fun hspan => .pure <| by
        simp_all [Expr.view])
    (.bind (.afterFirst (locked_expr G _)) fun hrest => .bind (.expect nofun) fun _ =>
      .bind (.spanFrom hopening.span) fun hspan => .pure <| by
        simp_all [Expr.view])

theorem locked_array (hk : s.cursor.kind ≠ .eof) : L.Locked fuel array array s s' :=
  .bind (.take hk) fun hopening => .withStructLiterals <| .ifEat nofun
    (.bind (.spanFrom hopening.span) fun hspan => .pure <| by
      simp_all [Expr.view])
    (.bind (locked_expr G _) fun hfirst => locked_arrayRest G hopening hfirst)

theorem locked_jumpValue : L.Locked fuel jumpValue jumpValue s s' :=
  have hstart {s s'} : L.Locked fuel startsExpr startsExpr s s' := .kind fun _ _ => .pure rfl
  .bind hstart fun {starts starts' _ _} h => by
    obtain rfl : starts = starts' := h
    exact .ite (fun _ => .map (locked_expr G _) .some) fun _ => .pure .none

theorem locked_breakLoop (hk : s.cursor.kind ≠ .eof) : L.Locked fuel breakLoop breakLoop s s' :=
  .bind (.take hk) fun hkeyword => .bind (locked_jumpValue G) fun hvalue =>
    .bind (.spanFrom hkeyword.span) fun hspan => .pure <| by
      simp_all [Expr.view]

theorem locked_returnValue (hk : s.cursor.kind ≠ .eof) :
    L.Locked fuel returnValue returnValue s s' :=
  .bind (.take hk) fun hkeyword => .bind (locked_jumpValue G) fun hvalue =>
    .bind (.spanFrom hkeyword.span) fun hspan => .pure <| by
      simp_all [Expr.view]

theorem locked_term : L.Locked fuel term term s s' := .kind fun k hk => by
  by_cases heof : k = .eof
  · subst heof
    exact .fail
  have hne : s.cursor.kind ≠ .eof := hk ▸ heof
  have hliteral : L.Locked fuel (Expr.literal <$> take) (Expr.literal <$> take) s s' :=
    .map (.take hne) fun h => by simp_all [Expr.view]
  have hborrow : L.Locked fuel (referenceLayers Expr.borrow Expr.span (expr .unary))
      (referenceLayers Expr.borrow Expr.span (expr .unary)) s s' :=
    .referenceLayers hne (fun m h hs => by simp_all [Expr.view])
      (fun h => h.expr_span) (locked_expr G _)
  split
  · exact hliteral
  · exact hliteral
  · exact hliteral
  · exact hliteral
  · exact hliteral
  · exact locked_pathExpr G
  · exact locked_pathExpr G
  · exact locked_pathExpr G
  · exact locked_unary G hne
  · exact locked_unary G hne
  · exact locked_deref G hne
  · exact hborrow
  · exact hborrow
  · exact locked_grouped G hne
  · exact locked_array G hne
  · exact .map (.take hne) fun h => by simp_all [Expr.view]
  · exact locked_breakLoop G hne
  · exact .map (.take hne) fun h => by simp_all [Expr.view]
  · exact locked_returnValue G hne
  · exact .map (locked_block G) fun h => by simp_all [Expr.view]
  · exact locked_constBlock G
  · exact .map (locked_conditional G) fun h => by simp_all [Expr.view]
  · exact locked_matching G
  · exact locked_loop G
  · exact locked_whileLoop G
  · exact .fail

theorem locked_arguments : L.Locked fuel arguments arguments s s' :=
  .withStructLiterals <| .bind (.commaList (locked_expr G _)) fun hargs =>
    .bind (.expect nofun) fun hclosing => .pure <| by simp_all

theorem locked_memberSuffix (hk : s.cursor.kind ≠ .eof) :
    L.Locked fuel memberSuffix memberSuffix s s' :=
  .bind (.take hk) fun _ => .bind (.expectOneOf (by decide)) fun hname => by
    rw [hname.kind_eq]
    refine .ite (fun _ => .ifEat nofun
      (.bind (locked_arguments G) fun hargs => .pure ?_) (.pure ?_)) fun _ => .pure ?_
    · have hfst := hargs.fst
      have hsnd := hargs.snd
      simp_all [Suffix.view]
    all_goals simp_all [Suffix.view]

theorem locked_suffix (operator : TokenKind) (tier : Tier) (hk : s.cursor.kind ≠ .eof) :
    L.Locked fuel (suffix operator tier) (suffix operator tier) s s' := by
  unfold suffix
  split
  · refine .bind (.take hk) fun hoperator => .bind (locked_expr G _) fun hvalue => .pure ?_
    rw [hoperator.kind_eq]
    split <;> simp_all [Suffix.view]
  · exact .bind (.take hk) fun _ => .map (locked_ty G) fun h => by
      simp_all [Suffix.view]
  · refine .ite (fun _ => .bind (.take hk) fun _ => .bind (locked_arguments G) fun hargs => .pure ?_)
      fun _ => .bind (.take hk) fun _ => .bind (.withStructLiterals (locked_expr G _)) fun hindex =>
        .bind (.expect nofun) fun hclosing => .pure ?_
    · have hfst := hargs.fst
      have hsnd := hargs.snd
      simp_all [Suffix.view]
    · simp_all [Suffix.view]
  · exact locked_memberSuffix G hk
  · exact .bind (.take hk) fun hoperator => .bind (locked_expr G _) fun hright => .pure <| by
      simp_all [Suffix.view]

theorem locked_suffix? (above : Tier) : L.Locked fuel (suffix? above) (suffix? above) s s' :=
  .kind fun k hk => by
    cases htier : k.tier? with
    | none => exact .pure .none
    | some tier =>
      have hne : s.cursor.kind ≠ .eof := by
        rintro h
        rw [hk] at h
        simp [h, TokenKind.tier?] at htier
      exact .ite (fun _ => .map (locked_suffix G k tier hne) .some) fun _ => .pure .none

theorem locked_operators (above : Tier) {left left' : Expr} (h : L.Alike left left') :
    L.Locked fuel (operators above left) (operators above left') s s' :=
  .bind (.repeated (fun _ => takesOrLeaves_suffix? above) (locked_suffix? G above)) fun hsuffixes =>
    .pure (h.foldl_attach hsuffixes)

theorem locked_exprRule (above : Tier) : L.Locked fuel (exprRule above) (exprRule above) s s' :=
  .bind (locked_term G) fun h => locked_operators G above h

theorem locked_blockLikeRule : L.Locked fuel blockLikeRule blockLikeRule s s' :=
  .bind (locked_term G) fun h => .kind fun _ _ => .ite (fun _ => locked_operators G _ h)
    fun _ => .pure h

theorem locked_typedName : L.Locked fuel typedName typedName s s' :=
  .bind (.expect nofun) fun hname => .bind (.expect nofun) fun _ => .bind (locked_ty G) fun hty =>
    .bind (.spanFrom hname.span) fun hspan => .pure <| by
      simp_all [TypedName.view]

theorem locked_selfParam (hk : s.cursor.kind ≠ .eof) : L.Locked fuel selfParam selfParam s s' := by
  refine .current hk fun {start start'} hstart => .bind (.eat nofun) fun {byRef byRef' _ _} h =>
    .bind (.eat nofun) fun {mutable mutable' _ _} h' => .bind (.expect nofun) fun _ => ?_
  obtain rfl : byRef = byRef' := h
  obtain rfl : mutable = mutable' := h'
  have hrest {a a' : Option Ty} {s s' : ParseState} (ha : L.Alike a a') : L.Locked fuel
      (do
        declare (.var "self" a mutable) start.span.start
        return (⟨byRef, mutable, a, ← spanFrom start.span⟩ : SelfParam))
      (do
        declare (.var "self" a' mutable) start'.span.start
        return ⟨byRef, mutable, a', ← spanFrom start'.span⟩) s s' :=
    .bind (.declare fun hs => L.declareSelf hs ha hstart.span.start) fun _ =>
      .bind (.spanFrom hstart.span) fun hspan => .pure <| by
        simp_all [SelfParam.view]
  exact .ite (fun _ => hrest .none) fun _ => .bind (.after? nofun (locked_ty G)) hrest

section StartsSelf

omit G

variable {options : ParseOptions} {below : (g : Goal) → Reader g.Tree}

theorem run_startsSelfParam_eq :
    startsSelfParam.run options below s =
      (match s.place.kind, s.place.nextKind, kindAt s.place.rest 2 with
      | .kwSelfValue, _, _ => return true
      | .kwMut, .kwSelfValue, _ => return true
      | .ampersand, .kwSelfValue, _ => return true
      | .ampersand, .kwMut, .kwSelfValue => return true
      | _, _, _ => return false : Phrase Bool).run options below s := rfl

theorem run_startsSelfParam (h : s.place.StartsSelf) :
    startsSelfParam.run options below s = .ok true s := by
  rw [run_startsSelfParam_eq]
  obtain hk | ⟨hk, hnext⟩ | ⟨hk, hnext | ⟨hnext, hafter⟩⟩ := h
  · rw [hk]
    rfl
  · rw [hk, hnext]
    rfl
  · rw [hk, hnext]
    rfl
  · rw [hk, hnext, hafter]
    rfl

theorem run_startsSelfParam_of_not (h : ¬s.place.StartsSelf) :
    startsSelfParam.run options below s = .ok false s := by
  rw [run_startsSelfParam_eq]
  unfold Place.StartsSelf at h
  split
  · exact absurd (.inl ‹_›) h
  · exact absurd (.inr (.inl ⟨‹_›, ‹_›⟩)) h
  · exact absurd (.inr (.inr ⟨‹_›, .inl ‹_›⟩)) h
  · exact absurd (.inr (.inr ⟨‹_›, .inr ⟨‹_›, ‹_›⟩⟩)) h
  · rfl

theorem kind_ne_of_startsSelf (h : s.place.StartsSelf) : s.cursor.kind ≠ .eof := by
  have hkind : s.cursor.kind = s.place.kind := rfl
  rw [hkind]
  obtain h | ⟨h, -⟩ | ⟨h, -⟩ := h <;> exact h ▸ nofun

/-- The kinds after the current token are of no matter if the input ends there or right after it. -/
theorem startsSelf_iff (hs : L.states s s') : s.place.StartsSelf ↔ s'.place.StartsSelf := by
  have hkind : s.place.kind = s'.place.kind := L.kind_eq hs
  by_cases hk : s.cursor.kind = .eof
  · exact ⟨fun h => absurd hk (kind_ne_of_startsSelf h),
      fun h => absurd ((L.kind_eq hs).symm.trans hk) (kind_ne_of_startsSelf h)⟩
  have hnext : s.place.nextKind = s'.place.nextKind := L.next_eq hs hk
  rw [Place.StartsSelf, Place.StartsSelf, ← hkind, ← hnext]
  by_cases hmut : s.place.nextKind = .kwMut
  · have hne : s.cursor.kindAhead 1 ≠ .eof := by
      have hmut : s.cursor.kindAhead 1 = .kwMut := hmut
      rw [hmut]
      decide
    have hafter : kindAt s.place.rest 2 = kindAt s'.place.rest 2 := L.afterNext_eq hs hk hne
    rw [hafter]
  · simp [hmut]

theorem locked_startsSelfParam : L.Locked fuel startsSelfParam startsSelfParam s s' := by
  intro hs
  by_cases h : s.place.StartsSelf
  · rw [run_startsSelfParam h, run_startsSelfParam ((startsSelf_iff hs).mp h)]
    exact ⟨rfl, hs⟩
  · rw [run_startsSelfParam_of_not h, run_startsSelfParam_of_not (mt (startsSelf_iff hs).mpr h)]
    exact ⟨rfl, hs⟩

theorem kind_ne_of_run_startsSelfParam {t : ParseState}
    (h : startsSelfParam.run options below s = .ok true t) : t.cursor.kind ≠ .eof := by
  by_cases hs : s.place.StartsSelf
  · rw [run_startsSelfParam hs] at h
    cases h
    exact kind_ne_of_startsSelf hs
  · rw [run_startsSelfParam_of_not hs] at h
    cases h

end StartsSelf

theorem locked_selfParam? : L.Locked fuel selfParam? selfParam? s s' :=
  .bindRun locked_startsSelfParam fun {starts starts' _ _} h hr => by
    obtain rfl : starts = starts' := h
    refine .ite (fun h => ?_) fun _ => .pure .none
    subst h
    exact .bind (locked_selfParam G (kind_ne_of_run_startsSelfParam hr)) fun hself =>
      .kind fun _ _ => .ite (fun _ => .pure hself.some) fun _ =>
        .bind (.expect nofun) fun _ => .pure hself.some

theorem locked_param : L.Locked fuel param param s s' :=
  .bind (.expect nofun) fun hname => .bind (.expect nofun) fun _ => .bind (locked_ty G) fun hty =>
    .bind (.declare fun hs => L.declareParam hs hname hty) fun _ =>
      .bind (.spanFrom hname.span) fun hspan => .pure <| by
        simp_all [TypedName.view]

theorem locked_functionBody (allowSignature : Bool) :
    L.Locked fuel (functionBody allowSignature) (functionBody allowSignature) s s' :=
  .kind fun _ hk => .ite
    (fun h => .ite (fun _ => .bind (.take (hk ▸ h ▸ nofun)) fun _ => .pure .none) fun _ => .fail)
    fun _ => .map (locked_block G) .some

theorem locked_function (allowSignature : Bool) (hk : s.cursor.kind ≠ .eof) :
    L.Locked fuel (function allowSignature) (function allowSignature) s s' :=
  .current hk fun hstart => .bind (.eat nofun) fun hconst => .bind (.expect nofun) fun _ =>
    .bind (.expect nofun) fun hname => .inScope <| .bind (.expect nofun) fun _ =>
      .bind (locked_selfParam? G) fun hself => .bind (.commaList (locked_param G)) fun hparams =>
        .bind (.expect nofun) fun _ => .bind (.after? nofun (locked_ty G)) fun hresult =>
          .bind (locked_functionBody G allowSignature) fun hbody =>
            .bind (.spanFrom hstart.span) fun hspan => .pure <| by
              simp_all [FunctionDecl.view]

theorem locked_constantValue (inTrait : Bool) :
    L.Locked fuel (constantValue inTrait) (constantValue inTrait) s s' :=
  .ifEat nofun (.map (locked_expr G _) .some) (.ite (fun _ => .pure .none) fun _ => .fail)

theorem locked_constant (inTrait : Bool) :
    L.Locked fuel (constant inTrait) (constant inTrait) s s' :=
  .bind (.expect nofun) fun hkeyword => .bind (.expectOneOf (by decide)) fun hname =>
    .bind (.expect nofun) fun _ => .bind (locked_ty G) fun hty =>
      .bind (locked_constantValue G inTrait) fun hvalue => .bind (.expect nofun) fun _ =>
        .bind (.spanFrom hkeyword.span) fun hspan => .pure <| by
          simp_all [ConstantDecl.view]

theorem locked_struct : L.Locked fuel struct struct s s' :=
  .bind (.expect nofun) fun hkeyword => .bind (.expect nofun) fun hname => .kind fun k hk => by
    split
    · exact .bind (.take (hk ▸ nofun)) fun _ => .bind (.spanFrom hkeyword.span) fun hspan => .pure <| by
        simp_all [Item.view]
    · exact .bind (.take (hk ▸ nofun)) fun _ => .bind (.commaList (locked_typedName G)) fun hfields =>
        .bind (.expect nofun) fun _ => .bind (.spanFrom hkeyword.span) fun hspan => .pure <| by
          simp_all [Item.view]
    · exact .fail

omit G in
theorem locked_enum : L.Locked fuel enum enum s s' :=
  .bind (.expect nofun) fun hkeyword => .bind (.expect nofun) fun hname =>
    .bind (.expect nofun) fun _ => .bind (.commaList (.expect nofun)) fun hvariants =>
      .bind (.expect nofun) fun _ => .bind (.spanFrom hkeyword.span) fun hspan => .pure <| by
        simp_all [Item.view]

theorem locked_member (inTrait : Bool) : L.Locked fuel (member inTrait) (member inTrait) s s' :=
  .kindAndNext (fun _ _ _ => .fail) fun k n hk _ hne => by
    have hne : s.cursor.kind ≠ .eof := hk ▸ hne
    have hfunction : L.Locked fuel (Member.function <$> function inTrait)
        (Member.function <$> function inTrait) s s' :=
      .map (locked_function G inTrait hne) fun h => by simp_all [Member.view]
    split
    · exact hfunction
    · exact hfunction
    · exact .map (locked_constant G inTrait) fun h => by
        simp_all [Member.view]
    · exact .fail

omit G in
theorem run_declaredMember_of_end {options : ParseOptions} {below : (g : Goal) → Reader g.Tree}
    {inTrait : Bool} (hk : s.cursor.kind = .eof) :
    (declaredMember inTrait).run options below s =
      .error (s.cursor.unexpected "an associated item") s := by
  obtain ⟨choice, hchoice, hend⟩ : ∃ choice : TokenKind → TokenKind → Phrase Member,
      member inTrait = (kind >>= fun k => nextKind >>= choice k) ∧
        ∀ k, choice .eof k = fail "an associated item" := ⟨_, rfl, fun _ => rfl⟩
  have hrun : (declaredMember inTrait).run options below s = (do
      let m ← choice s.cursor.kind (s.cursor.kindAhead 1)
      declare (.ofMember m) s.cursor.position
      return m : Phrase Member).run options below s := by
    rw [declaredMember, hchoice]
    rfl
  rw [hrun, hk, hend]
  rfl

theorem locked_declaredMember (inTrait : Bool) :
    L.Locked fuel (declaredMember inTrait) (declaredMember inTrait) s s' := by
  by_cases hk : s.cursor.kind = .eof
  · intro hs
    rw [run_declaredMember_of_end hk, run_declaredMember_of_end ((L.kind_eq hs).symm.trans hk)]
    exact ⟨L.unexpected _ hs, hs⟩
  · exact .bind (.position hk) fun hplace => .bind (locked_member G inTrait) fun hmember =>
      .bind (.declare fun hs => L.declareMember hs hmember hplace) fun _ => .pure hmember

theorem locked_members (inTrait : Bool) : L.Locked fuel (members inTrait) (members inTrait) s s' :=
  .inScope <| .bind (.expect nofun) fun _ =>
    .bind (.untilKind (fun _ => takes_declaredMember inTrait) fun _ => locked_declaredMember G inTrait)
      fun hmembers => .bind (.expect nofun) fun _ => .pure hmembers

theorem locked_trait : L.Locked fuel trait trait s s' :=
  .bind (.expect nofun) fun hkeyword => .bind (.expect nofun) fun hname =>
    .bind (locked_members G true) fun hmembers => .bind (.spanFrom hkeyword.span) fun hspan =>
      .pure <| by simp_all [Item.view]

omit G in
theorem locked_implTrait? : L.Locked fuel implTrait? implTrait? s s' :=
  .kindAndNext (fun _ _ _ => .pure .none) fun k n hk hn _ => by
    split
    · exact .bindRun (.take (hk ▸ nofun)) fun hname hr =>
        .bind (.take (kind_of_run_take hr ▸ hn ▸ nofun)) fun _ => .pure hname.some
    · exact .pure .none

theorem locked_impl : L.Locked fuel impl impl s s' :=
  .bind (.expect nofun) fun hkeyword => .bind locked_implTrait? fun htrait =>
    .bind (locked_ty G) fun htarget => .bind (locked_members G false) fun hmembers =>
      .bind (.spanFrom hkeyword.span) fun hspan => .pure <| by
        simp_all [Item.view]

theorem locked_item : L.Locked fuel item item s s' :=
  .kindAndNext (fun _ _ _ => .fail) fun k n hk _ hne => by
    have hne : s.cursor.kind ≠ .eof := hk ▸ hne
    have hfunction : L.Locked fuel (Item.function <$> function false)
        (Item.function <$> function false) s s' :=
      .map (locked_function G false hne) fun h => by simp_all [Item.view]
    split
    · exact hfunction
    · exact hfunction
    · exact .map (locked_constant G false) fun h => by simp_all [Item.view]
    · exact locked_struct G
    · exact locked_enum
    · exact locked_trait G
    · exact locked_impl G
    · exact .fail

theorem locked_declaredItem : L.Locked fuel declaredItem declaredItem s s' :=
  .bind (locked_item G) fun hitem =>
    .bind (.declare fun hs => L.declareItem hs hitem) fun _ => .pure hitem

theorem locked_letBinding : L.Locked fuel letBinding letBinding s s' :=
  .bind (.expect nofun) fun hkeyword => .bind (locked_pattern G) fun hpattern =>
    .bind (.after? nofun (locked_ty G)) fun hty => .bind (.after? nofun (locked_expr G _)) fun hvalue =>
      .bind (.expect nofun) fun _ => .bind (.bindPattern hpattern hty) fun _ =>
        .bind (.spanFrom hkeyword.span) fun hspan => .pure <| by
          simp_all [Stmt.view]

theorem locked_statement : L.Locked fuel statement statement s s' :=
  .kind fun _ _ => by
    have hitem : L.Locked fuel (Stmt.item <$> declaredItem) (Stmt.item <$> declaredItem) s s' :=
      .map (locked_declaredItem G) fun h => by simp_all [Stmt.view]
    split
    · exact locked_letBinding G
    · exact .bind (.expect nofun) fun h => .pure <| by
        have hspan := h.span
        simp_all [Stmt.view]
    all_goals first | exact hitem | exact .fail

theorem locked_exprElement : L.Locked fuel exprElement exprElement s s' :=
  .bind (locked_statementExpr G) fun hexpr => .ifEat nofun
    (.bind (.spanFrom hexpr.expr_span) fun hspan => .pure <| by
      simp_all [Element.view, Stmt.view])
    (.kind fun _ _ => by
      rw [hexpr.isBlockLike_eq]
      refine .ite (fun _ => .pure ?_) fun _ => .ite (fun _ => .pure ?_) fun _ => .fail
      · simp_all [Element.view]
      · have hspan := hexpr.expr_span
        simp_all [Element.view, Stmt.view])

theorem locked_elementRule : L.Locked fuel elementRule elementRule s s' := by
  have hstart : L.Locked fuel startsStatement startsStatement s s' := .kind fun k hk => by
    split
    · exact .nextKind (hk ▸ nofun) fun _ _ => .pure rfl
    all_goals exact .pure rfl
  refine .bind hstart fun {starts starts' _ _} h => ?_
  obtain rfl : starts = starts' := h
  exact .ite (fun _ => .map (locked_statement G) fun h => by
    simp_all [Element.view]) fun _ => locked_exprElement G

theorem locked_rule (g : Goal) : L.Locked fuel (rule g) (rule g) s s' := by
  cases g with
  | expr above => exact locked_exprRule G above
  | blockLike => exact locked_blockLikeRule G
  | block => exact locked_blockRule G
  | element => exact locked_elementRule G
  | elseIf => exact locked_conditional G
  | arm => exact locked_armRule G
  | ty => exact locked_tyRule G
  | pattern => exact locked_patternRule G

end Grammar

/-- Goals are read alike, however many levels of nesting are left. -/
theorem Lockstep.goals (L : Lockstep) (fuel : Nat) : L.Goals fuel := by
  intro g s s'
  unfold Locked
  rw [Phrase.run_goal, Phrase.run_goal]
  induction fuel generalizing g s s' with
  | zero => exact fun hs => ⟨L.tooDeep hs, hs⟩
  | succ fuel ih =>
    have hgoals : L.Goals fuel := fun g s s' => by
      unfold Locked
      rw [Phrase.run_goal, Phrase.run_goal]
      exact ih g s s'
    exact Agree.nested fun s s' => Grammar.locked_rule hgoals g

open Phrase Grammar in
/-- The items of a source file are read alike. -/
theorem Lockstep.locked_items (L : Lockstep) {s s' : ParseState} :
    L.Locked L.limit (untilKind .eof declaredItem) (untilKind .eof declaredItem) s s' :=
  .untilKind (fun _ => takes_declaredItem) fun _ => locked_declaredItem (L.goals L.limit)

section Files

open Phrase Grammar

variable {tokens : List Token} {file : String} {options : ParseOptions} {t : ParseState}

/-- A file is read if its items are, up to where the input ends. -/
theorem parse_of_ok {items : List Item}
    (h : (untilKind .eof declaredItem).read options (.initial tokens file) = .ok items t) :
    parse tokens file options = .ok ⟨items, ⟨.origin file, t.cursor.position⟩⟩ t :=
  run_bind_of_ok h

theorem parse_of_error {e : SyntaxError}
    (h : (untilKind .eof declaredItem).read options (.initial tokens file) = .error e t) :
    parse tokens file options = .error e t := run_bind_of_error h

/-- Two readings of source files that are compared both fail, with errors that correspond, or both
come to the end with items that look alike. -/
theorem Lockstep.parse_alike (L : Lockstep) {tokens' : List Token}
    (h : L.states (.initial tokens file) (.initial tokens' file)) :
    (∃ items items' t t',
      parse tokens file L.options = .ok ⟨items, ⟨.origin file, t.cursor.position⟩⟩ t ∧
      parse tokens' file L.options' = .ok ⟨items', ⟨.origin file, t'.cursor.position⟩⟩ t' ∧
      L.Alike items items' ∧ L.states t t') ∨
    (∃ e e' t t', parse tokens file L.options = .error e t ∧
      parse tokens' file L.options' = .error e' t' ∧
      L.errors t.cursor t'.cursor e e' ∧ L.states t t') := by
  have hitems : L.Ends ((untilKind .eof declaredItem).read L.options (.initial tokens file))
    ((untilKind .eof declaredItem).read L.options' (.initial tokens' file)) := L.locked_items h
  match hr : (untilKind .eof declaredItem).read L.options (.initial tokens file),
    hr' : (untilKind .eof declaredItem).read L.options' (.initial tokens' file) with
  | .ok items t, .ok items' t' =>
    rw [hr, hr'] at hitems
    exact .inl ⟨items, items', t, t', parse_of_ok hr, parse_of_ok hr', hitems⟩
  | .error e t, .error e' t' =>
    rw [hr, hr'] at hitems
    exact .inr ⟨e, e', t, t', parse_of_error hr, parse_of_error hr', hitems⟩
  | .ok items t, .error e' t' | .error e t, .ok items' t' =>
    rw [hr, hr'] at hitems
    exact hitems.elim

end Files

end FrontEnd
