import FrontEnd.Proofs.Yields
/-!
# Soundness

Every tree that a run yields is derived by the rules of the grammar, from the place where the run
starts to the place where it stops.
-/
namespace FrontEnd

open Grammar Phrase

variable {options : ParseOptions} {fuel ℓ : Nat} {b : Bool} {x : Place}

def Phrase.Sound (options : ParseOptions) (fuel : Nat) (σ : Form) (p : Phrase σ.Tree) : Prop :=
  ∀ {ℓ b x}, Yields options fuel ℓ b p x (Derives options.resolvePatterns σ ℓ b x)

/-- An element that is read at the first place, up to the second. -/
def Element.Derived (resolve : Bool) (ℓ : Nat) (b : Bool) (x : Place) (y : Place) : Element → Prop
  | .statement s => Derives resolve .element ℓ b x s y
  | .tail e => ¬x.StartsStatement ∧ Derives resolve .statementExpr ℓ b x e y ∧ y.kind = .closeCurly

/-- The span starts where the token at the place does. -/
def Span.StartsAt (sp : Span) (x : Place) : Prop :=
  ∀ t, x.rest.head? = some t → sp.start = t.span.start

/-- What the goals yield. Those that have no form of their own take a level more than the form that
they are read as. -/
structure Goal.Sound (options : ParseOptions) (fuel : Nat) : Prop where
  expr (above : Tier) : Phrase.Sound options fuel (.expr above) (goal (.expr above))
  blockLike {ℓ : Nat} {b : Bool} {x : Place} (hx : x.StartsBlockLike) : Yields options fuel ℓ b (goal .blockLike) x
    (Derives options.resolvePatterns .statementExpr ℓ b x)
  block : Phrase.Sound options fuel .block (goal .block)
  element {ℓ : Nat} {b : Bool} {x : Place} : Yields options fuel ℓ b (goal .element) x fun e y =>
    ∃ m, ℓ = m + 1 ∧ e.Derived options.resolvePatterns m b x y
  elseIf {ℓ : Nat} {b : Bool} {x : Place} : Yields options fuel ℓ b (goal .elseIf) x fun c y =>
    ∃ m, ℓ = m + 1 ∧ Derives options.resolvePatterns .conditional m b x c y
  arm : Phrase.Sound options fuel .arm (goal .arm)
  ty : Phrase.Sound options fuel .ty (goal .ty)
  pattern : Phrase.Sound options fuel .pattern (goal .pattern)

namespace Phrase.Sound

variable {σ : Form} {p : Phrase σ.Tree} {k : TokenKind}

theorem after? (hp : p.Sound options fuel σ) (hk : k ∈ optionalMarks) :
    (after? k p).Sound options fuel (.after k σ) := by
  intro ℓ b x
  refine .ifEat (fun t y ht hx => ?_) fun hx => .pure (.afterNothing hk hx)
  subst hx
  exact hp.map fun a z ha => .afterSome hk ht ha

theorem eachAfter (hk : σ.Joined k) (hp : p.Sound options fuel σ) :
    (eachAfter k p).Sound options fuel (.eachAfter k σ) := by
  intro ℓ b x
  refine .repeated fun x => .ifEat (fun t y ht hx => ?_) fun hx => .pure (.eachNil hk hx)
  subst hx
  exact hp.map fun a z ha => ⟨Nat.lt_succ_of_le ha.length_le, fun as w has => .eachCons hk ht ha has⟩

/-- What is read up to a bracket becomes derived when the bracket is read. -/
theorem afterFirst (br : Bracket) (hp : p.Sound options fuel σ) (hl : σ.Listed) :
    Yields options fuel ℓ b (afterFirst br.closing p) x fun as y =>
      ∀ c z, c.kind = br.closing → y = ⟨c :: z.rest, z.names⟩ →
        Derives options.resolvePatterns (.more br σ) ℓ b x as z := by
  refine .repeated (I := fun x as y => ∀ c z, c.kind = br.closing → y = ⟨c :: z.rest, z.names⟩ →
    Derives options.resolvePatterns (.more br σ) ℓ b x as z) fun x =>
      .ifEat (fun t y ht hx => ?_) fun _ => .pure ?_
  · subst hx
    refine .kind (.ite (fun hy => .pure ?_) fun hy => hp.map fun a z ha => ⟨?_, fun as w has => ?_⟩)
    · rintro c z hc rfl
      exact .moreComma ht hc
    · exact Nat.lt_succ_of_le ha.length_le
    · intro c v hc hw
      exact Derives.moreCons hl ht hy ha (has c v hc hw)
  · rintro c z hc rfl
    exact .moreNil hc

theorem commaList (br : Bracket) (hp : p.Sound options fuel σ) (hl : σ.Listed) :
    Yields options fuel ℓ b (commaList br.closing p) x fun as y =>
      ∀ c z, c.kind = br.closing → y = ⟨c :: z.rest, z.names⟩ →
        Derives options.resolvePatterns (.list br σ) ℓ b x as z := by
  refine .kind (.ite (fun hx => .pure ?_) fun hx => .bind hp fun a y ha => ?_)
  · rintro c z hc rfl
    exact .listNil hc
  · refine .bind (hp.afterFirst br hl) fun as z has => .pure ?_
    intro c w hc hz
    exact .listCons hl hx ha (has c w hc hz)

/-- A list and the bracket that closes it. -/
theorem closedList (br : Bracket) (hp : p.Sound options fuel σ) (hl : σ.Listed) {β : Type}
    {f : List σ.Tree → Token → Phrase β} {R : β → Place → Prop}
    (hf : ∀ as c y, Derives options.resolvePatterns (.list br σ) ℓ b x as y →
      Yields options fuel ℓ b (f as c) y R) :
    Yields options fuel ℓ b
      (do let as ← Phrase.commaList br.closing p; let c ← expect br.closing; f as c) x R :=
  .bind (hp.commaList br hl) fun as _ has => .bind .expect fun c z ⟨hc, hy⟩ =>
    hf as c z (has c z hc hy)

theorem referenceLayers {layer : Bool → σ.Tree → Span → σ.Tree} {spanOf : σ.Tree → Span}
    {R : σ.Tree → Place → Prop} (hp : p.Sound options fuel σ)
    (hx : x.kind = .ampersand ∨ x.kind = .andAnd)
    (hone : ∀ t y m z a w sp, x = ⟨t :: y.rest, y.names⟩ → t.kind = .ampersand →
      Derives options.resolvePatterns (.flag .kwMut) ℓ b y m z →
      Derives options.resolvePatterns σ ℓ b z a w → R (layer m a sp) w)
    (htwo : ∀ t y m z a w sp, x = ⟨t :: y.rest, y.names⟩ → t.kind = .andAnd →
      Derives options.resolvePatterns (.flag .kwMut) ℓ b y m z →
      Derives options.resolvePatterns σ ℓ b z a w → R (layer false (layer m a sp) sp) w) :
    Yields options fuel ℓ b (referenceLayers layer spanOf p) x R := by
  refine .bind .take fun t y hy => .bind (.flag (by decide)) fun m z hm =>
    .bind hp fun a w ha => .pure ?_
  by_cases ht : t.kind = .andAnd
  · rw [if_pos ht]
    exact htwo t y m z a w _ hy ht hm ha
  · rw [if_neg ht]
    have ht' : t.kind = .ampersand := by simpa [hy, ht] using hx
    exact hone t y m z a w _ hy ht' hm ha

end Phrase.Sound

namespace Grammar

theorem sound_segment {expected : String} :
    Phrase.Sound options fuel .segment (expectOneOf pathSegments expected) := by
  intro ℓ b x
  refine Yields.expectOneOf.mono fun t y ⟨ht, hx⟩ => ?_
  subst hx
  exact .segment ht

theorem sound_path : path.Sound options fuel .path := by
  intro ℓ b x
  refine .bind .expectOneOf fun t y ⟨ht, hx⟩ => ?_
  subst hx
  refine .bind (sound_segment.eachAfter (.inl ⟨rfl, rfl⟩)) fun ts z hts => ?_
  exact .spanFrom fun sp _ => .pure (.path ht hts)

theorem yields_startsBlockLike : Yields options fuel ℓ b startsBlockLike x fun r y =>
    (r = true ↔ x.StartsBlockLike) ∧ y = x := by
  refine .kind ?_
  split
  · refine .nextKind (.pure ⟨?_, rfl⟩)
    simp [Place.StartsBlockLike, *]
  all_goals exact .pure ⟨by simp_all [Place.StartsBlockLike], rfl⟩

theorem yields_startsSelfParam : Yields options fuel ℓ b startsSelfParam x fun _ y => y = x := by
  refine .kind (.nextKind (.kindAfterNext ?_))
  split <;> exact .pure rfl

theorem yields_startsStatement : Yields options fuel ℓ b startsStatement x fun r y =>
    (r = true ↔ x.StartsStatement) ∧ y = x := by
  refine .kind ?_
  split
  · refine .nextKind (.pure ⟨?_, rfl⟩)
    simp [Place.StartsStatement, *]
  all_goals exact .pure ⟨by simp_all [Place.StartsStatement], rfl⟩

variable (G : Goal.Sound options fuel)
include G

theorem sound_ty : ty.Sound options fuel .ty := .kind (.ite (fun _ => G.ty) fun _ => .fail)

theorem yields_bracketType (hx : x.kind = .openBracket) : Yields options fuel ℓ b bracketType x
    (Derives options.resolvePatterns .ty (ℓ + 1) b x) := by
  refine .bind .take fun t y hy => ?_
  subst hy
  refine .bind (sound_ty G) fun a z ha => .ifEat (fun s w hs hz => ?_) fun _ => ?_
  · subst hz
    refine .bind (.withStructLiterals (G.expr .lowest)) fun e v he => ?_
    refine .bind .expect fun c u ⟨hc, hv⟩ => ?_
    subst hv
    exact .spanFrom fun sp _ => .pure (.tyArray hx ha hs he hc)
  · refine .bind .expect fun c u ⟨hc, hz⟩ => ?_
    subst hz
    exact .spanFrom fun sp _ => .pure (.tySlice hx ha hc)

theorem yields_parenType (hx : x.kind = .openParen) : Yields options fuel ℓ b parenType x
    (Derives options.resolvePatterns .ty (ℓ + 1) b x) := by
  refine .bind .take fun t y hy => ?_
  subst hy
  refine .ifEat (fun c z hc hy => ?_) fun _ => ?_
  · subst hy
    exact .spanFrom fun sp _ => .pure (.tyUnit hx hc)
  · refine .bind (sound_ty G) fun a z ha => .ifEat (fun c w hc hz => ?_) fun hz => ?_
    · subst hz
      exact .pure (.tyParen hx ha hc)
    · refine .bind (Phrase.Sound.afterFirst .round (sound_ty G) trivial) fun as w has => ?_
      refine .bind .expect fun c v ⟨hc, hw⟩ => ?_
      exact .spanFrom fun sp _ => .pure (.tyTuple hx ha hz (has c v hc hw))

theorem yields_tyRule : Yields options fuel ℓ b tyRule x
    (Derives options.resolvePatterns .ty (ℓ + 1) b x) := by
  have reference (hx : x.kind = .ampersand ∨ x.kind = .andAnd) :
      Yields options fuel ℓ b (referenceLayers Ty.reference Ty.span ty) x
        (Derives options.resolvePatterns .ty (ℓ + 1) b x) := by
    refine Phrase.Sound.referenceLayers (sound_ty G) hx ?_ ?_
    · rintro t y m z a w sp rfl ht hm ha
      exact .tyReference ht hm ha
    · rintro t y m z a w sp rfl ht hm ha
      exact .tyReferences ht hm ha
  refine .kind ?_
  split
  · exact Yields.map sound_path fun p y hp => .tyPath (.inl ‹_›) hp
  · exact Yields.map sound_path fun p y hp => .tyPath (.inr ‹_›) hp
  · exact reference (.inl ‹_›)
  · exact reference (.inr ‹_›)
  · exact yields_bracketType G ‹_›
  · exact yields_parenType G ‹_›
  · rename_i hx
    refine .map .take fun t y hy => ?_
    subst hy
    exact .tyNever hx
  · rename_i hx
    refine .map .take fun t y hy => ?_
    subst hy
    exact .tyInferred hx
  · exact .fail

theorem yields_pathPattern (hx : x.StartsPath options.resolvePatterns) :
    Yields options fuel ℓ b pathPattern x
      (Derives options.resolvePatterns .pattern (ℓ + 1) b x) := by
  refine .bind sound_path fun p y hp => .ifEat (fun t z ht hy => ?_) fun hy => ?_
  · subst hy
    refine Phrase.Sound.closedList .round G.pattern trivial fun ps c w hps => ?_
    exact .spanFrom fun sp _ => .pure (.patTuple hx hp ht hps)
  · exact .pure (.patPath hx hp hy)

theorem yields_identifierPattern (hx : x.StartsBinding options.resolvePatterns) :
    Yields options fuel ℓ b identifierPattern x
      (Derives options.resolvePatterns .pattern (ℓ + 1) b x) := by
  refine .current fun start _ => .bind (.flag (by decide)) fun byRef y hr =>
    .bind (.flag (by decide)) fun mutable z hm => ?_
  refine .bind .expect fun t w ⟨ht, hz⟩ => ?_
  subst hz
  refine .bind (Phrase.Sound.after? G.pattern (by decide)) fun sub v hs => ?_
  exact .spanFrom fun sp _ => .pure (.patBinding hx hr hm ht hs)

theorem yields_namePattern {t : Token} (ht : x.rest.head? = some t) (hx : x.kind = .identifier) :
    Yields options fuel ℓ b (namePattern t.value) x
      (Derives options.resolvePatterns .pattern (ℓ + 1) b x) := by
  refine .nextKind ?_
  split
  · exact yields_pathPattern G (.inr (.inr ⟨hx, .inl ‹_›⟩))
  · exact yields_pathPattern G (.inr (.inr ⟨hx, .inr (.inl ‹_›)⟩))
  · exact yields_identifierPattern G (.inr (.inr ⟨hx, .inl ‹_›⟩))
  · rename_i hpath hparen hat
    have hname : x.NamesConstant options.resolvePatterns ↔
        (options.resolvePatterns && x.names.isConstant t.value) = true := by
      simp [Place.NamesConstant, ht]
    refine .isConstant (.ite (fun h => ?_) fun h => ?_)
    · exact yields_pathPattern G (.inr (.inr ⟨hx, .inr (.inr ⟨hat, hname.2 h⟩)⟩))
    · exact yields_identifierPattern G
        (.inr (.inr ⟨hx, .inr ⟨hpath, hparen, fun hc => h (hname.1 hc)⟩⟩))

theorem yields_patternRule : Yields options fuel ℓ b patternRule x
    (Derives options.resolvePatterns .pattern (ℓ + 1) b x) := by
  have reference (hx : x.kind = .ampersand ∨ x.kind = .andAnd) :
      Yields options fuel ℓ b (referenceLayers Pattern.reference Pattern.span pattern) x
        (Derives options.resolvePatterns .pattern (ℓ + 1) b x) := by
    refine Phrase.Sound.referenceLayers G.pattern hx ?_ ?_
    · rintro t y m z p w sp rfl ht hm hp
      exact .patReference ht hm hp
    · rintro t y m z p w sp rfl ht hm hp
      exact .patReferences ht hm hp
  have literal (hx : x.kind.isLiteral) : Yields options fuel ℓ b literalPattern x
      (Derives options.resolvePatterns .pattern (ℓ + 1) b x) := by
    refine .bind .take fun t y hy => .pure ?_
    subst hy
    exact .patLiteral hx
  refine .current fun t ht => ?_
  have hkind : x.kind = t.kind := by
    obtain ⟨_ | ⟨t', ts⟩, n⟩ := x <;> cases ht
    rfl
  rw [← hkind]
  split <;> rename_i h
  · refine .bind .take fun t y hy => .bind .expect fun l z ⟨hl, hz⟩ => .pure ?_
    subst hy hz
    exact .patNegated h hl
  · exact literal (h ▸ rfl)
  · exact literal (h ▸ rfl)
  · exact literal (h ▸ rfl)
  · exact literal (h ▸ rfl)
  · exact literal (h ▸ rfl)
  · refine .map .take fun t y hy => ?_
    subst hy
    exact .patWildcard h
  · exact reference (.inl h)
  · exact reference (.inr h)
  · exact yields_identifierPattern G (.inl h)
  · exact yields_identifierPattern G (.inr (.inl h))
  · exact yields_pathPattern G (.inl h)
  · exact yields_pathPattern G (.inr (.inl h))
  · exact yields_namePattern G ht h
  · exact .fail

theorem sound_statementExpr : statementExpr.Sound options fuel .statementExpr := by
  intro ℓ b x
  refine .bind yields_startsBlockLike fun r y ⟨hr, hy⟩ => ?_
  subst hy
  refine .ite (fun h => G.blockLike (hr.1 h)) fun h => ?_
  exact Yields.mono (G.expr .lowest) fun e z he => .stmtExpr (fun hx => h (hr.2 hx)) he

theorem yields_elements : Yields options fuel ℓ b (untilKind .closeCurly (goal .element)) x
    fun es y => ∀ c z, c.kind = .closeCurly → y = ⟨c :: z.rest, z.names⟩ →
      Derives options.resolvePatterns .elements ℓ b x
        (Element.statements es, Element.tail? es) z := by
  -- after a tail stands the closing brace, so that no element follows it
  refine Yields.mono (Yields.untilKind (I := fun x es y =>
    (x.kind = .closeCurly → es = [] ∧ y = x) ∧
    ∀ c z, c.kind = .closeCurly → y = ⟨c :: z.rest, z.names⟩ →
      Derives options.resolvePatterns .elements ℓ b x
        (Element.statements es, Element.tail? es) z) ?_ ?_) fun es y h => h.2
  · refine fun x _ => ⟨fun _ => ⟨rfl, rfl⟩, ?_⟩
    rintro c z hc rfl
    exact .elementsNil hc
  · refine fun x hx => Yields.mono G.element fun e y ⟨m, hm, he⟩ => ?_
    subst hm
    cases e with
    | statement s =>
      refine ⟨he.length_lt trivial, fun es z ⟨_, h⟩ => ⟨fun h => absurd h hx, ?_⟩⟩
      intro c w hc hz
      rw [Element.tail?_cons_statement]
      exact .elementsCons he (h c w hc hz)
    | tail e =>
      obtain ⟨hstart, he, hy⟩ := he
      refine ⟨he.length_lt trivial, fun es z ⟨hnil, _⟩ => ⟨fun h => absurd h hx, ?_⟩⟩
      intro c w hc hz
      obtain ⟨rfl, rfl⟩ := hnil hy
      subst hz
      exact .elementsTail hstart he hc

theorem yields_blockRule : Yields options fuel ℓ b blockRule x
    (Derives options.resolvePatterns .block (ℓ + 1) b x) := by
  refine .inScope (.withStructLiterals (.bind .expect fun t y ⟨ht, hx⟩ => ?_))
  refine .bind (yields_elements G) fun es z hes => .bind .expect fun c w ⟨hc, hz⟩ => ?_
  refine .spanFrom fun sp _ => .pure ?_
  obtain ⟨i, n⟩ := x
  obtain ⟨rfl, hn⟩ : i = t :: y.rest ∧ n.push = y.names := by simpa using hx
  refine .block ht ?_
  rw [hn]
  exact hes c w hc hz

theorem sound_constBlock : Yields options fuel ℓ b constBlock x
    (Derives options.resolvePatterns .term ℓ b x) := by
  refine .bind .expect fun t y ⟨ht, hx⟩ => .kind (.ite (fun _ => ?_) fun _ => .fail)
  subst hx
  exact .bind G.block fun bl z hb => .spanFrom fun sp _ => .pure (.termConst ht hb)

theorem yields_link : Yields options fuel ℓ b link x fun l y =>
    Derives options.resolvePatterns .link ℓ b x l y ∧
      (x.kind = .kwLet → Derives options.resolvePatterns .letLink ℓ b x l y) := by
  refine .current fun start _ => .ifEat (fun t y ht hx => ?_) fun hx => ?_
  · subst hx
    refine .bind G.pattern fun p z hp => .bind .expect fun s w ⟨hs, hz⟩ => ?_
    subst hz
    refine .bind (G.expr .logicalAnd) fun v u hv => .bind (.bindAll _) fun _ u' hu => ?_
    subst hu
    exact .spanFrom fun sp _ => .pure ⟨.linkOfLet (.linkLet ht hp hs hv), fun _ => .linkLet ht hp hs hv⟩
  · refine .bind (G.expr .logicalAnd) fun v u hv => ?_
    exact .spanFrom fun sp _ => .pure ⟨.linkTest hv, fun h => absurd h hx⟩

theorem sound_condition : condition.Sound options fuel .condition := by
  intro ℓ b x
  refine .withStructLiterals (.kind (.ite (fun hx => ?_) fun _ => ?_))
  · refine .bind (yields_link G) fun l y ⟨_, hl⟩ => ?_
    have hlink : link.Sound options fuel .link := (yields_link G).mono fun l y h => h.1
    exact .bind (hlink.eachAfter (.inr ⟨rfl, rfl⟩)) fun ls z hls => .pure (.condLet (hl hx) hls)
  · exact Yields.map (G.expr .lowest) fun e y he => .condExpr he

theorem yields_guardedBlock : Yields options fuel ℓ b guardedBlock x fun cb y =>
    ∃ z w, Derives options.resolvePatterns .condition ℓ b ⟨x.rest, x.names.push⟩ cb.1 z ∧
      Derives options.resolvePatterns .block ℓ b z cb.2 w ∧ y = ⟨w.rest, w.names.pop⟩ := by
  refine .inScope (.bind (sound_condition G) fun c z hc => .bind G.block fun bl w hb => ?_)
  exact .pure ⟨z, w, hc, hb, rfl⟩

theorem sound_otherwise : otherwise.Sound options fuel .otherwise := by
  intro ℓ b x
  refine .ifEat (fun t y ht hx => ?_) fun hx => .pure (.elseNothing hx)
  subst hx
  refine .kind (.ite (fun _ => ?_) fun _ => ?_)
  · refine .map G.elseIf fun c z ⟨m, hm, hc⟩ => ?_
    subst hm
    exact .elseIf ht hc
  · exact Yields.map G.block fun bl z hb => .elseBlock ht hb

theorem sound_conditional : conditional.Sound options fuel .conditional := by
  intro ℓ b x
  refine .bind .expect fun t y ⟨ht, hx⟩ => ?_
  subst hx
  refine .bind (yields_guardedBlock G) fun cb y' ⟨z, w, hc, hb, hy'⟩ => ?_
  subst hy'
  refine .bind (sound_otherwise G) fun o v ho => ?_
  exact .spanFrom fun sp _ => .pure (.conditional ht hc hb ho)

theorem yields_whileLoop : Yields options fuel ℓ b whileLoop x
    (Derives options.resolvePatterns .term ℓ b x) := by
  refine .bind .expect fun t y ⟨ht, hx⟩ => ?_
  subst hx
  refine .bind (yields_guardedBlock G) fun cb y' ⟨z, w, hc, hb, hy'⟩ => ?_
  subst hy'
  exact .spanFrom fun sp _ => .pure (.termWhile ht hc hb)

theorem yields_loop : Yields options fuel ℓ b loop x
    (Derives options.resolvePatterns .term ℓ b x) := by
  refine .bind .expect fun t y ⟨ht, hx⟩ => ?_
  subst hx
  exact .bind G.block fun bl z hb => .spanFrom fun sp _ => .pure (.termLoop ht hb)

theorem yields_armRule : Yields options fuel ℓ b armRule x
    (Derives options.resolvePatterns .arm (ℓ + 1) b x) := by
  refine .inScope (.bind G.pattern fun p y hp => .bind (.bindAll _) fun _ y' hy => ?_)
  subst hy
  refine .bind (Phrase.Sound.after? (G.expr .lowest) (by decide)) fun g z hg => ?_
  refine .bind .expect fun f w ⟨hf, hz⟩ => ?_
  subst hz
  exact .bind (sound_statementExpr G) fun e v he => .pure (.arm hp hg hf he)

theorem yields_armAndComma : Yields options fuel ℓ b armAndComma x fun a y =>
    y.rest.length < x.rest.length ∧ ∀ as z, Derives options.resolvePatterns .arms ℓ b y as z →
      Derives options.resolvePatterns .arms ℓ b x (a :: as) z := by
  refine .bind G.arm fun a y ha => .ifEat (fun t z ht hy => .pure ?_) fun hy => ?_
  · subst hy
    have hlt : z.rest.length + 1 < x.rest.length := ha.length_lt trivial
    exact ⟨by omega, fun as w has => .armsComma ha ht has⟩
  · refine .kind (.ite (fun h => .pure ?_) fun _ => .fail)
    exact ⟨ha.length_lt trivial, fun as w has => .armsBare ha hy h has⟩

theorem yields_matching : Yields options fuel ℓ b matching x
    (Derives options.resolvePatterns .term ℓ b x) := by
  refine .bind .expect fun t y ⟨ht, hx⟩ => ?_
  subst hx
  refine .bind (.withStructLiterals (G.expr .lowest)) fun e z he => ?_
  refine .bind .expect fun o w ⟨ho, hz⟩ => ?_
  subst hz
  have arms : Yields options fuel ℓ true (untilKind .closeCurly armAndComma) w fun as z =>
      ∀ c u, c.kind = .closeCurly → z = ⟨c :: u.rest, u.names⟩ →
        Derives options.resolvePatterns .arms ℓ true w as u := by
    refine .untilKind (I := fun x as z => ∀ c u, c.kind = .closeCurly →
      z = ⟨c :: u.rest, u.names⟩ → Derives options.resolvePatterns .arms ℓ true x as u) ?_ ?_
    · rintro x - c u hc rfl
      exact .armsNil hc
    · refine fun x _ => (yields_armAndComma G).mono fun a y ⟨hlt, hcons⟩ => ⟨hlt, ?_⟩
      exact fun as z h c u hc hz => hcons as u (h c u hc hz)
  refine .bind (.withStructLiterals arms) fun as v has => .bind .expect fun c u ⟨hc, hv⟩ => ?_
  exact .spanFrom fun sp _ => .pure (.termMatch ht he ho (has c u hc hv))

theorem sound_fieldValue : fieldValue.Sound options fuel .field := by
  intro ℓ b x
  refine .bind .expect fun t y ⟨ht, hx⟩ => ?_
  subst hx
  refine .bind (Phrase.Sound.after? (G.expr .lowest) (by decide)) fun v z hv => ?_
  cases hv with
  | afterNothing _ h => exact .pure (.fieldShort ht h)
  | afterSome _ hc he => exact .pure (.fieldLong ht hc he)

theorem yields_structLiteral {p : Path} {y : Place} (hy : y.kind = .openCurly)
    (hp : Derives options.resolvePatterns .path ℓ true x p y) :
    Yields options fuel ℓ true (structLiteral p) y
      (Derives options.resolvePatterns .term ℓ true x) := by
  refine .bind .expect fun t z ⟨ht, hz⟩ => ?_
  subst hz
  have fields : Yields options fuel ℓ true
      (do
        let fields ← commaList .closeCurly fieldValue
        let _ ← expect .closeCurly
        return fields) z
      (Derives options.resolvePatterns (.list .curly .field) ℓ true z) :=
    Phrase.Sound.closedList .curly (sound_fieldValue G) trivial fun fs c w hfs => .pure hfs
  refine .bind (.withStructLiterals fields) fun fs w hfs => ?_
  exact .spanFrom fun sp _ => .pure (.termStruct hp ht hfs)

theorem yields_pathExpr : Yields options fuel ℓ b pathExpr x
    (Derives options.resolvePatterns .term ℓ b x) := by
  refine .bind sound_path fun p y hp => .kind (.allowsStructLiterals (.ite (fun h => ?_) fun h => ?_))
  · obtain ⟨hy, rfl⟩ := h
    exact yields_structLiteral G hy hp
  · exact .pure (.termPath hp h)

theorem yields_unary (hx : x.kind = .dash ∨ x.kind = .bang) : Yields options fuel ℓ b unary x
    (Derives options.resolvePatterns .term ℓ b x) := by
  refine .bind .take fun t y hy => ?_
  subst hy
  exact .bind (G.expr .unary) fun e z he => .pure (.termUnary hx he)

theorem yields_deref (hx : x.kind = .star) : Yields options fuel ℓ b deref x
    (Derives options.resolvePatterns .term ℓ b x) := by
  refine .bind .take fun t y hy => ?_
  subst hy
  exact .bind (G.expr .unary) fun e z he => .pure (.termDeref hx he)

theorem yields_borrow (hx : x.kind = .ampersand ∨ x.kind = .andAnd) :
    Yields options fuel ℓ b (referenceLayers Expr.borrow Expr.span (expr .unary)) x
      (Derives options.resolvePatterns .term ℓ b x) := by
  refine Phrase.Sound.referenceLayers (G.expr .unary) hx ?_ ?_
  · rintro t y m z e w sp rfl ht hm he
    exact .termBorrow ht hm he
  · rintro t y m z e w sp rfl ht hm he
    exact .termBorrows ht hm he

theorem yields_grouped (hx : x.kind = .openParen) : Yields options fuel ℓ b grouped x
    (Derives options.resolvePatterns .term ℓ b x) := by
  refine .bind .take fun t y hy => ?_
  subst hy
  refine .bind (.withStructLiterals (G.expr .lowest)) fun e z he => ?_
  refine .bind .expect fun c w ⟨hc, hz⟩ => ?_
  subst hz
  exact .spanFrom fun sp _ => .pure (.termGrouped hx he hc)

theorem yields_array (hx : x.kind = .openBracket) : Yields options fuel ℓ b array x
    (Derives options.resolvePatterns .term ℓ b x) := by
  refine .bind .take fun t y hy => .withStructLiterals ?_
  subst hy
  refine .ifEat (fun c z hc hy => ?_) fun _ => .bind (G.expr .lowest) fun e z he => ?_
  · subst hy
    exact .spanFrom fun sp _ => .pure (.termEmptyArray hx hc)
  · refine .ifEat (fun s w hs hz => ?_) fun _ => ?_
    · subst hz
      refine .bind (G.expr .lowest) fun l v hl => .bind .expect fun c u ⟨hc, hv⟩ => ?_
      subst hv
      exact .spanFrom fun sp _ => .pure (.termRepeat hx he hs hl hc)
    · refine .bind (Phrase.Sound.afterFirst .square (G.expr .lowest) trivial) fun es w hes => ?_
      refine .bind .expect fun c v ⟨hc, hw⟩ => .spanFrom fun sp _ => .pure ?_
      exact .termArray hx he (hes c v hc hw)

theorem sound_jumpValue : jumpValue.Sound options fuel .jumpValue := by
  intro ℓ b x
  have starts : Yields options fuel ℓ b startsExpr x fun r y =>
      r = decide (x.kind ∈ exprStarts) ∧ y = x := .kind (.pure ⟨rfl, rfl⟩)
  refine .bind starts fun r y ⟨hr, hy⟩ => ?_
  subst hy
  refine .ite (fun _ => ?_) fun h => .pure (.jumpNothing (by simpa [hr] using h))
  exact Yields.map (G.expr .lowest) fun e z he => .jumpValue he

theorem yields_term : Yields options fuel ℓ b term x
    (Derives options.resolvePatterns .term ℓ b x) := by
  have literal (hx : x.kind.isLiteral) : Yields options fuel ℓ b (Expr.literal <$> take) x
      (Derives options.resolvePatterns .term ℓ b x) := by
    refine .map .take fun t y hy => ?_
    subst hy
    exact .termLiteral hx
  refine .kind ?_
  split <;> rename_i h
  · exact literal (h ▸ rfl)
  · exact literal (h ▸ rfl)
  · exact literal (h ▸ rfl)
  · exact literal (h ▸ rfl)
  · exact literal (h ▸ rfl)
  · exact yields_pathExpr G
  · exact yields_pathExpr G
  · exact yields_pathExpr G
  · exact yields_unary G (.inl h)
  · exact yields_unary G (.inr h)
  · exact yields_deref G h
  · exact yields_borrow G (.inl h)
  · exact yields_borrow G (.inr h)
  · exact yields_grouped G h
  · exact yields_array G h
  · refine .map .take fun t y hy => ?_
    subst hy
    exact .termUnderscore h
  · refine .bind .take fun t y hy => .bind (sound_jumpValue G) fun v z hv => ?_
    subst hy
    exact .spanFrom fun sp _ => .pure (.termBreak h hv)
  · refine .map .take fun t y hy => ?_
    subst hy
    exact .termContinue h
  · refine .bind .take fun t y hy => .bind (sound_jumpValue G) fun v z hv => ?_
    subst hy
    exact .spanFrom fun sp _ => .pure (.termReturn h hv)
  · exact Yields.map G.block fun bl y hb => .termBlock hb
  · exact sound_constBlock G
  · exact Yields.map (sound_conditional G) fun c y hc => .termIf hc
  · exact yields_matching G
  · exact yields_loop G
  · exact yields_whileLoop G
  · exact .fail

theorem yields_arguments : Yields options fuel ℓ b arguments x fun as y =>
    Derives options.resolvePatterns (.list .round (.expr .lowest)) ℓ true x as.1 y :=
  .withStructLiterals (Phrase.Sound.closedList .round (G.expr .lowest) trivial
    fun _ _ _ has => .pure has)

theorem yields_memberSuffix (hx : x.kind = .dot) : Yields options fuel ℓ b memberSuffix x
    (Derives options.resolvePatterns .suffix ℓ b x) := by
  refine .bind .take fun t y hy => .bind .expectOneOf fun f z ⟨hf, hz⟩ => ?_
  subst hy hz
  refine .ite (fun hident => .ifEat (fun o w ho hz => ?_) fun hz => ?_) fun hident => ?_
  · subst hz
    exact .bind (yields_arguments G) fun as v has => .pure (.sufMethod hx hident ho has)
  · exact .pure (.sufField hx (.inr ⟨hident, hz⟩))
  · have hinteger : f.kind = .integer := by simpa [hident] using hf
    exact .pure (.sufField hx (.inl hinteger))

theorem yields_suffix {τ : Tier} (hx : x.kind.tier? = some τ) :
    Yields options fuel ℓ b (suffix x.kind τ) x
      (Derives options.resolvePatterns .suffix ℓ b x) := by
  unfold suffix
  split
  · refine .bind .take fun t y hy => .bind (G.expr .lowest) fun e z he => .pure ?_
    subst hy
    by_cases ht : t.kind = .assignment
    · rw [if_pos ht]
      exact .sufAssign ht he
    · rw [if_neg ht]
      exact .sufCompound hx ht he
  · have hkind : x.kind = .kwAs := by cases hk : x.kind <;> simp_all [TokenKind.tier?]
    refine .bind .take fun t y hy => .map (sound_ty G) fun a z ha => ?_
    subst hy
    exact .sufCast hkind ha
  · refine .ite (fun hkind => .bind .take fun t y hy => ?_) fun hparen => .bind .take fun t y hy => ?_
    · subst hy
      exact .bind (yields_arguments G) fun as z has => .pure (.sufCall hkind has)
    · have hkind : x.kind = .openBracket := by cases hk : x.kind <;> simp_all [TokenKind.tier?]
      subst hy
      refine .bind (.withStructLiterals (G.expr .lowest)) fun e z he => ?_
      refine .bind .expect fun c w ⟨hc, hz⟩ => .pure ?_
      subst hz
      exact .sufIndex hkind he hc
  · have hkind : x.kind = .dot := by cases hk : x.kind <;> simp_all [TokenKind.tier?]
    exact yields_memberSuffix G hkind
  · refine .bind .take fun t y hy => .bind (G.expr τ) fun e z he => .pure ?_
    subst hy
    exact .sufBinary hx (by simp_all) he

theorem yields_suffixes (above : Tier) : Yields options fuel ℓ b (repeated (suffix? above)) x
    (Derives options.resolvePatterns (.suffixes above) ℓ b x) := by
  refine .repeated fun x => .kind ?_
  split
  · rename_i τ hx
    refine .ite (fun hτ => ?_) fun hτ => .pure (.suffixesNil ?_)
    · refine .map (yields_suffix G hx) fun s y hs => ⟨hs.length_lt trivial, fun ss z hss => ?_⟩
      exact .suffixesCons hx hτ hs hss
    · intro τ' hx'
      cases hx.symm.trans hx'
      exact hτ
  · rename_i hx
    exact .pure (.suffixesNil fun τ hτ => by simp [hx] at hτ)

theorem yields_exprRule (above : Tier) : Yields options fuel ℓ b (exprRule above) x
    (Derives options.resolvePatterns (.expr above) (ℓ + 1) b x) :=
  .bind (yields_term G) fun _ _ he => .bind (yields_suffixes G above) fun _ _ hs =>
    .pure (.expr he hs)

theorem yields_blockLikeRule (hx : x.StartsBlockLike) : Yields options fuel ℓ b blockLikeRule x
    (Derives options.resolvePatterns .statementExpr (ℓ + 1) b x) := by
  refine .bind (yields_term G) fun e y he => .kind (.ite (fun hy => ?_) fun hy => ?_)
  · exact .bind (yields_suffixes G .lowest) fun ss z hs => .pure (.stmtMember hx he hy hs)
  · exact .pure (.stmtBlockLike hx he hy)

theorem sound_typedName : typedName.Sound options fuel .typedName := by
  intro ℓ b x
  refine .bind .expect fun t y ⟨ht, hx⟩ => .bind .expect fun c z ⟨hc, hy⟩ => ?_
  subst hx hy
  exact .bind (sound_ty G) fun a w ha => .spanFrom fun sp _ => .pure (.typedName ht hc ha)

theorem sound_param : param.Sound options fuel .param := by
  intro ℓ b x
  refine .bind .expect fun t y ⟨ht, hx⟩ => .bind .expect fun c z ⟨hc, hy⟩ => ?_
  subst hx hy
  refine .bind (sound_ty G) fun a w ha => .bind .declare fun _ w' hw => ?_
  subst hw
  exact .spanFrom fun sp _ => .pure (.param ht hc ha)

theorem sound_selfParam : selfParam.Sound options fuel .selfParam := by
  intro ℓ b x
  refine .current fun start _ => .bind .eat fun byRef y hr =>
    .bind (.flag (by decide)) fun mutable z hm => ?_
  refine .bind .expect fun s w ⟨hs, hz⟩ => ?_
  subst hz
  cases byRef with
  | true =>
    obtain ⟨t, ht, rfl⟩ := hr
    refine .bind (.pure ⟨rfl, rfl⟩ : Yields options fuel ℓ b (pure none) w fun a v =>
      a = none ∧ v = w) fun a v ⟨ha, hv⟩ => ?_
    subst ha hv
    refine .bind .declare fun _ u hu => .spanFrom fun sp hsp => .pure ?_
    subst hu
    exact hsp ▸ .selfReference ht hm hs
  | false =>
    obtain ⟨-, rfl⟩ := hr
    refine .bind (Phrase.Sound.after? (sound_ty G) (by decide)) fun a v ha => ?_
    refine .bind .declare fun _ u hu => .spanFrom fun sp hsp => .pure ?_
    subst hu
    exact hsp ▸ .selfValue hm hs ha

/-- The `self` parameter, the others and the parenthesis after them. -/
theorem yields_params {β : Type} {f : Option SelfParam → List TypedName → Phrase β}
    {R : β → Place → Prop}
    (hf : ∀ s ps y, Derives options.resolvePatterns .params ℓ b x (s, ps) y →
      Yields options fuel ℓ b (f s ps) y R) :
    Yields options fuel ℓ b (do
      let s ← selfParam?
      let ps ← commaList .closeParen param
      let _ ← expect .closeParen
      f s ps) x R := by
  have self : Yields options fuel ℓ b selfParam? x fun s y => s = none ∧ y = x ∨
      ∃ p z, s = some p ∧ Derives options.resolvePatterns .selfParam ℓ b x p z ∧
        (z.kind = .closeParen ∧ y = z ∨ ∃ t, t.kind = .comma ∧ z = ⟨t :: y.rest, y.names⟩) := by
    refine .bind yields_startsSelfParam fun r x' hx => ?_
    subst hx
    refine .ite (fun _ => .bind (sound_selfParam G) fun s z hs => ?_) fun _ =>
      .pure (.inl ⟨rfl, rfl⟩)
    refine .kind (.ite (fun hz => .pure (.inr ⟨s, z, rfl, hs, .inl ⟨hz, rfl⟩⟩)) fun _ => ?_)
    exact .bind .expect fun t w ⟨ht, hz⟩ => .pure (.inr ⟨s, z, rfl, hs, .inr ⟨t, ht, hz⟩⟩)
  refine .bind self fun s y hs => ?_
  refine Phrase.Sound.closedList .round (sound_param G) trivial fun ps c z hps => ?_
  obtain ⟨rfl, rfl⟩ | ⟨p, w, rfl, hp, hw⟩ := hs
  · exact hf _ _ _ (.paramsPlain hps)
  · obtain ⟨hw, rfl⟩ | ⟨t, ht, rfl⟩ := hw
    · cases hps with
      | listNil hc => exact hf _ _ _ (.paramsSelf hp hc)
      | listCons _ h _ _ => exact absurd hw h
    · exact hf _ _ _ (.paramsMore hp ht hps)

theorem sound_functionBody (allowSignature : Bool) :
    (functionBody allowSignature).Sound options fuel (.body allowSignature) := by
  intro ℓ b x
  refine .kind (.ite (fun hx => .ite (fun h => .bind .take fun t y hy => .pure ?_) fun _ => .fail)
    fun _ => Yields.map G.block fun bl y hb => .body hb)
  subst h hy
  exact .signature hx

theorem yields_function (allowSignature : Bool) :
    Yields options fuel ℓ b (function allowSignature) x fun f y =>
      Derives options.resolvePatterns (.function allowSignature) ℓ b x f y ∧
        f.span.StartsAt x := by
  refine .current fun start hstart => .bind (.flag (by decide)) fun isConst y hc => ?_
  refine .bind .expect fun f z ⟨hf, hy⟩ => .bind .expect fun t w ⟨ht, hz⟩ => .inScope ?_
  subst hy hz
  refine .bind .expect fun p v ⟨hp, hw⟩ => ?_
  obtain ⟨i, n⟩ := w
  obtain ⟨rfl, hn⟩ : i = p :: v.rest ∧ n.push = v.names := by simpa using hw
  refine yields_params G fun s ps u hps => ?_
  refine .bind (Phrase.Sound.after? (sound_ty G) (by decide)) fun r u' hr => ?_
  refine .bind (sound_functionBody G allowSignature) fun bl u'' hb => .spanFrom fun sp hsp => .pure ?_
  refine ⟨.function hc hf ht hp (hn ▸ hps) hr hb, fun t ht => ?_⟩
  cases hstart.symm.trans ht
  exact hsp

theorem yields_constantValue (inTrait : Bool) :
    Yields options fuel ℓ b (constantValue inTrait) x fun v y =>
      Derives options.resolvePatterns (.after .assignment (.expr .lowest)) ℓ b x v y ∧
        (v = none → inTrait = true) := by
  refine .ifEat (fun t y ht hx => ?_) fun hx => .ite (fun h => ?_) fun _ => .fail
  · subst hx
    exact Yields.map (G.expr .lowest) fun e z he => ⟨.afterSome (by decide) ht he, nofun⟩
  · exact .pure ⟨.afterNothing (by decide) hx, fun _ => h⟩

theorem yields_constant (inTrait : Bool) :
    Yields options fuel ℓ b (constant inTrait) x fun c y =>
      Derives options.resolvePatterns (.constant inTrait) ℓ b x c y ∧ c.span.StartsAt x := by
  refine .bind .expect fun t y ⟨ht, hx⟩ => .bind .expectOneOf fun c z ⟨hc, hy⟩ => ?_
  refine .bind .expect fun d w ⟨hd, hz⟩ => .bind (sound_ty G) fun a v ha => ?_
  refine .bind (yields_constantValue G inTrait) fun e u ⟨he, hnone⟩ => ?_
  refine .bind .expect fun s u' ⟨hs, hu⟩ => .spanFrom fun sp hsp => .pure ?_
  subst hx hy hz hu
  refine ⟨.constant ht (by simpa using hc) hd ha he hnone hs, fun t' ht' => ?_⟩
  cases ht'
  exact hsp

theorem yields_member (inTrait : Bool) : Yields options fuel ℓ b (member inTrait) x fun m y =>
    Derives options.resolvePatterns (.member inTrait) ℓ b x m y ∧ m.span.StartsAt x := by
  refine .kind (.nextKind ?_)
  split
  · exact (yields_function G inTrait).map fun f y hf => ⟨.memberFunction hf.1, hf.2⟩
  · exact (yields_function G inTrait).map fun f y hf => ⟨.memberFunction hf.1, hf.2⟩
  · exact (yields_constant G inTrait).map fun c y hc => ⟨.memberConstant hc.1, hc.2⟩
  · exact .fail

theorem yields_declaredMember (inTrait : Bool) :
    Yields options fuel ℓ b (declaredMember inTrait) x fun m y =>
      ∃ z, Derives options.resolvePatterns (.member inTrait) ℓ b x m z ∧
        y = ⟨z.rest, z.names.declare (.ofMember m) m.span.start⟩ := by
  refine .position fun place hplace => .bind (yields_member G inTrait) fun m z ⟨hm, hsp⟩ => ?_
  refine .bind .declare fun _ y hy => .pure ⟨z, hm, ?_⟩
  -- a member is not empty, so that a token stands where it starts
  obtain ⟨t, ht⟩ : ∃ t, x.rest.head? = some t := by
    have hlt := hm.length_lt trivial
    cases hi : x.rest with
    | nil => simp [hi] at hlt
    | cons t i => exact ⟨t, rfl⟩
  rw [hy, hplace t ht, hsp t ht]

theorem yields_members (inTrait : Bool) : Yields options fuel ℓ b (members inTrait) x fun ms y =>
    ∃ o i z, o.kind = .openCurly ∧ x.rest = o :: i ∧
      Derives options.resolvePatterns (.members inTrait) ℓ b ⟨i, x.names.push⟩ ms z ∧
      y = ⟨z.rest, z.names.pop⟩ := by
  refine .inScope (.bind .expect fun o y ⟨ho, hx⟩ => ?_)
  refine .bind (.untilKind (I := fun x ms y => ∀ c z, c.kind = .closeCurly →
    y = ⟨c :: z.rest, z.names⟩ →
      Derives options.resolvePatterns (.members inTrait) ℓ b x ms z) ?_ ?_) fun ms w hms => ?_
  · rintro x - c z hc rfl
    exact .membersNil hc
  · refine fun x _ => (yields_declaredMember G inTrait).mono fun m y ⟨z, hm, hy⟩ => ?_
    subst hy
    exact ⟨hm.length_lt trivial, fun ms w h c v hc hw => .membersCons hm (h c v hc hw)⟩
  · refine .bind .expect fun c z ⟨hc, hw⟩ => .pure ⟨o, y.rest, z, ho, ?_, ?_, rfl⟩
    · exact (congrArg Place.rest hx :)
    · have hn : x.names.push = y.names := congrArg Place.names hx
      exact hn ▸ hms c z hc hw

theorem yields_struct : Yields options fuel ℓ b struct x
    (Derives options.resolvePatterns .item ℓ b x) := by
  refine .bind .expect fun t y ⟨ht, hx⟩ => .bind .expect fun c z ⟨hc, hy⟩ => .kind ?_
  subst hx hy
  split <;> rename_i h
  · refine .bind .take fun s w hz => .spanFrom fun sp _ => .pure ?_
    subst hz
    exact .itemUnit ht hc h
  · refine .bind .take fun o w hz => ?_
    subst hz
    refine Phrase.Sound.closedList .curly (sound_typedName G) trivial fun fs d v hfs => ?_
    exact .spanFrom fun sp _ => .pure (.itemStruct ht hc h hfs)
  · exact .fail

omit G in
theorem yields_enum : Yields options fuel ℓ b enum x
    (Derives options.resolvePatterns .item ℓ b x) := by
  refine .bind .expect fun t y ⟨ht, hx⟩ => .bind .expect fun c z ⟨hc, hy⟩ => ?_
  refine .bind .expect fun o w ⟨ho, hz⟩ => ?_
  subst hx hy hz
  have name : (expect .identifier).Sound options fuel .name := by
    intro ℓ b x
    refine Yields.expect.mono fun t y ⟨ht, hx⟩ => ?_
    subst hx
    exact .name ht
  refine Phrase.Sound.closedList .curly name trivial fun vs d v hvs => ?_
  exact .spanFrom fun sp _ => .pure (.itemEnum ht hc ho hvs)

theorem yields_trait : Yields options fuel ℓ b trait x
    (Derives options.resolvePatterns .item ℓ b x) := by
  refine .bind .expect fun t y ⟨ht, hx⟩ => .bind .expect fun c z ⟨hc, hy⟩ => ?_
  refine .bind (yields_members G true) fun ms w ⟨o, i, v, ho, hz, hms, hw⟩ => ?_
  obtain ⟨j, n⟩ := z
  subst hx hy hz hw
  exact .spanFrom fun sp _ => .pure (.itemTrait ht hc ho hms)

theorem yields_impl : Yields options fuel ℓ b impl x
    (Derives options.resolvePatterns .item ℓ b x) := by
  have name {x : Place} : Yields options fuel ℓ b implTrait? x fun c y => match c with
      | none => y = x ∧ ¬(x.kind = .identifier ∧ x.nextKind = .kwFor)
      | some c => ∃ f, c.kind = .identifier ∧ f.kind = .kwFor ∧ x = ⟨c :: f :: y.rest, y.names⟩ := by
    refine .kind (.nextKind ?_)
    split
    · refine .bind .take fun c y hx => .bind .take fun f z hy => .pure ?_
      subst hx hy
      exact ⟨f, ‹_›, ‹_›, rfl⟩
    · exact .pure ⟨rfl, fun ⟨h, h'⟩ => by simp_all⟩
  refine .bind .expect fun t y ⟨ht, hx⟩ => .bind name fun c z hc => ?_
  refine .bind (sound_ty G) fun a w ha => ?_
  refine .bind (yields_members G false) fun ms u ⟨o, i, v, ho, hw, hms, hu⟩ => ?_
  refine .spanFrom fun sp _ => .pure ?_
  obtain ⟨j, n⟩ := w
  subst hx hw hu
  cases c with
  | none =>
    obtain ⟨rfl, hfor⟩ := hc
    exact .itemImpl ht hfor ha ho hms
  | some c =>
    obtain ⟨f, hc, hf, rfl⟩ := hc
    exact .itemImplFor ht hc hf ha ho hms

theorem sound_item : item.Sound options fuel .item := by
  intro ℓ b x
  refine .kind (.nextKind ?_)
  split
  · exact (yields_function G false).map fun f y hf => .itemFunction hf.1
  · exact (yields_function G false).map fun f y hf => .itemFunction hf.1
  · exact (yields_constant G false).map fun c y hc => .itemConstant hc.1
  · exact yields_struct G
  · exact yields_enum
  · exact yields_trait G
  · exact yields_impl G
  · exact .fail

theorem sound_declaredItem : declaredItem.Sound options fuel .declaredItem := by
  intro ℓ b x
  refine .bind (sound_item G) fun i y hi => .bind .declare fun _ z hz => .pure ?_
  subst hz
  exact .declaredItem hi

theorem yields_crate (file : String) : Yields options fuel ℓ b (crate file) x fun c y =>
    Derives options.resolvePatterns .items ℓ b x c.items y ∧ y.kind = .eof := by
  refine .bind (.untilKind (I := fun x is y =>
    Derives options.resolvePatterns .items ℓ b x is y ∧ y.kind = .eof) ?_ ?_) fun is y his => ?_
  · exact fun x hx => ⟨.itemsNil hx, hx⟩
  · intro x _
    refine Yields.mono (sound_declaredItem G) fun i y hi => ?_
    exact ⟨hi.length_lt trivial, fun is z ⟨his, hz⟩ => ⟨.itemsCons hi his, hz⟩⟩
  · exact .position fun place _ => .pure his

theorem yields_letBinding : Yields options fuel ℓ b letBinding x
    (Derives options.resolvePatterns .statement ℓ b x) := by
  refine .bind .expect fun t y ⟨ht, hx⟩ => .bind G.pattern fun p z hp => ?_
  refine .bind (Phrase.Sound.after? (sound_ty G) (by decide)) fun a w ha => ?_
  refine .bind (Phrase.Sound.after? (G.expr .lowest) (by decide)) fun v u hv => ?_
  refine .bind .expect fun s u' ⟨hs, hu⟩ => .bind (.bindAll _) fun _ u'' hu' => ?_
  subst hx hu hu'
  exact .spanFrom fun sp _ => .pure (.stmtLet ht hp ha hv hs)

theorem sound_statement : statement.Sound options fuel .statement := by
  have item {ℓ b x} : Yields options fuel ℓ b (Stmt.item <$> declaredItem) x
      (Derives options.resolvePatterns .statement ℓ b x) :=
    Yields.map (sound_declaredItem G) fun i y hi => .stmtItem hi
  intro ℓ b x
  refine .kind ?_
  split
  · exact yields_letBinding G
  · refine .bind .expect fun t y ⟨ht, hx⟩ => .pure ?_
    subst hx
    exact .stmtEmpty ht
  · exact item
  · exact item
  · exact item
  · exact item
  · exact item
  · exact item
  · exact .fail

theorem yields_elementRule : Yields options fuel ℓ b elementRule x fun e y =>
    e.Derived options.resolvePatterns ℓ b x y := by
  refine .bind yields_startsStatement fun r x' ⟨hr, hx⟩ => ?_
  subst hx
  refine .ite (fun h => Yields.map (sound_statement G) fun s y hs => ?_) fun h => ?_
  · exact .elementStmt (hr.1 h) hs
  · have hstart := fun hx => h (hr.2 hx)
    refine .bind (sound_statementExpr G) fun e y he => .ifEat (fun s z hs hy => ?_) fun hs => ?_
    · subst hy
      exact .spanFrom fun sp _ => .pure (.elementExpr hstart he hs)
    · refine .kind (.ite (fun hc => .pure ⟨hstart, he, hc⟩) fun hc => .ite (fun hb => ?_) fun _ => .fail)
      exact .pure (.elementBlockLike hstart he hs hc hb)

end Grammar

theorem Goal.sound (options : ParseOptions) (fuel : Nat) : Goal.Sound options fuel := by
  induction fuel with
  | zero => constructor <;> intros <;> exact .goal nofun
  | succ fuel G =>
    refine ⟨fun above _ _ _ => .goal ?_, fun hx => .goal ?_, .goal ?_, .goal ?_, .goal ?_, .goal ?_,
      .goal ?_, .goal ?_⟩ <;> rintro rounds m ⟨⟩ rfl
    · exact yields_exprRule G above
    · exact yields_blockLikeRule G hx
    · exact yields_blockRule G
    · exact (yields_elementRule G).mono fun e y he => ⟨m, rfl, he⟩
    · exact Yields.mono (sound_conditional G) fun c y hc => ⟨m, rfl, hc⟩
    · exact yields_armRule G
    · exact yields_tyRule G
    · exact yields_patternRule G

/-- What is yielded by reading a phrase is derived. -/
theorem Phrase.Sound.read {σ : Form} {p : Phrase σ.Tree} {s t : ParseState} {a : σ.Tree}
    (hp : p.Sound options options.maxDepth σ) (h : p.read options s = .ok a t) :
    Derives options.resolvePatterns σ (options.maxDepth - s.depth) s.structLiterals s.place a
      t.place := by
  obtain ⟨y, ⟨-, -, rfl⟩, hd⟩ := hp s a t ⟨rfl, rfl, rfl⟩ h
  exact hd

theorem Session.read_sound {σ : Form} {p : Phrase σ.Tree} {s : Session} {a : σ.Tree}
    (hp : p.Sound s.options s.options.maxDepth σ) (h : (s.read p).1 = .ok a) :
    Derives s.options.resolvePatterns σ (s.options.maxDepth - s.state.depth) s.state.structLiterals
      s.state.place a (s.read p).2.state.place := by
  unfold Session.read at h ⊢
  cases hr : p.read s.options s.state with
  | ok a' t =>
    obtain rfl : a' = a := by simpa [hr] using h
    exact hp.read hr
  | error e t => simp [hr] at h

/-- What is yielded by parsing a file is derived from all of it, with all levels left. -/
theorem parse_sound {tokens : List Token} {file : String} {c : Crate} {t : ParseState}
    (h : parse tokens file options = .ok c t) :
    Derives options.resolvePatterns .items options.maxDepth true ⟨tokens, .empty⟩ c.items t.place ∧
      t.place.kind = .eof := by
  obtain ⟨y, ⟨-, -, rfl⟩, hd⟩ :=
    yields_crate (Goal.sound options options.maxDepth) file _ c t ⟨rfl, rfl, rfl⟩ h
  exact hd

end FrontEnd
