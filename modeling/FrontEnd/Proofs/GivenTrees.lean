import FrontEnd.Proofs.Gives
import FrontEnd.Proofs.Heads
/-!
# What the phrases of the grammar give

Each phrase gives a tree if the phrases in it give the parts of the tree. Trees are compared without
their spans.
-/
namespace FrontEnd

open Grammar Phrase

variable {options : ParseOptions} {fuel ℓ : Nat} {b : Bool} {x y z w : Place} {t s c : Token}
  {i j : List Token} {n m : Names} {sp sp' : Span} {k : TokenKind}

namespace Place

theorem exists_cons (h : x.kind ≠ .eof) : ∃ t i n, x = ⟨t :: i, n⟩ ∧ t.kind = x.kind := by
  obtain ⟨_ | ⟨t, i⟩, n⟩ := x
  · exact absurd rfl h
  · exact ⟨t, i, n, rfl, rfl⟩

theorem StartsPath.kind_ne_eof (h : x.StartsPath options.resolvePatterns) : x.kind ≠ .eof := by
  obtain h | h | ⟨h, -⟩ := h <;> simp [h]

theorem StartsBinding.kind_ne_eof (h : x.StartsBinding options.resolvePatterns) :
    x.kind ≠ .eof := by
  obtain h | h | ⟨h, -⟩ := h <;> simp [h]

end Place

def Suffix.bare : Suffix → Suffix
  | .binary operator right => .binary operator.bare right.bare
  | .assign value => .assign value.bare
  | .compoundAssign operator value => .compoundAssign operator.bare value.bare
  | .cast target => .cast target.bare
  | .call arguments _ => .call (arguments.map Expr.bare) (.fixed .closeParen)
  | .index i _ => .index i.bare (.fixed .closeBracket)
  | .field name => .field name.bare
  | .methodCall method arguments _ =>
    .methodCall method.bare (arguments.map Expr.bare) (.fixed .closeParen)

theorem Suffix.bare_attach {e e' : Expr} {s s' : Suffix} (he : e'.bare = e.bare)
    (hs : s'.bare = s.bare) : (s'.attach e').bare = (s.attach e).bare := by
  cases s with
  | binary operator right =>
    cases s' with
    | binary operator' right' =>
      obtain ⟨hoperator, hright⟩ : operator'.bare = operator.bare ∧ right'.bare = right.bare := by
        simpa [bare] using hs
      simp [attach, Expr.bare, he, hoperator, hright, Token.kind_of_bare hoperator]
    | _ => cases hs
  | _ => cases s' <;> simp_all [bare, attach, Expr.bare]

theorem Suffix.bare_foldl_attach {e e' : Expr} {ss ss' : List Suffix} (he : e'.bare = e.bare)
    (hss : ss'.map bare = ss.map bare) : (ss'.foldl attach e').bare = (ss.foldl attach e).bare := by
  induction ss generalizing ss' e e' with
  | nil => simpa [List.map_eq_nil_iff.1 hss] using he
  | cons s ss ih =>
    obtain ⟨s', ss', rfl, hs, hss⟩ := List.map_eq_cons_iff.1 hss
    rw [List.foldl_cons, List.foldl_cons]
    exact ih (bare_attach he hs) hss

theorem Expr.isBlockLike_of_bare {e e' : Expr} (h : e'.bare = e.bare) :
    e'.isBlockLike = e.isBlockLike := by
  have hbare (e : Expr) : e.bare.isBlockLike = e.isBlockLike := by
    cases e <;> simp [bare, isBlockLike]
  rw [← hbare e', h, hbare]

namespace Phrase.Gives

variable {α : Type} {p : Phrase α} {layer : Bool → α → Span → α} {spanOf : α → Span} {set : Bool}
  {Q R : α → Prop}

theorem referenceLayer (h : t.kind = .ampersand)
    (hm : Gives options fuel ℓ b (Phrase.eat .kwMut) ⟨i, n⟩ x (· = set))
    (hp : Gives options fuel ℓ b p x y Q) (hR : ∀ a sp, Q a → R (layer set a sp)) :
    Gives options fuel ℓ b (referenceLayers layer spanOf p) ⟨t :: i, n⟩ y R := by
  refine .bind .take fun t' ht => .bind hm fun _ hset => .bind hp fun a ha => .pure ?_
  subst hset
  have hone : t'.kind ≠ .andAnd := by simp [Token.kind_of_bare ht, h]
  simpa only [hone, if_false] using hR a _ ha

theorem referenceTwoLayers (h : t.kind = .andAnd)
    (hm : Gives options fuel ℓ b (Phrase.eat .kwMut) ⟨i, n⟩ x (· = set))
    (hp : Gives options fuel ℓ b p x y Q)
    (hR : ∀ a sp, Q a → R (layer false (layer set a sp) sp)) :
    Gives options fuel ℓ b (referenceLayers layer spanOf p) ⟨t :: i, n⟩ y R := by
  refine .bind .take fun t' ht => .bind hm fun _ hset => .bind hp fun a ha => .pure ?_
  subst hset
  have htwo : t'.kind = .andAnd := (Token.kind_of_bare ht).trans h
  simpa only [htwo, if_true] using hR a _ ha

end Phrase.Gives

namespace Grammar

theorem gives_path {ts : List Token} (h : t.kind ∈ pathSegments)
    (hts : Gives options fuel ℓ b
      (eachAfter .pathSep (expectOneOf pathSegments "a path segment")) ⟨i, n⟩ y
      (·.map Token.bare = ts.map Token.bare)) :
    Gives options fuel ℓ b path ⟨t :: i, n⟩ y (·.bare = (⟨t :: ts, sp⟩ : Path).bare) := by
  refine .bind (.expectOneOf h) fun t' ht => .bind hts fun ts' hts => .spanFrom fun sp => .pure ?_
  simp [Path.bare, ht, hts]

theorem gives_ty {Q : Ty → Prop} (hx : x.kind ∈ typeStarts)
    (h : Gives options fuel ℓ b tyRule x y Q) : Gives options (fuel + 1) (ℓ + 1) b ty x y Q :=
  .kind rfl (.ite_pos hx (.goal h))

theorem gives_pathType {p : Path} (hx : x.kind = .identifier ∨ x.kind = .kwSelfType)
    (hp : Gives options fuel ℓ b path x y (·.bare = p.bare)) :
    Gives options fuel ℓ b tyRule x y (·.bare = (Ty.path p).bare) := by
  have hpath : Gives options fuel ℓ b (Ty.path <$> path) x y (·.bare = (Ty.path p).bare) :=
    hp.map fun p' hp => congrArg Ty.path hp
  obtain hx | hx := hx <;> exact .kind hx hpath

theorem gives_slice {a : Ty}
    (ha : Gives options fuel ℓ b ty ⟨i, n⟩ ⟨c :: j, m⟩ (·.bare = a.bare))
    (hc : c.kind = .closeBracket) :
    Gives options fuel ℓ b bracketType ⟨t :: i, n⟩ ⟨j, m⟩ (·.bare = (Ty.slice a sp).bare) := by
  refine .bind .take fun t' _ => .bind ha fun a' ha => .ifNotEat (by simp [hc]) ?_
  refine .bind (.expect hc) fun _ _ => .spanFrom fun sp => .pure ?_
  simp [Ty.bare, ha]

theorem gives_arrayType {a : Ty} {e : Expr} {i' : List Token} {n' : Names}
    (ha : Gives options fuel ℓ b ty ⟨i, n⟩ ⟨s :: i', n'⟩ (·.bare = a.bare))
    (hs : s.kind = .semicolon)
    (he : Gives options fuel ℓ true (expr .lowest) ⟨i', n'⟩ ⟨c :: j, m⟩ (·.bare = e.bare))
    (hc : c.kind = .closeBracket) :
    Gives options fuel ℓ b bracketType ⟨t :: i, n⟩ ⟨j, m⟩ (·.bare = (Ty.array a e sp).bare) := by
  refine .bind .take fun t' _ => .bind ha fun a' ha => .ifEat hs ?_
  refine .bind he.withStructLiterals fun e' he => .bind (.expect hc) fun _ _ => ?_
  refine .spanFrom fun sp => .pure ?_
  simp [Ty.bare, ha, he]

theorem gives_unitType (hc : c.kind = .closeParen) :
    Gives options fuel ℓ b parenType ⟨t :: c :: i, n⟩ ⟨i, n⟩ (·.bare = (Ty.tuple [] sp).bare) :=
  .bind .take fun _ _ => .ifEat hc <| .spanFrom fun _ => .pure rfl

theorem gives_parenType {Q : Ty → Prop} (hi : kindAt i 0 ≠ .closeParen)
    (ha : Gives options fuel ℓ b ty ⟨i, n⟩ ⟨c :: j, m⟩ Q) (hc : c.kind = .closeParen) :
    Gives options fuel ℓ b parenType ⟨t :: i, n⟩ ⟨j, m⟩ Q :=
  .bind .take fun _ _ => .ifNotEat hi <| .bind ha fun _ ha => .ifEat hc <| .pure ha

theorem gives_tupleType {a : Ty} {as : List Ty} (hi : kindAt i 0 ≠ .closeParen)
    (ha : Gives options fuel ℓ b ty ⟨i, n⟩ y (·.bare = a.bare)) (hy : y.kind ≠ .closeParen)
    (has : Gives options fuel ℓ b
      (do let as ← afterFirst .closeParen ty; let _ ← expect .closeParen; return as) y z
      (·.map Ty.bare = as.map Ty.bare)) :
    Gives options fuel ℓ b parenType ⟨t :: i, n⟩ z (·.bare = (Ty.tuple (a :: as) sp).bare) := by
  refine .bind .take fun t' _ => .ifNotEat hi <| .bind ha fun a' ha => .ifNotEat hy ?_
  refine .closed has fun as' c' has => .spanFrom fun sp => .pure ?_
  simp [Ty.bare, ha, has]

theorem gives_pathPattern {p : Path} (hp : Gives options fuel ℓ b path x y (·.bare = p.bare))
    (hy : y.kind ≠ .openParen) :
    Gives options fuel ℓ b pathPattern x y (·.bare = (Pattern.path p).bare) := by
  refine .bind hp fun p' hp => .ifNotEat hy <| .pure ?_
  simp [Pattern.bare, hp]

theorem gives_tuplePattern {p : Path} {ps : List Pattern}
    (hp : Gives options fuel ℓ b path x ⟨t :: i, n⟩ (·.bare = p.bare)) (ht : t.kind = .openParen)
    (hps : Gives options fuel ℓ b
      (do let ps ← commaList .closeParen pattern; let _ ← expect .closeParen; return ps) ⟨i, n⟩ y
      (·.map Pattern.bare = ps.map Pattern.bare)) :
    Gives options fuel ℓ b pathPattern x y (·.bare = (Pattern.tupleStruct p ps sp).bare) := by
  refine .bind hp fun p' hp => .ifEat ht <| .closed hps fun ps' c' hps => ?_
  refine .spanFrom fun sp => .pure ?_
  simp [Pattern.bare, hp, hps]

theorem gives_identifierPattern {byRef mutable : Bool} {sub : Option Pattern} (hx : x.kind ≠ .eof)
    (hr : Gives options fuel ℓ b (eat .kwRef) x y (· = byRef))
    (hm : Gives options fuel ℓ b (eat .kwMut) y ⟨t :: i, n⟩ (· = mutable))
    (ht : t.kind = .identifier)
    (hs : Gives options fuel ℓ b (after? .atSign pattern) ⟨i, n⟩ z
      (·.map Pattern.bare = sub.map Pattern.bare)) :
    Gives options fuel ℓ b identifierPattern x z
      (·.bare = (Pattern.identifier t byRef mutable sub sp).bare) := by
  refine .current hx fun start _ _ => .bind hr fun _ hr => .bind hm fun _ hm => ?_
  refine .bind (.expect ht) fun t' ht => .bind hs fun sub' hs => .spanFrom fun sp => .pure ?_
  simp [Pattern.bare, hr, hm, ht, hs]

theorem gives_patternRule_path {Q : Pattern → Prop} (hx : x.StartsPath options.resolvePatterns)
    (h : Gives options fuel ℓ b pathPattern x y Q) : Gives options fuel ℓ b patternRule x y Q := by
  have hne := hx.kind_ne_eof
  refine .current hne fun t ht hbare => ?_
  obtain hx | hx | ⟨hx, hnext⟩ := hx <;> rw [ht, hx]
  · exact h
  · exact h
  · refine .nextKind rfl ?_
    split
    · exact h
    · exact h
    · simp_all
    · obtain hnext | hnext | ⟨-, t₀, ht₀, hconst⟩ := hnext
      · contradiction
      · contradiction
      · refine .isConstant (.ite_pos ?_ h)
        rwa [Token.value_of_bare (hbare t₀ ht₀)]

theorem gives_patternRule_binding {Q : Pattern → Prop}
    (hx : x.StartsBinding options.resolvePatterns)
    (h : Gives options fuel ℓ b identifierPattern x y Q) :
    Gives options fuel ℓ b patternRule x y Q := by
  have hne := hx.kind_ne_eof
  refine .current hne fun t ht hbare => ?_
  obtain hx | hx | ⟨hx, hnext⟩ := hx <;> rw [ht, hx]
  · exact h
  · exact h
  · refine .nextKind rfl ?_
    split
    · simp_all
    · simp_all
    · exact h
    · obtain hnext | ⟨-, -, hconst⟩ := hnext
      · contradiction
      · refine .isConstant (.ite_neg (fun hc => hconst ?_) h)
        obtain ⟨t₀, i, n, rfl, -⟩ := Place.exists_cons hne
        exact ⟨t₀, rfl, by rwa [← Token.value_of_bare (hbare t₀ rfl)]⟩

theorem gives_literalPattern (h : t.kind.isLiteral) :
    Gives options fuel ℓ b patternRule ⟨t :: i, n⟩ ⟨i, n⟩
      (·.bare = (Pattern.literal t false sp).bare) := by
  have hliteral : Gives options fuel ℓ b literalPattern ⟨t :: i, n⟩ ⟨i, n⟩
      (·.bare = (Pattern.literal t false sp).bare) := by
    refine .bind .take fun t' ht => .pure ?_
    simp [Pattern.bare, ht]
  have hk : t.kind ∈ [TokenKind.integer, .char, .string, .kwTrue, .kwFalse] :=
    TokenKind.mem_of_isLiteral h (by decide)
  have hne : t.kind ≠ .eof := fun h => by simp [h] at hk
  refine .current hne fun t' ht _ => ?_
  simp only [List.mem_cons, List.not_mem_nil, or_false] at hk
  obtain hk | hk | hk | hk | hk := hk <;> rw [ht, Place.kind_mk, kindAt_zero, hk] <;> exact hliteral

theorem gives_negatedPattern (h : t.kind = .dash) (hs : s.kind = .integer) :
    Gives options fuel ℓ b patternRule ⟨t :: s :: i, n⟩ ⟨i, n⟩
      (·.bare = (Pattern.literal s true sp).bare) := by
  refine .current (by simp [h]) fun t' ht _ => ?_
  rw [ht, Place.kind_mk, kindAt_zero, h]
  refine .bind .take fun _ _ => .bind (.expect hs) fun s' hs => .pure ?_
  simp [Pattern.bare, hs]

theorem gives_wildcardPattern (h : t.kind = .underscore) :
    Gives options fuel ℓ b patternRule ⟨t :: i, n⟩ ⟨i, n⟩
      (·.bare = (Pattern.wildcard t).bare) := by
  refine .current (by simp [h]) fun t' ht _ => ?_
  rw [ht, Place.kind_mk, kindAt_zero, h]
  exact .map .take fun t' ht => congrArg Pattern.wildcard ht

theorem gives_referencePattern {mutable : Bool} {p : Pattern} (h : t.kind = .ampersand)
    (hm : Gives options fuel ℓ b (eat .kwMut) ⟨i, n⟩ x (· = mutable))
    (hp : Gives options fuel ℓ b pattern x y (·.bare = p.bare)) :
    Gives options fuel ℓ b patternRule ⟨t :: i, n⟩ y
      (·.bare = (Pattern.reference mutable p sp).bare) := by
  refine .current (by simp [h]) fun t' ht _ => ?_
  rw [ht, Place.kind_mk, kindAt_zero, h]
  refine .referenceLayer h hm hp fun p' sp hp => ?_
  simp [Pattern.bare, hp]

theorem gives_referencesPattern {mutable : Bool} {p : Pattern} (h : t.kind = .andAnd)
    (hm : Gives options fuel ℓ b (eat .kwMut) ⟨i, n⟩ x (· = mutable))
    (hp : Gives options fuel ℓ b pattern x y (·.bare = p.bare)) :
    Gives options fuel ℓ b patternRule ⟨t :: i, n⟩ y
      (·.bare = (Pattern.reference false (.reference mutable p sp) sp').bare) := by
  refine .current (by simp [h]) fun t' ht _ => ?_
  rw [ht, Place.kind_mk, kindAt_zero, h]
  refine .referenceTwoLayers h hm hp fun p' sp hp => ?_
  simp [Pattern.bare, hp]

theorem gives_bindPattern {p p' : Pattern} (h : p'.bare = p.bare) (a a' : Option Ty) :
    Gives options fuel ℓ b (bindPattern p' a') x ⟨x.rest, x.names.bindAll (Symbol.ofPattern p a)⟩
      fun _ => True :=
  .bindAll (Symbol.outline_ofPattern_of_bare h a a')

theorem gives_field {e : Expr} (ht : t.kind = .identifier) (hc : c.kind = .colon)
    (he : Gives options fuel ℓ b (expr .lowest) ⟨i, n⟩ y (·.bare = e.bare)) :
    Gives options fuel ℓ b fieldValue ⟨t :: c :: i, n⟩ y
      (·.bare = (⟨t, e, false⟩ : FieldValue).bare) := by
  refine .bind (.expect ht) fun t' ht => .bind (.after?Some hc he) ?_
  rintro _ ⟨e', rfl, he⟩
  refine .pure ?_
  simp [FieldValue.bare, ht, he]

theorem gives_shorthandField (ht : t.kind = .identifier) (hi : kindAt i 0 ≠ .colon) :
    Gives options fuel ℓ b fieldValue ⟨t :: i, n⟩ ⟨i, n⟩
      (·.bare = (⟨t, .path (.ofToken t), true⟩ : FieldValue).bare) := by
  refine .bind (.expect ht) fun t' ht => .bind (.after?None hi) ?_
  rintro _ rfl
  refine .pure ?_
  simp [FieldValue.bare, Expr.bare, Path.bare, Path.ofToken, ht]

theorem gives_pathExpr {p : Path} (hp : Gives options fuel ℓ b path x y (·.bare = p.bare))
    (hy : ¬(y.kind = .openCurly ∧ b = true)) :
    Gives options fuel ℓ b pathExpr x y (·.bare = (Expr.path p).bare) := by
  refine .bind hp fun p' hp => .kind rfl <| .allowsStructLiterals <| .ite_neg hy <| .pure ?_
  simp [Expr.bare, hp]

theorem gives_structLiteral {p : Path} {fs : List FieldValue}
    (hp : Gives options fuel ℓ true path x ⟨t :: i, n⟩ (·.bare = p.bare)) (ht : t.kind = .openCurly)
    (hfs : Gives options fuel ℓ true
      (do let fs ← commaList .closeCurly fieldValue; let _ ← expect .closeCurly; return fs) ⟨i, n⟩ y
      (·.map FieldValue.bare = fs.map FieldValue.bare)) :
    Gives options fuel ℓ true pathExpr x y (·.bare = (Expr.structLiteral p fs sp).bare) := by
  refine .bind hp fun p' hp => .kind ht <| .allowsStructLiterals <| .ite_pos ⟨rfl, rfl⟩ ?_
  refine .bind (.expect ht) fun _ _ => .bind hfs.withStructLiterals fun fs' hfs => ?_
  refine .spanFrom fun sp => .pure ?_
  simp [Expr.bare, hp, hfs]

/-- A term that begins with a path. -/
theorem gives_term_of_path {Q : Expr → Prop} (hx : x.kind ∈ pathSegments)
    (h : Gives options fuel ℓ b pathExpr x y Q) : Gives options fuel ℓ b term x y Q := by
  simp only [pathSegments, List.mem_cons, List.not_mem_nil, or_false] at hx
  obtain hx | hx | hx := hx <;> exact .kind hx h

theorem gives_literal (h : t.kind.isLiteral) :
    Gives options fuel ℓ b term ⟨t :: i, n⟩ ⟨i, n⟩ (·.bare = (Expr.literal t).bare) := by
  have hliteral : Gives options fuel ℓ b (Expr.literal <$> take) ⟨t :: i, n⟩ ⟨i, n⟩
      (·.bare = (Expr.literal t).bare) := .map .take fun t' ht => by simp [Expr.bare, ht]
  have hk : t.kind ∈ [TokenKind.integer, .char, .string, .kwTrue, .kwFalse] :=
    TokenKind.mem_of_isLiteral h (by decide)
  simp only [List.mem_cons, List.not_mem_nil, or_false] at hk
  obtain hk | hk | hk | hk | hk := hk <;> exact .kind hk hliteral

theorem gives_unary {e : Expr}
    (he : Gives options fuel ℓ b (expr .unary) ⟨i, n⟩ y (·.bare = e.bare)) :
    Gives options fuel ℓ b unary ⟨t :: i, n⟩ y (·.bare = (Expr.unary t e sp).bare) := by
  refine .bind .take fun t' ht => .bind he fun e' he => .pure ?_
  simp [Expr.bare, ht, he]

theorem gives_deref {e : Expr}
    (he : Gives options fuel ℓ b (expr .unary) ⟨i, n⟩ y (·.bare = e.bare)) :
    Gives options fuel ℓ b deref ⟨t :: i, n⟩ y (·.bare = (Expr.deref e sp).bare) := by
  refine .bind .take fun t' ht => .bind he fun e' he => .pure ?_
  simp [Expr.bare, he]

theorem gives_grouped {e : Expr}
    (he : Gives options fuel ℓ true (expr .lowest) ⟨i, n⟩ ⟨c :: j, m⟩ (·.bare = e.bare))
    (hc : c.kind = .closeParen) :
    Gives options fuel ℓ b grouped ⟨t :: i, n⟩ ⟨j, m⟩ (·.bare = (Expr.grouped e sp).bare) := by
  refine .bind .take fun t' ht => .bind he.withStructLiterals fun e' he => ?_
  refine .bind (.expect hc) fun _ _ => .spanFrom fun sp => .pure ?_
  simp [Expr.bare, he]

theorem gives_emptyArray (hc : c.kind = .closeBracket) :
    Gives options fuel ℓ b array ⟨t :: c :: i, n⟩ ⟨i, n⟩ (·.bare = (Expr.array [] sp).bare) :=
  .bind .take fun _ _ => .withStructLiterals <| .ifEat hc <| .spanFrom fun _ => .pure rfl

theorem gives_array {e : Expr} {es : List Expr} (hi : kindAt i 0 ≠ .closeBracket)
    (he : Gives options fuel ℓ true (expr .lowest) ⟨i, n⟩ y (·.bare = e.bare))
    (hy : y.kind ≠ .semicolon)
    (hes : Gives options fuel ℓ true
      (do let es ← afterFirst .closeBracket (expr .lowest); let _ ← expect .closeBracket; return es)
      y z (·.map Expr.bare = es.map Expr.bare)) :
    Gives options fuel ℓ b array ⟨t :: i, n⟩ z (·.bare = (Expr.array (e :: es) sp).bare) := by
  refine .bind .take fun _ _ => .withStructLiterals <| .ifNotEat hi <| .bind he fun e' he => ?_
  refine .ifNotEat hy <| .closed hes fun es' _ hes => .spanFrom fun sp => .pure ?_
  simp [Expr.bare, he, hes]

theorem gives_arrayRepeat {e l : Expr} {i' : List Token} {n' : Names}
    (hi : kindAt i 0 ≠ .closeBracket)
    (he : Gives options fuel ℓ true (expr .lowest) ⟨i, n⟩ ⟨s :: i', n'⟩ (·.bare = e.bare))
    (hs : s.kind = .semicolon)
    (hl : Gives options fuel ℓ true (expr .lowest) ⟨i', n'⟩ ⟨c :: j, m⟩ (·.bare = l.bare))
    (hc : c.kind = .closeBracket) :
    Gives options fuel ℓ b array ⟨t :: i, n⟩ ⟨j, m⟩ (·.bare = (Expr.arrayRepeat e l sp).bare) := by
  refine .bind .take fun _ _ => .withStructLiterals <| .ifNotEat hi <| .bind he fun e' he => ?_
  refine .ifEat hs <| .bind hl fun l' hl => .bind (.expect hc) fun _ _ => ?_
  refine .spanFrom fun sp => .pure ?_
  simp [Expr.bare, he, hl]

theorem gives_noJumpValue (hx : x.kind ∉ exprStarts) :
    Gives options fuel ℓ b jumpValue x x (· = none) := by
  unfold jumpValue startsExpr
  rw [bind_assoc]
  refine .kind rfl ?_
  rw [pure_bind]
  exact .ite_neg (by simpa using hx) (.pure rfl)

theorem gives_jumpValue {e : Expr} (hx : x.kind ∈ exprStarts)
    (he : Gives options fuel ℓ b (expr .lowest) x y (·.bare = e.bare)) :
    Gives options fuel ℓ b jumpValue x y (·.map Expr.bare = some e.bare) := by
  unfold jumpValue startsExpr
  rw [bind_assoc]
  refine .kind rfl ?_
  rw [pure_bind]
  exact .ite_pos (by simpa using hx) (he.map fun e' he => by simp [he])

theorem gives_breakLoop {v : Option Expr}
    (hv : Gives options fuel ℓ b jumpValue ⟨i, n⟩ y (·.map Expr.bare = v.map Expr.bare)) :
    Gives options fuel ℓ b breakLoop ⟨t :: i, n⟩ y (·.bare = (Expr.breakLoop v sp).bare) := by
  refine .bind .take fun _ _ => .bind hv fun v' hv => .spanFrom fun sp => .pure ?_
  simp [Expr.bare, hv]

theorem gives_returnValue {v : Option Expr}
    (hv : Gives options fuel ℓ b jumpValue ⟨i, n⟩ y (·.map Expr.bare = v.map Expr.bare)) :
    Gives options fuel ℓ b returnValue ⟨t :: i, n⟩ y (·.bare = (Expr.returnValue v sp).bare) := by
  refine .bind .take fun _ _ => .bind hv fun v' hv => .spanFrom fun sp => .pure ?_
  simp [Expr.bare, hv]

theorem gives_arguments {es : List Expr}
    (hes : Gives options fuel ℓ true
      (do let es ← commaList .closeParen (expr .lowest); let _ ← expect .closeParen; return es) x y
      (·.map Expr.bare = es.map Expr.bare)) :
    Gives options fuel ℓ b arguments x y (·.1.map Expr.bare = es.map Expr.bare) :=
  .withStructLiterals <| .closed hes fun _ _ hes => .pure hes

theorem gives_callSuffix {es : List Expr}
    (hes : Gives options fuel ℓ b arguments ⟨i, n⟩ y (·.1.map Expr.bare = es.map Expr.bare)) :
    Gives options fuel ℓ b callSuffix ⟨t :: i, n⟩ y (·.bare = (Suffix.call es c).bare) := by
  refine .bind .take fun _ _ => .bind hes fun es' hes => .pure ?_
  simp [Suffix.bare, hes]

theorem gives_indexSuffix {e : Expr}
    (he : Gives options fuel ℓ true (expr .lowest) ⟨i, n⟩ ⟨c :: j, m⟩ (·.bare = e.bare))
    (hc : c.kind = .closeBracket) :
    Gives options fuel ℓ b indexSuffix ⟨t :: i, n⟩ ⟨j, m⟩ (·.bare = (Suffix.index e s).bare) := by
  refine .bind .take fun _ _ => .bind he.withStructLiterals fun e' he => ?_
  refine .bind (.expect hc) fun _ _ => .pure ?_
  simp [Suffix.bare, he]

theorem gives_fieldSuffix
    (hs : s.kind = .integer ∨ s.kind = .identifier ∧ kindAt i 0 ≠ .openParen) :
    Gives options fuel ℓ b memberSuffix ⟨t :: s :: i, n⟩ ⟨i, n⟩
      (·.bare = (Suffix.field s).bare) := by
  refine .bind .take fun _ _ => .bind (.expectOneOf (by obtain hs | ⟨hs, -⟩ := hs <;> simp [hs])) ?_
  intro s' hbare
  have hfield : (Suffix.field s').bare = (Suffix.field s).bare := by simp [Suffix.bare, hbare]
  obtain hs | ⟨hs, hi⟩ := hs
  · exact .ite_neg (by simp [Token.kind_of_bare hbare, hs]) (.pure hfield)
  · exact .ite_pos (by simp [Token.kind_of_bare hbare, hs]) (.ifNotEat hi (.pure hfield))

theorem gives_methodSuffix {o : Token} {es : List Expr} (hs : s.kind = .identifier)
    (ho : o.kind = .openParen)
    (hes : Gives options fuel ℓ b arguments ⟨i, n⟩ y (·.1.map Expr.bare = es.map Expr.bare)) :
    Gives options fuel ℓ b memberSuffix ⟨t :: s :: o :: i, n⟩ y
      (·.bare = (Suffix.methodCall s es c).bare) := by
  refine .bind .take fun _ _ => .bind (.expectOneOf (by simp [hs])) fun s' hbare => ?_
  refine .ite_pos (by simp [Token.kind_of_bare hbare, hs]) <| .ifEat ho <| .bind hes fun r hr => ?_
  refine .pure ?_
  simp [Suffix.bare, hbare, hr]

theorem gives_castSuffix {a : Ty} (ha : Gives options fuel ℓ b ty ⟨i, n⟩ y (·.bare = a.bare)) :
    Gives options fuel ℓ b castSuffix ⟨t :: i, n⟩ y (·.bare = (Suffix.cast a).bare) :=
  .bind .take fun _ _ => ha.map fun a' ha => by simp [Suffix.bare, ha]

theorem gives_assignSuffix {e : Expr} (ht : t.kind = .assignment)
    (he : Gives options fuel ℓ b (expr .lowest) ⟨i, n⟩ y (·.bare = e.bare)) :
    Gives options fuel ℓ b assignSuffix ⟨t :: i, n⟩ y (·.bare = (Suffix.assign e).bare) := by
  refine .bind .take fun t' hbare => .bind he fun e' he => .pure ?_
  simp [Suffix.bare, Token.kind_of_bare hbare, ht, he]

theorem gives_compoundSuffix {e : Expr} (ht : t.kind ≠ .assignment)
    (he : Gives options fuel ℓ b (expr .lowest) ⟨i, n⟩ y (·.bare = e.bare)) :
    Gives options fuel ℓ b assignSuffix ⟨t :: i, n⟩ y
      (·.bare = (Suffix.compoundAssign t e).bare) := by
  refine .bind .take fun t' hbare => .bind he fun e' he => .pure ?_
  simp [Suffix.bare, Token.kind_of_bare hbare, ht, he, hbare]

theorem gives_binarySuffix {τ : Tier} {e : Expr}
    (he : Gives options fuel ℓ b (expr τ) ⟨i, n⟩ y (·.bare = e.bare)) :
    Gives options fuel ℓ b (binarySuffix τ) ⟨t :: i, n⟩ y (·.bare = (Suffix.binary t e).bare) := by
  refine .bind .take fun t' hbare => .bind he fun e' he => .pure ?_
  simp [Suffix.bare, he, hbare]

theorem suffix_eq_binarySuffix {τ : Tier} (h : τ ∉ [Tier.assignment, .cast, .call, .member]) :
    suffix k τ = binarySuffix τ := by
  cases τ <;> first | rfl | simp at h

theorem gives_noSuffix {above : Tier} (h : ∀ τ, x.kind.tier? = some τ → ¬above < τ) :
    Gives options fuel ℓ b (suffix? above) x x (· = none) := by
  refine .kind rfl ?_
  split
  · exact .ite_neg (h _ ‹_›) (.pure rfl)
  · exact .pure rfl

theorem gives_suffix {above τ : Tier} {Q : Suffix → Prop} (h : x.kind.tier? = some τ)
    (hτ : above < τ) (hs : Gives options fuel ℓ b (suffix x.kind τ) x y Q) :
    Gives options fuel ℓ b (suffix? above) x y fun s => ∃ s', s = some s' ∧ Q s' := by
  refine .kind rfl ?_
  rw [h]
  exact .ite_pos hτ (hs.map fun s hs => ⟨s, rfl, hs⟩)

theorem gives_operators {above : Tier} {e e' : Expr} {ss : List Suffix} (he : e'.bare = e.bare)
    (hs : Gives options fuel ℓ b (repeated (suffix? above)) x y
      (·.map Suffix.bare = ss.map Suffix.bare)) :
    Gives options fuel ℓ b (operators above e') x y (·.bare = (ss.foldl Suffix.attach e).bare) :=
  .bind hs fun _ hs => .pure (Suffix.bare_foldl_attach he hs)

theorem gives_startsBlockLike :
    Gives options fuel ℓ b startsBlockLike x x fun r => r = true ↔ x.StartsBlockLike := by
  refine .kind rfl ?_
  split
  · refine .nextKind rfl (.pure ?_)
    simp [Place.StartsBlockLike, *]
  all_goals exact .pure (by simp_all [Place.StartsBlockLike])

theorem gives_startsStatement :
    Gives options fuel ℓ b startsStatement x x fun r => r = true ↔ x.StartsStatement := by
  refine .kind rfl ?_
  split
  · refine .nextKind rfl (.pure ?_)
    simp [Place.StartsStatement, *]
  all_goals exact .pure (by simp_all [Place.StartsStatement])

theorem gives_statementExpr {Q : Expr → Prop} (hx : ¬x.StartsBlockLike)
    (h : Gives options fuel ℓ b (expr .lowest) x y Q) :
    Gives options fuel ℓ b statementExpr x y Q :=
  .bind gives_startsBlockLike fun _ hr => .ite_neg (fun h => hx (hr.1 h)) h

theorem gives_blockLike {Q : Expr → Prop} (hx : x.StartsBlockLike)
    (h : Gives options fuel ℓ b blockLikeRule x y Q) :
    Gives options (fuel + 1) (ℓ + 1) b statementExpr x y Q :=
  .bind gives_startsBlockLike fun _ hr => .ite_pos (hr.2 hx) (.goal h)

theorem gives_blockRule {ss : List Stmt} {e : Option Expr} (ht : t.kind = .openCurly)
    (hs : Gives options fuel ℓ true
      (do
        let es ← untilKind .closeCurly (goal .element)
        let _ ← expect .closeCurly
        return (Element.statements es, Element.tail? es))
      ⟨i, n.push⟩ y
      fun r => r.1.map Stmt.bare = ss.map Stmt.bare ∧ r.2.map Expr.bare = e.map Expr.bare) :
    Gives options fuel ℓ b blockRule ⟨t :: i, n⟩ ⟨y.rest, y.names.pop⟩
      (·.bare = (⟨ss, e, sp⟩ : Block).bare) := by
  refine .inScope <| .withStructLiterals <| .bind (.expect ht) fun _ _ => .closed hs ?_
  rintro es _ ⟨hss, he⟩
  refine .spanFrom fun sp => .pure ?_
  simp [Block.bare, hss, he]

theorem gives_constBlock {bl : Block} (ht : t.kind = .kwConst) (hi : kindAt i 0 = .openCurly)
    (hb : Gives options fuel ℓ b block ⟨i, n⟩ y (·.bare = bl.bare)) :
    Gives options fuel ℓ b constBlock ⟨t :: i, n⟩ y (·.bare = (Expr.constBlock bl sp).bare) := by
  refine .bind (.expect ht) fun _ _ => .kind hi <| .ite_pos rfl <| .bind hb fun bl' hb => ?_
  refine .spanFrom fun sp => .pure ?_
  simp [Expr.bare, hb]

theorem gives_letLink {p : Pattern} {v : Expr} (ht : t.kind = .kwLet)
    (hp : Gives options fuel ℓ b pattern ⟨i, n⟩ ⟨s :: j, m⟩ (·.bare = p.bare))
    (hs : s.kind = .assignment)
    (hv : Gives options fuel ℓ b (expr .logicalAnd) ⟨j, m⟩ y (·.bare = v.bare)) :
    Gives options fuel ℓ b link ⟨t :: i, n⟩
      ⟨y.rest, y.names.bindAll (Symbol.ofPattern p none)⟩
      (·.bare = (⟨some p, v, sp⟩ : Link).bare) := by
  refine .current (by simp [ht]) fun _ _ _ => .ifEat ht <| .bind hp fun p' hp => ?_
  refine .bind (.expect hs) fun _ _ => .bind hv fun v' hv => .bind (gives_bindPattern hp none none) fun _ _ => ?_
  refine .spanFrom fun sp => .pure ?_
  simp [Link.bare, hp, hv]

theorem gives_testLink {v : Expr} (hx : x.kind ∈ exprStarts)
    (hv : Gives options fuel ℓ b (expr .logicalAnd) x y (·.bare = v.bare)) :
    Gives options fuel ℓ b link x y (·.bare = (⟨none, v, sp⟩ : Link).bare) := by
  refine .current (ne_of_mem_of_not_mem hx (by decide)) fun _ _ _ => ?_
  refine .ifNotEat (ne_of_mem_of_not_mem hx (by decide)) <| .bind hv fun v' hv => ?_
  refine .spanFrom fun sp => .pure ?_
  simp [Link.bare, hv]

theorem gives_exprCondition {e : Expr} (hx : x.kind ∈ exprStarts)
    (he : Gives options fuel ℓ false (expr .lowest) x y (·.bare = e.bare)) :
    Gives options fuel ℓ b condition x y (·.bare = (Condition.expr e).bare) :=
  .withStructLiterals <| .kind rfl <| .ite_neg (ne_of_mem_of_not_mem hx (by decide)) <|
    he.map fun e' he => by simp [Condition.bare, he]

theorem gives_letChain {l : Link} {ls : List Link} (hx : x.kind = .kwLet)
    (hl : Gives options fuel ℓ false link x y (·.bare = l.bare))
    (hls : Gives options fuel ℓ false (eachAfter .andAnd link) y z
      (·.map Link.bare = ls.map Link.bare)) :
    Gives options fuel ℓ b condition x z (·.bare = (Condition.letChain (l :: ls)).bare) := by
  refine .withStructLiterals <| .kind hx <| .ite_pos rfl <| .bind hl fun l' hl => ?_
  refine .bind hls fun ls' hls => .pure ?_
  simp [Condition.bare, hl, hls]

theorem gives_guardedBlock {cond : Condition} {bl : Block}
    (hc : Gives options fuel ℓ b condition ⟨i, n.push⟩ x (·.bare = cond.bare))
    (hb : Gives options fuel ℓ b block x y (·.bare = bl.bare)) :
    Gives options fuel ℓ b guardedBlock ⟨i, n⟩ ⟨y.rest, y.names.pop⟩
      fun r => r.1.bare = cond.bare ∧ r.2.bare = bl.bare :=
  .inScope <| .bind hc fun _ hc => .bind hb fun _ hb => .pure ⟨hc, hb⟩

theorem gives_conditional {cond : Condition} {bl : Block} {o : Otherwise} (ht : t.kind = .kwIf)
    (hg : Gives options fuel ℓ b guardedBlock ⟨i, n⟩ y
      fun r => r.1.bare = cond.bare ∧ r.2.bare = bl.bare)
    (ho : Gives options fuel ℓ b otherwise y z (·.bare = o.bare)) :
    Gives options fuel ℓ b conditional ⟨t :: i, n⟩ z
      (·.bare = (⟨cond, bl, o, sp⟩ : Conditional).bare) := by
  refine .bind (.expect ht) fun _ _ => .bind hg fun r ⟨hc, hb⟩ => .bind ho fun o' ho => ?_
  refine .spanFrom fun sp => .pure ?_
  simp [Conditional.bare, hc, hb, ho]

theorem gives_whileLoop {cond : Condition} {bl : Block} (ht : t.kind = .kwWhile)
    (hg : Gives options fuel ℓ b guardedBlock ⟨i, n⟩ y
      fun r => r.1.bare = cond.bare ∧ r.2.bare = bl.bare) :
    Gives options fuel ℓ b whileLoop ⟨t :: i, n⟩ y (·.bare = (Expr.whileLoop cond bl sp).bare) := by
  refine .bind (.expect ht) fun _ _ => .bind hg fun r ⟨hc, hb⟩ => .spanFrom fun sp => .pure ?_
  simp [Expr.bare, hc, hb]

theorem gives_loop {bl : Block} (ht : t.kind = .kwLoop)
    (hb : Gives options fuel ℓ b block ⟨i, n⟩ y (·.bare = bl.bare)) :
    Gives options fuel ℓ b loop ⟨t :: i, n⟩ y (·.bare = (Expr.loop bl sp).bare) := by
  refine .bind (.expect ht) fun _ _ => .bind hb fun bl' hb => .spanFrom fun sp => .pure ?_
  simp [Expr.bare, hb]

theorem gives_elseIf {cond : Conditional} (ht : t.kind = .kwElse) (hi : kindAt i 0 = .kwIf)
    (hc : Gives options fuel ℓ b conditional ⟨i, n⟩ y (·.bare = cond.bare)) :
    Gives options (fuel + 1) (ℓ + 1) b otherwise ⟨t :: i, n⟩ y
      (·.bare = (Otherwise.conditional cond).bare) := by
  refine .ifEat ht <| .kind hi <| .ite_pos rfl ?_
  exact .map (.goal hc) fun c' hc => by simp [Otherwise.bare, hc]

theorem gives_elseBlock {bl : Block} (ht : t.kind = .kwElse) (hi : kindAt i 0 = .openCurly)
    (hb : Gives options fuel ℓ b block ⟨i, n⟩ y (·.bare = bl.bare)) :
    Gives options fuel ℓ b otherwise ⟨t :: i, n⟩ y (·.bare = (Otherwise.block bl).bare) := by
  refine .ifEat ht <| .kind hi <| .ite_neg (by decide) ?_
  exact hb.map fun bl' hb => by simp [Otherwise.bare, hb]

theorem gives_armRule {p : Pattern} {g : Option Expr} {e : Expr}
    (hp : Gives options fuel ℓ b pattern ⟨x.rest, x.names.push⟩ y (·.bare = p.bare))
    (hg : Gives options fuel ℓ b (after? .kwIf (expr .lowest))
      ⟨y.rest, y.names.bindAll (Symbol.ofPattern p none)⟩ ⟨t :: i, n⟩
      (·.map Expr.bare = g.map Expr.bare))
    (ht : t.kind = .fatArrow)
    (he : Gives options fuel ℓ b statementExpr ⟨i, n⟩ z (·.bare = e.bare)) :
    Gives options fuel ℓ b armRule x ⟨z.rest, z.names.pop⟩
      (·.bare = (⟨p, g, e, sp⟩ : Arm).bare) := by
  refine .inScope <| .bind hp fun p' hp => .bind (gives_bindPattern hp none none) fun _ _ => ?_
  refine .bind hg fun g' hg => .bind (.expect ht) fun _ _ => .bind he fun e' he => .pure ?_
  simp [Arm.bare, hp, hg, he]

theorem gives_armAndComma {a : Arm}
    (ha : Gives options fuel ℓ b (goal .arm) x ⟨t :: i, n⟩ (·.bare = a.bare))
    (ht : t.kind = .comma) :
    Gives options fuel ℓ b armAndComma x ⟨i, n⟩ (·.bare = a.bare) :=
  .bind ha fun _ ha => .ifEat ht <| .pure ha

theorem gives_bareArm {a : Arm} (ha : Gives options fuel ℓ b (goal .arm) x y (·.bare = a.bare))
    (hy : y.kind ≠ .comma) (hc : y.kind = .closeCurly ∨ a.body.isBlockLike = true) :
    Gives options fuel ℓ b armAndComma x y (·.bare = a.bare) := by
  refine .bind ha fun a' ha => .ifNotEat hy <| .kind rfl <| .ite_pos ?_ (.pure ha)
  have hbody : a'.body.bare = a.body.bare := by
    cases a
    cases a'
    simpa [Arm.bare] using congrArg Arm.body ha
  rwa [Expr.isBlockLike_of_bare hbody]

theorem gives_matching {o : Token} {e : Expr} {as : List Arm} (ht : t.kind = .kwMatch)
    (he : Gives options fuel ℓ false (expr .lowest) ⟨i, n⟩ ⟨o :: j, m⟩ (·.bare = e.bare))
    (ho : o.kind = .openCurly)
    (has : Gives options fuel ℓ true
      (do let as ← untilKind .closeCurly armAndComma; let _ ← expect .closeCurly; return as) ⟨j, m⟩ y
      (·.map Arm.bare = as.map Arm.bare)) :
    Gives options fuel ℓ b matching ⟨t :: i, n⟩ y (·.bare = (Expr.matching e as sp).bare) := by
  refine .bind (.expect ht) fun _ _ => .bind he.withStructLiterals fun e' he => ?_
  refine .bind (.expect ho) fun _ _ => .closedLiterals has fun as' _ has => ?_
  refine .spanFrom fun sp => .pure ?_
  simp [Expr.bare, he, has]

theorem gives_typedName {a : Ty} (ht : t.kind = .identifier) (hc : c.kind = .colon)
    (ha : Gives options fuel ℓ b ty ⟨i, n⟩ y (·.bare = a.bare)) :
    Gives options fuel ℓ b typedName ⟨t :: c :: i, n⟩ y
      (·.bare = (⟨t, a, sp⟩ : TypedName).bare) := by
  refine .bind (.expect ht) fun t' ht => .bind (.expect hc) fun _ _ => .bind ha fun a' ha => ?_
  refine .spanFrom fun sp => .pure ?_
  simp [TypedName.bare, ht, ha]

theorem gives_param {a : Ty} {place : Position} (ht : t.kind = .identifier) (hc : c.kind = .colon)
    (ha : Gives options fuel ℓ b ty ⟨i, n⟩ y (·.bare = a.bare)) :
    Gives options fuel ℓ b param ⟨t :: c :: i, n⟩
      ⟨y.rest, y.names.declare (.var t.value (some a) false) place⟩
      (·.bare = (⟨t, a, sp⟩ : TypedName).bare) := by
  refine .bind (.expect ht) fun t' ht => .bind (.expect hc) fun _ _ => .bind ha fun a' ha => ?_
  refine .bind (.declare ?_) fun _ _ => .spanFrom fun sp => .pure ?_
  · simp [Symbol.outline, Symbol.key, Symbol.isPatternConstant, Token.value_of_bare ht]
  · simp [TypedName.bare, ht, ha]

theorem gives_selfReference {mutable : Bool} {place : Position} (ht : t.kind = .ampersand)
    (hm : Gives options fuel ℓ b (eat .kwMut) ⟨i, n⟩ ⟨s :: j, m⟩ (· = mutable))
    (hs : s.kind = .kwSelfValue) :
    Gives options fuel ℓ b selfParam ⟨t :: i, n⟩
      ⟨j, m.declare (.var "self" none mutable) place⟩
      (·.bare = (⟨true, mutable, none, sp⟩ : SelfParam).bare) := by
  refine .current (by simp [ht]) fun _ _ _ => .bind (.eat ht) fun byRef hr => .bind hm fun _ hm => ?_
  subst hr hm
  refine .bind (.expect hs) fun _ _ => .ite_pos rfl <| .bind (Q := (· = none)) (.pure rfl) ?_
  rintro _ rfl
  exact .bind (.declare rfl) fun _ _ => .spanFrom fun sp => .pure rfl

theorem gives_selfValue {mutable : Bool} {a : Option Ty} {place : Position}
    (hx : x.kind ≠ .eof) (hr : x.kind ≠ .ampersand)
    (hm : Gives options fuel ℓ b (eat .kwMut) x ⟨s :: j, m⟩ (· = mutable))
    (hs : s.kind = .kwSelfValue)
    (ha : Gives options fuel ℓ b (after? .colon ty) ⟨j, m⟩ y (·.map Ty.bare = a.map Ty.bare)) :
    Gives options fuel ℓ b selfParam x ⟨y.rest, y.names.declare (.var "self" a mutable) place⟩
      (·.bare = (⟨false, mutable, a, sp⟩ : SelfParam).bare) := by
  refine .current hx fun _ _ _ => .bind (.notEat hr) fun byRef hr => .bind hm fun _ hm => ?_
  subst hr hm
  refine .bind (.expect hs) fun _ _ => .ite_neg (by decide) <| .bind ha fun a' ha => ?_
  refine .bind (.declare ?_) fun _ _ => .spanFrom fun sp => .pure ?_
  · rfl
  · simp [SelfParam.bare, ha]

theorem gives_noSelfParam (hx : x.kind = .identifier ∨ x.kind = .closeParen) :
    Gives options fuel ℓ b selfParam? x x (· = none) := by
  have hstart : Gives options fuel ℓ b startsSelfParam x x (· = false) := by
    refine .kind rfl (.nextKind rfl (.kindAfterNext rfl ?_))
    obtain hx | hx := hx <;> rw [hx] <;> exact .pure rfl
  refine .bind hstart ?_
  rintro _ rfl
  exact .pure rfl

theorem gives_startsSelfParam (hx : x.StartsSelf) :
    Gives options fuel ℓ b startsSelfParam x x (· = true) := by
  refine .kind rfl (.nextKind rfl (.kindAfterNext rfl ?_))
  obtain hx | ⟨hx, hnext⟩ | ⟨hx, hnext | ⟨hnext, hafter⟩⟩ := hx
  · rw [hx]
    exact .pure rfl
  · rw [hx, hnext]
    exact .pure rfl
  · rw [hx, hnext]
    exact .pure rfl
  · rw [hx, hnext, hafter]
    exact .pure rfl

theorem gives_lastSelfParam {p : SelfParam} (hx : x.StartsSelf)
    (hp : Gives options fuel ℓ b selfParam x ⟨c :: i, n⟩ (·.bare = p.bare))
    (hc : c.kind = .closeParen) :
    Gives options fuel ℓ b selfParam? x ⟨c :: i, n⟩ (·.map SelfParam.bare = some p.bare) := by
  refine .bind (gives_startsSelfParam hx) fun r hr => .ite_pos hr <| .bind hp fun p' hp => ?_
  refine .kind hc <| .ite_pos rfl <| .pure ?_
  simp [hp]

theorem gives_selfParam_comma {p : SelfParam} (hx : x.StartsSelf)
    (hp : Gives options fuel ℓ b selfParam x ⟨c :: i, n⟩ (·.bare = p.bare))
    (hc : c.kind = .comma) :
    Gives options fuel ℓ b selfParam? x ⟨i, n⟩ (·.map SelfParam.bare = some p.bare) := by
  refine .bind (gives_startsSelfParam hx) fun r hr => .ite_pos hr <| .bind hp fun p' hp => ?_
  refine .kind hc <| .ite_neg (by decide) <| .bind (.expect hc) fun _ _ => .pure ?_
  simp [hp]

theorem gives_signature (ht : t.kind = .semicolon) :
    Gives options fuel ℓ b (functionBody true) ⟨t :: i, n⟩ ⟨i, n⟩ (· = none) :=
  .kind ht <| .ite_pos rfl <| .ite_pos rfl <| .bind .take fun _ _ => .pure rfl

theorem gives_functionBody {allowSignature : Bool} {bl : Block} (hx : x.kind = .openCurly)
    (hb : Gives options fuel ℓ b block x y (·.bare = bl.bare)) :
    Gives options fuel ℓ b (functionBody allowSignature) x y (·.map Block.bare = some bl.bare) :=
  .kind hx <| .ite_neg (by decide) <| hb.map fun _ hb => by simp [hb]

theorem gives_function {allowSignature isConst : Bool} {f p : Token} {self : Option SelfParam}
    {ps : List TypedName} {r : Option Ty} {bl : Option Block} (hx : x.kind ≠ .eof)
    (hc : Gives options fuel ℓ b (eat .kwConst) x ⟨f :: t :: p :: i, n⟩ (· = isConst))
    (hf : f.kind = .kwFn) (ht : t.kind = .identifier) (hp : p.kind = .openParen)
    (hps : Gives options fuel ℓ b
      (do
        let self ← selfParam?
        let ps ← commaList .closeParen param
        let _ ← expect .closeParen
        return (self, ps))
      ⟨i, n.push⟩ y fun r => r.1.map SelfParam.bare = self.map SelfParam.bare ∧
        r.2.map TypedName.bare = ps.map TypedName.bare)
    (hr : Gives options fuel ℓ b (after? .arrow ty) y z (·.map Ty.bare = r.map Ty.bare))
    (hb : Gives options fuel ℓ b (functionBody allowSignature) z w
      (·.map Block.bare = bl.map Block.bare)) :
    Gives options fuel ℓ b (function allowSignature) x ⟨w.rest, w.names.pop⟩
      (·.bare = (⟨isConst, t, self, ps, r, bl, sp⟩ : FunctionDecl).bare) := by
  refine .current hx fun start _ _ => .bind hc fun _ hc => .bind (.expect hf) fun _ _ => ?_
  refine .bind (.expect ht) fun t' ht => .inScope <| .bind (.expect hp) fun _ _ => ?_
  -- the parameters end with the parenthesis
  have hparams (p : Option SelfParam → List TypedName → Phrase FunctionDecl) :
      (do
        let self ← selfParam?
        let ps ← commaList .closeParen param
        let _ ← expect .closeParen
        p self ps) =
      (do
        let self ← selfParam?
        let ps ← commaList .closeParen param
        let _ ← expect .closeParen
        return (self, ps)) >>= fun r => p r.1 r.2 := by
    simp only [bind_assoc, pure_bind]
  rw [hparams]
  refine .bind hps fun r' ⟨hself, hps⟩ => .bind hr fun a' ha => .bind hb fun bl' hb => ?_
  refine .spanFrom fun sp => .pure ?_
  simp [FunctionDecl.bare, hc, ht, hself, hps, ha, hb]

theorem gives_constant {inTrait : Bool} {d : Token} {a : Ty} {v : Option Expr}
    (ht : t.kind = .kwConst) (hc : c.kind = .identifier ∨ c.kind = .underscore)
    (hd : d.kind = .colon) (ha : Gives options fuel ℓ b ty ⟨i, n⟩ y (·.bare = a.bare))
    (hv : Gives options fuel ℓ b (constantValue inTrait) y ⟨s :: j, m⟩
      (·.map Expr.bare = v.map Expr.bare))
    (hs : s.kind = .semicolon) :
    Gives options fuel ℓ b (constant inTrait) ⟨t :: c :: d :: i, n⟩ ⟨j, m⟩
      (·.bare = (⟨c, a, v, sp⟩ : ConstantDecl).bare) := by
  refine .bind (.expect ht) fun _ _ => .bind (.expectOneOf (by simpa using hc)) fun c' hc => ?_
  refine .bind (.expect hd) fun _ _ => .bind ha fun a' ha => .bind hv fun v' hv => ?_
  refine .bind (.expect hs) fun _ _ => .spanFrom fun sp => .pure ?_
  simp [ConstantDecl.bare, hc, ha, hv]

theorem gives_constantValue {inTrait : Bool} {v : Option Expr}
    (hv : Gives options fuel ℓ b (after? .assignment (expr .lowest)) x y
      (·.map Expr.bare = v.map Expr.bare))
    (hx : x.kind ≠ .assignment → v = none ∧ y = x) (hn : v = none → inTrait = true) :
    Gives options fuel ℓ b (constantValue inTrait) x y (·.map Expr.bare = v.map Expr.bare) := by
  refine hv.ifEat_else fun hne => ?_
  obtain ⟨rfl, rfl⟩ := hx hne
  exact .ite_pos (hn rfl) (.pure rfl)

theorem gives_unitStruct (ht : t.kind = .kwStruct) (hc : c.kind = .identifier)
    (hs : s.kind = .semicolon) :
    Gives options fuel ℓ b struct ⟨t :: c :: s :: i, n⟩ ⟨i, n⟩
      (·.bare = (Item.unitStruct c sp).bare) := by
  refine .bind (.expect ht) fun _ _ => .bind (.expect hc) fun c' hc => .kind hs ?_
  refine .bind .take fun _ _ => .spanFrom fun sp => .pure ?_
  simp [Item.bare, hc]

theorem gives_struct {o : Token} {fs : List TypedName} (ht : t.kind = .kwStruct)
    (hc : c.kind = .identifier) (ho : o.kind = .openCurly)
    (hfs : Gives options fuel ℓ b
      (do let fs ← commaList .closeCurly typedName; let _ ← expect .closeCurly; return fs) ⟨i, n⟩ y
      (·.map TypedName.bare = fs.map TypedName.bare)) :
    Gives options fuel ℓ b struct ⟨t :: c :: o :: i, n⟩ y
      (·.bare = (Item.struct c fs sp).bare) := by
  refine .bind (.expect ht) fun _ _ => .bind (.expect hc) fun c' hc => .kind ho ?_
  refine .bind .take fun _ _ => .closed hfs fun fs' _ hfs => .spanFrom fun sp => .pure ?_
  simp [Item.bare, hc, hfs]

theorem gives_enum {o : Token} {vs : List Token} (ht : t.kind = .kwEnum)
    (hc : c.kind = .identifier) (ho : o.kind = .openCurly)
    (hvs : Gives options fuel ℓ b
      (do let vs ← commaList .closeCurly (expect .identifier); let _ ← expect .closeCurly; return vs)
      ⟨i, n⟩ y (·.map Token.bare = vs.map Token.bare)) :
    Gives options fuel ℓ b enum ⟨t :: c :: o :: i, n⟩ y (·.bare = (Item.enum c vs sp).bare) := by
  refine .bind (.expect ht) fun _ _ => .bind (.expect hc) fun c' hc => .bind (.expect ho) fun _ _ => ?_
  refine .closed hvs fun vs' _ hvs => .spanFrom fun sp => .pure ?_
  simp [Item.bare, hc, hvs]

theorem gives_member_function {inTrait : Bool} {f : FunctionDecl}
    (hx : x.kind = .kwFn ∨ x.kind = .kwConst ∧ x.nextKind = .kwFn)
    (h : Gives options fuel ℓ b (function inTrait) x y (·.bare = f.bare)) :
    Gives options fuel ℓ b (member inTrait) x y (·.bare = (Member.function f).bare) := by
  have hf : Gives options fuel ℓ b (Member.function <$> function inTrait) x y
      (·.bare = (Member.function f).bare) := h.map fun f' hf => by simp [Member.bare, hf]
  obtain hx | ⟨hx, hnext⟩ := hx
  · exact .kind hx (.nextKind rfl hf)
  · exact .kind hx (.nextKind hnext hf)

theorem gives_member_constant {inTrait : Bool} {d : ConstantDecl}
    (hx : x.kind = .kwConst) (hnext : x.nextKind = .identifier ∨ x.nextKind = .underscore)
    (h : Gives options fuel ℓ b (constant inTrait) x y (·.bare = d.bare)) :
    Gives options fuel ℓ b (member inTrait) x y (·.bare = (Member.constant d).bare) := by
  have hd : Gives options fuel ℓ b (Member.constant <$> constant inTrait) x y
      (·.bare = (Member.constant d).bare) := h.map fun d' hd => by simp [Member.bare, hd]
  obtain hnext | hnext := hnext <;> exact .kind hx (.nextKind hnext hd)

theorem gives_declaredMember {inTrait : Bool} {a : Member} {place : Position}
    (h : Gives options fuel ℓ b (member inTrait) x y (·.bare = a.bare)) :
    Gives options fuel ℓ b (declaredMember inTrait) x
      ⟨y.rest, y.names.declare (.ofMember a) place⟩ (·.bare = a.bare) := by
  refine .position fun place => .bind h fun a' ha => .bind (.declare ?_) fun _ _ => .pure ha
  rw [← Symbol.outline_ofMember_bare, ha, Symbol.outline_ofMember_bare]

theorem gives_members {inTrait : Bool} {ms : List Member} (ht : t.kind = .openCurly)
    (hms : Gives options fuel ℓ b
      (do
        let ms ← untilKind .closeCurly (declaredMember inTrait)
        let _ ← expect .closeCurly
        return ms)
      ⟨i, n.push⟩ y (·.map Member.bare = ms.map Member.bare)) :
    Gives options fuel ℓ b (members inTrait) ⟨t :: i, n⟩ ⟨y.rest, y.names.pop⟩
      (·.map Member.bare = ms.map Member.bare) :=
  .inScope <| .bind (.expect ht) fun _ _ => .closed hms fun _ _ hms => .pure hms

theorem gives_trait {ms : List Member} (ht : t.kind = .kwTrait) (hc : c.kind = .identifier)
    (hms : Gives options fuel ℓ b (members true) ⟨i, n⟩ y (·.map Member.bare = ms.map Member.bare)) :
    Gives options fuel ℓ b trait ⟨t :: c :: i, n⟩ y (·.bare = (Item.trait c ms sp).bare) := by
  refine .bind (.expect ht) fun _ _ => .bind (.expect hc) fun c' hc => .bind hms fun ms' hms => ?_
  refine .spanFrom fun sp => .pure ?_
  simp [Item.bare, hc, hms]

theorem gives_noImplTrait (hx : ¬(x.kind = .identifier ∧ x.nextKind = .kwFor)) :
    Gives options fuel ℓ b implTrait? x x (· = none) := by
  refine .kind rfl (.nextKind rfl ?_)
  split
  · exact absurd ⟨‹_›, ‹_›⟩ hx
  · exact .pure rfl

theorem gives_implTrait (hc : c.kind = .identifier) (hs : s.kind = .kwFor) :
    Gives options fuel ℓ b implTrait? ⟨c :: s :: i, n⟩ ⟨i, n⟩
      (·.map Token.bare = some c.bare) := by
  refine .kind hc <| .nextKind hs <| .bind .take fun c' hc => .bind .take fun _ _ => .pure ?_
  simp [hc]

theorem gives_impl {name : Option Token} {a : Ty} {ms : List Member} (ht : t.kind = .kwImpl)
    (hname : Gives options fuel ℓ b implTrait? ⟨i, n⟩ x (·.map Token.bare = name.map Token.bare))
    (ha : Gives options fuel ℓ b ty x y (·.bare = a.bare))
    (hms : Gives options fuel ℓ b (members false) y z (·.map Member.bare = ms.map Member.bare)) :
    Gives options fuel ℓ b impl ⟨t :: i, n⟩ z (·.bare = (Item.impl name a ms sp).bare) := by
  refine .bind (.expect ht) fun _ _ => .bind hname fun name' hname => .bind ha fun a' ha => ?_
  refine .bind hms fun ms' hms => .spanFrom fun sp => .pure ?_
  simp [Item.bare, hname, ha, hms]

theorem gives_item_function {f : FunctionDecl}
    (hx : x.kind = .kwFn ∨ x.kind = .kwConst ∧ x.nextKind = .kwFn)
    (h : Gives options fuel ℓ b (function false) x y (·.bare = f.bare)) :
    Gives options fuel ℓ b item x y (·.bare = (Item.function f).bare) := by
  have hf : Gives options fuel ℓ b (Item.function <$> function false) x y
      (·.bare = (Item.function f).bare) := h.map fun f' hf => by simp [Item.bare, hf]
  obtain hx | ⟨hx, hnext⟩ := hx
  · exact .kind hx (.nextKind rfl hf)
  · exact .kind hx (.nextKind hnext hf)

theorem gives_item_constant {d : ConstantDecl}
    (hx : x.kind = .kwConst) (hnext : x.nextKind = .identifier ∨ x.nextKind = .underscore)
    (h : Gives options fuel ℓ b (constant false) x y (·.bare = d.bare)) :
    Gives options fuel ℓ b item x y (·.bare = (Item.constant d).bare) := by
  have hd : Gives options fuel ℓ b (Item.constant <$> constant false) x y
      (·.bare = (Item.constant d).bare) := h.map fun d' hd => by simp [Item.bare, hd]
  obtain hnext | hnext := hnext <;> exact .kind hx (.nextKind hnext hd)

theorem gives_declaredItem {a : Item} {place : Position}
    (h : Gives options fuel ℓ b item x y (·.bare = a.bare)) :
    Gives options fuel ℓ b declaredItem x ⟨y.rest, y.names.declare (.ofItem a) place⟩
      (·.bare = a.bare) := by
  refine .bind h fun a' ha => .bind (.declare ?_) fun _ _ => .pure ha
  rw [← Symbol.outline_ofItem_bare, ha, Symbol.outline_ofItem_bare]

theorem gives_letBinding {p : Pattern} {a : Option Ty} {v : Option Expr} (ht : t.kind = .kwLet)
    (hp : Gives options fuel ℓ b pattern ⟨i, n⟩ x (·.bare = p.bare))
    (ha : Gives options fuel ℓ b (after? .colon ty) x y (·.map Ty.bare = a.map Ty.bare))
    (hv : Gives options fuel ℓ b (after? .assignment (expr .lowest)) y ⟨s :: j, m⟩
      (·.map Expr.bare = v.map Expr.bare))
    (hs : s.kind = .semicolon) :
    Gives options fuel ℓ b letBinding ⟨t :: i, n⟩ ⟨j, m.bindAll (Symbol.ofPattern p a)⟩
      (·.bare = (Stmt.letBinding p a v sp).bare) := by
  refine .bind (.expect ht) fun _ _ => .bind hp fun p' hp => .bind ha fun a' ha => ?_
  refine .bind hv fun v' hv => .bind (.expect hs) fun _ _ => .bind (gives_bindPattern hp a a') ?_
  refine fun _ _ => .spanFrom fun sp => .pure ?_
  simp [Stmt.bare, hp, ha, hv]

theorem gives_emptyStatement (ht : t.kind = .semicolon) :
    Gives options fuel ℓ b emptyStatement ⟨t :: i, n⟩ ⟨i, n⟩ (·.bare = (Stmt.empty sp).bare) :=
  .bind (.expect ht) fun _ _ => .pure rfl

theorem gives_itemStatement {a : Item} (hx : x.kind ∈ itemStarts)
    (h : Gives options fuel ℓ b declaredItem x y (·.bare = a.bare)) :
    Gives options fuel ℓ b statement x y (·.bare = (Stmt.item a).bare) := by
  have ha : Gives options fuel ℓ b (Stmt.item <$> declaredItem) x y (·.bare = (Stmt.item a).bare) :=
    h.map fun a' ha => by simp [Stmt.bare, ha]
  simp only [itemStarts, List.mem_cons, List.not_mem_nil, or_false] at hx
  obtain hx | hx | hx | hx | hx | hx := hx <;> exact .kind hx ha

theorem gives_statementElement {a : Stmt} (hx : x.StartsStatement)
    (h : Gives options fuel ℓ b statement x y (·.bare = a.bare)) :
    Gives options fuel ℓ b elementRule x y fun e => ∃ a', e = .statement a' ∧ a'.bare = a.bare :=
  .bind gives_startsStatement fun _ hr => .ite_pos (hr.2 hx) <| h.map fun a' ha => ⟨a', rfl, ha⟩

theorem gives_exprElement {Q : Element → Prop} (hx : ¬x.StartsStatement)
    (h : Gives options fuel ℓ b exprElement x y Q) : Gives options fuel ℓ b elementRule x y Q :=
  .bind gives_startsStatement fun _ hr => .ite_neg (fun h => hx (hr.1 h)) h

theorem gives_exprStatement {e : Expr}
    (he : Gives options fuel ℓ b statementExpr x ⟨s :: i, n⟩ (·.bare = e.bare))
    (hs : s.kind = .semicolon) :
    Gives options fuel ℓ b exprElement x ⟨i, n⟩ fun a =>
      ∃ a', a = .statement a' ∧ a'.bare = (Stmt.expr e true sp).bare := by
  refine .bind he fun e' he => .ifEat hs <| .spanFrom fun sp => .pure ⟨_, rfl, ?_⟩
  simp [Stmt.bare, he]

theorem gives_tail {e : Expr}
    (he : Gives options fuel ℓ b statementExpr x ⟨c :: i, n⟩ (·.bare = e.bare))
    (hc : c.kind = .closeCurly) :
    Gives options fuel ℓ b exprElement x ⟨c :: i, n⟩ fun a => ∃ e', a = .tail e' ∧ e'.bare = e.bare :=
  .bind he fun e' he => .ifNotEat (by simp [hc]) <| .kind hc <| .ite_pos rfl <| .pure ⟨e', rfl, he⟩

theorem gives_blockLikeStatement {e : Expr}
    (he : Gives options fuel ℓ b statementExpr x y (·.bare = e.bare)) (hs : y.kind ≠ .semicolon)
    (hc : y.kind ≠ .closeCurly) (hb : e.isBlockLike = true) :
    Gives options fuel ℓ b exprElement x y fun a =>
      ∃ a', a = .statement a' ∧ a'.bare = (Stmt.expr e false sp).bare := by
  refine .bind he fun e' he => .ifNotEat hs <| .kind rfl <| .ite_neg hc <| .ite_pos ?_ ?_
  · rwa [Expr.isBlockLike_of_bare he]
  · refine .pure ⟨_, rfl, ?_⟩
    simp [Stmt.bare, he]

end Grammar

end FrontEnd
