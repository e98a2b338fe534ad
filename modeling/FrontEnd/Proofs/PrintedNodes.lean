import FrontEnd.Proofs.PrintedWords
/-!
# Nodes are read back

If the parts of a node are read back from their s-expressions, so is the node, wherever it may stand.
-/
namespace FrontEnd

open Lexeme (kindOf)
open Grammar (pathSegments)
open Sexpr (headed Reading Readable reading)

namespace Sexpr

theorem Readable.headed {head : String} {items : List Sexpr} (hhead : IsWord head.toList)
    (h : ∀ s ∈ items, s.Readable) : (headed head items).Readable :=
  .list (List.forall_mem_cons.mpr ⟨.atom hhead, h⟩)

theorem readings_eq_map (items : List Sexpr) : readings items = items.map reading := by
  induction items with
  | nil => rfl
  | cons s items ih => rw [readings, ih, List.map_cons]

theorem reading_atom (word : String) : (atom word).reading = .ofWord word := rfl

theorem reading_headed (head : String) (items : List Sexpr) :
    (headed head items).reading = .ofParts (.ofText head) (items.map reading) := by
  rw [Sexpr.headed, reading, readings, readings_eq_map]
  rfl

/-- What is read from each of some s-expressions. -/
theorem map_reading {α β : Type} {f : α → Sexpr} {g : Reading → β} {k : α → β} {as : List α}
    (h : ∀ a ∈ as, g (f a).reading = k a) : ((as.map f).map reading).map g = as.map k := by
  simp only [List.map_map]
  exact List.map_congr_left h

end Sexpr

/-- A pattern that is read back. -/
structure Pattern.Printed (p : Pattern) : Prop where
  readable : p.sexpr.Readable
  pattern : p.sexpr.reading.pattern = p.shown
  constant : p.sexpr.reading.constant? = p.shown.constant?
  unmarked : p.sexpr.reading.isMark = false

theorem patternSexprs_eq_map (ps : List Pattern) : patternSexprs ps = ps.map Pattern.sexpr := by
  induction ps with
  | nil => rfl
  | cons p ps ih => rw [patternSexprs, ih, List.map_cons]

variable {t : Token} {p : Path} {sp : Span}

theorem Token.Spelt.ne_of_kind (h : t.Spelt) {w : String} (hk : t.kind ≠ kindOf w) : t.value ≠ w := by
  rintro rfl
  exact hk h.kindOf_eq.symm

theorem Token.Spelt.reading_sexpr (h : t.Spelt) : t.sexpr.reading.token = t.bare := h.ofText_eq

theorem isWord_of {w : String} (h : w.toList ≠ [] ∧ w.toList.all isPlain = true) :
    IsWord w.toList :=
  .plain h.1 (List.all_eq_true.mp h.2)

theorem isWord_referenceMark (mutable : Bool) : IsWord (referenceMark mutable).toList := by
  cases mutable <;> exact isWord_of (by decide)

abbrev literalKinds : List TokenKind := [.integer, .char, .string, .kwTrue, .kwFalse]

theorem TokenKind.mem_literalKinds {k : TokenKind} (h : k.isLiteral = true) : k ∈ literalKinds := by
  simpa [isLiteral] using h

/-- No literal is an operator, a word of a path or one that stands for a part of a binding. -/
theorem literalKinds_spec : ∀ k ∈ literalKinds, k ∉ [TokenKind.openParen, .closeParen] ∧
    (∀ o ∈ TokenKind.operators, o.2 ≠ k) ∧ k ∉ [TokenKind.kwRef, .kwMut, .atSign] ∧
    k ∉ pathSegments := by
  decide

/-- A word of a kind that no path has is no constant. -/
theorem Sexpr.constant?_ofWord_eq_none {w : String} (h : kindOf w ∉ pathSegments) :
    (Reading.ofWord w).constant? = none :=
  if_neg fun hpath => h hpath.2

namespace Pattern.Printed

/-- A token that is no mark is none when it is printed. -/
theorem unmarked_token (h : t.Spelt) (hk : t.kind ∉ [TokenKind.kwRef, .kwMut, .atSign]) :
    t.sexpr.reading.isMark = false := by
  have hmarks : ∀ w ∈ ["ref", "mut", "@"], kindOf w ∈ [TokenKind.kwRef, .kwMut, .atSign] := by decide
  refine decide_eq_false fun hmem => hk ?_
  rw [← h.kindOf_eq]
  exact hmarks _ hmem

theorem literal (h : t.Spelt) (hk : t.kind.isLiteral = true) :
    (Pattern.literal t false sp).Printed := by
  have hk := TokenKind.mem_literalKinds hk
  obtain ⟨hparen, hoperator, hmark, hpath⟩ := literalKinds_spec _ hk
  rw [← h.kindOf_eq] at hpath
  refine ⟨.atom (h.isWord hparen), ?_, Sexpr.constant?_ofWord_eq_none hpath, unmarked_token h hmark⟩
  change Sexpr.patternOfWord t.value = _
  rw [Sexpr.patternOfWord, if_neg (h.head?_ne_dash hoperator), h.kindOf_eq, h.ofText_eq]
  simp only [List.mem_cons, List.not_mem_nil, or_false] at hk
  rcases hk with hk | hk | hk | hk | hk <;> rw [hk] <;> rfl

theorem negated (h : t.Spelt) (hk : t.kind = .integer) : (Pattern.literal t true sp).Printed := by
  obtain ⟨hne, hplain⟩ := h.integer_plain hk
  have hword : ("-" ++ t.value).toList = '-' :: t.value.toList := by simp
  have hdash : ("-" ++ t.value).toList.head? = some '-' := by rw [hword, List.head?_cons]
  refine ⟨.atom ?_, ?_, if_neg fun hpath => hpath.1 hdash, ?_⟩
  · rw [if_pos rfl, hword]
    exact .plain (by simp) (List.forall_mem_cons.mpr ⟨rfl, hplain⟩)
  · change Sexpr.patternOfWord ("-" ++ t.value) = _
    rw [Sexpr.patternOfWord, if_pos hdash, hword, List.tail_cons, String.ofList_toList, h.ofText_eq]
    rfl
  · have hmarks : ∀ w ∈ ["ref", "mut", "@"], w.toList.head? ≠ some '-' := by decide
    exact decide_eq_false fun hmem => hmarks _ hmem hdash

theorem name (h : t.Spelt) (hk : t.kind = .identifier) :
    (Pattern.identifier t false false none sp).Printed := by
  have hdash : t.value.toList.head? ≠ some '-' := h.head?_ne_dash (by rw [hk]; decide)
  have hkind : kindOf t.value = .identifier := h.kindOf_eq.trans hk
  refine ⟨.atom (h.isWord (by simp [hk])), ?_, ?_, unmarked_token h (by simp [hk])⟩
  · change Sexpr.patternOfWord t.value = _
    rw [Sexpr.patternOfWord, if_neg hdash, hkind, h.ofText_eq]
    rfl
  · have hsegment : t.kind ∈ pathSegments := by simp [hk, pathSegments]
    have hpath : Path.ofText t.value = (Path.ofToken t).bare := by
      rw [← (Path.Spelt.ofToken h hsegment).ofText_eq, Path.Spelt.text_singleton rfl]
    change (Reading.ofWord t.value).constant? = some (.path (Path.ofToken t).bare)
    rw [← hpath]
    exact if_pos ⟨hdash, h.kindOf_eq.symm ▸ hsegment⟩

theorem wildcard (h : t.Spelt) (hk : t.kind = .underscore) : (Pattern.wildcard t).Printed := by
  have hvalue : t.value = "_" := h.value_eq (by rw [hk]; rfl)
  refine ⟨.atom (isWord_of (by decide)), ?_, Sexpr.constant?_ofWord_eq_none (by decide), rfl⟩
  rw [Pattern.shown, ← h.ofText_eq, hvalue]
  rfl

theorem reference {mutable : Bool} {inner : Pattern} (h : inner.Printed) :
    (Pattern.reference mutable inner sp).Printed := by
  have hparts : ∀ s ∈ [inner.sexpr], s.Readable := by simpa using h.readable
  refine ⟨.headed (isWord_referenceMark mutable) hparts, ?_, rfl, rfl⟩
  rw [Pattern.shown, ← h.pattern]
  cases mutable <;> rfl

def subSexprs : Option Pattern → List Sexpr
  | none => []
  | some sub => [.atom "@", sub.sexpr]

def bindingSexprs (name : Token) (byRef mutable : Bool) (sub : Option Pattern) : List Sexpr :=
  flagWord byRef "ref" ++ flagWord mutable "mut" ++ name.sexpr :: subSexprs sub

/-- A binding is read back from its words: the name is none of the two that may stand before it. -/
theorem bindingOf_eq {sub : Option Pattern} (byRef mutable : Bool) (h : t.Spelt)
    (hk : t.kind = .identifier) (hs : ∀ p ∈ sub, p.Printed) :
    Sexpr.bindingOf (.ofText "bind") ((bindingSexprs t byRef mutable sub).map reading) =
      (Pattern.identifier t byRef mutable sub sp).shown := by
  have hmarks : (Sexpr.atom "ref").reading.token.kind = .kwRef ∧
      (Sexpr.atom "mut").reading.token.kind = .kwMut := ⟨rfl, rfl⟩
  cases sub with
  | none =>
    cases byRef <;> cases mutable <;>
      simp [bindingSexprs, Sexpr.bindingOf, Sexpr.takeMark, flagWord, subSexprs, hmarks, hk,
        h.reading_sexpr, Pattern.shown]
  | some p =>
    cases byRef <;> cases mutable <;>
      simp [bindingSexprs, Sexpr.bindingOf, Sexpr.takeMark, flagWord, subSexprs, hmarks, hk,
        h.reading_sexpr, Pattern.shown, (hs p rfl).pattern]

theorem bindingSexprs_readable {byRef mutable : Bool} {sub : Option Pattern} (h : t.Spelt)
    (hk : t.kind = .identifier) (hs : ∀ p ∈ sub, p.Printed) :
    ∀ s ∈ bindingSexprs t byRef mutable sub, s.Readable := by
  have hname : t.sexpr.Readable := .atom (h.isWord (by simp [hk]))
  have hmarks : (Sexpr.atom "ref").Readable ∧ (Sexpr.atom "mut").Readable ∧
      (Sexpr.atom "@").Readable :=
    ⟨.atom (isWord_of (by decide)), .atom (isWord_of (by decide)), .atom (isWord_of (by decide))⟩
  cases sub with
  | none => cases byRef <;> cases mutable <;> simp [bindingSexprs, flagWord, subSexprs, hmarks, hname]
  | some p =>
    have hp := (hs p rfl).readable
    cases byRef <;> cases mutable <;>
      simp [bindingSexprs, flagWord, subSexprs, hmarks, hname, hp]

theorem binding {byRef mutable : Bool} {sub : Option Pattern} (h : t.Spelt) (hk : t.kind = .identifier)
    (hs : ∀ p ∈ sub, p.Printed) : (Pattern.identifier t byRef mutable sub sp).Printed := by
  by_cases hplain : byRef = false ∧ mutable = false ∧ sub = none
  · obtain ⟨rfl, rfl, rfl⟩ := hplain
    exact name h hk
  · obtain ⟨hsexpr, hmark, hconstant⟩ : (Pattern.identifier t byRef mutable sub sp).sexpr =
          headed "bind" (bindingSexprs t byRef mutable sub) ∧
        ((bindingSexprs t byRef mutable sub).map reading).any Reading.isMark = true ∧
        (Pattern.identifier t byRef mutable sub sp).shown.constant? = none := by
      have hmarks : (Sexpr.atom "ref").reading.isMark = true ∧
          (Sexpr.atom "mut").reading.isMark = true ∧ (Sexpr.atom "@").reading.isMark = true := by decide
      cases sub <;> cases byRef <;> cases mutable <;>
        simp [Pattern.sexpr, bindingSexprs, flagWord, subSexprs, hmarks, Pattern.shown,
          Pattern.constant?] at hplain ⊢
    refine ⟨?_, ?_, ?_, ?_⟩
    · rw [hsexpr]
      exact .headed (isWord_of (by decide)) (bindingSexprs_readable h hk hs)
    · rw [hsexpr, Sexpr.reading_headed, ← bindingOf_eq byRef mutable h hk hs]
      exact if_pos ⟨rfl, hmark⟩
    · rw [hsexpr, Sexpr.reading_headed, hconstant]
      rfl
    · rw [hsexpr, Sexpr.reading_headed]
      rfl

theorem path (h : p.Spelt) : (Pattern.path p).Printed := by
  have hconstant : (Reading.ofWord p.text).constant? = some (.path (.ofText p.text)) :=
    if_pos ⟨h.head?_ne_dash, h.kindOf_text⟩
  refine ⟨.headed (isWord_of (by decide)) (by simpa using .atom h.isWord), ?_, rfl, rfl⟩
  rw [Pattern.shown, ← h.ofText_eq]
  change ((Reading.ofWord p.text).constant?.getD _) = _
  rw [hconstant, Option.getD_some]

theorem tupleStruct {ps : List Pattern} (h : p.Spelt) (hps : ∀ q ∈ ps, q.Printed) :
    (Pattern.tupleStruct p ps sp).Printed := by
  have hsexpr : (Pattern.tupleStruct p ps sp).sexpr = headed p.text (ps.map Pattern.sexpr) := by
    rw [Pattern.sexpr, patternSexprs_eq_map]
  have hpatterns : ((ps.map Pattern.sexpr).map reading).map Reading.pattern = ps.map Pattern.shown :=
    Sexpr.map_reading fun q hq => (hps q hq).pattern
  have hunmarked : ((ps.map Pattern.sexpr).map reading).any Reading.isMark = false := by
    simpa using fun q hq => (hps q hq).unmarked
  have hlone : lone? Reading.constant? ((ps.map Pattern.sexpr).map reading) =
      lone? Pattern.constant? (ps.map Pattern.shown) := by
    match ps with
    | [] | _ :: _ :: _ => rfl
    | [q] => exact (hps q List.mem_cons_self).constant
  have hhead : p.text ≠ "&" ∧ p.text ≠ "&mut" := by
    obtain ⟨c, cs, heq, hc⟩ := h.exists_cons
    constructor <;> intro htext <;> rw [htext] at heq <;> cases heq <;> cases hc
  refine ⟨?_, ?_, ?_, ?_⟩
  · rw [hsexpr]
    exact .headed h.isWord (by simpa using fun q hq => (hps q hq).readable)
  · rw [hsexpr, Sexpr.reading_headed]
    change Sexpr.patternOf (.ofText p.text) _ = variantShown p.bare (patternShowns ps)
    rw [Sexpr.patternOf, variantShown, hpatterns, hlone, hunmarked, Token.value_ofText, if_neg hhead.1,
      if_neg hhead.2, if_neg (by simp), h.ofText_eq, Path.text_bare, patternShowns_eq_map]
  · rw [hsexpr, Sexpr.reading_headed, Pattern.shown, constant?_variantShown]
    rfl
  · rw [hsexpr, Sexpr.reading_headed]
    rfl

end Pattern.Printed

structure Ty.Printed (a : Ty) : Prop where
  readable : a.sexpr.Readable
  ty : a.sexpr.reading.ty = a.shown
  isType : a.sexpr.reading.isType = true

structure Expr.Printed (e : Expr) : Prop where
  readable : e.sexpr.Readable
  expr : e.sexpr.reading.expr = e.shown
  condition : e.sexpr.reading.condition = .expr e.shown
  link : e.sexpr.reading.link = ⟨none, e.shown, .nowhere⟩
  tail : e.sexpr.reading.tail? = none
  stmt : e.isBlockLike = true →
    e.sexpr.reading.stmt = .expr e.shown false .nowhere ∧ e.sexpr.reading.isType = false

theorem tySexprs_eq_map (as : List Ty) : tySexprs as = as.map Ty.sexpr := by
  induction as with
  | nil => rfl
  | cons a as ih => rw [tySexprs, ih, List.map_cons]

theorem exprSexprs_eq_map (es : List Expr) : exprSexprs es = es.map Expr.sexpr := by
  induction es with
  | nil => rfl
  | cons e es ih => rw [exprSexprs, ih, List.map_cons]

namespace Ty.Printed

theorem path (h : p.Spelt) : (Ty.path p).Printed := by
  have hkind := h.kindOf_text
  refine ⟨.atom h.isWord, ?_, ?_⟩
  · change Sexpr.tyOfWord p.text = .path p.bare
    rw [Sexpr.tyOfWord, ← h.ofText_eq]
    simp only [pathSegments, List.mem_cons, List.not_mem_nil, or_false] at hkind
    rcases hkind with hk | hk | hk <;> rw [hk]
  · refine decide_eq_true fun hk => ?_
    rw [hk] at hkind
    exact absurd hkind (by decide)

theorem reference {mutable : Bool} {a : Ty} (h : a.Printed) : (Ty.reference mutable a sp).Printed := by
  refine ⟨.headed (isWord_referenceMark mutable) (by simpa using h.readable), ?_, ?_⟩
  · rw [Ty.shown, ← h.ty]
    cases mutable <;> rfl
  · cases mutable <;> rfl

theorem array {a : Ty} {e : Expr} (h : a.Printed) (he : e.Printed) : (Ty.array a e sp).Printed := by
  have hparts : ∀ s ∈ [a.sexpr, e.sexpr], s.Readable := by simpa using ⟨h.readable, he.readable⟩
  refine ⟨.headed (isWord_of (by decide)) hparts, ?_, rfl⟩
  rw [Ty.shown, ← h.ty, ← he.expr]
  rfl

theorem slice {a : Ty} (h : a.Printed) : (Ty.slice a sp).Printed := by
  have hparts : ∀ s ∈ [a.sexpr], s.Readable := by simpa using h.readable
  refine ⟨.headed (isWord_of (by decide)) hparts, ?_, rfl⟩
  rw [Ty.shown, ← h.ty]
  rfl

theorem tuple {as : List Ty} (h : ∀ a ∈ as, a.Printed) : (Ty.tuple as sp).Printed := by
  have hsexpr : (Ty.tuple as sp).sexpr = headed "tuple" (as.map Ty.sexpr) := by
    rw [Ty.sexpr, tySexprs_eq_map]
  refine ⟨?_, ?_, ?_⟩
  · rw [hsexpr]
    exact .headed (isWord_of (by decide)) (by simpa using fun a ha => (h a ha).readable)
  · rw [hsexpr, Sexpr.reading_headed, Ty.shown, tyShowns_eq_map,
      ← Sexpr.map_reading fun a ha => (h a ha).ty]
    rfl
  · rw [hsexpr, Sexpr.reading_headed]
    rfl

theorem never (h : t.Spelt) (hk : t.kind = .bang) : (Ty.never t).Printed := by
  refine ⟨.atom (isWord_of (by decide)), ?_, rfl⟩
  rw [Ty.shown, ← h.ofText_eq, h.value_eq (w := "!") (by rw [hk]; rfl)]
  rfl

theorem inferred (h : t.Spelt) (hk : t.kind = .underscore) : (Ty.inferred t).Printed := by
  refine ⟨.atom (isWord_of (by decide)), ?_, rfl⟩
  rw [Ty.shown, ← h.ofText_eq, h.value_eq (w := "_") (by rw [hk]; rfl)]
  rfl

end Ty.Printed

/-- What a list begins with that is an expression, and no link of a let-chain or value of a block. -/
def IsExprHead (head : String) : Prop :=
  head ≠ "let-chain" ∧ head ≠ "tail" ∧ kindOf head ≠ .kwLet

instance (head : String) : Decidable (IsExprHead head) := inferInstanceAs (Decidable (_ ∧ _ ∧ _))

/-- An operator is no word, so it begins an expression. -/
theorem Token.Spelt.isExprHead (h : t.Spelt) (hk : t.kind ∉ [TokenKind.identifier, .kwLet]) :
    IsExprHead t.value := by
  simp only [List.mem_cons, List.not_mem_nil, or_false, not_or] at hk
  refine ⟨h.ne_of_kind hk.1, h.ne_of_kind hk.1, ?_⟩
  rw [h.kindOf_eq]
  exact hk.2

namespace Expr.Printed

variable {e f : Expr} {head : String} {parts : List Sexpr}

/-- An expression that is a word is read back if the word is. -/
theorem of_word {w : String} (hs : e.sexpr = .atom w) (hw : IsWord w.toList)
    (he : Sexpr.exprOfWord w = e.shown) (hblock : e.isBlockLike = false) : e.Printed := by
  have hreading : e.sexpr.reading = .ofWord w := by rw [hs, Sexpr.reading_atom]
  refine ⟨hs ▸ .atom hw, ?_, ?_, ?_, ?_, fun h => absurd (hblock.symm.trans h) (by decide)⟩ <;>
    rw [hreading] <;> first | rfl | rw [← he]; rfl

/-- An expression that is a list is read back if the list is. -/
theorem of_headed (hs : e.sexpr = headed head parts) (hw : IsWord head.toList)
    (hhead : IsExprHead head) (hparts : ∀ s ∈ parts, s.Readable)
    (he : Sexpr.exprOf (.ofText head) (parts.map reading) = e.shown)
    (hblock : e.isBlockLike = true → Sexpr.isItem (.ofText head) (parts.map reading) = false ∧
      kindOf head ≠ .semicolon ∧ head ∉ Sexpr.typeHeads) : e.Printed := by
  obtain ⟨hchain, htail, hlet⟩ := hhead
  have hreading : e.sexpr.reading = .ofParts (.ofText head) (parts.map reading) := by
    rw [hs, Sexpr.reading_headed]
  refine ⟨hs ▸ .headed hw hparts, ?_, ?_, ?_, ?_, fun h => ?_⟩ <;> rw [hreading]
  · exact he
  · rw [← he]
    exact if_neg hchain
  · rw [← he]
    change Sexpr.linkOf _ _ = _
    unfold Sexpr.linkOf
    split
    · next hk _ => exact absurd hk hlet
    · rfl
  · exact if_neg htail
  · obtain ⟨hitem, hsemicolon, htype⟩ := hblock h
    refine ⟨?_, decide_eq_false htype⟩
    change Sexpr.stmtOf _ _ = _
    unfold Sexpr.stmtOf
    rw [if_neg (Bool.eq_false_iff.mp hitem), ← he]
    split
    · next hk => exact absurd hk hlet
    · next hk _ => exact absurd hk hsemicolon
    · rfl

/-! Words. -/

theorem literal (h : t.Spelt) (hk : t.kind.isLiteral = true) : (Expr.literal t).Printed := by
  obtain ⟨hparen, -⟩ := literalKinds_spec _ (TokenKind.mem_literalKinds hk)
  refine of_word rfl (h.isWord hparen) ?_ rfl
  rw [Sexpr.exprOfWord, h.kindOf_eq, h.ofText_eq]
  exact if_pos hk

theorem path (h : p.Spelt) : (Expr.path p).Printed := by
  have hkind := h.kindOf_text
  have hspec : ∀ k ∈ pathSegments, k.isLiteral = false ∧ k ≠ .underscore ∧ k ≠ .kwContinue := by decide
  obtain ⟨hliteral, hunderscore, hcontinue⟩ := hspec _ hkind
  refine of_word rfl h.isWord ?_ rfl
  rw [Sexpr.exprOfWord, h.ofText_eq]
  simp only [hliteral, hunderscore, hcontinue, Bool.false_eq_true, if_false]
  rfl

theorem underscore (h : t.Spelt) (hk : t.kind = .underscore) : (Expr.underscore t).Printed := by
  refine of_word rfl (isWord_of (by decide)) ?_ rfl
  rw [Expr.shown, ← h.ofText_eq, h.value_eq (w := "_") (by rw [hk]; rfl)]
  rfl

theorem continueLoop (h : t.Spelt) (hk : t.kind = .kwContinue) : (Expr.continueLoop t).Printed := by
  refine of_word rfl (isWord_of (by decide)) ?_ rfl
  rw [Expr.shown, ← h.ofText_eq, h.value_eq (w := "continue") (by rw [hk]; rfl)]
  rfl

/-! Operators. -/

theorem unary (h : t.Spelt) (hk : t.kind = .dash ∨ t.kind = .bang) (he : e.Printed) :
    (Expr.unary t e sp).Printed := by
  refine of_headed rfl (h.isWord ?_) (h.isExprHead ?_) (by simpa using he.readable) ?_ nofun
  · rcases hk with hk | hk <;> simp [hk]
  · rcases hk with hk | hk <;> simp [hk]
  · rw [Expr.shown, ← he.expr, h.ofText_eq]
    rcases hk with hk | hk <;> simp [Sexpr.exprOf, Sexpr.markedExprOf, TokenKind.tier?, hk]

theorem borrow {mutable : Bool} (he : e.Printed) : (Expr.borrow mutable e sp).Printed := by
  have hhead : IsExprHead (referenceMark mutable) := by cases mutable <;> decide
  refine of_headed rfl (isWord_referenceMark mutable) hhead (by simpa using he.readable) ?_ nofun
  rw [Expr.shown, ← he.expr]
  cases mutable <;> rfl

theorem deref (he : e.Printed) : (Expr.deref e sp).Printed := by
  refine of_headed rfl (isWord_of (by decide)) (by decide) (by simpa using he.readable) ?_ nofun
  rw [Expr.shown, ← he.expr]
  rfl

/-- The kinds of operators between two operands. -/
theorem tier_spec {k : TokenKind} {τ : Tier} (h : k.tier? = some τ) (hτ : τ ∉ [Tier.call]) :
    k ∉ [TokenKind.openParen, .closeParen] ∧ k ∉ [TokenKind.identifier, .kwLet] := by
  cases k <;> cases h <;> first | decide | exact absurd List.mem_cons_self hτ

theorem binary {τ : Tier} (h : t.Spelt) (hk : t.kind.tier? = some τ)
    (hτ : τ ∉ [Tier.assignment, .cast, .call, .member]) (he : e.Printed) (hf : f.Printed) :
    (Expr.binary t.kind.family t e f sp).Printed := by
  simp only [List.mem_cons, List.not_mem_nil, or_false, not_or] at hτ
  obtain ⟨hparen, hword⟩ := tier_spec hk (by simp [hτ])
  refine of_headed rfl (h.isWord hparen) (h.isExprHead hword)
    (by simpa using ⟨he.readable, hf.readable⟩) ?_ nofun
  rw [Expr.shown, ← he.expr, ← hf.expr, h.ofText_eq]
  unfold Sexpr.exprOf
  rw [Token.kind_bare, hk]
  cases τ with
  | assignment | cast | call | member => simp at hτ
  | _ => rfl

theorem cast {a : Ty} (he : e.Printed) (ha : a.Printed) : (Expr.cast e a sp).Printed := by
  refine of_headed rfl (isWord_of (by decide)) (by decide)
    (by simpa using ⟨he.readable, ha.readable⟩) ?_ nofun
  rw [Expr.shown, ← he.expr, ← ha.ty]
  rfl

theorem assign (he : e.Printed) (hf : f.Printed) : (Expr.assign e f sp).Printed := by
  refine of_headed rfl (isWord_of (by decide)) (by decide)
    (by simpa using ⟨he.readable, hf.readable⟩) ?_ nofun
  rw [Expr.shown, ← he.expr, ← hf.expr]
  rfl

theorem compoundAssign (h : t.Spelt) (hk : t.kind.tier? = some .assignment) (hne : t.kind ≠ .assignment)
    (he : e.Printed) (hf : f.Printed) : (Expr.compoundAssign t e f sp).Printed := by
  obtain ⟨hparen, hword⟩ := tier_spec hk (by decide)
  refine of_headed rfl (h.isWord hparen) (h.isExprHead hword)
    (by simpa using ⟨he.readable, hf.readable⟩) ?_ nofun
  rw [Expr.shown, ← he.expr, ← hf.expr, h.ofText_eq]
  unfold Sexpr.exprOf
  rw [Token.kind_bare, hk]
  exact if_neg hne

theorem field (he : e.Printed) (h : t.Spelt) (hk : t.kind = .integer ∨ t.kind = .identifier) :
    (Expr.field e t sp).Printed := by
  have ht : t.sexpr.Readable := .atom (h.isWord (by rcases hk with hk | hk <;> simp [hk]))
  refine of_headed rfl (isWord_of (by decide)) (by decide) (by simpa using ⟨he.readable, ht⟩) ?_ nofun
  rw [Expr.shown, ← he.expr, ← h.reading_sexpr]
  rfl

/-! Expressions with parts. -/

theorem grouped (he : e.Printed) : (Expr.grouped e sp).Printed := by
  refine of_headed rfl (isWord_of (by decide)) (by decide) (by simpa using he.readable) ?_ nofun
  rw [Expr.shown, ← he.expr]
  rfl

theorem arrayRepeat (he : e.Printed) (hf : f.Printed) : (Expr.arrayRepeat e f sp).Printed := by
  refine of_headed rfl (isWord_of (by decide)) (by decide)
    (by simpa using ⟨he.readable, hf.readable⟩) ?_ nofun
  rw [Expr.shown, ← he.expr, ← hf.expr]
  rfl

theorem index (he : e.Printed) (hf : f.Printed) : (Expr.index e f sp).Printed := by
  refine of_headed rfl (isWord_of (by decide)) (by decide)
    (by simpa using ⟨he.readable, hf.readable⟩) ?_ nofun
  rw [Expr.shown, ← he.expr, ← hf.expr]
  rfl

section

variable {es : List Expr} (hes : ∀ e ∈ es, e.Printed)
include hes

theorem readable_map : ∀ s ∈ es.map Expr.sexpr, s.Readable := by
  simpa using fun e he => (hes e he).readable

theorem expr_map : ((es.map Expr.sexpr).map reading).map Reading.expr = es.map Expr.shown :=
  Sexpr.map_reading fun e he => (hes e he).expr

theorem array : (Expr.array es sp).Printed := by
  refine of_headed (by rw [Expr.sexpr, exprSexprs_eq_map]) (isWord_of (by decide)) (by decide)
    (readable_map hes) ?_ nofun
  rw [Expr.shown, exprShowns_eq_map, ← expr_map hes]
  rfl

theorem call (he : e.Printed) : (Expr.call e es sp).Printed := by
  refine of_headed (by rw [Expr.sexpr, exprSexprs_eq_map]) (isWord_of (by decide)) (by decide)
    (List.forall_mem_cons.mpr ⟨he.readable, readable_map hes⟩) ?_ nofun
  rw [Expr.shown, exprShowns_eq_map, ← he.expr, ← expr_map hes]
  rfl

theorem methodCall (he : e.Printed) (h : t.Spelt) (hk : t.kind = .identifier) :
    (Expr.methodCall e t es sp).Printed := by
  have ht : t.sexpr.Readable := .atom (h.isWord (by simp [hk]))
  refine of_headed (by rw [Expr.sexpr, exprSexprs_eq_map]) (isWord_of (by decide)) (by decide)
    (List.forall_mem_cons.mpr ⟨he.readable, List.forall_mem_cons.mpr ⟨ht, readable_map hes⟩⟩) ?_ nofun
  rw [Expr.shown, exprShowns_eq_map, ← he.expr, ← expr_map hes, ← h.reading_sexpr]
  rfl

end

end Expr.Printed

end FrontEnd
