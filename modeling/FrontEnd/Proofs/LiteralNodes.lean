import FrontEnd.Proofs.Decoding
import FrontEnd.Proofs.DerivedNodes
import FrontEnd.Proofs.Partition
import FrontEnd.Proofs.TokensKept
/-!
# The literals of a program

A literal in the tree of a program is a token of its source, so its text has the shape of a lexeme
and its decoder finds nothing wrong with the shape.
-/
namespace FrontEnd

open Token (fixed)

/-- A node as tokens. -/
def Node.write : Node → List Token
  | path p => p.write
  | pattern p => p.write
  | ty t => t.write
  | expr e => e.write
  | field f => f.write
  | block b => b.write
  | condition c => c.write
  | link l => l.write
  | conditional c => c.write
  | otherwise o => o.write
  | arm a => a.write
  | statement s => s.write
  | typedName n => n.write
  | selfParam s => s.write
  | function f => f.write
  | constant c => c.write
  | member m => m.write
  | item i => i.write

section
variable {α : Type} {q : Label} {k : TokenKind} {f : α → List Token} {as : List α}

theorem mem_labels_flatten : q ∈ labels (as.map f).flatten ↔ ∃ a ∈ as, q ∈ labels (f a) := by
  induction as with
  | nil => simp
  | cons a as ih => simp [ih]

theorem mem_labels_eachAfter (h : ∃ a ∈ as, q ∈ labels (f a)) :
    q ∈ labels (Written.eachAfter k (as.map f)) := by
  obtain ⟨a, ha, hq⟩ := h
  simp only [Written.eachAfter, labels, List.mem_flatMap, List.mem_map] at hq ⊢
  obtain ⟨t, ht, hq⟩ := hq
  exact ⟨t, ⟨f a, ⟨a, ha, rfl⟩, List.mem_cons_of_mem _ ht⟩, hq⟩

theorem mem_labels_list (h : ∃ a ∈ as, q ∈ labels (f a)) :
    q ∈ labels (Written.list k (as.map f)) := by
  cases as with
  | nil => simp at h
  | cons a as =>
    obtain ⟨b, hb, hq⟩ := h
    simp only [List.map_cons, Written.list, Written.more, labels_append, List.mem_append]
    rcases List.mem_cons.mp hb with rfl | hb
    · exact .inl hq
    · exact .inr (.inl (mem_labels_eachAfter ⟨b, hb, hq⟩))

theorem mem_labels_after {a : α} {o : Option α} (ho : o = some a) (h : q ∈ labels (f a)) :
    q ∈ labels (Written.after k (o.map f)) := by
  subst ho
  simp [Written.after, h]

end

variable {resolve : Bool} {c : Node} {q : Label}

theorem Pattern.labels_children {p : Pattern} (hc : c ∈ p.children) (hq : q ∈ labels c.write) :
    q ∈ labels p.write := by
  cases p with
  | literal | wildcard => cases hc
  | identifier name byRef mutable sub sp =>
    obtain ⟨p, hp, rfl⟩ := List.mem_map.mp hc
    have hsub := mem_labels_after (k := .atSign) (Option.mem_toList.mp hp) hq
    simp [write, hsub]
  | reference mutable inner sp =>
    obtain rfl := List.mem_singleton.mp hc
    rw [Node.write] at hq
    simp [labels_reference_pattern, hq]
  | path p =>
    obtain rfl := List.mem_singleton.mp hc
    exact hq
  | tupleStruct p elements sp =>
    simp only [children, List.mem_cons, List.mem_map] at hc
    rcases hc with rfl | ⟨p, hp, rfl⟩
    · rw [Node.write] at hq
      simp [write, hq]
    · have hlist := mem_labels_list (k := .closeParen) ⟨p, hp, hq⟩
      simp [write, hlist]

theorem Ty.labels_children {t : Ty} (hc : c ∈ t.children) (hq : q ∈ labels c.write) :
    q ∈ labels t.write := by
  cases t with
  | never | inferred => cases hc
  | path | slice =>
    obtain rfl := List.mem_singleton.mp hc
    rw [Node.write] at hq
    simp [write, hq]
  | reference mutable target sp =>
    obtain rfl := List.mem_singleton.mp hc
    rw [Node.write] at hq
    simp [labels_reference_ty, hq]
  | array element length sp =>
    simp only [children, List.mem_cons, List.not_mem_nil, or_false] at hc
    rcases hc with rfl | rfl <;> rw [Node.write] at hq <;> simp [write, hq]
  | tuple elements sp =>
    obtain ⟨t, ht, rfl⟩ := List.mem_map.mp hc
    have hlist := mem_labels_list (k := .closeParen) ⟨t, ht, hq⟩
    simp [write, labels_tuple, hlist]

theorem Expr.labels_children {e : Expr} (hc : c ∈ e.children) (hq : q ∈ labels c.write) :
    q ∈ labels e.write := by
  cases e with
  | literal | continueLoop | underscore => cases hc
  | path | unary | deref | grouped | field | block | constBlock | loop | conditional =>
    obtain rfl := List.mem_singleton.mp hc
    rw [Node.write] at hq
    simp [write, hq]
  | borrow =>
    obtain rfl := List.mem_singleton.mp hc
    rw [Node.write] at hq
    simp [labels_borrow, hq]
  | binary | assign | compoundAssign | arrayRepeat | index | cast | whileLoop =>
    simp only [children, List.mem_cons, List.not_mem_nil, or_false] at hc
    rcases hc with rfl | rfl <;> rw [Node.write] at hq <;> simp [write, hq]
  | array elements sp =>
    obtain ⟨e, he, rfl⟩ := List.mem_map.mp hc
    have hlist := mem_labels_list (k := .closeBracket) ⟨e, he, hq⟩
    simp [write, hlist]
  | structLiteral p fields sp =>
    simp only [children, List.mem_cons, List.mem_map] at hc
    rcases hc with rfl | ⟨f, hf, rfl⟩
    · rw [Node.write] at hq
      simp [write, hq]
    · have hlist := mem_labels_list (k := .closeCurly) ⟨f, hf, hq⟩
      simp [write, hlist]
  | call | methodCall =>
    simp only [children, List.mem_cons, List.mem_map] at hc
    rcases hc with rfl | ⟨e, he, rfl⟩
    · rw [Node.write] at hq
      simp [write, hq]
    · have hlist := mem_labels_list (k := .closeParen) ⟨e, he, hq⟩
      simp [write, hlist]
  | breakLoop value sp | returnValue value sp =>
    obtain ⟨e, he, rfl⟩ := List.mem_map.mp hc
    obtain rfl := Option.mem_toList.mp he
    rw [Node.write] at hq
    simp [write, hq]
  | matching scrutinee arms sp =>
    simp only [children, List.mem_cons, List.mem_map] at hc
    rcases hc with rfl | ⟨a, ha, rfl⟩
    · rw [Node.write] at hq
      simp [write, hq]
    · have harms : q ∈ labels (arms.map fun a => a.write ++ [fixed .comma]).flatten :=
        mem_labels_flatten.mpr ⟨a, ha, by simpa using .inl hq⟩
      simp [write, harms]

theorem Stmt.labels_children {s : Stmt} (hc : c ∈ s.children) (hq : q ∈ labels c.write) :
    q ∈ labels s.write := by
  cases s with
  | empty => cases hc
  | item | expr =>
    obtain rfl := List.mem_singleton.mp hc
    rw [Node.write] at hq
    simp [write, hq]
  | letBinding pattern ty value sp =>
    simp only [children, List.mem_cons, List.mem_append, List.mem_map] at hc
    rcases hc with rfl | ⟨t, ht, rfl⟩ | ⟨e, he, rfl⟩
    · rw [Node.write] at hq
      simp [write, hq]
    · have hty := mem_labels_after (k := .colon) (Option.mem_toList.mp ht) hq
      simp [write, hty]
    · have hvalue := mem_labels_after (k := .assignment) (Option.mem_toList.mp he) hq
      simp [write, hvalue]

theorem Item.labels_children {i : Item} (hc : c ∈ i.children) (hq : q ∈ labels c.write) :
    q ∈ labels i.write := by
  cases i with
  | unitStruct | enum => cases hc
  | function | constant =>
    obtain rfl := List.mem_singleton.mp hc
    exact hq
  | struct name fields sp =>
    obtain ⟨f, hf, rfl⟩ := List.mem_map.mp hc
    have hlist := mem_labels_list (k := .closeCurly) ⟨f, hf, hq⟩
    simp [write, hlist]
  | trait name members sp =>
    obtain ⟨m, hm, rfl⟩ := List.mem_map.mp hc
    have hmembers := mem_labels_flatten.mpr ⟨m, hm, hq⟩
    simp [write, hmembers]
  | impl traitName target members sp =>
    simp only [children, List.mem_cons, List.mem_map] at hc
    rcases hc with rfl | ⟨m, hm, rfl⟩
    · rw [Node.write] at hq
      cases traitName <;> simp [write, hq]
    · have hmembers := mem_labels_flatten.mpr ⟨m, hm, hq⟩
      cases traitName <;> simp [write, hmembers]

/-- The labels of a child are labels of its parent. Only the value of a shorthand field is not
written, and that is the path of its name. -/
theorem Node.labels_children {n : Node} (hn : n.Derived resolve) (hc : c ∈ n.children)
    (hq : q ∈ labels c.write) : q ∈ labels n.write := by
  cases n with
  | path p => cases hc
  | pattern p => exact Pattern.labels_children hc hq
  | ty t => exact Ty.labels_children hc hq
  | expr e => exact Expr.labels_children hc hq
  | field f =>
    obtain rfl := List.mem_singleton.mp hc
    simp only [write] at hq ⊢
    obtain ⟨ℓ, b, x, y, h⟩ := hn
    cases h with
    | fieldLong h hc he => simp [FieldValue.write, hq]
    | fieldShort h hi => simpa [FieldValue.write, Expr.write, Path.write, Path.ofToken,
        Written.eachAfter] using hq
  | block b =>
    obtain ⟨statements, tail, sp⟩ := b
    simp only [children, List.mem_append, List.mem_map] at hc
    rcases hc with ⟨s, hs, rfl⟩ | ⟨e, he, rfl⟩
    · have hstatements := mem_labels_flatten.mpr ⟨s, hs, hq⟩
      simp [write, Block.write, hstatements]
    · obtain rfl := Option.mem_toList.mp he
      rw [write] at hq
      simp [write, Block.write, hq]
  | condition c =>
    cases c with
    | expr e =>
      obtain rfl := List.mem_singleton.mp hc
      exact hq
    | letChain links =>
      obtain ⟨l, hl, rfl⟩ := List.mem_map.mp hc
      cases links with
      | nil => cases hl
      | cons first links =>
        rcases List.mem_cons.mp hl with rfl | hl
        · rw [write] at hq
          simp [write, Condition.write, hq]
        · have hlinks := mem_labels_eachAfter (k := .andAnd) ⟨l, hl, hq⟩
          simp [write, Condition.write, hlinks]
  | link l =>
    obtain ⟨pattern, value, sp⟩ := l
    cases pattern with
    | none =>
      obtain rfl := List.mem_singleton.mp hc
      exact hq
    | some p =>
      simp only [children, Option.toList_some, List.map_cons, List.map_nil, List.cons_append,
        List.nil_append, List.mem_cons, List.not_mem_nil, or_false] at hc
      rcases hc with rfl | rfl <;> rw [write] at hq <;> simp [write, Link.write, hq]
  | conditional c =>
    obtain ⟨condition, body, otherwise, sp⟩ := c
    simp only [children, List.mem_cons, List.not_mem_nil, or_false] at hc
    rcases hc with rfl | rfl | rfl <;> rw [write] at hq <;> simp [write, Conditional.write, hq]
  | otherwise o =>
    cases o with
    | nothing => cases hc
    | conditional | block =>
      obtain rfl := List.mem_singleton.mp hc
      rw [write] at hq
      simp [write, Otherwise.write, hq]
  | arm a =>
    obtain ⟨pattern, guard, body, sp⟩ := a
    simp only [children, List.mem_cons, List.mem_append, List.mem_map, List.not_mem_nil,
      or_false] at hc
    rcases hc with rfl | ⟨e, he, rfl⟩ | rfl
    · rw [write] at hq
      simp [write, Arm.write, hq]
    · have hguard := mem_labels_after (k := .kwIf) (Option.mem_toList.mp he) hq
      simp [write, Arm.write, hguard]
    · rw [write] at hq
      simp [write, Arm.write, hq]
  | statement s => exact Stmt.labels_children hc hq
  | typedName t =>
    obtain ⟨name, ty, sp⟩ := t
    obtain rfl := List.mem_singleton.mp hc
    rw [write] at hq
    simp [write, TypedName.write, hq]
  | selfParam s =>
    obtain ⟨byRef, mutable, ty, sp⟩ := s
    obtain ⟨t, ht, rfl⟩ := List.mem_map.mp hc
    have hty := mem_labels_after (k := .colon) (Option.mem_toList.mp ht) hq
    simp [write, SelfParam.write, hty]
  | function f =>
    obtain ⟨isConst, name, selfParam, params, result, body, sp⟩ := f
    simp only [children, List.mem_append, List.mem_map] at hc
    have hparams (ts : List Token) (hts : ts ∈ selfWrites selfParam ++ params.map TypedName.write)
        (hq : q ∈ labels ts) :
        q ∈ labels (Written.list .closeParen (selfWrites selfParam ++ params.map TypedName.write)) := by
      have hlist := mem_labels_list (k := .closeParen) (f := id) ⟨ts, hts, hq⟩
      rwa [List.map_id] at hlist
    rcases hc with (⟨s, hs, rfl⟩ | ⟨p, hp, rfl⟩) | ⟨t, ht, rfl⟩ | ⟨b, hb, rfl⟩
    · obtain rfl := Option.mem_toList.mp hs
      have hlist := hparams s.write (by simp [selfWrites]) hq
      simp [write, FunctionDecl.write, hlist]
    · have hlist := hparams p.write (List.mem_append_right _ (List.mem_map_of_mem hp)) hq
      simp [write, FunctionDecl.write, hlist]
    · have hresult := mem_labels_after (k := .arrow) (Option.mem_toList.mp ht) hq
      simp [write, FunctionDecl.write, hresult]
    · obtain rfl := Option.mem_toList.mp hb
      rw [write] at hq
      simp [write, FunctionDecl.write, hq]
  | constant k =>
    obtain ⟨name, ty, value, sp⟩ := k
    simp only [children, List.mem_cons, List.mem_map] at hc
    rcases hc with rfl | ⟨e, he, rfl⟩
    · rw [write] at hq
      simp [write, ConstantDecl.write, hq]
    · have hvalue := mem_labels_after (k := .assignment) (Option.mem_toList.mp he) hq
      simp [write, ConstantDecl.write, hvalue]
  | member m =>
    cases m <;> obtain rfl := List.mem_singleton.mp hc <;> exact hq
  | item i => exact Item.labels_children hc hq

theorem Node.labels_within {m n : Node} (hn : n.AllDerived resolve) (hm : m.Within n)
    (hq : q ∈ labels m.write) : q ∈ labels n.write := by
  induction hm with
  | self => exact hq
  | inChild hc hm ih =>
    obtain ⟨hderived, hchildren⟩ := everywhere_iff.mp hn
    exact labels_children hderived hc (ih (hchildren _ hc))

/-- The token of a literal, of an expression or of a pattern. -/
def Node.literal? : Node → Option Token
  | .expr (.literal t) => some t
  | .pattern (.literal t _ _) => some t
  | _ => none

theorem Expr.Chain.isLiteral {ℓ : Nat} {b : Bool} {x y : Place} {t : Token}
    (h : (Expr.literal t).Chain resolve ℓ b x y) : t.kind.isLiteral = true := by
  generalize he : Expr.literal t = e at h
  cases h with
  | term h =>
    subst he
    cases h with
    | termLiteral h => exact h
  | @attach _ s _ _ _ hs => cases s <;> cases he

/-- A literal is a token of its own kind, and written as it is. -/
theorem Node.literal?_spec {n : Node} {t : Token} (hn : n.Derived resolve) (h : n.literal? = some t) :
    t.kind.isLiteral = true ∧ (t.kind, some t.value) ∈ labels n.write := by
  have hlabel (hkind : t.kind.isLiteral = true) : (t.kind, some t.value) ∈ t.labels := by
    unfold Token.labels
    split <;> simp_all [TokenKind.isLiteral]
  unfold literal? at h
  split at h
  · next u =>
    obtain rfl : u = t := Option.some.inj h
    obtain ⟨ℓ, b, x, y, hchain⟩ := hn
    exact ⟨hchain.isLiteral, by simpa [write, Expr.write] using hlabel hchain.isLiteral⟩
  · next u negated sp =>
    obtain rfl : u = t := Option.some.inj h
    obtain ⟨ℓ, b, x, y, hpattern⟩ := hn
    have hkind : u.kind.isLiteral = true := by
      cases hpattern with
      | patLiteral h => exact h
      | patNegated h hl => simp [hl, TokenKind.isLiteral]
    exact ⟨hkind, by simp [write, Pattern.write, hlabel hkind]⟩
  · cases h

theorem exists_token_of_label {tokens : List Token} {k : TokenKind} {s : String}
    (hk : k.isLiteral = true) (h : (k, some s) ∈ labels tokens) :
    ∃ u ∈ tokens, u.kind = k ∧ u.value = s := by
  obtain ⟨u, hu, hlabel⟩ := List.mem_flatMap.mp h
  refine ⟨u, hu, ?_⟩
  unfold Token.labels at hlabel
  split at hlabel
  · cases hlabel
  · cases hlabel
  · cases hlabel
  · simp at hlabel
  · simp only [List.mem_singleton, Prod.mk.injEq] at hlabel
    obtain ⟨rfl, hvalue⟩ := hlabel
    rw [if_pos (.inr hk)] at hvalue
    exact ⟨rfl, (Option.some.inj hvalue).symm⟩

open Literal (IntegerError withoutSuffix)

/-- The literal token stands in the source and its decoder agrees with the scanner: a character or a
string has its value or a wrong escape sequence, a truth value has its value, and of an integer the
decoder cuts the type suffix that the scanner took, and finds no other fault than in digits. -/
def Token.DecodesIn (source : String) (t : Token) : Prop :=
  match t.kind with
  | .char | .string => ∀ e, t.literalValue = .error e → ∃ sequence, e = .invalidEscape sequence
  | .kwTrue | .kwFalse => ∃ b, t.literalValue = .ok (.bool b)
  | .integer => ∃ before digits suffix after,
    source.toList = before ++ (digits ++ suffix ++ after) ∧ t.value.toList = digits ++ suffix ∧
    Lexeme.Digits digits (suffix ++ after) ∧ Lexeme.TypeSuffix suffix after ∧
    withoutSuffix t.value.toList = digits ∧
    ∀ e, t.literalValue = .error e → IntegerError digits e
  | _ => False

theorem Token.literalValue_error {α : Type} {f : α → LiteralValue} {r : Except DecodeError α}
    {e : DecodeError} (h : f <$> r = .error e) : r = .error e := by
  cases r with
  | ok v => cases h
  | error e' =>
    cases h
    rfl

theorem Token.decodesIn {source file : String} {tokens : List Token} {t : Token}
    (h : scan source file = .ok tokens) (ht : t ∈ tokens) (hkind : t.kind.isLiteral = true) :
    t.DecodesIn source := by
  have hne : t.kind ≠ .eof := by
    intro heof
    simp [heof, TokenKind.isLiteral] at hkind
  obtain ⟨l, before, after, hsource, hl, hcandidate, hk⟩ := exists_lexeme_of_scan h ht hne
  have hunspelt := Lexeme.kind?_unspelt hl hk
  obtain ⟨kind, value, span⟩ := t
  simp only [TokenKind.isLiteral, List.mem_cons, List.not_mem_nil, or_false, decide_eq_true_eq]
    at hkind
  rcases hkind with rfl | rfl | rfl | rfl | rfl
  · obtain rfl : l = .integer := by simpa using hunspelt
    obtain ⟨digits, suffix, hvalue, hdigits, hsuffix⟩ := hcandidate
    simp only at hvalue hsource
    refine ⟨before, digits, suffix, after, hvalue ▸ hsource, hvalue, hdigits, hsuffix, ?_, ?_⟩
    · rw [hvalue]
      exact Literal.withoutSuffix_eq hdigits hsuffix
    · intro e he
      refine Literal.decodeInteger_error hdigits hsuffix ?_
      rw [← hvalue, String.ofList_toList]
      exact literalValue_error he
  · obtain rfl : l = .char := by simpa using hunspelt
    intro e he
    have herror : Literal.decodeChar (String.ofList value.toList) = .error e := by
      rw [String.ofList_toList]
      exact literalValue_error he
    rcases Literal.decodeChar_outcome hcandidate with ⟨v, hv⟩ | ⟨sequence, hsequence⟩
    · cases hv.symm.trans herror
    · exact ⟨sequence, Except.error.inj (herror.symm.trans hsequence)⟩
  · obtain rfl : l = .string := by simpa using hunspelt
    obtain ⟨body, hbody, -⟩ := hcandidate
    intro e he
    have herror : Literal.decodeString (String.ofList ('"' :: body ++ ['"'])) = .error e := by
      rw [← hbody, String.ofList_toList]
      exact literalValue_error he
    rcases Literal.decodeString_outcome body with ⟨v, hv⟩ | ⟨sequence, hsequence⟩
    · cases hv.symm.trans herror
    · exact ⟨sequence, Except.error.inj (herror.symm.trans hsequence)⟩
  · exact ⟨true, rfl⟩
  · exact ⟨false, rfl⟩

theorem Token.DecodesIn.congr {source : String} {t u : Token} (hkind : u.kind = t.kind)
    (hvalue : u.value = t.value) (h : u.DecodesIn source) : t.DecodesIn source := by
  obtain ⟨kind, value, span⟩ := t
  obtain ⟨kind', value', span'⟩ := u
  simp only at hkind hvalue
  subst hkind hvalue
  exact h

theorem parse_of_parseSource {source file : String} {c : Crate} (h : parseSource source file = .ok c) :
    ∃ tokens t, Token.scan source file = .ok tokens ∧ parse tokens file = .ok c t := by
  rw [parseSource] at h
  cases hscan : Token.scan source file with
  | error e =>
    rw [hscan] at h
    cases h
  | ok tokens =>
    rw [hscan] at h
    simp only [bind, Except.bind] at h
    cases hparse : parse tokens file with
    | error e t =>
      rw [hparse] at h
      cases h
    | ok c' t =>
      rw [hparse] at h
      obtain rfl : c' = c := Except.ok.inj h
      exact ⟨tokens, t, rfl, hparse⟩

/-- Scanner and decoders agree on every literal of a program that is read. -/
theorem parseSource_literals {source file : String} {c : Crate} (h : parseSource source file = .ok c)
    {i : Item} (hi : i ∈ c.items) {n : Node} (hn : n.Within (.item i)) {t : Token}
    (ht : n.literal? = some t) : t.DecodesIn source := by
  obtain ⟨tokens, s, hscan, hparse⟩ := parse_of_parseSource h
  obtain ⟨hderives, hend⟩ := parse_sound hparse
  have hitem : (Node.item i).AllDerived true :=
    hderives.nodes_derived (.item i) (List.mem_map_of_mem hi)
  obtain ⟨hkind, hlabel⟩ := Node.literal?_spec (hitem n hn) ht
  have hwritten : (t.kind, some t.value) ∈ labels c.write :=
    mem_labels_flatten.mpr ⟨i, hi, Node.labels_within hitem hn hlabel⟩
  rw [← tokens_kept.1 tokens file _ c s hparse] at hwritten
  obtain ⟨u, hu, hukind, huvalue⟩ := exists_token_of_label hkind hwritten
  have hu : u ∈ tokens := (List.takeWhile_sublist _).subset hu
  exact (Token.decodesIn hscan hu (hukind ▸ hkind)).congr hukind huvalue

def Crate.constantLiteral? : Crate → Option Token
  | ⟨[.constant ⟨_, _, some (.literal t), _⟩], _⟩ => some t
  | _ => none

/-- The integer in a constant. -/
theorem parseSource_literals_constant :
    let source := "const A: u8 = 0b1_2u8;"
    ∃ c t, parseSource source "t" = .ok c ∧
      (∃ i ∈ c.items, (Node.expr (.literal t)).Within (.item i)) ∧ t.DecodesIn source := by
  intro source
  have hok : ((parseSource source "t").toOption.bind Crate.constantLiteral?).isSome = true := by
    decide +kernel
  obtain ⟨t, ht⟩ := Option.isSome_iff_exists.mp hok
  obtain ⟨c, hc, ht⟩ := Option.bind_eq_some_iff.mp ht
  have h : parseSource source "t" = .ok c := by
    cases h : parseSource source "t" with
    | error e => simp [h, Except.toOption] at hc
    | ok c' => simpa [h, Except.toOption] using hc
  unfold Crate.constantLiteral? at ht
  split at ht
  · next name ty t' sp sp' =>
    obtain rfl := Option.some.inj ht
    have hitem : (Node.expr (.literal t')).Within
        (.item (.constant ⟨name, ty, some (.literal t'), sp⟩)) :=
      .inChild (c := .constant ⟨name, ty, some (.literal t'), sp⟩) (by simp [Node.children, Item.children])
        (.inChild (c := .expr (.literal t')) (by simp [Node.children]) (.self _))
    exact ⟨_, t', h, ⟨_, by simp, hitem⟩, parseSource_literals h (by simp) hitem rfl⟩
  · cases ht

end FrontEnd
