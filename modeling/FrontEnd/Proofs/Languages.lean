import FrontEnd.Proofs.Completeness
import FrontEnd.Proofs.TokensKept
import FrontEnd.Proofs.Writing
/-!
# The languages of patterns and types

A writing is read (`Writing.derives`), and what is read is a writing (`Derives.writing`). While names
are not resolved, that settles which patterns and which types can be read: the condition on the
tokens around a tree shrinks to the kind of the token after it.
-/
namespace FrontEnd

open Grammar (pathSegments typeStarts)

variable {σ : Form} {t : σ.Tree} {ts : List Token} {ℓ : Nat} {b : Bool} {x y : Place}

/-- The kinds of tokens that may follow a tree: others would be taken for a part of it. -/
def Form.Ends : (σ : Form) → σ.Tree → TokenKind → Prop
  | flag k, set, k' => set = false → k' ≠ k
  | after k _, none, k' => k' ≠ k
  | after _ form, some t, k' => form.Ends t k'
  | eachAfter k _, _, k' => k' ≠ k
  | path, _, k' | ty, _, k' => k' ≠ .pathSep
  | pattern, _, k' => k' ∉ [TokenKind.pathSep, .openParen, .atSign]
  | _, _, _ => True

/-- With levels enough, and before a token that may follow, a tree is derived from some tokens. -/
def Form.DerivedFrom (σ : Form) (t : σ.Tree) (ts : List Token) (levels : Nat) : Prop :=
  ∀ ℓ b n o, levels ≤ ℓ → σ.Ends t (kindAt o 0) → Derives false σ ℓ b ⟨ts ++ o, n⟩ t ⟨o, n⟩

namespace Form.DerivedFrom

variable {σ' : Form} {t' : σ'.Tree} {ts' : List Token} {m m' : Nat}

theorem mono (h : σ.DerivedFrom t ts m) (hm : m ≤ m') : σ.DerivedFrom t ts m' :=
  fun ℓ b n o hℓ => h ℓ b n o (Nat.le_trans hm hℓ)

/-- Levels enough for two trees. -/
theorem exists_both (h : ∃ m, σ.DerivedFrom t ts m) (h' : ∃ m, σ'.DerivedFrom t' ts' m) :
    ∃ m, σ.DerivedFrom t ts m ∧ σ'.DerivedFrom t' ts' m := by
  obtain ⟨m, h⟩ := h
  obtain ⟨m', h'⟩ := h'
  exact ⟨max m m', h.mono (Nat.le_max_left m m'), h'.mono (Nat.le_max_right m m')⟩

/-- A tree that takes a level. -/
theorem deeper (h : ∀ ℓ b n o, m ≤ ℓ → σ.Ends t (kindAt o 0) →
    Derives false σ (ℓ + 1) b ⟨ts ++ o, n⟩ t ⟨o, n⟩) : σ.DerivedFrom t ts (m + 1) := by
  intro ℓ b n o hℓ ho
  obtain ⟨ℓ, rfl, hm⟩ := exists_rounds hℓ
  exact h ℓ b n o hm ho

end Form.DerivedFrom

theorem Writing.kind_more {br : Bracket} {as : List σ.Tree} (h : Writing (.more br σ) as ts)
    (o : List Token) : kindAt (ts ++ o) 0 = kindAt ts 0 ∧
      (kindAt ts 0 = .comma ∨ kindAt ts 0 = br.closing) := by
  cases h with
  | moreNil h => exact ⟨rfl, .inr h⟩
  | moreComma ht h => exact ⟨rfl, .inl ht⟩
  | moreCons hl ht ha has => exact ⟨rfl, .inl ht⟩

theorem Form.ends_of_closes {br : Bracket} {k : TokenKind} (hσ : σ = .ty ∨ σ = .pattern)
    (h : k = .comma ∨ k = br.closing) : σ.Ends t k := by
  obtain rfl | rfl := hσ <;> obtain rfl | rfl := h <;> cases br <;>
    simp [Form.Ends, Bracket.closing]

theorem Derives.kind_ne_closing {resolve : Bool} {br : Bracket} (hσ : σ = .ty ∨ σ = .pattern)
    (h : Derives resolve σ ℓ b x t y) : x.kind ≠ br.closing := by
  obtain rfl | rfl := hσ
  · exact ne_of_mem_of_not_mem h.starts (by cases br <;> decide)
  · exact ne_of_mem_of_not_mem h.starts (by cases br <;> decide)

theorem Derives.ty_kind_ne_mut {resolve : Bool} {a : Ty} (h : Derives resolve .ty ℓ b x a y) :
    x.kind ≠ .kwMut :=
  ne_of_mem_of_not_mem h.starts (by decide : TokenKind.kwMut ∉ typeStarts)

/-- Only a binding begins with `mut`. -/
theorem Derives.kind_eq_mut_iff {resolve : Bool} {p : Pattern}
    (h : Derives resolve .pattern ℓ b x p y) : x.kind = .kwMut ↔ p.beginsWithMut = true := by
  cases h with
  | patBinding hx hr hm ht hs =>
    cases hr with
    | flagSet hk h => simp [Pattern.beginsWithMut, h]
    | flagUnset hk h =>
      cases hm with
      | flagSet hk' h' => simp [Pattern.beginsWithMut, h']
      | flagUnset hk' h' => simpa [Pattern.beginsWithMut] using h'
  | patPath hx hp hy =>
    have hx := ne_of_mem_of_not_mem hp.starts (by decide : TokenKind.kwMut ∉ pathSegments)
    simpa [Pattern.beginsWithMut] using hx
  | patTuple hx hp ht hps =>
    have hx := ne_of_mem_of_not_mem hp.starts (by decide : TokenKind.kwMut ∉ pathSegments)
    simpa [Pattern.beginsWithMut] using hx
  | patLiteral h =>
    have ht := ne_of_mem_of_not_mem (TokenKind.mem_of_isLiteral h fun _ h => h)
      (by decide : TokenKind.kwMut ∉ [TokenKind.integer, .char, .string, .kwTrue, .kwFalse])
    simpa [Pattern.beginsWithMut] using ht
  | patNegated h hl => simp [Pattern.beginsWithMut, h]
  | patWildcard h => simp [Pattern.beginsWithMut, h]
  | patReference h hm hp => simp [Pattern.beginsWithMut, h]
  | patReferences h hm hp => simp [Pattern.beginsWithMut, h]

theorem Derives.pattern_kind_ne_mut {resolve : Bool} {p : Pattern}
    (h : Derives resolve .pattern ℓ b x p y) (hp : p.beginsWithMut = false) : x.kind ≠ .kwMut := by
  rw [Ne, h.kind_eq_mut_iff, hp]
  exact Bool.false_ne_true

theorem Derives.literalLength {resolve : Bool} {l c : Token} {n : Names} {o : List Token}
    (hl : l.kind.isLiteral) (hc : c.kind = .closeBracket) :
    Derives resolve (.expr .lowest) (ℓ + 1) b ⟨l :: c :: o, n⟩ (.literal l) ⟨c :: o, n⟩ := by
  have hnone : Derives resolve (.suffixes .lowest) ℓ b ⟨c :: o, n⟩ [] ⟨c :: o, n⟩ :=
    .suffixesNil (by simp [hc, TokenKind.tier?])
  exact .expr (.termLiteral hl) hnone

theorem Writing.startsType {p : Path} (h : Writing .path p ts) (hp : (Ty.path p).WellFormed)
    (o : List Token) (n : Names) :
    let x : Place := ⟨ts ++ o, n⟩
    x.kind = .identifier ∨ x.kind = .kwSelfType := by
  cases h with
  | path h hts =>
    simp only [pathSegments, List.mem_cons, List.not_mem_nil, or_false] at h
    exact h.imp_right (Or.resolve_left · (hp _ rfl))

theorem Writing.startsBinding {us vs o : List Token} {byRef mutable : Bool} {name : Token}
    {sub : Option Pattern} {n : Names} (hr : Writing (.flag .kwRef) byRef us)
    (hm : Writing (.flag .kwMut) mutable vs) (ht : name.kind = .identifier)
    (hs : Writing (.after .atSign .pattern) sub ts)
    (ho : kindAt o 0 ∉ [TokenKind.pathSep, .openParen, .atSign]) :
    Place.StartsBinding false ⟨us ++ (vs ++ name :: (ts ++ o)), n⟩ := by
  cases hr with
  | flagSet hk h => exact .inl h
  | flagUnset hk =>
    cases hm with
    | flagSet hk h => exact .inr (.inl h)
    | flagUnset hk =>
      refine .inr (.inr ⟨ht, ?_⟩)
      cases hs with
      | afterNothing hk =>
        simp only [List.mem_cons, List.not_mem_nil, or_false, not_or] at ho
        exact .inr ⟨ho.1, ho.2.1, by simp [Place.NamesConstant]⟩
      | afterSome hk h hp => exact .inl h

theorem Writing.startsPath {o : List Token} {p : Path} {n : Names} (h : Writing .path p ts)
    (hnext : p.Qualified ∨ kindAt o 0 = .openParen) : Place.StartsPath false ⟨ts ++ o, n⟩ := by
  cases h with
  | @path us sp t ts h hts =>
    by_cases ht : t.kind = .identifier
    · refine .inr (.inr ⟨ht, ?_⟩)
      cases hts with
      | eachCons hk h ha has => exact .inl h
      | eachNil hk =>
        obtain hq | ho := hnext
        · exact absurd ht (hq t rfl)
        · exact .inr (.inl ho)
    · simp only [pathSegments, List.mem_cons, List.not_mem_nil, or_false] at h
      exact (h.resolve_left ht).imp_right .inl

/-- Every writing is derived, with levels enough. -/
theorem Writing.derives (h : Writing σ t ts) : ∃ levels, σ.DerivedFrom t ts levels := by
  induction h with
  -- tokens and lists
  | segment h => exact ⟨0, fun ℓ b n o hℓ ho => .segment h⟩
  | flagSet hk h => exact ⟨0, fun ℓ b n o hℓ ho => .flagSet hk h⟩
  | flagUnset hk => exact ⟨0, fun ℓ b n o hℓ ho => .flagUnset hk (ho rfl)⟩
  | afterNothing hk => exact ⟨0, fun ℓ b n o hℓ ho => .afterNothing hk ho⟩
  | afterSome hk h ha ih =>
    obtain ⟨m, ih⟩ := ih
    exact ⟨m, fun ℓ b n o hℓ ho => .afterSome hk h (ih ℓ b n o hℓ ho)⟩
  | eachNil hk => exact ⟨0, fun ℓ b n o hℓ ho => .eachNil hk ho⟩
  | @eachCons ts us k form a as t hk h ha has iha ihas =>
    obtain ⟨m, iha, ihas⟩ := Form.DerivedFrom.exists_both iha ihas
    refine ⟨m, fun ℓ b n o hℓ ho => ?_⟩
    rw [List.cons_append, List.append_assoc]
    refine .eachCons hk h (iha ℓ b n _ hℓ ?_)
      (ihas ℓ b n o hℓ ho)
    obtain ⟨rfl, rfl⟩ | ⟨rfl, rfl⟩ := hk <;> trivial
  | listNil h => exact ⟨0, fun ℓ b n o hℓ ho => .listNil h⟩
  | @listCons ts us br form a as hl ha has iha ihas =>
    obtain ⟨m, iha, ihas⟩ := Form.DerivedFrom.exists_both iha ihas
    refine ⟨m, fun ℓ b n o hℓ ho => ?_⟩
    rw [List.append_assoc]
    have hk := has.kind_more o
    have ha := iha ℓ b n (us ++ o) hℓ (Form.ends_of_closes hl (hk.1 ▸ hk.2))
    exact .listCons (by obtain rfl | rfl := hl <;> trivial) (ha.kind_ne_closing hl) ha
      (ihas ℓ b n o hℓ trivial)
  | moreNil h => exact ⟨0, fun ℓ b n o hℓ ho => .moreNil h⟩
  | moreComma ht h => exact ⟨0, fun ℓ b n o hℓ ho => .moreComma ht h⟩
  | @moreCons ts us br form a as t hl ht ha has iha ihas =>
    obtain ⟨m, iha, ihas⟩ := Form.DerivedFrom.exists_both iha ihas
    refine ⟨m, fun ℓ b n o hℓ ho => ?_⟩
    rw [List.cons_append, List.append_assoc]
    have hk := has.kind_more o
    have ha := iha ℓ b n (us ++ o) hℓ (Form.ends_of_closes hl (hk.1 ▸ hk.2))
    exact .moreCons (by obtain rfl | rfl := hl <;> trivial) ht (ha.kind_ne_closing hl) ha
      (ihas ℓ b n o hℓ trivial)
  | path h hts ih =>
    obtain ⟨m, ih⟩ := ih
    exact ⟨m, fun ℓ b n o hℓ ho => .path h (ih ℓ b n o hℓ ho)⟩
  -- types
  | tyPath h hp ih =>
    obtain ⟨m, ih⟩ := ih
    refine ⟨m + 1, .deeper fun ℓ b n o hℓ ho => ?_⟩
    exact .tyPath (hp.startsType h o n) (ih ℓ b n o hℓ ho)
  | @tyReference us ts sp t mutable a h hm ha ihm iha =>
    obtain ⟨m, iha, ihm⟩ := Form.DerivedFrom.exists_both iha ihm
    refine ⟨m + 1, .deeper fun ℓ b n o hℓ ho => ?_⟩
    have ha := iha ℓ b n o hℓ ho
    rw [List.cons_append, List.append_assoc]
    exact .tyReference h (ihm ℓ b n _ hℓ fun _ => ha.ty_kind_ne_mut) ha
  | tyReferences h hm ha ihm iha =>
    obtain ⟨m, iha, ihm⟩ := Form.DerivedFrom.exists_both iha ihm
    refine ⟨m + 1, .deeper fun ℓ b n o hℓ ho => ?_⟩
    have ha := iha ℓ b n o hℓ ho
    rw [List.cons_append, List.append_assoc]
    exact .tyReferences h (ihm ℓ b n _ hℓ fun _ => ha.ty_kind_ne_mut) ha
  | tySlice h ha hc ih =>
    obtain ⟨m, ih⟩ := ih
    refine ⟨m + 1, .deeper fun ℓ b n o hℓ ho => ?_⟩
    rw [List.cons_append, List.append_assoc]
    exact .tySlice h (ih ℓ b n _ hℓ (by simp [Form.Ends, hc])) hc
  | tyArray h ha hs hl hc ih =>
    obtain ⟨m, ih⟩ := ih
    refine ⟨m + 1 + 1, .deeper fun ℓ b n o hℓ ho => ?_⟩
    obtain ⟨ℓ, rfl, hm⟩ := exists_rounds hℓ
    rw [List.cons_append, List.append_assoc]
    exact .tyArray h (ih _ b n _ (Nat.le_succ_of_le hm) (by simp [Form.Ends, hs])) hs
      (.literalLength hl hc) hc
  | tyUnit h hc =>
    exact ⟨1, .deeper fun ℓ b n o hℓ ho => .tyUnit h hc⟩
  | tyParen h ha hc ih =>
    obtain ⟨m, ih⟩ := ih
    refine ⟨m + 1, .deeper fun ℓ b n o hℓ ho => ?_⟩
    rw [List.cons_append, List.append_assoc]
    exact .tyParen h (ih ℓ b n _ hℓ (by simp [Form.Ends, hc])) hc
  | tyTuple h ha has hus iha ihas =>
    obtain ⟨m, iha, ihas⟩ := Form.DerivedFrom.exists_both iha ihas
    refine ⟨m + 1, .deeper fun ℓ b n o hℓ ho => ?_⟩
    have hcomma := (has.kind_more o).1.trans hus
    rw [List.cons_append, List.append_assoc]
    exact .tyTuple h (iha ℓ b n _ hℓ (by simp [Form.Ends, hcomma]))
      (by simp [hcomma]) (ihas ℓ b n o hℓ trivial)
  | tyNever h =>
    exact ⟨1, .deeper fun ℓ b n o hℓ ho => .tyNever h⟩
  | tyInferred h =>
    exact ⟨1, .deeper fun ℓ b n o hℓ ho => .tyInferred h⟩
  -- patterns
  | patLiteral h =>
    exact ⟨1, .deeper fun ℓ b n o hℓ ho => .patLiteral h⟩
  | patNegated h hl =>
    exact ⟨1, .deeper fun ℓ b n o hℓ ho => .patNegated h hl⟩
  | patWildcard h =>
    exact ⟨1, .deeper fun ℓ b n o hℓ ho => .patWildcard h⟩
  | patReference h hm hp hmut ihm ihp =>
    obtain ⟨m, ihp, ihm⟩ := Form.DerivedFrom.exists_both ihp ihm
    refine ⟨m + 1, .deeper fun ℓ b n o hℓ ho => ?_⟩
    have hp := ihp ℓ b n o hℓ ho
    rw [List.cons_append, List.append_assoc]
    exact .patReference h (ihm ℓ b n _ hℓ (hp.pattern_kind_ne_mut ∘ hmut)) hp
  | patReferences h hm hp hmut ihm ihp =>
    obtain ⟨m, ihp, ihm⟩ := Form.DerivedFrom.exists_both ihp ihm
    refine ⟨m + 1, .deeper fun ℓ b n o hℓ ho => ?_⟩
    have hp := ihp ℓ b n o hℓ ho
    rw [List.cons_append, List.append_assoc]
    exact .patReferences h (ihm ℓ b n _ hℓ (hp.pattern_kind_ne_mut ∘ hmut)) hp
  | @patBinding us vs ts sp byRef mutable t sub hr hm ht hs ihr ihm ihs =>
    obtain ⟨m, ihm, ihs⟩ := Form.DerivedFrom.exists_both ihm ihs
    obtain ⟨m', ihr⟩ := ihr
    refine ⟨max m m' + 1, .deeper fun ℓ b n o hℓ ho => ?_⟩
    obtain ⟨hm', hr'⟩ := Nat.max_le.1 hℓ
    have href : byRef = false → kindAt (vs ++ t :: (ts ++ o)) 0 ≠ .kwRef := fun _ => by
      cases hm with
      | flagSet hk h => simp [h]
      | flagUnset hk => simp [ht]
    have hsub : Form.Ends (.after .atSign .pattern) sub (kindAt o 0) := by
      cases sub with
      | none => exact fun h => ho (by simp [h])
      | some p => exact ho
    have hx := Writing.startsBinding (n := n) hr hm ht hs ho
    rw [List.append_assoc, List.append_assoc, List.cons_append]
    exact .patBinding hx (ihr ℓ b n _ hr' href) (ihm ℓ b n _ hm' fun _ => by simp [ht]) ht
      (ihs ℓ b n o hm' hsub)
  | patPath hp hq ih =>
    obtain ⟨m, ih⟩ := ih
    refine ⟨m + 1, .deeper fun ℓ b n o hℓ ho => ?_⟩
    have hsep : kindAt o 0 ≠ .pathSep := fun h => ho (by simp [h])
    exact .patPath (hp.startsPath (.inl hq)) (ih ℓ b n o hℓ hsep) fun h => ho (by simp_all)
  | patTuple hp ht hps ihp ihps =>
    obtain ⟨m, ihp, ihps⟩ := Form.DerivedFrom.exists_both ihp ihps
    refine ⟨m + 1, .deeper fun ℓ b n o hℓ ho => ?_⟩
    rw [List.append_assoc, List.cons_append]
    exact .patTuple (hp.startsPath (.inr ht))
      (ihp ℓ b n _ hℓ (by simp [Form.Ends, ht])) ht
      (ihps ℓ b n o hℓ trivial)

/-- All writings of a tree are the same up to commas, round parentheses and the two ways to write two
references. -/
theorem Writing.labels_eq {us : List Token} (h : Writing σ t ts) (h' : Writing σ t us)
    (hσ : σ = .ty ∨ σ = .pattern) : labels ts = labels us := by
  have labels_of_writing {ts : List Token} (h : Writing σ t ts) : labels ts = labels (σ.write t) := by
    obtain ⟨m, hm⟩ := h.derives
    have hd := hm m true .empty [] (Nat.le_refl m)
      (by obtain rfl | rfl := hσ <;> simp [Form.Ends])
    simpa using hd.labels_kept (f := labels) fun _ _ _ => rfl
  rw [labels_of_writing h, labels_of_writing h']

/-- The forms of the two languages, and trees of them in which lengths are literals. -/
def Form.LiteralLengths : (σ : Form) → σ.Tree → Prop
  | segment, _ | flag _, _ | path, _ | pattern, _ => True
  | after _ form, a => ∀ t ∈ a, form.LiteralLengths t
  | eachAfter _ form, as | list _ form, as | more _ form, as => ∀ a ∈ as, form.LiteralLengths a
  | ty, t => t.LiteralLengths
  | _, _ => False

theorem Form.eq_of_listed {a : σ.Tree} (hl : σ.Listed) (ha : σ.LiteralLengths a) :
    σ = .ty ∨ σ = .pattern := by
  cases σ with
  | ty => exact .inl rfl
  | pattern => exact .inr rfl
  | after k form => exact hl.elim
  | _ => first | exact hl.elim | exact ha.elim

theorem Suffix.foldl_attach_eq_literal {ss : List Suffix} {e : Expr} {l : Token}
    (h : ss.foldl attach e = .literal l) : ss = [] ∧ e = .literal l := by
  induction ss generalizing e with
  | nil => exact ⟨rfl, h⟩
  | cons s ss ih =>
    have hs := (ih h).2
    cases s <;> cases hs

/-- An expression that is a literal is one token. -/
theorem Derives.eq_of_literal {resolve : Bool} {above : Tier} {e : Expr} {l : Token}
    (h : Derives resolve (.expr above) ℓ b x e y) (he : e = .literal l) :
    x.rest = l :: y.rest ∧ l.kind.isLiteral := by
  cases h with
  | expr ht hs =>
    obtain ⟨rfl, rfl⟩ := Suffix.foldl_attach_eq_literal he
    cases hs with
    | suffixesNil _ =>
      cases ht with
      | termLiteral hl => exact ⟨rfl, hl⟩

theorem Derives.beginsWithMut_of_flag {resolve mutable : Bool} {p : Pattern} {z : Place}
    (hm : Derives resolve (.flag .kwMut) ℓ b x mutable y)
    (hp : Derives resolve .pattern ℓ b y p z) (h : mutable = false) : p.beginsWithMut = false := by
  cases hm with
  | flagSet hk ht => cases h
  | flagUnset hk hne =>
    rw [Ne, hp.kind_eq_mut_iff] at hne
    exact Bool.not_eq_true _ ▸ hne

/-- A single name is no path. -/
theorem Derives.qualified {p : Path} (hx : x.StartsPath false) (h : Derives false .path ℓ b x p y)
    (hy : y.kind ≠ .openParen) : p.Qualified := by
  rintro t ht hk
  cases h with
  | path h hts =>
    obtain ⟨rfl, rfl⟩ : _ = t ∧ _ = [] := List.cons.inj ht
    cases hts with
    | eachNil _ hsep =>
      obtain hx | hx | ⟨-, hx | hx | ⟨-, _, _, hc⟩⟩ := hx
      · exact absurd (hk.symm.trans hx) (by decide)
      · exact absurd (hk.symm.trans hx) (by decide)
      · exact hsep hx
      · exact hy hx
      · cases hc

/-- Every tree that is derived has a writing in the tokens that are passed. -/
theorem Derives.writing (h : Derives false σ ℓ b x t y) (ht : σ.LiteralLengths t) :
    ∃ ts, x.rest = ts ++ y.rest ∧ Writing σ t ts := by
  induction h with
  -- tokens and lists
  | @segment ℓ b i n t h => exact ⟨[t], rfl, .segment h⟩
  | @flagSet ℓ b i n k t hk h => exact ⟨[t], rfl, .flagSet hk h⟩
  | flagUnset hk h => exact ⟨[], rfl, .flagUnset hk⟩
  | afterNothing hk h => exact ⟨[], rfl, .afterNothing hk⟩
  | afterSome hk h ha ih =>
    obtain ⟨ts, hi, hts⟩ := ih (ht _ rfl)
    exact ⟨_ :: ts, congrArg _ hi, .afterSome hk h hts⟩
  | eachNil hk h => exact ⟨[], rfl, .eachNil hk⟩
  | eachCons hk h ha has iha ihas =>
    obtain ⟨hta, htas⟩ := List.forall_mem_cons.1 ht
    obtain ⟨ts, hi, hts⟩ := iha hta
    obtain ⟨us, hy, hus⟩ := ihas htas
    exact ⟨_ :: (ts ++ us), by simp_all, .eachCons hk h hts hus⟩
  | listNil h => exact ⟨[_], rfl, .listNil h⟩
  | listCons hl h ha has iha ihas =>
    obtain ⟨hta, htas⟩ := List.forall_mem_cons.1 ht
    obtain ⟨ts, hx, hts⟩ := iha hta
    obtain ⟨us, hy, hus⟩ := ihas htas
    exact ⟨ts ++ us, by simp_all, .listCons (Form.eq_of_listed hl hta) hts hus⟩
  | moreNil h => exact ⟨[_], rfl, .moreNil h⟩
  | moreComma hc h => exact ⟨[_, _], rfl, .moreComma hc h⟩
  | moreCons hl hc h ha has iha ihas =>
    obtain ⟨hta, htas⟩ := List.forall_mem_cons.1 ht
    obtain ⟨ts, hx, hts⟩ := iha hta
    obtain ⟨us, hy, hus⟩ := ihas htas
    exact ⟨_ :: (ts ++ us), by simp_all, .moreCons (Form.eq_of_listed hl hta) hc hts hus⟩
  | path h hts ih =>
    obtain ⟨us, hi, hus⟩ := ih fun _ _ => trivial
    exact ⟨_ :: us, congrArg _ hi, .path h hus⟩
  -- types
  | tyPath h hp ih =>
    obtain ⟨ts, hx, hts⟩ := ih trivial
    exact ⟨ts, hx, .tyPath (Derives.ty_wellFormed (.tyPath h hp)) hts⟩
  | tyReference h hm ha ihm iha =>
    cases ht with
    | reference ht =>
      obtain ⟨us, hi, hus⟩ := ihm trivial
      obtain ⟨ts, hx, hts⟩ := iha ht
      exact ⟨_ :: (us ++ ts), by simp_all, .tyReference h hus hts⟩
  | tyReferences h hm ha ihm iha =>
    cases ht with
    | reference ht =>
      cases ht with
      | reference ht =>
        obtain ⟨us, hi, hus⟩ := ihm trivial
        obtain ⟨ts, hx, hts⟩ := iha ht
        exact ⟨_ :: (us ++ ts), by simp_all, .tyReferences h hus hts⟩
  | tySlice h ha hc ih =>
    cases ht with
    | slice ht =>
      obtain ⟨ts, hi, hts⟩ := ih ht
      exact ⟨_ :: (ts ++ [_]), by simp_all, .tySlice h hts hc⟩
  | tyArray h ha hs he hc iha ihe =>
    cases ht with
    | array ht =>
      obtain ⟨ts, hi, hts⟩ := iha ht
      obtain ⟨hj, hl⟩ := he.eq_of_literal rfl
      exact ⟨_ :: (ts ++ [_, _, _]), by simp_all, .tyArray h hts hs hl hc⟩
  | tyUnit h hc => exact ⟨[_, _], rfl, .tyUnit h hc⟩
  | tyParen h ha hc ih =>
    obtain ⟨ts, hi, hts⟩ := ih ht
    exact ⟨_ :: (ts ++ [_]), by simp_all, .tyParen h hts hc⟩
  | tyTuple h ha hy has iha ihas =>
    cases ht with
    | tuple ht =>
      obtain ⟨hta, htas⟩ := List.forall_mem_cons.1 ht
      obtain ⟨ts, hi, hts⟩ := iha hta
      obtain ⟨us, hrest, hus⟩ := ihas htas
      refine ⟨_ :: (ts ++ us), by simp_all, .tyTuple h hts hus ?_⟩
      obtain ⟨heq, hk⟩ := hus.kind_more _
      rw [Place.kind, hrest, heq] at hy
      exact hk.resolve_right hy
  | tyNever h => exact ⟨[_], rfl, .tyNever h⟩
  | tyInferred h => exact ⟨[_], rfl, .tyInferred h⟩
  -- patterns
  | patLiteral h => exact ⟨[_], rfl, .patLiteral h⟩
  | patNegated h hl => exact ⟨[_, _], rfl, .patNegated h hl⟩
  | patWildcard h => exact ⟨[_], rfl, .patWildcard h⟩
  | patReference h hm hp ihm ihp =>
    obtain ⟨us, hi, hus⟩ := ihm trivial
    obtain ⟨ts, hx, hts⟩ := ihp trivial
    exact ⟨_ :: (us ++ ts), by simp_all, .patReference h hus hts (hm.beginsWithMut_of_flag hp)⟩
  | patReferences h hm hp ihm ihp =>
    obtain ⟨us, hi, hus⟩ := ihm trivial
    obtain ⟨ts, hx, hts⟩ := ihp trivial
    exact ⟨_ :: (us ++ ts), by simp_all, .patReferences h hus hts (hm.beginsWithMut_of_flag hp)⟩
  | patBinding hx hr hm hn hs ihr ihm ihs =>
    obtain ⟨us, hx, hus⟩ := ihr trivial
    obtain ⟨vs, hy, hvs⟩ := ihm trivial
    obtain ⟨ts, hi, hts⟩ := ihs fun _ _ => trivial
    exact ⟨us ++ (vs ++ _ :: ts), by simp_all, .patBinding hus hvs hn hts⟩
  | patPath hx hp hy ih =>
    obtain ⟨ts, hrest, hts⟩ := ih trivial
    exact ⟨ts, hrest, .patPath hts (hp.qualified hx hy)⟩
  | patTuple hx hp ho hps ihp ihps =>
    obtain ⟨ts, hrest, hts⟩ := ihp trivial
    obtain ⟨us, hi, hus⟩ := ihps fun _ _ => trivial
    exact ⟨ts ++ _ :: us, by simp_all, .patTuple hts ho hus⟩
  -- the other forms
  | _ => exact ht.elim

namespace Session

variable {s : Session} {p : Pattern} {a : Ty} {rest : List Token}

/-- A form is read from some tokens as a tree: by every session that does not resolve names, has
levels enough and has these tokens ahead, up to their spans, before a token that may follow. -/
def Accepts (σ : Form) (t : σ.Tree) (ts : List Token) : Prop :=
  ∃ levels, ∀ (s : Session) (written rest : List Token), s.options.resolvePatterns = false →
    s.state.depth + levels ≤ s.options.maxDepth → s.state.cursor.ahead = written ++ rest →
    written.map Token.bare = ts.map Token.bare → σ.Ends t (kindAt rest 0) →
    ∃ t', (s.read σ.phrase).1 = .ok t' ∧ σ.bare t' = σ.bare t ∧
      (s.read σ.phrase).2.state.cursor.ahead = rest

theorem accepts_of_writing (h : Writing σ t ts) : Accepts σ t ts := by
  obtain ⟨m, hm⟩ := h.derives
  refine ⟨m, fun s written rest hresolve hdepth hahead hbare hends => ?_⟩
  have hd := hm (s.options.maxDepth - s.state.depth) s.state.structLiterals s.state.toNames rest
    (by omega) hends
  rw [← hresolve] at hd
  obtain ⟨t', u, hread, hu, ht'⟩ := hd.gives (Nat.sub_le _ _) s.state
    ⟨rfl, rfl, by simp [hahead, hbare], rfl⟩
  have hsession : s.read σ.phrase = (.ok t', { s with state := u }) := read_of_ok hread
  refine ⟨t', by rw [hsession], ht', ?_⟩
  rw [hsession]
  -- What is left is a suffix of what was ahead, as long as the rest.
  have hsuffix : u.cursor.ahead <:+ s.state.cursor.ahead :=
    ((ahead_suffix_invariant s.options).read σ.phrase).of_ok hread
  rw [hahead] at hsuffix
  exact (List.suffix_or_suffix_of_suffix hsuffix (List.suffix_append written rest)).elim
    (·.eq_of_length hu.length_eq) fun h => (h.eq_of_length hu.length_eq.symm).symm

theorem writing_of_read {f : Phrase σ.Tree} (hf : f.Sound s.options s.options.maxDepth σ)
    (hresolve : s.options.resolvePatterns = false) (h : (s.read f).1 = .ok t)
    (ht : σ.LiteralLengths t) :
    ∃ written, s.state.cursor.ahead = written ++ (s.read f).2.state.cursor.ahead ∧
      Writing σ t written := by
  have hd := read_sound hf h
  rw [hresolve] at hd
  exact hd.writing ht

/-- While names are not resolved, reading a pattern or a type accepts exactly its language. Every
tree of the language is read from its canonical tokens, and from all other writings, if levels are
left and no token follows that would go on with it; exactly these tokens are passed, and the tree is
the same up to spans. And a pattern, or a type with literals as lengths, that is read is such a tree,
and the tokens passed are a writing of it: its canonical tokens, up to what `Writing` leaves open. -/
theorem patterns_types_exact :
    (∀ p : Pattern, p.Plain → Accepts .pattern p p.spell) ∧
    (∀ a : Ty, a.Plain → Accepts .ty a a.spell) ∧
    (∀ p ts, Writing .pattern p ts → Accepts .pattern p ts) ∧
    (∀ a ts, Writing .ty a ts → Accepts .ty a ts) ∧
    ∀ s : Session, s.options.resolvePatterns = false →
      (∀ p, (s.read Grammar.pattern).1 = .ok p → p.Plain ∧ ∃ written,
        s.state.cursor.ahead = written ++ (s.read Grammar.pattern).2.state.cursor.ahead ∧
          Writing .pattern p written ∧ labels written = labels p.spell) ∧
      ∀ a, (s.read Grammar.ty).1 = .ok a → a.LiteralLengths → a.Plain ∧ ∃ written,
        s.state.cursor.ahead = written ++ (s.read Grammar.ty).2.state.cursor.ahead ∧
          Writing .ty a written ∧ labels written = labels a.spell := by
  refine ⟨fun p hp => accepts_of_writing hp.writing, fun a ha => accepts_of_writing ha.writing,
    fun p ts => accepts_of_writing, fun a ts => accepts_of_writing, fun s hs =>
    ⟨fun p hp => ?_, fun a ha hl => ?_⟩⟩
  · obtain ⟨ts, hahead, hts⟩ :=
      writing_of_read (Goal.sound s.options s.options.maxDepth).pattern hs hp trivial
    exact ⟨hts.plain, ts, hahead, hts, hts.labels_eq (Pattern.Plain.writing hts.plain) (.inr rfl)⟩
  · obtain ⟨ts, hahead, hts⟩ :=
      writing_of_read (Grammar.sound_ty (Goal.sound s.options s.options.maxDepth)) hs ha hl
    exact ⟨hts.plain, ts, hahead, hts, hts.labels_eq (Ty.Plain.writing hts.plain) (.inl rfl)⟩

/-- The pattern `&mut mut x` and the type `([u; 3],)`. -/
theorem patterns_types_exact_mut :
    let p : Pattern := .reference true (.identifier ⟨.identifier, "x", .nowhere⟩ false true none
      .nowhere) .nowhere
    let a : Ty := .tuple [.array (.path (.ofToken ⟨.identifier, "u", .nowhere⟩))
      (.literal ⟨.integer, "3", .nowhere⟩) .nowhere] .nowhere
    p.Plain ∧ a.Plain ∧ Accepts .ty a a.spell ∧ ∃ s : Session, s.options.resolvePatterns = false ∧
      ∃ p', (s.read Grammar.pattern).1 = .ok p' ∧ p'.bare = p.bare ∧ p'.Plain := by
  intro p a
  have hp : p.Plain := .reference (.identifier rfl nofun) nofun
  have ha : a.Plain := by
    refine .tuple (List.forall_mem_singleton.2 (.array (.path ⟨?_, ?_⟩ ?_) rfl))
    · exact List.cons_ne_nil _ _
    · exact List.forall_mem_singleton.2 (by decide)
    · rintro _ ⟨⟩
      decide
  obtain ⟨levels, hread⟩ := patterns_types_exact.1 p hp
  let s : Session := .start (p.spell ++ []) "t" ⟨levels, false⟩
  obtain ⟨p', hok, hbare, -⟩ := hread s p.spell [] rfl (Nat.le_of_eq (Nat.zero_add _)) rfl rfl
    (by simp [Form.Ends])
  exact ⟨hp, ha, patterns_types_exact.2.1 a ha, s, rfl, p', hok, hbare,
    ((patterns_types_exact.2.2.2.2 s rfl).1 p' hok).1⟩

end Session

end FrontEnd
