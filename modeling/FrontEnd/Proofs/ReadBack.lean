import FrontEnd.Proofs.Heads
/-!
# Canonical tokens are derived

A tree that can be derived at all is derived from its canonical tokens, with the same names before
and after and with no more levels of nesting. What comes after the tree need not be what came after
it when it was read, but something that ends the tree as well.
-/
namespace FrontEnd

open Token (fixed)
open Grammar (exprStarts typeStarts)
open TokenKind (Becomes Follows closers)

namespace TokenKind

variable {k k' k₀ : TokenKind}

theorem Follows.ne (h : k.Follows k') (hk : k ≠ k₀)
    (h₀ : k₀ ∉ .andAnd :: closers) : k' ≠ k₀ := by
  rintro rfl
  obtain ⟨rfl | ⟨-, rfl⟩, -⟩ | h := h
  · exact hk rfl
  · exact h₀ (by simp)
  · exact h₀ (List.mem_cons_of_mem _ h)

theorem Follows.ne_pathSep (h : k.Follows k') : k' ≠ .pathSep := by
  obtain ⟨-, h⟩ | h := h
  · exact h
  · rintro rfl
    simp [closers] at h

/-- A token with a fixed spelling follows where one of its kind did. -/
theorem Follows.mark {t : Token} (h : t.kind = k) (o : List Token)
    (hk : k ≠ .pathSep) : t.kind.Follows (kindAt (fixed k :: o) 0) :=
  .inl ⟨.inl h.symm, hk⟩

theorem Follows.closer (k : TokenKind) (h : k' ∈ closers) : k.Follows k' :=
  .inr h

/-- No operator follows that binds tighter than those that did. -/
theorem Follows.tier {above : Tier} (h : k.Follows k')
    (hk : ∀ τ, k.tier? = some τ → ¬above < τ) : ∀ τ, k'.tier? = some τ → ¬above < τ := by
  obtain ⟨rfl | ⟨rfl, rfl⟩, -⟩ | h := h
  · exact hk
  · rintro τ ⟨⟩ hτ
    exact hk .bitAnd rfl (Nat.lt_trans hτ (by decide))
  · have hnone : ∀ k ∈ closers, k.tier? = none := by decide
    simp [hnone k' h]

end TokenKind

/-- What may come after a tree of a form when it is written, if `k` came after it when it was
read. -/
def Form.Follow : Form → (k k' : TokenKind) → Prop
  | flag k₀, k, k' => k ≠ k₀ → k' ≠ k₀
  | after _ form, k, k' => k.Follows k' ∧ form.Follow k k'
  | eachAfter k₀ form, k, k' => (k ≠ k₀ → k' ≠ k₀) ∧ form.Follow k k'
  | path, _, k' | ty, _, k' | typedName, _, k' | param, _, k' => k' ≠ .pathSep
  | pattern, k, k' | expr _, k, k' | term, k, k' | suffix, k, k' | suffixes _, k, k' => k.Follows k'
  | field, k, k' | jumpValue, k, k' | statementExpr, k, k' | letLink, k, k' => k.Follows k'
  | link, k, k' | conditional, k, k' | otherwise, k, k' | arm, k, k' => k.Follows k'
  | selfParam, k, k' => k.Follows k'
  | element, k, k' => k.Becomes k'
  | condition, k, k' => k' = k ∧ k' ≠ .pathSep
  | items, k, k' => k' = k
  | _, _, _ => True

theorem Form.Listed.follow {σ : Form} (h : σ.Listed) (k : TokenKind) {k' : TokenKind}
    (hk : k' ∈ closers) : σ.Follow k k' := by
  have hsep : k' ≠ .pathSep := by
    rintro rfl
    simp [closers] at hk
  cases σ <;> first | exact h.elim | exact trivial | exact hsep | exact .inr hk

theorem closing_mem_closers (br : Bracket) : br.closing ∈ closers := by cases br <;> decide

theorem more_mem_closers (br : Bracket) (rest : List (List Token)) (o : List Token) :
    kindAt (Written.more br.closing rest ++ o) 0 ∈ closers := by
  cases rest with
  | nil => exact closing_mem_closers br
  | cons first rest => simp [Written.more, closers]

/-- Nothing in a list begins with the bracket that closes it. -/
theorem Form.Listed.starts_ne {σ : Form} {k : TokenKind} (h : σ.Listed) (hk : σ.Starts k)
    (br : Bracket) : k ≠ br.closing := by
  rintro rfl
  revert hk
  cases σ <;> first | exact h.elim | cases br <;> simp [Form.Starts, Bracket.closing, typeStarts,
    patternStarts, exprStarts]

theorem ne_closer_of_mem {k : TokenKind} (h : k ∈ optionalMarks) : k ∉ .andAnd :: closers :=
  (by decide : ∀ k ∈ optionalMarks, k ∉ .andAnd :: closers) k h

/-- A tree is derived from its canonical tokens, with at least so many levels and whatever may come
after it. The names are those that its own derivation has. -/
def Form.ReadsBack (resolve : Bool) (σ : Form) (ℓ : Nat) (b : Bool) (n : Names) (t : σ.Tree)
    (k : TokenKind) (m : Names) : Prop :=
  ∀ ℓ' o, ℓ ≤ ℓ' → σ.Follow k (kindAt o 0) → Derives resolve σ ℓ' b ⟨σ.write t ++ o, n⟩ t ⟨o, m⟩

/-- A tree is derived from its canonical tokens after the mark of a reference and perhaps `mut`. -/
def Form.ReadsBackMarked (resolve : Bool) (σ : Form) (ℓ : Nat) (b : Bool) (n : Names)
    (mutable : Bool) (t : σ.Tree) (k : TokenKind) (m : Names) : Prop :=
  ∀ ℓ' o, ℓ ≤ ℓ' → σ.Follow k (kindAt o 0) →
    Derives resolve (.flag .kwMut) ℓ' b ⟨Written.flag .kwMut mutable ++ (σ.write t ++ o), n⟩ mutable
      ⟨σ.write t ++ o, n⟩ ∧
    Derives resolve σ ℓ' b ⟨σ.write t ++ o, n⟩ t ⟨o, m⟩

/-- What a reference refers to is derived by itself. It has to be if the reference is joined with
another one around it. -/
def Form.InnerReadsBack (resolve : Bool) : (σ : Form) → Nat → Bool → Names → σ.Tree → TokenKind →
    Names → Prop
  | ty, ℓ, b, n, t, k, m => ∀ mutable a sp, t = .reference mutable a sp →
    Form.ReadsBackMarked resolve .ty ℓ b n mutable a k m
  | pattern, ℓ, b, n, t, k, m => ∀ mutable p sp, t = .reference mutable p sp →
    Form.ReadsBackMarked resolve .pattern ℓ b n mutable p k m
  | expr _, ℓ, b, n, t, k, m => ∀ mutable e sp, t = .borrow mutable e sp →
    Form.ReadsBackMarked resolve (.expr .unary) ℓ b n mutable e k m
  | term, ℓ, b, n, t, k, m => ∀ mutable e sp, t = .borrow mutable e sp →
    Form.ReadsBackMarked resolve (.expr .unary) (ℓ + 1) b n mutable e k m
  | _, _, _, _, _, _, _ => True

section

variable {resolve b : Bool} {σ : Form} {ℓ : Nat} {x y z : Place} {n m : Names} {k : TokenKind}
  {o : List Token}

/-- A rule that takes a level. -/
theorem Form.ReadsBack.succ {t : σ.Tree} (h : ∀ ℓ' o, ℓ ≤ ℓ' → σ.Follow k (kindAt o 0) →
    Derives resolve σ (ℓ' + 1) b ⟨σ.write t ++ o, n⟩ t ⟨o, m⟩) :
    σ.ReadsBack resolve (ℓ + 1) b n t k m := by
  intro ℓ' o hℓ ho
  obtain ⟨ℓ', rfl⟩ := Nat.exists_eq_add_of_le' (Nat.le_of_add_left_le hℓ)
  exact h ℓ' o (Nat.le_of_add_le_add_right hℓ) ho

theorem Form.ReadsBackMarked.mono {mutable : Bool} {t : σ.Tree}
    (h : σ.ReadsBackMarked resolve ℓ b n mutable t k m) :
    σ.ReadsBackMarked resolve (ℓ + 1) b n mutable t k m :=
  fun ℓ' o hℓ ho => h ℓ' o (Nat.le_of_succ_le hℓ) ho

namespace Derives

theorem names_flag {set : Bool} (h : Derives resolve (.flag k) ℓ b x set y) : y.names = x.names := by
  cases h <;> rfl

theorem ofFlag {set : Bool} (ho : set = false → kindAt o 0 ≠ k)
    (hk : k ∈ optionalMarks) :
    Derives resolve (.flag k) ℓ b ⟨Written.flag k set ++ o, n⟩ set ⟨o, n⟩ := by
  cases set with
  | true => exact .flagSet hk rfl
  | false => exact .flagUnset hk (ho rfl)

theorem names_list_nil {br : Bracket} (h : Derives resolve (.list br σ) ℓ b x [] y) :
    y.names = x.names := by
  cases h
  rfl

theorem names_more_nil {br : Bracket} (h : Derives resolve (.more br σ) ℓ b x [] y) :
    y.names = x.names := by
  cases h <;> rfl

/-- A path keeps its first token. -/
theorem kind_path {p : Path} (h : Derives resolve .path ℓ b x p y) :
    kindAt (p.write ++ o) 0 = x.kind := by
  cases h
  rfl

/-- A suffix keeps its first token. -/
theorem kind_suffix {s : Suffix} (h : Derives resolve .suffix ℓ b x s y) :
    kindAt (s.write ++ o) 0 = x.kind := by
  cases h <;> simp_all [Suffix.write]

theorem kind_suffixes {above : Tier} {ss : List Suffix} {τ : Tier}
    (h : Derives resolve (.suffixes above) ℓ b x ss y) (hx : x.kind.tier? = some τ)
    (hτ : above < τ) : kindAt ((Form.suffixes above).write ss ++ o) 0 = x.kind := by
  cases h with
  | suffixesNil h => exact absurd hτ (h τ hx)
  | suffixesCons h hτ hs hss =>
    simp only [Form.write, List.flatMap_cons, List.append_assoc]
    exact hs.kind_suffix

/-- A block keeps its first token. -/
theorem kind_block {bl : Block} (h : Derives resolve .block ℓ b x bl y) :
    kindAt (bl.write ++ o) 0 = x.kind ∧ kindAt (bl.write ++ o) 0 ≠ .pathSep := by
  have hstart : x.kind = .openCurly := h.starts
  obtain ⟨ss, e, sp⟩ := bl
  simp [Block.write, hstart]

end Derives

theorem Ty.reads_marked {mutable : Bool} {a : Ty} (ha : Form.ReadsBack resolve .ty ℓ b n a k m) :
    Form.ReadsBackMarked resolve .ty ℓ b n mutable a k m := by
  intro ℓ' o hℓ ho
  have hd := ha ℓ' o hℓ ho
  refine ⟨.ofFlag (fun _ hmut => ?_) (by decide), hd⟩
  have hstart : _ ∈ typeStarts := hd.starts
  simp [hmut, typeStarts] at hstart

theorem Ty.reads_reference {mutable : Bool} {a : Ty} {sp : Span}
    (ha : Form.ReadsBackMarked resolve .ty ℓ b n mutable a k m)
    (hinner : Form.InnerReadsBack resolve .ty ℓ b n a k m) :
    Form.ReadsBack resolve .ty (ℓ + 1) b n (.reference mutable a sp) k m := by
  refine .succ fun ℓ' o hℓ ho => ?_
  have single : Derives resolve .ty (ℓ' + 1) b
      ⟨fixed .ampersand :: (Written.flag .kwMut mutable ++ (a.write ++ o)), n⟩
      (.reference mutable a sp) ⟨o, m⟩ :=
    .tyReference rfl (ha ℓ' o hℓ ho).1 (ha ℓ' o hℓ ho).2
  cases mutable with
  | true => simpa [Form.write, Ty.write] using single
  | false =>
    cases a with
    | reference mutable' a' sp' =>
      obtain ⟨hm, ha'⟩ := hinner mutable' a' sp' rfl ℓ' o hℓ ho
      simp only [Form.write, Ty.write, List.cons_append, List.append_assoc]
      exact .tyReferences rfl hm ha'
    | _ => simpa [Form.write, Ty.write] using single

theorem Pattern.reads_marked {mutable : Bool} {p : Pattern}
    (hp : Form.ReadsBack resolve .pattern ℓ b n p k m)
    (hmut : mutable = false → ∀ o, kindAt (p.write ++ o) 0 ≠ .kwMut) :
    Form.ReadsBackMarked resolve .pattern ℓ b n mutable p k m :=
  fun ℓ' o hℓ ho => ⟨.ofFlag (fun hset => hmut hset o) (by decide), hp ℓ' o hℓ ho⟩

/-- A pattern that has no `mut` before it has none before its canonical tokens. -/
theorem Derives.kind_ne_mut {i : List Token} {mutable : Bool} {p : Pattern}
    (hm : Derives resolve (.flag .kwMut) ℓ b ⟨i, n⟩ mutable x)
    (hp : Derives resolve .pattern ℓ b x p y) (hset : mutable = false) (o : List Token) :
    kindAt (p.write ++ o) 0 ≠ .kwMut := by
  subst hset
  cases hm with
  | flagUnset hk hx => exact Follows.ne (.inl (hp.becomes trivial o)) hx (by decide)

theorem Pattern.reads_reference {mutable : Bool} {p : Pattern} {sp : Span}
    (hp : Form.ReadsBackMarked resolve .pattern ℓ b n mutable p k m)
    (hinner : Form.InnerReadsBack resolve .pattern ℓ b n p k m) :
    Form.ReadsBack resolve .pattern (ℓ + 1) b n (.reference mutable p sp) k m := by
  refine .succ fun ℓ' o hℓ ho => ?_
  have single : Derives resolve .pattern (ℓ' + 1) b
      ⟨fixed .ampersand :: (Written.flag .kwMut mutable ++ (p.write ++ o)), n⟩
      (.reference mutable p sp) ⟨o, m⟩ :=
    .patReference rfl (hp ℓ' o hℓ ho).1 (hp ℓ' o hℓ ho).2
  cases mutable with
  | true => simpa [Form.write, Pattern.write] using single
  | false =>
    cases p with
    | reference mutable' p' sp' =>
      obtain ⟨hm, hp'⟩ := hinner mutable' p' sp' rfl ℓ' o hℓ ho
      simp only [Form.write, Pattern.write, List.cons_append, List.append_assoc]
      exact .patReferences rfl hm hp'
    | _ => simpa [Form.write, Pattern.write] using single

theorem Expr.reads_marked {above : Tier} {mutable : Bool} {e : Expr}
    (he : Form.ReadsBack resolve (.expr above) ℓ b n e k m) :
    Form.ReadsBackMarked resolve (.expr above) ℓ b n mutable e k m := by
  intro ℓ' o hℓ ho
  have hd := he ℓ' o hℓ ho
  refine ⟨.ofFlag (fun _ hmut => ?_) (by decide), hd⟩
  have hstart : _ ∈ exprStarts := hd.starts
  simp [hmut, exprStarts] at hstart

theorem Expr.reads_borrow {mutable : Bool} {e : Expr} {sp : Span}
    (he : Form.ReadsBackMarked resolve (.expr .unary) ℓ b n mutable e k m)
    (hinner : Form.InnerReadsBack resolve (.expr .unary) ℓ b n e k m) :
    Form.ReadsBack resolve .term ℓ b n (.borrow mutable e sp) k m := by
  intro ℓ' o hℓ ho
  have single : Derives resolve .term ℓ' b
      ⟨fixed .ampersand :: (Written.flag .kwMut mutable ++ (e.write ++ o)), n⟩
      (.borrow mutable e sp) ⟨o, m⟩ :=
    .termBorrow rfl (he ℓ' o hℓ ho).1 (he ℓ' o hℓ ho).2
  cases mutable with
  | true => simpa [Form.write, Expr.write] using single
  | false =>
    cases e with
    | borrow mutable' e' sp' =>
      obtain ⟨hm, he'⟩ := hinner mutable' e' sp' rfl ℓ' o hℓ ho
      simp only [Form.write, Expr.write, List.cons_append, List.append_assoc]
      exact .termBorrows rfl hm he'
    | _ => simpa [Form.write, Expr.write] using single

/-- The first element of a list, or one after a comma, is read up to the next comma or the bracket
at the end. -/
theorem Form.ReadsBack.beforeMore {a : σ.Tree} {c : Bracket} {rest : List (List Token)}
    (h : σ.ReadsBack resolve ℓ b n a k m) (hl : σ.Listed) {ℓ' : Nat} (hℓ : ℓ ≤ ℓ') (o : List Token) :
    kindAt (σ.write a ++ (Written.more c.closing rest ++ o)) 0 ≠ c.closing ∧
      Derives resolve σ ℓ' b ⟨σ.write a ++ (Written.more c.closing rest ++ o), n⟩ a
        ⟨Written.more c.closing rest ++ o, m⟩ := by
  have hd := h ℓ' (Written.more c.closing rest ++ o) hℓ (hl.follow k (more_mem_closers c rest o))
  exact ⟨hl.starts_ne hd.starts c, hd⟩

/-- A tuple type. The comma after its first element is left out only if another comes. -/
theorem Ty.reads_tuple {a : Ty} {as : List Ty} {m' : Names} {k' : TokenKind} {sp : Span}
    (ha : Form.ReadsBack resolve .ty ℓ b n a k m)
    (has : Form.ReadsBack resolve (.more .round .ty) ℓ b m as k' m') (hnil : as = [] → m' = m) :
    Form.ReadsBack resolve .ty (ℓ + 1) b n (.tuple (a :: as) sp) k' m' := by
  refine .succ fun ℓ' o hℓ ho => ?_
  cases as with
  | nil =>
    obtain rfl := hnil rfl
    simp only [Form.write, Ty.write, tyWrites_eq_map, List.map_cons, List.map_nil, Written.tuple,
      List.cons_append, List.append_assoc, List.nil_append]
    exact .tyTuple rfl (ha ℓ' _ hℓ (by simp [Form.Follow])) (by simp) (.moreComma rfl rfl)
  | cons a' as =>
    simp only [Form.write, Ty.write, tyWrites_eq_map, List.map_cons, Written.tuple, Written.list,
      List.cons_append, List.append_assoc]
    obtain ⟨-, hd⟩ := ha.beforeMore (c := .round) trivial hℓ o
    exact .tyTuple rfl hd (by simp [Written.more]) (has ℓ' o hℓ trivial)

/-- A path is read as a pattern again. -/
theorem Derives.startsPath {p : Path} (h : Derives resolve .path ℓ b x p y)
    (hx : x.StartsPath resolve) (ho : y.kind.Follows (kindAt o 0))
    (hparen : y.kind = .openParen → kindAt o 0 = .openParen) :
    Place.StartsPath resolve ⟨p.write ++ o, x.names⟩ := by
  cases h with
  | path ht hts =>
    obtain hx | hx | ⟨hx, hnext⟩ := hx
    · exact .inl hx
    · exact .inr (.inl hx)
    · refine .inr (.inr ⟨hx, ?_⟩)
      cases hts with
      | eachCons hk h ha has => exact .inl rfl
      | eachNil hk h =>
        obtain hnext | hnext | ⟨hnext, hconst⟩ := hnext
        · exact absurd hnext h
        · exact .inr (.inl (hparen hnext))
        · exact .inr (.inr ⟨ho.ne hnext (by decide), hconst⟩)

/-- A name is read as one that is bound again. -/
theorem Derives.startsBinding {byRef mutable : Bool} {t : Token} {i : List Token}
    {sub : Option Pattern} (hx : x.StartsBinding resolve)
    (hr : Derives resolve (.flag .kwRef) ℓ b x byRef y)
    (hm : Derives resolve (.flag .kwMut) ℓ b y mutable ⟨t :: i, n⟩) (ht : t.kind = .identifier)
    (hs : Derives resolve (.after .atSign .pattern) ℓ b ⟨i, n⟩ sub z)
    (ho : z.kind.Follows (kindAt o 0)) :
    Place.StartsBinding resolve ⟨Written.flag .kwRef byRef ++ (Written.flag .kwMut mutable ++
      t :: (Written.after .atSign (sub.map Pattern.write) ++ o)), x.names⟩ := by
  cases hr with
  | flagSet hk h => exact .inl rfl
  | flagUnset hk href =>
    cases hm with
    | flagSet hk h => exact .inr (.inl rfl)
    | flagUnset hk hmut =>
      obtain hx | hx | ⟨-, hnext⟩ := hx
      · exact absurd hx href
      · exact absurd hx hmut
      · refine .inr (.inr ⟨ht, ?_⟩)
        cases hs with
        | afterSome hk h ha => exact .inl rfl
        | afterNothing hk h =>
          obtain hnext | ⟨hsep, hparen, hconst⟩ := hnext
          · exact absurd hnext h
          · exact .inr ⟨ho.ne_pathSep, ho.ne hparen (by decide), hconst⟩

theorem Suffix.eq_nil_of_borrow {e e' : Expr} {ss : List Suffix} {mutable : Bool} {sp : Span}
    (h : ss.foldl attach e = .borrow mutable e' sp) : ss = [] := by
  obtain rfl | ⟨ss, s, rfl⟩ := List.eq_nil_or_concat ss
  · rfl
  · cases s <;> simp [attach] at h

theorem Derives.tier_next_suffixes {above : Tier} {ss : List Suffix}
    (h : Derives resolve (.suffixes above) ℓ b x ss y) :
    ∀ τ, y.kind.tier? = some τ → ¬above < τ := by
  induction ss generalizing x with
  | nil =>
    cases h with
    | suffixesNil h => exact h
  | cons s ss ih =>
    cases h with
    | suffixesCons h hτ hs hss => exact ih hss

/-- No operator comes after an expression that could have been part of it. -/
theorem Derives.tier_next {above : Tier} {e : Expr} (h : Derives resolve (.expr above) ℓ b x e y) :
    ∀ τ, y.kind.tier? = some τ → ¬above < τ := by
  cases h with
  | expr he hs => exact hs.tier_next_suffixes

/-- A term by itself is an expression if no operator comes after it. -/
theorem Expr.reads_term {above : Tier} {e : Expr} (he : Form.ReadsBack resolve .term ℓ b n e k m)
    (hk : ∀ τ, k.tier? = some τ → ¬above < τ) :
    Form.ReadsBack resolve (.expr above) (ℓ + 1) b n e k m :=
  .succ fun ℓ' o hℓ ho => .expr (he ℓ' o hℓ ho) (.suffixesNil (ho.tier hk))

/-- An expression that ends in a block still does when it is written. -/
theorem Place.startsBlockLike_of_becomes {x' : Place} (h : x.kind.Becomes x'.kind)
    (hx : x.StartsBlockLike ↔ x.kind ∈ blockLikeStarts)
    (hx' : x'.StartsBlockLike ↔ x'.kind ∈ blockLikeStarts) :
    x'.StartsBlockLike ↔ x.StartsBlockLike := by
  rw [hx, hx']
  obtain ⟨heq | ⟨hk, heq⟩, -⟩ := h
  · rw [heq]
  · rw [hk, heq]
    decide

/-- After a type that begins with a name stands what comes after the name. -/
theorem Derives.nextKind_ty {a : Ty} (h : Derives resolve .ty ℓ b x a y)
    (hx : x.kind = .identifier) : x.nextKind = .pathSep ∨ x.nextKind = y.kind := by
  cases h with
  | tyPath hstart hp =>
    cases hp with
    | path ht hts =>
      cases hts with
      | eachNil hk h => exact .inr rfl
      | eachCons hk h ha has => exact .inl h
  | _ => simp_all

/-- A `self` parameter and others after it. -/
theorem SelfParam.reads_params {s : SelfParam} {ps : List TypedName} {m' : Names} {k' : TokenKind}
    (hs : Form.ReadsBack resolve .selfParam ℓ b n s k m) (hk : k.Follows .comma)
    (hps : Form.ReadsBack resolve (.list .round .param) ℓ b m ps k' m') (hnil : ps = [] → m' = m) :
    Form.ReadsBack resolve .params ℓ b n (some s, ps) k' m' := by
  intro ℓ' o hℓ ho
  cases ps with
  | nil =>
    obtain rfl := hnil rfl
    have hd := hs ℓ' (fixed .closeParen :: o) hℓ (.inr (by simp [closers]))
    simpa [Form.write, selfWrites, Written.list, Written.more] using Derives.paramsSelf hd rfl
  | cons p ps =>
    have hds := hps ℓ' o hℓ trivial
    have hd := hs ℓ' (fixed .comma :: ((Form.list .round .param).write (p :: ps) ++ o)) hℓ hk
    have hwrite : Form.params.write (some s, p :: ps) ++ o =
        s.write ++ fixed .comma :: ((Form.list .round .param).write (p :: ps) ++ o) := by
      simp [Form.write, selfWrites, Written.list, Written.more, Bracket.closing]
    rw [hwrite]
    exact .paramsMore hd rfl hds

/-- An arm and the comma after it. -/
theorem Arm.reads_cons {a : Arm} {as : List Arm} {m' : Names} {k' : TokenKind}
    (ha : Form.ReadsBack resolve .arm ℓ b n a k m) (hk : k.Follows .comma)
    (has : Form.ReadsBack resolve .arms ℓ b m as k' m') :
    Form.ReadsBack resolve .arms ℓ b n (a :: as) k' m' := by
  intro ℓ' o hℓ ho
  have hd := ha ℓ' (fixed .comma :: (Form.arms.write as ++ o)) hℓ hk
  simpa [Form.write] using Derives.armsComma hd rfl (has ℓ' o hℓ ho)

theorem TokenKind.Follows.not_mem_exprStarts {k' : TokenKind} (h : k.Follows k')
    (hk : k ∉ exprStarts) : k' ∉ exprStarts := by
  obtain ⟨rfl | ⟨rfl, rfl⟩, -⟩ | h := h
  · exact hk
  · exact absurd (by decide) hk
  · exact (by decide : ∀ k ∈ closers, k ∉ exprStarts) k' h

end

theorem Derives.readsBack {resolve b : Bool} {σ : Form} {ℓ : Nat} {x y : Place} {t : σ.Tree}
    (h : Derives resolve σ ℓ b x t y) :
    σ.ReadsBack resolve ℓ b x.names t y.kind y.names ∧
      σ.InnerReadsBack resolve ℓ b x.names t y.kind y.names := by
  induction h with
  -- tokens and lists
  | segment h => exact ⟨fun ℓ' o hℓ ho => .segment h, trivial⟩
  | name h => exact ⟨fun ℓ' o hℓ ho => .name h, trivial⟩
  | flagSet hk h => exact ⟨fun ℓ' o hℓ ho => .flagSet hk rfl, trivial⟩
  | flagUnset hk h => exact ⟨fun ℓ' o hℓ ho => .flagUnset hk (ho h), trivial⟩
  | afterNothing hk h =>
    exact ⟨fun ℓ' o hℓ ho => .afterNothing hk (ho.1.ne h (ne_closer_of_mem hk)), trivial⟩
  | afterSome hk h ha iha =>
    exact ⟨fun ℓ' o hℓ ho => .afterSome hk rfl (iha.1 ℓ' o hℓ ho.2), trivial⟩
  | eachNil hk h => exact ⟨fun ℓ' o hℓ ho => .eachNil hk (ho.1 h), trivial⟩
  | eachCons hk h ha has iha ihas =>
    refine ⟨fun ℓ' o hℓ ho => ?_, trivial⟩
    simp only [Form.write, Written.eachAfter, List.map_cons, List.flatMap_cons, List.cons_append,
      List.append_assoc]
    refine .eachCons hk rfl (iha.1 ℓ' _ hℓ ?_) (ihas.1 ℓ' o hℓ ho)
    obtain ⟨rfl, rfl⟩ | ⟨rfl, rfl⟩ := hk
    · trivial
    · exact has.follows_links ho.2
  | listNil h => exact ⟨fun ℓ' o hℓ ho => .listNil rfl, trivial⟩
  | listCons hl h ha has iha ihas =>
    refine ⟨fun ℓ' o hℓ ho => ?_, trivial⟩
    obtain ⟨hne, hd⟩ := iha.1.beforeMore hl hℓ o
    simp only [Form.write, Written.list, List.map_cons, List.append_assoc]
    exact .listCons hl hne hd (ihas.1 ℓ' o hℓ trivial)
  | moreNil h => exact ⟨fun ℓ' o hℓ ho => .moreNil rfl, trivial⟩
  | moreComma ht h => exact ⟨fun ℓ' o hℓ ho => .moreNil rfl, trivial⟩
  | moreCons hl ht h ha has iha ihas =>
    refine ⟨fun ℓ' o hℓ ho => ?_, trivial⟩
    obtain ⟨hne, hd⟩ := iha.1.beforeMore hl hℓ o
    have hwrite (first : List Token) (br : Bracket) (rest : List (List Token)) :
        Written.more br.closing (first :: rest) ++ o =
          fixed .comma :: (first ++ (Written.more br.closing rest ++ o)) := by
      simp [Written.more]
    simp only [Form.write, List.map_cons, hwrite]
    exact .moreCons hl rfl hne hd (ihas.1 ℓ' o hℓ trivial)
  | path h hts ihts =>
    exact ⟨fun ℓ' o hℓ ho => .path h (ihts.1 ℓ' o hℓ ⟨fun _ => ho, trivial⟩), trivial⟩
  -- types
  | tyPath h hp ihp =>
    have hkind (o : List Token) : kindAt ((Ty.path _).write ++ o) 0 = _ := hp.kind_path
    exact ⟨.succ fun ℓ' o hℓ ho => .tyPath (by rwa [← hkind o] at h) (ihp.1 ℓ' o hℓ ho), by rintro _ _ _ ⟨⟩⟩
  | tyReference h hm ha ihm iha =>
    rw [hm.names_flag] at iha
    refine ⟨Ty.reads_reference (Ty.reads_marked iha.1) iha.2, ?_⟩
    rintro _ _ _ ⟨⟩
    exact (Ty.reads_marked iha.1).mono
  | tyReferences h hm ha ihm iha =>
    rw [hm.names_flag] at iha
    constructor
    · refine .succ fun ℓ' o hℓ ho => ?_
      obtain ⟨hm, ha⟩ := Ty.reads_marked iha.1 ℓ' o hℓ ho
      simp only [Form.write, Ty.write, List.cons_append, List.append_assoc]
      exact .tyReferences rfl hm ha
    · rintro _ _ _ ⟨⟩
      exact Ty.reads_marked (Ty.reads_reference (Ty.reads_marked iha.1) iha.2)
  | tySlice h ha hc iha =>
    refine ⟨.succ fun ℓ' o hℓ ho => ?_, by rintro _ _ _ ⟨⟩⟩
    simp only [Form.write, Ty.write, List.cons_append, List.append_assoc, List.nil_append]
    exact .tySlice rfl (iha.1 ℓ' _ hℓ (by simp [Form.Follow])) rfl
  | tyArray h ha hs he hc iha ihe =>
    refine ⟨.succ fun ℓ' o hℓ ho => ?_, by rintro _ _ _ ⟨⟩⟩
    simp only [Form.write, Ty.write, List.cons_append, List.append_assoc, List.nil_append]
    exact .tyArray rfl (iha.1 ℓ' _ hℓ (by simp [Form.Follow])) rfl
      (ihe.1 ℓ' _ hℓ (Follows.mark hc o (by decide))) rfl
  | tyUnit h hc => exact ⟨.succ fun ℓ' o hℓ ho => .tyUnit rfl rfl, by rintro _ _ _ ⟨⟩⟩
  | tyParen h ha hc iha =>
    refine ⟨.succ fun ℓ' o hℓ ho => ?_, ?_⟩
    · exact iha.1 _ o (Nat.le_succ_of_le hℓ) ho
    · exact fun _ _ _ ht => (iha.2 _ _ _ ht).mono
  | tyTuple h ha hy has iha ihas =>
    exact ⟨Ty.reads_tuple iha.1 ihas.1 fun h => (h ▸ has).names_more_nil, by rintro _ _ _ ⟨⟩⟩
  | tyNever h => exact ⟨.succ fun ℓ' o hℓ ho => .tyNever h, by rintro _ _ _ ⟨⟩⟩
  | tyInferred h => exact ⟨.succ fun ℓ' o hℓ ho => .tyInferred h, by rintro _ _ _ ⟨⟩⟩
  -- patterns
  | patLiteral h => exact ⟨.succ fun ℓ' o hℓ ho => .patLiteral h, by rintro _ _ _ ⟨⟩⟩
  | patNegated h hl => exact ⟨.succ fun ℓ' o hℓ ho => .patNegated rfl hl, by rintro _ _ _ ⟨⟩⟩
  | patWildcard h => exact ⟨.succ fun ℓ' o hℓ ho => .patWildcard h, by rintro _ _ _ ⟨⟩⟩
  | patReference h hm hp ihm ihp =>
    rw [hm.names_flag] at ihp
    have hmarked := Pattern.reads_marked ihp.1 (hm.kind_ne_mut hp)
    refine ⟨Pattern.reads_reference hmarked ihp.2, ?_⟩
    rintro _ _ _ ⟨⟩
    exact hmarked.mono
  | patReferences h hm hp ihm ihp =>
    rw [hm.names_flag] at ihp
    have hmarked := Pattern.reads_marked ihp.1 (hm.kind_ne_mut hp)
    constructor
    · refine .succ fun ℓ' o hℓ ho => ?_
      obtain ⟨hm, hp⟩ := hmarked ℓ' o hℓ ho
      simp only [Form.write, Pattern.write, List.cons_append, List.append_assoc]
      exact .patReferences rfl hm hp
    · rintro _ _ _ ⟨⟩
      refine Pattern.reads_marked (Pattern.reads_reference hmarked ihp.2) fun _ o hmut => ?_
      obtain h | ⟨-, h⟩ := (becomes_reference_pattern _ _ _ o).1 <;> cases hmut.symm.trans h
  | patBinding h hr hm ht hs ihr ihm ihs =>
    refine ⟨.succ fun ℓ' o hℓ ho => ?_, by rintro _ _ _ ⟨⟩⟩
    have hstart := Derives.startsBinding h hr hm ht hs ho
    simp only [Form.write, Pattern.write, patternWrite?_eq_map, List.cons_append, List.append_assoc]
    refine .patBinding hstart (ihr.1 ℓ' _ hℓ ?_) (ihm.1 ℓ' _ hℓ ?_) ht (ihs.1 ℓ' o hℓ ⟨ho, ho⟩)
    · intro _
      cases hm <;> simp [Written.flag, ht]
    · simp [Form.Follow, ht]
  | patPath h hp hy ihp =>
    refine ⟨.succ fun ℓ' o hℓ ho => ?_, by rintro _ _ _ ⟨⟩⟩
    exact .patPath (hp.startsPath h ho fun h => absurd h hy) (ihp.1 ℓ' o hℓ ho.ne_pathSep) (ho.ne hy (by decide))
  | patTuple h hp ht hps ihp ihps =>
    refine ⟨.succ fun ℓ' o hℓ ho => ?_, by rintro _ _ _ ⟨⟩⟩
    simp only [Form.write, Pattern.write, patternWrites_eq_map, List.cons_append, List.append_assoc]
    exact .patTuple (hp.startsPath h (Follows.mark ht _ (by decide)) fun _ => rfl) (ihp.1 ℓ' _ hℓ (by simp [Form.Follow])) rfl
      (ihps.1 ℓ' o hℓ trivial)
  -- terms
  | expr he hs ihe ihs =>
    constructor
    · refine .succ fun ℓ' o hℓ ho => ?_
      simp only [Form.write, Suffix.write_foldl_attach, List.append_assoc]
      exact .expr (ihe.1 ℓ' _ hℓ (hs.follows_suffixes ho)) (ihs.1 ℓ' o hℓ ho)
    · intro mutable e sp ht
      obtain rfl := Suffix.eq_nil_of_borrow ht
      cases hs
      exact ihe.2 mutable e sp ht
  | suffixesNil h => exact ⟨fun ℓ' o hℓ ho => .suffixesNil (ho.tier h), trivial⟩
  | suffixesCons h hτ hs hss ihs ihss =>
    refine ⟨fun ℓ' o hℓ ho => ?_, trivial⟩
    simp only [Form.write, List.flatMap_cons, List.append_assoc]
    exact .suffixesCons (by rwa [Place.kind_mk, hs.kind_suffix]) hτ
      (ihs.1 ℓ' _ hℓ (hss.follows_suffixes ho)) (ihss.1 ℓ' o hℓ ho)
  | termLiteral h => exact ⟨fun ℓ' o hℓ ho => .termLiteral h, by rintro _ _ _ ⟨⟩⟩
  | termPath hp hy ihp =>
    refine ⟨fun ℓ' o hℓ ho => .termPath (ihp.1 ℓ' o hℓ ho.ne_pathSep) ?_, by rintro _ _ _ ⟨⟩⟩
    rintro ⟨hopen, hb⟩
    exact ho.ne (fun h => hy ⟨h, hb⟩) (by decide) hopen
  | termStruct hp ht hfs ihp ihfs =>
    refine ⟨fun ℓ' o hℓ ho => ?_, by rintro _ _ _ ⟨⟩⟩
    simp only [Form.write, Expr.write, fieldWrites_eq_map, List.cons_append, List.append_assoc]
    exact .termStruct (ihp.1 ℓ' _ hℓ (by simp [Form.Follow])) rfl (ihfs.1 ℓ' o hℓ trivial)
  | termUnary h he ihe => exact ⟨fun ℓ' o hℓ ho => .termUnary h (ihe.1 ℓ' o hℓ ho), by rintro _ _ _ ⟨⟩⟩
  | termDeref h he ihe => exact ⟨fun ℓ' o hℓ ho => .termDeref rfl (ihe.1 ℓ' o hℓ ho), by rintro _ _ _ ⟨⟩⟩
  | termBorrow h hm he ihm ihe =>
    rw [hm.names_flag] at ihe
    refine ⟨Expr.reads_borrow (Expr.reads_marked ihe.1) ihe.2, ?_⟩
    rintro _ _ _ ⟨⟩
    exact (Expr.reads_marked ihe.1).mono
  | termBorrows h hm he ihm ihe =>
    rw [hm.names_flag] at ihe
    constructor
    · intro ℓ' o hℓ ho
      obtain ⟨hm, he⟩ := Expr.reads_marked ihe.1 ℓ' o hℓ ho
      simp only [Form.write, Expr.write, List.cons_append, List.append_assoc]
      exact .termBorrows rfl hm he
    · rintro _ _ _ ⟨⟩
      exact Expr.reads_marked (Expr.reads_term (Expr.reads_borrow (Expr.reads_marked ihe.1) ihe.2)
        he.tier_next)
  | termGrouped h he hc ihe =>
    refine ⟨fun ℓ' o hℓ ho => ?_, by rintro _ _ _ ⟨⟩⟩
    simp only [Form.write, Expr.write, List.cons_append, List.append_assoc, List.nil_append]
    exact .termGrouped rfl (ihe.1 ℓ' _ hℓ (Follows.mark hc o (by decide))) rfl
  | termEmptyArray h hc => exact ⟨fun ℓ' o hℓ ho => .termEmptyArray rfl rfl, by rintro _ _ _ ⟨⟩⟩
  | termArray h he hes ihe ihes =>
    refine ⟨fun ℓ' o hℓ ho => ?_, by rintro _ _ _ ⟨⟩⟩
    obtain ⟨-, hd⟩ := ihe.1.beforeMore (c := .square) trivial hℓ o
    simp only [Form.write, Expr.write, exprWrites_eq_map, List.map_cons, Written.list,
      List.cons_append, List.append_assoc]
    exact .termArray rfl hd (ihes.1 ℓ' o hℓ trivial)
  | termRepeat h he hs hl hc ihe ihl =>
    refine ⟨fun ℓ' o hℓ ho => ?_, by rintro _ _ _ ⟨⟩⟩
    simp only [Form.write, Expr.write, List.cons_append, List.append_assoc, List.nil_append]
    exact .termRepeat rfl (ihe.1 ℓ' _ hℓ (Follows.mark hs _ (by decide))) rfl (ihl.1 ℓ' _ hℓ (Follows.mark hc o (by decide)))
      rfl
  | termUnderscore h => exact ⟨fun ℓ' o hℓ ho => .termUnderscore h, by rintro _ _ _ ⟨⟩⟩
  | termBreak h hv ihv =>
    refine ⟨fun ℓ' o hℓ ho => ?_, by rintro _ _ _ ⟨⟩⟩
    simp only [Form.write, Expr.write, exprWrite?_eq_map, List.cons_append]
    exact .termBreak rfl (ihv.1 ℓ' o hℓ ho)
  | termContinue h => exact ⟨fun ℓ' o hℓ ho => .termContinue h, by rintro _ _ _ ⟨⟩⟩
  | termReturn h hv ihv =>
    refine ⟨fun ℓ' o hℓ ho => ?_, by rintro _ _ _ ⟨⟩⟩
    simp only [Form.write, Expr.write, exprWrite?_eq_map, List.cons_append]
    exact .termReturn rfl (ihv.1 ℓ' o hℓ ho)
  | termBlock h ihb => exact ⟨fun ℓ' o hℓ ho => .termBlock (ihb.1 ℓ' o hℓ trivial), by rintro _ _ _ ⟨⟩⟩
  | termConst h hb ihb => exact ⟨fun ℓ' o hℓ ho => .termConst rfl (ihb.1 ℓ' o hℓ trivial), by rintro _ _ _ ⟨⟩⟩
  | termIf h ihc => exact ⟨fun ℓ' o hℓ ho => .termIf (ihc.1 ℓ' o hℓ ho), by rintro _ _ _ ⟨⟩⟩
  | termMatch h he ho has ihe ihas =>
    refine ⟨fun ℓ' o hℓ _ => ?_, by rintro _ _ _ ⟨⟩⟩
    simp only [Form.write, Expr.write, armWrites_eq_map, List.cons_append, List.append_assoc,
      List.nil_append]
    exact .termMatch rfl (ihe.1 ℓ' _ hℓ (Follows.mark ho _ (by decide))) rfl
      (by simpa [Form.write] using ihas.1 ℓ' o hℓ trivial)
  | termLoop h hb ihb => exact ⟨fun ℓ' o hℓ ho => .termLoop rfl (ihb.1 ℓ' o hℓ trivial), by rintro _ _ _ ⟨⟩⟩
  | termWhile h hc hb ihc ihb =>
    refine ⟨fun ℓ' o hℓ _ => ?_, by rintro _ _ _ ⟨⟩⟩
    simp only [Form.write, Expr.write, List.cons_append, List.append_assoc]
    exact .termWhile rfl (ihc.1 ℓ' _ hℓ hb.kind_block) (ihb.1 ℓ' o hℓ trivial)
  | fieldLong h hc he ihe =>
    exact ⟨fun ℓ' o hℓ ho => .fieldLong h rfl (ihe.1 ℓ' o hℓ ho), trivial⟩
  | fieldShort h hi => exact ⟨fun ℓ' o hℓ ho => .fieldShort h (ho.ne hi (by decide)), trivial⟩
  | jumpNothing h => exact ⟨fun ℓ' o hℓ ho => .jumpNothing (ho.not_mem_exprStarts h), trivial⟩
  | jumpValue h ihe => exact ⟨fun ℓ' o hℓ ho => .jumpValue (ihe.1 ℓ' o hℓ ho), trivial⟩
  -- suffixes
  | sufBinary h hτ he ihe => exact ⟨fun ℓ' o hℓ ho => .sufBinary h hτ (ihe.1 ℓ' o hℓ ho), trivial⟩
  | sufAssign h he ihe => exact ⟨fun ℓ' o hℓ ho => .sufAssign rfl (ihe.1 ℓ' o hℓ ho), trivial⟩
  | sufCompound h ht he ihe =>
    exact ⟨fun ℓ' o hℓ ho => .sufCompound h ht (ihe.1 ℓ' o hℓ ho), trivial⟩
  | sufCast h ha iha => exact ⟨fun ℓ' o hℓ ho => .sufCast rfl (iha.1 ℓ' o hℓ ho.ne_pathSep), trivial⟩
  | sufCall h hes ihes => exact ⟨fun ℓ' o hℓ ho => .sufCall rfl (ihes.1 ℓ' o hℓ trivial), trivial⟩
  | sufIndex h he hc ihe =>
    refine ⟨fun ℓ' o hℓ ho => ?_, trivial⟩
    simp only [Form.write, Suffix.write, List.cons_append, List.append_assoc, List.nil_append]
    exact .sufIndex rfl (ihe.1 ℓ' _ hℓ (Follows.mark hc o (by decide))) rfl
  | sufField h hf =>
    exact ⟨fun ℓ' o hℓ ho => .sufField rfl (hf.imp_right fun hf => ⟨hf.1, ho.ne hf.2 (by decide)⟩), trivial⟩
  | sufMethod h hf ho hes ihes =>
    exact ⟨fun ℓ' o hℓ _ => .sufMethod rfl hf rfl (ihes.1 ℓ' o hℓ trivial), trivial⟩
  -- blocks and statements
  | stmtExpr h he ihe =>
    refine ⟨fun ℓ' o hℓ ho => ?_, trivial⟩
    have hd := ihe.1 ℓ' o hℓ ho
    refine .stmtExpr (mt (Place.startsBlockLike_of_becomes (he.becomes trivial o) ?_ ?_).1 h) hd
    · exact he.startsBlockLike_iff_expr
    · exact hd.startsBlockLike_iff_expr
  | stmtBlockLike h he hy ihe =>
    refine ⟨.succ fun ℓ' o hℓ ho => ?_, trivial⟩
    have hd := ihe.1 ℓ' o hℓ ho
    refine .stmtBlockLike ?_ hd (ho.ne hy (by decide))
    exact (Place.startsBlockLike_of_becomes (he.becomes trivial o) he.startsBlockLike_iff
      hd.startsBlockLike_iff).2 h
  | stmtMember h he hy hs ihe ihs =>
    refine ⟨.succ fun ℓ' o hℓ ho => ?_, trivial⟩
    have hd := ihe.1 ℓ' _ hℓ (hs.follows_suffixes ho)
    have hdot : kindAt ((Form.suffixes .lowest).write _ ++ o) 0 = .dot :=
      (hs.kind_suffixes (congrArg TokenKind.tier? hy) (by decide)).trans hy
    simp only [Form.write, Suffix.write_foldl_attach, List.append_assoc]
    refine .stmtMember ?_ hd hdot (ihs.1 ℓ' o hℓ ho)
    exact (Place.startsBlockLike_of_becomes (he.becomes trivial _) he.startsBlockLike_iff
      hd.startsBlockLike_iff).2 h
  | block h hs ihs =>
    refine ⟨.succ fun ℓ' o hℓ _ => ?_, trivial⟩
    have hd := ihs.1 ℓ' o hℓ trivial
    simp only [Form.write, List.append_assoc] at hd
    simp only [Form.write, Block.write, stmtWrites_eq_map, exprWrite?_eq_map, List.cons_append,
      List.append_assoc]
    exact .block rfl hd
  | elementsNil h => exact ⟨fun ℓ' o hℓ ho => .elementsNil rfl, trivial⟩
  | elementsTail h he hc ihe =>
    refine ⟨.succ fun ℓ' o hℓ _ => ?_, trivial⟩
    have hd := ihe.1 ℓ' (fixed .closeCurly :: o) hℓ (Follows.mark hc o (by decide))
    simp only [Form.write, List.map_nil, List.flatten_nil, Option.map_some, Option.getD_some,
      List.nil_append, List.append_assoc, List.cons_append]
    exact .elementsTail hd.not_startsStatement hd rfl
  | elementsCons hs hss ihs ihss =>
    refine ⟨.succ fun ℓ' o hℓ _ => ?_, trivial⟩
    have hds := ihss.1 (ℓ' + 1) o (Nat.succ_le_succ hℓ) trivial
    have hd := ihs.1 ℓ' _ hℓ (hss.becomes trivial o)
    have hcons := Derives.elementsCons hd hds
    simpa [Form.write] using hcons
  | elementStmt h hs ihs =>
    refine ⟨fun ℓ' o hℓ ho => ?_, trivial⟩
    have hd := ihs.1 ℓ' o hℓ trivial
    exact .elementStmt hd.startsStatement hd
  | elementExpr h he hs ihe =>
    refine ⟨fun ℓ' o hℓ _ => ?_, trivial⟩
    have hd := ihe.1 ℓ' (fixed .semicolon :: o) hℓ (Follows.mark hs o (by decide))
    simp only [Form.write, Stmt.write, Written.flag, if_true, List.append_assoc, List.cons_append,
      List.nil_append]
    exact .elementExpr hd.not_startsStatement hd rfl
  | elementBlockLike h he hs hc hb ihe =>
    refine ⟨fun ℓ' o hℓ ho => ?_, trivial⟩
    have hfollow : TokenKind.Follows _ (kindAt o 0) := .inl ho
    have hd := ihe.1 ℓ' o hℓ hfollow
    have hcurly : kindAt o 0 ≠ .closeCurly := by
      rintro heq
      obtain h | ⟨-, h⟩ := ho.1
      · exact hc (h.symm.trans heq)
      · cases heq.symm.trans h
    simp only [Form.write, Stmt.write, Written.flag, List.append_assoc]
    exact .elementBlockLike hd.not_startsStatement hd (hfollow.ne hs (by decide)) hcurly hb
  | stmtEmpty h => exact ⟨fun ℓ' o hℓ ho => .stmtEmpty rfl, trivial⟩
  | stmtItem h ih => exact ⟨fun ℓ' o hℓ ho => .stmtItem (ih.1 ℓ' o hℓ trivial), trivial⟩
  | stmtLet h hp ha hv hs ihp iha ihv =>
    refine ⟨fun ℓ' o hℓ _ => ?_, trivial⟩
    have hfollow := hv.follows_after (Follows.mark hs o (by decide))
    simp only [Form.write, Stmt.write, tyWrite?_eq_map, exprWrite?_eq_map, List.cons_append,
      List.append_assoc, List.nil_append]
    exact .stmtLet rfl (ihp.1 ℓ' _ hℓ (ha.follows_after hfollow))
      (iha.1 ℓ' _ hℓ ⟨hfollow, hfollow.ne_pathSep⟩)
      (ihv.1 ℓ' _ hℓ ⟨Follows.mark hs o (by decide), Follows.mark hs o (by decide)⟩) rfl
  -- conditions and branches
  | linkLet h hp hs hv ihp ihv =>
    refine ⟨fun ℓ' o hℓ ho => ?_, trivial⟩
    simp only [Form.write, Link.write, List.cons_append, List.append_assoc]
    exact .linkLet rfl (ihp.1 ℓ' _ hℓ (Follows.mark hs _ (by decide))) rfl (ihv.1 ℓ' o hℓ ho)
  | linkOfLet h ih => exact ⟨fun ℓ' o hℓ ho => .linkOfLet (ih.1 ℓ' o hℓ ho), trivial⟩
  | linkTest h ihv => exact ⟨fun ℓ' o hℓ ho => .linkTest (ihv.1 ℓ' o hℓ ho), trivial⟩
  | condExpr h ihe =>
    exact ⟨fun ℓ' o hℓ ho => .condExpr (ihe.1 ℓ' o hℓ (.inl ⟨.inl ho.1, ho.2⟩)), trivial⟩
  | condLet hl hls ihl ihls =>
    refine ⟨fun ℓ' o hℓ ho => ?_, trivial⟩
    have hfollow : TokenKind.Follows _ (kindAt o 0) := .inl ⟨.inl ho.1, ho.2⟩
    simp only [Form.write, Condition.write, linkWrites_eq_map, List.append_assoc]
    exact .condLet (ihl.1 ℓ' _ hℓ (hls.follows_links hfollow))
      (ihls.1 ℓ' o hℓ ⟨fun h => ho.1 ▸ h, hfollow⟩)
  | conditional h hc hb ho ihc ihb iho =>
    refine ⟨fun ℓ' o hℓ hfollow => ?_, trivial⟩
    simp only [Form.write, Conditional.write, List.cons_append, List.append_assoc]
    exact .conditional rfl (ihc.1 ℓ' _ hℓ hb.kind_block) (ihb.1 ℓ' _ hℓ trivial)
      (iho.1 ℓ' o hℓ hfollow)
  | elseNothing h => exact ⟨fun ℓ' o hℓ ho => .elseNothing (ho.ne h (by decide)), trivial⟩
  | elseIf h hc ihc => exact ⟨.succ fun ℓ' o hℓ ho => .elseIf rfl (ihc.1 ℓ' o hℓ ho), trivial⟩
  | elseBlock h hb ihb =>
    exact ⟨fun ℓ' o hℓ ho => .elseBlock rfl (ihb.1 ℓ' o hℓ trivial), trivial⟩
  | arm hp hg hf he ihp ihg ihe =>
    refine ⟨.succ fun ℓ' o hℓ ho => ?_, trivial⟩
    simp only [Form.write, Arm.write, exprWrite?_eq_map, List.cons_append, List.append_assoc]
    exact .arm (ihp.1 ℓ' _ hℓ (hg.follows_after (Follows.mark hf _ (by decide))))
      (ihg.1 ℓ' _ hℓ ⟨Follows.mark hf _ (by decide), Follows.mark hf _ (by decide)⟩) rfl (ihe.1 ℓ' o hℓ ho)
  | armsNil h => exact ⟨fun ℓ' o hℓ ho => .armsNil rfl, trivial⟩
  | armsComma ha ht has iha ihas =>
    exact ⟨Arm.reads_cons iha.1 (Follows.mark ht [] (by decide)) ihas.1, trivial⟩
  | armsBare ha hy hc has iha ihas => exact ⟨Arm.reads_cons iha.1 (.closer _ (by decide)) ihas.1, trivial⟩
  -- items
  | typedName h hc ha iha => exact ⟨fun ℓ' o hℓ ho => .typedName h rfl (iha.1 ℓ' o hℓ ho), trivial⟩
  | param h hc ha iha => exact ⟨fun ℓ' o hℓ ho => .param h rfl (iha.1 ℓ' o hℓ ho), trivial⟩
  | selfReference h hm hs ihm =>
    refine ⟨fun ℓ' o hℓ ho => ?_, trivial⟩
    simp only [Form.write, SelfParam.write, tyWrite?_eq_map, List.cons_append, List.append_assoc]
    exact .selfReference rfl (ihm.1 ℓ' _ hℓ fun _ => by simp) rfl
  | selfValue hm hs ha ihm iha =>
    refine ⟨fun ℓ' o hℓ ho => ?_, trivial⟩
    simp only [Form.write, SelfParam.write, tyWrite?_eq_map, List.cons_append, List.append_assoc]
    exact .selfValue (ihm.1 ℓ' _ hℓ fun _ => by simp) rfl (iha.1 ℓ' o hℓ ⟨ho, ho.ne_pathSep⟩)
  | paramsPlain h ih => exact ⟨fun ℓ' o hℓ ho => .paramsPlain (ih.1 ℓ' o hℓ trivial), trivial⟩
  | paramsSelf h hc ih =>
    refine ⟨fun ℓ' o hℓ _ => ?_, trivial⟩
    have hd := ih.1 ℓ' (fixed .closeParen :: o) hℓ (Follows.mark hc o (by decide))
    simpa [Form.write, selfWrites, Written.list, Written.more] using Derives.paramsSelf hd rfl
  | paramsMore h ht hps ih ihps =>
    exact ⟨SelfParam.reads_params ih.1 (Follows.mark ht [] (by decide)) ihps.1 fun h => (h ▸ hps).names_list_nil,
      trivial⟩
  | signature h => exact ⟨fun ℓ' o hℓ ho => .signature rfl, trivial⟩
  | body h ihb => exact ⟨fun ℓ' o hℓ ho => .body (ihb.1 ℓ' o hℓ trivial), trivial⟩
  | function hc hf ht hp hps hr hb ihc ihps ihr ihb =>
    refine ⟨fun ℓ' o hℓ _ => ?_, trivial⟩
    simp only [Form.write, FunctionDecl.write, typedNameWrites_eq_map, tyWrite?_eq_map,
      blockWrite?_eq_map, List.cons_append, List.append_assoc]
    have hfollow := hb.follows trivial (o := o)
    exact .function (ihc.1 ℓ' _ hℓ fun _ => by simp) rfl ht rfl (ihps.1 ℓ' _ hℓ trivial)
      (ihr.1 ℓ' _ hℓ ⟨hfollow, hfollow.ne_pathSep⟩) (ihb.1 ℓ' o hℓ trivial)
  | constant h hc hd ha hv hn hs iha ihv =>
    refine ⟨fun ℓ' o hℓ _ => ?_, trivial⟩
    have hfollow := hv.follows_after (Follows.mark hs o (by decide))
    simp only [Form.write, ConstantDecl.write, exprWrite?_eq_map, List.cons_append,
      List.append_assoc, List.nil_append]
    exact .constant rfl hc rfl (iha.1 ℓ' _ hℓ hfollow.ne_pathSep)
      (ihv.1 ℓ' _ hℓ ⟨Follows.mark hs o (by decide), Follows.mark hs o (by decide)⟩) hn rfl
  | memberFunction h ih => exact ⟨fun ℓ' o hℓ ho => .memberFunction (ih.1 ℓ' o hℓ trivial), trivial⟩
  | memberConstant h ih => exact ⟨fun ℓ' o hℓ ho => .memberConstant (ih.1 ℓ' o hℓ trivial), trivial⟩
  | membersNil h => exact ⟨fun ℓ' o hℓ ho => .membersNil rfl, trivial⟩
  | membersCons ha has iha ihas =>
    refine ⟨fun ℓ' o hℓ _ => ?_, trivial⟩
    simp only [Form.write, List.map_cons, List.flatten_cons, List.append_assoc]
    have hds := ihas.1 ℓ' o hℓ trivial
    simp only [Form.write, List.append_assoc] at hds
    exact .membersCons (iha.1 ℓ' _ hℓ trivial) hds
  | itemFunction h ih => exact ⟨fun ℓ' o hℓ ho => .itemFunction (ih.1 ℓ' o hℓ trivial), trivial⟩
  | itemConstant h ih => exact ⟨fun ℓ' o hℓ ho => .itemConstant (ih.1 ℓ' o hℓ trivial), trivial⟩
  | itemUnit h hc hs => exact ⟨fun ℓ' o hℓ ho => .itemUnit rfl hc rfl, trivial⟩
  | itemStruct h hc ho hfs ihfs =>
    refine ⟨fun ℓ' o hℓ _ => ?_, trivial⟩
    simp only [Form.write, Item.write, typedNameWrites_eq_map, List.cons_append]
    exact .itemStruct rfl hc rfl (ihfs.1 ℓ' o hℓ trivial)
  | itemEnum h hc ho hvs ihvs =>
    exact ⟨fun ℓ' o hℓ _ => .itemEnum rfl hc rfl (ihvs.1 ℓ' o hℓ trivial), trivial⟩
  | itemTrait h hc ho hms ihms =>
    refine ⟨fun ℓ' o hℓ _ => ?_, trivial⟩
    simp only [Form.write, Item.write, memberWrites_eq_map, List.cons_append]
    exact .itemTrait rfl hc rfl (ihms.1 ℓ' o hℓ trivial)
  | itemImpl h hi ha ho hms iha ihms =>
    refine ⟨fun ℓ' o hℓ _ => ?_, trivial⟩
    have hds := ihms.1 ℓ' o hℓ trivial
    simp only [Form.write, List.append_assoc] at hds
    simp only [Form.write, Item.write, memberWrites_eq_map, List.cons_append, List.append_assoc]
    refine .itemImpl rfl ?_ (iha.1 ℓ' _ hℓ (by simp [Form.Follow])) rfl hds
    rintro ⟨hident, hfor⟩
    obtain hnext | hnext := (iha.1 ℓ' _ hℓ (by simp [Form.Follow])).nextKind_ty hident <;>
      cases hfor.symm.trans hnext
  | itemImplFor h hc hf ha ho hms iha ihms =>
    refine ⟨fun ℓ' o hℓ _ => ?_, trivial⟩
    have hds := ihms.1 ℓ' o hℓ trivial
    simp only [Form.write, List.append_assoc] at hds
    simp only [Form.write, Item.write, memberWrites_eq_map, List.cons_append, List.append_assoc]
    exact .itemImplFor rfl hc rfl (iha.1 ℓ' _ hℓ (by simp [Form.Follow])) rfl hds
  | declaredItem h ih => exact ⟨fun ℓ' o hℓ ho => .declaredItem (ih.1 ℓ' o hℓ trivial), trivial⟩
  | itemsNil h => exact ⟨fun ℓ' o hℓ ho => .itemsNil (ho.trans h), trivial⟩
  | itemsCons ha has iha ihas =>
    refine ⟨fun ℓ' o hℓ ho => ?_, trivial⟩
    simp only [Form.write, List.map_cons, List.flatten_cons, List.append_assoc]
    exact .itemsCons (iha.1 ℓ' _ hℓ trivial) (ihas.1 ℓ' o hℓ ho)

end FrontEnd
