import FrontEnd.Proofs.Brackets
import FrontEnd.Proofs.Precedence
/-!
# Casts that a call, an index or a member is attached to

What stands after a cast attaches to the cast: the right side of a cast is a type, so there is no
operand that it could attach to instead. Calls, indices and members are no exception, though they
bind more tightly. Which casts they attach to shows in the tokens: those whose type is directly
followed by a parenthesis, a bracket or a dot.
-/
namespace FrontEnd

def postfixStarts : List TokenKind := [.openParen, .openBracket, .dot]

/-- What is called or indexed, or has the member. -/
def Expr.base? : Expr → Option Expr
  | call e _ _ | index e _ _ | field e _ _ | methodCall e _ _ _ => some e
  | _ => none

/-- A call, an index or a member of a cast that is not in parentheses. -/
def Node.HasCastBase : Node → Prop
  | expr e => ∃ base ∈ e.base?, base.isCast = true
  | _ => False

/-- Somewhere in the nodes a call, an index or a member is attached to a cast. -/
def SomeCastBase (ns : List Node) : Prop := ∃ n ∈ ns, ∃ m : Node, m.Within n ∧ m.HasCastBase

/-- Before the end of the tokens is an `as` with a parenthesis, a bracket or a dot right after its
type. -/
def castGoesOn : List Token → Bool
  | [] => false
  | t :: i =>
    t.kind ≠ .eof && (t.kind = .kwAs && kindAt (afterType i) 0 ∈ postfixStarts || castGoesOn i)

theorem castGoesOn_other {t : Token} {k : TokenKind} (h : t.kind = k) (hk : k ∉ [.eof, .kwAs])
    (i : List Token) : castGoesOn (t :: i) = castGoesOn i := by
  subst h
  simp only [List.mem_cons, List.not_mem_nil, or_false, not_or] at hk
  simp [castGoesOn, hk]

theorem castGoesOn_as {t : Token} (h : t.kind = .kwAs) (i : List Token) :
    castGoesOn (t :: i) = true ↔
      kindAt (afterType i) 0 ∈ postfixStarts ∨ castGoesOn i = true := by
  simp [castGoesOn, h]

section

variable {n : Node} {ns ms : List Node}

@[simp] theorem someCastBase_nil : SomeCastBase [] ↔ False := by simp [SomeCastBase]

@[simp] theorem someCastBase_append :
    SomeCastBase (ns ++ ms) ↔ SomeCastBase ns ∨ SomeCastBase ms := by
  simp [SomeCastBase, or_and_right, exists_or]

theorem someCastBase_singleton :
    SomeCastBase [n] ↔ n.HasCastBase ∨ SomeCastBase n.children := by
  simp only [SomeCastBase, List.mem_singleton, exists_eq_left]
  constructor
  · rintro ⟨m, hm, hbase⟩
    cases hm with
    | self => exact .inl hbase
    | inChild hc hm => exact .inr ⟨_, hc, m, hm, hbase⟩
  · rintro (hbase | ⟨c, hc, m, hm, hbase⟩)
    · exact ⟨n, .self n, hbase⟩
    · exact ⟨m, .inChild hc hm, hbase⟩

theorem someCastBase_cons : SomeCastBase (n :: ns) ↔ SomeCastBase [n] ∨ SomeCastBase ns :=
  @someCastBase_append [n] ns

@[simp] theorem someCastBase_cons_cons {m : Node} :
    SomeCastBase (n :: m :: ns) ↔ SomeCastBase [n] ∨ SomeCastBase (m :: ns) := someCastBase_cons

@[simp] theorem someCastBase_cons_append :
    SomeCastBase (n :: (ns ++ ms)) ↔ SomeCastBase [n] ∨ SomeCastBase ns ∨ SomeCastBase ms := by
  rw [someCastBase_cons, someCastBase_append]

@[simp] theorem someCastBase_cons_map {α : Type} {f : α → Node} {as : List α} :
    SomeCastBase (n :: as.map f) ↔ SomeCastBase [n] ∨ SomeCastBase (as.map f) := someCastBase_cons

theorem someCastBase_node (h : ¬n.HasCastBase) : SomeCastBase [n] ↔ SomeCastBase n.children := by
  rw [someCastBase_singleton, or_iff_right h]

theorem someCastBase_expr {e : Expr} (h : e.base? = none) :
    SomeCastBase [.expr e] ↔ SomeCastBase e.children :=
  someCastBase_node (by simp [Node.HasCastBase, h])

end

namespace Suffix

def isCast : Suffix → Bool
  | cast _ => true
  | _ => false

def isPostfix : Suffix → Bool
  | call _ _ | index _ _ | field _ | methodCall _ _ _ => true
  | _ => false

/-- Among some suffixes a cast is directly followed by a call, an index or a member. -/
def GoOn : List Suffix → Prop
  | s :: s' :: ss => s.isCast = true ∧ s'.isPostfix = true ∨ GoOn (s' :: ss)
  | _ => False

theorem goOn_cons {s : Suffix} {ss : List Suffix} : GoOn (s :: ss) ↔
    s.isCast = true ∧ (∃ s' ∈ ss.head?, s'.isPostfix = true) ∨ GoOn ss := by
  cases ss <;> simp [GoOn]

theorem isCast_attach (s : Suffix) (e : Expr) : (s.attach e).isCast = s.isCast := by
  cases s <;> rfl

theorem hasCastBase_attach (s : Suffix) (e : Expr) :
    (Node.expr (s.attach e)).HasCastBase ↔ e.isCast = true ∧ s.isPostfix = true := by
  cases s <;> simp [attach, Node.HasCastBase, Expr.base?, isPostfix]

/-- Where a chain of suffixes attaches to a cast. -/
theorem someCastBase_foldl {ss : List Suffix} {e : Expr} :
    SomeCastBase [.expr (ss.foldl attach e)] ↔ SomeCastBase [.expr e] ∨
      SomeCastBase (ss.flatMap nodes) ∨
      (e.isCast = true ∧ ∃ s ∈ ss.head?, s.isPostfix = true) ∨ GoOn ss := by
  induction ss generalizing e with
  | nil => simp [GoOn]
  | cons s ss ih =>
    have hattach : SomeCastBase [.expr (s.attach e)] ↔
        (e.isCast = true ∧ s.isPostfix = true) ∨ SomeCastBase [.expr e] ∨ SomeCastBase s.nodes := by
      rw [someCastBase_singleton, hasCastBase_attach, Node.children, children_attach,
        ← List.singleton_append, someCastBase_append]
    rw [List.foldl_cons, ih, hattach, isCast_attach, goOn_cons]
    simp only [List.flatMap_cons, someCastBase_append, List.head?_cons, Option.mem_some_iff,
      exists_eq_left']
    grind

end Suffix

variable {resolve : Bool} {ℓ : Nat} {b : Bool} {x y z : Place}

namespace Derives

theorem isPostfix_iff {s : Suffix} (h : Derives resolve .suffix ℓ b x s y) :
    s.isPostfix = true ↔ x.kind ∈ postfixStarts := by
  have other {k : TokenKind} {τ : Tier} (hk : k.tier? = some τ) (hτ : τ ∉ [Tier.call, .member]) :
      k ∉ postfixStarts := by
    cases k <;> cases hk <;> first | decide | exact absurd hτ (by decide)
  cases h with
  | sufBinary h hτ _ =>
    have hk := other h fun hmem => hτ (by simp_all)
    simpa [Suffix.isPostfix] using hk
  | sufCompound h _ _ =>
    have hk := other h (by decide)
    simpa [Suffix.isPostfix] using hk
  | sufAssign h _ | sufCast h _ | sufCall h _ | sufIndex h _ _ | sufField h _ | sufMethod h _ _ _ =>
    simp [Suffix.isPostfix, h, postfixStarts]

theorem kind_of_isCast {s : Suffix} (h : Derives resolve .suffix ℓ b x s y) (hs : s.isCast = true) :
    x.kind = .kwAs := by
  cases h with
  | sufCast h _ => exact h
  | _ => cases hs

/-- After a cast the next suffix begins, if what stands there begins a call, an index or a member. -/
theorem goes_on {above τ : Tier} {s : Suffix} {ss : List Suffix} (hτ : x.kind.tier? = some τ)
    (habove : above < τ) (h : Derives resolve .suffix ℓ b x s y)
    (hss : Derives resolve (.suffixes above) ℓ b y ss z) :
    s.isCast = true ∧ y.kind ∈ postfixStarts ↔
      s.isCast = true ∧ ∃ s' ∈ ss.head?, s'.isPostfix = true := by
  refine and_congr_right fun hs => ?_
  cases hss with
  | suffixesNil hends =>
    refine ⟨fun hmem => ?_, by simp⟩
    rw [h.kind_of_isCast hs] at hτ
    obtain rfl : Tier.cast = τ := Option.some.inj hτ
    obtain ⟨τ', hτ', hlt⟩ : ∃ τ', y.kind.tier? = some τ' ∧ Tier.cast < τ' := by
      simp only [postfixStarts, List.mem_cons, List.not_mem_nil, or_false] at hmem
      rcases hmem with hk | hk | hk <;> rw [hk] <;> exact ⟨_, rfl, by decide⟩
    exact absurd (Nat.lt_trans habove hlt) (hends τ' hτ')
  | suffixesCons _ _ hs' _ => simpa using hs'.isPostfix_iff.symm

theorem term_not_cast {e : Expr} (h : Derives resolve .term ℓ b x e y) : e.isCast = false := by
  cases h <;> rfl

end Derives

/-- What a form leaves open: a cast whose type ends where the form does, and goes on there. -/
def Form.GoesOn : (σ : Form) → σ.Tree → Place → Prop
  | after _ form, a, y => ∃ t ∈ a, form.GoesOn t y
  | suffix, s, y => s.isCast = true ∧ y.kind ∈ postfixStarts
  | suffixes _, ss, _ => Suffix.GoOn ss
  | _, _, _ => False

theorem Form.Listed.not_goesOn {σ : Form} (h : σ.Listed) (t : σ.Tree) (y : Place) :
    ¬σ.GoesOn t y := by
  cases σ <;> first | exact id | exact h.elim

theorem Form.Joined.not_mem {σ : Form} {k : TokenKind} (h : σ.Joined k) :
    k ∉ [TokenKind.eof, .kwAs] := by
  obtain ⟨rfl, -⟩ | ⟨rfl, -⟩ := h <;> decide

theorem Form.Joined.not_goesOn {σ : Form} {k : TokenKind} (h : σ.Joined k) (t : σ.Tree) (y : Place) :
    ¬σ.GoesOn t y := by
  obtain ⟨-, rfl⟩ | ⟨-, rfl⟩ := h <;> exact id

@[simp] theorem flatMap_singleton_node {α : Type} (f : α → Node) (as : List α) :
    (as.flatMap fun a => [f a]) = as.map f := List.map_eq_flatMap.symm

@[simp] theorem flatMap_no_node {α : Type} (as : List α) :
    (as.flatMap fun _ => ([] : List Node)) = [] := List.flatMap_eq_nil_iff.mpr fun _ _ => rfl

attribute [local simp] Form.nodes Form.GoesOn Node.children Ty.children Pattern.children
attribute [local simp] Expr.children Stmt.children Condition.children Otherwise.children
attribute [local simp] Item.children Suffix.nodes

/-- The tokens that are passed have a cast that goes on exactly if the tree has a cast that something
is attached to, or leaves one open. -/
theorem Derives.castGoesOn_iff {σ : Form} {t : σ.Tree} (h : Derives resolve σ ℓ b x t y) :
    castGoesOn x.rest = true ↔
      SomeCastBase (σ.nodes t) ∨ σ.GoesOn t y ∨ castGoesOn y.rest = true := by
  have other {t : Token} {k : TokenKind} (h : t.kind = k) (hk : decide (k ∉ [.eof, .kwAs]) = true)
      (i : List Token) : castGoesOn (t :: i) = castGoesOn i :=
    castGoesOn_other h (of_decide_eq_true hk) i
  have other_mem {t : Token} {K : List TokenKind} (h : t.kind ∈ K)
      (hK : K.all (· ∉ [TokenKind.eof, .kwAs]) = true) (i : List Token) :
      castGoesOn (t :: i) = castGoesOn i :=
    castGoesOn_other rfl (of_decide_eq_true (List.all_eq_true.1 hK _ h)) i
  have closing {t : Token} {br : Bracket} (h : t.kind = br.closing) (i : List Token) :
      castGoesOn (t :: i) = castGoesOn i := other h (by cases br <;> rfl) i
  have operator {t : Token} {τ : Tier} (h : t.kind.tier? = some τ) (hτ : τ ≠ .cast) (i : List Token) :
      castGoesOn (t :: i) = castGoesOn i := by
    refine castGoesOn_other rfl ?_ i
    generalize t.kind = k at h
    cases k <;> cases h <;> first | decide | exact absurd rfl hτ
  have literal {t : Token} (h : t.kind.isLiteral = true) (i : List Token) :
      castGoesOn (t :: i) = castGoesOn i :=
    other_mem (K := [.integer, .char, .string, .kwTrue, .kwFalse])
      (by simpa [TokenKind.isLiteral] using h) rfl i
  induction h with
  -- tokens and lists
  | segment h => simp [other_mem h rfl]
  | name h => simp [other h rfl]
  | flagSet hk h => simp [other_mem (h ▸ hk) rfl]
  | flagUnset hk h => simp
  | afterNothing hk h => simp
  | afterSome hk h ha iha => simp [other_mem (h ▸ hk) rfl, iha]
  | eachNil hk h => simp
  | eachCons hk h ha has iha ihas =>
    have hseparator := castGoesOn_other (k := _) h hk.not_mem
    simp [hseparator, hk.not_goesOn, iha, ihas, or_assoc]
  | listNil h => simp [closing h]
  | listCons hl h ha has iha ihas => simp [hl.not_goesOn, iha, ihas, or_assoc]
  | moreNil h => simp [closing h]
  | moreComma ht h => simp [other ht rfl, closing h]
  | moreCons hl ht h ha has iha ihas => simp [other ht rfl, hl.not_goesOn, iha, ihas, or_assoc]
  | path h hts ihts =>
    rw [Form.nodes, someCastBase_node id]
    simp [other_mem h rfl, ihts]
  -- types
  | tyPath h hp ihp =>
    rw [Form.nodes, someCastBase_node id]
    exact ihp
  | tyReference h hm ha ihm iha =>
    rw [Form.nodes, someCastBase_node id]
    simp [other h rfl, ihm, iha]
  | tyReferences h hm ha ihm iha =>
    rw [Form.nodes, someCastBase_node id, Node.children, Ty.children, someCastBase_node id]
    simp [other h rfl, ihm, iha]
  | tySlice h ha hc iha =>
    rw [Form.nodes, someCastBase_node id]
    simp [other h rfl, iha, other hc rfl]
  | tyArray h ha hs he hc iha ihe =>
    rw [Form.nodes, someCastBase_node id]
    simp [other h rfl, iha, other hs rfl, ihe, other hc rfl, or_assoc]
  | tyUnit h hc =>
    rw [Form.nodes, someCastBase_node id]
    simp [other h rfl, other hc rfl]
  | tyParen h ha hc iha => simp [other h rfl, iha, other hc rfl]
  | tyTuple h ha hy has iha ihas =>
    rw [Form.nodes, someCastBase_node id]
    simp [other h rfl, iha, ihas, or_assoc]
  | tyNever h =>
    rw [Form.nodes, someCastBase_node id]
    simp [other h rfl]
  | tyInferred h =>
    rw [Form.nodes, someCastBase_node id]
    simp [other h rfl]
  -- patterns
  | patLiteral h =>
    rw [Form.nodes, someCastBase_node id]
    simp [literal h]
  | patNegated h hl =>
    rw [Form.nodes, someCastBase_node id]
    simp [other h rfl, other hl rfl]
  | patWildcard h =>
    rw [Form.nodes, someCastBase_node id]
    simp [other h rfl]
  | patReference h hm hp ihm ihp =>
    rw [Form.nodes, someCastBase_node id]
    simp [other h rfl, ihm, ihp]
  | patReferences h hm hp ihm ihp =>
    rw [Form.nodes, someCastBase_node id, Node.children, Pattern.children, someCastBase_node id]
    simp [other h rfl, ihm, ihp]
  | patBinding h hr hm ht hs ihr ihm ihs =>
    rw [Form.nodes, someCastBase_node id]
    simp [ihr, ihm, other ht rfl, ihs]
  | patPath h hp hy ihp =>
    rw [Form.nodes, someCastBase_node id]
    exact ihp
  | patTuple h hp ht hps ihp ihps =>
    rw [Form.nodes, someCastBase_node id]
    simp [ihp, other ht rfl, ihps, or_assoc]
  -- terms
  | expr he hs ihe ihs =>
    rw [Form.nodes, Suffix.someCastBase_foldl]
    simp [he.term_not_cast, ihe, ihs, or_assoc]
  | suffixesNil h => simp [Suffix.GoOn]
  | suffixesCons h hτ hs hss ihs ihss =>
    simp only [ihs, ihss, Form.nodes, Form.GoesOn, List.flatMap_cons, someCastBase_append,
      Suffix.goOn_cons, hs.goes_on h hτ hss, or_assoc]
    grind
  | termLiteral h =>
    rw [Form.nodes, someCastBase_expr rfl]
    simp [literal h]
  | termPath hp hy ihp =>
    rw [Form.nodes, someCastBase_expr rfl]
    exact ihp
  | termStruct hp ht hfs ihp ihfs =>
    rw [Form.nodes, someCastBase_expr rfl]
    simp [ihp, other ht rfl, ihfs, or_assoc]
  | termUnary h he ihe =>
    rw [Form.nodes, someCastBase_expr rfl]
    have hmark := other_mem (K := [.dash, .bang]) (by simpa using h) rfl
    simp [hmark, ihe]
  | termDeref h he ihe =>
    rw [Form.nodes, someCastBase_expr rfl]
    simp [other h rfl, ihe]
  | termBorrow h hm he ihm ihe =>
    rw [Form.nodes, someCastBase_expr rfl]
    simp [other h rfl, ihm, ihe]
  | termBorrows h hm he ihm ihe =>
    rw [Form.nodes, someCastBase_expr rfl, Expr.children, someCastBase_expr rfl]
    simp [other h rfl, ihm, ihe]
  | termGrouped h he hc ihe =>
    rw [Form.nodes, someCastBase_expr rfl]
    simp [other h rfl, ihe, other hc rfl]
  | termEmptyArray h hc =>
    rw [Form.nodes, someCastBase_expr rfl]
    simp [other h rfl, other hc rfl]
  | termArray h he hes ihe ihes =>
    rw [Form.nodes, someCastBase_expr rfl]
    simp [other h rfl, ihe, ihes, or_assoc]
  | termRepeat h he hs hl hc ihe ihl =>
    rw [Form.nodes, someCastBase_expr rfl]
    simp [other h rfl, ihe, other hs rfl, ihl, other hc rfl, or_assoc]
  | termUnderscore h =>
    rw [Form.nodes, someCastBase_expr rfl]
    simp [other h rfl]
  | termBreak h hv ihv =>
    rw [Form.nodes, someCastBase_expr rfl]
    simp [other h rfl, ihv]
  | termContinue h =>
    rw [Form.nodes, someCastBase_expr rfl]
    simp [other h rfl]
  | termReturn h hv ihv =>
    rw [Form.nodes, someCastBase_expr rfl]
    simp [other h rfl, ihv]
  | termBlock h ihb =>
    rw [Form.nodes, someCastBase_expr rfl]
    exact ihb
  | termConst h hb ihb =>
    rw [Form.nodes, someCastBase_expr rfl]
    simp [other h rfl, ihb]
  | termIf h ihc =>
    rw [Form.nodes, someCastBase_expr rfl]
    exact ihc
  | termMatch h he ho has ihe ihas =>
    rw [Form.nodes, someCastBase_expr rfl]
    simp [other h rfl, ihe, other ho rfl, ihas, or_assoc]
  | termLoop h hb ihb =>
    rw [Form.nodes, someCastBase_expr rfl]
    simp [other h rfl, ihb]
  | termWhile h hc hb ihc ihb =>
    rw [Form.nodes, someCastBase_expr rfl]
    simp [other h rfl, ihc, ihb, or_assoc]
  | fieldLong h hc he ihe =>
    rw [Form.nodes, someCastBase_node id]
    simp [other h rfl, other hc rfl, ihe]
  | fieldShort h hi =>
    rw [Form.nodes, someCastBase_node id, Node.children, someCastBase_expr rfl, Expr.children,
      someCastBase_node id]
    simp [other h rfl]
  | jumpNothing h => simp
  | jumpValue h ihe => exact ihe
  -- suffixes
  | sufBinary h hτ he ihe =>
    have hcast := operator h (by rintro rfl; exact hτ (by decide))
    simp [Suffix.isCast, hcast, ihe]
  | sufAssign h he ihe => simp [Suffix.isCast, other h rfl, ihe]
  | sufCompound h ht he ihe => simp [Suffix.isCast, operator h, ihe]
  | sufCast h ha iha =>
    simp [castGoesOn_as h, ha.afterType_eq, iha, Suffix.isCast, Place.kind, or_left_comm]
  | sufCall h hes ihes => simp [Suffix.isCast, other h rfl, ihes]
  | sufIndex h he hc ihe => simp [Suffix.isCast, other h rfl, ihe, other hc rfl]
  | sufField h hf =>
    have hmem := hf.imp_right And.left
    have hname := other_mem (K := [.integer, .identifier]) (by simpa using hmem) rfl
    simp [Suffix.isCast, other h rfl, hname]
  | sufMethod h hf ho hes ihes =>
    simp [Suffix.isCast, other h rfl, other hf rfl, other ho rfl, ihes]
  -- blocks and statements
  | stmtExpr h he ihe => exact ihe
  | stmtBlockLike h he hy ihe => exact ihe
  | stmtMember h he hy hs ihe ihs =>
    rw [Form.nodes, Suffix.someCastBase_foldl]
    simp [he.term_not_cast, ihe, ihs, or_assoc]
  | block h hs ihs =>
    rw [Form.nodes, someCastBase_node id]
    simp [other h rfl, ihs]
  | elementsNil h => simp [other h rfl]
  | elementsTail h he hc ihe => simp [ihe, other hc rfl]
  | elementsCons hs hss ihs ihss => simp [ihs, ihss, or_assoc]
  | elementStmt h hs ihs =>
    rw [Form.nodes, someCastBase_node id]
    exact ihs
  | elementExpr h he hs ihe =>
    rw [Form.nodes, someCastBase_node id]
    simp [ihe, other hs rfl]
  | elementBlockLike h he hs hc hb ihe =>
    rw [Form.nodes, someCastBase_node id]
    exact ihe
  | stmtEmpty h => simp [other h rfl]
  | stmtItem h ih => exact ih
  | stmtLet h hp ha hv hs ihp iha ihv => simp [other h rfl, ihp, iha, ihv, other hs rfl, or_assoc]
  -- conditions and branches
  | linkLet h hp hs hv ihp ihv =>
    rw [Form.nodes, someCastBase_node id]
    simp [other h rfl, ihp, other hs rfl, ihv, or_assoc]
  | linkOfLet h ih => exact ih
  | linkTest h ihv =>
    rw [Form.nodes, someCastBase_node id]
    exact ihv
  | condExpr h ihe =>
    rw [Form.nodes, someCastBase_node id]
    exact ihe
  | condLet hl hls ihl ihls =>
    rw [Form.nodes, someCastBase_node id]
    simp [ihl, ihls, or_assoc]
  | conditional h hc hb ho ihc ihb iho =>
    rw [Form.nodes, someCastBase_node id]
    simp [other h rfl, ihc, ihb, iho, or_assoc]
  | elseNothing h =>
    rw [Form.nodes, someCastBase_node id]
    simp
  | elseIf h hc ihc =>
    rw [Form.nodes, someCastBase_node id]
    simp [other h rfl, ihc]
  | elseBlock h hb ihb =>
    rw [Form.nodes, someCastBase_node id]
    simp [other h rfl, ihb]
  | arm hp hg hf he ihp ihg ihe =>
    rw [Form.nodes, someCastBase_node id]
    simp [ihp, ihg, other hf rfl, ihe, or_assoc]
  | armsNil h => simp [other h rfl]
  | armsComma ha ht has iha ihas => simp [iha, other ht rfl, ihas, or_assoc]
  | armsBare ha hy hc has iha ihas => simp [iha, ihas, or_assoc]
  -- items
  | typedName h hc ha iha =>
    rw [Form.nodes, someCastBase_node id]
    simp [other h rfl, other hc rfl, iha]
  | param h hc ha iha =>
    rw [Form.nodes, someCastBase_node id]
    simp [other h rfl, other hc rfl, iha]
  | selfReference h hm hs ihm =>
    rw [Form.nodes, someCastBase_node id]
    simp [other h rfl, ihm, other hs rfl]
  | selfValue hm hs ha ihm iha =>
    rw [Form.nodes, someCastBase_node id]
    simp [ihm, other hs rfl, iha]
  | paramsPlain h ih => simp [ih]
  | paramsSelf h hc ih => simp [ih, other hc rfl]
  | paramsMore h ht hps ih ihps => simp [ih, other ht rfl, ihps, or_assoc]
  | signature h => simp [other h rfl]
  | body h ihb => exact ihb
  | function hc hf ht hp hps hr hb ihc ihps ihr ihb =>
    rw [Form.nodes, someCastBase_node id]
    simp [ihc, other hf rfl, other ht rfl, other hp rfl, ihps, ihr, ihb, or_assoc]
  | constant h hc hd ha hv hn hs iha ihv =>
    rw [Form.nodes, someCastBase_node id]
    have hname := other_mem (K := [.identifier, .underscore]) (by simpa using hc) rfl
    simp [other h rfl, hname, other hd rfl, iha, ihv, other hs rfl, or_assoc]
  | memberFunction h ih =>
    rw [Form.nodes, someCastBase_node id]
    exact ih
  | memberConstant h ih =>
    rw [Form.nodes, someCastBase_node id]
    exact ih
  | membersNil h => simp [other h rfl]
  | membersCons ha has iha ihas => simp [iha, ihas, or_assoc]
  | itemFunction h ih =>
    rw [Form.nodes, someCastBase_node id]
    exact ih
  | itemConstant h ih =>
    rw [Form.nodes, someCastBase_node id]
    exact ih
  | itemUnit h hc hs =>
    rw [Form.nodes, someCastBase_node id]
    simp [other h rfl, other hc rfl, other hs rfl]
  | itemStruct h hc ho hfs ihfs =>
    rw [Form.nodes, someCastBase_node id]
    simp [other h rfl, other hc rfl, other ho rfl, ihfs]
  | itemEnum h hc ho hvs ihvs =>
    rw [Form.nodes, someCastBase_node id]
    simp [other h rfl, other hc rfl, other ho rfl, ihvs]
  | itemTrait h hc ho hms ihms =>
    rw [Form.nodes, someCastBase_node id]
    simp [other h rfl, other hc rfl, other ho rfl, ihms]
  | itemImpl h hi ha ho hms iha ihms =>
    rw [Form.nodes, someCastBase_node id]
    simp [other h rfl, iha, other ho rfl, ihms, or_assoc]
  | itemImplFor h hc hf ha ho hms iha ihms =>
    rw [Form.nodes, someCastBase_node id]
    simp [other h rfl, other hc rfl, other hf rfl, iha, other ho rfl, ihms, or_assoc]
  | declaredItem h ih => exact ih
  | itemsNil h => simp
  | itemsCons ha has iha ihas => simp [iha, ihas, or_assoc]

variable {tokens : List Token} {file : String} {options : ParseOptions} {c : Crate} {s : ParseState}

theorem castGoesOn_iff_exists : castGoesOn tokens = true ↔
    ∃ before t i, tokens = before ++ t :: i ∧ (∀ u ∈ before, u.kind ≠ .eof) ∧ t.kind = .kwAs ∧
      kindAt (afterType i) 0 ∈ postfixStarts := by
  induction tokens with
  | nil => simp [castGoesOn]
  | cons u tokens ih =>
    simp only [castGoesOn, Bool.and_eq_true, Bool.or_eq_true, decide_eq_true_eq, ih]
    constructor
    · rintro ⟨heof, ⟨has, hnext⟩ | ⟨before, t, i, rfl, hbefore, has, hnext⟩⟩
      · exact ⟨[], u, tokens, rfl, nofun, has, hnext⟩
      · exact ⟨u :: before, t, i, rfl, List.forall_mem_cons.mpr ⟨heof, hbefore⟩, has, hnext⟩
    · rintro ⟨_ | ⟨v, before⟩, t, i, heq, hbefore, has, hnext⟩
      · obtain ⟨rfl, rfl⟩ := List.cons.inj heq
        exact ⟨by simp [has], .inl ⟨has, hnext⟩⟩
      · obtain ⟨rfl, rfl⟩ := List.cons.inj heq
        obtain ⟨heof, hbefore⟩ := List.forall_mem_cons.mp hbefore
        exact ⟨heof, .inr ⟨before, t, i, rfl, hbefore, has, hnext⟩⟩

/-- Nothing in a file is called, indexed or has a member that binds less tightly, casts apart. And a
cast is so exactly where, before the end of the tokens, a parenthesis, a bracket or a dot stands
right after its type. -/
theorem parse_castBases (h : parse tokens file options = .ok c s) :
    (∀ i ∈ c.items, ∀ e, (Node.expr e).Within (.item i) → ∀ base ∈ e.base?,
      ¬base.isPrefix ∧ ¬base.isBinary ∧ ¬base.isOpenEnded) ∧
    ((∃ i ∈ c.items, ∃ e, (Node.expr e).Within (.item i) ∧ ∃ base ∈ e.base?, base.isCast = true) ↔
      ∃ before t i, tokens = before ++ t :: i ∧ (∀ u ∈ before, u.kind ≠ .eof) ∧ t.kind = .kwAs ∧
        kindAt (afterType i) 0 ∈ [.openParen, .openBracket, .dot]) := by
  obtain ⟨hd, hend⟩ := parse_sound h
  refine ⟨fun i hi e he base hbase => ?_, ?_⟩
  · obtain ⟨ℓ, b, x, y, hchain⟩ := hd.nodes_derived _ (List.mem_map_of_mem hi) _ he
    have hgrouped := hchain.wellGrouped.1
    cases e with
    | call | index | field | methodCall =>
      cases hbase
      exact hgrouped
    | _ => cases hbase
  · have hstop : castGoesOn s.place.rest = false := by
      cases hrest : s.place.rest with
      | nil => rfl
      | cons t i =>
        have ht : t.kind = .eof := by simpa [Place.kind, hrest] using hend
        simp [castGoesOn, ht]
    have hiff := hd.castGoesOn_iff
    simp only [Form.nodes, Form.GoesOn, hstop, Bool.false_eq_true, or_false,
      castGoesOn_iff_exists] at hiff
    refine Iff.trans ⟨?_, ?_⟩ hiff.symm
    · rintro ⟨i, hi, e, he, hbase⟩
      exact ⟨.item i, List.mem_map_of_mem hi, .expr e, he, hbase⟩
    · rintro ⟨n, hn, m, hm, hbase⟩
      obtain ⟨i, hi, rfl⟩ := List.mem_map.mp hn
      cases m with
      | expr e => exact ⟨i, hi, e, hm, hbase⟩
      | _ => exact hbase.elim

/-- In `const X: ! = (X as X)[X];` what follows the type closes the parentheses. -/
theorem parse_castBases_grouped :
    let tokens := [TokenKind.kwConst, .identifier, .colon, .bang, .assignment, .openParen, .identifier,
      .kwAs, .identifier, .closeParen, .openBracket, .identifier, .closeBracket,
      .semicolon].map Token.fixed
    ∃ c s, parse tokens "t" = .ok c s ∧
      ¬∃ i ∈ c.items, ∃ e, (Node.expr e).Within (.item i) ∧ ∃ base ∈ e.base?, base.isCast = true := by
  intro tokens
  obtain ⟨c, s, h, -⟩ := exists_ok_of_succeeds (r := parse tokens "t")
    (P := fun _ _ => true) (by decide +kernel)
  refine ⟨c, s, h, fun hcast => ?_⟩
  have hgoesOn := castGoesOn_iff_exists.2 ((parse_castBases h).2.mp hcast)
  exact absurd hgoesOn (by decide)

def Crate.onlyValue? (c : Crate) : Option Expr :=
  match c.items with
  | [.constant k] => k.value
  | _ => none

theorem Crate.within_of_onlyValue? {e : Expr} (h : c.onlyValue? = some e) :
    ∃ i ∈ c.items, (Node.expr e).Within (.item i) := by
  unfold onlyValue? at h
  split at h
  · next k hitems =>
    have hvalue : Node.expr e ∈ (Node.constant k).children := by simp [Node.children, h]
    have hconstant : Node.constant k ∈ (Node.item (.constant k)).children := by
      simp [Node.children, Item.children]
    exact ⟨_, by simp [hitems], .inChild hconstant (.inChild hvalue (.self _))⟩
  · cases h

/-- The index in `const X: ! = X as X[X];` goes on with the cast, which stands in no parentheses. -/
theorem parse_castBase_index :
    let tokens := [TokenKind.kwConst, .identifier, .colon, .bang, .assignment, .identifier, .kwAs,
      .identifier, .openBracket, .identifier, .closeBracket, .semicolon].map Token.fixed
    ∃ c s, parse tokens "t" = .ok c s ∧
      ∃ i ∈ c.items, ∃ e, (Node.expr e).Within (.item i) ∧ ∃ base ∈ e.base?, base.isCast = true := by
  intro tokens
  obtain ⟨c, s, h, hvalue⟩ := exists_ok_of_succeeds (r := parse tokens "t")
    (P := fun c _ => (c.onlyValue?.bind Expr.base?).any Expr.isCast) (by decide +kernel)
  obtain ⟨base, hbase, hcast⟩ := (Option.any_eq_true _ _).mp hvalue
  obtain ⟨e, he, hbase⟩ := Option.bind_eq_some_iff.mp hbase
  obtain ⟨i, hi, hwithin⟩ := Crate.within_of_onlyValue? he
  exact ⟨c, s, h, i, hi, e, hwithin, base, hbase, hcast⟩

end FrontEnd
