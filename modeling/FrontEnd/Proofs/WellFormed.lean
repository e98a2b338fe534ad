import FrontEnd.Proofs.Precedence
/-!
# Well-formed trees

Types of trees allow more than the grammar does: a function may lack its body anywhere, any token may
stand as an operator, a path may be empty. What later passes may rely on is stated for each node, and
holds at every node of every file that is read.
-/
namespace FrontEnd

open Grammar (pathSegments)

def OperatorFamily.operators : OperatorFamily → List TokenKind
  | arithmetic =>
    [.plus, .dash, .star, .slash, .percent, .ampersand, .pipe, .caret, .shl, .shr]
  | comparison => [.equals, .notEquals, .less, .lessEquals, .greater, .greaterEquals]
  | lazyBoolean => [.andAnd, .orOr]

def compoundOperators : List TokenKind :=
  [.plusEquals, .minusEquals, .starEquals, .slashEquals, .percentEquals, .caretEquals,
    .ampersandEquals, .pipeEquals, .shlEquals, .shrEquals]

/-- A path has words, and each is an identifier, `self` or `Self`. -/
def Path.WellFormed (p : Path) : Prop := p.segments ≠ [] ∧ ∀ t ∈ p.segments, t.kind ∈ pathSegments

def Ty.WellFormed : Ty → Prop
  | .path p => ∀ t ∈ p.segments.head?, t.kind ≠ .kwSelfValue
  | _ => True

def Pattern.WellFormed : Pattern → Prop
  | literal token true _ => token.kind = .integer
  | _ => True

def Expr.WellFormed : Expr → Prop
  | unary operator _ _ => operator.kind ∈ [TokenKind.dash, .bang]
  | binary family operator _ _ _ => operator.kind ∈ family.operators
  | compoundAssign operator _ _ _ => operator.kind ∈ compoundOperators
  | _ => True

/-- An expression that cannot be told from the rest of a let-chain: `a && b`, `a || b` or an
assignment. -/
def Expr.SplitsLinks : Expr → Prop
  | binary .lazyBoolean _ _ _ _ | assign _ _ _ | compoundAssign _ _ _ _ => True
  | _ => False

/-- A let-chain begins with a link that has a pattern, and no value splits its link. -/
def Condition.WellFormed : Condition → Prop
  | .expr _ => True
  | letChain links =>
    (∃ l ∈ links.head?, l.pattern.isSome) ∧ ∀ l ∈ links, ¬l.value.SplitsLinks

def SelfParam.WellFormed (s : SelfParam) : Prop := s.ty.isSome → s.byRef = false

/-- A function with its body, or a constant with its value. -/
def Member.IsComplete : Member → Prop
  | .function f => f.body.isSome
  | .constant c => c.value.isSome

/-- Bodies and values are left out in the members of a trait only. -/
def Item.WellFormed : Item → Prop
  | .function f => f.body.isSome
  | .constant c => c.value.isSome
  | impl _ _ members _ => ∀ m ∈ members, m.IsComplete
  | _ => True

/-- What holds of a node in every tree that is read. -/
def Node.WellFormed : Node → Prop
  | path p => p.WellFormed
  | ty t => t.WellFormed
  | pattern p => p.WellFormed
  | expr e => e.WellFormed
  | condition c => c.WellFormed
  | selfParam s => s.WellFormed
  | item i => i.WellFormed
  | _ => True

theorem TokenKind.mem_operators {k : TokenKind} {τ : Tier} (h : k.tier? = some τ)
    (hτ : τ ∉ [Tier.assignment, .cast, .call, .member]) : k ∈ k.family.operators := by
  cases k <;> cases h <;> revert hτ <;> decide

theorem TokenKind.mem_compoundOperators {k : TokenKind} (h : k.tier? = some .assignment)
    (hk : k ≠ .assignment) : k ∈ compoundOperators := by
  cases k <;> revert h hk <;> decide

theorem TokenKind.tier_lazyBoolean {k : TokenKind} (h : k ∈ OperatorFamily.lazyBoolean.operators) :
    ∃ τ, k.tier? = some τ ∧ ¬.logicalAnd < τ := by
  obtain rfl | rfl : k = .andAnd ∨ k = .orOr := by simpa [OperatorFamily.operators] using h
  · exact ⟨.logicalAnd, rfl, by decide⟩
  · exact ⟨.logicalOr, rfl, by decide⟩

variable {resolve : Bool} {ℓ : Nat} {b : Bool} {x y : Place}

namespace Derives

theorem segments_wellFormed {ts : List Token}
    (h : Derives resolve (.eachAfter .pathSep .segment) ℓ b x ts y) :
    ∀ t ∈ ts, t.kind ∈ pathSegments := by
  induction ts generalizing x with
  | nil => exact nofun
  | cons t ts ih =>
    cases h with
    | eachCons _ _ ha has =>
      cases ha with
      | segment ht => exact List.forall_mem_cons.2 ⟨ht, ih has⟩

theorem path_wellFormed {p : Path} (h : Derives resolve .path ℓ b x p y) : p.WellFormed := by
  cases h with
  | path ht hts => exact ⟨by simp, List.forall_mem_cons.2 ⟨ht, hts.segments_wellFormed⟩⟩

theorem ty_wellFormed {a : Ty} (h : Derives resolve .ty ℓ b x a y) : a.WellFormed := by
  induction ℓ generalizing a x y with
  | zero => cases h
  | succ ℓ ih =>
    cases h with
    | tyPath hx hp =>
      cases hp with
      | path ht hts =>
        -- the first word is the token that told that a path begins
        rintro t ⟨⟩ hself
        simp [hself] at hx
    | tyParen _ ha _ => exact ih ha
    | _ => trivial

theorem pattern_wellFormed {p : Pattern} (h : Derives resolve .pattern ℓ b x p y) :
    p.WellFormed := by
  cases h with
  | patNegated _ hl => exact hl
  | _ => trivial

theorem selfParam_wellFormed {s : SelfParam} (h : Derives resolve .selfParam ℓ b x s y) :
    s.WellFormed := by
  cases h with
  | selfReference _ _ _ => exact nofun
  | selfValue _ _ _ => exact fun _ => rfl

end Derives

theorem Expr.Chain.wellFormed {e : Expr} (h : e.Chain resolve ℓ b x y) : e.WellFormed := by
  cases h with
  | term h =>
    cases h with
    | termUnary h _ => simpa [Expr.WellFormed] using h
    | _ => trivial
  | attach _ hs =>
    cases hs with
    | sufBinary h hτ _ => exact TokenKind.mem_operators h hτ
    | sufCompound h ht _ => exact TokenKind.mem_compoundOperators h ht
    | _ => trivial

namespace Derives

/-- The value of a link is read above the tier of `&&`. -/
theorem not_splitsLinks {e : Expr} (h : Derives resolve (.expr .logicalAnd) ℓ b x e y) :
    ¬e.SplitsLinks := by
  have htier := h.expr_bounded.1
  have hchain : e.WellFormed := by
    cases h with
    | expr he hs => exact (hs.suffixes_chain (.term he)).wellFormed
  cases e with
  | binary family operator left right sp =>
    cases family with
    | lazyBoolean =>
      obtain ⟨τ, hτ, hle⟩ := TokenKind.tier_lazyBoolean hchain
      exact absurd (htier τ hτ) hle
    | arithmetic | comparison => exact id
  | assign _ _ _ | compoundAssign _ _ _ _ => exact absurd (htier _ rfl) (by decide)
  | _ => exact id

theorem link_not_splitsLinks {l : Link} (h : Derives resolve .link ℓ b x l y) :
    ¬l.value.SplitsLinks := by
  cases h with
  | linkOfLet h =>
    cases h with
    | linkLet _ _ _ hv => exact hv.not_splitsLinks
  | linkTest hv => exact hv.not_splitsLinks

theorem links_not_splitsLinks {ls : List Link}
    (h : Derives resolve (.eachAfter .andAnd .link) ℓ b x ls y) :
    ∀ l ∈ ls, ¬l.value.SplitsLinks := by
  induction ls generalizing x with
  | nil => exact nofun
  | cons l ls ih =>
    cases h with
    | eachCons _ _ hl hls => exact List.forall_mem_cons.2 ⟨hl.link_not_splitsLinks, ih hls⟩

theorem condition_wellFormed {c : Condition} (h : Derives resolve .condition ℓ b x c y) :
    c.WellFormed := by
  cases h with
  | condExpr _ => trivial
  | condLet hl hls =>
    refine ⟨⟨_, rfl, ?_⟩, List.forall_mem_cons.2 ⟨?_, hls.links_not_splitsLinks⟩⟩
    · cases hl with
      | linkLet _ _ _ _ => rfl
    · exact hl.linkOfLet.link_not_splitsLinks

theorem function_complete {f : FunctionDecl} (h : Derives resolve (.function false) ℓ b x f y) :
    f.body.isSome := by
  cases h with
  | function _ _ _ _ _ _ hb =>
    cases hb with
    | body _ => rfl

theorem constant_complete {c : ConstantDecl} (h : Derives resolve (.constant false) ℓ b x c y) :
    c.value.isSome := by
  cases h with
  | constant _ _ _ _ _ hn _ => exact Option.isSome_iff_ne_none.2 fun hnone => nomatch hn hnone

theorem members_complete {ms : List Member} (h : Derives resolve (.members false) ℓ b x ms y) :
    ∀ m ∈ ms, m.IsComplete := by
  induction ms generalizing x with
  | nil => exact nofun
  | cons m ms ih =>
    cases h with
    | membersCons hm hms =>
      refine List.forall_mem_cons.2 ⟨?_, ih hms⟩
      cases hm with
      | memberFunction hf => exact hf.function_complete
      | memberConstant hc => exact hc.constant_complete

theorem item_wellFormed {i : Item} (h : Derives resolve .item ℓ b x i y) : i.WellFormed := by
  cases h with
  | itemFunction h => exact h.function_complete
  | itemConstant h => exact h.constant_complete
  | itemImpl _ _ _ _ hms => exact hms.members_complete
  | itemImplFor _ _ _ _ _ hms => exact hms.members_complete
  | _ => trivial

end Derives

theorem Node.Derived.wellFormed {n : Node} (h : n.Derived resolve) : n.WellFormed := by
  cases n with
  | path p =>
    obtain ⟨ℓ, b, x, y, hd⟩ := h
    exact hd.path_wellFormed
  | ty a =>
    obtain ⟨ℓ, b, x, y, hd⟩ := h
    exact hd.ty_wellFormed
  | pattern p =>
    obtain ⟨ℓ, b, x, y, hd⟩ := h
    exact hd.pattern_wellFormed
  | expr e =>
    obtain ⟨ℓ, b, x, y, hc⟩ := h
    exact hc.wellFormed
  | condition c =>
    obtain ⟨ℓ, b, x, y, hd⟩ := h
    exact hd.condition_wellFormed
  | selfParam s =>
    obtain ⟨ℓ, b, x, y, hd⟩ := h
    exact hd.selfParam_wellFormed
  | item i =>
    obtain ⟨ℓ, b, x, y, hd⟩ := h
    exact hd.item_wellFormed
  | _ => trivial

variable {tokens : List Token} {file : String} {options : ParseOptions} {c : Crate} {t : ParseState}

/-- Every node of a file that is read is well-formed. -/
theorem parse_wellFormed (h : parse tokens file options = .ok c t) :
    ∀ i ∈ c.items, (Node.item i).Everywhere Node.WellFormed := by
  intro i hi n hn
  exact ((parse_sound h).1.nodes_derived _ (List.mem_map_of_mem hi) n hn).wellFormed

/-- A trait with a signature, and a constant that is a let-chain over a negated literal. -/
theorem parse_wellFormed_trait :
    let tokens := [TokenKind.kwTrait, .identifier, .openCurly, .kwFn, .identifier, .openParen,
      .kwSelfValue, .colon, .kwSelfType, .closeParen, .semicolon, .closeCurly,
      .kwConst, .underscore, .colon, .bang, .assignment, .kwWhile, .kwLet, .dash, .integer,
      .assignment, .identifier, .plus, .identifier, .andAnd, .bang, .identifier, .openCurly,
      .closeCurly, .semicolon].map Token.fixed
    ∃ c t, parse tokens "t" ⟨6, true⟩ = .ok c t ∧
      ∀ i ∈ c.items, (Node.item i).Everywhere Node.WellFormed := by
  intro tokens
  obtain ⟨c, t, h, -⟩ := exists_ok_of_succeeds (r := parse tokens "t" ⟨6, true⟩)
    (P := fun _ _ => true) (by decide +kernel)
  exact ⟨c, t, h, parse_wellFormed h⟩

end FrontEnd
