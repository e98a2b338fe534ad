import FrontEnd.Proofs.Progress
import FrontEnd.Proofs.Tree.Node
import FrontEnd.Proofs.Tree.Written
/-!
# Nodes of derived trees

Every node of a derived tree is derived itself, from tokens that the tree is derived from. So what
the rules say of one node holds everywhere in a tree, and needs no induction over trees of its own.
-/
namespace FrontEnd

variable {resolve : Bool} {ℓ : Nat} {b : Bool} {x y z : Place}

/-- A term and some of the suffixes after it, read from a place to another. -/
inductive Expr.Chain (resolve : Bool) (ℓ : Nat) (b : Bool) (x : Place) : Expr → Place → Prop
  | term {e : Expr} {y : Place} (h : Derives resolve .term ℓ b x e y) : Chain resolve ℓ b x e y
  | attach {e : Expr} {s : Suffix} {y z : Place} (he : Chain resolve ℓ b x e y)
    (hs : Derives resolve .suffix ℓ b y s z) : Chain resolve ℓ b x (s.attach e) z

/-- A tree that is derived from some place to some other. -/
def Form.Derived (resolve : Bool) (σ : Form) (t : σ.Tree) : Prop :=
  ∃ ℓ b x y, Derives resolve σ ℓ b x t y

/-- A node that is derived. An expression inside another may be a part of a chain. -/
def Node.Derived (resolve : Bool) : Node → Prop
  | path p => Form.path.Derived resolve p
  | pattern p => Form.pattern.Derived resolve p
  | ty t => Form.ty.Derived resolve t
  | expr e => ∃ ℓ b x y, e.Chain resolve ℓ b x y
  | field f => Form.field.Derived resolve f
  | block b => Form.block.Derived resolve b
  | condition c => Form.condition.Derived resolve c
  | link l => Form.link.Derived resolve l
  | conditional c => Form.conditional.Derived resolve c
  | otherwise o => Form.otherwise.Derived resolve o
  | arm a => Form.arm.Derived resolve a
  | statement s => Form.element.Derived resolve s
  | typedName n => Form.typedName.Derived resolve n
  | selfParam s => Form.selfParam.Derived resolve s
  | function f => ∃ allowSignature, (Form.function allowSignature).Derived resolve f
  | constant c => ∃ inTrait, (Form.constant inTrait).Derived resolve c
  | member m => ∃ inTrait, (Form.member inTrait).Derived resolve m
  | item i => Form.item.Derived resolve i

/-- A tree that is derived from a place in a list of tokens. The token at the place may be another
one: of two references written as one token, the inner one begins with half of it. -/
def Form.DerivedIn (resolve : Bool) (tokens : List Token) (σ : Form) (t : σ.Tree) : Prop :=
  ∃ ℓ b x y, x.rest.tail <:+ tokens ∧ Derives resolve σ ℓ b x t y

def Node.DerivedIn (resolve : Bool) (tokens : List Token) : Node → Prop
  | path p => Form.path.DerivedIn resolve tokens p
  | pattern p => Form.pattern.DerivedIn resolve tokens p
  | ty t => Form.ty.DerivedIn resolve tokens t
  | expr e => ∃ ℓ b x y, x.rest.tail <:+ tokens ∧ e.Chain resolve ℓ b x y
  | field f => Form.field.DerivedIn resolve tokens f
  | block bl => ∃ ℓ b x y, x.Of tokens ∧ Derives resolve .block ℓ b x bl y
  | condition c => Form.condition.DerivedIn resolve tokens c
  | link l => Form.link.DerivedIn resolve tokens l
  | conditional c => Form.conditional.DerivedIn resolve tokens c
  | otherwise o => Form.otherwise.DerivedIn resolve tokens o
  | arm a => Form.arm.DerivedIn resolve tokens a
  | statement s => Form.element.DerivedIn resolve tokens s
  | typedName n => Form.typedName.DerivedIn resolve tokens n
  | selfParam s => Form.selfParam.DerivedIn resolve tokens s
  | function f => ∃ allowSignature, (Form.function allowSignature).DerivedIn resolve tokens f
  | constant c => ∃ inTrait, (Form.constant inTrait).DerivedIn resolve tokens c
  | member m => ∃ inTrait, (Form.member inTrait).DerivedIn resolve tokens m
  | item i => Form.item.DerivedIn resolve tokens i

variable {tokens : List Token} {σ : Form} {t : σ.Tree}

theorem Place.Of.tail (hx : x.Of tokens) : x.rest.tail <:+ tokens :=
  (List.tail_suffix x.rest).trans hx

theorem Derives.derivedIn (h : Derives resolve σ ℓ b x t y) (hx : x.Of tokens) :
    σ.DerivedIn resolve tokens t := ⟨ℓ, b, x, y, hx.tail, h⟩

theorem Form.DerivedIn.derived (h : σ.DerivedIn resolve tokens t) : σ.Derived resolve t := by
  obtain ⟨ℓ, b, x, y, -, hd⟩ := h
  exact ⟨ℓ, b, x, y, hd⟩

namespace Node

theorem DerivedIn.derived {n : Node} (h : n.DerivedIn resolve tokens) : n.Derived resolve := by
  cases n with
  | expr e =>
    obtain ⟨ℓ, b, x, y, -, he⟩ := h
    exact ⟨ℓ, b, x, y, he⟩
  | block bl =>
    obtain ⟨ℓ, b, x, y, -, hb⟩ := h
    exact ⟨ℓ, b, x, y, hb⟩
  | function f => exact h.imp fun _ => Form.DerivedIn.derived
  | constant c => exact h.imp fun _ => Form.DerivedIn.derived
  | member m => exact h.imp fun _ => Form.DerivedIn.derived
  | _ => exact Form.DerivedIn.derived h

abbrev AllDerived (resolve : Bool) (n : Node) : Prop := n.Everywhere (Node.Derived resolve)

abbrev AllDerivedIn (resolve : Bool) (tokens : List Token) (n : Node) : Prop :=
  n.Everywhere (Node.DerivedIn resolve tokens)

theorem allDerivedIn {n : Node} (hn : n.DerivedIn resolve tokens)
    (hc : ∀ c ∈ n.children, c.AllDerivedIn resolve tokens) : n.AllDerivedIn resolve tokens :=
  everywhere_iff.2 ⟨hn, hc⟩

end Node

/-- Suffixes, attached one after the other, keep a chain a chain of derived nodes. -/
theorem Derives.suffixes_allDerivedIn {above : Tier} {ss : List Suffix}
    (h : Derives resolve (.suffixes above) ℓ b y ss z) {e : Expr} (hx : x.Of tokens)
    (he : e.Chain resolve ℓ b x y) (hnode : (Node.expr e).AllDerivedIn resolve tokens)
    (hnodes : ∀ n ∈ ss.flatMap Suffix.nodes, n.AllDerivedIn resolve tokens) :
    (Node.expr (ss.foldl Suffix.attach e)).AllDerivedIn resolve tokens := by
  induction ss generalizing e y with
  | nil => exact hnode
  | cons s ss ih =>
    cases h with
    | suffixesCons _ _ hs hss =>
      obtain ⟨hhead, htail⟩ := List.forall_mem_append.1 hnodes
      have hattach := he.attach hs
      refine ih hss hattach (Node.allDerivedIn ⟨_, _, _, _, hx.tail, hattach⟩ ?_) htail
      rw [Node.children, Suffix.children_attach]
      exact List.forall_mem_cons.2 ⟨hnode, hhead⟩

/-- Every node in a tree that is derived from a place in some tokens is derived from one. -/
theorem Derives.nodes_derivedIn (h : Derives resolve σ ℓ b x t y) (hx : x.Of tokens) :
    ∀ n ∈ σ.nodes t, n.AllDerivedIn resolve tokens := by
  have node {n : Node} (hn : n.DerivedIn resolve tokens)
      (hc : ∀ c ∈ n.children, c.AllDerivedIn resolve tokens) :
      ∀ m ∈ [n], m.AllDerivedIn resolve tokens :=
    List.forall_mem_singleton.2 (Node.allDerivedIn hn hc)
  -- what has no parts is derived with any number of levels left
  have alone {σ : Form} {t : σ.Tree} {x y : Place} (h : Derives resolve σ 1 true x t y)
      (hx : x.Of tokens) : σ.DerivedIn resolve tokens t := h.derivedIn hx
  have term {ℓ : Nat} {b : Bool} {x y : Place} {e : Expr} (h : Derives resolve .term ℓ b x e y)
      (hx : x.Of tokens) (hc : ∀ c ∈ e.children, c.AllDerivedIn resolve tokens) :
      ∀ m ∈ [Node.expr e], m.AllDerivedIn resolve tokens :=
    node ⟨ℓ, b, x, y, hx.tail, .term h⟩ hc
  have leaf {x y : Place} {e : Expr} (h : Derives resolve .term 1 true x e y) (hx : x.Of tokens) :
      (Node.expr e).DerivedIn resolve tokens :=
    ⟨1, true, x, y, hx.tail, .term h⟩
  have both {l₁ l₂ : List Node} (h₁ : ∀ n ∈ l₁, n.AllDerivedIn resolve tokens)
      (h₂ : ∀ n ∈ l₂, n.AllDerivedIn resolve tokens) :
      ∀ n ∈ l₁ ++ l₂, n.AllDerivedIn resolve tokens :=
    List.forall_mem_append.2 ⟨h₁, h₂⟩
  have each {α : Type} {f : α → Node} {as : List α}
      (h : ∀ n ∈ as.flatMap fun a => [f a], n.AllDerivedIn resolve tokens) :
      ∀ n ∈ as.map f, n.AllDerivedIn resolve tokens := by
    rwa [List.map_eq_flatMap]
  induction h with
  -- tokens and lists
  | segment _ => exact nofun
  | name _ => exact nofun
  | flagSet _ _ => exact nofun
  | flagUnset _ _ => exact nofun
  | afterNothing _ _ => exact nofun
  | afterSome hk h ha iha => exact both (iha hx.next) nofun
  | eachNil _ _ => exact nofun
  | eachCons hk h ha has iha ihas => exact both (iha hx.next) (ihas (ha.place_of hx.next))
  | listNil _ => exact nofun
  | listCons hl h ha has iha ihas => exact both (iha hx) (ihas (ha.place_of hx))
  | moreNil _ => exact nofun
  | moreComma _ _ => exact nofun
  | moreCons hl ht h ha has iha ihas => exact both (iha hx.next) (ihas (ha.place_of hx.next))
  | path h hts ihts => exact node ((Derives.path h hts).derivedIn hx) nofun
  -- types
  | tyPath h hp ihp => exact node ((Derives.tyPath h hp).derivedIn hx) (ihp hx)
  | tyReference h hm ha ihm iha =>
    exact node ((Derives.tyReference h hm ha).derivedIn hx) (iha (hm.place_of hx.next))
  | tyReferences h hm ha ihm iha =>
    -- the inner layer could as well be read after a single `&`
    have inner {sp : Span} : Derives resolve .ty _ _ _ (.reference _ _ sp) _ :=
      .tyReference (t := .fixed .ampersand) rfl hm ha
    refine node ((Derives.tyReferences h hm ha).derivedIn hx) (node ?_ (iha (hm.place_of hx.next)))
    exact ⟨_, _, ⟨.fixed .ampersand :: _, _⟩, _, hx.tail, inner⟩
  | tySlice h ha hc iha => exact node ((Derives.tySlice h ha hc).derivedIn hx) (iha hx.next)
  | tyArray h ha hs he hc iha ihe =>
    exact node ((Derives.tyArray h ha hs he hc).derivedIn hx)
      (both (iha hx.next) (ihe (ha.place_of hx.next).next))
  | tyUnit h hc => exact node (alone (.tyUnit h hc) hx) nofun
  | tyParen h ha hc iha => exact iha hx.next
  | tyTuple h ha hy has iha ihas =>
    refine node ((Derives.tyTuple h ha hy has).derivedIn hx) (both (iha hx.next) (each ?_))
    exact ihas (ha.place_of hx.next)
  | tyNever h => exact node (alone (.tyNever h) hx) nofun
  | tyInferred h => exact node (alone (.tyInferred h) hx) nofun
  -- patterns
  | patLiteral h => exact node (alone (.patLiteral h) hx) nofun
  | patNegated h hl => exact node (alone (.patNegated h hl) hx) nofun
  | patWildcard h => exact node (alone (.patWildcard h) hx) nofun
  | patReference h hm hp ihm ihp =>
    exact node ((Derives.patReference h hm hp).derivedIn hx) (ihp (hm.place_of hx.next))
  | patReferences h hm hp ihm ihp =>
    have inner {sp : Span} : Derives resolve .pattern _ _ _ (.reference _ _ sp) _ :=
      .patReference (t := .fixed .ampersand) rfl hm hp
    refine node ((Derives.patReferences h hm hp).derivedIn hx) (node ?_ (ihp (hm.place_of hx.next)))
    exact ⟨_, _, ⟨.fixed .ampersand :: _, _⟩, _, hx.tail, inner⟩
  | patBinding h hr hm ht hs ihr ihm ihs =>
    refine node ((Derives.patBinding h hr hm ht hs).derivedIn hx) (each ?_)
    exact ihs (hm.place_of (hr.place_of hx)).next
  | patPath h hp hy ihp => exact node ((Derives.patPath h hp hy).derivedIn hx) (ihp hx)
  | patTuple h hp ht hps ihp ihps =>
    refine node ((Derives.patTuple h hp ht hps).derivedIn hx) (both (ihp hx) (each ?_))
    exact ihps (hp.place_of hx).next
  -- terms
  | expr he hs ihe ihs =>
    refine List.forall_mem_singleton.2 (hs.suffixes_allDerivedIn hx (.term he) ?_ ?_)
    · exact List.forall_mem_singleton.1 (ihe hx)
    · exact ihs (he.place_of hx)
  | suffixesNil _ => exact nofun
  | suffixesCons h hτ hs hss ihs ihss => exact both (ihs hx) (ihss (hs.place_of hx))
  | termLiteral h => exact node (leaf (.termLiteral h) hx) nofun
  | termPath hp hy ihp => exact term (.termPath hp hy) hx (ihp hx)
  | termStruct hp ht hfs ihp ihfs =>
    exact term (.termStruct hp ht hfs) hx (both (ihp hx) (each (ihfs (hp.place_of hx).next)))
  | termUnary h he ihe => exact term (.termUnary h he) hx (ihe hx.next)
  | termDeref h he ihe => exact term (.termDeref h he) hx (ihe hx.next)
  | termBorrow h hm he ihm ihe => exact term (.termBorrow h hm he) hx (ihe (hm.place_of hx.next))
  | termBorrows h hm he ihm ihe =>
    have inner {sp : Span} : Derives resolve .term _ _ _ (.borrow _ _ sp) _ :=
      .termBorrow (t := .fixed .ampersand) rfl hm he
    refine term (.termBorrows h hm he) hx (node ?_ (ihe (hm.place_of hx.next)))
    exact ⟨_, _, ⟨.fixed .ampersand :: _, _⟩, _, hx.tail, .term inner⟩
  | termGrouped h he hc ihe => exact term (b := b) (.termGrouped h he hc) hx (ihe hx.next)
  | termEmptyArray h hc => exact node (leaf (.termEmptyArray h hc) hx) nofun
  | termArray h he hes ihe ihes =>
    refine term (b := b) (.termArray h he hes) hx (both (ihe hx.next) (each ?_))
    exact ihes (he.place_of hx.next)
  | termRepeat h he hs hl hc ihe ihl =>
    refine term (b := b) (.termRepeat h he hs hl hc) hx (both (ihe hx.next) ?_)
    exact ihl (he.place_of hx.next).next
  | termUnderscore h => exact node (leaf (.termUnderscore h) hx) nofun
  | termBreak h hv ihv => exact term (.termBreak h hv) hx (ihv hx.next)
  | termContinue h => exact node (leaf (.termContinue h) hx) nofun
  | termReturn h hv ihv => exact term (.termReturn h hv) hx (ihv hx.next)
  | termBlock h ihb => exact term (.termBlock h) hx (ihb hx)
  | termConst h hb ihb => exact term (.termConst h hb) hx (ihb hx.next)
  | termIf h ihc => exact term (.termIf h) hx (ihc hx)
  | termMatch h he ho has ihe ihas =>
    refine term (b := b) (.termMatch h he ho has) hx (both (ihe hx.next) ?_)
    exact ihas (he.place_of hx.next).next
  | termLoop h hb ihb => exact term (.termLoop h hb) hx (ihb hx.next)
  | termWhile h hc hb ihc ihb =>
    exact term (.termWhile h hc hb) hx (both (ihc hx.next) (ihb (hc.place_of hx.next)))
  | fieldLong h hc he ihe => exact node ((Derives.fieldLong h hc he).derivedIn hx) (ihe hx.next.next)
  | fieldShort h hi =>
    -- the value is the path that the name would be if it stood alone
    have name {t : Token} (ht : t.kind = .identifier) {sp : Span} :
        Derives resolve .path 1 true ⟨[t], .empty⟩ ⟨[t], sp⟩ ⟨[], .empty⟩ :=
      .path (by simp [Grammar.pathSegments, ht]) (.eachNil (.inl ⟨rfl, rfl⟩) (by simp))
    have value {t : Token} (ht : t.kind = .identifier) {sp : Span} :
        Derives resolve .term 1 true ⟨[t], .empty⟩ (.path ⟨[t], sp⟩) ⟨[], .empty⟩ :=
      .termPath (name ht) (by simp)
    refine node (alone (.fieldShort h hi) hx) (node ?_ (node ?_ nofun))
    · exact ⟨1, true, ⟨[_], .empty⟩, _, List.nil_suffix, .term (value h)⟩
    · exact ⟨1, true, ⟨[_], .empty⟩, _, List.nil_suffix, name h⟩
  | jumpNothing _ => exact nofun
  | jumpValue h ihe => exact ihe hx
  -- suffixes
  | sufBinary h hτ he ihe => exact ihe hx.next
  | sufAssign h he ihe => exact ihe hx.next
  | sufCompound h ht he ihe => exact ihe hx.next
  | sufCast h ha iha => exact iha hx.next
  | sufCall h hes ihes => exact each (ihes hx.next)
  | sufIndex h he hc ihe => exact ihe hx.next
  | sufField _ _ => exact nofun
  | sufMethod h hf' ho hes ihes => exact each (ihes hx.next.next.next)
  -- blocks and statements
  | stmtExpr h he ihe => exact ihe hx
  | stmtBlockLike h he hy ihe => exact ihe hx
  | stmtMember h he hy hs ihe ihs =>
    refine List.forall_mem_singleton.2 (hs.suffixes_allDerivedIn hx (.term he) ?_ ?_)
    · exact List.forall_mem_singleton.1 (ihe hx)
    · exact ihs (he.place_of hx)
  | block h hs ihs => exact node ⟨_, b, _, _, hx, .block h hs⟩ (ihs hx.next)
  | elementsNil _ => exact nofun
  | elementsTail h he hc ihe => exact ihe hx
  | elementsCons hs hss ihs ihss => exact (both (ihs hx) (ihss (hs.place_of hx)) :)
  | elementStmt h hs ihs => exact node ((Derives.elementStmt h hs).derivedIn hx) (ihs hx)
  | elementExpr h he hs ihe => exact node ((Derives.elementExpr h he hs).derivedIn hx) (ihe hx)
  | elementBlockLike h he hs hc hb ihe =>
    exact node ((Derives.elementBlockLike h he hs hc hb).derivedIn hx) (ihe hx)
  | stmtEmpty _ => exact nofun
  | stmtItem h ih => exact ih hx
  | stmtLet h hp ha hv hs ihp iha ihv =>
    have hp' := hp.place_of hx.next
    exact both (ihp hx.next) (both (each (iha hp')) (each (ihv (ha.place_of hp'))))
  -- conditions and branches
  | linkLet h hp hs hv ihp ihv =>
    exact node ((Derives.linkOfLet (.linkLet h hp hs hv)).derivedIn hx)
      (both (ihp hx.next) (ihv (hp.place_of hx.next).next))
  | linkOfLet h ih => exact ih hx
  | linkTest h ihv => exact node ((Derives.linkTest h).derivedIn hx) (ihv hx)
  | condExpr h ihe => exact node ((Derives.condExpr (b := b) h).derivedIn hx) (ihe hx)
  | condLet hl hls ihl ihls =>
    exact node ((Derives.condLet (b := b) hl hls).derivedIn hx)
      (both (ihl hx) (each (ihls (hl.place_of hx))))
  | conditional h hc hb ho ihc ihb iho =>
    have hc' := hc.place_of hx.next
    exact node ((Derives.conditional h hc hb ho).derivedIn hx)
      (both (ihc hx.next) (both (ihb hc') (iho ((hb.place_of hc').rename _))))
  | elseNothing h => exact node ⟨0, true, _, _, hx.tail, .elseNothing h⟩ nofun
  | elseIf h hc ihc => exact node ((Derives.elseIf h hc).derivedIn hx) (ihc hx.next)
  | elseBlock h hb ihb => exact node ((Derives.elseBlock h hb).derivedIn hx) (ihb hx.next)
  | arm hp hg hf' he ihp ihg ihe =>
    have hp' := hp.place_of (hx.rename _)
    exact node ((Derives.arm hp hg hf' he).derivedIn hx)
      (both (ihp (hx.rename _)) (both (each (ihg (hp'.rename _))) (ihe (hg.place_of (hp'.rename _)).next)))
  | armsNil _ => exact nofun
  | armsComma ha ht has iha ihas => exact both (iha hx) (ihas (ha.place_of hx).next)
  | armsBare ha hy hc has iha ihas => exact both (iha hx) (ihas (ha.place_of hx))
  -- items
  | typedName h hc ha iha => exact node ((Derives.typedName h hc ha).derivedIn hx) (iha hx.next.next)
  | param h hc ha iha => exact node ((Derives.typedName h hc ha).derivedIn hx) (iha hx.next.next)
  | selfReference h hm hs ihm => exact node ((Derives.selfReference h hm hs).derivedIn hx) nofun
  | selfValue hm hs ha ihm iha =>
    exact node ((Derives.selfValue hm hs ha).derivedIn hx) (each (iha (hm.place_of hx).next))
  | paramsPlain h ih => exact each (ih hx)
  | paramsSelf h hc ih => exact ih hx
  | paramsMore h ht hps ih ihps => exact both (ih hx) (each (ihps (h.place_of hx).next))
  | signature _ => exact nofun
  | body h ihb => exact ihb hx
  | function hc hf' ht hp hps hr hb ihc ihps ihr ihb =>
    have hps' := (hc.place_of hx).next.next.next
    have hr' := hps.place_of hps'
    exact node ⟨_, (Derives.function hc hf' ht hp hps hr hb).derivedIn hx⟩
      (both (ihps hps') (both (each (ihr hr')) (ihb (hr.place_of hr'))))
  | constant h hc hd ha hv hn hs iha ihv =>
    have ha' := hx.next.next.next
    exact node ⟨_, (Derives.constant h hc hd ha hv hn hs).derivedIn hx⟩
      (both (iha ha') (each (ihv (ha.place_of ha'))))
  | memberFunction h ih => exact node ⟨_, (Derives.memberFunction h).derivedIn hx⟩ (ih hx)
  | memberConstant h ih => exact node ⟨_, (Derives.memberConstant h).derivedIn hx⟩ (ih hx)
  | membersNil _ => exact nofun
  | membersCons ha has iha ihas => exact both (iha hx) (ihas ((ha.place_of hx).rename _))
  | itemFunction h ih => exact node ((Derives.itemFunction h).derivedIn hx) (ih hx)
  | itemConstant h ih => exact node ((Derives.itemConstant h).derivedIn hx) (ih hx)
  | itemUnit h hc hs => exact node (alone (.itemUnit h hc hs) hx) nofun
  | itemStruct h hc ho hfs ihfs =>
    exact node ((Derives.itemStruct h hc ho hfs).derivedIn hx) (each (ihfs hx.next.next.next))
  | itemEnum h hc ho hvs ihvs => exact node ((Derives.itemEnum h hc ho hvs).derivedIn hx) nofun
  | itemTrait h hc ho hms ihms =>
    exact node ((Derives.itemTrait h hc ho hms).derivedIn hx) (ihms hx.next.next.next)
  | itemImpl h hi ha ho hms iha ihms =>
    exact node ((Derives.itemImpl h hi ha ho hms).derivedIn hx)
      (both (iha hx.next) (ihms (ha.place_of hx.next).next))
  | itemImplFor h hc hf' ha ho hms iha ihms =>
    have ha' := hx.next.next.next
    exact node ((Derives.itemImplFor h hc hf' ha ho hms).derivedIn hx)
      (both (iha ha') (ihms (ha.place_of ha').next))
  | declaredItem h ih => exact ih hx
  | itemsNil _ => exact nofun
  | itemsCons ha has iha ihas => exact both (iha hx) (ihas (ha.place_of hx))

/-- Every node in a derived tree is derived. -/
theorem Derives.nodes_derived (h : Derives resolve σ ℓ b x t y) :
    ∀ n ∈ σ.nodes t, n.AllDerived resolve :=
  fun n hn m hm => (h.nodes_derivedIn (Place.of_self x.rest x.names) n hn m hm).derived

end FrontEnd
